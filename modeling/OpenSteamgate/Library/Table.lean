import Mathlib.Data.List.Nodup
import Mathlib.Data.List.Basic

structure Table (κ ρ : Type) (key : ρ → κ) where
  rows : List ρ
  nodup : (rows.map key).Nodup

namespace Table

variable {κ ρ : Type} {key : ρ → κ}

def empty : Table κ ρ key := ⟨[],List.nodup_nil⟩

theorem map_key {f : ρ → ρ} (hf : ∀ r,key (f r) = key r) (rows : List ρ) (p : ρ → Bool) :
    (rows.map fun r => if p r then f r else r).map key = rows.map key := by
  rw [List.map_map]
  refine List.map_congr_left fun r _ => ?_
  rw [Function.comp_apply]
  split
  · exact hf r
  · rfl

variable [DecidableEq κ] {t t' : Table κ ρ key} {k l : κ} {r : ρ}

def find (t : Table κ ρ key) (k : κ) : Option ρ := t.rows.find? fun r => key r = k

def insert (t : Table κ ρ key) (r : ρ) : Option (Table κ ρ key) :=
  if h : key r ∈ t.rows.map key then none
  else some ⟨t.rows ++ [r],by
    rw [List.map_append,List.map_singleton]
    exact (List.nodup_append_comm.mp (List.nodup_cons.mpr ⟨h,t.nodup⟩))⟩

def updateAt (t : Table κ ρ key) (k : κ) (p : ρ → Bool) (f : ρ → ρ) (hf : ∀ r,key (f r) = key r) :
    Table κ ρ key × Nat :=
  (⟨t.rows.map fun r => if key r = k && p r then f r else r,
    by
      rw [map_key hf t.rows fun r => key r = k && p r]
      exact t.nodup⟩,
    t.rows.countP fun r => key r = k && p r)

theorem find_mem (h : t.find k = some r) : r ∈ t.rows ∧ key r = k :=
  ⟨List.mem_of_find?_eq_some h,of_decide_eq_true
    (List.find?_some (p := fun r => decide (key r = k)) h)⟩

theorem find_key (h : t.find k = some r) : key r = k := (find_mem h).2

theorem find_rows {rows : List ρ} (hnodup : (rows.map key).Nodup) (h : r ∈ rows) :
    (rows.find? fun r' => key r' = key r) = some r := by
  induction rows with
  | nil => exact nomatch h
  | cons x rows ih =>
    rw [List.map_cons,List.nodup_cons] at hnodup
    rw [List.find?_cons]
    rcases List.mem_cons.mp h with rfl | h
    · simp
    · have hne : key x ≠ key r := fun heq => hnodup.1 (heq ▸ List.mem_map_of_mem h)
      simp only [hne,decide_false]
      exact ih hnodup.2 h

theorem find_of_mem (h : r ∈ t.rows) : t.find (key r) = some r := find_rows t.nodup h

theorem find_none (h : t.find k = none) : k ∉ t.rows.map key := by
  intro hk
  obtain ⟨r,hr,rfl⟩ := List.mem_map.mp hk
  rw [find_of_mem hr] at h
  exact nomatch h

theorem insert_some (h : t.insert r = some t') : t.find (key r) = none ∧ t'.rows = t.rows ++ [r] := by
  rw [insert] at h
  split at h
  · exact nomatch h
  · rename_i hnew
    obtain rfl := Option.some.inj h
    refine ⟨?_,rfl⟩
    rw [find,List.find?_eq_none]
    intro x hx heq
    exact hnew (of_decide_eq_true heq ▸ List.mem_map_of_mem hx)

theorem find_insert (h : t.insert r = some t') (k : κ) :
    t'.find k = if k = key r then some r else t.find k := by
  obtain ⟨hnone,hrows⟩ := insert_some h
  rw [find,hrows,List.find?_append]
  split
  · rename_i hk
    subst hk
    change (t.find (key r)).or _ = _
    rw [hnone]
    simp
  · rename_i hk
    change (t.find k).or _ = _
    simp [Ne.symm hk]

def erase (t : Table κ ρ key) (k : κ) : Table κ ρ key :=
  ⟨t.rows.filter fun r => key r ≠ k,t.nodup.sublist (List.filter_sublist.map key)⟩

theorem find_erase (t : Table κ ρ key) (k l : κ) :
    (t.erase k).find l = if l = k then none else t.find l := by
  rw [find,erase,List.find?_filter]
  split
  · rename_i hl
    rw [List.find?_eq_none]
    intro r _
    simp [hl]
  · rename_i hl
    rw [find]
    congr 1
    funext r
    by_cases hr : key r = l
    · simp [hr,hl]
    · simp [hr]

theorem updateAt_find (t : Table κ ρ key) (k : κ) (p : ρ → Bool) (f : ρ → ρ)
    (hf : ∀ r,key (f r) = key r) (l : κ) : (t.updateAt k p f hf).1.find l =
      if l = k then (t.find k).map fun r => if p r then f r else r else t.find l := by
  cases hfind : t.find l with
  | none =>
    have hnone : (t.updateAt k p f hf).1.find l = none := by
      rw [find,List.find?_eq_none]
      intro x hx heq
      obtain ⟨y,hy,hxy⟩ := List.mem_map.mp hx
      have hkey : key x = key y := by
        rw [← hxy]
        split
        · exact hf y
        · rfl
      have hyl : key y = l := hkey ▸ of_decide_eq_true heq
      exact find_none hfind (hyl ▸ List.mem_map_of_mem hy)
    rw [hnone]
    split
    · rename_i hl
      subst hl
      rw [hfind]
      rfl
    · rfl
  | some r =>
    obtain ⟨hmem,hkey⟩ := find_mem hfind
    have hnew : (if key r = k && p r then f r else r) ∈ (t.updateAt k p f hf).1.rows :=
      List.mem_map_of_mem hmem
    have hnewkey : key (if key r = k && p r then f r else r) = l := by
      split
      · exact (hf r).trans hkey
      · exact hkey
    have hfound := find_of_mem hnew
    rw [hnewkey] at hfound
    rw [hfound,hkey]
    by_cases hl : l = k
    · subst hl
      rw [if_pos rfl,hfind]
      simp
    · simp [hl]

theorem updateAt_count (t : Table κ ρ key) (k : κ) (p : ρ → Bool) (f : ρ → ρ)
    (hf : ∀ r,key (f r) = key r) :
    (t.updateAt k p f hf).2 = if (t.find k).any p then 1 else 0 := by
  change t.rows.countP _ = _
  have hrows : ∀ rows : List ρ,(rows.map key).Nodup → (rows.countP fun r => key r = k && p r) =
      if (rows.find? fun r => key r = k).any p then 1 else 0 := by
    intro rows hnodup
    induction rows with
    | nil => rfl
    | cons x rows ih =>
      rw [List.map_cons,List.nodup_cons] at hnodup
      rw [List.countP_cons,ih hnodup.2,List.find?_cons]
      by_cases hx : key x = k
      · have hnone : (rows.find? fun r => key r = k) = none := by
          rw [List.find?_eq_none]
          intro y hy heq
          exact hnodup.1 ((hx.trans (of_decide_eq_true heq).symm) ▸ List.mem_map_of_mem hy)
        simp [hx,hnone]
      · simp [hx]
  exact hrows t.rows t.nodup

theorem countP_find (t : Table κ ρ key) (k : κ) :
    (t.rows.countP fun r => key r = k) = if (t.find k).isSome then 1 else 0 := by
  have hcount := updateAt_count t k (fun _ => true) id fun _ => rfl
  rw [Option.any_true] at hcount
  rw [← hcount]
  exact congrArg (fun p => t.rows.countP p) (funext fun r => (Bool.and_true _).symm)

end Table
