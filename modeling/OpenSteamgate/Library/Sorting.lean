import Mathlib.Data.List.Nodup
import Mathlib.Order.Basic
import Mathlib.Data.Int.Order.Basic

namespace Sorting

variable {α : Type*} {c : α → α → ℤ} {p : α → ℤ} {xs : List α} {a b : α}

structure Comparison (c : α → α → ℤ) : Prop where
  swap : ∀ a b,c a b < 0 ↔ 0 < c b a
  trans : ∀ a b d,c a b ≤ 0 → c b d ≤ 0 → c a d ≤ 0

structure Point (c : α → α → ℤ) (p : α → ℤ) : Prop where
  below : ∀ a b,c a b ≤ 0 → p b ≤ 0 → p a ≤ 0
  above : ∀ a b,c a b ≤ 0 → 0 ≤ p a → 0 ≤ p b
  through : ∀ a b,p a ≤ 0 → 0 ≤ p b → c a b ≤ 0

def stable (c : α → α → ℤ) (xs : List α) : List α := xs.mergeSort fun a b => !decide (c b a < 0)

theorem stable_perm (c : α → α → ℤ) (xs : List α) : (stable c xs).Perm xs := List.mergeSort_perm _ _

namespace Comparison

theorem le_iff (h : Comparison c) : (!decide (c b a < 0)) = true ↔ c a b ≤ 0 := by
  rw [Bool.not_eq_true',decide_eq_false_iff_not,h.swap]
  exact not_lt

theorem total (h : Comparison c) (a b : α) : c a b ≤ 0 ∨ c b a ≤ 0 := by
  by_cases hab : c a b ≤ 0
  · exact .inl hab
  · exact .inr ((h.swap b a).mpr (not_le.mp hab)).le

theorem eq_comm (h : Comparison c) (hab : c a b = 0) : c b a = 0 := by
  have hlt := h.swap a b
  have hgt := h.swap b a
  omega

end Comparison

theorem pair_sublist (ha : a ∈ xs) (hb : b ∈ xs) (hne : a ≠ b) : [a,b].Sublist xs ∨ [b,a].Sublist xs := by
  induction xs with
  | nil => cases ha
  | cons x xs ih =>
    rcases List.mem_cons.mp ha with rfl | ha'
    · rcases List.mem_cons.mp hb with rfl | hb'
      · exact absurd rfl hne
      · exact .inl (.cons_cons _ (List.singleton_sublist.mpr hb'))
    · rcases List.mem_cons.mp hb with rfl | hb'
      · exact .inr (.cons_cons _ (List.singleton_sublist.mpr ha'))
      · exact (ih ha' hb').imp (.cons _) (.cons _)

theorem not_swapped (h : xs.Nodup) (hab : [a,b].Sublist xs) : ¬[b,a].Sublist xs := by
  induction xs with
  | nil => cases hab
  | cons x xs ih =>
    obtain ⟨hx,hxs⟩ := List.nodup_cons.mp h
    intro hba
    cases hab with
    | cons _ hab =>
      cases hba with
      | cons _ hba => exact ih hxs hab hba
      | cons_cons _ hba => exact hx (hab.subset (List.mem_cons_of_mem _ (List.mem_singleton.mpr rfl)))
    | cons_cons _ hb =>
      cases hba with
      | cons _ hba => exact hx (hba.subset (List.mem_cons_of_mem _ (List.mem_singleton.mpr rfl)))
      | cons_cons _ _ => exact hx (List.singleton_sublist.mp hb)

theorem stable_pairwise {r : α → α → Prop} (h : Comparison c) (hxs : xs.Nodup) (hr : xs.Pairwise r) :
    (stable c xs).Pairwise fun a b => c a b < 0 ∨ c a b = 0 ∧ r a b := by
  have htrans : ∀ a b d,(!decide (c b a < 0)) = true → (!decide (c d b < 0)) = true →
      (!decide (c d a < 0)) = true := fun a b d hab hbd =>
    h.le_iff.mpr (h.trans a b d (h.le_iff.mp hab) (h.le_iff.mp hbd))
  have htotal : ∀ a b,((!decide (c b a < 0)) || (!decide (c a b < 0))) = true := fun a b =>
    Bool.or_eq_true_iff.mpr ((h.total a b).imp h.le_iff.mpr h.le_iff.mpr)
  have hsorted := List.pairwise_mergeSort htrans htotal xs
  refine List.pairwise_of_forall_sublist fun {a b} hab => ?_
  have hle : c a b ≤ 0 := h.le_iff.mp (hsorted.forall_sublist hab)
  refine (lt_or_eq_of_le hle).imp_right fun hzero => ⟨hzero,?_⟩
  have hnodup : (stable c xs).Nodup := (stable_perm c xs).nodup_iff.mpr hxs
  have hne : a ≠ b := hnodup.forall_sublist hab
  have hmem : ∀ d ∈ [a,b],d ∈ xs := fun d hd => (stable_perm c xs).mem_iff.mp (hab.subset hd)
  refine hr.forall_sublist ((pair_sublist (hmem a (by simp)) (hmem b (by simp)) hne).resolve_right fun hba => ?_)
  have hkept := List.pair_sublist_mergeSort htrans htotal (h.le_iff.mpr (h.eq_comm hzero).le) hba
  exact not_swapped hnodup hab hkept

theorem filter_append {q : α → Bool} (h : xs.Pairwise fun a b => q b = true → q a = true) :
    xs = xs.filter q ++ xs.filter (!q ·) := by
  induction xs with
  | nil => rfl
  | cons x xs ih =>
    obtain ⟨hx,hxs⟩ := List.pairwise_cons.mp h
    cases hq : q x with
    | true =>
      rw [List.filter_cons_of_pos hq,List.filter_cons_of_neg (by simp [hq]),List.cons_append,← ih hxs]
    | false =>
      have hnone : xs.filter q = [] := by
        refine List.filter_eq_nil_iff.mpr fun b hb hqb => ?_
        rw [hx b hb hqb] at hq
        cases hq
      have hall : xs.filter (!q ·) = xs := by
        refine List.filter_eq_self.mpr fun b hb => ?_
        rw [Bool.not_eq_true',← Bool.not_eq_true]
        exact List.filter_eq_nil_iff.mp hnone b hb
      rw [List.filter_cons_of_neg (by simp [hq]),List.filter_cons_of_pos (by simp [hq]),hnone,hall]
      rfl

end Sorting

namespace Sorting

variable {α ε : Type} {compare : α → α → Except ε ℤ} {x y : α} {s t : List α}

def insertBy (compare : α → α → Except ε ℤ) (x : α) : List α → Except ε (List α)
  | [] => .ok [x]
  | y :: ys => do
    let c ← compare x y
    if c ≤ 0 then return x :: y :: ys
    else return y :: (← insertBy compare x ys)

def sortBy (compare : α → α → Except ε ℤ) : List α → Except ε (List α)
  | [] => .ok []
  | x :: xs => do insertBy compare x (← sortBy compare xs)

def Before (compare : α → α → Except ε ℤ) (x y : α) : Prop := ∃ c,compare x y = .ok c ∧ c < 0

def Apart (compare : α → α → Except ε ℤ) (x y : α) : Prop := ∃ c,compare x y = .ok c ∧ c ≠ 0

structure Comparing (compare : α → α → Except ε ℤ) : Prop where
  swap : ∀ x y c,compare x y = .ok c → compare y x = .ok (-c)
  trans : ∀ x y z,Before compare x y → Before compare y z → Before compare x z

theorem Comparing.apart_symm (h : Comparing compare) (hxy : Apart compare x y) : Apart compare y x := by
  obtain ⟨c,hc,hne⟩ := hxy
  exact ⟨-c,h.swap x y c hc,by omega⟩

theorem Comparing.asymm (h : Comparing compare) (hxy : Before compare x y) : ¬Before compare y x := by
  rintro ⟨d,hd,hneg⟩
  obtain ⟨c,hc,hlt⟩ := hxy
  have heq := Except.ok.inj ((h.swap x y c hc).symm.trans hd)
  omega

theorem insertBy_spec (h : Comparing compare) (hx : ∀ y ∈ s,Apart compare x y)
    (hs : s.Pairwise (Before compare)) : ∃ r,insertBy compare x s = .ok r ∧ r.Perm (x :: s) ∧
      r.Pairwise (Before compare) := by
  induction s with
  | nil => exact ⟨[x],rfl,.refl _,List.pairwise_singleton _ _⟩
  | cons y ys ih =>
    obtain ⟨hy,hys⟩ := List.pairwise_cons.mp hs
    obtain ⟨c,hc,hne⟩ := hx y List.mem_cons_self
    by_cases hle : c ≤ 0
    · refine ⟨x :: y :: ys,?_,.refl _,List.pairwise_cons.mpr ⟨fun z hz => ?_,hs⟩⟩
      · rw [insertBy,hc]
        exact if_pos hle
      · have hxy : Before compare x y := ⟨c,hc,by omega⟩
        rcases List.mem_cons.mp hz with rfl | hz
        · exact hxy
        · exact h.trans x y z hxy (hy z hz)
    · obtain ⟨r,hr,hperm,hsorted⟩ := ih (fun z hz => hx z (List.mem_cons_of_mem _ hz)) hys
      refine ⟨y :: r,?_,(hperm.cons y).trans (.swap x y ys),List.pairwise_cons.mpr ⟨fun z hz => ?_,hsorted⟩⟩
      · rw [insertBy,hc]
        refine Eq.trans (if_neg hle) ?_
        rw [hr]
        rfl
      · rcases List.mem_cons.mp (hperm.mem_iff.mp hz) with rfl | hz
        · exact ⟨-c,h.swap z y c hc,by omega⟩
        · exact hy z hz

theorem sortBy_spec (h : Comparing compare) (hs : s.Pairwise (Apart compare)) : ∃ r,
    sortBy compare s = .ok r ∧ r.Perm s ∧ r.Pairwise (Before compare) := by
  induction s with
  | nil => exact ⟨[],rfl,.refl _,.nil⟩
  | cons x xs ih =>
    obtain ⟨hx,hxs⟩ := List.pairwise_cons.mp hs
    obtain ⟨r,hr,hperm,hsorted⟩ := ih hxs
    obtain ⟨r',hr',hperm',hsorted'⟩ :=
      insertBy_spec h (fun y hy => hx y (hperm.mem_iff.mp hy)) hsorted
    refine ⟨r',?_,hperm'.trans (hperm.cons x),hsorted'⟩
    rw [sortBy,hr]
    exact hr'

theorem sortBy_perm (h : Comparing compare) (hs : s.Pairwise (Apart compare)) (hst : s.Perm t) :
    sortBy compare s = sortBy compare t := by
  have ht : t.Pairwise (Apart compare) := (hst.pairwise_iff fun hxy => h.apart_symm hxy).mp hs
  obtain ⟨r,hr,hperm,hsorted⟩ := sortBy_spec h hs
  obtain ⟨r',hr',hperm',hsorted'⟩ := sortBy_spec h ht
  have hsame : r.Perm r' := hperm.trans (hst.trans hperm'.symm)
  rw [hr,hr',hsame.eq_of_pairwise (fun _ _ _ _ hxy hyx => absurd hyx (h.asymm hxy)) hsorted hsorted']

end Sorting
