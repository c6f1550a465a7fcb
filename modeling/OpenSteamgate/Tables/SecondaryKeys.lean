import Mathlib.Order.Fin.Basic
import OpenSteamgate.Library.Sorting

namespace OpenSteamgate.Tables

open Sorting

structure NotCompiled where
  what : String
  reason : String

def heldTwice (unique : String) : NotCompiled :=
  ⟨"secondary key " ++ unique,"a unique key holds a value twice"⟩

variable {n : Nat}

def repeated (c : Fin n → Fin n → Int) : List (Fin n) → Bool
  | a :: b :: ord => c a b == 0 || repeated c (b :: ord)
  | _ => false

def keyOrder (n : Nat) (c : Fin n → Fin n → Int) (unique : String) : Except NotCompiled (List (Fin n)) :=
  let ord := stable c (List.finRange n).reverse
  if unique ≠ "" ∧ repeated c ord = true then .error (heldTwice unique) else .ok ord

structure Counts where
  less : Nat := 0
  pick : Int := -1
  equal : Nat := 0

def count (c : Fin n → Int) (s : Counts) (i : Fin n) : Counts :=
  if c i < 0 then {s with less := s.less + 1}
  else if c i = 0 then {s with equal := s.equal + 1,pick := if s.pick < i.val then i.val else s.pick}
  else s

def counts (n : Nat) (c : Fin n → Int) : Counts := (List.finRange n).foldl (count c) {}

def keyRead (n : Nat) (c : Fin n → Int) (unique : String) : Except NotCompiled (Int × Int32 × Int32) :=
  let s := counts n c
  if unique ≠ "" ∧ 1 < s.equal then .error (heldTwice unique)
  else if 0 ≤ s.pick then .ok (s.pick,Int32.ofNat (s.less + 1),0)
  else if s.less = n then .ok (-1,Int32.ofNat (s.less + 1),8)
  else .ok (-1,Int32.ofNat (s.less + 1),4)

section order

variable {c : Fin n → Fin n → Int} {p : Fin n → Int} {ord : List (Fin n)}

def under (p : Fin n → Int) (i : Fin n) : Bool := decide (p i < 0)

structure Ordered (c : Fin n → Fin n → Int) (ord : List (Fin n)) : Prop where
  perm : ord.Perm (List.finRange n)
  newest : ord.Pairwise fun a b => c a b < 0 ∨ c a b = 0 ∧ b < a

theorem keyOrder_ordered (h : Comparison c) : ∃ ord,keyOrder n c "" = .ok ord ∧ Ordered c ord := by
  have hlatest : (List.finRange n).reverse.Pairwise fun a b => b < a :=
    List.pairwise_reverse.mpr (List.pairwise_lt_finRange n)
  have hnodup := List.nodup_reverse.mpr (List.nodup_finRange n)
  have hunique : ¬("" ≠ "" ∧ repeated c (stable c (List.finRange n).reverse) = true) := fun h => h.1 rfl
  refine ⟨stable c (List.finRange n).reverse,?_,?_,stable_pairwise h hnodup hlatest⟩
  · rw [keyOrder]
    exact if_neg hunique
  · exact (stable_perm c _).trans (List.reverse_perm _)

theorem Ordered.ascending (h : Ordered c ord) : ord.Pairwise fun a b => c a b ≤ 0 :=
  h.newest.imp fun hab => by omega

theorem Ordered.mem (h : Ordered c ord) (i : Fin n) : i ∈ ord := h.perm.mem_iff.mpr (List.mem_finRange i)

theorem Ordered.split (h : Ordered c ord) (hp : Point c p) :
    ord = ord.filter (under p) ++ ord.filter (!under p ·) := by
  refine filter_append (h.ascending.imp fun {a b} hab hb => ?_)
  have hb := of_decide_eq_true hb
  refine decide_eq_true (lt_of_not_ge fun ha => ?_)
  exact absurd (hp.above a b hab ha) (not_le.mpr hb)

theorem Ordered.drop_less (h : Ordered c ord) (hp : Point c p) :
    ord.drop (ord.countP (under p)) = ord.filter (!under p ·) := by
  have hlen : ord.countP (under p) = (ord.filter (under p)).length := List.countP_eq_length_filter
  calc ord.drop (ord.countP (under p))
      = (ord.filter (under p) ++ ord.filter (!under p ·)).drop (ord.filter (under p)).length := by
        rw [← h.split hp,hlen]
    _ = ord.filter (!under p ·) := List.drop_left

theorem Ordered.take_less (h : Ordered c ord) (hp : Point c p) :
    ord.take (ord.countP (under p)) = ord.filter (under p) := by
  have hlen : ord.countP (under p) = (ord.filter (under p)).length := List.countP_eq_length_filter
  calc ord.take (ord.countP (under p))
      = (ord.filter (under p) ++ ord.filter (!under p ·)).take (ord.filter (under p)).length := by
        rw [← h.split hp,hlen]
    _ = ord.filter (under p) := List.take_left

theorem Ordered.first_equal (h : Ordered c ord) (hc : Comparison c) (hp : Point c p) {e : Fin n} (he : p e = 0) :
    ∃ i,ord[ord.countP (under p)]? = some i ∧ p i = 0 ∧ ∀ j,p j = 0 → j ≤ i := by
  have hmem : ∀ j,p j = 0 → j ∈ ord.filter (!under p ·) := fun j hj =>
    List.mem_filter.mpr ⟨h.mem j,by simp [under,hj]⟩
  have hnewest := h.newest.filter (!under p ·)
  rw [← List.head?_drop,h.drop_less hp]
  cases hrest : ord.filter (!under p ·) with
  | nil =>
    have := hmem e he
    rw [hrest] at this
    cases this
  | cons i rest =>
    rw [hrest] at hmem hnewest
    have hi : 0 ≤ p i := by
      have : i ∈ ord.filter (!under p ·) := by
        rw [hrest]
        exact List.mem_cons_self
      simpa [under] using (List.mem_filter.mp this).2
    have hlater : ∀ j,p j = 0 → j = i ∨ c i j < 0 ∨ c i j = 0 ∧ j < i := fun j hj =>
      (List.mem_cons.mp (hmem j hj)).imp_right fun hj => (List.pairwise_cons.mp hnewest).1 j hj
    have hzero : p i = 0 := by
      rcases hlater e he with rfl | hie
      · exact he
      · exact le_antisymm (hp.below i e (by omega) he.le) hi
    refine ⟨i,rfl,hzero,fun j hj => ?_⟩
    rcases hlater j hj with rfl | hij
    · exact le_rfl
    · have heq : c j i ≤ 0 := hp.through j i hj.le hzero.ge
      have hnot : ¬c i j < 0 := fun hlt => absurd heq (not_le.mpr ((hc.swap i j).mp hlt))
      omega

end order

section reading

variable {p : Fin n → Int} {rows : List (Fin n)} {i : Fin n}

structure Counted (p : Fin n → Int) (rows : List (Fin n)) (s : Counts) : Prop where
  less : s.less = rows.countP (under p)
  equal : s.equal = rows.countP (p · = 0)
  none : (∀ j ∈ rows,p j ≠ 0) → s.pick = -1
  some : ∀ e ∈ rows,p e = 0 → ∃ j ∈ rows,p j = 0 ∧ s.pick = j.val ∧ ∀ k ∈ rows,p k = 0 → k ≤ j

theorem count_counted {s : Counts} (h : Counted p rows s) (i : Fin n) :
    Counted p (rows ++ [i]) (count p s i) := by
  have hmem : ∀ {j : Fin n},j ∈ rows ++ [i] ↔ j ∈ rows ∨ j = i := fun {j} => by
    rw [List.mem_append,List.mem_singleton]
  rw [count]
  by_cases hlt : p i < 0
  · have hne : ∀ {j : Fin n},p j = 0 → j ∈ rows ++ [i] → j ∈ rows := fun hj hmem' =>
      (hmem.mp hmem').resolve_right fun he => by
        subst he
        omega
    rw [if_pos hlt]
    refine ⟨?_,?_,fun hnone => h.none fun j hj => hnone j (hmem.mpr (.inl hj)),fun e he hzero => ?_⟩
    · simp [h.less,under,hlt]
    · simp [h.equal,hlt.ne]
    · obtain ⟨j,hj,hzj,hpick,hmax⟩ := h.some e (hne hzero he) hzero
      exact ⟨j,hmem.mpr (.inl hj),hzj,hpick,fun k hk hzk => hmax k (hne hzk hk) hzk⟩
  · rw [if_neg hlt]
    by_cases hzero : p i = 0
    · rw [if_pos hzero]
      refine ⟨?_,?_,fun hnone => absurd hzero (hnone i (hmem.mpr (.inr rfl))),fun e he hze => ?_⟩
      · simp [h.less,under,hlt]
      · simp [h.equal,hzero]
      · by_cases hearlier : ∀ j ∈ rows,p j ≠ 0
        · refine ⟨i,hmem.mpr (.inr rfl),hzero,?_,fun k hk hzk => ?_⟩
          · have hpick := h.none hearlier
            simp only [hpick]
            rw [if_pos (by omega)]
          · exact ((hmem.mp hk).resolve_left fun hk => hearlier k hk hzk).le
        · obtain ⟨d,hd,hzd⟩ : ∃ d ∈ rows,p d = 0 := by simpa using hearlier
          obtain ⟨j,hj,hzj,hpick,hmax⟩ := h.some d hd hzd
          simp only [hpick]
          by_cases hlater : (j.val : Int) < i.val
          · refine ⟨i,hmem.mpr (.inr rfl),hzero,if_pos hlater,fun k hk hzk => ?_⟩
            rcases hmem.mp hk with hk | rfl
            · have hle := Fin.le_def.mp (hmax k hk hzk)
              exact Fin.le_def.mpr (by omega)
            · exact le_rfl
          · refine ⟨j,hmem.mpr (.inl hj),hzj,if_neg hlater,fun k hk hzk => ?_⟩
            rcases hmem.mp hk with hk | hk
            · exact hmax k hk hzk
            · rw [hk]
              exact Fin.le_def.mpr (by omega)
    · rw [if_neg hzero]
      have hne : ∀ {j : Fin n},p j = 0 → j ∈ rows ++ [i] → j ∈ rows := fun hj hmem' =>
        (hmem.mp hmem').resolve_right fun he => hzero (he ▸ hj)
      refine ⟨?_,?_,fun hnone => h.none fun j hj => hnone j (hmem.mpr (.inl hj)),fun e he hze => ?_⟩
      · simp [h.less,under,hlt]
      · simp [h.equal,hzero]
      · obtain ⟨j,hj,hzj,hpick,hmax⟩ := h.some e (hne hze he) hze
        exact ⟨j,hmem.mpr (.inl hj),hzj,hpick,fun k hk hzk => hmax k (hne hzk hk) hzk⟩

theorem counts_counted (p : Fin n → Int) : Counted p (List.finRange n) (counts n p) := by
  have hrun : ∀ (rows passed : List (Fin n)) (s : Counts),Counted p passed s →
      Counted p (passed ++ rows) (rows.foldl (count p) s) := by
    intro rows
    induction rows with
    | nil =>
      intro passed s h
      rwa [List.append_nil]
    | cons i rows ih =>
      intro passed s h
      rw [List.foldl_cons,List.append_cons]
      exact ih _ _ (count_counted h i)
  exact hrun (List.finRange n) [] {} ⟨rfl,rfl,fun _ => rfl,nofun⟩

theorem counts_less {ord : List (Fin n)} (h : ord.Perm (List.finRange n)) :
    (counts n p).less = ord.countP (under p) := by
  rw [(counts_counted p).less]
  exact (h.countP_eq _).symm

theorem counts_none (h : ∀ j,p j ≠ 0) : (counts n p).pick = -1 := (counts_counted p).none fun j _ => h j

theorem counts_some {e : Fin n} (h : p e = 0) :
    ∃ j,p j = 0 ∧ (counts n p).pick = j.val ∧ ∀ k,p k = 0 → k ≤ j := by
  obtain ⟨j,-,hj,hpick,hmax⟩ := (counts_counted p).some e (List.mem_finRange e) h
  exact ⟨j,hj,hpick,fun k hk => hmax k (List.mem_finRange k) hk⟩

theorem keyRead_found {unique : String} {r : Int × Int32 × Int32} (h : keyRead n p unique = .ok r)
    (hfound : 0 ≤ (counts n p).pick) : r = ((counts n p).pick,Int32.ofNat ((counts n p).less + 1),0) := by
  rw [keyRead] at h
  split at h
  · cases h
  · exact (Except.ok.inj h).symm

theorem keyRead_missed {unique : String} {r : Int × Int32 × Int32} (h : keyRead n p unique = .ok r)
    (hnone : ∀ j,p j ≠ 0) :
    r = (-1,Int32.ofNat ((counts n p).less + 1),if (counts n p).less = n then 8 else 4) := by
  have hpick : ¬0 ≤ (counts n p).pick := by
    rw [counts_none hnone]
    decide
  rw [keyRead] at h
  split at h
  · cases h
  · split at h
    · next hall =>
      rw [if_pos hall]
      exact (Except.ok.inj h).symm
    · next hsome =>
      rw [if_neg hsome]
      exact (Except.ok.inj h).symm

theorem keyRead_plain (p : Fin n → Int) : ∃ r,keyRead n p "" = .ok r := by
  rw [keyRead]
  rw [if_neg (fun h => h.1 rfl)]
  split
  · exact ⟨_,rfl⟩
  · split <;> exact ⟨_,rfl⟩

theorem toInt_position {k : Nat} (h : k + 1 < 2147483648) : (Int32.ofNat (k + 1)).toInt = k + 1 := by
  rw [Int32.toInt_ofNat_of_lt h]
  rfl

structure Placed (p : Fin n → Int) (ord : List (Fin n)) (k : Nat) (r : Int × Int32 × Int32) : Prop where
  position : r.2.1 = Int32.ofNat (k + 1)
  bounded : k ≤ n
  found : (∃ e,p e = 0) → ∃ i,p i = 0 ∧ ord[k]? = some i ∧ r.1 = i.val ∧ r.2.2 = 0
  missed : (∀ e,p e ≠ 0) → r.1 = -1 ∧ (∀ i ∈ ord.take k,p i < 0) ∧ (∀ i ∈ ord.drop k,0 < p i) ∧
    r.2.2 = if k = n then 8 else 4

theorem keyRead_placed {c : Fin n → Fin n → Int} {ord : List (Fin n)} (hc : Comparison c) (hp : Point c p)
    (h : Ordered c ord) {unique : String} {r : Int × Int32 × Int32} (hread : keyRead n p unique = .ok r) :
    Placed p ord (ord.countP (under p)) r := by
  have hless := counts_less (p := p) h.perm
  have hbounded : ord.countP (under p) ≤ n := by
    have hle := List.countP_le_length (p := under p) (l := ord)
    rwa [h.perm.length_eq,List.length_finRange] at hle
  by_cases hany : ∃ e,p e = 0
  · obtain ⟨e,he⟩ := hany
    obtain ⟨j,hj,hpick,hmax⟩ := counts_some he
    obtain ⟨i,hat,hi,hnewest⟩ := h.first_equal hc hp he
    have hr := keyRead_found hread (by omega)
    rw [hpick,hless] at hr
    have hij : i = j := le_antisymm (hmax i hi) (hnewest j hj)
    refine ⟨by rw [hr],hbounded,fun _ => ⟨i,hi,hat,by rw [hr,hij],by rw [hr]⟩,fun hnone => ?_⟩
    exact absurd he (hnone e)
  · have hnone : ∀ e,p e ≠ 0 := fun e he => hany ⟨e,he⟩
    have hr := keyRead_missed hread hnone
    rw [hless] at hr
    refine ⟨by rw [hr],hbounded,fun hsome => absurd hsome hany,fun _ => ⟨by rw [hr],?_,?_,by rw [hr]⟩⟩
    · intro i hi
      rw [h.take_less hp] at hi
      exact of_decide_eq_true (List.mem_filter.mp hi).2
    · intro i hi
      rw [h.drop_less hp] at hi
      have hle : 0 ≤ p i := by simpa [under] using (List.mem_filter.mp hi).2
      exact lt_of_le_of_ne hle (hnone i).symm

theorem secondary_key {c : Fin n → Fin n → Int} (hc : Comparison c) (hp : Point c p) :
    ∃ ord k,keyOrder n c "" = .ok ord ∧ ord.Perm (List.finRange n) ∧
      (ord.Pairwise fun a b => c a b < 0 ∨ c a b = 0 ∧ b < a) ∧ (∃ r,keyRead n p "" = .ok r) ∧
      (∀ unique r,keyRead n p unique = .ok r → Placed p ord k r) ∧
      (k + 1 < 2147483648 → (Int32.ofNat (k + 1)).toInt = k + 1) := by
  obtain ⟨ord,hord,hordered⟩ := keyOrder_ordered hc
  exact ⟨ord,ord.countP (under p),hord,hordered.perm,hordered.newest,keyRead_plain p,
    fun _ _ hread => keyRead_placed hc hp hordered hread,toInt_position⟩

def sampleKeys (i : Fin 3) : Int := if i.val = 1 then 3 else 5

theorem sampleKeys_compare : Comparison (fun i j : Fin 3 => sampleKeys i - sampleKeys j) where
  swap a b := by omega
  trans a b d hab hbd := by omega

theorem sampleKeys_point : Point (fun i j => sampleKeys i - sampleKeys j) (fun i => sampleKeys i - 5) where
  below a b hab hb := by omega
  above a b hab ha := by omega
  through a b ha hb := by omega

theorem secondary_key_three :
    ∃ ord k,keyOrder 3 (fun i j => sampleKeys i - sampleKeys j) "" = .ok ord ∧
      ord.Perm (List.finRange 3) ∧
      (ord.Pairwise fun a b => sampleKeys a - sampleKeys b < 0 ∨ sampleKeys a - sampleKeys b = 0 ∧ b < a) ∧
      (∃ r,keyRead 3 (fun i => sampleKeys i - 5) "" = .ok r) ∧
      (∀ unique r,keyRead 3 (fun i => sampleKeys i - 5) unique = .ok r →
        Placed (fun i => sampleKeys i - 5) ord k r) ∧
      (k + 1 < 2147483648 → (Int32.ofNat (k + 1)).toInt = k + 1) :=
  secondary_key sampleKeys_compare sampleKeys_point

theorem position_wraps : ¬∀ (n : Nat) (c : Fin n → Fin n → Int) (p : Fin n → Int),Comparison c → Point c p →
    (∀ i,p i ≠ 0) → ∀ r,keyRead n p "" = .ok r → (r.2.2 = 8 ↔ r.2.1.toInt = n + 1) := by
  intro h
  have hall : (counts 2147483647 fun _ => -1).less = 2147483647 := by
    have hunder := List.countP_eq_length (p := under fun _ : Fin 2147483647 => (-1 : Int))
      (l := List.finRange 2147483647)
    rw [counts_less (List.Perm.refl _),hunder.mpr fun _ _ => rfl,List.length_finRange]
  have hnone : ∀ i : Fin 2147483647,(fun _ : Fin 2147483647 => (-1 : Int)) i ≠ 0 := fun _ h => by cases h
  obtain ⟨r,hr⟩ := keyRead_plain (n := 2147483647) fun _ => -1
  have hiff := h 2147483647 (fun _ _ => 0) (fun _ => -1) ⟨by simp,by simp⟩
    ⟨by simp,by simp,by simp⟩ hnone r hr
  have hmissed := keyRead_missed hr hnone
  rw [hall,if_pos rfl] at hmissed
  rw [hmissed] at hiff
  exact absurd (hiff.mp rfl) (by decide)

end reading

end OpenSteamgate.Tables
