import Mathlib.Data.List.Infix
import Mathlib.Data.List.Basic

namespace Marked

variable {α β : Type*}

section Index

variable [BEq β] [LawfulBEq β] {v sub : List β} {i : Nat}

def index (v sub : List β) : Option Nat :=
  (List.range (v.length + 1 - sub.length)).find? fun i => sub.isPrefixOf (v.drop i)

theorem index_eq_some : index v sub = some i ↔
    i + sub.length ≤ v.length ∧ sub <+: v.drop i ∧ ∀ j < i,¬sub <+: v.drop j := by
  have hrange : i < v.length + 1 - sub.length ↔ i + sub.length ≤ v.length := by omega
  rw [index,List.find?_range_eq_some,List.isPrefixOf_iff_prefix,List.mem_range,hrange]
  simp only [Bool.not_eq_true',← Bool.not_eq_true,List.isPrefixOf_iff_prefix]
  tauto

theorem index_eq_none : index v sub = none ↔
    ∀ i,i + sub.length ≤ v.length → ¬sub <+: v.drop i := by
  rw [index,List.find?_eq_none]
  simp only [List.isPrefixOf_iff_prefix,List.mem_range]
  refine forall_congr' fun i => ?_
  have hrange : i < v.length + 1 - sub.length ↔ i + sub.length ≤ v.length := by omega
  rw [hrange]

omit [BEq β] [LawfulBEq β] in
theorem fits_of_initial (hne : sub ≠ []) (h : sub <+: v.drop i) : i + sub.length ≤ v.length := by
  have hlen := h.length_le
  have hpos := List.length_pos_iff.mpr hne
  rw [List.length_drop] at hlen
  omega

theorem index_subset (h : index v sub = some i) : sub ⊆ v := by
  obtain ⟨_,hinitial,_⟩ := (index_eq_some).mp h
  exact fun x hx => List.mem_of_mem_drop (hinitial.subset hx)

theorem index_append_some (h : index v sub = some i) (rest : List β) :
    index (v ++ rest) sub = some i := by
  obtain ⟨hfits,hinitial,hfirst⟩ := (index_eq_some).mp h
  refine (index_eq_some).mpr ⟨?_,?_,fun j hj hpre => hfirst j hj ?_⟩
  · rw [List.length_append]
    omega
  · rw [List.drop_append_of_le_length (by omega)]
    exact hinitial.trans (List.prefix_append _ _)
  · rw [List.drop_append_of_le_length (by omega)] at hpre
    refine List.prefix_of_prefix_length_le hpre (List.prefix_append _ _) ?_
    rw [List.length_drop]
    omega

theorem index_self (sub rest : List β) : index (sub ++ rest) sub = some 0 :=
  (index_eq_some).mpr ⟨by simp,List.prefix_append _ _,fun j hj => absurd hj (Nat.not_lt_zero j)⟩

theorem index_lt (hne : sub ≠ []) (h : index v sub = some i) : i < v.length := by
  have hpos := List.length_pos_iff.mpr hne
  have hfits := ((index_eq_some).mp h).1
  omega

variable {m : β} {t rest : List β}

omit [BEq β] [LawfulBEq β] in
theorem prefix_before_mark (hm : m ∉ t) (hi : i < v.length)
    (h : m :: t <+: (v ++ m :: rest).drop i) : m :: t <+: v.drop i := by
  rw [List.drop_append_of_le_length hi.le] at h
  rcases Nat.lt_or_ge (v.drop i).length (m :: t).length with hlen | hlen
  · have hwhole : v.drop i ++ [m] <+: v.drop i ++ m :: rest :=
      ⟨rest,by rw [List.append_assoc,List.singleton_append]⟩
    have hpre := List.prefix_of_prefix_length_le hwhole h (by
      rw [List.length_append]
      exact hlen)
    cases hv : v.drop i with
    | nil =>
      have := congrArg List.length hv
      rw [List.length_drop,List.length_nil] at this
      omega
    | cons x xs =>
      rw [hv] at hpre
      have htail := (List.cons_prefix_cons.mp hpre).2
      exact absurd (htail.subset (List.mem_append_right xs (List.mem_singleton_self m))) hm
  · exact List.prefix_of_prefix_length_le h (List.prefix_append _ _) hlen

theorem index_shift {w : List β} (h : ∀ j < w.length,¬sub <+: (w ++ v).drop j) (hne : sub ≠ []) :
    index (w ++ v) sub = (index v sub).map (w.length + ·) := by
  have hpast : ∀ j,(w ++ v).drop (w.length + j) = v.drop j := fun j => by
    rw [List.drop_append,Nat.add_sub_cancel_left,List.drop_of_length_le (Nat.le_add_right _ j),
      List.nil_append]
  cases hv : index v sub with
  | none =>
    refine (index_eq_none).mpr fun j _ hpre => ?_
    rcases Nat.lt_or_ge j w.length with hj | hj
    · exact h j hj hpre
    · obtain ⟨k,rfl⟩ := Nat.exists_eq_add_of_le hj
      rw [hpast] at hpre
      exact (index_eq_none).mp hv k (fits_of_initial hne hpre) hpre
  | some k =>
    obtain ⟨hfits,hinitial,hfirst⟩ := (index_eq_some).mp hv
    refine (index_eq_some).mpr ⟨?_,?_,fun j hj hpre => ?_⟩
    · rw [List.length_append,Nat.add_assoc]
      exact Nat.add_le_add_left hfits w.length
    · rw [hpast]
      exact hinitial
    · rcases Nat.lt_or_ge j w.length with hlt | hge
      · exact h j hlt hpre
      · obtain ⟨l,rfl⟩ := Nat.exists_eq_add_of_le hge
        rw [hpast] at hpre
        exact hfirst l (Nat.lt_of_add_lt_add_left hj) hpre

theorem index_append_mark (hm : m ∉ t) (h : index v (m :: t) = none) (rest : List β) :
    index (v ++ m :: rest) (m :: t) = (index (m :: rest) (m :: t)).map (v.length + ·) := by
  refine index_shift (fun j hj hpre => ?_) (List.cons_ne_nil m t)
  have hwithin := prefix_before_mark hm hj hpre
  exact (index_eq_none).mp h j (fits_of_initial (List.cons_ne_nil m t) hwithin) hwithin

theorem index_unmarked (h : m ∉ v) : index v (m :: t) = none :=
  (index_eq_none).mpr fun _ _ hpre =>
    h (List.mem_of_mem_drop (hpre.subset (List.mem_cons_self ..)))

end Index

structure Code (D : α → Prop) (lead : β → Prop) (c : α → List β) : Prop where
  shape : ∀ a, D a → ∃ b bs, c a = b :: bs ∧ lead b ∧ ∀ x ∈ bs, ¬lead x
  prefixFree : ∀ a b, D a → D b → c a <+: c b → a = b

namespace Code

variable {D : α → Prop} {lead : β → Prop} {c : α → List β} {ps qs : List α}

theorem flatMap_ne_nil (hc : Code D lead c) (hq : ∀ q ∈ qs,D q) (hne : qs ≠ []) : qs.flatMap c ≠ [] := by
  obtain ⟨q,rest,rfl⟩ := List.exists_cons_of_ne_nil hne
  obtain ⟨b,bs,hshape,_⟩ := hc.shape q (hq q List.mem_cons_self)
  rw [List.flatMap_cons,hshape]
  exact List.cons_ne_nil _ _

theorem prefix_of_flatMap (hc : Code D lead c) (hq : ∀ q ∈ qs,D q) (hp : ∀ p ∈ ps,D p)
    (h : qs.flatMap c <+: ps.flatMap c) : qs <+: ps := by
  induction qs generalizing ps with
  | nil => exact List.nil_prefix
  | cons q qs ih =>
    obtain ⟨hq,hqs⟩ := List.forall_mem_cons.mp hq
    cases ps with
    | nil =>
      obtain ⟨b,bs,hshape,_⟩ := hc.shape q hq
      rw [List.flatMap_cons,hshape] at h
      exact absurd (List.prefix_nil.mp h) (List.cons_ne_nil _ _)
    | cons p ps =>
      obtain ⟨hp,hps⟩ := List.forall_mem_cons.mp hp
      rw [List.flatMap_cons,List.flatMap_cons] at h
      have hqp : q = p := by
        have hleft := (List.prefix_append (c q) (qs.flatMap c)).trans h
        rcases List.prefix_or_prefix_of_prefix hleft (List.prefix_append (c p) (ps.flatMap c))
          with hpre | hpre
        · exact hc.prefixFree q p hq hp hpre
        · exact (hc.prefixFree p q hp hq hpre).symm
      subst hqp
      exact (List.prefix_cons_inj q).mpr (ih hqs hps ((List.prefix_append_right_inj _).mp h))

theorem aligned (hc : Code D lead c) (hp : ∀ p ∈ ps,D p) {b : β} {s : List β} {i : Nat}
    (hb : lead b) (h : (ps.flatMap c).drop i = b :: s) :
    ∃ j ≤ ps.length,i = ((ps.take j).flatMap c).length ∧
      (ps.flatMap c).drop i = (ps.drop j).flatMap c := by
  induction ps generalizing i with
  | nil => simp at h
  | cons p ps ih =>
    obtain ⟨hp,hps⟩ := List.forall_mem_cons.mp hp
    obtain ⟨a,as,hshape,_,htail⟩ := hc.shape p hp
    rw [List.flatMap_cons] at h ⊢
    by_cases hi : i < (c p).length
    · cases i with
      | zero => exact ⟨0,Nat.zero_le _,rfl,rfl⟩
      | succ i =>
        rw [hshape,List.cons_append,List.drop_succ_cons] at h
        rw [hshape,List.length_cons,Nat.succ_lt_succ_iff] at hi
        rw [List.drop_append_of_le_length hi.le,← List.cons_getElem_drop_succ (h := hi),List.cons_append] at h
        exact (htail _ (List.getElem_mem hi) ((List.cons.inj h).1 ▸ hb)).elim
    · obtain ⟨k,rfl⟩ := Nat.exists_eq_add_of_le (Nat.not_lt.mp hi)
      rw [List.drop_length_add_append] at h ⊢
      obtain ⟨j,hj,hk,hdrop⟩ := ih hps h
      refine ⟨j + 1,Nat.succ_le_succ hj,?_,hdrop⟩
      rw [List.take_succ_cons,List.flatMap_cons,List.length_append,← hk]

theorem prefix_drop (hc : Code D lead c) (hq : ∀ q ∈ qs,D q) (hp : ∀ p ∈ ps,D p)
    (hne : qs ≠ []) {i : Nat} (h : qs.flatMap c <+: (ps.flatMap c).drop i) :
    ∃ j,i = ((ps.take j).flatMap c).length ∧ qs <+: ps.drop j := by
  obtain ⟨q,rest,rfl⟩ := List.exists_cons_of_ne_nil hne
  obtain ⟨b,bs,hshape,hb,_⟩ := hc.shape q (hq q List.mem_cons_self)
  obtain ⟨t,ht⟩ := h
  have hcons : (ps.flatMap c).drop i = b :: (bs ++ rest.flatMap c ++ t) := by
    rw [← ht,List.flatMap_cons,hshape]
    simp
  obtain ⟨j,_,hi,hdrop⟩ := hc.aligned hp hb hcons
  refine ⟨j,hi,hc.prefix_of_flatMap hq (fun p hmem => hp p (List.mem_of_mem_drop hmem)) ?_⟩
  exact ⟨t,ht.trans hdrop⟩

theorem drop_flatMap (j : Nat) :
    (ps.flatMap c).drop ((ps.take j).flatMap c).length = (ps.drop j).flatMap c := by
  conv_lhs => rw [← List.take_append_drop j ps,List.flatMap_append]
  rw [List.take_append_drop,List.drop_left]

theorem index_flatMap [BEq α] [LawfulBEq α] [BEq β] [LawfulBEq β] (hc : Code D lead c)
    (hq : ∀ q ∈ qs,D q) (hp : ∀ p ∈ ps,D p) (hne : qs ≠ []) :
    index (ps.flatMap c) (qs.flatMap c) =
      (index ps qs).map fun j => ((ps.take j).flatMap c).length := by
  cases h : index ps qs with
  | none =>
    refine (index_eq_none).mpr fun i _ hi => ?_
    obtain ⟨j,_,hj⟩ := hc.prefix_drop hq hp hne hi
    exact (index_eq_none).mp h j (fits_of_initial hne hj) hj
  | some j =>
    obtain ⟨hfits,hat,hleast⟩ := (index_eq_some).mp h
    obtain ⟨t,ht⟩ := hat
    have hfound : qs.flatMap c <+: (ps.flatMap c).drop ((ps.take j).flatMap c).length := by
      rw [drop_flatMap,← ht,List.flatMap_append]
      exact List.prefix_append _ _
    refine index_eq_some.mpr ⟨fits_of_initial (hc.flatMap_ne_nil hq hne) hfound,hfound,fun i hi hbefore => ?_⟩
    obtain ⟨k,rfl,hk⟩ := hc.prefix_drop hq hp hne hbefore
    have hjk : j ≤ k := Nat.not_lt.mp fun hkj => hleast k hkj hk
    exact absurd hi (Nat.not_lt.mpr ((List.take_prefix_take_left hjk).flatMap c).length_le)

end Code

end Marked
