import Mathlib.Tactic.Common
import OpenSteamgate.Library.Marked

namespace Marked

variable {α β : Type*}

def shift (k : Nat) (s : Nat × Nat) : Nat × Nat := (k + s.1,k + s.2)

@[simp] theorem shift_zero (s : Nat × Nat) : shift 0 s = s := by simp [shift]

@[simp] theorem shift_shift (j k : Nat) (s : Nat × Nat) : shift j (shift k s) = shift (j + k) s := by
  simp [shift,Nat.add_assoc]

section Spans

variable [BEq β] {v sub : List β} {i : Nat}

theorem index_fits (h : index v sub = some i) : i < v.length + 1 - sub.length :=
  List.mem_range.mp (List.mem_of_find?_eq_some h)

@[grind =] def spans (sub v : List β) : List (Nat × Nat) :=
  match _h : index v sub with
  | none => []
  | some i =>
    if _hne : sub = [] then []
    else (i,i + sub.length) :: (spans sub (v.drop (i + sub.length))).map (shift (i + sub.length))
termination_by v.length
decreasing_by
  have hlen := List.length_pos_iff.mpr _hne
  have hfits := index_fits _h
  rw [List.length_drop]
  omega

theorem spans_none (h : index v sub = none) : spans sub v = [] := by
  rw [spans]
  split
  · rfl
  · rename_i heq
    rw [h] at heq
    cases heq

theorem spans_some (hne : sub ≠ []) (h : index v sub = some i) : spans sub v =
    (i,i + sub.length) :: (spans sub (v.drop (i + sub.length))).map (shift (i + sub.length)) := by
  rw [spans]
  split
  · rename_i heq
    rw [h] at heq
    cases heq
  · rename_i j heq
    obtain rfl : i = j := Option.some.inj (h.symm.trans heq)
    rw [dif_neg hne]

variable [LawfulBEq β]

theorem spans_short (h : v.length < sub.length) : spans sub v = [] :=
  spans_none (index_eq_none.mpr fun i hi => by omega)

theorem spans_prefix (hne : sub ≠ []) (h : sub <+: v) : spans sub v =
    (0,sub.length) :: (spans sub (v.drop sub.length)).map (shift sub.length) := by
  have hindex : index v sub = some 0 := by
    obtain ⟨t,rfl⟩ := h
    exact index_self sub t
  rw [spans_some hne hindex,Nat.zero_add]

theorem spans_cons {x : β} (hne : sub ≠ []) (h : ¬sub <+: x :: v) :
    spans sub (x :: v) = (spans sub v).map (shift 1) := by
  have hindex : index (x :: v) sub = (index v sub).map (1 + ·) := by
    apply index_shift (w := [x]) _ hne
    intro j hj
    obtain rfl : j = 0 := by simpa using hj
    exact h
  cases hv : index v sub with
  | none =>
    rw [hv] at hindex
    rw [spans_none hindex,spans_none hv]
    rfl
  | some i =>
    rw [hv] at hindex
    rw [spans_some hne hindex,spans_some hne hv]
    have hdrop : (x :: v).drop (1 + i + sub.length) = v.drop (i + sub.length) := by
      rw [Nat.add_assoc,Nat.add_comm 1,List.drop_succ_cons]
    rw [hdrop]
    simp [shift,Nat.add_assoc]

theorem mem_spans {s : Nat × Nat} (h : s ∈ spans sub v) :
    s.2 = s.1 + sub.length ∧ s.2 ≤ v.length ∧ sub <+: v.drop s.1 := by
  induction hn : v.length using Nat.strong_induction_on generalizing v s with
  | h n ih =>
    by_cases hne : sub = []
    · rw [spans] at h
      split at h
      · cases h
      · rw [dif_pos hne] at h
        cases h
    · cases hindex : index v sub with
      | none =>
        rw [spans_none hindex] at h
        cases h
      | some i =>
        have hpos := List.length_pos_iff.mpr hne
        obtain ⟨hfits,hat,-⟩ := index_eq_some.mp hindex
        rw [spans_some hne hindex] at h
        rcases List.mem_cons.mp h with rfl | h
        · exact ⟨rfl,by omega,hat⟩
        · obtain ⟨t,ht,rfl⟩ := List.mem_map.mp h
          obtain ⟨hstop,hle,hword⟩ := ih _ (by rw [List.length_drop]; omega) ht rfl
          rw [List.length_drop] at hle
          rw [List.drop_drop] at hword
          exact ⟨by simp only [shift]; omega,by simp only [shift]; omega,hword⟩

theorem spans_length (sub v : List β) : (spans sub v).length ≤ v.length := by
  induction hn : v.length using Nat.strong_induction_on generalizing v with
  | h n ih =>
    by_cases hne : sub = []
    · rw [spans]
      split
      · exact Nat.zero_le _
      · rw [dif_pos hne]
        exact Nat.zero_le _
    · cases hindex : index v sub with
      | none =>
        rw [spans_none hindex]
        exact Nat.zero_le _
      | some i =>
        have hpos := List.length_pos_iff.mpr hne
        have hfits := (index_eq_some.mp hindex).1
        have hrest := ih _ (by rw [List.length_drop]; omega) (v.drop (i + sub.length)) rfl
        rw [List.length_drop] at hrest
        rw [spans_some hne hindex,List.length_cons,List.length_map]
        omega

end Spans

def spliced (v w : List β) : Nat → List (Nat × Nat) → List β
  | last,[] => v.drop last
  | last,(a,b) :: ms => (v.drop last).take (a - last) ++ w ++ spliced v w b ms

theorem mem_spliced {v w : List β} {last : Nat} {ms : List (Nat × Nat)} {x : β}
    (h : x ∈ spliced v w last ms) : x ∈ v ∨ x ∈ w := by
  induction ms generalizing last with
  | nil => exact .inl (List.mem_of_mem_drop h)
  | cons m ms ih =>
    rcases List.mem_append.mp h with h | h
    · exact (List.mem_append.mp h).imp_left fun h => List.mem_of_mem_drop (List.mem_of_mem_take h)
    · exact ih h

def Ordered : Nat → List (Nat × Nat) → Prop
  | _,[] => True
  | last,(a,b) :: ms => last ≤ a ∧ a ≤ b ∧ Ordered b ms

theorem Ordered.shift {last : Nat} {ms : List (Nat × Nat)} (h : Ordered last ms) (k : Nat) :
    Ordered (k + last) (ms.map (shift k)) := by
  induction ms generalizing last with
  | nil => trivial
  | cons s ms ih =>
    obtain ⟨hlast,hle,hms⟩ := h
    exact ⟨Nat.add_le_add_left hlast k,Nat.add_le_add_left hle k,ih hms⟩

theorem Ordered.mono {last last' : Nat} {ms : List (Nat × Nat)} (h : Ordered last ms) (hle : last' ≤ last) :
    Ordered last' ms := by
  cases ms with
  | nil => trivial
  | cons s ms => exact ⟨hle.trans h.1,h.2⟩

theorem Ordered.mem {last : Nat} {ms : List (Nat × Nat)} (h : Ordered last ms) {s : Nat × Nat}
    (hs : s ∈ ms) : last ≤ s.1 ∧ s.1 ≤ s.2 := by
  induction ms generalizing last with
  | nil => cases hs
  | cons t ms ih =>
    obtain ⟨hlast,hle,hms⟩ := h
    rcases List.mem_cons.mp hs with rfl | hs
    · exact ⟨hlast,hle⟩
    · exact ih (hms.mono (hlast.trans hle)) hs

theorem spans_ordered [BEq β] [LawfulBEq β] (sub v : List β) : Ordered 0 (spans sub v) := by
  induction hn : v.length using Nat.strong_induction_on generalizing v with
  | h n ih =>
    by_cases hne : sub = []
    · rw [spans]
      split
      · trivial
      · rw [dif_pos hne]
        trivial
    · cases hindex : index v sub with
      | none =>
        rw [spans_none hindex]
        trivial
      | some i =>
        have hpos := List.length_pos_iff.mpr hne
        have hfits := (index_eq_some.mp hindex).1
        have hrest := ih _ (by rw [List.length_drop]; omega) (v.drop (i + sub.length)) rfl
        rw [spans_some hne hindex]
        exact ⟨Nat.zero_le i,Nat.le_add_right i _,hrest.shift (i + sub.length)⟩

def offset (c : α → List β) (v : List α) (k : Nat) : Nat := ((v.take k).flatMap c).length

def offsets (c : α → List β) (v : List α) (s : Nat × Nat) : Nat × Nat := (offset c v s.1,offset c v s.2)

section Splice

variable {c : α → List β} {v w : List α} {a b last : Nat} {ms : List (Nat × Nat)}

@[simp] theorem offset_zero : offset c v 0 = 0 := by simp [offset]

theorem offset_split (h : a ≤ b) :
    offset c v b = offset c v a + (((v.drop a).take (b - a)).flatMap c).length := by
  rw [offset,offset,← List.length_append,← List.flatMap_append,← List.take_add,Nat.add_sub_cancel' h]

theorem section_flatMap (h : a ≤ b) :
    ((v.flatMap c).drop (offset c v a)).take (offset c v b - offset c v a) =
      ((v.drop a).take (b - a)).flatMap c := by
  rw [offset_split h,Nat.add_sub_cancel_left,offset,Code.drop_flatMap]
  have hsplit : (v.drop a).flatMap c =
      ((v.drop a).take (b - a)).flatMap c ++ ((v.drop a).drop (b - a)).flatMap c := by
    rw [← List.flatMap_append,List.take_append_drop]
  rw [hsplit,List.take_left]

theorem spliced_flatMap (h : Ordered last ms) : (spliced v w last ms).flatMap c =
    spliced (v.flatMap c) (w.flatMap c) (offset c v last) (ms.map (offsets c v)) := by
  induction ms generalizing last with
  | nil => exact (Code.drop_flatMap last).symm
  | cons s ms ih =>
    obtain ⟨a,b⟩ := s
    obtain ⟨hlast,hle,hms⟩ := h
    simp only [spliced,List.map_cons,List.flatMap_append,offsets]
    rw [section_flatMap hlast,ih hms]

theorem offset_le (k : Nat) : offset c v k ≤ (v.flatMap c).length :=
  ((List.take_prefix k v).flatMap c).length_le

theorem offset_mono (h : a ≤ b) : offset c v a ≤ offset c v b := by
  rw [offset_split h]
  exact Nat.le_add_right _ _

theorem offset_append_left (h : a ≤ v.length) : offset c (v ++ w) a = offset c v a := by
  rw [offset,offset,List.take_append_of_le_length h]

theorem offset_append_right : offset c (v ++ w) (v.length + a) = (v.flatMap c).length + offset c w a := by
  rw [offset,offset,List.take_length_add_append,List.flatMap_append,List.length_append]

theorem offset_add (j k : Nat) : offset c v (j + k) = offset c v j + offset c (v.drop j) k := by
  rw [offset_split (Nat.le_add_right j k),Nat.add_sub_cancel_left]
  rfl

theorem offset_found {j : Nat} (h : w <+: v.drop j) :
    offset c v (j + w.length) = offset c v j + (w.flatMap c).length := by
  have htake : (v.drop j).take w.length = w := (List.prefix_iff_eq_take.mp h).symm
  rw [offset_add,offset.eq_1 c (v.drop j),htake]

end Splice

section Codes

variable [BEq α] [LawfulBEq α] [BEq β] [LawfulBEq β] {D : α → Prop} {lead : β → Prop}
  {c : α → List β} {ps qs : List α}

theorem Code.spans_flatMap (hc : Code D lead c) (hq : ∀ q ∈ qs,D q) (hp : ∀ p ∈ ps,D p) (hne : qs ≠ []) :
    spans (qs.flatMap c) (ps.flatMap c) = (spans qs ps).map (offsets c ps) := by
  induction hn : ps.length using Nat.strong_induction_on generalizing ps with
  | h n ih =>
    have hindex := hc.index_flatMap hq hp hne
    cases hj : index ps qs with
    | none =>
      rw [hj] at hindex
      rw [spans_none hindex,spans_none hj]
      rfl
    | some j =>
      rw [hj] at hindex
      have hindex : index (ps.flatMap c) (qs.flatMap c) = some (offset c ps j) := hindex
      obtain ⟨hfits,hat,-⟩ := index_eq_some.mp hj
      have hpos := List.length_pos_iff.mpr hne
      have hfound := offset_found (c := c) hat
      have hdrop : (ps.flatMap c).drop (offset c ps j + (qs.flatMap c).length) =
          (ps.drop (j + qs.length)).flatMap c := by
        rw [← hfound]
        exact Code.drop_flatMap _
      rw [spans_some (hc.flatMap_ne_nil hq hne) hindex,spans_some hne hj,hdrop,
        ih (ps.drop (j + qs.length)).length (by rw [List.length_drop]; omega)
          (fun p hmem => hp p (List.mem_of_mem_drop hmem)) rfl]
      simp only [List.map_cons,List.map_map,offsets,hfound]
      refine congrArg _ (List.map_congr_left fun s _ => ?_)
      simp only [Function.comp_apply,shift,offsets,offset_add (j + qs.length),hfound]

end Codes

end Marked
