import OpenSteamgate.Text.CharSections
import OpenSteamgate.Text.Occurrences
import OpenSteamgate.Text.Pattern

namespace OpenSteamgate.Text

open Wtf8 Marked

def substringBefore (v sub : List UInt8) : List UInt8 :=
  match index v sub with
  | some i => v.take i
  | none => []

def substringAfter (v sub : List UInt8) : List UInt8 :=
  match index v sub with
  | some i => v.drop (i + sub.length)
  | none => []

section strip

-- the sources refuse an empty sub before they come here

def stripLeft {α : Type} [BEq α] [LawfulBEq α] (sub v : List α) : List α :=
  if _h : sub ≠ [] ∧ sub.isPrefixOf v then stripLeft sub (v.drop sub.length) else v
termination_by v.length
decreasing_by
  have hpos := List.length_pos_iff.mpr _h.1
  have hle := (List.isPrefixOf_iff_prefix.mp _h.2).length_le
  rw [List.length_drop]
  omega

def stripRight {α : Type} [BEq α] [LawfulBEq α] (sub v : List α) : List α :=
  if _h : sub ≠ [] ∧ sub.isSuffixOf v then stripRight sub (v.take (v.length - sub.length)) else v
termination_by v.length
decreasing_by
  have hpos := List.length_pos_iff.mpr _h.1
  have hle := (List.isSuffixOf_iff_suffix.mp _h.2).length_le
  rw [List.length_take]
  omega

variable {α : Type} [BEq α] [LawfulBEq α] {sub v : List α}

theorem stripLeft_append (hne : sub ≠ []) (v : List α) : stripLeft sub (sub ++ v) = stripLeft sub v := by
  rw [stripLeft,dif_pos ⟨hne,List.isPrefixOf_iff_prefix.mpr (List.prefix_append sub v)⟩,List.drop_left]

theorem stripLeft_of_not (h : ¬sub <+: v) : stripLeft sub v = v := by
  rw [stripLeft,dif_neg fun h' => h (List.isPrefixOf_iff_prefix.mp h'.2)]

theorem stripRight_append (hne : sub ≠ []) (v : List α) : stripRight sub (v ++ sub) = stripRight sub v := by
  rw [stripRight,dif_pos ⟨hne,List.isSuffixOf_iff_suffix.mpr (List.suffix_append v sub)⟩]
  simp

theorem stripRight_of_not (h : ¬sub <:+ v) : stripRight sub v = v := by
  rw [stripRight,dif_neg fun h' => h (List.isSuffixOf_iff_suffix.mp h'.2)]

theorem stripLeft_suffix (sub v : List α) : stripLeft sub v <:+ v := by
  induction v using stripLeft.induct sub with
  | case1 v h ih =>
    rw [stripLeft,dif_pos h]
    exact ih.trans (List.drop_suffix _ _)
  | case2 v h =>
    rw [stripLeft,dif_neg h]

theorem stripRight_prefix (sub v : List α) : stripRight sub v <+: v := by
  induction v using stripRight.induct sub with
  | case1 v h ih =>
    rw [stripRight,dif_pos h]
    exact ih.trans (List.take_prefix _ _)
  | case2 v h =>
    rw [stripRight,dif_neg h]

theorem stripLeft_shorter (hne : sub ≠ []) (h : sub <+: v) : (stripLeft sub v).length < v.length := by
  obtain ⟨t,rfl⟩ := h
  have hle := (stripLeft_suffix sub t).length_le
  have hpos := List.length_pos_iff.mpr hne
  rw [stripLeft_append hne,List.length_append]
  omega

theorem stripRight_shorter (hne : sub ≠ []) (h : sub <:+ v) : (stripRight sub v).length < v.length := by
  obtain ⟨t,rfl⟩ := h
  have hle := ( stripRight_prefix sub t).length_le
  have hpos := List.length_pos_iff.mpr hne
  rw [stripRight_append hne,List.length_append]
  omega

end strip

def shiftFn (v : List UInt8) (left : Bool) (sub : List UInt8) : Except Charsearch.Refusal (List UInt8) :=
  if sub = [] then .error .notCompiled
  else if left then .ok (stripLeft sub v)
  else .ok (stripRight sub v)

def containsRune (s : List UInt8) (r : Nat) : Bool :=
  if r = runeError then (runes s).contains runeError
  else if Half r ∨ limit ≤ r then false
  else (index s (encode r)).isSome

def co (a b : List UInt8) : Bool := (runes a).all fun c => containsRune b c

def ca (a b : List UInt8) : Bool := b ≠ [] && (runes a).any fun c => containsRune b c

section boundaries

variable {ps qs rs : List Nat}

def Boundary (ps : List Nat) (k : Nat) : Prop := ∃ j,j ≤ ps.length ∧ k = offset unitsOf ps j

theorem canonical_append_left (h : Canonical (qs ++ rs)) : Canonical qs :=
  ⟨fun p hp => h.points p (List.mem_append_left _ hp),(List.isChain_append.mp h.settled).1⟩

theorem canonical_append_right (h : Canonical (qs ++ rs)) : Canonical rs :=
  ⟨fun p hp => h.points p (List.mem_append_right _ hp),(List.isChain_append.mp h.settled).2.1⟩

theorem canonical_eq (hp : Canonical ps) (hq : Canonical qs) (h : units ps = units qs) : ps = qs := by
  rw [← pointsOf_units hp,h,pointsOf_units hq]

theorem prefix_of_boundary (hp : Canonical ps) (hq : Canonical qs) (h : units qs <+: units ps)
    (hb : Boundary ps (units qs).length) : qs <+: ps := by
  obtain ⟨j,hj,heq⟩ := hb
  have hsplit := List.take_append_drop j ps
  rw [← hsplit] at hp
  have htake : units (ps.take j) <+: units ps := (List.take_prefix j ps).flatMap unitsOf
  have hunits : units (ps.take j) = units qs :=
    (List.prefix_of_prefix_length_le htake h heq.ge).eq_of_length heq.symm
  exact canonical_eq (canonical_append_left hp) hq hunits ▸ List.take_prefix j ps

theorem suffix_of_boundary (hp : Canonical ps) (hq : Canonical qs) (h : units qs <:+ units ps)
    (hb : Boundary ps ((units ps).length - (units qs).length)) : qs <:+ ps := by
  obtain ⟨j,hj,heq⟩ := hb
  have hsplit := List.take_append_drop j ps
  rw [← hsplit] at hp
  have hdrop : units (ps.drop j) <:+ units ps := ⟨units (ps.take j),by
    rw [← units_append,List.take_append_drop]⟩
  have hlen : (units ps).length = offset unitsOf ps j + (units (ps.drop j)).length := by
    conv_lhs => rw [← hsplit]
    rw [units_append,List.length_append]
    rfl
  have hle := h.length_le
  have hunits : units (ps.drop j) = units qs :=
    (List.suffix_of_suffix_length_le hdrop h (by omega)).eq_of_length (by omega)
  exact canonical_eq (canonical_append_right hp) hq hunits ▸ List.drop_suffix j ps

theorem offset_strict {j k : Nat} (h : j < k) (hk : k ≤ ps.length) :
    offset unitsOf ps j < offset unitsOf ps k := by
  rw [offset_split h.le]
  have hne : (ps.drop j).take (k - j) ≠ [] := by
    rw [← List.length_pos_iff,List.length_take,List.length_drop]
    omega
  have hpos := List.length_pos_iff.mpr (units_ne_nil_of hne)
  change _ < _ + (units _).length
  omega

theorem boundary_append_right {k : Nat} :
    Boundary (qs ++ rs) ((units qs).length + k) ↔ Boundary rs k := by
  constructor
  · rintro ⟨j,hj,heq⟩
    rw [List.length_append] at hj
    rcases Nat.lt_or_ge j qs.length with hlt | hge
    · have hlow := @offset_strict qs _ _ hlt le_rfl
      rw [offset_append_left hlt.le] at heq
      have hwhole : offset unitsOf qs qs.length = (units qs).length := by
        rw [offset,List.take_length]
        rfl
      omega
    · obtain ⟨i,rfl⟩ := Nat.exists_eq_add_of_le hge
      rw [offset_append_right] at heq
      exact ⟨i,by omega,Nat.add_left_cancel heq⟩
  · rintro ⟨j,hj,rfl⟩
    exact ⟨qs.length + j,by rw [List.length_append]; omega,offset_append_right.symm⟩

theorem boundary_append_left {k : Nat} (hk : k ≤ (units rs).length) :
    Boundary (rs ++ qs) k ↔ Boundary rs k := by
  constructor
  · rintro ⟨j,hj,heq⟩
    rcases Nat.lt_or_ge rs.length j with hlt | hle
    · rw [List.length_append] at hj
      have hlow := @offset_strict (rs ++ qs) _ _ hlt (by rw [List.length_append]; exact hj)
      have hwhole : offset unitsOf (rs ++ qs) rs.length = (units rs).length := by
        rw [offset,List.take_left]
        rfl
      omega
    · rw [offset_append_left hle] at heq
      exact ⟨j,hle,heq⟩
  · rintro ⟨j,hj,rfl⟩
    exact ⟨j,by rw [List.length_append]; omega,(offset_append_left hj).symm⟩

theorem found_of_boundaries (hp : Canonical ps) (hq : Canonical qs) {i : Nat}
    (h : units qs <+: (units ps).drop i) (hb : Boundary ps i) (hb' : Boundary ps (i + (units qs).length)) :
    ∃ j,i = offset unitsOf ps j ∧ j ≤ ps.length ∧ qs <+: ps.drop j := by
  obtain ⟨j,hj,rfl⟩ := hb
  refine ⟨j,rfl,hj,?_⟩
  have hsplit := List.take_append_drop j ps
  have hdrop : (units ps).drop (offset unitsOf ps j) = units (ps.drop j) := Code.drop_flatMap j
  rw [hdrop] at h
  have hb' : Boundary (ps.take j ++ ps.drop j) ((units (ps.take j)).length + (units qs).length) := by
    rw [hsplit]
    exact hb'
  rw [← hsplit] at hp
  rw [boundary_append_right] at hb'
  exact prefix_of_boundary (canonical_append_right hp) hq h hb'

end boundaries

section substrings

variable {ps qs : List Nat}

def unitsBefore (us ts : List UInt16) : List UInt16 :=
  match index us ts with
  | some i => us.take i
  | none => []

def unitsAfter (us ts : List UInt16) : List UInt16 :=
  match index us ts with
  | some i => us.drop (i + ts.length)
  | none => []

theorem units_take (j : Nat) : units (ps.take j) = (units ps).take (offset unitsOf ps j) := by
  have hprefix : units (ps.take j) <+: units ps := (List.take_prefix j ps).flatMap unitsOf
  exact List.prefix_iff_eq_take.mp hprefix

theorem canonical_take (hp : Canonical ps) (j : Nat) : Canonical (ps.take j) :=
  @canonical_append_left _ (ps.drop j) (by rwa [List.take_append_drop])

theorem canonical_drop (hp : Canonical ps) (j : Nat) : Canonical (ps.drop j) :=
  @canonical_append_right (ps.take j) _ (by rwa [List.take_append_drop])

theorem substrings_some {j : Nat} (hp : Canonical ps) (hq : Canonical qs) (hne : qs ≠ [])
    (h : index ps qs = some j) : substringBefore (bytes ps) (bytes qs) = bytes (ps.take j) ∧
    substringAfter (bytes ps) (bytes qs) = bytes (ps.drop (j + qs.length)) := by
  have hindex : index (bytes ps) (bytes qs) = _ := byte_code.index_flatMap hq.points hp.points hne
  rw [h] at hindex
  have hindex : index (bytes ps) (bytes qs) = some (offset encode ps j) := hindex
  have hat := (index_eq_some.mp h).2.1
  have hfound : offset encode ps (j + qs.length) = offset encode ps j + (bytes qs).length :=
    offset_found hat
  have hprefix : bytes (ps.take j) <+: bytes ps := (List.take_prefix j ps).flatMap encode
  constructor
  · rw [substringBefore,hindex]
    exact (List.prefix_iff_eq_take.mp hprefix).symm
  · rw [substringAfter,hindex]
    change (bytes ps).drop (offset encode ps j + (bytes qs).length) = _
    rw [← hfound]
    exact Code.drop_flatMap _

theorem substrings_none (hp : Canonical ps) (hq : Canonical qs) (hne : qs ≠ []) (h : index ps qs = none) :
    substringBefore (bytes ps) (bytes qs) = [] ∧ substringAfter (bytes ps) (bytes qs) = [] := by
  have hindex : index (bytes ps) (bytes qs) = _ := byte_code.index_flatMap hq.points hp.points hne
  rw [h] at hindex
  have hindex : index (bytes ps) (bytes qs) = none := hindex
  rw [substringBefore,substringAfter,hindex]
  exact ⟨rfl,rfl⟩

theorem bytes_inj (hp : Canonical ps) (hq : Canonical qs) (h : bytes ps = bytes qs) : ps = qs := by
  have hpq : ps <+: qs := byte_code.prefix_of_flatMap hp.points hq.points ⟨[],(List.append_nil _).trans h⟩
  have hqp : qs <+: ps := byte_code.prefix_of_flatMap hq.points hp.points ⟨[],(List.append_nil _).trans h.symm⟩
  exact hpq.eq_of_length (Nat.le_antisymm hpq.length_le hqp.length_le)

theorem stands_iff (hp : Canonical ps) {us : List UInt16} : Stands (bytes ps) us ↔ units ps = us := by
  constructor
  · rintro ⟨rs,hr,heq,rfl⟩
    exact congrArg units (bytes_inj hp hr heq)
  · rintro rfl
    exact stands_bytes hp

theorem substrings_iff (hp : Canonical ps) (hq : Canonical qs) (hne : qs ≠ []) :
    (Stands (substringBefore (bytes ps) (bytes qs)) (unitsBefore (units ps) (units qs)) ∧
      Stands (substringAfter (bytes ps) (bytes qs)) (unitsAfter (units ps) (units qs))) ↔
      ∀ i,index (units ps) (units qs) = some i →
        Boundary ps i ∧ Boundary ps (i + (units qs).length) := by
  have hnil : Stands [] [] := ⟨[],⟨by simp,List.IsChain.nil⟩,rfl,rfl⟩
  cases hj : index ps qs with
  | none =>
    obtain ⟨hbefore,hafter⟩ := substrings_none hp hq hne hj
    rw [hbefore,hafter]
    cases hi : index (units ps) (units qs) with
    | none =>
      simp only [unitsBefore,unitsAfter,hi]
      exact iff_of_true ⟨hnil,hnil⟩ (fun i h => by cases h)
    | some i =>
      simp only [unitsBefore,unitsAfter,hi]
      obtain ⟨hfits,hat,-⟩ := index_eq_some.mp hi
      constructor
      · rintro ⟨h,h'⟩
        have hstart : (units ps).take i = [] := ((stands_iff ⟨by simp,List.IsChain.nil⟩).mp h).symm
        have hend : (units ps).drop (i + (units qs).length) = [] :=
          ((stands_iff ⟨by simp,List.IsChain.nil⟩).mp h').symm
        have hstart := congrArg List.length hstart
        have hend := congrArg List.length hend
        simp only [List.length_take,List.length_drop,List.length_nil] at hstart hend
        obtain rfl : i = 0 := by omega
        have heq := hat.eq_of_length (by rw [List.length_drop]; omega)
        obtain rfl := canonical_eq hq hp heq
        have hself := index_self qs []
        rw [List.append_nil,hj] at hself
        cases hself
      · intro h
        obtain ⟨hb,hb'⟩ := h i rfl
        obtain ⟨j,-,-,hfound⟩ := found_of_boundaries hp hq hat hb hb'
        exact absurd hfound (index_eq_none.mp hj j (fits_of_initial hne hfound))
  | some j =>
    obtain ⟨hbefore,hafter⟩ := substrings_some hp hq hne hj
    obtain ⟨hfits,hat,hleast⟩ := index_eq_some.mp hj
    have hj' : j + qs.length ≤ ps.length := hfits
    have hstop : offset unitsOf ps (j + qs.length) = offset unitsOf ps j + (units qs).length :=
      offset_found hat
    have hunits : units qs <+: (units ps).drop (offset unitsOf ps j) := by
      have hdrop : (units ps).drop (offset unitsOf ps j) = units (ps.drop j) := Code.drop_flatMap j
      rw [hdrop]
      exact hat.flatMap unitsOf
    have hrest : units (ps.drop (j + qs.length)) = (units ps).drop (offset unitsOf ps (j + qs.length)) :=
      (Code.drop_flatMap _).symm
    have hsize : offset unitsOf ps j ≤ (units ps).length := offset_le j
    rw [hbefore,hafter,stands_iff (canonical_take hp j),stands_iff (canonical_drop hp _),units_take,hrest]
    cases hi : index (units ps) (units qs) with
    | none =>
      exact absurd hunits (index_eq_none.mp hi _ (fits_of_initial (units_ne_nil_of hne) hunits))
    | some i =>
      obtain ⟨hfits',hat',hleast'⟩ := index_eq_some.mp hi
      have hle : i ≤ offset unitsOf ps j := Nat.not_lt.mp fun hlt => hleast' _ hlt hunits
      simp only [unitsBefore,unitsAfter,hi]
      constructor
      · rintro ⟨h,-⟩ k ⟨⟩
        have hlength := congrArg List.length h
        simp only [List.length_take] at hlength
        obtain rfl : i = offset unitsOf ps j := by omega
        exact ⟨⟨j,by omega,rfl⟩,⟨j + qs.length,hj',hstop.symm⟩⟩
      · intro h
        obtain ⟨hb,hb'⟩ := h i rfl
        obtain ⟨k,rfl,hk,hfound⟩ := found_of_boundaries hp hq hat' hb hb'
        have hjk : j ≤ k := Nat.not_lt.mp fun hlt => hleast k hlt hfound
        obtain rfl : j = k := by
          by_contra hne'
          have hlt := @offset_strict ps _ _ (show j < k by omega) hk
          omega
        rw [hstop]
        exact ⟨rfl,rfl⟩

end substrings

section shifts

variable {ps qs : List Nat}

def CopiesLeft (ps qs : List Nat) : Prop := ∀ m,(List.replicate m (units qs)).flatten <+: units ps →
  Boundary ps (m * (units qs).length)

def CopiesRight (ps qs : List Nat) : Prop := ∀ m,(List.replicate m (units qs)).flatten <:+ units ps →
  Boundary ps ((units ps).length - m * (units qs).length)

theorem boundary_zero (ps : List Nat) : Boundary ps 0 := ⟨0,Nat.zero_le _,offset_zero.symm⟩

theorem boundary_end (ps : List Nat) : Boundary ps (units ps).length := by
  refine ⟨ps.length,le_rfl,?_⟩
  rw [offset,List.take_length]
  rfl

theorem suffix_append_right {α : Type} {l m t : List α} : l ++ t <:+ m ++ t ↔ l <:+ m := by
  constructor
  · rintro ⟨s,hs⟩
    rw [← List.append_assoc] at hs
    exact ⟨s,List.append_cancel_right hs⟩
  · rintro ⟨s,rfl⟩
    exact ⟨s,(List.append_assoc _ _ _).symm⟩

theorem copiesLeft_append (rs : List Nat) : CopiesLeft (qs ++ rs) qs ↔ CopiesLeft rs qs := by
  constructor
  · intro h m hm
    have hmore : (List.replicate (m + 1) (units qs)).flatten <+: units (qs ++ rs) := by
      rw [List.replicate_succ,List.flatten_cons,units_append]
      exact (List.prefix_append_right_inj _).mpr hm
    have hb := h (m + 1) hmore
    rwa [Nat.succ_mul,Nat.add_comm,boundary_append_right] at hb
  · intro h m hm
    cases m with
    | zero =>
      rw [Nat.zero_mul]
      exact boundary_zero _
    | succ m =>
      rw [List.replicate_succ,List.flatten_cons,units_append,List.prefix_append_right_inj] at hm
      rw [Nat.succ_mul,Nat.add_comm,boundary_append_right]
      exact h m hm

theorem copiesRight_append (rs : List Nat) : CopiesRight (rs ++ qs) qs ↔ CopiesRight rs qs := by
  constructor
  · intro h m hm
    have hmore : (List.replicate (m + 1) (units qs)).flatten <:+ units (rs ++ qs) := by
      rw [List.replicate_succ',List.flatten_append,units_append,List.flatten_cons,List.flatten_nil,
        List.append_nil]
      exact (suffix_append_right).mpr hm
    have hb := h (m + 1) hmore
    rw [units_append,List.length_append,Nat.succ_mul,Nat.add_sub_add_right,
      boundary_append_left (Nat.sub_le _ _)] at hb
    exact hb
  · intro h m hm
    cases m with
    | zero =>
      rw [Nat.zero_mul]
      exact boundary_end _
    | succ m =>
      rw [List.replicate_succ',List.flatten_append,units_append,List.flatten_cons,List.flatten_nil,
        List.append_nil,suffix_append_right] at hm
      rw [units_append,List.length_append,Nat.succ_mul,Nat.add_sub_add_right,
        boundary_append_left (Nat.sub_le _ _)]
      exact h m hm

theorem stripLeft_iff (hp : Canonical ps) (hq : Canonical qs) (hne : qs ≠ []) :
    Stands (stripLeft (bytes qs) (bytes ps)) (stripLeft (units qs) (units ps)) ↔ CopiesLeft ps qs := by
  induction hn : ps.length using Nat.strong_induction_on generalizing ps with
  | h n ih =>
    by_cases hprefix : qs <+: ps
    · obtain ⟨rs,rfl⟩ := hprefix
      have hpos := List.length_pos_iff.mpr hne
      rw [bytes_append,units_append,stripLeft_append (bytes_ne_nil hne),
        stripLeft_append (units_ne_nil_of hne),copiesLeft_append]
      exact ih rs.length (by rw [← hn,List.length_append]; omega) (canonical_append_right hp) rfl
    · have hbytes : ¬bytes qs <+: bytes ps := fun h =>
        hprefix (byte_code.prefix_of_flatMap hq.points hp.points h)
      rw [stripLeft_of_not hbytes,stands_iff hp]
      by_cases hunits : units qs <+: units ps
      · have hshort := stripLeft_shorter (units_ne_nil_of hne) hunits
        refine iff_of_false (fun h => ?_) fun h => hprefix ?_
        · rw [← h] at hshort
          exact lt_irrefl _ hshort
        · have hone := h 1 (by simpa using hunits)
          rw [Nat.one_mul] at hone
          exact prefix_of_boundary hp hq hunits hone
      · refine iff_of_true (stripLeft_of_not hunits).symm fun m hm => ?_
        cases m with
        | zero =>
          rw [Nat.zero_mul]
          exact boundary_zero _
        | succ m =>
          rw [List.replicate_succ,List.flatten_cons] at hm
          exact absurd ((List.prefix_append _ _).trans hm) hunits

theorem suffix_of_bytes (hp : Canonical ps) (hq : Canonical qs) (hne : qs ≠ [])
    (h : bytes qs <:+ bytes ps) : qs <:+ ps := by
  obtain ⟨t,ht⟩ := h
  have hdrop : (bytes ps).drop t.length = bytes qs := by rw [← ht,List.drop_left]
  have hprefix : bytes qs <+: (bytes ps).drop t.length := ⟨[],by rw [hdrop,List.append_nil]⟩
  obtain ⟨j,hj,hfound⟩ := byte_code.prefix_drop hq.points hp.points hne hprefix
  have hrest : bytes (ps.drop j) = bytes qs := by
    rw [← hdrop,hj]
    exact (Code.drop_flatMap j).symm
  exact bytes_inj (canonical_drop hp j) hq hrest ▸ List.drop_suffix j ps

theorem stripRight_iff (hp : Canonical ps) (hq : Canonical qs) (hne : qs ≠ []) :
    Stands (stripRight (bytes qs) (bytes ps)) (stripRight (units qs) (units ps)) ↔ CopiesRight ps qs := by
  induction hn : ps.length using Nat.strong_induction_on generalizing ps with
  | h n ih =>
    by_cases hsuffix : qs <:+ ps
    · obtain ⟨rs,rfl⟩ := hsuffix
      have hpos := List.length_pos_iff.mpr hne
      rw [bytes_append,units_append,stripRight_append (bytes_ne_nil hne),
        stripRight_append (units_ne_nil_of hne),copiesRight_append]
      exact ih rs.length (by rw [← hn,List.length_append]; omega) (canonical_append_left hp) rfl
    · have hbytes : ¬bytes qs <:+ bytes ps := fun h => hsuffix (suffix_of_bytes hp hq hne h)
      rw [stripRight_of_not hbytes,stands_iff hp]
      by_cases hunits : units qs <:+ units ps
      · have hshort := stripRight_shorter (units_ne_nil_of hne) hunits
        refine iff_of_false (fun h => ?_) fun h => hsuffix ?_
        · rw [← h] at hshort
          exact lt_irrefl _ hshort
        · have hone := h 1 (by simpa using hunits)
          rw [Nat.one_mul] at hone
          exact suffix_of_boundary hp hq hunits hone
      · refine iff_of_true (stripRight_of_not hunits).symm fun m hm => ?_
        cases m with
        | zero =>
          rw [Nat.zero_mul]
          exact boundary_end _
        | succ m =>
          rw [List.replicate_succ',List.flatten_append,List.flatten_cons,List.flatten_nil,
            List.append_nil] at hm
          exact absurd ((List.suffix_append _ _).trans hm) hunits

end shifts

namespace Charsearch

def setWithPos (memos : Memos) (a b : List UInt8) (wantMember : Bool) : Except Raise (Bool × Int32) := do
  let mask ← utf16Units memos b
  let units ← utf16Units memos a
  match units.findIdx? fun u => mask.contains u == wantMember with
  | some i => .ok (wantMember,Int32.ofInt i)
  | none => .ok (!wantMember,Int32.ofInt units.length)

end Charsearch

section sets

variable {ps qs : List Nat} {p q : Nat}

def Blurred (p : Nat) : Prop := Half p ∨ p = runeError

instance : DecidablePred Blurred := fun _ => inferInstanceAs (Decidable (_ ∨ _))

theorem runes_encode (h : p < limit) (rest : List UInt8) : runes (encode p ++ rest) =
    (if Half p then [runeError,runeError,runeError] else [p]) ++ runes rest := by
  by_cases hp : Half p
  · obtain ⟨hlow,hhigh⟩ := hp
    have hv := encode_three (p := p) (by omega) (by omega)
    have h1 := toNat_byte (n := 128 + p / 64 % 64) (by omega)
    have h2 := toNat_byte (n := 128 + p % 64) (by omega)
    have hstray {b : UInt8} {s : List UInt8} (h : 128 ≤ b.toNat) (h' : b.toNat < 192) :
        runes (b :: s) = runeError :: runes s := by
      rw [runes,dif_neg (List.cons_ne_nil b s),decodeRune_stray h h']
      rfl
    rw [if_pos ⟨hlow,hhigh⟩,runes,dif_neg (append_ne_nil p rest),decodeRune_half ⟨hlow,hhigh⟩,hv,List.cons_append,
      List.drop_succ_cons,List.drop_zero,List.cons_append,hstray (by omega) (by omega),
      List.cons_append,hstray (by omega) (by omega)]
    rfl
  · have hdecode : decodeRune (encode p ++ rest) = decode16 (encode p ++ rest) := decodeRune_point h hp
    rw [if_neg hp,runes,dif_neg (append_ne_nil p rest),hdecode,decode_encode h]
    simp

theorem mem_runes (h : ∀ p ∈ ps,p < limit) {c : Nat} : c ∈ runes (bytes ps) ↔
    ∃ p ∈ ps,if Half p then c = runeError else c = p := by
  induction ps with
  | nil =>
    rw [bytes_nil,runes]
    simp
  | cons p ps ih =>
    obtain ⟨hp,hps⟩ := List.forall_mem_cons.mp h
    rw [bytes_cons,runes_encode hp,List.mem_append,ih hps]
    by_cases hhalf : Half p
    · simp [hhalf]
    · simp [hhalf]

theorem mem_index (c : Nat) : (index qs [c]).isSome ↔ c ∈ qs := by
  constructor
  · intro h
    obtain ⟨j,hj⟩ := Option.isSome_iff_exists.mp h
    exact index_subset hj (List.mem_singleton_self c)
  · intro h
    obtain ⟨before,after,rfl⟩ := List.append_of_mem h
    cases hj : index (before ++ c :: after) [c] with
    | some j => rfl
    | none =>
      have hno := index_eq_none.mp hj before.length (by simp)
      rw [List.drop_left] at hno
      exact absurd ⟨after,rfl⟩ hno

def RuneIn (qs : List Nat) (p : Nat) : Prop := if Blurred p then ∃ q ∈ qs,Blurred q else p ∈ qs

theorem containsRune_blurred (hq : ∀ q ∈ qs,q < limit) :
    containsRune (bytes qs) runeError = true ↔ ∃ q ∈ qs,Blurred q := by
  rw [containsRune,if_pos rfl,List.contains_iff_mem,mem_runes hq]
  refine exists_congr fun q => and_congr_right fun _ => ?_
  rw [Blurred]
  by_cases hhalf : Half q
  · simp [hhalf]
  · simp [hhalf,eq_comm]

theorem containsRune_plain (hq : ∀ q ∈ qs,q < limit) (hp : p < limit) (hno : ¬Blurred p) :
    containsRune (bytes qs) p = true ↔ p ∈ qs := by
  have hindex : index (bytes qs) (bytes [p]) = _ := byte_code.index_flatMap (by simpa using hp) hq (by simp)
  rw [bytes_cons,bytes_nil,List.append_nil] at hindex
  rw [containsRune,if_neg fun h => hno (.inr h),if_neg,hindex,Option.isSome_map,mem_index]
  rintro (h | h)
  · exact hno (.inl h)
  · omega

theorem contains_iff (hq : ∀ q ∈ qs,q < limit) (hp : ∀ p ∈ ps,p < limit) :
    ((runes (bytes ps)).all (containsRune (bytes qs) ·) = true ↔ ∀ p ∈ ps,RuneIn qs p) ∧
    ((runes (bytes ps)).any (containsRune (bytes qs) ·) = true ↔ ∃ p ∈ ps,RuneIn qs p) := by
  have hone {p : Nat} (hmem : p ∈ ps) {c : Nat} (hc : if Half p then c = runeError else c = p) :
      containsRune (bytes qs) c = true ↔ RuneIn qs p := by
    rw [RuneIn]
    by_cases hhalf : Half p
    · rw [if_pos hhalf] at hc
      rw [hc,if_pos (show Blurred p from .inl hhalf),containsRune_blurred hq]
    · rw [if_neg hhalf] at hc
      subst hc
      by_cases herror : c = runeError
      · rw [herror,if_pos (show Blurred runeError from .inr rfl),containsRune_blurred hq]
      · have hno : ¬Blurred c := fun h => h.elim hhalf herror
        rw [if_neg hno,containsRune_plain hq (hp c hmem) hno]
  have hsome (p : Nat) : ∃ c,if Half p then c = runeError else c = p := by
    by_cases hhalf : Half p
    · exact ⟨runeError,by rw [if_pos hhalf]⟩
    · exact ⟨p,by rw [if_neg hhalf]⟩
  constructor
  · rw [List.all_eq_true]
    constructor
    · intro h p hmem
      obtain ⟨c,hc⟩ := hsome p
      exact (hone hmem hc).mp (h c ((mem_runes hp).mpr ⟨p,hmem,hc⟩))
    · intro h c hmem
      obtain ⟨p,hmem,hc⟩ := (mem_runes hp).mp hmem
      exact (hone hmem hc).mpr (h p hmem)
  · rw [List.any_eq_true]
    constructor
    · rintro ⟨c,hmem,h⟩
      obtain ⟨p,hmem,hc⟩ := (mem_runes hp).mp hmem
      exact ⟨p,hmem,(hone hmem hc).mp h⟩
    · rintro ⟨p,hmem,h⟩
      obtain ⟨c,hc⟩ := hsome p
      exact ⟨c,(mem_runes hp).mpr ⟨p,hmem,hc⟩,(hone hmem hc).mpr h⟩

theorem unit_mem (hq : ∀ q ∈ qs,q < limit) (hp : p < 65536) (hno : ¬Half p) :
    UInt16.ofNat p ∈ units qs ↔ p ∈ qs := by
  constructor
  · intro h
    obtain ⟨q,hmem,hu⟩ := List.mem_flatMap.mp h
    rcases Nat.lt_or_ge q 65536 with hsmall | hlarge
    · rw [unitsOf_small hsmall,List.mem_singleton] at hu
      rwa [unit_inj hp hsmall hu]
    · have hhigh := high_spec hlarge (hq q hmem)
      have hlow := low_spec q
      rw [unitsOf_large hlarge,List.mem_cons,List.mem_singleton] at hu
      rcases hu with hu | hu
      · exact absurd (unit_inj hp hhigh.lt hu ▸ hhigh.half) hno
      · exact absurd (unit_inj hp hlow.lt hu ▸ hlow.half) hno
  · intro h
    refine List.mem_flatMap.mpr ⟨p,h,?_⟩
    rw [unitsOf_small hp]
    exact List.mem_singleton_self _

theorem Blurred.small (h : Blurred p) : p < 65536 := by
  rcases h with h | rfl
  · exact h.2.trans (by decide)
  · decide

theorem blurred_unit (h : p ∈ ps) (hb : Blurred p) : UInt16.ofNat p ∈ units ps := by
  refine List.mem_flatMap.mpr ⟨p,h,?_⟩
  rw [unitsOf_small hb.small]
  exact List.mem_singleton_self _

theorem units_of_mem (h : p ∈ qs) {u : UInt16} (hu : u ∈ unitsOf p) : u ∈ units qs :=
  List.mem_flatMap.mpr ⟨p,h,hu⟩

def OnlyAccepted (ps qs : List Nat) : Prop := (∀ p ∈ ps,¬Blurred p → p ∈ qs) ∧ (∃ q ∈ qs,Blurred q) ∧
  ∃ p ∈ ps,Blurred p ∧ UInt16.ofNat p ∉ units qs

def OnlyRefused (ps qs : List Nat) : Prop := (∀ u ∈ units ps,u ∈ units qs) ∧
  ((∃ p ∈ ps,65536 ≤ p ∧ p ∉ qs) ∨ (∃ p ∈ ps,Blurred p) ∧ ∀ q ∈ qs,¬Blurred q)

def AnyAccepted (ps qs : List Nat) : Prop := (∃ p ∈ ps,Blurred p) ∧ (∃ q ∈ qs,Blurred q) ∧
  ∀ u ∈ units ps,u ∉ units qs

def AnyRefused (ps qs : List Nat) : Prop := (∃ u ∈ units ps,u ∈ units qs) ∧ (∀ p ∈ ps,p ∉ qs) ∧
  ¬((∃ p ∈ ps,Blurred p) ∧ ∃ q ∈ qs,Blurred q)

theorem co_iff (hp : ∀ p ∈ ps,p < limit) (hq : ∀ q ∈ qs,q < limit) :
    (co (bytes ps) (bytes qs) = true ↔ ∀ u ∈ units ps,u ∈ units qs) ↔
      ¬OnlyAccepted ps qs ∧ ¬OnlyRefused ps qs := by
  rw [co,(contains_iff hq hp).1]
  constructor
  · intro h
    refine ⟨fun hacc => ?_,fun href => ?_⟩
    · obtain ⟨hplain,hblurred,p,hmem,hb,hno⟩ := hacc
      refine hno (h.mp (fun r hr => ?_) _ (blurred_unit hmem hb))
      rw [RuneIn]
      split
      · exact hblurred
      · exact hplain r hr ‹_›
    · obtain ⟨hunits,hbad⟩ := href
      have hall := h.mpr hunits
      rcases hbad with ⟨p,hmem,hlarge,hno⟩ | ⟨⟨p,hmem,hb⟩,hnone⟩
      · have hrune := hall p hmem
        rw [RuneIn,if_neg fun hb => absurd (Blurred.small hb) (Nat.not_lt.mpr hlarge)] at hrune
        exact hno hrune
      · have hrune := hall p hmem
        rw [RuneIn,if_pos hb] at hrune
        obtain ⟨q,hq,hbq⟩ := hrune
        exact hnone q hq hbq
  · rintro ⟨hacc,href⟩
    constructor
    · intro hall u hu
      obtain ⟨p,hmem,hup⟩ := List.mem_flatMap.mp hu
      have hrune := hall p hmem
      rw [RuneIn] at hrune
      by_contra hno
      split at hrune
      · rename_i hb
        rw [unitsOf_small hb.small,List.mem_singleton] at hup
        refine hacc ⟨fun r hr hplain => ?_,hrune,p,hmem,hb,hup ▸ hno⟩
        have h := hall r hr
        rwa [RuneIn,if_neg hplain] at h
      · exact hno (units_of_mem hrune hup)
    · intro hunits p hmem
      by_contra hno
      apply href
      refine ⟨hunits,?_⟩
      rw [RuneIn] at hno
      split at hno
      · rename_i hb
        exact .inr ⟨⟨p,hmem,hb⟩,fun q hq hbq => hno ⟨q,hq,hbq⟩⟩
      · rename_i hplain
        rcases Nat.lt_or_ge p 65536 with hsmall | hlarge
        · have hu : UInt16.ofNat p ∈ units ps :=
            units_of_mem hmem (by rw [unitsOf_small hsmall]; exact List.mem_singleton_self _)
          exact absurd ((unit_mem hq hsmall fun hh => hplain (.inl hh)).mp (hunits _ hu)) hno
        · exact .inl ⟨p,hmem,hlarge,hno⟩

theorem ca_iff (hp : ∀ p ∈ ps,p < limit) (hq : ∀ q ∈ qs,q < limit) :
    (ca (bytes ps) (bytes qs) = true ↔ ∃ u ∈ units ps,u ∈ units qs) ↔
      ¬AnyAccepted ps qs ∧ ¬AnyRefused ps qs := by
  have hca : ca (bytes ps) (bytes qs) = true ↔ ∃ p ∈ ps,RuneIn qs p := by
    rw [ca,Bool.and_eq_true,(contains_iff hq hp).2,decide_eq_true_iff]
    refine and_iff_right_of_imp ?_
    rintro ⟨p,-,hrune⟩
    apply bytes_ne_nil
    rintro rfl
    rw [RuneIn] at hrune
    split at hrune
    · obtain ⟨q,hq,-⟩ := hrune
      cases hq
    · cases hrune
  rw [hca]
  constructor
  · intro h
    refine ⟨fun hacc => ?_,fun href => ?_⟩
    · obtain ⟨⟨p,hmem,hb⟩,hblurred,hno⟩ := hacc
      obtain ⟨u,hu,hu'⟩ := h.mp ⟨p,hmem,by rw [RuneIn,if_pos hb]; exact hblurred⟩
      exact hno u hu hu'
    · obtain ⟨hshared,hnone,hnot⟩ := href
      obtain ⟨p,hmem,hrune⟩ := h.mpr hshared
      rw [RuneIn] at hrune
      split at hrune
      · exact hnot ⟨⟨p,hmem,‹_›⟩,hrune⟩
      · exact hnone p hmem hrune
  · rintro ⟨hacc,href⟩
    constructor
    · rintro ⟨p,hmem,hrune⟩
      rw [RuneIn] at hrune
      split at hrune
      · by_contra hno
        exact hacc ⟨⟨p,hmem,‹_›⟩,hrune,fun u hu hu' => hno ⟨u,hu,hu'⟩⟩
      · obtain ⟨u,us,hshape⟩ := List.exists_cons_of_ne_nil (units_ne_nil_of (List.cons_ne_nil p []))
        rw [units_cons,units_nil,List.append_nil] at hshape
        have hu : u ∈ unitsOf p := by
          rw [hshape]
          exact List.mem_cons_self
        exact ⟨u,units_of_mem hmem hu,units_of_mem hrune hu⟩
    · intro hshared
      by_contra hno
      apply href
      refine ⟨hshared,fun p hmem hin => ?_,?_⟩
      · refine hno ⟨p,hmem,?_⟩
        rw [RuneIn]
        split
        · exact ⟨p,hin,‹_›⟩
        · exact hin
      · rintro ⟨⟨p,hmem,hb⟩,hblurred⟩
        exact hno ⟨p,hmem,by rw [RuneIn,if_pos hb]; exact hblurred⟩

end sets

structure Unitwise (ps qs as bs : List Nat) : Prop where
  substrings : Stands (substringBefore (bytes ps) (bytes qs)) (unitsBefore (units ps) (units qs)) ∧
    Stands (substringAfter (bytes ps) (bytes qs)) (unitsAfter (units ps) (units qs))
  left : ∃ w,shiftFn (bytes ps) true (bytes qs) = .ok w ∧ Stands w (stripLeft (units qs) (units ps))
  right : ∃ w,shiftFn (bytes ps) false (bytes qs) = .ok w ∧ Stands w (stripRight (units qs) (units ps))
  only : co (bytes as) (bytes bs) = true ↔ ∀ u ∈ units as,u ∈ units bs
  any : ca (bytes as) (bytes bs) = true ↔ ∃ u ∈ units as,u ∈ units bs

structure Whole (ps qs as bs : List Nat) : Prop where
  found : ∀ i,index (units ps) (units qs) = some i → Boundary ps i ∧ Boundary ps (i + (units qs).length)
  left : CopiesLeft ps qs
  right : CopiesRight ps qs
  only : ¬OnlyAccepted as bs ∧ ¬OnlyRefused as bs
  any : ¬AnyAccepted as bs ∧ ¬AnyRefused as bs

theorem unitwise_iff {ps qs as bs : List Nat} (hp : Canonical ps) (hq : Canonical qs) (hne : qs ≠ [])
    (ha : Canonical as) (hb : Canonical bs) : Unitwise ps qs as bs ↔ Whole ps qs as bs := by
  have hleft : (∃ w,shiftFn (bytes ps) true (bytes qs) = .ok w ∧
      Stands w (stripLeft (units qs) (units ps))) ↔ CopiesLeft ps qs := by
    rw [← stripLeft_iff hp hq hne,shiftFn,if_neg (bytes_ne_nil hne)]
    simp
  have hright : (∃ w,shiftFn (bytes ps) false (bytes qs) = .ok w ∧
      Stands w (stripRight (units qs) (units ps))) ↔ CopiesRight ps qs := by
    rw [← stripRight_iff hp hq hne,shiftFn,if_neg (bytes_ne_nil hne)]
    simp
  have hfound := substrings_iff hp hq hne
  have honly := co_iff ha.points hb.points
  have hany := ca_iff ha.points hb.points
  constructor
  · rintro ⟨h,h',h'',h₁,h₂⟩
    exact ⟨hfound.mp h,hleft.mp h',hright.mp h'',honly.mp h₁,hany.mp h₂⟩
  · rintro ⟨h,h',h'',h₁,h₂⟩
    exact ⟨hfound.mpr h,hleft.mpr h',hright.mpr h'',honly.mpr h₁,hany.mpr h₂⟩

theorem unitwise_iff_halves : Unitwise [128512,97,0xd83d] [97,0xd83d] [128512] [0xd83d] ↔
    Whole [128512,97,0xd83d] [97,0xd83d] [128512] [0xd83d] :=
  have hcanonical : Canonical [128512,97,0xd83d] := ⟨by decide,by unfold Settled; decide⟩
  unitwise_iff hcanonical ⟨by decide,by unfold Settled; decide⟩ (by decide)
    ⟨by decide,List.IsChain.singleton _⟩ ⟨by decide,List.IsChain.singleton _⟩

theorem split_character : Canonical [128512] ∧ Canonical [55357] ∧
    ¬Stands (substringAfter (bytes [128512]) (bytes [55357])) (unitsAfter (units [128512]) (units [55357])) ∧
    ¬Unitwise [128512] [55357] [97] [97] := by
  have hv : Canonical [128512] := ⟨by decide,List.IsChain.singleton _⟩
  have hsub : Canonical [55357] := ⟨by decide,List.IsChain.singleton _⟩
  have hindex : index (units [128512]) (units [55357]) = some 0 := by decide
  have hno : ¬Boundary [128512] (0 + (units [55357]).length) := by
    rintro ⟨j,hj,heq⟩
    have hone : (units [55357]).length = 1 := by decide
    obtain rfl | rfl : j = 0 ∨ j = 1 := by
      have hj : j ≤ 1 := hj
      omega
    · exact absurd heq (by decide)
    · exact absurd heq (by decide)
  have hfails : ¬Stands (substringAfter (bytes [128512]) (bytes [55357]))
      (unitsAfter (units [128512]) (units [55357])) := by
    intro h
    refine hno (((substrings_iff hv hsub (by decide)).mp ⟨?_,h⟩ 0 hindex).2)
    have hnone : index [128512] [55357] = none := by decide
    rw [(substrings_none hv hsub (by decide) hnone).1,unitsBefore,hindex]
    exact ⟨[],⟨by simp,List.IsChain.nil⟩,rfl,rfl⟩
  exact ⟨hv,hsub,hfails,fun h => hfails h.substrings.2⟩

end OpenSteamgate.Text
