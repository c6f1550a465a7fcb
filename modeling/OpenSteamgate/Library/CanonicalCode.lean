import OpenSteamgate.Library.Bits
import OpenSteamgate.Library.Streaming
import Mathlib.Data.List.Count

namespace CanonicalCode

open Bits

variable (count : Nat → Nat)

@[grind =] def used : Nat → Nat
  | 0 => 0
  | l + 1 => 2 * used l + count (l + 1)

@[grind =] def upTo : Nat → Nat
  | 0 => 0
  | l + 1 => upTo l + count (l + 1)

def Fits (max : Nat) : Prop := ∀ l ≤ max, used count l ≤ 2 ^ l

@[grind =] def descend : Nat → Nat → Nat → Nat → Nat → List Bool → Outcome Unit (Nat × List Bool)
  | 0, _, _, _, _, _ => .fail ()
  | _ + 1, _, _, _, _, [] => .more
  | k + 1, l, code, first, index, b :: bs =>
      let code := code + b.toNat
      if code < first + count l then .ok (index + (code - first),bs)
      else descend k (l + 1) (2 * code) (2 * (first + count l)) (index + count l) bs

def locate (max : Nat) : List Bool → Outcome Unit (Nat × List Bool) := descend count max 1 0 0 0

variable {count} {max l i : Nat}

variable (count) in
theorem used_scale (j m : Nat) : used count j * 2 ^ m ≤ used count (j + m) := by
  induction m with
  | zero => simp
  | succ m ih =>
    rw [Nat.pow_succ,← Nat.add_assoc,used]
    linarith

variable (count) in
theorem upTo_mono {j k : Nat} (h : j ≤ k) : upTo count j ≤ upTo count k := by
  induction h with
  | refl => exact le_refl _
  | step _ ih => exact ih.trans (Nat.le_add_right _ _)

theorem descend_codeword (hi : i < count (l + 1)) {w : Nat} (hw : w = 2 * used count l + i)
    (rest : List Bool) : ∀ m j k,l = j + m → m < k →
      descend count k (j + 1) (2 * (w / 2 ^ (m + 1))) (2 * used count j) (upTo count j)
        (msb (m + 1) w ++ rest) = .ok (upTo count l + i,rest) := by
  intro m
  induction m with
  | zero =>
    intro j k hl hk
    obtain ⟨k,rfl⟩ := Nat.exists_eq_succ_of_ne_zero hk.ne'
    have hcode := div_two_pow_succ w 0
    simp only [Nat.pow_zero,Nat.div_one] at hcode
    simp only [Nat.add_zero] at hl
    subst hl
    simp only [msb,List.cons_append,List.nil_append,descend,← hcode]
    rw [if_pos (by omega),hw,Nat.add_sub_cancel_left]
  | succ m ih =>
    intro j k hl hk
    obtain ⟨k,rfl⟩ := Nat.exists_eq_succ_of_ne_zero (Nat.zero_lt_of_lt hk).ne'
    have hcode := div_two_pow_succ w (m + 1)
    -- the codes of up to `j + 1` bits end below every longer one
    have hbelow : used count (j + 1) ≤ w / 2 ^ (m + 1) := by
      rw [Nat.le_div_iff_mul_le (Nat.two_pow_pos _)]
      have hs := used_scale count (j + 1) m
      rw [show j + 1 + m = l by omega] at hs
      rw [Nat.pow_succ]
      linarith
    rw [msb,List.cons_append]
    simp only [descend,← hcode]
    rw [if_neg (by rw [used] at hbelow; omega)]
    exact ih (j + 1) k (by omega) (by omega)

theorem locate_codeword (hi : i < count (l + 1)) (hfits : used count (l + 1) ≤ 2 ^ (l + 1))
    (hl : l < max) (rest : List Bool) :
    locate count max (msb (l + 1) (2 * used count l + i) ++ rest) = .ok (upTo count l + i,rest) := by
  have hlt : 2 * used count l + i < 2 ^ (l + 1) := by
    rw [used] at hfits
    omega
  have h := descend_codeword hi rfl rest l 0 max (by omega) hl
  rwa [Nat.div_eq_of_lt hlt] at h

def share (max l : Nat) : Nat := if 0 < l ∧ l ≤ max then 2 ^ (max - l) else 0

def kraft (max : Nat) (lengths : List Nat) : Nat := (lengths.map (share max)).sum

theorem share_succ (max l : Nat) :
    share (max + 1) l = 2 * share max l + if l = max + 1 then 1 else 0 := by
  simp only [share]
  rcases lt_trichotomy l (max + 1) with hlt | rfl | hgt
  · by_cases hl : 0 < l
    · rw [if_pos (by omega),if_pos (by omega),if_neg (by omega),Nat.sub_add_comm (by omega),Nat.pow_succ']
      rfl
    · rw [if_neg (by omega),if_neg (by omega),if_neg (by omega)]
  · simp
  · rw [if_neg (by omega),if_neg (by omega),if_neg (by omega)]

theorem used_eq_kraft (max : Nat) (lengths : List Nat) :
    used lengths.count max = kraft max lengths := by
  induction max with
  | zero =>
    have hzero : share 0 = fun _ => 0 := funext fun l => if_neg (by omega)
    simp [used,kraft,hzero]
  | succ max ih =>
    rw [used,ih]
    clear ih
    induction lengths with
    | nil => rfl
    | cons l lengths ih =>
      simp only [kraft,List.map_cons,List.sum_cons,share_succ,List.count_cons,beq_iff_eq] at ih ⊢
      omega

theorem fits_of_used (h : used count max ≤ 2 ^ max) : Fits count max := by
  intro l hl
  obtain ⟨m,rfl⟩ := Nat.exists_eq_add_of_le hl
  have hs := (used_scale count l m).trans h
  rw [Nat.pow_add] at hs
  exact Nat.le_of_mul_le_mul_right hs (Nat.two_pow_pos m)

theorem upTo_le_length (max : Nat) (lengths : List Nat) :
    upTo lengths.count max ≤ lengths.length := by
  have hsum : upTo lengths.count max = (lengths.filter fun l => 0 < l ∧ l ≤ max).length := by
    induction max with
    | zero =>
      rw [upTo,eq_comm,List.length_eq_zero_iff,List.filter_eq_nil_iff]
      intro l _
      simp only [decide_eq_true_eq]
      omega
    | succ max ih =>
      rw [upTo,ih,← List.countP_eq_length_filter,← List.countP_eq_length_filter]
      clear ih
      induction lengths with
      | nil => rfl
      | cons l lengths ih =>
        simp only [List.countP_cons,List.count_cons,decide_eq_true_eq,beq_iff_eq] at ih ⊢
        split_ifs <;> omega
  exact hsum ▸ List.length_filter_le _ _

variable {count' : Nat → Nat}

theorem used_congr (h : ∀ l,0 < l → l ≤ max → count l = count' l) (hl : l ≤ max) :
    used count l = used count' l := by
  induction l with
  | zero => rfl
  | succ l ih => rw [used,used,ih (by omega),h (l + 1) (by omega) hl]

theorem upTo_congr (h : ∀ l,0 < l → l ≤ max → count l = count' l) (hl : l ≤ max) :
    upTo count l = upTo count' l := by
  induction l with
  | zero => rfl
  | succ l ih => rw [upTo,upTo,ih (by omega),h (l + 1) (by omega) hl]

theorem locate_congr (h : ∀ l,0 < l → l ≤ max → count l = count' l) :
    locate count max = locate count' max := by
  have hgen : ∀ k l code first index bs,0 < l → l + k ≤ max + 1 →
      descend count k l code first index bs = descend count' k l code first index bs := by
    intro k
    induction k with
    | zero =>
      intros
      rfl
    | succ k ih =>
      intro l code first index bs hl hk
      cases bs with
      | nil => rfl
      | cons b bs =>
        simp only [descend,h l hl (by omega)]
        rw [ih _ _ _ _ _ (by omega) (by omega)]
  funext bs
  exact hgen max 1 0 0 0 bs (by omega) (by omega)

def codeword (lengths : List Nat) (sym : Nat) : List Bool :=
  match lengths.getD sym 0 with
  | 0 => []
  | l + 1 => msb (l + 1) (2 * used lengths.count l + (lengths.take sym).count (l + 1))

def place (lengths : List Nat) (sym : Nat) : Nat :=
  match lengths.getD sym 0 with
  | 0 => 0
  | l + 1 => upTo lengths.count l + (lengths.take sym).count (l + 1)

variable {lengths : List Nat} {sym sym' : Nat}

theorem rank_lt (h : lengths.getD sym 0 = l + 1) :
    (lengths.take sym).count (l + 1) < lengths.count (l + 1) := by
  have hs : sym < lengths.length := by
    by_contra hs
    rw [List.getD_eq_default _ _ (by omega)] at h
    cases h
  rw [List.getD_eq_getElem _ _ hs] at h
  have hsplit := List.take_append_drop sym lengths
  rw [List.drop_eq_getElem_cons hs,h] at hsplit
  have hc := congrArg (List.count (l + 1)) hsplit
  rw [List.count_append,List.count_cons_self] at hc
  omega

theorem place_lt (h : lengths.getD sym 0 = l + 1) :
    upTo lengths.count l ≤ place lengths sym ∧ place lengths sym < upTo lengths.count (l + 1) := by
  have := rank_lt h
  simp only [place,h,upTo]
  omega

theorem locate_sym (hfits : Fits lengths.count max) (hpos : 0 < lengths.getD sym 0)
    (hmax : lengths.getD sym 0 ≤ max) (rest : List Bool) :
    locate lengths.count max (codeword lengths sym ++ rest) = .ok (place lengths sym,rest) := by
  obtain ⟨l,hl⟩ := Nat.exists_eq_succ_of_ne_zero hpos.ne'
  simp only [codeword,place,hl]
  exact locate_codeword (rank_lt hl) (hfits _ (by omega)) (by omega) rest

theorem take_count_mono (hs : sym < sym') (h : lengths.getD sym 0 = l + 1) :
    (lengths.take sym).count (l + 1) < (lengths.take sym').count (l + 1) := by
  have h' : (lengths.take sym').getD sym 0 = l + 1 := by
    rw [List.getD_eq_getElem?_getD,List.getElem?_take_of_lt hs,← List.getD_eq_getElem?_getD,h]
  have := rank_lt h'
  rwa [List.take_take,Nat.min_eq_left hs.le] at this

theorem place_injective (hpos : 0 < lengths.getD sym 0) (hpos' : 0 < lengths.getD sym' 0)
    (h : place lengths sym = place lengths sym') : sym = sym' := by
  obtain ⟨l,hl⟩ := Nat.exists_eq_succ_of_ne_zero hpos.ne'
  obtain ⟨l',hl'⟩ := Nat.exists_eq_succ_of_ne_zero hpos'.ne'
  have hb := place_lt hl
  have hb' := place_lt hl'
  have hll : l = l' := by
    rcases lt_trichotomy l l' with hlt | he | hlt
    · have := upTo_mono lengths.count (Nat.succ_le_of_lt hlt)
      simp only [Nat.succ_eq_add_one] at this
      omega
    · exact he
    · have := upTo_mono lengths.count (Nat.succ_le_of_lt hlt)
      simp only [Nat.succ_eq_add_one] at this
      omega
  subst hll
  simp only [place,hl,hl',Nat.add_left_cancel_iff] at h
  rcases lt_trichotomy sym sym' with hlt | he | hlt
  · have := take_count_mono hlt hl
    omega
  · exact he
  · have := take_count_mono hlt hl'
    omega

end CanonicalCode
