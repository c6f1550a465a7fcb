import Mathlib.Data.Int.Lemmas
import OpenSteamgate.Library.Rounding

namespace OpenSteamgate.Arith

inductive Raise
  | overflow (op : String)
  | zeroDivide (op : String)

def add (a b : Int64) : Except Raise Int64 :=
  let r := a + b
  if (a ^^^ r) &&& (b ^^^ r) < 0 then .error (.overflow "+") else .ok r

def sub (a b : Int64) : Except Raise Int64 :=
  let r := a - b
  if (a ^^^ b) &&& (a ^^^ r) < 0 then .error (.overflow "-") else .ok r

def magnitude (v : Int64) : UInt64 := if v < 0 then (-(v + 1)).toUInt64 + 1 else v.toUInt64

def mul64 (x y : UInt64) : UInt64 × UInt64 :=
  (UInt64.ofNat (x.toNat * y.toNat / 2 ^ 64),UInt64.ofNat (x.toNat * y.toNat))

def mul (a b : Int64) : Except Raise Int64 :=
  let p := mul64 (magnitude a) (magnitude b)
  let negative := decide (a < 0) != decide (b < 0)
  let limit := if negative then Int64.maxValue.toUInt64 + 1 else Int64.maxValue.toUInt64
  if p.1 ≠ 0 ∨ limit < p.2 then .error (.overflow "*")
  else if negative then .ok (-p.2.toInt64)
  else .ok p.2.toInt64

def zero (a b : Int64) (op : String) : Except Raise Bool :=
  if b ≠ 0 then .ok false
  else if a ≠ 0 then .error (.zeroDivide op)
  else .ok true

def quotient (a b : Int64) (op : String) : Except Raise Int64 :=
  if a = Int64.minValue ∧ b = -1 then .error (.overflow op) else .ok (a / b)

def div (a b : Int64) : Except Raise Int64 := do
  if ← zero a b "/" then return 0
  let q ← quotient a b "/"
  let r := magnitude (a % b)
  let divisor := magnitude b
  if divisor / 2 + divisor % 2 ≤ r then
    return if decide (a < 0) != decide (b < 0) then q - 1 else q + 1
  return q

def quot (a b : Int64) : Except Raise Int64 := do
  if ← zero a b "DIV" then return 0
  let q ← quotient a b "DIV"
  if a % b < 0 then
    return if 0 < b then q - 1 else q + 1
  return q

def mod (a b : Int64) : Except Raise Int64 := do
  if ← zero a b "MOD" then return 0
  let r := a % b
  if r < 0 then return (r.toUInt64 + magnitude b).toInt64
  return r

section signs

variable {a b : Int64}

theorem neg_iff : a < 0 ↔ a.toInt < 0 := Int64.lt_iff_toInt_lt

theorem neg_msb (a : Int64) : decide (a.toInt < 0) = a.toBitVec.msb := BitVec.msb_eq_toInt.symm

theorem and_neg : a &&& b < 0 ↔ a < 0 ∧ b < 0 := by
  simp only [neg_iff]
  have h := neg_msb (a &&& b)
  rw [Int64.toBitVec_and,BitVec.msb_and,← neg_msb,← neg_msb,← Bool.decide_and] at h
  exact decide_eq_decide.mp h

theorem xor_neg : a ^^^ b < 0 ↔ (a < 0 ↔ ¬b < 0) := by
  simp only [neg_iff]
  have h := neg_msb (a ^^^ b)
  rw [Int64.toBitVec_xor,BitVec.msb_xor,← neg_msb,← neg_msb] at h
  by_cases ha : a.toInt < 0
  · by_cases hb : b.toInt < 0
    · simpa [ha,hb] using h
    · simpa [ha,hb] using h
  · by_cases hb : b.toInt < 0
    · simpa [ha,hb] using h
    · simpa [ha,hb] using h

theorem bounds (a : Int64) : -2 ^ 63 ≤ a.toInt ∧ a.toInt < 2 ^ 63 := ⟨a.le_toInt,a.toInt_lt⟩

theorem bmod_once {n : Int} (h : -2 ^ 64 ≤ n) (h' : n < 2 ^ 64) : n.bmod (2 ^ 64) =
    if n < -2 ^ 63 then n + 2 ^ 64 else if 2 ^ 63 ≤ n then n - 2 ^ 64 else n := by
  rw [Int.bmod_def]
  split <;> split <;> (try split) <;> omega

def Fits (n : Int) : Prop := -2 ^ 63 ≤ n ∧ n < 2 ^ 63

instance (n : Int) : Decidable (Fits n) := inferInstanceAs (Decidable (_ ∧ _))

def checked (op : String) (n : Int) : Except Raise Int64 :=
  if Fits n then .ok (Int64.ofInt n) else .error (.overflow op)

theorem checked_of {op : String} {n : Int} {r : Int64} (h : r.toInt = n) : checked op n = .ok r := by
  subst h
  rw [checked,if_pos (show Fits r.toInt from bounds r),Int64.ofInt_toInt]

theorem checked_exact {op : String} {n : Int} {r : Int64} {lost : Prop} [Decidable lost]
    (hlost : lost ↔ ¬Fits n) (hr : Fits n → r.toInt = n) :
    (if lost then .error (.overflow op) else .ok r) = checked op n := by
  by_cases hfits : Fits n
  · rw [if_neg fun h => hlost.mp h hfits,checked_of (hr hfits)]
  · rw [checked,if_neg hfits,if_pos (hlost.mpr hfits)]

theorem add_exact (a b : Int64) : add a b = checked "+" (a.toInt + b.toInt) := by
  have ha := bounds a
  have hb := bounds b
  have hr := (Int64.toInt_add a b).trans (bmod_once (by omega) (by omega))
  refine checked_exact ?_ fun hfits => ?_
  · rw [and_neg,xor_neg,xor_neg,neg_iff,neg_iff,neg_iff,hr]
    unfold Fits
    split
    · omega
    · split <;> omega
  · rw [hr,if_neg (by unfold Fits at hfits; omega),if_neg (by unfold Fits at hfits; omega)]

theorem sub_exact (a b : Int64) : sub a b = checked "-" (a.toInt - b.toInt) := by
  have ha := bounds a
  have hb := bounds b
  have hr := (Int64.toInt_sub a b).trans (bmod_once (by omega) (by omega))
  refine checked_exact ?_ fun hfits => ?_
  · rw [and_neg,xor_neg,xor_neg,neg_iff,neg_iff,neg_iff,hr]
    unfold Fits
    split
    · omega
    · split <;> omega
  · rw [hr,if_neg (by unfold Fits at hfits; omega),if_neg (by unfold Fits at hfits; omega)]

end signs

section magnitudes

variable {a b : Int64}

theorem toNat_toUInt64 (h : 0 ≤ a.toInt) : a.toUInt64.toNat = a.toInt.toNat :=
  Int64.toNat_toUInt64_of_le (Int64.le_iff_toInt_le.mpr h)

theorem magnitude_toNat (a : Int64) : (magnitude a).toNat = a.toInt.natAbs := by
  have ha := bounds a
  rw [magnitude]
  split
  · rename_i hneg
    rw [neg_iff] at hneg
    have hsucc : (a + 1).toInt = a.toInt + 1 := by
      rw [Int64.toInt_add,bmod_once (by simp; omega) (by simp; omega)]
      simp
      omega
    have hflip : (-(a + 1)).toInt = -(a.toInt + 1) := by
      rw [Int64.toInt_neg,hsucc,bmod_once (by omega) (by omega)]
      split
      · omega
      · split <;> omega
    rw [UInt64.toNat_add,toNat_toUInt64 (by omega),hflip]
    simp
    omega
  · rename_i hneg
    rw [neg_iff] at hneg
    rw [toNat_toUInt64 (by omega)]
    omega

theorem mul_signed (a b : Int64) : a.toInt * b.toInt =
    if decide (a < 0) != decide (b < 0) then -(((magnitude a).toNat * (magnitude b).toNat : Nat) : Int)
    else (((magnitude a).toNat * (magnitude b).toNat : Nat) : Int) := by
  rw [magnitude_toNat,magnitude_toNat]
  push_cast
  by_cases ha : a < 0
  · have hneg := (neg_iff).mp ha
    by_cases hb : b < 0
    · have hneg' := (neg_iff).mp hb
      simp [ha,hb,abs_of_neg hneg,abs_of_neg hneg']
    · have hpos := Int.not_lt.mp fun h => hb ((neg_iff).mpr h)
      simp [ha,hb,abs_of_neg hneg,abs_of_nonneg hpos]
  · have hpos := Int.not_lt.mp fun h => ha ((neg_iff).mpr h)
    by_cases hb : b < 0
    · have hneg' := (neg_iff).mp hb
      simp [ha,hb,abs_of_nonneg hpos,abs_of_neg hneg']
    · have hpos' := Int.not_lt.mp fun h => hb ((neg_iff).mpr h)
      simp [ha,hb,abs_of_nonneg hpos,abs_of_nonneg hpos']

theorem mul64_small {x y : UInt64} (h : x.toNat * y.toNat < 2 ^ 64) :
    mul64 x y = (0,UInt64.ofNat (x.toNat * y.toNat)) := by
  rw [mul64,Nat.div_eq_of_lt h]
  rfl

theorem mul64_large {x y : UInt64} (h : 2 ^ 64 ≤ x.toNat * y.toNat) : (mul64 x y).1 ≠ 0 := by
  have hx := x.toNat_lt
  have hy := y.toNat_lt
  have hlt : x.toNat * y.toNat / 2 ^ 64 < 2 ^ 64 :=
    Nat.div_lt_of_lt_mul (Nat.mul_lt_mul'' hx hy)
  have hpos : 0 < x.toNat * y.toNat / 2 ^ 64 := Nat.div_pos h (by decide)
  intro hzero
  have htoNat := congrArg UInt64.toNat hzero
  rw [mul64,UInt64.toNat_ofNat_of_lt' hlt] at htoNat
  exact absurd htoNat hpos.ne'

theorem mul_exact (a b : Int64) : mul a b = checked "*" (a.toInt * b.toInt) := by
  have hsigned := mul_signed a b
  rw [mul]
  by_cases hlarge : 2 ^ 64 ≤ (magnitude a).toNat * (magnitude b).toNat
  · rw [if_pos (.inl (mul64_large hlarge)),checked,if_neg]
    rw [hsigned]
    unfold Fits
    split <;> omega
  · rw [mul64_small (Nat.not_le.mp hlarge)]
    generalize (magnitude a).toNat * (magnitude b).toNat = n at hsigned hlarge
    have hlo : (UInt64.ofNat n).toNat = n := UInt64.toNat_ofNat_of_lt' (Nat.not_le.mp hlarge)
    have hsmall : (UInt64.ofNat n).toInt64.toInt =
        (if 2 ^ 63 ≤ (n : Int) then (n : Int) - 2 ^ 64 else (n : Int)) := by
      rw [UInt64.toInt64_ofNat']
      exact Int64.toInt_ofNat'.trans ((bmod_once (by omega) (by omega)).trans (if_neg (by omega)))
    generalize (decide (a < 0) != decide (b < 0)) = negative at hsigned ⊢
    cases negative with
    | true =>
      simp only [if_true] at hsigned ⊢
      have hlimit : (Int64.maxValue.toUInt64 + 1).toNat = 2 ^ 63 := rfl
      by_cases hfits : n ≤ 2 ^ 63
      · rw [if_neg,hsigned,checked_of]
        · rw [Int64.toInt_neg,hsmall]
          split
          · rw [bmod_once (by omega) (by omega)]
            split
            · omega
            · split <;> omega
          · rw [bmod_once (by omega) (by omega)]
            split
            · omega
            · split <;> omega
        · rw [UInt64.lt_iff_toNat_lt,hlimit,hlo]
          rintro (h | h)
          · exact h rfl
          · omega
      · rw [if_pos,hsigned,checked,if_neg]
        · unfold Fits
          omega
        · rw [UInt64.lt_iff_toNat_lt,hlimit,hlo]
          omega
    | false =>
      simp only [Bool.false_eq_true,if_false] at hsigned ⊢
      have hlimit : Int64.maxValue.toUInt64.toNat = 2 ^ 63 - 1 := rfl
      by_cases hfits : n < 2 ^ 63
      · rw [if_neg,hsigned,checked_of]
        · rw [hsmall]
          split <;> omega
        · rw [UInt64.lt_iff_toNat_lt,hlimit,hlo]
          rintro (h | h)
          · exact h rfl
          · omega
      · rw [if_pos,hsigned,checked,if_neg]
        · unfold Fits
          omega
        · rw [UInt64.lt_iff_toNat_lt,hlimit,hlo]
          omega

end magnitudes

section quotients

variable {a b : Int64} {op : String}

theorem eq_zero_iff : b = 0 ↔ b.toInt = 0 := by
  rw [← Int64.toInt_inj]
  rfl

theorem zero_ok (hb : b ≠ 0) : zero a b op = .ok false := if_pos hb

theorem zero_raises (ha : a ≠ 0) : zero a 0 op = .error (.zeroDivide op) := by simp [zero,ha]

theorem quotient_ok (h : ¬(a = Int64.minValue ∧ b = -1)) :
    quotient a b op = .ok (a / b) ∧ (a / b).toInt = a.toInt.tdiv b.toInt := by
  refine ⟨if_neg h,?_⟩
  by_cases ha : a = Int64.minValue
  · exact Int64.toInt_div_of_ne_right a b fun hb => h ⟨ha,hb⟩
  · exact Int64.toInt_div_of_ne_left a b ha

theorem tdiv_signs (m n : Int) : m.tdiv n =
    (if decide (m < 0) != decide (n < 0) then -(|m| / |n|) else |m| / |n|) ∧
    m.tmod n = if m < 0 then -(|m| % |n|) else |m| % |n| := by
  rcases Int.lt_or_le m 0 with hm | hm
  · rw [abs_of_neg hm,if_pos hm]
    have hm' : 0 ≤ -m := by omega
    have hq := Int.neg_tdiv (-m) n
    have hr := Int.neg_tmod (-m) n
    rw [neg_neg] at hq hr
    rcases Int.lt_or_le n 0 with hn | hn
    · have hq' := Int.tdiv_neg (-m) (-n)
      have hr' := Int.tmod_neg (-m) (-n)
      rw [neg_neg] at hq' hr'
      rw [abs_of_neg hn,hq,hr,hq',hr',Int.tdiv_eq_ediv_of_nonneg hm',Int.tmod_eq_emod_of_nonneg hm']
      simp [hm,hn]
    · rw [abs_of_nonneg hn,hq,hr,Int.tdiv_eq_ediv_of_nonneg hm',Int.tmod_eq_emod_of_nonneg hm']
      simp [hm,Int.not_lt.mpr hn]
  · rw [abs_of_nonneg hm,if_neg (Int.not_lt.mpr hm)]
    rcases Int.lt_or_le n 0 with hn | hn
    · have hq' := Int.tdiv_neg m (-n)
      have hr' := Int.tmod_neg m (-n)
      rw [neg_neg] at hq' hr'
      rw [abs_of_neg hn,hq',hr',Int.tdiv_eq_ediv_of_nonneg hm,Int.tmod_eq_emod_of_nonneg hm]
      simp [Int.not_lt.mpr hm,hn]
    · rw [abs_of_nonneg hn,Int.tdiv_eq_ediv_of_nonneg hm,Int.tmod_eq_emod_of_nonneg hm]
      simp [Int.not_lt.mpr hm,Int.not_lt.mpr hn]

def nearest (m n : Int) : Int := if |n| ≤ 2 * (|m| % |n|) then |m| / |n| + 1 else |m| / |n|

theorem nearest_halfAway (m n : Int) (hn : n ≠ 0) : Rounding.HalfAway ((m : ℚ) / n)
    (if decide (m < 0) != decide (n < 0) then -nearest m n else nearest m n) := by
  have h := Rounding.halfAway_div (abs_nonneg m) (abs_pos.mpr hn)
  change Rounding.HalfAway _ (nearest m n) at h
  rw [Int.cast_abs,Int.cast_abs] at h
  rcases Int.lt_or_le m 0 with hm | hm
  · have hm' : (m : ℚ) ≤ 0 := by exact_mod_cast hm.le
    rw [abs_of_nonpos hm'] at h
    rcases Int.lt_or_le n 0 with hn | hn
    · have hn' : (n : ℚ) ≤ 0 := by exact_mod_cast hn.le
      rw [abs_of_nonpos hn',neg_div_neg_eq] at h
      simpa [hm,hn] using h
    · have hn' : (0 : ℚ) ≤ n := by exact_mod_cast hn
      rw [abs_of_nonneg hn'] at h
      have h := h.neg
      rw [neg_div,neg_neg] at h
      simpa [hm,Int.not_lt.mpr hn] using h
  · have hm' : (0 : ℚ) ≤ m := by exact_mod_cast hm
    rw [abs_of_nonneg hm'] at h
    rcases Int.lt_or_le n 0 with hn | hn
    · have hn' : (n : ℚ) ≤ 0 := by exact_mod_cast hn.le
      rw [abs_of_nonpos hn'] at h
      have h := h.neg
      rw [div_neg,neg_neg] at h
      simpa [Int.not_lt.mpr hm,hn] using h
    · have hn' : (0 : ℚ) ≤ n := by exact_mod_cast hn
      rw [abs_of_nonneg hn'] at h
      simpa [Int.not_lt.mpr hm,Int.not_lt.mpr hn] using h

theorem half_iff {x y : UInt64} : y / 2 + y % 2 ≤ x ↔ y.toNat ≤ 2 * x.toNat := by
  have hy := y.toNat_lt
  rw [UInt64.le_iff_toNat_le,UInt64.toNat_add,UInt64.toNat_div,UInt64.toNat_mod]
  change (y.toNat / 2 + y.toNat % 2) % 2 ^ 64 ≤ x.toNat ↔ _
  omega

theorem remainder_magnitude (a b : Int64) :
    ((magnitude (a % b)).toNat : Int) = |a.toInt| % |b.toInt| := by
  rw [magnitude_toNat,Int64.toInt_mod,Int.natCast_natAbs,(tdiv_signs _ _).2]
  by_cases hb : b.toInt = 0
  · simp only [hb,abs_zero,Int.emod_zero]
    split <;> simp
  · have h := Int.emod_nonneg |a.toInt| (abs_pos.mpr hb).ne'
    split
    · rw [abs_neg,abs_of_nonneg h]
    · rw [abs_of_nonneg h]

theorem half_signs (a b : Int64) :
    magnitude b / 2 + magnitude b % 2 ≤ magnitude (a % b) ↔
      |b.toInt| ≤ 2 * (|a.toInt| % |b.toInt|) := by
  have h := remainder_magnitude a b
  have hb : ((magnitude b).toNat : Int) = |b.toInt| := by
    rw [magnitude_toNat,Int.natCast_natAbs]
  rw [half_iff,← h,← hb]
  omega

theorem quotient_half {m n : Int} (hm : |m| ≤ 2 ^ 63) (hn : 2 ≤ |n|) :
    0 ≤ |m| / |n| ∧ |m| / |n| ≤ 2 ^ 62 := by
  have hquot := Int.ediv_nonneg (abs_nonneg m) (abs_nonneg n)
  have hmul := Int.mul_ediv_add_emod |m| |n|
  have hrem := Int.emod_nonneg |m| (by omega : |n| ≠ 0)
  exact ⟨hquot,by nlinarith⟩

theorem quotient_small {m n : Int} (hm : |m| ≤ 2 ^ 63) (h : |n| ≤ 2 * (|m| % |n|)) (hn : n ≠ 0) :
    0 ≤ |m| / |n| ∧ |m| / |n| ≤ 2 ^ 62 := by
  have hlt := Int.emod_lt_of_pos |m| (abs_pos.mpr hn)
  exact quotient_half hm (by omega)

theorem toInt_abs_le (a : Int64) : |a.toInt| ≤ 2 ^ 63 := by
  have h := bounds a
  rw [abs_le]
  omega

theorem succ_toInt {q : Int64} (h : |q.toInt| ≤ 2 ^ 62) :
    (q + 1).toInt = q.toInt + 1 ∧ (q - 1).toInt = q.toInt - 1 := by
  have h := abs_le.mp h
  rw [Int64.toInt_add,Int64.toInt_sub]
  change (q.toInt + 1).bmod (2 ^ 64) = _ ∧ (q.toInt - 1).bmod (2 ^ 64) = _
  rw [bmod_once (by omega) (by omega),bmod_once (by omega) (by omega)]
  constructor
  · rw [if_neg (by omega),if_neg (by omega)]
  · rw [if_neg (by omega),if_neg (by omega)]

theorem div_nearest (hb : b ≠ 0) (h : ¬(a = Int64.minValue ∧ b = -1)) :
    ∃ r,div a b = .ok r ∧ Rounding.HalfAway ((a.toInt : ℚ) / b.toInt) r.toInt := by
  have hn : b.toInt ≠ 0 := fun hzero => hb ((eq_zero_iff).mpr hzero)
  have hnearest := nearest_halfAway a.toInt b.toInt hn
  obtain ⟨hq,hqInt⟩ := @quotient_ok a b "/" h
  rw [(tdiv_signs _ _).1] at hqInt
  have hsign : (decide (a < 0) != decide (b < 0)) = (decide (a.toInt < 0) != decide (b.toInt < 0)) := by
    simp only [neg_iff]
  simp only [div,zero_ok hb,hq,bind,Except.bind,Bool.false_eq_true,if_false,half_signs,hsign]
  rw [nearest] at hnearest
  split
  · rename_i hhalf
    have hsmall := quotient_small (toInt_abs_le a) hhalf hn
    rw [if_pos hhalf] at hnearest
    split
    · rename_i hneg
      rw [if_pos hneg] at hnearest hqInt
      refine ⟨_,rfl,?_⟩
      rw [(succ_toInt (by rw [hqInt,abs_neg,abs_of_nonneg hsmall.1]; exact hsmall.2)).2,hqInt]
      convert hnearest using 1
      ring
    · rename_i hneg
      rw [if_neg hneg] at hnearest hqInt
      refine ⟨_,rfl,?_⟩
      rw [(succ_toInt (by rw [hqInt,abs_of_nonneg hsmall.1]; exact hsmall.2)).1,hqInt]
      exact hnearest
  · rename_i hhalf
    rw [if_neg hhalf] at hnearest
    exact ⟨_,rfl,hqInt ▸ hnearest⟩

theorem tmod_bounds (m : Int) {n : Int} (hn : n ≠ 0) : -|n| < m.tmod n ∧ m.tmod n < |n| := by
  have hpos := abs_pos.mpr hn
  have hlow := Int.emod_nonneg |m| hpos.ne'
  have hhigh := Int.emod_lt_of_pos |m| hpos
  rw [(tdiv_signs m n).2]
  split <;> constructor <;> omega

theorem mod_ok (hb : b ≠ 0) : ∃ r,mod a b = .ok r ∧
    r.toInt = if a.toInt.tmod b.toInt < 0 then a.toInt.tmod b.toInt + |b.toInt|
      else a.toInt.tmod b.toInt := by
  have hn : b.toInt ≠ 0 := fun hzero => hb ((eq_zero_iff).mpr hzero)
  obtain ⟨hlow,hhigh⟩ := tmod_bounds a.toInt hn
  have habs := toInt_abs_le b
  have hmod := Int64.toInt_mod a b
  simp only [mod,zero_ok hb,bind,Except.bind,Bool.false_eq_true,if_false,neg_iff,hmod]
  split
  · rename_i hneg
    have hmag : ((magnitude b).toNat : Int) = |b.toInt| := by
      rw [magnitude_toNat,Int.natCast_natAbs]
    have hsum : ((a % b).toUInt64 + magnitude b).toInt64 = a % b + (magnitude b).toInt64 := rfl
    refine ⟨_,rfl,?_⟩
    have hcast : (magnitude b).toInt64.toInt = ((magnitude b).toNat : Int).bmod (2 ^ 64) :=
      BitVec.toInt_eq_toNat_bmod _
    rw [hsum,Int64.toInt_add,hcast,Int.add_bmod_bmod,hmag,hmod,
      bmod_once (by omega) (by omega),if_neg (by omega),if_neg (by omega)]
  · exact ⟨_,rfl,hmod⟩

theorem quot_ok (hb : b ≠ 0) (h : ¬(a = Int64.minValue ∧ b = -1)) : ∃ q,quot a b = .ok q ∧
    q.toInt = if a.toInt.tmod b.toInt < 0 then
      (if 0 < b.toInt then a.toInt.tdiv b.toInt - 1 else a.toInt.tdiv b.toInt + 1)
    else a.toInt.tdiv b.toInt := by
  have hn : b.toInt ≠ 0 := fun hzero => hb ((eq_zero_iff).mpr hzero)
  obtain ⟨hq,hqInt⟩ := @quotient_ok a b "DIV" h
  have hmod := Int64.toInt_mod a b
  have hpos : 0 < b ↔ 0 < b.toInt := Int64.lt_iff_toInt_lt
  simp only [quot,zero_ok hb,hq,bind,Except.bind,Bool.false_eq_true,if_false,neg_iff,hmod,hpos]
  split
  · rename_i hneg
    have hsmall : |(a / b).toInt| ≤ 2 ^ 62 := by
      have htwo : 2 ≤ |b.toInt| := by
        have h := tmod_bounds a.toInt hn
        omega
      have hhalf := quotient_half (toInt_abs_le a) htwo
      rw [hqInt,(tdiv_signs _ _).1]
      split
      · rw [abs_neg,abs_of_nonneg hhalf.1]
        exact hhalf.2
      · rw [abs_of_nonneg hhalf.1]
        exact hhalf.2
    split
    · exact ⟨_,rfl,(succ_toInt hsmall).2.trans (congrArg (· - 1) hqInt)⟩
    · exact ⟨_,rfl,(succ_toInt hsmall).1.trans (congrArg (· + 1) hqInt)⟩
  · exact ⟨_,rfl,hqInt⟩

theorem euclidean (m : Int) {n : Int} (hn : n ≠ 0) :
    (if m.tmod n < 0 then (if 0 < n then m.tdiv n - 1 else m.tdiv n + 1) else m.tdiv n) = m / n ∧
    (if m.tmod n < 0 then m.tmod n + |n| else m.tmod n) = m % n := by
  have hmul := Int.mul_tdiv_add_tmod m n
  obtain ⟨hlow,hhigh⟩ := tmod_bounds m hn
  have hunique : ∀ q r : Int,n * q + r = m → 0 ≤ r → r < |n| → q = m / n ∧ r = m % n := by
    intro q r hsum hr hlt
    obtain ⟨hq,hr⟩ := (Int.ediv_emod_unique'' hn).mpr ⟨(add_comm r _).trans hsum,hr,hlt⟩
    exact ⟨hq.symm,hr.symm⟩
  split
  · rename_i hneg
    split
    · rename_i hpos
      rw [abs_of_pos hpos] at hlow ⊢
      exact hunique _ _ (by linarith) (by omega) (by rw [abs_of_pos hpos]; omega)
    · rename_i hpos
      rw [abs_of_nonpos (Int.not_lt.mp hpos)] at hlow ⊢
      exact hunique _ _ (by linarith) (by omega) (by rw [abs_of_nonpos (Int.not_lt.mp hpos)]; omega)
  · exact hunique _ _ hmul (by omega) hhigh

theorem div_zero : div 0 0 = .ok 0 ∧ quot 0 0 = .ok 0 ∧ mod 0 0 = .ok 0 := ⟨rfl,rfl,rfl⟩

theorem div_by_zero (ha : a ≠ 0) : div a 0 = .error (.zeroDivide "/") ∧
    quot a 0 = .error (.zeroDivide "DIV") ∧ mod a 0 = .error (.zeroDivide "MOD") := by
  simp only [div,quot,mod,zero_raises ha,bind,Except.bind,and_self]

theorem div_min : div Int64.minValue (-1) = .error (.overflow "/") ∧
    quot Int64.minValue (-1) = .error (.overflow "DIV") := ⟨rfl,rfl⟩

def Divides (op : String) (a b : Int64) (overflows : Prop) (P : Int64 → Prop) (x : Except Raise Int64) : Prop :=
  (b = 0 → a = 0 → x = .ok 0) ∧
  (x = .error (.zeroDivide op) ↔ b = 0 ∧ a ≠ 0) ∧
  (x = .error (.overflow op) ↔ overflows) ∧
  (b ≠ 0 → ¬overflows → ∃ r,x = .ok r ∧ P r)

variable {P : Int64 → Prop} {x : Except Raise Int64}

theorem divides_of {overflows : Prop} (hnone : a = 0 → b = 0 → x = .ok 0)
    (hzero : a ≠ 0 → b = 0 → x = .error (.zeroDivide op)) (hover : overflows → x = .error (.overflow op))
    (hrest : b ≠ 0 → ¬overflows → ∃ r,x = .ok r ∧ P r) : Divides op a b overflows P x := by
  refine ⟨fun hb ha => hnone ha hb,⟨fun h => ?_,fun h => hzero h.2 h.1⟩,⟨fun h => ?_,hover⟩,hrest⟩
  · by_cases hb' : b = 0
    · refine ⟨hb',fun ha => ?_⟩
      rw [hnone ha hb'] at h
      cases h
    · by_cases ho : overflows
      · rw [hover ho] at h
        cases h
      · obtain ⟨r,hr,-⟩ := hrest hb' ho
        rw [hr] at h
        cases h
  · by_contra ho
    by_cases hb' : b = 0
    · by_cases ha : a = 0
      · rw [hnone ha hb'] at h
        cases h
      · rw [hzero ha hb'] at h
        cases h
    · obtain ⟨r,hr,-⟩ := hrest hb' ho
      rw [hr] at h
      cases h

def Lost (a b : Int64) : Prop := a = Int64.minValue ∧ b = -1

theorem div_divides (a b : Int64) : Divides "/" a b (Lost a b)
    (fun r => Rounding.HalfAway ((a.toInt : ℚ) / b.toInt) r.toInt) (div a b) := by
  apply divides_of
  · rintro rfl rfl
    exact (div_zero).1
  · rintro ha rfl
    exact (div_by_zero ha).1
  · rintro ⟨rfl,rfl⟩
    exact (div_min).1
  · exact div_nearest

theorem quot_divides (a b : Int64) : Divides "DIV" a b (Lost a b)
    (fun q => q.toInt = a.toInt / b.toInt) (quot a b) := by
  apply divides_of
  · rintro rfl rfl
    exact (div_zero).2.1
  · rintro ha rfl
    exact (div_by_zero ha).2.1
  · rintro ⟨rfl,rfl⟩
    exact (div_min).2
  · intro hb h
    obtain ⟨q,hq,hqInt⟩ := quot_ok hb h
    exact ⟨q,hq,hqInt.trans (euclidean _ fun hzero => hb (eq_zero_iff.mpr hzero)).1⟩

theorem mod_divides (a b : Int64) : Divides "MOD" a b False
    (fun r => r.toInt = a.toInt % b.toInt) (mod a b) := by
  apply divides_of
  · rintro rfl rfl
    exact (div_zero).2.2
  · rintro ha rfl
    exact (div_by_zero ha).2.2
  · exact False.elim
  · intro hb _
    obtain ⟨r,hr,hrInt⟩ := @mod_ok a b hb
    exact ⟨r,hr,hrInt.trans (euclidean _ fun hzero => hb (eq_zero_iff.mpr hzero)).2⟩

theorem quot_mod {q r : Int64} (hb : b ≠ 0) (hq : quot a b = .ok q) (hr : mod a b = .ok r) :
    a.toInt = b.toInt * q.toInt + r.toInt ∧ 0 ≤ r.toInt ∧ r.toInt < |b.toInt| := by
  have hn : b.toInt ≠ 0 := fun hzero => hb (eq_zero_iff.mpr hzero)
  have hnot : ¬Lost a b := by
    intro h
    rw [(quot_divides a b).2.2.1.mpr h] at hq
    cases hq
  obtain ⟨q',hq',hqInt⟩ := (quot_divides a b).2.2.2 hb hnot
  obtain ⟨r',hr',hrInt⟩ := (mod_divides a b).2.2.2 hb id
  obtain rfl : q = q' := Except.ok.inj (hq.symm.trans hq')
  obtain rfl : r = r' := Except.ok.inj (hr.symm.trans hr')
  rw [hqInt,hrInt]
  exact ⟨(Int.mul_ediv_add_emod _ _).symm,Int.emod_nonneg _ hn,Int.emod_lt_abs _ hn⟩

end quotients

end OpenSteamgate.Arith
