import Mathlib.Data.Int.Log
import Mathlib.Data.Rat.Floor
import Mathlib.Algebra.Order.Field.Rat
import Mathlib.Tactic.Linarith
import Mathlib.Tactic.Ring
import Mathlib.Tactic.FieldSimp
import Mathlib.Tactic.Positivity
import OpenSteamgate.Library.Decimal

namespace Binary64

def halfEven (q : ℚ) : ℤ :=
  if q - ⌊q⌋ < 1 / 2 then ⌊q⌋
  else if 1 / 2 < q - ⌊q⌋ then ⌊q⌋ + 1
  else if ⌊q⌋ % 2 = 0 then ⌊q⌋ else ⌊q⌋ + 1

def exponent (q : ℚ) : ℤ := Int.log 2 |q| - 52

def round (q : ℚ) : ℚ := if q = 0 then 0 else halfEven (q / 2 ^ exponent q) * 2 ^ exponent q

theorem halfEven_close (q : ℚ) : |(halfEven q : ℚ) - q| ≤ 1 / 2 := by
  have hlow := Int.floor_le q
  have hhigh := Int.lt_floor_add_one q
  rw [abs_le]
  unfold halfEven
  split
  · constructor <;> linarith
  · split
    · push_cast
      constructor <;> linarith
    · split
      · constructor <;> linarith
      · push_cast
        constructor <;> linarith

theorem halfEven_int (n : ℤ) : halfEven n = n := by
  unfold halfEven
  rw [Int.floor_intCast,sub_self,if_pos (by norm_num)]

theorem round_close (q : ℚ) (hq : q ≠ 0) : |round q - q| ≤ |q| / 2 ^ 53 := by
  have hpos : (0 : ℚ) < 2 ^ exponent q := zpow_pos (by norm_num) _
  have hclose := halfEven_close (q / 2 ^ exponent q)
  have hplace : (2 : ℚ) ^ exponent q ≤ |q| / 2 ^ 52 := by
    have hlog := Int.zpow_log_le_self (b := 2) (r := |q|) (by decide) (abs_pos.mpr hq)
    unfold exponent
    rw [zpow_sub₀ (by norm_num)]
    have hcast : ((2 : ℕ) : ℚ) = 2 := rfl
    rw [hcast] at hlog
    exact div_le_div_of_nonneg_right hlog (by norm_num)
  have hround : round q - q = (halfEven (q / 2 ^ exponent q) - q / 2 ^ exponent q) * 2 ^ exponent q := by
    rw [round,if_neg hq,sub_mul,div_mul_cancel₀ _ hpos.ne']
  rw [hround,abs_mul,abs_of_pos hpos]
  calc |(halfEven (q / 2 ^ exponent q) : ℚ) - q / 2 ^ exponent q| * 2 ^ exponent q
      ≤ 1 / 2 * (|q| / 2 ^ 52) := mul_le_mul hclose hplace hpos.le (by norm_num)
    _ = |q| / 2 ^ 53 := by ring

theorem round_int (n : ℤ) (h : |n| < 2 ^ 53) : round n = n := by
  by_cases hn : n = 0
  · rw [hn]
    rfl
  have hne : (n : ℚ) ≠ 0 := by exact_mod_cast hn
  have hexponent : exponent n ≤ 0 := by
    have hlt : |(n : ℚ)| < 2 ^ 53 := by exact_mod_cast h
    have hlog := Int.zpow_log_le_self (b := 2) (r := |(n : ℚ)|) (by decide) (abs_pos.mpr hne)
    have hpow : ((2 : ℕ) : ℚ) ^ Int.log 2 |(n : ℚ)| < (2 : ℚ) ^ (53 : ℤ) := lt_of_le_of_lt hlog hlt
    have := (zpow_lt_zpow_iff_right₀ (by norm_num)).mp hpow
    unfold exponent
    omega
  obtain ⟨k,hk⟩ := Int.eq_ofNat_of_zero_le (Int.neg_nonneg_of_nonpos hexponent)
  have hscale : (n : ℚ) / 2 ^ exponent n = ((n * 2 ^ k : ℤ) : ℚ) := by
    have hneg : exponent n = -(k : ℤ) := by omega
    rw [hneg,zpow_neg,zpow_natCast,div_inv_eq_mul]
    push_cast
    rfl
  have hpos : (0 : ℚ) < 2 ^ exponent (n : ℚ) := zpow_pos (by norm_num) _
  rw [round,if_neg hne,hscale,halfEven_int,← hscale,div_mul_cancel₀ _ hpos.ne']

theorem floor_round_div {a b : ℤ} (ha : |a| < 2 ^ 53) (hb : 0 < b) : ⌊round ((a : ℚ) / b)⌋ = a / b := by
  have hb' : (0 : ℚ) < b := by exact_mod_cast hb
  by_cases hdvd : b ∣ a
  · obtain ⟨c,rfl⟩ := hdvd
    have hc : |c| < 2 ^ 53 := by
      rw [abs_mul,abs_of_pos hb] at ha
      have := le_mul_of_one_le_left (abs_nonneg c) (show 1 ≤ b from hb)
      omega
    have hquotient : ((b * c : ℤ) : ℚ) / b = (c : ℤ) := by
      push_cast
      field_simp
    rw [hquotient,round_int c hc,Int.floor_intCast,Int.mul_ediv_cancel_left c hb.ne']
  · have hne : (a : ℚ) / b ≠ 0 := by
      refine div_ne_zero ?_ hb'.ne'
      intro hzero
      have : a = 0 := by exact_mod_cast hzero
      exact hdvd (this ▸ dvd_zero b)
    have hclose := round_close _ hne
    have hsmall : |(a : ℚ) / b| / 2 ^ 53 < 1 / b := by
      rw [abs_div,abs_of_pos hb',div_div,div_lt_div_iff₀ (by positivity) hb',one_mul]
      have : |(a : ℚ)| < 2 ^ 53 := by exact_mod_cast ha
      rw [mul_comm]
      exact mul_lt_mul_of_pos_left this hb'
    have hmod := Int.emod_add_mul_ediv a b
    have hmod' : 1 ≤ a % b := by
      have := Int.emod_nonneg a hb.ne'
      have : a % b ≠ 0 := fun h => hdvd (Int.dvd_of_emod_eq_zero h)
      omega
    have hmod'' := Int.emod_lt_of_pos a hb
    have hquotient : (a : ℚ) / b = (a / b : ℤ) + (a % b : ℤ) / b := by
      field_simp
      have : (a : ℚ) = ((a % b + b * (a / b) : ℤ) : ℚ) := by rw [hmod]
      rw [this]
      push_cast
      ring
    have hlow : (1 : ℚ) / b ≤ (a % b : ℤ) / b := by
      have : (1 : ℚ) ≤ (a % b : ℤ) := by exact_mod_cast hmod'
      gcongr
    have hhigh : ((a % b : ℤ) : ℚ) / b ≤ 1 - 1 / b := by
      have : ((a % b : ℤ) : ℚ) ≤ b - 1 := by exact_mod_cast (by omega : a % b ≤ b - 1)
      rw [div_le_iff₀ hb']
      field_simp
      linarith
    rw [abs_le] at hclose
    rw [Int.floor_eq_iff]
    constructor <;> linarith [hclose.1,hclose.2]

section Bits

def biased (b : BitVec 64) : ℕ := b.toNat / 2 ^ 52 % 2 ^ 11

def fraction (b : BitVec 64) : ℕ := b.toNat % 2 ^ 52

def magnitude (b : BitVec 64) : ℚ :=
  if biased b = 0 then fraction b * 2 ^ (-1074 : ℤ)
  else (2 ^ 52 + fraction b) * 2 ^ ((biased b : ℤ) - 1075)

-- the exponent of a subnormal stays at its least value
def nearest (q : ℚ) : ℚ := halfEven (q / 2 ^ max (exponent q) (-1074)) * 2 ^ max (exponent q) (-1074)

-- of the two numerals of p digits around q, the closer one that reads back as q
def decimalAt (q : ℚ) (p : ℕ) : Option (ℕ × ℤ) :=
  let e := Int.log 10 q + 1 - p
  let below := ⌊q / 10 ^ e⌋.toNat
  let near := (halfEven (q / 10 ^ e)).toNat
  ([near,2 * below + 1 - near].find? fun n : ℕ => nearest (n * 10 ^ e) = q).map (·,e)

-- seventeen digits are enough for every binary64
def shortest (q : ℚ) : ℕ × ℤ :=
  ((List.range 17).findSome? fun p => decimalAt q (p + 1)).getD (0,0)

def plain (q : ℚ) : List Char :=
  let (n,e) := shortest q
  if 0 ≤ e then Nat.toDigits 10 (n * 10 ^ e.toNat)
  else Nat.toDigits 10 (n / 10 ^ (-e).toNat) ++
    '.' :: Decimal.fixed (-e).toNat (n % 10 ^ (-e).toNat)

def format (b : BitVec 64) : List Char :=
  if biased b = 2 ^ 11 - 1 then
    if fraction b ≠ 0 then "NaN".toList else if b.msb then "-Inf".toList else "+Inf".toList
  else if b.msb then '-' :: plain (magnitude b) else plain (magnitude b)

def integer (b : BitVec 64) : Option ℤ :=
  if biased b = 2 ^ 11 - 1 ∨ (magnitude b).den ≠ 1 then none
  else some (if b.msb then -(magnitude b).num else (magnitude b).num)

theorem mem_plain {q : ℚ} {c : Char} (h : c ∈ plain q) : c.isDigit = true ∨ c = '.' := by
  unfold plain at h
  simp only at h
  split at h
  · exact .inl (Decimal.digits_decimal _ c h)
  · rcases List.mem_append.mp h with h | h
    · exact .inl (Decimal.digits_decimal _ c h)
    · rcases List.mem_cons.mp h with h | h
      · exact .inr h
      · exact .inl (Decimal.digits_fixed _ _ c h)

theorem mem_format {b : BitVec 64} {c : Char} (h : c ∈ format b) :
    c.isDigit = true ∨ c ∈ ".-+InfNa".toList := by
  have hplain (h : c ∈ plain (magnitude b)) : c.isDigit = true ∨ c ∈ ".-+InfNa".toList := by
    refine (mem_plain h).imp_right fun hdot => ?_
    rw [hdot]
    decide
  have hword : ∀ s ∈ ["NaN".toList,"-Inf".toList,"+Inf".toList],∀ c ∈ s,c ∈ ".-+InfNa".toList := by
    simp
  unfold format at h
  split at h
  · refine .inr (hword _ ?_ c h)
    split
    · decide
    · split <;> decide
  · split at h
    · rcases List.mem_cons.mp h with h | h
      · rw [h]
        exact .inr (by decide)
      · exact hplain h
    · exact hplain h

end Bits

end Binary64
