import Mathlib.Data.Nat.Prime.Basic
import OpenSteamgate.Arith.Checked

namespace OpenSteamgate.Arith

class Signed (T : Type) where
  width : Nat
  toInt : T → Int
  ofInt : Int → T
  toInt_ofInt (n : Int) : toInt (ofInt n) = n.bmod (2 ^ width)
  ofInt_toInt (a : T) : ofInt (toInt a) = a
  halves : Nat
  width_eq : width = 2 * halves + 2
  halves_le : halves ≤ 31

instance : Signed Int32 where
  width := 32
  toInt := Int32.toInt
  ofInt := Int32.ofInt
  toInt_ofInt := fun _ => Int32.toInt_ofInt
  ofInt_toInt := Int32.ofInt_toInt
  halves := 15
  width_eq := rfl
  halves_le := by decide

instance : Signed Int64 where
  width := 64
  toInt := Int64.toInt
  ofInt := Int64.ofInt
  toInt_ofInt := fun _ => Int64.toInt_ofInt
  ofInt_toInt := Int64.ofInt_toInt
  halves := 31
  width_eq := rfl
  halves_le := by decide

variable {T : Type} [Signed T]

open Signed

def multiply (a b : T) : Except Raise T :=
  let n := toInt a * toInt b
  let low := n.bmod (2 ^ 64)
  let v : T := ofInt low
  if ¬Fits n ∨ toInt v ≠ low then .error (.overflow "ipow") else .ok v

def power (result base : T) (exp : Nat) : Except Raise T :=
  if _h : 0 < exp then do
    let result ← if exp &&& 1 ≠ 0 then multiply result base else pure result
    if 0 < exp >>> 1 then
      let base ← multiply base base
      power result base (exp >>> 1)
    else
      power result base (exp >>> 1)
  else pure result
termination_by exp
decreasing_by all_goals (rw [Nat.shiftRight_one]; omega)

def Integer (float : T → Int32 → Except Raise T) (base : T) (exp : Int32) : Except Raise T :=
  if exp < 0 then float base exp else power (ofInt 1) base exp.toInt.toNat

def Held (T : Type) [Signed T] (n : Int) : Prop :=
  -2 ^ (2 * halves T + 1) ≤ n ∧ n < 2 ^ (2 * halves T + 1)

instance (n : Int) : Decidable (Held T n) := inferInstanceAs (Decidable (_ ∧ _))

def held (T : Type) [Signed T] (n : Int) : Except Raise T :=
  if Held T n then .ok (ofInt n) else .error (.overflow "ipow")

theorem power_width : (2 : Int) ^ width T = 2 * 2 ^ (2 * halves T + 1) := by
  rw [width_eq,pow_succ']

theorem power_le : (2 : Int) ^ (2 * halves T + 1) ≤ 2 ^ 63 := by
  have h := halves_le (T := T)
  exact pow_le_pow_right₀ (by norm_num) (by omega)

theorem bmod_held {n : Int} (h : Held T n) : n.bmod (2 ^ width T) = n := by
  have hw := power_width (T := T)
  obtain ⟨hlow,hhigh⟩ := h
  apply Int.bmod_eq_of_le_mul_two
  · push_cast
    omega
  · push_cast
    omega

theorem held_bmod (n : Int) : Held T (n.bmod (2 ^ width T)) := by
  have hw := power_width (T := T)
  have hpos : 0 < 2 ^ width T := Nat.two_pow_pos _
  have hlow := @Int.le_bmod n _ hpos
  have hhigh := @Int.bmod_lt n _ hpos
  push_cast at hlow hhigh
  constructor
  · omega
  · omega

theorem held_toInt (a : T) : Held T (toInt a) := by
  rw [← ofInt_toInt a,toInt_ofInt]
  exact held_bmod _

theorem Held.fits {n : Int} (h : Held T n) : Fits n := by
  have hle := power_le (T := T)
  obtain ⟨hlow,hhigh⟩ := h
  constructor
  · omega
  · omega

theorem toInt_held {n : Int} (h : Held T n) : toInt (ofInt n : T) = n := by
  rw [toInt_ofInt,bmod_held h]

theorem multiply_exact (a b : T) : multiply a b = held T (toInt a * toInt b) := by
  rw [multiply,held]
  generalize toInt a * toInt b = n
  by_cases hfits : Fits n
  · have hlow : n.bmod (2 ^ 64) = n := by
      rw [bmod_once (by unfold Fits at hfits; omega) (by unfold Fits at hfits; omega),
        if_neg (by unfold Fits at hfits; omega),if_neg (by unfold Fits at hfits; omega)]
    rw [hlow]
    by_cases hheld : Held T n
    · rw [if_neg,if_pos hheld]
      simp [hfits,toInt_held hheld]
    · rw [if_pos,if_neg hheld]
      refine .inr fun heq => hheld ?_
      rw [← heq]
      exact held_toInt _
  · rw [if_pos (.inl hfits),if_neg fun h => hfits h.fits]

theorem square_ne (m : Nat) : ∀ b : Nat,b * b ≠ 2 ^ (2 * m + 1) := by
  induction m with
  | zero =>
    intro b h
    have htwo : b * b = 2 := h
    have hb : b < 2 := by nlinarith
    obtain rfl | rfl : b = 0 ∨ b = 1 := by omega
    · exact absurd htwo (by decide)
    · exact absurd htwo (by decide)
  | succ m ih =>
    intro b h
    have heven : 2 ∣ b * b := by
      rw [h]
      exact dvd_pow_self 2 (by omega)
    obtain ⟨c,rfl⟩ := (Nat.prime_two.dvd_mul.mp heven).elim id id
    apply ih c
    have hpow : 2 ^ (2 * (m + 1) + 1) = 4 * 2 ^ (2 * m + 1) := by ring
    nlinarith

theorem square_ne_limit (b : Int) : b * b ≠ 2 ^ (2 * halves T + 1) := by
  intro h
  apply square_ne (halves T) b.natAbs
  have hnat := congrArg Int.natAbs h
  rwa [Int.natAbs_mul,Int.natAbs_pow] at hnat

theorem not_held_mul {x y : Int} (h : ¬Held T x) (hy : 0 < y) : ¬Held T (x * y) := by
  have hpow : (0 : Int) < 2 ^ (2 * halves T + 1) := by positivity
  unfold Held at h ⊢
  rcases Int.lt_or_le x 0 with hx | hx
  · have hle : x * y ≤ x := by nlinarith
    omega
  · have hle : x ≤ x * y := by nlinarith
    omega

theorem not_held_square {b y : Int} (h : ¬Held T (b * b)) (hy : y ≠ 0) : ¬Held T (b * b * y) := by
  have hpow : (0 : Int) < 2 ^ (2 * halves T + 1) := by positivity
  have hne := square_ne_limit (T := T) b
  have hnonneg := mul_self_nonneg b
  unfold Held at h ⊢
  rcases Int.lt_or_lt_of_ne hy with hy | hy
  · have hle : b * b * y ≤ -(b * b) := by nlinarith
    omega
  · have hle : b * b ≤ b * b * y := by nlinarith
    omega

theorem held_ok {n : Int} (h : Held T n) : held T n = .ok (ofInt n) := if_pos h

theorem held_error {n : Int} (h : ¬Held T n) : held T n = .error (.overflow "ipow") := if_neg h

theorem held_zero : Held T 0 := by
  have hpow : (0 : Int) < 2 ^ (2 * halves T + 1) := by positivity
  constructor
  · omega
  · omega

def Exact (T : Type) [Signed T] (e : Nat) : Prop :=
  ∀ r b : T,toInt r ≠ 0 ∨ toInt b = 0 → power r b e = held T (toInt r * toInt b ^ e)

theorem power_zero (r b : T) : power r b 0 = held T (toInt r) := by
  rw [power,held_ok (held_toInt r),ofInt_toInt]
  rfl

theorem square_step {e : Nat} {r b : T} (ih : 0 < e → Exact T e)
    (hinv : toInt r ≠ 0 ∨ toInt b = 0) :
    (if 0 < e then multiply b b >>= fun base => power r base e else power r b e) =
      held T (toInt r * (toInt b * toInt b) ^ e) := by
  split
  · rename_i hpos
    rw [multiply_exact]
    by_cases hsquare : Held T (toInt b * toInt b)
    · rw [held_ok hsquare]
      refine (ih hpos r _ ?_).trans ?_
      · rw [toInt_held hsquare]
        exact hinv.imp_right fun h => by rw [h,mul_zero]
      · rw [toInt_held hsquare]
    · have hb : toInt b ≠ 0 := by
        intro hzero
        rw [hzero] at hsquare
        exact hsquare held_zero
      have hr := hinv.resolve_right hb
      obtain ⟨k,rfl⟩ := Nat.exists_eq_succ_of_ne_zero hpos.ne'
      have hfactor : toInt r * (toInt b * toInt b) ^ (k + 1) =
          toInt b * toInt b * (toInt r * (toInt b * toInt b) ^ k) := by ring
      rw [held_error hsquare,Nat.succ_eq_add_one,hfactor,held_error]
      · rfl
      · apply not_held_square hsquare
        exact mul_ne_zero hr (pow_ne_zero k (mul_ne_zero hb hb))
  · rename_i hzero
    obtain rfl : e = 0 := by omega
    rw [power_zero,pow_zero,mul_one]

theorem power_exact (e : Nat) : Exact T e := by
  induction e using Nat.strong_induction_on with
  | h e ih =>
    intro r b hinv
    by_cases hpos : 0 < e
    · have hhalf : 0 < e / 2 → Exact T (e / 2) := fun _ => ih (e / 2) (by omega)
      rw [power,dif_pos hpos,Nat.shiftRight_one,Nat.and_one_is_mod]
      rcases Nat.mod_two_eq_zero_or_one e with heven | hodd
      · have hpow : toInt b ^ e = (toInt b * toInt b) ^ (e / 2) := by
          rw [← sq,← pow_mul]
          congr 1
          omega
        rw [heven,hpow]
        exact square_step hhalf hinv
      · have hpow : toInt r * toInt b ^ e =
            toInt r * toInt b * (toInt b * toInt b) ^ (e / 2) := by
          have hsplit : e = 2 * (e / 2) + 1 := by omega
          conv_lhs => rw [hsplit]
          rw [pow_succ,pow_mul,sq]
          ring
        rw [hodd,hpow,if_pos (by decide),multiply_exact]
        by_cases hheld : Held T (toInt r * toInt b)
        · rw [held_ok hheld]
          refine (square_step hhalf ?_).trans ?_
          · rw [toInt_held hheld]
            by_cases hb : toInt b = 0
            · exact .inr hb
            · exact .inl (mul_ne_zero (hinv.resolve_right hb) hb)
          · rw [toInt_held hheld]
        · have hb : toInt b ≠ 0 := by
            intro hzero
            rw [hzero,mul_zero] at hheld
            exact hheld held_zero
          rw [held_error hheld,held_error]
          · rfl
          · exact not_held_mul hheld (pow_pos (mul_self_pos.mpr hb) _)
    · obtain rfl : e = 0 := by omega
      rw [power_zero,pow_zero,mul_one]

theorem held_one : Held T 1 := by
  have hpow : (2 : Int) ^ 1 ≤ 2 ^ (2 * halves T + 1) := pow_le_pow_right₀ (by norm_num) (by omega)
  constructor
  · omega
  · omega

theorem Integer_exact (float : T → Int32 → Except Raise T) (base : T) {exp : Int32} (h : 0 ≤ exp.toInt) :
    Integer float base exp = held T (toInt base ^ exp.toInt.toNat) := by
  rw [Integer,if_neg,power_exact]
  · rw [toInt_held held_one,one_mul]
  · rw [toInt_held held_one]
    exact .inl one_ne_zero
  · rw [Int32.lt_iff_toInt_lt]
    exact Int.not_lt.mpr h

theorem int8_exact : (∀ a b,add a b = checked "+" (a.toInt + b.toInt)) ∧
    (∀ a b,sub a b = checked "-" (a.toInt - b.toInt)) ∧
    (∀ a b,mul a b = checked "*" (a.toInt * b.toInt)) ∧
    (∀ a b,Divides "/" a b (Lost a b)
      (fun r => Rounding.HalfAway ((a.toInt : ℚ) / b.toInt) r.toInt) (div a b)) ∧
    (∀ a b,Divides "DIV" a b (Lost a b) (fun q => q.toInt = a.toInt / b.toInt) (quot a b)) ∧
    (∀ a b,Divides "MOD" a b False (fun r => r.toInt = a.toInt % b.toInt) (mod a b)) ∧
    (∀ {a b q r},b ≠ 0 → quot a b = .ok q → mod a b = .ok r →
      a.toInt = b.toInt * q.toInt + r.toInt ∧ 0 ≤ r.toInt ∧ r.toInt < |b.toInt|) ∧
    (∀ float (base : Int32) (exp : Int32),0 ≤ exp.toInt →
      Integer float base exp = held Int32 (base.toInt ^ exp.toInt.toNat)) ∧
    ∀ float (base : Int64) (exp : Int32),0 ≤ exp.toInt →
      Integer float base exp = held Int64 (base.toInt ^ exp.toInt.toNat) :=
  ⟨add_exact,sub_exact,mul_exact,div_divides,quot_divides,mod_divides,quot_mod,
    fun float base _ => Integer_exact float base,fun float base _ => Integer_exact float base⟩

theorem int8_exact_cube : Integer (fun _ _ => .ok 0) (-3) 3 = .ok (-27 : Int32) :=
  int8_exact.2.2.2.2.2.2.2.1 _ (-3) 3 (by decide)

end OpenSteamgate.Arith
