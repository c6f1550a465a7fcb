import Mathlib.Data.Nat.Bitwise
import Mathlib.Data.List.Basic
import Mathlib.Tactic.Ring
import Mathlib.Tactic.Linarith

namespace Bits

@[grind =] def lsb : Nat → Nat → List Bool
  | 0, _ => []
  | n + 1, x => x.testBit 0 :: lsb n (x / 2)

def msb : Nat → Nat → List Bool
  | 0, _ => []
  | n + 1, x => x.testBit n :: msb n x

@[grind =] def val : List Bool → Nat
  | [] => 0
  | b :: bs => b.toNat + 2 * val bs

def ofBytes (bytes : List UInt8) : List Bool := bytes.flatMap fun b => lsb 8 b.toNat

@[simp] theorem length_lsb (n x : Nat) : (lsb n x).length = n := by
  induction n generalizing x with
  | zero => rfl
  | succ n ih => simp [lsb,ih]

@[simp] theorem length_msb (n x : Nat) : (msb n x).length = n := by
  induction n with
  | zero => rfl
  | succ n ih => simp [msb,ih]

theorem toNat_testBit_zero (x : Nat) : (x.testBit 0).toNat = x % 2 := by
  rcases Nat.mod_two_eq_zero_or_one x with h | h <;> simp [Nat.testBit_zero,h]

theorem val_lt (bs : List Bool) : val bs < 2 ^ bs.length := by
  induction bs with
  | nil => simp [val]
  | cons b bs ih =>
    have := Bool.toNat_lt b
    simp only [val,List.length_cons,Nat.pow_succ]
    omega

theorem val_lsb (n x : Nat) : val (lsb n x) = x % 2 ^ n := by
  induction n generalizing x with
  | zero => simp [lsb,val,Nat.mod_one]
  | succ n ih =>
    rw [lsb,val,ih,toNat_testBit_zero,Nat.pow_succ',Nat.mod_mul]

theorem val_lsb_of_lt {n x : Nat} (h : x < 2 ^ n) : val (lsb n x) = x := by
  rw [val_lsb,Nat.mod_eq_of_lt h]

theorem lsb_val (bs : List Bool) : lsb bs.length (val bs) = bs := by
  induction bs with
  | nil => rfl
  | cons b bs ih =>
    have hd : (b.toNat + 2 * val bs) / 2 = val bs := by
      have := Bool.toNat_lt b
      omega
    have hb : (b.toNat + 2 * val bs).testBit 0 = b := by
      cases b <;> simp [Nat.testBit_zero]
    simp only [List.length_cons,lsb,val,hd,hb,ih]

theorem val_append (xs ys : List Bool) : val (xs ++ ys) = val xs + 2 ^ xs.length * val ys := by
  induction xs with
  | nil => simp [val]
  | cons b xs ih =>
    simp only [List.cons_append,val,ih,List.length_cons,Nat.pow_succ]
    ring

theorem lsb_add (m n x : Nat) : lsb (m + n) x = lsb m x ++ lsb n (x / 2 ^ m) := by
  induction m generalizing x with
  | zero => simp [lsb]
  | succ m ih =>
    rw [Nat.succ_add,lsb,lsb,ih,List.cons_append,Nat.div_div_eq_div_mul,Nat.pow_succ']

theorem lsb_drop {m n : Nat} (h : m ≤ n) (x : Nat) : (lsb n x).drop m = lsb (n - m) (x / 2 ^ m) := by
  obtain ⟨k,rfl⟩ := Nat.exists_eq_add_of_le h
  rw [lsb_add,List.drop_left' (length_lsb m x),Nat.add_sub_cancel_left]

theorem lsb_take {m n : Nat} (h : m ≤ n) (x : Nat) : (lsb n x).take m = lsb m x := by
  obtain ⟨k,rfl⟩ := Nat.exists_eq_add_of_le h
  rw [lsb_add,List.take_left' (length_lsb m x)]

theorem lsb_mod {m n : Nat} (h : m ≤ n) (x : Nat) : lsb m (x % 2 ^ n) = lsb m x := by
  induction m generalizing n x with
  | zero => rfl
  | succ m ih =>
    obtain ⟨n,rfl⟩ : ∃ k,n = k + 1 := ⟨n - 1,by omega⟩
    have hb : (x % 2 ^ (n + 1)).testBit 0 = x.testBit 0 := by
      rw [Nat.testBit_mod_two_pow]
      simp
    have hd : x % 2 ^ (n + 1) / 2 = x / 2 % 2 ^ n := by
      rw [Nat.pow_succ',Nat.mod_mul_right_div_self]
    rw [lsb,lsb,hb,hd,ih (by omega)]

theorem or_shiftLeft {x m : Nat} (h : x < 2 ^ m) (y : Nat) : x ||| y <<< m = x + 2 ^ m * y := by
  rw [Nat.or_comm,← Nat.shiftLeft_add_eq_or_of_lt h,Nat.shiftLeft_eq]
  ring

theorem or_shiftLeft_lt {x y m n : Nat} (hx : x < 2 ^ m) (hy : y < 2 ^ n) :
    x ||| y <<< m < 2 ^ (m + n) := by
  rw [or_shiftLeft hx,Nat.pow_add]
  nlinarith

theorem lsb_or_shiftLeft {x m : Nat} (h : x < 2 ^ m) (n y : Nat) :
    lsb (m + n) (x ||| y <<< m) = lsb m x ++ lsb n y := by
  rw [or_shiftLeft h,lsb_add]
  congr 1
  · rw [← lsb_mod (le_refl m) (x + 2 ^ m * y),Nat.add_mul_mod_self_left,lsb_mod (le_refl m)]
  · rw [Nat.add_mul_div_left _ _ (Nat.two_pow_pos m),Nat.div_eq_of_lt h,Nat.zero_add]

theorem div_two_pow_succ (x n : Nat) : x / 2 ^ n = 2 * (x / 2 ^ (n + 1)) + (x.testBit n).toNat := by
  rw [Nat.pow_succ,← Nat.div_div_eq_div_mul,Nat.testBit,Nat.shiftRight_eq_div_pow]
  have := Nat.div_add_mod (x / 2 ^ n) 2
  rcases Nat.mod_two_eq_zero_or_one (x / 2 ^ n) with h | h <;> simp [h] <;> omega

@[simp] theorem ofBytes_nil : ofBytes [] = [] := rfl

@[simp] theorem ofBytes_cons (b : UInt8) (bs : List UInt8) :
    ofBytes (b :: bs) = lsb 8 b.toNat ++ ofBytes bs := rfl

@[simp] theorem ofBytes_append (xs ys : List UInt8) :
    ofBytes (xs ++ ys) = ofBytes xs ++ ofBytes ys := List.flatMap_append

@[simp] theorem length_ofBytes (bytes : List UInt8) : (ofBytes bytes).length = 8 * bytes.length := by
  induction bytes with
  | nil => rfl
  | cons b bytes ih =>
    simp [ih]
    omega

theorem val_byte (b : UInt8) : UInt8.ofNat (val (lsb 8 b.toNat)) = b := by
  rw [val_lsb_of_lt (UInt8.toNat_lt b),UInt8.ofNat_toNat]

theorem ofBytes_injective : Function.Injective ofBytes := by
  intro xs ys h
  induction xs generalizing ys with
  | nil =>
    cases ys with
    | nil => rfl
    | cons y ys =>
      have hl := congrArg List.length h
      simp at hl
      omega
  | cons x xs ih =>
    cases ys with
    | nil =>
      have hl := congrArg List.length h
      simp at hl
    | cons y ys =>
      rw [ofBytes_cons,ofBytes_cons] at h
      obtain ⟨hb,hrest⟩ := List.append_inj h (by simp)
      rw [ih hrest,← val_byte x,hb,val_byte]

end Bits
