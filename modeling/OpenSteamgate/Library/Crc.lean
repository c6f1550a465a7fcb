import Mathlib.Data.List.Basic

namespace Crc

variable {w : Nat} (poly : BitVec w)

def step (c : BitVec w) : BitVec w := if c.getLsbD 0 then (c >>> 1) ^^^ poly else c >>> 1

@[grind =] def steps : Nat → BitVec w → BitVec w
  | 0, c => c
  | n + 1, c => steps n (step poly c)

def serial {n : Nat} (c : BitVec w) (words : List (BitVec n)) : BitVec w :=
  words.foldl (fun c word => steps poly n (c ^^^ word.setWidth w)) c

theorem step_xor (a b : BitVec w) : step poly (a ^^^ b) = step poly a ^^^ step poly b := by
  simp only [step,BitVec.getLsbD_xor,BitVec.ushiftRight_xor_distrib]
  cases a.getLsbD 0 <;> cases b.getLsbD 0
  · rfl
  · exact BitVec.xor_assoc _ _ _
  · change a >>> 1 ^^^ b >>> 1 ^^^ poly = a >>> 1 ^^^ poly ^^^ b >>> 1
    rw [BitVec.xor_assoc,BitVec.xor_comm (b >>> 1),← BitVec.xor_assoc]
  · change a >>> 1 ^^^ b >>> 1 = a >>> 1 ^^^ poly ^^^ (b >>> 1 ^^^ poly)
    rw [BitVec.xor_comm (b >>> 1),BitVec.xor_assoc,← BitVec.xor_assoc poly,BitVec.xor_self,BitVec.zero_xor]

theorem steps_xor (n : Nat) (a b : BitVec w) :
    steps poly n (a ^^^ b) = steps poly n a ^^^ steps poly n b := by
  induction n generalizing a b with
  | zero => rfl
  | succ n ih => rw [steps,step_xor,ih,steps,steps]

theorem steps_shift {n : Nat} {c : BitVec w} (h : ∀ i < n,c.getLsbD i = false) :
    steps poly n c = c >>> n := by
  induction n generalizing c with
  | zero => rw [steps,BitVec.ushiftRight_zero]
  | succ n ih =>
    have hstep : step poly c = c >>> 1 := by
      rw [step,h 0 (Nat.zero_lt_succ n)]
      rfl
    rw [steps,hstep,ih fun i hi => ?_,← BitVec.shiftRight_add,Nat.add_comm]
    rw [BitVec.getLsbD_ushiftRight]
    exact h (1 + i) (by omega)

theorem getLsbD_low (n : Nat) (c : BitVec w) (i : Nat) :
    ((c.setWidth n).setWidth w).getLsbD i = (decide (i < n) && c.getLsbD i) := by
  rw [BitVec.getLsbD_setWidth,BitVec.getLsbD_setWidth]
  by_cases hi : i < w
  · simp [hi]
  · simp [BitVec.getLsbD_of_ge c i (Nat.le_of_not_lt hi)]

theorem steps_word {n : Nat} (c : BitVec w) (word : BitVec n) :
    steps poly n (c ^^^ word.setWidth w) =
      (c >>> n) ^^^ steps poly n ((c.setWidth n ^^^ word).setWidth w) := by
  have hsplit : c ^^^ word.setWidth w =
      (c ^^^ (c.setWidth n).setWidth w) ^^^ (c.setWidth n ^^^ word).setWidth w := by
    rw [BitVec.setWidth_xor,BitVec.xor_assoc,← BitVec.xor_assoc ((c.setWidth n).setWidth w),
      BitVec.xor_self,BitVec.zero_xor]
  have hclear : ∀ i < n,(c ^^^ (c.setWidth n).setWidth w).getLsbD i = false := fun i hi => by
    rw [BitVec.getLsbD_xor,getLsbD_low,decide_eq_true hi,Bool.true_and,Bool.xor_self]
  have hshift : (c ^^^ (c.setWidth n).setWidth w) >>> n = c >>> n := by
    refine BitVec.eq_of_getLsbD_eq fun i _ => ?_
    rw [BitVec.getLsbD_ushiftRight,BitVec.getLsbD_ushiftRight,BitVec.getLsbD_xor,getLsbD_low,
      decide_eq_false (by omega),Bool.false_and,Bool.xor_false]
  rw [hsplit,steps_xor,steps_shift poly hclear,hshift]

def bits {n : Nat} (word : BitVec n) : List Bool := (List.range n).map word.getLsbD

def bitwise (c : BitVec w) (bs : List Bool) : BitVec w :=
  bs.foldl (fun c b => step poly (c ^^^ (BitVec.ofBool b).setWidth w)) c

theorem bits_cons {n : Nat} (word : BitVec (n + 1)) :
    bits word = word.getLsbD 0 :: bits ((word >>> 1).setWidth n) := by
  rw [bits,List.range_succ_eq_map,List.map_cons,List.map_map]
  refine congrArg (_ :: ·) (List.map_congr_left fun i hi => ?_)
  have hi := List.mem_range.mp hi
  rw [Function.comp_apply,BitVec.getLsbD_setWidth,BitVec.getLsbD_ushiftRight,decide_eq_true hi,
    Bool.true_and,Nat.add_comm 1 i]

theorem step_clear {c : BitVec w} (h : c.getLsbD 0 = false) : step poly c = c >>> 1 := by
  rw [step,h]
  rfl

theorem steps_bits {n : Nat} (hn : n ≤ w) (c : BitVec w) (word : BitVec n) :
    steps poly n (c ^^^ word.setWidth w) = bitwise poly c (bits word) := by
  induction n generalizing c with
  | zero =>
    have hzero : word.setWidth w = 0#w := by
      refine BitVec.eq_of_getLsbD_eq fun i _ => ?_
      simp
    rw [steps,hzero,BitVec.xor_zero]
    rfl
  | succ n ih =>
    let first := (BitVec.ofBool (word.getLsbD 0)).setWidth w
    let others := word.setWidth w ^^^ first
    have hclear : others.getLsbD 0 = false := by
      simp [others,first]
    have hshift : others >>> 1 = ((word >>> 1).setWidth n).setWidth w := by
      refine BitVec.eq_of_getLsbD_eq fun i hi => ?_
      simp only [others,first,BitVec.getLsbD_ushiftRight,BitVec.getLsbD_xor,BitVec.getLsbD_setWidth,
        BitVec.getLsbD_ofBool]
      by_cases hin : i < n
      · simp [hin,hi,show 1 + i < w by omega]
      · simp [BitVec.getLsbD_of_ge word (1 + i) (by omega)]
    have hsplit : c ^^^ word.setWidth w = (c ^^^ first) ^^^ others := by
      rw [BitVec.xor_assoc,BitVec.xor_comm first,BitVec.xor_assoc,BitVec.xor_self,BitVec.xor_zero]
    calc steps poly (n + 1) (c ^^^ word.setWidth w)
        = steps poly n (step poly (c ^^^ first) ^^^ ((word >>> 1).setWidth n).setWidth w) := by
          rw [steps,hsplit,step_xor,step_clear poly hclear,hshift]
      _ = bitwise poly (step poly (c ^^^ first)) (bits ((word >>> 1).setWidth n)) := ih (by omega) _ _
      _ = bitwise poly c (bits word) := by
          rw [bits_cons]
          rfl

theorem serial_bits {n : Nat} (hn : n ≤ w) (c : BitVec w) (words : List (BitVec n)) :
    serial poly c words = bitwise poly c (words.flatMap bits) := by
  induction words generalizing c with
  | nil => rfl
  | cons word words ih =>
    rw [List.flatMap_cons,bitwise,List.foldl_append,serial,List.foldl_cons,steps_bits poly hn]
    exact ih _

end Crc
