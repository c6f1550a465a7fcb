import Mathlib.Data.List.Basic
import Mathlib.Tactic.Ring
import Mathlib.Tactic.Linarith

def number (bytes : List UInt8) : Nat := bytes.foldr (fun byte rest => byte.toNat + 256 * rest) 0

def word (data : List UInt8) (off len : Nat) : Nat := number ((data.drop off).take len)

@[grind =] def littleEndian : Nat → Nat → List UInt8
  | 0, _ => []
  | len + 1, n => UInt8.ofNat (n % 256) :: littleEndian len (n / 256)

namespace LittleEndian

variable {data : List UInt8} {off : Nat}

@[simp] theorem length_littleEndian (len n : Nat) : (littleEndian len n).length = len := by
  induction len generalizing n with
  | zero => rfl
  | succ len ih => rw [littleEndian,List.length_cons,ih]

theorem number_littleEndian {len n : Nat} (h : n < 256 ^ len) : number (littleEndian len n) = n := by
  induction len generalizing n with
  | zero =>
    rw [Nat.pow_zero] at h
    exact (Nat.lt_one_iff.mp h).symm
  | succ len ih =>
    have hrest : n / 256 < 256 ^ len := by
      rw [Nat.pow_succ] at h
      exact Nat.div_lt_of_lt_mul (by omega)
    have hcons : number (littleEndian (len + 1) n) =
        (UInt8.ofNat (n % 256)).toNat + 256 * number (littleEndian len (n / 256)) := rfl
    have hbyte : (UInt8.ofNat (n % 256)).toNat = n % 256 := by
      rw [UInt8.toNat_ofNat']
      exact Nat.mod_mod n 256
    rw [hcons,ih hrest,hbyte]
    omega

theorem littleEndian_number (bytes : List UInt8) :
    littleEndian bytes.length (number bytes) = bytes := by
  induction bytes with
  | nil => rfl
  | cons byte bytes ih =>
    have hcons : number (byte :: bytes) = byte.toNat + 256 * number bytes := rfl
    have hlt := byte.toNat_lt
    have hmod : number (byte :: bytes) % 256 = byte.toNat := by omega
    have hdiv : number (byte :: bytes) / 256 = number bytes := by omega
    rw [List.length_cons,littleEndian,hmod,hdiv,ih,UInt8.ofNat_toNat]

theorem number_lt (bytes : List UInt8) : number bytes < 256 ^ bytes.length := by
  induction bytes with
  | nil => exact Nat.zero_lt_one
  | cons byte bytes ih =>
    have hcons : number (byte :: bytes) = byte.toNat + 256 * number bytes := rfl
    have hbyte := byte.toNat_lt
    rw [hcons,List.length_cons,Nat.pow_succ]
    omega

theorem word_lt (data : List UInt8) (off len : Nat) : word data off len < 256 ^ len :=
  Nat.lt_of_lt_of_le (number_lt _) (Nat.pow_le_pow_right (by decide) (List.length_take_le _ _))

theorem word_zero : word data off 0 = 0 := by
  rw [word,List.take_zero]
  rfl

theorem word_succ {k : Nat} (h : off < data.length) :
    word data off (k + 1) = (data.getD off 0).toNat + 256 * word data (off + 1) k := by
  have hdrop : data.drop off = data.getD off 0 :: data.drop (off + 1) := by
    rw [List.drop_eq_getElem_cons h,List.getD_eq_getElem?_getD,List.getElem?_eq_getElem h]
    rfl
  rw [word,word,hdrop,List.take_succ_cons]
  rfl

theorem word_slice (data : List UInt8) (start : Nat) {len off n : Nat} (h : off + n ≤ len) :
    word ((data.drop start).take len) off n = word data (start + off) n := by
  rw [word,word,List.drop_take,List.take_take,List.drop_drop,Nat.min_eq_left (by omega)]

theorem word_append (xs ys : List UInt8) (off n : Nat) :
    word (xs ++ ys) (xs.length + off) n = word ys off n := by
  rw [word,word,← List.drop_drop,List.drop_left]

section fields

variable (fields : List (List UInt8)) (before after : List UInt8) (k : Nat)

def fieldOffset : Nat := (fields.take k).flatten.length

theorem flatten_split {field : List UInt8} (h : fields[k]? = some field) :
    fields.flatten = (fields.take k).flatten ++ field ++ (fields.drop (k + 1)).flatten := by
  obtain ⟨hk,rfl⟩ := List.getElem?_eq_some_iff.mp h
  have hsplit : fields = fields.take k ++ fields[k] :: fields.drop (k + 1) := by
    rw [← List.drop_eq_getElem_cons hk,List.take_append_drop]
  have hflat := congrArg List.flatten hsplit
  rw [List.flatten_append,List.flatten_cons,← List.append_assoc] at hflat
  exact hflat

theorem drop_field {field : List UInt8} (h : fields[k]? = some field) :
    ((before ++ fields.flatten ++ after).drop (before.length + fieldOffset fields k)).take
      field.length = field := by
  rw [flatten_split fields k h,fieldOffset,← List.drop_drop,List.append_assoc,List.drop_left,
    List.append_assoc,List.append_assoc,List.drop_left]
  exact List.take_left

theorem word_field {len n : Nat} (hn : n < 256 ^ len) (h : fields[k]? = some (littleEndian len n)) :
    word (before ++ fields.flatten ++ after) (before.length + fieldOffset fields k) len = n := by
  have hdrop := drop_field fields before after k h
  rw [length_littleEndian] at hdrop
  rw [word,hdrop,number_littleEndian hn]

end fields

end LittleEndian

def numberBE (bytes : List UInt8) : Nat := number bytes.reverse

def bigEndian (len n : Nat) : List UInt8 := (littleEndian len n).reverse

namespace BigEndian

@[simp] theorem length_bigEndian (len n : Nat) : (bigEndian len n).length = len := by
  rw [bigEndian,List.length_reverse,LittleEndian.length_littleEndian]

theorem numberBE_bigEndian {len n : Nat} (h : n < 256 ^ len) : numberBE (bigEndian len n) = n := by
  rw [numberBE,bigEndian,List.reverse_reverse,LittleEndian.number_littleEndian h]

theorem bigEndian_numberBE {len : Nat} {bytes : List UInt8} (h : bytes.length = len) :
    bigEndian len (numberBE bytes) = bytes := by
  rw [bigEndian,numberBE,← h,← List.length_reverse,LittleEndian.littleEndian_number,List.reverse_reverse]

theorem numberBE_lt (bytes : List UInt8) : numberBE bytes < 256 ^ bytes.length := by
  rw [← List.length_reverse]
  exact LittleEndian.number_lt bytes.reverse

end BigEndian
