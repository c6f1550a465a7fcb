import Mathlib.Data.List.Forall2
import Mathlib.Data.Nat.Find
import Mathlib.Tactic.Linarith
import Mathlib.Tactic.Ring
import OpenSteamgate.Library.Wtf8

namespace Utf8

open Wtf8

structure Partial where
  value : Nat
  wanted : Nat
  lower : Nat := 0x80
  upper : Nat := 0xbf

def replacement : Char := Char.ofNat 0xfffd

inductive First
  | char (c : Char)
  | sequence (p : Partial)

def first (b : Nat) : First :=
  if b < 0x80 then .char (Char.ofNat b)
  else if b < 0xc2 then .char replacement
  else if b < 0xe0 then .sequence {value := b - 0xc0,wanted := 1}
  else if b = 0xe0 then .sequence {value := 0,wanted := 2,lower := 0xa0}
  else if b = 0xed then .sequence {value := 13,wanted := 2,upper := 0x9f}
  else if b < 0xf0 then .sequence {value := b - 0xe0,wanted := 2}
  else if b = 0xf0 then .sequence {value := 0,wanted := 3,lower := 0x90}
  else if b < 0xf4 then .sequence {value := b - 0xf0,wanted := 3}
  else if b = 0xf4 then .sequence {value := 4,wanted := 3,upper := 0x8f}
  else .char replacement

@[grind =] def decodeFrom : Option Partial → List UInt8 → List Char
  | none,[] => []
  | some _,[] => [replacement]
  | none,b :: rest =>
    match first b.toNat with
    | .char c => c :: decodeFrom none rest
    | .sequence p => decodeFrom (some p) rest
  | some p,b :: rest =>
    if p.lower ≤ b.toNat ∧ b.toNat ≤ p.upper then
      let value := p.value * 64 + (b.toNat - 0x80)
      if p.wanted = 1 then Char.ofNat value :: decodeFrom none rest
      else decodeFrom (some {value := value,wanted := p.wanted - 1}) rest
    else
      match first b.toNat with
      | .char c => replacement :: c :: decodeFrom none rest
      | .sequence q => replacement :: decodeFrom (some q) rest

def decode (bytes : List UInt8) : List Char := decodeFrom none bytes

def encode (text : List Char) : List UInt8 := bytes (text.map Char.toNat)

variable {b n : Nat} {c : Char} {p : Partial} {rest : List UInt8} {s t : List Char}

@[simp] theorem encode_nil : encode [] = [] := rfl

@[simp] theorem encode_cons (c : Char) (s : List Char) :
    encode (c :: s) = Wtf8.encode c.toNat ++ encode s := rfl

@[simp] theorem encode_append (s t : List Char) : encode (s ++ t) = encode s ++ encode t := by
  rw [encode,List.map_append,bytes_append]
  rfl

theorem toNat_byte (h : b < 256) : (UInt8.ofNat b).toNat = b := UInt8.toNat_ofNat_of_lt' h

theorem decodeFrom_char (h : b < 256) (hb : first b = .char c) :
    decodeFrom none (UInt8.ofNat b :: rest) = c :: decodeFrom none rest := by
  rw [decodeFrom,toNat_byte h,hb]

theorem decodeFrom_sequence (h : b < 256) (hb : first b = .sequence p) :
    decodeFrom none (UInt8.ofNat b :: rest) = decodeFrom (some p) rest := by
  rw [decodeFrom,toNat_byte h,hb]

theorem decodeFrom_last (h : b < 64) (hp : p.wanted = 1) (hlow : p.lower ≤ 128 + b)
    (hup : 128 + b ≤ p.upper) : decodeFrom (some p) (UInt8.ofNat (128 + b) :: rest) =
      Char.ofNat (p.value * 64 + b) :: decodeFrom none rest := by
  rw [decodeFrom,toNat_byte (by omega),if_pos ⟨hlow,hup⟩,if_pos hp,Nat.add_sub_cancel_left]

theorem decodeFrom_more (h : b < 64) (hp : p.wanted = n + 2) (hlow : p.lower ≤ 128 + b)
    (hup : 128 + b ≤ p.upper) : decodeFrom (some p) (UInt8.ofNat (128 + b) :: rest) =
      decodeFrom (some {value := p.value * 64 + b,wanted := n + 1}) rest := by
  rw [decodeFrom,toNat_byte (by omega),if_pos ⟨hlow,hup⟩,if_neg (by omega),Nat.add_sub_cancel_left,hp]
  rfl

theorem first_three (h : 2048 ≤ n) (h' : n < 65536) (hno : ¬Half n) :
    ∃ p,first (224 + n / 4096) = .sequence p ∧ p.value = n / 4096 ∧ p.wanted = 0 + 2 ∧
      p.lower ≤ 128 + n / 64 % 64 ∧ 128 + n / 64 % 64 ≤ p.upper := by
  rw [Half] at hno
  rw [first,if_neg (by omega),if_neg (by omega),if_neg (by omega)]
  by_cases he0 : 224 + n / 4096 = 224
  · rw [if_pos he0]
    exact ⟨_,rfl,show 0 = _ by omega,rfl,show 0xa0 ≤ _ by omega,show _ ≤ 0xbf by omega⟩
  rw [if_neg he0]
  by_cases hed : 224 + n / 4096 = 237
  · rw [if_pos hed]
    exact ⟨_,rfl,show 13 = _ by omega,rfl,show 0x80 ≤ _ by omega,show _ ≤ 0x9f by omega⟩
  · rw [if_neg hed,if_pos (by omega)]
    exact ⟨_,rfl,show 224 + n / 4096 - 224 = _ by omega,rfl,show 0x80 ≤ _ by omega,
      show _ ≤ 0xbf by omega⟩

theorem first_four (h : 65536 ≤ n) (h' : n < limit) :
    ∃ p,first (240 + n / 262144) = .sequence p ∧ p.value = n / 262144 ∧ p.wanted = 1 + 2 ∧
      p.lower ≤ 128 + n / 4096 % 64 ∧ 128 + n / 4096 % 64 ≤ p.upper := by
  have hlimit := limit_eq
  rw [first,if_neg (by omega),if_neg (by omega),if_neg (by omega),if_neg (by omega),
    if_neg (by omega),if_neg (by omega)]
  by_cases hf0 : 240 + n / 262144 = 240
  · rw [if_pos hf0]
    exact ⟨_,rfl,show 0 = _ by omega,rfl,show 0x90 ≤ _ by omega,show _ ≤ 0xbf by omega⟩
  rw [if_neg hf0]
  by_cases hf4 : 240 + n / 262144 < 244
  · rw [if_pos hf4]
    exact ⟨_,rfl,show 240 + n / 262144 - 240 = _ by omega,rfl,show 0x80 ≤ _ by omega,
      show _ ≤ 0xbf by omega⟩
  · rw [if_neg hf4,if_pos (by omega)]
    exact ⟨_,rfl,show 4 = _ by omega,rfl,show 0x80 ≤ _ by omega,show _ ≤ 0x8f by omega⟩

theorem decodeFrom_encode (c : Char) (rest : List UInt8) :
    decodeFrom none (Wtf8.encode c.toNat ++ rest) = c :: decodeFrom none rest := by
  have hc : Char.ofNat c.toNat = c := Char.ofNat_toNat c
  have hlimit : c.toNat < limit ∧ ¬Half c.toNat := by
    have hlimit := limit_eq
    rw [Half]
    rcases c.valid with h | h
    · have : c.toNat < 55296 := h
      omega
    · have : 57343 < c.toNat ∧ c.toNat < 1114112 := h
      omega
  generalize c.toNat = n at hc hlimit
  obtain ⟨hlimit,hno⟩ := hlimit
  rcases Nat.lt_or_ge n 128 with h1 | h1
  · rw [Wtf8.encode,if_pos h1,List.singleton_append,decodeFrom_char (by omega) (if_pos h1),hc]
  rcases Nat.lt_or_ge n 2048 with h2 | h2
  · have hfirst : first (192 + n / 64) = .sequence {value := 192 + n / 64 - 192,wanted := 1} := by
      rw [first,if_neg (by omega),if_neg (by omega),if_pos (by omega)]
    rw [Wtf8.encode,if_neg (by omega),if_pos h2,List.cons_append,List.singleton_append,
      decodeFrom_sequence (by omega) hfirst,decodeFrom_last (by omega) rfl
        (Nat.le_add_right 128 _) (show _ ≤ 191 by omega)]
    rw [show (192 + n / 64 - 192) * 64 + n % 64 = n by omega,hc]
  rcases Nat.lt_or_ge n 65536 with h3 | h3
  · obtain ⟨p,hfirst,hvalue,hwanted,hlow,hup⟩ := first_three h2 h3 hno
    rw [Wtf8.encode,if_neg (by omega),if_neg (by omega),if_pos h3,List.cons_append,
      List.cons_append,List.singleton_append,decodeFrom_sequence (by omega) hfirst,
      decodeFrom_more (by omega) hwanted hlow hup,decodeFrom_last (by omega) rfl
        (Nat.le_add_right 128 _) (show _ ≤ 191 by omega),hvalue]
    rw [show (n / 4096 * 64 + n / 64 % 64) * 64 + n % 64 = n by omega,hc]
  · obtain ⟨p,hfirst,hvalue,hwanted,hlow,hup⟩ := first_four h3 hlimit
    have hlimit' := limit_eq
    rw [Wtf8.encode,if_neg (by omega),if_neg (by omega),if_neg (by omega),List.cons_append,
      List.cons_append,List.cons_append,List.singleton_append,
      decodeFrom_sequence (by omega) hfirst,decodeFrom_more (by omega) hwanted hlow hup,
      decodeFrom_more (n := 0) (by omega) rfl (Nat.le_add_right 128 _) (show _ ≤ 191 by omega),
      decodeFrom_last (by omega) rfl (Nat.le_add_right 128 _) (show _ ≤ 191 by omega),hvalue]
    rw [show ((n / 262144 * 64 + n / 4096 % 64) * 64 + n / 64 % 64) * 64 + n % 64 = n by omega,hc]

theorem decode_encode (s : List Char) : decode (encode s) = s := by
  induction s with
  | nil => rfl
  | cons c s ih =>
    have hstep := decodeFrom_encode c (encode s)
    rw [decode,encode_cons,hstep]
    exact congrArg (c :: ·) ih

def reach (size : Nat) : Nat := if size < 3 then 2048 else if size < 4 then 65536 else 2097152

theorem length_encode_le {size : Nat} (h : n < 128 ∨ 2 ≤ size ∧ n < reach size) (hsize : 1 ≤ size) :
    (Wtf8.encode n).length ≤ size := by
  rw [reach] at h
  rw [Wtf8.encode]
  split
  · exact hsize
  split
  · exact (h.resolve_left ‹_›).1
  split
  · change 3 ≤ size
    split at h
    · omega
    · omega
  · change 4 ≤ size
    split at h
    · omega
    split at h
    · omega
    · omega

structure Fits (p : Partial) (taken : Nat) : Prop where
  begun : 1 ≤ taken
  wanted : 1 ≤ p.wanted
  upper : p.upper ≤ 0xbf
  value : (p.value + 1) * 64 ^ p.wanted ≤ reach (taken + p.wanted)

theorem first_char (h : first b = .char c) : b < 128 ∧ c = Char.ofNat b ∨ c = replacement := by
  rw [first] at h
  split at h
  · exact .inl ⟨‹_›,(First.char.inj h).symm⟩
  split at h
  · exact .inr (First.char.inj h).symm
  split at h
  · exact nomatch h
  split at h
  · exact nomatch h
  split at h
  · exact nomatch h
  split at h
  · exact nomatch h
  split at h
  · exact nomatch h
  split at h
  · exact nomatch h
  split at h
  · exact nomatch h
  · exact .inr (First.char.inj h).symm

theorem first_spec (h : first b = .sequence p) : Fits p 1 ∧ 0x80 ≤ p.lower := by
  rw [first] at h
  split at h
  · exact nomatch h
  split at h
  · exact nomatch h
  split at h
  · obtain rfl := First.sequence.inj h
    exact ⟨⟨Nat.le_refl 1,Nat.le_refl 1,Nat.le_refl _,show (b - 0xc0 + 1) * 64 ^ 1 ≤ 2048 by omega⟩,Nat.le_refl _⟩
  split at h
  · obtain rfl := First.sequence.inj h
    exact ⟨⟨Nat.le_refl 1,Nat.le_succ 1,by decide,by decide⟩,by decide⟩
  split at h
  · obtain rfl := First.sequence.inj h
    exact ⟨⟨Nat.le_refl 1,Nat.le_succ 1,by decide,by decide⟩,by decide⟩
  split at h
  · obtain rfl := First.sequence.inj h
    exact ⟨⟨Nat.le_refl 1,Nat.le_succ 1,Nat.le_refl _,show (b - 0xe0 + 1) * 64 ^ 2 ≤ 65536 by omega⟩,Nat.le_refl _⟩
  split at h
  · obtain rfl := First.sequence.inj h
    exact ⟨⟨Nat.le_refl 1,by decide,by decide,by decide⟩,by decide⟩
  split at h
  · obtain rfl := First.sequence.inj h
    exact ⟨⟨Nat.le_refl 1,Nat.le_add_left 1 2,Nat.le_refl _,show (b - 0xf0 + 1) * 64 ^ 3 ≤ 2097152 by omega⟩,
      Nat.le_refl _⟩
  split at h
  · obtain rfl := First.sequence.inj h
    exact ⟨⟨Nat.le_refl 1,by decide,by decide,by decide⟩,by decide⟩
  · exact nomatch h

theorem toNat_ofNat (n : Nat) : (Char.ofNat n).toNat = n ∨ (Char.ofNat n).toNat = 0 := by
  rw [Char.ofNat]
  by_cases h : n.isValidChar
  · rw [dif_pos h]
    exact .inl rfl
  · rw [dif_neg h]
    exact .inr rfl

theorem encode_length_cons (c : Char) (s : List Char) {size : Nat}
    (h : (Wtf8.encode c.toNat).length ≤ size ∨ c = replacement ∧ 1 ≤ size) {bound : Nat}
    (hs : (encode s).length ≤ bound + 2 * s.count replacement) :
    (encode (c :: s)).length ≤ size + bound + 2 * (c :: s).count replacement := by
  rw [encode_cons,List.length_append]
  rcases h with h | ⟨rfl,h⟩
  · have := List.count_le_count_cons (a := replacement) (b := c) (l := s)
    omega
  · have hthree : (Wtf8.encode replacement.toNat).length = 3 := by decide
    rw [List.count_cons_self,hthree]
    omega

theorem Fits.char_length {taken value : Nat} (hp : Fits p taken) (hwanted : p.wanted = 1)
    (hvalue : value < (p.value + 1) * 64) :
    (Wtf8.encode (Char.ofNat value).toNat).length ≤ taken + 1 := by
  have hbegun := hp.begun
  have hreach := hp.value
  rw [hwanted,Nat.pow_one] at hreach
  refine length_encode_le ?_ (Nat.le_add_left 1 taken)
  rcases toNat_ofNat value with h | h
  · rw [h]
    exact .inr ⟨by omega,by omega⟩
  · rw [h]
    exact .inl (by decide)

theorem Fits.more {taken value : Nat} (hp : Fits p taken) (hwanted : p.wanted ≠ 1)
    (hvalue : value < (p.value + 1) * 64) :
    Fits {value := value,wanted := p.wanted - 1} (taken + 1) := by
  obtain ⟨hbegun,hone,_,hreach⟩ := hp
  obtain ⟨w,hw⟩ : ∃ w,p.wanted = w + 2 := ⟨p.wanted - 2,by omega⟩
  rw [hw] at hreach ⊢
  refine ⟨by omega,Nat.le_add_left 1 w,Nat.le_refl _,?_⟩
  calc (value + 1) * 64 ^ (w + 1) ≤ (p.value + 1) * 64 * 64 ^ (w + 1) :=
        Nat.mul_le_mul_right _ hvalue
    _ = (p.value + 1) * 64 ^ (w + 2) := by rw [Nat.pow_succ _ (w + 1)]; ring
    _ ≤ reach (taken + 1 + (w + 1)) := by rw [show taken + 1 + (w + 1) = taken + (w + 2) by omega]; exact hreach

theorem first_length (h : first b = .char c) :
    (Wtf8.encode c.toNat).length ≤ 1 ∨ c = replacement ∧ 1 ≤ 1 := by
  rcases first_char h with ⟨hb,rfl⟩ | rfl
  · refine .inl (length_encode_le (.inl ?_) (Nat.le_refl 1))
    rcases toNat_ofNat b with h | h
    · rw [h]
      exact hb
    · rw [h]
      decide
  · exact .inr ⟨rfl,Nat.le_refl 1⟩

theorem length_decodeFrom (bytes : List UInt8) :
    (encode (decodeFrom none bytes)).length ≤ bytes.length + 2 * (decodeFrom none bytes).count replacement ∧
    ∀ p taken,Fits p taken → (encode (decodeFrom (some p) bytes)).length ≤
      taken + bytes.length + 2 * (decodeFrom (some p) bytes).count replacement := by
  induction bytes with
  | nil =>
    refine ⟨Nat.le_refl 0,fun p taken hp => ?_⟩
    exact encode_length_cons replacement [] (.inr ⟨rfl,hp.begun⟩) (Nat.le_refl 0)
  | cons b rest ih =>
    obtain ⟨hnone,hsome⟩ := ih
    have hfirst : (encode (match first b.toNat with
        | .char c => c :: decodeFrom none rest
        | .sequence p => decodeFrom (some p) rest)).length ≤ rest.length + 1 + 2 * (match first b.toNat with
          | .char c => c :: decodeFrom none rest
          | .sequence p => decodeFrom (some p) rest).count replacement := by
      rw [Nat.add_comm rest.length 1]
      cases h : first b.toNat with
      | char c => exact encode_length_cons c _ (first_length h) hnone
      | sequence p => exact hsome p 1 (first_spec h).1
    constructor
    · rw [decodeFrom]
      exact hfirst
    · intro p taken hp
      rw [decodeFrom]
      split
      · rename_i hin
        have hvalue : p.value * 64 + (b.toNat - 0x80) < (p.value + 1) * 64 := by
          have := hp.upper
          omega
        rw [List.length_cons,Nat.add_comm rest.length 1,← Nat.add_assoc]
        split
        · rename_i hwanted
          exact encode_length_cons _ _ (.inl (hp.char_length hwanted hvalue)) hnone
        · rename_i hwanted
          exact hsome _ (taken + 1) (hp.more hwanted hvalue)
      · have hreplaced := encode_length_cons replacement _ (.inr ⟨rfl,hp.begun⟩) hfirst
        cases h : first b.toNat with
        | char c =>
          rw [h] at hreplaced
          exact hreplaced
        | sequence q =>
          rw [h] at hreplaced
          exact hreplaced

theorem length_decode (bytes : List UInt8) :
    (encode (decode bytes)).length ≤ bytes.length + 2 * (decode bytes).count replacement :=
  (length_decodeFrom bytes).1

section parts

open List (Forall₂)
open Wtf8 (limit limit_eq Half)

def rows : List (List (Nat × Nat)) :=
  [[(0x00,0x7f)],
   [(0xc2,0xdf),(0x80,0xbf)],
   [(0xe0,0xe0),(0xa0,0xbf),(0x80,0xbf)],
   [(0xe1,0xec),(0x80,0xbf),(0x80,0xbf)],
   [(0xed,0xed),(0x80,0x9f),(0x80,0xbf)],
   [(0xee,0xef),(0x80,0xbf),(0x80,0xbf)],
   [(0xf0,0xf0),(0x90,0xbf),(0x80,0xbf),(0x80,0xbf)],
   [(0xf1,0xf3),(0x80,0xbf),(0x80,0xbf),(0x80,0xbf)],
   [(0xf4,0xf4),(0x80,0x8f),(0x80,0xbf),(0x80,0xbf)]]

def Within (b : UInt8) (r : Nat × Nat) : Prop := r.1 ≤ b.toNat ∧ b.toNat ≤ r.2

instance (b : UInt8) (r : Nat × Nat) : Decidable (Within b r) := inferInstanceAs (Decidable (_ ∧ _))

def WellFormed (s : List UInt8) : Prop := ∃ row ∈ rows,Forall₂ Within s row

structure MaximalSubpart (s bytes : List UInt8) : Prop where
  front : s <+: bytes
  nonempty : s ≠ []
  unconvertible : ∀ t,t <+: bytes → ¬WellFormed t
  part : s.length = 1 ∨ ∃ t,WellFormed (s ++ t)
  longest : ∀ u,u <+: bytes → (∃ t,WellFormed (u ++ t)) → u.length ≤ s.length

inductive Reads : List UInt8 → List UInt8 → Prop
  | done : Reads [] []
  | kept {s rest out : List UInt8} (hs : WellFormed s) (h : Reads rest out) :
    Reads (s ++ rest) (s ++ out)
  | replaced {s rest out : List UInt8} (hs : MaximalSubpart s (s ++ rest)) (h : Reads rest out) :
    Reads (s ++ rest) (encode [replacement] ++ out)

inductive Boundary (back : List UInt8) : List UInt8 → Prop
  | start : Boundary back []
  | kept {s front : List UInt8} (hs : WellFormed s) (h : Boundary back front) :
    Boundary back (s ++ front)
  | replaced {s front : List UInt8} (hs : MaximalSubpart s (s ++ (front ++ back)))
    (h : Boundary back front) : Boundary back (s ++ front)

def Partial.ranges (p : Partial) : List (Nat × Nat) :=
  (p.lower,p.upper) :: List.replicate (p.wanted - 1) (0x80,0xbf)

def tailOf (b : Nat) : Option (List (Nat × Nat)) :=
  if b < 0x80 then some []
  else
    match first b with
    | .sequence p => some p.ranges
    | .char _ => none

def heads (b : Nat) : List (List (Nat × Nat)) :=
  rows.filterMap fun row =>
    match row with
    | [] => none
    | r :: ranges => if r.1 ≤ b ∧ b ≤ r.2 then some ranges else none

theorem heads_eq {b : Nat} (h : b < 256) : heads b = (tailOf b).toList ∧
    ∀ ranges,tailOf b = some ranges → ∀ r ∈ ranges,r.1 ≤ r.2 ∧ r.2 < 256 := by
  have hall : (List.range 256).all (fun b => decide (heads b = (tailOf b).toList) &&
      ((tailOf b).all fun ranges => ranges.all fun r => decide (r.1 ≤ r.2 ∧ r.2 < 256))) = true := by
    decide +kernel
  have hb := List.all_eq_true.mp hall b (List.mem_range.mpr h)
  rw [Bool.and_eq_true,decide_eq_true_eq] at hb
  refine ⟨hb.1,fun ranges hranges r hr => ?_⟩
  have htail := hb.2
  rw [hranges] at htail
  exact of_decide_eq_true (List.all_eq_true.mp htail r hr)

variable {s front rest : List UInt8} {c : UInt8} {ranges : List (Nat × Nat)}

theorem wellFormed_cons {b : UInt8} {cs : List UInt8} :
    WellFormed (b :: cs) ↔ ∃ ranges,tailOf b.toNat = some ranges ∧ Forall₂ Within cs ranges := by
  have hheads := (heads_eq b.toNat_lt).1
  have hmem (ranges : List (Nat × Nat)) : ranges ∈ heads b.toNat ↔
      ∃ r,r :: ranges ∈ rows ∧ Within b r := by
    rw [heads,List.mem_filterMap]
    constructor
    · rintro ⟨row,hrow,heq⟩
      match row with
      | [] => exact nomatch heq
      | r :: t =>
        simp only at heq
        split at heq
        · obtain rfl := Option.some.inj heq
          exact ⟨r,hrow,‹_›⟩
        · exact nomatch heq
    · rintro ⟨r,hrow,hr⟩
      exact ⟨r :: ranges,hrow,if_pos hr⟩
  constructor
  · rintro ⟨row,hrow,hfits⟩
    cases hfits with
    | @cons _ r _ ranges hr hcs =>
      have hin := (hmem ranges).mpr ⟨r,hrow,hr⟩
      rw [hheads] at hin
      exact ⟨ranges,Option.mem_toList.mp hin,hcs⟩
  · rintro ⟨ranges,htail,hcs⟩
    have hin : ranges ∈ heads b.toNat := by
      rw [hheads]
      exact Option.mem_toList.mpr htail
    obtain ⟨r,hrow,hr⟩ := (hmem ranges).mp hin
    exact ⟨r :: ranges,hrow,.cons hr hcs⟩

theorem wellFormed_ne_nil (h : WellFormed s) : s ≠ [] := by
  obtain ⟨row,hrow,hfits⟩ := h
  rintro rfl
  cases hfits
  exact absurd hrow (by decide)

theorem decodeFrom_out {p : Partial} (h : ¬Within c (p.lower,p.upper)) :
    decodeFrom (some p) (c :: rest) = replacement :: decodeFrom none (c :: rest) := by
  have hout : ¬(p.lower ≤ c.toNat ∧ c.toNat ≤ p.upper) := h
  simp only [decodeFrom,if_neg hout]
  cases first c.toNat with
  | char c => rfl
  | sequence q => rfl

theorem decodeFrom_done {p : Partial} (h : Within c (p.lower,p.upper)) (hone : p.wanted = 1) :
    decodeFrom (some p) (c :: rest) =
      Char.ofNat (p.value * 64 + (c.toNat - 0x80)) :: decodeFrom none rest := by
  have hin : p.lower ≤ c.toNat ∧ c.toNat ≤ p.upper := h
  simp only [decodeFrom,if_pos hin,if_pos hone]

theorem decodeFrom_within {p : Partial} (h : Within c (p.lower,p.upper)) (hmore : p.wanted ≠ 1) :
    decodeFrom (some p) (c :: rest) =
      decodeFrom (some {value := p.value * 64 + (c.toNat - 0x80),wanted := p.wanted - 1}) rest := by
  have hin : p.lower ≤ c.toNat ∧ c.toNat ≤ p.upper := h
  simp only [decodeFrom,if_pos hin,if_neg hmore]

theorem decodeFrom_stuck (p : Partial) (hshort : front.length < p.ranges.length)
    (hfits : Forall₂ Within front (p.ranges.take front.length))
    (hstop : ∀ c cs,rest = c :: cs → ∀ r,p.ranges[front.length]? = some r → ¬Within c r) :
    decodeFrom (some p) (front ++ rest) = replacement :: decodeFrom none rest := by
  induction front generalizing p with
  | nil =>
    cases rest with
    | nil => rfl
    | cons c cs => exact decodeFrom_out (hstop c cs rfl _ rfl)
  | cons b front ih =>
    rw [List.length_cons,Partial.ranges,List.take_succ_cons] at hfits
    cases hfits with
    | cons hb hfront =>
      have hlength : front.length + 1 < p.wanted - 1 + 1 := by
        rw [List.length_cons,Partial.ranges,List.length_cons,List.length_replicate] at hshort
        exact hshort
      have hranges : List.replicate (p.wanted - 1) ((0x80 : Nat),(0xbf : Nat)) =
          (Partial.mk (p.value * 64 + (b.toNat - 0x80)) (p.wanted - 1) 0x80 0xbf).ranges := by
        rw [Partial.ranges,← List.replicate_succ]
        exact congrArg (fun n => List.replicate n _) (show p.wanted - 1 = p.wanted - 1 - 1 + 1 by omega)
      rw [List.cons_append,decodeFrom_within hb (by omega)]
      refine ih _ ?_ ?_ ?_
      · rw [← hranges,List.length_replicate]
        omega
      · rw [← hranges]
        exact hfront
      · intro c cs hrest r hr
        refine hstop c cs hrest r ?_
        rw [List.length_cons,Partial.ranges,List.getElem?_cons_succ,hranges]
        exact hr

theorem forall₂_fill (hfits : Forall₂ Within front (ranges.take front.length))
    (hranges : ∀ r ∈ ranges,r.1 ≤ r.2 ∧ r.2 < 256) :
    ∃ t,Forall₂ Within (front ++ t) ranges := by
  refine ⟨(ranges.drop front.length).map fun r => UInt8.ofNat r.1,?_⟩
  have hrest : Forall₂ Within ((ranges.drop front.length).map fun r => UInt8.ofNat r.1)
      (ranges.drop front.length) := by
    rw [List.forall₂_map_left_iff,List.forall₂_same]
    intro r hr
    obtain ⟨hle,hlt⟩ := hranges r (List.mem_of_mem_drop hr)
    rw [Within,toNat_byte (Nat.lt_of_le_of_lt hle hlt)]
    exact ⟨Nat.le_refl _,hle⟩
  have hall : Forall₂ Within (front ++ (ranges.drop front.length).map fun r => UInt8.ofNat r.1)
      (ranges.take front.length ++ ranges.drop front.length) := List.rel_append hfits hrest
  rwa [List.take_append_drop] at hall

theorem forall₂_front {t : List UInt8} (h : Forall₂ Within (front ++ t) ranges) :
    front.length ≤ ranges.length ∧ Forall₂ Within front (ranges.take front.length) := by
  constructor
  · rw [← h.length_eq,List.length_append]
    exact Nat.le_add_right _ _
  · have htake := List.forall₂_take front.length h
    rwa [List.take_left] at htake

theorem decode_subpart (h : MaximalSubpart s (s ++ rest)) :
    decode (s ++ rest) = replacement :: decode rest := by
  cases s with
  | nil => exact absurd rfl h.nonempty
  | cons b front =>
    cases htail : tailOf b.toNat with
    | none =>
      have hfront : front = [] := by
        rcases h.part with hone | ⟨t,ht⟩
        · exact List.length_eq_zero_iff.mp (Nat.succ.inj hone)
        · obtain ⟨ranges,hranges,_⟩ := (wellFormed_cons).mp ht
          rw [htail] at hranges
          exact nomatch hranges
      subst hfront
      rw [tailOf] at htail
      split at htail
      · exact nomatch htail
      split at htail
      · exact nomatch htail
      · rename_i hhigh _ d hfirst
        obtain ⟨hlow,_⟩ | rfl := first_char hfirst
        · exact absurd hlow hhigh
        · rw [decode,List.singleton_append,decodeFrom,hfirst]
          rfl
    | some ranges =>
      have hfront : front.length ≤ ranges.length ∧
          Forall₂ Within front (ranges.take front.length) := by
        rcases h.part with hone | ⟨t,ht⟩
        · obtain rfl := List.length_eq_zero_iff.mp (Nat.succ.inj hone)
          exact ⟨Nat.zero_le _,.nil⟩
        · obtain ⟨ranges',hranges,hfits⟩ := (wellFormed_cons).mp ht
          rw [htail] at hranges
          obtain rfl := Option.some.inj hranges
          exact forall₂_front hfits
      have hshort : front.length < ranges.length := by
        refine Nat.lt_of_le_of_ne hfront.1 fun heq => ?_
        refine h.unconvertible (b :: front) (List.prefix_append _ _)
          ((wellFormed_cons).mpr ⟨ranges,htail,?_⟩)
        have hfits := hfront.2
        rwa [heq,List.take_length] at hfits
      have hstop : ∀ c cs,rest = c :: cs → ∀ r,ranges[front.length]? = some r → ¬Within c r := by
        rintro c cs rfl r hr hc
        have hlonger : Forall₂ Within (front ++ [c]) (ranges.take (front ++ [c]).length) := by
          rw [List.length_append,List.length_singleton,List.take_add_one,hr]
          exact List.rel_append hfront.2 (.cons hc .nil)
        obtain ⟨t,ht⟩ := forall₂_fill hlonger ((heads_eq b.toNat_lt).2 ranges htail)
        have hlen := h.longest (b :: (front ++ [c])) ⟨cs,by simp⟩
          ⟨t,(wellFormed_cons).mpr ⟨ranges,htail,ht⟩⟩
        simp at hlen
      rw [tailOf] at htail
      split at htail
      · obtain rfl := Option.some.inj htail
        exact absurd hshort (Nat.not_lt_zero _)
      split at htail
      · rename_i p hfirst
        obtain rfl := Option.some.inj htail
        rw [decode,List.cons_append,decodeFrom,hfirst]
        exact decodeFrom_stuck p hshort hfront.2 hstop
      · exact nomatch htail

theorem ofNat_eq {b : UInt8} {n : Nat} (h : n = b.toNat) : UInt8.ofNat n = b := by
  rw [h,UInt8.ofNat_toNat]

theorem toNat_valid {n : Nat} (h : n < 0xd800 ∨ 0xdfff < n ∧ n < 0x110000) :
    (Char.ofNat n).toNat = n := by
  rw [Char.ofNat,dif_pos h]
  rfl

theorem encode_two {a b : UInt8} (ha : 0xc2 ≤ a.toNat ∧ a.toNat ≤ 0xdf)
    (hb : 0x80 ≤ b.toNat ∧ b.toNat ≤ 0xbf) : ∃ c : Char,Wtf8.encode c.toNat = [a,b] := by
  refine ⟨Char.ofNat ((a.toNat - 0xc0) * 64 + (b.toNat - 0x80)),?_⟩
  rw [toNat_valid (by omega),Wtf8.encode,if_neg (by omega),if_pos (by omega),ofNat_eq (b := a) (by omega),
    ofNat_eq (b := b) (by omega)]

theorem encode_three {a b c : UInt8} (ha : 0xe0 ≤ a.toNat ∧ a.toNat ≤ 0xef)
    (hb : 0x80 ≤ b.toNat ∧ b.toNat ≤ 0xbf) (hc : 0x80 ≤ c.toNat ∧ c.toNat ≤ 0xbf)
    (hlong : a.toNat = 0xe0 → 0xa0 ≤ b.toNat) (hhalf : a.toNat = 0xed → b.toNat ≤ 0x9f) :
    ∃ d : Char,Wtf8.encode d.toNat = [a,b,c] := by
  refine ⟨Char.ofNat ((a.toNat - 0xe0) * 4096 + (b.toNat - 0x80) * 64 + (c.toNat - 0x80)),?_⟩
  rw [toNat_valid (by omega),Wtf8.encode,if_neg (by omega),if_neg (by omega),if_pos (by omega),
    ofNat_eq (b := a) (by omega),ofNat_eq (b := b) (by omega),ofNat_eq (b := c) (by omega)]

theorem encode_four {a b c d : UInt8} (ha : 0xf0 ≤ a.toNat ∧ a.toNat ≤ 0xf4)
    (hb : 0x80 ≤ b.toNat ∧ b.toNat ≤ 0xbf) (hc : 0x80 ≤ c.toNat ∧ c.toNat ≤ 0xbf)
    (hd : 0x80 ≤ d.toNat ∧ d.toNat ≤ 0xbf) (hlong : a.toNat = 0xf0 → 0x90 ≤ b.toNat)
    (hlimit : a.toNat = 0xf4 → b.toNat ≤ 0x8f) : ∃ e : Char,Wtf8.encode e.toNat = [a,b,c,d] := by
  refine ⟨Char.ofNat ((a.toNat - 0xf0) * 262144 + (b.toNat - 0x80) * 4096 + (c.toNat - 0x80) * 64 +
    (d.toNat - 0x80)),?_⟩
  rw [toNat_valid (by omega),Wtf8.encode,if_neg (by omega),if_neg (by omega),if_neg (by omega),
    ofNat_eq (b := a) (by omega),ofNat_eq (b := b) (by omega),ofNat_eq (b := c) (by omega),
    ofNat_eq (b := d) (by omega)]

theorem row_two {q r : Nat × Nat} (h : Forall₂ Within s [q,r]) :
    ∃ a b,s = [a,b] ∧ Within a q ∧ Within b r := by
  obtain ⟨a,_,ha,hmore,rfl⟩ := List.forall₂_cons_right_iff.mp h
  obtain ⟨b,_,hb,hnil,rfl⟩ := List.forall₂_cons_right_iff.mp hmore
  obtain rfl := List.forall₂_nil_right_iff.mp hnil
  exact ⟨a,b,rfl,ha,hb⟩

theorem row_three {p q r : Nat × Nat} (h : Forall₂ Within s [p,q,r]) :
    ∃ a b c,s = [a,b,c] ∧ Within a p ∧ Within b q ∧ Within c r := by
  obtain ⟨a,_,ha,hmore,rfl⟩ := List.forall₂_cons_right_iff.mp h
  obtain ⟨b,c,rfl,hb,hc⟩ := row_two hmore
  exact ⟨a,b,c,rfl,ha,hb,hc⟩

theorem row_four {o p q r : Nat × Nat} (h : Forall₂ Within s [o,p,q,r]) :
    ∃ a b c d,s = [a,b,c,d] ∧ Within a o ∧ Within b p ∧ Within c q ∧ Within d r := by
  obtain ⟨a,_,ha,hmore,rfl⟩ := List.forall₂_cons_right_iff.mp h
  obtain ⟨b,c,d,rfl,hb,hc,hd⟩ := row_three hmore
  exact ⟨a,b,c,d,rfl,ha,hb,hc,hd⟩

theorem WellFormed.encode (h : WellFormed s) : ∃ c : Char,Wtf8.encode c.toNat = s := by
  obtain ⟨row,hrow,hfits⟩ := h
  simp only [rows,List.mem_cons,List.not_mem_nil,or_false] at hrow
  have hthree {p q r : Nat × Nat} (h : Forall₂ Within s [p,q,r])
      (hrow : 0xe0 ≤ p.1 ∧ p.2 ≤ 0xef ∧ 0x80 ≤ q.1 ∧ q.2 ≤ 0xbf ∧ r = (0x80,0xbf) ∧
        (p.1 = 0xe0 → 0xa0 ≤ q.1) ∧ (p.1 ≤ 0xed → 0xed ≤ p.2 → q.2 ≤ 0x9f)) :
      ∃ c : Char,Wtf8.encode c.toNat = s := by
    obtain ⟨a,b,c,rfl,⟨ha,ha'⟩,⟨hb,hb'⟩,⟨hc,hc'⟩⟩ := row_three h
    obtain ⟨h1,h2,h3,h4,rfl,h5,h6⟩ := hrow
    exact encode_three ⟨by omega,by omega⟩ ⟨by omega,by omega⟩ ⟨hc,hc'⟩ (by omega) (by omega)
  have hfour {o p q r : Nat × Nat} (h : Forall₂ Within s [o,p,q,r])
      (hrow : 0xf0 ≤ o.1 ∧ o.2 ≤ 0xf4 ∧ 0x80 ≤ p.1 ∧ p.2 ≤ 0xbf ∧ q = (0x80,0xbf) ∧
        r = (0x80,0xbf) ∧ (o.1 = 0xf0 → 0x90 ≤ p.1) ∧ (o.2 = 0xf4 → p.2 ≤ 0x8f)) :
      ∃ c : Char,Wtf8.encode c.toNat = s := by
    obtain ⟨a,b,c,d,rfl,⟨ha,ha'⟩,⟨hb,hb'⟩,⟨hc,hc'⟩,⟨hd,hd'⟩⟩ := row_four h
    obtain ⟨h1,h2,h3,h4,rfl,rfl,h5,h6⟩ := hrow
    exact encode_four ⟨by omega,by omega⟩ ⟨by omega,by omega⟩ ⟨hc,hc'⟩ ⟨hd,hd'⟩ (by omega) (by omega)
  rcases hrow with rfl | rfl | rfl | rfl | rfl | rfl | rfl | rfl | rfl
  · obtain ⟨a,_,ha,hnil,rfl⟩ := List.forall₂_cons_right_iff.mp hfits
    obtain rfl := List.forall₂_nil_right_iff.mp hnil
    have ha : 0 ≤ a.toNat ∧ a.toNat ≤ 0x7f := ha
    refine ⟨Char.ofNat a.toNat,?_⟩
    rw [toNat_valid (by omega),Wtf8.encode,if_pos (by omega),UInt8.ofNat_toNat]
  · obtain ⟨a,b,rfl,ha,hb⟩ := row_two hfits
    exact encode_two ha hb
  · exact hthree hfits (by decide)
  · exact hthree hfits (by decide)
  · exact hthree hfits (by decide)
  · exact hthree hfits (by decide)
  · exact hfour hfits (by decide)
  · exact hfour hfits (by decide)
  · exact hfour hfits (by decide)

theorem tailOf_sequence {b : Nat} {p : Partial} (hb : ¬b < 0x80) (h : first b = .sequence p) :
    tailOf b = some p.ranges := by
  rw [tailOf,if_neg hb,h]

theorem within_byte {n lo hi : Nat} (h : n < 256) (hlo : lo ≤ n) (hhi : n ≤ hi) :
    Within (UInt8.ofNat n) (lo,hi) := by
  rw [Within,toNat_byte h]
  exact ⟨hlo,hhi⟩

theorem wellFormed_encode (c : Char) : WellFormed (Wtf8.encode c.toNat) := by
  obtain ⟨hlimit,hno⟩ : c.toNat < limit ∧ ¬Half c.toNat := by
    have hlimit := limit_eq
    rw [Half]
    rcases c.valid with h | h
    · have : c.toNat < 55296 := h
      omega
    · have : 57343 < c.toNat ∧ c.toNat < 1114112 := h
      omega
  generalize c.toNat = n at hlimit hno
  have hlimit' := limit_eq
  rw [Wtf8.encode]
  split
  · rename_i h
    refine wellFormed_cons.mpr ⟨[],?_,.nil⟩
    rw [toNat_byte (by omega),tailOf,if_pos h]
  split
  · have hfirst : first (192 + n / 64) = .sequence {value := 192 + n / 64 - 192,wanted := 1} := by
      rw [first,if_neg (by omega),if_neg (by omega),if_pos (by omega)]
    refine wellFormed_cons.mpr ⟨_,?_,.cons (show Within _ (0x80,0xbf) from within_byte (by omega) (by omega) (by omega)) .nil⟩
    rw [toNat_byte (by omega),tailOf_sequence (by omega) hfirst]
    rfl
  split
  · obtain ⟨p,hfirst,_,hwanted,hlow,hup⟩ := first_three (by omega) ‹_› hno
    refine wellFormed_cons.mpr ⟨p.ranges,?_,.cons (within_byte (by omega) hlow hup) ?_⟩
    · rw [toNat_byte (by omega),tailOf_sequence (by omega) hfirst]
    · rw [hwanted]
      exact .cons (within_byte (by omega) (by omega) (by omega)) .nil
  · obtain ⟨p,hfirst,_,hwanted,hlow,hup⟩ := first_four (by omega) hlimit
    refine wellFormed_cons.mpr ⟨p.ranges,?_,.cons (within_byte (by omega) hlow hup) ?_⟩
    · rw [toNat_byte (by omega),tailOf_sequence (by omega) hfirst]
    · rw [hwanted]
      exact .cons (within_byte (by omega) (by omega) (by omega))
        (.cons (within_byte (by omega) (by omega) (by omega)) .nil)

theorem WellFormed.decode (h : WellFormed s) (rest : List UInt8) :
    ∃ c : Char,Wtf8.encode c.toNat = s ∧ Utf8.decode (s ++ rest) = c :: Utf8.decode rest := by
  obtain ⟨c,rfl⟩ := h.encode
  exact ⟨c,rfl,decodeFrom_encode c rest⟩

theorem Reads.eq {bytes out : List UInt8} (h : Reads bytes out) :
    out = Utf8.encode (Utf8.decode bytes) := by
  induction h with
  | done => rfl
  | @kept s rest out hs _ ih =>
    obtain ⟨c,hc,hdecode⟩ := hs.decode rest
    rw [hdecode,encode_cons,hc,ih]
  | @replaced s rest out hs _ ih =>
    rw [decode_subpart hs,ih]
    exact (encode_append [replacement] _).symm

theorem exists_part {bytes : List UInt8} (h : bytes ≠ []) :
    (∃ s rest,bytes = s ++ rest ∧ WellFormed s) ∨
      ∃ s rest,bytes = s ++ rest ∧ MaximalSubpart s (s ++ rest) := by
  by_cases hwell : ∃ t,t <+: bytes ∧ WellFormed t
  · obtain ⟨t,⟨rest,rfl⟩,ht⟩ := hwell
    exact .inl ⟨t,rest,rfl,ht⟩
  · classical
    have hone : 1 ≤ bytes.length := List.length_pos_iff.mpr h
    let P : Nat → Prop := fun n => n = 1 ∨ ∃ t,WellFormed (bytes.take n ++ t)
    let n := Nat.findGreatest P bytes.length
    have hP : P n := Nat.findGreatest_spec hone (.inl rfl)
    have hn : n ≤ bytes.length := Nat.findGreatest_le _
    have hpos : 1 ≤ n := Nat.le_findGreatest hone (.inl rfl)
    have hlen : (bytes.take n).length = n := List.length_take_of_le hn
    refine .inr ⟨bytes.take n,bytes.drop n,(List.take_append_drop n bytes).symm,?_⟩
    rw [List.take_append_drop]
    refine ⟨List.take_prefix n bytes,?_,fun t ht hs => hwell ⟨t,ht,hs⟩,?_,?_⟩
    · intro hnil
      rw [hnil] at hlen
      rw [← hlen] at hpos
      exact absurd hpos (Nat.not_succ_le_zero 0)
    · rw [hlen]
      exact hP
    · intro u hu hpart
      rw [hlen]
      refine Nat.le_findGreatest hu.length_le (.inr ?_)
      rwa [← List.prefix_iff_eq_take.mp hu]

theorem reads_iff {bytes out : List UInt8} : Reads bytes out ↔ out = Utf8.encode (Utf8.decode bytes) := by
  refine ⟨Reads.eq,?_⟩
  rintro rfl
  generalize hsize : bytes.length = size
  induction size using Nat.strong_induction_on generalizing bytes with
  | _ size ih =>
    cases bytes with
    | nil => exact .done
    | cons b rest =>
      rcases exists_part (List.cons_ne_nil b rest) with ⟨s,rest',heq,hs⟩ | ⟨s,rest',heq,hs⟩
      · have hshort : rest'.length < size := by
          have := List.length_pos_iff.mpr (wellFormed_ne_nil hs)
          rw [← hsize,heq,List.length_append]
          omega
        have hread := Reads.kept hs (ih _ hshort rfl)
        rw [heq]
        exact hread.eq ▸ hread
      · have hshort : rest'.length < size := by
          have := List.length_pos_iff.mpr hs.nonempty
          rw [← hsize,heq,List.length_append]
          omega
        have hread := Reads.replaced hs (ih _ hshort rfl)
        rw [heq]
        exact hread.eq ▸ hread

theorem MaximalSubpart.mono {bytes more : List UInt8} (h : MaximalSubpart s (bytes ++ more))
    (hfront : s <+: bytes) : MaximalSubpart s bytes :=
  ⟨hfront,h.nonempty,fun t ht => h.unconvertible t (ht.trans (List.prefix_append _ _)),h.part,
    fun u hu => h.longest u (hu.trans (List.prefix_append _ _))⟩

theorem decode_boundary {front back : List UInt8} (h : Boundary back front) :
    decode (front ++ back) = decode front ++ decode back := by
  induction h with
  | start => rfl
  | @kept s front hs _ ih =>
    obtain ⟨c,rfl⟩ := hs.encode
    rw [List.append_assoc,decode,decodeFrom_encode,decode,decodeFrom_encode]
    exact congrArg (c :: ·) ih
  | @replaced s front hs _ ih =>
    rw [List.append_assoc,decode_subpart hs]
    rw [← List.append_assoc] at hs
    rw [decode_subpart (hs.mono (List.prefix_append _ _)),ih]
    rfl

theorem decode_ascii {b : Nat} (hb : b < 0x80) (front back : List UInt8) :
    decode (front ++ UInt8.ofNat b :: back) = decode front ++ Char.ofNat b :: decode back := by
  have hgo (start : Option Partial) (hlow : ∀ p,start = some p → 0x80 ≤ p.lower) :
      decodeFrom start (front ++ UInt8.ofNat b :: back) =
        decodeFrom start front ++ Char.ofNat b :: decodeFrom none back := by
    have hbyte : decodeFrom none (UInt8.ofNat b :: back) = Char.ofNat b :: decodeFrom none back :=
      decodeFrom_char (by omega) (if_pos hb)
    induction front generalizing start with
    | nil =>
      cases start with
      | none =>
        rw [List.nil_append,hbyte]
        rfl
      | some p =>
        have hout : ¬Within (UInt8.ofNat b) (p.lower,p.upper) := by
          rw [Within,toNat_byte (by omega)]
          have := hlow p rfl
          omega
        rw [List.nil_append,decodeFrom_out hout,hbyte]
        rfl
    | cons c front ih =>
      have hread : decodeFrom none (c :: front ++ UInt8.ofNat b :: back) =
          decodeFrom none (c :: front) ++ Char.ofNat b :: decodeFrom none back := by
        rw [List.cons_append,decodeFrom,decodeFrom]
        cases hfirst : first c.toNat with
        | char d => exact congrArg (d :: ·) (ih none nofun)
        | sequence p =>
          refine ih (some p) fun q hq => ?_
          obtain rfl := Option.some.inj hq
          exact (first_spec hfirst).2
      cases start with
      | none => exact hread
      | some p =>
        by_cases hin : Within c (p.lower,p.upper)
        · by_cases hone : p.wanted = 1
          · rw [List.cons_append,decodeFrom_done hin hone,decodeFrom_done hin hone,ih none nofun,
              List.cons_append]
          · rw [List.cons_append,decodeFrom_within hin hone,decodeFrom_within hin hone]
            refine ih _ fun q hq => ?_
            rw [← Option.some.inj hq]
        · rw [List.cons_append] at hread
          rw [List.cons_append,decodeFrom_out hin,decodeFrom_out hin,hread]
          rfl
  exact hgo none nofun

def IsText (bytes : List UInt8) : Prop :=
  ∃ segments : List (List UInt8),(∀ s ∈ segments,WellFormed s) ∧ segments.flatten = bytes

theorem isText_encode (text : List Char) : IsText (encode text) := by
  induction text with
  | nil => exact ⟨[],nofun,rfl⟩
  | cons c text ih =>
    obtain ⟨segments,hall,heq⟩ := ih
    refine ⟨Wtf8.encode c.toNat :: segments,?_,?_⟩
    · intro s hs
      rcases List.mem_cons.mp hs with rfl | hs
      · exact wellFormed_encode c
      · exact hall s hs
    · rw [List.flatten_cons,heq,encode_cons]

theorem IsText.encode {bytes : List UInt8} (h : IsText bytes) : ∃ text,Utf8.encode text = bytes := by
  obtain ⟨segments,hall,rfl⟩ := h
  induction segments with
  | nil => exact ⟨[],rfl⟩
  | cons s segments ih =>
    obtain ⟨c,hc⟩ := (hall s List.mem_cons_self).encode
    obtain ⟨text,htext⟩ := ih fun t ht => hall t (List.mem_cons_of_mem _ ht)
    exact ⟨c :: text,by rw [encode_cons,hc,htext,List.flatten_cons]⟩

end parts

end Utf8
