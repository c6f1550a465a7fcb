import OpenSteamgate.Text.Utf16

namespace OpenSteamgate.Text

open Wtf8 Marked

variable {p : Nat} {ps : List Nat} {v rest : List UInt8}

@[simp] theorem byte_zero (b : UInt8) (v : List UInt8) : byte (b :: v) 0 = b.toNat := rfl

@[simp] theorem byte_succ (b : UInt8) (v : List UInt8) (i : Nat) : byte (b :: v) (i + 1) = byte v i :=
  rfl

theorem toNat_byte {n : Nat} (h : n < 256) : (UInt8.ofNat n).toNat = n := UInt8.toNat_ofNat_of_lt' h

theorem continues_iff {b : Nat} : continues b = true ↔ 128 ≤ b ∧ b < 192 := by
  rw [continues,beq_iff_eq]
  omega

theorem half_iff {least greatest : Nat} : half v least greatest = true ↔
    byte v 0 = 0xed ∧ least ≤ byte v 1 ∧ byte v 1 ≤ greatest ∧ 128 ≤ byte v 2 ∧ byte v 2 < 192 := by
  simp only [half,Bool.and_eq_true,beq_iff_eq,decide_eq_true_eq,continues_iff]
  tauto

theorem encode_one (h : p < 128) : encode p = [UInt8.ofNat p] := if_pos h

theorem encode_two (h : 128 ≤ p) (h' : p < 2048) :
    encode p = [UInt8.ofNat (192 + p / 64),UInt8.ofNat (128 + p % 64)] := by
  rw [encode,if_neg (Nat.not_lt.mpr h),if_pos h']

theorem encode_three (h : 2048 ≤ p) (h' : p < 65536) :
    encode p = [UInt8.ofNat (224 + p / 4096),UInt8.ofNat (128 + p / 64 % 64),
      UInt8.ofNat (128 + p % 64)] := by
  rw [encode,if_neg (Nat.not_lt.mpr (Nat.le_trans (by decide) h)),if_neg (Nat.not_lt.mpr h),if_pos h']

theorem encode_four (h : 65536 ≤ p) :
    encode p = [UInt8.ofNat (240 + p / 262144),UInt8.ofNat (128 + p / 4096 % 64),
      UInt8.ofNat (128 + p / 64 % 64),UInt8.ofNat (128 + p % 64)] := by
  rw [encode,if_neg (Nat.not_lt.mpr (Nat.le_trans (by decide) h)),
    if_neg (Nat.not_lt.mpr (Nat.le_trans (by decide) h)),if_neg (Nat.not_lt.mpr h)]

theorem leastSecond_cases (b : Nat) : leastSecond b = 0x80 ∨
    b = 0xE0 ∧ leastSecond b = 0xA0 ∨ b = 0xF0 ∧ leastSecond b = 0x90 := by
  rw [leastSecond]
  split_ifs <;> simp_all

theorem greatestSecond_cases (b : Nat) : b ≠ 0xED ∧ b ≠ 0xF4 ∧ greatestSecond b = 0xBF ∨
    b = 0xED ∧ greatestSecond b = 0x9F ∨ b = 0xF4 ∧ greatestSecond b = 0x8F := by
  rw [greatestSecond]
  split_ifs <;> simp_all

theorem decode_one (h : p < 128) : decode16 (encode p ++ rest) = (p,1) := by
  have h0 : byte (encode p ++ rest) 0 = p := by
    rw [encode_one h]
    exact toNat_byte (h.trans (by decide))
  have hne : encode p ++ rest ≠ [] := by
    rw [encode_one h]
    exact List.cons_ne_nil _ _
  rw [decode16,if_neg,decodeRune,if_neg hne,h0,if_pos h]
  rintro ⟨_,hhalf⟩
  have := ((half_iff).mp hhalf).1
  omega

theorem decode_two (h : 128 ≤ p) (h' : p < 2048) : decode16 (encode p ++ rest) = (p,2) := by
  have hv := encode_two h h'
  have hne : encode p ++ rest ≠ [] := by
    rw [hv]
    exact List.cons_ne_nil _ _
  have h0 : byte (encode p ++ rest) 0 = 192 + p / 64 := by
    rw [hv]
    exact toNat_byte (by omega)
  have h1 : byte (encode p ++ rest) 1 = 128 + p % 64 := by
    rw [hv]
    exact toNat_byte (by omega)
  have hleast := leastSecond_cases (192 + p / 64)
  have hgreatest := greatestSecond_cases (192 + p / 64)
  rw [decode16,if_neg,decodeRune,if_neg hne,h0,h1,if_neg (by omega),if_neg (by omega),
    if_neg (by omega),if_pos (by omega)]
  · exact Prod.ext (by omega) rfl
  · rintro ⟨_,hhalf⟩
    have := ((half_iff).mp hhalf).1
    omega

theorem decode_three (h : 2048 ≤ p) (h' : p < 65536) : decode16 (encode p ++ rest) = (p,3) := by
  have hv := encode_three h h'
  have hne : encode p ++ rest ≠ [] := by
    rw [hv]
    exact List.cons_ne_nil _ _
  have hlen : 3 ≤ (encode p ++ rest).length := by
    rw [hv]
    exact Nat.le_add_left 3 rest.length
  have h0 : byte (encode p ++ rest) 0 = 224 + p / 4096 := by
    rw [hv]
    exact toNat_byte (by omega)
  have h1 : byte (encode p ++ rest) 1 = 128 + p / 64 % 64 := by
    rw [hv]
    exact toNat_byte (by omega)
  have h2 : byte (encode p ++ rest) 2 = 128 + p % 64 := by
    rw [hv]
    exact toNat_byte (by omega)
  rw [decode16,h0,h1,h2]
  split
  · exact Prod.ext (by omega) rfl
  · rename_i hno
    have hno : ¬Half p := by
      rintro ⟨hhalf,hhalf'⟩
      refine hno ⟨hlen,(half_iff).mpr ?_⟩
      rw [h0,h1,h2]
      omega
    rw [Half] at hno
    have hleast := leastSecond_cases (224 + p / 4096)
    have hgreatest := greatestSecond_cases (224 + p / 4096)
    rw [decodeRune,if_neg hne,h0,h1,h2,if_neg (by omega),if_neg (by omega),if_neg (by omega),
      if_neg (by omega),if_neg,if_pos (by omega)]
    · exact Prod.ext (by omega) rfl
    · rw [Bool.not_eq_true',Bool.not_eq_false,continues_iff]
      omega

theorem decode_four (h : 65536 ≤ p) (h' : p < limit) : decode16 (encode p ++ rest) = (p,4) := by
  have hv := encode_four h
  have hlimit := limit_eq
  have hne : encode p ++ rest ≠ [] := by
    rw [hv]
    exact List.cons_ne_nil _ _
  have h0 : byte (encode p ++ rest) 0 = 240 + p / 262144 := by
    rw [hv]
    exact toNat_byte (by omega)
  have h1 : byte (encode p ++ rest) 1 = 128 + p / 4096 % 64 := by
    rw [hv]
    exact toNat_byte (by omega)
  have h2 : byte (encode p ++ rest) 2 = 128 + p / 64 % 64 := by
    rw [hv]
    exact toNat_byte (by omega)
  have h3 : byte (encode p ++ rest) 3 = 128 + p % 64 := by
    rw [hv]
    exact toNat_byte (by omega)
  have hleast := leastSecond_cases (240 + p / 262144)
  have hgreatest := greatestSecond_cases (240 + p / 262144)
  rw [decode16,if_neg,decodeRune,if_neg hne,h0,h1,h2,h3,if_neg (by omega),if_neg (by omega),
    if_neg (by omega),if_neg (by omega),if_neg,if_neg (by omega),if_neg]
  · exact Prod.ext (by omega) rfl
  · rw [Bool.not_eq_true',Bool.not_eq_false,continues_iff]
    omega
  · rw [Bool.not_eq_true',Bool.not_eq_false,continues_iff]
    omega
  · rintro ⟨_,hhalf⟩
    have := ((half_iff).mp hhalf).1
    omega

theorem decode_encode (h : p < limit) : decode16 (encode p ++ rest) = (p,(encode p).length) := by
  rcases Nat.lt_or_ge p 128 with h1 | h1
  · rw [decode_one h1,encode_one h1]
    rfl
  rcases Nat.lt_or_ge p 2048 with h2 | h2
  · rw [decode_two h1 h2,encode_two h1 h2]
    rfl
  rcases Nat.lt_or_ge p 65536 with h3 | h3
  · rw [decode_three h2 h3,encode_three h2 h3]
    rfl
  · rw [decode_four h3 h,encode_four h3]
    rfl

theorem encode_ne_nil (p : Nat) : encode p ≠ [] := by
  rw [encode]
  split_ifs <;> exact List.cons_ne_nil _ _

theorem append_ne_nil (p : Nat) (rest : List UInt8) : encode p ++ rest ≠ [] :=
  List.append_ne_nil_of_left_ne_nil (encode_ne_nil p) rest

theorem drop_decoded (h : p < limit) :
    (encode p ++ rest).drop (decode16 (encode p ++ rest)).2 = rest := by
  rw [decode_encode h]
  exact List.drop_left

theorem not_half_of_lt (h : p < 55296) : ¬Half p := fun hp => absurd hp.1 (Nat.not_le.mpr h)

theorem not_half_of_ge (h : 57344 ≤ p) : ¬Half p := fun hp => absurd hp.2 (Nat.not_lt.mpr h)

def runesOf (p : Nat) : Nat := if Half p then 3 else 1

def correctionOf (p : Nat) : Int := if Half p then -2 else if 65536 ≤ p then 1 else 0

theorem runesOf_add_correctionOf (p : Nat) :
    (runesOf p : Int) + correctionOf p = (unitsOf p).length := by
  rw [runesOf,correctionOf,unitsOf_length]
  by_cases hp : Half p
  · have := hp.2
    rw [if_pos hp,if_pos hp,if_pos (by omega)]
    rfl
  · rw [if_neg hp,if_neg hp]
    split_ifs <;> omega

theorem decodeRune_stray {b : UInt8} {s : List UInt8} (h : 128 ≤ b.toNat) (h' : b.toNat < 192) :
    decodeRune (b :: s) = (runeError,1) := by
  rw [decodeRune,if_neg (List.cons_ne_nil b s),byte_zero,if_neg (by omega),if_pos (by omega)]

theorem runeCount_stray {b : UInt8} {s : List UInt8} (h : 128 ≤ b.toNat) (h' : b.toNat < 192) :
    runeCount (b :: s) = runeCount s + 1 := by
  rw [runeCount,dif_neg (List.cons_ne_nil b s),decodeRune_stray h h']
  rfl

theorem decodeRune_point (h : p < limit) (hp : ¬Half p) :
    decodeRune (encode p ++ rest) = decode16 (encode p ++ rest) := by
  rw [decode16,if_neg]
  rintro ⟨hlen,hhalf⟩
  have hpoint : decode16 (encode p ++ rest) = _ := if_pos ⟨hlen,hhalf⟩
  rw [decode_encode h] at hpoint
  have := (Prod.ext_iff.mp hpoint).1
  obtain ⟨h0,h1,h2,h3,h4⟩ := (half_iff).mp hhalf
  rw [h0] at this
  refine hp ⟨?_,?_⟩
  · omega
  · omega

theorem decodeRune_half (h : Half p) : decodeRune (encode p ++ rest) = (runeError,1) := by
  obtain ⟨hp,hp'⟩ := h
  have hv := encode_three (p := p) (by omega) (by omega)
  have h1 := toNat_byte (n := 128 + p / 64 % 64) (by omega)
  have h0 : byte (encode p ++ rest) 0 = 0xED := by
    rw [hv]
    exact (toNat_byte (by omega)).trans (by omega)
  have hb : byte (encode p ++ rest) 1 = 128 + p / 64 % 64 := by
    rw [hv]
    exact h1
  have hgreatest : greatestSecond 0xED = 0x9F := rfl
  rw [decodeRune,if_neg (append_ne_nil p rest),h0,hb,hgreatest,if_neg (by omega),if_neg (by omega),
    if_pos (by omega)]

theorem runeCount_encode (h : p < limit) :
    runeCount (encode p ++ rest) = runeCount rest + runesOf p := by
  by_cases hp : Half p
  · obtain ⟨hp,hp'⟩ := hp
    have hv := encode_three (p := p) (by omega) (by omega)
    have h1 := toNat_byte (n := 128 + p / 64 % 64) (by omega)
    have h2 := toNat_byte (n := 128 + p % 64) (by omega)
    rw [runeCount,dif_neg (append_ne_nil p rest),decodeRune_half ⟨hp,hp'⟩,hv,runesOf,if_pos ⟨hp,hp'⟩,
      List.cons_append,List.drop_succ_cons,List.drop_zero,List.cons_append,
      runeCount_stray (by omega) (by omega),List.cons_append,
      runeCount_stray (by omega) (by omega),List.nil_append]
  · have hdecode : decodeRune (encode p ++ rest) = decode16 (encode p ++ rest) := decodeRune_point h hp
    rw [runeCount,dif_neg (append_ne_nil p rest),hdecode,drop_decoded h,runesOf,if_neg hp]

theorem runeCount_bytes (h : ∀ p ∈ ps,p < limit) :
    runeCount (bytes ps) = (ps.map runesOf).sum := by
  induction ps with
  | nil => rw [bytes_nil,runeCount,dif_pos rfl,List.map_nil,List.sum_nil]
  | cons p ps ih =>
    obtain ⟨hp,hps⟩ := List.forall_mem_cons.mp h
    rw [bytes_cons,runeCount_encode hp,ih hps,List.map_cons,List.sum_cons,Nat.add_comm]

theorem corrections_half {n : Int} (hlen : 2 < v.length) (h : half v 0xa0 0xbf = true) :
    corrections n v = corrections (n - 2) (v.drop 3) := by
  have hlead : byte v 0 = 0xed := (half_iff.mp h).1
  rw [corrections,dif_neg (List.length_pos_iff.mp (by omega)),hlead]
  exact if_pos ⟨hlen,h⟩

theorem corrections_other {n : Int} (hne : v ≠ [])
    (h : ¬(2 < v.length ∧ half v 0xa0 0xbf = true)) :
    corrections n v = corrections (if 0xf0 ≤ byte v 0 then n + 1 else n) (v.drop 1) := by
  rw [corrections,dif_neg hne]
  exact if_neg h

theorem corrections_cons {n : Int} {b : UInt8} {s : List UInt8} (h : b.toNat ≠ 0xed) :
    corrections n (b :: s) = corrections (if 0xf0 ≤ b.toNat then n + 1 else n) s :=
  corrections_other (List.cons_ne_nil b s) fun hhalf => h (half_iff.mp hhalf.2).1

theorem corrections_small {n : Int} {b : UInt8} {s : List UInt8} (h : b.toNat < 0xed) :
    corrections n (b :: s) = corrections n s := by
  rw [corrections_cons h.ne,if_neg (by omega)]

theorem corrections_encode {n : Int} (h : p < limit) :
    corrections n (encode p ++ rest) = corrections (n + correctionOf p) rest := by
  have hlimit := limit_eq
  rw [correctionOf]
  rcases Nat.lt_or_ge p 128 with h1 | h1
  · have hb := toNat_byte (n := p) (by omega)
    rw [encode_one h1,List.singleton_append,corrections_small (by omega),
      if_neg (not_half_of_lt (by omega)),if_neg (by omega),Int.add_zero]
  rcases Nat.lt_or_ge p 2048 with h2 | h2
  · have hb := toNat_byte (n := 192 + p / 64) (by omega)
    have hc := toNat_byte (n := 128 + p % 64) (by omega)
    rw [encode_two h1 h2,List.cons_append,corrections_small (by omega),List.singleton_append,
      corrections_small (by omega),if_neg (not_half_of_lt (by omega)),if_neg (by omega),Int.add_zero]
  rcases Nat.lt_or_ge p 65536 with h3 | h3
  · have hb := toNat_byte (n := 224 + p / 4096) (by omega)
    have hc := toNat_byte (n := 128 + p / 64 % 64) (by omega)
    have hd := toNat_byte (n := 128 + p % 64) (by omega)
    rw [encode_three h2 h3,List.cons_append,List.cons_append,List.singleton_append]
    by_cases hp : Half p
    · rw [corrections_half (v := _ :: _ :: _ :: rest) (Nat.le_add_left 3 rest.length),if_pos hp]
      · rfl
      · obtain ⟨hp,hp'⟩ := hp
        rw [half_iff,byte_zero,byte_succ,byte_zero,byte_succ,byte_succ,byte_zero,hb,hc,hd]
        omega
    · rw [corrections_other (List.cons_ne_nil _ _),byte_zero,hb,if_neg hp,if_neg (by omega),
        if_neg (by omega),Int.add_zero,List.drop_succ_cons,List.drop_zero,
        corrections_small (by omega),corrections_small (by omega)]
      rintro ⟨_,hhalf⟩
      have := half_iff.mp hhalf
      rw [byte_zero,byte_succ,byte_zero,hb,hc] at this
      rw [Half] at hp
      omega
  · have hb := toNat_byte (n := 240 + p / 262144) (by omega)
    have hc := toNat_byte (n := 128 + p / 4096 % 64) (by omega)
    have hd := toNat_byte (n := 128 + p / 64 % 64) (by omega)
    have he := toNat_byte (n := 128 + p % 64) (by omega)
    rw [encode_four h3,List.cons_append,List.cons_append,List.cons_append,List.singleton_append,
      corrections_cons (by omega),hb,if_pos (by omega),corrections_small (by omega),
      corrections_small (by omega),corrections_small (by omega),if_neg (not_half_of_ge (by omega)),if_pos h3]

theorem corrections_bytes {n : Int} (h : ∀ p ∈ ps,p < limit) :
    corrections n (bytes ps) = n + (ps.map correctionOf).sum := by
  induction ps generalizing n with
  | nil => rw [bytes_nil,corrections,dif_pos rfl,List.map_nil,List.sum_nil,Int.add_zero]
  | cons p ps ih =>
    obtain ⟨hp,hps⟩ := List.forall_mem_cons.mp h
    rw [bytes_cons,corrections_encode hp,ih hps,List.map_cons,List.sum_cons,Int.add_assoc]

theorem count16_bytes (h : ∀ p ∈ ps,p < limit) : count16 (bytes ps) = (units ps).length := by
  rw [count16,corrections_bytes h,runeCount_bytes h]
  clear h
  induction ps with
  | nil => rfl
  | cons p ps ih =>
    have hp := runesOf_add_correctionOf p
    rw [List.map_cons,List.map_cons,List.sum_cons,List.sum_cons,units_cons,List.length_append]
    omega

theorem encodeRune_large (h : 65536 ≤ p) (h' : p < limit) : encodeRune p = (high p,low p) := by
  rw [encodeRune,if_neg (by omega)]

theorem unitsFrom_bytes (h : ∀ p ∈ ps,p < limit) : unitsFrom (bytes ps) = units ps := by
  induction ps with
  | nil => rw [bytes_nil,unitsFrom,dif_pos rfl,units_nil]
  | cons p ps ih =>
    obtain ⟨hp,hps⟩ := List.forall_mem_cons.mp h
    rw [bytes_cons,unitsFrom,dif_neg (append_ne_nil p _),drop_decoded hp,decode_encode hp,units_cons,ih hps]
    rcases Nat.lt_or_ge p 65536 with hsmall | hlarge
    · rw [unitsOf_small hsmall]
      exact if_neg (by omega)
    · rw [unitsOf_large hlarge]
      simp only [encodeRune_large hlarge hp]
      exact if_pos (by omega)

end OpenSteamgate.Text
