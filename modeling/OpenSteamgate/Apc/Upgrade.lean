import OpenSteamgate.Library.Utf8

namespace OpenSteamgate.Apc.Upgrade

open Utf8 (Partial Reads Boundary IsText decodeFrom first replacement)

abbrev Bytes := List UInt8

structure Decoder where
  need : Nat := 0
  seen : Nat := 0
  cp : Nat := 0
  lower : Nat := 0x80
  upper : Nat := 0xbf

-- what is no scalar value is written as U+FFFD
def writeRune (cp : Nat) : Bytes :=
  if cp < 0xd800 ∨ 0xdfff < cp ∧ cp < 0x110000 then Wtf8.encode cp else Wtf8.encode 0xfffd

def utf8DecodeFrom (d : Decoder) : Bytes → Bytes
  | [] => if d.need ≠ 0 then writeRune 0xfffd else []
  | c :: rest =>
    let n := c.toNat
    if d.need = 0 then
      if n ≤ 0x7f then c :: utf8DecodeFrom d rest
      else if 0xc2 ≤ n ∧ n ≤ 0xdf then utf8DecodeFrom {d with need := 1,cp := n &&& 0x1f} rest
      else if 0xe0 ≤ n ∧ n ≤ 0xef then
        utf8DecodeFrom
          {d with
            need := 2
            cp := n &&& 0x0f
            lower := if n = 0xe0 then 0xa0 else d.lower
            upper := if n ≠ 0xe0 ∧ n = 0xed then 0x9f else d.upper} rest
      else if 0xf0 ≤ n ∧ n ≤ 0xf4 then
        utf8DecodeFrom
          {d with
            need := 3
            cp := n &&& 0x07
            lower := if n = 0xf0 then 0x90 else d.lower
            upper := if n ≠ 0xf0 ∧ n = 0xf4 then 0x8f else d.upper} rest
      else writeRune 0xfffd ++ utf8DecodeFrom d rest
    -- `i--`: the byte is read again
    else if n < d.lower ∨ d.upper < n then writeRune 0xfffd ++ utf8DecodeFrom {} (c :: rest)
    else if d.seen + 1 = d.need then
      writeRune (d.cp <<< 6 ||| (n &&& 0x3f)) ++ utf8DecodeFrom {} rest
    else
      utf8DecodeFrom {need := d.need,seen := d.seen + 1,cp := d.cp <<< 6 ||| (n &&& 0x3f)} rest
termination_by bytes => 2 * bytes.length + if d.need = 0 then 0 else 1
decreasing_by
  all_goals
    simp only [List.length_cons]
    grind

def utf8Decode (b : Bytes) : Bytes := utf8DecodeFrom {} b

def unhex (c : UInt8) : Option UInt8 :=
  if 0x30 ≤ c.toNat ∧ c.toNat ≤ 0x39 then some (c - 0x30)
  else if 0x61 ≤ c.toNat ∧ c.toNat ≤ 0x66 then some (c - 0x61 + 10)
  else if 0x41 ≤ c.toNat ∧ c.toNat ≤ 0x46 then some (c - 0x41 + 10)
  else none

def hexPair : Bytes → Option UInt8
  | h :: l :: _ => do
    let h ← unhex h
    let l ← unhex l
    return h <<< 4 ||| l
  | _ => none

@[grind =] def unescape : Bytes → Bytes
  | [] => []
  | c :: rest =>
    if c = 0x2b then 0x20 :: unescape rest
    else
      match if c = 0x25 then hexPair rest else none with
      | some b => b :: unescape (rest.drop 2)
      | none => c :: unescape rest
termination_by s => s.length
decreasing_by
  all_goals
    simp only [List.length_cons,List.length_drop]
    omega

def formDecode (s : Bytes) : Bytes := utf8Decode (unescape s)

def cut (s : Bytes) (separator : UInt8) : Bytes × Bytes :=
  (s.takeWhile (· ≠ separator),(s.dropWhile (· ≠ separator)).drop 1)

-- an empty piece is skipped
def fieldOf (piece : Bytes) : Option (Bytes × Bytes) :=
  if piece = [] then none
  else some (formDecode (cut piece 0x3d).1,formDecode (cut piece 0x3d).2)

def formFields (rawQuery : Bytes) : List (Bytes × Bytes) :=
  (rawQuery.splitOn 0x26).filterMap fieldOf

section decoding

variable {d : Decoder} {p : Partial} {c : UInt8} {rest : Bytes} {n : Nat}

def Scalar (value wanted lower upper : Nat) : Prop :=
  (value * 64 + (upper - 0x80) + 1) * 64 ^ (wanted - 1) ≤ 0xd800 ∨
    0xe000 ≤ (value * 64 + (lower - 0x80)) * 64 ^ (wanted - 1) ∧
      (value * 64 + (upper - 0x80) + 1) * 64 ^ (wanted - 1) ≤ 0x110000

theorem Scalar.one {value lower upper : Nat} (h : Scalar value 1 lower upper) (hlow : 0x80 ≤ lower)
    {n : Nat} (hin : lower ≤ n ∧ n ≤ upper) :
    value * 64 + (n - 0x80) < 0xd800 ∨
      0xdfff < value * 64 + (n - 0x80) ∧ value * 64 + (n - 0x80) < 0x110000 := by
  simp only [Scalar,Nat.reduceSub,Nat.reducePow] at h
  omega

theorem Scalar.next {value wanted lower upper : Nat} (h : Scalar value wanted lower upper)
    (hwanted : wanted = 2 ∨ wanted = 3) (hlow : 0x80 ≤ lower) {n : Nat}
    (hin : lower ≤ n ∧ n ≤ upper) : Scalar (value * 64 + (n - 0x80)) (wanted - 1) 0x80 0xbf := by
  have hfrom : value * 64 + (lower - 0x80) ≤ value * 64 + (n - 0x80) := by omega
  have hto : value * 64 + (n - 0x80) ≤ value * 64 + (upper - 0x80) := by omega
  rw [Scalar] at h ⊢
  generalize value * 64 + (lower - 0x80) = l at h hfrom
  generalize value * 64 + (upper - 0x80) = u at h hto
  generalize value * 64 + (n - 0x80) = x at hfrom hto ⊢
  clear hin hlow
  rcases hwanted with rfl | rfl
  · simp only [Nat.reduceSub,Nat.reducePow] at h ⊢
    omega
  · simp only [Nat.reduceSub,Nat.reducePow] at h ⊢
    rcases h with h | ⟨h,h'⟩
    · exact .inl (by linarith)
    · exact .inr ⟨by linarith,by linarith⟩

structure Follows (d : Decoder) (p : Partial) : Prop where
  seen : d.seen < d.need
  wanted : p.wanted = d.need - d.seen
  value : p.value = d.cp
  lower : p.lower = d.lower
  upper : p.upper = d.upper
  bounds : 0x80 ≤ p.lower ∧ p.upper ≤ 0xbf ∧ p.wanted ≤ 3
  scalar : Scalar p.value p.wanted p.lower p.upper

theorem plain_bounds {v w : Nat} (h : w ≤ 3) : 0x80 ≤ (Partial.mk v w 0x80 0xbf).lower ∧
    (Partial.mk v w 0x80 0xbf).upper ≤ 0xbf ∧ (Partial.mk v w 0x80 0xbf).wanted ≤ 3 :=
  ⟨Nat.le_refl 0x80,Nat.le_refl 0xbf,h⟩

theorem writeRune_replacement : writeRune 0xfffd = Wtf8.encode replacement.toNat := by decide

theorem writeRune_scalar (h : n < 0xd800 ∨ 0xdfff < n ∧ n < 0x110000) :
    writeRune n = Wtf8.encode (Char.ofNat n).toNat := by
  rw [writeRune,if_pos h,Char.ofNat,dif_pos h]
  rfl

theorem and_mask (k : Nat) : n &&& (2 ^ k - 1) = n % 2 ^ k := Nat.and_two_pow_sub_one_eq_mod n k

theorem and_1f : n &&& 0x1f = n % 32 := and_mask 5

theorem and_0f : n &&& 0x0f = n % 16 := and_mask 4

theorem and_07 : n &&& 0x07 = n % 8 := and_mask 3

theorem and_3f : n &&& 0x3f = n % 64 := and_mask 6

theorem shifted (cp n : Nat) : cp <<< 6 ||| (n &&& 0x3f) = cp * 64 + n % 64 := by
  rw [and_3f,← Nat.shiftLeft_add_eq_or_of_lt (Nat.mod_lt n (by decide) : n % 64 < 2 ^ 6),Nat.shiftLeft_eq]

theorem start_cases (c : UInt8) (rest : Bytes) :
    (∃ ch,first c.toNat = .char ch ∧
      utf8DecodeFrom {} (c :: rest) = Wtf8.encode ch.toNat ++ utf8DecodeFrom {} rest) ∨
    ∃ p d,first c.toNat = .sequence p ∧
      utf8DecodeFrom {} (c :: rest) = utf8DecodeFrom d rest ∧ Follows d p := by
  have hlt := c.toNat_lt
  rw [utf8DecodeFrom]
  simp only [if_true]
  generalize hn : c.toNat = n at hlt
  have hc : c = UInt8.ofNat n := by rw [← hn,UInt8.ofNat_toNat]
  by_cases h1 : n ≤ 0x7f
  · refine .inl ⟨Char.ofNat n,?_,?_⟩
    · rw [first,if_pos (by omega)]
    · rw [if_pos h1,Utf8.toNat_valid (by omega),Wtf8.encode,if_pos (by omega),hc]
      rfl
  rw [if_neg h1]
  by_cases h2 : 0xc2 ≤ n ∧ n ≤ 0xdf
  · rw [if_pos h2,and_1f]
    refine .inr ⟨{value := n - 0xc0,wanted := 1},_,?_,rfl,?_⟩
    · rw [first,if_neg (by omega),if_neg (by omega),if_pos (by omega)]
    · refine ⟨show 0 < 1 by decide,rfl,show n - 0xc0 = n % 32 by omega,rfl,rfl,plain_bounds (by decide),?_⟩
      simp only [Scalar,Nat.reduceSub,Nat.reducePow]
      omega
  rw [if_neg h2]
  by_cases h3 : 0xe0 ≤ n ∧ n ≤ 0xef
  · rw [if_pos h3,and_0f]
    by_cases he0 : n = 0xe0
    · subst he0
      exact .inr ⟨_,_,rfl,rfl,by decide,rfl,rfl,rfl,rfl,by decide,by unfold Scalar; decide⟩
    by_cases hed : n = 0xed
    · subst hed
      exact .inr ⟨_,_,rfl,rfl,by decide,rfl,rfl,rfl,rfl,by decide,by unfold Scalar; decide⟩
    rw [if_neg he0,if_neg fun h => hed h.2]
    refine .inr ⟨{value := n - 0xe0,wanted := 2},_,?_,rfl,?_⟩
    · rw [first,if_neg (by omega),if_neg (by omega),if_neg (by omega),if_neg (by omega),
        if_neg (by omega),if_pos (by omega)]
    · refine ⟨show 0 < 2 by decide,rfl,show n - 0xe0 = n % 16 by omega,rfl,rfl,plain_bounds (by decide),?_⟩
      simp only [Scalar,Nat.reduceSub,Nat.reducePow]
      omega
  rw [if_neg h3]
  by_cases h4 : 0xf0 ≤ n ∧ n ≤ 0xf4
  · rw [if_pos h4,and_07]
    by_cases hf0 : n = 0xf0
    · subst hf0
      exact .inr ⟨_,_,rfl,rfl,by decide,rfl,rfl,rfl,rfl,by decide,by unfold Scalar; decide⟩
    by_cases hf4 : n = 0xf4
    · subst hf4
      exact .inr ⟨_,_,rfl,rfl,by decide,rfl,rfl,rfl,rfl,by decide,by unfold Scalar; decide⟩
    rw [if_neg hf0,if_neg fun h => hf4 h.2]
    refine .inr ⟨{value := n - 0xf0,wanted := 3},_,?_,rfl,?_⟩
    · rw [first,if_neg (by omega),if_neg (by omega),if_neg (by omega),if_neg (by omega),
        if_neg (by omega),if_neg (by omega),if_neg (by omega),if_pos (by omega)]
    · refine ⟨show 0 < 3 by decide,rfl,show n - 0xf0 = n % 8 by omega,rfl,rfl,plain_bounds (by decide),?_⟩
      simp only [Scalar,Nat.reduceSub,Nat.reducePow]
      omega
  · rw [if_neg h4,writeRune_replacement]
    refine .inl ⟨replacement,?_,rfl⟩
    rw [first,if_neg (by omega)]
    by_cases hlow : n < 0xc2
    · rw [if_pos hlow]
    · rw [if_neg hlow,if_neg (by omega),if_neg (by omega),if_neg (by omega),if_neg (by omega),
        if_neg (by omega),if_neg (by omega),if_neg (by omega)]

theorem byte_cases {d : Decoder} {p : Partial} (h : Follows d p) (c : UInt8) (rest : Bytes) :
    (¬(p.lower ≤ c.toNat ∧ c.toNat ≤ p.upper) ∧ utf8DecodeFrom d (c :: rest) =
        Wtf8.encode replacement.toNat ++ utf8DecodeFrom {} (c :: rest)) ∨
    ((p.lower ≤ c.toNat ∧ c.toNat ≤ p.upper) ∧ (p.wanted = 1 ∧ utf8DecodeFrom d (c :: rest) =
          Wtf8.encode (Char.ofNat (p.value * 64 + (c.toNat - 0x80))).toNat ++ utf8DecodeFrom {} rest ∨
      p.wanted ≠ 1 ∧ ∃ d',
        Follows d' {value := p.value * 64 + (c.toNat - 0x80),wanted := p.wanted - 1} ∧
          utf8DecodeFrom d (c :: rest) = utf8DecodeFrom d' rest)) := by
  obtain ⟨hseen,hwanted,hvalue,hlower,hupper,⟨hlow,hhigh,hfew⟩,hscalar⟩ := h
  by_cases hin : p.lower ≤ c.toNat ∧ c.toNat ≤ p.upper
  · refine .inr ⟨hin,?_⟩
    have hstep : d.cp * 64 + c.toNat % 64 = p.value * 64 + (c.toNat - 0x80) := by omega
    by_cases hone : p.wanted = 1
    · refine .inl ⟨hone,?_⟩
      rw [hone] at hscalar
      rw [utf8DecodeFrom,if_neg (by omega),if_neg (by omega),if_pos (by omega),shifted,hstep,
        writeRune_scalar (hscalar.one hlow hin)]
    · refine .inr ⟨hone,{need := d.need,seen := d.seen + 1,cp := p.value * 64 + (c.toNat - 0x80)},?_,?_⟩
      rotate_left
      · rw [utf8DecodeFrom,if_neg (by omega),if_neg (by omega),if_neg (by omega),shifted,hstep]
      · refine ⟨show d.seen + 1 < d.need by omega,show p.wanted - 1 = d.need - (d.seen + 1) by omega,rfl,
          rfl,rfl,plain_bounds (by omega),hscalar.next (by omega) hlow hin⟩
  · refine .inl ⟨hin,?_⟩
    rw [utf8DecodeFrom,if_neg (by omega),if_pos (by omega),writeRune_replacement]

theorem utf8DecodeFrom_eq (bytes : Bytes) :
    utf8DecodeFrom {} bytes = Utf8.encode (decodeFrom none bytes) ∧
    ∀ d p,Follows d p → utf8DecodeFrom d bytes = Utf8.encode (decodeFrom (some p) bytes) := by
  induction bytes with
  | nil =>
    constructor
    · rw [utf8DecodeFrom]
      rfl
    · intro d p h
      have := h.seen
      rw [utf8DecodeFrom,if_pos (by omega),writeRune_replacement]
      rfl
  | cons c rest ih =>
    obtain ⟨hnone,hsome⟩ := ih
    have hstart : utf8DecodeFrom {} (c :: rest) = Utf8.encode (decodeFrom none (c :: rest)) := by
      rw [decodeFrom]
      rcases start_cases c rest with ⟨ch,hfirst,hstep⟩ | ⟨p,d,hfirst,hstep,hd⟩
      · rw [hstep,hfirst,hnone]
        rfl
      · rw [hstep,hfirst]
        exact hsome d p hd
    refine ⟨hstart,fun d p h => ?_⟩
    rcases byte_cases h c rest with ⟨hout,hstep⟩ | ⟨hin,⟨hone,hstep⟩ | ⟨hmore,d',hd',hstep⟩⟩
    · rw [hstep,hstart,Utf8.decodeFrom_out hout]
      rfl
    · rw [hstep,hnone,Utf8.decodeFrom_done hin hone]
      rfl
    · rw [hstep,Utf8.decodeFrom_within hin hmore]
      exact hsome d' _ hd'

theorem utf8Decode_eq (bytes : Bytes) : utf8Decode bytes = Utf8.encode (Utf8.decode bytes) :=
  (utf8DecodeFrom_eq bytes).1

end decoding

section fields

inductive Spelt : Bytes → Bytes → Prop
  | nil : Spelt [] []
  | plain {b : UInt8} {text s : Bytes} (hb : b ≠ 0x26 ∧ b ≠ 0x3d ∧ b ≠ 0x2b ∧ b ≠ 0x25)
    (h : Spelt text s) : Spelt (b :: text) (b :: s)
  | plus {text s : Bytes} (h : Spelt text s) : Spelt (0x20 :: text) (0x2b :: s)
  | escaped {h l x y : UInt8} {text s : Bytes} (hh : unhex h = some x) (hl : unhex l = some y)
    (hs : Spelt text s) : Spelt ((x <<< 4 ||| y) :: text) (0x25 :: h :: l :: s)

inductive Pieces : List (Bytes × Bytes) → List Bytes → Prop
  | nil : Pieces [] []
  | empty {pairs : List (Bytes × Bytes)} {pieces : List Bytes} (h : Pieces pairs pieces) :
    Pieces pairs ([] :: pieces)
  | pair {name value s t : Bytes} {pairs : List (Bytes × Bytes)} {pieces : List Bytes}
    (hname : Spelt name s) (hvalue : Spelt value t) (h : Pieces pairs pieces) :
    Pieces ((name,value) :: pairs) ((s ++ 0x3d :: t) :: pieces)

def Serialised (pairs : List (Bytes × Bytes)) (rawQuery : Bytes) : Prop :=
  ∃ pieces,Pieces pairs pieces ∧ rawQuery = [0x26].intercalate pieces

variable {text s front rest : Bytes} {b c : UInt8}

theorem unhex_bounds {x : UInt8} (h : unhex c = some x) : c ≠ 0x26 ∧ c ≠ 0x3d ∧ c ≠ 0x25 := by
  refine ⟨?_,?_,?_⟩
  all_goals
    rintro rfl
    exact nomatch h

theorem unescape_plus (s : Bytes) : unescape (0x2b :: s) = 0x20 :: unescape s := by
  rw [unescape,if_pos rfl]

theorem unescape_pair {rest : Bytes} (h : hexPair rest = some b) :
    unescape (0x25 :: rest) = b :: unescape (rest.drop 2) := by
  rw [unescape,if_neg (by decide),if_pos rfl,h]

theorem unescape_percent (h : hexPair rest = none) :
    unescape (0x25 :: rest) = 0x25 :: unescape rest := by
  rw [unescape,if_neg (by decide),if_pos rfl,h]

theorem unescape_plain (hplus : b ≠ 0x2b) (hpercent : b ≠ 0x25) (s : Bytes) :
    unescape (b :: s) = b :: unescape s := by
  rw [unescape,if_neg hplus,if_neg hpercent]

theorem Spelt.unescape (h : Spelt text s) : unescape s = text := by
  induction h with
  | nil => rw [Upgrade.unescape]
  | plain hb _ ih => rw [unescape_plain hb.2.2.1 hb.2.2.2,ih]
  | plus _ ih => rw [unescape_plus,ih]
  | @escaped h l x y text s hh hl _ ih =>
    have hpair : hexPair (h :: l :: s) = some (x <<< 4 ||| y) := by
      rw [hexPair,hh,hl]
      rfl
    rw [unescape_pair hpair]
    exact congrArg _ ih

theorem Spelt.clean (h : Spelt text s) : 0x26 ∉ s ∧ 0x3d ∉ s := by
  induction h with
  | nil => exact ⟨List.not_mem_nil,List.not_mem_nil⟩
  | plain hb _ ih =>
    simp only [List.mem_cons,not_or]
    exact ⟨⟨hb.1.symm,ih.1⟩,hb.2.1.symm,ih.2⟩
  | plus _ ih =>
    simp only [List.mem_cons,not_or]
    exact ⟨⟨by decide,ih.1⟩,by decide,ih.2⟩
  | escaped hh hl _ ih =>
    simp only [List.mem_cons,not_or]
    exact ⟨⟨by decide,(unhex_bounds hh).1.symm,(unhex_bounds hl).1.symm,ih.1⟩,
      by decide,(unhex_bounds hh).2.1.symm,(unhex_bounds hl).2.1.symm,ih.2⟩

theorem cut_eq {t : Bytes} (h : 0x3d ∉ s) : cut (s ++ 0x3d :: t) 0x3d = (s,t) := by
  have hs : ∀ b ∈ s,decide (b ≠ 0x3d) = true := fun b hb => decide_eq_true fun heq => h (heq ▸ hb)
  rw [cut,List.takeWhile_append_of_pos hs,List.dropWhile_append_of_pos hs]
  exact congrArg (fun front => (front,t)) (List.append_nil s)

theorem unescape_append (front : Bytes) (h : hexPair rest = none) :
    unescape (front ++ 0x25 :: rest) = unescape front ++ 0x25 :: unescape rest := by
  induction hsize : front.length using Nat.strong_induction_on generalizing front with
  | _ size ih =>
    match front,hsize with
    | [],_ => rw [List.nil_append,unescape_percent h,unescape,List.nil_append]
    | c :: front,hsize =>
      have hshort : front.length < size := hsize ▸ Nat.lt_succ_self _
      rw [List.cons_append]
      by_cases hplus : c = 0x2b
      · rw [hplus,unescape_plus,unescape_plus,ih _ hshort front rfl,List.cons_append]
      by_cases hpercent : c = 0x25
      · subst hpercent
        have hpair : hexPair (front ++ 0x25 :: rest) = hexPair front := by
          match front with
          | [] =>
            cases rest with
            | nil => rfl
            | cons d rest => rfl
          | [d] =>
            rw [List.singleton_append,hexPair]
            cases unhex d with
            | none => rfl
            | some x => rfl
          | d :: e :: front => rfl
        cases hfront : hexPair front with
        | none =>
          rw [unescape_percent (hpair.trans hfront),unescape_percent hfront,ih _ hshort front rfl,
            List.cons_append]
        | some b =>
          match front,hfront,hshort with
          | d :: e :: front,hfront,hshort =>
            have hshorter : front.length < size :=
              Nat.lt_trans (Nat.lt_succ_of_lt (Nat.lt_succ_self _)) hshort
            rw [unescape_pair (hpair.trans hfront),unescape_pair hfront,List.cons_append]
            exact congrArg (b :: ·) (ih _ hshorter front rfl)
      · rw [unescape_plain hplus hpercent,unescape_plain hplus hpercent,ih _ hshort front rfl,
          List.cons_append]

theorem utf8Decode_isText {bytes : Bytes} (h : IsText bytes) : utf8Decode bytes = bytes := by
  obtain ⟨text,rfl⟩ := h.encode
  rw [utf8Decode_eq,Utf8.decode_encode]

theorem Spelt.formDecode (h : Spelt text s) (htext : IsText text) : formDecode s = text := by
  rw [Upgrade.formDecode,h.unescape,utf8Decode_isText htext]

theorem formDecode_percent (front : Bytes) (h : hexPair rest = none) :
    formDecode (front ++ 0x25 :: rest) = formDecode front ++ 0x25 :: formDecode rest := by
  have hascii := Utf8.decode_ascii (b := 0x25) (by decide) (unescape front) (unescape rest)
  rw [formDecode,unescape_append front h,utf8Decode_eq]
  rw [show (0x25 : UInt8) = UInt8.ofNat 0x25 from rfl,hascii,Utf8.encode_append,Utf8.encode_cons,
    ← utf8Decode_eq,← utf8Decode_eq]
  rfl

theorem Pieces.clean {pairs : List (Bytes × Bytes)} {pieces : List Bytes} (h : Pieces pairs pieces) :
    ∀ piece ∈ pieces,0x26 ∉ piece := by
  induction h with
  | nil => exact nofun
  | empty _ ih =>
    intro piece hpiece
    rcases List.mem_cons.mp hpiece with rfl | hpiece
    · exact List.not_mem_nil
    · exact ih piece hpiece
  | @pair name value s t pairs pieces hname hvalue _ ih =>
    intro piece hpiece
    rcases List.mem_cons.mp hpiece with rfl | hpiece
    · simp only [List.mem_append,List.mem_cons,not_or]
      exact ⟨hname.clean.1,by decide,hvalue.clean.1⟩
    · exact ih piece hpiece

theorem Pieces.fields {pairs : List (Bytes × Bytes)} {pieces : List Bytes} (h : Pieces pairs pieces)
    (htexts : ∀ p ∈ pairs,IsText p.1 ∧ IsText p.2) :
    pieces.filterMap fieldOf = pairs := by
  induction h with
  | nil => rfl
  | empty _ ih =>
    have hpiece : fieldOf [] = none := if_pos rfl
    rw [List.filterMap_cons_none hpiece]
    exact ih htexts
  | @pair name value s t pairs pieces hname hvalue _ ih =>
    obtain ⟨hnametext,hvaluetext⟩ := htexts _ List.mem_cons_self
    have hpiece : fieldOf (s ++ 0x3d :: t) = some (name,value) := by
      rw [fieldOf,if_neg (by simp),cut_eq hname.clean.2,hname.formDecode hnametext,
        hvalue.formDecode hvaluetext]
    rw [List.filterMap_cons_some hpiece,ih fun p hp => htexts p (List.mem_cons_of_mem _ hp)]

theorem formFields_serialised {pairs : List (Bytes × Bytes)} {rawQuery : Bytes}
    (h : Serialised pairs rawQuery) (htexts : ∀ p ∈ pairs,IsText p.1 ∧ IsText p.2) :
    formFields rawQuery = pairs := by
  obtain ⟨pieces,hpieces,rfl⟩ := h
  cases pieces with
  | nil =>
    cases hpieces
    rfl
  | cons piece pieces =>
    rw [formFields,List.splitOn_intercalate 0x26 hpieces.clean (List.cons_ne_nil _ _)]
    exact hpieces.fields htexts

end fields

theorem query_fields_read :
    (∀ bytes,Reads bytes (utf8Decode bytes) ∧ (∀ out,Reads bytes out → out = utf8Decode bytes) ∧
      IsText (utf8Decode bytes) ∧ (IsText bytes → utf8Decode bytes = bytes)) ∧
    (∀ front back,Boundary back front →
      utf8Decode (front ++ back) = utf8Decode front ++ utf8Decode back) ∧
    (∀ pairs rawQuery,(∀ p ∈ pairs,IsText p.1 ∧ IsText p.2) → Serialised pairs rawQuery →
      formFields rawQuery = pairs) ∧
    ∀ front rest,hexPair rest = none →
      formDecode (front ++ 0x25 :: rest) = formDecode front ++ 0x25 :: formDecode rest := by
  refine ⟨fun bytes => ⟨Utf8.reads_iff.mpr (utf8Decode_eq bytes),fun out h => ?_,?_,utf8Decode_isText⟩,
    fun front back h => ?_,fun _ _ htexts h => formFields_serialised h htexts,
    fun front _ h => formDecode_percent front h⟩
  · rw [h.eq,utf8Decode_eq]
  · rw [utf8Decode_eq]
    exact Utf8.isText_encode _
  · rw [utf8Decode_eq,utf8Decode_eq,utf8Decode_eq,Utf8.decode_boundary h,Utf8.encode_append]

end OpenSteamgate.Apc.Upgrade
