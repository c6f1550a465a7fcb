import OpenSteamgate.Arith.Conversions
import OpenSteamgate.Library.Lexeme
import OpenSteamgate.Library.Quoted

namespace OpenSteamgate.Tpl

open Decimal

open Lexeme (strlen strlen_append strlen_plain)

abbrev Text := List Char

inductive Fixed
  | char
  | numc
  | clnt
  | lang
  | cuky
  | unit
  | accp
  | dats
  | tims
  deriving DecidableEq

inductive Whole
  | int1
  | int2
  | int4
  | int8
  deriving DecidableEq

inductive BuiltIn
  | fixed (k : Fixed)
  | strg
  | sstr
  | int (k : Whole)
  | dec
  | curr
  | quan
  | raw

def builtIns : List (String × BuiltIn) :=
  [("CHAR",.fixed .char),("NUMC",.fixed .numc),("CLNT",.fixed .clnt),("LANG",.fixed .lang),
    ("CUKY",.fixed .cuky),("UNIT",.fixed .unit),("ACCP",.fixed .accp),("DATS",.fixed .dats),
    ("TIMS",.fixed .tims),("STRG",.strg),("SSTR",.sstr),("INT1",.int .int1),("INT2",.int .int2),
    ("INT4",.int .int4),("INT8",.int .int8),("DEC",.dec),("CURR",.curr),("QUAN",.quan),("RAW",.raw)]

inductive NodeType
  | string
  | number
  | boolean
  | null
  | object
  | array
  deriving DecidableEq

structure TypeNode where
  builtIn : String
  length : Option ℤ
  decimals : Option ℤ

structure Node where
  path : String
  kind : NodeType
  type : Option TypeNode

def digits (t : Text) : Bool := t.all Char.isDigit

def unsigned (t : Text) : Text := if t.head? = some '-' then t.drop 1 else t

def isInteger (t : Text) : Bool := unsigned t ≠ [] && digits (unsigned t)

def integerPart (t : Text) : Text := t.takeWhile (· ≠ '.')

def fractionPart (t : Text) : Text := (t.dropWhile (· ≠ '.')).drop 1

def isDecimal (t : Text) : Bool :=
  let u := unsigned t
  integerPart u ≠ [] && digits (integerPart u) && digits (fractionPart u) &&
    ('.' ∉ u || fractionPart u ≠ [])

def stripZeros : Text → Text
  | [] => []
  | c :: t => if c = '0' ∧ t ≠ [] then stripZeros t else c :: t

def fixedForm (k : Fixed) (length : ℤ) (t : Text) : Text × Option String :=
  (Quoted.wrap '\'' t,
    if length < strlen t then some "exceeds length"
    else if k = .numc ∧ (t = [] ∨ digits t = false) then some "needs digits"
    else if k = .dats ∧ (strlen t ≠ 8 ∨ digits t = false) then some "needs 8 digits"
    else if k = .tims ∧ (strlen t ≠ 6 ∨ digits t = false) then some "needs 6 digits"
    else none)

def stringForm (short : Bool) (length : Option ℤ) (t : Text) : Text × Option String :=
  (Quoted.wrap '`' t,
    if short = true ∧ length ≠ none ∧ length.getD 0 < strlen t then some "exceeds length" else none)

def limit (neg : Bool) : Whole → Text
  | .int1 => "255".toList
  | .int2 => if neg then "32768".toList else "32767".toList
  | .int4 => if neg then "2147483648".toList else "2147483647".toList
  | .int8 => if neg then "9223372036854775808".toList else "9223372036854775807".toList

def above (ds limit : Text) : Bool :=
  limit.length < ds.length || ds.length == limit.length && decide (limit < ds)

def integerForm (k : Whole) (t : Text) : Text × Option String :=
  if isInteger t = false then (t,some "needs an integer in range")
  else
    let neg := t.head? == some '-'
    let ds := stripZeros (unsigned t)
    let minus := neg && ds != ['0']
    (if minus then '-' :: ds else ds,
      if k = .int1 ∧ minus = true ∨ above ds (limit neg k) = true then
        some "needs an integer in range"
      else none)

def decimalForm (length decimals : ℤ) (t : Text) : Text × Option String :=
  ('\'' :: (t ++ ['\'']),
    if isDecimal t = false then some "needs a decimal number"
    else
      let ds := stripZeros (integerPart (unsigned t))
      let ip := if ds = ['0'] then [] else ds
      if decimals < (fractionPart (unsigned t)).length ∨ length - decimals < ip.length then
        some "exceeds precision"
      else none)

def isHex (c : Char) : Bool := c ∈ "0123456789abcdefABCDEF".toList

def rawForm (length : ℤ) (t : Text) : Text × Option String :=
  ('\'' :: (t.map Char.toUpper ++ ['\'']),
    if strlen t % 2 ≠ 0 ∨ length < (strlen t / 2 : ℕ) ∨ t.all isHex = false then
      some "needs even hex within length"
    else none)

def form (b : BuiltIn) (type : TypeNode) (t : Text) : Text × Option String :=
  match b with
  | .fixed k => fixedForm k (type.length.getD 0) t
  | .strg => stringForm false type.length t
  | .sstr => stringForm true type.length t
  | .int k => integerForm k t
  | .dec | .curr | .quan => decimalForm (type.length.getD 0) (type.decimals.getD 0) t
  | .raw => rawForm (type.length.getD 0) t

def broken (t : Text) : Bool := t.any fun c => c == '\n' || c == '\r'

def finish (place name : String) (t : Text) : Text × Option String → Except String Text
  | (_,some error) => .error (place ++ ": literal " ++ name ++ " " ++ error)
  | (out,none) =>
    if out.head? = some '\'' ∨ out.head? = some '`' then
      if broken t then
        .error (place ++ ": literal " ++ name ++ " cannot be one ABAP literal: it has a line break")
      else if strlen out - 2 > 255 then
        .error (place ++ ": literal " ++ name ++
          " cannot be one ABAP literal: longer than 255 characters")
      else .ok out
    else .ok out

def literal (place name : String) (node : Node) (checkOnly : Bool) (t : Text) : Except String Text :=
  match node.type with
  | none => .error (place ++ ": literal needs " ++ name ++ "@type")
  | some type =>
    if node.path = "" then .error (place ++ ": literal needs " ++ name ++ "@type")
    else
      match builtIns.lookup type.builtIn with
      | none => .error (place ++ ": literal does not know " ++ type.builtIn)
      | some b =>
        if checkOnly then .ok t
        else if node.kind ≠ .string ∧ node.kind ≠ .number then
          .error (place ++ ": literal " ++ name ++ " needs a text or a number")
        else finish place name t (form b type t)

inductive Value
  | chars (t : Text)
  | string (t : Text)
  | number (n : ℤ)

def readQuoted (q : Char) : Text → Option Text
  | [] => none
  | [c] => if c = q then some [] else none
  | c :: d :: t =>
    if c = q then if d = q then (readQuoted q t).map (q :: ·) else none
    else if c = '\n' ∨ c = '\r' then none
    else (readQuoted q (d :: t)).map (c :: ·)

def readDelimited (q : Char) (t : Text) : Option Text :=
  if strlen t - 1 ≤ 255 then readQuoted q t else none

def readNumber (t : Text) : Option ℕ :=
  if t ≠ [] ∧ digits t = true ∧ t.length ≤ 31 then some (numeral t) else none

def readLiteral : Text → Option Value
  | [] => none
  | c :: t =>
    if c = '\'' then
      (readDelimited '\'' t).map fun u => .chars (if u = [] then [' '] else u)
    else if c = '`' then (readDelimited '`' t).map .string
    else if c = '-' then (readNumber t).map fun n => .number (-n)
    else (readNumber (c :: t)).map fun n => .number n

def hexValue (c : Char) : ℕ :=
  if c.isDigit then c.toNat - '0'.toNat else c.toUpper.toNat - 'A'.toNat + 10

def hexBytes (t : Text) : List ℕ := hexPairs (t.takeWhile isHex)
where
  hexPairs : Text → List ℕ
    | a :: b :: t => (16 * hexValue a + hexValue b) :: hexPairs t
    | _ => []

def integerOf (neg : Bool) (ds : Text) : ℤ := if neg then -(numeral ds : ℤ) else numeral ds

def lowest : Whole → ℤ
  | .int1 => 0
  | .int2 => -2 ^ 15
  | .int4 => -2 ^ 31
  | .int8 => -2 ^ 63

def highest : Whole → ℤ
  | .int1 => 2 ^ 8 - 1
  | .int2 => 2 ^ 15 - 1
  | .int4 => 2 ^ 31 - 1
  | .int8 => 2 ^ 63 - 1

structure Number (t : Text) (neg : Bool) (ip fp : Text) : Prop where
  text : t = sign neg ++ ip ++ if fp = [] then [] else '.' :: fp
  nonempty : ip ≠ []
  integer : Digits ip
  fraction : Digits fp

def Fits (b : BuiltIn) (type : TypeNode) (t : Text) : Prop :=
  match b with
  | .fixed k => strlen t ≤ type.length.getD 0 ∧ (k = .numc → t ≠ [] ∧ Digits t) ∧
      (k = .dats → strlen t = 8 ∧ Digits t) ∧ (k = .tims → strlen t = 6 ∧ Digits t)
  | .strg => True
  | .sstr => ∀ length, type.length = some length → strlen t ≤ length
  | .int k => ∃ neg ip, Number t neg ip [] ∧ lowest k ≤ integerOf neg ip ∧ integerOf neg ip ≤ highest k
  | .dec | .curr | .quan => ∃ neg ip fp, Number t neg ip fp ∧ fp.length ≤ type.decimals.getD 0 ∧
      ∃ k : ℕ, k = type.length.getD 0 - type.decimals.getD 0 ∧ numeral ip < 10 ^ k
  | .raw => (∀ c ∈ t, isHex c = true) ∧ strlen t % 2 = 0 ∧ (strlen t / 2 : ℕ) ≤ type.length.getD 0

def Writable (b : BuiltIn) (t : Text) : Prop :=
  match b with
  | .int _ => True
  | .strg | .sstr => broken t = false ∧ strlen (Quoted.double '`' t) ≤ 255
  | _ => broken t = false ∧ strlen (Quoted.double '\'' t) ≤ 255

def Denotes (b : BuiltIn) (t : Text) (v : Value) : Prop :=
  match b with
  | .fixed _ => v = .chars (if t = [] then [' '] else t)
  | .strg | .sstr => v = .string t
  | .int _ => ∃ neg ip, Number t neg ip [] ∧ v = .number (integerOf neg ip)
  | .dec | .curr | .quan => v = .chars t
  | .raw => ∃ u, v = .chars u ∧ hexBytes u = hexBytes t

section quoting

variable {q : Char} {t : Text}

theorem readQuoted_other {c : Char} (hq : c ≠ q) (hline : c ≠ '\n' ∧ c ≠ '\r') (ht : t ≠ []) :
    readQuoted q (c :: t) = (readQuoted q t).map (c :: ·) := by
  cases t with
  | nil => exact absurd rfl ht
  | cons d t =>
    rw [readQuoted,if_neg hq,if_neg]
    rintro (h | h)
    · exact hline.1 h
    · exact hline.2 h

theorem readQuoted_double (hline : broken t = false) :
    readQuoted q (Quoted.double q t ++ [q]) = some t := by
  induction t with
  | nil => exact if_pos rfl
  | cons c t ih =>
    rw [broken,List.any_cons,Bool.or_eq_false_iff] at hline
    have hc : c ≠ '\n' ∧ c ≠ '\r' := by simpa using hline.1
    by_cases hq : c = q
    · rw [hq,Quoted.double_quote,List.cons_append,List.cons_append,readQuoted,if_pos rfl,if_pos rfl,
        ih hline.2]
      rfl
    · rw [Quoted.double_other hq,List.cons_append,readQuoted_other hq hc (by simp),ih hline.2]
      rfl

theorem readDelimited_double (hq : strlen [q] = 1) (hline : broken t = false)
    (hlength : strlen (Quoted.double q t) ≤ 255) :
    readDelimited q (Quoted.double q t ++ [q]) = some t := by
  have hclosed : strlen (Quoted.double q t ++ [q]) - 1 ≤ 255 := by
    rw [strlen_append,hq]
    omega
  rw [readDelimited,if_pos hclosed,readQuoted_double hline]

theorem strlen_around (hq : strlen [q] = 1) : strlen (q :: (t ++ [q])) = strlen t + 2 := by
  rw [← List.singleton_append,strlen_append,strlen_append,hq]
  omega

theorem double_eq (h : q ∉ t) : Quoted.double q t = t := by
  induction t with
  | nil => rfl
  | cons c t ih =>
    have hc : c ≠ q := Ne.symm (List.ne_of_not_mem_cons h)
    rw [Quoted.double_other hc,ih (List.not_mem_of_not_mem_cons h)]

theorem finish_ok {place name : String} {out : Text} {error : Option String} {u : Text}
    (hout : out.head? = some '\'' ∨ out.head? = some '`') :
    finish place name t (out,error) = .ok u ↔
      u = out ∧ error = none ∧ broken t = false ∧ strlen out ≤ 257 := by
  cases error with
  | some e => simp [finish]
  | none =>
    rw [finish,if_pos hout]
    split
    · rename_i hline
      simp [hline]
    · rename_i hline
      have hline : broken t = false := by simpa using hline
      split
      · simp [hline]
        omega
      · simp only [hline,true_and,Except.ok.injEq]
        constructor
        · intro h
          exact ⟨h.symm,by omega⟩
        · intro h
          exact h.1.symm

end quoting

section numbers

variable {t limit : Text}

theorem stripZeros_eq (h : t ≠ []) : stripZeros t =
    if t.dropWhile (· == '0') = [] then ['0'] else t.dropWhile (· == '0') := by
  induction t with
  | nil => exact absurd rfl h
  | cons c t ih =>
    rw [stripZeros]
    by_cases hc : c = '0'
    · rw [List.dropWhile_cons_of_pos (by simpa using hc)]
      by_cases ht : t = []
      · rw [if_neg fun h => h.2 ht,ht,hc]
        rfl
      · rw [if_pos ⟨hc,ht⟩,ih ht]
    · rw [if_neg fun h => hc h.1,List.dropWhile_cons_of_neg (by simpa using hc),if_neg (List.cons_ne_nil _ _)]

theorem numeral_strip (h : t ≠ []) : numeral (stripZeros t) = numeral t := by
  rw [stripZeros_eq h]
  split
  · rename_i hnil
    rw [← Packed.numeral_dropZeros t,hnil]
    rfl
  · exact Packed.numeral_dropZeros t

theorem digits_strip (h : t ≠ []) (ht : Digits t) : Digits (stripZeros t) := by
  rw [stripZeros_eq h]
  split
  · intro c hc
    rw [List.mem_singleton.mp hc]
    rfl
  · exact fun c hc => ht c ((List.dropWhile_suffix _).subset hc)

theorem strip_ne_nil (h : t ≠ []) : stripZeros t ≠ [] := by
  rw [stripZeros_eq h]
  split
  · exact List.cons_ne_nil _ _
  · assumption

theorem length_strip {k : ℕ} (h : t ≠ []) (ht : Digits t) (hk : k ≠ 0) :
    k < (stripZeros t).length ↔ 10 ^ k ≤ numeral t := by
  rw [← Packed.length_dropZeros ht,stripZeros_eq h]
  split
  · rename_i hnil
    rw [hnil,List.length_singleton,List.length_nil]
    omega
  · rfl

theorem strip_zero (h : t ≠ []) (ht : Digits t) : stripZeros t = ['0'] ↔ numeral t = 0 := by
  constructor
  · intro hzero
    rw [← numeral_strip h,hzero]
    rfl
  · intro hzero
    have hlength := Packed.length_dropZeros (k := 0) ht
    rw [stripZeros_eq h,if_pos]
    rw [← List.length_eq_zero_iff]
    rw [hzero] at hlength
    omega

theorem above_iff (h : t ≠ []) (ht : Digits t) (hlimit : Digits limit) (hne : limit ≠ [])
    (hlead : 10 ^ (limit.length - 1) ≤ numeral limit) :
    above (stripZeros t) limit = true ↔ numeral limit < numeral t := by
  have hpos := List.length_pos_iff_ne_nil.mpr hne
  have hlarge := length_strip h ht (Nat.pos_iff_ne_zero.mp hpos)
  have hbelow := Decimal.numeral_lt hlimit
  have hstrip := Decimal.numeral_lt (digits_strip h ht)
  rw [numeral_strip h] at hstrip
  rw [above,Bool.or_eq_true,Bool.and_eq_true,beq_iff_eq,decide_eq_true_eq,decide_eq_true_eq]
  rcases Nat.lt_trichotomy limit.length (stripZeros t).length with hlt | heq | hgt
  · have := hlarge.mp hlt
    exact iff_of_true (.inl hlt) (by omega)
  · have hnot : ¬limit.length < (stripZeros t).length := by omega
    rw [Decimal.lt_iff_numeral hlimit (digits_strip h ht) heq,numeral_strip h]
    exact ⟨fun hor => (hor.resolve_left hnot).2,fun hlt => .inr ⟨heq.symm,hlt⟩⟩
  · have hpow : 10 ^ (stripZeros t).length ≤ 10 ^ (limit.length - 1) :=
      Nat.pow_le_pow_right (by decide) (by omega)
    exact iff_of_false (by omega) (by omega)

end numbers

section forms

variable {t ip fp : Text} {neg : Bool}

theorem digits_iff : digits t = true ↔ Digits t := List.all_eq_true

theorem head_digit (h : Digits t) : t.head? ≠ some '-' := by
  intro hhead
  cases t with
  | nil => cases hhead
  | cons c t =>
    rw [Option.some.inj hhead] at h
    exact absurd (h '-' List.mem_cons_self) (by decide)

theorem unsigned_sign (h : t.head? ≠ some '-') : unsigned (sign neg ++ t) = t := by
  cases neg with
  | false => exact if_neg h
  | true => rfl

theorem sign_unsigned (t : Text) : t = sign (t.head? == some '-') ++ unsigned t := by
  unfold unsigned
  cases t with
  | nil => rfl
  | cons c t =>
    by_cases hc : c = '-'
    · rw [hc]
      rfl
    · simp [sign,hc]

theorem head_sign (h : t.head? ≠ some '-') : ((sign neg ++ t).head? == some '-') = neg := by
  cases neg with
  | false => simpa [sign] using h
  | true => rfl

theorem Number.head (h : Number t neg ip fp) :
    (t.head? == some '-') = neg ∧ unsigned t = ip ++ if fp = [] then [] else '.' :: fp := by
  have hip : (ip ++ if fp = [] then [] else '.' :: fp).head? ≠ some '-' := by
    rw [List.head?_append_of_ne_nil _ h.nonempty]
    exact head_digit h.integer
  rw [h.text,List.append_assoc]
  exact ⟨head_sign hip,unsigned_sign hip⟩

theorem isInteger_iff : isInteger t = true ↔ ∃ neg ip,Number t neg ip [] := by
  constructor
  · intro h
    rw [isInteger,Bool.and_eq_true,decide_eq_true_eq,digits_iff] at h
    refine ⟨t.head? == some '-',unsigned t,?_,h.1,h.2,by simp [Digits]⟩
    rw [if_pos rfl,List.append_nil]
    exact sign_unsigned t
  · rintro ⟨neg,ip,h⟩
    have hunsigned := h.head.2
    rw [if_pos rfl,List.append_nil] at hunsigned
    rw [isInteger,Bool.and_eq_true,decide_eq_true_eq,digits_iff,hunsigned]
    exact ⟨h.nonempty,h.integer⟩

theorem cut_number (h : Digits ip) :
    integerPart (ip ++ if fp = [] then [] else '.' :: fp) = ip ∧
      fractionPart (ip ++ if fp = [] then [] else '.' :: fp) = fp := by
  have hall : ∀ c ∈ ip,decide (c ≠ '.') = true := by
    intro c hc
    rw [decide_eq_true_eq]
    rintro rfl
    exact absurd (h '.' hc) (by decide)
  unfold integerPart fractionPart
  rw [List.takeWhile_append_of_pos hall,List.dropWhile_append_of_pos hall]
  split
  · rename_i hnil
    rw [hnil]
    exact ⟨List.append_nil _,rfl⟩
  · exact ⟨List.append_nil _,rfl⟩

theorem cut_eq (h : '.' ∉ t ∨ fractionPart t ≠ []) :
    t = integerPart t ++ if fractionPart t = [] then [] else '.' :: fractionPart t := by
  unfold integerPart fractionPart at *
  have hcut := (List.takeWhile_append_dropWhile (p := (· ≠ '.')) (l := t)).symm
  cases hdrop : t.dropWhile (· ≠ '.') with
  | nil =>
    rw [hdrop] at hcut
    exact hcut
  | cons c rest =>
    have hc : c = '.' := by
      have hhead := List.head?_dropWhile_not (· ≠ '.') t
      rw [hdrop] at hhead
      simpa using hhead
    rw [hdrop] at hcut h
    rw [List.drop_succ_cons,List.drop_zero] at h ⊢
    rw [hc] at hcut
    rw [if_neg]
    · exact hcut
    · refine h.resolve_left fun hnot => hnot ?_
      rw [hcut]
      exact List.mem_append_right _ List.mem_cons_self

theorem isDecimal_iff : isDecimal t = true ↔ ∃ neg ip fp,Number t neg ip fp := by
  constructor
  · intro h
    unfold isDecimal at h
    simp only [Bool.and_eq_true,Bool.or_eq_true,decide_eq_true_eq,digits_iff] at h
    obtain ⟨⟨⟨hne,hip⟩,hfp⟩,hpoint⟩ := h
    refine ⟨t.head? == some '-',integerPart (unsigned t),fractionPart (unsigned t),?_,hne,hip,hfp⟩
    rw [List.append_assoc]
    conv_lhs => rw [sign_unsigned t]
    exact congrArg (sign (t.head? == some '-') ++ ·) (cut_eq hpoint)
  · rintro ⟨neg,ip,fp,h⟩
    obtain ⟨hip,hfp⟩ := @cut_number ip fp h.integer
    unfold isDecimal
    simp only [Bool.and_eq_true,Bool.or_eq_true,decide_eq_true_eq,digits_iff,h.head.2,hip,hfp]
    refine ⟨⟨⟨h.nonempty,h.integer⟩,h.fraction⟩,?_⟩
    by_cases hnil : fp = []
    · left
      rw [if_pos hnil,List.append_nil]
      exact h.integer.not_mem rfl
    · exact .inr hnil

theorem fixedForm_none {k : Fixed} {length : ℤ} : (fixedForm k length t).2 = none ↔
    strlen t ≤ length ∧ (k = .numc → t ≠ [] ∧ Digits t) ∧
      (k = .dats → strlen t = 8 ∧ Digits t) ∧ (k = .tims → strlen t = 6 ∧ Digits t) := by
  unfold fixedForm
  rw [← digits_iff]
  by_cases hlength : length < strlen t
  · simp [hlength]
  · rw [if_neg hlength]
    have hle : (strlen t : ℤ) ≤ length := by omega
    cases k with
    | numc => simp [hle]
    | dats => simp [hle]
    | tims => simp [hle]
    | _ => simp [hle]

theorem stringForm_none {short : Bool} {length : Option ℤ} : (stringForm short length t).2 = none ↔
    (short = true → ∀ n,length = some n → strlen t ≤ n) := by
  unfold stringForm
  cases short with
  | false => simp
  | true =>
    cases length with
    | none => simp
    | some n => simp

theorem limit_facts (neg : Bool) (k : Whole) : Digits (limit neg k) ∧ limit neg k ≠ [] ∧
    10 ^ ((limit neg k).length - 1) ≤ numeral (limit neg k) ∧ (limit neg k).length ≤ 19 := by
  rw [← digits_iff]
  cases neg with
  | false =>
    cases k with
    | int1 => decide
    | int2 => decide
    | int4 => decide
    | int8 => decide
  | true =>
    cases k with
    | int1 => decide
    | int2 => decide
    | int4 => decide
    | int8 => decide

theorem limit_range (h : Digits ip) (hne : ip ≠ []) (k : Whole) :
    ¬(k = .int1 ∧ (neg && stripZeros ip != ['0']) = true ∨
      above (stripZeros ip) (limit neg k) = true) ↔
    lowest k ≤ integerOf neg ip ∧ integerOf neg ip ≤ highest k := by
  obtain ⟨hdigits,hlimit,hlead,-⟩ := limit_facts neg k
  rw [above_iff hne h hdigits hlimit hlead,Bool.and_eq_true,bne_iff_ne,ne_eq,strip_zero hne h]
  have h1 (neg : Bool) : numeral (limit neg .int1) = 255 := rfl
  have h2 : numeral (limit false .int2) = 32767 ∧ numeral (limit true .int2) = 32768 := ⟨rfl,rfl⟩
  have h4 : numeral (limit false .int4) = 2147483647 ∧ numeral (limit true .int4) = 2147483648 :=
    ⟨rfl,rfl⟩
  have h8 : numeral (limit false .int8) = 9223372036854775807 ∧
      numeral (limit true .int8) = 9223372036854775808 := ⟨rfl,rfl⟩
  cases k with
  | int1 =>
    rw [h1]
    cases neg with
    | false => simp [integerOf,lowest,highest]
    | true => simp [integerOf,lowest,highest]; omega
  | int2 =>
    cases neg with
    | false => rw [h2.1]; simp [integerOf,lowest,highest]
    | true => rw [h2.2]; simp [integerOf,lowest,highest]
  | int4 =>
    cases neg with
    | false => rw [h4.1]; simp [integerOf,lowest,highest]
    | true => rw [h4.2]; simp [integerOf,lowest,highest]
  | int8 =>
    cases neg with
    | false => rw [h8.1]; simp [integerOf,lowest,highest]
    | true => rw [h8.2]; simp [integerOf,lowest,highest]

theorem integerForm_number (h : Number t neg ip []) (k : Whole) : integerForm k t =
    (if neg && stripZeros ip != ['0'] then '-' :: stripZeros ip else stripZeros ip,
      if k = .int1 ∧ (neg && stripZeros ip != ['0']) = true ∨
          above (stripZeros ip) (limit neg k) = true then
        some "needs an integer in range"
      else none) := by
  have hinteger : isInteger t = true := (isInteger_iff).mpr ⟨neg,ip,h⟩
  obtain ⟨hhead,hunsigned⟩ := h.head
  rw [if_pos rfl,List.append_nil] at hunsigned
  unfold integerForm
  rw [if_neg (by simp [hinteger]),hhead,hunsigned]

theorem integerForm_none {k : Whole} : (integerForm k t).2 = none ↔ ∃ neg ip,Number t neg ip [] ∧
    lowest k ≤ integerOf neg ip ∧ integerOf neg ip ≤ highest k := by
  constructor
  · intro h
    by_cases hinteger : isInteger t = true
    · obtain ⟨neg,ip,hnumber⟩ := (isInteger_iff).mp hinteger
      rw [integerForm_number hnumber] at h
      refine ⟨neg,ip,hnumber,(limit_range hnumber.integer hnumber.nonempty k).mp fun hor => ?_⟩
      rw [if_pos hor] at h
      cases h
    · unfold integerForm at h
      rw [if_pos (by simpa using hinteger)] at h
      cases h
  · rintro ⟨neg,ip,hnumber,hrange⟩
    rw [integerForm_number hnumber]
    exact if_neg ((limit_range hnumber.integer hnumber.nonempty k).mpr hrange)

theorem length_lead {k : ℕ} (hne : ip ≠ []) (h : Digits ip) :
    k < (if stripZeros ip = ['0'] then [] else stripZeros ip).length ↔ 10 ^ k ≤ numeral ip := by
  rw [← Packed.length_dropZeros h]
  have hzero := Packed.length_dropZeros (k := 0) h
  rw [pow_zero] at hzero
  by_cases hnumeral : numeral ip = 0
  · rw [if_pos ((strip_zero hne h).mpr hnumeral),List.length_nil]
    omega
  · have hdrop : ip.dropWhile (· == '0') ≠ [] := by
      rw [← List.length_pos_iff_ne_nil,hzero]
      omega
    rw [if_neg fun hstrip => hnumeral ((strip_zero hne h).mp hstrip),stripZeros_eq hne,if_neg hdrop]

theorem decimalForm_number {length decimals : ℤ} (h : Number t neg ip fp) :
    (decimalForm length decimals t).2 = none ↔ fp.length ≤ decimals ∧
      ∃ k : ℕ,k = length - decimals ∧ numeral ip < 10 ^ k := by
  have hdecimal : isDecimal t = true := (isDecimal_iff).mpr ⟨neg,ip,fp,h⟩
  obtain ⟨hip,hfp⟩ := @cut_number ip fp h.integer
  unfold decimalForm
  dsimp only
  rw [if_neg (by simp [hdecimal]),h.head.2,hip,hfp]
  constructor
  · intro hnone
    by_cases hor : decimals < fp.length ∨
        length - decimals < (if stripZeros ip = ['0'] then [] else stripZeros ip).length
    · rw [if_pos hor] at hnone
      cases hnone
    · obtain ⟨k,hk⟩ := Int.eq_ofNat_of_zero_le (a := length - decimals) (by omega)
      refine ⟨by omega,k,hk.symm,?_⟩
      rw [← Nat.not_le,← length_lead h.nonempty h.integer]
      omega
  · rintro ⟨hfraction,k,hk,hinteger⟩
    rw [← Nat.not_le,← length_lead h.nonempty h.integer] at hinteger
    exact if_neg (by omega)

theorem decimalForm_none {length decimals : ℤ} : (decimalForm length decimals t).2 = none ↔
    ∃ neg ip fp,Number t neg ip fp ∧ fp.length ≤ decimals ∧
      ∃ k : ℕ,k = length - decimals ∧ numeral ip < 10 ^ k := by
  constructor
  · intro h
    by_cases hdecimal : isDecimal t = true
    · obtain ⟨neg,ip,fp,hnumber⟩ := (isDecimal_iff).mp hdecimal
      exact ⟨neg,ip,fp,hnumber,(decimalForm_number hnumber).mp h⟩
    · unfold decimalForm at h
      dsimp only at h
      rw [if_pos (by simpa using hdecimal)] at h
      cases h
  · rintro ⟨neg,ip,fp,hnumber,hfits⟩
    exact (decimalForm_number hnumber).mpr hfits

theorem rawForm_none {length : ℤ} : (rawForm length t).2 = none ↔
    (∀ c ∈ t,isHex c = true) ∧ strlen t % 2 = 0 ∧ (strlen t / 2 : ℕ) ≤ length := by
  rw [← List.all_eq_true]
  unfold rawForm
  dsimp only
  constructor
  · intro h
    split at h
    · cases h
    · rename_i hor
      rw [not_or,not_or,not_not,Bool.not_eq_false] at hor
      exact ⟨hor.2.2,hor.1,by omega⟩
  · rintro ⟨hhex,heven,hlength⟩
    rw [if_neg]
    rw [not_or,not_or,not_not,Bool.not_eq_false]
    exact ⟨heven,by omega,hhex⟩

theorem Number.not_quote (h : Number t neg ip fp) : '\'' ∉ t := by
  have hsign : '\'' ∉ sign neg := by
    cases neg with
    | false => decide
    | true => decide
  have hip := h.integer.not_mem (c := '\'') rfl
  have hfp := h.fraction.not_mem (c := '\'') rfl
  rw [h.text,List.mem_append,List.mem_append]
  split
  · simp [hsign,hip]
  · simp [hsign,hip,hfp]

theorem hex_not_quote (h : ∀ c ∈ t,isHex c = true) : '\'' ∉ t := fun hmem =>
  absurd (h _ hmem) (by decide)

end forms

section upper

variable {t : Text}

theorem isHex_upper {c : Char} (h : isHex c = true) :
    isHex c.toUpper = true ∧ hexValue c.toUpper = hexValue c ∧ c.toUpper ≠ '\'' := by
  rw [isHex,decide_eq_true_eq] at h
  change c ∈ ['0','1','2','3','4','5','6','7','8','9','a','b','c','d','e','f','A','B','C','D','E','F'] at h
  simp only [List.mem_cons,List.not_mem_nil,or_false] at h
  rcases h with h | h | h | h | h | h | h | h | h | h | h | h | h | h | h | h | h | h | h | h | h | h
  all_goals
    rw [h]
    decide

theorem hexPairs_upper (h : ∀ c ∈ t,isHex c = true) :
    hexBytes.hexPairs (t.map Char.toUpper) = hexBytes.hexPairs t := by
  induction t using List.twoStepInduction with
  | nil => rfl
  | singleton a => rfl
  | cons_cons a b t ih _ =>
    rw [List.map_cons,List.map_cons,hexBytes.hexPairs,hexBytes.hexPairs,
      (isHex_upper (h a (by simp))).2.1,(isHex_upper (h b (by simp))).2.1,ih fun c hc => h c (by simp [hc])]

theorem hexBytes_upper (h : ∀ c ∈ t,isHex c = true) :
    hexBytes (t.map Char.toUpper) = hexBytes t := by
  have hupper : ∀ c ∈ t.map Char.toUpper,isHex c = true := by
    intro c hc
    obtain ⟨d,hd,rfl⟩ := List.mem_map.mp hc
    exact (isHex_upper (h d hd)).1
  unfold hexBytes
  rw [List.takeWhile_eq_self_iff.mpr hupper,List.takeWhile_eq_self_iff.mpr h,hexPairs_upper h]

end upper

section exactness

variable {place name : String} {b : BuiltIn} {type : TypeNode} {t : Text}

structure Exact (place name : String) (b : BuiltIn) (type : TypeNode) (t : Text)
    (r : Text × Option String) : Prop where
  sound : ∀ out, finish place name t r = .ok out →
    Fits b type t ∧ Writable b t ∧ ∃ v, readLiteral out = some v ∧ Denotes b t v
  complete : Fits b type t → Writable b t → ∃ out, finish place name t r = .ok out

theorem Exact.delimited {out : Text} {error : Option String}
    (hout : out.head? = some '\'' ∨ out.head? = some '`') (hnone : error = none ↔ Fits b type t)
    (hwritable : Fits b type t → (Writable b t ↔ broken t = false ∧ strlen out ≤ 257))
    (hread : Fits b type t → Writable b t → ∃ v,readLiteral out = some v ∧ Denotes b t v) :
    Exact place name b type t (out,error) where
  sound u hu := by
    obtain ⟨rfl,herror,hsize⟩ := (finish_ok hout).mp hu
    have hfits := hnone.mp herror
    have hwrite := (hwritable hfits).mpr hsize
    exact ⟨hfits,hwrite,hread hfits hwrite⟩
  complete hfits hwrite :=
    ⟨out,(finish_ok hout).mpr ⟨rfl,hnone.mpr hfits,(hwritable hfits).mp hwrite⟩⟩

theorem wrap_length {q : Char} (hq : strlen [q] = 1) :
    strlen (Quoted.wrap q t) ≤ 257 ↔ strlen (Quoted.double q t) ≤ 255 := by
  rw [Quoted.wrap,strlen_around hq]
  omega

theorem exact_fixed (k : Fixed) :
    Exact place name (.fixed k) type t (form (.fixed k) type t) := by
  refine Exact.delimited (.inl rfl) fixedForm_none (fun _ => ?_) fun _ hwrite => ?_
  · exact and_congr_right fun _ => (wrap_length rfl).symm
  · refine ⟨.chars (if t = [] then [' '] else t),?_,rfl⟩
    rw [Quoted.wrap,readLiteral,if_pos rfl,readDelimited_double rfl hwrite.1 hwrite.2]
    rfl

theorem exact_string {short : Bool} (hb : b = .strg ∧ short = false ∨ b = .sstr ∧ short = true) :
    Exact place name b type t (stringForm short type.length t) := by
  have hwritable : Writable b t ↔ broken t = false ∧ strlen (Quoted.double '`' t) ≤ 255 := by
    rcases hb with ⟨rfl,-⟩ | ⟨rfl,-⟩
    · rfl
    · rfl
  have hfits : (stringForm short type.length t).2 = none ↔ Fits b type t := by
    rw [stringForm_none]
    rcases hb with ⟨rfl,rfl⟩ | ⟨rfl,rfl⟩
    · simp [Fits]
    · simp [Fits]
  refine Exact.delimited (.inr rfl) hfits (fun _ => ?_) fun _ hwrite => ?_
  · rw [hwritable]
    exact and_congr_right fun _ => (wrap_length rfl).symm
  · rw [hwritable] at hwrite
    refine ⟨.string t,?_,?_⟩
    · rw [Quoted.wrap,readLiteral,if_neg (by decide),if_pos rfl,readDelimited_double rfl hwrite.1 hwrite.2]
      rfl
    · rcases hb with ⟨rfl,-⟩ | ⟨rfl,-⟩
      · rfl
      · rfl

theorem exact_decimal (hb : b = .dec ∨ b = .curr ∨ b = .quan) : Exact place name b type t
    (decimalForm (type.length.getD 0) (type.decimals.getD 0) t) := by
  have hwritable : Writable b t ↔ broken t = false ∧ strlen (Quoted.double '\'' t) ≤ 255 := by
    rcases hb with rfl | rfl | rfl
    · rfl
    · rfl
    · rfl
  have hfits : (decimalForm (type.length.getD 0) (type.decimals.getD 0) t).2 = none ↔
      Fits b type t := by
    rw [decimalForm_none]
    rcases hb with rfl | rfl | rfl
    · rfl
    · rfl
    · rfl
  have hdouble (h : Fits b type t) : Quoted.double '\'' t = t := by
    obtain ⟨_,_,_,hnumber,-⟩ := (decimalForm_none).mp (hfits.mpr h)
    exact double_eq hnumber.not_quote
  refine Exact.delimited (.inl rfl) hfits (fun h => ?_) fun h hwrite => ?_
  · rw [hwritable,hdouble h,strlen_around rfl]
    exact and_congr_right fun _ => by omega
  · rw [hwritable] at hwrite
    have hread := readDelimited_double rfl hwrite.1 hwrite.2
    rw [hdouble h] at hread
    have hne : t ≠ [] := by
      obtain ⟨neg,ip,fp,hnumber,-⟩ := (decimalForm_none).mp (hfits.mpr h)
      rw [hnumber.text]
      simp [hnumber.nonempty]
    refine ⟨.chars t,?_,?_⟩
    · rw [readLiteral,if_pos rfl,hread,Option.map_some,if_neg hne]
    · rcases hb with rfl | rfl | rfl
      · rfl
      · rfl
      · rfl

theorem upper_unbroken (h : ∀ c ∈ t,isHex c = true) : broken (t.map Char.toUpper) = false ∧
    '\'' ∉ t.map Char.toUpper := by
  have hupper : ∀ c ∈ t.map Char.toUpper,isHex c = true := by
    intro c hc
    obtain ⟨d,hd,rfl⟩ := List.mem_map.mp hc
    exact (isHex_upper (h d hd)).1
  refine ⟨?_,hex_not_quote hupper⟩
  rw [broken,List.any_eq_false]
  intro c hc hline
  rw [Bool.or_eq_true,beq_iff_eq,beq_iff_eq] at hline
  have hhex := hupper c hc
  rcases hline with rfl | rfl
  · exact absurd hhex (by decide)
  · exact absurd hhex (by decide)

theorem strlen_upper (h : ∀ c ∈ t,isHex c = true) : strlen (t.map Char.toUpper) = strlen t := by
  have hplain : ∀ c,isHex c = true → c.toNat < 65536 := by
    intro c hc
    have hall : ∀ c ∈ "0123456789abcdefABCDEF".toList,c.toNat < 65536 := by simp
    rw [isHex,decide_eq_true_eq] at hc
    exact hall c hc
  rw [strlen_plain fun c hc => hplain c (h c hc),strlen_plain fun c hc => ?_,List.length_map]
  obtain ⟨d,hd,rfl⟩ := List.mem_map.mp hc
  exact hplain _ (isHex_upper (h d hd)).1

theorem exact_raw : Exact place name .raw type t (form .raw type t) := by
  refine Exact.delimited (.inl rfl) rawForm_none (fun h => ?_) fun h hwrite => ?_
  · rw [strlen_around rfl,strlen_upper h.1]
    change broken t = false ∧ strlen (Quoted.double '\'' t) ≤ 255 ↔ _
    rw [double_eq (hex_not_quote h.1)]
    exact and_congr_right fun _ => by omega
  · change broken t = false ∧ strlen (Quoted.double '\'' t) ≤ 255 at hwrite
    rw [double_eq (hex_not_quote h.1)] at hwrite
    obtain ⟨hline,hquote⟩ := upper_unbroken h.1
    have hread := readDelimited_double (q := '\'') rfl hline (by
      rw [double_eq hquote,strlen_upper h.1]
      exact hwrite.2)
    rw [double_eq hquote] at hread
    refine ⟨.chars (if t.map Char.toUpper = [] then [' '] else t.map Char.toUpper),?_,_,rfl,?_⟩
    · rw [readLiteral,if_pos rfl,hread]
      rfl
    · split
      · rename_i hnil
        rw [List.map_eq_nil_iff.mp hnil]
        rfl
      · exact hexBytes_upper h.1

theorem readNumber_digits {ds : Text} (hne : ds ≠ []) (h : Digits ds) (hlength : ds.length ≤ 31) :
    readLiteral ds = some (.number (numeral ds)) ∧
      readLiteral ('-' :: ds) = some (.number (-numeral ds)) := by
  have hread : readNumber ds = some (numeral ds) := if_pos ⟨hne,digits_iff.mpr h,hlength⟩
  constructor
  · cases ds with
    | nil => exact absurd rfl hne
    | cons c t =>
      have hc (d : Char) (hd : d.isDigit = false) : c ≠ d := by
        rintro rfl
        exact h.not_mem hd List.mem_cons_self
      rw [readLiteral,if_neg (hc '\'' rfl),if_neg (hc '`' rfl),if_neg (hc '-' rfl),hread]
      rfl
  · rw [readLiteral,if_neg (by decide),if_neg (by decide),if_pos rfl,hread]
    rfl

theorem readLiteral_integer {neg : Bool} {ip : Text} (hne : ip ≠ []) (h : Digits ip)
    (hlength : (stripZeros ip).length ≤ 31) :
    readLiteral (if neg && stripZeros ip != ['0'] then '-' :: stripZeros ip else stripZeros ip) =
      some (.number (integerOf neg ip)) := by
  obtain ⟨hplus,hminus⟩ := readNumber_digits (strip_ne_nil hne) (digits_strip hne h) hlength
  rw [numeral_strip hne] at hplus hminus
  cases neg with
  | false => exact hplus
  | true =>
    by_cases hzero : stripZeros ip = ['0']
    · have hnumeral := (strip_zero hne h).mp hzero
      rw [if_neg (by simp [hzero]),hplus,integerOf,if_pos rfl,hnumeral]
      rfl
    · rw [if_pos (by simp [hzero]),hminus]
      rfl

theorem length_ranged {neg : Bool} {ip : Text} {k : Whole} (hne : ip ≠ []) (h : Digits ip)
    (hrange : lowest k ≤ integerOf neg ip ∧ integerOf neg ip ≤ highest k) :
    (stripZeros ip).length ≤ 19 := by
  obtain ⟨hdigits,hlimit,hlead,hsize⟩ := limit_facts neg k
  have habove := (not_or.mp ((limit_range h hne k).mpr hrange)).2
  rw [above_iff hne h hdigits hlimit hlead] at habove
  have hbelow := Decimal.numeral_lt hdigits
  have hpow := Nat.pow_le_pow_right (show 0 < 10 by decide) hsize
  have hlength := length_strip (k := 19) hne h (by decide)
  omega

theorem finish_plain {out : Text} (h : out.head? ≠ some '\'' ∧ out.head? ≠ some '`') :
    finish place name t (out,none) = .ok out := by
  rw [finish,if_neg]
  rintro (hhead | hhead)
  · exact h.1 hhead
  · exact h.2 hhead

theorem head_integer {neg : Bool} {ds : Text} (h : Digits ds) (q : Char)
    (hq : q.isDigit = false) (hminus : q ≠ '-') :
    (if neg then '-' :: ds else ds).head? ≠ some q := by
  intro hhead
  split at hhead
  · exact hminus (Option.some.inj hhead).symm
  · exact h.not_mem hq (List.mem_of_mem_head? hhead)

theorem exact_integer (k : Whole) : Exact place name (.int k) type t (form (.int k) type t) := by
  have hform (hfits : Fits (.int k) type t) : ∃ out,form (.int k) type t = (out,none) ∧
      finish place name t (out,none) = .ok out ∧ ∃ v,readLiteral out = some v ∧ Denotes (.int k) t v := by
    obtain ⟨neg,ip,hnumber,hrange⟩ := hfits
    have hds := digits_strip hnumber.nonempty hnumber.integer
    have hne := strip_ne_nil hnumber.nonempty
    have hnone := (limit_range hnumber.integer hnumber.nonempty k).mpr hrange
    have hlength := length_ranged hnumber.nonempty hnumber.integer hrange
    refine ⟨if neg && stripZeros ip != ['0'] then '-' :: stripZeros ip else stripZeros ip,?_,?_,
      .number (integerOf neg ip),?_,neg,ip,hnumber,rfl⟩
    · change integerForm k t = _
      rw [integerForm_number hnumber,if_neg hnone]
    · exact finish_plain ⟨head_integer hds _ rfl (by decide),head_integer hds _ rfl (by decide)⟩
    · exact readLiteral_integer hnumber.nonempty hnumber.integer (by omega)
  constructor
  · intro u hu
    have hfits : Fits (.int k) type t := by
      refine integerForm_none.mp ?_
      change finish place name t (integerForm k t) = _ at hu
      generalize integerForm k t = r at hu ⊢
      obtain ⟨out,error⟩ := r
      cases error with
      | none => rfl
      | some e => cases hu
    obtain ⟨out,hout,hfinish,hread⟩ := hform hfits
    rw [hout,hfinish] at hu
    cases hu
    exact ⟨hfits,trivial,hread⟩
  · intro hfits _
    obtain ⟨out,hout,hfinish,-⟩ := hform hfits
    exact ⟨out,by rw [hout,hfinish]⟩

theorem exact_form (place name : String) (b : BuiltIn) (type : TypeNode) (t : Text) :
    Exact place name b type t (form b type t) := by
  cases b with
  | fixed k => exact exact_fixed k
  | strg => exact exact_string (.inl ⟨rfl,rfl⟩)
  | sstr => exact exact_string (.inr ⟨rfl,rfl⟩)
  | int k => exact exact_integer k
  | dec => exact exact_decimal (.inl rfl)
  | curr => exact exact_decimal (.inr (.inl rfl))
  | quan => exact exact_decimal (.inr (.inr rfl))
  | raw => exact exact_raw

theorem literal_exact {node : Node} (hpath : node.path ≠ "") (htype : node.type = some type)
    (hbuiltIn : builtIns.lookup type.builtIn = some b)
    (hkind : node.kind = .string ∨ node.kind = .number) (t : Text) :
    (∀ out, literal place name node false t = .ok out → ∃ v, readLiteral out = some v ∧ Denotes b t v) ∧
      ((∃ e, literal place name node false t = .error e) ↔ ¬(Fits b type t ∧ Writable b t)) := by
  have hliteral : literal place name node false t = finish place name t (form b type t) := by
    have hkind' : ¬(node.kind ≠ .string ∧ node.kind ≠ .number) := by
      rintro ⟨hs,hn⟩
      exact hkind.elim hs hn
    simp [literal,htype,hpath,hbuiltIn,hkind']
  have hexact := exact_form place name b type t
  rw [hliteral]
  refine ⟨fun out hout => (hexact.sound out hout).2.2,?_⟩
  constructor
  · rintro ⟨e,he⟩ ⟨hfits,hwrite⟩
    obtain ⟨out,hout⟩ := hexact.complete hfits hwrite
    rw [hout] at he
    cases he
  · intro hnot
    cases hfinish : finish place name t (form b type t) with
    | error e => exact ⟨e,rfl⟩
    | ok out =>
      obtain ⟨hfits,hwrite,-⟩ := hexact.sound out hfinish
      exact absurd ⟨hfits,hwrite⟩ hnot

def titleNode : Node := ⟨"/title",.string,some ⟨"CHAR",some 10,none⟩⟩

theorem literal_exact_quote :
    literal "line 1" "title" titleNode false "it's".toList = .ok "'it''s'".toList ∧
      ∃ v, readLiteral "'it''s'".toList = some v ∧ Denotes (.fixed .char) "it's".toList v :=
  ⟨rfl,(@literal_exact "line 1" "title" (.fixed .char) ⟨"CHAR",some 10,none⟩ titleNode (by decide)
    rfl rfl (.inl rfl) "it's".toList).1 _ rfl⟩

end exactness

end OpenSteamgate.Tpl
