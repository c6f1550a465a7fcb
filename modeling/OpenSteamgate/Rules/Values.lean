import OpenSteamgate.Library.Calendar
import OpenSteamgate.Library.Lexeme
import OpenSteamgate.Library.Padding

namespace OpenSteamgate.Rules

open JsText (trim)
open Decimal (intText)

abbrev Text := List Char

inductive BuiltIn
  | DATS | TIMS | NUMC | INT1 | INT2 | INT4 | INT8 | DEC | CURR | QUAN | other
  deriving DecidableEq

structure DdicType where
  builtIn : BuiltIn
  length : Option ℕ := none
  decimals : Option ℕ := none

inductive Thrown
  | syntaxError

inductive Kind
  | int | dec | digits | char
  deriving DecidableEq

def kindOf (type : DdicType) : Kind :=
  match type.builtIn with
  | .INT1 | .INT2 | .INT4 | .INT8 => .int
  | .DEC | .CURR | .QUAN => .dec
  | .DATS | .TIMS | .NUMC => .digits
  | .other => .char

def INT_RANGE : BuiltIn → ℤ × ℤ
  | .INT1 => (0,255)
  | .INT2 => (-32768,32767)
  | .INT4 => (-2147483648,2147483647)
  | _ => (-9223372036854775808,9223372036854775807)

def isOrdered (type : DdicType) : Bool := kindOf type != .char

def digitValue (c : Char) : Option ℕ :=
  if c.isDigit then some (c.toNat - 48)
  else if 97 ≤ c.toNat ∧ c.toNat ≤ 122 then some (c.toNat - 87)
  else if 65 ≤ c.toNat ∧ c.toNat ≤ 90 then some (c.toNat - 55)
  else none

def inBaseFrom (base : ℕ) : ℕ → Text → Option ℕ
  | n,[] => some n
  | n,c :: t => (digitValue c).bind fun v => if v < base then inBaseFrom base (base * n + v) t else none

def inBase (base : ℕ) (t : Text) : Option ℕ := if t = [] then none else inBaseFrom base 0 t

def bigIntOf : Text → Option ℤ
  | [] => some 0
  | '-' :: t => (inBase 10 t).map fun n => -(n : ℤ)
  | '+' :: t => (inBase 10 t).map fun n => (n : ℤ)
  | '0' :: 'x' :: t => (inBase 16 t).map fun n => (n : ℤ)
  | '0' :: 'X' :: t => (inBase 16 t).map fun n => (n : ℤ)
  | '0' :: 'o' :: t => (inBase 8 t).map fun n => (n : ℤ)
  | '0' :: 'O' :: t => (inBase 8 t).map fun n => (n : ℤ)
  | '0' :: 'b' :: t => (inBase 2 t).map fun n => (n : ℤ)
  | '0' :: 'B' :: t => (inBase 2 t).map fun n => (n : ℤ)
  | t => (inBase 10 t).map fun n => (n : ℤ)

def bigInt (text : Text) : Except Thrown ℤ :=
  match bigIntOf (trim text) with
  | some n => .ok n
  | none => .error .syntaxError

def padStart (length : ℕ) (text : Text) : Text := List.replicate (length - Lexeme.strlen text) '0' ++ text

def padEnd (length : ℕ) (text : Text) : Text := text ++ List.replicate (length - text.length) '0'

def scaled (text : Text) (decimals : ℕ) : Except Thrown ℤ :=
  let negative := text.head? = some '-'
  let parts := (if negative then text.drop 1 else text).splitOn '.'
  let whole := parts.head?.getD []
  let fraction := parts[1]?.getD []
  (bigInt (whole ++ (padEnd decimals fraction).take decimals)).map fun n => if negative then -n else n

def formatDecimal (n : ℤ) (decimals : ℕ) : Text :=
  let digits := padStart (decimals + 1) (Nat.toDigits 10 n.natAbs)
  let text :=
    if 0 < decimals then digits.take (digits.length - decimals) ++ '.' :: digits.drop (digits.length - decimals)
    else digits
  if n < 0 then '-' :: text else text

def canonical (type : DdicType) (text : Text) : Except Thrown Text :=
  match kindOf type with
  | .int => (bigInt text).map intText
  | .dec => (scaled text (type.decimals.getD 0)).map fun n => formatDecimal n (type.decimals.getD 0)
  | _ =>
    if type.builtIn = .NUMC ∧ text.all Char.isDigit then .ok (padStart (type.length.getD 1) text)
    else .ok text

def sign {α : Type} [LT α] [DecidableLT α] (a b : α) : ℤ := if a < b then -1 else if b < a then 1 else 0

def codeUnits (text : Text) : List ℕ := (Lexeme.utf16 text).map UInt16.toNat

def withoutBlanks (text : Text) : Text := text.rdropWhile (· = ' ')

def compareValues (typeA : DdicType) (a : Text) (typeB : DdicType) (b : Text) : Except Thrown ℤ :=
  match kindOf typeA with
  | .int => bigInt a >>= fun x => (bigInt b).map fun y => sign x y
  | .dec =>
    let decimals := max (typeA.decimals.getD 0) (typeB.decimals.getD 0)
    scaled a decimals >>= fun x => (scaled b decimals).map fun y => sign x y
  | kind =>
    if kind = .digits ∧ typeA.builtIn = .NUMC then
      let length := max (typeA.length.getD 0) (typeB.length.getD 0)
      .ok (sign (codeUnits (padStart length a)) (codeUnits (padStart length b)))
    else .ok (sign (codeUnits (withoutBlanks a)) (codeUnits (withoutBlanks b)))

def daysFromCivil (y m d : ℤ) : ℤ :=
  let y := y - (if m ≤ 2 then 1 else 0)
  let era := y / 400
  let yoe := y - era * 400
  let doy := (153 * (m + (if 2 < m then -3 else 9)) + 2) / 5 + d - 1
  let doe := yoe * 365 + yoe / 4 - yoe / 100 + doy
  era * 146097 + doe - 719468

def civilFromDays (z : ℤ) : ℤ × ℤ × ℤ :=
  let z := z + 719468
  let era := z / 146097
  let doe := z - era * 146097
  let yoe := (doe - doe / 1460 + doe / 36524 - doe / 146096) / 365
  let y := yoe + era * 400
  let doy := doe - (365 * yoe + yoe / 4 - yoe / 100)
  let mp := (5 * doy + 2) / 153
  let d := doy - (153 * mp + 2) / 5 + 1
  let m := mp + (if mp < 10 then 3 else -9)
  (y + (if m ≤ 2 then 1 else 0),m,d)

def number (text : Text) (start stop : ℕ) : ℤ := Decimal.numeral ((text.take stop).drop start)

def dateText (date : ℤ × ℤ × ℤ) : Text :=
  padStart 4 (intText date.1) ++ padStart 2 (intText date.2.1) ++ padStart 2 (intText date.2.2)

def shiftDate (text : Text) (dir : ℤ) : Option Text :=
  if ¬(text.length = 8 ∧ text.all Char.isDigit) then none
  else
    let y := number text 0 4
    let m := number text 4 6
    let d := number text 6 8
    if y < 1 ∨ m < 1 ∨ 12 < m ∨ d < 1 then none
    else if civilFromDays (daysFromCivil y m d) ≠ (y,m,d) then none
    else
      let date := civilFromDays (daysFromCivil y m d + dir)
      if date.1 < 1 ∨ 9999 < date.1 then none else some (dateText date)

def timeText (total : ℤ) : Text :=
  padStart 2 (intText (total / 3600)) ++ padStart 2 (intText (total / 60 % 60)) ++
    padStart 2 (intText (total % 60))

def stepTime (text : Text) (dir : ℤ) : Option Text :=
  if ¬(text.length = 6 ∧ text.all Char.isDigit) then none
  else
    let h := number text 0 2
    let m := number text 2 4
    let s := number text 4 6
    if 23 < h ∨ 59 < m ∨ 59 < s then none
    else
      let total := h * 3600 + m * 60 + s + dir
      if total < 0 ∨ 86399 < total then none else some (timeText total)

def stepValue (type : DdicType) (text : Text) (dir : ℤ) : Except Thrown (Option Text) :=
  match type.builtIn with
  | .DATS => .ok (shiftDate text dir)
  | .TIMS => .ok (stepTime text dir)
  | .NUMC =>
    if text = [] ∨ ¬text.all Char.isDigit then .ok none
    else
      (bigInt text).map fun n =>
        if n + dir < 0 ∨ 10 ^ type.length.getD 1 ≤ n + dir then none
        else some (padStart (type.length.getD 1) (intText (n + dir)))
  | .INT1 | .INT2 | .INT4 | .INT8 =>
    (bigInt text).map fun n =>
      if n + dir < (INT_RANGE type.builtIn).1 ∨ (INT_RANGE type.builtIn).2 < n + dir then none
      else some (intText (n + dir))
  | .DEC | .CURR | .QUAN =>
    (scaled text (type.decimals.getD 0)).map fun n =>
      if type.length.getD 0 < (Nat.toDigits 10 (n + dir).natAbs).length then none
      else some (formatDecimal (n + dir) (type.decimals.getD 0))
  | .other => .ok none

section numerals

variable {t : Text} {n : ℤ} {k : ℕ}

theorem digitValue_digit {c : Char} (h : c.isDigit = true) : digitValue c = some (c.toNat - 48) ∧ c.toNat - 48 < 10 := by
  have hrange := (Decimal.isDigit_iff c).mp h
  exact ⟨if_pos h,by omega⟩

theorem inBaseFrom_digits (h : Decimal.Digits t) (n : ℕ) :
    inBaseFrom 10 n t = some (n * 10 ^ t.length + Decimal.numeral t) := by
  induction t generalizing n with
  | nil => simp [inBaseFrom,Decimal.numeral]
  | cons c t ih =>
    obtain ⟨hvalue,hlt⟩ := digitValue_digit (h c List.mem_cons_self)
    have hzero : '0'.toNat = 48 := rfl
    rw [inBaseFrom,hvalue,Option.bind_some,if_pos hlt,ih h.tail,Decimal.numeral_cons,List.length_cons,hzero]
    congr 1
    ring

theorem inBase_digits (h : Decimal.Digits t) (ht : t ≠ []) : inBase 10 t = some (Decimal.numeral t) := by
  rw [inBase,if_neg ht,inBaseFrom_digits h,Nat.zero_mul,Nat.zero_add]

theorem not_digit_lower {c : Char} (h : c.isDigit = true) : c ≠ '-' ∧ c ≠ '+' ∧ c ≠ 'x' ∧ c ≠ 'X' ∧ c ≠ 'o' ∧
    c ≠ 'O' ∧ c ≠ 'b' ∧ c ≠ 'B' ∧ c ≠ '.' ∧ c ≠ ' ' := by
  refine ⟨?_,?_,?_,?_,?_,?_,?_,?_,?_,?_⟩ <;> · rintro rfl; exact absurd h (by decide)

theorem bigInt_digits (h : Decimal.Digits t) (ht : t ≠ []) : bigInt t = .ok (Decimal.numeral t : ℤ) := by
  have hplain : bigIntOf t = (inBase 10 t).map fun n => (n : ℤ) := by
    obtain ⟨c,rest,rfl⟩ := List.exists_cons_of_ne_nil ht
    obtain ⟨hminus,hplus,-⟩ := not_digit_lower (h c List.mem_cons_self)
    cases rest with
    | nil =>
      unfold bigIntOf
      split <;> simp_all
    | cons d rest =>
      obtain ⟨-,-,hx,hX,ho,hO,hb,hB,-⟩ := not_digit_lower (h d (by simp))
      unfold bigIntOf
      split <;> simp_all
  have htrim : trim t = t := JsText.trim_eq fun c hc => JsText.isSpace_digit (h c hc)
  unfold bigInt
  rw [htrim,hplain,inBase_digits h ht]
  rfl

theorem bigInt_minus (h : Decimal.Digits t) (ht : t ≠ []) : bigInt ('-' :: t) = .ok (-(Decimal.numeral t : ℤ)) := by
  have htrim : trim ('-' :: t) = '-' :: t := by
    refine JsText.trim_eq fun c hc => ?_
    rcases List.mem_cons.mp hc with rfl | hc
    · rfl
    · exact JsText.isSpace_digit (h c hc)
  unfold bigInt
  rw [htrim,bigIntOf,inBase_digits h ht]
  rfl

theorem toDigits_ne_nil (n : ℕ) : Nat.toDigits 10 n ≠ [] := List.ne_nil_of_length_pos Nat.length_toDigits_pos

theorem bigInt_intText (n : ℤ) : bigInt (intText n) = .ok n := by
  unfold intText
  split
  · rw [bigInt_minus (Decimal.digits_decimal _) (toDigits_ne_nil _),Decimal.numeral_decimal]
    congr 1
    omega
  · rw [bigInt_digits (Decimal.digits_decimal _) (toDigits_ne_nil _),Decimal.numeral_decimal]
    congr 1
    omega

theorem digits_small (h : Decimal.Digits t) : ∀ c ∈ t,c.toNat < 65536 := fun c hc => by
  have := (Decimal.isDigit_iff c).mp (h c hc)
  omega

theorem strlen_digits (h : Decimal.Digits t) : Lexeme.strlen t = t.length := Lexeme.strlen_plain (digits_small h)

theorem padStart_intText (hn : 0 ≤ n) : padStart k (intText n) = Decimal.fixed k n.toNat := by
  have habs : n.natAbs = n.toNat := by omega
  rw [intText,if_neg (by omega),habs,padStart,strlen_digits (Decimal.digits_decimal _)]
  rfl

theorem padStart_of_length (ht : Decimal.Digits t) (h : t.length = k) : padStart k t = t := by
  rw [padStart,strlen_digits ht,h,Nat.sub_self]
  rfl

theorem strlen_padStart (k : ℕ) (t : Text) : Lexeme.strlen (padStart k t) = max k (Lexeme.strlen t) := by
  rw [padStart,Lexeme.strlen_append,strlen_digits (Decimal.digits_zeros _),List.length_replicate]
  omega

theorem digits_padStart (h : Decimal.Digits t) : Decimal.Digits (padStart k t) :=
  Decimal.digits_append.mpr ⟨Decimal.digits_zeros _,h⟩

theorem numeral_padStart : Decimal.numeral (padStart k t) = Decimal.numeral t := by
  rw [padStart,Decimal.numeral_append,Decimal.numeral_zeros,Nat.zero_mul,Nat.zero_add]

theorem sign_self {α : Type} [LinearOrder α] (a : α) : sign a a = 0 := by simp [sign]

theorem sign_eq_zero {a b : ℤ} : sign a b = 0 ↔ a = b := by
  unfold sign
  split
  · omega
  · split <;> omega

theorem sign_less {a b : ℤ} : sign a b = -1 ↔ a < b := by
  unfold sign
  split
  · omega
  · split <;> omega

theorem codeUnits_digits (h : Decimal.Digits t) : codeUnits t = t.map Char.toNat := by
  induction t with
  | nil => rfl
  | cons c t ih =>
    have hc := digits_small h c List.mem_cons_self
    rw [codeUnits,Lexeme.utf16,List.map_cons,Wtf8.units_cons,Wtf8.unitsOf_small hc,List.map_append,List.map_cons]
    exact congrArg₂ List.cons (Wtf8.toNat_unit hc) (ih h.tail)

theorem map_toNat_lt {u : Text} : t.map Char.toNat < u.map Char.toNat ↔ t < u := by
  induction t generalizing u with
  | nil => cases u <;> simp
  | cons c t ih =>
    cases u with
    | nil => simp
    | cons d u =>
      rw [List.map_cons,List.map_cons,List.cons_lt_cons_iff,List.cons_lt_cons_iff,ih,Char.toNat_inj]
      rfl

theorem sign_digits {u : Text} (ht : Decimal.Digits t) (hu : Decimal.Digits u) (h : t.length = u.length) :
    sign (codeUnits t) (codeUnits u) = sign (Decimal.numeral t : ℤ) (Decimal.numeral u : ℤ) := by
  rw [codeUnits_digits ht,codeUnits_digits hu]
  unfold sign
  simp only [map_toNat_lt,Decimal.lt_iff_numeral ht hu h,Decimal.lt_iff_numeral hu ht h.symm,Int.ofNat_lt]

end numerals

end OpenSteamgate.Rules
