import Mathlib.Data.Rat.Floor
import OpenSteamgate.Arith.Conversions
import OpenSteamgate.Library.Calendar
import OpenSteamgate.Library.Quoted

namespace OpenSteamgate.Gateway

abbrev Text := List Char

inductive EdmType
  | int16
  | int32
  | byte
  | boolean
  | decimal
  | dateTime
  | time
  | string
  | other
  deriving DecidableEq

structure Property where
  name : Text
  fieldname : Text
  edmType : EdmType
  isKey : Bool := false

structure Nav where
  name : Text
  targetSet : Text

structure EntitySet where
  name : Text
  entityType : Text
  properties : List Property
  navs : List Nav := []
  isMedia : Bool := false

inductive Field
  | int (n : Int)
  | packed (n : Int) (decimals : Nat)
  | character (text : Text)
  | numeric (digits : Text)
  | date (digits : Text)
  | time (digits : Text)

def sign (n : Int) : Text := if n < 0 then ['-'] else []

def point (n decimals : Nat) : Text :=
  let ds := (Nat.toDigits 10 n).leftpad (decimals + 1) '0'
  if decimals = 0 then ds else ds.take (ds.length - decimals) ++ '.' :: ds.drop (ds.length - decimals)

namespace Field

def template : Field → Text
  | .int n => Decimal.intText n
  | .packed n decimals => sign n ++ point n.natAbs decimals
  | .character text => text
  | .numeric ds | .date ds | .time ds => ds

def move : Field → Text
  | .int n => Nat.toDigits 10 n.natAbs ++ [if n < 0 then '-' else ' ']
  | .packed n decimals => point n.natAbs decimals ++ [if n < 0 then '-' else ' ']
  | .character text => text
  | .numeric ds | .date ds | .time ds => ds

def isInitial : Field → Bool
  | .int n => n == 0
  | .packed n _ => n == 0
  | .character text => text == []
  | .numeric ds | .date ds | .time ds => ds.all (· == '0')

end Field

theorem intText_sign (n : Int) : Decimal.intText n = sign n ++ Nat.toDigits 10 n.natAbs := by
  rw [Decimal.intText,sign]
  split <;> rfl

inductive Raised
  | overflow
  | outOfBounds
  | skippedDay
  | conversion (fault : Packed.Fault)

section epoch

open DateText (part)

def halfAway (q : ℚ) : ℤ := if q < 0 then -⌊1 / 2 - q⌋ else ⌊q + 1 / 2⌋

def toI (q : ℚ) : Except Raised ℤ :=
  if -2147483648 ≤ halfAway q ∧ halfAway q ≤ 2147483647 then .ok (halfAway q) else .error .overflow

def toP (q : ℚ) : Except Raised ℤ :=
  if -10 ^ 31 < halfAway q ∧ halfAway q < 10 ^ 31 then .ok (halfAway q) else .error .overflow

-- 00010101 is day 0, and so is a text that is no date; the days that October 1582 skips dump
def dayNumber (v : Text) : Except Raised ℤ :=
  let y := part v 0 4
  let m := part v 4 6
  let d := part v 6 8
  if v.length ≠ 8 ∨ ¬v.all Char.isDigit then .ok 0
  else if 15821004 < Calendar.key y m d ∧ Calendar.key y m d < 15821015 then .error .skippedDay
  else .ok (if 1 ≤ y ∧ Calendar.CivilReal y m d then Calendar.civilDays y m d + 719164 else 0)

def lv_epoch : Text := ['1','9','7','0','0','1','0','1']

def partToI (t : Text) (start stop : Nat) : Except Raised ℤ :=
  match Packed.parseI ((t.take stop).drop start) with
  | .ok n => .ok n.toInt
  | .error fault => .error (.conversion fault)

def secondsOf (iv_time : Text) : Except Raised ℤ :=
  if iv_time = List.replicate 6 '0' then .ok 0
  else do
    let lv_hh ← partToI iv_time 0 2
    let lv_mm ← partToI iv_time 2 4
    let lv_ss ← partToI iv_time 4 6
    toI (lv_hh * 3600 + lv_mm * 60 + lv_ss : ℤ)

def epochMs (iv_date iv_time : Text) : Except Raised Text := do
  let lv_days ← toI ((← dayNumber iv_date) - (← dayNumber lv_epoch) : ℤ)
  let lv_seconds ← secondsOf iv_time
  let lv_ms ← toP ((lv_days * 86400 + lv_seconds) * 1000 : ℤ)
  return Decimal.intText lv_ms

end epoch

def condenseNoGaps (text : Text) : Text := text.filter (· ≠ ' ')

def escapeBreaks : Text → Text
  | '\r' :: '\n' :: cs => '\\' :: 'r' :: '\\' :: 'n' :: escapeBreaks cs
  | c :: cs => c :: escapeBreaks cs
  | [] => []

def escape (text : Text) : Text :=
  let text := text.flatMap fun c => if c = '\\' then ['\\','\\'] else [c]
  let text := text.flatMap fun c => if c = '"' then ['\\','"'] else [c]
  let text := escapeBreaks text
  let text := text.flatMap fun c => if c = '\n' then ['\\','n'] else [c]
  text.flatMap fun c => if c = '\t' then ['\\','t'] else [c]

-- a half of a pair is neither a digit nor a sign
def halves (text : Text) : Text := text.flatMap fun c => if 0xFFFF < c.toNat then ['?','?'] else [c]

def dateMs : Field → Except Raised Text
  | .date ds => epochMs ds (List.replicate 6 '0')
  | f =>
    let text := halves (condenseNoGaps f.template)
    if text.length < 8 then .error .outOfBounds
    else epochMs (text.take 8) (if 14 ≤ text.length then (text.drop 8).take 6 else List.replicate 6 '0')

def timeText (f : Field) : Text :=
  let text := f.move
  if 6 ≤ text.length then
    "PT".toList ++ text.take 2 ++ 'H' :: (text.drop 2).take 2 ++ 'M' :: (text.drop 4).take 2 ++ ['S']
  else "PT00H00M00S".toList

def integerText (f : Field) : Text :=
  let text := condenseNoGaps f.template
  if text = [] then ['0'] else text

def booleanText (f : Field) : Text := if f.isInitial then "false".toList else "true".toList

def decimalText (f : Field) : Text := '"' :: (condenseNoGaps f.template ++ ['"'])

def value (f : Field) : EdmType → Except Raised Text
  | .int16 | .int32 | .byte => .ok (integerText f)
  | .boolean => .ok (booleanText f)
  | .decimal => .ok (decimalText f)
  | .dateTime =>
    if f.isInitial then .ok "null".toList
    else do
      let ms ← dateMs f
      return '"' :: ("\\/Date(".toList ++ ms ++ ")\\/".toList ++ ['"'])
  | .time => .ok ('"' :: (timeText f ++ ['"']))
  | .string | .other => .ok ('"' :: (escape f.move ++ ['"']))

def keyLiteral (f : Field) : EdmType → Text
  | .int16 | .int32 | .byte => (integerText f).filter (· ≠ '"')
  | .boolean => (booleanText f).filter (· ≠ '"')
  | .decimal => (decimalText f).filter (· ≠ '"')
  | .dateTime | .time | .string | .other => Quoted.wrap '\'' f.move

def EntitySet.keys (set : EntitySet) : List Property := set.properties.filter (·.isKey)

def addLiteral (row : Text → Option Field) (keys : Nat) (text : Text) (p : Property) : Text :=
  match row p.fieldname with
  | none => text
  | some f =>
    let literal := keyLiteral f p.edmType
    if keys = 1 then literal
    else if text = [] then p.name ++ '=' :: literal
    else text ++ ',' :: (p.name ++ '=' :: literal)

def keyPredicate (row : Text → Option Field) (set : EntitySet) : Text :=
  set.keys.foldl (addLiteral row set.keys.length) []

end OpenSteamgate.Gateway
