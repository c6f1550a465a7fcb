import OpenSteamgate.Library.Padding
import OpenSteamgate.Library.Wildcard
import OpenSteamgate.Osql.Lower

namespace OpenSteamgate.Osql

open Lexeme Wildcard

structure RangeRow where
  sign : Text
  option : Text
  low : Value Text
  high : Value Text

inductive RangesError
  | dump (abap : String) (field : Text)
  | dataError (abap : String) (value : Text) (len : Nat)
  | refused (reason : String) (value : Text)

section Bounds

def jsString (v : Value Text) : Text :=
  match v with
  | .text s => s
  | .bool b => if b then "true".toList else "false".toList
  | v => (jsNumber v).getD []

def jsInteger : Value Text → Option Int
  | .int n => some n
  -- a whole float64 outside int64 converts to the least int64
  | .double bits =>
    (Binary64.integer bits).map fun n => if -2 ^ 63 ≤ n ∧ n < 2 ^ 63 then n else -2 ^ 63
  | .text s =>
    let t := GoText.trimSpace s
    if t = [] then some 0
    else (Decimal.atoi t).filter fun n => -2 ^ 53 ≤ n ∧ n ≤ 2 ^ 53
  | _ => none

def zeroPadded (len : Nat) (text : Text) : Text := List.replicate (len - strlen text) '0' ++ text

def boundValue (value : Value Text) (t : IRType) (kind : Text) : Except RangesError (Value Text) :=
  let js := jsString value
  if t.abap = .I then
    match jsInteger value with
    | some n => .ok (.int n)
    | none => .error (.refused "refused" js)
  else if t.abap = .C then
    let text := trimRight js
    if kind = "NUMC".toList ∧ !text.all Char.isDigit then .error (.refused "refused" js)
    else
      let text := if kind = "NUMC".toList then zeroPadded t.len text else text
      if 0 < t.len ∧ t.len < strlen text then
        .error (.dataError "CX_SY_OPEN_SQL_DATA_ERROR" js t.len)
      else .ok (.text text)
  else if t.abap = .STRING then .ok (.text js)
  else .error (.refused "refused" t.abap.code)

def bound (value : Value Text) (t : IRType) (kind : Text) : Except RangesError GoIR :=
  (boundValue value t kind).map fun v => .lit v t

end Bounds

section Patterns

abbrev CpItem := Item (Option Char)

def CpItem.wild : CpItem → Bool
  | .one (some _) => false
  | _ => true

def isLit (c : Char) (i : CpItem) : Bool := i = .one (some c)

@[grind =] def cpRead : Text → List CpItem
  | [] => []
  | ['#'] => [.one (some ' ')]
  | '#' :: c :: cs => .one (some c) :: cpRead cs
  | c :: cs =>
    (if c = '*' then .run else if c = '+' then .one none else .one (some c)) :: cpRead cs

def cpItems (pattern : Text) : List CpItem := (cpRead pattern).rdropWhile (isLit ' ')

def needsEscape (items : List CpItem) : Bool := items.any fun i => isLit '%' i || isLit '_' i

def likeItem (escape : Bool) : CpItem → Text
  | .run => ['%']
  | .one none => ['_']
  | .one (some c) => if escape && (c == '%' || c == '_' || c == '#') then ['#',c] else [c]

def likePattern (items : List CpItem) : Text × Bool :=
  (items.flatMap (likeItem (needsEscape items)),needsEscape items)

def literalOf : CpItem → Text
  | .one (some c) => [c]
  | _ => []

end Patterns

section Predicates

def tInt : IRType := {abap := .I}

def irTrue : GoIR := .bin .eq (.lit (.int 1) tInt) (.lit (.int 1) tInt) tBool

def irFalse : GoIR := .bin .eq (.lit (.int 1) tInt) (.lit (.int 0) tInt) tBool

@[grind =] def irOr : List GoIR → GoIR
  | [] => irFalse
  | part :: parts => parts.foldl (fun out p => .bin .or out p tBool) part

def compareOption (option : Text) : Option Op :=
  if option = "EQ".toList then some .eq
  else if option = "NE".toList then some .ne
  else if option = "GT".toList then some .gt
  else if option = "GE".toList then some .ge
  else if option = "LT".toList then some .lt
  else if option = "LE".toList then some .le
  else none

def cpSource (t : IRType) (row : RangeRow) (lowLen : Nat) : Text :=
  let low := jsString row.low
  let high := trimRight (jsString row.high)
  if t.abap = .C ∧ high ≠ [] then
    low ++ List.replicate (lowLen - strlen low) ' ' ++ high
  else low

def blankBeforeWild : List CpItem → Bool
  | i :: j :: items => isLit ' ' i && j.wild || blankBeforeWild (j :: items)
  | _ => false

@[grind =] def itemsCondition (expr : GoIR) (t : IRType) (negated : Bool) (items : List CpItem) : GoIR :=
  if items ≠ [] ∧ items.all (· = .run) then if negated then irFalse else irTrue
  else if !items.any CpItem.wild then
    .bin (if negated then .ne else .eq) expr (.lit (.text (items.flatMap literalOf)) t) tBool
  else
    let like := likePattern items
    .like expr (.lit (.text like.1) tStr) (if like.2 then some (.lit (.text ['#']) tStr) else none)
      negated

@[grind =] def patternCondition (expr : GoIR) (t : IRType) (row : RangeRow) (lowLen : Nat) :
    Except RangesError GoIR :=
  let high := trimRight (jsString row.high)
  let source := cpSource t row lowLen
  let items := cpItems source
  if t.abap ≠ .C ∧ t.abap ≠ .STRING then .error (.refused "refused" t.abap.code)
  else if t.abap = .STRING ∧ high ≠ [] then .error (.refused "high over string" row.option)
  else if high ≠ [] ∧ lowLen = 0 then .error (.refused "high without lowLen" row.option)
  else if t.abap = .C ∧ 2 * t.len < strlen (trimRight source) then
    .error (.dataError "CX_SY_DYNAMIC_OSQL_SEMANTICS" (trimRight source) t.len)
  else if items.head?.any (isLit ' ') || blankBeforeWild items then
    .error (.refused "special padding form" source)
  else if items = [.one none] then .error (.refused "plus alone" row.option)
  else .ok (itemsCondition expr t (row.option = "NP".toList) items)

@[grind =] def rowCondition (expr : GoIR) (t : IRType) (kind : Text) (lowLen : Nat) (row : RangeRow) :
    Except RangesError GoIR :=
  match compareOption row.option with
  | some op => do
    let low ← bound row.low t kind
    return .bin op expr low tBool
  | none =>
    if row.option = "BT".toList ∨ row.option = "NB".toList then do
      let low ← bound row.low t kind
      let high ← bound row.high t kind
      let between : GoIR := .bin .and (.bin .ge expr low tBool) (.bin .le expr high tBool) tBool
      return if row.option = "BT".toList then between else .not between
    else if row.option = "CP".toList ∨ row.option = "NP".toList then
      patternCondition expr t row lowLen
    else .error (.dump "SAPSQL_IN_ITAB_ILLEGAL_OPTION" row.option)

def included (row : RangeRow) : Bool := row.sign = ['I']

def excluded (row : RangeRow) : Bool := row.sign = ['E']

@[grind =] def combine : List GoIR → List GoIR → GoIR
  | includes,[] => irOr includes
  | [],excludes => .not (irOr excludes)
  | includes,excludes => .bin .and (irOr includes) (.not (irOr excludes)) tBool

def rangesPredicate (casing : Casing) (column : Text) (t : IRType) (rows : List RangeRow)
    (kind : Text) (lowLen : Nat) : Except RangesError GoIR :=
  let expr : GoIR := .col (casing.toUpper column) none t
  if rows = [] then .ok irTrue
  else match rows.find? fun r => !included r && !excluded r with
    | some r => .error (.dump "SAPSQL_IN_ITAB_ILLEGAL_SIGN" r.sign)
    | none => do
      let includes ← (rows.filter included).mapM (rowCondition expr t kind lowLen)
      let excludes ← (rows.filter excluded).mapM (rowCondition expr t kind lowLen)
      return combine includes excludes

end Predicates

section Splicing

structure HostPred where
  id : Text
  after : Nat
  column : Text
  type : IRType
  kind : Text
  lowLen : Nat
  rows : List RangeRow

inductive SpliceError
  | range (e : RangesError)
  | lowering (e : Refused)
  | marker (text : Text)
  | slice

def marker (id : Text) : Text := "/*@range:".toList ++ id ++ "*/".toList

def HostPred.predicate (casing : Casing) (p : HostPred) : Except SpliceError (Text × List Param) :=
  match rangesPredicate casing p.column p.type p.rows p.kind p.lowLen with
  | .error e => .error (.range e)
  | .ok pred =>
    match lower casing .sqlite pred [] with
    | .error e => .error (.lowering e)
    | .ok r => .ok r

structure Spliced where
  text : Text
  out : List (Value Text)
  next : Nat

def splice (casing : Casing) (args : List (Value Text)) (s : Spliced) (p : HostPred) :
    Except SpliceError Spliced := do
  let (sql,params) ← p.predicate casing
  match Marked.index s.text (marker p.id) with
  | none => .error (.marker (marker p.id))
  | some i =>
    if s.next ≤ p.after ∧ p.after ≤ args.length then
      return {
        text := s.text.take i ++ sql ++ s.text.drop (i + (marker p.id).length)
        out := s.out ++ (args.take p.after).drop s.next ++ params.map Param.value
        next := p.after}
    else .error .slice

def spliceRanges (casing : Casing) (text : Text) (args : List (Value Text))
    (preds : List HostPred) : Except SpliceError (Text × List (Value Text)) := do
  let s ← preds.foldlM (splice casing args) ⟨text,[],0⟩
  return (s.text,s.out ++ args.drop s.next)

end Splicing

end OpenSteamgate.Osql
