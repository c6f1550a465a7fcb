import OpenSteamgate.Library.Decimal
import OpenSteamgate.Library.Lexeme
import OpenSteamgate.Osql.Ir

namespace OpenSteamgate.Osql

open Lexeme

abbrev Text := List Char

inductive Reason
  | hostVariable
  | columnToColumn
  | qualifiedName
  | numberIntoChar
  | numberFormat
  | numc
  | columnType
  | likeType
  | malformed
  | tooDeep
  | nonBMP

inductive Failure
  | osqlSyntax
  | osqlSemantics
  | osqlDump
  | osqlData
  | refused (reason : Reason)

def osqlMaxDepth : Nat := 256

def osqlMaxTerms : Nat := 2000

inductive Kind
  | name
  | text
  | string
  | number
  | op
  | opening
  | closing
  | comma
  deriving DecidableEq

def Kind.literal : Kind → Bool
  | .text | .string | .number => true
  | _ => false

structure Token (σ : Type) where
  kind : Kind
  value : σ

def refuseWhere {α : Type} (reason : Reason) : Except Failure α := .error (.refused reason)

def operators : List String := ["<>","<=",">=","=","<",">"]

def comparisons : List (String × Op) :=
  [("=",.eq),("<>",.ne),("<",.lt),(">",.gt),("<=",.le),(">=",.ge),
    ("EQ",.eq),("NE",.ne),("LT",.lt),("GT",.gt),("LE",.le),("GE",.ge)]

def keywords : List String :=
  ["AND","OR","NOT","BETWEEN","LIKE","ESCAPE","IN","IS","NULL","INITIAL",
    "EQ","NE","LT","GT","LE","GE"]

def nameStart (n : Nat) : Bool := isLetter n || n == 95 || n == 47

def nameRest (n : Nat) : Bool := nameStart n || isDigit n || n == 126

section regexes

variable {α : Type} [Coded α]

def osqlNumber (text : List α) : Option (List α × List α × List α) :=
  let (sign,s) := Lexeme.optional (· == 45) text
  let (digits,s) := many isDigit s
  if digits = [] then none
  else
    let (decimals,s) := fraction s
    some (sign ++ digits,decimals,s)

def osqlName (text : List α) : Option (List α × List α) :=
  let (first,s) := Lexeme.optional nameStart text
  if first = [] then none
  else
    let (more,s) := many nameRest s
    some (first ++ more,s)

structure NumberShape (α : Type) where
  leading : List α
  whole : List α
  fraction : List α
  trailing : List α

def abapNumberShape (text : List α) : Option (NumberShape α) :=
  let (leading,s) := Lexeme.optional isSign text
  let (whole,s) := many isDigit s
  let (decimals,s) := fraction s
  let (trailing,s) := Lexeme.optional isSign s
  if whole = [] ∨ s ≠ [] then none else some ⟨leading,whole,decimals,trailing⟩

end regexes

def blank (r : Char) : Bool := r == ' ' || r == '\t' || r == '\n' || r == '\r'

def quotedLiteral (quote : Char) : Text → Option (Text × Text)
  | [] => none
  | [c] => if c = quote then some ([],[]) else none
  | c :: d :: s =>
    if c = quote then
      if d = quote then (quotedLiteral quote s).map fun r => (quote :: r.1,r.2) else some ([],d :: s)
    else (quotedLiteral quote (d :: s)).map fun r => (c :: r.1,r.2)

def punctuation (c : Char) : Option Kind :=
  if c = '(' then some .opening
  else if c = ')' then some .closing
  else if c = ',' then some .comma
  else none

def tokensFrom : Nat → Option Char → Text → Except Failure (List (Token Text))
  | 0,_,_ => .ok []
  | _,_,[] => .ok []
  | n + 1,before,ch :: rest =>
    if blank ch then tokensFrom n (some ch) rest
    else if ch = '\'' then
      match quotedLiteral '\'' rest with
      | none => refuseWhere .malformed
      | some (value,rest) => (tokensFrom n (some '\'') rest).map (⟨.text,value⟩ :: ·)
    else if ch = '`' then
      match quotedLiteral '`' rest with
      | none => refuseWhere .malformed
      | some (value,rest) => (tokensFrom n (some '`') rest).map (⟨.string,value⟩ :: ·)
    else match punctuation ch with
    | some kind => (tokensFrom n (some ch) rest).map (⟨kind,[ch]⟩ :: ·)
    | none =>
    match operators.find? fun o => o.toList.isPrefixOf (ch :: rest) with
    | some op =>
      let rest := (ch :: rest).drop op.length
      let before := before.all blank
      let after := rest.head?.all blank
      if !before && !after then .error .osqlSyntax
      else if !before || !after then refuseWhere .malformed
      else (tokensFrom n op.toList.getLast? rest).map (⟨.op,op.toList⟩ :: ·)
    | none =>
    if ch = '!' ∧ rest.head? = some '=' then .error .osqlSyntax
    else if ch = '@' then .error .osqlSemantics
    else match osqlNumber (ch :: rest) with
    | some (m,decimals,rest) =>
      if decimals ≠ [] then refuseWhere .numberFormat
      else (tokensFrom n m.getLast? rest).map (⟨.number,m⟩ :: ·)
    | none =>
    match osqlName (ch :: rest) with
    | some (m,rest) =>
      if rest.head? = some '\'' ∨ rest.head? = some '`' ∨ rest.head? = some '(' then
        refuseWhere .malformed
      else (tokensFrom n m.getLast? rest).map (⟨.name,m⟩ :: ·)
    | none => refuseWhere .malformed

def osqlTokens (text : Text) : Except Failure (List (Token Text)) :=
  tokensFrom text.length none text

def padLeft (n : Nat) (s : Text) : Text := List.replicate (n - s.length) '0' ++ s

def padRight (n : Nat) (s : Text) : Text := s ++ List.replicate (n - s.length) '0'

def rounded (decimals : Nat) (whole fraction : Text) : Text :=
  let digits := whole ++ (padRight decimals fraction).take decimals
  let next := fraction.getD decimals '0'
  if '5' ≤ next then padLeft digits.length (Nat.toDigits 10 (value digits + 1)) else digits

def abapNumber (raw : Text) (decimals : Nat) : Except Failure Text :=
  let text := trimSpaces raw
  if text = [] then
    .ok (if decimals = 0 then ['0'] else '0' :: '.' :: List.replicate decimals '0')
  else match abapNumberShape text with
  | some m =>
    if m.leading ≠ [] ∧ m.trailing ≠ [] then
      if text.any fun c => isLetter c.toNat then .error .osqlDump else refuseWhere .numberFormat
    else
      let sign := if m.leading = [] then m.trailing else m.leading
      let negative := sign == ['-']
      let whole := stripZeros (if m.whole = [] then ['0'] else m.whole)
      let digits := stripZeros (rounded decimals whole m.fraction)
      let digits := if digits = [] then ['0'] else digits
      let intPart :=
        if decimals = 0 then digits
        else if decimals < digits.length then digits.take (digits.length - decimals)
        else ['0']
      let d := padLeft (decimals + 1) digits
      let zero := digits.all (· == '0')
      let out := if negative && !zero then '-' :: intPart else intPart
      .ok (if decimals = 0 then out else out ++ '.' :: d.drop (d.length - decimals))
  | none =>
    if text.any fun c => isLetter c.toNat then .error .osqlDump else refuseWhere .numberFormat

def nonBMP (s : Text) : Bool := s.any fun c => 0xFFFF < c.toNat

structure OsqlColumn where
  name : Text
  type : IRType
  numc : Bool := false

abbrev GoIR := IR Text IRType

def int4Min : Int := -2147483648

def int4Max : Int := 2147483647

def rawHexLit (v : Text) (n : Nat) : Bool :=
  v.length == 2 * n && v.all fun c => isDigit c.toNat || (65 ≤ c.toNat && c.toNat ≤ 70)

def integerFor (raw : Text) (t : IRType) : Except Failure GoIR := do
  let value ← abapNumber raw 0
  match Decimal.setString value with
  | none => .error .osqlDump
  | some n => if n < int4Min ∨ int4Max < n then .error .osqlDump else .ok (.lit (.int n) t)

def packedFor (raw : Text) (t : IRType) : Except Failure GoIR := do
  let value ← abapNumber raw t.dec
  let room := if 0 < t.len then t.len else 31
  let d := stripZeros (value.filter fun c => c != '-' && c != '.')
  if room < d.length then .error .osqlDump else .ok (.lit (.text value) t)

def numcFor (raw : Text) (t : IRType) : Except Failure GoIR :=
  let digits := trimSpaces raw
  if digits = [] ∨ (digits.any fun c => !isDigit c.toNat) ∨ t.len < digits.length then
    refuseWhere .numc
  else .ok (.lit (.text (padLeft t.len digits)) t)

def charFor (raw : Text) (t : IRType) : GoIR :=
  let n := if t.abap = .D then 8 else t.len
  let ct := if t.abap = .D then tChar 8 else t
  -- every character of `raw` is one unit here
  let v := if 0 < n ∧ n < strlen raw then raw.take n else raw
  .lit (.text (trimRight v)) ct

def valueFor (tok : Token Text) (c : OsqlColumn) : Except Failure GoIR :=
  let t := c.type
  let raw := tok.value
  if nonBMP raw then refuseWhere .nonBMP
  else if t.abap = .I then integerFor raw t
  else if t.abap = .P then packedFor raw t
  else if t.abap = .X ∧ 0 < t.len ∧ tok.kind = .text ∧ rawHexLit raw t.len then
    .ok (.lit (.text raw) t)
  else if t.abap = .X ∧ 0 < t.len ∧ (tok.kind = .text ∨ tok.kind = .number) then
    .error .osqlData
  else if tok.kind = .number ∧ t.abap ≠ .C then refuseWhere .numberIntoChar
  else if t.abap = .C ∧ c.numc then numcFor raw t
  else if t.abap = .C ∨ t.abap = .D then
    if tok.kind = .number then refuseWhere .numberIntoChar else .ok (charFor raw t)
  else if t.abap = .STRING then
    .ok (.lit (.text (if tok.kind = .string then raw else trimRight raw)) t)
  else refuseWhere .columnType

structure Casing where
  toUpper : Text → Text
  ascii : ∀ s, (∀ c ∈ s, c.toNat < 128) → toUpper s = s.map Char.toUpper

structure OsqlParser where
  list : List (Token Text)
  terms : Nat := 0

abbrev Parse (α : Type) := OsqlParser → Except Failure (α × OsqlParser)

def osqlCompare (s : Text) : Option Op :=
  (comparisons.find? fun e => e.1.toList == s).map Prod.snd

def osqlKeyword (s : Text) : Bool := keywords.any fun k => k.toList == s

def halves (op : Op) : Nat → GoIR → List GoIR → GoIR
  | 0,first,_ => first
  | n + 1,first,rest =>
    let h := (rest.length + 2) / 2
    match rest.drop (h - 1) with
    | [] => first
    | middle :: more =>
      .bin op (halves op n first (rest.take (h - 1))) (halves op n middle more) tBool

def balanced (op : Op) (first : GoIR) (rest : List GoIR) : GoIR := halves op rest.length first rest

def OsqlParser.take (p : OsqlParser) : OsqlParser := {p with list := p.list.tail}

section parser

variable (casing : Casing) (columns : List OsqlColumn)

def known (key : Text) : Option OsqlColumn :=
  (columns.map fun c => {c with name := casing.toUpper c.name}).reverse.find? (·.name = key)

namespace OsqlParser

def word (p : OsqlParser) : Text :=
  match p.list with
  | t :: _ => if t.kind = .name then casing.toUpper t.value else []
  | [] => []

def expect (kind : Kind) (value : String) (p : OsqlParser) : Except Failure OsqlParser :=
  match p.list with
  | [] => refuseWhere .malformed
  | one :: rest =>
    if one.kind ≠ kind ∨ (value ≠ "" ∧ casing.toUpper one.value ≠ value.toList) then
      refuseWhere .malformed
    else .ok {p with list := rest}

def literal (c : OsqlColumn) (p : OsqlParser) : Except Failure (GoIR × OsqlParser) :=
  match p.list with
  | [] => .error .osqlSyntax
  | one :: rest =>
    if one.kind.literal then (valueFor one c).map (·,{p with list := rest})
    else if one.kind = .name ∧ !osqlKeyword (casing.toUpper one.value) then
      if (known casing columns (casing.toUpper one.value)).isSome then refuseWhere .columnToColumn
      else refuseWhere .hostVariable
    else refuseWhere .malformed

def between (c : OsqlColumn) (expr : GoIR) (negated : Bool) (p : OsqlParser) :
    Except Failure (GoIR × OsqlParser) := do
  let (low,p) ← p.literal casing columns c
  let p ← p.expect casing .name "AND"
  let (high,p) ← p.literal casing columns c
  let between := IR.bin .and (.bin .ge expr low tBool) (.bin .le expr high tBool) tBool
  .ok (if negated then .not between else between,p)

def escape (p : OsqlParser) : Except Failure (Option GoIR × OsqlParser) :=
  if p.word casing = "ESCAPE".toList then
    match p.take.list with
    | [] => refuseWhere .malformed
    | e :: rest =>
      if e.kind ≠ .text ∨ strlen e.value ≠ 1 then refuseWhere .malformed
      else if e.value = ['%'] ∨ e.value = ['_'] then .error .osqlSemantics
      else .ok (some (.lit (.text e.value) tStr),{p with list := rest})
  else .ok (none,p)

def like (c : OsqlColumn) (expr : GoIR) (negated : Bool) (p : OsqlParser) :
    Except Failure (GoIR × OsqlParser) :=
  match p.list with
  | [] => refuseWhere .malformed
  | pattern :: rest =>
    if pattern.kind ≠ .text then refuseWhere .malformed
    else if c.type.abap ≠ .C ∨ c.numc then refuseWhere .likeType
    else if nonBMP pattern.value then refuseWhere .nonBMP
    else do
      let (escape,p) ← escape casing {p with list := rest}
      if escape.isSome ∧ pattern.value.getLast? = some ' ' then refuseWhere .likeType
      else .ok (.like expr (.lit (.text (trimRight pattern.value)) tStr) escape negated,p)

def moreValues (c : OsqlColumn) : Nat → OsqlParser → Except Failure (List GoIR × OsqlParser)
  | 0,p => .ok ([],p)
  | n + 1,p =>
    match p.list with
    | [] => .ok ([],p)
    | t :: _ =>
      if t.kind = .comma then do
        let (value,p) ← p.take.literal casing columns c
        let (values,p) ← moreValues c n p
        .ok (value :: values,p)
      else .ok ([],p)

def inList (c : OsqlColumn) (expr : GoIR) (negated : Bool) (p : OsqlParser) :
    Except Failure (GoIR × OsqlParser) := do
  let p ← p.expect casing .opening ""
  let (value,p) ← p.literal casing columns c
  let (values,p) ← p.moreValues casing columns c p.list.length
  let p ← p.expect casing .closing ""
  .ok (.inList expr (value :: values) negated,p)

def isNull (expr : GoIR) (p : OsqlParser) : Except Failure (GoIR × OsqlParser) :=
  let isNot := p.word casing == "NOT".toList
  let p := if isNot then p.take else p
  if p.word casing = "INITIAL".toList then
    if isNot then refuseWhere .malformed else .error .osqlSemantics
  else do
    let p ← p.expect casing .name "NULL"
    .ok (if isNot then .not (.isnull expr) else .isnull expr,p)

def comparison (c : OsqlColumn) (p : OsqlParser) : Except Failure (GoIR × OsqlParser) :=
  let expr := IR.col c.name none (if c.type.abap = .D then tChar 8 else c.type)
  match p.list with
  | [] => refuseWhere .malformed
  | op :: _ =>
    let compared :=
      if op.kind = .op then osqlCompare op.value
      else if op.kind = .name then osqlCompare (casing.toUpper op.value)
      else none
    match compared with
    | some o => do
      let (value,p) ← p.take.literal casing columns c
      .ok (.bin o expr value tBool,p)
    | none =>
      let negated := p.word casing == "NOT".toList
      let p := if negated then p.take else p
      let kw := p.word casing
      if c.type.abap = .X ∧ (kw = "BETWEEN".toList ∨ kw = "IN".toList) then refuseWhere .columnType
      else if kw = "BETWEEN".toList then p.take.between casing columns c expr negated
      else if kw = "LIKE".toList then p.take.like casing c expr negated
      else if kw = "IN".toList then p.take.inList casing columns c expr negated
      else if !negated ∧ kw = "IS".toList then p.take.isNull casing expr
      else refuseWhere .malformed

def primary (orExpr : Parse GoIR) (p : OsqlParser) : Except Failure (GoIR × OsqlParser) :=
  match p.list with
  | [] => refuseWhere .malformed
  | first :: rest =>
    if first.kind = .opening then do
      let (inner,p) ← orExpr p.take
      let p ← p.expect casing .closing ""
      .ok (inner,p)
    else if first.kind.literal then .error .osqlSemantics
    else if first.kind ≠ .name ∨ osqlKeyword (casing.toUpper first.value) then
      refuseWhere .malformed
    else if osqlMaxTerms < p.terms + 1 then refuseWhere .tooDeep
    else if '~' ∈ first.value then refuseWhere .qualifiedName
    else match known casing columns (casing.toUpper first.value) with
    | none => .error .osqlSemantics
    | some c => comparison casing columns c {list := rest,terms := p.terms + 1}

def chain (w : String) (item : Parse GoIR) : Nat → OsqlParser →
    Except Failure (List GoIR × OsqlParser)
  | 0,p => .ok ([],p)
  | n + 1,p =>
    if p.word casing = w.toList then do
      let (part,p) ← item p.take
      let (parts,p) ← chain w item n p
      .ok (part :: parts,p)
    else .ok ([],p)

def andExpr (notExpr : Parse GoIR) (p : OsqlParser) : Except Failure (GoIR × OsqlParser) := do
  let (first,p) ← notExpr p
  let (parts,p) ← chain casing "AND" notExpr p.list.length p
  .ok (balanced .and first parts,p)

def orExpr (notExpr : Parse GoIR) (p : OsqlParser) : Except Failure (GoIR × OsqlParser) := do
  let (first,p) ← andExpr casing notExpr p
  let (parts,p) ← chain casing "OR" (andExpr casing notExpr) p.list.length p
  .ok (balanced .or first parts,p)

def notExpr : Nat → Parse GoIR
  | 0,p =>
    if p.word casing = "NOT".toList then refuseWhere .tooDeep
    else primary casing columns (fun _ => refuseWhere .tooDeep) p
  | depth + 1,p =>
    if p.word casing = "NOT".toList then do
      let (inner,p) ← notExpr depth p.take
      .ok (.not inner,p)
    else primary casing columns (orExpr casing (notExpr depth)) p

end OsqlParser

def osqlWherePredicate (text : Text) : Except Failure (Option GoIR) := do
  let list ← osqlTokens text
  if list = [] then .ok none
  else do
    let (pred,p) ← OsqlParser.orExpr casing (OsqlParser.notExpr casing columns osqlMaxDepth)
      {list := list}
    if p.list ≠ [] then refuseWhere .malformed else .ok (some pred)

end parser

end OpenSteamgate.Osql
