import OpenSteamgate.Osql.Where

namespace OpenSteamgate.Osql

open Lexeme

inductive Dialect
  | sqlite
  | duckdb
  | postgres
  | hana
  deriving DecidableEq

inductive Refused
  | dialect (name : String)
  | parameterType (code : Text)
  | division

structure Param where
  name : Text
  value : Value Text
  type : Text
  isNull : Bool

def Abap.code : Abap → Text
  | .C => ['C']
  | .I => ['I']
  | .P => ['P']
  | .STRING => "STRING".toList
  | .D => ['D']
  | .X => ['X']
  | .BOOL => "BOOL".toList
  | .other name => name

def IRType.seam (t : IRType) : Text :=
  if t.abap = .P ∧ 0 < t.len then 'P' :: '(' :: Nat.toDigits 10 t.len ++ ',' :: Nat.toDigits 10 t.dec ++ [')']
  else if 0 < t.len then t.abap.code ++ '(' :: Nat.toDigits 10 t.len ++ [')']
  else t.abap.code

def seamLetter (letters : List Char) : Text → Bool
  | [c] => c ∈ letters
  | c :: '(' :: _ => c ∈ letters
  | _ => false

def seamPacked : Text → Bool
  | 'P' :: '(' :: s =>
    let (len,s) := many isDigit s
    match s with
    | ',' :: s =>
      let (dec,s) := many isDigit s
      decide (len ≠ [] ∧ dec ≠ [] ∧ s = [')'])
    | _ => false
  | _ => false

def seamLength (letter : Char) : Text → Option Text
  | c :: '(' :: s =>
    let (len,s) := many isDigit s
    if c = letter ∧ len ≠ [] ∧ s = [')'] then some len else none
  | _ => none

def postgresType (code : Text) : Except Refused Text :=
  if seamLetter ['I','B','S'] code then .ok "integer".toList
  else if seamLetter ['F'] code then .ok "double precision".toList
  else if seamPacked code then .ok ("numeric".toList ++ code.tail)
  else if (seamLength 'C' code).isSome then .ok ("varchar".toList ++ code.tail)
  else if code = "STRING".toList then .ok "text".toList
  else match seamLength 'X' code with
  | some k => .ok ("varchar(".toList ++ Nat.toDigits 10 (2 * value k) ++ [')'])
  | none => .error (.parameterType code)

def placeholder (casing : Casing) (dialect : Dialect) (n : Nat) (code : Text) :
    Except Refused Text :=
  let code := casing.toUpper code
  let integer := seamLetter ['I','B','S'] code
  match dialect with
  | .sqlite =>
    .ok (if integer || code == "INT8".toList then "CAST(? AS INTEGER)".toList
      else if seamLetter ['P'] code then "CAST(? AS NUMERIC)".toList
      else ['?'])
  | .duckdb =>
    .ok (if seamPacked code then "CAST(? AS DECIMAL".toList ++ code.tail ++ [')'] else ['?'])
  | .hana =>
    .ok (if integer then "CAST(? AS INTEGER)".toList
      else if seamLetter ['F'] code then "CAST(? AS DOUBLE)".toList
      else if seamPacked code then "CAST(? AS DECIMAL".toList ++ code.tail ++ [')']
      else ['?'])
  | .postgres => do
    let pg ← postgresType code
    .ok ('$' :: Nat.toDigits 10 n ++ "::".toList ++ pg)

def likeText (dialect : Dialect) (e p : Text) (esc : Option Text) (neg : Bool) : Text :=
  let n := if neg then " NOT".toList else []
  if dialect = .postgres then
    '(' :: e ++ n ++ " LIKE ".toList ++ p ++ " ESCAPE ".toList ++ esc.getD ['\'','\''] ++ [')']
  else
    '(' :: e ++ n ++ " LIKE ".toList ++ p ++
      ((esc.map fun x => " ESCAPE ".toList ++ x).getD []) ++ [')']

def quote (id : Text) : Text :=
  '"' :: (id.flatMap fun c => if c = '"' then ['"','"'] else [c]) ++ ['"']

def Op.code : Op → Text
  | .and => "AND".toList
  | .or => "OR".toList
  | .eq => ['=']
  | .ne => ['<','>']
  | .lt => ['<']
  | .gt => ['>']
  | .le => ['<','=']
  | .ge => ['>','=']
  | .plus => ['+']
  | .minus => ['-']
  | .times => ['*']
  | .div => ['/']

def jsNumber : Value Text → Option Text
  | .int (.ofNat n) => some (Nat.toDigits 10 n)
  | .int (.negSucc n) => some ('-' :: Nat.toDigits 10 (n + 1))
  | .double bits => some (Binary64.format bits)
  | _ => none

section lowering

variable (casing : Casing) (dialect : Dialect)

def bindParam (name : Text) (value : Value Text) (type : IRType) (isNull : Bool)
    (params : List Param) : Except Refused (Text × List Param) := do
  let params := params ++ [⟨name,value,type.seam,isNull⟩]
  let sql ← placeholder casing dialect params.length type.seam
  .ok (sql,params)

def binText (op : Op) (type : IRType) (left right : Text) : Except Refused Text :=
  if op = .div then
    if dialect ≠ .sqlite then .error .division
    else if type.abap = .I then .ok ('(' :: left ++ " / ".toList ++ right ++ [')'])
    else .ok ("((".toList ++ left ++ ") * 1.0 / (".toList ++ right ++ "))".toList)
  else .ok ('(' :: left ++ ' ' :: op.code ++ ' ' :: right ++ [')'])

mutual

@[grind =] def lower : GoIR → List Param → Except Refused (Text × List Param)
  | .col name source _,params =>
    .ok (match source with
      | none => quote name
      | some source => quote source ++ '.' :: quote name,params)
  | .lit value type,params =>
    match jsNumber value with
    | some s => .ok (s,params)
    | none =>
      bindParam casing dialect ('p' :: Nat.toDigits 10 params.length) value type (value == .null) params
  | .param name value type isNull,params => bindParam casing dialect name value type isNull params
  | .bin op left right type,params => do
    let (l,params) ← lower left params
    let (r,params) ← lower right params
    let sql ← binText dialect op type l r
    .ok (sql,params)
  | .isnull expr,params => do
    let (x,params) ← lower expr params
    .ok ('(' :: x ++ " IS NULL)".toList,params)
  | .not expr,params => do
    let (x,params) ← lower expr params
    .ok ("(NOT ".toList ++ x ++ [')'],params)
  | .like expr pattern escape negated,params => do
    let (x,params) ← lower expr params
    let (p,params) ← lower pattern params
    let (esc,params) ← lowerOption escape params
    .ok (likeText dialect x p esc negated,params)
  | .inList expr values negated,params => do
    let (x,params) ← lower expr params
    let (vals,params) ← lowerList values params
    let neg := if negated then " NOT".toList else []
    .ok ('(' :: x ++ neg ++ " IN (".toList ++ [',',' '].intercalate vals ++ "))".toList,params)

@[grind =] def lowerOption : Option GoIR → List Param → Except Refused (Option Text × List Param)
  | none,params => .ok (none,params)
  | some e,params => do
    let (x,params) ← lower e params
    .ok (some x,params)

@[grind =] def lowerList : List GoIR → List Param → Except Refused (List Text × List Param)
  | [],params => .ok ([],params)
  | e :: es,params => do
    let (x,params) ← lower e params
    let (xs,params) ← lowerList es params
    .ok (x :: xs,params)

end

end lowering

def dialectOf (name : String) : Except Refused Dialect :=
  if name = "sqlite" ∨ name = "" then .ok .sqlite
  else if name = "duckdb" then .ok .duckdb
  else if name = "postgres" then .ok .postgres
  else if name = "hana" then .ok .hana
  else .error (.dialect name)

def lowerPredicateIn (casing : Casing) (pred : GoIR) (dialect : String) :
    Except Refused (Text × List Param) := do
  let dialect ← dialectOf dialect
  lower casing dialect pred []

end OpenSteamgate.Osql
