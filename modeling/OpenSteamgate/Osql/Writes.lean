import OpenSteamgate.Osql.Lower

namespace OpenSteamgate.Osql

inductive IRRel
  | scan (table : Text)
  | filter (input : IRRel) (pred : GoIR)
  | project (input : IRRel) (items : List (Text × GoIR))
  | other (rel : Text)

structure IRSet where
  col : Text
  expr : GoIR

inductive WriteKind
  | insert
  | update
  | delete
  | upsert
  | other (name : Text)

structure IRWrite where
  write : WriteKind
  table : Text
  columns : List Text := []
  rows : List (List GoIR) := []
  source : Option IRRel := none
  onDuplicate : String := ""
  expected : Nat := 0
  set : List IRSet := []
  pred : Option GoIR := none
  key : List Text := []
  fill : List IRSet := []

inductive WriteError
  | expr (e : Refused)
  | noRelation
  | relation (rel : Text)
  | noWrite (name : Text)

def IRRel.name : IRRel → Text
  | .scan _ => "scan".toList
  | .filter _ _ => "filter".toList
  | .project _ _ => "project".toList
  | .other rel => rel

def commas (parts : List Text) : Text := [',',' '].intercalate parts

section lowering

variable (casing : Casing)

def expr (e : GoIR) (params : List Param) : Except WriteError (Text × List Param) :=
  match lower casing .sqlite e params with
  | .ok r => .ok r
  | .error e => .error (.expr e)

def exprs {α : Type} (e : α → GoIR) (place : α → Text → Text) :
    List α → List Param → Except WriteError (List Text × List Param)
  | [],params => .ok ([],params)
  | x :: xs,params => do
    let (s,params) ← expr casing (e x) params
    let (ss,params) ← exprs e place xs params
    .ok (place x s :: ss,params)

def items (list : List (Text × GoIR)) (params : List Param) :
    Except WriteError (Text × List Param) := do
  let (parts,params) ← exprs casing (·.2) (fun item s => s ++ " AS ".toList ++ quote item.1) list params
  .ok (commas parts,params)

def sel : IRRel → List Param → Except WriteError (Text × List Param)
  | .scan table,params => .ok ("SELECT * FROM ".toList ++ quote table,params)
  | .filter (.scan table) pred,params => do
    let (p,params) ← expr casing pred params
    .ok ("SELECT * FROM ".toList ++ quote table ++ " WHERE ".toList ++ p,params)
  | .project (.filter (.scan table) pred) list,params => do
    let (its,params) ← items casing list params
    let (p,params) ← expr casing pred params
    .ok ("SELECT ".toList ++ its ++ " FROM ".toList ++ quote table ++ " WHERE ".toList ++ p,params)
  | .project (.scan table) list,params => do
    let (its,params) ← items casing list params
    .ok ("SELECT ".toList ++ its ++ " FROM ".toList ++ quote table,params)
  | r,_ => .error (if r.name = [] then .noRelation else .relation r.name)

def cols (list : List Text) : Text := '(' :: commas (list.map quote) ++ [')']

def rowValues (row : List GoIR) (params : List Param) : Except WriteError (Text × List Param) := do
  let (vs,params) ← exprs casing id (fun _ s => s) row params
  .ok ('(' :: commas vs ++ [')'],params)

def rowsValues : List (List GoIR) → List Param → Except WriteError (List Text × List Param)
  | [],params => .ok ([],params)
  | row :: rows,params => do
    let (s,params) ← rowValues casing row params
    let (ss,params) ← rowsValues rows params
    .ok (s :: ss,params)

def rowsText (rows : List (List GoIR)) (params : List Param) :
    Except WriteError (Text × List Param) := do
  let (parts,params) ← rowsValues casing rows params
  .ok (commas parts,params)

def whereText (pred : Option GoIR) (params : List Param) : Except WriteError (Text × List Param) :=
  match pred with
  | none => .ok ([],params)
  | some pred => do
    let (p,params) ← expr casing pred params
    .ok (" WHERE ".toList ++ p,params)

def upsertAction (columns key : List Text) : Text :=
  let rest := (columns.filter fun c => !key.contains c).map fun c => quote c ++ " = excluded.".toList ++ quote c
  if rest = [] then "DO NOTHING".toList else "DO UPDATE SET ".toList ++ commas rest

def upsertSource (source : IRRel) (fill : List IRSet) (params : List Param) :
    Except WriteError (Text × List Param) := do
  if fill = [] then
    let (from_,params) ← sel casing source params
    .ok ("SELECT * FROM (".toList ++ from_ ++ ") WHERE true".toList,params)
  else
    let (vs,params) ← exprs casing IRSet.expr (fun _ s => ", ".toList ++ s) fill params
    let (from_,params) ← sel casing source params
    .ok ("SELECT \"q\".*".toList ++ vs.flatten ++ " FROM (".toList ++ from_ ++
      ") AS \"q\" WHERE true".toList,params)

def write (w : IRWrite) (params : List Param) : Except WriteError (Text × List Param) :=
  match w.write with
  | .insert => do
    let skip := w.onDuplicate = "ignore" ∨ w.onDuplicate = "raise"
    let ignore := if skip then " ON CONFLICT DO NOTHING".toList else []
    let head := "INSERT INTO ".toList ++ quote w.table ++ ' ' :: cols w.columns
    match w.source with
    | some source =>
      let (from_,params) ← sel casing source params
      let from_ := if skip then "SELECT * FROM (".toList ++ from_ ++ ") WHERE true".toList else from_
      .ok (head ++ ' ' :: from_ ++ ignore,params)
    | none =>
      let (rows,params) ← rowsText casing w.rows params
      .ok (head ++ " VALUES ".toList ++ rows ++ ignore,params)
  | .update => do
    let (set,params) ←
      exprs casing IRSet.expr (fun s e => quote s.col ++ " = ".toList ++ e) w.set params
    let (pred,params) ← whereText casing w.pred params
    .ok ("UPDATE ".toList ++ quote w.table ++ " SET ".toList ++ commas set ++ pred,params)
  | .delete => do
    let (pred,params) ← whereText casing w.pred params
    .ok ("DELETE FROM ".toList ++ quote w.table ++ pred,params)
  | .upsert => do
    let all := w.columns ++ w.fill.map IRSet.col
    let head := "INSERT INTO ".toList ++ quote w.table ++ ' ' :: cols all
    let tail := " ON CONFLICT ".toList ++ cols w.key ++ ' ' :: upsertAction w.columns w.key
    match w.source with
    | some source =>
      let (from_,params) ← upsertSource casing source w.fill params
      .ok (head ++ ' ' :: from_ ++ tail,params)
    | none =>
      let (rows,params) ← rowsText casing (w.rows.map (· ++ w.fill.map IRSet.expr)) params
      .ok (head ++ " VALUES ".toList ++ rows ++ tail,params)
  | .other name => .error (.noWrite name)

def lowerWrite (w : IRWrite) : Except WriteError (Text × List Param) := write casing w []

def lowerPredicate (pred : GoIR) : Except Refused (Text × List Param) := lower casing .sqlite pred []

end lowering

end OpenSteamgate.Osql
