import Mathlib.Data.Nat.Notation
import Mathlib.Data.List.Basic

namespace OpenSteamgate.Gateway.Filter

inductive Kind
  | lparen
  | rparen
  | comma
  | string
  | number
  | ident
  | typed
  | done
  deriving DecidableEq

def Kind.name : Kind → String
  | .lparen => "LPAREN"
  | .rparen => "RPAREN"
  | .comma => "COMMA"
  | .string => "STRING"
  | .number => "NUMBER"
  | .ident => "IDENT"
  | .typed => "TYPED"
  | .done => "END"

structure Token where
  kind : Kind
  value : String

inductive Raise
  | badFilter (message : String)
  | propertyNotFound (message : String)
  | fuel

structure Case where
  lower : String → String
  upper : String → String

structure EntitySet where
  entityType : String
  properties : List String

variable (case : Case) (set : EntitySet)

def fail {α : Type} (message : String) : Except Raise α := .error (.badFilter message)

section Tokenize

def digit (c : Char) : Bool := c ∈ ['0','1','2','3','4','5','6','7','8','9']

def letter (c : Char) : Bool :=
  (case.upper (String.singleton c)).toList.any (· ∈ "ABCDEFGHIJKLMNOPQRSTUVWXYZ".toList)

def numberChar (c : Char) : Bool := digit c || c == '.' || c == '-'

def identChar (c : Char) : Bool :=
  letter case c || digit c || c == '_' || c == '.' || c == '/' || c == '$'

def quoted : List Char → List Char × List Char
  | [] => ([],[])
  | ['\''] => ([],[])
  | '\'' :: '\'' :: cs => ('\'' :: (quoted cs).1,(quoted cs).2)
  | '\'' :: cs => ([],cs)
  | c :: cs => (c :: (quoted cs).1,(quoted cs).2)

def identToken (name rest : List Char) : Token × List Char :=
  match rest with
  | '\'' :: cs =>
    let raw := cs.takeWhile (· ≠ '\'')
    (⟨.typed,case.lower (String.ofList name) ++ ":" ++ String.ofList raw⟩,
      (cs.dropWhile (· ≠ '\'')).drop 1)
  | _ => (⟨.ident,String.ofList name⟩,rest)

def tokenizeFrom (len : Nat) : Nat → List Char → Except Raise (List Token)
  | _,[] => .ok []
  | 0,_ => .error .fuel
  | n + 1,c :: cs =>
    let token (t : Token) (rest : List Char) : Except Raise (List Token) :=
      (tokenizeFrom len n rest).map (t :: ·)
    if c = ' ' then tokenizeFrom len n cs
    else if c = '(' then token ⟨.lparen,""⟩ cs
    else if c = ')' then token ⟨.rparen,""⟩ cs
    else if c = ',' then token ⟨.comma,""⟩ cs
    else if c = '\'' then token ⟨.string,String.ofList (quoted cs).1⟩ (quoted cs).2
    else if digit c || c == '-' then
      token ⟨.number,String.ofList (c :: cs.takeWhile numberChar)⟩ (cs.dropWhile numberChar)
    else if letter case c || c == '_' || c == '$' then
      let (t,rest) := identToken case (c :: cs.takeWhile (identChar case))
        (cs.dropWhile (identChar case))
      token t rest
    else fail ("Unexpected character '" ++ String.singleton c ++ "' at " ++
      toString (len - (cs.length + 1)) ++ " in $filter")

def tokenize (filter : String) : Except Raise (List Token) :=
  tokenizeFrom case filter.toList.length filter.toList.length filter.toList

end Tokenize

inductive NodeKind
  | cmp
  | fn
  | not
  | or
  | and
  deriving DecidableEq

structure Node where
  kind : NodeKind
  left : Nat := 0
  right : Nat := 0
  property : String := ""
  op : String := ""
  value : String := ""

structure Parser where
  tokens : List Token
  nodes : List Node

namespace Parser

def peek (s : Parser) : Token := s.tokens.headD ⟨.done,""⟩

def take (s : Parser) : Token × Parser := (s.peek,{s with tokens := s.tokens.tail})

def addNode (s : Parser) (node : Node) : Nat × Parser :=
  (s.nodes.length + 1,{s with nodes := s.nodes ++ [node]})

end Parser

def expect (s : Parser) (kind : Kind) : Except Raise Parser :=
  let (t,s) := s.take
  if t.kind = kind then .ok s
  else fail ("Expected " ++ kind.name ++ "  in $filter, got " ++ t.kind.name ++ " " ++ t.value)

def findProperty (name : String) : Except Raise String :=
  match set.properties.find? fun p => case.upper p == case.upper name with
  | some p => .ok p
  | none => .error (.propertyNotFound
      ("Property " ++ name ++ " does not exist in " ++ set.entityType))

def without (c : Char) (s : String) : String := String.ofList (s.toList.filter (· ≠ c))

def literalValue (t : Token) : Except Raise String :=
  match t.kind with
  | .string => .ok t.value
  | .number => .ok t.value
  | .ident =>
    if case.lower t.value = "true" then .ok "X"
    else if case.lower t.value = "false" then .ok ""
    else if case.lower t.value = "null" then .ok ""
    else fail ("Expected a literal in $filter, got " ++ t.value)
  | .typed =>
    let type := String.ofList (t.value.toList.takeWhile (· ≠ ':'))
    let raw := String.ofList ((t.value.toList.dropWhile (· ≠ ':')).drop 1)
    if type = "datetime" then .ok (without 'T' (without ':' (without '-' raw)))
    else if type = "guid" then .ok (case.upper (without '-' raw))
    else .ok raw
  | _ => fail "Expected a literal in $filter"

def comparison (op : String) : Bool := op ∈ ["eq","ne","gt","ge","lt","le"]

def parseFunction (s : Parser) (name : String) : Except Raise (Nat × Parser) := do
  if name = "startswith" ∨ name = "endswith" then
    let (t,s) := s.take
    let property ← findProperty case set t.value
    let s ← expect s .comma
    let (v,s) := s.take
    let value ← literalValue case v
    let s ← expect s .rparen
    return s.addNode {kind := .fn,property,op := name,value}
  else if name = "substringof" then
    let (v,s) := s.take
    let value ← literalValue case v
    let s ← expect s .comma
    let (t,s) := s.take
    let property ← findProperty case set t.value
    let s ← expect s .rparen
    return s.addNode {kind := .fn,property,op := name,value}
  else if name = "tolower" ∨ name = "toupper" ∨ name = "trim" then
    let (t,s) := s.take
    let s ← expect s .rparen
    let property ← findProperty case set t.value
    let (o,s) := s.take
    let (v,s) := s.take
    let value ← literalValue case v
    return s.addNode {kind := .cmp,property,op := case.lower o.value,value}
  else fail ("Function " ++ name ++ " is not supported in $filter")

def parseComparison (s : Parser) (name : String) : Except Raise (Nat × Parser) := do
  let property ← findProperty case set name
  let (o,s) := s.take
  if o.kind ≠ .ident ∨ !comparison (case.lower o.value) then
    fail ("Expected a comparison operator after " ++ property ++ " in $filter")
  else
    let (v,s) := s.take
    let value ← literalValue case v
    return s.addNode {kind := .cmp,property,op := case.lower o.value,value}

def keyword (t : Token) (word : String) : Bool := t.kind == .ident && case.lower t.value == word

mutual

def parseOr : Nat → Parser → Except Raise (Nat × Parser)
  | 0,_ => .error .fuel
  | n + 1,s => do
    let (id,s) ← parseAnd n s
    orLoop n id s

def orLoop : Nat → Nat → Parser → Except Raise (Nat × Parser)
  | 0,_,_ => .error .fuel
  | n + 1,id,s =>
    if !keyword case s.peek "or" then .ok (id,s)
    else do
      let (right,s) ← parseAnd n s.take.2
      let (id,s) := s.addNode {kind := .or,left := id,right}
      orLoop n id s

def parseAnd : Nat → Parser → Except Raise (Nat × Parser)
  | 0,_ => .error .fuel
  | n + 1,s => do
    let (id,s) ← parseUnary n s
    andLoop n id s

def andLoop : Nat → Nat → Parser → Except Raise (Nat × Parser)
  | 0,_,_ => .error .fuel
  | n + 1,id,s =>
    if !keyword case s.peek "and" then .ok (id,s)
    else do
      let (right,s) ← parseUnary n s.take.2
      let (id,s) := s.addNode {kind := .and,left := id,right}
      andLoop n id s

def parseUnary : Nat → Parser → Except Raise (Nat × Parser)
  | 0,_ => .error .fuel
  | n + 1,s =>
    if keyword case s.peek "not" then do
      let (left,s) ← parseUnary n s.take.2
      return s.addNode {kind := .not,left}
    else parsePrimary n s

def parsePrimary : Nat → Parser → Except Raise (Nat × Parser)
  | 0,_ => .error .fuel
  | n + 1,s => do
    let (t,s) := s.take
    if t.kind = .lparen then
      let (id,s) ← parseOr n s
      let s ← expect s .rparen
      return (id,s)
    else if t.kind ≠ .ident then
      fail ("Expected a property or function in $filter, got " ++ t.value)
    else if s.peek.kind = .lparen then parseFunction case set s.take.2 (case.lower t.value)
    else parseComparison case set s t.value

end

def parseTree (tokens : List Token) : Except Raise (List Node) := do
  let (_,s) ← parseOr case set (4 * tokens.length + 4) ⟨tokens,[]⟩
  if s.peek.kind ≠ .done then fail ("Unexpected " ++ s.peek.value ++ " in $filter")
  else return s.nodes

inductive Sign
  | I
  | E
  deriving DecidableEq

inductive Opt
  | EQ
  | GT
  | GE
  | LT
  | LE
  | BT
  | CP
  deriving DecidableEq

structure SelectOption where
  sign : Sign
  option : Opt
  low : String
  high : String := ""

structure Group where
  property : String
  options : List SelectOption

def comparisonOption (op value : String) : Option SelectOption :=
  if op = "eq" then some {sign := .I,option := .EQ,low := value}
  else if op = "ne" then some {sign := .E,option := .EQ,low := value}
  else if op = "gt" then some {sign := .I,option := .GT,low := value}
  else if op = "ge" then some {sign := .I,option := .GE,low := value}
  else if op = "lt" then some {sign := .I,option := .LT,low := value}
  else if op = "le" then some {sign := .I,option := .LE,low := value}
  else none

def escape (value : List Char) : List Char :=
  value.flatMap fun c => if c = '*' ∨ c = '+' ∨ c = '#' then ['#',c] else [c]

def functionOption (op value : String) : Option SelectOption :=
  let cp := escape value.toList
  if op = "startswith" then
    some {sign := .I,option := .CP,low := String.ofList (cp ++ ['*'])}
  else if op = "endswith" then
    some {sign := .I,option := .CP,low := String.ofList ('*' :: cp)}
  else if op = "substringof" then
    some {sign := .I,option := .CP,low := String.ofList ('*' :: cp ++ ['*'])}
  else none

def foldBound (o : SelectOption) : List SelectOption → Option (List SelectOption)
  | [] => none
  | row :: rows =>
    if row.sign = .I ∧ row.option = .GE ∧ o.option = .LE then
      some ({row with option := .BT,high := o.low} :: rows)
    else if row.sign = .I ∧ row.option = .LE ∧ o.option = .GE then
      some ({row with option := .BT,high := row.low,low := o.low} :: rows)
    else (foldBound o rows).map (row :: ·)

def mergeOption (rows : List SelectOption) (o : SelectOption) : Option (List SelectOption) :=
  if o.sign = .E then some (rows ++ [o])
  else match foldBound o rows with
    | some rows => some rows
    | none => if rows.any (·.sign = .I) then none else some (rows ++ [o])

def mergeGroup : List Group → Group → Option (List Group)
  | [],right => some [right]
  | group :: groups,right =>
    if group.property = right.property then
      (right.options.foldlM mergeOption group.options).map fun options =>
        {group with options} :: groups
    else (mergeGroup groups right).map (group :: ·)

def mergeAnd (left right : List Group) : Option (List Group) := right.foldlM mergeGroup left

def orGroups (left right : List Group) : Option (List Group) :=
  match left,right with
  | [l],[r] =>
    if l.property ≠ r.property then none
    else if l.options.any (·.sign = .E) then none
    else if r.options.any (·.sign = .E) then none
    else some [{l with options := l.options ++ r.options}]
  | _,_ => none

def nodeAt (nodes : List Node) (id : Nat) : Option Node := if id = 0 then none else nodes[id - 1]?

-- a node's children were added before it, so that the depth asked for is its number
def toGroups (nodes : List Node) : Nat → Nat → Option (List Group)
  | 0,_ => none
  | n + 1,id => do
    let node ← nodeAt nodes id
    match node.kind with
    | .cmp =>
      let option ← comparisonOption node.op node.value
      return [⟨node.property,[option]⟩]
    | .fn =>
      let option ← functionOption node.op node.value
      return [⟨node.property,[option]⟩]
    | .not =>
      let child ← nodeAt nodes node.left
      if child.kind ≠ .cmp ∨ child.op ≠ "eq" then none
      else return [⟨child.property,[{sign := .E,option := .EQ,low := child.value}]⟩]
    | .or =>
      let left ← toGroups nodes n node.left
      if left.length ≠ 1 then none
      else
        let right ← toGroups nodes n node.right
        orGroups left right
    | .and =>
      let left ← toGroups nodes n node.left
      let right ← toGroups nodes n node.right
      mergeAnd left right

def parse (filter : String) : Except Raise (List Group) := do
  if filter = "" then return []
  else
    let tokens ← tokenize case filter
    let nodes ← parseTree case set tokens
    return (toGroups nodes nodes.length nodes.length).getD []

end OpenSteamgate.Gateway.Filter
