import Mathlib.Data.List.DropRight
import OpenSteamgate.Gateway.Entities

namespace OpenSteamgate.Gateway.Url

structure Request where
  service : Text := []
  entitySet : Text := []
  keyString : Text := []
  navProp : Text := []
  navKeyString : Text := []
  isServiceRoot : Bool := false
  isMetadata : Bool := false
  isBatch : Bool := false
  isCount : Bool := false
  isValue : Bool := false
  options : List (Text × Text) := []

inductive Raise
  | stg (status : Nat) (code : String) (message : Text)
  | unescape

def badKey (message : Text) : Raise := .stg 400 "STG/BAD_KEY" message

abbrev Unescape := Text → Option Text

def unescaped (unescape : Unescape) (text : Text) : Except Raise Text :=
  match unescape text with
  | some text => .ok text
  | none => .error .unescape

section path

def root : Text := "/sap/opu/odata/sap/".toList

def serviceAt (text : Text) : Option (Text × Text) :=
  if root.isPrefixOf text then
    let tail := text.drop root.length
    let service := tail.takeWhile fun c => c ≠ '/' ∧ c ≠ '?'
    if service = [] then none else some (service,tail.dropWhile fun c => c ≠ '/' ∧ c ≠ '?')
  else none

def findService : Text → Option (Text × Text)
  | [] => serviceAt []
  | c :: cs =>
    match serviceAt (c :: cs) with
    | some r => some r
    | none => findService cs

def scanKeys : Bool → Text → Option (Text × Text)
  | _,[] => none
  | true,'\'' :: '\'' :: cs => (scanKeys true cs).map fun r => ('\'' :: '\'' :: r.1,r.2)
  | quote,c :: cs =>
    if c = '\'' then (scanKeys (!quote) cs).map fun r => (c :: r.1,r.2)
    else if c = ')' ∧ quote = false then some ([],c :: cs)
    else (scanKeys quote cs).map fun r => (c :: r.1,r.2)

def nameChar (c : Char) : Bool := c ≠ '/' && c ≠ '(' && c ≠ ')'

def keyed (name : Text) : Option (Text × Text) → Text × Text × Text
  | some (keys,after) => if keys = [] then ([],[],after) else (name,keys,after.drop 1)
  | none => ([],[],[])

def segment (text : Text) : Text × Text × Text :=
  let name := text.takeWhile nameChar
  match text.dropWhile nameChar with
  | '(' :: rest => keyed name (scanKeys false rest)
  | rest => (name,[],rest)

def isFixed (name text : Text) : Bool := text == name || text == name ++ ['/']

def isCountSegment (text : Text) : Bool := isFixed "$count".toList text

def isValueSegment (text : Text) : Bool := isFixed "$value".toList text

def flagged (r : Request) (text : Text) : Request × Text :=
  if isCountSegment text then ({r with isCount := true},[])
  else if isValueSegment text then ({r with isValue := true},[])
  else (r,text)

def navigation (r : Request) (text : Text) : Request × Text :=
  match text with
  | '/' :: [] => (r,[])
  | '/' :: rest =>
    if isCountSegment rest || isValueSegment rest then flagged r rest
    else
      let nav := segment rest
      let r := {r with navProp := nav.1,navKeyString := nav.2.1}
      match nav.2.2 with
      | '/' :: rest => flagged r rest
      | rest => (r,rest)
  | rest => (r,rest)

def resource (unescape : Unescape) (r : Request) (rest : Text) : Except Raise Request := do
  let set := segment (rest.drop 1)
  let last := navigation {r with keyString := set.2.1} set.2.2
  if set.1 = [] ∨ last.2 ≠ [] then
    .error (.stg 400 "STG/BAD_RESOURCE_PATH" ("Unsupported resource path: ".toList ++ rest))
  else
    let entitySet ← unescaped unescape set.1
    let navProp ← unescaped unescape last.1.navProp
    .ok {last.1 with entitySet,navProp}

def parse (unescape : Unescape) (path : Text) (options : List (Text × Text)) : Except Raise Request := do
  match findService path with
  | none => .error (.stg 404 "STG/NOT_ODATA" ("Not an OData path: ".toList ++ path))
  | some (service,rest) =>
    let service ← unescaped unescape service
    let r : Request := {service,options}
    if isFixed [] rest then .ok {r with isServiceRoot := true}
    else if isFixed "/$metadata".toList rest then .ok {r with isMetadata := true}
    else if isFixed "/$batch".toList rest then .ok {r with isBatch := true}
    else resource unescape r rest

end path

section keys

def splitKeys : Bool → Text → Option (List Text)
  | quote,[] => if quote then none else some [[]]
  | true,'\'' :: '\'' :: cs => (splitKeys true cs).map (List.modifyHead ('\'' :: '\'' :: ·))
  | quote,c :: cs =>
    if c = '\'' then (splitKeys (!quote) cs).map (List.modifyHead (c :: ·))
    else if c = ',' ∧ quote = false then (splitKeys quote cs).map ([] :: ·)
    else (splitKeys quote cs).map (List.modifyHead (c :: ·))

def splitName : Bool → Text → Option (Text × Text)
  | _,[] => none
  | quote,c :: cs =>
    if c = '\'' then (splitName (!quote) cs).map fun r => (c :: r.1,r.2)
    else if c = '=' ∧ quote = false then some ([],cs)
    else (splitName quote cs).map fun r => (c :: r.1,r.2)

-- SHIFT RIGHT keeps the length: a blank comes in on the left for each one deleted
def trim (text : Text) : Text :=
  let text := text.dropWhile (· = ' ')
  let kept := text.rdropWhile (· = ' ')
  List.replicate (text.length - kept.length) ' ' ++ kept

def squeeze : Text → Text
  | ' ' :: ' ' :: cs => squeeze (' ' :: cs)
  | c :: cs => c :: squeeze cs
  | [] => []

def condense (text : Text) : Text := squeeze ((text.dropWhile (· = ' ')).rdropWhile (· = ' '))

def unquote (text : Text) : Text :=
  if 2 ≤ text.length ∧ text.head? = some '\'' ∧ text.getLast? = some '\'' then
    Quoted.halve '\'' (text.drop 1).dropLast
  else text

def keyOf (keyString : Text) (names : List Text) (part : Text) : Except Raise (Text × Text) :=
  let part := trim part
  match splitName false part with
  | some (name,value) => .ok (condense name,trim value)
  | none =>
    match names with
    | [name] => .ok (name,part)
    | _ => .error (badKey ("Key predicate must name every key property: ".toList ++ keyString))

def addKey (unescape : Unescape) (keyString : Text) (names : List Text) (tab : List (Text × Text))
    (part : Text) : Except Raise (List (Text × Text)) := do
  let key ← keyOf keyString names part
  if key.1 = [] ∨ key.2 = [] then .error (badKey "Malformed key predicate".toList)
  else
    let name ← unescaped unescape key.1
    let value ← unescaped unescape key.2
    if name ∈ tab.map (·.1) then .error (badKey "Duplicate key property".toList)
    else .ok (tab ++ [(name,unquote value)])

def checked (names : List Text) (tab : List (Text × Text)) : Except Raise (List (Text × Text)) :=
  if tab.length ≠ names.length then .error (badKey "Wrong number of key properties".toList)
  else if ∃ name ∈ names,name ∉ tab.map (·.1) then .error (badKey "Unknown key property".toList)
  else .ok tab

def parseKeys (unescape : Unescape) (keyString : Text) (names : List Text) :
    Except Raise (List (Text × Text)) := do
  if keyString = [] then .ok []
  else
    match splitKeys false keyString with
    | none => .error (badKey "Malformed key predicate".toList)
    | some parts =>
      if parts.getLast? = some [] then .error (badKey "Malformed key predicate".toList)
      else
        let tab ← parts.foldlM (addKey unescape keyString names) []
        checked names tab

end keys

end OpenSteamgate.Gateway.Url
