import OpenSteamgate.Library.JsonText
import OpenSteamgate.Gateway.Entities

namespace OpenSteamgate.Gateway.Json

inductive Component (R : Type)
  | field (f : Field)
  | table (rows : List R)
  | structured (row : Option R)

abbrev Record (R : Type) := List (Text × Component R)

def Deep : Nat → Type
  | 0 => Empty
  | n + 1 => Record (Deep n)

abbrev Row (n : Nat) := Record (Deep n)

structure Service where
  sets : List EntitySet
  nameSpace : Text
  baseUrl : Text

def quoted (text : Text) : Text := '"' :: (text ++ ['"'])

def braced (text : Text) : Text := '{' :: (text ++ ['}'])

def member (name : String) (value : Text) : Text := JsonText.member name.toList value

def error (code message : Text) : Text :=
  braced (member "error" (braced (member "code" (quoted (escape code)) ++ ',' ::
    member "message" (braced (member "lang" (quoted "en".toList) ++ ',' ::
      member "value" (quoted (escape message)))))))

def feedOf (entities : List Text) (inlinecount : Text) : Text :=
  let rows := entities.foldl (fun rows row => if rows = [] then row else rows ++ ',' :: row) []
  let text := '{' :: JsonText.member "d".toList ('{' :: JsonText.member "results".toList ('[' :: (rows ++ [']'])))
  let text := if inlinecount = [] then text else text ++ ',' :: member "__count" (quoted inlinecount)
  text ++ ['}','}']

variable {R : Type} (service : Service) (inner : R → EntitySet → Except Raised Text)

def Record.field (row : Record R) (name : Text) : Option Field :=
  match row.lookup name with
  | some (.field f) => some f
  | _ => none

def uri (row : Record R) (set : EntitySet) : Text :=
  service.baseUrl ++ '/' :: (set.name ++ '(' :: (keyPredicate row.field set ++ [')']))

inductive Nest (R : Type)
  | nothing
  | table (rows : List R) (target : EntitySet)
  | structured (row : R) (target : EntitySet)

def nest (row : Record R) (nav : Nav) : Nest R :=
  match row.lookup nav.name,service.sets.find? (·.name = nav.targetSet) with
  | some (.table rows),some target => .table rows target
  | some (.structured (some row)),some target => .structured row target
  | _,_ => .nothing

def nested (row : Record R) (nav : Nav) : Except Raised Text :=
  match nest service row nav with
  | .nothing => return []
  | .table rows target => do
    let text := feedOf (← rows.mapM (inner · target)) []
    return (text.drop 5).take (text.length - 6)
  | .structured row target => inner row target

def deferred (uri : Text) (nav : Nav) : Text :=
  braced (member "__deferred" (braced (member "uri" (quoted (uri ++ '/' :: nav.name)))))

def navText (row : Record R) (set : EntitySet) (navJson : List (Text × Text)) (nav : Nav) :
    Except Raised Text :=
  match navJson.lookup nav.name with
  | some json => return json
  | none => do
    let text ← nested service inner row nav
    return if text = [] then deferred (uri service row set) nav else text

def Record.fields (row : Record R) (set : EntitySet) : List (Property × Field) :=
  set.properties.filterMap fun p => (row.field p.fieldname).map fun f => (p,f)

def properties (row : Record R) (set : EntitySet) : Except Raised (List (Text × Text)) :=
  (row.fields set).mapM fun x => return (x.1.name,← value x.2 x.1.edmType)

def media (set : EntitySet) (uri : Text) : Text :=
  if set.isMedia then
    ',' :: member "media_src" (quoted (uri ++ "/$value".toList)) ++
      ',' :: member "edit_media" (quoted (uri ++ "/$value".toList))
  else []

def document (row : Record R) (set : EntitySet) (fields : List (Text × Text)) : Text :=
  let uri := escape (uri service row set)
  braced (member "__metadata" (braced (member "id" (quoted uri) ++ ',' :: member "uri" (quoted uri) ++
    ',' :: member "type" (quoted (service.nameSpace ++ '.' :: set.entityType)) ++ media set uri)) ++
    fields.flatMap fun x => ',' :: JsonText.member x.1 x.2)

def entityWith (row : Record R) (set : EntitySet) (navJson : List (Text × Text)) : Except Raised Text := do
  let fields ← properties row set
  let navs ← set.navs.mapM fun nav => return (nav.name,← navText service inner row set navJson nav)
  return document service row set (fields ++ navs)

def deepEntity : (n : Nat) → Deep n → EntitySet → Except Raised Text
  | 0,row,_ => row.elim
  | n + 1,row,set => entityWith service (deepEntity n) row set []

def entity {n : Nat} (row : Row n) (set : EntitySet) (navJson : List (Text × Text)) : Except Raised Text :=
  entityWith service (deepEntity service n) row set navJson

def entry {n : Nat} (row : Row n) (set : EntitySet) (navJson : List (Text × Text)) : Except Raised Text :=
  return braced (member "d" (← entity service row set navJson))

def feed {n : Nat} (rows : List (Row n)) (set : EntitySet) (inlinecount : Text) : Except Raised Text :=
  return feedOf (← rows.mapM fun row => entity service row set []) inlinecount

end OpenSteamgate.Gateway.Json
