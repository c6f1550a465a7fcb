import Mathlib.Logic.Function.Basic
import Mathlib.Data.List.Basic

namespace OpenSteamgate.Amc

structure Letters where
  upper : String → String
  lower : String → String
  trim : String → String
  equalFold : String → String → Bool

structure Authority where
  path : String
  program : String
  activity : String

structure Channel where
  app : String
  path : String
  type : String
  scope : String
  auth : List Authority

structure Key where
  app : String
  path : String
  deriving DecidableEq

structure Message (Payload : Type) where
  type : String
  payload : Payload
  client : String
  username : String

structure Endpoint (Session : Type) where
  session : Session
  program : String
  client : String
  username : String

inductive Kind
  | notDefined
  | notAuthorised
  | wrongType

structure Refusal where
  reason : String
  kind : Kind

structure Subscription (Session Receiver : Type) where
  id : Nat
  channel : Key
  extension : String
  endpoint : Endpoint Session
  receiver : Receiver

structure Delivery (Session Receiver Payload : Type) where
  sub : Subscription Session Receiver
  msg : Message Payload
  seq : Nat

inductive Frame (Session Receiver Payload : Type)
  | opened (inbox : Nat)
  | looping (inbox : Nat) (q : List (Delivery Session Receiver Payload))
  | receiving (inbox : Nat) (q : List (Delivery Session Receiver Payload))

structure Publication (Session Payload : Type) where
  channel : Key
  scope : String
  extension : String
  sender : Endpoint Session
  suppressEcho : Bool
  msg : Message Payload
  live : Nat → Bool

structure Sending (Session Receiver Payload : Type) where
  publication : Publication Session Payload
  more : List (Subscription Session Receiver)

structure State (Session Receiver Payload : Type) where
  channels : Key → Option Channel := fun _ => none
  subs : List (Subscription Session Receiver) := []
  active : Nat → Bool := fun _ => false
  inbox : Session → Nat := fun _ => 0
  queue : Session → Nat → List (Delivery Session Receiver Payload) := fun _ _ => []
  pumps : Session → List (Frame Session Receiver Payload) := fun _ => []
  sending : Option (Sending Session Receiver Payload) := none
  made : List (Subscription Session Receiver) := []
  published : List (Publication Session Payload) := []
  delivered : List (Delivery Session Receiver Payload) := []

section channels

variable (h : Letters)

def keyOf (app path : String) : Key := ⟨h.upper (h.trim app),h.lower (h.trim path)⟩

def define (channels : Key → Option Channel) : List Channel → Key → Option Channel
  | [] => channels
  | c :: more =>
    let c := {c with app := h.upper c.app,path := h.lower c.path,type := h.upper c.type}
    define (Function.update channels (keyOf h c.app c.path) (some c)) more

def channel (channels : Key → Option Channel) (app path activity program : String) :
    Except Refusal (Key × Channel) :=
  match channels (keyOf h app path) with
  | none => .error ⟨"AMC channel " ++ h.trim app ++ " " ++ h.trim path ++ " is not defined.",.notDefined⟩
  | some c =>
    if c.auth.any fun a => h.lower a.path = c.path && a.activity = activity &&
        h.equalFold a.program program then .ok (keyOf h app path,c)
    else .error ⟨"AMC " ++ (if activity = "S" then "send" else "receive") ++ " is not authorised for " ++
      (if program = "" then "unknown program" else program) ++ ".",.notAuthorised⟩

variable {Payload : Type}

def sendable (channels : Key → Option Channel) (app path program : String) (m : Message Payload) :
    Except Refusal (Key × Channel) := do
  let (key,c) ← channel h channels app path "S" program
  if c.type ≠ h.upper m.type then
    .error ⟨"AMC channel " ++ c.path ++ " expects " ++ c.type ++ ", got " ++ h.upper m.type ++ ".",
      .wrongType⟩
  else .ok (key,c)

end channels

section publications

variable {Session Receiver Payload : Type} [DecidableEq Session]

def Publication.reaches (p : Publication Session Payload) (s : Subscription Session Receiver) : Bool :=
  if s.channel ≠ p.channel ∨ s.extension ≠ p.extension then false
  else if (p.scope = "C" ∨ p.scope = "U") ∧ s.endpoint.client ≠ p.sender.client then false
  else if p.scope = "U" ∧ s.endpoint.username ≠ p.sender.username then false
  else if p.suppressEcho = true ∧ s.endpoint.session = p.sender.session then false
  else true

structure Publication.Matches (p : Publication Session Payload) (s : Subscription Session Receiver) : Prop where
  active : p.live s.id = true
  channel : s.channel = p.channel
  extension : s.extension = p.extension
  client : p.scope = "C" ∨ p.scope = "U" → s.endpoint.client = p.sender.client
  user : p.scope = "U" → s.endpoint.username = p.sender.username
  echo : p.suppressEcho = true → s.endpoint.session ≠ p.sender.session

theorem matches_iff (p : Publication Session Payload) (s : Subscription Session Receiver) :
    p.Matches s ↔ (p.live s.id && p.reaches s) = true := by
  rw [Publication.reaches,Bool.and_eq_true]
  constructor
  · rintro ⟨hactive,hchannel,hextension,hclient,huser,hecho⟩
    refine ⟨hactive,?_⟩
    rw [if_neg fun hne => hne.elim (· hchannel) (· hextension),if_neg fun hne => hne.2 (hclient hne.1),
      if_neg fun hne => hne.2 (huser hne.1),if_neg fun hne => hecho hne.1 hne.2]
  · rintro ⟨hactive,hreaches⟩
    split at hreaches
    · exact nomatch hreaches
    rename_i haddress
    split at hreaches
    · exact nomatch hreaches
    rename_i hclient
    split at hreaches
    · exact nomatch hreaches
    rename_i huser
    split at hreaches
    · exact nomatch hreaches
    rename_i hecho
    rw [not_or,not_not,not_not] at haddress
    exact ⟨hactive,haddress.1,haddress.2,fun hscope => not_not.mp fun hne => hclient ⟨hscope,hne⟩,
      fun hscope => not_not.mp fun hne => huser ⟨hscope,hne⟩,fun hsuppress hsame =>
        hecho ⟨hsuppress,hsame⟩⟩

def owed (published : List (Publication Session Payload)) (s : Subscription Session Receiver) : List Nat :=
  (published.zipIdx.filter fun x => x.1.live s.id && x.1.reaches s).map Prod.snd

theorem owed_snoc (published : List (Publication Session Payload)) (p : Publication Session Payload)
    (s : Subscription Session Receiver) : owed (published ++ [p]) s =
      owed published s ++ if p.live s.id && p.reaches s then [published.length] else [] := by
  rw [owed,owed,List.zipIdx_append,List.filter_append,List.map_append,Nat.zero_add,List.zipIdx_singleton,
    List.filter_singleton]
  cases p.live s.id && p.reaches s with
  | false => rfl
  | true => rfl

theorem owed_ended {p : Publication Session Payload} {s : Subscription Session Receiver}
    (published : List (Publication Session Payload)) (hlive : p.live s.id = false) :
    owed (published ++ [p]) s = owed published s := by
  rw [owed_snoc,hlive]
  exact List.append_nil _

theorem mem_owed (published : List (Publication Session Payload)) (s : Subscription Session Receiver) (n : Nat) :
    n ∈ owed published s ↔ ∃ p,published[n]? = some p ∧ p.Matches s := by
  rw [owed,List.mem_map]
  constructor
  · rintro ⟨⟨p,m⟩,hmem,rfl⟩
    obtain ⟨hzip,hmatches⟩ := List.mem_filter.mp hmem
    exact ⟨p,List.mem_zipIdx_iff_getElem?.mp hzip,(matches_iff p s).mpr hmatches⟩
  · rintro ⟨p,hp,hmatches⟩
    exact ⟨(p,n),List.mem_filter.mpr ⟨List.mem_zipIdx_iff_getElem?.mpr hp,(matches_iff p s).mp hmatches⟩,rfl⟩

theorem owed_sorted (published : List (Publication Session Payload)) (s : Subscription Session Receiver) :
    (owed published s).Pairwise (· < ·) := by
  have hsorted : (published.zipIdx.map Prod.snd).Pairwise (· < ·) := by
    rw [List.zipIdx_map_snd]
    exact List.pairwise_lt_range'
  exact hsorted.sublist (List.filter_sublist.map Prod.snd)

end publications

end OpenSteamgate.Amc
