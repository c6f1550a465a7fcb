import Mathlib.Data.List.Infix

namespace OpenSteamgate.Apc

structure Step where
  begins : Bool := true
  dumps : Option Nat := none
  commits : Bool := true
  dump : String := ""

inductive Call
  | new
  | open
  | drain
  | message (text : String)
  | close (reason : String) (code : Int)
  deriving DecidableEq

def Step.made (step : Step) (calls : List Call) : List Call :=
  if step.begins then
    match step.dumps with
    | some k => calls.take (k + 1)
    | none => calls
  else []

def Step.failed (step : Step) (calls : List Call) : Bool :=
  !step.begins || (step.dumps.any fun k => k < calls.length) || !step.commits

structure Url where
  scheme : String
  host : String

structure Std where
  trimSpace : String → String
  equalFold : String → String → Bool
  toLower : String → String
  decodeBase64 : String → Option (List UInt8)
  parseURL : String → Option Url
  pathMatch : String → String → Option Bool

structure Request where
  proto : Nat × Nat
  method : String
  host : String
  header : String → List String

structure Channel where
  handler : String
  originPatterns : List String := []
  anyOrigin : Bool := false

def headerHasToken (std : Std) (r : Request) (name token : String) : Bool :=
  (r.header name).any fun v =>
    (v.toList.splitOn ',').any fun t => std.equalFold (std.trimSpace (String.ofList t)) token

def headerGet (r : Request) (name : String) : String := (r.header name).headD ""

def handshake (std : Std) (r : Request) : Option (Nat × String) :=
  if ¬(1 < r.proto.1 ∨ r.proto.1 = 1 ∧ 1 ≤ r.proto.2) then
    some (426,"a WebSocket handshake is HTTP/1.1")
  else if !headerHasToken std r "Connection" "Upgrade" || !headerHasToken std r "Upgrade" "websocket" then
    some (426,"this is an APC channel: a WebSocket upgrade is required")
  else if r.method ≠ "GET" then some (405,"a WebSocket handshake is a GET")
  else if headerGet r "Sec-WebSocket-Version" ≠ "13" then
    some (400,"Sec-WebSocket-Version 13 is required")
  else
    match r.header "Sec-WebSocket-Key" with
    | [key] =>
      if (std.decodeBase64 (std.trimSpace key)).map List.length = some 16 then none
      else some (400,"Sec-WebSocket-Key is not 16 bytes of base64")
    | _ => some (400,"one Sec-WebSocket-Key is required")

def originAllowed (std : Std) (r : Request) (patterns : List String) : Bool :=
  let origin := headerGet r "Origin"
  if origin = "" then true
  else
    match std.parseURL origin with
    | none => false
    | some u =>
      if u.host = "" then false
      else if std.equalFold r.host u.host then true
      else patterns.any fun p =>
        let target := if "://".toList <:+: p.toList then u.scheme ++ "://" ++ u.host else u.host
        std.pathMatch (std.toLower p) (std.toLower target) = some true

structure Turn where
  text : String
  step : Step
  out : List String
  writes : Nat → Bool

inductive Incoming
  | text (turn : Turn)
  | binary
  | closed
  | broken (why : String)

structure World where
  new : Step
  host : Bool
  start : Step
  accepted : Bool
  out : List String
  upgrades : Bool
  writes : Nat → Bool
  reads : List Incoming
  closeAnswered : Bool
  close : Step

inductive Event
  | answered (status : Nat) (text : String)
  | called (call : Call)
  | upgraded
  | wrote (text : String)
  | lost (text : String)
  | shut
  deriving DecidableEq

def called (calls : List Call) : List Event := calls.map .called

def write (writes : Nat → Bool) (i : Nat) : List String → List Event
  | [] => []
  | m :: msgs => if writes i then .wrote m :: write writes (i + 1) msgs else [.lost m]

def alive (writes : Nat → Bool) (out : List String) : Bool := (List.range out.length).all writes

def World.onClose (world : World) (reason : String) (code : Int) : List Event :=
  called (world.close.made [.close reason code])

def Turn.calls (turn : Turn) : List Call := [.message turn.text,.drain]

@[grind =] def World.serve (world : World) : List Incoming → List Event
  | [] => []
  | .closed :: _ => world.onClose "closed by the client" 1000
  | .broken why :: _ => world.onClose why 1006
  | .binary :: reads => world.serve reads
  | .text turn :: reads =>
    called (turn.step.made turn.calls) ++
      if turn.step.failed turn.calls then
        .shut :: (if world.closeAnswered then world.onClose "closed by the client" 1000
          else world.onClose "handler failed" 1006)
      else write turn.writes 0 turn.out ++
        if alive turn.writes turn.out then world.serve reads else world.onClose "write failed" 1006

@[grind =] def Channel.serveHTTP (ch : Channel) (std : Std) (r : Request) (world : World) : List Event :=
  match handshake std r with
  | some (status,why) => [.answered status why]
  | none =>
    if !ch.anyOrigin && !originAllowed std r ch.originPatterns then
      [.answered 403 "origin not allowed for this APC channel"]
    else
      called (world.new.made [.new]) ++
        if world.new.failed [.new] then [.answered 503 (ch.handler ++ ": " ++ world.new.dump)]
        else if !world.host then [.answered 500 ""]
        else called (world.start.made [.open,.drain]) ++
          if world.start.failed [.open,.drain] then
            [.answered 503 (ch.handler ++ ": " ++ world.start.dump)]
          else if !world.accepted then [.answered 403 "the handler refused the connection"]
          else if !world.upgrades then world.onClose "upgrade failed" 1006
          else .upgraded :: (write world.writes 0 world.out ++
            if alive world.writes world.out then world.serve world.reads
            else world.onClose "write failed" 1006)

end OpenSteamgate.Apc
