import OpenSteamgate.Library.Histories
import OpenSteamgate.Protocols.Conversation

namespace OpenSteamgate.Protocols.Server

open Tunnel (JsString js)

abbrev Id := Nat

structure Owner where
  session : Id
  principal : Option Principal

structure Task where
  conn : Id
  request : AdtRequest
  target : Url
  owner : Option Owner

def Task.lockHandle (task : Task) : Option JsString := task.target.get (js "lockHandle")

structure Session where
  closed : Bool := false
  cookies : Bool := false
  waiting : List Task := []
  running : Option (Task × BackendAuth) := none
  settled : Nat := 0

def Session.requests (session : Session) : Nat :=
  session.settled + session.running.toList.length + session.waiting.length

inductive Ending
  | open
  | after (requests : Nat)
  | done
  deriving DecidableEq

structure Connection where
  conversation : Conversation
  frames : List Bytes := []
  busy : Bool := false
  failed : Bool := false
  ending : Ending := .open

inductive Event
  | frame (conn : Id) (phase : Phase) (frame : Bytes)
  | loggedOn (conn : Id) (frame : Bytes) (caller : Logon)
  | metadata (conn : Id) (functionName : JsString)
  | taken (conn session : Id) (number : Nat) (handle : Option JsString) (owner : Option Owner)
      (principal : Option Principal)
  | sent (conn session : Id) (number : Nat) (auth : BackendAuth)
  | settled (session : Id) (number : Nat)
  | registered (conn : Id) (handle : JsString) (session : Id) (principal : Option Principal)
  | loggedOff (session : Id)

structure Pool where
  connections : Id → Connection
  sessions : Id → Session := fun _ => {}
  editingHandles : JsString → Option Owner := fun _ => none
  events : List Event := []

namespace Pool

def init (config : Config) : Pool :=
  {connections := fun _ => {conversation := {auth := config.backendAuth}}}

def setConnection (pool : Pool) (c : Id) (connection : Connection) : Pool :=
  {pool with connections := fun i => if i = c then connection else pool.connections i}

def setSession (pool : Pool) (s : Id) (session : Session) : Pool :=
  {pool with sessions := fun i => if i = s then session else pool.sessions i}

def setHandle (pool : Pool) (handle : JsString) (owner : Option Owner) : Pool :=
  {pool with editingHandles := fun h => if h = handle then owner else pool.editingHandles h}

def record (pool : Pool) (event : Event) : Pool := {pool with events := pool.events ++ [event]}

def forgetSession (pool : Pool) (s : Id) : Pool :=
  {pool with editingHandles := fun h =>
    match pool.editingHandles h with
    | some owner => if owner.session = s then none else some owner
    | none => none}

def contextOf (pool : Pool) (c : Id) (owner : Option Owner) : Option Id :=
  let principal := (pool.connections c).conversation.principal
  match owner with
  | none => if principal = none then none else some c
  | some o =>
    if o.principal = principal ∧ (pool.sessions o.session).closed = false then some o.session
    else some c

def enqueue (pool : Pool) (s : Id) (task : Task) : Pool :=
  let session := pool.sessions s
  pool.setSession s {session with waiting := session.waiting ++ [task]}

def takeRequest (pool : Pool) (c : Id) (request : AdtRequest) (target : Url) : Pool :=
  let connection := pool.connections c
  let owner := (target.get (js "lockHandle")).bind pool.editingHandles
  match pool.contextOf c owner with
  | none => pool.setConnection c {connection with failed := true}
  | some s =>
    let task : Task := {conn := c,request := request,target := target,owner := owner}
    ((pool.setConnection c {connection with busy := true}).enqueue s task).record
      (.taken c s (pool.sessions s).requests task.lockHandle owner connection.conversation.principal)

def takeFrame (config : Config) (pool : Pool) (c : Id) (frame : Bytes) (rest : List Bytes) : Pool :=
  let connection := {pool.connections c with frames := rest}
  let pool := pool.record (.frame c connection.conversation.phase frame)
  match handle config connection.conversation frame with
  | .error _ => pool.setConnection c {connection with failed := true}
  | .ok (conversation,answer) =>
    let pool := pool.setConnection c {connection with conversation := conversation}
    match answer with
    | .pong | .accepted | .silent => pool
    | .loggedOn caller => pool.record (.loggedOn c frame caller)
    | .metadata functionName => pool.record (.metadata c functionName)
    | .request request target => pool.takeRequest c request target

structure Reply where
  status : Nat
  body : Bytes

def isHandle (text : JsString) : Bool := text.length = 40 && text.all Tunnel.isHexadecimal

def lockHandleIn (body : JsString) : Option JsString :=
  body.tails.findSome? fun at' =>
    let handle := (at'.drop 13).take 40
    if (js "<LOCK_HANDLE>").isPrefixOf at' ∧ isHandle handle ∧
        (js "</LOCK_HANDLE>").isPrefixOf (at'.drop 53) then some handle
    else none

def register (pool : Pool) (s : Id) (task : Task) (reply : Reply) : Pool :=
  if task.request.method = js "POST" ∧ task.target.get (js "_action") = some (js "LOCK") ∧
      (pool.sessions s).closed = false then
    match lockHandleIn (text reply.body) with
    | some handle =>
      let principal := (pool.connections task.conn).conversation.principal
      (pool.setHandle handle (some ⟨s,principal⟩)).record (.registered task.conn handle s principal)
    | none => pool
  else pool

def unlock (pool : Pool) (s : Id) (task : Task) : Pool :=
  if task.request.method = js "POST" ∧ task.target.get (js "_action") = some (js "UNLOCK") ∧
      task.owner.map Owner.session = some s then
    match task.lockHandle with
    | some handle => pool.setHandle handle none
    | none => pool
  else pool

def logoffPath : JsString := js "/sap/public/bc/icf/logoff"

def replied (pool : Pool) (s : Id) (task : Task) (reply : Reply) : Pool :=
  if 200 ≤ reply.status ∧ reply.status < 300 then
    let pool := (pool.register s task reply).unlock s task
    if task.target.pathname = logoffPath then pool.forgetSession s else pool
  else pool

inductive Step (config : Config) : Pool → Pool → Prop
  | data (pool : Pool) (c : Id) (frames : List Bytes)
      (hopen : (pool.sessions c).closed = false) :
      Step config pool (pool.setConnection c {pool.connections c with
        frames := (pool.connections c).frames ++ frames})
  | take (pool : Pool) (c : Id) (frame : Bytes) (rest : List Bytes)
      (hframes : (pool.connections c).frames = frame :: rest)
      (hbusy : (pool.connections c).busy = false)
      (hfailed : (pool.connections c).failed = false) :
      Step config pool (pool.takeFrame config c frame rest)
  | start (pool : Pool) (s : Id) (task : Task) (rest : List Task)
      (hwaiting : (pool.sessions s).waiting = task :: rest)
      (hrunning : (pool.sessions s).running = none) :
      Step config pool (pool.setSession s {pool.sessions s with
        waiting := rest
        running := some (task,(pool.connections task.conn).conversation.auth)})
  | send (pool : Pool) (s : Id) (task : Task) (auth : BackendAuth) (cookies : Bool)
      (hrunning : (pool.sessions s).running = some (task,auth)) :
      Step config pool ((pool.setSession s {pool.sessions s with
        cookies := (pool.sessions s).cookies || cookies}).record
          (.sent task.conn s (pool.sessions s).settled auth))
  | settle (pool : Pool) (s : Id) (task : Task) (auth : BackendAuth) (reply : Option Reply)
      (failed : Bool) (hrunning : (pool.sessions s).running = some (task,auth))
      (hfailed : reply = none → failed = true) :
      Step config pool
        (let session := pool.sessions s
         let connection := pool.connections task.conn
         let settled := ((pool.setSession s {session with
             running := none,settled := session.settled + 1}).setConnection task.conn
               {connection with busy := false,failed := connection.failed || failed}).record
                 (.settled s session.settled)
         match reply with
         | some reply => settled.replied s task reply
         | none => settled)
  | close (pool : Pool) (c : Id) (hopen : (pool.sessions c).closed = false) :
      Step config pool ((pool.setSession c {pool.sessions c with closed := true}).forgetSession c)
  | drain (pool : Pool) (c : Id) (hclosed : (pool.sessions c).closed = true)
      (hbusy : (pool.connections c).busy = false)
      (hsettled : (pool.connections c).failed = true ∨ (pool.connections c).frames = [])
      (hending : (pool.connections c).ending = .open) :
      Step config pool (pool.setConnection c {pool.connections c with
        ending := .after (pool.sessions c).requests})
  | logoff (pool : Pool) (c : Id) (requests : Nat)
      (hending : (pool.connections c).ending = .after requests)
      (hdone : requests ≤ (pool.sessions c).settled) :
      Step config pool
        (let ended := (pool.setConnection c {pool.connections c with
            ending := .done}).setSession c {pool.sessions c with cookies := false}
         if (pool.sessions c).cookies = true then ended.record (.loggedOff c) else ended)

inductive Run (config : Config) : Pool → Prop
  | init : Run config (init config)
  | step {pool pool' : Pool} : Run config pool → Step config pool pool' → Run config pool'

end Pool

end OpenSteamgate.Protocols.Server
