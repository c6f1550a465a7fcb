import OpenSteamgate.Enq.Server

namespace OpenSteamgate.Enq.Js

structure Field where
  value : Option String
  generic : Bool
  length : Nat

structure Request where
  client : String
  table : String
  object : String
  fields : List Field
  mode : String
  scope : Option Int

structure Result where
  subrc : Nat
  msgno : Option String := none
  holder : Option String := none

structure Date where
  year : Nat
  month : Nat
  day : Nat
  hour : Nat
  minute : Nat
  second : Nat
  milli : Nat

abbrev OwnerId := List UInt16

structure Row where
  client : String
  table : String
  object : String
  arg : String
  mode : String
  user : String
  dialog : OwnerId
  update : OwnerId
  dialogs : Nat
  updates : Nat
  taken : Date
  session : Nat

structure Session where
  user : String
  dialog : OwnerId
  update : OwnerId

structure LockServer where
  instanceName : String
  rows : List Row
  sessions : AList (fun _ : Nat => Session)
  seq : Nat
  closed : Bool

def LockServer.new (instanceName : String) : LockServer := ⟨instanceName,[],∅,0,false⟩

def utf16 (cs : List Char) : List UInt16 :=
  cs.flatMap fun c =>
    if c.toNat < 0x10000 then [c.toNat.toUInt16]
    else [(0xd800 + (c.toNat - 0x10000) / 0x400).toUInt16,
      (0xdc00 + (c.toNat - 0x10000) % 0x400).toUInt16]

def padEnd (n : Nat) (c : UInt16) (xs : List UInt16) : List UInt16 :=
  xs ++ List.replicate (n - xs.length) c

def Date.stamp (t : Date) : List Char :=
  (if t.year < 10000 then digits 4 t.year else '+' :: digits 6 t.year) ++ digits 2 t.month ++
    digits 2 t.day ++ digits 2 t.hour ++ digits 2 t.minute ++ digits 2 t.second ++ digits 3 t.milli

def LockServer.ownerId (srv : LockServer) (now : Date) : LockServer × OwnerId :=
  let seq := srv.seq + 1
  let stamp := padEnd 20 48 (utf16 now.stamp)
  let id := (stamp ++ utf16 (digits 6 (seq % 1000000)) ++ utf16 srv.instanceName.toList).take 58
  ({ srv with seq := seq },padEnd 58 46 id)

def LockServer.openSession (srv : LockServer) (user : String) (now₁ now₂ : Date) : LockServer × Nat :=
  if srv.closed then (srv,0)
  else
    let id := srv.seq + 1
    let d := ({ srv with seq := id } : LockServer).ownerId now₁
    let u := d.1.ownerId now₂
    ({ u.1 with sessions := u.1.sessions.insert id ⟨user,d.2,u.2⟩ },id)

def trimEnd (cs : List Char) : List Char := cs.rdropWhile (· == ' ')

def Field.text (f : Field) : List Char :=
  if f.generic then List.replicate f.length '\uffff'
  else
    let v := (f.value.getD "").toList
    let v := if 0 < f.length ∧ f.length < v.length then v.take f.length else v
    v ++ List.replicate (f.length - v.length) ' '

def garg (client : String) (fields : List Field) : String :=
  String.ofList (trimEnd (fields.foldl (fun out f => out ++ f.text) client.toList))

def collide (a b : String) : Bool :=
  if !a.toList.contains '\uffff' && !b.toList.contains '\uffff' then
    trimEnd a.toList == trimEnd b.toList
  else
    let ra := a.toList
    let rb := b.toList
    (List.range (max ra.length rb.length)).all fun i =>
      let x := ra.getD i ' '
      let y := rb.getD i ' '
      !(x != y && x != '\uffff' && y != '\uffff')

def shared (mode : String) : Bool := mode == "S" || mode == "O"

def scopeOf (r : Request) : Int :=
  let n := r.scope.getD 0
  if n = 1 ∨ n = 3 then n else 2

def owns (s : Session) (w : Row) : Bool :=
  (decide (0 < w.dialogs) && w.dialog == s.dialog) ||
    (decide (0 < w.updates) && w.update == s.update)

def tryRows (s : Session) (sid : Nat) (r : Request) (arg : String) :
    List Row → Nat → Option Nat → Except Result (Option Nat)
  | [], _, same => .ok same
  | w :: ws, i, same =>
      if w.client != r.client || w.table != r.table || !collide w.arg arg then
        tryRows s sid r arg ws (i + 1) same
      else if (w.session != sid || (decide (0 < w.updates) && w.update != s.update)) &&
          (!shared w.mode || !shared r.mode) then
        .error ⟨1,some "601",some w.user⟩
      else if !owns s w then tryRows s sid r arg ws (i + 1) same
      else if w.mode == "X" || r.mode == "X" then .error ⟨1,some "602",some w.user⟩
      else if w.arg == arg && w.mode == r.mode && (w.updates == 0 || w.update == s.update) then
        tryRows s sid r arg ws (i + 1) (some i)
      else tryRows s sid r arg ws (i + 1) same

def Session.take (s : Session) (scope : Int) (w : Row) : Row :=
  let w := if scope = 1 ∨ scope = 3 then
    { w with dialogs := w.dialogs + 1, dialog := s.dialog } else w
  if scope = 2 ∨ scope = 3 then
    { w with updates := w.updates + 1, update := s.update } else w

def LockServer.live (srv : LockServer) (sid : Nat) : Option Session :=
  if srv.closed then none else srv.sessions.lookup sid

def LockServer.tryEnqueue (srv : LockServer) (sid : Nat) (r : Request) (now : Date) :
    LockServer × Result :=
  match srv.live sid with
  | none => (srv,{ subrc := 2 })
  | some s =>
      let arg := garg r.client r.fields
      match tryRows s sid r arg srv.rows 0 none with
      | .error res => (srv,res)
      | .ok none =>
          ({ srv with rows := srv.rows ++ [s.take (scopeOf r)
              ⟨r.client,r.table,r.object,arg,r.mode,s.user,[],[],0,0,now,sid⟩] },{ subrc := 0 })
      | .ok (some i) =>
          ({ srv with rows := srv.rows.modify i (s.take (scopeOf r)) },{ subrc := 0 })

def Row.blank (w : Row) : Row :=
  { w with
    dialog := if w.dialogs = 0 then [] else w.dialog
    update := if w.updates = 0 then [] else w.update }

def sweepRows (rows : List Row) : List Row :=
  (rows.map Row.blank).filter fun w => decide (0 < w.dialogs) || decide (0 < w.updates)

def LockServer.sweep (srv : LockServer) : LockServer := { srv with rows := sweepRows srv.rows }

def dequeueRows (s : Session) (r : Request) (arg : String) : List Row → List Row
  | [] => []
  | w :: ws =>
      if !owns s w || w.client != r.client || w.table != r.table || w.arg != arg ||
          w.mode != r.mode then w :: dequeueRows s r arg ws
      else
        let scope := scopeOf r
        let dialog := (scope == 1 || scope == 3) && decide (0 < w.dialogs) && w.dialog == s.dialog
        let update := (scope == 2 || scope == 3) && decide (0 < w.updates) && w.update == s.update
        let w := { w with
          dialogs := if dialog then w.dialogs - 1 else w.dialogs
          updates := if update then w.updates - 1 else w.updates }
        if dialog || update then w :: ws else w :: dequeueRows s r arg ws

def LockServer.dequeue (srv : LockServer) (sid : Nat) (r : Request) : LockServer :=
  match srv.live sid with
  | none => srv
  | some s =>
      ({ srv with rows := dequeueRows s r (garg r.client r.fields) srv.rows } : LockServer).sweep

def Session.releaseRow (s : Session) (sid : Nat) (w : Row) : Row :=
  if w.session != sid then w
  else
    { w with
      dialogs := if w.dialog == s.dialog then 0 else w.dialogs
      updates := if w.update == s.update then 0 else w.updates }

def LockServer.release (srv : LockServer) (sid : Nat) : LockServer :=
  match srv.live sid with
  | none => srv
  | some s => ({ srv with rows := srv.rows.map (s.releaseRow sid) } : LockServer).sweep

def LockServer.dequeueAll (srv : LockServer) (sid : Nat) : LockServer := srv.release sid

def LockServer.releaseUpdate (srv : LockServer) (sid : Nat) (owner : OwnerId) : LockServer :=
  if owner = [] then srv
  else
    ({ srv with rows := srv.rows.map fun w =>
        if w.session == sid && w.update == owner then { w with updates := 0 } else w } :
      LockServer).sweep

def LockServer.rollback (srv : LockServer) (sid : Nat) (now : Date) : LockServer :=
  match srv.live sid with
  | none => srv
  | some s =>
      let o := (srv.releaseUpdate sid s.update).ownerId now
      { o.1 with sessions := o.1.sessions.insert sid { s with update := o.2 } }

def LockServer.commit (srv : LockServer) (sid : Nat) (updated : Bool) (now : Date) :
    LockServer × OwnerId :=
  match srv.live sid with
  | none => (srv,[])
  | some s =>
      if !updated then (srv,[])
      else
        let o := srv.ownerId now
        ({ o.1 with sessions := o.1.sessions.insert sid { s with update := o.2 } },s.update)

def LockServer.updateDone (srv : LockServer) (sid : Nat) (owner : OwnerId) : LockServer :=
  if srv.closed then srv else srv.releaseUpdate sid owner

def LockServer.endSession (srv : LockServer) (sid : Nat) : LockServer :=
  let srv := srv.release sid
  { srv with sessions := srv.sessions.erase sid }

def LockServer.updateOwner (srv : LockServer) (sid : Nat) : OwnerId :=
  match srv.live sid with
  | none => []
  | some s => s.update

def LockServer.read (srv : LockServer) (f : Filter) : List Row :=
  if srv.closed then []
  else srv.rows.filter fun w => (f.client == "" || w.client == f.client) &&
    (f.table == "" || w.table == f.table) && (f.user == "" || w.user == f.user)

inductive Op where
  | openSession (user : String) (now₁ now₂ : Date)
  | tryEnqueue (sid : Nat) (r : Request) (now : Date)
  | dequeue (sid : Nat) (r : Request)
  | dequeueAll (sid : Nat)
  | commit (sid : Nat) (updated : Bool) (now : Date)
  | updateDone (sid : Nat) (owner : OwnerId)
  | rollback (sid : Nat) (now : Date)
  | endSession (sid : Nat)
  | updateOwner (sid : Nat)
  | read (f : Filter)

inductive Answer where
  | handle (sid : Nat)
  | result (res : Result)
  | owner (id : OwnerId)
  | rows (ws : List Row)
  | done

def LockServer.step (srv : LockServer) : Op → LockServer × Answer
  | .openSession user now₁ now₂ => ((srv.openSession user now₁ now₂).1,.handle (srv.openSession user now₁ now₂).2)
  | .tryEnqueue sid r now => ((srv.tryEnqueue sid r now).1,.result (srv.tryEnqueue sid r now).2)
  | .dequeue sid r => (srv.dequeue sid r,.done)
  | .dequeueAll sid => (srv.dequeueAll sid,.done)
  | .commit sid updated now =>
      ((srv.commit sid updated now).1,.owner (srv.commit sid updated now).2)
  | .updateDone sid owner => (srv.updateDone sid owner,.done)
  | .rollback sid now => (srv.rollback sid now,.done)
  | .endSession sid => (srv.endSession sid,.done)
  | .updateOwner sid => (srv,.owner (srv.updateOwner sid))
  | .read f => (srv,.rows (srv.read f))

def LockServer.issues (srv : LockServer) : Op → List OwnerId
  | .openSession _ now₁ now₂ =>
      if srv.closed then []
      else
        let d := ({ srv with seq := srv.seq + 1 } : LockServer).ownerId now₁
        [d.2,(d.1.ownerId now₂).2]
  | .commit sid true now => if (srv.live sid).isSome then [(srv.ownerId now).2] else []
  | .rollback sid now => if (srv.live sid).isSome then [(srv.ownerId now).2] else []
  | _ => []

def lockServer : StepMachine LockServer Op Answer where
  step := LockServer.step

def waitTries : Nat := 5

def LockServer.enqueue (srv : LockServer) (sid : Nat) (r : Request) (wait : Bool)
    (clock : Nat → Date) (sleep : Nat → List Op) : List Op :=
  lockServer.retryOps (fun | .result res => res.subrc == 1 | _ => false)
    (fun i => .tryEnqueue sid r (clock i)) sleep (if wait then waitTries else 0) 0 srv

end OpenSteamgate.Enq.Js
