import Mathlib.Data.List.AList
import Mathlib.Data.List.DropRight
import OpenSteamgate.Library.StepMachine

namespace OpenSteamgate.Enq

structure Field where
  value : String
  generic : Bool
  length : Nat

structure Request where
  client : String
  table : String
  object : String
  fields : List Field
  mode : String
  scope : Int

structure Result where
  subrc : Nat := 0
  msgno : String := ""
  holder : String := ""
  deriving DecidableEq

structure Time where
  year : Nat
  month : Nat
  day : Nat
  hour : Nat
  minute : Nat
  second : Nat
  micro : Nat

abbrev OwnerID := List UInt8

structure Row where
  client : String
  table : String
  object : String
  arg : String
  mode : String
  user : String
  dialog : OwnerID
  update : OwnerID
  dialogs : Nat
  updates : Nat
  taken : Time
  session : Nat

structure Filter where
  client : String := ""
  table : String := ""
  user : String := ""

structure Session where
  user : String
  dialog : OwnerID
  update : OwnerID
  deriving DecidableEq

structure State where
  rows : List Row
  sessions : AList (fun _ : Nat => Session)
  seq : Nat
  instanceName : String

def State.new (instanceName : String) : State := ⟨[],∅,0,instanceName⟩

def digits (width n : Nat) : List Char := (Nat.toDigits 10 n).leftpad width '0'

def Time.format (t : Time) : List Char :=
  digits 4 t.year ++ digits 2 t.month ++ digits 2 t.day ++ digits 2 t.hour ++
    digits 2 t.minute ++ digits 2 t.second ++ digits 6 t.micro

def utf8 (cs : List Char) : List UInt8 := cs.flatMap String.utf8EncodeChar

def State.ownerID (st : State) (now : Time) : State × OwnerID :=
  let seq := st.seq + 1
  let id := utf8 (now.format ++ digits 6 (seq % 1000000) ++ st.instanceName.toList)
  ({ st with seq := seq }, id.take 58 ++ List.replicate (58 - id.length) 46)

def State.openSession (st : State) (user : String) (now₁ now₂ : Time) : State × Nat :=
  let id := st.seq + 1
  let d := ({ st with seq := id } : State).ownerID now₁
  let u := d.1.ownerID now₂
  ({ u.1 with sessions := u.1.sessions.insert id ⟨user,d.2,u.2⟩ },id)

def Field.runes (f : Field) : List Char :=
  if f.generic then List.replicate f.length '\uffff'
  else
    let rs := f.value.toList
    let v := if 0 < f.length ∧ f.length < rs.length then rs.take f.length else rs
    if v.length < f.length then v ++ List.replicate (f.length - v.length) ' ' else v

def garg (client : String) (fields : List Field) : String :=
  String.ofList ((client.toList ++ fields.flatMap Field.runes).rdropWhile (· == ' '))

def collide (a b : String) : Bool :=
  let ra := a.toList
  let rb := b.toList
  (List.range (max ra.length rb.length)).all fun i =>
    let x := ra.getD i ' '
    let y := rb.getD i ' '
    !(x != y && x != '\uffff' && y != '\uffff')

def Session.owns (s : Session) (w : Row) : Prop :=
  0 < w.dialogs ∧ w.dialog = s.dialog ∨ 0 < w.updates ∧ w.update = s.update

instance (s : Session) (w : Row) : Decidable (s.owns w) :=
  inferInstanceAs (Decidable (_ ∨ _))

def shared (mode : String) : Bool := mode == "S" || mode == "O"

def scopeOf (r : Request) : Int := if r.scope = 1 ∨ r.scope = 3 then r.scope else 2

def scan (s : Session) (sid : Nat) (r : Request) (arg : String) :
    List Row → Nat → Option Nat → Except Result (Option Nat)
  | [], _, same => .ok same
  | w :: ws, i, same =>
      if w.client ≠ r.client ∨ w.table ≠ r.table ∨ ¬collide w.arg arg then
        scan s sid r arg ws (i + 1) same
      else if (w.session ≠ sid ∨ 0 < w.updates ∧ w.update ≠ s.update) ∧
          (¬shared w.mode ∨ ¬shared r.mode) then
        .error ⟨1,"601",w.user⟩
      else if ¬s.owns w then scan s sid r arg ws (i + 1) same
      else if w.mode = "X" ∨ r.mode = "X" then .error ⟨1,"602",w.user⟩
      else if w.arg = arg ∧ w.mode = r.mode ∧ (w.updates = 0 ∨ w.update = s.update) then
        scan s sid r arg ws (i + 1) (some i)
      else scan s sid r arg ws (i + 1) same

def Session.take (s : Session) (scope : Int) (w : Row) : Row :=
  let w := if scope = 1 ∨ scope = 3 then
    { w with dialogs := w.dialogs + 1, dialog := s.dialog } else w
  if scope = 2 ∨ scope = 3 then
    { w with updates := w.updates + 1, update := s.update } else w

def Session.newRow (s : Session) (sid : Nat) (r : Request) (arg : String) (now : Time) : Row :=
  ⟨r.client,r.table,r.object,arg,r.mode,s.user,[],[],0,0,now,sid⟩

def State.enqueue (st : State) (sid : Nat) (r : Request) (now : Time) : State × Result :=
  match st.sessions.lookup sid with
  | none => (st,⟨2,"",""⟩)
  | some s =>
      let arg := garg r.client r.fields
      match scan s sid r arg st.rows 0 none with
      | .error res => (st,res)
      | .ok none =>
          ({ st with rows := st.rows ++ [s.take (scopeOf r) (s.newRow sid r arg now)] },{})
      | .ok (some i) => ({ st with rows := st.rows.modify i (s.take (scopeOf r)) },{})

def Row.swept (w : Row) : Option Row :=
  let w := if w.dialogs = 0 then { w with dialog := [] } else w
  let w := if w.updates = 0 then { w with update := [] } else w
  if 0 < w.dialogs ∨ 0 < w.updates then some w else none

def State.sweep (st : State) : State := { st with rows := st.rows.filterMap Row.swept }

def Session.holds (s : Session) (r : Request) (arg : String) (w : Row) : Prop :=
  s.owns w ∧ w.client = r.client ∧ w.table = r.table ∧ w.arg = arg ∧ w.mode = r.mode

instance (s : Session) (r : Request) (arg : String) (w : Row) : Decidable (s.holds r arg w) :=
  inferInstanceAs (Decidable (_ ∧ _))

def Session.drop (s : Session) (scope : Int) (w : Row) : Row × Bool :=
  let dialog := (scope = 1 ∨ scope = 3) ∧ 0 < w.dialogs ∧ w.dialog = s.dialog
  let update := (scope = 2 ∨ scope = 3) ∧ 0 < w.updates ∧ w.update = s.update
  ({ w with
      dialogs := if dialog then w.dialogs - 1 else w.dialogs
      updates := if update then w.updates - 1 else w.updates },
    decide (dialog ∨ update))

def dequeueRows (s : Session) (r : Request) (arg : String) : List Row → List Row
  | [] => []
  | w :: ws =>
      if ¬s.holds r arg w then w :: dequeueRows s r arg ws
      else if (s.drop (scopeOf r) w).2 then (s.drop (scopeOf r) w).1 :: ws
      else (s.drop (scopeOf r) w).1 :: dequeueRows s r arg ws

def State.dequeue (st : State) (sid : Nat) (r : Request) : State :=
  match st.sessions.lookup sid with
  | none => st
  | some s => ({ st with rows := dequeueRows s r (garg r.client r.fields) st.rows } : State).sweep

def Session.releaseRow (s : Session) (sid : Nat) (w : Row) : Row :=
  if w.session ≠ sid then w
  else
    { w with
      dialogs := if w.dialog = s.dialog then 0 else w.dialogs
      updates := if w.update = s.update then 0 else w.updates }

def State.release (st : State) (sid : Nat) : State :=
  match st.sessions.lookup sid with
  | none => st
  | some s => ({ st with rows := st.rows.map (s.releaseRow sid) } : State).sweep

def releaseUpdateRow (sid : Nat) (owner : OwnerID) (w : Row) : Row :=
  if w.session = sid ∧ w.update = owner ∧ owner ≠ [] then { w with updates := 0 } else w

def State.releaseUpdate (st : State) (sid : Nat) (owner : OwnerID) : State :=
  ({ st with rows := st.rows.map (releaseUpdateRow sid owner) } : State).sweep

def State.rollback (st : State) (sid : Nat) (now : Time) : State :=
  match st.sessions.lookup sid with
  | none => st
  | some s =>
      let o := (st.releaseUpdate sid s.update).ownerID now
      { o.1 with sessions := o.1.sessions.insert sid { s with update := o.2 } }

def State.commit (st : State) (sid : Nat) (updated : Bool) (now : Time) : State × OwnerID :=
  match st.sessions.lookup sid with
  | none => (st,[])
  | some s =>
      if updated = false then (st,[])
      else
        let o := st.ownerID now
        ({ o.1 with sessions := o.1.sessions.insert sid { s with update := o.2 } },s.update)

def State.updateDone (st : State) (sid : Nat) (owner : OwnerID) : State :=
  if owner = [] then st else st.releaseUpdate sid owner

def State.endSession (st : State) (sid : Nat) : State :=
  let st := st.release sid
  { st with sessions := st.sessions.erase sid }

def State.updateOwner (st : State) (sid : Nat) : OwnerID :=
  match st.sessions.lookup sid with
  | none => []
  | some s => s.update

def State.read (st : State) (f : Filter) : List Row :=
  st.rows.filter fun w => (f.client == "" || f.client == w.client) &&
    (f.table == "" || f.table == w.table) && (f.user == "" || f.user == w.user)

def State.holder (st : State) (r : Request) : Option Row :=
  st.rows.find? fun w => w.table == r.table && collide w.arg (garg r.client r.fields)

inductive Op where
  | openSession (user : String) (now₁ now₂ : Time)
  | enqueue (sid : Nat) (r : Request) (now : Time)
  | dequeue (sid : Nat) (r : Request)
  | dequeueAll (sid : Nat)
  | commit (sid : Nat) (updated : Bool) (now : Time)
  | updateDone (sid : Nat) (owner : OwnerID)
  | rollback (sid : Nat) (now : Time)
  | endSession (sid : Nat)
  | updateOwner (sid : Nat)
  | read (f : Filter)
  | holder (r : Request)

inductive Answer where
  | handle (sid : Nat)
  | result (res : Result)
  | owner (id : OwnerID)
  | rows (ws : List Row)
  | held (w : Option Row)
  | done

def State.step (st : State) : Op → State × Answer
  | .openSession user now₁ now₂ =>
      ((st.openSession user now₁ now₂).1,.handle (st.openSession user now₁ now₂).2)
  | .enqueue sid r now => ((st.enqueue sid r now).1,.result (st.enqueue sid r now).2)
  | .dequeue sid r => (st.dequeue sid r,.done)
  | .dequeueAll sid => (st.release sid,.done)
  | .commit sid updated now => ((st.commit sid updated now).1,.owner (st.commit sid updated now).2)
  | .updateDone sid owner => (st.updateDone sid owner,.done)
  | .rollback sid now => (st.rollback sid now,.done)
  | .endSession sid => (st.endSession sid,.done)
  | .updateOwner sid => (st,.owner (st.updateOwner sid))
  | .read f => (st,.rows (st.read f))
  | .holder r => (st,.held (st.holder r))

structure Log where
  issued : List OwnerID := []
  ended : List (Nat × OwnerID) := []
  pending : List (Nat × OwnerID) := []

def State.issues (st : State) : Op → List OwnerID
  | .openSession _ now₁ now₂ =>
      let d := ({ st with seq := st.seq + 1 } : State).ownerID now₁
      [d.2,(d.1.ownerID now₂).2]
  | .commit sid true now => if (st.sessions.lookup sid).isSome then [(st.ownerID now).2] else []
  | .rollback sid now => if (st.sessions.lookup sid).isSome then [(st.ownerID now).2] else []
  | _ => []

def State.ends (st : State) : Op → List (Nat × OwnerID)
  | .commit sid updated now =>
      let owner := (st.commit sid updated now).2
      if owner = [] then [] else [(sid,owner)]
  | _ => []

def Op.settles : Op → Nat × OwnerID → Bool
  | .updateDone sid owner, p => p == (sid,owner)
  | _, _ => false

def Log.record (g : Log) (st : State) (op : Op) : Log :=
  ⟨g.issued ++ st.issues op,g.ended ++ st.ends op,
    (g.pending ++ st.ends op).filter fun p => !op.settles p⟩

def server : StepMachine (State × Log) Op Answer where
  step p op := (((p.1.step op).1,p.2.record p.1 op),(p.1.step op).2)

def history (instanceName : String) (ops : List Op) : State × Log :=
  server.run (State.new instanceName,{}) ops

end OpenSteamgate.Enq
