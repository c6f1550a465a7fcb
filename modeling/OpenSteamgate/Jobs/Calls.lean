import OpenSteamgate.Jobs.Intents

namespace OpenSteamgate.Jobs

inductive Call
  | start (id : Id) (program generation : Text)
  | enqueue (id : Id) (program generation : Text) (now : Stamp)
  | importIntent (intent : Intent) (now : Stamp)
  | importNamedEvent (event : EventIntent)
  | reserveSignalSeq
  | claimNext (scope : Scope) (runId : Option Id)
  | finish (id : Id) (result : Result)
  | fail (id : Id)
  | finishStep (id : Id) (number : Nat) (result : Result)
  | failStep (id : Id) (number : Nat)
  | interruptQueued (id : Id)
  | beginRelease (id : Id) (now : Stamp)
  | releaseTimed (id : Id) (nowStamp now : Stamp)
  | deleteJob (id : Id)

variable (h : Platform)

def Store.perform (s : Store) : Call → Except Fault (Answer × Store)
  | .start id program generation => s.start h id program generation
  | .enqueue id program generation now => s.enqueue h id program generation now
  | .importIntent intent now => s.importIntent h intent now
  | .importNamedEvent event => s.importNamedEvent h event
  | .reserveSignalSeq => s.reserveSignalSeq
  | .claimNext scope runId => s.claimNext scope runId
  | .finish id result => s.finish h id result
  | .fail id => s.fail h id
  | .finishStep id number result => s.finishStep h id number result
  | .failStep id number => s.failStep id number
  | .interruptQueued id => s.interruptQueued h id
  | .beginRelease id now => s.beginRelease id now
  | .releaseTimed id nowStamp now => s.releaseTimed id nowStamp now
  | .deleteJob id => s.deleteJob id

def Call.creates : Call → Option Id
  | .start id _ _ | .enqueue id _ _ _ => some id
  | .importIntent intent _ => some (h.lower intent.intentId)
  | _ => none

inductive Step : Store → Call → Answer → Store → Prop
  | performed {s s' : Store} {call : Call} {answer : Answer} :
      s.perform h call = .ok (answer,s') → Step s call answer s'
  | raised {s : Store} (call : Call) (fault : Fault) : Step s call (.raised fault) s

structure Event where
  call : Call
  answer : Answer
  before : Store
  after : Store

inductive Trace : List Event → Store → Prop
  | empty : Trace [] {}
  | step {events : List Event} {s s' : Store} {call : Call} {answer : Answer} : Trace events s →
      Step h s call answer s' → Trace (events ++ [⟨call,answer,s,s'⟩]) s'

inductive Later (s : Store) : List Event → Store → Prop
  | nothing : Later s [] s
  | step {events : List Event} {s' s'' : Store} {call : Call} {answer : Answer} : Later s events s' →
      Step h s' call answer s'' → Later s (events ++ [⟨call,answer,s',s''⟩]) s''

def Store.take (s : Store) (call : Call) : Answer × Store :=
  match s.perform h call with
  | .ok result => result
  | .error fault => (.raised fault,s)

def replay : List Event → Store → List Call → List Event × Store
  | events,s,[] => (events,s)
  | events,s,call :: calls =>
    replay (events ++ [⟨call,(s.take h call).1,s,(s.take h call).2⟩]) (s.take h call).2 calls

theorem take_step (s : Store) (call : Call) : Step h s call (s.take h call).1 (s.take h call).2 := by
  rw [Store.take]
  cases hcall : s.perform h call with
  | ok result => exact .performed hcall
  | error fault => exact .raised call fault

theorem replay_trace {events : List Event} {s : Store} (ht : Trace h events s) (calls : List Call) :
    Trace h (replay h events s calls).1 (replay h events s calls).2 := by
  induction calls generalizing events s with
  | nil => exact ht
  | cons call calls ih => exact ih (ht.step (take_step h s call))

def happened (calls : List Call) : List Event × Store := replay h [] {} calls

theorem happened_trace (calls : List Call) : Trace h (happened h calls).1 (happened h calls).2 :=
  replay_trace h .empty calls

end OpenSteamgate.Jobs
