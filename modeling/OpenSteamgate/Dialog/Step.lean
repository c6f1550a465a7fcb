import Mathlib.Logic.Function.Basic
import OpenSteamgate.Library.Turnstile

namespace OpenSteamgate.Dialog

inductive Then
  | start
  | behind
  | condition
  deriving DecidableEq

inductive Phase
  | absent
  | queued (next : Then)
  | starting
  | working
  | asking
  | sleeping (condition : Bool)
  | committing
  | rolling
  | closing
  | finished
  deriving DecidableEq

inductive Act (W : Type)
  | write (w : W)
  | commit
  | rollback
  deriving DecidableEq

structure Host (T W : Type) where
  lock : Turnstile T := {}
  phase : T → Phase := fun _ => .absent
  luwEnd : T → Nat := fun _ => 0
  committed : List (T × W) := []
  pending : List (T × W) := []
  history : T → List (Act W) := fun _ => []

structure Ending where
  succeeds : Bool := true
  left : Nat := 0
  raised : Bool := false

def Ending.returns (e : Ending) : Bool := e.succeeds && !e.raised

inductive Action (T W : Type)
  | arrive (t : T)
  | granted (t : T)
  | rollInRaised (t : T)
  | started (t : T) (raised : Bool)
  | write (t : T) (w : W)
  | register (t : T)
  | commitWork (t : T) (e : Ending)
  | rollbackWork (t : T) (e : Ending)
  | ask (t : T)
  | answer (t : T)
  | wait (t : T) (e : Ending)
  | wake (t : T) (again : Bool)
  | returned (t : T)
  | raised (t : T)
  | committed (t : T) (e : Ending)
  | rolledBack (t : T) (e : Ending)
  | closed (t : T) (e : Ending)

def Action.step {T W : Type} : Action T W → T
  | .arrive t | .granted t | .rollInRaised t | .started t _ | .write t _ | .register t
  | .commitWork t _ | .rollbackWork t _ | .ask t | .answer t | .wait t _ | .wake t _ | .returned t
  | .raised t | .committed t _ | .rolledBack t _ | .closed t _ => t

def Action.isLine {T W : Type} : Action T W → Bool
  | .started _ _ | .write _ _ | .register _ | .commitWork _ _ | .rollbackWork _ _ | .ask _ | .answer _
  | .wait _ _ | .returned _ | .raised _ | .committed _ _ | .rolledBack _ _ | .closed _ _ => true
  | .arrive _ | .granted _ | .rollInRaised _ | .wake _ _ => false

namespace Host

variable {T W : Type} [DecidableEq T]

def at' (s : Host T W) (t : T) (p : Phase) : Host T W :=
  {s with phase := Function.update s.phase t p}

def noted (s : Host T W) (t : T) (a : Act W) : Host T W :=
  {s with history := Function.update s.history t (s.history t ++ [a])}

def endLuw (s : Host T W) (t : T) (e : Ending) : Host T W :=
  {s with luwEnd := Function.update s.luwEnd t e.left}

def writes (s : Host T W) (t : T) (w : W) : Host T W :=
  {s with pending := s.pending ++ [(t,w)]}.noted t (.write w)

def commit (s : Host T W) (t : T) (e : Ending) : Host T W :=
  let s := s.endLuw t e
  if e.succeeds then {s with committed := s.committed ++ s.pending,pending := []}.noted t .commit else s

def rollback (s : Host T W) (t : T) (e : Ending) : Host T W :=
  let s := s.endLuw t e
  if e.succeeds then {s with pending := []}.noted t .rollback else s

def acquire (s : Host T W) (t : T) (next : Then) : Host T W :=
  {s with lock := s.lock.acquire t}.at' t (.queued next)

def release (s : Host T W) (t : T) (p : Phase) : Host T W :=
  {s with lock := s.lock.release}.at' t p

end Host

def Then.phase : Then → Phase
  | .start => .starting
  | .behind => .working
  | .condition => .asking

def Ending.fits (e : Ending) (registered : Nat) : Prop := registered = 0 → e.left = 0 ∧ e.raised = false

instance (e : Ending) (registered : Nat) : Decidable (e.fits registered) :=
  inferInstanceAs (Decidable (_ → _))

section steps

-- the steps that run as dialog steps; the others are an exclusive read
variable {T W : Type} [DecidableEq T] (dialog : T → Bool)

def Enabled (s : Host T W) : Action T W → Prop
  | .arrive t => s.phase t = .absent
  | .granted t => ∃ next,s.phase t = .queued next ∧ s.lock.holder = some t
  | .rollInRaised t => s.phase t = .queued .condition ∧ s.lock.holder = some t
  | .started t _ => s.phase t = .starting
  | .write t _ => s.phase t = .working ∨ s.phase t = .asking
  | .register t => dialog t = true ∧ (s.phase t = .working ∨ s.phase t = .asking)
  | .commitWork t e | .rollbackWork t e => s.phase t = .working ∧ e.fits (s.luwEnd t)
  | .ask t => s.phase t = .working
  | .answer t => s.phase t = .asking
  | .wait t e => (s.phase t = .working ∨ s.phase t = .asking) ∧ e.fits (s.luwEnd t)
  | .wake t again => ∃ condition,s.phase t = .sleeping condition ∧ (again = true → condition = true)
  | .returned t | .raised t => s.phase t = .working
  | .committed t e => s.phase t = .committing ∧ e.fits (s.luwEnd t)
  | .rolledBack t e => s.phase t = .rolling ∧ e.fits (s.luwEnd t)
  | .closed t e => s.phase t = .closing ∧ e.fits (s.luwEnd t)

def Host.act (s : Host T W) : Action T W → Host T W
  | .arrive t => s.acquire t .start
  | .granted t =>
    match s.phase t with
    | .queued next => s.at' t next.phase
    | _ => s
  | .rollInRaised t => s.at' t .working
  | .started t raised => s.at' t (if raised then .closing else .working)
  | .write t w => s.writes t w
  | .register t => {s with luwEnd := Function.update s.luwEnd t (s.luwEnd t + 1)}
  -- an error of the commit is raised in the step's own code, which goes on with it
  | .commitWork t e => s.commit t e
  | .rollbackWork t e => s.rollback t e
  | .ask t => s.at' t .asking
  | .answer t => s.at' t .working
  | .wait t e =>
    let condition := s.phase t = .asking
    let s := s.commit t e
    -- the work process is given up only when every commit returned
    if e.returns then s.release t (.sleeping condition) else s.at' t .working
  | .wake t again => s.acquire t (if again then .condition else .behind)
  | .returned t => s.at' t (if dialog t then .committing else .closing)
  | .raised t => s.at' t (if dialog t then .rolling else .closing)
  | .committed t e => (s.commit t e).at' t (if e.returns then .closing else .rolling)
  | .rolledBack t e => (s.rollback t e).at' t .closing
  | .closed t e =>
    let s := s.endLuw t e
    -- a callback that raises leaves the finally before the work process is released
    if e.raised then s.at' t .finished else s.release t .finished

inductive Run : Host T W → List (Action T W) → Host T W → Prop
  | nil (s : Host T W) : Run s [] s
  | snoc {s s' : Host T W} {as : List (Action T W)} {a : Action T W} : Run s as s' →
      Enabled dialog s' a → Run s (as ++ [a]) (s'.act dialog a)

end steps

end OpenSteamgate.Dialog
