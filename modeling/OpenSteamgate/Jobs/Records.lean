import Mathlib.Logic.Function.Basic
import Mathlib.Tactic.Ring
import OpenSteamgate.Library.Table

namespace OpenSteamgate.Jobs

abbrev Text := List Char

abbrev Stamp := Nat

abbrev Id := Text

inductive RunState
  | waiting
  | releasing
  | queued
  | running
  | completed
  | failed
  | interrupted
  | deleted
  deriving DecidableEq

inductive StepState
  | pending
  | ready
  | running
  | completed
  | failed
  | interrupted
  | skipped
  deriving DecidableEq

structure Range where
  sign : Text
  option : Text
  low : Text
  high : Text
  deriving DecidableEq

structure Field where
  name : Text
  value : Text
  ranges : Option (List Range) := none
  deriving DecidableEq

structure Period where
  mins : Nat
  hours : Nat
  days : Nat
  weeks : Nat
  deriving DecidableEq

structure Schedule where
  start : Stamp
  last : Option Stamp
  period : Period
  deriving DecidableEq

structure Origin where
  db : Text
  client : Text
  sysid : Text
  owner : Text
  deriving DecidableEq

structure After where
  name : Text
  count : Text
  intent : Option Id

structure Named where
  id : Text
  param : Text
  seq : Nat

structure Tail where
  id : Text
  param : Text

structure Run where
  id : Id
  program : Text
  generation : Text
  queuedAt : Option Stamp := none
  state : RunState
  origin : Option Origin := none
  jobName : Text := []
  jobCount : Text := []
  stepCount : Nat := 0
  after : Option After := none
  sourceInstance : Option Text := none
  jobEndInstance : Option Text := none
  named : Option Named := none
  tail : Option Tail := none
  schedule : Option Schedule := none
  chainPred : Option Id := none

structure StepRow where
  number : Nat
  program : Text
  state : StepState
  input : List Field

structure Import where
  intent : Id
  digest : Text
  run : Id

structure NamedEvent where
  intent : Id
  digest : Text
  origin : Origin
  inst : Text
  id : Text
  param : Text
  seq : Nat

structure JobEvent where
  run : Id
  origin : Origin
  name : Text
  count : Text

inductive LogCode
  | imported
  | stepStarted
  | stepCompleted
  | stepFailed
  | stepInterrupted
  | jobCompleted
  | jobFailed
  | jobInterrupted

structure LogRow where
  seq : Nat
  step : Option Nat
  code : LogCode

structure Store where
  runs : Table Id Run Run.id := .empty
  steps : Id → List StepRow := fun _ => []
  imports : Table Id Import Import.intent := .empty
  events : Table Id NamedEvent NamedEvent.intent := .empty
  jobEvents : Table Id JobEvent JobEvent.run := .empty
  log : Id → List LogRow := fun _ => []
  clock : Nat := 0

inductive Fault
  | invalidIntent
  | invalidEvent
  | invalidProgram
  | invalidRunId
  | duplicateKey
  | missingInstance
  | changedAfterImport
  | ambiguousPredecessor
  | noPendingStep
  | inconsistentSteps
  | notRunning
  | stepsRequired
  | tooLarge
  | changedState
  deriving DecidableEq

def isStep (number : Nat) (state : StepState) (row : StepRow) : Bool :=
  row.number = number && row.state = state

namespace Store

variable {s : Store} {id : Id}

def updateRun (s : Store) (id : Id) (p : Run → Bool) (f : Run → Run) (hf : ∀ r,(f r).id = r.id) :
    Store × Nat :=
  ({s with runs := (s.runs.updateAt id p f hf).1},(s.runs.updateAt id p f hf).2)

def setState (s : Store) (id : Id) (old new : RunState) : Store × Nat :=
  s.updateRun id (fun r => r.state = old) (fun r => {r with state := new}) fun _ => rfl

def setSteps (s : Store) (id : Id) (p : StepRow → Bool) (new : StepState) : Store × Nat :=
  let rows := (s.steps id).map fun row => if p row then {row with state := new} else row
  ({s with steps := Function.update s.steps id rows},(s.steps id).countP p)

def appendJobLog (s : Store) (id : Id) (step : Option Nat) (code : LogCode) : Store :=
  let row : LogRow := ⟨((s.log id).map LogRow.seq).foldl max 0 + 1,step,code⟩
  {s with log := Function.update s.log id (s.log id ++ [row])}

def nextSignalSeq (s : Store) : Nat × Store := (s.clock + 1,{s with clock := s.clock + 1})

def insertEvent (s : Store) (e : NamedEvent) : Except Fault Store :=
  match s.events.insert e with
  | none => .error .duplicateKey
  | some events => .ok {s with events := events}

def insertJobEvent (s : Store) (e : JobEvent) : Except Fault Store :=
  match s.jobEvents.insert e with
  | none => .error .duplicateKey
  | some jobEvents => .ok {s with jobEvents := jobEvents}

def insertImport (s : Store) (i : Import) : Except Fault Store :=
  match s.imports.insert i with
  | none => .error .duplicateKey
  | some imports => .ok {s with imports := imports}

def insertRun (s : Store) (r : Run) : Except Fault Store :=
  match s.runs.insert r with
  | none => .error .duplicateKey
  | some runs => .ok {s with runs := runs}

end Store

end OpenSteamgate.Jobs
