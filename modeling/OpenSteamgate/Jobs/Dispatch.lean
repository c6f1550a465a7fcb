import Mathlib.Data.List.MinMax
import OpenSteamgate.Jobs.Emission

namespace OpenSteamgate.Jobs

def isDigit (c : Char) : Bool := '0' ≤ c && c ≤ '9'

def isUpper (c : Char) : Bool := 'A' ≤ c && c ≤ 'Z'

def isLower (c : Char) : Bool := 'a' ≤ c && c ≤ 'z'

def isName (max : Nat) : Text → Bool
  | [] => false
  | c :: rest => isUpper c && rest.length ≤ max && rest.all fun c => isUpper c || isDigit c || c = '_'

def isProgram : Text → Bool
  | [] => false
  | c :: rest => (isUpper c || isLower c) && rest.length ≤ 39 &&
      rest.all fun c => isUpper c || isLower c || isDigit c || c = '_'

def isId (text : Text) : Bool := text.length = 32 && text.all fun c => isDigit c || 'a' ≤ c && c ≤ 'f'

structure Source where
  db : Text
  client : Text
  sysid : Text
  owner : Text
  inst : Option Text

inductive Scope
  | any
  | legacyOnly
  | source (source : Source)

def instanceFits (run : Run) (inst : Option Text) : Bool :=
  run.sourceInstance = none || run.sourceInstance = inst

def Scope.claims (scope : Scope) (run : Run) : Bool :=
  match scope,run.origin with
  | .any,_ => true
  | _,none => true
  | .legacyOnly,some _ => false
  | .source work,some origin => origin.db = work.db && origin.client = work.client &&
      origin.sysid = work.sysid && origin.owner = work.owner && instanceFits run work.inst

def Scope.holds (scope : Scope) (run : Run) : Bool :=
  match scope,run.origin with
  | .any,_ => true
  | _,none => true
  | .legacyOnly,some _ => false
  | .source work,some origin => origin.db = work.db && origin.client = work.client &&
      origin.sysid = work.sysid && instanceFits run work.inst

structure Result where
  status : Text
  size : Nat

def maxOutputBytes : Nat := 5 * 1024 * 1024

def Result.success (result : Result) : Bool := result.status = "COMPLETED".toList

inductive Answer
  | done
  | imported
  | duplicate
  | recorded (id : Id)
  | busy (id : Id)
  | empty
  | claimed (id : Id) (step : Option Nat)
  | advanced
  | decided (begun : Bool)
  | unchanged
  | released
  | expired
  | missing
  | running
  | deleted
  | raised (fault : Fault)
  deriving DecidableEq

def Run.queuedKey (run : Run) : Nat :=
  match run.queuedAt with
  | none => 0
  | some now => now + 1

def inOrder (children : List StepRow) (ready : List StepRow) : Bool :=
  match ready with
  | [first] => children.zipIdx.all fun (item,index) => item.number = index + 1 &&
      (if index + 1 < first.number then item.state = .completed
      else if first.number < index + 1 then item.state = .pending
      else true)
  | _ => false

variable (h : Platform)

namespace Store

def start (s : Store) (id : Id) (program generation : Text) : Except Fault (Answer × Store) :=
  if !isProgram program then .error .invalidProgram
  else do
    let s ← s.insertRun {id := id,program := h.upper program,generation := generation,state := .running}
    .ok (.done,s)

def enqueue (s : Store) (id : Id) (program generation : Text) (now : Stamp) :
    Except Fault (Answer × Store) :=
  if !isProgram program then .error .invalidProgram
  else do
    let s ← s.insertRun {id := id,program := h.upper program,generation := generation
                         queuedAt := some now,state := .queued}
    .ok (.done,s)

def reserveSignalSeq (s : Store) : Except Fault (Answer × Store) := .ok (.done,s.nextSignalSeq.2)

def claimNext (s : Store) (scope : Scope) (runId : Option Id) : Except Fault (Answer × Store) :=
  match s.runs.rows.find? fun r => r.state = .running && r.queuedAt.isSome && scope.holds r with
  | some busy => .ok (.busy busy.id,s)
  | none =>
    match (s.runs.rows.filter fun r => r.state = .queued && scope.claims r &&
        (runId = none || runId = some r.id)).argmin Run.queuedKey with
    | none => .ok (.empty,s)
    | some row =>
      let children := s.steps row.id
      let ready := children.filter fun item => item.state = .ready
      if row.stepCount = 0 ∧ children ≠ [] then .error .inconsistentSteps
      else if 0 < row.stepCount ∧ ¬(children.length = row.stepCount ∧ inOrder children ready) then
        .error .inconsistentSteps
      else
        let (s,claimed) := s.setState row.id .queued .running
        if claimed ≠ 1 then .error .changedState
        else
          match ready.head? with
          | none => .ok (.claimed row.id none,s.appendJobLog row.id (some 1) .stepStarted)
          | some step =>
            let (s,active) := s.setSteps row.id (isStep step.number .ready) .running
            if active ≠ 1 then .error .changedState
            else .ok (.claimed row.id (some step.number),
              s.appendJobLog row.id (some step.number) .stepStarted)

def activeSteps (run : Option Run) : Nat := if 0 < (run.map Run.stepCount).getD 0 then 1 else 0

def interruptQueued (s : Store) (id : Id) : Except Fault (Answer × Store) :=
  if !isId id then .error .invalidRunId
  else
    let (s,changed) := s.updateRun id (fun r => r.state = .running && r.queuedAt.isSome)
      (fun r => {r with state := .interrupted}) fun _ => rfl
    if changed ≠ 1 then .error .notRunning
    else
      let activeStep := (s.steps id).filter fun row => row.state = .running
      let (s,active) := s.setSteps id (fun row => row.state = .running) .interrupted
      if active ≠ activeSteps (s.runs.find id) ∨ activeStep.length ≠ active then
        .error .inconsistentSteps
      else
        let (s,_) := s.setSteps id (fun row => row.state = .ready || row.state = .pending) .skipped
        let s := s.appendJobLog id (some ((activeStep.head?.map StepRow.number).getD 1)) .stepInterrupted
        let s := s.appendJobLog id none .jobInterrupted
        do
          let s ← s.emitJobEnd h id
          .ok (.done,s)

def finish (s : Store) (id : Id) (result : Result) : Except Fault (Answer × Store) :=
  match s.runs.find id with
  | none => .error .notRunning
  | some row =>
    if row.state ≠ .running then .error .notRunning
    else if 0 < row.stepCount then .error .stepsRequired
    else if maxOutputBytes < result.size then .error .tooLarge
    else
      let (s,changed) := s.setState id .running (if result.success then .completed else .failed)
      if changed ≠ 1 then .error .changedState
      else if row.queuedAt = none then .ok (.done,s)
      else
        let s := s.appendJobLog id (some 1) (if result.success then .stepCompleted else .stepFailed)
        let s := s.appendJobLog id none (if result.success then .jobCompleted else .jobFailed)
        do
          let s ← if result.success then s.emitCompletion h id else .ok s
          let s ← s.emitJobEnd h id
          .ok (.done,s)

def fail (s : Store) (id : Id) : Except Fault (Answer × Store) :=
  if 0 < ((s.runs.find id).map Run.stepCount).getD 0 then .error .stepsRequired
  else
    let (s,changed) := s.setState id .running .failed
    if changed ≠ 1 then .error .notRunning
    else if ((s.runs.find id).bind Run.queuedAt) = none then .ok (.done,s)
    else
      let s := s.appendJobLog id (some 1) .stepFailed
      let s := s.appendJobLog id none .jobFailed
      do
        let s ← s.emitJobEnd h id
        .ok (.done,s)

def nextStep (s : Store) (id : Id) (number : Nat) : Option Nat :=
  (((s.steps id).filter fun row => number < row.number).map StepRow.number).head?

def finishStep (s : Store) (id : Id) (number : Nat) (result : Result) : Except Fault (Answer × Store) :=
  if maxOutputBytes < result.size then .error .tooLarge
  else
    let (s,changed) := s.setSteps id (isStep number .running)
      (if result.success then .completed else .failed)
    if changed ≠ 1 then .error .notRunning
    else
      match result.success,s.nextStep id number with
      | true,some next =>
        let (s,readied) := s.setSteps id (isStep next .pending) .ready
        let (s,queued) := s.setState id .running .queued
        if readied ≠ 1 ∨ queued ≠ 1 then .error .changedState
        else .ok (.advanced,s.appendJobLog id (some number) .stepCompleted)
      | success,_ =>
        let s := if success then s else (s.setSteps id (fun row => row.state = .pending) .skipped).1
        let (s,terminal) := s.setState id .running (if success then .completed else .failed)
        if terminal ≠ 1 then .error .changedState
        else
          let s := s.appendJobLog id (some number) (if success then .stepCompleted else .stepFailed)
          let s := s.appendJobLog id none (if success then .jobCompleted else .jobFailed)
          do
            let s ← if success then s.emitCompletion h id else .ok s
            let s ← s.emitJobEnd h id
            .ok (.done,s)

def failStep (s : Store) (id : Id) (number : Nat) : Except Fault (Answer × Store) :=
  let (s,changed) := s.setSteps id (isStep number .running) .failed
  if changed ≠ 1 then .error .notRunning
  else
    let (s,_) := s.setSteps id (fun row => row.state = .pending) .skipped
    let (s,terminal) := s.setState id .running .failed
    if terminal ≠ 1 then .error .changedState
    else
      let s := s.appendJobLog id (some number) .stepFailed
      .ok (.done,s.appendJobLog id none .jobFailed)

def beginRelease (s : Store) (id : Id) (now : Stamp) : Except Fault (Answer × Store) :=
  match s.runs.find id with
  | none => .ok (.decided false,s)
  | some run =>
    if run.state = .releasing then .ok (.decided true,s)
    else if run.state = .waiting ∧ (run.schedule.map fun sdl => decide (sdl.start ≤ now)).getD false then
      let (s,changed) := s.setState id .waiting .releasing
      .ok (.decided (changed = 1),s)
    else .ok (.decided false,s)

def releaseTimed (s : Store) (id : Id) (nowStamp now : Stamp) : Except Fault (Answer × Store) :=
  match s.runs.find id with
  | none => .ok (.unchanged,s)
  | some run =>
    match run.schedule with
    | none => .ok (.unchanged,s)
    | some sdl =>
      if run.state ≠ .releasing ∨ nowStamp < sdl.start then .ok (.unchanged,s)
      else if (sdl.last.map fun last => decide (last < nowStamp)).getD false then
        -- the first pending step fails, the other ones are skipped
        let (s,_) := s.setSteps id (isStep 1 .pending) .failed
        let (s,_) := s.setSteps id (fun row => row.state = .pending) .skipped
        let (s,_) := s.setState id .releasing .failed
        let s := s.appendJobLog id (some 1) .stepFailed
        .ok (.expired,s.appendJobLog id none .jobFailed)
      else
        let (s,ready) := s.setSteps id (isStep 1 .pending) .ready
        if run.stepCount < 1 ∨ ready ≠ 1 then .error .noPendingStep
        else
          let (s,_) := s.updateRun id (fun r => r.state = .releasing)
            (fun r => {r with state := .queued,queuedAt := some now}) fun _ => rfl
          .ok (.released,s)

def deleteJob (s : Store) (id : Id) : Except Fault (Answer × Store) :=
  match s.runs.find id with
  | none => .ok (.missing,s)
  | some run =>
    match run.state with
    | .deleted => .ok (.missing,s)
    | .queued | .running | .releasing => .ok (.running,s)
    | .waiting | .completed | .failed | .interrupted =>
      .ok (.deleted,(s.updateRun id (fun _ => true) (fun r => {r with state := .deleted}) fun _ => rfl).1)

end Store

end OpenSteamgate.Jobs
