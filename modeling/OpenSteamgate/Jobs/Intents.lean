import OpenSteamgate.Jobs.Dispatch
import OpenSteamgate.Jobs.Schedule

namespace OpenSteamgate.Jobs

structure AfterEvent where
  jobname : Text
  jobcount : Text
  intentId : Option Id := none
  deriving DecidableEq

structure Awaited where
  id : Text
  param : Text
  sourceInstance : Text
  seq : Nat
  deriving DecidableEq

structure TailEvent where
  id : Text
  param : Text
  sourceInstance : Text
  deriving DecidableEq

structure StepSpec where
  number : Nat
  program : Text
  input : List Field := []
  deriving DecidableEq

structure Intent where
  intentId : Text
  sourceDb : Text
  client : Text
  sysid : Text
  jobname : Text
  jobcount : Text
  owner : Text
  program : Text
  generation : Text
  sourceInstance : Option Text := none
  steps : Option (List StepSpec) := none
  afterEvent : Option AfterEvent := none
  namedEvent : Option Awaited := none
  tailEvent : Option TailEvent := none
  schedule : Option Schedule := none
  chainPred : Option Id := none
  deriving DecidableEq

def isJobCount (text : Text) : Bool :=
  text.length = 8 && (text.take 6).all isDigit && (text.drop 6).all fun c => isDigit c || isUpper c

def isFieldName : Text → Bool
  | [] => false
  | c :: rest => (isUpper c || c = '_') && rest.length ≤ 7 &&
      rest.all fun c => isUpper c || isDigit c || c = '_'

def maxFields : Nat := 20

def maxRangesPerField : Nat := 20

def maxValueLength : Nat := 255

def isSentinel (range : Range) : Bool :=
  range.sign = ['#'] && (range.option = [] || range.option = [' ',' ']) && range.low = [] &&
    range.high = []

def rangeOptions : List Text :=
  ["EQ","NE","GT","GE","LT","LE","BT","NB","CP","NP"].map String.toList

def isRange (range : Range) : Bool :=
  (range.sign = ['I'] || range.sign = ['E']) && rangeOptions.contains range.option &&
    range.low.length ≤ maxValueLength && range.high.length ≤ maxValueLength

def jobField (field : Field) : Option Field :=
  if !isFieldName field.name || maxValueLength < field.value.length then none
  else
    match field.ranges with
    | none => some field
    | some ranges =>
      if maxRangesPerField < ranges.length then none
      else
        match ranges with
        | [range] =>
          if isSentinel range then some {field with ranges := some [⟨['#'],[' ',' '],[],[]⟩]}
          else if isRange range then some field
          else none
        | ranges => if ranges.all isRange then some field else none

def jobInput (input : List Field) : Option (List Field) :=
  if maxFields < input.length then none
  else if ¬(input.map Field.name).Nodup then none
  else input.mapM jobField

def Schedule.texts (schedule : Schedule) : JobSchedule.Schedule :=
  ⟨Decimal.fixed 14 schedule.start,(schedule.last.map (Decimal.fixed 14)).getD [],
    ⟨schedule.period.mins,schedule.period.hours,schedule.period.days,schedule.period.weeks⟩⟩

def checkSchedule (schedule : Schedule) : Bool := (JobSchedule.checkSchedule schedule.texts).toBool

structure Checked where
  id : Id
  origin : Origin
  jobname : Text
  jobcount : Text
  program : Text
  generation : Text
  sourceInstance : Option Text
  steps : Option (List StepSpec)
  after : Option AfterEvent
  named : Option Awaited
  tail : Option TailEvent
  schedule : Option Schedule
  chainPred : Option Id
  deriving DecidableEq

variable (h : Platform)

def reportOf (program : Text) : Text := h.upper (h.trim program)

def checkSteps (index : Nat) : List StepSpec → Option (List StepSpec)
  | [] => some []
  | step :: steps => do
    let input ← jobInput step.input
    if step.number ≠ index || !isName 39 (reportOf h step.program) then none
    else do
      let steps ← checkSteps (index + 1) steps
      some (⟨index,reportOf h step.program,input⟩ :: steps)

def tailValid (intent : Intent) (tail : TailEvent) : Bool :=
  intent.steps.isSome && isName 31 tail.id && tail.param.length ≤ 64 && isId tail.sourceInstance &&
    (match intent.namedEvent with
    | none => true
    | some named => tail.sourceInstance = named.sourceInstance)

def namedValid (intent : Intent) (named : Awaited) : Bool :=
  intent.afterEvent.isNone && intent.steps.isSome && isName 31 named.id && named.param.length ≤ 64 &&
    isId named.sourceInstance && 1 ≤ named.seq

def afterValid (intent : Intent) (after : AfterEvent) : Bool :=
  intent.steps.isSome && after.jobname ≠ [] && after.jobname.length ≤ 32 &&
    after.jobname = h.trim after.jobname && after.jobname = h.upper after.jobname &&
    isJobCount after.jobcount && (after.intentId.map isId).getD true &&
    !(after.jobname = intent.jobname && after.jobcount = intent.jobcount)

def instancesAgree (intent : Intent) : Bool :=
  match intent.sourceInstance with
  | none => true
  | some inst => (intent.namedEvent.map fun named => decide (named.sourceInstance = inst)).getD true &&
      (intent.tailEvent.map fun tail => decide (tail.sourceInstance = inst)).getD true

def timedValid (intent : Intent) : Bool :=
  (match intent.schedule with
  | none => true
  | some schedule => intent.steps.isSome && intent.afterEvent.isNone && intent.namedEvent.isNone &&
      checkSchedule schedule) &&
    (match intent.chainPred with
    | none => true
    | some pred => intent.schedule.isSome && isId pred)

def orderedSteps (intent : Intent) : Option (Option (List StepSpec)) :=
  match intent.steps with
  | none => some none
  | some steps => (checkSteps h 1 steps).map some

def stepsValid (program : Text) : Option (List StepSpec) → Bool
  | none => true
  | some steps => 1 ≤ steps.length && steps.length ≤ 16 &&
      (steps.head?.map fun step => decide (step.program = program)).getD false

def check (intent : Intent) : Option Checked := do
  let id := h.lower intent.intentId
  let program := reportOf h intent.program
  let steps ← orderedSteps h intent
  if isId id && isName 39 program && stepsValid program steps &&
      (intent.sourceInstance.map isId).getD true && (intent.tailEvent.map (tailValid intent)).getD true &&
      (intent.namedEvent.map (namedValid intent)).getD true &&
      (intent.afterEvent.map (afterValid h intent)).getD true && instancesAgree intent &&
      timedValid intent then
    some ⟨id,⟨h.resolve intent.sourceDb,intent.client,intent.sysid,intent.owner⟩,intent.jobname,
      intent.jobcount,program,intent.generation,intent.sourceInstance,steps,intent.afterEvent,
      intent.namedEvent,intent.tailEvent,intent.schedule,intent.chainPred⟩
  else none

section payload

def Range.json (range : Range) : Json :=
  .obj [("sign",.str range.sign),("option",.str range.option),("low",.str range.low),
    ("high",.str range.high)]

def Field.json (field : Field) : Json :=
  .obj ([("name",.str field.name),("value",.str field.value)] ++
    (field.ranges.map fun ranges => ("ranges",Json.arr (ranges.map Range.json))).toList)

def StepSpec.json (step : StepSpec) : Json :=
  .obj ([("number",.num step.number),("program",.str step.program)] ++
    if step.input = [] then [] else [("input",Json.arr (step.input.map Field.json))])

def AfterEvent.json (after : AfterEvent) : Json :=
  .obj ([("jobname",.str after.jobname),("jobcount",.str after.jobcount)] ++
    (after.intentId.map fun id => ("intentId",Json.str id)).toList)

def Awaited.json (named : Awaited) : Json :=
  .obj [("id",.str named.id),("param",.str named.param),("sourceInstance",.str named.sourceInstance),
    ("seq",.num named.seq)]

def TailEvent.json (tail : TailEvent) : Json :=
  .obj [("id",.str tail.id),("param",.str tail.param),("sourceInstance",.str tail.sourceInstance)]

def Schedule.json (schedule : Schedule) : Json :=
  .obj [("start",.num schedule.start),("last",(schedule.last.map Json.num).getD (.str [])),("period",.obj [("mins",.num schedule.period.mins),("hours",.num schedule.period.hours),
      ("days",.num schedule.period.days),("weeks",.num schedule.period.weeks)])]

def Checked.base (c : Checked) : List (String × Json) :=
  [("sourceDb",.str c.origin.db),("client",.str c.origin.client),("sysid",.str c.origin.sysid),
    ("jobname",.str c.jobname),("jobcount",.str c.jobcount),("owner",.str c.origin.owner),
    ("program",.str c.program),("generation",.str c.generation)] ++
    (c.sourceInstance.map fun inst => ("sourceInstance",Json.str inst)).toList

def stepsMember (steps : Option (List StepSpec)) : List (String × Json) :=
  (steps.map fun steps => ("steps",Json.arr (steps.map StepSpec.json))).toList

def afterMember (after : Option AfterEvent) : List (String × Json) :=
  (after.map fun after => ("afterEvent",after.json)).toList

def namedMember (named : Option Awaited) : List (String × Json) :=
  (named.map fun named => ("namedEvent",named.json)).toList

def tailMember (tail : Option TailEvent) : List (String × Json) :=
  (tail.map fun tail => ("tailEvent",tail.json)).toList

def version (n : Nat) : String × Json := ("version",.num n)

def scheduledPayload (c : Checked) (schedule : Schedule) : Json :=
  .obj (version 7 :: c.base ++ stepsMember c.steps ++ [("schedule",schedule.json)] ++
    (c.chainPred.map fun pred => ("chainPred",Json.str pred)).toList ++ tailMember c.tail)

def Checked.payload (c : Checked) : Json :=
  match c.schedule with
  | some schedule => scheduledPayload c schedule
  | none =>
    if c.tail.isSome then .obj (version 6 :: c.base ++ stepsMember c.steps ++ afterMember c.after ++
      namedMember c.named ++ tailMember c.tail)
    else if c.named.isSome then .obj (version 5 :: c.base ++ stepsMember c.steps ++ namedMember c.named)
    else
      match c.after with
      | some after => .obj (version (if after.intentId.isSome then 4 else 3) :: c.base ++
          stepsMember c.steps ++ [("afterEvent",after.json)])
      | none =>
        if c.steps.isSome then .obj (version 2 :: c.base ++ stepsMember c.steps) else .obj c.base

end payload

structure EventIntent where
  intentId : Text
  sourceDb : Text
  sourceInstance : Text
  client : Text
  sysid : Text
  owner : Text
  id : Text
  param : Text
  seq : Option Nat := none

def eventValid (event : EventIntent) : Bool :=
  isId (h.lower event.intentId) && isId event.sourceInstance && isName 31 event.id &&
    event.param.length ≤ 64 && (event.seq.map fun seq => decide (1 ≤ seq)).getD true

namespace Store

def importNamedEvent (s : Store) (event : EventIntent) : Except Fault (Answer × Store) :=
  if !eventValid h event then .error .invalidEvent
  else
    let id := h.lower event.intentId
    let old := s.events.find id
    let (seq,s) := match event.seq.or (old.map NamedEvent.seq) with
      | some seq => (seq,s)
      | none => s.nextSignalSeq
    let row := signal h id ⟨h.resolve event.sourceDb,event.client,event.sysid,event.owner⟩
      event.sourceInstance event.id event.param seq
    match old with
    | some old => if old.digest ≠ row.digest then .error .changedAfterImport else .ok (.duplicate,s)
    | none => do
      let s ← s.emitNamed row
      .ok (.imported,s)

def completes (origin : Origin) (after : AfterEvent) (event : JobEvent) : Bool :=
  event.origin = origin && event.name = after.jobname && event.count = after.jobcount &&
    (after.intentId = none || after.intentId = some event.run)

def completions (s : Store) (origin : Origin) (after : AfterEvent) : List JobEvent :=
  (s.jobEvents.rows.filter (completes origin after)).take 2

def signalled (s : Store) (origin : Origin) (named : Awaited) : Bool :=
  s.events.rows.any fun event => event.origin = origin && event.inst = named.sourceInstance &&
    event.id = named.id && named.seq < event.seq && (named.param = [] || event.param = named.param)

def startsNow (s : Store) (c : Checked) : Bool :=
  match c.schedule,c.named,c.after with
  | some _,_,_ => false
  | none,some named,_ => s.signalled c.origin named
  | none,none,some after => (s.completions c.origin after).length = 1
  | none,none,none => true

def runOf (c : Checked) (now : Stamp) (released : Bool) : Run where
  id := c.id
  program := c.program
  generation := c.generation
  queuedAt := some now
  state := if released then .queued else .waiting
  origin := some c.origin
  jobName := c.jobname
  jobCount := c.jobcount
  stepCount := (c.steps.map List.length).getD 0
  after := c.after.map fun after => ⟨after.jobname,after.jobcount,after.intentId⟩
  sourceInstance := (c.named.map Awaited.sourceInstance).or (c.tail.map TailEvent.sourceInstance)
  jobEndInstance := c.sourceInstance
  named := c.named.map fun named => ⟨named.id,named.param,named.seq⟩
  tail := c.tail.map fun tail => ⟨tail.id,tail.param⟩
  schedule := c.schedule
  chainPred := c.chainPred

def stepRows (released : Bool) (steps : List StepSpec) : List StepRow :=
  steps.map fun step => ⟨step.number,step.program,
    if step.number = 1 ∧ released then .ready else .pending,step.input⟩

def insertSteps (s : Store) (id : Id) (rows : List StepRow) : Except Fault Store :=
  if rows.any fun row => (s.steps id).any fun old => old.number = row.number then .error .duplicateKey
  else .ok {s with steps := Function.update s.steps id (s.steps id ++ rows)}

def recorded (s : Store) (c : Checked) (old : Import) : Bool :=
  let priorEnd := (s.runs.find c.id).bind Run.jobEndInstance
  let legacyDuplicate := c.sourceInstance.isSome && priorEnd.isNone &&
    old.digest = h.digest ({c with sourceInstance := none} : Checked).payload
  (old.digest = h.digest c.payload || legacyDuplicate) && old.run = c.id

def importIntent (s : Store) (intent : Intent) (now : Stamp) : Except Fault (Answer × Store) :=
  match check h intent with
  | none => .error .invalidIntent
  | some c =>
    match s.imports.find c.id with
    | some old => if s.recorded h c old then .ok (.recorded c.id,s) else .error .changedAfterImport
    | none =>
      if (c.after.map fun after => decide (after.intentId = none ∧
          1 < (s.completions c.origin after).length)).getD false then .error .ambiguousPredecessor
      else do
        let released := s.startsNow c
        let s ← s.insertRun (runOf c now released)
        let s ← s.insertImport ⟨c.id,h.digest c.payload,c.id⟩
        let s ← match c.steps with
          | none => .ok s
          | some steps => s.insertSteps c.id (stepRows released steps)
        .ok (.imported,s.appendJobLog c.id none .imported)

end Store

end OpenSteamgate.Jobs
