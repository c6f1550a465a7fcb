import OpenSteamgate.Jobs.Records

namespace OpenSteamgate.Jobs

inductive Json
  | num (n : Nat)
  | str (text : Text)
  | arr (items : List Json)
  | obj (members : List (String × Json))

structure Platform where
  trim : Text → Text
  upper : Text → Text
  lower : Text → Text
  resolve : Text → Text
  digest : Json → Text
  endKey : Id → Id

mutual

def Json.text : Json → Text
  | .num n => Nat.toDigits 10 n
  | .str text => '"' :: text ++ ['"']
  | .arr items => '[' :: Json.itemsText items ++ [']']
  | .obj members => '\x7b' :: Json.membersText members ++ ['\x7d']

def Json.itemsText : List Json → Text
  | [] => []
  | item :: items => item.text ++ ',' :: Json.itemsText items

def Json.membersText : List (String × Json) → Text
  | [] => []
  | (name,value) :: members => '"' :: name.toList ++ '"' :: ':' :: value.text ++
      ',' :: Json.membersText members

end

def plain : Platform where
  trim text := text
  upper text := text.map Char.toUpper
  lower text := text.map Char.toLower
  resolve text := text
  digest := Json.text
  endKey id := 'e' :: 'e' :: id

variable (h : Platform)

def signal (intent : Id) (origin : Origin) (inst id param : Text) (seq : Nat) : NamedEvent :=
  let payload : Json := .obj [("version",.num 1),("sourceDb",.str origin.db),("sourceInstance",.str inst),
    ("client",.str origin.client),("sysid",.str origin.sysid),("owner",.str origin.owner),
    ("id",.str id),("param",.str param),("seq",.num seq)]
  ⟨intent,h.digest payload,origin,inst,id,param,seq⟩

def Run.follows (child : Run) (event : JobEvent) : Bool :=
  child.origin = some event.origin &&
    match child.after with
    | none => false
    | some after => after.name = event.name && after.count = event.count &&
      (after.intent = none || after.intent = some event.run)

def Run.awaits (child : Run) (event : NamedEvent) : Bool :=
  child.origin = some event.origin && child.sourceInstance = some event.inst &&
    match child.named with
    | none => false
    | some named => named.id = event.id && named.seq < event.seq &&
      (named.param = [] || named.param = event.param)

namespace Store

def wake (s : Store) (named : Bool) (child : Run) : Except Fault Store :=
  if child.stepCount > 0 || named then
    let (s,ready) := s.setSteps child.id (isStep 1 .pending) .ready
    if child.stepCount < 1 || ready ≠ 1 then .error .noPendingStep
    else .ok (s.setState child.id .waiting .queued).1
  else .ok (s.setState child.id .waiting .queued).1

def wakeAll (s : Store) (named : Bool) : List Run → Except Fault Store
  | [] => .ok s
  | child :: children => do
    let s ← s.wake named child
    s.wakeAll named children

def emitNamed (s : Store) (event : NamedEvent) : Except Fault Store := do
  let s ← s.insertEvent event
  s.wakeAll true (s.runs.rows.filter fun r => r.state = .waiting && r.awaits event)

def emitCompletion (s : Store) (id : Id) : Except Fault Store :=
  match s.runs.find id with
  | none => .ok s
  | some run =>
    match run.origin with
    | none => .ok s
    | some origin => do
      let event : JobEvent := ⟨id,origin,run.jobName,run.jobCount⟩
      let s ← s.insertJobEvent event
      let s ← s.wakeAll false (s.runs.rows.filter fun r => r.state = .waiting && r.follows event)
      match run.tail with
      | none => .ok s
      | some tail =>
        let (seq,s) := s.nextSignalSeq
        match run.sourceInstance with
        | none => .error .missingInstance
        | some inst => s.emitNamed (signal h id origin inst tail.id tail.param seq)

def endOfJob : Text := "SAP_END_OF_JOB".toList

def endParam (run : Run) : Text :=
  run.jobName ++ List.replicate (32 - run.jobName.length) ' ' ++ run.jobCount

def emitJobEnd (s : Store) (id : Id) : Except Fault Store :=
  match s.runs.find id with
  | none => .ok s
  | some run =>
    match run.origin,run.jobEndInstance.or run.sourceInstance with
    | some origin,some inst =>
      let (seq,s) := s.nextSignalSeq
      s.emitNamed (signal h (h.endKey id) origin inst endOfJob (endParam run) seq)
    | _,_ => .ok s

end Store

end OpenSteamgate.Jobs
