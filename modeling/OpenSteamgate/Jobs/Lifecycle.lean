import OpenSteamgate.Jobs.Waking

namespace OpenSteamgate.Jobs

section turned

variable {s s₁ s' : Store} {id l : Id} {r r' : Run} {rows rows' : List StepRow}
  {old new : RunState} {p : StepRow → Bool}

def mark (p : StepRow → Bool) (new : StepState) (rows : List StepRow) : List StepRow :=
  rows.map fun row => if p row then {row with state := new} else row

def Numbered (rows : List LogRow) : Prop := rows.map LogRow.seq = List.range' 1 rows.length

structure Turned (s s₁ : Store) (r r' : Run) (rows : List StepRow) : Prop where
  found : s.runs.find r.id = some r
  same : r'.id = r.id
  runs : ∀ l,s₁.runs.find l = if l = r.id then some r' else s.runs.find l
  steps : s₁.steps = Function.update s.steps r.id rows
  log : ∀ l,Numbered (s.log l) → Numbered (s₁.log l)
  imports : s₁.imports = s.imports
  events : s₁.events = s.events
  jobEvents : s₁.jobEvents = s.jobEvents

theorem max_range (n : Nat) : (List.range' 1 n).foldl max 0 = n := by
  induction n with
  | zero => rfl
  | succ n ih =>
    rw [List.range'_concat,List.foldl_append,ih,Nat.one_mul,List.foldl_cons,List.foldl_nil]
    omega

theorem appendJobLog_numbered {step : Option Nat} {code : LogCode} (hlog : Numbered (s.log l)) :
    Numbered ((s.appendJobLog id step code).log l) := by
  by_cases hl : l = id
  · subst hl
    have hself : (s.appendJobLog l step code).log l =
        s.log l ++ [⟨((s.log l).map LogRow.seq).foldl max 0 + 1,step,code⟩] := Function.update_self ..
    rw [Numbered,hself,List.map_append,List.map_singleton,hlog,max_range,List.length_append,
      List.length_singleton,List.range'_concat,Nat.one_mul,Nat.add_comm 1]
  · have hother : (s.appendJobLog id step code).log l = s.log l := Function.update_of_ne hl ..
    rwa [hother]

namespace Turned

theorem start (hfound : s.runs.find id = some r) : Turned s s r r (s.steps r.id) := by
  have hid := Table.find_key hfound
  subst hid
  refine ⟨hfound,rfl,fun l => ?_,(Function.update_eq_self _ _).symm,fun _ hlog => hlog,rfl,rfl,rfl⟩
  split
  · rename_i hl
    rw [hl,hfound]
  · rfl

theorem self (ht : Turned s s₁ r r' rows) : s₁.runs.find r.id = some r' := by
  rw [ht.runs,if_pos rfl]

theorem self_steps (ht : Turned s s₁ r r' rows) : s₁.steps r.id = rows := by
  rw [ht.steps,Function.update_self]

theorem setSteps (ht : Turned s s₁ r r' rows) (p : StepRow → Bool) (new : StepState) :
    Turned s (s₁.setSteps r.id p new).1 r r' (mark p new rows) := by
  refine ⟨ht.found,ht.same,ht.runs,?_,ht.log,ht.imports,ht.events,ht.jobEvents⟩
  change Function.update s₁.steps r.id _ = _
  rw [ht.self_steps,ht.steps,Function.update_idem]
  rfl

theorem setSteps_count (ht : Turned s s₁ r r' rows) (p : StepRow → Bool) (new : StepState) :
    (s₁.setSteps r.id p new).2 = rows.countP p := by
  change (s₁.steps r.id).countP p = _
  rw [ht.self_steps]

theorem updateRun {q : Run → Bool} (ht : Turned s s₁ r r' rows) (f : Run → Run)
    (hf : ∀ r,(f r).id = r.id) (hq : q r' = true) :
    Turned s (s₁.updateRun r.id q f hf).1 r (f r') rows := by
  refine ⟨ht.found,(hf r').trans ht.same,fun l => ?_,ht.steps,ht.log,ht.imports,ht.events,ht.jobEvents⟩
  change (s₁.runs.updateAt r.id q f hf).1.find l = _
  rw [Table.updateAt_find,ht.self,ht.runs]
  split
  · rw [Option.map_some,if_pos hq]
  · rfl

theorem setState (ht : Turned s s₁ r r' rows) (hold : r'.state = old) (new : RunState) :
    Turned s (s₁.setState r.id old new).1 r {r' with state := new} rows :=
  ht.updateRun (fun r => {r with state := new}) (fun _ => rfl) (decide_eq_true hold)

theorem logged (ht : Turned s s₁ r r' rows) (id : Id) (step : Option Nat) (code : LogCode) :
    Turned s (s₁.appendJobLog id step code) r r' rows :=
  ⟨ht.found,ht.same,ht.runs,ht.steps,fun l hl => appendJobLog_numbered (ht.log l hl),ht.imports,
    ht.events,ht.jobEvents⟩

end Turned

theorem updateRun_count {q : Run → Bool} {f : Run → Run} {hf : ∀ r,(f r).id = r.id}
    (hcount : (s.updateRun id q f hf).2 = 1) : ∃ r,s.runs.find id = some r ∧ q r = true := by
  change (s.runs.updateAt id q f hf).2 = 1 at hcount
  rw [Table.updateAt_count] at hcount
  split at hcount
  · rename_i hany
    exact (Option.any_eq_true _ _).mp hany
  · cases hcount

theorem setState_count (hcount : (s.setState id old new).2 = 1) :
    ∃ r,s.runs.find id = some r ∧ r.state = old := by
  obtain ⟨r,hr,hstate⟩ := updateRun_count hcount
  exact ⟨r,hr,of_decide_eq_true hstate⟩

theorem setState_one (hfound : s.runs.find id = some r) (hstate : r.state = old) (new : RunState) :
    (s.setState id old new).2 = 1 := by
  have hcount := Table.updateAt_count s.runs id (fun r => decide (r.state = old))
    (fun r => {r with state := new}) fun _ => rfl
  rwa [hfound,Option.any_some,if_pos (decide_eq_true hstate)] at hcount

end turned

def Run.late (r : Run) (nowStamp : Stamp) : Bool :=
  r.schedule.any fun sdl => sdl.start ≤ nowStamp && sdl.last.any fun last => last < nowStamp

inductive Turn (h : Platform) : Call → Answer → Run → List StepRow → Run → List StepRow →
    List NamedEvent → List JobEvent → Prop
  | claimed {scope runId r rows} (k : Nat) : r.state = .queued → scope.claims r = true →
      0 < r.stepCount → rows.countP (isStep k .ready) = 1 →
      Turn h (.claimNext scope runId) (.claimed r.id (some k)) r rows {r with state := .running}
        (mark (isStep k .ready) .running rows) [] []
  | claimedWhole {scope runId r rows} : r.state = .queued → scope.claims r = true → r.stepCount = 0 →
      Turn h (.claimNext scope runId) (.claimed r.id none) r rows {r with state := .running} rows [] []
  | advanced {result r rows k} (next : Nat) : r.state = .running →
      rows.countP (isStep k .running) = 1 →
      ((rows.filter fun row => k < row.number).map StepRow.number).head? = some next →
      Turn h (.finishStep r.id k result) .advanced r rows {r with state := .queued}
        (mark (isStep next .pending) .ready (mark (isStep k .running) .completed rows)) [] []
  | completed {result r rows k tails ends jobs} : r.state = .running →
      rows.countP (isStep k .running) = 1 →
      ((rows.filter fun row => k < row.number).map StepRow.number).head? = none →
      TailEvents h r tails → EndEvents h r ends →
      jobs = (r.origin.map fun origin => (⟨r.id,origin,r.jobName,r.jobCount⟩ : JobEvent)).toList →
      Turn h (.finishStep r.id k result) .done r rows {r with state := .completed}
        (mark (isStep k .running) .completed rows) (tails ++ ends) jobs
  | failed {result r rows k ends} : r.state = .running → rows.countP (isStep k .running) = 1 →
      EndEvents h r ends →
      Turn h (.finishStep r.id k result) .done r rows {r with state := .failed}
        (mark (fun row => row.state = .pending) .skipped (mark (isStep k .running) .failed rows)) ends []
  | dumped {r rows k} : r.state = .running → rows.countP (isStep k .running) = 1 →
      Turn h (.failStep r.id k) .done r rows {r with state := .failed}
        (mark (fun row => row.state = .pending) .skipped (mark (isStep k .running) .failed rows)) [] []
  | completedWhole {result r rows tails ends jobs} : r.state = .running → r.stepCount = 0 →
      r.queuedAt.isSome = true → TailEvents h r tails → EndEvents h r ends →
      jobs = (r.origin.map fun origin => (⟨r.id,origin,r.jobName,r.jobCount⟩ : JobEvent)).toList →
      Turn h (.finish r.id result) .done r rows {r with state := .completed} rows (tails ++ ends) jobs
  | failedWhole {call r rows ends} : call = .fail r.id ∨ (∃ result,call = .finish r.id result) →
      r.state = .running → r.stepCount = 0 → r.queuedAt.isSome = true → EndEvents h r ends →
      Turn h call .done r rows {r with state := .failed} rows ends []
  | endedLocally {call r rows} (state : RunState) : call = .fail r.id ∨ (∃ result,call = .finish r.id result) →
      state = .completed ∨ state = .failed → r.state = .running → r.stepCount = 0 → r.queuedAt = none →
      Turn h call .done r rows {r with state := state} rows [] []
  | interrupted {r rows ends} : r.state = .running → r.queuedAt.isSome = true →
      rows.countP (fun row => row.state = .running) = (if 0 < r.stepCount then 1 else 0) →
      EndEvents h r ends →
      Turn h (.interruptQueued r.id) .done r rows {r with state := .interrupted}
        (mark (fun row => row.state = .ready || row.state = .pending) .skipped
          (mark (fun row => row.state = .running) .interrupted rows)) ends []
  | begun {now r rows} : r.state = .waiting → r.schedule.isSome = true →
      Turn h (.beginRelease r.id now) (.decided true) r rows {r with state := .releasing} rows [] []
  | released {nowStamp now r rows} : r.state = .releasing → r.schedule.isSome = true →
      0 < r.stepCount → rows.countP (isStep 1 .pending) = 1 →
      Turn h (.releaseTimed r.id nowStamp now) .released r rows
        {r with state := .queued,queuedAt := some now} (mark (isStep 1 .pending) .ready rows) [] []
  | expired {nowStamp now r rows} : r.state = .releasing → r.schedule.isSome = true →
      r.late nowStamp = true →
      Turn h (.releaseTimed r.id nowStamp now) .expired r rows {r with state := .failed}
        (mark (fun row => row.state = .pending) .skipped (mark (isStep 1 .pending) .failed rows)) [] []
  | deleted {r rows} : r.state = .waiting ∨ r.state = .completed ∨ r.state = .failed ∨
        r.state = .interrupted →
      Turn h (.deleteJob r.id) .deleted r rows {r with state := .deleted} rows [] []

structure Created (s s' : Store) (r : Run) (rows : List StepRow) : Prop where
  fresh : s.runs.find r.id = none
  runs : ∀ l,s'.runs.find l = if l = r.id then some r else s.runs.find l
  steps : s'.steps = Function.update s.steps r.id rows
  log : ∀ l,Numbered (s.log l) → Numbered (s'.log l)
  events : s'.events = s.events
  jobEvents : s'.jobEvents = s.jobEvents

structure Unchanged (s s' : Store) : Prop where
  runs : s'.runs = s.runs
  steps : s'.steps = s.steps
  imports : s'.imports = s.imports
  events : s'.events = s.events
  jobEvents : s'.jobEvents = s.jobEvents
  log : s'.log = s.log

def Answer.quiet : Answer → Bool
  | .duplicate | .recorded _ | .busy _ | .empty | .decided _ | .unchanged | .missing | .running | .raised _ => true
  | .done | .imported | .claimed _ _ | .advanced | .released | .expired | .deleted => false

inductive Effect (h : Platform) (s : Store) : Call → Answer → Store → Prop
  | unchanged {call answer s'} : Unchanged s s' → answer.quiet = true ∨ call = .reserveSignalSeq →
      Effect h s call answer s'
  | turned {call answer r r' rows events jobs s₁ s'} : Turned s s₁ r r' rows →
      Emitted events jobs s₁ s' → Turn h call answer r (s.steps r.id) r' rows events jobs →
      (∀ event ∈ events,s.events.find event.intent = none) →
      (∀ job ∈ jobs,s.jobEvents.find job.run = none) →
      Effect h s call answer s'
  | signalled {intent event s'} : Emitted [event] [] s s' → s.events.find event.intent = none →
      Effect h s (.importNamedEvent intent) .imported s'
  | imported {intent now c s'} : check h intent = some c →
      Created s s' (Store.runOf c now (s.startsNow c))
        (s.steps c.id ++ (c.steps.map (Store.stepRows (s.startsNow c))).getD []) →
      s.imports.insert ⟨c.id,h.digest c.payload,c.id⟩ = some s'.imports →
      (∀ after,c.after = some after → after.intentId = none → (s.completions c.origin after).length ≤ 1) →
      Effect h s (.importIntent intent now) .imported s'
  | added {call answer r s'} : r.origin = none → r.stepCount = 0 →
      r.state = .running ∧ r.queuedAt = none ∨ r.state = .queued →
      r.after = none → r.named = none → r.schedule = none →
      Created s s' r (s.steps r.id) → s'.imports = s.imports → answer = .done →
      call.creates h = some r.id → Effect h s call answer s'

end OpenSteamgate.Jobs
