import OpenSteamgate.Jobs.Lifecycle

namespace OpenSteamgate.Jobs

variable {h : Platform} {s s₁ s' : Store} {id : Id} {r : Run} {rows : List StepRow} {call : Call}
  {answer : Answer} {number : Nat} {result : Result} {now nowStamp : Stamp} {scope : Scope}
  {runId : Option Id}

theorem Unchanged.refl (s : Store) : Unchanged s s := ⟨rfl,rfl,rfl,rfl,rfl,rfl⟩

theorem Effect.quietly {r' : Run} {rows' : List StepRow} (ht : Turned s s' r r' rows')
    (hturn : Turn h call answer r (s.steps r.id) r' rows' [] []) : Effect h s call answer s' :=
  .turned ht (.refl s') hturn (List.forall_mem_nil _) (List.forall_mem_nil _)

theorem Effect.still {call : Call} {a : Answer} (hcall : Except.ok (a,s) = (.ok (answer,s') : Except Fault _))
    (hquiet : a.quiet = true) : Effect h s call answer s' := by
  obtain ⟨rfl,rfl⟩ := ok_pair hcall
  exact .unchanged (.refl s) (.inl hquiet)

theorem claimNext_effect (hcall : s.claimNext scope runId = .ok (answer,s')) :
    Effect h s (.claimNext scope runId) answer s' := by
  rw [Store.claimNext] at hcall
  split at hcall
  · exact .still hcall rfl
  split at hcall
  · exact .still hcall rfl
  rename_i row hrow
  obtain ⟨hmem,hconds⟩ := List.mem_filter.mp (List.argmin_mem hrow)
  rw [Bool.and_eq_true,Bool.and_eq_true,decide_eq_true_eq] at hconds
  obtain ⟨⟨hqueued,hclaims⟩,-⟩ := hconds
  have hturned := Turned.start (Table.find_of_mem hmem)
  dsimp only at hcall
  split at hcall
  · exact nomatch hcall
  rename_i hlegacy
  split at hcall
  · exact nomatch hcall
  rename_i hordered
  split at hcall
  · exact nomatch hcall
  have hclaimed := hturned.setState hqueued .running
  split at hcall
  · rename_i hready
    obtain ⟨rfl,rfl⟩ := ok_pair hcall
    refine .quietly (hclaimed.logged row.id (some 1) .stepStarted) (.claimedWhole hqueued hclaims ?_)
    by_contra hsteps
    refine hordered ⟨Nat.pos_of_ne_zero hsteps,fun hord => ?_⟩
    rw [List.head?_eq_none_iff.mp hready] at hord
    exact Bool.false_ne_true hord.2
  · rename_i step hready
    split at hcall
    · exact nomatch hcall
    rename_i hactive
    obtain ⟨rfl,rfl⟩ := ok_pair hcall
    have hcount := not_not.mp hactive
    rw [hclaimed.setSteps_count] at hcount
    refine .quietly ((hclaimed.setSteps _ _).logged row.id (some step.number) .stepStarted) (.claimed step.number hqueued hclaims ?_ hcount)
    by_contra hsteps
    refine hlegacy ⟨Nat.eq_zero_of_not_pos hsteps,fun hempty => ?_⟩
    rw [hempty] at hready
    exact nomatch hready

theorem EndEvents.key {events : List NamedEvent} {event : NamedEvent} (hends : EndEvents h r events)
    (hevent : event ∈ events) : event.intent = h.endKey r.id := by
  unfold EndEvents at hends
  split at hends
  · obtain ⟨seq,rfl⟩ := hends
    rw [List.mem_singleton.mp hevent]
    rfl
  · rw [hends] at hevent
    exact nomatch hevent

theorem emitJobEnd_effect {r' : Run} {rows' : List StepRow} (ht : Turned s s₁ r r' rows')
    (hr : ∀ events,EndEvents h r' events → EndEvents h r events)
    (hemit : s₁.emitJobEnd h r.id = .ok s')
    (hturn : ∀ events,EndEvents h r events →
      Turn h call answer r (s.steps r.id) r' rows' events []) : Effect h s call answer s' := by
  obtain ⟨events,hemitted,hends,hfresh⟩ := emitJobEnd_emitted hemit ht.self
  refine .turned ht hemitted (hturn events (hr events hends)) (fun event hevent => ?_)
    (List.forall_mem_nil _)
  have hnone := hfresh (List.ne_nil_of_mem hevent)
  rw [ht.events] at hnone
  rwa [EndEvents.key hends hevent,ht.same]

theorem failStep_effect (hcall : s.failStep id number = .ok (answer,s')) :
    Effect h s (.failStep id number) answer s' := by
  rw [Store.failStep] at hcall
  dsimp only at hcall
  split at hcall
  · exact nomatch hcall
  rename_i hchanged
  split at hcall
  · exact nomatch hcall
  rename_i hterminal
  obtain ⟨rfl,rfl⟩ := ok_pair hcall
  obtain ⟨r,hfound,hrunning⟩ := setState_count (s := s) (not_not.mp hterminal)
  obtain rfl := Table.find_key hfound
  have hturned := Turned.start hfound
  have hcount := not_not.mp hchanged
  rw [hturned.setSteps_count] at hcount
  have hmarked := (hturned.setSteps (isStep number .running) .failed).setSteps
    (fun row => row.state = .pending) .skipped
  exact .quietly (((hmarked.setState hrunning .failed).logged r.id (some number) .stepFailed).logged
    r.id none .jobFailed) (.dumped hrunning hcount)

theorem deleteJob_effect (hcall : s.deleteJob id = .ok (answer,s')) :
    Effect h s (.deleteJob id) answer s' := by
  rw [Store.deleteJob] at hcall
  split at hcall
  · exact .still hcall rfl
  rename_i r hfound
  obtain rfl := Table.find_key hfound
  have hturned := (Turned.start hfound).updateRun (q := fun _ => true)
    (fun r => {r with state := .deleted}) (fun _ => rfl) rfl
  split at hcall
  · exact .still hcall rfl
  · exact .still hcall rfl
  · exact .still hcall rfl
  · exact .still hcall rfl
  · obtain ⟨rfl,rfl⟩ := ok_pair hcall
    exact .quietly hturned (.deleted (.inl (by assumption)))
  · obtain ⟨rfl,rfl⟩ := ok_pair hcall
    exact .quietly hturned (.deleted (.inr (.inl (by assumption))))
  · obtain ⟨rfl,rfl⟩ := ok_pair hcall
    exact .quietly hturned (.deleted (.inr (.inr (.inl (by assumption)))))
  · obtain ⟨rfl,rfl⟩ := ok_pair hcall
    exact .quietly hturned (.deleted (.inr (.inr (.inr (by assumption)))))

theorem beginRelease_effect (hcall : s.beginRelease id now = .ok (answer,s')) :
    Effect h s (.beginRelease id now) answer s' := by
  rw [Store.beginRelease] at hcall
  split at hcall
  · exact .still hcall rfl
  rename_i r hfound
  obtain rfl := Table.find_key hfound
  split at hcall
  · exact .still hcall rfl
  split at hcall
  · rename_i hdue
    dsimp only at hcall
    rw [decide_eq_true (setState_one hfound hdue.1 .releasing)] at hcall
    obtain ⟨rfl,rfl⟩ := ok_pair hcall
    have hscheduled : r.schedule.isSome = true := by
      cases hschedule : r.schedule with
      | none =>
        rw [hschedule] at hdue
        exact nomatch hdue.2
      | some sdl => rfl
    exact .quietly ((Turned.start hfound).setState hdue.1 .releasing) (.begun hdue.1 hscheduled)
  · exact .still hcall rfl

theorem releaseTimed_effect (hcall : s.releaseTimed id nowStamp now = .ok (answer,s')) :
    Effect h s (.releaseTimed id nowStamp now) answer s' := by
  rw [Store.releaseTimed] at hcall
  split at hcall
  · exact .still hcall rfl
  rename_i r hfound
  obtain rfl := Table.find_key hfound
  have hturned := Turned.start hfound
  split at hcall
  · exact .still hcall rfl
  rename_i sdl hschedule
  have hscheduled : r.schedule.isSome = true := hschedule ▸ rfl
  split at hcall
  · exact .still hcall rfl
  rename_i hdue
  have hreleasing := not_not.mp (not_or.mp hdue).1
  split at hcall
  · rename_i hpassed
    obtain ⟨rfl,rfl⟩ := ok_pair hcall
    have hmarked := (hturned.setSteps (isStep 1 .pending) .failed).setSteps
      (fun row => row.state = .pending) .skipped
    have hlate : r.late nowStamp = true := by
      rw [Run.late,hschedule,Option.any_some,Bool.and_eq_true]
      refine ⟨decide_eq_true (Nat.le_of_not_lt (not_or.mp hdue).2),?_⟩
      cases hlast : sdl.last with
      | none =>
        rw [hlast] at hpassed
        exact nomatch hpassed
      | some last =>
        rw [hlast] at hpassed
        exact hpassed
    exact .quietly (((hmarked.setState hreleasing .failed).logged r.id (some 1) .stepFailed).logged
      r.id none .jobFailed) (.expired hreleasing hscheduled hlate)
  · dsimp only at hcall
    split at hcall
    · exact nomatch hcall
    rename_i hready
    obtain ⟨rfl,rfl⟩ := ok_pair hcall
    obtain ⟨hsteps,hone⟩ := not_or.mp hready
    have hcount := not_not.mp hone
    rw [hturned.setSteps_count] at hcount
    exact .quietly ((hturned.setSteps _ _).updateRun
      (fun r => {r with state := .queued,queuedAt := some now}) (fun _ => rfl)
      (decide_eq_true hreleasing))
      (.released hreleasing hscheduled (Nat.pos_of_ne_zero fun hzero => hsteps (by omega)) hcount)

theorem interruptQueued_effect (hcall : s.interruptQueued h id = .ok (answer,s')) :
    Effect h s (.interruptQueued id) answer s' := by
  rw [Store.interruptQueued] at hcall
  split at hcall
  · cases hcall
  dsimp only at hcall
  split at hcall
  · cases hcall
  rename_i hchanged
  split at hcall
  · cases hcall
  rename_i hactive
  obtain ⟨hcount,-⟩ := not_or.mp hactive
  obtain ⟨r,hfound,hstate⟩ := updateRun_count (not_not.mp hchanged)
  obtain rfl := Table.find_key hfound
  have hrunning := Bool.and_eq_true_iff.mp hstate
  have hturned := (Turned.start hfound).updateRun (q := fun r => r.state = .running && r.queuedAt.isSome)
    (fun r => {r with state := .interrupted}) (fun _ => rfl) hstate
  have hmarked := (hturned.setSteps (fun row => row.state = .running) .interrupted).setSteps
    (fun row => row.state = .ready || row.state = .pending) .skipped
  have hcounted := not_not.mp hcount
  rw [hturned.setSteps_count,(hturned.setSteps _ _).self] at hcounted
  obtain ⟨t,hemit,hdone⟩ := bind_eq_ok hcall
  obtain ⟨rfl,rfl⟩ := ok_pair hdone
  exact emitJobEnd_effect ((hmarked.logged r.id _ .stepInterrupted).logged r.id none .jobInterrupted)
    (fun _ hends => hends) hemit
    fun events hends => .interrupted (of_decide_eq_true hrunning.1) hrunning.2 hcounted hends

theorem emitBoth_effect {r' : Run} {rows' : List StepRow} {t : Store} (ht : Turned s s₁ r r' rows')
    (htail : r'.tail = r.tail) (horigin : r'.origin = r.origin) (hname : r'.jobName = r.jobName)
    (hcount : r'.jobCount = r.jobCount) (hends : ∀ events,EndEvents h r' events → EndEvents h r events)
    (hcomplete : s₁.emitCompletion h r.id = .ok t) (hemit : t.emitJobEnd h r.id = .ok s')
    (hstate : r'.state ≠ .waiting)
    (hturn : ∀ tails ends jobs,TailEvents h r tails → EndEvents h r ends →
      jobs = (r.origin.map fun origin => (⟨r.id,origin,r.jobName,r.jobCount⟩ : JobEvent)).toList →
      Turn h call answer r (s.steps r.id) r' rows' (tails ++ ends) jobs) : Effect h s call answer s' := by
  obtain ⟨tails,jobs,hcompleted,htails,hjobs,hnone,htailsFresh⟩ := emitCompletion_emitted hcomplete ht.self
  have hstays : t.runs.find r.id = some r' := by
    rw [hcompleted.runs,ht.self,Option.map_some,if_neg fun hstirs => hstate (stirs_waiting hstirs)]
  obtain ⟨ends,hended,hendEvents,hfresh⟩ := emitJobEnd_emitted hemit hstays
  have htails' : TailEvents h r tails := by
    rcases htails with rfl | ⟨origin,inst,tail,seq,ht',ho,rfl⟩
    · exact .inl rfl
    · exact .inr ⟨origin,inst,tail,seq,htail ▸ ht',horigin ▸ ho,by rw [ht.same]⟩
  rw [horigin,hname,hcount] at hjobs
  have hemitted := hcompleted.trans hended
  rw [List.append_nil] at hemitted
  refine .turned ht hemitted (hturn tails ends jobs htails' (hends ends hendEvents) hjobs)
    (fun event hevent => ?_) fun job hjob => ?_
  · rw [← ht.events]
    rcases List.mem_append.mp hevent with hevent | hevent
    · exact htailsFresh event hevent
    · rw [EndEvents.key hendEvents hevent,ht.same]
      exact hcompleted.fresh (hfresh (List.ne_nil_of_mem hevent))
  · rw [hjobs] at hjob
    cases hr : r.origin with
    | none =>
      rw [hr] at hjob
      exact nomatch hjob
    | some origin =>
      rw [hr] at hjob
      have hfind := hnone (by rw [horigin,hr]; exact nofun)
      rw [List.mem_singleton.mp hjob,← ht.jobEvents]
      exact hfind

theorem fail_effect (hcall : s.fail h id = .ok (answer,s')) : Effect h s (.fail id) answer s' := by
  rw [Store.fail] at hcall
  split at hcall
  · cases hcall
  rename_i hwhole
  dsimp only at hcall
  split at hcall
  · cases hcall
  rename_i hchanged
  obtain ⟨r,hfound,hrunning⟩ := setState_count (not_not.mp hchanged)
  obtain rfl := Table.find_key hfound
  have hturned := (Turned.start hfound).setState hrunning .failed
  have hsteps : r.stepCount = 0 := by
    rw [hfound] at hwhole
    exact Nat.eq_zero_of_not_pos hwhole
  rw [hturned.self] at hcall
  split at hcall
  · rename_i hlocal
    obtain ⟨rfl,rfl⟩ := ok_pair hcall
    exact .quietly hturned (.endedLocally .failed (.inl rfl) (.inr rfl) hrunning hsteps hlocal)
  · rename_i hqueued
    obtain ⟨t,hemit,hdone⟩ := bind_eq_ok hcall
    obtain ⟨rfl,rfl⟩ := ok_pair hdone
    exact emitJobEnd_effect ((hturned.logged r.id (some 1) .stepFailed).logged r.id none .jobFailed)
      (fun _ hends => hends) hemit fun events hends =>
        .failedWhole (.inl rfl) hrunning hsteps (Option.isSome_iff_ne_none.mpr hqueued) hends

theorem finish_effect (hcall : s.finish h id result = .ok (answer,s')) :
    Effect h s (.finish id result) answer s' := by
  rw [Store.finish] at hcall
  split at hcall
  · exact nomatch hcall
  rename_i r hfound
  obtain rfl := Table.find_key hfound
  split at hcall
  · exact nomatch hcall
  rename_i hstate
  have hrunning := not_not.mp hstate
  split at hcall
  · exact nomatch hcall
  rename_i hwhole
  have hsteps := Nat.eq_zero_of_not_pos hwhole
  split at hcall
  · exact nomatch hcall
  cases hsuccess : result.success with
  | true =>
    simp only [hsuccess,↓reduceIte] at hcall
    split at hcall
    · exact nomatch hcall
    have hturned := (Turned.start hfound).setState hrunning .completed
    split at hcall
    · rename_i hlocal
      obtain ⟨rfl,rfl⟩ := ok_pair hcall
      exact .quietly hturned (.endedLocally .completed (.inr ⟨result,rfl⟩) (.inl rfl) hrunning hsteps hlocal)
    · rename_i hqueued
      have hsome := Option.isSome_iff_ne_none.mpr hqueued
      obtain ⟨t,hcomplete,hrest⟩ := bind_eq_ok hcall
      obtain ⟨u,hemit,hdone⟩ := bind_eq_ok hrest
      obtain ⟨rfl,rfl⟩ := ok_pair hdone
      exact emitBoth_effect ((hturned.logged r.id (some 1) .stepCompleted).logged r.id none .jobCompleted)
        rfl rfl rfl rfl (fun _ hends => hends) hcomplete hemit nofun
        fun tails ends jobs htails hends hjobs =>
          .completedWhole hrunning hsteps hsome htails hends hjobs
  | false =>
    simp only [hsuccess,↓reduceIte,Bool.false_eq_true] at hcall
    split at hcall
    · exact nomatch hcall
    have hturned := (Turned.start hfound).setState hrunning .failed
    split at hcall
    · rename_i hlocal
      obtain ⟨rfl,rfl⟩ := ok_pair hcall
      exact .quietly hturned (.endedLocally .failed (.inr ⟨result,rfl⟩) (.inr rfl) hrunning hsteps hlocal)
    · rename_i hqueued
      have hsome := Option.isSome_iff_ne_none.mpr hqueued
      obtain ⟨u,hemit,hdone⟩ := bind_eq_ok (m := Store.emitJobEnd h _ r.id) hcall
      obtain ⟨rfl,rfl⟩ := ok_pair hdone
      exact emitJobEnd_effect ((hturned.logged r.id (some 1) .stepFailed).logged r.id none .jobFailed)
        (fun _ hends => hends) hemit fun events hends =>
          .failedWhole (.inr ⟨result,rfl⟩) hrunning hsteps hsome hends

theorem mark_later (p : StepRow → Bool) (new : StepState) (rows : List StepRow) :
    (((mark p new rows).filter fun row => number < row.number).map StepRow.number) =
      (rows.filter fun row => number < row.number).map StepRow.number := by
  induction rows with
  | nil => rfl
  | cons row rows ih =>
    have hcons : mark p new (row :: rows) =
        (if p row then {row with state := new} else row) :: mark p new rows := rfl
    have hnumber : (if p row then {row with state := new} else row).number = row.number := by
      split
      · rfl
      · rfl
    rw [hcons,List.filter_cons,List.filter_cons,hnumber]
    split
    · rw [List.map_cons,List.map_cons,hnumber,ih]
    · exact ih

theorem nextStep_marked (p : StepRow → Bool) (new : StepState) :
    (s.setSteps id p new).1.nextStep id number =
      (((s.steps id).filter fun row => number < row.number).map StepRow.number).head? := by
  rw [Store.nextStep,setSteps_self]
  exact congrArg List.head? (mark_later p new (s.steps id))

theorem finishStep_effect (hcall : s.finishStep h id number result = .ok (answer,s')) :
    Effect h s (.finishStep id number result) answer s' := by
  rw [Store.finishStep] at hcall
  split at hcall
  · exact nomatch hcall
  cases hsuccess : result.success with
  | true =>
    simp only [hsuccess,↓reduceIte] at hcall
    split at hcall
    · exact nomatch hcall
    rename_i hchanged
    have hcount : (s.steps id).countP (isStep number .running) = 1 := not_not.mp hchanged
    rw [nextStep_marked] at hcall
    cases hnext : (((s.steps id).filter fun row => number < row.number).map StepRow.number).head? with
    | some next =>
      rw [hnext] at hcall
      dsimp only at hcall
      split at hcall
      · exact nomatch hcall
      rename_i hmoved
      obtain ⟨rfl,rfl⟩ := ok_pair hcall
      obtain ⟨r,hfound,hrunning⟩ := setState_count (s := s) (not_not.mp (not_or.mp hmoved).2)
      obtain rfl := Table.find_key hfound
      have hmarked := ((Turned.start hfound).setSteps (isStep number .running) .completed).setSteps
        (isStep next .pending) .ready
      exact .quietly ((hmarked.setState hrunning .queued).logged r.id (some number) .stepCompleted)
        (.advanced next hrunning hcount hnext)
    | none =>
      rw [hnext] at hcall
      simp only [↓reduceIte] at hcall
      split at hcall
      · exact nomatch hcall
      rename_i hterminal
      obtain ⟨t,hcomplete,hrest⟩ := bind_eq_ok hcall
      obtain ⟨u,hemit,hdone⟩ := bind_eq_ok hrest
      obtain ⟨rfl,rfl⟩ := ok_pair hdone
      obtain ⟨r,hfound,hrunning⟩ := setState_count (s := s) (not_not.mp hterminal)
      obtain rfl := Table.find_key hfound
      have hturned := ((Turned.start hfound).setSteps (isStep number .running) .completed).setState
        hrunning .completed
      exact emitBoth_effect ((hturned.logged r.id (some number) .stepCompleted).logged r.id none
        .jobCompleted) rfl rfl rfl rfl (fun _ hends => hends) hcomplete hemit nofun
        fun tails ends jobs htails hends hjobs => .completed hrunning hcount hnext htails hends hjobs
  | false =>
    simp only [hsuccess,↓reduceIte,Bool.false_eq_true] at hcall
    split at hcall
    · exact nomatch hcall
    rename_i hchanged
    have hcount : (s.steps id).countP (isStep number .running) = 1 := not_not.mp hchanged
    split at hcall
    · exact nomatch hcall
    rename_i hterminal
    obtain ⟨u,hemit,hdone⟩ := bind_eq_ok (m := Store.emitJobEnd h _ id) hcall
    obtain ⟨rfl,rfl⟩ := ok_pair hdone
    obtain ⟨r,hfound,hrunning⟩ := setState_count (s := s) (not_not.mp hterminal)
    obtain rfl := Table.find_key hfound
    have hturned := (((Turned.start hfound).setSteps (isStep number .running) .failed).setSteps
      (fun row => row.state = .pending) .skipped).setState hrunning .failed
    exact emitJobEnd_effect ((hturned.logged r.id (some number) .stepFailed).logged r.id none .jobFailed)
      (fun _ hends => hends) hemit fun events hends => .failed hrunning hcount hends

theorem importNamedEvent_effect {event : EventIntent}
    (hcall : s.importNamedEvent h event = .ok (answer,s')) :
    Effect h s (.importNamedEvent event) answer s' := by
  rw [Store.importNamedEvent] at hcall
  split at hcall
  · cases hcall
  cases hold : s.events.find (h.lower event.intentId) with
  | some old =>
    have hseq : (event.seq.or ((some old).map NamedEvent.seq)).isSome = true := by
      rw [Option.isSome_or,Option.map_some,Option.isSome_some,Bool.or_true]
    obtain ⟨seq,hseq⟩ := Option.isSome_iff_exists.mp hseq
    simp only [hold,hseq] at hcall
    split at hcall
    · cases hcall
    · exact .still hcall rfl
  | none =>
    simp only [hold,Option.map_none,Option.or_none] at hcall
    obtain ⟨t,hemit,hdone⟩ := bind_eq_ok hcall
    obtain ⟨rfl,rfl⟩ := ok_pair hdone
    cases hseq : event.seq with
    | some seq =>
      rw [hseq] at hemit
      exact .signalled (emitNamed_emitted hemit) hold
    | none =>
      rw [hseq] at hemit
      exact .signalled (clock_emitted (emitNamed_emitted hemit)) hold

theorem Created.logged (hcreated : Created s s' r rows) (id : Id) (step : Option Nat) (code : LogCode) :
    Created s (s'.appendJobLog id step code) r rows :=
  ⟨hcreated.fresh,hcreated.runs,hcreated.steps,fun l hl => appendJobLog_numbered (hcreated.log l hl),
    hcreated.events,hcreated.jobEvents⟩

theorem insertRun_created (hinsert : s.insertRun r = .ok s') : Created s s' r (s.steps r.id) := by
  rw [Store.insertRun] at hinsert
  split at hinsert
  · exact nomatch hinsert
  rename_i runs hruns
  obtain rfl := Except.ok.inj hinsert
  exact ⟨(Table.insert_some hruns).1,Table.find_insert hruns,(Function.update_eq_self _ _).symm,
    fun _ hl => hl,rfl,rfl⟩

theorem insertImport_created {i : Import} (hcreated : Created s s₁ r rows)
    (himports : s₁.imports = s.imports) (hinsert : s₁.insertImport i = .ok s') :
    Created s s' r rows ∧ s.imports.insert i = some s'.imports := by
  rw [Store.insertImport] at hinsert
  split at hinsert
  · exact nomatch hinsert
  rename_i imports himport
  obtain rfl := Except.ok.inj hinsert
  rw [himports] at himport
  exact ⟨⟨hcreated.fresh,hcreated.runs,hcreated.steps,hcreated.log,hcreated.events,
    hcreated.jobEvents⟩,himport⟩

theorem insertSteps_created {added : List StepRow} (hcreated : Created s s₁ r rows)
    (hinsert : s₁.insertSteps r.id added = .ok s') :
    Created s s' r (rows ++ added) ∧ s'.imports = s₁.imports := by
  rw [Store.insertSteps] at hinsert
  split at hinsert
  · exact nomatch hinsert
  obtain rfl := Except.ok.inj hinsert
  refine ⟨⟨hcreated.fresh,hcreated.runs,?_,hcreated.log,hcreated.events,hcreated.jobEvents⟩,rfl⟩
  change Function.update s₁.steps r.id _ = _
  rw [hcreated.steps,Function.update_self,Function.update_idem]

theorem importIntent_effect {intent : Intent} (hcall : s.importIntent h intent now = .ok (answer,s')) :
    Effect h s (.importIntent intent now) answer s' := by
  rw [Store.importIntent] at hcall
  split at hcall
  · exact nomatch hcall
  rename_i c hcheck
  split at hcall
  · split at hcall
    · exact .still hcall rfl
    · exact nomatch hcall
  split at hcall
  · exact nomatch hcall
  rename_i hclear
  obtain ⟨t,hrun,hrest⟩ := bind_eq_ok hcall
  obtain ⟨u,himport,hsteps⟩ := bind_eq_ok hrest
  have hcreated := insertRun_created hrun
  have himports : t.imports = s.imports := by
    rw [Store.insertRun] at hrun
    split at hrun
    · exact nomatch hrun
    · rw [← Except.ok.inj hrun]
  obtain ⟨hcreated,hledger⟩ := insertImport_created hcreated himports himport
  have hunambiguous : ∀ after,c.after = some after → after.intentId = none →
      (s.completions c.origin after).length ≤ 1 := by
    intro after hafter hintent
    rw [hafter] at hclear
    by_contra hmany
    exact hclear (decide_eq_true ⟨hintent,by omega⟩)
  cases hc : c.steps with
  | none =>
    rw [hc] at hsteps
    obtain ⟨rfl,rfl⟩ := ok_pair hsteps
    refine .imported hcheck ?_ hledger hunambiguous
    rw [hc,Option.map_none,Option.getD_none,List.append_nil]
    exact hcreated.logged c.id none .imported
  | some steps =>
    rw [hc] at hsteps
    obtain ⟨v,hinserted,hdone⟩ := bind_eq_ok hsteps
    obtain ⟨rfl,rfl⟩ := ok_pair hdone
    obtain ⟨hcreated,hsame⟩ := insertSteps_created hcreated hinserted
    rw [← hsame] at hledger
    refine .imported hcheck ?_ hledger hunambiguous
    rw [hc]
    exact hcreated.logged c.id none .imported

theorem insertRun_effect (hcall : (do
      let s ← s.insertRun r
      .ok (Answer.done,s)) = Except.ok (answer,s')) (horigin : r.origin = none) (hsteps : r.stepCount = 0)
    (hstate : r.state = .running ∧ r.queuedAt = none ∨ r.state = .queued) (hafter : r.after = none)
    (hnamed : r.named = none) (hschedule : r.schedule = none) (hcreates : call.creates h = some r.id) :
    Effect h s call answer s' := by
  obtain ⟨t,hrun,hdone⟩ := bind_eq_ok hcall
  obtain ⟨rfl,rfl⟩ := ok_pair hdone
  refine .added horigin hsteps hstate hafter hnamed hschedule (insertRun_created hrun) ?_ rfl hcreates
  rw [Store.insertRun] at hrun
  split at hrun
  · exact nomatch hrun
  · rw [← Except.ok.inj hrun]

theorem perform_effect (hcall : s.perform h call = .ok (answer,s')) : Effect h s call answer s' := by
  cases call with
  | start id program generation =>
    rw [Store.perform,Store.start] at hcall
    split at hcall
    · exact nomatch hcall
    · exact insertRun_effect hcall rfl rfl (.inl ⟨rfl,rfl⟩) rfl rfl rfl rfl
  | enqueue id program generation now =>
    rw [Store.perform,Store.enqueue] at hcall
    split at hcall
    · exact nomatch hcall
    · exact insertRun_effect hcall rfl rfl (.inr rfl) rfl rfl rfl rfl
  | importIntent intent now => exact importIntent_effect hcall
  | importNamedEvent event => exact importNamedEvent_effect hcall
  | reserveSignalSeq =>
    obtain ⟨rfl,rfl⟩ := ok_pair hcall
    exact .unchanged ⟨rfl,rfl,rfl,rfl,rfl,rfl⟩ (.inr rfl)
  | claimNext scope runId => exact claimNext_effect hcall
  | finish id result => exact finish_effect hcall
  | fail id => exact fail_effect hcall
  | finishStep id number result => exact finishStep_effect hcall
  | failStep id number => exact failStep_effect hcall
  | interruptQueued id => exact interruptQueued_effect hcall
  | beginRelease id now => exact beginRelease_effect hcall
  | releaseTimed id nowStamp now => exact releaseTimed_effect hcall
  | deleteJob id => exact deleteJob_effect hcall

theorem step_effect (hstep : Step h s call answer s') : Effect h s call answer s' := by
  cases hstep with
  | performed hcall => exact perform_effect hcall
  | raised call fault => exact .unchanged (.refl s) (.inl rfl)

theorem effect_imported {intent : Intent} {c : Checked}
    (heffect : Effect h s (.importIntent intent now) .imported s') (hcheck : check h intent = some c) :
    Created s s' (Store.runOf c now (s.startsNow c))
      (s.steps c.id ++ (c.steps.map (Store.stepRows (s.startsNow c))).getD []) ∧
    s.imports.insert ⟨c.id,h.digest c.payload,c.id⟩ = some s'.imports := by
  cases heffect with
  | unchanged hsame hquiet => exact nomatch hquiet
  | turned ht hemitted hturn hfresh hnew => exact nomatch hturn
  | imported hchecked hcreated hledger hclear =>
    obtain rfl := Option.some.inj (hcheck.symm.trans hchecked)
    exact ⟨hcreated,hledger⟩
  | added horigin hsteps hstate hafter hnamed hschedule hcreated himports hanswer hcreates => exact nomatch hanswer

theorem trace_step {events : List Event} {event : Event} (ht : Trace h events s)
    (hevent : event ∈ events) : ∃ first rest,events = first ++ event :: rest ∧
      Trace h first event.before ∧ Step h event.before event.call event.answer event.after := by
  induction ht with
  | empty => exact nomatch hevent
  | @step before s s' call answer ht hstep ih =>
    rcases List.mem_append.mp hevent with hevent | hevent
    · obtain ⟨first,rest,rfl,hfirst,hcall⟩ := ih hevent
      exact ⟨first,rest ++ [⟨call,answer,s,s'⟩],by rw [List.append_assoc]; rfl,hfirst,hcall⟩
    · obtain rfl := List.mem_singleton.mp hevent
      exact ⟨before,[],rfl,ht,hstep⟩

end OpenSteamgate.Jobs
