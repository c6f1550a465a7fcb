import OpenSteamgate.Jobs.Changes

namespace OpenSteamgate.Jobs

variable {h : Platform} {s s' : Store} {id : Id} {r r' : Run} {rows rows' : List StepRow}
  {call : Call} {answer : Answer} {events : List NamedEvent} {jobs : List JobEvent}
  {intent : Intent} {c : Checked} {now : Stamp} {before : Option Run}

section checked

theorem check_conditions (hcheck : check h intent = some c) :
    c.after = intent.afterEvent ∧ c.named = intent.namedEvent ∧ c.schedule = intent.schedule ∧
      (intent.namedEvent.map (namedValid intent)).getD true = true ∧
      (intent.afterEvent.map (afterValid h intent)).getD true = true ∧ timedValid intent = true := by
  rw [check] at hcheck
  obtain ⟨steps,-,hrest⟩ := Option.bind_eq_some_iff.mp hcheck
  split at hrest
  · rename_i hall
    obtain rfl := Option.some.inj hrest
    simp only [Bool.and_eq_true] at hall
    obtain ⟨⟨⟨⟨-,hnamed⟩,hafter⟩,-⟩,htimed⟩ := hall
    exact ⟨rfl,rfl,rfl,hnamed,hafter,htimed⟩
  · cases hrest

theorem check_timed (hcheck : check h intent = some c) (hschedule : c.schedule.isSome = true) :
    c.after = none ∧ c.named = none := by
  obtain ⟨ha,hn,hs,-,-,htimed⟩ := check_conditions hcheck
  rw [hs] at hschedule
  obtain ⟨schedule,hschedule⟩ := Option.isSome_iff_exists.mp hschedule
  rw [timedValid,hschedule] at htimed
  simp only [Bool.and_eq_true] at htimed
  obtain ⟨⟨⟨⟨-,hafter⟩,hnamed⟩,-⟩,-⟩ := htimed
  rw [ha,hn]
  exact ⟨Option.isNone_iff_eq_none.mp hafter,Option.isNone_iff_eq_none.mp hnamed⟩

theorem check_single (hcheck : check h intent = some c) (hnamed : c.named.isSome = true) :
    c.after = none := by
  obtain ⟨ha,hn,-,hvalid,-,-⟩ := check_conditions hcheck
  rw [hn] at hnamed
  obtain ⟨named,hnamed⟩ := Option.isSome_iff_exists.mp hnamed
  rw [hnamed,Option.map_some,Option.getD_some,namedValid] at hvalid
  simp only [Bool.and_eq_true] at hvalid
  rw [ha]
  exact Option.isNone_iff_eq_none.mp hvalid.1.1.1.1.1

theorem check_stepped (hcheck : check h intent = some c)
    (hwaits : c.named.isSome = true ∨ c.after.isSome = true) : 0 < (c.steps.map List.length).getD 0 := by
  have hgiven : intent.steps.isSome = true := by
    obtain ⟨ha,hn,-,hnamed,hafter,-⟩ := check_conditions hcheck
    rw [ha,hn] at hwaits
    rcases hwaits with hsome | hsome
    · obtain ⟨named,hsome⟩ := Option.isSome_iff_exists.mp hsome
      rw [hsome,Option.map_some,Option.getD_some,namedValid] at hnamed
      simp only [Bool.and_eq_true] at hnamed
      exact hnamed.1.1.1.1.2
    · obtain ⟨after,hsome⟩ := Option.isSome_iff_exists.mp hsome
      rw [hsome,Option.map_some,Option.getD_some,afterValid] at hafter
      simp only [Bool.and_eq_true] at hafter
      exact hafter.1.1.1.1.1.1.1
  rw [check] at hcheck
  obtain ⟨steps,hsteps,hrest⟩ := Option.bind_eq_some_iff.mp hcheck
  obtain ⟨given,hgiven⟩ := Option.isSome_iff_exists.mp hgiven
  rw [orderedSteps,hgiven] at hsteps
  obtain ⟨steps,-,rfl⟩ := Option.map_eq_some_iff.mp hsteps
  split at hrest
  · rename_i hall
    obtain rfl := Option.some.inj hrest
    simp only [Bool.and_eq_true,stepsValid,decide_eq_true_eq] at hall
    exact hall.1.1.1.1.1.1.2.1.1
  · cases hrest

end checked

structure Wellmade (r : Run) : Prop where
  queued : r.origin.isSome = true → r.queuedAt.isSome = true
  timed : r.schedule.isSome = true → r.after = none ∧ r.named = none
  single : r.named.isSome = true → r.after = none
  stepped : r.named.isSome = true ∨ r.after.isSome = true → 0 < r.stepCount
  releasing : r.state = .releasing → r.schedule.isSome = true

theorem Wellmade.kept (hr : Wellmade r) (hkept : Kept r r') (hqueued : r'.queuedAt = r.queuedAt ∨
    r'.queuedAt.isSome = true) (hreleasing : r'.state = .releasing → r.schedule.isSome = true) :
    Wellmade r' := by
  rw [Kept] at hkept
  refine ⟨fun horigin => ?_,fun hschedule => ?_,fun hnamed => ?_,fun hwaits => ?_,fun hstate => ?_⟩
  · rcases hqueued with hsame | hsome
    · rw [hkept] at horigin
      rw [hsame]
      exact hr.queued horigin
    · exact hsome
  · rw [hkept] at hschedule ⊢
    exact hr.timed hschedule
  · rw [hkept] at hnamed ⊢
    exact hr.single hnamed
  · rw [hkept] at hwaits ⊢
    exact hr.stepped hwaits
  · rw [hkept]
    exact hreleasing hstate

theorem turn_queuedAt (hturn : Turn h call answer r rows r' rows' events jobs) :
    r'.queuedAt = r.queuedAt ∨ r'.queuedAt.isSome = true := by
  cases hturn with
  | released => exact .inr rfl
  | _ => exact .inl rfl

theorem turn_releasing (hturn : Turn h call answer r rows r' rows' events jobs)
    (hstate : r'.state = .releasing) : r.schedule.isSome = true := by
  cases hturn with
  | begun hwaiting hscheduled => exact hscheduled
  | endedLocally state hcall hended =>
    rcases hended with rfl | rfl <;> exact nomatch hstate
  | _ => exact nomatch hstate

theorem change_wellmade (hchange : Change h s call answer events jobs before rows r' rows')
    (hbefore : ∀ r,before = some r → Wellmade r) : Wellmade r' := by
  cases hchange with
  | same => exact hbefore _ rfl
  | woken => exact (hbefore _ rfl).kept rfl (.inl rfl) (by rintro ⟨⟩)
  | turned hfound hturn =>
    exact (hbefore _ rfl).kept (turn_kept hturn) (turn_queuedAt hturn) (turn_releasing hturn)
  | @imported intent now c _ hcall hcheck hclear =>
    refine ⟨fun _ => rfl,fun hschedule => ?_,fun hnamed => ?_,fun hwaits => ?_,fun hstate => ?_⟩
    · obtain ⟨hafter,hnamed⟩ := check_timed hcheck hschedule
      rw [Store.runOf,hafter,hnamed]
      exact ⟨rfl,rfl⟩
    · have hsome : c.named.isSome = true := by
        rw [Store.runOf] at hnamed
        rwa [Option.isSome_map] at hnamed
      rw [Store.runOf,check_single hcheck hsome]
      rfl
    · rw [Store.runOf,Option.isSome_map,Option.isSome_map] at hwaits
      exact check_stepped hcheck hwaits
    · rw [Store.runOf] at hstate
      cases hstarts : s.startsNow c with
      | true =>
        rw [hstarts] at hstate
        cases hstate
      | false =>
        rw [hstarts] at hstate
        cases hstate
  | added horigin hsteps hstate hafter hnamed hschedule =>
    rw [← Option.not_isSome_iff_eq_none] at horigin
    refine ⟨fun hsome => absurd hsome horigin,fun _ => ⟨hafter,hnamed⟩,fun _ => hafter,
      fun hwaits => ?_,fun hreleasing => ?_⟩
    · rw [hafter,hnamed] at hwaits
      rcases hwaits with h | h <;> cases h
    · rw [hreleasing] at hstate
      rcases hstate with h | h
      · cases h.1
      · cases h

def heeds (events : List NamedEvent) (jobs : List JobEvent) (r : Run) : Bool :=
  events.any r.awaits || jobs.any r.follows

theorem heeds_append {later : List NamedEvent} {ended : List JobEvent} :
    heeds (events ++ later) (jobs ++ ended) r = (heeds events jobs r || heeds later ended r) := by
  rw [heeds,heeds,heeds,List.any_append,List.any_append,Bool.or_assoc,Bool.or_assoc,Bool.or_left_comm
    (later.any _)]

theorem Kept.heeds (hkept : Kept r r') : heeds events jobs r' = heeds events jobs r := by
  rw [hkept]
  rfl

theorem heeds_free (hafter : r.after = none) (hnamed : r.named = none) : heeds events jobs r = false := by
  rw [heeds,Bool.or_eq_false_iff,List.any_eq_false,List.any_eq_false]
  refine ⟨fun row _ => ?_,fun row _ => ?_⟩
  · rw [Run.awaits,hnamed,Bool.and_false]
    exact Bool.false_ne_true
  · rw [Run.follows,hafter,Bool.and_false]
    exact Bool.false_ne_true

theorem heeds_named (hafter : r.after = none) : heeds events jobs r = events.any r.awaits := by
  have hjobs : jobs.any r.follows = false := by
    rw [List.any_eq_false]
    intro row _
    rw [Run.follows,hafter,Bool.and_false]
    exact Bool.false_ne_true
  rw [heeds,hjobs,Bool.or_false]

theorem heeds_after (hnamed : r.named = none) : heeds events jobs r = jobs.any r.follows := by
  have hevents : events.any r.awaits = false := by
    rw [List.any_eq_false]
    intro row _
    rw [Run.awaits,hnamed,Bool.and_false]
    exact Bool.false_ne_true
  rw [heeds,hevents,Bool.false_or]

section lookback

theorem runOf_awaits {named : Awaited} (hnamed : c.named = some named) (released : Bool) (row : NamedEvent) :
    (Store.runOf c now released).awaits row =
      (row.origin = c.origin && row.inst = named.sourceInstance && row.id = named.id &&
        named.seq < row.seq && (named.param = [] || row.param = named.param)) := by
  rw [Run.awaits,Store.runOf,hnamed]
  simp only [Option.map_some,Option.some_or,Option.some.injEq,Bool.and_assoc,eq_comm]

theorem runOf_follows {after : AfterEvent} (hafter : c.after = some after) (released : Bool) :
    (Store.runOf c now released).follows = Store.completes c.origin after := by
  funext row
  rw [Run.follows,Store.runOf,hafter,Store.completes]
  simp only [Option.map_some,Option.some.injEq,Bool.and_assoc,eq_comm]

theorem completions_one {origin : Origin} {after : AfterEvent}
    (hclear : after.intentId = none → (s.completions origin after).length ≤ 1) :
    (s.completions origin after).length ≤ 1 := by
  cases hintent : after.intentId with
  | none => exact hclear hintent
  | some pred =>
    have hrun : ∀ row ∈ s.completions origin after,row.run = pred := by
      intro row hrow
      have hmatch := (List.mem_filter.mp (List.mem_of_mem_take hrow)).2
      rw [Store.completes,hintent] at hmatch
      simp only [Bool.and_eq_true,Bool.or_eq_true,decide_eq_true_eq] at hmatch
      rcases hmatch.2 with hnone | hsame
      · exact nomatch hnone
      · exact (Option.some.inj hsame).symm
    have hnodup : ((s.completions origin after).map JobEvent.run).Nodup :=
      s.jobEvents.nodup.sublist (((List.take_sublist ..).trans List.filter_sublist).map JobEvent.run)
    match hrows : s.completions origin after with
    | [] => exact Nat.zero_le 1
    | [row] => exact Nat.le_refl 1
    | first :: second :: rest =>
      rw [hrows] at hrun hnodup
      rw [List.map_cons,List.map_cons,hrun first (by simp),hrun second (by simp),List.nodup_cons] at hnodup
      exact absurd List.mem_cons_self hnodup.1

theorem completions_any {after : AfterEvent} (hafter : c.after = some after)
    (hclear : after.intentId = none → (s.completions c.origin after).length ≤ 1) (released : Bool) :
    decide ((s.completions c.origin after).length = 1) =
      s.jobEvents.rows.any (Store.runOf c now released).follows := by
  have hone := completions_one hclear
  rw [Store.completions] at hone ⊢
  rw [runOf_follows hafter released]
  rw [Bool.eq_iff_iff,decide_eq_true_eq,List.any_eq_true]
  constructor
  · intro hlength
    obtain ⟨row,hrow⟩ := List.length_eq_one_iff.mp hlength
    have hmem := List.mem_of_mem_take (hrow ▸ List.mem_singleton_self row)
    exact ⟨row,List.mem_filter.mp hmem⟩
  · rintro ⟨row,hrow,hmatch⟩
    have hmem := List.mem_filter.mpr ⟨hrow,hmatch⟩
    rw [List.length_take] at hone ⊢
    have hpos := List.length_pos_of_mem hmem
    omega

theorem startsNow_heeds (hcheck : check h intent = some c)
    (hclear : ∀ after,c.after = some after → after.intentId = none →
      (s.completions c.origin after).length ≤ 1) (released : Bool)
    (hwaits : c.named.isSome = true ∨ c.after.isSome = true) :
    s.startsNow c = heeds s.events.rows s.jobEvents.rows (Store.runOf c now released) := by
  have hschedule : c.schedule = none := by
    by_contra hsome
    obtain ⟨hafter,hnamed⟩ := check_timed hcheck (Option.isSome_iff_ne_none.mpr hsome)
    rw [hafter,hnamed] at hwaits
    rcases hwaits with h | h
    · exact nomatch h
    · exact nomatch h
  rw [Store.startsNow,hschedule]
  cases hnamed : c.named with
  | some named =>
    have hafter : (Store.runOf c now released).after = none := by
      rw [Store.runOf,check_single hcheck (hnamed ▸ rfl)]
      rfl
    rw [heeds_named hafter,funext (runOf_awaits hnamed released)]
    rfl
  | none =>
    have hfree : (Store.runOf c now released).named = none := by
      rw [Store.runOf,hnamed]
      rfl
    cases hafter : c.after with
    | none =>
      rw [hnamed,hafter] at hwaits
      rcases hwaits with h | h
      · exact nomatch h
      · exact nomatch h
    | some after =>
      rw [heeds_after hfree]
      exact completions_any hafter (hclear after hafter) released

end lookback

structure Settled (s : Store) : Prop where
  made : ∀ id r,s.runs.find id = some r → Wellmade r
  waiting : ∀ id r,s.runs.find id = some r → r.state = .waiting →
    heeds s.events.rows s.jobEvents.rows r = false
  released : ∀ id r,s.runs.find id = some r → r.state ≠ .waiting → r.state ≠ .deleted →
    r.named.isSome = true ∨ r.after.isSome = true → heeds s.events.rows s.jobEvents.rows r = true

theorem turn_enters (hturn : Turn h call answer r rows r' rows' events jobs) : r.state ≠ .deleted ∧
    (r.state = .waiting → r'.state = .deleted ∨ r.schedule.isSome = true) := by
  cases hturn with
  | begun hwaiting hscheduled => exact ⟨hwaiting ▸ nofun,fun _ => .inr hscheduled⟩
  | deleted hstate =>
    refine ⟨fun hdeleted => ?_,fun _ => .inl rfl⟩
    rw [hdeleted] at hstate
    rcases hstate with h | h | h | h <;> exact nomatch h
  | claimed _ hstate | claimedWhole hstate | advanced _ hstate | completed hstate | failed hstate
    | dumped hstate | completedWhole hstate | failedWhole _ hstate | endedLocally _ _ _ hstate
    | interrupted hstate | released hstate | expired hstate =>
      exact ⟨hstate ▸ nofun,fun hwaiting => nomatch hstate ▸ hwaiting⟩

theorem change_waiting (hs : Settled s) (hchange : Change h s call answer events jobs before rows r' rows')
    (hbefore : ∀ r,before = some r → s.runs.find r.id = some r) (hwaiting : r'.state = .waiting) :
    heeds (s.events.rows ++ events) (s.jobEvents.rows ++ jobs) r' = false := by
  rw [heeds_append,Bool.or_eq_false_iff]
  cases hchange with
  | same hquiet =>
    rw [stirs,hwaiting,decide_eq_true rfl,Bool.true_and] at hquiet
    exact ⟨hs.waiting _ _ (hbefore _ rfl) hwaiting,hquiet⟩
  | woken => cases hwaiting
  | turned hfound hturn => exact absurd hwaiting (turn_leaves hturn)
  | @imported intent now c _ hcall hcheck hclear =>
    refine ⟨?_,rfl⟩
    have hnow : s.startsNow c = false := by
      rw [Store.runOf] at hwaiting
      cases hstarts : s.startsNow c with
      | false => rfl
      | true =>
        rw [hstarts] at hwaiting
        cases hwaiting
    by_cases hwaits : c.named.isSome = true ∨ c.after.isSome = true
    · rw [← startsNow_heeds hcheck hclear _ hwaits]
      exact hnow
    · rw [not_or,Option.not_isSome_iff_eq_none,Option.not_isSome_iff_eq_none] at hwaits
      refine heeds_free ?_ ?_
      · rw [Store.runOf,hwaits.2]
        rfl
      · rw [Store.runOf,hwaits.1]
        rfl
  | added horigin hsteps hstate hafter hnamed hschedule => exact ⟨heeds_free hafter hnamed,rfl⟩

theorem change_released (hs : Settled s) (hchange : Change h s call answer events jobs before rows r' rows')
    (hbefore : ∀ r,before = some r → s.runs.find r.id = some r) (hwaiting : r'.state ≠ .waiting)
    (hdeleted : r'.state ≠ .deleted) (hwaits : r'.named.isSome = true ∨ r'.after.isSome = true) :
    heeds (s.events.rows ++ events) (s.jobEvents.rows ++ jobs) r' = true := by
  rw [heeds_append,Bool.or_eq_true]
  cases hchange with
  | same hquiet => exact .inl (hs.released _ _ (hbefore _ rfl) hwaiting hdeleted hwaits)
  | woken hstirs =>
    rw [stirs,Bool.and_eq_true] at hstirs
    exact .inr hstirs.2
  | @turned _ _ r _ _ hfound hturn =>
    have hkept := turn_kept hturn
    obtain ⟨halive,henters⟩ := turn_enters hturn
    rw [hkept.heeds]
    rw [hkept] at hwaits
    refine .inl (hs.released _ _ hfound (fun hstate => ?_) halive hwaits)
    rcases henters hstate with hgone | htimed
    · exact hdeleted hgone
    · obtain ⟨hafter,hnamed⟩ := (hs.made _ _ hfound).timed htimed
      change r.named.isSome = true ∨ r.after.isSome = true at hwaits
      rw [hafter,hnamed] at hwaits
      rcases hwaits with h | h <;> cases h
  | @imported intent now c _ hcall hcheck hclear =>
    have hnow : s.startsNow c = true := by
      rw [Store.runOf] at hwaiting
      cases hstarts : s.startsNow c with
      | true => rfl
      | false =>
        rw [hstarts] at hwaiting
        exact absurd rfl hwaiting
    rw [Store.runOf,Option.isSome_map,Option.isSome_map] at hwaits
    rw [← startsNow_heeds hcheck hclear _ hwaits]
    exact .inl hnow
  | added horigin hsteps hstate hafter hnamed hschedule =>
    rw [hafter,hnamed] at hwaits
    rcases hwaits with h | h <;> cases h

theorem effect_settled (hs : Settled s) (heffect : Effect h s call answer s') : Settled s' := by
  obtain ⟨events,jobs,hevents,hjobs,-,hchange⟩ := effect_change heffect
  have hbefore : ∀ id r,s.runs.find id = some r → s.runs.find r.id = some r := by
    intro id r hr
    rwa [Table.find_key hr]
  refine ⟨fun id r hr => ?_,fun id r hr hwaiting => ?_,fun id r hr hwaiting hdeleted hwaits => ?_⟩
  · exact change_wellmade (hchange id r hr) fun _ hold => hs.made id _ hold
  · rw [hevents,hjobs]
    exact change_waiting hs (hchange id r hr) (hbefore id) hwaiting
  · rw [hevents,hjobs]
    exact change_released hs (hchange id r hr) (hbefore id) hwaiting hdeleted hwaits

theorem trace_settled {events : List Event} (ht : Trace h events s) : Settled s := by
  induction ht with
  | empty =>
    refine ⟨fun id r hr => ?_,fun id r hr => ?_,fun id r hr => ?_⟩ <;>
      (rw [empty_find] at hr; exact nomatch hr)
  | step _ hstep ih => exact effect_settled ih (step_effect hstep)

end OpenSteamgate.Jobs
