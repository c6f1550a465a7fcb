import OpenSteamgate.Jobs.Waits

namespace OpenSteamgate.Jobs

variable {h : Platform} {s s' : Store} {id : Id} {r r' : Run} {rows rows' : List StepRow}
  {call : Call} {answer : Answer} {events : List NamedEvent} {jobs : List JobEvent}
  {before : Option Run} {origin : Origin} {job : JobEvent}

def Run.completion (r : Run) (origin : Origin) : JobEvent := ⟨r.id,origin,r.jobName,r.jobCount⟩

structure Recorded (s : Store) : Prop where
  rows : ∀ job ∈ s.jobEvents.rows,∃ r origin,s.runs.find job.run = some r ∧ r.origin = some origin ∧
    job = r.completion origin ∧ (r.state = .completed ∨ r.state = .deleted)
  runs : ∀ id r origin,s.runs.find id = some r → r.origin = some origin → r.state = .completed →
    r.completion origin ∈ s.jobEvents.rows

theorem turn_jobs (hturn : Turn h call answer r rows r' rows' events jobs) (hjob : job ∈ jobs) :
    ∃ origin,r.origin = some origin ∧ job = r.completion origin ∧ r'.state = .completed := by
  have hmap : ∀ {job},job ∈ (r.origin.map fun origin => (⟨r.id,origin,r.jobName,r.jobCount⟩ : JobEvent)).toList →
      ∃ origin,r.origin = some origin ∧ job = r.completion origin := by
    intro job hjob
    obtain ⟨origin,horigin,rfl⟩ := Option.map_eq_some_iff.mp (Option.mem_toList.mp hjob)
    exact ⟨origin,horigin,rfl⟩
  cases hturn with
  | completed hrunning hcount hlast htails hends hjobs =>
    obtain ⟨origin,horigin,rfl⟩ := hmap (hjobs ▸ hjob)
    exact ⟨origin,horigin,rfl,rfl⟩
  | completedWhole hrunning hzero hqueued htails hends hjobs =>
    obtain ⟨origin,horigin,rfl⟩ := hmap (hjobs ▸ hjob)
    exact ⟨origin,horigin,rfl,rfl⟩
  | _ => exact nomatch hjob

theorem turn_completion (hturn : Turn h call answer r rows r' rows' events jobs) (hr : Wellmade r)
    (horigin : r.origin = some origin) (hcompleted : r'.state = .completed) :
    r.completion origin ∈ jobs := by
  cases hturn with
  | completed hrunning hcount hlast htails hends hjobs =>
    rw [hjobs,horigin]
    exact List.mem_singleton_self _
  | completedWhole hrunning hzero hqueued htails hends hjobs =>
    rw [hjobs,horigin]
    exact List.mem_singleton_self _
  | endedLocally state hcall hstate hrunning hzero hlocal =>
    have hqueued := hr.queued (horigin ▸ rfl)
    rw [hlocal] at hqueued
    exact nomatch hqueued
  | _ => exact nomatch hcompleted

theorem change_completion (hs : Settled s) (hrecorded : Recorded s)
    (hchange : Change h s call answer events jobs before rows r' rows')
    (hbefore : ∀ r,before = some r → s.runs.find r.id = some r) (horigin : r'.origin = some origin)
    (hcompleted : r'.state = .completed) :
    r'.completion origin ∈ s.jobEvents.rows ++ jobs := by
  rw [List.mem_append]
  cases hchange with
  | same hquiet => exact .inl (hrecorded.runs _ _ _ (hbefore _ rfl) horigin hcompleted)
  | woken => cases hcompleted
  | @turned _ _ r _ _ hfound hturn =>
    have hkept := turn_kept hturn
    have hcompletion : r'.completion origin = r.completion origin := by
      rw [hkept]
      rfl
    rw [hkept] at horigin
    rw [hcompletion]
    exact .inr (turn_completion hturn (hs.made _ _ hfound) horigin hcompleted)
  | @imported intent now c _ hcall hcheck hclear =>
    rw [Store.runOf] at hcompleted
    cases hstarts : s.startsNow c with
    | true =>
      rw [hstarts] at hcompleted
      cases hcompleted
    | false =>
      rw [hstarts] at hcompleted
      cases hcompleted
  | added hlocal hsteps hstate hafter hnamed hschedule => cases hlocal ▸ horigin

theorem effect_recorded (hs : Settled s) (hrecorded : Recorded s) (heffect : Effect h s call answer s') :
    Recorded s' := by
  obtain ⟨events,jobs,-,hjobs,hcause,hchange⟩ := effect_change heffect
  refine ⟨fun job hjob => ?_,fun id r origin hr horigin hcompleted => ?_⟩
  · rw [hjobs,List.mem_append] at hjob
    rcases hjob with hold | hnew
    · obtain ⟨r,origin,hr,horigin,hjob,hstate⟩ := hrecorded.rows job hold
      obtain ⟨r',hr',hkept,hstays⟩ := effect_run heffect hr
      refine ⟨r',origin,hr',?_,?_,?_⟩
      · rw [hkept]
        exact horigin
      · rw [hkept]
        exact hjob
      · rcases hstate with hcompleted | hdeleted
        · rw [hcompleted] at hstays
          exact hstays rfl
        · rw [hdeleted] at hstays
          exact .inr ((hstays rfl).elim id id)
    · cases hcause with
      | nothing => exact nomatch hnew
      | given hcall => exact nomatch hnew
      | @turned r r' rows' _ _ hfound hafter hturn =>
        obtain ⟨origin,horigin,rfl,hcompleted⟩ := turn_jobs hturn hnew
        have hkept := turn_kept hturn
        refine ⟨r',origin,hafter,?_,?_,.inl hcompleted⟩
        · rw [hkept]
          exact horigin
        · rw [hkept]
          rfl
  · rw [hjobs]
    refine change_completion hs hrecorded (hchange id r hr) (fun old hold => ?_) horigin hcompleted
    rwa [Table.find_key hold]

theorem trace_recorded {events : List Event} (ht : Trace h events s) : Recorded s := by
  induction ht with
  | empty =>
    refine ⟨fun job hjob => ?_,fun id r origin hr => ?_⟩
    · exact nomatch hjob
    · rw [empty_find] at hr
      exact nomatch hr
  | step htrace hstep ih => exact effect_recorded (trace_settled htrace) ih (step_effect hstep)

theorem follows_completed (hs : Settled s) (hrecorded : Recorded s) {child : Run} {after : After} {pred : Id}
    (hchild : s.runs.find id = some child) (hafter : child.after = some after)
    (hintent : after.intent = some pred) (horigin : child.origin = some origin)
    (halive : child.state ≠ .deleted)
    (hpred : ∀ r,s.runs.find pred = some r → r.state ≠ .deleted ∧ r.origin = some origin ∧
      r.jobName = after.name ∧ r.jobCount = after.count) :
    child.state ≠ .waiting ↔ ∃ r,s.runs.find pred = some r ∧ r.state = .completed := by
  have hmade := hs.made _ _ hchild
  have hnamed : child.named = none := by
    by_contra hsome
    have hnone := hmade.single (Option.isSome_iff_ne_none.mpr hsome)
    rw [hafter] at hnone
    cases hnone
  constructor
  · intro hwaiting
    have hheeds := hs.released _ _ hchild hwaiting halive (.inr (hafter ▸ rfl))
    rw [heeds_after hnamed,List.any_eq_true] at hheeds
    obtain ⟨job,hjob,hfollows⟩ := hheeds
    have hrun : job.run = pred := by
      rw [Run.follows,hafter] at hfollows
      dsimp only at hfollows
      rw [hintent] at hfollows
      simp only [Bool.and_eq_true,Bool.or_eq_true,decide_eq_true_eq] at hfollows
      rcases hfollows.2.2 with hnone | hsame
      · cases hnone
      · exact (Option.some.inj hsame).symm
    obtain ⟨r,o,hr,-,-,hstate⟩ := hrecorded.rows job hjob
    rw [hrun] at hr
    exact ⟨r,hr,hstate.resolve_right (hpred r hr).1⟩
  · rintro ⟨r,hr,hcompleted⟩ hwaiting
    obtain ⟨-,hr_origin,hname,hcount⟩ := hpred r hr
    have hjob := hrecorded.runs _ _ _ hr hr_origin hcompleted
    have hheeds := hs.waiting _ _ hchild hwaiting
    rw [heeds_after hnamed,List.any_eq_false] at hheeds
    refine hheeds _ hjob ?_
    rw [Run.follows,hafter]
    simp only [Bool.and_eq_true,Bool.or_eq_true,decide_eq_true_eq]
    exact ⟨horigin,⟨hname.symm,hcount.symm⟩,.inr (hintent.trans (congrArg some (Table.find_key hr).symm))⟩

theorem awaits_recorded (hs : Settled s) (hr : s.runs.find id = some r) (hnamed : r.named.isSome = true)
    (halive : r.state ≠ .deleted) :
    r.state ≠ .waiting ↔ ∃ row ∈ s.events.rows,r.awaits row = true := by
  have hafter := (hs.made _ _ hr).single hnamed
  constructor
  · intro hwaiting
    have hheeds := hs.released _ _ hr hwaiting halive (.inl hnamed)
    rwa [heeds_named hafter,List.any_eq_true] at hheeds
  · rintro ⟨row,hrow,hawaits⟩ hwaiting
    have hheeds := hs.waiting _ _ hr hwaiting
    rw [heeds_named hafter,List.any_eq_false] at hheeds
    exact hheeds row hrow hawaits

end OpenSteamgate.Jobs
