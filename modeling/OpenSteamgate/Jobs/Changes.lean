import OpenSteamgate.Jobs.Orderly

namespace OpenSteamgate.Jobs

inductive Change (h : Platform) (s : Store) (call : Call) (answer : Answer) :
    List NamedEvent → List JobEvent → Option Run → List StepRow → Run → List StepRow → Prop
  | same {events jobs r rows} : stirs events jobs r = false →
      Change h s call answer events jobs (some r) rows r rows
  | woken {events jobs r rows} : stirs events jobs r = true →
      Change h s call answer events jobs (some r) rows (woken r)
        (if 0 < r.stepCount then readied rows else rows)
  | turned {events jobs r r' rows'} : s.runs.find r.id = some r →
      Turn h call answer r (s.steps r.id) r' rows' events jobs →
      Change h s call answer events jobs (some r) (s.steps r.id) r' rows'
  | imported {intent now c rows} : call = .importIntent intent now → check h intent = some c →
      (∀ after,c.after = some after → after.intentId = none → (s.completions c.origin after).length ≤ 1) →
      Change h s call answer [] [] none rows (Store.runOf c now (s.startsNow c))
        (rows ++ (c.steps.map (Store.stepRows (s.startsNow c))).getD [])
  | added {r rows} : r.origin = none → r.stepCount = 0 →
      r.state = .running ∧ r.queuedAt = none ∨ r.state = .queued →
      r.after = none → r.named = none → r.schedule = none →
      Change h s call answer [] [] none rows r rows

inductive Cause (h : Platform) (s s' : Store) (call : Call) (answer : Answer) :
    List NamedEvent → List JobEvent → Prop
  | nothing : Cause h s s' call answer [] []
  | given {intent event} : call = .importNamedEvent intent → Cause h s s' call answer [event] []
  | turned {r r' rows' events jobs} : s.runs.find r.id = some r → s'.runs.find r.id = some r' →
      Turn h call answer r (s.steps r.id) r' rows' events jobs →
      Cause h s s' call answer events jobs

variable {h : Platform} {s s₁ s' : Store} {id : Id} {r r' : Run} {rows rows' : List StepRow}
  {call : Call} {answer : Answer} {events : List NamedEvent} {jobs : List JobEvent}

theorem turn_leaves (hturn : Turn h call answer r rows r' rows' events jobs) : r'.state ≠ .waiting := by
  cases hturn with
  | endedLocally state hcall hstate => rcases hstate with rfl | rfl <;> exact nofun
  | _ => exact nofun

theorem emitted_change (hemitted : Emitted events jobs s₁ s') (hruns : s₁.runs.find id = s.runs.find id)
    (hsteps : s₁.steps id = s.steps id) (hr' : s'.runs.find id = some r') :
    Change h s call answer events jobs (s.runs.find id) (s.steps id) r' (s'.steps id) := by
  have hrun := hemitted.runs id
  have hrows := hemitted.steps id
  rw [hruns] at hrun hrows
  rw [hsteps] at hrows
  cases hfind : s.runs.find id with
  | none =>
    rw [hfind,hr'] at hrun
    exact nomatch hrun
  | some r =>
    rw [hfind,hr',Option.map_some] at hrun
    rw [hfind,Option.any_some] at hrows
    rw [Option.some.inj hrun,hrows]
    cases hstirs : stirs events jobs r with
    | true =>
      simp only [Bool.true_and,decide_eq_true_eq,if_true]
      exact .woken hstirs
    | false => exact .same hstirs

theorem created_change (hcreated : Created s s' r rows) (hr' : s'.runs.find id = some r')
    (hnew : Change h s call answer [] [] none (s.steps r.id) r rows) :
    Change h s call answer [] [] (s.runs.find id) (s.steps id) r' (s'.steps id) := by
  rw [hcreated.runs] at hr'
  rw [hcreated.steps]
  split at hr'
  · rename_i hid
    subst hid
    rw [hcreated.fresh,← Option.some.inj hr',Function.update_self]
    exact hnew
  · rename_i hid
    rw [hr',Function.update_of_ne hid]
    exact .same (Bool.and_false _)

theorem effect_change (heffect : Effect h s call answer s') : ∃ events jobs,
    s'.events.rows = s.events.rows ++ events ∧ s'.jobEvents.rows = s.jobEvents.rows ++ jobs ∧
      Cause h s s' call answer events jobs ∧ ∀ id r',s'.runs.find id = some r' →
        Change h s call answer events jobs (s.runs.find id) (s.steps id) r' (s'.steps id) := by
  cases heffect with
  | unchanged hsame hquiet =>
    refine ⟨[],[],?_,?_,.nothing,fun id r' hr' => ?_⟩
    · rw [hsame.events,List.append_nil]
    · rw [hsame.jobEvents,List.append_nil]
    · rw [← hsame.runs,hr',hsame.steps]
      exact .same (Bool.and_false _)
  | @turned _ _ x x' rows events jobs s₁ s' ht hemitted hturn hfresh hnew =>
    have hquiet : stirs events jobs x' = false := by
      rw [← Bool.not_eq_true]
      exact fun hstirs => turn_leaves hturn (stirs_waiting hstirs)
    have hself : s'.runs.find x.id = some x' := by
      rw [hemitted.runs,ht.self,Option.map_some,hquiet,if_neg Bool.false_ne_true]
    refine ⟨events,jobs,ht.events ▸ hemitted.events,ht.jobEvents ▸ hemitted.jobEvents,
      .turned ht.found hself hturn,fun id r' hr' => ?_⟩
    by_cases hid : id = x.id
    · subst hid
      have hsteps : s'.steps x.id = rows := by
        rw [hemitted.steps,ht.self,Option.any_some,hquiet,Bool.false_and,if_neg Bool.false_ne_true,
          ht.self_steps]
      obtain rfl := Option.some.inj (hself.symm.trans hr')
      rw [ht.found,hsteps]
      exact .turned ht.found hturn
    · refine emitted_change hemitted ?_ ?_ hr'
      · rw [ht.runs,if_neg hid]
      · rw [ht.steps,Function.update_of_ne hid]
  | signalled hemitted hfresh =>
    exact ⟨_,[],hemitted.events,hemitted.jobEvents,.given rfl,
      fun id r' hr' => emitted_change hemitted rfl rfl hr'⟩
  | imported hcheck hcreated hledger hclear =>
    refine ⟨[],[],?_,?_,.nothing,fun id r' hr' =>
      created_change hcreated hr' (.imported rfl hcheck hclear)⟩
    · rw [hcreated.events,List.append_nil]
    · rw [hcreated.jobEvents,List.append_nil]
  | added horigin hsteps hstate hafter hnamed hschedule hcreated himports hanswer hcreates =>
    refine ⟨[],[],?_,?_,.nothing,fun id r' hr' =>
      created_change hcreated hr' (.added horigin hsteps hstate hafter hnamed hschedule)⟩
    · rw [hcreated.events,List.append_nil]
    · rw [hcreated.jobEvents,List.append_nil]

end OpenSteamgate.Jobs
