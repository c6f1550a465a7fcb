import OpenSteamgate.Jobs.Completions

namespace OpenSteamgate.Jobs

variable {h : Platform} {s s' : Store} {id : Id} {r r' : Run} {rows rows' : List StepRow}
  {call : Call} {answer : Answer} {events : List NamedEvent} {jobs : List JobEvent}
  {p : StepRow → Bool} {new : StepState}

def first (rows : List StepRow) : Option StepState :=
  (rows.find? fun row => row.number = 1).map StepRow.state

def passed (rows : List StepRow) : Bool :=
  (first rows).any fun state => state ≠ .pending

def Event.readies (id : Id) (event : Event) : Bool :=
  first (event.before.steps id) ≠ some .ready && first (event.after.steps id) = some .ready

section first

theorem first_mark (p : StepRow → Bool) (new : StepState) (rows : List StepRow) :
    first (mark p new rows) =
      (rows.find? fun row => row.number = 1).map fun row => if p row then new else row.state := by
  rw [first]
  induction rows with
  | nil => rfl
  | cons row rows ih =>
    have hnumber : (if p row then {row with state := new} else row).number = row.number := by
      split
      · rfl
      · rfl
    rw [mark_cons,List.find?_cons,List.find?_cons,hnumber]
    split
    · rw [Option.map_some,Option.map_some]
      split
      · rfl
      · rfl
    · exact ih

theorem first_ready (hnew : new ≠ .ready) (hready : first (mark p new rows) = some .ready) :
    first rows = some .ready := by
  rw [first_mark] at hready
  obtain ⟨row,hrow,hstate⟩ := Option.map_eq_some_iff.mp hready
  rw [first,hrow,Option.map_some]
  split at hstate
  · exact absurd hstate hnew
  · rw [hstate]

theorem first_of_numbers {n : Nat} (hnumbers : rows.map StepRow.number = List.range' 1 n) :
    first rows = rows.head?.map StepRow.state := by
  cases rows with
  | nil => rfl
  | cons row rows =>
    cases n with
    | zero => exact nomatch hnumbers
    | succ n =>
      rw [List.map_cons,List.range'_succ] at hnumbers
      have hfirst : row.number = 1 := (List.cons.inj hnumbers).1
      rw [first,List.find?_cons,decide_eq_true hfirst]
      rfl

theorem passed_cut {a b : StepState} {n : Nat} (hcut : Cut a b rows) (ha : a ≠ .pending)
    (hnumbers : rows.map StepRow.number = List.range' 1 n) : passed rows = true := by
  rw [passed,first_of_numbers hnumbers]
  obtain ⟨done,row,rest,rfl,hdone,hrow,-⟩ := hcut
  cases done with
  | nil =>
    rw [List.nil_append,List.head?_cons,Option.map_some,Option.any_some,hrow]
    exact decide_eq_true ha
  | cons earlier done =>
    rw [List.cons_append,List.head?_cons,Option.map_some,Option.any_some,hdone earlier List.mem_cons_self]
    rfl

theorem passed_ordered (hr : Ordered r rows) (hpos : 0 < r.stepCount) (hdeleted : r.state ≠ .deleted) :
    passed rows = decide (r.state ≠ .waiting ∧ r.state ≠ .releasing) := by
  have hshape := hr.shape hpos
  have hpending : (∀ row ∈ rows,row.state = .pending) → passed rows = false := by
    intro hall
    rw [passed,first_of_numbers hr.numbers]
    cases rows with
    | nil => rfl
    | cons row rows =>
      rw [List.head?_cons,Option.map_some,Option.any_some,hall row List.mem_cons_self]
      rfl
  cases hstate : r.state with
  | waiting => rw [hstate] at hshape; exact hpending hshape
  | releasing => rw [hstate] at hshape; exact hpending hshape
  | queued | running | failed | interrupted =>
      rw [hstate] at hshape; exact passed_cut hshape nofun hr.numbers
  | deleted => exact absurd hstate hdeleted
  | completed =>
    rw [hstate] at hshape
    have hnumbers := hr.numbers
    obtain ⟨n,hn⟩ := Nat.exists_eq_succ_of_ne_zero (Nat.ne_of_gt hpos)
    rw [hn,List.range'_succ] at hnumbers
    obtain ⟨row,rest,rfl,-,-⟩ := List.map_eq_cons_iff.mp hnumbers
    rw [passed,first_of_numbers hr.numbers,List.head?_cons,Option.map_some,Option.any_some,
      hshape row List.mem_cons_self]
    rfl

end first

structure Moves (rows rows' : List StepRow) : Prop where
  stays : passed rows = true → passed rows' = true
  once : passed rows = true → first rows' = some .ready → first rows = some .ready
  ready : passed rows = false → passed rows' = true → first rows' = some .ready

namespace Moves

theorem refl (rows : List StepRow) : Moves rows rows :=
  ⟨id,fun _ hready => hready,fun hnot hpassed => absurd hpassed (Bool.eq_false_iff.mp hnot)⟩

theorem further (hbefore : passed rows = true) (hafter : passed rows' = true)
    (honce : first rows' = some .ready → first rows = some .ready) : Moves rows rows' :=
  ⟨fun _ => hafter,fun _ => honce,fun hnot => absurd hbefore (Bool.eq_false_iff.mp hnot)⟩

theorem readied (hrows : passed rows = false) : Moves rows (mark (isStep 1 .pending) .ready rows) := by
  refine ⟨fun hpassed => absurd hpassed (Bool.eq_false_iff.mp hrows),
    fun hpassed => absurd hpassed (Bool.eq_false_iff.mp hrows),fun _ hpassed => ?_⟩
  rw [passed,first] at hrows
  rw [passed,first_mark] at hpassed
  rw [first_mark]
  cases hfind : rows.find? fun row => row.number = 1 with
  | none =>
    rw [hfind] at hpassed
    exact nomatch hpassed
  | some row =>
    rw [hfind,Option.map_some,Option.any_some] at hrows
    have hpending : row.state = .pending := by
      by_contra hother
      rw [decide_eq_true hother] at hrows
      exact nomatch hrows
    have hnumber : row.number = 1 := of_decide_eq_true
      (List.find?_some (p := fun row : StepRow => decide (row.number = 1)) hfind)
    have his : isStep 1 .pending row = true := by
      rw [isStep,hnumber,hpending]
      rfl
    rw [Option.map_some,if_pos his]

end Moves

theorem passed_mark (hnew : new ≠ .pending) (hpassed : passed rows = true) :
    passed (mark p new rows) = true := by
  rw [passed,first] at hpassed
  rw [passed,first_mark]
  cases hfind : rows.find? fun row => row.number = 1 with
  | none =>
    rw [hfind] at hpassed
    exact nomatch hpassed
  | some row =>
    rw [hfind] at hpassed
    rw [Option.map_some,Option.any_some]
    split
    · exact decide_eq_true hnew
    · exact hpassed

theorem advanced_first {next : Nat} (hpassed : passed rows = true)
    (hready : first (mark (isStep next .pending) .ready rows) = some .ready) :
    first rows = some .ready := by
  rw [passed,first] at hpassed
  rw [first_mark] at hready
  obtain ⟨row,hrow,hstate⟩ := Option.map_eq_some_iff.mp hready
  rw [hrow,Option.map_some,Option.any_some] at hpassed
  have hnot : ¬isStep next .pending row = true := by
    rw [isStep,Bool.and_eq_true]
    exact fun his => of_decide_eq_true hpassed (of_decide_eq_true his.2)
  rw [if_neg hnot] at hstate
  rw [first,hrow,Option.map_some,hstate]

theorem turn_moves (hturn : Turn h call answer r rows r' rows' events jobs) (hr : Ordered r rows)
    (hr' : Ordered r' rows') (hpos : 0 < r.stepCount) (htimed : r.schedule = none) : Moves rows rows' := by
  have hbefore : r.state = .queued ∨ r.state = .running → passed rows = true := by
    intro hstate
    rcases hstate with hstate | hstate
    · rw [passed_ordered hr hpos (by rw [hstate]; exact nofun),hstate]
      rfl
    · rw [passed_ordered hr hpos (by rw [hstate]; exact nofun),hstate]
      rfl
  cases hturn with
  | claimed k hqueued hclaims hcount hone =>
    exact .further (hbefore (.inl hqueued)) (passed_mark nofun (hbefore (.inl hqueued))) (first_ready nofun)
  | @advanced _ _ _ k next hrunning hcount hnext =>
    have hcompleted := passed_mark (p := isStep k .running) (show StepState.completed ≠ .pending by decide)
      (hbefore (.inr hrunning))
    exact .further (hbefore (.inr hrunning)) (passed_mark nofun hcompleted)
      fun hready => first_ready (by decide) (advanced_first hcompleted hready)
  | completed hrunning hcount hlast htails hends hjobs =>
    exact .further (hbefore (.inr hrunning)) (passed_mark nofun (hbefore (.inr hrunning))) (first_ready nofun)
  | failed hrunning hcount hends =>
    exact .further (hbefore (.inr hrunning)) (passed_mark (by decide) (passed_mark (by decide) (hbefore (.inr hrunning))))
      fun hready => first_ready (by decide) (first_ready (by decide) hready)
  | dumped hrunning hcount =>
    exact .further (hbefore (.inr hrunning)) (passed_mark (by decide) (passed_mark (by decide) (hbefore (.inr hrunning))))
      fun hready => first_ready (by decide) (first_ready (by decide) hready)
  | interrupted hrunning hqueued hcount hends =>
    exact .further (hbefore (.inr hrunning)) (passed_mark (by decide) (passed_mark (by decide) (hbefore (.inr hrunning))))
      fun hready => first_ready (by decide) (first_ready (by decide) hready)
  | released hreleasing hscheduled => exact nomatch htimed ▸ hscheduled
  | expired hreleasing hscheduled => exact nomatch htimed ▸ hscheduled
  | claimedWhole | completedWhole | failedWhole | endedLocally | begun | deleted => exact .refl rows

theorem stepRows_passed {c : Checked} : passed ((c.steps.map (Store.stepRows false)).getD []) = false := by
  cases c.steps with
  | none => rfl
  | some steps =>
    rw [Option.map_some,Option.getD_some,passed,first]
    cases hfind : (Store.stepRows false steps).find? fun row => row.number = 1 with
    | none => rfl
    | some row =>
      rw [Option.map_some,Option.any_some,stepRows_pending row (List.mem_of_find?_eq_some hfind)]
      rfl

theorem stepRows_mark {c : Checked} : (c.steps.map (Store.stepRows true)).getD [] =
    mark (isStep 1 .pending) .ready ((c.steps.map (Store.stepRows false)).getD []) := by
  cases c.steps with
  | none => rfl
  | some steps => exact stepRows_released

theorem stepRows_moves {c : Checked} (released : Bool) :
    Moves [] ((c.steps.map (Store.stepRows released)).getD []) := by
  cases released with
  | false =>
    refine ⟨nofun,nofun,fun _ hpassed => ?_⟩
    rw [stepRows_passed] at hpassed
    exact nomatch hpassed
  | true =>
    rw [stepRows_mark]
    exact ⟨nofun,nofun,fun _ => (Moves.readied stepRows_passed).ready stepRows_passed⟩

theorem effect_moves (hs : Orderly s) (heffect : Effect h s call answer s')
    (htimed : ∀ r,s'.runs.find id = some r → r.schedule = none ∧ 0 < r.stepCount) :
    Moves (s.steps id) (s'.steps id) := by
  have hs' := effect_orderly hs heffect
  obtain ⟨events,jobs,-,-,-,hchange⟩ := effect_change heffect
  cases hfind : s'.runs.find id with
  | none =>
    have hnone : s.runs.find id = none := by
      cases hold : s.runs.find id with
      | none => rfl
      | some r =>
        obtain ⟨r',hr',-,-⟩ := effect_run heffect hold
        exact nomatch hr'.symm.trans hfind
    rw [hs.absent id hnone,hs'.absent id hfind]
    exact .refl []
  | some r' =>
    obtain ⟨hschedule,hpos⟩ := htimed r' hfind
    have hrows := hs.runs id
    have hrows' := hs'.runs id r' hfind
    have hnone := hs.absent id
    have hbecomes := hchange id r' hfind
    generalize s.runs.find id = before at hrows hnone hbecomes
    generalize s.steps id = rows at hrows hnone hbecomes ⊢
    generalize s'.steps id = rows' at hrows' hbecomes ⊢
    cases hbecomes with
    | same hquiet => exact .refl rows
    | @woken _ _ r _ hstirs =>
      have hpositive : 0 < r.stepCount := hpos
      have hwaiting := stirs_waiting hstirs
      rw [if_pos hpositive]
      refine .readied ?_
      rw [passed_ordered (hrows r rfl) hpositive (by rw [hwaiting]; exact nofun),hwaiting]
      rfl
    | @turned _ _ r _ _ hfound hturn =>
      have hkept := turn_kept hturn
      rw [hkept] at hschedule hpos
      exact turn_moves hturn (hrows r rfl) hrows' hpos hschedule
    | imported hcall hcheck hclear =>
      rw [hnone rfl,List.nil_append]
      exact stepRows_moves _
    | added hlocal hsteps hstate hafter hnamed hschedule => exact .refl rows

section traces

variable {events : List Event}

theorem readies_moves {event : Event} (hmoves : Moves (event.before.steps id) (event.after.steps id)) :
    passed (event.after.steps id) = (passed (event.before.steps id) || event.readies id) ∧
      (passed (event.before.steps id) = true → event.readies id = false) := by
  have hnot : first (event.after.steps id) = some .ready → passed (event.after.steps id) = true := by
    intro hready
    rw [passed,hready]
    rfl
  rw [Event.readies]
  cases hbefore : passed (event.before.steps id) with
  | true =>
    refine ⟨hmoves.stays hbefore,fun _ => ?_⟩
    rw [Bool.and_eq_false_iff]
    by_cases hready : first (event.after.steps id) = some .ready
    · exact .inl (decide_eq_false (not_not.mpr (hmoves.once hbefore hready)))
    · exact .inr (decide_eq_false hready)
  | false =>
    refine ⟨?_,nofun⟩
    have hother : first (event.before.steps id) ≠ some .ready := by
      intro hready
      rw [passed,hready] at hbefore
      exact nomatch hbefore
    rw [Bool.false_or,decide_eq_true hother,Bool.true_and,Bool.eq_iff_iff,decide_eq_true_eq]
    exact ⟨hmoves.ready hbefore,hnot⟩

theorem readies_count (ht : Trace h events s)
    (htimed : ∀ r,s.runs.find id = some r → r.schedule = none ∧ 0 < r.stepCount) :
    (events.filter (Event.readies id)).length = if passed (s.steps id) then 1 else 0 := by
  induction ht with
  | empty => rfl
  | @step earlier s s' call answer htrace hstep ih =>
    have heffect := step_effect hstep
    have hbefore : ∀ r,s.runs.find id = some r → r.schedule = none ∧ 0 < r.stepCount := by
      intro r hr
      obtain ⟨r',hr',hkept,-⟩ := effect_run heffect hr
      have htimed' := htimed r' hr'
      rw [hkept] at htimed'
      exact htimed'
    have hmoves := effect_moves (trace_orderly htrace) heffect htimed
    have hmoves' : Moves ((Event.mk call answer s s').before.steps id)
        ((Event.mk call answer s s').after.steps id) := hmoves
    obtain ⟨hpassed,honce⟩ := readies_moves hmoves'
    rw [List.filter_append,List.length_append,ih hbefore]
    dsimp only at hpassed honce
    rw [hpassed,List.filter_singleton]
    cases hp : passed (s.steps id) with
    | true =>
      rw [honce hp]
      rfl
    | false =>
      cases Event.readies id ⟨call,answer,s,s'⟩ with
      | true => rfl
      | false => rfl

structure Event.Completes (id : Id) (event : Event) : Prop where
  call : (∃ result,event.call = .finish id result) ∨ ∃ number result,event.call = .finishStep id number result
  before : ∃ r,event.before.runs.find id = some r ∧ r.state = .running
  after : ∃ r,event.after.runs.find id = some r ∧ r.state = .completed

theorem change_completes {before : Option Run} (hs : Settled s)
    {named : List NamedEvent} (hchange : Change h s call answer named jobs before rows r' rows') (hbefore : s.runs.find id = before)
    (hr' : s'.runs.find id = some r') (horigin : r'.origin.isSome = true) (hcompleted : r'.state = .completed) :
    (∃ r,before = some r ∧ r.state = .completed) ∨ Event.Completes id ⟨call,answer,s,s'⟩ := by
  cases hchange with
  | same hquiet => exact .inl ⟨r',rfl,hcompleted⟩
  | woken => cases hcompleted
  | turned hfound hturn =>
    have hid := Table.find_key hbefore
    subst hid
    cases hturn with
    | completed hrunning => exact .inr ⟨.inr ⟨_,_,rfl⟩,⟨_,hbefore,hrunning⟩,⟨_,hr',rfl⟩⟩
    | completedWhole hrunning => exact .inr ⟨.inl ⟨_,rfl⟩,⟨_,hbefore,hrunning⟩,⟨_,hr',rfl⟩⟩
    | endedLocally state hcall hstate hrunning hzero hlocal =>
      have hqueued := (hs.made _ _ hfound).queued horigin
      rw [hlocal] at hqueued
      cases hqueued
    | _ => cases hcompleted
  | @imported intent now c _ hcall hcheck hclear =>
    rw [Store.runOf] at hcompleted
    split at hcompleted
    · cases hcompleted
    · cases hcompleted
  | added hlocal hsteps hstate hafter hnamed hschedule =>
    rw [hlocal] at horigin
    cases horigin

theorem completed_by (ht : Trace h events s) (hr : s.runs.find id = some r)
    (horigin : r.origin.isSome = true) (halive : r.state ≠ .deleted) :
    r.state = .completed ↔ ∃ event ∈ events,event.Completes id := by
  constructor
  · intro hcompleted
    induction ht generalizing r with
    | empty =>
      rw [empty_find] at hr
      exact nomatch hr
    | @step earlier s s' call answer htrace hstep ih =>
      have heffect := step_effect hstep
      obtain ⟨named,jobs,-,-,-,hchange⟩ := effect_change heffect
      rcases change_completes (trace_settled htrace) (hchange id r hr) rfl hr horigin hcompleted with
        ⟨x,hx,hbefore⟩ | hlast
      · obtain ⟨x',hx',hkept,-⟩ := effect_run heffect hx
        obtain rfl := Option.some.inj (hx'.symm.trans hr)
        rw [hkept] at horigin
        obtain ⟨event,hevent,hcompletes⟩ := ih hx horigin (by rw [hbefore]; exact nofun) hbefore
        exact ⟨event,List.mem_append_left _ hevent,hcompletes⟩
      · exact ⟨_,List.mem_append_right _ (List.mem_singleton_self _),hlast⟩
  · rintro ⟨event,hevent,hcompletes⟩
    obtain ⟨x,hx,hcompleted⟩ := hcompletes.after
    obtain ⟨r',hr',-,hstays⟩ := trace_keeps ht hevent hx
    obtain rfl := Option.some.inj (hr'.symm.trans hr)
    rw [hcompleted] at hstays
    exact (hstays rfl).resolve_right halive

def Released (r : Run) (rows : List StepRow) : Prop :=
  r.state ≠ .waiting ∧ r.state ≠ .releasing ∧ passed rows = true

theorem released_once (ht : Trace h events s) {child : Run} {origin : Origin}
    (hchild : s.runs.find id = some child) (horigin : child.origin = some origin)
    (halive : child.state ≠ .deleted) :
    (∀ after pred,child.after = some after → after.intent = some pred →
      (∀ r,s.runs.find pred = some r → r.state ≠ .deleted ∧ r.origin = some origin ∧
        r.jobName = after.name ∧ r.jobCount = after.count) →
      (Released child (s.steps id) ↔ ∃ event ∈ events,event.Completes pred)) ∧
    (∀ named inst,child.named = some named → child.sourceInstance = some inst →
      (Released child (s.steps id) ↔ ∃ row ∈ s.events.rows,row.origin = origin ∧ row.inst = inst ∧
        row.id = named.id ∧ (named.param = [] ∨ row.param = named.param) ∧ named.seq < row.seq)) ∧
    (child.after.isSome = true ∨ child.named.isSome = true →
      (child.state = .waiting ∨ Released child (s.steps id)) ∧
      (events.filter (Event.readies id)).length = if child.state = .waiting then 0 else 1) := by
  have hs := trace_settled ht
  have hmade := hs.made _ _ hchild
  have hschedule : child.after.isSome = true ∨ child.named.isSome = true → child.schedule = none := by
    intro hwaits
    by_contra hsome
    obtain ⟨hafter,hnamed⟩ := hmade.timed (Option.isSome_iff_ne_none.mpr hsome)
    rw [hafter,hnamed] at hwaits
    rcases hwaits with h | h <;> exact nomatch h
  have hreleased : child.after.isSome = true ∨ child.named.isSome = true →
      (Released child (s.steps id) ↔ child.state ≠ .waiting) := by
    intro hwaits
    have hreleasing : child.state ≠ .releasing := by
      intro hstate
      have hsome := hmade.releasing hstate
      rw [hschedule hwaits] at hsome
      exact nomatch hsome
    have hpassed := passed_ordered ((trace_orderly ht).runs _ _ hchild) (hmade.stepped hwaits.symm) halive
    rw [Released,hpassed,decide_eq_true_eq]
    exact ⟨fun hall => hall.1,fun hwaiting => ⟨hwaiting,hreleasing,hwaiting,hreleasing⟩⟩
  refine ⟨fun after pred hafter hintent hpred => ?_,fun named inst hnamed hinst => ?_,fun hwaits => ?_⟩
  · rw [hreleased (.inl (hafter ▸ rfl)),
      follows_completed hs (trace_recorded ht) hchild hafter hintent horigin halive hpred]
    constructor
    · rintro ⟨r,hr,hcompleted⟩
      obtain ⟨hpresent,hsame,-,-⟩ := hpred r hr
      exact (completed_by ht hr (hsame ▸ rfl) hpresent).mp hcompleted
    · rintro ⟨event,hevent,hcompletes⟩
      obtain ⟨x,hx,-⟩ := hcompletes.after
      obtain ⟨r,hr,-,-⟩ := trace_keeps ht hevent hx
      obtain ⟨hpresent,hsame,-,-⟩ := hpred r hr
      exact ⟨r,hr,(completed_by ht hr (hsame ▸ rfl) hpresent).mpr ⟨event,hevent,hcompletes⟩⟩
  · rw [hreleased (.inr (hnamed ▸ rfl)),awaits_recorded hs hchild (hnamed ▸ rfl) halive]
    refine exists_congr fun row => and_congr_right fun hrow => ?_
    rw [Run.awaits,hnamed,horigin,hinst]
    simp only [Bool.and_eq_true,Bool.or_eq_true,decide_eq_true_eq,Option.some.injEq]
    constructor
    · rintro ⟨⟨hsame,hrow_inst⟩,⟨hid,hseq⟩,hparam⟩
      exact ⟨hsame.symm,hrow_inst.symm,hid.symm,hparam.imp_right Eq.symm,hseq⟩
    · rintro ⟨hsame,hrow_inst,hid,hparam,hseq⟩
      exact ⟨⟨hsame.symm,hrow_inst.symm⟩,⟨hid.symm,hseq⟩,hparam.imp_right Eq.symm⟩
  · have hcount : (events.filter (Event.readies id)).length = if passed (s.steps id) then 1 else 0 := by
      refine readies_count ht fun r hr => ?_
      obtain rfl := Option.some.inj (hchild.symm.trans hr)
      exact ⟨hschedule hwaits,hmade.stepped hwaits.symm⟩
    by_cases hwaiting : child.state = .waiting
    · have hpassed := passed_ordered ((trace_orderly ht).runs _ _ hchild) (hmade.stepped hwaits.symm) halive
      rw [hcount,hpassed,if_pos hwaiting,if_neg (by simp [hwaiting])]
      exact ⟨.inl hwaiting,rfl⟩
    · have hout := (hreleased hwaits).mpr hwaiting
      rw [hcount,if_pos hout.2.2,if_neg hwaiting]
      exact ⟨.inr hout,rfl⟩

def firstIntent : Intent := {sampleIntent with steps := some [⟨1,"ZFIRST".toList,[]⟩]}

def knownIntent : Intent := {firstIntent with sourceInstance := some (List.replicate 32 'f')}

def followingId : Id := List.replicate 32 'b'

def followingIntent : Intent :=
  {firstIntent with
    intentId := followingId
    jobname := "NEXT".toList
    afterEvent := some ⟨"JOB".toList,"00000100".toList,some sampleId⟩}

def followingCalls : List Call :=
  [.importIntent followingIntent 0,.importIntent firstIntent 1,.claimNext .any none,
    .finishStep sampleId 1 ⟨"COMPLETED".toList,0⟩]

set_option maxRecDepth 10000 in
theorem released_once_following : ∃ child,
    (happened plain followingCalls).2.runs.find followingId = some child ∧ child.state = .queued ∧
      ((happened plain followingCalls).1.filter (Event.readies followingId)).length = 1 := by
  have hrun : ((happened plain followingCalls).2.runs.find followingId).map (fun r =>
      (r.state,r.after.isSome,r.origin)) =
        some (.queued,true,some ⟨"/db".toList,"100".toList,"OSD".toList,"ANNA".toList⟩) := by
    decide +kernel
  obtain ⟨child,hchild,hfields⟩ := Option.map_eq_some_iff.mp hrun
  obtain ⟨hqueued,hrest⟩ := Prod.mk.inj hfields
  obtain ⟨hafter,horigin⟩ := Prod.mk.inj hrest
  obtain ⟨-,-,honce⟩ := released_once (happened_trace plain followingCalls) hchild horigin
    (by rw [hqueued]; decide)
  have hcount := (honce (.inl hafter)).2
  rw [if_neg (by rw [hqueued]; decide)] at hcount
  exact ⟨child,hchild,hqueued,hcount⟩

end traces

end OpenSteamgate.Jobs
