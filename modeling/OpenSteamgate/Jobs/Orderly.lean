import OpenSteamgate.Jobs.Effects

namespace OpenSteamgate.Jobs

variable {h : Platform} {s s₁ s' : Store} {id : Id} {r r' : Run} {rows rows' done rest : List StepRow}
  {call : Call} {answer : Answer} {events : List NamedEvent} {jobs : List JobEvent}
  {p : StepRow → Bool} {new a b : StepState} {k : Nat}

def Cut (at' after : StepState) (rows : List StepRow) : Prop :=
  ∃ done row rest,rows = done ++ row :: rest ∧ (∀ row ∈ done,row.state = .completed) ∧
    row.state = at' ∧ ∀ row ∈ rest,row.state = after

def Shape (rows : List StepRow) : RunState → Prop
  | .waiting | .releasing => ∀ row ∈ rows,row.state = .pending
  | .queued => Cut .ready .pending rows
  | .running => Cut .running .pending rows
  | .completed => ∀ row ∈ rows,row.state = .completed
  | .failed => Cut .failed .skipped rows
  | .interrupted => Cut .interrupted .skipped rows
  | .deleted => True

structure Ordered (r : Run) (rows : List StepRow) : Prop where
  numbers : rows.map StepRow.number = List.range' 1 r.stepCount
  shape : 0 < r.stepCount → Shape rows r.state

theorem Ordered.shapeOf {state : RunState} (hr : Ordered r rows) (hpos : 0 < r.stepCount)
    (hstate : r.state = state) : Shape rows state := hstate ▸ hr.shape hpos

section mark

theorem mark_cons (row : StepRow) : mark p new (row :: rows) =
    (if p row then {row with state := new} else row) :: mark p new rows := rfl

theorem mark_append : mark p new (done ++ rest) = mark p new done ++ mark p new rest := List.map_append

theorem mark_none (hp : ∀ row ∈ rows,p row = false) : mark p new rows = rows := by
  refine (List.map_congr_left fun row hrow => ?_).trans (List.map_id' rows)
  rw [hp row hrow]
  rfl

theorem mark_every (hp : ∀ row ∈ rows,p row = true) : ∀ row ∈ mark p new rows,row.state = new := by
  intro row hrow
  obtain ⟨old,hold,rfl⟩ := List.mem_map.mp hrow
  rw [if_pos (hp old hold)]

theorem mark_numbers : (mark p new rows).map StepRow.number = rows.map StepRow.number := by
  rw [mark,List.map_map]
  refine List.map_congr_left fun row _ => ?_
  rw [Function.comp_apply]
  split
  · rfl
  · rfl

theorem isStep_other (hrows : ∀ row ∈ rows,row.state = b) (hab : b ≠ a) :
    ∀ row ∈ rows,isStep k a row = false := by
  intro row hrow
  rw [isStep,hrows row hrow,decide_eq_false hab,Bool.and_false]

theorem countP_none (hp : ∀ row ∈ rows,p row = false) : rows.countP p = 0 :=
  List.countP_eq_zero.mpr fun row hrow => Bool.eq_false_iff.mp (hp row hrow)

theorem mark_cut (hcut : Cut a b rows) (hcount : rows.countP (isStep k a) = 1) (ha : .completed ≠ a)
    (hb : b ≠ a) (new : StepState) : ∃ done row rest,rows = done ++ row :: rest ∧
      (∀ row ∈ done,row.state = .completed) ∧ row.state = a ∧ row.number = k ∧ (∀ row ∈ rest,row.state = b) ∧
      mark (isStep k a) new rows = done ++ {row with state := new} :: rest := by
  obtain ⟨done,row,rest,rfl,hdone,hrow,hrest⟩ := hcut
  have hbefore := isStep_other (k := k) hdone ha
  have hafter := isStep_other (k := k) hrest hb
  rw [List.countP_append,List.countP_cons,countP_none hbefore,countP_none hafter] at hcount
  have his : isStep k a row = true := by
    by_contra hnot
    rw [if_neg hnot] at hcount
    exact nomatch hcount
  have hnumber : row.number = k := of_decide_eq_true (Bool.and_eq_true_iff.mp his).1
  refine ⟨done,row,rest,rfl,hdone,hrow,hnumber,hrest,?_⟩
  rw [mark_append,mark_cons,mark_none hbefore,mark_none hafter,if_pos his]

theorem cut_mark (hcut : Cut a b rows) (hcount : rows.countP (isStep k a) = 1) (ha : .completed ≠ a)
    (hb : b ≠ a) (new : StepState) : Cut new b (mark (isStep k a) new rows) := by
  obtain ⟨done,row,rest,-,hdone,-,-,hrest,hmark⟩ := mark_cut hcut hcount ha hb new
  rw [hmark]
  exact ⟨done,_,rest,rfl,hdone,rfl,hrest⟩

theorem cut_rest {c : StepState} (hcut : Cut a b rows)
    (hdone : ∀ row : StepRow,row.state = .completed → p row = false)
    (hat : ∀ row : StepRow,row.state = a → p row = false)
    (hrest : ∀ row : StepRow,row.state = b → p row = true) : Cut a c (mark p c rows) := by
  obtain ⟨done,row,rest,rfl,hcompleted,hrow,hafter⟩ := hcut
  refine ⟨done,row,mark p c rest,?_,hcompleted,hrow,?_⟩
  · rw [mark_append,mark_cons,mark_none fun row hmem => hdone row (hcompleted row hmem),hat row hrow]
    rfl
  · exact mark_every fun row hmem => hrest row (hafter row hmem)

theorem pending_skipped (hcut : Cut a .pending rows) (ha : a ≠ .pending) :
    Cut a .skipped (mark (fun row => row.state = .pending) .skipped rows) :=
  cut_rest hcut (fun row hrow => by rw [hrow]; rfl) (fun row hrow => by
    rw [hrow]
    exact decide_eq_false ha) fun row hrow => decide_eq_true hrow

theorem first_cut (hnumbers : rows.map StepRow.number = List.range' 1 k)
    (hpending : ∀ row ∈ rows,row.state = .pending) (hk : 0 < k) (new : StepState) :
    Cut new .pending (mark (isStep 1 .pending) new rows) := by
  obtain ⟨k,rfl⟩ := Nat.exists_eq_succ_of_ne_zero (Nat.ne_of_gt hk)
  rw [List.range'_succ] at hnumbers
  obtain ⟨row,rest,rfl,hrow,hrest⟩ := List.map_eq_cons_iff.mp hnumbers
  have hfirst : isStep 1 .pending row = true := by
    rw [isStep,hrow,hpending row List.mem_cons_self]
    rfl
  have hothers : ∀ other ∈ rest,isStep 1 .pending other = false := by
    intro other hother
    have hmem := List.mem_map_of_mem (f := StepRow.number) hother
    rw [hrest,List.mem_range'_1] at hmem
    have hne : other.number ≠ 1 := by omega
    rw [isStep,decide_eq_false hne,Bool.false_and]
  rw [mark_cons,if_pos hfirst,mark_none hothers]
  exact ⟨[],_,rest,rfl,List.forall_mem_nil _,rfl,
    fun other hother => hpending other (List.mem_cons_of_mem row hother)⟩

theorem sorted_numbers (hnumbers : rows.map StepRow.number = List.range' 1 k) :
    rows.Pairwise fun row other => row.number < other.number := by
  rw [← List.pairwise_map (R := (· < ·)),hnumbers]
  exact List.pairwise_lt_range'

theorem later_cut {row : StepRow} (hnumbers : (done ++ row :: rest).map StepRow.number = List.range' 1 k) :
    (done ++ row :: rest).filter (fun other => row.number < other.number) = rest := by
  have hsorted := sorted_numbers hnumbers
  rw [List.pairwise_append,List.pairwise_cons] at hsorted
  obtain ⟨-,⟨hafter,-⟩,hbefore⟩ := hsorted
  rw [List.filter_append,List.filter_cons,if_neg (by simp),List.filter_eq_nil_iff.mpr,List.nil_append,
    List.filter_eq_self]
  · intro other hother
    exact decide_eq_true (hafter other hother)
  · intro other hother hlater
    have hlt := hbefore other hother row List.mem_cons_self
    have hgt := of_decide_eq_true hlater
    omega

theorem next_mark {row first : StepRow}
    (hnumbers : (done ++ row :: first :: rest).map StepRow.number = List.range' 1 k)
    (hdone : ∀ row ∈ done,row.state = .completed) (hrest : ∀ row ∈ first :: rest,row.state = .pending) :
    mark (isStep first.number .pending) .ready (done ++ {row with state := .completed} :: first :: rest) =
      done ++ {row with state := .completed} :: {first with state := .ready} :: rest := by
  have hsorted := sorted_numbers hnumbers
  rw [List.pairwise_append,List.pairwise_cons,List.pairwise_cons] at hsorted
  obtain ⟨-,⟨-,hafter,-⟩,-⟩ := hsorted
  have hfirst : isStep first.number .pending first = true := by
    rw [isStep,hrest first List.mem_cons_self,decide_eq_true rfl]
    rfl
  have hothers : ∀ other ∈ rest,isStep first.number .pending other = false := by
    intro other hother
    have hne : other.number ≠ first.number := Nat.ne_of_gt (hafter other hother)
    rw [isStep,decide_eq_false hne,Bool.false_and]
  have hrow : ¬isStep first.number .pending {row with state := .completed} = true := by
    rw [isStep,Bool.and_eq_true]
    exact fun his => nomatch of_decide_eq_true his.2
  have hbefore := isStep_other (k := first.number) (a := .pending) hdone nofun
  rw [mark_append,mark_none hbefore,mark_cons,if_neg hrow,mark_cons,if_pos hfirst,mark_none hothers]

theorem next_cut {row first : StepRow} (hdone : ∀ row ∈ done,row.state = .completed)
    (hrest : ∀ row ∈ first :: rest,row.state = .pending) :
    Cut .ready .pending (done ++ {row with state := .completed} :: {first with state := .ready} :: rest) := by
  refine ⟨done ++ [{row with state := .completed}],_,rest,by rw [List.append_assoc]; rfl,
    fun other hother => ?_,rfl,fun other hother => hrest other (List.mem_cons_of_mem first hother)⟩
  rcases List.mem_append.mp hother with hother | hother
  · exact hdone other hother
  · rw [List.mem_singleton.mp hother]

theorem next_number {row first : StepRow}
    (hnumbers : (done ++ row :: first :: rest).map StepRow.number = List.range' 1 k) :
    first.number = row.number + 1 := by
  have hat : ∀ i number,((done ++ row :: first :: rest).map StepRow.number)[i]? = some number →
      number = 1 + i := by
    intro i number hi
    rw [hnumbers] at hi
    obtain ⟨hlt,hvalue⟩ := List.getElem?_eq_some_iff.mp hi
    rw [List.getElem_range',Nat.one_mul] at hvalue
    exact hvalue.symm
  have hrow := hat done.length row.number (by simp)
  have hfirst := hat (done.length + 1) first.number (by simp)
  omega

theorem cut_state (hcut : Cut a b rows) (ha : .completed ≠ a) (hb : b ≠ a) (new : StepState) :
    Cut new b (mark (fun row => row.state = a) new rows) := by
  obtain ⟨done,row,rest,rfl,hdone,hrow,hrest⟩ := hcut
  refine ⟨done,{row with state := new},rest,?_,hdone,rfl,hrest⟩
  rw [mark_append,mark_cons,if_pos (decide_eq_true hrow),mark_none fun other hother => decide_eq_false
    (hdone other hother ▸ ha),mark_none fun other hother => decide_eq_false (hrest other hother ▸ hb)]

end mark

theorem turn_ordered (hturn : Turn h call answer r rows r' rows' events jobs) (hr : Ordered r rows) :
    Ordered r' rows' := by
  cases hturn with
  | claimed k hqueued hclaims hpos hcount =>
    refine ⟨(mark_numbers).trans hr.numbers,fun hsteps => ?_⟩
    have hcut : Cut .ready .pending rows := hr.shapeOf hsteps hqueued
    exact cut_mark hcut hcount nofun nofun .running
  | claimedWhole hqueued hclaims hzero =>
    exact ⟨hr.numbers,fun hpos => absurd hzero (Nat.ne_of_gt hpos)⟩
  | advanced next hrunning hcount hnext =>
    refine ⟨((mark_numbers).trans mark_numbers).trans hr.numbers,fun hsteps => ?_⟩
    have hcut : Cut .running .pending rows := hr.shapeOf hsteps hrunning
    obtain ⟨done,row,rest,hrows,hdone,-,rfl,hrest,hmark⟩ := mark_cut hcut hcount nofun nofun .completed
    rw [hmark]
    have hnumbers := hr.numbers
    rw [hrows] at hnumbers hnext
    rw [later_cut hnumbers] at hnext
    cases rest with
    | nil => exact nomatch hnext
    | cons first rest =>
      obtain rfl : first.number = next := Option.some.inj hnext
      rw [next_mark hnumbers hdone hrest]
      exact next_cut hdone hrest
  | completed hrunning hcount hlast htails hends hjobs =>
    refine ⟨(mark_numbers).trans hr.numbers,fun hsteps => ?_⟩
    have hcut : Cut .running .pending rows := hr.shapeOf hsteps hrunning
    obtain ⟨done,row,rest,hrows,hdone,-,rfl,hrest,hmark⟩ := mark_cut hcut hcount nofun nofun .completed
    rw [hmark]
    have hnumbers := hr.numbers
    rw [hrows] at hnumbers hlast
    rw [later_cut hnumbers,List.head?_map,Option.map_eq_none_iff,List.head?_eq_none_iff] at hlast
    subst hlast
    intro other hother
    rcases List.mem_append.mp hother with hother | hother
    · exact hdone other hother
    · rw [List.mem_singleton.mp hother]
  | failed hrunning hcount hends =>
    refine ⟨((mark_numbers).trans mark_numbers).trans hr.numbers,fun hsteps => ?_⟩
    have hcut : Cut .running .pending rows := hr.shapeOf hsteps hrunning
    exact pending_skipped (cut_mark hcut hcount nofun nofun .failed) nofun
  | dumped hrunning hcount =>
    refine ⟨((mark_numbers).trans mark_numbers).trans hr.numbers,fun hsteps => ?_⟩
    have hcut : Cut .running .pending rows := hr.shapeOf hsteps hrunning
    exact pending_skipped (cut_mark hcut hcount nofun nofun .failed) nofun
  | completedWhole hrunning hzero hqueued htails hends hjobs =>
    exact ⟨hr.numbers,fun hpos => absurd hzero (Nat.ne_of_gt hpos)⟩
  | failedWhole hcall hrunning hzero hqueued hends =>
    exact ⟨hr.numbers,fun hpos => absurd hzero (Nat.ne_of_gt hpos)⟩
  | endedLocally state hcall hstate hrunning hzero hlocal =>
    exact ⟨hr.numbers,fun hpos => absurd hzero (Nat.ne_of_gt hpos)⟩
  | interrupted hrunning hqueued hcount hends =>
    refine ⟨((mark_numbers).trans mark_numbers).trans hr.numbers,fun hsteps => ?_⟩
    have hcut : Cut .running .pending rows := hr.shapeOf hsteps hrunning
    exact cut_rest (cut_state hcut nofun nofun .interrupted)
      (fun row hrow => by rw [hrow]; rfl) (fun row hrow => by rw [hrow]; rfl)
      fun row hrow => by rw [hrow]; rfl
  | begun hwaiting hscheduled =>
    refine ⟨hr.numbers,fun hsteps => ?_⟩
    have hpending : ∀ row ∈ rows,row.state = .pending := hr.shapeOf hsteps hwaiting
    exact hpending
  | released hreleasing hscheduled hpos hcount =>
    refine ⟨mark_numbers.trans hr.numbers,fun hsteps => ?_⟩
    have hpending : ∀ row ∈ rows,row.state = .pending := hr.shapeOf hsteps hreleasing
    exact first_cut hr.numbers hpending hsteps .ready
  | expired hreleasing hscheduled hlate =>
    refine ⟨(mark_numbers.trans mark_numbers).trans hr.numbers,fun hsteps => ?_⟩
    have hpending : ∀ row ∈ rows,row.state = .pending := hr.shapeOf hsteps hreleasing
    exact pending_skipped (first_cut hr.numbers hpending hsteps .failed) nofun
  | deleted hstate => exact ⟨hr.numbers,fun _ => trivial⟩

theorem woken_ordered (hr : Ordered r rows) (hwaiting : r.state = .waiting) :
    Ordered (woken r) (if 0 < r.stepCount then readied rows else rows) := by
  split
  · rename_i hpos
    exact ⟨mark_numbers.trans hr.numbers,fun _ =>
      first_cut hr.numbers (hr.shapeOf hpos hwaiting) hpos .ready⟩
  · rename_i hnone
    exact ⟨hr.numbers,fun hpos => absurd hpos hnone⟩

section intents

variable {intent : Intent} {c : Checked} {steps steps' : List StepSpec} {now : Stamp}

theorem checkSteps_numbers {index : Nat} (hsteps : checkSteps h index steps = some steps') :
    steps'.map StepSpec.number = List.range' index steps'.length := by
  induction steps generalizing index steps' with
  | nil =>
    obtain rfl := Option.some.inj hsteps
    rfl
  | cons step steps ih =>
    obtain ⟨input,-,hrest⟩ := Option.bind_eq_some_iff.mp hsteps
    split at hrest
    · exact nomatch hrest
    · obtain ⟨later,hlater,hall⟩ := Option.bind_eq_some_iff.mp hrest
      obtain rfl := Option.some.inj hall
      rw [List.map_cons,ih hlater,List.length_cons,List.range'_succ]

theorem check_steps (hcheck : check h intent = some c) (hsteps : c.steps = some steps) :
    steps.map StepSpec.number = List.range' 1 steps.length := by
  rw [check] at hcheck
  obtain ⟨found,hfound,hrest⟩ := Option.bind_eq_some_iff.mp hcheck
  split at hrest
  · obtain rfl := Option.some.inj hrest
    obtain rfl : found = some steps := hsteps
    rw [orderedSteps] at hfound
    split at hfound
    · exact nomatch hfound
    · obtain ⟨found,hchecked,heq⟩ := Option.map_eq_some_iff.mp hfound
      obtain rfl := Option.some.inj heq
      exact checkSteps_numbers hchecked
  · exact nomatch hrest

theorem stepRows_numbers (released : Bool) :
    (Store.stepRows released steps).map StepRow.number = steps.map StepSpec.number := by
  rw [Store.stepRows,List.map_map]
  rfl

theorem stepRows_pending : ∀ row ∈ Store.stepRows false steps,row.state = .pending := by
  intro row hrow
  obtain ⟨step,-,rfl⟩ := List.mem_map.mp hrow
  exact if_neg fun hboth => nomatch hboth.2

theorem stepRows_released :
    Store.stepRows true steps = mark (isStep 1 .pending) .ready (Store.stepRows false steps) := by
  rw [Store.stepRows,Store.stepRows,mark,List.map_map]
  refine List.map_congr_left fun step _ => ?_
  rw [Function.comp_apply,isStep]
  by_cases hfirst : step.number = 1
  · simp [hfirst]
  · simp [hfirst]

theorem import_ordered (hcheck : check h intent = some c) (released : Bool) :
    Ordered (Store.runOf c now released) ((c.steps.map (Store.stepRows released)).getD []) := by
  cases hsteps : c.steps with
  | none =>
    have hzero : (Store.runOf c now released).stepCount = 0 := by rw [Store.runOf,hsteps]; rfl
    exact ⟨by rw [hzero]; rfl,fun hpos => absurd hzero (Nat.ne_of_gt hpos)⟩
  | some steps =>
    have hcount : (Store.runOf c now released).stepCount = steps.length := by rw [Store.runOf,hsteps]; rfl
    have hnumbers := check_steps hcheck hsteps
    refine ⟨?_,fun hpos => ?_⟩
    · rw [hcount]
      exact (stepRows_numbers released).trans hnumbers
    · rw [hcount] at hpos
      cases released with
      | false => exact stepRows_pending
      | true =>
        change Cut .ready .pending (Store.stepRows true steps)
        rw [stepRows_released]
        exact first_cut ((stepRows_numbers false).trans hnumbers) stepRows_pending hpos .ready

end intents

structure Orderly (s : Store) : Prop where
  runs : ∀ id r,s.runs.find id = some r → Ordered r (s.steps id)
  absent : ∀ id,s.runs.find id = none → s.steps id = []
  log : ∀ id,Numbered (s.log id)

section orderly

theorem Turned.orderly (hs : Orderly s) (ht : Turned s s₁ r r' rows') (hordered : Ordered r' rows') :
    Orderly s₁ := by
  refine ⟨fun l x hx => ?_,fun l hl => ?_,fun l => ht.log l (hs.log l)⟩
  · rw [ht.runs] at hx
    rw [ht.steps]
    split at hx
    · rename_i hl
      subst hl
      obtain rfl := Option.some.inj hx
      rwa [Function.update_self]
    · rename_i hl
      rw [Function.update_of_ne hl]
      exact hs.runs l x hx
  · rw [ht.runs] at hl
    split at hl
    · cases hl
    · rename_i hne
      rw [ht.steps,Function.update_of_ne hne]
      exact hs.absent l hl

theorem Created.orderly (hs : Orderly s) (hcreated : Created s s' r rows) (hordered : Ordered r rows) :
    Orderly s' := by
  refine ⟨fun l x hx => ?_,fun l hl => ?_,fun l => hcreated.log l (hs.log l)⟩
  · rw [hcreated.runs] at hx
    rw [hcreated.steps]
    split at hx
    · rename_i hl
      subst hl
      obtain rfl := Option.some.inj hx
      rwa [Function.update_self]
    · rename_i hl
      rw [Function.update_of_ne hl]
      exact hs.runs l x hx
  · rw [hcreated.runs] at hl
    split at hl
    · cases hl
    · rename_i hne
      rw [hcreated.steps,Function.update_of_ne hne]
      exact hs.absent l hl

theorem Orderly.emitted (hs : Orderly s) (hemitted : Emitted events jobs s s') : Orderly s' := by
  refine ⟨fun l x hx => ?_,fun l hl => ?_,fun l => ?_⟩
  · rw [hemitted.runs] at hx
    rw [hemitted.steps]
    obtain ⟨r,hr,rfl⟩ := Option.map_eq_some_iff.mp hx
    have hordered := hs.runs l r hr
    rw [hr,Option.any_some]
    split
    · rename_i hstirs
      rw [hstirs,Bool.true_and]
      have hwoken := woken_ordered hordered (stirs_waiting hstirs)
      simp only [decide_eq_true_eq]
      exact hwoken
    · rename_i hquiet
      rw [Bool.not_eq_true] at hquiet
      rw [hquiet,Bool.false_and,if_neg Bool.false_ne_true]
      exact hordered
  · rw [hemitted.runs,Option.map_eq_none_iff] at hl
    rw [hemitted.steps,hl]
    exact hs.absent l hl
  · rw [hemitted.log]
    exact hs.log l

theorem effect_orderly (hs : Orderly s) (heffect : Effect h s call answer s') : Orderly s' := by
  cases heffect with
  | unchanged hsame hanswer =>
    refine ⟨fun id r hr => ?_,fun id hid => ?_,fun id => ?_⟩
    · rw [hsame.steps]
      exact hs.runs id r (hsame.runs ▸ hr)
    · rw [hsame.steps]
      exact hs.absent id (hsame.runs ▸ hid)
    · rw [hsame.log]
      exact hs.log id
  | turned ht hemitted hturn hfresh hnew =>
    exact (ht.orderly hs (turn_ordered hturn (hs.runs _ _ ht.found))).emitted hemitted
  | signalled hemitted hfresh => exact hs.emitted hemitted
  | @imported intent now c s' hcheck hcreated hledger hclear =>
    refine hcreated.orderly hs ?_
    have hnone : s.steps c.id = [] := hs.absent c.id hcreated.fresh
    rw [hnone,List.nil_append]
    exact import_ordered hcheck _
  | added horigin hsteps hstate hafter hnamed hschedule hcreated himports hanswer hcreates =>
    refine hcreated.orderly hs ⟨?_,fun hpos => absurd hsteps (Nat.ne_of_gt hpos)⟩
    rw [hs.absent _ hcreated.fresh,hsteps]
    rfl

end orderly

def RunState.ended : RunState → Bool
  | .completed | .failed | .interrupted | .deleted => true
  | .waiting | .releasing | .queued | .running => false

def Kept (r r' : Run) : Prop := r' = {r with state := r'.state,queuedAt := r'.queuedAt}

theorem turn_kept (hturn : Turn h call answer r rows r' rows' events jobs) : Kept r r' := by
  cases hturn with
  | _ => rfl

theorem turn_ended (hturn : Turn h call answer r rows r' rows' events jobs)
    (hended : r.state.ended = true) : r'.state = .deleted := by
  cases hturn with
  | deleted hstate => rfl
  | claimed _ hstate | claimedWhole hstate | advanced _ hstate | completed hstate | failed hstate
    | dumped hstate | completedWhole hstate | failedWhole _ hstate | endedLocally _ _ _ hstate
    | interrupted hstate | begun hstate | released hstate | expired hstate =>
      exact nomatch hstate ▸ hended

theorem emitted_run (hemitted : Emitted events jobs s s') (hr : s.runs.find id = some r) :
    ∃ r',s'.runs.find id = some r' ∧ Kept r r' ∧ (r.state ≠ .waiting → r' = r) := by
  refine ⟨if stirs events jobs r then woken r else r,?_,?_,fun hstate => ?_⟩
  · rw [hemitted.runs,hr]
    rfl
  · split
    · rfl
    · rfl
  · rw [if_neg fun hstirs => hstate (stirs_waiting hstirs)]

theorem Kept.trans {r'' : Run} (hr : Kept r r') (hr' : Kept r' r'') : Kept r r'' := by
  rw [Kept] at hr hr' ⊢
  rw [hr',hr]

theorem effect_run (heffect : Effect h s call answer s') (hr : s.runs.find id = some r) :
    ∃ r',s'.runs.find id = some r' ∧ Kept r r' ∧
      (r.state.ended = true → r'.state = r.state ∨ r'.state = .deleted) := by
  have hwaits : ∀ {x : Run},x.state.ended = true → x.state ≠ .waiting := fun hended hwaiting =>
    nomatch hwaiting ▸ hended
  cases heffect with
  | unchanged hsame hanswer => exact ⟨r,hsame.runs ▸ hr,rfl,fun _ => .inl rfl⟩
  | @turned _ _ x x' rows events jobs s₁ s' ht hemitted hturn hfresh hnew =>
    by_cases hid : id = x.id
    · subst hid
      obtain rfl := Option.some.inj (hr.symm.trans ht.found)
      obtain ⟨r',hr',hkept,hstays⟩ := emitted_run hemitted ht.self
      refine ⟨r',hr',(turn_kept hturn).trans hkept,fun hended => .inr ?_⟩
      have hdeleted := turn_ended hturn hended
      rw [hstays (hdeleted ▸ nofun),hdeleted]
    · have hfound : s₁.runs.find id = some r := by rw [ht.runs,if_neg hid,hr]
      obtain ⟨r',hr',hkept,hstays⟩ := emitted_run hemitted hfound
      exact ⟨r',hr',hkept,fun hended => .inl (by rw [hstays (hwaits hended)])⟩
  | signalled hemitted hfresh =>
    obtain ⟨r',hr',hkept,hstays⟩ := emitted_run hemitted hr
    exact ⟨r',hr',hkept,fun hended => .inl (by rw [hstays (hwaits hended)])⟩
  | imported hcheck hcreated hledger hclear =>
    refine ⟨r,?_,rfl,fun _ => .inl rfl⟩
    rw [hcreated.runs,if_neg fun hid => ?_,hr]
    rw [hid,hcreated.fresh] at hr
    exact nomatch hr
  | added horigin hsteps hstate hafter hnamed hschedule hcreated himports hanswer hcreates =>
    refine ⟨r,?_,rfl,fun _ => .inl rfl⟩
    rw [hcreated.runs,if_neg fun hid => ?_,hr]
    rw [hid,hcreated.fresh] at hr
    exact nomatch hr

section traces

variable {events : List Event}

theorem empty_find (id : Id) : ({} : Store).runs.find id = none := rfl

theorem trace_orderly (ht : Trace h events s) : Orderly s := by
  induction ht with
  | empty =>
    refine ⟨fun id r hr => ?_,fun _ _ => rfl,fun _ => rfl⟩
    rw [empty_find] at hr
    exact nomatch hr
  | step _ hstep ih => exact effect_orderly ih (step_effect hstep)

theorem trace_keeps {event : Event} (ht : Trace h events s) (hevent : event ∈ events)
    (hr : event.after.runs.find id = some r) : ∃ r',s.runs.find id = some r' ∧ Kept r r' ∧
      (r.state.ended = true → r'.state = r.state ∨ r'.state = .deleted) := by
  induction ht with
  | empty => exact nomatch hevent
  | @step before s s' call answer _ hstep ih =>
    rcases List.mem_append.mp hevent with hevent | hevent
    · obtain ⟨x,hx,hkept,hstays⟩ := ih hevent
      obtain ⟨r',hr',hkept',hstays'⟩ := effect_run (step_effect hstep) hx
      refine ⟨r',hr',hkept.trans hkept',fun hended => ?_⟩
      rcases hstays hended with hsame | hdeleted
      · rw [hsame] at hstays'
        exact hstays' hended
      · rw [hdeleted] at hstays'
        exact .inr ((hstays' rfl).elim (fun h => h) fun h => h)
    · rw [List.mem_singleton.mp hevent] at hr
      exact ⟨r,hr,rfl,fun _ => .inl rfl⟩

theorem imported_stepCount {intent : Intent} {now : Stamp} {c : Checked} {event : Event}
    (ht : Trace h events s) (hevent : event ∈ events) (hcall : event.call = .importIntent intent now)
    (hanswer : event.answer = .imported) (hcheck : check h intent = some c) :
    ∃ r,s.runs.find c.id = some r ∧ r.stepCount = (c.steps.map List.length).getD 0 := by
  obtain ⟨-,-,-,-,hstep⟩ := trace_step ht hevent
  rw [hcall,hanswer] at hstep
  obtain ⟨hcreated,-⟩ := effect_imported (step_effect hstep) hcheck
  have hafter := (hcreated.runs c.id).trans (if_pos rfl)
  obtain ⟨r,hr,hkept,-⟩ := trace_keeps ht hevent hafter
  refine ⟨r,hr,?_⟩
  rw [hkept]
  rfl

theorem states_orderly (ht : Trace h events s) :
    (∀ event ∈ events,∀ intent now c,event.call = .importIntent intent now →
      event.answer = .imported → check h intent = some c →
        ∃ r,s.runs.find c.id = some r ∧ r.stepCount = (c.steps.map List.length).getD 0) ∧
    (∀ id r,s.runs.find id = some r → 0 < r.stepCount →
      (s.steps id).map StepRow.number = List.range' 1 r.stepCount ∧ Shape (s.steps id) r.state) ∧
    (∀ event ∈ events,∀ id r,event.before.runs.find id = some r → r.state.ended = true →
      ∃ r',event.after.runs.find id = some r' ∧ (r'.state = r.state ∨ r'.state = .deleted)) ∧
    ∀ id,(s.log id).map LogRow.seq = List.range' 1 (s.log id).length := by
  have hs := trace_orderly ht
  refine ⟨fun event hevent intent now c => imported_stepCount ht hevent,fun id r hr hpos =>
    ⟨(hs.runs id r hr).numbers,(hs.runs id r hr).shape hpos⟩,fun event hevent id r hr hended => ?_,hs.log⟩
  obtain ⟨-,-,-,-,hstep⟩ := trace_step ht hevent
  obtain ⟨r',hr',-,hstays⟩ := effect_run (step_effect hstep) hr
  exact ⟨r',hr',hstays hended⟩

def sampleId : Id := List.replicate 32 'a'

def sampleIntent : Intent where
  intentId := sampleId
  sourceDb := "/db".toList
  client := "100".toList
  sysid := "OSD".toList
  jobname := "JOB".toList
  jobcount := "00000100".toList
  owner := "ANNA".toList
  program := "ZFIRST".toList
  generation := []
  steps := some [⟨1,"ZFIRST".toList,[]⟩,⟨2,"ZSECOND".toList,[]⟩]

set_option maxRecDepth 10000 in
theorem states_orderly_claimed : ∃ r,
    (happened plain [.importIntent sampleIntent 0,.claimNext .any none]).2.runs.find sampleId = some r ∧
      r.state = .running ∧
      Shape ((happened plain [.importIntent sampleIntent 0,.claimNext .any none]).2.steps sampleId)
        r.state := by
  have hrun : ((happened plain [.importIntent sampleIntent 0,.claimNext .any none]).2.runs.find
      sampleId).map (fun r => (r.state,r.stepCount)) = some (.running,2) := by decide +kernel
  obtain ⟨r,hr,hstate⟩ := Option.map_eq_some_iff.mp hrun
  obtain ⟨hrunning,hcount⟩ := Prod.mk.inj hstate
  have hordered := states_orderly (happened_trace plain [.importIntent sampleIntent 0,.claimNext .any none])
  exact ⟨r,hr,hrunning,(hordered.2.1 sampleId r hr (by rw [hcount]; decide)).2⟩

end traces

end OpenSteamgate.Jobs
