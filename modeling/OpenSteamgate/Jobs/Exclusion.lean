import OpenSteamgate.Jobs.Wakeups

namespace OpenSteamgate.Jobs

variable {h : Platform} {s s' s'' : Store} {id : Id} {r r' : Run} {rows rows' : List StepRow}
  {call : Call} {answer : Answer} {events : List NamedEvent} {jobs : List JobEvent}
  {before : Option Run} {work : Source} {step : Option Nat} {k : Nat}

def Call.within (work : Source) : Call → Prop
  | .claimNext scope _ => ∃ owner,scope = .source {work with owner := owner}
  | _ => True

def Source.held (work : Source) (r : Run) : Bool :=
  r.state = .running && r.queuedAt.isSome && (Scope.source work).holds r

theorem holds_owner (owner : Text) : (Scope.source {work with owner := owner}).holds r =
    (Scope.source work).holds r := by
  cases horigin : r.origin with
  | none => simp only [Scope.holds,horigin]
  | some origin => simp only [Scope.holds,horigin]

theorem claimed_run (hstep : Step h s call (.claimed id step) s') : ∃ scope runId r,
    call = .claimNext scope runId ∧ s.runs.find id = some r ∧
      s'.runs.find id = some {r with state := .running} ∧ r.state = .queued ∧ scope.claims r = true ∧
      ∀ k,step = some k → 0 < r.stepCount ∧ (s.steps id).countP (isStep k .ready) = 1 := by
  cases step_effect hstep with
  | unchanged hsame hquiet =>
    rcases hquiet with hquiet | hreserve
    · exact nomatch hquiet
    · subst hreserve
      cases hstep with
      | performed hcall => exact nomatch (ok_pair hcall).1
  | turned ht hemitted hturn hfresh hnew =>
    have hquiet := turn_leaves hturn
    have hafter := hemitted.runs
    cases hturn with
    | claimed k hqueued hclaims hpos hcount =>
      refine ⟨_,_,_,rfl,ht.found,?_,hqueued,hclaims,fun other hother => ?_⟩
      · rw [hafter,ht.self,Option.map_some,if_neg fun hstirs => hquiet (stirs_waiting hstirs)]
      · obtain rfl := Option.some.inj hother
        exact ⟨hpos,hcount⟩
    | claimedWhole hqueued hclaims hzero =>
      refine ⟨_,_,_,rfl,ht.found,?_,hqueued,hclaims,nofun⟩
      rw [hafter,ht.self,Option.map_some,if_neg fun hstirs => hquiet (stirs_waiting hstirs)]
  | added horigin hsteps hstate hafter hnamed hschedule hcreated himports hanswer hcreates => exact nomatch hanswer

theorem claimed_free {scope : Scope} {runId : Option Id}
    (hstep : Step h s (.claimNext scope runId) (.claimed id step) s') :
    ∀ r ∈ s.runs.rows,r.state = .running → r.queuedAt.isSome = true → scope.holds r = false := by
  cases hstep with
  | performed hcall =>
    rw [Store.perform,Store.claimNext] at hcall
    split at hcall
    · cases (ok_pair hcall).1
    · rename_i hfree
      rw [List.find?_eq_none] at hfree
      intro r hr hrunning hqueued
      have hnot := hfree r hr
      rw [decide_eq_true hrunning,hqueued,Bool.true_and,Bool.true_and] at hnot
      exact Bool.not_eq_true _ ▸ hnot

theorem within_free (hstep : Step h s call (.claimed id step) s') (hcall : call.within work) :
    ∀ r ∈ s.runs.rows,work.held r = false := by
  obtain ⟨scope,runId,-,rfl,-⟩ := claimed_run hstep
  obtain ⟨owner,rfl⟩ := hcall
  have hfree := claimed_free hstep
  intro r hr
  rw [Source.held,← Bool.not_eq_true,Bool.and_eq_true,Bool.and_eq_true,decide_eq_true_eq]
  rintro ⟨⟨hrunning,hqueued⟩,hholds⟩
  have hnot := hfree r hr hrunning hqueued
  rw [holds_owner,hholds] at hnot
  exact nomatch hnot

theorem change_held (hchange : Change h s call answer events jobs before rows r' rows')
    (hheld : work.held r' = true) : before = some r' ∨ ∃ step,answer = .claimed r'.id step := by
  rw [Source.held,Bool.and_eq_true,Bool.and_eq_true,decide_eq_true_eq] at hheld
  obtain ⟨⟨hrunning,hqueued⟩,-⟩ := hheld
  cases hchange with
  | same hquiet => exact .inl rfl
  | woken => cases hrunning
  | turned hfound hturn =>
    cases hturn with
    | claimed k => exact .inr ⟨some k,rfl⟩
    | claimedWhole => exact .inr ⟨none,rfl⟩
    | endedLocally state hcalled hstate => rcases hstate with rfl | rfl <;> cases hrunning
    | _ => cases hrunning
  | imported =>
    rw [Store.runOf] at hrunning
    split at hrunning
    · cases hrunning
    · cases hrunning
  | added hlocal hsteps hstate hafter hnamed hschedule =>
    rcases hstate with ⟨-,hnone⟩ | hstate
    · rw [hnone] at hqueued
      cases hqueued
    · rw [hstate] at hrunning
      cases hrunning

def Exclusive (work : Source) (s : Store) : Prop :=
  ∀ id id' r r',s.runs.find id = some r → s.runs.find id' = some r' → work.held r = true →
    work.held r' = true → id = id'

theorem step_exclusive (hs : Exclusive work s) (hstep : Step h s call answer s')
    (hcall : call.within work) : Exclusive work s' := by
  obtain ⟨events,jobs,-,-,-,hchange⟩ := effect_change (step_effect hstep)
  intro id id' r r' hr hr' hheld hheld'
  have hclaimed : ∀ {id x step},s.runs.find id = some x → work.held x = true →
      answer ≠ .claimed r.id step ∧ answer ≠ .claimed r'.id step := by
    intro id x step hx hxheld
    refine ⟨fun hanswer => ?_,fun hanswer => ?_⟩
    · rw [hanswer] at hstep
      have hfree := within_free hstep hcall x (Table.find_mem hx).1
      rw [hxheld] at hfree
      exact nomatch hfree
    · rw [hanswer] at hstep
      have hfree := within_free hstep hcall x (Table.find_mem hx).1
      rw [hxheld] at hfree
      exact nomatch hfree
  rcases change_held (hchange id r hr) hheld with hold | ⟨step,hanswer⟩
  · rcases change_held (hchange id' r' hr') hheld' with hold' | ⟨step',hanswer'⟩
    · exact hs id id' r r' hold hold' hheld hheld'
    · exact absurd hanswer' (hclaimed hold hheld).2
  · rcases change_held (hchange id' r' hr') hheld' with hold' | ⟨step',hanswer'⟩
    · exact absurd hanswer (hclaimed hold' hheld').1
    · rw [hanswer] at hanswer'
      rw [← Table.find_key hr,← Table.find_key hr']
      exact (Answer.claimed.inj hanswer').1

section handed

variable {handed : List Nat}

def given (id : Id) (answer : Answer) : List Nat :=
  match answer with
  | .claimed run (some number) => if run = id then [number] else []
  | _ => []

def handedOut (id : Id) (events : List Event) : List Nat :=
  events.flatMap fun event => given id event.answer

structure Handed (r : Run) (rows : List StepRow) (handed : List Nat) : Prop where
  first : ∃ m,handed = List.range' 1 m
  pending : r.state = .waiting ∨ r.state = .releasing → handed = []
  ready : ∀ row ∈ rows,row.state = .ready → handed = List.range' 1 (row.number - 1)
  running : ∀ row ∈ rows,row.state = .running → handed = List.range' 1 row.number

theorem Handed.over (hfirst : ∃ m,handed = List.range' 1 m)
    (hstate : r.state ≠ .waiting ∧ r.state ≠ .releasing)
    (hrows : ∀ row ∈ rows,row.state ≠ .ready ∧ row.state ≠ .running) : Handed r rows handed :=
  ⟨hfirst,fun hwaits => (hwaits.elim hstate.1 hstate.2).elim,
    fun row hrow hready => absurd hready (hrows row hrow).1,
    fun row hrow hrunning => absurd hrunning (hrows row hrow).2⟩

theorem cut_over {a b : StepState} (hcut : Cut a b rows) (ha : a ≠ .ready ∧ a ≠ .running)
    (hb : b ≠ .ready ∧ b ≠ .running) : ∀ row ∈ rows,row.state ≠ .ready ∧ row.state ≠ .running := by
  obtain ⟨done,row,rest,rfl,hdone,hrow,hrest⟩ := hcut
  intro other hother
  rcases List.mem_append.mp hother with hother | hother
  · rw [hdone other hother]
    exact ⟨nofun,nofun⟩
  · rcases List.mem_cons.mp hother with rfl | hother
    · rw [hrow]
      exact ha
    · rw [hrest other hother]
      exact hb

theorem cut_only {done rest : List StepRow} {row other : StepRow} {b : StepState}
    (hdone : ∀ row ∈ done,row.state = .completed) (hrest : ∀ row ∈ rest,row.state = b)
    (hother : other ∈ done ++ row :: rest) (hcompleted : other.state ≠ .completed)
    (hb : other.state ≠ b) : other = row := by
  rcases List.mem_append.mp hother with hother | hother
  · exact absurd (hdone other hother) hcompleted
  · rcases List.mem_cons.mp hother with heq | hother
    · exact heq
    · exact absurd (hrest other hother) hb

theorem Handed.readied (hrows : Ordered r rows) (hpos : 0 < r.stepCount)
    (hwaits : r.state = .waiting ∨ r.state = .releasing) (hhanded : Handed r rows handed)
    (hstate : r'.state = .queued) : Handed r' (mark (isStep 1 .pending) .ready rows) handed := by
  have hpending : ∀ row ∈ rows,row.state = .pending := by
    rcases hwaits with hstate | hstate
    · exact hrows.shapeOf hpos hstate
    · exact hrows.shapeOf hpos hstate
  have hempty := hhanded.pending hwaits
  refine ⟨⟨0,hempty⟩,fun hstill => ?_,fun row hrow hready => ?_,fun row hrow hrunning => ?_⟩
  · rw [hstate] at hstill
    rcases hstill with h | h <;> cases h
  · obtain ⟨old,hold,rfl⟩ := List.mem_map.mp hrow
    have hnumber : old.number = 1 := by
      by_contra hne
      rw [isStep,decide_eq_false hne,Bool.false_and,if_neg Bool.false_ne_true,hpending old hold] at hready
      cases hready
    have hkept : (if isStep 1 .pending old then {old with state := .ready} else old).number = 1 := by
      split
      · exact hnumber
      · exact hnumber
    rw [hempty,hkept]
    rfl
  · obtain ⟨old,hold,rfl⟩ := List.mem_map.mp hrow
    split at hrunning
    · cases hrunning
    · rw [hpending old hold] at hrunning
      cases hrunning

theorem Handed.ended (hhanded : Handed r rows handed) {list : List Nat} (hlist : list = handed)
    (hstate : r'.state ≠ .waiting ∧ r'.state ≠ .releasing)
    (hrows : ∀ row ∈ rows',row.state ≠ .ready ∧ row.state ≠ .running) : Handed r' rows' list :=
  .over (hlist ▸ hhanded.first) hstate hrows

theorem turn_handed (hturn : Turn h call answer r rows r' rows' events jobs) (hrows : Ordered r rows)
    (hrows' : Ordered r' rows') (hpos : 0 < r.stepCount) (hhanded : Handed r rows handed) :
    Handed r' rows' (handed ++ given r.id answer) := by
  cases hturn with
  | claimed k hqueued hclaims hcount hone =>
    have hcut : Cut .ready .pending rows := hrows.shapeOf hpos hqueued
    obtain ⟨done,row,rest,rfl,hdone,hready,hnumber,hrest,hmark⟩ :=
      mark_cut hcut hone nofun nofun .running
    have hmem : row ∈ done ++ row :: rest := List.mem_append_right _ List.mem_cons_self
    have hlist := hhanded.ready row hmem hready
    have hnumbers := List.mem_map_of_mem (f := StepRow.number) hmem
    rw [hrows.numbers,List.mem_range'_1,hnumber] at hnumbers
    have hnew : handed ++ given r.id (.claimed r.id (some k)) = List.range' 1 k := by
      obtain ⟨k,rfl⟩ := Nat.exists_eq_add_of_le' hnumbers.1
      rw [hlist,hnumber,given,if_pos rfl,List.range'_concat,Nat.add_sub_cancel,Nat.one_mul,Nat.add_comm k]
    rw [hmark,hnew]
    refine ⟨⟨k,rfl⟩,fun hwaits => ?_,fun other hother hstate => ?_,fun other hother hstate => ?_⟩
    · rcases hwaits with h | h <;> exact nomatch h
    · have honly := cut_only hdone hrest hother (by rw [hstate]; exact nofun) (by rw [hstate]; exact nofun)
      rw [honly] at hstate
      exact nomatch hstate
    · have honly := cut_only hdone hrest hother (by rw [hstate]; exact nofun) (by rw [hstate]; exact nofun)
      rw [honly]
      exact congrArg (List.range' 1) hnumber.symm
  | @advanced _ _ _ k next hrunning hcount hnext =>
    have hcut : Cut .running .pending rows := hrows.shapeOf hpos hrunning
    obtain ⟨done,row,rest,rfl,hdone,hactive,rfl,hrest,hmark⟩ :=
      mark_cut hcut hcount nofun nofun .completed
    rw [later_cut hrows.numbers] at hnext
    have hmem : row ∈ done ++ row :: rest := List.mem_append_right _ List.mem_cons_self
    have hlist := hhanded.running row hmem hactive
    cases rest with
    | nil => exact nomatch hnext
    | cons first rest =>
      obtain rfl : first.number = next := Option.some.inj hnext
      have hafter := next_number hrows.numbers
      have hdone' : ∀ other ∈ done ++ [{row with state := .completed}],other.state = .completed := by
        intro other hother
        rcases List.mem_append.mp hother with hother | hother
        · exact hdone other hother
        · rw [List.mem_singleton.mp hother]
      have hrest' : ∀ other ∈ rest,other.state = .pending :=
        fun other hother => hrest other (List.mem_cons_of_mem first hother)
      rw [hmark,next_mark hrows.numbers hdone hrest,List.append_cons,
        show handed ++ given r.id .advanced = handed from List.append_nil handed]
      refine ⟨hhanded.first,fun hwaits => ?_,fun other hother hstate => ?_,fun other hother hstate => ?_⟩
      · rcases hwaits with h | h <;> exact nomatch h
      · have honly := cut_only hdone' hrest' hother (by rw [hstate]; exact nofun) (by rw [hstate]; exact nofun)
        rw [honly,hlist]
        exact congrArg (List.range' 1) (Nat.eq_sub_of_add_eq hafter.symm)
      · have honly := cut_only hdone' hrest' hother (by rw [hstate]; exact nofun) (by rw [hstate]; exact nofun)
        rw [honly] at hstate
        exact nomatch hstate
  | completed hrunning hcount hlast htails hends hjobs =>
    refine hhanded.ended (List.append_nil _) ⟨nofun,nofun⟩ fun row hrow => ?_
    have hall : ∀ row ∈ mark _ _ rows,row.state = .completed := hrows'.shapeOf hpos rfl
    rw [hall row hrow]
    exact ⟨nofun,nofun⟩
  | failed hrunning hcount hends =>
    have hcut : Cut .failed .skipped (mark _ _ (mark _ _ rows)) := hrows'.shapeOf hpos rfl
    exact hhanded.ended (List.append_nil _) ⟨nofun,nofun⟩ (cut_over hcut ⟨nofun,nofun⟩ ⟨nofun,nofun⟩)
  | dumped hrunning hcount =>
    have hcut : Cut .failed .skipped (mark _ _ (mark _ _ rows)) := hrows'.shapeOf hpos rfl
    exact hhanded.ended (List.append_nil _) ⟨nofun,nofun⟩ (cut_over hcut ⟨nofun,nofun⟩ ⟨nofun,nofun⟩)
  | interrupted hrunning hqueued hcount hends =>
    have hcut : Cut .interrupted .skipped (mark _ _ (mark _ _ rows)) := hrows'.shapeOf hpos rfl
    exact hhanded.ended (List.append_nil _) ⟨nofun,nofun⟩ (cut_over hcut ⟨nofun,nofun⟩ ⟨nofun,nofun⟩)
  | expired hreleasing hscheduled hlate =>
    have hcut : Cut .failed .skipped (mark _ _ (mark _ _ rows)) := hrows'.shapeOf hpos rfl
    exact hhanded.ended (List.append_nil _) ⟨nofun,nofun⟩ (cut_over hcut ⟨nofun,nofun⟩ ⟨nofun,nofun⟩)
  | begun hwaiting hscheduled =>
    exact ⟨(List.append_nil handed).symm ▸ hhanded.first,
      fun _ => (List.append_nil handed).trans (hhanded.pending (.inl hwaiting)),
      fun row hrow hready => (List.append_nil handed).trans (hhanded.ready row hrow hready),
      fun row hrow hrunning => (List.append_nil handed).trans (hhanded.running row hrow hrunning)⟩
  | released hreleasing hscheduled hsteps hcount =>
    rw [show handed ++ given r.id .released = handed from List.append_nil handed]
    exact hhanded.readied hrows hpos (.inr hreleasing) rfl
  | deleted hstate =>
    exact ⟨(List.append_nil handed).symm ▸ hhanded.first,fun hwaits => hwaits.elim nofun nofun,
      fun row hrow hready => (List.append_nil handed).trans (hhanded.ready row hrow hready),
      fun row hrow hrunning => (List.append_nil handed).trans (hhanded.running row hrow hrunning)⟩
  | claimedWhole _ _ hzero | completedWhole _ hzero | failedWhole _ _ hzero
    | endedLocally _ _ _ _ hzero => exact absurd hzero (Nat.ne_of_gt hpos)

theorem Handed.nothing (hpending : ∀ row ∈ rows,row.state = .pending) : Handed r rows [] := by
  refine ⟨⟨0,rfl⟩,fun _ => rfl,fun row hrow hready => ?_,fun row hrow hrunning => ?_⟩
  · rw [hpending row hrow] at hready
    exact nomatch hready
  · rw [hpending row hrow] at hrunning
    exact nomatch hrunning

theorem import_handed {intent : Intent} {c : Checked} {now : Stamp} (hcheck : check h intent = some c)
    (released : Bool) (hpos : 0 < (Store.runOf c now released).stepCount) :
    Handed (Store.runOf c now released) ((c.steps.map (Store.stepRows released)).getD []) [] := by
  have hwaits : Ordered (Store.runOf c now false) ((c.steps.map (Store.stepRows false)).getD []) :=
    import_ordered hcheck false
  have hpending : ∀ row ∈ (c.steps.map (Store.stepRows false)).getD [],row.state = .pending :=
    hwaits.shapeOf hpos rfl
  cases released with
  | false => exact .nothing hpending
  | true =>
    rw [stepRows_mark]
    exact (Handed.nothing hpending).readied hwaits hpos (.inl rfl) rfl

structure Dealt (s : Store) (events : List Event) : Prop where
  absent : ∀ id,s.runs.find id = none → handedOut id events = []
  whole : ∀ id r,s.runs.find id = some r → r.stepCount = 0 → handedOut id events = []
  stepped : ∀ id r,s.runs.find id = some r → 0 < r.stepCount →
    Handed r (s.steps id) (handedOut id events)

theorem given_claimed (hgiven : given id answer ≠ []) : ∃ k,answer = .claimed id (some k) := by
  unfold given at hgiven
  split at hgiven
  · rename_i run number
    split at hgiven
    · rename_i hrun
      exact ⟨number,hrun ▸ rfl⟩
    · exact absurd rfl hgiven
  · exact absurd rfl hgiven

theorem given_nothing (id : Id) (hstep : Step h s call answer s')
    (hother : ∀ r,s.runs.find id = some r → r.state = .queued →
      s'.runs.find id ≠ some {r with state := .running}) : given id answer = [] := by
  by_contra hgiven
  obtain ⟨k,rfl⟩ := given_claimed hgiven
  obtain ⟨-,-,r,-,hr,hr',hqueued,-⟩ := claimed_run hstep
  exact hother r hr hqueued hr'

theorem handedOut_append {earlier : List Event} {event : Event} :
    handedOut id (earlier ++ [event]) = handedOut id earlier ++ given id event.answer := by
  rw [handedOut,List.flatMap_append,List.flatMap_singleton]
  rfl

theorem change_handed {handed : List Nat} (hstep : Step h s call answer s')
    (hchange : Change h s call answer events jobs before rows r' rows')
    (hbefore : s.runs.find id = before) (hrow : s.steps id = rows) (hr' : s'.runs.find id = some r')
    (hs : Orderly s) (hordered : Ordered r' rows')
    (habsent : before = none → handed = []) (hwhole : ∀ r,before = some r → r.stepCount = 0 → handed = [])
    (hstepped : ∀ r,before = some r → 0 < r.stepCount → Handed r rows handed) :
    (r'.stepCount = 0 → handed ++ given id answer = []) ∧
      (0 < r'.stepCount → Handed r' rows' (handed ++ given id answer)) := by
  cases hchange with
  | same hquiet =>
    have hnothing := given_nothing id hstep fun r hr hqueued hrunning => by
      rw [hbefore] at hr
      rw [hr'] at hrunning
      have hsame := (Option.some.inj hr).symm.trans (Option.some.inj hrunning)
      rw [hsame] at hqueued
      exact nomatch hqueued
    rw [hnothing,List.append_nil]
    exact ⟨hwhole _ rfl,hstepped _ rfl⟩
  | @woken _ _ r _ hstirs =>
    have hwaiting := stirs_waiting hstirs
    have hnothing := given_nothing id hstep fun x hx hqueued hrunning => by
      rw [hbefore] at hx
      rw [Option.some.inj hx,hqueued] at hwaiting
      exact nomatch hwaiting
    rw [hnothing,List.append_nil]
    refine ⟨hwhole r rfl,fun hpos => ?_⟩
    have hpositive : 0 < r.stepCount := hpos
    rw [if_pos hpositive]
    exact (hstepped r rfl hpositive).readied (hrow ▸ hs.runs id r hbefore) hpositive (.inl hwaiting) rfl
  | @turned _ _ r _ _ hfound hturn =>
    obtain rfl := Table.find_key hbefore
    have hkept := turn_kept hturn
    refine ⟨fun hzero => ?_,fun hpos => ?_⟩
    · rw [hkept] at hzero
      rw [hwhole _ rfl hzero,List.nil_append]
      by_contra hgiven
      obtain ⟨k,rfl⟩ := given_claimed hgiven
      obtain ⟨-,-,x,-,hx,-,-,-,hsteps⟩ := claimed_run hstep
      obtain rfl := Option.some.inj (hfound.symm.trans hx)
      exact absurd hzero (Nat.ne_of_gt (hsteps k rfl).1)
    · rw [hkept] at hpos
      exact turn_handed hturn (hs.runs _ _ hfound) hordered hpos (hstepped _ rfl hpos)
  | imported hcall hcheck hclear =>
    have hnothing := given_nothing id hstep fun x hx _ _ => by
      rw [hbefore] at hx
      exact nomatch hx
    rw [hnothing,habsent rfl,← hrow,hs.absent id hbefore]
    exact ⟨fun _ => rfl,import_handed hcheck _⟩
  | added hlocal hsteps hstate hafter hnamed hschedule =>
    have hnothing := given_nothing id hstep fun x hx _ _ => by
      rw [hbefore] at hx
      exact nomatch hx
    rw [hnothing,habsent rfl]
    exact ⟨fun _ => rfl,fun hpos => absurd hsteps (Nat.ne_of_gt hpos)⟩

theorem step_dealt {earlier : List Event} (hs : Orderly s) (hdealt : Dealt s earlier)
    (hstep : Step h s call answer s') : Dealt s' (earlier ++ [⟨call,answer,s,s'⟩]) := by
  have heffect := step_effect hstep
  have hs' := effect_orderly hs heffect
  obtain ⟨events,jobs,-,-,-,hchange⟩ := effect_change heffect
  have hboth : ∀ id r,s'.runs.find id = some r →
      (r.stepCount = 0 → handedOut id earlier ++ given id answer = []) ∧
        (0 < r.stepCount → Handed r (s'.steps id) (handedOut id earlier ++ given id answer)) :=
    fun id r hr => change_handed hstep (hchange id r hr) rfl rfl hr hs (hs'.runs id r hr)
      (hdealt.absent id) (hdealt.whole id) (hdealt.stepped id)
  refine ⟨fun id hnone => ?_,fun id r hr => ?_,fun id r hr => ?_⟩
  · have hbefore : s.runs.find id = none := by
      cases hold : s.runs.find id with
      | none => rfl
      | some r =>
        obtain ⟨r',hr',-,-⟩ := effect_run heffect hold
        exact nomatch hr'.symm.trans hnone
    rw [handedOut_append,hdealt.absent id hbefore,given_nothing id hstep fun r hr _ _ => nomatch hbefore.symm.trans hr]
    rfl
  · rw [handedOut_append]
    exact (hboth id r hr).1
  · rw [handedOut_append]
    exact (hboth id r hr).2

theorem trace_dealt {events : List Event} (ht : Trace h events s) : Dealt s events := by
  induction ht with
  | empty => exact ⟨fun _ _ => rfl,fun _ _ _ _ => rfl,fun id r hr => nomatch (empty_find id).symm.trans hr⟩
  | step htrace hstep ih => exact step_dealt (trace_orderly htrace) ih hstep

end handed

theorem claimed_order (hs : Orderly s) (hstep : Step h s call (.claimed id (some k)) s') :
    ∀ row ∈ s.steps id,row.number < k → row.state = .completed := by
  obtain ⟨-,-,r,-,hr,-,hqueued,-,hsteps⟩ := claimed_run hstep
  obtain ⟨hpos,hcount⟩ := hsteps k rfl
  have hordered := hs.runs id r hr
  have hcut : Cut .ready .pending (s.steps id) := hordered.shapeOf hpos hqueued
  obtain ⟨done,row,rest,hrows,hdone,-,rfl,-,-⟩ := mark_cut hcut hcount nofun nofun .running
  have hsorted := sorted_numbers hordered.numbers
  rw [hrows,List.pairwise_append,List.pairwise_cons] at hsorted
  obtain ⟨-,⟨hafter,-⟩,-⟩ := hsorted
  intro other hother hlt
  rw [hrows] at hother
  rcases List.mem_append.mp hother with hother | hother
  · exact hdone other hother
  · rcases List.mem_cons.mp hother with rfl | hother
    · exact absurd hlt (Nat.lt_irrefl _)
    · exact absurd (hafter other hother) (Nat.not_lt.mpr (Nat.le_of_lt hlt))

section later

def Call.ends (id : Id) : Call → Bool
  | .finish run _ | .fail run | .finishStep run _ _ | .failStep run _ | .interruptQueued run => run = id
  | _ => false

theorem held_step (hr : s.runs.find id = some r) (hheld : work.held r = true)
    (hstep : Step h s call answer s') (hcall : call.within work) (hends : call.ends id = false) :
    s'.runs.find id = some r ∧ ∀ run step,answer ≠ .claimed run step := by
  have hanswer : ∀ run step,answer ≠ .claimed run step := by
    rintro run step rfl
    have hfree := within_free hstep hcall r (Table.find_mem hr).1
    rw [hheld] at hfree
    exact nomatch hfree
  refine ⟨?_,hanswer⟩
  rw [Source.held,Bool.and_eq_true,Bool.and_eq_true,decide_eq_true_eq] at hheld
  obtain ⟨⟨hrunning,-⟩,-⟩ := hheld
  have heffect := step_effect hstep
  obtain ⟨events,jobs,-,-,-,hchange⟩ := effect_change heffect
  obtain ⟨r',hr',-,-⟩ := effect_run heffect hr
  have hbecomes := hchange id r' hr'
  rw [hr] at hbecomes
  generalize s.steps id = rows at hbecomes
  generalize s'.steps id = rows' at hbecomes
  cases hbecomes with
  | same hquiet => exact hr'
  | woken hstirs => exact nomatch hrunning.symm.trans (stirs_waiting hstirs)
  | turned hfound hturn =>
    obtain rfl := Table.find_key hr
    cases hturn with
    | claimed k => exact absurd rfl (hanswer _ _)
    | claimedWhole => exact absurd rfl (hanswer _ _)
    | advanced | completed | failed | dumped | completedWhole => simp [Call.ends] at hends
    | failedWhole hcalled =>
      rcases hcalled with rfl | ⟨result,rfl⟩ <;> simp [Call.ends] at hends
    | endedLocally state hcalled =>
      rcases hcalled with rfl | ⟨result,rfl⟩ <;> simp [Call.ends] at hends
    | interrupted => simp [Call.ends] at hends
    | begun hwaiting => exact nomatch hrunning.symm.trans hwaiting
    | released hreleasing => exact nomatch hrunning.symm.trans hreleasing
    | expired hreleasing => exact nomatch hrunning.symm.trans hreleasing
    | deleted hstate =>
      rw [hrunning] at hstate
      rcases hstate with h | h | h | h <;> exact nomatch h

theorem held_later {events : List Event} (hr : s.runs.find id = some r) (hheld : work.held r = true)
    (hlater : Later h s events s') (hcalls : ∀ event ∈ events,event.call.within work ∧
      event.call.ends id = false) :
    s'.runs.find id = some r ∧ ∀ event ∈ events,∀ run step,event.answer ≠ .claimed run step := by
  induction hlater with
  | nothing => exact ⟨hr,List.forall_mem_nil _⟩
  | @step events s' s'' call answer hlater hstep ih =>
    obtain ⟨hthere,hnone⟩ := ih fun event hevent => hcalls event (List.mem_append_left _ hevent)
    obtain ⟨hwithin,hends⟩ := hcalls _ (List.mem_append_right _ (List.mem_singleton_self _))
    obtain ⟨hstays,hanswer⟩ := held_step hthere hheld hstep hwithin hends
    refine ⟨hstays,fun event hevent => ?_⟩
    rcases List.mem_append.mp hevent with hevent | hevent
    · exact hnone event hevent
    · rw [List.mem_singleton.mp hevent]
      exact hanswer

theorem ended_later {events : List Event} (hr : s.runs.find id = some r) (hended : r.state.ended = true)
    (hlater : Later h s events s') :
    (∃ r',s'.runs.find id = some r' ∧ r'.state.ended = true) ∧
      ∀ event ∈ events,∀ step,event.answer ≠ .claimed id step := by
  induction hlater with
  | nothing => exact ⟨⟨r,hr,hended⟩,List.forall_mem_nil _⟩
  | @step events s' s'' call answer hlater hstep ih =>
    obtain ⟨⟨x,hx,hx_ended⟩,hnone⟩ := ih
    obtain ⟨x',hx',-,hstays⟩ := effect_run (step_effect hstep) hx
    refine ⟨⟨x',hx',?_⟩,fun event hevent step => ?_⟩
    · rcases hstays hx_ended with hsame | hdeleted
      · rw [hsame]
        exact hx_ended
      · rw [hdeleted]
        rfl
    · rcases List.mem_append.mp hevent with hevent | hevent
      · exact hnone event hevent step
      · rw [List.mem_singleton.mp hevent]
        rintro rfl
        obtain ⟨-,-,y,-,hy,-,hqueued,-⟩ := claimed_run hstep
        rw [Option.some.inj (hx.symm.trans hy),hqueued] at hx_ended
        exact nomatch hx_ended

end later

section traces

variable {events : List Event}

theorem claims_source {owner : Text} (hclaims : (Scope.source {work with owner := owner}).claims r = true) :
    r.origin = none ∨ ∃ origin,r.origin = some origin ∧ origin.db = work.db ∧
      origin.client = work.client ∧ origin.sysid = work.sysid ∧ origin.owner = owner ∧
      (r.sourceInstance = none ∨ r.sourceInstance = work.inst) := by
  cases horigin : r.origin with
  | none => exact .inl rfl
  | some origin =>
    simp only [Scope.claims,horigin,instanceFits,Bool.and_eq_true,Bool.or_eq_true,
      decide_eq_true_eq] at hclaims
    obtain ⟨⟨⟨⟨hdb,hclient⟩,hsysid⟩,howner⟩,hinst⟩ := hclaims
    exact .inr ⟨origin,rfl,hdb,hclient,hsysid,howner,hinst⟩

theorem trace_exclusive (ht : Trace h events s) (hcalls : ∀ event ∈ events,event.call.within work) :
    Exclusive work s := by
  induction ht with
  | empty => exact fun id _ r _ hr => nomatch (empty_find id).symm.trans hr
  | step htrace hstep ih =>
    exact step_exclusive (ih fun event hevent => hcalls event (List.mem_append_left _ hevent)) hstep
      (hcalls _ (List.mem_append_right _ (List.mem_singleton_self _)))

theorem work_exclusive (ht : Trace h events s) (hcalls : ∀ event ∈ events,event.call.within work) :
    (∀ id id' r r',s.runs.find id = some r → s.runs.find id' = some r' → work.held r = true →
      work.held r' = true → id = id') ∧
    (∀ id,∃ m,handedOut id events = List.range' 1 m) ∧
    (∀ event ∈ events,∀ id k,event.answer = .claimed id (some k) →
      ∀ row ∈ event.before.steps id,row.number < k → row.state = .completed) ∧
    (∀ event ∈ events,∀ id step,event.answer = .claimed id step → ∃ owner runId r,
      event.call = .claimNext (.source {work with owner := owner}) runId ∧
      event.before.runs.find id = some r ∧ (r.origin = none ∨ ∃ origin,r.origin = some origin ∧
        origin.db = work.db ∧ origin.client = work.client ∧ origin.sysid = work.sysid ∧
        origin.owner = owner ∧ (r.sourceInstance = none ∨ r.sourceInstance = work.inst))) ∧
    (∀ id r later s',s.runs.find id = some r → work.held r = true → Later h s later s' →
      (∀ event ∈ later,event.call.within work ∧ event.call.ends id = false) →
      s'.runs.find id = some r ∧ ∀ event ∈ later,∀ run step,event.answer ≠ .claimed run step) ∧
    ∀ id r later s',s.runs.find id = some r → r.state.ended = true → Later h s later s' →
      ∀ event ∈ later,∀ step,event.answer ≠ .claimed id step := by
  have hdealt := trace_dealt ht
  refine ⟨trace_exclusive ht hcalls,fun id => ?_,fun event hevent id k hanswer => ?_,
    fun event hevent id step hanswer => ?_,fun id r later s' hr hheld => held_later hr hheld,
    fun id r later s' hr hended hlater => (ended_later hr hended hlater).2⟩
  · cases hfind : s.runs.find id with
    | none => exact ⟨0,hdealt.absent id hfind⟩
    | some r =>
      rcases Nat.eq_zero_or_pos r.stepCount with hzero | hpos
      · exact ⟨0,hdealt.whole id r hfind hzero⟩
      · exact (hdealt.stepped id r hfind hpos).first
  · obtain ⟨first,rest,-,hfirst,hstep⟩ := trace_step ht hevent
    rw [hanswer] at hstep
    exact claimed_order (trace_orderly hfirst) hstep
  · obtain ⟨first,rest,-,-,hstep⟩ := trace_step ht hevent
    rw [hanswer] at hstep
    obtain ⟨scope,runId,r,hcall,hr,-,-,hclaims,-⟩ := claimed_run hstep
    have hwithin := hcalls event hevent
    rw [hcall] at hwithin
    obtain ⟨owner,rfl⟩ := hwithin
    exact ⟨owner,runId,r,hcall,hr,claims_source hclaims⟩

def otherWork : Source where
  db := "/db".toList
  client := "100".toList
  sysid := "OSD".toList
  owner := "ANNA".toList
  inst := some (List.replicate 32 '0')

def otherCalls : List Call := [.importIntent knownIntent 0,.claimNext (.source otherWork) none]

theorem otherCalls_within : ∀ call ∈ otherCalls,call.within otherWork := by
  intro call hcall
  rcases List.mem_cons.mp hcall with rfl | hcall
  · trivial
  · rw [List.mem_singleton.mp hcall]
    exact ⟨otherWork.owner,rfl⟩

theorem replay_calls (earlier : List Event) (s : Store) (calls : List Call) :
    (replay h earlier s calls).1.map Event.call = earlier.map Event.call ++ calls := by
  induction calls generalizing earlier s with
  | nil => exact (List.append_nil _).symm
  | cons call calls ih =>
    rw [replay,ih,List.map_append,List.append_assoc]
    rfl

theorem happened_calls {calls : List Call} {p : Call → Prop} (hcalls : ∀ call ∈ calls,p call) :
    ∀ event ∈ (happened h calls).1,p event.call := by
  intro event hevent
  have hmem := List.mem_map_of_mem (f := Event.call) hevent
  rw [happened,replay_calls] at hmem
  exact hcalls _ hmem

def secondId : Id := List.replicate 32 'b'

def secondIntent : Intent := {sampleIntent with intentId := secondId,owner := "BERTA".toList}

def secondWork : Source := {otherWork with owner := "BERTA".toList}

def ownersCalls : List Call :=
  [.importIntent sampleIntent 0,.importIntent secondIntent 1,.claimNext (.source otherWork) none,
    .claimNext (.source secondWork) none,.finishStep sampleId 1 ⟨"COMPLETED".toList,0⟩,
    .claimNext (.source secondWork) none,.claimNext (.source otherWork) none,
    .finishStep secondId 1 ⟨"COMPLETED".toList,0⟩,.claimNext (.source otherWork) none]

theorem ownersCalls_within : ∀ call ∈ ownersCalls,call.within otherWork := by
  simp only [ownersCalls,List.forall_mem_cons,Call.within]
  exact ⟨trivial,trivial,⟨_,rfl⟩,⟨_,rfl⟩,trivial,⟨_,rfl⟩,⟨_,rfl⟩,trivial,⟨_,rfl⟩,List.forall_mem_nil _⟩

set_option maxRecDepth 10000 in
theorem work_exclusive_owners : handedOut sampleId (happened plain ownersCalls).1 = [1,2] ∧
    handedOut secondId (happened plain ownersCalls).1 = [1] := by
  obtain ⟨-,hfirst,-⟩ := work_exclusive (happened_trace plain ownersCalls) (happened_calls ownersCalls_within)
  obtain ⟨m,hm⟩ := hfirst sampleId
  obtain ⟨k,hk⟩ := hfirst secondId
  have htwo : (handedOut sampleId (happened plain ownersCalls).1).length = 2 := by decide +kernel
  have hone : (handedOut secondId (happened plain ownersCalls).1).length = 1 := by decide +kernel
  rw [hm,List.length_range'] at htwo
  rw [hk,List.length_range'] at hone
  subst htwo hone
  exact ⟨hm,hk⟩

set_option maxRecDepth 10000 in
theorem other_instance_claimed : (∀ event ∈ (happened plain otherCalls).1,event.call.within otherWork) ∧
    ¬∀ event ∈ (happened plain otherCalls).1,∀ id step,event.answer = .claimed id step →
      ∀ r,event.before.runs.find id = some r → r.origin = none ∨ r.sourceInstance = otherWork.inst ∨
        r.jobEndInstance = otherWork.inst := by
  refine ⟨happened_calls otherCalls_within,fun hclaimed => ?_⟩
  let s := (({} : Store).take plain (.importIntent knownIntent 0)).2
  have hmem : (⟨.claimNext (.source otherWork) none,(s.take plain (.claimNext (.source otherWork) none)).1,s,
      (s.take plain (.claimNext (.source otherWork) none)).2⟩ : Event) ∈ (happened plain otherCalls).1 :=
    List.mem_cons_of_mem _ (List.mem_singleton_self _)
  have hanswer : (s.take plain (.claimNext (.source otherWork) none)).1 = .claimed sampleId (some 1) := by
    decide +kernel
  have hrun : (s.runs.find sampleId).map (fun r => (r.origin.isSome,r.sourceInstance,r.jobEndInstance)) =
      some (true,none,some (List.replicate 32 'f')) := by
    decide +kernel
  obtain ⟨r,hr,hfields⟩ := Option.map_eq_some_iff.mp hrun
  obtain ⟨horigin,hrest⟩ := Prod.mk.inj hfields
  obtain ⟨hinst,hend⟩ := Prod.mk.inj hrest
  rcases hclaimed _ hmem sampleId (some 1) hanswer r hr with hnone | hsame | hsame
  · rw [hnone] at horigin
    exact nomatch horigin
  · rw [hinst] at hsame
    exact nomatch hsame
  · rw [hend] at hsame
    exact absurd hsame (by decide)

end traces

end OpenSteamgate.Jobs
