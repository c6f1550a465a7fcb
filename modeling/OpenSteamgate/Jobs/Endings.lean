import OpenSteamgate.Jobs.Wakeups

namespace OpenSteamgate.Jobs

variable {h : Platform} {s s' : Store} {id : Id} {r r' : Run} {rows rows' : List StepRow}
  {call : Call} {answer : Answer} {events : List NamedEvent} {jobs : List JobEvent}
  {event : NamedEvent} {before : Option Run} {origin : Origin} {inst : Text}

def Call.ofJobs : Call → Bool
  | .importNamedEvent _ | .deleteJob _ => false
  | _ => true

def Run.known (r : Run) : Bool := r.origin.isSome && (r.jobEndInstance.or r.sourceInstance).isSome

def Store.atStep (s : Store) (id : Id) (number : Nat) : Bool :=
  (s.runs.find id).any (fun r => r.known && r.state = .running) && (s.steps id).any (isStep number .running)

def Store.isLate (s : Store) (id : Id) (nowStamp : Stamp) : Bool :=
  (s.runs.find id).any fun r => r.known && r.state = .releasing && r.late nowStamp

def Answer.isRaised : Answer → Bool
  | .raised _ => true
  | _ => false

def Event.silent (event : Event) : Bool :=
  !event.answer.isRaised &&
    match event.call with
    | .failStep id number => event.before.atStep id number
    | .releaseTimed id nowStamp _ => event.before.isLate id nowStamp
    | _ => false

def Keyed (h : Platform) (s : Store) : Prop :=
  ∀ r ∈ s.runs.rows,∀ x ∈ s.runs.rows,h.endKey r.id ≠ x.id ∧ (h.endKey r.id = h.endKey x.id → r.id = x.id)

def Ends (r : Run) (origin : Origin) (inst : Text) (row : NamedEvent) : Prop :=
  row.id = Store.endOfJob ∧ row.param = Store.endParam r ∧ row.origin = origin ∧ row.inst = inst

def Names (r : Run) (id param : Text) : Prop := id = Store.endOfJob ∧ param = Store.endParam r

instance (r : Run) (id param : Text) : Decidable (Names r id param) :=
  inferInstanceAs (Decidable (_ ∧ _))

structure Distinct (s : Store) : Prop where
  jobs : ∀ r ∈ s.runs.rows,∀ x ∈ s.runs.rows,r.known = true → x.known = true →
    r.state.ended = true → Store.endParam r = Store.endParam x → r.id = x.id
  tails : ∀ r ∈ s.runs.rows,∀ x ∈ s.runs.rows,r.state = .completed → x.known = true →
    ∀ tail ∈ r.tail,¬Names x tail.id tail.param

structure Announced (h : Platform) (s : Store) : Prop where
  ended : ∀ id r origin inst,s.runs.find id = some r → r.origin = some origin →
    r.jobEndInstance.or r.sourceInstance = some inst →
    r.state = .completed ∨ r.state = .failed ∨ r.state = .interrupted →
    ∃ row,s.events.find (h.endKey id) = some row ∧ Ends r origin inst row ∧
      (∀ other ∈ s.events.rows,Names r other.id other.param → other = row) ∧
      ∀ other child,s.runs.find other = some child → child.state = .waiting → child.awaits row = false
  unended : ∀ id r,s.runs.find id = some r → r.state.ended = false →
    s.events.find (h.endKey id) = none ∧
      (r.known = true → ∀ row ∈ s.events.rows,¬Names r row.id row.param)
  completed : ∀ id r,s.runs.find id = some r → r.origin.isSome = true →
    ((s.jobEvents.find id).isSome = true ↔ r.state = .completed)

inductive Sent (h : Platform) (r : Run) (row : NamedEvent) : Prop
  | tail (tail : Tail) : row.intent = r.id → r.state = .completed → r.tail = some tail →
      row.id = tail.id → row.param = tail.param → Sent h r row
  | ends : row.intent = h.endKey r.id → r.state.ended = true → r.known = true →
      Names r row.id row.param → Sent h r row

structure Told (h : Platform) (s : Store) : Prop where
  alive : ∀ id r,s.runs.find id = some r → r.state ≠ .deleted
  sent : ∀ row ∈ s.events.rows,∃ r,s.runs.find r.id = some r ∧ Sent h r row
  ended : ∀ id r origin inst,s.runs.find id = some r → r.origin = some origin →
    r.jobEndInstance.or r.sourceInstance = some inst → r.state.ended = true →
    ∃ row ∈ s.events.rows,row.intent = h.endKey id ∧ Ends r origin inst row
  unended : ∀ id r,s.runs.find id = some r → r.state.ended = false →
    ∀ row ∈ s.events.rows,row.intent ≠ h.endKey id

theorem Keyed.earlier (hkeys : Keyed h s') (heffect : Effect h s call answer s') : Keyed h s := by
  have hstays : ∀ r ∈ s.runs.rows,∃ r' ∈ s'.runs.rows,r'.id = r.id := by
    intro r hr
    obtain ⟨r',hr',-,-⟩ := effect_run heffect (Table.find_of_mem hr)
    exact ⟨r',Table.find_mem hr'⟩
  intro r hr x hx
  obtain ⟨r',hr',hrid⟩ := hstays r hr
  obtain ⟨x',hx',hxid⟩ := hstays x hx
  rw [← hrid,← hxid]
  exact hkeys r' hr' x' hx'

theorem EndEvents.ends (hends : EndEvents h r events) (horigin : r.origin = some origin)
    (hinst : r.jobEndInstance.or r.sourceInstance = some inst) :
    ∃ row ∈ events,row.intent = h.endKey r.id ∧ Ends r origin inst row := by
  rw [EndEvents,horigin,hinst] at hends
  obtain ⟨seq,rfl⟩ := hends
  exact ⟨_,List.mem_singleton_self _,rfl,rfl,rfl,rfl,rfl⟩

theorem turn_ends (hturn : Turn h call answer r (s.steps r.id) r' rows' events jobs)
    (hfound : s.runs.find r.id = some r) (hmade : Wellmade r)
    (hcall : call.ofJobs = true) (hsilent : Event.silent ⟨call,answer,s,s'⟩ = false)
    (horigin : r.origin = some origin) (hinst : r.jobEndInstance.or r.sourceInstance = some inst)
    (hended : r'.state.ended = true) :
    ∃ row ∈ events,row.intent = h.endKey r.id ∧ Ends r origin inst row := by
  have hlist : ∀ tails ends : List NamedEvent,EndEvents h r ends →
      ∃ row ∈ tails ++ ends,row.intent = h.endKey r.id ∧ Ends r origin inst row := by
    intro tails ends hends
    obtain ⟨row,hrow,hkey⟩ := hends.ends horigin hinst
    exact ⟨row,List.mem_append_right tails hrow,hkey⟩
  have hknown : r.known = true := by
    rw [Run.known,horigin,hinst]
    rfl
  cases hturn with
  | completed hrunning hcount hlast htails hends hjobs => exact hlist _ _ hends
  | completedWhole hrunning hzero hqueued htails hends hjobs => exact hlist _ _ hends
  | failed hrunning hcount hends => exact hends.ends horigin hinst
  | failedWhole hcall hrunning hzero hqueued hends => exact hends.ends horigin hinst
  | interrupted hrunning hqueued hcount hends => exact hends.ends horigin hinst
  | @dumped _ _ k hrunning hcount =>
    have hany : (s.steps r.id).any (isStep k .running) = true := by
      rw [List.any_eq_true,← List.countP_pos_iff,hcount]
      exact Nat.one_pos
    have hat : s.atStep r.id k = true := by
      rw [Store.atStep,hfound,Option.any_some,hknown,decide_eq_true hrunning,hany]
      rfl
    exact nomatch hat.symm.trans hsilent
  | @expired nowStamp now _ _ hreleasing hscheduled hlate =>
    have his : s.isLate r.id nowStamp = true := by
      rw [Store.isLate,hfound,Option.any_some,hknown,decide_eq_true hreleasing,hlate]
      rfl
    exact nomatch his.symm.trans hsilent
  | endedLocally state hcall hstate hrunning hzero hlocal =>
    have hqueued := hmade.queued (horigin ▸ rfl)
    rw [hlocal] at hqueued
    exact nomatch hqueued
  | deleted hstate => exact nomatch hcall
  | _ => exact nomatch hended

theorem Sent.key (hsent : Sent h r event) : event.intent = r.id ∨ event.intent = h.endKey r.id := by
  cases hsent with
  | tail tail hkey => exact .inl hkey
  | ends hkey => exact .inr hkey

theorem Sent.ended (hsent : Sent h r event) : r.state.ended = true := by
  cases hsent with
  | tail tail hkey hcompleted => exact hcompleted ▸ rfl
  | ends hkey hended => exact hended

theorem Sent.kept (hsent : Sent h r event) (hkept : Kept r r') (hstate : r'.state = r.state) :
    Sent h r' event := by
  rw [hkept,hstate]
  cases hsent with
  | tail tail hkey hcompleted htail hid hparam => exact .tail tail hkey hcompleted htail hid hparam
  | ends hkey hended hknown hnames => exact .ends hkey hended hknown hnames

theorem EndEvents.sent {state : RunState} (hends : EndEvents h r events) (hevent : event ∈ events)
    (hended : state.ended = true) : Sent h {r with state := state} event := by
  unfold EndEvents at hends
  split at hends
  · rename_i origin inst horigin hinst
    obtain ⟨seq,rfl⟩ := hends
    rw [List.mem_singleton.mp hevent]
    refine .ends rfl hended ?_ ⟨rfl,rfl⟩
    change (r.origin.isSome && (r.jobEndInstance.or r.sourceInstance).isSome) = true
    rw [horigin,hinst]
    rfl
  · rw [hends] at hevent
    exact nomatch hevent

theorem turn_sent (hturn : Turn h call answer r rows r' rows' events jobs) (hevent : event ∈ events) :
    Sent h r' event := by
  have hall : ∀ {tails ends},TailEvents h r tails → EndEvents h r ends → event ∈ tails ++ ends →
      Sent h {r with state := .completed} event := by
    intro tails ends htails hends hmem
    rcases List.mem_append.mp hmem with htail | hend
    · rcases htails with rfl | ⟨origin,inst,tail,seq,hsome,-,rfl⟩
      · exact nomatch htail
      · rw [List.mem_singleton.mp htail]
        exact .tail tail rfl rfl hsome rfl rfl
    · exact hends.sent hend rfl
  cases hturn with
  | completed hrunning hcount hlast htails hends hjobs => exact hall htails hends hevent
  | completedWhole hrunning hzero hqueued htails hends hjobs => exact hall htails hends hevent
  | failed hrunning hcount hends => exact hends.sent hevent rfl
  | failedWhole hcall hrunning hzero hqueued hends => exact hends.sent hevent rfl
  | interrupted hrunning hqueued hcount hends => exact hends.sent hevent rfl
  | _ => exact nomatch hevent

theorem Ends.kept (hends : Ends r origin inst event) (hkept : Kept r r') : Ends r' origin inst event := by
  rw [hkept]
  exact hends

theorem change_ended (hs : Settled s) (htold : Told h s)
    (hchange : Change h s call answer events jobs before rows r' rows')
    (hbefore : ∀ r,before = some r → s.runs.find r.id = some r) (hcall : call.ofJobs = true)
    (hsilent : Event.silent ⟨call,answer,s,s'⟩ = false) (horigin : r'.origin = some origin)
    (hinst : r'.jobEndInstance.or r'.sourceInstance = some inst) (hended : r'.state.ended = true) :
    ∃ row ∈ s.events.rows ++ events,row.intent = h.endKey r'.id ∧ Ends r' origin inst row := by
  cases hchange with
  | same hquiet =>
    obtain ⟨row,hrow,hends⟩ := htold.ended _ _ _ _ (hbefore _ rfl) horigin hinst hended
    exact ⟨row,List.mem_append_left events hrow,hends⟩
  | woken => cases hended
  | turned hfound hturn =>
    have hkept := turn_kept hturn
    rw [hkept] at horigin hinst
    obtain ⟨row,hrow,hkey,hends⟩ :=
      turn_ends hturn hfound (hs.made _ _ hfound) hcall hsilent horigin hinst hended
    refine ⟨row,List.mem_append_right _ hrow,?_,hends.kept hkept⟩
    rw [hkept]
    exact hkey
  | @imported intent now c _ hcalled hcheck hclear =>
    rw [Store.runOf] at hended
    split at hended
    · cases hended
    · cases hended
  | added hlocal hsteps hstate hafter hnamed hschedule => cases hlocal ▸ horigin

theorem change_alive (hchange : Change h s call answer events jobs before rows r' rows')
    (hbefore : ∀ r,before = some r → r.state ≠ .deleted) (hcall : call.ofJobs = true) :
    r'.state ≠ .deleted := by
  cases hchange with
  | same hquiet => exact hbefore _ rfl
  | woken => rintro ⟨⟩
  | turned hfound hturn =>
    cases hturn with
    | deleted hstate => cases hcall
    | endedLocally state hcalled hstate => rcases hstate with rfl | rfl <;> rintro ⟨⟩
    | _ => rintro ⟨⟩
  | imported =>
    rw [Store.runOf]
    split <;> rintro ⟨⟩
  | added hlocal hsteps hstate hafter hnamed hschedule =>
    rcases hstate with ⟨hrunning,-⟩ | hqueued
    · rw [hrunning]
      rintro ⟨⟩
    · rw [hqueued]
      rintro ⟨⟩

theorem effect_told (hs : Settled s) (htold : Told h s) (heffect : Effect h s call answer s')
    (hkeys : Keyed h s') (hcall : call.ofJobs = true)
    (hsilent : Event.silent ⟨call,answer,s,s'⟩ = false) : Told h s' := by
  obtain ⟨events,jobs,hevents,-,hcause,hchange⟩ := effect_change heffect
  have hbefore : ∀ id r,s.runs.find id = some r → s.runs.find r.id = some r := by
    intro id r hr
    rwa [Table.find_key hr]
  refine ⟨fun id r hr => ?_,fun row hmem => ?_,fun id r origin inst hr horigin hinst hended => ?_,
    fun id r hr hended row hmem => ?_⟩
  · exact change_alive (hchange id r hr) (fun _ hold => htold.alive id _ hold) hcall
  · rw [hevents,List.mem_append] at hmem
    rcases hmem with hold | hnew
    · obtain ⟨x,hx,hsent⟩ := htold.sent row hold
      obtain ⟨x',hx',hkept,hstays⟩ := effect_run heffect hx
      have hid : x'.id = x.id := Table.find_key hx'
      have halive := change_alive (hchange _ x' hx') (fun _ hold => htold.alive _ _ hold) hcall
      exact ⟨x',hid ▸ hx',hsent.kept hkept ((hstays hsent.ended).resolve_right halive)⟩
    · cases hcause with
      | nothing => exact nomatch hnew
      | given hcalled =>
        rw [hcalled] at hcall
        exact nomatch hcall
      | turned hfound hafter hturn =>
        have hid := Table.find_key hafter
        exact ⟨_,hid ▸ hafter,turn_sent hturn hnew⟩
  · rw [hevents,← Table.find_key hr]
    exact change_ended hs htold (hchange id r hr) (hbefore id) hcall hsilent horigin hinst hended
  · obtain ⟨hr_mem,rfl⟩ := Table.find_mem hr
    intro hkey
    rw [hevents,List.mem_append] at hmem
    rcases hmem with hold | hnew
    · cases hfind : s.runs.find r.id with
      | none =>
        obtain ⟨x,hx,hsent⟩ := htold.sent row hold
        obtain ⟨x',hx',-,-⟩ := effect_run heffect hx
        obtain ⟨hx_mem,hxid⟩ := Table.find_mem hx'
        rcases hsent.key with hxkey | hxkey
        · exact (hkeys r hr_mem x' hx_mem).1 (by rw [← hkey,hxkey,hxid])
        · have hsame := (hkeys x' hx_mem r hr_mem).2 (by rw [hxid,← hxkey,hkey])
          rw [hxid] at hsame
          rw [hsame,hfind] at hx
          exact nomatch hx
      | some x =>
        obtain ⟨x',hx',-,hstays⟩ := effect_run heffect hfind
        obtain rfl := Option.some.inj (hx'.symm.trans hr)
        cases hx_ended : x.state.ended with
        | true =>
          rcases hstays hx_ended with hsame | hdeleted
          · rw [hsame,hx_ended] at hended
            exact nomatch hended
          · rw [hdeleted] at hended
            exact nomatch hended
        | false => exact htold.unended _ x hfind hx_ended row hold hkey
    · cases hcause with
      | nothing => exact nomatch hnew
      | given hcalled =>
        rw [hcalled] at hcall
        exact nomatch hcall
      | @turned x x' _ _ _ hfound hafter hturn =>
        have hsent := turn_sent hturn hnew
        obtain ⟨hx_mem,hxid⟩ := Table.find_mem hafter
        rcases hsent.key with hxkey | hxkey
        · exact (hkeys r hr_mem x' hx_mem).1 (by rw [← hkey,hxkey])
        · have hsame := (hkeys x' hx_mem r hr_mem).2 (by rw [← hxkey,hkey])
          rw [← hxid,hsame] at hafter
          obtain rfl := Option.some.inj (hafter.symm.trans hr)
          rw [hsent.ended] at hended
          exact nomatch hended

section traces

variable {events : List Event}

theorem trace_told (ht : Trace h events s) (hcalls : ∀ event ∈ events,event.call.ofJobs = true)
    (hkeys : Keyed h s) (hsilent : ∀ event ∈ events,event.silent = false) : Told h s := by
  induction ht with
  | empty =>
    refine ⟨fun id r hr => ?_,fun row hrow => ?_,fun id r _ _ hr => ?_,fun id r hr => ?_⟩
    · rw [empty_find] at hr
      exact nomatch hr
    · exact nomatch hrow
    · rw [empty_find] at hr
      exact nomatch hr
    · rw [empty_find] at hr
      exact nomatch hr
  | @step earlier s s' call answer htrace hstep ih =>
    have heffect := step_effect hstep
    have hlast : (⟨call,answer,s,s'⟩ : Event) ∈ earlier ++ [⟨call,answer,s,s'⟩] :=
      List.mem_append_right _ (List.mem_singleton_self _)
    have htold := ih (fun event hevent => hcalls event (List.mem_append_left _ hevent))
      (hkeys.earlier heffect) fun event hevent => hsilent event (List.mem_append_left _ hevent)
    exact effect_told (trace_settled htrace) htold heffect hkeys (hcalls _ hlast) (hsilent _ hlast)

def Event.Wakes (h : Platform) (event : Event) : Prop :=
  ∀ id r r' row other child,event.before.runs.find id = some r → event.after.runs.find id = some r' →
    r.state.ended = false → r'.state.ended = true → event.after.events.find (h.endKey id) = some row →
    event.before.runs.find other = some child → child.state = .waiting → child.awaits row = true →
    ∃ child',event.after.runs.find other = some child' ∧ child'.state = .queued

theorem heeds_false {rows : List NamedEvent} {row : NamedEvent} (hheeds : heeds rows jobs r = false)
    (hrow : row ∈ rows) : r.awaits row = false := by
  rw [heeds,Bool.or_eq_false_iff,List.any_eq_false] at hheeds
  exact Bool.not_eq_true _ ▸ hheeds.1 row hrow

theorem effect_wakes (hs : Settled s) (hs' : Settled s') (heffect : Effect h s call answer s')
    (hcall : call.ofJobs = true) : Event.Wakes h ⟨call,answer,s,s'⟩ := by
  intro id r r' row other child hr hr' hstate hended hrow hchild hwaiting hawaits
  obtain ⟨named,jobs,hevents,-,hcause,hchange⟩ := effect_change heffect
  obtain ⟨child',hchild',hkept,-⟩ := effect_run heffect hchild
  refine ⟨child',hchild',?_⟩
  have hthere := (Table.find_mem hrow).1
  have hbecomes := hchange other child' hchild'
  have halive := change_alive hbecomes (fun x hx hdeleted => by
    obtain rfl := Option.some.inj (hchild.symm.trans hx)
    rw [hwaiting] at hdeleted
    exact nomatch hdeleted) hcall
  rw [hchild] at hbecomes
  generalize s.steps other = rows at hbecomes
  generalize s'.steps other = rows' at hbecomes
  cases hbecomes with
  | same hquiet =>
    have hheeds := hs'.waiting other _ hchild' hwaiting
    rw [heeds_false hheeds hthere] at hawaits
    exact nomatch hawaits
  | woken => rfl
  | turned hfound hturn =>
    rcases (turn_enters hturn).2 hwaiting with hdeleted | htimed
    · exact absurd hdeleted halive
    · have hnamed := ((hs.made _ _ hfound).timed htimed).2
      rw [Run.awaits,hnamed,Bool.and_false] at hawaits
      exact nomatch hawaits

theorem Told.names (htold : Told h s) (hdistinct : Distinct s) (hr : s.runs.find id = some r)
    (hknown : r.known = true) {row : NamedEvent} (hrow : row ∈ s.events.rows)
    (hnames : Names r row.id row.param) : row.intent = h.endKey id ∧ r.state.ended = true := by
  obtain ⟨x,hx,hsent⟩ := htold.sent row hrow
  obtain ⟨hx_mem,-⟩ := Table.find_mem hx
  obtain ⟨hr_mem,rfl⟩ := Table.find_mem hr
  cases hsent with
  | tail tail hkey hcompleted htail hid hparam =>
    rw [hid,hparam] at hnames
    exact (hdistinct.tails x hx_mem r hr_mem hcompleted hknown tail htail hnames).elim
  | ends hkey hended hxknown hxnames =>
    have hsame := hdistinct.jobs x hx_mem r hr_mem hxknown hknown hended
      (hxnames.2.symm.trans hnames.2)
    rw [hsame] at hx hkey
    obtain rfl := Option.some.inj (hx.symm.trans hr)
    exact ⟨hkey,hended⟩

theorem ends_announced (ht : Trace h events s) (hcalls : ∀ event ∈ events,event.call.ofJobs = true)
    (hkeys : Keyed h s) (hdistinct : Distinct s) (hsilent : ∀ event ∈ events,event.silent = false) :
    Announced h s ∧ ∀ event ∈ events,event.Wakes h := by
  have htold := trace_told ht hcalls hkeys hsilent
  have hs := trace_settled ht
  refine ⟨⟨fun id r origin inst hr horigin hinst hstate => ?_,fun id r hr hended => ?_,fun id r hr horigin => ?_⟩,
    fun event hevent => ?_⟩
  · have hended : r.state.ended = true := by
      rcases hstate with h | h | h <;> (rw [h]; rfl)
    obtain ⟨row,hrow,hkey,hends⟩ := htold.ended id r origin inst hr horigin hinst hended
    have hfind : s.events.find (h.endKey id) = some row := hkey ▸ Table.find_of_mem hrow
    have hknown : r.known = true := by
      rw [Run.known,horigin,hinst]
      rfl
    refine ⟨row,hfind,hends,fun other hother hnames => ?_,fun other child hchild hwaiting => ?_⟩
    · have hsame := (htold.names hdistinct hr hknown hother hnames).1
      exact Option.some.inj ((hsame ▸ Table.find_of_mem hother).symm.trans hfind)
    · exact heeds_false (hs.waiting other child hchild hwaiting) hrow
  · refine ⟨?_,fun hknown row hrow hnames => ?_⟩
    · cases hfind : s.events.find (h.endKey id) with
      | none => rfl
      | some row =>
        obtain ⟨hrow,hkey⟩ := Table.find_mem hfind
        exact absurd hkey (htold.unended id r hr hended row hrow)
    · rw [(htold.names hdistinct hr hknown hrow hnames).2] at hended
      exact nomatch hended
  · have hrecorded := trace_recorded ht
    constructor
    · intro hsome
      obtain ⟨job,hjob⟩ := Option.isSome_iff_exists.mp hsome
      obtain ⟨hmem,rfl⟩ := Table.find_mem hjob
      obtain ⟨x,o,hx,-,-,hstate⟩ := hrecorded.rows job hmem
      obtain rfl := Option.some.inj (hx.symm.trans hr)
      exact hstate.resolve_right (htold.alive _ _ hr)
    · intro hcompleted
      obtain ⟨origin,horigin⟩ := Option.isSome_iff_exists.mp horigin
      have hmem := hrecorded.runs id r origin hr horigin hcompleted
      have hfind := Table.find_of_mem hmem
      rw [Run.completion,Table.find_key hr] at hfind
      rw [hfind]
      rfl
  · obtain ⟨first,rest,hsplit,hfirst,hstep⟩ := trace_step ht hevent
    exact effect_wakes (trace_settled hfirst) (trace_settled (hfirst.step hstep)) (step_effect hstep)
      (hcalls event hevent)

def finishedCalls : List Call :=
  [.importIntent knownIntent 0,.claimNext .any none,.finishStep sampleId 1 ⟨"COMPLETED".toList,0⟩]

def dumpedCalls : List Call :=
  [.importIntent knownIntent 0,.claimNext .any none,.failStep sampleId 1]

set_option maxRecDepth 10000 in
theorem ends_announced_finished : ∃ row,
    (happened plain finishedCalls).2.events.find (plain.endKey sampleId) = some row ∧
      row.id = Store.endOfJob := by
  have hrun : ((happened plain finishedCalls).2.runs.find sampleId).map (fun r =>
      (r.state,r.origin,r.jobEndInstance)) =
        some (.completed,some ⟨"/db".toList,"100".toList,"OSD".toList,"ANNA".toList⟩,
          some (List.replicate 32 'f')) := by
    decide +kernel
  obtain ⟨r,hr,hfields⟩ := Option.map_eq_some_iff.mp hrun
  obtain ⟨hcompleted,hrest⟩ := Prod.mk.inj hfields
  obtain ⟨horigin,hinst⟩ := Prod.mk.inj hrest
  obtain ⟨hannounced,-⟩ := ends_announced (happened_trace plain finishedCalls) (by decide +kernel)
    (by unfold Keyed; decide +kernel) ⟨by decide +kernel,by decide +kernel⟩ (by decide +kernel)
  obtain ⟨row,hrow,hends,-⟩ := hannounced.ended sampleId r _ _ hr horigin
    (by rw [hinst,Option.some_or]) (.inl hcompleted)
  exact ⟨row,hrow,hends.1⟩

set_option maxRecDepth 10000 in
theorem dumped_unannounced : (∀ event ∈ (happened plain dumpedCalls).1,event.call.ofJobs = true) ∧
    Keyed plain (happened plain dumpedCalls).2 ∧ ¬Announced plain (happened plain dumpedCalls).2 := by
  refine ⟨by decide +kernel,by unfold Keyed; decide +kernel,fun hannounced => ?_⟩
  have hrun : ((happened plain dumpedCalls).2.runs.find sampleId).map (fun r =>
      (r.state,r.origin,r.jobEndInstance)) =
        some (.failed,some ⟨"/db".toList,"100".toList,"OSD".toList,"ANNA".toList⟩,
          some (List.replicate 32 'f')) := by
    decide +kernel
  obtain ⟨r,hr,hfields⟩ := Option.map_eq_some_iff.mp hrun
  obtain ⟨hfailed,hrest⟩ := Prod.mk.inj hfields
  obtain ⟨horigin,hinst⟩ := Prod.mk.inj hrest
  obtain ⟨row,hrow,-⟩ := hannounced.ended sampleId r _ _ hr horigin (by rw [hinst,Option.some_or])
    (.inr (.inl hfailed))
  have hnone : (happened plain dumpedCalls).2.events.find (plain.endKey sampleId) = none := by decide +kernel
  exact nomatch hnone.symm.trans hrow

end traces

end OpenSteamgate.Jobs
