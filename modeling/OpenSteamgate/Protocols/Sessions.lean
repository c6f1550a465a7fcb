import OpenSteamgate.Protocols.Credentials

namespace OpenSteamgate.Protocols.Server

open Tunnel (JsString js)

def Event.principal (c : Id) (last : Option Principal) : Event → Option Principal
  | .loggedOn i _ caller => if i = c then some (caller.client,caller.user) else last
  | _ => last

def principalOf (c : Id) (events : List Event) : Option Principal :=
  events.foldl (Event.principal c) none

def Event.registration (handle : JsString) (last : Option (Id × Owner)) :
    Event → Option (Id × Owner)
  | .registered c h s p => if h = handle then some (c,⟨s,p⟩) else last
  | _ => last

def lastRegistration (handle : JsString) (events : List Event) : Option (Id × Owner) :=
  events.foldl (Event.registration handle) none

def Event.takenOn (s : Id) : Event → Bool
  | .taken _ i _ _ _ _ => i = s
  | _ => false

def takenOn (s : Id) (events : List Event) : Nat := events.countP (Event.takenOn s)

def Kept (before : List Event) : Event → Prop
  | .registered c _ s p => p = principalOf c before ∧
      ∃ n,before.getLast? = some (.settled s n) ∧ ∃ h o q,.taken c s n h o q ∈ before
  | .taken c s n h _ p => p = principalOf c before ∧ n = takenOn s before ∧
      (s ≠ c → ∃ handle c',h = some handle ∧ .registered c' handle s p ∈ before)
  | .sent c s n _ => (∃ h o p,.taken c s n h o p ∈ before) ∧ (∀ m < n,.settled s m ∈ before) ∧
      .settled s n ∉ before ∧ .loggedOff s ∉ before
  | .frame _ _ _ | .loggedOn _ _ _ | .metadata _ _ | .settled _ _ | .loggedOff _ => True

def Held (pool : Pool) : Prop :=
  ∀ handle owner,pool.editingHandles handle = some owner →
    (pool.sessions owner.session).closed = false ∧
      ∃ c,lastRegistration handle pool.events = some (c,owner) ∧
        ∀ p,owner.principal = some p → (pool.connections c).conversation.principal = some p

section folds

variable {c s : Id} {handle : JsString} {events more : List Event} {event : Event}

@[simp] theorem principalOf_snoc :
    principalOf c (events ++ [event]) = event.principal c (principalOf c events) :=
  List.foldl_concat _ _ _ _

@[simp] theorem lastRegistration_snoc : lastRegistration handle (events ++ [event]) =
    event.registration handle (lastRegistration handle events) := List.foldl_concat _ _ _ _

theorem takenOn_snoc : takenOn s (events ++ [event]) =
    takenOn s events + if event.takenOn s then 1 else 0 := by
  rw [takenOn,List.countP_append,List.countP_singleton]
  rfl

theorem lastRegistration_mem {o : Owner} (h : lastRegistration handle events = some (c,o)) :
    .registered c handle o.session o.principal ∈ events := by
  induction events using List.reverseRecOn with
  | nil => exact nomatch h
  | append_singleton events event ih =>
    rw [lastRegistration_snoc] at h
    cases event with
    | registered i k s p =>
      change (if k = handle then _ else _) = _ at h
      split at h
      · rename_i hk
        obtain ⟨rfl,rfl⟩ := Prod.mk.inj (Option.some.inj h)
        exact hk ▸ List.mem_concat_self
      · exact List.mem_append_left _ (ih h)
    | _ => exact List.mem_append_left _ (ih h)

end folds

def Event.anonymous : Event → Prop
  | .loggedOn _ _ _ => False
  | _ => True

def Identified (pool : Pool) : Prop :=
  ∀ c,(pool.connections c).conversation.principal = principalOf c pool.events ∧
    ((pool.connections c).conversation.phase ≠ .calls →
      (pool.connections c).conversation.principal = none)

variable {config : Config} {pool pool' : Pool} {c s : Id} {task : Task} {frame : Bytes}
  {rest : List Bytes} {event : Event} {more : List Event}

theorem principalOf_append (events : List Event) (h : ∀ e ∈ more,e.anonymous) :
    principalOf c (events ++ more) = principalOf c events := by
  induction more using List.reverseRecOn with
  | nil => rw [List.append_nil]
  | append_singleton more event ih =>
    rw [← List.append_assoc,principalOf_snoc,ih fun e he => h e (List.mem_append_left _ he)]
    cases event with
    | loggedOn => exact (h _ List.mem_concat_self).elim
    | _ => rfl

structure Calm (pool pool' : Pool) : Prop where
  principal : ∀ c,(pool'.connections c).conversation.principal =
    (pool.connections c).conversation.principal
  phase : ∀ c,(pool'.connections c).conversation.phase = .calls ↔
    (pool.connections c).conversation.phase = .calls
  events : ∃ more,pool'.events = pool.events ++ more ∧ ∀ e ∈ more,e.anonymous

namespace Calm

variable {next : Pool}

theorem refl (pool : Pool) : Calm pool pool :=
  ⟨fun _ => rfl,fun _ => Iff.rfl,[],(List.append_nil _).symm,List.forall_mem_nil _⟩

theorem same (h : Calm pool pool') (hconnections : next.connections = pool'.connections)
    (hevents : next.events = pool'.events) : Calm pool next where
  principal := fun c => by rw [hconnections,h.principal]
  phase := fun c => by rw [hconnections,h.phase]
  events := hevents ▸ h.events

theorem append (h : Calm pool pool') (hconnections : next.connections = pool'.connections)
    (hevents : next.events = pool'.events ++ more) (hmore : ∀ e ∈ more,e.anonymous) :
    Calm pool next where
  principal := fun c => by rw [hconnections,h.principal]
  phase := fun c => by rw [hconnections,h.phase]
  events := by
    obtain ⟨early,hearly,hanonymous⟩ := h.events
    refine ⟨early ++ more,by rw [hevents,hearly,List.append_assoc],fun e he => ?_⟩
    exact (List.mem_append.mp he).elim (hanonymous e) (hmore e)

theorem record (h : Calm pool pool') (he : event.anonymous) : Calm pool (pool'.record event) :=
  h.append rfl rfl (List.forall_mem_singleton.mpr he)

theorem setConnection {connection : Connection} (h : Calm pool pool')
    (hprincipal : connection.conversation.principal = (pool'.connections c).conversation.principal)
    (hphase : connection.conversation.phase = .calls ↔ (pool'.connections c).conversation.phase = .calls) :
    Calm pool (pool'.setConnection c connection) where
  principal := fun i => by
    rw [Pool.setConnection_apply]
    split
    · rename_i hi
      exact hi ▸ hprincipal.trans (h.principal c)
    · exact h.principal i
  phase := fun i => by
    rw [Pool.setConnection_apply]
    split
    · rename_i hi
      exact hi ▸ hphase.trans (h.phase c)
    · exact h.phase i
  events := h.events

theorem enqueue (h : Calm pool pool') : Calm pool (pool'.enqueue s task) := h.same rfl rfl

theorem learns {conn : Id} {handle : Option JsString} (h : Calm pool pool')
    (hlearns : Pool.Learns pool' s conn handle next) : Calm pool next := by
  refine h.append hlearns.connections hlearns.events ?_
  cases handle with
  | none => exact List.forall_mem_nil _
  | some handle => exact List.forall_mem_singleton.mpr trivial

theorem drawn (pool : Pool) (c : Id) (frame : Bytes) : Calm pool (pool.drawn c frame) :=
  (refl pool).record trivial

theorem setSession (pool : Pool) (s : Id) (session : Session) :
    Calm pool (pool.setSession s session) := (refl pool).same rfl rfl

theorem settled (pool : Pool) (s : Id) (task : Task) (failed : Bool) :
    Calm pool (pool.settled s task failed) := by
  refine record (setConnection (setSession pool s _) ?_ ?_) trivial
  · rfl
  · exact Iff.rfl

theorem ended (pool : Pool) (c : Id) : Calm pool (pool.ended c) := by
  refine same (setConnection (refl pool) ?_ ?_) rfl rfl
  · rfl
  · exact Iff.rfl

end Calm

def LogsOn (pool : Pool) (c : Id) (caller : Logon) (pool' : Pool) : Prop :=
  (pool.connections c).conversation.phase = .logon ∧ ∃ frame connection,
    connection.conversation.phase = .calls ∧
    connection.conversation.principal = some (caller.client,caller.user) ∧
    pool' = ((pool.drawn c frame).setConnection c connection).record (.loggedOn c frame caller)

theorem Pool.Taken.conversations (h : Pool.Taken config pool c frame rest pool') :
    Calm pool pool' ∨ ∃ caller,LogsOn pool c caller pool' := by
  have hdrawn := Calm.drawn pool c frame
  cases h with
  | refused => exact .inl (hdrawn.setConnection rfl Iff.rfl)
  | quiet hprincipal _ hphase => exact .inl (hdrawn.setConnection hprincipal hphase)
  | @loggedOn caller hphase => exact .inr ⟨caller,hphase,frame,_,rfl,rfl,rfl⟩
  | metadata =>
    refine .inl (Calm.record (hdrawn.setConnection ?_ ?_) trivial)
    · rfl
    · exact Iff.rfl
  | request =>
    refine .inl (Calm.record (Calm.enqueue (hdrawn.setConnection ?_ ?_)) trivial)
    · rfl
    · exact Iff.rfl

theorem Pool.Step.conversations (h : Pool.Step config pool pool') :
    Calm pool pool' ∨ ∃ c caller,LogsOn pool c caller pool' := by
  have hrefl := Calm.refl pool
  cases h with
  | data => exact .inl (hrefl.setConnection rfl Iff.rfl)
  | take c =>
    rcases (show Pool.Taken config pool c _ _ _ from Pool.takeFrame_taken).conversations with h | h
    · exact .inl h
    · exact .inr ⟨c,h⟩
  | start => exact .inl (.setSession _ _ _)
  | send => exact .inl (Calm.record (.setSession _ _ _) trivial)
  | settle s task auth reply failed hrunning hfailed =>
    have hsettled := Calm.settled pool s task failed
    obtain ⟨handle,hlearns⟩ := Pool.answer_learns (pool.settled s task failed) s task reply hfailed
    exact .inl (hsettled.learns hlearns)
  | close => exact .inl (hrefl.same rfl rfl)
  | drain => exact .inl (hrefl.setConnection rfl Iff.rfl)
  | logoff c =>
    have hended := Calm.ended pool c
    change Calm pool (if _ then (pool.ended c).record _ else pool.ended c) ∨ _
    split
    · exact .inl (hended.record trivial)
    · exact .inl hended

namespace Identified

theorem keeps (h : Identified pool) (hstep : Pool.Step config pool pool') {p : Principal}
    (hp : (pool.connections c).conversation.principal = some p) :
    (pool'.connections c).conversation.principal = some p := by
  rcases hstep.conversations with hcalm | ⟨i,caller,hphase,frame,connection,-,-,rfl⟩
  · rw [hcalm.principal,hp]
  · rw [Pool.record_connections,Pool.setConnection_apply]
    split
    · rename_i hi
      have hnone := (h c).2 fun hcalls => by
        rw [hi,hphase] at hcalls
        exact nomatch hcalls
      rw [hp] at hnone
      exact nomatch hnone
    · exact hp

theorem init (config : Config) : Identified (Pool.init config) := fun _ => ⟨rfl,fun _ => rfl⟩

theorem calm (h : Identified pool) (hcalm : Calm pool pool') : Identified pool' := fun c => by
  obtain ⟨hnamed,hnone⟩ := h c
  obtain ⟨more,hevents,hmore⟩ := hcalm.events
  rw [hcalm.principal,hevents,principalOf_append _ hmore]
  exact ⟨hnamed,fun hc => hnone fun hcalls => hc ((hcalm.phase c).mpr hcalls)⟩

theorem logsOn {caller : Logon} (h : Identified pool) (hlog : LogsOn pool c caller pool') :
    Identified pool' := fun i => by
  obtain ⟨-,frame,connection,hcalls,hprincipal,rfl⟩ := hlog
  have hdrawn := h.calm (.drawn pool c frame) i
  rw [Pool.record_connections,Pool.setConnection_apply,Pool.record_events,principalOf_snoc]
  change _ = (if c = i then _ else principalOf i (pool.drawn c frame).events) ∧ _
  by_cases hi : i = c
  · rw [if_pos hi,if_pos hi.symm]
    exact ⟨hprincipal,fun hne => absurd hcalls hne⟩
  · rw [if_neg hi,if_neg fun hc => hi hc.symm]
    exact hdrawn

theorem step (h : Identified pool) (hstep : Pool.Step config pool pool') : Identified pool' := by
  rcases hstep.conversations with hcalm | ⟨c,caller,hlog⟩
  · exact h.calm hcalm
  · exact h.logsOn hlog

end Identified

def Session.queue (session : Session) : List Task :=
  session.running.toList.map Prod.fst ++ session.waiting

theorem Session.requests_eq (session : Session) :
    session.requests = session.settled + session.queue.length := by
  rw [Session.requests,Session.queue,List.length_append,List.length_map,Nat.add_assoc]

@[simp] theorem Session.queue_waiting (session : Session) (task : Task) :
    Session.queue {session with waiting := session.waiting ++ [task]} = session.queue ++ [task] :=
  (List.append_assoc _ _ _).symm

theorem Session.queue_start {session : Session} {rest : List Task} {auth : BackendAuth}
    (hwaiting : session.waiting = task :: rest) (hrunning : session.running = none) :
    Session.queue {session with waiting := rest,running := some (task,auth)} = session.queue := by
  rw [Session.queue,Session.queue,hwaiting,hrunning]
  rfl

theorem Pool.enqueue_settled (pool : Pool) (s : Id) (task : Task) (i : Id) :
    ((pool.enqueue s task).sessions i).settled = (pool.sessions i).settled := by
  rw [Pool.enqueue_apply]
  split
  · rename_i hi
    rw [hi]
  · rfl

theorem List.getElem?_append_singleton {α : Type} {xs : List α} {x y : α} {n : Nat}
    (h : (xs ++ [x])[n]? = some y) : xs[n]? = some y ∨ n = xs.length ∧ y = x := by
  rw [List.getElem?_append] at h
  split at h
  · exact .inl h
  · have hn : n = xs.length := by
      have := (List.getElem?_eq_some_iff.mp h).1
      rw [List.length_singleton] at this
      omega
    rw [hn,Nat.sub_self] at h
    exact .inr ⟨hn,(Option.some.inj h).symm⟩

def TakenAs (events : List Event) (s : Id) (n : Nat) (task : Task) : Prop :=
  ∃ p,.taken task.conn s n task.lockHandle task.owner p ∈ events

structure Numbered (pool : Pool) : Prop where
  taken : ∀ s,takenOn s pool.events = (pool.sessions s).requests
  settled : ∀ s n,.settled s n ∈ pool.events ↔ n < (pool.sessions s).settled
  queued : ∀ s i task,(pool.sessions s).queue[i]? = some task →
    TakenAs pool.events s ((pool.sessions s).settled + i) task

def Event.uncounted : Event → Prop
  | .taken _ _ _ _ _ _ | .settled _ _ => False
  | _ => True

namespace Numbered

theorem init (config : Config) : Numbered (Pool.init config) where
  taken := fun _ => rfl
  settled := fun _ n => ⟨nofun,fun h => absurd h (Nat.not_lt_zero n)⟩
  queued := fun _ _ _ h => nomatch h

theorem same (h : Numbered pool) (hsessions : pool'.sessions = pool.sessions)
    (hevents : pool'.events = pool.events) : Numbered pool' where
  taken := by
    rw [hevents,hsessions]
    exact h.taken
  settled := by
    rw [hevents,hsessions]
    exact h.settled
  queued := by
    rw [hevents,hsessions]
    exact h.queued

theorem setSession {session : Session} (h : Numbered pool)
    (hsettled : session.settled = (pool.sessions s).settled)
    (hqueue : session.queue = (pool.sessions s).queue) : Numbered (pool.setSession s session) where
  taken := fun i => by
    rw [Pool.setSession_events,h.taken,Pool.setSession_apply]
    split
    · rename_i hi
      rw [Session.requests_eq,Session.requests_eq,hsettled,hqueue,hi]
    · rfl
  settled := fun i n => by
    rw [Pool.setSession_events,h.settled,Pool.setSession_apply]
    split
    · rename_i hi
      rw [hsettled,hi]
    · rfl
  queued := fun i n task hn => by
    rw [Pool.setSession_apply] at hn ⊢
    split at hn
    · rename_i hi
      rw [if_pos hi,hsettled,hi]
      rw [hqueue] at hn
      exact h.queued s n task hn
    · rename_i hi
      rw [if_neg hi]
      exact h.queued i n task hn

theorem record (h : Numbered pool) (he : event.uncounted) : Numbered (pool.record event) where
  taken := fun s => by
    rw [Pool.record_events,takenOn_snoc,h.taken]
    cases event with
    | taken | settled => exact he.elim
    | _ => rfl
  settled := fun s n => by
    rw [Pool.record_events,List.mem_append,h.settled,List.mem_singleton]
    cases event with
    | taken | settled => exact he.elim
    | _ => exact ⟨fun hn => hn.resolve_right nofun,.inl⟩
  queued := fun s i task hi =>
    have ⟨p,hp⟩ := h.queued s i task hi
    ⟨p,List.mem_append_left _ hp⟩

theorem enqueue {p : Option Principal} (h : Numbered pool) :
    Numbered ((pool.enqueue s task).record (.taken task.conn s (pool.sessions s).requests
      task.lockHandle task.owner p)) where
  taken := fun i => by
    rw [Pool.record_events,takenOn_snoc,Pool.enqueue_events,h.taken,Pool.record_sessions,Pool.enqueue_apply]
    change _ + (if decide (s = i) = true then 1 else 0) = _
    by_cases hi : i = s
    · rw [if_pos (decide_eq_true hi.symm),if_pos hi,hi,Session.requests_eq,Session.requests_eq,
        Session.queue_waiting,List.length_append]
      rfl
    · rw [if_neg (by simpa using fun hs => hi hs.symm),if_neg hi]
      rfl
  settled := fun i n => by
    rw [Pool.record_events,Pool.record_sessions,Pool.enqueue_settled,List.mem_append,
      List.mem_singleton,Pool.enqueue_events,h.settled]
    exact ⟨fun hn => hn.resolve_right nofun,.inl⟩
  queued := fun i n t hn => by
    rw [Pool.record_sessions,Pool.enqueue_settled]
    rw [Pool.record_sessions,Pool.enqueue_apply] at hn
    have hold : (pool.sessions i).queue[n]? = some t → TakenAs ((pool.enqueue s task).record
        (.taken task.conn s (pool.sessions s).requests task.lockHandle task.owner p)).events i
          ((pool.sessions i).settled + n) t := fun hn =>
      have ⟨q,hq⟩ := h.queued i n t hn
      ⟨q,List.mem_append_left _ hq⟩
    split at hn
    · rename_i hi
      subst hi
      rw [Session.queue_waiting] at hn
      rcases List.getElem?_append_singleton hn with hn | ⟨rfl,rfl⟩
      · exact hold hn
      · rw [← Session.requests_eq]
        exact ⟨p,List.mem_concat_self⟩
    · exact hold hn

theorem settle {auth : BackendAuth} {failed : Bool} (h : Numbered pool)
    (hrunning : (pool.sessions s).running = some (task,auth)) :
    Numbered (pool.settled s task failed) where
  taken := fun i => by
    rw [Pool.settled,Pool.record_events,takenOn_snoc,Pool.record_sessions,Pool.setConnection_events,
      Pool.setSession_events,h.taken,Pool.setConnection_sessions,Pool.setSession_apply]
    change (pool.sessions i).requests = _
    split
    · rename_i hi
      rw [hi,Session.requests,Session.requests,hrunning]
      change _ + 1 + _ = _ + 1 + 0 + _
      rw [Nat.add_zero]
    · rfl
  settled := fun i n => by
    rw [Pool.settled,Pool.record_events,List.mem_append,List.mem_singleton,Pool.record_sessions,
      Pool.setConnection_events,Pool.setSession_events,h.settled,Pool.setConnection_sessions,
      Pool.setSession_apply,Event.settled.injEq]
    split
    · rename_i hi
      rw [hi]
      change _ ↔ n < (pool.sessions s).settled + 1
      simp only [true_and]
      omega
    · rename_i hi
      exact ⟨fun hn => hn.resolve_right fun heq => hi heq.1,.inl⟩
  queued := fun i n t hn => by
    rw [Pool.settled,Pool.record_sessions,Pool.setConnection_sessions,Pool.setSession_apply] at hn ⊢
    split at hn
    · rename_i hi
      rw [if_pos hi,hi]
      have hqueue : (pool.sessions s).queue[n + 1]? = some t := by
        rw [Session.queue,hrunning]
        exact hn
      obtain ⟨q,hq⟩ := h.queued s (n + 1) t hqueue
      refine ⟨q,List.mem_append_left _ ?_⟩
      rw [Nat.add_right_comm]
      exact hq
    · rename_i hi
      rw [if_neg hi]
      obtain ⟨q,hq⟩ := h.queued i n t hn
      exact ⟨q,List.mem_append_left _ hq⟩

theorem learns {conn : Id} {handle : Option JsString} (h : Numbered pool)
    (hlearns : Pool.Learns pool s conn handle pool') : Numbered pool' := by
  have hevents := hlearns.events
  cases handle with
  | none => exact h.same hlearns.sessions (hevents.trans (List.append_nil _))
  | some handle =>
    have hrecorded : Numbered (pool.record (.registered conn handle s
      (pool.connections conn).conversation.principal)) := h.record trivial
    exact hrecorded.same hlearns.sessions hevents

theorem taken_frame (h : Numbered pool) (htaken : Pool.Taken config pool c frame rest pool') :
    Numbered pool' := by
  have hdrawn : Numbered (pool.drawn c frame) := h.record trivial
  cases htaken with
  | refused => exact hdrawn.same rfl rfl
  | quiet => exact hdrawn.same rfl rfl
  | loggedOn =>
    refine record (hdrawn.same ?_ ?_) trivial
    · exact Pool.setConnection_sessions _ _ _
    · exact Pool.setConnection_events _ _ _
  | metadata =>
    refine record (hdrawn.same ?_ ?_) trivial
    · exact Pool.setConnection_sessions _ _ _
    · exact Pool.setConnection_events _ _ _
  | @request task s _ hconn =>
    subst hconn
    refine enqueue (hdrawn.same ?_ ?_)
    · exact Pool.setConnection_sessions _ _ _
    · exact Pool.setConnection_events _ _ _

theorem step (h : Numbered pool) (hstep : Pool.Step config pool pool') : Numbered pool' := by
  cases hstep with
  | data => exact h.same rfl rfl
  | take => exact h.taken_frame Pool.takeFrame_taken
  | start s task rest hwaiting hrunning =>
    exact h.setSession rfl (Session.queue_start hwaiting hrunning)
  | send s task auth cookies hrunning => exact record (h.setSession rfl rfl) trivial
  | settle s task auth reply failed hrunning hfailed =>
    obtain ⟨handle,hlearns⟩ := Pool.answer_learns (pool.settled s task failed) s task reply hfailed
    exact (h.settle hrunning).learns hlearns
  | close c =>
    have hclosed : Numbered (pool.setSession c {pool.sessions c with closed := true}) :=
      h.setSession rfl rfl
    exact same hclosed rfl rfl
  | drain => exact h.same rfl rfl
  | logoff c =>
    have hended : Numbered (pool.ended c) := by
      refine setSession (h.same ?_ ?_) ?_ ?_
      · exact Pool.setConnection_sessions _ _ _
      · exact Pool.setConnection_events _ _ _
      · rfl
      · rfl
    change Numbered (if _ then (pool.ended c).record _ else pool.ended c)
    split
    · exact hended.record trivial
    · exact hended

end Numbered

structure Finished (connection : Connection) (session : Session) (loggedOff : Prop) : Prop where
  closed : connection.ending ≠ .open → session.closed = true
  idle : connection.ending ≠ .open → connection.busy = false
  spent : connection.ending ≠ .open → connection.failed = true ∨ connection.frames = []
  after : ∀ n,connection.ending = .after n → n = session.requests
  done : connection.ending = .done → session.queue = []
  off : loggedOff → connection.ending = .done

def Ended (pool : Pool) : Prop :=
  ∀ c,Finished (pool.connections c) (pool.sessions c) (.loggedOff c ∈ pool.events)

namespace Finished

variable {connection : Connection} {session : Session} {loggedOff : Prop}

theorem of_open (hopen : connection.ending = .open) (hoff : ¬loggedOff) :
    Finished connection session loggedOff where
  closed := fun h => absurd hopen h
  idle := fun h => absurd hopen h
  spent := fun h => absurd hopen h
  after := fun n h => by
    rw [hopen] at h
    exact nomatch h
  done := fun h => by
    rw [hopen] at h
    exact nomatch h
  off := fun h => absurd h hoff

theorem not_loggedOff (h : Finished connection session loggedOff) (hopen : connection.ending = .open) :
    ¬loggedOff := fun hoff => by
  have hdone := h.off hoff
  rw [hopen] at hdone
  exact nomatch hdone

theorem open_of_session (h : Finished connection session loggedOff)
    (hsession : session.closed = false) : connection.ending = .open := by
  by_contra hne
  have hclosed := h.closed hne
  rw [hsession] at hclosed
  exact nomatch hclosed

theorem open_of_frame (h : Finished connection session loggedOff)
    (hframes : connection.frames = frame :: rest) (hfailed : connection.failed = false) :
    connection.ending = .open := by
  by_contra hne
  rcases h.spent hne with hspent | hspent
  · rw [hfailed] at hspent
    exact nomatch hspent
  · rw [hframes] at hspent
    exact nomatch hspent

theorem of_session {session' : Session} (h : Finished connection session loggedOff)
    (hclosed : session.closed = true → session'.closed = true)
    (hrequests : session'.requests = session.requests)
    (hqueue : session.queue = [] → session'.queue = []) :
    Finished connection session' loggedOff where
  closed := fun hne => hclosed (h.closed hne)
  idle := h.idle
  spent := h.spent
  after := fun n hn => (h.after n hn).trans hrequests.symm
  done := fun hdone => hqueue (h.done hdone)
  off := h.off

end Finished

namespace Ended

theorem init (config : Config) : Ended (Pool.init config) := fun _ =>
  .of_open rfl List.not_mem_nil

theorem same (h : Ended pool) (hconnections : pool'.connections = pool.connections)
    (hsessions : pool'.sessions = pool.sessions) (hevents : pool'.events = pool.events) :
    Ended pool' := fun c => by
  rw [hconnections,hsessions,hevents]
  exact h c

theorem setConnection {connection : Connection} (h : Ended pool)
    (hc : Finished connection (pool.sessions c) (.loggedOff c ∈ pool.events)) :
    Ended (pool.setConnection c connection) := fun i => by
  rw [Pool.setConnection_apply]
  split
  · rename_i hi
    exact hi ▸ hc
  · exact h i

theorem setSession {session : Session} (h : Ended pool)
    (hs : Finished (pool.connections s) session (.loggedOff s ∈ pool.events)) :
    Ended (pool.setSession s session) := fun i => by
  rw [Pool.setSession_apply]
  split
  · rename_i hi
    exact hi ▸ hs
  · exact h i

theorem record (h : Ended pool) (he : ∀ c,event = .loggedOff c →
    (pool.connections c).ending = .done) : Ended (pool.record event) := fun c => by
  refine {h c with off := fun hmem => ?_}
  rcases List.mem_append.mp hmem with hmem | hmem
  · exact (h c).off hmem
  · exact he c (List.mem_singleton.mp hmem).symm

theorem taken_frame (h : Ended pool) (hframes : (pool.connections c).frames = frame :: rest)
    (hfailed : (pool.connections c).failed = false)
    (htaken : Pool.Taken config pool c frame rest pool') : Ended pool' := by
  have hopen := (h c).open_of_frame hframes hfailed
  have hoff := (h c).not_loggedOff hopen
  have hdrawn : Ended (pool.drawn c frame) := h.record fun _ heq => nomatch heq
  have hoff' := (hdrawn c).not_loggedOff hopen
  cases htaken with
  | refused => exact hdrawn.setConnection (.of_open hopen hoff')
  | quiet => exact hdrawn.setConnection (.of_open hopen hoff')
  | loggedOn =>
    exact record (hdrawn.setConnection (.of_open hopen hoff')) fun _ heq => nomatch heq
  | metadata =>
    exact record (hdrawn.setConnection (.of_open hopen hoff')) fun _ heq => nomatch heq
  | @request task s _ hconn _ hcontext =>
    refine record (setSession (hdrawn.setConnection (.of_open hopen hoff')) ?_)
      fun _ heq => nomatch heq
    have hs : (pool.connections s).ending = .open := by
      rcases Pool.contextOf_some hcontext with rfl | ⟨hclosed,-⟩
      · exact hopen
      · exact (h s).open_of_session hclosed
    refine .of_open ?_ ((hdrawn s).not_loggedOff hs)
    change Connection.ending (if s = c then _ else pool.connections s) = .open
    split
    · exact hopen
    · exact hs

theorem settle {auth : BackendAuth} {failed : Bool} (h : Ended pool)
    (hrunning : (pool.sessions s).running = some (task,auth)) :
    Ended (pool.settled s task failed) := by
  have hsession : Ended (pool.setSession s {pool.sessions s with
      running := none,settled := (pool.sessions s).settled + 1}) := by
    refine h.setSession ((h s).of_session id ?_ ?_)
    · rw [Session.requests,Session.requests,hrunning]
      change _ + 1 + 0 + _ = _ + 1 + _
      rw [Nat.add_zero]
    · rw [Session.queue,hrunning]
      exact fun hqueue => nomatch hqueue
  have hc := hsession task.conn
  refine record (hsession.setConnection ?_) fun _ heq => nomatch heq
  exact {
    closed := hc.closed
    idle := fun _ => rfl
    spent := fun hne => (hc.spent hne).imp (Bool.or_eq_true_iff.mpr ∘ .inl) id
    after := hc.after
    done := hc.done
    off := hc.off}

theorem learns {conn : Id} {handle : Option JsString} (h : Ended pool)
    (hlearns : Pool.Learns pool s conn handle pool') : Ended pool' := by
  have hevents := hlearns.events
  cases handle with
  | none => exact h.same hlearns.connections hlearns.sessions (hevents.trans (List.append_nil _))
  | some handle =>
    have hrecorded : Ended (pool.record (.registered conn handle s
      (pool.connections conn).conversation.principal)) := h.record fun _ heq => nomatch heq
    exact hrecorded.same hlearns.connections hlearns.sessions hevents

theorem ended {requests : Nat} (h : Ended pool) (hending : (pool.connections c).ending =
    .after requests) (hdone : requests ≤ (pool.sessions c).settled) : Ended (pool.ended c) := by
  have hc := h c
  have hne : (pool.connections c).ending ≠ .open := by
    rw [hending]
    exact nofun
  have hqueue : (pool.sessions c).queue = [] := by
    have hrequests := hc.after requests hending
    rw [Session.requests_eq] at hrequests
    exact List.eq_nil_of_length_eq_zero (by omega)
  have hconnection : Ended (pool.setConnection c {pool.connections c with ending := .done}) :=
    h.setConnection {
      closed := fun _ => hc.closed hne
      idle := fun _ => hc.idle hne
      spent := fun _ => hc.spent hne
      after := fun _ hn => nomatch hn
      done := fun _ => hqueue
      off := fun _ => rfl}
  exact hconnection.setSession ((hconnection c).of_session id rfl id)

theorem step (h : Ended pool) (hstep : Pool.Step config pool pool') : Ended pool' := by
  cases hstep with
  | data c frames hopen =>
    have hopen := (h c).open_of_session hopen
    exact h.setConnection (.of_open hopen ((h c).not_loggedOff hopen))
  | take c frame rest hframes hbusy hfailed => exact h.taken_frame hframes hfailed Pool.takeFrame_taken
  | start s task rest hwaiting hrunning =>
    refine h.setSession ((h s).of_session id ?_ ?_)
    · rw [Session.requests_eq,Session.requests_eq,Session.queue_start hwaiting hrunning]
    · rw [Session.queue_start hwaiting hrunning]
      exact id
  | send s task auth cookies hrunning =>
    refine record (h.setSession ((h s).of_session id ?_ id)) fun _ heq => nomatch heq
    rfl
  | settle s task auth reply failed hrunning hfailed =>
    obtain ⟨handle,hlearns⟩ := Pool.answer_learns (pool.settled s task failed) s task reply hfailed
    exact (h.settle hrunning).learns hlearns
  | close c =>
    have hclosed : Ended (pool.setSession c {pool.sessions c with closed := true}) :=
      h.setSession ((h c).of_session (fun _ => rfl) rfl id)
    exact same hclosed rfl rfl rfl
  | drain c hclosed hbusy hsettled hending =>
    exact h.setConnection {
      closed := fun _ => hclosed
      idle := fun _ => hbusy
      spent := fun _ => hsettled
      after := fun n hn => (Ending.after.inj hn).symm
      done := fun hdone => nomatch hdone
      off := fun hoff => absurd hoff ((h c).not_loggedOff hending)}
  | logoff c requests hending hdone =>
    have hended := h.ended hending hdone
    change Ended (if _ then (pool.ended c).record _ else pool.ended c)
    split
    · refine hended.record fun i hi => ?_
      obtain rfl := Event.loggedOff.inj hi
      exact congrArg Connection.ending (Pool.setConnection_self _ _ _)
    · exact hended

end Ended

theorem Pool.setSession_closed {session : Session}
    (h : session.closed = (pool.sessions c).closed) (s : Id) :
    ((pool.setSession c session).sessions s).closed = (pool.sessions s).closed := by
  rw [Pool.setSession_apply]
  split
  · rename_i hs
    rw [hs,h]
  · rfl

def Event.unregistered : Event → Prop
  | .registered _ _ _ _ => False
  | _ => True

theorem lastRegistration_append {handle : JsString} (events : List Event)
    (h : ∀ e ∈ more,e.unregistered) :
    lastRegistration handle (events ++ more) = lastRegistration handle events := by
  induction more using List.reverseRecOn with
  | nil => rw [List.append_nil]
  | append_singleton more event ih =>
    rw [← List.append_assoc,lastRegistration_snoc,ih fun e he => h e (List.mem_append_left _ he)]
    cases event with
    | registered => exact (h _ List.mem_concat_self).elim
    | _ => rfl

theorem Pool.Taken.handles (h : Pool.Taken config pool c frame rest pool') :
    pool'.editingHandles = pool.editingHandles ∧
      (∀ s,(pool'.sessions s).closed = (pool.sessions s).closed) ∧
      ∃ more,pool'.events = pool.events ++ more ∧ ∀ e ∈ more,e.unregistered := by
  have hdrawn : ∀ e ∈ [Event.frame c (pool.connections c).conversation.phase frame],e.unregistered :=
    List.forall_mem_singleton.mpr trivial
  cases h with
  | refused => exact ⟨rfl,fun _ => rfl,_,rfl,hdrawn⟩
  | quiet => exact ⟨rfl,fun _ => rfl,_,rfl,hdrawn⟩
  | loggedOn =>
    refine ⟨rfl,fun _ => rfl,_,List.append_assoc _ _ _,?_⟩
    exact List.forall_mem_append.mpr ⟨hdrawn,List.forall_mem_singleton.mpr trivial⟩
  | metadata =>
    refine ⟨rfl,fun _ => rfl,_,List.append_assoc _ _ _,?_⟩
    exact List.forall_mem_append.mpr ⟨hdrawn,List.forall_mem_singleton.mpr trivial⟩
  | request =>
    refine ⟨rfl,Pool.setSession_closed ?_,_,List.append_assoc _ _ _,?_⟩
    · rfl
    · exact List.forall_mem_append.mpr ⟨hdrawn,List.forall_mem_singleton.mpr trivial⟩

namespace Held

theorem init (config : Config) : Held (Pool.init config) := fun _ _ h => nomatch h

theorem keep (more : List Event) (h : Held pool)
    (hhandles : ∀ k o,pool'.editingHandles k = some o → pool.editingHandles k = some o ∧
      (pool'.sessions o.session).closed = (pool.sessions o.session).closed)
    (hevents : pool'.events = pool.events ++ more) (hmore : ∀ e ∈ more,e.unregistered)
    (hprincipal : ∀ c p,(pool.connections c).conversation.principal = some p →
      (pool'.connections c).conversation.principal = some p) : Held pool' := fun k o ho => by
  obtain ⟨hold,hclosed⟩ := hhandles k o ho
  obtain ⟨hopen,c,hlast,hnamed⟩ := h k o hold
  rw [hclosed,hevents,lastRegistration_append _ hmore]
  exact ⟨hopen,c,hlast,fun p hp => hprincipal c p (hnamed p hp)⟩

theorem learns {conn : Id} {handle : Option JsString} (h : Held pool)
    (hlearns : Pool.Learns pool s conn handle pool') : Held pool' := fun k o ho => by
  rw [hlearns.sessions,hlearns.connections,hlearns.events]
  rcases hlearns.handles k o ho with ⟨rfl,rfl⟩ | ⟨hne,hold⟩
  · refine ⟨hlearns.open_of_new nofun,conn,?_,fun p hp => hp⟩
    exact lastRegistration_snoc.trans (if_pos rfl)
  · obtain ⟨hopen,c,hlast,hnamed⟩ := h k o hold
    refine ⟨hopen,c,?_,hnamed⟩
    cases handle with
    | none => exact (congrArg (lastRegistration k) (List.append_nil _)).trans hlast
    | some handle =>
      rw [← hlast]
      exact lastRegistration_snoc.trans (if_neg fun heq => hne (congrArg some heq))

theorem same (h : Held pool) (hhandles : pool'.editingHandles = pool.editingHandles)
    (hclosed : ∀ s,(pool'.sessions s).closed = (pool.sessions s).closed)
    (hevents : pool'.events = pool.events ++ more) (hmore : ∀ e ∈ more,e.unregistered)
    (hprincipal : ∀ c p,(pool.connections c).conversation.principal = some p →
      (pool'.connections c).conversation.principal = some p) : Held pool' :=
  h.keep _ (fun _ _ ho => ⟨hhandles ▸ ho,hclosed _⟩) hevents hmore hprincipal

theorem taken_frame (h : Held pool) (htaken : Pool.Taken config pool c frame rest pool')
    (hprincipal : ∀ c p,(pool.connections c).conversation.principal = some p →
      (pool'.connections c).conversation.principal = some p) : Held pool' := by
  obtain ⟨hhandles,hclosed,more,hevents,hmore⟩ := htaken.handles
  exact h.same hhandles hclosed hevents hmore hprincipal

theorem settle {failed : Bool} (h : Held pool) : Held (pool.settled s task failed) := by
  refine h.keep [.settled s (pool.sessions s).settled] (fun k o ho => ⟨ho,?_⟩) rfl
    (List.forall_mem_singleton.mpr trivial) fun c p hp => ?_
  · rw [Pool.settled,Pool.record_sessions,Pool.setConnection_sessions,Pool.setSession_apply]
    split
    · rename_i hs
      rw [hs]
    · rfl
  · rw [(Calm.settled pool s task failed).principal,hp]

theorem close (h : Held pool) : Held
    ((pool.setSession c {pool.sessions c with closed := true}).forgetSession c) := by
  refine h.keep _ (fun k o ho => ?_) (List.append_nil _).symm (List.forall_mem_nil _) fun _ _ => id
  obtain ⟨hold,hne⟩ := Pool.forgetSession_some ho
  refine ⟨hold,?_⟩
  rw [Pool.forgetSession_sessions,Pool.setSession_apply,if_neg hne]

theorem step (h : Held pool) (hidentified : Identified pool) (hstep : Pool.Step config pool pool') :
    Held pool' := by
  have hprincipal := fun (c : Id) (p : Principal) (hp : _ = some p) =>
    hidentified.keeps hstep (c := c) hp
  cases hstep with
  | data =>
    exact h.same rfl (fun _ => rfl) (List.append_nil _).symm (List.forall_mem_nil _) hprincipal
  | take => exact h.taken_frame Pool.takeFrame_taken hprincipal
  | start s task rest hwaiting hrunning =>
    refine h.same rfl (Pool.setSession_closed ?_) (List.append_nil _).symm (List.forall_mem_nil _)
      hprincipal
    rfl
  | send s task auth cookies hrunning =>
    refine h.same rfl (Pool.setSession_closed ?_) rfl (List.forall_mem_singleton.mpr trivial)
      hprincipal
    rfl
  | settle s task auth reply failed hrunning hfailed =>
    obtain ⟨handle,hlearns⟩ := Pool.answer_learns (pool.settled s task failed) s task reply hfailed
    exact h.settle.learns hlearns
  | close => exact h.close
  | drain =>
    exact h.same rfl (fun _ => rfl) (List.append_nil _).symm (List.forall_mem_nil _) hprincipal
  | logoff c requests hending hdone =>
    have hended : ∀ s,((pool.ended c).sessions s).closed = (pool.sessions s).closed :=
      Pool.setSession_closed rfl
    change Held (if _ then (pool.ended c).record _ else pool.ended c)
    split
    · exact h.same rfl hended rfl (List.forall_mem_singleton.mpr trivial) fun c p hp => by
        rw [Pool.record_connections,(Calm.ended pool _).principal,hp]
    · exact h.same rfl hended (List.append_nil _).symm (List.forall_mem_nil _) fun c p hp => by
        rw [(Calm.ended pool _).principal,hp]

end Held

structure Tended (pool : Pool) : Prop where
  identified : Identified pool
  numbered : Numbered pool
  ended : Ended pool
  held : Held pool
  events : Chronicle Kept pool.events

namespace Tended

theorem taken_frame (h : Tended pool) (htaken : Pool.Taken config pool c frame rest pool') :
    Chronicle Kept pool'.events := by
  have hdrawn : Chronicle Kept (pool.drawn c frame).events := h.events.snoc trivial
  cases htaken with
  | refused => exact hdrawn
  | quiet => exact hdrawn
  | loggedOn => exact hdrawn.snoc trivial
  | metadata => exact hdrawn.snoc trivial
  | @request task s _ hconn howner hcontext =>
    refine hdrawn.snoc ⟨?_,?_,fun hne => ?_⟩
    · exact (h.identified.calm (.drawn pool c frame) c).1
    · have hrecorded : Numbered (pool.record (.frame c (pool.connections c).conversation.phase frame)) :=
        h.numbered.record trivial
      exact (hrecorded.taken s).symm
    · obtain ⟨hclosed,hfound⟩ := (Pool.contextOf_some hcontext).resolve_left hne
      obtain ⟨handle,hhandle,hentry⟩ := Option.bind_eq_some_iff.mp (howner.symm.trans hfound)
      obtain ⟨-,c',hlast,-⟩ := h.held handle _ hentry
      exact ⟨handle,c',hhandle,List.mem_append_left _ (lastRegistration_mem hlast)⟩

theorem send {auth : BackendAuth} (h : Tended pool)
    (hrunning : (pool.sessions s).running = some (task,auth)) :
    Kept pool.events (.sent task.conn s (pool.sessions s).settled auth) := by
  have hqueue : (pool.sessions s).queue[0]? = some task := by
    rw [Session.queue,hrunning]
    rfl
  obtain ⟨p,hp⟩ := h.numbered.queued s 0 task hqueue
  refine ⟨⟨_,_,p,hp⟩,fun m hm => (h.numbered.settled s m).mpr hm,fun hsettled => ?_,fun hoff => ?_⟩
  · exact absurd ((h.numbered.settled s _).mp hsettled) (Nat.lt_irrefl _)
  · rw [(h.ended s).done ((h.ended s).off hoff)] at hqueue
    exact nomatch hqueue

theorem settle {auth : BackendAuth} {failed : Bool} {reply : Pool.Reply}
    (h : Tended pool)
    (hrunning : (pool.sessions s).running = some (task,auth)) :
    Chronicle Kept ((pool.settled s task failed).replied s task reply).events := by
  have hsettled : Chronicle Kept (pool.settled s task failed).events := h.events.snoc trivial
  obtain ⟨handle,hlearns⟩ := Pool.replied_learns (pool.settled s task failed) s task reply
  rw [hlearns.events]
  cases handle with
  | none => exact (List.append_nil _).symm ▸ hsettled
  | some handle =>
    have hqueue : (pool.sessions s).queue[0]? = some task := by
      rw [Session.queue,hrunning]
      rfl
    obtain ⟨p,hp⟩ := h.numbered.queued s 0 task hqueue
    refine hsettled.snoc ⟨?_,(pool.sessions s).settled,List.getLast?_concat,task.lockHandle,task.owner,p,?_⟩
    · exact (h.identified.calm (.settled pool s task failed) task.conn).1
    · exact List.mem_append_left _ hp

theorem chronicle (h : Tended pool) (hstep : Pool.Step config pool pool') :
    Chronicle Kept pool'.events := by
  cases hstep with
  | data | start | close | drain => exact h.events
  | take => exact h.taken_frame Pool.takeFrame_taken
  | send s task auth cookies hrunning => exact h.events.snoc (h.send hrunning)
  | settle s task auth reply failed hrunning =>
    cases reply with
    | none => exact h.events.snoc trivial
    | some reply => exact h.settle hrunning
  | logoff c =>
    change Chronicle Kept (Pool.events (if _ then (pool.ended c).record _ else pool.ended c))
    split
    · exact h.events.snoc trivial
    · exact h.events

theorem of_run (h : Pool.Run config pool) : Tended pool := by
  induction h with
  | init => exact ⟨.init config,.init config,.init config,.init config,.nil⟩
  | step hrun hstep ih =>
    exact {
      identified := ih.identified.step hstep
      numbered := ih.numbered.step hstep
      ended := ih.ended.step hstep
      held := ih.held.step ih.identified hstep
      events := ih.chronicle hstep}

end Tended

theorem sessions_kept (h : Pool.Run config pool) : Held pool ∧ Chronicle Kept pool.events :=
  ⟨(Tended.of_run h).held,(Tended.of_run h).events⟩

namespace Pool

def started (pool : Pool) (s : Id) : Pool :=
  match (pool.sessions s).waiting,(pool.sessions s).running with
  | task :: rest,none => pool.setSession s {pool.sessions s with
      waiting := rest,running := some (task,(pool.connections task.conn).conversation.auth)}
  | _,_ => pool

def answered (pool : Pool) (s : Id) (reply : Reply) : Pool :=
  match (pool.sessions s).running with
  | some (task,_) => (pool.settled s task false).replied s task reply
  | none => pool

theorem Run.started (h : Run config pool) : Run config (pool.started s) := by
  rw [Pool.started]
  split
  · rename_i hwaiting hrunning
    exact h.step (.start pool s _ _ hwaiting hrunning)
  · exact h

theorem Run.answered {reply : Reply} (h : Run config pool) : Run config (pool.answered s reply) := by
  rw [Pool.answered]
  split
  · rename_i task auth hrunning
    exact h.step (.settle pool s task auth (some reply) false hrunning nofun)
  · exact h

def fed (config : Config) (c : Id) (frames : List Bytes) (pool : Pool) : Pool :=
  if (pool.sessions c).closed = false ∧ (pool.connections c).frames = [] then
    serve config c frames (pool.setConnection c {pool.connections c with frames := frames})
  else pool

def closing (pool : Pool) (c : Id) : Pool :=
  if (pool.sessions c).closed = false then
    (pool.setSession c {pool.sessions c with closed := true}).forgetSession c
  else pool

theorem Run.fed {frames : List Bytes} (h : Run config pool) : Run config (pool.fed config c frames) := by
  rw [Pool.fed]
  split
  · rename_i hidle
    have hdata := h.step (.data pool c frames hidle.1)
    rw [hidle.2,List.nil_append] at hdata
    exact hdata.serve (congrArg Connection.frames (setConnection_self _ c _))
  · exact h

theorem Run.closing (h : Run config pool) : Run config (pool.closing c) := by
  rw [Pool.closing]
  split
  · rename_i hopen
    exact h.step (.close pool c hopen)
  · exact h

end Pool

def lockPath : JsString := js "/lock?_action=LOCK"

def usePath : JsString := js "/object?lockHandle=held"

def lockHandle : String := "0123456789ABCDEF0123456789ABCDEF01234567"

def lockConfig : Config := {sampleConfig with platform := {sampleConfig.platform with
  newURL := fun path =>
    if path = lockPath then some ⟨sampleConfig.origin,js "/lock",[(js "_action",js "LOCK")]⟩
    else if path = usePath then
      some ⟨sampleConfig.origin,js "/object",[(js "lockHandle",js lockHandle)]⟩
    else none}}

def opening (path : JsString) : List Bytes :=
  let chain := chained 0x0502 [⟨0x0102,utf16le "SADT_REST_RFC_ENDPOINT"⟩,
    ⟨0x3c05,bufferFrom (Tunnel.document ⟨js "POST",path,[],[]⟩)⟩]
  [List.replicate 64 0,header 1,header 5,logonFrame,
    header 0xcb ++ [5,2,0,0] ++ chain ++ trailer (chain.length + 6) 0x8500]

def lockReply : Pool.Reply :=
  ⟨200,asciiBytes ("<LOCK_HANDLE>" ++ lockHandle ++ "</LOCK_HANDLE>")⟩

def lockRun : Pool :=
  ((((Pool.received lockConfig 0 (opening lockPath)).started 0).answered 0 lockReply).fed lockConfig 1
    (opening usePath))

set_option maxRecDepth 10000 in
theorem sessions_kept_sample : (takenOn 0 lockRun.events = 2 ∧ (lockRun.connections 1).busy = true ∧
      (lockRun.editingHandles (js lockHandle)).isSome = true ∧
      ((lockRun.closing 0).editingHandles (js lockHandle)).isSome = false) ∧
    Held (lockRun.closing 0) ∧ Chronicle Kept (lockRun.closing 0).events :=
  ⟨by decide +kernel,
    sessions_kept ((Pool.received_run lockConfig 0 _).started).answered.fed.closing⟩

end OpenSteamgate.Protocols.Server
