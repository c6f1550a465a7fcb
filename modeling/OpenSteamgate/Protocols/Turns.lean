import OpenSteamgate.Library.Outcome
import OpenSteamgate.Protocols.Pool

namespace OpenSteamgate.Protocols.Server

open Tunnel (JsString js)

variable {config : Config} {pool pool' : Pool} {c s : Id} {task : Task} {frame : Bytes}
  {rest : List Bytes} {owner : Option Owner} {event : Event}

namespace Pool

section fields

variable (pool : Pool) (c s : Id) (connection : Connection) (session : Session)
  (handle : JsString) (owner : Option Owner) (event : Event) (task : Task)

@[simp] theorem setConnection_sessions : (pool.setConnection c connection).sessions = pool.sessions :=
  rfl

@[simp] theorem setConnection_events : (pool.setConnection c connection).events = pool.events := rfl

@[simp] theorem setConnection_self : (pool.setConnection c connection).connections c = connection :=
  if_pos rfl

@[simp] theorem setSession_events : (pool.setSession s session).events = pool.events := rfl

@[simp] theorem record_connections : (pool.record event).connections = pool.connections := rfl

@[simp] theorem record_sessions : (pool.record event).sessions = pool.sessions := rfl

@[simp] theorem record_events : (pool.record event).events = pool.events ++ [event] := rfl

@[simp] theorem forgetSession_sessions : (pool.forgetSession s).sessions = pool.sessions := rfl

@[simp] theorem enqueue_connections : (pool.enqueue s task).connections = pool.connections := rfl

@[simp] theorem enqueue_events : (pool.enqueue s task).events = pool.events := rfl

theorem setConnection_apply (i : Id) : (pool.setConnection c connection).connections i =
    if i = c then connection else pool.connections i := rfl

theorem setSession_apply (i : Id) : (pool.setSession s session).sessions i =
    if i = s then session else pool.sessions i := rfl

theorem enqueue_apply (i : Id) : (pool.enqueue s task).sessions i =
    if i = s then {pool.sessions s with waiting := (pool.sessions s).waiting ++ [task]}
    else pool.sessions i := rfl

end fields

theorem forgetSession_some {handle : JsString} {o : Owner}
    (h : (pool.forgetSession s).editingHandles handle = some o) :
    pool.editingHandles handle = some o ∧ o.session ≠ s := by
  unfold forgetSession at h
  dsimp only at h
  cases howner : pool.editingHandles handle with
  | none =>
    rw [howner] at h
    cases h
  | some owner =>
    rw [howner] at h
    change (if owner.session = s then none else some owner) = some o at h
    split at h
    · cases h
    · rename_i hne
      obtain rfl := Option.some.inj h
      exact ⟨rfl,hne⟩

theorem contextOf_some (h : pool.contextOf c owner = some s) :
    s = c ∨ (pool.sessions s).closed = false ∧
      owner = some ⟨s,(pool.connections c).conversation.principal⟩ := by
  cases owner with
  | none =>
    simp only [contextOf] at h
    split at h
    · exact nomatch h
    · exact .inl (Option.some.inj h).symm
  | some o =>
    simp only [contextOf] at h
    split at h
    · rename_i howner
      obtain ⟨session,principal⟩ := o
      obtain rfl := Option.some.inj h
      exact .inr ⟨howner.2,by rw [← howner.1]⟩
    · exact .inl (Option.some.inj h).symm

end Pool

def Early (phase : Phase) (frame : Bytes) : Prop :=
  (phase = .initialise ∨ phase = .allocate) ∧ frame[0]? = some 0x06 ∧ frame[1]? = some 0xcb ∧
    80 < frame.length

instance (phase : Phase) (frame : Bytes) : Decidable (Early phase frame) :=
  inferInstanceAs (Decidable (_ ∧ _))

inductive Handled (config : Config) (before : Conversation) (frame : Bytes) :
    Conversation → Answer → Prop
  | quiet {after : Conversation} {answer : Answer} :
      answer = .pong ∨ answer = .accepted ∨ answer = .silent →
      after.principal = before.principal → after.auth = before.auth →
      (after.phase = .calls ↔ before.phase = .calls) → Handled config before frame after answer
  | loggedOn {caller : Logon} : before.phase = .logon →
      authenticateLogon frame config.rfcAuth = .ok caller →
      Handled config before frame
        ⟨.calls,some (caller.client,caller.user),
          if config.rfcAuth.mode = .demo ∧ config.backendAuth.user = [] then
            {config.backendAuth with user := caller.user} else before.auth⟩ (.loggedOn caller)
  | metadata {functionName : JsString} : before.phase = .calls ∨ Early before.phase frame →
      Handled config before frame before (.metadata functionName)
  | request {request : AdtRequest} {target : Url} : before.phase = .calls ∨ Early before.phase frame →
      Handled config before frame before (.request request target)

theorem answerCall_kind {conversation : Conversation} {payload : Bytes}
    {answer : Answer} (h : answerCall config conversation payload = .ok answer) :
    (∃ functionName,answer = .metadata functionName) ∨
      ∃ request target,answer = .request request target := by
  obtain ⟨call,-,h⟩ := bind_eq_ok h
  split at h
  · split at h
    · exact nomatch h
    · exact .inl ⟨_,(Except.ok.inj h).symm⟩
  split at h
  · split at h
    · exact nomatch h
    · exact .inl ⟨_,(Except.ok.inj h).symm⟩
  split at h
  · exact nomatch h
  · obtain ⟨parsed,-,h⟩ := bind_eq_ok h
    obtain ⟨request,-,h⟩ := bind_eq_ok h
    obtain ⟨target,-,h⟩ := bind_eq_ok h
    exact .inr ⟨request,target,(Except.ok.inj h).symm⟩

theorem handle_handled {before after : Conversation} {answer : Answer} (h : handle config before frame = .ok (after,answer)) :
    Handled config before frame after answer := by
  rw [handle] at h
  split at h
  · obtain ⟨rfl,rfl⟩ := ok_pair h
    exact .quiet (.inl rfl) rfl rfl Iff.rfl
  split at h
  · rename_i hphase
    split at h
    · exact nomatch h
    · obtain ⟨rfl,rfl⟩ := ok_pair h
      exact .quiet (.inr (.inl rfl)) rfl rfl (by simp [hphase])
  rename_i hgateway
  split at h
  · exact nomatch h
  rename_i hrecord
  split at h
  · rename_i hphase
    split at h
    · exact nomatch h
    · obtain ⟨rfl,rfl⟩ := ok_pair h
      exact .quiet (.inr (.inl rfl)) rfl rfl (by simp [hphase.1])
  split at h
  · obtain ⟨rfl,rfl⟩ := ok_pair h
    exact .quiet (.inr (.inr rfl)) rfl rfl Iff.rfl
  split at h
  · rename_i hphase
    split at h
    · exact nomatch h
    · obtain ⟨rfl,rfl⟩ := ok_pair h
      exact .quiet (.inr (.inl rfl)) rfl rfl (by simp [hphase.1])
  split at h
  · exact nomatch h
  rename_i hstep
  split at h
  · rename_i hphase
    obtain ⟨caller,hcaller,h⟩ := bind_eq_ok h
    obtain ⟨rfl,rfl⟩ := ok_pair h
    exact .loggedOn hphase hcaller
  · rename_i hphase
    obtain ⟨answered,hanswer,h⟩ := bind_eq_ok h
    obtain ⟨rfl,rfl⟩ := ok_pair h
    have hcall : before.phase = .calls ∨ Early before.phase frame := by
      rw [not_or,Decidable.not_not] at hrecord hstep
      have hlong : 80 < frame.length := Nat.lt_of_not_le hstep.2
      cases hbefore : before.phase with
      | gateway => exact absurd hbefore hgateway
      | initialise => exact .inr ⟨.inl rfl,hrecord.2,hstep.1,hlong⟩
      | allocate => exact .inr ⟨.inr rfl,hrecord.2,hstep.1,hlong⟩
      | logon => exact absurd hbefore hphase
      | calls => exact .inl rfl
    rcases answerCall_kind hanswer with ⟨functionName,rfl⟩ | ⟨request,target,rfl⟩
    · exact .metadata hcall
    · exact .request hcall

namespace Pool

@[simp] theorem setConnection_twice (pool : Pool) (c : Id) (first second : Connection) :
    (pool.setConnection c first).setConnection c second = pool.setConnection c second := by
  rw [setConnection,setConnection,setConnection]
  congr 1
  funext i
  change (if i = c then second else if i = c then first else _) = if i = c then second else _
  split
  · rfl
  · rfl

def drawn (pool : Pool) (c : Id) (frame : Bytes) : Pool :=
  pool.record (.frame c (pool.connections c).conversation.phase frame)

def settled (pool : Pool) (s : Id) (task : Task) (failed : Bool) : Pool :=
  ((pool.setSession s {pool.sessions s with
    running := none,settled := (pool.sessions s).settled + 1}).setConnection task.conn
      {pool.connections task.conn with
        busy := false,failed := (pool.connections task.conn).failed || failed}).record
          (.settled s (pool.sessions s).settled)

def ended (pool : Pool) (c : Id) : Pool :=
  (pool.setConnection c {pool.connections c with ending := .done}).setSession c
    {pool.sessions c with cookies := false}

inductive Taken (config : Config) (pool : Pool) (c : Id) (frame : Bytes) (rest : List Bytes) :
    Pool → Prop
  | refused : Taken config pool c frame rest ((pool.drawn c frame).setConnection c
      {pool.connections c with frames := rest,failed := true})
  | quiet {after : Conversation} :
      after.principal = (pool.connections c).conversation.principal →
      after.auth = (pool.connections c).conversation.auth →
      (after.phase = .calls ↔ (pool.connections c).conversation.phase = .calls) →
      Taken config pool c frame rest ((pool.drawn c frame).setConnection c
        {pool.connections c with frames := rest,conversation := after})
  | loggedOn {caller : Logon} : (pool.connections c).conversation.phase = .logon →
      authenticateLogon frame config.rfcAuth = .ok caller →
      Taken config pool c frame rest (((pool.drawn c frame).setConnection c
        {pool.connections c with
          frames := rest
          conversation := ⟨.calls,some (caller.client,caller.user),
            if config.rfcAuth.mode = .demo ∧ config.backendAuth.user = [] then
              {config.backendAuth with user := caller.user}
            else (pool.connections c).conversation.auth⟩}).record (.loggedOn c frame caller))
  | metadata {functionName : JsString} : (pool.connections c).conversation.phase = .calls ∨
        Early (pool.connections c).conversation.phase frame →
      Taken config pool c frame rest (((pool.drawn c frame).setConnection c
        {pool.connections c with frames := rest}).record (.metadata c functionName))
  | request {task : Task} {s : Id} : (pool.connections c).conversation.phase = .calls ∨
        Early (pool.connections c).conversation.phase frame →
      task.conn = c → task.owner = task.lockHandle.bind pool.editingHandles →
      pool.contextOf c task.owner = some s →
      Taken config pool c frame rest ((((pool.drawn c frame).setConnection c
        {pool.connections c with frames := rest,busy := true}).enqueue s task).record
          (.taken c s (pool.sessions s).requests task.lockHandle task.owner
            (pool.connections c).conversation.principal))

theorem contextOf_drawn (pool : Pool) (c : Id) (frame : Bytes) (rest : List Bytes) (owner : Option Owner) :
    contextOf ((pool.drawn c frame).setConnection c {pool.connections c with frames := rest}) c owner =
      pool.contextOf c owner := by
  simp only [contextOf,setConnection_self,setConnection_sessions,drawn,record_sessions]

theorem takeRequest_none {request : AdtRequest} {target : Url} (h : pool.contextOf c
      ((target.get (js "lockHandle")).bind pool.editingHandles) = none) :
    pool.takeRequest c request target =
      pool.setConnection c {pool.connections c with failed := true} := by
  rw [takeRequest]
  simp only [h]

theorem takeRequest_some {request : AdtRequest} {target : Url} (h : pool.contextOf c
      ((target.get (js "lockHandle")).bind pool.editingHandles) = some s) :
    pool.takeRequest c request target =
      ((pool.setConnection c {pool.connections c with busy := true}).enqueue s
        ⟨c,request,target,(target.get (js "lockHandle")).bind pool.editingHandles⟩).record
          (.taken c s (pool.sessions s).requests (target.get (js "lockHandle"))
            ((target.get (js "lockHandle")).bind pool.editingHandles)
            (pool.connections c).conversation.principal) := by
  rw [takeRequest]
  simp only [h]
  rfl

theorem takeFrame_taken : Taken config pool c frame rest (pool.takeFrame config c frame rest) := by
  rw [takeFrame]
  cases hhandle : handle config (pool.connections c).conversation frame with
  | error e => exact .refused
  | ok result =>
    obtain ⟨after,answer⟩ := result
    cases handle_handled hhandle with
    | quiet hanswer hprincipal hauth hphase =>
      rcases hanswer with rfl | rfl | rfl
      · exact .quiet hprincipal hauth hphase
      · exact .quiet hprincipal hauth hphase
      · exact .quiet hprincipal hauth hphase
    | loggedOn hphase hcaller => exact .loggedOn hphase hcaller
    | metadata hphase => exact .metadata hphase
    | @request request target hphase =>
      change Taken config pool c frame rest (takeRequest ((pool.drawn c frame).setConnection c
        {pool.connections c with frames := rest}) c request target)
      let task : Task := {
        conn := c
        request := request
        target := target
        owner := (target.get (js "lockHandle")).bind pool.editingHandles}
      have hcontext := contextOf_drawn pool c frame rest task.owner
      cases hs : pool.contextOf c task.owner with
      | none =>
        rw [takeRequest_none (hcontext.trans hs),setConnection_twice,setConnection_self]
        exact .refused
      | some s =>
        rw [takeRequest_some (hcontext.trans hs),setConnection_twice,setConnection_self]
        exact .request hphase rfl rfl hs

theorem register_spec (pool : Pool) (s : Id) (task : Task) (reply : Reply) :
    pool.register s task reply = pool ∨ (pool.sessions s).closed = false ∧ ∃ handle,
      pool.register s task reply = (pool.setHandle handle
        (some ⟨s,(pool.connections task.conn).conversation.principal⟩)).record (.registered task.conn
          handle s (pool.connections task.conn).conversation.principal) := by
  rw [register]
  split
  · rename_i hlock
    split
    · exact .inr ⟨hlock.2.2,_,rfl⟩
    · exact .inl rfl
  · exact .inl rfl

theorem unlock_some {handle : JsString} {o : Owner}
    (h : (pool.unlock s task).editingHandles handle = some o) :
    pool.editingHandles handle = some o := by
  rw [unlock] at h
  split at h
  · split at h
    · change (if handle = _ then none else pool.editingHandles handle) = some o at h
      split at h
      · exact nomatch h
      · exact h
    · exact h
  · exact h

theorem unlock_frame (pool : Pool) (s : Id) (task : Task) :
    (pool.unlock s task).connections = pool.connections ∧ (pool.unlock s task).sessions = pool.sessions ∧
      (pool.unlock s task).events = pool.events := by
  rw [unlock]
  split
  · split
    · exact ⟨rfl,rfl,rfl⟩
    · exact ⟨rfl,rfl,rfl⟩
  · exact ⟨rfl,rfl,rfl⟩

structure Learns (pool : Pool) (s : Id) (conn : Id) (handle : Option JsString) (pool' : Pool) :
    Prop where
  open_of_new : handle ≠ none → (pool.sessions s).closed = false
  connections : pool'.connections = pool.connections
  sessions : pool'.sessions = pool.sessions
  events : pool'.events = pool.events ++ (handle.map fun h =>
    .registered conn h s (pool.connections conn).conversation.principal).toList
  handles : ∀ h o,pool'.editingHandles h = some o →
    handle = some h ∧ o = ⟨s,(pool.connections conn).conversation.principal⟩ ∨
    handle ≠ some h ∧ pool.editingHandles h = some o

theorem Learns.refl {conn : Id} : Learns pool s conn none pool where
  open_of_new := fun h => absurd rfl h
  connections := rfl
  sessions := rfl
  events := (List.append_nil _).symm
  handles := fun _ _ ho => .inr ⟨nofun,ho⟩

theorem Learns.forget {conn : Id} {handle : Option JsString} {next : Pool}
    (h : Learns pool s conn handle pool') (hconnections : next.connections = pool'.connections)
    (hsessions : next.sessions = pool'.sessions) (hevents : next.events = pool'.events)
    (hhandles : ∀ h o,next.editingHandles h = some o → pool'.editingHandles h = some o) :
    Learns pool s conn handle next where
  open_of_new := h.open_of_new
  connections := hconnections.trans h.connections
  sessions := hsessions.trans h.sessions
  events := hevents.trans h.events
  handles := fun k o ho => h.handles k o (hhandles k o ho)

theorem register_learns (pool : Pool) (s : Id) (task : Task) (reply : Reply) :
    ∃ handle,Learns pool s task.conn handle (pool.register s task reply) := by
  rcases register_spec pool s task reply with h | ⟨hopen,handle,h⟩
  · refine ⟨none,?_⟩
    rw [h]
    exact .refl
  · refine ⟨some handle,?_⟩
    rw [h]
    refine ⟨fun _ => hopen,rfl,rfl,rfl,fun k o ho => ?_⟩
    change (if k = handle then _ else pool.editingHandles k) = some o at ho
    split at ho
    · rename_i hk
      exact .inl ⟨hk ▸ rfl,(Option.some.inj ho).symm⟩
    · rename_i hk
      exact .inr ⟨fun heq => hk (Option.some.inj heq).symm,ho⟩

theorem replied_learns (pool : Pool) (s : Id) (task : Task) (reply : Reply) :
    ∃ handle,Learns pool s task.conn handle (pool.replied s task reply) := by
  rw [replied]
  split
  · obtain ⟨handle,hregister⟩ := register_learns pool s task reply
    obtain ⟨hconnections,hsessions,hevents⟩ := unlock_frame (pool.register s task reply) s task
    have hunlock := hregister.forget hconnections hsessions hevents fun _ _ => unlock_some
    refine ⟨handle,?_⟩
    change Learns pool s task.conn handle (if _ then forgetSession _ s else _)
    split
    · exact hunlock.forget rfl rfl rfl fun _ _ h => (forgetSession_some h).1
    · exact hunlock
  · exact ⟨none,.refl⟩

theorem answer_learns {failed : Bool} (pool : Pool) (s : Id) (task : Task) (reply : Option Reply)
    (hfailed : reply = none → failed = true) : ∃ handle,Learns pool s task.conn handle
      (match reply with | some reply => pool.replied s task reply | none => pool) := by
  cases reply with
  | some reply => exact replied_learns pool s task reply
  | none => exact ⟨none,.refl⟩

theorem Taken.recorded (h : Taken config pool c frame rest pool') :
    .frame c (pool.connections c).conversation.phase frame ∈ pool'.events := by
  cases h with
  | refused => exact List.mem_concat_self
  | quiet => exact List.mem_concat_self
  | loggedOn | metadata | request => exact List.mem_append_left _ List.mem_concat_self

theorem Taken.frames (h : Taken config pool c frame rest pool') :
    (pool'.connections c).frames = rest := by
  cases h with
  | refused | quiet | loggedOn | metadata =>
    simp only [record_connections,setConnection_self]
  | request => simp only [record_connections,enqueue_connections,setConnection_self]

def serve (config : Config) (c : Id) : List Bytes → Pool → Pool
  | frame :: rest,pool =>
    if (pool.connections c).busy = false ∧ (pool.connections c).failed = false then
      serve config c rest (pool.takeFrame config c frame rest)
    else pool
  | [],pool => pool

theorem Run.serve {frames : List Bytes} (h : Run config pool)
    (hframes : (pool.connections c).frames = frames) : Run config (serve config c frames pool) := by
  induction frames generalizing pool with
  | nil => exact h
  | cons frame rest ih =>
    rw [Pool.serve]
    split
    · rename_i hidle
      exact ih (h.step (.take pool c frame rest hframes hidle.1 hidle.2)) (takeFrame_taken).frames
    · exact h

def received (config : Config) (c : Id) (frames : List Bytes) : Pool :=
  serve config c frames ((init config).setConnection c {(init config).connections c with
    frames := frames})

theorem received_run (config : Config) (c : Id) (frames : List Bytes) :
    Run config (received config c frames) :=
  (Run.init.step (.data (init config) c frames rfl)).serve
    (congrArg Connection.frames (setConnection_self _ c _))

theorem Taken.events_prefix (h : Taken config pool c frame rest pool') :
    pool.events <+: pool'.events := by
  have hdrawn : pool.events <+: (pool.drawn c frame).events := List.prefix_append _ _
  cases h with
  | refused => exact hdrawn
  | quiet => exact hdrawn
  | loggedOn | metadata | request => exact hdrawn.trans (List.prefix_append _ _)

theorem Step.events_prefix (h : Step config pool pool') : pool.events <+: pool'.events := by
  cases h with
  | data | start | drain => exact List.prefix_rfl
  | take => exact takeFrame_taken.events_prefix
  | send => exact List.prefix_append _ _
  | settle s task auth reply failed hrunning hfailed =>
    have hsettled : pool.events <+: (pool.settled s task failed).events := List.prefix_append _ _
    obtain ⟨handle,hlearns⟩ := answer_learns (pool.settled s task failed) s task reply hfailed
    exact hsettled.trans ⟨_,hlearns.events.symm⟩
  | close => exact List.prefix_rfl
  | logoff c requests hending hdone =>
    change pool.events <+: Pool.events (if _ then (pool.ended c).record _ else pool.ended c)
    split
    · exact List.prefix_append _ _
    · exact List.prefix_rfl

end Pool

end OpenSteamgate.Protocols.Server
