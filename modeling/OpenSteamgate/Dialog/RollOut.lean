import Mathlib.Logic.Function.Basic
import OpenSteamgate.Library.StepMachine
import OpenSteamgate.Library.Turnstile

namespace OpenSteamgate.RollOut

variable {T S E : Type}

-- `if_http_server$request` and `if_http_server$response` of a server
structure Server (E : Type) where
  request : Option E
  response : Option E

-- what every step shares: `mi_server` of the shim, and the servers themselves
structure Shared (S E : Type) where
  miServer : Option S
  servers : S → Server E

-- what the closure that `snapshot` returns holds on to
structure Note (S E : Type) where
  server : S
  request : Option E
  response : Option E

structure Seen (S E : Type) where
  server : Option S
  request : Option E
  response : Option E
deriving DecidableEq

def Shared.seen (s : Shared S E) : Seen S E where
  server := s.miServer
  request := s.miServer.bind fun server => (s.servers server).request
  response := s.miServer.bind fun server => (s.servers server).response

-- none is the closure that does nothing
def Shared.snapshot (s : Shared S E) : Option (Note S E) :=
  s.miServer.map fun server =>
    {server := server,request := (s.servers server).request,response := (s.servers server).response}

def Shared.restore [DecidableEq S] (s : Shared S E) : Option (Note S E) → Shared S E
  | none => s
  | some note =>
    { miServer := some note.server
      servers := Function.update s.servers note.server
        { request := note.request.or (s.servers note.server).request
          response := note.response.or (s.servers note.server).response } }

section notes

def Seen.note (v : Seen S E) : Option (Note S E) :=
  v.server.map fun server => {server := server,request := v.request,response := v.response}

def Seen.complete (v : Seen S E) : Bool :=
  v.server.isSome && v.request.isSome && v.response.isSome

theorem snapshot_eq (s : Shared S E) : s.snapshot = s.seen.note := by
  cases hs : s.miServer with
  | none => simp [Shared.snapshot,Shared.seen,Seen.note,hs]
  | some server => simp [Shared.snapshot,Shared.seen,Seen.note,hs]

variable [DecidableEq S]

theorem restore_parts (s : Shared S E) (note : Note S E) : (s.restore (some note)).seen =
    { server := some note.server
      request := note.request.or (s.servers note.server).request
      response := note.response.or (s.servers note.server).response } := by
  simp [Shared.restore,Shared.seen]

theorem restore_seen {v : Seen S E} (h : v.complete = true) (s : Shared S E) :
    (s.restore v.note).seen = v := by
  obtain ⟨server,request,response⟩ := v
  cases server with
  | none => simp [Seen.complete] at h
  | some server =>
    cases request with
    | none => simp [Seen.complete] at h
    | some request =>
      cases response with
      | none => simp [Seen.complete] at h
      | some response => exact restore_parts s _

end notes

-- where a step stands: `served` while a receiver of another step runs inside its session
inductive Stage (T : Type) where
  | absent
  | queued
  | running
  | asleep
  | served (host : T)
  | woken
  | finished
deriving DecidableEq

def Stage.out : Stage T → Bool
  | .asleep | .served _ | .woken => true
  | _ => false

-- one call of `inSession`: its early return, or the session with the state the call found
inductive Frame (T S E : Type) where
  | plain
  | inside (session : T) (found : Option (Note S E))

structure Host (T S E : Type) where
  lock : Turnstile T := {}
  shared : Shared S E
  rolledOut : T → Option (Option (Note S E)) := fun _ => none
  stage : T → Stage T := fun _ => .absent
  frames : T → List (Frame T S E) := fun _ => []

inductive Act (T S E : Type) where
  | arrive (t : T)
  | start (t : T)
  | write (t : T) (after : Shared S E)
  | rollOut (t : T)
  | wake (t : T)
  | rollIn (t : T)
  | deliver (t session : T)
  | work (t session : T)
  | settle (t : T)
  | finish (t : T)

namespace Host

def runs (s : Host T S E) (t : T) : Prop := s.lock.holder = some t ∧ s.stage t = .running

def Enabled (s : Host T S E) : Act T S E → Prop
  | .arrive t => s.stage t = .absent
  | .start t => s.lock.holder = some t ∧ s.stage t = .queued
  | .write t _ => s.runs t
  | .rollOut t => s.runs t
  | .wake t => s.stage t = .asleep
  | .rollIn t => s.lock.holder = some t ∧ s.stage t = .woken
  | .deliver t session => s.runs t ∧ (s.rolledOut session).isSome = true ∧ s.stage session = .asleep
  | .work t session => s.runs t ∧ s.rolledOut session = none
  | .settle t => s.runs t ∧ s.frames t ≠ []
  | .finish t => s.runs t ∧ s.frames t = []

variable [DecidableEq T] [DecidableEq S]

def leave (s : Host T S E) (t session : T) (found : Option (Note S E))
    (rest : List (Frame T S E)) : Host T S E :=
  { s with
    rolledOut := Function.update s.rolledOut session (some s.shared.snapshot)
    shared := s.shared.restore found
    stage := Function.update s.stage session .asleep
    frames := Function.update s.frames t rest }

def act (s : Host T S E) : Act T S E → Host T S E
  | .arrive t => {s with lock := s.lock.acquire t,stage := Function.update s.stage t .queued}
  | .start t =>
    { s with
      stage := Function.update s.stage t .running
      frames := Function.update s.frames t [] }
  | .write _ after => {s with shared := after}
  | .rollOut t =>
    { s with
      rolledOut := Function.update s.rolledOut t (some s.shared.snapshot)
      lock := s.lock.release
      stage := Function.update s.stage t .asleep }
  | .wake t => {s with lock := s.lock.acquire t,stage := Function.update s.stage t .woken}
  | .rollIn t =>
    { s with
      shared := s.shared.restore (s.rolledOut t).join
      rolledOut := Function.update s.rolledOut t none
      stage := Function.update s.stage t .running }
  | .deliver t session =>
    { s with
      shared := s.shared.restore (s.rolledOut session).join
      frames := Function.update s.frames t (.inside session s.shared.snapshot :: s.frames t)
      stage := Function.update s.stage session (.served t) }
  | .work t _ => {s with frames := Function.update s.frames t (.plain :: s.frames t)}
  | .settle t =>
    match s.frames t with
    | [] => s
    | .plain :: rest => {s with frames := Function.update s.frames t rest}
    | .inside session found :: rest => s.leave t session found rest
  | .finish t => {s with lock := s.lock.release,stage := Function.update s.stage t .finished}

-- where the code calls `snapshot`
def notes (s : Host T S E) : Act T S E → Bool
  | .rollOut _ | .deliver .. => true
  | .settle t =>
    match s.frames t with
    | .inside .. :: _ => true
    | _ => false
  | _ => false

def Guarded (s : Host T S E) (a : Act T S E) : Prop :=
  s.Enabled a ∧ (s.notes a = true → s.shared.seen.complete = true)

end Host

def server [DecidableEq T] [DecidableEq S] : StepMachine (Host T S E) (Act T S E) Unit :=
  ⟨fun s a => (s.act a,())⟩

section memories

-- what a session has for itself: what it sees, and behind each call of `inSession` what was there
structure Memory (T S E : Type) where
  now : Seen S E
  below : List (Option (T × Seen S E)) := []

structure Memories (T S E : Type) where
  own : T → Memory T S E
  left : Seen S E

variable [DecidableEq T]

def Memories.put (m : Memories T S E) (t : T) (x : Memory T S E) : Memories T S E :=
  {m with own := Function.update m.own t x}

def Memories.act (m : Memories T S E) : Act T S E → Memories T S E
  | .arrive _ | .wake _ | .rollIn _ => m
  | .start t => m.put t {now := m.left}
  | .write t after => m.put t {m.own t with now := after.seen}
  | .rollOut t | .finish t => {m with left := (m.own t).now}
  | .deliver t session =>
    m.put t {now := (m.own session).now,below := some (session,(m.own t).now) :: (m.own t).below}
  | .work t _ => m.put t {m.own t with below := none :: (m.own t).below}
  | .settle t =>
    match (m.own t).below with
    | [] => m
    | none :: rest => m.put t {m.own t with below := rest}
    | some (session,found) :: rest =>
      (m.put session {m.own session with now := (m.own t).now}).put t {now := found,below := rest}

def memory : StepMachine (Memories T S E) (Act T S E) Unit := ⟨fun m a => (m.act a,())⟩

def Memories.init (seen : Seen S E) : Memories T S E := {own := fun _ => {now := seen},left := seen}

end memories

section kept

variable {s : Host T S E} {m : Memories T S E} {t u v : T} {a : Act T S E}

def Frame.within : Frame T S E → Option T
  | .plain => none
  | .inside session _ => some session

def Frame.Matches : Frame T S E → Option (T × Seen S E) → Prop
  | .plain,none => True
  | .inside session found,some (session',seen) =>
    session = session' ∧ found = seen.note ∧ seen.complete = true
  | _,_ => False

def Host.inside (s : Host T S E) (t : T) : List T := (s.frames t).filterMap Frame.within

structure Kept (s : Host T S E) (m : Memories T S E) : Prop where
  one : ∀ t,s.stage t = .running → s.lock.holder = some t
  seen : ∀ t,s.stage t = .running → s.shared.seen = (m.own t).now
  left : (∀ t,s.stage t ≠ .running) → s.shared.seen = m.left
  out : ∀ t,(s.rolledOut t).isSome = (s.stage t).out
  noted : ∀ t n,s.rolledOut t = some n → n = (m.own t).now.note ∧ (m.own t).now.complete = true
  frames : ∀ t,List.Forall₂ Frame.Matches (s.frames t) (m.own t).below
  served : ∀ t,∀ u ∈ s.inside t,s.stage u = .served t
  once : ∀ t,(s.inside t).Nodup

theorem kept_init (shared : Shared S E) :
    Kept ({shared := shared} : Host T S E) (Memories.init shared.seen) where
  one _ h := by cases h
  seen _ h := by cases h
  left _ := rfl
  out _ := rfl
  noted _ _ h := by cases h
  frames _ := .nil
  served _ _ h := by cases h
  once _ := List.nodup_nil

theorem Kept.alone (hk : Kept s m) (hholder : s.lock.holder = some t) (hrunning : s.stage u = .running) :
    u = t := Option.some.inj ((hk.one u hrunning).symm.trans hholder)

theorem Kept.idle (hk : Kept s m) (hholder : s.lock.holder = some t) (ht : s.stage t ≠ .running)
    (u : T) : s.stage u ≠ .running := fun hu => ht (hk.alone hholder hu ▸ hu)

theorem Kept.not_out (hk : Kept s m) (h : (s.stage t).out = false) : s.rolledOut t = none := by
  have hout := hk.out t
  rw [h] at hout
  cases hr : s.rolledOut t with
  | none => rfl
  | some n => rw [hr] at hout; cases hout

theorem Kept.outside (hk : Kept s m) (h : ∀ v,s.stage u ≠ .served v) (t : T) : u ∉ s.inside t :=
  fun hu => h t (hk.served t u hu)

variable [DecidableEq T]

section puts

variable {p : Stage T} {r : Option (Option (Note S E))} {fs : List (Frame T S E)} {x : Memory T S E}

theorem Memories.own_self : (m.put t x).own t = x := Function.update_self ..

theorem Memories.own_put (hut : u ≠ t) : (m.put t x).own u = m.own u := Function.update_of_ne hut ..

theorem Kept.out_put (hk : Kept s m) (hout : r.isSome = p.out) (v : T) :
    (Function.update s.rolledOut t r v).isSome = (Function.update s.stage t p v).out := by
  by_cases hvt : v = t
  · subst hvt
    rw [Function.update_self,Function.update_self,hout]
  · rw [Function.update_of_ne hvt,Function.update_of_ne hvt,hk.out]

theorem frames_put (hfs : List.Forall₂ Frame.Matches fs x.below)
    (h : ∀ v,v ≠ t → List.Forall₂ Frame.Matches (s.frames v) (m.own v).below) (v : T) :
    List.Forall₂ Frame.Matches (Function.update s.frames t fs v) ((m.put t x).own v).below := by
  by_cases hvt : v = t
  · subst hvt
    rwa [Function.update_self,Memories.own_self]
  · rw [Function.update_of_ne hvt,Memories.own_put hvt]
    exact h v hvt

theorem Kept.once_put (hk : Kept s m) (honce : (fs.filterMap Frame.within).Nodup) (v : T) :
    ((Function.update s.frames t fs v).filterMap Frame.within).Nodup := by
  by_cases hvt : v = t
  · subst hvt
    rwa [Function.update_self]
  · rw [Function.update_of_ne hvt]
    exact hk.once v

end puts

-- a step that does not run asks for the work process
theorem Kept.queue (hk : Kept s m) {p : Stage T} (hp : p ≠ .running) (hout : p.out = (s.stage t).out)
    (ht : s.stage t ≠ .running) (hserved : ∀ v,s.stage t ≠ .served v) :
    Kept {s with lock := s.lock.acquire t,stage := Function.update s.stage t p} m := by
  have hother : ∀ v,Function.update s.stage t p v = .running → s.stage v = .running := by
    intro v hv
    by_cases hvt : v = t
    · subst hvt
      rw [Function.update_self] at hv
      exact absurd hv hp
    · rwa [Function.update_of_ne hvt] at hv
  have hsame : ∀ v,v ≠ t → Function.update s.stage t p v = s.stage v :=
    fun v hvt => Function.update_of_ne hvt ..
  refine ⟨fun v hv => ?_,fun v hv => hk.seen v (hother v hv),fun hno => hk.left fun v hv => ?_,
    fun v => ?_,hk.noted,hk.frames,fun w v hv => ?_,hk.once⟩
  · have hholder := hk.one v (hother v hv)
    change (s.lock.acquire t).holder = some v
    rw [Turnstile.acquire_held hholder]
    exact hholder
  · have hvt : v ≠ t := by
      rintro rfl
      exact ht hv
    exact hno v ((hsame v hvt).trans hv)
  · change (s.rolledOut v).isSome = (Function.update s.stage t p v).out
    by_cases hvt : v = t
    · subst hvt
      rw [Function.update_self,hk.out,hout]
    · rw [hsame v hvt,hk.out]
  · have hvt : v ≠ t := by
      rintro rfl
      exact hserved w (hk.served w v hv)
    exact (hsame v hvt).trans (hk.served w v hv)

-- the step that runs gives the work process up
theorem Kept.give (hk : Kept s m) (h : s.runs t) {p : Stage T} {r : Option (Option (Note S E))}
    (hp : p ≠ .running) (hout : r.isSome = p.out)
    (hr : ∀ n,r = some n → n = s.shared.seen.note ∧ s.shared.seen.complete = true) :
    Kept { s with
      rolledOut := Function.update s.rolledOut t r
      lock := s.lock.release
      stage := Function.update s.stage t p } {m with left := (m.own t).now} := by
  have hseen := hk.seen t h.2
  have hidle : ∀ v,Function.update s.stage t p v ≠ .running := by
    intro v hv
    by_cases hvt : v = t
    · subst hvt
      rw [Function.update_self] at hv
      exact hp hv
    · rw [Function.update_of_ne hvt] at hv
      exact hvt (hk.alone h.1 hv)
  refine ⟨fun v hv => absurd hv (hidle v),fun v hv => absurd hv (hidle v),fun _ => hseen,hk.out_put hout,
    fun v n hn => ?_,hk.frames,fun w v hv => ?_,hk.once⟩
  · change Function.update s.rolledOut t r v = some n at hn
    by_cases hvt : v = t
    · subst hvt
      rw [Function.update_self] at hn
      rw [← hseen]
      exact hr n hn
    · rw [Function.update_of_ne hvt] at hn
      exact hk.noted v n hn
  · have hvt : v ≠ t := by
      rintro rfl
      have := hk.served w v hv
      rw [h.2] at this
      cases this
    exact (Function.update_of_ne hvt ..).trans (hk.served w v hv)

-- a step that has been given the work process begins to run, or runs on
theorem Kept.run (hk : Kept s m) (hholder : s.lock.holder = some t) (ht : s.stage t ≠ .running)
    (hserved : ∀ v,s.stage t ≠ .served v) {shared : Shared S E} {x : Memory T S E}
    {fs : List (Frame T S E)} (hseen : shared.seen = x.now) (hfs : List.Forall₂ Frame.Matches fs x.below)
    (hin : ∀ v ∈ fs.filterMap Frame.within,v ∈ s.inside t) (honce : (fs.filterMap Frame.within).Nodup) :
    Kept { s with
      shared := shared
      rolledOut := Function.update s.rolledOut t none
      stage := Function.update s.stage t .running
      frames := Function.update s.frames t fs } (m.put t x) := by
  have hrunning : ∀ v,Function.update s.stage t .running v = .running → v = t := by
    intro v hv
    by_contra hvt
    rw [Function.update_of_ne hvt] at hv
    exact hk.idle hholder ht v hv
  refine ⟨fun v hv => ?_,fun v hv => ?_,fun hno => ?_,hk.out_put rfl,fun v n hn => ?_,
    frames_put hfs fun v _ => hk.frames v,fun w v hv => ?_,hk.once_put honce⟩
  · rw [hrunning v hv]
    exact hholder
  · rw [hrunning v hv,Memories.own_self]
    exact hseen
  · exact absurd (Function.update_self ..) (hno t)
  · change Function.update s.rolledOut t none v = some n at hn
    by_cases hvt : v = t
    · subst hvt
      rw [Function.update_self] at hn
      cases hn
    · rw [Function.update_of_ne hvt] at hn
      rw [Memories.own_put hvt]
      exact hk.noted v n hn
  · have hin' : v ∈ s.inside w := by
      change v ∈ (Function.update s.frames t fs w).filterMap _ at hv
      by_cases hwt : w = t
      · subst hwt
        rw [Function.update_self] at hv
        exact hin v hv
      · rwa [Function.update_of_ne hwt] at hv
    have hvt : v ≠ t := by
      rintro rfl
      exact hserved w (hk.served w v hin')
    exact (Function.update_of_ne hvt ..).trans (hk.served w v hin')

-- the step that runs goes on, inside the same sessions
theorem Kept.turn (hk : Kept s m) (h : s.runs t) {shared : Shared S E} {x : Memory T S E}
    {fs : List (Frame T S E)} (hseen : shared.seen = x.now) (hfs : List.Forall₂ Frame.Matches fs x.below)
    (hin : fs.filterMap Frame.within = s.inside t) :
    Kept {s with shared := shared,frames := Function.update s.frames t fs} (m.put t x) := by
  have hinside : ∀ w,(Function.update s.frames t fs w).filterMap Frame.within = s.inside w := by
    intro w
    by_cases hwt : w = t
    · subst hwt
      rw [Function.update_self,hin]
    · rw [Function.update_of_ne hwt]
      rfl
  refine ⟨hk.one,fun v hv => ?_,fun hno => absurd h.2 (hno t),hk.out,fun v n hn => ?_,
    frames_put hfs fun v _ => hk.frames v,fun w v hv => hk.served w v (hinside w ▸ hv),
    hk.once_put (hin ▸ hk.once t)⟩
  · rw [hk.alone h.1 hv,Memories.own_self]
    exact hseen
  · have hvt : v ≠ t := by
      rintro rfl
      rw [hk.not_out (congrArg Stage.out h.2)] at hn
      cases hn
    rw [Memories.own_put hvt]
    exact hk.noted v n hn

-- the step that runs changes into the session `u`, or back
theorem Kept.change (hk : Kept s m) (h : s.runs t) (hut : u ≠ t) {shared : Shared S E}
    {x y : Memory T S E} {fs : List (Frame T S E)} {p : Stage T} {r : Option (Option (Note S E))}
    (hp : p ≠ .running) (hout : r.isSome = p.out)
    (hnoted : ∀ n,r = some n → n = y.now.note ∧ y.now.complete = true)
    (hseen : shared.seen = x.now) (hfs : List.Forall₂ Frame.Matches fs x.below)
    (hbelow : y.below = (m.own u).below)
    (hserved : ∀ v ∈ fs.filterMap Frame.within,v = u ∧ p = .served t ∨ v ≠ u ∧ v ∈ s.inside t)
    (hothers : ∀ w,w ≠ t → u ∉ s.inside w) (honce : (fs.filterMap Frame.within).Nodup) :
    Kept { s with
      shared := shared
      rolledOut := Function.update s.rolledOut u r
      stage := Function.update s.stage u p
      frames := Function.update s.frames t fs } ((m.put u y).put t x) := by
  have hlent : ((m.put u y).put t x).own u = y := (Memories.own_put hut).trans Memories.own_self
  have hrunning : ∀ v,Function.update s.stage u p v = .running → v = t := by
    intro v hv
    by_cases hvu : v = u
    · subst hvu
      rw [Function.update_self] at hv
      exact absurd hv hp
    · rw [Function.update_of_ne hvu] at hv
      exact hk.alone h.1 hv
  have ht : Function.update s.stage u p t = .running := (Function.update_of_ne hut.symm ..).trans h.2
  refine ⟨fun v hv => ?_,fun v hv => ?_,fun hno => absurd ht (hno t),hk.out_put hout,fun v n hn => ?_,
    frames_put hfs fun v hvt => ?_,fun w v hv => ?_,hk.once_put honce⟩
  · rw [hrunning v hv]
    exact h.1
  · rw [hrunning v hv,Memories.own_self]
    exact hseen
  · change Function.update s.rolledOut u r v = some n at hn
    by_cases hvu : v = u
    · subst hvu
      rw [Function.update_self] at hn
      rw [hlent]
      exact hnoted n hn
    · rw [Function.update_of_ne hvu] at hn
      have hvt : v ≠ t := by
        rintro rfl
        rw [hk.not_out (congrArg Stage.out h.2)] at hn
        cases hn
      rw [Memories.own_put hvt,Memories.own_put hvu]
      exact hk.noted v n hn
  · by_cases hvu : v = u
    · subst hvu
      rw [Memories.own_self,hbelow]
      exact hk.frames v
    · rw [Memories.own_put hvu]
      exact hk.frames v
  · change v ∈ (Function.update s.frames t fs w).filterMap _ at hv
    change Function.update s.stage u p v = _
    by_cases hwt : w = t
    · subst hwt
      rw [Function.update_self] at hv
      rcases hserved v hv with ⟨rfl,hpt⟩ | ⟨hvu,hin⟩
      · rw [Function.update_self,hpt]
      · rw [Function.update_of_ne hvu]
        exact hk.served w v hin
    · rw [Function.update_of_ne hwt] at hv
      have hvu : v ≠ u := by
        rintro rfl
        exact hothers w hwt hv
      rw [Function.update_of_ne hvu]
      exact hk.served w v hv

variable [DecidableEq S]

theorem Kept.settle (hk : Kept s m) (h : s.runs t) (hframes : s.frames t ≠ [])
    (hnoted : s.notes (.settle t) = true → s.shared.seen.complete = true) :
    Kept (s.act (.settle t)) (m.act (.settle t)) := by
  have hseen := hk.seen t h.2
  have hmatch := hk.frames t
  have hserved := hk.served t
  have honce := hk.once t
  unfold Host.inside at hserved honce
  rw [Host.notes] at hnoted
  rw [Host.act,Memories.act]
  cases hfs : s.frames t with
  | nil => exact absurd hfs hframes
  | cons f rest =>
    rw [hfs] at hmatch hserved honce hnoted
    cases hbelow : (m.own t).below with
    | nil =>
      rw [hbelow] at hmatch
      cases hmatch
    | cons b below =>
      rw [hbelow] at hmatch
      obtain ⟨hfb,hrest⟩ := List.forall₂_cons.mp hmatch
      cases f with
      | plain =>
        cases b with
        | some _ => exact hfb.elim
        | none =>
          refine hk.turn h hseen hrest ?_
          unfold Host.inside
          rw [hfs]
          rfl
      | inside u found =>
        cases b with
        | none => exact hfb.elim
        | some b =>
          obtain ⟨u',seen⟩ := b
          obtain ⟨rfl,rfl,hcomplete⟩ := hfb
          have hu : s.stage u = .served t := hserved u (List.mem_cons_self ..)
          have hut : u ≠ t := by
            rintro rfl
            rw [h.2] at hu
            cases hu
          obtain ⟨hnot,hnodup⟩ := List.nodup_cons.mp honce
          have hwhole : s.shared.seen.complete = true := hnoted rfl
          refine hk.change h hut (fun hp => by cases hp) rfl ?_ (restore_seen hcomplete _) hrest rfl
            (fun v hv => .inr ⟨?_,?_⟩) (fun w hwt hin => ?_) hnodup
          · rintro n hn
            obtain rfl := Option.some.inj hn
            rw [snapshot_eq,← hseen]
            exact ⟨rfl,hwhole⟩
          · rintro rfl
            exact hnot hv
          · unfold Host.inside
            rw [hfs]
            exact List.mem_cons_of_mem _ hv
          · have hw := hk.served w u hin
            rw [hu] at hw
            exact hwt (Stage.served.inj hw).symm

theorem Kept.deliver (hk : Kept s m) (h : s.runs t) (hout : (s.rolledOut u).isSome = true)
    (hasleep : s.stage u = .asleep) (hcomplete : s.shared.seen.complete = true) :
    Kept (s.act (.deliver t u)) (m.act (.deliver t u)) := by
  obtain ⟨n,hn⟩ := Option.isSome_iff_exists.mp hout
  obtain ⟨rfl,hwhole⟩ := hk.noted u n hn
  have hut : u ≠ t := by
    rintro rfl
    rw [h.2] at hasleep
    cases hasleep
  have hoff : ∀ w,u ∉ s.inside w := hk.outside fun v hv => by
    rw [hasleep] at hv
    cases hv
  have hframe : Frame.Matches (.inside u s.shared.snapshot) (some (u,(m.own t).now)) := by
    rw [snapshot_eq,← hk.seen t h.2]
    exact ⟨rfl,rfl,hcomplete⟩
  have hkept := hk.change h hut (x := {now := (m.own u).now,below := some (u,(m.own t).now) :: (m.own t).below})
    (y := m.own u) (p := .served t) (fun hp => by cases hp) rfl
    (fun n hn => by obtain rfl := Option.some.inj hn; exact ⟨rfl,hwhole⟩)
    (restore_seen hwhole s.shared) (.cons hframe (hk.frames t)) rfl
    (fun v hv => ?_) (fun w _ => hoff w) (List.nodup_cons.mpr ⟨hoff t,hk.once t⟩)
  · have hsame : m.put u (m.own u) = m := by
      rw [Memories.put,Function.update_eq_self]
    rw [hsame,Function.update_eq_self_iff.mpr hn.symm] at hkept
    rw [Host.act,hn]
    exact hkept
  · rcases List.mem_cons.mp hv with rfl | hin
    · exact .inl ⟨rfl,rfl⟩
    · refine .inr ⟨?_,hin⟩
      rintro rfl
      exact hoff t hin

theorem Kept.act (hk : Kept s m) (h : s.Guarded a) : Kept (s.act a) (m.act a) := by
  obtain ⟨h,hnoted⟩ := h
  cases a with
  | arrive t =>
    have h : s.stage t = .absent := h
    exact hk.queue (fun hp => by cases hp) (by rw [h]; rfl) (by rw [h]; nofun) (by rw [h]; nofun)
  | start t =>
    obtain ⟨hholder,hqueued⟩ := h
    have hidle := hk.idle hholder (by rw [hqueued]; nofun)
    have hkept := hk.run hholder (by rw [hqueued]; nofun) (by rw [hqueued]; nofun)
      (x := {now := m.left}) (hk.left hidle) .nil nofun List.nodup_nil
    have hrolled : s.rolledOut t = none := hk.not_out (by rw [hqueued]; rfl)
    rwa [Function.update_eq_self_iff.mpr hrolled.symm] at hkept
  | write t after =>
    have hkept : Kept {s with shared := after,frames := Function.update s.frames t (s.frames t)}
        (m.put t {m.own t with now := after.seen}) := hk.turn h rfl (hk.frames t) rfl
    rwa [Function.update_eq_self] at hkept
  | rollOut t =>
    refine hk.give h (fun hp => by cases hp) rfl fun n hn => ?_
    obtain rfl := Option.some.inj hn
    exact ⟨snapshot_eq _,hnoted rfl⟩
  | wake t =>
    have h : s.stage t = .asleep := h
    exact hk.queue (fun hp => by cases hp) (by rw [h]; rfl) (by rw [h]; nofun) (by rw [h]; nofun)
  | rollIn t =>
    obtain ⟨hholder,hwoken⟩ := h
    have hout := hk.out t
    rw [hwoken] at hout
    obtain ⟨n,hn⟩ := Option.isSome_iff_exists.mp hout
    obtain ⟨rfl,hwhole⟩ := hk.noted t n hn
    have hkept := hk.run hholder (by rw [hwoken]; nofun) (by rw [hwoken]; nofun)
      (restore_seen hwhole s.shared) (hk.frames t) (fun _ => id) (hk.once t)
    rw [Function.update_eq_self,Memories.put,Function.update_eq_self] at hkept
    rw [Host.act,hn]
    exact hkept
  | deliver t u => exact hk.deliver h.1 h.2.1 h.2.2 (hnoted rfl)
  | work t u =>
    exact hk.turn h.1 (hk.seen t h.1.2) (.cons (a := Frame.plain) (b := none) trivial (hk.frames t)) rfl
  | settle t => exact hk.settle h.1 h.2 hnoted
  | finish t =>
    have hkept := hk.give h.1 (p := .finished) (r := none) (fun hp => by cases hp) rfl nofun
    have hrolled : s.rolledOut t = none := hk.not_out (by rw [h.1.2]; rfl)
    rwa [Function.update_eq_self_iff.mpr hrolled.symm] at hkept

theorem Kept.acts (hk : Kept s m) {as : List (Act T S E)} (h : server.Obeys Host.Guarded s as) :
    Kept (server.run s as) (memory.run m as) := by
  induction as generalizing s m with
  | nil => exact hk
  | cons a as ih => exact ih (hk.act h.1) h.2

def Host.leaves (t : T) (s : Host T S E) : Act T S E → List (Seen S E)
  | .settle u =>
    match s.frames u with
    | .inside session _ :: _ => if session = t then [s.shared.seen] else []
    | _ => []
  | _ => []

def received (t : T) : Host T S E → List (Act T S E) → List (Seen S E) :=
  server.emitted (Host.leaves t)

theorem Kept.leaves (hk : Kept s m) (h : s.Guarded a) (hout : (s.stage t).out = true)
    (ha : ∀ w,a = .rollIn w → w ≠ t) : ((s.act a).stage t).out = true ∧
      ((m.act a).own t).now = (s.leaves t a).getLastD (m.own t).now := by
  have hother : ∀ {w p},s.stage w = p → p.out = false → t ≠ w := by
    rintro w p hw hp rfl
    rw [hw,hp] at hout
    cases hout
  obtain ⟨h,-⟩ := h
  cases a with
  | arrive w =>
    have hne : t ≠ w := hother h rfl
    exact ⟨(congrArg Stage.out (Function.update_of_ne hne _ s.stage)).trans hout,rfl⟩
  | start w =>
    have hne : t ≠ w := hother h.2 rfl
    exact ⟨(congrArg Stage.out (Function.update_of_ne hne _ s.stage)).trans hout,
      congrArg Memory.now (Function.update_of_ne hne _ m.own)⟩
  | write w after =>
    exact ⟨hout,congrArg Memory.now (Function.update_of_ne (hother h.2 rfl) _ m.own)⟩
  | rollOut w =>
    exact ⟨(congrArg Stage.out (Function.update_of_ne (hother h.2 rfl) _ s.stage)).trans hout,rfl⟩
  | wake w =>
    refine ⟨?_,rfl⟩
    by_cases hne : t = w
    · subst hne
      exact congrArg Stage.out (Function.update_self _ _ s.stage)
    · exact (congrArg Stage.out (Function.update_of_ne hne _ s.stage)).trans hout
  | rollIn w =>
    exact ⟨(congrArg Stage.out (Function.update_of_ne (ha w rfl).symm _ s.stage)).trans hout,rfl⟩
  | deliver w u =>
    refine ⟨?_,congrArg Memory.now (Function.update_of_ne (hother h.1.2 rfl) _ m.own)⟩
    by_cases hne : t = u
    · subst hne
      exact congrArg Stage.out (Function.update_self _ _ s.stage)
    · exact (congrArg Stage.out (Function.update_of_ne hne _ s.stage)).trans hout
  | work w u =>
    exact ⟨hout,congrArg Memory.now (Function.update_of_ne (hother h.1.2 rfl) _ m.own)⟩
  | finish w =>
    exact ⟨(congrArg Stage.out (Function.update_of_ne (hother h.1.2 rfl) _ s.stage)).trans hout,rfl⟩
  | settle w =>
    have hne : t ≠ w := hother h.1.2 rfl
    have hmatch := hk.frames w
    rw [Host.act,Memories.act,Host.leaves]
    cases hfs : s.frames w with
    | nil => exact absurd hfs h.2
    | cons f rest =>
      rw [hfs] at hmatch
      cases hbelow : (m.own w).below with
      | nil =>
        rw [hbelow] at hmatch
        cases hmatch
      | cons b below =>
        rw [hbelow] at hmatch
        have hfb := (List.forall₂_cons.mp hmatch).1
        cases f with
        | plain =>
          cases b with
          | some _ => exact hfb.elim
          | none => exact ⟨hout,congrArg Memory.now (Function.update_of_ne hne _ m.own)⟩
        | inside u found =>
          cases b with
          | none => exact hfb.elim
          | some b =>
            obtain ⟨u',seen⟩ := b
            obtain ⟨rfl,-,-⟩ := hfb
            by_cases htu : u = t
            · subst htu
              refine ⟨congrArg Stage.out (Function.update_self _ _ s.stage),?_⟩
              simp only [↓reduceIte,List.getLastD_cons,List.getLastD_nil,hk.seen w h.1.2]
              have hown : ((m.put u {m.own u with now := (m.own w).now}).own u).now = (m.own w).now := by
                simp [Memories.put]
              exact (congrArg Memory.now (Function.update_of_ne hne ..)).trans hown
            · refine ⟨(congrArg Stage.out (Function.update_of_ne (Ne.symm htu) _ s.stage)).trans hout,?_⟩
              simp only [htu,↓reduceIte,List.getLastD_nil]
              exact congrArg Memory.now ((Function.update_of_ne hne ..).trans
                (Function.update_of_ne (Ne.symm htu) ..))

theorem Kept.received (hk : Kept s m) {as : List (Act T S E)} (h : server.Obeys Host.Guarded s as)
    (hout : (s.stage t).out = true) (hno : .rollIn t ∉ as) :
    ((server.run s as).stage t).out = true ∧
      ((memory.run m as).own t).now = (received t s as).getLastD (m.own t).now := by
  induction as generalizing s m with
  | nil => exact ⟨hout,rfl⟩
  | cons a as ih =>
    obtain ⟨ha,has⟩ := not_or.mp (mt List.mem_cons.mpr hno)
    obtain ⟨hout',hnow⟩ := hk.leaves h.1 hout fun w haw hwt => ha (by rw [haw,hwt])
    obtain ⟨hrest,hlast⟩ := ih (hk.act h.1) h.2 hout' has
    refine ⟨hrest,?_⟩
    change ((memory.run (m.act a) as).own t).now =
      (s.leaves t a ++ RollOut.received t (s.act a) as).getLastD (m.own t).now
    rw [hlast,hnow]
    simp [List.getLast?_append,Option.getD_or]

end kept

variable [DecidableEq T] [DecidableEq S]

theorem server_state_kept (shared : Shared S E) (as : List (Act T S E))
    (hrun : server.Obeys Host.Guarded ({shared := shared} : Host T S E) as) :
    let at' := server.run ({shared := shared} : Host T S E)
    (∀ t,(at' as).stage t = .running →
      (at' as).shared.seen = ((memory.run (Memories.init shared.seen) as).own t).now) ∧
    (∀ t before during,as = before ++ .rollOut t :: during → .rollIn t ∉ during →
      let resumed := (received t (at' (before ++ [.rollOut t])) during).getLastD (at' before).shared.seen
      ((at' as).Enabled (.rollIn t) → ((at' as).act (.rollIn t)).shared.seen = resumed) ∧
      ∀ u,(at' as).Enabled (.deliver u t) → ((at' as).act (.deliver u t)).shared.seen = resumed) ∧
    (∀ t u before during,as = before ++ .deliver t u :: during → (at' as).Enabled (.settle t) →
      (at' as).frames t = (at' (before ++ [.deliver t u])).frames t →
      ((at' as).act (.settle t)).shared.seen = (at' before).shared.seen) ∧
    ∀ found now : Shared S E,(now.restore found.snapshot).seen = match found.miServer with
      | none => now.seen
      | some server =>
        { server := some server
          request := found.seen.request.or (now.servers server).request
          response := found.seen.response.or (now.servers server).response } := by
  intro at'
  have hkept : ∀ {xs ys},as = xs ++ ys → Kept (at' xs) (memory.run (Memories.init shared.seen) xs) ∧
      server.Obeys Host.Guarded (at' xs) ys := by
    rintro xs ys rfl
    have hsplit := (server.obeys_append ..).mp hrun
    exact ⟨(kept_init shared).acts hsplit.1,hsplit.2⟩
  have hk := (hkept (List.append_nil as).symm).1
  refine ⟨hk.seen,fun t before during has hno => ?_,fun t u before during has hsettle hframes => ?_,
    fun found now => ?_⟩
  · obtain ⟨hk₀,hguarded,-⟩ := hkept has
    have hruns : (at' before).runs t := hguarded.1
    obtain ⟨hk₁,hduring⟩ := hkept (show as = (before ++ [.rollOut t]) ++ during by rw [has]; simp)
    have hasleep : ((at' (before ++ [.rollOut t])).stage t).out = true := by
      change ((server.run _ (before ++ [.rollOut t])).stage t).out = true
      rw [StepMachine.run_append]
      exact congrArg Stage.out (Function.update_self _ _ (at' before).stage)
    obtain ⟨hout,hnow⟩ := hk₁.received hduring hasleep hno
    have hend : server.run (at' (before ++ [.rollOut t])) during = at' as := by
      rw [has,List.append_cons before _ during]
      exact (StepMachine.run_append ..).symm
    have hmemory : memory.run (memory.run (Memories.init shared.seen) (before ++ [.rollOut t])) during =
        memory.run (Memories.init shared.seen) as := by
      rw [has,List.append_cons before _ during]
      exact (StepMachine.run_append ..).symm
    have hfirst : ((memory.run (Memories.init shared.seen) (before ++ [.rollOut t])).own t).now =
        (at' before).shared.seen := by
      rw [StepMachine.run_append]
      exact (hk₀.seen t hruns.2).symm
    rw [hend] at hout
    rw [hmemory,hfirst] at hnow
    obtain ⟨n,hn⟩ := Option.isSome_iff_exists.mp ((hk.out t).trans hout)
    obtain ⟨rfl,hwhole⟩ := hk.noted t n hn
    rw [hnow] at hwhole hn
    have hback : ((at' as).shared.restore ((at' as).rolledOut t).join).seen =
        (received t (at' (before ++ [.rollOut t])) during).getLastD (at' before).shared.seen := by
      rw [hn]
      exact restore_seen hwhole _
    exact ⟨fun _ => hback,fun _ _ => hback⟩
  · obtain ⟨-,hguarded,-⟩ := hkept has
    have hwhole : (at' before).shared.seen.complete = true := hguarded.2 rfl
    have hframe : (at' as).frames t =
        .inside u (at' before).shared.snapshot :: (at' before).frames t := by
      rw [hframes]
      change (server.run _ (before ++ [.deliver t u])).frames t = _
      rw [StepMachine.run_append]
      exact Function.update_self ..
    rw [Host.act,hframe]
    change ((at' as).shared.restore (at' before).shared.snapshot).seen = _
    rw [snapshot_eq]
    exact restore_seen hwhole _
  · cases hserver : found.miServer with
    | none => rw [Shared.snapshot,hserver]; rfl
    | some server =>
      rw [Shared.snapshot,hserver]
      rw [Option.map_some,restore_parts]
      simp only [Shared.seen,hserver,Option.bind_some]

section samples

instance (s : Host T S E) (t : T) : Decidable (s.runs t) :=
  inferInstanceAs (Decidable (_ ∧ _))

instance [DecidableEq E] (s : Host T S E) (a : Act T S E) :
    Decidable (s.Enabled a) :=
  match a with
  | .arrive _ | .wake _ => inferInstanceAs (Decidable (_ = _))
  | .start _ | .rollIn _ => inferInstanceAs (Decidable (_ ∧ _))
  | .write t _ | .rollOut t => inferInstanceAs (Decidable (s.runs t))
  | .deliver _ _ => inferInstanceAs (Decidable (_ ∧ _ ∧ _))
  | .work t u => decidable_of_iff (s.runs t ∧ (s.rolledOut u).isNone = true) (by simp [Host.Enabled])
  | .settle t => decidable_of_iff (s.runs t ∧ (s.frames t).isEmpty = false) (by simp [Host.Enabled])
  | .finish t => decidable_of_iff (s.runs t ∧ (s.frames t).isEmpty = true) (by simp [Host.Enabled])

instance [DecidableEq E] (s : Host T S E) (a : Act T S E) :
    Decidable (s.Guarded a) := inferInstanceAs (Decidable (_ ∧ (_ → _)))

def hung (request response : Nat) : Shared Unit Nat :=
  {miServer := some (),servers := fun _ => {request := some request,response := some response}}

-- a request waits, another is served, and a receiver answers for the one that waits
def served : List (Act Nat Unit Nat) :=
  [.arrive 0,.start 0,.write 0 (hung 10 10)] ++ .rollOut 0 ::
    [.arrive 1,.start 1,.write 1 (hung 20 20),.finish 1,.arrive 2,.start 2,.deliver 2 0,
      .write 2 (hung 10 11),.settle 2,.finish 2,.wake 0]

theorem server_state_kept_served :
    ((server.run {shared := hung 0 0} served).act (.rollIn 0)).shared.seen =
      {server := some (),request := some 10,response := some 11} :=
  (((server_state_kept (hung 0 0) served (by decide)).2.1 0 _ _ rfl (by simp)).1 (by decide)).trans (by decide)

def unserved : List (Act Nat Unit Nat) :=
  [.arrive 0,.start 0] ++ .rollOut 0 :: [.arrive 1,.start 1,.write 1 (hung 20 20),.finish 1,.wake 0]

theorem server_of_another_step :
    let at' := server.run ({shared := {miServer := none,servers := fun _ => ⟨none,none⟩}} : Host Nat Unit Nat)
    server.Obeys Host.Enabled (at' []) unserved ∧ (at' unserved).Enabled (.rollIn 0) ∧
      received 0 (at' [.arrive 0,.start 0,.rollOut 0]) (unserved.drop 3) = [] ∧
      ((at' unserved).act (.rollIn 0)).shared.seen ≠ (at' [.arrive 0,.start 0]).shared.seen := by
  decide

end samples

end OpenSteamgate.RollOut
