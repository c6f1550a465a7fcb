import OpenSteamgate.Protocols.Tunnelled
import OpenSteamgate.Protocols.Turns

namespace OpenSteamgate.Protocols.Server

open Tunnel (JsString js)
open Rfc (Field encodeRfcFieldChain)

section secrets

variable {p : Nat} {ps : List Nat} {value : Bytes} {actual expected : JsString}

theorem encode_ascii (h : ∀ b ∈ Wtf8.encode p,b.toNat < 128) : p < 128 := by
  by_contra hp
  have hlast : UInt8.ofNat (128 + p % 64) ∈ Wtf8.encode p := by
    rw [Wtf8.encode,if_neg hp]
    split
    · simp
    · split
      · simp
      · simp
  have hbyte := h _ hlast
  rw [UInt8.toNat_ofNat_of_lt' (by omega : 128 + p % 64 < 256)] at hbyte
  omega

theorem latin1_bytes (h : ∀ p ∈ ps,p < 128) : latin1 (Wtf8.bytes ps) = Wtf8.units ps := by
  induction ps with
  | nil => rfl
  | cons p ps ih =>
    obtain ⟨hp,hps⟩ := List.forall_mem_cons.mp h
    have hunit : (UInt8.ofNat p).toUInt16 = UInt16.ofNat p := by
      apply UInt16.toNat_inj.mp
      rw [UInt8.toNat_toUInt16,UInt8.toNat_ofNat_of_lt' (by omega : p < 256),
        Wtf8.toNat_unit (by omega)]
    rw [Wtf8.units_cons,Wtf8.unitsOf_small (by omega),← ih hps,Wtf8.bytes_cons,Wtf8.encode,if_pos hp,← hunit]
    rfl

theorem pointsOf_latin1 (h : ∀ b ∈ value,b.toNat < 128) :
    Wtf8.pointsOf (latin1 value) = value.map UInt8.toNat := by
  rw [Wtf8.pointsOf,latin1,List.map_map]
  refine Wtf8.fuse_of_settled ((List.pairwise_of_forall_mem_list fun p hp q hq => ?_).isChain)
  obtain ⟨b,hb,rfl⟩ := List.mem_map.mp hp
  have := h b hb
  rintro ⟨hhigh,-⟩
  exact absurd hhigh.1 (by simp; omega)

theorem bufferFrom_ascii (h : ∀ b ∈ bufferFrom actual,b.toNat < 128) :
    actual = latin1 (bufferFrom actual) := by
  have hsmall : ∀ p ∈ Wtf8.pointsOf actual,p < 128 ∧ ¬Wtf8.Half p := fun p hp => by
    have hp : (if Wtf8.Half p then 0xfffd else p) < 128 := by
      refine encode_ascii fun b hb => h b (List.mem_flatMap.mpr ⟨_,?_,hb⟩)
      exact List.mem_map_of_mem hp
    split at hp
    · exact absurd hp (by decide)
    · exact ⟨hp,‹_›⟩
  have hbytes : bufferFrom actual = Wtf8.bytes (Wtf8.pointsOf actual) := by
    rw [bufferFrom]
    congr 1
    exact (List.map_congr_left fun p hp => if_neg (hsmall p hp).2).trans (List.map_id _)
  rw [hbytes,latin1_bytes fun p hp => (hsmall p hp).1,Wtf8.units_pointsOf]

theorem bufferFrom_latin1 (h : ∀ b ∈ value,b.toNat < 128) : bufferFrom (latin1 value) = value := by
  rw [bufferFrom,pointsOf_latin1 h,List.map_map]
  induction value with
  | nil => rfl
  | cons b value ih =>
    obtain ⟨hb,hvalue⟩ := List.forall_mem_cons.mp h
    have hhalf : ¬Wtf8.Half b.toNat := fun hhalf => by
      have := hhalf.1
      omega
    rw [List.map_cons,Wtf8.bytes_cons,ih hvalue,Function.comp_apply,if_neg hhalf,Wtf8.encode,
      if_pos hb,UInt8.ofNat_toNat,List.singleton_append]

theorem isPrintable_ascii (h : isPrintable value = true) : ∀ b ∈ value,b.toNat < 128 :=
  fun b hb => by
  have hrange := List.all_eq_true.mp h b hb
  simp only [Bool.and_eq_true,decide_eq_true_eq,UInt8.le_iff_toNat_le] at hrange
  exact Nat.lt_of_le_of_lt hrange.2 (by decide)

theorem sameSecret_printable (h : isPrintable value = true)
    (hsame : sameSecret (latin1 value) expected = true) : latin1 value = expected := by
  have hascii := isPrintable_ascii h
  have hbytes := of_decide_eq_true hsame
  rw [bufferFrom_latin1 hascii] at hbytes
  exact (congrArg latin1 hbytes).trans (bufferFrom_ascii (hbytes ▸ hascii)).symm

end secrets

def Presented (auth : RfcAuth) (caller : Logon) : Prop :=
  auth.mode = .static → caller.user = auth.user ∧
    (auth.client ≠ [] → caller.client = auth.client) ∧
    ∃ field,caller.passwordField = some field ∧ unscrambleRfcPassword field = .ok auth.password

theorem ascii_printable {fields : List Field} {tag : Nat} {text : JsString}
    (h : ascii fields tag = .ok text) : ∃ value,isPrintable value = true ∧ text = latin1 value := by
  rw [ascii] at h
  split at h
  · split at h
    · rename_i value _ hvalue
      exact ⟨value,hvalue.2,(Except.ok.inj h).symm⟩
    · exact nomatch h
  · exact nomatch h

theorem decodeRfcLogon_printable {input : Bytes} {logon : Logon}
    (h : decodeRfcLogon input = .ok logon) :
    (∃ value,isPrintable value = true ∧ logon.client = latin1 value) ∧
      ∃ value,isPrintable value = true ∧ logon.user = latin1 value := by
  rw [decodeRfcLogon] at h
  split at h
  · exact nomatch h
  obtain ⟨⟨fields,bytesConsumed⟩,-,h⟩ := bind_eq_ok h
  change (if _ then _ else _) = _ at h
  split at h
  · exact nomatch h
  obtain ⟨client,hclient,h⟩ := bind_eq_ok h
  obtain ⟨user,huser,h⟩ := bind_eq_ok h
  obtain ⟨language,-,h⟩ := bind_eq_ok h
  obtain rfl := Except.ok.inj h
  exact ⟨ascii_printable hclient,ascii_printable huser⟩

theorem unscramble_printable {field : Bytes} {password : JsString}
    (h : unscrambleRfcPassword field = .ok password) :
    ∃ value,isPrintable value = true ∧ password = latin1 value := by
  rw [unscrambleRfcPassword] at h
  split at h
  · exact nomatch h
  · change (if _ then _ else _) = _ at h
    split at h
    · rename_i hprintable
      exact ⟨_,hprintable,(Except.ok.inj h).symm⟩
    · exact nomatch h

theorem authenticateLogon_presented {auth : RfcAuth} {frame : Bytes} {caller : Logon}
    (h : authenticateLogon frame auth = .ok caller) : Presented auth caller := by
  intro hstatic
  obtain ⟨logon,hlogon,h⟩ := bind_eq_ok h
  obtain ⟨⟨client,hclient,hclientText⟩,user,huser,huserText⟩ := decodeRfcLogon_printable hlogon
  rw [hstatic] at h
  dsimp only at h
  split at h
  · rename_i field _ hfield
    obtain ⟨password,hpassword,h⟩ := bind_eq_ok h
    obtain ⟨secret,hsecret,rfl⟩ := unscramble_printable hpassword
    split at h
    · cases h
    · rename_i hsame
      obtain rfl := Except.ok.inj h
      simp only [Bool.or_eq_true,Bool.not_eq_true',Bool.and_eq_true,decide_eq_true_eq,not_or,
        Bool.not_eq_false,not_and] at hsame
      obtain ⟨⟨hsameUser,hsamePassword⟩,hsameClient⟩ := hsame
      refine ⟨?_,fun hne => ?_,field,hfield,?_⟩
      · rw [huserText] at hsameUser ⊢
        exact sameSecret_printable huser hsameUser
      · have hsame := hsameClient hne
        rw [hclientText] at hsame ⊢
        exact sameSecret_printable hclient hsame
      · rw [hpassword,sameSecret_printable hsecret hsamePassword]
  · cases h

def Authorized (config : Config) (before : List Event) : Event → Prop
  | .loggedOn c frame caller => authenticateLogon frame config.rfcAuth = .ok caller ∧
      Presented config.rfcAuth caller ∧ ∀ frame' caller',.loggedOn c frame' caller' ∉ before
  | .metadata c _ => ∃ frame caller,.loggedOn c frame caller ∈ before
  | .taken c _ _ _ _ _ => ∃ frame caller,.loggedOn c frame caller ∈ before
  | .sent c _ _ auth => ∃ frame caller,.loggedOn c frame caller ∈ before ∧
      auth = selectedAuth config caller
  | .frame _ _ _ | .settled _ _ | .registered _ _ _ _ | .loggedOff _ => True

def Late : Event → Prop
  | .frame _ phase frame => ¬Early phase frame
  | _ => True

instance : DecidablePred Late
  | .frame _ phase frame => inferInstanceAs (Decidable (¬Early phase frame))
  | .loggedOn _ _ _ | .metadata _ _ | .taken _ _ _ _ _ _ | .sent _ _ _ _ | .settled _ _
  | .registered _ _ _ _ | .loggedOff _ => isTrue trivial

def Indifferent : Event → Prop
  | .frame _ _ _ | .settled _ _ | .registered _ _ _ _ | .loggedOff _ => True
  | .loggedOn _ _ _ | .metadata _ _ | .taken _ _ _ _ _ _ | .sent _ _ _ _ => False

theorem Indifferent.authorized {config : Config} {event : Event} (h : Indifferent event)
    (before : List Event) : Authorized config before event := by
  cases event with
  | frame | settled | registered | loggedOff => trivial
  | loggedOn | metadata | taken | sent => exact h.elim

structure Selected (config : Config) (pool : Pool) : Prop where
  calls : ∀ c,(pool.connections c).conversation.phase = .calls →
    ∃ frame caller,.loggedOn c frame caller ∈ pool.events ∧
      (pool.connections c).conversation.auth = selectedAuth config caller
  fresh : ∀ c,(pool.connections c).conversation.phase ≠ .calls →
    (pool.connections c).conversation.auth = config.backendAuth ∧
      ∀ frame caller,.loggedOn c frame caller ∉ pool.events
  waiting : ∀ s,∀ task ∈ (pool.sessions s).waiting,
    (pool.connections task.conn).conversation.phase = .calls
  running : ∀ s task auth,(pool.sessions s).running = some (task,auth) →
    ∃ frame caller,.loggedOn task.conn frame caller ∈ pool.events ∧ auth = selectedAuth config caller
  events : Chronicle (Authorized config) pool.events

namespace Selected

variable {config : Config} {pool pool' : Pool} {c s : Id} {task : Task} {frame : Bytes}
  {event : Event} {more : List Event}

theorem init (config : Config) : Selected config (Pool.init config) where
  calls := fun _ h => nomatch h
  fresh := fun _ _ => ⟨rfl,fun _ _ => List.not_mem_nil⟩
  waiting := fun _ _ h => nomatch h
  running := fun _ _ _ h => nomatch h
  events := .nil

theorem record (h : Selected config pool) (hevent : Authorized config pool.events event)
    (hlog : ∀ c frame caller,event ≠ .loggedOn c frame caller) :
    Selected config (pool.record event) where
  calls := fun c hc =>
    have ⟨frame,caller,hmem,hauth⟩ := h.calls c hc
    ⟨frame,caller,List.mem_append_left _ hmem,hauth⟩
  fresh := fun c hc => ⟨(h.fresh c hc).1,fun frame caller hmem => by
    rcases List.mem_append.mp hmem with hmem | hmem
    · exact (h.fresh c hc).2 frame caller hmem
    · exact hlog c frame caller (List.mem_singleton.mp hmem).symm⟩
  waiting := h.waiting
  running := fun s task auth hs =>
    have ⟨frame,caller,hmem,hauth⟩ := h.running s task auth hs
    ⟨frame,caller,List.mem_append_left _ hmem,hauth⟩
  events := h.events.snoc hevent

theorem quiet (h : Selected config pool)
    (hphase : ∀ c,(pool'.connections c).conversation.phase = .calls ↔
      (pool.connections c).conversation.phase = .calls)
    (hauth : ∀ c,(pool'.connections c).conversation.auth = (pool.connections c).conversation.auth)
    (hwaiting : ∀ s,∀ task ∈ (pool'.sessions s).waiting,task ∈ (pool.sessions s).waiting)
    (hrunning : ∀ s task auth,(pool'.sessions s).running = some (task,auth) →
      (pool.sessions s).running = some (task,auth))
    (hevents : pool'.events = pool.events ++ more) (hmore : ∀ e ∈ more,Indifferent e) :
    Selected config pool' where
  calls := fun c hc => by
    obtain ⟨frame,caller,hmem,hselected⟩ := h.calls c ((hphase c).mp hc)
    rw [hevents,hauth]
    exact ⟨frame,caller,List.mem_append_left _ hmem,hselected⟩
  fresh := fun c hc => by
    obtain ⟨hbackend,hnone⟩ := h.fresh c fun hcalls => hc ((hphase c).mpr hcalls)
    rw [hevents,hauth]
    refine ⟨hbackend,fun frame caller hmem => ?_⟩
    rcases List.mem_append.mp hmem with hmem | hmem
    · exact hnone frame caller hmem
    · exact hmore _ hmem
  waiting := fun s task htask => (hphase _).mpr (h.waiting s task (hwaiting s task htask))
  running := fun s task auth hs => by
    obtain ⟨frame,caller,hmem,hselected⟩ := h.running s task auth (hrunning s task auth hs)
    rw [hevents]
    exact ⟨frame,caller,List.mem_append_left _ hmem,hselected⟩
  events := hevents ▸ h.events.append fun e he before => (hmore e he).authorized before

theorem setConnection (h : Selected config pool) {connection : Connection}
    (hphase : connection.conversation.phase = .calls ↔ (pool.connections c).conversation.phase = .calls)
    (hauth : connection.conversation.auth = (pool.connections c).conversation.auth) :
    Selected config (pool.setConnection c connection) := by
  refine h.quiet (fun i => ?_) (fun i => ?_) (fun _ _ => id) (fun _ _ _ => id)
    (List.append_nil _).symm (List.forall_mem_nil _)
  · rw [Pool.setConnection_apply]
    split
    · rename_i hi
      exact hi ▸ hphase
    · exact Iff.rfl
  · rw [Pool.setConnection_apply]
    split
    · rename_i hi
      exact hi ▸ hauth
    · rfl

theorem setSession (h : Selected config pool) {session : Session}
    (hwaiting : ∀ task ∈ session.waiting,task ∈ (pool.sessions s).waiting)
    (hrunning : ∀ task auth,session.running = some (task,auth) →
      (pool.sessions s).running = some (task,auth)) :
    Selected config (pool.setSession s session) := by
  refine h.quiet (fun _ => Iff.rfl) (fun _ => rfl) (fun i task htask => ?_)
    (fun i task auth hi => ?_) (List.append_nil _).symm (List.forall_mem_nil _)
  · rw [Pool.setSession_apply] at htask
    split at htask
    · rename_i hi
      exact hi ▸ hwaiting task htask
    · exact htask
  · rw [Pool.setSession_apply] at hi
    split at hi
    · rename_i heq
      exact heq ▸ hrunning task auth hi
    · exact hi

theorem enqueue (h : Selected config pool)
    (htask : (pool.connections task.conn).conversation.phase = .calls) :
    Selected config (pool.enqueue s task) where
  calls := h.calls
  fresh := h.fresh
  waiting := fun i t ht => by
    rw [Pool.enqueue_apply] at ht
    split at ht
    · rcases List.mem_append.mp ht with ht | ht
      · exact h.waiting s t ht
      · rw [List.mem_singleton.mp ht]
        exact htask
    · exact h.waiting i t ht
  running := fun i t auth hi => by
    rw [Pool.enqueue_apply] at hi
    split at hi
    · exact h.running s t auth hi
    · exact h.running i t auth hi
  events := h.events

theorem learns (h : Selected config pool) {conn : Id} {handle : Option JsString}
    (hlearns : Pool.Learns pool s conn handle pool') : Selected config pool' := by
  refine h.quiet (fun c => by rw [hlearns.connections]) (fun c => by rw [hlearns.connections])
    (fun i task ht => by rwa [hlearns.sessions] at ht)
    (fun i task auth hi => by rwa [hlearns.sessions] at hi) hlearns.events fun e he => ?_
  cases handle with
  | none => exact absurd he List.not_mem_nil
  | some handle =>
    rw [List.mem_singleton.mp he]
    trivial

theorem silent (h : Selected config pool) (hevent : Indifferent event) :
    Selected config (pool.record event) :=
  h.quiet (fun _ => Iff.rfl) (fun _ => rfl) (fun _ _ => id) (fun _ _ _ => id) rfl
    (List.forall_mem_singleton.mpr hevent)

theorem drawn (h : Selected config pool) : Selected config (pool.drawn c frame) :=
  h.silent trivial

theorem loggedOn (h : Selected config pool) {connection : Connection} {caller : Logon}
    (hphase : (pool.connections c).conversation.phase ≠ .calls)
    (hcaller : authenticateLogon frame config.rfcAuth = .ok caller)
    (hcalls : connection.conversation.phase = .calls)
    (hauth : connection.conversation.auth = selectedAuth config caller) :
    Selected config ((pool.setConnection c connection).record (.loggedOn c frame caller)) where
  calls := fun i hi => by
    rw [Pool.record_connections,Pool.setConnection_apply] at hi ⊢
    split at hi
    · rename_i heq
      rw [if_pos heq,heq]
      exact ⟨frame,caller,List.mem_concat_self,hauth⟩
    · rename_i hne
      obtain ⟨frame,caller,hmem,hselected⟩ := h.calls i hi
      rw [if_neg hne]
      exact ⟨frame,caller,List.mem_append_left _ hmem,hselected⟩
  fresh := fun i hi => by
    rw [Pool.record_connections,Pool.setConnection_apply] at hi ⊢
    split at hi
    · exact absurd hcalls hi
    · rename_i hne
      obtain ⟨hbackend,hnone⟩ := h.fresh i hi
      rw [if_neg hne]
      refine ⟨hbackend,fun frame' caller' hmem => ?_⟩
      rcases List.mem_append.mp hmem with hmem | hmem
      · exact hnone frame' caller' hmem
      · exact hne (Event.loggedOn.inj (List.mem_singleton.mp hmem)).1
  waiting := fun s task htask => by
    rw [Pool.record_connections,Pool.setConnection_apply]
    split
    · exact hcalls
    · exact h.waiting s task htask
  running := fun s task auth hs =>
    have ⟨frame,caller,hmem,hselected⟩ := h.running s task auth hs
    ⟨frame,caller,List.mem_append_left _ hmem,hselected⟩
  events := h.events.snoc
    ⟨hcaller,authenticateLogon_presented hcaller,(h.fresh c hphase).2⟩

theorem taken {rest : List Bytes} (h : Selected config pool)
    (hlate : ¬Early (pool.connections c).conversation.phase frame)
    (htaken : Pool.Taken config pool c frame rest pool') : Selected config pool' := by
  cases htaken with
  | refused => exact h.drawn.setConnection Iff.rfl rfl
  | quiet _ hauth hphase => exact h.drawn.setConnection hphase hauth
  | @loggedOn caller hphase hcaller =>
    have hne : (pool.connections c).conversation.phase ≠ .calls := by
      rw [hphase]
      exact nofun
    refine h.drawn.loggedOn hne hcaller rfl ?_
    rw [selectedAuth]
    split
    · rfl
    · exact (h.fresh c hne).1
  | metadata hcalls =>
    obtain ⟨frame',caller,hmem,-⟩ := h.calls c (hcalls.resolve_right hlate)
    refine record (h.drawn.setConnection ?_ ?_) ?_ fun _ _ _ heq => nomatch heq
    · exact Iff.rfl
    · rfl
    · exact ⟨frame',caller,List.mem_append_left _ hmem⟩
  | @request task s hcalls hconn howner hcontext =>
    have hphase := hcalls.resolve_right hlate
    obtain ⟨frame',caller,hmem,-⟩ := h.calls c hphase
    refine record (enqueue (h.drawn.setConnection ?_ ?_) ?_) ?_ fun _ _ _ heq => nomatch heq
    · exact Iff.rfl
    · rfl
    · rw [hconn,Pool.setConnection_self]
      exact hphase
    · exact ⟨frame',caller,List.mem_append_left _ hmem⟩

theorem start {rest : List Task} (h : Selected config pool)
    (hwaiting : (pool.sessions s).waiting = task :: rest) :
    Selected config (pool.setSession s {pool.sessions s with
      waiting := rest
      running := some (task,(pool.connections task.conn).conversation.auth)}) where
  calls := h.calls
  fresh := h.fresh
  waiting := fun i t ht => by
    rw [Pool.setSession_apply] at ht
    split at ht
    · exact h.waiting s t (hwaiting ▸ List.mem_cons_of_mem task ht)
    · exact h.waiting i t ht
  running := fun i t auth hi => by
    rw [Pool.setSession_apply] at hi
    split at hi
    · obtain ⟨rfl,rfl⟩ := Prod.mk.inj (Option.some.inj hi)
      exact h.calls task.conn (h.waiting s task (hwaiting ▸ List.mem_cons_self))
    · exact h.running i t auth hi
  events := h.events

theorem step (h : Selected config pool) (hstep : Pool.Step config pool pool')
    (hlate : ∀ event ∈ pool'.events,Late event) :
    Selected config pool' := by
  cases hstep with
  | data c frames hopen => exact h.setConnection Iff.rfl rfl
  | take c frame rest hframes hbusy hfailed =>
    exact h.taken (hlate _ Pool.takeFrame_taken.recorded) Pool.takeFrame_taken
  | start s task rest hwaiting hrunning => exact h.start hwaiting
  | send s task auth cookies hrunning =>
    refine record (h.setSession ?_ ?_) (h.running s task auth hrunning) fun _ _ _ heq => nomatch heq
    · exact fun _ ht => ht
    · exact fun _ _ ht => ht
  | settle s task auth reply failed hrunning hfailed =>
    have hsettled : Selected config (pool.settled s task failed) := by
      refine silent (setConnection (h.setSession ?_ ?_) ?_ ?_) trivial
      · exact fun _ ht => ht
      · exact fun _ _ ht => nomatch ht
      · exact Iff.rfl
      · rfl
    obtain ⟨handle,hlearns⟩ := Pool.answer_learns (pool.settled s task failed) s task reply hfailed
    exact hsettled.learns hlearns
  | close c hopen =>
    have hclosed : Selected config (pool.setSession c {pool.sessions c with closed := true}) :=
      h.setSession (fun _ => id) fun _ _ => id
    exact hclosed.quiet (fun _ => Iff.rfl) (fun _ => rfl) (fun _ _ => id) (fun _ _ _ => id)
      (List.append_nil _).symm (List.forall_mem_nil _)
  | drain c hclosed hbusy hsettled hending => exact h.setConnection Iff.rfl rfl
  | logoff c requests hending hdone =>
    have hended : Selected config (pool.ended c) := by
      refine setSession (h.setConnection ?_ ?_) ?_ ?_
      · exact Iff.rfl
      · rfl
      · exact fun _ ht => ht
      · exact fun _ _ ht => ht
    change Selected config (if _ then _ else _)
    split
    · exact hended.silent trivial
    · exact hended

end Selected

theorem calls_authorized {config : Config} {pool : Pool} (hrun : Pool.Run config pool)
    (hlate : ∀ event ∈ pool.events,Late event) :
    Chronicle (Authorized config) pool.events := by
  suffices Selected config pool from this.events
  induction hrun with
  | init => exact .init config
  | @step pool pool' hrun hstep ih =>
    have hbegins := hstep.events_prefix
    exact (ih fun event hmem => hlate event (hbegins.subset hmem)).step hstep hlate

def asciiBytes (text : String) : Bytes := text.toList.map fun c => UInt8.ofNat c.toNat

def utf16le (text : String) : Bytes := (js text).flatMap fun c => littleEndian 2 c.toNat

def sampleConfig : Config := {
  platform := {
    inflateRaw := fun _ => none
    engine := Tunnel.asciiEngine
    newURL := fun _ => none}
  origin := js "http://127.0.0.1:3030"
  backendAuth := ⟨js "BRIDGE",js "secret",[],[]⟩
  rfcAuth := ⟨.static,js "DEVELOPER",js "secret",[]⟩}

def header (opcode : UInt8) : Bytes := 6 :: opcode :: List.replicate 78 0

def chained (previous : Nat) (fields : List Field) : Bytes :=
  (encodeRfcFieldChain previous (fields ++ [⟨0xffff,[]⟩])).toOption.getD []

def trailer (consumed last : Nat) : Bytes :=
  [0xff,0xff,0,0] ++ bigEndian 2 consumed ++ [0,0] ++ bigEndian 2 last

def logonFrame : Bytes :=
  let chain := chained 0x0101 [⟨0x0114,asciiBytes "001"⟩,⟨0x0111,asciiBytes "DEVELOPER"⟩,
    ⟨0x0115,asciiBytes "EN"⟩,
    ⟨0x0117,[0,0,0,0] ++ (asciiBytes "secret").mapIdx (unscrambleByte 0 0)⟩]
  header 0xcb ++ signature ++ [1,1,0,8,3,1] ++ chain ++ trailer (chain.length + 20) 0

def typeFrame : Bytes :=
  let chain := chained 0x0502 [⟨0x0102,utf16le "DDIF_FIELDINFO_GET"⟩,⟨0x0201,utf16le "TABNAME"⟩,
    ⟨0x0203,utf16le "IHTTPNVP"⟩]
  header 0xcb ++ [5,2,0,0] ++ chain ++ trailer (chain.length + 6) 0x8500

set_option maxRecDepth 10000 in
theorem calls_authorized_sample : Chronicle (Authorized sampleConfig) (Pool.received sampleConfig 0
    [List.replicate 64 0,header 1,header 5,logonFrame,typeFrame]).events :=
  calls_authorized (Pool.received_run _ _ _) (by decide +kernel)

set_option maxRecDepth 10000 in
theorem type_described_without_logon :
    ¬∀ config pool,Pool.Run config pool → Chronicle (Authorized config) pool.events := by
  intro h
  have hevents : (Pool.received sampleConfig 0 [List.replicate 64 0,typeFrame]).events =
      [.frame 0 .gateway (List.replicate 64 0),.frame 0 .initialise typeFrame] ++
        [.metadata 0 (js "DDIF_FIELDINFO_GET")] := by rfl
  have hlast := hevents ▸ h _ _ (Pool.received_run sampleConfig 0 _)
  obtain ⟨frame,caller,hmem⟩ := hlast.last
  simp at hmem

end OpenSteamgate.Protocols.Server
