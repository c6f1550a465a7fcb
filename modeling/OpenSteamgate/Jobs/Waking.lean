import OpenSteamgate.Library.Outcome
import OpenSteamgate.Jobs.Calls

namespace OpenSteamgate.Jobs

variable {h : Platform} {s s' s'' : Store} {id : Id} {r child : Run} {events events' : List NamedEvent}
  {jobs jobs' : List JobEvent} {event : NamedEvent} {named : Bool} {children : List Run}

def woken (r : Run) : Run := {r with state := .queued}

def readied (rows : List StepRow) : List StepRow :=
  rows.map fun row => if isStep 1 .pending row then {row with state := .ready} else row

def stirs (events : List NamedEvent) (jobs : List JobEvent) (r : Run) : Bool :=
  r.state = .waiting && (events.any r.awaits || jobs.any r.follows)

structure Woken (p : Run → Bool) (s s' : Store) : Prop where
  runs : ∀ id,s'.runs.find id = (s.runs.find id).map fun r => if p r then woken r else r
  steps : ∀ id,s'.steps id = if (s.runs.find id).any fun r => p r && 0 < r.stepCount then
    readied (s.steps id) else s.steps id
  imports : s'.imports = s.imports
  log : s'.log = s.log
  events : s'.events = s.events
  jobEvents : s'.jobEvents = s.jobEvents
  clock : s'.clock = s.clock

namespace Woken

variable {p q : Run → Bool}

theorem congr (hw : Woken p s s') (hpq : ∀ id r,s.runs.find id = some r → p r = q r) : Woken q s s' := by
  refine ⟨fun id => ?_,fun id => ?_,hw.imports,hw.log,hw.events,hw.jobEvents,hw.clock⟩
  · rw [hw.runs]
    cases hfind : s.runs.find id with
    | none => rfl
    | some r => rw [Option.map_some,Option.map_some,hpq id r hfind]
  · rw [hw.steps]
    cases hfind : s.runs.find id with
    | none => rfl
    | some r => rw [Option.any_some,Option.any_some,hpq id r hfind]

theorem refl (hp : ∀ id r,s.runs.find id = some r → p r = false) : Woken p s s := by
  refine congr (p := fun _ => false) ⟨fun id => ?_,fun id => ?_,rfl,rfl,rfl,rfl,rfl⟩
    fun id r hr => (hp id r hr).symm
  · cases s.runs.find id with
    | none => rfl
    | some r => rfl
  · cases s.runs.find id with
    | none => rfl
    | some r => rfl

theorem trans (hp : Woken p s s') (hq : Woken q s' s'') (hqueued : ∀ r,p r = true → q (woken r) = false) :
    Woken (fun r => p r || q r) s s'' := by
  refine ⟨fun id => ?_,fun id => ?_,hq.imports.trans hp.imports,hq.log.trans hp.log,
    hq.events.trans hp.events,hq.jobEvents.trans hp.jobEvents,hq.clock.trans hp.clock⟩
  · rw [hq.runs,hp.runs]
    cases s.runs.find id with
    | none => rfl
    | some r =>
      simp only [Option.map_some]
      by_cases hpr : p r = true
      · simp only [hpr,if_true,Bool.true_or,hqueued r hpr,Bool.false_eq_true,if_false]
      · simp only [hpr,Bool.false_or]
        rfl
  · rw [hq.steps,hp.runs,hp.steps]
    cases s.runs.find id with
    | none => rfl
    | some r =>
      simp only [Option.map_some,Option.any_some]
      by_cases hpr : p r = true
      · simp only [hpr,if_true,Bool.true_or,hqueued r hpr,Bool.false_and,Bool.false_eq_true,if_false]
      · simp only [hpr,Bool.false_and,Bool.false_eq_true,if_false,Bool.false_or]

end Woken

theorem setState_runs (s : Store) (id : Id) (old new : RunState) (l : Id) :
    (s.setState id old new).1.runs.find l = if l = id then
      (s.runs.find id).map fun r => if r.state = old then {r with state := new} else r
    else s.runs.find l := by
  rw [Store.setState,Store.updateRun]
  have hfind := Table.updateAt_find s.runs id (fun r => decide (r.state = old))
    (fun r => {r with state := new}) (fun _ => rfl) l
  simp only [decide_eq_true_eq] at hfind
  exact hfind

theorem setSteps_self (s : Store) (id : Id) (p : StepRow → Bool) (new : StepState) :
    (s.setSteps id p new).1.steps id =
      (s.steps id).map fun row => if p row then {row with state := new} else row :=
  Function.update_self ..

theorem setSteps_other {l : Id} (hl : l ≠ id) (s : Store) (p : StepRow → Bool) (new : StepState) :
    (s.setSteps id p new).1.steps l = s.steps l :=
  Function.update_of_ne hl ..

theorem wake_woken (hchild : s.runs.find child.id = some child) (hwaiting : child.state = .waiting)
    (h : s.wake named child = .ok s') : Woken (fun r => r.id = child.id) s s' := by
  have hruns : ∀ t : Store,t.runs = s.runs → ∀ id,(t.setState child.id .waiting .queued).1.runs.find id =
        (s.runs.find id).map fun r => if decide (r.id = child.id) then woken r else r := by
    intro t ht id
    rw [setState_runs,ht]
    by_cases hid : id = child.id
    · subst hid
      rw [if_pos rfl,hchild,Option.map_some,Option.map_some,if_pos hwaiting,if_pos (decide_eq_true rfl)]
      rfl
    · rw [if_neg hid]
      cases hfind : s.runs.find id with
      | none => rfl
      | some r =>
        have hne : r.id ≠ child.id := Table.find_key hfind ▸ hid
        rw [Option.map_some,if_neg (by rw [decide_eq_false hne]; exact nofun)]
  rw [Store.wake] at h
  split at h
  · dsimp only at h
    split at h
    · exact nomatch h
    · rename_i hready
      obtain rfl := Except.ok.inj h
      have hcount : 0 < child.stepCount := by
        rw [Bool.not_eq_true,Bool.or_eq_false_iff] at hready
        have hpos := of_decide_eq_false hready.1
        omega
      refine ⟨hruns _ rfl,fun id => ?_,rfl,rfl,rfl,rfl,rfl⟩
      by_cases hid : id = child.id
      · subst hid
        change (s.setSteps child.id (isStep 1 .pending) .ready).1.steps child.id = _
        rw [setSteps_self,hchild]
        simp only [Option.any_some,decide_true,hcount,Bool.and_self,if_true]
        rfl
      · change (s.setSteps child.id (isStep 1 .pending) .ready).1.steps id = _
        rw [setSteps_other hid]
        cases hfind : s.runs.find id with
        | none => rfl
        | some r =>
          have hne : r.id ≠ child.id := Table.find_key hfind ▸ hid
          simp only [Option.any_some,hne,decide_false,Bool.false_and,Bool.false_eq_true,if_false]
  · rename_i hnone
    obtain rfl := Except.ok.inj h
    rw [Bool.not_eq_true,Bool.or_eq_false_iff] at hnone
    refine ⟨hruns s rfl,fun id => ?_,rfl,rfl,rfl,rfl,rfl⟩
    change s.steps id = _
    cases hfind : s.runs.find id with
    | none => rfl
    | some r =>
      by_cases hid : r.id = child.id
      · have hkey := Table.find_key hfind
        rw [← hkey,hid,hchild] at hfind
        obtain rfl := Option.some.inj hfind
        have hzero : ¬0 < child.stepCount := of_decide_eq_false hnone.1
        simp only [Option.any_some,hzero,decide_false,Bool.and_false,Bool.false_eq_true,if_false]
      · simp only [Option.any_some,hid,decide_false,Bool.false_and,Bool.false_eq_true,if_false]

theorem wakeAll_woken (hchildren : ∀ child ∈ children,s.runs.find child.id = some child ∧
      child.state = .waiting) (hnodup : (children.map Run.id).Nodup)
    (h : s.wakeAll named children = .ok s') :
    Woken (fun r => (children.map Run.id).contains r.id) s s' := by
  induction children generalizing s with
  | nil =>
    obtain rfl := Except.ok.inj h
    exact .refl fun id r _ => rfl
  | cons child children ih =>
    obtain ⟨t,ht,hrest⟩ := bind_eq_ok h
    obtain ⟨hnew,hnodup⟩ := List.nodup_cons.mp hnodup
    obtain ⟨hfind,hwaiting⟩ := hchildren child List.mem_cons_self
    have hwoken := wake_woken hfind hwaiting ht
    have hothers : ∀ other ∈ children,t.runs.find other.id = some other ∧ other.state = .waiting := by
      intro other hother
      obtain ⟨hfound,hstate⟩ := hchildren other (List.mem_cons_of_mem child hother)
      have hne : other.id ≠ child.id := fun heq => hnew (heq ▸ List.mem_map_of_mem hother)
      rw [hwoken.runs,hfound,Option.map_some,decide_eq_false hne]
      exact ⟨rfl,hstate⟩
    refine ((hwoken.trans (ih hothers hnodup hrest)) fun r hr => ?_).congr fun id r _ => ?_
    · have hid : (woken r).id = child.id := of_decide_eq_true hr
      rw [hid,← Bool.not_eq_true,List.contains_iff_mem]
      exact hnew
    · rw [List.map_cons,List.contains_cons,Bool.beq_eq_decide_eq]

theorem wakeAll_filter {p : Run → Bool}
    (h : s.wakeAll named (s.runs.rows.filter fun r => r.state = .waiting && p r) = .ok s') :
    Woken (fun r => r.state = .waiting && p r) s s' := by
  have hchildren : ∀ child ∈ s.runs.rows.filter (fun r => r.state = .waiting && p r),
      s.runs.find child.id = some child ∧ child.state = .waiting := by
    intro child hchild
    obtain ⟨hmem,hp⟩ := List.mem_filter.mp hchild
    exact ⟨Table.find_of_mem hmem,of_decide_eq_true (Bool.and_eq_true_iff.mp hp).1⟩
  have hnodup : ((s.runs.rows.filter fun r => r.state = .waiting && p r).map Run.id).Nodup :=
    s.runs.nodup.sublist (List.filter_sublist.map Run.id)
  refine (wakeAll_woken hchildren hnodup h).congr fun id r hr => ?_
  rw [Bool.eq_iff_iff,List.contains_iff_mem]
  constructor
  · intro hid
    obtain ⟨child,hchild,heq⟩ := List.mem_map.mp hid
    have hfound := (hchildren child hchild).1
    rw [heq,Table.find_key hr,hr] at hfound
    obtain rfl := Option.some.inj hfound
    exact (List.mem_filter.mp hchild).2
  · intro hp
    exact List.mem_map_of_mem (List.mem_filter.mpr ⟨(Table.find_mem hr).1,hp⟩)

structure Emitted (events : List NamedEvent) (jobs : List JobEvent) (s s' : Store) : Prop where
  runs : ∀ id,s'.runs.find id = (s.runs.find id).map fun r => if stirs events jobs r then woken r else r
  steps : ∀ id,s'.steps id = if (s.runs.find id).any fun r => stirs events jobs r && 0 < r.stepCount then
    readied (s.steps id) else s.steps id
  imports : s'.imports = s.imports
  log : s'.log = s.log
  events : s'.events.rows = s.events.rows ++ events
  jobEvents : s'.jobEvents.rows = s.jobEvents.rows ++ jobs

theorem stirs_waiting (h : stirs events jobs r = true) : r.state = .waiting :=
  of_decide_eq_true (Bool.and_eq_true_iff.mp h).1

theorem stirs_woken (r : Run) : stirs events jobs (woken r) = false := rfl

theorem stirs_append (r : Run) : stirs (events ++ events') (jobs ++ jobs') r =
    (stirs events jobs r || stirs events' jobs' r) := by
  rw [stirs,stirs,stirs,List.any_append,List.any_append,← Bool.and_or_distrib_left]
  congr 1
  ac_rfl

theorem Emitted.refl (s : Store) : Emitted [] [] s s := by
  have hnone : ∀ r,stirs [] [] r = false := fun r => by
    rw [stirs,List.any_nil,List.any_nil,Bool.or_self,Bool.and_false]
  refine ⟨fun id => ?_,fun id => ?_,rfl,rfl,(List.append_nil _).symm,(List.append_nil _).symm⟩
  · simp only [hnone,Bool.false_eq_true,if_false,Option.map_id']
  · cases s.runs.find id with
    | none => rfl
    | some r => simp only [hnone,Option.any_some,Bool.false_and,Bool.false_eq_true,if_false]

theorem Emitted.trans (he : Emitted events jobs s s') (he' : Emitted events' jobs' s' s'') :
    Emitted (events ++ events') (jobs ++ jobs') s s'' := by
  refine ⟨fun id => ?_,fun id => ?_,he'.imports.trans he.imports,he'.log.trans he.log,?_,?_⟩
  · rw [he'.runs,he.runs]
    cases s.runs.find id with
    | none => rfl
    | some r =>
      simp only [Option.map_some,stirs_append]
      by_cases hr : stirs events jobs r = true
      · simp only [hr,if_true,Bool.true_or,stirs_woken,Bool.false_eq_true,if_false]
      · simp only [hr,Bool.false_or]
        rfl
  · rw [he'.steps,he.runs,he.steps]
    cases s.runs.find id with
    | none => rfl
    | some r =>
      simp only [Option.map_some,Option.any_some,stirs_append]
      by_cases hr : stirs events jobs r = true
      · simp only [hr,if_true,Bool.true_or,stirs_woken,Bool.false_and,Bool.false_eq_true,if_false]
      · simp only [hr,Bool.false_and,Bool.false_eq_true,if_false,Bool.false_or]
  · rw [he'.events,he.events,List.append_assoc]
  · rw [he'.jobEvents,he.jobEvents,List.append_assoc]

theorem insertEvent_ok (h : s.insertEvent event = .ok s') :
    ∃ rows,s.events.insert event = some rows ∧ s' = {s with events := rows} := by
  rw [Store.insertEvent] at h
  split at h
  · exact nomatch h
  · rename_i rows hinsert
    exact ⟨rows,hinsert,(Except.ok.inj h).symm⟩

theorem insertJobEvent_ok {job : JobEvent} (h : s.insertJobEvent job = .ok s') :
    ∃ rows,s.jobEvents.insert job = some rows ∧ s' = {s with jobEvents := rows} := by
  rw [Store.insertJobEvent] at h
  split at h
  · exact nomatch h
  · rename_i rows hinsert
    exact ⟨rows,hinsert,(Except.ok.inj h).symm⟩

theorem emitNamed_emitted (h : s.emitNamed event = .ok s') : Emitted [event] [] s s' := by
  obtain ⟨t,ht,hwake⟩ := bind_eq_ok h
  obtain ⟨rows,hinsert,rfl⟩ := insertEvent_ok ht
  have hwoken := (wakeAll_filter hwake).congr (q := stirs [event] []) fun id r _ => by
    rw [stirs,List.any_cons,List.any_nil,List.any_nil,Bool.or_false,Bool.or_false]
  refine ⟨hwoken.runs,hwoken.steps,hwoken.imports,hwoken.log,?_,?_⟩
  · rw [hwoken.events]
    exact (Table.insert_some hinsert).2
  · rw [hwoken.jobEvents,List.append_nil]

theorem emitNamed_fresh (h : s.emitNamed event = .ok s') : s.events.find event.intent = none := by
  obtain ⟨t,ht,-⟩ := bind_eq_ok h
  obtain ⟨rows,hinsert,-⟩ := insertEvent_ok ht
  exact (Table.insert_some hinsert).1

theorem Emitted.fresh {key : Id} (he : Emitted events jobs s s') (hnone : s'.events.find key = none) :
    s.events.find key = none := by
  rw [Table.find,List.find?_eq_none] at hnone ⊢
  rw [he.events] at hnone
  exact fun e hmem => hnone e (List.mem_append_left _ hmem)

theorem clock_emitted {seq : Nat} (h : Emitted events jobs {s with clock := seq} s') :
    Emitted events jobs s s' :=
  ⟨h.runs,h.steps,h.imports,h.log,h.events,h.jobEvents⟩

def TailEvents (h : Platform) (run : Run) (events : List NamedEvent) : Prop :=
  events = [] ∨ ∃ origin inst tail seq,run.tail = some tail ∧ run.origin = some origin ∧
    events = [signal h run.id origin inst tail.id tail.param seq]

theorem emitCompletion_emitted (hemit : s.emitCompletion h id = .ok s')
    (hrun : s.runs.find id = some r) :
    ∃ events jobs,Emitted events jobs s s' ∧ TailEvents h r events ∧
      jobs = (r.origin.map fun origin => (⟨id,origin,r.jobName,r.jobCount⟩ : JobEvent)).toList ∧
      (r.origin ≠ none → s.jobEvents.find id = none) ∧
      ∀ event ∈ events,s.events.find event.intent = none := by
  rw [Store.emitCompletion,hrun] at hemit
  dsimp only at hemit
  cases horigin : r.origin with
  | none =>
    rw [horigin] at hemit
    obtain rfl := Except.ok.inj hemit
    exact ⟨[],[],.refl s,.inl rfl,rfl,absurd rfl,List.forall_mem_nil _⟩
  | some origin =>
    rw [horigin] at hemit
    obtain ⟨t,ht,hwaking⟩ := bind_eq_ok hemit
    obtain ⟨u,hwake,hrest⟩ := bind_eq_ok hwaking
    obtain ⟨rows,hinsert,rfl⟩ := insertJobEvent_ok ht
    obtain ⟨hnone,hrows⟩ := Table.insert_some hinsert
    have hwoken := (wakeAll_filter hwake).congr
      (q := stirs [] [⟨id,origin,r.jobName,r.jobCount⟩]) fun id r _ => by
        rw [stirs,List.any_cons,List.any_nil,List.any_nil,Bool.or_false,Bool.false_or]
    have hemitted : Emitted [] [⟨id,origin,r.jobName,r.jobCount⟩] s u := by
      refine ⟨hwoken.runs,hwoken.steps,hwoken.imports,hwoken.log,?_,?_⟩
      · rw [hwoken.events,List.append_nil]
      · rw [hwoken.jobEvents]
        exact hrows
    cases htail : r.tail with
    | none =>
      rw [htail] at hrest
      obtain rfl := Except.ok.inj hrest
      exact ⟨[],_,hemitted,.inl rfl,rfl,fun _ => hnone,List.forall_mem_nil _⟩
    | some tail =>
      rw [htail] at hrest
      cases hinst : r.sourceInstance with
      | none =>
        rw [hinst] at hrest
        exact nomatch hrest
      | some inst =>
        rw [hinst] at hrest
        have hnamed := clock_emitted (emitNamed_emitted hrest)
        refine ⟨_,_,hemitted.trans hnamed,.inr ⟨origin,inst,tail,u.nextSignalSeq.1,htail,horigin,?_⟩,
          List.append_nil _,fun _ => hnone,fun event hevent => ?_⟩
        · rw [Table.find_key hrun]
          rfl
        · obtain rfl := List.mem_singleton.mp hevent
          have hfresh := emitNamed_fresh hrest
          change u.events.find _ = none at hfresh
          rwa [hwoken.events] at hfresh

def EndEvents (h : Platform) (run : Run) (events : List NamedEvent) : Prop :=
  match run.origin,run.jobEndInstance.or run.sourceInstance with
  | some origin,some inst => ∃ seq,events =
      [signal h (h.endKey run.id) origin inst Store.endOfJob (Store.endParam run) seq]
  | _,_ => events = []

theorem emitJobEnd_emitted (hemit : s.emitJobEnd h id = .ok s') (hrun : s.runs.find id = some r) :
    ∃ events,Emitted events [] s s' ∧ EndEvents h r events ∧
      (events ≠ [] → s.events.find (h.endKey id) = none) := by
  rw [Store.emitJobEnd,hrun] at hemit
  dsimp only at hemit
  unfold EndEvents
  cases horigin : r.origin with
  | none =>
    rw [horigin] at hemit
    obtain rfl := Except.ok.inj hemit
    exact ⟨[],.refl s,rfl,absurd rfl⟩
  | some origin =>
    rw [horigin] at hemit
    cases hinst : r.jobEndInstance.or r.sourceInstance with
    | none =>
      rw [hinst] at hemit
      obtain rfl := Except.ok.inj hemit
      exact ⟨[],.refl s,rfl,absurd rfl⟩
    | some inst =>
      rw [hinst] at hemit
      refine ⟨_,clock_emitted (emitNamed_emitted hemit),⟨s.nextSignalSeq.1,?_⟩,
        fun _ => emitNamed_fresh hemit⟩
      rw [Table.find_key hrun]

end OpenSteamgate.Jobs
