import OpenSteamgate.Adt.Kernel

namespace OpenSteamgate.Adt

open Enq (Time Request Result OwnerID)

structure Step where
  sid : Nat := 0
  boundID : String := ""
  holderSID : Nat := 0

structure Waiter where
  sid : Nat
  bound : String
  request : Request
  attempt : Nat

structure Host (C : Type) where
  kernel : Kernel
  steps : AList (fun _ : Option C => Step)
  ended : List String
  waiting : List Waiter

inductive Op (C : Type) where
  | start (s : Option C)
  | finish (s : Option C) (dumped : Bool) (now : Time)
  | bind (s : Option C) (id user : String) (now₁ now₂ : Time)
  | endKey (id : String)
  | revive (id : String)
  | enqueue (s : Option C) (r : Request) (wait : Bool) (user : String) (now₁ now₂ now : Time)
  | wake (i : Nat) (now : Time)
  | dequeue (s : Option C) (r : Request)
  | dequeueAll (s : Option C)
  | commit (s : Option C) (updated : Bool) (now : Time)
  | rollback (s : Option C) (now : Time)

def Op.bindsKey {C : Type} (owner : Owner) : Op C → Option String
  | .bind _ id _ _ _ => some (owner.key (text id))
  | _ => none

def Op.endsKey {C : Type} (owner : Owner) : Op C → Option String
  | .endKey id => some (owner.key (text id))
  | _ => none

def Op.revivesKey {C : Type} (owner : Owner) : Op C → Option String
  | .revive id => some (owner.key (text id))
  | _ => none

inductive Answer where
  | started (fresh : Bool)
  | bound (ok : Bool)
  | locked (res : Result)
  | sessionEnded
  | asleep
  | done
  deriving DecidableEq

def waitTries : Nat := 5

namespace Host

variable {C : Type} [DecidableEq C]

def new (server : Server) (owner : Owner) : Host C := ⟨.new server owner,∅,[],[]⟩

def withServer (h : Host C) (server : Server) : Host C :=
  { h with kernel := { h.kernel with server := server } }

def start (h : Host C) (s : Option C) : Host C × Bool :=
  match h.steps.lookup s with
  | none => ({ h with steps := h.steps.insert s {} },true)
  | some _ => (h,false)

def finish (h : Host C) (s : Option C) (dumped : Bool) (now : Time) : Host C :=
  match h.steps.lookup s with
  | none => h
  | some step =>
      let h := { h with steps := h.steps.erase s }
      if step.boundID ≠ "" then
        let k := h.kernel
        let k := if dumped = true ∧ step.sid ≠ 0 then
          ({ k with server := k.server.rollback step.sid now } : Kernel).dropContext
            step.boundID step.sid else k
        let k := k.unpin step.sid
        { h with kernel := if step.holderSID ≠ 0 then
          { k with server := k.server.endSession step.holderSID } else k }
      else if step.sid ≠ 0 then
        let srv := h.kernel.server
        let srv := if dumped then srv.rollback step.sid now else srv
        h.withServer (srv.endSession step.sid)
      else h

def live (h : Host C) (s : Option C) : Option Step := s.bind fun _ => h.steps.lookup s

def bind (h : Host C) (s : Option C) (id user : String) (now₁ now₂ : Time) : Host C × Bool :=
  let id := text id
  match h.live s with
  | none =>
      let b := h.kernel.bind id user now₁ now₂
      ({ h with kernel := b.1 },b.2)
  | some step =>
      if id ∈ h.ended then (h,false)
      else if step.boundID = id ∧ step.sid ≠ 0 then (h,true)
      else
        match h.kernel.takePin id user now₁ now₂ with
        | (k,none) => ({ h with kernel := k },false)
        | (k,some sid) =>
            let k := if step.boundID ≠ "" ∧ step.sid ≠ 0 then k.unpin step.sid else k
            let holder := if step.boundID = "" ∧ step.sid ≠ 0 then step.sid else step.holderSID
            ({ h with kernel := k, steps := h.steps.insert s ⟨sid,id,holder⟩ },true)

def endKey (h : Host C) (id : String) : Host C :=
  let id := text id
  { h with ended := Recency.push endedKeep id h.ended, kernel := h.kernel.endKey id }

def revive (h : Host C) (id : String) : Host C :=
  let id := text id
  { h with ended := h.ended.erase id, kernel := h.kernel.revive id }

def locate (h : Host C) (s : Option C) (step : Step) (opens : Bool) (user : String)
    (now₁ now₂ : Time) : Host C × Option (Nat × String) :=
  if step.boundID ≠ "" then
    if step.boundID ∈ h.ended then (h,none)
    else if step.sid = 0 then
      let sid := h.kernel.handle step.boundID
      if sid = 0 then (h,none)
      else ({ h with steps := h.steps.insert s { step with sid := sid } },some (sid,step.boundID))
    else (h,some (step.sid,step.boundID))
  else if step.sid = 0 then
    if opens then
      let o := h.kernel.server.openSession user now₁ now₂
      ({ h.withServer o.1 with steps := h.steps.insert s { step with sid := o.2 } },some (o.2,""))
    else (h,some (0,""))
  else (h,some (step.sid,""))

def current (h : Host C) (s : Option C) (opens : Bool) (user : String) (now₁ now₂ : Time) :
    Host C × Option (Nat × String) :=
  match h.steps.lookup s with
  | some step => h.locate s step opens user now₁ now₂
  | none =>
      if opens then
        ({ h with steps := h.steps.insert s {} } : Host C).locate s {} opens user now₁ now₂
      else (h,some (0,""))

def attempt (h : Host C) (w : Waiter) (wait : Bool) (now : Time) : Host C × Answer :=
  let e := h.kernel.server.enqueue w.sid w.request now
  let h := h.withServer e.1
  if e.2.subrc ≠ 1 ∨ wait = false ∨ waitTries ≤ w.attempt then (h,.locked e.2)
  else ({ h with waiting := h.waiting ++ [w] },.asleep)

def enqueue (h : Host C) (s : Option C) (r : Request) (wait : Bool) (user : String)
    (now₁ now₂ now : Time) : Host C × Answer :=
  match h.current s true user now₁ now₂ with
  | (h,none) => (h,.sessionEnded)
  | (h,some (sid,bound)) =>
      if sid = 0 then (h,.locked ⟨2,"",""⟩) else h.attempt ⟨sid,bound,r,0⟩ wait now

def wake (h : Host C) (i : Nat) (now : Time) : Host C × Answer :=
  match h.waiting[i]? with
  | none => (h,.done)
  | some w =>
      let h := { h with waiting := h.waiting.eraseIdx i }
      if w.bound ≠ "" ∧ w.bound ∈ h.ended then (h,.sessionEnded)
      else h.attempt { w with attempt := w.attempt + 1 } true now

def onSession (h : Host C) (s : Option C) (call : Server → Nat → Server) : Host C :=
  match h.current s false "" ⟨0,0,0,0,0,0,0⟩ ⟨0,0,0,0,0,0,0⟩ with
  | (h,none) => h
  | (h,some (sid,_)) => if sid = 0 then h else h.withServer (call h.kernel.server sid)

def dequeue (h : Host C) (s : Option C) (r : Request) : Host C :=
  h.onSession s fun srv sid => srv.serve (.dequeue sid r)

def dequeueAll (h : Host C) (s : Option C) : Host C :=
  h.onSession s fun srv sid => srv.serve (.dequeueAll sid)

def commit (h : Host C) (s : Option C) (updated : Bool) (now : Time) : Host C :=
  h.onSession s fun srv sid =>
    let c := srv.commit sid updated now
    c.1.updateDone sid c.2

def rollback (h : Host C) (s : Option C) (now : Time) : Host C :=
  h.onSession s fun srv sid => srv.rollback sid now

def step (h : Host C) : Op C → Host C × Answer
  | .start s => ((h.start s).1,.started (h.start s).2)
  | .finish s dumped now => (h.finish s dumped now,.done)
  | .bind s id user now₁ now₂ =>
      ((h.bind s id user now₁ now₂).1,.bound (h.bind s id user now₁ now₂).2)
  | .endKey id => (h.endKey id,.done)
  | .revive id => (h.revive id,.done)
  | .enqueue s r wait user now₁ now₂ now => h.enqueue s r wait user now₁ now₂ now
  | .wake i now => h.wake i now
  | .dequeue s r => (h.dequeue s r,.done)
  | .dequeueAll s => (h.dequeueAll s,.done)
  | .commit s updated now => (h.commit s updated now,.done)
  | .rollback s now => (h.rollback s now,.done)

inductive Bound (h : Host C) (s : Option C) (id user : String) (now₁ now₂ : Time) :
    Host C → Bool → Prop
  | stepless : h.live s = none → Bound h s id user now₁ now₂
      { h with kernel := (h.kernel.bind (text id) user now₁ now₂).1 }
      (h.kernel.bind (text id) user now₁ now₂).2
  | ended (step : Step) : h.live s = some step → text id ∈ h.ended →
      Bound h s id user now₁ now₂ h false
  | again (step : Step) : h.live s = some step → text id ∉ h.ended → step.boundID = text id →
      step.sid ≠ 0 → Bound h s id user now₁ now₂ h true
  | keyEnded (step : Step) : h.live s = some step → text id ∉ h.ended →
      ¬(step.boundID = text id ∧ step.sid ≠ 0) → h.kernel.keyOf id ∈ h.kernel.ended →
      Bound h s id user now₁ now₂ h false
  | pinned (step : Step) (k : Kernel) (sid : Nat) : h.live s = some step → text id ∉ h.ended →
      ¬(step.boundID = text id ∧ step.sid ≠ 0) → h.kernel.keyOf id ∉ h.kernel.ended →
      h.kernel.takePin (text id) user now₁ now₂ = (k,some sid) →
      Bound h s id user now₁ now₂
        { h with
          kernel := if step.boundID ≠ "" ∧ step.sid ≠ 0 then k.unpin step.sid else k
          steps := h.steps.insert s ⟨sid,text id,
            if step.boundID = "" ∧ step.sid ≠ 0 then step.sid else step.holderSID⟩ } true

theorem bind_cases (h : Host C) (s : Option C) (id user : String) (now₁ now₂ : Time) :
    Bound h s id user now₁ now₂ (h.bind s id user now₁ now₂).1 (h.bind s id user now₁ now₂).2 := by
  simp only [Host.bind]
  cases hs : h.live s with
  | none => exact .stepless hs
  | some step =>
    simp only
    by_cases hend : text id ∈ h.ended
    · rw [if_pos hend]
      exact .ended step hs hend
    rw [if_neg hend]
    by_cases hsame : step.boundID = text id ∧ step.sid ≠ 0
    · rw [if_pos hsame]
      exact .again step hs hend hsame.1 hsame.2
    rw [if_neg hsame]
    by_cases hkey : h.kernel.keyOf id ∈ h.kernel.ended
    · have hpin : h.kernel.takePin (text id) user now₁ now₂ = (h.kernel,none) := by
        simp only [Kernel.takePin,keyOf_text,if_pos hkey]
      rw [hpin]
      exact .keyEnded step hs hend hsame hkey
    · obtain ⟨k,sid,hpin⟩ : ∃ k sid,h.kernel.takePin (text id) user now₁ now₂ = (k,some sid) := by
        simp only [Kernel.takePin,keyOf_text,if_neg hkey]
        split_ifs <;> exact ⟨_,_,rfl⟩
      rw [hpin]
      exact .pinned step k sid hs hend hsame hkey hpin

structure Quiet (h h' : Host C) : Prop where
  owner : h'.kernel.owner = h.kernel.owner
  kernelEnded : h'.kernel.ended = h.kernel.ended
  ended : h'.ended = h.ended
  sessions : ∀ key sid, h'.kernel.sessions.lookup key = some sid →
    h.kernel.sessions.lookup key = some sid
  steps : ∀ s step, h'.steps.lookup s = some step → step.boundID ≠ "" →
    ∃ old, h.steps.lookup s = some old ∧ old.boundID = step.boundID
  waiting : ∀ w ∈ h'.waiting, w.bound ≠ "" → (∃ w' ∈ h.waiting, w'.bound = w.bound) ∨
    ∃ s step, h.steps.lookup s = some step ∧ step.boundID = w.bound

variable {h h' h'' : Host C}

theorem Quiet.same (owner : h'.kernel.owner = h.kernel.owner)
    (kernelEnded : h'.kernel.ended = h.kernel.ended) (ended : h'.ended = h.ended)
    (sessions : ∀ key sid,h'.kernel.sessions.lookup key = some sid →
      h.kernel.sessions.lookup key = some sid)
    (steps : h'.steps = h.steps) (waiting : h'.waiting = h.waiting) : Quiet h h' :=
  ⟨owner,kernelEnded,ended,sessions,fun _ step hl _ => ⟨step,steps ▸ hl,rfl⟩,
    fun w hw _ => .inl ⟨w,waiting ▸ hw,rfl⟩⟩

theorem Quiet.refl (h : Host C) : Quiet h h := .same rfl rfl rfl (fun _ _ hk => hk) rfl rfl

theorem Quiet.trans (hq : Quiet h h') (hq' : Quiet h' h'') : Quiet h h'' := by
  refine ⟨hq'.owner.trans hq.owner,hq'.kernelEnded.trans hq.kernelEnded,hq'.ended.trans hq.ended,
    fun key sid hk => hq.sessions key sid (hq'.sessions key sid hk),?_,?_⟩
  · intro s step hl hb
    obtain ⟨old,hl',he⟩ := hq'.steps s step hl hb
    obtain ⟨old',hl'',he'⟩ := hq.steps s old hl' (he ▸ hb)
    exact ⟨old',hl'',he'.trans he⟩
  · intro w hw hb
    rcases hq'.waiting w hw hb with ⟨w',hw',he⟩ | ⟨s,step,hl,he⟩
    · rw [← he] at hb ⊢
      exact hq.waiting w' hw' hb
    · obtain ⟨old,hl',he'⟩ := hq.steps s step hl (he ▸ hb)
      exact .inr ⟨s,old,hl',he'.trans he⟩

theorem put_quiet (h : Host C) {s : Option C} {step : Step} (hs : step.boundID ≠ "" →
    ∃ old,h.steps.lookup s = some old ∧ old.boundID = step.boundID) :
    Quiet h { h with steps := h.steps.insert s step } := by
  refine ⟨rfl,rfl,rfl,fun _ _ hk => hk,fun s' step' hl hb => ?_,fun w hw _ => .inl ⟨w,hw,rfl⟩⟩
  rcases lookup_of_insert hl with ⟨rfl,rfl⟩ | ⟨-,hl⟩
  · exact hs hb
  · exact ⟨step',hl,rfl⟩

theorem start_quiet (h : Host C) (s : Option C) : Quiet h (h.start s).1 := by
  unfold Host.start
  cases h.steps.lookup s with
  | none => exact put_quiet h fun hb => (hb rfl).elim
  | some step => exact .refl h

theorem finish_quiet (h : Host C) (s : Option C) (dumped : Bool) (now : Time) :
    Quiet h (h.finish s dumped now) := by
  have hremove : Quiet h { h with steps := h.steps.erase s } :=
    ⟨rfl,rfl,rfl,fun _ _ hk => hk,fun s' step hl _ => ⟨step,lookup_of_erase hl,rfl⟩,
      fun w hw _ => .inl ⟨w,hw,rfl⟩⟩
  simp only [Host.finish]
  cases h.steps.lookup s with
  | none => exact .refl h
  | some step =>
    refine hremove.trans ?_
    simp only
    by_cases hb : step.boundID ≠ ""
    · have hunpin : ∀ k : Kernel,k.owner = h.kernel.owner → k.ended = h.kernel.ended →
          (∀ key sid,k.sessions.lookup key = some sid → h.kernel.sessions.lookup key = some sid) →
          (k.unpin step.sid).owner = h.kernel.owner ∧ (k.unpin step.sid).ended = h.kernel.ended ∧
            ∀ key sid,(k.unpin step.sid).sessions.lookup key = some sid →
              h.kernel.sessions.lookup key = some sid := by
        intro k ho he hm
        obtain ⟨hs',ho',he'⟩ := unpin_frame k step.sid
        exact ⟨ho'.trans ho,he'.trans he,fun key sid hk => hm key sid (hs' ▸ hk)⟩
      rw [if_pos hb]
      by_cases hd : dumped = true ∧ step.sid ≠ 0
      · obtain ⟨ho,he,hm⟩ := dropContext_frame
          { h.kernel with server := h.kernel.server.rollback step.sid now } step.boundID step.sid
        obtain ⟨ho,he,hm⟩ := hunpin _ ho he hm
        rw [if_pos hd]
        split_ifs <;> exact .same ho he rfl hm rfl rfl
      · obtain ⟨ho,he,hm⟩ := hunpin h.kernel rfl rfl fun _ _ hk => hk
        rw [if_neg hd]
        split_ifs <;> exact .same ho he rfl hm rfl rfl
    · rw [if_neg hb]
      split_ifs <;> exact .same rfl rfl rfl (fun _ _ hk => hk) rfl rfl

theorem locate_quiet (h : Host C) {s : Option C} {step : Step} (hs : h.steps.lookup s = some step)
    (opens : Bool) (user : String) (now₁ now₂ : Time) :
    Quiet h (h.locate s step opens user now₁ now₂).1 := by
  have hput : ∀ sid,Quiet h { h with steps := h.steps.insert s { step with sid := sid } } :=
    fun sid => put_quiet h fun _ => ⟨step,hs,rfl⟩
  simp only [Host.locate]
  split_ifs
  · exact .refl h
  · exact .refl h
  · exact hput _
  · exact .refl h
  · exact (hput _).trans (.same rfl rfl rfl (fun _ _ hk => hk) rfl rfl)
  · exact .refl h
  · exact .refl h

theorem current_quiet (h : Host C) (s : Option C) (opens : Bool) (user : String)
    (now₁ now₂ : Time) : Quiet h (h.current s opens user now₁ now₂).1 := by
  simp only [Host.current]
  cases hs : h.steps.lookup s with
  | some step => exact locate_quiet h hs opens user now₁ now₂
  | none =>
    simp only
    split_ifs
    · have hq := start_quiet h s
      simp only [Host.start,hs] at hq
      exact hq.trans (locate_quiet _ (AList.lookup_insert _) opens user now₁ now₂)
    · exact .refl h

theorem locate_bound (h : Host C) (s : Option C) (step : Step) (opens : Bool) (user : String)
    (now₁ now₂ : Time) {sid : Nat} {b : String}
    (hres : (h.locate s step opens user now₁ now₂).2 = some (sid,b)) (hb : b ≠ "") :
    step.boundID = b := by
  simp only [Host.locate] at hres
  split_ifs at hres <;> simp only [Option.some.injEq,Prod.mk.injEq] at hres
  · exact hres.2
  · exact hres.2
  · exact (hb hres.2.symm).elim
  · exact (hb hres.2.symm).elim
  · exact (hb hres.2.symm).elim

theorem current_bound (h : Host C) (s : Option C) (opens : Bool) (user : String)
    (now₁ now₂ : Time) {sid : Nat} {b : String}
    (hres : (h.current s opens user now₁ now₂).2 = some (sid,b)) (hb : b ≠ "") :
    ∃ step,h.steps.lookup s = some step ∧ step.boundID = b := by
  simp only [Host.current] at hres
  cases hs : h.steps.lookup s with
  | some step =>
    simp only [hs] at hres
    exact ⟨step,rfl,locate_bound h s step opens user now₁ now₂ hres hb⟩
  | none =>
    simp only [hs] at hres
    split_ifs at hres
    · exact (hb (locate_bound _ s {} opens user now₁ now₂ hres hb).symm).elim
    · simp only [Option.some.injEq,Prod.mk.injEq] at hres
      exact (hb hres.2.symm).elim

theorem attempt_quiet (hq : Quiet h h') (w : Waiter) (hw : w.bound ≠ "" →
      (∃ w' ∈ h.waiting,w'.bound = w.bound) ∨
        ∃ s step,h.steps.lookup s = some step ∧ step.boundID = w.bound)
    (wait : Bool) (now : Time) : Quiet h (h'.attempt w wait now).1 := by
  simp only [Host.attempt]
  split_ifs
  · exact hq.trans (.same rfl rfl rfl (fun _ _ hk => hk) rfl rfl)
  · refine ⟨hq.owner,hq.kernelEnded,hq.ended,hq.sessions,hq.steps,fun w' hw' hb => ?_⟩
    rcases List.mem_append.mp hw' with hw' | hw'
    · exact hq.waiting w' hw' hb
    · rw [List.mem_singleton.mp hw'] at hb ⊢
      exact hw hb

theorem onSession_rule {P : Host C → Prop} (h : Host C) (s : Option C) {call : Server → Nat → Server}
    (hcurrent : P (h.current s false "" ⟨0,0,0,0,0,0,0⟩ ⟨0,0,0,0,0,0,0⟩).1)
    (hcall : ∀ h' sid,P h' → P (h'.withServer (call h'.kernel.server sid))) : P (h.onSession s call) := by
  simp only [Host.onSession]
  generalize h.current s false "" ⟨0,0,0,0,0,0,0⟩ ⟨0,0,0,0,0,0,0⟩ = c at hcurrent ⊢
  obtain ⟨h',_ | ⟨sid,bound⟩⟩ := c
  · exact hcurrent
  · simp only
    split_ifs
    · exact hcurrent
    · exact hcall h' sid hcurrent

theorem enqueue_rule {P : Host C → Prop} (h : Host C) (s : Option C) (r : Request) (wait : Bool)
    (user : String) (now₁ now₂ now : Time) (hcurrent : P (h.current s true user now₁ now₂).1)
    (hattempt : ∀ h' sid bound,(h.current s true user now₁ now₂).2 = some (sid,bound) → P h' →
      P (h'.attempt ⟨sid,bound,r,0⟩ wait now).1) : P (h.enqueue s r wait user now₁ now₂ now).1 := by
  simp only [Host.enqueue]
  generalize h.current s true user now₁ now₂ = c at hcurrent hattempt ⊢
  obtain ⟨h',_ | ⟨sid,bound⟩⟩ := c
  · exact hcurrent
  · simp only
    split_ifs
    · exact hcurrent
    · exact hattempt h' sid bound rfl hcurrent

omit [DecidableEq C] in
theorem wake_rule {P : Host C → Prop} (h : Host C) (i : Nat) (now : Time) (hnone : P h)
    (hrest : P { h with waiting := h.waiting.eraseIdx i }) (hattempt : ∀ w ∈ h.waiting,
      P (({ h with waiting := h.waiting.eraseIdx i } : Host C).attempt
        { w with attempt := w.attempt + 1 } true now).1) : P (h.wake i now).1 := by
  simp only [Host.wake]
  cases hw : h.waiting[i]? with
  | none => exact hnone
  | some w =>
    simp only
    split_ifs
    · exact hrest
    · exact hattempt w (List.mem_of_getElem? hw)

theorem onSession_quiet (h : Host C) (s : Option C) (call : Server → Nat → Server) :
    Quiet h (h.onSession s call) :=
  onSession_rule h s (current_quiet ..) fun _ _ hq => hq.trans (.same rfl rfl rfl (fun _ _ hk => hk) rfl rfl)

theorem enqueue_quiet (h : Host C) (s : Option C) (r : Request) (wait : Bool) (user : String)
    (now₁ now₂ now : Time) : Quiet h (h.enqueue s r wait user now₁ now₂ now).1 :=
  enqueue_rule h s r wait user now₁ now₂ now (current_quiet ..) fun _ _ _ hbound hq =>
    attempt_quiet hq _ (fun hne => .inr ⟨s,current_bound h s true user now₁ now₂ hbound hne⟩) wait now

theorem wake_quiet (h : Host C) (i : Nat) (now : Time) : Quiet h (h.wake i now).1 := by
  have hq : Quiet h { h with waiting := h.waiting.eraseIdx i } :=
    ⟨rfl,rfl,rfl,fun _ _ hk => hk,fun s step hl _ => ⟨step,hl,rfl⟩,
      fun w' hw' _ => .inl ⟨w',List.mem_of_mem_eraseIdx hw',rfl⟩⟩
  exact wake_rule h i now (.refl h) hq fun w hmem =>
    attempt_quiet hq { w with attempt := w.attempt + 1 } (fun _ => .inl ⟨w,hmem,rfl⟩) true now

theorem step_quiet (h : Host C) {op : Op C} (hbind : ∀ s id user now₁ now₂,
    op ≠ .bind s id user now₁ now₂) (hend : ∀ id,op ≠ .endKey id) (hrevive : ∀ id,op ≠ .revive id) :
    Quiet h (h.step op).1 := by
  cases op with
  | start s => exact start_quiet h s
  | finish s dumped now => exact finish_quiet h s dumped now
  | bind s id user now₁ now₂ => exact (hbind _ _ _ _ _ rfl).elim
  | endKey id => exact (hend _ rfl).elim
  | revive id => exact (hrevive _ rfl).elim
  | enqueue s r wait user now₁ now₂ now => exact enqueue_quiet h s r wait user now₁ now₂ now
  | wake i now => exact wake_quiet h i now
  | dequeue s r => exact onSession_quiet h s (fun srv sid => srv.serve (.dequeue sid r))
  | dequeueAll s => exact onSession_quiet h s (fun srv sid => srv.serve (.dequeueAll sid))
  | commit s updated now =>
    exact onSession_quiet h s fun srv sid =>
      (srv.commit sid updated now).1.updateDone sid (srv.commit sid updated now).2
  | rollback s now => exact onSession_quiet h s (fun srv sid => srv.rollback sid now)

theorem step_owner (h : Host C) (op : Op C) : (h.step op).1.kernel.owner = h.kernel.owner := by
  cases op with
  | bind s id user now₁ now₂ =>
    have hc := bind_cases h s id user now₁ now₂
    simp only [Host.step]
    generalize (h.bind s id user now₁ now₂).1 = h' at hc ⊢
    generalize (h.bind s id user now₁ now₂).2 = ok at hc
    cases hc with
    | stepless hs => exact (bind_frame _ _ _ _ _).1
    | pinned step k sid hs hend hnew hkey hpin =>
      have hp := (takePin_frame h.kernel (text id) user now₁ now₂).1
      rw [hpin] at hp
      simp only
      split_ifs
      · exact (unpin_frame _ _).2.1.trans hp
      · exact hp
    | _ => rfl
  | endKey id => exact (endKey_frame _ _).1
  | revive id => rfl
  | _ => exact (step_quiet h (by simp) (by simp) (by simp)).owner

end Host

def host (C : Type) [DecidableEq C] : StepMachine (Host C) (Op C) Answer where
  step := Host.step

end OpenSteamgate.Adt
