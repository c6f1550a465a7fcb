import OpenSteamgate.Adt.Orphans

namespace OpenSteamgate.Adt

open Enq (Time Request Result OwnerID)

namespace Host

variable {C : Type} [DecidableEq C] {h : Host C}

def OneText (owner : Owner) (t : String) (ids : List String) : Prop :=
  ∀ t' ∈ ids, owner.key t' = owner.key t → t' = t

instance (owner : Owner) (t : String) (ids : List String) : Decidable (OneText owner t ids) :=
  inferInstanceAs (Decidable (∀ t' ∈ ids, owner.key t' = owner.key t → t' = t))

def users (h : Host C) : List String :=
  ((h.steps.entries.map fun e => e.2.boundID) ++ h.waiting.map Waiter.bound).filter (· ≠ "")

def canonical (h : Host C) : Op C → Prop
  | .bind s id _ _ _ => match h.live s with
      | none => True
      | some step => text id = "" → "" ∈ h.ended ∨
          (h.kernel.keyOf id ∈ h.kernel.ended ∧ ¬(step.boundID = "" ∧ step.sid ≠ 0))
  | .endKey id => OneText h.kernel.owner (text id) (h.ended ++ h.users)
  | .revive id => OneText h.kernel.owner (text id) h.ended
  | _ => True

instance (h : Host C) (op : Op C) : Decidable (h.canonical op) :=
  match op with
  | .bind s id _ _ _ =>
      match hs : h.live s with
      | none => .isTrue (by simp [canonical,hs])
      | some step => decidable_of_iff (text id = "" → "" ∈ h.ended ∨
          (h.kernel.keyOf id ∈ h.kernel.ended ∧ ¬(step.boundID = "" ∧ step.sid ≠ 0)))
          (by simp [canonical,hs])
  | .endKey id => inferInstanceAs (Decidable (OneText _ (text id) (h.ended ++ h.users)))
  | .revive id => inferInstanceAs (Decidable (OneText _ (text id) h.ended))
  | .start _ | .finish .. | .enqueue .. | .wake .. | .dequeue .. | .dequeueAll .. | .commit ..
  | .rollback .. => .isTrue trivial

theorem mem_users {t : String} : t ∈ h.users ↔ t ≠ "" ∧
    ((∃ s step,h.steps.lookup s = some step ∧ step.boundID = t) ∨
      ∃ w ∈ h.waiting,w.bound = t) := by
  simp only [users,List.mem_filter,List.mem_append,List.mem_map,ne_eq,
    decide_not,Bool.not_eq_true',decide_eq_false_iff_not]
  rw [and_comm]
  refine and_congr_right fun _ => or_congr_left ⟨?_,?_⟩
  · rintro ⟨⟨s,step⟩,he,rfl⟩
    exact ⟨s,step,AList.mem_lookup_iff.mpr he,rfl⟩
  · rintro ⟨s,step,hl,rfl⟩
    exact ⟨⟨s,step⟩,AList.mem_lookup_iff.mp hl,rfl⟩

structure Synced (owner : Owner) (h : Host C) : Prop where
  sameOwner : h.kernel.owner = owner
  ledgers : h.kernel.ended = h.ended.map owner.key
  nodup : h.kernel.ended.Nodup
  users : ∀ t ∈ h.users, OneText owner t h.ended

variable {owner : Owner}

omit [DecidableEq C] in
theorem Synced.new (server : Server) (owner : Owner) :
    Synced owner (Host.new server owner : Host C) :=
  ⟨rfl,rfl,List.nodup_nil,fun _ _ _ ht => by simp [Host.new] at ht⟩

omit [DecidableEq C] in
theorem Synced.keyOf (hs : Synced owner h) (id : String) :
    h.kernel.keyOf id = owner.key (text id) := by
  rw [Kernel.keyOf,hs.sameOwner]

omit [DecidableEq C] in
theorem Synced.keyEnded (hs : Synced owner h) {t : String} (ht : t ∈ h.users)
    (hk : owner.key t ∈ h.kernel.ended) : t ∈ h.ended := by
  rw [hs.ledgers] at hk
  obtain ⟨t',ht',he⟩ := List.mem_map.mp hk
  exact hs.users t ht t' ht' he ▸ ht'

omit [DecidableEq C] in
theorem Synced.endKey (hs : Synced owner h) {id : String}
    (hc : OneText owner (text id) (h.ended ++ h.users)) : Synced owner (h.endKey id) := by
  obtain ⟨ho,he⟩ := endKey_frame h.kernel (text id)
  rw [keyOf_text,hs.keyOf] at he
  refine ⟨ho.trans hs.sameOwner,?_,?_,fun t ht t' ht' hk => ?_⟩
  · have hm : (Recency.push endedKeep (text id) h.ended).map owner.key =
        Recency.push endedKeep (owner.key (text id)) (h.ended.map owner.key) :=
      Recency.map_push fun z hz => hc z (List.mem_append_left _ hz)
    rw [← hs.ledgers] at hm
    exact he.trans hm.symm
  · exact he ▸ Recency.push_nodup hs.nodup _ _
  · rcases Recency.mem_push ht' with rfl | ht'
    · exact (hc t (List.mem_append_right _ ht) hk.symm).symm
    · exact hs.users t ht t' ht' hk

omit [DecidableEq C] in
theorem Synced.revive (hs : Synced owner h) {id : String}
    (hc : OneText owner (text id) h.ended) : Synced owner (h.revive id) := by
  refine ⟨hs.sameOwner,?_,hs.nodup.erase _,fun t ht t' ht' =>
    hs.users t ht t' (List.mem_of_mem_erase ht')⟩
  have hm : (h.ended.erase (text id)).map owner.key =
      (h.ended.map owner.key).erase (owner.key (text id)) := Recency.map_erase hc
  rw [← hs.ledgers] at hm
  simp only [Host.revive,Kernel.revive,keyOf_text]
  rw [hs.keyOf,hm]

theorem Quiet.users {h' : Host C} (hq : Quiet h h') {t : String} (ht : t ∈ h'.users) :
    t ∈ h.users := by
  rw [mem_users] at ht ⊢
  obtain ⟨hne,⟨s,step,hl,rfl⟩ | ⟨w,hw,rfl⟩⟩ := ht
  · obtain ⟨old,hl,he⟩ := hq.steps s step hl hne
    exact ⟨hne,.inl ⟨s,old,hl,he⟩⟩
  · exact ⟨hne,(hq.waiting w hw hne).symm⟩

theorem Synced.quiet (hs : Synced owner h) {h' : Host C} (hq : Quiet h h') :
    Synced owner h' := by
  refine ⟨hq.owner.trans hs.sameOwner,?_,hq.kernelEnded ▸ hs.nodup,fun t ht => ?_⟩
  · rw [hq.kernelEnded,hq.ended]
    exact hs.ledgers
  · rw [hq.ended]
    exact hs.users t (hq.users ht)

theorem Synced.bind (hs : Synced owner h) (s : Option C) (id user : String) (now₁ now₂ : Time) :
    Synced owner (h.bind s id user now₁ now₂).1 := by
  have hc := bind_cases h s id user now₁ now₂
  generalize (h.bind s id user now₁ now₂).1 = h' at hc ⊢
  generalize (h.bind s id user now₁ now₂).2 = ok at hc
  cases hc with
  | stepless _ =>
    obtain ⟨ho,he⟩ := bind_frame h.kernel (text id) user now₁ now₂
    exact ⟨ho.trans hs.sameOwner,he.trans hs.ledgers,he ▸ hs.nodup,hs.users⟩
  | pinned step k sid hl hend hnew hkey hpin =>
    obtain ⟨ho,he⟩ := takePin_frame h.kernel (text id) user now₁ now₂
    obtain ⟨-,huo,hue⟩ := unpin_frame k step.sid
    rw [hpin] at ho he
    have hk : (if step.boundID ≠ "" ∧ step.sid ≠ 0 then k.unpin step.sid else k).owner =
        h.kernel.owner ∧ (if step.boundID ≠ "" ∧ step.sid ≠ 0 then k.unpin step.sid else k).ended =
          h.kernel.ended := by
      split_ifs
      · exact ⟨huo.trans ho,hue.trans he⟩
      · exact ⟨ho,he⟩
    refine ⟨hk.1.trans hs.sameOwner,hk.2.trans hs.ledgers,hk.2 ▸ hs.nodup,fun t ht => ?_⟩
    rw [mem_users] at ht
    obtain ⟨hne,⟨s',step',hl',rfl⟩ | hw⟩ := ht
    · rcases lookup_of_insert hl' with ⟨-,rfl⟩ | ⟨-,hl'⟩
      · intro t' ht' hk'
        refine (hkey ?_).elim
        rw [hs.keyOf,hs.ledgers]
        exact List.mem_map.mpr ⟨t',ht',hk'⟩
      · exact hs.users _ ((mem_users).mpr ⟨hne,.inl ⟨s',step',hl',rfl⟩⟩)
    · exact hs.users _ ((mem_users).mpr ⟨hne,.inr hw⟩)
  | _ => exact hs

theorem Synced.step (hs : Synced owner h) {op : Op C} (hop : h.canonical op) :
    Synced owner (h.step op).1 := by
  cases op with
  | bind s id user now₁ now₂ => exact hs.bind s id user now₁ now₂
  | endKey id => exact hs.endKey (hs.sameOwner ▸ hop)
  | revive id => exact hs.revive (hs.sameOwner ▸ hop)
  | _ => exact hs.quiet (step_quiet h (by simp) (by simp) (by simp))

theorem Synced.run (hs : Synced owner h) {ops : List (Op C)}
    (hops : (host C).Obeys canonical h ops) : Synced owner ((host C).run h ops) :=
  (host C).invariant_guarded (Synced owner) (fun _ => True) canonical (fun _ _ _ => trivial)
    (fun _ _ hs hop _ => hs.step hop) hs hops trivial

theorem bind_ended (h : Host C) (s : Option C) (id user : String) (now₁ now₂ : Time) :
    (h.bind s id user now₁ now₂).1.kernel.ended = h.kernel.ended := by
  have hc := bind_cases h s id user now₁ now₂
  generalize (h.bind s id user now₁ now₂).1 = h' at hc ⊢
  generalize (h.bind s id user now₁ now₂).2 = ok at hc
  cases hc with
  | stepless _ => exact (bind_frame h.kernel (text id) user now₁ now₂).2
  | pinned step k sid _ _ _ _ hpin =>
    have he := (takePin_frame h.kernel (text id) user now₁ now₂).2
    rw [hpin] at he
    simp only
    split_ifs
    · exact (unpin_frame k step.sid).2.2.trans he
    · exact he
  | _ => rfl

def ledger (owner : Owner) (l : List String) : Op C → List String
  | .endKey id => Recency.push endedKeep (owner.key (text id)) l
  | .revive id => l.erase (owner.key (text id))
  | _ => l

theorem ended_step (ho : h.kernel.owner = owner) (op : Op C) :
    (h.step op).1.kernel.ended = ledger owner h.kernel.ended op := by
  subst ho
  cases op with
  | bind s id user now₁ now₂ => exact bind_ended h s id user now₁ now₂
  | endKey id =>
    have he := (endKey_frame h.kernel (text id)).2
    rwa [keyOf_text] at he
  | revive id =>
    simp only [Host.step,Host.revive,Kernel.revive,keyOf_text]
    rfl
  | _ => exact (step_quiet h (by simp) (by simp) (by simp)).kernelEnded

theorem recent_step (ho : h.kernel.owner = owner) {key : String} {since : List String}
    (hr : Recency.Recent key since h.kernel.ended)
    (hroom : (since.filter (· ≠ key)).dedup.length < endedKeep) {op : Op C}
    (hrevive : op.revivesKey owner ≠ some key)
    (hsince : ∀ key',op.endsKey owner = some key' → key' ∈ since) :
    Recency.Recent key since (h.step op).1.kernel.ended := by
  rw [ended_step ho op]
  cases op with
  | endKey id =>
    by_cases he : owner.key (text id) = key
    · simp only [ledger,he]
      exact Recency.push_self hr.1 (by decide) since
    · exact hr.push he (hsince _ rfl) hroom
  | revive id => exact hr.erase fun he => hrevive (by rw [← he]; rfl)
  | _ => exact hr

theorem recent_run (ho : h.kernel.owner = owner) {key : String} {since : List String}
    (hr : Recency.Recent key since h.kernel.ended)
    (hroom : (since.filter (· ≠ key)).dedup.length < endedKeep) {mid : List (Op C)}
    (hrevive : ∀ op ∈ mid,op.revivesKey owner ≠ some key)
    (hsince : mid.filterMap (Op.endsKey owner) ⊆ since) :
    Recency.Recent key since ((host C).run h mid).kernel.ended := by
  induction mid generalizing h with
  | nil => exact hr
  | cons op mid ih =>
    rw [List.forall_mem_cons] at hrevive
    have hnow : ∀ key',op.endsKey owner = some key' → key' ∈ since := fun key' hk =>
      hsince (List.mem_filterMap.mpr ⟨op,List.mem_cons_self ..,hk⟩)
    refine ih ((step_owner h op).trans ho) (recent_step ho hr hroom hrevive.1 hnow) hrevive.2 ?_
    intro key' hk
    obtain ⟨op',hop',hk'⟩ := List.mem_filterMap.mp hk
    exact hsince (List.mem_filterMap.mpr ⟨op',List.mem_cons_of_mem _ hop',hk'⟩)

theorem ended_recent (hs : Synced owner h) (id : String) {mid : List (Op C)}
    (hrevive : ∀ op ∈ mid,op.revivesKey owner ≠ some (owner.key (text id)))
    (hroom : ((mid.filterMap (Op.endsKey owner)).filter (· ≠ owner.key (text id))).dedup.length < endedKeep) :
    owner.key (text id) ∈ ((host C).run h (.endKey id :: mid)).kernel.ended := by
  have hr : Recency.Recent (owner.key (text id)) (mid.filterMap (Op.endsKey owner))
      (h.step (.endKey id)).1.kernel.ended := by
    rw [ended_step hs.sameOwner]
    exact Recency.push_self hs.nodup (by decide) _
  exact (recent_run ((step_owner h _).trans hs.sameOwner) hr hroom hrevive fun _ hk => hk).mem

theorem alive_run (ho : h.kernel.owner = owner) {key : String} (ha : key ∉ h.kernel.ended)
    {mid : List (Op C)} (hend : ∀ op ∈ mid,op.endsKey owner ≠ some key) :
    key ∉ ((host C).run h mid).kernel.ended := by
  induction mid generalizing h with
  | nil => exact ha
  | cons op mid ih =>
    rw [List.forall_mem_cons] at hend
    refine ih ((step_owner h op).trans ho) ?_ hend.2
    change key ∉ (h.step op).1.kernel.ended
    rw [ended_step ho op]
    cases op with
    | endKey id =>
      intro hin
      rcases Recency.mem_push hin with rfl | hin
      · exact hend.1 rfl
      · exact ha hin
    | revive id => exact fun hin => ha (List.mem_of_mem_erase hin)
    | _ => exact ha

theorem revived_alive (hs : Synced owner h) (id : String) {mid : List (Op C)}
    (hend : ∀ op ∈ mid,op.endsKey owner ≠ some (owner.key (text id))) :
    owner.key (text id) ∉ ((host C).run h (.revive id :: mid)).kernel.ended := by
  refine alive_run (h := (h.step (.revive id)).1) ((step_owner h _).trans hs.sameOwner) ?_ hend
  rw [ended_step hs.sameOwner]
  exact hs.nodup.not_mem_erase

def rebinds (h : Host C) (under : Option C → Option String) : Op C → Option C → Option String
  | .bind s id user now₁ now₂ =>
      if (h.live s).isSome ∧ (h.bind s id user now₁ now₂).2 then Function.update under s (some (text id))
      else under
  | .finish s _ _ => Function.update under s none
  | _ => under

def bindings (h : Host C) (under : Option C → Option String) : List (Op C) → Option C → Option String
  | [] => under
  | op :: ops => bindings (h.step op).1 (h.rebinds under op) ops

def Recorded (under : Option C → Option String) (h : Host C) : Prop :=
  ∀ s id, under s = some id → ∃ step, h.steps.lookup s = some step ∧ step.boundID = id ∧ id ≠ ""

def KeepsBindings (h h' : Host C) : Prop :=
  ∀ s step, h.steps.lookup s = some step →
    ∃ step', h'.steps.lookup s = some step' ∧ step'.boundID = step.boundID

theorem KeepsBindings.same {h' : Host C} (he : h'.steps = h.steps) : KeepsBindings h h' :=
  fun _ step hl => ⟨step,he ▸ hl,rfl⟩

theorem KeepsBindings.trans {h' h'' : Host C} (hk : KeepsBindings h h')
    (hk' : KeepsBindings h' h'') : KeepsBindings h h'' := by
  intro s step hl
  obtain ⟨step',hl',he⟩ := hk s step hl
  obtain ⟨step'',hl'',he'⟩ := hk' s step' hl'
  exact ⟨step'',hl'',he'.trans he⟩

theorem put_keepsBindings {s : Option C} {step : Step}
    (hs : ∀ old,h.steps.lookup s = some old → step.boundID = old.boundID) :
    KeepsBindings h { h with steps := h.steps.insert s step } := by
  intro s' old hl
  by_cases he : s' = s
  · subst he
    exact ⟨step,AList.lookup_insert _,hs old hl⟩
  · exact ⟨old,(AList.lookup_insert_ne he).trans hl,rfl⟩

theorem locate_keepsBindings {s : Option C} {step : Step} (hs : h.steps.lookup s = some step)
    (opens : Bool) (user : String) (now₁ now₂ : Time) :
    KeepsBindings h (h.locate s step opens user now₁ now₂).1 := by
  have hput : ∀ sid,KeepsBindings h
      { h with steps := h.steps.insert s { step with sid := sid } } := by
    intro sid
    refine put_keepsBindings fun old hl => ?_
    rw [hs,Option.some.injEq] at hl
    rw [hl]
  simp only [Host.locate]
  split_ifs
  · exact .same rfl
  · exact .same rfl
  · exact hput _
  · exact .same rfl
  · exact (hput _).trans (.same rfl)
  · exact .same rfl
  · exact .same rfl

theorem current_keepsBindings (h : Host C) (s : Option C) (opens : Bool) (user : String)
    (now₁ now₂ : Time) : KeepsBindings h (h.current s opens user now₁ now₂).1 := by
  simp only [Host.current]
  cases hs : h.steps.lookup s with
  | some step => exact locate_keepsBindings hs opens user now₁ now₂
  | none =>
    simp only
    split_ifs
    · have hput : KeepsBindings h { h with steps := h.steps.insert s {} } :=
        put_keepsBindings fun old hl => by simp [hs] at hl
      exact hput.trans (locate_keepsBindings (AList.lookup_insert _) opens user now₁ now₂)
    · exact .same rfl

omit [DecidableEq C] in
theorem attempt_steps (h : Host C) (w : Waiter) (wait : Bool) (now : Time) :
    (h.attempt w wait now).1.steps = h.steps := by
  simp only [Host.attempt]
  split_ifs <;> rfl

theorem onSession_keepsBindings (h : Host C) (s : Option C) (call : Server → Nat → Server) :
    KeepsBindings h (h.onSession s call) :=
  onSession_rule h s (current_keepsBindings h s false "" _ _) fun _ _ hc => hc.trans (.same rfl)

theorem step_keepsBindings (h : Host C) {op : Op C} (hbind : ∀ s id user now₁ now₂,
    op ≠ .bind s id user now₁ now₂) (hfinish : ∀ s dumped now,op ≠ .finish s dumped now) :
    KeepsBindings h (h.step op).1 := by
  cases op with
  | start s =>
    simp only [Host.step,Host.start]
    cases hl : h.steps.lookup s with
    | none => exact put_keepsBindings fun old hl' => by simp [hl] at hl'
    | some step => exact .same rfl
  | finish s dumped now => exact (hfinish _ _ _ rfl).elim
  | bind s id user now₁ now₂ => exact (hbind _ _ _ _ _ rfl).elim
  | endKey id => exact .same rfl
  | revive id => exact .same rfl
  | enqueue s r wait user now₁ now₂ now =>
    exact enqueue_rule h s r wait user now₁ now₂ now (current_keepsBindings h s true user now₁ now₂)
      fun _ _ _ _ hc => hc.trans (.same (attempt_steps ..))
  | wake i now => exact wake_rule h i now (.same rfl) (.same rfl) fun _ _ => .same (attempt_steps ..)
  | dequeue s r => exact onSession_keepsBindings h s (fun srv sid => srv.serve (.dequeue sid r))
  | dequeueAll s => exact onSession_keepsBindings h s (fun srv sid => srv.serve (.dequeueAll sid))
  | commit s updated now =>
    exact onSession_keepsBindings h s fun srv sid =>
      (srv.commit sid updated now).1.updateDone sid (srv.commit sid updated now).2
  | rollback s now => exact onSession_keepsBindings h s (fun srv sid => srv.rollback sid now)

theorem finish_steps (h : Host C) (s : Option C) (dumped : Bool) (now : Time) {s' : Option C}
    (hne : s' ≠ s) : (h.finish s dumped now).steps.lookup s' = h.steps.lookup s' := by
  simp only [Host.finish]
  cases h.steps.lookup s with
  | none => rfl
  | some step =>
    simp only
    split_ifs <;> exact AList.lookup_erase_ne hne

theorem Recorded.keeps {under : Option C → Option String} (hr : Recorded under h) {h' : Host C}
    (hk : KeepsBindings h h') : Recorded under h' := by
  intro s id hu
  obtain ⟨step,hl,he,hne⟩ := hr s id hu
  obtain ⟨step',hl',he'⟩ := hk s step hl
  exact ⟨step',hl',he'.trans he,hne⟩

theorem bind_keepsBindings (h : Host C) (s : Option C) (id user : String) (now₁ now₂ : Time)
    {s' : Option C} {step : Step} (hl : h.steps.lookup s' = some step) :
    ∃ step',(h.bind s id user now₁ now₂).1.steps.lookup s' = some step' ∧
      step'.boundID = if s' = s ∧ (h.live s).isSome ∧ (h.bind s id user now₁ now₂).2 = true then
        text id else step.boundID := by
  have hc := bind_cases h s id user now₁ now₂
  generalize (h.bind s id user now₁ now₂).1 = h' at hc ⊢
  generalize (h.bind s id user now₁ now₂).2 = ok at hc
  cases hc with
  | stepless hs => exact ⟨step,hl,by simp [hs]⟩
  | ended _ hs _ => exact ⟨step,hl,by simp⟩
  | keyEnded _ hs _ _ _ => exact ⟨step,hl,by simp⟩
  | again old hs _ hsame _ =>
    refine ⟨step,hl,?_⟩
    split_ifs with hif
    · obtain ⟨rfl,-⟩ := hif
      rw [lookup_caller hs,Option.some.injEq] at hl
      exact hl ▸ hsame
    · rfl
  | pinned old k sid hs _ _ _ _ =>
    by_cases he : s' = s
    · subst he
      exact ⟨_,AList.lookup_insert _,by simp [hs]⟩
    · exact ⟨step,(AList.lookup_insert_ne he).trans hl,by simp [he]⟩

theorem canonical_text {s : Option C} {id user : String} {now₁ now₂ : Time}
    (hop : h.canonical (.bind s id user now₁ now₂)) (hs : (h.live s).isSome)
    (hok : (h.bind s id user now₁ now₂).2 = true) : text id ≠ "" := by
  intro hid
  have hc := bind_cases h s id user now₁ now₂
  rw [hok] at hc
  generalize (h.bind s id user now₁ now₂).1 = h' at hc
  generalize hb : true = ok at hc
  cases hc with
  | stepless hl => simp [hl] at hs
  | ended _ _ _ => cases hb
  | keyEnded _ _ _ _ _ => cases hb
  | again step hl hend hsame hsid =>
    simp only [canonical,hl,hid,true_imp_iff] at hop hend hsame
    exact hop.elim hend fun hc => hc.2 ⟨hsame,hsid⟩
  | pinned step k sid hl hend hnew hkey hpin =>
    simp only [canonical,hl,hid,true_imp_iff] at hop hend
    exact hop.elim hend fun hc => hkey hc.1

theorem Recorded.bind {under : Option C → Option String} (hr : Recorded under h)
    {s : Option C} {id user : String} {now₁ now₂ : Time}
    (hop : h.canonical (.bind s id user now₁ now₂)) :
    Recorded (h.rebinds under (.bind s id user now₁ now₂)) (h.bind s id user now₁ now₂).1 := by
  intro s' id' hu
  simp only [rebinds] at hu
  by_cases hon : s' = s ∧ (h.live s).isSome ∧ (h.bind s id user now₁ now₂).2 = true
  · obtain ⟨rfl,hs,hok⟩ := hon
    rw [if_pos ⟨hs,hok⟩,Function.update_self,Option.some.injEq] at hu
    obtain ⟨step,hl⟩ := Option.isSome_iff_exists.mp hs
    obtain ⟨step',hl',hb⟩ := bind_keepsBindings h s' id user now₁ now₂ (lookup_caller hl)
    rw [if_pos ⟨rfl,hs,hok⟩] at hb
    exact ⟨step',hl',hb.trans hu,hu ▸ canonical_text hop hs hok⟩
  · have hu' : under s' = some id' := by
      split_ifs at hu with hok
      · rwa [Function.update_of_ne fun he => hon ⟨he,hok⟩] at hu
      · exact hu
    obtain ⟨step,hl,he,hne⟩ := hr s' id' hu'
    obtain ⟨step',hl',hb⟩ := bind_keepsBindings h s id user now₁ now₂ hl
    rw [if_neg hon] at hb
    exact ⟨step',hl',hb.trans he,hne⟩

theorem Recorded.step {under : Option C → Option String} (hr : Recorded under h) {op : Op C}
    (hop : h.canonical op) : Recorded (h.rebinds under op) (h.step op).1 := by
  cases op with
  | bind s id user now₁ now₂ => exact hr.bind hop
  | finish s dumped now =>
    intro s' id hu
    simp only [rebinds] at hu
    by_cases he : s' = s
    · simp [he] at hu
    · rw [Function.update_of_ne he] at hu
      obtain ⟨step,hl,hb⟩ := hr s' id hu
      exact ⟨step,(finish_steps h s dumped now he).trans hl,hb⟩
  | _ => exact hr.keeps (step_keepsBindings h (by simp) (by simp))

theorem Recorded.run {under : Option C → Option String} (hr : Recorded under h)
    {ops : List (Op C)} (hops : (host C).Obeys canonical h ops) :
    Recorded (h.bindings under ops) ((host C).run h ops) := by
  induction ops generalizing h under with
  | nil => exact hr
  | cons op ops ih => exact ih (hr.step hops.1) hops.2

theorem enqueue_refused {s : Option C} {step : Step} (hs : h.steps.lookup s = some step)
    (hb : step.boundID ≠ "") (hend : step.boundID ∈ h.ended) (r : Request) (wait : Bool)
    (user : String) (now₁ now₂ now : Time) :
    h.enqueue s r wait user now₁ now₂ now = (h,.sessionEnded) := by
  simp only [Host.enqueue,Host.current,hs,Host.locate,if_pos hb,if_pos hend]

omit [DecidableEq C] in
theorem wake_refused {i : Nat} {w : Waiter} (hw : h.waiting[i]? = some w) (hb : w.bound ≠ "")
    (hend : w.bound ∈ h.ended) (now : Time) :
    h.wake i now = ({ h with waiting := h.waiting.eraseIdx i },.sessionEnded) := by
  simp only [Host.wake,hw,if_pos (And.intro hb hend)]

theorem Synced.bind_refused (hs : Synced owner h) {s : Option C} {id user : String}
    {now₁ now₂ : Time} (hop : h.canonical (.bind s id user now₁ now₂))
    (hk : owner.key (text id) ∈ h.kernel.ended) : (h.bind s id user now₁ now₂).2 = false := by
  by_contra hok
  rw [Bool.not_eq_false] at hok
  have ht := canonical_text hop
  have hc := bind_cases h s id user now₁ now₂
  rw [hok] at hc ht
  generalize (h.bind s id user now₁ now₂).1 = h' at hc
  generalize hb : true = ok at hc
  cases hc with
  | stepless _ => simp [Kernel.bind,hs.keyOf,text_text,hk] at hb
  | ended _ _ _ => cases hb
  | keyEnded _ _ _ _ _ => cases hb
  | again step hl hend hsame hsid =>
    have hne : text id ≠ "" := ht (by simp [hl]) rfl
    refine hend (hs.keyEnded (mem_users.mpr ⟨hne,.inl ⟨s,step,lookup_caller hl,hsame⟩⟩) hk)
  | pinned step k sid hl hend hnew hkey hpin => exact hkey (by rwa [hs.keyOf])

theorem Synced.bind_accepted (hs : Synced owner h) {s : Option C} {id user : String}
    {now₁ now₂ : Time} (hk : owner.key (text id) ∉ h.kernel.ended) :
    (h.bind s id user now₁ now₂).2 = true := by
  have hc := bind_cases h s id user now₁ now₂
  generalize (h.bind s id user now₁ now₂).1 = h' at hc
  generalize (h.bind s id user now₁ now₂).2 = ok at hc
  cases hc with
  | stepless _ =>
    simp only [Kernel.bind,hs.keyOf,text_text,if_neg hk]
    split_ifs <;> rfl
  | ended _ _ hend => exact (hk (hs.ledgers ▸ List.mem_map_of_mem hend)).elim
  | keyEnded _ _ _ _ hkey => exact (hk (by rwa [← hs.keyOf])).elim
  | _ => rfl

def refuses (h : Host C) (under : Option C → Option String) (key : String) : Op C → Prop
  | .enqueue s r wait user now₁ now₂ now => ∀ id, under s = some id → h.kernel.owner.key id = key →
      h.step (.enqueue s r wait user now₁ now₂ now) = (h,.sessionEnded)
  | .wake i now => ∀ w, h.waiting[i]? = some w → w.bound ≠ "" → h.kernel.owner.key w.bound = key →
      (h.step (.wake i now)).2 = .sessionEnded ∧ (h.step (.wake i now)).1.kernel = h.kernel
  | .bind s id user now₁ now₂ => h.kernel.keyOf id = key →
      (h.step (.bind s id user now₁ now₂)).2 = .bound false
  | _ => True

def accepts (h : Host C) (key : String) : Op C → Prop
  | .bind s id user now₁ now₂ => h.kernel.keyOf id = key →
      (h.step (.bind s id user now₁ now₂)).2 = .bound true
  | _ => True

theorem Synced.refuses (hs : Synced owner h) {under : Option C → Option String}
    (hr : Recorded under h) {key : String} (hk : key ∈ h.kernel.ended) {op : Op C}
    (hop : h.canonical op) : h.refuses under key op := by
  cases op with
  | enqueue s r wait user now₁ now₂ now =>
    rintro id hu rfl
    obtain ⟨step,hl,rfl,hne⟩ := hr s id hu
    rw [hs.sameOwner] at hk
    have hend := hs.keyEnded (mem_users.mpr ⟨hne,.inl ⟨s,step,hl,rfl⟩⟩) hk
    exact enqueue_refused hl hne hend r wait user now₁ now₂ now
  | wake i now =>
    rintro w hw hne rfl
    rw [hs.sameOwner] at hk
    have hend := hs.keyEnded (mem_users.mpr ⟨hne,.inr ⟨w,List.mem_of_getElem? hw,rfl⟩⟩) hk
    have he := wake_refused hw hne hend now
    simp only [Host.step,he,true_and]
  | bind s id user now₁ now₂ =>
    rintro rfl
    rw [hs.keyOf] at hk
    simp only [Host.step,hs.bind_refused hop hk]
  | _ => trivial

theorem Synced.accepts (hs : Synced owner h) {key : String} (hk : key ∉ h.kernel.ended)
    (op : Op C) : h.accepts key op := by
  cases op with
  | bind s id user now₁ now₂ =>
    rintro rfl
    rw [hs.keyOf] at hk
    simp only [Host.step,hs.bind_accepted hk]
  | _ => trivial

structure EndsHold (start : Host C) (ops : List (Op C)) : Prop where
  refused : ∀ pre id mid op post, ops = pre ++ .endKey id :: (mid ++ op :: post) →
    (∀ op' ∈ mid, op'.revivesKey start.kernel.owner ≠ some (start.kernel.keyOf id)) →
    ((mid.filterMap (Op.endsKey start.kernel.owner)).filter
      (· ≠ start.kernel.keyOf id)).dedup.length < endedKeep →
    ((host C).run start (pre ++ .endKey id :: mid)).refuses
      (start.bindings (fun _ => none) (pre ++ .endKey id :: mid)) (start.kernel.keyOf id) op
  revived : ∀ pre id mid op post, ops = pre ++ .revive id :: (mid ++ op :: post) →
    (∀ op' ∈ mid, op'.endsKey start.kernel.owner ≠ some (start.kernel.keyOf id)) →
    ((host C).run start (pre ++ .revive id :: mid)).accepts (start.kernel.keyOf id) op

theorem ended_key_refuses (server : Server) (owner : Owner) (ops : List (Op C))
    (hcanonical : (host C).Obeys canonical (Host.new server owner) ops) :
    EndsHold (Host.new server owner) ops := by
  have hnew : Synced owner (Host.new server owner : Host C) := .new server owner
  have hrec : Recorded (fun _ => none) (Host.new server owner : Host C) := fun s id hu => by simp at hu
  constructor
  · rintro pre id mid op post rfl hrevive hroom
    rw [hnew.keyOf] at hrevive hroom ⊢
    rw [← List.cons_append,← List.append_assoc,StepMachine.obeys_append] at hcanonical
    obtain ⟨hsofar,hop,-⟩ := hcanonical
    have hsplit := hsofar
    rw [StepMachine.obeys_append] at hsplit
    refine (hnew.run hsofar).refuses (hrec.run hsofar) ?_ hop
    rw [StepMachine.run_append]
    exact ended_recent (hnew.run hsplit.1) id hrevive hroom
  · rintro pre id mid op post rfl hend
    rw [hnew.keyOf] at hend ⊢
    rw [← List.cons_append,← List.append_assoc,StepMachine.obeys_append] at hcanonical
    have hsplit := hcanonical.1
    rw [StepMachine.obeys_append] at hsplit
    refine (hnew.run hcanonical.1).accepts ?_ op
    rw [StepMachine.run_append]
    exact revived_alive (hnew.run hsplit.1) id hend

def lock : Op Nat :=
  .enqueue (some 0) (Enq.lockOf "E" 3 "LH") false "ANNA" Enq.noon Enq.noon Enq.noon

def bindThenEnd (id : String) : List (Op Nat) :=
  [.start (some 0),.bind (some 0) "x" "ANNA" Enq.noon Enq.noon,.endKey id,lock]

theorem ended_key_refuses_logoff :
    (host Nat).Obeys canonical (Host.new (.new "srv") adtOwner) (bindThenEnd "x ") ∧
      EndsHold (Host.new (.new "srv") adtOwner) (bindThenEnd "x ") :=
  ⟨by decide,ended_key_refuses (.new "srv") adtOwner (bindThenEnd "x ") (by decide)⟩

theorem alias_keeps_locking : ¬∀ server owner (ops : List (Op Nat)),
    EndsHold (Host.new server owner) ops := by
  intro h
  have hrefused := (h (.new "srv") adtOwner (bindThenEnd "adt:0123456789ab:x")).refused
    ((bindThenEnd "adt:0123456789ab:x").take 2) "adt:0123456789ab:x" [] lock [] rfl (by simp)
    (by decide) "x" (by decide) (by decide)
  exact absurd (congrArg Prod.snd hrefused) (by decide)

end Host

end OpenSteamgate.Adt
