import OpenSteamgate.Adt.Sessions

namespace OpenSteamgate.Adt

open Enq (Time Request Result OwnerID)

def Step.isBound (step : Step) (sid : Nat) : Bool := step.boundID != "" && step.sid == sid

def Step.holds (step : Step) (sid : Nat) : Prop :=
  sid ≠ 0 ∧ (step.holderSID = sid ∨ step.boundID = "" ∧ step.sid = sid)

section Count

variable {α : Type} {β : α → Type} [DecidableEq α]

theorem countP_kerase (p : Sigma β → Bool) (a : α) {l : List (Sigma β)} (hl : l.NodupKeys) :
    (l.kerase a).countP p + ((l.dlookup a).elim 0 fun b => if p ⟨a,b⟩ then 1 else 0) =
      l.countP p := by
  induction l with
  | nil => rfl
  | cons e l ih =>
    rw [List.nodupKeys_cons] at hl
    by_cases he : a = e.1
    · subst he
      rw [List.kerase_cons_eq rfl,List.dlookup_cons_eq]
      simp [List.countP_cons]
    · rw [List.kerase_cons_ne he,List.countP_cons,List.countP_cons,← ih hl.2]
      obtain ⟨x,b⟩ := e
      rw [List.dlookup_cons_ne l ⟨x,b⟩ he]
      omega

end Count

namespace Host

variable {C : Type} [DecidableEq C] {h : Host C}

def bound (h : Host C) (sid : Nat) : Nat := h.steps.entries.countP fun e => e.2.isBound sid

def holds (h : Host C) (sid : Nat) : Prop := ∃ s step, h.steps.lookup s = some step ∧ step.holds sid

structure Kept (h : Host C) : Prop where
  tracks : h.kernel.Tracks h.bound h.holds
  bound : ∀ s step, h.steps.lookup s = some step → step.boundID ≠ "" → step.sid ≠ 0
  unbound : ∀ s step, h.steps.lookup s = some step → step.boundID = "" → step.holderSID = 0

theorem bound_erase (h : Host C) (k : Kernel) (s : Option C) (sid : Nat) :
    ({ h with kernel := k,steps := h.steps.erase s } : Host C).bound sid +
      ((h.steps.lookup s).elim 0 fun step => if step.isBound sid then 1 else 0) = h.bound sid :=
  countP_kerase _ s h.steps.nodupKeys

theorem bound_insert (h : Host C) (k : Kernel) (s : Option C) (step : Step) (sid : Nat) :
    ({ h with kernel := k,steps := h.steps.insert s step } : Host C).bound sid +
      ((h.steps.lookup s).elim 0 fun step => if step.isBound sid then 1 else 0) =
        h.bound sid + if step.isBound sid then 1 else 0 := by
  have he := bound_erase h k s sid
  have hi : ({ h with kernel := k,steps := h.steps.insert s step } : Host C).bound sid =
      ({ h with kernel := k,steps := h.steps.erase s } : Host C).bound sid +
        if step.isBound sid then 1 else 0 := by
    simp only [Host.bound,AList.entries_insert,List.countP_cons]
    rfl
  omega

theorem bound_pos {s : Option C} {step : Step} {sid : Nat} (hs : h.steps.lookup s = some step)
    (hb : step.isBound sid = true) : 0 < h.bound sid := by
  have he := bound_erase h h.kernel s sid
  rw [hs] at he
  simp only [Option.elim_some,hb,if_true] at he
  omega

theorem Kept.congr {h' : Host C} (hk : h.Kept) (hkernel : h'.kernel = h.kernel)
    (hsteps : h'.steps = h.steps) : h'.Kept := by
  obtain ⟨k,steps,ended,waiting⟩ := h'
  obtain rfl : k = h.kernel := hkernel
  obtain rfl : steps = h.steps := hsteps
  exact ⟨hk.tracks,hk.bound,hk.unbound⟩

theorem Kept.serve (hk : h.Kept) {srv : Server} (hs : h.kernel.server.Keeps srv) :
    (h.withServer srv).Kept :=
  ⟨hk.tracks.serve hs,hk.bound,hk.unbound⟩

def othersHold (h : Host C) (s : Option C) (sid : Nat) : Prop :=
  ∃ s' step, s' ≠ s ∧ h.steps.lookup s' = some step ∧ step.holds sid

theorem holds_split {sid : Nat} (hh : h.holds sid) (s : Option C) :
    (∃ step,h.steps.lookup s = some step ∧ step.holds sid) ∨ h.othersHold s sid := by
  obtain ⟨s',step,hs,hh⟩ := hh
  by_cases he : s' = s
  · exact .inl ⟨step,he ▸ hs,hh⟩
  · exact .inr ⟨s',step,he,hs,hh⟩

theorem Kept.put (hk : h.Kept) {k : Kernel} {count : Nat → Nat} {held : Nat → Prop}
    (ht : k.Tracks count held) {s : Option C} {step : Step}
    (hcount : ∀ sid,count sid + ((h.steps.lookup s).elim 0 fun step => if step.isBound sid then 1 else 0) =
        h.bound sid + if step.isBound sid then 1 else 0)
    (hheld : ∀ sid,k.server.isOpen sid → held sid → step.holds sid ∨ h.othersHold s sid)
    (hb : step.boundID ≠ "" → step.sid ≠ 0) (hu : step.boundID = "" → step.holderSID = 0) :
    ({ h with kernel := k,steps := h.steps.insert s step } : Host C).Kept := by
  have hbound : count =
      ({ h with kernel := k,steps := h.steps.insert s step } : Host C).bound := by
    funext sid
    have h1 := hcount sid
    have h2 := bound_insert h k s step sid
    omega
  refine ⟨?_,fun s' step' hs' => ?_,fun s' step' hs' => ?_⟩
  · rw [← hbound]
    refine ht.mono fun sid ho hh => ?_
    rcases hheld sid ho hh with hh | ⟨s',step',hne,hs',hh⟩
    · exact ⟨s,step,AList.lookup_insert _,hh⟩
    · exact ⟨s',step',by rw [AList.lookup_insert_ne hne,hs'],hh⟩
  · by_cases he : s' = s
    · subst he
      rw [AList.lookup_insert,Option.some.injEq] at hs'
      exact hs' ▸ hb
    · rw [AList.lookup_insert_ne he] at hs'
      exact hk.bound s' step' hs'
  · by_cases he : s' = s
    · subst he
      rw [AList.lookup_insert,Option.some.injEq] at hs'
      exact hs' ▸ hu
    · rw [AList.lookup_insert_ne he] at hs'
      exact hk.unbound s' step' hs'

theorem Kept.remove (hk : h.Kept) {k : Kernel} {count : Nat → Nat} {held : Nat → Prop}
    (ht : k.Tracks count held) {s : Option C}
    (hcount : ∀ sid,count sid +
      ((h.steps.lookup s).elim 0 fun step => if step.isBound sid then 1 else 0) = h.bound sid)
    (hheld : ∀ sid,k.server.isOpen sid → held sid → h.othersHold s sid) :
    ({ h with kernel := k,steps := h.steps.erase s } : Host C).Kept := by
  have hbound : count = ({ h with kernel := k,steps := h.steps.erase s } : Host C).bound := by
    funext sid
    have h1 := hcount sid
    have h2 := bound_erase h k s sid
    omega
  have hlook : ∀ s' step,(h.steps.erase s).lookup s' = some step →
      h.steps.lookup s' = some step := by
    intro s' step hs'
    by_cases he : s' = s
    · subst he
      simp at hs'
    · rwa [AList.lookup_erase_ne he] at hs'
  refine ⟨?_,fun s' step' hs' => hk.bound s' step' (hlook s' step' hs'),
    fun s' step' hs' => hk.unbound s' step' (hlook s' step' hs')⟩
  rw [← hbound]
  refine ht.mono fun sid ho hh => ?_
  obtain ⟨s',step',hne,hs',hh⟩ := hheld sid ho hh
  exact ⟨s',step',by rw [AList.lookup_erase_ne hne,hs'],hh⟩

theorem Kept.start (hk : h.Kept) (s : Option C) : (h.start s).1.Kept := by
  unfold Host.start
  cases hs : h.steps.lookup s with
  | some step => exact hk
  | none =>
    refine hk.put hk.tracks (fun sid => ?_) (fun sid _ hh => ?_) (by simp) (fun _ => rfl)
    · simp [hs,Step.isBound]
    · refine .inr ((holds_split hh s).resolve_left ?_)
      rintro ⟨step,hs',-⟩
      simp [hs] at hs'

theorem isBound_iff {step : Step} {sid : Nat} :
    step.isBound sid = true ↔ step.boundID ≠ "" ∧ step.sid = sid := by
  simp [Step.isBound]

theorem isBound_count {step : Step} (hb : step.boundID ≠ "") (sid : Nat) :
    (if step.isBound sid = true then 1 else 0) = if sid = step.sid then 1 else 0 := by
  have hiff : step.isBound sid = true ↔ sid = step.sid := by
    rw [isBound_iff]
    exact ⟨fun h => h.2.symm,fun h => ⟨hb,h.symm⟩⟩
  simp only [hiff]

theorem others_of_not_held {s : Option C} {step : Step} (hs : h.steps.lookup s = some step)
    {sid : Nat} (hh : h.holds sid) (hn : ¬step.holds sid) : h.othersHold s sid := by
  refine (holds_split hh s).resolve_left ?_
  rintro ⟨step',hs',hh'⟩
  rw [hs,Option.some.injEq] at hs'
  exact hn (hs' ▸ hh')

theorem unpinned {s : Option C} {step : Step}
    (hs : h.steps.lookup s = some step) (hb : step.boundID ≠ "") {k : Kernel} {held : Nat → Prop}
    (ht : k.Tracks h.bound held) :
    (k.unpin step.sid).Tracks (({ h with steps := h.steps.erase s } : Host C).bound) held := by
  have hpos : 0 < h.bound step.sid := bound_pos hs ((isBound_iff).mpr ⟨hb,rfl⟩)
  have hcount : ({ h with steps := h.steps.erase s } : Host C).bound =
      fun a => h.bound a - if a = step.sid then 1 else 0 := by
    funext a
    have he := bound_erase h h.kernel s a
    simp only [hs,Option.elim_some,isBound_iff] at he
    by_cases ha : a = step.sid
    · rw [if_pos ⟨hb,ha.symm⟩] at he
      rw [if_pos ha]
      omega
    · rw [if_neg fun hc => ha hc.2.symm] at he
      rw [if_neg ha]
      omega
  rw [hcount]
  exact ht.unpin hpos

theorem Kept.finish (hk : h.Kept) (s : Option C) (dumped : Bool) (now : Time) :
    (h.finish s dumped now).Kept := by
  have hroll : ∀ sid,h.kernel.server.Keeps (h.kernel.server.rollback sid now) :=
    fun sid => Server.serve_keeps _ _ (by simp) (by simp) (by simp)
  simp only [Host.finish]
  cases hs : h.steps.lookup s with
  | none => exact hk
  | some step =>
    have hcount := bound_erase h h.kernel s
    by_cases hb : step.boundID ≠ ""
    · -- a bound step: the dump retires its context, its pin goes, then its holder session
      have hdrop : (if dumped = true ∧ step.sid ≠ 0 then
          ({ h.kernel with server := h.kernel.server.rollback step.sid now } : Kernel).dropContext
            step.boundID step.sid else h.kernel).Tracks h.bound h.holds := by
        split_ifs
        · exact (hk.tracks.serve (hroll step.sid)).dropContext _
            (bound_pos hs ((isBound_iff).mpr ⟨hb,rfl⟩))
        · exact hk.tracks
      have hunpin := unpinned hs hb hdrop
      simp only [if_pos hb]
      by_cases hh : step.holderSID ≠ 0
      · rw [if_pos hh]
        refine hk.remove (hunpin.endSession step.holderSID) hcount fun sid _ hheld => ?_
        refine others_of_not_held hs hheld.2 ?_
        rintro ⟨-,he | ⟨he,-⟩⟩
        · exact hheld.1 he.symm
        · exact hb he
      · rw [if_neg hh]
        refine hk.remove hunpin hcount fun sid _ hheld => others_of_not_held hs hheld ?_
        rintro ⟨h0,he | ⟨he,-⟩⟩
        · exact h0 (he.symm.trans (not_not.mp hh))
        · exact hb he
    · have hnone : step.boundID = "" := not_not.mp hb
      have hholder := hk.unbound s step hs hnone
      have herase : h.bound = ({ h with steps := h.steps.erase s } : Host C).bound := by
        funext sid
        have he := hcount sid
        simp only [hs,Option.elim_some,isBound_iff,hnone] at he
        simpa using he.symm
      simp only [if_neg hb]
      by_cases h0 : step.sid ≠ 0
      · rw [if_pos h0]
        have hkeeps : h.kernel.server.Keeps (if dumped = true then
            h.kernel.server.rollback step.sid now else h.kernel.server) := by
          split_ifs
          · exact hroll step.sid
          · exact ⟨fun _ => .rfl,Nat.le_refl _,id⟩
        have hserve := hk.tracks.serve hkeeps
        rw [herase] at hserve
        refine hk.remove (hserve.endSession step.sid) hcount fun sid _ hheld => ?_
        refine others_of_not_held hs hheld.2 ?_
        rintro ⟨h0,he | ⟨-,he⟩⟩
        · exact h0 (he.symm.trans hholder)
        · exact hheld.1 he.symm
      · rw [if_neg h0]
        have ht := hk.tracks
        rw [herase] at ht
        refine hk.remove ht hcount fun sid _ hheld => others_of_not_held hs hheld ?_
        rintro ⟨hne,he | ⟨-,he⟩⟩
        · exact hne (he.symm.trans hholder)
        · exact hne (he.symm.trans (not_not.mp h0))

def bindsBlank (h : Host C) : Op C → Prop
  | .bind s id _ _ _ => ∃ step, h.live s = some step ∧ text id = "" ∧
      "" ∉ h.ended ∧ ¬(step.boundID = "" ∧ step.sid ≠ 0) ∧ h.kernel.keyOf "" ∉ h.kernel.ended
  | _ => False

theorem lookup_caller {s : Option C} {step : Step} (hs : h.live s = some step) :
    h.steps.lookup s = some step := by
  cases s with
  | none => simp [Host.live] at hs
  | some c => simpa [Host.live] using hs

theorem Kept.bind (hk : h.Kept) (s : Option C) (id user : String) (now₁ now₂ : Time)
    (hblank : ¬h.bindsBlank (.bind s id user now₁ now₂)) :
    (h.bind s id user now₁ now₂).1.Kept := by
  have hc := bind_cases h s id user now₁ now₂
  generalize (h.bind s id user now₁ now₂).1 = h' at hc ⊢
  generalize (h.bind s id user now₁ now₂).2 = ok at hc
  cases hc with
  | stepless hs => exact ⟨hk.tracks.bind _ _ _ _,hk.bound,hk.unbound⟩
  | ended step hs hend => exact hk
  | again step hs hend hsame hsid => exact hk
  | keyEnded step hs hend hsame hkey => exact hk
  | pinned step k sid hs hend hsame hkey hpin =>
    have hl := lookup_caller hs
    have hid : text id ≠ "" := fun he => hblank ⟨step,hs,he,he ▸ hend,he ▸ hsame,by
      rwa [← he,keyOf_text]⟩
    obtain ⟨hpos,hle,ht⟩ : 0 < sid ∧ sid ≤ k.server.seq ∧
        k.Tracks (fun a => h.bound a + if a = sid then 1 else 0) h.holds := by
      rcases hk.tracks.takePin (text id) user now₁ now₂ with ⟨_,hp,-⟩ | ⟨_,_,hp,h1,h2,-,h3⟩
      · simp [hpin] at hp
      · rw [hpin,Prod.mk.injEq,Option.some.injEq] at hp
        obtain ⟨rfl,rfl⟩ := hp
        exact ⟨h1,h2,h3⟩
    by_cases hb : step.boundID ≠ ""
    · have hsid := hk.bound s step hl hb
      have hcur : 0 < h.bound step.sid := bound_pos hl ((isBound_iff).mpr ⟨hb,rfl⟩)
      have hpos' : 0 < h.bound step.sid + if step.sid = sid then 1 else 0 := by omega
      rw [if_pos ⟨hb,hsid⟩]
      refine hk.put (ht.unpin hpos') (fun a => ?_) (fun a _ hh => ?_) (fun _ => Nat.pos_iff_ne_zero.mp hpos)
        (fun he => (hid he).elim)
      · simp only [hl,Option.elim_some]
        rw [isBound_count hb,isBound_count hid]
        dsimp only
        by_cases ha : a = step.sid
        · subst ha
          rw [if_pos rfl]
          omega
        · rw [if_neg ha]
          omega
      · by_cases hmine : step.holds a
        · left
          obtain ⟨h0,he | ⟨he,-⟩⟩ := hmine
          · exact ⟨h0,.inl (by simpa [hb] using he)⟩
          · exact (hb he).elim
        · exact .inr (others_of_not_held hl hh hmine)
    · have hnone : step.boundID = "" := not_not.mp hb
      have hholder := hk.unbound s step hl hnone
      rw [if_neg fun hc => hb hc.1]
      refine hk.put ht (fun a => ?_) (fun a _ hh => ?_) (fun _ => Nat.pos_iff_ne_zero.mp hpos)
        (fun he => (hid he).elim)
      · have hmine : ¬step.isBound a = true := fun hc => ((isBound_iff).mp hc).1 hnone
        simp only [hl,Option.elim_some,if_neg hmine]
        rw [isBound_count hid,Nat.add_zero]
      · by_cases hmine : step.holds a
        · left
          obtain ⟨h0,he | ⟨-,he⟩⟩ := hmine
          · exact (h0 (he.symm.trans hholder)).elim
          · exact ⟨h0,.inl (by simp [hnone,he,h0])⟩
        · exact .inr (others_of_not_held hl hh hmine)

theorem Kept.locate (hk : h.Kept) {s : Option C} {step : Step} (hs : h.steps.lookup s = some step)
    (opens : Bool) (user : String) (now₁ now₂ : Time) :
    (h.locate s step opens user now₁ now₂).1.Kept := by
  simp only [Host.locate]
  split_ifs with hb hend h0 hn h0 ho
  · exact hk
  · exact hk
  · exact (hk.bound s step hs hb h0).elim
  · exact hk
  · have hnone : step.boundID = "" := not_not.mp hb
    refine hk.put (hk.tracks.openHeld user now₁ now₂) (fun a => ?_) (fun a _ hh => ?_)
      (fun hc => (hc hnone).elim) (fun _ => hk.unbound s step hs hnone)
    · simp [hs,Step.isBound,hnone]
    · rcases hh with rfl | hh
      · exact .inl ⟨Nat.succ_ne_zero _,.inr ⟨hnone,rfl⟩⟩
      · refine .inr (others_of_not_held hs hh ?_)
        rintro ⟨hne,he | ⟨-,he⟩⟩
        · exact hne (he.symm.trans (hk.unbound s step hs hnone))
        · exact hne (he.symm.trans h0)
  · exact hk
  · exact hk

theorem Kept.current (hk : h.Kept) (s : Option C) (opens : Bool) (user : String)
    (now₁ now₂ : Time) : (h.current s opens user now₁ now₂).1.Kept := by
  simp only [Host.current]
  cases hs : h.steps.lookup s with
  | some step => exact hk.locate hs opens user now₁ now₂
  | none =>
    simp only
    split_ifs
    · have hstart := hk.start s
      simp only [Host.start,hs] at hstart
      exact hstart.locate (AList.lookup_insert _) opens user now₁ now₂
    · exact hk

theorem Kept.attempt (hk : h.Kept) (w : Waiter) (wait : Bool) (now : Time) :
    (h.attempt w wait now).1.Kept := by
  have hs : (h.withServer (h.kernel.server.enqueue w.sid w.request now).1).Kept :=
    hk.serve (Server.serve_keeps _ _ (by simp) (by simp) (by simp))
  simp only [Host.attempt]
  split_ifs
  · exact hs
  · exact hs.congr rfl rfl

theorem Kept.onSession (hk : h.Kept) (s : Option C) {call : Server → Nat → Server}
    (hcall : ∀ (srv : Server) (sid : Nat),srv.Keeps (call srv sid)) : (h.onSession s call).Kept :=
  onSession_rule h s (hk.current s false "" _ _) fun _ _ hc => hc.serve (hcall _ _)

theorem Kept.step (hk : h.Kept) (op : Op C) (hblank : ¬h.bindsBlank op) : (h.step op).1.Kept := by
  cases op with
  | start s => exact hk.start s
  | finish s dumped now => exact hk.finish s dumped now
  | bind s id user now₁ now₂ => exact hk.bind s id user now₁ now₂ hblank
  | endKey id => exact ⟨hk.tracks.endKey _,hk.bound,hk.unbound⟩
  | revive id => exact ⟨hk.tracks.ledger _,hk.bound,hk.unbound⟩
  | enqueue s r wait user now₁ now₂ now =>
    exact enqueue_rule h s r wait user now₁ now₂ now (hk.current s true user now₁ now₂) fun _ _ _ _ hc =>
      hc.attempt _ wait now
  | wake i now =>
    have hrest : ({ h with waiting := h.waiting.eraseIdx i } : Host C).Kept := hk.congr rfl rfl
    exact wake_rule h i now hk hrest fun _ _ => hrest.attempt _ true now
  | dequeue s r =>
    exact hk.onSession s fun srv sid => srv.serve_keeps (.dequeue sid r) (by simp) (by simp) (by simp)
  | dequeueAll s =>
    exact hk.onSession s fun srv sid => srv.serve_keeps (.dequeueAll sid) (by simp) (by simp) (by simp)
  | commit s updated now => exact hk.onSession s fun srv sid => srv.commit_keeps sid updated now
  | rollback s now =>
    exact hk.onSession s fun srv sid => srv.serve_keeps (.rollback sid now) (by simp) (by simp) (by simp)

end Host

end OpenSteamgate.Adt
