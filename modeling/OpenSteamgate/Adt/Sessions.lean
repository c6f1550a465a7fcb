import OpenSteamgate.Adt.Host

namespace OpenSteamgate.Enq

variable {st : State}

theorem step_isSome (op : Op) (hopen : ∀ user now₁ now₂,op ≠ .openSession user now₁ now₂)
    (hend : ∀ sid,op ≠ .endSession sid) (a : Nat) :
    ((st.step op).1.sessions.lookup a).isSome = (st.sessions.lookup a).isSome := by
  have hcall : ∀ b,op.caller = some b → a ≠ b →
      ((st.step op).1.sessions.lookup a).isSome = (st.sessions.lookup a).isSome :=
    fun b hb ha => by rw [step_sessions hb ha]
  have hplain : op.plain = true → ((st.step op).1.sessions.lookup a).isSome = (st.sessions.lookup a).isSome :=
    fun hop => by
      obtain ⟨rows,hrows⟩ := step_plain st op hop
      rw [hrows]
  cases op with
  | openSession user now₁ now₂ => exact (hopen _ _ _ rfl).elim
  | endSession sid => exact (hend _ rfl).elim
  | commit sid updated now =>
    by_cases ha : a = sid
    · subst ha
      simp only [State.step,State.commit]
      cases hs : st.sessions.lookup a with
      | none => simp [hs]
      | some s => cases updated <;> simp [hs]
    · exact hcall sid rfl ha
  | rollback sid now =>
    by_cases ha : a = sid
    · subst ha
      simp only [State.step,State.rollback]
      cases hs : st.sessions.lookup a with
      | none => simp [hs]
      | some s => simp
    · exact hcall sid rfl ha
  | _ => exact hplain rfl

end OpenSteamgate.Enq

namespace OpenSteamgate.Adt

open Enq (Time Request Result OwnerID)

def Server.isOpen (srv : Server) (sid : Nat) : Prop := (srv.table.sessions.lookup sid).isSome = true

def Server.seq (srv : Server) : Nat := srv.table.seq

def Server.settled (srv : Server) : Prop :=
  (Enq.history srv.instanceName srv.journal).2.pending = []

structure Server.Keeps (srv srv' : Server) : Prop where
  isOpen : ∀ sid, srv'.isOpen sid ↔ srv.isOpen sid
  seq : srv.seq ≤ srv'.seq
  settled : srv.settled → srv'.settled

namespace Server

variable {srv srv' srv'' : Server}

theorem serve_settled {srv : Server} (h : srv.settled) (op : Enq.Op)
    (hcommit : ∀ sid updated now,op ≠ .commit sid updated now) : (srv.serve op).settled := by
  have hends : (Enq.history srv.instanceName srv.journal).1.ends op = [] := by
    cases op with
    | commit sid updated now => exact (hcommit _ _ _ rfl).elim
    | _ => rfl
  unfold settled at h ⊢
  simp only [serve,Enq.log_snoc,Enq.Log.record,h,hends]
  rfl

theorem commit_settled {srv : Server} (h : srv.settled) (sid : Nat) (updated : Bool)
    (now : Time) :
    ((srv.commit sid updated now).1.updateDone sid (srv.commit sid updated now).2).settled := by
  have hp : (Enq.history srv.instanceName (srv.journal ++ [.commit sid updated now])).2.pending =
      if (srv.table.commit sid updated now).2 = [] then []
      else [(sid,(srv.table.commit sid updated now).2)] := by
    unfold settled at h
    rw [Enq.log_snoc,srv.played]
    simp only [Enq.Log.record,h,Enq.State.ends,Enq.Op.settles]
    split_ifs <;> rfl
  by_cases hnil : (srv.commit sid updated now).2 = []
  · rw [updateDone,if_pos hnil]
    exact hp.trans (if_pos hnil)
  · have hopen := hp.trans (if_neg hnil)
    rw [updateDone,if_neg hnil]
    change (Enq.history srv.instanceName (srv.journal ++ [.commit sid updated now] ++
      [.updateDone sid (srv.table.commit sid updated now).2])).2.pending = []
    rw [Enq.log_snoc]
    simp only [Enq.Log.record,hopen,Enq.State.ends,Enq.Op.settles]
    simp

theorem serve_isOpen (srv : Server) (op : Enq.Op)
    (hopen : ∀ user now₁ now₂,op ≠ .openSession user now₁ now₂)
    (hend : ∀ sid,op ≠ .endSession sid) (sid : Nat) :
    (srv.serve op).isOpen sid ↔ srv.isOpen sid := by
  rw [isOpen,isOpen,serve,Enq.step_isSome op hopen hend]

theorem serve_keeps (srv : Server) (op : Enq.Op)
    (hopen : ∀ user now₁ now₂,op ≠ .openSession user now₁ now₂)
    (hend : ∀ sid,op ≠ .endSession sid)
    (hcommit : ∀ sid updated now,op ≠ .commit sid updated now) : srv.Keeps (srv.serve op) :=
  ⟨serve_isOpen srv op hopen hend,Enq.step_seq_le op,fun h => serve_settled h op hcommit⟩

theorem commit_keeps (srv : Server) (sid : Nat) (updated : Bool) (now : Time) :
    srv.Keeps ((srv.commit sid updated now).1.updateDone sid (srv.commit sid updated now).2) := by
  have hc := serve_isOpen srv (.commit sid updated now) (by simp) (by simp)
  have hseq : srv.seq ≤ (srv.commit sid updated now).1.seq := Enq.step_seq_le _
  refine ⟨fun a => ?_,?_,fun h => commit_settled h sid updated now⟩
  · unfold updateDone
    split_ifs
    · exact hc a
    · exact (serve_isOpen _ _ (by simp) (by simp) a).trans (hc a)
  · unfold updateDone
    split_ifs
    · exact hseq
    · exact hseq.trans (Enq.step_seq_le _)

theorem openSession_handle (srv : Server) (user : String) (now₁ now₂ : Time) :
    (srv.openSession user now₁ now₂).2 = srv.seq + 1 := rfl

theorem openSession_seq (srv : Server) (user : String) (now₁ now₂ : Time) :
    (srv.openSession user now₁ now₂).1.seq = srv.seq + 3 := rfl

theorem openSession_isOpen (srv : Server) (user : String) (now₁ now₂ : Time) (sid : Nat) :
    (srv.openSession user now₁ now₂).1.isOpen sid ↔ sid = srv.seq + 1 ∨ srv.isOpen sid := by
  change (((srv.table.sessions.insert (srv.table.seq + 1) _).lookup sid).isSome = true) ↔ _
  by_cases h : sid = srv.table.seq + 1
  · subst h
    simp [seq]
  · rw [AList.lookup_insert_ne h]
    simp [h,seq,isOpen]

theorem endSession_isOpen (srv : Server) (sid a : Nat) :
    (srv.endSession sid).isOpen a ↔ a ≠ sid ∧ srv.isOpen a := by
  change (((srv.table.release sid).sessions.erase sid).lookup a).isSome = true ↔ _
  by_cases h : a = sid
  · subst h
    simp
  · rw [AList.lookup_erase_ne h,Enq.release_sessions]
    simp [h,isOpen]

theorem endSession_seq (srv : Server) (sid : Nat) : (srv.endSession sid).seq = srv.seq := by
  change (srv.table.release sid).seq = _
  rw [Enq.release_seq]
  rfl

end Server

namespace Kernel

def maps (k : Kernel) (sid : Nat) : Prop := ∃ key, k.sessions.lookup key = some sid

def dooms (k : Kernel) (sid : Nat) : Prop := (k.retired.lookup sid).isSome = true

structure Tracks (k : Kernel) (count : Nat → Nat) (held : Nat → Prop) : Prop where
  pins : ∀ sid, k.pin sid = count sid
  positive : ∀ sid n, k.pins.lookup sid = some n → 0 < n
  sessions : ∀ sid, k.server.isOpen sid → held sid ∨ k.maps sid ∨ k.dooms sid
  unmapped : ∀ sid, k.dooms sid → ¬k.maps sid
  pinned : ∀ sid, k.dooms sid → 0 < count sid
  single : ∀ key key' sid, k.sessions.lookup key = some sid → k.sessions.lookup key' = some sid →
    key = key'
  mapped : ∀ sid, k.maps sid → 0 < sid ∧ sid ≤ k.server.seq
  counted : ∀ sid, 0 < count sid → sid ≤ k.server.seq
  settled : k.server.settled

variable {k : Kernel} {count : Nat → Nat} {held : Nat → Prop}

theorem Tracks.serve (h : k.Tracks count held) {srv : Server} (hs : k.server.Keeps srv) :
    ({ k with server := srv } : Kernel).Tracks count held :=
  ⟨h.pins,h.positive,fun sid ho => h.sessions sid ((hs.isOpen sid).mp ho),h.unmapped,h.pinned,
    h.single,fun sid hm => ⟨(h.mapped sid hm).1,(h.mapped sid hm).2.trans hs.seq⟩,
    fun sid hc => (h.counted sid hc).trans hs.seq,hs.settled h.settled⟩

theorem Tracks.mono (h : k.Tracks count held) {held' : Nat → Prop}
    (hh : ∀ sid,k.server.isOpen sid → held sid → held' sid) : k.Tracks count held' :=
  { h with sessions := fun sid ho => (h.sessions sid ho).imp_left (hh sid ho) }

theorem Tracks.endSession (h : k.Tracks count held) (sid : Nat) :
    ({ k with server := k.server.endSession sid } : Kernel).Tracks count
      (fun a => a ≠ sid ∧ held a) := by
  refine ⟨h.pins,h.positive,fun a ho => ?_,h.unmapped,h.pinned,h.single,fun a hm => ?_,
    fun a hc => ?_,Server.serve_settled h.settled _ (by simp)⟩
  · obtain ⟨hne,ho⟩ := (Server.endSession_isOpen _ sid a).mp ho
    exact (h.sessions a ho).imp_left fun hh => ⟨hne,hh⟩
  · rw [Server.endSession_seq]
    exact h.mapped a hm
  · rw [Server.endSession_seq]
    exact h.counted a hc

theorem Tracks.openHeld (h : k.Tracks count held) (user : String) (now₁ now₂ : Time) :
    ({ k with server := (k.server.openSession user now₁ now₂).1 } : Kernel).Tracks count
      (fun a => a = k.server.seq + 1 ∨ held a) := by
  have hseq := Server.openSession_seq k.server user now₁ now₂
  refine ⟨h.pins,h.positive,fun a ho => ?_,h.unmapped,h.pinned,h.single,fun a hm => ?_,
    fun a hc => ?_,Server.serve_settled h.settled _ (by simp)⟩
  · rcases (Server.openSession_isOpen _ user now₁ now₂ a).mp ho with rfl | ho
    · exact .inl (.inl rfl)
    · exact (h.sessions a ho).imp_left .inr
  · have := h.mapped a hm
    exact ⟨this.1,by rw [hseq]; omega⟩
  · have := h.counted a hc
    rw [hseq]
    omega

theorem Tracks.fresh (h : k.Tracks count held) : ¬k.maps (k.server.seq + 1) ∧
    ¬k.dooms (k.server.seq + 1) ∧ count (k.server.seq + 1) = 0 := by
  have hc : count (k.server.seq + 1) = 0 := by
    by_contra hpos
    have := h.counted _ (Nat.pos_of_ne_zero hpos)
    omega
  refine ⟨fun hm => ?_,fun hd => ?_,hc⟩
  · have := (h.mapped _ hm).2
    omega
  · have := h.pinned _ hd
    omega

theorem maps_insert {key : String} {sid a : Nat} {k' : Kernel}
    (hs : k'.sessions = k.sessions.insert key sid) (h : k'.maps a) : a = sid ∨ k.maps a := by
  obtain ⟨key',hk⟩ := h
  rw [hs] at hk
  by_cases he : key' = key
  · rw [he,AList.lookup_insert,Option.some.injEq] at hk
    exact .inl hk.symm
  · rw [AList.lookup_insert_ne he] at hk
    exact .inr ⟨key',hk⟩

theorem session_eq_zero (h : k.Tracks count held) {key : String} (h0 : k.session key = 0) :
    k.sessions.lookup key = none := by
  cases hk : k.sessions.lookup key with
  | none => rfl
  | some sid =>
    have := (h.mapped sid ⟨key,hk⟩).1
    simp [session,hk] at h0
    omega

theorem Tracks.openMapped (h : k.Tracks count held) {key : String} (h0 : k.session key = 0)
    (user : String) (now₁ now₂ : Time) :
    ({ k with
      server := (k.server.openSession user now₁ now₂).1
      sessions := k.sessions.insert key (k.server.seq + 1) } : Kernel).Tracks count held := by
  have hnone := session_eq_zero h h0
  obtain ⟨hfm,hfd,-⟩ := h.fresh
  have hseq := Server.openSession_seq k.server user now₁ now₂
  have hmaps : ∀ a,Kernel.maps { k with
      server := (k.server.openSession user now₁ now₂).1
      sessions := k.sessions.insert key (k.server.seq + 1) } a → a = k.server.seq + 1 ∨ k.maps a :=
    fun a => maps_insert rfl
  refine ⟨h.pins,h.positive,fun a ho => ?_,fun a hd hm => ?_,h.pinned,?_,fun a hm => ?_,
    fun a hc => ?_,Server.serve_settled h.settled _ (by simp)⟩
  · rcases (Server.openSession_isOpen _ user now₁ now₂ a).mp ho with rfl | ho
    · exact .inr (.inl ⟨key,AList.lookup_insert _⟩)
    · rcases h.sessions a ho with hh | ⟨key',hk⟩ | hd
      · exact .inl hh
      · have hne : key' ≠ key := fun he => by rw [he,hnone] at hk; cases hk
        exact .inr (.inl ⟨key',by rw [AList.lookup_insert_ne hne,hk]⟩)
      · exact .inr (.inr hd)
  · rcases hmaps a hm with rfl | hm
    · exact hfd hd
    · exact h.unmapped a hd hm
  · intro k₁ k₂ a h₁ h₂
    by_cases e₁ : k₁ = key
    · subst e₁
      rw [AList.lookup_insert,Option.some.injEq] at h₁
      by_contra hne
      rw [AList.lookup_insert_ne (Ne.symm hne),← h₁] at h₂
      exact hfm ⟨k₂,h₂⟩
    · rw [AList.lookup_insert_ne e₁] at h₁
      by_cases e₂ : k₂ = key
      · subst e₂
        rw [AList.lookup_insert,Option.some.injEq] at h₂
        exact (hfm ⟨k₁,h₂ ▸ h₁⟩).elim
      · rw [AList.lookup_insert_ne e₂] at h₂
        exact h.single k₁ k₂ a h₁ h₂
  · rcases hmaps a hm with rfl | hm
    · exact ⟨by omega,by rw [hseq]; omega⟩
    · have := h.mapped a hm
      exact ⟨this.1,by rw [hseq]; omega⟩
  · have := h.counted a hc
    rw [hseq]
    omega

theorem Tracks.takenPin (h : k.Tracks count held) {sid : Nat} (hsid : sid ≤ k.server.seq) :
    ({ k with pins := k.pins.insert sid (k.pin sid + 1) } : Kernel).Tracks
      (fun a => count a + if a = sid then 1 else 0) held := by
  refine ⟨fun a => ?_,fun a n hn => ?_,h.sessions,h.unmapped,fun a hd => ?_,h.single,h.mapped,
    fun a hc => ?_,h.settled⟩
  · by_cases ha : a = sid
    · subst ha
      simp only [pin,AList.lookup_insert,Option.getD_some,if_true]
      rw [← h.pins a,pin]
    · simp only [pin,AList.lookup_insert_ne ha,if_neg ha,Nat.add_zero]
      exact h.pins a
  · by_cases ha : a = sid
    · subst ha
      rw [AList.lookup_insert,Option.some.injEq] at hn
      omega
    · rw [AList.lookup_insert_ne ha] at hn
      exact h.positive a n hn
  · have := h.pinned a hd
    omega
  · by_cases ha : a = sid
    · exact ha ▸ hsid
    · rw [if_neg ha,Nat.add_zero] at hc
      exact h.counted a hc

theorem Tracks.retireNow (h : k.Tracks count held) (sid : Nat) :
    (k.retireNow sid).Tracks count held := by
  have hdooms : ∀ a,(k.retireNow sid).dooms a → a ≠ sid ∧ k.dooms a := by
    intro a hd
    simp only [dooms,Kernel.retireNow] at hd
    by_cases ha : a = sid
    · subst ha
      simp at hd
    · rw [AList.lookup_erase_ne ha] at hd
      exact ⟨ha,hd⟩
  refine ⟨h.pins,h.positive,fun a ho => ?_,fun a hd => h.unmapped a (hdooms a hd).2,
    fun a hd => h.pinned a (hdooms a hd).2,h.single,fun a hm => ?_,fun a hc => ?_,
    Server.serve_settled h.settled _ (by simp)⟩
  · obtain ⟨hne,ho⟩ := (Server.endSession_isOpen _ sid a).mp ho
    refine (h.sessions a ho).imp_right fun hk => hk.imp_right fun hd => ?_
    simpa only [dooms,Kernel.retireNow,AList.lookup_erase_ne hne] using hd
  · simp only [Kernel.retireNow,Server.endSession_seq]
    exact h.mapped a hm
  · simp only [Kernel.retireNow,Server.endSession_seq]
    exact h.counted a hc

theorem Tracks.lastPin (h : k.Tracks count held) {sid : Nat} (hd : ¬k.dooms sid)
    (hc : count sid = 1) : ({ k with pins := k.pins.erase sid } : Kernel).Tracks
      (fun a => count a - if a = sid then 1 else 0) held := by
  refine ⟨fun a => ?_,fun a n hn => ?_,h.sessions,h.unmapped,fun a ha => ?_,h.single,h.mapped,
    fun a ha => h.counted a (by omega),h.settled⟩
  · by_cases ha : a = sid
    · subst ha
      simp [pin,hc]
    · simp only [pin,AList.lookup_erase_ne ha,if_neg ha,Nat.sub_zero]
      exact h.pins a
  · by_cases ha : a = sid
    · subst ha
      simp at hn
    · rw [AList.lookup_erase_ne ha] at hn
      exact h.positive a n hn
  · have hne : a ≠ sid := fun he => hd (he ▸ ha)
    rw [if_neg hne,Nat.sub_zero]
    exact h.pinned a ha

theorem Tracks.unpin (h : k.Tracks count held) {sid : Nat} (hpos : 0 < count sid) :
    (k.unpin sid).Tracks (fun a => count a - if a = sid then 1 else 0) held := by
  have hpin := h.pins sid
  simp only [Kernel.unpin]
  split_ifs with hle hd
  · have hr := h.retireNow sid
    have hnot : ¬(k.retireNow sid).dooms sid := by simp [dooms,Kernel.retireNow]
    exact hr.lastPin hnot (by omega)
  · exact h.lastPin hd (by omega)
  · refine ⟨fun a => ?_,fun a n hn => ?_,h.sessions,h.unmapped,fun a ha => ?_,h.single,h.mapped,
      fun a ha => h.counted a (by omega),h.settled⟩
    · by_cases ha : a = sid
      · subst ha
        simp only [pin,AList.lookup_insert,Option.getD_some,if_true]
        rw [← h.pins a,pin]
      · simp only [pin,AList.lookup_insert_ne ha,if_neg ha,Nat.sub_zero]
        exact h.pins a
    · by_cases ha : a = sid
      · subst ha
        rw [AList.lookup_insert,Option.some.injEq] at hn
        omega
      · rw [AList.lookup_insert_ne ha] at hn
        exact h.positive a n hn
    · have := h.pinned a ha
      by_cases he : a = sid
      · subst he
        rw [if_pos rfl]
        omega
      · rw [if_neg he]
        omega

theorem Tracks.unmap (h : k.Tracks count held) {key : String} {sid : Nat}
    (hk : k.sessions.lookup key = some sid) (hpos : 0 < count sid) (name : String) :
    ({ k with
      sessions := k.sessions.erase key
      retired := k.retired.insert sid name } : Kernel).Tracks count held := by
  have hdooms : ∀ a,(k.retired.insert sid name).lookup a ≠ none → a = sid ∨ k.dooms a := by
    intro a hd
    by_cases ha : a = sid
    · exact .inl ha
    · rw [AList.lookup_insert_ne ha] at hd
      exact .inr (Option.isSome_iff_ne_none.mpr hd)
  have hmaps : ∀ key' a,(k.sessions.erase key).lookup key' = some a →
      k.sessions.lookup key' = some a ∧ a ≠ sid := by
    intro key' a hk'
    by_cases he : key' = key
    · subst he
      simp at hk'
    · rw [AList.lookup_erase_ne he] at hk'
      refine ⟨hk',?_⟩
      rintro rfl
      exact he (h.single _ _ _ hk' hk)
  refine ⟨h.pins,h.positive,fun a ho => ?_,?_,fun a hd => ?_,?_,?_,h.counted,h.settled⟩
  · rcases h.sessions a ho with hh | ⟨key',hk'⟩ | hd
    · exact .inl hh
    · by_cases he : key' = key
      · rw [he,hk,Option.some.injEq] at hk'
        subst hk'
        exact .inr (.inr (by simp [dooms]))
      · exact .inr (.inl ⟨key',by rw [AList.lookup_erase_ne he,hk']⟩)
    · refine .inr (.inr ?_)
      by_cases ha : a = sid
      · subst ha
        simp [dooms]
      · simpa only [dooms,AList.lookup_insert_ne ha] using hd
  · rintro a hd ⟨key',hk'⟩
    obtain ⟨hk',hne⟩ := hmaps key' a hk'
    rcases hdooms a (Option.isSome_iff_ne_none.mp hd) with ha | hd
    · exact hne ha
    · exact h.unmapped a hd ⟨key',hk'⟩
  · rcases hdooms a (Option.isSome_iff_ne_none.mp hd) with rfl | hd
    · exact hpos
    · exact h.pinned a hd
  · intro k₁ k₂ a h₁ h₂
    exact h.single k₁ k₂ a (hmaps k₁ a h₁).1 (hmaps k₂ a h₂).1
  · rintro a ⟨key',hk'⟩
    exact h.mapped a ⟨key',(hmaps key' a hk').1⟩

theorem Tracks.rename (h : k.Tracks count held) {sid : Nat} (hd : k.dooms sid) (name : String) :
    ({ k with retired := k.retired.insert sid name } : Kernel).Tracks count held := by
  have hdooms : ∀ a,Kernel.dooms { k with retired := k.retired.insert sid name } a ↔ k.dooms a := by
    intro a
    by_cases ha : a = sid
    · subst ha
      simpa [dooms] using hd
    · simp only [dooms,AList.lookup_insert_ne ha]
  exact ⟨h.pins,h.positive,fun a ho => by rw [hdooms]; exact h.sessions a ho,
    fun a ha => h.unmapped a ((hdooms a).mp ha),fun a ha => h.pinned a ((hdooms a).mp ha),h.single,
    h.mapped,h.counted,h.settled⟩

theorem Tracks.dropContext (h : k.Tracks count held) (id : String) {sid : Nat}
    (hpos : 0 < count sid) : (k.dropContext id sid).Tracks count held := by
  have hpin : 0 < k.pin sid := by rw [h.pins]; exact hpos
  simp only [Kernel.dropContext]
  by_cases h0 : sid = 0
  · rw [if_pos h0]
    exact h
  by_cases hleave : k.session (k.keyOf id) ≠ sid ∧ ¬(k.retired.lookup sid).isSome = true
  · rw [if_neg h0,if_pos hleave]
    exact h
  rw [if_neg h0,if_neg hleave]
  by_cases hk : k.session (k.keyOf id) = sid
  · have hmap : k.sessions.lookup (k.keyOf id) = some sid := by
      cases hs : k.sessions.lookup (k.keyOf id) with
      | none => exact (h0 (by simpa [session,hs] using hk.symm)).elim
      | some a => simpa [session,hs] using hk
    have hpin' : 0 < ({ k with sessions := k.sessions.erase (k.keyOf id) } : Kernel).pin sid := hpin
    rw [if_pos hk,if_pos hpin']
    exact h.unmap hmap hpos (k.keyOf id)
  · have hd : k.dooms sid := by
      by_contra hd
      exact hleave ⟨hk,hd⟩
    rw [if_neg hk,if_pos hpin]
    exact h.rename hd (k.keyOf id)

theorem Tracks.ledger (h : k.Tracks count held) (ended : List String) :
    ({ k with ended := ended } : Kernel).Tracks count held :=
  ⟨h.pins,h.positive,h.sessions,h.unmapped,h.pinned,h.single,h.mapped,h.counted,h.settled⟩

theorem Tracks.drop (h : k.Tracks count held) (key : String) : (k.drop key).Tracks count held := by
  simp only [Kernel.drop]
  split_ifs with h0
  · have hmaps : ∀ key' a,(k.sessions.erase key).lookup key' = some a →
        k.sessions.lookup key' = some a := by
      intro key' a hk'
      by_cases he : key' = key
      · subst he
        simp at hk'
      · rwa [AList.lookup_erase_ne he] at hk'
    refine ⟨h.pins,h.positive,fun a ho => ?_,?_,h.pinned,?_,?_,fun a hc => ?_,
      Server.serve_settled h.settled _ (by simp)⟩
    · obtain ⟨hne,ho⟩ := (Server.endSession_isOpen _ _ a).mp ho
      rcases h.sessions a ho with hh | ⟨key',hk'⟩ | hd
      · exact .inl hh
      · have he : key' ≠ key := by
          rintro rfl
          exact hne (by simp [session,hk'])
        exact .inr (.inl ⟨key',by rw [AList.lookup_erase_ne he,hk']⟩)
      · exact .inr (.inr hd)
    · rintro a hd ⟨key',hk'⟩
      exact h.unmapped a hd ⟨key',hmaps key' a hk'⟩
    · intro k₁ k₂ a h₁ h₂
      exact h.single k₁ k₂ a (hmaps k₁ a h₁) (hmaps k₂ a h₂)
    · rintro a ⟨key',hk'⟩
      rw [Server.endSession_seq]
      exact h.mapped a ⟨key',hmaps key' a hk'⟩
    · rw [Server.endSession_seq]
      exact h.counted a hc
  · exact h

theorem Tracks.endKey (h : k.Tracks count held) (id : String) :
    (k.endKey id).Tracks count held := by
  have hfold : ∀ (sids : List Nat) (k : Kernel),k.Tracks count held →
      (sids.foldl Kernel.retireNow k).Tracks count held := by
    intro sids
    induction sids with
    | nil => exact fun _ h => h
    | cons sid sids ih => exact fun k h => ih _ (h.retireNow sid)
  exact hfold _ _ ((h.ledger _).drop _)

theorem Tracks.bind (h : k.Tracks count held) (id user : String) (now₁ now₂ : Time) :
    (k.bind id user now₁ now₂).1.Tracks count held := by
  simp only [Kernel.bind]
  split_ifs with he hs
  · exact h
  · exact h
  · exact h.openMapped (by simpa using hs) _ _ _

theorem Tracks.takePin (h : k.Tracks count held) (id user : String) (now₁ now₂ : Time) :
    (∃ k',k.takePin id user now₁ now₂ = (k',none) ∧ k' = k ∧ k.keyOf id ∈ k.ended) ∨
      ∃ k' sid,k.takePin id user now₁ now₂ = (k',some sid) ∧ 0 < sid ∧ sid ≤ k'.server.seq ∧
        k.server.seq ≤ k'.server.seq ∧
        k'.Tracks (fun a => count a + if a = sid then 1 else 0) held := by
  simp only [Kernel.takePin]
  split_ifs with he hs
  · exact .inl ⟨k,rfl,rfl,he⟩
  · have hm : k.maps (k.session (k.keyOf id)) := by
      refine ⟨k.keyOf id,?_⟩
      cases hl : k.sessions.lookup (k.keyOf id) with
      | none => simp [session,hl] at hs
      | some a => simp [session,hl]
    obtain ⟨hpos,hle⟩ := h.mapped _ hm
    exact .inr ⟨_,_,rfl,hpos,hle,Nat.le_refl _,h.takenPin hle⟩
  · have ho := h.openMapped (by simpa using hs) (text user) now₁ now₂
    have hseq := Server.openSession_seq k.server (text user) now₁ now₂
    refine .inr ⟨_,_,rfl,Nat.succ_pos _,?_,?_,ho.takenPin ?_⟩
    all_goals
      simp only [Server.openSession_handle,hseq]
      omega

end Kernel

end OpenSteamgate.Adt
