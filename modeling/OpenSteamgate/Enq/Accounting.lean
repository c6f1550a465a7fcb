import OpenSteamgate.Enq.Exclusion

namespace OpenSteamgate.Enq

variable {st : State} {g : Log}

theorem step_seq_le (op : Op) : st.seq ≤ (st.step op).1.seq := by
  have hplain : op.plain = true → st.seq ≤ (st.step op).1.seq := fun hop => by
    obtain ⟨rows,hrows⟩ := step_plain st op hop
    rw [hrows]
  cases op with
  | openSession user now₁ now₂ => exact Nat.le_add_right _ 3
  | commit sid updated now =>
    simp only [State.step,State.commit]
    cases st.sessions.lookup sid with
    | none => exact Nat.le_refl _
    | some s => cases updated <;> simp
  | rollback sid now =>
    simp only [State.step,State.rollback]
    cases st.sessions.lookup sid with
    | none => exact Nat.le_refl _
    | some s => exact Nat.le_succ _
  | endSession sid => simp [State.step,State.endSession]
  | _ => exact hplain rfl

def Gone (sid : Nat) (st : State) : Prop := st.sessions.lookup sid = none ∧ sid ≤ st.seq

theorem Gone.step {sid : Nat} (h : Gone sid st) (op : Op) : Gone sid (st.step op).1 := by
  refine ⟨?_,h.2.trans (step_seq_le op)⟩
  by_cases hc : op.caller = some sid
  · cases op with
    | enqueue a r now =>
      obtain rfl : a = sid := by simpa [Op.caller] using hc
      simp [State.step,State.enqueue,h.1]
    | dequeue a r =>
      obtain rfl : a = sid := by simpa [Op.caller] using hc
      simp [State.step,State.dequeue,h.1]
    | dequeueAll a => simp [State.step,h.1]
    | commit a updated now =>
      obtain rfl : a = sid := by simpa [Op.caller] using hc
      simp [State.step,State.commit,h.1]
    | updateDone a owner =>
      simp only [State.step,State.updateDone]
      split_ifs <;> exact h.1
    | rollback a now =>
      obtain rfl : a = sid := by simpa [Op.caller] using hc
      simp [State.step,State.rollback,h.1]
    | endSession a =>
      obtain rfl : a = sid := by simpa [Op.caller] using hc
      simp [State.step,State.endSession]
    | updateOwner a => exact h.1
    | _ => simp [Op.caller] at hc
  · cases hcall : op.caller with
    | some a =>
      have hne : sid ≠ a := fun he => hc (by rw [hcall,he])
      rw [step_sessions hcall hne]
      exact h.1
    | none =>
      cases op with
      | openSession user now₁ now₂ =>
        have hne : sid ≠ st.seq + 1 := by have := h.2; omega
        exact (AList.lookup_insert_ne hne).trans h.1
      | read f => exact h.1
      | holder r => exact h.1
      | _ => simp [Op.caller] at hcall

theorem Gone.run {sid : Nat} {p : State × Log} (h : Gone sid p.1) (ops : List Op) :
    Gone sid (server.run p ops).1 :=
  server.invariant (fun p => Gone sid p.1) (fun _ op h => h.step op) h ops

theorem seq_run_le (p : State × Log) (ops : List Op) : p.1.seq ≤ (server.run p ops).1.seq :=
  server.invariant (fun q => p.1.seq ≤ q.1.seq) (fun _ op h => h.trans (step_seq_le op))
    (Nat.le_refl _) ops

theorem pending_split (instanceName : String) (ops : List Op) (sid : Nat) (o : OwnerID)
    (h : (sid,o) ∈ (history instanceName ops).2.pending) :
    ∃ before updated now after,ops = before ++ .commit sid updated now :: after ∧
      ((history instanceName before).1.commit sid updated now).2 = o ∧ o ≠ [] ∧
      Op.updateDone sid o ∉ after := by
  induction ops using List.reverseRecOn with
  | nil => simp [history] at h
  | append_singleton ops op ih =>
    rw [log_snoc] at h
    simp only [Log.record,List.mem_filter,List.mem_append,Bool.not_eq_true'] at h
    obtain ⟨h | h,hset⟩ := h
    · obtain ⟨before,updated,now,after,rfl,ho,hne,hno⟩ := ih h
      refine ⟨before,updated,now,after ++ [op],by simp,ho,hne,?_⟩
      rw [List.mem_append,List.mem_singleton,not_or]
      refine ⟨hno,?_⟩
      rintro rfl
      simp [Op.settles] at hset
    · cases op with
      | commit a updated now =>
        simp only [State.ends] at h
        split_ifs at h with hnil
        · simp at h
        · rw [List.mem_singleton,Prod.mk.injEq] at h
          obtain ⟨rfl,rfl⟩ := h
          exact ⟨ops,updated,now,[],rfl,rfl,hnil,by simp⟩
      | _ => simp [State.ends] at h

theorem row_accounting (instanceName : String) (ops : List Op)
    (hd : (history instanceName ops).2.issued.Nodup) :
    (∀ w ∈ (history instanceName ops).1.rows,
      (0 < w.dialogs ∨ 0 < w.updates) ∧ (w.dialogs = 0 ↔ w.dialog = []) ∧
      (w.updates = 0 ↔ w.update = []) ∧
      (0 < w.dialogs → ∃ s, (history instanceName ops).1.sessions.lookup w.session = some s ∧
        w.dialog = s.dialog) ∧
      (0 < w.updates → (∃ s, (history instanceName ops).1.sessions.lookup w.session = some s ∧
          w.update = s.update) ∨
        (w.session,w.update) ∈ (history instanceName ops).2.pending)) ∧
    ∀ start user now₁ now₂ between sid rest,
      ops = start ++ .openSession user now₁ now₂ :: (between ++ .endSession sid :: rest) →
      ((history instanceName start).1.openSession user now₁ now₂).2 = sid →
      (∀ before updated now after, ops = before ++ .commit sid updated now :: after →
        ((history instanceName before).1.commit sid updated now).2 ≠ [] →
        .updateDone sid ((history instanceName before).1.commit sid updated now).2 ∈ after) →
      ∀ w ∈ (history instanceName ops).1.rows, w.session ≠ sid := by
  have hinv := history_inv instanceName ops hd
  refine ⟨?_,?_⟩
  · intro w hw
    have hok := hinv.rows w hw
    refine ⟨hok.tidy.1,⟨hok.tidy.2.1,?_⟩,⟨hok.tidy.2.2,?_⟩,?_,?_⟩
    · intro hnil
      by_contra hpos
      exact hinv.filled _ (hinv.issued _ _ _ (hok.dialog (Nat.pos_of_ne_zero hpos))) hnil
    · intro hnil
      by_contra hpos
      rcases hok.update (Nat.pos_of_ne_zero hpos) with hp | hp
      · exact hinv.filled _ (hinv.issued _ _ _ hp) hnil
      · exact hinv.filled _ (hinv.issued _ .ended _ (hinv.pending _ hp)) hnil
    · intro hp
      obtain ⟨s,hs,he⟩ := hok.dialog hp
      exact ⟨s,hs,he.symm⟩
    · intro hp
      refine (hok.update hp).imp_left ?_
      rintro ⟨s,hs,he⟩
      exact ⟨s,hs,he.symm⟩
  · intro start user now₁ now₂ between sid rest hops hsid hset w hw hws
    have hgone : Gone sid (history instanceName ops).1 := by
      have happ : history instanceName ops = server.run (server.run (history instanceName start)
          (.openSession user now₁ now₂ :: between)) (.endSession sid :: rest) := by
        rw [hops,history_append,← List.cons_append,StepMachine.run_append]
      rw [happ,StepMachine.run_cons]
      apply Gone.run
      rw [StepMachine.run_cons]
      refine ⟨AList.lookup_erase _ _,?_⟩
      refine le_trans ?_ (step_seq_le (.endSession sid))
      refine le_trans ?_ (seq_run_le _ between)
      rw [← hsid]
      exact Nat.le_add_right _ 2
    have hok := hinv.rows w hw
    rw [← hws] at hgone
    have hnd : w.dialogs = 0 := by
      by_contra hpos
      obtain ⟨s,hs,-⟩ := hok.dialog (Nat.pos_of_ne_zero hpos)
      simp [hgone.1] at hs
    have hup : 0 < w.updates := hok.tidy.1.resolve_left (by omega)
    rcases hok.update hup with ⟨s,hs,-⟩ | hp
    · simp [hgone.1] at hs
    · obtain ⟨before,updated,now,after,heq,ho,hne,hno⟩ := pending_split _ _ _ _ hp
      rw [hws] at heq ho hno
      exact hno (ho ▸ hset before updated now after heq (ho ▸ hne))

def handedOver : List Op :=
  [.openSession "ANNA" noon noon,.enqueue 1 (lockOf "S" 3 "LH") noon,.commit 1 true noon,
    .endSession 1]

theorem row_accounting_handedOver :
    (history "srv" handedOver).1.rows.length = 1 ∧
      ∀ w ∈ (history "srv" handedOver).1.rows, 0 < w.dialogs ∨ 0 < w.updates :=
  ⟨by decide,fun w hw => ((row_accounting "srv" handedOver (by decide)).1 w hw).1⟩

end OpenSteamgate.Enq
