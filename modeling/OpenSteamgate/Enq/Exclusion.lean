import OpenSteamgate.Enq.Isolation

namespace OpenSteamgate.Enq

variable {st : State} {g : Log}

def Exclusive (rows : List Row) : Prop :=
  ∀ v ∈ rows, ∀ w ∈ rows, v.client = w.client → v.table = w.table → v.session ≠ w.session →
    collide v.arg w.arg → shared v.mode ∧ shared w.mode

theorem refusal_none {s : Session} {sid : Nat} {r : Request} {arg : String} {w : Row}
    (h : s.refusal sid r arg w = none) (hc : w.client = r.client) (ht : w.table = r.table)
    (ha : collide w.arg arg) (hf : w.session ≠ sid ∨ 0 < w.updates ∧ w.update ≠ s.update) :
    shared w.mode ∧ shared r.mode := by
  by_contra hs
  have hs' : ¬shared w.mode ∨ ¬shared r.mode := by tauto
  simp [Session.refusal,hc,ht,ha,hf] at h
  simp_all

theorem Exclusive.step (hx : Exclusive st.rows) (h : Inv st g) (op : Op) :
    Exclusive (st.step op).1.rows := by
  obtain ⟨kept,fresh,hrows,he,hf⟩ := step_evolves h op
  have hkept : Exclusive kept := by
    intro v hv w hw hc ht hs ha
    obtain ⟨v',hv',hvr⟩ := he.mem hv
    obtain ⟨w',hw',hwr⟩ := he.mem hw
    have hvb := bare_eq_iff.mp (hvr.2 v rfl)
    have hwb := bare_eq_iff.mp (hwr.2 w rfl)
    simp only [hvb,hwb] at hc ht hs ha ⊢
    exact hx v' hv' w' hw' hc ht hs ha
  rw [hrows]
  rcases hf with rfl | ⟨u,sid,r,now,s,rfl,rfl,hu,hno⟩
  · simpa using hkept
  · have hub := bare_eq_iff.mp hu
    have hnew : ∀ v ∈ kept,v.client = u.client → v.table = u.table → v.session ≠ u.session →
        collide v.arg u.arg → shared v.mode ∧ shared u.mode := by
      intro v hv hc ht hs ha
      obtain ⟨w,hw,hvr⟩ := he.mem hv
      have hvb := bare_eq_iff.mp (hvr.2 v rfl)
      simp only [hvb,hub] at hc ht hs ha ⊢
      exact refusal_none (hno w hw) hc ht ha (.inl hs)
    intro v hv w hw hc ht hs ha
    rw [List.mem_append,List.mem_singleton] at hv hw
    rcases hv with hv | rfl
    · rcases hw with hw | rfl
      · exact hkept v hv w hw hc ht hs ha
      · exact hnew v hv hc ht hs ha
    · rcases hw with hw | rfl
      · exact (hnew w hw hc.symm ht.symm hs.symm (collide_symm ha)).symm
      · exact (hs rfl).elim

theorem history_exclusive (instanceName : String) (ops : List Op)
    (hd : (history instanceName ops).2.issued.Nodup) :
    Exclusive (history instanceName ops).1.rows := by
  refine (server.invariant_backward (fun p => Inv p.1 p.2 ∧ Exclusive p.1.rows)
    (fun p => p.2.issued.Nodup) nodup_backward ?_ ⟨Inv.new instanceName,?_⟩ hd).2
  · rintro p op ⟨h,hx⟩ hn
    exact ⟨h.step op hn,hx.step h op⟩
  · simp [Exclusive,State.new]

theorem Inv.current_not_ended (h : Inv st g) {sid a : Nat} {s : Session}
    (hs : st.sessions.lookup sid = some s) : (a,s.update) ∉ g.ended := by
  intro he
  have hp : Plays st.sessions g.ended a .ended s.update := he
  simpa using (h.unique _ _ _ _ _ hp ⟨s,hs,rfl⟩ : a = sid ∧ Role.ended = Role.update)

theorem granted_refusal {sid : Nat} {r : Request} {now : Time}
    (h : (st.enqueue sid r now).2.subrc = 0) : ∃ s,st.sessions.lookup sid = some s ∧
      ∀ w ∈ st.rows,s.refusal sid r (garg r.client r.fields) w = none := by
  have hc := enqueue_cases st sid r now
  generalize (st.enqueue sid r now).1 = st' at hc
  generalize (st.enqueue sid r now).2 = res at hc h
  cases hc with
  | unknown hs => simp at h
  | refused s pre w post e hs hrows hw hpre => simp [refusal_subrc hw] at h
  | fresh s hs hno hnm => exact ⟨s,hs,hno⟩
  | merged s pre w post hs hrows hno hm hpost => exact ⟨s,hs,hno⟩

theorem mutual_exclusion (instanceName : String) (ops : List Op)
    (hd : (history instanceName ops).2.issued.Nodup) :
    (∀ v ∈ (history instanceName ops).1.rows, ∀ w ∈ (history instanceName ops).1.rows,
      v.client = w.client → v.table = w.table → v.session ≠ w.session → collide v.arg w.arg →
      shared v.mode ∧ shared w.mode) ∧
    ∀ sid r now, ((history instanceName ops).1.enqueue sid r now).2.subrc = 0 →
      ∀ w ∈ (history instanceName ops).1.rows, w.client = r.client → w.table = r.table →
        collide w.arg (garg r.client r.fields) →
        (w.session ≠ sid ∨
          0 < w.updates ∧ ∃ a, (a,w.update) ∈ (history instanceName ops).2.ended) →
        shared w.mode ∧ shared r.mode := by
  have hinv := history_inv instanceName ops hd
  refine ⟨history_exclusive instanceName ops hd,?_⟩
  intro sid r now h0 w hw hc ht ha hf
  obtain ⟨s,hs,hno⟩ := granted_refusal h0
  refine refusal_none (hno w hw) hc ht ha (hf.imp_right ?_)
  rintro ⟨hu,a,he⟩
  exact ⟨hu,fun heq => hinv.current_not_ended hs (heq ▸ he)⟩

theorem mutual_exclusion_twoReaders :
    (history "srv" twoReaders).1.rows.length = 2 ∧ Exclusive (history "srv" twoReaders).1.rows :=
  ⟨by decide,(mutual_exclusion "srv" twoReaders (by decide)).1⟩

end OpenSteamgate.Enq
