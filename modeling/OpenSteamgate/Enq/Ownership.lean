import OpenSteamgate.Enq.Rows

namespace OpenSteamgate.Enq

inductive Role where
  | dialog
  | update
  | ended

def Plays (sessions : AList (fun _ : Nat => Session)) (ended : List (Nat × OwnerID)) (sid : Nat) :
    Role → OwnerID → Prop
  | .dialog, o => ∃ s, sessions.lookup sid = some s ∧ s.dialog = o
  | .update, o => ∃ s, sessions.lookup sid = some s ∧ s.update = o
  | .ended, o => (sid,o) ∈ ended

structure RowOk (st : State) (g : Log) (w : Row) : Prop where
  tidy : w.tidy
  dialog : 0 < w.dialogs → Plays st.sessions g.ended w.session .dialog w.dialog
  update : 0 < w.updates → Plays st.sessions g.ended w.session .update w.update ∨
    (w.session,w.update) ∈ g.pending
  known : w.session ≤ st.seq

structure Inv (st : State) (g : Log) : Prop where
  rows : ∀ w ∈ st.rows, RowOk st g w
  unique : ∀ a b r r' o, Plays st.sessions g.ended a r o →
    Plays st.sessions g.ended b r' o → a = b ∧ r = r'
  issued : ∀ a r o, Plays st.sessions g.ended a r o → o ∈ g.issued
  filled : ∀ o ∈ g.issued, o ≠ []
  pending : ∀ q ∈ g.pending, q ∈ g.ended
  opened : ∀ a s, st.sessions.lookup a = some s → a ≤ st.seq
  closed : ∀ q ∈ g.ended, q.1 ≤ st.seq

section Plays

variable {sessions : AList (fun _ : Nat => Session)} {ended : List (Nat × OwnerID)}
  {sid a : Nat} {s : Session} {role : Role} {o : OwnerID}

theorem plays_insert (h : Plays (sessions.insert sid s) ended a role o) :
    (a = sid ∧ (role = .dialog ∧ o = s.dialog ∨ role = .update ∧ o = s.update)) ∨
      (Plays sessions ended a role o ∧ (a = sid → role = .ended)) := by
  by_cases ha : a = sid
  · subst ha
    cases role with
    | dialog =>
      obtain ⟨s',hs,ho⟩ := h
      rw [AList.lookup_insert,Option.some.injEq] at hs
      exact .inl ⟨rfl,.inl ⟨rfl,by rw [hs,ho]⟩⟩
    | update =>
      obtain ⟨s',hs,ho⟩ := h
      rw [AList.lookup_insert,Option.some.injEq] at hs
      exact .inl ⟨rfl,.inr ⟨rfl,by rw [hs,ho]⟩⟩
    | ended => exact .inr ⟨h,fun _ => rfl⟩
  · right
    refine ⟨?_,fun h => (ha h).elim⟩
    cases role <;> simpa only [Plays,AList.lookup_insert_ne ha] using h

theorem plays_insert_ne (ha : a ≠ sid) :
    Plays (sessions.insert sid s) ended a role o ↔ Plays sessions ended a role o := by
  cases role <;> simp only [Plays,AList.lookup_insert_ne ha]

theorem plays_append {q : Nat × OwnerID} (h : Plays sessions (ended ++ [q]) a role o) :
    Plays sessions ended a role o ∨ (role = .ended ∧ (a,o) = q) := by
  cases role with
  | ended => simpa [Plays,List.mem_append] using h
  | _ => exact .inl h

theorem plays_erase (h : Plays (sessions.erase sid) ended a role o) :
    Plays sessions ended a role o := by
  by_cases ha : a = sid
  · subst ha
    cases role with
    | ended => exact h
    | _ => obtain ⟨s',hs,_⟩ := h; simp at hs
  · cases role <;> simpa only [Plays,AList.lookup_erase_ne ha] using h

theorem plays_erase_ne (ha : a ≠ sid) (h : Plays sessions ended a role o) :
    Plays (sessions.erase sid) ended a role o := by
  cases role <;> simpa only [Plays,AList.lookup_erase_ne ha] using h

end Plays

section Shrink

variable {st : State} {g : Log} {v w : Row}

structure Row.Shrinks (w v : Row) : Prop where
  tidy : v.tidy
  bare : v.bare = w.bare
  dialog : 0 < v.dialogs → 0 < w.dialogs ∧ v.dialog = w.dialog
  update : 0 < v.updates → 0 < w.updates ∧ v.update = w.update

theorem RowOk.shrink (h : RowOk st g w) (hs : w.Shrinks v) : RowOk st g v := by
  have hsid := bare_session hs.bare
  refine ⟨hs.tidy,?_,?_,hsid ▸ h.known⟩
  · intro hd
    obtain ⟨hw,he⟩ := hs.dialog hd
    rw [hsid,he]
    exact h.dialog hw
  · intro hu
    obtain ⟨hw,he⟩ := hs.update hu
    rw [hsid,he]
    exact h.update hw

theorem swept_shrinks {u : Row} (h : u.swept = some v) (hb : u.bare = w.bare)
    (hd : u.dialog = w.dialog) (hu : u.update = w.update)
    (hds : u.dialogs ≤ w.dialogs) (hus : u.updates ≤ w.updates) : w.Shrinks v := by
  obtain ⟨ht,hb',hd',hu',hdo,huo⟩ := swept_eq_some h
  refine ⟨ht,hb'.trans hb,?_,?_⟩
  · intro hv
    exact ⟨by omega,(hdo (by omega)).trans hd⟩
  · intro hv
    exact ⟨by omega,(huo (by omega)).trans hu⟩

theorem releaseRow_shrinks {s : Session} {sid : Nat} (h : (s.releaseRow sid w).swept = some v) :
    w.Shrinks v := by
  refine swept_shrinks h (releaseRow_bare w) ?_ ?_ ?_ ?_ <;> unfold Session.releaseRow <;>
    split_ifs <;> simp

theorem releaseUpdateRow_shrinks {sid : Nat} {o : OwnerID}
    (h : (releaseUpdateRow sid o w).swept = some v) : w.Shrinks v := by
  refine swept_shrinks h (releaseUpdateRow_bare o w) ?_ ?_ ?_ ?_ <;> unfold releaseUpdateRow <;>
    split_ifs <;> simp

theorem drop_shrinks {s : Session} {scope : Int} (h : (s.drop scope w).1.swept = some v) :
    w.Shrinks v := by
  refine swept_shrinks h rfl rfl rfl ?_ ?_ <;> simp only [Session.drop] <;> split_ifs <;> omega

theorem tidy_shrinks (h : w.tidy) : w.Shrinks w :=
  ⟨h,rfl,fun hd => ⟨hd,rfl⟩,fun hu => ⟨hu,rfl⟩⟩

end Shrink

section Step

variable {st : State} {g : Log} {sid : Nat}

@[simp] theorem sweep_rows (st : State) : st.sweep.rows = st.rows.filterMap Row.swept := rfl

theorem filterMap_swept_of_tidy {rows : List Row} (h : ∀ w ∈ rows,w.tidy) :
    rows.filterMap Row.swept = rows := by
  induction rows with
  | nil => rfl
  | cons w ws ih =>
    rw [List.forall_mem_cons] at h
    rw [List.filterMap_cons_some (swept_of_tidy h.1),ih h.2]

theorem Inv.tidy (h : Inv st g) : ∀ w ∈ st.rows,w.tidy := fun w hw => (h.rows w hw).tidy

theorem Inv.replace_rows (h : Inv st g) {rows : List Row} (hrows : ∀ w ∈ rows,RowOk st g w) :
    Inv { st with rows := rows } g :=
  ⟨fun w hw => ⟨(hrows w hw).tidy,(hrows w hw).dialog,(hrows w hw).update,(hrows w hw).known⟩,
    h.unique,h.issued,h.filled,h.pending,h.opened,h.closed⟩

theorem Inv.shrink (h : Inv st g) {rows : List Row}
    (hrows : ∀ v ∈ rows,∃ w ∈ st.rows,w.Shrinks v) : Inv { st with rows := rows } g := by
  apply h.replace_rows
  intro v hv
  obtain ⟨w,hw,hs⟩ := hrows v hv
  exact (h.rows w hw).shrink hs

theorem Inv.owner_session (h : Inv st g) {s : Session} (hs : st.sessions.lookup sid = some s)
    {w : Row} (hw : w ∈ st.rows) (ho : s.owns w) : w.session = sid := by
  have hok := h.rows w hw
  have hpd : Plays st.sessions g.ended sid .dialog s.dialog := ⟨s,hs,rfl⟩
  have hpu : Plays st.sessions g.ended sid .update s.update := ⟨s,hs,rfl⟩
  rcases ho with ⟨hd,he⟩ | ⟨hu,he⟩
  · exact (h.unique _ _ _ _ _ (hok.dialog hd) (he ▸ hpd)).1
  · rcases hok.update hu with hp | hp
    · exact (h.unique _ _ _ _ _ hp (he ▸ hpu)).1
    · have hend : Plays st.sessions g.ended w.session .ended w.update := h.pending _ hp
      exact (h.unique _ _ _ _ _ hend (he ▸ hpu)).1

end Step

end OpenSteamgate.Enq
