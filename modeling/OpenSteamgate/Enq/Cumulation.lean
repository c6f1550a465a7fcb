import Mathlib
import OpenSteamgate.Enq.Accounting

namespace OpenSteamgate.Enq

variable {st : State} {g : Log} {sid : Nat} {s : Session} {r : Request} {now : Time}

def Row.key (w : Row) : String × String × String × String := (w.client,w.table,w.arg,w.mode)

def Request.key (r : Request) : String × String × String × String :=
  (r.client,r.table,garg r.client r.fields,r.mode)

def Session.hasDialog (s : Session) (w : Row) : Prop := 0 < w.dialogs ∧ w.dialog = s.dialog

def Session.hasUpdate (s : Session) (w : Row) : Prop := 0 < w.updates ∧ w.update = s.update

instance (w : Row) : Decidable (s.hasDialog w) := inferInstanceAs (Decidable (_ ∧ _))

instance (w : Row) : Decidable (s.hasUpdate w) := inferInstanceAs (Decidable (_ ∧ _))

theorem holds_iff {w : Row} : s.holds r (garg r.client r.fields) w ↔
    (s.hasDialog w ∨ s.hasUpdate w) ∧ w.key = r.key := by
  simp [Session.holds,Session.owns,Session.hasDialog,Session.hasUpdate,Row.key,Request.key]

theorem bare_key {v w : Row} (h : v.bare = w.bare) : v.key = w.key := by
  obtain ⟨h1,h2,-,h4,h5,-⟩ := bare_eq_iff.mp h
  simp [Row.key,h1,h2,h4,h5]

theorem released_iff {w : Row} : (s.drop (scopeOf r) w).2 = true ↔
    (scopeOf r ≠ 2 ∧ s.hasDialog w) ∨ (scopeOf r ≠ 1 ∧ s.hasUpdate w) := by
  rcases scope_cases r with h | h | h <;>
    simp [Session.drop,Session.hasDialog,Session.hasUpdate,h]

def Row.dialogWeight (key : String × String × String × String) (owner : OwnerID) (w : Row) : Nat :=
  if w.key = key ∧ w.dialog = owner then w.dialogs else 0

def Row.updateWeight (key : String × String × String × String) (owner : OwnerID) (w : Row) : Nat :=
  if w.key = key ∧ w.update = owner then w.updates else 0

def heldDialogs (rows : List Row) (key : String × String × String × String) (owner : OwnerID) : Nat :=
  (rows.map (Row.dialogWeight key owner)).sum

def heldUpdates (rows : List Row) (key : String × String × String × String) (owner : OwnerID) : Nat :=
  (rows.map (Row.updateWeight key owner)).sum

theorem dialogWeight_swept (key : String × String × String × String) (owner : OwnerID) (w : Row) :
    (w.swept.toList.map (Row.dialogWeight key owner)).sum = w.dialogWeight key owner := by
  cases h : w.swept with
  | none => simp [Row.dialogWeight,(swept_eq_none h).1]
  | some v =>
    obtain ⟨-,hb,hd,-,ho,-⟩ := swept_eq_some h
    by_cases h0 : w.dialogs = 0
    · simp [Row.dialogWeight,hd,h0]
    · simp [Row.dialogWeight,hd,ho (Nat.pos_of_ne_zero h0),bare_key hb]

theorem updateWeight_swept (key : String × String × String × String) (owner : OwnerID) (w : Row) :
    (w.swept.toList.map (Row.updateWeight key owner)).sum = w.updateWeight key owner := by
  cases h : w.swept with
  | none => simp [Row.updateWeight,(swept_eq_none h).2]
  | some v =>
    obtain ⟨-,hb,-,hu,-,ho⟩ := swept_eq_some h
    by_cases h0 : w.updates = 0
    · simp [Row.updateWeight,hu,h0]
    · simp [Row.updateWeight,hu,ho (Nat.pos_of_ne_zero h0),bare_key hb]

theorem drop_halves (s : Session) (r : Request) (w : Row) :
    (s.drop (scopeOf r) w).1.key = w.key ∧ (s.drop (scopeOf r) w).1.dialog = w.dialog ∧
      (s.drop (scopeOf r) w).1.update = w.update ∧ (s.drop (scopeOf r) w).1.dialogs =
        w.dialogs - (if scopeOf r ≠ 2 ∧ s.hasDialog w then 1 else 0) ∧ (s.drop (scopeOf r) w).1.updates =
        w.updates - (if scopeOf r ≠ 1 ∧ s.hasUpdate w then 1 else 0) := by
  refine ⟨rfl,rfl,rfl,?_,?_⟩ <;> rcases scope_cases r with h | h | h <;>
    simp only [Session.drop,Session.hasDialog,Session.hasUpdate,h] <;> simp <;> split_ifs <;> rfl

theorem take_halves (s : Session) (r : Request) (w : Row) :
    (s.take (scopeOf r) w).key = w.key ∧
      (s.take (scopeOf r) w).dialog = (if scopeOf r ≠ 2 then s.dialog else w.dialog) ∧
      (s.take (scopeOf r) w).update = (if scopeOf r ≠ 1 then s.update else w.update) ∧
      (s.take (scopeOf r) w).dialogs = w.dialogs + (if scopeOf r ≠ 2 then 1 else 0) ∧
      (s.take (scopeOf r) w).updates = w.updates + (if scopeOf r ≠ 1 then 1 else 0) := by
  refine ⟨bare_key (take_bare _ w),?_,?_,?_,?_⟩ <;> rcases scope_cases r with h | h | h <;>
    simp [Session.take,h]

theorem dialogWeight_drop (s : Session) (r : Request) {w : Row}
    (key : String × String × String × String) (hw : w.key = r.key) :
    w.dialogWeight key s.dialog = (s.drop (scopeOf r) w).1.dialogWeight key s.dialog +
      (if key = r.key ∧ scopeOf r ≠ 2 ∧ s.hasDialog w then 1 else 0) := by
  obtain ⟨hk,hd,-,hds,-⟩ := drop_halves s r w
  simp only [Row.dialogWeight,hk,hd,hds,hw]
  by_cases ho : r.key = key ∧ w.dialog = s.dialog
  · by_cases hc : scopeOf r ≠ 2 ∧ s.hasDialog w
    · have := hc.2.1
      rw [if_pos ho,if_pos ho,if_pos hc,if_pos ⟨ho.1.symm,hc⟩]
      omega
    · rw [if_pos ho,if_pos ho,if_neg hc,if_neg fun h => hc h.2]
      omega
  · rw [if_neg ho,if_neg ho,if_neg fun h => ho ⟨h.1.symm,h.2.2.2⟩]

theorem updateWeight_drop (s : Session) (r : Request) {w : Row}
    (key : String × String × String × String) (o : OwnerID) (hw : w.key = r.key) :
    w.updateWeight key o = (s.drop (scopeOf r) w).1.updateWeight key o +
      (if key = r.key ∧ o = s.update ∧ scopeOf r ≠ 1 ∧ s.hasUpdate w then 1 else 0) := by
  obtain ⟨hk,-,hu,-,hus⟩ := drop_halves s r w
  simp only [Row.updateWeight,hk,hu,hus,hw]
  by_cases ho : r.key = key ∧ w.update = o
  · by_cases hc : scopeOf r ≠ 1 ∧ s.hasUpdate w
    · have := hc.2.1
      rw [if_pos ho,if_pos ho,if_pos hc,if_pos ⟨ho.1.symm,ho.2.symm.trans hc.2.2,hc⟩]
      omega
    · rw [if_pos ho,if_pos ho,if_neg hc,if_neg fun h => hc h.2.2]
      omega
  · rw [if_neg ho,if_neg ho,if_neg fun h => ho ⟨h.1.symm,h.2.2.2.2.trans h.2.1.symm⟩]

theorem dialogWeight_take (s : Session) (r : Request) {w : Row}
    (key : String × String × String × String) (hw : w.key = r.key)
    (hd : 0 < w.dialogs → w.dialog = s.dialog) :
    (s.take (scopeOf r) w).dialogWeight key s.dialog =
      w.dialogWeight key s.dialog + (if key = r.key ∧ scopeOf r ≠ 2 then 1 else 0) := by
  obtain ⟨hk,hd',-,hds,-⟩ := take_halves s r w
  simp only [Row.dialogWeight,hk,hd',hds,hw,eq_comm (a := key)]
  by_cases hkey : r.key = key
  · by_cases h0 : w.dialogs = 0
    · by_cases h2 : scopeOf r = 2 <;> simp [hkey,h2,h0]
    · by_cases h2 : scopeOf r = 2 <;> simp [hkey,h2,hd (Nat.pos_of_ne_zero h0)]
  · simp [hkey]

theorem updateWeight_take (s : Session) (r : Request) {w : Row}
    (key : String × String × String × String) (o : OwnerID) (hw : w.key = r.key)
    (hu : 0 < w.updates → w.update = s.update) :
    (s.take (scopeOf r) w).updateWeight key o =
      w.updateWeight key o + (if key = r.key ∧ o = s.update ∧ scopeOf r ≠ 1 then 1 else 0) := by
  obtain ⟨hk,-,hu',-,hus⟩ := take_halves s r w
  simp only [Row.updateWeight,hk,hu',hus,hw,eq_comm (a := key),eq_comm (a := o)]
  by_cases hkey : r.key = key
  · by_cases h1 : scopeOf r = 1
    · simp [hkey,h1]
    · by_cases h0 : w.updates = 0
      · simp [hkey,h1,h0]
      · rw [hu (Nat.pos_of_ne_zero h0)]
        by_cases ho : s.update = o <;> simp [hkey,h1,ho]
  · simp [hkey]

theorem Inv.own_halves (h : Inv st g) (hs : st.sessions.lookup sid = some s) {w : Row}
    (hw : w ∈ st.rows) (hsid : w.session = sid) : 0 < w.dialogs → w.dialog = s.dialog := by
  intro hd
  obtain ⟨s',hs',he⟩ := (h.rows w hw).dialog hd
  rw [hsid,hs,Option.some.injEq] at hs'
  rw [← he,hs']

structure Taken (st : State) (sid : Nat) (s : Session) (r : Request) (now : Time)
    (pre : List Row) (u : Row) (post : List Row) : Prop where
  rows : (st.enqueue sid r now).1.rows = pre ++ s.take (scopeOf r) u :: post
  sessions : (st.enqueue sid r now).1.sessions = st.sessions
  key : u.key = r.key
  dialog : 0 < u.dialogs → u.dialog = s.dialog
  update : 0 < u.updates → u.update = s.update
  source : (st.rows = pre ++ u :: post ∧ s.merges r (garg r.client r.fields) u ∧
      ∀ w ∈ post, ¬s.merges r (garg r.client r.fields) w) ∨
    (st.rows = pre ∧ post = [] ∧ u.dialogs = 0 ∧ u.updates = 0 ∧
      ∀ w ∈ pre, ¬s.merges r (garg r.client r.fields) w)

theorem granted_taken (h : Inv st g) (hs : st.sessions.lookup sid = some s)
    (h0 : (st.enqueue sid r now).2.subrc = 0) : ∃ pre u post,Taken st sid s r now pre u post := by
  have hc := enqueue_cases st sid r now
  generalize hst : (st.enqueue sid r now).1 = st' at hc
  generalize (st.enqueue sid r now).2 = res at hc h0
  cases hc with
  | unknown hs => simp at h0
  | refused s pre w post e hs hrows hw hpre => simp [refusal_subrc hw] at h0
  | fresh s' hs' hno hnm =>
    obtain rfl : s = s' := by rw [hs] at hs'; exact Option.some.inj hs'
    exact ⟨st.rows,_,[],by rw [hst],by rw [hst],rfl,by simp [Session.newRow],
      by simp [Session.newRow],.inr ⟨rfl,rfl,rfl,rfl,hnm⟩⟩
  | merged s' pre w post hs' hrows hno hm hpost =>
    obtain rfl : s = s' := by rw [hs] at hs'; exact Option.some.inj hs'
    have hw : w ∈ st.rows := hrows ▸ by simp
    exact ⟨pre,w,post,by rw [hst],by rw [hst],((holds_iff).mp hm.1).2,
      h.own_halves hs hw (h.owner_session hs hw hm.1.1),fun hu => hm.2.resolve_left (by omega),
      .inl ⟨hrows,hm,hpost⟩⟩

theorem Taken.holds {pre post : List Row} {u : Row} (h : Taken st sid s r now pre u post) :
    s.holds r (garg r.client r.fields) (s.take (scopeOf r) u) ∧
      (s.drop (scopeOf r) (s.take (scopeOf r) u)).2 = true := by
  obtain ⟨hk,hd,hu,hds,hus⟩ := take_halves s r u
  have hdialog : scopeOf r ≠ 2 → s.hasDialog (s.take (scopeOf r) u) :=
    fun h2 => ⟨by rw [hds,if_pos h2]; omega,by rw [hd,if_pos h2]⟩
  have hupdate : scopeOf r ≠ 1 → s.hasUpdate (s.take (scopeOf r) u) :=
    fun h1 => ⟨by rw [hus,if_pos h1]; omega,by rw [hu,if_pos h1]⟩
  rw [holds_iff,released_iff,hk]
  rcases scope_cases r with hc | hc | hc
  · have hd' := hdialog (by omega)
    exact ⟨⟨.inl hd',h.key⟩,.inl ⟨by omega,hd'⟩⟩
  · have hu' := hupdate (by omega)
    exact ⟨⟨.inr hu',h.key⟩,.inr ⟨by omega,hu'⟩⟩
  · have hd' := hdialog (by omega)
    exact ⟨⟨.inl hd',h.key⟩,.inl ⟨by omega,hd'⟩⟩

theorem Taken.total {pre post : List Row} {u : Row} (h : Taken st sid s r now pre u post)
    (f : Row → Nat) (hf : u.dialogs = 0 → u.updates = 0 → f u = 0) :
    ((st.enqueue sid r now).1.rows.map f).sum + f u =
      (st.rows.map f).sum + f (s.take (scopeOf r) u) := by
  rw [h.rows]
  rcases h.source with ⟨hrows,-⟩ | ⟨hrows,hpost,hd,hu,-⟩
  · rw [hrows]
    simp only [List.map_append,List.map_cons,List.sum_append,List.sum_cons]
    omega
  · rw [hrows,hpost,hf hd hu]
    simp

def Session.pairs (s : Session) (r : Request) : List Row → Prop
  | [] => True
  | w :: rest => (s.hasDialog w ∧ s.hasUpdate w) ∨
      (s.merges r (garg r.client r.fields) w ∧
        ∀ v ∈ rest, ¬s.merges r (garg r.client r.fields) v)

instance : (rows : List Row) → Decidable (s.pairs r rows)
  | [] => inferInstanceAs (Decidable True)
  | _ :: _ => inferInstanceAs (Decidable (_ ∨ _))

def Session.undoable (s : Session) (r : Request) (rows : List Row) : Prop :=
  scopeOf r ≠ 3 ∨
    s.pairs r (rows.dropWhile fun w => !decide (s.holds r (garg r.client r.fields) w))

instance (rows : List Row) : Decidable (s.undoable r rows) := inferInstanceAs (Decidable (_ ∨ _))

theorem dropWhile_split {α : Type} (p : α → Bool) (pre : List α) (x : α) (post : List α)
    (hpre : ∀ y ∈ pre,p y = true) (hx : p x = false) :
    (pre ++ x :: post).dropWhile p = x :: post := by
  rw [List.dropWhile_append_of_pos hpre,List.dropWhile_cons_of_neg (by simp [hx])]

structure Restored (before after : List Row) (sid : Nat) (s : Session) : Prop where
  dialogs : ∀ key, heldDialogs after key s.dialog = heldDialogs before key s.dialog
  updates : ∀ key owner, heldUpdates after key owner = heldUpdates before key owner
  others : after.filter (fun w => w.session != sid) = before.filter (fun w => w.session != sid)

theorem Taken.first {pre post : List Row} {u : Row} (ht : Taken st sid s r now pre u post)
    (h3 : scopeOf r = 3) {P Q : List Row} {v : Row}
    (hsplit : (st.enqueue sid r now).1.rows = P ++ v :: Q)
    (hv : s.holds r (garg r.client r.fields) v)
    (hP : ∀ w ∈ P,¬s.holds r (garg r.client r.fields) w) :
    (s.hasDialog v ∧ s.hasUpdate v) ↔ s.undoable r st.rows := by
  have hboth : s.hasDialog (s.take (scopeOf r) u) ∧ s.hasUpdate (s.take (scopeOf r) u) := by
    obtain ⟨-,hd,hu,hds,hus⟩ := take_halves s r u
    rw [if_pos (by omega)] at hd hu hds hus
    exact ⟨⟨by omega,hd⟩,⟨by omega,hu⟩⟩
  have hfirst := dropWhile_split (fun w => !decide (s.holds r (garg r.client r.fields) w)) P v Q
    (by simpa using hP) (by simpa using hv)
  rw [← hsplit,ht.rows] at hfirst
  have hund : s.undoable r st.rows ↔ s.pairs r (st.rows.dropWhile
      fun w => !decide (s.holds r (garg r.client r.fields) w)) := by
    simp [Session.undoable,h3]
  rw [hund]
  -- does a row of the session under this key stand before the row the request took?
  by_cases hpre : ∀ w ∈ pre,¬s.holds r (garg r.client r.fields) w
  · rw [dropWhile_split _ pre _ post (by simpa using hpre) (by simpa using ht.holds.1)] at hfirst
    obtain ⟨rfl,-⟩ := List.cons.inj hfirst
    refine iff_of_true hboth ?_
    rcases ht.source with ⟨hrows,hm,hpost⟩ | ⟨hrows,-⟩
    · rw [hrows,dropWhile_split _ pre _ post (by simpa using hpre) (by simpa using hm.1)]
      exact .inr ⟨hm,hpost⟩
    · rw [hrows,List.dropWhile_eq_nil_iff.mpr (by simpa using hpre)]
      trivial
  · push Not at hpre
    obtain ⟨w,hw,hh⟩ := hpre
    obtain ⟨A,f,B,hA,hf,hAB⟩ : ∃ A f B,(∀ w ∈ A,¬s.holds r (garg r.client r.fields) w) ∧
        s.holds r (garg r.client r.fields) f ∧ pre = A ++ f :: B := by
      clear hfirst ht
      induction pre with
      | nil => simp at hw
      | cons x pre ih =>
        by_cases hx : s.holds r (garg r.client r.fields) x
        · exact ⟨[],x,pre,by simp,hx,rfl⟩
        · have hwx : w ∈ pre := by
            rcases List.mem_cons.mp hw with rfl | hw
            · exact (hx hh).elim
            · exact hw
          obtain ⟨A,f,B,hA,hf,rfl⟩ := ih hwx
          exact ⟨x :: A,f,B,by simpa [hx] using hA,hf,rfl⟩
    have hdrop : ∀ rest,(A ++ f :: rest).dropWhile
        (fun w => !decide (s.holds r (garg r.client r.fields) w)) = f :: rest :=
      fun rest => dropWhile_split _ A f rest (by simpa using hA) (by simpa using hf)
    rw [hAB,List.append_assoc,List.cons_append,hdrop] at hfirst
    obtain ⟨rfl,-⟩ := List.cons.inj hfirst
    rcases ht.source with ⟨hrows,hm,hpost⟩ | ⟨hrows,-,-,-,hno⟩
    · rw [hrows,hAB,List.append_assoc,List.cons_append,hdrop]
      refine ⟨.inl,?_⟩
      rintro (hb | ⟨-,hrest⟩)
      · exact hb
      · exact (hrest u (by simp) hm).elim
    · rw [hrows,hAB,hdrop]
      refine ⟨.inl,?_⟩
      rintro (hb | ⟨hm,-⟩)
      · exact hb
      · exact (hno f (by simp [hAB]) hm).elim

theorem Restored.iff_halves (h : Inv st g)
    {pre post : List Row} {u : Row} (ht : Taken st sid s r now pre u post) {P Q : List Row} {v : Row}
    (hsplit : (st.enqueue sid r now).1.rows = P ++ v :: Q) (hv : v.key = r.key)
    (heq : ((st.enqueue sid r now).1.dequeue sid r).rows =
      P ++ ((s.drop (scopeOf r) v).1.swept.toList ++ Q)) :
    Restored st.rows ((st.enqueue sid r now).1.dequeue sid r).rows sid s ↔
      (scopeOf r ≠ 2 → s.hasDialog v) ∧ (scopeOf r ≠ 1 → s.hasUpdate v) := by
  -- one balance for every weight: what the take added and what the drop removed
  have hsum : ∀ f : Row → Nat,(u.dialogs = 0 → u.updates = 0 → f u = 0) →
      (((s.drop (scopeOf r) v).1.swept.toList.map f).sum = f (s.drop (scopeOf r) v).1) →
      (((st.enqueue sid r now).1.dequeue sid r).rows.map f).sum + f v + f u =
        (st.rows.map f).sum + f (s.take (scopeOf r) u) + f (s.drop (scopeOf r) v).1 := by
    intro f hf hsw
    have ht1 := ht.total f hf
    rw [hsplit] at ht1
    rw [heq]
    simp only [List.map_append,List.map_cons,List.sum_append,List.sum_cons,hsw] at ht1 ⊢
    omega
  have hdial : ∀ key,heldDialogs ((st.enqueue sid r now).1.dequeue sid r).rows key s.dialog +
      (if key = r.key ∧ scopeOf r ≠ 2 ∧ s.hasDialog v then 1 else 0) =
      heldDialogs st.rows key s.dialog + (if key = r.key ∧ scopeOf r ≠ 2 then 1 else 0) := by
    intro key
    have := hsum (Row.dialogWeight key s.dialog) (by simp +contextual [Row.dialogWeight])
      (dialogWeight_swept _ _ _)
    rw [dialogWeight_drop s r key hv,dialogWeight_take s r key ht.key ht.dialog] at this
    unfold heldDialogs
    omega
  have hupd : ∀ key o,heldUpdates ((st.enqueue sid r now).1.dequeue sid r).rows key o +
      (if key = r.key ∧ o = s.update ∧ scopeOf r ≠ 1 ∧ s.hasUpdate v then 1 else 0) =
      heldUpdates st.rows key o +
        (if key = r.key ∧ o = s.update ∧ scopeOf r ≠ 1 then 1 else 0) := by
    intro key o
    have := hsum (Row.updateWeight key o) (by simp +contextual [Row.updateWeight])
      (updateWeight_swept _ _ _)
    rw [updateWeight_drop s r key o hv,updateWeight_take s r key o ht.key ht.update] at this
    unfold heldUpdates
    omega
  constructor
  · intro hr
    have h1 := hdial r.key
    have h2 := hupd r.key s.update
    rw [hr.dialogs] at h1
    rw [hr.updates] at h2
    refine ⟨fun hc => ?_,fun hc => ?_⟩
    · by_contra hn
      simp [hc,hn] at h1
    · by_contra hn
      simp [hc,hn] at h2
  · rintro ⟨h2,h1⟩
    refine ⟨fun key => ?_,fun key o => ?_,?_⟩
    · have := hdial key
      have hiff : (key = r.key ∧ scopeOf r ≠ 2 ∧ s.hasDialog v) ↔ (key = r.key ∧ scopeOf r ≠ 2) := by tauto
      simpa only [hiff,Nat.add_right_cancel_iff] using this
    · have := hupd key o
      have hiff : (key = r.key ∧ o = s.update ∧ scopeOf r ≠ 1 ∧ s.hasUpdate v) ↔
          (key = r.key ∧ o = s.update ∧ scopeOf r ≠ 1) := by tauto
      simpa only [hiff,Nat.add_right_cancel_iff] using this
    · have he : (Op.enqueue sid r now).caller = some sid := rfl
      have hq : (Op.dequeue sid r).caller = some sid := rfl
      exact (step_others (h.enqueue_step sid r now) hq).trans (step_others h he)

theorem dequeue_undoes_enqueue_iff (instanceName : String) (ops : List Op)
    (hd : (history instanceName ops).2.issued.Nodup) (sid : Nat) (s : Session)
    (hs : (history instanceName ops).1.sessions.lookup sid = some s) (r : Request) (now : Time)
    (h0 : ((history instanceName ops).1.enqueue sid r now).2.subrc = 0) :
    Restored (history instanceName ops).1.rows
        (((history instanceName ops).1.enqueue sid r now).1.dequeue sid r).rows sid s ↔
      s.undoable r (history instanceName ops).1.rows := by
  have h := history_inv instanceName ops hd
  generalize (history instanceName ops).1 = st at *
  generalize (history instanceName ops).2 = g at *
  obtain ⟨pre,u,post,ht⟩ := granted_taken h hs h0
  have h1 := h.enqueue_step sid r now
  have hs1 : (st.enqueue sid r now).1.sessions.lookup sid = some s := by rw [ht.sessions,hs]
  rcases dequeue_rows h1 hs1 r with ⟨-,hno⟩ | ⟨P,v,Q,hsplit,hv,hrel,hP,heq⟩
  · exact (hno _ (by rw [ht.rows]; simp) ht.holds).elim
  rw [Restored.iff_halves h ht hsplit (holds_iff.mp hv).2 heq]
  rw [released_iff] at hrel
  rcases scope_cases r with hc | hc | hc
  · have hv1 : s.hasDialog v := by simpa [hc] using hrel
    exact iff_of_true ⟨fun _ => hv1,fun hne => (hne hc).elim⟩ (.inl (by omega))
  · have hv2 : s.hasUpdate v := by simpa [hc] using hrel
    exact iff_of_true ⟨fun hne => (hne hc).elim,fun _ => hv2⟩ (.inl (by omega))
  · have hP' : ∀ w ∈ P, ¬s.holds r (garg r.client r.fields) w := by
      intro w hw hh
      refine hP w hw ⟨hh,released_iff.mpr ?_⟩
      simpa [hc] using (holds_iff.mp hh).1
    rw [← ht.first hc hsplit hv hP']
    simp [hc]

def pendingUpdate : List Op :=
  [.openSession "ANNA" noon noon,.enqueue 1 (lockOf "S" 3 "LH") noon,.commit 1 true noon]

def anna (ops : List Op) : Session :=
  ((history "srv" ops).1.sessions.lookup 1).getD ⟨"",[],[]⟩

theorem dequeue_undoes_enqueue_twoReaders :
    Restored (history "srv" twoReaders).1.rows
      (((history "srv" twoReaders).1.enqueue 1 (lockOf "S" 3 "LH") noon).1.dequeue 1
        (lockOf "S" 3 "LH")).rows 1 (anna twoReaders) :=
  (dequeue_undoes_enqueue_iff "srv" twoReaders (by decide) 1 (anna twoReaders) (by decide)
    (lockOf "S" 3 "LH") noon (by decide)).mpr (by decide)

theorem dequeue_leaves_update_half :
    ¬∀ instanceName ops, (history instanceName ops).2.issued.Nodup →
      ∀ sid s, (history instanceName ops).1.sessions.lookup sid = some s → ∀ r now,
        ((history instanceName ops).1.enqueue sid r now).2.subrc = 0 →
        Restored (history instanceName ops).1.rows
          (((history instanceName ops).1.enqueue sid r now).1.dequeue sid r).rows sid s := by
  intro h
  have hr := h "srv" pendingUpdate (by decide) 1 (anna pendingUpdate) (by decide)
    (lockOf "S" 3 "LH") noon (by decide)
  exact absurd (hr.updates (lockOf "S" 3 "LH").key (anna pendingUpdate).update) (by decide)

end OpenSteamgate.Enq
