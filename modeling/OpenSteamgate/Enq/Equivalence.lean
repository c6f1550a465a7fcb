import Mathlib.Data.List.GetD
import OpenSteamgate.Enq.Isolation
import OpenSteamgate.Enq.Js

namespace OpenSteamgate.Enq

section Arguments

theorem getD_append_blanks (cs : List Char) (n i : Nat) :
    (cs ++ List.replicate n ' ').getD i ' ' = cs.getD i ' ' := by
  simp only [List.getD_eq_getElem?_getD]
  by_cases hi : i < cs.length
  · rw [List.getElem?_append_left hi]
  · rw [List.getElem?_append_right (by omega),List.getElem?_replicate,
      List.getElem?_eq_none (Nat.le_of_not_lt hi)]
    split_ifs <;> rfl

theorem getD_trimEnd (cs : List Char) (i : Nat) :
    (Js.trimEnd cs).getD i ' ' = cs.getD i ' ' := by
  have hblank : cs.rtakeWhile (· == ' ') =
      List.replicate (cs.rtakeWhile (· == ' ')).length ' ' := by
    rw [List.eq_replicate_iff]
    refine ⟨rfl,fun c hc => ?_⟩
    simpa using List.mem_rtakeWhile_imp hc
  have hsplit : cs.rdropWhile (· == ' ') ++ cs.rtakeWhile (· == ' ') = cs :=
    List.rdropWhile_append_rtakeWhile
  rw [hblank] at hsplit
  conv_rhs => rw [← hsplit]
  rw [getD_append_blanks,Js.trimEnd]

theorem trimEnd_length_le {a b : List Char}
    (h : ∀ i,(Js.trimEnd a).getD i ' ' = (Js.trimEnd b).getD i ' ') :
    (Js.trimEnd a).length ≤ (Js.trimEnd b).length := by
  by_contra hlt
  have hne : Js.trimEnd a ≠ [] := by
    intro hnil
    simp [hnil] at hlt
  have hlast := List.rdropWhile_last_not (· == ' ') a hne
  have hpos := h ((Js.trimEnd a).length - 1)
  rw [List.getD_eq_getElem _ _ (by have := List.length_pos_of_ne_nil hne; omega),
    List.getD_eq_default _ _ (by omega)] at hpos
  have hend : (Js.trimEnd a).getLast hne = ' ' := by rw [List.getLast_eq_getElem,hpos]
  exact hlast (beq_iff_eq.mpr hend)

theorem trimEnd_eq_iff (a b : List Char) :
    Js.trimEnd a = Js.trimEnd b ↔ ∀ i,a.getD i ' ' = b.getD i ' ' := by
  constructor
  · intro h i
    rw [← getD_trimEnd a,h,getD_trimEnd]
  · intro h
    have ht : ∀ i,(Js.trimEnd a).getD i ' ' = (Js.trimEnd b).getD i ' ' := by
      intro i
      rw [getD_trimEnd,getD_trimEnd,h]
    have hlen := Nat.le_antisymm (trimEnd_length_le ht) (trimEnd_length_le fun i => (ht i).symm)
    refine List.ext_getElem hlen fun i ha hb => ?_
    have hi := ht i
    rwa [List.getD_eq_getElem _ _ ha,List.getD_eq_getElem _ _ hb] at hi

theorem collide_agrees (a b : String) : Js.collide a b = collide a b := by
  unfold Js.collide
  split_ifs with hplain
  · -- without a generic position the loop compares blank-padded characters
    rw [Bool.eq_iff_iff,collide_iff,beq_iff_eq,trimEnd_eq_iff]
    simp only [Bool.and_eq_true,Bool.not_eq_true',List.contains_eq_mem,decide_eq_false_iff_not]
      at hplain
    have hne : ∀ (cs : List Char) (i : Nat),'\uffff' ∉ cs → cs.getD i ' ' ≠ '\uffff' := by
      intro cs i hcs hi
      by_cases hlt : i < cs.length
      · rw [List.getD_eq_getElem _ _ hlt] at hi
        exact hcs (hi ▸ List.getElem_mem hlt)
      · rw [List.getD_eq_default _ _ (Nat.le_of_not_lt hlt)] at hi
        exact absurd hi (by decide)
    constructor
    · exact fun h i => .inl (h i)
    · exact fun h i => ((h i).resolve_right fun hc => hc.elim (hne _ i hplain.1) (hne _ i hplain.2))
  · rfl

end Arguments

def Js.Field.args (f : Js.Field) : Enq.Field := ⟨f.value.getD "",f.generic,f.length⟩

def Js.Request.args (r : Js.Request) : Enq.Request :=
  ⟨r.client,r.table,r.object,r.fields.map Js.Field.args,r.mode,r.scope.getD 0⟩

theorem text_agrees (f : Js.Field) : f.text = f.args.runes := by
  have hpad : ∀ v : List Char,v ++ List.replicate (f.length - v.length) ' ' =
      if v.length < f.length then v ++ List.replicate (f.length - v.length) ' ' else v := by
    intro v
    split_ifs with h
    · rfl
    · simp [Nat.sub_eq_zero_of_le (Nat.le_of_not_lt h)]
  unfold Js.Field.text Field.runes
  rw [hpad]
  rfl

theorem garg_agrees (r : Js.Request) :
    Js.garg r.client r.fields = garg r.args.client r.args.fields := by
  have hfold : ∀ (fs : List Js.Field) (out : List Char),
      fs.foldl (fun out f => out ++ f.text) out = out ++ (fs.map Js.Field.args).flatMap Field.runes := by
    intro fs
    induction fs with
    | nil => simp
    | cons f fs ih =>
      intro out
      rw [List.foldl_cons,ih,text_agrees,List.map_cons,List.flatMap_cons,List.append_assoc]
  rw [Js.garg,hfold]
  rfl

theorem scopeOf_agrees (r : Js.Request) : Js.scopeOf r = scopeOf r.args := rfl

def refused (e : Result) : Js.Result := ⟨e.subrc,some e.msgno,some e.holder⟩

structure Corresponds (ρ : OwnerID → Js.OwnerId → Prop) : Prop where
  blank : ρ [] []
  unique : ∀ a b a' b', ρ a b → ρ a' b' → (a = a' ↔ b = b')

section Same

variable (ρ : OwnerID → Js.OwnerId → Prop) (κ : Time → Js.Date → Prop)

structure SameRow (v : Row) (w : Js.Row) : Prop where
  client : w.client = v.client
  table : w.table = v.table
  object : w.object = v.object
  arg : w.arg = v.arg
  mode : w.mode = v.mode
  user : w.user = v.user
  dialog : ρ v.dialog w.dialog
  update : ρ v.update w.update
  dialogs : w.dialogs = v.dialogs
  updates : w.updates = v.updates
  taken : κ v.taken w.taken
  session : w.session = v.session

structure SameSession (s : Session) (s' : Js.Session) : Prop where
  user : s'.user = s.user
  dialog : ρ s.dialog s'.dialog
  update : ρ s.update s'.update
  filled : s.update ≠ []

structure Same (st : State) (srv : Js.LockServer) : Prop where
  rows : List.Forall₂ (SameRow ρ κ) st.rows srv.rows
  sessions : ∀ sid, Option.Rel (SameSession ρ) (st.sessions.lookup sid) (srv.sessions.lookup sid)
  seq : srv.seq = st.seq
  running : srv.closed = false

inductive SameCall : Op → Js.Op → Prop
  | openSession (user : String) {t₁ t₂ : Time} {d₁ d₂ : Js.Date} : κ t₁ d₁ → κ t₂ d₂ →
      SameCall (.openSession user t₁ t₂) (.openSession user d₁ d₂)
  | enqueue (sid : Nat) (r : Js.Request) {t : Time} {d : Js.Date} : κ t d →
      SameCall (.enqueue sid r.args t) (.tryEnqueue sid r d)
  | dequeue (sid : Nat) (r : Js.Request) : SameCall (.dequeue sid r.args) (.dequeue sid r)
  | dequeueAll (sid : Nat) : SameCall (.dequeueAll sid) (.dequeueAll sid)
  | commit (sid : Nat) (updated : Bool) {t : Time} {d : Js.Date} : κ t d →
      SameCall (.commit sid updated t) (.commit sid updated d)
  | updateDone (sid : Nat) {o : OwnerID} {o' : Js.OwnerId} : ρ o o' →
      SameCall (.updateDone sid o) (.updateDone sid o')
  | rollback (sid : Nat) {t : Time} {d : Js.Date} : κ t d →
      SameCall (.rollback sid t) (.rollback sid d)
  | endSession (sid : Nat) : SameCall (.endSession sid) (.endSession sid)
  | updateOwner (sid : Nat) : SameCall (.updateOwner sid) (.updateOwner sid)
  | read (f : Filter) : SameCall (.read f) (.read f)

inductive SameAnswer : Answer → Js.Answer → Prop
  | handle (sid : Nat) : SameAnswer (.handle sid) (.handle sid)
  | result (res : Js.Result) :
      SameAnswer (.result ⟨res.subrc,res.msgno.getD "",res.holder.getD ""⟩) (.result res)
  | owner {o : OwnerID} {o' : Js.OwnerId} : ρ o o' → SameAnswer (.owner o) (.owner o')
  | rows {ws : List Row} {ws' : List Js.Row} : List.Forall₂ (SameRow ρ κ) ws ws' →
      SameAnswer (.rows ws) (.rows ws')
  | done : SameAnswer .done .done

end Same

section Step

variable {ρ : OwnerID → Js.OwnerId → Prop} {κ : Time → Js.Date → Prop} (hρ : Corresponds ρ)
  {st : State} {srv : Js.LockServer} {s : Session} {s' : Js.Session} {sid : Nat} {r : Js.Request}
  {v : Row} {w : Js.Row} {vs : List Row} {ws : List Js.Row}

theorem Same.live (h : Same ρ κ st srv) (sid : Nat) :
    Option.Rel (SameSession ρ) (st.sessions.lookup sid) (srv.live sid) := by
  simpa only [Js.LockServer.live,h.running,Bool.false_eq_true,if_false] using h.sessions sid

include hρ

theorem SameRow.dialog_iff (hw : SameRow ρ κ v w) (hs : SameSession ρ s s') :
    w.dialog = s'.dialog ↔ v.dialog = s.dialog :=
  (hρ.unique _ _ _ _ hw.dialog hs.dialog).symm

theorem SameRow.update_iff (hw : SameRow ρ κ v w) (hs : SameSession ρ s s') :
    w.update = s'.update ↔ v.update = s.update :=
  (hρ.unique _ _ _ _ hw.update hs.update).symm

theorem owns_agrees (hw : SameRow ρ κ v w) (hs : SameSession ρ s s') :
    Js.owns s' w = decide (s.owns v) := by
  rw [Bool.eq_iff_iff,decide_eq_true_iff]
  simp [Js.owns,Session.owns,hw.dialogs,hw.updates,hw.dialog_iff hρ hs,hw.update_iff hρ hs]

theorem tryRows_agrees (hs : SameSession ρ s s') (hws : List.Forall₂ (SameRow ρ κ) vs ws)
    (arg : String) (i : Nat) (same : Option Nat) :
    Js.tryRows s' sid r arg ws i same = (scan s sid r.args arg vs i same).mapError refused := by
  induction hws generalizing i same with
  | nil => rfl
  | @cons v w vs ws hw _ ih =>
    have hother : (w.client != r.client || w.table != r.table || !Js.collide w.arg arg) = true ↔
        v.client ≠ r.args.client ∨ v.table ≠ r.args.table ∨ ¬collide v.arg arg := by
      simp [hw.client,hw.table,hw.arg,collide_agrees,Js.Request.args,or_assoc]
    have hforeign : ((w.session != sid || (decide (0 < w.updates) && w.update != s'.update)) &&
          (!Js.shared w.mode || !Js.shared r.mode)) = true ↔
        (v.session ≠ sid ∨ 0 < v.updates ∧ v.update ≠ s.update) ∧
          (¬shared v.mode ∨ ¬shared r.args.mode) := by
      simp [hw.session,hw.updates,hw.mode,hw.update_iff hρ hs,Js.shared,shared,Js.Request.args]
    have howns : (!Js.owns s' w) = true ↔ ¬s.owns v := by
      simp [owns_agrees hρ hw hs]
    have hexclusive : (w.mode == "X" || r.mode == "X") = true ↔
        v.mode = "X" ∨ r.args.mode = "X" := by
      simp [hw.mode,Js.Request.args]
    have hsame : (w.arg == arg && w.mode == r.mode && (w.updates == 0 || w.update == s'.update)) =
        true ↔ v.arg = arg ∧ v.mode = r.args.mode ∧ (v.updates = 0 ∨ v.update = s.update) := by
      simp [hw.arg,hw.mode,hw.updates,hw.update_iff hρ hs,Js.Request.args,and_assoc]
    simp only [Js.tryRows,scan,hother,hforeign,howns,hexclusive,hsame,hw.user,ih]
    split_ifs <;> rfl

omit hρ in
theorem SameRow.take (hs : SameSession ρ s s') (hw : SameRow ρ κ v w) (scope : Int) :
    SameRow ρ κ (s.take scope v) (s'.take scope w) := by
  unfold Session.take Js.Session.take
  split_ifs <;>
    exact ⟨hw.client,hw.table,hw.object,hw.arg,hw.mode,hw.user,by first | exact hs.dialog | exact hw.dialog,
      by first | exact hs.update | exact hw.update,by simp [hw.dialogs],by simp [hw.updates],hw.taken,
      hw.session⟩

omit hρ in
theorem swept_eq (v : Row) : v.swept = if 0 < v.dialogs ∨ 0 < v.updates then
    some { v with
      dialog := if v.dialogs = 0 then [] else v.dialog
      update := if v.updates = 0 then [] else v.update } else none := by
  unfold Row.swept
  split_ifs <;> simp_all

theorem SameRow.blank (hw : SameRow ρ κ v w) : SameRow ρ κ { v with
    dialog := if v.dialogs = 0 then [] else v.dialog
    update := if v.updates = 0 then [] else v.update } w.blank := by
  refine ⟨hw.client,hw.table,hw.object,hw.arg,hw.mode,hw.user,?_,?_,hw.dialogs,hw.updates,hw.taken,hw.session⟩
  · simp only [Js.Row.blank,hw.dialogs]
    split_ifs
    · exact hρ.blank
    · exact hw.dialog
  · simp only [Js.Row.blank,hw.updates]
    split_ifs
    · exact hρ.blank
    · exact hw.update

theorem sweep_agrees (hws : List.Forall₂ (SameRow ρ κ) vs ws) :
    List.Forall₂ (SameRow ρ κ) (vs.filterMap Row.swept) (Js.sweepRows ws) := by
  induction hws with
  | nil => exact .nil
  | @cons v w vs ws hw _ ih =>
    have hlive : (decide (0 < w.blank.dialogs) || decide (0 < w.blank.updates)) = true ↔
        0 < v.dialogs ∨ 0 < v.updates := by
      simp [Js.Row.blank,hw.dialogs,hw.updates]
    have hkeep := swept_eq v
    simp only [Js.sweepRows,List.map_cons,List.filter_cons,hlive] at ih ⊢
    by_cases h : 0 < v.dialogs ∨ 0 < v.updates
    · rw [if_pos h] at hkeep ⊢
      rw [List.filterMap_cons_some hkeep]
      exact .cons (hw.blank hρ) ih
    · rw [if_neg h] at hkeep ⊢
      rw [List.filterMap_cons_none hkeep]
      exact ih

theorem dequeueRows_agrees (hs : SameSession ρ s s') (hws : List.Forall₂ (SameRow ρ κ) vs ws)
    (arg : String) :
    List.Forall₂ (SameRow ρ κ) (dequeueRows s r.args arg vs) (Js.dequeueRows s' r arg ws) := by
  induction hws with
  | nil => exact .nil
  | @cons v w vs ws hw hws ih =>
    have hpass : (!Js.owns s' w || w.client != r.client || w.table != r.table || w.arg != arg ||
        w.mode != r.mode) = true ↔ ¬s.holds r.args arg v := by
      simp [owns_agrees hρ hw hs,Session.holds,hw.client,hw.table,hw.arg,hw.mode,Js.Request.args,
        or_assoc,imp_iff_not_or]
    have hdialog : ((Js.scopeOf r == 1 || Js.scopeOf r == 3) && decide (0 < w.dialogs) &&
        w.dialog == s'.dialog) = true ↔ (scopeOf r.args = 1 ∨ scopeOf r.args = 3) ∧
          0 < v.dialogs ∧ v.dialog = s.dialog := by
      simp [scopeOf_agrees,hw.dialogs,hw.dialog_iff hρ hs,and_assoc]
    have hupdate : ((Js.scopeOf r == 2 || Js.scopeOf r == 3) && decide (0 < w.updates) &&
        w.update == s'.update) = true ↔ (scopeOf r.args = 2 ∨ scopeOf r.args = 3) ∧
          0 < v.updates ∧ v.update = s.update := by
      simp [scopeOf_agrees,hw.updates,hw.update_iff hρ hs,and_assoc]
    have hrow : SameRow ρ κ (s.drop (scopeOf r.args) v).1 { w with
        dialogs := if (scopeOf r.args = 1 ∨ scopeOf r.args = 3) ∧ 0 < v.dialogs ∧
          v.dialog = s.dialog then w.dialogs - 1 else w.dialogs
        updates := if (scopeOf r.args = 2 ∨ scopeOf r.args = 3) ∧ 0 < v.updates ∧
          v.update = s.update then w.updates - 1 else w.updates } := by
      refine ⟨hw.client,hw.table,hw.object,hw.arg,hw.mode,hw.user,hw.dialog,hw.update,?_,?_,hw.taken,
        hw.session⟩
      · simp only [Session.drop,hw.dialogs]
      · simp only [Session.drop,hw.updates]
    simp only [dequeueRows,Js.dequeueRows,hpass,Bool.or_eq_true,hdialog,hupdate]
    by_cases hh : s.holds r.args arg v
    · rw [if_neg (not_not.mpr hh),if_neg (not_not.mpr hh)]
      by_cases hd : ((scopeOf r.args = 1 ∨ scopeOf r.args = 3) ∧ 0 < v.dialogs ∧
          v.dialog = s.dialog) ∨ ((scopeOf r.args = 2 ∨ scopeOf r.args = 3) ∧ 0 < v.updates ∧
          v.update = s.update)
      · rw [if_pos (by simpa [Session.drop] using hd),if_pos hd]
        exact .cons hrow hws
      · rw [if_neg (by simpa [Session.drop] using hd),if_neg hd]
        exact .cons hrow ih
    · rw [if_pos hh,if_pos hh]
      exact .cons hw ih

theorem releaseRow_agrees (hs : SameSession ρ s s') (hw : SameRow ρ κ v w) :
    SameRow ρ κ (s.releaseRow sid v) (s'.releaseRow sid w) := by
  have hsid : (w.session != sid) = true ↔ v.session ≠ sid := by simp [hw.session]
  simp only [Session.releaseRow,Js.Session.releaseRow,hsid,beq_iff_eq,hw.dialog_iff hρ hs,hw.update_iff hρ hs]
  by_cases h : v.session ≠ sid
  · rw [if_pos h,if_pos h]
    exact hw
  · rw [if_neg h,if_neg h]
    refine ⟨hw.client,hw.table,hw.object,hw.arg,hw.mode,hw.user,hw.dialog,hw.update,?_,?_,hw.taken,hw.session⟩
    · simp only [hw.dialogs]
    · simp only [hw.updates]

theorem releaseUpdate_agrees (h : Same ρ κ st srv) {o : OwnerID} {o' : Js.OwnerId} (ho : ρ o o')
    (hne : o ≠ []) : Same ρ κ (st.releaseUpdate sid o) (srv.releaseUpdate sid o') := by
  have hne' : o' ≠ [] := fun he => hne ((hρ.unique _ _ _ _ ho hρ.blank).mpr he)
  rw [Js.LockServer.releaseUpdate,if_neg hne']
  refine ⟨sweep_agrees hρ (List.rel_map (fun v w hw => ?_) h.rows),h.sessions,h.seq,h.running⟩
  have hhit : (w.session == sid && w.update == o') = true ↔ v.session = sid ∧ v.update = o ∧ o ≠ [] := by
    simp [hw.session,hne,← hρ.unique _ _ _ _ hw.update ho]
  simp only [releaseUpdateRow,hhit]
  split_ifs
  · exact ⟨hw.client,hw.table,hw.object,hw.arg,hw.mode,hw.user,hw.dialog,hw.update,hw.dialogs,rfl,
      hw.taken,hw.session⟩
  · exact hw

theorem release_agrees (h : Same ρ κ st srv) (sid : Nat) :
    Same ρ κ (st.release sid) (srv.release sid) := by
  unfold State.release Js.LockServer.release
  have hl := h.live sid
  generalize st.sessions.lookup sid = a at hl ⊢
  generalize srv.live sid = b at hl ⊢
  cases hl with
  | none => exact h
  | some hs =>
    exact ⟨sweep_agrees hρ (List.rel_map (fun v w hw => releaseRow_agrees hρ hs hw) h.rows),
      h.sessions,h.seq,h.running⟩

theorem dequeue_agrees (h : Same ρ κ st srv) (sid : Nat) (r : Js.Request) :
    Same ρ κ (st.dequeue sid r.args) (srv.dequeue sid r) := by
  unfold State.dequeue Js.LockServer.dequeue
  have hl := h.live sid
  generalize st.sessions.lookup sid = a at hl ⊢
  generalize srv.live sid = b at hl ⊢
  cases hl with
  | none => exact h
  | some hs =>
    rw [garg_agrees]
    exact ⟨sweep_agrees hρ (dequeueRows_agrees hρ hs h.rows _),h.sessions,h.seq,h.running⟩

omit hρ in
theorem forall₂_modify {f : Row → Row} {g : Js.Row → Js.Row}
    (hfg : ∀ v w,SameRow ρ κ v w → SameRow ρ κ (f v) (g w))
    (hws : List.Forall₂ (SameRow ρ κ) vs ws) (i : Nat) :
    List.Forall₂ (SameRow ρ κ) (vs.modify i f) (ws.modify i g) := by
  induction hws generalizing i with
  | nil => simp
  | cons hw hws ih =>
    cases i with
    | zero => exact .cons (hfg _ _ hw) hws
    | succ i => exact .cons hw (ih i)

theorem enqueue_agrees (h : Same ρ κ st srv) (sid : Nat) (r : Js.Request) {t : Time} {d : Js.Date}
    (hκ : κ t d) : Same ρ κ (st.enqueue sid r.args t).1 (srv.tryEnqueue sid r d).1 ∧
      SameAnswer ρ κ (.result (st.enqueue sid r.args t).2) (.result (srv.tryEnqueue sid r d).2) := by
  unfold State.enqueue Js.LockServer.tryEnqueue
  have hl := h.live sid
  generalize st.sessions.lookup sid = a at hl ⊢
  generalize srv.live sid = b at hl ⊢
  cases hl with
  | none => exact ⟨h,.result { subrc := 2 }⟩
  | @some s s' hs =>
    simp only [garg_agrees,tryRows_agrees hρ hs h.rows,scopeOf_agrees]
    cases scan s sid r.args (garg r.args.client r.args.fields) st.rows 0 none with
    | error e => exact ⟨h,.result (refused e)⟩
    | ok res =>
      cases res with
      | none =>
        refine ⟨⟨List.rel_append h.rows (.cons (SameRow.take hs ?_ _) .nil),h.sessions,h.seq,
          h.running⟩,.result { subrc := 0 }⟩
        exact ⟨rfl,rfl,rfl,rfl,rfl,hs.user,hρ.blank,hρ.blank,rfl,rfl,hκ,rfl⟩
      | some i =>
        exact ⟨⟨forall₂_modify (fun v w hw => SameRow.take hs hw _) h.rows i,h.sessions,h.seq,
          h.running⟩,.result { subrc := 0 }⟩

omit hρ in
theorem sessions_insert_agrees (h : ∀ sid,Option.Rel (SameSession ρ) (st.sessions.lookup sid)
    (srv.sessions.lookup sid)) (hs : SameSession ρ s s') (sid a : Nat) :
    Option.Rel (SameSession ρ) ((st.sessions.insert sid s).lookup a)
      ((srv.sessions.insert sid s').lookup a) := by
  by_cases ha : a = sid
  · subst ha
    rw [AList.lookup_insert,AList.lookup_insert]
    exact .some hs
  · rw [AList.lookup_insert_ne ha,AList.lookup_insert_ne ha]
    exact h a

omit hρ in
theorem ownerId_state (srv : Js.LockServer) (now : Js.Date) :
    (srv.ownerId now).1 = { srv with seq := srv.seq + 1 } := rfl

omit hρ in
theorem issues_length (h : Same ρ κ st srv) {op : Op} {op' : Js.Op} (hop : SameCall ρ κ op op') :
    (st.issues op).length = (srv.issues op').length := by
  have hlive : ∀ (sid : Nat) (o : OwnerID) (o' : Js.OwnerId),
      (if (st.sessions.lookup sid).isSome then [o] else []).length =
        (if (srv.live sid).isSome then [o'] else []).length := by
    intro sid o o'
    have hl := h.live sid
    generalize st.sessions.lookup sid = a at hl ⊢
    generalize srv.live sid = b at hl ⊢
    cases hl with
    | none => rfl
    | some _ => rfl
  cases hop with
  | openSession => simp [State.issues,Js.LockServer.issues,h.running]
  | commit sid updated =>
    cases updated with
    | false => rfl
    | true => exact hlive sid _ _
  | rollback sid => exact hlive sid _ _
  | _ => rfl

omit hρ in
theorem open_agrees (h : Same ρ κ st srv) (user : String) (t₁ t₂ : Time) (d₁ d₂ : Js.Date)
    (hids : List.Forall₂ ρ (st.issues (.openSession user t₁ t₂))
      (srv.issues (.openSession user d₁ d₂))) :
    Same ρ κ (st.openSession user t₁ t₂).1 (srv.openSession user d₁ d₂).1 ∧
      SameAnswer ρ κ (.handle (st.openSession user t₁ t₂).2)
        (.handle (srv.openSession user d₁ d₂).2) := by
  have hopen : ¬srv.closed = true := by simp [h.running]
  simp only [State.issues,Js.LockServer.issues,if_neg hopen,List.forall₂_cons,ownerID_state,
    ownerId_state] at hids
  obtain ⟨hd,hu,-⟩ := hids
  simp only [State.openSession,Js.LockServer.openSession,if_neg hopen,ownerID_state,ownerId_state]
  have hne := ownerID_ne_nil { st with seq := st.seq + 1 + 1 } t₂
  generalize (State.ownerID _ _).2 = d at hd ⊢
  generalize (State.ownerID _ _).2 = u at hu hne ⊢
  generalize (Js.LockServer.ownerId _ _).2 = d' at hd ⊢
  generalize (Js.LockServer.ownerId _ _).2 = u' at hu ⊢
  have hseq : srv.seq + 1 = st.seq + 1 := by rw [h.seq]
  rw [hseq]
  refine ⟨⟨h.rows,fun a => ?_,rfl,h.running⟩,.handle _⟩
  exact sessions_insert_agrees h.sessions ⟨rfl,hd,hu,hne⟩ _ a

omit hρ in
theorem renew_agrees (h : Same ρ κ st srv) (hs : SameSession ρ s s') (sid : Nat) {o : OwnerID}
    {o' : Js.OwnerId} (ho : ρ o o') (hne : o ≠ []) :
    Same ρ κ { st with seq := st.seq + 1,sessions := st.sessions.insert sid { s with update := o } }
      { srv with
        seq := srv.seq + 1
        sessions := srv.sessions.insert sid { s' with update := o' } } := by
  have hnew : SameSession ρ { s with update := o } { s' with update := o' } :=
    ⟨hs.user,hs.dialog,ho,hne⟩
  exact ⟨h.rows,fun a => sessions_insert_agrees h.sessions hnew sid a,congrArg (· + 1) h.seq,h.running⟩

theorem commit_agrees (h : Same ρ κ st srv) (sid : Nat) (updated : Bool) (t : Time) (d : Js.Date)
    (hids : List.Forall₂ ρ (st.issues (.commit sid updated t)) (srv.issues (.commit sid updated d))) :
    Same ρ κ (st.commit sid updated t).1 (srv.commit sid updated d).1 ∧
      SameAnswer ρ κ (.owner (st.commit sid updated t).2) (.owner (srv.commit sid updated d).2) := by
  have hne := ownerID_ne_nil st t
  unfold State.commit Js.LockServer.commit
  cases updated with
  | false =>
    have hl := h.live sid
    generalize st.sessions.lookup sid = a at hl ⊢
    generalize srv.live sid = b at hl ⊢
    cases hl <;> exact ⟨h,.owner hρ.blank⟩
  | true =>
    simp only [State.issues,Js.LockServer.issues] at hids
    simp only [ownerID_state,ownerId_state]
    generalize (st.ownerID t).2 = o at hids hne ⊢
    generalize (srv.ownerId d).2 = o' at hids ⊢
    have hl := h.live sid
    generalize st.sessions.lookup sid = a at hl hids ⊢
    generalize srv.live sid = b at hl hids ⊢
    cases hl with
    | none => exact ⟨h,.owner hρ.blank⟩
    | some hs =>
      have ho : ρ o o' := by simpa using hids
      exact ⟨renew_agrees h hs sid ho hne,.owner hs.update⟩

theorem rollback_agrees (h : Same ρ κ st srv) (sid : Nat) (t : Time) (d : Js.Date)
    (hids : List.Forall₂ ρ (st.issues (.rollback sid t)) (srv.issues (.rollback sid d))) :
    Same ρ κ (st.rollback sid t) (srv.rollback sid d) := by
  have hne := ownerID_ne_nil st t
  have hsame : ∀ o,((st.releaseUpdate sid o).ownerID t).2 = (st.ownerID t).2 := fun _ => rfl
  have hsame' : ∀ o,((srv.releaseUpdate sid o).ownerId d).2 = (srv.ownerId d).2 := by
    intro o
    unfold Js.LockServer.releaseUpdate
    split_ifs <;> rfl
  unfold State.rollback Js.LockServer.rollback
  simp only [State.issues,Js.LockServer.issues] at hids
  simp only [ownerID_state,ownerId_state,hsame,hsame']
  generalize (st.ownerID t).2 = o at hids hne ⊢
  generalize (srv.ownerId d).2 = o' at hids ⊢
  have hl := h.live sid
  generalize st.sessions.lookup sid = a at hl hids ⊢
  generalize srv.live sid = b at hl hids ⊢
  cases hl with
  | none => exact h
  | some hs =>
    have ho : ρ o o' := by simpa using hids
    exact renew_agrees (releaseUpdate_agrees hρ h hs.update hs.filled) hs sid ho hne

theorem updateDone_agrees (h : Same ρ κ st srv) (sid : Nat) {o : OwnerID} {o' : Js.OwnerId}
    (ho : ρ o o') : Same ρ κ (st.updateDone sid o) (srv.updateDone sid o') := by
  have hnil : o = [] ↔ o' = [] := hρ.unique _ _ _ _ ho hρ.blank
  rw [Js.LockServer.updateDone,if_neg (by simp [h.running])]
  by_cases hz : o = []
  · rw [State.updateDone,if_pos hz,Js.LockServer.releaseUpdate,if_pos (hnil.mp hz)]
    exact h
  · rw [State.updateDone,if_neg hz]
    exact releaseUpdate_agrees hρ h ho hz

theorem end_agrees (h : Same ρ κ st srv) (sid : Nat) :
    Same ρ κ (st.endSession sid) (srv.endSession sid) := by
  have hr := release_agrees hρ h sid
  refine ⟨hr.rows,fun a => ?_,hr.seq,hr.running⟩
  simp only [State.endSession,Js.LockServer.endSession]
  by_cases ha : a = sid
  · subst ha
    rw [AList.lookup_erase,AList.lookup_erase]
    exact .none
  · rw [AList.lookup_erase_ne ha,AList.lookup_erase_ne ha]
    exact hr.sessions a

omit hρ in
theorem read_agrees (h : Same ρ κ st srv) (f : Filter) :
    List.Forall₂ (SameRow ρ κ) (st.read f) (srv.read f) := by
  rw [Js.LockServer.read,if_neg (by simp [h.running])]
  refine List.rel_filter (fun v w hw => ?_) h.rows
  simp only [hw.client,hw.table,hw.user,Bool.and_eq_true,Bool.or_eq_true,beq_iff_eq,
    eq_comm (a := f.client),eq_comm (a := f.table),eq_comm (a := f.user)]

theorem updateOwner_agrees (h : Same ρ κ st srv) (sid : Nat) :
    ρ (st.updateOwner sid) (srv.updateOwner sid) := by
  unfold State.updateOwner Js.LockServer.updateOwner
  have hl := h.live sid
  generalize st.sessions.lookup sid = a at hl ⊢
  generalize srv.live sid = b at hl ⊢
  cases hl with
  | none => exact hρ.blank
  | some hs => exact hs.update

theorem step_agrees (h : Same ρ κ st srv) {op : Op} {op' : Js.Op} (hop : SameCall ρ κ op op')
    (hids : List.Forall₂ ρ (st.issues op) (srv.issues op')) :
    Same ρ κ (st.step op).1 (srv.step op').1 ∧
      SameAnswer ρ κ (st.step op).2 (srv.step op').2 := by
  cases hop with
  | @openSession user t₁ t₂ d₁ d₂ => exact open_agrees h user t₁ t₂ d₁ d₂ hids
  | enqueue sid r hκ => exact enqueue_agrees hρ h sid r hκ
  | dequeue sid r => exact ⟨dequeue_agrees hρ h sid r,.done⟩
  | dequeueAll sid => exact ⟨release_agrees hρ h sid,.done⟩
  | @commit sid updated t d => exact commit_agrees hρ h sid updated t d hids
  | updateDone sid ho => exact ⟨updateDone_agrees hρ h sid ho,.done⟩
  | @rollback sid t d => exact ⟨rollback_agrees hρ h sid t d hids,.done⟩
  | endSession sid => exact ⟨end_agrees hρ h sid,.done⟩
  | updateOwner sid => exact ⟨h,.owner (updateOwner_agrees hρ h sid)⟩
  | read f => exact ⟨h,.rows (read_agrees h f)⟩

end Step

def lockTable : StepMachine State Op Answer where
  step := State.step

def waitTries : Nat := 5

def State.enqueueWith (st : State) (sid : Nat) (r : Request) (wait : Bool) (clock : Nat → Time)
    (sleep : Nat → List Op) : List Op :=
  lockTable.retryOps (fun | .result res => res.subrc == 1 | _ => false)
    (fun i => .enqueue sid r (clock i)) sleep (if wait then waitTries else 0) 0 st

theorem lockServer_simulates {ρ : OwnerID → Js.OwnerId → Prop} {κ : Time → Js.Date → Prop}
    (hρ : Corresponds ρ) : StepMachine.Simulates lockTable Js.lockServer State.issues
      Js.LockServer.issues ρ (Same ρ κ) (SameCall ρ κ) (SameAnswer ρ κ) :=
  ⟨fun _ _ _ _ h hop => issues_length h hop,fun _ _ _ _ h hop hids => step_agrees hρ h hop hids⟩

theorem same_new (ρ : OwnerID → Js.OwnerId → Prop) (κ : Time → Js.Date → Prop) (i i' : String) :
    Same ρ κ (State.new i) (Js.LockServer.new i') :=
  ⟨.nil,fun _ => .none,rfl,rfl⟩

theorem lock_servers_agree (instanceName : String) {ρ : OwnerID → Js.OwnerId → Prop}
    {κ : Time → Js.Date → Prop} (hρ : Corresponds ρ) {ops : List Op} {ops' : List Js.Op}
    (hops : List.Forall₂ (SameCall ρ κ) ops ops') :
    (List.Forall₂ ρ (lockTable.emitted State.issues (State.new instanceName) ops)
        (Js.lockServer.emitted Js.LockServer.issues (Js.LockServer.new instanceName) ops') →
      List.Forall₂ (SameAnswer ρ κ) (lockTable.answers (State.new instanceName) ops)
        (Js.lockServer.answers (Js.LockServer.new instanceName) ops')) ∧
    (∀ sid r wait clock clock' sleep sleep', (∀ i : Nat, κ (clock i) (clock' i)) →
      (∀ i : Nat, List.Forall₂ (SameCall ρ κ) (sleep i) (sleep' i)) →
      let call := ops ++ (lockTable.run (State.new instanceName) ops).enqueueWith sid
        (Js.Request.args r) wait clock sleep
      let call' := ops' ++ (Js.lockServer.run (Js.LockServer.new instanceName) ops').enqueue sid r
        wait clock' sleep'
      List.Forall₂ ρ (lockTable.emitted State.issues (State.new instanceName) call)
        (Js.lockServer.emitted Js.LockServer.issues (Js.LockServer.new instanceName) call') →
      List.Forall₂ (SameAnswer ρ κ) (lockTable.answers (State.new instanceName) call)
        (Js.lockServer.answers (Js.LockServer.new instanceName) call')) ∧
    ∀ a b, Js.collide a b = collide a b := by
  have hsim := lockServer_simulates (κ := κ) hρ
  have hnew := same_new ρ κ instanceName instanceName
  refine ⟨fun hids => (hsim.run hnew hops hids).2,?_,collide_agrees⟩
  intro sid r wait clock clock' sleep sleep' hclock hsleep call call' hids
  have hids' := hids
  rw [StepMachine.emitted_append,StepMachine.emitted_append] at hids'
  obtain ⟨hs,-,hrest⟩ := hsim.run_then hnew hops hids'
  refine (hsim.run hnew (List.rel_append hops ?_) hids).2
  refine hsim.retry ?_ (fun i => .enqueue sid r (hclock i)) hsleep _ 0 hs hrest
  rintro a b (_ | _ | _ | _ | _) <;> rfl

def jsNoon : Js.Date := ⟨2026,1,1,12,0,0,0⟩

def jsLockOf (mode : String) (scope : Int) (value : String) : Js.Request :=
  ⟨"001","SFLIGHT","ESFLIGHT",[⟨some value,false,3⟩],mode,some scope⟩

def sharedRun : List Op :=
  twoReaders ++ [.commit 1 true noon,.enqueue 1 (lockOf "E" 1 "LH") noon,.read {}]

def jsSharedRun : List Js.Op :=
  [.openSession "ANNA" jsNoon jsNoon,.openSession "BERT" jsNoon jsNoon,
    .tryEnqueue 1 (jsLockOf "S" 3 "LH") jsNoon,.tryEnqueue 4 (jsLockOf "S" 2 "LH") jsNoon,
    .commit 1 true jsNoon,.tryEnqueue 1 (jsLockOf "E" 1 "LH") jsNoon,.read {}]

def sharedIds : List (OwnerID × Js.OwnerId) :=
  ([],[]) :: (lockTable.emitted State.issues (State.new "srv") sharedRun).zip
    (Js.lockServer.emitted Js.LockServer.issues (Js.LockServer.new "srv") jsSharedRun)

theorem lock_servers_agree_sharedRun :
    List.Forall₂ (SameAnswer (fun a b => (a,b) ∈ sharedIds) (fun t d => t = noon ∧ d = jsNoon))
      (lockTable.answers (State.new "srv") sharedRun)
      (Js.lockServer.answers (Js.LockServer.new "srv") jsSharedRun) := by
  have hunique : ∀ p ∈ sharedIds, ∀ q ∈ sharedIds, p.1 = q.1 ↔ p.2 = q.2 := by decide
  have hρ : Corresponds fun a b => (a,b) ∈ sharedIds :=
    ⟨List.mem_cons_self ..,fun _ _ _ _ h h' => hunique _ h _ h'⟩
  have hnow : noon = noon ∧ jsNoon = jsNoon := ⟨rfl,rfl⟩
  have hops : List.Forall₂ (SameCall (fun a b => (a,b) ∈ sharedIds)
      (fun t d => t = noon ∧ d = jsNoon)) sharedRun jsSharedRun :=
    .cons (.openSession _ hnow hnow) (.cons (.openSession _ hnow hnow)
      (.cons (.enqueue 1 (jsLockOf "S" 3 "LH") hnow) (.cons (.enqueue 4 (jsLockOf "S" 2 "LH") hnow)
        (.cons (.commit 1 true hnow) (.cons (.enqueue 1 (jsLockOf "E" 1 "LH") hnow)
          (.cons (.read {}) .nil))))))
  refine (lock_servers_agree "srv" hρ hops).1 ?_
  rw [List.forall₂_iff_zip]
  exact ⟨by decide,fun h => List.mem_cons_of_mem _ h⟩

end OpenSteamgate.Enq
