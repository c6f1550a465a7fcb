import OpenSteamgate.Library.Histories
import OpenSteamgate.Enq.Invariant

namespace OpenSteamgate.Enq

variable {st : State} {g : Log}

def Op.caller : Op → Option Nat
  | .enqueue sid _ _ => some sid
  | .dequeue sid _ => some sid
  | .dequeueAll sid => some sid
  | .commit sid _ _ => some sid
  | .updateDone sid _ => some sid
  | .rollback sid _ => some sid
  | .endSession sid => some sid
  | .updateOwner sid => some sid
  | _ => none

def SameLock (w : Row) (o : Option Row) : Prop := ∀ v, o = some v → v.bare = w.bare

def Alters (caller : Option Nat) (w : Row) (o : Option Row) : Prop :=
  (caller ≠ some w.session → o = some w) ∧ SameLock w o

def Request.creates (r : Request) (sid : Nat) (now : Time) (v : Row) : Prop :=
  ∃ s : Session, v.bare = (s.newRow sid r (garg r.client r.fields) now).bare

def Granted (st : State) (op : Op) (fresh : List Row) : Prop :=
  ∃ v sid r now, ∃ s : Session, op = .enqueue sid r now ∧ fresh = [v] ∧
    v.bare = (s.newRow sid r (garg r.client r.fields) now).bare ∧
    ∀ w ∈ st.rows, s.refusal sid r (garg r.client r.fields) w = none

theorem alters_self (caller : Option Nat) (w : Row) : Alters caller w (some w) :=
  ⟨fun _ => rfl,fun v hv => by rw [Option.some.injEq] at hv; rw [hv]⟩

def Reduces (caller : Option Nat) (w : Row) (o : Option Row) : Prop :=
  (caller ≠ some w.session → o = some w) ∧ ∀ v, o = some v → w.Shrinks v

theorem Reduces.alters {caller : Option Nat} {w : Row} {o : Option Row} (h : Reduces caller w o) :
    Alters caller w o :=
  ⟨h.1,fun v hv => (h.2 v hv).bare⟩

theorem Inv.reduces_self (h : Inv st g) (caller : Option Nat) {w : Row} (hw : w ∈ st.rows) :
    Reduces caller w (some w) :=
  ⟨fun _ => rfl,fun v hv => by
    rw [Option.some.injEq] at hv
    exact hv ▸ tidy_shrinks (h.tidy w hw)⟩

theorem release_evolves (h : Inv st g) (sid : Nat) :
    Evolves (Reduces (some sid)) st.rows (st.release sid).rows := by
  unfold State.release
  cases hs : st.sessions.lookup sid with
  | none => exact .refl fun w hw => h.reduces_self _ hw
  | some s =>
    simp only [sweep_rows,List.filterMap_map]
    refine .filterMap fun w hw => ⟨?_,fun v hv => releaseRow_shrinks hv⟩
    intro hne
    have hsid : w.session ≠ sid := fun he => hne (by rw [he])
    rw [Function.comp_apply,Session.releaseRow,if_pos hsid,swept_of_tidy (h.tidy w hw)]

theorem releaseUpdate_evolves (h : Inv st g) (sid : Nat) (owner : OwnerID) :
    Evolves (Reduces (some sid)) st.rows (st.releaseUpdate sid owner).rows := by
  simp only [State.releaseUpdate,sweep_rows,List.filterMap_map]
  refine .filterMap fun w hw => ⟨?_,fun v hv => releaseUpdateRow_shrinks hv⟩
  intro hne
  have hsid : w.session ≠ sid := fun he => hne (by rw [he])
  rw [Function.comp_apply,releaseUpdateRow,if_neg (fun hc => hsid hc.1),swept_of_tidy (h.tidy w hw)]

theorem dequeue_rows (h : Inv st g) {sid : Nat} {s : Session}
    (hs : st.sessions.lookup sid = some s) (r : Request) :
    ((st.dequeue sid r).rows = st.rows ∧ ∀ w ∈ st.rows,
        ¬(s.holds r (garg r.client r.fields) w ∧ (s.drop (scopeOf r) w).2 = true)) ∨
      ∃ pre w post,st.rows = pre ++ w :: post ∧ s.holds r (garg r.client r.fields) w ∧
        (s.drop (scopeOf r) w).2 = true ∧
        (∀ v ∈ pre,¬(s.holds r (garg r.client r.fields) v ∧ (s.drop (scopeOf r) v).2 = true)) ∧
        (st.dequeue sid r).rows = pre ++ ((s.drop (scopeOf r) w).1.swept.toList ++ post) := by
  simp only [State.dequeue,hs,sweep_rows]
  rcases dequeueRows_cases s r (garg r.client r.fields) st.rows with
    ⟨heq,hno⟩ | ⟨pre,w,post,hrows,hh,hd,hpre,heq⟩
  · left
    rw [heq]
    exact ⟨filterMap_swept_of_tidy h.tidy,hno⟩
  · right
    refine ⟨pre,w,post,hrows,hh,hd,hpre,?_⟩
    have ht := h.tidy
    rw [hrows] at ht
    rw [heq,List.filterMap_append,filterMap_swept_of_tidy fun v hv => ht v (by simp [hv])]
    congr 1
    have hp : post.filterMap Row.swept = post :=
      filterMap_swept_of_tidy fun v hv => ht v (by simp [hv])
    cases hw : (s.drop (scopeOf r) w).1.swept with
    | none => rw [List.filterMap_cons_none hw,hp]; rfl
    | some v => rw [List.filterMap_cons_some hw,hp]; rfl

theorem dequeue_evolves (h : Inv st g) (sid : Nat) (r : Request) :
    Evolves (Reduces (some sid)) st.rows (st.dequeue sid r).rows := by
  cases hs : st.sessions.lookup sid with
  | none =>
    simp only [State.dequeue,hs]
    exact .refl fun w hw => h.reduces_self _ hw
  | some s =>
    rcases dequeue_rows h hs r with ⟨heq,-⟩ | ⟨pre,w,post,hrows,hh,-,-,heq⟩
    · rw [heq]
      exact .refl fun w hw => h.reduces_self _ hw
    · have hself : ∀ v ∈ pre ++ w :: post,Reduces (some sid) v (some v) :=
        fun v hv => h.reduces_self _ (hrows ▸ hv)
      rw [heq,hrows]
      refine .splice (fun v hv => hself v (by simp [hv])) (fun v hv => hself v (by simp [hv])) ?_
      refine ⟨fun hne => ?_,fun v hv => drop_shrinks hv⟩
      exact (hne (by rw [h.owner_session hs (hrows ▸ by simp) hh.1])).elim

theorem step_evolves (h : Inv st g) (op : Op) :
    ∃ kept fresh,(st.step op).1.rows = kept ++ fresh ∧
      Evolves (Alters op.caller) st.rows kept ∧ (fresh = [] ∨ Granted st op fresh) := by
  have hsame : Evolves (Alters op.caller) st.rows st.rows := .refl fun w _ => alters_self _ w
  have hred : ∀ w ∈ st.rows,∀ o,Reduces op.caller w o → Alters op.caller w o :=
    fun _ _ _ h => h.alters
  have hplain : ∀ rows,(st.step op).1.rows = rows → Evolves (Alters op.caller) st.rows rows →
      ∃ kept fresh,(st.step op).1.rows = kept ++ fresh ∧
        Evolves (Alters op.caller) st.rows kept ∧ (fresh = [] ∨ Granted st op fresh) :=
    fun rows hrows he => ⟨rows,[],by simp [hrows],he,.inl rfl⟩
  cases op with
  | enqueue sid r now =>
    have hc := enqueue_cases st sid r now
    generalize hst : (st.enqueue sid r now).1 = st' at hc
    generalize (st.enqueue sid r now).2 = res at hc
    cases hc with
    | unknown hs => exact hplain _ (congrArg State.rows hst) hsame
    | refused s pre w post e hs hrows hw hpre => exact hplain _ (congrArg State.rows hst) hsame
    | fresh s hs hno hnm =>
      exact ⟨st.rows,_,congrArg State.rows hst,hsame,.inr ⟨_,sid,r,now,s,rfl,rfl,take_bare _ _,hno⟩⟩
    | merged s pre w post hs hrows hno hm hpost =>
      refine hplain _ (congrArg State.rows hst) ?_
      rw [hrows]
      refine .splice (o := some _) (fun v _ => alters_self _ v) (fun v _ => alters_self _ v) ?_
      refine ⟨fun hne => ?_,fun v hv => ?_⟩
      · exact (hne (by rw [h.owner_session hs (hrows ▸ by simp) hm.1.1]; rfl)).elim
      · rw [Option.some.injEq] at hv
        rw [← hv,take_bare]
  | dequeue sid r => exact hplain _ rfl ((dequeue_evolves h sid r).mono hred)
  | dequeueAll sid => exact hplain _ rfl ((release_evolves h sid).mono hred)
  | endSession sid => exact hplain _ rfl ((release_evolves h sid).mono hred)
  | updateDone sid owner =>
    refine hplain _ rfl ?_
    simp only [State.step,State.updateDone]
    split_ifs
    · exact hsame
    · exact (releaseUpdate_evolves h sid owner).mono hred
  | rollback sid now =>
    refine hplain _ rfl ?_
    simp only [State.step,State.rollback]
    cases hs : st.sessions.lookup sid with
    | none => exact hsame
    | some s => exact (releaseUpdate_evolves h sid s.update).mono hred
  | commit sid updated now =>
    refine hplain _ rfl ?_
    simp only [State.step,State.commit]
    cases hs : st.sessions.lookup sid with
    | none => exact hsame
    | some s => cases updated <;> exact hsame
  | _ => exact hplain _ rfl hsame

theorem step_others (h : Inv st g) {op : Op} {a : Nat} (ha : op.caller = some a) :
    (st.step op).1.rows.filter (fun w => w.session != a) =
      st.rows.filter (fun w => w.session != a) := by
  obtain ⟨kept,fresh,hrows,he,hf⟩ := step_evolves h op
  rw [hrows,List.filter_append]
  have hkept : kept.filter (fun w => w.session != a) = st.rows.filter (fun w => w.session != a) := by
    refine he.filter _ ?_ ?_
    · intro w o hw hp
      refine hw.1 ?_
      rw [ha,ne_eq,Option.some.injEq]
      exact fun heq => by simp [heq] at hp
    · intro w v hw hp
      rwa [bare_session (hw.2 v rfl)] at hp
  rw [hkept]
  rcases hf with rfl | ⟨v,sid,r,now,s,rfl,rfl,hv,-⟩
  · simp
  · obtain rfl : sid = a := by simpa [Op.caller] using ha
    have : v.session = sid := bare_session hv
    simp [this]

theorem step_sessions {op : Op} {a b : Nat} (ha : op.caller = some a) (hb : b ≠ a) :
    (st.step op).1.sessions.lookup b = st.sessions.lookup b := by
  have hplain : op.plain = true → (st.step op).1.sessions.lookup b = st.sessions.lookup b := fun hop => by
    obtain ⟨rows,hrows⟩ := step_plain st op hop
    rw [hrows]
  cases op with
  | openSession user now₁ now₂ => simp [Op.caller] at ha
  | commit sid updated now =>
    obtain rfl : sid = a := by simpa [Op.caller] using ha
    simp only [State.step,State.commit]
    cases hs : st.sessions.lookup sid with
    | none => rfl
    | some s =>
      cases updated with
      | false => rfl
      | true => exact AList.lookup_insert_ne hb
  | rollback sid now =>
    obtain rfl : sid = a := by simpa [Op.caller] using ha
    simp only [State.step,State.rollback]
    cases hs : st.sessions.lookup sid with
    | none => rfl
    | some s => exact AList.lookup_insert_ne hb
  | endSession sid =>
    obtain rfl : sid = a := by simpa [Op.caller] using ha
    simp only [State.step,State.endSession,release_sessions]
    exact AList.lookup_erase_ne hb
  | _ => exact hplain rfl

theorem enqueue_refused_rows (sid : Nat) (r : Request) (now : Time)
    (h : (st.enqueue sid r now).2.subrc ≠ 0) : (st.enqueue sid r now).1 = st := by
  have hc := enqueue_cases st sid r now
  generalize (st.enqueue sid r now).1 = st' at hc ⊢
  generalize (st.enqueue sid r now).2 = res at hc h
  cases hc with
  | unknown hs => rfl
  | refused s pre w post e hs hrows hw hpre => rfl
  | fresh s hs hno hnm => simp at h
  | merged s pre w post hs hrows hno hm hpost => simp at h

theorem refusal_subrc {s : Session} {sid : Nat} {r : Request} {arg : String} {w : Row} {e : Result}
    (h : s.refusal sid r arg w = some e) : e.subrc = 1 := by
  unfold Session.refusal at h
  split_ifs at h <;> simp only [Option.some.injEq] at h <;> rw [← h]

theorem history_append (instanceName : String) (xs ys : List Op) :
    history instanceName (xs ++ ys) = server.run (history instanceName xs) ys :=
  server.run_append _ xs ys

theorem history_nodup_left {instanceName : String} {xs ys : List Op}
    (h : (history instanceName (xs ++ ys)).2.issued.Nodup) :
    (history instanceName xs).2.issued.Nodup := by
  rw [history_append] at h
  exact server.backward (fun p => p.2.issued.Nodup) nodup_backward h

theorem history_snoc (instanceName : String) (xs : List Op) (op : Op) :
    (history instanceName (xs ++ [op])).1 = ((history instanceName xs).1.step op).1 := by
  rw [history_append]
  rfl

theorem log_snoc (instanceName : String) (xs : List Op) (op : Op) :
    (history instanceName (xs ++ [op])).2 =
      (history instanceName xs).2.record (history instanceName xs).1 op := by
  rw [history_append]
  rfl

theorem sameLock_trans (u v : Row) (o : Option Row) (h : SameLock u (some v)) (h' : SameLock v o) :
    SameLock u o :=
  fun w hw => (h' w hw).trans (h v rfl)

theorem history_evolves (instanceName : String) (pre post : List Op)
    (hd : (history instanceName (pre ++ post)).2.issued.Nodup) :
    ∃ kept fresh,(history instanceName (pre ++ post)).1.rows = kept ++ fresh ∧
      Evolves SameLock (history instanceName pre).1.rows kept ∧
      ∀ v ∈ fresh,∃ sid r now,Op.enqueue sid r now ∈ post ∧ r.creates sid now v := by
  induction post generalizing pre with
  | nil =>
    refine ⟨(history instanceName pre).1.rows,[],by simp,.refl ?_,by simp⟩
    exact fun w _ => (alters_self none w).2
  | cons op post ih =>
    obtain ⟨kept,fresh,hrows,he,hf⟩ := ih (pre ++ [op]) (by simpa using hd)
    have hinv := history_inv instanceName pre (history_nodup_left hd)
    obtain ⟨kept',fresh',hrows',he',hf'⟩ := step_evolves hinv op
    rw [history_snoc,hrows'] at he
    obtain ⟨ks,fs,rfl,hks,hfs⟩ := he.split
    refine ⟨ks,fs ++ fresh,by simpa using hrows,?_,?_⟩
    · exact (he'.mono fun w _ o hw => hw.2).trans sameLock_trans hks
    · intro v hv
      rcases List.mem_append.mp hv with hv | hv
      · obtain ⟨u,hu,huv⟩ := hfs.mem hv
        rcases hf' with rfl | ⟨v',sid,r,now,s,rfl,rfl,hv',-⟩
        · simp at hu
        · rw [List.mem_singleton] at hu
          subst hu
          exact ⟨sid,r,now,by simp,s,(huv v rfl).trans hv'⟩
      · obtain ⟨sid,r,now,hmem,hc⟩ := hf v hv
        exact ⟨sid,r,now,List.mem_cons_of_mem _ hmem,hc⟩

theorem isolation (instanceName : String) (ops : List Op)
    (hd : (history instanceName ops).2.issued.Nodup) :
    (∀ op a, op.caller = some a →
      (∃ kept fresh, ((history instanceName ops).1.step op).1.rows = kept ++ fresh ∧
        Evolves (Alters (some a)) (history instanceName ops).1.rows kept ∧
        ∀ v ∈ fresh, v.session = a) ∧
      ((history instanceName ops).1.step op).1.rows.filter (fun w => w.session != a) =
        (history instanceName ops).1.rows.filter (fun w => w.session != a) ∧
      ∀ b, b ≠ a → ((history instanceName ops).1.step op).1.sessions.lookup b =
        (history instanceName ops).1.sessions.lookup b) ∧
    (∀ sid r now, ((history instanceName ops).1.enqueue sid r now).2.subrc = 1 ∨
        ((history instanceName ops).1.enqueue sid r now).2.subrc = 2 →
      ((history instanceName ops).1.enqueue sid r now).1.rows = (history instanceName ops).1.rows) ∧
    ∀ pre post, ops = pre ++ post → ∃ kept fresh,
      (history instanceName ops).1.rows = kept ++ fresh ∧
      Evolves SameLock (history instanceName pre).1.rows kept ∧
      (∀ v ∈ fresh, ∃ sid r now, Op.enqueue sid r now ∈ post ∧ r.creates sid now v) ∧
      ∀ sid r now s, (history instanceName ops).1.sessions.lookup sid = some s →
        ((history instanceName ops).1.enqueue sid r now).2.subrc = 1 →
        ∃ before w after, (history instanceName ops).1.rows = before ++ w :: after ∧
          s.refusal sid r (garg r.client r.fields) w =
            some ((history instanceName ops).1.enqueue sid r now).2 ∧
          (∀ v ∈ before, s.refusal sid r (garg r.client r.fields) v = none) ∧
          ((∃ v ∈ kept, s.refusal sid r (garg r.client r.fields) v ≠ none) →
            before.length < kept.length) := by
  have hinv := history_inv instanceName ops hd
  refine ⟨?_,?_,?_⟩
  · intro op a ha
    refine ⟨?_,step_others hinv ha,fun b hb => step_sessions ha hb⟩
    obtain ⟨kept,fresh,hrows,he,hf⟩ := step_evolves hinv op
    refine ⟨kept,fresh,hrows,ha ▸ he,?_⟩
    intro v hv
    rcases hf with rfl | ⟨u,sid,r,now,s,rfl,rfl,hu,-⟩
    · simp at hv
    · obtain rfl : sid = a := by simpa [Op.caller] using ha
      rw [List.mem_singleton.mp hv]
      exact bare_session hu
  · intro sid r now h
    rw [enqueue_refused_rows sid r now (by omega)]
  · rintro pre post rfl
    obtain ⟨kept,fresh,hrows,he,hf⟩ := history_evolves instanceName pre post hd
    refine ⟨kept,fresh,hrows,he,hf,?_⟩
    intro sid r now s hs h1
    generalize (history instanceName (pre ++ post)).1 = st at hrows hs h1 ⊢
    have hc := enqueue_cases st sid r now
    generalize (st.enqueue sid r now).1 = st' at hc
    generalize (st.enqueue sid r now).2 = res at hc h1 ⊢
    cases hc with
    | unknown hs => simp at h1
    | fresh s hs hno hnm => simp at h1
    | merged s pre w post hs hrows hno hm hpost => simp at h1
    | refused s' before w after e hs' hsplit hw hpre =>
      obtain rfl : s = s' := by rw [hs] at hs'; exact Option.some.inj hs'
      refine ⟨before,w,after,hsplit,hw,hpre,?_⟩
      rintro ⟨v,hv,hr⟩
      by_contra hlen
      -- then all of `kept` stands before the deciding row, and nothing there conflicts
      have h1 : kept <+: st.rows := ⟨fresh,hrows.symm⟩
      have h2 : before <+: st.rows := ⟨w :: after,hsplit.symm⟩
      have hkept : kept <+: before := List.prefix_of_prefix_length_le h1 h2 (by omega)
      exact hr (hpre v (hkept.subset hv))

def noon : Time := ⟨2026,1,1,12,0,0,0⟩

def lockOf (mode : String) (scope : Int) (value : String) : Request :=
  ⟨"001","SFLIGHT","ESFLIGHT",[⟨value,false,3⟩],mode,scope⟩

def twoReaders : List Op :=
  [.openSession "ANNA" noon noon,.openSession "BERT" noon noon,
    .enqueue 1 (lockOf "S" 3 "LH") noon,.enqueue 4 (lockOf "S" 2 "LH") noon]

theorem isolation_twoReaders :
    (history "srv" twoReaders).1.rows.length = 2 ∧
      ((history "srv" twoReaders).1.step (.endSession 1)).1.rows.filter (fun w => w.session != 1) =
        (history "srv" twoReaders).1.rows.filter (fun w => w.session != 1) :=
  ⟨by decide,((isolation "srv" twoReaders (by decide)).1 (.endSession 1) 1 rfl).2.1⟩

end OpenSteamgate.Enq
