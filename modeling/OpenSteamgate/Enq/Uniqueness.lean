import OpenSteamgate.Enq.Cumulation

namespace OpenSteamgate.Enq

variable {st : State} {g : Log} {sid : Nat} {s : Session} {r : Request} {now : Time}

def Apart (v w : Row) : Prop :=
  v.key = w.key → ¬(0 < v.dialogs ∧ 0 < w.dialogs ∧ v.dialog = w.dialog) ∧
    ¬(0 < v.updates ∧ 0 < w.updates ∧ v.update = w.update)

instance (v w : Row) : Decidable (Apart v w) := inferInstanceAs (Decidable (_ → _ ∧ _))

def State.splits (st : State) : Op → Prop
  | .enqueue sid r _ => ∃ s, st.sessions.lookup sid = some s ∧ scopeOf r ≠ 2 ∧
      (∀ w ∈ st.rows, s.refusal sid r (garg r.client r.fields) w = none) ∧
      ∃ pre w post, st.rows = pre ++ w :: post ∧ w.key = r.key ∧ s.hasDialog w ∧
        ¬(s.merges r (garg r.client r.fields) w ∧
          ∀ v ∈ post, ¬s.merges r (garg r.client r.fields) v)
  | _ => False

def Spread (st : State) (v w : Row) : Prop :=
  Apart v w ∧ (v.key = w.key → ∀ a s, st.sessions.lookup a = some s →
    ¬(s.hasUpdate v ∧ s.hasDialog w))

theorem Spread.shrink {v w v' w' : Row} (h : Spread st v w) (hv : v.Shrinks v')
    (hw : w.Shrinks w') : Spread st v' w' := by
  have hk : v'.key = w'.key → v.key = w.key := by
    rw [bare_key hv.bare,bare_key hw.bare]
    exact id
  refine ⟨fun hkey => ⟨?_,?_⟩,fun hkey a s hs => ?_⟩
  · rintro ⟨h1,h2,he⟩
    obtain ⟨h1,e1⟩ := hv.dialog h1
    obtain ⟨h2,e2⟩ := hw.dialog h2
    exact (h.1 (hk hkey)).1 ⟨h1,h2,by rw [← e1,← e2,he]⟩
  · rintro ⟨h1,h2,he⟩
    obtain ⟨h1,e1⟩ := hv.update h1
    obtain ⟨h2,e2⟩ := hw.update h2
    exact (h.1 (hk hkey)).2 ⟨h1,h2,by rw [← e1,← e2,he]⟩
  · rintro ⟨⟨h1,he1⟩,h2,he2⟩
    obtain ⟨h1,e1⟩ := hv.update h1
    obtain ⟨h2,e2⟩ := hw.dialog h2
    exact h.2 (hk hkey) a s hs ⟨⟨h1,by rw [← e1,he1]⟩,h2,by rw [← e2,he2]⟩

theorem Inv.update_issued (h : Inv st g) {w : Row} (hw : w ∈ st.rows) (hu : 0 < w.updates) :
    w.update ∈ g.issued := by
  rcases (h.rows w hw).update hu with hp | hp
  · exact h.issued _ _ _ hp
  · exact h.issued _ .ended _ (h.pending _ hp)

theorem Spread.sessions {st' : State} {v w : Row} (h : Spread st v w)
    (hs : ∀ a s,st'.sessions.lookup a = some s →
      st.sessions.lookup a = some s ∨ ¬s.hasUpdate v) : Spread st' v w := by
  refine ⟨h.1,fun hk a s ha hb => ?_⟩
  rcases hs a s ha with hs | hs
  · exact h.2 hk a s hs hb
  · exact hs hb.1

theorem spread_evolves {caller : Option Nat} {rows : List Row} (hp : st.rows.Pairwise (Spread st))
    (he : Evolves (Reduces caller) st.rows rows) : rows.Pairwise (Spread st) :=
  he.pairwise (fun _ _ _ _ hx hy h => h.shrink (hx.2 _ rfl) (hy.2 _ rfl)) hp

theorem spread_same {st' : State} {rows : List Row} (hp : rows.Pairwise (Spread st))
    (hs : st'.sessions = st.sessions) : rows.Pairwise (Spread st') :=
  hp.imp fun h => h.sessions fun a s ha => .inl (by rwa [hs] at ha)

theorem spread_fresh {st' : State} (h : Inv st g) {rows : List Row}
    (hp : rows.Pairwise (Spread st))
    (hrows : ∀ v ∈ rows,∃ w ∈ st.rows,w.Shrinks v)
    (hs : ∀ a s,st'.sessions.lookup a = some s →
      st.sessions.lookup a = some s ∨ s.update ∉ g.issued) : rows.Pairwise (Spread st') := by
  refine hp.imp_of_mem fun {v w} hv _ hsp => hsp.sessions fun a s ha => ?_
  refine (hs a s ha).imp_right fun hn hu => hn ?_
  obtain ⟨u,hu',hsh⟩ := hrows v hv
  obtain ⟨hpos,he⟩ := hsh.update hu.1
  rw [← hu.2,he]
  exact h.update_issued hu' hpos

theorem Inv.same_session (h : Inv st g) {a : Nat} {s' : Session}
    (hs : st.sessions.lookup sid = some s) (ha : st.sessions.lookup a = some s')
    (he : s.dialog = s'.dialog ∨ s.update = s'.update) : s' = s := by
  have hsid : sid = a := by
    rcases he with he | he
    · exact (h.unique sid a .dialog .dialog s'.dialog ⟨s,hs,he⟩ ⟨s',ha,rfl⟩).1
    · exact (h.unique sid a .update .update s'.update ⟨s,hs,he⟩ ⟨s',ha,rfl⟩).1
  rw [hsid,ha] at hs
  exact Option.some.inj hs

theorem merges_of_hasUpdate {w : Row} (hk : w.key = r.key) (hu : s.hasUpdate w) :
    s.merges r (garg r.client r.fields) w :=
  ⟨holds_iff.mpr ⟨.inr hu,hk⟩,.inr hu.2⟩

theorem merges_halves {w : Row} (h : s.merges r (garg r.client r.fields) w) :
    s.hasUpdate w ∨ w.updates = 0 ∧ s.hasDialog w := by
  obtain ⟨hd | hu,-⟩ := holds_iff.mp h.1
  · rcases Nat.eq_zero_or_pos w.updates with h0 | h0
    · exact .inr ⟨h0,hd⟩
    · exact .inl ⟨h0,h.2.resolve_left (by omega)⟩
  · exact .inl hu

theorem Spread.before_taken (h : Inv st g) (hs : st.sessions.lookup sid = some s) {u v : Row}
    (hu : u.key = r.key)
    (hsrc : (Spread st v u ∧ s.merges r (garg r.client r.fields) u) ∨
      (u.dialogs = 0 ∧ u.updates = 0 ∧ ¬s.merges r (garg r.client r.fields) v))
    (hd : scopeOf r ≠ 2 → v.key = r.key → ¬s.hasDialog v) :
    Spread st v (s.take (scopeOf r) u) := by
  obtain ⟨hk,hdo,huo,hds,hus⟩ := take_halves s r u
  have hcur : v.key = r.key → ¬s.hasUpdate v := by
    intro hkey hv
    rcases hsrc with ⟨hsp,hm⟩ | ⟨-,-,hnm⟩
    · rcases merges_halves hm with hc | ⟨-,hc⟩
      · exact (hsp.1 (hkey.trans hu.symm)).2 ⟨hv.1,hc.1,hv.2.trans hc.2.symm⟩
      · exact hsp.2 (hkey.trans hu.symm) sid s hs ⟨hv,hc⟩
    · exact hnm (merges_of_hasUpdate hkey hv)
  refine ⟨fun hkey => ⟨?_,?_⟩,fun hkey a s' ha => ?_⟩
  all_goals rw [hk] at hkey
  · rintro ⟨h1,h2,he⟩
    by_cases h2c : scopeOf r = 2
    · rw [if_neg (not_not.mpr h2c)] at hdo hds
      rw [Nat.add_zero] at hds
      rcases hsrc with ⟨hsp,-⟩ | ⟨h0,-,-⟩
      · exact (hsp.1 hkey).1 ⟨h1,hds ▸ h2,he.trans hdo⟩
      · omega
    · rw [if_pos h2c] at hdo
      exact hd h2c (hkey.trans hu) ⟨h1,he.trans hdo⟩
  · rintro ⟨h1,h2,he⟩
    by_cases h1c : scopeOf r = 1
    · rw [if_neg (not_not.mpr h1c)] at huo hus
      rw [Nat.add_zero] at hus
      rcases hsrc with ⟨hsp,-⟩ | ⟨-,h0,-⟩
      · exact (hsp.1 hkey).2 ⟨h1,hus ▸ h2,he.trans huo⟩
      · omega
    · rw [if_pos h1c] at huo
      exact hcur (hkey.trans hu) ⟨h1,he.trans huo⟩
  · rintro ⟨hv,hw⟩
    by_cases h2c : scopeOf r = 2
    · rw [if_neg (not_not.mpr h2c)] at hdo hds
      rw [Nat.add_zero] at hds
      rcases hsrc with ⟨hsp,-⟩ | ⟨h0,-,-⟩
      · exact hsp.2 hkey a s' ha ⟨hv,hds ▸ hw.1,hdo ▸ hw.2⟩
      · have := hw.1
        omega
    · rw [if_pos h2c] at hdo
      obtain rfl := h.same_session hs ha (.inl (hdo.symm.trans hw.2))
      exact hcur (hkey.trans hu) hv

theorem Spread.after_taken (h : Inv st g) (hs : st.sessions.lookup sid = some s) {u w : Row}
    (hu : u.key = r.key) (hsp : Spread st u w) (hm : s.merges r (garg r.client r.fields) u)
    (hw : ¬s.merges r (garg r.client r.fields) w)
    (hd : scopeOf r ≠ 2 → w.key = r.key → ¬s.hasDialog w) :
    Spread st (s.take (scopeOf r) u) w := by
  obtain ⟨hk,hdo,huo,hds,hus⟩ := take_halves s r u
  refine ⟨fun hkey => ⟨?_,?_⟩,fun hkey a s' ha => ?_⟩
  all_goals rw [hk] at hkey
  · rintro ⟨h1,h2,he⟩
    by_cases h2c : scopeOf r = 2
    · rw [if_neg (not_not.mpr h2c)] at hdo hds
      rw [Nat.add_zero] at hds
      exact (hsp.1 hkey).1 ⟨hds ▸ h1,h2,hdo ▸ he⟩
    · rw [if_pos h2c] at hdo
      exact hd h2c (hkey.symm.trans hu) ⟨h2,he.symm.trans hdo⟩
  · rintro ⟨h1,h2,he⟩
    by_cases h1c : scopeOf r = 1
    · rw [if_neg (not_not.mpr h1c)] at huo hus
      rw [Nat.add_zero] at hus
      exact (hsp.1 hkey).2 ⟨hus ▸ h1,h2,huo ▸ he⟩
    · rw [if_pos h1c] at huo
      exact hw (merges_of_hasUpdate (hkey.symm.trans hu) ⟨h2,he.symm.trans huo⟩)
  · rintro ⟨hv,hw'⟩
    by_cases h1c : scopeOf r = 1
    · rw [if_neg (not_not.mpr h1c)] at huo hus
      rw [Nat.add_zero] at hus
      exact hsp.2 hkey a s' ha ⟨⟨hus ▸ hv.1,huo ▸ hv.2⟩,hw'⟩
    · rw [if_pos h1c] at huo
      obtain rfl := h.same_session hs ha (.inr (huo.symm.trans hv.2))
      rcases merges_halves hm with hc | ⟨-,hc⟩
      · exact hsp.2 hkey a s' ha ⟨hc,hw'⟩
      · exact (hsp.1 hkey).1 ⟨hc.1,hw'.1,hc.2.trans hw'.2.symm⟩

theorem spread_enqueue (h : Inv st g) (hp : st.rows.Pairwise (Spread st))
    (hg : ¬st.splits (.enqueue sid r now)) :
    (st.enqueue sid r now).1.rows.Pairwise (Spread st) := by
  have hlone : ∀ s,st.sessions.lookup sid = some s →
      (∀ w ∈ st.rows,s.refusal sid r (garg r.client r.fields) w = none) →
      ∀ pre w post,st.rows = pre ++ w :: post → (s.merges r (garg r.client r.fields) w →
          ∃ v ∈ post,s.merges r (garg r.client r.fields) v) →
        scopeOf r ≠ 2 → w.key = r.key → ¬s.hasDialog w := by
    intro s hs hno pre w post hrows hm h2 hk hd
    refine hg ⟨s,hs,h2,hno,pre,w,post,hrows,hk,hd,?_⟩
    rintro ⟨hmw,hpost⟩
    obtain ⟨v,hv,hmv⟩ := hm hmw
    exact hpost v hv hmv
  have hc := enqueue_cases st sid r now
  generalize (st.enqueue sid r now).1 = st' at hc ⊢
  generalize (st.enqueue sid r now).2 = res at hc
  cases hc with
  | unknown hs => exact hp
  | refused s pre w post e hs hrows hw hpre => exact hp
  | fresh s hs hno hnm =>
    rw [List.pairwise_append]
    refine ⟨hp,List.pairwise_singleton _ _,?_⟩
    intro v hv w hw
    rw [List.mem_singleton.mp hw]
    refine Spread.before_taken h hs rfl (.inr ⟨rfl,rfl,hnm v hv⟩) ?_
    obtain ⟨A,B,hAB⟩ := List.append_of_mem hv
    exact hlone s hs hno A v B hAB (fun hm => (hnm v hv hm).elim)
  | merged s pre u post hs hrows hno hm hpost =>
    have hu : u.key = r.key := (holds_iff.mp hm.1).2
    rw [hrows,List.pairwise_append,List.pairwise_cons] at hp
    obtain ⟨hpre,⟨hup,hpp⟩,hcross⟩ := hp
    rw [List.pairwise_append,List.pairwise_cons]
    refine ⟨hpre,⟨?_,hpp⟩,?_⟩
    · intro w hw
      refine Spread.after_taken h hs hu (hup w hw) hm (hpost w hw) ?_
      obtain ⟨A,B,hAB⟩ := List.append_of_mem hw
      exact hlone s hs hno (pre ++ u :: A) w B (by simp [hrows,hAB])
        (fun hm => (hpost w hw hm).elim)
    · intro v hv w hw
      rcases List.mem_cons.mp hw with rfl | hw
      · refine Spread.before_taken h hs hu (.inl ⟨hcross v hv u (by simp),hm⟩) ?_
        obtain ⟨A,B,hAB⟩ := List.append_of_mem hv
        exact hlone s hs hno A v (B ++ u :: post) (by simp [hrows,hAB])
          (fun _ => ⟨u,by simp,hm⟩)
      · exact hcross v hv w (by simp [hw])

theorem spread_step (h : Inv st g) {op : Op} (hn : (g.record st op).issued.Nodup)
    (hp : st.rows.Pairwise (Spread st)) (hg : ¬st.splits op) :
    (st.step op).1.rows.Pairwise (Spread (st.step op).1) := by
  have hself : ∀ v ∈ st.rows,∃ w ∈ st.rows,w.Shrinks v :=
    fun v hv => ⟨v,hv,tidy_shrinks (h.tidy v hv)⟩
  have hnew : ∀ o ∈ st.issues op,o ∉ g.issued :=
    fun o ho hi => (List.nodup_append'.mp hn).2.2 hi ho
  cases op with
  | openSession user now₁ now₂ =>
    refine spread_fresh h hp hself fun a s ha => ?_
    simp only [State.step,State.openSession] at ha
    by_cases he : a = st.seq + 1
    · rw [he,AList.lookup_insert,Option.some.injEq] at ha
      refine .inr (hnew _ ?_)
      simp [State.issues,← ha]
    · rw [AList.lookup_insert_ne he] at ha
      exact .inl ha
  | enqueue sid r now =>
    obtain ⟨rows,hrows⟩ := step_plain st (.enqueue sid r now) rfl
    exact spread_same (spread_enqueue h hp hg) (hrows ▸ rfl)
  | dequeue sid r =>
    obtain ⟨rows,hrows⟩ := step_plain st (.dequeue sid r) rfl
    exact spread_same (spread_evolves hp (dequeue_evolves h sid r)) (hrows ▸ rfl)
  | dequeueAll sid =>
    exact spread_same (spread_evolves hp (release_evolves h sid)) (by simp [State.step])
  | commit sid updated now =>
    simp only [State.step,State.commit]
    cases hs : st.sessions.lookup sid with
    | none => exact hp
    | some s =>
      cases updated with
      | false => exact hp
      | true =>
        refine spread_fresh h hp hself fun a s' ha => ?_
        simp only [Bool.true_eq_false,if_false] at ha
        by_cases he : a = sid
        · rw [he,AList.lookup_insert,Option.some.injEq] at ha
          refine .inr (hnew _ ?_)
          simp [State.issues,hs,← ha]
        · rw [AList.lookup_insert_ne he] at ha
          exact .inl ha
  | updateDone sid owner =>
    simp only [State.step,State.updateDone]
    split_ifs
    · exact hp
    · exact spread_same (spread_evolves hp (releaseUpdate_evolves h sid owner)) rfl
  | rollback sid now =>
    simp only [State.step,State.rollback]
    cases hs : st.sessions.lookup sid with
    | none => exact hp
    | some s =>
      refine spread_fresh h (spread_evolves hp (releaseUpdate_evolves h sid s.update)) ?_ ?_
      · intro v hv
        obtain ⟨w,hw,hsh,-⟩ := mem_releaseUpdate hv
        exact ⟨w,hw,hsh⟩
      · intro a s' ha
        by_cases he : a = sid
        · rw [he,AList.lookup_insert,Option.some.injEq] at ha
          refine .inr (hnew _ ?_)
          simp only [State.issues,hs,Option.isSome_some,if_true,List.mem_singleton]
          exact ha ▸ rfl
        · rw [AList.lookup_insert_ne he] at ha
          exact .inl ha
  | endSession sid =>
    have hr := spread_evolves hp (release_evolves h sid)
    refine hr.imp fun hsp => hsp.sessions fun a s ha => .inl ?_
    simp only [State.step,State.endSession,release_sessions] at ha
    by_cases he : a = sid
    · rw [he,AList.lookup_erase] at ha
      cases ha
    · rwa [AList.lookup_erase_ne he] at ha
  | _ => exact hp

theorem splits_apart {op : Op} (hsp : st.splits op) : ¬(st.step op).1.rows.Pairwise Apart := by
  cases op with
  | enqueue sid r now =>
    obtain ⟨s,hs,h2,hno,pre,w,post,hrows,hk,hd,hnot⟩ := hsp
    have htaken : ∀ u,u.key = r.key → w.key = (s.take (scopeOf r) u).key ∧ 0 < w.dialogs ∧
        0 < (s.take (scopeOf r) u).dialogs ∧ w.dialog = (s.take (scopeOf r) u).dialog := by
      intro u hu
      obtain ⟨hku,hdo,-,hds,-⟩ := take_halves s r u
      rw [if_pos h2] at hdo hds
      exact ⟨by rw [hku,hk,hu],hd.1,by omega,by rw [hdo,hd.2]⟩
    simp only [State.step]
    have hc := enqueue_cases st sid r now
    generalize (st.enqueue sid r now).1 = st' at hc ⊢
    generalize (st.enqueue sid r now).2 = res at hc
    intro hp
    cases hc with
    | unknown hs' => simp [hs] at hs'
    | refused s' pre' v post' e hs' hrows' hv hpre' =>
      obtain rfl : s = s' := by rw [hs] at hs'; exact Option.some.inj hs'
      rw [hno v (hrows' ▸ by simp)] at hv
      cases hv
    | fresh s' hs' hno' hnm =>
      obtain rfl : s = s' := by rw [hs] at hs'; exact Option.some.inj hs'
      obtain ⟨h1,h2,h3,h4⟩ := htaken (s.newRow sid r (garg r.client r.fields) now) rfl
      rw [List.pairwise_append] at hp
      exact (hp.2.2 w (by simp [hrows]) _ (by simp) h1).1 ⟨h2,h3,h4⟩
    | merged s' A u B hs' hrows' hno' hm hpost =>
      obtain rfl : s = s' := by rw [hs] at hs'; exact Option.some.inj hs'
      obtain ⟨h1,h2,h3,h4⟩ := htaken u (holds_iff.mp hm.1).2
      rw [List.pairwise_append,List.pairwise_cons] at hp
      rw [hrows] at hrows'
      -- the row with the dialog half stands before, at or after the row that was taken
      rcases List.append_eq_append_iff.mp hrows' with ⟨C,rfl,hC⟩ | ⟨C,rfl,hC⟩
      · cases C with
        | nil =>
          obtain ⟨rfl,rfl⟩ := List.cons.inj hC
          exact hnot ⟨hm,hpost⟩
        | cons x C =>
          obtain ⟨rfl,-⟩ := List.cons.inj hC
          exact (hp.2.2 w (by simp) _ (by simp) h1).1 ⟨h2,h3,h4⟩
      · cases C with
        | nil =>
          obtain ⟨rfl,rfl⟩ := List.cons.inj hC
          exact hnot ⟨hm,hpost⟩
        | cons x C =>
          obtain ⟨-,rfl⟩ := List.cons.inj hC
          exact (hp.2.1.1 w (by simp) h1.symm).1 ⟨h3,h2,h4.symm⟩
  | _ => exact hsp.elim

def cumulating : List Op :=
  [.openSession "ANNA" noon noon,.enqueue 1 (lockOf "S" 3 "LH") noon,.enqueue 1 (lockOf "S" 3 "LH") noon,
    .enqueue 1 (lockOf "E" 2 "AF") noon,.commit 1 true noon]

theorem unique_rows_iff (instanceName : String) (ops : List Op)
    (hd : (history instanceName ops).2.issued.Nodup) :
    (∀ pre post, ops = pre ++ post → (history instanceName pre).1.rows.Pairwise Apart) ↔
      server.Obeys (fun p op => ¬p.1.splits op) (State.new instanceName,{}) ops := by
  constructor
  · intro h
    rw [StepMachine.obeys_iff]
    rintro pre op post rfl hsp
    have hp := h (pre ++ [op]) post (by simp)
    rw [history_snoc] at hp
    exact splits_apart hsp hp
  · rintro hg pre post rfl
    have hrun := server.invariant_guarded
      (fun p => Inv p.1 p.2 ∧ p.1.rows.Pairwise (Spread p.1)) (fun p => p.2.issued.Nodup)
      (fun p op => ¬p.1.splits op) nodup_backward
      (fun p op h hg hn => ⟨h.1.step op hn,spread_step h.1 hn h.2 hg⟩)
      ⟨Inv.new instanceName,by simp [State.new]⟩
      ((StepMachine.obeys_append server _ _ pre post).mp hg).1 (history_nodup_left hd)
    exact hrun.2.imp fun h => h.1

theorem unique_rows_cumulating :
    (history "srv" cumulating).1.rows.map (fun w => (w.dialogs,w.updates)) = [(2,2),(0,1)] ∧
    ∀ pre post, cumulating = pre ++ post → (history "srv" pre).1.rows.Pairwise Apart := by
  refine ⟨by decide,(unique_rows_iff "srv" cumulating (by decide)).mpr ?_⟩
  refine ⟨id,?_,?_,fun h => h.elim fun _ h => h.2.1 rfl,id,trivial⟩
  · rintro ⟨s,-,-,-,pre,w,post,hrows,-⟩
    have hempty : pre ++ w :: post = [] := hrows.symm
    simp at hempty
  -- the one row there is the one that the repeated enqueue adds to
  · rintro ⟨s,hs,-,-,pre,w,post,hrows,-,-,hno⟩
    obtain rfl := Option.some.inj hs
    cases pre with
    | nil =>
      obtain ⟨rfl,rfl⟩ := List.cons.inj hrows
      exact hno ⟨by decide,List.forall_mem_nil _⟩
    | cons v pre => exact absurd (List.cons.inj hrows).2 (by simp)

theorem repeated_enqueue_splits :
    ¬∀ instanceName ops, (history instanceName ops).2.issued.Nodup →
      (history instanceName ops).1.rows.Pairwise Apart := by
  intro h
  exact absurd (h "srv" (pendingUpdate ++ [.enqueue 1 (lockOf "S" 3 "LH") noon]) (by decide))
    (by decide)

end OpenSteamgate.Enq
