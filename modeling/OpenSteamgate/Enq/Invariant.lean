import OpenSteamgate.Enq.Ownership

namespace OpenSteamgate.Enq

variable {st : State} {g : Log} {sid : Nat}

theorem ownerID_length (st : State) (now : Time) : (st.ownerID now).2.length = 58 := by
  simp only [State.ownerID,List.length_append,List.length_take,List.length_replicate]
  omega

theorem ownerID_ne_nil (st : State) (now : Time) : (st.ownerID now).2 ≠ [] := by
  intro h
  simpa [h] using ownerID_length st now

@[simp] theorem ownerID_state (st : State) (now : Time) :
    (st.ownerID now).1 = { st with seq := st.seq + 1 } := rfl

theorem Inv.renew (h : Inv st g) {s : Session} (hs : st.sessions.lookup sid = some s)
    {rows : List Row} {ended pending : List (Nat × OwnerID)} {o : OwnerID} (ho : o ≠ [])
    (hfresh : o ∉ g.issued)
    (hended : ended = g.ended ∨ ended = g.ended ++ [(sid,s.update)])
    (hpending : ∀ q ∈ pending,q ∈ ended) (hkeep : ∀ q ∈ g.pending,q ∈ pending)
    (hrows : ∀ v ∈ rows,RowOk st g v)
    (hhanded : ∀ v ∈ rows,v.session = sid → 0 < v.updates → v.update = s.update → (sid,s.update) ∈ pending) :
    Inv ⟨rows,st.sessions.insert sid { s with update := o },st.seq + 1,st.instanceName⟩
      ⟨g.issued ++ [o],ended,pending⟩ := by
  -- the roles after the renewal: the new update owner, the one it replaces, or an old role
  have hcases : ∀ a r x,Plays (st.sessions.insert sid { s with update := o }) ended a r x →
      (a = sid ∧ r = .update ∧ x = o) ∨ (a = sid ∧ r = .ended ∧ x = s.update) ∨
        (Plays st.sessions g.ended a r x ∧ (a = sid → r ≠ .update)) := by
    intro a r x hp
    have hd : Plays st.sessions g.ended sid .dialog s.dialog := ⟨s,hs,rfl⟩
    rcases plays_insert hp with ⟨rfl,⟨rfl,rfl⟩ | ⟨rfl,rfl⟩⟩ | ⟨hp,hr⟩
    · exact .inr (.inr ⟨hd,by simp⟩)
    · exact .inl ⟨rfl,rfl,rfl⟩
    · rcases hended with rfl | rfl
      · exact .inr (.inr ⟨hp,fun ha => by simp [hr ha]⟩)
      · rcases plays_append hp with hp | ⟨rfl,hq⟩
        · exact .inr (.inr ⟨hp,fun ha => by simp [hr ha]⟩)
        · rw [Prod.mk.injEq] at hq
          exact .inr (.inl ⟨hq.1,rfl,hq.2⟩)
  have hu : Plays st.sessions g.ended sid .update s.update := ⟨s,hs,rfl⟩
  have hold : ∀ a r,¬Plays st.sessions g.ended a r o := fun a r hp => hfresh (h.issued a r o hp)
  have hne : s.update ≠ o := fun he => hold sid .update (he ▸ hu)
  refine ⟨?_,?_,?_,?_,hpending,?_,?_⟩
  · intro v hv
    have hok := hrows v hv
    refine ⟨hok.tidy,?_,?_,hok.known.trans (Nat.le_succ _)⟩
    · intro hd
      obtain ⟨s',hs',he⟩ := hok.dialog hd
      by_cases hsid : v.session = sid
      · rw [hsid,hs,Option.some.injEq] at hs'
        exact ⟨{ s with update := o },by rw [hsid,AList.lookup_insert],by rw [← he,← hs']⟩
      · exact ⟨s',by rw [AList.lookup_insert_ne hsid,hs'],he⟩
    · intro hup
      rcases hok.update hup with ⟨s',hs',he⟩ | hp
      · by_cases hsid : v.session = sid
        · rw [hsid,hs,Option.some.injEq] at hs'
          have hvu : v.update = s.update := by rw [← he,← hs']
          exact .inr (hsid ▸ hvu ▸ hhanded v hv hsid hup hvu)
        · exact .inl ⟨s',by rw [AList.lookup_insert_ne hsid,hs'],he⟩
      · exact .inr (hkeep _ hp)
  · intro a b r r' x ha hb
    rcases hcases a r x ha with ⟨rfl,rfl,rfl⟩ | ⟨rfl,rfl,rfl⟩ | ⟨ha',hra⟩
    · rcases hcases b r' _ hb with ⟨rfl,rfl,-⟩ | ⟨-,-,he⟩ | ⟨hb,-⟩
      · exact ⟨rfl,rfl⟩
      · exact (hne he.symm).elim
      · exact (hold b r' hb).elim
    · rcases hcases b r' _ hb with ⟨-,-,he⟩ | ⟨rfl,rfl,-⟩ | ⟨hb,hrb⟩
      · exact (hne he).elim
      · exact ⟨rfl,rfl⟩
      · obtain ⟨rfl,rfl⟩ := h.unique _ _ _ _ _ hu hb
        exact (hrb rfl rfl).elim
    · rcases hcases b r' _ hb with ⟨-,-,rfl⟩ | ⟨rfl,rfl,rfl⟩ | ⟨hb,-⟩
      · exact (hold a r ha').elim
      · obtain ⟨rfl,rfl⟩ := h.unique _ _ _ _ _ hu ha'
        exact (hra rfl rfl).elim
      · exact h.unique _ _ _ _ _ ha' hb
  · intro a r x hp
    rcases hcases a r x hp with ⟨-,-,rfl⟩ | ⟨-,-,rfl⟩ | ⟨hp,-⟩
    · simp
    · exact List.mem_append_left _ (h.issued _ _ _ hu)
    · exact List.mem_append_left _ (h.issued _ _ _ hp)
  · intro x hx
    rcases List.mem_append.mp hx with hx | hx
    · exact h.filled x hx
    · exact List.mem_singleton.mp hx ▸ ho
  · intro a s' ha
    by_cases hsid : a = sid
    · subst hsid
      exact (h.opened a s hs).trans (Nat.le_succ _)
    · rw [AList.lookup_insert_ne hsid] at ha
      exact (h.opened a s' ha).trans (Nat.le_succ _)
  · intro q hq
    have hsid := h.opened sid s hs
    rcases hended with rfl | rfl
    · exact (h.closed q hq).trans (Nat.le_succ _)
    · rcases List.mem_append.mp hq with hq | hq
      · exact (h.closed q hq).trans (Nat.le_succ _)
      · rw [List.mem_singleton.mp hq]
        exact hsid.trans (Nat.le_succ _)

theorem Inv.open_step (h : Inv st g) (user : String) (now₁ now₂ : Time)
    (hn : (g.issued ++ st.issues (.openSession user now₁ now₂)).Nodup) :
    Inv (st.openSession user now₁ now₂).1 (g.record st (.openSession user now₁ now₂)) := by
  simp only [State.issues,State.openSession,ownerID_state] at hn ⊢
  generalize hd : (State.ownerID { st with seq := st.seq + 1 } now₁).2 = d at hn ⊢
  generalize hu : (State.ownerID { st with seq := st.seq + 1 + 1 } now₂).2 = u at hn ⊢
  have hdn : d ≠ [] := hd ▸ ownerID_ne_nil _ _
  have hun : u ≠ [] := hu ▸ ownerID_ne_nil _ _
  have hrec : g.record st (.openSession user now₁ now₂) = ⟨g.issued ++ [d,u],g.ended,g.pending⟩ := by
    simp only [Log.record,State.issues,State.ends,Op.settles,List.append_nil,ownerID_state,hd,hu]
    simp
  rw [hrec]
  obtain ⟨-,hdu,hdis⟩ := List.nodup_append'.mp hn
  have hnew : ∀ x ∈ [d,u],x ∉ g.issued := fun x hx hi => hdis hi hx
  have hne : d ≠ u := by simpa using hdu
  have hlook : st.sessions.lookup (st.seq + 1) = none := by
    by_contra hc
    obtain ⟨s,hs⟩ := Option.ne_none_iff_exists'.mp hc
    have := h.opened _ s hs
    omega
  have hlt : ∀ a,a ≤ st.seq → a ≠ st.seq + 1 := fun a ha => by omega
  have hcases : ∀ a r x,Plays (st.sessions.insert (st.seq + 1) ⟨user,d,u⟩) g.ended a r x →
      (a = st.seq + 1 ∧ (r = .dialog ∧ x = d ∨ r = .update ∧ x = u)) ∨
        Plays st.sessions g.ended a r x := by
    intro a r x hp
    rcases plays_insert hp with hp | hp
    · exact .inl hp
    · exact .inr hp.1
  have hold : ∀ a r x,x ∈ [d,u] → ¬Plays st.sessions g.ended a r x :=
    fun a r x hx hp => hnew x hx (h.issued a r x hp)
  refine ⟨?_,?_,?_,?_,h.pending,?_,?_⟩
  · intro w hw
    have hok := h.rows w hw
    have hne' := hlt _ hok.known
    refine ⟨hok.tidy,?_,?_,hok.known.trans (Nat.le_add_right _ 3)⟩
    · intro hd
      exact (plays_insert_ne hne').mpr (hok.dialog hd)
    · intro hu
      exact (hok.update hu).imp_left (plays_insert_ne hne').mpr
  · intro a b r r' x ha hb
    rcases hcases a r x ha with ⟨rfl,⟨rfl,rfl⟩ | ⟨rfl,rfl⟩⟩ | ha'
    · rcases hcases b r' _ hb with ⟨rfl,⟨rfl,-⟩ | ⟨rfl,he⟩⟩ | hb
      · exact ⟨rfl,rfl⟩
      · exact (hne he).elim
      · exact (hold _ _ _ (by simp) hb).elim
    · rcases hcases b r' _ hb with ⟨rfl,⟨rfl,he⟩ | ⟨rfl,-⟩⟩ | hb
      · exact (hne he.symm).elim
      · exact ⟨rfl,rfl⟩
      · exact (hold _ _ _ (by simp) hb).elim
    · rcases hcases b r' _ hb with ⟨rfl,⟨rfl,rfl⟩ | ⟨rfl,rfl⟩⟩ | hb
      · exact (hold a r _ (by simp) ha').elim
      · exact (hold a r _ (by simp) ha').elim
      · exact h.unique _ _ _ _ _ ha' hb
  · intro a r x hp
    rcases hcases a r x hp with ⟨-,⟨-,rfl⟩ | ⟨-,rfl⟩⟩ | hp
    · simp
    · simp
    · exact List.mem_append_left _ (h.issued _ _ _ hp)
  · intro x hx
    rcases List.mem_append.mp hx with hx | hx
    · exact h.filled x hx
    · simp only [List.mem_cons,List.not_mem_nil,or_false] at hx
      rcases hx with rfl | rfl <;> assumption
  · intro a s ha
    by_cases hsid : a = st.seq + 1
    · subst hsid
      exact Nat.le_add_right _ 2
    · rw [AList.lookup_insert_ne hsid] at ha
      exact (h.opened a s ha).trans (Nat.le_add_right _ 3)
  · intro q hq
    exact (h.closed q hq).trans (Nat.le_add_right _ 3)

theorem Inv.release_step (h : Inv st g) (sid : Nat) : Inv (st.release sid) g := by
  unfold State.release
  cases hs : st.sessions.lookup sid with
  | none => exact h
  | some s =>
    apply h.shrink
    intro v hv
    simp only [List.filterMap_map,List.mem_filterMap,Function.comp_apply] at hv
    obtain ⟨w,hw,hv⟩ := hv
    exact ⟨w,hw,releaseRow_shrinks hv⟩

theorem Inv.dequeue_step (h : Inv st g) (sid : Nat) (r : Request) : Inv (st.dequeue sid r) g := by
  unfold State.dequeue
  cases hs : st.sessions.lookup sid with
  | none => exact h
  | some s =>
    apply h.shrink
    intro v hv
    obtain ⟨u,hu,hv⟩ := List.mem_filterMap.mp hv
    have hkeep : u ∈ st.rows → ∃ w ∈ st.rows,w.Shrinks v := by
      intro hu
      have ht := h.tidy u hu
      rw [swept_of_tidy ht,Option.some.injEq] at hv
      exact ⟨u,hu,hv ▸ tidy_shrinks ht⟩
    rcases dequeueRows_cases s r (garg r.client r.fields) st.rows with
      ⟨heq,-⟩ | ⟨pre,w,post,hrows,-,-,-,heq⟩
    · exact hkeep (heq ▸ hu)
    · rw [heq,List.mem_append,List.mem_cons] at hu
      rcases hu with hu | rfl | hu
      · exact hkeep (by simp [hrows,hu])
      · exact ⟨w,by simp [hrows],drop_shrinks hv⟩
      · exact hkeep (by simp [hrows,hu])

theorem RowOk.take (h : Inv st g) {s : Session} (hs : st.sessions.lookup sid = some s)
    {w : Row} (hw : w.session = sid) (scope : Int) (hscope : scope = 1 ∨ scope = 2 ∨ scope = 3)
    (hd : 0 < w.dialogs → Plays st.sessions g.ended w.session .dialog w.dialog)
    (hu : 0 < w.updates → Plays st.sessions g.ended w.session .update w.update ∨
      (w.session,w.update) ∈ g.pending)
    (hbd : w.dialogs = 0 → w.dialog = []) (hbu : w.updates = 0 → w.update = []) :
    RowOk st g (s.take scope w) := by
  have hpd : Plays st.sessions g.ended sid .dialog s.dialog := ⟨s,hs,rfl⟩
  have hpu : Plays st.sessions g.ended sid .update s.update := ⟨s,hs,rfl⟩
  subst hw
  have hk := h.opened _ s hs
  unfold Session.take
  rcases hscope with rfl | rfl | rfl
  · exact ⟨⟨.inl (by simp),by simp,by simpa using hbu⟩,fun _ => hpd,by simpa using hu,hk⟩
  · exact ⟨⟨.inr (by simp),by simpa using hbd,by simp⟩,by simpa using hd,fun _ => .inl hpu,hk⟩
  · exact ⟨⟨.inl (by simp),by simp,by simp⟩,fun _ => hpd,fun _ => .inl hpu,hk⟩

theorem Inv.enqueue_step (h : Inv st g) (sid : Nat) (r : Request) (now : Time) :
    Inv (st.enqueue sid r now).1 g := by
  have hc := enqueue_cases st sid r now
  generalize (st.enqueue sid r now).1 = st' at hc ⊢
  generalize (st.enqueue sid r now).2 = res at hc
  cases hc with
  | unknown hs => exact h
  | refused s pre w post e hs hrows hw hpre => exact h
  | fresh s hs hno hnm =>
    apply h.replace_rows
    intro w hw
    rcases List.mem_append.mp hw with hw | hw
    · exact h.rows w hw
    · rw [List.mem_singleton.mp hw]
      exact RowOk.take h hs rfl _ (scope_cases r) (by simp [Session.newRow])
        (by simp [Session.newRow]) (fun _ => rfl) (fun _ => rfl)
  | merged s pre w post hs hrows hno hm hpost =>
    apply h.replace_rows
    have hmem : ∀ v,v ∈ pre ++ w :: post → RowOk st g v := fun v hv => h.rows v (hrows ▸ hv)
    have hw := hmem w (by simp)
    intro v hv
    rw [List.mem_append,List.mem_cons] at hv
    rcases hv with hv | rfl | hv
    · exact hmem v (by simp [hv])
    · exact RowOk.take h hs (h.owner_session hs (hrows ▸ by simp) hm.1.1) _ (scope_cases r)
        hw.dialog hw.update hw.tidy.2.1 hw.tidy.2.2
    · exact hmem v (by simp [hv])

theorem mem_releaseUpdate {v : Row} {owner : OwnerID}
    (hv : v ∈ (st.releaseUpdate sid owner).rows) :
    ∃ w ∈ st.rows,w.Shrinks v ∧ (owner ≠ [] → v.session = sid → 0 < v.updates →
      v.update ≠ owner) := by
  simp only [State.releaseUpdate,sweep_rows,List.filterMap_map,List.mem_filterMap,Function.comp_apply] at hv
  obtain ⟨w,hw,hv⟩ := hv
  have hs := releaseUpdateRow_shrinks hv
  refine ⟨w,hw,hs,?_⟩
  intro ho hsid hu he
  obtain ⟨-,-,-,hus,-,-⟩ := swept_eq_some hv
  rw [bare_session hs.bare] at hsid
  rw [(hs.update hu).2] at he
  simp only [releaseUpdateRow,if_pos (show w.session = sid ∧ w.update = owner ∧ owner ≠ [] from
    ⟨hsid,he,ho⟩)] at hus
  omega

theorem Inv.updateDone_step (h : Inv st g) (sid : Nat) (owner : OwnerID) :
    Inv (st.updateDone sid owner) (g.record st (.updateDone sid owner)) := by
  have hrec : g.record st (.updateDone sid owner) =
      ⟨g.issued,g.ended,g.pending.filter fun p => !(p == (sid,owner))⟩ := by
    simp [Log.record,State.issues,State.ends,Op.settles]
  rw [hrec]
  have hsub : ∀ q,q ∈ g.pending.filter (fun p => !(p == (sid,owner))) ↔
      q ∈ g.pending ∧ q ≠ (sid,owner) := by simp
  have hpend : ∀ q ∈ g.pending.filter (fun p => !(p == (sid,owner))),q ∈ g.ended :=
    fun q hq => h.pending q ((hsub q).mp hq).1
  have hrow : ∀ {st' : State} {v : Row},st'.sessions = st.sessions → st'.seq = st.seq →
      RowOk st g v → (0 < v.updates → (v.session,v.update) ≠ (sid,owner) ∨ owner = []) →
      RowOk st' ⟨g.issued,g.ended,g.pending.filter fun p => !(p == (sid,owner))⟩ v := by
    intro st' v hss hseq hv hne
    refine ⟨hv.tidy,by simpa only [hss] using hv.dialog,?_,hseq ▸ hv.known⟩
    intro hu
    simp only [hss]
    rcases hv.update hu with hp | hp
    · exact .inl hp
    · have hq : (v.session,v.update) ≠ (sid,owner) := by
        rcases hne hu with hne | rfl
        · exact hne
        · intro he
          rw [Prod.mk.injEq] at he
          exact h.filled _ (h.issued v.session .ended v.update (h.pending _ hp)) he.2
      exact .inr ((hsub _).mpr ⟨hp,hq⟩)
  unfold State.updateDone
  split_ifs with ho
  · exact ⟨fun w hw => hrow rfl rfl (h.rows w hw) (fun _ => .inr ho),h.unique,h.issued,h.filled,
      hpend,h.opened,h.closed⟩
  · refine ⟨?_,h.unique,h.issued,h.filled,hpend,h.opened,h.closed⟩
    intro v hv
    obtain ⟨w,hw,hs,hne⟩ := mem_releaseUpdate hv
    refine hrow rfl rfl ((h.rows w hw).shrink hs) ?_
    intro hu
    left
    intro he
    rw [Prod.mk.injEq] at he
    exact hne ho he.1 hu he.2

theorem Inv.rollback_step (h : Inv st g) (sid : Nat) (now : Time)
    (hn : (g.record st (.rollback sid now)).issued.Nodup) :
    Inv (st.rollback sid now) (g.record st (.rollback sid now)) := by
  cases hs : st.sessions.lookup sid with
  | none =>
    have hrec : g.record st (.rollback sid now) = g := by
      simp [Log.record,State.issues,State.ends,Op.settles,hs]
    simpa only [State.rollback,hs,hrec] using h
  | some s =>
    have hid : ((st.releaseUpdate sid s.update).ownerID now).2 = (st.ownerID now).2 := rfl
    have hne := ownerID_ne_nil st now
    have hrec : g.record st (.rollback sid now) =
        ⟨g.issued ++ [(st.ownerID now).2],g.ended,g.pending⟩ := by
      simp [Log.record,State.issues,State.ends,Op.settles,hs]
    simp only [State.rollback,hs,hrec,hid] at hn ⊢
    generalize (st.ownerID now).2 = o at hn hne ⊢
    have hfresh : o ∉ g.issued := fun hi => (List.nodup_append'.mp hn).2.2 hi (by simp)
    have hup : s.update ≠ [] := h.filled _ (h.issued sid .update _ ⟨s,hs,rfl⟩)
    refine h.renew hs hne hfresh (.inl rfl) h.pending (fun _ hq => hq) ?_ ?_
    · intro v hv
      obtain ⟨w,hw,hsh,-⟩ := mem_releaseUpdate hv
      exact (h.rows w hw).shrink hsh
    · intro v hv hsid hu he
      obtain ⟨-,-,-,hnu⟩ := mem_releaseUpdate hv
      exact (hnu hup hsid hu he).elim

theorem Inv.commit_step (h : Inv st g) (sid : Nat) (updated : Bool) (now : Time)
    (hn : (g.record st (.commit sid updated now)).issued.Nodup) :
    Inv (st.commit sid updated now).1 (g.record st (.commit sid updated now)) := by
  cases hs : st.sessions.lookup sid with
  | none =>
    have hrec : g.record st (.commit sid updated now) = g := by
      cases updated <;> simp [Log.record,State.issues,State.ends,State.commit,Op.settles,hs]
    simpa only [State.commit,hs,hrec] using h
  | some s =>
    cases updated with
    | false =>
      have hrec : g.record st (.commit sid false now) = g := by
        simp [Log.record,State.issues,State.ends,State.commit,Op.settles,hs]
      simpa [State.commit,hs,hrec] using h
    | true =>
      have hne := ownerID_ne_nil st now
      have hup : s.update ≠ [] := h.filled _ (h.issued sid .update _ ⟨s,hs,rfl⟩)
      have hrec : g.record st (.commit sid true now) = ⟨g.issued ++ [(st.ownerID now).2],
          g.ended ++ [(sid,s.update)],g.pending ++ [(sid,s.update)]⟩ := by
        simp [Log.record,State.issues,State.ends,State.commit,Op.settles,hs,hup]
      simp only [State.commit,hs,hrec,Bool.true_eq_false,if_false] at hn ⊢
      generalize (st.ownerID now).2 = o at hn hne ⊢
      have hfresh : o ∉ g.issued := fun hi => (List.nodup_append'.mp hn).2.2 hi (by simp)
      refine h.renew hs hne hfresh (.inr rfl) ?_ (fun _ hq => List.mem_append_left _ hq) h.rows ?_
      · intro q hq
        rw [List.mem_append] at hq ⊢
        exact hq.imp_left (h.pending q)
      · intro v hv hsid hu he
        simp

theorem mem_release {s : Session} (hs : st.sessions.lookup sid = some s) {v : Row}
    (hv : v ∈ (st.release sid).rows) :
    ∃ w ∈ st.rows,w.Shrinks v ∧ (v.session = sid →
      (0 < v.dialogs → v.dialog ≠ s.dialog) ∧ (0 < v.updates → v.update ≠ s.update)) := by
  simp only [State.release,hs,sweep_rows,List.filterMap_map,List.mem_filterMap,Function.comp_apply] at hv
  obtain ⟨w,hw,hv⟩ := hv
  have hsh := releaseRow_shrinks hv
  refine ⟨w,hw,hsh,?_⟩
  intro hsid
  obtain ⟨-,-,hds,hus,-,-⟩ := swept_eq_some hv
  rw [bare_session hsh.bare] at hsid
  simp only [Session.releaseRow,hsid,ne_eq,not_true_eq_false,if_false] at hds hus
  refine ⟨?_,?_⟩
  · intro hd he
    rw [(hsh.dialog hd).2] at he
    rw [if_pos he] at hds
    omega
  · intro hu he
    rw [(hsh.update hu).2] at he
    rw [if_pos he] at hus
    omega

@[simp] theorem release_sessions (st : State) (sid : Nat) :
    (st.release sid).sessions = st.sessions := by
  unfold State.release
  cases st.sessions.lookup sid <;> rfl

@[simp] theorem release_seq (st : State) (sid : Nat) : (st.release sid).seq = st.seq := by
  unfold State.release
  cases st.sessions.lookup sid <;> rfl

def Op.plain : Op → Bool
  | .openSession .. | .commit .. | .rollback .. | .endSession .. => false
  | _ => true

-- a step that neither opens, commits, rolls back nor ends a session leaves all but the rows
theorem step_plain (st : State) (op : Op) (hop : op.plain = true) :
    ∃ rows,(st.step op).1 = { st with rows := rows } := by
  cases op with
  | openSession | commit | rollback | endSession => cases hop
  | enqueue sid r now =>
    simp only [State.step]
    have hc := enqueue_cases st sid r now
    generalize (st.enqueue sid r now).1 = st' at hc ⊢
    generalize (st.enqueue sid r now).2 = res at hc
    cases hc <;> exact ⟨_,rfl⟩
  | dequeue sid r =>
    simp only [State.step,State.dequeue]
    cases st.sessions.lookup sid <;> exact ⟨_,rfl⟩
  | dequeueAll sid =>
    simp only [State.step,State.release]
    cases st.sessions.lookup sid <;> exact ⟨_,rfl⟩
  | updateDone sid owner =>
    simp only [State.step,State.updateDone]
    split_ifs <;> exact ⟨_,rfl⟩
  | _ => exact ⟨_,rfl⟩

theorem Inv.end_step (h : Inv st g) (sid : Nat) : Inv (st.endSession sid) g := by
  have hr := h.release_step sid
  unfold State.endSession
  refine ⟨?_,?_,?_,h.filled,h.pending,?_,?_⟩
  · intro v hv
    have hok := hr.rows v hv
    refine ⟨hok.tidy,?_,?_,hok.known⟩
    · intro hd
      have hp := hok.dialog hd
      refine plays_erase_ne ?_ hp
      intro hsid
      obtain ⟨s,hs,he⟩ := hp
      rw [hsid,release_sessions] at hs
      obtain ⟨-,-,-,hne⟩ := mem_release hs hv
      exact (hne hsid).1 hd he.symm
    · intro hu
      rcases hok.update hu with hp | hp
      · refine .inl (plays_erase_ne ?_ hp)
        intro hsid
        obtain ⟨s,hs,he⟩ := hp
        rw [hsid,release_sessions] at hs
        obtain ⟨-,-,-,hne⟩ := mem_release hs hv
        exact (hne hsid).2 hu he.symm
      · exact .inr hp
  · intro a b r r' o ha hb
    exact hr.unique a b r r' o (plays_erase ha) (plays_erase hb)
  · intro a r o ha
    exact hr.issued a r o (plays_erase ha)
  · intro a s ha
    by_cases hsid : a = sid
    · subst hsid
      simp at ha
    · rw [AList.lookup_erase_ne hsid] at ha
      exact hr.opened a s ha
  · intro q hq
    exact hr.closed q hq

theorem record_quiet (g : Log) (st : State) {op : Op} (hi : st.issues op = [])
    (he : st.ends op = []) (hq : ∀ p,op.settles p = false) : g.record st op = g := by
  simp [Log.record,hi,he,hq]

theorem Inv.step (h : Inv st g) (op : Op) (hn : (g.record st op).issued.Nodup) :
    Inv (st.step op).1 (g.record st op) := by
  cases op with
  | openSession user now₁ now₂ => exact h.open_step user now₁ now₂ hn
  | enqueue sid r now =>
    rw [record_quiet g st rfl rfl (fun _ => rfl)]
    exact h.enqueue_step sid r now
  | dequeue sid r =>
    rw [record_quiet g st rfl rfl (fun _ => rfl)]
    exact h.dequeue_step sid r
  | dequeueAll sid =>
    rw [record_quiet g st rfl rfl (fun _ => rfl)]
    exact h.release_step sid
  | commit sid updated now => exact h.commit_step sid updated now hn
  | updateDone sid owner => exact h.updateDone_step sid owner
  | rollback sid now => exact h.rollback_step sid now hn
  | endSession sid =>
    rw [record_quiet g st rfl rfl (fun _ => rfl)]
    exact h.end_step sid
  | _ =>
    rw [record_quiet g st rfl rfl (fun _ => rfl)]
    exact h

theorem Inv.new (instanceName : String) : Inv (State.new instanceName) {} := by
  have hp : ∀ a r o,¬Plays (State.new instanceName).sessions [] a r o := by
    intro a r o hp
    cases r with
    | ended => simp [Plays] at hp
    | _ => obtain ⟨s,hs,-⟩ := hp; simp [State.new] at hs
  refine ⟨by simp [State.new],?_,?_,by simp,by simp,?_,by simp⟩
  · intro a b r r' o ha
    exact (hp a r o ha).elim
  · intro a r o ha
    exact (hp a r o ha).elim
  · intro a s ha
    simp [State.new] at ha

theorem nodup_backward (p : State × Log) (op : Op) (h : (server.step p op).1.2.issued.Nodup) :
    p.2.issued.Nodup :=
  (List.nodup_append'.mp h).1

theorem history_inv (instanceName : String) (ops : List Op)
    (hn : (history instanceName ops).2.issued.Nodup) :
    Inv (history instanceName ops).1 (history instanceName ops).2 :=
  server.invariant_backward (fun p => Inv p.1 p.2) (fun p => p.2.issued.Nodup) nodup_backward
    (fun _ op h hn => h.step op hn) (Inv.new instanceName) hn

end OpenSteamgate.Enq
