import OpenSteamgate.Library.Histories
import OpenSteamgate.Amc.Pumps

namespace OpenSteamgate.Amc

variable {Session Receiver Payload : Type} {s t : Subscription Session Receiver}
  {d : Delivery Session Receiver Payload} {ds es : List (Delivery Session Receiver Payload)}

def seqsFor (s : Subscription Session Receiver) (ds : List (Delivery Session Receiver Payload)) :
    List Nat := (ds.filter fun d => d.sub.id = s.id).map Delivery.seq

theorem seqsFor_append : seqsFor s (ds ++ es) = seqsFor s ds ++ seqsFor s es := by
  rw [seqsFor,List.filter_append,List.map_append]
  rfl

theorem seqsFor_own (hd : d.sub.id = s.id) : seqsFor s (d :: ds) = d.seq :: seqsFor s ds := by
  rw [seqsFor,List.filter_cons,if_pos (decide_eq_true hd),List.map_cons]
  rfl

theorem seqsFor_other (hd : d.sub.id ≠ s.id) : seqsFor s (d :: ds) = seqsFor s ds := by
  rw [seqsFor,List.filter_cons,if_neg (by simp [hd])]
  rfl

theorem seqsFor_nil (hds : ∀ d ∈ ds,d.sub.id ≠ s.id) : seqsFor s ds = [] := by
  rw [seqsFor,List.map_eq_nil_iff,List.filter_eq_nil_iff]
  intro d hd
  rw [decide_eq_true_eq]
  exact hds d hd

variable [DecidableEq Session] {h : Letters} {σ σ' : State Session Receiver Payload} {l : Label Session}

def State.deliveredTo (σ : State Session Receiver Payload) (s : Subscription Session Receiver) : List Nat :=
  seqsFor s σ.delivered

def State.queuedFor (σ : State Session Receiver Payload) (s : Subscription Session Receiver) : List Nat :=
  seqsFor s (σ.line s.endpoint.session (σ.inbox s.endpoint.session))

def State.sentTo (σ : State Session Receiver Payload) (s : Subscription Session Receiver) : List Nat :=
  match σ.sending with
  | none => []
  | some x => if (x.more.any fun t => t.id = s.id) && x.publication.reaches s then
      [σ.published.length - 1] else []

def Comes (σ : State Session Receiver Payload) (d : Delivery Session Receiver Payload) : Prop :=
  d.sub ∈ σ.made ∧ ∃ p,σ.published[d.seq]? = some p ∧ d.msg = p.msg

structure Sound (σ : State Session Receiver Payload) : Prop where
  own : ∀ s ∈ σ.made,∀ t ∈ σ.made,s.id = t.id → s = t
  fresh : ∀ s ∈ σ.made,s.id < σ.made.length
  known : ∀ s ∈ σ.subs,s ∈ σ.made
  kept : ∀ s ∈ σ.made,σ.active s.id = true → s ∈ σ.subs
  once : (σ.subs.map Subscription.id).Nodup
  bound : ∀ id,σ.active id = true → id < σ.made.length
  past : ∀ p ∈ σ.published,∀ id,p.live id = true → id < σ.made.length
  came : ∀ d ∈ σ.delivered,Comes σ d
  comes : ∀ k i,∀ d ∈ σ.line k i,Comes σ d ∧ d.sub.endpoint.session = k ∧
    (σ.active d.sub.id = true → i = σ.inbox k)
  sorted : ∀ k i,(σ.line k i).Pairwise fun d e => d.seq ≤ e.seq
  sends : ∀ x,σ.sending = some x → σ.published.getLast? = some x.publication ∧
    (x.more.map Subscription.id).Nodup ∧ ∀ s ∈ x.more,s ∈ σ.made

structure Same (σ σ' : State Session Receiver Payload) : Prop where
  made : σ'.made = σ.made
  subs : σ'.subs = σ.subs
  active : σ'.active = σ.active
  published : σ'.published = σ.published
  inbox : σ'.inbox = σ.inbox
  sending : σ'.sending = σ.sending

omit [DecidableEq Session] in
theorem Same.comes (hsame : Same σ σ') (hd : Comes σ d) : Comes σ' d := by
  rw [Comes,hsame.made,hsame.published]
  exact hd

omit [DecidableEq Session] in
theorem Sound.pumped (hσ : Sound σ) (hsame : Same σ σ')
    (hline : ∀ k i,(σ'.line k i).Sublist (σ.line k i))
    (hcame : ∀ d ∈ σ'.delivered,d ∈ σ.delivered ∨ ∃ k i,d ∈ σ.line k i) : Sound σ' := by
  refine ⟨?_,?_,?_,?_,?_,?_,?_,fun d hd => ?_,fun k i d hd => ?_,fun k i => (hσ.sorted k i).sublist (hline k i),?_⟩
  · rw [hsame.made]
    exact hσ.own
  · rw [hsame.made]
    exact hσ.fresh
  · rw [hsame.made,hsame.subs]
    exact hσ.known
  · rw [hsame.made,hsame.subs,hsame.active]
    exact hσ.kept
  · rw [hsame.subs]
    exact hσ.once
  · rw [hsame.active,hsame.made]
    exact hσ.bound
  · rw [hsame.published,hsame.made]
    exact hσ.past
  · rcases hcame d hd with hold | ⟨k,i,hold⟩
    · exact hsame.comes (hσ.came d hold)
    · exact hsame.comes (hσ.comes k i d hold).1
  · obtain ⟨hcomes,hrest⟩ := hσ.comes k i d ((hline k i).subset hd)
    rw [hsame.active,hsame.inbox]
    exact ⟨hsame.comes hcomes,hrest⟩
  · rw [hsame.sending,hsame.published,hsame.made]
    exact hσ.sends

theorem next_sublist (frame : Frame Session Receiver Payload) {k : Session} {g : Nat}
    {q : List (Delivery Session Receiver Payload)} {frames : List (Frame Session Receiver Payload)}
    (hpumps : σ.pumps k = .looping g (d :: q) :: frames)
    (hframe : ∀ i,frame.holds i = if g = i then q else []) (l : Session) (i : Nat) :
    ((σ.setPumps k (frame :: frames)).line l i).Sublist (σ.line l i) := by
  obtain ⟨hline,hnext,hothers⟩ := line_next frame hpumps hframe
  by_cases hown : l = k ∧ i = g
  · rw [hown.1,hown.2,hline,hnext]
    exact (List.sublist_cons_self d _).append_left _
  · rw [hothers l i hown]

theorem put_same (p : Publication Session Payload) (s : Subscription Session Receiver) :
    Same σ (σ.put p s) ∧ (σ.put p s).delivered = σ.delivered := by
  rw [State.put]
  split
  · exact ⟨⟨rfl,rfl,rfl,rfl,rfl,rfl⟩,rfl⟩
  · exact ⟨⟨rfl,rfl,rfl,rfl,rfl,rfl⟩,rfl⟩

omit [DecidableEq Session] in
theorem Comes.seq (hd : Comes σ d) : d.seq < σ.published.length := by
  obtain ⟨-,p,hp,-⟩ := hd
  exact (List.getElem?_eq_some_iff.mp hp).1

theorem put_sound (hσ : Sound σ) {p : Publication Session Payload}
    {more : List (Subscription Session Receiver)} (hsending : σ.sending = some ⟨p,s :: more⟩) :
    Sound {σ.put p s with sending := some ⟨p,more⟩} := by
  obtain ⟨hsame,hdelivered⟩ := put_same (σ := σ) p s
  obtain ⟨hlast,hnodup,hmade⟩ := hσ.sends _ hsending
  have hnew : Comes σ ⟨s,p.msg,σ.published.length - 1⟩ :=
    ⟨hmade s (List.mem_cons_self ..),p,List.getLast?_eq_getElem?.symm.trans hlast,rfl⟩
  refine ⟨?_,?_,?_,?_,?_,?_,?_,fun d hd => ?_,fun k i d hd => ?_,fun k i => ?_,fun x hx => ?_⟩
  · rw [hsame.made]
    exact hσ.own
  · rw [hsame.made]
    exact hσ.fresh
  · rw [hsame.made,hsame.subs]
    exact hσ.known
  · rw [hsame.made,hsame.subs,hsame.active]
    exact hσ.kept
  · rw [hsame.subs]
    exact hσ.once
  · rw [hsame.active,hsame.made]
    exact hσ.bound
  · rw [hsame.published,hsame.made]
    exact hσ.past
  · rw [hdelivered] at hd
    exact hsame.comes (hσ.came d hd)
  · change d ∈ (σ.put p s).line k i at hd
    rw [line_put] at hd
    rw [hsame.active,hsame.inbox]
    rcases List.mem_append.mp hd with hd | hd
    · obtain ⟨hcomes,hrest⟩ := hσ.comes k i d hd
      exact ⟨hsame.comes hcomes,hrest⟩
    · split at hd
      · rename_i hput
        simp only [Bool.and_eq_true,decide_eq_true_eq] at hput
        rw [List.mem_singleton.mp hd]
        exact ⟨hsame.comes hnew,hput.2.1.symm,fun _ => hput.2.2⟩
      · cases hd
  · change ((σ.put p s).line k i).Pairwise _
    rw [line_put]
    split
    · refine List.pairwise_append.mpr ⟨hσ.sorted k i,List.pairwise_singleton _ _,fun d hd e he => ?_⟩
      rw [List.mem_singleton.mp he]
      exact Nat.le_sub_one_of_lt (hσ.comes k i d hd).1.seq
    · rw [List.append_nil]
      exact hσ.sorted k i
  · obtain rfl := Option.some.inj hx
    rw [hsame.published,hsame.made]
    exact ⟨hlast,(List.nodup_cons.mp hnodup).2,fun t ht => hmade t (List.mem_cons_of_mem _ ht)⟩

theorem forget_active (hσ : Sound σ) {k : Session} (hs : s ∈ σ.made)
    (hactive : (σ.active s.id && !σ.subs.any fun t => t.id = s.id && t.endpoint.session = k) = true) :
    σ.active s.id = true ∧ s.endpoint.session ≠ k := by
  rw [Bool.and_eq_true,Bool.not_eq_true',List.any_eq_false] at hactive
  refine ⟨hactive.1,fun hk => hactive.2 s (hσ.kept s hs hactive.1) ?_⟩
  rw [Bool.and_eq_true,decide_eq_true_eq,decide_eq_true_eq]
  exact ⟨rfl,hk⟩

theorem forget_sound (hσ : Sound σ) (hfree : σ.sending = none) (k : Session) :
    Sound {σ with
      subs := σ.subs.filter fun s => s.endpoint.session ≠ k
      active := fun id => σ.active id && !σ.subs.any fun s => s.id = id && s.endpoint.session = k
      inbox := Function.update σ.inbox k (σ.inbox k + 1)} := by
  refine ⟨hσ.own,hσ.fresh,fun t ht => hσ.known t (List.mem_of_mem_filter ht),fun t ht hactive => ?_,
    hσ.once.sublist (List.filter_sublist.map _),fun id hid => ?_,hσ.past,hσ.came,fun l i d hd => ?_,
    hσ.sorted,fun x hx => ?_⟩
  · obtain ⟨hwas,hother⟩ := forget_active hσ ht hactive
    exact List.mem_filter.mpr ⟨hσ.kept t ht hwas,decide_eq_true hother⟩
  · exact hσ.bound id (Bool.and_eq_true_iff.mp hid).1
  · obtain ⟨hcomes,hsession,hinbox⟩ := hσ.comes l i d hd
    refine ⟨hcomes,hsession,fun hactive => ?_⟩
    obtain ⟨hwas,hother⟩ := forget_active hσ hcomes.1 hactive
    exact (hinbox hwas).trans (Function.update_of_ne (fun hl => hother (hsession.trans hl)) _ _).symm
  · rw [hfree] at hx
    exact nomatch hx

theorem step_sound (hσ : Sound σ) (hstep : Step h σ l σ') : Sound σ' := by
  cases hstep with
  | define channels hfree => exact ⟨hσ.own,hσ.fresh,hσ.known,hσ.kept,hσ.once,hσ.bound,hσ.past,hσ.came,
      hσ.comes,hσ.sorted,hσ.sends⟩
  | @subscribe key c app path extension endpoint receiver hfree hchannel =>
    have hmore : ∀ {s : Subscription Session Receiver},s ∈ σ.made → s ∈ σ.made ++ [⟨σ.made.length,key,extension,endpoint,receiver⟩] :=
      fun hs => List.mem_append_left _ hs
    have hcomes : ∀ {d : Delivery Session Receiver Payload},Comes σ d → d.sub.id ≠ σ.made.length ∧
        d.sub ∈ σ.made ++ [⟨σ.made.length,key,extension,endpoint,receiver⟩] := fun hd =>
      ⟨Nat.ne_of_lt (hσ.fresh _ hd.1),hmore hd.1⟩
    have hold : ∀ {id},id ≠ σ.made.length → Function.update σ.active σ.made.length true id = true →
        σ.active id = true := fun hid hactive => (Function.update_of_ne hid ..).symm.trans hactive
    refine ⟨fun s hs t ht heq => ?_,fun s hs => ?_,fun s hs => ?_,fun s hs hactive => ?_,?_,
      fun id hid => ?_,fun p hp id hid => ?_,fun d hd => ?_,fun k i d hd => ?_,hσ.sorted,fun x hx => ?_⟩
    · rcases List.mem_append.mp hs with hs | hs
      · rcases List.mem_append.mp ht with ht | ht
        · exact hσ.own s hs t ht heq
        · rw [List.mem_singleton.mp ht] at heq
          exact absurd (hσ.fresh s hs) (heq ▸ Nat.lt_irrefl _)
      · rcases List.mem_append.mp ht with ht | ht
        · rw [List.mem_singleton.mp hs] at heq
          exact absurd (hσ.fresh t ht) (heq ▸ Nat.lt_irrefl _)
        · rw [List.mem_singleton.mp hs,List.mem_singleton.mp ht]
    · rw [List.length_append,List.length_singleton]
      rcases List.mem_append.mp hs with hs | hs
      · exact Nat.lt_succ_of_lt (hσ.fresh s hs)
      · rw [List.mem_singleton.mp hs]
        exact Nat.lt_succ_self _
    · rcases List.mem_append.mp hs with hs | hs
      · exact hmore (hσ.known s hs)
      · exact List.mem_append_right _ hs
    · rcases List.mem_append.mp hs with hs | hs
      · exact List.mem_append_left _ (hσ.kept s hs (hold (Nat.ne_of_lt (hσ.fresh s hs)) hactive))
      · exact List.mem_append_right _ hs
    · rw [List.map_append,List.map_singleton,List.nodup_append_comm,List.singleton_append,List.nodup_cons]
      refine ⟨fun hin => ?_,hσ.once⟩
      obtain ⟨s,hs,hid⟩ := List.mem_map.mp hin
      exact Nat.ne_of_lt (hσ.fresh s (hσ.known s hs)) hid
    · rw [List.length_append,List.length_singleton]
      by_cases hnew : id = σ.made.length
      · rw [hnew]
        exact Nat.lt_succ_self _
      · exact Nat.lt_succ_of_lt (hσ.bound id (hold hnew hid))
    · rw [List.length_append,List.length_singleton]
      exact Nat.lt_succ_of_lt (hσ.past p hp id hid)
    · exact ⟨(hcomes (hσ.came d hd)).2,(hσ.came d hd).2⟩
    · obtain ⟨hd',hsession,hinbox⟩ := hσ.comes k i d hd
      obtain ⟨hne,hin⟩ := hcomes hd'
      exact ⟨⟨hin,hd'.2⟩,hsession,fun hactive => hinbox (hold hne hactive)⟩
    · rw [hfree] at hx
      exact nomatch hx
  | @stop s hs =>
    have hless : ∀ id,Function.update σ.active s.id false id = true → σ.active id = true := by
      intro id hid
      by_cases hown : id = s.id
      · rw [hown,Function.update_self] at hid
        exact nomatch hid
      · rwa [Function.update_of_ne hown] at hid
    exact ⟨hσ.own,hσ.fresh,hσ.known,fun t ht hactive => hσ.kept t ht (hless _ hactive),hσ.once,
      fun id hid => hσ.bound id (hless id hid),hσ.past,hσ.came,
      fun k i d hd => ⟨(hσ.comes k i d hd).1,(hσ.comes k i d hd).2.1,
        fun hactive => (hσ.comes k i d hd).2.2 (hless _ hactive)⟩,hσ.sorted,hσ.sends⟩
  | @stopped s hs hstopped hfree =>
    refine ⟨hσ.own,hσ.fresh,fun t ht => hσ.known t (List.mem_of_mem_filter ht),fun t ht hactive => ?_,
      hσ.once.sublist (List.filter_sublist.map _),hσ.bound,hσ.past,hσ.came,hσ.comes,hσ.sorted,hσ.sends⟩
    refine List.mem_filter.mpr ⟨hσ.kept t ht hactive,decide_eq_true fun heq => ?_⟩
    rw [heq,hstopped] at hactive
    exact nomatch hactive
  | @publish key c app path extension sender suppressEcho m order hfree hsendable horder =>
    have hcomes : ∀ {d : Delivery Session Receiver Payload} {p},Comes σ d → d.sub ∈ σ.made ∧
        ∃ q,(σ.published ++ [p])[d.seq]? = some q ∧ d.msg = q.msg := by
      rintro d p ⟨hmade,q,hq,hmsg⟩
      exact ⟨hmade,q,List.getElem?_append_left (List.getElem?_eq_some_iff.mp hq).1 ▸ hq,hmsg⟩
    refine ⟨hσ.own,hσ.fresh,hσ.known,hσ.kept,hσ.once,hσ.bound,fun p hp id hid => ?_,
      fun d hd => hcomes (hσ.came d hd),fun k i d hd => ⟨hcomes (hσ.comes k i d hd).1,(hσ.comes k i d hd).2⟩,
      hσ.sorted,fun x hx => ?_⟩
    · rcases List.mem_append.mp hp with hp | hp
      · exact hσ.past p hp id hid
      · rw [List.mem_singleton.mp hp] at hid
        exact hσ.bound id hid
    · obtain rfl := Option.some.inj hx
      exact ⟨List.getLast?_concat,(horder.map _).nodup_iff.mpr hσ.once,
        fun s hs => hσ.known s (horder.subset hs)⟩
  | @put p s more hsending => exact put_sound hσ hsending
  | sent hsending =>
    exact ⟨hσ.own,hσ.fresh,hσ.known,hσ.kept,hσ.once,hσ.bound,hσ.past,hσ.came,hσ.comes,hσ.sorted,nofun⟩
  | forget k hfree => exact forget_sound hσ hfree k
  | @pump k hfree hwork =>
    exact hσ.pumped ⟨rfl,rfl,rfl,rfl,rfl,rfl⟩ (fun l i => by rw [line_pump])
      fun d hd => .inl hd
  | @take k g frames hpumps =>
    exact hσ.pumped ⟨rfl,rfl,rfl,rfl,rfl,rfl⟩ (fun l i => by rw [line_take hpumps])
      fun d hd => .inl hd
  | @skip k g d q frames hpumps hstopped =>
    exact hσ.pumped ⟨rfl,rfl,rfl,rfl,rfl,rfl⟩ (next_sublist (.looping g q) hpumps fun _ => rfl) fun e he => .inl he
  | @deliver k g d q frames hpumps hactive =>
    refine hσ.pumped ⟨rfl,rfl,rfl,rfl,rfl,rfl⟩
      (next_sublist (.receiving g q) hpumps fun _ => rfl) fun e he => ?_
    rcases List.mem_append.mp he with he | he
    · exact .inl he
    · have hnext := (line_next (.receiving g q) hpumps fun _ => rfl).1
      rw [List.mem_singleton.mp he]
      exact .inr ⟨k,g,by rw [hnext]; exact List.mem_append_right _ (List.mem_cons_self ..)⟩
  | @returned k g q frames hpumps =>
    exact hσ.pumped ⟨rfl,rfl,rfl,rfl,rfl,rfl⟩
      (fun l i => by rw [line_swap (.looping g q) hpumps fun _ => rfl]) fun d hd => .inl hd
  | @raised k g q frames hpumps =>
    exact hσ.pumped ⟨rfl,rfl,rfl,rfl,rfl,rfl⟩ (fun l i => by rw [line_raised hpumps])
      fun d hd => .inl hd
  | @ended k g frames hpumps =>
    exact hσ.pumped ⟨rfl,rfl,rfl,rfl,rfl,rfl⟩ (fun l i => by rw [line_ended hpumps])
      fun d hd => .inl hd

omit [DecidableEq Session] in
theorem start_sound : Sound ({} : State Session Receiver Payload) :=
  ⟨List.forall_mem_nil _,List.forall_mem_nil _,List.forall_mem_nil _,List.forall_mem_nil _,List.nodup_nil,
    nofun,List.forall_mem_nil _,List.forall_mem_nil _,fun _ _ => List.forall_mem_nil _,
    fun _ _ => List.Pairwise.nil,nofun⟩

variable {meets : State Session Receiver Payload → Label Session → Prop}

theorem happens_sound (hσ : Happens h meets σ) : Sound σ := by
  induction hσ with
  | start => exact start_sound
  | step _ hstep _ ih => exact step_sound ih hstep

section account

theorem sentTo_some {p : Publication Session Payload} {more : List (Subscription Session Receiver)}
    (hsending : σ.sending = some ⟨p,more⟩) : σ.sentTo s =
      if (more.any fun t => t.id = s.id) && p.reaches s then [σ.published.length - 1] else [] := by
  rw [State.sentTo,hsending]

theorem sentTo_none (hsending : σ.sending = none) : σ.sentTo s = [] := by
  rw [State.sentTo,hsending]

def Turns (ordered : Prop) (s : Subscription Session Receiver) (σ σ' : State Session Receiver Payload) :
    Prop :=
  Mailbox.Turn ordered (σ.deliveredTo s) (σ.queuedFor s ++ σ.sentTo s) (owed σ.published s)
    (σ'.deliveredTo s) (σ'.queuedFor s ++ σ'.sentTo s) (owed σ'.published s)

theorem Turns.still {ordered : Prop} (hdelivered : σ'.deliveredTo s = σ.deliveredTo s)
    (hcoming : σ'.queuedFor s ++ σ'.sentTo s = σ.queuedFor s ++ σ.sentTo s)
    (howed : owed σ'.published s = owed σ.published s) : Turns ordered s σ σ' := by
  rw [Turns,hdelivered,hcoming,howed]
  exact .rest

theorem Same.turns {ordered : Prop} (hsame : Same σ σ') (hline : ∀ k i,σ'.line k i = σ.line k i)
    (hdelivered : σ'.delivered = σ.delivered) : Turns ordered s σ σ' := by
  refine .still ?_ ?_ ?_
  · rw [State.deliveredTo,State.deliveredTo,hdelivered]
  · rw [State.queuedFor,State.queuedFor,State.sentTo,State.sentTo,hline,hsame.inbox,hsame.sending,
      hsame.published]
  · rw [hsame.published]

theorem publish_turns {ordered : Prop} (hσ : Sound σ) (hs : s ∈ σ.made) (hactive : σ.active s.id = true)
    (hfree : σ.sending = none) {p : Publication Session Payload} (hlive : p.live = σ.active)
    {order : List (Subscription Session Receiver)} (horder : order.Perm σ.subs) :
    Turns ordered s σ {σ with sending := some ⟨p,order⟩,published := σ.published ++ [p]} := by
  have hin : (order.any fun t => t.id = s.id) = true :=
    List.any_eq_true.mpr ⟨s,horder.symm.subset (hσ.kept s hs hactive),decide_eq_true rfl⟩
  rw [Turns,sentTo_none hfree,List.append_nil,owed_snoc,hlive,hactive,Bool.true_and]
  have hsent : State.sentTo {σ with sending := some ⟨p,order⟩,published := σ.published ++ [p]} s =
      if p.reaches s then [σ.published.length] else [] := by
    rw [sentTo_some rfl,hin,Bool.true_and,List.length_append,List.length_singleton,Nat.add_sub_cancel]
  rw [hsent]
  split
  · exact .sent _
  · rw [List.append_nil,List.append_nil]
    exact .rest

theorem put_turns {ordered : Prop} (hσ : Sound σ) (hs : s ∈ σ.made) (hactive : σ.active s.id = true)
    {p : Publication Session Payload} {more : List (Subscription Session Receiver)}
    (hsending : σ.sending = some ⟨p,t :: more⟩) :
    Turns ordered s σ {σ.put p t with sending := some ⟨p,more⟩} := by
  obtain ⟨hsame,hdelivered⟩ := put_same (σ := σ) p t
  obtain ⟨-,hnodup,hmade⟩ := hσ.sends _ hsending
  have htmade := hmade t (List.mem_cons_self ..)
  refine .still ?_ ?_ ?_
  · rw [State.deliveredTo,State.deliveredTo,hdelivered]
  · have hqueued : State.queuedFor {σ.put p t with sending := some ⟨p,more⟩} s = σ.queuedFor s ++
        if (t.id = s.id) && p.reaches s then [σ.published.length - 1] else [] := by
      change seqsFor s ((σ.put p t).line s.endpoint.session ((σ.put p t).inbox s.endpoint.session)) = _
      rw [line_put,seqsFor_append,hsame.inbox,State.queuedFor]
      congr 1
      by_cases hid : t.id = s.id
      · obtain rfl := hσ.own t htmade s hs hid
        rw [hactive,Bool.true_and,decide_eq_true hid,Bool.true_and]
        by_cases hreaches : p.reaches t = true
        · rw [if_pos hreaches,if_pos (by simp [hreaches])]
          exact seqsFor_own rfl
        · rw [if_neg hreaches,if_neg (by simp [hreaches])]
          rfl
      · have hno : ¬(decide (t.id = s.id) && p.reaches s) = true := by simp [hid]
        rw [if_neg hno]
        split
        · exact seqsFor_other hid
        · rfl
    rw [hqueued,sentTo_some (show State.sending _ = _ from rfl),sentTo_some hsending,List.append_assoc]
    congr 1
    rw [List.any_cons]
    change _ ++ (if _ then [(σ.put p t).published.length - 1] else []) = _
    rw [hsame.published]
    by_cases hid : t.id = s.id
    · have hgone : (more.any fun t => t.id = s.id) = false := by
        rw [List.any_eq_false]
        intro u hu hus
        rw [List.map_cons,List.nodup_cons] at hnodup
        exact hnodup.1 (hid ▸ of_decide_eq_true hus ▸ List.mem_map_of_mem hu)
      rw [hgone,decide_eq_true hid]
      simp
    · rw [decide_eq_false hid]
      simp
  · change owed (σ.put p t).published s = _
    rw [hsame.published]

theorem queued_other {k : Session} {g : Nat} {q : List (Delivery Session Receiver Payload)}
    {frames : List (Frame Session Receiver Payload)} (frame : Frame Session Receiver Payload)
    (hpumps : σ.pumps k = .looping g (d :: q) :: frames) (hframe : ∀ i,frame.holds i = if g = i then q else [])
    (hid : d.sub.id ≠ s.id) : State.queuedFor (σ.setPumps k (frame :: frames)) s = σ.queuedFor s := by
  obtain ⟨hline,hnext,hothers⟩ := line_next frame hpumps hframe
  change seqsFor s ((σ.setPumps k (frame :: frames)).line _ (σ.inbox _)) = _
  rw [State.queuedFor]
  by_cases hplace : s.endpoint.session = k ∧ σ.inbox s.endpoint.session = g
  · rw [hplace.2,hplace.1,hline,hnext]
    simp only [seqsFor_append,seqsFor_other hid]
  · rw [hothers _ _ hplace]

theorem next_turns (hσ : Sound σ) (hs : s ∈ σ.made) {k : Session} {g : Nat}
    {q : List (Delivery Session Receiver Payload)} {frames : List (Frame Session Receiver Payload)}
    {ordered : Prop} (hpumps : σ.pumps k = .looping g (d :: q) :: frames)
    (hactive : σ.active d.sub.id = true)
    (hordered : ordered → ∀ inbox,∀ d' ∈ held inbox frames,d'.sub.id ≠ d.sub.id) :
    Turns ordered s σ {σ.setPumps k (.receiving g q :: frames) with delivered := σ.delivered ++ [d]} := by
  obtain ⟨hline,hnext,-⟩ := line_next (.receiving g q) hpumps fun _ => rfl
  have hd : d ∈ σ.line k g := by
    rw [hline]
    exact List.mem_append_right _ (List.mem_cons_self ..)
  obtain ⟨hcomes,hsession,hinbox⟩ := hσ.comes k g d hd
  have hown := hinbox hactive
  have hsent : State.sentTo {σ.setPumps k (.receiving g q :: frames) with delivered := σ.delivered ++ [d]} s =
      σ.sentTo s := rfl
  have hqueued : State.queuedFor
      {σ.setPumps k (.receiving g q :: frames) with delivered := σ.delivered ++ [d]} s =
      seqsFor s ((σ.setPumps k (.receiving g q :: frames)).line s.endpoint.session
        (σ.inbox s.endpoint.session)) := rfl
  have hdelivered : State.deliveredTo
      {σ.setPumps k (.receiving g q :: frames) with delivered := σ.delivered ++ [d]} s =
      σ.deliveredTo s ++ seqsFor s [d] := seqsFor_append
  by_cases hid : d.sub.id = s.id
  · obtain rfl := hσ.own d.sub hcomes.1 s hs hid
    rw [Turns,hsent,hqueued,hdelivered,State.queuedFor,hsession,← hown,hline,hnext,seqsFor_append,
      seqsFor_append,seqsFor_own rfl,seqsFor_own rfl,List.append_assoc,List.append_assoc,List.cons_append]
    exact .delivered d.seq fun ho => seqsFor_nil (hordered ho g)
  · refine .still ?_ ?_ rfl
    · rw [hdelivered,seqsFor_other hid]
      exact List.append_nil _
    · exact congrArg (· ++ _) (queued_other (.receiving g q) hpumps (fun _ => rfl) hid)

theorem skip_turns (hactive : σ.active s.id = true) {k : Session} {g : Nat}
    {q : List (Delivery Session Receiver Payload)} {frames : List (Frame Session Receiver Payload)}
    {ordered : Prop} (hpumps : σ.pumps k = .looping g (d :: q) :: frames)
    (hstopped : σ.active d.sub.id = false) :
    Turns ordered s σ (σ.setPumps k (.looping g q :: frames)) := by
  have hid : d.sub.id ≠ s.id := fun hid => by
    rw [hid,hactive] at hstopped
    exact nomatch hstopped
  exact .still rfl (congrArg (· ++ _) (queued_other (.looping g q) hpumps (fun _ => rfl) hid)) rfl

theorem step_turns (hσ : Sound σ) (hstep : Step h σ l σ') (hs : s ∈ σ.made)
    (hactive : σ'.active s.id = true) :
    σ.active s.id = true ∧ Turns (Unovertaken σ l) s σ σ' := by
  have hsame : ∀ {σ' : State Session Receiver Payload},Same σ σ' → σ'.active s.id = true →
      σ.active s.id = true := fun hsame hactive => hsame.active ▸ hactive
  cases hstep with
  | define channels hfree => exact ⟨hactive,.still rfl rfl rfl⟩
  | subscribe app path extension endpoint receiver hfree hchannel =>
    exact ⟨(Function.update_of_ne (Nat.ne_of_lt (hσ.fresh s hs)) ..).symm.trans hactive,.still rfl rfl rfl⟩
  | @stop t ht =>
    refine ⟨?_,.still rfl rfl rfl⟩
    by_cases hid : s.id = t.id
    · rw [hid] at hactive
      exact nomatch (Function.update_self ..).symm.trans hactive
    · exact (Function.update_of_ne hid ..).symm.trans hactive
  | stopped ht hstopped hfree => exact ⟨hactive,.still rfl rfl rfl⟩
  | publish app path extension sender suppressEcho m order hfree hsendable horder =>
    exact ⟨hactive,publish_turns hσ hs hactive hfree rfl horder⟩
  | @put p t more hsending =>
    have hwas : σ.active s.id = true := (put_same p t).1.active ▸ hactive
    exact ⟨hwas,put_turns hσ hs hwas hsending⟩
  | @sent p hsending =>
    refine ⟨hactive,.still rfl ?_ rfl⟩
    rw [sentTo_none rfl,sentTo_some hsending]
    rfl
  | forget k hfree =>
    obtain ⟨hwas,hother⟩ := forget_active hσ hs hactive
    refine ⟨hwas,.still rfl ?_ rfl⟩
    have hinbox : Function.update σ.inbox k (σ.inbox k + 1) s.endpoint.session = σ.inbox s.endpoint.session :=
      Function.update_of_ne hother ..
    have hqueued : State.queuedFor
        {σ with
          subs := σ.subs.filter fun s => s.endpoint.session ≠ k
          active := fun id => σ.active id && !σ.subs.any fun s => s.id = id && s.endpoint.session = k
          inbox := Function.update σ.inbox k (σ.inbox k + 1)} s = σ.queuedFor s := by
      change seqsFor s (σ.line _ (Function.update σ.inbox k (σ.inbox k + 1) s.endpoint.session)) = _
      rw [hinbox,State.queuedFor]
    rw [hqueued]
    rfl
  | pump k hfree hwork =>
    exact ⟨hactive,Same.turns ⟨rfl,rfl,rfl,rfl,rfl,rfl⟩ (fun _ _ => line_pump) rfl⟩
  | take hpumps =>
    exact ⟨hactive,Same.turns ⟨rfl,rfl,rfl,rfl,rfl,rfl⟩ (fun _ _ => line_take hpumps) rfl⟩
  | skip hpumps hstopped =>
    have hwas : σ.active s.id = true := hactive
    exact ⟨hwas,skip_turns hwas hpumps hstopped⟩
  | deliver hpumps hlive =>
    exact ⟨hactive,next_turns hσ hs hpumps hlive fun hmeets => hmeets _ _ _ _ hpumps⟩
  | @returned k g q frames hpumps =>
    exact ⟨hactive,Same.turns ⟨rfl,rfl,rfl,rfl,rfl,rfl⟩
      (fun _ _ => line_swap (.looping g q) hpumps fun _ => rfl) rfl⟩
  | raised hpumps =>
    exact ⟨hactive,Same.turns ⟨rfl,rfl,rfl,rfl,rfl,rfl⟩ (fun _ _ => line_raised hpumps) rfl⟩
  | ended hpumps =>
    exact ⟨hactive,Same.turns ⟨rfl,rfl,rfl,rfl,rfl,rfl⟩ (fun _ _ => line_ended hpumps) rfl⟩

theorem step_ended (hstep : Step h σ l σ') (hactive : σ'.active s.id = false) :
    σ'.deliveredTo s = σ.deliveredTo s ∧ owed σ'.published s = owed σ.published s := by
  cases hstep with
  | publish app path extension sender suppressEcho m order hfree hsendable horder =>
    have hlive : σ.active s.id = false := hactive
    exact ⟨rfl,owed_ended _ hlive⟩
  | @put p t more hsending =>
    obtain ⟨hsame,hdelivered⟩ := put_same (σ := σ) p t
    exact ⟨congrArg (seqsFor s) hdelivered,congrArg (fun published => owed published s) hsame.published⟩
  | @deliver k g d q frames hpumps hlive =>
    have hid : d.sub.id ≠ s.id := fun hid => by
      rw [hid] at hlive
      exact nomatch hlive.symm.trans hactive
    refine ⟨?_,rfl⟩
    change seqsFor s (σ.delivered ++ [d]) = _
    rw [seqsFor_append,seqsFor_other hid]
    exact List.append_nil _
  | define | subscribe | stop | stopped | sent | forget | pump | take | skip | returned | raised | ended =>
    exact ⟨rfl,rfl⟩

theorem step_made (hσ : Sound σ) (hstep : Step h σ l σ') (hs : s ∈ σ'.made) : s ∈ σ.made ∨
    σ'.deliveredTo s = [] ∧ σ'.queuedFor s = [] ∧ σ'.sentTo s = [] ∧ owed σ'.published s = [] := by
  cases hstep with
  | @subscribe key c app path extension endpoint receiver hfree hchannel =>
    rcases List.mem_append.mp hs with hs | hs
    · exact .inl hs
    · have hid : s.id = σ.made.length := by rw [List.mem_singleton.mp hs]
      have hold : ∀ d,Comes σ d → d.sub.id ≠ s.id := fun d hd heq =>
        Nat.ne_of_lt (hσ.fresh _ hd.1) (heq.trans hid)
      refine .inr ⟨seqsFor_nil fun d hd => hold d (hσ.came d hd),
        seqsFor_nil fun d hd => hold d (hσ.comes _ _ d hd).1,sentTo_none hfree,?_⟩
      refine List.eq_nil_iff_forall_not_mem.mpr fun n hn => ?_
      obtain ⟨p,hp,hmatches⟩ := (mem_owed σ.published s n).mp hn
      have hless := hσ.past p (List.mem_of_getElem? hp) s.id hmatches.active
      rw [hid] at hless
      exact Nat.lt_irrefl _ hless
  | put hsending =>
    refine .inl ?_
    rw [← (put_same _ _).1.made]
    exact hs
  | define | stop | stopped | publish | sent | forget | pump | take | skip | deliver | returned | raised |
    ended => exact .inl hs

end account

end OpenSteamgate.Amc
