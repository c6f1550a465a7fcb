import OpenSteamgate.Adt.Pins

namespace OpenSteamgate.Adt

open Enq (Time Request Result OwnerID)

namespace Host

variable {C : Type} [DecidableEq C] {h : Host C}

structure Accounted (h : Host C) : Prop where
  pins : ∀ sid, h.kernel.pin sid = h.bound sid
  sessions : ∀ sid, h.kernel.server.isOpen sid →
    h.holds sid ∨ h.kernel.maps sid ∨ h.kernel.dooms sid ∧ 0 < h.kernel.pin sid
  unmapped : ∀ sid, h.kernel.dooms sid → ¬h.kernel.maps sid

theorem Kept.accounted (hk : h.Kept) : h.Accounted :=
  ⟨hk.tracks.pins,fun sid ho => (hk.tracks.sessions sid ho).imp_right fun hm =>
    hm.imp_right fun hd => ⟨hd,by rw [hk.tracks.pins]; exact hk.tracks.pinned sid hd⟩,hk.tracks.unmapped⟩

theorem Kept.new (server : Server) (owner : Owner) (hs : ∀ sid,¬server.isOpen sid)
    (hset : server.settled) : (Host.new server owner : Host C).Kept := by
  refine ⟨⟨fun _ => rfl,?_,fun sid ho => (hs sid ho).elim,?_,?_,?_,?_,?_,hset⟩,?_,?_⟩
  · intro sid n hn
    simp [Host.new,Kernel.new] at hn
  · intro sid hd
    simp [Kernel.dooms,Host.new,Kernel.new] at hd
  · intro sid hd
    simp [Kernel.dooms,Host.new,Kernel.new] at hd
  · intro key key' sid hk
    simp [Host.new,Kernel.new] at hk
  · rintro sid ⟨key,hk⟩
    simp [Host.new,Kernel.new] at hk
  · intro sid hc
    simp [Host.bound,Host.new] at hc
  · intro s step hs
    simp [Host.new] at hs
  · intro s step hs
    simp [Host.new] at hs

theorem new_kept (instanceName : String) (owner : Owner) :
    (Host.new (.new instanceName) owner : Host C).Kept :=
  .new _ _ (fun sid ho => by simp [Server.isOpen,Server.new,Enq.State.new] at ho) rfl

theorem Kept.blank_breaks (hk : h.Kept) {op : Op C} (hop : h.bindsBlank op) :
    ¬(h.step op).1.Accounted := by
  cases op with
  | bind s id user now₁ now₂ =>
    obtain ⟨step,hs,hid,hend,hnew,hkend⟩ := hop
    have hl := lookup_caller hs
    intro hacc
    have hpins := hacc.pins
    simp only [Host.step,Host.bind,hs,hid,if_neg hend,if_neg hnew] at hpins
    rcases hk.tracks.takePin "" user now₁ now₂ with ⟨k',hpin,-,hin⟩ | ⟨k',sid,hpin,hpos,-,-,ht⟩
    · exact hkend hin
    · rw [hpin] at hpins
      have hblank : ¬Step.isBound ⟨sid,"",step.holderSID⟩ sid = true := by simp [Step.isBound]
      have hsid := hpins sid
      simp only at hsid
      by_cases hb : step.boundID ≠ ""
      · have hne := hk.bound s step hl hb
        have hcur := bound_pos hl (isBound_iff.mpr ⟨hb,rfl⟩)
        have hpos' : 0 < h.bound step.sid + if step.sid = sid then 1 else 0 := by omega
        have hcount := bound_insert h (k'.unpin step.sid) s ⟨sid,"",step.holderSID⟩ sid
        simp only [hl,Option.elim_some,if_neg hblank] at hcount
        rw [isBound_count hb] at hcount
        rw [if_pos ⟨hb,hne⟩,(ht.unpin hpos').pins sid,if_pos rfl] at hsid
        by_cases he : sid = step.sid
        · rw [if_pos he] at hsid hcount
          omega
        · rw [if_neg he] at hsid hcount
          omega
      · have hnot : ¬step.isBound sid = true := fun hc => hb (isBound_iff.mp hc).1
        have hcount := bound_insert h k' s ⟨sid,"",step.holderSID⟩ sid
        simp only [hl,Option.elim_some,if_neg hblank,if_neg hnot] at hcount
        rw [if_neg fun hc => hb hc.1,ht.pins sid,if_pos rfl] at hsid
        omega
  | _ => exact hop.elim

theorem step_mapped (hk : h.Kept) (op : Op C) {key : String} {sid : Nat}
    (hm : (h.step op).1.kernel.sessions.lookup key = some sid) :
    op.bindsKey h.kernel.owner = some key ∨
      (h.kernel.sessions.lookup key = some sid ∧ op.endsKey h.kernel.owner ≠ some key) := by
  have hquiet : (∀ s id user now₁ now₂,op ≠ .bind s id user now₁ now₂) → (∀ id,op ≠ .endKey id) →
      (∀ id,op ≠ .revive id) → op.endsKey h.kernel.owner = none → op.bindsKey h.kernel.owner = some key ∨
        (h.kernel.sessions.lookup key = some sid ∧ op.endsKey h.kernel.owner ≠ some key) := by
    intro h1 h2 h3 h4
    exact .inr ⟨(step_quiet h h1 h2 h3).sessions key sid hm,by simp [h4]⟩
  cases op with
  | bind s id user now₁ now₂ =>
    have hkey : h.kernel.keyOf (text id) = h.kernel.owner.key (text id) := keyOf_text _ id
    simp only [Op.bindsKey,Op.endsKey,Option.some.injEq,ne_eq,reduceCtorEq,not_false_eq_true,and_true]
    rw [← hkey]
    have hc := bind_cases h s id user now₁ now₂
    simp only [Host.step] at hm
    generalize (h.bind s id user now₁ now₂).1 = h' at hc hm
    generalize (h.bind s id user now₁ now₂).2 = ok at hc
    cases hc with
    | stepless hs =>
      simp only [Kernel.bind] at hm
      split_ifs at hm
      · exact .inr hm
      · exact .inr hm
      · exact (lookup_of_insert hm).imp And.left And.right
    | pinned step k a hs hend hsame hnkey hpin =>
      have hk' : k.sessions.lookup key = some sid := by
        simp only at hm
        split_ifs at hm
        · exact (unpin_frame k step.sid).1 ▸ hm
        · exact hm
      simp only [Kernel.takePin] at hpin
      split_ifs at hpin
      · simp at hpin
      · obtain ⟨rfl,-⟩ := Prod.mk.inj hpin
        exact .inr hk'
      · obtain ⟨rfl,-⟩ := Prod.mk.inj hpin
        exact (lookup_of_insert hk').imp And.left And.right
    | _ => exact .inr hm
  | endKey id =>
    have hkey : h.kernel.keyOf (text id) = h.kernel.owner.key (text id) := keyOf_text _ id
    right
    simp only [Host.step,Host.endKey,Kernel.endKey] at hm
    rw [(retireAll_frame _ _).1] at hm
    simp only [Kernel.drop,Op.endsKey,ne_eq,Option.some.injEq,← hkey] at hm ⊢
    split_ifs at hm with h0
    · refine ⟨hm,?_⟩
      rintro rfl
      have hpos := (hk.tracks.mapped sid ⟨_,hm⟩).1
      have hzero : (h.kernel.sessions.lookup (h.kernel.keyOf (text id))).getD 0 = 0 := h0
      rw [hm] at hzero
      exact hpos.ne' hzero
    · refine ⟨lookup_of_erase hm,?_⟩
      rintro rfl
      simp at hm
  | revive id => exact .inr ⟨hm,by simp [Op.endsKey]⟩
  | _ => exact hquiet (by simp) (by simp) (by simp) rfl

theorem run_owner (h : Host C) (ops : List (Op C)) :
    ((host C).run h ops).kernel.owner = h.kernel.owner :=
  (host C).invariant (fun h' => h'.kernel.owner = h.kernel.owner)
    (fun h' op he => (step_owner h' op).trans he) rfl ops

theorem run_kept (hk : h.Kept) {ops : List (Op C)}
    (hobeys : (host C).Obeys (fun h op => ¬h.bindsBlank op) h ops) :
    ((host C).run h ops).Kept :=
  (host C).invariant_guarded Kept (fun _ => True) (fun h op => ¬h.bindsBlank op)
    (fun _ _ _ => trivial) (fun _ op hk hg _ => hk.step op hg) hk hobeys trivial

theorem mapped_split (hk : h.Kept) (hnone : ∀ key,h.kernel.sessions.lookup key = none)
    (ops : List (Op C)) (hobeys : (host C).Obeys (fun h op => ¬h.bindsBlank op) h ops) {key : String}
    {sid : Nat} (hm : ((host C).run h ops).kernel.sessions.lookup key = some sid) :
    ∃ pre op post,ops = pre ++ op :: post ∧ op.bindsKey h.kernel.owner = some key ∧
      ∀ op' ∈ post,op'.endsKey h.kernel.owner ≠ some key := by
  induction ops using List.reverseRecOn with
  | nil => simp [hnone] at hm
  | append_singleton ops op ih =>
    rw [StepMachine.obeys_append] at hobeys
    have hkept := run_kept hk hobeys.1
    have ho := run_owner h ops
    rw [StepMachine.run_append] at hm
    rcases step_mapped hkept op hm with hb | ⟨hm,he⟩
    · exact ⟨ops,op,[],rfl,ho ▸ hb,by simp⟩
    · obtain ⟨pre,op',post,rfl,hb,hpost⟩ := ih hobeys.1 hm
      refine ⟨pre,op',post ++ [op],by simp,hb,fun x hx => ?_⟩
      rcases List.mem_append.mp hx with hx | hx
      · exact hpost x hx
      · rw [List.mem_singleton.mp hx]
        exact ho ▸ he

theorem no_rows {srv : Server} (hset : srv.settled) (hopen : ∀ sid,¬srv.isOpen sid)
    (hd : (Enq.history srv.instanceName srv.journal).2.issued.Nodup) : srv.table.rows = [] := by
  have hinv := Enq.history_inv srv.instanceName srv.journal hd
  rw [srv.played] at hinv
  rw [List.eq_nil_iff_forall_not_mem]
  intro w hw
  have hok := hinv.rows w hw
  rcases hok.tidy.1 with hp | hp
  · obtain ⟨s,hs,-⟩ := hok.dialog hp
    exact hopen w.session (by rw [Server.isOpen,hs]; rfl)
  · rcases hok.update hp with ⟨s,hs,-⟩ | hpend
    · exact hopen w.session (by rw [Server.isOpen,hs]; rfl)
    · rw [hset] at hpend
      cases hpend

theorem alist_empty {α : Type} {β : α → Type} [DecidableEq α] {m : AList β}
    (hm : ∀ a,m.lookup a = none) : m = ∅ := by
  apply AList.ext
  cases he : m.entries with
  | nil => rfl
  | cons e es =>
    have hl := hm e.1
    simp only [AList.lookup,he] at hl
    rw [List.dlookup_cons_eq] at hl
    cases hl

theorem Kept.cleared (hk : h.Kept) (hsteps : h.steps = ∅)
    (hmaps : ∀ sid,¬h.kernel.maps sid) : h.kernel.pins = ∅ ∧ h.kernel.retired = ∅ ∧
      ∀ sid,¬h.kernel.server.isOpen sid := by
  have hcount : ∀ sid,h.bound sid = 0 := by
    intro sid
    simp [Host.bound,hsteps]
  have hdooms : ∀ sid,¬h.kernel.dooms sid := by
    intro sid hd
    have := hk.tracks.pinned sid hd
    have := hcount sid
    omega
  refine ⟨alist_empty fun sid => ?_,alist_empty fun sid => ?_,fun sid ho => ?_⟩
  · cases hl : h.kernel.pins.lookup sid with
    | none => rfl
    | some n =>
      have hn := hk.tracks.positive sid n hl
      have hz := (hk.tracks.pins sid).trans (hcount sid)
      simp only [Kernel.pin,hl,Option.getD_some] at hz
      omega
  · simpa [Kernel.dooms] using hdooms sid
  · rcases hk.tracks.sessions sid ho with ⟨s,step,hs,-⟩ | hm | hd
    · simp [hsteps] at hs
    · exact hmaps sid hm
    · exact hdooms sid hd

def AllEnded (owner : Owner) (ops : List (Op C)) : Prop :=
  ∀ pre op post key, ops = pre ++ op :: post → op.bindsKey owner = some key →
    ∃ op' ∈ post, op'.endsKey owner = some key

structure NoOrphans (start : Host C) (ops : List (Op C)) : Prop where
  accounted : ∀ pre post, ops = pre ++ post → ((host C).run start pre).Accounted
  cleared : ∀ pre post, ops = pre ++ post → ((host C).run start pre).steps = ∅ →
    AllEnded start.kernel.owner pre →
    ((host C).run start pre).kernel.pins = ∅ ∧ ((host C).run start pre).kernel.retired = ∅ ∧
      ((Enq.history ((host C).run start pre).kernel.server.instanceName
          ((host C).run start pre).kernel.server.journal).2.issued.Nodup →
        ((host C).run start pre).kernel.server.table.rows = [])

theorem no_orphans_iff (instanceName : String) (owner : Owner) (ops : List (Op C)) :
    NoOrphans (Host.new (.new instanceName) owner) ops ↔
      (host C).Obeys (fun h op => ¬h.bindsBlank op) (Host.new (.new instanceName) owner) ops := by
  have hnew := new_kept (C := C) instanceName owner
  constructor
  · intro h
    induction ops using List.reverseRecOn with
    | nil => trivial
    | append_singleton ops op ih =>
      have hpre : (host C).Obeys (fun h op => ¬h.bindsBlank op)
          (Host.new (.new instanceName) owner) ops := by
        refine ih ⟨?_,?_⟩
        · rintro pre post rfl
          exact h.accounted pre (post ++ [op]) (by simp)
        · rintro pre post rfl
          exact h.cleared pre (post ++ [op]) (by simp)
      refine (StepMachine.obeys_append _ _ _ ops [op]).mpr ⟨hpre,fun hblank => ?_,trivial⟩
      have hacc := h.accounted (ops ++ [op]) [] (by simp)
      rw [StepMachine.run_append] at hacc
      exact (run_kept hnew hpre).blank_breaks hblank hacc
  · intro hobeys
    have hpre : ∀ pre post, ops = pre ++ post → (host C).Obeys (fun h op => ¬h.bindsBlank op)
        (Host.new (.new instanceName) owner) pre := by
      rintro pre post rfl
      exact ((StepMachine.obeys_append _ _ _ pre post).mp hobeys).1
    refine ⟨fun pre post he => (run_kept hnew (hpre pre post he)).accounted,?_⟩
    intro pre post he hsteps hended
    have hk := run_kept hnew (hpre pre post he)
    have hmaps : ∀ sid, ¬((host C).run (Host.new (.new instanceName) owner) pre).kernel.maps sid := by
      rintro sid ⟨key,hm⟩
      obtain ⟨a,op,b,hsplit,hb,hno⟩ :=
        mapped_split hnew (fun _ => by simp [Host.new,Kernel.new]) pre (hpre pre post he) hm
      obtain ⟨op',hop',he'⟩ := hended a op b key hsplit hb
      exact hno op' hop' he'
    obtain ⟨hpins,hretired,hopen⟩ := hk.cleared hsteps hmaps
    exact ⟨hpins,hretired,no_rows hk.tracks.settled hopen⟩

def adtOwner : Owner := ⟨"adt:0123456789ab:"⟩

def blankRun : List (Op Nat) :=
  [.start (some 0),.bind (some 0) "" "ANNA" Enq.noon Enq.noon,.finish (some 0) false Enq.noon,
    .endKey ""]

theorem blank_bind_leaks : ¬∀ instanceName owner (ops : List (Op Nat)),
    NoOrphans (Host.new (.new instanceName) owner) ops := by
  intro h
  have hleft := (h "srv" adtOwner blankRun).accounted blankRun [] (by simp)
  exact absurd (hleft.pins 1) (by decide)

end Host

end OpenSteamgate.Adt
