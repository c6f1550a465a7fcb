import OpenSteamgate.Amc.Delivery

namespace OpenSteamgate.Amc

variable {Session Receiver Payload : Type} [DecidableEq Session] {h : Letters}
  {σ σ' : State Session Receiver Payload} {l : Label Session}
  {meets : State Session Receiver Payload → Label Session → Prop}

theorem happens_account {R Q : List Nat → List Nat → Prop} (hnothing : R [] [])
    (hpart : ∀ {D P W},R (D ++ P) W → Q D W)
    (hturn : ∀ {σ l D P W D' P' W'},meets σ l →
      Mailbox.Turn (Unovertaken σ l) D P W D' P' W' → R (D ++ P) W → R (D' ++ P') W')
    (hσ : Happens h meets σ) : ∀ s ∈ σ.made,Q (σ.deliveredTo s) (owed σ.published s) ∧ (σ.active s.id = true →
        R (σ.deliveredTo s ++ (σ.queuedFor s ++ σ.sentTo s)) (owed σ.published s)) := by
  induction hσ with
  | start => exact List.forall_mem_nil _
  | @step σ l σ' hbefore hstep hmeets ih =>
    have hsound := happens_sound hbefore
    intro s hs
    rcases step_made hsound hstep hs with hold | ⟨hdelivered,hqueued,hsent,howed⟩
    · obtain ⟨hgot,hall⟩ := ih s hold
      cases hactive : σ'.active s.id with
      | true =>
        obtain ⟨hwas,hturns⟩ := step_turns hsound hstep hold hactive
        have hnow := hturn hmeets hturns (hall hwas)
        exact ⟨hpart hnow,fun _ => hnow⟩
      | false =>
        obtain ⟨hdelivered,howed⟩ := step_ended hstep hactive
        rw [hdelivered,howed]
        exact ⟨hgot,nofun⟩
    · rw [hdelivered,hqueued,hsent,howed]
      exact ⟨hpart (P := []) hnothing,fun _ => hnothing⟩

theorem happens_perm (hσ : Happens h meets σ) : ∀ s ∈ σ.made,
    (σ.deliveredTo s).Subperm (owed σ.published s) ∧ (σ.active s.id = true →
      (σ.deliveredTo s ++ (σ.queuedFor s ++ σ.sentTo s)).Perm (owed σ.published s)) :=
  happens_account (.refl _) Mailbox.perm_subperm (fun _ hturn => hturn.perm) hσ

theorem happens_exact (hσ : Happens h Unovertaken σ) : ∀ s ∈ σ.made,
    (σ.deliveredTo s) <+: (owed σ.published s) ∧ (σ.active s.id = true →
      σ.deliveredTo s ++ (σ.queuedFor s ++ σ.sentTo s) = owed σ.published s) :=
  happens_account rfl (fun {_ P _} hall => ⟨P,hall⟩) (fun hmeets hturn => hturn.exact hmeets) hσ

theorem raise_keeps (hσ : Sound σ) {k : Session} (hstep : Step h σ (.raise k) σ') :
    ∃ g q frames,σ.pumps k = .receiving g q :: frames ∧ σ'.pumps k = frames ∧
      σ'.queue k g = q ++ σ.queue k g ∧ ∀ d ∈ q,∀ e ∈ σ.queue k g,d.seq ≤ e.seq := by
  cases hstep with
  | @raised _ g q frames hpumps =>
    refine ⟨g,q,frames,hpumps,Function.update_self ..,?_,fun d hd e he => ?_⟩
    · change Function.update σ.queue k _ k g = _
      rw [Function.update_self,Function.update_self]
    · have hsorted := hσ.sorted k g
      rw [State.line,hpumps,held_cons,Frame.holds,if_pos rfl] at hsorted
      exact (List.pairwise_append.mp hsorted).2.2 d (List.mem_append_right _ hd) e he

theorem messages_delivered (h : Letters) (σ : State Session Receiver Payload)
    (hσ : Happens h (fun _ _ => True) σ) :
    (∀ d ∈ σ.delivered,Comes σ d) ∧
    (∀ s ∈ σ.made,(owed σ.published s).Pairwise (· < ·) ∧
      (∀ n,n ∈ owed σ.published s ↔ ∃ p,σ.published[n]? = some p ∧ p.Matches s) ∧
      (σ.deliveredTo s).Subperm (owed σ.published s) ∧ (σ.active s.id = true →
        (σ.deliveredTo s ++ (σ.queuedFor s ++ σ.sentTo s)).Perm (owed σ.published s))) ∧
    (∀ k σ',Step h σ (.raise k) σ' → ∃ g q frames,σ.pumps k = .receiving g q :: frames ∧
      σ'.pumps k = frames ∧ σ'.queue k g = q ++ σ.queue k g ∧
      ∀ d ∈ q,∀ e ∈ σ.queue k g,d.seq ≤ e.seq) ∧
    (Happens h Unovertaken σ → ∀ s ∈ σ.made,(σ.deliveredTo s) <+: (owed σ.published s) ∧
      (σ.active s.id = true →
        σ.deliveredTo s ++ (σ.queuedFor s ++ σ.sentTo s) = owed σ.published s)) := by
  refine ⟨(happens_sound hσ).came,fun s hs => ?_,fun k σ' hstep => raise_keeps (happens_sound hσ) hstep,
    happens_exact⟩
  obtain ⟨hgot,hall⟩ := happens_perm hσ s hs
  exact ⟨owed_sorted _ s,mem_owed _ s,hgot,hall⟩

def kept : Letters := ⟨id,id,id,fun a b => a = b⟩

def news : Channel := ⟨"NEWS","/all","TEXT","S",[⟨"/all","CP","S"⟩,⟨"/all","CP","R"⟩]⟩

def reader : Endpoint Unit := ⟨(),"CP","100","ANNA"⟩

def newsSub : Subscription Unit Unit := ⟨0,⟨"NEWS","/all"⟩,"",reader,()⟩

def note (n : Nat) : Message Nat := ⟨"TEXT",n,"",""⟩

theorem overtaken : ¬∀ σ : State Unit Unit Nat,Happens kept (fun _ _ => True) σ → ∀ s ∈ σ.made,
    (σ.deliveredTo s).Pairwise (· < ·) := by
  intro hordered
  have hstart : Happens kept (fun _ _ => True) ({} : State Unit Unit Nat) := .start
  have hdefined := hstart.step (.define [news] rfl) trivial
  have hsubscribed := hdefined.step (.subscribe "NEWS" "/all" "" reader () rfl rfl) trivial
  have hfirst := hsubscribed.step (.publish "NEWS" "/all" "" reader false (note 0) [newsSub] rfl rfl
    (.refl _)) trivial
  have hfirst := (hfirst.step (.put rfl) trivial).step (.sent rfl) trivial
  have hsecond := hfirst.step (.publish "NEWS" "/all" "" reader false (note 1) [newsSub] rfl rfl
    (.refl _)) trivial
  have hsecond := (hsecond.step (.put rfl) trivial).step (.sent rfl) trivial
  have hpump := (hsecond.step (.pump () rfl rfl) trivial).step (.take (k := ()) rfl) trivial
  have hreceived := hpump.step (.deliver (k := ()) rfl rfl) trivial
  -- the receiver publishes and waits
  have hthird := hreceived.step (.publish "NEWS" "/all" "" reader false (note 2) [newsSub] rfl rfl
    (.refl _)) trivial
  have hthird := (hthird.step (.put rfl) trivial).step (.sent rfl) trivial
  have hnested := (hthird.step (.pump () rfl rfl) trivial).step (.take (k := ()) rfl) trivial
  have hovertaken := (hnested.step (.deliver (k := ()) rfl rfl) trivial).step (.returned (k := ()) rfl) trivial
  have hback := (hovertaken.step (.ended (k := ()) rfl) trivial).step (.returned (k := ()) rfl) trivial
  have hlast := hback.step (.deliver (k := ()) rfl rfl) trivial
  have hsorted := hordered _ hlast newsSub (List.mem_singleton_self _)
  revert hsorted
  decide +kernel

theorem Happens.weaken {meets' : State Session Receiver Payload → Label Session → Prop}
    (hmeets : ∀ σ l,meets σ l → meets' σ l) (hσ : Happens h meets σ) : Happens h meets' σ := by
  induction hσ with
  | start => exact .start
  | step _ hstep hmeet ih => exact ih.step hstep (hmeets _ _ hmeet)

theorem messages_delivered_first : ∃ σ : State Unit Unit Nat,
    σ.deliveredTo newsSub = [0] ∧ σ.queuedFor newsSub = [1] ∧
      σ.deliveredTo newsSub ++ (σ.queuedFor newsSub ++ σ.sentTo newsSub) = owed σ.published newsSub := by
  have hstart : Happens kept Unovertaken ({} : State Unit Unit Nat) := .start
  have hdefined := hstart.step (.define [news] rfl) trivial
  have hsubscribed := hdefined.step (.subscribe "NEWS" "/all" "" reader () rfl rfl) trivial
  have hfirst := hsubscribed.step (.publish "NEWS" "/all" "" reader false (note 0) [newsSub] rfl rfl
    (.refl _)) trivial
  have hfirst := (hfirst.step (.put rfl) trivial).step (.sent rfl) trivial
  have hsecond := hfirst.step (.publish "NEWS" "/all" "" reader false (note 1) [newsSub] rfl rfl
    (.refl _)) trivial
  have hsecond := (hsecond.step (.put rfl) trivial).step (.sent rfl) trivial
  have hpump := (hsecond.step (.pump () rfl rfl) trivial).step (.take (k := ()) rfl) trivial
  have hlast := hpump.step (.deliver (k := ()) rfl rfl) fun g d q frames hpumps inbox d' hd' => by
    obtain ⟨-,rfl⟩ := List.cons.inj hpumps
    exact nomatch hd'
  have hall := messages_delivered kept _ (hlast.weaken fun _ _ _ => trivial)
  have hexact := hall.2.2.2 hlast newsSub (List.mem_singleton_self _)
  exact ⟨_,by decide +kernel,by decide +kernel,hexact.2 rfl⟩

end OpenSteamgate.Amc
