import OpenSteamgate.Amc.Broker

namespace OpenSteamgate.Amc

variable {Session Receiver Payload : Type}

def Frame.inbox : Frame Session Receiver Payload → Nat
  | .opened inbox | .looping inbox _ | .receiving inbox _ => inbox

def Frame.holds (inbox : Nat) : Frame Session Receiver Payload → List (Delivery Session Receiver Payload)
  | .opened _ => []
  | .looping own q | .receiving own q => if own = inbox then q else []

def held (inbox : Nat) : List (Frame Session Receiver Payload) → List (Delivery Session Receiver Payload)
  | [] => []
  | frame :: frames => held inbox frames ++ frame.holds inbox

def atWork : List (Frame Session Receiver Payload) → Bool
  | [] => true
  | .receiving _ _ :: _ => true
  | .opened _ :: _ | .looping _ _ :: _ => false

theorem held_cons {i : Nat} {frame : Frame Session Receiver Payload}
    {frames : List (Frame Session Receiver Payload)} :
    held i (frame :: frames) = held i frames ++ frame.holds i := rfl

variable [DecidableEq Session]

def State.setPumps (σ : State Session Receiver Payload) (k : Session)
    (frames : List (Frame Session Receiver Payload)) : State Session Receiver Payload :=
  {σ with pumps := Function.update σ.pumps k frames}

def State.setQueue (σ : State Session Receiver Payload) (k : Session) (inbox : Nat)
    (q : List (Delivery Session Receiver Payload)) : State Session Receiver Payload :=
  {σ with queue := Function.update σ.queue k (Function.update (σ.queue k) inbox q)}

def State.put (σ : State Session Receiver Payload) (p : Publication Session Payload)
    (s : Subscription Session Receiver) : State Session Receiver Payload :=
  if σ.active s.id && p.reaches s then
    let k := s.endpoint.session
    σ.setQueue k (σ.inbox k) (σ.queue k (σ.inbox k) ++ [⟨s,p.msg,σ.published.length - 1⟩])
  else σ

inductive Label (Session : Type)
  | call
  | deliver (k : Session)
  | raise (k : Session)

inductive Step (h : Letters) : State Session Receiver Payload → Label Session →
    State Session Receiver Payload → Prop
  | define {σ} (channels : List Channel) : σ.sending = none →
      Step h σ .call {σ with channels := define h σ.channels channels}
  | subscribe {σ key c} (app path extension : String) (endpoint : Endpoint Session) (receiver : Receiver) :
      σ.sending = none → channel h σ.channels app path "R" endpoint.program = .ok (key,c) →
      Step h σ .call {σ with
        subs := σ.subs ++ [⟨σ.made.length,key,extension,endpoint,receiver⟩]
        active := Function.update σ.active σ.made.length true
        made := σ.made ++ [⟨σ.made.length,key,extension,endpoint,receiver⟩]}
  | stop {σ s} : s ∈ σ.made → Step h σ .call {σ with active := Function.update σ.active s.id false}
  | stopped {σ s} : s ∈ σ.made → σ.active s.id = false → σ.sending = none →
      Step h σ .call {σ with subs := σ.subs.filter fun t => t.id ≠ s.id}
  | publish {σ key c} (app path extension : String) (sender : Endpoint Session) (suppressEcho : Bool)
      (m : Message Payload) (order : List (Subscription Session Receiver)) : σ.sending = none →
      sendable h σ.channels app path sender.program m = .ok (key,c) → order.Perm σ.subs →
      Step h σ .call {σ with
        sending := some ⟨⟨key,c.scope,extension,sender,suppressEcho,
          {m with client := sender.client,username := sender.username},σ.active⟩,order⟩
        published := σ.published ++ [⟨key,c.scope,extension,sender,suppressEcho,
          {m with client := sender.client,username := sender.username},σ.active⟩]}
  | put {σ p s more} : σ.sending = some ⟨p,s :: more⟩ →
      Step h σ .call {σ.put p s with sending := some ⟨p,more⟩}
  | sent {σ p} : σ.sending = some ⟨p,[]⟩ → Step h σ .call {σ with sending := none}
  | forget {σ} (k : Session) : σ.sending = none →
      Step h σ .call {σ with
        subs := σ.subs.filter fun s => s.endpoint.session ≠ k
        active := fun id => σ.active id && !σ.subs.any fun s => s.id = id && s.endpoint.session = k
        inbox := Function.update σ.inbox k (σ.inbox k + 1)}
  | pump {σ} (k : Session) : σ.sending = none → atWork (σ.pumps k) = true →
      Step h σ .call (σ.setPumps k (.opened (σ.inbox k) :: σ.pumps k))
  | take {σ k g frames} : σ.pumps k = .opened g :: frames →
      Step h σ .call ((σ.setPumps k (.looping g (σ.queue k g) :: frames)).setQueue k g [])
  | skip {σ k g d q frames} : σ.pumps k = .looping g (d :: q) :: frames → σ.active d.sub.id = false →
      Step h σ .call (σ.setPumps k (.looping g q :: frames))
  | deliver {σ k g d q frames} : σ.pumps k = .looping g (d :: q) :: frames →
      σ.active d.sub.id = true →
      Step h σ (.deliver k) {σ.setPumps k (.receiving g q :: frames) with delivered := σ.delivered ++ [d]}
  | returned {σ k g q frames} : σ.pumps k = .receiving g q :: frames →
      Step h σ .call (σ.setPumps k (.looping g q :: frames))
  | raised {σ k g q frames} : σ.pumps k = .receiving g q :: frames →
      Step h σ (.raise k) ((σ.setPumps k frames).setQueue k g (q ++ σ.queue k g))
  | ended {σ k g frames} : σ.pumps k = .looping g [] :: frames → Step h σ .call (σ.setPumps k frames)

inductive Happens (h : Letters) (meets : State Session Receiver Payload → Label Session → Prop) :
    State Session Receiver Payload → Prop
  | start : Happens h meets {}
  | step {σ l σ'} : Happens h meets σ → Step h σ l σ' → meets σ l → Happens h meets σ'

def Unovertaken (σ : State Session Receiver Payload) : Label Session → Prop
  | .deliver k => ∀ g d q frames,σ.pumps k = .looping g (d :: q) :: frames →
      ∀ inbox,∀ d' ∈ held inbox frames,d'.sub.id ≠ d.sub.id
  | .call | .raise _ => True

def State.line (σ : State Session Receiver Payload) (k : Session) (inbox : Nat) :
    List (Delivery Session Receiver Payload) := held inbox (σ.pumps k) ++ σ.queue k inbox

section lines

variable {σ : State Session Receiver Payload} {k l : Session} {g i : Nat} {frame : Frame Session Receiver Payload}
  {frames : List (Frame Session Receiver Payload)} {q : List (Delivery Session Receiver Payload)}
  {d : Delivery Session Receiver Payload}

theorem line_setPumps (i : Nat) : (σ.setPumps k frames).line l i =
    if l = k then held i frames ++ σ.queue k i else σ.line l i := by
  rw [State.line,State.setPumps]
  dsimp only
  split
  · rename_i hl
    rw [hl,Function.update_self]
  · rename_i hl
    rw [Function.update_of_ne hl,State.line]

theorem line_setQueue : (σ.setQueue k g q).line l i =
    if l = k ∧ i = g then held i (σ.pumps k) ++ q else σ.line l i := by
  rw [State.line,State.setQueue]
  dsimp only
  by_cases hl : l = k
  · subst hl
    rw [Function.update_self]
    by_cases hi : i = g
    · subst hi
      rw [Function.update_self,if_pos ⟨rfl,rfl⟩]
    · rw [Function.update_of_ne hi,if_neg fun hboth => hi hboth.2,State.line]
  · rw [Function.update_of_ne hl,if_neg fun hboth => hl hboth.1,State.line]

theorem line_swap (frame : Frame Session Receiver Payload) {old : Frame Session Receiver Payload}
    (hpumps : σ.pumps k = old :: frames)
    (hsame : ∀ i,frame.holds i = old.holds i) : (σ.setPumps k (frame :: frames)).line l i = σ.line l i := by
  rw [line_setPumps]
  split
  · rename_i hl
    rw [hl,State.line,hpumps,held_cons,held_cons,hsame]
  · rfl

theorem line_take (hpumps : σ.pumps k = .opened g :: frames) :
    ((σ.setPumps k (.looping g (σ.queue k g) :: frames)).setQueue k g []).line l i = σ.line l i := by
  rw [line_setQueue,line_setPumps]
  have hframes : (σ.setPumps k (.looping g (σ.queue k g) :: frames)).pumps k =
      .looping g (σ.queue k g) :: frames := Function.update_self ..
  by_cases hl : l = k
  · subst hl
    rw [if_pos rfl,State.line,hpumps,held_cons,held_cons,Frame.holds,List.append_nil]
    by_cases hi : i = g
    · subst hi
      rw [if_pos ⟨rfl,rfl⟩,hframes,held_cons,Frame.holds,if_pos rfl,List.append_nil]
    · rw [if_neg fun hboth => hi hboth.2,Frame.holds,if_neg (Ne.symm hi),List.append_nil]
  · rw [if_neg fun hboth => hl hboth.1,if_neg hl]

theorem line_raised (hpumps : σ.pumps k = .receiving g q :: frames) :
    ((σ.setPumps k frames).setQueue k g (q ++ σ.queue k g)).line l i = σ.line l i := by
  rw [line_setQueue,line_setPumps]
  have hframes : (σ.setPumps k frames).pumps k = frames := Function.update_self ..
  by_cases hl : l = k
  · subst hl
    rw [if_pos rfl,State.line,hpumps,held_cons,Frame.holds]
    by_cases hi : i = g
    · subst hi
      rw [if_pos ⟨rfl,rfl⟩,hframes,if_pos rfl,List.append_assoc]
    · rw [if_neg fun hboth => hi hboth.2,if_neg (Ne.symm hi),List.append_nil]
  · rw [if_neg fun hboth => hl hboth.1,if_neg hl]

theorem line_ended (hpumps : σ.pumps k = .looping g [] :: frames) :
    (σ.setPumps k frames).line l i = σ.line l i := by
  rw [line_setPumps]
  split
  · rename_i hl
    rw [hl,State.line,hpumps,held_cons,Frame.holds,ite_self,List.append_nil]
  · rfl

theorem line_pump : (σ.setPumps k (.opened g :: σ.pumps k)).line l i = σ.line l i := by
  rw [line_setPumps]
  split
  · rename_i hl
    rw [hl,State.line,held_cons,Frame.holds,List.append_nil]
  · rfl

theorem line_next (frame : Frame Session Receiver Payload)
    (hpumps : σ.pumps k = .looping g (d :: q) :: frames) (hframe : ∀ i,frame.holds i = if g = i then q else []) :
    σ.line k g = held g frames ++ d :: (q ++ σ.queue k g) ∧
      (σ.setPumps k (frame :: frames)).line k g = held g frames ++ (q ++ σ.queue k g) ∧
      ∀ l i,¬(l = k ∧ i = g) → (σ.setPumps k (frame :: frames)).line l i = σ.line l i := by
  refine ⟨?_,?_,fun l i hother => ?_⟩
  · rw [State.line,hpumps,held_cons,Frame.holds,if_pos rfl,List.append_assoc,List.cons_append]
  · rw [line_setPumps,if_pos rfl,held_cons,hframe,if_pos rfl,List.append_assoc]
  · rw [line_setPumps]
    split
    · rename_i hl
      have hi : g ≠ i := fun hi => hother ⟨hl,hi.symm⟩
      rw [hl,State.line,hpumps,held_cons,held_cons,hframe,Frame.holds,if_neg hi,if_neg hi]
    · rfl

theorem line_put {p : Publication Session Payload} {s : Subscription Session Receiver} (l : Session)
    (i : Nat) : (σ.put p s).line l i = σ.line l i ++
      if σ.active s.id && p.reaches s && (l = s.endpoint.session && i = σ.inbox l) then
        [⟨s,p.msg,σ.published.length - 1⟩] else [] := by
  rw [State.put]
  split
  · rename_i hput
    rw [line_setQueue,hput,Bool.true_and]
    by_cases hl : l = s.endpoint.session
    · subst hl
      by_cases hi : i = σ.inbox s.endpoint.session
      · subst hi
        rw [if_pos ⟨rfl,rfl⟩,if_pos (by simp),State.line,List.append_assoc]
      · rw [if_neg fun hboth => hi hboth.2,if_neg (by simp [hi]),List.append_nil]
    · rw [if_neg fun hboth => hl hboth.1,if_neg (by simp [hl]),List.append_nil]
  · rename_i hput
    rw [if_neg (by simp [hput]),List.append_nil]

end lines

end OpenSteamgate.Amc
