import OpenSteamgate.Apc.Channel
import OpenSteamgate.Library.Histories

namespace OpenSteamgate.Apc

open UpTo (upTo)

variable {step : Step} {turn : Turn} {world : World} {ch : Channel} {std : Std} {r : Request}
  {reads : List Incoming} {events : List Event} {calls : List Call} {writes : Nat → Bool}
  {out : List String}

section abstraction

def Event.call? : Event → Option Call
  | .called call => some call
  | _ => none

def Event.wrote? : Event → Option String
  | .wrote text => some text
  | _ => none

def Event.isLost : Event → Bool
  | .lost _ => true
  | _ => false

def callsOf (events : List Event) : List Call := events.filterMap Event.call?

def wroteOf (events : List Event) : List String := events.filterMap Event.wrote?

def Incoming.ends : Incoming → Bool
  | .closed | .broken _ => true
  | .text _ | .binary => false

def Incoming.turn? : Incoming → Option Turn
  | .text turn => some turn
  | _ => none

def Turn.stops (turn : Turn) : Bool :=
  turn.step.failed turn.calls || !alive turn.writes turn.out

def texts (reads : List Incoming) : List Turn :=
  (reads.takeWhile fun e => !e.ends).filterMap Incoming.turn?

def handled (reads : List Incoming) : List Turn := upTo Turn.stops (texts reads)

def finishes (reads : List Incoming) : Bool := (texts reads).any Turn.stops || reads.any Incoming.ends

def Channel.refuses (ch : Channel) (std : Std) (r : Request) : Bool :=
  (handshake std r).isSome || (!ch.anyOrigin && !originAllowed std r ch.originPatterns)

def Turn.sends (turn : Turn) : List String := if turn.step.failed turn.calls then [] else turn.out

end abstraction

section pieces

@[simp] theorem callsOf_append (es fs : List Event) : callsOf (es ++ fs) = callsOf es ++ callsOf fs :=
  List.filterMap_append ..

@[simp] theorem wroteOf_append (es fs : List Event) : wroteOf (es ++ fs) = wroteOf es ++ wroteOf fs :=
  List.filterMap_append ..

@[simp] theorem callsOf_called (calls : List Call) : callsOf (called calls) = calls := by
  induction calls with
  | nil => rfl
  | cons call calls ih => exact congrArg (call :: ·) ih

@[simp] theorem wroteOf_called (calls : List Call) : wroteOf (called calls) = [] := by
  induction calls with
  | nil => rfl
  | cons call calls ih => exact ih

@[simp] theorem lost_called (calls : List Call) : (called calls).any Event.isLost = false := by
  induction calls with
  | nil => rfl
  | cons call calls ih => exact ih

theorem made_all (h : step.failed calls = false) : step.made calls = calls := by
  simp only [Step.failed,Bool.or_eq_false_iff,Bool.not_eq_false'] at h
  obtain ⟨⟨hbegins,hdumps⟩,-⟩ := h
  rw [Step.made,if_pos hbegins]
  cases hk : step.dumps with
  | none => rfl
  | some k =>
    rw [hk] at hdumps
    have hlen : calls.length ≤ k := Nat.not_lt.mp (of_decide_eq_false hdumps)
    exact List.take_of_length_le (Nat.le_succ_of_le hlen)

theorem alive_cons (writes : Nat → Bool) (m : String) (msgs : List String) (i : Nat) :
    ((List.range (m :: msgs).length).all fun j => writes (i + j)) =
      (writes i && (List.range msgs.length).all fun j => writes (i + 1 + j)) := by
  rw [List.length_cons,List.range_succ_eq_map,List.all_cons,List.all_map,Nat.add_zero]
  refine congrArg (writes i && ·) (congrArg (List.range msgs.length).all (funext fun j => ?_))
  exact congrArg writes (by simp only [Nat.succ_eq_add_one]; omega)

theorem write_from (writes : Nat → Bool) (i : Nat) (out : List String) :
    callsOf (write writes i out) = [] ∧ wroteOf (write writes i out) <+: out ∧
      (write writes i out).any Event.isLost = !(List.range out.length).all (fun j => writes (i + j)) ∧
      ((List.range out.length).all (fun j => writes (i + j)) = true →
        wroteOf (write writes i out) = out) := by
  induction out generalizing i with
  | nil => exact ⟨rfl,List.prefix_rfl,rfl,fun _ => rfl⟩
  | cons m msgs ih =>
    obtain ⟨hcalls,hwrote,hlost,hall⟩ := ih (i + 1)
    rw [alive_cons,write]
    cases hi : writes i with
    | false =>
      rw [if_neg Bool.false_ne_true]
      refine ⟨rfl,List.nil_prefix,rfl,fun h => ?_⟩
      rw [Bool.false_and] at h
      exact absurd h Bool.false_ne_true
    | true =>
      rw [if_pos rfl,Bool.true_and]
      refine ⟨hcalls,List.cons_prefix_cons.mpr ⟨rfl,hwrote⟩,hlost,fun h => ?_⟩
      exact congrArg (m :: ·) (hall h)

theorem alive_from (writes : Nat → Bool) (out : List String) :
    (List.range out.length).all (fun j => writes (0 + j)) = alive writes out := by
  simp only [Nat.zero_add]
  rfl

theorem callsOf_write (writes : Nat → Bool) (out : List String) : callsOf (write writes 0 out) = [] :=
  (write_from writes 0 out).1

theorem wroteOf_write (writes : Nat → Bool) (out : List String) :
    wroteOf (write writes 0 out) <+: out := (write_from writes 0 out).2.1

theorem lost_write (writes : Nat → Bool) (out : List String) :
    (write writes 0 out).any Event.isLost = !alive writes out := by
  rw [← alive_from]
  exact (write_from writes 0 out).2.2.1

theorem wroteOf_alive (h : alive writes out = true) : wroteOf (write writes 0 out) = out := by
  rw [← alive_from] at h
  exact (write_from writes 0 out).2.2.2 h

@[simp] theorem callsOf_onClose (reason : String) (code : Int) :
    callsOf (world.onClose reason code) = world.close.made [.close reason code] := callsOf_called _

@[simp] theorem wroteOf_onClose (reason : String) (code : Int) :
    wroteOf (world.onClose reason code) = [] := wroteOf_called _

end pieces

section serving

theorem texts_text (turn : Turn) (reads : List Incoming) :
    texts (.text turn :: reads) = turn :: texts reads := rfl

theorem serve_calls (world : World) (reads : List Incoming) : ∃ reason code,
    callsOf (world.serve reads) = ((handled reads).flatMap fun turn => turn.step.made turn.calls) ++
      if finishes reads then world.close.made [.close reason code] else [] := by
  induction reads with
  | nil => exact ⟨"",0,rfl⟩
  | cons e reads ih =>
    cases e with
    | closed => exact ⟨"closed by the client",1000,callsOf_onClose _ _⟩
    | broken why => exact ⟨why,1006,callsOf_onClose _ _⟩
    | binary => exact ih
    | text turn =>
      rw [handled,texts_text,World.serve,callsOf_append,callsOf_called]
      cases hfailed : turn.step.failed turn.calls with
      | true =>
        have hstops : turn.stops = true := by rw [Turn.stops,hfailed,Bool.true_or]
        have hover : finishes (.text turn :: reads) = true := by
          rw [finishes,texts_text,List.any_cons,hstops,Bool.true_or,Bool.true_or]
        rw [UpTo.upTo_stop hstops,hover,if_pos rfl,List.flatMap_singleton]
        cases world.closeAnswered with
        | true => exact ⟨"closed by the client",1000,congrArg _ (callsOf_onClose _ _)⟩
        | false => exact ⟨"handler failed",1006,congrArg _ (callsOf_onClose _ _)⟩
      | false =>
        rw [if_neg Bool.false_ne_true,callsOf_append,callsOf_write,List.nil_append]
        cases halive : alive turn.writes turn.out with
        | false =>
          have hstops : turn.stops = true := by rw [Turn.stops,halive,Bool.not_false,Bool.or_true]
          have hover : finishes (.text turn :: reads) = true := by
            rw [finishes,texts_text,List.any_cons,hstops,Bool.true_or,Bool.true_or]
          refine ⟨"write failed",1006,?_⟩
          rw [UpTo.upTo_stop hstops,hover,if_pos rfl,if_neg Bool.false_ne_true,List.flatMap_singleton,
            callsOf_onClose]
        | true =>
          have hstops : turn.stops = false := by rw [Turn.stops,hfailed,halive]; rfl
          have hover : finishes (.text turn :: reads) = finishes reads := by
            rw [finishes,texts_text,List.any_cons,hstops,Bool.false_or,List.any_cons]
            rfl
          obtain ⟨reason,code,hserve⟩ := ih
          refine ⟨reason,code,?_⟩
          rw [UpTo.upTo_go hstops,hover,if_pos rfl,hserve,List.flatMap_cons,List.append_assoc,handled]

theorem serve_wrote (world : World) (reads : List Incoming) :
    wroteOf (world.serve reads) <+: (handled reads).flatMap Turn.sends ∧
      ((world.serve reads).any Event.isLost = false →
        wroteOf (world.serve reads) = (handled reads).flatMap Turn.sends) := by
  induction reads with
  | nil => exact ⟨List.prefix_rfl,fun _ => rfl⟩
  | cons e reads ih =>
    have hnone : ∀ reason code,wroteOf (world.onClose reason code) = [] := fun _ _ => wroteOf_called _
    cases e with
    | closed => exact ⟨by rw [World.serve,hnone]; exact List.nil_prefix,fun _ => hnone _ _⟩
    | broken why => exact ⟨by rw [World.serve,hnone]; exact List.nil_prefix,fun _ => hnone _ _⟩
    | binary => exact ih
    | text turn =>
      rw [handled,texts_text,World.serve,wroteOf_append,wroteOf_called,List.nil_append,List.any_append,
        lost_called,Bool.false_or]
      cases hfailed : turn.step.failed turn.calls with
      | true =>
        have hstops : turn.stops = true := by rw [Turn.stops,hfailed,Bool.true_or]
        have hsends : turn.sends = [] := by rw [Turn.sends,hfailed,if_pos rfl]
        rw [UpTo.upTo_stop hstops,if_pos rfl,List.flatMap_singleton,hsends]
        have hwrote : wroteOf (.shut :: (if world.closeAnswered then
            world.onClose "closed by the client" 1000 else world.onClose "handler failed" 1006)) = [] := by
          cases world.closeAnswered with
          | true => exact hnone _ _
          | false => exact hnone _ _
        rw [hwrote]
        exact ⟨List.prefix_rfl,fun _ => rfl⟩
      | false =>
        have hsends : turn.sends = turn.out := by rw [Turn.sends,hfailed,if_neg Bool.false_ne_true]
        rw [if_neg Bool.false_ne_true,wroteOf_append,List.any_append,lost_write]
        cases halive : alive turn.writes turn.out with
        | false =>
          have hstops : turn.stops = true := by rw [Turn.stops,halive,Bool.not_false,Bool.or_true]
          rw [UpTo.upTo_stop hstops,if_neg Bool.false_ne_true,hnone,List.append_nil,
            List.flatMap_singleton,hsends]
          exact ⟨wroteOf_write _ _,fun h => absurd h (by simp)⟩
        | true =>
          have hstops : turn.stops = false := by rw [Turn.stops,hfailed,halive]; rfl
          rw [UpTo.upTo_go hstops,if_pos rfl,wroteOf_alive halive,List.flatMap_cons,hsends]
          exact ⟨(List.prefix_append_right_inj _).mpr ih.1,fun h => congrArg _ (ih.2 h)⟩

end serving

section connection

theorem serveHTTP_refused (world : World) (h : ch.refuses std r = true) :
    ∃ status text,ch.serveHTTP std r world = [.answered status text] := by
  rw [Channel.serveHTTP]
  rw [Channel.refuses] at h
  cases hshake : handshake std r with
  | some answer => exact ⟨answer.1,answer.2,rfl⟩
  | none =>
    rw [hshake] at h
    have horigin : (!ch.anyOrigin && !originAllowed std r ch.originPatterns) = true := h
    dsimp only
    rw [if_pos horigin]
    exact ⟨_,_,rfl⟩

theorem serveHTTP_let (world : World) (h : ch.refuses std r = false) :
    ch.serveHTTP std r world = called (world.new.made [.new]) ++
      if world.new.failed [.new] then [.answered 503 (ch.handler ++ ": " ++ world.new.dump)]
      else if !world.host then [.answered 500 ""]
      else called (world.start.made [.open,.drain]) ++
        if world.start.failed [.open,.drain] then
          [.answered 503 (ch.handler ++ ": " ++ world.start.dump)]
        else if !world.accepted then [.answered 403 "the handler refused the connection"]
        else if !world.upgrades then world.onClose "upgrade failed" 1006
        else .upgraded :: (write world.writes 0 world.out ++
          if alive world.writes world.out then world.serve world.reads
          else world.onClose "write failed" 1006) := by
  rw [Channel.refuses,Bool.or_eq_false_iff] at h
  obtain ⟨hshake,horigin⟩ := h
  rw [Channel.serveHTTP,Option.isSome_eq_false_iff.mp hshake |> Option.isNone_iff_eq_none.mp]
  dsimp only
  rw [horigin,if_neg Bool.false_ne_true]

def World.opened (world : World) : Bool :=
  !world.new.failed [.new] && world.host && !world.start.failed [.open,.drain] && world.accepted

theorem opened_iff (world : World) : world.opened = true ↔ world.new.failed [.new] = false ∧
    world.host = true ∧ world.start.failed [.open,.drain] = false ∧ world.accepted = true := by
  simp only [World.opened,Bool.and_eq_true,Bool.not_eq_true',and_assoc]

theorem serveHTTP_opened (h : ch.refuses std r = false) (hopened : world.opened = true) :
    ch.serveHTTP std r world = called [.new] ++ (called [.open,.drain] ++
      if !world.upgrades then world.onClose "upgrade failed" 1006
      else .upgraded :: (write world.writes 0 world.out ++
        if alive world.writes world.out then world.serve world.reads
        else world.onClose "write failed" 1006)) := by
  obtain ⟨hnew,hhost,hstart,haccepted⟩ := (opened_iff world).mp hopened
  rw [serveHTTP_let world h,made_all hnew,hnew,if_neg Bool.false_ne_true,hhost,Bool.not_true,
    if_neg Bool.false_ne_true,made_all hstart,hstart,if_neg Bool.false_ne_true,haccepted,Bool.not_true,
    if_neg Bool.false_ne_true]

def World.heard (world : World) : List Turn :=
  if world.upgrades && alive world.writes world.out then handled world.reads else []

def World.ended (world : World) : Bool :=
  !world.upgrades || !alive world.writes world.out || finishes world.reads

theorem opened_calls (h : ch.refuses std r = false) (hopened : world.opened = true) :
    ∃ reason code,callsOf (ch.serveHTTP std r world) = [.new,.open,.drain] ++
      (world.heard.flatMap fun turn => turn.step.made turn.calls) ++
        if world.ended then world.close.made [.close reason code] else [] := by
  rw [serveHTTP_opened h hopened,callsOf_append,callsOf_append,callsOf_called,callsOf_called,World.heard,
    World.ended]
  cases world.upgrades with
  | false =>
    refine ⟨"upgrade failed",1006,?_⟩
    rw [Bool.not_false,if_pos rfl,callsOf_onClose]
    rfl
  | true =>
    rw [Bool.not_true,if_neg Bool.false_ne_true,Bool.true_and,Bool.false_or]
    cases halive : alive world.writes world.out with
    | false =>
      refine ⟨"write failed",1006,?_⟩
      change _ ++ (_ ++ callsOf (write _ 0 _ ++ world.onClose _ _)) = _
      rw [callsOf_append,callsOf_write,callsOf_onClose]
      rfl
    | true =>
      obtain ⟨reason,code,hserve⟩ := serve_calls world world.reads
      refine ⟨reason,code,?_⟩
      change _ ++ (_ ++ callsOf (write _ 0 _ ++ world.serve _)) = _
      rw [callsOf_append,callsOf_write,hserve]
      rfl

def World.sends (world : World) : List String :=
  (if world.start.failed [.open,.drain] then [] else world.out) ++ world.heard.flatMap Turn.sends

theorem started_sends (hopened : world.opened = true) :
    world.sends = world.out ++ world.heard.flatMap Turn.sends := by
  rw [World.sends,((opened_iff world).mp hopened).2.2.1,if_neg Bool.false_ne_true]

theorem opened_wrote (h : ch.refuses std r = false) (hopened : world.opened = true) :
    wroteOf (ch.serveHTTP std r world) <+: world.sends ∧
      (world.upgrades = true → (ch.serveHTTP std r world).any Event.isLost = false →
        wroteOf (ch.serveHTTP std r world) = world.sends) := by
  rw [serveHTTP_opened h hopened,started_sends hopened,wroteOf_append,wroteOf_append,wroteOf_called,
    wroteOf_called,List.any_append,List.any_append,lost_called,lost_called,World.heard]
  cases world.upgrades with
  | false =>
    refine ⟨?_,fun hupgrades => absurd hupgrades Bool.false_ne_true⟩
    rw [Bool.not_false,if_pos rfl,wroteOf_onClose]
    exact List.nil_prefix
  | true =>
    rw [Bool.not_true,if_neg Bool.false_ne_true,Bool.true_and]
    cases halive : alive world.writes world.out with
    | false =>
      change wroteOf (write _ 0 _ ++ world.onClose _ _) <+: _ ∧ (_ → _ → _)
      rw [wroteOf_append,wroteOf_onClose,List.append_nil]
      refine ⟨(wroteOf_write _ _).trans (List.prefix_append ..),fun _ hlost => ?_⟩
      change (write _ 0 _ ++ world.onClose _ _).any _ = false at hlost
      rw [List.any_append,lost_write,halive] at hlost
      exact absurd hlost (by simp)
    | true =>
      change wroteOf (write _ 0 _ ++ world.serve _) <+: _ ∧ (_ → _ → _)
      rw [wroteOf_append,wroteOf_alive halive]
      obtain ⟨hbegins,hall⟩ := serve_wrote world world.reads
      refine ⟨(List.prefix_append_right_inj _).mpr hbegins,fun _ hlost => ?_⟩
      change (write _ 0 _ ++ world.serve _).any _ = false at hlost
      rw [List.any_append,Bool.or_eq_false_iff] at hlost
      change wroteOf (write _ 0 _ ++ world.serve _) = _
      rw [wroteOf_append,wroteOf_alive halive]
      exact congrArg (world.out ++ ·) (hall hlost.2)

theorem unopened_wrote (h : ch.refuses std r = false) (hopened : world.opened = false) :
    wroteOf (ch.serveHTTP std r world) = [] ∧ Event.upgraded ∉ ch.serveHTTP std r world := by
  have hcalled : ∀ calls,Event.upgraded ∉ called calls := by
    intro calls hmem
    obtain ⟨call,-,hcall⟩ := List.mem_map.mp hmem
    cases hcall
  rw [serveHTTP_let world h]
  rw [World.opened] at hopened
  cases hnew : world.new.failed [.new] with
  | true =>
    rw [if_pos rfl,wroteOf_append,wroteOf_called]
    exact ⟨rfl,by simp [hcalled]⟩
  | false =>
    cases hhost : world.host with
    | false =>
      rw [if_neg Bool.false_ne_true,Bool.not_false,if_pos rfl,wroteOf_append,wroteOf_called]
      exact ⟨rfl,by simp [hcalled]⟩
    | true =>
      cases hstart : world.start.failed [.open,.drain] with
      | true =>
        rw [if_neg Bool.false_ne_true,Bool.not_true,if_neg Bool.false_ne_true,if_pos rfl,wroteOf_append,
          wroteOf_called,wroteOf_append,wroteOf_called]
        exact ⟨rfl,by simp [hcalled]⟩
      | false =>
        rw [hnew,hhost,hstart] at hopened
        have haccepted : world.accepted = false := hopened
        rw [if_neg Bool.false_ne_true,Bool.not_true,if_neg Bool.false_ne_true,
          if_neg Bool.false_ne_true,haccepted,Bool.not_false,if_pos rfl,wroteOf_append,wroteOf_called,
          wroteOf_append,wroteOf_called]
        exact ⟨rfl,by simp [hcalled]⟩

theorem upgraded_first (h : ch.refuses std r = false) {before after : List Event} {m : String}
    (heq : ch.serveHTTP std r world = before ++ .wrote m :: after) : Event.upgraded ∈ before := by
  have hquiet : ∀ {es fs gs : List Event},wroteOf es = [] → es ++ .upgraded :: fs =
      gs ++ .wrote m :: after → Event.upgraded ∈ gs := by
    intro es fs gs hes hsame
    rcases List.append_eq_append_iff.mp hsame with ⟨as,rfl,has⟩ | ⟨bs,rfl,hbs⟩
    · cases as with
      | nil => cases has
      | cons a as =>
        obtain ⟨rfl,-⟩ := List.cons.inj has
        exact List.mem_append_right _ (List.mem_cons_self ..)
    · cases bs with
      | nil => cases hbs
      | cons b bs =>
        obtain ⟨rfl,-⟩ := List.cons.inj hbs
        rw [wroteOf_append] at hes
        exact absurd (List.append_eq_nil_iff.mp hes).2 (List.cons_ne_nil _ _)
  cases hopened : world.opened with
  | false =>
    have hnone := (unopened_wrote h hopened).1
    rw [heq,wroteOf_append] at hnone
    exact absurd (List.append_eq_nil_iff.mp hnone).2 (List.cons_ne_nil _ _)
  | true =>
    rw [serveHTTP_opened h hopened] at heq
    cases hupgrades : world.upgrades with
    | false =>
      have hnone : wroteOf (before ++ .wrote m :: after) = [] := by
        rw [← heq,hupgrades,Bool.not_false,if_pos rfl,wroteOf_append,wroteOf_append,wroteOf_called,
          wroteOf_called,wroteOf_onClose]
        rfl
      rw [wroteOf_append] at hnone
      exact absurd (List.append_eq_nil_iff.mp hnone).2 (List.cons_ne_nil _ _)
    | true =>
      rw [hupgrades,Bool.not_true,if_neg Bool.false_ne_true,← List.append_assoc] at heq
      exact hquiet (by rw [wroteOf_append,wroteOf_called,wroteOf_called]; rfl) heq

theorem serve_lifecycle (ch : Channel) (std : Std) (r : Request) (world : World) :
    (ch.refuses std r = true → callsOf (ch.serveHTTP std r world) = []) ∧
    (ch.refuses std r = false → world.new.failed [.new] = true ∨ world.host = false →
      callsOf (ch.serveHTTP std r world) = world.new.made [.new]) ∧
    (ch.refuses std r = false → world.new.failed [.new] = false → world.host = true →
      world.start.failed [.open,.drain] = true ∨ world.accepted = false →
      callsOf (ch.serveHTTP std r world) = .new :: world.start.made [.open,.drain]) ∧
    (ch.refuses std r = false → world.opened = true →
      ∃ reason code,callsOf (ch.serveHTTP std r world) = [.new,.open,.drain] ++
        (world.heard.flatMap fun turn => turn.step.made turn.calls) ++
          if world.ended then world.close.made [.close reason code] else []) ∧
    wroteOf (ch.serveHTTP std r world) <+: world.sends ∧
    (.upgraded ∈ ch.serveHTTP std r world → (ch.serveHTTP std r world).any Event.isLost = false →
      wroteOf (ch.serveHTTP std r world) = world.sends) ∧
    ∀ before after m,ch.serveHTTP std r world = before ++ .wrote m :: after →
      .upgraded ∈ before := by
  cases h : ch.refuses std r with
  | true =>
    obtain ⟨status,text,hevents⟩ := serveHTTP_refused world h
    rw [hevents]
    refine ⟨fun _ => rfl,fun hno => absurd hno.symm Bool.false_ne_true,
      fun hno => absurd hno.symm Bool.false_ne_true,fun hno => absurd hno.symm Bool.false_ne_true,
      List.nil_prefix,fun hmem => ?_,fun before after m heq => ?_⟩
    · cases List.mem_singleton.mp hmem
    · have hwrote := congrArg wroteOf heq
      rw [wroteOf_append] at hwrote
      exact absurd (List.append_eq_nil_iff.mp hwrote.symm).2 (List.cons_ne_nil _ _)
  | false =>
    refine ⟨fun hno => absurd hno Bool.false_ne_true,fun _ hnew => ?_,fun _ hnew hhost hstart => ?_,
      fun _ hopened => opened_calls h hopened,?_,?_,fun before after m heq => upgraded_first h heq⟩
    · rw [serveHTTP_let world h,callsOf_append,callsOf_called]
      cases hfailed : world.new.failed [.new] with
      | true => exact List.append_nil _
      | false =>
        have hhost : world.host = false := hnew.resolve_left (by rw [hfailed]; exact Bool.false_ne_true)
        rw [hhost]
        exact List.append_nil _
    · rw [serveHTTP_let world h,hnew,if_neg Bool.false_ne_true,hhost,Bool.not_true,
        if_neg Bool.false_ne_true,callsOf_append,callsOf_called,made_all hnew,callsOf_append,callsOf_called]
      cases hfailed : world.start.failed [.open,.drain] with
      | true => exact congrArg (Call.new :: ·) (List.append_nil _)
      | false =>
        have haccepted : world.accepted = false :=
          hstart.resolve_left (by rw [hfailed]; exact Bool.false_ne_true)
        rw [haccepted]
        exact congrArg (Call.new :: ·) (List.append_nil _)
    · cases hopened : world.opened with
      | true => exact (opened_wrote h hopened).1
      | false =>
        rw [(unopened_wrote h hopened).1]
        exact List.nil_prefix
    · intro hmem
      cases hopened : world.opened with
      | false => exact absurd hmem (unopened_wrote h hopened).2
      | true =>
        refine (opened_wrote h hopened).2 ?_
        cases hupgrades : world.upgrades with
        | true => rfl
        | false =>
          rw [serveHTTP_opened h hopened,hupgrades,Bool.not_false,if_pos rfl] at hmem
          simp [called,World.onClose] at hmem

def plainStd : Std where
  trimSpace := id
  equalFold a b := a == b
  toLower := id
  decodeBase64 _ := some (List.replicate 16 0)
  parseURL _ := none
  pathMatch _ _ := none

def plainRequest : Request where
  proto := (1,1)
  method := "GET"
  host := "localhost"
  header name :=
    if name = "Connection" then ["Upgrade"] else if name = "Upgrade" then ["websocket"]
    else if name = "Sec-WebSocket-Version" then ["13"]
    else if name = "Sec-WebSocket-Key" then ["AAAAAAAAAAAAAAAAAAAAAA=="] else []

def oneTurn (commits : Bool) : Turn := ⟨"a",{commits := commits},["b"],fun _ => true⟩

def oneFrame (commits : Bool) : World where
  new := {}
  host := true
  start := {}
  accepted := true
  out := []
  upgrades := true
  writes _ := true
  reads := [.text (oneTurn commits),.closed]
  closeAnswered := true
  close := {}

theorem serve_lifecycle_frame : wroteOf ((Channel.mk "h" [] false).serveHTTP plainStd plainRequest
    (oneFrame true)) = ["b"] :=
  (serve_lifecycle ⟨"h",[],false⟩ plainStd plainRequest (oneFrame true)).2.2.2.2.2.1 (by decide +kernel)
    (by decide +kernel)

theorem commit_dump_drains : ¬∀ (ch : Channel) (std : Std) (r : Request) (world : World),
    ch.refuses std r = false → world.opened = true →
      ∃ reason code,callsOf (ch.serveHTTP std r world) = [.new,.open,.drain] ++
        (world.heard.flatMap fun turn =>
          if turn.step.failed turn.calls then [.message turn.text] else [.message turn.text,.drain]) ++
          if world.ended then [.close reason code] else [] := by
  intro h
  obtain ⟨reason,code,hcalls⟩ := h ⟨"h",[],false⟩ plainStd plainRequest (oneFrame false)
    (by decide +kernel) (by decide +kernel)
  have hmade : callsOf ((Channel.mk "h" [] false).serveHTTP plainStd plainRequest (oneFrame false)) =
      [.new,.open,.drain,.message "a",.drain,.close "closed by the client" 1000] := by decide +kernel
  have hsaid : [Call.new,.open,.drain,.message "a",.drain,.close "closed by the client" 1000] =
      [.new,.open,.drain,.message "a",.close reason code] := hmade.symm.trans hcalls
  cases hsaid

end connection

end OpenSteamgate.Apc
