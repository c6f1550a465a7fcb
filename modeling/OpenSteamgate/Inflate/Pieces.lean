import OpenSteamgate.Inflate.Agreement
import OpenSteamgate.Inflate.Cuts

namespace OpenSteamgate.Inflate

open Bits Relation

namespace Machine

variable {a b c : Machine}

theorem next_done (h : a.control.state = .done) : a.next = .more := by
  simp only [next,h]

end Machine

namespace Abap

open Machine

variable {z : Inflater} {y : Decoder} {a : Machine} {paused : Bool}

theorem feedStream_same (h : Same paused z y) (hf : z.Follows a) (data : List UInt8)
    (maxOut : Nat) : SameFed (z.feedStream data maxOut) (y.feed data maxOut) := by
  by_cases hs : z.state = .done
  · have hs' : y.state = .done := h.control.state.symm.trans hs
    have hz : z.feedStream data maxOut = .ok ({ z with unused := z.unused ++ data },[],false) :=
      if_pos hs
    have hy : y.feed data maxOut =
        .ok ({ y with paused := false,unused := y.unused ++ data },[]) := if_pos hs'
    have hfed := hf.streamed data maxOut
    rw [hz] at hfed
    rw [hz,hy]
    cases hfed with
    | waiting _ b d hr hf' hn ho =>
      exact .fed _ _ b [] false ⟨h.control,h.good,h.view,h.short,h.hist,
        congrArg (· ++ data) h.unused,rfl,h.hostless⟩ hf' fun hc => by cases hc
  · have hz : z.feedStream data maxOut = z.feed data maxOut := if_neg hs
    rw [hz]
    exact feed_same h hf hs data maxOut

def inflate (data : List UInt8) : Option (List UInt8) :=
  match Decoder.feed {} data 0 with
  | .error _ => none
  | .ok (y,out) => if y.state = .done then some out else none

theorem inflate_eq_some {data out : List UInt8} : inflate data = some out ↔
    ∃ c,ReflTransGen Next (Machine.start (ofBytes data)) c ∧ c.control.state = .done ∧
      c.out = out := by
  have hfed := Inflater.start_follows.streamed data 0
  have hsame := feedStream_same Registry.start_same Inflater.start_follows data 0
  rw [inflate]
  generalize Inflater.feedStream {} data 0 = r at hfed hsame
  generalize Decoder.feed {} data 0 = r' at hsame ⊢
  cases hfed with
  | waiting z b d hr hf hn ho =>
    have hd : b.out = d := ho
    cases hsame with
    | fed _ y' a' _ _ h' _ _ =>
      have hstate : y'.state = b.control.state :=
        h'.control.state.symm.trans (congrArg Inflate.Control.state hf.control)
      constructor
      · intro h
        by_cases hy : y'.state = .done
        · simp only [if_pos hy,Option.some.injEq,List.nil_append] at h
          exact ⟨b,hr,hstate.symm.trans hy,hd.trans h⟩
        · simp [hy] at h
      · rintro ⟨c,hrc,hc,hco⟩
        obtain rfl := Inflater.same_end hr hrc (Inflater.stuck_of_more hn)
          (Inflater.stuck_of_more (next_done hc))
        simp only [if_pos (hstate.trans hc),List.nil_append,← hd,hco]
  | paused z b d hr hf hs hpos hle ho => exact absurd hpos (lt_irrefl 0)
  | failed e b d hr hn ho =>
    cases hsame with
    | corrupt _ _ _ =>
      refine ⟨fun h => (by cases h),?_⟩
      rintro ⟨c,hrc,hc,-⟩
      obtain rfl := Inflater.same_end hr hrc (Inflater.stuck_of_fail hn)
        (Inflater.stuck_of_more (next_done hc))
      exact absurd ((next_done hc).symm.trans hn) (by simp)

structure Gave (y : Decoder) (fed out : List UInt8) (z : Inflater) (a : Machine) : Prop where
  same : Same y.paused z y
  follows : z.Follows a
  reach : ReflTransGen Next (Machine.start (ofBytes fed)) a
  output : a.out = out
  waits : y.paused = false → a.next = .more

variable {fed out data : List UInt8}

theorem start_gave : Gave {} [] [] {} (Machine.start []) :=
  ⟨Registry.start_same,Inflater.start_follows,.refl,rfl,fun _ => Inflater.start_more⟩

theorem reach_more (h : ReflTransGen Next (Machine.start (ofBytes fed)) a) (data : List UInt8) :
    ReflTransGen Next (Machine.start (ofBytes (fed ++ data))) (a.extend (ofBytes data)) := by
  have hr := reach_extend (Inflater.dvd_ofBytes data) h
  rwa [ofBytes_append]

theorem Gave.state_eq (h : Gave y fed out z a) : y.state = a.control.state :=
  h.same.control.state.symm.trans (congrArg Inflate.Control.state h.follows.control)

theorem Gave.inflate_eq (h : Gave y fed out z a) (hp : y.paused = false) :
    inflate fed = if y.state = .done then some out else none := by
  by_cases hy : y.state = .done
  · rw [if_pos hy]
    exact (inflate_eq_some).mpr ⟨a,h.reach,h.state_eq.symm.trans hy,h.output⟩
  · rw [if_neg hy,Option.eq_none_iff_forall_ne_some]
    intro whole hw
    obtain ⟨c,hrc,hc,-⟩ := (inflate_eq_some).mp hw
    obtain rfl := Inflater.same_end h.reach hrc (Inflater.stuck_of_more (h.waits hp))
      (Inflater.stuck_of_more (next_done hc))
    exact hy (h.state_eq.trans hc)

theorem Gave.isPrefix (h : Gave y fed out z a) {more whole : List UInt8}
    (hw : inflate (fed ++ more) = some whole) : out <+: whole := by
  obtain ⟨c,hrc,hc,hco⟩ := (inflate_eq_some).mp hw
  have hreach := reach_stuck hrc (reach_more h.reach more) (Inflater.stuck_of_more (next_done hc))
  have hpre : (a.extend (ofBytes more)).out <+: c.out := reach_out hreach
  rw [hco] at hpre
  rw [← h.output]
  exact hpre

inductive Piece (fed out data : List UInt8) (maxOut : Nat) :
    Except String (Decoder × List UInt8) → Prop
  | ok (y : Decoder) (raw : List UInt8) (z : Inflater) (a : Machine) :
      Gave y (fed ++ data) (out ++ raw) z a → (y.paused = true → 0 < maxOut ∧ maxOut ≤ raw.length) →
      Piece fed out data maxOut (.ok (y,raw))
  | corrupt (e : String) : (∀ more, inflate (fed ++ data ++ more) = none) →
      Piece fed out data maxOut (.error e)

theorem Gave.feed (h : Gave y fed out z a) (data : List UInt8) (maxOut : Nat) :
    Piece fed out data maxOut (y.feed data maxOut) := by
  have hfed := h.follows.streamed data maxOut
  have hsame := feedStream_same h.same h.follows data maxOut
  have hreach := reach_more h.reach data
  have hout : (a.extend (ofBytes data)).out = out := h.output
  generalize z.feedStream data maxOut = r at hfed hsame
  generalize y.feed data maxOut = r' at hsame ⊢
  cases hfed with
  | waiting z' b d hr hf hn ho =>
    cases hsame with
    | fed _ y' a' _ _ h' _ _ =>
      have hp : y'.paused = false := h'.pausedIs
      refine .ok y' d z' b ⟨?_,hf,hreach.trans hr,ho.trans (congrArg (· ++ d) hout),fun _ => hn⟩ ?_
      · rw [hp]
        exact h'
      · rw [hp]
        exact fun hc => by cases hc
  | paused z' b d hr hf hs hpos hle ho =>
    cases hsame with
    | fed _ y' a' _ _ h' _ _ =>
      have hp : y'.paused = true := h'.pausedIs
      refine .ok y' d z' b ⟨?_,hf,hreach.trans hr,ho.trans (congrArg (· ++ d) hout),?_⟩ ?_
      · rw [hp]
        exact h'
      · rw [hp]
        exact fun hc => by cases hc
      · exact fun _ => ⟨hpos,by simpa using hle⟩
  | failed e b d hr hn ho =>
    cases hsame with
    | corrupt _ _ _ =>
      refine .corrupt e fun more => Option.eq_none_iff_forall_ne_some.mpr fun whole hw => ?_
      obtain ⟨c,hrc,hc,-⟩ := (inflate_eq_some).mp hw
      have hfail : (b.extend (ofBytes more)).next = .fail e := Inflater.next_extend_fail hn
      obtain rfl := Inflater.same_end (reach_more (hreach.trans hr) more) hrc
        (Inflater.stuck_of_fail hfail) (Inflater.stuck_of_more (next_done hc))
      exact absurd ((next_done hc).symm.trans hfail) (by simp)

end Abap

end OpenSteamgate.Inflate
