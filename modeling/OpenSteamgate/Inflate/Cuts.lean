import OpenSteamgate.Inflate.Refinement

namespace OpenSteamgate.Inflate

open Bits Relation Machine

namespace Inflater

def feedAll (z : Inflater) (paused : Bool) : List (List UInt8 × Nat) → Fed
  | [] => .ok (z,[],paused)
  | (data,maxOut) :: pieces =>
      match z.feedStream data maxOut with
      | .error (e,_) => .error (e,[])
      | .ok (z',out,paused) =>
          match feedAll z' paused pieces with
          | .error (e,before) => .error (e,out ++ before)
          | .ok (z'',out',paused) => .ok (z'',out ++ out',paused)

def whole (pieces : List (List UInt8 × Nat)) : List UInt8 := pieces.flatMap Prod.fst

def decoded : Fed → List UInt8
  | .ok (_,out,_) => out
  | .error (_,out) => out

def CutOf (uncut : Fed) : Fed → Prop
  | .error (e,before) => ∃ out, uncut = .error (e,out) ∧ before <+: out
  | .ok (z,out,paused) => out <+: decoded uncut ∧ (paused = false →
      ∃ z', uncut = .ok (z',out,false) ∧ z'.state = z.state ∧ z'.unused = z.unused)

variable {z : Inflater} {a b : Machine}

theorem Follows.streamed (h : Follows z a) (data : List UInt8) (maxOut : Nat) :
    Answers (a.extend (ofBytes data)) maxOut [] (z.feedStream data maxOut) := by
  simp only [feedStream]
  by_cases hs : z.state = .done
  · rw [if_pos hs]
    have hc : a.control.state = .done := by rw [← h.control]; exact hs
    have hf : Follows { z with unused := z.unused ++ data } (a.extend (ofBytes data)) :=
      ⟨h.control,h.good,aligned_of_ne (by rw [extend,hc]; decide),fun hn => (hn hs).elim,
        fun hn => (hn hs).elim,fun _ => by rw [extend,ofBytes_append,h.rest hs],h.hist⟩
    exact hf.answers_done maxOut [] (by simp only [next,extend,hc])
  · rw [if_neg hs]
    exact h.fed hs data maxOut

inductive Reached (a : Machine) (bits : List Bool) : Fed → Prop
  | ok (z' : Inflater) (b : Machine) (out : List UInt8) (paused : Bool) :
      ReflTransGen Next (a.extend bits) b → Follows z' b → b.out = a.out ++ out →
      (paused = false → b.next = .more) → Reached a bits (.ok (z',out,paused))
  | failed (e : String) (b : Machine) (before d : List UInt8) :
      ReflTransGen Next (a.extend bits) b → b.next = .fail e → b.out = a.out ++ before ++ d →
      Reached a bits (.error (e,before))

theorem extend_extend (a : Machine) (xs ys : List Bool) :
    (a.extend xs).extend ys = a.extend (xs ++ ys) := by
  simp only [extend,List.append_assoc]

theorem extend_nil (a : Machine) : a.extend [] = a := by
  simp only [extend,List.append_nil]

theorem dvd_ofBytes (bytes : List UInt8) : 8 ∣ (ofBytes bytes).length := by
  rw [length_ofBytes]
  exact Dvd.intro _ rfl

theorem next_extend_fail {bytes : List UInt8} {e : String} (h : a.next = .fail e) :
    (a.extend (ofBytes bytes)).next = .fail e := by
  rw [next_extend (dvd_ofBytes bytes) (by rw [h]; exact fun hc => by cases hc),h]
  rfl

theorem Follows.fedAll (h : Follows z a) {paused : Bool} (hstuck : paused = false → a.next = .more)
    (pieces : List (List UInt8 × Nat)) :
    Reached a (ofBytes (whole pieces)) (feedAll z paused pieces) := by
  induction pieces generalizing z a paused with
  | nil => exact .ok z a [] paused (by rw [whole,List.flatMap_nil,ofBytes_nil,extend_nil]) h (by simp) hstuck
  | cons piece pieces ih =>
    obtain ⟨data,maxOut⟩ := piece
    have ha := h.streamed data maxOut
    have hsplit : a.extend (ofBytes (whole ((data,maxOut) :: pieces))) =
        (a.extend (ofBytes data)).extend (ofBytes (whole pieces)) := by
      rw [extend_extend,← ofBytes_append]
      rfl
    have hnext : ∀ (z' : Inflater) (b : Machine) (d : List UInt8) (paused' : Bool),
        ReflTransGen Next (a.extend (ofBytes data)) b → Follows z' b → b.out = a.out ++ d →
        (paused' = false → b.next = .more) →
        Reached a (ofBytes (whole ((data,maxOut) :: pieces)))
          (match feedAll z' paused' pieces with
            | .error (e,before) => .error (e,d ++ before)
            | .ok (z'',out',paused) => .ok (z'',d ++ out',paused)) := by
      intro z' b d paused' hr hf ho hn
      have hi := ih hf hn
      have hr' := reach_extend (dvd_ofBytes (whole pieces)) hr
      rw [← hsplit] at hr'
      generalize feedAll z' paused' pieces = r at hi ⊢
      cases hi with
      | ok z'' c out paused'' hrc hfc hoc hnc =>
        exact .ok z'' c _ paused'' (hr'.trans hrc) hfc (by rw [hoc,ho,List.append_assoc]) hnc
      | failed e c before d' hrc hnc hoc =>
        exact .failed e c _ d' (hr'.trans hrc) hnc (by rw [hoc,ho]; simp only [List.append_assoc])
    rw [feedAll]
    generalize z.feedStream data maxOut = r at ha
    cases ha with
    | waiting z' b d hr hf hn ho => exact hnext z' b d false hr hf ho fun _ => hn
    | paused z' b d hr hf _ _ _ ho => exact hnext z' b d true hr hf ho fun hc => by cases hc
    | failed e b d hr hn ho =>
      refine .failed e (b.extend (ofBytes (whole pieces))) [] d ?_ (next_extend_fail hn)
        (by rw [List.append_nil]; exact ho)
      rw [hsplit]
      exact reach_extend (dvd_ofBytes _) hr

theorem stuck_of_more (h : a.next = .more) : a.Stuck := fun b hb => by
  have := h.symm.trans hb
  cases this

theorem stuck_of_fail {e : String} (h : a.next = .fail e) : a.Stuck := fun b hb => by
  have := h.symm.trans hb
  cases this

theorem Follows.unused_eq {z' : Inflater} (h : Follows z a) (h' : Follows z' a) :
    z'.state = z.state ∧ z'.unused = z.unused := by
  have hs : z'.state = z.state := congrArg Control.state (h'.control.trans h.control.symm)
  refine ⟨hs,?_⟩
  by_cases hd : z.state = .done
  · exact ofBytes_injective ((h'.rest (hs.trans hd)).trans (h.rest hd).symm)
  · rw [h.unused hd,h'.unused (hs ▸ hd)]

theorem start_more : (Machine.start []).next = .more := rfl

theorem same_end (hb : ReflTransGen Next a b) {c : Machine} (hc : ReflTransGen Next a c)
    (hsb : b.Stuck) (hsc : c.Stuck) : b = c := by
  rcases ReflTransGen.cases_head (reach_stuck hc hb hsc) with he | ⟨d,hd,-⟩
  · exact he
  · exact (hsb d hd).elim

theorem cut_independent (pieces : List (List UInt8 × Nat)) :
    CutOf (feedStream {} (whole pieces) 0) (feedAll {} false pieces) := by
  have hcut : Reached _ _ (feedAll {} false pieces) :=
    start_follows.fedAll (fun _ => start_more) pieces
  have huncut := start_follows.streamed (whole pieces) 0
  generalize feedAll {} false pieces = r at hcut
  generalize feedStream {} (whole pieces) 0 = u at huncut
  cases hcut with
  | ok z b out paused hr hf ho hn =>
    have hb : b.out = out := ho
    cases huncut with
    | waiting z' c d hrc hfc hnc hoc =>
      have hc : c.out = d := hoc
      refine ⟨?_,fun hp => ?_⟩
      · have hpre := reach_out (reach_stuck hrc hr (stuck_of_more hnc))
        rwa [hb,hc] at hpre
      · obtain rfl := same_end hr hrc (stuck_of_more (hn hp)) (stuck_of_more hnc)
        rw [← hb,← hc]
        exact ⟨z',rfl,hf.unused_eq hfc⟩
    | paused z' c d hrc hfc hs hpos hle hoc => exact absurd hpos (lt_irrefl 0)
    | failed e c d hrc hnc hoc =>
      have hc : c.out = d := hoc
      refine ⟨?_,fun hp => ?_⟩
      · have hpre := reach_out (reach_stuck hrc hr (stuck_of_fail hnc))
        rwa [hb,hc] at hpre
      · obtain rfl := same_end hr hrc (stuck_of_more (hn hp)) (stuck_of_fail hnc)
        exact absurd ((hn hp).symm.trans hnc) (by simp)
  | failed e b before d hr hn ho =>
    have hb : b.out = before ++ d := ho
    cases huncut with
    | waiting z' c d' hrc hfc hnc hoc =>
      obtain rfl := same_end hr hrc (stuck_of_fail hn) (stuck_of_more hnc)
      exact absurd (hnc.symm.trans hn) (by simp)
    | paused z' c d' hrc hfc hs hpos hle hoc => exact absurd hpos (lt_irrefl 0)
    | failed e' c d' hrc hnc hoc =>
      obtain rfl := same_end hr hrc (stuck_of_fail hn) (stuck_of_fail hnc)
      have hc : b.out = d' := hoc
      have he := hn.symm.trans hnc
      simp only [Outcome.fail.injEq] at he
      subst he
      exact ⟨_,rfl,by rw [List.nil_append,← hc,hb]; exact List.prefix_append _ _⟩

end Inflater

end OpenSteamgate.Inflate
