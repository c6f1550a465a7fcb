import OpenSteamgate.Inflate.Hosts

namespace OpenSteamgate.Inflate

open Bits Machine

structure Registry where
  m : AList (fun _ : Int32 => Inflater) := ∅
  seq : Int32 := 0

namespace Registry

def openHandle (r : Registry) : Registry × Int32 :=
  let seq := r.seq + 1
  (⟨r.m.insert seq {},seq⟩,seq)

def feed (r : Registry) (handle : Int32) (data : List UInt8) (maxOut : Nat) :
    Registry × List UInt8 × Int × List UInt8 × String :=
  match r.m.lookup handle with
  | none => (r,[],0,[],"inflate handle is gone")
  | some z =>
      match z.feed data maxOut with
      | .error (e,_) => ({ r with m := r.m.erase handle },[],0,[],e)
      | .ok (z,out,paused) =>
          if z.state = .done then ({ r with m := r.m.erase handle },out,2,z.unused,"")
          else ({ r with m := r.m.insert handle z },out,if paused then 1 else 0,[],"")

end Registry

inductive Answer where
  | corrupt (reason : String)
  | fed (raw : List UInt8) (paused done : Bool) (unused : List UInt8)

def Answer.last : Answer → Bool
  | .corrupt _ => true
  | .fed _ _ done _ => done

def Registry.answer (out : List UInt8 × Int × List UInt8 × String) : Answer :=
  if out.2.2.2 ≠ "" then .corrupt out.2.2.2
  else .fed out.1 (out.2.1 == 1) (out.2.1 == 2) out.2.2.1

def Registry.answers (r : Registry) (handle : Int32) : List (List UInt8 × Nat) → List Answer
  | [] => []
  | (data,maxOut) :: calls =>
      let fed := r.feed handle data maxOut
      if (answer fed.2).last then [answer fed.2]
      else answer fed.2 :: fed.1.answers handle calls

namespace Abap

namespace Decoder

def answers (y : Decoder) : List (List UInt8 × Nat) → List Answer
  | [] => []
  | (data,maxOut) :: calls =>
      match y.feed data maxOut with
      | .error reason => [.corrupt reason]
      | .ok (y,raw) =>
          let answer := Answer.fed raw y.isPaused y.isDone y.getUnused
          if answer.last then [answer] else answer :: y.answers calls

end Decoder

structure Same (paused : Bool) (z : Inflater) (y : Decoder) : Prop where
  control : SameControl z.toControl y.toControl
  good : Decoder.window.good y
  view : z.state ≠ .done → Inflater.window.view z = Decoder.window.view y
  short : y.bitcnt < 8
  hist : z.hist = y.hist
  unused : z.unused = y.unused
  pausedIs : y.paused = paused
  hostless : y.host = 0

variable {z z' : Inflater} {y y' : Decoder} {a : Machine} {paused : Bool}

theorem rest_fields (h : Decoder.window.rest y' = Decoder.window.rest y) :
    y' = { y with pos := y'.pos,bitbuf := y'.bitbuf,bitcnt := y'.bitcnt } := by
  obtain ⟨c,input,inlen,pos,bitbuf,bitcnt,hist,unused,paused,room,opened,host⟩ := y
  obtain ⟨c',input',inlen',pos',bitbuf',bitcnt',hist',unused',paused',room',opened',host'⟩ := y'
  simp only [Decoder.window,Decoder.mk.injEq,true_and] at h
  obtain ⟨rfl,rfl,rfl,rfl,rfl,rfl,rfl,rfl,rfl⟩ := h
  rfl

theorem Same.feeding (h : Same paused z y) (hf : z.Follows a) (hs : z.state ≠ .done) :
    Feeding z y 0 z y :=
  ⟨rfl,rfl,hf.good,h.good,h.view hs,Nat.zero_le _,Nat.zero_le _,h.short⟩

theorem Same.after (h : Same paused z y) (hf : Feeding z y 0 z' y') : Same paused z' y' := by
  have hr := hf.rest
  simp only [Inflater.window,Prod.mk.injEq] at hr
  have hy := rest_fields hf.rest'
  have hc : y'.toControl = y.toControl := by rw [hy]
  refine ⟨?_,hf.good',fun _ => hf.view,hf.short,?_,?_,?_,?_⟩
  · rw [hr.1,hc]
    exact h.control
  · rw [hr.2.2.1,h.hist,hy]
  · rw [hr.2.2.2.1,h.unused,hy]
  · rw [hy]
    exact h.pausedIs
  · rw [hy]
    exact h.hostless

theorem control_lock {f : Inflate.Control → Inflate.Control} {g : Control → Control}
    (h : Same paused z y) :
    Lockstep Reason (Idle z y) (fun z' y' => Commits f g ∧ Feeding z y 0 z' y') (Inflater.control f)
      (Decoder.control g) fun _ _ => Same paused := by
  rintro z' y' ⟨hc,hf⟩
  have h' := h.after hf
  exact .ok () () _ _ ⟨hc _ _ h'.control,h'.good,fun _ => hf.view,h'.short,h'.hist,h'.unused,
    h'.pausedIs,h'.hostless⟩

theorem endBlock_same (h : Same paused z y) (hz : Inflater.window.good z) (hs : z.state ≠ .done)
    (hu : z.unused = []) : Same paused z.endBlock y.endBlock := by
  have hview := h.view hs
  have hshort := h.short
  have hmod : (Inflater.window.view z).length % 8 = y.bitcnt := by
    rw [hview,Decoder.length_view h.good]
    omega
  have hkeep : Inflater.Keeps z.hist z.hist := ⟨List.suffix_rfl,fun _ => rfl⟩
  obtain ⟨hf,hhist⟩ := Inflater.endBlock_follows
    (a := ⟨z.toControl,z.hist,Inflater.window.view z⟩) hz rfl rfl hu hkeep
  have hfinal := h.control.final
  by_cases hfin : y.final = false
  · have hz' : z.endBlock = { z with state := .header } := if_pos (hfinal.trans hfin)
    have hy' : y.endBlock = { y with state := .header } := if_pos hfin
    rw [hz',hy']
    exact ⟨.other rfl hfinal h.control.storedLeft (by simp),h.good,fun _ => hview,hshort,h.hist,
      h.unused,h.pausedIs,h.hostless⟩
  · have hfin' : ¬z.final = false := fun hc => hfin (hfinal ▸ hc)
    have hdone : z.endBlock.state = .done := by
      have hc := congrArg Inflate.Control.state hf.control
      rw [Machine.endBlock,if_neg hfin'] at hc
      exact hc
    obtain ⟨hg',hv'⟩ := Decoder.shift_spec (y := { y with state := .done }) (n := y.bitcnt % 8)
      (by omega) h.good (Nat.mod_le _ _)
    have hzero : (({ y with state := .done } : Decoder).shift (y.bitcnt % 8)).bitcnt = 0 := by
      change y.bitcnt - y.bitcnt % 8 = 0
      omega
    have hy' : y.endBlock = { ({ y with state := .done } : Decoder).shift (y.bitcnt % 8) with
        unused := y.unused ++ y.input.drop y.pos
        pos := y.inlen } := by
      rw [Decoder.endBlock,if_neg hfin]
      simp only [hzero,Nat.zero_div,Decoder.heldBytes,List.append_nil]
      rfl
    have hrest := hf.rest hdone
    have hleft : ofBytes z.endBlock.unused = ofBytes (y.input.drop y.pos) := by
      have hdrop : (Inflater.window.view z).drop y.bitcnt = ofBytes (y.input.drop y.pos) := by
        rw [hview]
        exact List.drop_left' (length_lsb _ _)
      rw [hrest,Machine.endBlock,if_neg hfin',← hdrop,← hmod]
    have hctl := hf.control
    rw [Machine.endBlock,if_neg hfin'] at hctl
    have huy : y.unused = [] := h.unused.symm.trans hu
    rw [hy']
    refine ⟨.other hdone ?_ ?_ (fun hc => by cases hc),⟨hg'.1,le_refl _,h.good.2.2⟩,
      fun hn => (hn hdone).elim,?_,hhist.trans h.hist,?_,h.pausedIs,h.hostless⟩
    · exact (congrArg Inflate.Control.final hctl).trans hfinal
    · exact (congrArg Inflate.Control.storedLeft hctl).trans h.control.storedLeft
    · exact hzero.trans_lt (by omega)
    · simp only [huy,List.nil_append]
      exact ofBytes_injective hleft

theorem grown_same (h : Same paused z y) (d : List UInt8) :
    Same paused { z with hist := z.hist ++ d } { y with hist := y.hist ++ d } :=
  ⟨h.control,h.good,h.view,h.short,by simp only [h.hist],h.unused,h.pausedIs,h.hostless⟩

theorem emit_lock (h : Same paused z y) (hs : z.state ≠ .done) (hu : z.unused = []) (sym : Symbol)
    (hpos : ∀ length distance,sym = .copy length distance → 0 < distance)
    (hf : Feeding z y 0 z' y') :
    Meets Reason (Idle z y) (fun _ _ => Same paused) (Inflater.emit sym z') (Decoder.emit sym y') := by
  have h' := h.after hf
  have hr := hf.rest
  simp only [Inflater.window,Prod.mk.injEq] at hr
  have hs' : z'.state ≠ .done := by
    rw [hr.1]
    exact hs
  cases sym with
  | literal b => exact .ok () () _ _ (grown_same h' [b])
  | endOfBlock => exact .ok () () _ _ (endBlock_same h' hf.good hs' (hr.2.2.2.1.trans hu))
  | copy length distance =>
    have hlen : z'.hist.length = y'.hist.length := by rw [h'.hist]
    simp only [Inflater.emit,Decoder.emit]
    by_cases hfar : z'.hist.length < distance
    · have hcopy : Decoder.copy y'.hist length distance = .error "invalid distance too far back" := by
        simp only [Decoder.copy]
        rw [if_pos (hlen ▸ hfar)]
      rw [if_pos hfar,hcopy]
      exact .fail _ (by decide)
    · rw [if_neg hfar,copy_same (hpos length distance rfl) (hlen ▸ not_lt.mp hfar),h'.hist]
      exact .ok () () _ _ ⟨h'.control,h'.good,h'.view,h'.short,rfl,h'.unused,h'.pausedIs,h'.hostless⟩

theorem stored_lock (h : Same paused z y) (hf : z.Follows a) (hst : z.state = .stored)
    (hroom : y.room = z.room) :
    Meets Reason (Idle z y) (fun _ _ => Same paused) (Inflater.stepStored z) (Decoder.stepStored y) := by
  have hne : z.state ≠ .done := by rw [hst]; exact fun hc => by cases hc
  have hview := h.view hne
  have hshort := h.short
  have hgood := h.good
  have hlen := congrArg List.length hview
  rw [Inflater.length_view,Decoder.length_view hgood] at hlen
  have hmod : z.bitcnt % 8 = 0 ∧ y.bitcnt = 0 := by
    have hal := hf.aligned ((congrArg Inflate.Control.state hf.control).symm.trans hst)
    rw [← hf.bits hne,Inflater.length_view] at hal
    omega
  have havail : z.input.length - z.pos + z.bitcnt / 8 = y.inlen - y.pos := by omega
  have hleft : z.storedLeft = y.storedLeft := h.control.storedLeft
  by_cases hzero : z.storedLeft = 0
  · have hz : Inflater.stepStored z = .ok (some (),z.endBlock) := by
      simp only [Inflater.stepStored,if_pos hzero]
    have hy : Decoder.stepStored y = .ok (some (),y.endBlock) := by
      simp only [Decoder.stepStored,if_pos (hleft ▸ hzero)]
    rw [hz,hy]
    exact .ok () () _ _ (endBlock_same h hf.good hne (hf.unused hne))
  by_cases hnone : z.input.length - z.pos + z.bitcnt / 8 = 0
  · rw [Inflater.stepStored_short hzero hnone]
    have hy : Decoder.stepStored y = .ok (none,y) := by
      have hnothing : ¬(0 < y.room ∧ y.room < ((0 : Nat) : Int)) := fun hc => by
        have := hc.1.trans hc.2
        omega
      simp only [Decoder.stepStored,if_neg (hleft ▸ hzero),← havail,hnone,if_neg (Nat.not_lt_zero _),
        if_neg hnothing,if_true]
    rw [hy]
    exact .more z y ⟨rfl,rfl⟩
  obtain ⟨data,z',hstep,hdata,hg,hsplit,hr⟩ := Inflater.stepStored_spec hf.good hmod.1 hzero hnone rfl
  rw [havail,hleft] at hdata
  have hy : Decoder.stepStored y = .ok (some (),{ y with
        hist := y.hist ++ (y.input.drop y.pos).take data.length
        pos := y.pos + data.length
        storedLeft := y.storedLeft - data.length }) := by
    have htake : (if (0 : Int) < y.room ∧ y.room < ↑(if y.storedLeft < y.inlen - y.pos then y.storedLeft
        else y.inlen - y.pos) then y.room.toNat
        else if y.storedLeft < y.inlen - y.pos then y.storedLeft else y.inlen - y.pos) =
          data.length := by
      rw [hdata,hroom]
      split_ifs <;> omega
    have hpos : data.length ≠ 0 := by
      rw [hdata]
      split_ifs <;> omega
    simp only [Decoder.stepStored,if_neg (hleft ▸ hzero),htake,if_neg hpos]
  rw [hstep,hy]
  have hdle : data.length ≤ y.inlen - y.pos := by
    rw [hdata]
    exact (Nat.min_le_left _ _).trans (Nat.min_le_left _ _)
  have hbytes : ofBytes (y.input.drop y.pos) = ofBytes data ++ Inflater.window.view z' := by
    rw [← hsplit,hview]
    simp only [Decoder.window,hmod.2,lsb,List.nil_append]
  rw [← List.take_append_drop data.length (y.input.drop y.pos),ofBytes_append] at hbytes
  obtain ⟨hd,hv⟩ := List.append_inj hbytes (by
    rw [length_ofBytes,length_ofBytes,List.length_take,List.length_drop,← hgood.2.2,Nat.min_eq_left hdle])
  have hr' := hr
  simp only [Inflater.window,Prod.mk.injEq] at hr'
  refine .ok () () z' _ ⟨?_,⟨hgood.1,?_,hgood.2.2⟩,fun _ => ?_,h.short,?_,?_,h.pausedIs,h.hostless⟩
  · rw [hr'.1]
    refine .other h.control.state h.control.final ?_ ?_
    · simp only [hleft,hdata,havail]
    · exact fun hc => by rw [h.control.state,hc] at hst; cases hst
  · have := hgood.2.1
    simp only
    omega
  · rw [← hv]
    simp only [Decoder.window,hmod.2,lsb,List.nil_append,List.drop_drop]
  · rw [hr'.2.2.1,h.hist,ofBytes_injective hd]
  · rw [hr'.2.2.2.1,h.unused]

theorem step_lock (h : Same paused z y) (hf : z.Follows a) (hs : z.state ≠ .done)
    (hroom : y.room = z.room) :
    Meets Reason (Idle z y) (fun _ _ => Same paused) z.step y.step := by
  have hstate : z.state = y.state := h.control.state
  have hfeed := h.feeding hf hs
  cases hst : z.state with
  | header =>
    simp only [Inflater.step,Decoder.step,← hstate,hst]
    exact header_lock.bind (fun _ _ => control_lock h) z y hfeed
  | storedLen =>
    simp only [Inflater.step,Decoder.step,← hstate,hst]
    exact storedLen_lock.bind (fun _ _ => control_lock h) z y hfeed
  | stored =>
    simp only [Inflater.step,Decoder.step,← hstate,hst]
    exact stored_lock h hf hst hroom
  | table =>
    simp only [Inflater.step,Decoder.step,← hstate,hst]
    exact table_lock.bind (fun _ _ => control_lock h) z y hfeed
  | symbols =>
    have hsym : y.state = .symbols := hstate ▸ hst
    simp only [Inflater.step,Decoder.step,← hstate,hst]
    refine Lockstep.bind (symbol_lock (h.control.len hsym) (h.control.dist hsym)) ?_ z y hfeed
    rintro sym _ z' y' ⟨rfl,hpos,hf'⟩
    exact emit_lock h hs (hf.unused hs) sym hpos hf'
  | done => exact (hs hst).elim

inductive SameFed : Inflater.Fed → Except String (Decoder × List UInt8) → Prop
  | corrupt (e : String) (out : List UInt8) : Reason e → SameFed (.error (e,out)) (.error e)
  | fed (z : Inflater) (y : Decoder) (a : Machine) (out : List UInt8) (paused : Bool) :
      Same paused z y → z.Follows a → (paused = true → z.state ≠ .done) → SameFed (.ok (z,out,paused)) (.ok (y,out))

theorem feedLoop_same (maxOut k : Nat) (h : Same false z y) (hf : z.Follows a) {start : Nat}
    (hstart : start ≤ z.hist.length) {emitted : List UInt8} {pieces : List (List UInt8)}
    (hpieces : pieces.flatten = emitted) :
    SameFed (Inflater.feedLoop maxOut k z start emitted)
      (Decoder.feedLoop maxOut k y start emitted.length pieces) := by
  induction k generalizing z y a start emitted pieces with
  | zero =>
    simp only [Inflater.feedLoop,Decoder.feedLoop,List.flatten_append,hpieces,List.flatten_singleton,h.hist]
    exact .fed z y a _ false h hf (fun hc => by cases hc)
  | succ k ih =>
    rw [Inflater.feedLoop,Decoder.feedLoop]
    have hstate : z.state = y.state := h.control.state
    have hhist := h.hist
    by_cases hdone : z.state = .done
    · have hdone' : y.state = .done := by rw [← hstate]; exact hdone
      rw [if_pos hdone,if_pos hdone']
      simp only [List.flatten_append,hpieces,List.flatten_singleton,hhist]
      exact .fed z y a _ false h hf (fun hc => by cases hc)
    have hdone' : ¬y.state = .done := by rw [← hstate]; exact hdone
    rw [if_neg hdone,if_neg hdone']
    simp only
    have hlen : z.hist.length = y.hist.length := by rw [hhist]
    generalize hroom : maxOut + start - emitted.length - z.hist.length = room
    generalize hroom' : (if 0 < maxOut then
      (maxOut : Int) - emitted.length - y.hist.length + start else 0) = room'
    by_cases hpause : 0 < maxOut ∧ room = 0
    · have hpause' : 0 < maxOut ∧ room' ≤ 0 := by
        rw [if_pos hpause.1] at hroom'
        omega
      rw [if_pos hpause,if_pos hpause']
      simp only [List.flatten_append,hpieces,List.flatten_singleton,hhist]
      have hp : Same true z { y with room := room',paused := true } :=
        ⟨h.control,h.good,h.view,h.short,hhist,h.unused,rfl,h.hostless⟩
      exact .fed z _ a _ true hp hf fun _ => hdone
    have hpause' : ¬(0 < maxOut ∧ room' ≤ 0) := by
      rintro ⟨hpos,hle⟩
      rw [if_pos hpos] at hroom'
      omega
    rw [if_neg hpause,if_neg hpause']
    generalize hz₀ : { z with room := if 0 < maxOut then room else 0 } = z₀
    generalize hy₀ : { y with room := room' } = y₀
    have hf₀ : z₀.Follows a := by
      rw [← hz₀]
      exact ⟨hf.control,hf.good,hf.aligned,hf.bits,hf.unused,hf.rest,hf.hist⟩
    have h₀ : Same false z₀ y₀ := by
      rw [← hz₀,← hy₀]
      exact ⟨h.control,h.good,h.view,h.short,hhist,h.unused,h.pausedIs,h.hostless⟩
    have hd₀ : z₀.state ≠ .done := by rw [← hz₀]; exact hdone
    have hr₀ : y₀.room = z₀.room := by
      rw [← hz₀,← hy₀,← hroom']
      simp only
      split_ifs <;> omega
    have hlock := step_lock h₀ hf₀ hd₀ hr₀
    have htracks := Inflater.step_tracks hf₀ hd₀
    have hhist₀ : z₀.hist = z.hist := by rw [← hz₀]
    rw [← hhist₀] at hstart
    generalize z₀.step = r at hlock htracks
    generalize y₀.step = r' at hlock
    cases hlock with
    | more z' y' hidle =>
      have hrestore : { z' with pos := z.pos,bitbuf := z.bitbuf,bitcnt := z.bitcnt } = z₀ := by
        subst hz₀
        exact Inflater.restore_eq hidle.1
      have hy' := rest_fields hidle.2
      have hrestore' : { y' with pos := y.pos,bitbuf := y.bitbuf,bitcnt := y.bitcnt } = y₀ := by
        rw [hy',← hy₀]
      have hz' : z'.hist = z₀.hist := by rw [← hrestore]
      have hy'' : y'.hist = y₀.hist := by rw [← hrestore']
      change SameFed (Except.ok ({ z' with pos := z.pos,bitbuf := z.bitbuf,bitcnt := z.bitcnt },
        emitted ++ z'.hist.drop start,false)) (Except.ok
          ({ y' with pos := y.pos,bitbuf := y.bitbuf,bitcnt := y.bitcnt },
            (pieces ++ [y'.hist.drop start]).flatten))
      rw [hrestore,hrestore',hz',hy'',h₀.hist,List.flatten_append,hpieces,List.flatten_singleton]
      exact .fed z₀ y₀ a _ false h₀ hf₀ fun _ => hd₀
    | fail e he => exact .corrupt e _ he
    | ok _ _ z' y' h' =>
      cases htracks with
      | ok _ b d hab hf' hgrow hout =>
        have hlen' : z'.hist.length = y'.hist.length := by rw [h'.hist]
        have hle : start ≤ z'.hist.length := by
          rw [hgrow,List.length_append]
          omega
        simp only
        by_cases htrim : 2 * inflWindow < z'.hist.length
        · have htrim' : 2 * cWindow < y'.hist.length := hlen' ▸ htrim
          have hw : cWindow = inflWindow := rfl
          rw [if_pos htrim,if_pos htrim',hw,← hlen']
          generalize hcutlen : z'.hist.length - inflWindow = cut
          have hft : Inflater.Follows { z' with hist := z'.hist.drop cut } b :=
            ⟨hf'.control,hf'.good,hf'.aligned,hf'.bits,hf'.unused,hf'.rest,hf'.hist.trim (by omega)⟩
          have ht : Same false { z' with hist := z'.hist.drop cut } { y' with hist := y'.hist.drop cut } :=
            ⟨h'.control,h'.good,h'.view,h'.short,by simp only [h'.hist],h'.unused,h'.pausedIs,
              h'.hostless⟩
          by_cases hcut : start < cut
          · rw [if_pos hcut,if_pos hcut]
            have hpiece : (z'.hist.take cut).drop start = (y'.hist.drop start).take (cut - start) := by
              rw [h'.hist,List.drop_take]
            have hsize : emitted.length + (cut - start) =
                (emitted ++ (z'.hist.take cut).drop start).length := by
              rw [List.length_append,List.length_drop,List.length_take]
              omega
            rw [hsize]
            refine ih ht hft (Nat.zero_le _) ?_
            rw [List.flatten_append,hpieces,List.flatten_singleton,hpiece]
          · rw [if_neg hcut,if_neg hcut]
            refine ih ht hft ?_ hpieces
            simp only [List.length_drop]
            omega
        · have htrim' : ¬2 * cWindow < y'.hist.length := hlen' ▸ htrim
          rw [if_neg htrim,if_neg htrim']
          exact ih h' hf' hle hpieces

theorem go_feed_eq (z : Inflater) (data : List UInt8) (maxOut : Nat) :
    z.feed data maxOut = Inflater.feedLoop maxOut
      (2 * (z.bitcnt + 8 * (z.input.drop z.pos ++ data).length) + 2)
      { z with input := z.input.drop z.pos ++ data,pos := 0 } z.hist.length [] := by
  simp only [Inflater.feed]
  by_cases hpos : 0 < z.pos
  · simp only [if_pos hpos,Nat.sub_zero]
  · obtain ⟨c,input,pos,bitbuf,bitcnt,hist,unused,room⟩ := z
    obtain rfl : pos = 0 := Nat.eq_zero_of_not_pos hpos
    rfl

theorem abap_feed_eq (hs : y.state ≠ .done) (hhost : y.host = 0) (data : List UInt8)
    (maxOut : Nat) :
    y.feed data maxOut = Decoder.feedLoop maxOut
      (2 * (y.bitcnt + 8 * (y.input.drop y.pos ++ data).length) + 2)
      { y with
        paused := false
        opened := true
        input := y.input.drop y.pos ++ data
        inlen := (y.input.drop y.pos ++ data).length
        pos := 0 } y.hist.length 0 [] := by
  obtain ⟨c,input,inlen,pos,bitbuf,bitcnt,hist,unused,paused,room,opened,host⟩ := y
  obtain rfl : host = 0 := hhost
  simp only [Decoder.feed]
  rw [if_neg hs]
  by_cases hpos : 0 < pos
  · cases opened <;> simp [hpos,Decoder.hostOpen]
  · obtain rfl : pos = 0 := Nat.eq_zero_of_not_pos hpos
    cases opened <;> simp [Decoder.hostOpen]

theorem feed_same (h : Same paused z y) (hf : z.Follows a) (hs : z.state ≠ .done)
    (data : List UInt8) (maxOut : Nat) : SameFed (z.feed data maxOut) (y.feed data maxOut) := by
  have hs' : y.state ≠ .done := by rw [← h.control.state]; exact hs
  have hview := h.view hs
  have hstart : y.hist.length = z.hist.length := by rw [h.hist]
  rw [go_feed_eq,abap_feed_eq hs' h.hostless,hstart]
  have hf₁ : Inflater.Follows { z with input := z.input.drop z.pos ++ data,pos := 0 }
      (a.extend (ofBytes data)) :=
    hf.supplied hs data rfl rfl rfl (Nat.zero_le _) rfl rfl rfl
  have hfuel : z.bitcnt + 8 * (z.input.drop z.pos ++ data).length =
      y.bitcnt + 8 * (y.input.drop y.pos ++ data).length := by
    have hlen := congrArg List.length hview
    rw [Inflater.length_view,Decoder.length_view h.good,h.good.2.2] at hlen
    simp only [List.length_append,List.length_drop]
    omega
  rw [hfuel]
  have h₁ : Same false { z with input := z.input.drop z.pos ++ data,pos := 0 }
      { y with
        paused := false
        opened := true
        input := y.input.drop y.pos ++ data
        inlen := (y.input.drop y.pos ++ data).length
        pos := 0 } := by
    refine ⟨h.control,⟨h.good.1,Nat.zero_le _,rfl⟩,fun _ => ?_,h.short,h.hist,h.unused,rfl,h.hostless⟩
    have happ := congrArg (· ++ ofBytes data) hview
    simpa only [Inflater.window,Decoder.window,List.append_assoc,← ofBytes_append,List.drop_zero]
      using happ
  exact feedLoop_same maxOut _ h₁ hf₁ (le_refl _) (List.flatten_nil (α := UInt8))

end Abap

namespace Registry

variable {r : Registry} {handle : Int32}

theorem start_same : Abap.Same false {} {} :=
  ⟨.other rfl rfl rfl (by decide),⟨Nat.zero_lt_one,le_refl _,rfl⟩,fun _ => rfl,by decide,rfl,rfl,rfl,rfl⟩

theorem answers_same {z : Inflater} {y : Abap.Decoder} {a : Machine} {paused : Bool}
    (hz : r.m.lookup handle = some z) (h : Abap.Same paused z y) (hf : z.Follows a)
    (hs : z.state ≠ .done) (calls : List (List UInt8 × Nat)) :
    r.answers handle calls = y.answers calls := by
  induction calls generalizing r z y a paused with
  | nil => rfl
  | cons call calls ih =>
    obtain ⟨data,maxOut⟩ := call
    have hfed := Abap.feed_same h hf hs data maxOut
    rw [answers,Abap.Decoder.answers]
    generalize hgo : z.feed data maxOut = fed at hfed
    generalize y.feed data maxOut = fed' at hfed
    cases hfed with
    | corrupt e out he =>
      have hr : r.feed handle data maxOut = ({ r with m := r.m.erase handle },[],0,[],e) := by
        simp only [feed,hz,hgo]
      have ha : answer ([],0,[],e) = .corrupt e := if_pos he
      simp only [hr,ha,Answer.last,if_true]
    | fed z' y' a' out paused' h' hf' hpd =>
      have hstate : z'.state = y'.state := h'.control.state
      have hp : y'.isPaused = paused' := h'.pausedIs
      by_cases hd : z'.state = .done
      · have hr : r.feed handle data maxOut =
            ({ r with m := r.m.erase handle },out,2,z'.unused,"") := by
          simp only [feed,hz,hgo,if_pos hd]
        have hdone : y'.isDone = true := by simp [Abap.Decoder.isDone,← hstate,hd]
        have hnot : paused' = false := by
          by_contra hc
          exact hpd (by simpa using hc) hd
        have ha : answer (out,2,z'.unused,"") = .fed out false true z'.unused := rfl
        have hun : y'.getUnused = z'.unused := h'.unused.symm
        simp only [hr,ha,hp,hnot,hdone,hun,Answer.last,if_true]
      · have hr : r.feed handle data maxOut =
            ({ r with m := r.m.insert handle z' },out,if paused' then 1 else 0,[],"") := by
          simp only [feed,hz,hgo,if_neg hd]
        have hdone : y'.isDone = false := by simp [Abap.Decoder.isDone,← hstate,hd]
        have ha : answer (out,if paused' then 1 else 0,[],"") = .fed out paused' false [] := by
          cases paused' <;> rfl
        have hun : y'.getUnused = [] := h'.unused.symm.trans (hf'.unused hd)
        have hnext := ih (r := { r with m := r.m.insert handle z' }) (AList.lookup_insert _) h' hf' hd
        simp only [hr,ha,hp,hdone,hun,Answer.last,hnext]

theorem decoders_agree (r : Registry) (calls : List (List UInt8 × Nat)) :
    r.openHandle.1.answers r.openHandle.2 calls = Abap.Decoder.answers {} calls :=
  answers_same (AList.lookup_insert _) start_same Inflater.start_follows (by decide) calls

end Registry

end OpenSteamgate.Inflate
