import OpenSteamgate.Inflate.Safety

namespace OpenSteamgate.Inflate.Abap.Guarded

open Attempt (Triple)

section steps

variable {y y' : Decoder} {n : Nat}

structure Live (y : Decoder) : Prop where
  ready : Ready y.toControl
  buffered : Buffered y
  inside : y.pos ≤ y.inlen
  whole : y.inlen = y.input.length
  host : y.host = 0

structure Grown (y y' : Decoder) : Prop where
  live : Live y'
  longer : y.hist.length ≤ y'.hist.length
  bounded : y'.hist.length ≤ y.hist.length + 65535

theorem Live.holds (h : Live y) : Holds y 0 y := ⟨rfl,h.buffered,h.inside,h.whole,Nat.zero_le _⟩

theorem Holds.live (h : Holds y n y') (hy : Live y) {c : Control} (hc : Ready c) :
    Live { y' with toControl := c } :=
  ⟨hc,h.buffered,h.inside,h.whole,(congrArg Decoder.host h.framed).trans hy.host⟩

theorem Holds.control (h : Holds y n y') : y'.toControl = y.toControl :=
  (congrArg Decoder.toControl h.framed).trans rfl

theorem Holds.hist (h : Holds y n y') : y'.hist = y.hist :=
  (congrArg Decoder.hist h.framed).trans rfl

theorem Holds.self (h : Holds y n y') (hy : Live y) : Live y' :=
  h.live hy (h.control ▸ hy.ready)

theorem control_steps (hy : Live y) {m : Decoding (Control → Control)}
    (hm : Sound (Framed y) y 0 m Readies 0) :
    Triple (· ≠ .slip) (Framed y) (Holds y 0) (m >>= control) fun _ y' => Grown y y' := by
  refine hm.next fun f hf s hs => ?_
  have hist := hs.hist
  exact ⟨hs.live hy (hf _ (hs.control ▸ hy.ready)),by simp [hist],by simp [hist]⟩

theorem heldBytes_sound {N : Decoder → Prop} {y₀ : Decoder} (n : Nat) :
    Sound N y₀ 0 (heldBytes n) (fun _ => True) 0 := by
  induction n with
  | zero => exact sound_pure trivial
  | succ n ih =>
    intro y hy
    by_cases h : 8 ≤ y.bitcnt
    · have hmore : heldBytes (n + 1) y = (do
          let x ← bits 8
          let held ← heldBytes n
          pure (UInt8.ofNat x :: held) : Decoding (List UInt8)) y := if_pos h
      rw [hmore]
      refine (Sound.bind (sound_bits 8 0) fun x _ => ?_ : Sound N y₀ 8 _ (fun _ => True) 0) y
        { hy with enough := h }
      exact Sound.bind ih fun held _ => sound_pure trivial
    · have hnone : heldBytes (n + 1) y = .ok (some [],y) := if_neg h
      rw [hnone]
      exact ⟨trivial,hy⟩

theorem endBlock_live {N : Decoder → Prop} :
    Triple (· ≠ .slip) N (fun s => Live s ∧ s.hist = y.hist) endBlock
      fun _ s => Live s ∧ s.hist = y.hist := by
  rintro s ⟨hs,hhist⟩
  by_cases hfinal : s.final = false
  · have hnext : endBlock s = .ok (some (),{ s with state := .header }) := if_pos hfinal
    rw [hnext]
    exact ⟨⟨⟨hs.ready.stored,by simp⟩,hs.buffered,hs.inside,hs.whole,hs.host⟩,hhist⟩
  · have hdone : Live { s with state := .done } :=
      ⟨⟨hs.ready.stored,by simp⟩,hs.buffered,hs.inside,hs.whole,hs.host⟩
    have hnext : endBlock s = (do
        let _ ← align
        let held ← heldBytes (s.bitcnt / 8)
        fun y => do
          let rest ← sectionFrom y.input y.pos
          .ok (some (),{ y with unused := y.unused ++ held ++ rest,pos := y.inlen }) : Decoding Unit)
        { s with state := .done } := if_neg hfinal
    rw [hnext]
    refine (Sound.next align_sound fun _ _ => Sound.next (heldBytes_sound _) fun held _ t ht => ?_) _ hdone.holds
    have hlive := ht.self hdone
    have hinside := hlive.inside
    have hwhole := hlive.whole
    rw [sectionFrom_inside (by omega)]
    exact ⟨⟨hlive.ready,hlive.buffered,le_rfl,hlive.whole,hlive.host⟩,ht.hist.trans hhist⟩

theorem repeatPiece_length {piece : List UInt8} (hpos : 1 ≤ piece.length) (k : Nat) :
    ∀ {left : Nat} {hist : List UInt8},left ≤ k → (Decoder.repeatPiece piece k left hist).2 < piece.length ∧
      (Decoder.repeatPiece piece k left hist).1.length + (Decoder.repeatPiece piece k left hist).2 =
        hist.length + left := by
  induction k with
  | zero =>
    intro left hist hk
    rw [Decoder.repeatPiece]
    exact ⟨by simp only; omega,rfl⟩
  | succ k ih =>
    intro left hist hk
    rw [Decoder.repeatPiece]
    split
    · next hmore =>
      obtain ⟨hless,hsum⟩ := @ih (left - piece.length) (hist ++ piece) (by omega)
      rw [List.length_append] at hsum
      exact ⟨hless,by omega⟩
    · next hless => exact ⟨by simp only; omega,rfl⟩

theorem copy_spec {hist : List UInt8} {length distance : Nat} (hd : 1 ≤ distance) :
    copy hist length distance ≠ .error .slip ∧
      ∀ h,copy hist length distance = .ok h → h.length = hist.length + length := by
  rw [copy]
  split
  · simp
  · next hfar =>
    split
    · next hapart =>
      rw [sectionOf_inside (by omega)]
      refine ⟨by simp [bind,Except.bind],?_⟩
      rintro h hh
      obtain rfl := Except.ok.inj hh
      rw [List.length_append,List.length_take,List.length_drop]
      omega
    · next hover =>
      have hpiece : ((hist.drop (hist.length - distance)).take distance).length = distance := by
        rw [List.length_take,List.length_drop]
        omega
      rw [sectionOf_inside (by omega)]
      simp only [bind,Except.bind]
      generalize (hist.drop (hist.length - distance)).take distance = piece at hpiece ⊢
      obtain ⟨hless,hsum⟩ := @repeatPiece_length piece (by omega) length length hist le_rfl
      split
      · rw [sectionOf_inside (by omega)]
        refine ⟨by simp,?_⟩
        rintro h hh
        obtain rfl := Except.ok.inj hh
        rw [List.length_append,List.length_take,List.length_drop]
        omega
      · refine ⟨by simp,?_⟩
        rintro h hh
        obtain rfl := Except.ok.inj hh
        omega

theorem emit_steps (hy : Live y) {symbol : Symbol} (hs : Short symbol) :
    Triple (· ≠ .slip) (Framed y) (Holds y 0) (emit symbol) fun _ y' => Grown y y' := by
  cases symbol with
  | literal b =>
    intro s hs
    have hlive := hs.self hy
    have hist := hs.hist
    exact ⟨⟨hlive.ready,hlive.buffered,hlive.inside,hlive.whole,hlive.host⟩,by simp [hist],by simp [hist]⟩
  | endOfBlock =>
    exact (endBlock_live).weaken (fun s hs => ⟨hs.self hy,hs.hist⟩)
      fun _ s hs => ⟨hs.1,hs.2 ▸ le_rfl,hs.2 ▸ Nat.le_add_right _ _⟩
  | copy length distance =>
    intro s hs'
    have hlive := hs'.self hy
    have hist := hs'.hist
    obtain ⟨hlength,hdistance⟩ := hs _ _ rfl
    obtain ⟨hslip,hok⟩ := @copy_spec s.hist length distance hdistance
    have hemit : emit (.copy length distance) s = (do
      let hist ← copy s.hist length distance
      .ok (some (),{ s with hist := hist })) := rfl
    rw [hemit]
    cases hcopy : copy s.hist length distance with
    | error e => exact fun he => hslip (hcopy.trans (congrArg Except.error he))
    | ok h =>
      have hgrown := hok h hcopy
      rw [hist] at hgrown
      exact ⟨⟨hlive.ready,hlive.buffered,hlive.inside,hlive.whole,hlive.host⟩,by simp only; omega,
        by simp only; omega⟩

theorem stored_steps (hy : Live y) :
    Triple (· ≠ .slip) (Framed y) (· = y) stepStored fun _ y' => Grown y y' := by
  rintro s rfl
  have hstored := hy.ready.stored
  have hinside := hy.inside
  have hwhole := hy.whole
  by_cases hzero : s.storedLeft = 0
  · have hend : stepStored s = endBlock s := if_pos hzero
    rw [hend]
    exact (endBlock_live).weaken (fun t ht => ht)
      (fun _ t (ht : Live t ∧ t.hist = s.hist) =>
        (⟨ht.1,ht.2 ▸ le_rfl,ht.2 ▸ Nat.le_add_right _ _⟩ : Grown s t)) s ⟨hy,rfl⟩
  · have hcopies : ∃ take,(take ≤ s.inlen - s.pos ∧ take ≤ s.storedLeft) ∧ stepStored s =
        if take = 0 then .ok (none,s)
        else (do
          let bytes ← sectionOf s.input s.pos take
          .ok (some (),{ s with
              hist := s.hist ++ bytes
              pos := s.pos + take
              storedLeft := s.storedLeft - take })) :=
      ⟨_,by split_ifs <;> omega,if_neg hzero⟩
    obtain ⟨take,hbound,htake⟩ := hcopies
    rw [htake]
    by_cases hnone : take = 0
    · rw [if_pos hnone]
      exact rfl
    · rw [if_neg hnone,sectionOf_inside (by omega)]
      refine ⟨⟨⟨?_,hy.ready.tables⟩,hy.buffered,?_,hy.whole,hy.host⟩,?_,?_⟩
      · simp only
        omega
      · simp only
        omega
      · simp
      · simp only [List.length_append,List.length_take]
        omega

theorem step_steps (hy : Live y) (hdone : y.state ≠ .done) :
    Triple (· ≠ .slip) (Framed y) (· = y) step fun _ y' => Grown y y' := by
  rintro s rfl
  cases hstate : s.state with
  | header =>
    have hstep : step s = (stepHeader >>= control) s := by rw [step,hstate]
    rw [hstep]
    exact control_steps hy header_sound s hy.holds
  | storedLen =>
    have hstep : step s = (stepStoredLen >>= control) s := by rw [step,hstate]
    rw [hstep]
    exact control_steps hy storedLen_sound s hy.holds
  | stored =>
    have hstep : step s = stepStored s := by rw [step,hstate]
    rw [hstep]
    exact stored_steps hy s rfl
  | table =>
    have hstep : step s = (stepTable >>= control) s := by rw [step,hstate]
    rw [hstep]
    exact control_steps hy table_sound s hy.holds
  | symbols =>
    have hstep : step s = (stepSymbol s.len s.dist >>= emit) s := by rw [step,hstate]
    obtain ⟨hlen,hdist⟩ := hy.ready.tables hstate
    rw [hstep]
    exact (symbol_sound hlen hdist).next (fun symbol hs => emit_steps hy hs) s hy.holds
  | done => exact absurd hstate hdone

end steps

section feeding

variable {y : Decoder} {start : Nat} {pieces : List (List UInt8)}

structure Kept (y : Decoder) : Prop where
  live : Live y
  hist : y.hist.length ≤ 2 * cWindow

def Safe (res : Except Fault (Decoder × List UInt8)) : Prop :=
  res ≠ .error .slip ∧ ∀ r,res = .ok r → Kept r.1

theorem safe_error {e : Fault} (h : e ≠ .slip) : Safe (.error e) :=
  ⟨fun he => h (Except.error.inj he),by simp⟩

theorem safe_ok {raw : List UInt8} (h : Kept y) : Safe (.ok (y,raw)) := by
  refine ⟨by simp,?_⟩
  rintro r hr
  obtain rfl := Except.ok.inj hr
  exact h

theorem output_safe (h : Kept y) (hstart : start ≤ y.hist.length) : Safe (output y start pieces) := by
  rw [output,sectionFrom_inside hstart]
  exact safe_ok h

theorem Kept.room (h : Kept y) (room : Int) : Kept { y with room := room } :=
  ⟨⟨h.live.ready,h.live.buffered,h.live.inside,h.live.whole,h.live.host⟩,h.hist⟩

theorem Kept.paused (h : Kept y) (paused : Bool) : Kept { y with paused := paused } :=
  ⟨⟨h.live.ready,h.live.buffered,h.live.inside,h.live.whole,h.live.host⟩,h.hist⟩

theorem Live.cut (h : Live y) (hist : List UInt8) : Live { y with hist := hist } :=
  ⟨h.ready,h.buffered,h.inside,h.whole,h.host⟩

theorem feedLoop_safe (maxOut k : Nat) : ∀ {y : Decoder} {start emitted : Nat}
    {pieces : List (List UInt8)},Kept y → start ≤ y.hist.length →
    Safe (feedLoop maxOut k y start emitted pieces) := by
  induction k with
  | zero => exact fun hy hstart => output_safe hy hstart
  | succ k ih =>
    intro y start emitted pieces hy hstart
    rw [feedLoop]
    by_cases hdone : y.state = .done
    · rw [if_pos hdone]
      exact output_safe hy hstart
    · rw [if_neg hdone]
      simp only
      generalize (if 0 < maxOut then (maxOut - emitted - y.hist.length + start : Int) else 0) = room
      have hroom := hy.room room
      have hstep := step_steps hroom.live hdone { y with room := room } rfl
      split
      · exact output_safe (hroom.paused true) hstart
      · cases hres : step { y with room := room } with
        | error e =>
          rw [hres] at hstep
          exact safe_error hstep
        | ok r =>
          obtain ⟨done,y'⟩ := r
          rw [hres] at hstep
          cases done with
          | none =>
            refine output_safe ?_ ?_
            · have hback : { y' with pos := y.pos,bitbuf := y.bitbuf,bitcnt := y.bitcnt } =
                  { y with room := room } := by
                rw [(hstep : y' = _)]
              rw [hback]
              exact hroom
            · have hist : y'.hist = y.hist := (congrArg Decoder.hist (hstep : y' = _)).trans rfl
              simp only [hist]
              exact hstart
          | some u =>
            have hlonger : y.hist.length ≤ y'.hist.length := hstep.longer
            have hbounded : y'.hist.length ≤ y.hist.length + 65535 := hstep.bounded
            have hkept := hy.hist
            have hfits : ¬longest < y'.hist.length :=
              not_lt.mpr (hbounded.trans (Nat.add_le_add_right hkept 65535))
            simp only
            rw [if_neg hfits]
            split
            · split
              · rw [sectionOf_inside (by omega),sectionFrom_inside (by omega)]
                refine ih ⟨hstep.live.cut _,?_⟩ (Nat.zero_le _)
                simp only [List.length_drop]
                omega
              · rw [sectionFrom_inside (by omega)]
                refine ih ⟨hstep.live.cut _,?_⟩ ?_
                · simp only [List.length_drop]
                  omega
                · simp only [List.length_drop]
                  omega
            · exact ih ⟨hstep.live,by omega⟩ (by omega)

theorem Kept.opened (hy : Kept y) : ∃ z : Decoder,(if y.opened = false then
    { y with paused := false,opened := true,host := Decoder.hostOpen } else { y with paused := false }) = z ∧
      Kept z ∧ z.host = 0 ∧ z.pos = y.pos ∧ z.input = y.input ∧ z.bitcnt = y.bitcnt := by
  have hlive := hy.live
  refine ⟨_,rfl,?_⟩
  split
  · exact ⟨⟨⟨hlive.ready,hlive.buffered,hlive.inside,hlive.whole,rfl⟩,hy.hist⟩,rfl,rfl,rfl,rfl⟩
  · exact ⟨hy.paused false,hlive.host,rfl,rfl,rfl⟩

theorem feed_safe (hy : Kept y) (steps : Nat) (data : List UInt8) (maxOut : Nat) :
    Safe (feed steps y data maxOut) := by
  have hlive := hy.live
  have hinside := hlive.inside
  have hwhole := hlive.whole
  rw [feed]
  by_cases hdone : y.state = .done
  · simp only [hdone,if_true]
    exact safe_ok ⟨⟨hlive.ready,hlive.buffered,hlive.inside,hlive.whole,hlive.host⟩,hy.hist⟩
  · obtain ⟨z,hz,hkept,hhost,hpos,hinput,-⟩ := hy.opened
    simp only [hdone,if_false,hz]
    rw [if_neg (by simp [hhost])]
    have hloop : ∀ input : List UInt8,Safe (feedLoop maxOut steps
        { z with input := input ++ data,inlen := (input ++ data).length,pos := 0 } z.hist.length 0 []) :=
      fun input => feedLoop_safe maxOut steps
        ⟨⟨hkept.live.ready,hkept.live.buffered,Nat.zero_le _,rfl,hhost⟩,hkept.hist⟩ le_rfl
    split
    · rw [sectionFrom_inside (by rw [hpos,hinput]; omega)]
      exact hloop _
    · exact hloop _

inductive Reached : Decoder → Prop
  | start : Reached {}
  | fed {y y' : Decoder} {raw : List UInt8} (steps : Nat) (data : List UInt8) (maxOut : Nat)
      (h : Reached y) (hfeed : feed steps y data maxOut = .ok (y',raw)) : Reached y'

theorem Reached.kept (h : Reached y) : Kept y := by
  induction h with
  | start => exact ⟨⟨⟨Nat.zero_le _,by simp⟩,⟨by decide,by decide⟩,le_rfl,rfl,rfl⟩,Nat.zero_le _⟩
  | fed steps data maxOut _ hfeed ih => exact (feed_safe ih steps data maxOut).2 _ hfeed

theorem inflater_bounded (h : Reached y) : y.bitbuf < 2 ^ y.bitcnt ∧ y.bitcnt ≤ 23 ∧
    y.hist.length ≤ 2 * cWindow + 65535 ∧
    ∀ steps data maxOut,feed steps y data maxOut ≠ .error .slip := by
  have hkept := h.kept
  exact ⟨hkept.live.buffered.1,hkept.live.buffered.2,hkept.hist.trans (Nat.le_add_right _ _),
    fun steps data maxOut => (feed_safe hkept steps data maxOut).1⟩

theorem inflater_bounded_fixed : ∃ y raw,feed 2 {} [75,4,0] 0 = .ok (y,raw) ∧
    (y.bitbuf < 2 ^ y.bitcnt ∧ y.bitcnt ≤ 23 ∧ y.hist.length ≤ 2 * cWindow + 65535 ∧
      ∀ steps data maxOut,feed steps y data maxOut ≠ .error .slip) := by
  have hok : (feed 2 {} [75,4,0] 0).toBool = true := by decide +kernel
  cases hfeed : feed 2 {} [75,4,0] 0 with
  | error e =>
    rw [hfeed] at hok
    exact Bool.noConfusion hok
  | ok r => exact ⟨r.1,r.2,rfl,inflater_bounded (.fed 2 [75,4,0] 0 .start hfeed)⟩

end feeding

end OpenSteamgate.Inflate.Abap.Guarded
