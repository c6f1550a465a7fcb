import OpenSteamgate.Inflate.Pieces
import OpenSteamgate.Zip.Words

namespace OpenSteamgate.Zip

open Inflate.Abap LittleEndian

namespace Entry

def dataStart (entry : Entry) (archive : List UInt8) : Nat :=
  entry.headerOffset + 30 + word archive (entry.headerOffset + 26) 2 +
    word archive (entry.headerOffset + 28) 2

def stored (entry : Entry) (archive : List UInt8) : List UInt8 :=
  (archive.drop (entry.dataStart archive)).take entry.compressedSize

def expand (entry : Entry) (data : List UInt8) : Option (List UInt8) :=
  if entry.method = 8 then Inflate.Abap.inflate data else some data

def content (entry : Entry) (archive : List UInt8) : Option (List UInt8) :=
  if (entry.stored archive).length < entry.compressedSize then none
  else (entry.expand (entry.stored archive)).filter fun content =>
    content.length == entry.size && Crc32.of content == entry.crc32

end Entry

variable {σ : Type} {src : Source σ} {entry : Entry} {r r' : Reader σ} {fed out data : List UInt8}

inductive Decoded (entry : Entry) : Option Decoder → List UInt8 → List UInt8 → Prop
  | stored (data : List UInt8) : entry.method ≠ 8 → Decoded entry none data data
  | deflated (y : Decoder) (fed out : List UInt8) (z : Inflate.Inflater) (a : Inflate.Machine) :
      entry.method = 8 → Gave y fed out z a → Decoded entry (some y) fed out

structure Reading (src : Source σ) (entry : Entry) (r : Reader σ) (fed out gave : List UInt8) :
    Prop where
  entry_eq : r.entry = entry
  opened : r.opened = true
  unfinished : r.eof = false
  pos : r.pos = entry.dataStart src.archive + fed.length
  left : r.left + fed.length = entry.compressedSize
  fed_eq : (src.archive.drop (entry.dataStart src.archive)).take fed.length = fed
  produced : r.produced = out.length
  bounded : out.length ≤ entry.size
  crc : r.crc = Crc32.update {} out
  decoded : Decoded entry r.inflate fed gave

theorem Decoded.isPrefix {y : Option Decoder} (h : Decoded entry y fed out)
    {more whole : List UInt8} (hw : entry.expand (fed ++ more) = some whole) : out <+: whole := by
  cases h with
  | stored data hm =>
    rw [Entry.expand,if_neg hm,Option.some.injEq] at hw
    exact hw ▸ List.prefix_append fed more
  | deflated y fed out z a hm hg =>
    rw [Entry.expand,if_pos hm] at hw
    exact hg.isPrefix hw

theorem content_eq_some {archive whole : List UInt8} (h : entry.content archive = some whole) :
    entry.compressedSize ≤ (entry.stored archive).length ∧
      entry.expand (entry.stored archive) = some whole ∧ whole.length = entry.size ∧
      Crc32.of whole = entry.crc32 := by
  rw [Entry.content] at h
  split at h
  · cases h
  · rename_i hlen
    obtain ⟨hw,hc⟩ := Option.filter_eq_some_iff.mp h
    simp only [Bool.and_eq_true,beq_iff_eq] at hc
    exact ⟨not_lt.mp hlen,hw,hc.1,hc.2⟩

theorem stored_split (hfed : (src.archive.drop (entry.dataStart src.archive)).take fed.length = fed)
    (hle : fed.length ≤ entry.compressedSize) : ∃ more,entry.stored src.archive = fed ++ more := by
  refine ⟨((src.archive.drop (entry.dataStart src.archive)).drop fed.length).take
    (entry.compressedSize - fed.length),?_⟩
  have hadd := List.take_add (l := src.archive.drop (entry.dataStart src.archive)) (i := fed.length)
    (j := entry.compressedSize - fed.length)
  rw [hfed,Nat.add_sub_cancel' hle] at hadd
  exact hadd

theorem content_none_of_long {y : Option Decoder} (h : Decoded entry y fed out)
    (hfed : (src.archive.drop (entry.dataStart src.archive)).take fed.length = fed)
    (hle : fed.length ≤ entry.compressedSize) (hlong : entry.size < out.length) :
    entry.content src.archive = none := by
  refine Option.eq_none_iff_forall_ne_some.mpr fun whole hw => ?_
  obtain ⟨-,hexp,hlen,-⟩ := content_eq_some hw
  obtain ⟨more,hmore⟩ := stored_split hfed hle
  rw [hmore] at hexp
  have := (h.isPrefix hexp).length_le
  omega

theorem content_none_of_corrupt
    (hfed : (src.archive.drop (entry.dataStart src.archive)).take fed.length = fed)
    (hle : fed.length ≤ entry.compressedSize) (hbad : ∀ more,entry.expand (fed ++ more) = none) :
    entry.content src.archive = none := by
  refine Option.eq_none_iff_forall_ne_some.mpr fun whole hw => ?_
  obtain ⟨-,hexp,-⟩ := content_eq_some hw
  obtain ⟨more,hmore⟩ := stored_split hfed hle
  rw [hmore,hbad more] at hexp
  cases hexp

theorem content_none_of_short
    (h : (src.archive.drop (entry.dataStart src.archive)).length < entry.compressedSize) :
    entry.content src.archive = none := by
  refine Option.eq_none_iff_forall_ne_some.mpr fun whole hw => ?_
  obtain ⟨hlen,-⟩ := content_eq_some hw
  rw [Entry.stored,List.length_take] at hlen
  omega

theorem readPiece_ok {s s' : σ} {pos len : Nat} (h : src.readPiece s pos len = (.ok data,s')) :
    data = (src.archive.drop pos).take len := by
  rw [Source.readPiece] at h
  generalize hr : src.read s pos len = answer at h
  obtain ⟨answer,s₁⟩ := answer
  cases answer with
  | error reason => simp at h
  | ok d =>
    simp only [Prod.mk.injEq,Except.ok.injEq] at h
    rw [← h.1]
    exact src.read_eq s pos len d s₁ hr

theorem readPiece_error {s s' : σ} {pos len : Nat} {e : Fault Reason}
    (h : src.readPiece s pos len = (.error e,s')) : ∃ reason,e = .raised (.source reason) := by
  rw [Source.readPiece] at h
  generalize src.read s pos len = answer at h
  obtain ⟨answer,s₁⟩ := answer
  cases answer with
  | error reason =>
    simp only [Prod.mk.injEq,Except.error.injEq] at h
    exact ⟨reason,h.1.symm⟩
  | ok d => simp at h

namespace Reader

theorem dataOffset_ok {header : List UInt8} {pos : Nat}
    (hheader : header = (src.archive.drop entry.headerOffset).take 30) (hlen : 30 ≤ header.length)
    (h : dataOffset entry header = .ok pos) : pos = entry.dataStart src.archive := by
  have hle : header.length ≤ 30 := by
    rw [hheader]
    exact List.length_take_le _ _
  rw [dataOffset,Checked.slice_ok (by omega),Checked.ok_bind] at h
  split at h
  · cases h
  · rw [le_two (by omega) (by omega),le_two (by omega) (by omega),Checked.ok_bind,Checked.ok_bind,
      hheader,word_slice _ _ (by omega),word_slice _ _ (by omega)] at h
    simp only [Checked.int,Entry.dataStart] at h ⊢
    split at h
    · rw [Checked.ok_bind] at h
      split at h
      · rw [Checked.ok_bind] at h
        split at h
        · exact (Except.ok.inj h).symm
        · cases h
      · cases h
    · cases h

theorem openEntry_reading {r₀ : Reader σ} {name : String}
    (h : r₀.openEntry src name = (.ok (),r)) : Reading src r.entry r [] [] [] := by
  simp only [openEntry] at h
  split at h
  · cases h
  · rename_i entry _
    split at h
    · cases h
    split at h
    · cases h
    rename_i hmethod
    split at h
    · cases h
    rename_i header s hread
    split at h
    · cases h
    rename_i hlen
    split at h
    · cases h
    · rename_i pos hpos
      obtain rfl := (Prod.mk.inj h).2
      have hstart := dataOffset_ok (readPiece_ok hread) (not_lt.mp hlen) hpos
      refine ⟨rfl,rfl,rfl,hstart,rfl,List.take_zero,rfl,Nat.zero_le _,rfl,?_⟩
      by_cases hm : entry.method = 8
      · simp only [start,if_pos hm]
        exact .deflated _ _ _ _ _ hm start_gave
      · simp only [start,if_neg hm]
        exact .stored [] hm

inductive Fetched (src : Source σ) (entry : Entry) (r : Reader σ) (fed : List UInt8)
    (max maxOut : Nat) : Result (List UInt8) × Reader σ → Prop
  | passed (reason : String) (s : σ) :
      Fetched src entry r fed max maxOut (.error (.raised (.source reason)),{ r with source := s })
  | refused (reason : String) (r' : Reader σ) : r'.opened = false →
      entry.content src.archive = none → Fetched src entry r fed max maxOut (fail reason,r')
  | got (data : List UInt8) (s : σ) : data.length ≤ r.left →
      (src.archive.drop (entry.dataStart src.archive)).take (fed ++ data).length = fed ++ data →
      (r.isPaused = false → 0 < max → 0 < maxOut → 0 < r.left → 0 < data.length) →
      (r.isPaused = true → data = []) →
      Fetched src entry r fed max maxOut
        (.ok data,{ r with source := s, pos := r.pos + data.length, left := r.left - data.length })

theorem toTake_le (r : Reader σ) (max maxOut : Nat) : r.toTake max maxOut ≤ r.left := by
  simp only [toTake]
  split_ifs <;> omega

theorem toTake_pos {max maxOut : Nat} (hmax : 0 < max) (hout : 0 < maxOut) (hleft : 0 < r.left) :
    0 < r.toTake max maxOut := by
  simp only [toTake]
  split_ifs <;> omega

theorem fetch_spec (h : Reading src entry r fed out out) (max maxOut : Nat) :
    Fetched src entry r fed max maxOut (r.fetch src max maxOut) := by
  have hnone : (r.isPaused = false → 0 < max → 0 < maxOut → 0 < r.left → 0 < 0) →
      Fetched src entry r fed max maxOut (.ok [],r) := fun hprog => by
    refine .got [] r.source (Nat.zero_le _) ?_ hprog fun _ => rfl
    rw [List.append_nil]
    exact h.fed_eq
  rw [fetch]
  split
  · rename_i hp
    exact hnone fun hc => absurd (hp.symm.trans hc) (by decide)
  · rename_i hp
    have hle := r.toTake_le max maxOut
    simp only
    split
    · rename_i hzero
      refine hnone fun _ hmax hout hleft => ?_
      have := toTake_pos hmax hout hleft
      omega
    · rename_i hpos
      generalize hread : src.readPiece r.source r.pos (r.toTake max maxOut) = answer
      obtain ⟨answer,s⟩ := answer
      cases answer with
      | error e =>
        obtain ⟨reason,rfl⟩ := readPiece_error hread
        exact .passed reason s
      | ok data =>
        have hdata := readPiece_ok hread
        rw [h.pos,← List.drop_drop] at hdata
        have hlen := congrArg List.length hdata
        rw [List.length_take,List.length_drop] at hlen
        have hleft := h.left
        simp only
        split
        · rename_i hshort
          exact .refused _ _ rfl (content_none_of_short (by omega))
        · rename_i hfull
          have heq : data.length = r.toTake max maxOut := by omega
          rw [← heq]
          refine .got data s (heq ▸ hle) ?_ (fun _ _ _ _ => by omega) fun hc => absurd hc hp
          rw [List.length_append,List.take_add,h.fed_eq,heq,← hdata]

def weight (r : Reader σ) : Nat :=
  2 * r.left + 2 * (r.entry.size - r.produced) + if r.isPaused = true then 1 else 0

inductive Answered (src : Source σ) (entry : Entry) (r : Reader σ) (fed out : List UInt8)
    (max maxOut : Nat) : Result (List UInt8) × Reader σ → Prop
  | passed (reason : String) (s : σ) : Answered src entry r fed out max maxOut
      (.error (.raised (.source reason)),{ r with source := s })
  | refused (reason : String) (r' : Reader σ) : r'.opened = false →
      entry.content src.archive = none → Answered src entry r fed out max maxOut (fail reason,r')
  | piece (data raw : List UInt8) (r' : Reader σ) :
      Reading src entry r' (fed ++ data) (out ++ raw) (out ++ raw) →
      (0 < max → 0 < maxOut → r'.weight < r.weight) →
      Answered src entry r fed out max maxOut (.ok raw,r')
  | last (raw : List UInt8) (r' : Reader σ) : r'.opened = true → r'.eof = true →
      entry.content src.archive = some (out ++ raw) →
      Answered src entry r fed out max maxOut (.ok raw,r')

theorem finishInflate_spec (h : Decoded entry r.inflate fed out) (hp : r.isPaused = false) :
    (r.finishInflate = .ok () ∧ entry.expand fed = some out) ∨
      ((∃ reason,r.finishInflate = fail reason) ∧ entry.expand fed = none) := by
  rw [finishInflate]
  rw [isPaused] at hp
  generalize r.inflate = y at h hp ⊢
  cases h with
  | stored data hm => exact .inl ⟨rfl,by rw [Entry.expand,if_neg hm]⟩
  | deflated y fed out z a hm hg =>
    rw [Entry.expand,if_pos hm,hg.inflate_eq hp]
    by_cases hdone : y.state = .done
    · have hfinish : y.finish = .ok () := if_neg (not_not.mpr hdone)
      exact .inl ⟨by simp only [hfinish],if_pos hdone⟩
    · have hfinish : y.finish = .error "the deflate stream ends before its final block" :=
        if_pos hdone
      exact .inr ⟨⟨_,by simp only [hfinish]; rfl⟩,if_neg hdone⟩

inductive Finished (entry : Entry) (archive out : List UInt8) : Result Unit × Reader σ → Prop
  | ok (r' : Reader σ) : r'.opened = true → r'.eof = true → entry.content archive = some out →
      Finished entry archive out (.ok (),r')
  | refused (reason : String) (r' : Reader σ) : r'.opened = false →
      entry.content archive = none → Finished entry archive out (fail reason,r')

theorem finishEntry_spec (h : Reading src entry r fed out out) (hleft : r.left = 0)
    (hp : r.isPaused = false) : Finished entry src.archive out r.finishEntry := by
  have hlen : fed.length = entry.compressedSize := by
    have := h.left
    omega
  have hstored : entry.stored src.archive = fed := by
    rw [Entry.stored,← hlen,h.fed_eq]
  have hcontent : entry.content src.archive = (entry.expand fed).filter fun content =>
      content.length == entry.size && Crc32.of content == entry.crc32 := by
    rw [Entry.content,hstored,if_neg (by omega)]
  simp only [finishEntry]
  rcases finishInflate_spec (r := { r with eof := true,opened := false }) h.decoded hp with
    ⟨hfinish,hexp⟩ | ⟨⟨reason,hfinish⟩,hexp⟩
  · rw [hfinish]
    simp only
    rw [hexp] at hcontent
    split
    · rename_i hsize
      refine .refused _ _ rfl ?_
      rw [h.produced,h.entry_eq] at hsize
      simp [hcontent,Option.filter,hsize]
    split
    · rename_i hcrc
      refine .refused _ _ rfl ?_
      rw [h.crc,h.entry_eq] at hcrc
      have hof : Crc32.of out ≠ entry.crc32 := hcrc
      simp [hcontent,Option.filter,hof]
    · rename_i hsize hcrc
      refine .ok _ rfl rfl ?_
      rw [not_not,h.produced,h.entry_eq] at hsize
      rw [not_not,h.crc,h.entry_eq] at hcrc
      have hof : Crc32.of out = entry.crc32 := hcrc
      simp [hcontent,Option.filter,hsize,hof]
  · rw [hfinish]
    exact .refused _ _ rfl (by rw [hcontent,hexp,Option.filter_none])

inductive Piecewise (src : Source σ) (entry : Entry) (r : Reader σ) (fed out : List UInt8)
    (maxOut : Nat) : Result (List UInt8) × Reader σ → Prop
  | refused (reason : String) (r' : Reader σ) : r'.opened = false →
      entry.content src.archive = none → Piecewise src entry r fed out maxOut (fail reason,r')
  | given (raw : List UInt8) (y : Option Decoder) :
      Reading src entry { r with inflate := y } fed out (out ++ raw) →
      (({ r with inflate := y } : Reader σ).isPaused = true → 0 < maxOut ∧ maxOut ≤ raw.length) →
      Piecewise src entry r fed out maxOut (.ok raw,{ r with inflate := y })

theorem decodePiece_spec (maxOut : Nat)
    (h : ∀ y gave,Decoded entry y (fed ++ data) gave →
      Reading src entry { r with inflate := y } (fed ++ data) out gave)
    (hd : Decoded entry r.inflate fed out)
    (hfed : (src.archive.drop (entry.dataStart src.archive)).take (fed ++ data).length = fed ++ data)
    (hle : (fed ++ data).length ≤ entry.compressedSize) :
    Piecewise src entry r (fed ++ data) out maxOut (r.decodePiece data maxOut) := by
  rw [decodePiece]
  generalize hy : r.inflate = y at hd
  cases hd with
  | stored fed hm =>
    have hr : r = { r with inflate := none } := by rw [← hy]
    rw [hr]
    exact .given data none (h none _ (.stored _ hm)) fun hc => by cases hc
  | deflated y fed out z a hm hg =>
    simp only
    have hpiece := hg.feed data maxOut
    generalize y.feed data maxOut = answer at hpiece
    cases hpiece with
    | ok y' raw z' a' hg' hp => exact .given raw (some y') (h _ _ (.deflated _ _ _ _ _ hm hg')) hp
    | corrupt e hbad =>
      refine .refused _ _ rfl (content_none_of_corrupt hfed hle fun more => ?_)
      rw [Entry.expand,if_pos hm]
      exact hbad more

theorem weight_reading {gave : List UInt8} (h : Reading src entry r fed out gave) : r.weight =
    2 * r.left + 2 * (entry.size - out.length) + if r.isPaused = true then 1 else 0 := by
  rw [weight,h.entry_eq,h.produced]

theorem account_spec {raw : List UInt8} {max maxOut : Nat} {r₀ : Reader σ}
    (h : Reading src entry r (fed ++ data) out (out ++ raw))
    (hweight : ∀ r₁ : Reader σ,Reading src entry r₁ (fed ++ data) (out ++ raw) (out ++ raw) →
      r₁.left = r.left → r₁.isPaused = r.isPaused → (r.left = 0 → r.isPaused = true) →
      0 < max → 0 < maxOut → r₁.weight < r₀.weight) :
    Answered src entry r₀ fed out max maxOut (r.account raw) := by
  have hleft := h.left
  have hproduced := h.produced
  have hbounded := h.bounded
  rw [account]
  split
  · rename_i hlong
    rw [h.entry_eq,hproduced] at hlong
    refine .refused _ _ rfl (content_none_of_long h.decoded h.fed_eq (by omega) ?_)
    rw [List.length_append]
    omega
  · rename_i hshort
    rw [h.entry_eq,hproduced] at hshort
    have h₁ : Reading src entry
        { r with crc := r.crc.update raw,produced := r.produced + raw.length } (fed ++ data)
        (out ++ raw) (out ++ raw) := by
      refine ⟨h.entry_eq,h.opened,h.unfinished,h.pos,hleft,h.fed_eq,?_,?_,?_,h.decoded⟩
      · rw [hproduced,List.length_append]
      · rw [List.length_append]
        omega
      · rw [h.crc,Crc32.update_update]
    simp only
    split
    · rename_i hend
      have hfin := finishEntry_spec h₁ hend.1 hend.2
      generalize finishEntry _ = answer at hfin
      cases hfin with
      | ok r' ho he hc => exact .last raw r' ho he hc
      | refused reason r' ho hc => exact .refused reason r' ho hc
    · rename_i hmore
      refine .piece data raw _ h₁ (hweight _ h₁ rfl rfl fun hzero => ?_)
      by_contra hp
      have hunpaused : r.isPaused = false := by simpa using hp
      exact hmore ⟨hzero,hunpaused⟩

theorem read_spec (h : Reading src entry r fed out out) (max maxOut : Nat) :
    Answered src entry r fed out max maxOut (r.read src max maxOut) := by
  rw [read,if_neg (by rw [h.opened]; decide),if_neg (by rw [h.unfinished]; decide)]
  have hfetch := fetch_spec h max maxOut
  generalize r.fetch src max maxOut = answer at hfetch
  cases hfetch with
  | passed reason s => exact .passed reason s
  | refused reason r' ho hc => exact .refused reason r' ho hc
  | got data s hle hfed hprog hidle =>
    have hleft := h.left
    have hlen : (fed ++ data).length ≤ entry.compressedSize := by
      rw [List.length_append]
      omega
    have hreading : ∀ y gave,Decoded entry y (fed ++ data) gave → Reading src entry
        { r with source := s,pos := r.pos + data.length,left := r.left - data.length,inflate := y }
        (fed ++ data) out gave := fun y gave hd => by
      refine ⟨h.entry_eq,h.opened,h.unfinished,?_,?_,hfed,h.produced,h.bounded,h.crc,hd⟩
      · rw [h.pos,List.length_append,Nat.add_assoc]
      · change r.left - data.length + (fed ++ data).length = _
        rw [List.length_append]
        omega
    have hpiece := decodePiece_spec
      (r := { r with source := s,pos := r.pos + data.length,left := r.left - data.length })
      maxOut hreading h.decoded hfed hlen
    simp only
    generalize decodePiece _ data maxOut = answer at hpiece
    cases hpiece with
    | refused reason r' ho hc => exact .refused reason r' ho hc
    | given raw y hr hp =>
      refine account_spec hr fun r₁ h₁ hl₁ hp₁ hpause hmax hout => ?_
      have hl₁' : r₁.left = r.left - data.length := hl₁
      have hzero : r.left - data.length = 0 → ({ r with
            source := s,pos := r.pos + data.length,left := r.left - data.length,
            inflate := y } : Reader σ).isPaused = true := hpause
      have hbound := h₁.bounded
      rw [List.length_append] at hbound
      rw [weight_reading h,weight_reading h₁,hp₁,hl₁',List.length_append]
      by_cases hp₀ : r.isPaused = true
      · have hnil := congrArg List.length (hidle hp₀)
        rw [List.length_nil] at hnil
        rw [if_pos hp₀]
        split
        · rename_i hq
          have := hp hq
          omega
        · omega
      · have hsome := hprog (by simpa using hp₀) hmax hout
        rw [if_neg hp₀]
        split
        · rename_i hq
          have := hp hq
          omega
        · rename_i hq
          have hne : r.left - data.length ≠ 0 := fun hc => hq (hzero hc)
          omega

end Reader

end OpenSteamgate.Zip
