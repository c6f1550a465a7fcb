import OpenSteamgate.Inflate.Machine

namespace OpenSteamgate.Inflate

open Bits Relation Machine

namespace Inflater

def Keeps (hist out : List UInt8) : Prop :=
  hist <:+ out ∧ (hist.length < inflWindow → hist = out)

structure Follows (z : Inflater) (a : Machine) : Prop where
  control : z.toControl = a.control
  good : window.good z
  aligned : a.Aligned
  bits : z.state ≠ .done → window.view z = a.bits
  unused : z.state ≠ .done → z.unused = []
  rest : z.state = .done → ofBytes z.unused = a.bits
  hist : Keeps z.hist a.out

variable {z z' : Inflater} {a b : Machine}

theorem heldBytes_spec (n : Nat) (hz : window.good z) (ha : z.bitcnt % 8 = 0) :
    (heldBytes n z).1.length = min n (z.bitcnt / 8) ∧
      window.rest (heldBytes n z).2 = window.rest z ∧ window.good (heldBytes n z).2 ∧
      (heldBytes n z).2.pos = z.pos ∧ (heldBytes n z).2.bitcnt = z.bitcnt - 8 * (heldBytes n z).1.length ∧
      window.view z = ofBytes (heldBytes n z).1 ++ window.view (heldBytes n z).2 := by
  induction n generalizing z with
  | zero => exact ⟨by simp [heldBytes],rfl,hz,rfl,rfl,rfl⟩
  | succ n ih =>
    rw [heldBytes]
    by_cases h8 : 8 ≤ z.bitcnt
    · obtain ⟨hg,hv⟩ := shift_spec hz h8
      have hc : (z.shift 8).bitcnt = z.bitcnt - 8 := rfl
      obtain ⟨hlen,hr,hg',hp,hcnt,hview⟩ := ih hg (by rw [hc]; omega)
      have hbyte : lsb 8 (UInt8.ofNat (z.low 8)).toNat = (window.view z).take 8 := by
        have hlt : z.low 8 < 256 := by
          rw [low_eq]
          exact Nat.mod_lt _ (by omega)
        rw [UInt8.toNat_ofNat_of_lt' hlt,low_view hz (.inl h8)]
        have hl : ((window.view z).take 8).length = 8 := by
          rw [List.length_take,length_view]
          omega
        have hval := lsb_val ((window.view z).take 8)
        rwa [hl] at hval
      simp only [if_pos h8]
      refine ⟨?_,hr,hg',hp,?_,?_⟩
      · rw [List.length_cons,hlen,hc]
        omega
      · rw [hcnt,List.length_cons,hc]
        omega
      · rw [ofBytes_cons,hbyte,List.append_assoc,← hview,hv,List.take_append_drop]
    · simp only [if_neg h8]
      refine ⟨?_,trivial,hz,trivial,by simp,by simp⟩
      rw [List.length_nil]
      omega

theorem view_empty (h : z.bitcnt = 0) : window.view z = ofBytes (z.input.drop z.pos) := by
  simp only [window,h,lsb,List.nil_append]

theorem endBlock_follows (hz : window.good z) (hc : z.toControl = a.control)
    (hb : window.view z = a.bits) (hu : z.unused = []) (hh : Keeps z.hist a.out) :
    Follows z.endBlock a.endBlock ∧ z.endBlock.hist = z.hist := by
  have hfinal : z.final = a.control.final := congrArg Control.final hc
  by_cases hf : a.control.final = false
  · rw [endBlock,Machine.endBlock,if_pos hf,if_pos (hfinal.trans hf)]
    refine ⟨⟨?_,hz,aligned_of_ne (by simp),fun _ => hb,fun _ => hu,by simp,hh⟩,rfl⟩
    rw [← hc]
  · rw [endBlock,Machine.endBlock,if_neg hf,if_neg (by rwa [hfinal])]
    have hz' : window.good { z with state := .done } := hz
    obtain ⟨hg,hv⟩ := shift_spec hz' (Nat.mod_le z.bitcnt 8)
    generalize hz₁ : ({ z with state := .done } : Inflater).shift (z.bitcnt % 8) = z₁ at hg hv
    have hcnt : z₁.bitcnt = z.bitcnt - z.bitcnt % 8 := by rw [← hz₁]; rfl
    have hin : z₁.input = z.input := by rw [← hz₁]; rfl
    have hun : z₁.unused = z.unused := by rw [← hz₁]; rfl
    have hhist : z₁.hist = z.hist := by rw [← hz₁]; rfl
    have hctl : z₁.toControl = { a.control with state := .done } := by rw [← hz₁,← hc]; rfl
    obtain ⟨hlen,hr,hg',hp,hc',hview⟩ := heldBytes_spec (z₁.bitcnt / 8) hg (by rw [hcnt]; omega)
    simp only
    generalize z₁.heldBytes (z₁.bitcnt / 8) = held at hlen hr hg' hp hc' hview ⊢
    have hzero : held.2.bitcnt = 0 := by
      rw [hc',hlen,hcnt]
      omega
    have hin' := input_of_rest hr
    have hctl' : held.2.toControl = z₁.toControl := congrArg Prod.fst hr
    have hhist' : held.2.hist = z₁.hist := congrArg (fun r => r.2.2.1) hr
    rw [view_empty hzero,hin',hp] at hview
    refine ⟨⟨hctl'.trans hctl,⟨hg'.1,by simp only; rw [hin']⟩,aligned_of_ne (by simp),?_,?_,
      fun _ => ?_,?_⟩,hhist'.trans hhist⟩
    · intro hs
      exact (hs (congrArg Control.state (hctl'.trans hctl))).elim
    · intro hs
      exact (hs (congrArg Control.state (hctl'.trans hctl))).elim
    · simp only
      rw [hun,hu,List.nil_append,ofBytes_append,← hview,hv,← hb,length_view,Nat.add_mul_mod_self_left]
      rfl
    · simp only
      rw [hhist',hhist]
      exact hh

theorem Keeps.append {hist out : List UInt8} (h : Keeps hist out) (d : List UInt8) :
    Keeps (hist ++ d) (out ++ d) := by
  obtain ⟨⟨old,ho⟩,hshort⟩ := h
  refine ⟨⟨old,by rw [← List.append_assoc,ho]⟩,fun hlen => ?_⟩
  rw [List.length_append] at hlen
  rw [hshort (by omega)]

theorem Keeps.trim {hist out : List UInt8} (h : Keeps hist out) {cut : Nat}
    (hcut : cut + inflWindow ≤ hist.length) : Keeps (hist.drop cut) out := by
  refine ⟨(List.drop_suffix cut hist).trans h.1,fun hlen => ?_⟩
  rw [List.length_drop] at hlen
  omega

inductive Tracks (z : Inflater) (a : Machine) : Except String (Option Unit × Inflater) → Prop
  | more (z' : Inflater) : a.next = .more → window.rest z' = window.rest z →
      Tracks z a (.ok (none,z'))
  | fail (e : String) : a.next = .fail e → Tracks z a (.error e)
  | ok (z' : Inflater) (b : Machine) (d : List UInt8) : TransGen Next a b → Follows z' b →
      z'.hist = z.hist ++ d → b.out = a.out ++ d → Tracks z a (.ok (some (),z'))

theorem read_tracks {α : Type} {n c : Nat} {m : Decoding α} {p : Reading α}
    (hreads : Reads window 0 n c m p) (h : Follows z a) (hs : z.state ≠ .done)
    {f : Machine → α → Outcome String Machine} {g : α → Decoding Unit}
    (hnext : a.next = a.after p f)
    (hcommit : ∀ x z',window.rest z' = window.rest z → window.good z' →
      p a.bits = .ok (x,window.view z') →
      a.next = f { a with bits := window.view z' } x → Tracks z a (g x z')) :
    Tracks z a ((m >>= g) z) := by
  have hagrees := hreads.agrees z h.good (Nat.zero_le _)
  rw [h.bits hs] at hagrees
  change Tracks z a (Attempt.bind m g z)
  simp only [Attempt.bind]
  simp only [after] at hnext
  generalize ho : p a.bits = o at hagrees hnext hcommit
  generalize m z = r at hagrees
  cases hagrees with
  | more z' hr => exact .more z' hnext hr
  | fail e => exact .fail e hnext
  | ok x z' hr hg _ => exact hcommit x z' hr hg rfl hnext

theorem Follows.committed (h : Follows z a) (hs : z.state ≠ .done)
    (hr : window.rest z' = window.rest z) (hg : window.good z') {f : Control → Control}
    (hf : (f a.control).state ≠ .done)
    (hnext : a.next = .ok { a with control := f a.control,bits := window.view z' }) :
    Tracks z a (Inflater.control f z') := by
  have hctl : z'.toControl = a.control := (congrArg Prod.fst hr).trans h.control
  have hhist : z'.hist = z.hist := congrArg (fun r => r.2.2.1) hr
  have hun : z'.unused = z.unused := congrArg (fun r => r.2.2.2.1) hr
  have hf' : (f z'.toControl).state ≠ .done := hctl ▸ hf
  refine .ok { z' with toControl := f z'.toControl } _ [] (.single hnext)
    ⟨congrArg f hctl,hg,next_aligned hnext h.aligned,fun _ => rfl,fun _ => hun.trans (h.unused hs),
      fun hd => (hf' hd).elim,?_⟩ (by simpa using hhist) (by simp)
  simp only
  rw [hhist]
  exact h.hist

theorem copyBack_keeps {hist out : List UInt8} (hk : Keeps hist out) (length : Nat) {distance : Nat}
    (hwin : distance ≤ inflWindow) :
    (hist.length < distance ↔ out.length < distance) ∧ (distance ≤ hist.length →
      ∃ d,copyBack hist (hist.length - distance) length = hist ++ d ∧
        copyBack out (out.length - distance) length = out ++ d) := by
  obtain ⟨⟨old,rfl⟩,hshort⟩ := hk
  constructor
  · rw [List.length_append]
    refine ⟨fun hlt => ?_,fun hlt => by omega⟩
    have hlen := congrArg List.length (hshort (by omega))
    rw [List.length_append] at hlen
    omega
  · intro hle
    obtain ⟨d,hd⟩ := copyBack_extends hist (hist.length - distance) length
    refine ⟨d,hd.symm,?_⟩
    rw [List.length_append,Nat.add_sub_assoc hle,copyBack_append,← hd,List.append_assoc]

theorem Follows.emitted (h : Follows z a) (hs : z.state ≠ .done)
    (hr : window.rest z' = window.rest z) (hg : window.good z') {sym : Symbol}
    (hwin : ∀ length distance,sym = .copy length distance → distance ≤ inflWindow)
    (hnext : a.next = { a with bits := window.view z' }.emit sym) : Tracks z a (emit sym z') := by
  have hctl : z'.toControl = a.control := (congrArg Prod.fst hr).trans h.control
  have hhist : z'.hist = z.hist := congrArg (fun r => r.2.2.1) hr
  have hun : z'.unused = [] := (congrArg (fun r => r.2.2.2.1) hr).trans (h.unused hs)
  have hstate : z'.state ≠ .done := by
    have hc : z'.state = z.state := congrArg (fun r => r.1.state) hr
    rwa [hc]
  have hgrow : ∀ d,a.next = .ok { a with out := a.out ++ d,bits := window.view z' } →
      Tracks z a (.ok (some (),{ z' with hist := z'.hist ++ d })) := by
    intro d hnext
    refine .ok _ _ d (.single hnext) ⟨hctl,hg,next_aligned hnext h.aligned,fun _ => rfl,
      fun _ => hun,fun hd => (hstate hd).elim,?_⟩ (by rw [hhist]) rfl
    simp only
    rw [hhist]
    exact h.hist.append d
  cases sym with
  | literal b => exact hgrow [b] hnext
  | endOfBlock =>
    obtain ⟨hf,hh⟩ := endBlock_follows (a := { a with bits := window.view z' }) hg hctl rfl hun
      (hhist ▸ h.hist)
    exact .ok z'.endBlock _ [] (.single hnext) hf (by rw [hh,hhist,List.append_nil])
      (by rw [endBlock_out,List.append_nil])
  | copy length distance =>
    obtain ⟨hiff,hcopy⟩ := copyBack_keeps h.hist length (hwin length distance rfl)
    simp only [Machine.emit] at hnext
    simp only [emit,hhist]
    by_cases hd : z.hist.length < distance
    · rw [if_pos hd]
      rw [if_pos (hiff.mp hd)] at hnext
      exact .fail _ hnext
    · obtain ⟨d,hd₁,hd₂⟩ := hcopy (not_lt.mp hd)
      rw [if_neg hd,hd₁]
      rw [if_neg fun hc => hd (hiff.mpr hc),hd₂] at hnext
      rw [← hhist]
      exact hgrow d hnext

theorem stored_next (hs : a.control.state = .stored) (hleft : a.control.storedLeft ≠ 0) {x : UInt8}
    {rest : List Bool} (hb : a.bits = lsb 8 x.toNat ++ rest) :
    Next a
      { control := { a.control with storedLeft := a.control.storedLeft - 1 }
        out := a.out ++ [x]
        bits := rest } := by
  have hlen : ¬a.bits.length < 8 := by
    rw [hb,List.length_append,length_lsb]
    omega
  have hread : (storedByte : Reading Nat) a.bits = .ok (x.toNat,rest) := by
    have hneed : (BitFeed.need 8 : Reading Unit) a.bits = .ok ((),a.bits) := if_neg hlen
    rw [storedByte,Reader.bind_ok hneed]
    change (if a.bits.length < 8 then Outcome.more else .ok (val (a.bits.take 8),a.bits.drop 8)) = _
    rw [if_neg hlen,hb,List.take_left' (length_lsb 8 _),List.drop_left' (length_lsb 8 _),
      val_lsb_of_lt (UInt8.toNat_lt x)]
  have hnext : a.next = a.after storedByte store := by
    simp only [next,hs]
    rw [if_neg hleft]
  rw [Next,hnext,after_ok hread,store,UInt8.ofNat_toNat]

theorem stored_run (hs : a.control.state = .stored) (bs : List UInt8) {rest : List Bool}
    (hle : bs.length ≤ a.control.storedLeft) (hb : a.bits = ofBytes bs ++ rest) :
    ReflTransGen Next a
      { control := { a.control with storedLeft := a.control.storedLeft - bs.length }
        out := a.out ++ bs
        bits := rest } := by
  induction bs generalizing a with
  | nil =>
    simp only [List.length_nil,Nat.sub_zero,List.append_nil]
    rw [ofBytes_nil,List.nil_append] at hb
    rw [← hb]
  | cons x bs ih =>
    rw [List.length_cons] at hle
    rw [ofBytes_cons,List.append_assoc] at hb
    have hrun := ih (a :=
      { control := { a.control with storedLeft := a.control.storedLeft - 1 }
        out := a.out ++ [x]
        bits := ofBytes bs ++ rest }) hs (by simp only; omega) rfl
    refine .head (stored_next hs (by omega) hb) ?_
    simpa only [List.length_cons,Nat.sub_sub,Nat.add_comm 1,List.append_assoc,
      List.singleton_append] using hrun

theorem stepStored_short (hleft : z.storedLeft ≠ 0)
    (hnone : z.input.length - z.pos + z.bitcnt / 8 = 0) : stepStored z = .ok (none,z) := by
  have hroom : ¬(0 < z.room ∧ z.room < 0) := fun h => Nat.not_lt_zero _ h.2
  simp only [stepStored,hnone,if_neg hleft,if_neg (Nat.not_lt_zero _),if_neg hroom,if_true]

theorem stepStored_spec (hz : window.good z) (hmod : z.bitcnt % 8 = 0) (hleft : z.storedLeft ≠ 0)
    (hsome : z.input.length - z.pos + z.bitcnt / 8 ≠ 0) {take : Nat}
    (htake : take = min (min (z.input.length - z.pos + z.bitcnt / 8) z.storedLeft)
      (if 0 < z.room then z.room else z.storedLeft)) :
    ∃ data z',stepStored z = .ok (some (),z') ∧ data.length = take ∧ window.good z' ∧
      window.view z = ofBytes data ++ window.view z' ∧
      window.rest z' = ({ z.toControl with storedLeft := z.storedLeft - take },z.input,
        z.hist ++ data,z.unused,z.room) := by
  have hpos := hz.2
  have hle : take ≤ z.input.length - z.pos + z.bitcnt / 8 ∧ take ≠ 0 := by
    rw [htake]
    split_ifs <;> omega
  obtain ⟨hle₂,ht⟩ := hle
  have hcase : stepStored z = .ok (some (),{ (heldBytes take z).2 with
        hist := z.hist ++ (heldBytes take z).1 ++
          (z.input.drop z.pos).take (take - (heldBytes take z).1.length)
        pos := z.pos + (take - (heldBytes take z).1.length)
        storedLeft := z.storedLeft - take }) := by
    simp only [stepStored,if_neg hleft]
    generalize htake' : (if 0 < z.room ∧ z.room < _ then z.room else _) = take'
    have he : take' = take := by
      rw [← htake',htake]
      split_ifs <;> omega
    rw [he,if_neg ht]
  obtain ⟨hlen,hr,hg,hp,hc,hv⟩ := heldBytes_spec take hz hmod
  rw [hcase]
  generalize heldBytes take z = held at hlen hr hg hp hc hv ⊢
  have hin := input_of_rest hr
  generalize hdirect : (z.input.drop z.pos).take (take - held.1.length) = direct
  have hdlen : direct.length = take - held.1.length := by
    rw [← hdirect,List.length_take,List.length_drop]
    omega
  -- what the buffer holds goes first; only an empty buffer lets bytes be copied directly
  have hsplit : window.view held.2 = ofBytes direct ++
      window.view { held.2 with pos := z.pos + (take - held.1.length) } := by
    by_cases h0 : take - held.1.length = 0
    · rw [List.eq_nil_of_length_eq_zero (hdlen.trans h0),h0,Nat.add_zero,← hp]
      rfl
    · have hcnt : held.2.bitcnt = 0 := by omega
      have hempty : window.view { held.2 with pos := z.pos + (take - held.1.length) } =
          ofBytes (held.2.input.drop (z.pos + (take - held.1.length))) := view_empty hcnt
      rw [view_empty hcnt,hempty,← ofBytes_append,hin,hp,← hdirect,← List.drop_drop,List.take_append_drop]
  refine ⟨held.1 ++ direct,_,rfl,?_,⟨hg.1,?_⟩,?_,?_⟩
  · rw [List.length_append,hdlen]
    omega
  · simp only
    rw [hin]
    omega
  · rw [hv,hsplit,ofBytes_append,List.append_assoc]
    rfl
  · simp only [window,Prod.mk.injEq] at hr
    simp only [window,hr.1,hr.2.1,hr.2.2.2.1,hr.2.2.2.2,List.append_assoc]

theorem stepStored_tracks (h : Follows z a) (hs : z.state = .stored) :
    Tracks z a (stepStored z) := by
  have hne : z.state ≠ .done := by rw [hs]; exact fun hc => by cases hc
  have has : a.control.state = .stored := h.control ▸ hs
  have hleft : a.control.storedLeft = z.storedLeft := by rw [← h.control]
  have hview := h.bits hne
  have hmod : z.bitcnt % 8 = 0 := by
    have hal := h.aligned has
    rw [← hview,length_view] at hal
    omega
  by_cases hzero : z.storedLeft = 0
  · simp only [stepStored]
    rw [if_pos hzero]
    obtain ⟨hf,hh⟩ := endBlock_follows h.good h.control hview (h.unused hne) h.hist
    refine .ok _ _ [] (.single ?_) hf (by rw [hh,List.append_nil]) (by rw [endBlock_out,List.append_nil])
    simp only [Next,next,has]
    rw [if_pos (hleft.trans hzero)]
  by_cases hnone : z.input.length - z.pos + z.bitcnt / 8 = 0
  · rw [stepStored_short hzero hnone]
    refine .more z ?_ rfl
    have hshort : a.bits.length < 8 := by
      rw [← hview,length_view]
      omega
    have hread : (storedByte : Reading Nat) a.bits = .more :=
      Reader.bind_more (if_pos hshort) _
    simp only [next,has]
    rw [if_neg (by rwa [hleft])]
    simp only [after,hread]
  obtain ⟨data,z',hstep,hdata,hg,hsplit,hr⟩ := stepStored_spec h.good hmod hzero hnone rfl
  rw [hstep]
  have hctl : z'.toControl = { a.control with storedLeft := a.control.storedLeft - data.length } := by
    rw [hdata,hleft,← h.control]
    exact congrArg Prod.fst hr
  have hhist : z'.hist = z.hist ++ data := congrArg (fun r => r.2.2.1) hr
  have hun : z'.unused = [] := (congrArg (fun r => r.2.2.2.1) hr).trans (h.unused hne)
  have hle : data.length ≤ a.control.storedLeft := by
    rw [hdata,hleft]
    omega
  have hrun := stored_run has data hle (hview ▸ hsplit)
  have hsteps : TransGen Next a
      { control := { a.control with storedLeft := a.control.storedLeft - data.length }
        out := a.out ++ data
        bits := window.view z' } := by
    refine (reflTransGen_iff_eq_or_transGen.mp hrun).resolve_left fun he => ?_
    have hout := congrArg (fun b => b.out.length) he
    simp only [List.length_append] at hout
    have hnz : data.length ≠ 0 := by
      rw [hdata]
      split_ifs <;> omega
    omega
  have hst : z'.state = .stored := (congrArg Control.state hctl).trans has
  refine .ok z' _ data hsteps ⟨hctl,hg,reach_aligned hrun h.aligned,fun _ => rfl,fun _ => hun,?_,?_⟩
    hhist rfl
  · exact fun hd => absurd (hst.symm.trans hd) (by decide)
  · rw [hhist]
    exact h.hist.append data

theorem step_tracks (h : Follows z a) (hs : z.state ≠ .done) : Tracks z a z.step := by
  have hc : z.state = a.control.state := congrArg Control.state h.control
  cases hst : z.state with
  | header =>
    have hnext : a.next = a.after stepHeader update := by simp only [next,← hc,hst]
    simp only [step,hst]
    refine read_tracks header_reads h hs hnext fun f z' hr hg hx hn => ?_
    exact h.committed hs hr hg (header_ensures _ f _ trivial hx _).2 hn
  | storedLen =>
    have hnext : a.next = a.after stepStoredLen update := by simp only [next,← hc,hst]
    simp only [step,hst]
    refine read_tracks storedLen_reads h hs hnext fun f z' hr hg hx hn => ?_
    exact h.committed hs hr hg ((storedLen_ensures _ f _ trivial hx).2 _) hn
  | stored =>
    simp only [step,hst]
    exact stepStored_tracks h hst
  | table =>
    have hnext : a.next = a.after stepTable update := by simp only [next,← hc,hst]
    simp only [step,hst]
    refine read_tracks table_reads h hs hnext fun f z' hr hg hx hn => ?_
    exact h.committed hs hr hg (table_ensures _ f _ trivial hx _).2 hn
  | symbols =>
    have hnext : a.next = a.after (stepSymbol z.lens z.dist) Machine.emit := by
      simp only [next,hst,← h.control]
    simp only [step,hst]
    refine read_tracks (symbol_reads z.lens z.dist) h hs hnext fun sym z' hr hg hx hn => ?_
    exact h.emitted hs hr hg (symbol_ensures _ _ _ sym _ trivial hx) hn
  | done => exact (hs hst).elim

theorem restore_eq (hr : window.rest z' = window.rest z) :
    { z' with pos := z.pos,bitbuf := z.bitbuf,bitcnt := z.bitcnt } = z := by
  obtain ⟨c,input,pos,bitbuf,bitcnt,hist,unused,room⟩ := z
  obtain ⟨c',input',pos',bitbuf',bitcnt',hist',unused',room'⟩ := z'
  simp only [window,Prod.mk.injEq] at hr
  obtain ⟨rfl,rfl,rfl,rfl,rfl⟩ := hr
  rfl

inductive Answers (a : Machine) (maxOut : Nat) (pending : List UInt8) : Fed → Prop
  | waiting (z' : Inflater) (b : Machine) (d : List UInt8) : ReflTransGen Next a b → Follows z' b →
      b.next = .more → b.out = a.out ++ d → Answers a maxOut pending (.ok (z',pending ++ d,false))
  | paused (z' : Inflater) (b : Machine) (d : List UInt8) : ReflTransGen Next a b → Follows z' b →
      z'.state ≠ .done → 0 < maxOut → maxOut ≤ (pending ++ d).length → b.out = a.out ++ d →
      Answers a maxOut pending (.ok (z',pending ++ d,true))
  | failed (e : String) (b : Machine) (d : List UInt8) : ReflTransGen Next a b → b.next = .fail e →
      b.out = a.out ++ d → Answers a maxOut pending (.error (e,pending ++ d))

theorem Answers.after {maxOut : Nat} {pending d : List UInt8} {r : Fed} (hab : TransGen Next a b)
    (hout : b.out = a.out ++ d) (h : Answers b maxOut (pending ++ d) r) : Answers a maxOut pending r := by
  have hab := hab.to_reflTransGen
  cases h with
  | waiting z' c d' hbc hf hn ho =>
    rw [List.append_assoc]
    exact .waiting z' c _ (hab.trans hbc) hf hn (by rw [ho,hout,List.append_assoc])
  | paused z' c d' hbc hf hd hpos hle ho =>
    rw [List.append_assoc] at hle ⊢
    exact .paused z' c _ (hab.trans hbc) hf hd hpos hle (by rw [ho,hout,List.append_assoc])
  | failed e c d' hbc hn ho =>
    rw [List.append_assoc]
    exact .failed e c _ (hab.trans hbc) hn (by rw [ho,hout,List.append_assoc])

theorem trans_weight (h : TransGen Next a b) : b.weight < a.weight := by
  induction h with
  | single hn => exact (next_step hn).1
  | tail _ hn ih => exact (next_step hn).1.trans ih

theorem Follows.answers_done (h : Follows z a) (maxOut : Nat) (pending : List UInt8)
    (hn : a.next = .more) : Answers a maxOut pending (.ok (z,pending,false)) := by
  have hw : Answers a maxOut pending (.ok (z,pending ++ [],false)) :=
    .waiting z a [] .refl h hn (List.append_nil _).symm
  rwa [List.append_nil] at hw

theorem drop_take_drop {α : Type} (l : List α) {i j : Nat} (h : i ≤ j) :
    (l.take j).drop i ++ l.drop j = l.drop i := by
  conv_rhs => rw [← List.take_append_drop j l,List.drop_append]
  by_cases hj : j ≤ l.length
  · rw [List.length_take,Nat.min_eq_left hj,Nat.sub_eq_zero_of_le h,List.drop_zero]
  · rw [List.drop_of_length_le (i := j) (by omega),List.drop_nil]

theorem feedLoop_answers (maxOut k : Nat) (h : Follows z a) (hk : a.weight < k) {start : Nat}
    (hstart : start ≤ z.hist.length) (emitted : List UInt8) :
    Answers a maxOut (emitted ++ z.hist.drop start) (feedLoop maxOut k z start emitted) := by
  induction k generalizing z a start emitted with
  | zero => exact absurd hk (Nat.not_lt_zero _)
  | succ k ih =>
    rw [feedLoop]
    by_cases hdone : z.state = .done
    · rw [if_pos hdone]
      have hc : a.control.state = .done := by rw [← h.control]; exact hdone
      exact h.answers_done maxOut _ (by simp only [next,hc])
    rw [if_neg hdone]
    simp only
    generalize hroom : maxOut + start - emitted.length - z.hist.length = room
    by_cases hpause : 0 < maxOut ∧ room = 0
    · rw [if_pos hpause]
      have hfull : maxOut ≤ (emitted ++ z.hist.drop start ++ []).length := by
        simp only [List.append_nil,List.length_append,List.length_drop]
        omega
      have hp : Answers a maxOut (emitted ++ z.hist.drop start)
          (.ok (z,emitted ++ z.hist.drop start ++ [],true)) :=
        .paused z a [] .refl h hdone hpause.1 hfull (List.append_nil _).symm
      rwa [List.append_nil] at hp
    rw [if_neg hpause]
    generalize hz₀ : { z with room := if 0 < maxOut then room else 0 } = z₀
    have hf₀ : Follows z₀ a := by
      rw [← hz₀]
      exact ⟨h.control,h.good,h.aligned,h.bits,h.unused,h.rest,h.hist⟩
    have hhist₀ : z₀.hist = z.hist := by rw [← hz₀]
    have ht := step_tracks hf₀ (by rw [← hz₀]; exact hdone)
    rw [← hhist₀] at hstart ⊢
    generalize z₀.step = r at ht
    cases ht with
    | more z' hn hr =>
      have hhist : z'.hist = z₀.hist := congrArg (fun r => r.2.2.1) hr
      have hrestore : { z' with pos := z.pos,bitbuf := z.bitbuf,bitcnt := z.bitcnt } = z₀ := by
        subst hz₀
        exact restore_eq hr
      change Answers a maxOut _ (.ok ({ z' with pos := z.pos,bitbuf := z.bitbuf,bitcnt := z.bitcnt },
        emitted ++ z'.hist.drop start,false))
      rw [hrestore,hhist]
      exact hf₀.answers_done maxOut _ hn
    | fail e hn =>
      have hfail : Answers a maxOut (emitted ++ z₀.hist.drop start)
          (.error (e,emitted ++ z₀.hist.drop start ++ [])) :=
        .failed e a [] .refl hn (List.append_nil _).symm
      rwa [List.append_nil] at hfail
    | ok z' b d hab hf hhist hout =>
      refine .after hab hout ?_
      have hw := trans_weight hab
      have hpending : emitted ++ z₀.hist.drop start ++ d = emitted ++ z'.hist.drop start := by
        rw [hhist,List.append_assoc,List.drop_append_of_le_length hstart]
      have hlen : start ≤ z'.hist.length := by
        rw [hhist,List.length_append]
        omega
      simp only
      by_cases htrim : 2 * inflWindow < z'.hist.length
      · rw [if_pos htrim,hpending]
        generalize hcutlen : z'.hist.length - inflWindow = cut
        have hkeeps : Keeps (z'.hist.drop cut) b.out := hf.hist.trim (by omega)
        have hf' : Follows { z' with hist := z'.hist.drop cut } b :=
          ⟨hf.control,hf.good,hf.aligned,hf.bits,hf.unused,hf.rest,hkeeps⟩
        by_cases hcut : start < cut
        · rw [if_pos hcut]
          have hi := ih hf' (by omega) (Nat.zero_le _) (emitted ++ (z'.hist.take cut).drop start)
          rwa [List.drop_zero,List.append_assoc,drop_take_drop _ hcut.le] at hi
        · rw [if_neg hcut]
          have hle : start - cut ≤ (z'.hist.drop cut).length := by
            rw [List.length_drop]
            omega
          have hi := ih hf' (by omega) hle emitted
          rwa [List.drop_drop,Nat.add_sub_cancel' (not_lt.mp hcut)] at hi
      · rw [if_neg htrim,hpending]
        exact ih hf (by omega) hlen emitted

theorem Follows.supplied (h : Follows z a) (hs : z.state ≠ .done) (data : List UInt8) {z₁ : Inflater}
    (hctl : z₁.toControl = z.toControl) (hbuf : z₁.bitbuf = z.bitbuf) (hcnt : z₁.bitcnt = z.bitcnt)
    (hpos : z₁.pos ≤ z₁.input.length)
    (hin : z₁.input.drop z₁.pos = z.input.drop z.pos ++ data) (hhist : z₁.hist = z.hist)
    (hun : z₁.unused = z.unused) : Follows z₁ (a.extend (ofBytes data)) := by
  have hst : z₁.state = z.state := congrArg Control.state hctl
  refine ⟨hctl.trans h.control,⟨by rw [hbuf,hcnt]; exact h.good.1,hpos⟩,fun has => ?_,fun _ => ?_,
    fun _ => hun.trans (h.unused hs),fun hd => (hs (hst.symm.trans hd)).elim,?_⟩
  · have hal := h.aligned has
    simp only [extend,List.length_append,length_ofBytes]
    omega
  · simp only [extend,← h.bits hs,window,hin,hbuf,hcnt,ofBytes_append,List.append_assoc]
  · rw [hhist]
    exact h.hist

theorem Follows.looped (h : Follows z a) (hs : z.state ≠ .done) (maxOut : Nat) :
    Answers a maxOut [] (feedLoop maxOut (2 * (z.bitcnt + 8 * (z.input.length - z.pos)) + 2) z
      z.hist.length []) := by
  have hw : a.weight < 2 * (z.bitcnt + 8 * (z.input.length - z.pos)) + 2 := by
    rw [← length_view,h.bits hs]
    simp only [weight]
    split_ifs <;> omega
  have ha := feedLoop_answers maxOut _ h hw (le_refl _) []
  rwa [List.drop_length,List.append_nil] at ha

theorem Follows.fed (h : Follows z a) (hs : z.state ≠ .done) (data : List UInt8) (maxOut : Nat) :
    Answers (a.extend (ofBytes data)) maxOut [] (z.feed data maxOut) := by
  simp only [feed]
  by_cases hpos : 0 < z.pos
  · rw [if_pos hpos]
    refine Follows.looped (z := { z with input := z.input.drop z.pos ++ data,pos := 0 }) ?_ hs maxOut
    exact h.supplied hs data rfl rfl rfl (Nat.zero_le _) rfl rfl rfl
  · rw [if_neg hpos]
    have h0 : z.pos = 0 := Nat.eq_zero_of_not_pos hpos
    refine Follows.looped (z := { z with input := z.input ++ data }) ?_ hs maxOut
    exact h.supplied hs data rfl rfl rfl (by simp only [h0]; exact Nat.zero_le _)
      (by simp only [h0,List.drop_zero]) rfl rfl

theorem start_follows : Follows {} (Machine.start []) :=
  ⟨rfl,⟨Nat.zero_lt_one,le_refl _⟩,aligned_of_ne (by decide),fun _ => rfl,fun _ => rfl,
    fun h => absurd h (by decide),⟨List.suffix_rfl,fun _ => rfl⟩⟩

end Inflater

end OpenSteamgate.Inflate
