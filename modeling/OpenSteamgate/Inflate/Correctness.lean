import OpenSteamgate.Inflate.Deflate
import OpenSteamgate.Inflate.Cuts

namespace OpenSteamgate.Inflate

open Bits CanonicalCode Relation Machine BitFeed BitSource

def Decodes (h : Huff) (lengths : List Nat) : Prop :=
  ∀ sym, 0 < lengths.getD sym 0 → ∀ rest,
    (BitSource.decode h : Reading Nat) (codeword lengths sym ++ rest) = .ok (sym,rest)

theorem inflBuild_decodes {lengths : List Nat} (hmax : ∀ l ∈ lengths,l ≤ inflMaxBits)
    (hkraft : kraft inflMaxBits lengths ≤ 2 ^ inflMaxBits) :
    ∃ h,inflBuild lengths = .ok (h,2 ^ inflMaxBits - kraft inflMaxBits lengths) ∧
      Decodes h lengths := inflBuild_ok hmax hkraft

theorem need_ok {n : Nat} {bs : List Bool} (h : n ≤ bs.length) :
    (need n : Reading Unit) bs = .ok ((),bs) := if_neg (not_lt.mpr h)

theorem bits_ok {n x : Nat} (hx : x < 2 ^ n) (rest : List Bool) :
    (bits n : Reading Nat) (lsb n x ++ rest) = .ok (x,rest) := by
  change (if (lsb n x ++ rest).length < n then Outcome.more
    else .ok (val ((lsb n x ++ rest).take n),(lsb n x ++ rest).drop n)) = _
  rw [if_neg (by simp),List.take_left' (length_lsb n x),List.drop_left' (length_lsb n x),
    val_lsb_of_lt hx]

theorem take_bits {α : Type} {n x : Nat} (hx : x < 2 ^ n) (rest : List Bool) (f : Nat → Reading α) :
    (need n >>= fun _ => bits n >>= f) (lsb n x ++ rest) = f x rest := by
  rw [Reader.bind_ok (need_ok (by simp)),Reader.bind_ok (bits_ok hx rest)]

theorem header_bits {α : Type} {kind : Nat} (hkind : kind < 2 ^ 2) (final : Bool) (rest : List Bool)
    (f : Nat → Nat → Reading α) :
    (need 3 >>= fun _ => bits 1 >>= fun b => bits 2 >>= f b) (final :: (lsb 2 kind ++ rest)) =
      f final.toNat kind rest := by
  have hlt : final.toNat < 2 ^ 1 := Bool.toNat_lt final
  have h1 := bits_ok hlt (lsb 2 kind ++ rest)
  have hb : lsb 1 final.toNat = [final] := by cases final <;> rfl
  rw [hb,List.singleton_append] at h1
  rw [Reader.bind_ok (need_ok (by simp)),Reader.bind_ok h1,Reader.bind_ok (bits_ok hkind rest)]

theorem toNat_beq_one (final : Bool) : (final.toNat == 1) = final := by cases final <;> rfl

theorem header_stored (final : Bool) (rest : List Bool) :
    (stepHeader : Reading (Control → Control)) (final :: (lsb 2 0 ++ rest)) =
      .ok (fun c => { c with final := final,state := .storedLen },rest) := by
  rw [stepHeader,header_bits (by decide)]
  simp only [toNat_beq_one]
  rfl

theorem header_fixed (final : Bool) (rest : List Bool) :
    (stepHeader : Reading (Control → Control)) (final :: (lsb 2 1 ++ rest)) = .ok (fun c => { c with
        final := final,lens := inflFixedLen,dist := inflFixedDist,state := .symbols },rest) := by
  rw [stepHeader,header_bits (by decide)]
  simp only [toNat_beq_one]
  rfl

theorem header_dynamic (final : Bool) (rest : List Bool) :
    (stepHeader : Reading (Control → Control)) (final :: (lsb 2 2 ++ rest)) =
      .ok (fun c => { c with final := final,state := .table },rest) := by
  rw [stepHeader,header_bits (by decide)]
  simp only [toNat_beq_one]
  rfl

theorem lengths_eq : ∀ sym < 29,inflLenBase.getD sym 0 = lengthBase sym ∧
    inflLenExtra.getD sym 0 = lengthExtra sym := by decide

theorem distances_eq : ∀ sym < 30,inflDistBase.getD sym 0 = distanceBase sym ∧
    inflDistExtra.getD sym 0 = distanceExtra sym := by decide

theorem literal_read {lens dist : Huff} {ll : List Nat} (hl : Decodes lens ll) {b : UInt8}
    (hb : 0 < ll.getD b.toNat 0) (rest : List Bool) :
    (stepSymbol lens dist : Reading Symbol) (codeword ll b.toNat ++ rest) = .ok (.literal b,rest) := by
  rw [stepSymbol,Reader.bind_ok (hl b.toNat hb rest)]
  have := UInt8.toNat_lt b
  rw [if_pos (by simpa using this),UInt8.ofNat_toNat]
  rfl

theorem endOfBlock_read {lens dist : Huff} {ll : List Nat} (hl : Decodes lens ll)
    (hb : 0 < ll.getD 256 0) (rest : List Bool) :
    (stepSymbol lens dist : Reading Symbol) (codeword ll 256 ++ rest) = .ok (.endOfBlock,rest) := by
  rw [stepSymbol,Reader.bind_ok (hl 256 hb rest)]
  rfl

theorem copy_read {lens dist : Huff} {ll dl : List Nat} (hl : Decodes lens ll)
    (hd : Decodes dist dl) {sym extra dsym dextra : Nat} (hsym : sym < 29)
    (hextra : extra < 2 ^ lengthExtra sym) (hll : 0 < ll.getD (257 + sym) 0) (hdsym : dsym < 30)
    (hdextra : dextra < 2 ^ distanceExtra dsym) (hdl : 0 < dl.getD dsym 0) (rest : List Bool) :
    (stepSymbol lens dist : Reading Symbol) (codeword ll (257 + sym) ++
      (lsb (lengthExtra sym) extra ++ (codeword dl dsym ++ (lsb (distanceExtra dsym) dextra ++ rest)))) =
        .ok (.copy (lengthBase sym + extra) (distanceBase dsym + dextra),rest) := by
  obtain ⟨hlb,hle⟩ := lengths_eq sym hsym
  obtain ⟨hdb,hde⟩ := distances_eq dsym hdsym
  rw [stepSymbol,Reader.bind_ok (hl _ hll _)]
  dsimp only
  rw [if_neg (by omega),if_neg (by omega),Nat.add_sub_cancel_left,if_neg (by omega),hlb,hle,
    take_bits hextra,Reader.bind_ok (hd _ hdl _),if_neg (by omega),hdb,hde,take_bits hdextra]
  rfl

theorem repeatBack_eq (distance n : Nat) (out : List UInt8) (h : distance ≤ out.length) :
    Inflater.copyBack out (out.length - distance) n = repeatBack distance n out := by
  induction n generalizing out with
  | zero => rfl
  | succ n ih =>
    rw [repeatBack,← ih _ (by rw [List.length_append]; omega),Inflater.copyBack,Inflater.copyBack,
      List.range_succ_eq_map,List.foldl_cons,List.foldl_map]
    have hstart : (out ++ [out.getD (out.length - distance) 0]).length - distance =
        out.length - distance + 1 := by
      rw [List.length_append,List.length_singleton,Nat.sub_add_comm h]
    simp only [Nat.add_zero,hstart,Nat.succ_eq_add_one,Nat.add_assoc,Nat.add_comm 1]

variable {a : Machine} {ll dl : List Nat}

theorem symbols_next (hs : a.control.state = .symbols) {sym : Symbol} {rest : List Bool}
    (hr : (stepSymbol a.control.lens a.control.dist : Reading Symbol) a.bits = .ok (sym,rest)) :
    a.next = Machine.emit { a with bits := rest } sym := by
  simp only [next,hs]
  exact after_ok hr

theorem token_next (hs : a.control.state = .symbols) (hl : Decodes a.control.lens ll)
    (hd : Decodes a.control.dist dl) {t : Token} {bits rest : List Bool} (ht : TokenBits ll dl t bits)
    (hv : t.Valid a.out) (hb : a.bits = bits ++ rest) :
    Next a { a with out := t.expand a.out,bits := rest } := by
  cases ht with
  | literal b hlen =>
    rw [Next,symbols_next hs (hb ▸ literal_read hl hlen rest)]
    rfl
  | copy sym extra dsym dextra hsym hextra hll hdsym hdextra hdl =>
    have hread := copy_read hl hd hsym hextra hll hdsym hdextra hdl rest
    simp only [List.append_assoc] at hb
    rw [← hb] at hread
    obtain ⟨-,-,-,-,hback⟩ := hv
    rw [Next,symbols_next hs hread,Machine.emit,if_neg (not_lt.mpr hback),repeatBack_eq _ _ _ hback]
    rfl

theorem tokens_run (hs : a.control.state = .symbols) (hl : Decodes a.control.lens ll)
    (hd : Decodes a.control.dist dl) {tokens : List Token} {bits rest : List Bool}
    (ht : TokensBits ll dl tokens bits) (hv : ValidTokens a.out tokens) (hb : a.bits = bits ++ rest) :
    ReflTransGen Next a { a with out := expandTokens a.out tokens,bits := rest } := by
  induction ht generalizing a with
  | nil =>
    rw [List.nil_append] at hb
    subst hb
    exact .refl
  | cons t tokens bits later ht _ ih =>
    rw [List.append_assoc] at hb
    exact .head (token_next hs hl hd ht hv.1 hb)
      (ih (a := { a with out := t.expand a.out,bits := later ++ rest }) hs hl hd hv.2 rfl)

theorem symbols_run (hs : a.control.state = .symbols) (hl : Decodes a.control.lens ll)
    (hd : Decodes a.control.dist dl) (heob : 0 < ll.getD 256 0) {tokens : List Token}
    {bits rest : List Bool} (ht : TokensBits ll dl tokens bits) (hv : ValidTokens a.out tokens)
    (hb : a.bits = bits ++ (codeword ll 256 ++ rest)) :
    ReflTransGen Next a (Machine.endBlock ⟨a.control,expandTokens a.out tokens,rest⟩) := by
  refine .tail (tokens_run hs hl hd ht hv hb) ?_
  exact symbols_next (a := ⟨a.control,expandTokens a.out tokens,codeword ll 256 ++ rest⟩) hs
    (endOfBlock_read hl heob rest)

theorem storedLen_read {n : Nat} (hn : n ≤ 65535) {pad rest : List Bool}
    (hpad : (pad ++ (lsb 16 n ++ (lsb 16 (65535 - n) ++ rest))).length % 8 = pad.length) :
    (stepStoredLen : Reading (Control → Control)) (pad ++ (lsb 16 n ++ (lsb 16 (65535 - n) ++ rest))) =
      .ok (fun c => { c with storedLeft := n,state := .stored },rest) := by
  have halign : (BitSource.align : Reading Unit) (pad ++ (lsb 16 n ++ (lsb 16 (65535 - n) ++ rest))) =
      .ok ((),lsb 16 n ++ (lsb 16 (65535 - n) ++ rest)) := by
    change Outcome.ok ((),_) = _
    rw [hpad,List.drop_left' rfl]
  rw [stepStoredLen,Reader.bind_ok halign,take_bits (by omega),take_bits (by omega),if_neg (by omega)]
  rfl

theorem stored_block (hs : a.control.state = .storedLen) {data : List UInt8} (hlen : data.length ≤ 65535)
    {pad rest : List Bool}
    (hb : a.bits = pad ++ (lsb 16 data.length ++ (lsb 16 (65535 - data.length) ++ (ofBytes data ++ rest))))
    (hpad : a.bits.length % 8 = pad.length) :
    ∃ c : Control,c.final = a.control.final ∧
      ReflTransGen Next a (Machine.endBlock ⟨c,a.out ++ data,rest⟩) := by
  rw [hb] at hpad
  have hfirst : Next a ⟨{ a.control with storedLeft := data.length,state := .stored },a.out,
      ofBytes data ++ rest⟩ := by
    simp only [Next,next,hs]
    rw [after_ok (hb ▸ storedLen_read hlen hpad),update]
  have hrun := Inflater.stored_run
    (a := ⟨{ a.control with storedLeft := data.length,state := .stored },a.out,ofBytes data ++ rest⟩)
    rfl data (le_refl _) rfl
  refine ⟨{ a.control with storedLeft := data.length - data.length,state := .stored },rfl,
    (ReflTransGen.head hfirst hrun).tail ?_⟩
  simp only [Next,next,Nat.sub_self,if_true]

theorem readCodes_ok {cl : List Nat} (hcl : ∀ l ∈ cl,l ≤ 7) (order codes : List Nat)
    (rest : List Bool) :
    (readCodes order codes : Reading (List Nat))
      (order.flatMap (fun i => lsb 3 (cl.getD i 0)) ++ rest) =
        .ok (order.foldl (fun codes i => codes.set i (cl.getD i 0)) codes,rest) := by
  induction order generalizing codes with
  | nil => rfl
  | cons i order ih =>
    have hlt : cl.getD i 0 < 2 ^ 3 := by
      by_cases hi : i < cl.length
      · rw [List.getD_eq_getElem _ _ hi]
        have := hcl _ (List.getElem_mem hi)
        omega
      · rw [List.getD_eq_default _ _ (not_lt.mp hi)]
        omega
    rw [readCodes,List.flatMap_cons,List.append_assoc,take_bits hlt,ih]
    rfl

theorem sent_codes (t : Tables) :
    (codeLengthOrder.take t.ncode).foldl (fun codes i => codes.set i (t.cl.getD i 0))
      (List.replicate 19 0) = t.cl := by
  have hget : ∀ (order codes : List Nat) (j : Nat),j < codes.length →
      (order.foldl (fun codes i => codes.set i (t.cl.getD i 0)) codes).length = codes.length ∧
        (order.foldl (fun codes i => codes.set i (t.cl.getD i 0)) codes).getD j 0 =
          if j ∈ order then t.cl.getD j 0 else codes.getD j 0 := by
    intro order
    induction order with
    | nil => exact fun codes j _ => ⟨rfl,by simp⟩
    | cons i order ih =>
      intro codes j hj
      obtain ⟨hl,hg⟩ := ih (codes.set i (t.cl.getD i 0)) j (by simpa using hj)
      refine ⟨hl.trans (List.length_set ..),hg.trans ?_⟩
      rw [getD_set]
      by_cases hij : i = j
      · subst hij
        simp [hj]
      · simp [hij,Ne.symm hij]
  have hlen := (hget (codeLengthOrder.take t.ncode) (List.replicate 19 0) 0 (by simp)).1
  refine List.ext_getElem (hlen.trans (by rw [t.codeLengths.1,List.length_replicate])) fun j h₁ h₂ => ?_
  rw [t.codeLengths.1] at h₂
  have hj := (hget (codeLengthOrder.take t.ncode) (List.replicate 19 0) j (by simpa using h₂)).2
  rw [List.getD_eq_getElem _ _ h₁,getD_replicate] at hj
  rw [hj,← List.getD_eq_getElem _ 0]
  split_ifs with hmem
  · rfl
  · have hall : ∀ j < 19,j ∈ codeLengthOrder := by decide
    have hin := hall j h₂
    rw [← List.take_append_drop t.ncode codeLengthOrder,List.mem_append] at hin
    exact (t.unsent j (hin.resolve_left hmem)).symm

theorem lengthsBits_grow {cl total acc : List Nat} {bits : List Bool}
    (h : LengthsBits cl total acc bits) : acc <+: total := by
  induction h with
  | done => exact List.prefix_rfl
  | _ => exact (List.prefix_append _ _).trans ‹_›

theorem readLengths_repeat {hc : Huff} {cl acc : List Nat} (hd : Decodes hc cl) {sym prev n : Nat}
    (hsym : 16 ≤ sym) (hlen : 0 < cl.getD sym 0) {total : Nat} (hn : acc.length + n ≤ total)
    (hlt : acc.length < total) {low rest : List Bool}
    (hrun : (readRepeat acc sym : Reading (Nat × Nat)) (low ++ rest) = .ok ((prev,n),rest)) (k : Nat) :
    (readLengths hc total (k + 1) acc : Reading (List Nat)) (codeword cl sym ++ (low ++ rest)) =
      (readLengths hc total k (acc ++ List.replicate n prev) : Reading (List Nat)) rest := by
  rw [readLengths,if_neg hlt.not_ge,Reader.bind_ok (hd sym hlen _),if_neg hsym.not_gt,
    Reader.bind_ok hrun,if_neg (by simp only; omega)]

theorem lengthsBits_room {cl total acc : List Nat} {bits : List Bool} {l n : Nat}
    (h : LengthsBits cl total (acc ++ List.replicate n l) bits) : acc.length + n ≤ total.length := by
  have hpre := (lengthsBits_grow h).length_le
  rwa [List.length_append,List.length_replicate] at hpre

theorem readLengths_ok {hc : Huff} {cl total acc : List Nat} {bits : List Bool} (hd : Decodes hc cl)
    (h : LengthsBits cl total acc bits) (k : Nat) (hk : total.length ≤ acc.length + k)
    (rest : List Bool) :
    (readLengths hc total.length k acc : Reading (List Nat)) (bits ++ rest) = .ok (total,rest) := by
  induction h generalizing k with
  | done =>
    cases k with
    | zero => rfl
    | succ k =>
      rw [readLengths,if_pos (le_refl _)]
      rfl
  | length acc l bits hl hlen hrec ih =>
    have hroom := lengthsBits_room (n := 1) hrec
    obtain ⟨k,rfl⟩ : ∃ k',k = k' + 1 := ⟨k - 1,by omega⟩
    rw [readLengths,if_neg (by omega),List.append_assoc,Reader.bind_ok (hd l hlen _),if_pos hl]
    exact ih k (by rw [List.length_append,List.length_singleton]; omega)
  | again acc prev n bits hprev hn hlen hrec ih =>
    have hroom := lengthsBits_room hrec
    obtain ⟨k,rfl⟩ : ∃ k',k = k' + 1 := ⟨k - 1,by omega⟩
    have hrun : (readRepeat acc 16 : Reading (Nat × Nat)) (lsb 2 n ++ (bits ++ rest)) =
        .ok ((prev,3 + n),bits ++ rest) := by
      simp only [readRepeat,hprev]
      rw [take_bits hn]
      rfl
    rw [List.append_assoc,List.append_assoc,readLengths_repeat hd (le_refl _) hlen hroom (by omega) hrun k]
    exact ih k (by rw [List.length_append,List.length_replicate]; omega)
  | zeros acc n bits hn hlen hrec ih =>
    have hroom := lengthsBits_room hrec
    obtain ⟨k,rfl⟩ : ∃ k',k = k' + 1 := ⟨k - 1,by omega⟩
    have hrun : (readRepeat acc 17 : Reading (Nat × Nat)) (lsb 3 n ++ (bits ++ rest)) =
        .ok ((0,3 + n),bits ++ rest) := by
      simp only [readRepeat]
      rw [take_bits hn]
      rfl
    rw [List.append_assoc,List.append_assoc,readLengths_repeat hd (by decide) hlen hroom (by omega) hrun k]
    exact ih k (by rw [List.length_append,List.length_replicate]; omega)
  | manyZeros acc n bits hn hlen hrec ih =>
    have hroom := lengthsBits_room hrec
    obtain ⟨k,rfl⟩ : ∃ k',k = k' + 1 := ⟨k - 1,by omega⟩
    have hrun : (readRepeat acc 18 : Reading (Nat × Nat)) (lsb 7 n ++ (bits ++ rest)) =
        .ok ((0,11 + n),bits ++ rest) := by
      simp only [readRepeat]
      rw [take_bits hn]
      rfl
    rw [List.append_assoc,List.append_assoc,readLengths_repeat hd (by decide) hlen hroom (by omega) hrun k]
    exact ih k (by rw [List.length_append,List.length_replicate]; omega)

theorem kraft_filter (max : Nat) (lengths : List Nat) :
    kraft max (lengths.filter (0 < ·)) = kraft max lengths := by
  induction lengths with
  | nil => rfl
  | cons l lengths ih =>
    have hk : ∀ ls,kraft max (l :: ls) = share max l + kraft max ls := fun _ => rfl
    by_cases hl : 0 < l
    · rw [List.filter_cons_of_pos (by simpa using hl),hk,hk,ih]
    · have hzero : share max l = 0 := if_neg fun hc => hl hc.1
      rw [List.filter_cons_of_neg (by simpa using hl),hk,hzero,Nat.zero_add,ih]

theorem Single.kraft_le {lengths : List Nat} (h : Single lengths) :
    kraft inflMaxBits lengths ≤ 2 ^ inflMaxBits := by
  rw [← kraft_filter,h]
  decide

theorem Single.inflSingle {lengths : List Nat} (h : Single lengths) : inflSingle lengths = true := by
  have hcount : lengths.countP (0 < ·) = 1 := by
    rw [List.countP_eq_length_filter,h]
    rfl
  have hall : ∀ l ∈ lengths,l = 0 ∨ l = 1 := by
    intro l hl
    by_cases hpos : 0 < l
    · have hmem : l ∈ lengths.filter (0 < ·) := by simpa using ⟨hl,hpos⟩
      rw [h,List.mem_singleton] at hmem
      exact .inr hmem
    · exact .inl (Nat.eq_zero_of_not_pos hpos)
  simp only [Inflate.inflSingle,hcount,beq_self_eq_true,Bool.and_true,List.all_eq_true,
    Bool.or_eq_true,beq_iff_eq]
  exact hall

theorem Tables.distance_kraft (t : Tables) : kraft inflMaxBits t.dl ≤ 2 ^ inflMaxBits := by
  rcases t.distanceCode with h | h | h
  · exact h.le
  · exact h.kraft_le
  · have hnil : t.dl.filter (0 < ·) = [] := by
      rw [List.filter_eq_nil_iff]
      intro l hl
      simp [h l hl]
    rw [← kraft_filter,hnil]
    exact Nat.zero_le _

theorem buildTables_ok (t : Tables) (rest : List Bool) :
    ∃ hl hd,Decodes hl t.ll ∧ Decodes hd t.dl ∧
      (buildTables t.ll.length (t.ll ++ t.dl) : Reading (Control → Control)) rest =
        .ok (fun c => { c with lens := hl,dist := hd,state := .symbols },rest) := by
  have hmax : ∀ l ∈ t.ll,l ≤ inflMaxBits := fun l h => t.lengths l (List.mem_append_left _ h)
  have hmax' : ∀ l ∈ t.dl,l ≤ inflMaxBits := fun l h => t.lengths l (List.mem_append_right _ h)
  have hkraft : kraft inflMaxBits t.ll ≤ 2 ^ inflMaxBits := by
    rcases t.literalCode with h | h
    · exact h.le
    · exact h.kraft_le
  obtain ⟨hl,hbl,hdl⟩ := inflBuild_decodes hmax hkraft
  obtain ⟨hd,hbd,hdd⟩ := inflBuild_decodes hmax' t.distance_kraft
  refine ⟨hl,hd,hdl,hdd,?_⟩
  have hb : (build t.ll : Reading (Huff × Nat)) =
      Pure.pure (hl,2 ^ inflMaxBits - kraft inflMaxBits t.ll) := by simp only [build,hbl]
  have hb' : (build t.dl : Reading (Huff × Nat)) =
      Pure.pure (hd,2 ^ inflMaxBits - kraft inflMaxBits t.dl) := by simp only [build,hbd]
  have heob : (t.ll ++ t.dl).getD 256 0 ≠ 0 := by
    rw [List.getD_append _ _ _ _ (by have := t.literals.1; omega)]
    exact t.endOfBlock.ne'
  rw [buildTables,if_neg heob,List.take_left' rfl,List.drop_left' rfl,hb,hb',
    Reader.bind_ok (Reader.pure_apply _ _)]
  rw [if_neg,Reader.bind_ok (Reader.pure_apply _ _),if_neg]
  · rfl
  · rintro ⟨hleft,hsingle,hany⟩
    rcases t.distanceCode with h | h | h
    · exact hleft (by rw [h]; rfl)
    · rw [h.inflSingle] at hsingle
      cases hsingle
    · rw [List.any_eq_true] at hany
      obtain ⟨l,hl,hpos⟩ := hany
      rw [h l hl] at hpos
      cases hpos
  · rintro ⟨hleft,hsingle⟩
    rcases t.literalCode with h | h
    · exact hleft (by rw [h]; rfl)
    · rw [h.inflSingle] at hsingle
      cases hsingle

theorem table_read (t : Tables) (hnarrow : t.dl.length ≤ 30) {header : List Bool}
    (hh : t.HeaderBits header) (rest : List Bool) :
    ∃ hl hd,Decodes hl t.ll ∧ Decodes hd t.dl ∧ (stepTable : Reading (Control → Control)) (header ++ rest) =
        .ok (fun c => { c with lens := hl,dist := hd,state := .symbols },rest) := by
  obtain ⟨lens,hlens,rfl⟩ := hh
  obtain ⟨hl,hd,hdl,hdd,hbuild⟩ := buildTables_ok t rest
  refine ⟨hl,hd,hdl,hdd,?_⟩
  obtain ⟨hl₁,hl₂⟩ := t.literals
  obtain ⟨hd₁,-⟩ := t.distances
  obtain ⟨hn₁,hn₂⟩ := t.sent
  have hcl : ∀ l ∈ t.cl,l ≤ inflMaxBits := fun l h => (t.codeLengths.2 l h).trans (by decide)
  obtain ⟨hc,hbc,hdc⟩ := inflBuild_decodes hcl t.codeLengthCode.le
  have hb : (build t.cl : Reading (Huff × Nat)) = Pure.pure (hc,0) := by
    have hz : 2 ^ inflMaxBits - kraft inflMaxBits t.cl = 0 := by rw [t.codeLengthCode]; rfl
    rw [hz] at hbc
    simp only [build,hbc]
  have hll : t.ll.length - 257 + 257 = t.ll.length := by omega
  have hdl' : t.dl.length - 1 + 1 = t.dl.length := by omega
  have hnc : t.ncode - 4 + 4 = t.ncode := by omega
  have hcodes := readCodes_ok t.codeLengths.2 (codeLengthOrder.take t.ncode) (List.replicate 19 0)
    (lens ++ rest)
  rw [sent_codes] at hcodes
  have hlengths := readLengths_ok hdc hlens (t.ll ++ t.dl).length (by simp) rest
  simp only [List.append_assoc]
  rw [stepTable,Reader.bind_ok (need_ok (by simp only [List.length_append,length_lsb]; omega)),
    Reader.bind_ok (bits_ok (by omega) _),Reader.bind_ok (bits_ok (by omega) _),
    Reader.bind_ok (bits_ok (by omega) _)]
  rw [if_neg (by omega),hnc,show inflOrder = codeLengthOrder from rfl,Reader.bind_ok hcodes,hb,
    Reader.bind_ok (Reader.pure_apply _ _)]
  rw [if_neg (by simp)]
  dsimp only
  rw [hll,hdl',← List.length_append,Reader.bind_ok hlengths,hbuild]

theorem built_decodes {lengths : List Nat} (hmax : ∀ l ∈ lengths,l ≤ inflMaxBits)
    (hkraft : kraft inflMaxBits lengths ≤ 2 ^ inflMaxBits) : Decodes (built lengths) lengths := by
  obtain ⟨h,hb,hd⟩ := inflBuild_decodes hmax hkraft
  rw [built,hb]
  exact hd

theorem fixedLen_decodes : Decodes inflFixedLen fixedLengths :=
  built_decodes (by decide +kernel) (by decide +kernel)

theorem fixedDist_decodes : Decodes inflFixedDist fixedDistances :=
  built_decodes (by decide) (by decide)

theorem fixed_tokens {tokens : List Token} {bits : List Bool}
    (h : TokensBits ll rfcFixedDistances tokens bits) : TokensBits ll fixedDistances tokens bits := by
  have hcode : ∀ sym < 30,codeword rfcFixedDistances sym = codeword fixedDistances sym ∧
      0 < fixedDistances.getD sym 0 := by decide
  induction h with
  | nil => exact .nil
  | cons t tokens bits rest ht _ ih =>
    refine .cons t tokens bits rest ?_ ih
    cases ht with
    | literal b hb => exact .literal b hb
    | copy sym extra dsym dextra hsym hextra hll hdsym hdextra _ =>
      rw [(hcode dsym hdsym).1]
      exact .copy sym extra dsym dextra hsym hextra hll hdsym hdextra (hcode dsym hdsym).2

def Undone (blocks : List Block) : Prop :=
  ∀ bits pad data tail, StreamBits 0 blocks bits → pad.length < 8 → ofBytes data = bits ++ pad →
    ∃ z, Inflater.feed {} (data ++ tail) 0 = .ok (z,expandBlocks [] blocks,false) ∧
      z.state = .done ∧ z.unused = tail

theorem header_next (hs : a.control.state = .header) {f : Control → Control} {rest : List Bool}
    (hr : (stepHeader : Reading (Control → Control)) a.bits = .ok (f,rest)) :
    Next a ⟨f a.control,a.out,rest⟩ := by
  simp only [Next,next,hs]
  exact after_ok hr

theorem table_next (hs : a.control.state = .table) {f : Control → Control} {rest : List Bool}
    (hr : (stepTable : Reading (Control → Control)) a.bits = .ok (f,rest)) :
    Next a ⟨f a.control,a.out,rest⟩ := by
  simp only [Next,next,hs]
  exact after_ok hr

theorem block_run (hs : a.control.state = .header) {pos : Nat} {final : Bool} {block : Block}
    {bits rest : List Bool} (hblock : BlockBits pos final block bits) (hv : block.Valid a.out)
    (hn : block.Narrow) (hb : a.bits = bits ++ rest) (hpos : (pos + a.bits.length) % 8 = 0) :
    ∃ c : Control,c.final = final ∧
      ReflTransGen Next a (Machine.endBlock ⟨c,block.expand a.out,rest⟩) := by
  cases hblock with
  | stored data pad hpad hlen =>
    simp only [List.cons_append,List.append_assoc] at hb
    have hlength := congrArg List.length hb
    simp only [List.length_cons,List.length_append,length_lsb,length_ofBytes] at hlength
    have haligned : (pad ++ (lsb 16 data.length ++ (lsb 16 (65535 - data.length) ++
        (ofBytes data ++ rest)))).length % 8 = pad.length := by
      simp only [List.length_append,length_lsb,length_ofBytes]
      omega
    obtain ⟨c,hc,hrun⟩ := stored_block
      (a := ⟨{ a.control with final := final,state := .storedLen },a.out,_⟩) rfl hv rfl haligned
    exact ⟨c,hc,.head (header_next hs (hb ▸ header_stored final _)) hrun⟩
  | fixed tokens bits ht =>
    simp only [List.cons_append,List.append_assoc] at hb
    have heob : 0 < fixedLengths.getD 256 0 := by decide +kernel
    generalize hc : ({ a.control with
      final := final,lens := inflFixedLen,dist := inflFixedDist,state := .symbols } : Control) = c
    have hlens : c.lens = inflFixedLen := by rw [← hc]
    have hdist : c.dist = inflFixedDist := by rw [← hc]
    have hrun := symbols_run (a := ⟨c,a.out,bits ++ (codeword fixedLengths 256 ++ rest)⟩)
      (by rw [← hc]) (hlens ▸ fixedLen_decodes) (hdist ▸ fixedDist_decodes) heob (fixed_tokens ht) hv rfl
    refine ⟨c,by rw [← hc],.head (header_next hs (hb ▸ header_fixed final _)) ?_⟩
    rw [hc]
    exact hrun
  | dynamic tables tokens header bits hh ht =>
    simp only [List.cons_append,List.append_assoc] at hb
    obtain ⟨hl,hd,hdl,hdd,hread⟩ := table_read tables hn hh (bits ++ (codeword tables.ll 256 ++ rest))
    have htable := table_next
      (a := ⟨{ a.control with final := final,state := .table },a.out,_⟩) rfl hread
    have hrun := symbols_run
      (a := ⟨{ a.control with final := final,lens := hl,dist := hd,state := .symbols },a.out,
        bits ++ (codeword tables.ll 256 ++ rest)⟩)
      rfl hdl hdd tables.endOfBlock ht hv rfl
    refine ⟨_,?_,.head (header_next hs (hb ▸ header_dynamic final _)) (.head htable hrun)⟩
    rfl

theorem stream_run (hs : a.control.state = .header) {pos : Nat} {blocks : List Block}
    {bits rest : List Bool} (hstream : StreamBits pos blocks bits) (hv : ValidBlocks a.out blocks)
    (hn : ∀ b ∈ blocks,b.Narrow) (hb : a.bits = bits ++ rest)
    (hpos : (pos + a.bits.length) % 8 = 0) :
    ∃ c : Control,c.final = true ∧
      ReflTransGen Next a (Machine.endBlock ⟨c,expandBlocks a.out blocks,rest⟩) := by
  induction hstream generalizing a with
  | last pos block bits hblock => exact block_run hs hblock hv.1 (hn block (by simp)) hb hpos
  | cons pos block blocks bits later hblock _ ih =>
    rw [List.forall_mem_cons] at hn
    rw [List.append_assoc] at hb
    obtain ⟨c,hc,hrun⟩ := block_run hs hblock hv.1 hn.1 hb hpos
    have hlen := congrArg List.length hb
    rw [List.length_append] at hlen
    rw [Machine.endBlock,if_pos hc] at hrun
    obtain ⟨c',hc',hrun'⟩ := ih
      (a := ⟨{ c with state := .header },block.expand a.out,later ++ rest⟩) rfl hv.2 hn.2 rfl (by
        simp only
        omega)
    exact ⟨c',hc',hrun.trans hrun'⟩

theorem inflate_undoes_deflate (blocks : List Block) (hvalid : ValidBlocks [] blocks)
    (hnarrow : ∀ b ∈ blocks, b.Narrow) : Undone blocks := by
  intro bits pad data tail hstream hpad hdata
  have hbits : ((Machine.start []).extend (ofBytes (data ++ tail))).bits =
      bits ++ (pad ++ ofBytes tail) := by
    simp only [Machine.start,extend,List.nil_append,ofBytes_append,hdata,List.append_assoc]
  have hlen := congrArg List.length hdata
  rw [length_ofBytes,List.length_append] at hlen
  obtain ⟨c,hc,hrun⟩ := stream_run (a := (Machine.start []).extend (ofBytes (data ++ tail))) rfl hstream
    hvalid hnarrow hbits (by rw [hbits]; simp only [List.length_append,length_ofBytes]; omega)
  have hdrop : (pad ++ ofBytes tail).drop ((pad ++ ofBytes tail).length % 8) = ofBytes tail := by
    have hmod : (pad ++ ofBytes tail).length % 8 = pad.length := by
      rw [List.length_append,length_ofBytes]
      omega
    rw [hmod,List.drop_left' rfl]
  rw [Machine.endBlock,if_neg (by rw [hc]; decide)] at hrun
  simp only [hdrop] at hrun
  have hfed := Inflater.start_follows.fed (by decide) (data ++ tail) 0
  have hstuck : Machine.next ⟨{ c with state := .done },expandBlocks [] blocks,ofBytes tail⟩ = .more :=
    rfl
  generalize Inflater.feed {} (data ++ tail) 0 = r at hfed ⊢
  cases hfed with
  | waiting z b d hr hf hn ho =>
    obtain rfl := Inflater.same_end hr hrun (Inflater.stuck_of_more hn) (Inflater.stuck_of_more hstuck)
    have hz : z.state = .done := congrArg Control.state hf.control
    have hd : expandBlocks [] blocks = d := ho
    exact ⟨z,by rw [hd,List.nil_append],hz,ofBytes_injective (hf.rest hz)⟩
  | paused z b d hr hf hs hpos hle ho => exact absurd hpos (lt_irrefl 0)
  | failed e b d hr hn ho =>
    obtain rfl := Inflater.same_end hr hrun (Inflater.stuck_of_fail hn) (Inflater.stuck_of_more hstuck)
    exact absurd (hstuck.symm.trans hn) (by simp)

def wideTables : Tables where
  ll := List.replicate 255 0 ++ [1,1]
  dl := [1,1] ++ List.replicate 29 0
  cl := [0,1,0,0,0,0,0,0,0,0,0,0,0,0,0,0,0,0,1]
  ncode := 18
  literals := by decide +kernel
  distances := by decide
  lengths := by decide +kernel
  endOfBlock := by decide +kernel
  literalCode := .inl (by unfold Complete; decide +kernel)
  distanceCode := .inl (by unfold Complete; decide +kernel)
  codeLengths := by decide
  codeLengthCode := by unfold Complete; decide +kernel
  sent := by decide
  unsent := by decide

theorem LengthsBits.finished {cl total acc : List Nat} (h : acc = total) :
    LengthsBits cl total acc [] := by
  subst h
  exact .done

def sampleTables : Tables := {wideTables with
  dl := [1,1]
  distances := by decide
  lengths := by decide +kernel
  distanceCode := .inl (by unfold Complete; decide +kernel)}

def sampleBlocks : List Block :=
  [.stored [66],.fixed [.literal 65,.copy 3 2],.dynamic sampleTables [.literal 255]]

def sampleStream : List UInt8 :=
  [0,1,0,254,255,66,114,4,66,64,65,112,32,0,0,0,0,0,228,191,26,4]

theorem inflate_undoes_deflate_sample :
    ∃ z, Inflater.feed {} (sampleStream ++ [7,8]) 0 = .ok (z,[66,65,66,65,66,255],false) ∧
      z.state = .done ∧ z.unused = [7,8] := by
  have hfixed : BlockBits 48 false (.fixed [.literal 65,.copy 3 2]) _ :=
    .fixed _ _ (.cons _ _ _ _ (.literal 65 (by decide +kernel))
      (.cons _ _ _ _ (.copy 0 0 1 0 (by decide) (by decide) (by decide +kernel) (by decide) (by decide)
        (by decide)) .nil))
  have hlengths : LengthsBits sampleTables.cl (sampleTables.ll ++ sampleTables.dl) [] _ :=
    .manyZeros _ 127 _ (by decide) (by decide) <|
    .manyZeros _ 106 _ (by decide) (by decide) <|
    .length _ 1 _ (by decide) (by decide) <|
    .length _ 1 _ (by decide) (by decide) <|
    .length _ 1 _ (by decide) (by decide) <|
    .length _ 1 _ (by decide) (by decide) <|
    .finished (by decide +kernel)
  have hdynamic : BlockBits 78 true (.dynamic sampleTables [.literal 255]) _ :=
    .dynamic _ _ _ _ ⟨_,hlengths,rfl⟩ (.cons _ _ _ _ (.literal 255 (by decide +kernel)) .nil)
  have hstream : StreamBits 0 sampleBlocks _ :=
    .cons 0 _ _ _ _ (.stored [66] (List.replicate 5 false) (by decide) (by decide))
      (.cons 48 _ _ _ _ hfixed (.last 78 _ _ hdynamic))
  exact inflate_undoes_deflate sampleBlocks (by simp [sampleBlocks,ValidBlocks,Block.Valid,ValidTokens,
    Token.Valid,Block.expand,Token.expand]) (by simp [sampleBlocks,Block.Narrow,sampleTables])
    _ (List.replicate 5 false) sampleStream [7,8] hstream (by decide) (by decide +kernel)

def wideStream : List UInt8 := [5,222,129,0,0,0,0,0,144,255,106,40,17]

theorem wide_table_refused :
    ¬∀ blocks : List Block, ValidBlocks [] blocks → Undone blocks := by
  intro h
  have hlengths : LengthsBits wideTables.cl (wideTables.ll ++ wideTables.dl) [] _ :=
    .manyZeros _ 127 _ (by decide) (by decide) <|
    .manyZeros _ 106 _ (by decide) (by decide) <|
    .length _ 1 _ (by decide) (by decide) <|
    .length _ 1 _ (by decide) (by decide) <|
    .length _ 1 _ (by decide) (by decide) <|
    .length _ 1 _ (by decide) (by decide) <|
    .manyZeros _ 18 _ (by decide) (by decide) <|
    .finished (by decide +kernel)
  have hblock : BlockBits 0 true (.dynamic wideTables [.literal 255]) _ :=
    .dynamic _ _ _ _ ⟨_,hlengths,rfl⟩
      (.cons _ _ _ _ (.literal 255 (by decide +kernel)) .nil)
  obtain ⟨z,hz,-,-⟩ := h [.dynamic wideTables [.literal 255]] (by
    simp [ValidBlocks,Block.Valid,ValidTokens,Token.Valid]) _ [false,false,false] wideStream []
    (.last 0 _ _ hblock) (by decide) (by decide +kernel)
  have hfails : (Inflater.feed {} (wideStream ++ []) 0).isOk = false := by decide +kernel
  rw [hz] at hfails
  exact Bool.noConfusion hfails

end OpenSteamgate.Inflate
