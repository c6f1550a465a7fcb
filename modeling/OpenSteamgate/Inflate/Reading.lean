import OpenSteamgate.Inflate.Decoder

namespace OpenSteamgate.Inflate

open Bits CanonicalCode BitFeed BitSource

abbrev Reading := Reader Bool String

instance : BitFeed Reading where
  need n := fun bs => if bs.length < n then .more else .ok ((),bs)
  bits n := fun bs => if bs.length < n then .more else .ok (val (bs.take n),bs.drop n)
  corrupt := Reader.fail

instance : BitSource Reading where
  align := fun bs => .ok ((),bs.drop (bs.length % 8))
  decode h := readCode h.count h.symbol

namespace Inflater

def window :
    Window Inflater Bool (Control × List UInt8 × List UInt8 × List UInt8 × Nat) where
  unit := 8
  good z := z.bitbuf < 2 ^ z.bitcnt ∧ z.pos ≤ z.input.length
  view z := lsb z.bitcnt z.bitbuf ++ ofBytes (z.input.drop z.pos)
  ahead z := z.bitcnt
  rest z := (z.toControl,z.input,z.hist,z.unused,z.room)

theorem length_view (z : Inflater) :
    (window.view z).length = z.bitcnt + 8 * (z.input.length - z.pos) := by
  simp [window]

theorem refill_spec (n k : Nat) (z : Inflater) (hz : window.good z)
    (hk : z.input.length ≤ z.pos + k) :
    window.rest (refill n k z) = window.rest z ∧ window.good (refill n k z) ∧
      window.view (refill n k z) = window.view z ∧
      ((refill n k z).bitcnt < n → (refill n k z).pos = z.input.length) := by
  induction k generalizing z with
  | zero => exact ⟨rfl,hz,rfl,fun _ => le_antisymm hz.2 hk⟩
  | succ k ih =>
    rw [refill]
    by_cases hn : z.bitcnt < n
    · rw [if_pos hn]
      cases hb : z.input[z.pos]? with
      | none =>
        rw [List.getElem?_eq_none_iff] at hb
        exact ⟨rfl,hz,rfl,fun _ => le_antisymm hz.2 hb⟩
      | some b =>
        obtain ⟨hlt,hget⟩ := List.getElem?_eq_some_iff.mp hb
        have hbyte : b.toNat < 2 ^ 8 := UInt8.toNat_lt b
        obtain ⟨hr,hg,hv,hp⟩ := ih
          { z with
            bitbuf := z.bitbuf ||| (b.toNat <<< z.bitcnt)
            bitcnt := z.bitcnt + 8
            pos := z.pos + 1 }
          ⟨or_shiftLeft_lt hz.1 hbyte,hlt⟩ (by simp only; omega)
        refine ⟨hr,hg,hv.trans ?_,hp⟩
        simp only [window,lsb_or_shiftLeft hz.1,List.drop_eq_getElem_cons hlt,ofBytes_cons,hget,
          List.append_assoc]
    · rw [if_neg hn]
      exact ⟨rfl,hz,rfl,fun h => absurd h hn⟩

theorem fill_spec (n : Nat) (z : Inflater) (hz : window.good z) :
    window.rest (z.fill n) = window.rest z ∧ window.good (z.fill n) ∧ window.view (z.fill n) = window.view z ∧
      ((z.fill n).bitcnt < n → (z.fill n).pos = z.input.length) :=
  refill_spec n _ z hz (by omega)

theorem input_of_rest {z z' : Inflater} (h : window.rest z' = window.rest z) :
    z'.input = z.input := congrArg (fun r => r.2.1) h

theorem fill_short {n : Nat} {z : Inflater} (hz : window.good z) (h : (z.fill n).bitcnt < n) :
    window.view z = lsb (z.fill n).bitcnt (z.fill n).bitbuf := by
  obtain ⟨hr,-,hv,hp⟩ := fill_spec n z hz
  rw [← hv]
  simp only [window,hp h,input_of_rest hr,List.drop_length,ofBytes_nil,List.append_nil]

theorem need_reads (k n : Nat) : Reads window k n 0 (BitFeed.need n : Decoding Unit) (BitFeed.need n) := by
  refine ⟨fun z hz _ => ?_,fun bs ext _ => ⟨?_,?_⟩,?_⟩
  · obtain ⟨hr,hg,hv,hp⟩ := fill_spec n z hz
    change Agrees window n z (if (window.view z).length < n then .more else .ok ((),window.view z))
      (if (z.fill n).bitcnt < n then .ok (none,z.fill n) else .ok (some (),z.fill n))
    by_cases h : (z.fill n).bitcnt < n
    · rw [if_pos h,if_pos (by rw [fill_short hz h,length_lsb]; exact h)]
      exact .more _ hr
    · rw [if_neg h,← hv,if_neg (by rw [length_view]; omega)]
      exact .ok () _ hr hg (not_lt.mp h)
  · intro a rest h
    change (if bs.length < n then Outcome.more else .ok ((),bs)) = _ at h
    change (if (bs ++ ext).length < n then Outcome.more else .ok ((),bs ++ ext)) = _
    split_ifs at h with hlt
    cases h
    rw [if_neg (by rw [List.length_append]; omega)]
  · intro e h
    change (if bs.length < n then Outcome.more else .ok ((),bs)) = _ at h
    split_ifs at h
  · intro bs a rest h
    change (if bs.length < n then Outcome.more else .ok ((),bs)) = _ at h
    split_ifs at h
    cases h
    exact le_refl _

theorem low_eq {z : Inflater} (n : Nat) : z.low n = z.bitbuf % 2 ^ n := by
  rw [low,Nat.one_shiftLeft,Nat.and_two_pow_sub_one_eq_mod]

theorem low_view {z : Inflater} {n : Nat} (hz : window.good z)
    (h : n ≤ z.bitcnt ∨ z.pos = z.input.length) : z.low n = val ((window.view z).take n) := by
  rw [low_eq]
  by_cases hn : n ≤ z.bitcnt
  · simp only [window]
    rw [List.take_append_of_le_length (by rwa [length_lsb]),lsb_take hn,val_lsb]
  · have hp := h.resolve_left hn
    simp only [window,hp,List.drop_length,ofBytes_nil,List.append_nil]
    rw [List.take_of_length_le (by rw [length_lsb]; omega),val_lsb,Nat.mod_eq_of_lt hz.1,
      Nat.mod_eq_of_lt (hz.1.trans_le (Nat.pow_le_pow_right (by omega) (by omega)))]

theorem shift_spec {z : Inflater} {n : Nat} (hz : window.good z) (hn : n ≤ z.bitcnt) :
    window.good (z.shift n) ∧ window.view (z.shift n) = (window.view z).drop n := by
  refine ⟨⟨?_,hz.2⟩,?_⟩
  · simp only [shift,Nat.shiftRight_eq_div_pow]
    rw [Nat.div_lt_iff_lt_mul (Nat.two_pow_pos n),← Nat.pow_add,Nat.sub_add_cancel hn]
    exact hz.1
  · simp only [window,shift,Nat.shiftRight_eq_div_pow]
    rw [List.drop_append_of_le_length (by rwa [length_lsb]),lsb_drop hn]

theorem bits_reads {k n c : Nat} (hk : k ≤ n) (hc : c ≤ k) :
    Reads window n (n - k) c (BitFeed.bits k : Decoding Nat)
      (BitFeed.bits k) := by
  refine ⟨fun z hz hn => ?_,fun bs ext _ => ⟨?_,?_⟩,?_⟩
  · have hkz : k ≤ z.bitcnt := hk.trans hn
    obtain ⟨hg,hv⟩ := shift_spec hz hkz
    change Agrees window (n - k) z (if (window.view z).length < k then .more
      else .ok (val ((window.view z).take k),(window.view z).drop k)) (.ok (some (z.low k),z.shift k))
    rw [if_neg (by rw [length_view]; omega),← low_view hz (.inl hkz),← hv]
    exact .ok _ (z.shift k) rfl hg (Nat.sub_le_sub_right hn k)
  · intro a rest h
    change (if bs.length < k then Outcome.more else .ok (val (bs.take k),bs.drop k)) = _ at h
    change (if (bs ++ ext).length < k then Outcome.more
      else .ok (val ((bs ++ ext).take k),(bs ++ ext).drop k)) = _
    split_ifs at h with hlt
    cases h
    rw [if_neg (by rw [List.length_append]; omega),List.take_append_of_le_length (by omega),
      List.drop_append_of_le_length (by omega)]
  · intro e h
    change (if bs.length < k then Outcome.more else .ok (val (bs.take k),bs.drop k)) = _ at h
    split_ifs at h
  · intro bs a rest h
    change (if bs.length < k then Outcome.more else .ok (val (bs.take k),bs.drop k)) = _ at h
    split_ifs at h
    cases h
    rw [List.length_drop]
    omega

theorem align_reads (n : Nat) : Reads window n 0 0 (BitSource.align : Decoding Unit) BitSource.align := by
  refine ⟨fun z hz _ => ?_,fun bs ext hext => ⟨?_,?_⟩,?_⟩
  · obtain ⟨hg,hv⟩ := shift_spec hz (Nat.mod_le z.bitcnt 8)
    change Agrees window 0 z (.ok ((),(window.view z).drop ((window.view z).length % 8)))
      (.ok (some (),z.shift (z.bitcnt % 8)))
    rw [length_view,Nat.add_mul_mod_self_left,← hv]
    exact .ok () _ rfl hg (Nat.zero_le _)
  · intro a rest h
    change Outcome.ok ((),bs.drop (bs.length % 8)) = _ at h
    change Outcome.ok ((),(bs ++ ext).drop ((bs ++ ext).length % 8)) = _
    cases h
    obtain ⟨m,hm⟩ := hext
    rw [List.length_append,hm,show window.unit = 8 from rfl,Nat.add_mul_mod_self_left,
      List.drop_append_of_le_length (Nat.mod_le _ _)]
  · rintro e ⟨⟩
  · intro bs a rest h
    change Outcome.ok ((),bs.drop (bs.length % 8)) = _ at h
    cases h
    rw [List.length_drop]
    omega

theorem corrupt_reads {α : Type} (n n' c : Nat) (e : String) :
    Reads window n n' c (corrupt e : Decoding α) (corrupt e) := .fail e

theorem walk_reads (h : Huff) (k l code first index : Nat) :
    Reads window 0 0 1 (walk h k l code first index : Decoding Nat) (walk h k l code first index) := by
  induction k generalizing l code first index with
  | zero => exact .fail _
  | succ k ih =>
    refine .bind_later (need_reads 0 1) fun _ => .bind (bits_reads (le_refl 1) (le_refl 1)) fun b => ?_
    simp only
    split_ifs
    · exact .pure _
    · exact (ih ..).weaken (le_refl _) (le_refl _) (by omega)

theorem walk_reading (h : Huff) (k l code first index : Nat) (hfirst : first ≤ 2 * code)
    (bs : List Bool) : (walk h k l (2 * code) first index : Reading Nat) bs =
      match descend (fun l => h.count.getD l 0) k l (2 * code) first index bs with
      | .more => .more
      | .fail _ => .fail "invalid Huffman code"
      | .ok (i,rest) => .ok (h.symbol.getD i 0,rest) := by
  induction k generalizing l code first index bs with
  | zero => rfl
  | succ k ih =>
    cases bs with
    | nil => rfl
    | cons b bs =>
      have hor : 2 * code ||| b.toNat = 2 * code + b.toNat := by
        have := or_shiftLeft (m := 1) (Bool.toNat_lt b) code
        rw [Nat.or_comm,Nat.shiftLeft_eq,Nat.pow_one,Nat.mul_comm] at this
        omega
      have hneed : (BitFeed.need 1 : Reading Unit) (b :: bs) = .ok ((),b :: bs) :=
        if_neg (by simp)
      have hbits : (BitFeed.bits 1 : Reading Nat) (b :: bs) = .ok (b.toNat,bs) := by
        change (if (b :: bs).length < 1 then Outcome.more else .ok (val [b],bs)) = _
        rw [if_neg (by simp)]
        simp [val]
      rw [walk,Reader.bind_ok hneed,Reader.bind_ok hbits]
      simp only [hor,descend,Nat.shiftLeft_eq,Nat.pow_one,Nat.mul_comm _ 2]
      split_ifs with hlt
      · simp only [Reader.pure_apply,Nat.add_sub_assoc (hfirst.trans (Nat.le_add_right _ b.toNat))]
      · exact ih (l + 1) _ _ _ (by omega) bs

theorem walk_readCode (h : Huff) :
    (walk h inflMaxBits 1 0 0 0 : Reading Nat) = BitSource.decode h :=
  funext fun bs => walk_reading h inflMaxBits 1 0 0 0 (le_refl 0) bs

theorem decode_reads (h : Huff) (n : Nat) :
    Reads window n 0 1 (BitSource.decode h : Decoding Nat) (BitSource.decode h) := by
  have hwalk := walk_reads h inflMaxBits 1 0 0 0
  rw [walk_readCode] at hwalk
  refine ⟨fun z hz _ => ?_,hwalk.steady,hwalk.takes⟩
  obtain ⟨hr,hg,hv,hp⟩ := fill_spec inflMaxBits z hz
  change Agrees window 0 z (readCode h.count h.symbol (window.view z)) (Inflater.decode h z)
  have hslow := (hwalk.agrees (z.fill inflMaxBits) hg (Nat.zero_le _)).of_rest hr
  rw [hv] at hslow
  simp only [Inflater.decode]
  split_ifs with hfast
  · obtain ⟨hne,hle⟩ := hfast
    have hlow : (z.fill inflMaxBits).low inflFastBits =
        val ((window.view z).take inflFastBits) := by
      rw [← hv]
      refine low_view hg ?_
      by_cases hn : (z.fill inflMaxBits).bitcnt < inflMaxBits
      · exact .inr ((hp hn).trans (congrArg List.length (input_of_rest hr)).symm)
      · simp only [inflMaxBits,inflFastBits] at hn ⊢
        exact .inl (by omega)
    rw [hlow] at hne hle ⊢
    obtain ⟨-,hread⟩ := h.sound (window.view z) hne
    generalize h.fast.getD (val ((window.view z).take inflFastBits)) 0 = e at hle hread ⊢
    have hmod : e &&& 15 = e % 16 := Nat.and_two_pow_sub_one_eq_mod e 4
    have hdiv : e >>> 4 = e / 16 := Nat.shiftRight_eq_div_pow e 4
    rw [hmod] at hle ⊢
    rw [hdiv]
    have hlen : e % 16 ≤ (window.view z).length := by
      rw [← hv,length_view]
      omega
    obtain ⟨hg',hv'⟩ := shift_spec hg hle
    rw [hread hlen,← hv,← hv']
    exact .ok _ _ hr hg' (Nat.zero_le _)
  · exact hslow

theorem header_reads : Reads window 0 0 1 (stepHeader : Decoding (Control → Control)) stepHeader := by
  refine .bind_later (need_reads 0 3) fun _ => .bind (bits_reads (by omega) (le_refl 1)) fun final =>
    .bind (k := 0) (bits_reads (le_refl 2) (Nat.zero_le _)) fun kind => ?_
  split
  · exact .pure _
  · exact .pure _
  · exact .pure _
  · exact corrupt_reads 0 0 0 _

theorem storedLen_reads :
    Reads window 0 0 1 (stepStoredLen : Decoding (Control → Control)) stepStoredLen := by
  refine .bind_later (align_reads 0) fun _ => .bind_later (need_reads 0 16) fun _ =>
    .bind (k := 0) (bits_reads (le_refl 16) (by omega)) fun n => .bind (need_reads 0 16) fun _ =>
      .bind (k := 0) (bits_reads (le_refl 16) (Nat.zero_le _)) fun complement => ?_
  split_ifs
  · exact corrupt_reads 0 0 0 _
  · exact .pure _

theorem codes_reads (order codes : List Nat) :
    Reads window 0 0 0 (readCodes order codes : Decoding (List Nat)) (readCodes order codes) := by
  induction order generalizing codes with
  | nil => exact .pure _
  | cons i order ih =>
    exact .bind (need_reads 0 3) fun _ =>
      .bind (k := 0) (bits_reads (le_refl 3) (Nat.zero_le _)) fun l => ih _

theorem build_reads (lengths : List Nat) :
    Reads window 0 0 0 (build lengths : Decoding (Huff × Nat)) (build lengths) := by
  unfold build
  split
  · exact corrupt_reads 0 0 0 _
  · exact .pure _

theorem repeat_reads (lengths : List Nat) (sym : Nat) :
    Reads window 0 0 0 (readRepeat lengths sym : Decoding (Nat × Nat)) (readRepeat lengths sym) := by
  unfold readRepeat
  split
  · split
    · exact corrupt_reads 0 0 0 _
    · exact .bind (need_reads 0 2) fun _ =>
        .bind (k := 0) (bits_reads (le_refl 2) (Nat.zero_le _)) fun n => .pure _
  · exact .bind (need_reads 0 3) fun _ =>
      .bind (k := 0) (bits_reads (le_refl 3) (Nat.zero_le _)) fun n => .pure _
  · exact .bind (need_reads 0 7) fun _ =>
      .bind (k := 0) (bits_reads (le_refl 7) (Nat.zero_le _)) fun n => .pure _

theorem lengths_reads (hc : Huff) (total k : Nat) (lengths : List Nat) :
    Reads window 0 0 0 (readLengths hc total k lengths : Decoding (List Nat))
      (readLengths hc total k lengths) := by
  induction k generalizing lengths with
  | zero => exact .pure _
  | succ k ih =>
    rw [readLengths,readLengths]
    split_ifs
    · exact .pure _
    · refine .bind ((decode_reads hc 0).weaken (le_refl 0) (le_refl 0) (Nat.zero_le 1)) fun sym => ?_
      split_ifs
      · exact ih _
      · refine .bind (repeat_reads lengths sym) fun run => ?_
        split_ifs
        · exact corrupt_reads 0 0 0 _
        · exact ih _

theorem buildTables_reads (nlen : Nat) (lengths : List Nat) :
    Reads window 0 0 0 (buildTables nlen lengths : Decoding (Control → Control))
      (buildTables nlen lengths) := by
  unfold buildTables
  split_ifs
  · exact corrupt_reads 0 0 0 _
  · refine .bind (build_reads _) fun hl => ?_
    split_ifs
    · exact corrupt_reads 0 0 0 _
    · refine .bind (build_reads _) fun hd => ?_
      split_ifs
      · exact corrupt_reads 0 0 0 _
      · exact .pure _

theorem table_reads : Reads window 0 0 1 (stepTable : Decoding (Control → Control)) stepTable := by
  have h5 : Reads window 14 9 1 (BitFeed.bits 5 : Decoding Nat) (BitFeed.bits 5) :=
    bits_reads (n := 14) (k := 5) (by omega) (by omega)
  have h5' : Reads window 9 4 0 (BitFeed.bits 5 : Decoding Nat) (BitFeed.bits 5) :=
    bits_reads (n := 9) (k := 5) (by omega) (by omega)
  have h4 : Reads window 4 0 0 (BitFeed.bits 4 : Decoding Nat) (BitFeed.bits 4) :=
    bits_reads (le_refl 4) (Nat.zero_le 4)
  unfold stepTable
  refine .bind_later (need_reads 0 14) fun _ => .bind h5 fun nlen => .bind h5' fun ndist =>
    .bind h4 fun ncode => ?_
  split
  · exact corrupt_reads 0 0 0 _
  · refine .bind (codes_reads _ _) fun codes => .bind (build_reads _) fun hc => ?_
    split_ifs
    · exact corrupt_reads 0 0 0 _
    · exact .bind (lengths_reads _ _ _ _) fun lengths => buildTables_reads _ _

theorem extra_reads {α : Type} (k : Nat) {f : Nat → Decoding α} {g : Nat → Reading α}
    (h : ∀ a,Reads window 0 0 0 (f a) (g a)) :
    Reads window 0 0 0 (BitFeed.need k >>= fun _ => BitFeed.bits k >>= f)
      (BitFeed.need k >>= fun _ => BitFeed.bits k >>= g) :=
  .bind (need_reads 0 k) fun _ => .bind ((bits_reads (le_refl k) (Nat.zero_le k)).weaken (le_refl k)
    (Nat.zero_le _) (le_refl 0)) h

theorem symbol_reads (lens dist : Huff) :
    Reads window 0 0 1 (stepSymbol lens dist : Decoding Symbol) (stepSymbol lens dist) := by
  refine .bind (decode_reads lens 0) fun sym => ?_
  dsimp only
  split_ifs
  · exact .pure _
  · exact .pure _
  · exact corrupt_reads 0 0 0 _
  · refine extra_reads _ fun extra => .bind (k := 0)
      ((decode_reads dist 0).weaken (le_refl 0) (le_refl 0) (Nat.zero_le 1)) fun sym => ?_
    split_ifs
    · exact corrupt_reads 0 0 0 _
    · exact extra_reads _ fun extra => .pure _

end Inflater

end OpenSteamgate.Inflate
