import OpenSteamgate.Inflate.Bounded

namespace OpenSteamgate.Inflate.Abap.Guarded

variable {α β : Type} {y y' : Decoder} {c : Except Fault α} {a : α} {f : α → Except Fault β}
  {x : Except String β} {g : Decoding α}

-- a check has fired, or the checked computation answers what the plain one does
def Same (c : Except Fault α) (x : Except String α) : Prop :=
  c = .error .slip ∨ c = x.mapError .corrupt

def Mirrors (g : Decoding α) (m : Abap.Decoding α) : Prop := ∀ y,Same (g y) (m y)

theorem Same.ite {p : Prop} [Decidable p] {c c' : Except Fault α} {x x' : Except String α} (h : Same c x)
    (h' : Same c' x') : Same (if p then c else c') (if p then x else x') := by
  split
  · exact h
  · exact h'

theorem Same.bind (h : Same c (.ok a)) (hf : Same (f a) x) : Same (c >>= f) x := by
  rcases h with rfl | rfl
  · exact .inl rfl
  · exact hf

theorem Same.next {k : α → Decoding β} {x : Except String (Option β × Decoder)}
    (h : Same (g y) (.ok (some a,y'))) (hk : Same (k a y') x) : Same ((g >>= k) y) x := by
  change Same (Attempt.bind g k y) x
  rcases h with h | h
  · exact .inl (by rw [Attempt.bind,h])
  · rwa [Attempt.bind,h]

theorem Same.lifts {k : α → Decoding β} {m : Abap.Decoding β} (h : Same c (.ok a))
    (hk : Mirrors (k a) m) : Mirrors (lift c >>= k) m := fun y => by
  rcases h with rfl | rfl
  · exact .inl rfl
  · exact hk y

theorem Same.lift (h : Same c (.ok a)) : Mirrors (lift c) (pure a) := fun y => by
  rcases h with rfl | rfl
  · exact .inl rfl
  · exact .inr rfl

theorem Mirrors.bind {m : Abap.Decoding α} {k : α → Decoding β} {l : α → Abap.Decoding β}
    (h : Mirrors g m) (hk : ∀ a,Mirrors (k a) (l a)) : Mirrors (g >>= k) (m >>= l) := fun y => by
  change Same (Attempt.bind g k y) (Attempt.bind m l y)
  rw [Attempt.bind,Attempt.bind]
  rcases h y with h | h <;> rw [h]
  · exact .inl rfl
  · rcases m y with _ | ⟨_ | a,y'⟩
    · exact .inr rfl
    · exact .inr rfl
    · exact hk a y'

section reading

theorem table_same (table : List Nat) {i : Int} (k : Nat) (hk : (i - 1).toNat = k) :
    Same (readTable table i) (.ok (table.getD k 0)) := by
  rw [readTable,hk,List.getD_eq_getElem?_getD]
  split
  · cases table[k]? with
    | none => exact .inl rfl
    | some n => exact .inr rfl
  · exact .inl rfl

theorem guard_same {p : Prop} [Decidable p] (a : α) : Same (if p then .ok a else .error .slip) (.ok a) := by
  split
  · exact .inr rfl
  · exact .inl rfl

theorem section_same (v : List UInt8) (off len : Nat) :
    Same (sectionOf v off len) (.ok ((v.drop off).take len)) := guard_same _

theorem from_same (v : List UInt8) (off : Nat) : Same (sectionFrom v off) (.ok (v.drop off)) := guard_same _

theorem keep_same (y : Decoder) : Same (keep y) (.ok y) := guard_same y

theorem refill_same (bits k : Nat) (y : Decoder) :
    Same (refill bits k y) (.ok (Decoder.refill bits k y)) := by
  induction k generalizing y with
  | zero => exact .inr rfl
  | succ k ih =>
    rw [refill,Decoder.refill]
    split
    · split
      · exact .inr rfl
      · refine (section_same _ _ 1).bind ((table_same gtPow2 y.bitcnt (by omega)).bind ((keep_same _).bind ?_))
        have hbyte : ((y.input.drop y.pos).take 1).headD 0 = y.input.getD y.pos 0 := by
          rw [List.getD_eq_getElem?_getD,← List.head?_drop]
          cases y.input.drop y.pos <;> rfl
        rw [hbyte]
        exact ih _
    · exact .inr rfl

theorem need_mirrors (n : Nat) : Mirrors (need n) (BitFeed.need n) := fun y => by
  refine (refill_same n (y.inlen - y.pos) y).bind ?_
  change Same _ (if (Decoder.refill n (y.inlen - y.pos) y).bitcnt < n then _ else _)
  split <;> exact .inr rfl

theorem bits_same (n : Nat) (y : Decoder) :
    Same (bits n y) (.ok (some (y.bitbuf % gtPow2.getD n 0),y.shift n)) := by
  rw [bits]
  split
  · exact .inl rfl
  · exact (table_same gtPow2 n (by omega)).bind ((keep_same _).bind (.inr rfl))

theorem bits_mirrors (n : Nat) : Mirrors (bits n) (BitFeed.bits n) := bits_same n

theorem bits_few {n : Nat} {k : Nat → Decoding β} {l : Nat → Abap.Decoding β} (hn : 0 < gtPow2.getD n 0)
    (hk : ∀ a < gtPow2.getD n 0,Mirrors (k a) (l a)) : Mirrors (bits n >>= k) (BitFeed.bits n >>= l) :=
  fun y => (bits_same n y).next (hk _ (Nat.mod_lt _ hn) (y.shift n))

theorem bit_mirrors : Mirrors bit (BitFeed.bits 1) := fun y => by
  rw [bit]
  split
  · exact .inl rfl
  · exact (keep_same _).bind (.inr rfl)

end reading

section blocks

theorem countLengths_same (lengths count : List Nat) : Same (countLengths lengths count)
    (.ok (lengths.foldl (fun count len => if 0 < len then count.set (len - 1) (count.getD (len - 1) 0 + 1)
      else count) count)) := by
  induction lengths generalizing count with
  | nil => exact .inr rfl
  | cons len lengths ih =>
    rw [countLengths,List.foldl_cons]
    split
    · exact (table_same count (len - 1) (by omega)).bind (ih _)
    · exact ih _

theorem sortSymbols_same (lengths : List Nat) (symbol : Nat) (offs symbols : List Nat) :
    Same (sortSymbols lengths symbol offs symbols) (.ok (Abap.sortSymbols lengths symbol offs symbols)) := by
  induction lengths generalizing symbol offs symbols with
  | nil => exact .inr rfl
  | cons len lengths ih =>
    rw [sortSymbols,Abap.sortSymbols]
    split
    · exact (table_same offs (len - 1) (by omega)).bind ((table_same symbols (offs.getD (len - 1) 0) (by omega)).bind (ih _ _ _))
    · exact ih _ _ _

theorem built_mirrors (lengths : List Nat) : Mirrors (lift (build lengths)) (built lengths) := by
  have h : Same (build lengths) (Abap.build lengths) := by
    have hcount : Same _ (.ok (Abap.countLengths lengths)) := countLengths_same lengths _
    refine hcount.bind ?_
    rw [Abap.build]
    cases leftOver (Abap.countLengths lengths) with
    | none => exact .inr rfl
    | some left => exact (sortSymbols_same lengths 0 _ _).bind (.inr rfl)
  rw [built]
  rcases h with h | h <;> rw [h]
  · exact fun _ => .inl rfl
  · cases Abap.build lengths <;> exact fun _ => .inr rfl

theorem walk_mirrors (huff : Huff) (k len code first index : Nat) :
    Mirrors (walk huff k len code first index) (Abap.walk huff k len code first index) := by
  induction k generalizing len code first index with
  | zero => exact fun _ => .inr rfl
  | succ k ih =>
    refine (need_mirrors 1).bind fun _ => bit_mirrors.bind fun bit => ?_
    refine (table_same huff.count (len - 1) (by omega)).lifts ?_
    dsimp only
    split
    · refine Same.lift (table_same huff.symbol (index + (code + bit) - first) ?_)
      omega
    · exact ih _ _ _ _

theorem decode_mirrors (huff : Huff) : Mirrors (decode huff) (Abap.decode huff) :=
  walk_mirrors huff 15 1 0 0 0

theorem header_mirrors : Mirrors stepHeader Abap.stepHeader := by
  refine (need_mirrors 3).bind fun _ => (bits_mirrors 1).bind fun final => (bits_mirrors 2).bind fun kind => ?_
  rcases kind with _ | _ | _ | _ <;> exact fun _ => .inr rfl

theorem align_same (y : Decoder) : Same (align y) (.ok (some (y.bitbuf % gtPow2.getD (y.bitcnt % 8) 0),
    y.shift (y.bitcnt % 8))) := bits_same _ y

theorem storedLen_mirrors : Mirrors stepStoredLen Abap.stepStoredLen := by
  refine fun y => (align_same y).next (((need_mirrors 16).bind fun _ => (bits_mirrors 16).bind fun len =>
    (need_mirrors 16).bind fun _ => (bits_mirrors 16).bind fun nlen => ?_) _)
  split <;> exact fun _ => .inr rfl

theorem readRepeat_mirrors (lengths : List Nat) (symbol : Nat) :
    Mirrors (readRepeat lengths symbol) (Abap.readRepeat lengths symbol) := by
  rw [readRepeat,Abap.readRepeat]
  split
  · obtain rfl | ⟨lengths,prev,rfl⟩ := List.eq_nil_or_concat lengths
    · exact fun _ => .inr rfl
    · rw [List.concat_eq_append,if_neg (by simp),List.getLast?_concat]
      refine (table_same _ lengths.length (by simp)).lifts ?_
      rw [List.getD_append_right _ _ _ _ le_rfl,Nat.sub_self]
      exact (need_mirrors 2).bind fun _ => (bits_mirrors 2).bind fun n _ => .inr rfl
  · split
    · exact (need_mirrors 3).bind fun _ => (bits_mirrors 3).bind fun n _ => .inr rfl
    · exact (need_mirrors 7).bind fun _ => (bits_mirrors 7).bind fun n _ => .inr rfl

theorem readLengths_mirrors (codes : Huff) (total k : Nat) (lengths : List Nat) :
    Mirrors (readLengths codes total k lengths) (Abap.readLengths codes total k lengths) := by
  induction k generalizing lengths with
  | zero => exact fun _ => .inr rfl
  | succ k ih =>
    rw [readLengths,Abap.readLengths]
    split
    · exact fun _ => .inr rfl
    · refine (decode_mirrors codes).bind fun symbol => ?_
      split
      · exact ih _
      · refine (readRepeat_mirrors lengths symbol).bind fun run => ?_
        split
        · exact fun _ => .inr rfl
        · exact ih _

theorem readCodes_mirrors (k : Nat) {nth : Nat} (hnth : nth + k ≤ 19) (codes : List Nat) :
    Mirrors (readCodes k (nth + 1) codes) (Abap.readCodes ((gtOrder.drop nth).take k) codes) := by
  induction k generalizing nth codes with
  | zero => exact fun _ => .inr rfl
  | succ k ih =>
    have hlength : nth < gtOrder.length := by
      change nth < 19
      omega
    rw [List.drop_eq_getElem_cons hlength,List.take_succ_cons,← List.getD_eq_getElem _ 0 hlength]
    exact (need_mirrors 3).bind fun _ => (table_same gtOrder nth (by omega)).lifts
      ((table_same codes (gtOrder.getD nth 0) (by omega)).lifts ((bits_mirrors 3).bind fun len => ih (by omega) _))

theorem buildTables_mirrors (nlen : Nat) (lengths : List Nat) :
    Mirrors (buildTables nlen lengths) (Abap.buildTables nlen lengths) := by
  refine (table_same lengths 256 (by omega)).lifts ?_
  rw [Abap.buildTables]
  split
  · exact fun _ => .inr rfl
  · refine (built_mirrors _).bind fun len => ?_
    split
    · exact fun _ => .inr rfl
    · refine (built_mirrors _).bind fun dist => ?_
      split <;> exact fun _ => .inr rfl

theorem table_mirrors : Mirrors stepTable Abap.stepTable := by
  refine (need_mirrors 14).bind fun _ => (bits_mirrors 5).bind fun nlen => (bits_mirrors 5).bind fun ndist =>
    bits_few (n := 4) (by decide) fun ncode hcode => ?_
  change ncode < 16 at hcode
  split
  · exact fun _ => .inr rfl
  · refine (readCodes_mirrors _ (by omega) _).bind fun codes => (built_mirrors codes).bind fun codes => ?_
    split
    · exact fun _ => .inr rfl
    · exact (readLengths_mirrors _ _ _ _).bind fun lengths => buildTables_mirrors _ lengths

theorem symbol_mirrors (len dist : Huff) : Mirrors (stepSymbol len dist) (Abap.stepSymbol len dist) := by
  refine (decode_mirrors len).bind fun symbol => ?_
  split
  · exact fun _ => .inr rfl
  split
  · exact fun _ => .inr rfl
  dsimp only
  split
  · exact fun _ => .inr rfl
  -- the decoder keeps the symbol less 257, the checks number it from 1
  refine (table_same gtLenExtra (symbol - 257) (by omega)).lifts ((need_mirrors _).bind fun _ => ?_)
  refine (table_same gtLenBase (symbol - 257) (by omega)).lifts ((bits_mirrors _).bind fun extra => ?_)
  refine (decode_mirrors dist).bind fun symbol => ?_
  split
  · exact fun _ => .inr rfl
  refine (table_same gtDistExtra symbol (by omega)).lifts ((need_mirrors _).bind fun _ => ?_)
  exact (table_same gtDistBase symbol (by omega)).lifts ((bits_mirrors _).bind fun farther _ => .inr rfl)

end blocks

section feeding

theorem heldBytes_same (n : Nat) (y : Decoder) :
    Same (heldBytes n y) (.ok (some (y.heldBytes n).1,(y.heldBytes n).2)) := by
  induction n generalizing y with
  | zero => exact .inr rfl
  | succ n ih =>
    change Same (if 8 ≤ y.bitcnt then _ else _) _
    rw [Decoder.heldBytes]
    split
    · exact (bits_same 8 y).next ((ih (y.shift 8)).next (.inr rfl))
    · exact .inr rfl

theorem heldBytes_frame (n : Nat) (y : Decoder) :
    ∃ held bitbuf bitcnt,y.heldBytes n = (held,{ y with bitbuf := bitbuf,bitcnt := bitcnt }) := by
  induction n generalizing y with
  | zero => exact ⟨_,_,_,rfl⟩
  | succ n ih =>
    rw [Decoder.heldBytes]
    split
    · obtain ⟨held,bitbuf,bitcnt,h⟩ := ih (y.shift 8)
      exact ⟨_,bitbuf,bitcnt,by rw [h]; rfl⟩
    · exact ⟨_,_,_,rfl⟩

theorem unused_same (n : Nat) (y : Decoder) :
    Same ((heldBytes n >>= fun held y => do
        let rest ← sectionFrom y.input y.pos
        .ok (some (),{ y with unused := y.unused ++ held ++ rest,pos := y.inlen }) : Decoding Unit) y)
      (.ok (some (),{ (y.heldBytes n).2 with
        unused := y.unused ++ (y.heldBytes n).1 ++ y.input.drop y.pos
        pos := y.inlen })) := by
  refine (heldBytes_same n y).next ((from_same _ _).bind (.inr ?_))
  obtain ⟨held,bitbuf,bitcnt,hheld⟩ := heldBytes_frame n y
  rw [hheld]
  rfl

theorem endBlock_same (y : Decoder) : Same (endBlock y) (.ok (some (),y.endBlock)) := by
  rw [endBlock,Decoder.endBlock]
  split
  · exact .inr rfl
  · have hwhole : y.bitcnt / 8 = (y.bitcnt - y.bitcnt % 8) / 8 := by omega
    rw [hwhole]
    exact (align_same _).next (unused_same _ (({ y with state := .done } : Decoder).shift (y.bitcnt % 8)))

theorem stored_mirrors : Mirrors stepStored Decoder.stepStored := fun y => by
  rw [stepStored,Decoder.stepStored]
  split
  · exact endBlock_same y
  · exact .ite (.inr rfl) ((section_same _ _ _).bind (.inr rfl))

theorem copy_same (hist : List UInt8) (length distance : Nat) :
    Same (copy hist length distance) (Decoder.copy hist length distance) := by
  rw [copy,Decoder.copy]
  split
  · exact .inr rfl
  · split
    · exact (section_same _ _ _).bind (.inr rfl)
    · refine (section_same _ _ _).bind ?_
      dsimp only [id]
      split
      · exact (section_same _ 0 _).bind (.inr rfl)
      · exact .inr rfl

theorem emit_mirrors (symbol : Symbol) : Mirrors (emit symbol) (Decoder.emit symbol) := fun y => by
  cases symbol with
  | literal b => exact .inr rfl
  | endOfBlock => exact endBlock_same y
  | copy length distance =>
    dsimp only [emit,Decoder.emit]
    rcases copy_same y.hist length distance with h | h <;> rw [h]
    · exact .inl rfl
    · cases Decoder.copy y.hist length distance <;> exact .inr rfl

theorem step_mirrors : Mirrors step Decoder.step := fun y => by
  have hcontrol : ∀ f,Mirrors (control f) (Decoder.control f) := fun _ _ => .inr rfl
  rw [step,Decoder.step]
  cases y.state with
  | header => exact header_mirrors.bind hcontrol y
  | storedLen => exact storedLen_mirrors.bind hcontrol y
  | stored => exact stored_mirrors y
  | table => exact table_mirrors.bind hcontrol y
  | symbols | done => exact (symbol_mirrors _ _).bind emit_mirrors y

theorem output_same (y : Decoder) (start : Nat) (pieces : List (List UInt8)) :
    Same (output y start pieces) (.ok (y,(pieces ++ [y.hist.drop start]).flatten)) :=
  (from_same _ _).bind (.inr rfl)

theorem feedLoop_same (maxOut k : Nat) (y : Decoder) (start emitted : Nat) (pieces : List (List UInt8)) :
    Same (feedLoop maxOut k y start emitted pieces) (Decoder.feedLoop maxOut k y start emitted pieces) := by
  induction k generalizing y start emitted pieces with
  | zero => exact output_same y start pieces
  | succ k ih =>
    rw [feedLoop,Decoder.feedLoop]
    refine .ite (output_same _ _ _) (.ite (output_same _ _ _) ?_)
    rcases step_mirrors { y with room := if 0 < maxOut then maxOut - emitted - y.hist.length + start else 0 }
      with h | h <;> rw [h]
    · exact .inl rfl
    · generalize Decoder.step _ = r
      rcases r with _ | ⟨_ | _,y'⟩
      · exact .inr rfl
      · exact output_same _ _ _
      · dsimp only [Except.mapError]
        split
        · exact .inl rfl
        · exact .ite (.ite ((section_same _ _ _).bind ((from_same _ _).bind (ih _ _ _ _)))
            ((from_same _ _).bind (ih _ _ _ _))) (ih _ _ _ _)

end feeding

-- no check of a reached decoder fires, so the checked feed is the plain one
theorem feed_mirrors (h : Reached y) (data : List UInt8) (maxOut : Nat) :
    feed (2 * (y.bitcnt + 8 * (y.input.length - y.pos + data.length)) + 2) y data maxOut =
      (y.feed data maxOut).mapError .corrupt := by
  refine Or.resolve_left (?_ : Same _ _) (feed_safe h.kept _ data maxOut).1
  rw [feed,Decoder.feed]
  by_cases hdone : y.state = .done
  · simp only [hdone,if_true]
    exact .inr rfl
  · obtain ⟨z,hz,hkept,hhost,hpos,hinput,hbitcnt⟩ := h.kept.opened
    simp only [hdone,if_false,hz,hhost,ne_eq,not_true]
    rw [← hpos,← hinput,← hbitcnt]
    by_cases hzero : 0 < z.pos
    · simp only [hzero,if_true]
      refine (from_same _ _).bind ?_
      simp only [List.length_append,List.length_drop,Nat.sub_zero]
      exact feedLoop_same _ _ _ _ _ _
    · have hnone : z.pos = 0 := by omega
      simp only [hnone,hhost,lt_irrefl,if_false,List.length_append,Nat.sub_zero]
      exact feedLoop_same _ _ _ _ _ _

theorem Reached.fed_plain {raw : List UInt8} {maxOut : Nat} (h : Reached y) (data : List UInt8)
    (hfeed : y.feed data maxOut = .ok (y',raw)) : Reached y' :=
  .fed _ data maxOut h ((feed_mirrors h data maxOut).trans (congrArg (Except.mapError _) hfeed))

end OpenSteamgate.Inflate.Abap.Guarded
