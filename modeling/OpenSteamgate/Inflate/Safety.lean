import Mathlib.Algebra.BigOperators.Group.List.Basic
import OpenSteamgate.Inflate.Guarded

namespace OpenSteamgate.Inflate.Abap.Guarded

open Attempt (Triple)

section reading

variable {α α' : Type} {y₀ y : Decoder} {N : Decoder → Prop} {n k l : Nat} {R : α → Prop} {S : α' → Prop}

def Framed (y₀ y : Decoder) : Prop := y = { y₀ with pos := y.pos, bitbuf := y.bitbuf, bitcnt := y.bitcnt }

structure Holds (y₀ : Decoder) (n : Nat) (y : Decoder) : Prop where
  framed : Framed y₀ y
  buffered : Buffered y
  inside : y.pos ≤ y.inlen
  whole : y.inlen = y.input.length
  enough : n ≤ y.bitcnt

theorem Holds.weaken (h : Holds y₀ n y) (hk : k ≤ n) : Holds y₀ k y :=
  { h with enough := hk.trans h.enough }

def Sound (N : Decoder → Prop) (y₀ : Decoder) (n : Nat) (m : Decoding α) (R : α → Prop) (k : Nat) : Prop :=
  Triple (· ≠ .slip) N (Holds y₀ n) m fun a y => R a ∧ Holds y₀ k y

theorem Sound.bind {m : Decoding α} {f : α → Decoding α'} (hm : Sound N y₀ n m R k)
    (hf : ∀ a,R a → Sound N y₀ k (f a) S l) : Sound N y₀ n (m >>= f) S l :=
  Triple.bind hm fun a s hs => hf a hs.1 s hs.2

theorem Sound.next {m : Decoding α} {f : α → Decoding α'} {Q : α' → Decoder → Prop}
    (hm : Sound N y₀ n m R k) (hf : ∀ a,R a → Triple (· ≠ .slip) N (Holds y₀ k) (f a) Q) :
    Triple (· ≠ .slip) N (Holds y₀ n) (m >>= f) Q :=
  Triple.bind hm fun a s hs => hf a hs.1 s hs.2

theorem sound_pure {a : α} (h : R a) : Sound N y₀ n (pure a) R n := Triple.pure a fun _ hs => ⟨h,hs⟩

theorem sound_corrupt (reason : String) : Sound N y₀ n (corrupt reason : Decoding α) R k :=
  Triple.fail (by simp)

theorem Sound.post {m : Decoding α} {R' : α → Prop} (h : Sound N y₀ n m R k) (hR : ∀ a,R a → R' a) :
    Sound N y₀ n m R' k :=
  Triple.weaken h (fun _ hs => hs) fun a _ h => ⟨hR a h.1,h.2⟩

theorem sound_lift {c : Except Fault α} (hc : c ≠ .error .slip) (h : ∀ a,c = .ok a → R a) :
    Sound N y₀ n (lift c) R n := by
  intro y hy
  cases c with
  | error e => exact fun he => hc (he ▸ rfl)
  | ok a => exact ⟨h a rfl,hy⟩

theorem readTable_hit {table : List Nat} {i : Nat} (h : i < table.length) :
    readTable table ((i : Int) + 1) = .ok (table.getD i 0) := by
  rw [readTable,if_pos (by omega),Int.add_sub_cancel,Int.toNat_natCast,List.getElem?_eq_getElem h,
    List.getD_eq_getElem _ _ h]

theorem readTable_pow2 (h : n < 25) : readTable gtPow2 ((n : Int) + 1) = .ok (2 ^ n) := by
  have hlen : n < gtPow2.length := by simpa [gtPow2] using h
  rw [readTable_hit hlen,List.getD_eq_getElem _ _ hlen]
  simp [gtPow2]

theorem sectionOf_inside {v : List UInt8} {off len : Nat} (h : off + len ≤ v.length) :
    sectionOf v off len = .ok ((v.drop off).take len) := if_pos h

theorem sectionFrom_inside {v : List UInt8} {off : Nat} (h : off ≤ v.length) :
    sectionFrom v off = .ok (v.drop off) := if_pos h

theorem keep_buffered (h : Buffered y) : keep y = .ok y := if_pos h

theorem buffered_byte {b : Nat} (hb : b < 256) (h : y.bitbuf < 2 ^ y.bitcnt) :
    y.bitbuf + b * 2 ^ y.bitcnt < 2 ^ (y.bitcnt + 8) := by
  have hbyte : (b + 1) * 2 ^ y.bitcnt ≤ 256 * 2 ^ y.bitcnt := Nat.mul_le_mul_right _ hb
  rw [pow_add]
  linarith

theorem refill_sound {bits : Nat} (hbits : bits ≤ 16) (k : Nat) (h : Holds y₀ 0 y) :
    ∃ y',refill bits k y = .ok y' ∧ Holds y₀ 0 y' := by
  induction k generalizing y with
  | zero => exact ⟨y,rfl,h⟩
  | succ k ih =>
    rw [refill]
    split
    · next hshort =>
      split
      · exact ⟨y,rfl,h⟩
      · next hmore =>
        have hwhole := h.whole
        have hb := UInt8.toNat_lt (((y.input.drop y.pos).take 1).headD 0)
        have hbuffer := buffered_byte hb h.buffered.1
        rw [sectionOf_inside (by omega)]
        simp only [bind,Except.bind]
        rw [readTable_pow2 (by omega)]
        simp only
        rw [keep_buffered ⟨hbuffer,by simp only; omega⟩]
        refine ih ⟨?_,⟨hbuffer,by simp only; omega⟩,by simp only; omega,h.whole,Nat.zero_le _⟩
        have hframed := h.framed
        rw [Framed] at hframed ⊢
        rw [hframed]
    · exact ⟨y,rfl,h⟩

theorem sound_need {b : Nat} (hb : b ≤ 16) : Sound (Framed y₀) y₀ n (need b) (fun _ => True) b := by
  intro y hy
  obtain ⟨y',hrefill,hy'⟩ := refill_sound hb (y.inlen - y.pos) (hy.weaken (Nat.zero_le n))
  rw [need,hrefill]
  simp only [bind,Except.bind]
  by_cases hshort : y'.bitcnt < b
  · rw [if_pos hshort]
    exact hy'.framed
  · rw [if_neg hshort]
    exact ⟨trivial,{ hy' with enough := Nat.not_lt.mp hshort }⟩

theorem buffered_shift {b : Nat} (hb : b ≤ y.bitcnt) (h : y.bitbuf < 2 ^ y.bitcnt) :
    y.bitbuf / 2 ^ b < 2 ^ (y.bitcnt - b) := by
  rw [Nat.div_lt_iff_lt_mul (by positivity),← pow_add,Nat.sub_add_cancel hb]
  exact h

theorem Holds.shift {b : Nat} (h : Holds y₀ (b + k) y) :
    Holds y₀ k { y with bitbuf := y.bitbuf / 2 ^ b,bitcnt := y.bitcnt - b } := by
  have henough := h.enough
  have hfull := h.buffered.2
  refine ⟨?_,⟨buffered_shift (by omega) h.buffered.1,by simp only; omega⟩,h.inside,h.whole,by simp only; omega⟩
  have hframed := h.framed
  rw [Framed] at hframed ⊢
  rw [hframed]

theorem sound_bits (b k : Nat) : Sound N y₀ (b + k) (bits b) (· < 2 ^ b) k := by
  intro y hy
  have henough := hy.enough
  have hfull := hy.buffered.2
  rw [bits,if_neg (by omega),readTable_pow2 (by omega)]
  simp only [bind,Except.bind]
  rw [keep_buffered hy.shift.buffered]
  exact ⟨Nat.mod_lt _ (by positivity),hy.shift⟩

theorem sound_bit (k : Nat) : Sound N y₀ (1 + k) bit (· < 2) k := by
  intro y hy
  have henough := hy.enough
  have hshift := hy.shift
  rw [pow_one] at hshift
  rw [bit,if_neg (by omega)]
  simp only [bind,Except.bind]
  rw [keep_buffered hshift.buffered]
  exact ⟨Nat.mod_lt _ (by decide),hshift⟩

end reading

section tables

variable {lengths count offs symbols : List Nat} {huff : Huff} {y₀ : Decoder} {N : Decoder → Prop}

structure Formed (huff : Huff) : Prop where
  count : huff.count.length = 15
  symbol : huff.count.sum ≤ huff.symbol.length

theorem readTable_line {table : List Nat} {len : Nat} (hpos : 0 < len) (h : len ≤ table.length) :
    readTable table len = .ok (table.getD (len - 1) 0) := by
  have hhit := @readTable_hit table (len - 1) (by omega)
  rwa [show ((len - 1 : Nat) : Int) + 1 = len by omega] at hhit

theorem sum_increment {i : Nat} (h : i < count.length) :
    (count.set i (count.getD i 0 + 1)).sum = count.sum + 1 := by
  induction count generalizing i with
  | nil => simp at h
  | cons c count ih =>
    cases i with
    | zero =>
      simp only [List.set_cons_zero,List.getD_cons_zero,List.sum_cons]
      omega
    | succ i =>
      simp only [List.set_cons_succ,List.getD_cons_succ,List.sum_cons]
      rw [ih (by simpa using h)]
      omega

theorem countLengths_spec (hmax : ∀ l ∈ lengths,l ≤ count.length) :
    ∃ count',countLengths lengths count = .ok count' ∧ count'.length = count.length ∧
      count'.sum ≤ count.sum + lengths.length ∧
      ∀ i < count.length,count'.getD i 0 = count.getD i 0 + lengths.count (i + 1) := by
  induction lengths generalizing count with
  | nil => exact ⟨count,rfl,rfl,by simp,by simp⟩
  | cons len lengths ih =>
    have hlen := hmax len (by simp)
    have hrest : ∀ l ∈ lengths,l ≤ count.length := fun l hl => hmax l (by simp [hl])
    rw [countLengths]
    split
    · next hpos =>
      rw [readTable_line hpos hlen]
      obtain ⟨count',hcount,hlength,hsum,hget⟩ :=
        @ih (count.set (len - 1) (count.getD (len - 1) 0 + 1)) (by simpa using hrest)
      refine ⟨count',hcount,by simpa using hlength,?_,?_⟩
      · rw [sum_increment (by omega)] at hsum
        rw [List.length_cons]
        omega
      · intro i hi
        rw [hget i (by simpa using hi),Inflate.getD_set,List.count_cons]
        by_cases hi' : len - 1 = i
        · subst hi'
          rw [if_pos ⟨rfl,hi⟩,if_pos (by simp; omega)]
          omega
        · rw [if_neg (fun h => hi' h.1),if_neg (by simp; omega)]
          omega
    · next hzero =>
      obtain ⟨count',hcount,hlength,hsum,hget⟩ := ih hrest
      refine ⟨count',hcount,hlength,by rw [List.length_cons]; omega,?_⟩
      intro i hi
      rw [hget i hi,List.count_cons_of_ne (by omega)]

theorem sortSymbols_spec {symbol : Nat} (hmax : ∀ l ∈ lengths,l ≤ offs.length)
    (hroom : ∀ i < offs.length,offs.getD i 0 + lengths.count (i + 1) ≤ symbols.length) :
    ∃ symbols',sortSymbols lengths symbol offs symbols = .ok symbols' ∧
      symbols'.length = symbols.length := by
  induction lengths generalizing symbol offs symbols with
  | nil => exact ⟨symbols,rfl,rfl⟩
  | cons len lengths ih =>
    have hlen := hmax len (by simp)
    have hrest : ∀ l ∈ lengths,l ≤ offs.length := fun l hl => hmax l (by simp [hl])
    rw [sortSymbols]
    split
    · next hpos =>
      have hfree := hroom (len - 1) (by omega)
      rw [Nat.sub_add_cancel hpos,List.count_cons_self] at hfree
      have hhit := @readTable_hit symbols (offs.getD (len - 1) 0) (by omega)
      rw [readTable_line hpos hlen]
      simp only [bind,Except.bind]
      rw [hhit]
      obtain ⟨symbols',hsort,hlength⟩ := @ih (offs.set (len - 1) (offs.getD (len - 1) 0 + 1))
        (symbols.set (offs.getD (len - 1) 0) symbol) (symbol + 1) (by simpa using hrest) (by
          intro i hi
          rw [List.length_set] at hi ⊢
          have hold := hroom i hi
          rw [List.count_cons] at hold
          rw [Inflate.getD_set]
          by_cases hi' : len - 1 = i
          · subst hi'
            rw [if_pos ⟨rfl,hi⟩,Nat.sub_add_cancel hpos]
            omega
          · rw [if_neg (fun h => hi' h.1)]
            omega)
      exact ⟨symbols',hsort,by simpa using hlength⟩
    · next hzero =>
      refine ih hrest fun i hi => ?_
      have hold := hroom i hi
      rw [List.count_cons_of_ne (by omega)] at hold
      exact hold

theorem offsets_spec (count : List Nat) (off : Nat) : (offsets count off).length = count.length ∧
    ∀ i < count.length,(offsets count off).getD i 0 + count.getD i 0 ≤ off + count.sum := by
  induction count generalizing off with
  | nil => exact ⟨rfl,by simp⟩
  | cons c count ih =>
    obtain ⟨hlength,hget⟩ := ih (off + c)
    refine ⟨by simp [offsets,hlength],fun i hi => ?_⟩
    cases i with
    | zero =>
      simp only [offsets,List.getD_cons_zero,List.sum_cons]
      omega
    | succ i =>
      have hlater := hget i (by simpa using hi)
      simp only [offsets,List.getD_cons_succ,List.sum_cons]
      omega

theorem build_safe (hmax : ∀ l ∈ lengths,l ≤ 15) : build lengths ≠ .error .slip ∧
    ∀ r,build lengths = .ok r → Formed r.1 := by
  obtain ⟨count,hcount,hlength,hsum,hget⟩ :=
    @countLengths_spec lengths (List.replicate 15 0) (by simpa using hmax)
  rw [List.length_replicate] at hlength
  obtain ⟨hoffs,hoff⟩ := offsets_spec count 0
  obtain ⟨symbols,hsort,hsymbols⟩ :=
    @sortSymbols_spec lengths (offsets count 0) (List.replicate lengths.length 0) 0
      (by rw [hoffs,hlength]; exact hmax) (by
        intro i hi
        rw [hoffs] at hi
        have hroom := hoff i hi
        have heq := hget i (by simpa [hlength] using hi)
        rw [Inflate.getD_replicate,Nat.zero_add] at heq
        rw [List.sum_replicate_nat,Nat.mul_zero,Nat.zero_add] at hsum
        rw [List.length_replicate]
        omega)
  rw [build,hcount]
  simp only [bind,Except.bind]
  cases hleft : leftOver count with
  | none => simp
  | some left =>
    simp only [hsort]
    refine ⟨by simp,?_⟩
    rintro r hr
    obtain rfl := Except.ok.inj hr
    refine ⟨hlength,?_⟩
    rw [List.sum_replicate_nat,Nat.mul_zero,Nat.zero_add] at hsum
    rw [List.length_replicate] at hsymbols
    exact hsum.trans_eq hsymbols.symm

theorem sound_read {table : List Nat} {index : Int} {n : Nat} (i : Nat) (h : i < table.length)
    (hi : index = i + 1) : Sound N y₀ n (lift (readTable table index)) (· = table.getD i 0) n := by
  rw [hi,readTable_hit h]
  exact sound_lift (by simp) fun a ha => (Except.ok.inj ha).symm

theorem sum_take_line {i : Nat} (h : i < count.length) :
    (count.take (i + 1)).sum = (count.take i).sum + count.getD i 0 := by
  rw [List.sum_take_succ _ _ h,List.getD_eq_getElem _ _ h]

theorem sum_take_le (i : Nat) : (count.take i).sum ≤ count.sum := by
  conv_rhs => rw [← List.take_append_drop i count,List.sum_append]
  exact Nat.le_add_right _ _

theorem walk_sound (h : Formed huff) (k : Nat) : ∀ {len code first index : Nat},len + k = 16 → 1 ≤ len →
    first ≤ code → index = (huff.count.take (len - 1)).sum →
    Sound (Framed y₀) y₀ 0 (walk huff k len code first index) (fun _ => True) 0 := by
  induction k with
  | zero => exact fun _ _ _ _ => sound_corrupt _
  | succ k ih =>
    intro len code first index hlen hpos hfirst hindex
    refine Sound.bind (sound_need (by decide)) fun _ _ => ?_
    refine Sound.bind (sound_bit 0) fun bit hbit => ?_
    have hcount := h.count
    refine Sound.bind (sound_read (len - 1) (by omega) (by omega)) fun count hread => ?_
    have htake := @sum_take_line huff.count (len - 1) (by omega)
    have htotal := @sum_take_le huff.count (len - 1 + 1)
    have hsymbol := h.symbol
    subst hread
    split
    · next hin =>
      refine Sound.post (sound_read (index + (code + bit - first)) (by omega) (by omega)) ?_
      exact fun _ _ => trivial
    · next hout =>
      refine ih (by omega) (by omega) (by omega) ?_
      rw [hindex,← htake]
      congr 2
      omega

theorem decode_sound (h : Formed huff) : Sound (Framed y₀) y₀ 0 (decode huff) (fun _ => True) 0 :=
  walk_sound h 15 rfl le_rfl le_rfl rfl

end tables

section steps

variable {y₀ : Decoder} {huff : Huff} {lengths codes : List Nat}

structure Ready (c : Control) : Prop where
  stored : c.storedLeft ≤ 65535
  tables : c.state = .symbols → Formed c.len ∧ Formed c.dist

def Readies (f : Control → Control) : Prop := ∀ c,Ready c → Ready (f c)

theorem length_sortSymbols (lengths : List Nat) (symbol : Nat) (offs symbols : List Nat) :
    (Abap.sortSymbols lengths symbol offs symbols).length = symbols.length := by
  induction lengths generalizing symbol offs symbols with
  | nil => rfl
  | cons len lengths ih =>
    rw [Abap.sortSymbols]
    split
    · rw [ih,List.length_set]
    · exact ih _ _ _

theorem Formed.fixed {left : Nat} (hleft : leftOver (Abap.countLengths lengths) = some left)
    (hcount : (Abap.countLengths lengths).length = 15)
    (hsum : (Abap.countLengths lengths).sum ≤ lengths.length) : Formed (Abap.fixed lengths) := by
  rw [Abap.fixed,Abap.build,hleft]
  refine ⟨hcount,?_⟩
  rw [length_sortSymbols,List.length_replicate]
  exact hsum

theorem fixed_formed : Formed gsFixedLen ∧ Formed gsFixedDist := by
  constructor
  · exact @Formed.fixed _ 0 (by decide +kernel) (by decide +kernel) (by decide +kernel)
  · exact @Formed.fixed _ 2048 (by decide +kernel) (by decide +kernel) (by decide +kernel)

theorem header_sound : Sound (Framed y₀) y₀ 0 stepHeader Readies 0 := by
  refine Sound.bind (sound_need (by decide)) fun _ _ => ?_
  refine Sound.bind (sound_bits 1 2) fun final _ => ?_
  refine Sound.bind (sound_bits 2 0) fun kind _ => ?_
  split
  · exact sound_pure fun c hc => ⟨hc.stored,by simp⟩
  · refine sound_pure fun c hc => ⟨hc.stored,fun _ => ?_⟩
    simp only
    exact fixed_formed
  · exact sound_pure fun c hc => ⟨hc.stored,by simp⟩
  · exact sound_corrupt _

theorem align_sound {N : Decoder → Prop} : Sound N y₀ 0 align (fun _ => True) 0 := by
  intro y hy
  have h : Sound N y₀ (y.bitcnt % 8 + 0) (bits (y.bitcnt % 8)) (fun _ => True) 0 :=
    (sound_bits _ 0).post fun _ _ => trivial
  exact h y { hy with enough := Nat.mod_le _ _ }

theorem storedLen_sound : Sound (Framed y₀) y₀ 0 stepStoredLen Readies 0 := by
  refine Sound.bind align_sound fun _ _ => ?_
  refine Sound.bind (sound_need (by decide)) fun _ _ => ?_
  refine Sound.bind (sound_bits 16 0) fun len hlen => ?_
  refine Sound.bind (sound_need (by decide)) fun _ _ => ?_
  refine Sound.bind (sound_bits 16 0) fun nlen _ => ?_
  split
  · exact sound_corrupt _
  · exact sound_pure fun c hc => ⟨by simp only; omega,by simp⟩

theorem readCodes_sound (k : Nat) : ∀ {nth : Nat} {codes : List Nat},1 ≤ nth → nth + k ≤ 20 →
    codes.length = 19 → (∀ l ∈ codes,l ≤ 15) →
    Sound (Framed y₀) y₀ 0 (readCodes k nth codes) (fun codes => ∀ l ∈ codes,l ≤ 15) 0 := by
  induction k with
  | zero => exact fun _ _ _ hmax => sound_pure hmax
  | succ k ih =>
    intro nth codes hpos hnth hlength hmax
    have horder : ∀ i < 19,gtOrder.getD i 0 < 19 := by decide
    refine Sound.bind (sound_need (by decide)) fun _ _ => ?_
    refine Sound.bind (sound_read (nth - 1) (by simp [gtOrder]; omega) (by omega)) fun index hindex => ?_
    subst hindex
    have hindex := horder (nth - 1) (by omega)
    refine Sound.bind (sound_read _ (by omega) rfl) fun _ _ => ?_
    refine Sound.bind (sound_bits 3 0) fun len hlen => ?_
    refine ih (by omega) (by omega) (by simpa using hlength) fun l hl => ?_
    rcases List.mem_or_eq_of_mem_set hl with hl | rfl
    · exact hmax l hl
    · omega

theorem readRepeat_sound (hmax : ∀ l ∈ lengths,l ≤ 15) (symbol : Nat) :
    Sound (Framed y₀) y₀ 0 (readRepeat lengths symbol) (fun run => run.1 ≤ 15 ∧ 1 ≤ run.2) 0 := by
  rw [readRepeat]
  split
  · split
    · exact sound_corrupt _
    · next hne =>
      have hpos := List.length_pos_iff.mpr hne
      refine Sound.bind (sound_read (lengths.length - 1) (by omega) (by omega)) fun prev hprev => ?_
      refine Sound.bind (sound_need (by decide)) fun _ _ => ?_
      refine Sound.bind (sound_bits 2 0) fun n _ => sound_pure ⟨?_,by simp only; omega⟩
      rw [hprev,List.getD_eq_getElem _ _ (by omega)]
      exact hmax _ (List.getElem_mem _)
  · split
    · refine Sound.bind (sound_need (by decide)) fun _ _ => ?_
      exact Sound.bind (sound_bits 3 0) fun n _ => sound_pure ⟨Nat.zero_le _,by simp only; omega⟩
    · refine Sound.bind (sound_need (by decide)) fun _ _ => ?_
      exact Sound.bind (sound_bits 7 0) fun n _ => sound_pure ⟨Nat.zero_le _,by simp only; omega⟩

theorem readLengths_sound (h : Formed huff) {total : Nat} (k : Nat) : ∀ {lengths : List Nat},
    total ≤ lengths.length + k → (∀ l ∈ lengths,l ≤ 15) →
    Sound (Framed y₀) y₀ 0 (readLengths huff total k lengths)
      (fun lengths => total ≤ lengths.length ∧ ∀ l ∈ lengths,l ≤ 15) 0 := by
  induction k with
  | zero => exact fun htotal hmax => sound_pure ⟨htotal,hmax⟩
  | succ k ih =>
    intro lengths htotal hmax
    rw [readLengths]
    split
    · next hfull => exact sound_pure ⟨hfull,hmax⟩
    · refine Sound.bind (decode_sound h) fun symbol _ => ?_
      split
      · next hsymbol =>
        refine ih (by rw [List.length_append,List.length_singleton]; omega) fun l hl => ?_
        rcases List.mem_append.mp hl with hl | hl
        · exact hmax l hl
        · rw [List.mem_singleton.mp hl]
          omega
      · refine Sound.bind (readRepeat_sound hmax symbol) fun run hrun => ?_
        split
        · exact sound_corrupt _
        · refine ih (by rw [List.length_append,List.length_replicate]; omega) fun l hl => ?_
          rcases List.mem_append.mp hl with hl | hl
          · exact hmax l hl
          · rw [List.eq_of_mem_replicate hl]
            exact hrun.1

theorem buildTables_sound {nlen : Nat} (hlength : 257 ≤ lengths.length) (hmax : ∀ l ∈ lengths,l ≤ 15) :
    Sound (Framed y₀) y₀ 0 (buildTables nlen lengths) Readies 0 := by
  have hlens := @build_safe (lengths.take nlen) fun l hl => hmax l (List.mem_of_mem_take hl)
  have hdists := @build_safe (lengths.drop nlen) fun l hl => hmax l (List.mem_of_mem_drop hl)
  refine Sound.bind (sound_read 256 (by omega) (by rfl)) fun last _ => ?_
  split
  · exact sound_corrupt _
  · refine Sound.bind (sound_lift hlens.1 hlens.2) fun len hlen => ?_
    split
    · exact sound_corrupt _
    · refine Sound.bind (sound_lift hdists.1 hdists.2) fun dist hdist => ?_
      split
      · exact sound_corrupt _
      · exact sound_pure fun c hc => ⟨hc.stored,fun _ => ⟨hlen,hdist⟩⟩

theorem table_sound : Sound (Framed y₀) y₀ 0 stepTable Readies 0 := by
  refine Sound.bind (sound_need (by decide)) fun _ _ => ?_
  refine Sound.bind (sound_bits 5 9) fun nlen _ => ?_
  refine Sound.bind (sound_bits 5 4) fun ndist _ => ?_
  refine Sound.bind (sound_bits 4 0) fun ncode hncode => ?_
  split
  · exact sound_corrupt _
  · refine Sound.bind (readCodes_sound (ncode + 4) le_rfl (by omega) (by simp) (by simp)) fun codes hcodes => ?_
    have hbuild := build_safe hcodes
    refine Sound.bind (sound_lift hbuild.1 hbuild.2) fun codes hformed => ?_
    split
    · exact sound_corrupt _
    · refine Sound.bind (readLengths_sound hformed _ (by simp) (by simp)) fun lengths hlengths => ?_
      exact buildTables_sound (by omega) hlengths.2

def Short (symbol : Symbol) : Prop :=
  ∀ length distance,symbol = .copy length distance → length ≤ 258 ∧ 1 ≤ distance

theorem symbol_sound {len dist : Huff} (hlen : Formed len) (hdist : Formed dist) :
    Sound (Framed y₀) y₀ 0 (stepSymbol len dist) Short 0 := by
  have hlong : ∀ i < 29,gtLenExtra.getD i 0 ≤ 16 ∧ gtLenBase.getD i 0 + 2 ^ gtLenExtra.getD i 0 ≤ 259 := by
    decide +kernel
  have hfar : ∀ i < 30,gtDistExtra.getD i 0 ≤ 16 ∧ 1 ≤ gtDistBase.getD i 0 := by decide
  refine Sound.bind (decode_sound hlen) fun symbol _ => ?_
  split
  · exact sound_pure (by simp [Short])
  · split
    · exact sound_pure (by simp [Short])
    · split
      · exact sound_corrupt _
      · have hl := hlong (symbol - 257) (by omega)
        refine Sound.bind (sound_read (symbol - 257) (by simp [gtLenExtra]; omega) (by omega)) fun more hmore => ?_
        rw [← hmore] at hl
        refine Sound.bind (sound_need hl.1) fun _ _ => ?_
        refine Sound.bind (sound_read (symbol - 257) (by simp [gtLenBase]; omega) (by omega)) fun length hlength => ?_
        rw [← hlength] at hl
        refine Sound.bind (sound_bits _ 0) fun extra hextra => ?_
        refine Sound.bind (decode_sound hdist) fun symbol _ => ?_
        split
        · exact sound_corrupt _
        · next hsymbol =>
          have hd := hfar symbol (by omega)
          refine Sound.bind (sound_read symbol (by simp [gtDistExtra]; omega) rfl) fun more hmore => ?_
          rw [← hmore] at hd
          refine Sound.bind (sound_need hd.1) fun _ _ => ?_
          refine Sound.bind (sound_read symbol (by simp [gtDistBase]; omega) rfl) fun distance hdistance => ?_
          rw [← hdistance] at hd
          refine Sound.bind (sound_bits _ 0) fun farther _ => sound_pure ?_
          rintro length distance heq
          obtain ⟨rfl,rfl⟩ := Symbol.copy.inj heq
          omega

end steps

end OpenSteamgate.Inflate.Abap.Guarded
