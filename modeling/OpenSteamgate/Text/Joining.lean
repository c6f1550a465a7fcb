import Mathlib.Tactic.IntervalCases
import OpenSteamgate.Text.Decoding

namespace OpenSteamgate.Text

open Wtf8 Marked

variable {p q : Nat} {ps qs : List Nat} {v rest : List UInt8}

theorem appendRune_of_not (h : ¬Half p) (h' : p < limit) : appendRune p = encode p :=
  if_neg fun hc => hc.elim h (Nat.not_le.mpr h')

theorem surrogate16_eq (h : Half p) : surrogate16 p = encode p :=
  (encode_three (Nat.le_trans (by decide) h.1) (h.2.trans (by decide))).symm

theorem utf16Lone_eq (h : p < 65536) : utf16Lone p = encode p := by
  rw [utf16Lone]
  split
  · exact surrogate16_eq ‹_›
  · exact appendRune_of_not ‹_› (h.trans (by decide))

theorem appendRune_decodePair (hp : High p) (hq : Low q) :
    appendRune (decodePair p q) = encode (join p q) := by
  obtain ⟨hlarge,hlimit⟩ := join_bounds hp hq
  rw [decodePair,if_pos ⟨hp,hq⟩,appendRune_of_not (not_half_of_ge (by omega)) hlimit]

theorem utf16String_eq (us : List UInt16) : utf16String us = bytes (pointsOf us) := by
  rw [pointsOf]
  induction us using utf16String.induct with
  | case1 => rfl
  | case2 u =>
    rw [utf16String,utf16Lone_eq u.toNat_lt]
    exact (List.append_nil _).symm
  | case3 u t us h ih =>
    rw [utf16String,if_pos h,appendRune_decodePair h.1 h.2,ih,← bytes_cons]
    exact congrArg bytes (if_pos h).symm
  | case4 u t us h ih =>
    rw [utf16String,if_neg h,utf16Lone_eq u.toNat_lt,ih,← bytes_cons]
    exact congrArg bytes (if_neg h).symm

theorem byte_past {i : Nat} (h : v.length ≤ i) : byte v i = 0 := by
  rw [byte,List.getD_eq_getElem?_getD,List.getElem?_eq_none h]
  rfl

theorem byte_drop (v : List UInt8) (k i : Nat) : byte (v.drop k) i = byte v (k + i) := by
  rw [byte,byte,List.getD_eq_getElem?_getD,List.getD_eq_getElem?_getD,List.getElem?_drop]

theorem half_length {least greatest : Nat} (h : half v least greatest = true) : 2 < v.length := by
  obtain ⟨_,_,_,h2,_⟩ := half_iff.mp h
  by_contra hlen
  rw [byte_past (Nat.not_lt.mp hlen)] at h2
  omega

theorem byte_encode (h : p < limit) : byte (encode p ++ rest) 0 =
    if p < 128 then p else if p < 2048 then 192 + p / 64
    else if p < 65536 then 224 + p / 4096 else 240 + p / 262144 := by
  have hlimit := limit_eq
  split_ifs with h1 h2 h3
  · rw [encode_one h1]
    exact toNat_byte (by omega)
  · rw [encode_two (by omega) h2]
    exact toNat_byte (by omega)
  · rw [encode_three (by omega) h3]
    exact toNat_byte (by omega)
  · rw [encode_four (by omega)]
    exact toNat_byte (by omega)

theorem half_encode {least greatest : Nat} (h : p < limit) :
    half (encode p ++ rest) least greatest = true ↔
      p / 4096 = 13 ∧ least ≤ 128 + p / 64 % 64 ∧ 128 + p / 64 % 64 ≤ greatest := by
  have hlimit := limit_eq
  rw [half_iff]
  have hthree (hp : p / 4096 = 13) : byte (encode p ++ rest) 1 = 128 + p / 64 % 64 ∧
      byte (encode p ++ rest) 2 = 128 + p % 64 := by
    rw [encode_three (by omega) (by omega)]
    exact ⟨toNat_byte (by omega),toNat_byte (by omega)⟩
  constructor
  · rintro ⟨h0,hleast,hgreatest,_,_⟩
    rw [byte_encode h] at h0
    have hp : p / 4096 = 13 := by
      split_ifs at h0 <;> omega
    rw [(hthree hp).1] at hleast hgreatest
    exact ⟨hp,hleast,hgreatest⟩
  · rintro ⟨hp,hleast,hgreatest⟩
    obtain ⟨h1,h2⟩ := hthree hp
    rw [byte_encode h,if_neg (by omega),if_neg (by omega),if_pos (by omega),h1,h2,hp]
    exact ⟨rfl,hleast,hgreatest,by omega,by omega⟩

theorem half_encode_any (h : p < limit) :
    half (encode p ++ rest) 0xa0 0xbf = true ↔ Half p := by
  rw [half_encode h,Half]
  omega

theorem half_encode_high (h : p < limit) :
    half (encode p ++ rest) 0xa0 0xaf = true ↔ High p := by
  rw [half_encode h,High]
  omega

theorem half_encode_low (h : p < limit) :
    half (encode p ++ rest) 0xb0 0xbf = true ↔ Low p := by
  rw [half_encode h,Low]
  omega

def Stray (b : UInt8) : Prop := 128 ≤ b.toNat ∧ b.toNat < 192

theorem encode_shape (h : p < limit) :
    ∃ b bs,encode p = b :: bs ∧ ¬Stray b ∧ ∀ x ∈ bs,Stray x := by
  have hlimit := limit_eq
  have hstray {n : Nat} (hn : n < 64) : Stray (UInt8.ofNat (128 + n)) := by
    rw [Stray,toNat_byte (by omega)]
    omega
  have hlead {n : Nat} (hn : n < 256) (hn' : n < 128 ∨ 192 ≤ n) : ¬Stray (UInt8.ofNat n) := by
    rw [Stray,toNat_byte hn]
    omega
  rcases Nat.lt_or_ge p 128 with h1 | h1
  · exact ⟨_,_,encode_one h1,hlead (by omega) (by omega),List.forall_mem_nil _⟩
  rcases Nat.lt_or_ge p 2048 with h2 | h2
  · exact ⟨_,_,encode_two h1 h2,hlead (by omega) (by omega),List.forall_mem_singleton.mpr (hstray (by omega))⟩
  rcases Nat.lt_or_ge p 65536 with h3 | h3
  · exact ⟨_,_,encode_three h2 h3,hlead (by omega) (by omega),List.forall_mem_cons.mpr ⟨hstray (by omega),
        List.forall_mem_singleton.mpr (hstray (by omega))⟩⟩
  · exact ⟨_,_,encode_four h3,hlead (by omega) (by omega),
      List.forall_mem_cons.mpr ⟨hstray (by omega),List.forall_mem_cons.mpr ⟨hstray (by omega),
        List.forall_mem_singleton.mpr (hstray (by omega))⟩⟩⟩

theorem byte_code : Code (fun p => p < limit) (fun b => ¬Stray b) encode where
  shape p hp := by
    obtain ⟨b,bs,hb,hlead,htail⟩ := encode_shape hp
    exact ⟨b,bs,hb,hlead,fun x hx => not_not.mpr (htail x hx)⟩
  prefixFree p q hp hq h := by
    obtain ⟨t,ht⟩ := h
    have hdecode : decode16 (encode p ++ t) = decode16 (encode q ++ []) := by
      rw [ht,List.append_nil]
    rw [decode_encode hp,decode_encode hq] at hdecode
    exact (Prod.ext_iff.mp hdecode).1

theorem getElem_of_half {least greatest i : Nat} (h : half (v.drop i) least greatest = true) :
    ∃ hi : i < v.length,v[i] = 0xed := by
  have hlen := half_length h
  rw [List.length_drop] at hlen
  have hi : i < v.length := by omega
  have h0 := (half_iff.mp h).1
  rw [byte_drop,Nat.add_zero,byte,List.getD_eq_getElem?_getD,List.getElem?_eq_getElem hi] at h0
  exact ⟨hi,UInt8.toNat_inj.mp h0⟩

theorem hasHalf_iff : hasHalf v = true ↔ ∃ i,half (v.drop i) 0xa0 0xbf = true := by
  induction v using hasHalf.induct with
  | case1 v hlen hnone =>
    rw [hasHalf,if_pos hlen,hnone]
    refine ⟨fun h => absurd h Bool.false_ne_true,fun ⟨i,hi⟩ => ?_⟩
    obtain ⟨hlt,hv⟩ := getElem_of_half hi
    exact (List.idxOf?_eq_none_iff.mp hnone (hv ▸ List.getElem_mem hlt)).elim
  | case2 v hlen i hsome hhalf =>
    rw [hasHalf,if_pos hlen,hsome]
    exact ⟨fun _ => ⟨i,hhalf.2⟩,fun _ => if_pos hhalf⟩
  | case3 v hlen i hsome hno ih =>
    rw [hasHalf,if_pos hlen,hsome]
    refine (iff_of_eq (congrArg (· = true) (if_neg hno))).trans (ih.trans ⟨?_,?_⟩)
    · rintro ⟨k,hk⟩
      rw [List.drop_drop] at hk
      exact ⟨_,hk⟩
    · rintro ⟨j,hj⟩
      obtain ⟨hi,_,hbefore⟩ := List.idxOf?_eq_some_iff.mp hsome
      rcases Nat.lt_trichotomy j i with hlt | rfl | hgt
      · obtain ⟨_,hv⟩ := getElem_of_half hj
        exact (hbefore j hlt hv).elim
      · exact (hno ⟨half_length hj,hj⟩).elim
      · obtain ⟨k,rfl⟩ := Nat.exists_eq_add_of_le (Nat.succ_le_of_lt hgt)
        exact ⟨k,by rw [List.drop_drop]; exact hj⟩
  | case4 v hlen =>
    rw [hasHalf,if_neg hlen]
    refine ⟨fun h => absurd h Bool.false_ne_true,fun ⟨i,hi⟩ => ?_⟩
    have := half_length hi
    rw [List.length_drop] at this
    omega

theorem hasHalf_bytes (h : ∀ p ∈ ps,p < limit) : hasHalf (bytes ps) = true ↔ ∃ p ∈ ps,Half p := by
  rw [hasHalf_iff]
  constructor
  · rintro ⟨i,hi⟩
    obtain ⟨hlt,hv⟩ := getElem_of_half hi
    have hdrop := List.drop_eq_getElem_cons hlt
    have hlead : ¬Stray (bytes ps)[i] := by
      rw [hv,Stray]
      decide
    obtain ⟨j,_,_,hat⟩ := (byte_code).aligned h hlead hdrop
    have hat : (bytes ps).drop i = bytes (ps.drop j) := hat
    rw [hat] at hi
    cases hps : ps.drop j with
    | nil =>
      rw [hps] at hi
      exact absurd (half_length hi) (Nat.not_lt_zero 2)
    | cons p rest =>
      have hp : p ∈ ps := List.mem_of_mem_drop (hps ▸ List.mem_cons_self)
      rw [hps,bytes_cons,half_encode_any (h p hp)] at hi
      exact ⟨p,hp,hi⟩
  · rintro ⟨p,hp,hhalf⟩
    obtain ⟨as,bs,rfl⟩ := List.append_of_mem hp
    refine ⟨(bytes as).length,?_⟩
    rw [bytes_append,List.drop_left,bytes_cons,half_encode_any (h p hp)]
    exact hhalf

@[grind =] def joined (v : List UInt8) : List UInt8 :=
  match v with
  | [] => []
  | b :: s =>
    if pairAt (b :: s) then
      appendRune (decodePair (decode16 (b :: s)).1 (decode16 (s.drop 2)).1) ++ joined (s.drop 5)
    else b :: joined s
termination_by v.length
decreasing_by
  · rw [List.length_drop,List.length_cons]
    omega
  · exact Nat.lt_succ_self _

theorem pairAt_length (h : pairAt v = true) : 5 < v.length := by
  have := half_length (Bool.and_eq_true_iff.mp h).2
  rw [List.length_drop] at this
  omega

theorem joined_short (h : v.length ≤ 5) : joined v = v := by
  induction v with
  | nil => rw [joined]
  | cons b s ih =>
    rw [joined,if_neg fun hp => absurd (pairAt_length hp) (Nat.not_lt.mpr h),ih ((Nat.le_succ _).trans h)]

theorem joined_of_none (h : ∀ i,¬pairAt (v.drop i) = true) : joined v = v := by
  induction v with
  | nil => rw [joined]
  | cons b s ih =>
    have h0 : ¬pairAt (b :: s) = true := h 0
    rw [joined,if_neg h0,ih fun i => h (i + 1)]

theorem joined_pair (h : pairAt v = true) :
    joined v = appendRune (decodePair (decode16 v).1 (decode16 (v.drop 3)).1) ++
      joined (v.drop 6) := by
  cases v with
  | nil => exact absurd (pairAt_length h) (Nat.not_lt_zero 5)
  | cons b s =>
    rw [joined,if_pos h]
    rfl

theorem joined_other {i : Nat} (hi : i < v.length) (h : ¬pairAt (v.drop i) = true) :
    joined (v.drop i) = v[i] :: joined (v.drop (i + 1)) := by
  have hdrop := List.drop_eq_getElem_cons hi
  rw [hdrop] at h ⊢
  rw [joined,if_neg h]

theorem take_append_drop_from {i last : Nat} (h : last ≤ i) :
    (v.drop last).take (i - last) ++ v.drop i = v.drop last := by
  have hdrop : v.drop i = (v.drop last).drop (i - last) := by
    rw [List.drop_drop,Nat.add_sub_cancel' h]
  rw [hdrop,List.take_append_drop]

theorem take_drop_succ {i last : Nat} (h : last ≤ i) (hi : i < v.length) :
    (v.drop last).take (i + 1 - last) = (v.drop last).take (i - last) ++ [v[i]] := by
  rw [Nat.sub_add_comm h,List.take_add_one,List.getElem?_drop,Nat.add_sub_cancel' h,
    List.getElem?_eq_getElem hi]
  rfl

theorem decode_half (h : half v 0xa0 0xbf = true) :
    (decode16 v).1 = 53248 + byte v 1 % 64 * 64 + byte v 2 % 64 := by
  have hlead := (half_iff.mp h).1
  rw [decode16,if_pos ⟨half_length h,h⟩,hlead]

theorem joined_pair_char (h : pairAt v = true) : ∃ c,
    joined v = encode c ++ joined (v.drop 6) ∧ 65536 ≤ c ∧ c < limit := by
  obtain ⟨hfirst,hsecond⟩ := Bool.and_eq_true_iff.mp h
  have hhigh : High (decode16 v).1 := by
    obtain ⟨h0,h1,h2,h3,h4⟩ := half_iff.mp hfirst
    rw [decode_half (half_iff.mpr ⟨h0,h1,h2.trans (by decide),h3,h4⟩),High]
    omega
  have hlow : Low (decode16 (v.drop 3)).1 := by
    obtain ⟨h0,h1,h2,h3,h4⟩ := half_iff.mp hsecond
    rw [decode_half (half_iff.mpr ⟨h0,Nat.le_trans (by decide) h1,h2,h3,h4⟩),Low]
    omega
  obtain ⟨hlarge,hlimit⟩ := join_bounds hhigh hlow
  exact ⟨_,by rw [joined_pair h,appendRune_decodePair hhigh hlow],hlarge,hlimit⟩

theorem canonLoop_spec {i last : Nat} {b : List UInt8} (h : last ≤ i) :
    (canonLoop v i last b).1 ++ v.drop (canonLoop v i last b).2 =
      b ++ (v.drop last).take (i - last) ++ joined (v.drop i) := by
  induction i,last,b using canonLoop.induct v with
  | case1 i last b hlen hpair ih =>
    rw [canonLoop,if_pos hlen,if_pos hpair,ih le_rfl,joined_pair hpair,List.drop_drop,
      List.drop_drop,Nat.sub_self,List.take_zero,List.append_nil,List.append_assoc,List.append_assoc]
  | case2 i last b hlen hpair ih =>
    have hi : i < v.length := by omega
    rw [canonLoop,if_pos hlen,if_neg hpair,ih (h.trans (Nat.le_succ i)),joined_other hi hpair,
      take_drop_succ h hi,List.append_assoc,List.append_assoc,List.append_assoc,List.singleton_append]
  | case3 i last b hlen =>
    rw [canonLoop,if_neg hlen,joined_short (by rw [List.length_drop]; omega),
      List.append_assoc,take_append_drop_from h]

theorem last_le_canonLoop {i last : Nat} {b : List UInt8} (h : last ≤ i) :
    last ≤ (canonLoop v i last b).2 := by
  induction i,last,b using canonLoop.induct v with
  | case1 i last b hlen hpair ih =>
    rw [canonLoop,if_pos hlen,if_pos hpair]
    exact (h.trans (Nat.le_add_right i 6)).trans (ih le_rfl)
  | case2 i last b hlen hpair ih =>
    rw [canonLoop,if_pos hlen,if_neg hpair]
    exact ih (h.trans (Nat.le_succ i))
  | case3 i last b hlen => rw [canonLoop,if_neg hlen]

theorem canonLoop_none {i last : Nat} {b : List UInt8} (h : (canonLoop v i last b).2 = 0) :
    (canonLoop v i last b).1 = b := by
  induction i,last,b using canonLoop.induct v with
  | case1 i last b hlen hpair ih =>
    rw [canonLoop,if_pos hlen,if_pos hpair] at h
    have hlast := last_le_canonLoop (le_refl (i + 6)) |>.trans h.le
    omega
  | case2 i last b hlen hpair ih =>
    rw [canonLoop,if_pos hlen,if_neg hpair] at h ⊢
    exact ih h
  | case3 i last b hlen => rw [canonLoop,if_neg hlen]

theorem not_pairAt_of_not_hasHalf (h : ¬hasHalf v = true) (i : Nat) :
    ¬pairAt (v.drop i) = true := fun hpair => by
  obtain ⟨h0,h1,h2,h3,h4⟩ := half_iff.mp (Bool.and_eq_true_iff.mp hpair).1
  exact h ((hasHalf_iff).mpr ⟨i,half_iff.mpr ⟨h0,h1,h2.trans (by decide),h3,h4⟩⟩)

theorem canon_eq (v : List UInt8) : canon v = joined v := by
  rw [canon]
  by_cases h : hasHalf v = true
  · have hspec := canonLoop_spec (v := v) (b := []) (le_refl 0)
    have hnone : (canonLoop v 0 0 []).2 = 0 → _ := canonLoop_none
    rw [h]
    rcases hloop : canonLoop v 0 0 [] with ⟨b,last⟩
    rw [hloop] at hspec hnone
    have hspec : b ++ v.drop last = joined v := hspec
    have hnone : last = 0 → b = [] := hnone
    refine (if_neg Bool.false_ne_true).trans ?_
    by_cases hlast : last = 0
    · rw [hnone hlast,hlast] at hspec
      exact (if_pos hlast).trans hspec
    · exact (if_neg hlast).trans hspec
  · rw [if_pos (Bool.not_eq_true' _ ▸ Bool.not_eq_true _ ▸ h)]
    exact (joined_of_none (not_pairAt_of_not_hasHalf h)).symm

theorem pairAt_iff : pairAt v = true ↔
    byte v 0 = 0xed ∧ (0xa0 ≤ byte v 1 ∧ byte v 1 ≤ 0xaf) ∧ (128 ≤ byte v 2 ∧ byte v 2 < 192) ∧
      byte v 3 = 0xed ∧ (0xb0 ≤ byte v 4 ∧ byte v 4 ≤ 0xbf) ∧ 128 ≤ byte v 5 ∧ byte v 5 < 192 := by
  rw [pairAt,Bool.and_eq_true_iff,half_iff,half_iff,byte_drop,byte_drop,byte_drop]
  tauto

theorem not_pairAt_of_byte (h : byte v 0 ≠ 0xed) : ¬pairAt v = true :=
  fun hpair => h ((pairAt_iff).mp hpair).1

theorem joined_agrees (v : List UInt8) (n : Nat) (h : ∀ k < n,byte (joined v) k < 0xf0) :
    ∀ k < n,byte (joined v) k = byte v k := by
  induction v using joined.induct generalizing n with
  | case1 =>
    rw [joined]
    exact fun _ _ => rfl
  | case2 b s hpair ih =>
    intro k hk
    have h0 := h 0 (Nat.zero_lt_of_lt hk)
    obtain ⟨c,hc,hlarge,hlimit⟩ := joined_pair_char hpair
    rw [hc,byte_encode hlimit,if_neg (by omega),if_neg (by omega),if_neg (by omega)] at h0
    omega
  | case3 b s hpair ih =>
    have hv : joined (b :: s) = b :: joined s := by
      rw [joined,if_neg hpair]
    rw [hv] at h ⊢
    intro k hk
    cases k with
    | zero => rfl
    | succ k => exact ih (n - 1) (fun j hj => h (j + 1) (by omega)) k (by omega)

theorem byte_large_ne {i : Nat} (h : 65536 ≤ p) (h' : p < limit) (hi : i < 4) :
    byte (encode p ++ rest) i ≠ 0xed := by
  have hlimit := limit_eq
  have h0 := toNat_byte (n := 240 + p / 262144) (by omega)
  have h1 := toNat_byte (n := 128 + p / 4096 % 64) (by omega)
  have h2 := toNat_byte (n := 128 + p / 64 % 64) (by omega)
  have h3 := toNat_byte (n := 128 + p % 64) (by omega)
  rw [encode_four h]
  interval_cases i <;> simp only [List.cons_append,byte_zero,byte_succ] <;> omega

theorem joined_no_pair (v : List UInt8) (i : Nat) : ¬pairAt ((joined v).drop i) = true := by
  induction v using joined.induct generalizing i with
  | case1 =>
    rw [joined,List.drop_nil]
    exact not_pairAt_of_byte (by decide)
  | case2 b s hpair ih =>
    obtain ⟨c,hc,hlarge,hlimit⟩ := joined_pair_char hpair
    have hfour := encode_four hlarge
    rw [hc]
    rcases Nat.lt_or_ge i 4 with hi | hi
    · refine not_pairAt_of_byte ?_
      rw [byte_drop,Nat.add_zero]
      exact byte_large_ne hlarge hlimit hi
    · rw [List.drop_append,hfour,List.drop_eq_nil_of_le hi]
      exact ih (i - 4)
  | case3 b s hpair ih =>
    have hv : joined (b :: s) = b :: joined s := by
      rw [joined,if_neg hpair]
    rw [hv]
    cases i with
    | zero =>
      intro hpair'
      have hbytes := (pairAt_iff).mp hpair'
      have hsmall : ∀ k < 5,byte (joined s) k < 0xf0 := by
        rw [List.drop_zero] at hbytes
        simp only [byte_succ] at hbytes
        intro k hk
        interval_cases k <;> omega
      have hagree := joined_agrees s 5 hsmall
      refine hpair ((pairAt_iff).mpr ?_)
      simp only [List.drop_zero,byte_zero,byte_succ] at hbytes ⊢
      rw [← hagree 0 (by decide),← hagree 1 (by decide),← hagree 2 (by decide),
        ← hagree 3 (by decide),← hagree 4 (by decide)]
      exact hbytes
    | succ i => exact ih i

theorem canon_canon (v : List UInt8) : canon (canon v) = canon v := by
  rw [canon_eq,canon_eq v,joined_of_none (joined_no_pair v)]

theorem joined_encode (h : p < limit) (hno : ¬pairAt (encode p ++ rest) = true) :
    joined (encode p ++ rest) = encode p ++ joined rest := by
  have htail (bs : List UInt8) (hbs : ∀ b ∈ bs,Stray b) :
      joined (bs ++ rest) = bs ++ joined rest := by
    induction bs with
    | nil => rfl
    | cons b bs ih =>
      obtain ⟨hb,hbs⟩ := List.forall_mem_cons.mp hbs
      rw [List.cons_append,joined,if_neg,ih hbs,List.cons_append]
      intro hpair
      have h0 := (half_iff.mp (Bool.and_eq_true_iff.mp hpair).1).1
      rw [byte_zero] at h0
      have := hb.2
      omega
  obtain ⟨b,bs,hshape,_,hbs⟩ := encode_shape h
  rw [hshape,List.cons_append] at hno ⊢
  rw [joined,if_neg hno,htail bs hbs,List.cons_append]

theorem half_bytes_low (h : ∀ q ∈ ps,q < limit) :
    half (bytes ps) 0xb0 0xbf = true ↔ ∃ q rest,ps = q :: rest ∧ Low q := by
  cases ps with
  | nil =>
    refine ⟨fun hhalf => absurd (half_length hhalf) (Nat.not_lt_zero 2),?_⟩
    rintro ⟨q,rest,hnil,_⟩
    exact absurd hnil (List.cons_ne_nil q rest).symm
  | cons q ps =>
    rw [bytes_cons,half_encode_low (h q List.mem_cons_self)]
    refine ⟨fun hlow => ⟨q,ps,rfl,hlow⟩,?_⟩
    rintro ⟨r,rest,heq,hlow⟩
    exact (List.cons.inj heq).1 ▸ hlow

theorem pairAt_encode (h : p < limit) (hps : ∀ q ∈ ps,q < limit) :
    pairAt (encode p ++ bytes ps) = true ↔ High p ∧ ∃ q rest,ps = q :: rest ∧ Low q := by
  rw [pairAt,Bool.and_eq_true_iff,half_encode_high h,← half_bytes_low hps]
  refine and_congr_right fun hhigh => ?_
  rw [encode_three (Nat.le_trans (by decide) hhigh.1) hhigh.lt]
  rfl

theorem canon_bytes (h : ∀ p ∈ ps,p < limit) : canon (bytes ps) = bytes (fuse ps) := by
  rw [canon_eq]
  induction ps using fuse.induct with
  | case1 => rw [fuse,bytes_nil,joined]
  | case2 p =>
    have hp := h p List.mem_cons_self
    have hno : ¬pairAt (encode p ++ bytes []) = true := by
      rw [pairAt_encode hp (List.forall_mem_nil _)]
      rintro ⟨_,q,rest,hnil,_⟩
      exact absurd hnil (List.cons_ne_nil q rest).symm
    rw [fuse,bytes_cons,joined_encode hp hno,bytes_nil,joined]
  | case3 p q ps hpq ih =>
    obtain ⟨hp,hqs⟩ := List.forall_mem_cons.mp h
    obtain ⟨hq,hps⟩ := List.forall_mem_cons.mp hqs
    have hpair : pairAt (bytes (p :: q :: ps)) = true := by
      rw [bytes_cons,pairAt_encode hp hqs]
      exact ⟨hpq.1,q,ps,rfl,hpq.2⟩
    have hthree : (bytes (p :: q :: ps)).drop 3 = bytes (q :: ps) := by
      rw [bytes_cons,encode_three (Nat.le_trans (by decide) hpq.1.1) hpq.1.lt]
      rfl
    have hsix : (bytes (p :: q :: ps)).drop 6 = bytes ps := by
      have := List.drop_drop (i := 3) (j := 3) (l := bytes (p :: q :: ps))
      rw [← this,hthree,bytes_cons,encode_three (Nat.le_trans (by decide) hpq.2.1) hpq.2.lt]
      rfl
    rw [joined_pair hpair,hsix,ih hps,hthree,bytes_cons,bytes_cons,decode_encode hp,
      decode_encode hq,appendRune_decodePair hpq.1 hpq.2,fuse,if_pos hpq,bytes_cons]
  | case4 p q ps hpq ih =>
    obtain ⟨hp,hqs⟩ := List.forall_mem_cons.mp h
    have hno : ¬pairAt (encode p ++ bytes (q :: ps)) = true := by
      rw [pairAt_encode hp hqs]
      rintro ⟨hhigh,r,rest,heq,hlow⟩
      exact hpq ⟨hhigh,(List.cons.inj heq).1 ▸ hlow⟩
    rw [bytes_cons,joined_encode hp hno,ih hqs,fuse,if_neg hpq,bytes_cons]

theorem encode_half (h : Half p) : ∃ b c,encode p = [0xed,b,c] := by
  obtain ⟨h,h'⟩ := h
  have hlead : 224 + p / 4096 = 237 := by omega
  rw [encode_three (by omega) (by omega),hlead]
  exact ⟨_,_,rfl⟩

theorem settled_append (hp : Settled ps) (hq : Settled qs)
    (hno : ¬(3 ≤ (bytes ps).length ∧ 3 ≤ (bytes qs).length ∧
      byte (bytes ps) ((bytes ps).length - 3) = 0xed ∧ byte (bytes qs) 0 = 0xed)) :
    Settled (ps ++ qs) := by
  refine List.isChain_append.mpr ⟨hp,hq,fun x hx y hy hxy => hno ?_⟩
  obtain ⟨as,rfl⟩ := List.getLast?_eq_some_iff.mp hx
  obtain ⟨rest,rfl⟩ := List.head?_eq_some_iff.mp hy
  obtain ⟨b,c,hxe⟩ := encode_half hxy.1.half
  obtain ⟨d,e,hye⟩ := encode_half hxy.2.half
  have hleft : bytes (as ++ [x]) = bytes as ++ [0xed,b,c] := by
    rw [bytes_append,bytes_cons,bytes_nil,List.append_nil,hxe]
  have hlen : (bytes (as ++ [x])).length = (bytes as).length + 3 := by
    rw [hleft,List.length_append]
    rfl
  have hright : bytes (y :: rest) = 0xed :: d :: e :: bytes rest := by
    rw [bytes_cons,hye]
    rfl
  refine ⟨hlen ▸ Nat.le_add_left 3 _,?_,?_,?_⟩
  · rw [hright]
    exact Nat.le_add_left 3 _
  · have hdrop := byte_drop (bytes as ++ [0xed,b,c]) (bytes as).length 0
    rw [List.drop_left] at hdrop
    rw [hlen,Nat.add_sub_cancel,hleft]
    exact hdrop.symm
  · rw [hright]
    rfl

theorem concat_eq (hp : Canonical ps) (hq : Canonical qs) :
    concat (bytes ps) (bytes qs) = bytes (fuse (ps ++ qs)) := by
  rw [concat]
  split
  · rw [← bytes_append,canon_bytes (List.forall_mem_append.mpr ⟨hp.points,hq.points⟩)]
  · rw [fuse_of_settled (settled_append hp.settled hq.settled ‹_›),bytes_append]

end OpenSteamgate.Text
