import OpenSteamgate.Text.Joining

namespace OpenSteamgate.Text

open Wtf8 Marked

variable {p : Nat} {ps : List Nat} {k : Nat} {b : Int}

inductive Cut (ps : List Nat) : Nat → Int → Prop
  | whole (as bs : List Nat) : ps = as ++ bs → Cut ps (units as).length (bytes as).length
  | inside (as : List Nat) (p : Nat) (bs : List Nat) : ps = as ++ p :: bs → 65536 ≤ p →
      Cut ps ((units as).length + 1) (-((bytes as).length : Int) - 1)

theorem units_snoc (as : List Nat) (p : Nat) : units (as ++ [p]) = units as ++ unitsOf p := by
  rw [units_append,units_cons,units_nil,List.append_nil]

theorem bytes_snoc (as : List Nat) (p : Nat) : bytes (as ++ [p]) = bytes as ++ encode p := by
  rw [bytes_append,bytes_cons,bytes_nil,List.append_nil]

theorem units_snoc_small (as : List Nat) (h : p < 65536) :
    (units (as ++ [p])).length = (units as).length + 1 := by
  rw [units_snoc,List.length_append,unitsOf_small h]
  rfl

theorem units_snoc_large (as : List Nat) (h : 65536 ≤ p) :
    (units (as ++ [p])).length = (units as).length + 2 := by
  rw [units_snoc,List.length_append,unitsOf_large h]
  rfl

theorem bytes_snoc_length (as : List Nat) (p : Nat) :
    (bytes (as ++ [p])).length = (bytes as).length + (encode p).length := by
  rw [bytes_snoc,List.length_append]

theorem units_ne_nil (p : Nat) (ps : List Nat) : units (p :: ps) ≠ [] := by
  rw [units_cons,unitsOf]
  split
  · exact List.cons_ne_nil _ _
  · exact List.cons_ne_nil _ _

theorem units_length_pos (p : Nat) (ps : List Nat) : 0 < (units (p :: ps)).length :=
  List.length_pos_iff.mpr (units_ne_nil p ps)

theorem append_snoc (as : List Nat) (p : Nat) (bs : List Nat) :
    as ++ p :: bs = (as ++ [p]) ++ bs := by
  rw [List.append_assoc,List.singleton_append]

theorem boundaryFrom_small {rest : List UInt8} {b : Nat} (h : p < 65536) (hk : k ≠ 0) :
    boundaryFrom (encode p ++ rest) b k = boundaryFrom rest (b + (encode p).length) (k - 1) := by
  have hp : p < limit := h.trans (by decide)
  rw [boundaryFrom,dif_neg (append_ne_nil p rest),if_neg hk,drop_decoded hp,decode_encode hp]
  exact if_neg (by omega)

theorem boundaryFrom_large {rest : List UInt8} {b : Nat} (h : 65536 ≤ p) (hp : p < limit)
    (hk : k ≠ 0) : boundaryFrom (encode p ++ rest) b k =
      if k = 1 then -(b : Int) - 1
      else boundaryFrom rest (b + (encode p).length) (k - 2) := by
  rw [boundaryFrom,dif_neg (append_ne_nil p rest),if_neg hk,drop_decoded hp,decode_encode hp]
  exact if_pos (by omega)

theorem boundaryFrom_cut (h : ∀ p ∈ ps,p < limit) (as bs : List Nat) (hps : ps = as ++ bs)
    (hk : k ≤ (units bs).length) :
    Cut ps ((units as).length + k) (boundaryFrom (bytes bs) (bytes as).length k) := by
  induction bs generalizing as k with
  | nil =>
    obtain rfl : k = 0 := Nat.le_zero.mp hk
    rw [bytes_nil,boundaryFrom,dif_pos rfl]
    exact .whole as [] hps
  | cons p bs ih =>
    by_cases hzero : k = 0
    · rw [bytes_cons,boundaryFrom,dif_neg (append_ne_nil p _),if_pos hzero,hzero]
      exact .whole as (p :: bs) hps
    have hp : p < limit := h p (hps ▸ List.mem_append_right as List.mem_cons_self)
    have hps' := hps.trans (append_snoc as p bs)
    rw [units_cons,List.length_append] at hk
    rcases Nat.lt_or_ge p 65536 with hsmall | hlarge
    · rw [unitsOf_small hsmall,List.length_singleton] at hk
      have hcut := ih (k := k - 1) (as ++ [p]) hps' (by omega)
      rw [units_snoc_small as hsmall,bytes_snoc_length,Nat.add_assoc,Nat.add_sub_cancel' (by omega)] at hcut
      rw [bytes_cons,boundaryFrom_small hsmall hzero]
      exact hcut
    · rw [unitsOf_large hlarge,List.length_cons,List.length_singleton] at hk
      rw [bytes_cons,boundaryFrom_large hlarge hp hzero]
      by_cases hone : k = 1
      · rw [if_pos hone,hone]
        exact .inside as p bs hps hlarge
      · have hcut := ih (k := k - 2) (as ++ [p]) hps' (by omega)
        rw [units_snoc_large as hlarge,bytes_snoc_length,Nat.add_assoc,Nat.add_sub_cancel' (by omega)] at hcut
        rw [if_neg hone]
        exact hcut

theorem boundary_cut (h : ∀ p ∈ ps,p < limit) (hk : k ≤ (units ps).length) :
    Cut ps k (boundaryFrom (bytes ps) 0 k) := by
  have hcut := boundaryFrom_cut h [] ps rfl hk
  rwa [units_nil,List.length_nil,Nat.zero_add] at hcut

theorem drop_whole (as : List Nat) (p : Nat) (bs : List Nat) :
    (bytes (as ++ p :: bs)).drop (bytes as).length = encode p ++ bytes bs := by
  rw [bytes_append,List.drop_left,bytes_cons]

theorem seek_inside {v : List UInt8} {s b w : Nat} (hs : s < k)
    (hw : (decode16 (v.drop b)).2 = w) :
    seek v k s (-(b : Int) - 1) = seek v k (s + 1) ((b + w : Nat) : Int) := by
  have hb : (-(-(b : Int) - 1) - 1) = b := by omega
  rw [seek,if_pos hs,if_pos (by omega)]
  simp only [hb,Int.toNat_natCast,hw]
  rfl

theorem seek_small {v rest : List UInt8} {s b : Nat} (hs : s < k) (h : p < 65536)
    (hv : v.drop b = encode p ++ rest) :
    seek v k s b = seek v k (s + 1) ((b + (encode p).length : Nat) : Int) := by
  rw [seek,if_pos hs,if_neg (by omega),Int.toNat_natCast,hv,decode_encode (h.trans (by decide))]
  exact if_neg (by omega)

theorem seek_large {v rest : List UInt8} {s b : Nat} (hs : s < k) (h : 65536 ≤ p) (hp : p < limit)
    (hv : v.drop b = encode p ++ rest) :
    seek v k s b = if s + 1 = k then -(b : Int) - 1
      else seek v k (s + 2) ((b + (encode p).length : Nat) : Int) := by
  rw [seek,if_pos hs,if_neg (by omega),Int.toNat_natCast,hv,decode_encode hp]
  exact if_pos (by omega)

theorem seek_cut (h : ∀ p ∈ ps,p < limit) (n : Nat) {s : Nat} (hn : k - s ≤ n)
    (hcut : Cut ps s b) (hs : s ≤ k) (hk : k ≤ (units ps).length) :
    Cut ps k (seek (bytes ps) k s b) := by
  have hwhole (as : List Nat) (p : Nat) (bs : List Nat) (hps : ps = as ++ p :: bs) : p < limit ∧
      (bytes ps).drop (bytes as).length = encode p ++ bytes bs ∧
      Cut ps (units (as ++ [p])).length ((bytes as).length + (encode p).length : Nat) := by
    have hnext := Cut.whole (as ++ [p]) bs (hps.trans (append_snoc as p bs))
    rw [bytes_snoc_length] at hnext
    exact ⟨h p (hps ▸ List.mem_append_right as List.mem_cons_self),hps ▸ drop_whole as p bs,hnext⟩
  induction n generalizing s b with
  | zero =>
    obtain rfl : s = k := by omega
    rw [seek,if_neg (Nat.lt_irrefl _)]
    exact hcut
  | succ n ih =>
    rcases Nat.eq_or_lt_of_le hs with rfl | hlt
    · rw [seek,if_neg (Nat.lt_irrefl _)]
      exact hcut
    cases hcut with
    | whole as bs hps =>
      cases bs with
      | nil =>
        rw [List.append_nil] at hps
        rw [hps] at hk
        omega
      | cons p bs =>
        obtain ⟨hp,hdrop,hnext⟩ := hwhole as p bs hps
        rcases Nat.lt_or_ge p 65536 with hsmall | hlarge
        · rw [units_snoc_small as hsmall] at hnext
          rw [seek_small hlt hsmall hdrop]
          exact ih (by omega) hnext (by omega)
        · rw [units_snoc_large as hlarge] at hnext
          rw [seek_large hlt hlarge hp hdrop]
          split
          · obtain rfl : (units as).length + 1 = k := ‹_›
            exact .inside as p bs hps hlarge
          · exact ih (by omega) hnext (by omega)
    | inside as p bs hps hlarge =>
      obtain ⟨hp,hdrop,hnext⟩ := hwhole as p bs hps
      rw [units_snoc_large as hlarge] at hnext
      rw [seek_inside hlt (by rw [hdrop,decode_encode hp])]
      exact ih (by omega) hnext (by omega)

def Marks (ps : List Nat) (u : Nat) (entries : List Int) : Prop :=
  ∀ j, 64 * ((u + 63) / 64 + j) < (units ps).length →
    ∃ e, entries[j]? = some e ∧ Cut ps (64 * ((u + 63) / 64 + j)) e

theorem Marks.cons {u : Nat} {e : Int} {entries : List Int} (h : Marks ps (u + 1) entries)
    (hcut : Cut ps u e) : Marks ps u ((if u % 64 = 0 then [e] else []) ++ entries) := by
  intro j hj
  split
  · have hu : (u + 1 + 63) / 64 = (u + 63) / 64 + 1 := by omega
    cases j with
    | zero =>
      have hu' : 64 * ((u + 63) / 64 + 0) = u := by omega
      exact ⟨e,rfl,hu'.symm ▸ hcut⟩
    | succ j =>
      have hmark := h j
      rw [hu,Nat.add_assoc,Nat.add_comm 1 j] at hmark
      exact hmark hj
  · have hu : (u + 1 + 63) / 64 = (u + 63) / 64 := by omega
    have hmark := h j
    rw [hu] at hmark
    exact hmark hj

theorem indexFrom_small {rest : List UInt8} {b u : Nat} (h : p < 65536) :
    indexFrom (encode p ++ rest) b u = (if u % 64 = 0 then [(b : Int)] else []) ++
      indexFrom rest (b + (encode p).length) (u + 1) := by
  have hp : p < limit := h.trans (by decide)
  rw [indexFrom,dif_neg (append_ne_nil p rest),drop_decoded hp,decode_encode hp]
  exact if_neg (by omega)

theorem indexFrom_large {rest : List UInt8} {b u : Nat} (h : 65536 ≤ p) (hp : p < limit) :
    indexFrom (encode p ++ rest) b u = (if u % 64 = 0 then [(b : Int)] else []) ++
      ((if (u + 1) % 64 = 0 then [-(b : Int) - 1] else []) ++
        indexFrom rest (b + (encode p).length) (u + 2)) := by
  rw [indexFrom,dif_neg (append_ne_nil p rest),drop_decoded hp,decode_encode hp,← List.append_assoc]
  exact if_pos (by omega)

theorem indexFrom_marks (h : ∀ p ∈ ps,p < limit) (as bs : List Nat) (hps : ps = as ++ bs) :
    Marks ps (units as).length (indexFrom (bytes bs) (bytes as).length (units as).length) := by
  induction bs generalizing as with
  | nil =>
    intro j hj
    rw [List.append_nil] at hps
    rw [hps] at hj
    omega
  | cons p bs ih =>
    have hp : p < limit := h p (hps ▸ List.mem_append_right as List.mem_cons_self)
    have hmarks := ih (as ++ [p]) (hps.trans (append_snoc as p bs))
    have hcut := Cut.whole as (p :: bs) hps
    rw [bytes_snoc_length] at hmarks
    rcases Nat.lt_or_ge p 65536 with hsmall | hlarge
    · rw [units_snoc_small as hsmall] at hmarks
      rw [bytes_cons,indexFrom_small hsmall]
      exact hmarks.cons hcut
    · rw [units_snoc_large as hlarge] at hmarks
      rw [bytes_cons,indexFrom_large hlarge hp]
      exact (Marks.cons hmarks (.inside as p bs hps hlarge)).cons hcut

theorem cut_bounds (hcut : Cut ps k b) :
    -((bytes ps).length : Int) ≤ b ∧ b ≤ (bytes ps).length := by
  cases hcut with
  | whole as bs hps =>
    rw [hps,bytes_append,List.length_append]
    omega
  | inside as p bs hps hlarge =>
    have := List.length_pos_iff.mpr (encode_ne_nil p)
    rw [hps,bytes_append,bytes_cons,List.length_append,List.length_append]
    omega

theorem unpack_pack {k : Nat} {b : Int} (h : -(2 ^ 31) ≤ b) (h' : b < 2 ^ 31) :
    unpackCursor (packCursor k b) = (k,b) := by
  have hlow : (b % 2 ^ 32).toNat < 2 ^ 32 := by omega
  have hk : packCursor k b / 2 ^ 32 = k := by
    rw [packCursor]
    omega
  have hb : packCursor k b % 2 ^ 32 = (b % 2 ^ 32).toNat := by
    rw [packCursor]
    omega
  rw [unpackCursor,hk,hb]
  refine Prod.ext rfl ?_
  split_ifs <;> omega

theorem allASCII_iff (h : ∀ p ∈ ps,p < limit) :
    allASCII (bytes ps) = true ↔ ∀ p ∈ ps,p < 128 := by
  have hpoint {p : Nat} (hp : p < limit) : (∀ b ∈ encode p,b.toNat < 128) ↔ p < 128 := by
    constructor
    · intro hall
      by_contra hlarge
      have hhead : byte (encode p ++ []) 0 = _ := byte_encode hp
      rw [List.append_nil,if_neg hlarge] at hhead
      obtain ⟨b,bs,hb,_⟩ := encode_shape hp
      have hsmall := hall b (hb ▸ List.mem_cons_self)
      rw [hb,byte_zero] at hhead
      rw [hhead] at hsmall
      split_ifs at hsmall <;> omega
    · intro hsmall b hb
      rw [encode_one hsmall,List.mem_singleton] at hb
      rw [hb,toNat_byte (by omega)]
      exact hsmall
  simp only [allASCII,bytes,List.all_flatMap,List.all_eq_true,Bool.not_eq_true',
    decide_eq_false_iff_not,Nat.not_le]
  exact forall₂_congr fun p hp => hpoint (h p hp)

theorem ascii_lengths {as : List Nat} (h : ∀ p ∈ as,p < 128) :
    (bytes as).length = as.length ∧ (units as).length = as.length := by
  induction as with
  | nil => exact ⟨rfl,rfl⟩
  | cons p as ih =>
    obtain ⟨hp,has⟩ := List.forall_mem_cons.mp h
    obtain ⟨hb,hu⟩ := ih has
    rw [bytes_cons,units_cons,List.length_append,List.length_append,encode_one hp,
      unitsOf_small (hp.trans (by decide)),hb,hu,List.length_cons]
    exact ⟨Nat.add_comm 1 _,Nat.add_comm 1 _⟩

theorem ascii_cut (h : ∀ p ∈ ps,p < 128) (hk : k ≤ (units ps).length) : Cut ps k k := by
  have hwhole := Cut.whole (ps.take k) (ps.drop k) (List.take_append_drop k ps).symm
  obtain ⟨hb,hu⟩ := ascii_lengths fun p (hp : p ∈ ps.take k) => h p (List.mem_of_mem_take hp)
  rw [(ascii_lengths h).2] at hk
  rw [hb,hu,List.length_take,Nat.min_eq_left hk] at hwhole
  exact hwhole

theorem end_cut (ps : List Nat) : Cut ps (units ps).length (bytes ps).length :=
  .whole ps [] (List.append_nil ps).symm

namespace StrMemo

structure Sound (ps : List Nat) (m : StrMemo) : Prop where
  ascii : m.ascii = allASCII (bytes ps)
  units : m.units = (Wtf8.units ps).length
  idx : ∀ l, m.idx = some l → l = indexFrom (bytes ps) 0 0
  cursor : (unpackCursor m.cursor).1 = 0 ∨
    Cut ps (unpackCursor m.cursor).1 (unpackCursor m.cursor).2

theorem sound_fresh (h : ∀ p ∈ ps,p < limit) : Sound ps (strMemo (bytes ps)) where
  ascii := rfl
  units := by
    rw [strMemo]
    split
    · obtain ⟨hb,hu⟩ := ascii_lengths ((allASCII_iff h).mp ‹_›)
      exact congrArg Int.ofNat (hb.trans hu.symm)
    · exact count16_bytes h
  idx _ hl := nomatch hl
  cursor := .inl (Nat.zero_div _)

theorem sound_indexed {m : StrMemo} (hm : Sound ps m) : Sound ps (m.indexed (bytes ps)) where
  ascii := hm.ascii
  units := hm.units
  idx l hl := by
    obtain rfl := Option.some.inj hl
    cases hidx : m.idx with
    | none => rfl
    | some l => exact hm.idx l hidx
  cursor := hm.cursor

theorem idx_indexed {m : StrMemo} (hm : Sound ps m) :
    ((m.indexed (bytes ps)).idx.getD []) = indexFrom (bytes ps) 0 0 :=
  (sound_indexed hm).idx _ rfl

theorem startAt_cut {m : StrMemo} (hm : Sound ps m) (hcut : Cut ps (k / 64 * 64) b) :
    Cut ps (m.startAt (bytes ps) k b).1 (m.startAt (bytes ps) k b).2 ∧
      (m.startAt (bytes ps) k b).1 ≤ k := by
  rw [startAt]
  split
  · obtain ⟨_,hle,hlt⟩ := ‹_ ∧ _›
    exact ⟨hm.cursor.resolve_left (by omega),hle⟩
  · exact ⟨hcut,Nat.div_mul_le_self k 64⟩

theorem sound_moveTo {m : StrMemo} (hm : Sound ps m) (hcut : Cut ps k b) :
    Sound ps (m.moveTo (bytes ps) k b) := by
  rw [moveTo]
  split
  · have hbounds := cut_bounds hcut
    by_cases hend : b = 2 ^ 31
    · omega
    have hback := unpack_pack (k := k) (b := b) (by omega) (by omega)
    exact ⟨hm.ascii,hm.units,hm.idx,.inr (hback.symm ▸ hcut)⟩
  · exact hm

theorem byteAt_cut {m : StrMemo} (h : ∀ p ∈ ps,p < limit) (hm : Sound ps m)
    (hk : k ≤ (Wtf8.units ps).length) :
    ∃ b m',m.byteAt (bytes ps) k = .ok (b,m') ∧ Cut ps k b ∧ Sound ps m' := by
  rw [byteAt]
  split
  · have hascii : allASCII (bytes ps) = true := hm.ascii ▸ ‹m.ascii = true›
    exact ⟨k,m,rfl,ascii_cut ((allASCII_iff h).mp hascii) hk,hm⟩
  split
  · rename_i hunits
    rw [hm.units] at hunits
    obtain rfl : k = (Wtf8.units ps).length := Int.ofNat.inj hunits
    exact ⟨_,m,rfl,end_cut ps,hm⟩
  · rename_i hunits
    rw [hm.units] at hunits
    have hlt : k < (Wtf8.units ps).length := by omega
    obtain ⟨e,he,hcut⟩ := indexFrom_marks h [] ps rfl (k / 64) (by
      rw [units_nil,List.length_nil]
      omega)
    have hat : 64 * ((([] : List Nat).length + 63) / 64 + k / 64) = k / 64 * 64 := by
      rw [List.length_nil]
      omega
    have hentry : ((m.indexed (bytes ps)).idx.getD [])[k / 64]? = some e := by
      rw [idx_indexed hm]
      exact he
    have hcut : Cut ps (k / 64 * 64) e := hat ▸ hcut
    have hsound := sound_indexed hm
    obtain ⟨hstart,hle⟩ := startAt_cut (m := m.indexed (bytes ps)) hsound hcut
    have hseek := seek_cut h k (Nat.sub_le k _) hstart hle hk
    simp only [hentry]
    exact ⟨_,_,rfl,hseek,sound_moveTo hsound hseek⟩

theorem sound_reached {m : StrMemo} (h : ∀ p ∈ ps,p < limit) (hm : Reached (bytes ps) m) :
    Sound ps m := by
  induction hm with
  | fresh => exact sound_fresh h
  | byteAt _ hk hread ih =>
    rw [ih.units] at hk
    obtain ⟨b,m',hread',_,hsound⟩ := byteAt_cut h ih (Int.ofNat_le.mp hk)
    rw [hread] at hread'
    obtain ⟨_,rfl⟩ := Prod.mk.inj (Except.ok.inj hread')
    exact hsound

end StrMemo

theorem Cut.position {as as' bs bs' : List Nat} (h : as ++ bs = as' ++ bs')
    (hunits : (units as).length = (units as').length) : as = as' := by
  induction as generalizing as' with
  | nil =>
    cases as' with
    | nil => rfl
    | cons q as' =>
      have hpos := units_length_pos q as'
      rw [units_nil,List.length_nil] at hunits
      omega
  | cons p as ih =>
    cases as' with
    | nil =>
      have hpos := units_length_pos p as
      rw [units_nil,List.length_nil] at hunits
      omega
    | cons q as' =>
      rw [List.cons_append,List.cons_append] at h
      obtain ⟨rfl,htail⟩ := List.cons.inj h
      rw [units_cons,units_cons,List.length_append,List.length_append] at hunits
      rw [ih htail (by omega)]

theorem Cut.not_inside {as bs as' bs' : List Nat} (h : as ++ bs = as' ++ p :: bs') (hp : 65536 ≤ p) :
    (units as).length ≠ (units as').length + 1 := by
  intro hunits
  rcases List.append_eq_append_iff.mp h with ⟨cs,rfl,hbs⟩ | ⟨cs,rfl,hbs⟩
  · rw [units_append,List.length_append] at hunits
    omega
  · rw [units_append,List.length_append] at hunits
    cases cs with
    | nil =>
      rw [units_nil,List.length_nil] at hunits
      omega
    | cons c cs =>
      obtain ⟨rfl,-⟩ := List.cons.inj hbs
      rw [units_cons,List.length_append,unitsOf_large hp] at hunits
      simp at hunits
      omega

theorem Cut.unique {b' : Int} (h : Cut ps k b) (h' : Cut ps k b') : b = b' := by
  obtain ⟨k',hk⟩ : ∃ k',k' = k := ⟨k,rfl⟩
  rw [← hk] at h'
  cases h with
  | whole as bs has =>
    cases h' with
    | whole as' bs' has' => rw [Cut.position (has.symm.trans has') hk.symm]
    | inside as' p bs' has' hp => exact absurd hk.symm (Cut.not_inside (has.symm.trans has') hp)
  | inside as p bs has hp =>
    cases h' with
    | whole as' bs' has' => exact absurd hk (Cut.not_inside (has'.symm.trans has) hp)
    | inside as' q bs' has' hq => rw [Cut.position (has.symm.trans has') (by omega)]

theorem byteAt_boundary (hps : Canonical ps) {m : StrMemo} (hm : m.Reached (bytes ps))
    (hk : k ≤ (units ps).length) :
    (∃ m',m.byteAt (bytes ps) k = .ok (boundaryFrom (bytes ps) 0 k,m')) ∧
      Cut ps k (boundaryFrom (bytes ps) 0 k) := by
  obtain ⟨b,m',hread,hcut,-⟩ := StrMemo.byteAt_cut hps.points (StrMemo.sound_reached hps.points hm) hk
  have hscan := boundary_cut hps.points hk
  rw [← hcut.unique hscan]
  exact ⟨⟨m',hread⟩,hcut⟩

theorem byteAt_boundary_asked : let v := bytes (List.replicate 100 128512 ++ [97])
    ∃ b m m',(strMemo v).byteAt v 130 = .ok (b,m) ∧ m.byteAt v 71 = .ok (boundaryFrom v 0 71,m') := by
  intro v
  have hps : Canonical (List.replicate 100 128512 ++ [97]) :=
    ⟨by decide +kernel,by unfold Settled; decide +kernel⟩
  obtain ⟨m,hm⟩ := (byteAt_boundary (k := 130) hps .fresh (by decide +kernel)).1
  obtain ⟨m',hm'⟩ := (byteAt_boundary (k := 71) hps (.byteAt .fresh (by decide +kernel) hm)
    (by decide +kernel)).1
  exact ⟨_,m,m',hm,hm'⟩

theorem memoOf_sound (memos : Memos) (h : ∀ p ∈ ps,p < limit) {m : StrMemo}
    (hm : memoOf memos (bytes ps) = some m) : m.Sound ps := by
  rw [memoOf] at hm
  split at hm
  · exact nomatch hm
  · exact Option.some.inj hm ▸ StrMemo.sound_reached h (memos.reached _)

theorem isASCII_eq (memos : Memos) (h : ∀ p ∈ ps,p < limit) :
    isASCII memos (bytes ps) = allASCII (bytes ps) := by
  rw [isASCII]
  cases hm : memoOf memos (bytes ps) with
  | none => rfl
  | some m => exact (memoOf_sound memos h hm).ascii

theorem strlen_eq (memos : Memos) (h : ∀ p ∈ ps,p < limit) :
    strlen memos (bytes ps) = Int32.ofInt (units ps).length := by
  rw [strlen]
  cases hm : memoOf memos (bytes ps) with
  | none => exact congrArg Int32.ofInt (count16_bytes h)
  | some m => exact congrArg Int32.ofInt (memoOf_sound memos h hm).units

theorem boundary16_cut {m : Option StrMemo} (h : ∀ p ∈ ps,p < limit)
    (hm : ∀ x,m = some x → x.Sound ps) (hk : k ≤ (units ps).length) :
    ∃ b m',boundary16 m (bytes ps) k = .ok (b,m') ∧ Cut ps k b ∧ ∀ x,m' = some x → x.Sound ps := by
  cases m with
  | none => exact ⟨_,none,rfl,boundary_cut h hk,fun _ hx => nomatch hx⟩
  | some m =>
    obtain ⟨b,m',hread,hcut,hsound⟩ := StrMemo.byteAt_cut h (hm m rfl) hk
    refine ⟨b,some m',?_,hcut,fun x hx => Option.some.inj hx ▸ hsound⟩
    rw [boundary16,hread]
    rfl

theorem surrogate16_low (p : Nat) : surrogate16 (low p) = encode (low p) :=
  surrogate16_eq (low_spec p).half

theorem bytes_singleton (p : Nat) : bytes [p] = encode p := List.append_nil _

structure Opens (ps : List Nat) (k : Nat) (a : Int) (os as bs : List Nat) (us : List UInt16) :
    Prop where
  points : ps = as ++ bs
  read : opening (bytes ps) a = (bytes os,(bytes as).length)
  part : os = [] ∨ ∃ as' p, as = as' ++ [p] ∧ os = [low p] ∧ 65536 ≤ p
  units : units as = us ++ units os
  place : us.length = k

theorem Cut.opens (h : ∀ p ∈ ps,p < limit) (hcut : Cut ps k b) :
    ∃ os as bs us,Opens ps k b os as bs us := by
  cases hcut with
  | whole as bs hps =>
    refine ⟨[],as,bs,units as,hps,?_,.inl rfl,(List.append_nil _).symm,rfl⟩
    rw [opening,if_neg (by omega)]
    rfl
  | inside as p bs hps hlarge =>
    have hp : p < limit := h p (hps ▸ List.mem_append_right as List.mem_cons_self)
    have hhigh := high_spec hlarge hp
    refine ⟨[low p],as ++ [p],bs,units as ++ [UInt16.ofNat (high p)],
      hps.trans (append_snoc as p bs),?_,.inr ⟨as,p,rfl,rfl,hlarge⟩,?_,?_⟩
    · have hat : (-(-((bytes as).length : Int) - 1) - 1).toNat = (bytes as).length := by omega
      have hdrop : (bytes ps).drop (bytes as).length = encode p ++ bytes bs :=
        hps ▸ drop_whole as p bs
      rw [opening,if_pos (by omega),bytes_singleton,bytes_snoc_length]
      simp only [hat,hdrop,decode_encode hp,encodeRune_large hlarge hp,surrogate16_low]
    · rw [units_snoc,unitsOf_large hlarge,units_cons,units_nil,unitsOf_small (low_spec p).lt,
        List.append_assoc]
      rfl
    · rw [List.length_append]
      rfl

structure Closes (ps : List Nat) (k : Nat) (b : Int) (as bs cs : List Nat) (us : List UInt16) :
    Prop where
  points : ps = as ++ bs
  read : closing (bytes ps) b = ((bytes as).length,bytes cs)
  part : cs = [] ∨ ∃ p bs', bs = p :: bs' ∧ cs = [high p] ∧ 65536 ≤ p
  units : units bs = units cs ++ us
  place : (Wtf8.units as).length + (Wtf8.units cs).length = k

theorem Cut.closes (h : ∀ p ∈ ps,p < limit) (hcut : Cut ps k b) :
    ∃ as bs cs us,Closes ps k b as bs cs us := by
  cases hcut with
  | whole as bs hps =>
    refine ⟨as,bs,[],units bs,hps,?_,.inl rfl,rfl,rfl⟩
    rw [closing,if_neg (by omega)]
    rfl
  | inside as p bs hps hlarge =>
    have hp : p < limit := h p (hps ▸ List.mem_append_right as List.mem_cons_self)
    have hhigh := high_spec hlarge hp
    refine ⟨as,p :: bs,[high p],UInt16.ofNat (low p) :: units bs,hps,?_,.inr ⟨p,bs,rfl,rfl,hlarge⟩,?_,?_⟩
    · have hat : (-(-((bytes as).length : Int) - 1) - 1).toNat = (bytes as).length := by omega
      have hdrop : (bytes ps).drop (bytes as).length = encode p ++ bytes bs :=
        hps ▸ drop_whole as p bs
      rw [closing,if_pos (by omega),bytes_singleton]
      simp only [hat,hdrop,decode_encode hp,encodeRune_large hlarge hp,surrogate16_eq hhigh.half]
    · rw [units_cons,unitsOf_large hlarge,units_cons,units_nil,unitsOf_small hhigh.lt]
      rfl
    · rw [units_cons,units_nil,unitsOf_small hhigh.lt]
      rfl

theorem between_prefixes {as as' bs bs' : List Nat} (h : as ++ as' = bs ++ bs')
    (hle : (units as).length ≤ (units bs).length) : ∃ ms,bs = as ++ ms ∧ as' = ms ++ bs' := by
  rcases List.append_eq_append_iff.mp h with ⟨ms,hb,ha⟩ | ⟨ms,ha,hb⟩
  · exact ⟨ms,hb,ha⟩
  · cases ms with
    | nil =>
      rw [List.append_nil] at ha
      exact ⟨[],by rw [List.append_nil,ha],hb.symm⟩
    | cons p ms =>
      have := units_length_pos p ms
      rw [ha,units_append,List.length_append] at hle
      omega

theorem Closes.short {cs as bs : List Nat} {us : List UInt16} (h : ∀ p ∈ ps,p < limit)
    (hb : Closes ps k b as bs cs us) : (Wtf8.units cs).length ≤ 1 := by
  rcases hb.part with rfl | ⟨q,bs',rfl,rfl,hlarge⟩
  · exact Nat.zero_le 1
  · have hq : q < limit := h q (hb.points ▸ List.mem_append_right as List.mem_cons_self)
    rw [units_cons,units_nil,unitsOf_small (high_spec hlarge hq).lt]
    exact le_rfl

theorem opens_le_closes {lo hi : Nat} {a b : Int} {os as bs as' bs' cs : List Nat}
    {us us' : List UInt16} (h : ∀ p ∈ ps,p < limit) (ha : Opens ps lo a os as bs us)
    (hb : Closes ps hi b as' bs' cs us') (hlt : lo < hi) :
    (units as).length ≤ (units as').length := by
  have hunits := congrArg List.length ha.units
  have hplace := ha.place
  have hplace' := hb.place
  have hshort := hb.short h
  rw [List.length_append] at hunits
  rcases ha.part with rfl | ⟨as₀,p,rfl,rfl,hlarge⟩
  · rw [units_nil,List.length_nil] at hunits
    omega
  · by_contra hgt
    obtain ⟨ms,hms,_⟩ := between_prefixes (hb.points.symm.trans ha.points) (by omega)
    rcases List.eq_nil_or_concat ms with rfl | ⟨ms',q,rfl⟩
    · rw [hms,List.append_nil] at hgt
      exact hgt le_rfl
    · rw [List.concat_eq_append,← List.append_assoc] at hms
      obtain ⟨rfl,_⟩ := List.append_inj' hms rfl
      rw [units_snoc_large _ hlarge,units_append,List.length_append] at hunits
      rw [units_cons,units_nil,unitsOf_small (low_spec p).lt] at hunits
      simp only [List.append_nil,List.length_singleton] at hunits
      omega

theorem settled_between {os ms cs : List Nat} (hm : Settled ms)
    (ho : os = [] ∨ ∃ p,os = [p] ∧ Low p) (hc : cs = [] ∨ ∃ p,cs = [p] ∧ High p) :
    Settled (os ++ ms ++ cs) := by
  have hleft : Settled (os ++ ms) := by
    rcases ho with rfl | ⟨p,rfl,hp⟩
    · exact hm
    · exact List.isChain_cons.mpr ⟨fun q _ hpq => hpq.1.not_low hp,hm⟩
  rcases hc with rfl | ⟨q,rfl,hq⟩
  · rwa [List.append_nil]
  · refine List.isChain_append.mpr ⟨hleft,List.IsChain.singleton q,fun x _ y hy hxy => ?_⟩
    obtain rfl : y = q := (Option.some.inj hy).symm
    exact hq.not_low hxy.2

theorem Opens.low {os as bs : List Nat} {us : List UInt16} (ha : Opens ps k b os as bs us) :
    os = [] ∨ ∃ p,os = [p] ∧ Low p :=
  ha.part.imp id fun ⟨_,p,_,hos,_⟩ => ⟨_,hos,low_spec p⟩

theorem Closes.high {as bs cs : List Nat} {us : List UInt16} (h : ∀ p ∈ ps,p < limit)
    (hb : Closes ps k b as bs cs us) : cs = [] ∨ ∃ p,cs = [p] ∧ High p := by
  refine hb.part.imp id fun ⟨p,bs',hbs,hcs,hlarge⟩ => ⟨_,hcs,high_spec hlarge (h p ?_)⟩
  rw [hb.points,hbs]
  exact List.mem_append_right as List.mem_cons_self

theorem half_lt_limit (h : Half p) : p < limit := h.2.trans (by decide)

theorem canonical_between (hps : Canonical ps) {os ms cs : List Nat} (hm : ms <:+: ps)
    (ho : os = [] ∨ ∃ p,os = [p] ∧ Low p) (hc : cs = [] ∨ ∃ p,cs = [p] ∧ High p) :
    Canonical (os ++ ms ++ cs) where
  points := by
    refine List.forall_mem_append.mpr ⟨List.forall_mem_append.mpr ⟨?_,?_⟩,?_⟩
    · rcases ho with rfl | ⟨p,rfl,hp⟩
      · exact List.forall_mem_nil _
      · exact List.forall_mem_singleton.mpr (half_lt_limit hp.half)
    · exact fun p hp => hps.points p (hm.subset hp)
    · rcases hc with rfl | ⟨p,rfl,hp⟩
      · exact List.forall_mem_nil _
      · exact List.forall_mem_singleton.mpr (half_lt_limit hp.half)
  settled := by
    have hms :=
      List.IsChain.infix hps.settled hm
    exact settled_between hms ho hc

theorem between (hps : Canonical ps) {lo hi : Nat} {a b : Int} (ha : Cut ps lo a)
    (hb : Cut ps hi b) (hlt : lo < hi) : ∃ middle qs,Canonical qs ∧
      cut (bytes ps) (opening (bytes ps) a).2 (closing (bytes ps) b).1 = .ok middle ∧
      (opening (bytes ps) a).1 ++ middle ++ (closing (bytes ps) b).2 = bytes qs ∧
      units qs = ((units ps).drop lo).take (hi - lo) := by
  obtain ⟨os,as,bs,us,ha⟩ := ha.opens hps.points
  obtain ⟨as',bs',cs,us',hb⟩ := hb.closes hps.points
  obtain ⟨ms,rfl,rfl⟩ := between_prefixes (ha.points.symm.trans hb.points)
    (opens_le_closes hps.points ha hb hlt)
  have hpoints := hb.points
  have hcanon := canonical_between hps ⟨as,bs',hpoints.symm⟩ ha.low (hb.high hps.points)
  refine ⟨bytes ms,os ++ ms ++ cs,hcanon,?_,?_,?_⟩
  · have hlen : (bytes (as ++ ms)).length = (bytes as).length + (bytes ms).length := by
      rw [bytes_append,List.length_append]
    have htotal : (bytes ps).length =
        (bytes as).length + (bytes ms).length + (bytes bs').length := by
      rw [hpoints,bytes_append,List.length_append,hlen]
    rw [ha.read,hb.read,cut,if_pos ⟨hlen ▸ Nat.le_add_right _ _,by omega⟩,hlen,
      Nat.add_sub_cancel_left,hpoints,bytes_append,bytes_append,List.append_assoc,
      List.drop_left,List.take_left]
  · rw [ha.read,hb.read,bytes_append (os ++ ms),bytes_append os]
  · have hunits : units ps = us ++ (units (os ++ ms ++ cs) ++ us') := by
      rw [hpoints,units_append,hb.units,units_append,ha.units,units_append,units_append]
      simp only [List.append_assoc]
    have hplace := ha.place
    have hlen : (units (os ++ ms ++ cs)).length = hi - lo := by
      have hopen := congrArg List.length ha.units
      have hclose := hb.place
      rw [units_append,List.length_append] at hclose
      rw [List.length_append] at hopen
      rw [units_append,units_append,List.length_append,List.length_append]
      omega
    rw [hunits,← hplace,List.drop_left,hplace,← hlen,List.take_left]

theorem slice16Memo_spec (hps : Canonical ps) {m : Option StrMemo}
    (hm : ∀ x,m = some x → x.Sound ps) {lo hi : Nat} (hle : lo ≤ hi)
    (hhi : hi ≤ (units ps).length) : ∃ qs,Canonical qs ∧ slice16Memo (bytes ps) lo hi m = .ok (bytes qs) ∧
      units qs = ((units ps).drop lo).take (hi - lo) := by
  rw [slice16Memo]
  split
  · obtain rfl : lo = hi := ‹_›
    refine ⟨[],⟨List.forall_mem_nil _,List.IsChain.nil⟩,rfl,?_⟩
    rw [Nat.sub_self,List.take_zero,units_nil]
  · obtain ⟨a,m',hread,ha,hm'⟩ := boundary16_cut hps.points hm (hle.trans hhi)
    obtain ⟨b,m'',hread',hb,_⟩ := boundary16_cut hps.points hm' hhi
    obtain ⟨middle,qs,hqs,hcut,hbytes,hunits⟩ := between hps ha hb (by omega)
    refine ⟨qs,hqs,?_,hunits⟩
    rw [hread]
    change (boundary16 m' (bytes ps) hi >>= _) = _
    rw [hread']
    change (cut (bytes ps) (opening (bytes ps) a).2 (closing (bytes ps) b).1 >>= _) = _
    rw [hcut]
    exact congrArg Except.ok hbytes

theorem cut_self {v : List UInt8} {k : Nat} (h : k ≤ v.length) : cut v k k = .ok [] := by
  rw [cut,if_pos ⟨le_rfl,h⟩,Nat.sub_self,List.take_zero]

theorem ascii_slice (hps : Canonical ps) (hascii : ∀ p ∈ ps,p < 128) {lo hi : Nat}
    (hle : lo ≤ hi) (hhi : hi ≤ (units ps).length) : ∃ qs,Canonical qs ∧
      cut (bytes ps) lo hi = .ok (bytes qs) ∧ units qs = ((units ps).drop lo).take (hi - lo) := by
  obtain ⟨hb,hu⟩ := ascii_lengths hascii
  rcases Nat.eq_or_lt_of_le hle with rfl | hlt
  · refine ⟨[],⟨List.forall_mem_nil _,List.IsChain.nil⟩,cut_self (by omega),?_⟩
    rw [Nat.sub_self,List.take_zero,units_nil]
  · obtain ⟨middle,qs,hqs,hcut,hbytes,hunits⟩ := between hps (ascii_cut hascii (hle.trans hhi))
      (ascii_cut hascii hhi) hlt
    have hopen : opening (bytes ps) (lo : Int) = ([],lo) := if_neg (by omega)
    have hclose : closing (bytes ps) (hi : Int) = (hi,[]) := if_neg (by omega)
    rw [hopen,hclose] at hbytes hcut
    rw [List.nil_append,List.append_nil] at hbytes
    exact ⟨qs,hqs,hbytes ▸ hcut,hunits⟩

theorem subS_eq (memos : Memos) (h : ∀ p ∈ ps,p < limit) (off length : Int32) :
    subS memos (bytes ps) off length =
      if off.toInt < 0 ∨ ((units ps).length : Int) < off.toInt then .error .rangeOutOfBounds
      else if 0 ≤ length.toInt ∧ ((units ps).length : Int) < off.toInt + length.toInt then
        .error .rangeOutOfBounds
      else
        let stop := if 0 ≤ length.toInt then off.toInt + length.toInt else (units ps).length
        if allASCII (bytes ps) then cut (bytes ps) off.toInt.toNat stop.toNat
        else slice16Memo (bytes ps) off.toInt.toNat stop.toNat (memoOf memos (bytes ps)) := by
  have hn : (if allASCII (bytes ps) = true then ((bytes ps).length : Int) else (units ps).length) =
      (units ps).length := by
    split
    · obtain ⟨hb,hu⟩ := ascii_lengths ((allASCII_iff h).mp ‹_›)
      rw [hb,hu]
    · rfl
  rw [subS]
  cases hm : memoOf memos (bytes ps) with
  | none =>
    simp only [isASCII_eq memos h,count16_bytes h,hn]
  | some m =>
    have hsound := memoOf_sound memos h hm
    simp only [hsound.ascii,hsound.units,hn]

theorem subS_raises (memos : Memos) (h : ∀ p ∈ ps,p < limit) {off length : Int32}
    (hout : off.toInt < 0 ∨ ((units ps).length : Int) < off.toInt ∨
      0 ≤ length.toInt ∧ ((units ps).length : Int) < off.toInt + length.toInt) :
    subS memos (bytes ps) off length = .error .rangeOutOfBounds := by
  rw [subS_eq memos h]
  by_cases hoff : off.toInt < 0 ∨ ((units ps).length : Int) < off.toInt
  · exact if_pos hoff
  · exact (if_neg hoff).trans (if_pos (by tauto))

theorem subS_slices (memos : Memos) (hps : Canonical ps) (off length : Int32) (lo hi : Nat)
    (hoff : off.toInt = lo) (hle : lo ≤ hi) (hhi : hi ≤ (units ps).length)
    (hstop : length.toInt = (hi : Int) - lo ∨ length.toInt < 0 ∧ hi = (units ps).length) :
    ∃ qs,Canonical qs ∧ subS memos (bytes ps) off length = .ok (bytes qs) ∧
      units qs = ((units ps).drop lo).take (hi - lo) := by
  have hend : (if 0 ≤ length.toInt then off.toInt + length.toInt else (units ps).length) = hi := by
    split_ifs <;> omega
  rw [hoff] at hend
  rw [subS_eq memos hps.points,if_neg (by omega),if_neg (by omega)]
  simp only [hoff,hend,Int.toNat_natCast]
  split
  · exact ascii_slice hps ((allASCII_iff hps.points).mp ‹_›) hle hhi
  · exact slice16Memo_spec hps (fun _ hx => memoOf_sound memos hps.points hx) hle hhi

end OpenSteamgate.Text
