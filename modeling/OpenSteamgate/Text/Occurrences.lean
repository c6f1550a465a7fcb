import OpenSteamgate.Library.Occurrences
import OpenSteamgate.Text.Sections

namespace OpenSteamgate.Text

open Wtf8 Marked

def splitSupplementary (v : List UInt8) : List UInt8 :=
  if _ : v = [] then []
  else
    let (r,width) := decode16 v
    let rest := splitSupplementary (v.drop (decode16 v).2)
    if 0xffff < r then surrogate16 (encodeRune r).1 ++ surrogate16 (encodeRune r).2 ++ rest
    else v.take width ++ rest
termination_by v.length
decreasing_by exact drop_shorter ‹_› (decode16_pos ‹_›)

def wtf16View (v : List UInt8) (b : Nat) : List UInt16 × List Nat :=
  if _ : v = [] then ([],[b])
  else
    let (r,width) := decode16 v
    let (units,bounds) := wtf16View (v.drop (decode16 v).2) (b + width)
    if 0xffff < r then
      (UInt16.ofNat (encodeRune r).1 :: UInt16.ofNat (encodeRune r).2 :: units,b :: (b + 2) :: bounds)
    else (UInt16.ofNat r :: units,b :: bounds)
termination_by v.length
decreasing_by exact drop_shorter ‹_› (decode16_pos ‹_›)

section loops

variable (first : Bool)

-- a round takes at least one byte, so that the length and one more is fuel enough

def indexLoop (s sub : List UInt8) : Nat → Nat → List (Nat × Nat)
  | 0,_ => []
  | fuel + 1,pos =>
    if s.length < pos then []
    else match index (s.drop pos) sub with
      | none => []
      | some i =>
        let m := (pos + i,pos + i + sub.length)
        if first then [m] else m :: indexLoop s sub fuel (pos + i + sub.length)

def scanLoop (hay needle : List UInt16) (bounds : List Nat) : Nat → Nat → List (Nat × Nat)
  | 0,_ => []
  | fuel + 1,pos =>
    if hay.length < pos + needle.length then []
    else if needle.isPrefixOf (hay.drop pos) then
      let m := (bounds.getD pos 0,bounds.getD (pos + needle.length) 0)
      if first then [m] else m :: scanLoop hay needle bounds fuel (pos + needle.length)
    else scanLoop hay needle bounds fuel (pos + 1)

end loops

def plainAllWTF (memos : Memos) (s sub : List UInt8) (first : Bool) : Except Raise (List (Nat × Nat)) := do
  let s := splitSupplementary s
  let (hay,bounds) := wtf16View s 0
  let needle ← utf16Units memos sub
  .ok (scanLoop first hay needle bounds (hay.length + 1) 0)

def plainAll (memos : Memos) (s sub : List UInt8) (first : Bool) : Except Raise (List (Nat × Nat)) :=
  if hasHalf s || hasHalf sub then plainAllWTF memos s sub first
  else .ok (indexLoop first s sub (s.length + 1) 0)

def spliceFrom (s with' : List UInt8) : Nat → List (Nat × Nat) → Except Raise (List UInt8)
  | last,[] => slice s last s.length
  | last,m :: ms => do
    let before ← slice s last m.1
    let rest ← spliceFrom s with' m.2 ms
    .ok (before ++ with' ++ rest)

def splice (s : List UInt8) (ms : List (Nat × Nat)) (with' : List UInt8) : Except Raise (List UInt8) := do
  let b ← spliceFrom s with' 0 ms
  .ok (canon b)

def pick (ms : List (Nat × Nat)) (occ : Int32) : Except Raise (List (Nat × Nat)) :=
  if 0 < occ ∧ occ.toInt ≤ ms.length then slice ms (occ - 1).toInt occ.toInt
  else if occ < 0 ∧ (-occ).toInt ≤ ms.length then
    slice ms (ms.length + occ.toInt) (ms.length + occ.toInt + 1)
  else if occ ≠ 0 then .ok []
  else .ok ms

def replaceFn (memos : Memos) (v p with' : List UInt8) (occ : Int32) : Except Raise (List UInt8) :=
  if p = [] then .error .strgParVal
  else do
    let v := if hasHalf v || hasHalf p then splitSupplementary v else v
    let ms ← plainAll memos v p (decide (occ = 1))
    let ms ← pick ms occ
    splice v ms with'

namespace Charsearch

inductive Refusal
  | raised (r : Raise)
  | notCompiled

def positions (memos : Memos) (v sub : List UInt8) : Nat → Int32 → Except Raise (List Int32)
  | 0,_ => .ok []
  | fuel + 1,at' =>
    if strlen memos v < at' then .ok []
    else do
      let pos ← find memos v sub at'
      if pos < 0 then .ok []
      else
        let rest ← positions memos v sub fuel (pos + strlen memos sub)
        .ok (pos :: rest)

def findOcc (memos : Memos) (v sub : List UInt8) (occ : Int32) : Except Refusal Int32 :=
  if sub = [] then (find memos v sub 0).mapError .raised
  else if occ = 0 then .error .notCompiled
  else do
    let found ← (positions memos v sub (v.length + 1) 0).mapError .raised
    let index := if occ < 0 then found.length + occ.toInt else occ.toInt - 1
    if index < 0 ∨ (found.length : Int) ≤ index then .ok (-1)
    else .ok (found.getD index.toNat 0)

end Charsearch

section split

variable {ps qs : List Nat}

def halves (ps : List Nat) : List Nat := (units ps).map UInt16.toNat

theorem halves_small {p : Nat} (h : p ∈ halves ps) : p < 65536 := by
  obtain ⟨u,-,rfl⟩ := List.mem_map.mp h
  exact u.toNat_lt

theorem halves_points {p : Nat} (h : p ∈ halves ps) : p < limit := (halves_small h).trans (by decide)

theorem fuse_halves (h : Canonical ps) : fuse (halves ps) = ps := pointsOf_units h

theorem units_small (h : ∀ p ∈ ps,p < 65536) : units ps = ps.map UInt16.ofNat := by
  induction ps with
  | nil => rfl
  | cons p ps ih =>
    obtain ⟨hp,hps⟩ := List.forall_mem_cons.mp h
    simp [unitsOf_small hp,ih hps]

theorem units_halves (ps : List Nat) : units (halves ps) = units ps := by
  have hround : UInt16.ofNat ∘ UInt16.toNat = id := funext fun u => UInt16.ofNat_toNat
  rw [units_small fun p => halves_small,halves,List.map_map,hround,List.map_id]

theorem splitSupplementary_bytes (h : ∀ p ∈ ps,p < limit) :
    splitSupplementary (bytes ps) = bytes (halves ps) := by
  induction ps with
  | nil => simp [splitSupplementary,halves]
  | cons p ps ih =>
    obtain ⟨hp,hps⟩ := List.forall_mem_cons.mp h
    have hdecode := @decode_encode p (bytes ps) hp
    rw [bytes_cons,splitSupplementary,dif_neg (append_ne_nil p _),hdecode]
    simp only [List.drop_left,ih hps]
    split
    · rename_i hlarge
      have hhigh := high_spec hlarge hp
      have hlow := low_spec p
      rw [encodeRune_large hlarge hp,surrogate16_eq hhigh.half,surrogate16_eq hlow.half]
      simp [halves,unitsOf_large hlarge,toNat_unit hhigh.lt,toNat_unit hlow.lt]
    · rename_i hsmall
      have hsmall : p < 65536 := by omega
      simp [halves,unitsOf_small hsmall,toNat_unit hsmall]

theorem wtf16View_bytes (h : ∀ p ∈ ps,p < 65536) (b : Nat) : (wtf16View (bytes ps) b).1 = units ps ∧
    ∀ k ≤ ps.length,(wtf16View (bytes ps) b).2.getD k 0 = b + offset encode ps k := by
  induction ps generalizing b with
  | nil =>
    rw [wtf16View]
    simp
  | cons p ps ih =>
    obtain ⟨hp,hps⟩ := List.forall_mem_cons.mp h
    have hdecode := @decode_encode p (bytes ps) (hp.trans (by decide))
    obtain ⟨hunits,hbounds⟩ := ih hps (b + (encode p).length)
    rw [bytes_cons,wtf16View,dif_neg (append_ne_nil p _),hdecode]
    simp only [List.drop_left,if_neg (show ¬0xffff < p by omega),hunits]
    refine ⟨by simp [unitsOf_small hp],?_⟩
    intro k hk
    cases k with
    | zero => simp
    | succ k =>
      rw [List.getD_cons_succ,hbounds k (by simpa using hk)]
      simp [offset,Nat.add_assoc]

end split

section loops

variable {first : Bool}

def limited {α : Type} (first : Bool) (ms : List α) : List α := if first then ms.take 1 else ms

theorem limited_cons {α : Type} (m : α) (ms : List α) :
    limited first (m :: ms) = if first then [m] else m :: limited first ms := by
  cases first <;> simp [limited]

theorem indexLoop_eq {s sub : List UInt8} (hne : sub ≠ []) {fuel pos : Nat} (h : s.length < pos + fuel) :
    indexLoop first s sub fuel pos = limited first ((spans sub (s.drop pos)).map (shift pos)) := by
  induction fuel generalizing pos with
  | zero =>
    have hshort : s.drop pos = [] := List.drop_of_length_le (by omega)
    have hpos := List.length_pos_iff.mpr hne
    rw [hshort,spans_short (by simpa using hpos)]
    simp [indexLoop,limited]
  | succ fuel ih =>
    rw [indexLoop]
    split
    · rename_i hpast
      have hshort : s.drop pos = [] := List.drop_of_length_le (by omega)
      have hpos := List.length_pos_iff.mpr hne
      rw [hshort,spans_short (by simpa using hpos)]
      simp [limited]
    · cases hindex : index (s.drop pos) sub with
      | none =>
        rw [spans_none hindex]
        simp [limited]
      | some i =>
        have hpos := List.length_pos_iff.mpr hne
        have hrest := @ih (pos + i + sub.length) (by omega)
        have hhead : shift pos (i,i + sub.length) = (pos + i,pos + i + sub.length) := by
          simp [shift,Nat.add_assoc]
        rw [spans_some hne hindex,List.map_cons,limited_cons,hhead]
        simp only [hrest,List.drop_drop,List.map_map]
        simp [Function.comp_def,Nat.add_assoc]

theorem scanLoop_eq {hay needle : List UInt16} {bounds : List Nat} (hne : needle ≠ []) {fuel pos : Nat}
    (h : hay.length < pos + fuel) : scanLoop first hay needle bounds fuel pos =
      limited first ((spans needle (hay.drop pos)).map fun s =>
        (bounds.getD (pos + s.1) 0,bounds.getD (pos + s.2) 0)) := by
  have hpos := List.length_pos_iff.mpr hne
  induction fuel generalizing pos with
  | zero =>
    rw [spans_short (by rw [List.length_drop]; omega)]
    simp [scanLoop,limited]
  | succ fuel ih =>
    rw [scanLoop]
    split
    · rw [spans_short (by rw [List.length_drop]; omega)]
      simp [limited]
    · rename_i hfits
      split
      · rename_i hprefix
        have hprefix := List.isPrefixOf_iff_prefix.mp hprefix
        have hrest := @ih (pos + needle.length) (by omega)
        rw [ spans_prefix hne hprefix,List.map_cons,limited_cons]
        simp only [hrest,List.drop_drop,List.map_map]
        simp [shift,Function.comp_def,Nat.add_assoc]
      · rename_i hprefix
        have hprefix := mt List.isPrefixOf_iff_prefix.mpr hprefix
        have hrest := @ih (pos + 1) (by omega)
        have hcons : hay.drop pos = hay.get ⟨pos,by omega⟩ :: hay.drop (pos + 1) := by
          rw [List.drop_eq_getElem_cons (by omega)]
          rfl
        rw [hcons] at hprefix ⊢
        rw [spans_cons hne hprefix,hrest]
        simp [shift,Function.comp_def,Nat.add_assoc]

end loops

section matched

variable {ps qs ws X : List Nat} {first : Bool} {ms : List (Nat × Nat)}

theorem halves_halves (ps : List Nat) : halves (halves ps) = halves ps := by
  rw [halves,units_halves,halves]

theorem hasHalf_halves (h : ∀ p ∈ ps,p < limit) (hhalf : hasHalf (bytes ps) = true) :
    hasHalf (bytes (halves ps)) = true := by
  obtain ⟨p,hp,hhalf⟩ := (hasHalf_bytes h).mp hhalf
  rw [hasHalf_bytes fun p => halves_points]
  refine ⟨p,?_,hhalf⟩
  have hsmall : p < 65536 := hhalf.2.trans (by decide)
  refine List.mem_map.mpr ⟨UInt16.ofNat p,List.mem_flatMap.mpr ⟨p,hp,?_⟩,toNat_unit hsmall⟩
  rw [unitsOf_small hsmall]
  exact List.mem_singleton_self _

theorem offset_unitsOf (h : ∀ p ∈ ps,p < 65536) {k : Nat} (hk : k ≤ ps.length) :
    offset unitsOf ps k = k := by
  have hunits := units_small fun p (hmem : p ∈ ps.take k) => h p (List.mem_of_mem_take hmem)
  have hunits : (ps.take k).flatMap unitsOf = _ := hunits
  rw [offset,hunits,List.length_map,List.length_take,Nat.min_eq_left hk]

structure Found (ps qs X : List Nat) (ms : List (Nat × Nat)) : Prop where
  points : ∀ p ∈ X,p < limit
  units_eq : units X = units ps
  fused : fuse X = ps
  ordered : Ordered 0 ms
  spans_eq : spans (units qs) (units ps) = ms.map (offsets unitsOf X)

theorem matches_plain (hps : Canonical ps) (hqs : Canonical qs) (hne : qs ≠ [])
    (hno : hasHalf (bytes ps) = false) (hno' : hasHalf (bytes qs) = false) :
    Found ps qs ps (spans qs ps) where
  points := hps.points
  units_eq := rfl
  fused := fuse_of_settled hps.settled
  ordered := spans_ordered qs ps
  spans_eq := unit_code.spans_flatMap (not_half_of_not_hasHalf hqs.points hno')
    (not_half_of_not_hasHalf hps.points hno) hne

theorem matches_halves (hps : Canonical ps) :
    Found ps qs (halves ps) (spans (units qs) (units ps)) where
  points p := halves_points
  units_eq := units_halves ps
  fused := fuse_halves hps
  ordered := spans_ordered _ _
  spans_eq := by
    conv_lhs => rw [← List.map_id (spans (units qs) (units ps))]
    refine List.map_congr_left fun s hs => ?_
    have hlen : (halves ps).length = (units ps).length := List.length_map _
    obtain ⟨hstop,hle,-⟩ := mem_spans hs
    rw [offsets,offset_unitsOf (fun p => halves_small) (by omega),
      offset_unitsOf (fun p => halves_small) (by omega)]
    rfl

theorem plainAll_plain (hps : ∀ p ∈ ps,p < limit) (hqs : ∀ q ∈ qs,q < limit) (hne : qs ≠ [])
    (memos : Memos) (hno : hasHalf (bytes ps) = false) (hno' : hasHalf (bytes qs) = false) :
    plainAll memos (bytes ps) (bytes qs) first =
      .ok (limited first ((spans qs ps).map (offsets encode ps))) := by
  have hbytes : spans (bytes qs) (bytes ps) = _ := byte_code.spans_flatMap hqs hps hne
  have hshift : shift 0 = id := funext shift_zero
  rw [plainAll,hno,hno',if_neg (by decide),indexLoop_eq (bytes_ne_nil hne) (by omega),List.drop_zero,
    hshift,List.map_id,hbytes]

theorem plainAll_halves (memos : Memos) (hqs : Canonical qs) (hne : qs ≠ [])
    (hlen : (units qs).length < 2 ^ 31)
    (hhalf : (hasHalf (bytes (halves ps)) || hasHalf (bytes qs)) = true) :
    plainAll memos (bytes (halves ps)) (bytes qs) first =
      .ok (limited first ((spans (units qs) (units ps)).map (offsets encode (halves ps)))) := by
  obtain ⟨hhay,hbounds⟩ := wtf16View_bytes (fun p (hmem : p ∈ halves ps) => halves_small hmem) 0
  rw [units_halves] at hhay
  rw [plainAll,if_pos hhalf,plainAllWTF,splitSupplementary_bytes fun p => halves_points,halves_halves,
    utf16Units_eq memos hqs.points hlen]
  change Except.ok (scanLoop first (wtf16View (bytes (halves ps)) 0).1 (units qs) _ _ 0) = _
  rw [hhay,scanLoop_eq (units_ne_nil_of hne) (by omega),List.drop_zero]
  refine congrArg (fun ms => Except.ok (limited first ms)) (List.map_congr_left fun s hs => ?_)
  have hlen : (halves ps).length = (units ps).length := List.length_map _
  obtain ⟨hstop,hle,-⟩ := mem_spans hs
  rw [Nat.zero_add,Nat.zero_add,hbounds _ (by omega),hbounds _ (by omega),Nat.zero_add,Nat.zero_add]
  rfl

theorem replaceFn_matches (memos : Memos) (hps : Canonical ps) (hqs : Canonical qs) (hne : qs ≠ [])
    (hlen : (units qs).length < 2 ^ 31) (with' : List UInt8) (occ : Int32) :
    ∃ X ms,Found ps qs X ms ∧ replaceFn memos (bytes ps) (bytes qs) with' occ =
      (pick (limited (decide (occ = 1)) (ms.map (offsets encode X))) occ >>=
        fun ms => splice (bytes X) ms with') := by
  rw [replaceFn,if_neg (bytes_ne_nil hne)]
  by_cases hhalf : (hasHalf (bytes ps) || hasHalf (bytes qs)) = true
  · refine ⟨_,_,matches_halves hps,?_⟩
    have hhalf' : (hasHalf (bytes (halves ps)) || hasHalf (bytes qs)) = true := by
      rw [Bool.or_eq_true] at hhalf ⊢
      exact hhalf.imp_left (hasHalf_halves hps.points)
    dsimp only
    rw [if_pos hhalf,splitSupplementary_bytes hps.points,plainAll_halves memos hqs hne hlen hhalf']
    rfl
  · rw [Bool.not_eq_true,Bool.or_eq_false_iff] at hhalf
    refine ⟨_,_,matches_plain hps hqs hne hhalf.1 hhalf.2,?_⟩
    dsimp only
    rw [hhalf.1,hhalf.2,if_neg (by decide),plainAll_plain hps.points hqs.points hne memos hhalf.1 hhalf.2]
    rfl

end matched

section choice

variable {α β : Type} {ms : List α} {occ : Int32}

def nth (ms : List α) (occ : Int) : Option α :=
  if 0 < occ then ms[(occ - 1).toNat]?
  else if occ < 0 ∧ -occ ≤ ms.length then ms[(ms.length + occ).toNat]?
  else none

def chosen (ms : List α) (occ : Int) : List α := if occ = 0 then ms else (nth ms occ).toList

theorem nth_map (f : α → β) (occ : Int) : nth (ms.map f) occ = (nth ms occ).map f := by
  rw [nth,nth,List.length_map]
  split
  · exact List.getElem?_map
  · split
    · exact List.getElem?_map
    · rfl

theorem chosen_map (f : α → β) (occ : Int) : chosen (ms.map f) occ = (chosen ms occ).map f := by
  rw [chosen,chosen,nth_map]
  split
  · rfl
  · cases nth ms occ with
    | none => rfl
    | some m => rfl

theorem mem_of_chosen {m : α} {occ : Int} (h : m ∈ chosen ms occ) : m ∈ ms := by
  rw [chosen] at h
  split at h
  · exact h
  · rw [Option.mem_toList,nth] at h
    split at h
    · exact List.mem_of_getElem? h
    · split at h
      · exact List.mem_of_getElem? h
      · cases h

theorem slice_one {a : Nat} {m : α} (h : ms[a]? = some m) : slice ms a (a + 1) = .ok [m] := by
  obtain ⟨hlt,rfl⟩ := List.getElem?_eq_some_iff.mp h
  rw [slice_ok (Int.natCast_nonneg a) (by omega) (by omega),Int.toNat_natCast]
  have hone : ((a : Int) + 1 - a).toNat = 1 := by omega
  rw [hone,List.drop_eq_getElem_cons hlt]
  rfl

theorem toInt_zero : occ = 0 ↔ occ.toInt = 0 := by
  rw [← Int32.toInt_inj]
  rfl

theorem pos32 : 0 < occ ↔ 0 < occ.toInt := Int32.lt_iff_toInt_lt

theorem neg_toInt (h : occ ≠ Int32.minValue) : (-occ).toInt = -occ.toInt := by
  have hb := bounds32 occ
  have hmin : occ.toInt ≠ -2 ^ 31 := fun heq => h (Int32.toInt_inj.mp heq)
  rw [Int32.toInt_neg,Int.bmod_def]
  split <;> omega

theorem pred_toInt (h : 0 < occ.toInt) : (occ - 1).toInt = occ.toInt - 1 := by
  have hb := bounds32 occ
  rw [Int32.toInt_sub]
  change (occ.toInt - 1).bmod (2 ^ 32) = _
  rw [Int.bmod_def]
  split <;> omega

theorem nth_limited (occ : Int32) (ms : List α) :
    nth (limited (decide (occ = 1)) ms) occ.toInt = nth ms occ.toInt := by
  by_cases hone : occ = 1
  · subst hone
    cases ms with
    | nil => rfl
    | cons m ms => rfl
  · simp [limited,hone]

theorem chosen_limited (occ : Int32) (ms : List α) :
    chosen (limited (decide (occ = 1)) ms) occ.toInt = chosen ms occ.toInt := by
  by_cases hzero : occ = 0
  · subst hzero
    rfl
  · have hint := mt (toInt_zero).mpr hzero
    rw [chosen,chosen,if_neg hint,if_neg hint,nth_limited]

theorem pick_chosen (h : occ ≠ Int32.minValue) (ms : List (Nat × Nat)) :
    pick ms occ = .ok (chosen ms occ.toInt) := by
  rw [pick,chosen,nth]
  simp only [pos32,neg32,neg_toInt h,ne_eq,toInt_zero]
  rcases lt_trichotomy occ.toInt 0 with hocc | hocc | hocc
  · rw [if_neg (by omega),if_neg (by omega : ¬occ.toInt = 0),if_neg (by omega : ¬0 < occ.toInt)]
    by_cases hfits : -occ.toInt ≤ ms.length
    · have hlt : (ms.length + occ.toInt).toNat < ms.length := by omega
      have hone := slice_one (List.getElem?_eq_getElem hlt)
      rw [Int.toNat_of_nonneg (by omega)] at hone
      rw [if_pos ⟨hocc,hfits⟩,if_pos ⟨hocc,hfits⟩,hone,List.getElem?_eq_getElem hlt]
      rfl
    · have hout : ¬(occ.toInt < 0 ∧ -occ.toInt ≤ ms.length) := by omega
      rw [if_neg hout,if_pos (by omega : ¬occ.toInt = 0),if_neg hout]
      rfl
  · rw [if_neg (by omega),if_neg (by omega),if_neg (by omega),if_pos hocc]
  · rw [if_neg (by omega : ¬occ.toInt = 0),if_pos hocc]
    by_cases hfits : occ.toInt ≤ ms.length
    · have hlt : (occ.toInt - 1).toNat < ms.length := by omega
      have hone := slice_one (List.getElem?_eq_getElem hlt)
      rw [Int.toNat_of_nonneg (by omega),sub_add_cancel] at hone
      rw [if_pos ⟨hocc,hfits⟩,pred_toInt hocc,hone,List.getElem?_eq_getElem hlt]
      rfl
    · rw [if_neg (by omega),if_neg (by omega),if_pos (by omega),List.getElem?_eq_none (by omega)]
      rfl

theorem pick_min {ms : List (Nat × Nat)} (h : ms.length < 2 ^ 31) :
    pick ms Int32.minValue = .error .slice := by
  have hint : Int32.minValue.toInt = -2 ^ 31 := rfl
  have hneg : (-Int32.minValue).toInt = -2 ^ 31 := rfl
  rw [pick,if_neg (by simp [hint]),if_pos ⟨by decide,by rw [hneg]; omega⟩,slice,if_neg (by omega)]

end choice

section splicing

variable {ps qs ws X : List Nat} {ms : List (Nat × Nat)} {last : Nat}

theorem spliceFrom_ok {s w : List UInt8} (h : Ordered last ms) (hlast : last ≤ s.length)
    (hms : ∀ m ∈ ms,m.2 ≤ s.length) : spliceFrom s w last ms = .ok (spliced s w last ms) := by
  induction ms generalizing last with
  | nil =>
    rw [spliceFrom,spliced,slice_ok (Int.natCast_nonneg _) (by omega) le_rfl]
    simp
  | cons m ms ih =>
    obtain ⟨a,b⟩ := m
    obtain ⟨hle,hle',hrest⟩ := h
    obtain ⟨hb,hms⟩ := List.forall_mem_cons.mp hms
    simp only at hb
    rw [spliceFrom,spliced,ih hrest hb hms,slice_ok (Int.natCast_nonneg _) (by omega) (by omega)]
    simp [bind,Except.bind]

theorem ordered_offsets {c : Nat → List UInt8} (h : Ordered last ms) :
    Ordered (offset c X last) (ms.map (offsets c X)) := by
  induction ms generalizing last with
  | nil => trivial
  | cons m ms ih => exact ⟨offset_mono h.1,offset_mono h.2.1,ih h.2.2⟩

theorem splice_eq (hX : ∀ p ∈ X,p < limit) (hws : ∀ p ∈ ws,p < limit) (h : Ordered 0 ms) :
    splice (bytes X) (ms.map (offsets encode X)) (bytes ws) = .ok (bytes (fuse (spliced X ws 0 ms))) := by
  have hspliced := spliced_flatMap (c := encode) (v := X) (w := ws) h
  have hordered := ordered_offsets (c := encode) (X := X) h
  rw [offset_zero] at hspliced hordered
  have hspliced : bytes (spliced X ws 0 ms) = _ := hspliced
  rw [splice,spliceFrom_ok hordered (Nat.zero_le _),← canon_bytes,hspliced]
  · rfl
  · intro p hp
    exact (mem_spliced hp).elim (hX p) (hws p)
  · intro m hm
    obtain ⟨s,-,rfl⟩ := List.mem_map.mp hm
    exact offset_le s.2

theorem ordered_chosen (h : Ordered 0 ms) (occ : Int) : Ordered 0 (chosen ms occ) := by
  rw [chosen]
  split
  · exact h
  · rename_i hzero
    cases hnth : nth ms occ with
    | none => trivial
    | some m =>
      have hmem : m ∈ chosen ms occ := by
        rw [chosen,if_neg hzero,hnth]
        exact List.mem_singleton_self m
      obtain ⟨hlow,hle⟩ := h.mem (mem_of_chosen hmem)
      exact ⟨hlow,hle,trivial⟩

theorem replaceFn_eq {qs : List Nat} (memos : Memos) (hps : Canonical ps) (hqs : Canonical qs) (hne : qs ≠ [])
    (hlen : (units qs).length < 2 ^ 31) (hws : ∀ w ∈ ws,w < limit) {occ : Int32}
    (hocc : occ ≠ Int32.minValue) : ∃ X ms,Found ps qs X ms ∧
      replaceFn memos (bytes ps) (bytes qs) (bytes ws) occ =
        .ok (bytes (fuse (spliced X ws 0 (chosen ms occ.toInt)))) := by
  obtain ⟨X,ms,hmatches,hreplace⟩ := replaceFn_matches memos hps hqs hne hlen (bytes ws) occ
  refine ⟨X,ms,hmatches,?_⟩
  rw [hreplace,pick_chosen hocc,chosen_limited,chosen_map]
  exact splice_eq hmatches.points hws (ordered_chosen hmatches.ordered occ.toInt)

theorem Found.units_spliced {qs : List Nat} (h : Found ps qs X ms) {ms' : List (Nat × Nat)}
    (hordered : Ordered 0 ms') : units (fuse (spliced X ws 0 ms')) =
      spliced (units ps) (units ws) 0 (ms'.map (offsets unitsOf X)) := by
  have hspliced := spliced_flatMap (c := unitsOf) (v := X) (w := ws) hordered
  rw [offset_zero] at hspliced
  have hspliced : units (spliced X ws 0 ms') = _ := hspliced
  have hunits : X.flatMap unitsOf = units ps := h.units_eq
  rw [units_fuse,hspliced,hunits]
  rfl

end splicing

section finding

variable {ps qs ws : List Nat}

theorem leastFrom_unique {us sub : List UInt16} {off : Nat} {r t : Int} (h : LeastFrom us sub off r)
    (h' : LeastFrom us sub off t) : r = t := by
  rcases h with ⟨i,rfl,hi,hat,hleast⟩ | ⟨rfl,hnone⟩
  · rcases h' with ⟨j,rfl,hj,hat',hleast'⟩ | ⟨rfl,hnone⟩
    · rcases Nat.lt_trichotomy i j with hlt | rfl | hlt
      · exact absurd hat (hleast' i hi hlt)
      · rfl
      · exact absurd hat' (hleast j hj hlt)
    · exact absurd hat (hnone i hi)
  · rcases h' with ⟨j,rfl,hj,hat',-⟩ | ⟨rfl,-⟩
    · exact absurd hat' (hnone j hj)
    · rfl

theorem find_index (memos : Memos) (hps : Canonical ps) (hqs : Canonical qs) (hne : qs ≠ [])
    (hlen : (units ps).length < 2 ^ 31) (hlen' : (units qs).length < 2 ^ 31) {off : Int32} {lo : Nat}
    (hoff : off.toInt = lo) (hle : lo ≤ (units ps).length) :
    find memos (bytes ps) (bytes qs) off = .ok (match index ((units ps).drop lo) (units qs) with
      | some i => Int32.ofInt (lo + i)
      | none => -1) := by
  obtain ⟨r,hr,hleast⟩ := find_least memos hps hqs hne hlen hlen' hoff hle
  have hr' := leastFrom_unique hleast (leastFrom_index (units ps) lo (units_ne_nil_of hne))
  rw [hr]
  cases hindex : index ((units ps).drop lo) (units qs) with
  | none =>
    rw [hindex] at hr'
    exact congrArg Except.ok (Int32.toInt_inj.mp hr')
  | some i =>
    rw [hindex] at hr'
    have hi := index_le hindex
    rw [List.length_drop] at hi
    refine congrArg Except.ok (Int32.toInt_inj.mp (hr'.trans ?_))
    exact (toInt_small (n := lo + i) (by omega)).symm

theorem positions_eq (memos : Memos) (hps : Canonical ps) (hqs : Canonical qs) (hne : qs ≠ [])
    (hlen : (units ps).length < 2 ^ 31) (hlen' : (units qs).length < 2 ^ 31) {fuel lo : Nat}
    {at' : Int32} (hat : at'.toInt = lo) (hle : lo ≤ (units ps).length)
    (hfuel : (units ps).length < lo + fuel) :
    Charsearch.positions memos (bytes ps) (bytes qs) fuel at' =
      .ok ((spans (units qs) ((units ps).drop lo)).map fun s => Int32.ofInt ((lo : Int) + s.1)) := by
  induction fuel generalizing lo at' with
  | zero => omega
  | succ fuel ih =>
    have hpast : ¬strlen memos (bytes ps) < at' := by
      rw [Int32.lt_iff_toInt_lt,strlen_toInt memos hps.points hlen]
      omega
    rw [Charsearch.positions,if_neg hpast,find_index memos hps hqs hne hlen hlen' hat hle]
    cases hindex : index ((units ps).drop lo) (units qs) with
    | none =>
      rw [spans_none hindex]
      rfl
    | some i =>
      have hpos := List.length_pos_iff.mpr (units_ne_nil_of hne)
      have hfits := (index_eq_some.mp hindex).1
      rw [List.length_drop] at hfits
      have hfound := toInt_small (n := lo + i) (by omega)
      push_cast at hfound
      have hnext : (Int32.ofInt ((lo : Int) + i) + strlen memos (bytes qs)).toInt =
          ((lo + i + (units qs).length : Nat) : Int) := by
        rw [strlen_eq memos hqs.points,← Int32.ofInt_add]
        exact toInt_small (n := lo + i + (units qs).length) (by omega)
      have hrest := ih hnext (by omega) (by omega)
      have hnonneg : ¬Int32.ofInt ((lo : Int) + i) < 0 := by
        rw [neg32,hfound]
        omega
      simp only [bind,Except.bind,if_neg hnonneg,hrest]
      rw [spans_some (units_ne_nil_of hne) hindex,List.map_cons,List.map_map,List.drop_drop]
      simp [shift,Function.comp_def,add_assoc]

theorem units_length_le (ps : List Nat) : (units ps).length ≤ (bytes ps).length := by
  induction ps with
  | nil => exact le_rfl
  | cons p ps ih =>
    rw [units_cons,bytes_cons,List.length_append,List.length_append]
    refine Nat.add_le_add ?_ ih
    rcases Nat.lt_or_ge p 65536 with hp | hp
    · rw [unitsOf_small hp]
      exact List.length_pos_iff.mpr (encode_ne_nil p)
    · simp [unitsOf_large hp,encode_four hp]

theorem getD_map {α : Type} {ms : List α} (f : α → Int32) {k : Nat} (h : k < ms.length) :
    (ms.map f).getD k 0 = f ms[k] := by
  simp [h]

theorem findOcc_eq (memos : Memos) (hps : Canonical ps) (hqs : Canonical qs) (hne : qs ≠ [])
    (hlen : (units ps).length < 2 ^ 31) (hlen' : (units qs).length < 2 ^ 31) {occ : Int32}
    (hocc : occ ≠ 0) : Charsearch.findOcc memos (bytes ps) (bytes qs) occ =
      .ok (match nth (spans (units qs) (units ps)) occ.toInt with
        | some s => Int32.ofInt s.1
        | none => -1) := by
  have hunits := units_length_le ps
  have hpositions := @positions_eq ps qs memos hps hqs hne hlen hlen' ((bytes ps).length + 1) 0 0 rfl
    (Nat.zero_le _) (by omega)
  have hzero := mt toInt_zero.mpr hocc
  rw [Charsearch.findOcc,if_neg (bytes_ne_nil hne),if_neg hocc,hpositions,List.drop_zero]
  generalize spans (units qs) (units ps) = ms
  simp only [Except.mapError,bind,Except.bind,List.length_map,neg32,nth,Nat.cast_zero,Int.zero_add]
  rcases lt_or_gt_of_ne hzero with hneg | hpos
  · rw [if_pos hneg,if_neg (by omega : ¬0 < occ.toInt)]
    by_cases hfits : -occ.toInt ≤ ms.length
    · have hlt : (ms.length + occ.toInt).toNat < ms.length := by omega
      rw [if_neg (by omega),if_pos ⟨hneg,hfits⟩,List.getElem?_eq_getElem hlt,getD_map _ hlt]
    · rw [if_pos (by omega),if_neg (by omega)]
  · rw [if_neg (by omega : ¬occ.toInt < 0),if_pos hpos]
    by_cases hfits : occ.toInt ≤ ms.length
    · have hlt : (occ.toInt - 1).toNat < ms.length := by omega
      rw [if_neg (by omega),List.getElem?_eq_getElem hlt,getD_map _ hlt]
    · rw [if_pos (by omega),List.getElem?_eq_none (by omega)]

structure Numbered (memos : Memos) (ps qs ws : List Nat) (occ : Int32) : Prop where
  found : occ ≠ 0 → ∃ r,Charsearch.findOcc memos (bytes ps) (bytes qs) occ = .ok r ∧
    (r = -1 → replaceFn memos (bytes ps) (bytes qs) (bytes ws) occ = .ok (bytes ps)) ∧
    (r ≠ -1 → 0 ≤ r.toInt ∧ ∃ w,replaceFn memos (bytes ps) (bytes qs) (bytes ws) occ = .ok w ∧
      Stands w ((units ps).take r.toInt.toNat ++ units ws ++
        (units ps).drop (r.toInt.toNat + (units qs).length)))
  every : occ = 0 → ∃ w,replaceFn memos (bytes ps) (bytes qs) (bytes ws) occ = .ok w ∧
    Stands w (spliced (units ps) (units ws) 0 (spans (units qs) (units ps)))

theorem spliced_points {X : List Nat} {ms : List (Nat × Nat)} (hX : ∀ p ∈ X,p < limit)
    (hws : ∀ w ∈ ws,w < limit) : ∀ p ∈ spliced X ws 0 ms,p < limit :=
  fun p hp => (mem_spliced hp).elim (hX p) (hws p)

theorem numbered (memos : Memos) (hps : Canonical ps) (hqs : Canonical qs) (hne : qs ≠ [])
    (hws : ∀ w ∈ ws,w < limit) (hlen : (units ps).length < 2 ^ 31) (hlen' : (units qs).length < 2 ^ 31)
    {occ : Int32} (hocc : occ ≠ Int32.minValue) : Numbered memos ps qs ws occ := by
  obtain ⟨X,ms,hmatches,hreplace⟩ := replaceFn_eq memos hps hqs hne hlen' hws hocc
  have hstands {ms' : List (Nat × Nat)} (hordered : Ordered 0 ms') :
      Stands (bytes (fuse (spliced X ws 0 ms')))
        (spliced (units ps) (units ws) 0 (ms'.map (offsets unitsOf X))) :=
    ⟨_,fuse_canonical (spliced_points hmatches.points hws),rfl,hmatches.units_spliced hordered⟩
  constructor
  · intro hzero
    have hfound := findOcc_eq memos hps hqs hne hlen hlen' hzero
    rw [hmatches.spans_eq,nth_map] at hfound
    rw [chosen,if_neg (mt toInt_zero.mpr hzero)] at hreplace
    cases hnth : nth ms occ.toInt with
    | none =>
      rw [hnth] at hfound hreplace
      refine ⟨-1,hfound,fun _ => ?_,fun h => absurd rfl h⟩
      rw [hreplace]
      change Except.ok (bytes (fuse (X.drop 0))) = _
      rw [List.drop_zero,hmatches.fused]
    | some m =>
      have hmem : m ∈ ms := by
        have h := @mem_of_chosen _ ms m occ.toInt
        rw [chosen,if_neg (mt toInt_zero.mpr hzero),hnth] at h
        exact h (List.mem_singleton_self m)
      have hspan : offsets unitsOf X m ∈ spans (units qs) (units ps) := by
        rw [hmatches.spans_eq]
        exact List.mem_map_of_mem hmem
      obtain ⟨hstop,hle,-⟩ := mem_spans hspan
      rw [hnth] at hfound hreplace
      have hint := toInt_small (n := (offsets unitsOf X m).1) (by omega)
      refine ⟨_,hfound,fun hminus => ?_,fun _ => ?_⟩
      · have hminus : (Int32.ofInt ((offsets unitsOf X m).1 : Int)).toInt = -1 :=
          congrArg Int32.toInt hminus
        omega
      · have hordered := hmatches.ordered.mem hmem
        have hnonneg : 0 ≤ (Int32.ofInt ((offsets unitsOf X m).1 : Int)).toInt := by
          rw [hint]
          exact Int.natCast_nonneg _
        refine ⟨hnonneg,_,hreplace,?_⟩
        have hone := @hstands [m] ⟨hordered.1,hordered.2,trivial⟩
        simp only [Option.toList_some,List.map_cons,List.map_nil,spliced,List.drop_zero,Nat.sub_zero] at hone ⊢
        change Stands _ (List.take (Int32.ofInt ((offsets unitsOf X m).1 : Int)).toInt.toNat _ ++ _ ++
          List.drop ((Int32.ofInt ((offsets unitsOf X m).1 : Int)).toInt.toNat + _) _)
        rw [hint,Int.toNat_natCast,← hstop]
        exact hone
  · rintro rfl
    rw [hmatches.spans_eq]
    exact ⟨_,hreplace,hstands hmatches.ordered⟩

theorem replaceFn_min (memos : Memos) (hps : Canonical ps) (hqs : Canonical qs) (hne : qs ≠ [])
    (hlen : (units ps).length < 2 ^ 31) (hlen' : (units qs).length < 2 ^ 31) (with' : List UInt8) :
    replaceFn memos (bytes ps) (bytes qs) with' Int32.minValue = .error .slice := by
  obtain ⟨X,ms,hmatches,hreplace⟩ :=
    replaceFn_matches memos hps hqs hne hlen' with' Int32.minValue
  have hcount := spans_length (units qs) (units ps)
  rw [hmatches.spans_eq,List.length_map] at hcount
  have hone : limited (decide (Int32.minValue = 1)) (ms.map (offsets encode X)) =
      ms.map (offsets encode X) := rfl
  rw [hreplace,hone,pick_min]
  · rfl
  · rw [List.length_map]
    omega

theorem numbered_iff (memos : Memos) {ps qs ws : List Nat} (hps : Canonical ps) (hqs : Canonical qs)
    (hne : qs ≠ []) (hws : ∀ w ∈ ws,w < limit) (hlen : (units ps).length < 2 ^ 31)
    (hlen' : (units qs).length < 2 ^ 31) (occ : Int32) :
    Numbered memos ps qs ws occ ↔ occ ≠ Int32.minValue := by
  constructor
  · rintro h rfl
    have hmin := replaceFn_min memos hps hqs hne hlen hlen' (bytes ws)
    obtain ⟨r,-,hnone,hsome⟩ := h.found (by decide)
    by_cases hr : r = -1
    · rw [hmin] at hnone
      cases hnone hr
    · obtain ⟨-,w,hw,-⟩ := hsome hr
      rw [hmin] at hw
      cases hw
  · exact numbered memos hps hqs hne hws hlen hlen'

theorem canonical_letter {p : Nat} (h : p < 128) : Canonical [p] :=
  ⟨by simpa using h.trans (by decide : 128 < limit),List.IsChain.singleton _⟩

theorem units_letter {p : Nat} (h : p < 128) : (units [p]).length < 2 ^ 31 := by
  rw [units_cons,unitsOf_small (h.trans (by decide))]
  simp

theorem numbered_iff_pair :
    Numbered ⟨strMemo,fun _ => .fresh⟩ [97,128512,97,128512] [128512] [99] (-1) :=
  (numbered_iff ⟨strMemo,fun _ => .fresh⟩ ⟨by decide,by unfold Settled; decide⟩
    ⟨by decide,List.IsChain.singleton _⟩ (by decide) (by decide) (by decide) (by decide) (-1)).mpr
      (by decide)

theorem least_occurrence : Canonical [97] ∧ Canonical [98] ∧
    Charsearch.findOcc ⟨strMemo,fun _ => .fresh⟩ (bytes [97]) (bytes [98]) Int32.minValue = .ok (-1) ∧
    replaceFn ⟨strMemo,fun _ => .fresh⟩ (bytes [97]) (bytes [98]) (bytes [99]) Int32.minValue =
      .error .slice := by
  have ha : Canonical [97] := canonical_letter (by decide)
  have hb : Canonical [98] := canonical_letter (by decide)
  have hfound := @findOcc_eq [97] [98] ⟨strMemo,fun _ => .fresh⟩ ha hb (by decide)
    (units_letter (by decide)) (units_letter (by decide)) Int32.minValue (by decide)
  refine ⟨ha,hb,hfound.trans ?_,replaceFn_min _ ha hb (by decide) (units_letter (by decide))
    (units_letter (by decide)) _⟩
  have hcount := spans_length (units [98]) (units [97])
  rw [nth,if_neg (by decide),if_neg]
  have hsmall := @units_letter 97 (by decide)
  have hmin : Int32.minValue.toInt = -2 ^ 31 := rfl
  omega

end finding

end OpenSteamgate.Text
