import OpenSteamgate.Text.Slicing

namespace OpenSteamgate.Text

open Wtf8 Marked

variable {ps qs : List Nat}

theorem toInt_small {n : Nat} (h : n < 2 ^ 31) : (Int32.ofInt n).toInt = n :=
  Int32.toInt_ofInt_of_le (by omega) (by omega)

theorem strlen_toInt (memos : Memos) (h : ∀ p ∈ ps,p < limit) (hlen : (units ps).length < 2 ^ 31) :
    (strlen memos (bytes ps)).toInt = (units ps).length := by
  rw [strlen_eq memos h,toInt_small hlen]

theorem utf16Units_eq (memos : Memos) (h : ∀ p ∈ ps,p < limit)
    (hlen : (units ps).length < 2 ^ 31) : utf16Units memos (bytes ps) = .ok (units ps) := by
  rw [utf16Units,strlen_toInt memos h hlen,if_neg (by omega),unitsFrom_bytes h]

theorem utf16String_units (h : Canonical ps) : utf16String (units ps) = bytes ps := by
  rw [utf16String_eq,pointsOf_units h]

theorem units_take_le (ps : List Nat) (j : Nat) : (units (ps.take j)).length ≤ (units ps).length :=
  ((List.take_prefix j ps).flatMap unitsOf).length_le

def answer (found : Option Nat) : Int :=
  match found with
  | some i => i
  | none => -1

theorem bytes_ne_nil (h : qs ≠ []) : bytes qs ≠ [] := by
  obtain ⟨q,rest,rfl⟩ := List.exists_cons_of_ne_nil h
  exact append_ne_nil q _

theorem not_half_of_not_hasHalf (h : ∀ p ∈ ps,p < limit) (hno : hasHalf (bytes ps) = false) :
    ∀ p ∈ ps,p < limit ∧ ¬Half p := by
  intro p hp
  refine ⟨h p hp,fun hhalf => ?_⟩
  rw [(hasHalf_bytes h).mpr ⟨p,hp,hhalf⟩] at hno
  exact Bool.noConfusion hno

theorem index16_eq (memos : Memos) (hp : ∀ p ∈ ps,p < limit) (hq : ∀ q ∈ qs,q < limit)
    (hne : qs ≠ []) (hps : (units ps).length < 2 ^ 31) (hqs : (units qs).length < 2 ^ 31) :
    index16 memos (bytes ps) (bytes qs) = .ok (answer (index (units ps) (units qs))) := by
  rw [index16]
  split
  · rename_i hno
    rw [Bool.and_eq_true,Bool.not_eq_true',Bool.not_eq_true'] at hno
    have hbytes := byte_code.index_flatMap hq hp hne
    have hunits := unit_code.index_flatMap (not_half_of_not_hasHalf hq hno.1)
      (not_half_of_not_hasHalf hp hno.2) hne
    have hbytes : index (bytes ps) (bytes qs) = _ := hbytes
    have hunits : index (units ps) (units qs) = _ := hunits
    rw [hbytes,hunits]
    cases index ps qs with
    | none => rfl
    | some j =>
      have htake : (bytes ps).take (bytes (ps.take j)).length = bytes (ps.take j) :=
        List.prefix_iff_eq_take.mp ((List.take_prefix j ps).flatMap encode) |>.symm
      have hlen := units_take_le ps j
      have hcount := strlen_toInt memos
        (fun p (hmem : p ∈ ps.take j) => hp p (List.mem_of_mem_take hmem)) (by omega)
      change Except.ok (strlen memos ((bytes ps).take (bytes (ps.take j)).length)).toInt = _
      rw [htake,hcount]
      rfl
  · rw [utf16Units_eq memos hp hps,utf16Units_eq memos hq hqs]
    change (match index (units ps) (units qs) with
      | some i => .ok i
      | none => .ok (-1) : Except Raise Int) = _
    cases index (units ps) (units qs) with
    | none => rfl
    | some i => rfl

theorem unit_of_large {q : Nat} (h : q < limit) (hq : 128 ≤ q) :
    ∃ u ∈ unitsOf q,128 ≤ u.toNat := by
  rcases Nat.lt_or_ge q 65536 with hsmall | hlarge
  · refine ⟨UInt16.ofNat q,?_,?_⟩
    · rw [unitsOf_small hsmall]
      exact List.mem_singleton_self _
    · rwa [toNat_unit hsmall]
  · have hhigh := high_spec hlarge h
    refine ⟨UInt16.ofNat (high q),?_,?_⟩
    · rw [unitsOf_large hlarge]
      exact List.mem_cons_self
    · rw [toNat_unit hhigh.lt]
      exact Nat.le_trans (by decide) hhigh.1

theorem unit_of_ascii (hascii : ∀ p ∈ ps,p < 128) {u : UInt16} (hu : u ∈ units ps) :
    u.toNat < 128 := by
  obtain ⟨p,hp,hmem⟩ := List.mem_flatMap.mp hu
  have hsmall := hascii p hp
  rw [unitsOf_small (hsmall.trans (by decide)),List.mem_singleton] at hmem
  rw [hmem,toNat_unit (by omega)]
  exact hsmall

theorem index_ascii (hascii : ∀ p ∈ ps,p < 128) (hq : ∀ q ∈ qs,q < limit) (hne : qs ≠ []) :
    index (bytes ps) (bytes qs) = index (units ps) (units qs) := by
  have hp : ∀ p ∈ ps,p < limit := fun p hmem => (hascii p hmem).trans (by decide)
  have hbytes : index (bytes ps) (bytes qs) = _ := byte_code.index_flatMap hq hp hne
  by_cases hall : ∀ q ∈ qs,q < 128
  · have hplain {rs : List Nat} (h : ∀ r ∈ rs,r < 128) : ∀ r ∈ rs,r < limit ∧ ¬Half r :=
      fun r hr => ⟨(h r hr).trans (by decide),not_half_of_lt ((h r hr).trans (by decide))⟩
    have hunits : index (units ps) (units qs) = _ :=
      unit_code.index_flatMap (hplain hall) (hplain hascii) hne
    rw [hbytes,hunits]
    refine congrArg (fun f => (index ps qs).map f) (funext fun j => ?_)
    obtain ⟨hb,hu⟩ := ascii_lengths
      fun p (hmem : p ∈ ps.take j) => hascii p (List.mem_of_mem_take hmem)
    exact hb.trans hu.symm
  · obtain ⟨q,hq'⟩ := not_forall.mp hall
    obtain ⟨hmem,hlarge⟩ := Classical.not_imp.mp hq'
    have hpoints : index ps qs = none := by
      cases hindex : index ps qs with
      | none => rfl
      | some j =>
        have := hascii q (index_subset hindex hmem)
        omega
    rw [hbytes,hpoints]
    cases hindex : index (units ps) (units qs) with
    | none => rfl
    | some j =>
      obtain ⟨u,hu,hge⟩ := unit_of_large (hq q hmem) (Nat.not_lt.mp hlarge)
      have := unit_of_ascii hascii (index_subset hindex (List.mem_flatMap.mpr ⟨q,hmem,hu⟩))
      omega

def LeastFrom (us sub : List UInt16) (off : Nat) (r : Int) : Prop :=
  (∃ i : Nat, r = i ∧ off ≤ i ∧ sub <+: us.drop i ∧ ∀ j, off ≤ j → j < i → ¬sub <+: us.drop j) ∨
    r = -1 ∧ ∀ j, off ≤ j → ¬sub <+: us.drop j

theorem leastFrom_index {sub : List UInt16} (us : List UInt16) (off : Nat) (hne : sub ≠ []) :
    LeastFrom us sub off (match index (us.drop off) sub with
      | some i => off + i
      | none => -1) := by
  cases hindex : index (us.drop off) sub with
  | none =>
    refine .inr ⟨rfl,fun j hj hinitial => ?_⟩
    obtain ⟨k,rfl⟩ := Nat.exists_eq_add_of_le hj
    rw [← List.drop_drop] at hinitial
    exact index_eq_none.mp hindex k (fits_of_initial hne hinitial) hinitial
  | some i =>
    obtain ⟨_,hat,hleast⟩ := index_eq_some.mp hindex
    rw [List.drop_drop] at hat
    refine .inl ⟨off + i,rfl,Nat.le_add_right off i,hat,fun j hj hlt hinitial => ?_⟩
    obtain ⟨k,rfl⟩ := Nat.exists_eq_add_of_le hj
    rw [← List.drop_drop] at hinitial
    exact hleast k (by omega) hinitial

theorem index_le {us sub : List UInt16} {i : Nat} (h : index us sub = some i) : i ≤ us.length := by
  have := (index_eq_some.mp h).1
  omega

theorem toInt_found {us sub : List UInt16} {off : Int32} {lo i : Nat} (hoff : off.toInt = lo)
    (hus : us.length < 2 ^ 31) (hle : lo ≤ us.length) (h : index (us.drop lo) sub = some i) :
    (off + Int32.ofInt i).toInt = (lo : Int) + i := by
  have hi := index_le h
  rw [List.length_drop] at hi
  rw [← Int32.ofInt_toInt off,hoff,← Int32.ofInt_add]
  exact toInt_small (n := lo + i) (by omega)

theorem units_ne_nil_of {qs : List Nat} (h : qs ≠ []) : units qs ≠ [] := by
  obtain ⟨q,rest,rfl⟩ := List.exists_cons_of_ne_nil h
  exact units_ne_nil q rest

theorem find_least (memos : Memos) (hps : Canonical ps) (hqs : Canonical qs) (hne : qs ≠ [])
    (hlen : (units ps).length < 2 ^ 31) (hlen' : (units qs).length < 2 ^ 31) {off : Int32}
    {lo : Nat} (hoff : off.toInt = lo) (hle : lo ≤ (units ps).length) :
    ∃ r,find memos (bytes ps) (bytes qs) off = .ok r ∧
      LeastFrom (units ps) (units qs) lo r.toInt := by
  have hleast := leastFrom_index (units ps) lo (units_ne_nil_of hne)
  rw [find,if_neg (bytes_ne_nil hne),isASCII_eq memos hps.points]
  split
  · rename_i hascii
    have hascii := (allASCII_iff hps.points).mp hascii
    have hdrop : (bytes ps).drop lo = bytes (ps.drop lo) ∧
        (units ps).drop lo = units (ps.drop lo) := by
      obtain ⟨hb,hu⟩ := ascii_lengths
        fun p (hmem : p ∈ ps.take lo) => hascii p (List.mem_of_mem_take hmem)
      rw [(ascii_lengths hascii).2] at hle
      rw [List.length_take,Nat.min_eq_left hle] at hb hu
      have hbd : (bytes ps).drop (bytes (ps.take lo)).length = _ := Code.drop_flatMap lo
      have hud : (units ps).drop (units (ps.take lo)).length = _ := Code.drop_flatMap lo
      rw [hb] at hbd
      rw [hu] at hud
      exact ⟨hbd,hud⟩
    have hsame : index ((bytes ps).drop lo) (bytes qs) = index ((units ps).drop lo) (units qs) := by
      rw [hdrop.1,hdrop.2]
      exact index_ascii (fun p hmem => hascii p (List.mem_of_mem_drop hmem)) hqs.points hne
    obtain ⟨hb,hu⟩ := ascii_lengths hascii
    rw [if_neg (by omega),hoff,Int.toNat_natCast,hsame]
    cases hindex : index ((units ps).drop lo) (units qs) with
    | none =>
      rw [hindex] at hleast
      exact ⟨-1,rfl,hleast⟩
    | some i =>
      rw [hindex] at hleast
      exact ⟨_,rfl,(toInt_found hoff hlen hle hindex).symm ▸ hleast⟩
  · obtain ⟨rs,hrs,hsec,hunits⟩ := subS_slices memos hps off (-1) lo _ hoff hle le_rfl
      (.inr ⟨by decide,rfl⟩)
    rw [List.take_of_length_le (by rw [List.length_drop])] at hunits
    have hshort : (units rs).length < 2 ^ 31 := by
      rw [hunits,List.length_drop]
      omega
    rw [hsec]
    change ∃ r,(index16 memos (bytes rs) (bytes qs) >>= _) = _ ∧ _
    rw [index16_eq memos hrs.points hqs.points hne hshort hlen',hunits]
    cases hindex : index ((units ps).drop lo) (units qs) with
    | none =>
      rw [hindex] at hleast
      exact ⟨-1,rfl,hleast⟩
    | some i =>
      rw [hindex] at hleast
      refine ⟨off + Int32.ofInt i,?_,(toInt_found hoff hlen hle hindex).symm ▸ hleast⟩
      have hfound : ¬answer (some i) < 0 := Int.not_lt.mpr (Int.natCast_nonneg i)
      change (if answer (some i) < 0 then .ok (-1) else .ok (off + Int32.ofInt (answer (some i))) :
        Except Raise Int32) = _
      rw [if_neg hfound]
      rfl

theorem find_raises (memos : Memos) (hps : ∀ p ∈ ps,p < limit) (hne : qs ≠ []) {off : Int32}
    (hout : off.toInt < 0 ∨ ((units ps).length : Int) < off.toInt) :
    find memos (bytes ps) (bytes qs) off = .error .rangeOutOfBounds := by
  rw [find,if_neg (bytes_ne_nil hne),isASCII_eq memos hps]
  split
  · obtain ⟨hb,hu⟩ := ascii_lengths ((allASCII_iff hps).mp ‹_›)
    exact if_pos (by omega)
  · rw [subS_raises memos hps (by tauto)]
    rfl

def Stands (v : List UInt8) (us : List UInt16) : Prop :=
  ∃ ps, Canonical ps ∧ v = bytes ps ∧ units ps = us

theorem runtime_simulates (memos : Memos) (ps qs xs : List Nat) (us : List UInt16)
    (hps : Canonical ps) (hqs : Canonical qs) (hxs : ∀ x ∈ xs, x < limit) :
    ((units ps).length < 2 ^ 31 → utf16Units memos (bytes ps) = .ok (units ps)) ∧
    utf16String (units ps) = bytes ps ∧
    Stands (utf16String us) us ∧
    (us.length < 2 ^ 31 → utf16Units memos (utf16String us) = .ok us) ∧
    (∀ v, canon (canon v) = canon v) ∧
    Stands (canon (bytes xs)) (units xs) ∧
    ((units ps).length < 2 ^ 31 → (strlen memos (bytes ps)).toInt = (units ps).length) ∧
    (∀ off length : Int32, 0 ≤ off.toInt → 0 ≤ length.toInt →
      off.toInt + length.toInt ≤ (units ps).length →
      ∃ w, subS memos (bytes ps) off length = .ok w ∧
        Stands w (((units ps).drop off.toInt.toNat).take length.toInt.toNat)) ∧
    (∀ off : Int32, 0 ≤ off.toInt → off.toInt ≤ (units ps).length →
      ∃ w, subS memos (bytes ps) off (-1) = .ok w ∧
        Stands w ((units ps).drop off.toInt.toNat)) ∧
    (∀ off length : Int32, off.toInt < 0 ∨ ((units ps).length : Int) < off.toInt ∨
      0 ≤ length.toInt ∧ ((units ps).length : Int) < off.toInt + length.toInt →
      subS memos (bytes ps) off length = .error .rangeOutOfBounds) ∧
    Stands (concat (bytes ps) (bytes qs)) (units ps ++ units qs) ∧
    (qs ≠ [] → (units ps).length < 2 ^ 31 → (units qs).length < 2 ^ 31 →
      ∀ off : Int32, 0 ≤ off.toInt → off.toInt ≤ (units ps).length →
      ∃ r, find memos (bytes ps) (bytes qs) off = .ok r ∧
        LeastFrom (units ps) (units qs) off.toInt.toNat r.toInt) := by
  have hstring : Stands (utf16String us) us :=
    ⟨_,pointsOf_canonical us,utf16String_eq us,units_pointsOf us⟩
  refine ⟨utf16Units_eq memos hps.points,utf16String_units hps,hstring,fun hus => ?_,canon_canon,
    ⟨_,fuse_canonical hxs,canon_bytes hxs,units_fuse xs⟩,strlen_toInt memos hps.points,?_,?_,
    fun off length => subS_raises memos hps.points,?_,?_⟩
  · have hunits := utf16Units_eq memos (pointsOf_canonical us).points
    rw [units_pointsOf] at hunits
    rw [utf16String_eq]
    exact hunits hus
  · intro off length hoff hlength hfits
    obtain ⟨rs,hrs,hread,hunits⟩ := subS_slices memos hps off length off.toInt.toNat
      (off.toInt.toNat + length.toInt.toNat) (by omega) (by omega)
      (by omega) (by omega)
    rw [Nat.add_sub_cancel_left] at hunits
    exact ⟨_,hread,rs,hrs,rfl,hunits⟩
  · intro off hoff hfits
    obtain ⟨rs,hrs,hread,hunits⟩ := subS_slices memos hps off (-1) off.toInt.toNat
      (units ps).length (by omega) (by omega) le_rfl
      (.inr ⟨by decide,rfl⟩)
    rw [List.take_of_length_le (by rw [List.length_drop])] at hunits
    exact ⟨_,hread,rs,hrs,rfl,hunits⟩
  · have hpoints := List.forall_mem_append.mpr ⟨hps.points,hqs.points⟩
    exact ⟨_,fuse_canonical hpoints,concat_eq hps hqs,by rw [units_fuse,units_append]⟩
  · intro hne hlen hlen' off hoff hfits
    exact find_least memos hps hqs hne hlen hlen' (by omega) (by omega)

theorem runtime_simulates_sample :
    ∃ w, subS ⟨strMemo,fun _ => .fresh⟩ (bytes [97,128512]) 1 1 = .ok w ∧ Stands w [0xd83d] := by
  have hps : Canonical [97,128512] :=
    ⟨by decide,List.isChain_cons_cons.mpr ⟨by decide,List.IsChain.singleton _⟩⟩
  obtain ⟨_,_,_,_,_,_,_,hslice,_⟩ := runtime_simulates ⟨strMemo,fun _ => .fresh⟩ [97,128512] [98]
    [55357,56832] [0xd83d] hps ⟨by decide,List.IsChain.singleton _⟩ (by decide)
  exact hslice 1 1 (by decide) (by decide) (by decide)

theorem canonical_replicate (n : Nat) : Canonical (List.replicate n 97) where
  points p hp := by
    rw [(List.mem_replicate.mp hp).2]
    decide
  settled := List.isChain_replicate_of_rel n (by decide)

theorem units_replicate (n : Nat) : (units (List.replicate n 97)).length = n := by
  have hascii : ∀ p ∈ List.replicate n 97,p < 128 := fun p hp => by
    rw [(List.mem_replicate.mp hp).2]
    decide
  rw [(ascii_lengths hascii).2,List.length_replicate]

theorem empty_search_raises :
    find ⟨strMemo,fun _ => .fresh⟩ (bytes [97]) [] 0 = .error .strgParVal ∧
    find ⟨strMemo,fun _ => .fresh⟩ (bytes [97]) (bytes [97]) 2 = .error .rangeOutOfBounds ∧
    subS ⟨strMemo,fun _ => .fresh⟩ (bytes [97]) 0 (-1) = .ok (bytes [97]) ∧
    Canonical (List.replicate (2 ^ 31) 97) ∧
    (strlen ⟨strMemo,fun _ => .fresh⟩ (bytes (List.replicate (2 ^ 31) 97))).toInt = -2 ^ 31 ∧
    utf16Units ⟨strMemo,fun _ => .fresh⟩ (bytes (List.replicate (2 ^ 31) 97)) =
      .error .makeslice := by
  have hlong : (strlen ⟨strMemo,fun _ => .fresh⟩ (bytes (List.replicate (2 ^ 31) 97))).toInt =
      -2 ^ 31 := by
    rw [strlen_eq _ (canonical_replicate _).points,units_replicate]
    decide
  refine ⟨rfl,?_,rfl,canonical_replicate _,hlong,?_⟩
  · exact find_raises _ (canonical_replicate 1).points (List.cons_ne_nil _ _) (by decide)
  · rw [utf16Units,hlong]
    rfl

end OpenSteamgate.Text
