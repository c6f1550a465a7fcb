import OpenSteamgate.Library.Padding
import OpenSteamgate.Text.Sections

namespace OpenSteamgate.Text

open Wtf8 Padding

def trimRight (v : List UInt8) : List UInt8 := trimmed 32 v

def cFit (memos : Memos) (v : List UInt8) (n : Int) : Except Raise (List UInt8) := do
  let v ← if n < (strlen memos v).toInt then subS memos v 0 (Int32.ofInt n) else .ok v
  .ok (trimRight v)

def padC (memos : Memos) (v : List UInt8) (n : Int) : List UInt8 :=
  let c := (strlen memos v).toInt
  if c < n then v ++ List.replicate (n - c).toNat 32 else v

def joinUTF16 (parts : List (List UInt8)) : List UInt8 := canon parts.flatten

def whole (memos : Memos) (base : List UInt8) (limit : Int) : Except Raise (List UInt8) :=
  if 0 ≤ limit then do
    let v ← cFit memos base limit
    .ok (padC memos v limit)
  else .ok base

namespace Subwrite

def char (memos : Memos) (base : List UInt8) (off length : Int32) (value : List UInt8) (limit : Int) :
    Except Raise (List UInt8) := do
  let base ← whole memos base limit
  let length := if length < 0 then strlen memos base - off else length
  let _ ← subS memos base off length
  let value ← subS memos value 0 (min length (strlen memos value))
  let value := padC memos value length.toInt
  let before ← subS memos base 0 off
  let after ← subS memos base (off + length) (-1)
  let out := joinUTF16 [before,value,after]
  if 0 ≤ limit then cFit memos out limit else .ok out

end Subwrite

namespace Charsection

def replace (memos : Memos) (s with' : List UInt8) (off n : Int32) (limit : Int) :
    Except Raise (List UInt8 × Int32) := do
  let s ← whole memos s limit
  let (start,stop) ← Bytesection.bounds (strlen memos s).toInt off n
  let before ← subS memos s 0 (Int32.ofInt start)
  let after ← subS memos s (Int32.ofInt stop) (-1)
  let out := joinUTF16 [before,with',after]
  if limit < 0 then .ok (out,0)
  else if limit < (strlen memos out).toInt then
    let out ← subS memos out 0 (Int32.ofInt limit)
    .ok (trimRight out,2)
  else .ok (trimRight out,0)

end Charsection

section stands

variable {memos : Memos} {v w : List UInt8} {us ts : List UInt16}

theorem stands_bytes {ps : List Nat} (h : Canonical ps) : Stands (bytes ps) (units ps) := ⟨ps,h,rfl,rfl⟩

theorem stands_unique (h : Stands v us) (h' : Stands w us) : v = w := by
  obtain ⟨ps,hps,rfl,rfl⟩ := h
  obtain ⟨qs,hqs,rfl,hunits⟩ := h'
  rw [← pointsOf_units hps,← hunits,pointsOf_units hqs]

theorem Stands.strlen (h : Stands v us) (hlen : us.length < 2 ^ 31) :
    (Text.strlen memos v).toInt = us.length := by
  obtain ⟨ps,hps,rfl,rfl⟩ := h
  exact strlen_toInt memos hps.points hlen

theorem Stands.subS (h : Stands v us) {off length : Int32} {lo n : Nat} (hoff : off.toInt = lo)
    (hn : lo + n ≤ us.length) (hlength : length.toInt = n ∨ length.toInt < 0 ∧ lo + n = us.length) :
    ∃ w,Text.subS memos v off length = .ok w ∧ Stands w ((us.drop lo).take n) := by
  obtain ⟨ps,hps,rfl,rfl⟩ := h
  obtain ⟨qs,hqs,hread,hunits⟩ := subS_slices memos hps off length lo (lo + n) hoff (by omega) hn
    (hlength.imp (fun h => by omega) fun h => ⟨h.1,h.2⟩)
  rw [Nat.add_sub_cancel_left] at hunits
  exact ⟨_,hread,qs,hqs,rfl,hunits⟩

theorem Stands.subS_raises (h : Stands v us) {off length : Int32}
    (hout : off.toInt < 0 ∨ (us.length : Int) < off.toInt ∨
      0 ≤ length.toInt ∧ (us.length : Int) < off.toInt + length.toInt) :
    Text.subS memos v off length = .error .rangeOutOfBounds := by
  obtain ⟨ps,hps,rfl,rfl⟩ := h
  exact Text.subS_raises memos hps.points hout

theorem Stands.join {xs ys : List UInt8} {as bs : List UInt16} (h : Stands v us) (hx : Stands xs as)
    (hy : Stands ys bs) : Stands (joinUTF16 [v,xs,ys]) (us ++ as ++ bs) := by
  obtain ⟨ps,hps,rfl,rfl⟩ := h
  obtain ⟨qs,hqs,rfl,rfl⟩ := hx
  obtain ⟨rs,hrs,rfl,rfl⟩ := hy
  have hpoints : ∀ p ∈ ps ++ (qs ++ rs),p < limit :=
    List.forall_mem_append.mpr ⟨hps.points,List.forall_mem_append.mpr ⟨hqs.points,hrs.points⟩⟩
  refine ⟨_,fuse_canonical hpoints,?_,by simp [units_fuse]⟩
  rw [← canon_bytes hpoints]
  simp [joinUTF16]

theorem byte_last {p : Nat} (hne : p ≠ 32) : ∃ b bs,encode p = bs ++ [b] ∧ b ≠ 32 := by
  have hlast (n : Nat) : UInt8.ofNat (128 + n % 64) ≠ 32 := by
    intro h
    have hnat := congrArg UInt8.toNat h
    rw [toNat_byte (by omega)] at hnat
    have hblank : (32 : UInt8).toNat = 32 := rfl
    omega
  rcases Nat.lt_or_ge p 128 with h | h
  · refine ⟨UInt8.ofNat p,[],encode_one h,fun heq => hne ?_⟩
    have hnat := congrArg UInt8.toNat heq
    rwa [toNat_byte (by omega)] at hnat
  · rcases Nat.lt_or_ge p 2048 with h' | h'
    · exact ⟨_,[_],encode_two h h',hlast p⟩
    · rcases Nat.lt_or_ge p 65536 with h'' | h''
      · exact ⟨_,[_,_],encode_three h' h'',hlast p⟩
      · exact ⟨_,[_,_,_],encode_four h'',hlast p⟩

theorem unit_last {p : Nat} (hne : p ≠ 32) : ∃ b bs,unitsOf p = bs ++ [b] ∧ b ≠ 32 := by
  have hblank : (32 : UInt16).toNat = 32 := rfl
  rcases Nat.lt_or_ge p 65536 with h | h
  · refine ⟨UInt16.ofNat p,[],unitsOf_small h,fun heq => hne ?_⟩
    have hnat := congrArg UInt16.toNat heq
    rwa [toNat_unit h] at hnat
  · refine ⟨UInt16.ofNat (low p),[_],unitsOf_large h,fun heq => ?_⟩
    have hlow := low_spec p
    have hnat := congrArg UInt16.toNat heq
    rw [toNat_unit hlow.lt] at hnat
    have hge := hlow.1
    omega

theorem Stands.trimRight (h : Stands v us) : Stands (Text.trimRight v) (trimmed 32 us) := by
  obtain ⟨ps,hps,rfl,rfl⟩ := h
  obtain ⟨k,hk⟩ := trimmed_split 32 ps
  have hbegins : trimmed 32 ps <+: ps := ⟨_,hk.symm⟩
  have hbytes : trimmed 32 (ps.flatMap encode) = (trimmed 32 ps).flatMap encode :=
    trimmed_flatMap rfl fun p _ hne => byte_last hne
  have hunits : trimmed 32 (ps.flatMap unitsOf) = (trimmed 32 ps).flatMap unitsOf :=
    trimmed_flatMap rfl fun p _ hne => unit_last hne
  exact ⟨trimmed 32 ps,⟨fun p hp => hps.points p (hbegins.subset hp), List.IsChain.prefix hps.settled hbegins⟩,
    hbytes,hunits.symm⟩

theorem Stands.blanks (h : Stands v us) (k : Nat) :
    Stands (v ++ List.replicate k 32) (us ++ List.replicate k 32) := by
  obtain ⟨ps,hps,rfl,rfl⟩ := h
  have hbytes : bytes (List.replicate k 32) = List.replicate k 32 := by
    rw [bytes,List.flatMap_replicate]
    exact List.flatten_replicate_singleton
  have hunits : units (List.replicate k 32) = List.replicate k 32 := by
    rw [units,List.flatMap_replicate]
    exact List.flatten_replicate_singleton
  refine ⟨ps ++ List.replicate k 32,⟨?_,?_⟩,by rw [bytes_append,hbytes],by rw [units_append,hunits]⟩
  · refine List.forall_mem_append.mpr ⟨hps.points,fun p hp => ?_⟩
    rw [(List.mem_replicate.mp hp).2]
    decide
  · refine List.isChain_append.mpr ⟨hps.settled,List.isChain_replicate_of_rel k (by decide),?_⟩
    intro x _ y hy hxy
    have hblank := (List.mem_replicate.mp (List.mem_of_mem_head? hy)).2
    rw [hblank] at hxy
    exact absurd hxy.2 (by decide)

theorem Stands.cFit (h : Stands v us) (hlen : us.length < 2 ^ 31) (n : Nat) :
    ∃ w,Text.cFit memos v n = .ok w ∧ Stands w (trimmed 32 (us.take n)) := by
  rw [Text.cFit,h.strlen hlen]
  split
  · rename_i hlong
    obtain ⟨w,hw,hstands⟩ := @Stands.subS memos v us h 0 (Int32.ofInt n) 0 n rfl (by omega)
      (.inl (toInt_small (by omega)))
    rw [hw]
    exact ⟨_,rfl,hstands.trimRight⟩
  · rw [List.take_of_length_le (by omega)]
    exact ⟨_,rfl,h.trimRight⟩

theorem Stands.padC (h : Stands v us) (hlen : us.length < 2 ^ 31) {n : Nat} (hn : us.length ≤ n) :
    Stands (Text.padC memos v n) (padded 32 n us) := by
  rw [Text.padC,h.strlen hlen,padded,List.take_of_length_le hn]
  split
  · have hcount : ((n : Int) - us.length).toNat = n - us.length := by omega
    rw [hcount]
    exact h.blanks _
  · have hcount : n - us.length = 0 := by omega
    rw [hcount,List.replicate_zero,List.append_nil]
    exact h

def fieldOf (limit : Int) (us : List UInt16) : List UInt16 :=
  if 0 ≤ limit then padded 32 limit.toNat us else us

theorem length_fieldOf {limit : Int} (hlen : us.length < 2 ^ 31) (hlimit : limit < 2 ^ 31) :
    (fieldOf limit us).length < 2 ^ 31 := by
  rw [fieldOf]
  split
  · rw [length_padded]
    omega
  · exact hlen

theorem Stands.whole (h : Stands v us) (hlen : us.length < 2 ^ 31) {limit : Int} (hlimit : limit < 2 ^ 31) :
    ∃ w,Text.whole memos v limit = .ok w ∧ Stands w (fieldOf limit us) := by
  rw [Text.whole,fieldOf]
  split
  · rename_i hfield
    obtain ⟨n,rfl⟩ := Int.eq_ofNat_of_zero_le hfield
    obtain ⟨w,hw,hstands⟩ := @Stands.cFit memos v us h hlen n
    have hshort := length_trimmed 32 (us.take n)
    rw [List.length_take] at hshort
    have hpad := @Stands.padC memos w _ hstands (by omega) n (by omega)
    rw [padded_trimmed,padded_take] at hpad
    rw [hw]
    exact ⟨_,rfl,hpad⟩
  · exact ⟨v,rfl,h⟩

end stands

section char

variable {memos : Memos} {base value : List UInt8} {us ts : List UInt16} {off length : Int32} {limit : Int}

theorem sub_toInt {a b : Int32} (h : -2 ^ 31 ≤ a.toInt - b.toInt) (h' : a.toInt - b.toInt < 2 ^ 31) :
    (a - b).toInt = a.toInt - b.toInt := by
  rw [Int32.toInt_sub,Int.bmod_def]
  split <;> omega

theorem add_toInt {a b : Int32} (h : -2 ^ 31 ≤ a.toInt + b.toInt) (h' : a.toInt + b.toInt < 2 ^ 31) :
    (a + b).toInt = a.toInt + b.toInt := by
  rw [Int32.toInt_add,Int.bmod_def]
  split <;> omega

theorem min_toInt (a b : Int32) : (min a b).toInt = min a.toInt b.toInt := by
  have h := @Int32.le_iff_toInt_le a b
  rw [show min a b = if a ≤ b then a else b from rfl]
  split
  · rename_i hle
    rw [min_eq_left (h.mp hle)]
  · rename_i hle
    rw [min_eq_right (Int.le_of_not_le (mt h.mpr hle))]

def overwritten (us ts : List UInt16) (lo n : Nat) : List UInt16 :=
  us.take lo ++ padded 32 n ts ++ us.drop (lo + n)

theorem length_overwritten {lo n : Nat} (h : lo + n ≤ us.length) :
    (overwritten us ts lo n).length = us.length := by
  simp [overwritten,length_padded]
  omega

theorem joined_section (hb : Stands base us) (hv : Stands value ts)
    {lo n : Nat} (hoff : off.toInt = lo) (hn : lo + n ≤ us.length) {stop : Int32}
    (hstop : stop.toInt = (lo + n : Nat)) : ∃ before after,subS memos base 0 off = .ok before ∧
      subS memos base stop (-1) = .ok after ∧
      Stands (joinUTF16 [before,value,after]) (us.take lo ++ ts ++ us.drop (lo + n)) := by
  obtain ⟨before,hbefore,hx⟩ := @Stands.subS memos base us hb 0 off 0 lo rfl (by omega) (.inl hoff)
  obtain ⟨after,hafter,hy⟩ := @Stands.subS memos base us hb stop (-1) (lo + n) (us.length - (lo + n))
    hstop (by omega) (.inr ⟨by decide,by omega⟩)
  rw [List.take_of_length_le (by rw [List.length_drop])] at hy
  exact ⟨before,after,hbefore,hafter,hx.join hv hy⟩

theorem char_writes (hb : Stands base us) (hv : Stands value ts) (hlen : us.length < 2 ^ 31)
    (hlen' : ts.length < 2 ^ 31) (hlimit : limit < 2 ^ 31) {lo n : Nat} (hoff : off.toInt = lo)
    (hn : lo + n ≤ (fieldOf limit us).length)
    (hlength : length.toInt = n ∨ length.toInt < 0 ∧ lo + n = (fieldOf limit us).length) :
    ∃ out,Subwrite.char memos base off length value limit =
        (if 0 ≤ limit then cFit memos out limit else .ok out) ∧
      Stands out (overwritten (fieldOf limit us) ts lo n) := by
  obtain ⟨field,hfield,hf⟩ := @Stands.whole memos base us hb hlen limit hlimit
  have hsize := length_fieldOf hlen hlimit
  have hlength' : (if length < 0 then strlen memos field - off else length).toInt = n := by
    have hcount := @Stands.strlen memos field _ hf hsize
    rcases hlength with hlength | ⟨hneg,hend⟩
    · rw [if_neg (by rw [neg32]; omega)]
      exact hlength
    · rw [if_pos (neg32.mpr hneg),sub_toInt (by omega) (by omega)]
      omega
  have hmin : (min (if length < 0 then strlen memos field - off else length) (strlen memos value)).toInt =
      (min n ts.length : Nat) := by
    rw [min_toInt,hlength',@Stands.strlen memos value _ hv hlen']
    exact (Nat.cast_min _ _).symm
  obtain ⟨checked,hchecked,-⟩ := @Stands.subS memos field _ hf off
    (if length < 0 then strlen memos field - off else length) lo n hoff hn (.inl hlength')
  obtain ⟨cut,hcut,hcutStands⟩ := @Stands.subS memos value _ hv 0
    (min (if length < 0 then strlen memos field - off else length) (strlen memos value)) 0
    (min n ts.length) rfl (by omega) (.inl hmin)
  have hpadded : padded 32 n ((ts.drop 0).take (min n ts.length)) = padded 32 n ts := by
    rw [List.drop_zero,← padded_take ts]
    congr 1
    rcases Nat.le_total n ts.length with h | h
    · rw [Nat.min_eq_left h]
    · rw [Nat.min_eq_right h,List.take_of_length_le le_rfl,List.take_of_length_le h]
  have hcutLength : ((ts.drop 0).take (min n ts.length)).length ≤ n := by
    rw [List.length_take]
    omega
  have hfill := @Stands.padC memos cut _ hcutStands (by omega) n hcutLength
  rw [hpadded] at hfill
  obtain ⟨before,after,hbefore,hafter,hjoined⟩ := @joined_section memos field
    (padC memos cut n) _ _ off hf hfill lo n hoff hn
    (off + if length < 0 then strlen memos field - off else length)
    ((add_toInt (by omega) (by omega)).trans (by omega))
  refine ⟨_,?_,hjoined⟩
  rw [Subwrite.char,hfield]
  simp only [bind,Except.bind,hchecked,hcut,hlength',hbefore,hafter]

theorem char_raises (hb : Stands base us) (hlen : us.length < 2 ^ 31) (hlimit : limit < 2 ^ 31)
    (hout : ¬Within (fieldOf limit us).length off length) :
    Subwrite.char memos base off length value limit = .error .rangeOutOfBounds := by
  obtain ⟨field,hfield,hf⟩ := @Stands.whole memos base us hb hlen limit hlimit
  rw [within_iff] at hout
  have hraises := @Stands.subS_raises memos field _ hf off
    (if length < 0 then strlen memos field - off else length) (by
      by_cases hneg : length.toInt < 0
      · omega
      · rw [if_neg (by rw [neg32]; exact hneg)]
        omega)
  rw [Subwrite.char,hfield]
  simp only [bind,Except.bind,hraises]

theorem replace_joins (hb : Stands base us) (hv : Stands value ts) (hlen : us.length < 2 ^ 31)
    (hlimit : limit < 2 ^ 31) {lo n : Nat} (hoff : off.toInt = lo)
    (hn : lo + n ≤ (fieldOf limit us).length) (hts : ts.length = n)
    (hlength : length.toInt = n ∨ length = Bytesection.noLength ∧ lo + n = (fieldOf limit us).length) :
    ∃ out,Charsection.replace memos base value off length limit =
        .ok (if 0 ≤ limit then trimRight out else out,0) ∧
      Stands out (overwritten (fieldOf limit us) ts lo n) := by
  obtain ⟨field,hfield,hf⟩ := @Stands.whole memos base us hb hlen limit hlimit
  have hsize := length_fieldOf hlen hlimit
  have hcount := @Stands.strlen memos field _ hf hsize
  have hbounds := bounds_answers (fieldOf limit us).length off length
  have hmin : Bytesection.noLength.toInt < 0 := by decide
  have hend : endOf (fieldOf limit us).length off length = lo + n := by
    rcases hlength with hlength | ⟨rfl,hend⟩
    · rw [endOf_nonneg (by omega)]
      omega
    · rw [endOf_neg hmin,hend]
  have hwithin : Within (fieldOf limit us).length off length := by
    rw [within_iff]
    rcases hlength with hlength | ⟨rfl,hend⟩
    · omega
    · omega
  obtain ⟨w,hw,rfl⟩ := hbounds.1 ⟨hwithin,hlength.imp (fun h => by omega) (·.1)⟩
  rw [hend] at hw
  have hself : padded 32 n ts = ts := by rw [← hts,padded_self]
  have hstart : (Int32.ofInt (lo : Int)) = off := by
    rw [← hoff,Int32.ofInt_toInt]
  obtain ⟨before,after,hbefore,hafter,hjoined⟩ := @joined_section memos field value _ _ off hf hv lo n
    hoff hn (Int32.ofInt ((lo + n : Nat) : Int)) (toInt_small (by omega))
  have houtLength := @length_overwritten (fieldOf limit us) ts lo n hn
  rw [overwritten,hself] at houtLength ⊢
  refine ⟨_,?_,hjoined⟩
  have houtCount := @Stands.strlen memos _ _ hjoined (by omega)
  rw [Charsection.replace,hfield]
  simp only [bind,Except.bind,hcount,hw,hoff,hstart,hbefore,hafter]
  split
  · rename_i hneg
    rw [if_neg (by omega)]
  · rename_i hneg
    have hfit : (fieldOf limit us).length = limit.toNat := by
      rw [fieldOf,if_pos (by omega),length_padded]
    rw [houtCount,if_neg (by omega),if_pos (by omega)]

structure Writes (memos : Memos) (base value : List UInt8) (us ts : List UInt16) (off length : Int32)
    (limit : Int) (lo n : Nat) : Prop where
  written : ∃ w rs,Subwrite.char memos base off length value limit = .ok w ∧ Stands w rs ∧
    rs.length ≤ (fieldOf limit us).length ∧
    padded 32 (fieldOf limit us).length rs = overwritten (fieldOf limit us) ts lo n
  replaced : ts.length = n → ∀ m : Int32,
    m.toInt = n ∨ m = Bytesection.noLength ∧ lo + n = (fieldOf limit us).length →
    ∃ w,Subwrite.char memos base off length value limit = .ok w ∧
      Charsection.replace memos base value off m limit = .ok (w,0)

theorem writes (hb : Stands base us) (hv : Stands value ts) (hlen : us.length < 2 ^ 31)
    (hlen' : ts.length < 2 ^ 31) (hlimit : limit < 2 ^ 31) {lo n : Nat} (hoff : off.toInt = lo)
    (hn : lo + n ≤ (fieldOf limit us).length)
    (hlength : length.toInt = n ∨ length.toInt < 0 ∧ lo + n = (fieldOf limit us).length) :
    Writes memos base value us ts off length limit lo n := by
  obtain ⟨out,hout,hstands⟩ := @char_writes memos base value us ts off length limit hb hv hlen hlen'
    hlimit lo n hoff hn hlength
  have hsize := length_fieldOf hlen hlimit
  have houtLength := @length_overwritten (fieldOf limit us) ts lo n hn
  by_cases hfield : 0 ≤ limit
  · obtain ⟨k,rfl⟩ := Int.eq_ofNat_of_zero_le hfield
    have hk : (fieldOf (k : Int) us).length = k := by
      rw [fieldOf,if_pos hfield,length_padded,Int.toNat_natCast]
    rw [if_pos hfield] at hout
    have hcount := @Stands.strlen memos out _ hstands (by omega)
    have hfit : cFit memos out k = .ok (trimRight out) := by
      rw [cFit,hcount,if_neg (by omega)]
      rfl
    rw [hfit] at hout
    constructor
    · refine ⟨_,_,hout,hstands.trimRight,?_,?_⟩
      · exact (length_trimmed _ _).trans (by omega)
      · rw [padded_trimmed,← houtLength,padded_self]
    · intro hts m hm
      obtain ⟨out',hout',hstands'⟩ := @replace_joins memos base value us ts off m (k : Int) hb hv hlen hlimit
        lo n hoff hn hts hm
      obtain rfl := stands_unique hstands hstands'
      rw [if_pos hfield] at hout'
      exact ⟨_,hout,hout'⟩
  · rw [if_neg hfield] at hout
    constructor
    · exact ⟨_,_,hout,hstands,by omega,by rw [← houtLength,padded_self]⟩
    · intro hts m hm
      obtain ⟨out',hout',hstands'⟩ := @replace_joins memos base value us ts off m limit hb hv hlen hlimit
        lo n hoff hn hts hm
      obtain rfl := stands_unique hstands hstands'
      rw [if_neg hfield] at hout'
      exact ⟨_,hout,hout'⟩

theorem char_exact (memos : Memos) {ps qs : List Nat} (hps : Canonical ps) (hqs : Canonical qs)
    (hlen : (units ps).length < 2 ^ 31) (hlen' : (units qs).length < 2 ^ 31) {limit : Int}
    (hlimit : limit < 2 ^ 31) (off length : Int32) :
    (Within (fieldOf limit (units ps)).length off length →
      Writes memos (bytes ps) (bytes qs) (units ps) (units qs) off length limit off.toInt.toNat
        (endOf (fieldOf limit (units ps)).length off length - off.toInt.toNat)) ∧
    (¬Within (fieldOf limit (units ps)).length off length →
      Subwrite.char memos (bytes ps) off length (bytes qs) limit = .error .rangeOutOfBounds) := by
  refine ⟨fun hin => ?_,char_raises (stands_bytes hps) hlen hlimit⟩
  have hiff := within_iff.mp hin
  by_cases hneg : length.toInt < 0
  · rw [endOf_neg hneg]
    exact writes (stands_bytes hps) (stands_bytes hqs) hlen hlen' hlimit (by omega) (by omega)
      (.inr ⟨hneg,by omega⟩)
  · rw [endOf_nonneg (by omega)]
    exact writes (stands_bytes hps) (stands_bytes hqs) hlen hlen' hlimit (by omega) (by omega)
      (.inl (by omega))

theorem char_exact_pair : ∃ w rs,
    Subwrite.char ⟨strMemo,fun _ => .fresh⟩ (bytes [97,128512,98]) 2 2 (bytes [0xdca9]) (-1) = .ok w ∧
      Stands w rs ∧ padded 32 4 rs = [97,0xd83d,0xdca9,32] := by
  have hps : Canonical [97,128512,98] := ⟨by decide,by unfold Settled; decide⟩
  have hqs : Canonical [0xdca9] := ⟨by decide,List.IsChain.singleton _⟩
  obtain ⟨w,rs,hw,hstands,-,hpad⟩ := ((char_exact ⟨strMemo,fun _ => .fresh⟩ hps hqs (by decide) (by decide)
    (by decide : (-1 : Int) < 2 ^ 31) 2 2).1 ⟨by decide,by decide,by decide⟩).written
  exact ⟨w,rs,hw,hstands,hpad⟩

theorem long_base (hb : Stands base us) (hlen : us.length = 2 ^ 31)
    (hcount : strlen memos base = Int32.minValue) :
    Subwrite.char memos base 0 (-1) (bytes []) (-1) = .error .rangeOutOfBounds := by
  have hnil : Stands (bytes []) [] := ⟨[],⟨by simp,List.IsChain.nil⟩,rfl,rfl⟩
  have hvalue := @Stands.strlen memos _ _ hnil (by simp)
  have hvalue : strlen memos (bytes []) = 0 := Int32.toInt_inj.mp hvalue
  obtain ⟨checked,hchecked,-⟩ := @Stands.subS memos base us hb 0 Int32.minValue 0 us.length rfl
    (by omega) (.inr ⟨by decide,by omega⟩)
  obtain ⟨cut,hcut,-⟩ := @Stands.subS memos _ _ hnil 0 Int32.minValue 0 0 rfl (by simp) (.inr ⟨by decide,rfl⟩)
  obtain ⟨before,hbefore,-⟩ := @Stands.subS memos base us hb 0 0 0 0 rfl (by omega) (.inl rfl)
  have hafter := @Stands.subS_raises memos base us hb Int32.minValue (-1) (.inl (by decide))
  have hsize : Int32.minValue - 0 = Int32.minValue := rfl
  have hstop : 0 + Int32.minValue = Int32.minValue := rfl
  have hmin : min Int32.minValue 0 = Int32.minValue := rfl
  rw [Subwrite.char,whole,if_neg (by decide)]
  simp only [bind,Except.bind,if_pos (show (-1 : Int32) < 0 by decide),hcount,hvalue,hsize,hstop,hmin,hchecked,
    hcut,hbefore,hafter]

theorem long_base_raises : Canonical (List.replicate (2 ^ 31) 97) ∧ Canonical [] ∧
    Within (fieldOf (-1) (units (List.replicate (2 ^ 31) 97))).length 0 (-1) ∧
    Subwrite.char ⟨strMemo,fun _ => .fresh⟩ (bytes (List.replicate (2 ^ 31) 97)) 0 (-1) (bytes []) (-1) =
      .error .rangeOutOfBounds := by
  have hlong := canonical_replicate (2 ^ 31)
  have hlength := units_replicate (2 ^ 31)
  have hcount : strlen ⟨strMemo,fun _ => .fresh⟩ (bytes (List.replicate (2 ^ 31) 97)) = Int32.minValue := by
    rw [strlen_eq _ hlong.points,hlength]
    decide
  generalize List.replicate (2 ^ 31) 97 = ps at hlong hlength hcount
  refine ⟨hlong,⟨by simp,List.IsChain.nil⟩,?_,long_base (stands_bytes hlong) hlength hcount⟩
  have hfield : (fieldOf (-1) (units ps)).length = 2 ^ 31 := by
    rw [fieldOf,if_neg (by decide)]
    exact hlength
  rw [hfield]
  exact ⟨by decide,by decide,fun h => absurd h (by decide)⟩

end char

end OpenSteamgate.Text
