import OpenSteamgate.Files.Lines
import OpenSteamgate.Text.Runtime

namespace OpenSteamgate.Files

open Text Wtf8

variable {memos : Memos} {d target : Data} {v : Bytes} {ps : List Nat} {k : Nat}

section texts

theorem trimRight_blanks (v : Bytes) (k : Nat) : trimRight (v ++ List.replicate k blank) = trimRight v := by
  induction k with
  | zero => rw [List.replicate_zero,List.append_nil]
  | succ k ih =>
    rw [List.replicate_succ',← List.append_assoc,trimRight,List.rdropWhile_concat_pos _ _ _ rfl]
    exact ih

theorem bytes_blanks (k : Nat) : bytes (List.replicate k 32) = List.replicate k blank := by
  induction k with
  | zero => rfl
  | succ k ih =>
    rw [List.replicate_succ,bytes_cons,ih]
    rfl

theorem units_blanks (k : Nat) : (units (List.replicate k 32)).length = k := by
  induction k with
  | zero => rfl
  | succ k ih => rw [List.replicate_succ,units_cons,List.length_append,ih,Nat.add_comm]; rfl

theorem blank_lt {p : Nat} (hp : p ∈ List.replicate k 32) : p < limit := by
  rw [List.eq_of_mem_replicate hp]
  decide

theorem canonical_blanks (h : Canonical ps) (k : Nat) : Canonical (ps ++ List.replicate k 32) where
  points := List.forall_mem_append.mpr ⟨h.points,fun _ => blank_lt⟩
  settled := by
    refine List.isChain_append.mpr ⟨h.settled,?_,fun p _ q hq => ?_⟩
    · exact List.isChain_replicate_of_rel k fun hpair => absurd hpair.2.1 (by decide)
    · rw [List.eq_of_mem_replicate (List.mem_of_mem_head? hq)]
      exact fun hpair => absurd hpair.2.1 (by decide)

theorem unitsOfBytes_utf16le (us : List UInt16) : unitsOfBytes (utf16le us) = us := by
  induction us with
  | nil => rfl
  | cons u us ih =>
    have hu : u.toNat < 65536 := u.toNat_lt
    change UInt16.ofNat ((UInt8.ofNat (u.toNat % 256)).toNat + 256 * (UInt8.ofNat (u.toNat / 256)).toNat) ::
      unitsOfBytes (utf16le us) = _
    have hlow : (UInt8.ofNat (u.toNat % 256)).toNat = u.toNat % 256 :=
      toNat_byte (Nat.mod_lt _ (by decide))
    have hhigh : (UInt8.ofNat (u.toNat / 256)).toNat = u.toNat / 256 := toNat_byte (by omega)
    rw [ih,hlow,hhigh,Nat.mod_add_div,UInt16.ofNat_toNat]

theorem utf16le_length (us : List UInt16) : (utf16le us).length = us.length * 2 := by
  induction us with
  | nil => rfl
  | cons u us ih =>
    change (utf16le us).length + 2 = _
    rw [ih,List.length_cons,Nat.succ_mul]

theorem fromUtf16LE_utf16le (h : Canonical ps) : fromUtf16LE (utf16le (units ps)) = bytes ps := by
  rw [fromUtf16LE,unitsOfBytes_utf16le,utf16String_units h]

end texts

def maxFieldLength : Nat := 262143

def maxRawLength : Nat := 524287

theorem maxFieldLength_le : maxFieldLength ≤ maxRawLength := by decide

theorem maxRawLength_lt : maxRawLength < 2 ^ 31 := by decide

def Held (d : Data) : Prop :=
  match d.kind with
  | .c => 1 ≤ d.len ∧ d.len ≤ maxFieldLength ∧ trimRight d.value = d.value ∧
      ∃ ps,Canonical ps ∧ d.value = bytes ps ∧ (units ps).length ≤ d.len
  | .n => 1 ≤ d.len ∧ d.len ≤ maxFieldLength ∧ d.value.all isDigit = true ∧ d.value.length ≤ d.len
  | .d => d.len = 8 ∧ trimRight d.value = d.value ∧
      ∃ ps,Canonical ps ∧ d.value = bytes ps ∧ (units ps).length ≤ d.len
  | .t => d.len = 6 ∧ ∃ ps,Canonical ps ∧ d.value = bytes ps ∧ (units ps).length ≤ d.len
  | .x => 1 ≤ d.len ∧ d.len ≤ maxRawLength ∧ d.value.length ≤ d.len
  | .g | .y | .other => False

def Full (d : Data) : Prop :=
  match d.kind with
  | .n | .x => d.value.length = d.len
  | .d | .t => count16 d.value = d.len
  | .c | .g | .y | .other => True

def width (d : Data) : Nat := if d.kind = .x then d.len else d.len * 2

section images

theorem settled_small (h : ∀ p ∈ ps,p < 128) : Settled ps := by
  induction ps with
  | nil => exact List.isChain_nil
  | cons p ps ih =>
    refine List.isChain_cons.mpr ⟨fun q _ hpair => ?_,ih fun q hq => h q (List.mem_cons_of_mem _ hq)⟩
    exact absurd (hpair.1.1.trans_lt (h p (List.mem_cons_self ..))) (by decide)

theorem digits_canonical (hv : v.all isDigit = true) :
    Canonical (v.map UInt8.toNat) ∧ v = bytes (v.map UInt8.toNat) ∧
      (units (v.map UInt8.toNat)).length = v.length := by
  have hsmall : ∀ b ∈ v,b.toNat < 128 := by
    intro b hb
    have hdigit := List.all_eq_true.mp hv b hb
    rw [isDigit,Bool.and_eq_true,decide_eq_true_eq,decide_eq_true_eq] at hdigit
    exact Nat.lt_of_le_of_lt (UInt8.le_iff_toNat_le.mp hdigit.2) (by decide)
  have hpoints : ∀ p ∈ v.map UInt8.toNat,p < 128 := by
    intro p hp
    obtain ⟨b,hb,rfl⟩ := List.mem_map.mp hp
    exact hsmall b hb
  refine ⟨⟨fun p hp => (hpoints p hp).trans (by decide),settled_small hpoints⟩,?_,?_⟩
  · clear hv hpoints
    induction v with
    | nil => rfl
    | cons b v ih =>
      have hb := encode_one (hsmall b (List.mem_cons_self ..))
      rw [UInt8.ofNat_toNat] at hb
      rw [List.map_cons,bytes_cons,← ih fun c hc => hsmall c (List.mem_cons_of_mem _ hc),hb]
      rfl
  · rw [(ascii_lengths hpoints).2,List.length_map]

structure Spelled (memos : Memos) (d : Data) (ps : List Nat) : Prop where
  canonical : Canonical ps
  chars : charsOf memos d true = bytes ps
  short : (units ps).length ≤ d.len
  full : Full d ↔ (units ps).length = d.len
  back : Full d → ∀ old,moveString memos {d with value := old} (bytes ps) = .ok d

theorem cFit_eq (hps : ∀ p ∈ ps,p < limit) {n : Nat} (hlen : (units ps).length ≤ n) (hn : n < 2 ^ 31) :
    cFit memos (bytes ps) n = .ok (trimRight (bytes ps)) := by
  rw [cFit,strlen_toInt memos hps (hlen.trans_lt hn),if_neg (by omega)]
  rfl

theorem count16_eq (h : Canonical ps) {n : Nat} : count16 (bytes ps) = n ↔ (units ps).length = n := by
  rw [count16_bytes h.points]
  exact Int.ofNat_inj

theorem subS_whole (h : Canonical ps) {n : Nat} (hlen : (units ps).length = n) (hn : n < 2 ^ 31) :
    subS memos (bytes ps) 0 (Int32.ofInt n) = .ok (bytes ps) := by
  obtain ⟨qs,hqs,hsub,hunits⟩ := subS_slices memos h 0 (Int32.ofInt n) 0 n rfl (Nat.zero_le _) hlen.ge
    (.inl (by rw [toInt_small hn]; rfl))
  rw [List.drop_zero,Nat.sub_zero,List.take_of_length_le hlen.le] at hunits
  rw [hsub,← pointsOf_units hqs,hunits,pointsOf_units h]

theorem charsOf_other (hd : d.kind ≠ .c) (padded : Bool) : charsOf memos d padded = d.value := by
  rw [charsOf,if_neg hd]

theorem bytes_ne {n : Nat} (hunits : (units ps).length = n) (hn : n ≠ 0) : bytes ps ≠ [] := by
  refine bytes_ne_nil fun hnil => hn ?_
  rw [← hunits,hnil]
  rfl

theorem spelled_c (hd : d.kind = .c) (hheld : Held d) : ∃ ps,Spelled memos d ps := by
  obtain ⟨kind,len,value⟩ := d
  subst hd
  obtain ⟨-,hmax,htrim,ps,hps,hvalue,hlen⟩ := hheld
  dsimp only at hmax htrim hvalue hlen
  have hbound := (hmax.trans maxFieldLength_le).trans_lt maxRawLength_lt
  have hstrlen := strlen_toInt memos hps.points (hlen.trans_lt hbound)
  have hunits : (units (ps ++ List.replicate (len - (units ps).length) 32)).length = len := by
    rw [units_append,List.length_append,units_blanks]
    omega
  refine ⟨ps ++ List.replicate (len - (units ps).length) 32,canonical_blanks hps _,?_,hunits.le,
    iff_of_true trivial hunits,fun _ old => ?_⟩
  · rw [charsOf,if_pos rfl,htrim,hvalue,bytes_append,bytes_blanks]
    dsimp only
    rw [hstrlen]
    split
    · congr 2
      omega
    · rename_i hfull
      rw [not_and] at hfull
      have hzero : len - (units ps).length = 0 := by
        have := hfull rfl
        omega
      rw [hzero,List.replicate_zero,List.append_nil]
  · rw [moveString]
    dsimp only
    rw [cFit_eq (canonical_blanks hps _).points hunits.le hbound,bytes_append,bytes_blanks,
      trimRight_blanks,← hvalue,htrim]
    rfl

theorem spelled_n (hd : d.kind = .n) (hheld : Held d) : ∃ ps,Spelled memos d ps := by
  obtain ⟨kind,len,value⟩ := d
  subst hd
  obtain ⟨hpos,hmax,hdigits,hlen⟩ := hheld
  dsimp only at hpos hmax hdigits hlen
  obtain ⟨hcanonical,hvalue,hunits⟩ := digits_canonical hdigits
  refine ⟨value.map UInt8.toNat,hcanonical,?_,hunits.trans_le hlen,?_,fun hfull old => ?_⟩
  · exact (charsOf_other (show Kind.n ≠ Kind.c by decide) true).trans hvalue
  · rw [hunits]
    rfl
  · have hfull : value.length = len := hfull
    have hne : value ≠ [] := List.length_pos_iff.mp (hfull.symm ▸ hpos)
    rw [← hvalue,moveString]
    dsimp only
    rw [if_pos ⟨hne,hdigits,hlen⟩,hfull,Nat.sub_self]
    rfl

theorem spelled_d (hd : d.kind = .d) (hheld : Held d) : ∃ ps,Spelled memos d ps := by
  obtain ⟨kind,len,value⟩ := d
  subst hd
  obtain ⟨height,htrim,ps,hps,hvalue,hlen⟩ := hheld
  dsimp only at height htrim hvalue hlen
  subst height
  have hcount : count16 value = (8 : Nat) ↔ (units ps).length = 8 := by
    rw [hvalue]
    exact count16_eq hps
  refine ⟨ps,hps,?_,hlen,hcount,fun hfull old => ?_⟩
  · exact (charsOf_other (show Kind.d ≠ Kind.c by decide) true).trans hvalue
  · have hunits := hcount.mp hfull
    rw [moveString]
    dsimp only
    rw [s2d,if_neg (bytes_ne hunits (by decide)),cFit_eq hps.points hunits.le (by decide),← hvalue,htrim]
    rfl

theorem spelled_t (hd : d.kind = .t) (hheld : Held d) : ∃ ps,Spelled memos d ps := by
  obtain ⟨kind,len,value⟩ := d
  subst hd
  obtain ⟨hsix,ps,hps,hvalue,hlen⟩ := hheld
  dsimp only at hsix hvalue hlen
  subst hsix
  have hcount : count16 value = (6 : Nat) ↔ (units ps).length = 6 := by
    rw [hvalue]
    exact count16_eq hps
  refine ⟨ps,hps,?_,hlen,hcount,fun hfull old => ?_⟩
  · exact (charsOf_other (show Kind.t ≠ Kind.c by decide) true).trans hvalue
  · have hunits := hcount.mp hfull
    have hsub : subS memos (bytes ps) 0 (Int32.ofInt (6 : Nat)) = .ok (bytes ps) :=
      subS_whole hps hunits (by decide)
    rw [moveString]
    dsimp only
    rw [s2t,if_neg (bytes_ne hunits (by decide)),strlen_toInt memos hps.points (by omega),hunits]
    dsimp only
    rw [show min 6 ((6 : Nat) : Int) = ((6 : Nat) : Int) from rfl,hsub]
    change Except.ok (Data.mk .t 6 (bytes ps ++ zeros 0)) = _
    rw [zeros,List.replicate_zero,List.append_nil,← hvalue]

end images

end OpenSteamgate.Files
