import Mathlib.Data.List.Chain
import OpenSteamgate.Library.Marked

namespace Wtf8

def limit : Nat := 1114112

def High (p : Nat) : Prop := 55296 ≤ p ∧ p < 56320

def Low (p : Nat) : Prop := 56320 ≤ p ∧ p < 57344

def Half (p : Nat) : Prop := 55296 ≤ p ∧ p < 57344

instance : DecidablePred High := fun _ => inferInstanceAs (Decidable (_ ∧ _))

instance : DecidablePred Low := fun _ => inferInstanceAs (Decidable (_ ∧ _))

instance : DecidablePred Half := fun _ => inferInstanceAs (Decidable (_ ∧ _))

def encode (p : Nat) : List UInt8 :=
  if p < 128 then [UInt8.ofNat p]
  else if p < 2048 then [UInt8.ofNat (192 + p / 64),UInt8.ofNat (128 + p % 64)]
  else if p < 65536 then
    [UInt8.ofNat (224 + p / 4096),UInt8.ofNat (128 + p / 64 % 64),UInt8.ofNat (128 + p % 64)]
  else
    [UInt8.ofNat (240 + p / 262144),UInt8.ofNat (128 + p / 4096 % 64),
      UInt8.ofNat (128 + p / 64 % 64),UInt8.ofNat (128 + p % 64)]

def bytes (ps : List Nat) : List UInt8 := ps.flatMap encode

def high (p : Nat) : Nat := 55296 + (p - 65536) / 1024

def low (p : Nat) : Nat := 56320 + (p - 65536) % 1024

def join (h l : Nat) : Nat := 65536 + (h - 55296) * 1024 + (l - 56320)

def unitsOf (p : Nat) : List UInt16 :=
  if p < 65536 then [UInt16.ofNat p] else [UInt16.ofNat (high p),UInt16.ofNat (low p)]

def units (ps : List Nat) : List UInt16 := ps.flatMap unitsOf

def Settled (ps : List Nat) : Prop := ps.IsChain fun p q => ¬(High p ∧ Low q)

structure Canonical (ps : List Nat) : Prop where
  points : ∀ p ∈ ps, p < limit
  settled : Settled ps

@[grind =] def fuse : List Nat → List Nat
  | [] => []
  | [p] => [p]
  | p :: q :: ps => if High p ∧ Low q then join p q :: fuse ps else p :: fuse (q :: ps)

variable {p q : Nat} {ps qs : List Nat}

@[simp] theorem bytes_nil : bytes [] = [] := rfl

@[simp] theorem bytes_cons (p : Nat) (ps : List Nat) : bytes (p :: ps) = encode p ++ bytes ps := rfl

@[simp] theorem bytes_append (ps qs : List Nat) : bytes (ps ++ qs) = bytes ps ++ bytes qs :=
  List.flatMap_append

@[simp] theorem units_nil : units [] = [] := rfl

@[simp] theorem units_cons (p : Nat) (ps : List Nat) : units (p :: ps) = unitsOf p ++ units ps := rfl

@[simp] theorem units_append (ps qs : List Nat) : units (ps ++ qs) = units ps ++ units qs :=
  List.flatMap_append

theorem limit_eq : limit = 1114112 := rfl

theorem high_eq (p : Nat) : high p = 55296 + (p - 65536) / 1024 := rfl

theorem low_eq (p : Nat) : low p = 56320 + (p - 65536) % 1024 := rfl

theorem join_eq (h l : Nat) : join h l = 65536 + (h - 55296) * 1024 + (l - 56320) := rfl

theorem join_bounds (hp : High p) (hq : Low q) : 65536 ≤ join p q ∧ join p q < limit := by
  obtain ⟨hp,hp'⟩ := hp
  obtain ⟨hq,hq'⟩ := hq
  have := join_eq p q
  have := limit_eq
  omega

theorem high_join (hp : High p) (hq : Low q) : high (join p q) = p := by
  obtain ⟨hp,hp'⟩ := hp
  obtain ⟨hq,hq'⟩ := hq
  have := join_eq p q
  have := high_eq (join p q)
  omega

theorem low_join (hp : High p) (hq : Low q) : low (join p q) = q := by
  obtain ⟨hp,hp'⟩ := hp
  obtain ⟨hq,hq'⟩ := hq
  have := join_eq p q
  have := low_eq (join p q)
  omega

theorem join_high_low (hp : 65536 ≤ p) : join (high p) (low p) = p := by
  have := join_eq (high p) (low p)
  have := high_eq p
  have := low_eq p
  omega

theorem high_spec (hp : 65536 ≤ p) (hlt : p < limit) : High (high p) := by
  have := high_eq p
  have := limit_eq
  constructor
  · omega
  · omega

theorem low_spec (p : Nat) : Low (low p) := by
  have := low_eq p
  constructor
  · omega
  · omega

theorem unitsOf_join (hp : High p) (hq : Low q) :
    unitsOf (join p q) = [UInt16.ofNat p,UInt16.ofNat q] := by
  rw [unitsOf,if_neg (not_lt.mpr (join_bounds hp hq).1),high_join hp hq,low_join hp hq]

theorem High.lt (h : High p) : p < 65536 := h.2.trans (by decide)

theorem Low.lt (h : Low p) : p < 65536 := h.2.trans (by decide)

theorem High.not_low (h : High p) : ¬Low p := fun hl => absurd (h.2.trans_le hl.1) (lt_irrefl p)

theorem High.half (h : High p) : Half p := ⟨h.1,h.2.trans (by decide)⟩

theorem Low.half (h : Low p) : Half p := ⟨Nat.le_trans (by decide) h.1,h.2⟩

theorem units_fuse (ps : List Nat) : units (fuse ps) = units ps := by
  induction ps using fuse.induct with
  | case1 => rfl
  | case2 p => rfl
  | case3 p q ps h ih =>
    rw [fuse,if_pos h,units_cons,ih,unitsOf_join h.1 h.2,units_cons,units_cons,unitsOf,unitsOf,
      if_pos h.1.lt,if_pos h.2.lt]
    rfl
  | case4 p q ps h ih => rw [fuse,if_neg h,units_cons,ih,units_cons p (q :: ps)]

def pointsOf (us : List UInt16) : List Nat := fuse (us.map UInt16.toNat)

theorem fuse_points (h : ∀ p ∈ ps,p < limit) : ∀ p ∈ fuse ps,p < limit := by
  induction ps using fuse.induct with
  | case1 => exact h
  | case2 p => exact h
  | case3 p q ps hpq ih =>
    rw [fuse,if_pos hpq]
    refine List.forall_mem_cons.mpr ⟨(join_bounds hpq.1 hpq.2).2,ih ?_⟩
    exact fun r hr => h r (List.mem_cons_of_mem _ (List.mem_cons_of_mem _ hr))
  | case4 p q ps hpq ih =>
    rw [fuse,if_neg hpq]
    refine List.forall_mem_cons.mpr ⟨h p List.mem_cons_self,ih ?_⟩
    exact fun r hr => h r (List.mem_cons_of_mem _ hr)

theorem fuse_of_settled (h : Settled ps) : fuse ps = ps := by
  induction ps using fuse.induct with
  | case1 => rfl
  | case2 p => rfl
  | case3 p q ps hpq ih => exact ((List.isChain_cons_cons.mp h).1 hpq).elim
  | case4 p q ps hpq ih => rw [fuse,if_neg hpq,ih (List.isChain_cons_cons.mp h).2]

theorem fuse_head (q : Nat) (ps : List Nat) :
    ∃ r rest,fuse (q :: ps) = r :: rest ∧ (Low r → Low q) := by
  cases ps with
  | nil => exact ⟨q,[],rfl,id⟩
  | cons r ps =>
    by_cases h : High q ∧ Low r
    · refine ⟨join q r,fuse ps,by rw [fuse,if_pos h],fun hl => ?_⟩
      have := (join_bounds h.1 h.2).1
      have := hl.lt
      omega
    · exact ⟨q,fuse (r :: ps),by rw [fuse,if_neg h],id⟩

theorem fuse_settled (ps : List Nat) : Settled (fuse ps) := by
  induction ps using fuse.induct with
  | case1 => exact List.IsChain.nil
  | case2 p => exact List.IsChain.singleton p
  | case3 p q ps hpq ih =>
    rw [fuse,if_pos hpq]
    refine List.isChain_cons.mpr ⟨fun r _ hc => ?_,ih⟩
    have := (join_bounds hpq.1 hpq.2).1
    have := hc.1.lt
    omega
  | case4 p q ps hpq ih =>
    rw [fuse,if_neg hpq]
    obtain ⟨r,rest,hr,hlow⟩ := fuse_head q ps
    rw [hr] at ih ⊢
    exact List.isChain_cons_cons.mpr ⟨fun hc => hpq ⟨hc.1,hlow hc.2⟩,ih⟩

theorem toNat_unit {n : Nat} (h : n < 65536) : (UInt16.ofNat n).toNat = n :=
  UInt16.toNat_ofNat_of_lt' h

theorem unit_inj {n m : Nat} (hn : n < 65536) (hm : m < 65536)
    (h : UInt16.ofNat n = UInt16.ofNat m) : n = m := by
  rw [← toNat_unit hn,h,toNat_unit hm]

theorem unitsOf_small (h : p < 65536) : unitsOf p = [UInt16.ofNat p] := if_pos h

theorem unitsOf_large (h : 65536 ≤ p) : unitsOf p = [UInt16.ofNat (high p),UInt16.ofNat (low p)] :=
  if_neg (Nat.not_lt.mpr h)

theorem unitsOf_length (p : Nat) : (unitsOf p).length = if p < 65536 then 1 else 2 := by
  rw [unitsOf]
  split
  · rfl
  · rfl

theorem units_head (h : ∀ p ∈ ps,p < limit) {u : UInt16} {us : List UInt16}
    (hu : units ps = u :: us) : ∃ p rest,ps = p :: rest ∧ (Low u.toNat → Low p) := by
  cases ps with
  | nil => exact absurd hu (List.cons_ne_nil u us).symm
  | cons p ps =>
    refine ⟨p,ps,rfl,fun hlow => ?_⟩
    rcases Nat.lt_or_ge p 65536 with hp | hp
    · rw [units_cons,unitsOf_small hp] at hu
      rw [← (List.cons.inj hu).1,toNat_unit hp] at hlow
      exact hlow
    · have hhigh := high_spec hp (h p List.mem_cons_self)
      rw [units_cons,unitsOf_large hp] at hu
      rw [← (List.cons.inj hu).1,toNat_unit hhigh.lt] at hlow
      exact (hhigh.not_low hlow).elim

theorem fuse_cons_of_not (h : ∀ r rest,qs = r :: rest → ¬(High p ∧ Low r)) :
    fuse (p :: qs) = p :: fuse qs := by
  cases qs with
  | nil => rfl
  | cons r rest => rw [fuse,if_neg (h r rest rfl)]

theorem pointsOf_units (h : Canonical ps) : pointsOf (units ps) = ps := by
  obtain ⟨hpoints,hsettled⟩ := h
  induction ps with
  | nil => rfl
  | cons p ps ih =>
    obtain ⟨hp,hps⟩ := List.forall_mem_cons.mp hpoints
    have ih := ih hps hsettled.tail
    rw [pointsOf] at ih
    rcases Nat.lt_or_ge p 65536 with hsmall | hlarge
    · rw [pointsOf,units_cons,unitsOf_small hsmall,List.singleton_append,List.map_cons,
        toNat_unit hsmall,fuse_cons_of_not,ih]
      rintro r rest hr ⟨hhigh,hlow⟩
      obtain ⟨u,us,hu,rfl,rfl⟩ := List.map_eq_cons_iff.mp hr
      obtain ⟨q,qs,rfl,hq⟩ := units_head hps hu
      exact (List.isChain_cons_cons.mp hsettled).1 ⟨hhigh,hq hlow⟩
    · have hhigh := high_spec hlarge hp
      have hlow := low_spec p
      rw [pointsOf,units_cons,unitsOf_large hlarge,List.cons_append,List.singleton_append,
        List.map_cons,List.map_cons,toNat_unit hhigh.lt,toNat_unit hlow.lt,fuse,
        if_pos ⟨hhigh,hlow⟩,join_high_low hlarge,ih]

theorem units_pointsOf (us : List UInt16) : units (pointsOf us) = us := by
  rw [pointsOf,units_fuse]
  induction us with
  | nil => rfl
  | cons u us ih =>
    rw [List.map_cons,units_cons,ih,unitsOf_small u.toNat_lt,UInt16.ofNat_toNat,List.singleton_append]

theorem pointsOf_canonical (us : List UInt16) : Canonical (pointsOf us) where
  points := by
    refine fuse_points fun p hp => ?_
    obtain ⟨u,_,rfl⟩ := List.mem_map.mp hp
    exact u.toNat_lt.trans (by decide)
  settled := fuse_settled _

theorem fuse_canonical (h : ∀ p ∈ ps,p < limit) : Canonical (fuse ps) :=
  ⟨fuse_points h,fuse_settled ps⟩

theorem unit_code : Marked.Code (fun p => p < limit ∧ ¬Half p) (fun u => ¬Low u.toNat) unitsOf where
  shape p hp := by
    rcases Nat.lt_or_ge p 65536 with hsmall | hlarge
    · refine ⟨_,[],unitsOf_small hsmall,?_,List.forall_mem_nil _⟩
      rw [toNat_unit hsmall]
      exact fun hlow => hp.2 hlow.half
    · have hhigh := high_spec hlarge hp.1
      refine ⟨_,_,unitsOf_large hlarge,?_,List.forall_mem_singleton.mpr ?_⟩
      · rw [toNat_unit hhigh.lt]
        exact hhigh.not_low
      · rw [toNat_unit (low_spec p).lt]
        exact not_not.mpr (low_spec p)
  prefixFree p q hp hq h := by
    obtain ⟨t,ht⟩ := h
    rcases Nat.lt_or_ge p 65536 with hps | hpl
    · rcases Nat.lt_or_ge q 65536 with hqs | hql
      · rw [unitsOf_small hps,unitsOf_small hqs] at ht
        exact unit_inj hps hqs (List.cons.inj ht).1
      · have hhigh := high_spec hql hq.1
        rw [unitsOf_small hps,unitsOf_large hql] at ht
        have hp' := unit_inj hps hhigh.lt (List.cons.inj ht).1
        exact (hp.2 (hp' ▸ hhigh.half)).elim
    · rcases Nat.lt_or_ge q 65536 with hqs | hql
      · rw [unitsOf_large hpl,unitsOf_small hqs] at ht
        exact (List.cons_ne_nil _ _ (List.cons.inj ht).2).elim
      · have hhigh := high_spec hpl hp.1
        have hhigh' := high_spec hql hq.1
        rw [unitsOf_large hpl,unitsOf_large hql] at ht
        have hh := unit_inj hhigh.lt hhigh'.lt (List.cons.inj ht).1
        have hl := unit_inj (low_spec p).lt (low_spec q).lt (List.cons.inj (List.cons.inj ht).2).1
        rw [← join_high_low hpl,hh,hl,join_high_low hql]

end Wtf8
