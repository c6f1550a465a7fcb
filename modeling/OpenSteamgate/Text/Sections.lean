import OpenSteamgate.Text.Runtime

namespace OpenSteamgate.Text

open Wtf8

def slice {α : Type} (v : List α) (a b : Int) : Except Raise (List α) :=
  if 0 ≤ a ∧ a ≤ b ∧ b ≤ v.length then .ok ((v.drop a.toNat).take (b - a).toNat) else .error .slice

def subX (v : List UInt8) (off length : Int32) : Except Raise (List UInt8) :=
  let n := Int32.ofInt v.length
  if off < 0 ∨ n < off then .error .rangeOutOfBounds
  else if length < 0 then slice v off.toInt v.length
  else if n < off + length then .error .rangeOutOfBounds
  else slice v off.toInt (off + length).toInt

def xFit (v : List UInt8) (n : Int) : Except Raise (List UInt8) :=
  if n ≤ v.length then slice v 0 n else .ok (v ++ List.replicate (n - v.length).toNat 0)

namespace Subwrite

def x (base : List UInt8) (off length : Int32) (value : List UInt8) : Except Raise (List UInt8) := do
  let _ ← subX base off length
  let before ← slice base 0 off.toInt
  let fitted ← xFit value length.toInt
  let after ← slice base (off + length).toInt base.length
  .ok (before ++ fitted ++ after)

end Subwrite

namespace Bytesection

def noLength : Int32 := Int32.minValue

def bounds (size : Int) (off n : Int32) : Except Raise (Int × Int) :=
  let stop : Int := if n ≠ noLength then off.toInt + n.toInt else size
  if off.toInt < 0 ∨ size < off.toInt ∨ stop < 0 ∨ size < stop ∨ n < 0 ∧ n ≠ noLength then
    .error .rangeOutOfBounds
  else .ok (off.toInt,stop)

def replace (s with' : List UInt8) (off n : Int32) : Except Raise (List UInt8) := do
  let (start,stop) ← bounds s.length off n
  let before ← slice s 0 start
  let after ← slice s stop s.length
  .ok (before ++ with' ++ after)

end Bytesection

structure Within (size : Nat) (off length : Int32) : Prop where
  nonneg : 0 ≤ off.toInt
  start : off.toInt ≤ size
  stop : 0 ≤ length.toInt → off.toInt + length.toInt ≤ size

def endOf (size : Nat) (off length : Int32) : Nat :=
  if 0 ≤ length.toInt then (off.toInt + length.toInt).toNat else size

def Answers {α : Type} (inside : Prop) (P : α → Prop) (r : Except Raise α) : Prop :=
  (inside → ∃ w,r = .ok w ∧ P w) ∧ (¬inside → r = .error .rangeOutOfBounds)

def Written (v : List UInt8) (start stop : Nat) (value w : List UInt8) : Prop :=
  w.length = v.length ∧
    ∀ i,w[i]? = if start ≤ i ∧ i < stop then some (value.getD (i - start) 0) else v[i]?

structure Bounded (v : List UInt8) (off length : Int32) : Prop where
  text : ∀ memos ps,Canonical ps → (units ps).length = v.length → Answers (Within v.length off length)
    (fun w => Stands w
      (((units ps).drop off.toInt.toNat).take (endOf v.length off length - off.toInt.toNat)))
    (subS memos (bytes ps) off length)
  bounds : Answers (Within v.length off length ∧ (0 ≤ length.toInt ∨ length = Bytesection.noLength))
    (· = (off.toInt,(endOf v.length off length : Int))) (Bytesection.bounds v.length off length)
  splice : ∀ with',Answers (Within v.length off length ∧ (0 ≤ length.toInt ∨ length = Bytesection.noLength))
    (· = v.take off.toInt.toNat ++ with' ++ v.drop (endOf v.length off length))
    (Bytesection.replace v with' off length)

structure Sections (v : List UInt8) (off length : Int32) : Prop extends Bounded v off length where
  read : Answers (Within v.length off length)
    (· = (v.drop off.toInt.toNat).take (endOf v.length off length - off.toInt.toNat)) (subX v off length)
  write : 0 ≤ length.toInt → ∀ value,Answers (Within v.length off length)
    (Written v off.toInt.toNat (off.toInt + length.toInt).toNat value) (Subwrite.x v off length value)

def Unwrapped (size : Nat) (off length : Int32) : Prop :=
  let n := (Int32.ofInt size).toInt
  let stop := off.toInt + length.toInt
  off.toInt < 0 ∨ (size : Int) < off.toInt ∨
    off.toInt ≤ n ∧ (length.toInt < 0 ∨ stop ≤ n ∨ (size : Int) < stop ∧ stop < 2 ^ 31) ∨
    n < off.toInt ∧ 0 ≤ length.toInt ∧ (size : Int) < stop

section sections

variable {v : List UInt8} {off length : Int32}

theorem bounds32 (a : Int32) : -2 ^ 31 ≤ a.toInt ∧ a.toInt < 2 ^ 31 := ⟨a.le_toInt,a.toInt_lt⟩

theorem sum32 (h : 0 ≤ off.toInt) (h' : 0 ≤ length.toInt) : (off + length).toInt =
    if off.toInt + length.toInt < 2 ^ 31 then off.toInt + length.toInt
    else off.toInt + length.toInt - 2 ^ 32 := by
  have ho := bounds32 off
  have hl := bounds32 length
  rw [Int32.toInt_add,Int.bmod_def]
  split <;> split <;> omega

theorem neg32 : off < 0 ↔ off.toInt < 0 := Int32.lt_iff_toInt_lt

theorem slice_ok {α : Type} {v : List α} {a b : Int} (h : 0 ≤ a) (h' : a ≤ b) (h'' : b ≤ v.length) :
    slice v a b = .ok ((v.drop a.toNat).take (b - a).toNat) := if_pos ⟨h,h',h''⟩

theorem size_le (size : Nat) : (Int32.ofInt size).toInt ≤ size := by
  have hsize : (Int32.ofInt size).toInt = (size : Int).bmod (2 ^ 32) := Int32.toInt_ofInt
  rw [hsize,Int.bmod_def]
  split <;> omega

theorem subX_eq (v : List UInt8) (off length : Int32) : subX v off length =
    if off.toInt < 0 ∨ (Int32.ofInt v.length).toInt < off.toInt then .error .rangeOutOfBounds
    else if length.toInt < 0 then slice v off.toInt v.length
    else if (Int32.ofInt v.length).toInt < (off + length).toInt then .error .rangeOutOfBounds
    else slice v off.toInt (off + length).toInt := by
  simp only [subX,Int32.lt_iff_toInt_lt]
  rfl

variable {α : Type} {inside : Prop} {P : α → Prop} {w : α}

theorem answers_error : Answers inside P (.error .rangeOutOfBounds) ↔ ¬inside := by
  constructor
  · rintro ⟨h,-⟩ hin
    obtain ⟨w,hw,-⟩ := h hin
    cases hw
  · intro h
    exact ⟨fun hin => absurd hin h,fun _ => rfl⟩

theorem answers_ok (h : inside) (hw : P w) : Answers inside P (.ok w) :=
  ⟨fun _ => ⟨w,rfl,hw⟩,fun hout => absurd h hout⟩

theorem not_answers_slice : ¬Answers inside P (.error .slice) := by
  rintro ⟨h,h'⟩
  by_cases hin : inside
  · obtain ⟨w,hw,-⟩ := h hin
    cases hw
  · cases h' hin

theorem within_iff {size : Nat} : Within size off length ↔
    0 ≤ off.toInt ∧ off.toInt ≤ size ∧ (0 ≤ length.toInt → off.toInt + length.toInt ≤ size) :=
  ⟨fun h => ⟨h.nonneg,h.start,h.stop⟩,fun h => ⟨h.1,h.2.1,h.2.2⟩⟩

theorem endOf_nonneg {size : Nat} (h : 0 ≤ length.toInt) :
    endOf size off length = (off.toInt + length.toInt).toNat := if_pos h

theorem endOf_neg {size : Nat} (h : length.toInt < 0) : endOf size off length = size :=
  if_neg (Int.not_le.mpr h)

theorem subX_answers : Answers (Within v.length off length)
    (· = (v.drop off.toInt.toNat).take (endOf v.length off length - off.toInt.toNat)) (subX v off length) ↔
      Unwrapped v.length off length := by
  have hn := size_le v.length
  have hb := bounds32 (Int32.ofInt v.length)
  have ho := bounds32 off
  have hl := bounds32 length
  rw [subX_eq,Unwrapped]
  generalize (Int32.ofInt v.length).toInt = n at hn hb
  by_cases hoff : off.toInt < 0 ∨ n < off.toInt
  · rw [if_pos hoff,answers_error,within_iff]
    omega
  · rw [if_neg hoff]
    by_cases hlength : length.toInt < 0
    · rw [if_pos hlength,slice_ok (by omega) (by omega) le_rfl,endOf_neg hlength]
      refine iff_of_true (answers_ok ((within_iff).mpr (by omega)) ?_) (by omega)
      congr 1
      omega
    · rw [if_neg hlength,sum32 (by omega) (by omega)]
      by_cases hsum : off.toInt + length.toInt < 2 ^ 31
      · rw [if_pos hsum]
        by_cases hfits : n < off.toInt + length.toInt
        · rw [if_pos hfits,answers_error,within_iff]
          omega
        · rw [if_neg hfits,slice_ok (by omega) (by omega) (by omega),endOf_nonneg (by omega)]
          refine iff_of_true (answers_ok ((within_iff).mpr (by omega)) ?_) (by omega)
          congr 1
          omega
      · rw [if_neg hsum,if_neg (by omega),slice,if_neg (by omega)]
        exact iff_of_false not_answers_slice (by omega)

theorem Within.sum {size : Nat} (h : Within size off length) (h' : Unwrapped size off length)
    (hl : 0 ≤ length.toInt) : (off + length).toInt = off.toInt + length.toInt := by
  have hb := bounds32 (Int32.ofInt size)
  have hs := h.stop hl
  have ho := h.nonneg
  have hstart := h.start
  rw [sum32 ho hl,if_pos]
  unfold Unwrapped at h'
  omega

theorem xFit_ok (value : List UInt8) (n : Nat) : ∃ w,xFit value n = .ok w ∧ w.length = n ∧
    ∀ i < n,w[i]? = some (value.getD i 0) := by
  rw [xFit]
  split
  · rename_i hle
    rw [slice_ok le_rfl (by omega) hle]
    refine ⟨_,rfl,?_,?_⟩
    · simp
      omega
    · intro i hi
      have hlt : i < value.length := by omega
      simp [hi,hlt]
  · rename_i hle
    refine ⟨_,rfl,?_,?_⟩
    · simp
      omega
    · intro i hi
      by_cases hlt : i < value.length
      · rw [List.getElem?_append_left hlt]
        simp [hlt]
      · rw [List.getElem?_append_right (Nat.not_lt.mp hlt),List.getElem?_replicate,if_pos (by omega)]
        simp [hlt]

theorem written {w : List UInt8} {value : List UInt8} {start stop : Nat} (h : start ≤ stop)
    (h' : stop ≤ v.length) (hw : w.length = stop - start)
    (hvalue : ∀ i < stop - start,w[i]? = some (value.getD i 0)) :
    Written v start stop value (v.take start ++ w ++ v.drop stop) := by
  constructor
  · simp
    omega
  · intro i
    by_cases hlow : i < start
    · rw [if_neg (by omega),List.append_assoc,List.getElem?_append_left (by simp; omega)]
      simp [hlow]
    · by_cases hhigh : i < stop
      · rw [if_pos ⟨Nat.not_lt.mp hlow,hhigh⟩,List.append_assoc,
          List.getElem?_append_right (by simp; omega),List.getElem?_append_left (by simp; omega),
          List.length_take,Nat.min_eq_left (by omega)]
        exact hvalue _ (by omega)
      · rw [if_neg (by omega),List.getElem?_append_right (by simp; omega),List.getElem?_drop]
        congr 1
        simp
        omega

theorem write_answers (h : Unwrapped v.length off length) (hl : 0 ≤ length.toInt) (value : List UInt8) :
    Answers (Within v.length off length)
      (Written v off.toInt.toNat (off.toInt + length.toInt).toNat value)
      (Subwrite.x v off length value) := by
  have hread := (subX_answers).mpr h
  rw [Subwrite.x]
  by_cases hin : Within v.length off length
  · have hs := hin.stop hl
    have ho := hin.nonneg
    obtain ⟨w,hw,-⟩ := hread.1 hin
    obtain ⟨fitted,hfit,hsize,hvalue⟩ := xFit_ok value length.toInt.toNat
    rw [Int.toNat_of_nonneg hl] at hfit
    rw [hw,hfit,hin.sum h hl,slice_ok le_rfl ho (by omega),slice_ok (by omega) hs le_rfl]
    refine answers_ok hin ?_
    have hwritten := @written v fitted value off.toInt.toNat (off.toInt + length.toInt).toNat
      (by omega) (by omega) (by omega) (by rwa [show (off.toInt + length.toInt).toNat - off.toInt.toNat =
        length.toInt.toNat by omega])
    convert hwritten using 3
    · simp
    · simp
      omega
  · rw [hread.2 hin]
    exact (answers_error).mpr hin

theorem bounds_answers (size : Nat) (off length : Int32) :
    Answers (Within size off length ∧ (0 ≤ length.toInt ∨ length = Bytesection.noLength))
      (· = (off.toInt,(endOf size off length : Int))) (Bytesection.bounds size off length) := by
  have hmin : Bytesection.noLength.toInt < 0 := by decide
  rw [Bytesection.bounds]
  by_cases hrest : length = Bytesection.noLength
  · subst hrest
    rw [endOf_neg hmin]
    by_cases hin : Within size off Bytesection.noLength
    · have hiff := (within_iff).mp hin
      simp only [ne_eq,not_true_eq_false,if_false,and_false,or_false,or_true,and_true]
      rw [if_neg (by omega)]
      exact answers_ok hin rfl
    · have hiff := mt (within_iff).mpr hin
      simp only [ne_eq,not_true_eq_false,if_false,and_false,or_false,or_true,and_true]
      rw [if_pos (by omega)]
      exact (answers_error).mpr hin
  · simp only [ne_eq,hrest,not_false_eq_true,if_true,and_true,or_false,neg32]
    by_cases hin : Within size off length ∧ 0 ≤ length.toInt
    · have hiff := (within_iff).mp hin.1
      rw [if_neg (by omega),endOf_nonneg hin.2]
      refine answers_ok hin ?_
      rw [Int.toNat_of_nonneg (by omega)]
    · rw [if_pos]
      · exact (answers_error).mpr hin
      · rw [within_iff] at hin
        omega

theorem replace_answers (v with' : List UInt8) (off length : Int32) :
    Answers (Within v.length off length ∧ (0 ≤ length.toInt ∨ length = Bytesection.noLength))
      (· = v.take off.toInt.toNat ++ with' ++ v.drop (endOf v.length off length))
      (Bytesection.replace v with' off length) := by
  have hbounds := bounds_answers v.length off length
  rw [Bytesection.replace]
  by_cases hin : Within v.length off length ∧ (0 ≤ length.toInt ∨ length = Bytesection.noLength)
  · have hiff := (within_iff).mp hin.1
    obtain ⟨w,hw,rfl⟩ := hbounds.1 hin
    have hend : endOf v.length off length ≤ v.length := by
      rw [endOf]
      split <;> omega
    rw [hw]
    change Answers _ _ (slice v 0 off.toInt >>= fun before =>
      slice v (endOf v.length off length : Int) v.length >>= fun after => .ok (before ++ with' ++ after))
    rw [slice_ok le_rfl hiff.1 hiff.2.1,slice_ok (by omega) (by omega) le_rfl]
    refine answers_ok hin ?_
    simp
  · rw [hbounds.2 hin]
    exact (answers_error).mpr hin

theorem text_answers (memos : Memos) {ps : List Nat} (h : Canonical ps) :
    Answers (Within (units ps).length off length)
      (fun w => Stands w (((units ps).drop off.toInt.toNat).take
        (endOf (units ps).length off length - off.toInt.toNat))) (subS memos (bytes ps) off length) := by
  by_cases hin : Within (units ps).length off length
  · have hiff := (within_iff).mp hin
    have hend : endOf (units ps).length off length ≤ (units ps).length := by
      rw [endOf]
      split <;> omega
    have hstart : off.toInt.toNat ≤ endOf (units ps).length off length := by
      rw [endOf]
      split <;> omega
    obtain ⟨qs,hqs,hread,hunits⟩ := subS_slices memos h off length off.toInt.toNat
      (endOf (units ps).length off length) (by omega) hstart hend (by rw [endOf]; split <;> omega)
    rw [hread]
    exact answers_ok hin ⟨qs,hqs,rfl,hunits⟩
  · rw [subS_raises memos h.points]
    · exact answers_error.mpr hin
    · rw [within_iff] at hin
      omega

-- where the sum wraps only SubX, and subwrite.X by it, leave the contract
theorem sections_exact (v : List UInt8) (off length : Int32) :
    (Sections v off length ↔ Unwrapped v.length off length) ∧ Bounded v off length := by
  have hbounded : Bounded v off length := by
    refine ⟨?_,bounds_answers v.length off length,fun with' => replace_answers v with' off length⟩
    intro memos ps hps hlen
    rw [← hlen]
    exact text_answers memos hps
  refine ⟨⟨fun h => subX_answers.mp h.read,fun h => ?_⟩,hbounded⟩
  exact ⟨hbounded,subX_answers.mpr h,write_answers h⟩

end sections

theorem sections_differ : subX [7] 0 (-1) = .ok [7] ∧
    Bytesection.bounds 1 0 (-1) = .error .rangeOutOfBounds ∧
    subX [7] 1 Int32.maxValue = .error .slice ∧
    Bytesection.bounds 1 1 Int32.maxValue = .error .rangeOutOfBounds := by
  decide

end OpenSteamgate.Text
