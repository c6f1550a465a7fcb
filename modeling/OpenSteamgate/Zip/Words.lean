import OpenSteamgate.Library.Endian
import OpenSteamgate.Zip.Reader

namespace OpenSteamgate.Zip

open LittleEndian

section le

variable {data : List UInt8} {off len : Nat}

theorem drop_take_one {i : Nat} (h : i < data.length) :
    (data.drop i).take 1 = [data.getD i 0] := by
  rw [List.take_one,List.head?_drop,List.getElem?_eq_getElem h,List.getD_eq_getElem?_getD,
    List.getElem?_eq_getElem h]
  rfl

theorem leLoop_succ {k index value mult : Nat} (hin : off + index < data.length)
    (hdata : data.length < 2147483648)
    (hbyte : index + 1 = 4 → (data.getD (off + index) 0).toNat < 128)
    (hvalue : value + (data.getD (off + index) 0).toNat * mult < 2147483648) :
    leLoop data off len (k + 1) (index + 1) value mult =
      (if index + 1 < len then Checked.int (mult * 256) else pure mult) >>=
        leLoop data off len k (index + 2) (value + (data.getD (off + index) 0).toNat * mult) := by
  have hnot : ¬(index + 1 = 4 ∧ 128 ≤ (data.getD (off + index) 0).toNat) := fun hc => by
    have := hbyte hc.1
    omega
  rw [leLoop,Checked.int_ok (by omega),Checked.ok_bind,Checked.slice_ok (by omega),Checked.ok_bind]
  have hat : off + (index + 1) - 1 = off + index := by omega
  rw [hat,drop_take_one hin]
  simp only [List.headD_cons,if_neg hnot]
  rw [Checked.int_ok (by omega),Checked.ok_bind,Checked.int_ok hvalue,Checked.ok_bind]
  split <;> rfl

theorem leLoop_inner (index : Nat) {k value mult : Nat} (hlen : index + 1 < len)
    (hin : off + index < data.length) (hdata : data.length < 2147483648) (hindex : index < 3)
    (hvalue : value + (data.getD (off + index) 0).toNat * mult < 2147483648)
    (hmult : mult * 256 < 2147483648) :
    leLoop data off len (k + 1) (index + 1) value mult =
      leLoop data off len k (index + 2) (value + (data.getD (off + index) 0).toNat * mult)
        (mult * 256) := by
  rw [leLoop_succ hin hdata (by omega) hvalue,if_pos hlen,Checked.int_ok hmult,Checked.ok_bind]

theorem leLoop_last (index : Nat) {value mult : Nat} (hlen : index + 1 = len)
    (hin : off + index < data.length) (hdata : data.length < 2147483648)
    (hbyte : index + 1 = 4 → (data.getD (off + index) 0).toNat < 128)
    (hvalue : value + (data.getD (off + index) 0).toNat * mult < 2147483648) :
    leLoop data off len 1 (index + 1) value mult =
      .ok (value + (data.getD (off + index) 0).toNat * mult) := by
  rw [leLoop_succ hin hdata hbyte hvalue,if_neg (by omega)]
  rfl

theorem toNat_getD_lt (data : List UInt8) (i : Nat) : (data.getD i 0).toNat < 256 :=
  (data.getD i 0).toNat_lt

theorem word_two (h : off + 2 ≤ data.length) : word data off 2 =
    (data.getD off 0).toNat + 256 * (data.getD (off + 1) 0).toNat := by
  rw [word_succ (by omega),word_succ (by omega),word_zero]
  omega

theorem word_four (h : off + 4 ≤ data.length) : word data off 4 =
    (data.getD off 0).toNat + 256 * (data.getD (off + 1) 0).toNat +
      65536 * (data.getD (off + 2) 0).toNat + 16777216 * (data.getD (off + 3) 0).toNat := by
  rw [word_succ (by omega),word_succ (by omega),word_succ (by omega),word_succ (by omega),word_zero]
  simp only [Nat.add_assoc,Nat.reduceAdd]
  omega

theorem le_two (h : off + 2 ≤ data.length) (hdata : data.length < 2147483648) :
    le data off 2 = .ok (word data off 2) := by
  have h0 := toNat_getD_lt data off
  have h1 := toNat_getD_lt data (off + 1)
  rw [le,Checked.int_ok (by omega),Checked.ok_bind,if_neg (by omega),
    leLoop_inner 0 (by omega) (by omega) hdata (by omega) (by rw [Nat.add_zero]; omega)
      (by omega),leLoop_last 1 rfl (by omega) hdata (by omega) (by rw [Nat.add_zero]; omega),word_two h]
  congr 1
  rw [Nat.add_zero]
  omega

theorem le_four (h : off + 4 ≤ data.length) (hdata : data.length < 2147483648) :
    le data off 4 = if word data off 4 < 2147483648 then .ok (word data off 4)
      else fail "a size or offset of 2 GiB or more (ZIP64 is not read)" := by
  have h0 := toNat_getD_lt data off
  have h1 := toNat_getD_lt data (off + 1)
  have h2 := toNat_getD_lt data (off + 2)
  have h3 := toNat_getD_lt data (off + 3)
  rw [le,Checked.int_ok (by omega),Checked.ok_bind,if_neg (by omega),
    leLoop_inner 0 (by omega) (by omega) hdata (by omega) (by rw [Nat.add_zero]; omega)
      (by omega),leLoop_inner 1 (by omega) (by omega) hdata (by omega) (by rw [Nat.add_zero]; omega)
      (by omega),leLoop_inner 2 (by omega) (by omega) hdata (by omega) (by rw [Nat.add_zero]; omega)
      (by omega),word_four h]
  by_cases hbig : 128 ≤ (data.getD (off + 3) 0).toNat
  · rw [if_neg (by omega),leLoop,Checked.int_ok (by omega),Checked.ok_bind,
      Checked.slice_ok (by omega),Checked.ok_bind]
    have hat : off + 4 - 1 = off + 3 := by omega
    simp only [hat,drop_take_one (show off + 3 < data.length by omega),List.headD_cons]
    exact if_pos ⟨trivial,hbig⟩
  · rw [if_pos (by omega),leLoop_last 3 rfl (by omega) hdata (by omega) (by rw [Nat.add_zero]; omega)]
    congr 1
    rw [Nat.add_zero]
    omega

end le

end OpenSteamgate.Zip
