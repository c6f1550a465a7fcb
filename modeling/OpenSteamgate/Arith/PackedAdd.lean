import OpenSteamgate.Arith.Checked
import OpenSteamgate.Arith.Conversions

namespace OpenSteamgate.Packed

open Decimal Rounding

variable {a t : Text} {x : ℚ} {n : ℕ} {v w r : Int64} {b : Int32}

def iToP (i : Int64) : Text := intText i.toInt

def parseInt (a : Text) : Option Int64 := (atoi a).map Int64.ofInt

namespace Packedint

def digitCount (v : Text) : ℕ := if v.head? = some '-' then v.length - 1 else v.length

def operand (a : Text) : Option Int64 := if a = [] then some 0 else parseInt a

def add (a : Text) (b : Int64) (digits : ℕ) : Option Text := do
  let x ← operand a
  if 0 < b ∧ Int64.maxValue - b < x ∨ b < 0 ∧ x < Int64.minValue - b then none
  else
    let v := iToP (x + b)
    if digits < digitCount v then none else some v

end Packedint

def packedChecksum (a : Text) (b : Int32) (n : ℕ) : Except Fault Text :=
  match Packedint.add a b.toInt64 (2 * n - 1) with
  | some v => .ok v
  | none => do pFit (← addP a (iToP b.toInt64)) n 0 true

namespace Intarith

open Arith

def packed (fast slow : Except Raise Int64) : Except Raise Int64 :=
  match fast with
  | .error (.overflow _) => slow
  | r => r

end Intarith

section landing

theorem iToP_denotes (i : Int64) : Denotes (iToP i) i.toInt := (intText_canonical i.toInt).denotes

theorem pFixed_whole (m : ℤ) : pFixed ⟨m,0⟩ 0 = intText m := by
  rw [pFixed,pScale_self rfl]
  rfl

theorem digitCount_intText (m : ℤ) :
    Packedint.digitCount (intText m) = (Nat.toDigits 10 m.natAbs).length := by
  rw [Packedint.digitCount,intText]
  split_ifs with hneg hhead hhead
  · rfl
  · exact absurd rfl hhead
  · exact absurd (digits_decimal _ _ (List.mem_of_mem_head? hhead)) (by decide)
  · rfl

theorem digitCount_le {k : ℕ} (m : ℤ) (hk : 0 < k) :
    Packedint.digitCount (intText m) ≤ k ↔ intDigits ⟨m,0⟩ ≤ k := by
  rw [digitCount_intText,Nat.length_toDigits_le_iff (by decide) hk,intDigits_le,Pdec.value,zpow_zero,
    div_one,← Int.cast_abs,Int.abs_eq_natAbs]
  exact_mod_cast Iff.rfl

theorem pFit_whole (m : ℤ) (hn : 1 ≤ n) (ha : Denotes a m) : pFit a n 0 true =
    if 2 * n - 1 < Packedint.digitCount (intText m) then .error (.overflow "=")
    else .ok (intText m) := by
  obtain ⟨d,hd,-,hvalue⟩ := pParse_denotes ha
  have hwhole : d.value = (⟨m,0⟩ : Pdec).value := by rw [hvalue,Pdec.value,zpow_zero,div_one]
  have hdigits := digitCount_le m (by omega : 0 < 2 * n - 1)
  have hlimit : 2 * (n : ℤ) - 1 - 0 < intDigits ⟨m,0⟩ ↔
      2 * n - 1 < Packedint.digitCount (intText m) := by omega
  rw [pFit_eq hd,pScale_congr hwhole,pScale_self rfl,pFixed_whole]
  simp only [hlimit]
  rfl

theorem fits_small {m : ℤ} (h : Arith.Fits m) : |(m : ℚ)| < 10 ^ 63 := by
  rw [← Int.cast_abs]
  have habs : |m| < 10 ^ 63 := by
    unfold Arith.Fits at h
    rw [abs_lt]
    omega
  exact_mod_cast habs

theorem addP_whole (ha : Denotes a v.toInt) (w : Int64) (hfits : Arith.Fits (v.toInt + w.toInt)) :
    ∃ s,addP a (iToP w) = .ok s ∧ Denotes s (v.toInt + w.toInt : ℤ) := by
  have hsum := addP_exactly ha (iToP_denotes w)
  rw [Exactly,← Int.cast_add,if_pos (fits_small hfits)] at hsum
  obtain ⟨s,hs,hcanonical⟩ := hsum
  exact ⟨s,hs,hcanonical.denotes⟩

end landing

section fast

theorem guard_iff (x b : Int64) :
    (0 < b ∧ Int64.maxValue - b < x ∨ b < 0 ∧ x < Int64.minValue - b) ↔
      ¬Arith.Fits (x.toInt + b.toInt) := by
  have hx := Arith.bounds x
  have hb := Arith.bounds b
  have hlargest : Int64.maxValue.toInt = 2 ^ 63 - 1 := rfl
  have hleast : Int64.minValue.toInt = -2 ^ 63 := rfl
  have hmax (h : 0 < b.toInt) : (Int64.maxValue - b).toInt = 2 ^ 63 - 1 - b.toInt := by
    rw [Int64.toInt_sub,hlargest]
    exact Int.bmod_eq_of_le (by omega) (by omega)
  have hmin (h : b.toInt < 0) : (Int64.minValue - b).toInt = -2 ^ 63 - b.toInt := by
    rw [Int64.toInt_sub,hleast]
    exact Int.bmod_eq_of_le (by omega) (by omega)
  have hzero : (0 : Int64).toInt = 0 := rfl
  simp only [Int64.lt_iff_toInt_lt,hzero]
  unfold Arith.Fits
  rcases lt_trichotomy b.toInt 0 with h | h | h
  · rw [hmin h]
    omega
  · omega
  · rw [hmax h]
    omega

theorem digitsOnly_some {m : ℤ} (h : digitsOnly t = some m) :
    Digits t ∧ t ≠ [] ∧ m = numeral t := by
  unfold digitsOnly at h
  split at h
  · rename_i hdigits
    exact ⟨List.all_eq_true.mp hdigits.2,hdigits.1,(Option.some.inj h).symm⟩
  · cases h

theorem denotes_digits (neg : Bool) (h : Digits t) (hne : t ≠ []) :
    Denotes (sign neg ++ t) (if neg then -(numeral t : ℤ) else numeral t : ℤ) := by
  have hbody : Body t t [] := ⟨.inl ⟨rfl,rfl⟩,by rwa [List.append_nil],by rwa [List.append_nil]⟩
  have hnumber := Denotes.number neg hbody
  have hvalue : amount neg t [] = (if neg then -(numeral t : ℤ) else numeral t : ℤ) := by
    cases neg <;> simp [amount,signed]
  rwa [hvalue] at hnumber

theorem setString_whole {m : ℤ} (ha : Denotes a x) (h : setString a = some m) : x = m := by
  cases ha with
  | blank => cases h
  | @number t ip fp neg hbody =>
    have hread : ∃ n,digitsOnly t = some n ∧ (if neg then -n else n) = m := by
      cases neg with
      | true => exact Option.map_eq_some_iff.mp (h : (digitsOnly t).map (- ·) = some m)
      | false =>
        have hplain : setString t = digitsOnly t := by
          rw [setString.eq_def]
          split
          · exact absurd rfl (hbody.head_ne rfl (by decide))
          · exact absurd rfl (hbody.head_ne rfl (by decide))
          · rfl
        exact ⟨m,hplain.symm.trans h,rfl⟩
    obtain ⟨n,hn,hm⟩ := hread
    obtain ⟨hdigits,hne,rfl⟩ := digitsOnly_some hn
    rw [← hm]
    exact (Denotes.number neg hbody).unique (denotes_digits neg hdigits hne)

theorem operand_denotes (ha : Denotes a x) (h : Packedint.operand a = some v) : x = v.toInt := by
  unfold Packedint.operand at h
  split at h
  · rename_i hnil
    subst hnil
    obtain rfl := Option.some.inj h
    exact ha.unique .blank
  · obtain ⟨m,hm,rfl⟩ := Option.map_eq_some_iff.mp h
    obtain ⟨hm,hrange⟩ := Option.filter_eq_some_iff.mp hm
    have hrange := of_decide_eq_true hrange
    rw [setString_whole ha hm,Int64.toInt_ofInt_of_le hrange.1 hrange.2]

theorem add_eq_some (ha : Denotes a x) {digits : ℕ} (h : Packedint.add a w digits = some t) :
    ∃ v : Int64,x = v.toInt ∧ Arith.Fits (v.toInt + w.toInt) ∧ t = intText (v.toInt + w.toInt) ∧
      Packedint.digitCount t ≤ digits := by
  unfold Packedint.add at h
  obtain ⟨v,hv,h⟩ := Option.bind_eq_some_iff.mp h
  simp only [guard_iff] at h
  split at h
  · cases h
  rename_i hfits
  have hfits := not_not.mp hfits
  have hsum : (v + w).toInt = v.toInt + w.toInt := by
    rw [Int64.toInt_add]
    unfold Arith.Fits at hfits
    exact Int.bmod_eq_of_le (by omega) (by omega)
  rw [iToP,hsum] at h
  split at h
  · cases h
  · rename_i hdigits
    obtain rfl := Option.some.inj h
    exact ⟨v,operand_denotes ha hv,hfits,rfl,Nat.not_lt.mp hdigits⟩

theorem add_lands (ha : Denotes a x) (hn : 1 ≤ n) (h : Packedint.add a w (2 * n - 1) = some t) :
    ∃ s,addP a (iToP w) = .ok s ∧ pFit s n 0 true = .ok t := by
  obtain ⟨v,rfl,hfits,rfl,hdigits⟩ := add_eq_some ha h
  obtain ⟨s,hs,hsum⟩ := addP_whole ha w hfits
  refine ⟨s,hs,?_⟩
  rw [pFit_whole _ hn hsum,if_neg (Nat.not_lt.mpr hdigits)]

theorem packed_add_lands (ha : Denotes a v.toInt) (h : Arith.add v w = .ok r) :
    ∃ s,addP a (iToP w) = .ok s ∧ pToI8 s true = .ok r ∧ ∀ n : ℕ,1 ≤ n → pFit s n 0 true =
      if 2 * n - 1 < Packedint.digitCount (iToP r) then .error (.overflow "=") else .ok (iToP r) := by
  rw [Arith.add_exact,Arith.checked] at h
  split at h
  · rename_i hfits
    obtain rfl := Except.ok.inj h
    obtain ⟨s,hs,hsum⟩ := addP_whole ha w hfits
    have hr : (Int64.ofInt (v.toInt + w.toInt)).toInt = v.toInt + w.toInt :=
      Int64.toInt_ofInt_of_le hfits.1 hfits.2
    refine ⟨s,hs,?_,fun n hn => ?_⟩
    · obtain ⟨d,hd,-,hvalue⟩ := pParse_denotes hsum
      have hwhole : d.value = (⟨v.toInt + w.toInt,0⟩ : Pdec).value := by
        rw [hvalue,Pdec.value,zpow_zero,div_one]
      rw [pToI8,hd]
      change (if 9223372036854775807 < (pScale d 0).v ∨ (pScale d 0).v < -9223372036854775808 then _
        else _) = _
      rw [pScale_congr hwhole,pScale_self rfl]
      refine if_neg ?_
      change ¬(9223372036854775807 < v.toInt + w.toInt ∨ v.toInt + w.toInt < -9223372036854775808)
      unfold Arith.Fits at hfits
      omega
    · rw [pFit_whole _ hn hsum,iToP,hr]
  · cases h

theorem fast_paths_agree (ha : Denotes a x) (hn : 1 ≤ n) (b : Int32) :
    (∀ t,Packedint.add a b.toInt64 (2 * n - 1) = some t →
      ∃ s,addP a (iToP b.toInt64) = .ok s ∧ pFit s n 0 true = .ok t) ∧
    (∀ op,(do pFit (← addP a (iToP b.toInt64)) n 0 true) = .error (.overflow op) →
      Packedint.add a b.toInt64 (2 * n - 1) = none) ∧
    packedChecksum a b n = (do pFit (← addP a (iToP b.toInt64)) n 0 true) ∧
    ∀ v : Int64,x = v.toInt → ∀ slow,
      (∀ r,Arith.add v b.toInt64 = .ok r → Intarith.packed (Arith.add v b.toInt64) slow = .ok r ∧
        ∃ s,addP a (iToP b.toInt64) = .ok s ∧ pToI8 s true = .ok r ∧ pFit s n 0 true =
          if 2 * n - 1 < Packedint.digitCount (iToP r) then .error (.overflow "=")
          else .ok (iToP r)) ∧
      ∀ op,(do pToI8 (← addP a (iToP b.toInt64)) true) = .error (.overflow op) →
        Intarith.packed (Arith.add v b.toInt64) slow = slow := by
  have hfast (t : Text) (h : Packedint.add a b.toInt64 (2 * n - 1) = some t) :
      (do pFit (← addP a (iToP b.toInt64)) n 0 true) = .ok t := by
    obtain ⟨s,hs,ht⟩ := add_lands ha hn h
    rw [hs]
    exact ht
  refine ⟨fun t h => add_lands ha hn h,fun op hraise => ?_,?_,fun v hv slow => ⟨fun r hr => ?_,
    fun op hraise => ?_⟩⟩
  · cases hadd : Packedint.add a b.toInt64 (2 * n - 1) with
    | none => rfl
    | some t => exact absurd ((hfast t hadd).symm.trans hraise) (by simp)
  · unfold packedChecksum
    cases hadd : Packedint.add a b.toInt64 (2 * n - 1) with
    | none => rfl
    | some t => exact (hfast t hadd).symm
  · subst hv
    obtain ⟨s,hs,hint,hland⟩ := packed_add_lands ha hr
    refine ⟨?_,s,hs,hint,hland n hn⟩
    rw [hr]
    rfl
  · subst hv
    cases hadd : Arith.add v b.toInt64 with
    | ok r =>
      obtain ⟨s,hs,hint,-⟩ := packed_add_lands ha hadd
      rw [hs] at hraise
      exact absurd (hint.symm.trans hraise) (by simp)
    | error e =>
      rw [Arith.add_exact,Arith.checked] at hadd
      split at hadd
      · cases hadd
      · obtain rfl := Except.error.inj hadd
        rfl

theorem fast_paths_agree_sample : packedChecksum ['1','2'] (-20) 2 = .ok ['-','8'] := by
  have ha := denotes_digits false (t := ['1','2']) (by simp [Digits]) (by decide)
  have hslow := (fast_paths_agree ha (by decide : 1 ≤ 2) (-20)).2.2.1
  exact hslow.trans rfl

end fast

end OpenSteamgate.Packed
