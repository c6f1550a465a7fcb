import OpenSteamgate.Arith.Packed

namespace OpenSteamgate.Packed

open Decimal Rounding

def Exactly (res : Except Fault Text) (op : String) (q : ℚ) : Prop :=
  if |q| < 10 ^ 63 then ∃ t,res = .ok t ∧ Canonical t q else res = .error (.overflow op)

section calculations

variable {a b : Text} {x y : ℚ} {d e : Pdec} {n m : ℤ}

theorem pCalc_exactly (d : Pdec) (op : String) : Exactly (pCalc d op) op d.value := by
  have hdigits := @intDigits_le d 63
  rw [Exactly,pCalc]
  split
  · next h =>
    rw [if_neg (by have := hdigits.mpr h; omega)]
    exact ⟨_,rfl,pText_canonical d⟩
  · next h => rw [if_pos (Nat.lt_of_not_le fun hle => h (hdigits.mp hle))]

theorem Exactly.not_zeroDivide {res : Except Fault Text} {op o : String} {q : ℚ}
    (h : Exactly res op q) : res ≠ .error (.zeroDivide o) := by
  rw [Exactly] at h
  split at h
  · obtain ⟨t,rfl,-⟩ := h
    simp
  · rw [h]
    simp

theorem pAlign_spec (d e : Pdec) : (pAlign d e).1.value = d.value ∧ (pAlign d e).2.value = e.value ∧
    (pAlign d e).1.s = (pAlign d e).2.s := by
  rw [pAlign]
  split
  · next h => exact ⟨pScale_up h.le,rfl,pScale_scale _ _⟩
  · next h =>
    split
    · next h => exact ⟨rfl,pScale_up h.le,(pScale_scale _ _).symm⟩
    · next h' => exact ⟨rfl,rfl,le_antisymm (not_lt.mp h') (not_lt.mp h)⟩

theorem value_add (h : d.s = e.s) : Pdec.value ⟨d.v + e.v,d.s⟩ = d.value + e.value := by
  rw [Pdec.value,Pdec.value,Pdec.value,h]
  push_cast
  ring

theorem value_sub (h : d.s = e.s) : Pdec.value ⟨d.v - e.v,d.s⟩ = d.value - e.value := by
  rw [Pdec.value,Pdec.value,Pdec.value,h]
  push_cast
  ring

theorem value_mul (d e : Pdec) : Pdec.value ⟨d.v * e.v,d.s + e.s⟩ = d.value * e.value := by
  rw [Pdec.value,Pdec.value,Pdec.value,zpow_add₀ (by norm_num)]
  push_cast
  field_simp

theorem value_neg (d : Pdec) : Pdec.value ⟨-d.v,d.s⟩ = -d.value := by
  rw [Pdec.value,Pdec.value]
  push_cast
  ring

theorem value_eq_zero : d.value = 0 ↔ d.v = 0 := by
  rw [Pdec.value,div_eq_zero_iff,or_iff_left (by positivity)]
  exact_mod_cast Iff.rfl

theorem addP_exactly (ha : Denotes a x) (hb : Denotes b y) : Exactly (addP a b) "+" (x + y) := by
  obtain ⟨d,hd,-,rfl⟩ := pParse_denotes ha
  obtain ⟨e,he,-,rfl⟩ := pParse_denotes hb
  obtain ⟨h1,h2,hs⟩ := pAlign_spec d e
  rw [addP,hd,he,← h1,← h2,← value_add hs]
  exact pCalc_exactly _ _

theorem subP_exactly (ha : Denotes a x) (hb : Denotes b y) : Exactly (subP a b) "-" (x - y) := by
  obtain ⟨d,hd,-,rfl⟩ := pParse_denotes ha
  obtain ⟨e,he,-,rfl⟩ := pParse_denotes hb
  obtain ⟨h1,h2,hs⟩ := pAlign_spec d e
  rw [subP,hd,he,← h1,← h2,← value_sub hs]
  exact pCalc_exactly _ _

theorem mulP_exactly (ha : Denotes a x) (hb : Denotes b y) : Exactly (mulP a b) "*" (x * y) := by
  obtain ⟨d,hd,-,rfl⟩ := pParse_denotes ha
  obtain ⟨e,he,-,rfl⟩ := pParse_denotes hb
  rw [mulP,hd,he,← value_mul]
  exact pCalc_exactly _ _

theorem decimal_bounds (hn : n ≠ 0) :
    (10 : ℚ) ^ ((Nat.toDigits 10 n.natAbs).length - 1 : ℤ) ≤ |(n : ℚ)| ∧
      |(n : ℚ)| < 10 ^ ((Nat.toDigits 10 n.natAbs).length : ℤ) := by
  have hpos : 0 < (Nat.toDigits 10 n.natAbs).length := Nat.length_toDigits_pos
  have hlow := @decimal_le n.natAbs (by omega)
  have hhigh := decimal_lt n.natAbs
  have habs : |(n : ℚ)| = (n.natAbs : ℚ) := by
    rw [Nat.cast_natAbs]
    push_cast
    rfl
  rw [habs,zpow_natCast,← Nat.cast_pred hpos,zpow_natCast]
  exact ⟨by exact_mod_cast hlow,by exact_mod_cast hhigh⟩

theorem leading_spec (hn : n ≠ 0) (hm : 0 < m) :
    (10 : ℚ) ^ leading n m ≤ |(n / m : ℚ)| ∧ |(n / m : ℚ)| < 10 ^ (leading n m + 1) := by
  obtain ⟨hnlow,hnhigh⟩ := decimal_bounds hn
  obtain ⟨hmlow,hmhigh⟩ := decimal_bounds hm.ne'
  have hm' : (0 : ℚ) < m := by exact_mod_cast hm
  rw [abs_of_pos hm'] at hmlow hmhigh
  rw [abs_div,abs_of_pos hm']
  set la := (Nat.toDigits 10 n.natAbs).length
  set lm := (Nat.toDigits 10 m.natAbs).length
  have hlow : (10 : ℚ) ^ ((la : ℤ) - lm - 1) ≤ |(n : ℚ)| / m := by
    rw [le_div_iff₀ hm']
    calc (10 : ℚ) ^ ((la : ℤ) - lm - 1) * m
        ≤ 10 ^ ((la : ℤ) - lm - 1) * 10 ^ (lm : ℤ) := by gcongr
      _ = 10 ^ ((la : ℤ) - 1) := by
        rw [← zpow_add₀ (by norm_num)]
        congr 1
        ring
      _ ≤ |(n : ℚ)| := hnlow
  have hhigh : |(n : ℚ)| / m < 10 ^ ((la : ℤ) - lm + 1) := by
    rw [div_lt_iff₀ hm']
    calc |(n : ℚ)| < 10 ^ (la : ℤ) := hnhigh
      _ = 10 ^ ((la : ℤ) - lm + 1) * 10 ^ ((lm : ℤ) - 1) := by
        rw [← zpow_add₀ (by norm_num)]
        congr 1
        ring
      _ ≤ 10 ^ ((la : ℤ) - lm + 1) * m := by gcongr
  have hcompare : (if (la : ℤ) - lm < 0 then |n| * pow10 (-((la : ℤ) - lm)) else |n|) <
      (if (la : ℤ) - lm < 0 then m else m * pow10 (max ((la : ℤ) - lm) 0)) ↔
      |(n : ℚ)| / m < 10 ^ ((la : ℤ) - lm) := by
    rw [div_lt_iff₀ hm']
    split
    · next h =>
      have hcast : |(n : ℚ)| * 10 ^ (-((la : ℤ) - lm)) < m ↔ |(n : ℚ)| < 10 ^ ((la : ℤ) - lm) * m := by
        rw [zpow_neg,← div_eq_mul_inv,div_lt_iff₀ (by positivity),mul_comm]
      rw [← hcast,← pow10_cast (by omega)]
      exact_mod_cast Iff.rfl
    · next h =>
      rw [max_eq_left (by omega),← pow10_cast (by omega),mul_comm _ (m : ℚ)]
      exact_mod_cast Iff.rfl
  have hleading : leading n m =
      if |(n : ℚ)| / m < 10 ^ ((la : ℤ) - lm) then (la : ℤ) - lm - 1 else la - lm :=
    if_congr hcompare rfl rfl
  rw [hleading]
  split
  · next h =>
    rw [sub_add_cancel]
    exact ⟨hlow,h⟩
  · next h => exact ⟨not_lt.mp h,hhigh⟩

theorem rounded_quotient (n : ℤ) (hm : 0 < m) (scale : ℤ) :
    HalfAway (n / m * 10 ^ scale)
      (if 0 ≤ scale then roundDiv (n * pow10 scale) m else roundDiv n (m * pow10 (-scale))) := by
  split
  · next h =>
    have hround := @roundDiv_halfAway (n * pow10 scale) m hm
    push_cast at hround
    rwa [pow10_cast h,mul_div_right_comm] at hround
  · next h =>
    have hround := @roundDiv_halfAway n _ (mul_pos hm (pow10_pos (-scale)))
    push_cast at hround
    rwa [pow10_cast (by omega),zpow_neg,← div_div,div_inv_eq_mul] at hround

theorem divP_rounded (ha : Denotes a x) (hb : Denotes b y) (hx : x ≠ 0) (hy : y ≠ 0) :
    ∃ e q : ℤ,10 ^ e ≤ |x / y| ∧ |x / y| < 10 ^ (e + 1) ∧ HalfAway (x / y * 10 ^ (30 - e)) q ∧
      Exactly (divP a b) "/" (q / 10 ^ (30 - e)) := by
  obtain ⟨d,hd,hds,rfl⟩ := pParse_denotes ha
  obtain ⟨e,he,hes,rfl⟩ := pParse_denotes hb
  rw [Ne,value_eq_zero] at hx hy
  set m := e.v * pow10 d.s with hmdef
  set n := if m < 0 then -(d.v * pow10 e.s) else d.v * pow10 e.s with hndef
  have hm : m ≠ 0 := mul_ne_zero hy (pow10_pos _).ne'
  have hn : n ≠ 0 := by
    have hne : d.v * pow10 e.s ≠ 0 := mul_ne_zero hx (pow10_pos _).ne'
    rw [hndef]
    split
    · exact neg_ne_zero.mpr hne
    · exact hne
  have hquot : (n : ℚ) / (|m| : ℤ) = d.value / e.value := by
    have hplain : ((d.v * pow10 e.s : ℤ) : ℚ) / m = d.value / e.value := by
      have hev : (e.v : ℚ) ≠ 0 := by exact_mod_cast hy
      rw [hmdef,Pdec.value,Pdec.value]
      push_cast
      rw [pow10_cast hds,pow10_cast hes]
      field_simp
    rw [← hplain,hndef]
    split
    · next h =>
      rw [abs_of_neg h]
      push_cast
      rw [neg_div_neg_eq]
    · next h => rw [abs_of_nonneg (not_lt.mp h)]
  have habs : 0 < |m| := abs_pos.mpr hm
  obtain ⟨hlow,hhigh⟩ := leading_spec hn habs
  have hround := rounded_quotient n habs (30 - leading n |m|)
  rw [hquot] at hlow hhigh hround
  refine ⟨leading n |m|,_,hlow,hhigh,hround,?_⟩
  have hcalc : divP a b = pCalc ⟨if 0 ≤ 30 - leading n |m| then roundDiv (n * pow10 (30 - leading n |m|)) |m|
      else roundDiv n (|m| * pow10 (-(30 - leading n |m|))),30 - leading n |m|⟩ "/" := by
    rw [divP,hd,he]
    simp only [bind,Except.bind]
    rw [if_neg hy,if_neg hx]
  rw [hcalc]
  exact pCalc_exactly _ _

theorem divP_zero (ha : Denotes a x) (hb : Denotes b y) (hy : y ≠ 0) (hx : x = 0) :
    divP a b = .ok ['0'] := by
  obtain ⟨d,hd,-,rfl⟩ := pParse_denotes ha
  obtain ⟨e,he,-,rfl⟩ := pParse_denotes hb
  rw [Ne,value_eq_zero] at hy
  rw [divP,hd,he]
  simp only [bind,Except.bind]
  rw [if_neg hy,if_pos ((value_eq_zero).mp hx)]

theorem aligned_division (hs : d.s = e.s) (hy : e.v ≠ 0) :
    d.value = e.value * ((d.v - d.v % |e.v|).tdiv e.v : ℤ) + Pdec.value ⟨d.v % |e.v|,d.s⟩ ∧
      0 ≤ Pdec.value ⟨d.v % |e.v|,d.s⟩ ∧ Pdec.value ⟨d.v % |e.v|,d.s⟩ < |e.value| := by
  have hpow : (0 : ℚ) < 10 ^ e.s := by positivity
  refine ⟨?_,?_,?_⟩
  · have hdvd : e.v ∣ d.v - d.v % |e.v| := by
      rw [Int.emod_abs]
      exact Int.dvd_self_sub_emod
    have hsum : d.v = e.v * (d.v - d.v % |e.v|).tdiv e.v + d.v % |e.v| := by
      rw [Int.mul_tdiv_cancel' hdvd]
      ring
    have hcast : (d.v : ℚ) = e.v * ((d.v - d.v % |e.v|).tdiv e.v : ℤ) + (d.v % |e.v| : ℤ) := by
      exact_mod_cast hsum
    simp only [Pdec.value,hs]
    rw [eq_comm,div_mul_eq_mul_div,← add_div,← hcast]
  · have hmod : (0 : ℚ) ≤ (d.v % |e.v| : ℤ) := by exact_mod_cast Int.emod_nonneg _ (abs_pos.mpr hy).ne'
    simp only [Pdec.value,hs]
    exact div_nonneg hmod hpow.le
  · have hmod : ((d.v % |e.v| : ℤ) : ℚ) < |(e.v : ℚ)| := by
      exact_mod_cast Int.emod_lt_of_pos _ (abs_pos.mpr hy)
    simp only [Pdec.value,hs,abs_div]
    rw [abs_of_pos hpow]
    gcongr

theorem pDivMod_spec (ha : Denotes a x) (hb : Denotes b y) (hy : y ≠ 0) :
    ∃ (q : ℤ) (r : ℚ),x = y * q + r ∧ 0 ≤ r ∧ r < |y| ∧
      Exactly (divIntP a b) "DIV" q ∧ Exactly (modP a b) "MOD" r := by
  obtain ⟨d,hd,hds,rfl⟩ := pParse_denotes ha
  obtain ⟨e,he,hes,rfl⟩ := pParse_denotes hb
  obtain ⟨h1,h2,hs⟩ := pAlign_spec d e
  have hy : (pAlign d e).2.v ≠ 0 := by
    rw [← h2,Ne,value_eq_zero] at hy
    exact hy
  have hdivision : ∀ op,pDivMod a b op = .ok
      (⟨((pAlign d e).1.v - (pAlign d e).1.v % |(pAlign d e).2.v|).tdiv (pAlign d e).2.v,0⟩,
        ⟨(pAlign d e).1.v % |(pAlign d e).2.v|,(pAlign d e).1.s⟩) := by
    intro op
    rw [pDivMod,hd,he]
    simp only [bind,Except.bind]
    rw [if_neg hy]
  obtain ⟨hsum,hnonneg,hlt⟩ := aligned_division hs hy
  rw [← h1,← h2,divIntP,modP,hdivision,hdivision]
  refine ⟨_,_,hsum,hnonneg,hlt,?_,pCalc_exactly _ _⟩
  have hwhole : ∀ q : ℤ,Pdec.value ⟨q,0⟩ = q := fun q => by rw [Pdec.value,zpow_zero,div_one]
  rw [← hwhole]
  exact pCalc_exactly _ _

theorem zero_divisor (ha : Denotes a x) (hb : Denotes b 0) :
    (x = 0 → divP a b = .ok ['0'] ∧ divIntP a b = .ok ['0'] ∧ modP a b = .ok ['0']) ∧
    (x ≠ 0 → divP a b = .error (.zeroDivide "/") ∧ divIntP a b = .error (.zeroDivide "DIV") ∧
      modP a b = .error (.zeroDivide "MOD")) := by
  obtain ⟨d,hd,-,rfl⟩ := pParse_denotes ha
  obtain ⟨e,he,-,hzero⟩ := pParse_denotes hb
  obtain ⟨h1,h2,-⟩ := pAlign_spec d e
  have he0 := value_eq_zero.mp hzero
  have he0' := value_eq_zero.mp (h2.trans hzero)
  constructor
  · intro hx
    have hd0 := value_eq_zero.mp hx
    have hd0' := value_eq_zero.mp (h1.trans hx)
    have hdivision : ∀ op,pDivMod a b op = .ok (pZero,pZero) := by
      intro op
      rw [pDivMod,hd,he]
      simp only [bind,Except.bind]
      rw [if_pos he0',if_pos hd0']
    refine ⟨?_,by rw [divIntP,hdivision]; rfl,by rw [modP,hdivision]; rfl⟩
    rw [divP,hd,he]
    simp only [bind,Except.bind]
    rw [if_pos he0,if_pos hd0]
  · intro hx
    have hd0 : d.v ≠ 0 := fun h => hx (value_eq_zero.mpr h)
    have hd0' : (pAlign d e).1.v ≠ 0 := fun h => hx (h1 ▸ value_eq_zero.mpr h)
    have hdivision : ∀ op,pDivMod a b op = .error (.zeroDivide op) := by
      intro op
      rw [pDivMod,hd,he]
      simp only [bind,Except.bind]
      rw [if_pos he0',if_neg hd0']
    refine ⟨?_,by rw [divIntP,hdivision]; rfl,by rw [modP,hdivision]; rfl⟩
    rw [divP,hd,he]
    simp only [bind,Except.bind]
    rw [if_pos he0,if_neg hd0]

theorem raises_iff {res : Except Fault Text} {op : String}
    (hplain : y ≠ 0 → res ≠ .error (.zeroDivide op)) (hzero : y = 0 → x = 0 → res = .ok ['0'])
    (hraise : y = 0 → x ≠ 0 → res = .error (.zeroDivide op)) :
    res = .error (.zeroDivide op) ↔ y = 0 ∧ x ≠ 0 := by
  refine ⟨fun h => ?_,fun h => hraise h.1 h.2⟩
  have hy : y = 0 := by
    by_contra hy
    exact hplain hy h
  refine ⟨hy,fun hx => ?_⟩
  rw [hzero hy hx] at h
  cases h

theorem packed_exact (ha : Denotes a x) (hb : Denotes b y) :
    Exactly (addP a b) "+" (x + y) ∧ Exactly (subP a b) "-" (x - y) ∧ Exactly (mulP a b) "*" (x * y) ∧
    (y ≠ 0 → ∃ (q : ℤ) (r : ℚ),x = y * q + r ∧ 0 ≤ r ∧ r < |y| ∧
      Exactly (divIntP a b) "DIV" q ∧ Exactly (modP a b) "MOD" r) ∧
    (y ≠ 0 → x ≠ 0 → ∃ e q : ℤ,10 ^ e ≤ |x / y| ∧ |x / y| < 10 ^ (e + 1) ∧
      HalfAway (x / y * 10 ^ (30 - e)) q ∧ Exactly (divP a b) "/" (q / 10 ^ (30 - e))) ∧
    (y ≠ 0 → x = 0 → divP a b = .ok ['0']) ∧
    (divP a b = .error (.zeroDivide "/") ↔ y = 0 ∧ x ≠ 0) ∧
    (divIntP a b = .error (.zeroDivide "DIV") ↔ y = 0 ∧ x ≠ 0) ∧
    (modP a b = .error (.zeroDivide "MOD") ↔ y = 0 ∧ x ≠ 0) ∧
    (y = 0 → x = 0 → divP a b = .ok ['0'] ∧ divIntP a b = .ok ['0'] ∧ modP a b = .ok ['0']) := by
  have hzero : y = 0 → (x = 0 → divP a b = .ok ['0'] ∧ divIntP a b = .ok ['0'] ∧ modP a b = .ok ['0']) ∧
      (x ≠ 0 → divP a b = .error (.zeroDivide "/") ∧ divIntP a b = .error (.zeroDivide "DIV") ∧
        modP a b = .error (.zeroDivide "MOD")) := by
    rintro rfl
    exact zero_divisor ha hb
  have hplain : y ≠ 0 → x = 0 → divP a b = .ok ['0'] := divP_zero ha hb
  refine ⟨addP_exactly ha hb,subP_exactly ha hb,mulP_exactly ha hb,pDivMod_spec ha hb,
    fun hy hx => divP_rounded ha hb hx hy,hplain,?_,?_,?_,fun hy => (hzero hy).1⟩
  · refine raises_iff ?_ (fun hy hx => ((hzero hy).1 hx).1) fun hy hx => ((hzero hy).2 hx).1
    intro hy
    by_cases hx : x = 0
    · rw [hplain hy hx]
      simp
    · obtain ⟨e,q,-,-,-,hexactly⟩ := divP_rounded ha hb hx hy
      exact hexactly.not_zeroDivide
  · refine raises_iff ?_ (fun hy hx => ((hzero hy).1 hx).2.1) fun hy hx => ((hzero hy).2 hx).2.1
    intro hy
    obtain ⟨q,r,-,-,-,hexactly,-⟩ := pDivMod_spec ha hb hy
    exact hexactly.not_zeroDivide
  · refine raises_iff ?_ (fun hy hx => ((hzero hy).1 hx).2.2) fun hy hx => ((hzero hy).2 hx).2.2
    intro hy
    obtain ⟨q,r,-,-,-,-,hexactly⟩ := pDivMod_spec ha hb hy
    exact hexactly.not_zeroDivide

theorem packed_exact_halves :
    Exactly (addP ['2','.','5'] ['4']) "+" (5 / 2 + 4) ∧
    (∃ (q : ℤ) (r : ℚ),(5 / 2 : ℚ) = 4 * q + r ∧ 0 ≤ r ∧ r < |(4 : ℚ)| ∧
      Exactly (divIntP ['2','.','5'] ['4']) "DIV" q ∧ Exactly (modP ['2','.','5'] ['4']) "MOD" r) ∧
    ∃ e q : ℤ,10 ^ e ≤ |(5 / 2 / 4 : ℚ)| ∧ |(5 / 2 / 4 : ℚ)| < 10 ^ (e + 1) ∧
      HalfAway (5 / 2 / 4 * 10 ^ (30 - e)) q ∧
        Exactly (divP ['2','.','5'] ['4']) "/" (q / 10 ^ (30 - e)) := by
  have ha : Denotes ['2','.','5'] (5 / 2) := by
    have hbody : Body ['2','.','5'] ['2'] ['5'] := ⟨.inr rfl,by simp [Digits],by simp⟩
    have h : numeral (['2'] ++ ['5']) = 25 := rfl
    have hdenotes := Denotes.number false hbody
    rw [amount,h] at hdenotes
    norm_num [signed] at hdenotes
    exact hdenotes
  have hb : Denotes ['4'] 4 := by
    have hbody : Body ['4'] ['4'] [] := ⟨.inl ⟨rfl,rfl⟩,by simp [Digits],by simp⟩
    have h : numeral (['4'] ++ []) = 4 := rfl
    have hdenotes := Denotes.number false hbody
    rw [amount,h] at hdenotes
    norm_num [signed] at hdenotes
    exact hdenotes
  have h := packed_exact ha hb
  exact ⟨h.1,h.2.2.2.1 (by norm_num),h.2.2.2.2.1 (by norm_num) (by norm_num)⟩

theorem quotient_overflows : ¬∀ a b x y,Denotes a x → Denotes b y → x / y ≠ 0 →
    ∃ t,divP a b = .ok t := by
  intro h
  have hdiv : divP ('1' :: List.replicate 62 '0') ['.','0','1'] = .error (.overflow "/") := by
    decide +kernel
  have ha : Body ('1' :: List.replicate 62 '0') ('1' :: List.replicate 62 '0') [] :=
    ⟨.inl ⟨rfl,rfl⟩,by simp [Digits],by simp⟩
  have hb : Body ['.','0','1'] [] ['0','1'] := ⟨.inr rfl,by simp [Digits],by simp⟩
  have hleft : numeral ('1' :: List.replicate 62 '0' ++ []) = 10 ^ 62 := by decide +kernel
  have hright : numeral ([] ++ ['0','1']) = 1 := rfl
  obtain ⟨t,ht⟩ := h _ _ _ _ (.number false ha) (.number false hb) (by
    rw [amount,amount,hleft,hright]
    norm_num [signed,sign])
  cases hdiv.symm.trans ht

end calculations

end OpenSteamgate.Packed
