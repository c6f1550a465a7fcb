import OpenSteamgate.Library.Decimal
import OpenSteamgate.Library.Rounding

namespace OpenSteamgate.Packed

open Decimal Rounding

abbrev Text := List Char

inductive Fault
  | overflow (op : String)
  | zeroDivide (op : String)
  | conversionOverflow (op : String)
  | conversionNoNumber (op : String)
  | notCompiled (what : String) (value : Text) (why : String)
  deriving DecidableEq

structure Pdec where
  v : ℤ
  s : ℤ

def pZero : Pdec := ⟨0,0⟩

def pow10 (n : ℤ) : ℤ := 10 ^ n.toNat

def cut (t : Text) : Text × Text := (t.takeWhile (· != '.'),(t.dropWhile (· != '.')).tail)

def pParse (a : Text) : Except Fault Pdec :=
  if a = [] then .ok pZero
  else
    let neg := a.head? == some '-'
    let a := if neg then a.tail else a
    let p := cut a
    match setString (p.1 ++ p.2) with
    | none => .error (.notCompiled "packed number" a "is not a packed number")
    | some v => .ok ⟨if neg then -v else v,p.2.length⟩

def pText (d : Pdec) : Text :=
  if d.s ≤ 0 then intText (d.v * pow10 (-d.s))
  else
    let t := pad d.s.toNat (Nat.toDigits 10 d.v.natAbs)
    let ip := t.take (t.length - d.s.toNat)
    let fp := (t.drop (t.length - d.s.toNat)).rdropWhile (· == '0')
    let out := if fp ≠ [] then ip ++ '.' :: fp else ip
    if d.v < 0 ∧ out ≠ ['0'] then '-' :: out else out

def roundDiv (n m : ℤ) : ℤ :=
  let q := n.tdiv m
  let r := n.tmod m
  if m ≤ |r| * 2 then
    if n < 0 then q - 1 else q + 1
  else q

def pScale (d : Pdec) (dec : ℤ) : Pdec :=
  if d.s = dec then d
  else if d.s < dec then ⟨d.v * pow10 (dec - d.s),dec⟩
  else ⟨roundDiv d.v (pow10 (d.s - dec)),dec⟩

def pFixed (d : Pdec) (dec : ℤ) : Text :=
  let d := pScale d dec
  let t := Nat.toDigits 10 d.v.natAbs
  let t :=
    if 0 < dec then
      let t := pad dec.toNat t
      t.take (t.length - dec.toNat) ++ '.' :: t.drop (t.length - dec.toNat)
    else t
  if d.v < 0 then '-' :: t else t

def intDigits (d : Pdec) : ℕ :=
  let ip :=
    if 0 < d.s then d.v.natAbs / 10 ^ d.s.toNat
    else if d.s < 0 then d.v.natAbs * 10 ^ (-d.s).toNat
    else d.v.natAbs
  if ip = 0 then 0 else (Nat.toDigits 10 ip).length

def pCalc (d : Pdec) (op : String) : Except Fault Text :=
  if 63 < intDigits d then .error (.overflow op) else .ok (pText d)

def pAlign (a b : Pdec) : Pdec × Pdec :=
  if a.s < b.s then (pScale a b.s,b)
  else if b.s < a.s then (a,pScale b a.s)
  else (a,b)

def addP (a b : Text) : Except Fault Text := do
  let p := pAlign (← pParse a) (← pParse b)
  pCalc ⟨p.1.v + p.2.v,p.1.s⟩ "+"

def subP (a b : Text) : Except Fault Text := do
  let p := pAlign (← pParse a) (← pParse b)
  pCalc ⟨p.1.v - p.2.v,p.1.s⟩ "-"

def mulP (a b : Text) : Except Fault Text := do
  let x ← pParse a
  let y ← pParse b
  pCalc ⟨x.v * y.v,x.s + y.s⟩ "*"

def negP (a : Text) : Except Fault Text := do
  let x ← pParse a
  return pText ⟨-x.v,x.s⟩

def leading (n m : ℤ) : ℤ :=
  let e : ℤ := (Nat.toDigits 10 n.natAbs).length - (Nat.toDigits 10 m.natAbs).length
  let lhs := if e < 0 then |n| * pow10 (-e) else |n|
  let rhs := if e < 0 then m else m * pow10 (max e 0)
  if lhs < rhs then e - 1 else e

def divP (a b : Text) : Except Fault Text := do
  let x ← pParse a
  let y ← pParse b
  if y.v = 0 then
    if x.v = 0 then .ok ['0'] else .error (.zeroDivide "/")
  else if x.v = 0 then .ok ['0']
  else
    let m := y.v * pow10 x.s
    let n := if m < 0 then -(x.v * pow10 y.s) else x.v * pow10 y.s
    let m := |m|
    let scale := 30 - leading n m
    let q :=
      if 0 ≤ scale then roundDiv (n * pow10 scale) m
      else roundDiv n (m * pow10 (-scale))
    pCalc ⟨q,scale⟩ "/"

def pDivMod (a b : Text) (op : String) : Except Fault (Pdec × Pdec) := do
  let p := pAlign (← pParse a) (← pParse b)
  if p.2.v = 0 then
    if p.1.v = 0 then .ok (pZero,pZero) else .error (.zeroDivide op)
  else
    let r := p.1.v % |p.2.v|
    let q := (p.1.v - r).tdiv p.2.v
    .ok (⟨q,0⟩,⟨r,p.1.s⟩)

def divIntP (a b : Text) : Except Fault Text := do
  let p ← pDivMod a b "DIV"
  pCalc p.1 "DIV"

def modP (a b : Text) : Except Fault Text := do
  let p ← pDivMod a b "MOD"
  pCalc p.2 "MOD"

def Pdec.value (d : Pdec) : ℚ := d.v / 10 ^ d.s

structure Body (t ip fp : Text) : Prop where
  text : t = ip ∧ fp = [] ∨ t = ip ++ '.' :: fp
  digits : Digits (ip ++ fp)
  nonempty : ip ++ fp ≠ []

inductive Denotes : Text → ℚ → Prop
  | blank : Denotes [] 0
  | number {t ip fp : Text} (neg : Bool) (h : Body t ip fp) :
      Denotes (sign neg ++ t) (amount neg ip fp)

def Canonical (t : Text) (q : ℚ) : Prop :=
  ∃ neg ip fp,t = sign neg ++ (ip ++ if fp = [] then [] else '.' :: fp) ∧
    Digits (ip ++ fp) ∧ ip ≠ [] ∧ fp.getLast? ≠ some '0' ∧ q = amount neg ip fp ∧ (neg = true → q ≠ 0)

def Fixed (dec : ℕ) (t : Text) (q : ℚ) : Prop :=
  ∃ neg ip fp,t = sign neg ++ (ip ++ if dec = 0 then [] else '.' :: fp) ∧
    Digits (ip ++ fp) ∧ ip ≠ [] ∧ fp.length = dec ∧ q = amount neg ip fp ∧ (neg = true → q ≠ 0)

section reading

variable {a t ip fp : Text} {q : ℚ}

theorem Canonical.denotes (h : Canonical t q) : Denotes t q := by
  obtain ⟨neg,ip,fp,rfl,hdigits,hne,-,rfl,-⟩ := h
  refine .number neg ⟨?_,hdigits,by simp [hne]⟩
  split
  · next h => exact .inl ⟨List.append_nil ip,h⟩
  · exact .inr rfl

theorem Fixed.denotes {dec : ℕ} (h : Fixed dec t q) : Denotes t q := by
  obtain ⟨neg,ip,fp,rfl,hdigits,hne,hlen,rfl,-⟩ := h
  refine .number neg ⟨?_,hdigits,by simp [hne]⟩
  split
  · next h => exact .inl ⟨List.append_nil ip,List.eq_nil_of_length_eq_zero (hlen.trans h)⟩
  · exact .inr rfl

theorem Body.cut_eq (h : Body t ip fp) : cut t = (ip,fp) := by
  have hplain : ∀ c ∈ ip,(c != '.') = true := by
    intro c hc
    have hdigit := (digits_append.mp h.digits).1 c hc
    rw [bne_iff_ne]
    rintro rfl
    exact Bool.noConfusion hdigit
  rcases h.text with ⟨rfl,rfl⟩ | rfl
  · rw [cut,List.takeWhile_eq_self_iff.mpr hplain,List.dropWhile_eq_nil_iff.mpr hplain]
    rfl
  · rw [cut,List.takeWhile_append_of_pos hplain,List.dropWhile_append_of_pos hplain]
    simp

theorem Body.head_ne (h : Body t ip fp) {c : Char} (hc : c.isDigit = false) (hpoint : c ≠ '.') :
    t.head? ≠ some c := by
  intro hhead
  obtain ⟨rest,rfl⟩ := List.head?_eq_some_iff.mp hhead
  have hmem : c ∈ ip ++ fp ∨ c = '.' := by
    rcases h.text with ⟨rfl,-⟩ | htext
    · simp
    · have hin : c ∈ ip ++ '.' :: fp := htext ▸ List.mem_cons_self
      rcases List.mem_append.mp hin with hin | hin
      · simp [hin]
      · rcases List.mem_cons.mp hin with rfl | hin
        · exact .inr rfl
        · simp [hin]
  rcases hmem with hmem | hmem
  · exact h.digits.not_mem hc hmem
  · exact hpoint hmem

theorem Body.ne_nil (h : Body t ip fp) : t ≠ [] := by
  rcases h.text with ⟨rfl,rfl⟩ | rfl
  · simpa using h.nonempty
  · simp

theorem pParse_number (neg : Bool) (h : Body t ip fp) : pParse (sign neg ++ t) =
    .ok ⟨if neg then -(numeral (ip ++ fp) : ℤ) else numeral (ip ++ fp),fp.length⟩ := by
  have hset := setString_digits h.digits h.nonempty
  cases neg with
  | true =>
    rw [sign,if_pos rfl,pParse,if_neg (by simp)]
    simp only [List.singleton_append,List.head?_cons,beq_self_eq_true,if_true,List.tail_cons,h.cut_eq,hset]
  | false =>
    have hhead : (t.head? == some '-') = false := by
      rw [beq_eq_false_iff_ne]
      exact h.head_ne (by decide) (by decide)
    rw [sign,if_neg (by decide),List.nil_append,pParse,if_neg h.ne_nil]
    simp only [hhead,Bool.false_eq_true,if_false,h.cut_eq,hset]

theorem pParse_denotes (h : Denotes a q) : ∃ d,pParse a = .ok d ∧ 0 ≤ d.s ∧ d.value = q := by
  cases h with
  | blank => exact ⟨pZero,rfl,le_rfl,by simp [Pdec.value,pZero]⟩
  | number neg h =>
    refine ⟨_,pParse_number neg h,Int.natCast_nonneg _,?_⟩
    rw [Pdec.value,zpow_natCast,amount]
    cases neg <;> simp [signed]

theorem Denotes.unique {r : ℚ} (h : Denotes a q) (h' : Denotes a r) : q = r := by
  obtain ⟨d,hd,-,rfl⟩ := pParse_denotes h
  obtain ⟨d',hd',-,rfl⟩ := pParse_denotes h'
  rw [hd] at hd'
  rw [Except.ok.inj hd']

end reading

section values

variable {d : Pdec} {k : ℕ} {dec : ℤ}

theorem value_of_nonneg (h : 0 ≤ d.s) : d.value = d.v / 10 ^ d.s.toNat := by
  rw [Pdec.value,← zpow_natCast,Int.toNat_of_nonneg h]

theorem value_of_nonpos (h : d.s ≤ 0) : d.value = d.v * 10 ^ (-d.s).toNat := by
  rw [Pdec.value,← zpow_natCast,Int.toNat_of_nonneg (by omega),zpow_neg,div_eq_mul_inv]

theorem signed_natAbs (v : ℤ) : signed (decide (v < 0)) (v.natAbs : ℚ) = v := by
  rcases lt_or_ge v 0 with h | h
  · rw [signed,if_pos (decide_eq_true h),Nat.cast_natAbs,abs_of_neg h]
    push_cast
    ring
  · rw [signed,if_neg (by simpa using h),Nat.cast_natAbs,abs_of_nonneg h]

theorem amount_natAbs {v : ℤ} {ip fp : Text} (hn : numeral (ip ++ fp) = v.natAbs) (hk : fp.length = k) :
    amount (decide (v < 0)) ip fp = v / 10 ^ k := by
  rw [amount,hn,hk,signed_natAbs]

theorem sign_cons (v : ℤ) (t : Text) : (if v < 0 then '-' :: t else t) = sign (decide (v < 0)) ++ t := by
  by_cases h : v < 0 <;> simp [h,sign]

theorem quotient_ne_zero {v : ℤ} (h : decide (v < 0) = true) (k : ℕ) : (v : ℚ) / 10 ^ k ≠ 0 := by
  have hne : (v : ℚ) ≠ 0 := by exact_mod_cast (of_decide_eq_true h).ne
  positivity

theorem intText_canonical (v : ℤ) : Canonical (intText v) v := by
  refine ⟨decide (v < 0),Nat.toDigits 10 v.natAbs,[],?_,?_,Nat.toDigits_ne_nil,by simp,?_,?_⟩
  · rw [if_pos rfl,List.append_nil,intText,sign_cons]
  · rw [List.append_nil]
    exact digits_decimal _
  · rw [amount_natAbs (k := 0) (by simp) rfl,pow_zero,div_one]
  · intro h
    simpa using quotient_ne_zero h 0

theorem pText_canonical (d : Pdec) : Canonical (pText d) d.value := by
  rcases le_or_gt d.s 0 with hs | hs
  · have hvalue : d.value = ((d.v * pow10 (-d.s) : ℤ) : ℚ) := by
      rw [value_of_nonpos hs,pow10]
      push_cast
      rfl
    rw [pText,if_pos hs,hvalue]
    exact intText_canonical _
  · obtain ⟨hip,hne,hfp,hlen,hn⟩ := pad_split d.s.toNat d.v.natAbs
    rw [pText,if_neg (not_le.mpr hs)]
    simp only
    set t := pad d.s.toNat (Nat.toDigits 10 d.v.natAbs)
    set ip := t.take (t.length - d.s.toNat)
    set fp := t.drop (t.length - d.s.toNat)
    obtain ⟨j,hj⟩ := rdrop_zeros fp
    have hvalue : d.value = amount (decide (d.v < 0)) ip (fp.rdropWhile (· == '0')) := by
      rw [← amount_zeros _ _ _ j,← hj,value_of_nonneg hs.le,amount_natAbs hn hlen]
    have hout : d.v < 0 → (if fp.rdropWhile (· == '0') ≠ [] then ip ++ '.' :: fp.rdropWhile (· == '0')
        else ip) ≠ ['0'] := by
      intro hv
      split
      · intro hshort
        have hlength := congrArg List.length hshort
        rw [List.length_append,List.length_cons,List.length_singleton] at hlength
        exact hne (List.eq_nil_of_length_eq_zero (by omega))
      · next h =>
        intro hip
        rw [hip,not_not.mp h] at hvalue
        have hzero : amount (decide (d.v < 0)) ['0'] [] = 0 := by
          have h0 : numeral (['0'] ++ []) = 0 := rfl
          rw [amount,h0]
          simp [signed]
        rw [hzero,value_of_nonneg hs.le] at hvalue
        exact quotient_ne_zero (decide_eq_true hv) _ hvalue
    have hsame : (if fp.rdropWhile (· == '0') ≠ [] then ip ++ '.' :: fp.rdropWhile (· == '0') else ip) =
        ip ++ if fp.rdropWhile (· == '0') = [] then [] else '.' :: fp.rdropWhile (· == '0') := by
      generalize fp.rdropWhile (· == '0') = fraction
      by_cases h : fraction = [] <;> simp [h]
    refine ⟨decide (d.v < 0),ip,fp.rdropWhile (· == '0'),?_,?_,hne,?_,hvalue,?_⟩
    · rw [← sign_cons,← hsame]
      by_cases hv : d.v < 0
      · rw [if_pos ⟨hv,hout hv⟩,if_pos hv]
      · rw [if_neg (fun h => hv h.1),if_neg hv]
    · exact digits_append.mpr ⟨hip,fun c hc => hfp c (( List.rdropWhile_prefix _ _).subset hc)⟩
    · intro hlast
      obtain ⟨init,hinit⟩ := List.getLast?_eq_some_iff.mp hlast
      have hnot := List.rdropWhile_last_not (· == '0') fp (by rw [hinit]; simp)
      simp [hinit] at hnot
    · intro hv
      rw [value_of_nonneg hs.le]
      exact quotient_ne_zero hv _

theorem pFixed_fixed (hs : d.s = dec) (hdec : 0 ≤ dec) : Fixed dec.toNat (pFixed d dec) d.value := by
  have hscale : pScale d dec = d := if_pos hs
  have hvalue : d.value = d.v / 10 ^ dec.toNat := by rw [value_of_nonneg (by omega),hs]
  rw [pFixed,hscale,hvalue]
  simp only
  rw [sign_cons]
  rcases hdec.eq_or_lt with rfl | hpos
  · refine ⟨_,Nat.toDigits 10 d.v.natAbs,[],by simp,?_,Nat.toDigits_ne_nil,rfl,?_,fun h => quotient_ne_zero h _⟩
    · rw [List.append_nil]
      exact digits_decimal _
    · rw [amount_natAbs (by simp) rfl]
      rfl
  · obtain ⟨hip,hne,hfp,hlen,hn⟩ := pad_split dec.toNat d.v.natAbs
    refine ⟨_,_,_,?_,digits_append.mpr ⟨hip,hfp⟩,hne,hlen,(amount_natAbs hn hlen).symm,fun h => quotient_ne_zero h _⟩
    rw [if_pos hpos,if_neg (by omega)]

theorem intDigits_le : intDigits d ≤ k ↔ |d.value| < 10 ^ k := by
  have hlen : ∀ n : ℕ,(if n = 0 then 0 else (Nat.toDigits 10 n).length) ≤ k ↔ n < 10 ^ k := by
    intro n
    split
    · next h => simp [h]
    · next h =>
      rcases Nat.eq_zero_or_pos k with rfl | hk
      · have hpos : 0 < (Nat.toDigits 10 n).length := Nat.length_toDigits_pos
        rw [pow_zero]
        omega
      · exact Nat.length_toDigits_le_iff (by decide) hk
  have habs : |(d.v : ℚ)| = (d.v.natAbs : ℚ) := by
    rw [Nat.cast_natAbs]
    push_cast
    rfl
  rw [intDigits,hlen]
  rcases lt_trichotomy d.s 0 with hs | hs | hs
  · rw [if_neg (by omega),if_pos hs,value_of_nonpos hs.le,abs_mul,habs,abs_of_pos (by positivity)]
    exact_mod_cast Iff.rfl
  · rw [if_neg (by omega),if_neg (by omega),value_of_nonpos hs.le,hs,neg_zero,Int.toNat_zero,pow_zero,mul_one,habs]
    exact_mod_cast Iff.rfl
  · rw [if_pos hs,value_of_nonneg hs.le,abs_div,habs,abs_of_pos (by positivity : (0 : ℚ) < 10 ^ d.s.toNat),
      Nat.div_lt_iff_lt_mul (by positivity),div_lt_iff₀ (by positivity)]
    exact_mod_cast Iff.rfl

theorem roundDiv_halfAway {n m : ℤ} (hm : 0 < m) : HalfAway (n / m) (roundDiv n m) := by
  have hpos : ∀ n : ℤ,0 ≤ n → HalfAway (n / m) (roundDiv n m) := by
    intro n hn
    have h := halfAway_div hn hm
    rw [roundDiv,Int.tdiv_eq_ediv_of_nonneg hn,Int.tmod_eq_emod_of_nonneg hn]
    rwa [abs_of_nonneg (Int.emod_nonneg n hm.ne'),if_neg (not_lt.mpr hn),mul_comm]
  rcases lt_or_ge n 0 with hn | hn
  · have hneg := (hpos (-n) (by omega)).neg
    have hround : -roundDiv (-n) m = roundDiv n m := by
      rw [roundDiv,roundDiv,Int.neg_tdiv,Int.neg_tmod,abs_neg]
      rw [if_neg (by omega : ¬-n < 0),if_pos hn]
      split <;> ring
    rw [hround] at hneg
    push_cast at hneg
    rwa [neg_div,neg_neg] at hneg
  · exact hpos n hn

theorem pow10_pos (n : ℤ) : 0 < pow10 n := by
  rw [pow10]
  positivity

theorem pow10_cast {n : ℤ} (h : 0 ≤ n) : ((pow10 n : ℤ) : ℚ) = 10 ^ n := by
  rw [pow10]
  push_cast
  rw [← zpow_natCast,Int.toNat_of_nonneg h]

theorem pScale_scale (d : Pdec) (dec : ℤ) : (pScale d dec).s = dec := by
  rw [pScale]
  split
  · assumption
  · split <;> rfl

theorem pScale_up (h : d.s ≤ dec) : (pScale d dec).value = d.value := by
  rw [pScale]
  split
  · rfl
  · rw [if_pos (by omega),Pdec.value,Pdec.value]
    push_cast
    rw [pow10_cast (by omega),zpow_sub₀ (by norm_num)]
    field_simp

theorem value_scaled (d : Pdec) (dec : ℤ) : ((pScale d dec).v : ℚ) = (pScale d dec).value * 10 ^ dec := by
  rw [Pdec.value,pScale_scale]
  field_simp

theorem pScale_halfAway (d : Pdec) (dec : ℤ) : HalfAway (d.value * 10 ^ dec) (pScale d dec).v := by
  rcases le_or_gt d.s dec with h | h
  · rw [← pScale_up h,← value_scaled]
    exact halfAway_self _
  · have hround := @roundDiv_halfAway d.v _ (pow10_pos (d.s - dec))
    have hquot : (d.v : ℚ) / (pow10 (d.s - dec) : ℤ) = d.value * 10 ^ dec := by
      rw [pow10_cast (by omega),Pdec.value,zpow_sub₀ (by norm_num)]
      field_simp
    rw [hquot] at hround
    rwa [pScale,if_neg (by omega),if_neg (by omega)]

end values

end OpenSteamgate.Packed
