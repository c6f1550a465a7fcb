import OpenSteamgate.Arith.Decimals
import OpenSteamgate.Library.Padding

namespace OpenSteamgate.Packed

open Decimal Rounding
open GoText (isSpace trimSpace)

def pFit (a : Text) (n dec : ℤ) (arith : Bool) : Except Fault Text := do
  let d := pScale (← pParse a) dec
  if 2 * n - 1 - dec < intDigits d then
    .error (if arith then .overflow "=" else .conversionOverflow "p")
  else .ok (pFixed d dec)

def strip (f : Char → Bool) (t : Text) : Text := (t.dropWhile f).rdropWhile f

def signOf (t : Text) : Bool × Text :=
  if t.getLast? = some '-' then (true,t.dropLast.rdropWhile (· == ' '))
  else if t.head? = some '-' then (true,t.tail.dropWhile (· == ' '))
  else if t.head? = some '+' then (false,t.tail.dropWhile (· == ' '))
  else (false,t)

def cToP (v : Text) : Except Fault Text :=
  let t := strip (· == ' ') v
  if t = [] then .ok ['0']
  else
    let p := signOf t
    let q := cut p.2
    if q.1 ++ q.2 = [] ∨ strip Char.isDigit q.1 ≠ [] ∨ strip Char.isDigit q.2 ≠ [] then
      .error (.conversionNoNumber "c->p")
    else do
      let x ← pParse (q.1 ++ '.' :: q.2)
      return pText (if p.1 then ⟨-x.v,x.s⟩ else x)

def pToString (a : Text) (dec : ℤ) : Except Fault Text := do
  let d := pScale (← pParse a) dec
  return if d.v < 0 then pFixed ⟨-d.v,d.s⟩ dec ++ ['-'] else pFixed d dec ++ [' ']

def fmtP (a : Text) (dec : ℤ) : Except Fault Text := do
  let x ← pParse a
  return pFixed (pScale x dec) dec

def pParseExp (lower : Char → Char) (t : Text) : Except Fault Pdec := do
  let l := t.map lower
  let d ← pParse (l.takeWhile (· != 'e'))
  let d ←
    if 'e' ∈ l then
      match atoi (l.dropWhile (· != 'e')).tail with
      | none => .error (.notCompiled "packed number" t "is not a number")
      | some x => .ok ⟨d.v,d.s - x⟩
    else .ok d
  return if d.s < 0 then ⟨d.v * pow10 (-d.s),0⟩ else d

structure DBString where
  string : Text
  valid : Bool

def dbP (lower : Char → Char) (v : DBString) (n dec : ℤ) : Except Fault Text :=
  if v.valid = false ∨ trimSpace v.string = [] then .ok (pFixed pZero dec)
  else do
    let d ← pParseExp lower (trimSpace v.string)
    pFit (pText d) n dec false

section scales

variable {d e : Pdec} {dec : ℤ} {t ip fp : Text}

theorem pScale_congr (h : d.value = e.value) (dec : ℤ) : pScale d dec = pScale e dec := by
  have hd := pScale_halfAway d dec
  rw [h] at hd
  have hv := hd.unique (pScale_halfAway e dec)
  have hs : (pScale d dec).s = (pScale e dec).s := by rw [pScale_scale,pScale_scale]
  cases hde : pScale d dec
  cases hee : pScale e dec
  simp_all

theorem pScale_self (h : d.s = dec) : pScale d dec = d := if_pos h

theorem pFixed_body (hs : d.s = dec) (hdec : 0 ≤ dec) : ∃ t ip fp,
    pFixed d dec = sign (decide (d.v < 0)) ++ t ∧ Body t ip fp ∧ ip ≠ [] ∧
      numeral (ip ++ fp) = d.v.natAbs ∧ (fp.length : ℤ) = dec := by
  rw [pFixed,pScale_self hs]
  simp only
  rw [sign_cons]
  rcases hdec.eq_or_lt with rfl | hpos
  · refine ⟨_,Nat.toDigits 10 d.v.natAbs,[],rfl,⟨.inl ⟨by simp,rfl⟩,?_,by simp⟩,by simp,by simp,rfl⟩
    rw [List.append_nil]
    exact digits_decimal _
  · obtain ⟨hip,hne,hfp,hlen,hn⟩ := pad_split dec.toNat d.v.natAbs
    refine ⟨_,_,_,rfl,⟨.inr ?_,digits_append.mpr ⟨hip,hfp⟩,
      List.append_ne_nil_of_left_ne_nil hne _⟩,hne,hn,by omega⟩
    rw [if_pos hpos]

theorem signed_int (v : ℤ) {n : ℕ} (h : n = v.natAbs) :
    (if decide (v < 0) = true then -(n : ℤ) else n) = v := by
  by_cases hv : v < 0
  · rw [if_pos (decide_eq_true hv)]
    omega
  · rw [if_neg (by simpa using hv)]
    omega

theorem pParse_pFixed (hs : d.s = dec) (hdec : 0 ≤ dec) : pParse (pFixed d dec) = .ok d := by
  obtain ⟨t,ip,fp,htext,hbody,-,hn,hlen⟩ := pFixed_body hs hdec
  rw [htext,pParse_number _ hbody,hlen,signed_int _ hn,← hs]

end scales

section landing

variable {a b t u : Text} {x y p q : ℚ} {n dec : ℤ} {arith arith' : Bool}

def Lands (res : Except Fault Text) (n dec : ℤ) (arith : Bool) (x : ℚ) : Prop :=
  ∃ v : ℤ,HalfAway (x * 10 ^ dec) v ∧
    if |(v / 10 ^ dec : ℚ)| < 10 ^ (2 * n - 1 - dec) then
      ∃ t,res = .ok t ∧ Fixed dec.toNat t (v / 10 ^ dec)
    else res = .error (if arith then .overflow "=" else .conversionOverflow "p")

theorem pFit_eq {d : Pdec} (hd : pParse a = .ok d) : pFit a n dec arith =
    if 2 * n - 1 - dec < intDigits (pScale d dec) then
      .error (if arith then .overflow "=" else .conversionOverflow "p")
    else .ok (pFixed (pScale d dec) dec) := by
  rw [pFit,hd]
  rfl

theorem pFit_lands (ha : Denotes a x) (hdec : 0 ≤ dec) (hle : dec ≤ 2 * n - 1) :
    Lands (pFit a n dec arith) n dec arith x := by
  obtain ⟨d,hd,-,rfl⟩ := pParse_denotes ha
  have hvalue : (pScale d dec).value = (pScale d dec).v / 10 ^ dec := by
    rw [Pdec.value,pScale_scale]
  refine ⟨(pScale d dec).v,pScale_halfAway d dec,?_⟩
  rw [pFit_eq hd,← hvalue]
  have hdigits := @intDigits_le (pScale d dec) (2 * n - 1 - dec).toNat
  rw [← zpow_natCast,Int.toNat_of_nonneg (by omega)] at hdigits
  split
  · next h =>
    rw [if_neg (by have := hdigits.mpr h; omega)]
    exact ⟨_,rfl,pFixed_fixed (pScale_scale d dec) hdec⟩
  · next h =>
    have hlong : ¬intDigits (pScale d dec) ≤ (2 * n - 1 - dec).toNat := fun hle => h (hdigits.mp hle)
    rw [if_pos (by omega)]

theorem pFit_congr (ha : Denotes a x) (hb : Denotes b x) : pFit a n dec arith = pFit b n dec arith := by
  obtain ⟨d,hd,-,hdx⟩ := pParse_denotes ha
  obtain ⟨e,he,-,hex⟩ := pParse_denotes hb
  rw [pFit_eq hd,pFit_eq he,pScale_congr (hdx.trans hex.symm)]

theorem pFit_ok (ha : Denotes a x) (h : pFit a n dec arith = .ok t) : ∃ d : Pdec,
    d.s = dec ∧ HalfAway (x * 10 ^ dec) d.v ∧ ¬2 * n - 1 - dec < intDigits d ∧ t = pFixed d dec := by
  obtain ⟨d,hd,-,rfl⟩ := pParse_denotes ha
  rw [pFit_eq hd] at h
  split at h
  · cases h
  · next hfits => exact ⟨_,pScale_scale d dec,pScale_halfAway d dec,hfits,(Except.ok.inj h).symm⟩

theorem pFixed_denotes {d : Pdec} (hs : d.s = dec) (hdec : 0 ≤ dec) : Denotes (pFixed d dec) d.value :=
  (pFixed_fixed hs hdec).denotes

theorem pFit_pFixed {d : Pdec} (hs : d.s = dec) (hdec : 0 ≤ dec) (hfits : ¬2 * n - 1 - dec < intDigits d) :
    pFit (pFixed d dec) n dec arith = .ok (pFixed d dec) := by
  rw [pFit_eq (pParse_pFixed hs hdec),pScale_self hs,if_neg hfits]

theorem negP_denotes (ha : Denotes a x) : ∃ t,negP a = .ok t ∧ Denotes t (-x) := by
  obtain ⟨d,hd,-,rfl⟩ := pParse_denotes ha
  refine ⟨pText ⟨-d.v,d.s⟩,by rw [negP,hd]; rfl,?_⟩
  rw [← value_neg]
  exact (pText_canonical _).denotes

theorem intDigits_neg (d : Pdec) : intDigits ⟨-d.v,d.s⟩ = intDigits d := by
  rw [intDigits,intDigits,Int.natAbs_neg]

theorem pFit_neg (ha : Denotes a x) (hb : Denotes b (-x)) (hdec : 0 ≤ dec) :
    (∀ e,pFit a n dec arith = .error e ↔ pFit b n dec arith = .error e) ∧
    ∀ t,pFit a n dec arith = .ok t → ∃ u p,
      pFit b n dec arith = .ok u ∧ Denotes t p ∧ Denotes u (-p) := by
  obtain ⟨d,hd,-,hdx⟩ := pParse_denotes ha
  obtain ⟨e,he,-,hex⟩ := pParse_denotes hb
  have hscale : pScale e dec = ⟨-(pScale d dec).v,(pScale d dec).s⟩ := by
    have hneg := (pScale_halfAway d dec).neg
    rw [hdx,← neg_mul,← hex] at hneg
    have hv := (pScale_halfAway e dec).unique hneg
    have hs : (pScale e dec).s = (pScale d dec).s := by rw [pScale_scale,pScale_scale]
    cases hee : pScale e dec
    simp_all
  have hs := pScale_scale d dec
  rw [pFit_eq hd,pFit_eq he,hscale,intDigits_neg]
  generalize pScale d dec = d at hs ⊢
  constructor
  · intro f
    split
    · exact Iff.rfl
    · simp
  · intro t ht
    split at ht
    · cases ht
    · next h =>
      obtain rfl := Except.ok.inj ht
      rw [if_neg h]
      refine ⟨_,_,rfl,pFixed_denotes hs hdec,?_⟩
      rw [← value_neg]
      exact pFixed_denotes hs hdec

theorem pFit_mono (ha : Denotes a x) (hb : Denotes b y) (hdec : 0 ≤ dec) (hle : x ≤ y)
    (ht : pFit a n dec arith = .ok t) (hu : pFit b n dec arith' = .ok u) (hp : Denotes t p)
    (hq : Denotes u q) : p ≤ q := by
  obtain ⟨d,hds,hd,-,rfl⟩ := pFit_ok ha ht
  obtain ⟨e,hes,he,-,rfl⟩ := pFit_ok hb hu
  rw [hp.unique (pFixed_denotes hds hdec),hq.unique (pFixed_denotes hes hdec),Pdec.value,Pdec.value,hds,hes]
  have hpow : (0 : ℚ) < 10 ^ dec := by positivity
  have hv : d.v ≤ e.v := hd.mono he (mul_le_mul_of_nonneg_right hle hpow.le)
  have hcast : (d.v : ℚ) ≤ e.v := by exact_mod_cast hv
  gcongr

end landing

section back

variable {t ip fp : Text} {d : Pdec} {n dec : ℤ}

theorem strip_self {f : Char → Bool} (hhead : ∀ c,t.head? = some c → f c = false)
    (hlast : ∀ c,t.getLast? = some c → f c = false) : strip f t = t := by
  have hdrop : t.dropWhile f = t := by
    cases t with
    | nil => rfl
    | cons c t => rw [List.dropWhile_cons_of_neg (by rw [hhead c rfl]; exact Bool.false_ne_true)]
  rw [strip,hdrop,List.rdropWhile_eq_self_iff]
  intro hne h
  rw [hlast _ (List.getLast?_eq_getLast_of_ne_nil hne)] at h
  exact Bool.noConfusion h

theorem strip_all {f : Char → Bool} (h : ∀ c ∈ t,f c = true) : strip f t = [] := by
  rw [strip,List.dropWhile_eq_nil_iff.mpr h]
  rfl

theorem Body.not_mem (h : Body t ip fp) {c : Char} (hc : c.isDigit = false) (hpoint : c ≠ '.') : c ∉ t := by
  intro hmem
  rcases h.text with ⟨rfl,rfl⟩ | rfl
  · exact h.digits.not_mem hc (List.mem_append_left _ hmem)
  · rcases List.mem_append.mp hmem with hmem | hmem
    · exact h.digits.not_mem hc (List.mem_append_left _ hmem)
    · rcases List.mem_cons.mp hmem with rfl | hmem
      · exact hpoint rfl
      · exact h.digits.not_mem hc (List.mem_append_right _ hmem)

theorem strip_free {c : Char} (h : c ∉ t) : strip (· == c) t = t := by
  refine strip_self ?_ ?_
  · intro d hd
    rw [beq_eq_false_iff_ne]
    rintro rfl
    exact h (List.mem_of_mem_head? hd)
  · intro d hd
    rw [beq_eq_false_iff_ne]
    rintro rfl
    exact h (List.mem_of_getLast? hd)

theorem strip_behind {c : Char} (h : c ∉ t) (hne : t ≠ []) : strip (· == c) (t ++ [c]) = t := by
  have hself := strip_free h
  obtain ⟨d,rest,rfl⟩ := List.exists_cons_of_ne_nil hne
  have hdrop : ∀ rest,(d :: rest).dropWhile (· == c) = d :: rest := by
    refine fun rest => List.dropWhile_cons_of_neg fun hd => h ?_
    rw [beq_iff_eq.mp hd]
    exact List.mem_cons_self
  rw [strip,hdrop] at hself
  rw [strip,List.cons_append,hdrop,← List.cons_append,
    List.rdropWhile_concat_pos (· == c) _ _ (beq_self_eq_true c),hself]

theorem dropWhile_free {c : Char} (h : c ∉ t) : t.dropWhile (· == c) = t := by
  cases t with
  | nil => rfl
  | cons d t =>
    refine List.dropWhile_cons_of_neg fun hd => h ?_
    rw [beq_iff_eq.mp hd]
    exact List.mem_cons_self

theorem rdropWhile_free {c : Char} (h : c ∉ t) : t.rdropWhile (· == c) = t := by
  rw [List.rdropWhile_eq_self_iff]
  intro hne hlast
  exact h (beq_iff_eq.mp hlast ▸ List.getLast_mem hne)

theorem signOf_behind (h : Body t ip fp) : signOf (t ++ ['-']) = (true,t) := by
  rw [signOf,List.getLast?_concat,if_pos rfl,List.dropLast_concat,rdropWhile_free (h.not_mem rfl (by decide))]

theorem signOf_front (neg : Bool) (h : Body t ip fp) : signOf (sign neg ++ t) = (neg,t) := by
  have hminus : '-' ∉ t := h.not_mem rfl (by decide)
  have hplus : '+' ∉ t := h.not_mem rfl (by decide)
  have hlast : t.getLast? ≠ some '-' := fun hlast => hminus (List.mem_of_getLast? hlast)
  have hhead : t.head? ≠ some '-' := fun hhead => hminus (List.mem_of_mem_head? hhead)
  have hhead' : t.head? ≠ some '+' := fun hhead => hplus (List.mem_of_mem_head? hhead)
  cases neg with
  | true =>
    have hlast' : ('-' :: t).getLast? ≠ some '-' := by
      rw [List.getLast?_cons_of_ne_nil h.ne_nil]
      exact hlast
    change signOf ('-' :: t) = _
    rw [signOf,if_neg hlast',List.head?_cons,if_pos rfl,List.tail_cons,dropWhile_free (h.not_mem rfl (by decide))]
  | false =>
    change signOf t = _
    rw [signOf,if_neg hlast,if_neg hhead,if_neg hhead']

theorem cToP_signed {v w : Text} {neg : Bool} (hstrip : strip (· == ' ') v = w) (hne : w ≠ [])
    (hsign : signOf w = (neg,t)) (h : Body t ip fp) :
    cToP v = .ok (pText ⟨if neg then -(numeral (ip ++ fp) : ℤ) else numeral (ip ++ fp),fp.length⟩) := by
  have hpoint : Body (ip ++ '.' :: fp) ip fp := ⟨.inr rfl,h.digits,h.nonempty⟩
  have hparse := pParse_number false hpoint
  rw [sign,if_neg (by decide),List.nil_append] at hparse
  obtain ⟨hip,hfp⟩ := digits_append.mp h.digits
  rw [cToP]
  simp only [hstrip,hsign,h.cut_eq]
  rw [if_neg hne,if_neg (by simp [strip_all hip,strip_all hfp,h.nonempty]),hparse]
  cases neg <;> rfl

theorem signed_denotes (neg : Bool) (ip fp : Text) :
    Denotes (pText ⟨if neg then -(numeral (ip ++ fp) : ℤ) else numeral (ip ++ fp),fp.length⟩)
      (amount neg ip fp) := by
  have hvalue : amount neg ip fp =
      Pdec.value ⟨if neg then -(numeral (ip ++ fp) : ℤ) else numeral (ip ++ fp),fp.length⟩ := by
    rw [Pdec.value,zpow_natCast,amount]
    cases neg <;> simp [signed]
  rw [hvalue]
  exact (pText_canonical _).denotes

theorem pFixed_free {c : Char} (hs : d.s = dec) (hdec : 0 ≤ dec) (hc : c.isDigit = false)
    (hpoint : c ≠ '.') (hminus : c ≠ '-') : c ∉ pFixed d dec := by
  obtain ⟨t,ip,fp,htext,hbody,-⟩ := pFixed_body hs hdec
  rw [htext,List.mem_append]
  rintro (h | h)
  · rw [sign] at h
    split at h
    · exact hminus (List.mem_singleton.mp h)
    · cases h
  · exact hbody.not_mem hc hpoint h

theorem fmtP_pFixed (hs : d.s = dec) (hdec : 0 ≤ dec) : fmtP (pFixed d dec) dec = .ok (pFixed d dec) := by
  rw [fmtP,pParse_pFixed hs hdec]
  change Except.ok (pFixed (pScale d dec) dec) = _
  rw [pScale_self hs]

theorem cToP_pFixed (hs : d.s = dec) (hdec : 0 ≤ dec) :
    ∃ u,cToP (pFixed d dec) = .ok u ∧ Denotes u d.value := by
  obtain ⟨t,ip,fp,htext,hbody,-⟩ := pFixed_body hs hdec
  have hdenotes := pFixed_denotes hs hdec
  have hfree := pFixed_free (c := ' ') hs hdec rfl (by decide) (by decide)
  rw [htext] at hdenotes hfree ⊢
  refine ⟨_,cToP_signed (strip_free hfree) (List.append_ne_nil_of_right_ne_nil _ hbody.ne_nil)
    (signOf_front _ hbody) hbody,?_⟩
  rw [hdenotes.unique (.number _ hbody)]
  exact signed_denotes _ _ _

theorem pToString_pFixed (hs : d.s = dec) (hdec : 0 ≤ dec) :
    ∃ v u,pToString (pFixed d dec) dec = .ok v ∧ cToP v = .ok u ∧ Denotes u d.value := by
  have hstring : pToString (pFixed d dec) dec =
      .ok (if d.v < 0 then pFixed ⟨-d.v,d.s⟩ dec ++ ['-'] else pFixed d dec ++ [' ']) := by
    rw [pToString,pParse_pFixed hs hdec]
    change Except.ok (if (pScale d dec).v < 0 then _ else _) = _
    rw [pScale_self hs]
  rw [hstring]
  by_cases hv : d.v < 0
  · have hs' : Pdec.s ⟨-d.v,d.s⟩ = dec := hs
    have hdenotes := pFixed_denotes hs' hdec
    have hfree := pFixed_free (c := ' ') hs' hdec rfl (by decide) (by decide)
    obtain ⟨t,ip,fp,htext,hbody,-⟩ := pFixed_body hs' hdec
    have hplus : decide (-d.v < 0) = false := decide_eq_false (by omega)
    simp only [hplus] at htext
    rw [if_pos hv]
    rw [htext] at hdenotes hfree ⊢
    refine ⟨_,_,rfl,cToP_signed (strip_free ?_) (by simp) (signOf_behind hbody) hbody,?_⟩
    · rw [List.mem_append]
      rintro (h | h)
      · exact hfree h
      · exact absurd (List.mem_singleton.mp h) (by decide)
    · have hvalue := hdenotes.unique (.number false hbody)
      rw [value_neg,neg_eq_iff_eq_neg,← amount_neg] at hvalue
      rw [hvalue]
      exact signed_denotes _ _ _
  · have hdenotes := pFixed_denotes hs hdec
    have hfree := pFixed_free (c := ' ') hs hdec rfl (by decide) (by decide)
    obtain ⟨t,ip,fp,htext,hbody,-⟩ := pFixed_body hs hdec
    simp only [decide_eq_false hv] at htext
    rw [if_neg hv]
    rw [htext] at hdenotes hfree ⊢
    refine ⟨_,_,rfl,cToP_signed (strip_behind hfree hbody.ne_nil) hbody.ne_nil (signOf_front false hbody) hbody,?_⟩
    rw [hdenotes.unique (.number false hbody)]
    exact signed_denotes _ _ _

end back

section stored

variable {lower : Char → Char} {d : Pdec} {n dec : ℤ} {c : Char}

theorem pFixed_chars (hs : d.s = dec) (hdec : 0 ≤ dec) (hc : c ∈ pFixed d dec) :
    c.isDigit = true ∨ c = '.' ∨ c = '-' := by
  by_contra h
  rw [not_or,not_or,Bool.not_eq_true] at h
  exact pFixed_free hs hdec h.1 h.2.1 h.2.2 hc

theorem number_char (h : c.isDigit = true ∨ c = '.' ∨ c = '-') :
    isSpace c = false ∧ c.toNat < 128 ∧ c.toLower = c := by
  rcases h with h | rfl | rfl
  · have hrange : 48 ≤ c.toNat ∧ c.toNat ≤ 57 := by
      simpa [Char.isDigit,UInt32.le_iff_toNat_le] using h
    refine ⟨?_,by omega,?_⟩
    · rw [isSpace]
      simp
      omega
    · have hlow : ¬('A'.val ≤ c.val ∧ c.val ≤ 'Z'.val) := by
        simp [UInt32.le_iff_toNat_le]
        omega
      exact dif_neg hlow
  · decide
  · decide

theorem dbP_pFixed (hlower : ∀ c,c.toNat < 128 → lower c = c.toLower) (hs : d.s = dec) (hdec : 0 ≤ dec)
    (hfits : ¬2 * n - 1 - dec < intDigits d) : dbP lower ⟨pFixed d dec,true⟩ n dec = .ok (pFixed d dec) := by
  have hchars : ∀ c ∈ pFixed d dec,isSpace c = false ∧ lower c = c := by
    intro c hc
    obtain ⟨hspace,hascii,hself⟩ := number_char (pFixed_chars hs hdec hc)
    exact ⟨hspace,(hlower c hascii).trans hself⟩
  have hstrip : trimSpace (pFixed d dec) = pFixed d dec :=
    strip_self (fun c hc => (hchars c (List.mem_of_mem_head? hc)).1)
      fun c hc => (hchars c (List.mem_of_getLast? hc)).1
  have hmap : (pFixed d dec).map lower = pFixed d dec :=
    (List.map_congr_left fun c hc => (hchars c hc).2).trans (List.map_id _)
  have hplain : 'e' ∉ pFixed d dec := pFixed_free hs hdec rfl (by decide) (by decide)
  have hwhole : (pFixed d dec).takeWhile (· != 'e') = pFixed d dec := by
    rw [List.takeWhile_eq_self_iff]
    intro c hc
    rw [bne_iff_ne]
    rintro rfl
    exact hplain hc
  have hread : pParseExp lower (pFixed d dec) = .ok d := by
    rw [pParseExp,hmap,hwhole,pParse_pFixed hs hdec]
    simp only [bind,Except.bind]
    rw [if_neg hplain]
    simp only [pure,Except.pure]
    rw [if_neg (by omega)]
  have hne : pFixed d dec ≠ [] := by
    obtain ⟨t,ip,fp,htext,hbody,-⟩ := pFixed_body hs hdec
    rw [htext]
    exact List.append_ne_nil_of_right_ne_nil _ hbody.ne_nil
  rw [dbP,hstrip,if_neg (by simp [hne]),hread]
  change pFit (pText d) n dec false = _
  rw [pFit_congr (pText_canonical d).denotes (pFixed_denotes hs hdec),pFit_pFixed hs hdec hfits]

end stored

def Reads (t : Text) (q : ℚ) : Prop := ∃ d,pParse t = .ok d ∧ d.value = q

structure Settled (lower : Char → Char) (t : Text) (n dec : ℤ) (p : ℚ) : Prop where
  reads : Reads t p
  lands : ∀ arith,pFit t n dec arith = .ok t
  formats : fmtP t dec = .ok t
  characters : ∃ u,cToP t = .ok u ∧ Reads u p
  string : ∃ v u,pToString t dec = .ok v ∧ cToP v = .ok u ∧ Reads u p
  stored : dbP lower ⟨t,true⟩ n dec = .ok t

section fields

variable {lower : Char → Char} {a t : Text} {x q : ℚ} {n dec : ℤ} {arith : Bool}

theorem Denotes.reads (h : Denotes t q) : Reads t q := by
  obtain ⟨d,hd,-,hq⟩ := pParse_denotes h
  exact ⟨d,hd,hq⟩

theorem settled (hlower : ∀ c,c.toNat < 128 → lower c = c.toLower) (ha : Denotes a x) (hdec : 0 ≤ dec)
    (ht : pFit a n dec arith = .ok t) : ∃ p,Denotes t p ∧ Settled lower t n dec p := by
  obtain ⟨d,hs,-,hfits,rfl⟩ := pFit_ok ha ht
  obtain ⟨u,hu,hread⟩ := cToP_pFixed hs hdec
  obtain ⟨v,w,hv,hw,hback⟩ := pToString_pFixed hs hdec
  exact ⟨d.value,pFixed_denotes hs hdec,(pFixed_denotes hs hdec).reads,
    fun _ => pFit_pFixed hs hdec hfits,fmtP_pFixed hs hdec,⟨u,hu,hread.reads⟩,
    ⟨v,w,hv,hw,hback.reads⟩,dbP_pFixed hlower hs hdec hfits⟩

theorem negated (ha : Denotes a x) (hdec : 0 ≤ dec) : ∃ b,negP a = .ok b ∧ Denotes b (-x) ∧
    (∀ e,pFit a n dec arith = .error e ↔ pFit b n dec arith = .error e) ∧
    ∀ t,pFit a n dec arith = .ok t → ∃ p u v,Denotes t p ∧ pFit b n dec arith = .ok u ∧
      negP t = .ok v ∧ Denotes u (-p) ∧ Denotes v (-p) ∧ pFit v n dec arith = .ok u := by
  obtain ⟨b,hb,hdenotes⟩ := negP_denotes ha
  obtain ⟨hraises,hlands⟩ := @pFit_neg a b x n dec arith ha hdenotes hdec
  refine ⟨b,hb,hdenotes,hraises,fun t ht => ?_⟩
  obtain ⟨u,p,hu,hp,hneg⟩ := hlands t ht
  obtain ⟨v,hv,hback⟩ := negP_denotes hp
  obtain ⟨e,hes,-,hfits,rfl⟩ := pFit_ok hdenotes hu
  refine ⟨p,_,v,hp,hu,hv,hneg,hback,?_⟩
  rw [pFit_congr hback hneg,pFit_pFixed hes hdec hfits]

theorem field_exact (hlower : ∀ c,c.toNat < 128 → lower c = c.toLower) (ha : Denotes a x)
    (hdec : 0 ≤ dec) (hle : dec ≤ 2 * n - 1) :
    Lands (pFit a n dec arith) n dec arith x ∧
    (∀ t,pFit a n dec arith = .ok t → ∃ p,Denotes t p ∧ Settled lower t n dec p) ∧
    (∀ b y t u p q,Denotes b y → x ≤ y → pFit a n dec arith = .ok t → pFit b n dec arith = .ok u →
      Denotes t p → Denotes u q → p ≤ q) ∧
    ∃ b,negP a = .ok b ∧ Denotes b (-x) ∧
      (∀ e,pFit a n dec arith = .error e ↔ pFit b n dec arith = .error e) ∧
      ∀ t,pFit a n dec arith = .ok t → ∃ p u v,Denotes t p ∧ pFit b n dec arith = .ok u ∧
        negP t = .ok v ∧ Denotes u (-p) ∧ Denotes v (-p) ∧ pFit v n dec arith = .ok u :=
  ⟨pFit_lands ha hdec hle,fun _ ht => settled hlower ha hdec ht,
    fun _ _ _ _ _ _ hb hxy ht hu hp hq => pFit_mono ha hb hdec hxy ht hu hp hq,negated ha hdec⟩

theorem field_exact_half :
    Lands (pFit ['-','1','.','2','5'] 2 1 true) 2 1 true (-(5 / 4)) ∧
    ∀ t,pFit ['-','1','.','2','5'] 2 1 true = .ok t → ∃ p,Denotes t p ∧ Settled Char.toLower t 2 1 p := by
  have ha : Denotes ['-','1','.','2','5'] (-(5 / 4)) := by
    have hbody : Body ['1','.','2','5'] ['1'] ['2','5'] := ⟨.inr rfl,by simp [Digits],by simp⟩
    have h : numeral (['1'] ++ ['2','5']) = 125 := rfl
    have hdenotes := Denotes.number true hbody
    rw [amount,h] at hdenotes
    norm_num [signed,sign] at hdenotes
    exact hdenotes
  have hlower : ∀ c : Char,c.toNat < 128 → c.toLower = c.toLower := fun _ _ => rfl
  have h := @field_exact Char.toLower _ _ 2 1 true hlower ha (by decide) (by decide)
  exact ⟨h.1,h.2.1⟩

end fields

end OpenSteamgate.Packed
