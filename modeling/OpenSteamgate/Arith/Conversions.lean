import OpenSteamgate.Arith.Fields

namespace OpenSteamgate.Packed

open Decimal Rounding

def Fault.cls : Fault → String
  | .overflow _ => "CX_SY_ARITHMETIC_OVERFLOW"
  | .zeroDivide _ => "CX_SY_ZERODIVIDE"
  | .conversionOverflow _ => "CX_SY_CONVERSION_OVERFLOW"
  | .conversionNoNumber _ => "CX_SY_CONVERSION_NO_NUMBER"
  | .notCompiled _ _ _ => "NotCompiled"

def numSign (t : Text) : Bool × Text × Bool :=
  let front := t.head? = some '+' ∨ t.head? = some '-'
  let neg := t.head? == some '-'
  let u := if front then t.tail else t
  if u.getLast? = some '-' then (true,u.dropLast,!decide front) else (neg,u,true)

def decimalDigits (t : Text) : Bool :=
  if '.' ∈ t then 1 < t.length && (cut t).1.all Char.isDigit && (cut t).2.all Char.isDigit
  else !t.isEmpty && t.all Char.isDigit

def magnitude (op : String) (digits : ℕ) (v : Text) : Except Fault (Bool × ℕ) :=
  let t := strip (· == ' ') v
  if t = [] then .ok (false,0)
  else
    let s := numSign t
    let body := strip (· == ' ') s.2.1
    if s.2.2 = false ∨ decimalDigits body = false then .error (.conversionNoNumber op)
    else
      let whole := (cut body).1.dropWhile (· == '0')
      let frac := (cut body).2
      if digits < whole.length then .error (.conversionOverflow op)
      else .ok (s.1,numeral whole + if frac ≠ [] ∧ '5' ≤ frac.headD '0' then 1 else 0)

def parseI (v : Text) : Except Fault Int32 := do
  let (neg,n) ← magnitude "c->i" 10 v
  let n : ℤ := if neg then -(n : ℤ) else n
  if 2147483647 < n ∨ n < -2147483648 then .error (.conversionOverflow "c->i") else .ok (.ofInt n)

def parseI8 (v : Text) : Except Fault Int64 := do
  let (neg,n) ← magnitude "c->int8" 19 v
  if neg then
    if 9223372036854775808 < n then .error (.conversionOverflow "c->int8") else .ok (.ofInt (-(n : ℤ)))
  else if 9223372036854775807 < n then .error (.conversionOverflow "c->int8") else .ok (.ofInt n)

def pToI (a : Text) (arith : Bool) : Except Fault Int32 := do
  let v := (pScale (← pParse a) 0).v
  if 2147483647 < v ∨ v < -2147483648 then
    .error (if arith then .overflow "=" else .conversionOverflow "p->i")
  else .ok (.ofInt v)

def pToI8 (a : Text) (arith : Bool) : Except Fault Int64 := do
  let v := (pScale (← pParse a) 0).v
  if 9223372036854775807 < v ∨ v < -9223372036854775808 then
    .error (if arith then .overflow "=" else .conversionOverflow "p->int8")
  else .ok (.ofInt v)

def placed (v : ℤ) : Text :=
  if v < 0 then Nat.toDigits 10 v.natAbs ++ ['-'] else Nat.toDigits 10 v.natAbs ++ [' ']

def iToString (v : Int32) : Text := placed v.toInt

def i8ToString (v : Int64) : Text := placed v.toInt

section digits

variable {t ip fp : Text} {k : ℕ}

theorem digit_value {c : Char} (h : c.isDigit = true) :
    c.toNat - '0'.toNat ≤ 9 ∧ ('5' ≤ c ↔ 5 ≤ c.toNat - '0'.toNat) := by
  rw [Char.isDigit,Bool.and_eq_true,decide_eq_true_eq,decide_eq_true_eq] at h
  have hlow : 48 ≤ c.toNat := h.1
  have hhigh : c.toNat ≤ 57 := h.2
  have h5 : '5' ≤ c ↔ 53 ≤ c.toNat := Iff.rfl
  rw [h5,show '0'.toNat = 48 from rfl]
  omega

theorem numeral_dropZeros (t : Text) : numeral (t.dropWhile (· == '0')) = numeral t := by
  induction t with
  | nil => rfl
  | cons c t ih =>
    by_cases hc : c = '0'
    · subst hc
      rw [List.dropWhile_cons_of_pos rfl,ih,numeral_cons]
      simp
    · rw [List.dropWhile_cons_of_neg (by simpa using hc)]

theorem length_dropZeros (h : Digits t) :
    k < (t.dropWhile (· == '0')).length ↔ 10 ^ k ≤ numeral t := by
  rw [← numeral_dropZeros]
  have hdigits : Digits (t.dropWhile (· == '0')) := fun c hc => h c (List.dropWhile_sublist _ |>.mem hc)
  have hlt := numeral_lt hdigits
  generalize hw : t.dropWhile (· == '0') = w at hdigits hlt
  constructor
  · intro hlen
    cases w with
    | nil => cases hlen
    | cons c w =>
      have hc : c ≠ '0' := by
        have hhead := List.head_dropWhile_not (· == '0') (l := t) (by rw [hw]; exact List.cons_ne_nil _ _)
        simp only [hw,List.head_cons,beq_eq_false_iff_ne] at hhead
        exact hhead
      have hone : 1 ≤ c.toNat - '0'.toNat := by
        have hdigit := hdigits c List.mem_cons_self
        rw [Char.isDigit,Bool.and_eq_true,decide_eq_true_eq,decide_eq_true_eq] at hdigit
        have hlow : 48 ≤ c.toNat := hdigit.1
        have hne : c.toNat ≠ 48 := fun hc' => hc (Char.toNat_inj.mp hc')
        rw [show '0'.toNat = 48 from rfl]
        omega
      rw [numeral_cons]
      have hpow : 10 ^ k ≤ 10 ^ w.length :=
        Nat.pow_le_pow_right (by decide) (Nat.lt_succ_iff.mp (by simpa using hlen))
      have hmul := Nat.mul_le_mul_right (10 ^ w.length) hone
      omega
  · intro hle
    exact (Nat.pow_lt_pow_iff_right (by decide)).mp (hle.trans_lt hlt)

theorem half_digits (h : Digits fp) :
    10 ^ fp.length ≤ 2 * numeral fp ↔ fp ≠ [] ∧ '5' ≤ fp.headD '0' := by
  cases fp with
  | nil => simp [numeral]
  | cons c fp =>
    obtain ⟨hc,h5⟩ := digit_value (h c List.mem_cons_self)
    have ht := numeral_lt fun d hd => h d (List.mem_cons_of_mem _ hd)
    rw [List.headD_cons,h5,numeral_cons,List.length_cons,pow_succ]
    generalize c.toNat - '0'.toNat = d at hc
    generalize 10 ^ fp.length = m at ht
    constructor
    · intro hle
      refine ⟨List.cons_ne_nil _ _,?_⟩
      by_contra hd
      have hmul := Nat.mul_le_mul_right m (Nat.lt_succ_iff.mp (Nat.lt_of_not_le hd))
      omega
    · rintro ⟨-,hd⟩
      have hmul := Nat.mul_le_mul_right m hd
      omega

theorem digits_halfAway (ip : Text) (hfp : Digits fp) : HalfAway (amount false ip fp)
    (numeral ip + if fp ≠ [] ∧ '5' ≤ fp.headD '0' then 1 else 0 : ℕ) := by
  have hlt := numeral_lt hfp
  have hpow : 0 < (10 : ℤ) ^ fp.length := by positivity
  have hsum : (numeral (ip ++ fp) : ℤ) = numeral fp + 10 ^ fp.length * numeral ip := by
    rw [numeral_append]
    push_cast
    ring
  have hdiv := (Int.ediv_emod_unique hpow).mpr
    ⟨hsum.symm,Int.natCast_nonneg (numeral fp),by exact_mod_cast hlt⟩
  have hnear := halfAway_div (Int.natCast_nonneg (numeral (ip ++ fp))) hpow
  rw [hdiv.1,hdiv.2] at hnear
  have hhalf : (10 : ℤ) ^ fp.length ≤ 2 * (numeral fp : ℤ) ↔ fp ≠ [] ∧ '5' ≤ fp.headD '0' := by
    rw [← half_digits hfp]
    exact_mod_cast Iff.rfl
  have hvalue : amount false ip fp = ((numeral (ip ++ fp) : ℤ) : ℚ) / ((10 ^ fp.length : ℤ) : ℚ) := by
    rw [amount]
    push_cast
    rfl
  rw [hvalue]
  by_cases hup : fp ≠ [] ∧ '5' ≤ fp.headD '0'
  · rw [if_pos (hhalf.mpr hup)] at hnear
    rw [if_pos hup]
    exact_mod_cast hnear
  · rw [if_neg fun hc => hup (hhalf.mp hc)] at hnear
    rw [if_neg hup,Nat.add_zero]
    exact_mod_cast hnear

end digits

section shapes

variable {t u v ip fp : Text}

theorem cut_text (u : Text) : u = (cut u).1 ∧ (cut u).2 = [] ∨ u = (cut u).1 ++ '.' :: (cut u).2 := by
  have hsplit := List.takeWhile_append_dropWhile (p := (· != '.')) (l := u)
  rcases hdrop : u.dropWhile (· != '.') with - | ⟨c,rest⟩
  · refine .inl ⟨?_,by rw [cut,hdrop]; rfl⟩
    rw [hdrop,List.append_nil] at hsplit
    exact hsplit.symm
  · have hc : c = '.' := by
      have hhead := List.head_dropWhile_not (· != '.') (l := u) (by rw [hdrop]; exact List.cons_ne_nil _ _)
      simpa [hdrop] using hhead
    refine .inr ?_
    rw [hdrop,hc] at hsplit
    rw [cut,hdrop]
    exact hsplit.symm

theorem body_iff : (∃ ip fp,Body u ip fp) ↔
    Digits (cut u).1 ∧ Digits (cut u).2 ∧ (cut u).1 ++ (cut u).2 ≠ [] := by
  constructor
  · rintro ⟨ip,fp,h⟩
    rw [h.cut_eq]
    exact ⟨(digits_append.mp h.digits).1,(digits_append.mp h.digits).2,h.nonempty⟩
  · rintro ⟨hip,hfp,hne⟩
    exact ⟨_,_,cut_text u,digits_append.mpr ⟨hip,hfp⟩,hne⟩

theorem decimalDigits_iff : decimalDigits u = true ↔ ∃ ip fp,Body u ip fp := by
  rw [body_iff,decimalDigits]
  rcases cut_text u with ⟨hu,hnil⟩ | hu
  · have hpoint : '.' ∉ u := by
      rw [hu,cut]
      intro hmem
      exact absurd (List.all_eq_true.mp List.all_takeWhile _ hmem) (by decide)
    rw [if_neg hpoint,hnil,← hu,List.append_nil]
    simp only [Bool.and_eq_true,Bool.not_eq_true',List.isEmpty_eq_false_iff,List.all_eq_true]
    exact ⟨fun h => ⟨h.2,fun c hc => (List.not_mem_nil hc).elim,h.1⟩,fun h => ⟨h.2.2,h.1⟩⟩
  · have hpoint : '.' ∈ u := by
      rw [hu]
      exact List.mem_append_right _ List.mem_cons_self
    have hlength : 1 < u.length ↔ (cut u).1 ++ (cut u).2 ≠ [] := by
      rw [← List.length_pos_iff_ne_nil,List.length_append]
      have := congrArg List.length hu
      rw [List.length_append,List.length_cons] at this
      omega
    rw [if_pos hpoint]
    simp only [Bool.and_eq_true,decide_eq_true_eq,List.all_eq_true,hlength]
    exact ⟨fun h => ⟨h.1.2,h.2,h.1.1⟩,fun h => ⟨⟨h.2.2,h.1⟩,h.2.1⟩⟩

theorem strip_eq_nil {f : Char → Bool} : strip f t = [] ↔ ∀ c ∈ t,f c = true := by
  refine ⟨fun h => ?_,strip_all⟩
  rw [strip,List.rdropWhile_eq_nil_iff] at h
  refine List.dropWhile_eq_nil_iff.mp ?_
  by_contra hne
  have hhead := List.head_dropWhile_not f (l := t) hne
  rw [h _ (List.head_mem hne)] at hhead
  cases hhead

theorem unreadable_iff : ((cut u).1 ++ (cut u).2 = [] ∨ strip Char.isDigit (cut u).1 ≠ [] ∨
    strip Char.isDigit (cut u).2 ≠ []) ↔ ¬∃ ip fp,Body u ip fp := by
  rw [body_iff]
  have h₁ : strip Char.isDigit (cut u).1 = [] ↔ Digits (cut u).1 := strip_eq_nil
  have h₂ : strip Char.isDigit (cut u).2 = [] ↔ Digits (cut u).2 := strip_eq_nil
  rw [ne_eq,ne_eq,h₁,h₂]
  tauto

structure Trimmed (t : Text) : Prop where
  head : t.head? ≠ some ' '
  last : t.getLast? ≠ some ' '

theorem head_rdropWhile {f : Char → Bool} (h : t.rdropWhile f ≠ []) :
    (t.rdropWhile f).head? = t.head? := by
  obtain ⟨rest,hrest⟩ := List.rdropWhile_prefix f t
  obtain ⟨c,more,hmore⟩ := List.exists_cons_of_ne_nil h
  rw [hmore] at hrest
  rw [hmore,← hrest]
  rfl

theorem last_dropWhile {f : Char → Bool} (h : t.dropWhile f ≠ []) :
    (t.dropWhile f).getLast? = t.getLast? := by
  obtain ⟨before,hbefore⟩ := List.dropWhile_suffix f (l := t)
  conv_rhs => rw [← hbefore]
  rw [List.getLast?_append_of_ne_nil _ h]

theorem trimmed_strip (v : Text) : Trimmed (strip (· == ' ') v) where
  head := fun hhead => by
    rw [strip] at hhead
    have hne : (v.dropWhile (· == ' ')).rdropWhile (· == ' ') ≠ [] := fun hc => by
      rw [hc] at hhead
      cases hhead
    rw [head_rdropWhile hne] at hhead
    obtain ⟨rest,hrest⟩ := List.head?_eq_some_iff.mp hhead
    have hfirst := List.head_dropWhile_not (· == ' ') (l := v) (by rw [hrest]; exact List.cons_ne_nil _ _)
    simp only [hrest,List.head_cons] at hfirst
    cases hfirst
  last := fun hlast => by
    rw [strip] at hlast
    have hne : (v.dropWhile (· == ' ')).rdropWhile (· == ' ') ≠ [] := fun hc => by
      rw [hc] at hlast
      cases hlast
    have hnot := List.rdropWhile_last_not (· == ' ') (v.dropWhile (· == ' ')) hne
    rw [List.getLast?_eq_getLast_of_ne_nil hne,Option.some.injEq] at hlast
    exact hnot (beq_iff_eq.mpr hlast)

theorem dropWhile_blank (h : t.head? ≠ some ' ') : t.dropWhile (· == ' ') = t := by
  cases t with
  | nil => rfl
  | cons c t =>
    refine List.dropWhile_cons_of_neg fun hc => h ?_
    rw [beq_iff_eq.mp hc]
    rfl

theorem rdropWhile_blank (h : t.getLast? ≠ some ' ') : t.rdropWhile (· == ' ') = t := by
  rw [List.rdropWhile_eq_self_iff]
  intro hne hc
  refine h ?_
  rw [List.getLast?_eq_getLast_of_ne_nil hne,beq_iff_eq.mp hc]

theorem Trimmed.strip (h : Trimmed t) : strip (· == ' ') t = t := by
  rw [Packed.strip,dropWhile_blank h.head,rdropWhile_blank h.last]

theorem isFront_iff {c : Char} {t : Text} : ((c :: t).head? = some '+' ∨ (c :: t).head? = some '-') ↔
    c = '+' ∨ c = '-' := by
  rw [List.head?_cons,Option.some.injEq,Option.some.injEq]

theorem numSign_signOf (h : Trimmed t) (hok : (numSign t).2.2 = true) :
    signOf t = ((numSign t).1,strip (· == ' ') (numSign t).2.1) := by
  cases t with
  | nil => rfl
  | cons c t =>
    by_cases hfront : c = '+' ∨ c = '-'
    · have hlast : t.getLast? ≠ some '-' := fun hlast => by
        rw [numSign] at hok
        simp only [isFront_iff,if_pos hfront,List.tail_cons,hlast,if_true,decide_eq_true hfront] at hok
        cases hok
      have hsign : numSign (c :: t) = (c == '-',t,true) := by
        have hneg : ((c :: t).head? == some '-') = (c == '-') := rfl
        rw [numSign]
        simp only [isFront_iff,if_pos hfront,List.tail_cons,if_neg hlast,hneg]
      rw [hsign]
      rcases List.eq_nil_or_concat t with rfl | ⟨init,b,rfl⟩
      · rcases hfront with rfl | rfl <;> rfl
      · rw [List.concat_eq_append] at h hlast ⊢
        have hlast' : (c :: (init ++ [b])).getLast? = (init ++ [b]).getLast? :=
          List.getLast?_cons_of_ne_nil (by simp)
        have hblank : (init ++ [b]).getLast? ≠ some ' ' := hlast' ▸ h.last
        have hstrip : strip (· == ' ') (init ++ [b]) = (init ++ [b]).dropWhile (· == ' ') := by
          rw [strip]
          refine rdropWhile_blank fun hc => ?_
          have hne : (init ++ [b]).dropWhile (· == ' ') ≠ [] := fun hnil => by
            rw [hnil] at hc
            cases hc
          rw [last_dropWhile hne] at hc
          exact hblank hc
        rw [signOf,hlast',if_neg hlast,hstrip,List.head?_cons,List.tail_cons]
        rcases hfront with rfl | rfl <;> rfl
    · have hhead : (c :: t).head? ≠ some '-' := fun hc => hfront ((isFront_iff).mp (.inr hc))
      have hhead' : (c :: t).head? ≠ some '+' := fun hc => hfront ((isFront_iff).mp (.inl hc))
      have hneg : ((c :: t).head? == some '-') = false := beq_eq_false_iff_ne.mpr hhead
      rw [numSign,signOf]
      simp only [isFront_iff,if_neg hfront,hneg]
      by_cases hlast : (c :: t).getLast? = some '-'
      · rw [if_pos hlast,if_pos hlast,strip]
        congr 1
        rw [dropWhile_blank fun hc => ?_]
        cases t with
        | nil => cases hc
        | cons d t => exact h.head hc
      · rw [if_neg hlast,if_neg hlast,if_neg hhead,if_neg hhead',h.strip]

theorem signOf_twice (hok : (numSign t).2.2 = false) :
    (signOf t).2.head? = some '+' ∨ (signOf t).2.head? = some '-' := by
  cases t with
  | nil => cases hok
  | cons c t =>
    by_cases hfront : c = '+' ∨ c = '-'
    · have hlast : t.getLast? = some '-' := by
        by_contra hlast
        rw [numSign] at hok
        simp only [isFront_iff,if_pos hfront,List.tail_cons,if_neg hlast] at hok
        cases hok
      have hne : t ≠ [] := fun hc => by
        rw [hc] at hlast
        cases hlast
      have hkeep : ((c :: t).dropLast.rdropWhile (· == ' ')) ≠ [] := fun hc => by
        rw [List.dropLast_cons_of_ne_nil hne,List.rdropWhile_eq_nil_iff] at hc
        have hblank := hc c List.mem_cons_self
        rcases hfront with rfl | rfl <;> cases hblank
      rw [signOf,List.getLast?_cons_of_ne_nil hne,if_pos hlast]
      simp only
      rw [head_rdropWhile hkeep,List.dropLast_cons_of_ne_nil hne]
      exact (isFront_iff).mpr hfront
    · rw [numSign] at hok
      simp only [isFront_iff,if_neg hfront,decide_eq_false hfront,Bool.not_false] at hok
      split at hok <;> cases hok

end shapes

section readers

variable {v a : Text} {x : ℚ}

inductive Reading (v : Text) : Prop
  | blank (h : strip (· == ' ') v = []) : Reading v
  | number (neg : Bool) (ip fp : Text) (hip : Digits ip) (hfp : Digits fp)
      (packed : cToP v =
        .ok (pText ⟨if neg then -(numeral (ip ++ fp) : ℤ) else numeral (ip ++ fp),fp.length⟩))
      (read : ∀ op digits, magnitude op digits v =
        if 10 ^ digits ≤ numeral ip then .error (.conversionOverflow op)
        else .ok (neg,numeral ip + if fp ≠ [] ∧ '5' ≤ fp.headD '0' then 1 else 0)) : Reading v
  | none (packed : cToP v = .error (.conversionNoNumber "c->p"))
      (read : ∀ op digits, magnitude op digits v = .error (.conversionNoNumber op)) : Reading v

theorem cToP_none {t : Text} (ht : strip (· == ' ') v = t) (hne : t ≠ [])
    (h : ¬∃ ip fp,Body (signOf t).2 ip fp) : cToP v = .error (.conversionNoNumber "c->p") := by
  rw [cToP]
  simp only [ht]
  rw [if_neg hne,if_pos ((unreadable_iff).mpr h)]

theorem magnitude_none {t : Text} (ht : strip (· == ' ') v = t) (hne : t ≠ [])
    (h : (numSign t).2.2 = false ∨ decimalDigits (strip (· == ' ') (numSign t).2.1) = false)
    (op : String) (digits : ℕ) : magnitude op digits v = .error (.conversionNoNumber op) := by
  rw [magnitude]
  simp only [ht]
  rw [if_neg hne,if_pos h]

theorem magnitude_body {t ip fp : Text} (ht : strip (· == ' ') v = t) (hne : t ≠ [])
    (hok : (numSign t).2.2 = true) (h : Body (strip (· == ' ') (numSign t).2.1) ip fp)
    (op : String) (digits : ℕ) : magnitude op digits v =
      if 10 ^ digits ≤ numeral ip then .error (.conversionOverflow op)
      else .ok ((numSign t).1,numeral ip + if fp ≠ [] ∧ '5' ≤ fp.headD '0' then 1 else 0) := by
  have hdigits := decimalDigits_iff.mpr ⟨ip,fp,h⟩
  have hip := (digits_append.mp h.digits).1
  rw [magnitude]
  simp only [ht]
  rw [if_neg hne,if_neg (by rw [hok,hdigits]; simp),h.cut_eq]
  simp only [length_dropZeros hip,numeral_dropZeros]

theorem reading (v : Text) : Reading v := by
  by_cases hblank : strip (· == ' ') v = []
  · exact .blank hblank
  have htrim := trimmed_strip v
  generalize ht : strip (· == ' ') v = t at hblank htrim
  by_cases hok : (numSign t).2.2 = true
  · have hsign := numSign_signOf htrim hok
    by_cases hbody : ∃ ip fp,Body (strip (· == ' ') (numSign t).2.1) ip fp
    · obtain ⟨ip,fp,hbody⟩ := hbody
      obtain ⟨hip,hfp⟩ := digits_append.mp hbody.digits
      exact .number (numSign t).1 ip fp hip hfp (cToP_signed ht hblank hsign hbody)
        (magnitude_body ht hblank hok hbody)
    · have hdigits : decimalDigits (strip (· == ' ') (numSign t).2.1) = false := by
        rw [← Bool.not_eq_true,decimalDigits_iff]
        exact hbody
      exact .none (cToP_none ht hblank (by rw [hsign]; exact hbody))
        (magnitude_none ht hblank (.inr hdigits))
  · have hok := (Bool.not_eq_true _).mp hok
    refine .none (cToP_none ht hblank fun ⟨ip,fp,hbody⟩ => ?_) (magnitude_none ht hblank (.inl hok))
    rcases signOf_twice hok with hhead | hhead
    · exact hbody.head_ne (by decide) (by decide) hhead
    · exact hbody.head_ne (by decide) (by decide) hhead

def Same {α : Type} : Except Fault α → Except Fault α → Prop
  | .ok a,.ok b => a = b
  | .error f,.error g => f.cls = g.cls
  | _,_ => False

def signedNat (neg : Bool) (n : ℕ) : ℤ := if neg then -(n : ℤ) else n

theorem pScale_signed (neg : Bool) (ip : Text) {fp : Text} (hfp : Digits fp) : ∃ d,
    pParse (pText ⟨if neg then -(numeral (ip ++ fp) : ℤ) else numeral (ip ++ fp),fp.length⟩) = .ok d ∧
      (pScale d 0).v =
        signedNat neg (numeral ip + if fp ≠ [] ∧ '5' ≤ fp.headD '0' then 1 else 0) := by
  obtain ⟨d,hd,-,hvalue⟩ := pParse_denotes (signed_denotes neg ip fp)
  refine ⟨d,hd,?_⟩
  have hround := pScale_halfAway d 0
  rw [zpow_zero,mul_one,hvalue] at hround
  refine hround.unique ?_
  have hnear := digits_halfAway ip hfp
  cases neg with
  | false => exact hnear
  | true =>
    have hneg := hnear.neg
    rw [← amount_neg] at hneg
    exact hneg

def ranged {α : Type} (op : String) (low high : ℤ) (make : ℤ → α) (v : ℤ) : Except Fault α :=
  if high < v ∨ v < low then .error (.conversionOverflow op) else .ok (make v)

theorem ranged_same {α : Type} (op op' : String) (low high : ℤ) (make : ℤ → α) (v : ℤ) :
    Same (ranged op low high make v) (ranged op' low high make v) := by
  rw [ranged,ranged]
  split <;> exact rfl

theorem magnitude_same {α : Type} {op op' : String} {digits : ℕ} {low high : ℤ} {make : ℤ → α}
    (hlow : -10 ^ digits < low) (hhigh : high < 10 ^ digits) (v : Text) :
    Same (magnitude op digits v >>= fun r => ranged op low high make (signedNat r.1 r.2))
      (cToP v >>= fun t => pParse t >>= fun d => ranged op' low high make (pScale d 0).v) := by
  cases reading v with
  | blank h =>
    have hpacked : cToP v = .ok ['0'] := by rw [cToP]; exact if_pos h
    have hread : magnitude op digits v = .ok (false,0) := by rw [magnitude]; exact if_pos h
    rw [hpacked,hread]
    exact ranged_same op op' low high make 0
  | number neg ip fp hip hfp packed read =>
    obtain ⟨d,hd,hscale⟩ := pScale_signed neg ip hfp
    rw [packed,read]
    change Same _ (pParse _ >>= fun d => ranged op' low high make (pScale d 0).v)
    rw [hd]
    change Same _ (ranged op' low high make (pScale d 0).v)
    rw [hscale]
    generalize hn : numeral ip + (if fp ≠ [] ∧ '5' ≤ fp.headD '0' then 1 else 0) = n
    by_cases hbig : 10 ^ digits ≤ numeral ip
    · have hn : (10 : ℤ) ^ digits ≤ n := by
        rw [← hn]
        exact_mod_cast hbig.trans (Nat.le_add_right _ _)
      have hout : high < signedNat neg n ∨ signedNat neg n < low := by
        cases neg <;> simp only [signedNat,if_true,Bool.false_eq_true,if_false] <;> omega
      rw [if_pos hbig,ranged,if_pos hout]
      exact rfl
    · rw [if_neg hbig]
      exact ranged_same op op' low high make (signedNat neg n)
  | none packed read =>
    rw [packed,read]
    exact rfl

theorem parseI_eq (v : Text) : parseI v = magnitude "c->i" 10 v >>= fun r =>
    ranged "c->i" (-2147483648) 2147483647 .ofInt (signedNat r.1 r.2) := by
  rw [parseI]
  cases magnitude "c->i" 10 v <;> rfl

theorem parseI8_eq (v : Text) : parseI8 v = magnitude "c->int8" 19 v >>= fun r =>
    ranged "c->int8" (-9223372036854775808) 9223372036854775807 .ofInt (signedNat r.1 r.2) := by
  rw [parseI8]
  cases magnitude "c->int8" 19 v with
  | error _ => rfl
  | ok r =>
    obtain ⟨neg,n⟩ := r
    change (if neg then _ else _) = ranged _ _ _ _ (signedNat neg n)
    cases neg with
    | true =>
      have hrange : (9223372036854775807 < signedNat true n ∨
          signedNat true n < -9223372036854775808) ↔ 9223372036854775808 < n := by
        simp only [signedNat,if_true]
        omega
      simp only [ranged,hrange]
      rfl
    | false =>
      have hrange : (9223372036854775807 < signedNat false n ∨
          signedNat false n < -9223372036854775808) ↔ 9223372036854775807 < n := by
        simp only [signedNat,Bool.false_eq_true,if_false]
        omega
      simp only [ranged,hrange]
      rfl

theorem parseI_same (v : Text) : Same (parseI v) (cToP v >>= fun t => pToI t false) := by
  rw [parseI_eq]
  exact magnitude_same (by decide) (by decide) v

theorem parseI8_same (v : Text) : Same (parseI8 v) (cToP v >>= fun t => pToI8 t false) := by
  rw [parseI8_eq]
  exact magnitude_same (by decide) (by decide) v

theorem placed_packed (n : ℤ) :
    ∃ t d,cToP (placed n) = .ok t ∧ pParse t = .ok d ∧ (pScale d 0).v = n := by
  have hdigits := digits_decimal n.natAbs
  have hne : Nat.toDigits 10 n.natAbs ≠ [] := Nat.toDigits_ne_nil
  have hbody : Body (Nat.toDigits 10 n.natAbs) (Nat.toDigits 10 n.natAbs) [] :=
    ⟨.inl ⟨rfl,rfl⟩,by rwa [List.append_nil],by rwa [List.append_nil]⟩
  have hblank : ' ' ∉ Nat.toDigits 10 n.natAbs := hdigits.not_mem rfl
  obtain ⟨d,hd,hscale⟩ := pScale_signed (decide (n < 0)) (Nat.toDigits 10 n.natAbs)
    (fun c hc => (List.not_mem_nil hc).elim : Digits [])
  refine ⟨_,d,?_,hd,?_⟩
  · by_cases hneg : n < 0
    · have hstrip : strip (· == ' ') (placed n) = Nat.toDigits 10 n.natAbs ++ ['-'] := by
        rw [placed,if_pos hneg]
        refine strip_free fun hc => ?_
        rcases List.mem_append.mp hc with hc | hc
        · exact hblank hc
        · exact absurd (List.mem_singleton.mp hc) (by decide)
      rw [decide_eq_true hneg]
      exact cToP_signed hstrip (by simp) (signOf_behind hbody) hbody
    · have hstrip : strip (· == ' ') (placed n) = Nat.toDigits 10 n.natAbs := by
        rw [placed,if_neg hneg]
        exact strip_behind hblank hne
      rw [decide_eq_false hneg]
      exact cToP_signed hstrip hne (signOf_front false hbody) hbody
  · rw [hscale,numeral_decimal,if_neg fun hc => hc.1 rfl]
    by_cases hneg : n < 0
    · rw [decide_eq_true hneg,signedNat,if_pos rfl]
      omega
    · rw [decide_eq_false hneg,signedNat,if_neg (by decide)]
      omega

theorem Same.eq_ok {α : Type} {m : Except Fault α} {a : α} (h : Same m (.ok a)) : m = .ok a := by
  cases m with
  | error f => exact h.elim
  | ok b => exact congrArg Except.ok h

theorem parseI_iToString (i : Int32) : parseI (iToString i) = .ok i := by
  obtain ⟨t,d,hpacked,hd,hscale⟩ := placed_packed i.toInt
  have hsame := parseI_same (iToString i)
  have hlow := i.le_toInt
  have hhigh := i.toInt_lt
  rw [iToString,hpacked] at hsame
  change Same _ (pToI t false) at hsame
  rw [pToI,hd] at hsame
  change Same _ (if 2147483647 < (pScale d 0).v ∨ (pScale d 0).v < -2147483648 then _ else _) at hsame
  rw [hscale,if_neg (by omega),Int32.ofInt_toInt] at hsame
  exact hsame.eq_ok

theorem parseI8_i8ToString (n : Int64) : parseI8 (i8ToString n) = .ok n := by
  obtain ⟨t,d,hpacked,hd,hscale⟩ := placed_packed n.toInt
  have hsame := parseI8_same (i8ToString n)
  have hlow := n.le_toInt
  have hhigh := n.toInt_lt
  rw [i8ToString,hpacked] at hsame
  change Same _ (pToI8 t false) at hsame
  rw [pToI8,hd] at hsame
  change Same _ (if 9223372036854775807 < (pScale d 0).v ∨
    (pScale d 0).v < -9223372036854775808 then _ else _) at hsame
  rw [hscale,if_neg (by omega),Int64.ofInt_toInt] at hsame
  exact hsame.eq_ok

end readers

end OpenSteamgate.Packed
