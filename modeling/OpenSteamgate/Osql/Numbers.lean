import OpenSteamgate.Arith.Conversions
import OpenSteamgate.Osql.Where

namespace OpenSteamgate.Osql

open Lexeme Decimal Rounding Packed

section numerals

variable {t u : List Char} {n : ℕ}

theorem isDigit_code (c : Char) : Lexeme.isDigit (Coded.code c) = c.isDigit := by
  rw [Bool.eq_iff_iff,Lexeme.isDigit,Char.isDigit,Bool.and_eq_true,Bool.and_eq_true]
  simp only [decide_eq_true_eq]
  exact Iff.rfl

theorem value_numeral (t : List Char) : value t = numeral t := rfl

theorem decimal_of_digits (h : Digits t) (hlow : t.length = 1 ∨ t ≠ [] ∧ 10 ^ (t.length - 1) ≤ numeral t) :
    t = Nat.toDigits 10 (numeral t) := by
  have hpos : 0 < t.length := by
    rcases hlow with hone | ⟨hne,-⟩
    · omega
    · exact List.length_pos_iff_ne_nil.mpr hne
  refine numeral_inj h (digits_decimal _) ?_ (numeral_decimal _).symm
  have hle := (Nat.length_toDigits_le_iff (by decide) hpos).mpr (numeral_lt h)
  have hge : t.length ≤ (Nat.toDigits 10 (numeral t)).length := by
    rcases hlow with hone | ⟨-,hlow⟩
    · rw [hone]
      exact Nat.length_toDigits_pos
    · by_contra hlt
      have hone : t.length - 1 ≠ 0 := fun hc => by
        have := Nat.length_toDigits_pos (b := 10) (n := numeral t)
        omega
      have := (Nat.length_toDigits_le_iff (b := 10) (n := numeral t) (by decide)
        (Nat.pos_of_ne_zero hone)).mp (by omega)
      omega
  omega

theorem stripZeros_digits (h : Digits t) (hne : t ≠ []) : stripZeros t = Nat.toDigits 10 (numeral t) := by
  fun_induction stripZeros t with
  | case1 => exact absurd rfl hne
  | case2 c => exact decimal_of_digits h (.inl rfl)
  | case3 c d s hzero ih =>
    have hc : c = '0' := Char.toNat_inj.mp hzero.1
    rw [ih (fun x hx => h x (List.mem_cons_of_mem _ hx)) (List.cons_ne_nil _ _),numeral_cons c,hc]
    simp
  | case4 c d s hzero =>
    refine decimal_of_digits h (.inr ⟨List.cons_ne_nil _ _,?_⟩)
    obtain ⟨hc,hrest⟩ := List.forall_mem_cons.mp h
    have hd := (List.forall_mem_cons.mp hrest).1
    rw [← isDigit_code] at hc hd
    have hne : c.toNat ≠ 48 := fun hc' => hzero ⟨hc',hd⟩
    rw [Lexeme.isDigit,Bool.and_eq_true,decide_eq_true_eq,decide_eq_true_eq] at hc
    have hlow : 48 ≤ c.toNat := hc.1
    have hone : 1 ≤ c.toNat - '0'.toNat := by
      rw [show '0'.toNat = 48 from rfl]
      omega
    have hmul := Nat.mul_le_mul_right (10 ^ (d :: s).length) hone
    rw [numeral_cons,List.length_cons,Nat.add_sub_cancel]
    omega

end numerals

section shapes

variable {text raw : List Char} {m : NumberShape Char}

theorem optional_text (p : ℕ → Bool) (s : List Char) : s = (Lexeme.optional p s).1 ++ (Lexeme.optional p s).2 ∧
    ((Lexeme.optional p s).1 = [] ∨ ∃ c,(Lexeme.optional p s).1 = [c] ∧ p c.toNat = true) := by
  cases s with
  | nil => exact ⟨rfl,.inl rfl⟩
  | cons c s =>
    rw [Lexeme.optional]
    split
    · rename_i hc
      exact ⟨rfl,.inr ⟨c,rfl,hc⟩⟩
    · exact ⟨rfl,.inl rfl⟩

theorem many_text (s : List Char) : s = (many Lexeme.isDigit s).1 ++ (many Lexeme.isDigit s).2 ∧
    Digits (many Lexeme.isDigit s).1 := by
  refine ⟨(List.takeWhile_append_dropWhile).symm,fun c hc => ?_⟩
  have := List.all_eq_true.mp List.all_takeWhile c hc
  rwa [isDigit_code] at this

theorem fraction_text (s : List Char) : Digits (fraction s).1 ∧
    (s = (fraction s).2 ∧ (fraction s).1 = [] ∨ s = '.' :: ((fraction s).1 ++ (fraction s).2)) := by
  cases s with
  | nil => exact ⟨fun c hc => (List.not_mem_nil hc).elim,.inl ⟨rfl,rfl⟩⟩
  | cons c s =>
    rw [fraction]
    split
    · rename_i hpoint
      obtain ⟨htext,hdigits⟩ := many_text s
      have hc : c = '.' := Char.toNat_inj.mp hpoint.1
      exact ⟨hdigits,.inr (by rw [← htext,hc])⟩
    · exact ⟨fun c hc => (List.not_mem_nil hc).elim,.inl ⟨rfl,rfl⟩⟩

theorem sign_char {c : Char} (h : isSign c.toNat = true) : c = '+' ∨ c = '-' := by
  rw [isSign,Bool.or_eq_true,beq_iff_eq,beq_iff_eq] at h
  exact h.imp (fun h => Char.toNat_inj.mp h) fun h => Char.toNat_inj.mp h

def Sign (s : List Char) : Prop := s = [] ∨ s = ['+'] ∨ s = ['-']

theorem sign_optional (s : List Char) : Sign (Lexeme.optional isSign s).1 := by
  rcases (optional_text isSign s).2 with hnil | ⟨c,hc,hsign⟩
  · exact .inl hnil
  · rw [hc]
    rcases sign_char hsign with rfl | rfl
    · exact .inr (.inl rfl)
    · exact .inr (.inr rfl)

theorem shape_text (h : abapNumberShape text = some m) : ∃ body,Body body m.whole m.fraction ∧
    m.whole ≠ [] ∧ Sign m.leading ∧ Sign m.trailing ∧ text = m.leading ++ (body ++ m.trailing) := by
  rw [abapNumberShape] at h
  simp only at h
  split at h
  · cases h
  · rename_i hok
    rw [not_or,not_not] at hok
    obtain ⟨hwhole,hend⟩ := hok
    obtain rfl := Option.some.inj h
    simp only
    have hlead := (optional_text isSign text).1
    have hmany := many_text (Lexeme.optional isSign text).2
    have hfraction := fraction_text (many Lexeme.isDigit (Lexeme.optional isSign text).2).2
    have htrail := (optional_text isSign
      (fraction (many Lexeme.isDigit (Lexeme.optional isSign text).2).2).2).1
    rw [hend,List.append_nil] at htrail
    obtain ⟨hdigits,hpoint⟩ := hfraction
    have hall := digits_append.mpr ⟨hmany.2,hdigits⟩
    have hne := List.append_ne_nil_of_left_ne_nil hwhole
      (fraction (many Lexeme.isDigit (Lexeme.optional isSign text).2).2).1
    rcases hpoint with ⟨hrest,hnil⟩ | hrest
    · refine ⟨_,⟨.inl ⟨rfl,hnil⟩,hall,hne⟩,hwhole,sign_optional _,sign_optional _,?_⟩
      rw [← htrail,← hrest,← hmany.1,← hlead]
    · refine ⟨_,⟨.inr rfl,hall,hne⟩,hwhole,sign_optional _,sign_optional _,?_⟩
      rw [← htrail,List.append_assoc,List.cons_append,← hrest,← hmany.1,← hlead]

end shapes

section decimals

variable {t whole frac : List Char} {dec n : ℕ}

theorem padLeft_pad (k : ℕ) (t : List Char) : padLeft (k + 1) t = pad k t := by
  rw [padLeft,pad]
  split
  · rw [show k + 1 - t.length = k - t.length + 1 by omega]
  · rw [show k + 1 - t.length = 0 by omega]
    rfl

theorem padLeft_digits (k : ℕ) (h : Digits t) : Digits (padLeft k t) ∧
    numeral (padLeft k t) = numeral t := by
  refine ⟨digits_append.mpr ⟨digits_zeros _,h⟩,?_⟩
  rw [padLeft,numeral_append,numeral_zeros,Nat.zero_mul,Nat.zero_add]

theorem padRight_take (hfrac : Digits frac) (dec : ℕ) : Digits ((padRight dec frac).take dec) ∧
    ((padRight dec frac).take dec).length = dec := by
  have hdigits : Digits (padRight dec frac) := digits_append.mpr ⟨hfrac,digits_zeros _⟩
  refine ⟨fun c hc => hdigits c (List.mem_of_mem_take hc),?_⟩
  rw [List.length_take,padRight,List.length_append,List.length_replicate]
  omega

theorem padRight_drop (frac : List Char) (dec : ℕ) : (padRight dec frac).drop dec = frac.drop dec := by
  rw [padRight,List.drop_append]
  have hzeros : (List.replicate (dec - frac.length) '0').drop (dec - frac.length) = [] :=
    List.drop_eq_nil_of_le (by rw [List.length_replicate])
  rw [hzeros,List.append_nil]

theorem amount_shift (neg : Bool) (hfrac : Digits frac) (dec : ℕ) :
    amount neg whole frac * 10 ^ dec =
      amount neg (whole ++ (padRight dec frac).take dec) (frac.drop dec) := by
  have hpad : amount neg whole (padRight dec frac) = amount neg whole frac := by
    rw [padRight,amount_zeros]
  have hlen := (padRight_take hfrac dec).2
  have htotal : (padRight dec frac).length = dec + (frac.drop dec).length := by
    rw [← padRight_drop,List.length_drop]
    rw [List.length_take] at hlen
    omega
  have hpow : (10 : ℚ) ^ dec ≠ 0 := by positivity
  rw [← hpad,amount,amount,← padRight_drop,List.append_assoc,List.take_append_drop,padRight_drop,
    htotal,pow_add]
  cases neg <;> simp only [signed] <;> field_simp

theorem carry_iff (frac : List Char) (dec : ℕ) :
    '5' ≤ frac.getD dec '0' ↔ frac.drop dec ≠ [] ∧ '5' ≤ (frac.drop dec).headD '0' := by
  have hhead : (frac.drop dec).headD '0' = frac.getD dec '0' := by
    rw [List.getD_eq_getElem?_getD,← List.head?_drop,List.headD_eq_head?_getD]
  rw [hhead]
  refine ⟨fun h => ⟨fun hnil => ?_,h⟩,fun h => h.2⟩
  rw [hnil] at hhead
  rw [← hhead] at h
  exact absurd h (by decide)

def units (whole frac : List Char) (dec : ℕ) : ℕ :=
  numeral (whole ++ (padRight dec frac).take dec) + if '5' ≤ frac.getD dec '0' then 1 else 0

theorem units_halfAway (neg : Bool) (whole : List Char) (hfrac : Digits frac) (dec : ℕ) :
    HalfAway (amount neg whole frac * 10 ^ dec) (signedNat neg (units whole frac dec)) := by
  have hdrop : Digits (frac.drop dec) := fun c hc => hfrac c (List.mem_of_mem_drop hc)
  have hnear := digits_halfAway (whole ++ (padRight dec frac).take dec) hdrop
  have hunits : units whole frac dec = numeral (whole ++ (padRight dec frac).take dec) +
      if frac.drop dec ≠ [] ∧ '5' ≤ (frac.drop dec).headD '0' then 1 else 0 := by
    simp only [units,carry_iff]
  rw [amount_shift neg hfrac,hunits]
  cases neg with
  | false => exact hnear
  | true =>
    have hneg := hnear.neg
    rw [← amount_neg] at hneg
    exact hneg

theorem numeral_prefix (t : List Char) {u w : List Char} (h : numeral u = numeral w) :
    numeral (u ++ t) = numeral (w ++ t) := by
  rw [numeral_append,numeral_append,h]

theorem rounded_digits (hwhole : Digits whole) (hne : whole ≠ []) (hfrac : Digits frac) (dec : ℕ) :
    stripZeros (rounded dec (stripZeros whole) frac) = Nat.toDigits 10 (units whole frac dec) := by
  obtain ⟨htake,hlen⟩ := padRight_take hfrac dec
  have hstrip := stripZeros_digits hwhole hne
  have hdigits : Digits (stripZeros whole ++ (padRight dec frac).take dec) := by
    rw [hstrip]
    exact digits_append.mpr ⟨digits_decimal _,htake⟩
  have hvalue : numeral (stripZeros whole ++ (padRight dec frac).take dec) =
      numeral (whole ++ (padRight dec frac).take dec) :=
    numeral_prefix _ (by rw [hstrip,numeral_decimal])
  have hnonempty : stripZeros whole ++ (padRight dec frac).take dec ≠ [] := by
    rw [hstrip]
    exact List.append_ne_nil_of_left_ne_nil Nat.toDigits_ne_nil _
  rw [rounded,units]
  simp only [value_numeral,hvalue]
  split
  · obtain ⟨hpad,hsame⟩ := padLeft_digits
      (stripZeros whole ++ (padRight dec frac).take dec).length
      (digits_decimal (numeral (whole ++ (padRight dec frac).take dec) + 1))
    rw [stripZeros_digits hpad (List.append_ne_nil_of_right_ne_nil _ Nat.toDigits_ne_nil),hsame,
      numeral_decimal]
  · rw [stripZeros_digits hdigits hnonempty,hvalue,Nat.add_zero]

theorem zero_iff (n : ℕ) : (Nat.toDigits 10 n).all (· == '0') = true ↔ n = 0 := by
  constructor
  · intro h
    have hzeros : Nat.toDigits 10 n = List.replicate (Nat.toDigits 10 n).length '0' :=
      List.eq_replicate_iff.mpr ⟨rfl,fun c hc => beq_iff_eq.mp (List.all_eq_true.mp h c hc)⟩
    rw [← numeral_decimal n,hzeros,numeral_zeros]
  · rintro rfl
    rfl

theorem pFixed_units (neg : Bool) (n dec : ℕ) :
    pFixed ⟨signedNat neg n,dec⟩ dec =
      let digits := Nat.toDigits 10 n
      let intPart :=
        if dec = 0 then digits
        else if dec < digits.length then digits.take (digits.length - dec)
        else ['0']
      let d := padLeft (dec + 1) digits
      let out := if neg && !digits.all (· == '0') then '-' :: intPart else intPart
      if dec = 0 then out else out ++ '.' :: d.drop (d.length - dec) := by
  have habs : (signedNat neg n).natAbs = n := by
    cases neg <;> simp [signedNat]
  have hneg : (signedNat neg n < 0) ↔ (neg && !(Nat.toDigits 10 n).all (· == '0')) = true := by
    rw [Bool.and_eq_true,Bool.not_eq_true',← Bool.not_eq_true,zero_iff]
    cases neg <;> simp only [signedNat] <;> (simp; try omega)
  rw [pFixed,pScale_self rfl]
  simp only [habs,padLeft_pad]
  by_cases hdec : dec = 0
  · subst hdec
    simp only [Nat.cast_zero,lt_self_iff_false,if_false,if_true,hneg]
  · have hpos : (0 : ℤ) < dec := by omega
    have htake : (pad dec (Nat.toDigits 10 n)).take ((pad dec (Nat.toDigits 10 n)).length - dec) =
        if dec < (Nat.toDigits 10 n).length then
          (Nat.toDigits 10 n).take ((Nat.toDigits 10 n).length - dec) else ['0'] := by
      by_cases hlong : dec < (Nat.toDigits 10 n).length
      · rw [if_pos hlong,pad,if_neg (not_le.mpr hlong)]
      · have hle := not_lt.mp hlong
        rw [if_neg hlong,pad,if_pos hle,List.length_append,List.length_replicate,
          show dec - (Nat.toDigits 10 n).length + 1 + (Nat.toDigits 10 n).length - dec = 1 by omega,
          List.replicate_succ]
        rfl
    simp only [if_pos hpos,if_neg hdec,Int.toNat_natCast,htake,hneg]
    split <;> rfl

theorem abapNumber_text {raw : Text} {m : NumberShape Char} (dec : ℕ) (hne : trimSpaces raw ≠ [])
    (h : abapNumberShape (trimSpaces raw) = some m) (hone : ¬(m.leading ≠ [] ∧ m.trailing ≠ [])) :
    abapNumber raw dec = .ok (pFixed
      ⟨signedNat ((if m.leading = [] then m.trailing else m.leading) == ['-'])
        (units m.whole m.fraction dec),dec⟩ dec) := by
  obtain ⟨body,hbody,hwhole,-,-,-⟩ := shape_text h
  obtain ⟨hip,hfp⟩ := digits_append.mp hbody.digits
  rw [abapNumber]
  simp only [h]
  rw [if_neg hne,if_neg hone,if_neg hwhole,rounded_digits hip hwhole hfp,if_neg Nat.toDigits_ne_nil,
    pFixed_units]

end decimals

section agreement

variable {raw out : Text} {dec : ℕ}

theorem trimSpaces_strip (raw : Text) : trimSpaces raw = strip (· == ' ') raw := by
  have hblank : ∀ c : Char,(Coded.code c == 32) = (c == ' ') := fun c => by
    rw [Bool.eq_iff_iff,beq_iff_eq,beq_iff_eq]
    exact Char.toNat_inj (d := ' ')
  rw [trimSpaces,strip]
  simp only [hblank]

def Rounds (raw : Text) (dec : ℕ) (out : Text) : Prop :=
  ∃ t x v,cToP raw = .ok t ∧ Denotes t x ∧ HalfAway (x * 10 ^ dec) v ∧
    Fixed dec out ((v : ℚ) / 10 ^ dec)

theorem rounds_units {neg : Bool} {ip fp body : Text} (hbody : Body body ip fp)
    (hstrip : strip (· == ' ') raw ≠ []) (hsign : signOf (strip (· == ' ') raw) = (neg,body)) (dec : ℕ) :
    Rounds raw dec (pFixed ⟨signedNat neg (units ip fp dec),dec⟩ dec) := by
  have hfp := (digits_append.mp hbody.digits).2
  refine ⟨_,_,signedNat neg (units ip fp dec),cToP_signed rfl hstrip hsign hbody,
    signed_denotes neg ip fp,units_halfAway neg ip hfp dec,?_⟩
  have hfixed := pFixed_fixed (d := ⟨signedNat neg (units ip fp dec),dec⟩) rfl (Int.natCast_nonneg dec)
  rw [Pdec.value,zpow_natCast,Int.toNat_natCast] at hfixed
  exact hfixed

theorem signOf_plus {body ip fp : Text} (hbody : Body body ip fp) :
    signOf ('+' :: body) = (false,body) := by
  have hlast : ('+' :: body).getLast? ≠ some '-' := fun hlast => by
    rw [List.getLast?_cons_of_ne_nil hbody.ne_nil] at hlast
    exact hbody.not_mem rfl (by decide) (List.mem_of_getLast? hlast)
  rw [signOf,if_neg hlast,List.head?_cons,if_neg (by decide),if_pos rfl,List.tail_cons,
    dropWhile_free (hbody.not_mem rfl (by decide))]

theorem cToP_plus_behind {body ip fp : Text} (hbody : Body body ip fp)
    (hstrip : strip (· == ' ') raw = body ++ ['+']) : cToP raw = .error (.conversionNoNumber "c->p") := by
  have hhead : ∀ c,c.isDigit = false → c ≠ '.' → (body ++ ['+']).head? ≠ some c := fun c hc hpoint => by
    rw [List.head?_append_of_ne_nil _ hbody.ne_nil]
    exact hbody.head_ne hc hpoint
  have hsign : signOf (body ++ ['+']) = (false,body ++ ['+']) := by
    rw [signOf,List.getLast?_concat,if_neg (by decide),if_neg (hhead '-' rfl (by decide)),
      if_neg (hhead '+' rfl (by decide))]
  refine cToP_none hstrip (by simp) fun hread => ?_
  obtain ⟨ip',fp',h⟩ := hread
  rw [hsign] at h
  exact h.not_mem rfl (by decide) (List.mem_append_right _ List.mem_cons_self : '+' ∈ body ++ ['+'])

theorem rounds_blank (hblank : trimSpaces raw = []) (dec : ℕ) : Rounds raw dec
    (if dec = 0 then ['0'] else '0' :: '.' :: List.replicate dec '0') := by
  have hpacked : cToP raw = .ok ['0'] := by
    rw [cToP,← trimSpaces_strip]
    exact if_pos hblank
  have hzeros : ∀ k,amount false ['0'] (List.replicate k '0') = 0 := fun k => by
    have hnumeral : numeral (['0'] ++ List.replicate k '0') = 0 := numeral_zeros (k + 1)
    rw [amount,hnumeral]
    simp [signed]
  have hzero : Denotes ['0'] (amount false ['0'] []) :=
    .number false ⟨.inl ⟨rfl,rfl⟩,digits_zeros 1,by decide⟩
  rw [show amount false ['0'] [] = 0 from hzeros 0] at hzero
  refine ⟨_,0,0,hpacked,hzero,?_,false,['0'],List.replicate dec '0',?_,?_,by simp,by simp,?_,by simp⟩
  · rw [zero_mul]
    exact halfAway_self 0
  · split <;> rfl
  · exact digits_append.mpr ⟨digits_zeros 1,digits_zeros dec⟩
  · rw [hzeros dec]
    simp

theorem abapNumber_rounds (h : abapNumber raw dec = .ok out) :
    ((trimSpaces raw).getLast? ≠ some '+' → Rounds raw dec out) ∧
      ((trimSpaces raw).getLast? = some '+' →
        cToP raw = .error (.conversionNoNumber "c->p") ∧ Rounds (trimSpaces raw).dropLast dec out) := by
  by_cases hblank : trimSpaces raw = []
  · rw [abapNumber] at h
    simp only at h
    rw [if_pos hblank] at h
    obtain rfl := Except.ok.inj h
    refine ⟨fun _ => rounds_blank hblank dec,fun hlast => ?_⟩
    rw [hblank] at hlast
    cases hlast
  cases hshape : abapNumberShape (trimSpaces raw) with
  | none =>
    rw [abapNumber] at h
    simp only [hshape] at h
    rw [if_neg hblank] at h
    split at h <;> cases h
  | some m =>
    by_cases hone : m.leading ≠ [] ∧ m.trailing ≠ []
    · rw [abapNumber] at h
      simp only [hshape] at h
      rw [if_neg hblank,if_pos hone] at h
      split at h <;> cases h
    have htext := abapNumber_text dec hblank hshape hone
    rw [h] at htext
    obtain rfl := Except.ok.inj htext
    obtain ⟨body,hbody,-,hlead,htrail,hraw⟩ := shape_text hshape
    have hstrip := trimSpaces_strip raw
    have hplus : body.getLast? ≠ some '+' := fun hlast =>
      hbody.not_mem rfl (by decide) (List.mem_of_getLast? hlast)
    have hfinal : ∀ s : Text,(s ++ body).getLast? ≠ some '+' := fun s => by
      rw [List.getLast?_append_of_ne_nil _ hbody.ne_nil]
      exact hplus
    have hstripped : ∀ neg,signOf (trimSpaces raw) = (neg,body) →
        Rounds raw dec (pFixed ⟨signedNat neg (units m.whole m.fraction dec),dec⟩ dec) :=
      fun neg hsign => rounds_units hbody (hstrip ▸ hblank) (hstrip ▸ hsign) dec
    rcases hlead with hl | hl | hl <;> rcases htrail with ht | ht | ht <;>
      rw [hl,ht] at hraw hone ⊢
    · rw [List.append_nil,List.nil_append] at hraw
      rw [hraw] at hstripped ⊢
      exact ⟨fun _ => hstripped false (signOf_front false hbody),fun hc => absurd hc hplus⟩
    · rw [List.nil_append] at hraw
      rw [hraw]
      refine ⟨fun hc => absurd List.getLast?_concat hc,fun _ => ⟨?_,?_⟩⟩
      · exact cToP_plus_behind hbody (hstrip ▸ hraw)
      · rw [List.dropLast_concat]
        have hself : strip (· == ' ') body = body := strip_free (hbody.not_mem rfl (by decide))
        exact rounds_units hbody (hself.symm ▸ hbody.ne_nil) (hself.symm ▸ signOf_front false hbody) dec
    · rw [List.nil_append] at hraw
      rw [hraw] at hstripped ⊢
      refine ⟨fun _ => hstripped true (signOf_behind hbody),fun hc => ?_⟩
      rw [List.getLast?_concat] at hc
      cases hc
    · rw [List.append_nil] at hraw
      rw [hraw] at hstripped ⊢
      exact ⟨fun _ => hstripped false (signOf_plus hbody),fun hc => absurd hc (hfinal _)⟩
    · exact absurd ⟨List.cons_ne_nil _ _,List.cons_ne_nil _ _⟩ hone
    · exact absurd ⟨List.cons_ne_nil _ _,List.cons_ne_nil _ _⟩ hone
    · rw [List.append_nil] at hraw
      rw [hraw] at hstripped ⊢
      exact ⟨fun _ => hstripped true (signOf_front true hbody),fun hc => absurd hc (hfinal _)⟩
    · exact absurd ⟨List.cons_ne_nil _ _,List.cons_ne_nil _ _⟩ hone
    · exact absurd ⟨List.cons_ne_nil _ _,List.cons_ne_nil _ _⟩ hone

theorem number_readers :
    (∀ v,Same (parseI v) (cToP v >>= fun t => pToI t false) ∧
        Same (parseI8 v) (cToP v >>= fun t => pToI8 t false)) ∧
      (∀ raw dec out,abapNumber raw dec = .ok out →
        ((trimSpaces raw).getLast? ≠ some '+' → Rounds raw dec out) ∧
          ((trimSpaces raw).getLast? = some '+' →
            cToP raw = .error (.conversionNoNumber "c->p") ∧
              Rounds (trimSpaces raw).dropLast dec out)) ∧
      (∀ i,parseI (iToString i) = .ok i) ∧ ∀ n,parseI8 (i8ToString n) = .ok n :=
  ⟨fun v => ⟨parseI_same v,parseI8_same v⟩,fun _ _ _ h => abapNumber_rounds h,parseI_iToString,
    parseI8_i8ToString⟩

theorem number_readers_half : Rounds "-1.5 ".toList 0 "-2".toList ∧
    cToP "5+".toList = .error (.conversionNoNumber "c->p") :=
  ⟨(number_readers.2.1 "-1.5 ".toList 0 "-2".toList rfl).1 (by decide),
    ((number_readers.2.1 "5+".toList 0 "5".toList rfl).2 (by decide)).1⟩

theorem plus_behind_accepted : ¬∀ raw dec out,abapNumber raw dec = .ok out → Rounds raw dec out := by
  intro h
  obtain ⟨t,x,v,ht,-⟩ := h "5+".toList 0 "5".toList rfl
  have hnone : cToP "5+".toList = .error (.conversionNoNumber "c->p") := rfl
  rw [hnone] at ht
  cases ht

end agreement

end OpenSteamgate.Osql
