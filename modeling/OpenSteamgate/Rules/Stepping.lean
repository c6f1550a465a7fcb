import OpenSteamgate.Rules.Values

namespace OpenSteamgate.Rules

open Decimal (intText)

def Value (type : DdicType) (v : Text) : Prop :=
  match type.builtIn with
  | .DATS => ∃ y m d : ℤ, Calendar.Real y m d ∧ 1 ≤ y ∧ y ≤ 9999 ∧ v = dateText (y,m,d)
  | .TIMS => ∃ h m s : ℤ, 0 ≤ h ∧ h < 24 ∧ 0 ≤ m ∧ m < 60 ∧ 0 ≤ s ∧ s < 60 ∧
      v = padStart 2 (intText h) ++ padStart 2 (intText m) ++ padStart 2 (intText s)
  | .NUMC => Decimal.Digits v ∧ v.length = type.length.getD 1
  | .INT1 | .INT2 | .INT4 | .INT8 =>
    ∃ n, (INT_RANGE type.builtIn).1 ≤ n ∧ n ≤ (INT_RANGE type.builtIn).2 ∧ v = intText n
  | .DEC | .CURR | .QUAN =>
    ∃ n : ℤ, n.natAbs < 10 ^ type.length.getD 0 ∧ v = formatDecimal n (type.decimals.getD 0)
  | .other => False

def bounds (type : DdicType) : ℤ × ℤ :=
  match type.builtIn with
  | .DATS => (daysFromCivil 1 1 1,daysFromCivil 9999 12 31)
  | .TIMS => (0,86399)
  | .NUMC => (0,10 ^ type.length.getD 1 - 1)
  | .INT1 | .INT2 | .INT4 | .INT8 => INT_RANGE type.builtIn
  | .DEC | .CURR | .QUAN => (1 - 10 ^ type.length.getD 0,10 ^ type.length.getD 0 - 1)
  | .other => (0,-1)

def valueAt (type : DdicType) (r : ℤ) : Text :=
  match type.builtIn with
  | .DATS => dateText (civilFromDays r)
  | .TIMS => timeText r
  | .NUMC => if type.length.getD 1 = 0 then [] else padStart (type.length.getD 1) (intText r)
  | .INT1 | .INT2 | .INT4 | .INT8 => intText r
  | .DEC | .CURR | .QUAN => formatDecimal r (type.decimals.getD 0)
  | .other => []

def InBounds (type : DdicType) (r : ℤ) : Prop := (bounds type).1 ≤ r ∧ r ≤ (bounds type).2

instance (type : DdicType) (r : ℤ) : Decidable (InBounds type r) := inferInstanceAs (Decidable (_ ∧ _))

section civil

variable {y m d : ℤ}

theorem daysFromCivil_eq (y m d : ℤ) : daysFromCivil y m d = Calendar.days y m d := by
  unfold daysFromCivil Calendar.days Calendar.shifted Calendar.fromMarch
  dsimp only
  split
  · rw [if_neg (by omega)]
    omega
  · rw [if_pos (by omega)]
    omega

theorem civilFromDays_eq (z : ℤ) : civilFromDays z = Calendar.date z := by
  unfold civilFromDays Calendar.date Calendar.monthOf Calendar.marchMonth Calendar.dayOfYear Calendar.yearOfEra
  dsimp only
  split
  · rfl
  · rfl

theorem length_fixed_text {n : ℤ} {k : ℕ} (hk : 0 < k) (hn : 0 ≤ n) (h : n.toNat < 10 ^ k) :
    (padStart k (intText n)).length = k := by
  rw [padStart_intText hn]
  exact Decimal.length_fixed hk h

theorem digits_intText {n : ℤ} (k : ℕ) (hn : 0 ≤ n) : Decimal.Digits (padStart k (intText n)) := by
  rw [padStart_intText hn]
  exact Decimal.digits_fixed k _

theorem numeral_intText {n : ℤ} (k : ℕ) (hn : 0 ≤ n) : (Decimal.numeral (padStart k (intText n)) : ℤ) = n := by
  rw [padStart_intText hn,Decimal.numeral_fixed]
  omega

theorem number_eq (t : Text) (start stop : ℕ) : number t start stop = DateText.part t start stop := rfl

theorem dateText_eq (h : Calendar.Real y m d) (hlow : 0 ≤ y) : dateText (y,m,d) = DateText.date (y,m,d) := by
  have := h.month_pos
  have := h.day_pos
  unfold dateText DateText.date
  rw [padStart_intText hlow,padStart_intText (show 0 ≤ m by omega),padStart_intText (show 0 ≤ d by omega)]

theorem shiftDate_eq (h : Calendar.Real y m d) (hlow : 1 ≤ y) (hhigh : y ≤ 9999) (n : ℤ) :
    shiftDate (dateText (y,m,d)) n =
      if 1 ≤ (civilFromDays (daysFromCivil y m d + n)).1 ∧ (civilFromDays (daysFromCivil y m d + n)).1 ≤ 9999 then
        some (dateText (civilFromDays (daysFromCivil y m d + n)))
      else none := by
  obtain ⟨hlength,hy,hm,hd⟩ := DateText.date_parts (Calendar.real_small h) (by omega) hhigh
  have hback : civilFromDays (daysFromCivil y m d) = (y,m,d) := by
    rw [civilFromDays_eq,daysFromCivil_eq]
    exact Calendar.date_days h
  have := h.month_pos
  have := h.month_le
  have := h.day_pos
  rw [← number_eq] at hy hm hd
  rw [dateText_eq h (by omega)]
  unfold shiftDate
  rw [if_neg (not_not.mpr ⟨hlength,List.all_eq_true.mpr (DateText.digits_date _)⟩),hy,hm,hd]
  dsimp only
  rw [if_neg (by omega),if_neg (not_not.mpr hback)]
  by_cases hrange : 1 ≤ (civilFromDays (daysFromCivil y m d + n)).1 ∧
      (civilFromDays (daysFromCivil y m d + n)).1 ≤ 9999
  · rw [if_pos hrange,if_neg (by omega)]
  · rw [if_neg hrange,if_pos (by omega)]

theorem date_less {y' m' d' r s : ℤ} (h : Calendar.Real y m d) (h' : Calendar.Real y' m' d')
    (hr : daysFromCivil y m d = r) (hs : daysFromCivil y' m' d' = s) :
    (y * 100 + m) * 100 + d < (y' * 100 + m') * 100 + d' ↔ r < s := by
  obtain ⟨hm,hd,hm',hd'⟩ := Calendar.real_small h
  obtain ⟨hm2,hd2,hm2',hd2'⟩ := Calendar.real_small h'
  rw [← hr,← hs,daysFromCivil_eq,daysFromCivil_eq,Calendar.days_lt_iff h h',Calendar.Before]
  omega

end civil

section decimal

variable {n : ℤ} {k : ℕ}

theorem digits_split {t : Text} (h : Decimal.Digits t) :
    ((t.take (t.length - k) ++ '.' :: t.drop (t.length - k)).splitOn '.') =
      [t.take (t.length - k),t.drop (t.length - k)] := by
  have hdot : '.' ∉ t := h.not_mem rfl
  rw [List.splitOn_append_cons_self_of_not_mem fun hmem => hdot (List.mem_of_mem_take hmem),
    List.splitOn_eq_singleton fun hmem => hdot (List.mem_of_mem_drop hmem)]

theorem unsigned_scaled {t : Text} (h : Decimal.Digits t) (hlength : k < t.length) :
    let text := if 0 < k then t.take (t.length - k) ++ '.' :: t.drop (t.length - k) else t
    let parts := text.splitOn '.'
    parts.head?.getD [] ++ (padEnd k (parts[1]?.getD [])).take k = t := by
  dsimp only
  rcases Nat.eq_zero_or_pos k with rfl | hk
  · rw [if_neg (Nat.lt_irrefl 0),List.splitOn_eq_singleton (h.not_mem rfl),List.take_zero,List.append_nil]
    rfl
  · have hdrop : (t.drop (t.length - k)).length = k := by rw [List.length_drop]; omega
    rw [if_pos hk,digits_split h]
    dsimp only [List.head?_cons,Option.getD_some,List.getElem?_cons_succ,List.getElem?_cons_zero]
    rw [padEnd,hdrop,Nat.sub_self,List.replicate_zero,List.append_nil,List.take_of_length_le hdrop.le,
      List.take_append_drop]

theorem head_unsigned {t : Text} (h : Decimal.Digits t) (hlength : k < t.length) :
    (if 0 < k then t.take (t.length - k) ++ '.' :: t.drop (t.length - k) else t).head? ≠ some '-' := by
  have hhead : t.head? ≠ some '-' := fun hminus => h.not_mem rfl (List.mem_of_mem_head? hminus)
  split
  · obtain ⟨c,rest,rfl⟩ := List.exists_cons_of_length_pos (Nat.lt_of_le_of_lt (Nat.zero_le k) hlength)
    obtain ⟨j,hj⟩ := Nat.exists_eq_succ_of_ne_zero (show (c :: rest).length - k ≠ 0 by omega)
    rw [hj,List.take_succ_cons]
    exact hhead
  · exact hhead

theorem scaled_formatDecimal (n : ℤ) (k : ℕ) : scaled (formatDecimal n k) k = .ok n := by
  have hdigits : Decimal.Digits (padStart (k + 1) (Nat.toDigits 10 n.natAbs)) :=
    digits_padStart (Decimal.digits_decimal _)
  have hlength : k < (padStart (k + 1) (Nat.toDigits 10 n.natAbs)).length := by
    rw [← strlen_digits hdigits,strlen_padStart]
    omega
  have hnumeral : Decimal.numeral (padStart (k + 1) (Nat.toDigits 10 n.natAbs)) = n.natAbs := by
    rw [numeral_padStart,Decimal.numeral_decimal]
  have hscaled := unsigned_scaled hdigits hlength
  have hhead := head_unsigned hdigits hlength
  have hne : padStart (k + 1) (Nat.toDigits 10 n.natAbs) ≠ [] :=
    List.ne_nil_of_length_pos (Nat.lt_of_le_of_lt (Nat.zero_le k) hlength)
  unfold scaled formatDecimal
  generalize padStart (k + 1) (Nat.toDigits 10 n.natAbs) = t at *
  dsimp only at hscaled ⊢
  by_cases hneg : n < 0
  · simp only [if_pos hneg,List.head?_cons,List.drop_one,List.tail_cons,if_true]
    rw [hscaled,bigInt_digits hdigits hne,hnumeral]
    change Except.ok (-(n.natAbs : ℤ)) = _
    congr 1
    omega
  · simp only [if_neg hneg,if_neg hhead]
    rw [hscaled,bigInt_digits hdigits hne,hnumeral]
    change Except.ok (n.natAbs : ℤ) = _
    congr 1
    omega

end decimal

section counted

variable {type : DdicType}

def Ordered (type : DdicType) : Prop :=
  isOrdered type = true ∧ (type.builtIn = .NUMC → type.length.isSome = true)

structure Counted (type : DdicType) : Prop where
  value (v : Text) : Value type v ↔ ∃ r, InBounds type r ∧ v = valueAt type r
  canonical {r : ℤ} : InBounds type r → canonical type (valueAt type r) = .ok (valueAt type r)
  compare {r s : ℤ} : InBounds type r → InBounds type s →
    compareValues type (valueAt type r) type (valueAt type s) = .ok (sign r s)
  step {r : ℤ} (dir : ℤ) : dir ≠ 0 → InBounds type r → stepValue type (valueAt type r) dir =
    .ok (if InBounds type (r + dir) then some (valueAt type (r + dir)) else none)

theorem out_of_bounds {range : ℤ × ℤ} {r : ℤ} {text : Text} (hbounds : bounds type = range) :
    (if r < range.1 ∨ range.2 < r then none else some text) = if InBounds type r then some text else none := by
  subst hbounds
  by_cases hin : InBounds type r
  · rw [if_pos hin]
    exact if_neg fun hout => hout.elim (not_lt.mpr hin.1) (not_lt.mpr hin.2)
  · rw [if_neg hin]
    exact if_pos (not_and_or.mp hin |>.imp not_le.mp not_le.mp)

theorem dec_bounds {n : ℤ} {k : ℕ} : 1 - 10 ^ k ≤ n ∧ n ≤ 10 ^ k - 1 ↔ n.natAbs < 10 ^ k := by
  have hpow : ((10 ^ k : ℕ) : ℤ) = (10 : ℤ) ^ k := by push_cast; rfl
  rw [← hpow]
  omega

theorem length_toDigits_lt {n : ℤ} {k : ℕ} (hk : 0 < k) :
    k < (Nat.toDigits 10 n.natAbs).length ↔ ¬n.natAbs < 10 ^ k := by
  rw [← not_le,Nat.length_toDigits_le_iff (by decide) hk]

theorem dec_out {r dir : ℤ} {k : ℕ} {text : Text} (hbounds : bounds type = (1 - 10 ^ k,10 ^ k - 1))
    (hr : r.natAbs < 10 ^ k) (hdir : dir ≠ 0) :
    (if k < (Nat.toDigits 10 (r + dir).natAbs).length then none else some text) =
      if InBounds type (r + dir) then some text else none := by
  have hiff : InBounds type (r + dir) ↔ (r + dir).natAbs < 10 ^ k := by
    rw [InBounds,hbounds]
    exact dec_bounds
  rcases Nat.eq_zero_or_pos k with rfl | hk
  · -- The only number of no digits at all is 0, from which no step leads to a value.
    have hlength : 0 < (Nat.toDigits 10 (r + dir).natAbs).length := Nat.length_toDigits_pos
    rw [if_pos hlength,if_neg (by rw [hiff]; omega)]
  · by_cases hin : (r + dir).natAbs < 10 ^ k
    · rw [if_neg (by rw [length_toDigits_lt hk]; exact not_not.mpr hin),if_pos (hiff.mpr hin)]
    · rw [if_pos ((length_toDigits_lt hk).mpr hin),if_neg (mt hiff.mp hin)]

theorem counted_int (hkind : kindOf type = .int) : Counted type := by
  obtain ⟨builtIn,length,decimals⟩ := type
  cases builtIn <;> first | contradiction | skip
  all_goals
    refine ⟨fun v => ?_,fun hr => ?_,fun hr hs => ?_,fun dir hdir hr => ?_⟩
    · constructor
      · rintro ⟨n,hlow,hhigh,rfl⟩
        exact ⟨n,⟨hlow,hhigh⟩,rfl⟩
      · rintro ⟨n,⟨hlow,hhigh⟩,rfl⟩
        exact ⟨n,hlow,hhigh,rfl⟩
    · change (bigInt (intText _)).map intText = _
      rw [bigInt_intText]
      rfl
    · change (bigInt (intText _) >>= fun x => (bigInt (intText _)).map fun y => sign x y) = _
      rw [bigInt_intText,bigInt_intText]
      rfl
    · rename_i r
      change (bigInt (intText r)).map _ = _
      rw [bigInt_intText]
      exact congrArg Except.ok (out_of_bounds rfl)

theorem counted_dec (hkind : kindOf type = .dec) : Counted type := by
  obtain ⟨builtIn,length,decimals⟩ := type
  cases builtIn <;> first | contradiction | skip
  all_goals
    refine ⟨fun v => ?_,fun hr => ?_,fun hr hs => ?_,fun dir hdir hr => ?_⟩
    · constructor
      · rintro ⟨n,hsize,rfl⟩
        exact ⟨n,(dec_bounds).mpr hsize,rfl⟩
      · rintro ⟨n,hbounds,rfl⟩
        exact ⟨n,(dec_bounds).mp hbounds,rfl⟩
    · change (scaled (formatDecimal _ _) _).map _ = _
      rw [scaled_formatDecimal]
      rfl
    · change (scaled (formatDecimal _ _) (max _ _) >>= fun x =>
        (scaled (formatDecimal _ _) (max _ _)).map fun y => sign x y) = _
      rw [max_self,scaled_formatDecimal,scaled_formatDecimal]
      rfl
    · rename_i r
      change (scaled (formatDecimal _ _) _).map _ = _
      rw [scaled_formatDecimal]
      exact congrArg Except.ok (dec_out rfl ((dec_bounds).mp hr) hdir)

theorem withoutBlanks_digits {t : Text} (h : Decimal.Digits t) : withoutBlanks t = t := by
  refine List.rdropWhile_eq_self_iff.mpr fun hne hlast => ?_
  have hdigit := h (t.getLast hne) (List.getLast_mem hne)
  rw [of_decide_eq_true hlast] at hdigit
  exact absurd hdigit (by decide)

theorem sign_congr {α β : Type} [LinearOrder α] [LinearOrder β] {a b : α} {c d : β} (hless : a < b ↔ c < d)
    (hmore : b < a ↔ d < c) : sign a b = sign c d := by
  simp only [sign,hless,hmore]

theorem counted_numc (hnumc : type.builtIn = .NUMC) (hlength : type.length.isSome = true) : Counted type := by
  obtain ⟨builtIn,length,decimals⟩ := type
  obtain rfl : builtIn = .NUMC := hnumc
  obtain ⟨k,rfl⟩ := Option.isSome_iff_exists.mp hlength
  have hpow : ((10 ^ k : ℕ) : ℤ) = (10 : ℤ) ^ k := by push_cast; rfl
  have hbounds : ∀ r, InBounds ⟨.NUMC,some k,decimals⟩ r ↔ 0 ≤ r ∧ r.toNat < 10 ^ k := fun r => by
    change 0 ≤ r ∧ r ≤ 10 ^ k - 1 ↔ _
    omega
  have hshape : ∀ r, InBounds ⟨.NUMC,some k,decimals⟩ r →
      Decimal.Digits (valueAt ⟨.NUMC,some k,decimals⟩ r) ∧ (valueAt ⟨.NUMC,some k,decimals⟩ r).length = k ∧
        (Decimal.numeral (valueAt ⟨.NUMC,some k,decimals⟩ r) : ℤ) = r := fun r hr => by
    obtain ⟨hnonneg,hsize⟩ := (hbounds r).mp hr
    change Decimal.Digits (if k = 0 then _ else padStart k (intText r)) ∧
      (if k = 0 then _ else padStart k (intText r)).length = k ∧
      (Decimal.numeral (if k = 0 then _ else padStart k (intText r)) : ℤ) = r
    split
    · rename_i hk
      subst hk
      exact ⟨fun _ hc => absurd hc List.not_mem_nil,rfl,by change (0 : ℤ) = r; omega⟩
    · exact ⟨digits_intText k hnonneg,length_fixed_text (by omega) hnonneg hsize,numeral_intText k hnonneg⟩
  refine ⟨fun v => ?_,fun hr => ?_,fun hr hs => ?_,fun dir hdir hr => ?_⟩
  · constructor
    · rintro ⟨hdigits,hsize⟩
      have hlt := Decimal.numeral_lt hdigits
      rw [show v.length = k from hsize] at hlt
      have hin : InBounds ⟨.NUMC,some k,decimals⟩ (Decimal.numeral v) := (hbounds _).mpr ⟨by omega,by omega⟩
      obtain ⟨hdigits',hsize',hnumeral⟩ := hshape _ hin
      exact ⟨_,hin,Decimal.numeral_inj hdigits hdigits' (hsize.trans hsize'.symm) (by omega)⟩
    · rintro ⟨r,hr,rfl⟩
      exact ⟨(hshape r hr).1,(hshape r hr).2.1⟩
  · obtain ⟨hdigits,hsize,-⟩ := hshape _ hr
    rw [canonical,if_pos ⟨rfl,List.all_eq_true.mpr hdigits⟩]
    exact congrArg Except.ok (padStart_of_length hdigits hsize)
  · obtain ⟨hdigits,hsize,hnumeral⟩ := hshape _ hr
    obtain ⟨hdigits',hsize',hnumeral'⟩ := hshape _ hs
    change Except.ok (sign (codeUnits (padStart (max k k) _)) (codeUnits (padStart (max k k) _))) = _
    rw [max_self,padStart_of_length hdigits hsize,padStart_of_length hdigits' hsize',
      sign_digits hdigits hdigits' (hsize.trans hsize'.symm),hnumeral,hnumeral']
  · rename_i r
    obtain ⟨hdigits,hsize,hnumeral⟩ := hshape r hr
    rcases Nat.eq_zero_or_pos k with rfl | hk
    · have hzero := (hbounds r).mp hr
      rw [if_neg (by rw [hbounds]; omega)]
      rfl
    · have hne : valueAt ⟨.NUMC,some k,decimals⟩ r ≠ [] := List.ne_nil_of_length_pos (by omega)
      rw [stepValue,if_neg (not_or.mpr ⟨hne,not_not.mpr (List.all_eq_true.mpr hdigits)⟩),bigInt_digits hdigits hne,
        hnumeral]
      change Except.ok (if r + dir < 0 ∨ 10 ^ k ≤ r + dir then none else some (padStart k (intText (r + dir)))) = _
      congr 1
      by_cases hin : InBounds ⟨.NUMC,some k,decimals⟩ (r + dir)
      · have := (hbounds _).mp hin
        rw [if_neg (by omega),if_pos hin]
        exact congrArg some (if_neg (Nat.ne_of_gt hk)).symm
      · have := mt (hbounds _).mpr hin
        rw [if_pos (by omega),if_neg hin]

theorem timeText_eq {r : ℤ} (hlow : 0 ≤ r) : timeText r = DateText.clock r := by
  unfold timeText DateText.clock
  rw [padStart_intText (show 0 ≤ r / 3600 by omega),padStart_intText (show 0 ≤ r / 60 % 60 by omega),
    padStart_intText (show 0 ≤ r % 60 by omega)]

theorem time_less {r s : ℤ} :
    (r / 3600 * 100 + r / 60 % 60) * 100 + r % 60 < (s / 3600 * 100 + s / 60 % 60) * 100 + s % 60 ↔ r < s := by
  have hparts : ∀ n : ℤ, n = n / 3600 * 3600 + n / 60 % 60 * 60 + n % 60 ∧ 0 ≤ n / 60 % 60 ∧ n / 60 % 60 < 60 ∧
      0 ≤ n % 60 ∧ n % 60 < 60 := fun n => by omega
  have hr := hparts r
  have hs := hparts s
  generalize r / 3600 = a,r / 60 % 60 = b,r % 60 = c,s / 3600 = a',s / 60 % 60 = b',s % 60 = c' at *
  omega

theorem sign_withoutBlanks {t u : Text} (ht : Decimal.Digits t) (hu : Decimal.Digits u) (h : t.length = u.length) :
    sign (codeUnits (withoutBlanks t)) (codeUnits (withoutBlanks u)) =
      sign (Decimal.numeral t : ℤ) (Decimal.numeral u : ℤ) := by
  rw [withoutBlanks_digits ht,withoutBlanks_digits hu,sign_digits ht hu h]

theorem counted_tims (htims : type.builtIn = .TIMS) : Counted type := by
  obtain ⟨builtIn,length,decimals⟩ := type
  obtain rfl : builtIn = .TIMS := htims
  refine ⟨fun v => ?_,fun hr => rfl,fun hr hs => ?_,fun dir hdir hr => ?_⟩
  · constructor
    · rintro ⟨h,m,s,hh,hh',hm,hm',hs,hs',rfl⟩
      refine ⟨h * 3600 + m * 60 + s,⟨?_,?_⟩,?_⟩
      · change 0 ≤ _
        omega
      · change _ ≤ 86399
        omega
      · change _ = timeText _
        unfold timeText
        rw [show (h * 3600 + m * 60 + s) / 3600 = h by omega,show (h * 3600 + m * 60 + s) / 60 % 60 = m by omega,
          show (h * 3600 + m * 60 + s) % 60 = s by omega]
    · rintro ⟨r,⟨hlow,hhigh⟩,rfl⟩
      change 0 ≤ r at hlow
      change r ≤ 86399 at hhigh
      exact ⟨r / 3600,r / 60 % 60,r % 60,by omega,by omega,by omega,by omega,by omega,by omega,rfl⟩
  · have hlength := (DateText.clock_parts hr.1 hr.2).1
    have hlength' := (DateText.clock_parts hs.1 hs.2).1
    change Except.ok (sign (codeUnits (withoutBlanks (timeText _))) (codeUnits (withoutBlanks (timeText _)))) = _
    rw [timeText_eq hr.1,timeText_eq hs.1,sign_withoutBlanks (DateText.digits_clock _) (DateText.digits_clock _)
      (hlength.trans hlength'.symm),DateText.numeral_clock hr.1,DateText.numeral_clock hs.1]
    congr 1
    exact sign_congr time_less time_less
  · rename_i r
    have hlow : 0 ≤ r := hr.1
    have hhigh : r ≤ 86399 := hr.2
    obtain ⟨hlength,hh,hm,hs⟩ := DateText.clock_parts hlow hhigh
    have htotal : r / 3600 * 3600 + r / 60 % 60 * 60 + r % 60 = r := by omega
    refine congrArg Except.ok (show stepTime (timeText r) dir = _ from ?_)
    rw [← number_eq] at hh hm hs
    rw [timeText_eq hlow]
    unfold stepTime
    rw [if_neg (not_not.mpr ⟨hlength,List.all_eq_true.mpr (DateText.digits_clock _)⟩),hh,hm,hs]
    dsimp only
    rw [if_neg (by omega),htotal]
    exact @out_of_bounds ⟨.TIMS,length,decimals⟩ (0,86399) _ _ rfl

theorem bounds_days {r : ℤ} : daysFromCivil 1 1 1 ≤ r ∧ r ≤ daysFromCivil 9999 12 31 ↔
    1 ≤ (civilFromDays r).1 ∧ (civilFromDays r).1 ≤ 9999 := by
  rw [daysFromCivil_eq,daysFromCivil_eq,civilFromDays_eq,Calendar.year_bounds (Calendar.date_real r),Calendar.days_date]

theorem counted_dats (hdats : type.builtIn = .DATS) : Counted type := by
  obtain ⟨builtIn,length,decimals⟩ := type
  obtain rfl : builtIn = .DATS := hdats
  have hreal : ∀ r, Calendar.Real (civilFromDays r).1 (civilFromDays r).2.1 (civilFromDays r).2.2 := fun r => by
    rw [civilFromDays_eq]
    exact Calendar.date_real r
  have hback : ∀ r, daysFromCivil (civilFromDays r).1 (civilFromDays r).2.1 (civilFromDays r).2.2 = r := fun r => by
    rw [civilFromDays_eq,daysFromCivil_eq]
    exact Calendar.days_date r
  refine ⟨fun v => ?_,fun hr => rfl,fun hr hs => ?_,fun dir hdir hr => ?_⟩
  · constructor
    · rintro ⟨y,m,d,hdate,hlow,hhigh,rfl⟩
      have hcivil : civilFromDays (daysFromCivil y m d) = (y,m,d) := by
        rw [civilFromDays_eq,daysFromCivil_eq]
        exact Calendar.date_days hdate
      refine ⟨daysFromCivil y m d,(bounds_days).mpr (by rw [hcivil]; exact ⟨hlow,hhigh⟩),?_⟩
      change _ = dateText _
      rw [hcivil]
    · rintro ⟨r,hr,rfl⟩
      obtain ⟨hlow,hhigh⟩ := (bounds_days).mp hr
      exact ⟨_,_,_,hreal r,hlow,hhigh,rfl⟩
  · rename_i r s
    obtain ⟨hlow,hhigh⟩ := (bounds_days).mp hr
    obtain ⟨hlow',hhigh'⟩ := (bounds_days).mp hs
    have hlength := (DateText.date_parts (Calendar.real_small (hreal r)) (by omega) hhigh).1
    have hlength' := (DateText.date_parts (Calendar.real_small (hreal s)) (by omega) hhigh').1
    change Except.ok (sign (codeUnits (withoutBlanks (dateText (civilFromDays r))))
      (codeUnits (withoutBlanks (dateText (civilFromDays s))))) = _
    rw [dateText_eq (hreal r) (by omega),dateText_eq (hreal s) (by omega),
      sign_withoutBlanks (DateText.digits_date _) (DateText.digits_date _) (hlength.trans hlength'.symm),
      DateText.numeral_date (hreal r) (by omega),DateText.numeral_date (hreal s) (by omega)]
    congr 1
    exact sign_congr (date_less (hreal r) (hreal s) (hback r) (hback s))
      (date_less (hreal s) (hreal r) (hback s) (hback r))
  · rename_i r
    obtain ⟨hlow,hhigh⟩ := (bounds_days).mp hr
    refine congrArg Except.ok ((shiftDate_eq (hreal r) hlow hhigh dir).trans ?_)
    rw [hback]
    exact if_congr (bounds_days).symm rfl rfl

theorem counted (h : Ordered type) : Counted type := by
  obtain ⟨hordered,hlength⟩ := h
  cases hbuiltIn : type.builtIn with
  | DATS => exact counted_dats hbuiltIn
  | TIMS => exact counted_tims hbuiltIn
  | NUMC => exact counted_numc hbuiltIn (hlength hbuiltIn)
  | INT1 | INT2 | INT4 | INT8 => exact counted_int (by rw [kindOf,hbuiltIn])
  | DEC | CURR | QUAN => exact counted_dec (by rw [kindOf,hbuiltIn])
  | other =>
    rw [isOrdered,kindOf,hbuiltIn] at hordered
    cases hordered

def Below (type : DdicType) (a b : Text) : Prop := compareValues type a type b = .ok (-1)

namespace Counted

variable {r s : ℤ} (h : Counted type)

include h

theorem below_iff (hr : InBounds type r) (hs : InBounds type s) :
    Below type (valueAt type r) (valueAt type s) ↔ r < s := by
  rw [Below,h.compare hr hs,Except.ok.injEq,sign_less]

theorem text_eq (hr : InBounds type r) (hs : InBounds type s) : valueAt type r = valueAt type s ↔ r = s := by
  refine ⟨fun heq => ?_,fun heq => heq ▸ rfl⟩
  have hcompare := h.compare hr hs
  rw [← heq,h.compare hr hr,Except.ok.injEq,sign_self] at hcompare
  exact sign_eq_zero.mp hcompare.symm

theorem next_value (hr : InBounds type r) :
    (∀ w, stepValue type (valueAt type r) 1 = .ok (some w) ↔ InBounds type (r + 1) ∧ w = valueAt type (r + 1)) ∧
      (∀ w, stepValue type (valueAt type r) (-1) = .ok (some w) ↔
        InBounds type (r + -1) ∧ w = valueAt type (r + -1)) := by
  constructor
  all_goals
    intro w
    rw [h.step _ (by decide) hr,Except.ok.injEq]
    split
    · rename_i hin
      exact ⟨fun heq => ⟨hin,(Option.some.inj heq).symm⟩,fun heq => congrArg some heq.2.symm⟩
    · rename_i hout
      exact ⟨nofun,fun heq => absurd heq.1 hout⟩

end Counted

def Nearest (type : DdicType) (dir : ℤ) (beyond : Text → Text → Prop) : Prop :=
  ∀ v, Value type v → ∃ stepped, stepValue type v dir = .ok stepped ∧
    (stepped = none ↔ ∀ w, Value type w → ¬beyond v w) ∧
    ∀ w, stepped = some w → Value type w ∧ canonical type w = .ok w ∧ beyond v w ∧
      ∀ u, Value type u → beyond v u → u = w ∨ beyond w u

theorem nearest (h : Counted type) {dir : ℤ} {beyond : Text → Text → Prop} (hdir : dir = 1 ∨ dir = -1)
    (hbeyond : ∀ {r s}, InBounds type r → InBounds type s →
      (beyond (valueAt type r) (valueAt type s) ↔ dir = 1 ∧ r < s ∨ dir = -1 ∧ s < r)) :
    Nearest type dir beyond := by
  intro v hv
  obtain ⟨r,hr,rfl⟩ := (h.value v).mp hv
  refine ⟨_,h.step dir (by omega) hr,?_,fun w hw => ?_⟩
  · split
    · rename_i hin
      refine iff_of_false (by simp) fun hnone => ?_
      exact hnone _ ((h.value _).mpr ⟨r + dir,hin,rfl⟩) ((hbeyond hr hin).mpr (by omega))
    · rename_i hout
      refine iff_of_true rfl fun w hw hbelow => ?_
      obtain ⟨s,hs,rfl⟩ := (h.value w).mp hw
      have hlt := (hbeyond hr hs).mp hbelow
      have hlow := hr.1
      have hhigh := hr.2
      exact hout ⟨by have := hs.1; omega,by have := hs.2; omega⟩
  · split at hw
    · rename_i hin
      obtain rfl := Option.some.inj hw
      refine ⟨(h.value _).mpr ⟨r + dir,hin,rfl⟩,h.canonical hin,(hbeyond hr hin).mpr (by omega),
        fun u hu hbelow => ?_⟩
      obtain ⟨s,hs,rfl⟩ := (h.value u).mp hu
      have hlt := (hbeyond hr hs).mp hbelow
      rw [h.text_eq hs hin,hbeyond hin hs]
      omega
    · cases hw

theorem nearest_up (h : Counted type) : Nearest type 1 (Below type) :=
  nearest h (.inl rfl) fun hr hs => by
    rw [h.below_iff hr hs]
    omega

theorem nearest_down (h : Counted type) : Nearest type (-1) fun v w => Below type w v :=
  nearest h (.inr rfl) fun hr hs => by
    rw [h.below_iff hs hr]
    omega

structure Ordering (type : DdicType) : Prop where
  compared (a b : Text) : Value type a → Value type b → compareValues type a type b = .ok 0 ∧ a = b ∨
    Below type a b ∧ compareValues type b type a = .ok 1 ∧ a ≠ b ∨
    Below type b a ∧ compareValues type a type b = .ok 1 ∧ a ≠ b
  trans (a b c : Text) : Value type a → Value type b → Value type c → Below type a b → Below type b c → Below type a c

theorem sign_more {a b : ℤ} : sign a b = 1 ↔ b < a := by
  unfold sign
  split
  · omega
  · split <;> omega

theorem ordering (h : Counted type) : Ordering type := by
  constructor
  · intro a b ha hb
    obtain ⟨r,hr,rfl⟩ := (h.value a).mp ha
    obtain ⟨s,hs,rfl⟩ := (h.value b).mp hb
    rw [h.below_iff hr hs,h.below_iff hs hr,h.compare hr hs,h.compare hs hr,Except.ok.injEq,Except.ok.injEq,
      Except.ok.injEq,sign_eq_zero,sign_more,sign_more,ne_eq,h.text_eq hr hs]
    omega
  · intro a b c ha hb hc hab hbc
    obtain ⟨r,hr,rfl⟩ := (h.value a).mp ha
    obtain ⟨s,hs,rfl⟩ := (h.value b).mp hb
    obtain ⟨t,ht,rfl⟩ := (h.value c).mp hc
    rw [h.below_iff hr hs] at hab
    rw [h.below_iff hs ht] at hbc
    exact (h.below_iff hr ht).mpr (hab.trans hbc)

theorem undone (h : Counted type) {v w : Text} (hv : Value type v) (hw : Value type w) :
    stepValue type v 1 = .ok (some w) ↔ stepValue type w (-1) = .ok (some v) := by
  obtain ⟨r,hr,rfl⟩ := (h.value v).mp hv
  obtain ⟨s,hs,rfl⟩ := (h.value w).mp hw
  rw [(h.next_value hr).1,(h.next_value hs).2]
  constructor
  · rintro ⟨hin,heq⟩
    obtain rfl := (h.text_eq hs hin).mp heq
    rw [add_neg_cancel_right]
    exact ⟨hr,rfl⟩
  · rintro ⟨hin,heq⟩
    obtain rfl := (h.text_eq hr hin).mp heq
    rw [neg_add_cancel_right]
    exact ⟨hs,rfl⟩

theorem padStart_padStart (k : ℕ) (t : Text) : padStart k (padStart k t) = padStart k t := by
  rw [padStart,strlen_padStart,Nat.sub_eq_zero_of_le (le_max_left _ _)]
  rfl

theorem all_digits_padStart {t : Text} (k : ℕ) (h : t.all Char.isDigit = true) :
    (padStart k t).all Char.isDigit = true :=
  List.all_eq_true.mpr (digits_padStart (List.all_eq_true.mp h))

theorem canonical_idempotent {text v : Text} (h : canonical type text = .ok v) : canonical type v = .ok v := by
  unfold canonical at h ⊢
  split at h
  · cases hn : bigInt text with
    | error e => rw [hn] at h; cases h
    | ok n =>
      rw [hn] at h
      obtain rfl := Except.ok.inj h
      rw [bigInt_intText]
      rfl
  · cases hn : scaled text (type.decimals.getD 0) with
    | error e => rw [hn] at h; cases h
    | ok n =>
      rw [hn] at h
      obtain rfl := Except.ok.inj h
      rw [scaled_formatDecimal]
      rfl
  · split at h
    · rename_i hnumc
      obtain rfl := Except.ok.inj h
      rw [if_pos ⟨hnumc.1,all_digits_padStart _ hnumc.2⟩,padStart_padStart]
    · rename_i hother
      obtain rfl := Except.ok.inj h
      exact if_neg hother

theorem canonical_read {text v : Text} (h : canonical type text = .ok v) :
    (kindOf type = .int → bigInt v = bigInt text) ∧
      (kindOf type = .dec → scaled v (type.decimals.getD 0) = scaled text (type.decimals.getD 0)) ∧
      (kindOf type = .digits → type.builtIn = .NUMC → padStart (type.length.getD 1) v = padStart (type.length.getD 1) text) ∧
      (kindOf type = .digits → type.builtIn ≠ .NUMC → v = text) := by
  unfold canonical at h
  split at h
  · rename_i hkind
    rw [hkind]
    refine ⟨fun _ => ?_,nofun,nofun,nofun⟩
    cases hn : bigInt text with
    | error e => rw [hn] at h; cases h
    | ok n =>
      rw [hn] at h
      obtain rfl := Except.ok.inj h
      exact bigInt_intText n
  · rename_i hkind
    rw [hkind]
    refine ⟨nofun,fun _ => ?_,nofun,nofun⟩
    cases hn : scaled text (type.decimals.getD 0) with
    | error e => rw [hn] at h; cases h
    | ok n =>
      rw [hn] at h
      obtain rfl := Except.ok.inj h
      exact scaled_formatDecimal n _
  · rename_i hint hdec
    refine ⟨fun hkind => absurd hkind hint,fun hkind => absurd hkind hdec,fun _ _ => ?_,fun _ hnot => ?_⟩
    · split at h
      · obtain rfl := Except.ok.inj h
        exact padStart_padStart _ _
      · obtain rfl := Except.ok.inj h
        rfl
    · rw [if_neg fun hnumc => hnot hnumc.1] at h
      exact (Except.ok.inj h).symm

theorem canonical_compare (h : Ordered type) {a b a' b' : Text} (ha : canonical type a = .ok a')
    (hb : canonical type b = .ok b') : compareValues type a' type b' = compareValues type a type b := by
  obtain ⟨hordered,hlength⟩ := h
  obtain ⟨hint,hdec,hnumc,hdigits⟩ := canonical_read ha
  obtain ⟨hint',hdec',hnumc',hdigits'⟩ := canonical_read hb
  cases hkind : kindOf type with
  | int => simp only [compareValues,hkind,hint hkind,hint' hkind]
  | dec => simp only [compareValues,hkind,max_self,hdec hkind,hdec' hkind]
  | digits =>
    by_cases hbuiltIn : type.builtIn = .NUMC
    · obtain ⟨k,hk⟩ := Option.isSome_iff_exists.mp (hlength hbuiltIn)
      have hpad := hnumc hkind hbuiltIn
      have hpad' := hnumc' hkind hbuiltIn
      rw [hk,Option.getD_some] at hpad hpad'
      unfold compareValues
      rw [hkind]
      dsimp only
      rw [if_pos ⟨rfl,hbuiltIn⟩,if_pos ⟨rfl,hbuiltIn⟩,hk,Option.getD_some,max_self,hpad,hpad']
    · rw [hdigits hkind hbuiltIn,hdigits' hkind hbuiltIn]
  | char =>
    rw [isOrdered,hkind] at hordered
    cases hordered

end counted

theorem shiftDate_days {y m d : ℤ} (h : Calendar.Real y m d) (hlow : 1 ≤ y) (hhigh : y ≤ 9999) (n : ℤ) :
    ∃ date : ℤ × ℤ × ℤ, Calendar.DaysOn n (y,m,d) date ∧
      shiftDate (dateText (y,m,d)) n = if 1 ≤ date.1 ∧ date.1 ≤ 9999 then some (dateText date) else none := by
  refine ⟨_,?_,shiftDate_eq h hlow hhigh n⟩
  have hon := Calendar.daysOn_date n (Calendar.days y m d)
  rw [Calendar.date_days h] at hon
  rw [civilFromDays_eq,daysFromCivil_eq]
  exact hon

theorem civil_inverse : (∀ z : ℤ, Calendar.Real (civilFromDays z).1 (civilFromDays z).2.1 (civilFromDays z).2.2 ∧
      daysFromCivil (civilFromDays z).1 (civilFromDays z).2.1 (civilFromDays z).2.2 = z) ∧
    ∀ y m d : ℤ, Calendar.Real y m d → civilFromDays (daysFromCivil y m d) = (y,m,d) := by
  constructor
  · intro z
    rw [civilFromDays_eq,daysFromCivil_eq]
    exact ⟨Calendar.date_real z,Calendar.days_date z⟩
  · intro y m d h
    rw [civilFromDays_eq,daysFromCivil_eq]
    exact Calendar.date_days h

theorem values_stepped :
    (∀ type : DdicType, Ordered type →
      (∀ text v, canonical type text = .ok v → canonical type v = .ok v) ∧
      (∀ a b a' b', canonical type a = .ok a' → canonical type b = .ok b' →
        compareValues type a' type b' = compareValues type a type b) ∧
      (∀ v, Value type v → canonical type v = .ok v) ∧
      Ordering type ∧ Nearest type 1 (Below type) ∧ Nearest type (-1) (fun v w => Below type w v) ∧
      ∀ v w, Value type v → Value type w →
        (stepValue type v 1 = .ok (some w) ↔ stepValue type w (-1) = .ok (some v))) ∧
    (∀ z : ℤ, Calendar.Real (civilFromDays z).1 (civilFromDays z).2.1 (civilFromDays z).2.2 ∧
      daysFromCivil (civilFromDays z).1 (civilFromDays z).2.1 (civilFromDays z).2.2 = z) ∧
    (∀ y m d : ℤ, Calendar.Real y m d → civilFromDays (daysFromCivil y m d) = (y,m,d)) ∧
    ∀ y m d : ℤ, Calendar.Real y m d → 1 ≤ y → y ≤ 9999 → ∀ n : ℤ,
      ∃ date : ℤ × ℤ × ℤ, Calendar.DaysOn n (y,m,d) date ∧
        shiftDate (dateText (y,m,d)) n = if 1 ≤ date.1 ∧ date.1 ≤ 9999 then some (dateText date) else none := by
  refine ⟨fun type h => ?_,civil_inverse.1,civil_inverse.2,
    fun y m d hdate hlow hhigh n => shiftDate_days hdate hlow hhigh n⟩
  have hcounted := counted h
  refine ⟨fun text v => canonical_idempotent,fun a b a' b' => canonical_compare h,fun v hv => ?_,ordering hcounted,
    nearest_up hcounted,nearest_down hcounted,fun v w => undone hcounted⟩
  obtain ⟨r,hr,rfl⟩ := (hcounted.value v).mp hv
  exact hcounted.canonical hr

theorem values_stepped_dats : Nearest { builtIn := .DATS } 1 (Below { builtIn := .DATS }) :=
  (values_stepped.1 { builtIn := .DATS } ⟨rfl,nofun⟩).2.2.2.2.1

end OpenSteamgate.Rules
