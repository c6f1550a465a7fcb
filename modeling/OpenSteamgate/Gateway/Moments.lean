import OpenSteamgate.Gateway.Entities
import Mathlib.Algebra.Order.Field.Rat

namespace OpenSteamgate.Moments

open DateText (part)
open Gateway
open Decimal (intText)

inductive Target
  | d
  | timestamp
  deriving DecidableEq

def two (n : ℤ) : Text := List.replicate (2 - (intText n).length) '0' ++ intText n

-- an i outside 1 .. 3652060 moved to a d is the initial date
def dateOf (n : ℤ) : Text :=
  if 1 ≤ n ∧ n ≤ 3652060 then DateText.date (Calendar.civilDate (n - 719164)) else List.replicate 8 '0'

section reading

def dateAt : Text → Option Text
  | 'D' :: 'a' :: 't' :: 'e' :: '(' :: rest =>
    let sign := if rest.head? = some '-' then ['-'] else []
    let rest := rest.drop sign.length
    let digits := rest.takeWhile Char.isDigit
    if digits ≠ [] ∧ (rest.drop digits.length).head? = some ')' then some (sign ++ digits) else none
  | _ => none

def find : Text → Option Text
  | [] => none
  | c :: text => (dateAt (c :: text)).or (find text)

def amount (lv_ms : Text) : ℤ :=
  if lv_ms.head? = some '-' then -Decimal.numeral (lv_ms.drop 1) else Decimal.numeral lv_ms

def daysOf (lv_msp : ℤ) : Except Raised ℤ := do
  let lv_days ← toI (lv_msp / 1000 / 86400)
  if lv_msp < 0 ∨ lv_days * 86400 * 1000 > lv_msp then toI (lv_days - 1 : ℤ) else .ok lv_days

def timeOf (lv_secs : ℤ) : Except Raised Text := do
  let lv_hh ← toI (lv_secs / 3600 : ℤ)
  let lv_rest ← toI (lv_secs % 3600 : ℤ)
  let lv_mm ← toI (lv_rest / 60 : ℤ)
  let lv_rest ← toI (lv_rest % 60 : ℤ)
  .ok (two lv_hh ++ two lv_mm ++ two lv_rest)

def convert_value (lv_kind : Target) (iv_value : Text) : Except Raised (Option Text) :=
  if iv_value = [] ∨ iv_value = ['n','u','l','l'] then .ok none
  else
    match find iv_value with
    | some lv_ms => do
      let lv_msp ← toP (amount lv_ms)
      let lv_days ← daysOf lv_msp
      let lv_secs ← toI (lv_msp / 1000 - lv_days * 86400)
      let lv_date := dateOf (← toI ((← dayNumber lv_epoch) + lv_days : ℤ))
      let lv_time ← timeOf lv_secs
      if lv_kind = .d then .ok (some lv_date) else .ok (some (lv_date ++ lv_time))
    | none =>
      let lv_ms := iv_value.filter fun c => c ≠ '-' ∧ c ≠ ':' ∧ c ≠ 'T'
      if lv_kind = .d then if lv_ms.length < 8 then .error .outOfBounds else .ok (some (lv_ms.take 8))
      else .ok (some lv_ms)

end reading

section arithmetic

variable {n k : ℤ}

theorem floor_half (n : ℤ) {k : ℤ} (hk : 0 < k) : ⌊(n / k + 1 / 2 : ℚ)⌋ = (2 * n + k) / (2 * k) := by
  have hpos : (0 : ℚ) < k := by exact_mod_cast hk
  have hsum : (n / k + 1 / 2 : ℚ) = ((2 * n + k : ℤ) : ℚ) / ((2 * k).toNat : ℚ) := by
    have hcast : (((2 * k).toNat : ℕ) : ℚ) = 2 * k := by
      have : (((2 * k).toNat : ℕ) : ℤ) = 2 * k := Int.toNat_of_nonneg (by omega)
      exact_mod_cast this
    rw [hcast]
    push_cast
    field_simp
  rw [hsum,Rat.floor_intCast_div_natCast,Int.toNat_of_nonneg (by omega)]

theorem halfAway_div (n : ℤ) {k : ℤ} (hk : 0 < k) :
    halfAway (n / k) = if n < 0 then -((2 * -n + k) / (2 * k)) else (2 * n + k) / (2 * k) := by
  have hpos : (0 : ℚ) < k := by exact_mod_cast hk
  have hsign : (n / k : ℚ) < 0 ↔ n < 0 := by
    rw [div_lt_iff₀ hpos,zero_mul]
    exact_mod_cast Iff.rfl
  unfold halfAway
  by_cases hn : n < 0
  · rw [if_pos (hsign.mpr hn),if_pos hn,← floor_half (-n) hk]
    congr 2
    push_cast
    ring
  · rw [if_neg (mt hsign.mp hn),if_neg hn,floor_half n hk]

theorem halfAway_int (n : ℤ) : halfAway n = n := by
  have h := @halfAway_div n 1 (by decide)
  rw [Int.cast_one,div_one] at h
  rw [h]
  split <;> omega

theorem toI_int (hlow : -2147483648 ≤ n) (hhigh : n ≤ 2147483647) : toI n = .ok n := by
  rw [toI,halfAway_int,if_pos ⟨hlow,hhigh⟩]

theorem toP_int (hlow : -10 ^ 31 < n) (hhigh : n < 10 ^ 31) : toP n = .ok n := by
  rw [toP,halfAway_int,if_pos ⟨hlow,hhigh⟩]

theorem intText_nonneg (hn : 0 ≤ n) : intText n = Nat.toDigits 10 n.toNat := by
  have habs : n.natAbs = n.toNat := by omega
  rw [intText,if_neg (by omega),habs]

theorem two_eq (hn : 0 ≤ n) : two n = Decimal.fixed 2 n.toNat := by
  rw [two,intText_nonneg hn]
  rfl

theorem dayNumber_date {y m d : ℤ} (h : Calendar.CivilReal y m d) (hlow : 1 ≤ y) (hhigh : y ≤ 9999) :
    dayNumber (DateText.date (y,m,d)) = .ok (Calendar.civilDays y m d + 719164) := by
  obtain ⟨hlength,hy,hm,hd⟩ := DateText.date_parts (Calendar.civil_small h) (by omega) hhigh
  have hdigits : (DateText.date (y,m,d)).all Char.isDigit = true := List.all_eq_true.mpr (DateText.digits_date _)
  have hkey : ¬(15821004 < Calendar.key y m d ∧ Calendar.key y m d < 15821015) := by
    rcases h with ⟨-,hkey⟩ | ⟨-,hkey⟩ <;> omega
  unfold dayNumber
  rw [hy,hm,hd,if_neg (by simp only [hlength,hdigits]; decide),if_neg hkey,if_pos ⟨hlow,h⟩]

theorem dayNumber_epoch : dayNumber lv_epoch = .ok 719164 :=
  @dayNumber_date 1970 1 1 (by decide) (by decide) (by decide)

theorem partToI_two {t : Text} {n i j : ℕ} (hn : n < 100) (h : (t.take j).drop i = Decimal.fixed 2 n) :
    partToI t i j = .ok n := by
  have hread : ∀ n < 100,(Packed.parseI (Decimal.fixed 2 n)).toOption = some (.ofNat n) ∧
      (Int32.ofNat n).toInt = n := by decide
  obtain ⟨hparse,hint⟩ := hread n hn
  unfold partToI
  rw [h]
  cases hcase : Packed.parseI (Decimal.fixed 2 n) with
  | error fault =>
    rw [hcase] at hparse
    cases hparse
  | ok m =>
    rw [hcase] at hparse
    obtain rfl := Option.some.inj hparse
    exact congrArg Except.ok hint

end arithmetic

section reading

variable {ms : ℤ}

def literal (ms : ℤ) : Text := ['/','D','a','t','e','('] ++ intText ms ++ [')','/']

theorem takeWhile_digits {t rest : Text} (h : Decimal.Digits t) :
    (t ++ ')' :: rest).takeWhile Char.isDigit = t := by
  rw [List.takeWhile_append_of_pos h]
  simp

theorem dateAt_intText (ms : ℤ) (rest : Text) :
    dateAt ('D' :: 'a' :: 't' :: 'e' :: '(' :: (intText ms ++ ')' :: rest)) = some (intText ms) := by
  have hdigits := Decimal.digits_decimal ms.natAbs
  have hne : Nat.toDigits 10 ms.natAbs ≠ [] := List.ne_nil_of_length_pos Nat.length_toDigits_pos
  have hminus : (Nat.toDigits 10 ms.natAbs ++ ')' :: rest).head? ≠ some '-' := by
    intro hhead
    rw [List.head?_append_of_ne_nil _ hne] at hhead
    exact hdigits.not_mem rfl (List.mem_of_mem_head? hhead)
  unfold dateAt
  rw [intText]
  by_cases hneg : ms < 0
  · simp only [if_pos hneg,List.cons_append,List.head?_cons,if_true,List.length_singleton,List.drop_one,List.tail_cons]
    rw [takeWhile_digits hdigits,List.drop_left]
    exact if_pos ⟨hne,rfl⟩
  · simp only [if_neg hneg,if_neg hminus,List.length_nil,List.drop_zero]
    rw [takeWhile_digits hdigits,List.drop_left]
    exact if_pos ⟨hne,rfl⟩

theorem find_literal (ms : ℤ) : find (literal ms) = some (intText ms) := by
  have hat := dateAt_intText ms ['/']
  have hliteral : literal ms = '/' :: 'D' :: 'a' :: 't' :: 'e' :: '(' :: (intText ms ++ [')','/']) := rfl
  rw [hliteral,find,find,hat]
  rfl

theorem amount_intText (ms : ℤ) : amount (intText ms) = ms := by
  have hdigits := Decimal.digits_decimal ms.natAbs
  have hminus : (Nat.toDigits 10 ms.natAbs).head? ≠ some '-' :=
    fun hhead => hdigits.not_mem rfl (List.mem_of_mem_head? hhead)
  unfold amount
  rw [intText]
  by_cases hneg : ms < 0
  · rw [if_pos hneg,if_pos (List.head?_cons ..),List.drop_one,List.tail_cons,Decimal.numeral_decimal]
    omega
  · rw [if_neg hneg,if_neg hminus,Decimal.numeral_decimal]
    omega

def InYears (ms : ℤ) : Prop :=
  1 ≤ (Calendar.civilDate (ms / 86400000)).1 ∧ (Calendar.civilDate (ms / 86400000)).1 ≤ 9999

theorem years_bounds (z : ℤ) :
    1 ≤ (Calendar.civilDate z).1 ∧ (Calendar.civilDate z).1 ≤ 9999 ↔ -719164 ≤ z ∧ z ≤ 2932896 := by
  obtain ⟨hreal,hdays⟩ := Calendar.civil_date z
  rw [Calendar.civil_bounds hreal,hdays]

def dayRead (ms : ℤ) : ℤ := if ms < 0 ∧ ms % 86400000 ≤ 43200000 then ms / 86400000 - 1 else ms / 86400000

def secondsRead (ms : ℤ) : ℤ := (ms - dayRead ms * 86400000 + 500) / 1000

theorem quotient_day (ms : ℤ) : (ms / 1000 / 86400 : ℚ) = (ms : ℚ) / (86400000 : ℤ) := by
  rw [div_div]
  norm_num

theorem day_read (h : InYears ms) : daysOf ms = .ok (dayRead ms) := by
  have hbounds := (years_bounds _).mp h
  unfold daysOf
  rw [quotient_day,toI,halfAway_div ms (by decide)]
  by_cases hneg : ms < 0
  · rw [if_pos hneg,if_pos (by omega)]
    change (if _ then toI _ else _) = _
    rw [if_pos (.inl hneg),toI_int (by omega) (by omega)]
    congr 1
    unfold dayRead
    split <;> omega
  · rw [if_neg hneg,if_pos (by omega)]
    change (if _ then toI _ else _) = _
    split
    · rw [toI_int (by omega) (by omega),dayRead,if_neg (by omega)]
      congr 1
      omega
    · rw [dayRead,if_neg (by omega)]
      congr 1
      omega

theorem seconds_read (ms : ℤ) : toI (ms / 1000 - dayRead ms * 86400 : ℚ) = .ok (secondsRead ms) ∧
    0 ≤ secondsRead ms ∧ secondsRead ms ≤ 172800 := by
  have hrange : 0 ≤ ms - dayRead ms * 86400000 ∧ ms - dayRead ms * 86400000 < 172800000 - 43200000 + 1 := by
    unfold dayRead
    split <;> omega
  have hquotient : (ms / 1000 - dayRead ms * 86400 : ℚ) = ((ms - dayRead ms * 86400000 : ℤ) : ℚ) / (1000 : ℤ) := by
    push_cast
    field_simp
    ring
  have hseconds : secondsRead ms = (2 * (ms - dayRead ms * 86400000) + 1000) / (2 * 1000) := by
    unfold secondsRead
    omega
  rw [hquotient,toI,halfAway_div _ (by decide),if_neg (Int.not_lt.mpr hrange.1),← hseconds]
  have hnonneg : 0 ≤ secondsRead ms ∧ secondsRead ms ≤ 172800 := by
    unfold secondsRead
    omega
  exact ⟨if_pos (by omega),hnonneg⟩

theorem time_read {s : ℤ} (hlow : 0 ≤ s) (hhigh : s ≤ 172800) : timeOf s = .ok (DateText.clock s) := by
  unfold timeOf
  rw [toI_int (by omega) (by omega)]
  change (toI (s % 3600 : ℤ) >>= fun lv_rest => _) = _
  rw [toI_int (by omega) (by omega)]
  change (toI (s % 3600 / 60 : ℤ) >>= fun lv_mm => _) = _
  rw [toI_int (by omega) (by omega)]
  change (toI (s % 3600 % 60 : ℤ) >>= fun lv_rest => _) = _
  rw [toI_int (by omega) (by omega)]
  change Except.ok (two (s / 3600) ++ two (s % 3600 / 60) ++ two (s % 3600 % 60)) = _
  rw [two_eq (by omega),two_eq (by omega),two_eq (by omega),DateText.clock,
    show s % 3600 / 60 = s / 60 % 60 by omega,show s % 3600 % 60 = s % 60 by omega]

theorem convert_literal (lv_kind : Target) (h : InYears ms) : convert_value lv_kind (literal ms) = .ok (some
    (if lv_kind = .d then dateOf (dayRead ms + 719164)
      else dateOf (dayRead ms + 719164) ++ DateText.clock (secondsRead ms))) := by
  have hbounds := (years_bounds _).mp h
  obtain ⟨hseconds,hlow,hhigh⟩ := seconds_read ms
  have hday := day_read h
  have hnot : ¬(literal ms = [] ∨ literal ms = ['n','u','l','l']) := by
    rintro (heq | heq) <;> cases heq
  unfold convert_value
  rw [if_neg hnot,find_literal]
  dsimp only
  rw [amount_intText,toP_int (by omega) (by omega)]
  change (daysOf ms >>= fun lv_days => _) = _
  rw [day_read h]
  change (toI (ms / 1000 - dayRead ms * 86400 : ℚ) >>= fun lv_secs => _) = _
  rw [hseconds]
  rw [dayNumber_epoch]
  have hday' : toI (719164 + dayRead ms : ℤ) = .ok (dayRead ms + 719164) := by
    rw [add_comm]
    exact toI_int (by unfold dayRead; split <;> omega) (by unfold dayRead; split <;> omega)
  change (toI (719164 + dayRead ms : ℤ) >>= fun lv_date => _) = _
  rw [hday']
  change (timeOf (secondsRead ms) >>= fun lv_time => _) = _
  rw [time_read hlow hhigh]
  cases lv_kind <;> rfl

def moment (lv_kind : Target) (ms : ℤ) : Text :=
  if lv_kind = .d then DateText.date (Calendar.civilDate (ms / 86400000))
  else DateText.date (Calendar.civilDate (ms / 86400000)) ++ DateText.clock (ms / 1000 % 86400)

-- day -719164 is 00010101, which the source writes as the initial date
def Kept (lv_kind : Target) (ms : ℤ) : Prop :=
  (0 ≤ ms ∨ 43200000 < ms % 86400000 ∧ ms / 86400000 ≠ -719164) ∧ (lv_kind = .timestamp → ms % 1000 < 500)

theorem date_four (z : ℤ) (h : 1 ≤ (Calendar.civilDate z).1 ∧ (Calendar.civilDate z).1 ≤ 9999) :
    (DateText.date (Calendar.civilDate z)).length = 8 ∧
      part (DateText.date (Calendar.civilDate z)) 0 4 = (Calendar.civilDate z).1 := by
  obtain ⟨hlength,hyear,-⟩ :=
    DateText.date_parts (Calendar.civil_small (Calendar.civil_date z).1) (show 0 ≤ _ by omega) h.2
  exact ⟨hlength,hyear⟩

theorem years_number {n : ℤ} (h : 1 ≤ n ∧ n ≤ 3652060) :
    1 ≤ (Calendar.civilDate (n - 719164)).1 ∧ (Calendar.civilDate (n - 719164)).1 ≤ 9999 :=
  (years_bounds _).mpr (by omega)

theorem length_dateOf (n : ℤ) : (dateOf n).length = 8 := by
  unfold dateOf
  split
  · rename_i h
    exact (date_four _ (years_number h)).1
  · exact List.length_replicate

theorem dateOf_eq (h : InYears ms) (n : ℤ) :
    dateOf n = DateText.date (Calendar.civilDate (ms / 86400000)) ↔ n = ms / 86400000 + 719164 ∧ n ≠ 0 := by
  constructor
  · intro heq
    unfold dateOf at heq
    split at heq
    · rename_i hn
      have hyears := years_number hn
      have := DateText.date_inj (by omega) hyears.2 (by have := h.1; omega) h.2 heq
      omega
    · have hyear := (date_four _ h).2
      rw [← heq] at hyear
      have hzero : part (List.replicate 8 '0') 0 4 = 0 := by decide
      have := h.1
      omega
  · rintro ⟨rfl,hne⟩
    have := (years_bounds _).mp h
    rw [dateOf,if_pos (by omega),add_sub_cancel_right]

theorem dayRead_eq (ms : ℤ) : dayRead ms = ms / 86400000 ↔ 0 ≤ ms ∨ 43200000 < ms % 86400000 := by
  unfold dayRead
  split <;> omega

theorem secondsRead_eq (h : dayRead ms = ms / 86400000) : secondsRead ms = ms / 1000 % 86400 ↔ ms % 1000 < 500 := by
  unfold secondsRead
  rw [h]
  omega

theorem day_kept (h : InYears ms) :
    dateOf (dayRead ms + 719164) = DateText.date (Calendar.civilDate (ms / 86400000)) ↔
      (0 ≤ ms ∨ 43200000 < ms % 86400000 ∧ ms / 86400000 ≠ -719164) := by
  rw [dateOf_eq h]
  have := dayRead_eq ms
  omega

theorem convert_iff (lv_kind : Target) (h : InYears ms) :
    convert_value lv_kind (literal ms) = .ok (some (moment lv_kind ms)) ↔ Kept lv_kind ms := by
  rw [convert_literal lv_kind h,Except.ok.injEq,Option.some.injEq]
  have hkept := day_kept h
  cases lv_kind with
  | d =>
    change dateOf (dayRead ms + 719164) = DateText.date (Calendar.civilDate (ms / 86400000)) ↔ _
    rw [hkept]
    exact ⟨fun hday => ⟨hday,nofun⟩,fun hkept => hkept.1⟩
  | timestamp =>
    change dateOf (dayRead ms + 719164) ++ DateText.clock (secondsRead ms) =
      DateText.date (Calendar.civilDate (ms / 86400000)) ++ DateText.clock (ms / 1000 % 86400) ↔ _
    obtain ⟨-,hlow,-⟩ := seconds_read ms
    have hsame : dateOf (dayRead ms + 719164) = DateText.date (Calendar.civilDate (ms / 86400000)) →
        dayRead ms = ms / 86400000 := fun hday => by
      have := (dateOf_eq h _).mp hday
      omega
    constructor
    · intro heq
      obtain ⟨hday,hclock⟩ := List.append_inj heq ((length_dateOf _).trans (date_four _ h).1.symm)
      have hseconds := DateText.clock_inj hlow (by omega) hclock
      exact ⟨hkept.mp hday,fun _ => (secondsRead_eq (hsame hday)).mp hseconds⟩
    · rintro ⟨hday,hseconds⟩
      have hday := hkept.mpr hday
      rw [hday,(secondsRead_eq (hsame hday)).mpr (hseconds rfl)]

end reading

section round

variable {y m d s : ℤ}

theorem clock_slices (hlow : 0 ≤ s) (hhigh : s ≤ 86399) :
    partToI (DateText.clock s) 0 2 = .ok (s / 3600) ∧ partToI (DateText.clock s) 2 4 = .ok (s / 60 % 60) ∧
      partToI (DateText.clock s) 4 6 = .ok (s % 60) := by
  have htwo : ∀ n : ℤ,0 ≤ n → n < 100 → (Decimal.fixed 2 n.toNat).length = 2 := fun n => DateText.length_two
  have hh := htwo (s / 3600) (by omega) (by omega)
  have hm := htwo (s / 60 % 60) (by omega) (by omega)
  have hs := htwo (s % 60) (by omega) (by omega)
  refine ⟨?_,?_,?_⟩
  · rw [partToI_two (n := (s / 3600).toNat) (by omega),Int.toNat_of_nonneg (by omega)]
    rw [DateText.clock,List.append_assoc,List.take_left' hh,List.drop_zero]
  · rw [partToI_two (n := (s / 60 % 60).toNat) (by omega),Int.toNat_of_nonneg (by omega)]
    rw [DateText.clock,List.take_left' (by rw [List.length_append,hh,hm]),List.drop_left' hh]
  · rw [partToI_two (n := (s % 60).toNat) (by omega),Int.toNat_of_nonneg (by omega)]
    rw [DateText.clock,List.take_of_length_le (by simp only [List.length_append,hh,hm,hs]; decide),
      List.drop_left' (by rw [List.length_append,hh,hm])]

theorem secondsOf_clock (hlow : 0 ≤ s) (hhigh : s ≤ 86399) : secondsOf (DateText.clock s) = .ok s := by
  obtain ⟨hh,hm,hs⟩ := clock_slices hlow hhigh
  have hzero : DateText.clock 0 = List.replicate 6 '0' := by decide
  unfold secondsOf
  split
  · rename_i heq
    rw [← hzero] at heq
    rw [DateText.clock_inj hlow le_rfl heq]
  · rw [hh,hm,hs]
    have hsum : s / 3600 * 3600 + s / 60 % 60 * 60 + s % 60 = s := by omega
    change toI (s / 3600 * 3600 + s / 60 % 60 * 60 + s % 60 : ℤ) = _
    rw [hsum]
    exact toI_int (by omega) (by omega)

theorem epochMs_eq (h : Calendar.CivilReal y m d) (hyear : 1 ≤ y) (hyear' : y ≤ 9999) (hlow : 0 ≤ s) (hhigh : s ≤ 86399) :
    epochMs (DateText.date (y,m,d)) (DateText.clock s) =
      .ok (intText ((Calendar.civilDays y m d * 86400 + s) * 1000)) := by
  have hdays := (Calendar.civil_bounds h).mp ⟨hyear,hyear'⟩
  have hdiff : toI (Calendar.civilDays y m d + 719164 - 719164 : ℤ) = .ok (Calendar.civilDays y m d) := by
    rw [add_sub_cancel_right]
    exact toI_int (by omega) (by omega)
  unfold epochMs
  rw [dayNumber_date h hyear hyear',dayNumber_epoch]
  simp only [bind,Except.bind,hdiff]
  change (secondsOf (DateText.clock s) >>= fun lv_seconds => _) = _
  rw [secondsOf_clock hlow hhigh]
  change (toP ((Calendar.civilDays y m d * 86400 + s) * 1000 : ℤ) >>= fun lv_ms => _) = _
  rw [toP_int (by omega) (by omega)]
  rfl

theorem moment_eq (h : Calendar.CivilReal y m d) (hlow : 0 ≤ s) (hhigh : s ≤ 86399) :
    moment .d ((Calendar.civilDays y m d * 86400 + s) * 1000) = DateText.date (y,m,d) ∧
      moment .timestamp ((Calendar.civilDays y m d * 86400 + s) * 1000) = DateText.date (y,m,d) ++ DateText.clock s := by
  have hday : (Calendar.civilDays y m d * 86400 + s) * 1000 / 86400000 = Calendar.civilDays y m d := by omega
  have hseconds : (Calendar.civilDays y m d * 86400 + s) * 1000 / 1000 % 86400 = s := by omega
  unfold moment
  rw [hday,hseconds,Calendar.civilDate_days h]
  exact ⟨rfl,rfl⟩

theorem datetime_read_back (lv_kind : Target) (ms : ℤ) (h : InYears ms) :
    (∃ value, convert_value lv_kind (literal ms) = .ok (some value)) ∧
    (convert_value lv_kind (literal ms) = .ok (some (moment lv_kind ms)) ↔ Kept lv_kind ms) ∧
    ∀ y m d s : ℤ, Calendar.CivilReal y m d → 1 ≤ y → y ≤ 9999 → 0 ≤ s → s ≤ 86399 →
      ∃ ms, epochMs (DateText.date (y,m,d)) (DateText.clock s) = .ok (intText ms) ∧
        (s = 0 → (convert_value .d (literal ms) = .ok (some (DateText.date (y,m,d))) ↔
          0 ≤ Calendar.civilDays y m d)) ∧
        (convert_value .timestamp (literal ms) = .ok (some (DateText.date (y,m,d) ++ DateText.clock s)) ↔
          0 ≤ Calendar.civilDays y m d ∨ 43200 < s ∧ Calendar.civilDays y m d ≠ -719164) := by
  refine ⟨⟨_,convert_literal lv_kind h⟩,convert_iff lv_kind h,
    fun y m d s h hyear hyear' hlow hhigh => ⟨_,epochMs_eq h hyear hyear' hlow hhigh,?_,?_⟩⟩
  all_goals
    have hin : InYears ((Calendar.civilDays y m d * 86400 + s) * 1000) := by
      rw [InYears,show (Calendar.civilDays y m d * 86400 + s) * 1000 / 86400000 = Calendar.civilDays y m d by omega,
        Calendar.civilDate_days h]
      exact ⟨hyear,hyear'⟩
    obtain ⟨hdate,hstamp⟩ := moment_eq h hlow hhigh
  · rintro rfl
    rw [← hdate,convert_iff .d hin,Kept]
    simp only [reduceCtorEq,false_implies,and_true]
    omega
  · rw [← hstamp,convert_iff .timestamp hin,Kept]
    simp only [true_implies]
    omega

theorem datetime_read_back_1970 : convert_value .d (literal 0) = .ok (some (moment .d 0)) ∧
    convert_value .timestamp (literal (-12219303600000)) = .ok (some "15821004210000".toList) := by
  have hin : InYears 0 ∧ InYears (-12219303600000) := by
    change (1 ≤ (Calendar.civilDate 0).1 ∧ (Calendar.civilDate 0).1 ≤ 9999) ∧
      1 ≤ (Calendar.civilDate (-141428)).1 ∧ (Calendar.civilDate (-141428)).1 ≤ 9999
    decide
  exact ⟨(datetime_read_back .d 0 hin.1).2.1.mpr ⟨.inl le_rfl,nofun⟩,
    (datetime_read_back .timestamp _ hin.2).2.1.mpr ⟨.inr ⟨by decide,by decide⟩,fun _ => by decide⟩⟩

theorem last_day_of_1969 : Calendar.CivilReal 1969 12 31 ∧
    epochMs (DateText.date (1969,12,31)) (DateText.clock 0) = .ok (intText (-86400000)) ∧
    convert_value .d (literal (-86400000)) = .ok (some (DateText.date (1969,12,30))) ∧
    DateText.date (1969,12,30) ≠ DateText.date (1969,12,31) := by
  have hreal : Calendar.CivilReal 1969 12 31 := by decide
  have hin : InYears (-86400000) := by
    change 1 ≤ (Calendar.civilDate (-1)).1 ∧ (Calendar.civilDate (-1)).1 ≤ 9999
    decide
  refine ⟨hreal,epochMs_eq hreal (by decide) (by decide) (by decide) (by decide),?_,by decide⟩
  rw [convert_literal .d hin]
  rfl

end round

end OpenSteamgate.Moments
