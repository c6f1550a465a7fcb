import Mathlib.Tactic.IntervalCases
import Mathlib.Order.Monotone.Basic
import OpenSteamgate.Library.Decimal

namespace Calendar

def leap (y : ℤ) : Bool := decide (y % 4 = 0 ∧ (y % 100 ≠ 0 ∨ y % 400 = 0))

def monthLength (y m : ℤ) : ℤ :=
  if m = 2 then (if leap y then 29 else 28)
  else if m = 4 ∨ m = 6 ∨ m = 9 ∨ m = 11 then 30
  else 31

structure Real (y m d : ℤ) : Prop where
  month_pos : 1 ≤ m
  month_le : m ≤ 12
  day_pos : 1 ≤ d
  day_le : d ≤ monthLength y m

def next (y m d : ℤ) : ℤ × ℤ × ℤ :=
  if d < monthLength y m then (y,m,d + 1)
  else if m < 12 then (y,m + 1,1)
  else (y + 1,1,1)

def shifted (y m : ℤ) : ℤ := if m ≤ 2 then y - 1 else y

def fromMarch (m : ℤ) : ℤ := if m ≤ 2 then m + 9 else m - 3

def days (y m d : ℤ) : ℤ :=
  365 * shifted y m + shifted y m / 4 - shifted y m / 100 + shifted y m / 400 +
    (153 * fromMarch m + 2) / 5 + d - 1 - 719468

def yearOfEra (doe : ℤ) : ℤ := (doe - doe / 1460 + doe / 36524 - doe / 146096) / 365

def dayOfYear (doe : ℤ) : ℤ := doe - (365 * yearOfEra doe + yearOfEra doe / 4 - yearOfEra doe / 100)

def marchMonth (doe : ℤ) : ℤ := (5 * dayOfYear doe + 2) / 153

def monthOf (mp : ℤ) : ℤ := if mp < 10 then mp + 3 else mp - 9

def date (z : ℤ) : ℤ × ℤ × ℤ :=
  let era := (z + 719468) / 146097
  let doe := (z + 719468) - era * 146097
  let m := monthOf (marchMonth doe)
  (yearOfEra doe + era * 400 + (if m ≤ 2 then 1 else 0),m,
    dayOfYear doe - (153 * marchMonth doe + 2) / 5 + 1)

variable {y m d : ℤ}

theorem monthLength_le : monthLength y m ≤ 31 := by
  unfold monthLength
  split
  · split <;> decide
  · split <;> decide

theorem leap_iff : leap y = true ↔ y % 4 = 0 ∧ (y % 100 ≠ 0 ∨ y % 400 = 0) := decide_eq_true_iff

theorem monthLength_pos : 28 ≤ monthLength y m := by
  unfold monthLength
  split
  · split <;> decide
  · split <;> decide

theorem next_real (h : Real y m d) : Real (next y m d).1 (next y m d).2.1 (next y m d).2.2 := by
  obtain ⟨hm,hm',hd,hd'⟩ := h
  unfold next
  split
  · next hlt => exact ⟨hm,hm',Int.le_add_one hd,hlt⟩
  · split
    · next hlt =>
      have hlength := @monthLength_pos y (m + 1)
      exact ⟨Int.le_add_one hm,hlt,Int.le_refl 1,by dsimp only; omega⟩
    · have hlength := @monthLength_pos (y + 1) 1
      exact ⟨Int.le_refl 1,by dsimp only; decide,Int.le_refl 1,by dsimp only; omega⟩

theorem march_length (hm : 1 ≤ m) (hm' : m ≤ 12) (hne : m ≠ 2) :
    monthLength y m = (153 * (fromMarch m + 1) + 2) / 5 - (153 * fromMarch m + 2) / 5 := by
  interval_cases m <;> first | rfl | exact absurd rfl hne

theorem february (y : ℤ) : (leap y = true → monthLength y 2 = 29) ∧ (leap y = false → monthLength y 2 = 28) := by
  unfold monthLength
  rw [if_pos rfl]
  exact ⟨fun h => if_pos h,fun h => if_neg (by rw [h]; decide)⟩

theorem month_succ (hm : 1 ≤ m) (hne : m ≠ 2) :
    shifted y (m + 1) = shifted y m ∧ fromMarch (m + 1) = fromMarch m + 1 := by
  unfold shifted fromMarch
  by_cases hsmall : m ≤ 1
  · rw [if_pos (show m + 1 ≤ 2 by omega),if_pos (show m ≤ 2 by omega),if_pos (show m + 1 ≤ 2 by omega),
      if_pos (show m ≤ 2 by omega)]
    exact ⟨rfl,by omega⟩
  · rw [if_neg (show ¬m + 1 ≤ 2 by omega),if_neg (show ¬m ≤ 2 by omega),if_neg (show ¬m + 1 ≤ 2 by omega),
      if_neg (show ¬m ≤ 2 by omega)]
    exact ⟨rfl,by omega⟩

theorem step_four (y : ℤ) : y / 4 = (y - 1) / 4 + (if y % 4 = 0 then 1 else 0) := by split <;> omega

theorem step_century (y : ℤ) : y / 100 = (y - 1) / 100 + (if y % 100 = 0 then 1 else 0) := by split <;> omega

theorem step_era (y : ℤ) : y / 400 = (y - 1) / 400 + (if y % 400 = 0 then 1 else 0) := by split <;> omega

theorem leap_step (y : ℤ) : y / 4 - y / 100 + y / 400 =
    (y - 1) / 4 - (y - 1) / 100 + (y - 1) / 400 + (if leap y = true then 1 else 0) := by
  rw [step_four,step_century,step_era]
  by_cases hera : y % 400 = 0
  · have hcentury : y % 100 = 0 := by omega
    have hfour : y % 4 = 0 := by omega
    rw [if_pos hera,if_pos hcentury,if_pos hfour,if_pos ((leap_iff).mpr ⟨hfour,.inr hera⟩)]
    ring
  · by_cases hcentury : y % 100 = 0
    · have hfour : y % 4 = 0 := by omega
      rw [if_neg hera,if_pos hcentury,if_pos hfour,if_neg fun h => ((leap_iff).mp h).2.elim (absurd hcentury) hera]
      ring
    · by_cases hfour : y % 4 = 0
      · rw [if_neg hera,if_neg hcentury,if_pos hfour,if_pos ((leap_iff).mpr ⟨hfour,.inl hcentury⟩)]
        ring
      · rw [if_neg hera,if_neg hcentury,if_neg hfour,if_neg fun h => hfour ((leap_iff).mp h).1]
        ring

theorem days_next (h : Real y m d) :
    days (next y m d).1 (next y m d).2.1 (next y m d).2.2 = days y m d + 1 := by
  obtain ⟨hm,hm',hd,hd'⟩ := h
  unfold next
  split
  · unfold days
    dsimp only
    omega
  · next hlast =>
    have hd : d = monthLength y m := by omega
    split
    · by_cases hfebruary : m = 2
      · subst hfebruary
        obtain ⟨hlong,hshort⟩ := february y
        have hmarch : shifted y 2 = y - 1 ∧ shifted y (2 + 1) = y ∧ fromMarch 2 = 11 ∧ fromMarch (2 + 1) = 0 :=
          ⟨rfl,rfl,rfl,rfl⟩
        obtain ⟨hyear,hyear',hmonth,hmonth'⟩ := hmarch
        unfold days
        dsimp only
        rw [hyear,hyear',hmonth,hmonth']
        have hstep := leap_step y
        generalize y / 4 = a,y / 100 = b,y / 400 = c,(y - 1) / 4 = a',(y - 1) / 100 = b',(y - 1) / 400 = c' at hstep ⊢
        by_cases hleap : leap y = true
        · rw [if_pos hleap] at hstep
          rw [hlong hleap] at hd
          omega
        · rw [if_neg hleap] at hstep
          rw [hshort (by simpa using hleap)] at hd
          omega
      · obtain ⟨hshifted,hmarch⟩ := @month_succ y m hm hfebruary
        rw [march_length hm hm' hfebruary] at hd
        unfold days
        dsimp only
        rw [hshifted,hmarch]
        omega
    · have hmonth : m = 12 := by omega
      subst hmonth
      have hd : d = 31 := hd
      unfold days shifted fromMarch
      rw [hd]
      simp
      omega

theorem yearOfEra_eq {yoe doy : ℤ} (hyoe : 0 ≤ yoe) (hyoe' : yoe < 400) (hdoy : 0 ≤ doy)
    (hdoy' : doy ≤ 364 ∨ doy = 365 ∧ (yoe + 1) % 4 = 0 ∧ ((yoe + 1) % 100 ≠ 0 ∨ (yoe + 1) % 400 = 0)) :
    yearOfEra (365 * yoe + yoe / 4 - yoe / 100 + doy) = yoe := by
  unfold yearOfEra
  obtain ⟨c,q,r,hc,hc',hq,hq',hr,hr',rfl⟩ : ∃ c q r : ℤ,0 ≤ c ∧ c ≤ 3 ∧ 0 ≤ q ∧ q ≤ 24 ∧ 0 ≤ r ∧ r ≤ 3 ∧
      yoe = 100 * c + 4 * q + r :=
    ⟨yoe / 100,yoe % 100 / 4,yoe % 4,by omega,by omega,by omega,by omega,by omega,by omega,by omega⟩
  have hrest : 0 ≤ doy - (24 * c + q + 365 * r + doy) / 1460 + (1461 * q + 365 * r + doy) / 36524 -
        (36524 * c + 1461 * q + 365 * r + doy) / 146096 ∧
      doy - (24 * c + q + 365 * r + doy) / 1460 + (1461 * q + 365 * r + doy) / 36524 -
        (36524 * c + 1461 * q + 365 * r + doy) / 146096 ≤ 364 := by
    rcases hdoy' with hdoy' | ⟨rfl,hleap,hcentury⟩
    · have hcentury : (1461 * q + 365 * r + doy) / 36524 = 0 := by omega
      have hera : (36524 * c + 1461 * q + 365 * r + doy) / 146096 = 0 := by omega
      rw [hcentury,hera]
      omega
    · obtain rfl : r = 3 := by omega
      have hyear : (24 * c + q + 365 * 3 + 365) / 1460 = 1 := by omega
      have hlast : q < 24 ∨ q = 24 ∧ c = 3 := by omega
      rw [hyear]
      rcases hlast with hq | ⟨rfl,rfl⟩
      · have hcentury : (1461 * q + 365 * 3 + 365) / 36524 = 0 := by omega
        have hera : (36524 * c + 1461 * q + 365 * 3 + 365) / 146096 = 0 := by omega
        rw [hcentury,hera]
        decide
      · decide
  have hdoe : 365 * (100 * c + 4 * q + r) + (100 * c + 4 * q + r) / 4 - (100 * c + 4 * q + r) / 100 + doy =
      36524 * c + 1461 * q + 365 * r + doy := by clear hrest; omega
  have hyears : (36524 * c + 1461 * q + 365 * r + doy) / 1460 =
      25 * c + q + (24 * c + q + 365 * r + doy) / 1460 := by clear hrest hdoe; omega
  have hcenturies : (36524 * c + 1461 * q + 365 * r + doy) / 36524 =
      c + (1461 * q + 365 * r + doy) / 36524 := by clear hrest hdoe hyears; omega
  rw [hdoe]
  clear hdoe
  rw [hyears,hcenturies]
  generalize (24 * c + q + 365 * r + doy) / 1460 = x,(1461 * q + 365 * r + doy) / 36524 = z,
    (36524 * c + 1461 * q + 365 * r + doy) / 146096 = w at hrest ⊢
  omega

theorem date_of_era {era yoe doy : ℤ} (hyoe : 0 ≤ yoe) (hyoe' : yoe < 400) (hdoy : 0 ≤ doy)
    (hdoy' : doy ≤ 364 ∨ doy = 365 ∧ (yoe + 1) % 4 = 0 ∧ ((yoe + 1) % 100 ≠ 0 ∨ (yoe + 1) % 400 = 0)) :
    date (146097 * era + (365 * yoe + yoe / 4 - yoe / 100 + doy) - 719468) =
      (yoe + era * 400 + (if monthOf ((5 * doy + 2) / 153) ≤ 2 then 1 else 0),
        monthOf ((5 * doy + 2) / 153),doy - (153 * ((5 * doy + 2) / 153) + 2) / 5 + 1) := by
  have hera : (146097 * era + (365 * yoe + yoe / 4 - yoe / 100 + doy) - 719468 + 719468) / 146097 = era := by
    omega
  have hyear := yearOfEra_eq hyoe hyoe' hdoy hdoy'
  have hday : dayOfYear (365 * yoe + yoe / 4 - yoe / 100 + doy) = doy := by
    unfold dayOfYear
    rw [hyear]
    omega
  have hmonth : marchMonth (365 * yoe + yoe / 4 - yoe / 100 + doy) = (5 * doy + 2) / 153 := by
    unfold marchMonth
    rw [hday]
  have hdoe : 146097 * era + (365 * yoe + yoe / 4 - yoe / 100 + doy) - 719468 + 719468 - era * 146097 =
      365 * yoe + yoe / 4 - yoe / 100 + doy := by omega
  unfold date
  dsimp only
  rw [hera,hdoe,hmonth,hyear,hday]

theorem monthOf_fromMarch (hm : 1 ≤ m) (hm' : m ≤ 12) : monthOf (fromMarch m) = m := by
  unfold monthOf fromMarch
  by_cases hsmall : m ≤ 2
  · rw [if_pos hsmall,if_neg (by omega)]
    omega
  · rw [if_neg hsmall,if_pos (by omega)]
    omega

theorem march_month {f : ℤ} (hd : 1 ≤ d) (hd' : d ≤ (153 * (f + 1) + 2) / 5 - (153 * f + 2) / 5) :
    (5 * ((153 * f + 2) / 5 + d - 1) + 2) / 153 = f := by omega

theorem month_length (h : Real y m d) : d ≤ (153 * (fromMarch m + 1) + 2) / 5 - (153 * fromMarch m + 2) / 5 := by
  by_cases hfebruary : m = 2
  · subst hfebruary
    have hlength : monthLength y 2 ≤ 29 := by
      cases hleap : leap y with
      | true => exact ((february y).1 hleap).le
      | false => exact ((february y).2 hleap).trans_le (by decide)
    have hmarch : fromMarch 2 = 11 := rfl
    have := h.day_le
    rw [hmarch]
    omega
  · rw [← @march_length y m h.month_pos h.month_le hfebruary]
    exact h.day_le

theorem year_length (h : Real y m d) : (153 * fromMarch m + 2) / 5 + d - 1 ≤ 364 ∨
    (153 * fromMarch m + 2) / 5 + d - 1 = 365 ∧ (shifted y m % 400 + 1) % 4 = 0 ∧
      ((shifted y m % 400 + 1) % 100 ≠ 0 ∨ (shifted y m % 400 + 1) % 400 = 0) := by
  have hlength := month_length h
  have hday := h.day_le
  by_cases hfebruary : m = 2
  · subst hfebruary
    obtain ⟨hlong,hshort⟩ := february y
    have hmarch : shifted y 2 = y - 1 ∧ fromMarch 2 = 11 := ⟨rfl,rfl⟩
    obtain ⟨hyear,hmonth⟩ := hmarch
    rw [hyear,hmonth]
    by_cases hleap : leap y = true
    · rw [hlong hleap] at hday
      rw [leap_iff] at hleap
      omega
    · rw [hshort (by simpa using hleap)] at hday
      omega
  · have hlast : fromMarch m ≤ 10 := by
      have := h.month_pos
      have := h.month_le
      unfold fromMarch
      split <;> omega
    omega

theorem date_days (h : Real y m d) : date (days y m d) = (y,m,d) := by
  obtain ⟨hm,hm',hd,hd'⟩ := h
  have hlength := @monthLength_le y m
  have hdays : days y m d = 146097 * (shifted y m / 400) +
      (365 * (shifted y m % 400) + shifted y m % 400 / 4 - shifted y m % 400 / 100 +
        ((153 * fromMarch m + 2) / 5 + d - 1)) - 719468 := by
    unfold days
    omega
  have hfirst : 0 ≤ fromMarch m := by
    unfold fromMarch
    split <;> omega
  rw [hdays,date_of_era (by omega) (by omega) (by omega) (year_length ⟨hm,hm',hd,hd'⟩),
    march_month hd (month_length ⟨hm,hm',hd,hd'⟩),monthOf_fromMarch hm hm']
  refine Prod.ext ?_ (Prod.ext rfl ?_)
  · unfold shifted
    dsimp only
    split <;> omega
  · dsimp only
    omega

theorem days_one (d : ℤ) : days y m d = days y m 1 + (d - 1) := by
  unfold days
  omega

theorem days_newYear (y : ℤ) :
    days y 1 1 = 365 * (y - 1) + (y - 1) / 4 - (y - 1) / 100 + (y - 1) / 400 - 719162 := by
  have hshifted : shifted y 1 = y - 1 := if_pos (by decide)
  unfold days
  rw [hshifted]
  have hmarch : fromMarch 1 = 10 := rfl
  rw [hmarch]
  omega

theorem exists_date (z : ℤ) : ∃ y m d,Real y m d ∧ days y m d = z := by
  have hstep : ∀ z : ℤ,days (min z 0) 1 1 ≤ z := by
    intro z
    rw [days_newYear]
    omega
  have hrun : ∀ z,days (min z 0) 1 1 ≤ z → ∀ z',days (min z 0) 1 1 ≤ z' →
      ∃ y m d,Real y m d ∧ days y m d = z' := by
    intro z _ z' h
    induction z',h using Int.leInduction with
    | base =>
      have hlength := @monthLength_pos (min z 0) 1
      exact ⟨min z 0,1,1,⟨by decide,by decide,by decide,by omega⟩,rfl⟩
    | succ n _ ih =>
      obtain ⟨y,m,d,hreal,hdays⟩ := ih
      refine ⟨_,_,_,next_real hreal,?_⟩
      rw [days_next hreal,hdays]
  exact hrun z (hstep z) z (hstep z)

theorem date_real (z : ℤ) : Real (date z).1 (date z).2.1 (date z).2.2 := by
  obtain ⟨y,m,d,hreal,rfl⟩ := exists_date z
  rw [date_days hreal]
  exact hreal

theorem days_date (z : ℤ) : days (date z).1 (date z).2.1 (date z).2.2 = z := by
  obtain ⟨y,m,d,hreal,rfl⟩ := exists_date z
  rw [date_days hreal]

theorem date_succ (z : ℤ) : date (z + 1) = next (date z).1 (date z).2.1 (date z).2.2 := by
  have hreal := date_real z
  have hdays := days_next hreal
  rw [days_date] at hdays
  rw [← hdays]
  exact date_days (next_real hreal)

def tomorrow (today : ℤ × ℤ × ℤ) : ℤ × ℤ × ℤ := next today.1 today.2.1 today.2.2

theorem tomorrow_iterate (z : ℤ) (k : ℕ) : tomorrow^[k] (date z) = date (z + k) := by
  induction k with
  | zero => simp
  | succ k ih =>
    rw [Function.iterate_succ_apply',ih,tomorrow,← date_succ]
    congr 1
    push_cast
    ring

structure DaysOn (n : ℤ) (a b : ℤ × ℤ × ℤ) : Prop where
  real : Real b.1 b.2.1 b.2.2
  later : 0 ≤ n → tomorrow^[n.toNat] a = b
  earlier : n < 0 → tomorrow^[n.natAbs] b = a

theorem daysOn_date (n z : ℤ) : DaysOn n (date z) (date (z + n)) := by
  refine ⟨date_real _,fun hn => ?_,fun hn => ?_⟩
  · rw [tomorrow_iterate,Int.toNat_of_nonneg hn]
  · rw [tomorrow_iterate]
    congr 1
    omega

def Before (y m d y' m' d' : ℤ) : Prop := y < y' ∨ y = y' ∧ (m < m' ∨ m = m' ∧ d < d')

variable {y' m' d' : ℤ}

theorem days_month (hm : 1 ≤ m) (hm' : m < 12) : days y (m + 1) 1 = days y m 1 + monthLength y m := by
  have hlength := @monthLength_pos y m
  have hnext := @days_next y m (monthLength y m) ⟨hm,by omega,by omega,by omega⟩
  rw [next,if_neg (by omega),if_pos hm',days_one (monthLength y m)] at hnext
  dsimp only at hnext
  omega

theorem days_months (hm : 1 ≤ m) (h : m < m') (hm' : m' ≤ 12) :
    days y m 1 + monthLength y m ≤ days y m' 1 := by
  induction m',(show m + 1 ≤ m' from h) using Int.leInduction with
  | base => exact Int.le_of_eq (days_month hm (by omega)).symm
  | succ k hk ih =>
    have hlast := ih (by omega) (by omega)
    have hnext := @days_month y k (by omega) (by omega)
    have hlength := @monthLength_pos y k
    omega

theorem days_year (h : Real y m d) : days y 1 1 ≤ days y m d ∧ days y m d < days (y + 1) 1 1 := by
  obtain ⟨hm,hm',hd,hd'⟩ := h
  have hlast : days (y + 1) 1 1 = days y 12 31 + 1 :=
    @days_next y 12 31 ⟨by decide,by decide,by decide,Int.le_refl 31⟩
  have hend : days y 12 31 = days y 12 1 + 30 := days_one 31
  have hmid : days y m d = days y m 1 + (d - 1) := days_one d
  constructor
  · rcases Int.lt_or_eq_of_le hm with hm | rfl
    · have := @days_months y 1 m (Int.le_refl 1) hm hm'
      have := @monthLength_pos y 1
      omega
    · omega
  · rcases Int.lt_or_eq_of_le hm' with hm' | rfl
    · have := @days_months y m 12 hm hm' (Int.le_refl 12)
      omega
    · have : monthLength y 12 = 31 := rfl
      omega

theorem days_years (h : y ≤ y') : days y 1 1 ≤ days y' 1 1 := by
  rw [days_newYear,days_newYear]
  omega

theorem year_bounds (h : Real y m d) : 1 ≤ y ∧ y ≤ 9999 ↔
    days 1 1 1 ≤ days y m d ∧ days y m d ≤ days 9999 12 31 := by
  have hyear := days_year h
  have hend : days 9999 12 31 = days 10000 1 1 - 1 := by decide
  constructor
  · rintro ⟨hlow,hhigh⟩
    have := days_years hlow
    have := @days_years (y + 1) 10000 (by omega)
    omega
  · rintro ⟨hlow,hhigh⟩
    constructor
    · by_contra hlt
      have := @days_years (y + 1) 1 (by omega)
      omega
    · by_contra hlt
      have := @days_years 10000 y (by omega)
      omega

theorem Before.days_lt (h : Real y m d) (h' : Real y' m' d') (hbefore : Before y m d y' m' d') :
    days y m d < days y' m' d' := by
  rcases hbefore with hyear | ⟨rfl,hmonth | ⟨rfl,hday⟩⟩
  · have := (days_year h).2
    have := (days_year h').1
    have := @days_years (y + 1) y' hyear
    omega
  · have := @days_months y m m' h.month_pos hmonth h'.month_le
    have := @days_one y m d
    have := @days_one y m' d'
    have := h.day_le
    have := h'.day_pos
    omega
  · have := @days_one y m d
    have := @days_one y m d'
    omega

theorem real_small (h : Real y m d) : m < 100 ∧ d < 100 ∧ 1 ≤ m ∧ 1 ≤ d := by
  have := h.day_le
  have := @monthLength_le y m
  exact ⟨by have := h.month_le; omega,by omega,h.month_pos,h.day_pos⟩

theorem days_lt_iff (h : Real y m d) (h' : Real y' m' d') :
    days y m d < days y' m' d' ↔ Before y m d y' m' d' := by
  refine ⟨fun hlt => ?_,Before.days_lt h h'⟩
  by_contra hnot
  have hback : Before y' m' d' y m d ∨ y' = y ∧ m' = m ∧ d' = d := by
    unfold Before at hnot ⊢
    omega
  rcases hback with hback | ⟨rfl,rfl,rfl⟩
  · have := hback.days_lt h' h
    omega
  · omega

def julianDays (y m d : ℤ) : ℤ :=
  365 * shifted y m + shifted y m / 4 + (153 * fromMarch m + 2) / 5 + d - 1 - 719470

def julianDate (z : ℤ) : ℤ × ℤ × ℤ :=
  let y := (4 * (z + 719470) + 3) / 1461
  let doy := z + 719470 - (365 * y + y / 4)
  let mp := (5 * doy + 2) / 153
  (y + (if monthOf mp ≤ 2 then 1 else 0),monthOf mp,doy - (153 * mp + 2) / 5 + 1)

structure JulianReal (y m d : ℤ) : Prop where
  month_pos : 1 ≤ m
  month_le : m ≤ 12
  day_pos : 1 ≤ d
  day_le : d ≤ if m = 2 ∧ y % 4 = 0 then 29 else monthLength 1 m

def key (y m d : ℤ) : ℤ := y * 10000 + m * 100 + d

-- 15821004 is followed by 15821015
def CivilReal (y m d : ℤ) : Prop :=
  JulianReal y m d ∧ key y m d < 15821005 ∨ Real y m d ∧ 15821015 ≤ key y m d

instance (y m d : ℤ) : Decidable (CivilReal y m d) :=
  have hreal : 1 ≤ m ∧ m ≤ 12 ∧ 1 ≤ d ∧ d ≤ monthLength y m ↔ Real y m d :=
    ⟨fun ⟨hm,hm',hd,hd'⟩ => ⟨hm,hm',hd,hd'⟩,fun ⟨hm,hm',hd,hd'⟩ => ⟨hm,hm',hd,hd'⟩⟩
  have hjulian : 1 ≤ m ∧ m ≤ 12 ∧ 1 ≤ d ∧ d ≤ (if m = 2 ∧ y % 4 = 0 then 29 else monthLength 1 m) ↔
      JulianReal y m d :=
    ⟨fun ⟨hm,hm',hd,hd'⟩ => ⟨hm,hm',hd,hd'⟩,fun ⟨hm,hm',hd,hd'⟩ => ⟨hm,hm',hd,hd'⟩⟩
  decidable_of_iff _ (or_congr (and_congr_left' hjulian) (and_congr_left' hreal))

def civilDays (y m d : ℤ) : ℤ := if key y m d < 15821015 then julianDays y m d else days y m d

def civilDate (z : ℤ) : ℤ × ℤ × ℤ := if z < -141427 then julianDate z else date z

theorem JulianReal.small (h : JulianReal y m d) : d ≤ 31 := by
  have hlength := @monthLength_le 1 m
  have := h.day_le
  split at this <;> omega

theorem JulianReal.length (h : JulianReal y m d) :
    d ≤ (153 * (fromMarch m + 1) + 2) / 5 - (153 * fromMarch m + 2) / 5 ∧
      (153 * fromMarch m + 2) / 5 + d - 1 ≤ (if (shifted y m + 1) % 4 = 0 then 365 else 364) := by
  obtain ⟨hm,hm',hd,hd'⟩ := h
  by_cases hfebruary : m = 2
  · subst hfebruary
    have hshifted : shifted y 2 = y - 1 ∧ fromMarch 2 = 11 := ⟨rfl,rfl⟩
    rw [hshifted.1,hshifted.2,show y - 1 + 1 = y by omega]
    have hshort : monthLength 1 2 = 28 := rfl
    rw [hshort] at hd'
    split at hd' <;> split <;> omega
  · have hlast : fromMarch m ≤ 10 := by
      unfold fromMarch
      split <;> omega
    rw [if_neg (fun hand => hfebruary hand.1),march_length hm hm' hfebruary] at hd'
    refine ⟨hd',?_⟩
    split <;> omega

theorem julianDate_days (h : JulianReal y m d) : julianDate (julianDays y m d) = (y,m,d) := by
  obtain ⟨hlength,hyear⟩ := h.length
  have hfirst : 0 ≤ fromMarch m := by
    have := h.month_pos
    unfold fromMarch
    split <;> omega
  have hd := h.day_pos
  have hcount : julianDays y m d + 719470 =
      365 * shifted y m + shifted y m / 4 + ((153 * fromMarch m + 2) / 5 + d - 1) := by
    unfold julianDays
    omega
  have hmarch : (4 * (julianDays y m d + 719470) + 3) / 1461 = shifted y m := by
    rw [hcount]
    split at hyear <;> omega
  have hday : julianDays y m d + 719470 - (365 * shifted y m + shifted y m / 4) =
      (153 * fromMarch m + 2) / 5 + d - 1 := by omega
  unfold julianDate
  dsimp only
  rw [hmarch,hday,march_month hd hlength,monthOf_fromMarch h.month_pos h.month_le]
  refine Prod.ext ?_ (Prod.ext rfl ?_)
  · unfold shifted
    dsimp only
    split <;> omega
  · dsimp only
    omega

theorem julian_date (z : ℤ) : JulianReal (julianDate z).1 (julianDate z).2.1 (julianDate z).2.2 ∧
    julianDays (julianDate z).1 (julianDate z).2.1 (julianDate z).2.2 = z := by
  obtain ⟨q,r,hr,hr',hyear⟩ : ∃ q r : ℤ,0 ≤ r ∧ r ≤ 3 ∧ (4 * (z + 719470) + 3) / 1461 = 4 * q + r :=
    ⟨(4 * (z + 719470) + 3) / 1461 / 4,(4 * (z + 719470) + 3) / 1461 % 4,by omega,by omega,by omega⟩
  obtain ⟨doy,hz,hlow,hhigh⟩ : ∃ doy : ℤ,z + 719470 = 1461 * q + 365 * r + doy ∧ 0 ≤ doy ∧
      doy ≤ (if r = 3 then 365 else 364) :=
    ⟨_,(add_sub_cancel _ (z + 719470)).symm,by omega,by split <;> omega⟩
  obtain ⟨f,e,hdoy,hf,hf',he,he',hlast⟩ : ∃ f e : ℤ,doy = (153 * f + 2) / 5 + e ∧ 0 ≤ f ∧ f ≤ 11 ∧ 0 ≤ e ∧
      e < (153 * (f + 1) + 2) / 5 - (153 * f + 2) / 5 ∧ (f = 11 → e ≤ (if r = 3 then 28 else 27)) :=
    ⟨(5 * doy + 2) / 153,doy - (153 * ((5 * doy + 2) / 153) + 2) / 5,by omega,by omega,
      by split at hhigh <;> omega,by omega,by split at hhigh <;> omega,by split at hhigh <;> split <;> omega⟩
  have hmonth : fromMarch (monthOf f) = f ∧ 1 ≤ monthOf f ∧ monthOf f ≤ 12 ∧ (monthOf f ≤ 2 ↔ 10 ≤ f) := by
    unfold fromMarch monthOf
    split <;> split <;> omega
  obtain ⟨hmarch,hm,hm',hnew⟩ := hmonth
  have hshifted : shifted (4 * q + r + if monthOf f ≤ 2 then 1 else 0) (monthOf f) = 4 * q + r := by
    unfold shifted
    split <;> omega
  have hreal : JulianReal (4 * q + r + if monthOf f ≤ 2 then 1 else 0) (monthOf f) (e + 1) := by
    refine ⟨hm,hm',by omega,?_⟩
    by_cases hfebruary : monthOf f = 2
    · have hf : f = 11 := by
        rw [hfebruary] at hmarch
        exact hmarch.symm
      have hlast := hlast hf
      have hshort : monthLength 1 2 = 28 := rfl
      rw [hfebruary,hshort,if_pos (show (2 : ℤ) ≤ 2 by decide)]
      split at hlast <;> split <;> omega
    · rw [if_neg (fun hand => hfebruary hand.1),march_length hm hm' hfebruary,hmarch]
      omega
  have hdays : julianDays (4 * q + r + if monthOf f ≤ 2 then 1 else 0) (monthOf f) (e + 1) = z := by
    unfold julianDays
    rw [hshifted,hmarch]
    omega
  have hdate := julianDate_days hreal
  rw [hdays] at hdate
  rw [hdate]
  exact ⟨hreal,hdays⟩

theorem julian_before (h : JulianReal y m d) :
    (key y m d < 15821005 ↔ julianDays y m d < -141427) ∧ (1 ≤ y ↔ -719164 ≤ julianDays y m d) := by
  obtain ⟨hlength,-⟩ := h.length
  obtain ⟨hm,hm',hd,-⟩ := h
  unfold julianDays shifted fromMarch key at *
  interval_cases m <;> simp only [Int.reduceLE,if_true,if_false] at hlength ⊢ <;> omega

theorem gregorian_after (h : Real y m d) : 15821015 ≤ key y m d ↔ -141427 ≤ days y m d := by
  have hfirst : Real 1582 10 15 := ⟨by decide,by decide,by decide,by decide⟩
  have hdays : days 1582 10 15 = -141427 := by decide
  have hlt := days_lt_iff h hfirst
  have hd := h.day_le
  have hlength := @monthLength_le y m
  have hd' := h.day_pos
  have hm := h.month_pos
  have hm' := h.month_le
  rw [hdays,Before] at hlt
  unfold key
  omega

theorem civilDate_days (h : CivilReal y m d) : civilDate (civilDays y m d) = (y,m,d) := by
  unfold civilDate civilDays
  rcases h with ⟨hreal,hkey⟩ | ⟨hreal,hkey⟩
  · rw [if_pos (show key y m d < 15821015 by omega),if_pos ((julian_before hreal).1.mp hkey)]
    exact julianDate_days hreal
  · have := (gregorian_after hreal).mp hkey
    rw [if_neg (show ¬key y m d < 15821015 by omega),if_neg (by omega)]
    exact date_days hreal

theorem civil_date (z : ℤ) : CivilReal (civilDate z).1 (civilDate z).2.1 (civilDate z).2.2 ∧
    civilDays (civilDate z).1 (civilDate z).2.1 (civilDate z).2.2 = z := by
  unfold civilDate
  split
  · rename_i hz
    obtain ⟨hreal,hdays⟩ := julian_date z
    have hkey := (julian_before hreal).1.mpr (hdays.symm ▸ hz)
    exact ⟨.inl ⟨hreal,hkey⟩,by rw [civilDays,if_pos (by omega),hdays]⟩
  · rename_i hz
    have hkey := (gregorian_after (date_real z)).mpr (by rw [days_date]; omega)
    exact ⟨.inr ⟨date_real z,hkey⟩,by rw [civilDays,if_neg (by omega),days_date]⟩

theorem civil_bounds (h : CivilReal y m d) :
    1 ≤ y ∧ y ≤ 9999 ↔ -719164 ≤ civilDays y m d ∧ civilDays y m d ≤ 2932896 := by
  unfold civilDays
  rcases h with ⟨hreal,hkey⟩ | ⟨hreal,hkey⟩
  · obtain ⟨hbefore,hyear⟩ := julian_before hreal
    have hm := hreal.month_pos
    have hd := hreal.day_pos
    have hlate := hbefore.mp hkey
    rw [if_pos (show key y m d < 15821015 by omega),← hyear]
    unfold key at hkey
    omega
  · have hbounds := year_bounds hreal
    have hafter := (gregorian_after hreal).mp hkey
    have hfirst : days 1 1 1 = -719162 := by decide
    have hlast : days 9999 12 31 = 2932896 := by decide
    rw [hfirst,hlast] at hbounds
    rw [if_neg (by omega)]
    omega

theorem civil_small (h : CivilReal y m d) : m < 100 ∧ d < 100 ∧ 1 ≤ m ∧ 1 ≤ d := by
  rcases h with ⟨hreal,-⟩ | ⟨hreal,-⟩
  · have := hreal.small
    exact ⟨by have := hreal.month_le; omega,by omega,hreal.month_pos,hreal.day_pos⟩
  · exact real_small hreal

end Calendar

namespace DateText

open Decimal

def date (p : ℤ × ℤ × ℤ) : List Char := fixed 4 p.1.toNat ++ fixed 2 p.2.1.toNat ++ fixed 2 p.2.2.toNat

def clock (s : ℤ) : List Char := fixed 2 (s / 3600).toNat ++ fixed 2 (s / 60 % 60).toNat ++ fixed 2 (s % 60).toNat

def part (t : List Char) (start stop : ℕ) : ℤ := numeral ((t.take stop).drop start)

variable {y m d s : ℤ} {a b c : List Char} {i j k : ℕ}

theorem parts (ha : a.length = i) (hb : b.length = j) (hc : c.length = k) :
    part (a ++ b ++ c) 0 i = numeral a ∧ part (a ++ b ++ c) i (i + j) = numeral b ∧
      part (a ++ b ++ c) (i + j) (i + j + k) = numeral c := by
  have hab : (a ++ b).length = i + j := by rw [List.length_append,ha,hb]
  have habc : (a ++ b ++ c).length = i + j + k := by rw [List.length_append,hab,hc]
  unfold part
  refine ⟨?_,?_,?_⟩
  · rw [List.append_assoc,List.take_left' ha,List.drop_zero]
  · rw [List.take_left' hab,List.drop_left' ha]
  · rw [List.take_of_length_le (Nat.le_of_eq habc),List.drop_left' hab]

theorem length_two (hs : 0 ≤ s) (h : s < 100) : (fixed 2 s.toNat).length = 2 := length_fixed (by decide) (by omega)

theorem numeral_two (k : ℕ) (hs : 0 ≤ s) : (numeral (fixed k s.toNat) : ℤ) = s := by
  rw [numeral_fixed]
  omega

theorem digits_three (k i j n : ℕ) : Digits (fixed 4 k ++ fixed 2 i ++ fixed 2 j) ∧
    Digits (fixed 2 n ++ fixed 2 i ++ fixed 2 j) :=
  ⟨digits_append.mpr ⟨digits_append.mpr ⟨digits_fixed _ _,digits_fixed _ _⟩,digits_fixed _ _⟩,
    digits_append.mpr ⟨digits_append.mpr ⟨digits_fixed _ _,digits_fixed _ _⟩,digits_fixed _ _⟩⟩

theorem digits_date (p : ℤ × ℤ × ℤ) : Digits (date p) := (digits_three _ _ _ 0).1

theorem digits_clock (s : ℤ) : Digits (clock s) := (digits_three 0 _ _ _).2

theorem date_parts (h : m < 100 ∧ d < 100 ∧ 1 ≤ m ∧ 1 ≤ d) (hlow : 0 ≤ y) (hhigh : y ≤ 9999) :
    (date (y,m,d)).length = 8 ∧ part (date (y,m,d)) 0 4 = y ∧ part (date (y,m,d)) 4 6 = m ∧
      part (date (y,m,d)) 6 8 = d := by
  obtain ⟨hm,hd,hm',hd'⟩ := h
  have hyear : (fixed 4 y.toNat).length = 4 := length_fixed (by decide) (by omega)
  have hmonth := length_two (show 0 ≤ m by omega) hm
  have hday := length_two (show 0 ≤ d by omega) hd
  obtain ⟨hy,hmo,hda⟩ := parts hyear hmonth hday
  unfold date
  refine ⟨?_,?_,?_,?_⟩
  · rw [List.length_append,List.length_append,hyear,hmonth,hday]
  · rw [hy,numeral_two 4 hlow]
  · rw [hmo,numeral_two 2 (show 0 ≤ m by omega)]
  · rw [hda,numeral_two 2 (show 0 ≤ d by omega)]

theorem clock_parts (hlow : 0 ≤ s) (hhigh : s ≤ 86399) :
    (clock s).length = 6 ∧ part (clock s) 0 2 = s / 3600 ∧ part (clock s) 2 4 = s / 60 % 60 ∧
      part (clock s) 4 6 = s % 60 := by
  have hhour := length_two (show 0 ≤ s / 3600 by omega) (by omega)
  have hminute := length_two (show 0 ≤ s / 60 % 60 by omega) (by omega)
  have hsecond := length_two (show 0 ≤ s % 60 by omega) (by omega)
  obtain ⟨hh,hm,hs⟩ := parts hhour hminute hsecond
  unfold clock
  refine ⟨?_,?_,?_,?_⟩
  · rw [List.length_append,List.length_append,hhour,hminute,hsecond]
  · rw [hh,numeral_two 2 (show 0 ≤ s / 3600 by omega)]
  · rw [hm,numeral_two 2 (show 0 ≤ s / 60 % 60 by omega)]
  · rw [hs,numeral_two 2 (show 0 ≤ s % 60 by omega)]

theorem numeral_three (hb : b.length = 2) (hc : c.length = 2) :
    numeral (a ++ b ++ c) = (numeral a * 100 + numeral b) * 100 + numeral c := by
  rw [numeral_append,numeral_append,hb,hc]
  norm_num

theorem numeral_date (h : Calendar.Real y m d) (hlow : 0 ≤ y) :
    (numeral (date (y,m,d)) : ℤ) = (y * 100 + m) * 100 + d := by
  obtain ⟨hm,hd,hm',hd'⟩ := Calendar.real_small h
  unfold date
  rw [numeral_three (length_two (show 0 ≤ m by omega) hm) (length_two (show 0 ≤ d by omega) hd)]
  push_cast
  rw [numeral_two 4 hlow,numeral_two 2 (show 0 ≤ m by omega),numeral_two 2 (show 0 ≤ d by omega)]

theorem numeral_clock (hlow : 0 ≤ s) : (numeral (clock s) : ℤ) = (s / 3600 * 100 + s / 60 % 60) * 100 + s % 60 := by
  unfold clock
  rw [numeral_three (length_two (show 0 ≤ s / 60 % 60 by omega) (by omega))
    (length_two (show 0 ≤ s % 60 by omega) (by omega))]
  push_cast
  rw [numeral_two 2 (show 0 ≤ s / 3600 by omega),numeral_two 2 (show 0 ≤ s / 60 % 60 by omega),
    numeral_two 2 (show 0 ≤ s % 60 by omega)]

theorem clock_inj {s' : ℤ} (hs : 0 ≤ s) (hs' : 0 ≤ s') (h : clock s = clock s') : s = s' := by
  have hparts : ∀ n : ℤ,n = n / 3600 * 3600 + n / 60 % 60 * 60 + n % 60 ∧ 0 ≤ n / 60 % 60 ∧ n / 60 % 60 < 60 ∧
      0 ≤ n % 60 ∧ n % 60 < 60 := fun n => by omega
  have hnumeral : (numeral (clock s) : ℤ) = numeral (clock s') := by rw [h]
  rw [numeral_clock hs,numeral_clock hs'] at hnumeral
  have hs := hparts s
  have hs' := hparts s'
  generalize s / 3600 = a,s / 60 % 60 = b,s % 60 = c,s' / 3600 = a',s' / 60 % 60 = b',s' % 60 = c' at *
  omega

theorem date_inj {z z' : ℤ} (hz : 0 ≤ (Calendar.civilDate z).1) (hz9 : (Calendar.civilDate z).1 ≤ 9999)
    (hz' : 0 ≤ (Calendar.civilDate z').1) (hz9' : (Calendar.civilDate z').1 ≤ 9999)
    (h : date (Calendar.civilDate z) = date (Calendar.civilDate z')) : z = z' := by
  obtain ⟨hreal,hdays⟩ := Calendar.civil_date z
  obtain ⟨hreal',hdays'⟩ := Calendar.civil_date z'
  obtain ⟨-,hy,hm,hd⟩ := date_parts (Calendar.civil_small hreal) hz hz9
  obtain ⟨-,hy',hm',hd'⟩ := date_parts (Calendar.civil_small hreal') hz' hz9'
  have hdate : Calendar.civilDate z = Calendar.civilDate z' := by
    refine Prod.ext ?_ (Prod.ext ?_ ?_)
    · rw [← hy,← hy']
      exact congrArg (part · 0 4) h
    · rw [← hm,← hm']
      exact congrArg (part · 4 6) h
    · rw [← hd,← hd']
      exact congrArg (part · 6 8) h
  rw [← hdays,← hdays',hdate]

end DateText
