import OpenSteamgate.Library.Binary64
import OpenSteamgate.Library.Calendar
import OpenSteamgate.Library.Padding

namespace OpenSteamgate.JobSchedule

open JsText (trim)

abbrev Text := List Char

abbrev Stamp := Text

def MINUTE : ℤ := 60 * 1000

def two (n : ℤ) : Text := Decimal.fixed 2 n.toNat

def yearText (y : ℤ) : Text :=
  if 0 ≤ y ∧ y ≤ 9999 then Decimal.fixed 4 y.toNat
  else (if y < 0 then '-' else '+') :: Decimal.fixed 6 y.natAbs

def toISOString (ms : ℤ) : Option Text :=
  if 8640000000000000 < |ms| then none
  else
    let (y,m,d) := Calendar.date (ms / 86400000)
    let time := ms % 86400000
    some (yearText y ++ '-' :: two m ++ '-' :: two d ++ 'T' :: two (time / 3600000) ++
      ':' :: two (time / 60000 % 60) ++ ':' :: two (time / 1000 % 60) ++
      '.' :: Decimal.fixed 3 (time % 1000).toNat ++ ['Z'])

def msStamp (ms : ℤ) : Option Stamp :=
  (toISOString (ms / 1000 * 1000)).map fun text =>
    (text.take 19).filter fun c => c ≠ '-' ∧ c ≠ 'T' ∧ c ≠ ':'

def dateUTC (year month day hour minute second : ℤ) : ℤ :=
  let year := if 0 ≤ year ∧ year ≤ 99 then 1900 + year else year
  (Calendar.days (year + month / 12) (month % 12 + 1) 1 + (day - 1)) * 86400000 + hour * 3600000 +
    minute * 60000 + second * 1000

def number (stamp : Stamp) (start length : ℕ) : ℤ := Decimal.numeral ((stamp.drop start).take length)

def stampMs (stamp : Stamp) : Option ℤ :=
  if stamp.length = 14 ∧ stamp.all Char.isDigit then
    let ms := dateUTC (number stamp 0 4) (number stamp 4 2 - 1) (number stamp 6 2) (number stamp 8 2)
      (number stamp 10 2) (number stamp 12 2)
    if msStamp ms = some stamp then some ms else none
  else none

def isStamp (stamp : Stamp) : Bool := (stampMs stamp).isSome

structure Period where
  mins : ℤ
  hours : ℤ
  days : ℤ
  weeks : ℤ

def PERIOD_LIMITS : Period := ⟨99,99,999,99⟩

def periodMinutes (period : Period) : ℤ :=
  period.mins + 60 * period.hours + 24 * 60 * period.days + 7 * 24 * 60 * period.weeks

structure Schedule where
  start : Stamp
  last : Stamp
  period : Period

inductive ScheduleError
  | startTime
  | period
  | field (name : String)
  | once
  | range

def within (value limit : ℤ) : Bool := decide (0 ≤ value ∧ value ≤ limit)

def checkSchedule (schedule : Schedule) : Except ScheduleError Schedule :=
  if ¬isStamp schedule.start ∨ schedule.last ≠ [] ∧ (¬isStamp schedule.last ∨ schedule.last < schedule.start) then
    .error .startTime
  else if within schedule.period.mins PERIOD_LIMITS.mins && within schedule.period.hours PERIOD_LIMITS.hours &&
      within schedule.period.days PERIOD_LIMITS.days && within schedule.period.weeks PERIOD_LIMITS.weeks then
    .ok schedule
  else .error .period

structure Columns where
  sdlstrtdt : Text
  sdlstrttm : Text
  laststrtdt : Text
  laststrttm : Text
  prdmins : Text
  prdhours : Text
  prddays : Text
  prdweeks : Text

def periodNumber (name : String) (column : Text) : Except ScheduleError ℤ :=
  let digits := if trim column = [] then ['0'] else trim column
  if digits.all Char.isDigit then .ok (Decimal.numeral digits) else .error (.field name)

def scheduleOfOutbox (row : Columns) : Except ScheduleError (Option Schedule) :=
  if [row.sdlstrtdt,row.sdlstrttm,row.laststrtdt,row.laststrttm,row.prdmins,row.prdhours,row.prddays,
      row.prdweeks].all fun column => trim column = [] then .ok none
  else
    periodNumber "prdmins" row.prdmins >>= fun mins => periodNumber "prdhours" row.prdhours >>= fun hours =>
      periodNumber "prddays" row.prddays >>= fun days => periodNumber "prdweeks" row.prdweeks >>= fun weeks =>
        (checkSchedule ⟨trim row.sdlstrtdt ++ trim row.sdlstrttm,trim row.laststrtdt ++ trim row.laststrttm,
          ⟨mins,hours,days,weeks⟩⟩).map some

def stepped (stamp : Stamp) (step : ℤ) : Except ScheduleError Stamp :=
  match stampMs stamp >>= fun ms => msStamp (ms + step) with
  | some stamp => .ok stamp
  | none => .error .range

def nextSchedule (schedule : Schedule) (periods : ℤ) : Except ScheduleError Schedule :=
  let step := periodMinutes schedule.period * MINUTE * periods
  if step ≤ 0 then .error .once
  else
    stepped schedule.start step >>= fun start =>
      (if schedule.last = [] then .ok [] else stepped schedule.last step) >>= fun last =>
        .ok ⟨start,last,schedule.period⟩

def periodsToFuture (start : Stamp) (period : Period) (nowStamp : Stamp) : Except ScheduleError ℤ :=
  let step := periodMinutes period * MINUTE
  if step ≤ 0 then .error .once
  else
    match stampMs nowStamp,stampMs start with
    | some now,some start => .ok (max 1 (⌊Binary64.round (((now - start : ℤ) : ℚ) / step)⌋ + 1))
    | _,_ => .error .range

section stamps

variable {ms ms' : ℤ} {stamp stamp' : Stamp} {y m d : ℤ}

theorem numeral_two (n : ℤ) : Decimal.numeral (two n) = n.toNat := Decimal.numeral_fixed 2 _

theorem length_two {n : ℤ} (h : n < 100) : (two n).length = 2 := Decimal.length_fixed (by decide) (by omega)

theorem digits_two (n : ℤ) : Decimal.Digits (two n) := Decimal.digits_fixed 2 _

def digits (y m d second : ℤ) : Stamp :=
  Decimal.fixed 4 y.toNat ++ (two m ++ (two d ++ (two (second / 3600) ++
    (two (second / 60 % 60) ++ two (second % 60)))))

structure Moment (y m d second : ℤ) : Prop where
  real : Calendar.Real y m d
  year_low : 0 ≤ y
  year_high : y ≤ 9999
  second_low : 0 ≤ second
  second_high : second < 86400

variable {second : ℤ}

theorem Moment.day_le (h : Moment y m d second) : d ≤ 31 := Int.le_trans h.real.day_le Calendar.monthLength_le

theorem digits_digits : Decimal.Digits (digits y m d second) := by
  unfold digits
  simp only [Decimal.digits_append]
  exact ⟨Decimal.digits_fixed _ _,digits_two _,digits_two _,digits_two _,digits_two _,digits_two _⟩

theorem length_year (hlow : 0 ≤ y) (hhigh : y ≤ 9999) : (Decimal.fixed 4 y.toNat).length = 4 :=
  Decimal.length_fixed (by decide) (by omega)

theorem length_digits (h : Moment y m d second) : (digits y m d second).length = 14 := by
  have hday := h.day_le
  obtain ⟨⟨-,hm,-,-⟩,hlow,hhigh,hsecond,hsecond'⟩ := h
  unfold digits
  simp only [List.length_append]
  rw [length_year hlow hhigh,length_two (show m < 100 by omega),length_two (show d < 100 by omega),
    length_two (show second / 3600 < 100 by omega),length_two (show second / 60 % 60 < 100 by omega),
    length_two (show second % 60 < 100 by omega)]

def code (y m d second : ℤ) : ℤ :=
  ((((y * 100 + m) * 100 + d) * 100 + second / 3600) * 100 + second / 60 % 60) * 100 + second % 60

theorem numeral_digits (h : Moment y m d second) :
    (Decimal.numeral (digits y m d second) : ℤ) = code y m d second := by
  have hday := h.day_le
  obtain ⟨⟨hm,hm',hd,-⟩,hlow,hhigh,hsecond,hsecond'⟩ := h
  unfold digits code
  simp only [Decimal.numeral_append,numeral_two,Decimal.numeral_fixed,List.length_append]
  rw [length_two (show m < 100 by omega),length_two (show d < 100 by omega),
    length_two (show second / 3600 < 100 by omega),length_two (show second / 60 % 60 < 100 by omega),
    length_two (show second % 60 < 100 by omega)]
  omega

theorem filter_digits {t : Text} (h : Decimal.Digits t) :
    t.filter (fun c => c ≠ '-' ∧ c ≠ 'T' ∧ c ≠ ':') = t := by
  rw [List.filter_eq_self]
  intro c hc
  rw [decide_eq_true_eq]
  refine ⟨fun heq => ?_,fun heq => ?_,fun heq => ?_⟩
  · exact absurd (h c hc) (by rw [heq]; decide)
  · exact absurd (h c hc) (by rw [heq]; decide)
  · exact absurd (h c hc) (by rw [heq]; decide)

theorem moment_ms (h : Moment y m d second)
    (hms : ms / 1000 = Calendar.days y m d * 86400 + second) : |ms / 1000 * 1000| ≤ 8640000000000000 := by
  have hyear := Calendar.days_year h.real
  have hlow := Calendar.days_years h.year_low
  have hhigh := @Calendar.days_years (y + 1) 10000 (by have := h.year_high; omega)
  have hlast : Calendar.days 10000 1 1 = 2932897 := by decide
  have hfirst : Calendar.days 0 1 1 = -719528 := by decide
  have := h.second_low
  have := h.second_high
  rw [abs_le]
  omega

theorem msStamp_moment (h : Moment y m d second)
    (hms : ms / 1000 = Calendar.days y m d * 86400 + second) : msStamp ms = some (digits y m d second) := by
  have hbound := moment_ms h hms
  have hday := h.day_le
  obtain ⟨hreal,hlow,hhigh,hsecond,hsecond'⟩ := h
  have hdate : Calendar.date (ms / 1000 * 1000 / 86400000) = (y,m,d) := by
    rw [show ms / 1000 * 1000 / 86400000 = Calendar.days y m d by omega]
    exact Calendar.date_days hreal
  have hhour : ms / 1000 * 1000 % 86400000 / 3600000 = second / 3600 := by omega
  have hminute : ms / 1000 * 1000 % 86400000 / 60000 % 60 = second / 60 % 60 := by omega
  have hsecond : ms / 1000 * 1000 % 86400000 / 1000 % 60 = second % 60 := by omega
  have hyear : yearText y = Decimal.fixed 4 y.toNat := if_pos ⟨hlow,hhigh⟩
  unfold msStamp toISOString
  rw [if_neg (by omega),hdate]
  dsimp only [Option.map]
  rw [hhour,hminute,hsecond,hyear]
  have htake (rest : Text) : (Decimal.fixed 4 y.toNat ++ '-' :: two m ++ '-' :: two d ++
      'T' :: two (second / 3600) ++ ':' :: two (second / 60 % 60) ++ ':' :: two (second % 60) ++ rest).take 19 =
      Decimal.fixed 4 y.toNat ++ '-' :: two m ++ '-' :: two d ++
      'T' :: two (second / 3600) ++ ':' :: two (second / 60 % 60) ++ ':' :: two (second % 60) := by
    refine List.take_left' ?_
    simp only [List.length_append,List.length_cons]
    rw [length_year hlow hhigh,length_two (show m < 100 by have := hreal.month_le; omega),
      length_two (show d < 100 by omega),length_two (show second / 3600 < 100 by omega),
      length_two (show second / 60 % 60 < 100 by omega),length_two (show second % 60 < 100 by omega)]
  rw [List.append_assoc _ ('.' :: _) ['Z'],htake]
  simp only [List.filter_append,List.filter_cons,filter_digits (digits_two _),
    filter_digits (Decimal.digits_fixed _ _)]
  simp [digits]

theorem exists_moment (ms : ℤ) : ∃ y m d second,Calendar.Real y m d ∧ 0 ≤ second ∧ second < 86400 ∧
    ms / 1000 = Calendar.days y m d * 86400 + second := by
  refine ⟨_,_,_,ms / 1000 % 86400,Calendar.date_real (ms / 1000 / 86400),by omega,by omega,?_⟩
  rw [Calendar.days_date]
  omega

def END : ℤ := 253402300800000

theorem number_nonneg (stamp : Stamp) (start length : ℕ) : 0 ≤ number stamp start length := Int.natCast_nonneg _

theorem dateUTC_mod (year month day hour minute second : ℤ) :
    dateUTC year month day hour minute second % 1000 = 0 := by
  unfold dateUTC
  dsimp only
  omega

theorem number_year (h : Moment y m d second) : number (digits y m d second) 0 4 = y := by
  unfold number digits
  rw [List.drop_zero,List.take_left' (length_year h.year_low h.year_high),Decimal.numeral_fixed]
  exact Int.toNat_of_nonneg h.year_low

theorem dateUTC_year {year month day hour minute sec : ℤ} (hreal : Calendar.Real y m d)
    (hsecond' : second < 86400) (hms : dateUTC year (month - 1) day hour minute sec / 1000 =
      Calendar.days y m d * 86400 + second) (hyear : 0 ≤ year) (hmonth : 0 ≤ month) (hday : 0 ≤ day)
    (hhour : 0 ≤ hour) (hminute : 0 ≤ minute) (hsec : 0 ≤ sec) :
    (if year ≤ 99 then 1900 + year else year) - 2 ≤ y := by
  have hbound : ∀ year' : ℤ,(Calendar.days (year' + (month - 1) / 12) ((month - 1) % 12 + 1) 1 + (day - 1)) *
        86400000 + hour * 3600000 + minute * 60000 + sec * 1000 = dateUTC year (month - 1) day hour minute sec →
      year' - 2 ≤ y := by
    intro year' heq
    have hlength := @Calendar.monthLength_pos (year' + (month - 1) / 12) ((month - 1) % 12 + 1)
    have hfirst := (@Calendar.days_year (year' + (month - 1) / 12) ((month - 1) % 12 + 1) 1
      ⟨by omega,by omega,Int.le_refl 1,by omega⟩).1
    have hmonths := @Calendar.days_years (year' - 1) (year' + (month - 1) / 12) (by omega)
    have hbefore : Calendar.days (year' - 2) 1 1 + 365 ≤ Calendar.days (year' - 1) 1 1 := by
      rw [Calendar.days_newYear,Calendar.days_newYear]
      omega
    by_contra hlt
    have hlast := (Calendar.days_year hreal).2
    have hnext := @Calendar.days_years (y + 1) (year' - 2) (by omega)
    omega
  refine hbound _ ?_
  unfold dateUTC
  by_cases h : year ≤ 99
  · rw [if_pos h,if_pos ⟨hyear,h⟩]
  · rw [if_neg h,if_neg (by omega)]

theorem msStamp_year (hreal : Calendar.Real y m d) (hsecond : 0 ≤ second) (hsecond' : second < 86400)
    (hms : ms / 1000 = Calendar.days y m d * 86400 + second) (hstamp : msStamp ms = some stamp)
    (hdigits : Decimal.Digits stamp) : y ≤ 9999 := by
  by_contra hhigh
  have hdate : Calendar.date (ms / 1000 * 1000 / 86400000) = (y,m,d) := by
    rw [show ms / 1000 * 1000 / 86400000 = Calendar.days y m d by omega]
    exact Calendar.date_days hreal
  have hyear : yearText y = '+' :: Decimal.fixed 6 y.natAbs := by
    rw [yearText,if_neg (by omega),if_neg (by omega)]
  unfold msStamp toISOString at hstamp
  split at hstamp
  · cases hstamp
  · rw [hdate] at hstamp
    dsimp only [Option.map] at hstamp
    rw [hyear] at hstamp
    have hplus : '+' ∈ stamp := by
      rw [← Option.some.inj hstamp]
      exact List.mem_filter.mpr ⟨List.mem_cons_self,by decide⟩
    exact absurd (hdigits _ hplus) (by decide)

theorem stampMs_some (h : stampMs stamp = some ms) : msStamp ms = some stamp ∧ ms % 1000 = 0 ∧
    ∃ y m d second,Moment y m d second ∧ 100 ≤ y ∧ stamp = digits y m d second ∧
      ms / 1000 = Calendar.days y m d * 86400 + second := by
  unfold stampMs at h
  split at h
  · next hshape =>
    dsimp only at h
    split at h
    · next hstamp =>
      cases h
      have hdigits : Decimal.Digits stamp := List.all_eq_true.mp hshape.2
      obtain ⟨y,m,d,second,hreal,hsecond,hsecond',hms⟩ := exists_moment (dateUTC (number stamp 0 4)
        (number stamp 4 2 - 1) (number stamp 6 2) (number stamp 8 2) (number stamp 10 2) (number stamp 12 2))
      have hlow := dateUTC_year hreal hsecond' hms (number_nonneg _ _ _) (number_nonneg _ _ _)
        (number_nonneg _ _ _) (number_nonneg _ _ _) (number_nonneg _ _ _) (number_nonneg _ _ _)
      have hyear := number_nonneg stamp 0 4
      have hhigh := msStamp_year hreal hsecond hsecond' hms hstamp hdigits
      have hmoment : Moment y m d second := ⟨hreal,by omega,hhigh,hsecond,hsecond'⟩
      have hsame : digits y m d second = stamp :=
        Option.some.inj ((msStamp_moment hmoment hms).symm.trans hstamp)
      have hnumber : number stamp 0 4 = y := by
        rw [← hsame]
        exact number_year hmoment
      refine ⟨hstamp,dateUTC_mod _ _ _ _ _ _,y,m,d,second,hmoment,by omega,hsame.symm,hms⟩
    · cases h
  · cases h

theorem stampMs_moment (h : Moment y m d second) (hyear : 100 ≤ y)
    (hms : ms = (Calendar.days y m d * 86400 + second) * 1000) :
    stampMs (digits y m d second) = some ms := by
  have hlength := length_digits h
  have hday := h.day_le
  have hstamp := @msStamp_moment ms y m d second h (by omega)
  obtain ⟨⟨hm,hm',hd,hd'⟩,hlow,hhigh,hsecond,hsecond'⟩ := h
  have h4 := length_year hlow hhigh
  have hlm := length_two (show m < 100 by omega)
  have hld := length_two (show d < 100 by omega)
  have hlh := length_two (show second / 3600 < 100 by omega)
  have hli := length_two (show second / 60 % 60 < 100 by omega)
  have hls := length_two (show second % 60 < 100 by omega)
  have hfields : number (digits y m d second) 0 4 = y ∧ number (digits y m d second) 4 2 = m ∧
      number (digits y m d second) 6 2 = d ∧ number (digits y m d second) 8 2 = second / 3600 ∧
      number (digits y m d second) 10 2 = second / 60 % 60 ∧
      number (digits y m d second) 12 2 = second % 60 := by
    have hdrop {t rest : Text} {j : ℕ} (k : ℕ) (h : t.length = j) :
        (t ++ rest).drop (j + k) = rest.drop k := by
      rw [← h,List.drop_append,List.drop_of_length_le (Nat.le_add_right _ _),List.nil_append,
        Nat.add_sub_cancel_left]
    have hlast : (two (second % 60)).take 2 = two (second % 60) := List.take_of_length_le (Nat.le_of_eq hls)
    unfold number digits
    refine ⟨?_,?_,?_,?_,?_,?_⟩
    · rw [List.drop_zero,List.take_left' h4,Decimal.numeral_fixed]
      omega
    · rw [hdrop 0 h4,List.drop_zero,List.take_left' hlm,numeral_two]
      omega
    · rw [hdrop 2 h4,hdrop 0 hlm,List.drop_zero,List.take_left' hld,numeral_two]
      omega
    · rw [hdrop 4 h4,hdrop 2 hlm,hdrop 0 hld,List.drop_zero,List.take_left' hlh,numeral_two]
      omega
    · rw [hdrop 6 h4,hdrop 4 hlm,hdrop 2 hld,hdrop 0 hlh,List.drop_zero,List.take_left' hli,numeral_two]
      omega
    · rw [hdrop 8 h4,hdrop 6 hlm,hdrop 4 hld,hdrop 2 hlh,hdrop 0 hli,List.drop_zero,hlast,numeral_two]
      omega
  have hutc : dateUTC y (m - 1) d (second / 3600) (second / 60 % 60) (second % 60) = ms := by
    have hmonth : (m - 1) / 12 = 0 := by omega
    have hmonth' : (m - 1) % 12 + 1 = m := by omega
    have hone := @Calendar.days_one y m d
    unfold dateUTC
    rw [if_neg (by omega),hmonth,hmonth']
    dsimp only
    rw [Int.add_zero]
    omega
  obtain ⟨hf1,hf2,hf3,hf4,hf5,hf6⟩ := hfields
  unfold stampMs
  rw [if_pos ⟨hlength,List.all_eq_true.mpr digits_digits⟩,hf1,hf2,hf3,hf4,hf5,hf6,hutc]
  exact if_pos hstamp

theorem code_lt {y' m' d' second' : ℤ} (h : Moment y m d second) (h' : Moment y' m' d' second') :
    code y m d second < code y' m' d' second' ↔
      Calendar.days y m d * 86400 + second < Calendar.days y' m' d' * 86400 + second' := by
  have hbefore := Calendar.days_lt_iff h.real h'.real
  have hafter := Calendar.days_lt_iff h'.real h.real
  have hday := h.day_le
  have hday' := h'.day_le
  obtain ⟨⟨hm,hm',hd,-⟩,-,-,hsecond,hsecond'⟩ := h
  obtain ⟨⟨hm2,hm2',hd2,-⟩,-,-,hsecond2,hsecond2'⟩ := h'
  unfold Calendar.Before at hbefore hafter
  rcases Int.lt_trichotomy (Calendar.days y m d) (Calendar.days y' m' d') with hlt | heq | hlt
  · refine iff_of_true ?_ (by omega)
    have := hbefore.mp hlt
    unfold code
    omega
  · have hsame : y = y' ∧ m = m' ∧ d = d' := by omega
    obtain ⟨rfl,rfl,rfl⟩ := hsame
    have hhour : second / 60 / 60 = second / 3600 := by omega
    have hhour' : second' / 60 / 60 = second' / 3600 := by omega
    unfold code
    omega
  · refine iff_of_false ?_ (by omega)
    have := hafter.mp hlt
    unfold code
    omega

end stamps

section schedules

variable {s s' : Stamp} {ms ms' step : ℤ} {schedule : Schedule}

theorem stamp_lt (h : stampMs s = some ms) (h' : stampMs s' = some ms') : s < s' ↔ ms < ms' := by
  obtain ⟨-,hmod,y,m,d,second,hmoment,-,rfl,hms⟩ := stampMs_some h
  obtain ⟨-,hmod',y',m',d',second',hmoment',-,rfl,hms'⟩ := stampMs_some h'
  have hcode := code_lt hmoment hmoment'
  have hnumeral := numeral_digits hmoment
  have hnumeral' := numeral_digits hmoment'
  rw [Decimal.lt_iff_numeral digits_digits digits_digits
    ((length_digits hmoment).trans (length_digits hmoment').symm)]
  omega

structure Accepted (schedule : Schedule) : Prop where
  start : isStamp schedule.start
  last : schedule.last ≠ [] → isStamp schedule.last ∧ ¬schedule.last < schedule.start
  period : (within schedule.period.mins PERIOD_LIMITS.mins && within schedule.period.hours PERIOD_LIMITS.hours &&
      within schedule.period.days PERIOD_LIMITS.days && within schedule.period.weeks PERIOD_LIMITS.weeks) = true

theorem stampMs_add (h : stampMs s = some ms) (hstep : 0 ≤ step) (hmod : step % 1000 = 0)
    (hend : ms + step < END) : ∃ s',msStamp (ms + step) = some s' ∧ stampMs s' = some (ms + step) := by
  obtain ⟨-,hmod',y,m,d,second,hmoment,hyear,-,hms⟩ := stampMs_some h
  obtain ⟨y',m',d',second',hreal,hsecond,hsecond',hms'⟩ := exists_moment (ms + step)
  have hlast : Calendar.days 10000 1 1 = 2932897 := by decide
  have hlow : y ≤ y' := by
    by_contra hlt
    have hbefore := hreal
    have h1 := (Calendar.days_year hreal).2
    have h2 := @Calendar.days_years (y' + 1) y (by omega)
    have h3 := (Calendar.days_year hmoment.real).1
    have := hmoment.second_low
    omega
  have hhigh : y' ≤ 9999 := by
    by_contra hlt
    have h1 := (Calendar.days_year hreal).1
    have h2 := @Calendar.days_years 10000 y' (by omega)
    unfold END at hend
    omega
  have hmoment' : Moment y' m' d' second' := ⟨hreal,by omega,hhigh,hsecond,hsecond'⟩
  exact ⟨_,msStamp_moment hmoment' hms',stampMs_moment hmoment' (by omega) (by omega)⟩

theorem stepped_eq (h : stampMs s = some ms) (hs' : msStamp (ms + step) = some s') : stepped s step = .ok s' := by
  unfold stepped
  rw [h]
  dsimp only [bind,Option.bind]
  rw [hs']

theorem checkSchedule_iff : checkSchedule schedule = .ok schedule ↔ Accepted schedule := by
  unfold checkSchedule
  constructor
  · intro h
    split at h
    · cases h
    · next htimes =>
      split at h
      · next hperiod =>
        refine ⟨?_,fun hlast => ?_,hperiod⟩
        · by_contra hstart
          exact htimes (.inl hstart)
        · constructor
          · by_contra hstamp
            exact htimes (.inr ⟨hlast,.inl hstamp⟩)
          · exact fun hlt => htimes (.inr ⟨hlast,.inr hlt⟩)
      · cases h
  · intro h
    rw [if_neg,if_pos h.period]
    rintro (hstart | ⟨hlast,hstamp | hlt⟩)
    · exact hstart h.start
    · exact hstamp (h.last hlast).1
    · exact (h.last hlast).2 hlt

structure Later (schedule schedule' : Schedule) (step : ℤ) : Prop where
  period : schedule'.period = schedule.period
  start : ∀ ms, stampMs schedule.start = some ms → stampMs schedule'.start = some (ms + step)
  last : schedule.last = [] ∧ schedule'.last = [] ∨ schedule.last ≠ [] ∧ schedule'.last ≠ [] ∧
    ∀ ms, stampMs schedule.last = some ms → stampMs schedule'.last = some (ms + step)

theorem stampMs_ne_nil (h : stampMs s = some ms) : s ≠ [] := by
  rintro rfl
  cases h

theorem stampMs_inj (h : stampMs s = some ms) (h' : stampMs s' = some ms) : s = s' :=
  Option.some.inj ((stampMs_some h).1.symm.trans (stampMs_some h').1)

def Ends (schedule : Schedule) (step : ℤ) : Prop :=
  (∀ ms, stampMs schedule.start = some ms → ms + step < END) ∧
    ∀ ms, stampMs schedule.last = some ms → ms + step < END

theorem nextSchedule_spec {periods : ℤ} (h : Accepted schedule)
    (hstep : 0 < periodMinutes schedule.period * MINUTE * periods)
    (hend : Ends schedule (periodMinutes schedule.period * MINUTE * periods)) :
    ∃ schedule',nextSchedule schedule periods = .ok schedule' ∧ Accepted schedule' ∧
      Later schedule schedule' (periodMinutes schedule.period * MINUTE * periods) := by
  have hmod : periodMinutes schedule.period * MINUTE * periods % 1000 = 0 := by
    have hsplit : periodMinutes schedule.period * MINUTE * periods =
        1000 * (60 * (periodMinutes schedule.period * periods)) := by
      unfold MINUTE
      ring
    rw [hsplit]
    exact Int.mul_emod_right _ _
  obtain ⟨start,hstart⟩ := Option.isSome_iff_exists.mp h.start
  obtain ⟨start',hs,hs'⟩ := stampMs_add hstart hstep.le hmod (hend.1 start hstart)
  have hnext := stepped_eq hstart hs
  unfold nextSchedule
  dsimp only
  rw [if_neg (by omega),hnext]
  by_cases hlast : schedule.last = []
  · refine ⟨⟨start',[],schedule.period⟩,?_,⟨?_,fun hne => absurd rfl hne,h.period⟩,⟨rfl,?_,.inl ⟨hlast,rfl⟩⟩⟩
    · dsimp only [bind,Except.bind]
      rw [if_pos hlast]
    · exact Option.isSome_iff_exists.mpr ⟨_,hs'⟩
    · intro ms hms
      rw [hstart] at hms
      cases hms
      exact hs'
  · obtain ⟨hstamp,hnot⟩ := h.last hlast
    obtain ⟨last,hlastMs⟩ := Option.isSome_iff_exists.mp hstamp
    obtain ⟨last',hl,hl'⟩ := stampMs_add hlastMs hstep.le hmod (hend.2 last hlastMs)
    refine ⟨⟨start',last',schedule.period⟩,?_,⟨?_,fun _ => ⟨?_,?_⟩,h.period⟩,
      ⟨rfl,?_,.inr ⟨hlast,stampMs_ne_nil hl',?_⟩⟩⟩
    · dsimp only [bind,Except.bind]
      rw [if_neg hlast,stepped_eq hlastMs hl]
    · exact Option.isSome_iff_exists.mpr ⟨_,hs'⟩
    · exact Option.isSome_iff_exists.mpr ⟨_,hl'⟩
    · rw [stamp_lt hlastMs hstart] at hnot
      dsimp only
      rw [stamp_lt hl' hs']
      omega
    · intro ms hms
      rw [hstart] at hms
      cases hms
      exact hs'
    · intro ms hms
      rw [hlastMs] at hms
      cases hms
      exact hl'

theorem Later.unique {a b : Schedule} (h : Accepted schedule) (ha : Later schedule a step)
    (hb : Later schedule b step) : a = b := by
  obtain ⟨start,hstart⟩ := Option.isSome_iff_exists.mp h.start
  have hsame := stampMs_inj (ha.start start hstart) (hb.start start hstart)
  have hlast : a.last = b.last := by
    rcases ha.last with ⟨hnil,ha'⟩ | ⟨hne,-,ha'⟩
    · rcases hb.last with ⟨-,hb'⟩ | ⟨hne,-⟩
      · rw [ha',hb']
      · exact absurd hnil hne
    · rcases hb.last with ⟨hnil,-⟩ | ⟨-,-,hb'⟩
      · exact absurd hnil hne
      · obtain ⟨last,hlast⟩ := Option.isSome_iff_exists.mp (h.last hne).1
        exact stampMs_inj (ha' last hlast) (hb' last hlast)
  have hperiod : a.period = b.period := ha.period.trans hb.period.symm
  cases a
  cases b
  cases hsame
  cases hlast
  cases hperiod
  rfl

theorem Later.trans {a b : Schedule} {step' : ℤ} (ha : Later schedule a step) (hb : Later a b step') :
    Later schedule b (step + step') := by
  refine ⟨hb.period.trans ha.period,fun ms hms => ?_,?_⟩
  · rw [← Int.add_assoc]
    exact hb.start _ (ha.start ms hms)
  · rcases ha.last with ⟨hnil,ha'⟩ | ⟨hne,hne',ha'⟩
    · rcases hb.last with ⟨-,hb'⟩ | ⟨hne,-⟩
      · exact .inl ⟨hnil,hb'⟩
      · exact absurd ha' hne
    · rcases hb.last with ⟨hnil,-⟩ | ⟨-,hne'',hb'⟩
      · exact absurd hnil hne'
      · refine .inr ⟨hne,hne'',fun ms hms => ?_⟩
        rw [← Int.add_assoc]
        exact hb' _ (ha' ms hms)

theorem stampMs_range (h : stampMs s = some ms) : 0 ≤ ms + 62135596800000 ∧ ms < END := by
  obtain ⟨-,hmod,y,m,d,second,hmoment,hyear,-,hms⟩ := stampMs_some h
  have hlow := (Calendar.days_year hmoment.real).1
  have hhigh := (Calendar.days_year hmoment.real).2
  have hfirst := @Calendar.days_years 100 y hyear
  have hlast := @Calendar.days_years (y + 1) 10000 (by have := hmoment.year_high; omega)
  have h100 : Calendar.days 100 1 1 = -683003 := by decide
  have h10000 : Calendar.days 10000 1 1 = 2932897 := by decide
  have := hmoment.second_low
  have := hmoment.second_high
  unfold END
  omega

theorem periodsToFuture_least {period : Period} (h : stampMs s = some ms) (h' : stampMs s' = some ms')
    (hperiod : 0 < periodMinutes period) : ∃ k,periodsToFuture s period s' = .ok k ∧
      IsLeast {k : ℤ | 1 ≤ k ∧ ms' < ms + k * (periodMinutes period * MINUTE)} k := by
  have hstep : 0 < periodMinutes period * MINUTE := Int.mul_pos hperiod (by decide)
  have hrange := stampMs_range h
  have hrange' := stampMs_range h'
  have hsmall : |ms' - ms| < 2 ^ 53 := by
    unfold END at hrange hrange'
    rw [abs_lt]
    constructor <;> omega
  have hfloor := Binary64.floor_round_div hsmall hstep
  have hdiv := Int.mul_ediv_add_emod (ms' - ms) (periodMinutes period * MINUTE)
  have hmod := Int.emod_lt_of_pos (ms' - ms) hstep
  have hmod' := Int.emod_nonneg (ms' - ms) hstep.ne'
  refine ⟨max 1 ((ms' - ms) / (periodMinutes period * MINUTE) + 1),?_,⟨Int.le_max_left _ _,?_⟩,?_⟩
  · unfold periodsToFuture
    dsimp only
    rw [if_neg (by omega),h,h']
    dsimp only
    rw [hfloor]
  · have hle := Int.le_max_right 1 ((ms' - ms) / (periodMinutes period * MINUTE) + 1)
    have hmul := Int.mul_le_mul_of_nonneg_right hle hstep.le
    rw [Int.add_mul,Int.one_mul,Int.mul_comm ((ms' - ms) / _)] at hmul
    omega
  · intro k hk
    obtain ⟨hone,hpast⟩ := hk
    refine Int.max_le.mpr ⟨hone,?_⟩
    by_contra hlt
    have hle : k ≤ (ms' - ms) / (periodMinutes period * MINUTE) := by omega
    have hmul := Int.mul_le_mul_of_nonneg_right hle hstep.le
    rw [Int.mul_comm ((ms' - ms) / _)] at hmul
    omega

def Counts (column : Text) (value : ℤ) : Prop :=
  trim column = [] ∧ value = 0 ∨
    trim column ≠ [] ∧ Decimal.Digits (trim column) ∧ (Decimal.numeral (trim column) : ℤ) = value

structure Written (row : Columns) (schedule : Schedule) : Prop where
  sdlstrtdt : trim row.sdlstrtdt = schedule.start.take 8
  sdlstrttm : trim row.sdlstrttm = schedule.start.drop 8
  laststrtdt : trim row.laststrtdt = schedule.last.take 8
  laststrttm : trim row.laststrttm = schedule.last.drop 8
  prdmins : Counts row.prdmins schedule.period.mins
  prdhours : Counts row.prdhours schedule.period.hours
  prddays : Counts row.prddays schedule.period.days
  prdweeks : Counts row.prdweeks schedule.period.weeks

theorem periodNumber_counts {column : Text} {value : ℤ} (name : String) (h : Counts column value) :
    periodNumber name column = .ok value := by
  unfold periodNumber
  rcases h with ⟨hblank,rfl⟩ | ⟨hdigits,hall,hvalue⟩
  · rw [if_pos hblank]
    rfl
  · rw [if_neg hdigits]
    dsimp only
    rw [if_pos (List.all_eq_true.mpr hall),hvalue]

theorem scheduleOfOutbox_written {row : Columns} (h : Accepted schedule) (hrow : Written row schedule) :
    scheduleOfOutbox row = .ok (some schedule) := by
  obtain ⟨start,hstart⟩ := Option.isSome_iff_exists.mp h.start
  have hne : trim row.sdlstrtdt ≠ [] := by
    rw [hrow.sdlstrtdt]
    obtain ⟨-,-,y,m,d,second,hmoment,-,hdigits,-⟩ := stampMs_some hstart
    have hlength := length_digits hmoment
    rw [← hdigits] at hlength
    intro hnil
    have htake := congrArg List.length hnil
    rw [List.length_take,hlength] at htake
    cases htake
  unfold scheduleOfOutbox
  rw [if_neg,periodNumber_counts _ hrow.prdmins,periodNumber_counts _ hrow.prdhours,
    periodNumber_counts _ hrow.prddays,periodNumber_counts _ hrow.prdweeks,hrow.sdlstrtdt,hrow.sdlstrttm,
    hrow.laststrtdt,hrow.laststrttm,List.take_append_drop,List.take_append_drop]
  · exact congrArg (Except.map some) (checkSchedule_iff.mpr h)
  · intro hall
    rw [List.all_cons,Bool.and_eq_true,decide_eq_true_eq] at hall
    exact hne hall.1

theorem schedule_arithmetic :
    (∀ s ms, stampMs s = some ms → msStamp ms = some s) ∧
    (∀ s s' ms ms', stampMs s = some ms → stampMs s' = some ms' → ((s < s' ↔ ms < ms') ∧ (s = s' ↔ ms = ms'))) ∧
    (∀ start now startMs nowMs period, stampMs start = some startMs → stampMs now = some nowMs →
      0 < periodMinutes period → ∃ k, periodsToFuture start period now = .ok k ∧
        IsLeast {k : ℤ | 1 ≤ k ∧ nowMs < startMs + k * (periodMinutes period * MINUTE)} k) ∧
    (∀ schedule (j k : ℤ), checkSchedule schedule = .ok schedule → 0 < periodMinutes schedule.period → 0 < j →
      0 < k → Ends schedule (periodMinutes schedule.period * MINUTE * (j + k)) →
      ∃ between later, nextSchedule schedule j = .ok between ∧ nextSchedule between k = .ok later ∧
        nextSchedule schedule (j + k) = .ok later ∧ checkSchedule later = .ok later ∧
        (later.last = [] ↔ schedule.last = []) ∧ ∀ start last, stampMs schedule.start = some start →
          stampMs schedule.last = some last → ∃ start' last', stampMs later.start = some start' ∧
            stampMs later.last = some last' ∧ last' - start' = last - start) ∧
    ∀ schedule row, checkSchedule schedule = .ok schedule → Written row schedule →
      scheduleOfOutbox row = .ok (some schedule) := by
  refine ⟨fun s ms h => (stampMs_some h).1,fun s s' ms ms' h h' => ⟨stamp_lt h h',?_⟩,
    fun start now startMs nowMs period h h' hperiod => periodsToFuture_least h h' hperiod,?_,
    fun schedule row h hrow => scheduleOfOutbox_written (checkSchedule_iff.mp h) hrow⟩
  · refine ⟨fun heq => ?_,fun heq => ?_⟩
    · rw [heq,h'] at h
      exact (Option.some.inj h).symm
    · rw [heq] at h
      exact stampMs_inj h h'
  · intro schedule j k h hperiod hj hk hend
    have haccepted := checkSchedule_iff.mp h
    have hunit : 0 < periodMinutes schedule.period * MINUTE := Int.mul_pos hperiod (by decide)
    have hjs := Int.mul_pos hunit hj
    have hks := Int.mul_pos hunit hk
    rw [Int.mul_add] at hend
    obtain ⟨between,hbetween,hb,hlater⟩ := nextSchedule_spec haccepted hjs
      ⟨fun ms hms => by have := hend.1 ms hms; omega,fun ms hms => by have := hend.2 ms hms; omega⟩
    have hks' := hks
    rw [← hlater.period] at hks'
    have hends : Ends between (periodMinutes between.period * MINUTE * k) := by
      rw [hlater.period]
      constructor
      · intro ms hms
        obtain ⟨start,hstart⟩ := Option.isSome_iff_exists.mp haccepted.start
        rw [hlater.start start hstart] at hms
        have := hend.1 start hstart
        cases hms
        omega
      · intro ms hms
        rcases hlater.last with ⟨-,hnil⟩ | ⟨hne,-,hlast⟩
        · rw [hnil] at hms
          cases hms
        · obtain ⟨last,hl⟩ := Option.isSome_iff_exists.mp (haccepted.last hne).1
          rw [hlast last hl] at hms
          have := hend.2 last hl
          cases hms
          omega
    obtain ⟨later,hlater',haccepted',hnext⟩ := nextSchedule_spec hb hks' hends
    rw [hlater.period] at hnext
    have hboth := hlater.trans hnext
    obtain ⟨direct,hdirect,-,hd⟩ := @nextSchedule_spec schedule (j + k) haccepted
      (by rw [Int.mul_add]; omega) (by rw [Int.mul_add]; exact hend)
    rw [Int.mul_add] at hd
    have hsame := hd.unique haccepted hboth
    subst hsame
    refine ⟨between,direct,hbetween,hlater',hdirect,checkSchedule_iff.mpr haccepted',?_,?_⟩
    · rcases hboth.last with ⟨hnil,hnil'⟩ | ⟨hne,hne',-⟩
      · exact iff_of_true hnil' hnil
      · exact iff_of_false hne' hne
    · intro start last hstart hlast
      rcases hboth.last with ⟨hnil,-⟩ | ⟨-,-,hl⟩
      · exact absurd hnil (stampMs_ne_nil hlast)
      · exact ⟨_,_,hboth.start start hstart,hl last hlast,by omega⟩

theorem schedule_arithmetic_slot : ∃ k, periodsToFuture "20261001224501".toList ⟨2,0,0,0⟩
    "20261001225000".toList = .ok k ∧
      IsLeast {k : ℤ | 1 ≤ k ∧ 1790895000000 < 1790894701000 + k * (periodMinutes ⟨2,0,0,0⟩ * MINUTE)} k :=
  schedule_arithmetic.2.2.1 _ _ 1790894701000 1790895000000 ⟨2,0,0,0⟩ (by decide) (by decide) (by decide)

end schedules

end OpenSteamgate.JobSchedule
