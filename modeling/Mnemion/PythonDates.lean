/-
  Mnemion/PythonDates.lean
  ========================
  **Dates and their ISO 8601 texts** (`datetime.isoformat` and `fromisoformat`).  A time
  counts microseconds from the day before 0001-01-01, as the ordinals of `date` do.

  What `isoformat` writes at any offset from UTC reads back (`readIso_isoformatAt`).
-/
import Mnemion.PythonStrings
import Mathlib.Data.List.GetD
import Mathlib.Tactic.IntervalCases

namespace PythonText

/-! ### The calendar -/

def leapYear (year : Nat) : Bool := year % 4 = 0 && (year % 100 ≠ 0 || year % 400 = 0)

/-- The lengths of the months. -/
def monthDays (leap : Bool) : List Nat :=
  [31, if leap then 29 else 28, 31, 30, 31, 30, 31, 31, 30, 31, 30, 31]

/-- `_days_before_year` -/
def daysBeforeYear (year : Nat) : Nat :=
  let y := year - 1
  y * 365 + y / 4 - y / 100 + y / 400

/-- `_ymd2ord`, for a date that exists. -/
def ordinalOf (year month day : Nat) : Option Nat :=
  let days := monthDays (leapYear year)
  if 1 ≤ year ∧ year ≤ 9999 ∧ 1 ≤ month ∧ month ≤ 12 ∧ 1 ≤ day ∧ day ≤ days.getD (month - 1) 0 then
    some (daysBeforeYear year + (days.take (month - 1)).sum + day)
  else none

/-- A day of the year is its month's first days and the day of the month. -/
theorem monthDay_spec (lengths : List Nat) :
    ∀ {month n : Nat}, n < lengths.sum → ∃ i, (monthDay lengths month n).1 = month + i ∧
      i < lengths.length ∧ 1 ≤ (monthDay lengths month n).2 ∧
        (monthDay lengths month n).2 ≤ lengths.getD i 0 ∧
        (lengths.take i).sum + (monthDay lengths month n).2 = n + 1 := by
  induction lengths with
  | nil =>
    intro month n hn
    rw [List.sum_nil] at hn
    omega
  | cons length lengths ih =>
    intro month n hn
    rw [List.sum_cons] at hn
    unfold monthDay
    by_cases hfirst : n < length
    · rw [if_pos hfirst]
      exact ⟨0, rfl, by simp, by simp, by simpa using Nat.succ_le_of_lt hfirst, by simp⟩
    · rw [if_neg hfirst]
      obtain ⟨i, hmonth, hi, hpos, hday, hsum⟩ := @ih (month + 1) (n - length) (by omega)
      refine ⟨i + 1, by omega, by simpa using hi, hpos, ?_, ?_⟩
      · rw [List.getD_cons_succ]
        exact hday
      · rw [List.take_succ_cons, List.sum_cons]
        omega

theorem monthDays_sum (leap : Bool) : (monthDays leap).sum = if leap then 366 else 365 := by
  cases leap <;> rfl

/-- The days before a year, by the cycles its predecessors fill. -/
theorem daysBeforeYear_cycles {a b c d : Nat} (hb : b ≤ 3) (hc : c ≤ 24) (hd : d ≤ 3) :
    daysBeforeYear (a * 400 + b * 100 + c * 4 + d + 1) =
      a * 146097 + b * 36524 + c * 1461 + d * 365 := by
  have h4 : (a * 400 + b * 100 + c * 4 + d) / 4 = a * 100 + b * 25 + c := by omega
  have h100 : (a * 400 + b * 100 + c * 4 + d) / 100 = a * 4 + b := by omega
  have h400 : (a * 400 + b * 100 + c * 4 + d) / 400 = a := by omega
  rw [daysBeforeYear, Nat.add_sub_cancel, h4, h100, h400]
  omega

/-- **A date reads back as its ordinal.** -/
theorem ordinalOf_dateOf {ordinal : Nat} (hpos : 1 ≤ ordinal) (hmax : ordinal ≤ MAX_ORDINAL) :
    ordinalOf (dateOf ordinal).1 (dateOf ordinal).2.1 (dateOf ordinal).2.2 = some ordinal := by
  unfold MAX_ORDINAL at hmax
  obtain ⟨n, rfl⟩ : ∃ n, ordinal = n + 1 := ⟨ordinal - 1, by omega⟩
  rw [dateOf]
  dsimp only
  rw [Nat.add_sub_cancel]
  -- the cycles of 400, 100 and 4 years and the year in the last one
  obtain ⟨a, ha⟩ : ∃ a, a = n / 146097 := ⟨_, rfl⟩
  obtain ⟨b, hb⟩ : ∃ b, b = n % 146097 / 36524 := ⟨_, rfl⟩
  obtain ⟨c, hc⟩ : ∃ c, c = n % 146097 % 36524 / 1461 := ⟨_, rfl⟩
  obtain ⟨d, hd⟩ : ∃ d, d = n % 146097 % 36524 % 1461 / 365 := ⟨_, rfl⟩
  obtain ⟨e, he⟩ : ∃ e, e = n % 146097 % 36524 % 1461 % 365 := ⟨_, rfl⟩
  rw [← ha, ← hb, ← hc, ← hd, ← he]
  have hn : n = a * 146097 + b * 36524 + c * 1461 + d * 365 + e := by omega
  have hbounds : a ≤ 24 ∧ b ≤ 4 ∧ c ≤ 24 ∧ d ≤ 4 ∧ e < 365 := by omega
  have hb4 : b = 4 → c = 0 ∧ d = 0 ∧ e = 0 := by omega
  have hd4 : d = 4 → e = 0 ∧ c ≤ 23 := by omega
  clear ha hb hc hd he
  by_cases hlast : d = 4 ∨ b = 4
  · -- the last day of a leap year
    rw [if_pos hlast]
    dsimp only
    have hyear : a * 400 + 1 + b * 100 + c * 4 + d - 1 = a * 400 + b * 100 + c * 4 + d := by omega
    rw [hyear]
    have hleap : leapYear (a * 400 + b * 100 + c * 4 + d) = true := by
      rw [leapYear]
      simp only [Bool.and_eq_true, Bool.or_eq_true, decide_eq_true_eq]
      omega
    have hbefore : daysBeforeYear (a * 400 + b * 100 + c * 4 + d) + 366 = n + 1 := by
      rcases hlast with rfl | rfl
      · obtain ⟨rfl, hc⟩ := hd4 rfl
        have hcycles := @daysBeforeYear_cycles a b c 3 (by omega) (by omega) (le_refl _)
        rw [show a * 400 + b * 100 + c * 4 + 4 = a * 400 + b * 100 + c * 4 + 3 + 1 by omega, hcycles]
        omega
      · obtain ⟨rfl, rfl, rfl⟩ := hb4 rfl
        have hcycles := @daysBeforeYear_cycles a 3 24 3 (by omega) (by omega) (le_refl _)
        rw [show a * 400 + 4 * 100 + 0 * 4 + 0 = a * 400 + 3 * 100 + 24 * 4 + 3 + 1 by omega, hcycles]
        omega
    rw [ordinalOf, hleap, if_pos (by simp [monthDays]; omega), Option.some_inj, ← hbefore]
    rfl
  · rw [if_neg hlast]
    dsimp only
    have hyear : a * 400 + 1 + b * 100 + c * 4 + d = a * 400 + b * 100 + c * 4 + d + 1 := by omega
    rw [hyear]
    obtain ⟨leap, hleap⟩ : ∃ leap, leap = leapYear (a * 400 + b * 100 + c * 4 + d + 1) := ⟨_, rfl⟩
    have hsame : decide (d = 3 ∧ (c ≠ 24 ∨ b = 3)) = leap := by
      rw [hleap, leapYear, Bool.eq_iff_iff]
      simp only [Bool.and_eq_true, Bool.or_eq_true, decide_eq_true_eq]
      omega
    have hlengths : [31, if d = 3 ∧ (c ≠ 24 ∨ b = 3) then 29 else 28, 31, 30, 31, 30, 31, 31, 30, 31,
        30, 31] = monthDays leap := by
      rw [monthDays, ← hsame]
      simp only [decide_eq_true_eq]
    have hbefore : daysBeforeYear (a * 400 + b * 100 + c * 4 + d + 1) + e = n := by
      rw [daysBeforeYear_cycles (by omega) (by omega) (by omega)]
      exact hn.symm
    rw [hlengths]
    obtain ⟨i, hmonth, hi, hday, hlength, hsum⟩ := @monthDay_spec (monthDays leap) 1 e (by
      rw [monthDays_sum]
      split <;> omega)
    have hcount : (monthDays leap).length = 12 := rfl
    rw [ordinalOf, ← hleap, hmonth, Nat.add_sub_cancel_left,
      if_pos ⟨by omega, by omega, by omega, by omega, hday, hlength⟩, Option.some_inj]
    omega

/-- The parts of a date have as many digits as `isoformat` gives them. -/
theorem dateOf_lt {ordinal : Nat} (hpos : 1 ≤ ordinal) (hmax : ordinal ≤ MAX_ORDINAL) :
    (dateOf ordinal).1 < 10 ^ 4 ∧ (dateOf ordinal).2.1 < 10 ^ 2 ∧ (dateOf ordinal).2.2 < 10 ^ 2 := by
  have hordinal := ordinalOf_dateOf hpos hmax
  rw [ordinalOf] at hordinal
  split at hordinal
  · rename_i hexists
    obtain ⟨-, hyear, -, hmonth, -, hday⟩ := hexists
    have hlong : ∀ leap i, (monthDays leap).getD i 0 ≤ 31 := by
      intro leap i
      by_cases hi : i < 12
      · interval_cases i <;> cases leap <;> decide
      · rw [List.getD_eq_default _ _ (not_lt.mp hi)]
        decide
    have := hlong (leapYear (dateOf ordinal).1) ((dateOf ordinal).2.1 - 1)
    omega
  · cases hordinal

/-! ### ISO 8601 texts -/

/-- The date and the clock of `isoformat`. -/
def isoClock (clock : Nat) : List Char :=
  let (year, month, day) := dateOf (clock / 86400000000)
  let time := clock % 86400000000
  let seconds := time / 1000000
  let fraction := time % 1000000
  pad 4 year ++ '-' :: (pad 2 month ++ '-' :: (pad 2 day ++ 'T' :: (pad 2 (seconds / 3600) ++
    ':' :: (pad 2 (seconds / 60 % 60) ++ ':' :: (pad 2 (seconds % 60) ++
      (if fraction = 0 then [] else '.' :: pad 6 fraction))))))

/-- The offset in seconds, as `isoformat` ends with it. -/
def isoZone (offset : Int) : List Char :=
  let n := offset.natAbs
  (if offset < 0 then '-' else '+') :: (pad 2 (n / 3600) ++ ':' :: (pad 2 (n / 60 % 60) ++
    (if n % 60 = 0 then [] else ':' :: pad 2 (n % 60))))

/-- `isoformat` of a clock that is `offset` seconds ahead of UTC. -/
def isoformatAt (clock : Nat) (offset : Int) : List Char := isoClock clock ++ isoZone offset

/-- Exactly `width` ASCII digits. -/
def readDigits (width : Nat) (text : List Char) : Option (Nat × List Char) :=
  if (text.take width).length = width ∧ (text.take width).all Char.isDigit = true then
    some (Nat.ofDigitChars 10 (text.take width) 0, text.drop width)
  else none

def readMark (mark : Char) : List Char → Option (List Char)
  | [] => none
  | c :: rest => if c = mark then some rest else none

/-- `YYYY-MM-DD` of a day that exists. -/
def readDate (text : List Char) : Option (Nat × List Char) := do
  let (year, text) ← readDigits 4 text
  let text ← readMark '-' text
  let (month, text) ← readDigits 2 text
  let text ← readMark '-' text
  let (day, text) ← readDigits 2 text
  let ordinal ← ordinalOf year month day
  return (ordinal, text)

/-- The fraction of a second, in microseconds: up to six digits behind a point. -/
def readFraction : List Char → Option (Nat × List Char)
  | '.' :: text =>
    let digits := text.takeWhile Char.isDigit
    if 1 ≤ digits.length ∧ digits.length ≤ 6 then
      some (Nat.ofDigitChars 10 digits 0 * 10 ^ (6 - digits.length), text.drop digits.length)
    else none
  | text => some (0, text)

/-- `:SS` and a fraction, or neither. -/
def readSeconds : List Char → Option (Nat × Nat × List Char)
  | ':' :: text => do
    let (second, text) ← readDigits 2 text
    let (fraction, text) ← readFraction text
    return (second, fraction, text)
  | text => some (0, 0, text)

/-- `HH:MM[:SS[.ffffff]]` in microseconds. -/
def readClock (text : List Char) : Option (Nat × List Char) := do
  let (hour, text) ← readDigits 2 text
  let text ← readMark ':' text
  let (minute, text) ← readDigits 2 text
  let (second, fraction, text) ← readSeconds text
  if hour < 24 ∧ minute < 60 ∧ second < 60 then
    return (((hour * 60 + minute) * 60 + second) * 1000000 + fraction, text)
  else none

/-- The seconds of an offset, or none. -/
def readZoneSeconds : List Char → Option Nat
  | [] => some 0
  | ':' :: text => do
    let (second, text) ← readDigits 2 text
    if text = [] then return second else none
  | _ => none

/-- `Z` or `±HH:MM[:SS]`, in seconds. -/
def readZone : List Char → Option Int
  | ['Z'] => some 0
  | sign :: text => do
    let (hour, text) ← readDigits 2 text
    let text ← readMark ':' text
    let (minute, text) ← readDigits 2 text
    let second ← readZoneSeconds text
    let offset : Int := ((hour * 60 + minute) * 60 + second : Nat)
    if hour < 24 ∧ minute < 60 ∧ second < 60 then
      if sign = '+' then return offset else if sign = '-' then return -offset else none
    else none
  | [] => none

/-- The extended format with an offset: the clock and how far it is ahead of UTC. -/
def readIso (text : List Char) : Option (Nat × Int) := do
  let (ordinal, text) ← readDate text
  let (time, text) ← readClock (text.drop 1)
  let offset ← readZone text
  return (ordinal * 86400000000 + time, offset)

example : readIso "2024-01-01T12:34:56.000007+05:30".toList =
    some (738886 * 86400000000 + 45296000007, 19800) := by decide +kernel

/-! ### Reading back -/

theorem isDigit_pad {width n : Nat} : ∀ c ∈ pad width n, c.isDigit = true := by
  intro c hc
  rcases List.mem_append.mp hc with hc | hc
  · rw [List.eq_of_mem_replicate hc]
    rfl
  · exact Nat.isDigit_of_mem_toDigits (by decide) (by decide) hc

theorem ofDigitChars_pad (width n : Nat) : Nat.ofDigitChars 10 (pad width n) 0 = n := by
  rw [pad, Nat.ofDigitChars_append, Nat.ofDigitChars_replicate_zero, Nat.mul_zero]
  exact Nat.ofDigitChars_ten_toDigits

theorem readDigits_pad {width n : Nat} (hwidth : 0 < width) (h : n < 10 ^ width) (rest : List Char) :
    readDigits width (pad width n ++ rest) = some (n, rest) := by
  have hlength : (pad width n).length = width := length_pad (length_dumpNat_le hwidth h)
  rw [readDigits, List.take_left' hlength, List.drop_left' hlength, ofDigitChars_pad,
    if_pos ⟨hlength, List.all_eq_true.mpr isDigit_pad⟩]

theorem readMark_self (mark : Char) (rest : List Char) : readMark mark (mark :: rest) = some rest :=
  if_pos rfl

theorem isoZone_head (offset : Int) : ∃ sign rest, isoZone offset = sign :: rest ∧
    sign.isDigit = false ∧ sign ≠ '.' ∧ sign ≠ ':' := by
  rw [isoZone]
  by_cases h : offset < 0
  · rw [if_pos h]
    exact ⟨'-', _, rfl, by decide, by decide, by decide⟩
  · rw [if_neg h]
    exact ⟨'+', _, rfl, by decide, by decide, by decide⟩

theorem readZone_isoZone {offset : Int} (h : offset.natAbs < 86400) :
    readZone (isoZone offset) = some offset := by
  have hread : ∀ sign : Char, ∀ m : Nat, m < 86400 →
      readZone (sign :: (pad 2 (m / 3600) ++ ':' :: (pad 2 (m / 60 % 60) ++
        (if m % 60 = 0 then [] else ':' :: pad 2 (m % 60))))) =
      if sign = '+' then some (m : Int) else if sign = '-' then some (-(m : Int)) else none := by
    intro sign m hm
    have hsecond : readZoneSeconds (if m % 60 = 0 then [] else ':' :: pad 2 (m % 60)) =
        some (m % 60) := by
      by_cases hzero : m % 60 = 0
      · rw [if_pos hzero, hzero, readZoneSeconds]
      · have hpad := @readDigits_pad 2 (m % 60) (by decide) (by omega) []
        rw [List.append_nil] at hpad
        rw [if_neg hzero, readZoneSeconds]
        simp only [hpad, Option.bind_eq_bind, Option.bind_some, if_true]
        rfl
    have hne : pad 2 (m / 3600) ++ ':' :: (pad 2 (m / 60 % 60) ++
        (if m % 60 = 0 then [] else ':' :: pad 2 (m % 60))) ≠ [] := by simp
    rw [readZone]
    · simp only [readDigits_pad (show 0 < 2 by decide) (show m / 3600 < 10 ^ 2 by omega),
        readDigits_pad (show 0 < 2 by decide) (show m / 60 % 60 < 10 ^ 2 by omega), readMark_self,
        hsecond, Option.bind_eq_bind, Option.bind_some]
      have hvalue : (m / 3600 * 60 + m / 60 % 60) * 60 + m % 60 = m := by omega
      rw [if_pos ⟨by omega, by omega, by omega⟩, hvalue]
      rfl
    · intro _ hnil
      exact hne hnil
  rw [isoZone, hread _ _ h]
  by_cases hneg : offset < 0
  · rw [if_pos hneg, if_neg (by decide), if_pos rfl, Option.some_inj]
    omega
  · rw [if_neg hneg, if_pos rfl, Option.some_inj]
    omega

theorem readSeconds_iso {second fraction : Nat} (hsecond : second < 60) (hfraction : fraction < 1000000)
    (offset : Int) : readSeconds (':' :: (pad 2 second ++
      ((if fraction = 0 then [] else '.' :: pad 6 fraction) ++ isoZone offset))) =
        some (second, fraction, isoZone offset) := by
  obtain ⟨sign, rest, hzone, hdigit, hpoint, -⟩ := isoZone_head offset
  have hread : readFraction ((if fraction = 0 then [] else '.' :: pad 6 fraction) ++ isoZone offset) =
      some (fraction, isoZone offset) := by
    rw [hzone]
    by_cases hzero : fraction = 0
    · rw [if_pos hzero, hzero, List.nil_append, readFraction]
      intro text hcons
      exact hpoint (List.cons.inj hcons).1
    · have hdigits := @readDigits_pad 6 fraction (by decide) (by omega) (sign :: rest)
      have hlength : (pad 6 fraction).length = 6 :=
        length_pad (length_dumpNat_le (by decide) (by omega))
      have hwhile : (pad 6 fraction ++ sign :: rest).takeWhile Char.isDigit = pad 6 fraction := by
        rw [List.takeWhile_append_of_pos isDigit_pad, List.takeWhile_cons_of_neg (by rw [hdigit]; decide),
          List.append_nil]
      rw [if_neg hzero, List.cons_append, readFraction]
      simp only [hwhile, hlength, ofDigitChars_pad]
      rw [if_pos (by decide), Nat.sub_self, Nat.pow_zero, Nat.mul_one, List.drop_left' hlength]
  rw [readSeconds]
  simp only [readDigits_pad (show 0 < 2 by decide) (show second < 10 ^ 2 by omega), hread,
    Option.bind_eq_bind, Option.bind_some]
  rfl

/-- **What `isoformat` writes reads back**: the same clock at the same offset. -/
theorem readIso_isoformatAt {clock : Nat} {offset : Int} (hpos : 1 ≤ clock / 86400000000)
    (hmax : clock / 86400000000 ≤ MAX_ORDINAL) (hoffset : offset.natAbs < 86400) :
    readIso (isoformatAt clock offset) = some (clock, offset) := by
  have hdate := dateOf_lt hpos hmax
  have hordinal := ordinalOf_dateOf hpos hmax
  generalize hdateOf : dateOf (clock / 86400000000) = date at *
  obtain ⟨year, month, day⟩ := date
  have hseconds := @readSeconds_iso (clock % 86400000000 / 1000000 % 60)
    (clock % 86400000000 % 1000000) (by omega) (by omega) offset
  rw [readIso, isoformatAt, isoClock, hdateOf]
  simp only [List.append_assoc, List.cons_append] at hseconds ⊢
  simp only [readDate, readClock, readDigits_pad (show 0 < 4 by decide) hdate.1,
    readDigits_pad (show 0 < 2 by decide) hdate.2.1, readDigits_pad (show 0 < 2 by decide) hdate.2.2,
    readDigits_pad (show 0 < 2 by decide)
      (show clock % 86400000000 / 1000000 / 3600 < 10 ^ 2 by omega),
    readDigits_pad (show 0 < 2 by decide)
      (show clock % 86400000000 / 1000000 / 60 % 60 < 10 ^ 2 by omega),
    readMark_self, hordinal, hseconds, List.drop_succ_cons, List.drop_zero, Option.bind_eq_bind,
    Option.bind_some, Option.pure_def]
  rw [if_pos ⟨by omega, by omega, by omega⟩]
  simp only [Option.bind_some, readZone_isoZone hoffset, Option.some_inj, Prod.mk.injEq, and_true]
  omega

theorem length_isoformatAt_le {clock : Nat} {offset : Int} (hpos : 1 ≤ clock / 86400000000)
    (hmax : clock / 86400000000 ≤ MAX_ORDINAL) (hoffset : offset.natAbs < 86400) :
    (isoformatAt clock offset).length ≤ 40 := by
  have hpad : ∀ {width n : Nat}, 0 < width → n < 10 ^ width → (pad width n).length = width :=
    fun hwidth hn => length_pad (length_dumpNat_le hwidth hn)
  obtain ⟨hyear, hmonth, hday⟩ := dateOf_lt hpos hmax
  have hzone : (isoZone offset).length ≤ 9 := by
    rw [isoZone]
    have h1 := @hpad 2 (offset.natAbs / 3600) (by decide) (by omega)
    have h2 := @hpad 2 (offset.natAbs / 60 % 60) (by decide) (by omega)
    have h3 := @hpad 2 (offset.natAbs % 60) (by decide) (by omega)
    simp only [List.length_cons, List.length_append, h1, h2]
    split
    · simp
    · simp [h3]
  have h1 := hpad (by decide) hyear
  have h2 := hpad (by decide) hmonth
  have h3 := hpad (by decide) hday
  have h4 := @hpad 2 (clock % 86400000000 / 1000000 / 3600) (by decide) (by omega)
  have h5 := @hpad 2 (clock % 86400000000 / 1000000 / 60 % 60) (by decide) (by omega)
  have h6 := @hpad 2 (clock % 86400000000 / 1000000 % 60) (by decide) (by omega)
  have h7 := @hpad 6 (clock % 86400000000 % 1000000) (by decide) (by omega)
  have hclock : (isoClock clock).length ≤ 26 := by
    rw [isoClock]
    generalize dateOf (clock / 86400000000) = date at *
    obtain ⟨year, month, day⟩ := date
    simp only [List.length_cons, List.length_append] at *
    split
    · simp only [List.length_nil]
      omega
    · simp only [List.length_cons]
      omega
  rw [isoformatAt, List.length_append]
  omega

/-- At UTC it is the `isoformat` of a UTC time. -/
theorem isoformatAt_utc (clock : Nat) : isoformatAt clock 0 = isoformat clock := by
  have hzone : isoZone 0 = "+00:00".toList := by decide
  rw [isoformatAt, isoClock, isoformat, hzone]
  simp only [List.append_assoc, List.cons_append]

end PythonText
