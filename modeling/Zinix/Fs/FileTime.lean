import Zinix.Lib.Checked

/-!
# The times of files

`fill_stat` turns the dates of a FAT directory into seconds as if every year had 365 days
and every month 30. A month of 31 days then reaches into the next one by a day.
-/

namespace Zinix

variable {d : Date}

structure Date where
  year : ℕ
  month : ℕ
  day : ℕ
  deriving DecidableEq

structure Time where
  hour : ℕ
  min : ℕ
  sec : ℕ
  millis : ℕ
  deriving DecidableEq

structure DateTime where
  date : Date
  time : Time
  deriving DecidableEq

def MIN_YEAR : ℕ := 1980

def MAX_YEAR : ℕ := 2107

-- The masks and shifts of the 16-bit words are written as remainders and quotients.
def Date.decode (dosDate : BitVec 16) : Date :=
  ⟨dosDate.toNat / 2 ^ 9 + MIN_YEAR, dosDate.toNat / 2 ^ 5 % 2 ^ 4, dosDate.toNat % 2 ^ 5⟩

def Time.decode (dosTime : BitVec 16) (dosTimeHiRes : BitVec 8) : Time :=
  ⟨dosTime.toNat / 2 ^ 11, dosTime.toNat / 2 ^ 5 % 2 ^ 6,
    dosTime.toNat % 2 ^ 5 * 2 + dosTimeHiRes.toNat / 100, dosTimeHiRes.toNat % 100 * 10⟩

def DateTime.decode (dosDate dosTime : BitVec 16) (dosTimeHiRes : BitVec 8) : DateTime :=
  ⟨Date.decode dosDate, Time.decode dosTime dosTimeHiRes⟩

/-- The fields of an entry of a directory that hold times. -/
structure DirFileEntryData where
  createTime0 : BitVec 8
  createTime1 : BitVec 16
  createDate : BitVec 16
  accessDate : BitVec 16
  modifyTime : BitVec 16
  modifyDate : BitVec 16
  deriving DecidableEq

namespace DirFileEntryData

variable (entry : DirFileEntryData)

def created : DateTime :=
  DateTime.decode entry.createDate entry.createTime1 entry.createTime0

def accessed : Date := Date.decode entry.accessDate

def modified : DateTime := DateTime.decode entry.modifyDate entry.modifyTime 0

end DirFileEntryData

def D_SECOND : ℕ := 3600 * 24

def M_SECOND : ℕ := D_SECOND * 30

def Y_SECOND : ℕ := D_SECOND * 365

def date2second (d : Date) : Checked ℕ := do
  let y ← subUsize d.year 1970
  let m ← subUsize d.month 1
  let d ← subUsize d.day 1
  let ys ← mulUsize y Y_SECOND
  let ms ← mulUsize m M_SECOND
  let yms ← addUsize ys ms
  let ds ← mulUsize d D_SECOND
  addUsize yms ds

def datetime2second (d : DateTime) : Checked ℕ := do
  let datesecond ← date2second d.date
  let hours ← mulUsize d.time.hour 3600
  let mins ← mulUsize d.time.min 60
  let hm ← addUsize hours mins
  let timesecond ← addUsize hm d.time.sec
  addUsize datesecond timesecond

/-- The conversion `as i64`. -/
def asI64 (n : ℕ) : ℤ := (BitVec.ofNat 64 n).toInt

/-- The times that `fill_stat` gives to `fill_info`. -/
structure StatTimes where
  stAtime : ℤ
  stMtime : ℤ
  stCtime : ℤ
  deriving DecidableEq

def DirFileEntryData.statTimes (entry : DirFileEntryData) : Checked StatTimes := do
  let atime ← date2second entry.accessed
  let mtime ← datetime2second entry.modified
  let ctime ← datetime2second entry.created
  return ⟨asI64 atime, asI64 mtime, asI64 ctime⟩

def isLeap (year : ℕ) : Bool := year % 4 == 0 && (year % 100 != 0 || year % 400 == 0)

def daysIn (year month : ℕ) : ℕ :=
  if month = 2 then
    if isLeap year then 29 else 28
  else if month = 4 ∨ month = 6 ∨ month = 9 ∨ month = 11 then 30
  else 31

theorem daysIn_le (year month : ℕ) : daysIn year month ≤ 31 := by
  unfold daysIn
  split_ifs <;> omega

@[mk_iff] structure Date.Valid (d : Date) : Prop where
  year : MIN_YEAR ≤ d.year ∧ d.year ≤ MAX_YEAR
  month : 1 ≤ d.month ∧ d.month ≤ 12
  day : 1 ≤ d.day ∧ d.day ≤ daysIn d.year d.month

@[mk_iff] structure Time.Valid (t : Time) : Prop where
  hour : t.hour ≤ 23
  min : t.min ≤ 59
  sec : t.sec ≤ 59
  millis : t.millis ≤ 999

@[mk_iff] structure DateTime.Valid (d : DateTime) : Prop where
  date : d.date.Valid
  time : d.time.Valid

instance (d : Date) : Decidable d.Valid := decidable_of_iff _ d.valid_iff.symm

instance (t : Time) : Decidable t.Valid := decidable_of_iff _ t.valid_iff.symm

instance (d : DateTime) : Decidable d.Valid := decidable_of_iff _ d.valid_iff.symm

def Time.clock (t : Time) : ℕ := t.hour * 3600 + t.min * 60 + t.sec

theorem Time.Valid.clock_lt {t : Time} (h : t.Valid) : t.clock < D_SECOND := by
  have hhour := h.hour
  have hmin := h.min
  have hsec := h.sec
  simp only [clock, D_SECOND]
  omega

/-- The days since 1970, with months of 30 days and years of 365. -/
def Date.days (d : Date) : ℕ := (d.year - 1970) * 365 + (d.month - 1) * 30 + (d.day - 1)

theorem Date.Valid.days_lt (h : d.Valid) : d.days < 2 ^ 16 := by
  have hyear := h.year
  have hmonth := h.month
  have hday := h.day
  have hle := daysIn_le d.year d.month
  simp only [MIN_YEAR, MAX_YEAR] at hyear
  rw [days]
  omega

theorem days_mul (y m d : ℕ) :
    (y * 365 + m * 30 + d) * D_SECOND = y * Y_SECOND + m * M_SECOND + d * D_SECOND := by
  unfold Y_SECOND M_SECOND
  ring

def Date.Dated (d : Date) : Prop := 1 ≤ d.month ∧ 1 ≤ d.day

instance (d : Date) : Decidable d.Dated := inferInstanceAs (Decidable (_ ∧ _))

theorem Date.Valid.dated (h : d.Valid) : d.Dated := ⟨h.month.1, h.day.1⟩

theorem date2second_eq (hyear : MIN_YEAR ≤ d.year) (hdated : d.Dated) (hdays : d.days < 2 ^ 16) :
    date2second d = .ok (d.days * D_SECOND) := by
  have hyear : 1970 ≤ d.year := by
    rw [MIN_YEAR] at hyear
    omega
  have hfit : d.days * D_SECOND < wordSize :=
    (Nat.mul_lt_mul_of_pos_right hdays (by decide)).trans (by decide)
  rw [Date.days, days_mul] at hfit ⊢
  rw [date2second, subUsize_ok hyear, Checked.ok_bind, subUsize_ok hdated.1, Checked.ok_bind,
    subUsize_ok hdated.2, Checked.ok_bind, mulUsize_ok (by omega), Checked.ok_bind,
    mulUsize_ok (by omega), Checked.ok_bind, addUsize_ok (by omega), Checked.ok_bind,
    mulUsize_ok (by omega), Checked.ok_bind, addUsize_ok hfit]

theorem dated_of_date2second {s : ℕ} (h : date2second d = .ok s) : d.Dated := by
  obtain ⟨y, -, h⟩ := Checked.bind_eq_ok.mp h
  obtain ⟨m, hm, h⟩ := Checked.bind_eq_ok.mp h
  obtain ⟨k, hk, h⟩ := Checked.bind_eq_ok.mp h
  exact ⟨(subUsize_eq_ok.mp hm).1, (subUsize_eq_ok.mp hk).1⟩

namespace DateTime

variable {d d₁ d₂ : DateTime}

def seconds (d : DateTime) : ℕ := d.date.days * D_SECOND + d.time.clock

theorem Valid.seconds_lt (h : d.Valid) : d.seconds < 2 ^ 33 := by
  have hdays := h.date.days_lt
  have hclock := h.time.clock_lt
  simp only [seconds, D_SECOND] at hclock ⊢
  omega

theorem datetime2second_of_date {s : ℕ} (hs : date2second d.date = .ok s)
    (hfit : s + d.time.clock < wordSize) : datetime2second d = .ok (s + d.time.clock) := by
  rw [Time.clock] at hfit ⊢
  rw [datetime2second, hs, Checked.ok_bind, mulUsize_ok (by omega), Checked.ok_bind,
    mulUsize_ok (by omega), Checked.ok_bind, addUsize_ok (by omega), Checked.ok_bind,
    addUsize_ok (by omega), Checked.ok_bind, addUsize_ok hfit]

theorem datetime2second_eq (h : d.Valid) : datetime2second d = .ok d.seconds :=
  datetime2second_of_date (date2second_eq h.date.year.1 h.date.dated h.date.days_lt)
    (h.seconds_lt.trans (by decide))

def parts (d : DateTime) : List ℕ :=
  [d.date.year, d.date.month, d.date.day, d.time.hour, d.time.min, d.time.sec, d.time.millis]

instance : LT DateTime := ⟨fun d₁ d₂ => d₁.parts < d₂.parts⟩

instance : DecidableLT DateTime := fun d₁ d₂ => inferInstanceAs (Decidable (d₁.parts < d₂.parts))

theorem lt_iff : d₁ < d₂ ↔ d₁.parts < d₂.parts := Iff.rfl

/-- The second day is the first of a month and follows the first one, which is a 31st. -/
def AcrossMonthEnd (d₁ d₂ : DateTime) : Prop :=
  d₁.date.year = d₂.date.year ∧ d₁.date.month + 1 = d₂.date.month ∧ d₁.date.day = 31 ∧
    d₂.date.day = 1

instance : Decidable (AcrossMonthEnd d₁ d₂) := inferInstanceAs (Decidable (_ ∧ _))

theorem seconds_lt_of_days_lt (h₁ : d₁.Valid) (h : d₁.date.days < d₂.date.days) :
    d₁.seconds < d₂.seconds := by
  have hclock := h₁.time.clock_lt
  rw [D_SECOND] at hclock
  rw [seconds, seconds, D_SECOND]
  omega

theorem seconds_lt_iff_of_days_eq (h : d₁.date.days = d₂.date.days) :
    d₁.seconds < d₂.seconds ↔ d₁.time.clock < d₂.time.clock := by
  rw [seconds, seconds, h]
  omega

theorem clock_le_of_date_eq (h₁ : d₁.Valid) (h₂ : d₂.Valid) (hlt : d₁ < d₂)
    (hdate : d₁.date = d₂.date) : d₁.time.clock ≤ d₂.time.clock := by
  have hmin := h₁.time.min
  have hsec := h₁.time.sec
  have hsec' := h₂.time.sec
  simp only [lt_iff, parts, List.cons_lt_cons_iff, hdate, lt_irrefl, true_and, false_or] at hlt
  simp only [Time.clock]
  omega

theorem days_lt_or (h₁ : d₁.Valid) (h₂ : d₂.Valid) (hlt : d₁ < d₂) :
    d₁.date = d₂.date ∨ AcrossMonthEnd d₁ d₂ ∨ d₁.date.days < d₂.date.days := by
  obtain ⟨hpos₁, hday₁⟩ := h₁.date.day
  have hday₁ := hday₁.trans (daysIn_le ..)
  have hpos₂ := h₂.date.day.1
  have hmonth₁ := h₁.date.month
  have hmonth₂ := h₂.date.month
  have hyear : 1980 ≤ d₁.date.year := h₁.date.year.1
  obtain ⟨⟨y₁, m₁, a₁⟩, t₁⟩ := d₁
  obtain ⟨⟨y₂, m₂, a₂⟩, t₂⟩ := d₂
  simp only [lt_iff, parts, List.cons_lt_cons_iff] at hlt
  simp only [Date.days, AcrossMonthEnd, Date.mk.injEq] at *
  obtain hy | ⟨rfl, hm | ⟨rfl, ha | ⟨rfl, -⟩⟩⟩ := hlt
  · omega
  · omega
  · omega
  · exact .inl ⟨rfl, rfl, rfl⟩

theorem AcrossMonthEnd.days_eq (hend : AcrossMonthEnd d₁ d₂) (h₁ : d₁.Valid) :
    d₁.date.days = d₂.date.days := by
  obtain ⟨hyear, hmonth, hday₁, hday₂⟩ := hend
  have hpos := h₁.date.month.1
  rw [Date.days, Date.days, hyear, ← hmonth, hday₁, hday₂]
  omega

/-- Neither is the later time on the first of a month and not later in the day than the
earlier one on the 31st before it, nor do the two differ in their milliseconds only. -/
def Apart (d₁ d₂ : DateTime) : Prop :=
  ¬(AcrossMonthEnd d₁ d₂ ∧ d₂.time.clock ≤ d₁.time.clock) ∧
    ¬(d₁.date = d₂.date ∧ d₁.time.clock = d₂.time.clock)

instance : Decidable (Apart d₁ d₂) := inferInstanceAs (Decidable (_ ∧ _))

theorem seconds_lt_iff (h₁ : d₁.Valid) (h₂ : d₂.Valid) (hlt : d₁ < d₂) :
    d₁.seconds < d₂.seconds ↔ Apart d₁ d₂ := by
  obtain hdate | hend | hdays := days_lt_or h₁ h₂ hlt
  · have hle := clock_le_of_date_eq h₁ h₂ hlt hdate
    have hend : ¬AcrossMonthEnd d₁ d₂ := by
      rintro ⟨-, hmonth, -⟩
      rw [hdate] at hmonth
      omega
    rw [seconds_lt_iff_of_days_eq (by rw [hdate]), Apart]
    simp only [hend, hdate, false_and, not_false_eq_true, true_and]
    omega
  · have hdate : d₁.date ≠ d₂.date := by
      rintro hdate
      rw [AcrossMonthEnd, hdate] at hend
      omega
    rw [seconds_lt_iff_of_days_eq (hend.days_eq h₁), Apart]
    simp only [hend, hdate, false_and, not_false_eq_true, true_and, and_true, not_le]
  · refine iff_of_true (seconds_lt_of_days_lt h₁ hdays) ⟨?_, ?_⟩
    · rintro ⟨hend, -⟩
      exact hdays.ne (hend.days_eq h₁)
    · rintro ⟨hdate, -⟩
      exact hdays.ne (congrArg Date.days hdate)

end DateTime

theorem asI64_eq {n : ℕ} (h : n < 2 ^ 63) : asI64 n = n := by
  rw [asI64, BitVec.toInt_ofNat', Int.bmod_eq_of_le] <;> omega

/-- A date that is read from an entry has no year before 1980 and none that is too large. -/
theorem Date.Dated.decode {w : BitVec 16} (h : (Date.decode w).Dated) :
    date2second (Date.decode w) = .ok ((Date.decode w).days * D_SECOND) ∧
      (Date.decode w).days < 2 ^ 16 := by
  have hw := w.isLt
  have hdays : (Date.decode w).days < 2 ^ 16 := by
    simp only [Date.days, Date.decode, MIN_YEAR]
    omega
  exact ⟨date2second_eq (Nat.le_add_left ..) h hdays, hdays⟩

theorem Date.Dated.decode_time {date time : BitVec 16} {hiRes : BitVec 8}
    (h : (Date.decode date).Dated) :
    (datetime2second (DateTime.decode date time hiRes)).isOk = true := by
  obtain ⟨hdate, hdays⟩ := h.decode
  have htime := time.isLt
  have hhiRes := hiRes.isLt
  have hclock : (Time.decode time hiRes).clock < 2 ^ 17 := by
    simp only [Time.clock, Time.decode]
    omega
  rw [DateTime.datetime2second_of_date (d := DateTime.decode date time hiRes) hdate ?_]
  · rfl
  · simp only [DateTime.decode, D_SECOND, wordSize]
    omega

namespace DirFileEntryData

@[mk_iff] structure Dated (entry : DirFileEntryData) : Prop where
  accessed : entry.accessed.Dated
  modified : entry.modified.date.Dated
  created : entry.created.date.Dated

instance (entry : DirFileEntryData) : Decidable entry.Dated :=
  decidable_of_iff _ (dated_iff entry).symm

theorem exists_statTimes_iff_dated (entry : DirFileEntryData) :
    (∃ times, entry.statTimes = .ok times) ↔ entry.Dated := by
  constructor
  · rintro ⟨times, htimes⟩
    obtain ⟨atime, hatime, htimes⟩ := Checked.bind_eq_ok.mp htimes
    obtain ⟨mtime, hmtime, htimes⟩ := Checked.bind_eq_ok.mp htimes
    obtain ⟨ctime, hctime, -⟩ := Checked.bind_eq_ok.mp htimes
    obtain ⟨mdate, hmdate, -⟩ := Checked.bind_eq_ok.mp hmtime
    obtain ⟨cdate, hcdate, -⟩ := Checked.bind_eq_ok.mp hctime
    exact ⟨dated_of_date2second hatime, dated_of_date2second hmdate, dated_of_date2second hcdate⟩
  · rintro ⟨haccessed, hmodified, hcreated⟩
    have hatime : date2second entry.accessed = .ok _ := (Date.Dated.decode haccessed).1
    have hmok : (datetime2second entry.modified).isOk = true := Date.Dated.decode_time hmodified
    have hcok : (datetime2second entry.created).isOk = true := Date.Dated.decode_time hcreated
    obtain ⟨mtime, hmtime⟩ := Checked.exists_of_isOk hmok
    obtain ⟨ctime, hctime⟩ := Checked.exists_of_isOk hcok
    exact ⟨_, by rw [statTimes, hatime, Checked.ok_bind, hmtime, Checked.ok_bind, hctime]; rfl⟩

/-- `set_modified` with the time of `NullTimeProvider`, which has zeros for the month and
the day. -/
def stamped (entry : DirFileEntryData) : DirFileEntryData :=
  { entry with modifyTime := 0, modifyDate := 0 }

theorem not_dated_stamped (entry : DirFileEntryData) : ¬entry.stamped.Dated :=
  fun h => absurd h.modified.1 (by simp [stamped, modified, DateTime.decode, Date.decode])

end DirFileEntryData

/-- The seconds of two date-times exist and keep their order, and so do the modification times
that `fill_stat` finds for files with these date-times. -/
structure OrderKept (d₁ d₂ : DateTime) : Prop where
  seconds : ∃ s₁ s₂, datetime2second d₁ = .ok s₁ ∧ datetime2second d₂ = .ok s₂ ∧ s₁ < s₂
  mtime : ∀ (e₁ e₂ : DirFileEntryData) (t₁ t₂ : StatTimes), e₁.modified = d₁ → e₂.modified = d₂ →
    e₁.statTimes = .ok t₁ → e₂.statTimes = .ok t₂ → t₁.stMtime < t₂.stMtime

theorem DirFileEntryData.stMtime_eq {entry : DirFileEntryData} (h : entry.modified.Valid)
    {t : StatTimes} (ht : entry.statTimes = .ok t) : t.stMtime = entry.modified.seconds := by
  obtain ⟨atime, -, ht⟩ := Checked.bind_eq_ok.mp ht
  rw [DateTime.datetime2second_eq h, Checked.ok_bind] at ht
  obtain ⟨ctime, -, ht⟩ := Checked.bind_eq_ok.mp ht
  cases ht
  exact asI64_eq (h.seconds_lt.trans (by decide))

/-- Two times keep their order exactly if they are apart. -/
theorem orderKept_iff_apart {d₁ d₂ : DateTime} (h₁ : d₁.Valid) (h₂ : d₂.Valid) (hlt : d₁ < d₂) :
    OrderKept d₁ d₂ ↔ d₁.Apart d₂ := by
  rw [← DateTime.seconds_lt_iff h₁ h₂ hlt]
  constructor
  · rintro ⟨⟨s₁, s₂, hs₁, hs₂, hs⟩, -⟩
    rw [DateTime.datetime2second_eq h₁] at hs₁
    rw [DateTime.datetime2second_eq h₂] at hs₂
    cases hs₁
    cases hs₂
    exact hs
  · intro hs
    refine ⟨⟨_, _, DateTime.datetime2second_eq h₁, DateTime.datetime2second_eq h₂, hs⟩, ?_⟩
    rintro e₁ e₂ t₁ t₂ rfl rfl ht₁ ht₂
    rw [DirFileEntryData.stMtime_eq h₁ ht₁, DirFileEntryData.stMtime_eq h₂ ht₂]
    exact_mod_cast hs

/-- The last second of February of a leap year comes before the first one of March. -/
theorem orderKept_leap_day :
    OrderKept ⟨⟨2024, 2, 29⟩, ⟨23, 59, 59, 990⟩⟩ ⟨⟨2024, 3, 1⟩, ⟨0, 0, 0, 0⟩⟩ :=
  (orderKept_iff_apart (by decide) (by decide) (by decide)).mpr (by decide)

/-- Noon on the 31st of January and noon on the next day get the same second. -/
theorem january_end_not_orderKept :
    datetime2second ⟨⟨2024, 1, 31⟩, ⟨12, 0, 0, 0⟩⟩ =
        datetime2second ⟨⟨2024, 2, 1⟩, ⟨12, 0, 0, 0⟩⟩ ∧
      ¬OrderKept ⟨⟨2024, 1, 31⟩, ⟨12, 0, 0, 0⟩⟩ ⟨⟨2024, 2, 1⟩, ⟨12, 0, 0, 0⟩⟩ := by
  have heq : datetime2second ⟨⟨2024, 1, 31⟩, ⟨12, 0, 0, 0⟩⟩ =
      datetime2second ⟨⟨2024, 2, 1⟩, ⟨12, 0, 0, 0⟩⟩ := by decide +kernel
  refine ⟨heq, ?_⟩
  rintro ⟨⟨s₁, s₂, hs₁, hs₂, hlt⟩, -⟩
  cases hs₁.symm.trans (heq.trans hs₂)
  exact lt_irrefl _ hlt

end Zinix
