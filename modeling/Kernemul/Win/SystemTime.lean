import Kernemul.Lib.ByteMemory
import Kernemul.Lib.Calendar

/-!
# The fields of a time (`RtlTimeToTimeFields`)

A time counts ticks of 100 nanoseconds since 1601. Its fields are a date and a time of day in UTC, down to the
millisecond, and the day of the week, as the host's standard library has them.
-/

namespace Kernemul.SystemTime

open ByteMemory Calendar

abbrev Addr := Nat

instance : Encoding Int16 where
  size := 2
  encode c := Bytes.ofNat 2 c.toUInt16.toNat
  decode bs := (UInt16.ofNat (Bytes.toNat bs)).toInt16
  length_encode c := Bytes.length_ofNat 2 c.toUInt16.toNat
  decode_encode c := by
    rw [Bytes.toNat_ofNat_of_lt c.toUInt16.toNat_lt, UInt16.ofNat_toNat]
    exact Int16.toInt16_toUInt16 c

instance : Encoding Int64 where
  size := 8
  encode c := Bytes.ofNat 8 c.toUInt64.toNat
  decode bs := (UInt64.ofNat (Bytes.toNat bs)).toInt64
  length_encode c := Bytes.length_ofNat 8 c.toUInt64.toNat
  decode_encode c := by
    rw [Bytes.toNat_ofNat_of_lt c.toUInt64.toNat_lt, UInt64.ofNat_toNat]
    exact Int64.toInt64_toUInt64 c

structure TimeFields where
  year : Int16
  month : Int16
  day : Int16
  hour : Int16
  minute : Int16
  second : Int16
  milliseconds : Int16
  weekday : Int16
  deriving DecidableEq

def TimeFields.toList (f : TimeFields) : List Int16 :=
  [f.year, f.month, f.day, f.hour, f.minute, f.second, f.milliseconds, f.weekday]

def winEpochDelta : Int := 116444736000000000

def ticksPerDay : Int := 864000000000

def fieldsOf (since1970 : Int) : TimeFields :=
  let day := since1970 / ticksPerDay
  let date := civilFromDays day
  let clock := (since1970 - day * ticksPerDay) / 10000
  { year := .ofInt date.year
    month := .ofInt date.month
    day := .ofInt date.day
    hour := .ofInt (clock / 3600000)
    minute := .ofInt (clock / 60000 % 60)
    second := .ofInt (clock / 1000 % 60)
    milliseconds := .ofInt (clock % 1000)
    weekday := .ofInt ((day + 4) % 7) }

def rtlTimeToTimeFields (mem : Memory) (time timeFields : Addr) : Memory :=
  if time = 0 ∨ timeFields = 0 then mem
  else
    let since1970 := (load Int64 mem time).toInt - winEpochDelta
    writeMem mem timeFields (encodeAll (fieldsOf since1970).toList)

/-! ## What the fields say -/

namespace TimeFields
variable (f : TimeFields)

def date : Date := ⟨f.year.toInt, f.month.toInt, f.day.toInt⟩

def milli : Int :=
  (((daysFromCivil f.date * 24 + f.hour.toInt) * 60 + f.minute.toInt) * 60 + f.second.toInt) * 1000 +
    f.milliseconds.toInt

def key : (ℤ ×ₗ ℤ ×ₗ ℤ) ×ₗ ℤ ×ₗ ℤ ×ₗ ℤ ×ₗ ℤ :=
  toLex (f.date.key, toLex (f.hour.toInt, toLex (f.minute.toInt, toLex (f.second.toInt, f.milliseconds.toInt))))

structure Valid : Prop where
  date : f.date.Valid
  hour : 0 ≤ f.hour.toInt ∧ f.hour.toInt < 24
  minute : 0 ≤ f.minute.toInt ∧ f.minute.toInt < 60
  second : 0 ≤ f.second.toInt ∧ f.second.toInt < 60
  milliseconds : 0 ≤ f.milliseconds.toInt ∧ f.milliseconds.toInt < 1000
  weekday : f.weekday.toInt = (daysFromCivil f.date + 4) % 7

end TimeFields

/-- The times that can be counted from 1970 on too, with the same ticks. -/
def InRange (time : Int) : Prop := -2 ^ 63 ≤ time - winEpochDelta ∧ time < 2 ^ 63

theorem year_bounds {z : Int} (h : -10675200 ≤ z ∧ z ≤ 10540425) :
    -2 ^ 15 ≤ (civilFromDays z).year ∧ (civilFromDays z).year < 2 ^ 15 := by
  have hmono := key_civil_strictMono.monotone
  have hfirst : (civilFromDays (-10675200)).key ≤ (civilFromDays z).key := hmono h.1
  have hlast : (civilFromDays z).key ≤ (civilFromDays 10540425).key := hmono h.2
  unfold Date.key at hfirst hlast
  rw [Prod.Lex.toLex_le_toLex] at hfirst hlast
  have hle : (civilFromDays (-10675200)).year ≤ (civilFromDays z).year := hfirst.elim le_of_lt fun h => h.1.le
  have hge : (civilFromDays z).year ≤ (civilFromDays 10540425).year := hlast.elim le_of_lt fun h => h.1.le
  exact ⟨le_trans (by decide) hle, lt_of_le_of_lt hge (by decide)⟩

def Counted (since1970 : Int) : Prop := -2 ^ 63 ≤ since1970 ∧ since1970 < 2 ^ 63 - winEpochDelta

theorem InRange.counted {time : Int} (h : InRange time) : Counted (time - winEpochDelta) :=
  ⟨h.1, Int.sub_lt_sub_right h.2 winEpochDelta⟩

/-- The fields are numbers that a `short` takes. -/
structure Fits (since1970 : Int) (f : TimeFields) : Prop where
  date : f.date = civilFromDays (since1970 / ticksPerDay)
  hour : f.hour.toInt = since1970 / 10000 % 86400000 / 3600000
  minute : f.minute.toInt = since1970 / 10000 % 86400000 / 60000 % 60
  second : f.second.toInt = since1970 / 10000 % 86400000 / 1000 % 60
  milliseconds : f.milliseconds.toInt = since1970 / 10000 % 86400000 % 1000
  weekday : f.weekday.toInt = (since1970 / ticksPerDay + 4) % 7

theorem fieldsOf_fits {since1970 : Int} (h : Counted since1970) : Fits since1970 (fieldsOf since1970) := by
  obtain ⟨hfirst, hlast⟩ := h
  unfold winEpochDelta at hlast
  have hclock : (since1970 - since1970 / ticksPerDay * ticksPerDay) / 10000 = since1970 / 10000 % 86400000 := by
    unfold ticksPerDay
    omega
  have hyear := year_bounds (z := since1970 / ticksPerDay) (by unfold ticksPerDay; omega)
  obtain ⟨hmonth, hday⟩ := valid_civil (since1970 / ticksPerDay)
  have hlength : daysInMonth (civilFromDays (since1970 / ticksPerDay)).year
      (civilFromDays (since1970 / ticksPerDay)).month ≤ 31 := by
    unfold daysInMonth
    split_ifs <;> decide
  unfold fieldsOf
  dsimp only
  rw [hclock]
  refine ⟨?_, ?_, ?_, ?_, ?_, ?_⟩
  · unfold TimeFields.date
    dsimp only
    rw [Int16.toInt_ofInt_of_le (by omega) (by omega), Int16.toInt_ofInt_of_le (by omega) (by omega),
      Int16.toInt_ofInt_of_le (by omega) (by omega)]
  all_goals exact Int16.toInt_ofInt_of_le (by omega) (by omega)

theorem Fits.valid {since1970 : Int} {f : TimeFields} (h : Fits since1970 f) : f.Valid := by
  refine ⟨h.date ▸ valid_civil _, ?_, ?_, ?_, ?_, ?_⟩
  · rw [h.hour]
    omega
  · rw [h.minute]
    omega
  · rw [h.second]
    omega
  · rw [h.milliseconds]
    omega
  · rw [h.weekday, h.date, days_civil]

theorem Fits.milli {since1970 : Int} {f : TimeFields} (h : Fits since1970 f) : f.milli = since1970 / 10000 := by
  unfold TimeFields.milli
  rw [h.date, days_civil, h.hour, h.minute, h.second, h.milliseconds]
  unfold ticksPerDay
  omega

/-! ## The order of times -/

def keyOf (ms : Int) : (ℤ ×ₗ ℤ ×ₗ ℤ) ×ₗ ℤ ×ₗ ℤ ×ₗ ℤ ×ₗ ℤ :=
  let clock := ms % 86400000
  toLex ((civilFromDays (ms / 86400000)).key,
    toLex (clock / 3600000, toLex (clock / 60000 % 60, toLex (clock / 1000 % 60, clock % 1000))))

theorem Fits.key {since1970 : Int} {f : TimeFields} (h : Fits since1970 f) : f.key = keyOf (since1970 / 10000) := by
  unfold TimeFields.key keyOf
  have hday : since1970 / 10000 / 86400000 = since1970 / ticksPerDay := by
    unfold ticksPerDay
    omega
  rw [h.date, h.hour, h.minute, h.second, h.milliseconds, hday]

theorem keyOf_strictMono : StrictMono keyOf := by
  refine strictMono_int_of_lt_succ fun ms => ?_
  unfold keyOf
  dsimp only
  by_cases hday : ms / 86400000 < (ms + 1) / 86400000
  · rw [Prod.Lex.toLex_lt_toLex]
    exact .inl (key_civil_strictMono hday)
  · have hsame : (ms + 1) / 86400000 = ms / 86400000 := by omega
    have hclock : (ms + 1) % 86400000 = ms % 86400000 + 1 := by omega
    rw [hsame, hclock]
    generalize ms % 86400000 = clock
    rw [Prod.Lex.toLex_lt_toLex]
    refine .inr ⟨rfl, ?_⟩
    dsimp only
    rw [Prod.Lex.toLex_lt_toLex, Prod.Lex.toLex_lt_toLex, Prod.Lex.toLex_lt_toLex]
    dsimp only
    omega

/-- What the fields of a time say: a moment, in the order of the moments, and a day of the calendar, which goes on with
the next one. -/
structure Tells (time : Int) (f : TimeFields) : Prop where
  valid : f.Valid
  milli : f.milli = (time - winEpochDelta) / 10000
  order : ∀ time', InRange time' → (f.key < (fieldsOf (time' - winEpochDelta)).key ↔ time / 10000 < time' / 10000)
  tomorrow : InRange (time + ticksPerDay) → ∀ f', f' = fieldsOf (time + ticksPerDay - winEpochDelta) →
    f'.date = f.date.next ∧ f'.hour = f.hour ∧ f'.minute = f.minute ∧ f'.second = f.second ∧
      f'.milliseconds = f.milliseconds ∧ f'.weekday.toInt = (f.weekday.toInt + 1) % 7

theorem fieldsOf_tells {time : Int} (h : InRange time) : Tells time (fieldsOf (time - winEpochDelta)) := by
  have hfits := fieldsOf_fits h.counted
  refine ⟨hfits.valid, hfits.milli, ?_, ?_⟩
  · intro time' h'
    rw [hfits.key, (fieldsOf_fits h'.counted).key, keyOf_strictMono.lt_iff_lt]
    unfold winEpochDelta
    omega
  · rintro h' f' rfl
    have hfits' := fieldsOf_fits h'.counted
    have hday : (time + ticksPerDay - winEpochDelta) / ticksPerDay = (time - winEpochDelta) / ticksPerDay + 1 := by
      unfold ticksPerDay
      omega
    have hclock : (time + ticksPerDay - winEpochDelta) / 10000 % 86400000 =
        (time - winEpochDelta) / 10000 % 86400000 := by
      unfold ticksPerDay
      omega
    refine ⟨?_, ?_, ?_, ?_, ?_, ?_⟩
    · rw [hfits'.date, hfits.date, hday, civil_succ]
    · exact Int16.toInt_inj.mp (by rw [hfits'.hour, hfits.hour, hclock])
    · exact Int16.toInt_inj.mp (by rw [hfits'.minute, hfits.minute, hclock])
    · exact Int16.toInt_inj.mp (by rw [hfits'.second, hfits.second, hclock])
    · exact Int16.toInt_inj.mp (by rw [hfits'.milliseconds, hfits.milliseconds, hclock])
    · rw [hfits'.weekday, hfits.weekday, hday]
      omega

/-- What is written for a time that is in range tells it, and nothing else is written. -/
theorem told {mem : Memory} {time timeFields : Addr} (htime : time ≠ 0) (hfields : timeFields ≠ 0)
    (hrange : InRange (load Int64 mem time).toInt) :
    (∃ f : TimeFields, loadAll Int16 (rtlTimeToTimeFields mem time timeFields) timeFields 8 = f.toList ∧
      Tells (load Int64 mem time).toInt f) ∧
    ∀ a, a < timeFields ∨ timeFields + 16 ≤ a → rtlTimeToTimeFields mem time timeFields a = mem a := by
  have hwritten : rtlTimeToTimeFields mem time timeFields =
      writeMem mem timeFields (encodeAll (fieldsOf ((load Int64 mem time).toInt - winEpochDelta)).toList) :=
    if_neg fun h => h.elim htime hfields
  rw [hwritten]
  refine ⟨⟨_, loadAll_writeMem mem timeFields _, fieldsOf_tells hrange⟩, fun a ha => writeMem_of_out ?_⟩
  rwa [length_encodeAll]

def lastMoment : Memory := writeMem (fun _ => 0) 0x100 (Bytes.ofNat 8 132274943999990000)

theorem lastMoment_told : loadAll Int16 (rtlTimeToTimeFields lastMoment 0x100 0x200) 0x200 8 =
    [2020, 2, 29, 23, 59, 59, 999, 6] ∧ ∃ f : TimeFields,
      f.toList = [2020, 2, 29, 23, 59, 59, 999, 6] ∧ Tells 132274943999990000 f := by
  have hread : loadAll Int16 (rtlTimeToTimeFields lastMoment 0x100 0x200) 0x200 8 =
      [2020, 2, 29, 23, 59, 59, 999, 6] := by decide +kernel
  have htime : (load Int64 lastMoment 0x100).toInt = 132274943999990000 := by decide +kernel
  have hrange : InRange (load Int64 lastMoment 0x100).toInt := by
    rw [htime]
    exact ⟨by decide, by decide⟩
  obtain ⟨⟨f, hf, htells⟩, -⟩ := told (show 0x100 ≠ 0 by decide) (show 0x200 ≠ 0 by decide) hrange
  exact ⟨hread, f, hf.symm.trans hread, htime ▸ htells⟩

end Kernemul.SystemTime
