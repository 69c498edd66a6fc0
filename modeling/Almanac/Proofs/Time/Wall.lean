import Almanac.Time.Wall

set_option autoImplicit false

/-!
The fields of a wall time.

Day, hour, minute, second and microsecond are the digits of a wall time in the units of a clock, so
they determine it.
-/

namespace Almanac

theorem secondMicros_eq : secondMicros = 1000000 := by decide

theorem minuteMicros_eq : minuteMicros = 60000000 := by decide

theorem hourMicros_eq : hourMicros = 3600000000 := by decide

theorem dayMicros_eq : dayMicros = 86400000000 := by decide

theorem calendarMicros_eq : calendarMicros = 3652059 * 86400000000 := by decide

namespace WallTime

theorem day_eq (t : WallTime) : t.day = t.micros / 86400000000 := by
  rw [day, dayMicros_eq]

theorem hour_eq (t : WallTime) : t.hour = t.micros % 86400000000 / 3600000000 := by
  rw [hour, dayMicros_eq, hourMicros_eq]

theorem minute_eq (t : WallTime) : t.minute = t.micros % 3600000000 / 60000000 := by
  rw [minute, hourMicros_eq, minuteMicros_eq]

theorem second_eq (t : WallTime) : t.second = t.micros % 60000000 / 1000000 := by
  rw [second, minuteMicros_eq, secondMicros_eq]

theorem microsecond_eq (t : WallTime) : t.microsecond = t.micros % 1000000 := by
  rw [microsecond, secondMicros_eq]

/-- The time of day that has the given fields, in microseconds. -/
def timeOfDay (h m s us : Nat) : Nat := h * 3600000000 + m * 60000000 + s * 1000000 + us

/-- The fields of a wall time make it up. -/
theorem micros_eq (t : WallTime) :
    t.micros = t.day * 86400000000 + timeOfDay t.hour t.minute t.second t.microsecond := by
  rw [timeOfDay, day_eq, hour_eq, minute_eq, second_eq, microsecond_eq]
  omega

/-- A time without a fraction of a second is on a whole second. -/
theorem wholeSecond_of_whole {t : WallTime} (whole : t.microsecond = 0) : t.wholeSecond = t := by
  obtain ⟨n, inside⟩ := t
  simp [wholeSecond, whole]

theorem hour_lt (t : WallTime) : t.hour < 24 := by
  rw [hour_eq]
  omega

theorem minute_lt (t : WallTime) : t.minute < 60 := by
  rw [minute_eq]
  omega

theorem second_lt (t : WallTime) : t.second < 60 := by
  rw [second_eq]
  omega

theorem microsecond_lt (t : WallTime) : t.microsecond < 1000000 := by
  rw [microsecond_eq]
  omega

/-- A wall time made up of fields in their ranges has those fields. -/
theorem fields_of_micros_eq {t : WallTime} {d h m s us : Nat} (hh : h < 24) (hm : m < 60)
    (hs : s < 60) (hus : us < 1000000) (eq : t.micros = d * 86400000000 + timeOfDay h m s us) :
    t.day = d ∧ t.hour = h ∧ t.minute = m ∧ t.second = s ∧ t.microsecond = us := by
  rw [timeOfDay] at eq
  rw [day_eq, hour_eq, minute_eq, second_eq, microsecond_eq]
  omega

/-- A wall time is its number of microseconds. -/
theorem eq_of_micros {s t : WallTime} (same : s.micros = t.micros) : s = t := by
  cases s
  cases t
  dsimp only at same
  subst same
  rfl

theorem ofMicros?_eq_some_iff {n : Int} {t : WallTime} :
    ofMicros? n = some t ↔ (t.micros : Int) = n := by
  unfold ofMicros?
  split
  · rename_i range
    rw [Option.some.injEq]
    constructor
    · rintro rfl
      exact Int.toNat_of_nonneg range.1
    · intro eq
      cases t
      simp only [mk.injEq]
      dsimp only at eq
      omega
  · rename_i range
    simp only [reduceCtorEq, false_iff]
    intro eq
    exact range ⟨by omega, by have := t.inCalendar; omega⟩

end WallTime

end Almanac
