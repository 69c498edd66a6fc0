import Almanac.Proofs.Rule.WellFormed
import Almanac.Proofs.Time.Between

set_option autoImplicit false

/-!
What rule text keeps of a named zone.

Text has no place for the name of a zone: it writes an instant with the offset that it has. So a
well-formed rule is read back from its text with every instant at its offset, and only where that is
all its zone does is it the same rule.
-/

namespace Almanac

namespace Rule

variable {r : Rule}

/-- The rule with its instants at their offsets, as its text keeps it. -/
def saved (r : Rule) : Rule :=
  { r with
    start := r.start.atOffset
    finish := r.finish.map Zoned.atOffset
    endsBefore := r.endsBefore.map Zoned.atOffset }

theorem moments_saved (r : Rule) : r.saved.moments = r.moments.map Zoned.atOffset := by
  simp [moments, saved, Option.toList_map]

/-- A rule and what its text keeps of it have the same text. -/
theorem text_saved (r : Rule) : r.saved.text = r.text := by
  have instant (p : Part) : writtenInstant p ∘ Zoned.atOffset = writtenInstant p := rfl
  have start : writtenInstant .start r.start.atOffset = writtenInstant .start r.start := rfl
  simp only [text, writtenParts, saved, start, Option.toList_map, List.map_map, instant]
  rfl

/-- Numbers that are not too long, offsets that can be written, and years of four digits. -/
structure Writable (r : Rule) : Prop where
  interval : r.interval < 10 ^ Text.digitLimit
  count : ∀ n, r.count = some n → n < 10 ^ Text.digitLimit
  offsets : ∀ t ∈ r.moments, t.offset.Legible
  years : ∀ t ∈ r.moments, 1000 ≤ t.wall.year

theorem Writable.legible_atOffset (writable : r.Writable) {t : Zoned} (member : t ∈ r.moments) :
    t.atOffset.Legible :=
  ⟨⟨t.offset, rfl⟩, writable.years t member⟩

theorem Writable.asRead_atOffset (writable : r.Writable) {t : Zoned} (member : t ∈ r.moments) :
    t.atOffset.asRead = t.atOffset :=
  (writable.legible_atOffset member).asRead_eq (writable.offsets t member)

/-- What is kept is read as it is. -/
theorem Writable.asRead_saved (writable : r.Writable) : r.saved.asRead = r.saved := by
  have start : r.start.atOffset.asRead = r.start.atOffset :=
    writable.asRead_atOffset List.mem_cons_self
  have bound (o : Option Zoned) (among : ∀ t, o = some t → t ∈ r.moments) :
      (o.map Zoned.atOffset).map Zoned.asRead = o.map Zoned.atOffset := by
    rw [Option.map_map]
    exact Option.map_congr fun t some => writable.asRead_atOffset (among t some)
  have finish := bound r.finish fun t some => by simp [moments, some]
  have endsBefore := bound r.endsBefore fun t some => by simp [moments, some]
  simp only [asRead, saved, start, finish, endsBefore]

/-- What is kept of a well-formed rule can be written and read back. -/
theorem WellFormed.legible_saved (wellFormed : r.WellFormed) (writable : r.Writable) :
    r.saved.Legible where
  interval := writable.interval
  count n some := ⟨wellFormed.count n some, writable.count n some⟩
  oneBound := wellFormed.oneBound.imp_right fun none => by rw [saved, none]; rfl
  start := writable.legible_atOffset List.mem_cons_self
  finish := by
    intro t some
    obtain ⟨given, finish, rfl⟩ := Option.map_eq_some_iff.mp some
    exact writable.legible_atOffset (by simp [moments, finish])
  endsBefore := by
    intro t some
    obtain ⟨given, endsBefore, rfl⟩ := Option.map_eq_some_iff.mp some
    exact writable.legible_atOffset (by simp [moments, endsBefore])
  seconds := wellFormed.lists .second (by decide)
  minutes := wellFormed.lists .minute (by decide)
  hours := wellFormed.lists .hour (by decide)
  days := ⟨wellFormed.days_ascending, wellFormed.inRange⟩
  monthDays := wellFormed.lists .monthDay (by decide)
  yearDays := wellFormed.lists .yearDay (by decide)
  weekNumbers := wellFormed.lists .weekNumber (by decide)
  months := wellFormed.lists .month (by decide)
  positions := wellFormed.lists .position (by decide)
  noConflict := conflict?_eq_none_iff.mpr ⟨wellFormed.weekNumbers, wellFormed.yearDays,
    wellFormed.monthDays, wellFormed.ordinals⟩

/-- The text of a well-formed rule gives it with its instants at their offsets. -/
theorem WellFormed.rule_text (wellFormed : r.WellFormed) (writable : r.Writable) (now : Stamp) :
    (Spec.text r.text).rule now = .ok r.saved := by
  have read : (Spec.text r.saved.text).rule now = .ok r.saved.asRead :=
    (wellFormed.legible_saved writable).rule_text
  rwa [writable.asRead_saved, text_saved] at read

end Rule

end Almanac
