import Almanac.Proofs.Rule.Legible

set_option autoImplicit false

/-!
Which instants are read back from rule text.

An instant at a fixed offset is written so that reading gives it again, in any default zone, but for
two cases. The basic form does not pad its year, so a year of fewer than four digits is refused
there. An offset of less than a second is read as none, so the instant read is another one.
-/

namespace Almanac

open Reading

instance (t : Zoned) : Decidable t.IsPlain :=
  inferInstanceAs (Decidable (t.offset.micros = 0 ∧ t.wall.microsecond = 0))

namespace Zoned

variable {t : Zoned} {o : Offset}

theorem stamp?_writtenInRule_eq (fixed : t.zone = .fixed o) : stamp? t.writtenInRule =
    if t.IsPlain ∧ t.wall.year < 1000 then none
    else some ⟨t.wall, some (.fixed o.asRead), false⟩ := by
  split
  · rename_i short
    rw [writtenInRule_of_plain short.1, WallTime.stamp?_writtenBasic_eq_none short.2]
  · rename_i long
    exact stamp?_writtenInRule fixed fun plain => Nat.le_of_not_lt fun short => long ⟨plain, short⟩

end Zoned

namespace Value

section FixedOffset

variable {t : Zoned} {o : Offset}

/-- What reading gives for the text of an instant at a fixed offset. -/
theorem instant_writtenInRule (fixed : t.zone = .fixed o) (part : Part) (zone : Zone) :
    instant part zone (.text (String.ofList t.writtenInRule)) =
      if t.IsPlain ∧ t.wall.year < 1000 then
        .error (.malformedInstant part (.text (String.ofList t.writtenInRule)))
      else .ok ⟨t.wall, .fixed o.asRead, false⟩ := by
  simp only [instant, String.toList_ofList, Text.trim_solid t.isWord_writtenInRule.solid,
    Zoned.stamp?_writtenInRule_eq fixed]
  by_cases short : t.IsPlain ∧ t.wall.year < 1000
  · simp only [if_pos short]
  · simp only [if_neg short]
    rfl

theorem not_plain_of_illegible (fixed : t.zone = .fixed o) (illegible : ¬ o.Legible) :
    ¬ t.IsPlain := by
  intro plain
  exact illegible (.inl (Zoned.offset_of_fixed fixed ▸ plain.1))

/-- An instant is read back as the same instant at the same offset exactly where its offset is none
or a second at least, and its year has four digits if the basic form is used. It is then read as it
was; a shorter year in the basic form is refused, and a shorter offset is read as none. -/
theorem instant_writtenInRule_iff (fixed : t.zone = .fixed o) (unfolded : t.fold = false)
    (part : Part) (zone : Zone) :
    ((∃ back, instant part zone (.text (String.ofList t.writtenInRule)) = .ok back ∧
        back.utc = t.utc ∧ back.offset = t.offset) ↔
      o.Legible ∧ (t.IsPlain → 1000 ≤ t.wall.year)) ∧
    (o.Legible → (t.IsPlain → 1000 ≤ t.wall.year) →
      instant part zone (.text (String.ofList t.writtenInRule)) = .ok t) ∧
    (t.IsPlain → t.wall.year < 1000 →
      instant part zone (.text (String.ofList t.writtenInRule)) =
        .error (.malformedInstant part (.text (String.ofList t.writtenInRule)))) ∧
    (¬ o.Legible →
      instant part zone (.text (String.ofList t.writtenInRule)) = .ok ⟨t.wall, .utc, false⟩) := by
  have read := instant_writtenInRule fixed part zone
  have itself : o.Legible → (t.IsPlain → 1000 ≤ t.wall.year) →
      instant part zone (.text (String.ofList t.writtenInRule)) = .ok t := by
    intro legible year
    rw [read, if_neg (fun short => by have := year short.1; omega), Offset.asRead_eq_iff.mpr legible]
    obtain ⟨wall, tzone, fold⟩ := t
    cases fixed
    cases unfolded
    rfl
  refine ⟨⟨?_, fun good => ⟨t, itself good.1 good.2, rfl, rfl⟩⟩, itself, ?_, ?_⟩
  · rintro ⟨back, ok, -, offset⟩
    rw [read] at ok
    split at ok
    · cases ok
    · rename_i long
      cases ok
      have same : o.asRead = o := offset.trans (Zoned.offset_of_fixed fixed)
      refine ⟨Offset.asRead_eq_iff.mp same, fun plain => ?_⟩
      by_contra short
      exact long ⟨plain, by omega⟩
  · intro plain short
    rw [read, if_pos ⟨plain, short⟩]
  · intro illegible
    have none : o.asRead = .zero := by
      rw [Offset.asRead, if_neg (fun long => illegible (.inr long))]
    rw [read, if_neg (fun short => not_plain_of_illegible fixed illegible short.1), none]
    rfl

end FixedOffset

/-- The first instants of the years 999 and 1000. -/
def newYear999 : Zoned := ⟨⟨31493836800000000, by decide⟩, .utc, false⟩

def newYear1000 : Zoned := ⟨⟨31525372800000000, by decide⟩, .utc, false⟩

/-- The first instant of the year 1000 is read back, the one of the year before is refused. -/
theorem instants_aroundYear1000 :
    instant .start .utc (.text (String.ofList newYear1000.writtenInRule)) = .ok newYear1000 ∧
    String.ofList newYear999.writtenInRule = "9990101T000000Z" ∧
    instant .start .utc (.text "9990101T000000Z") =
      .error (.malformedInstant .start (.text "9990101T000000Z")) := by
  obtain ⟨-, itself, -, -⟩ :=
    instant_writtenInRule_iff (t := newYear1000) (o := .zero) rfl rfl .start .utc
  obtain ⟨-, -, refused, -⟩ :=
    instant_writtenInRule_iff (t := newYear999) (o := .zero) rfl rfl .start .utc
  have written : String.ofList newYear999.writtenInRule = "9990101T000000Z" := by decide +kernel
  rw [written] at refused
  exact ⟨itself (.inl rfl) (fun _ => by decide +kernel), written,
    refused ⟨rfl, by decide +kernel⟩ (by decide +kernel)⟩

end Value

end Almanac
