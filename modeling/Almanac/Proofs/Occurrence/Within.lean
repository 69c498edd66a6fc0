import Almanac.Proofs.Occurrence.Genuine
import Almanac.Proofs.Time.Order

set_option autoImplicit false

/-!
Occurrences within their bounds.

A scan gives nothing before the start, and a sequence takes nothing before its point of departure or
past a bound, by the order of times. In UTC too no occurrence is earlier than the start or the point
of departure, nor past a bound, unless wall times stand for instants in another order: where such a
bound shares the table of the start, and is the later reading of a repeated time, or lies on the
wrong side of a jump that skips it.
-/

namespace Almanac

theorem Scan.not_before_start_of_emit {p : Plan} {s s' : Scan} {t : Zoned}
    (h : s.step p = .emit t s') : ¬ t.before p.rule.start = true := by
  obtain ⟨i, hitYear, year, wall, queue, rfl, resolved⟩ := exists_opened_of_emit h
  rw [step, resolved] at h
  dsimp only at h
  split at h
  · cases h
  · cases h
    assumption

namespace Sequence

variable {s s' : Sequence} {t : Zoned}

/-- An instant that lies within all that a sequence compares it with. -/
structure Within (s : Sequence) (t : Zoned) : Prop where
  started : ¬ t.before s.plan.rule.start = true
  due : s.isEarly t = false
  within : s.isPast t = false

theorem Alike.within (alike : s.Alike s') (within : s'.Within t) : s.Within t := by
  obtain ⟨plan, notBefore⟩ := alike
  obtain ⟨started, due, inside⟩ := within
  refine ⟨plan ▸ started, ?_, ?_⟩
  · rwa [isEarly, notBefore] at due
  · rwa [isPast, plan] at inside

theorem within_of_found (step : s.step = .found t s') : s.Within t := by
  have stepped := s.stepped
  rw [step] at stepped
  cases stepped with
  | found live short emit new within due =>
    exact ⟨Scan.not_before_start_of_emit emit, due, within⟩

theorem run_within (s : Sequence) : ∀ t ∈ s.run.1, s.Within t :=
  s.forall_mem_run fun _ _ _ alike step => alike.within (within_of_found step)

open Rule

variable {r : Rule}

/-- In a zone whose transitions lie at whole seconds no occurrence is the later reading of a repeated
time, where its fraction of a second does not carry it to the next second. -/
theorem first_of_resolve? {w : WallTime} (settled : r.start.zone.Settled)
    (stays : r.start.zone.jumps = [] ∨ r.start.wall.microsecond < 999937) (recurs : r.Recurs w)
    (h : r.start.zone.resolve? w = some t) : t.fold = false := by
  obtain ⟨u, hu, -⟩ := Zone.resolve?_spec h
  obtain ⟨-, -, -, fold⟩ := Zone.shown_of_ofUtc? settled.apart hu
  have stays : r.start.zone.jumps = [] ∨ w.microsecond < 999937 := by
    rwa [w.microsecond_eq, recurs.microsecond, ← r.start.wall.microsecond_eq]
  obtain ⟨-, plain, -⟩ := Zone.resolve?_settled settled stays h
  rw [fold]
  exact plain.new

/-- The bounds of a rule in UTC. From every point of departure, and up to where a run leaves the
calendar, no occurrence is earlier than the start or the point of departure, nor past a bound. Where
one of these is in another zone than the start, or in a fixed offset, this needs nothing else. In the
table of the start, if its transitions lie two days or more apart, start and point of departure must
not be the later reading of a repeated time, or skipped and read after the jump, and the other bounds
must not be skipped and read before the jump. An occurrence is itself the later reading of a repeated
time only where rounding a fraction of a second carries it over a jump. -/
theorem run_bounded_in_utc {spec : Spec} {now : Stamp} (read : spec.rule now = .ok r)
    (notBefore : Option Stamp) :
    ∀ t ∈ (ofRule r notBefore).run.1, t.zone = r.start.zone ∧
      (r.start.Floor r.start.zone → r.start.utc ≤ t.utc) ∧
      (∀ b, notBefore = some b → (b.inZone r.start.zone).Floor r.start.zone →
        r.utcOf b ≤ t.utc) ∧
      (∀ b, r.finish = some b → b.Ceiling t → t.utc ≤ b.utc) ∧
      (∀ b, r.endsBefore = some b → b.Ceiling t → t.utc < b.utc) ∧
      (r.start.zone.Settled → r.start.zone.jumps = [] ∨ r.start.wall.microsecond < 999937 →
        t.fold = false) := by
  intro t member
  obtain ⟨w, recurs, resolved⟩ := recurs_of_mem_run (Spec.rule_canonical read) member
  obtain ⟨u, shown, -⟩ := Zone.resolve?_spec resolved
  obtain ⟨started, due, within⟩ := run_within (ofRule r notBefore) t member
  have within : ¬ r.isPast t = true := by
    rw [show r.isPast t = false from within]
    exact Bool.false_ne_true
  rw [isPast_iff, not_or] at within
  obtain ⟨finish, endsBefore⟩ := within
  refine ⟨(Zoned.ofUtc?_eq_some_iff.mp shown).2.2.1, fun floor => floor.utc_le shown started, ?_,
    ?_, ?_, fun settled stays => first_of_resolve? settled stays recurs resolved⟩
  · rintro b rfl floor
    exact floor.utc_le shown (Bool.eq_false_iff.mp due)
  · exact fun b given ceiling => ceiling.utc_le shown fun past => finish ⟨b, given, past⟩
  · exact fun b given ceiling => ceiling.utc_lt shown fun past => endsBefore ⟨b, given, past⟩

/-- The rule that recurs at half past two from two days before the one on which the clocks of New York
skip the hour from 2:00, until half past two on this day. -/
def untilSkipped : Rule :=
  { halfPastTwo with
    count := none
    finish := some ⟨⟨63435580200000000, by decide⟩, newYork, false⟩ }

/-- Half past two on the day before the clocks skip it. -/
def dayBeforeSkipped : Stamp := ⟨⟨63435493800000000, by decide⟩, none, false⟩

theorem read_untilSkipped : (Spec.map [("freq", .frequency .daily),
    ("until", .stamp ⟨⟨63435580200000000, by decide⟩, some newYork, false⟩),
    ("dtstart", .stamp ⟨⟨63435407400000000, by decide⟩, some newYork, false⟩)]).rule
    ⟨.startOf ⟨0, by decide⟩, some .utc, false⟩ = .ok untilSkipped := by
  rfl

/-- The skipped bound is read as an hour after the jump, and no occurrence is later. -/
theorem bounded_untilSkipped :
    (ofRule untilSkipped (some dayBeforeSkipped)).run.1 =
        [⟨⟨63435493800000000, by decide⟩, newYork, false⟩] ∧
      ∀ t ∈ (ofRule untilSkipped (some dayBeforeSkipped)).run.1,
        untilSkipped.start.utc ≤ t.utc ∧ untilSkipped.utcOf dayBeforeSkipped ≤ t.utc ∧
          t.utc ≤ (⟨⟨63435580200000000, by decide⟩, newYork, false⟩ : Zoned).utc := by
  have apart : newYork.Apart := List.pairwise_singleton _ _
  have run : (ofRule untilSkipped (some dayBeforeSkipped)).run =
      ([⟨⟨63435493800000000, by decide⟩, newYork, false⟩], .ended) :=
    run_of_runWithin (n := 20) (by decide +kernel)
  refine ⟨congrArg Prod.fst run, fun t member => ?_⟩
  obtain ⟨zone, start, notBefore, finish, -⟩ :=
    run_bounded_in_utc read_untilSkipped (some dayBeforeSkipped) t member
  exact ⟨start (.plain rfl apart ⟨by decide, by decide⟩),
    notBefore _ rfl (.plain rfl apart ⟨by decide, by decide⟩),
    finish _ rfl (.skipped zone (zone ▸ apart) (by unfold Zoned.Shown; decide) rfl)⟩

end Sequence

end Almanac
