import Almanac.Calendar.Civil
import Almanac.Occurrence.Window
import Almanac.Rule.Spec
import Almanac.Rule.Written
import Almanac.Schedule.Delay
import Almanac.Schedule.Run
import Almanac.Proofs.Calendar.Cycle
import Almanac.Proofs.Calendar.WeekYear
import Almanac.Proofs.Calendar.Resemblance
import Almanac.Proofs.Numeric.Place
import Almanac.Proofs.Calendar.Month
import Almanac.Proofs.Rule.Canonical
import Almanac.Proofs.Occurrence.Period
import Almanac.Proofs.Occurrence.Repeats
import Almanac.Proofs.Occurrence.Selection
import Almanac.Proofs.Occurrence.WeekNumber
import Almanac.Proofs.Occurrence.Ordinals
import Almanac.Proofs.Occurrence.Candidates
import Almanac.Proofs.Numeric.Nearest
import Almanac.Proofs.Time.Resolve
import Almanac.Proofs.Occurrence.Scan
import Almanac.Proofs.Occurrence.Cutoff
import Almanac.Proofs.Occurrence.Jumps
import Almanac.Proofs.Occurrence.InCalendar
import Almanac.Proofs.Occurrence.Due
import Almanac.Proofs.Occurrence.FixedOffset
import Almanac.Proofs.Occurrence.Expansion
import Almanac.Proofs.Occurrence.Bounds
import Almanac.Proofs.Occurrence.Steady
import Almanac.Proofs.Occurrence.Compose
import Almanac.Proofs.Occurrence.Rising
import Almanac.Proofs.Time.Exact
import Almanac.Proofs.Time.Between
import Almanac.Proofs.Time.Order
import Almanac.Proofs.Occurrence.Cursor
import Almanac.Proofs.Occurrence.First
import Almanac.Proofs.Occurrence.Genuine
import Almanac.Proofs.Occurrence.Within
import Almanac.Proofs.Occurrence.Twin
import Almanac.Proofs.Occurrence.Equal
import Almanac.Proofs.Schedule.Holdings
import Almanac.Proofs.Schedule.Operations
import Almanac.Proofs.Schedule.Moves
import Almanac.Proofs.Schedule.Actions
import Almanac.Proofs.Schedule.Steps
import Almanac.Proofs.Schedule.Persistence
import Almanac.Proofs.Schedule.Sound
import Almanac.Proofs.Schedule.Timed
import Almanac.Proofs.Schedule.Delivery
import Almanac.Proofs.Schedule.Conservation
import Almanac.Proofs.Schedule.Course
import Almanac.Proofs.Schedule.Lifetime
import Almanac.Proofs.Schedule.Finality
import Almanac.Proofs.Schedule.Filing
import Almanac.Proofs.Schedule.Shelving
import Almanac.Proofs.Schedule.Keeping
import Almanac.Proofs.Schedule.Registered
import Almanac.Proofs.Schedule.Housed
import Almanac.Proofs.Rule.Spelling
import Almanac.Proofs.Rule.Grammar
import Almanac.Proofs.Rule.Values
import Almanac.Proofs.Time.BasicForm
import Almanac.Proofs.Rule.Patterns
import Almanac.Proofs.Rule.Items
import Almanac.Proofs.Rule.Refusal
import Almanac.Proofs.Rule.Spans
import Almanac.Proofs.Rule.Validity
import Almanac.Proofs.Text.Numerals
import Almanac.Proofs.Time.Written
import Almanac.Proofs.Rule.Written
import Almanac.Proofs.Rule.Legible
import Almanac.Proofs.Rule.Roundtrip
import Almanac.Proofs.Rule.Instants
import Almanac.Proofs.Rule.WellFormed
import Almanac.Proofs.Rule.Agreement
import Almanac.Proofs.Rule.Saved
import Almanac.Proofs.Occurrence.Saved
import Almanac.Proofs.Time.Reckoning
import Almanac.Proofs.Occurrence.Reread
import Almanac.Proofs.Schedule.Readings
import Almanac.Proofs.Schedule.Cores
import Almanac.Proofs.Schedule.Adding
import Almanac.Proofs.Schedule.Stranded
import Almanac.Proofs.Schedule.Lateness
import Almanac.Proofs.Schedule.Shares
import Almanac.Proofs.Schedule.Handlers
import Almanac.Proofs.Schedule.Places
import Almanac.Proofs.Schedule.Firing
import Almanac.Proofs.Schedule.Advance
import Almanac.Proofs.Schedule.Ending
import Almanac.Proofs.Schedule.Playing
import Almanac.Proofs.Schedule.Independence
