import Recurrence.UnitMap
import Recurrence.Text.Blank
import Recurrence.Text.Alphabetic
import Recurrence.Text.DecimalDigit
import Recurrence.Text.Numeral
import Recurrence.Calendar.Weekday
import Recurrence.Calendar.MonthName
import Recurrence.Calendar.Date
import Recurrence.Calendar.LocalTime
import Recurrence.Calendar.Checked
import Recurrence.Keyword
import Recurrence.SpecialDay
import Recurrence.Zone.Database
import Recurrence.Zone.Offsets
import Recurrence.Token.Scan
import Recurrence.Diagnostic
import Recurrence.Token.Run
import Recurrence.Value.Reading
import Recurrence.Rule.Reading
import Recurrence.Resolution.Cache
import Recurrence.Resolution.Checked
import Recurrence.RuleSet
import Recurrence.Search.Matcher
import Recurrence.Search.Plan
import Recurrence.Search.Checked
import Recurrence.Expression
import Recurrence.Proofs.Calendar.Months
import Recurrence.Proofs.Calendar.UnitStarts
import Recurrence.Proofs.Calendar.Cycles
import Recurrence.Proofs.Calendar.FieldOrder
import Recurrence.Proofs.Resolution.Months
import Recurrence.Proofs.Search.Bounds
import Recurrence.Proofs.Search.Windows
import Recurrence.Proofs.Search.Cadences
import Recurrence.Proofs.Search.Conditions
import Recurrence.Proofs.Search.Memory
import Recurrence.Proofs.Search.Walks
import Recurrence.Proofs.Search.Series
import Recurrence.Proofs.Search.Gaps
import Recurrence.Proofs.Calendar.Shifts
import Recurrence.Proofs.Search.Ceilings
import Recurrence.Proofs.Search.Alternatives
import Recurrence.Proofs.Search.Resumption
import Recurrence.Proofs.Search.BareCadences
import Recurrence.Proofs.Text.Numerals
import Recurrence.Proofs.Token.Words
import Recurrence.Proofs.Token.Scanning
import Recurrence.Proofs.Token.Genuine
import Recurrence.Proofs.Token.Places
import Recurrence.Proofs.Token.Pieces
import Recurrence.Proofs.Token.LetterCase
import Recurrence.Proofs.Resolution.LetterCase
import Recurrence.Proofs.Resolution.Forms
import Recurrence.Proofs.Resolution.Weekdays
import Recurrence.Proofs.Resolution.Offsets
import Recurrence.Proofs.Token.Respelling
import Recurrence.Proofs.Token.Joining
import Recurrence.Proofs.Value.Spellings
import Recurrence.Proofs.Token.Runs
import Recurrence.Proofs.Value.Forms
import Recurrence.Proofs.Value.UsedTokens
import Recurrence.Proofs.Value.Recasting
import Recurrence.Proofs.Value.Phrases
import Recurrence.Proofs.Value.RoundTrips
import Recurrence.Proofs.Value.Composites
import Recurrence.Proofs.Value.SpecialDays
import Recurrence.Proofs.Rule.Filing
import Recurrence.Proofs.Rule.ValueRuns
import Recurrence.Proofs.Rule.Forms
import Recurrence.Proofs.Rule.Anchors
import Recurrence.Proofs.Rule.Lists
import Recurrence.Proofs.Rule.RoundTrips
import Recurrence.Proofs.Rule.Recasting
import Recurrence.Proofs.Rule.TrailingBlanks
import Recurrence.Proofs.Rule.ZoneClauses
import Recurrence.Proofs.Rule.UsedTokens
import Recurrence.Proofs.Rule.Respelling
import Recurrence.Proofs.Rule.Misreadings
import Recurrence.Proofs.Expression.RoundTrips
import Recurrence.Proofs.Rule.Checks
import Recurrence.Proofs.Rule.Meaningful
import Recurrence.Proofs.Rule.RecastChecks
import Recurrence.Proofs.Search.Visits
import Recurrence.Proofs.Search.Endings
import Recurrence.Proofs.Search.RuleOrder
import Recurrence.Proofs.Search.RecastPlans
import Recurrence.Proofs.Search.UnitOccurrences
import Recurrence.Proofs.Resolution.Sharing
import Recurrence.Proofs.Zone.Crossings
import Recurrence.Proofs.Search.Passes
import Recurrence.Proofs.Expression.Concatenation
import Recurrence.Proofs.Expression.Respelling
import Recurrence.Proofs.Expression.Problems
import Recurrence.Proofs.Expression.Soundness
import Recurrence.Proofs.Search.Intervals
import Recurrence.Proofs.Search.GappedRanges
import Recurrence.Proofs.Resolution.Extents
import Recurrence.Proofs.Search.OpenRanges
import Recurrence.Proofs.Search.WeekAnchors
import Recurrence.Proofs.Search.Seeds
import Recurrence.Proofs.Zone.Conversion
import Recurrence.Proofs.Value.ClockTimes
import Recurrence.Proofs.Search.Progress
import Recurrence.Proofs.Indexed.Basic
import Recurrence.Proofs.Indexed.Words
import Recurrence.Proofs.Indexed.Scan
import Recurrence.Proofs.Indexed.Values
import Recurrence.Proofs.Indexed.Runs
import Recurrence.Proofs.Indexed.Rules
import Recurrence.Proofs.Calendar.Checked
import Recurrence.Proofs.Calendar.Landings
import Recurrence.Proofs.Resolution.DayBounds
import Recurrence.Proofs.Resolution.Stops
import Recurrence.Proofs.Search.Checked
