import Recurrence.CalendarUnit.Lemmas
import Recurrence.Instant.Order
import Recurrence.Proofs.AtomicEdits
import Recurrence.Proofs.BoundedPredecessors
import Recurrence.Proofs.CandidateCounts
import Recurrence.Proofs.CappedQueries
import Recurrence.Proofs.ChainLoading
import Recurrence.Proofs.DayFilters
import Recurrence.Proofs.DeadValues
import Recurrence.Proofs.ExceptionOrder
import Recurrence.Proofs.ExpansionLoop
import Recurrence.Proofs.FourDigitYears
import Recurrence.Proofs.LaterSplits
import Recurrence.Proofs.NeutralSplit
import Recurrence.Proofs.PeriodFloor
import Recurrence.Proofs.PeriodTotals
import Recurrence.Proofs.SecondSearch
import Recurrence.Proofs.SingleExceptions
import Recurrence.Proofs.SplitTexts
import Recurrence.Query
import Recurrence.Rule.Fault
import Recurrence.Rule.Record
import Recurrence.Series.Lemmas
import Recurrence.Settings
import Recurrence.Store.BulkEdit
import Recurrence.Proofs.MergedSegments
import Recurrence.Proofs.ArenaTraversal
import Recurrence.Proofs.ChainDeletion
import Recurrence.Proofs.RuleDrafts
import Recurrence.Proofs.RuleSpellings
