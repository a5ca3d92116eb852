import TextHygiene.Json.Reader
import TextHygiene.Main
import TextHygiene.Proofs.BoundedSinks
import TextHygiene.Proofs.ExchangeRuns
import TextHygiene.Proofs.ExitStatus
import TextHygiene.Proofs.FaultRanges
import TextHygiene.Proofs.FirstFaults
import TextHygiene.Proofs.FirstOccurrences
import TextHygiene.Proofs.HiddenEntries
import TextHygiene.Proofs.LineLocality
import TextHygiene.Proofs.ListedExtensions
import TextHygiene.Proofs.NormalSettings
import TextHygiene.Proofs.OutputFile
import TextHygiene.Proofs.PassBookkeeping
import TextHygiene.Proofs.ReadErrors
import TextHygiene.Proofs.ReportLines
import TextHygiene.Proofs.Rounds
import TextHygiene.Proofs.SurveyLocality
import TextHygiene.Proofs.TabSizes
import TextHygiene.Proofs.TidyText
import TextHygiene.Proofs.UnreadablePaths
import TextHygiene.Proofs.UntouchedFiles
import TextHygiene.Proofs.WordCounters
import TextHygiene.Rule.Json
import TextHygiene.Survey.Workers
import TextHygiene.Tidy
