import DeadExports.Main
import DeadExports.Proofs.PathBelow
import DeadExports.Proofs.WalkOrder
import DeadExports.Proofs.Resolution
import DeadExports.Proofs.SourceListing
import DeadExports.Proofs.SequentialPass
import DeadExports.Proofs.Interleaving
import DeadExports.Proofs.Occurrences
import DeadExports.Proofs.CommentTails
import DeadExports.Proofs.CacheHistory
import DeadExports.Proofs.ConfigHistory
import DeadExports.Proofs.Findings
import DeadExports.Proofs.Rewriting
import DeadExports.Proofs.ScanInputs
import DeadExports.Proofs.Exemptions
import DeadExports.Proofs.OptionReading
import DeadExports.Proofs.PartialWrites
import DeadExports.Proofs.CommandOutcome
import DeadExports.Proofs.DamagedText
import DeadExports.Proofs.NameSuffixes
import DeadExports.Proofs.ExportLines
import DeadExports.Proofs.HiddenEntries
import DeadExports.Proofs.MentionSearch
import DeadExports.Proofs.OptionRendering
import DeadExports.Proofs.ReportReading
import DeadExports.Proofs.FaultPositions
import DeadExports.Proofs.RootRespelling
