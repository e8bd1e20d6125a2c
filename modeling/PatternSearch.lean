import PatternSearch.Log
import PatternSearch.Main
import PatternSearch.Proofs.Language
import PatternSearch.Proofs.Priority
import PatternSearch.Proofs.Limit
import PatternSearch.Proofs.Grammar
import PatternSearch.Proofs.Parsing
import PatternSearch.Proofs.Trim
import PatternSearch.Proofs.Journey
import PatternSearch.Proofs.Revisit
import PatternSearch.Proofs.RoundTrip
import PatternSearch.Proofs.Moment
import PatternSearch.Proofs.Safety
import PatternSearch.Proofs.Suffix
import PatternSearch.Proofs.Bracketing
import PatternSearch.Proofs.Path
import PatternSearch.Proofs.Termination
import PatternSearch.Proofs.Reachability
import PatternSearch.Proofs.Undoing
import PatternSearch.Proofs.Extension
import PatternSearch.Proofs.Unread
import PatternSearch.Proofs.Respelling
import PatternSearch.Proofs.Culprit
import PatternSearch.Proofs.Escaping
import PatternSearch.Proofs.ExitCode
import PatternSearch.Proofs.Legibility
import PatternSearch.Proofs.ClosedBlock
import PatternSearch.Proofs.LastVisit
import PatternSearch.Proofs.History
