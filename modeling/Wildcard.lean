import Wildcard.Files
import Wildcard.Main
import Wildcard.Session
import Wildcard.Proofs.Compilation
import Wildcard.Proofs.Finding
import Wildcard.Proofs.Matches
import Wildcard.Proofs.RegexFinding
import Wildcard.Proofs.Enumeration
import Wildcard.Proofs.LoadHistory
import Wildcard.Proofs.WrittenDocument
import Wildcard.Proofs.Sessions
import Wildcard.Proofs.Filtering
import Wildcard.Proofs.Refiltering
import Wildcard.Proofs.Independence
import Wildcard.Proofs.SettingSources
import Wildcard.Proofs.Reads
import Wildcard.Proofs.RunChoice
import Wildcard.Proofs.Layout
import Wildcard.Proofs.QuotedLiteral
import Wildcard.Proofs.RangeChecks
import Wildcard.Proofs.UnreadableValues
import Wildcard.Proofs.Accesses
import Wildcard.Proofs.BestRun
import Wildcard.Proofs.WordNumbers
