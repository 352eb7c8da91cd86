import Lexicon.Registry.Listing
import Lexicon.Stripped
import Lexicon.Step
import Lexicon.Journal
import Lexicon.Source
import Lexicon.Main
import Lexicon.Definition
import Lexicon.Log.Logger
import Lexicon.Log.Options
import Lexicon.Language.Builtin
import Lexicon.Proofs.Registry
import Lexicon.Proofs.Naming
import Lexicon.Proofs.Grouping
import Lexicon.Proofs.Fragment
import Lexicon.Proofs.Stripped
import Lexicon.Proofs.Unstripping
import Lexicon.Proofs.Restoring
import Lexicon.Proofs.Session
import Lexicon.Proofs.Decoding
import Lexicon.Proofs.SinglePass
import Lexicon.Proofs.Normal
import Lexicon.Proofs.Renaming
import Lexicon.Proofs.Factorization
import Lexicon.Proofs.Matching
import Lexicon.Proofs.Slots
import Lexicon.Proofs.Store
import Lexicon.Proofs.Escapes
import Lexicon.Proofs.Scanning
import Lexicon.Proofs.Comments
import Lexicon.Proofs.Lines
import Lexicon.Proofs.Settled
import Lexicon.Proofs.Literals
import Lexicon.Proofs.Numbering
import Lexicon.Proofs.Seams
import Lexicon.Proofs.Sewing
import Lexicon.Proofs.Logger
import Lexicon.Proofs.Written
import Lexicon.Proofs.Definition
import Lexicon.Proofs.Skipping
import Lexicon.Proofs.Remapping
import Lexicon.Proofs.Stored
import Lexicon.Proofs.Counter
import Lexicon.Proofs.PerFile
import Lexicon.Proofs.Status
import Lexicon.Proofs.Printed
import Lexicon.Proofs.Boundaries
import Lexicon.Proofs.Filter
import Lexicon.Proofs.JsonLines
import Lexicon.Proofs.Faults
