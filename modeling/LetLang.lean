import LetLang.Diagnostic.Report
import LetLang.Proofs.Acceptance
import LetLang.Proofs.Addressing
import LetLang.Proofs.Boundary
import LetLang.Proofs.Caret
import LetLang.Proofs.Charging
import LetLang.Proofs.Concatenation
import LetLang.Proofs.Coverage
import LetLang.Proofs.Cursor
import LetLang.Proofs.Delimiting
import LetLang.Proofs.Earliest
import LetLang.Proofs.Enclosure
import LetLang.Proofs.Ending
import LetLang.Proofs.Excerpt
import LetLang.Proofs.Grammar.Core
import LetLang.Proofs.Grammar.Subtree
import LetLang.Proofs.Grouping
import LetLang.Proofs.Height
import LetLang.Proofs.Isolation
import LetLang.Proofs.Kinds
import LetLang.Proofs.Order
import LetLang.Proofs.Parens
import LetLang.Proofs.Progress
import LetLang.Proofs.Restoring
import LetLang.Proofs.RoundTrip
import LetLang.Proofs.Slicing
import LetLang.Proofs.Spans
import LetLang.Proofs.Stored
import LetLang.Proofs.Tiling
import LetLang.Proofs.Truth
