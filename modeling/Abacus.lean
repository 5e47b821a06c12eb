import Abacus.Main
import Abacus.Rule.Readings
import Abacus.Proofs.Reduction
import Abacus.Proofs.Sequence
import Abacus.Proofs.Front
import Abacus.Proofs.SideBySide
import Abacus.Proofs.Layout
import Abacus.Proofs.Arithmetic
import Abacus.Proofs.Grammar
import Abacus.Proofs.Denotation
import Abacus.Proofs.Acceptance
import Abacus.Proofs.Phases
import Abacus.Proofs.Bytes
import Abacus.Proofs.Progress
import Abacus.Proofs.Bits
import Abacus.Proofs.Literal
import Abacus.Proofs.Depth
import Abacus.Proofs.Exchange
import Abacus.Proofs.Reference
import Abacus.Proofs.Replacement
import Abacus.Proofs.Nesting
import Abacus.Proofs.Enclosure
import Abacus.Proofs.Shape
import Abacus.Proofs.Registration
import Abacus.Proofs.Agreement
import Abacus.Proofs.Limit
import Abacus.Proofs.Extension
import Abacus.Proofs.Locality
import Abacus.Proofs.Place
import Abacus.Proofs.Trailing
import Abacus.Proofs.Printed
import Abacus.Proofs.Offsets
import Abacus.Proofs.Checked
import Abacus.Proofs.Faultless
import Abacus.Proofs.Precedence
import Abacus.Proofs.Segments
import Abacus.Proofs.Spacing
import Abacus.Proofs.Lines
import Abacus.Proofs.Settings
import Abacus.Proofs.Script
import Abacus.Proofs.Collections
import Abacus.Proofs.Bindings
import Abacus.Proofs.Display
import Abacus.Proofs.Signs
import Abacus.Proofs.Tolerance
import Abacus.Proofs.Matching
import Abacus.Proofs.Insertion
import Abacus.Proofs.Traversal
