import Ephp.Main
import Ephp.World
import Ephp.Proofs.Dedent
import Ephp.Proofs.Step
import Ephp.Proofs.Material
import Ephp.Proofs.Outcome
import Ephp.Proofs.Braces
import Ephp.Proofs.Balance
import Ephp.Proofs.Lockstep
import Ephp.Proofs.Forest
import Ephp.Proofs.Compose
import Ephp.Proofs.Return
import Ephp.Proofs.Collect
import Ephp.Proofs.DoLoop
import Ephp.Proofs.Written
import Ephp.Proofs.Placement
import Ephp.Proofs.Reuse
import Ephp.Proofs.Ending
import Ephp.Proofs.Enclosure
import Ephp.Proofs.Page
import Ephp.Proofs.Verbatim
import Ephp.Proofs.Breaks
import Ephp.Proofs.Grammar
import Ephp.Proofs.Faults
import Ephp.Proofs.Run
import Ephp.Proofs.Interruption
import Ephp.Proofs.Remarks
import Ephp.Proofs.Shape
import Ephp.Proofs.Custody
import Ephp.Proofs.Segments
import Ephp.Proofs.Literals
import Ephp.Proofs.Rewriting
import Ephp.Proofs.Sigils
import Ephp.Proofs.Quotation
import Ephp.Proofs.Arms
import Ephp.Proofs.Doubling
import Ephp.Proofs.Escapes
import Ephp.Proofs.Words
import Ephp.Proofs.Callees
import Ephp.Proofs.Keywords
import Ephp.Proofs.Counting
import Ephp.Proofs.Selectors
import Ephp.Proofs.Fixtures
import Ephp.Proofs.Tails
import Ephp.Proofs.Brackets
import Ephp.Proofs.Items
import Ephp.Proofs.Elements
import Ephp.Proofs.Collections
import Ephp.Proofs.Unbroken
import Ephp.Proofs.Labels
import Ephp.Proofs.Callables
import Ephp.Proofs.Parameters
import Ephp.Proofs.Rejection
import Ephp.Proofs.Nesting
