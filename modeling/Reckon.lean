import Reckon.Main
import Reckon.Proofs.Lowering.Computation
import Reckon.Proofs.Lowering.Steps
import Reckon.Proofs.Meaning.Evaluation
import Reckon.Proofs.Link.Declarations
import Reckon.Proofs.Lowering.Growth
import Reckon.Proofs.Meaning.Simulation
import Reckon.Proofs.Binary64.Comparison
import Reckon.Proofs.Meaning.Position
import Reckon.Proofs.Meaning.Layout
import Reckon.Proofs.Meaning.Ready
import Reckon.Proofs.Meaning.Preservation
import Reckon.Proofs.Meaning.Functions
import Reckon.Proofs.Lowering.References
import Reckon.Proofs.Session.Forms
import Reckon.Proofs.Grammar.OperatorTree
import Reckon.Proofs.Grammar.Precedence
import Reckon.Proofs.Link.Coherence
import Reckon.Proofs.Machine.Provenance
import Reckon.Proofs.Machine.Guard
import Reckon.Proofs.Session.Guard
import Reckon.Proofs.Session.Backend
import Reckon.Proofs.Grammar.Chains
import Reckon.Proofs.Grammar.Phrases
import Reckon.Proofs.Grammar.Spelling
import Reckon.Proofs.Grammar.Expressions
import Reckon.Proofs.Grammar.Items
import Reckon.Proofs.Syntax.Everywhere
import Reckon.Proofs.Grammar.Declared
import Reckon.Proofs.Lowering.Rejection
import Reckon.Proofs.Session.Operators
import Reckon.Proofs.Binary64.Rounding
import Reckon.Proofs.Token.Numerals
import Reckon.Proofs.Grammar.Writing
import Reckon.Proofs.Grammar.RoundTrip
import Reckon.Proofs.Lowering.Arguments
import Reckon.Proofs.Link.Arities
import Reckon.Proofs.Machine.Calls
import Reckon.Proofs.Grammar.Symbols
import Reckon.Proofs.Session.Arities
import Reckon.Proofs.Session.Drivers
import Reckon.Proofs.Lowering.WellFormed
import Reckon.Proofs.Session.Orders
import Reckon.Proofs.Token.Segmentation
import Reckon.Proofs.Lowering.Needs
import Reckon.Proofs.Link.Tables
import Reckon.Proofs.Session.Tables
import Reckon.Proofs.Session.Search
import Reckon.Proofs.Lowering.Violations
import Reckon.Proofs.Lowering.Answers
import Reckon.Proofs.Session.Violations
import Reckon.Proofs.Lowering.Scoping
import Reckon.Proofs.Syntax.Renaming
import Reckon.Proofs.Lowering.Renaming
import Reckon.Proofs.Session.Renaming
import Reckon.Proofs.Grammar.Procedures
import Reckon.Proofs.Grammar.Lookahead
import Reckon.Proofs.Session.Lookahead
import Reckon.Proofs.Session.Progress
import Reckon.Proofs.Grammar.Congruence
import Reckon.Proofs.Grammar.Mistakes
import Reckon.Proofs.Session.Mistakes
import Reckon.Proofs.Syntax.Parts
import Reckon.Proofs.Grammar.WellFormed
import Reckon.Proofs.Text.Lines
import Reckon.Proofs.Token.LineEnds
import Reckon.Proofs.Grammar.Places
import Reckon.Proofs.Session.Modes
import Reckon.Proofs.Lowering.Congruence
import Reckon.Proofs.Lowering.Background
import Reckon.Proofs.Session.Background
import Reckon.Proofs.Syntax.Bracketed
import Reckon.Proofs.Syntax.Symbolic
import Reckon.Proofs.Binary64.Bits
import Reckon.Proofs.Binary64.Nearest
import Reckon.Proofs.Token.SecondDot
