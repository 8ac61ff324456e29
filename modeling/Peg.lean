import Peg.Grammar.Render
import Peg.Matcher.Lemmas
import Peg.Parse
import Peg.Proofs.Alternatives
import Peg.Proofs.Backtracking
import Peg.Proofs.Boundaries
import Peg.Proofs.CallDepth
import Peg.Proofs.Displacement
import Peg.Proofs.Furthest
import Peg.Proofs.FurthestFailure
import Peg.Proofs.GenuineFailure
import Peg.Proofs.Grammar.Binding
import Peg.Proofs.Grammar.Reachable
import Peg.Proofs.Grammar.Rendering
import Peg.Proofs.Grammar.Reporting
import Peg.Proofs.Independence
import Peg.Proofs.Leaves.Flattening
import Peg.Proofs.Leaves.Order
import Peg.Proofs.Leaves.Slicing
import Peg.Proofs.Leaves.Tiling
import Peg.Proofs.Location
import Peg.Proofs.Precedence.Climbing
import Peg.Proofs.Precedence.Entry
import Peg.Proofs.Precedence.Expansion
import Peg.Proofs.Precedence.Folding
import Peg.Proofs.Precedence.Nesting
import Peg.Proofs.Precedence.Scopes
import Peg.Proofs.Precedence.Stalling
import Peg.Proofs.Recognition
import Peg.Proofs.Repetition
import Peg.Proofs.Termination
import Peg.Proofs.Text.Decoding
import Peg.Proofs.Text.Language
import Peg.Proofs.Trace
import Peg.Proofs.Visibility
import Peg.Value.Describe
