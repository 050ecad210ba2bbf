import Scriptlet.Main
import Scriptlet.Meaning
import Scriptlet.Proofs.Reading.Progress
import Scriptlet.Proofs.Acceptance
import Scriptlet.Proofs.Unambiguity
import Scriptlet.Proofs.Lowering.WellFormed
import Scriptlet.Proofs.Lowering.Correctness
import Scriptlet.Proofs.Joining.Sessions
import Scriptlet.Proofs.Reading.Termination
import Scriptlet.Proofs.Reading.Recovery
import Scriptlet.Proofs.Lowering.StackBound
import Scriptlet.Proofs.Enclosing.Evaluation
import Scriptlet.Proofs.Enclosing.Scripts
import Scriptlet.Proofs.Footprint.Names
import Scriptlet.Proofs.Footprint.Sessions
import Scriptlet.Proofs.Lexemes
import Scriptlet.Proofs.Scanning
import Scriptlet.Proofs.Tiling
import Scriptlet.Proofs.Semicolons
import Scriptlet.Proofs.Layout
import Scriptlet.Proofs.LongestMatch
import Scriptlet.Proofs.Faults
import Scriptlet.Proofs.StackLimits
import Scriptlet.Proofs.Reading.ScopeRestoration
import Scriptlet.Proofs.Reading.DiagnosticOrder
import Scriptlet.Proofs.Lowering.PositionTable
import Scriptlet.Proofs.ConstantTable
import Scriptlet.Proofs.Arithmetic
import Scriptlet.Proofs.FloatOrder
import Scriptlet.Proofs.Comparisons
import Scriptlet.Proofs.SignedNumerals
import Scriptlet.Proofs.Truncation
import Scriptlet.Proofs.EndOfInput
import Scriptlet.Proofs.Equality
import Scriptlet.Proofs.Listings
