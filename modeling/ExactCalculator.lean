import ExactCalculator.Fraction.Order
import ExactCalculator.Grammar
import ExactCalculator.Main
import ExactCalculator.Registers
import ExactCalculator.Session
import ExactCalculator.Trace
import ExactCalculator.Proofs.Fraction.Meaning
import ExactCalculator.Proofs.Alphabet
import ExactCalculator.Proofs.Derivation.Growth
import ExactCalculator.Proofs.Derivation.Unique
import ExactCalculator.Proofs.Machine.Steps
import ExactCalculator.Proofs.Text.Position
import ExactCalculator.Proofs.Derivation.Value
import ExactCalculator.Proofs.Machine.Tracking
import ExactCalculator.Proofs.Machine.Endings
import ExactCalculator.Proofs.Machine.Paths
import ExactCalculator.Proofs.Acceptance
import ExactCalculator.Proofs.RoundTrip
import ExactCalculator.Proofs.Blame.Parts
import ExactCalculator.Proofs.Derivation.Completion
import ExactCalculator.Proofs.Blame.ViablePrefix
import ExactCalculator.Proofs.Blame.Exact
import ExactCalculator.Proofs.Interrupt.PollPoints
import ExactCalculator.Proofs.Interrupt.Simulation
import ExactCalculator.Proofs.Registers
import ExactCalculator.Proofs.Machine.Relocation
import ExactCalculator.Proofs.Invisible
import ExactCalculator.Proofs.Text.Styled
import ExactCalculator.Proofs.Trace.Written
import ExactCalculator.Proofs.Console
import ExactCalculator.Proofs.DepthLimit
import ExactCalculator.Proofs.Text.Layout
import ExactCalculator.Proofs.Trace.Parts
import ExactCalculator.Proofs.Trace.Reported
import ExactCalculator.Proofs.Trace.Failing
import ExactCalculator.Proofs.Trace.Recorded
import ExactCalculator.Proofs.Trace.Brackets
import ExactCalculator.Proofs.Trace.Derivation
import ExactCalculator.Proofs.Trace.Reproduction
import ExactCalculator.Proofs.Fraction.Canonical
import ExactCalculator.Proofs.Fraction.Numbers
import ExactCalculator.Proofs.Fraction.Sums
import ExactCalculator.Proofs.Fraction.Ordering
import ExactCalculator.Proofs.Fraction.Construction
import ExactCalculator.Proofs.Accumulation
import ExactCalculator.Proofs.Composition
import ExactCalculator.Proofs.Substitution
import ExactCalculator.Proofs.Trace.Condensed
import ExactCalculator.Proofs.Blame.Reach
import ExactCalculator.Proofs.Interrupt.Later
import ExactCalculator.Proofs.Interrupt.Raised
import ExactCalculator.Proofs.Highlight
import ExactCalculator.Proofs.Rewriting.Signs
import ExactCalculator.Proofs.Rewriting.Juxtaposition
import ExactCalculator.Proofs.Rewriting.Terminator
import ExactCalculator.Proofs.Trace.Absorption
import ExactCalculator.Proofs.Text.Places
import ExactCalculator.Proofs.Trace.OpenRules
import ExactCalculator.Proofs.Trace.Entries
import ExactCalculator.Proofs.Placement
import ExactCalculator.Proofs.Cursor
