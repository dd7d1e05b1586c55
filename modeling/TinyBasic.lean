import TinyBasic.Main
import TinyBasic.Proofs.Grammar.Basic
import TinyBasic.Proofs.Grammar.Soundness
import TinyBasic.Proofs.Grammar.Completeness
import TinyBasic.Proofs.Grammar.Reading
import TinyBasic.Proofs.Machine.Evaluation
import TinyBasic.Proofs.Machine.Running
import TinyBasic.Proofs.Machine.Safety
import TinyBasic.Proofs.Machine.Transaction
import TinyBasic.Proofs.Token.Spacing
import TinyBasic.Proofs.Tree.Source
import TinyBasic.Proofs.Tree.RoundTrip
import TinyBasic.Proofs.Token.Munch
import TinyBasic.Proofs.Token.Stream
import TinyBasic.Proofs.Token.Tiling
import TinyBasic.Proofs.Grammar.Extent
import TinyBasic.Proofs.Fault.Viable
import TinyBasic.Proofs.Fault.Agreement
import TinyBasic.Proofs.Token.Casing
import TinyBasic.Proofs.Console.Caret
import TinyBasic.Proofs.Machine.Printing
import TinyBasic.Proofs.Text.Lines
import TinyBasic.Proofs.Console.Modes
import TinyBasic.Proofs.Console.Conversation
import TinyBasic.Proofs.Console.Listening
import TinyBasic.Proofs.Console.Outcome
import TinyBasic.Proofs.Machine.Footprint
import TinyBasic.Proofs.Machine.Independence
import TinyBasic.Proofs.Machine.Arithmetic
import TinyBasic.Proofs.Fault.Suggestion
import TinyBasic.Proofs.Token.Composition
import TinyBasic.Proofs.Grammar.Placeless
import TinyBasic.Proofs.Machine.Respacing
import TinyBasic.Proofs.Grammar.Parts
import TinyBasic.Proofs.Machine.Guard
import TinyBasic.Proofs.Machine.Numeral
import TinyBasic.Proofs.Machine.Division
import TinyBasic.Proofs.Machine.History
import TinyBasic.Proofs.Tree.Unambiguous
import TinyBasic.Proofs.Console.Settings
import TinyBasic.Proofs.Console.Arguments
import TinyBasic.Proofs.Grammar.Trace
import TinyBasic.Proofs.Grammar.Faithful
import TinyBasic.Proofs.Grammar.Progress
import TinyBasic.Proofs.Grammar.Descent
