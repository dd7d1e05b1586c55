import TinyBasic.Machine.Eval
import TinyBasic.Parse.Command

/-!
# Line — running lines of text

A line of text is scanned, read as a command and evaluated. `LineError` keeps apart the three
layers in which this can fail; an error of the scan that is met while reading the line is reported
by the reader, and only a request for the tokens alone reports it as its own.
-/

namespace TinyBasic

/-- What running a line came to. -/
inductive Outcome where
  /-- An expression with this value. -/
  | value (v : Value)
  /-- A statement, which has no value. -/
  | done
  | quit
  deriving DecidableEq, Repr

/-- Why a line failed. -/
inductive LineError where
  | scan (error : ScanError)
  | parse (error : ParseError)
  | eval (error : EvalError)
  deriving DecidableEq, Repr

namespace LineError

/-- The text of the error. -/
def message : LineError → String
  | scan e => e.message
  | parse e => e.message
  | eval e => e.message

/-- The part of the line at fault. An error of evaluation has no place in the line. -/
def span? : LineError → Option Span
  | scan e => some e.span
  | parse e => some e.span
  | eval _ => none

/-- Whether the fault lies in the text of the line, so that nothing was evaluated. -/
def inText : LineError → Bool
  | eval _ => false
  | _ => true

end LineError

/-- Running lines: it changes a machine, and may fail. -/
abbrev LineM := EStateM LineError Machine

namespace Line

/-- Runs a line of text. -/
def run (text : String) : LineM Outcome := do
  match ← ofExcept ((Command.ofText text).mapError .parse) with
  | .quit => return .quit
  | .line tree =>
      match ← tree.eval.adaptExcept .eval with
      | .void => return .done
      | v => return .value v

/-- The tokens of a line of text. -/
def tokens (text : String) : Except LineError (List Token) :=
  (Scan.ofText text).result.mapError .scan

/-- The tree of a line of text as it is shown. The word `QUIT` has no tree. -/
def treeText? (text : String) : Except LineError (Option String) := do
  match ← (Command.ofText text).mapError .parse with
  | .quit => return none
  | .line tree => return some tree.render

end Line
end TinyBasic
