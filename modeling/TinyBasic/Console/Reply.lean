import TinyBasic.Console.Report
import TinyBasic.Options
import TinyBasic.Text.Upcase
import TinyBasic.Text.WhiteSpace

/-!
# Reply — answering one line

A line is answered in one of three modes: it is run, or its tree or its tokens are shown. Blank
lines have no answer. The answer is what is echoed or reported; what `PRINT` writes goes to the
machine's printout.
-/

namespace TinyBasic

/-- What comes after a line. -/
inductive Flow where
  | proceed
  /-- The line was rejected, and more lines may follow. -/
  | failed
  | quit
  deriving DecidableEq, Repr

/-- The answer to a line. -/
structure Reply where
  flow : Flow
  output : String
  deriving DecidableEq, Repr

namespace Reply

/-- What is shown for a line of text in a mode, unless the line asks to quit. -/
def shown? (mode : Mode) (text : String) : LineM (Option String) :=
  match mode with
  | .eval => do
      match ← Line.run text with
      | .value v => return some v.render
      | .done => return some ""
      | .quit => return none
  | .tree => ofExcept (Line.treeText? text)
  | .tokens => do
      let tokens ← ofExcept (Line.tokens text)
      return some ("\n".intercalate (tokens.map Token.listing))

/-- Whether a line asks to leave without being read as a command. -/
def isExit (line : String) : Bool :=
  (Text.trim line.toList).map Char.toLower == "exit()".toList

/-- Whether a line is all white space. -/
def isBlank (line : String) : Bool :=
  (Text.trim line.toList).isEmpty

/-- The text that is read for a line. -/
def readAs (o : Options) (line : String) : String :=
  if o.upcase then Text.upcase line else line

/-- The answer to a line, and the machine after it. -/
def ofLine (o : Options) (line : String) (m : Machine) : Reply × Machine :=
  if isBlank line then
    (⟨.proceed, ""⟩, m)
  -- this is no word of the language, so it is told before the text is read
  else if isExit line then
    (⟨.quit, ""⟩, m)
  else
    match (shown? o.mode (readAs o line)).run m with
    | .ok none m => (⟨.quit, ""⟩, m)
    | .ok (some shown) m => (⟨.proceed, if shown = "" then "" else shown ++ "\n"⟩, m)
    | .error e m => (⟨.failed, Report.render (readAs o line) e⟩, m)

end Reply
end TinyBasic
