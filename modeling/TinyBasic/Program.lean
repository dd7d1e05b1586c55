import TinyBasic.Console.Transcript

/-!
# Program — from arguments to exit code

The whole program as a function: the arguments and the bytes of standard input determine the exit
code and what is written on standard output and standard error.
-/

namespace TinyBasic

/-- What the arguments ask the program to do. -/
inductive Plan where
  /-- The arguments are at fault. -/
  | refuse (error : OptionError)
  /-- Help is wanted. -/
  | help
  /-- The lines among the arguments are to be run. -/
  | batch (options : Options)
  /-- Lines are to be read and answered. -/
  | converse (options : Options)
  deriving DecidableEq, Repr

/-- The plan that arguments make. -/
def Plan.ofArgs (args : List String) : Plan :=
  match Options.ofArgs args with
  | .error e => .refuse e
  | .ok o => if o.help then .help else if o.lines = [] then .converse o else .batch o

namespace Program

/-- What the program leaves behind. -/
structure Result where
  code : Nat
  stdout : String
  stderr : String
  deriving DecidableEq, Repr

/-- The text of the help. -/
def usage : String :=
  "Usage: tbasic [options]\n" ++
  "\n" ++
  "Reads one line at a time from stdin and runs it.\n" ++
  "Type QUIT or exit() to leave.\n" ++
  "\n" ++
  "Options:\n" ++
  "  -e <line>, --eval=<line>  Run <line> instead of reading stdin (repeatable)\n" ++
  "  --tree                    Print the parse tree instead of evaluating\n" ++
  "  --tokens                  Print the tokens instead of evaluating\n" ++
  "  --raw                     Do not upper-case input\n" ++
  "  -q, --quiet               No prompt\n" ++
  "  --prompt=<text>           Prompt text (default: \"> \")\n" ++
  "  -h, --help                Show this message\n" ++
  "\n" ++
  "Logging: set TBASIC_LOG (or RUST_LOG), e.g. TBASIC_LOG=tb_parse=trace\n"

/-- The message about input that is not UTF-8. -/
def invalidText : String :=
  "stream did not contain valid UTF-8"

/-- A message as it is written on standard error. -/
def complaint (message : String) : String :=
  "error: " ++ message ++ "\n"

/-- The result of reading and answering lines. -/
def ofTranscript (prompt : String) (t : Transcript) : Result :=
  if t.close = .invalidText then
    ⟨1, t.shown prompt, complaint invalidText⟩
  else
    ⟨0, t.shown prompt, ""⟩

/-- The result of carrying out a plan on the bytes of standard input. -/
def carryOut (plan : Plan) (stdin : List UInt8) : Result :=
  match plan with
  | .refuse e => ⟨1, "", complaint e.message ++ "\n" ++ usage⟩
  | .help => ⟨0, "", usage⟩
  | .batch o =>
      let t := Transcript.ofLines o ∅ o.lines
      ⟨if t.succeeded then 0 else 1, t.shown "", ""⟩
  | .converse o => ofTranscript (o.prompt.getD "") (Transcript.ofBytes o ∅ stdin)

/-- The result of the program. -/
def run (args : List String) (stdin : List UInt8) : Result :=
  carryOut (Plan.ofArgs args) stdin

end Program
end TinyBasic
