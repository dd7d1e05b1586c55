import TinyBasic.Program

/-!
# Main — the command line

Reads standard input one line at a time and writes each answer before the next line is read. What
is answered is decided by `Program` and `Transcript`; here it is only read and written.
-/

namespace TinyBasic

/-- The bytes up to and including the next newline, or up to the end of the input. -/
partial def nextLine (input : IO.FS.Stream) (before : Array UInt8) : IO (List UInt8) := do
  match (← input.read 1).toList with
  | [] => return before.toList
  | b :: _ => if b = 10 then return (before.push b).toList else nextLine input (before.push b)

/-- Answers lines from standard input until the conversation ends, and gives the exit code. -/
partial def converse (o : Options) (v : Variables) : IO UInt32 := do
  let out ← IO.getStdout
  out.putStr (o.prompt.getD "")
  out.flush
  let bytes ← nextLine (← IO.getStdin) #[]
  if bytes.isEmpty then
    return 0
  -- a single line makes a conversation of its own, which ends early only by its own doing
  let t := Transcript.ofBytes o v bytes
  out.putStr (t.shown "")
  out.flush
  match t.close with
  | .quit => return 0
  | .invalidText =>
      (← IO.getStderr).putStr (Program.complaint Program.invalidText)
      return 1
  | .endOfInput => converse o t.memory

end TinyBasic

/-- Runs the program. -/
def main (args : List String) : IO UInt32 := do
  match TinyBasic.Plan.ofArgs args with
  | .converse o => TinyBasic.converse o ∅
  | plan =>
      let result := TinyBasic.Program.carryOut plan []
      (← IO.getStdout).putStr result.stdout
      (← IO.getStderr).putStr result.stderr
      return result.code.toUInt32
