import TinyBasic.Console.Reply

/-!
# Transcript — a conversation

A conversation answers lines one after the other until a line asks to quit or there are no more
lines. The lines are given in a list, or read from a sequence of bytes with a prompt before every
read. Reading also ends at a line that is not UTF-8.

A transcript keeps the exchanges apart, so that what is echoed, what is printed and what a terminal
shows of both are three views of one conversation.
-/

namespace TinyBasic

/-- One line answered: the answer, and what `PRINT` wrote. -/
structure Exchange where
  reply : Reply
  printed : String
  deriving DecidableEq, Repr

/-- The exchange over one line, and the variables after it. -/
def Exchange.ofLine (o : Options) (v : Variables) (line : String) : Exchange × Variables :=
  let (reply, m) := Reply.ofLine o line { memory := v }
  (⟨reply, m.printed.text⟩, m.memory)

/-- Why a conversation ended. -/
inductive Close where
  /-- A line asked to quit. -/
  | quit
  /-- There were no more lines. -/
  | endOfInput
  /-- A line was not UTF-8. -/
  | invalidText
  deriving DecidableEq, Repr

/-- A conversation from beginning to end. -/
structure Transcript where
  exchanges : List Exchange
  close : Close
  /-- The variables at the end. -/
  memory : Variables
  /-- The number of bytes that were never read. -/
  unread : Nat
  deriving DecidableEq, Repr

namespace Transcript

/-- The transcript with an exchange put in front. -/
def cons (x : Exchange) (t : Transcript) : Transcript :=
  { t with exchanges := x :: t.exchanges }

/-! ## Lines from a list -/

/-- The conversation over the given lines. -/
def ofLines (o : Options) (v : Variables) : List String → Transcript
  | [] => ⟨[], .endOfInput, v, 0⟩
  | line :: lines =>
      let (x, v) := Exchange.ofLine o v line
      if x.reply.flow = .quit then
        ⟨[x], .quit, v, 0⟩
      else
        cons x (ofLines o v lines)

/-! ## Lines from bytes -/

/-- The bytes of the first line, without its newline. -/
def firstLine (bytes : List UInt8) : List UInt8 :=
  bytes.takeWhile (· ≠ 10)

/-- The bytes behind the first line and its newline. -/
def laterLines (bytes : List UInt8) : List UInt8 :=
  bytes.drop ((firstLine bytes).length + 1)

/-- The text of a line, without the carriage returns at its end. -/
def lineText? (bytes : List UInt8) : Option String :=
  (String.fromUTF8? bytes.toByteArray).map fun text =>
    String.ofList (Text.dropTrailing (fun c => c == '\n' || c == '\r') text.toList)

/-- The conversation over the lines of a sequence of bytes. -/
def ofBytes (o : Options) (v : Variables) (bytes : List UInt8) : Transcript :=
  match bytes with
  | [] => ⟨[], .endOfInput, v, 0⟩
  | b :: bs =>
      match lineText? (firstLine (b :: bs)) with
      | none => ⟨[], .invalidText, v, (laterLines (b :: bs)).length⟩
      | some line =>
          let (x, v) := Exchange.ofLine o v line
          if x.reply.flow = .quit then
            ⟨[x], .quit, v, (laterLines (b :: bs)).length⟩
          else
            cons x (ofBytes o v (laterLines (b :: bs)))
termination_by bytes.length
decreasing_by
  simp only [laterLines, List.length_drop, List.length_cons]
  omega

/-! ## Views -/

/-- Whether no line was rejected. -/
def succeeded (t : Transcript) : Bool :=
  t.exchanges.all fun x => x.reply.flow ≠ .failed

/-- What `PRINT` wrote. -/
def printed (t : Transcript) : String :=
  String.join (t.exchanges.map Exchange.printed)

/-- The prompt of the read that found no line. A conversation that quits makes no such read. -/
def lastPrompt (t : Transcript) (prompt : String) : String :=
  if t.close = .quit then "" else prompt

/-- What was prompted, echoed and reported, with the given prompt before every read. -/
def output (t : Transcript) (prompt : String) : String :=
  String.join (t.exchanges.map fun x => prompt ++ x.reply.output) ++ t.lastPrompt prompt

/-- All that a terminal shows: each line's printing comes before its echo or report. -/
def shown (t : Transcript) (prompt : String) : String :=
  String.join (t.exchanges.map fun x => prompt ++ x.printed ++ x.reply.output) ++
    t.lastPrompt prompt

end Transcript
end TinyBasic
