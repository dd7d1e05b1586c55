import TinyBasic.Console.Transcript
import TinyBasic.Proofs.Console.Modes
import TinyBasic.Proofs.Machine.Printing

/-!
# Conversation — a transcript tells what the machine answered

A conversation is a machine that is given lines one after the other, each on what the line before
has left behind (`turns`), up to and including the first line that asks to quit (`heard`). A
transcript starts every line with an empty printout. It comes to the same, because the printout is
never read: `Recounts o m lines t` says that `t` tells what happens on the machine `m`, whatever
`m` has printed before.

`events` puts the prompts between the answers: one before every line, and one more if there is no
line left. What is seen of a conversation is the text of its events in order.
-/

namespace TinyBasic
namespace Conversation

/-! ## Turns -/

/-- One line answered: the machine before it, the answer, and the machine after it. -/
structure Turn where
  before : Machine
  reply : Reply
  after : Machine
  deriving DecidableEq

namespace Turn

/-- The turn of a line on a machine. -/
def ofLine (o : Options) (m : Machine) (line : String) : Turn :=
  ⟨m, (Reply.ofLine o line m).1, (Reply.ofLine o line m).2⟩

/-- Whether the line asked to quit. -/
def quits (x : Turn) : Bool :=
  x.reply.flow = .quit

/-- The lines that were printed: those that the printout has behind the ones it had before. -/
def lines (x : Turn) : List String :=
  x.after.printed.lines.drop x.before.printed.lines.length

/-- What was printed: each of the lines with its newline. -/
def printed (x : Turn) : String :=
  String.join (x.lines.map (· ++ "\n"))

/-- What a transcript keeps of the turn. -/
def exchange (x : Turn) : Exchange :=
  ⟨x.reply, x.printed⟩

end Turn

/-- The turns of lines that are answered one after the other, whatever comes of them. -/
def turns (o : Options) (m : Machine) : List String → List Turn
  | [] => []
  | line :: lines => Turn.ofLine o m line :: turns o (Turn.ofLine o m line).after lines

/-- The turns of the lines that are answered: those up to the first that quits, and this one. -/
def heard (o : Options) (m : Machine) (lines : List String) : List Turn :=
  (turns o m lines).take ((turns o m lines).findIdx Turn.quits + 1)

/-- The machine after turns that started with `m`. -/
def afterwards (m : Machine) (xs : List Turn) : Machine :=
  xs.foldl (fun _ x => x.after) m

theorem heard_nil (o : Options) (m : Machine) : heard o m [] = [] := rfl

theorem heard_cons (o : Options) (m : Machine) (line : String) (lines : List String) :
    heard o m (line :: lines) =
      if (Turn.ofLine o m line).quits then [Turn.ofLine o m line]
      else Turn.ofLine o m line :: heard o (Turn.ofLine o m line).after lines := by
  simp only [heard, turns, List.findIdx_cons]
  cases (Turn.ofLine o m line).quits <;> rfl

/-! ## Turns and exchanges -/

/-- A line does the same on a machine with an empty printout. -/
theorem ofLine_of_memory (o : Options) (line : String) (m : Machine) :
    Reply.ofLine o line m =
      ((Reply.ofLine o line m.emptied).1, (Reply.ofLine o line m.emptied).2.behind m.printed) := by
  -- what has been printed before is only kept, and never looked at
  have hbehind := Printing.ofLine_behind o line m.printed m.emptied
  rwa [Machine.behind_printed] at hbehind

/-- The lines of a turn are all that is in the printout of a machine that had nothing printed. -/
theorem lines_ofLine (o : Options) (m : Machine) (line : String) :
    (Turn.ofLine o m line).lines = (Reply.ofLine o line m.emptied).2.printed.lines := by
  simp only [Turn.lines, Turn.ofLine]
  rw [ofLine_of_memory o line m]
  simp only [Machine.lines_behind, List.drop_left]

theorem exchange_ofLine (o : Options) (m : Machine) (line : String) :
    Exchange.ofLine o m.memory line =
      ((Turn.ofLine o m line).exchange, (Turn.ofLine o m line).after.memory) := by
  have hreply := ofLine_of_memory o line m
  have htext : (Reply.ofLine o line m.emptied).2.printed.text =
      (Turn.ofLine o m line).printed := by
    rw [Turn.printed, lines_ofLine]
    rfl
  have hturn : Turn.ofLine o m line = ⟨m, (Reply.ofLine o line m.emptied).1,
      (Reply.ofLine o line m.emptied).2.behind m.printed⟩ := by
    rw [Turn.ofLine, hreply]
  rw [Turn.exchange, ← htext, hturn]
  rfl

theorem text_after (o : Options) (m : Machine) (line : String) :
    (Turn.ofLine o m line).after.printed.text =
      m.printed.text ++ (Turn.ofLine o m line).printed := by
  have hafter : (Turn.ofLine o m line).after.printed.lines =
      m.printed.lines ++ (Turn.ofLine o m line).lines := by
    rw [lines_ofLine, Turn.ofLine, ofLine_of_memory o line m, Machine.lines_behind]
  simp only [Printout.text, hafter, Turn.printed, List.map_append, String.join_append]

/-! ## Transcripts -/

/-- The transcript tells of the lines as they are answered on the machine. -/
structure Recounts (o : Options) (m : Machine) (lines : List String) (t : Transcript) : Prop where
  exchanges : t.exchanges = (heard o m lines).map Turn.exchange
  memory : t.memory = (afterwards m (heard o m lines)).memory
  quit_iff : t.close = .quit ↔ (heard o m lines).any Turn.quits = true

theorem Recounts.nil (o : Options) (m : Machine) {t : Transcript} (hexchanges : t.exchanges = [])
    (hmemory : t.memory = m.memory) (hclose : t.close ≠ .quit) : Recounts o m [] t where
  exchanges := hexchanges
  memory := hmemory
  quit_iff := by simp [heard_nil, hclose]

/-- The conversation that begins with a line and goes on as `rest` does, unless the line quits. -/
def begunWith (o : Options) (v : Variables) (line : String) (unread : Nat)
    (rest : Variables → Transcript) : Transcript :=
  if (Exchange.ofLine o v line).1.reply.flow = .quit then
    ⟨[(Exchange.ofLine o v line).1], .quit, (Exchange.ofLine o v line).2, unread⟩
  else
    Transcript.cons (Exchange.ofLine o v line).1 (rest (Exchange.ofLine o v line).2)

theorem Recounts.begunWith {o : Options} {lines : List String} {rest : Variables → Transcript}
    (h : ∀ m : Machine, Recounts o m lines (rest m.memory)) (m : Machine) (line : String)
    (unread : Nat) :
    Recounts o m (line :: lines) (Conversation.begunWith o m.memory line unread rest) := by
  have htail := h (Turn.ofLine o m line).after
  simp only [Conversation.begunWith, exchange_ofLine]
  split
  case isTrue hquit =>
    have hquits : (Turn.ofLine o m line).quits = true := decide_eq_true hquit
    constructor <;> simp [heard_cons, hquits, afterwards]
  case isFalse hquit =>
    have hquits : (Turn.ofLine o m line).quits = false := decide_eq_false hquit
    constructor
    · simp [heard_cons, hquits, Transcript.cons, htail.exchanges]
    · simp [heard_cons, hquits, Transcript.cons, htail.memory, afterwards]
    · simpa [heard_cons, hquits, Transcript.cons] using htail.quit_iff

/-- A conversation over given lines. -/
theorem recounts_ofLines (o : Options) (m : Machine) (lines : List String) :
    Recounts o m lines (Transcript.ofLines o m.memory lines) := by
  induction lines generalizing m with
  | nil => exact .nil o m rfl rfl (by simp [Transcript.ofLines])
  | cons line lines ih =>
      have hbegin : Transcript.ofLines o m.memory (line :: lines) =
          begunWith o m.memory line 0 fun v => Transcript.ofLines o v lines := rfl
      rw [hbegin]
      exact Recounts.begunWith ih m line 0

/-! ## Events -/

/-- What happens in a conversation: a prompt, or a line that is answered. -/
inductive Event where
  | prompt
  | turn (x : Turn)
  deriving DecidableEq

/-- What is prompted, echoed or reported. -/
def Event.output (prompt : String) : Event → String
  | .prompt => prompt
  | .turn x => x.reply.output

/-- The same with what is printed. -/
def Event.shown (prompt : String) : Event → String
  | .prompt => prompt
  | .turn x => x.printed ++ x.reply.output

/-- The events of a conversation: each line has a prompt in front of it, and so has the place where
a line is missing, unless there was one that quits. -/
def events (o : Options) (m : Machine) (lines : List String) : List Event :=
  (heard o m lines).flatMap (fun x => [.prompt, .turn x]) ++
    if (heard o m lines).any Turn.quits then [] else [.prompt]

theorem count_prompt_events (o : Options) (m : Machine) (lines : List String) :
    (events o m lines).count .prompt =
      (heard o m lines).length + if (heard o m lines).any Turn.quits then 0 else 1 := by
  have hturns : ∀ xs : List Turn,
      (xs.flatMap fun x => [Event.prompt, .turn x]).count .prompt = xs.length := by
    intro xs
    induction xs with
    | nil => rfl
    | cons x xs ih => simp [List.flatMap_cons, ih]
  rw [events, List.count_append, hturns]
  split <;> rfl

section Views

variable {o : Options} {m : Machine} {lines : List String} {t : Transcript}

/-- What is seen of the exchanges, with a prompt before each and perhaps one behind them, is what is
seen of the events. -/
theorem Recounts.view (h : Recounts o m lines t) (see : Event → String) :
    String.join ((heard o m lines).map fun x => see .prompt ++ see (.turn x)) ++
        t.lastPrompt (see .prompt) =
      String.join ((events o m lines).map see) := by
  have hturns : ∀ xs : List Turn,
      String.join ((xs.flatMap fun x => [Event.prompt, .turn x]).map see) =
        String.join (xs.map fun x => see .prompt ++ see (.turn x)) := by
    intro xs
    induction xs with
    | nil => rfl
    | cons x xs ih => simp [List.flatMap_cons, ih, String.append_assoc]
  have hlast : t.lastPrompt (see .prompt) =
      String.join ((if (heard o m lines).any Turn.quits then [] else [Event.prompt]).map see) := by
    simp only [Transcript.lastPrompt, h.quit_iff]
    split <;> simp
  -- what comes behind the last turn is the prompt of the line that is missing
  rw [hlast, ← hturns, ← String.join_append, ← List.map_append, events]

theorem Recounts.output (h : Recounts o m lines t) (prompt : String) :
    t.output prompt = String.join ((events o m lines).map (Event.output prompt)) := by
  rw [← h.view, Transcript.output, h.exchanges, List.map_map]
  rfl

theorem Recounts.shown (h : Recounts o m lines t) (prompt : String) :
    t.shown prompt = String.join ((events o m lines).map (Event.shown prompt)) := by
  rw [← h.view, Transcript.shown, h.exchanges, List.map_map]
  simp only [Function.comp_def, Turn.exchange, Event.shown, String.append_assoc]

/-- What is printed comes behind all that the machine has printed before. -/
theorem text_afterwards (o : Options) (m : Machine) (lines : List String) :
    (afterwards m (heard o m lines)).printed.text =
      m.printed.text ++ String.join ((heard o m lines).map Turn.printed) := by
  induction lines generalizing m with
  | nil => simp [heard_nil, afterwards]
  | cons line lines ih =>
      rw [heard_cons]
      split
      case isTrue => simp [afterwards, text_after]
      case isFalse =>
        have htail := ih (Turn.ofLine o m line).after
        rw [text_after] at htail
        simpa [afterwards, String.append_assoc] using htail

theorem Recounts.printed (h : Recounts o m lines t) :
    (afterwards m (heard o m lines)).printed.text = m.printed.text ++ t.printed := by
  rw [text_afterwards, Transcript.printed, h.exchanges, List.map_map]
  rfl

theorem Recounts.succeeded_iff (h : Recounts o m lines t) :
    t.succeeded = true ↔ ∀ x ∈ heard o m lines, x.reply.flow ≠ .failed := by
  simp only [Transcript.succeeded, h.exchanges, List.all_map, List.all_eq_true, Function.comp_apply,
    decide_eq_true_eq]
  rfl

end Views

end Conversation
end TinyBasic
