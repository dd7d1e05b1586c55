import TinyBasic.Program
import TinyBasic.Proofs.Console.Listening

/-!
# Outcome — exit code and standard output

The arguments make a plan, and the plan is carried out on the bytes of standard input. Lines among
the arguments are answered without a look at these bytes, and then one failure is enough for the
exit code. Lines that are read may fail as they like: only bytes that are not UTF-8, in front of
any line that quits, are an error of the program.

Standard output takes what is printed, and what is echoed or reported. Nothing depends on which of
the two comes first within a line, because no line has both (`printed_or_output`).
-/

namespace TinyBasic
namespace Outcome

open Lines Conversation Listening
open Program (carryOut run)

/-- A line that prints has no answer, and a line with an answer does not print. -/
theorem printed_or_output (o : Options) (m : Machine) (line : String) :
    (Turn.ofLine o m line).printed = "" ∨ (Turn.ofLine o m line).reply.output = "" := by
  rcases Modes.one_stream o line m with hprinted | houtput
  · left
    have hafter : (Turn.ofLine o m line).after.printed = m.printed := hprinted
    have hbefore : (Turn.ofLine o m line).before = m := rfl
    simp [Turn.printed, Turn.lines, hafter, hbefore]
  · right
    exact houtput

/-- A printer that keeps what the lines of a turn print holds the printing of the turn, until it is
emptied. One that shows it holds nothing. -/
theorem held_lines (x : Turn) :
    (x.lines.foldl Printer.println (.buffer ∅)).held = x.printed ∧
      (x.lines.foldl Printer.println (.buffer ∅)).emptied.held = "" ∧
      (x.lines.foldl Printer.println .console).held = "" := by
  refine ⟨?_, Printer.held_emptied _, Printer.held_foldl_println_console x.lines⟩
  rw [Printer.held_foldl_println, Printout.text_empty, String.empty_append]
  rfl

/-! ## Plans -/

section Plans

variable (o : Options) (stdin : List UInt8)

theorem code_batch :
    (carryOut (.batch o) stdin).code ≠ 0 ↔ ∃ x ∈ heard o {} o.lines, x.reply.flow = .failed := by
  have hsucceeded := (recounts_ofLines o {} o.lines).succeeded_iff
  calc
    (carryOut (.batch o) stdin).code ≠ 0
        ↔ ¬ (Transcript.ofLines o ∅ o.lines).succeeded = true := by simp [carryOut]
    _ ↔ ¬ ∀ x ∈ heard o {} o.lines, x.reply.flow ≠ .failed := not_congr hsucceeded
    _ ↔ ∃ x ∈ heard o {} o.lines, x.reply.flow = .failed := by simp

theorem stdout_batch :
    (carryOut (.batch o) stdin).stdout =
      String.join ((heard o {} o.lines).map fun x => x.printed ++ x.reply.output) := by
  have hexchanges := (recounts_ofLines o {} o.lines).exchanges
  have hlast : (Transcript.ofLines o ∅ o.lines).lastPrompt "" = "" := ite_self ""
  calc
    (carryOut (.batch o) stdin).stdout
        = String.join ((Transcript.ofLines o ∅ o.lines).exchanges.map
            fun x => x.printed ++ x.reply.output) := by
          simp [carryOut, Transcript.shown, hlast]
    _ = String.join ((heard o {} o.lines).map fun x => x.printed ++ x.reply.output) := by
          simp [hexchanges, Function.comp_def, Turn.exchange]

theorem code_converse :
    (carryOut (.converse o) stdin).code ≠ 0 ↔
      ∃ front p back, Reaches o stdin front p back ∧ Garbled p := by
  rw [← close_eq_invalidText_iff o ∅ stdin]
  simp only [carryOut, Program.ofTranscript]
  split
  case isTrue hclose => simp [hclose]
  case isFalse hclose => simp [hclose]

theorem stdout_converse :
    (carryOut (.converse o) stdin).stdout =
      String.join ((events o {} (readable (cutAfter 10 stdin))).map
        (Event.shown (o.prompt.getD ""))) := by
  have hshown := (recounts_ofBytes o {} stdin).shown (o.prompt.getD "")
  calc
    (carryOut (.converse o) stdin).stdout
        = (Transcript.ofBytes o ∅ stdin).shown (o.prompt.getD "") := by
          simp only [carryOut, Program.ofTranscript]
          split <;> rfl
    _ = _ := hshown

end Plans

/-- What the exit code and the standard output tell. -/
theorem exit_code_and_stdout (args : List String) (stdin : List UInt8) :
    -- the exit code
    ((run args stdin).code ≠ 0 ↔
      (∃ e, Options.ofArgs args = .error e) ∨
      (∃ o, Options.ofArgs args = .ok o ∧ o.help = false ∧ o.lines ≠ [] ∧
        ∃ x ∈ heard o {} o.lines, x.reply.flow = .failed) ∨
      (∃ o, Options.ofArgs args = .ok o ∧ o.help = false ∧ o.lines = [] ∧
        ∃ front p back, Reaches o stdin front p back ∧ Garbled p)) ∧
    -- no line is run
    (∀ e, Options.ofArgs args = .error e →
      run args stdin = ⟨1, "", Program.complaint e.message ++ "\n" ++ Program.usage⟩) ∧
    (∀ o, Options.ofArgs args = .ok o → o.help = true → run args stdin = ⟨0, "", Program.usage⟩) ∧
    -- lines among the arguments are run
    (∀ o, Options.ofArgs args = .ok o → o.help = false → o.lines ≠ [] →
      (∀ stdin', run args stdin' = run args stdin) ∧
      (run args stdin).stdout =
        String.join ((heard o {} o.lines).map fun x => x.printed ++ x.reply.output)) ∧
    -- lines are read
    (∀ o, Options.ofArgs args = .ok o → o.help = false → o.lines = [] →
      (run args stdin).stdout =
        String.join ((events o {} (readable (cutAfter 10 stdin))).map
          (Event.shown (o.prompt.getD "")))) ∧
    -- whatever the line
    (∀ o m line, (Turn.ofLine o m line).printed = "" ∨ (Turn.ofLine o m line).reply.output = "") ∧
    -- wherever its printing goes
    (∀ x : Turn, (x.lines.foldl Printer.println (.buffer ∅)).held = x.printed ∧
      (x.lines.foldl Printer.println (.buffer ∅)).emptied.held = "" ∧
      (x.lines.foldl Printer.println .console).held = "") := by
  refine ⟨?_, ?_, ?_, ?_, ?_, printed_or_output, held_lines⟩
  · cases hargs : Options.ofArgs args with
    | error e => simp [run, Plan.ofArgs, hargs, carryOut]
    | ok o =>
        cases hhelp : o.help with
        | true => simp [run, Plan.ofArgs, hargs, hhelp, carryOut]
        | false =>
            by_cases hlines : o.lines = []
            · simpa [run, Plan.ofArgs, hargs, hhelp, hlines] using code_converse o stdin
            · simpa [run, Plan.ofArgs, hargs, hhelp, hlines] using code_batch o stdin
  · intro e hargs
    simp [run, Plan.ofArgs, hargs, carryOut]
  · intro o hargs hhelp
    simp [run, Plan.ofArgs, hargs, hhelp, carryOut]
  · intro o hargs hhelp hlines
    have hplan : Plan.ofArgs args = .batch o := by simp [Plan.ofArgs, hargs, hhelp, hlines]
    simp only [run, hplan]
    exact ⟨fun stdin' => rfl, stdout_batch o stdin⟩
  · intro o hargs hhelp hlines
    have hplan : Plan.ofArgs args = .converse o := by simp [Plan.ofArgs, hargs, hhelp, hlines]
    simp only [run, hplan]
    exact stdout_converse o stdin

/-- The answer to a line that does not fail. -/
def answerTo : TinyBasic.Outcome → Reply
  | .value v => ⟨.proceed, Running.echo v.render⟩
  | .done => ⟨.proceed, ""⟩
  | .quit => ⟨.quit, ""⟩

/-- What a turn is, if its line is to be run as it stands and does not fail. -/
theorem ofLine_of_run {o : Options} {line : String} {m after : Machine}
    {outcome : TinyBasic.Outcome} (hmode : o.mode = .eval) (hblank : Reply.isBlank line = false)
    (hexit : Reply.isExit line = false) (hread : Reply.readAs o line = line)
    (hrun : (Line.run line).run m = .ok outcome after) :
    Turn.ofLine o m line = ⟨m, answerTo outcome, after⟩ := by
  rw [Turn.ofLine, Running.ofLine_eval hmode hblank hexit, hread, hrun]
  cases outcome <;> rfl

theorem exit_code_and_stdout_four_plans :
    (Options.ofArgs ["-e"] = .error (.missingValue "-e") ∧ (run ["-e"] []).stdout = "") ∧
    (Options.ofArgs ["-h"] = .ok { help := true } ∧ (run ["-h"] []).stdout = "") ∧
    (Options.ofArgs ["-e", "PRINT 1+1", "-e", "(3)"] = .ok { lines := ["PRINT 1+1", "(3)"] } ∧
      ∀ stdin, (run ["-e", "PRINT 1+1", "-e", "(3)"] stdin).stdout = "2\n3\n") ∧
    (Options.ofArgs [] = .ok {} ∧
      (run [] "PRINT 7\nQUIT\n".toUTF8.data.toList).stdout = "> 7\n> ") := by
  have hargs : Options.ofArgs ["-e"] = .error (.missingValue "-e") ∧
      Options.ofArgs ["-h"] = .ok { help := true } ∧
      Options.ofArgs ["-e", "PRINT 1+1", "-e", "(3)"] = .ok { lines := ["PRINT 1+1", "(3)"] } ∧
      Options.ofArgs [] = .ok {} := by
    simp [Options.ofArgs, Options.read, Setting.ofArg, Options.apply, bind, Except.bind]
  rcases hargs with ⟨hrefuse, hhelp, hbatch, hconverse⟩
  have hrefused := (exit_code_and_stdout ["-e"] []).2.1 _ hrefuse
  have hhelped := (exit_code_and_stdout ["-h"] []).2.2.1 _ hhelp rfl
  have hran : ∀ stdin, (run ["-e", "PRINT 1+1", "-e", "(3)"] stdin).stdout = "2\n3\n" := by
    intro stdin
    have hprint : (Line.run "PRINT 1+1").run {} = .ok .done { printed := ⟨["2"]⟩ } := by cbv
    have hvalue : (Line.run "(3)").run { printed := ⟨["2"]⟩ } =
        .ok (.value (.int 3)) { printed := ⟨["2"]⟩ } := by cbv
    have hheard : heard { lines := ["PRINT 1+1", "(3)"] } {} ["PRINT 1+1", "(3)"] =
        [⟨{}, ⟨.proceed, ""⟩, { printed := ⟨["2"]⟩ }⟩,
          ⟨{ printed := ⟨["2"]⟩ }, ⟨.proceed, "3\n"⟩, { printed := ⟨["2"]⟩ }⟩] := by
      rw [heard_cons, ofLine_of_run rfl (by decide) (by decide) (by decide) hprint,
        if_neg (by decide), heard_cons,
        ofLine_of_run rfl (by decide) (by decide) (by decide) hvalue]
      decide
    have hstdout := (exit_code_and_stdout ["-e", "PRINT 1+1", "-e", "(3)"] stdin).2.2.2.1 _ hbatch
      rfl (List.cons_ne_nil _ _)
    rw [hstdout.2, hheard]
    decide
  have hread : (run [] "PRINT 7\nQUIT\n".toUTF8.data.toList).stdout = "> 7\n> " := by
    have hlines : readable (cutAfter 10 "PRINT 7\nQUIT\n".toUTF8.data.toList) =
        ["PRINT 7", "QUIT"] := by cbv
    have hprint : (Line.run "PRINT 7").run {} = .ok .done { printed := ⟨["7"]⟩ } := by cbv
    have hquit : (Line.run "QUIT").run { printed := ⟨["7"]⟩ } =
        .ok .quit { printed := ⟨["7"]⟩ } := by cbv
    have hheard : heard {} {} ["PRINT 7", "QUIT"] =
        [⟨{}, ⟨.proceed, ""⟩, { printed := ⟨["7"]⟩ }⟩,
          ⟨{ printed := ⟨["7"]⟩ }, ⟨.quit, ""⟩, { printed := ⟨["7"]⟩ }⟩] := by
      rw [heard_cons, ofLine_of_run rfl (by decide) (by decide) (by decide) hprint,
        if_neg (by decide), heard_cons,
        ofLine_of_run rfl (by decide) (by decide) (by decide) hquit]
      decide
    have hstdout := (exit_code_and_stdout [] "PRINT 7\nQUIT\n".toUTF8.data.toList).2.2.2.2.1 _
      hconverse rfl rfl
    rw [hstdout, hlines, events, hheard]
    decide
  exact ⟨⟨hrefuse, by rw [hrefused]⟩, ⟨hhelp, by rw [hhelped]⟩, ⟨hbatch, hran⟩, hconverse, hread⟩

end Outcome
end TinyBasic
