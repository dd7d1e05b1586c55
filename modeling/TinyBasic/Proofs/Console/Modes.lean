import TinyBasic.Proofs.Fault.Viable
import TinyBasic.Proofs.Machine.Transaction

/-!
# Modes — three ways to answer a line

A line is run, or its tree is shown, or its tokens. The three go through the same text, and each
looks at more of it than the one before: what cannot be scanned cannot be read, and what cannot be
read is not run. So to show a tree is to run the line up to the point where it would be evaluated,
with the same reports.

Whether a line asks to quit is a matter of its text alone. The machine has no say in it
(`flow_eq_quit_iff`).
-/

namespace TinyBasic
namespace Modes

open Running Grammar

/-- The answer to a line in a mode, and the machine after it. -/
def answer (o : Options) (mode : Mode) (line : String) (m : Machine) : Reply × Machine :=
  Reply.ofLine { o with mode := mode } line m

/-- The line is neither blank nor `exit()`, so that its text is looked at. -/
def Considered (line : String) : Prop :=
  Reply.isBlank line = false ∧ Reply.isExit line = false

/-- In this mode the line comes to the error. -/
def FailsWith (o : Options) (mode : Mode) (line : String) (m : Machine) (e : LineError) : Prop :=
  Considered line ∧ ∃ m', (Reply.shown? mode (Reply.readAs o line)).run m = .error e m'

/-- The answer to a line of text whose tree was evaluated with this result. -/
def ofResult (text : String) : EStateM.Result EvalError Machine Value → Reply × Machine
  | .ok .void m => (⟨.proceed, ""⟩, m)
  | .ok v m => (⟨.proceed, echo v.render⟩, m)
  | .error e m => (⟨.failed, Report.render text (.eval e)⟩, m)

/-! ## Lines that are not considered -/

theorem isBlank_of_isExit {line : String} (h : Reply.isExit line = true) :
    Reply.isBlank line = false := by
  cases htrim : Text.trim line.toList with
  | nil =>
      rw [Reply.isExit, htrim] at h
      cases h
  | cons c cs => rw [Reply.isBlank, htrim, List.isEmpty_cons]

theorem ofLine_of_isBlank {line : String} (h : Reply.isBlank line = true) (o : Options)
    (m : Machine) : Reply.ofLine o line m = (⟨.proceed, ""⟩, m) := by
  rw [Reply.ofLine, if_pos h]

theorem ofLine_of_isExit {line : String} (h : Reply.isExit line = true) (o : Options)
    (m : Machine) : Reply.ofLine o line m = (⟨.quit, ""⟩, m) := by
  rw [Reply.ofLine, if_neg (Bool.eq_false_iff.1 (isBlank_of_isExit h)), if_pos h]

theorem blank_or_exit_or_considered (line : String) :
    Reply.isBlank line = true ∨ Reply.isExit line = true ∨ Considered line := by
  cases hblank : Reply.isBlank line with
  | true => exact .inl rfl
  | false =>
      cases hexit : Reply.isExit line with
      | true => exact .inr (.inl rfl)
      | false => exact .inr (.inr ⟨hblank, hexit⟩)

/-- A line that is not considered has the same answer in all modes and on all machines. -/
theorem ofLine_of_not_considered {line : String} (h : ¬ Considered line) :
    ∃ reply : Reply, reply.flow ≠ .failed ∧ ∀ o m, Reply.ofLine o line m = (reply, m) := by
  rcases blank_or_exit_or_considered line with hblank | hexit | hline
  · exact ⟨_, by simp, ofLine_of_isBlank hblank⟩
  · exact ⟨_, by simp, ofLine_of_isExit hexit⟩
  · exact absurd hline h

/-! ## Lines that are considered -/

section Considered

variable {o : Options} {line : String}

theorem ofLine_of_considered (h : Considered line) (o : Options) (m : Machine) :
    Reply.ofLine o line m =
      match (Reply.shown? o.mode (Reply.readAs o line)).run m with
      | .ok none m' => (⟨.quit, ""⟩, m')
      | .ok (some shown) m' => (⟨.proceed, echo shown⟩, m')
      | .error e m' => (⟨.failed, Report.render (Reply.readAs o line) e⟩, m') := by
  rw [Reply.ofLine, if_neg (Bool.eq_false_iff.1 h.1), if_neg (Bool.eq_false_iff.1 h.2)]
  rfl

theorem run_shown?_eval (text : String) (m : Machine) :
    (Reply.shown? .eval text).run m =
      match Command.ofText text with
      | .error e => .error (.parse e) m
      | .ok .quit => .ok none m
      | .ok (.line a) =>
          match a.eval.run m with
          | .error e m' => .error (.eval e) m'
          | .ok .void m' => .ok (some "") m'
          | .ok v m' => .ok (some v.render) m' := by
  rw [Reply.shown?, EStateM.run_bind, run_line]
  cases Command.ofText text with
  | error e => rfl
  | ok command =>
      cases command with
      | quit => rfl
      | line a =>
          dsimp only
          cases a.eval.run m with
          | error e m' => rfl
          | ok v m' => cases v <;> rfl

theorem run_shown?_tree (text : String) (m : Machine) :
    (Reply.shown? .tree text).run m =
      match Command.ofText text with
      | .error e => .error (.parse e) m
      | .ok .quit => .ok none m
      | .ok (.line a) => .ok (some a.render) m := by
  rw [Reply.shown?, Line.treeText?]
  cases Command.ofText text with
  | error e => rfl
  | ok command => cases command <;> rfl

theorem run_shown?_tokens (text : String) (m : Machine) :
    (Reply.shown? .tokens text).run m =
      match (Scan.ofText text).result with
      | .error e => .error (.scan e) m
      | .ok ts => .ok (some ("\n".intercalate (ts.map Token.listing))) m := by
  rw [Reply.shown?, Line.tokens]
  cases (Scan.ofText text).result <;> rfl

theorem echo_render (a : Tree) : echo a.render = a.render ++ "\n" := by
  have hne : a.render ≠ "" := by
    intro h
    have hlist := congrArg String.toList h
    cases a <;> simp [Tree.render, Tree.wrap] at hlist
  rw [echo, if_neg hne]

theorem answer_tree (h : Considered line) (o : Options) (m : Machine) :
    answer o .tree line m =
      match Command.ofText (Reply.readAs o line) with
      | .error e => (⟨.failed, Report.render (Reply.readAs o line) (.parse e)⟩, m)
      | .ok .quit => (⟨.quit, ""⟩, m)
      | .ok (.line a) => (⟨.proceed, a.render ++ "\n"⟩, m) := by
  have hread : Reply.readAs { o with mode := .tree } line = Reply.readAs o line := rfl
  rw [answer, ofLine_of_considered h, hread, run_shown?_tree]
  cases Command.ofText (Reply.readAs o line) with
  | error e => rfl
  | ok command =>
      cases command with
      | quit => rfl
      | line a => simp only [echo_render]

theorem answer_tokens (h : Considered line) (o : Options) (m : Machine) :
    answer o .tokens line m =
      match (Scan.ofText (Reply.readAs o line)).result with
      | .error e => (⟨.failed, Report.render (Reply.readAs o line) (.scan e)⟩, m)
      | .ok ts => (⟨.proceed, echo ("\n".intercalate (ts.map Token.listing))⟩, m) := by
  have hread : Reply.readAs { o with mode := .tokens } line = Reply.readAs o line := rfl
  rw [answer, ofLine_of_considered h, hread, run_shown?_tokens]
  cases (Scan.ofText (Reply.readAs o line)).result <;> rfl

theorem answer_eval (h : Considered line) (o : Options) (m : Machine) :
    answer o .eval line m =
      match Command.ofText (Reply.readAs o line) with
      | .error e => (⟨.failed, Report.render (Reply.readAs o line) (.parse e)⟩, m)
      | .ok .quit => (⟨.quit, ""⟩, m)
      | .ok (.line a) => ofResult (Reply.readAs o line) (a.eval.run m) := by
  have hread : Reply.readAs { o with mode := .eval } line = Reply.readAs o line := rfl
  rw [answer, ofLine_of_considered h, hread, run_shown?_eval]
  cases Command.ofText (Reply.readAs o line) with
  | error e => rfl
  | ok command =>
      cases command with
      | quit => rfl
      | line a =>
          dsimp only
          cases a.eval.run m with
          | error e m' => rfl
          | ok v m' => cases v <;> rfl

end Considered

/-! ## Reading behind scanning -/

theorem ok_of_command {text : String} {c : Command} (h : Command.ofText text = .ok c) :
    ∃ ts, (Scan.ofText text).result = .ok ts := by
  rcases (recognizes_command.derived text).1 ⟨c, h⟩ with ⟨ts, -, hresult, -⟩
  exact ⟨ts, hresult⟩

/-- What cannot be scanned to its end cannot be read. -/
theorem command_of_scan_error {text : String} {e : ScanError}
    (h : (Scan.ofText text).result = .error e) : ∃ e', Command.ofText text = .error e' := by
  cases hcommand : Command.ofText text with
  | error e' => exact ⟨e', rfl⟩
  | ok c =>
      rcases ok_of_command hcommand with ⟨ts, hts⟩
      rw [h] at hts
      cases hts

theorem flow_ofResult_ne_quit (text : String) (r : EStateM.Result EvalError Machine Value) :
    (ofResult text r).1.flow ≠ .quit := by
  cases r with
  | error e m => simp [ofResult]
  | ok v m => cases v <;> simp [ofResult]

/-! ## What a line asks for -/

theorem flow_tree_eq_quit_iff {line : String} (h : Considered line) (o : Options) (m : Machine) :
    (answer o .tree line m).1.flow = .quit ↔
      Command.ofText (Reply.readAs o line) = .ok .quit := by
  rw [answer_tree h]
  cases Command.ofText (Reply.readAs o line) with
  | error e => simp
  | ok command => cases command <;> simp

theorem flow_eval_eq_quit_iff {line : String} (h : Considered line) (o : Options) (m : Machine) :
    (answer o .eval line m).1.flow = .quit ↔
      Command.ofText (Reply.readAs o line) = .ok .quit := by
  rw [answer_eval h]
  cases Command.ofText (Reply.readAs o line) with
  | error e => simp
  | ok command =>
      cases command with
      | quit => simp
      | line a => simp [flow_ofResult_ne_quit]

theorem flow_tokens_eq_quit_iff (o : Options) (line : String) (m : Machine) :
    (answer o .tokens line m).1.flow = .quit ↔ Reply.isExit line = true := by
  rcases blank_or_exit_or_considered line with hblank | hexit | hline
  · rw [answer, ofLine_of_isBlank hblank]
    refine iff_of_false (by simp) ?_
    intro hexit
    rw [isBlank_of_isExit hexit] at hblank
    cases hblank
  · rw [answer, ofLine_of_isExit hexit]
    exact iff_of_true rfl hexit
  · rw [answer_tokens hline, hline.2]
    cases (Scan.ofText (Reply.readAs o line)).result <;> simp

theorem ofLine_eq_answer (o : Options) (line : String) (m : Machine) :
    Reply.ofLine o line m = answer o o.mode line m := rfl

/-- Whether a line asks to quit does not depend on the machine. -/
theorem flow_eq_quit_iff (o : Options) (line : String) (m m' : Machine) :
    (Reply.ofLine o line m).1.flow = .quit ↔ (Reply.ofLine o line m').1.flow = .quit := by
  by_cases hline : Considered line
  · rw [ofLine_eq_answer, ofLine_eq_answer]
    cases o.mode with
    | eval => rw [flow_eval_eq_quit_iff hline, flow_eval_eq_quit_iff hline]
    | tree => rw [flow_tree_eq_quit_iff hline, flow_tree_eq_quit_iff hline]
    | tokens => rw [flow_tokens_eq_quit_iff, flow_tokens_eq_quit_iff]
  · rcases ofLine_of_not_considered hline with ⟨reply, -, hreply⟩
    rw [hreply, hreply]

/-! ## Reports -/

section Reports

variable {o : Options} {mode : Mode} {line : String} {m : Machine} {e : LineError}

theorem reply_of_failsWith (h : FailsWith o mode line m e) :
    (answer o mode line m).1 = ⟨.failed, Report.render (Reply.readAs o line) e⟩ := by
  rcases h with ⟨hline, m', hrun⟩
  have hread : Reply.readAs { o with mode := mode } line = Reply.readAs o line := rfl
  rw [answer, ofLine_of_considered hline, hread, hrun]

theorem flow_eq_failed_iff :
    (answer o mode line m).1.flow = .failed ↔ ∃ e, FailsWith o mode line m e := by
  constructor
  · intro hfailed
    by_cases hline : Considered line
    · rcases ofLine_failed hfailed with ⟨e, m', hrun, -⟩
      exact ⟨e, hline, m', hrun⟩
    · rcases ofLine_of_not_considered hline with ⟨reply, hgoes, hreply⟩
      rw [answer, hreply] at hfailed
      exact absurd hfailed hgoes
  · rintro ⟨e, he⟩
    rw [reply_of_failsWith he]

theorem failsWith_tree_iff :
    FailsWith o .tree line m e ↔
      Considered line ∧ ∃ e', Command.ofText (Reply.readAs o line) = .error e' ∧ e = .parse e' := by
  rw [FailsWith, run_shown?_tree]
  cases Command.ofText (Reply.readAs o line) with
  | error e' => simp [eq_comm]
  | ok command => cases command <;> simp

theorem failsWith_tokens_iff :
    FailsWith o .tokens line m e ↔
      Considered line ∧
        ∃ e', (Scan.ofText (Reply.readAs o line)).result = .error e' ∧ e = .scan e' := by
  rw [FailsWith, run_shown?_tokens]
  cases (Scan.ofText (Reply.readAs o line)).result with
  | error e' => simp [eq_comm]
  | ok ts => simp

/-- Running a line fails because of its text exactly if its tree cannot be shown, and with the same
error. -/
theorem failsWith_eval_inText_iff :
    FailsWith o .eval line m e ∧ e.inText = true ↔ FailsWith o .tree line m e := by
  rw [failsWith_tree_iff, FailsWith, run_shown?_eval]
  cases Command.ofText (Reply.readAs o line) with
  | error e' =>
      constructor
      · rintro ⟨⟨hline, m', hrun⟩, -⟩
        cases hrun
        exact ⟨hline, e', rfl, rfl⟩
      · rintro ⟨hline, e'', he, rfl⟩
        cases he
        exact ⟨⟨hline, m, rfl⟩, rfl⟩
  | ok command =>
      refine iff_of_false ?_ ?_
      · rintro ⟨⟨-, m', hrun⟩, htext⟩
        cases command with
        | quit => cases hrun
        | line a =>
            -- what is left to fail is evaluation
            dsimp only at hrun
            cases hresult : a.eval.run m with
            | error e' m'' =>
                rw [hresult] at hrun
                cases hrun
                cases htext
            | ok v m'' =>
                rw [hresult] at hrun
                cases v <;> cases hrun
      · rintro ⟨-, e', he, -⟩
        cases he

/-- A line whose tokens cannot be shown fails in the other modes too. -/
theorem failsWith_tree_of_tokens (h : FailsWith o .tokens line m e) :
    ∃ e', FailsWith o .tree line m e' := by
  rcases failsWith_tokens_iff.1 h with ⟨hline, _, hscan, -⟩
  rcases command_of_scan_error hscan with ⟨e', he'⟩
  exact ⟨.parse e', failsWith_tree_iff.2 ⟨hline, e', he', rfl⟩⟩

end Reports

/-! ## Agreement -/

theorem machine_of_tree (o : Options) (line : String) (m : Machine) :
    (answer o .tree line m).2 = m := by
  by_cases hline : Considered line
  · rw [answer_tree hline]
    cases Command.ofText (Reply.readAs o line) with
    | error e => rfl
    | ok command => cases command <;> rfl
  · rcases ofLine_of_not_considered hline with ⟨reply, -, hreply⟩
    rw [answer, hreply]

theorem machine_of_tokens (o : Options) (line : String) (m : Machine) :
    (answer o .tokens line m).2 = m := by
  by_cases hline : Considered line
  · rw [answer_tokens hline]
    cases (Scan.ofText (Reply.readAs o line)).result <;> rfl
  · rcases ofLine_of_not_considered hline with ⟨reply, -, hreply⟩
    rw [answer, hreply]

/-- Only one of the two places is written to, whatever the mode: the printout, or the answer. -/
theorem one_stream (o : Options) (line : String) (m : Machine) :
    (Reply.ofLine o line m).2.printed = m.printed ∨ (Reply.ofLine o line m).1.output = "" := by
  cases hmode : o.mode with
  | eval => exact Transaction.ofLine_one_stream hmode line m
  | tree =>
      refine .inl ?_
      rw [ofLine_eq_answer, hmode, machine_of_tree]
  | tokens =>
      refine .inl ?_
      rw [ofLine_eq_answer, hmode, machine_of_tokens]

theorem flow_tree_iff_flow_eval (o : Options) (line : String) (m : Machine) :
    (answer o .tree line m).1.flow = .quit ↔ (answer o .eval line m).1.flow = .quit := by
  by_cases hline : Considered line
  · rw [flow_tree_eq_quit_iff hline, flow_eval_eq_quit_iff hline]
  · rcases ofLine_of_not_considered hline with ⟨reply, -, hreply⟩
    rw [answer, answer, hreply, hreply]

/-- A tree that is shown is the one that is evaluated when the line is run. -/
theorem shown_of_tree {o : Options} {line : String} {m : Machine}
    (hblank : Reply.isBlank line = false) (h : (answer o .tree line m).1.flow = .proceed) :
    ∃ a, (answer o .tree line m).1.output = a.render ++ "\n" ∧
      Tree.ofText (Reply.readAs o line) = .ok a ∧
      answer o .eval line m = ofResult (Reply.readAs o line) (a.eval.run m) := by
  rcases blank_or_exit_or_considered line with hblank' | hexit | hline
  · rw [hblank] at hblank'
    cases hblank'
  · rw [answer, ofLine_of_isExit hexit] at h
    cases h
  · rw [answer_tree hline] at h ⊢
    rw [answer_eval hline]
    cases hcommand : Command.ofText (Reply.readAs o line) with
    | error e =>
        rw [hcommand] at h
        cases h
    | ok command =>
        cases command with
        | quit =>
            rw [hcommand] at h
            cases h
        | line a => exact ⟨a, rfl, command_ofText_eq_line_iff.1 hcommand, rfl⟩

theorem flow_tokens_of_tree_quit {o : Options} {line : String} {m : Machine}
    (hexit : Reply.isExit line = false) (h : (answer o .tree line m).1.flow = .quit) :
    (answer o .tokens line m).1.flow = .proceed := by
  rcases blank_or_exit_or_considered line with hblank | hexit' | hline
  · rw [answer, ofLine_of_isBlank hblank]
  · rw [hexit] at hexit'
    cases hexit'
  · rcases ok_of_command ((flow_tree_eq_quit_iff hline o m).1 h) with ⟨ts, hts⟩
    rw [answer_tokens hline, hts]

/-- The modes agree where they look at the same part of a line. -/
theorem modes_agree (o : Options) (line : String) (m : Machine) :
    -- quitting
    ((answer o .tree line m).1.flow = .quit ↔ (answer o .eval line m).1.flow = .quit) ∧
    ((answer o .tokens line m).1.flow = .quit ↔ Reply.isExit line = true) ∧
    (Reply.isExit line = false → (answer o .tree line m).1.flow = .quit →
      (answer o .tokens line m).1.flow = .proceed) ∧
    -- failing
    ((answer o .tree line m).1.flow = .failed ↔
      ∃ e, FailsWith o .eval line m e ∧ e.inText = true) ∧
    ((answer o .tree line m).1.flow = .failed →
      (answer o .tree line m).1 = (answer o .eval line m).1) ∧
    ((answer o .tokens line m).1.flow = .failed →
      (answer o .tree line m).1.flow = .failed ∧ (answer o .eval line m).1.flow = .failed) ∧
    -- going on
    (Reply.isBlank line = false → (answer o .tree line m).1.flow = .proceed →
      ∃ a, (answer o .tree line m).1.output = a.render ++ "\n" ∧
        Tree.ofText (Reply.readAs o line) = .ok a ∧
        answer o .eval line m = ofResult (Reply.readAs o line) (a.eval.run m)) ∧
    -- the machine
    (answer o .tree line m).2 = m ∧ (answer o .tokens line m).2 = m := by
  have hreport : ∀ {e}, FailsWith o .tree line m e →
      (answer o .tree line m).1 = (answer o .eval line m).1 := by
    intro e he
    rw [reply_of_failsWith he, reply_of_failsWith (failsWith_eval_inText_iff.2 he).1]
  refine ⟨flow_tree_iff_flow_eval o line m, flow_tokens_eq_quit_iff o line m,
    flow_tokens_of_tree_quit, ?_, ?_, ?_, shown_of_tree, machine_of_tree o line m,
    machine_of_tokens o line m⟩
  · rw [flow_eq_failed_iff]
    exact exists_congr fun e => failsWith_eval_inText_iff.symm
  · intro hfailed
    rcases flow_eq_failed_iff.1 hfailed with ⟨e, he⟩
    exact hreport he
  · intro hfailed
    rcases flow_eq_failed_iff.1 hfailed with ⟨e, he⟩
    rcases failsWith_tree_of_tokens he with ⟨e', he'⟩
    have htree : (answer o .tree line m).1.flow = .failed := flow_eq_failed_iff.2 ⟨e', he'⟩
    exact ⟨htree, hreport he' ▸ htree⟩

theorem modes_agree_quit_mark_sum :
    (Reply.isExit "quit" = false ∧ (answer {} .tree "quit" {}).1.flow = .quit ∧
      (answer {} .tokens "quit" {}).1.flow = .proceed) ∧
    ((answer {} .tokens "1 @" {}).1.flow = .failed ∧ (answer {} .tree "1 @" {}).1.flow = .failed ∧
      (answer {} .tree "1 @" {}).1 = (answer {} .eval "1 @" {}).1) ∧
    (Reply.isBlank "x + 2" = false ∧ (answer {} .tree "x + 2" {}).1.flow = .proceed ∧
      ∃ a : Tree, Tree.ofText "X + 2" = .ok a ∧
        answer {} .eval "x + 2" {} = ofResult "X + 2" (a.eval.run {})) := by
  have hquit : (answer {} .tree "quit" {}).1.flow = .quit := by
    have hread : Reply.readAs {} "quit" = "QUIT" := by decide
    have hcommand : Command.ofText "QUIT" = .ok .quit := by cbv
    rw [answer_tree ⟨by decide, by decide⟩, hread, hcommand]
  have hmark : (answer {} .tokens "1 @" {}).1.flow = .failed := by
    have hread : Reply.readAs {} "1 @" = "1 @" := by decide
    have hscan : (Scan.ofText "1 @").result = .error (.unexpectedChar '@' ⟨2, 3⟩) := by cbv
    rw [answer_tokens ⟨by decide, by decide⟩, hread, hscan]
  have hread : Reply.readAs {} "x + 2" = "X + 2" := by decide
  have hsum : (answer {} .tree "x + 2" {}).1.flow = .proceed := by
    have hcommand : Command.ofText "X + 2" = .ok (.line (.arith .add (.var "X") (.num 2))) := by cbv
    rw [answer_tree ⟨by decide, by decide⟩, hread, hcommand]
  have hexit : Reply.isExit "quit" = false := by decide
  have hblank : Reply.isBlank "x + 2" = false := by decide
  have htree := ((modes_agree {} "1 @" {}).2.2.2.2.2.1 hmark).1
  rcases (modes_agree {} "x + 2" {}).2.2.2.2.2.2.1 hblank hsum with ⟨a, -, ha, heval⟩
  rw [hread] at ha heval
  exact ⟨⟨hexit, hquit, (modes_agree {} "quit" {}).2.2.1 hexit hquit⟩,
    ⟨hmark, htree, (modes_agree {} "1 @" {}).2.2.2.2.1 htree⟩, hblank, hsum, a, ha, heval⟩

end Modes
end TinyBasic
