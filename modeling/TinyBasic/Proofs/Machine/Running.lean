import TinyBasic.Console.Reply
import TinyBasic.Proofs.Machine.Evaluation

/-!
# Running — all that a line can come to

`Runs` lists what running a line of text can come to, and `Line.run` never comes to anything else.
The answers to lines that are run follow from it.
-/

namespace TinyBasic
namespace Running

open Evaluation

/-! ## Lines -/

theorem run_line (text : String) (m : Machine) :
    (Line.run text).run m =
      match Command.ofText text with
      | .error e => .error (.parse e) m
      | .ok .quit => .ok .quit m
      | .ok (.line a) =>
          match a.eval.run m with
          | .error e m' => .error (.eval e) m'
          | .ok .void m' => .ok .done m'
          | .ok v m' => .ok (.value v) m' := by
  cases hcommand : Command.ofText text with
  | error e =>
      simp only [Line.run, hcommand, Except.mapError, EStateM.run_bind, run_ofExcept_error]
  | ok command =>
      cases command with
      | quit =>
          simp only [Line.run, hcommand, Except.mapError, EStateM.run_bind, run_ofExcept_ok,
            EStateM.run_pure]
      | line a =>
          simp only [Line.run, hcommand, Except.mapError, EStateM.run_bind, run_ofExcept_ok,
            EStateM.run_adaptExcept]
          cases a.eval.run m with
          | error e m' => rfl
          | ok v m' => cases v <;> rfl

/-- What a line that succeeds has come to on the machine `m`, and what it has done. Only a `LET`
writes and only a `PRINT` prints, each perhaps behind conditions, and they do so unless one of the
conditions does not hold. -/
inductive Effect (text : String) (m : Machine) : Outcome → Machine → Prop where
  | assignment {a b : Tree} {x : String} {l : Letter} (n : Word) :
      Tree.ofText text = .ok a → ¬ Blocked m a → a.consequent = .assign x b →
        Letter.ofName? x = some l → b.eval.run m = .ok (.int n) m →
        Effect text m .done { m with memory := m.memory.write l n }
  | printing {a : Tree} {items : List Tree} (texts : List String) :
      Tree.ofText text = .ok a → ¬ Blocked m a → a.consequent = .print items →
        (Tree.evalItems items).run m = .ok texts m →
        Effect text m .done { m with printed := m.printed.println (String.join texts) }
  /-- The line is an expression, perhaps behind conditions that hold. -/
  | value {a : Tree} (n : Word) :
      Tree.ofText text = .ok a → ¬ Blocked m a → Shape.Expr a.consequent →
        a.consequent.eval.run m = .ok (.int n) m → Effect text m (.value (.int n)) m
  | quit : Command.ofText text = .ok .quit → Effect text m .quit m
  /-- A condition of the line does not hold, or its statement is one that does nothing. -/
  | nothing {a : Tree} :
      Tree.ofText text = .ok a → Blocked m a ∨ a.consequent.idles = true → Effect text m .done m

/-- What running a line of text on the machine `m` can come to: an error leaves the machine alone. -/
inductive Runs (text : String) (m : Machine) : EStateM.Result LineError Machine Outcome → Prop where
  | rejected {e : ParseError} :
      Command.ofText text = .error e → Runs text m (.error (.parse e) m)
  | failed {a : Tree} {e : EvalError} :
      Tree.ofText text = .ok a → Arithmetical e → Runs text m (.error (.eval e) m)
  | succeeded {outcome : Outcome} {m' : Machine} :
      Effect text m outcome m' → Runs text m (.ok outcome m')

theorem runs_run (text : String) (m : Machine) : Runs text m ((Line.run text).run m) := by
  rw [run_line]
  cases hcommand : Command.ofText text with
  | error e => exact .rejected hcommand
  | ok command =>
      cases command with
      | quit => exact .succeeded (.quit hcommand)
      | line a =>
          have htree : Tree.ofText text = .ok a := Grammar.command_ofText_eq_line_iff.1 hcommand
          -- the tree was read, so it is well-shaped and settles
          have hsettles := settles_of_line (Shape.line_of_ofText htree) m
          dsimp only
          generalize a.eval.run m = r at hsettles ⊢
          cases hsettles with
          | failed he => exact .failed htree he
          | value n hopen hexpr hn => exact .succeeded (.value n htree hopen hexpr hn)
          | idle hidle => exact .succeeded (.nothing htree hidle)
          | assigned n hopen hassign hl hn =>
              exact .succeeded (.assignment n htree hopen hassign hl hn)
          | printed texts hopen hprint htexts =>
              exact .succeeded (.printing texts htree hopen hprint htexts)

/-! ## Answers -/

/-- What is shown of a value or a statement, with a newline unless it is nothing. -/
def echo (shown : String) : String :=
  if shown = "" then "" else shown ++ "\n"

theorem ofLine_eval {o : Options} (hmode : o.mode = .eval) {line : String}
    (hblank : Reply.isBlank line = false) (hexit : Reply.isExit line = false) (m : Machine) :
    Reply.ofLine o line m =
      match (Line.run (Reply.readAs o line)).run m with
      | .ok (.value v) m' => (⟨.proceed, echo v.render⟩, m')
      | .ok .done m' => (⟨.proceed, ""⟩, m')
      | .ok .quit m' => (⟨.quit, ""⟩, m')
      | .error e m' => (⟨.failed, Report.render (Reply.readAs o line) e⟩, m') := by
  simp only [Reply.ofLine, hblank, hexit, Bool.false_eq_true, if_false, Reply.shown?, hmode,
    EStateM.run_bind]
  cases (Line.run (Reply.readAs o line)).run m with
  | error e m' => rfl
  | ok outcome m' => cases outcome <;> rfl

/-- What can go wrong in showing a line: its text cannot be read, or not be scanned where only its
tokens are asked for, or it cannot be evaluated. -/
theorem error_of_shown? {mode : Mode} {text : String} {m m' : Machine} {e : LineError}
    (h : (Reply.shown? mode text).run m = .error e m') :
    (∃ e', e = .parse e' ∧ Command.ofText text = .error e') ∨
      (∃ e', e = .scan e' ∧ (Scan.ofText text).ending = .failed e') ∨ ∃ e', e = .eval e' := by
  cases mode with
  | eval =>
      simp only [Reply.shown?, EStateM.run_bind] at h
      have hruns := runs_run text m
      generalize (Line.run text).run m = r at h hruns
      cases hruns with
      | @rejected e' he =>
          cases h
          exact .inl ⟨e', rfl, he⟩
      | @failed _ e' =>
          cases h
          exact .inr (.inr ⟨e', rfl⟩)
      | succeeded heffect => cases heffect <;> cases h
  | tree =>
      simp only [Reply.shown?, Line.treeText?] at h
      cases hcommand : Command.ofText text with
      | error e' =>
          rw [hcommand] at h
          cases h
          exact .inl ⟨e', rfl, rfl⟩
      | ok c =>
          rw [hcommand] at h
          cases c <;> cases h
  | tokens =>
      simp only [Reply.shown?, Line.tokens, Scan.result] at h
      cases hending : (Scan.ofText text).ending with
      | complete n =>
          rw [hending] at h
          cases h
      | failed e' =>
          rw [hending] at h
          cases h
          exact .inr (.inl ⟨e', rfl, rfl⟩)

/-- A line that fails is answered with the report of its error. -/
theorem ofLine_failed {o : Options} {line : String} {m : Machine}
    (h : (Reply.ofLine o line m).1.flow = .failed) :
    ∃ e m', (Reply.shown? o.mode (Reply.readAs o line)).run m = .error e m' ∧
      Reply.ofLine o line m = (⟨.failed, Report.render (Reply.readAs o line) e⟩, m') := by
  simp only [Reply.ofLine] at h ⊢
  split at h
  case isTrue => cases h
  case isFalse hblank =>
    split at h
    case isTrue => cases h
    case isFalse hexit =>
      split at h
      case h_1 => cases h
      case h_2 => cases h
      case h_3 e m' hrun =>
        refine ⟨e, m', hrun, ?_⟩
        rw [if_neg hblank, if_neg hexit]
end Running
end TinyBasic
