import TinyBasic.Proofs.Machine.Running

/-!
# Safety — lines do not go wrong

A tree that is read never meets a value of the wrong type, a name that is no letter or a condition
that is no comparison. It can fail in arithmetic only, and it has an integer for its value or none.
So what is echoed is always the text of an integer.
-/

namespace TinyBasic
namespace Safety

open Evaluation Running

/-! ## Evaluation -/

theorem arithmetical_iff {e : EvalError} :
    Arithmetical e ↔ e = .divisionByZero ∨ ∃ operation, e = .integerOverflow operation := by
  constructor
  · intro h
    cases h with
    | divisionByZero => exact .inl rfl
    | integerOverflow operation => exact .inr ⟨operation, rfl⟩
  · rintro (rfl | ⟨operation, rfl⟩)
    · exact .divisionByZero
    · exact .integerOverflow operation

theorem error_of_eval {text : String} {a : Tree} {m m' : Machine} {e : EvalError}
    (htree : Tree.ofText text = .ok a) (h : a.eval.run m = .error e m') : Arithmetical e := by
  have hsettles := settles_of_line (Shape.line_of_ofText htree) m
  rw [h] at hsettles
  cases hsettles with
  | failed he => exact he

theorem value_of_eval {text : String} {a : Tree} {m m' : Machine} {v : Value}
    (htree : Tree.ofText text = .ok a) (h : a.eval.run m = .ok v m') :
    v = .void ∨ ∃ n, v = .int n := by
  have hsettles := settles_of_line (Shape.line_of_ofText htree) m
  rw [h] at hsettles
  cases hsettles with
  | value n => exact .inr ⟨n, rfl⟩
  | idle => exact .inl rfl
  | assigned => exact .inl rfl
  | printed => exact .inl rfl

theorem int_of_run {text : String} {m m' : Machine} {v : Value}
    (h : (Line.run text).run m = .ok (.value v) m') : ∃ n, v = .int n := by
  have hruns := runs_run text m
  rw [h] at hruns
  cases hruns with
  | succeeded heffect =>
      cases heffect with
      | value n => exact ⟨n, rfl⟩

/-! ## Echoes -/

/-- The answer is a line of its own that is not empty, and no report. -/
def Echoes (r : Reply) : Prop :=
  r.flow = .proceed ∧ ∃ shown, shown ≠ "" ∧ r.output = shown ++ "\n"

/-- The line is run, and its outcome is a value. -/
def HasValue (o : Options) (line : String) (m : Machine) : Prop :=
  Reply.isBlank line = false ∧ Reply.isExit line = false ∧
    ∃ v m', (Line.run (Reply.readAs o line)).run m = .ok (.value v) m'

theorem not_echoes_of_output {r : Reply} (h : r.output = "") : ¬ Echoes r := by
  rintro ⟨-, shown, -, hshown⟩
  rw [h] at hshown
  have hlist := congrArg String.toList hshown
  simp at hlist

theorem not_echoes_of_flow {r : Reply} (h : r.flow ≠ .proceed) : ¬ Echoes r := by
  rintro ⟨hflow, -⟩
  exact h hflow

theorem echo_int (n : Word) : echo (Value.int n).render = Decimal.ofInt n.toInt ++ "\n" := by
  have hne : (Value.int n).render ≠ "" := Decimal.ofInt_ne_empty n.toInt
  rw [echo, if_neg hne]
  rfl

theorem echoes_iff {o : Options} (hmode : o.mode = .eval) (line : String) (m : Machine) :
    Echoes (Reply.ofLine o line m).1 ↔ HasValue o line m := by
  by_cases hblank : Reply.isBlank line = true
  · have houtput : (Reply.ofLine o line m).1.output = "" := by
      simp [Reply.ofLine, hblank]
    simp [not_echoes_of_output houtput, HasValue, hblank]
  · by_cases hexit : Reply.isExit line = true
    · have houtput : (Reply.ofLine o line m).1.output = "" := by
        simp [Reply.ofLine, hblank, hexit]
      simp [not_echoes_of_output houtput, HasValue, hexit]
    · rw [Bool.not_eq_true] at hblank hexit
      rw [ofLine_eval hmode hblank hexit, HasValue]
      simp only [hblank, hexit, true_and]
      have hruns := runs_run (Reply.readAs o line) m
      generalize (Line.run (Reply.readAs o line)).run m = r at hruns ⊢
      -- reports and quitting stop the flow, and statements show nothing
      cases hruns with
      | rejected => exact iff_of_false (not_echoes_of_flow (by simp)) (by simp)
      | failed => exact iff_of_false (not_echoes_of_flow (by simp)) (by simp)
      | succeeded heffect =>
          cases heffect with
          | value n =>
              -- the text of an integer is never empty, so the value is seen
              have hshown : Echoes ⟨.proceed, echo (Value.int n).render⟩ :=
                ⟨rfl, Decimal.ofInt n.toInt, Decimal.ofInt_ne_empty n.toInt, echo_int n⟩
              exact iff_of_true hshown ⟨.int n, m, rfl⟩
          | quit => exact iff_of_false (not_echoes_of_flow (by simp)) (by simp)
          | nothing => exact iff_of_false (not_echoes_of_output rfl) (by simp)
          | assignment => exact iff_of_false (not_echoes_of_output rfl) (by simp)
          | printing => exact iff_of_false (not_echoes_of_output rfl) (by simp)

/-- Lines that are read do not go wrong: their trees fail in arithmetic only and have an integer for
a value or none, so values are integers, and a line echoes exactly when it has a value. -/
theorem lines_do_not_go_wrong :
    (∀ text a m, Tree.ofText text = .ok a →
      match a.eval.run m with
      | .error e _ => e = .divisionByZero ∨ ∃ operation, e = .integerOverflow operation
      | .ok v _ => v = .void ∨ ∃ n, v = .int n) ∧
    (∀ text m v m', (Line.run text).run m = .ok (.value v) m' → ∃ n, v = .int n) ∧
    (∀ o line m, o.mode = .eval → (Echoes (Reply.ofLine o line m).1 ↔ HasValue o line m)) := by
  refine ⟨?_, ?_, ?_⟩
  · intro text a m htree
    split
    case h_1 e m' heval => exact arithmetical_iff.1 (error_of_eval htree heval)
    case h_2 v m' heval => exact value_of_eval htree heval
  · intro text m v m' hrun
    exact int_of_run hrun
  · intro o line m hmode
    exact echoes_iff hmode line m

theorem lines_do_not_go_wrong_sum :
    (∀ e m', (Tree.arith .add (.var "X") (.num 2)).eval.run {} = .error e m' →
      e = .divisionByZero ∨ ∃ operation, e = .integerOverflow operation) ∧
    (∃ n, Value.int 2 = .int n) ∧
    Echoes (Reply.ofLine {} "X + 2" {}).1 := by
  have htree : Tree.ofText "X + 2" = .ok (.arith .add (.var "X") (.num 2)) := by cbv
  have hrun : (Line.run "X + 2").run {} = .ok (.value (.int 2)) {} := by cbv
  refine ⟨?_, ?_, ?_⟩
  · intro e m' heval
    have hsafe := lines_do_not_go_wrong.1 _ _ {} htree
    rw [heval] at hsafe
    exact hsafe
  · exact lines_do_not_go_wrong.2.1 _ _ _ _ hrun
  · refine (lines_do_not_go_wrong.2.2 {} "X + 2" {} rfl).2 ⟨by decide, by decide, .int 2, {}, ?_⟩
    exact hrun

end Safety
end TinyBasic
