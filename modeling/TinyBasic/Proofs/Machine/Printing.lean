import TinyBasic.Console.Reply
import TinyBasic.Proofs.Machine.Footprint

/-!
# Printing — the printout is written and never read

What a machine has printed has no influence on what it does next. `Appends x` says so of a
computation `x`: on a machine with more lines at the front of its printout it comes to the same
result, and these lines stay where they are. Evaluation appends on all trees, those of lines and
others, because it is confined to their letters; and so do running and answering a line.
-/

namespace TinyBasic

namespace Machine

/-- The machine as it is if the lines of `out` have been printed before its own. -/
def behind (out : Printout) (m : Machine) : Machine :=
  { m with printed := ⟨out.lines ++ m.printed.lines⟩ }

@[simp] theorem memory_behind (out : Printout) (m : Machine) :
    (m.behind out).memory = m.memory := rfl

@[simp] theorem lines_behind (out : Printout) (m : Machine) :
    (m.behind out).printed.lines = out.lines ++ m.printed.lines := rfl

/-- Every machine is behind its printout, and in front of it nothing has been printed. -/
theorem behind_printed (m : Machine) : m.emptied.behind m.printed = m := by
  have hlines : m.printed.lines ++ (∅ : Printout).lines = m.printed.lines :=
    List.append_nil m.printed.lines
  simp only [behind, emptied, hlines]

end Machine

namespace Printing

open Footprint

/-- The result of a computation if the lines of `out` have been printed before. -/
def resultBehind {ε α : Type} (out : Printout) :
    EStateM.Result ε Machine α → EStateM.Result ε Machine α
  | .ok v m => .ok v (m.behind out)
  | .error e m => .error e (m.behind out)

/-- The computation adds to the printout, whatever this holds already, and does not look at it. -/
def Appends {ε α : Type} (x : EStateM ε Machine α) : Prop :=
  ∀ out m, x.run (m.behind out) = resultBehind out (x.run m)

/-! ## Composition -/

section Appends

variable {ε α β : Type}

theorem appends_pure (v : α) : Appends (pure v : EStateM ε Machine α) := by
  intro out m
  rfl

theorem appends_ofExcept (r : Except ε α) : Appends (ofExcept r : EStateM ε Machine α) := by
  intro out m
  cases r <;> rfl

theorem Appends.bind {x : EStateM ε Machine α} {f : α → EStateM ε Machine β} (hx : Appends x)
    (hf : ∀ v, Appends (f v)) : Appends (x >>= f) := by
  intro out m
  rw [EStateM.run_bind, EStateM.run_bind, hx out m]
  cases x.run m with
  | ok v m' => exact hf v out m'
  | error e m' => rfl

theorem Appends.adaptExcept {ε' : Type} {x : EStateM ε Machine α} (hx : Appends x) (f : ε → ε') :
    Appends (x.adaptExcept f) := by
  intro out m
  rw [EStateM.run_adaptExcept, EStateM.run_adaptExcept, hx out m]
  cases x.run m <;> rfl

end Appends

/-! ## Evaluation -/

/-- A confined computation does not look at the printout, even if it may look at every letter. -/
theorem appends_of_confined {ε α : Type} {T : List Letter} {x : EStateM ε Machine α}
    (hx : Confined Letter.all T x) : Appends x := by
  intro out m
  rcases hx (m.behind out) m (.refl _ _) with ⟨r, lines, v, w, hbehind, hm, hvw, -, -⟩
  have hsame : v = w := Variables.ext_read fun l => hvw l (List.mem_finRange l)
  have hlines : (m.behind out).printed.extend lines =
      ⟨out.lines ++ (m.printed.lines ++ lines)⟩ := by
    simp [Printout.extend]
  rw [hbehind, hm, hsame, hlines]
  cases r <;> rfl

theorem appends_eval (a : Tree) : Appends a.eval := by
  refine appends_of_confined (T := Letter.all) (confined_eval a ?_)
  intro b _
  exact ⟨fun l _ => List.mem_finRange l, fun l _ => List.mem_finRange l⟩

/-! ## Lines -/

theorem appends_run (text : String) : Appends (Line.run text) := by
  refine (appends_ofExcept _).bind fun command => ?_
  cases command with
  | quit => exact appends_pure _
  | line a =>
      refine ((appends_eval a).adaptExcept LineError.eval).bind fun v => ?_
      cases v <;> exact appends_pure _

theorem appends_shown? (mode : Mode) (text : String) : Appends (Reply.shown? mode text) := by
  cases mode with
  | eval =>
      refine (appends_run text).bind fun outcome => ?_
      cases outcome <;> exact appends_pure _
  | tree => exact appends_ofExcept _
  | tokens => exact (appends_ofExcept _).bind fun _ => appends_pure _

/-- The answer to a line is the same whatever has been printed before, and so are the variables and
the printing. -/
theorem ofLine_behind (o : Options) (line : String) (out : Printout) (m : Machine) :
    Reply.ofLine o line (m.behind out) =
      ((Reply.ofLine o line m).1, (Reply.ofLine o line m).2.behind out) := by
  simp only [Reply.ofLine]
  split
  case isTrue => rfl
  case isFalse =>
    split
    case isTrue => rfl
    case isFalse =>
      rw [appends_shown? o.mode (Reply.readAs o line) out m]
      cases (Reply.shown? o.mode (Reply.readAs o line)).run m with
      | ok shown m' => cases shown <;> rfl
      | error e m' => rfl

end Printing
end TinyBasic
