import TinyBasic.Proofs.Machine.Footprint
import TinyBasic.Proofs.Machine.Running

/-!
# Independence — lines that can change places

Two lines are independent if neither assigns a letter that occurs in the other. Independent lines
can be run in either order: each of them comes to the same and prints the same, and in the end the
variables are the same. A line that cannot be read has no letters, and is independent of all others.

The argument needs no more of the two lines than their confinement (`Confined.commute`): each is run
twice, on the machine at the start and behind the other line, and cannot tell the two apart.
-/

namespace TinyBasic

namespace Footprint

/-! ## Confined computations -/

/-- The machine that a computation left. -/
def machine {ε α : Type} : EStateM.Result ε Machine α → Machine
  | .ok _ m => m
  | .error _ m => m

@[simp] theorem machine_conclude {ε α : Type} (r : Except ε α) (m : Machine) :
    machine (conclude r m) = m := by
  cases r <;> rfl

section Commute

variable {ε ε' α β : Type} {L L' T T' : List Letter} {x : EStateM ε Machine α}
  {y : EStateM ε' Machine β}

/-- Letters of which none is changed are the same afterwards. -/
theorem Confined.agreeOn (hx : Confined L T x) (h : ∀ l ∈ T, l ∉ L') (m : Machine) :
    AgreeOn L' m.memory (machine (x.run m)).memory := by
  rcases hx m m (.refl L _) with ⟨r, lines, v, w, hm, -, -, hv, -⟩
  rw [hm, machine_conclude]
  intro l hl
  exact (hv l fun hT => h l hT hl).symm

/-- The four runs of two computations in both orders. They start on `m`, and what is left in the
end differs only in the order of what is printed. -/
structure Diamond (x : EStateM ε Machine α) (y : EStateM ε' Machine β) (m : Machine)
    (r : Except ε α) (s : Except ε' β) (ls ks : List String) (v w z : Variables) : Prop where
  left_first : x.run m = conclude r ⟨v, m.printed.extend ls⟩
  then_right : y.run ⟨v, m.printed.extend ls⟩ = conclude s ⟨z, m.printed.extend (ls ++ ks)⟩
  right_first : y.run m = conclude s ⟨w, m.printed.extend ks⟩
  then_left : x.run ⟨w, m.printed.extend ks⟩ = conclude r ⟨z, m.printed.extend (ks ++ ls)⟩

/-- Two computations change places if neither changes what the other touches. -/
theorem Confined.commute (hx : Confined L T x) (hy : Confined L' T' y)
    (hTL : ∀ l ∈ T, l ∈ L) (hTL' : ∀ l ∈ T', l ∈ L') (hT : ∀ l ∈ T, l ∉ L')
    (hT' : ∀ l ∈ T', l ∉ L) (m : Machine) :
    ∃ r s ls ks v w z, Diamond x y m r s ls ks v w z := by
  -- each computation is run on `m` and, side by side with it, behind the other one
  rcases hx m _ (hy.agreeOn hT' m) with ⟨r, ls, v, v', hx₁, hx₂, hL, hv, hv'⟩
  rcases hy m _ (hx.agreeOn hT m) with ⟨s, ks, w, w', hy₁, hy₂, hL', hw, hw'⟩
  rw [hy₁, machine_conclude] at hx₂ hv'
  rw [hx₁, machine_conclude] at hy₂ hw'
  have hz : v' = w' := by
    refine Variables.ext_read ?_
    intro l
    by_cases hl : l ∈ T
    · have hl' : l ∉ T' := fun h => hT l hl (hTL' l h)
      calc
        v'.read l = v.read l := (hL l (hTL l hl)).symm
        _ = w'.read l := (hw' l hl').symm
    · by_cases hl' : l ∈ T'
      · calc
          v'.read l = w.read l := hv' l hl
          _ = w'.read l := hL' l (hTL' l hl')
      · calc
          v'.read l = w.read l := hv' l hl
          _ = m.memory.read l := hw l hl'
          _ = v.read l := (hv l hl).symm
          _ = w'.read l := (hw' l hl').symm
  subst hz
  rw [Printout.extend_extend] at hx₂ hy₂
  exact ⟨r, s, ls, ks, v, w, v', hx₁, hy₂, hy₁, hx₂⟩

end Commute

/-! ## Lines -/

/-- The letters that occur in the tree of a line; there are none if the line has no tree. -/
def lettersOf (text : String) : List Letter :=
  match Tree.ofText text with
  | .ok a => a.letters
  | .error _ => []

/-- The letters that are assigned in the tree of a line. -/
def targetsOf (text : String) : List Letter :=
  match Tree.ofText text with
  | .ok a => a.targets
  | .error _ => []

theorem lettersOf_of_targetsOf {text : String} {l : Letter} (h : l ∈ targetsOf text) :
    l ∈ lettersOf text := by
  cases htree : Tree.ofText text with
  | ok a =>
      simp only [targetsOf, lettersOf, htree] at h ⊢
      exact Tree.letters_of_targets h
  | error e =>
      simp only [targetsOf, htree] at h
      cases h

theorem confined_line (text : String) :
    Confined (lettersOf text) (targetsOf text) (Line.run text) := by
  cases hcommand : Command.ofText text with
  | error e =>
      simp only [Line.run, hcommand, Except.mapError]
      exact confined_throw (LineError.parse e)
  | ok command =>
      simp only [Line.run, hcommand, Except.mapError, ofExcept, pure_bind]
      cases command with
      | quit => exact confined_pure _
      | line a =>
          have htree : Tree.ofText text = .ok a := Grammar.command_ofText_eq_line_iff.1 hcommand
          simp only [lettersOf, targetsOf, htree]
          refine ((confined_tree a).adaptExcept LineError.eval).bind fun v => ?_
          cases v <;> exact confined_pure _

/-- Neither tree assigns a letter that occurs in the other. -/
def Independent (a b : Tree) : Prop :=
  (∀ l ∈ a.targets, l ∉ b.letters) ∧ ∀ l ∈ b.targets, l ∉ a.letters

instance (a b : Tree) : Decidable (Independent a b) :=
  inferInstanceAs (Decidable ((∀ l ∈ a.targets, l ∉ b.letters) ∧ ∀ l ∈ b.targets, l ∉ a.letters))

/-- Lines with independent trees keep off each other's letters, and so do lines without a tree. -/
theorem lettersOf_of_independent {t u : String}
    (h : ∀ a b, Tree.ofText t = .ok a → Tree.ofText u = .ok b → Independent a b) :
    (∀ l ∈ targetsOf t, l ∉ lettersOf u) ∧ ∀ l ∈ targetsOf u, l ∉ lettersOf t := by
  cases ht : Tree.ofText t with
  | error e => simp [targetsOf, lettersOf, ht]
  | ok a =>
      cases hu : Tree.ofText u with
      | error e => simp [targetsOf, lettersOf, hu]
      | ok b =>
          simp only [targetsOf, lettersOf, ht, hu]
          exact h a b ht hu

/-- Independent lines commute. Each of them has the same outcome or the same error and prints the
same in both orders, and both orders end with the same variables. -/
theorem independent_lines_commute (t u : String)
    (h : ∀ a b, Tree.ofText t = .ok a → Tree.ofText u = .ok b → Independent a b) (m : Machine) :
    ∃ (r s : Except LineError Outcome) (ls ks : List String) (v w z : Variables),
      Diamond (Line.run t) (Line.run u) m r s ls ks v w z := by
  have hoff := lettersOf_of_independent h
  exact (confined_line t).commute (confined_line u) (fun _ => lettersOf_of_targetsOf)
    (fun _ => lettersOf_of_targetsOf) hoff.1 hoff.2 m

/-- An assignment that fails, and one behind a condition. -/
theorem independent_lines_commute_failing :
    Independent (.assign "A" (.arith .div (.var "B") (.var "C")))
      (.ifThen (.compare .equal (.var "B") (.var "D")) (.assign "D" (.num 1))) ∧
    ∃ (r s : Except LineError Outcome) (ls ks : List String) (v w z : Variables),
      Diamond (Line.run "LET A = B / C") (Line.run "IF B = D THEN LET D = 1") {} r s ls ks v w z := by
  have ht : Tree.ofText "LET A = B / C" =
      .ok (.assign "A" (.arith .div (.var "B") (.var "C"))) := by
    cbv
  have hu : Tree.ofText "IF B = D THEN LET D = 1" =
      .ok (.ifThen (.compare .equal (.var "B") (.var "D")) (.assign "D" (.num 1))) := by
    cbv
  have hindependent : Independent (.assign "A" (.arith .div (.var "B") (.var "C")))
      (.ifThen (.compare .equal (.var "B") (.var "D")) (.assign "D" (.num 1))) := by
    decide
  refine ⟨hindependent, independent_lines_commute _ _ ?_ {}⟩
  intro a b ha hb
  rw [ht] at ha
  rw [hu] at hb
  cases ha
  cases hb
  exact hindependent

end Footprint
end TinyBasic
