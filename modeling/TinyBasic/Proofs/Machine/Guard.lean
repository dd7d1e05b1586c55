import TinyBasic.Proofs.Grammar.Parts
import TinyBasic.Proofs.Machine.Running

/-!
# Guard — statements behind conditions

`IF` is transparent where its condition holds and inert where it does not: the line then comes to
what its statement comes to alone, or to nothing. This is so for any number of conditions one behind
the other. They leave the machine alone, so all of them are tested on the machine that the line
starts on, up to the first that fails or does not hold (`guards_transparent_or_inert`).
-/

namespace TinyBasic
namespace Guard

open Evaluation Grammar Lexicon

/-! ## Conditions -/

/-- The text of a comparison between two expressions, and what the expressions are read as. -/
structure Condition where
  left : String
  op : String
  right : String
  leftTree : Tree
  rightTree : Tree
  left_reads : Operand left leftTree
  op_spelled : op.toList ∈ relops
  right_reads : Operand right rightTree

namespace Condition

def tree (c : Condition) : Tree :=
  .compare (.ofText c.op) c.leftTree c.rightTree

/-- The line with the condition in front of a statement. -/
def before (c : Condition) (s : String) : String :=
  "IF" ++ " " ++ c.left ++ " " ++ c.op ++ " " ++ c.right ++ " " ++ "THEN" ++ " " ++ s

end Condition

/-- The line with all of the conditions in front of a statement, the first one outermost. -/
def guarded (cs : List Condition) (s : String) : String :=
  cs.foldr Condition.before s

/-- The tree of a statement, with all of the conditions around it. -/
def guardedTree (cs : List Condition) (b : Tree) : Tree :=
  cs.foldr (fun c b => .ifThen c.tree b) b

/-- What the text of a relational operator says of two integers. -/
def Compares (op : String) (a b : Int) : Prop :=
  match op with
  | "=" => a = b
  | "<>" | "><" => a ≠ b
  | "<" => a < b
  | "<=" => a ≤ b
  | ">" => a > b
  | ">=" => a ≥ b
  | _ => False

/-- The operator that the text is read as compares two words as the text says. -/
theorem holds_iff_compares {op : String} (h : op.toList ∈ relops) (x y : Word) :
    (Relop.ofText op).holds x y = true ↔ Compares op x.toInt y.toInt := by
  have htexts : op = "<>" ∨ op = "><" ∨ op = "<=" ∨ op = ">=" ∨ op = "<" ∨ op = ">" ∨ op = "=" := by
    simp only [relops, List.mem_cons, List.not_mem_nil, or_false] at h
    simpa [← String.toList_inj] using h
  rcases htexts with rfl | rfl | rfl | rfl | rfl | rfl | rfl
  all_goals
    simp [Relop.ofText, Relop.holds, Compares, Int64.lt_iff_toInt_lt, Int64.le_iff_toInt_le,
      ← Int64.toInt_inj]

/-- What testing the condition on the machine comes to: the error of the first side that has one,
or whether the values of both compare as the operator says. -/
inductive Tests (c : Condition) (m : Machine) : Except EvalError Bool → Prop where
  | left {e : EvalError} :
      c.leftTree.eval.run m = .error e m → Tests c m (.error e)
  | right {x : Word} {e : EvalError} :
      c.leftTree.eval.run m = .ok (.int x) m → c.rightTree.eval.run m = .error e m →
        Tests c m (.error e)
  | both {x y : Word} {holds : Bool} :
      c.leftTree.eval.run m = .ok (.int x) m → c.rightTree.eval.run m = .ok (.int y) m →
        (holds = true ↔ Compares c.op x.toInt y.toInt) → Tests c m (.ok holds)

theorem exists_tests (c : Condition) (m : Machine) : ∃ r, Tests c m r := by
  -- an expression comes to a word or to an error, and leaves the machine alone
  rcases calculates_expr c.left_reads.shape m with ⟨_, hleft, x, rfl⟩ | ⟨e, hleft, -⟩
  · rcases calculates_expr c.right_reads.shape m with ⟨_, hright, y, rfl⟩ | ⟨e, hright, -⟩
    · exact ⟨_, .both hleft hright (holds_iff_compares c.op_spelled x y)⟩
    · exact ⟨_, .right hleft hright⟩
  · exact ⟨_, .left hleft⟩

/-! ## One condition -/

/-- A condition in front of a statement makes a statement. The spaces keep its parts from running
into each other, so each part is read as it is read alone. -/
theorem plain_before (c : Condition) {s : String} {b : Tree} (h : Plain s b) :
    Plain (c.before s) (.ifThen c.tree b) := by
  rcases operand_iff.1 c.left_reads with ⟨ls, hls, hleft⟩
  rcases operand_iff.1 c.right_reads with ⟨rs, hrs, hright⟩
  rcases plain_iff.1 h with ⟨bs, hbs, hbody, -⟩
  have hop : Lexeme.Valid ⟨.relop, c.op⟩ := Spells.relop c.op_spelled
  have hif := words_keyword .ifKw
  have hthen := words_keyword .thenKw
  have hwords := ((((hif.append hls).append (words_of_valid hop)).append hrs).append hthen).append hbs
  simp only [List.append_assoc, List.singleton_append] at hwords
  refine plain_iff.2 ⟨_, hwords, ?_, ?_⟩
  · simp only [List.map_cons, List.map_append]
    exact .ifThen (Source.isWord_keyword .ifKw) hleft rfl hright (Source.isWord_keyword .thenKw) hbody
  -- the line begins with a keyword, so that it has no number of its own
  · intro t ht
    cases ht
    decide

/-- Evaluation tests the condition, and goes on with the statement on the same machine if the
comparison holds. -/
theorem run_ifThen {c : Condition} {m : Machine} {r : Except EvalError Bool} (h : Tests c m r)
    (b : Tree) :
    (Tree.eval (.ifThen c.tree b)).run m =
      match r with
      | .error e => .error e m
      | .ok true => b.eval.run m
      | .ok false => .ok .void m := by
  have hcomparison : c.tree.isComparison = true := rfl
  have hcondition : c.tree.eval.run m =
      match r with
      | .error e => .error e m
      | .ok holds => .ok (.bool holds) m := by
    rw [Condition.tree, Tree.eval]
    cases h with
    | left hleft => simp only [EStateM.run_bind, hleft]
    | right hleft hright => simp only [EStateM.run_bind, hleft, hright]
    | @both x y holds hleft hright hholds =>
        have hsame : (Relop.ofText c.op).holds x y = holds :=
          Bool.eq_iff_iff.2 ((holds_iff_compares c.op_spelled x y).trans hholds.symm)
        simp only [EStateM.run_bind, hleft, hright]
        rw [← hsame]
        rfl
  rw [Tree.eval]
  simp only [hcomparison, if_true, EStateM.run_bind, hcondition]
  cases r with
  | error e => rfl
  | ok holds => cases holds <;> rfl

theorem run_before {c : Condition} {m : Machine} {r : Except EvalError Bool} (h : Tests c m r)
    {s : String} {b : Tree} (hs : Plain s b) :
    (Line.run (c.before s)).run m =
      match r with
      | .error e => .error (.eval e) m
      | .ok true => (Line.run s).run m
      | .ok false => .ok .done m := by
  have hline := command_ofText_eq_line_iff.2 (plain_before c hs).read
  have hbody := command_ofText_eq_line_iff.2 hs.read
  rw [Running.run_line, hline, Running.run_line, hbody]
  simp only [run_ifThen h]
  cases r with
  | error e => rfl
  | ok holds => cases holds <;> rfl

/-! ## Any number of conditions -/

theorem plain_guarded (cs : List Condition) {s : String} {b : Tree} (h : Plain s b) :
    Plain (guarded cs s) (guardedTree cs b) := by
  induction cs with
  | nil => exact h
  | cons c cs ih => exact plain_before c ih

/-- Conditions that hold can be left out. -/
theorem run_guarded_append {front : List Condition} {m : Machine}
    (hfront : ∀ c ∈ front, Tests c m (.ok true)) (back : List Condition) {s : String} {b : Tree}
    (hs : Plain s b) :
    (Line.run (guarded (front ++ back) s)).run m = (Line.run (guarded back s)).run m := by
  induction front with
  | nil => rfl
  | cons c front ih =>
      -- behind the outermost condition stands a statement, which has the other ones in front of it
      rw [← ih fun d hd => hfront d (by simp [hd])]
      exact run_before (hfront c (by simp)) (plain_guarded (front ++ back) hs)

/-- `IF` is transparent where it holds and inert where it does not, at any depth: the line is read as
the statement inside of its conditions; if they all hold, then it comes to what the statement alone
comes to; and at the first one that fails or does not hold, it ends with that error or with nothing
done. -/
theorem guards_transparent_or_inert (cs : List Condition) {s : String} {b : Tree} (hs : Plain s b)
    (m : Machine) :
    Tree.ofText (guarded cs s) = .ok (guardedTree cs b) ∧
    (∀ c ∈ cs, ∃ r, Tests c m r) ∧
    ((∀ c ∈ cs, Tests c m (.ok true)) →
      (Line.run (guarded cs s)).run m = (Line.run s).run m) ∧
    ∀ front c back, cs = front ++ c :: back → (∀ d ∈ front, Tests d m (.ok true)) →
      (Tests c m (.ok false) → (Line.run (guarded cs s)).run m = .ok .done m) ∧
      ∀ e, Tests c m (.error e) → (Line.run (guarded cs s)).run m = .error (.eval e) m := by
  refine ⟨(plain_guarded cs hs).read, fun c _ => exists_tests c m, ?_, ?_⟩
  · intro hall
    have hrun := run_guarded_append hall [] hs
    rw [List.append_nil] at hrun
    exact hrun
  · rintro front c back rfl hfront
    rw [run_guarded_append hfront (c :: back) hs]
    constructor
    · intro hfalse
      exact run_before hfalse (plain_guarded back hs)
    · intro e herror
      exact run_before herror (plain_guarded back hs)

/-- On a machine with nothing assigned: two conditions that hold and a statement that prints; a second
one that does not hold, so that nothing is printed; and one that cannot be tested. -/
theorem guards_transparent_or_inert_nested :
    Plain "PRINT A" (.print [.var "A"]) ∧
    (∃ cs : List Condition, guarded cs "PRINT A" = "IF A < 1 THEN IF B + 1 >= 1 THEN PRINT A" ∧
      (Line.run "IF A < 1 THEN IF B + 1 >= 1 THEN PRINT A").run {} =
        .ok .done { printed := ⟨["0"]⟩ }) ∧
    (∃ cs : List Condition, guarded cs "PRINT A" = "IF A < 1 THEN IF B + 1 >= 2 THEN PRINT A" ∧
      Tree.ofText "IF A < 1 THEN IF B + 1 >= 2 THEN PRINT A" =
        .ok (.ifThen (.compare .lessThan (.var "A") (.num 1))
          (.ifThen (.compare .greaterOrEqual (.arith .add (.var "B") (.num 1)) (.num 2))
            (.print [.var "A"]))) ∧
      (Line.run "IF A < 1 THEN IF B + 1 >= 2 THEN PRINT A").run {} = .ok .done {}) ∧
    (∃ cs : List Condition, guarded cs "PRINT A" = "IF A < 1 THEN IF 1 <> 2 / A THEN PRINT A" ∧
      (Line.run "IF A < 1 THEN IF 1 <> 2 / A THEN PRINT A").run {} =
        .error (.eval .divisionByZero) {}) := by
  have hA : Operand "A" (.var "A") := ⟨by cbv, by simp⟩
  have hB : Operand "B + 1" (.arith .add (.var "B") (.num 1)) := ⟨by cbv, by simp⟩
  have hQ : Operand "2 / A" (.arith .div (.num 2) (.var "A")) := ⟨by cbv, by simp⟩
  have h1 : Operand "1" (.num 1) := ⟨by cbv, by simp⟩
  have h2 : Operand "2" (.num 2) := ⟨by cbv, by simp⟩
  have hprint : Plain "PRINT A" (.print [.var "A"]) := by
    have hhead : (Scan.ofText "PRINT A").tokens.head? = some ⟨.keyword, "PRINT", ⟨0, 5⟩⟩ := by
      cbv
    refine ⟨by cbv, ?_⟩
    simp [hhead]
  have halone : (Line.run "PRINT A").run {} = .ok .done { printed := ⟨["0"]⟩ } := by cbv
  let outer : Condition := ⟨"A", "<", "1", _, _, hA, by decide, h1⟩
  let holding : Condition := ⟨"B + 1", ">=", "1", _, _, hB, by decide, h1⟩
  let failing : Condition := ⟨"B + 1", ">=", "2", _, _, hB, by decide, h2⟩
  let faulty : Condition := ⟨"1", "<>", "2 / A", _, _, h1, by decide, hQ⟩
  have hless : Compares "<" (0 : Word).toInt (1 : Word).toInt := by simp [Compares]
  have hleast : Compares ">=" (1 : Word).toInt (1 : Word).toInt := by simp [Compares]
  have hmore : ¬ Compares ">=" (1 : Word).toInt (2 : Word).toInt := by simp [Compares]
  have houter : Tests outer {} (.ok true) := .both rfl rfl (iff_of_true rfl hless)
  have hholding : Tests holding {} (.ok true) := .both rfl rfl (iff_of_true rfl hleast)
  have hfailing : Tests failing {} (.ok false) :=
    .both rfl rfl (iff_of_false Bool.false_ne_true hmore)
  have hfaulty : Tests faulty {} (.error .divisionByZero) := .right (x := 1) rfl rfl
  have hfront : ∀ d ∈ [outer], Tests d {} (.ok true) := List.forall_mem_singleton.2 houter
  have htextHolding : guarded [outer, holding] "PRINT A" =
      "IF A < 1 THEN IF B + 1 >= 1 THEN PRINT A" := rfl
  have htextFailing : guarded [outer, failing] "PRINT A" =
      "IF A < 1 THEN IF B + 1 >= 2 THEN PRINT A" := rfl
  have htextFaulty : guarded [outer, faulty] "PRINT A" =
      "IF A < 1 THEN IF 1 <> 2 / A THEN PRINT A" := rfl
  have hholds := guards_transparent_or_inert [outer, holding] hprint {}
  have hfails := guards_transparent_or_inert [outer, failing] hprint {}
  have hfaults := guards_transparent_or_inert [outer, faulty] hprint {}
  rw [htextHolding, halone] at hholds
  rw [htextFailing] at hfails
  rw [htextFaulty] at hfaults
  refine ⟨hprint, ⟨_, htextHolding, hholds.2.2.1 ?_⟩, ⟨_, htextFailing, hfails.1, ?_⟩,
    ⟨_, htextFaulty, ?_⟩⟩
  · exact List.forall_mem_cons.2 ⟨houter, List.forall_mem_singleton.2 hholding⟩
  · exact (hfails.2.2.2 [outer] failing [] rfl hfront).1 hfailing
  · exact (hfaults.2.2.2 [outer] faulty [] rfl hfront).2 _ hfaulty

end Guard
end TinyBasic
