import TinyBasic.Proofs.Machine.Evaluation

/-!
# Arithmetic — exact values and the first fault

Evaluation of an arithmetical tree is exact arithmetic on integers, up to the first subtree that it
cannot calculate. Beside `Tree.eval`, which computes with words and may stop, stand two definitions
that know of no words and never stop: `Tree.exact` is the value over all integers, with division
rounded down, and `Tree.postorder` lists the subtrees from left to right, each behind its operands.

A subtree offends if it divides by zero or if no word holds its exact value. Evaluation gives the
exact value if no subtree offends, and otherwise the complaint about the first one that does.
-/

namespace TinyBasic

/-! ## Words -/

namespace Word

/-- The integers that a word can hold. -/
def InRange (n : Int) : Prop :=
  -2 ^ 63 ≤ n ∧ n < 2 ^ 63

instance (n : Int) : Decidable (InRange n) :=
  inferInstanceAs (Decidable (_ ∧ _))

theorem inRange_toInt (w : Word) : InRange w.toInt :=
  ⟨w.le_toInt, w.toInt_lt⟩

theorem ofInt?_of_inRange {n : Int} (h : InRange n) : ∃ w, ofInt? n = some w ∧ w.toInt = n := by
  have hvalue : (Int64.ofInt n).toInt = n := Int64.toInt_ofInt_of_le h.1 h.2
  exact ⟨Int64.ofInt n, ofInt?_eq_some_iff.2 hvalue, hvalue⟩

theorem ofInt?_of_not_inRange {n : Int} (h : ¬ InRange n) : ofInt? n = none := by
  rw [ofInt?_eq_none_iff, Int64.toInt_minValue, Int64.toInt_maxValue]
  simp only [InRange] at h
  omega

theorem toInt_eq_zero_iff {w : Word} : w.toInt = 0 ↔ w = 0 := by
  rw [← Int64.toInt_zero, Int64.toInt_inj]

/-- The floor of a quotient is one less than the quotient without its fraction exactly if the
division is not exact and the signs differ. -/
theorem fdiv_eq_tdiv_sub {a b : Int} (hb : b ≠ 0) :
    a.fdiv b = a.tdiv b - if a.tmod b ≠ 0 ∧ (decide (a < 0) ^^ decide (b < 0)) then 1 else 0 := by
  have hexact : a.tmod b = 0 ↔ b ∣ a := Int.dvd_iff_tmod_eq_zero.symm
  rw [Int.fdiv_eq_tdiv]
  by_cases hdvd : b ∣ a
  · simp [hexact, hdvd]
  · simp only [ne_eq, hexact, hdvd, not_false_eq_true, true_and, if_false, ← not_le, decide_not]
    -- one case for each pair of signs
    by_cases ha : 0 ≤ a
    · by_cases hb' : 0 ≤ b <;> simp [ha, hb']
    · by_cases hb' : 0 ≤ b
      · simp [ha, hb', Int.sign_eq_one_of_pos (lt_of_le_of_ne hb' hb.symm)]
      · simp [ha, hb', Int.sign_eq_neg_one_of_neg (not_le.1 hb')]

/-- Division rounds down, and there is no quotient exactly where no word holds it. -/
theorem floorDiv?_eq (a : Word) {b : Word} (hb : b ≠ 0) :
    a.floorDiv? b = ofInt? (a.toInt.fdiv b.toInt) := by
  have hzero : b.toInt ≠ 0 := fun h => hb (toInt_eq_zero_iff.1 h)
  by_cases hmin : a = Int64.minValue ∧ b = -1
  -- the one quotient of words that no word holds
  · rcases hmin with ⟨rfl, rfl⟩
    decide
  · have hquot : a.quot? b = some (a / b) := by
      simp [quot?, hb, hmin]
    have hrem : a.rem? b = some (a % b) := by
      simp [rem?, hb, hmin]
    have hdiv : (a / b).toInt = a.toInt.tdiv b.toInt := by
      by_cases ha : a = Int64.minValue
      · exact Int64.toInt_div_of_ne_right a b fun h => hmin ⟨ha, h⟩
      · exact Int64.toInt_div_of_ne_left a b ha
    have hmod : a % b ≠ 0 ↔ a.toInt.tmod b.toInt ≠ 0 := by
      rw [← Int64.toInt_mod]
      exact (not_congr toInt_eq_zero_iff).symm
    simp only [floorDiv?, hquot, hrem, Option.bind_eq_bind, Option.bind_some, hmod,
      Int64.lt_iff_toInt_lt, Int64.toInt_zero]
    rw [fdiv_eq_tdiv_sub hzero, ← hdiv]
    split
    case isTrue => rfl
    case isFalse => rw [Int.sub_zero, ofInt?_toInt]

end Word

/-! ## Exact values -/

/-- The result of the operator over all integers. Division rounds down. -/
def ArithOp.exact : ArithOp → Int → Int → Int
  | add, m, n => m + n
  | sub, m, n => m - n
  | mul, m, n => m * n
  | div, m, n => m.fdiv n

/-- A checked operation is the exact one, where a word holds the result. -/
theorem ArithOp.compute?_eq (op : ArithOp) (a : Word) {b : Word} (h : ¬ (op = .div ∧ b = 0)) :
    op.compute? a b = Word.ofInt? (op.exact a.toInt b.toInt) := by
  cases op with
  | add | sub | mul => rfl
  | div => exact Word.floorDiv?_eq a fun hb => h ⟨rfl, hb⟩

namespace Tree

/-- The value of an arithmetical tree over all integers, and zero for all other trees. -/
def exact (v : Variables) : Tree → Int
  | num n => n.toInt
  | var x => ((Letter.ofName? x).map fun l => (v.read l).toInt).getD 0
  | neg a => -a.exact v
  | arith op a b => op.exact (a.exact v) (b.exact v)
  | _ => 0

/-- The subtrees of an arithmetical tree from left to right, each behind its operands. -/
def postorder : Tree → List Tree
  | neg a => a.postorder ++ [neg a]
  | arith op a b => a.postorder ++ (b.postorder ++ [arith op a b])
  | a => [a]

/-- The right operand of a division. -/
def divisor? : Tree → Option Tree
  | arith .div _ b => some b
  | _ => none

/-- The operation that an arithmetical tree does last. -/
def operation : Tree → Operation
  | arith .add _ _ => .addition
  | arith .sub _ _ => .subtraction
  | arith .mul _ _ => .multiplication
  | arith .div _ _ => .division
  | _ => .negation

/-- Evaluation names the operation by its operator. -/
theorem operation_arith (op : ArithOp) (a b : Tree) : (arith op a b).operation = op.operation := by
  cases op <;> rfl

end Tree

namespace Arithmetic

open Evaluation

/-- The tree is put together from numbers, letters, negations and arithmetic. -/
inductive Formula : Tree → Prop where
  | num (n : Word) : Formula (.num n)
  | var {x : String} : Shape.IsLetter x → Formula (.var x)
  | neg {a : Tree} : Formula a → Formula (.neg a)
  | arith {a b : Tree} (op : ArithOp) : Formula a → Formula b → Formula (.arith op a b)

/-- The tree is a division whose right operand is zero. -/
def DividesByZero (v : Variables) (a : Tree) : Prop :=
  a.divisor?.map (·.exact v) = some 0

/-- The tree itself cannot be calculated, even if its operands can. -/
def Offends (v : Variables) (a : Tree) : Prop :=
  DividesByZero v a ∨ ¬ Word.InRange (a.exact v)

instance (v : Variables) (a : Tree) : Decidable (DividesByZero v a) :=
  inferInstanceAs (Decidable (_ = _))

instance (v : Variables) (a : Tree) : Decidable (Offends v a) :=
  inferInstanceAs (Decidable (_ ∨ _))

/-- The error of a tree that offends. -/
def complaint (v : Variables) (a : Tree) : EvalError :=
  if DividesByZero v a then .divisionByZero else .integerOverflow a.operation

theorem not_dividesByZero {v : Variables} {a : Tree} (h : a.divisor? = none) :
    ¬ DividesByZero v a := by
  simp [DividesByZero, h]

/-- The tree, if it offends. -/
def offender? (v : Variables) (a : Tree) : Option Tree :=
  if Offends v a then some a else none

/-- The first subtree that offends. -/
def firstOffender? (v : Variables) (a : Tree) : Option Tree :=
  a.postorder.find? fun b => Offends v b

/-- The result of a tree on the machine `m`, if `first` is its first subtree that offends. -/
def Verdict (a : Tree) (m : Machine) (first : Option Tree)
    (r : EStateM.Result EvalError Machine Value) : Prop :=
  match first with
  | some b => r = .error (complaint m.memory b) m
  | none => ∃ n : Word, n.toInt = a.exact m.memory ∧ r = .ok (.int n) m

/-! ## One operation

The operands have been calculated, and their values are the words `x` and `y`. -/

section Operation

variable {m : Machine} {a b : Tree} {x y : Word}

theorem verdict_ofResult (ha : ¬ DividesByZero m.memory a) :
    Verdict a m (offender? m.memory a)
      ((ofExcept (Value.ofResult a.operation (Word.ofInt? (a.exact m.memory))) :
        EvalM Value).run m) := by
  by_cases hrange : Word.InRange (a.exact m.memory)
  · have hgood : ¬ Offends m.memory a := not_or.2 ⟨ha, not_not.2 hrange⟩
    rcases Word.ofInt?_of_inRange hrange with ⟨n, hn, hvalue⟩
    rw [offender?, if_neg hgood, hn]
    exact ⟨n, hvalue, rfl⟩
  · have hbad : Offends m.memory a := .inr hrange
    rw [offender?, if_pos hbad, Word.ofInt?_of_not_inRange hrange, Verdict, complaint, if_neg ha]
    rfl

theorem verdict_negate (hx : x.toInt = a.exact m.memory) :
    Verdict (.neg a) m (offender? m.memory (.neg a))
      ((ofExcept (Value.int x).negate : EvalM Value).run m) := by
  have hverdict := verdict_ofResult (m := m) (a := .neg a) (not_dividesByZero rfl)
  simp only [Tree.exact, ← hx] at hverdict
  exact hverdict

theorem dividesByZero_arith_iff (op : ArithOp) (a : Tree) (hy : y.toInt = b.exact m.memory) :
    DividesByZero m.memory (.arith op a b) ↔ op = .div ∧ y = 0 := by
  rw [← Word.toInt_eq_zero_iff, hy]
  cases op <;> simp [DividesByZero, Tree.divisor?]

theorem verdict_arith (op : ArithOp) (hx : x.toInt = a.exact m.memory)
    (hy : y.toInt = b.exact m.memory) :
    Verdict (.arith op a b) m (offender? m.memory (.arith op a b))
      ((ofExcept (Value.arith op (.int x) (.int y)) : EvalM Value).run m) := by
  have hzero := dividesByZero_arith_iff op a hy
  simp only [Value.arith, Value.asInt, bind, Except.bind]
  -- a divisor of zero is told first, since the quotient that `fdiv` has for it is in range
  by_cases h : op = .div ∧ y = 0
  · have hdiv := hzero.2 h
    have hbad : Offends m.memory (.arith op a b) := .inl hdiv
    rw [if_pos h, offender?, if_pos hbad, Verdict, complaint, if_pos hdiv]
    rfl
  · have hverdict := verdict_ofResult (a := .arith op a b) fun hdiv => h (hzero.1 hdiv)
    rw [Tree.operation_arith] at hverdict
    rw [if_neg h, op.compute?_eq x h, hx, hy]
    exact hverdict

end Operation

/-! ## Evaluation -/

theorem firstOffender?_neg (v : Variables) (a : Tree) :
    firstOffender? v (.neg a) = (firstOffender? v a).or (offender? v (.neg a)) := by
  simp [firstOffender?, offender?, Tree.postorder, List.find?_append, List.find?_singleton]

theorem firstOffender?_arith (v : Variables) (op : ArithOp) (a b : Tree) :
    firstOffender? v (.arith op a b) =
      (firstOffender? v a).or ((firstOffender? v b).or (offender? v (.arith op a b))) := by
  simp [firstOffender?, offender?, Tree.postorder, List.find?_append, List.find?_singleton]

/-- A number or a letter has a word for its value, and nothing in it can offend. -/
theorem firstOffender?_leaf {v : Variables} {a : Tree} {w : Word} (hleaf : a.postorder = [a])
    (ha : a.divisor? = none) (hw : w.toInt = a.exact v) : firstOffender? v a = none := by
  have hgood : ¬ Offends v a :=
    not_or.2 ⟨not_dividesByZero ha, not_not.2 (hw ▸ Word.inRange_toInt w)⟩
  simp [firstOffender?, hleaf, hgood]

/-- What goes on with the value of a tree is reached only if nothing in the tree offends. -/
theorem Verdict.bind {m : Machine} {a b : Tree} {first later : Option Tree} {x : EvalM Value}
    {f : Value → EvalM Value} (hx : Verdict a m first (x.run m))
    (hf : ∀ n : Word, n.toInt = a.exact m.memory → Verdict b m later ((f (.int n)).run m)) :
    Verdict b m (first.or later) ((x >>= f).run m) := by
  rw [EStateM.run_bind]
  cases first with
  | some c =>
      rw [hx]
      rfl
  | none =>
      rcases hx with ⟨n, hn, hrun⟩
      rw [hrun]
      exact hf n hn

theorem verdict_eval {a : Tree} (ha : Formula a) (m : Machine) :
    Verdict a m (firstOffender? m.memory a) (a.eval.run m) := by
  -- the operands are calculated in postorder, and the first verdict that is an error ends it
  induction ha with
  | num n =>
      rw [firstOffender?_leaf rfl rfl (w := n) rfl, Tree.eval]
      exact ⟨n, rfl, rfl⟩
  | @var x hx =>
      rcases ofName?_of_isLetter hx with ⟨l, hl⟩
      have hvalue : (m.memory.read l).toInt = (Tree.var x).exact m.memory := by
        simp [Tree.exact, hl]
      rw [firstOffender?_leaf rfl rfl hvalue, Tree.eval, EStateM.run_bind, run_readVariable hl]
      exact ⟨m.memory.read l, hvalue, rfl⟩
  | neg _ ih =>
      rw [firstOffender?_neg, Tree.eval]
      exact ih.bind fun x hx => verdict_negate hx
  | arith op _ _ iha ihb =>
      rw [firstOffender?_arith, Tree.eval]
      exact iha.bind fun x hx => ihb.bind fun y hy => verdict_arith op hx hy

/-- Evaluation of an arithmetical tree is exact, or stops with the complaint about the first subtree
that offends. It leaves the machine as it was. -/
theorem eval_exact_or_first_offender {a : Tree} (ha : Formula a) (m : Machine) :
    ((∀ b ∈ a.postorder, ¬ Offends m.memory b) →
      ∃ n : Word, n.toInt = a.exact m.memory ∧ a.eval.run m = .ok (.int n) m) ∧
    ∀ before b after, a.postorder = before ++ b :: after →
      (∀ c ∈ before, ¬ Offends m.memory c) → Offends m.memory b →
        a.eval.run m = .error (complaint m.memory b) m := by
  have hverdict := verdict_eval ha m
  refine ⟨?_, ?_⟩
  · intro hgood
    have hfirst : firstOffender? m.memory a = none := by
      rw [firstOffender?, List.find?_eq_none]
      simpa using hgood
    rw [hfirst] at hverdict
    exact hverdict
  · intro before b after horder hgood hbad
    have hfirst : firstOffender? m.memory a = some b := by
      rw [firstOffender?, List.find?_eq_some_iff_append]
      refine ⟨by simpa using hbad, before, after, horder, ?_⟩
      simpa using hgood
    rw [hfirst] at hverdict
    exact hverdict

/-- Division rounds down, of two faults the left one is reported, and a result that no word holds is
reported under the name of its operation. -/
theorem eval_exact_or_first_offender_pair :
    (∃ n : Word, n.toInt = -4 ∧
      (Tree.arith .div (.num (-7)) (.num 2)).eval.run {} = .ok (.int n) {}) ∧
    (Tree.arith .sub (.arith .div (.num 1) (.var "Z")) (.neg (.num Int64.minValue))).eval.run {} =
      .error .divisionByZero {} ∧
    (Tree.arith .add (.num 1) (.arith .mul (.num 4611686018427387904) (.num 4))).eval.run {} =
      .error (.integerOverflow .multiplication) {} := by
  refine ⟨?_, ?_, ?_⟩
  · exact (eval_exact_or_first_offender (.arith .div (.num (-7)) (.num 2)) {}).1 (by decide)
  · have hletter : Shape.IsLetter "Z" := ⟨'Z', rfl, rfl⟩
    exact (eval_exact_or_first_offender
      (.arith .sub (.arith .div (.num 1) (.var hletter)) (.neg (.num Int64.minValue))) {}).2
      [.num 1, .var "Z"] _ _ rfl (by decide) (by decide)
  · exact (eval_exact_or_first_offender
      (.arith .add (.num 1) (.arith .mul (.num 4611686018427387904) (.num 4))) {}).2
      [.num 1, .num 4611686018427387904, .num 4] _ _ rfl (by decide) (by decide)

end Arithmetic
end TinyBasic
