import TinyBasic.Proofs.Machine.Arithmetic

/-!
# Division — quotients rounded down, and the order of complaints

A word divided by a word is the floor of the exact quotient. It is found by a truncating division
that is corrected by one, and the correction never leaves the range of words: the only quotient
that no word holds is that of the least word by minus one, where already the truncating division
has no result.

`Refuses op left right e` lists why an operator does not apply to two values. A wrong type on the
left comes before a wrong type on the right, and what is wrong with the numbers comes last.
-/

namespace TinyBasic

/-! ## Rounding down -/

namespace Word

/-- The floor of a quotient of integers, as a fraction has it. -/
theorem fdiv_eq_floor {a b : Int} (hb : b ≠ 0) : a.fdiv b = ⌊(a : ℚ) / b⌋ := by
  -- a fraction keeps its value if both its signs are changed, so a positive divisor is enough
  have hpos : ∀ {a b : Int}, 0 < b → a.fdiv b = ⌊(a : ℚ) / b⌋ := by
    intro a b h
    lift b to ℕ using h.le
    rw [Int.fdiv_eq_ediv_of_nonneg a h.le, Int.cast_natCast, Rat.floor_intCast_div_natCast]
  rcases lt_or_gt_of_ne hb with h | h
  · rw [← Int.neg_fdiv_neg, hpos (Int.neg_pos.2 h), Int.cast_neg, Int.cast_neg, neg_div_neg_eq]
  · exact hpos h

/-- What a division rounded down leaves over: it has the sign of the divisor, unless it is zero,
and is smaller. -/
theorem remainder_fdiv (a : Int) {b : Int} (hb : b ≠ 0) :
    (a - a.fdiv b * b = 0 ∨ (a - a.fdiv b * b).sign = b.sign) ∧ |a - a.fdiv b * b| < |b| := by
  have hmod : a - a.fdiv b * b = a.fmod b := by
    rw [Int.fmod_def, Int.mul_comm]
  rw [hmod]
  rcases lt_or_gt_of_ne hb with h | h
  · -- both signs changed, the remainder changes its sign too
    have hneg : a.fmod b = -(-a).fmod (-b) := by
      rw [Int.neg_fmod_neg, Int.neg_neg]
    have hlow := Int.fmod_nonneg_of_pos (-a) (Int.neg_pos.2 h)
    have hhigh := Int.fmod_lt_of_pos (-a) (Int.neg_pos.2 h)
    refine ⟨?_, ?_⟩
    · rcases eq_or_lt_of_le hlow with hzero | hpos
      · exact .inl (by omega)
      · rw [Int.sign_eq_neg_one_of_neg h, Int.sign_eq_neg_one_of_neg (by omega)]
        exact .inr rfl
    · rw [abs_of_nonpos (by omega), abs_of_neg h]
      omega
  · have hlow := Int.fmod_nonneg_of_pos a h
    have hhigh := Int.fmod_lt_of_pos a h
    refine ⟨?_, ?_⟩
    · rcases eq_or_lt_of_le hlow with hzero | hpos
      · exact .inl hzero.symm
      · rw [Int.sign_eq_one_of_pos h, Int.sign_eq_one_of_pos hpos]
        exact .inr rfl
    · rwa [abs_of_nonneg hlow, abs_of_pos h]

/-- The floor of a quotient of words is in range, but for the least word by minus one. -/
theorem inRange_fdiv_iff {a b : Int} (ha : InRange a) (hb : b ≠ 0) :
    InRange (a.fdiv b) ↔ ¬ (a = -2 ^ 63 ∧ b = -1) := by
  rcases ha with ⟨hlow, hhigh⟩
  -- with a positive divisor the bounds on the quotient are bounds on the dividend
  rcases lt_or_gt_of_ne hb with h | h
  · have hpos : 0 < -b := Int.neg_pos.2 h
    rw [← Int.neg_fdiv_neg, Int.fdiv_eq_ediv_of_nonneg _ hpos.le, InRange,
      Int.le_ediv_iff_mul_le hpos, Int.ediv_lt_iff_lt_mul hpos]
    omega
  · rw [Int.fdiv_eq_ediv_of_nonneg _ h.le, InRange, Int.le_ediv_iff_mul_le h,
      Int.ediv_lt_iff_lt_mul h]
    omega

theorem floorDiv?_eq_none_iff {a b : Word} (hb : b ≠ 0) :
    a.floorDiv? b = none ↔ a.toInt = -2 ^ 63 ∧ b.toInt = -1 := by
  have hzero : b.toInt ≠ 0 := fun h => hb (toInt_eq_zero_iff.1 h)
  have hrange := inRange_fdiv_iff a.inRange_toInt hzero
  rw [floorDiv?_eq a hb]
  by_cases h : InRange (a.toInt.fdiv b.toInt)
  · rcases ofInt?_of_inRange h with ⟨q, hq, -⟩
    rw [hq]
    simpa using hrange.1 h
  · rw [ofInt?_of_not_inRange h]
    simpa using not_not.1 fun hne => h (hrange.2 hne)

theorem toInt_of_floorDiv? {a b q : Word} (hb : b ≠ 0) (h : a.floorDiv? b = some q) :
    q.toInt = a.toInt.fdiv b.toInt := by
  rw [floorDiv?_eq a hb] at h
  exact ofInt?_eq_some_iff.1 h

/-- Where the truncating quotient has to be corrected, a word holds the corrected one. -/
theorem exists_sub_one {a b q r : Word} (hq : a.quot? b = some q) (hr : a.rem? b = some r)
    (hfix : r ≠ 0 ∧ (decide (a < 0) ^^ decide (b < 0))) : ∃ p, q.sub? 1 = some p := by
  have hdefined : ¬ (b = 0 ∨ (a = Int64.minValue ∧ b = -1)) := by
    intro h
    simp only [quot?, h, if_true] at hq
    cases hq
  rw [not_or] at hdefined
  -- the correction is the last step of the division, which has a result here
  have hfloor : a.floorDiv? b = q.sub? 1 := by
    simp only [floorDiv?, hq, hr, Option.bind_eq_bind, Option.bind_some, if_pos hfix]
  have hsome : ¬ a.floorDiv? b = none := by
    rw [floorDiv?_eq_none_iff hdefined.1]
    intro h
    refine hdefined.2 ⟨?_, ?_⟩
    · exact Int64.toInt_inj.1 (h.1.trans Int64.toInt_minValue.symm)
    · exact Int64.toInt_inj.1 h.2
  rw [hfloor] at hsome
  exact Option.ne_none_iff_exists'.1 hsome

end Word

/-! ## Complaints -/

namespace Arithmetic

/-- Why the operator does not apply to two values. -/
inductive Refuses (op : ArithOp) : Value → Value → EvalError → Prop where
  /-- The left value is no number, whatever the right one is. -/
  | left {v w : Value} :
      v.ty ≠ .int → Refuses op v w (.typeMismatch .int v.ty)
  /-- The right value is no number, whatever the left one counts. -/
  | right {a : Word} {w : Value} :
      w.ty ≠ .int → Refuses op (.int a) w (.typeMismatch .int w.ty)
  | zero {a b : Word} :
      op = .div → b = 0 → Refuses op (.int a) (.int b) .divisionByZero
  | overflow {a b : Word} :
      ¬ (op = .div ∧ b = 0) → ¬ Word.InRange (op.exact a.toInt b.toInt) →
        Refuses op (.int a) (.int b) (.integerOverflow op.operation)

theorem asInt_of_ty_ne {v : Value} (h : v.ty ≠ .int) :
    v.asInt = .error (.typeMismatch .int v.ty) := by
  cases v with
  | int n => exact absurd rfl h
  | bool b | text s | void => rfl

theorem arith_of_refuses {op : ArithOp} {v w : Value} {e : EvalError} (h : Refuses op v w e) :
    Value.arith op v w = .error e := by
  cases h with
  | left hv =>
      simp only [Value.arith, asInt_of_ty_ne hv]
      rfl
  | right hw =>
      simp only [Value.arith, asInt_of_ty_ne hw]
      rfl
  | zero hop hb =>
      simp only [Value.arith, Value.asInt, bind, Except.bind, hop, hb]
      rfl
  | @overflow a b hzero hrange =>
      simp only [Value.arith, Value.asInt, bind, Except.bind, if_neg hzero, op.compute?_eq a hzero,
        Word.ofInt?_of_not_inRange hrange]
      rfl

/-- Where there is nothing to complain about, the operator has a result. -/
theorem arith_of_not_refuses {op : ArithOp} {v w : Value} (h : ∀ e, ¬ Refuses op v w e) :
    ∃ n : Word, Value.arith op v w = .ok (.int n) := by
  cases v with
  | bool _ | text _ | void => exact absurd (.left Value.Ty.noConfusion) (h _)
  | int a =>
      cases w with
      | bool _ | text _ | void => exact absurd (.right Value.Ty.noConfusion) (h _)
      | int b =>
          have hzero : ¬ (op = .div ∧ b = 0) := fun hz => h _ (.zero hz.1 hz.2)
          have hrange : Word.InRange (op.exact a.toInt b.toInt) :=
            not_not.1 fun hout => h _ (.overflow hzero hout)
          rcases Word.ofInt?_of_inRange hrange with ⟨n, hn, -⟩
          refine ⟨n, ?_⟩
          simp only [Value.arith, Value.asInt, bind, Except.bind, if_neg hzero,
            op.compute?_eq a hzero, hn]
          rfl

/-- An operator fails exactly with the complaint that comes first. -/
theorem arith_eq_error_iff {op : ArithOp} {v w : Value} {e : EvalError} :
    Value.arith op v w = .error e ↔ Refuses op v w e := by
  refine ⟨?_, arith_of_refuses⟩
  intro h
  by_cases hrefused : ∃ f, Refuses op v w f
  · rcases hrefused with ⟨f, hf⟩
    rw [arith_of_refuses hf] at h
    cases h
    exact hf
  · rcases arith_of_not_refuses (not_exists.1 hrefused) with ⟨n, hn⟩
    rw [hn] at h
    cases h

/-- Division by a word other than zero has no result exactly for the least word by minus one, and
is otherwise the floor of the exact quotient; its last step, the correction by one, always has a
result. An operator complains about the type of its left value first, then about that of its right
value, and only then about a zero divisor or a result out of range. -/
theorem division_floors_and_types_come_first :
    (∀ a b : Word, b ≠ 0 →
      (a.floorDiv? b = none ↔ a.toInt = -2 ^ 63 ∧ b.toInt = -1) ∧
      (¬ (a.toInt = -2 ^ 63 ∧ b.toInt = -1) → ∃ q : Word, a.floorDiv? b = some q ∧
        q.toInt = ⌊(a.toInt : ℚ) / b.toInt⌋ ∧
        (a.toInt - q.toInt * b.toInt = 0 ∨ (a.toInt - q.toInt * b.toInt).sign = b.toInt.sign) ∧
        |a.toInt - q.toInt * b.toInt| < |b.toInt|) ∧
      ∀ q r, a.quot? b = some q → a.rem? b = some r →
        r ≠ 0 ∧ (decide (a < 0) ^^ decide (b < 0)) → ∃ p, q.sub? 1 = some p) ∧
    ∀ op v w e, Value.arith op v w = .error e ↔ Refuses op v w e := by
  refine ⟨?_, fun op v w e => arith_eq_error_iff⟩
  intro a b hb
  have hzero : b.toInt ≠ 0 := fun h => hb (Word.toInt_eq_zero_iff.1 h)
  refine ⟨Word.floorDiv?_eq_none_iff hb, ?_, fun q r => Word.exists_sub_one⟩
  intro hdefined
  rcases Option.ne_none_iff_exists'.1 (mt (Word.floorDiv?_eq_none_iff hb).1 hdefined) with ⟨q, hq⟩
  have hvalue := Word.toInt_of_floorDiv? hb hq
  have hremainder := Word.remainder_fdiv a.toInt hzero
  rw [← hvalue] at hremainder
  exact ⟨q, hq, hvalue.trans (Word.fdiv_eq_floor hzero), hremainder⟩

/-- The word behind the least one, halved, has to be corrected. The least word by minus one has no
quotient, and a string on the left is reported although the divisor is zero. -/
theorem division_floors_and_types_come_first_least :
    (∃ q, Word.floorDiv? (Int64.minValue + 1) 2 = some q ∧ q.toInt = -2 ^ 62) ∧
    Word.floorDiv? Int64.minValue (-1) = none ∧
    Value.arith .div (.text "A") (.int 0) = .error (.typeMismatch .int .text) := by
  rcases division_floors_and_types_come_first with ⟨hfloor, hfail⟩
  refine ⟨?_, (hfloor Int64.minValue (-1) (by decide)).1.2 (by decide), ?_⟩
  · rcases (hfloor (Int64.minValue + 1) 2 (by decide)).2.1 (by decide) with ⟨q, hq, hvalue, -⟩
    refine ⟨q, hq, hvalue.trans ?_⟩
    have hleast : (Int64.minValue + 1).toInt = -2 ^ 63 + 1 := by decide
    have htwo : (2 : Word).toInt = 2 := by decide
    rw [hleast, htwo, Int.floor_eq_iff]
    norm_num
  · exact (hfail .div (.text "A") (.int 0) _).2 (.left Value.Ty.noConfusion)

end Arithmetic
end TinyBasic
