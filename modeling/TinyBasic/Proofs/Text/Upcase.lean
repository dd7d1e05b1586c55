import Mathlib
import TinyBasic.Text.ByteLength
import TinyBasic.Text.Upcase

/-!
# Upcase — what capitals leave as it is

Making capitals of a line changes neither its quotes nor the number of its bytes. So a line in
capitals can be taken apart together with the line that it comes from: wherever the first is cut in
two, the second is cut at the same byte (`upcaseFrom_eq_append`). `quotedAfter` says whether the
cut lies in a string.
-/

namespace TinyBasic
namespace Text

/-! ## Single characters -/

theorem isUpper_toUpper {c : Char} (hc : c.isLower = true) : c.toUpper.isUpper = true := by
  rw [Char.isUpper_toUpper_eq_isAlpha, Char.isAlpha, hc, Bool.or_true]

theorem toUpper_eq_quote_iff {c : Char} : c.toUpper = '"' ↔ c = '"' := by
  by_cases hc : c.isLower = true
  · -- the capital of a small letter is a letter, and a quote is none
    have hupper := isUpper_toUpper hc
    constructor
    · intro h
      rw [h] at hupper
      cases hupper
    · rintro rfl
      cases hc
  · rw [Char.toUpper_eq_of_not_isLower hc]

theorem utf8Size_toUpper (c : Char) : c.toUpper.utf8Size = c.utf8Size := by
  by_cases hc : c.isLower = true
  · have hupper := isUpper_toUpper hc
    simp only [Char.isUpper, Char.isLower, Bool.and_eq_true, decide_eq_true_eq] at hupper hc
    have hone : c.utf8Size = 1 := Char.utf8Size_eq_one_iff.2 (UInt32.le_trans hc.2 (by decide))
    rw [hone, Char.utf8Size_eq_one_iff]
    exact UInt32.le_trans hupper.2 (by decide)
  · rw [Char.toUpper_eq_of_not_isLower hc]

/-! ## Characters of a line -/

/-- Whether a string is open behind the characters, where `quoted` says whether one is open in
front of them. -/
def quotedAfter (quoted : Bool) : List Char → Bool
  | [] => quoted
  | c :: cs => quotedAfter (if c = '"' then !quoted else quoted) cs

section Lines

variable (quoted : Bool)

theorem upcaseFrom_cons (c : Char) (cs : List Char) :
    upcaseFrom quoted (c :: cs) =
      (if quoted then c else c.toUpper) ::
        upcaseFrom (if c = '"' then !quoted else quoted) cs := by
  by_cases hc : c = '"'
  · subst hc
    simp [upcaseFrom]
  · simp only [upcaseFrom, if_neg hc]

theorem upcaseFrom_append (as bs : List Char) :
    upcaseFrom quoted (as ++ bs) =
      upcaseFrom quoted as ++ upcaseFrom (quotedAfter quoted as) bs := by
  induction as generalizing quoted with
  | nil => rfl
  | cons a as ih => simp only [List.cons_append, upcaseFrom_cons, quotedAfter, ih]

theorem quotedAfter_append (as bs : List Char) :
    quotedAfter quoted (as ++ bs) = quotedAfter (quotedAfter quoted as) bs := by
  induction as generalizing quoted with
  | nil => rfl
  | cons a as ih => simp only [List.cons_append, quotedAfter, ih]

theorem byteLength_upcaseFrom (cs : List Char) :
    byteLength (upcaseFrom quoted cs) = byteLength cs := by
  induction cs generalizing quoted with
  | nil => rfl
  | cons c cs ih =>
      rw [upcaseFrom_cons, byteLength_cons, byteLength_cons, ih]
      split
      case isTrue => rfl
      case isFalse => rw [utf8Size_toUpper]

theorem quote_toUpper_iff {c : Char} : (if quoted then c else c.toUpper) = '"' ↔ c = '"' := by
  split
  case isTrue => rfl
  case isFalse => exact toUpper_eq_quote_iff

theorem quotedAfter_upcaseFrom (cs : List Char) :
    quotedAfter quoted (upcaseFrom quoted cs) = quotedAfter quoted cs := by
  induction cs generalizing quoted with
  | nil => rfl
  | cons c cs ih => simp only [upcaseFrom_cons, quotedAfter, quote_toUpper_iff, ih]

theorem upcaseFrom_upcaseFrom (cs : List Char) :
    upcaseFrom quoted (upcaseFrom quoted cs) = upcaseFrom quoted cs := by
  induction cs generalizing quoted with
  | nil => rfl
  | cons c cs ih =>
      simp only [upcaseFrom_cons, quote_toUpper_iff, ih]
      cases quoted <;> simp

variable {quoted}

/-- A line in capitals that is cut in two comes from a line that is cut in two. -/
theorem upcaseFrom_eq_append {cs as bs : List Char} (h : upcaseFrom quoted cs = as ++ bs) :
    ∃ as' bs', cs = as' ++ bs' ∧ upcaseFrom quoted as' = as ∧
      upcaseFrom (quotedAfter quoted as) bs' = bs := by
  have hlength : as.length ≤ cs.length := by
    rw [← length_upcaseFrom quoted cs, h, List.length_append]
    omega
  have hsplit : cs = cs.take as.length ++ cs.drop as.length := (List.take_append_drop _ _).symm
  -- each character becomes one character, so the cut is at the same place
  rw [hsplit, upcaseFrom_append] at h
  rcases List.append_inj h (by rw [length_upcaseFrom, List.length_take_of_le hlength]) with
    ⟨hfront, hback⟩
  have hafter : quotedAfter quoted as = quotedAfter quoted (cs.take as.length) := by
    rw [← quotedAfter_upcaseFrom quoted (cs.take as.length), hfront]
  refine ⟨_, _, hsplit, hfront, ?_⟩
  rw [hafter]
  exact hback

theorem quotedAfter_of_not_mem {cs : List Char} (h : '"' ∉ cs) :
    quotedAfter quoted cs = quoted := by
  induction cs with
  | nil => rfl
  | cons c cs ih =>
      rw [List.mem_cons, not_or] at h
      rw [quotedAfter, if_neg (Ne.symm h.1), ih h.2]

theorem upcaseFrom_of_not_mem {cs : List Char} (h : '"' ∉ cs) :
    upcaseFrom quoted cs = if quoted then cs else cs.map Char.toUpper := by
  induction cs with
  | nil => cases quoted <;> rfl
  | cons c cs ih =>
      rw [List.mem_cons, not_or] at h
      rw [upcaseFrom_cons, if_neg (Ne.symm h.1), ih h.2]
      cases quoted <;> rfl

theorem quote_mem_upcaseFrom_iff {cs : List Char} : '"' ∈ upcaseFrom quoted cs ↔ '"' ∈ cs := by
  induction cs generalizing quoted with
  | nil => rfl
  | cons c cs ih =>
      rw [upcaseFrom_cons, List.mem_cons, List.mem_cons, ih, eq_comm, quote_toUpper_iff, eq_comm]

/-- Without a quote only characters outside strings can have changed. -/
theorem eq_of_upcaseFrom_of_not_mem {cs as : List Char} (h : upcaseFrom quoted cs = as)
    (has : '"' ∉ as) : as = if quoted then cs else cs.map Char.toUpper := by
  subst h
  exact upcaseFrom_of_not_mem (mt quote_mem_upcaseFrom_iff.2 has)

/-! ## Strings -/

theorem upcaseFrom_eq_quote_cons {cs bs : List Char} (h : upcaseFrom quoted cs = '"' :: bs) :
    ∃ bs', cs = '"' :: bs' ∧ upcaseFrom (!quoted) bs' = bs := by
  cases cs with
  | nil => cases h
  | cons c cs =>
      rw [upcaseFrom_cons, List.cons.injEq, quote_toUpper_iff] at h
      rcases h with ⟨rfl, hrest⟩
      exact ⟨cs, rfl, hrest⟩

/-- A string that is still open has not changed. -/
theorem eq_of_upcaseFrom_open {cs body : List Char} (h : upcaseFrom false cs = '"' :: body)
    (hbody : '"' ∉ body) : cs = '"' :: body := by
  rcases upcaseFrom_eq_quote_cons h with ⟨body', rfl, hbody'⟩
  rw [eq_of_upcaseFrom_of_not_mem hbody' hbody]
  rfl

/-- A string with both its quotes has not changed. -/
theorem eq_of_upcaseFrom_string {cs body : List Char}
    (h : upcaseFrom false cs = '"' :: (body ++ ['"'])) (hbody : '"' ∉ body) :
    cs = '"' :: (body ++ ['"']) := by
  rw [← List.cons_append] at h
  rcases upcaseFrom_eq_append h with ⟨front, back, rfl, hfront, hback⟩
  rcases upcaseFrom_eq_quote_cons hback with ⟨more, rfl, hmore⟩
  -- the line is as long as its capitals, so nothing stands behind the closing quote
  have hnil : more = [] := by
    rw [← List.length_eq_zero_iff, ← length_upcaseFrom, hmore, List.length_nil]
  rw [eq_of_upcaseFrom_open hfront hbody, hnil, List.cons_append]

theorem upcaseFrom_string {body : List Char} (hbody : '"' ∉ body) :
    upcaseFrom false ('"' :: (body ++ ['"'])) = '"' :: (body ++ ['"']) := by
  simp [upcaseFrom_append, upcaseFrom_of_not_mem hbody, upcaseFrom]

theorem quotedAfter_string {body : List Char} (hbody : '"' ∉ body) :
    quotedAfter false ('"' :: (body ++ ['"'])) = false := by
  simp [quotedAfter, quotedAfter_append, quotedAfter_of_not_mem hbody]

end Lines

/-! ## Whole lines -/

theorem toList_upcase (line : String) : (upcase line).toList = upcaseFrom false line.toList := by
  rw [upcase, String.toList_ofList]

theorem utf8ByteSize_upcase (line : String) :
    (upcase line).utf8ByteSize = line.utf8ByteSize := by
  rw [← byteLength_toList, ← byteLength_toList, toList_upcase, byteLength_upcaseFrom]

theorem upcase_upcase (line : String) : upcase (upcase line) = upcase line := by
  rw [← String.toList_inj, toList_upcase (upcase line), toList_upcase line, upcaseFrom_upcaseFrom]

end Text
end TinyBasic
