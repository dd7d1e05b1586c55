import TinyBasic.Proofs.Fault.Viable

/-!
# Suggestion — what an error expects would do

The error of a line names what was expected. That is a truthful suggestion: where the end of the
line is expected, the tokens in front of the error are a line already; and where something else is
expected, some token of that class can follow them in a line that is read.

Not every token of the class will do: behind `LET A` a relational operator is expected, and only one
of them is right.
-/

namespace TinyBasic
namespace Grammar

open Parse Lexicon Source

/-! ## Classes of tokens -/

/-- The token is a number that a word can hold. -/
def IsNumber (t : Token) : Prop :=
  ∃ n, Literal false t n

/-- The token is a letter. -/
def IsVariable (t : Token) : Prop :=
  t.kind = .var ∧ Shape.IsLetter t.text

/-- Something of `P` begins with the token. -/
def Begins {α : Type} (P : List Token → α → Prop) (t : Token) : Prop :=
  ∃ ts a, P (t :: ts) a

/-- The token is of the class that is expected. The end of a line is no token. -/
def OfClass : Expected → Token → Prop
  | .num, t => IsNumber t
  | .var, t => IsVariable t
  | .relop, t => t.kind = .relop
  | .thenKw, t => IsWord .thenKw t
  | .comma, t => t.kind = .comma
  | .equal, t => t.kind = .relop ∧ t.text = "="
  | .expression, t => Begins (Derives .expr) t
  | .numOrVar, t => IsNumber t ∨ IsVariable t
  | .numberOrParen, t => IsNumber t ∨ t.kind = .lparen
  | .rparen, t => t.kind = .rparen
  | .statement, t => Begins Statement t
  | .endOfLine, _ => False

theorem isVariable_letter_A : IsVariable (letter "A").token :=
  ⟨rfl, 'A', rfl, rfl⟩

/-- The word that stands for what is expected is of its class. -/
theorem ofClass_suggestion {expected : Expected} {w : Lexeme} (h : suggestion? expected = some w) :
    OfClass expected w.token := by
  cases expected <;> cases h
  case num => exact exists_literal_one false
  case var => exact isVariable_letter_A
  case relop => rfl
  case thenKw => exact isWord_keyword .thenKw
  case comma => rfl
  case equal => exact ⟨rfl, rfl⟩
  case expression => exact ⟨[], .var "A", derives_letter_A⟩
  case numOrVar => exact .inr isVariable_letter_A
  case numberOrParen => exact .inr rfl
  case rparen => rfl
  case statement => exact ⟨[], .finish, statement_end⟩

/-! ## Truthful errors -/

/-- What is expected behind the tokens can stand there: they are a whole text of `R` where its end
is expected, and otherwise some token of the class goes on with them. -/
def Truthful (R : String → Prop) (expected : Expected) (us : List Token) : Prop :=
  if expected = .endOfLine then Accepted R us
  else ∃ t, OfClass expected t ∧ Viable R (us ++ [t])

theorem Recognizes.truthful {α : Type} {p : Ending → List Token → Except ParseError α}
    {P : List Token → α → Prop} {R : String → Prop} (h : Recognizes p P R) {us : List Token}
    (hus : ∀ u ∈ us, Spelled u) {expected : Expected} (hcompletes : Completes P expected us) :
    Truthful R expected us := by
  rcases hcompletes with ⟨rfl, a, ha⟩ | ⟨w, ws, a, hw, hws, ha⟩
  · rw [Truthful, if_pos rfl]
    exact h.accepted hus ha
  · have hend : expected ≠ .endOfLine := by
      rintro rfl
      cases hw
    rw [Truthful, if_neg hend]
    exact ⟨w.token, ofClass_suggestion hw, h.viable_of_awaits hus hw ⟨w, ws, a, hw, hws, ha⟩⟩

/-- What the error of a line expects can stand in the place of what was found. The token that was
found is the first one that no line goes on with. -/
theorem expectation_is_truthful (text : String) {expected : Expected} {found : Found} {span : Span}
    (h : Command.ofText text = .error (.unexpected expected found span)) :
    match found with
    | .token kind word =>
        ∃ k, (Scan.ofText text).tokens[k]? = some ⟨kind, word, span⟩ ∧
          ¬ Viable ReadsCommand ((Scan.ofText text).tokens.take (k + 1)) ∧
          Truthful ReadsCommand expected ((Scan.ofText text).tokens.take k)
    | .endOfLine =>
        ∃ ts, (Scan.ofText text).result = .ok ts ∧ Truthful ReadsCommand expected ts := by
  have hspelled := @spelled_of_mem_ofText text
  have hfault := fault_command quoted_of_mem_ofText h
  rcases hfault.unexpected with
    ⟨us, t, rest, hts, rfl, rfl, hC, hbad⟩ | ⟨n, hending, rfl, rfl, hC⟩
  · rw [hts] at hspelled ⊢
    have hus : ∀ u ∈ us, Spelled u := fun u hu => hspelled u (by simp [hu])
    refine ⟨us.length, by simp, ?_, ?_⟩
    · rw [List.take_length_add_append]
      exact recognizes_command.not_viable hbad []
    · rw [List.take_left]
      exact recognizes_command.truthful hus hC
  · exact ⟨_, result_eq_ok_iff.2 ⟨rfl, n, hending⟩, recognizes_command.truthful hspelled hC⟩

/-- A parenthesis that is open inside two statements. -/
theorem expectation_is_truthful_paren :
    Command.ofText "IF A = 1 THEN PRINT (2 3" =
      .error (.unexpected .rparen (.token .num "3") ⟨23, 24⟩) ∧
    ∃ k, (Scan.ofText "IF A = 1 THEN PRINT (2 3").tokens[k]? = some ⟨.num, "3", ⟨23, 24⟩⟩ ∧
      ¬ Viable ReadsCommand ((Scan.ofText "IF A = 1 THEN PRINT (2 3").tokens.take (k + 1)) ∧
      Truthful ReadsCommand .rparen ((Scan.ofText "IF A = 1 THEN PRINT (2 3").tokens.take k) := by
  have herror : Command.ofText "IF A = 1 THEN PRINT (2 3" =
      .error (.unexpected .rparen (.token .num "3") ⟨23, 24⟩) := by
    cbv
  exact ⟨herror, expectation_is_truthful _ herror⟩

end Grammar
end TinyBasic
