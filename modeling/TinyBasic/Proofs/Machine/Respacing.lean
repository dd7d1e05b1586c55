import TinyBasic.Proofs.Fault.Viable
import TinyBasic.Proofs.Grammar.Placeless
import TinyBasic.Proofs.Machine.Running

/-!
# Respacing — lines with other spacing

The words of a line can be written anew with other spacing between them. The new line has the same
words, although the scan found them by longest match and may have cut the old line where no space
stood: each word is a token by itself as well. Reading looks at nothing but the words, and running
at nothing but the command, so the two lines differ in the places of their errors at most
(`spacing_never_matters`).
-/

namespace TinyBasic
namespace Respacing

open Grammar Lexicon

/-! ## Sameness up to places -/

/-- The errors expect and find the same, wherever that is. -/
inductive SameFault : ParseError → ParseError → Prop where
  | unexpected (expected : Expected) (found : Found) (s s' : Span) :
      SameFault (.unexpected expected found s) (.unexpected expected found s')

/-- The readings give the same, or find the same fault. -/
inductive SameReading {α : Type} : Except ParseError α → Except ParseError α → Prop where
  | ok (a : α) : SameReading (.ok a) (.ok a)
  | error {e e' : ParseError} : SameFault e e' → SameReading (.error e) (.error e')

/-- The runs come to the same and leave the same machine. -/
inductive SameRun : EStateM.Result LineError Machine Outcome →
    EStateM.Result LineError Machine Outcome → Prop where
  | ok (outcome : Outcome) (m : Machine) : SameRun (.ok outcome m) (.ok outcome m)
  | parse {e e' : ParseError} (m : Machine) :
      SameFault e e' → SameRun (.error (.parse e) m) (.error (.parse e') m)
  | eval (e : EvalError) (m : Machine) : SameRun (.error (.eval e) m) (.error (.eval e) m)

/-! ## Readings of the same words -/

/-- Errors that differ in their places only are the same fault, unless the scan made them. -/
theorem sameFault_of_relocate {f : Nat → Nat} {e e' : ParseError}
    (h : e.relocate f = e'.relocate f) (hscan : ∀ s, e ≠ .scan s) : SameFault e e' := by
  cases e with
  | scan s => exact absurd rfl (hscan s)
  | unexpected expected found s =>
      cases e' with
      | scan s' => cases h
      | unexpected expected' found' s' =>
          simp only [ParseError.relocate, ParseError.unexpected.injEq] at h
          rcases h with ⟨rfl, rfl, -⟩
          exact .unexpected expected found s s'

theorem sameReading_of_relocated {α : Type} {f : Nat → Nat} {r r' s : Except ParseError α}
    (h : Relocated f r s) (h' : Relocated f r' s) (hscan : ∀ e, r ≠ .error (.scan e)) :
    SameReading r r' := by
  rw [Relocated] at h h'
  rw [h] at h'
  cases r with
  | ok a =>
      cases r' with
      | ok a' =>
          cases h'
          exact .ok a
      | error e' => cases h'
  | error e =>
      cases r' with
      | ok a' => cases h'
      | error e' =>
          refine .error (sameFault_of_relocate (Except.error.inj h') ?_)
          rintro s rfl
          exact hscan s rfl

/-- Without places a token is nothing but its word. -/
theorem relocated_words (n : Nat) (ts : List Token) :
    Relocated (fun _ => 0) (Parse.command (.complete n) ts)
      (Parse.command (.complete 0) ((ts.map lexeme).map Lexeme.token)) := by
  have hwords : (ts.map lexeme).map Lexeme.token = ts.map (Token.relocate fun _ => 0) := by
    rw [List.map_map]
    rfl
  rw [hwords]
  exact relocated_command (fun _ => rfl) ts

theorem sameReading_command {ts us : List Token} (hwords : us.map lexeme = ts.map lexeme)
    (hquoted : ∀ t ∈ ts, Quoted t) (n n' : Nat) :
    SameReading (Parse.command (.complete n) ts) (Parse.command (.complete n') us) := by
  have hus := relocated_words n' us
  rw [hwords] at hus
  refine sameReading_of_relocated (relocated_words n ts) hus ?_
  -- the scan got to the end, so it has made no error
  intro e he
  cases (fault_command hquoted he).scan.1

/-! ## Runs -/

/-- A run knows of the text only the command that it gives. -/
theorem SameReading.run {text other : String}
    (h : SameReading (Command.ofText text) (Command.ofText other)) (m : Machine) :
    SameRun ((Line.run text).run m) ((Line.run other).run m) := by
  rw [Running.run_line, Running.run_line]
  generalize Command.ofText text = r at h
  generalize Command.ofText other = r' at h
  cases h with
  | error he => exact .parse m he
  | ok command =>
      cases command with
      | quit => exact .ok .quit m
      | line a =>
          dsimp only
          cases a.eval.run m with
          | error e m' => exact .eval e m'
          | ok v m' => cases v <;> exact .ok _ m'

/-- Spacing between tokens never matters: a text with the same words in the same order, however they
are spread, is scanned to the same words, read as the same command and run to the same end. -/
theorem spacing_never_matters {text other : String} {ts : List Token}
    (h : (Scan.ofText text).result = .ok ts)
    (hother : Spread (ts.map Token.text) other.toList) :
    (∃ us, (Scan.ofText other).result = .ok us ∧ us.map lexeme = ts.map lexeme) ∧
      SameReading (Command.ofText text) (Command.ofText other) ∧
      ∀ m, SameRun ((Line.run text).run m) ((Line.run other).run m) := by
  rcases result_eq_ok_iff.1 h with ⟨rfl, n, hending⟩
  have hvalid : ∀ l ∈ (Scan.ofText text).tokens.map lexeme, l.Valid := by
    intro l hl
    rcases List.mem_map.1 hl with ⟨t, ht, rfl⟩
    exact spelled_of_mem_ofText t ht
  have hspread : Spread (((Scan.ofText text).tokens.map lexeme).map Lexeme.text) other.toList := by
    rw [List.map_map]
    exact hother
  rcases ofChars_spread hvalid hspread 0 with ⟨hwords, n', hending'⟩
  have hreading : SameReading (Command.ofText text) (Command.ofText other) := by
    have hsame := sameReading_command hwords quoted_of_mem_ofText n n'
    rw [← hending, ← hending'] at hsame
    exact hsame
  exact ⟨⟨_, result_eq_ok_iff.2 ⟨rfl, n', hending'⟩, hwords⟩, hreading, hreading.run⟩

/-- No space stands in the first text, and the second one has all kinds of spacing. -/
theorem spacing_never_matters_let :
    (Scan.ofText "LETA=A-.5").result =
      .ok [⟨.keyword, "LET", ⟨0, 3⟩⟩, ⟨.var, "A", ⟨3, 4⟩⟩, ⟨.relop, "=", ⟨4, 5⟩⟩,
        ⟨.var, "A", ⟨5, 6⟩⟩, ⟨.minus, "-", ⟨6, 7⟩⟩, ⟨.num, ".5", ⟨7, 9⟩⟩] ∧
    Spread ["LET", "A", "=", "A", "-", ".5"] "\tLET A\n= A\x0c\r- .5 ".toList ∧
    SameReading (Command.ofText "LETA=A-.5") (Command.ofText "\tLET A\n= A\x0c\r- .5 ") ∧
    ∀ m, SameRun ((Line.run "LETA=A-.5").run m) ((Line.run "\tLET A\n= A\x0c\r- .5 ").run m) := by
  have hscan : (Scan.ofText "LETA=A-.5").result =
      .ok [⟨.keyword, "LET", ⟨0, 3⟩⟩, ⟨.var, "A", ⟨3, 4⟩⟩, ⟨.relop, "=", ⟨4, 5⟩⟩,
        ⟨.var, "A", ⟨5, 6⟩⟩, ⟨.minus, "-", ⟨6, 7⟩⟩, ⟨.num, ".5", ⟨7, 9⟩⟩] := by
    cbv
  have hspread : Spread ["LET", "A", "=", "A", "-", ".5"] "\tLET A\n= A\x0c\r- .5 ".toList := by
    refine .space rfl (.word rfl (separated_cons rfl _) ?_)
    refine .space rfl (.word rfl (separated_cons rfl _) ?_)
    refine .space rfl (.word rfl (separated_cons rfl _) ?_)
    refine .space rfl (.word rfl (separated_cons rfl _) ?_)
    refine .space rfl (.space rfl (.word rfl (separated_cons rfl _) ?_))
    refine .space rfl (.word rfl (separated_cons rfl _) ?_)
    exact .space rfl (.nil (List.forall_mem_nil _))
  have hsame := spacing_never_matters hscan hspread
  exact ⟨hscan, hspread, hsame.2⟩

end Respacing
end TinyBasic
