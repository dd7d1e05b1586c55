import TinyBasic.Proofs.Grammar.Completeness
import TinyBasic.Proofs.Token.Spacing

/-!
# Reading — lines of text and their derivations

A text is read exactly if its scan succeeds and the grammar derives its tokens, and the tree that is
read is the derived one. In particular the tokens of a line have at most one derivation.
-/

namespace TinyBasic
namespace Grammar

open Lexicon

/-! ## Trees -/

theorem quoted_of_spelled {t : Token} (h : Spelled t) : Quoted t := by
  intro hkind
  rw [Spelled, hkind] at h
  generalize hcs : t.text.toList = cs at h
  cases h with
  | str hbody =>
      rw [← String.toList_inj]
      simp [Token.unquoted, hcs]
  | mark hmem => simp [marks] at hmem

theorem quoted_of_mem_ofText {text : String} :
    ∀ t ∈ (Scan.ofText text).tokens, Quoted t := by
  intro t ht
  exact quoted_of_spelled (spelled_of_mem_ofText t ht)

theorem ofText_eq_ok_iff {text : String} {a : Tree} :
    Tree.ofText text = .ok a ↔ ∃ ts, (Scan.ofText text).result = .ok ts ∧ Line ts a := by
  constructor
  · intro h
    rcases line_sound quoted_of_mem_ofText h with ⟨hline, hending⟩
    exact ⟨(Scan.ofText text).tokens, result_eq_ok_iff.2 ⟨rfl, hending⟩, hline⟩
  · rintro ⟨ts, hresult, hline⟩
    rcases result_eq_ok_iff.1 hresult with ⟨htokens, length, hending⟩
    rw [Tree.ofText, htokens, hending]
    exact line_complete hline length

/-! ## Commands -/

theorem line_error_of_quit {fin : Ending} {t : Token} {rest : List Token}
    (h : t.keyword? = some .quit) (a : Tree) : Parse.line fin (t :: rest) ≠ .ok a := by
  intro hline
  have hkind : t.kind ≠ .num := by
    intro hnum
    have hword := (keyword?_eq_some_iff.1 h).1
    rw [hnum] at hword
    cases hword
  simp only [Parse.line, hkind, if_false, Parse.wholeStatement, Parse.statement, h] at hline
  cases hline

theorem asLine_eq_ok_iff {reading : Except ParseError Tree} {a : Tree} :
    (do return Command.line (← reading)) = Except.ok (.line a) ↔ reading = .ok a := by
  cases reading with
  | error e => simp [bind, Except.bind]
  | ok b => simp [bind, Except.bind, pure, Except.pure]

theorem asLine_ne_quit {reading : Except ParseError Tree} :
    (do return Command.line (← reading)) ≠ Except.ok Command.quit := by
  intro h
  rcases ok_of_bind h with ⟨a, -, h⟩
  cases h

theorem command_eq_line_iff {fin : Ending} {ts : List Token} {a : Tree} :
    Parse.command fin ts = .ok (.line a) ↔ Parse.line fin ts = .ok a := by
  cases ts with
  | nil => exact asLine_eq_ok_iff
  | cons t rest =>
      simp only [Parse.command]
      split
      case isTrue hquit =>
        constructor
        · intro h
          rcases ok_of_bind h with ⟨_, -, h⟩
          cases h
        · intro h
          exact absurd h (line_error_of_quit hquit a)
      case isFalse => exact asLine_eq_ok_iff

theorem command_eq_quit_iff {fin : Ending} {ts : List Token} :
    Parse.command fin ts = .ok .quit ↔
      ∃ t, ts = [t] ∧ IsWord .quit t ∧ ∃ length, fin = .complete length := by
  cases ts with
  | nil =>
      constructor
      · intro h
        exact absurd h asLine_ne_quit
      · rintro ⟨t, hts, -⟩
        cases hts
  | cons t rest =>
      simp only [Parse.command]
      split
      case isTrue hquit =>
        constructor
        · intro h
          rcases ok_of_bind h with ⟨_, hend, -⟩
          rcases endOfLine_eq_ok_iff.1 hend with ⟨rfl, hfin⟩
          exact ⟨t, rfl, keyword?_eq_some_iff.1 hquit, hfin⟩
        · rintro ⟨u, hts, -, hfin⟩
          cases hts
          rw [endOfLine_eq_ok_iff.2 ⟨rfl, hfin⟩]
          rfl
      case isFalse hquit =>
        constructor
        · intro h
          exact absurd h asLine_ne_quit
        · rintro ⟨u, hts, hu, -⟩
          cases hts
          exact absurd (keyword?_eq_some_iff.2 hu) hquit

theorem command_ofText_eq_line_iff {text : String} {a : Tree} :
    Command.ofText text = .ok (.line a) ↔ Tree.ofText text = .ok a :=
  command_eq_line_iff

theorem command_ofText_eq_quit_iff {text : String} :
    Command.ofText text = .ok .quit ↔
      ∃ t, (Scan.ofText text).result = .ok [t] ∧ IsWord .quit t := by
  rw [Command.ofText, command_eq_quit_iff]
  constructor
  · rintro ⟨t, htokens, hword, hending⟩
    exact ⟨t, result_eq_ok_iff.2 ⟨htokens, hending⟩, hword⟩
  · rintro ⟨t, hresult, hword⟩
    rcases result_eq_ok_iff.1 hresult with ⟨htokens, hending⟩
    exact ⟨t, htokens, hword, hending⟩

/-- Reading accepts exactly the lines of the grammar and gives exactly their trees. A command is
`QUIT` alone, or such a line. -/
theorem read_iff_derived (text : String) :
    (∀ a, Tree.ofText text = .ok a ↔
      ∃ ts, (Scan.ofText text).result = .ok ts ∧ Line ts a) ∧
    (Command.ofText text = .ok .quit ↔
      ∃ t, (Scan.ofText text).result = .ok [t] ∧ IsWord .quit t) ∧
    (∀ a, Command.ofText text = .ok (.line a) ↔ Tree.ofText text = .ok a) := by
  refine ⟨?_, ?_, ?_⟩
  · intro a
    exact ofText_eq_ok_iff
  · exact command_ofText_eq_quit_iff
  · intro a
    exact command_ofText_eq_line_iff

end Grammar
end TinyBasic
