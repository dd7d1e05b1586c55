import TinyBasic.Proofs.Grammar.Wording
import TinyBasic.Proofs.Token.Composition
import TinyBasic.Proofs.Tree.RoundTrip

/-!
# Parts — lines put together from texts

A text that consists of two texts with a space between them has the words of the first and then the
words of the second (`words_behind_iff`). So it can be told from the parts of a line what the line is
read as, and from the line what its parts are.
-/

namespace TinyBasic
namespace Grammar

open Lexicon

/-! ## Words -/

/-- The text consists of these words. -/
def Words (text : String) (ls : List Lexeme) : Prop :=
  (Scan.ofText text).tokens.map lexeme = ls ∧ ∃ n, (Scan.ofText text).ending = .complete n

theorem words_of_valid {l : Lexeme} (h : l.Valid) : Words l.text [l] := by
  rcases ofText_spaced (List.forall_mem_singleton.2 h) with ⟨ts, hscan, hwords⟩
  rcases result_eq_ok_iff.1 hscan with ⟨rfl, hending⟩
  have htext : spaced [l] = l.text := by
    simp [spaced]
  rw [htext] at hwords hending
  exact ⟨hwords, hending⟩

/-- What is behind a space has the words that it has alone. -/
theorem words_behind_iff {s t : String} {ls ks : List Lexeme} (h : Words s ls) :
    Words (s ++ " " ++ t) ks ↔ ∃ js, Words t js ∧ ks = ls ++ js := by
  rcases h with ⟨rfl, n, hending⟩
  have hwords := ofChars_words (s ++ " ").utf8ByteSize 0 t.toList
  rw [Words, ofText_across hending]
  simp only [Scan.behind, List.map_append, hwords.1, hwords.2]
  constructor
  · rintro ⟨rfl, hcomplete⟩
    exact ⟨_, ⟨rfl, hcomplete⟩, rfl⟩
  · rintro ⟨_, ⟨rfl, hcomplete⟩, rfl⟩
    exact ⟨rfl, hcomplete⟩

theorem Words.append {s t : String} {ls ks : List Lexeme} (hs : Words s ls) (ht : Words t ks) :
    Words (s ++ " " ++ t) (ls ++ ks) :=
  (words_behind_iff hs).2 ⟨ks, ht, rfl⟩

theorem Words.spelled {text : String} {ls : List Lexeme} (h : Words text ls) :
    ∀ t ∈ ls.map Lexeme.token, Spelled t := by
  intro t ht
  rw [← h.1, List.map_map] at ht
  rcases List.mem_map.1 ht with ⟨u, hu, rfl⟩
  exact spelled_of_mem_ofText u hu

/-- What a text is read as depends on its words only. -/
theorem ofText_eq_ok_iff_words {text : String} {a : Tree} :
    Tree.ofText text = .ok a ↔ ∃ ls, Words text ls ∧ Line (ls.map Lexeme.token) a := by
  rw [ofText_eq_ok_iff]
  constructor
  · rintro ⟨ts, hscan, hline⟩
    rcases result_eq_ok_iff.1 hscan with ⟨rfl, hending⟩
    exact ⟨_, ⟨rfl, hending⟩, hline.reword (map_lexeme_token _)⟩
  · rintro ⟨ls, ⟨hwords, hending⟩, hline⟩
    refine ⟨_, result_eq_ok_iff.2 ⟨rfl, hending⟩, hline.reword ?_⟩
    rw [hwords, map_lexeme_token]

theorem words_keyword (k : Keyword) : Words k.spelling [Source.keyword k] :=
  words_of_valid (Source.valid_keyword k)

/-! ## Expressions and statements -/

/-- The text is an expression with this tree: `PRINT` takes it for its one item, which is no
string. -/
structure Operand (e : String) (a : Tree) : Prop where
  printed : Tree.ofText ("PRINT" ++ " " ++ e) = .ok (.print [a])
  no_string : ∀ s, a ≠ .text s

theorem Operand.shape {e : String} {a : Tree} (h : Operand e a) : Shape.Expr a := by
  cases Shape.line_of_ofText h.printed with
  | plain hstatement =>
      cases hstatement with
      | expr hexpr => cases hexpr
      | print hitems =>
          cases hitems a (by simp) with
          | text => exact absurd rfl (h.no_string _)
          | expr hexpr => exact hexpr

/-- Only behind `PRINT` an expression is read as an item. -/
theorem derives_of_line {w : Token} {ts : List Token} {a : Tree} (ha : ∀ s, a ≠ .text s)
    (hspelled : ∀ t ∈ w :: ts, Spelled t) (h : Line (w :: ts) (.print [a])) :
    Derives .expr ts a := by
  cases h with
  | plain hstatement _ =>
      cases hstatement with
      | expr hexpr => cases Shape.expr_of_derives hexpr hspelled
      | alone halone _ => cases halone
      | print _ hitems =>
          cases hitems with
          | more _ _ hmore => cases hmore
          | last hitem =>
              cases hitem with
              | text => exact absurd rfl (ha _)
              | expr hexpr => exact hexpr

theorem operand_iff {e : String} {a : Tree} :
    Operand e a ↔ ∃ ls, Words e ls ∧ Derives .expr (ls.map Lexeme.token) a := by
  have hprint := words_keyword .print
  constructor
  · rintro ⟨hprinted, hnone⟩
    rcases ofText_eq_ok_iff_words.1 hprinted with ⟨ks, hwords, hline⟩
    rcases (words_behind_iff hprint).1 hwords with ⟨ls, hls, rfl⟩
    exact ⟨ls, hls, derives_of_line hnone hwords.spelled hline⟩
  · rintro ⟨ls, hls, hexpr⟩
    have hword := Source.isWord_keyword .print
    have hline : Line (([Source.keyword .print] ++ ls).map Lexeme.token) (.print [a]) :=
      .plain (.print hword (.last (.expr hexpr))) (by simp [Source.isWord_ne_num hword])
    refine ⟨ofText_eq_ok_iff_words.2 ⟨_, hprint.append hls, hline⟩, ?_⟩
    rintro s rfl
    cases Shape.expr_of_derives hexpr hls.spelled

/-- The text is a statement with this tree, and it does not begin with a number, which at the start
of a line would be a line number. -/
structure Plain (s : String) (b : Tree) : Prop where
  read : Tree.ofText s = .ok b
  unnumbered : ∀ t ∈ (Scan.ofText s).tokens.head?, t.kind ≠ .num

theorem plain_iff {s : String} {b : Tree} :
    Plain s b ↔ ∃ ls, Words s ls ∧ Statement (ls.map Lexeme.token) b ∧
      ∀ t ∈ (ls.map Lexeme.token).head?, t.kind ≠ .num := by
  constructor
  · rintro ⟨hread, hhead⟩
    rcases ofText_eq_ok_iff_words.1 hread with ⟨ls, hwords, hline⟩
    generalize hts : ls.map Lexeme.token = ts at hline
    cases hline with
    | numbered hlit _ =>
        rcases List.map_eq_cons_iff.1 hts with ⟨l, ks, rfl, rfl, -⟩
        rcases List.map_eq_cons_iff.1 hwords.1 with ⟨t, us, htokens, rfl, -⟩
        rw [htokens] at hhead
        exact absurd hlit.1 (hhead t rfl)
    | plain hstatement hplain =>
        subst hts
        exact ⟨ls, hwords, hstatement, hplain⟩
  · rintro ⟨ls, hwords, hstatement, hplain⟩
    refine ⟨ofText_eq_ok_iff_words.2 ⟨ls, hwords, .plain hstatement hplain⟩, ?_⟩
    intro t ht
    rcases List.head?_eq_some_iff.1 ht with ⟨ts, htokens⟩
    have hls := hwords.1
    rw [htokens, List.map_cons] at hls
    subst hls
    exact hplain (lexeme t).token rfl

end Grammar
end TinyBasic
