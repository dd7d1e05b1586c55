import Mathlib
import TinyBasic.Token.Scan

/-!
# Lexicon — the spellings of tokens

For each kind of token the texts that a token of the kind can have, as a relation that does not
mention the scan. Two facts tie it to the scan:

* every token of a scan is spelled as the lexicon says (`spelled_of_mem_tokens`);
* a spelling with spacing behind it is scanned as one token (`lexeme?_of_spells`, in `Spacing`).
-/

namespace TinyBasic
namespace Lexicon

open Scan

/-! ## Spellings -/

/-- The characters that are tokens by themselves. -/
def marks : List (Char × Token.Kind) :=
  [('+', .plus), ('-', .minus), ('*', .times), ('/', .divide), ('(', .lparen), (')', .rparen),
   (',', .comma), (';', .semicolon)]

/-- The relational operators. -/
def relops : List (List Char) :=
  [['<', '>'], ['>', '<'], ['<', '='], ['>', '='], ['<'], ['>'], ['=']]

/-- The characters can be the text of a token of the kind. -/
inductive Spells : Token.Kind → List Char → Prop where
  | keyword (k : Keyword) : Spells .keyword k.spelling.toList
  | str {body : List Char} : '"' ∉ body → Spells .str ('"' :: (body ++ ['"']))
  | var {c : Char} : c.isUpper = true → Spells .var [c]
  | whole {ds : List Char} : ds ≠ [] → (∀ d ∈ ds, d.isDigit = true) → Spells .num ds
  | fraction {ds fs : List Char} :
      (∀ d ∈ ds, d.isDigit = true) → fs ≠ [] → (∀ d ∈ fs, d.isDigit = true) →
        Spells .num (ds ++ '.' :: fs)
  | mark {c : Char} {kind : Token.Kind} : (c, kind) ∈ marks → Spells kind [c]
  | relop {cs : List Char} : cs ∈ relops → Spells .relop cs

/-! ## Keywords -/

theorem eq_of_spelling_begins {k l : Keyword} :
    k.spelling.toList <+: l.spelling.toList → k = l := by
  revert k l
  have hall : ∀ k ∈ Keyword.all, ∀ l ∈ Keyword.all,
      k.spelling.toList <+: l.spelling.toList → k = l := by
    decide
  intro k l h
  exact hall k (Keyword.mem_all k) l (Keyword.mem_all l) h

theorem leading?_eq_some_iff {k : Keyword} {cs : List Char} :
    Keyword.leading? cs = some k ↔ k.spelling.toList <+: cs := by
  constructor
  · intro h
    have hprefix := List.find?_some h
    exact List.isPrefixOf_iff_prefix.1 hprefix
  · intro h
    cases hleading : Keyword.leading? cs with
    | none =>
        have hnone := List.find?_eq_none.1 hleading k (Keyword.mem_all k)
        exact absurd (List.isPrefixOf_iff_prefix.2 h) hnone
    | some l =>
        have hl : l.spelling.toList <+: cs := by
          have hprefix := List.find?_some hleading
          exact List.isPrefixOf_iff_prefix.1 hprefix
        -- of two beginnings of one text, one begins the other
        rcases List.prefix_or_prefix_of_prefix h hl with hkl | hlk
        · rw [eq_of_spelling_begins hkl]
        · rw [eq_of_spelling_begins hlk]

theorem spelling_letters (k : Keyword) :
    ∃ c d cs, k.spelling.toList = c :: d :: cs ∧ c.isUpper = true ∧ d.isUpper = true := by
  cases k <;> exact ⟨_, _, _, rfl, by decide, by decide⟩

theorem isUpper_of_mem_spelling {k : Keyword} {c : Char} (h : c ∈ k.spelling.toList) :
    c.isUpper = true := by
  have hall : Keyword.all.all (fun k => k.spelling.toList.all Char.isUpper) = true := by decide
  exact List.all_eq_true.1 (List.all_eq_true.1 hall k (Keyword.mem_all k)) c h

/-! ## Strings -/

/-- The first quote ends the string. -/
theorem idxOf?_quote_iff {cs : List Char} {i : Nat} :
    cs.idxOf? '"' = some i ↔ ∃ body rest, cs = body ++ '"' :: rest ∧ '"' ∉ body ∧ body.length = i := by
  constructor
  · intro h
    rcases List.idxOf?_eq_some_iff.1 h with ⟨hi, hquote, hbefore⟩
    refine ⟨cs.take i, cs.drop (i + 1), ?_, ?_, List.length_take_of_le (Nat.le_of_lt hi)⟩
    · rw [← hquote, List.getElem_cons_drop, List.take_append_drop]
    · intro hmem
      rcases List.mem_take_iff_getElem.1 hmem with ⟨j, hj, heq⟩
      exact hbefore j (by omega) heq
  · rintro ⟨body, rest, rfl, hbody, rfl⟩
    refine List.idxOf?_eq_some_iff.2 ⟨by simp, by simp, ?_⟩
    intro j hj heq
    rw [List.getElem_append_left hj] at heq
    exact hbody (heq ▸ List.getElem_mem hj)

/-! ## Numbers -/

/-- No digit stands in front of the characters. -/
def NoDigit (cs : List Char) : Prop :=
  ∀ d ∈ cs.head?, d.isDigit = false

theorem takeWhile_digits {ds rest : List Char} (hds : ∀ d ∈ ds, d.isDigit = true)
    (hrest : NoDigit rest) : (ds ++ rest).takeWhile Char.isDigit = ds := by
  rw [List.takeWhile_append_of_pos hds]
  cases rest with
  | nil => simp
  | cons c rest =>
      have hc : c.isDigit = false := hrest c rfl
      simp [hc]

theorem exists_digits (cs : List Char) :
    ∃ ds rest, cs = ds ++ rest ∧ (∀ d ∈ ds, d.isDigit = true) ∧ NoDigit rest := by
  refine ⟨cs.takeWhile Char.isDigit, cs.dropWhile Char.isDigit, ?_, ?_, ?_⟩
  · exact List.takeWhile_append_dropWhile.symm
  · exact List.all_eq_true.1 List.all_takeWhile
  · intro d hd
    have hhead := List.head?_dropWhile_not Char.isDigit cs
    rw [hd] at hhead
    simpa using hhead

section NumberLength

variable {ds rest : List Char} (hds : ∀ d ∈ ds, d.isDigit = true) (hrest : NoDigit rest)
include hds hrest

theorem numberLength_whole (hpoint : ∀ d ∈ rest.head?, d ≠ '.') :
    numberLength (ds ++ rest) = ds.length := by
  simp only [numberLength, takeWhile_digits hds hrest, List.drop_left]
  split
  case h_1 => exact absurd rfl (hpoint '.' rfl)
  case h_2 => rfl

theorem numberLength_fraction {ws : List Char} (hws : ∀ d ∈ ws, d.isDigit = true) :
    numberLength (ws ++ '.' :: (ds ++ rest)) =
      if ds = [] then ws.length else ws.length + 1 + ds.length := by
  have hpoint : NoDigit ('.' :: (ds ++ rest)) := by
    intro d hd
    cases hd
    decide
  simp only [numberLength, takeWhile_digits hws hpoint, List.drop_left,
    takeWhile_digits hds hrest, List.length_eq_zero_iff]

end NumberLength

theorem spells_number {cs : List Char} (h : numberLength cs ≠ 0) :
    Spells .num (cs.take (numberLength cs)) := by
  rcases exists_digits cs with ⟨ds, rest, rfl, hds, hrest⟩
  -- without a point behind the digits the number is whole, and so it is with an idle point
  by_cases hpoint : ∀ d ∈ rest.head?, d ≠ '.'
  · have hlength := numberLength_whole hds hrest hpoint
    rw [hlength] at h ⊢
    rw [List.take_left]
    exact .whole (mt List.length_eq_zero_iff.2 h) hds
  · have hcons : ∃ more, rest = '.' :: more := by
      cases rest with
      | nil => simp at hpoint
      | cons c more => exact ⟨more, by simpa using hpoint⟩
    rcases hcons with ⟨more, rfl⟩
    rcases exists_digits more with ⟨fs, tail, rfl, hfs, htail⟩
    have hlength := numberLength_fraction hfs htail hds
    rw [hlength] at h ⊢
    by_cases hnil : fs = []
    · simp only [hnil, if_true] at h ⊢
      rw [List.take_left]
      exact .whole (mt List.length_eq_zero_iff.2 h) hds
    · simp only [hnil, if_false]
      have hlen : ds.length + 1 + fs.length = (ds ++ '.' :: fs).length := by
        simp only [List.length_append, List.length_cons]
        omega
      have hsplit : ds ++ '.' :: (fs ++ tail) = (ds ++ '.' :: fs) ++ tail := by
        simp
      rw [hlen, hsplit, List.take_left]
      exact .fraction hds hnil hfs

/-! ## Tokens of a scan -/

theorem spells_mark {c : Char} {kind : Token.Kind} (h : mark? c = some kind) :
    Spells kind [c] := by
  refine .mark ?_
  simp only [mark?] at h
  split at h <;> simp_all [marks]

theorem spells_relop {c : Char} (rest : List Char) (h : c = '<' ∨ c = '>' ∨ c = '=') :
    Spells .relop (c :: rest.take (if rest.head?.any (isRelopPair c) then 1 else 0)) := by
  refine .relop ?_
  split
  case isTrue hpair =>
    cases rest with
    | nil => simp at hpair
    | cons d rest =>
        simp only [List.head?_cons, Option.any_some, isRelopPair, Bool.or_eq_true,
          Bool.and_eq_true, beq_iff_eq] at hpair
        rcases hpair with ⟨rfl, rfl | rfl⟩ | ⟨rfl, rfl | rfl⟩ <;> simp [relops]
  case isFalse =>
    rcases h with rfl | rfl | rfl <;> simp [relops]

theorem spells_of_lexeme? {c : Char} {rest : List Char} {kind : Token.Kind} {n : Nat}
    (h : lexeme? c rest = some (kind, n)) : Spells kind (c :: rest.take n) := by
  simp only [lexeme?] at h
  split at h
  case isTrue hquote =>
    rcases Option.map_eq_some_iff.1 h with ⟨i, hi, heq⟩
    cases heq
    rcases idxOf?_quote_iff.1 hi with ⟨body, more, rfl, hbody, rfl⟩
    have hsplit : body ++ '"' :: more = (body ++ ['"']) ++ more := by
      simp
    have hlen : body.length + 1 = (body ++ ['"']).length := by
      simp
    rw [hsplit, hlen, List.take_left, hquote]
    exact .str hbody
  case isFalse =>
    split at h
    case isTrue hupper =>
      split at h
      case h_1 k hk =>
        cases h
        rcases leading?_eq_some_iff.1 hk with ⟨more, hmore⟩
        rcases spelling_letters k with ⟨d, e, ds, hspelling, -, -⟩
        have hspells := Spells.keyword k
        rw [← String.length_toList, hspelling]
        rw [hspelling] at hmore hspells
        cases hmore
        simpa using hspells
      case h_2 =>
        cases h
        exact .var hupper
    case isFalse =>
      split at h
      case isTrue =>
        split at h
        case h_1 => cases h
        case h_2 m hm =>
          cases h
          have hnumber : numberLength (c :: rest) ≠ 0 := by simp [hm]
          have hspells := spells_number hnumber
          rwa [hm] at hspells
      case isFalse =>
        split at h
        case isTrue hrelop =>
          cases h
          exact spells_relop rest (by simpa [or_assoc] using hrelop)
        case isFalse =>
          rcases Option.map_eq_some_iff.1 h with ⟨k, hk, heq⟩
          cases heq
          exact spells_mark hk

/-- The text of a token is a spelling of its kind. -/
def Spelled (t : Token) : Prop :=
  Spells t.kind t.text.toList

theorem letter_of_spelled {t : Token} (h : Spelled t) (hkind : t.kind = .var) :
    ∃ c : Char, c.isUpper = true ∧ t.text.toList = [c] := by
  rw [Spelled, hkind] at h
  generalize hcs : t.text.toList = cs at h
  -- besides letters only marks spell tokens of any kind, and none of this one
  cases h with
  | @var c hc => exact ⟨c, hc, rfl⟩
  | mark hmem => simp [marks] at hmem

theorem keyword_of_spelled {t : Token} (h : Spelled t) (hkind : t.kind = .keyword) :
    ∃ k : Keyword, t.text = k.spelling := by
  rw [Spelled, hkind] at h
  generalize hcs : t.text.toList = cs at h
  cases h with
  | keyword k => exact ⟨k, String.toList_inj.1 hcs⟩
  | mark hmem => simp [marks] at hmem

theorem spelled_of_mem_tokens {pos : Nat} {cs : List Char} :
    ∀ t ∈ (ofChars pos cs).tokens, Spelled t := by
  induction pos, cs using ofChars.induct with
  | case1 pos =>
      intro t ht
      simp [ofChars] at ht
  | case2 pos c rest hspace ih =>
      intro t ht
      rw [ofChars, if_pos hspace] at ht
      exact ih t ht
  | case3 pos c rest hspace kind n hlexeme text stop ih =>
      intro t ht
      rw [ofChars, if_neg hspace] at ht
      simp only [hlexeme, Scan.cons, List.mem_cons] at ht
      rcases ht with rfl | ht
      · have hspells := spells_of_lexeme? hlexeme
        simpa [Spelled] using hspells
      · exact ih t ht
  | case4 pos c rest hspace hlexeme =>
      intro t ht
      rw [ofChars, if_neg hspace] at ht
      simp [hlexeme] at ht

theorem spelled_of_mem_ofText {text : String} : ∀ t ∈ (ofText text).tokens, Spelled t :=
  spelled_of_mem_tokens

end Lexicon
end TinyBasic
