import TinyBasic.Proofs.Token.Lexicon

/-!
# Spacing — spellings with spacing between them

A scan needs no spaces between most tokens, but a space always ends one: `lexeme?_of_spells` shows
that a spelling with spacing behind it is scanned as one token of its kind. So a line of spellings
with any spacing between them has exactly these tokens (`ofChars_spread`), and in particular with a
space between any two (`ofText_spaced`).
-/

namespace TinyBasic
namespace Lexicon

open Scan

/-! ## Spacing -/

/-- The characters that separate tokens. -/
def spacing : List Char :=
  [' ', '\t', '\r', '\n', '\x0c']

theorem mem_spacing_iff {c : Char} : c ∈ spacing ↔ isSpacing c = true := by
  simp [spacing, isSpacing, or_assoc]

theorem not_isSpacing {p : Char → Bool} {c : Char} (hp : spacing.any p = false)
    (hc : p c = true) : isSpacing c = false := by
  rw [Bool.eq_false_iff]
  intro hspacing
  exact List.any_eq_false.1 hp c (mem_spacing_iff.2 hspacing) hc

/-- Spacing follows, or nothing. -/
def Separated (cs : List Char) : Prop :=
  ∀ c ∈ cs.head?, isSpacing c = true

theorem separated_nil : Separated [] := by
  intro c hc
  cases hc

theorem separated_cons {c : Char} (hc : isSpacing c = true) (cs : List Char) :
    Separated (c :: cs) := by
  intro d hd
  cases hd
  exact hc

theorem Separated.not {cs : List Char} (h : Separated cs) {p : Char → Bool}
    (hp : spacing.any p = false) : ∀ c ∈ cs.head?, p c = false := by
  intro c hc
  exact Bool.eq_false_iff.2 (List.any_eq_false.1 hp c (mem_spacing_iff.2 (h c hc)))

theorem Separated.noDigit {cs : List Char} (h : Separated cs) : NoDigit cs :=
  h.not (by decide)

/-! ## One token -/

section Lexeme

variable {c : Char} {cs rest : List Char}

theorem ne_quote {p : Char → Bool} (hp : p '"' = false) (hc : p c = true) : c ≠ '"' := by
  rintro rfl
  rw [hp] at hc
  cases hc

theorem lexeme?_keyword {k : Keyword} (h : k.spelling.toList = c :: cs) :
    lexeme? c (cs ++ rest) = some (.keyword, cs.length) := by
  rcases spelling_letters k with ⟨d, e, ds, hspelling, hd, -⟩
  have hc : c = d := by
    rw [h] at hspelling
    exact (List.cons.inj hspelling).1
  subst hc
  have hquote := ne_quote rfl hd
  have hleading : Keyword.leading? (c :: (cs ++ rest)) = some k := by
    rw [leading?_eq_some_iff, h]
    exact List.prefix_append (c :: cs) rest
  have hlength : k.spelling.length - 1 = cs.length := by
    rw [← String.length_toList, h]
    rfl
  simp only [lexeme?, if_neg hquote, if_pos hd, hleading, hlength]

theorem lexeme?_str {body : List Char} (h : '"' ∉ body) :
    lexeme? '"' (body ++ ['"'] ++ rest) = some (.str, (body ++ ['"']).length) := by
  have hindex : (body ++ ['"'] ++ rest).idxOf? '"' = some body.length :=
    idxOf?_quote_iff.2 ⟨body, rest, by simp, h, rfl⟩
  rw [lexeme?, if_pos rfl, hindex]
  simp

/-- A letter at which no keyword begins is a token by itself, whatever follows it. -/
theorem lexeme?_letter (hc : c.isUpper = true)
    (h : ∀ k : Keyword, ¬ k.spelling.toList <+: c :: rest) : lexeme? c rest = some (.var, 0) := by
  have hquote := ne_quote rfl hc
  have hleading : Keyword.leading? (c :: rest) = none := by
    refine Option.eq_none_iff_forall_ne_some.2 ?_
    intro k hk
    exact h k (leading?_eq_some_iff.1 hk)
  simp only [lexeme?, if_neg hquote, if_pos hc, hleading]

/-- A letter that stands alone begins no keyword, because a keyword goes on with a letter. -/
theorem lexeme?_var (hc : c.isUpper = true) (hrest : Separated rest) :
    lexeme? c rest = some (.var, 0) := by
  refine lexeme?_letter hc ?_
  rintro k ⟨more, hmore⟩
  rcases spelling_letters k with ⟨d, e, ds, hspelling, -, he⟩
  rw [hspelling] at hmore
  cases hmore
  have hnot := hrest.not (p := Char.isUpper) (by decide) e rfl
  rw [he] at hnot
  cases hnot

theorem lexeme?_num {n : Nat} (hc : (c.isDigit || c == '.') = true)
    (h : numberLength (c :: rest) = n + 1) : lexeme? c rest = some (.num, n) := by
  have hquote := ne_quote (p := fun d => d.isDigit || d == '.') rfl hc
  -- digits stand before the capitals
  have hupper : ¬ c.isUpper = true := by
    intro hupper
    simp only [Bool.or_eq_true, beq_iff_eq] at hc
    rcases hc with hdigit | rfl
    · simp only [Char.isUpper, Char.isDigit, Bool.and_eq_true, decide_eq_true_eq] at hupper hdigit
      exact absurd (UInt32.le_trans hupper.1 hdigit.2) (by decide)
    · cases hupper
  simp only [lexeme?, if_neg hquote, if_neg hupper, if_pos hc, h]

/-- A number begins with a digit or with its point. -/
theorem point_or_digit {ds fs : List Char} (hcs : c :: cs = ds ++ '.' :: fs)
    (hds : ∀ d ∈ ds, d.isDigit = true) : (c.isDigit || c == '.') = true := by
  cases ds with
  | nil =>
      cases hcs
      rfl
  | cons d ds =>
      cases hcs
      simp [hds c (by simp)]

theorem lexeme?_whole (hdigits : ∀ d ∈ c :: cs, d.isDigit = true) (hrest : Separated rest) :
    lexeme? c (cs ++ rest) = some (.num, cs.length) := by
  have hc := hdigits c (by simp)
  have hpoint : ∀ d ∈ rest.head?, d ≠ '.' := by
    intro d hd
    have hnot := hrest.not (p := (· == '.')) (by decide) d hd
    simpa using hnot
  exact lexeme?_num (by simp [hc]) (numberLength_whole hdigits hrest.noDigit hpoint)

theorem lexeme?_fraction {ds fs : List Char} (hcs : c :: cs = ds ++ '.' :: fs)
    (hds : ∀ d ∈ ds, d.isDigit = true) (hne : fs ≠ []) (hfs : ∀ d ∈ fs, d.isDigit = true)
    (hrest : Separated rest) : lexeme? c (cs ++ rest) = some (.num, cs.length) := by
  have hlength := numberLength_fraction hfs hrest.noDigit hds
  refine lexeme?_num (point_or_digit hcs hds) ?_
  have hlen := congrArg List.length hcs
  simp only [List.length_append, List.length_cons] at hlen
  rw [← List.cons_append, hcs, List.append_assoc, List.cons_append, hlength, if_neg hne]
  omega

theorem lexeme?_mark {kind : Token.Kind} (h : (c, kind) ∈ marks) :
    lexeme? c rest = some (kind, 0) := by
  simp only [marks, List.mem_cons, List.not_mem_nil, or_false, Prod.mk.injEq] at h
  rcases h with ⟨rfl, rfl⟩ | ⟨rfl, rfl⟩ | ⟨rfl, rfl⟩ | ⟨rfl, rfl⟩ | ⟨rfl, rfl⟩ | ⟨rfl, rfl⟩ |
    ⟨rfl, rfl⟩ | ⟨rfl, rfl⟩ <;> rfl

theorem lexeme?_relop (h : c :: cs ∈ relops) (hrest : Separated rest) :
    lexeme? c (cs ++ rest) = some (.relop, cs.length) := by
  -- an operator of one character is not joined by what follows
  have halone : ∀ d, spacing.any (isRelopPair d) = false →
      rest.head?.any (isRelopPair d) = false := by
    intro d hd
    cases rest with
    | nil => rfl
    | cons e rest => exact hrest.not hd e rfl
  simp only [relops, List.mem_cons, List.not_mem_nil, or_false] at h
  rcases h with h | h | h | h | h | h | h <;> cases h
  · rfl
  · rfl
  · rfl
  · rfl
  · simp [lexeme?, halone '<' (by decide)]
  · simp [lexeme?, halone '>' (by decide)]
  · simp [lexeme?, halone '=' (by decide)]

end Lexeme

/-- A spelling with spacing behind it is scanned as one token. -/
theorem lexeme?_of_spells {kind : Token.Kind} {c : Char} {cs rest : List Char}
    (h : Spells kind (c :: cs)) (hrest : Separated rest) :
    lexeme? c (cs ++ rest) = some (kind, cs.length) := by
  generalize hword : c :: cs = word at h
  cases h with
  | keyword k => exact lexeme?_keyword hword.symm
  | str hbody =>
      cases hword
      exact lexeme?_str hbody
  | var hc =>
      cases hword
      exact lexeme?_var hc hrest
  | whole _ hdigits =>
      cases hword
      exact lexeme?_whole hdigits hrest
  | fraction hds hne hfs => exact lexeme?_fraction hword hds hne hfs hrest
  | mark hmark =>
      cases hword
      exact lexeme?_mark hmark
  | relop hrelop =>
      cases hword
      exact lexeme?_relop hrelop hrest

/-! ## Lines -/

/-- No spelling is empty or begins with spacing. -/
theorem spells_cons {kind : Token.Kind} {word : List Char} (h : Spells kind word) :
    ∃ c cs, word = c :: cs ∧ isSpacing c = false := by
  cases h with
  | keyword k =>
      rcases spelling_letters k with ⟨c, d, cs, hspelling, hc, -⟩
      exact ⟨c, d :: cs, hspelling, not_isSpacing (p := Char.isUpper) (by decide) hc⟩
  | str => exact ⟨'"', _, rfl, by decide⟩
  | @var c hc => exact ⟨c, [], rfl, not_isSpacing (p := Char.isUpper) (by decide) hc⟩
  | whole hne hds =>
      cases word with
      | nil => exact absurd rfl hne
      | cons d ds =>
          exact ⟨d, ds, rfl, not_isSpacing (p := Char.isDigit) (by decide) (hds d (by simp))⟩
  | @fraction ds fs hds =>
      cases ds with
      | nil => exact ⟨'.', fs, rfl, by decide⟩
      | cons d ds =>
          exact ⟨d, _, rfl, not_isSpacing (p := Char.isDigit) (by decide) (hds d (by simp))⟩
  | @mark c _ hmark =>
      have hall : marks.any (fun p => isSpacing p.1) = false := by decide
      exact ⟨c, [], rfl, Bool.eq_false_iff.2 (List.any_eq_false.1 hall _ hmark)⟩
  | relop hrelop =>
      have hall : relops.any (fun cs => isSpacing (cs.headD ' ')) = false := by decide
      have hhead := List.any_eq_false.1 hall _ hrelop
      cases word with
      | nil => exact absurd rfl hhead
      | cons c cs => exact ⟨c, cs, rfl, Bool.eq_false_iff.2 hhead⟩

/-- The characters of tokens that are neither capitals nor digits, strings apart. -/
def symbols : List Char :=
  ['.', '+', '-', '*', '/', '(', ')', ',', ';', '<', '>', '=']

/-- Spellings consist of capitals, digits and symbols, unless they are strings. -/
theorem Spells.forall_mem {p : Char → Bool} {kind : Token.Kind} {word : List Char}
    (h : Spells kind word) (hkind : kind ≠ .str) (hupper : ∀ c : Char, c.isUpper = true → p c = true)
    (hdigit : ∀ c : Char, c.isDigit = true → p c = true) (hsymbols : symbols.all p = true) :
    ∀ c ∈ word, p c = true := by
  have hsymbol : ∀ c ∈ symbols, p c = true := List.all_eq_true.1 hsymbols
  cases h with
  | keyword k =>
      intro c hc
      exact hupper c (isUpper_of_mem_spelling hc)
  | str => exact absurd rfl hkind
  | var hc => exact List.forall_mem_singleton.2 (hupper _ hc)
  | whole _ hds =>
      intro c hc
      exact hdigit c (hds c hc)
  | fraction hds _ hfs =>
      refine List.forall_mem_append.2 ⟨fun c hc => hdigit c (hds c hc), ?_⟩
      exact List.forall_mem_cons.2 ⟨hsymbol '.' (by decide), fun c hc => hdigit c (hfs c hc)⟩
  | mark hmark =>
      have hall : marks.all (fun q => symbols.contains q.1) = true := by decide
      refine List.forall_mem_singleton.2 (hsymbol _ ?_)
      simpa using List.all_eq_true.1 hall _ hmark
  | relop hrelop =>
      have hall : relops.all (fun cs => cs.all symbols.contains) = true := by decide
      intro c hc
      refine hsymbol c ?_
      simpa using List.all_eq_true.1 (List.all_eq_true.1 hall _ hrelop) c hc

theorem spells_str {word : List Char} (h : Spells .str word) :
    ∃ body, '"' ∉ body ∧ word = '"' :: (body ++ ['"']) := by
  cases h with
  | str hbody => exact ⟨_, hbody, rfl⟩
  | mark hmark => simp [marks] at hmark

/-- A token without its place. -/
structure Lexeme where
  kind : Token.Kind
  text : String
  deriving DecidableEq, Repr

/-- The token without its place. -/
def lexeme (t : Token) : Lexeme :=
  ⟨t.kind, t.text⟩

/-- A token for the lexeme, at no place of any line. -/
def Lexeme.token (l : Lexeme) : Token :=
  ⟨l.kind, l.text, .point 0⟩

@[simp] theorem lexeme_token (l : Lexeme) : lexeme l.token = l := rfl

@[simp] theorem map_lexeme_token (ls : List Lexeme) :
    (ls.map Lexeme.token).map lexeme = ls := by
  simp [Function.comp_def]

/-- The text is a spelling of the kind. -/
def Lexeme.Valid (l : Lexeme) : Prop :=
  Spells l.kind l.text.toList

theorem ofChars_lexeme {l : Lexeme} {rest : List Char} (h : l.Valid) (hrest : Separated rest)
    (pos : Nat) :
    ∃ t stop, lexeme t = l ∧ ofChars pos (l.text.toList ++ rest) = cons t (ofChars stop rest) := by
  rcases spells_cons h with ⟨c, cs, hcs, hc⟩
  rw [Lexeme.Valid, hcs] at h
  have hlexeme := lexeme?_of_spells h hrest
  have htext : String.ofList (c :: cs) = l.text := by
    rw [← hcs, String.ofList_toList]
  rw [hcs, List.cons_append, ofChars, if_neg (by simp [hc])]
  simp only [hlexeme, List.take_left, List.drop_left, htext]
  exact ⟨_, _, rfl, rfl⟩

theorem ofChars_gap {gap : List Char} (h : ∀ c ∈ gap, isSpacing c = true) (pos : Nat)
    (cs : List Char) : ofChars pos (gap ++ cs) = ofChars (pos + byteLength gap) cs := by
  induction gap generalizing pos with
  | nil => rfl
  | cons c gap ih =>
      have hmore := ih (fun d hd => h d (by simp [hd])) (pos + c.utf8Size)
      rw [List.cons_append, ofChars, if_pos (h c (by simp)), hmore, byteLength_cons, Nat.add_assoc]

/-- The characters are the words in their order, with spacing between any two. There may be spacing
in front of the first word and behind the last one too. -/
inductive Spread : List String → List Char → Prop where
  | nil {gap : List Char} : (∀ c ∈ gap, isSpacing c = true) → Spread [] gap
  | cons {gap rest : List Char} {word : String} {words : List String} :
      (∀ c ∈ gap, isSpacing c = true) → Separated rest → Spread words rest →
        Spread (word :: words) (gap ++ (word.toList ++ rest))

theorem Spread.space {words : List String} {cs : List Char} {c : Char} (hc : isSpacing c = true)
    (h : Spread words cs) : Spread words (c :: cs) := by
  cases h with
  | nil hgap => exact .nil (List.forall_mem_cons.2 ⟨hc, hgap⟩)
  | cons hgap hrest hspread => exact .cons (List.forall_mem_cons.2 ⟨hc, hgap⟩) hrest hspread

theorem Spread.word {words : List String} {word : String} {cs rest : List Char}
    (hcs : word.toList ++ rest = cs) (hrest : Separated rest) (h : Spread words rest) :
    Spread (word :: words) cs := by
  subst hcs
  exact .cons (List.forall_mem_nil _) hrest h

/-- Spellings that are spread over a line are scanned as they are. -/
theorem ofChars_spread {ls : List Lexeme} (h : ∀ l ∈ ls, l.Valid) {cs : List Char}
    (hcs : Spread (ls.map Lexeme.text) cs) (pos : Nat) :
    (ofChars pos cs).tokens.map lexeme = ls ∧ ∃ n, (ofChars pos cs).ending = .complete n := by
  induction ls generalizing cs pos with
  | nil =>
      cases hcs with
      | nil hgap =>
          have hscan := ofChars_gap hgap pos []
          rw [List.append_nil] at hscan
          exact ⟨by simp [hscan, ofChars], _, by rw [hscan, ofChars]⟩
  | cons l ls ih =>
      cases hcs with
      | cons hgap hrest hspread =>
          -- the spacing behind the first word ends its token, and the scan goes on from there
          rcases ofChars_lexeme (h l (by simp)) hrest (pos + byteLength _) with ⟨t, stop, rfl, hscan⟩
          rcases ih (fun k hk => h k (by simp [hk])) hspread stop with ⟨htokens, n, hending⟩
          rw [ofChars_gap hgap, hscan]
          refine ⟨?_, n, hending⟩
          simp only [cons, List.map_cons, htokens]

/-- The lexemes as a line, with a space between any two. -/
def spaced (ls : List Lexeme) : String :=
  " ".intercalate (ls.map Lexeme.text)

theorem toList_spaced_cons_cons (l k : Lexeme) (ls : List Lexeme) :
    (spaced (l :: k :: ls)).toList = l.text.toList ++ ' ' :: (spaced (k :: ls)).toList := by
  simp [spaced, String.toList_intercalate]

theorem spread_spaced (ls : List Lexeme) : Spread (ls.map Lexeme.text) (spaced ls).toList := by
  induction ls with
  | nil => exact .nil (List.forall_mem_nil _)
  | cons l ls ih =>
      cases ls with
      | nil => exact .word (by simp [spaced]) separated_nil (.nil (List.forall_mem_nil _))
      | cons k ls =>
          exact .word (toList_spaced_cons_cons l k ls).symm (separated_cons rfl _) (ih.space rfl)

theorem result_eq_ok_iff {s : Scan} {ts : List Token} :
    s.result = .ok ts ↔ s.tokens = ts ∧ ∃ length, s.ending = .complete length := by
  simp only [Scan.result]
  split
  case h_1 length hending => simp [hending]
  case h_2 e hending => simp [hending]

theorem result_eq_error_iff {s : Scan} {e : ScanError} :
    s.result = .error e ↔ s.ending = .failed e := by
  rcases s with ⟨ts, _ | e'⟩ <;> simp [Scan.result]

theorem ofText_spaced {ls : List Lexeme} (h : ∀ l ∈ ls, l.Valid) :
    ∃ ts, (ofText (spaced ls)).result = .ok ts ∧ ts.map lexeme = ls := by
  rcases ofChars_spread h (spread_spaced ls) 0 with ⟨htokens, n, hending⟩
  exact ⟨_, result_eq_ok_iff.2 ⟨rfl, n, hending⟩, htokens⟩

end Lexicon
end TinyBasic
