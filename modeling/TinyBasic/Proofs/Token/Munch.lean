import TinyBasic.Proofs.Token.Spacing

/-!
# Munch — the longest token comes first

The scan of a line, told from the lexicon alone. At each place:

* `Longest kind word cs` — of all spellings that the characters `cs` begin with, `word` is the
  longest, and it is a spelling of this kind. No two kinds share a spelling, so a longest spelling
  settles its kind too;
* `Munches pos cs s` — `s` is what comes of skipping the spacing in front, taking the longest
  spelling there, and going on right behind it.

`munches_iff` shows that the scan is the one result with this property.
-/

namespace TinyBasic
namespace Lexicon

open Scan

/-! ## Longest spellings -/

/-- The word is the longest spelling that the characters begin with, and it is of this kind. -/
structure Longest (kind : Token.Kind) (word cs : List Char) : Prop where
  spells : Spells kind word
  begins : word <+: cs
  longest : ∀ {other : Token.Kind} {shorter : List Char},
    Spells other shorter → shorter <+: cs → shorter.length ≤ word.length

/-- No two kinds of token share a spelling. -/
theorem Spells.kind_unique {kind other : Token.Kind} {word : List Char} (h : Spells kind word)
    (h' : Spells other word) : kind = other := by
  rcases spells_cons h with ⟨c, cs, rfl, -⟩
  have hnil : Separated [] := by
    intro c hc
    cases hc
  have hkind := lexeme?_of_spells h hnil
  have hother := lexeme?_of_spells h' hnil
  rw [hkind] at hother
  cases hother
  rfl

theorem Longest.unique {kind other : Token.Kind} {word word' cs : List Char}
    (h : Longest kind word cs) (h' : Longest other word' cs) : kind = other ∧ word = word' := by
  have hlength : word.length = word'.length :=
    Nat.le_antisymm (h'.longest h.spells h.begins) (h.longest h'.spells h'.begins)
  have hword : word = word' :=
    (List.prefix_of_prefix_length_le h.begins h'.begins (Nat.le_of_eq hlength)).eq_of_length hlength
  subst hword
  exact ⟨h.spells.kind_unique h'.spells, rfl⟩

/-! ## One token -/

theorem le_numberLength_whole {ds : List Char} (hds : ∀ d ∈ ds, d.isDigit = true)
    (rest : List Char) : ds.length ≤ numberLength (ds ++ rest) := by
  have htake : ((ds ++ rest).takeWhile Char.isDigit).length =
      ds.length + (rest.takeWhile Char.isDigit).length := by
    rw [List.takeWhile_append_of_pos hds, List.length_append]
  simp only [numberLength, htake]
  split
  case h_1 =>
    split
    case isTrue => omega
    case isFalse => omega
  case h_2 => omega

theorem le_numberLength_fraction {ds fs : List Char} (hds : ∀ d ∈ ds, d.isDigit = true)
    (hne : fs ≠ []) (hfs : ∀ d ∈ fs, d.isDigit = true) (rest : List Char) :
    (ds ++ '.' :: fs).length ≤ numberLength (ds ++ '.' :: fs ++ rest) := by
  -- digits that follow the fraction belong to it as well
  rcases exists_digits rest with ⟨gs, more, rfl, hgs, hmore⟩
  have hall : ∀ d ∈ fs ++ gs, d.isDigit = true := List.forall_mem_append.2 ⟨hfs, hgs⟩
  have hlength := numberLength_fraction hall hmore hds
  have hshape : ds ++ '.' :: fs ++ (gs ++ more) = ds ++ '.' :: (fs ++ gs ++ more) := by
    simp
  rw [hshape, hlength, if_neg (by simp [hne])]
  simp only [List.length_append, List.length_cons]
  omega

/-- Where a spelling stands, the scan takes a token that is no shorter, whatever follows. -/
theorem le_lexeme?_of_spells {kind : Token.Kind} {c : Char} {cs : List Char}
    (h : Spells kind (c :: cs)) (rest : List Char) :
    ∃ other n, lexeme? c (cs ++ rest) = some (other, n) ∧ cs.length ≤ n := by
  generalize hword : c :: cs = word at h
  -- a number goes on as long as it can
  have hnumber : (c.isDigit || c == '.') = true → word.length ≤ numberLength (word ++ rest) →
      ∃ other n, lexeme? c (cs ++ rest) = some (other, n) ∧ cs.length ≤ n := by
    intro hc hle
    rw [← hword, List.cons_append, List.length_cons] at hle
    rcases Nat.exists_eq_add_of_le' (Nat.le_trans (Nat.le_add_left 1 cs.length) hle) with ⟨n, hn⟩
    exact ⟨.num, n, lexeme?_num hc hn, by omega⟩
  cases h with
  | keyword k => exact ⟨.keyword, cs.length, lexeme?_keyword hword.symm, Nat.le_refl _⟩
  | str hbody =>
      cases hword
      exact ⟨.str, _, lexeme?_str hbody, Nat.le_refl _⟩
  | var hc =>
      cases hword
      -- the letter is a token itself, or the first letter of a keyword
      by_cases hk : ∀ k : Keyword, ¬ k.spelling.toList <+: c :: rest
      · exact ⟨.var, 0, lexeme?_letter hc hk, Nat.le_refl 0⟩
      · rcases not_forall_not.1 hk with ⟨k, more, hmore⟩
        rcases spelling_letters k with ⟨d, e, ds, hspelling, -, -⟩
        rw [hspelling, List.cons_append, List.cons.injEq] at hmore
        rcases hmore with ⟨rfl, rfl⟩
        rw [List.nil_append]
        exact ⟨.keyword, _, lexeme?_keyword hspelling, Nat.zero_le _⟩
  | whole _ hdigits =>
      subst hword
      exact hnumber (by simp [hdigits c (by simp)]) (le_numberLength_whole hdigits rest)
  | fraction hds hne hfs =>
      exact hnumber (point_or_digit hword hds) (le_numberLength_fraction hds hne hfs rest)
  | mark hmark =>
      cases hword
      exact ⟨_, 0, lexeme?_mark hmark, Nat.le_refl 0⟩
  | relop hrelop =>
      subst hword
      simp only [relops, List.mem_cons, List.not_mem_nil, or_false] at hrelop
      rcases hrelop with h | h | h | h | h | h | h <;> cases h <;>
        exact ⟨.relop, _, rfl, by simp [isRelopPair]⟩

theorem longest_of_lexeme? {c : Char} {rest : List Char} {kind : Token.Kind} {n : Nat}
    (h : lexeme? c rest = some (kind, n)) : Longest kind (c :: rest.take n) (c :: rest) := by
  refine ⟨spells_of_lexeme? h, List.prefix_cons_inj c |>.2 (List.take_prefix n rest), ?_⟩
  intro other shorter hspells hbegins
  rcases spells_cons hspells with ⟨d, ds, rfl, -⟩
  rcases hbegins with ⟨more, hmore⟩
  rw [List.cons_append, List.cons.injEq] at hmore
  rcases hmore with ⟨rfl, rfl⟩
  rcases le_lexeme?_of_spells hspells more with ⟨_, m, hlexeme, hle⟩
  rw [h] at hlexeme
  cases hlexeme
  simp only [List.length_cons, List.length_take, List.length_append]
  omega

/-- A spelling with spacing behind it is the longest one there. -/
theorem longest_of_spells {kind : Token.Kind} {word rest : List Char} (h : Spells kind word)
    (hrest : Separated rest) : Longest kind word (word ++ rest) := by
  rcases spells_cons h with ⟨c, cs, rfl, -⟩
  have hlongest := longest_of_lexeme? (lexeme?_of_spells h hrest)
  rwa [List.take_left] at hlongest

theorem lexeme?_eq_none_iff {c : Char} {rest : List Char} :
    lexeme? c rest = none ↔ ∀ kind word, Spells kind word → ¬ word <+: c :: rest := by
  constructor
  · intro h kind word hspells hbegins
    rcases spells_cons hspells with ⟨d, ds, rfl, -⟩
    rcases hbegins with ⟨more, hmore⟩
    rw [List.cons_append, List.cons.injEq] at hmore
    rcases hmore with ⟨rfl, rfl⟩
    rcases le_lexeme?_of_spells hspells more with ⟨_, _, hlexeme, -⟩
    rw [h] at hlexeme
    cases hlexeme
  · intro h
    refine Option.eq_none_iff_forall_ne_some.2 ?_
    rintro ⟨kind, n⟩ hlexeme
    have hlongest := longest_of_lexeme? hlexeme
    exact h kind _ hlongest.spells hlongest.begins

/-- Where no spelling starts at a quote, no other quote follows: it would make a string of both. -/
theorem quote_not_mem_of_no_spelling {cs : List Char}
    (h : ∀ kind word, Spells kind word → ¬ word <+: '"' :: cs) : '"' ∉ cs := by
  intro hmem
  rcases List.eq_append_cons_of_mem hmem with ⟨body, more, rfl, hbody⟩
  exact h .str _ (.str hbody) ⟨more, by simp⟩

theorem lexeme?_of_longest {kind : Token.Kind} {c : Char} {cs rest : List Char}
    (h : Longest kind (c :: cs) (c :: (cs ++ rest))) :
    ∃ n, lexeme? c (cs ++ rest) = some (kind, n) ∧
      (cs ++ rest).take n = cs ∧ (cs ++ rest).drop n = rest := by
  cases hlexeme : lexeme? c (cs ++ rest) with
  | none => exact absurd h.begins (lexeme?_eq_none_iff.1 hlexeme kind _ h.spells)
  | some lexeme =>
      rcases lexeme with ⟨other, n⟩
      rcases h.unique (longest_of_lexeme? hlexeme) with ⟨rfl, hword⟩
      have htake : (cs ++ rest).take n = cs := (List.cons.inj hword).2.symm
      have hsplit := List.take_append_drop n (cs ++ rest)
      rw [htake] at hsplit
      exact ⟨n, rfl, htake, List.append_cancel_left hsplit⟩

/-! ## Scans -/

/-- What comes of taking the longest spelling at every place of the characters `cs`, the first of
which is at byte `pos`. -/
inductive Munches : Nat → List Char → Scan → Prop where
  | finish {pos : Nat} {gap : List Char} :
      (∀ c ∈ gap, isSpacing c = true) → Munches pos gap ⟨[], .complete (pos + byteLength gap)⟩
  | token {pos start stop : Nat} {gap word rest : List Char} {kind : Token.Kind} {s : Scan} :
      (∀ c ∈ gap, isSpacing c = true) → Longest kind word (word ++ rest) →
        start = pos + byteLength gap → stop = start + byteLength word → Munches stop rest s →
        Munches pos (gap ++ (word ++ rest))
          (cons ⟨kind, String.ofList word, .ofRange start stop⟩ s)
  | stuck {pos : Nat} {gap rest : List Char} {c : Char} :
      (∀ c ∈ gap, isSpacing c = true) → isSpacing c = false →
        (∀ kind word, Spells kind word → ¬ word <+: c :: rest) →
        Munches pos (gap ++ c :: rest) ⟨[], .failed (errorAt (pos + byteLength gap) c rest)⟩

theorem ofChars_longest {kind : Token.Kind} {word rest : List Char}
    (h : Longest kind word (word ++ rest)) (pos : Nat) :
    ofChars pos (word ++ rest) =
      cons ⟨kind, String.ofList word, .ofRange pos (pos + byteLength word)⟩
        (ofChars (pos + byteLength word) rest) := by
  rcases spells_cons h.spells with ⟨c, cs, rfl, hc⟩
  rw [List.cons_append] at h
  rcases lexeme?_of_longest h with ⟨n, hlexeme, htake, hdrop⟩
  rw [List.cons_append, ofChars, if_neg (by simp [hc])]
  simp only [hlexeme, htake, hdrop]

theorem ofChars_stuck {c : Char} {rest : List Char} (hc : isSpacing c = false)
    (h : ∀ kind word, Spells kind word → ¬ word <+: c :: rest) (pos : Nat) :
    ofChars pos (c :: rest) = ⟨[], .failed (errorAt pos c rest)⟩ := by
  rw [ofChars, if_neg (by simp [hc]), lexeme?_eq_none_iff.2 h]

theorem Munches.eq {pos : Nat} {cs : List Char} {s : Scan} (h : Munches pos cs s) :
    s = ofChars pos cs := by
  induction h with
  | @finish pos gap hgap =>
      have hscan := ofChars_gap hgap pos []
      rw [List.append_nil] at hscan
      rw [hscan, ofChars]
  | token hgap hlongest hstart hstop _ ih =>
      subst hstart hstop
      rw [ofChars_gap hgap, ofChars_longest hlongest, ih]
  | stuck hgap hc hnone => rw [ofChars_gap hgap, ofChars_stuck hc hnone]

/-- Spacing in front is skipped with the spacing that follows it. -/
theorem Munches.space {pos : Nat} {c : Char} {cs : List Char} {s : Scan}
    (hc : isSpacing c = true) (h : Munches (pos + c.utf8Size) cs s) : Munches pos (c :: cs) s := by
  cases h with
  | @finish _ gap hgap =>
      have hmore : Munches pos _ _ := .finish (List.forall_mem_cons.2 ⟨hc, hgap⟩)
      rwa [byteLength_cons, ← Nat.add_assoc] at hmore
  | token hgap hlongest hstart hstop hrest =>
      refine .token (List.forall_mem_cons.2 ⟨hc, hgap⟩) hlongest ?_ hstop hrest
      rw [hstart, byteLength_cons, Nat.add_assoc]
  | @stuck _ gap rest d hgap hd hnone =>
      have hmore : Munches pos _ _ := .stuck (List.forall_mem_cons.2 ⟨hc, hgap⟩) hd hnone
      rwa [byteLength_cons, ← Nat.add_assoc] at hmore

theorem munches_ofChars (pos : Nat) (cs : List Char) : Munches pos cs (ofChars pos cs) := by
  have hgap : ∀ c ∈ ([] : List Char), isSpacing c = true := nofun
  induction pos, cs using ofChars.induct with
  | case1 pos =>
      rw [ofChars]
      exact .finish hgap
  | case2 pos c rest hspace ih =>
      rw [ofChars, if_pos hspace]
      exact .space hspace ih
  | case3 pos c rest hspace kind n hlexeme text stop ih =>
      have hlongest := longest_of_lexeme? hlexeme
      have hsplit : c :: rest = text ++ rest.drop n := by
        simp [text]
      rw [ofChars, if_neg hspace]
      simp only [hlexeme]
      rw [hsplit] at hlongest ⊢
      exact .token hgap hlongest rfl rfl ih
  | case4 pos c rest hspace hlexeme =>
      rw [ofChars, if_neg hspace, hlexeme]
      exact .stuck hgap (Bool.eq_false_iff.2 hspace) (lexeme?_eq_none_iff.1 hlexeme)

theorem munches_iff {pos : Nat} {cs : List Char} {s : Scan} :
    Munches pos cs s ↔ s = ofChars pos cs := by
  constructor
  · intro h
    exact h.eq
  · rintro rfl
    exact munches_ofChars pos cs

/-! ## Letters and keywords -/

theorem utf8Size_of_isUpper {c : Char} (h : c.isUpper = true) : c.utf8Size = 1 := by
  simp only [Char.isUpper, decide_eq_true_eq] at h
  rw [Char.utf8Size_eq_one_iff]
  exact UInt32.le_trans h.2 (by decide)

theorem ofChars_mark {c : Char} {kind : Token.Kind} (h : (c, kind) ∈ marks) (rest : List Char)
    (pos : Nat) :
    ofChars pos (c :: rest) =
      cons ⟨kind, String.ofList [c], .ofRange pos (pos + c.utf8Size)⟩
        (ofChars (pos + c.utf8Size) rest) := by
  have hlongest : Longest kind [c] ([c] ++ rest) := longest_of_lexeme? (lexeme?_mark h)
  exact ofChars_longest hlongest pos

end Lexicon
end TinyBasic
