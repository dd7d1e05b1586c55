import TinyBasic.Proofs.Token.Munch
import TinyBasic.Token.Stream

/-!
# Stream — pulls take the longest token

What a stream gives, pull by pull, for every matcher that finds the longest spelling or backs out of
letters at which no keyword begins (`Matcher.Lawful`):

* `Stands front rest s` — the stream has read `front` of its line, and `rest` is to come;
* `Pulled front rest p` — `p` is what a pull gives there: nothing where only spacing is left, the
  longest spelling behind the spacing, or an error where no spelling begins;
* `pulled_next` — each pull is of this form, also where the stream takes a piece apart;
* `drain_eq` — one pull after the other gives the tokens of the scan and its error.
-/

namespace TinyBasic

open Lexicon Scan

/-! ## Matchers -/

namespace Matcher

/-- The matcher has followed letters, as those of a keyword, until they broke off. It answers with
all of them, and may call them a keyword or a variable or reject them. -/
structure BacksOut (m : Matcher) (c : Char) (rest : List Char) : Prop where
  no_keyword : ∀ k : Keyword, ¬ k.spelling.toList <+: c :: rest
  letters : ∀ d ∈ c :: rest.take (m c rest).2, d.isUpper = true
  several : rest.take (m c rest).2 ≠ []
  kind : (m c rest).1 = none ∨ (m c rest).1 = some .var ∨ (m c rest).1 = some .keyword

/-- What the stream needs of the matcher that is generated from the patterns. -/
structure Lawful (m : Matcher) : Prop where
  /-- The longest spelling is matched, unless the matcher backs out. -/
  longest : ∀ {kind : Token.Kind} {c : Char} {cs rest : List Char},
    Longest kind (c :: cs) (c :: rest) →
      ((m c rest).1 = some kind ∧ rest.take (m c rest).2 = cs) ∨ BacksOut m c rest
  /-- Where no spelling begins, a piece is rejected. -/
  rejected : ∀ {c : Char} {rest : List Char}, isSpacing c = false →
    (∀ kind word, Spells kind word → ¬ word <+: c :: rest) → (m c rest).1 = none
  /-- The rejected piece of an open string goes on to the end of the line. -/
  open_string : ∀ {rest : List Char}, '"' ∉ rest → rest.length ≤ (m '"' rest).2

end Matcher

namespace Lexicon

/-! ## Broken keywords -/

theorem isBrokenPrefix_of_spells {kind : Token.Kind} {word : List Char} (h : Spells kind word) :
    Tokens.isBrokenPrefix (some kind) word = false := by
  cases h with
  | keyword k => simp [Tokens.isBrokenPrefix]
  | @var c hc => simp [Tokens.isBrokenPrefix, utf8Size_of_isUpper hc]
  | @mark c kind hmark =>
      simp only [marks, List.mem_cons, List.not_mem_nil, or_false, Prod.mk.injEq] at hmark
      rcases hmark with h | h | h | h | h | h | h | h <;> rcases h with ⟨-, rfl⟩ <;> rfl
  | str => rfl
  | whole => rfl
  | fraction => rfl
  | relop => rfl

theorem isBrokenPrefix_of_not_isUpper {c : Char} (h : c.isUpper = false) (cs : List Char) :
    Tokens.isBrokenPrefix none (c :: cs) = false := by
  simp [Tokens.isBrokenPrefix, h]

/-- Letters that the matcher backs out of are told by their number, and from a keyword because none
begins there. -/
theorem isBrokenPrefix_of_backsOut {m : Matcher} {c : Char} {rest : List Char}
    (h : m.BacksOut c rest) :
    Tokens.isBrokenPrefix (m c rest).1 (c :: rest.take (m c rest).2) = true := by
  have hall := List.all_eq_true.2 h.letters
  have hsize : 1 < byteLength (c :: rest.take (m c rest).2) := by
    cases hpiece : rest.take (m c rest).2 with
    | nil => exact absurd hpiece h.several
    | cons d ds =>
        have hc := c.utf8Size_pos
        have hd := d.utf8Size_pos
        simp only [byteLength_cons]
        omega
  have hkeyword : Keyword.ofText? (String.ofList (c :: rest.take (m c rest).2)) = none := by
    refine List.find?_eq_none.2 ?_
    intro k _ hk
    have hspelling : k.spelling.toList = c :: rest.take (m c rest).2 := by
      rw [beq_iff_eq.1 hk, String.toList_ofList]
    refine h.no_keyword k ?_
    rw [hspelling]
    exact (List.prefix_cons_inj c).2 (List.take_prefix _ rest)
  rcases h.kind with hkind | hkind | hkind <;> rw [hkind]
  case inl => exact Bool.and_eq_true_iff.2 ⟨decide_eq_true hsize, hall⟩
  case inr.inl => exact Bool.and_eq_true_iff.2 ⟨decide_eq_true hsize, hall⟩
  case inr.inr =>
    simp only [Tokens.isBrokenPrefix, hall, hkeyword, decide_eq_true hsize, Option.isNone_none,
      Bool.and_true]

/-! ## Pieces -/

/-- The lexer is behind `front` of its line, with `rest` still to come. -/
structure RawStands (front rest : List Char) (l : RawLexer) : Prop where
  line : l.line = front ++ rest
  stop : l.stop = byteLength front

theorem RawStands.rest_eq {front rest : List Char} {l : RawLexer} (h : RawStands front rest l) :
    l.rest = rest := by
  rw [RawLexer.rest, h.line, h.stop, dropBytes_byteLength]

section Raw

variable {m : Matcher} {front gap : List Char} {l : RawLexer}
variable (hgap : ∀ c ∈ gap, isSpacing c = true)
include hgap

theorem takeWhile_gap {rest : List Char} (hrest : ∀ c ∈ rest.head?, isSpacing c = false) :
    (gap ++ rest).takeWhile isSpacing = gap ∧ (gap ++ rest).dropWhile isSpacing = rest := by
  rw [List.takeWhile_append_of_pos hgap, List.dropWhile_append_of_pos hgap]
  cases rest with
  | nil => simp
  | cons c rest => simp [hrest c rfl]

theorem raw_next_nil (h : RawStands front gap l) :
    ∃ l', l.next m = (none, l') ∧ RawStands (front ++ gap) [] l' := by
  have hskip : (gap ++ []).takeWhile isSpacing = gap ∧ (gap ++ []).dropWhile isSpacing = [] :=
    takeWhile_gap hgap (by simp)
  simp only [List.append_nil] at hskip
  rw [RawLexer.next, h.rest_eq, hskip.2, hskip.1, h.stop]
  exact ⟨_, rfl, by simp [h.line], by simp⟩

/-- The next piece starts behind the spacing. -/
theorem raw_next_cons {c : Char} {cs : List Char} (hc : isSpacing c = false)
    (h : RawStands front (gap ++ c :: cs) l) :
    l.next m = (some (m c cs).1,
      { line := l.line
        start := byteLength (front ++ gap)
        stop := byteLength (front ++ gap) + byteLength (c :: cs.take (m c cs).2) }) := by
  have hskip : (gap ++ c :: cs).takeWhile isSpacing = gap ∧
      (gap ++ c :: cs).dropWhile isSpacing = c :: cs := takeWhile_gap hgap (by simpa using hc)
  rw [RawLexer.next, h.rest_eq, hskip.2, hskip.1, h.stop, byteLength_append]

end Raw

/-! ## Pulls -/

/-- The stream has read `front` of its line without an error, and `rest` is to come. -/
structure Stands (front rest : List Char) (s : Tokens) : Prop where
  raw : RawStands front rest s.raw
  not_failed : s.failed = false

theorem stands_ofText (text : String) : Stands [] text.toList (.ofText text) :=
  ⟨⟨rfl, rfl⟩, rfl⟩

/-- What a pull gives a stream that stands behind `front` and in front of the characters. -/
inductive Pulled (front : List Char) :
    List Char → Option (Except ScanError Token) × Tokens → Prop where
  | finish {gap : List Char} {s : Tokens} :
      (∀ c ∈ gap, isSpacing c = true) → Stands (front ++ gap) [] s → Pulled front gap (none, s)
  | token {gap word rest : List Char} {kind : Token.Kind} {start stop : Nat} {s : Tokens} :
      (∀ c ∈ gap, isSpacing c = true) → Longest kind word (word ++ rest) →
        start = byteLength (front ++ gap) → stop = start + byteLength word →
        Stands (front ++ gap ++ word) rest s →
        Pulled front (gap ++ (word ++ rest))
          (some (.ok ⟨kind, String.ofList word, .ofRange start stop⟩), s)
  | stuck {gap rest : List Char} {c : Char} {s : Tokens} :
      (∀ c ∈ gap, isSpacing c = true) → isSpacing c = false →
        (∀ kind word, Spells kind word → ¬ word <+: c :: rest) → s.failed = true →
        Pulled front (gap ++ c :: rest)
          (some (.error (errorAt (byteLength (front ++ gap)) c rest)), s)

/-- The error is cut down to the first character, but for an open string, of which the piece is all
that is left of the line. -/
theorem unrecognized_eq_errorAt {c : Char} {rest : List Char} {n : Nat}
    (h : c = '"' → rest.take n = rest) (pos : Nat) :
    ScanError.unrecognized (c :: rest.take n)
      (.ofRange pos (pos + byteLength (c :: rest.take n))) = errorAt pos c rest := by
  by_cases hquote : c = '"'
  · have hrest := h hquote
    subst hquote
    rw [hrest, errorAt, if_pos rfl]
    rfl
  -- the start of the piece is recorded in 32 bits before the width of the character is added
  · have hstop : Span.saturate (Span.saturate pos + c.utf8Size) =
        Span.saturate (pos + c.utf8Size) := by
      simp only [Span.saturate]
      omega
    rw [errorAt, if_neg hquote, Span.ofRange, Span.ofRange, ← hstop]
    exact if_neg hquote

theorem drop_of_take_eq {cs rest : List Char} {n : Nat} (h : (cs ++ rest).take n = cs) :
    (cs ++ rest).drop n = rest := by
  have hsplit := List.take_append_drop n (cs ++ rest)
  rw [h] at hsplit
  exact List.append_cancel_left hsplit

theorem next_of_failed {m : Matcher} {s : Tokens} (h : s.failed = true) :
    s.next m = (none, s) := by
  rw [Tokens.next, if_pos h]

section Pulls

variable {m : Matcher} {front gap : List Char} {s : Tokens}
variable (hgap : ∀ c ∈ gap, isSpacing c = true)
include hgap

theorem next_finish (h : Stands front gap s) :
    ∃ more, s.next m = (none, more) ∧ Stands (front ++ gap) [] more := by
  rcases raw_next_nil (m := m) hgap h.raw with ⟨raw, hraw, hstands⟩
  rw [Tokens.next, if_neg (by simp [h.not_failed]), hraw]
  exact ⟨_, rfl, hstands, h.not_failed⟩

section Pieces

variable {c : Char} {rest : List Char} (hc : isSpacing c = false)
variable (h : Stands front (gap ++ c :: rest) s)
include hc h

/-- The lexer has cut the line in front of `c`. -/
theorem next_piece {kind? : Option Token.Kind} {n : Nat} (hanswer : m c rest = (kind?, n)) :
    ∃ raw, s.raw.next m = (some kind?, raw) ∧ raw.line = front ++ gap ++ c :: rest ∧
      raw.start = byteLength (front ++ gap) ∧
      raw.stop = byteLength (front ++ gap) + byteLength (c :: rest.take n) ∧
      raw.slice = c :: rest.take n := by
  have hline : s.raw.line = front ++ gap ++ c :: rest := by
    rw [h.raw.line, List.append_assoc]
  rw [raw_next_cons hgap hc h.raw, hanswer]
  refine ⟨_, rfl, hline, rfl, rfl, ?_⟩
  -- the bytes that are cut out of the line are those of whole characters
  have htake := takeBytes_byteLength (c :: rest.take n) (rest.drop n)
  rw [List.cons_append, List.take_append_drop] at htake
  rw [RawLexer.slice, hline, dropBytes_byteLength, Nat.add_sub_cancel_left]
  exact htake

/-- A piece that is no broken keyword is a token, and the next pull goes on behind it. -/
theorem next_match {kind : Token.Kind} {n : Nat} (hanswer : m c rest = (some kind, n))
    (hbroken : Tokens.isBrokenPrefix (some kind) (c :: rest.take n) = false) :
    ∃ more, s.next m = (some (.ok ⟨kind, String.ofList (c :: rest.take n),
      .ofRange (byteLength (front ++ gap))
        (byteLength (front ++ gap) + byteLength (c :: rest.take n))⟩), more) ∧
      Stands (front ++ gap ++ c :: rest.take n) (rest.drop n) more := by
  rcases next_piece hgap hc h hanswer with ⟨raw, hraw, hline, hstart, hstop, hslice⟩
  rw [Tokens.next, if_neg (by simp [h.not_failed]), hraw]
  simp only [hslice, hbroken, Bool.false_eq_true, if_false, hstart, hstop]
  exact ⟨_, rfl, ⟨by simp [hline], by rw [hstop, ← byteLength_append]⟩, h.not_failed⟩

/-- Of a broken keyword the first letter is a token, and the next pull goes on behind that letter. -/
theorem next_broken {kind? : Option Token.Kind} {n : Nat} (hanswer : m c rest = (kind?, n))
    (hbroken : Tokens.isBrokenPrefix kind? (c :: rest.take n) = true) (hupper : c.isUpper = true) :
    ∃ more, s.next m = (some (.ok ⟨.var, String.ofList [c],
      .ofRange (byteLength (front ++ gap)) (byteLength (front ++ gap) + 1)⟩), more) ∧
      Stands (front ++ gap ++ [c]) rest more := by
  rcases next_piece hgap hc h hanswer with ⟨raw, hraw, hline, hstart, -, hslice⟩
  -- a capital has one byte, so the first byte of the piece is its first letter
  have hletter : takeBytes 1 (c :: rest.take n) = [c] := by
    have hsize : byteLength [c] = 1 := by simp [utf8Size_of_isUpper hupper]
    rw [← hsize]
    exact takeBytes_byteLength [c] (rest.take n)
  rw [Tokens.next, if_neg (by simp [h.not_failed]), hraw]
  simp only [hslice, hbroken, if_true, Tokens.splitFirstLetter, hletter, hstart]
  refine ⟨_, rfl, ⟨?_, ?_⟩, h.not_failed⟩
  · simp [RawLexer.bump, RawLexer.ofLine, hline]
  · simp [RawLexer.bump, RawLexer.ofLine, utf8Size_of_isUpper hupper]
    omega

/-- A piece that is rejected is an error, and nothing comes after it. -/
theorem next_reject {n : Nat} (hanswer : m c rest = (none, n))
    (hbroken : Tokens.isBrokenPrefix none (c :: rest.take n) = false) :
    ∃ more, s.next m = (some (.error (.unrecognized (c :: rest.take n)
      (.ofRange (byteLength (front ++ gap))
        (byteLength (front ++ gap) + byteLength (c :: rest.take n))))), more) ∧
      more.failed = true := by
  rcases next_piece hgap hc h hanswer with ⟨raw, hraw, -, hstart, hstop, hslice⟩
  rw [Tokens.next, if_neg (by simp [h.not_failed]), hraw]
  simp only [hslice, hbroken, Bool.false_eq_true, if_false, hstart, hstop]
  exact ⟨_, rfl, rfl⟩

end Pieces

variable (hm : m.Lawful)
include hm

/-- A stream takes the longest spelling, whether the matcher finds it or backs out. -/
theorem next_token {kind : Token.Kind} {word rest : List Char}
    (hlongest : Longest kind word (word ++ rest)) (h : Stands front (gap ++ (word ++ rest)) s) :
    ∃ more, s.next m = (some (.ok ⟨kind, String.ofList word,
      .ofRange (byteLength (front ++ gap)) (byteLength (front ++ gap) + byteLength word)⟩), more) ∧
      Stands (front ++ gap ++ word) rest more := by
  rcases spells_cons hlongest.spells with ⟨c, cs, rfl, hc⟩
  rw [List.cons_append] at hlongest h
  rcases hm.longest hlongest with ⟨hkind, htake⟩ | hback
  · have hnext := next_match hgap hc h (Prod.ext hkind rfl)
    rw [htake, drop_of_take_eq htake] at hnext
    exact hnext (isBrokenPrefix_of_spells hlongest.spells)
  · -- no keyword begins with the letter, so that it is the longest spelling by itself
    have hupper := hback.letters c (List.mem_cons_self ..)
    have hletter := longest_of_lexeme? (lexeme?_letter hupper hback.no_keyword)
    rcases hlongest.unique hletter with ⟨rfl, hword⟩
    obtain rfl : cs = [] := (List.cons.inj hword).2
    rw [List.nil_append] at h hback
    have hnext := next_broken hgap hc h Prod.mk.eta.symm (isBrokenPrefix_of_backsOut hback) hupper
    rwa [byteLength_cons, utf8Size_of_isUpper hupper]

/-- Where no spelling begins, the error is that of the scan. -/
theorem next_stuck {c : Char} {rest : List Char} (hc : isSpacing c = false)
    (hnone : ∀ kind word, Spells kind word → ¬ word <+: c :: rest)
    (h : Stands front (gap ++ c :: rest) s) :
    ∃ more, s.next m = (some (.error (errorAt (byteLength (front ++ gap)) c rest)), more) ∧
      more.failed = true := by
  -- a capital would be a variable, so what is rejected here is not taken for a broken keyword
  have hupper : c.isUpper = false := by
    refine Bool.eq_false_iff.2 ?_
    intro hupper
    exact hnone .var [c] (.var hupper) ⟨rest, rfl⟩
  have hanswer : m c rest = (none, (m c rest).2) := Prod.ext (hm.rejected hc hnone) rfl
  rcases next_reject hgap hc h hanswer (isBrokenPrefix_of_not_isUpper hupper _) with
    ⟨more, hnext, hfailed⟩
  refine ⟨more, ?_, hfailed⟩
  rw [hnext, unrecognized_eq_errorAt]
  rintro rfl
  exact List.take_of_length_le (hm.open_string (quote_not_mem_of_no_spelling hnone))

end Pulls

theorem pulled_next {m : Matcher} (hm : m.Lawful) {front rest : List Char} {s : Tokens}
    (h : Stands front rest s) : Pulled front rest (s.next m) := by
  -- which of the three it is, the scan of the same characters tells
  have hmunches := munches_ofChars (byteLength front) rest
  generalize ofChars (byteLength front) rest = scan at hmunches
  cases hmunches with
  | finish hgap =>
      rcases next_finish (m := m) hgap h with ⟨more, hnext, hstands⟩
      rw [hnext]
      exact .finish hgap hstands
  | token hgap hlongest _ _ _ =>
      rcases next_token hgap hm hlongest h with ⟨more, hnext, hstands⟩
      rw [hnext]
      exact .token hgap hlongest rfl rfl hstands
  | stuck hgap hc hnone =>
      rcases next_stuck hgap hm hc hnone h with ⟨more, hnext, hfailed⟩
      rw [hnext]
      exact .stuck hgap hc hnone hfailed

/-! ## Whole streams -/

/-- Pull by pull the stream gives the tokens, and then it ends: with nothing at the end of a line of
so many bytes, or with an error. -/
inductive Streams (m : Matcher) : List Token → Ending → Tokens → Prop where
  | complete {s more : Tokens} : s.next m = (none, more) →
      Streams m [] (.complete (byteLength more.raw.line)) s
  | failed {s more : Tokens} {e : ScanError} : s.next m = (some (.error e), more) →
      Streams m [] (.failed e) s
  | token {s more : Tokens} {t : Token} {ts : List Token} {fin : Ending} :
      s.next m = (some (.ok t), more) → Streams m ts fin more → Streams m (t :: ts) fin s

/-- From each place the stream gives the tokens of the scan, and ends as it does. -/
theorem streams_of_munches {m : Matcher} (hm : m.Lawful) {pos : Nat} {cs : List Char} {scan : Scan}
    (h : Munches pos cs scan) :
    ∀ {front : List Char} {s : Tokens}, pos = byteLength front → Stands front cs s →
      Streams m scan.tokens scan.ending s := by
  -- along the scan: a pull leaves the stream where the scan goes on
  induction h with
  | finish hgap =>
      rintro front s rfl hs
      rcases next_finish (m := m) hgap hs with ⟨more, hnext, hstands⟩
      have hcomplete := Streams.complete hnext
      rwa [hstands.raw.line, List.append_nil, byteLength_append] at hcomplete
  | token hgap hlongest hstart hstop _ ih =>
      rintro front s rfl hs
      rcases next_token hgap hm hlongest hs with ⟨more, hnext, hstands⟩
      rw [byteLength_append, ← hstart, ← hstop] at hnext
      refine .token hnext (ih ?_ hstands)
      rw [hstop, hstart, byteLength_append, byteLength_append]
  | stuck hgap hc hnone =>
      rintro front s rfl hs
      rcases next_stuck hgap hm hc hnone hs with ⟨more, hnext, -⟩
      rw [byteLength_append] at hnext
      exact .failed hnext

theorem streams_ofText {m : Matcher} (hm : m.Lawful) (text : String) :
    Streams m (ofText text).tokens (ofText text).ending (.ofText text) :=
  streams_of_munches hm (munches_ofChars 0 text.toList) rfl (stands_ofText text)

section Streams

variable {m : Matcher} {ts : List Token} {fin : Ending} {s : Tokens}

theorem Streams.drain_eq (h : Streams m ts fin s) :
    s.drain m = (ts, failure? ⟨ts, fin⟩) := by
  induction h with
  | complete hnext =>
      rw [Tokens.drain]
      split <;> simp_all [failure?]
  | failed hnext =>
      rw [Tokens.drain]
      split <;> simp_all [failure?]
  | token hnext _ ih =>
      rw [Tokens.drain]
      split <;> simp_all [failure?]

/-- A reader that pulls at most so many tokens sees that much of the scan. -/
theorem Streams.pull_eq (h : Streams m ts fin s) (limit : Nat) :
    s.pull m limit = upTo ⟨ts, fin⟩ limit := by
  induction h generalizing limit with
  | complete hnext =>
      cases limit <;> simp [Tokens.pull, hnext, upTo, failure?]
  | failed hnext =>
      cases limit <;> simp [Tokens.pull, hnext, upTo, failure?]
  | token hnext _ ih =>
      cases limit with
      | zero => simp [Tokens.pull, upTo]
      | succ limit => simp [Tokens.pull, hnext, ih, upTo, failure?]

/-- There are more tokens, if one more pull gives one more token. -/
theorem Streams.hasMore_iff (h : Streams m ts fin s) (limit : Nat) :
    hasMore ⟨ts, fin⟩ limit = true ↔ limit < (s.pull m (limit + 1)).1.length := by
  rw [h.pull_eq, hasMore, upTo, List.length_take, decide_eq_true_iff]
  omega

end Streams

theorem drain_ofText {m : Matcher} (hm : m.Lawful) (text : String) :
    (Tokens.ofText text).drain m = ((ofText text).tokens, (ofText text).failure?) :=
  (streams_ofText hm text).drain_eq

theorem tokenizeAll_eq {m : Matcher} (hm : m.Lawful) (text : String) :
    tokenizeAll m text = (ofText text).result := by
  rw [tokenizeAll, drain_ofText hm]
  rcases ofText text with ⟨ts, _ | e⟩ <;> rfl

theorem next_letter {m : Matcher} (hm : m.Lawful) {front gap rest : List Char} {c : Char}
    {s : Tokens} (hgap : ∀ c ∈ gap, isSpacing c = true) (hc : c.isUpper = true)
    (hk : ∀ k : Keyword, ¬ k.spelling.toList <+: c :: rest)
    (h : Stands front (gap ++ c :: rest) s) :
    ∃ more, s.next m = (some (.ok ⟨.var, String.ofList [c],
      .ofRange (byteLength (front ++ gap)) (byteLength (front ++ gap) + 1)⟩), more) ∧
      Stands (front ++ gap ++ [c]) rest more := by
  have hlongest : Longest .var [c] ([c] ++ rest) := longest_of_lexeme? (lexeme?_letter hc hk)
  have hnext := next_token hgap hm hlongest h
  rwa [byteLength_cons, byteLength_nil, utf8Size_of_isUpper hc] at hnext

/-- Wherever a stream stands, a pull takes the longest spelling that is there, and the next pull goes
on right behind it; behind the end of the line and behind an error there is nothing. So letters that
begin no keyword are taken one at a time, a keyword is taken only where all of it stands, and pulls
from the start of a line give its scan. -/
theorem stream_takes_longest (m : Matcher) (hm : m.Lawful) :
    (∀ text, Stands [] text.toList (.ofText text)) ∧
    (∀ front rest s, Stands front rest s → Pulled front rest (s.next m)) ∧
    (∀ s : Tokens, s.failed = true → s.next m = (none, s)) ∧
    (∀ front gap c rest s, Stands front (gap ++ c :: rest) s → (∀ d ∈ gap, isSpacing d = true) →
      c.isUpper = true → (∀ k : Keyword, ¬ k.spelling.toList <+: c :: rest) →
      ∃ more, s.next m = (some (.ok ⟨.var, String.ofList [c],
        .ofRange (byteLength (front ++ gap)) (byteLength (front ++ gap) + 1)⟩), more) ∧
        Stands (front ++ gap ++ [c]) rest more) ∧
    (∀ text, ∀ t ∈ ((Tokens.ofText text).drain m).1,
      (t.kind = .var → ∃ c : Char, c.isUpper = true ∧ t.text.toList = [c]) ∧
      (t.kind = .keyword → ∃ k : Keyword, t.text = k.spelling)) ∧
    (∀ text,
      (Tokens.ofText text).drain m = ((Scan.ofText text).tokens, (Scan.ofText text).failure?) ∧
      ∀ limit, (Tokens.ofText text).pull m limit = (Scan.ofText text).upTo limit ∧
        ((Scan.ofText text).hasMore limit = true ↔
          limit < ((Tokens.ofText text).pull m (limit + 1)).1.length)) := by
  refine ⟨stands_ofText, ?_, ?_, ?_, ?_, ?_⟩
  · intro front rest s hs
    exact pulled_next hm hs
  · intro s hs
    exact next_of_failed hs
  · intro front gap c rest s hs hgap hc hk
    exact next_letter hm hgap hc hk hs
  · intro text t ht
    rw [drain_ofText hm] at ht
    have hspelled := spelled_of_mem_ofText t ht
    exact ⟨letter_of_spelled hspelled, keyword_of_spelled hspelled⟩
  · intro text
    have hstreams := streams_ofText hm text
    refine ⟨drain_ofText hm text, ?_⟩
    intro limit
    exact ⟨hstreams.pull_eq limit, hstreams.hasMore_iff limit⟩

/-! ## A matcher that backs out -/

/-- The number of characters behind `c` up to which a keyword can be followed. -/
def followed (c : Char) (rest : List Char) : Nat :=
  Nat.findGreatest (fun n => ∃ k ∈ Keyword.all, c :: rest.take n <+: k.spelling.toList) rest.length

/-- A matcher that answers with all letters up to which it has followed a keyword, if no keyword is
there. It calls them `kind?`. -/
def backingOut (kind? : Option Token.Kind) : Matcher := fun c rest =>
  match lexeme? c rest with
  | some (kind, n) =>
      if kind = .var ∧ followed c rest ≠ 0 then (kind?, followed c rest) else (some kind, n)
  | none => (none, if c = '"' then rest.length else 0)

theorem letters_followed {c : Char} {rest : List Char} (h : followed c rest ≠ 0) :
    (∀ d ∈ c :: rest.take (followed c rest), d.isUpper = true) ∧
      rest.take (followed c rest) ≠ [] := by
  have hle : followed c rest ≤ rest.length := Nat.findGreatest_le rest.length
  have hspec : ∃ k ∈ Keyword.all, c :: rest.take (followed c rest) <+: k.spelling.toList :=
    Nat.findGreatest_of_ne_zero rfl h
  rcases hspec with ⟨k, -, hk⟩
  refine ⟨?_, ?_⟩
  · intro d hd
    exact isUpper_of_mem_spelling (hk.subset hd)
  · intro hnil
    have hlength := congrArg List.length hnil
    simp only [List.length_take, List.length_nil] at hlength
    omega

theorem lawful_backingOut {kind? : Option Token.Kind}
    (hkind : kind? = none ∨ kind? = some .var ∨ kind? = some .keyword) :
    (backingOut kind?).Lawful := by
  refine ⟨?_, ?_, ?_⟩
  case refine_1 =>
    intro kind c cs rest hlongest
    rcases hlongest.begins with ⟨more, hmore⟩
    obtain rfl : cs ++ more = rest := (List.cons.inj hmore).2
    rcases lexeme?_of_longest hlongest with ⟨n, hlexeme, htake, -⟩
    by_cases hback : kind = .var ∧ followed c (cs ++ more) ≠ 0
    · rcases hback with ⟨rfl, hne⟩
      have hanswer : backingOut kind? c (cs ++ more) = (kind?, followed c (cs ++ more)) := by
        simp [backingOut, hlexeme, hne]
      rcases letters_followed hne with ⟨hletters, hseveral⟩
      refine .inr ⟨?_, ?_, ?_, ?_⟩
      · -- where a keyword begins, the token is that keyword
        rintro k ⟨tail, htail⟩
        rcases spelling_letters k with ⟨d, e, ds, hspelling, -, -⟩
        rw [hspelling, List.cons_append, List.cons.injEq] at htail
        rcases htail with ⟨rfl, htail⟩
        have hkeyword : lexeme? d ((e :: ds) ++ tail) = some (.keyword, (e :: ds).length) :=
          lexeme?_keyword hspelling
        rw [htail, hlexeme] at hkeyword
        cases hkeyword
      · rwa [hanswer]
      · rwa [hanswer]
      · rwa [hanswer]
    · left
      simp [backingOut, hlexeme, hback, htake]
  case refine_2 =>
    intro c rest _ hnone
    simp [backingOut, lexeme?_eq_none_iff.2 hnone]
  case refine_3 =>
    intro rest hquote
    have hlexeme : lexeme? '"' rest = none := by
      rw [lexeme?, if_pos rfl, List.idxOf?_eq_none_iff.2 hquote]
      rfl
    simp [backingOut, hlexeme]

/-- At `GOGOTO 1` the matcher has followed `GOTO` and `GOSUB` for two letters. The first is taken,
and the stream finds the keyword behind the second. -/
theorem stream_takes_longest_word :
    backingOut none 'G' "OGOTO 1".toList = (none, 1) ∧ (backingOut none).Lawful ∧
      (Tokens.ofText "GOGOTO 1").drain (backingOut none) =
        ([⟨.var, "G", ⟨0, 1⟩⟩, ⟨.var, "O", ⟨1, 2⟩⟩, ⟨.keyword, "GOTO", ⟨2, 6⟩⟩, ⟨.num, "1", ⟨7, 8⟩⟩],
          none) := by
  have hlawful : (backingOut none).Lawful := lawful_backingOut (.inl rfl)
  have hscan : Scan.ofText "GOGOTO 1" =
      ⟨[⟨.var, "G", ⟨0, 1⟩⟩, ⟨.var, "O", ⟨1, 2⟩⟩, ⟨.keyword, "GOTO", ⟨2, 6⟩⟩, ⟨.num, "1", ⟨7, 8⟩⟩],
        .complete 8⟩ := by
    cbv
  have hdrain := ((stream_takes_longest (backingOut none) hlawful).2.2.2.2.2 "GOGOTO 1").1
  rw [hscan] at hdrain
  exact ⟨by decide, hlawful, hdrain⟩

end Lexicon
end TinyBasic
