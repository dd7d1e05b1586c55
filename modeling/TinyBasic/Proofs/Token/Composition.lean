import TinyBasic.Proofs.Token.Munch

/-!
# Composition — scans across spacing

Two texts with spacing between them are scanned as if each stood alone. No token but a string holds
spacing, and a string that starts in front of the spacing ends there too, or the scan would have
failed. So the scan of the whole is put together from the scans of its parts
(`scan_across_spacing`).

The tokens of the second text lie further on than they do alone. In all else a scan is the same
wherever its characters stand, because it carries nothing along but its position
(`relocate_ofChars`).
-/

namespace TinyBasic

/-! ## Places -/

/-- The span with each of its ends sent to another offset. -/
def Span.relocate (f : Nat → Nat) (s : Span) : Span :=
  ⟨f s.start, f s.stop⟩

/-- The token at another place. -/
def Token.relocate (f : Nat → Nat) (t : Token) : Token :=
  { t with span := t.span.relocate f }

@[simp] theorem Token.kind_relocate (f : Nat → Nat) (t : Token) : (t.relocate f).kind = t.kind := rfl

@[simp] theorem Token.text_relocate (f : Nat → Nat) (t : Token) : (t.relocate f).text = t.text := rfl

@[simp] theorem Token.keyword?_relocate (f : Nat → Nat) (t : Token) :
    (t.relocate f).keyword? = t.keyword? := rfl

/-- The error at another place. -/
def ScanError.relocate (f : Nat → Nat) : ScanError → ScanError
  | unterminatedString s => .unterminatedString (s.relocate f)
  | unexpectedChar c s => .unexpectedChar c (s.relocate f)

/-- The end of a scan at another place. -/
def Ending.relocate (f : Nat → Nat) : Ending → Ending
  | complete length => .complete (f length)
  | failed e => .failed (e.relocate f)

namespace Scan

/-- The scan with all its places sent to others. -/
def relocate (f : Nat → Nat) (s : Scan) : Scan :=
  ⟨s.tokens.map (Token.relocate f), s.ending.relocate f⟩

/-- The scan with some tokens in front. -/
def behind (ts : List Token) (s : Scan) : Scan :=
  { s with tokens := ts ++ s.tokens }

@[simp] theorem behind_nil (s : Scan) : s.behind [] = s := rfl

theorem relocate_cons (f : Nat → Nat) (t : Token) (s : Scan) :
    (cons t s).relocate f = cons (t.relocate f) (s.relocate f) := rfl

theorem relocate_id (s : Scan) : s.relocate id = s := by
  have htoken : Token.relocate id = id := rfl
  rcases s with ⟨ts, ending⟩
  cases ending with
  | complete n => simp [relocate, htoken, Ending.relocate]
  | failed e => cases e <;> simp [relocate, htoken, Ending.relocate, ScanError.relocate, Span.relocate]

end Scan

namespace Lexicon

open Scan

@[simp] theorem lexeme_relocate (f : Nat → Nat) (t : Token) : lexeme (t.relocate f) = lexeme t := rfl

/-! ## Scans at other places -/

/-- The offsets of `length` bytes from `pos` on are sent by `f` where `g` sends those from `pos'` on,
both as they are and as they are recorded. -/
def Concurs (f : Nat → Nat) (pos : Nat) (g : Nat → Nat) (pos' length : Nat) : Prop :=
  ∀ n ≤ length, f (pos + n) = g (pos' + n) ∧
    f (Span.saturate (pos + n)) = g (Span.saturate (pos' + n))

section Concurs

variable {f g : Nat → Nat} {pos pos' length : Nat}

theorem Concurs.behind {k l : Nat} (h : Concurs f pos g pos' (k + l)) :
    Concurs f (pos + k) g (pos' + k) l := by
  intro n hn
  rw [Nat.add_assoc, Nat.add_assoc]
  exact h (k + n) (Nat.add_le_add_left hn k)

theorem Concurs.ofRange (h : Concurs f pos g pos' length) {n : Nat} (hn : n ≤ length) :
    (Span.ofRange pos (pos + n)).relocate f = (Span.ofRange pos' (pos' + n)).relocate g := by
  have hstart : f (Span.saturate pos) = g (Span.saturate pos') := (h 0 (Nat.zero_le _)).2
  simp only [Span.relocate, Span.ofRange, hstart, (h n hn).2]

theorem Concurs.errorAt {c : Char} {rest : List Char}
    (h : Concurs f pos g pos' (byteLength (c :: rest))) :
    (errorAt pos c rest).relocate f = (errorAt pos' c rest).relocate g := by
  simp only [Scan.errorAt]
  split
  case isTrue => exact congrArg _ (h.ofRange (Nat.le_refl _))
  case isFalse => exact congrArg _ (h.ofRange (Nat.le_add_right _ _))

end Concurs

/-- Scans of the same characters differ in places only, and these no further than the positions of
the characters do. -/
theorem Munches.relocate {f g : Nat → Nat} {pos pos' : Nat} {cs : List Char} {s : Scan}
    (h : Munches pos cs s) :
    Concurs f pos g pos' (byteLength cs) → s.relocate f = (ofChars pos' cs).relocate g := by
  -- along the scan: behind each word the two positions have moved by the same bytes
  induction h generalizing pos' with
  | @finish pos gap hgap =>
      intro hplaces
      have hscan := ofChars_gap hgap pos' []
      rw [List.append_nil] at hscan
      rw [hscan, ofChars]
      simp only [Scan.relocate, Ending.relocate, (hplaces _ (Nat.le_refl _)).1, List.map_nil]
  | @token pos start stop gap word rest kind s hgap hlongest hstart hstop _ ih =>
      intro hplaces
      subst hstart hstop
      rw [byteLength_append, byteLength_append] at hplaces
      have hword := hplaces.behind
      have hspan := hword.ofRange (Nat.le_add_right (byteLength word) _)
      rw [ofChars_gap hgap, ofChars_longest hlongest, relocate_cons, relocate_cons, ih hword.behind]
      simp only [Token.relocate, hspan]
  | @stuck pos gap rest c hgap hc hnone =>
      intro hplaces
      rw [byteLength_append] at hplaces
      rw [ofChars_gap hgap, ofChars_stuck hc hnone]
      simp only [Scan.relocate, Ending.relocate, hplaces.behind.errorAt, List.map_nil]

theorem relocate_ofChars {f g : Nat → Nat} {pos pos' : Nat} {cs : List Char}
    (h : Concurs f pos g pos' (byteLength cs)) :
    (ofChars pos cs).relocate f = (ofChars pos' cs).relocate g :=
  (munches_ofChars pos cs).relocate h

/-- Characters that stand `n` bytes further on have their tokens further on by as much, as long as
32 bits hold the offsets. -/
theorem ofChars_add {pos n : Nat} {cs : List Char} (h : pos + n + byteLength cs ≤ Span.maxOffset) :
    ofChars (pos + n) cs = (ofChars pos cs).relocate (· + n) := by
  have hplaces : Concurs (· + n) pos id (pos + n) (byteLength cs) := by
    intro k hk
    have hrange : Span.saturate (pos + k) = pos + k := Span.saturate_of_le (by omega)
    have hshifted : Span.saturate (pos + n + k) = pos + n + k := Span.saturate_of_le (by omega)
    simp only [hrange, hshifted, id]
    omega
  rw [relocate_ofChars hplaces, relocate_id]

/-- The words of characters do not depend on where the characters stand, and neither does it whether
the scan gets to their end. -/
theorem ofChars_words (pos pos' : Nat) (cs : List Char) :
    (ofChars pos cs).tokens.map lexeme = (ofChars pos' cs).tokens.map lexeme ∧
      ((∃ n, (ofChars pos cs).ending = .complete n) ↔
        ∃ n, (ofChars pos' cs).ending = .complete n) := by
  -- with all places sent to one, nothing but the words and the kind of ending is left
  have hplaces : Concurs (fun _ => 0) pos (fun _ => 0) pos' (byteLength cs) := by
    intro n _
    exact ⟨rfl, rfl⟩
  have hscan := relocate_ofChars hplaces
  constructor
  · have htokens := congrArg (fun s : Scan => s.tokens.map lexeme) hscan
    simpa [Scan.relocate, Function.comp_def] using htokens
  · have hending := congrArg Scan.ending hscan
    simp only [Scan.relocate] at hending
    cases h : (ofChars pos cs).ending <;> cases h' : (ofChars pos' cs).ending <;>
      simp_all [Ending.relocate]

/-! ## Scans of two texts -/

/-- Only strings begin with a quote. -/
theorem str_of_quote {kind : Token.Kind} {cs : List Char} (h : Spells kind ('"' :: cs)) :
    kind = .str := by
  by_contra hkind
  have hquote := h.forall_mem (p := (· != '"')) hkind ?_ ?_ (by decide) '"' (by simp)
  · cases hquote
  · intro c hc
    exact bne_iff_ne.2 (ne_quote rfl hc)
  · intro c hc
    exact bne_iff_ne.2 (ne_quote rfl hc)

/-- Only strings hold spacing. -/
theorem str_of_isSpacing {kind : Token.Kind} {word : List Char} (h : Spells kind word) {c : Char}
    (hc : c ∈ word) (hspacing : isSpacing c = true) : kind = .str := by
  by_contra hkind
  have hfree := h.forall_mem (p := fun d => !isSpacing d) hkind ?_ ?_ (by decide) c hc
  · rw [hspacing] at hfree
    cases hfree
  · intro d hd
    rw [not_isSpacing (p := Char.isUpper) (by decide) hd]
    rfl
  · intro d hd
    rw [not_isSpacing (p := Char.isDigit) (by decide) hd]
    rfl

/-- A spelling that begins a string is all of it: both start with a quote, and the first quote behind
that one ends them. -/
theorem Spells.length_le_of_str {kind : Token.Kind} {word longer : List Char} (h : Spells kind word)
    (hlonger : Spells .str longer) (hbegins : word <+: longer) : longer.length ≤ word.length := by
  rcases spells_str hlonger with ⟨body, hbody, rfl⟩
  rcases spells_cons h with ⟨c, cs, rfl, -⟩
  rcases hbegins with ⟨more, hmore⟩
  rw [List.cons_append, List.cons.injEq] at hmore
  rcases hmore with ⟨rfl, hmore⟩
  rw [str_of_quote h] at h
  rcases spells_str h with ⟨body', hbody', hcs⟩
  rw [(List.cons.inj hcs).2, List.append_assoc] at hmore
  have hfirst : (body ++ ['"']).idxOf? '"' = some body'.length :=
    idxOf?_quote_iff.2 ⟨body', more, hmore.symm, hbody', rfl⟩
  have hlast : (body ++ ['"']).idxOf? '"' = some body.length :=
    idxOf?_quote_iff.2 ⟨body, [], rfl, hbody, rfl⟩
  -- the first quote behind the opening one closes both spellings
  rw [hfirst, Option.some.injEq] at hlast
  simp [(List.cons.inj hcs).2, hlast]

/-- The longest spelling is still the longest if spacing follows, because no other token reaches
across the spacing. -/
theorem Longest.before {kind : Token.Kind} {word cs more : List Char} (h : Longest kind word cs)
    (hmore : Separated more) : Longest kind word (cs ++ more) := by
  have hword : word <+: cs ++ more := h.begins.trans (List.prefix_append cs more)
  refine ⟨h.spells, hword, ?_⟩
  intro other longer hspells hbegins
  rcases List.prefix_or_prefix_of_prefix hword hbegins with hlt | hle
  · rcases List.prefix_or_prefix_of_prefix hbegins (List.prefix_append cs more) with hin | ⟨tail, rfl⟩
    · exact h.longest hspells hin
    · rw [List.prefix_append_right_inj] at hbegins
      cases tail with
      | nil =>
          rw [List.append_nil] at hspells ⊢
          exact h.longest hspells (List.prefix_refl cs)
      | cons d tail =>
          -- it holds the first of the spacing, so it is a string
          rcases hbegins with ⟨_, rfl⟩
          have hstr : other = .str := str_of_isSpacing hspells (by simp) (hmore d rfl)
          subst hstr
          exact h.spells.length_le_of_str hspells hlt
  · exact hle.length_le

/-- A scan that gets to the end goes on behind spacing with what is left. -/
theorem Munches.before {pos stop : Nat} {cs more : List Char} {s : Scan} (h : Munches pos cs s)
    (hmore : Separated more) :
    s.ending = .complete stop →
      ofChars pos (cs ++ more) = (ofChars (pos + byteLength cs) more).behind s.tokens := by
  induction h with
  | finish hgap =>
      intro _
      rw [ofChars_gap hgap, behind_nil]
  | @token pos start stop gap word rest kind s hgap hlongest hstart hstop _ ih =>
      intro hending
      subst hstart hstop
      have hbefore := hlongest.before hmore
      rw [List.append_assoc] at hbefore
      calc
        ofChars pos (gap ++ (word ++ rest) ++ more)
            = ofChars (pos + byteLength gap) (word ++ (rest ++ more)) := by
              rw [List.append_assoc, ofChars_gap hgap, List.append_assoc]
        _ = cons _ (ofChars (pos + byteLength gap + byteLength word) (rest ++ more)) :=
              ofChars_longest hbefore _
        _ = _ := by
              rw [ih hending, byteLength_append, byteLength_append, ← Nat.add_assoc, ← Nat.add_assoc]
              rfl
  | stuck =>
      intro hending
      cases hending

/-- Two texts with spacing between them are scanned as they are alone, one behind the other. -/
theorem ofChars_across {pos stop : Nat} {cs gap rest : List Char}
    (h : (ofChars pos cs).ending = .complete stop) (hne : gap ≠ [])
    (hgap : ∀ c ∈ gap, isSpacing c = true) :
    ofChars pos (cs ++ gap ++ rest) =
      (ofChars (pos + byteLength (cs ++ gap)) rest).behind (ofChars pos cs).tokens := by
  have hseparated : Separated (gap ++ rest) := by
    cases gap with
    | nil => exact absurd rfl hne
    | cons c gap => exact separated_cons (hgap c (by simp)) _
  rw [List.append_assoc, (munches_ofChars pos cs).before hseparated h, ofChars_gap hgap,
    byteLength_append, Nat.add_assoc]

/-- The same for texts with one space between them. -/
theorem ofText_across {first second : String} {stop : Nat}
    (h : (Scan.ofText first).ending = .complete stop) :
    Scan.ofText (first ++ " " ++ second) =
      (ofChars (first ++ " ").utf8ByteSize second.toList).behind (Scan.ofText first).tokens := by
  have hgap : ∀ c ∈ " ".toList, isSpacing c = true := List.forall_mem_singleton.2 rfl
  have hbytes : 0 + byteLength (first.toList ++ " ".toList) = (first ++ " ").utf8ByteSize := by
    rw [← String.toList_append, byteLength_toList, Nat.zero_add]
  rw [Scan.ofText, String.toList_append, String.toList_append, ofChars_across h (by decide) hgap,
    hbytes]
  rfl

/-- The scan of two texts with spacing between them has the tokens of the first, and then all that
the scan of the second comes to, further on by the bytes in front of it. -/
theorem scan_across_spacing {first gap second : String} {ts : List Token}
    (hfirst : (Scan.ofText first).result = .ok ts) (hne : gap ≠ "")
    (hgap : ∀ c ∈ gap.toList, c ∈ spacing)
    (hsize : (first ++ gap ++ second).utf8ByteSize ≤ Span.maxOffset) :
    Scan.ofText (first ++ gap ++ second) =
      ⟨ts ++ (Scan.ofText second).tokens.map (Token.relocate (· + (first ++ gap).utf8ByteSize)),
        (Scan.ofText second).ending.relocate (· + (first ++ gap).utf8ByteSize)⟩ := by
  rcases result_eq_ok_iff.1 hfirst with ⟨rfl, stop, hending⟩
  have hspacing : ∀ c ∈ gap.toList, isSpacing c = true :=
    fun c hc => mem_spacing_iff.1 (hgap c hc)
  have hnil : gap.toList ≠ [] := fun h => hne (String.toList_eq_nil_iff.1 h)
  have hbytes : byteLength (first.toList ++ gap.toList) = (first ++ gap).utf8ByteSize := by
    rw [← String.toList_append, byteLength_toList]
  have hroom : 0 + (first ++ gap).utf8ByteSize + byteLength second.toList ≤ Span.maxOffset := by
    rw [byteLength_toList, Nat.zero_add, ← String.utf8ByteSize_append]
    exact hsize
  rw [Scan.ofText, String.toList_append, String.toList_append, ofChars_across hending hnil hspacing,
    hbytes, ofChars_add hroom]
  rfl

/-- The second text ends in a string that is never closed, behind letters of two bytes. -/
theorem scan_across_spacing_open_string :
    (Scan.ofText "PRINT \"é\"").result =
      .ok [⟨.keyword, "PRINT", ⟨0, 5⟩⟩, ⟨.str, "\"é\"", ⟨6, 10⟩⟩] ∧
    Scan.ofText "B\"o" = ⟨[⟨.var, "B", ⟨0, 1⟩⟩], .failed (.unterminatedString ⟨1, 3⟩)⟩ ∧
    Scan.ofText ("PRINT \"é\"" ++ "\t " ++ "B\"o") =
      ⟨[⟨.keyword, "PRINT", ⟨0, 5⟩⟩, ⟨.str, "\"é\"", ⟨6, 10⟩⟩, ⟨.var, "B", ⟨12, 13⟩⟩],
        .failed (.unterminatedString ⟨13, 15⟩)⟩ := by
  have hfirst : (Scan.ofText "PRINT \"é\"").result =
      .ok [⟨.keyword, "PRINT", ⟨0, 5⟩⟩, ⟨.str, "\"é\"", ⟨6, 10⟩⟩] := by
    cbv
  have hsecond : Scan.ofText "B\"o" =
      ⟨[⟨.var, "B", ⟨0, 1⟩⟩], .failed (.unterminatedString ⟨1, 3⟩)⟩ := by
    cbv
  refine ⟨hfirst, hsecond, ?_⟩
  rw [scan_across_spacing hfirst (by decide) (by simp [spacing]) (by decide), hsecond]
  decide

end Lexicon
end TinyBasic
