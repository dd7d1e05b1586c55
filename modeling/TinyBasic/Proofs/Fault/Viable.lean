import TinyBasic.Proofs.Fault.Line
import TinyBasic.Proofs.Grammar.Reading
import TinyBasic.Proofs.Grammar.Wording
import TinyBasic.Proofs.Token.Tiling

/-!
# Viable — tokens that can still become a line

The tokens at the start of a line are viable if some text that is read begins with the same words.
An error of the grammar is always found as early as it can be: the tokens in front of it are viable,
and with the token at fault they no longer are (`command_error_first`).

An error of the scan is found only where the tokens in front of it are viable, with one exception.
A number or a relational operator is first read, and then its value is looked at; but to read a
token is to scan the next one. So if the value is wrong and the scan fails right behind it, then
the error of the scan is the one that is reported (`line_scan_error_iff`).
-/

namespace TinyBasic
namespace Grammar

open Parse Lexicon Source

/-! ## Viable tokens -/

/-- The text is read as a line. -/
def ReadsLine (text : String) : Prop :=
  ∃ a, Tree.ofText text = .ok a

/-- The text is read as a command. -/
def ReadsCommand (text : String) : Prop :=
  ∃ c, Command.ofText text = .ok c

/-- Some text of `R` begins with the words of the tokens. -/
def Viable (R : String → Prop) (ts : List Token) : Prop :=
  ∃ text, R text ∧ ts.map lexeme <+: (Scan.ofText text).tokens.map lexeme

/-- Some text of `R` has just the words of the tokens. -/
def Accepted (R : String → Prop) (ts : List Token) : Prop :=
  ∃ text, R text ∧ (Scan.ofText text).tokens.map lexeme = ts.map lexeme

/-- The texts of `R` are those whose tokens are derived by `P`, and these are the tokens that the
production `p` reads. -/
structure Recognizes {α : Type} (p : Ending → List Token → Except ParseError α)
    (P : List Token → α → Prop) (R : String → Prop) : Prop where
  derived : ∀ text, R text ↔ ∃ ts a, (Scan.ofText text).result = .ok ts ∧ P ts a
  reword : ∀ {ts us a}, P ts a → us.map lexeme = ts.map lexeme → P us a
  complete : ∀ {ts a}, P ts a → ∀ n, p (.complete n) ts = .ok a

theorem recognizes_line : Recognizes Parse.line Line ReadsLine where
  derived text := by
    constructor
    · rintro ⟨a, ha⟩
      rcases ofText_eq_ok_iff.1 ha with ⟨ts, hts⟩
      exact ⟨ts, a, hts⟩
    · rintro ⟨ts, a, hts⟩
      exact ⟨a, ofText_eq_ok_iff.2 ⟨ts, hts⟩⟩
  reword := Line.reword
  complete := line_complete

theorem recognizes_command : Recognizes Parse.command Request ReadsCommand where
  derived text := by
    constructor
    · rintro ⟨c, hc⟩
      cases c with
      | line a =>
          rcases ofText_eq_ok_iff.1 (command_ofText_eq_line_iff.1 hc) with ⟨ts, hresult, hline⟩
          exact ⟨ts, .line a, hresult, .line hline⟩
      | quit =>
          rcases command_ofText_eq_quit_iff.1 hc with ⟨t, hresult, hquit⟩
          exact ⟨[t], .quit, hresult, .quit hquit⟩
    · rintro ⟨ts, c, hresult, hts⟩
      cases hts with
      | @line ts a hline =>
          exact ⟨.line a, command_ofText_eq_line_iff.2 (ofText_eq_ok_iff.2 ⟨ts, hresult, hline⟩)⟩
      | @quit t hquit => exact ⟨.quit, command_ofText_eq_quit_iff.2 ⟨t, hresult, hquit⟩⟩
  reword := by
    intro ts us c h hus
    cases h with
    | line hline => exact .line (hline.reword hus)
    | quit hquit =>
        rcases List.map_eq_singleton_iff.1 hus with ⟨u, rfl, hu⟩
        exact .quit (hquit.reword hu)
  complete := by
    intro ts c h n
    cases h with
    | line hline => exact command_eq_line_iff.2 (line_complete hline n)
    | @quit t hquit => exact command_eq_quit_iff.2 ⟨t, rfl, hquit, n, rfl⟩

section Recognizes

variable {α : Type} {p : Ending → List Token → Except ParseError α} {P : List Token → α → Prop}
  {R : String → Prop} {us : List Token}

/-- Tokens that are derived are the tokens of a text: the one that has their words with spaces
between them. -/
theorem Recognizes.accepted (h : Recognizes p P R) (hus : ∀ u ∈ us, Spelled u) {a : α}
    (ha : P us a) : Accepted R us := by
  have hvalid : ∀ l ∈ us.map lexeme, l.Valid := List.forall_mem_map.2 hus
  rcases ofText_spaced hvalid with ⟨ts, hresult, hts⟩
  refine ⟨spaced (us.map lexeme), (h.derived _).2 ⟨ts, a, hresult, h.reword ha hts⟩, ?_⟩
  rw [(result_eq_ok_iff.1 hresult).1, hts]

/-- Words that complete the tokens make them viable. -/
theorem Recognizes.viable (h : Recognizes p P R) (hus : ∀ u ∈ us, Spelled u) {ls : List Lexeme}
    (hls : ∀ l ∈ ls, l.Valid) {a : α} (ha : P (us ++ ls.map Lexeme.token) a) : Viable R us := by
  have hspelled : ∀ u ∈ us ++ ls.map Lexeme.token, Spelled u :=
    List.forall_mem_append.2 ⟨hus, List.forall_mem_map.2 hls⟩
  rcases h.accepted hspelled ha with ⟨text, htext, hwords⟩
  refine ⟨text, htext, ?_⟩
  rw [hwords, List.map_append]
  exact List.prefix_append _ _

/-- The tokens of a text that is read are read with any spans. -/
theorem Recognizes.exists_derived (h : Recognizes p P R) {text : String} (htext : R text)
    (hus : us.map lexeme = (Scan.ofText text).tokens.map lexeme) : ∃ a, P us a := by
  rcases (h.derived text).1 htext with ⟨ts, a, hresult, ha⟩
  rw [(result_eq_ok_iff.1 hresult).1] at hus
  exact ⟨a, h.reword ha hus⟩

/-- Tokens are not viable if nothing is read that begins with some of them. -/
theorem Recognizes.not_viable (h : Recognizes p P R) {t : Token}
    (hbad : ∀ fin more a, p fin (us ++ t :: more) ≠ .ok a) (rest : List Token) :
    ¬ Viable R (us ++ t :: rest) := by
  rintro ⟨text, htext, ls, hls⟩
  have hwords : (us ++ t :: (rest ++ ls.map Lexeme.token)).map lexeme =
      (Scan.ofText text).tokens.map lexeme := by
    rw [← hls]
    simp only [List.map_append, List.map_cons, map_lexeme_token, List.append_assoc,
      List.cons_append]
  rcases h.exists_derived htext hwords with ⟨a, ha⟩
  exact hbad (.complete 0) _ a (h.complete ha 0)

theorem Recognizes.not_accepted (h : Recognizes p P R) {n : Nat}
    (hbad : ∀ a, p (.complete n) us ≠ .ok a) : ¬ Accepted R us := by
  rintro ⟨text, htext, hwords⟩
  rcases h.exists_derived htext hwords.symm with ⟨a, ha⟩
  exact hbad a (h.complete ha n)

theorem valid_suggestion {expected : Expected} {w : Lexeme} (h : suggestion? expected = some w) :
    w.Valid := by
  cases expected <;> cases h
  case num => exact valid_number 1
  case var | expression | numOrVar => exact valid_letter_A
  case relop | equal => exact valid_comparison .equal
  case thenKw | statement => exact valid_keyword _
  case comma => exact valid_comma
  case numberOrParen | rparen => exact .mark (by decide)

theorem Recognizes.viable_of_awaits (h : Recognizes p P R) (hus : ∀ u ∈ us, Spelled u)
    {expected : Expected} {w : Lexeme} (hw : suggestion? expected = some w)
    (hawaits : Awaits P expected us) : Viable R (us ++ [w.token]) := by
  rcases hawaits with ⟨w', ws, a, hw', hws, ha⟩
  rw [hw] at hw'
  cases hw'
  have hspelled : ∀ u ∈ us ++ [w.token], Spelled u :=
    List.forall_mem_append.2 ⟨hus, List.forall_mem_singleton.2 (valid_suggestion hw)⟩
  refine h.viable hspelled hws (a := a) ?_
  simpa using ha

theorem Recognizes.viable_of_completes (h : Recognizes p P R) (hus : ∀ u ∈ us, Spelled u)
    {expected : Expected} (hcompletes : Completes P expected us) : Viable R us := by
  rcases hcompletes with ⟨-, a, ha⟩ | ⟨w, ws, a, hw, hws, ha⟩
  · have hnil : ∀ l ∈ ([] : List Lexeme), l.Valid := nofun
    refine h.viable hus hnil (a := a) ?_
    rwa [List.map_nil, List.append_nil]
  · exact h.viable hus (List.forall_mem_cons.2 ⟨valid_suggestion hw, hws⟩) ha

end Recognizes

/-! ## Errors of the grammar -/

section Fault

variable {α : Type} {p : Ending → List Token → Except ParseError α}
  {C : Expected → List Token → Prop} {fin : Ending} {ts : List Token}

theorem reject_eq_scan_iff {expected : Expected} {t : Token} {rest : List Token} {e : ScanError} :
    fin.reject expected t rest = .scan e ↔ rest = [] ∧ fin = .failed e := by
  cases rest <;> cases fin <;> simp [Ending.reject, ParseError.atToken]

theorem reject_eq_unexpected {expected ex : Expected} {t : Token} {rest : List Token}
    {found : Found} {span : Span} (h : fin.reject expected t rest = .unexpected ex found span) :
    fin.reject expected t rest = .atToken expected t := by
  cases rest <;> cases fin <;> first | rfl | cases h

/-- A value that is wrong is reported, if the scan does not fail right behind it. -/
theorem reject_eq_atToken {expected : Expected} {t : Token} {rest : List Token}
    (h : rest ≠ [] ∨ ∃ length, fin = .complete length) :
    fin.reject expected t rest = .atToken expected t := by
  rcases h with hne | ⟨length, rfl⟩
  · cases rest with
    | nil => exact absurd rfl hne
    | cons u rest => rfl
  · cases rest <;> rfl

/-- An error of the grammar is at a token or at the end of the line. -/
theorem Fault.unexpected {expected : Expected} {found : Found} {span : Span}
    (h : Fault p C fin ts (.unexpected expected found span)) :
    (∃ (us : List Token) (t : Token) (rest : List Token),
      ts = us ++ t :: rest ∧ found = .token t.kind t.text ∧ span = t.span ∧
      C expected us ∧ ∀ fin' more a, p fin' (us ++ t :: more) ≠ .ok a) ∨
    (∃ n, fin = .complete n ∧ found = .endOfLine ∧ span = .point n ∧ C expected ts) := by
  generalize he : ParseError.unexpected expected found span = e at h
  cases h with
  | atEnd hC =>
      cases fin with
      | complete n =>
          cases he
          exact .inr ⟨n, rfl, rfl, rfl, hC⟩
      | failed e => cases he
  | @atToken us rest t ex hC hbad =>
      cases he
      exact .inl ⟨us, t, rest, rfl, rfl, rfl, hC, hbad t (.refl t)⟩
  | @atValue us rest t ex w hC hw hkind hvalue hbad =>
      rw [reject_eq_unexpected he.symm] at he
      cases he
      exact .inl ⟨us, t, rest, rfl, rfl, rfl, hC, hbad⟩

/-- An error of the scan is at the end of good tokens, or right behind a token whose value is
wrong. -/
theorem Fault.scan {e : ScanError} (h : Fault p C fin ts (.scan e)) :
    fin = .failed e ∧ ((∃ expected, C expected ts) ∨
      ∃ (us : List Token) (t : Token) (expected : Expected) (w : Lexeme),
        ts = us ++ [t] ∧ C expected us ∧ suggestion? expected = some w ∧ w.kind = t.kind ∧
        (t.kind = .num ∨ t.kind = .relop) ∧ ∀ fin' more a, p fin' (us ++ t :: more) ≠ .ok a) := by
  generalize he : ParseError.scan e = e' at h
  cases h with
  | @atEnd _ expected hC =>
      cases fin with
      | complete n => cases he
      | failed e =>
          cases he
          exact ⟨rfl, .inl ⟨expected, hC⟩⟩
  | atToken => cases he
  | @atValue us rest t expected w hC hw hkind hvalue hbad =>
      rcases reject_eq_scan_iff.1 he.symm with ⟨rfl, rfl⟩
      exact ⟨rfl, .inr ⟨us, t, expected, w, rfl, hC, hw, hkind, hvalue, hbad⟩⟩

end Fault

theorem ending_of_complete {text : String} (hsize : text.utf8ByteSize ≤ Span.maxOffset) {n : Nat}
    (h : (Scan.ofText text).ending = .complete n) : n = text.utf8ByteSize := by
  have hcovers := covers_ofText hsize
  generalize Scan.ofText text = s at h hcovers
  rcases s with ⟨ts, ending⟩
  cases h
  rw [hcovers.2, byteLength_toList, Nat.zero_add]

/-- The grammar finds fault with the first token that no line goes on with. -/
theorem command_error_first (text : String) (hsize : text.utf8ByteSize ≤ Span.maxOffset)
    {expected : Expected} {found : Found} {span : Span}
    (h : Command.ofText text = .error (.unexpected expected found span)) :
    match found with
    | .token kind word =>
        ∃ k, (Scan.ofText text).tokens[k]? = some ⟨kind, word, span⟩ ∧
          Viable ReadsCommand ((Scan.ofText text).tokens.take k) ∧
          ¬ Viable ReadsCommand ((Scan.ofText text).tokens.take (k + 1))
    | .endOfLine =>
        ∃ ts, (Scan.ofText text).result = .ok ts ∧ Viable ReadsCommand ts ∧
          ¬ Accepted ReadsCommand ts ∧ span = ⟨text.utf8ByteSize, text.utf8ByteSize⟩ := by
  have hspelled := @spelled_of_mem_ofText text
  have hfault := fault_command quoted_of_mem_ofText h
  rcases hfault.unexpected with
    ⟨us, t, rest, hts, rfl, rfl, hC, hbad⟩ | ⟨n, hending, rfl, rfl, hC⟩
  · rw [hts] at hspelled ⊢
    have hus : ∀ u ∈ us, Spelled u := fun u hu => hspelled u (by simp [hu])
    refine ⟨us.length, by simp, ?_, ?_⟩
    · rw [List.take_left]
      exact recognizes_command.viable_of_completes hus hC
    · rw [List.take_length_add_append]
      exact recognizes_command.not_viable hbad []
  · refine ⟨_, result_eq_ok_iff.2 ⟨rfl, n, hending⟩, ?_, ?_, ?_⟩
    · exact recognizes_command.viable_of_completes hspelled hC
    · refine recognizes_command.not_accepted (n := n) ?_
      intro c hc
      rw [Command.ofText, hending, hc] at h
      cases h
    · have hn := ending_of_complete hsize hending
      rw [Span.point, Span.ofRange_of_le (hn ▸ hsize) (hn ▸ hsize), hn]

theorem command_error_first_goto :
    "GOTO 1 2".utf8ByteSize ≤ Span.maxOffset ∧
    Command.ofText "GOTO 1 2" = .error (.unexpected .endOfLine (.token .num "2") ⟨7, 8⟩) ∧
    ∃ k, (Scan.ofText "GOTO 1 2").tokens[k]? = some ⟨.num, "2", ⟨7, 8⟩⟩ ∧
      Viable ReadsCommand ((Scan.ofText "GOTO 1 2").tokens.take k) ∧
      ¬ Viable ReadsCommand ((Scan.ofText "GOTO 1 2").tokens.take (k + 1)) := by
  have hsize : "GOTO 1 2".utf8ByteSize ≤ Span.maxOffset := by decide
  have herror : Command.ofText "GOTO 1 2" =
      .error (.unexpected .endOfLine (.token .num "2") ⟨7, 8⟩) := by
    cbv
  exact ⟨hsize, herror, command_error_first "GOTO 1 2" hsize herror⟩

/-! ## Errors of the scan -/

theorem alike_of_kind {t u : Token} (h : u.kind = t.kind) (ht : t.kind = .num ∨ t.kind = .relop) :
    Alike t u := by
  have hkeyword : t.kind ≠ .keyword := by
    rcases ht with ht | ht <;> rw [ht] <;> decide
  refine ⟨h, ?_⟩
  rw [Token.keyword?, Token.keyword?, h, if_neg hkeyword, if_neg hkeyword]

/-- A token of a list is its last one, or in front of it. -/
theorem last_or_before {us vs rest : List Token} {t v : Token} (h : us ++ t :: rest = vs ++ [v]) :
    (rest = [] ∧ us = vs ∧ t = v) ∨ ∃ ws, vs = us ++ t :: ws := by
  rcases List.eq_nil_or_concat rest with rfl | ⟨ws, w, rfl⟩
  · rcases List.append_inj' h rfl with ⟨rfl, hlast⟩
    cases hlast
    exact .inl ⟨rfl, rfl, rfl⟩
  · rw [List.concat_eq_append, ← List.cons_append, ← List.append_assoc] at h
    rcases List.append_inj' h rfl with ⟨rfl, -⟩
    exact .inr ⟨ws, rfl⟩

/-- If the scan fails behind viable tokens, then no fault is found before its error. Nor is one
found if only the value of the last token is at fault. -/
theorem Fault.eq_scan {α : Type} {p : Ending → List Token → Except ParseError α}
    {P : List Token → α → Prop} {R : String → Prop} {C : Expected → List Token → Prop}
    {ts : List Token} {e : ScanError} {e' : ParseError} (hR : Recognizes p P R)
    (h : Fault p C (.failed e) ts e')
    (hviable : Viable R ts ∨ ∃ (us : List Token) (t u : Token), ts = us ++ [t] ∧
      (t.kind = .num ∨ t.kind = .relop) ∧ u.kind = t.kind ∧ Viable R (us ++ [u])) :
    e' = .scan e := by
  cases h with
  | atEnd => rfl
  | @atToken us rest t expected hC hbad =>
      exfalso
      have ht := hbad t (.refl t)
      rcases hviable with hviable | ⟨vs, v, u, hts, hvalue, hkind, hviable⟩
      · exact hR.not_viable ht rest hviable
      -- a bad last token is bad with every value, and any other is among the viable ones
      · rcases last_or_before hts with ⟨-, rfl, rfl⟩ | ⟨ws, rfl⟩
        · exact hR.not_viable (hbad u (alike_of_kind hkind hvalue)) [] hviable
        · rw [List.append_assoc] at hviable
          exact hR.not_viable ht (ws ++ [u]) hviable
  | @atValue us rest t expected w hC hw hkind hvalue hbad =>
      rcases hviable with hviable | ⟨vs, v, u, hts, hvalue, hkind, hviable⟩
      · exact absurd hviable (hR.not_viable hbad rest)
      · rcases last_or_before hts with ⟨rfl, -, -⟩ | ⟨ws, rfl⟩
        · rfl
        · rw [List.append_assoc] at hviable
          exact absurd hviable (hR.not_viable hbad (ws ++ [u]))

/-- Of two places in a list one is in front of the other, if they are not the same. -/
theorem same_or_before {us vs rest more : List Token} {t v : Token}
    (h : us ++ t :: rest = vs ++ v :: more) :
    (us = vs ∧ t = v ∧ rest = more) ∨ (∃ ws, vs = us ++ t :: ws) ∨ ∃ ws, us = vs ++ v :: ws := by
  rcases List.append_eq_append_iff.1 h with ⟨ws, rfl, hrest⟩ | ⟨ws, rfl, hmore⟩
  · cases ws with
    | nil =>
        cases hrest
        exact .inl ⟨(List.append_nil us).symm, rfl, rfl⟩
    | cons w ws =>
        cases hrest
        exact .inr (.inl ⟨ws, rfl⟩)
  · cases ws with
    | nil =>
        cases hmore
        exact .inl ⟨List.append_nil vs, rfl, rfl⟩
    | cons w ws =>
        cases hmore
        exact .inr (.inr ⟨ws, rfl⟩)

theorem num_of_suggestion {expected : Expected} {w : Lexeme} (h : suggestion? expected = some w)
    (hw : w.kind = .num) : expected = .num := by
  cases expected <;> cases h <;> first | rfl | cases hw

/-- Where a number may stand, but not this one, the number is at fault. -/
theorem Fault.eq_reject {α : Type} {p : Ending → List Token → Except ParseError α}
    {P : List Token → α → Prop} {R : String → Prop} {C : Expected → List Token → Prop}
    {fin : Ending} {us rest : List Token} {t u : Token} {e : ParseError} (hR : Recognizes p P R)
    (h : Fault p C fin (us ++ t :: rest) e)
    (hC : ∀ expected vs, vs <+: us ++ t :: rest → C expected vs → Viable R vs)
    (ht : t.kind = .num) (hu : u.kind = .num) (hgood : Viable R (us ++ [u]))
    (hbad : ∀ more, ¬ Viable R (us ++ t :: more)) : e = fin.reject .num t rest := by
  have hviable : ∀ expected vs ws, vs = us ++ t :: ws → vs <+: us ++ t :: rest →
      ¬ C expected vs := by
    rintro expected vs ws rfl hprefix hvs
    exact hbad ws (hC expected _ hprefix hvs)
  generalize hts : us ++ t :: rest = ts at h hC hviable
  cases h with
  | @atEnd _ expected hvs => exact absurd hvs (hviable _ _ rest hts.symm (List.prefix_refl _))
  | @atToken vs more v expected hvs hv =>
      exfalso
      rcases same_or_before hts with ⟨rfl, rfl, rfl⟩ | ⟨ws, hws⟩ | ⟨ws, rfl⟩
      · -- a bad token is bad with every value
        exact hR.not_viable (hv u (alike_of_kind (hu.trans ht.symm) (.inl ht))) [] hgood
      · exact hviable _ _ ws hws (List.prefix_append _ _) hvs
      · rw [List.append_assoc] at hgood
        exact hR.not_viable (hv v (.refl v)) (ws ++ [u]) hgood
  | @atValue vs more v expected w hvs hw hkind _ hv =>
      rcases same_or_before hts with ⟨rfl, rfl, rfl⟩ | ⟨ws, hws⟩ | ⟨ws, rfl⟩
      · rw [num_of_suggestion hw (hkind.trans ht)]
      · exact absurd hvs (hviable _ _ ws hws (List.prefix_append _ _))
      · rw [List.append_assoc] at hgood
        exact absurd hgood (hR.not_viable hv (ws ++ [u]))

/-- The error of a scan that fails is the error of the line exactly if the tokens in front of it are
viable, or would be if the last of them, a number or a relational operator, had another value. -/
theorem line_scan_error_iff (text : String) (e : ScanError) :
    Tree.ofText text = .error (.scan e) ↔
      (Scan.ofText text).ending = .failed e ∧
        (Viable ReadsLine (Scan.ofText text).tokens ∨
          ∃ (us : List Token) (t u : Token),
            (Scan.ofText text).tokens = us ++ [t] ∧ (t.kind = .num ∨ t.kind = .relop) ∧
            ¬ Viable ReadsLine (us ++ [t]) ∧ u.kind = t.kind ∧ Viable ReadsLine (us ++ [u])) := by
  constructor
  · intro h
    have hspelled := @spelled_of_mem_ofText text
    rcases (fault_line quoted_of_mem_ofText h).scan with ⟨hending, hgood⟩
    refine ⟨hending, ?_⟩
    rcases hgood with ⟨expected, hC⟩ | ⟨us, t, expected, w, hts, hC, hw, hkind, hvalue, hbad⟩
    · exact .inl (recognizes_line.viable_of_completes hspelled hC)
    · refine .inr ⟨us, t, w.token, hts, hvalue, recognizes_line.not_viable hbad [], hkind, ?_⟩
      have hus : ∀ u ∈ us, Spelled u := fun u hu => hspelled u (by simp [hts, hu])
      rcases hC with ⟨rfl, -⟩ | hawaits
      · cases hw
      · exact recognizes_line.viable_of_awaits hus hw hawaits
  -- the scan did not get to the end, so the line is not read, and only one error is left for it
  · rintro ⟨hending, hviable⟩
    cases hread : Tree.ofText text with
    | ok a =>
        rcases line_sound quoted_of_mem_ofText hread with ⟨-, n, hcomplete⟩
        rw [hending] at hcomplete
        cases hcomplete
    | error e' =>
        have hfault := fault_line quoted_of_mem_ofText hread
        rw [hending] at hfault
        refine congrArg _ (hfault.eq_scan recognizes_line ?_)
        rcases hviable with hviable | ⟨us, t, u, hts, hvalue, -, hkind, hviable⟩
        · exact .inl hviable
        · exact .inr ⟨us, t, u, hts, hvalue, hkind, hviable⟩

/-- No line goes on behind `LET`, a variable and an operator that is not an equals sign. -/
theorem not_viable_let {w v op : Token} (hw : IsWord .letKw w) (hop : op.text ≠ "=") :
    ¬ Viable ReadsLine [w, v, op] := by
  have hbad : ∀ fin more a, Parse.line fin ([w, v] ++ op :: more) ≠ .ok a := by
    intro fin more a ha
    simp only [List.cons_append, Parse.line, isWord_ne_num hw, if_false] at ha
    rcases ok_of_bind ha with ⟨x, hx, -⟩
    rw [Follows.assign.statement_eq (keyword?_eq_some_iff.2 hw)] at hx
    rcases ok_of_bind hx with ⟨y, hy, -⟩
    exact hop (letStatement_behind hy).1
  exact recognizes_line.not_viable hbad []

/-- The operator in `LET A <` is at fault, and yet the character behind it is reported. -/
theorem line_scan_error_hides_fault :
    Tree.ofText "LET A < @" = .error (.scan (.unexpectedChar '@' ⟨8, 9⟩)) ∧
      ¬ Viable ReadsLine (Scan.ofText "LET A < @").tokens := by
  have hscan : Scan.ofText "LET A < @" =
      ⟨[⟨.keyword, "LET", ⟨0, 3⟩⟩, ⟨.var, "A", ⟨4, 5⟩⟩, ⟨.relop, "<", ⟨6, 7⟩⟩],
        .failed (.unexpectedChar '@' ⟨8, 9⟩)⟩ := by
    cbv
  refine ⟨by cbv, ?_⟩
  rw [hscan]
  exact not_viable_let ⟨rfl, rfl⟩ (by decide)

end Grammar
end TinyBasic
