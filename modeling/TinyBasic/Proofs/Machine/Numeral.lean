import TinyBasic.Proofs.Fault.Range
import TinyBasic.Proofs.Grammar.Parts
import TinyBasic.Proofs.Machine.Safety
import TinyBasic.Proofs.Token.Casing

/-!
# Numeral — numbers in lines

A number in a line stands for its whole part, behind a minus sign for the opposite of it, and is read
exactly if a word can hold that. The sign belongs to the number, so the least word can be written
although its opposite is too large. A number that is too large is an error at its own token, unless
the scan fails right behind it (`Valued`). That is so wherever a number may stand in a line
(`line_error_of_tooLarge`).

The text of every word is such a number. So what is printed of a word can be read again, and a word
that is assigned to a letter can be seen again (`numerals_exact`).
-/

namespace TinyBasic
namespace Numeral

open Evaluation Grammar Lexicon Parse

/-! ## Values -/

/-- What reading the number token `t` in front of the tokens `rest` comes to, where `wrap` is what
becomes of its value. -/
inductive Valued {α : Type} (wrap : Word → α) (negative : Bool) (fin : Ending) (t : Token)
    (rest : List Token) : Except ParseError α → Prop where
  | exact {n : Word} :
      wholePart t ≤ limit negative → n.toInt = signed negative (wholePart t) →
        Valued wrap negative fin t rest (.ok (wrap n))
  | tooLarge :
      limit negative < wholePart t → (rest ≠ [] ∨ ∃ length, fin = .complete length) →
        Valued wrap negative fin t rest (.error (.atToken .num t))
  /-- The number is too large, but the scan fails right behind it. -/
  | cutOff {e : ScanError} :
      limit negative < wholePart t → rest = [] → fin = .failed e →
        Valued wrap negative fin t rest (.error (.scan e))

section Valued

variable {α : Type} {negative : Bool} {fin : Ending} {t : Token} {rest : List Token}

theorem valued_number (fin : Ending) (negative : Bool) (t : Token) (rest : List Token) :
    Valued id negative fin t rest (number fin negative t rest) := by
  have hvalue : t.value? negative = Word.ofInt? (signed negative (wholePart t)) :=
    t.value?_eq negative
  rw [number, hvalue]
  by_cases hle : wholePart t ≤ limit negative
  · rcases Word.ofInt?_of_inRange (inRange_signed_iff.2 hle) with ⟨n, hn, htoInt⟩
    rw [hn]
    exact .exact hle htoInt
  · have hlarge := Nat.lt_of_not_le hle
    rw [Word.ofInt?_of_not_inRange (mt inRange_signed_iff.1 hle)]
    -- the error of the scan comes first only if nothing stands between
    cases rest with
    | cons u rest => exact .tooLarge hlarge (.inl (List.cons_ne_nil u rest))
    | nil =>
        cases fin with
        | complete n => exact .tooLarge hlarge (.inr ⟨n, rfl⟩)
        | failed e => exact .cutOff hlarge rfl rfl

theorem Valued.bind_pure {r : Except ParseError Word} (h : Valued id negative fin t rest r)
    (wrap : Word → α) : Valued wrap negative fin t rest (do return wrap (← r)) := by
  cases h with
  | exact hle hn => exact .exact hle hn
  | tooLarge hlarge hrest => exact .tooLarge hlarge hrest
  | cutOff hlarge hrest hfin => exact .cutOff hlarge hrest hfin

end Valued

/-! ## Numbers among tokens -/

/-- The tokens in front of a number that belong to it: a sign or none. -/
inductive Front : Bool → List Token → Prop where
  | none : Front false []
  | sign {s : Token} {negative : Bool} : Sign s.kind negative → Front negative [s]

/-- A number with its sign is a factor, whatever follows. -/
theorem valued_factor {negative : Bool} {ss : List Token} (hss : Front negative ss) {t : Token}
    (ht : t.kind = .num) (fin : Ending) (rest : List Token) :
    Valued (fun n => (Tree.num n, ss.length + 1)) negative fin t rest
      (factor fin (ss ++ t :: rest)) := by
  have hnumber := valued_number fin negative t rest
  cases hss with
  | none =>
      rw [List.nil_append, factor]
      simp only [ht]
      exact hnumber.bind_pure _
  | @sign s _ hs =>
      have hfactor : factor fin ([s] ++ t :: rest) = do
          return (.num (← number fin negative t rest), 2) := by
        generalize hkind : s.kind = kind at hs
        cases hs with
        | plus | minus =>
            simp only [List.singleton_append, factor, hkind, signedOperand, ht, bind_assoc,
              pure_bind]
      rw [hfactor]
      exact hnumber.bind_pure _

theorem valued_listStatement {t : Token} (ht : t.kind = .num) (fin : Ending) (rest : List Token) :
    Valued (fun n => (Tree.listLine (.num n), 1)) false fin t rest
      (listStatement fin (t :: rest)) := by
  rw [listStatement, if_pos ht]
  exact (valued_number fin false t rest).bind_pure _

theorem derives_numeral {negative : Bool} {ss : List Token} (hss : Front negative ss) {t : Token}
    {n : Word} (h : Literal negative t n) : Derives .expr (ss ++ [t]) (.num n) := by
  cases hss with
  | none => exact .term (.factor (.literal h))
  | sign hs => exact .term (.factor (.signedLiteral hs h))

/-! ## Numbers behind `PRINT` -/

theorem Front.endsInMinus_eq {negative : Bool} {ss : List Token} (hss : Front negative ss)
    {w : Token} (hw : w.kind ≠ .minus) : endsInMinus (w :: ss) = negative := by
  cases hss with
  | none => simp [endsInMinus, hw]
  | @sign s _ hs =>
      rw [endsInMinus, List.getLast?_cons_cons]
      exact endsInMinus_of_sign hs

/-- Behind `PRINT` a number may stand, with a sign or without one. -/
theorem viable_print {negative : Bool} {ss : List Token} (hss : Front negative ss) {w : Token}
    (hw : IsWord .print w) (hspelled : ∀ u ∈ w :: ss, Spelled u) :
    Viable ReadsLine (w :: ss ++ [(Source.number 1).token]) := by
  rcases exists_literal_one negative with ⟨n, hn⟩
  have hstatement : Statement (w :: (ss ++ [(Source.number 1).token])) (.print [.num n]) :=
    .print hw (.last (.expr (derives_numeral hss hn)))
  have hline : Line (w :: ss ++ [(Source.number 1).token]) (.print [.num n]) := by
    refine .plain hstatement ?_
    intro t ht
    cases ht
    exact Source.isWord_ne_num hw
  have hall : ∀ u ∈ w :: ss ++ [(Source.number 1).token], Spelled u :=
    List.forall_mem_append.2 ⟨hspelled, List.forall_mem_singleton.2 (Source.valid_number 1)⟩
  rcases recognizes_line.accepted hall hline with ⟨text, htext, hwords⟩
  refine ⟨text, htext, ?_⟩
  rw [hwords]

/-! ## Numbers in texts -/

/-- The texts of a sign, and whether they are a minus sign. -/
inductive SignText : String → Bool → Prop where
  | none : SignText "" false
  | plus : SignText "+" false
  | minus : SignText "-" true

/-- A number is scanned as its sign, if it has one, and one token for all the rest of it. -/
theorem ofChars_numeral {sign x : String} {negative : Bool} (hsign : SignText sign negative)
    {after : List Char} (hx : Longest .num x.toList (x.toList ++ after)) (pos : Nat) :
    ∃ ss, Front negative ss ∧
      Scan.ofChars pos (sign.toList ++ (x.toList ++ after)) =
        (Scan.ofChars (pos + sign.utf8ByteSize + x.utf8ByteSize) after).behind
          (ss ++ [⟨.num, x, .ofRange (pos + sign.utf8ByteSize)
            (pos + sign.utf8ByteSize + x.utf8ByteSize)⟩]) := by
  have hnumber := ofChars_longest hx
  rw [String.ofList_toList, byteLength_toList] at hnumber
  cases hsign with
  | none => exact ⟨[], .none, hnumber pos⟩
  | plus =>
      refine ⟨[⟨.plus, "+", .ofRange pos (pos + 1)⟩], .sign .plus, ?_⟩
      exact (ofChars_mark (by decide) _ pos).trans (congrArg _ (hnumber (pos + 1)))
  | minus =>
      refine ⟨[⟨.minus, "-", .ofRange pos (pos + 1)⟩], .sign .minus, ?_⟩
      exact (ofChars_mark (by decide) _ pos).trans (congrArg _ (hnumber (pos + 1)))

/-- A number is an expression if it stands for a word. -/
theorem operand_numeral {sign x : String} {negative : Bool} (hsign : SignText sign negative)
    (hx : Spells .num x.toList) {t : Token} (ht : t.text = x) {n : Word}
    (hn : n.toInt = signed negative (wholePart t)) : Operand (sign ++ x) (.num n) := by
  rcases ofChars_numeral hsign (longest_of_spells hx separated_nil) 0 with ⟨ss, hss, hscan⟩
  rw [List.append_nil, ← String.toList_append, Scan.ofChars] at hscan
  subst ht
  generalize Span.ofRange _ _ = span at hscan
  have hderives : Derives .expr (ss ++ [⟨.num, t.text, span⟩]) (.num n) :=
    derives_numeral hss ⟨rfl, hn⟩
  refine operand_iff.2 ⟨_, ⟨rfl, ?_⟩, hderives.reword ?_⟩
  · rw [Scan.ofText, hscan]
    exact ⟨_, rfl⟩
  · rw [map_lexeme_token, Scan.ofText, hscan, Scan.behind, List.append_nil]

/-- The scan of a `PRINT` line goes on behind the space as if the rest stood alone. -/
theorem ofText_print (text : String) :
    Scan.ofText ("PRINT" ++ " " ++ text) =
      (Scan.ofChars 6 text.toList).behind [⟨.keyword, "PRINT", ⟨0, 5⟩⟩] := by
  have hscan : Scan.ofText "PRINT" = ⟨[⟨.keyword, "PRINT", ⟨0, 5⟩⟩], .complete 5⟩ := by
    cbv
  have hending : (Scan.ofText "PRINT").ending = .complete 5 := by
    rw [hscan]
  rw [ofText_across hending, hscan]
  rfl

/-- A number that is too large is reported where it stands, unless the scan fails right behind it. -/
theorem ofText_tooLarge {sign x after : String} {negative : Bool} (hsign : SignText sign negative)
    (hx : Longest .num x.toList (x.toList ++ after.toList)) {t : Token} (ht : t.text = x)
    (hlarge : limit negative < wholePart t)
    (hfollow : (Scan.ofText after).tokens ≠ [] ∨
      ∃ length, (Scan.ofText after).ending = .complete length) :
    Tree.ofText ("PRINT" ++ " " ++ (sign ++ x ++ after)) =
      .error (.unexpected .num (.token .num x) (.ofRange (6 + sign.utf8ByteSize)
        (6 + sign.utf8ByteSize + x.utf8ByteSize))) := by
  subst ht
  rcases ofChars_numeral hsign hx 6 with ⟨ss, hss, hscan⟩
  generalize 6 + sign.utf8ByteSize = start at hscan ⊢
  generalize start + t.text.utf8ByteSize = stop at hscan ⊢
  have hwords := ofChars_words stop 0 after.toList
  have hline := ofText_print (sign ++ t.text ++ after)
  rw [String.toList_append, String.toList_append, List.append_assoc, hscan] at hline
  -- what follows is scanned further on than alone, to as many tokens and no other end
  have hcomplete : (Scan.ofChars stop after.toList).tokens ≠ [] ∨
      ∃ length, (Scan.ofChars stop after.toList).ending = .complete length := by
    refine hfollow.imp ?_ hwords.2.2
    intro hne hnil
    rw [hnil] at hwords
    exact hne (List.map_eq_nil_iff.1 hwords.1.symm)
  have htokens : (Scan.ofText ("PRINT" ++ " " ++ (sign ++ t.text ++ after))).tokens =
      ⟨.keyword, "PRINT", ⟨0, 5⟩⟩ :: ss ++
        ⟨.num, t.text, .ofRange start stop⟩ :: (Scan.ofChars stop after.toList).tokens := by
    rw [hline]
    simp [Scan.behind]
  have hspelled := @spelled_of_mem_ofText ("PRINT" ++ " " ++ (sign ++ t.text ++ after))
  rw [htokens] at hspelled
  have hviable := viable_print hss (w := ⟨.keyword, "PRINT", ⟨0, 5⟩⟩) ⟨rfl, rfl⟩
    fun u hu => hspelled u (List.mem_append_left _ hu)
  refine line_error_of_tooLarge htokens rfl rfl hviable ?_ ?_
  · rw [hss.endsInMinus_eq (by decide)]
    exact hlarge
  · rw [hline]
    exact hcomplete

/-! ## Words read back -/

/-- The text of a word is an expression that stands for the word. -/
theorem operand_decimal (n : Word) : Operand (Decimal.ofInt n.toInt) (.num n) := by
  have hspells : Spells .num (Decimal.ofNat n.toInt.natAbs).toList := Source.valid_number _
  have hwhole : wholePart (Source.number n.toInt.natAbs).token = n.toInt.natAbs :=
    Source.wholePart_of_lexeme (lexeme_token _)
  by_cases hn : n.toInt < 0
  · rw [Decimal.ofInt, if_pos hn]
    refine operand_numeral .minus hspells (t := (Source.number n.toInt.natAbs).token) rfl ?_
    rw [hwhole, signed, if_pos rfl]
    omega
  · rw [Decimal.ofInt, if_neg hn, ← String.empty_append (s := Decimal.ofNat _)]
    refine operand_numeral .none hspells (t := (Source.number n.toInt.natAbs).token) rfl ?_
    rw [hwhole, signed, if_neg Bool.false_ne_true]
    omega

theorem ofText_letter {x : String} (hx : Shape.IsLetter x) : Tree.ofText x = .ok (.var x) := by
  have hwords : Words x [Source.letter x] := words_of_valid (Source.valid_letter hx)
  have hexpr : Derives .expr [(Source.letter x).token] (.var x) := .term (.factor (.var rfl))
  refine ofText_eq_ok_iff_words.2 ⟨_, hwords, .plain (.expr hexpr) ?_⟩
  intro t ht hnum
  cases ht
  cases hnum

theorem ofText_assign {x e : String} {a : Tree} (hx : Shape.IsLetter x) (he : Operand e a) :
    Tree.ofText ("LET" ++ " " ++ x ++ " " ++ "=" ++ " " ++ e) = .ok (.assign x a) := by
  rcases operand_iff.1 he with ⟨ls, hls, hexpr⟩
  have hlet := words_keyword .letKw
  have hletter := words_of_valid (Source.valid_letter hx)
  have hequals := words_of_valid (Source.valid_comparison .equal)
  have hwords := ((hlet.append hletter).append hequals).append hls
  refine ofText_eq_ok_iff_words.2 ⟨_, hwords, .plain ?_ ?_⟩
  · exact .assign (Source.isWord_keyword .letKw) rfl rfl rfl hexpr
  · intro t ht hnum
    cases ht
    cases hnum

theorem run_print (n : Word) (m : Machine) :
    (Line.run ("PRINT" ++ " " ++ Decimal.ofInt n.toInt)).run m =
      .ok .done { m with printed := m.printed.println (Decimal.ofInt n.toInt) } := by
  have hitems : (Tree.evalItems [.num n]).run m = .ok [Decimal.ofInt n.toInt] m := rfl
  rw [Running.run_line, command_ofText_eq_line_iff.2 (operand_decimal n).printed]
  simp only [Tree.eval, EStateM.run_bind, hitems, run_println, EStateM.run_pure, String.join_cons,
    String.join_nil, String.append_empty]

theorem run_let {x : String} {l : Letter} (hx : Shape.IsLetter x) (hl : Letter.ofName? x = some l)
    (n : Word) (m : Machine) :
    (Line.run ("LET" ++ " " ++ x ++ " " ++ "=" ++ " " ++ Decimal.ofInt n.toInt)).run m =
      .ok .done { m with memory := m.memory.write l n } := by
  have htree := ofText_assign hx (operand_decimal n)
  rw [Running.run_line, command_ofText_eq_line_iff.2 htree]
  simp only [Tree.eval, EStateM.run_bind, EStateM.run_pure, Value.asInt, run_ofExcept_ok,
    run_assign hl]

theorem run_letter {x : String} {l : Letter} (hx : Shape.IsLetter x)
    (hl : Letter.ofName? x = some l) (m : Machine) :
    (Line.run x).run m = .ok (.value (.int (m.memory.read l))) m := by
  rw [Running.run_line, command_ofText_eq_line_iff.2 (ofText_letter hx)]
  simp only [Tree.eval, EStateM.run_bind, run_readVariable hl, EStateM.run_pure]

theorem not_isWhiteSpace_of_isUpper {c : Char} (h : c.isUpper = true) :
    Text.isWhiteSpace c = false := by
  have hrange := toNat_of_isUpper h
  simp only [Text.isWhiteSpace, Text.whiteSpaceRanges, List.any_cons, List.any_nil, Bool.or_false,
    Bool.or_eq_false_iff, Bool.and_eq_false_iff, decide_eq_false_iff_not]
  omega

/-- A letter is a line to be read, and it is a capital already. -/
theorem ofLine_letter {x : String} {l : Letter} (hx : Shape.IsLetter x)
    (hl : Letter.ofName? x = some l) {o : Options} (hmode : o.mode = .eval) (m : Machine) :
    Reply.ofLine o x m = (⟨.proceed, Decimal.ofInt (m.memory.read l).toInt ++ "\n"⟩, m) := by
  have hread : Reply.readAs o x = x := by
    rcases ofText_eq_ok_iff.1 (ofText_letter hx) with ⟨ts, hscan, -⟩
    rw [Reply.readAs, upcase_of_scanned hscan, ite_self]
  have htrim : ∃ c, Text.trim x.toList = [c] := by
    rcases hx with ⟨c, hc, hlist⟩
    refine ⟨c, ?_⟩
    simp [hlist, Text.trim, Text.dropTrailing, not_isWhiteSpace_of_isUpper hc]
  rcases htrim with ⟨c, htrim⟩
  have hblank : Reply.isBlank x = false := by
    rw [Reply.isBlank, htrim]
    rfl
  have hexit : Reply.isExit x = false := by
    rw [Reply.isExit, htrim]
    simp
  rw [Running.ofLine_eval hmode hblank hexit, hread, run_letter hx hl]
  dsimp only
  rw [Safety.echo_int]

/-! ## Exactness -/

/-- The text `x`, which is scanned as the number token `t`, is read exactly. -/
structure ReadExactly (x : String) (t : Token) : Prop where
  /-- As a factor of any line, with its sign if it has one, and whatever follows. -/
  factor : ∀ u, lexeme u = lexeme t → ∀ negative ss, Front negative ss → ∀ fin rest,
    Valued (fun n => (.num n, ss.length + 1)) negative fin u rest
      (Parse.factor fin (ss ++ u :: rest))
  /-- As the line to be listed. -/
  listed : ∀ u, lexeme u = lexeme t → ∀ fin rest,
    Valued (fun n => (.listLine (.num n), 1)) false fin u rest (listStatement fin (u :: rest))
  /-- As the number of a line, which is read before the line is. -/
  label : ∀ u, lexeme u = lexeme t → ∀ fin rest, ∃ r, Valued id false fin u rest r ∧
    Parse.line fin (u :: rest) = do
      let n ← r
      return .numbered n (← wholeStatement fin rest)
  /-- As an expression of its own. -/
  expression : ∀ sign negative, SignText sign negative → ∀ a, Operand (sign ++ x) a ↔
    wholePart t ≤ limit negative ∧ ∃ n : Word, a = .num n ∧ n.toInt = signed negative (wholePart t)
  /-- Wherever a number may stand in a line: one that is too large for the place is what is wrong with
  the line, unless the scan fails right behind it. -/
  rejected : ∀ text us u rest v, (Scan.ofText text).tokens = us ++ u :: rest → lexeme u = lexeme t →
    v.kind = .num → Viable ReadsLine (us ++ [v]) → limit (endsInMinus us) < wholePart t →
      (rest ≠ [] ∨ ∃ length, (Scan.ofText text).ending = .complete length) →
      Tree.ofText text = .error (.atToken .num u)
  /-- As the first expression of a line, whatever follows, unless that makes another number of it or
  the scan fails right behind it. -/
  tooLarge : ∀ sign negative, SignText sign negative → limit negative < wholePart t →
    ∀ after : String, Longest .num x.toList (x.toList ++ after.toList) →
      ((Scan.ofText after).tokens ≠ [] ∨ ∃ length, (Scan.ofText after).ending = .complete length) →
      Tree.ofText ("PRINT" ++ " " ++ (sign ++ x ++ after)) =
        .error (.unexpected .num (.token .num x) (.ofRange (6 + sign.utf8ByteSize)
          (6 + sign.utf8ByteSize + x.utf8ByteSize)))

/-- The text of the word is printed as it is, and is seen again of a letter that it was assigned to. -/
structure ReadBack (n : Word) (m : Machine) : Prop where
  print : (Line.run ("PRINT" ++ " " ++ Decimal.ofInt n.toInt)).run m =
    .ok .done { m with printed := m.printed.println (Decimal.ofInt n.toInt) }
  /-- What is printed ends in a newline. -/
  newline : (m.printed.println (Decimal.ofInt n.toInt)).text =
    m.printed.text ++ (Decimal.ofInt n.toInt ++ "\n")
  echo : ∀ x, Shape.IsLetter x → ∃ m',
    (Line.run ("LET" ++ " " ++ x ++ " " ++ "=" ++ " " ++ Decimal.ofInt n.toInt)).run m =
      .ok .done m' ∧
    (Line.run x).run m' = .ok (.value (.int n)) m' ∧
    ∀ o : Options, o.mode = .eval →
      Reply.ofLine o x m' = (⟨.proceed, Decimal.ofInt n.toInt ++ "\n"⟩, m')

theorem operand_numeral_iff {sign x : String} {negative : Bool} (hsign : SignText sign negative)
    (hx : Spells .num x.toList) {t : Token} (ht : t.text = x) (a : Tree) :
    Operand (sign ++ x) a ↔ wholePart t ≤ limit negative ∧
      ∃ n : Word, a = .num n ∧ n.toInt = signed negative (wholePart t) := by
  constructor
  · intro ha
    by_cases hle : wholePart t ≤ limit negative
    · refine ⟨hle, ?_⟩
      rcases Word.ofInt?_of_inRange (inRange_signed_iff.2 hle) with ⟨n, -, hn⟩
      have hprinted := (operand_numeral hsign hx ht hn).printed
      rw [ha.printed] at hprinted
      cases hprinted
      exact ⟨n, rfl, hn⟩
    -- a number that is too large is not read by itself either
    · have hlongest : Longest .num x.toList (x.toList ++ "".toList) :=
        longest_of_spells hx separated_nil
      have hcomplete : (Scan.ofText "").ending = .complete 0 := by
        cbv
      have herror := ofText_tooLarge hsign hlongest ht (Nat.lt_of_not_le hle) (.inr ⟨0, hcomplete⟩)
      rw [String.append_empty, ha.printed] at herror
      cases herror
  · rintro ⟨-, n, rfl, hn⟩
    exact operand_numeral hsign hx ht hn

/-- Numbers in lines mean their whole part, exactly as far as words reach, and the text of a word
reads back as the word. -/
theorem numerals_exact :
    (∀ x t, (Scan.ofText x).result = .ok [t] → t.kind = .num → t.text = x → ReadExactly x t) ∧
      ∀ n m, ReadBack n m := by
  constructor
  · intro x t hscan hkind htext
    have hspells : Spells .num x.toList := by
      have htokens : (Scan.ofText x).tokens = [t] := (result_eq_ok_iff.1 hscan).1
      have hmem : t ∈ (Scan.ofText x).tokens := by
        rw [htokens]
        exact List.mem_singleton_self t
      have hspelled := spelled_of_mem_ofText t hmem
      rwa [Spelled, hkind, htext] at hspelled
    refine ⟨?_, ?_, ?_, ?_, ?_, ?_⟩
    · intro u hu negative ss hss
      exact valued_factor hss ((kind_reword hu).trans hkind)
    · intro u hu
      exact valued_listStatement ((kind_reword hu).trans hkind)
    · intro u hu fin rest
      refine ⟨_, valued_number fin false u rest, ?_⟩
      rw [Parse.line, if_pos ((kind_reword hu).trans hkind)]
    · intro sign negative hsign
      exact operand_numeral_iff hsign hspells htext
    · intro text us u rest v hts hu hv hviable hlarge hfollow
      have hwhole : wholePart u = wholePart t := by
        rw [wholePart, wholePart, text_reword hu]
      rw [← hwhole] at hlarge
      exact line_error_of_tooLarge hts ((kind_reword hu).trans hkind) hv hviable hlarge hfollow
    · intro sign negative hsign hlarge after hlongest
      exact ofText_tooLarge hsign hlongest htext hlarge
  · intro n m
    refine ⟨run_print n m, Printout.text_println _ _, ?_⟩
    intro x hx
    rcases ofName?_of_isLetter hx with ⟨l, hl⟩
    refine ⟨_, run_let hx hl n m, ?_, ?_⟩
    · rw [run_letter hx hl, Variables.read_write_self]
    · intro o hmode
      rw [ofLine_letter hx hl hmode, Variables.read_write_self]

/-- The least word, written with a zero in front and a fraction: only a minus sign makes it one. -/
theorem numerals_exact_least :
    (Scan.ofText "09223372036854775808.75").result =
      .ok [⟨.num, "09223372036854775808.75", ⟨0, 23⟩⟩] ∧
    Operand "-09223372036854775808.75" (.num Int64.minValue) ∧
    Tree.ofText "PRINT +09223372036854775808.75,@" =
      .error (.unexpected .num (.token .num "09223372036854775808.75") ⟨7, 30⟩) ∧
    Tree.ofText "LET A=1+(2*09223372036854775808.75" =
      .error (.unexpected .num (.token .num "09223372036854775808.75") ⟨11, 34⟩) ∧
    (Line.run "PRINT -9223372036854775808").run {} =
      .ok .done { printed := ⟨["-9223372036854775808"]⟩ } ∧
    Printout.text ⟨["-9223372036854775808"]⟩ = "-9223372036854775808\n" := by
  have hscan : (Scan.ofText "09223372036854775808.75").result =
      .ok [⟨.num, "09223372036854775808.75", ⟨0, 23⟩⟩] := by
    cbv
  have hwhole : wholePart ⟨.num, "09223372036854775808.75", ⟨0, 23⟩⟩ = 2 ^ 63 := by
    cbv
  have hexact := numerals_exact.1 _ _ hscan rfl rfl
  have hleast := (hexact.expression "-" true .minus (.num Int64.minValue)).2
    ⟨by rw [hwhole]; decide, _, rfl, by rw [hwhole]; decide⟩
  have hlexeme : Scan.lexeme? '0' "9223372036854775808.75,@".toList = some (.num, 22) := by
    cbv
  have hafter : (Scan.ofText ",@").tokens = [⟨.comma, ",", ⟨0, 1⟩⟩] := by
    cbv
  have hlarge := hexact.tooLarge "+" false .plus (by rw [hwhole]; decide) ",@"
    (longest_of_lexeme? hlexeme) (.inl (by simp [hafter]))
  -- another number may stand in the same place, as in `LET A=1+(2*3)`
  have hsmall : Scan.ofText "LET A=1+(2*3)" =
      ⟨[⟨.keyword, "LET", ⟨0, 3⟩⟩, ⟨.var, "A", ⟨4, 5⟩⟩, ⟨.relop, "=", ⟨5, 6⟩⟩, ⟨.num, "1", ⟨6, 7⟩⟩,
        ⟨.plus, "+", ⟨7, 8⟩⟩, ⟨.lparen, "(", ⟨8, 9⟩⟩, ⟨.num, "2", ⟨9, 10⟩⟩, ⟨.times, "*", ⟨10, 11⟩⟩,
        ⟨.num, "3", ⟨11, 12⟩⟩, ⟨.rparen, ")", ⟨12, 13⟩⟩], .complete 13⟩ := by
    cbv
  have hread : ReadsLine "LET A=1+(2*3)" :=
    ⟨.assign "A" (.arith .add (.num 1) (.arith .mul (.num 2) (.num 3))), by cbv⟩
  have hscanned : Scan.ofText "LET A=1+(2*09223372036854775808.75" =
      ⟨(Scan.ofText "LET A=1+(2*3)").tokens.take 8 ++
        [⟨.num, "09223372036854775808.75", ⟨11, 34⟩⟩], .complete 34⟩ := by
    rw [hsmall]
    cbv
  have hviable : Viable ReadsLine
      ((Scan.ofText "LET A=1+(2*3)").tokens.take 8 ++ [⟨.num, "3", ⟨11, 12⟩⟩]) := by
    refine ⟨_, hread, [⟨.rparen, ")"⟩], ?_⟩
    rw [hsmall]
    rfl
  have hrejected := hexact.rejected "LET A=1+(2*09223372036854775808.75"
    ((Scan.ofText "LET A=1+(2*3)").tokens.take 8) ⟨.num, "09223372036854775808.75", ⟨11, 34⟩⟩ []
    ⟨.num, "3", ⟨11, 12⟩⟩ (by rw [hscanned]) rfl rfl hviable (by rw [hwhole, hsmall]; decide)
    (.inr ⟨34, by rw [hscanned]⟩)
  have hback := numerals_exact.2 Int64.minValue {}
  exact ⟨hscan, hleast, hlarge, hrejected, hback.print, hback.newline⟩

end Numeral
end TinyBasic
