import TinyBasic.Proofs.Fault.Viable
import TinyBasic.Proofs.Machine.Arithmetic

/-!
# Range — numbers that no line can hold

A number in a line has the value of its whole part, or the opposite of it behind a minus sign, and
there are greatest ones (`limit`). `Bounded ts` says that the numbers among the tokens `ts` are none
too large for their places, and every line that can be read is of that kind: the grammar is gone
through rule by rule, and two lists that are bounded are so one behind the other.

So where a number may stand in a line, but one that is too large stands there, nothing that begins so
is read, and the error is at this number (`line_error_of_tooLarge`).
-/

namespace TinyBasic
namespace Numeral

open Evaluation Grammar Lexicon Parse

/-! ## Limits -/

/-- The greatest number that a word can hold, or that it can hold the opposite of. -/
def limit (negative : Bool) : Nat :=
  if negative then 2 ^ 63 else 2 ^ 63 - 1

/-- The number or its opposite. -/
def signed (negative : Bool) (n : Nat) : Int :=
  if negative then -(n : Int) else n

theorem inRange_signed_iff {negative : Bool} {n : Nat} :
    Word.InRange (signed negative n) ↔ n ≤ limit negative := by
  cases negative with
  | false =>
      simp only [Word.InRange, signed, limit, Bool.false_eq_true, if_false]
      omega
  | true =>
      simp only [Word.InRange, signed, limit, if_true]
      omega

/-! ## Numbers among tokens -/

/-- Whether the last of the tokens is a minus sign. -/
def endsInMinus (ts : List Token) : Bool :=
  ts.getLast?.map Token.kind == some .minus

/-- No number among the tokens is too large for its place. -/
def Bounded (ts : List Token) : Prop :=
  ∀ before t after, ts = before ++ t :: after → t.kind = .num →
    wholePart t ≤ limit (endsInMinus before)

theorem limit_false_le (negative : Bool) : limit false ≤ limit negative := by
  cases negative <;> decide

theorem bounded_of_kind {t : Token} (h : t.kind ≠ .num) : Bounded [t] := by
  intro before u after heq hu
  rcases List.append_eq_singleton_iff.1 heq.symm with ⟨-, hlist⟩ | ⟨-, hlist⟩
  · cases hlist
    exact absurd hu h
  · cases hlist

namespace Bounded

theorem append {ts us : List Token} (hts : Bounded ts) (hus : Bounded us) : Bounded (ts ++ us) := by
  intro before t after heq ht
  rcases List.append_eq_append_iff.1 heq with ⟨ws, rfl, hsplit⟩ | ⟨ws, hsplit, hafter⟩
  · have hle := hus ws t after hsplit ht
    -- the first of the tokens `us` may stand behind a minus sign now
    cases ws with
    | nil => exact hle.trans (limit_false_le _)
    | cons w ws => rwa [endsInMinus, List.getLast?_append_of_ne_nil _ (List.cons_ne_nil w ws)]
  · cases ws with
    | nil => exact (hus [] t after hafter.symm ht).trans (limit_false_le _)
    | cons w ws =>
        cases hafter
        exact hts before t ws hsplit ht

theorem cons {t : Token} {ts : List Token} (ht : t.kind ≠ .num) (hts : Bounded ts) :
    Bounded (t :: ts) :=
  (bounded_of_kind ht).append hts

theorem of_append {ts us : List Token} (h : Bounded (ts ++ us)) : Bounded ts := by
  rintro before t after rfl
  exact h before t (after ++ us) (List.append_assoc ..)

end Bounded

theorem le_limit_of_literal {negative : Bool} {t : Token} {n : Word} (h : Literal negative t n) :
    wholePart t ≤ limit negative := by
  have hvalue : n.toInt = signed negative (wholePart t) := h.2
  rw [← inRange_signed_iff, ← hvalue]
  exact Word.inRange_toInt n

theorem bounded_literal {t : Token} {n : Word} (h : Literal false t n) : Bounded [t] := by
  intro before u after heq _
  rcases List.append_eq_singleton_iff.1 heq.symm with ⟨rfl, hlist⟩ | ⟨-, hlist⟩
  · cases hlist
    exact le_limit_of_literal h
  · cases hlist

theorem endsInMinus_of_sign {s : Token} {negative : Bool} (h : Sign s.kind negative) :
    endsInMinus [s] = negative := by
  generalize hkind : s.kind = kind at h
  cases h <;> simp [endsInMinus, hkind]

theorem bounded_signed {s t : Token} {negative : Bool} {n : Word} (hs : Sign s.kind negative)
    (h : Literal negative t n) : Bounded [s, t] := by
  intro before u after heq hu
  cases before with
  | nil =>
      cases heq
      exact absurd hu (Source.sign_ne_num hs)
  | cons b before =>
      cases before with
      | nil =>
          cases heq
          rw [endsInMinus_of_sign hs]
          exact le_limit_of_literal h
      | cons c before => simp at heq

theorem joins_ne_num {level : Level} {kind : Token.Kind} {op : ArithOp} (h : Joins level kind op) :
    kind ≠ .num := by
  cases h <;> decide

theorem bounded_of_derives {level : Level} {ts : List Token} {a : Tree} (h : Derives level ts a) :
    Bounded ts := by
  induction h with
  | literal hlit => exact bounded_literal hlit
  | var hkind => exact bounded_of_kind (by simp [hkind])
  | signedLiteral hs hlit => exact bounded_signed hs hlit
  | plusVar hs hkind => exact .cons (Source.sign_ne_num hs) (bounded_of_kind (by simp [hkind]))
  | minusVar hs hkind => exact .cons (Source.sign_ne_num hs) (bounded_of_kind (by simp [hkind]))
  | paren hl _ hr ih => exact .cons (by simp [hl]) (ih.append (bounded_of_kind (by simp [hr])))
  | factor _ ih => exact ih
  | product _ hop _ iha ihb => exact iha.append (.cons (joins_ne_num hop) ihb)
  | term _ ih => exact ih
  | sum _ hop _ iha ihb => exact iha.append (.cons (joins_ne_num hop) ihb)

theorem bounded_of_items {ts : List Token} {as : List Tree} (h : Items ts as) : Bounded ts := by
  have hitem : ∀ {ts a}, Item ts a → Bounded ts := by
    intro ts a h
    cases h with
    | text hkind => exact bounded_of_kind (by simp [hkind])
    | expr h => exact bounded_of_derives h
  induction h with
  | last h => exact hitem h
  | more h hc _ ih => exact (hitem h).append (.cons (by simp [hc]) ih)

theorem bounded_of_names {ts : List Token} {xs : List String} (h : Names ts xs) : Bounded ts := by
  induction h with
  | last hv => exact bounded_of_kind (by simp [hv])
  | more hv hc _ ih => exact .cons (by simp [hv]) (.cons (by simp [hc]) ih)

theorem bounded_of_statement {ts : List Token} {a : Tree} (h : Statement ts a) : Bounded ts := by
  induction h with
  | expr h => exact bounded_of_derives h
  | alone _ hw => exact bounded_of_kind (Source.isWord_ne_num hw)
  | print hw h => exact .cons (Source.isWord_ne_num hw) (bounded_of_items h)
  | ifThen hi ha hr hb hw _ ih =>
      have hbody := (bounded_of_derives hb).append (.cons (Source.isWord_ne_num hw) ih)
      exact .cons (Source.isWord_ne_num hi)
        ((bounded_of_derives ha).append (.cons (by simp [hr]) hbody))
  | goto hw h => exact .cons (Source.isWord_ne_num hw) (bounded_of_derives h)
  | gosub hw h => exact .cons (Source.isWord_ne_num hw) (bounded_of_derives h)
  | input hw h => exact .cons (Source.isWord_ne_num hw) (bounded_of_names h)
  | assign hw hv he _ h =>
      exact .cons (Source.isWord_ne_num hw)
        (.cons (by simp [hv]) (.cons (by simp [he]) (bounded_of_derives h)))
  | listLine hw hlit => exact .cons (Source.isWord_ne_num hw) (bounded_literal hlit)

theorem bounded_of_line {ts : List Token} {a : Tree} (h : Line ts a) : Bounded ts := by
  cases h with
  | numbered hlit h => exact (bounded_literal hlit).append (bounded_of_statement h)
  | plain h => exact bounded_of_statement h

theorem bounded_of_viable {ts : List Token} (h : Viable ReadsLine ts) : Bounded ts := by
  rcases h with ⟨text, htext, ls, hls⟩
  have hwords : (ts ++ ls.map Lexeme.token).map lexeme = (Scan.ofText text).tokens.map lexeme := by
    rw [← hls, List.map_append, map_lexeme_token]
  rcases recognizes_line.exists_derived htext hwords with ⟨a, ha⟩
  exact (bounded_of_line ha).of_append

/-! ## Lines -/

/-- Where a number may stand in a line, one that is too large for the place is what is wrong with the
line, unless the scan fails right behind it. -/
theorem line_error_of_tooLarge {text : String} {us rest : List Token} {t v : Token}
    (hts : (Scan.ofText text).tokens = us ++ t :: rest) (ht : t.kind = .num) (hv : v.kind = .num)
    (hviable : Viable ReadsLine (us ++ [v])) (hlarge : limit (endsInMinus us) < wholePart t)
    (hfollow : rest ≠ [] ∨ ∃ length, (Scan.ofText text).ending = .complete length) :
    Tree.ofText text = .error (.atToken .num t) := by
  have hbad : ∀ more, ¬ Viable ReadsLine (us ++ t :: more) := by
    intro more h
    exact absurd (bounded_of_viable h us t more rfl ht) (Nat.not_le.2 hlarge)
  have hspelled := @spelled_of_mem_ofText text
  rw [hts] at hspelled
  have hgood : ∀ expected vs, vs <+: us ++ t :: rest → Completes Line expected vs →
      Viable ReadsLine vs := by
    intro expected vs hfront hvs
    exact recognizes_line.viable_of_completes (fun u hu => hspelled u (hfront.subset hu)) hvs
  -- the line is not read, for all that can be read is bounded
  cases hread : Tree.ofText text with
  | ok a =>
      have hread' : Viable ReadsLine (us ++ t :: rest) := ⟨text, ⟨a, hread⟩, by rw [hts]⟩
      exact absurd hread' (hbad rest)
  | error e =>
      have hfault := fault_line quoted_of_mem_ofText hread
      rw [hts] at hfault
      -- a smaller number could stand there, so the fault is not in front of this one
      rw [hfault.eq_reject recognizes_line hgood ht hv hviable hbad, reject_eq_atToken hfollow]

end Numeral
end TinyBasic
