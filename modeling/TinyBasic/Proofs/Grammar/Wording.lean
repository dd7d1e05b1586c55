import TinyBasic.Proofs.Grammar.Basic
import TinyBasic.Proofs.Token.Spacing

/-!
# Wording — the grammar looks at words only

What is derived from tokens is derived from all tokens that are the same words, wherever in a line
these stand.
-/

namespace TinyBasic
namespace Grammar

open Lexicon

/-! ## Tokens -/

section Tokens

variable {t u : Token} (h : lexeme u = lexeme t)
include h

theorem kind_reword : u.kind = t.kind :=
  congrArg Lexeme.kind h

theorem text_reword : u.text = t.text :=
  congrArg Lexeme.text h

theorem IsWord.reword {k : Keyword} (ht : IsWord k t) : IsWord k u := by
  rw [IsWord, kind_reword h, text_reword h]
  exact ht

theorem Literal.reword {negative : Bool} {n : Word} (ht : Literal negative t n) :
    Literal negative u n := by
  rw [Literal, wholePart, kind_reword h, text_reword h]
  exact ht

theorem Sign.reword {negative : Bool} (ht : Sign t.kind negative) : Sign u.kind negative := by
  rw [kind_reword h]
  exact ht

theorem Joins.reword {level : Level} {op : ArithOp} (ht : Joins level t.kind op) :
    Joins level u.kind op := by
  rw [kind_reword h]
  exact ht

end Tokens

theorem reword_pair {t₁ t₂ : Token} {us : List Token} (h : us.map lexeme = [t₁, t₂].map lexeme) :
    ∃ u₁ u₂, us = [u₁, u₂] ∧ lexeme u₁ = lexeme t₁ ∧ lexeme u₂ = lexeme t₂ := by
  rcases List.map_eq_cons_iff.1 h with ⟨u₁, us, rfl, hu₁, h⟩
  rcases List.map_eq_singleton_iff.1 h with ⟨u₂, rfl, hu₂⟩
  exact ⟨u₁, u₂, rfl, hu₁, hu₂⟩

/-- Words in two parts, with a word between them. -/
theorem reword_append_cons {ts₁ ts₂ us : List Token} {t : Token}
    (h : us.map lexeme = (ts₁ ++ t :: ts₂).map lexeme) :
    ∃ us₁ u us₂, us = us₁ ++ u :: us₂ ∧ us₁.map lexeme = ts₁.map lexeme ∧ lexeme u = lexeme t ∧
      us₂.map lexeme = ts₂.map lexeme := by
  rw [List.map_append] at h
  rcases List.map_eq_append_iff.1 h with ⟨us₁, us, rfl, h₁, h⟩
  rcases List.map_eq_cons_iff.1 h with ⟨u, us₂, rfl, hu, h₂⟩
  exact ⟨us₁, u, us₂, rfl, h₁, hu, h₂⟩

/-! ## Expressions -/

theorem Derives.reword {level : Level} {ts us : List Token} {a : Tree} (h : Derives level ts a)
    (hus : us.map lexeme = ts.map lexeme) : Derives level us a := by
  induction h generalizing us with
  | literal hlit =>
      rcases List.map_eq_singleton_iff.1 hus with ⟨u, rfl, hu⟩
      exact .literal (hlit.reword hu)
  | var hkind =>
      rcases List.map_eq_singleton_iff.1 hus with ⟨u, rfl, hu⟩
      rw [← text_reword hu]
      exact .var ((kind_reword hu).trans hkind)
  | signedLiteral hs hlit =>
      rcases reword_pair hus with ⟨s, u, rfl, hs', hu⟩
      exact .signedLiteral (hs.reword hs') (hlit.reword hu)
  | plusVar hs hkind =>
      rcases reword_pair hus with ⟨s, u, rfl, hs', hu⟩
      rw [← text_reword hu]
      exact .plusVar (hs.reword hs') ((kind_reword hu).trans hkind)
  | minusVar hs hkind =>
      rcases reword_pair hus with ⟨s, u, rfl, hs', hu⟩
      rw [← text_reword hu]
      exact .minusVar (hs.reword hs') ((kind_reword hu).trans hkind)
  | paren hl _ hr ih =>
      rcases List.map_eq_cons_iff.1 hus with ⟨l, us, rfl, hl', hus⟩
      rcases reword_append_cons hus with ⟨vs, r, ns, rfl, hvs, hr', hnil⟩
      rw [List.map_eq_nil_iff.1 hnil]
      exact .paren ((kind_reword hl').trans hl) (ih hvs) ((kind_reword hr').trans hr)
  | factor _ ih => exact .factor (ih hus)
  | product _ hop _ iha ihb =>
      rcases reword_append_cons hus with ⟨vs, o, ws, rfl, hvs, ho, hws⟩
      exact .product (iha hvs) (hop.reword ho) (ihb hws)
  | term _ ih => exact .term (ih hus)
  | sum _ hop _ iha ihb =>
      rcases reword_append_cons hus with ⟨vs, o, ws, rfl, hvs, ho, hws⟩
      exact .sum (iha hvs) (hop.reword ho) (ihb hws)

/-! ## Statements -/

theorem Item.reword {ts us : List Token} {a : Tree} (h : Item ts a)
    (hus : us.map lexeme = ts.map lexeme) : Item us a := by
  cases h with
  | text hkind htext =>
      rcases List.map_eq_singleton_iff.1 hus with ⟨u, rfl, hu⟩
      exact .text ((kind_reword hu).trans hkind) ((text_reword hu).trans htext)
  | expr hexpr => exact .expr (hexpr.reword hus)

theorem Items.reword {ts us : List Token} {as : List Tree} (h : Items ts as)
    (hus : us.map lexeme = ts.map lexeme) : Items us as := by
  induction h generalizing us with
  | last hitem => exact .last (hitem.reword hus)
  | more hitem hcomma _ ih =>
      rcases reword_append_cons hus with ⟨vs, c, ws, rfl, hvs, hc, hws⟩
      exact .more (hitem.reword hvs) ((kind_reword hc).trans hcomma) (ih hws)

theorem Names.reword {ts us : List Token} {xs : List String} (h : Names ts xs)
    (hus : us.map lexeme = ts.map lexeme) : Names us xs := by
  induction h generalizing us with
  | last hv =>
      rcases List.map_eq_singleton_iff.1 hus with ⟨u, rfl, hu⟩
      rw [← text_reword hu]
      exact .last ((kind_reword hu).trans hv)
  | more hv hcomma _ ih =>
      rcases List.map_eq_cons_iff.1 hus with ⟨u, us, rfl, hu, hus⟩
      rcases List.map_eq_cons_iff.1 hus with ⟨c, us, rfl, hc, hus⟩
      rw [← text_reword hu]
      exact .more ((kind_reword hu).trans hv) ((kind_reword hc).trans hcomma) (ih hus)

theorem Statement.reword {ts us : List Token} {a : Tree} (h : Statement ts a)
    (hus : us.map lexeme = ts.map lexeme) : Statement us a := by
  induction h generalizing us with
  | expr hexpr => exact .expr (hexpr.reword hus)
  | alone halone hw =>
      rcases List.map_eq_singleton_iff.1 hus with ⟨u, rfl, hu⟩
      exact .alone halone (hw.reword hu)
  | print hw hitems =>
      rcases List.map_eq_cons_iff.1 hus with ⟨w, us, rfl, hw', hus⟩
      exact .print (hw.reword hw') (hitems.reword hus)
  | ifThen hi hleft hr hright hw _ ih =>
      rcases List.map_eq_cons_iff.1 hus with ⟨i, us, rfl, hi', hus⟩
      rcases reword_append_cons hus with ⟨ls, r, us, rfl, hls, hr', hus⟩
      rcases reword_append_cons hus with ⟨rs, w, vs, rfl, hrs, hw', hvs⟩
      rw [← text_reword hr']
      exact .ifThen (hi.reword hi') (hleft.reword hls) ((kind_reword hr').trans hr)
        (hright.reword hrs) (hw.reword hw') (ih hvs)
  | goto hw hexpr =>
      rcases List.map_eq_cons_iff.1 hus with ⟨w, us, rfl, hw', hus⟩
      exact .goto (hw.reword hw') (hexpr.reword hus)
  | gosub hw hexpr =>
      rcases List.map_eq_cons_iff.1 hus with ⟨w, us, rfl, hw', hus⟩
      exact .gosub (hw.reword hw') (hexpr.reword hus)
  | input hw hnames =>
      rcases List.map_eq_cons_iff.1 hus with ⟨w, us, rfl, hw', hus⟩
      exact .input (hw.reword hw') (hnames.reword hus)
  | assign hw hv he htext hexpr =>
      rcases List.map_eq_cons_iff.1 hus with ⟨w, us, rfl, hw', hus⟩
      rcases List.map_eq_cons_iff.1 hus with ⟨v, us, rfl, hv', hus⟩
      rcases List.map_eq_cons_iff.1 hus with ⟨e, us, rfl, he', hus⟩
      rw [← text_reword hv']
      exact .assign (hw.reword hw') ((kind_reword hv').trans hv) ((kind_reword he').trans he)
        ((text_reword he').trans htext) (hexpr.reword hus)
  | listLine hw hlit =>
      rcases reword_pair hus with ⟨w, u, rfl, hw', hu⟩
      exact .listLine (hw.reword hw') (hlit.reword hu)

/-! ## Lines -/

theorem Line.reword {ts us : List Token} {a : Tree} (h : Line ts a)
    (hus : us.map lexeme = ts.map lexeme) : Line us a := by
  cases h with
  | numbered hlit hstatement =>
      rcases List.map_eq_cons_iff.1 hus with ⟨u, us, rfl, hu, hus⟩
      exact .numbered (hlit.reword hu) (hstatement.reword hus)
  | plain hstatement hhead =>
      refine .plain (hstatement.reword hus) ?_
      intro u hu
      rcases List.head?_eq_some_iff.1 hu with ⟨vs, rfl⟩
      rcases List.map_eq_cons_iff.1 hus.symm with ⟨t, ts, rfl, ht, -⟩
      rw [← kind_reword ht]
      exact hhead t rfl

end Grammar
end TinyBasic
