import TinyBasic.Parse.Command
import TinyBasic.Proofs.Grammar.Basic

/-!
# Soundness — what is read is derived

Whatever a production reads is derived by the grammar, with the tree that the production gives.
-/

namespace TinyBasic

/-- A reading in two parts succeeds only if both parts do. -/
theorem ok_of_bind {ε α β : Type} {first : Except ε α} {next : α → Except ε β} {b : β} :
    first >>= next = .ok b → ∃ a, first = .ok a ∧ next a = .ok b := by
  intro h
  match first with
  | .ok a => exact ⟨a, rfl, h⟩
  | .error e => cases h

theorem exists_ok_of_bind {ε α β : Type} {first : Except ε α} {next : α → Except ε β} {b : β}
    (h : first >>= next = .ok b) : ∃ a, first = .ok a := by
  rcases ok_of_bind h with ⟨a, ha, -⟩
  exact ⟨a, ha⟩

/-- A reading in two parts fails in the first part, or in the second behind the first. -/
theorem error_of_bind {ε α β : Type} {first : Except ε α} {next : α → Except ε β} {e : ε} :
    first >>= next = .error e → first = .error e ∨ ∃ a, first = .ok a ∧ next a = .error e := by
  intro h
  match first with
  | .ok a => exact .inr ⟨a, rfl, h⟩
  | .error _ =>
      cases h
      exact .inl rfl

namespace Grammar

open Parse

/-! ## Tokens -/

theorem keyword?_eq_some_iff {t : Token} {k : Keyword} :
    t.keyword? = some k ↔ IsWord k t := by
  simp only [Token.keyword?, IsWord]
  constructor
  · intro h
    split at h
    case isTrue hkind =>
      have hspelling := List.find?_some h
      exact ⟨hkind, (beq_iff_eq.1 hspelling).symm⟩
    case isFalse => cases h
  · rintro ⟨hkind, htext⟩
    simp [hkind, htext]

theorem value?_eq_some_iff {negative : Bool} {t : Token} {n : Word} (hkind : t.kind = .num) :
    t.value? negative = some n ↔ Literal negative t n := by
  simp only [Token.value?_eq, Word.ofInt?_eq_some_iff, Literal, wholePart, hkind, true_and]

theorem number_eq_ok_iff {fin : Ending} {negative : Bool} {t : Token} {rest : List Token}
    {n : Word} (hkind : t.kind = .num) :
    number fin negative t rest = .ok n ↔ Literal negative t n := by
  rw [← value?_eq_some_iff hkind, number]
  cases t.value? negative with
  | none => simp
  | some m => simp

theorem expect_eq_ok_iff {fin : Ending} {kind : Token.Kind} {expected : Expected}
    {ts : List Token} {t : Token} :
    expect fin kind expected ts = .ok t ↔ t.kind = kind ∧ ∃ rest, ts = t :: rest := by
  cases ts with
  | nil => simp [expect]
  | cons u rest =>
      simp only [expect]
      split
      case isTrue h =>
        simp only [Except.ok.injEq, List.cons.injEq]
        constructor
        · rintro rfl
          exact ⟨h, rest, rfl, rfl⟩
        · rintro ⟨-, _, rfl, -⟩
          rfl
      case isFalse h =>
        simp only [List.cons.injEq, reduceCtorEq, false_iff]
        rintro ⟨hkind, _, rfl, -⟩
        exact h hkind

theorem additive?_eq_some_iff {kind : Token.Kind} {op : ArithOp} :
    kind.additive? = some op ↔ Joins .expr kind op := by
  constructor
  · intro h
    cases kind <;> simp only [Token.Kind.additive?, reduceCtorEq, Option.some.injEq] at h
    case plus => exact h ▸ .plus
    case minus => exact h ▸ .minus
  · intro h
    cases h <;> rfl

theorem multiplicative?_eq_some_iff {kind : Token.Kind} {op : ArithOp} :
    kind.multiplicative? = some op ↔ Joins .term kind op := by
  constructor
  · intro h
    cases kind <;> simp only [Token.Kind.multiplicative?, reduceCtorEq, Option.some.injEq] at h
    case times => exact h ▸ .times
    case divide => exact h ▸ .divide
  · intro h
    cases h <;> rfl

/-! ## Expressions -/

/-- The first `n` of the tokens are derived, with the result `a`. -/
def Takes {α : Type} (P : List Token → α → Prop) (ts : List Token) (a : α) (n : Nat) : Prop :=
  ∃ us rest, ts = us ++ rest ∧ us.length = n ∧ P us a

namespace Takes

variable {α β : Type} {P : List Token → α → Prop} {Q : List Token → β → Prop}
variable {ts : List Token} {a : α} {b : β} {n m : Nat}

theorem nil (h : P [] a) : Takes P ts a 0 :=
  ⟨[], ts, rfl, rfl, h⟩

theorem cons {t : Token} (h : Takes (fun us => P (t :: us)) ts a n) : Takes P (t :: ts) a (1 + n) := by
  rcases h with ⟨us, rest, rfl, rfl, hus⟩
  exact ⟨t :: us, rest, rfl, by simp [Nat.add_comm], hus⟩

/-- What is derived first may be used for what is derived next. -/
theorem chain (h : Takes P ts a n)
    (next : ∀ us, P us a → Takes (fun vs => Q (us ++ vs)) (ts.drop n) b m) :
    Takes Q ts b (n + m) := by
  rcases h with ⟨us, rest, rfl, rfl, hus⟩
  have hnext := next us hus
  rw [List.drop_left] at hnext
  rcases hnext with ⟨vs, more, rfl, rfl, hvs⟩
  exact ⟨us ++ vs, more, by simp, by simp, hvs⟩

/-- A word that is a statement alone, whatever follows it. -/
theorem word {k : Keyword} {w : Token} {tree : Tree} (halone : Alone k tree)
    (hw : w.keyword? = some k) : Takes Statement (w :: ts) tree 1 :=
  ⟨[w], ts, rfl, rfl, .alone halone (keyword?_eq_some_iff.1 hw)⟩

theorem imp (h : Takes P ts a n) (himp : ∀ us, P us a → Q us b) : Takes Q ts b n := by
  rcases h with ⟨us, rest, hts, hlen, hus⟩
  exact ⟨us, rest, hts, hlen, himp us hus⟩

end Takes

theorem signedOperand_sound {fin : Ending} {negative : Bool} {s : Token} {ts : List Token}
    {a : Tree} {n : Nat} (hs : Sign s.kind negative) :
    signedOperand fin negative ts = .ok (a, n) →
      Takes (fun us => Derives .factor (s :: us)) ts a n := by
  intro h
  cases ts with
  | nil => simp [signedOperand] at h
  | cons t rest =>
      simp only [signedOperand] at h
      split at h
      case h_1 hkind =>
        rcases ok_of_bind h with ⟨m, hm, h⟩
        cases h
        have hlit := (number_eq_ok_iff hkind).1 hm
        exact ⟨[t], rest, rfl, rfl, .signedLiteral hs hlit⟩
      case h_2 hkind =>
        cases h
        cases negative with
        | false => exact ⟨[t], rest, rfl, rfl, .plusVar hs hkind⟩
        | true => exact ⟨[t], rest, rfl, rfl, .minusVar hs hkind⟩
      case h_3 => cases h

/-- Every production for expressions is sound. A loop that starts with the tree `left` goes on from
tokens `us` that stand for it. -/
theorem expression_sound (fin : Ending) :
    (∀ ts a n, Parse.expr fin ts = .ok (a, n) → Takes (Derives .expr) ts a n) ∧
    (∀ left ts us a n, Derives .expr us left → exprTail fin left ts = .ok (a, n) →
      Takes (fun vs => Derives .expr (us ++ vs)) ts a n) ∧
    (∀ ts a n, term fin ts = .ok (a, n) → Takes (Derives .term) ts a n) ∧
    (∀ left ts us a n, Derives .term us left → termTail fin left ts = .ok (a, n) →
      Takes (fun vs => Derives .term (us ++ vs)) ts a n) ∧
    (∀ ts a n, factor fin ts = .ok (a, n) → Takes (Derives .factor) ts a n) := by
  -- the induction is on the calls of the productions, one case for each of their branches
  refine Parse.expr.mutual_induct
    (fun ts => ∀ a n, Parse.expr fin ts = .ok (a, n) → Takes (Derives .expr) ts a n)
    (fun left ts => ∀ us a n, Derives .expr us left → exprTail fin left ts = .ok (a, n) →
      Takes (fun vs => Derives .expr (us ++ vs)) ts a n)
    (fun ts => ∀ a n, term fin ts = .ok (a, n) → Takes (Derives .term) ts a n)
    (fun left ts => ∀ us a n, Derives .term us left → termTail fin left ts = .ok (a, n) →
      Takes (fun vs => Derives .term (us ++ vs)) ts a n)
    (fun ts => ∀ a n, factor fin ts = .ok (a, n) → Takes (Derives .factor) ts a n)
    ?expr ?exprEnd ?exprStop ?exprMore ?term ?termEnd ?termStop ?termMore
    ?factorEnd ?factorPlus ?factorMinus ?factorNum ?factorVar ?factorParen ?factorOther
  case expr =>
    intro ts ihterm ihtail a n h
    rw [Parse.expr] at h
    rcases ok_of_bind h with ⟨⟨left, k⟩, hterm, h⟩
    rcases ok_of_bind h with ⟨⟨tree, m⟩, htail, h⟩
    cases h
    -- the loop goes on from the tokens of the first term
    refine (ihterm left k hterm).chain ?_
    intro us hus
    exact ihtail left k us a m (.term hus) htail
  case exprEnd =>
    intro left us a n hus h
    rw [exprTail] at h
    cases h
    exact .nil (by simpa using hus)
  case exprStop =>
    intro left t rest hop us a n hus h
    simp only [exprTail, hop] at h
    cases h
    exact .nil (by simpa using hus)
  case exprMore =>
    intro left t rest op hop ihterm ihtail us a n hus h
    simp only [exprTail, hop] at h
    rcases ok_of_bind h with ⟨⟨right, k⟩, hterm, h⟩
    rcases ok_of_bind h with ⟨⟨tree, m⟩, htail, h⟩
    cases h
    rw [Nat.add_assoc]
    refine Takes.cons ((ihterm right k hterm).chain ?_)
    intro ws hws
    -- the sum so far is the left operand of what follows, so operators associate to the left
    have hsum := Derives.sum hus (additive?_eq_some_iff.1 hop) hws
    simpa using ihtail right k (us ++ t :: ws) tree m hsum htail
  case term =>
    intro ts ihfactor ihtail a n h
    rw [term] at h
    rcases ok_of_bind h with ⟨⟨left, k⟩, hfactor, h⟩
    rcases ok_of_bind h with ⟨⟨tree, m⟩, htail, h⟩
    cases h
    refine (ihfactor left k hfactor).chain ?_
    intro us hus
    exact ihtail left k us a m (.factor hus) htail
  case termEnd =>
    intro left us a n hus h
    rw [termTail] at h
    cases h
    exact .nil (by simpa using hus)
  case termStop =>
    intro left t rest hop us a n hus h
    simp only [termTail, hop] at h
    cases h
    exact .nil (by simpa using hus)
  case termMore =>
    intro left t rest op hop ihfactor ihtail us a n hus h
    simp only [termTail, hop] at h
    rcases ok_of_bind h with ⟨⟨right, k⟩, hfactor, h⟩
    rcases ok_of_bind h with ⟨⟨tree, m⟩, htail, h⟩
    cases h
    rw [Nat.add_assoc]
    refine Takes.cons ((ihfactor right k hfactor).chain ?_)
    intro ws hws
    -- likewise for the product so far
    have hproduct := Derives.product hus (multiplicative?_eq_some_iff.1 hop) hws
    simpa using ihtail right k (us ++ t :: ws) tree m hproduct htail
  case factorEnd =>
    intro a n h
    simp [factor] at h
  case factorPlus =>
    intro t rest hkind a n h
    simp only [factor, hkind] at h
    rcases ok_of_bind h with ⟨⟨tree, k⟩, hoperand, h⟩
    cases h
    exact .cons (signedOperand_sound (hkind ▸ .plus) hoperand)
  case factorMinus =>
    intro t rest hkind a n h
    simp only [factor, hkind] at h
    rcases ok_of_bind h with ⟨⟨tree, k⟩, hoperand, h⟩
    cases h
    exact .cons (signedOperand_sound (hkind ▸ .minus) hoperand)
  case factorNum =>
    intro t rest hkind a n h
    simp only [factor, hkind] at h
    rcases ok_of_bind h with ⟨m, hm, h⟩
    cases h
    exact ⟨[t], rest, rfl, rfl, .literal ((number_eq_ok_iff hkind).1 hm)⟩
  case factorVar =>
    intro t rest hkind a n h
    simp only [factor, hkind] at h
    cases h
    exact ⟨[t], rest, rfl, rfl, .var hkind⟩
  case factorParen =>
    intro t rest hkind ihexpr a n h
    simp only [factor, hkind] at h
    rcases ok_of_bind h with ⟨⟨inner, k⟩, hexpr, h⟩
    rcases ok_of_bind h with ⟨r, hr, h⟩
    cases h
    rcases expect_eq_ok_iff.1 hr with ⟨hrkind, more, hmore⟩
    rw [Nat.add_assoc]
    refine Takes.cons ((ihexpr inner k hexpr).chain ?_)
    intro us hus
    exact ⟨[r], more, hmore, rfl, .paren hkind hus hrkind⟩
  case factorOther =>
    intro t rest h1 h2 h3 h4 h5 a n h
    simp only [factor] at h
    cases h

theorem expr_sound {fin : Ending} {ts : List Token} {a : Tree} {n : Nat} :
    Parse.expr fin ts = .ok (a, n) → Takes (Derives .expr) ts a n :=
  (expression_sound fin).1 ts a n

/-! ## Parts of statements -/

/-- The token is a string only if its text has a quote at both ends. -/
def Quoted (t : Token) : Prop :=
  t.kind = .str → t.text = "\"" ++ t.unquoted ++ "\""

theorem printItem_sound {fin : Ending} {ts : List Token} {a : Tree} {n : Nat}
    (hq : ∀ t ∈ ts, Quoted t) :
    printItem fin ts = .ok (a, n) → Takes Item ts a n := by
  intro h
  cases ts with
  | nil =>
      have hexpr := expr_sound h
      exact hexpr.imp fun _ => .expr
  | cons t rest =>
      simp only [printItem] at h
      split at h
      case isTrue hkind =>
        cases h
        have htext := hq t (by simp) hkind
        exact ⟨[t], rest, rfl, rfl, .text hkind htext⟩
      case isFalse =>
        have hexpr := expr_sound h
        exact hexpr.imp fun _ => .expr

theorem printItems_sound {fin : Ending} :
    ∀ {ts : List Token} {as : List Tree} {n : Nat}, (∀ t ∈ ts, Quoted t) →
      printItems fin ts = .ok (as, n) → Takes Items ts as n := by
  intro ts
  induction ts using printItems.induct with
  | case1 ts ih =>
      intro as n hq h
      rw [printItems] at h
      rcases ok_of_bind h with ⟨⟨item, k⟩, hitem, h⟩
      have htakes := printItem_sound hq hitem
      dsimp only at h
      split at h
      case h_1 =>
        cases h
        exact htakes.imp fun _ => .last
      case h_2 t rest hdrop =>
        -- behind an item stands a comma or it is an error, and so is a comma at the very end
        split at h
        case isTrue => cases h
        case isFalse hcomma =>
          split at h
          case isTrue => cases h
          case isFalse =>
            rcases ok_of_bind h with ⟨⟨items, m⟩, hitems, h⟩
            cases h
            have hqrest : ∀ u ∈ rest, Quoted u := by
              intro u hu
              have hmem : u ∈ ts.drop k := by simp [hdrop, hu]
              exact hq u (List.mem_of_mem_drop hmem)
            have hrest := ih k t rest hdrop hqrest hitems
            rw [Nat.add_assoc]
            refine htakes.chain ?_
            intro us hus
            rw [hdrop]
            refine Takes.cons (hrest.imp ?_)
            intro vs hvs
            exact .more hus (Decidable.of_not_not hcomma) hvs

/-- The loop of `INPUT` goes on behind the variable `v`. -/
theorem moreNames_sound {fin : Ending} :
    ∀ {ts : List Token} {v : Token} {xs : List String} {n : Nat}, v.kind = .var →
      moreNames fin ts = .ok (xs, n) →
        Takes (fun us ys => Names (v :: us) (v.text :: ys)) ts xs n := by
  intro ts
  induction ts using moreNames.induct with
  | case1 =>
      intro v xs n hv h
      rw [moreNames] at h
      cases h
      exact .nil (.last hv)
  | case2 t rest hcomma ih =>
      intro v xs n hv h
      -- the variable behind the comma is the one that the rest of the loop goes on behind
      simp only [moreNames, hcomma] at h
      rcases ok_of_bind h with ⟨u, hu, h⟩
      rcases ok_of_bind h with ⟨⟨names, m⟩, hnames, h⟩
      cases h
      rcases expect_eq_ok_iff.1 hu with ⟨hukind, more, rfl⟩
      have hmore := ih hukind hnames
      rw [Nat.add_assoc]
      refine Takes.cons (Takes.cons (hmore.imp ?_))
      intro us hus
      exact .more hv hcomma hus
  | case3 t rest hvar =>
      intro v xs n hv h
      simp only [moreNames, hvar] at h
      cases h
  | case4 t rest hcomma hvar =>
      intro v xs n hv h
      simp only [moreNames] at h
      cases h
      exact .nil (.last hv)

theorem expectThen_eq_ok_iff {fin : Ending} {ts : List Token} :
    expectThen fin ts = .ok () ↔ ∃ w rest, IsWord .thenKw w ∧ ts = w :: rest := by
  cases ts with
  | nil => simp [expectThen]
  | cons t rest =>
      simp only [expectThen, ← keyword?_eq_some_iff, List.cons.injEq]
      split
      case isTrue h =>
        exact ⟨fun _ => ⟨t, rest, h, rfl, rfl⟩, fun _ => rfl⟩
      case isFalse h =>
        simp only [reduceCtorEq, false_iff]
        rintro ⟨w, _, hw, rfl, -⟩
        exact h hw

/-! ## Statements, each behind its keyword -/

section Keywords

variable {fin : Ending} {w : Token} {ts : List Token} {a : Tree} {n : Nat}

theorem printStatement_sound (hw : IsWord .print w) (hq : ∀ t ∈ ts, Quoted t) :
    printStatement fin ts = .ok (a, n) → Takes (fun us => Statement (w :: us)) ts a n := by
  intro h
  simp only [printStatement] at h
  split at h
  case isTrue =>
    cases h
    exact .nil (.alone .print hw)
  case isFalse =>
    rcases ok_of_bind h with ⟨⟨items, m⟩, hitems, h⟩
    cases h
    exact (printItems_sound hq hitems).imp fun _ => .print hw

theorem gotoStatement_sound (hw : IsWord .goto w) :
    gotoStatement fin ts = .ok (a, n) → Takes (fun us => Statement (w :: us)) ts a n := by
  intro h
  simp only [gotoStatement] at h
  split at h
  case isTrue => cases h
  case isFalse =>
    rcases ok_of_bind h with ⟨⟨target, m⟩, htarget, h⟩
    cases h
    exact (expr_sound htarget).imp fun _ => .goto hw

theorem gosubStatement_sound (hw : IsWord .gosub w) :
    gosubStatement fin ts = .ok (a, n) → Takes (fun us => Statement (w :: us)) ts a n := by
  intro h
  simp only [gosubStatement] at h
  split at h
  case isTrue => cases h
  case isFalse =>
    rcases ok_of_bind h with ⟨⟨target, m⟩, htarget, h⟩
    cases h
    exact (expr_sound htarget).imp fun _ => .gosub hw

theorem inputStatement_sound (hw : IsWord .input w) :
    inputStatement fin ts = .ok (a, n) → Takes (fun us => Statement (w :: us)) ts a n := by
  intro h
  simp only [inputStatement] at h
  rcases ok_of_bind h with ⟨v, hv, h⟩
  rcases ok_of_bind h with ⟨⟨names, m⟩, hnames, h⟩
  cases h
  rcases expect_eq_ok_iff.1 hv with ⟨hvar, rest, rfl⟩
  refine Takes.cons ((moreNames_sound hvar hnames).imp ?_)
  intro us hus
  exact .input hw hus

theorem letStatement_sound (hw : IsWord .letKw w) :
    letStatement fin ts = .ok (a, n) → Takes (fun us => Statement (w :: us)) ts a n := by
  intro h
  simp only [letStatement] at h
  rcases ok_of_bind h with ⟨v, hv, h⟩
  rcases ok_of_bind h with ⟨e, he, h⟩
  rcases expect_eq_ok_iff.1 hv with ⟨hvar, rest, rfl⟩
  rcases expect_eq_ok_iff.1 he with ⟨hrelop, more, hmore⟩
  cases hmore
  split at h
  case isTrue => cases h
  case isFalse htext =>
    rcases ok_of_bind h with ⟨⟨value, m⟩, hvalue, h⟩
    cases h
    have hexpr := expr_sound hvalue
    rw [Nat.add_assoc 1 1 m]
    refine Takes.cons (Takes.cons (hexpr.imp ?_))
    intro us hus
    exact .assign hw hvar hrelop (Decidable.of_not_not htext) hus

theorem listStatement_sound (hw : IsWord .list w) :
    listStatement fin ts = .ok (a, n) → Takes (fun us => Statement (w :: us)) ts a n := by
  intro h
  cases ts with
  | nil =>
      cases h
      exact .nil (.alone .list hw)
  | cons t rest =>
      simp only [listStatement] at h
      split at h
      case isTrue hkind =>
        rcases ok_of_bind h with ⟨m, hm, h⟩
        cases h
        exact ⟨[t], rest, rfl, rfl, .listLine hw ((number_eq_ok_iff hkind).1 hm)⟩
      case isFalse => cases h

end Keywords

/-! ## Statements and lines -/

theorem afterKeyword_sound {reading : Except ParseError (Tree × Nat)} {w : Token}
    {ts : List Token} {a : Tree} {n : Nat}
    (hreading : ∀ m, reading = .ok (a, m) → Takes (fun us => Statement (w :: us)) ts a m) :
    afterKeyword reading = .ok (a, n) → Takes Statement (w :: ts) a n := by
  intro h
  rcases ok_of_bind h with ⟨⟨tree, m⟩, htree, h⟩
  cases h
  exact .cons (hreading m htree)

/-- The parts of an `IF` that is read, with what is left behind each of them. -/
theorem ifStatement_cases {fin : Ending} {i : Token} {rest : List Token} {a : Tree} {n : Nat}
    (hi : IsWord .ifKw i) (h : statement fin (i :: rest) = .ok (a, n)) :
    ∃ left j op right k body m,
      Parse.expr fin rest = .ok (left, j) ∧
      expect fin .relop .relop (rest.drop j) = .ok op ∧
      Parse.expr fin (rest.drop (j + 1)) = .ok (right, k) ∧
      expectThen fin (rest.drop (j + 1 + k)) = .ok () ∧
      statement fin (rest.drop (j + 1 + k + 1)) = .ok (body, m) ∧
      a = .ifThen (.compare (.ofText op.text) left right) body ∧
      n = 1 + (j + 1 + k + 1 + m) := by
  rw [statement] at h
  simp only [keyword?_eq_some_iff.2 hi] at h
  rcases ok_of_bind h with ⟨⟨left, j⟩, hleft, h⟩
  rcases ok_of_bind h with ⟨op, hop, h⟩
  rcases ok_of_bind h with ⟨⟨right, k⟩, hright, h⟩
  rcases ok_of_bind h with ⟨⟨⟩, hthen, h⟩
  rcases ok_of_bind h with ⟨⟨body, m⟩, hbody, h⟩
  cases h
  exact ⟨left, j, op, right, k, body, m, hleft, hop, hright, hthen, hbody, rfl, rfl⟩

theorem ifStatement_sound {fin : Ending} {t : Token} {rest : List Token} {a : Tree} {n : Nat}
    (ht : IsWord .ifKw t)
    (ih : ∀ i j b k, statement fin (rest.drop (i + 1 + j + 1)) = .ok (b, k) →
      Takes Statement (rest.drop (i + 1 + j + 1)) b k) :
    statement fin (t :: rest) = .ok (a, n) → Takes Statement (t :: rest) a n := by
  intro h
  rcases ifStatement_cases ht h with
    ⟨left, i, op, right, j, body, k, hleft, hop, hright, hthen, hbody, rfl, rfl⟩
  -- the places where the parts begin, as they are found by dropping what was read
  rcases expect_eq_ok_iff.1 hop with ⟨hrelop, more, hmore⟩
  have hdrop : rest.drop (i + 1) = more := by
    rw [← List.drop_drop, hmore, List.drop_one, List.tail_cons]
  rw [← List.drop_drop, hdrop] at hthen
  rw [hdrop] at hright
  rcases expectThen_eq_ok_iff.1 hthen with ⟨w, last, hw, hlast⟩
  have hdroplast : rest.drop (i + 1 + j + 1) = last := by
    rw [← List.drop_drop, ← List.drop_drop, hdrop, hlast, List.drop_one, List.tail_cons]
  have hstatement := ih i j body k hbody
  rw [hdroplast] at hstatement
  have hlen : 1 + (i + 1 + j + 1 + k) = 1 + (i + (1 + (j + (1 + k)))) := by
    omega
  rw [hlen]
  -- one link of the chain for each part of the statement
  refine Takes.cons ((expr_sound hleft).chain ?_)
  intro us hus
  rw [hmore]
  refine Takes.cons ((expr_sound hright).chain ?_)
  intro vs hvs
  rw [hlast]
  refine Takes.cons (hstatement.imp ?_)
  intro ws hws
  exact .ifThen ht hus hrelop hvs hw hws

theorem statement_sound {fin : Ending} :
    ∀ {ts : List Token} {a : Tree} {n : Nat}, (∀ t ∈ ts, Quoted t) →
      statement fin ts = .ok (a, n) → Takes Statement ts a n := by
  intro ts
  induction ts using statement.induct with
  | case1 =>
      intro a n _ h
      rw [statement] at h
      exact (expr_sound h).imp fun _ => .expr
  | case2 t rest hk hkind =>
      -- a string alone is no statement
      intro a n _ h
      simp only [statement, hk, hkind] at h
      cases h
  | case3 t rest hk hkind =>
      intro a n _ h
      simp only [statement, hk, hkind] at h
      exact (expr_sound h).imp fun _ => .expr
  | case4 t rest hk =>
      intro a n hq h
      simp only [statement, hk] at h
      have hrest : ∀ u ∈ rest, Quoted u := fun u hu => hq u (List.mem_cons_of_mem t hu)
      exact afterKeyword_sound (fun _ => printStatement_sound (keyword?_eq_some_iff.1 hk) hrest) h
  | case5 t rest hk ih =>
      intro a n hq h
      refine ifStatement_sound (keyword?_eq_some_iff.1 hk) ?_ h
      intro i j b k hb
      refine ih i j ?_ hb
      intro u hu
      exact hq u (List.mem_cons_of_mem t (List.mem_of_mem_drop hu))
  | case6 t rest hk =>
      intro a n _ h
      simp only [statement, hk] at h
      exact afterKeyword_sound (fun _ => gotoStatement_sound (keyword?_eq_some_iff.1 hk)) h
  | case7 t rest hk =>
      intro a n _ h
      simp only [statement, hk] at h
      exact afterKeyword_sound (fun _ => inputStatement_sound (keyword?_eq_some_iff.1 hk)) h
  | case8 t rest hk =>
      intro a n _ h
      simp only [statement, hk] at h
      exact afterKeyword_sound (fun _ => letStatement_sound (keyword?_eq_some_iff.1 hk)) h
  | case9 t rest hk =>
      intro a n _ h
      simp only [statement, hk] at h
      exact afterKeyword_sound (fun _ => gosubStatement_sound (keyword?_eq_some_iff.1 hk)) h
  | case10 t rest hk =>
      intro a n _ h
      simp only [statement, hk] at h
      cases h
      exact .word .ret hk
  | case11 t rest hk =>
      intro a n _ h
      simp only [statement, hk] at h
      cases h
      exact .word .clear hk
  | case12 t rest hk =>
      intro a n _ h
      simp only [statement, hk] at h
      exact afterKeyword_sound (fun _ => listStatement_sound (keyword?_eq_some_iff.1 hk)) h
  | case13 t rest hk =>
      intro a n _ h
      simp only [statement, hk] at h
      cases h
      exact .word .run hk
  | case14 t rest hk =>
      intro a n _ h
      simp only [statement, hk] at h
      cases h
      exact .word .finish hk
  | case15 t rest hk | case16 t rest hk =>
      -- `THEN` and `QUIT` begin no statement
      intro a n _ h
      simp only [statement, hk] at h
      cases h

theorem endOfLine_eq_ok_iff {fin : Ending} {ts : List Token} :
    endOfLine fin ts = .ok () ↔ ts = [] ∧ ∃ length, fin = .complete length := by
  cases ts <;> cases fin <;> simp [endOfLine]

theorem wholeStatement_sound {fin : Ending} {ts : List Token} {a : Tree}
    (hq : ∀ t ∈ ts, Quoted t) :
    wholeStatement fin ts = .ok a → Statement ts a ∧ ∃ length, fin = .complete length := by
  intro h
  rcases ok_of_bind h with ⟨⟨tree, n⟩, htree, h⟩
  rcases ok_of_bind h with ⟨⟨⟩, hend, h⟩
  cases h
  rcases statement_sound hq htree with ⟨us, rest, rfl, rfl, hus⟩
  -- nothing is left behind the statement, so its tokens are all of them
  rcases endOfLine_eq_ok_iff.1 hend with ⟨hrest, hfin⟩
  rw [List.drop_left] at hrest
  refine ⟨?_, hfin⟩
  rw [hrest, List.append_nil]
  exact hus

/-- A line that is read is derived, and its scan did not fail. -/
theorem line_sound {fin : Ending} {ts : List Token} {a : Tree} (hq : ∀ t ∈ ts, Quoted t) :
    Parse.line fin ts = .ok a → Line ts a ∧ ∃ length, fin = .complete length := by
  intro h
  cases ts with
  | nil =>
      have hwhole := wholeStatement_sound hq h
      exact ⟨.plain hwhole.1 (by simp), hwhole.2⟩
  | cons t rest =>
      simp only [Parse.line] at h
      split at h
      case isTrue hkind =>
        rcases ok_of_bind h with ⟨n, hn, h⟩
        rcases ok_of_bind h with ⟨tree, htree, h⟩
        cases h
        have hrest : ∀ u ∈ rest, Quoted u := fun u hu => hq u (List.mem_cons_of_mem t hu)
        have hwhole := wholeStatement_sound hrest htree
        exact ⟨.numbered ((number_eq_ok_iff hkind).1 hn) hwhole.1, hwhole.2⟩
      case isFalse hkind =>
        have hwhole := wholeStatement_sound hq h
        refine ⟨.plain hwhole.1 ?_, hwhole.2⟩
        intro u hu
        cases hu
        exact hkind

end Grammar
end TinyBasic
