import TinyBasic.Proofs.Fault.Expression

/-!
# Faults of statements

Each of the productions for statements has a fault where it fails. What has been read of a
statement is completed with the shortest words: `A` for a name or an expression, `1` for a number
and `END` for the statement behind `THEN`.
-/

namespace TinyBasic
namespace Grammar

open Parse Lexicon Source

/-! ## Words that complete a statement -/

theorem derives_letter_A : Derives .expr [(letter "A").token] (.var "A") :=
  .term (.factor (.var rfl))

theorem statement_end : Statement [(keyword .endKw).token] .finish :=
  .alone .finish (isWord_keyword .endKw)

theorem valid_then_end : ∀ l ∈ [keyword .thenKw, keyword .endKw], l.Valid :=
  List.forall_mem_cons.2 ⟨valid_keyword .thenKw, valid_singleton (valid_keyword .endKw)⟩

/-! ## Parts of statements -/

section Parts

variable {fin : Ending} {ts : List Token} {e : ParseError}

theorem fault_printItem (h : printItem fin ts = .error e) :
    Fault printItem (Awaits Item) fin ts e := by
  have hgood : ∀ expected us, Awaits (Derives .expr) expected us → Awaits Item expected us := by
    intro expected us
    exact .imp [] fun ts a hts => ⟨a, .expr hts⟩
  cases ts with
  | nil => exact (fault_expr h).first hgood nofun
  | cons t rest =>
      simp only [printItem] at h
      split at h
      case isTrue => cases h
      case isFalse hstr =>
        refine (fault_expr h).first hgood ?_
        intro t' ht u hu fin' more a ha
        cases ht
        simp only [printItem, hu.1, hstr, if_false] at ha
        exact ⟨a, ha⟩

/-- Only a comma can follow an item, with more items behind it. -/
theorem printItems_behind {us more : List Token} {t : Token} {item : Tree}
    {x : List Tree × Nat} (hitem : printItem fin (us ++ t :: more) = .ok (item, us.length))
    (h : printItems fin (us ++ t :: more) = .ok x) :
    t.kind = .comma ∧ ∃ y, printItems fin more = .ok y := by
  rw [printItems, hitem] at h
  simp only [bind, Except.bind] at h
  split at h
  case h_1 hdrop =>
    rw [List.drop_left] at hdrop
    cases hdrop
  case h_2 t' more' hdrop =>
    rw [List.drop_left] at hdrop
    cases hdrop
    split at h
    case isTrue => cases h
    case isFalse hcomma =>
      split at h
      case isTrue => cases h
      case isFalse =>
        rcases ok_of_bind h with ⟨y, hy, -⟩
        exact ⟨Decidable.of_not_not hcomma, y, hy⟩

theorem fault_printItems (hq : ∀ t ∈ ts, Quoted t) (h : printItems fin ts = .error e) :
    Fault printItems (Awaits Items) fin ts e := by
  have hvar : Item [(letter "A").token] (.var "A") := .expr derives_letter_A
  induction ts using printItems.induct with
  | case1 ts ih =>
      rw [printItems] at h
      rcases error_of_bind h with h | ⟨⟨item, k⟩, hitem, hnext⟩
      · refine (fault_printItem h).first ?_ ?_
        · intro expected us
          exact .imp [] fun ts a hts => ⟨[a], .last hts⟩
        · intro t ht u hu fin' more a ha
          rw [printItems] at ha
          exact exists_ok_of_bind ha
      · rcases printItem_sound hq hitem with ⟨us, rest, rfl, rfl, hus⟩
        dsimp only at hnext
        split at hnext
        case h_1 => cases hnext
        case h_2 t more hdrop =>
          have hrest := hdrop
          rw [List.drop_left] at hrest
          subst hrest
          split at hnext
          -- no comma: whatever like token stands here, the item ends in front of it
          case isTrue hcomma =>
            cases hnext
            refine .atToken ?_ ?_
            · refine ⟨comma, [letter "A"], [item, .var "A"], rfl, ?_, .more hus rfl (.last hvar)⟩
              exact valid_singleton (valid_letter_A)
            · intro u hu fin' more' a ha
              have hread := settled_printItem.append hitem rfl hu fin' more'
              have hkind := (printItems_behind hread ha).1
              exact hcomma (hu.1 ▸ hkind)
          case isFalse hcomma =>
            have hkind := Decidable.of_not_not hcomma
            split at hnext
            -- a comma at the very end
            case isTrue hnil =>
              cases hnext
              subst hnil
              refine .atEnd (.word (a := [item, .var "A"]) rfl ?_)
              rw [List.append_assoc]
              exact .more hus hkind (.last hvar)
            case isFalse =>
              rcases error_of_bind hnext with hitems | ⟨⟨items, m⟩, _, hnext⟩
              · have hqmore : ∀ u ∈ more, Quoted u := by
                  intro u hu
                  exact hq u (by simp [hu])
                have hfault := ih us.length t more hdrop hqmore hitems
                rw [List.append_cons]
                refine hfault.behind (us ++ [t]) ?_ ?_
                · intro expected vs _
                  refine .imp (us ++ [t]) ?_
                  intro ts as hts
                  rw [List.append_assoc]
                  exact ⟨item :: as, .more hus hkind hts⟩
                · intro v hv u hu fin' more' a ha
                  rw [← List.append_cons] at ha
                  have hread := settled_printItem.append hitem rfl (.refl t) fin' (u :: more')
                  exact (printItems_behind hread ha).2
              · cases hnext

/-- The loop of `INPUT` goes on behind the variable `v`. -/
theorem fault_moreNames {v : Token} (hv : v.kind = .var) (h : moreNames fin ts = .error e) :
    Fault moreNames (fun expected us => Awaits Names expected (v :: us)) fin ts e := by
  induction ts using moreNames.induct generalizing v with
  | case1 =>
      rw [moreNames] at h
      cases h
  | case2 t rest hcomma ih =>
      simp only [moreNames, hcomma] at h
      rcases error_of_bind h with h | ⟨u, hu, h⟩
      · refine .expect [t] h (.word rfl (.more hv hcomma (.last rfl))) ?_
        intro fin' more a ha
        simp only [List.cons_append, List.nil_append, moreNames, hcomma] at ha
        exact exists_ok_of_bind ha
      · rcases error_of_bind h with h | ⟨⟨names, m⟩, _, h⟩
        · rcases expect_eq_ok_iff.1 hu with ⟨hvar, more, rfl⟩
          rw [List.drop_one, List.tail_cons] at h ih
          refine (ih hvar h).behind [t, u] ?_ ?_
          · intro expected vs _
            exact .imp [v, t] fun ts xs hts => ⟨v.text :: xs, .more hv hcomma hts⟩
          · intro _ _ w hw fin' more' a ha
            simp only [List.cons_append, List.nil_append, moreNames, hcomma] at ha
            rcases ok_of_bind ha with ⟨_, _, ha⟩
            exact exists_ok_of_bind ha
        · cases h
  | case3 t rest hvar =>
      simp only [moreNames, hvar] at h
      cases h
      refine .here ?_ ?_
      · refine ⟨comma, [letter "A"], [v.text, "A"], rfl, ?_, .more hv rfl (.last rfl)⟩
        exact valid_singleton (valid_letter_A)
      · intro t' ht u hu fin' more a ha
        cases ht
        simp only [moreNames, hu.1, hvar] at ha
        cases ha
  | case4 t rest hcomma hvar =>
      simp only [moreNames] at h
      cases h

end Parts

/-! ## Statements -/

section Statements

variable {fin : Ending} {w : Token} {ts : List Token} {e : ParseError}

theorem fault_printStatement (hw : IsWord .print w) (hq : ∀ t ∈ ts, Quoted t)
    (h : printStatement fin ts = .error e) :
    Fault printStatement (fun expected us => Awaits Statement expected (w :: us)) fin ts e := by
  simp only [printStatement] at h
  split at h
  case isTrue => cases h
  case isFalse =>
    rcases error_of_bind h with h | ⟨⟨items, m⟩, _, h⟩
    · refine (fault_printItems hq h).first ?_ ?_
      · intro expected us
        exact .imp [w] fun ts as hts => ⟨.print as, .print hw hts⟩
      · intro t ht u hu fin' more a ha
        simp only [printStatement, List.cons_ne_nil, if_false] at ha
        exact exists_ok_of_bind ha
    · cases h

/-- A production that reads an expression, and has an error of its own if there is nothing. -/
theorem fault_target {p : Production Tree} {wrap : Tree → Tree} {expected : Expected}
    (hnil : ∀ fin, p fin [] = .error (fin.atEnd expected))
    (hp : ∀ fin t ts, p fin (t :: ts) = do
      let (a, n) ← Parse.expr fin (t :: ts)
      return (wrap a, n))
    (hw : ∀ {ts a}, Derives .expr ts a → Statement (w :: ts) (wrap a))
    (hC : Awaits Statement expected [w]) (h : p fin ts = .error e) :
    Fault p (fun expected us => Awaits Statement expected (w :: us)) fin ts e := by
  cases ts with
  | nil =>
      rw [hnil] at h
      cases h
      exact .atEnd hC
  | cons t rest =>
      rw [hp] at h
      rcases error_of_bind h with h | ⟨⟨a, n⟩, _, h⟩
      · refine (fault_expr h).first ?_ ?_
        · intro expected us
          exact .imp [w] fun ts a hts => ⟨wrap a, hw hts⟩
        · intro _ _ u hu fin' more a ha
          rw [hp] at ha
          exact exists_ok_of_bind ha
      · cases h

theorem fault_gotoStatement (hw : IsWord .goto w) (h : gotoStatement fin ts = .error e) :
    Fault gotoStatement (fun expected us => Awaits Statement expected (w :: us)) fin ts e := by
  rcases exists_literal_one false with ⟨n, hn⟩
  have hC : Awaits Statement .num [w] := .word rfl (.goto hw (.term (.factor (.literal hn))))
  exact fault_target (fun _ => rfl) (fun _ _ _ => rfl) (.goto hw) hC h

theorem fault_gosubStatement (hw : IsWord .gosub w) (h : gosubStatement fin ts = .error e) :
    Fault gosubStatement (fun expected us => Awaits Statement expected (w :: us)) fin ts e := by
  have hC : Awaits Statement .expression [w] :=
    .word rfl (.gosub hw derives_letter_A)
  exact fault_target (fun _ => rfl) (fun _ _ _ => rfl) (.gosub hw) hC h

theorem fault_inputStatement (hw : IsWord .input w) (h : inputStatement fin ts = .error e) :
    Fault inputStatement (fun expected us => Awaits Statement expected (w :: us)) fin ts e := by
  simp only [inputStatement] at h
  rcases error_of_bind h with h | ⟨v, hv, h⟩
  · refine .expect [] h (.word rfl (.input hw (.last rfl))) ?_
    intro fin' more a ha
    exact exists_ok_of_bind ha
  · rcases error_of_bind h with h | ⟨⟨names, m⟩, _, h⟩
    · rcases expect_eq_ok_iff.1 hv with ⟨hvar, rest, rfl⟩
      refine (fault_moreNames hvar h).behind [v] ?_ ?_
      · intro expected vs _
        exact .imp [w] fun ts xs hts => ⟨.input xs, .input hw hts⟩
      · intro _ _ u hu fin' more a ha
        rcases ok_of_bind ha with ⟨_, _, ha⟩
        exact exists_ok_of_bind ha
    · cases h

/-- Only an equals sign is right behind the variable, with an expression behind it. -/
theorem letStatement_behind {v op : Token} {x : Tree × Nat}
    (h : letStatement fin (v :: op :: ts) = .ok x) :
    op.text = "=" ∧ ∃ y, Parse.expr fin ts = .ok y := by
  simp only [letStatement] at h
  rcases ok_of_bind h with ⟨_, _, h⟩
  rcases ok_of_bind h with ⟨op', hop, h⟩
  rcases expect_eq_ok_iff.1 hop with ⟨-, _, hcons⟩
  cases hcons
  split at h
  case isTrue => cases h
  case isFalse htext =>
    rcases ok_of_bind h with ⟨y, hy, -⟩
    exact ⟨Decidable.of_not_not htext, y, hy⟩

theorem fault_letStatement (hw : IsWord .letKw w) (h : letStatement fin ts = .error e) :
    Fault letStatement (fun expected us => Awaits Statement expected (w :: us)) fin ts e := by
  simp only [letStatement] at h
  rcases error_of_bind h with h | ⟨v, hv, h⟩
  · refine .expect [] h ?_ ?_
    · have hvalid : ∀ l ∈ [comparison .equal, letter "A"], l.Valid :=
        List.forall_mem_cons.2 ⟨valid_comparison .equal, valid_singleton valid_letter_A⟩
      exact ⟨letter "A", _, _, rfl, hvalid, .assign hw rfl rfl rfl derives_letter_A⟩
    · intro fin' more a ha
      exact exists_ok_of_bind ha
  · rcases expect_eq_ok_iff.1 hv with ⟨hvar, rest, rfl⟩
    have hequal : ∀ {expected}, suggestion? expected = some (comparison .equal) →
        Awaits Statement expected [w, v] := fun hsuggestion =>
      ⟨_, _, _, hsuggestion, valid_singleton valid_letter_A,
        .assign hw hvar rfl rfl derives_letter_A⟩
    rcases error_of_bind h with h | ⟨op, hop, h⟩
    · refine .expect [v] h (hequal rfl) ?_
      intro fin' more a ha
      rcases ok_of_bind ha with ⟨_, _, ha⟩
      exact exists_ok_of_bind ha
    · rcases expect_eq_ok_iff.1 hop with ⟨hrelop, more, hmore⟩
      cases hmore
      split at h
      -- the operator has been read, and its text is looked at only now
      case isTrue htext =>
        cases h
        suffices hfault : Fault letStatement _ fin ([v] ++ op :: more) _ from hfault
        refine .atValue (hequal rfl) rfl hrelop.symm (.inr hrelop) ?_
        intro fin' more' a ha
        exact htext (letStatement_behind ha).1
      case isFalse htext =>
        rcases error_of_bind h with h | ⟨⟨value, m⟩, _, h⟩
        · refine (fault_expr h).behind [v, op] ?_ ?_
          · intro expected us _
            exact .imp [w, v, op] fun ts a hts =>
              ⟨.assign v.text a, .assign hw hvar hrelop (Decidable.of_not_not htext) hts⟩
          · intro _ _ u hu fin' more a ha
            exact (letStatement_behind ha).2
        · cases h

theorem fault_listStatement (hw : IsWord .list w) (h : listStatement fin ts = .error e) :
    Fault listStatement (fun expected us => Awaits Statement expected (w :: us)) fin ts e := by
  rcases exists_literal_one false with ⟨n, hn⟩
  have hC : Awaits Statement .num [w] := .word rfl (.listLine hw hn)
  cases ts with
  | nil => cases h
  | cons t rest =>
      simp only [listStatement] at h
      split at h
      case isTrue hkind =>
        rcases error_of_bind h with h | ⟨m, _, h⟩
        · refine .number hkind h hC ?_
          intro fin' more a ha
          simp only [listStatement, hkind, if_true] at ha
          exact exists_ok_of_bind ha
        · cases h
      case isFalse hkind =>
        cases h
        refine .here hC ?_
        intro t' ht u hu fin' more a ha
        cases ht
        simp only [listStatement, hu.1, hkind, if_false] at ha
        cases ha

theorem Follows.fault {k : Keyword} {p : Production Tree} (hp : Follows k p) (hw : IsWord k w)
    (hq : ∀ t ∈ ts, Quoted t) (h : p fin ts = .error e) :
    Fault p (fun expected us => Awaits Statement expected (w :: us)) fin ts e := by
  cases hp with
  | print => exact fault_printStatement hw hq h
  | goto => exact fault_gotoStatement hw h
  | gosub => exact fault_gosubStatement hw h
  | input => exact fault_inputStatement hw h
  | assign => exact fault_letStatement hw h
  | list => exact fault_listStatement hw h
  | ret | clear | run | finish => cases h

/-! ### IF

The production for `IF` in three parts, each of which begins with what the one before it leaves. -/

/-- What follows the second expression of an `IF`. -/
def thenPart (fin : Ending) (ts : List Token) : Except ParseError (Tree × Nat) := do
  expectThen fin ts
  let (body, n) ← Parse.statement fin (ts.drop 1)
  return (body, 1 + n)

/-- What follows the first expression of an `IF`. -/
def comparePart (fin : Ending) (ts : List Token) :
    Except ParseError ((Token × Tree × Tree) × Nat) := do
  let op ← Parse.expect fin .relop .relop ts
  let (right, n) ← Parse.expr fin (ts.drop 1)
  let (body, m) ← thenPart fin (ts.drop (1 + n))
  return ((op, right, body), 1 + n + m)

theorem ifStatement_eq (hw : IsWord .ifKw w) (fin : Ending) (ts : List Token) :
    Parse.statement fin (w :: ts) = do
      let (left, n) ← Parse.expr fin ts
      let ((op, right, body), m) ← comparePart fin (ts.drop n)
      return (.ifThen (.compare (.ofText op.text) left right) body, 1 + (n + m)) := by
  rw [Parse.statement]
  simp only [keyword?_eq_some_iff.2 hw, comparePart, thenPart, bind_assoc, pure_bind,
    List.drop_drop, Nat.add_assoc]

theorem expectThen_error (h : expectThen fin ts = .error e) :
    e = fin.unexpected .thenKw ts ∧ ∀ t ∈ ts.head?, t.keyword? ≠ some .thenKw := by
  cases ts with
  | nil =>
      cases h
      exact ⟨rfl, nofun⟩
  | cons t rest =>
      simp only [expectThen] at h
      split at h
      case isTrue => cases h
      case isFalse hnot =>
        cases h
        refine ⟨rfl, ?_⟩
        intro t' ht
        cases ht
        exact hnot

/-- The tokens `pre` are an `IF` up to its second expression. -/
theorem fault_thenPart {pre : List Token}
    (hpre : ∀ {w vs body}, IsWord .thenKw w → Statement vs body → ∃ a, Statement (pre ++ w :: vs) a)
    (ih : ∀ n e, Parse.statement fin (ts.drop n) = .error e →
      Fault Parse.statement (Awaits Statement) fin (ts.drop n) e)
    (h : thenPart fin ts = .error e) :
    Fault thenPart (fun expected us => Awaits Statement expected (pre ++ us)) fin ts e := by
  rcases error_of_bind h with h | ⟨_, hword, h⟩
  -- a like token is the same keyword, so it is not `THEN` either
  · rcases expectThen_error h with ⟨rfl, hnot⟩
    refine .here ?_ ?_
    · rcases hpre (isWord_keyword .thenKw) statement_end with ⟨a, ha⟩
      rw [List.append_nil]
      exact ⟨keyword .thenKw, [keyword .endKw], a, rfl, valid_singleton (valid_keyword .endKw), ha⟩
    · intro t ht u hu fin' more a ha
      rcases ok_of_bind ha with ⟨_, hword, -⟩
      rcases expectThen_eq_ok_iff.1 hword with ⟨w, _, hw, hcons⟩
      cases hcons
      refine hnot t ht ?_
      rw [← hu.2]
      exact keyword?_eq_some_iff.2 hw
  · rcases error_of_bind h with h | ⟨⟨body, n⟩, _, h⟩
    · rcases expectThen_eq_ok_iff.1 hword with ⟨w, vs, hw, rfl⟩
      refine (ih 1 e h).behind [w] ?_ ?_
      · intro expected us _ hus
        rw [← List.append_assoc]
        refine hus.imp (pre ++ [w]) ?_
        intro ts body hts
        rw [List.append_assoc]
        exact hpre hw hts
      · intro t ht u hu fin' more a ha
        rcases ok_of_bind ha with ⟨_, _, ha⟩
        exact exists_ok_of_bind ha
    · cases h

/-- The tokens `pre` are an `IF` up to its first expression. -/
theorem fault_comparePart {pre : List Token}
    (hpre : ∀ {r rs w vs right body}, r.kind = .relop → Derives .expr rs right → IsWord .thenKw w →
      Statement vs body → ∃ a, Statement (pre ++ r :: (rs ++ w :: vs)) a)
    (ih : ∀ n e, Parse.statement fin (ts.drop n) = .error e →
      Fault Parse.statement (Awaits Statement) fin (ts.drop n) e)
    (h : comparePart fin ts = .error e) :
    Fault comparePart (fun expected us => Awaits Statement expected (pre ++ us)) fin ts e := by
  cases hop : Parse.expect fin .relop .relop ts with
  | error e' =>
      rcases error_of_bind h with h | ⟨r, hr, -⟩
      · refine .expect [] h ?_ ?_
        · rcases hpre (r := (comparison .equal).token) rfl derives_letter_A
            (isWord_keyword .thenKw) statement_end with ⟨a, ha⟩
          rw [List.append_nil]
          exact ⟨_, _, a, rfl, List.forall_mem_cons.2 ⟨valid_letter_A, valid_then_end⟩, ha⟩
        · intro fin' more a ha
          exact exists_ok_of_bind ha
      · rw [hop] at hr
        cases hr
  | ok r =>
      rcases expect_eq_ok_iff.1 hop with ⟨hr, rest, rfl⟩
      refine Fault.chain (r := fun _ fin ts => thenPart fin ts)
        (f := fun x y => ((r, x.1, y.1), 1 + x.2 + y.2)) [r] ?_
        settled_expr (fun _ _ => expr_sound) (fun _ => fault_expr) ?_ ?_ h
      · intro fin' ts'
        have hop' : Parse.expect fin' .relop .relop (r :: ts') = .ok r :=
          expect_eq_ok_iff.2 ⟨hr, ts', rfl⟩
        simp only [List.cons_append, List.nil_append, comparePart, hop', drop_one_add]
        rfl
      · intro expected us hus
        rw [← List.append_assoc]
        refine hus.imp_append (pre ++ [r]) [keyword .thenKw, keyword .endKw] valid_then_end ?_
        intro ts b hts
        rw [List.append_assoc]
        exact hpre hr hts (isWord_keyword .thenKw) statement_end
      · intro right rs hrs h
        have hfault : Fault thenPart
            (fun expected vs => Awaits Statement expected (pre ++ ([r] ++ rs) ++ vs)) fin
            (rest.drop rs.length) e := by
          refine fault_thenPart ?_ ?_ h
          · intro w vs body hw hbody
            rw [List.append_assoc]
            exact hpre hr hrs hw hbody
          · intro n e'
            rw [List.drop_drop, ← drop_one_add r]
            exact ih _ e'
        simpa only [List.append_assoc] using hfault

theorem fault_ifStatement {i : Token} (hi : IsWord .ifKw i)
    (ih : ∀ n e, Parse.statement fin (ts.drop n) = .error e →
      Fault Parse.statement (Awaits Statement) fin (ts.drop n) e)
    (h : Parse.statement fin (i :: ts) = .error e) :
    Fault Parse.statement (Awaits Statement) fin (i :: ts) e := by
  refine Fault.chain (r := fun _ fin ts => comparePart fin ts)
    (f := fun x y => (.ifThen (.compare (.ofText y.1.1.text) x.1 y.1.2.1) y.1.2.2, 1 + (x.2 + y.2)))
    [i] ?_ settled_expr (fun _ _ => expr_sound) (fun _ => fault_expr) ?_ ?_ h
  · intro fin' ts'
    exact ifStatement_eq hi fin' ts'
  · intro expected us hus
    refine hus.imp_append [i]
      [comparison .equal, letter "A", keyword .thenKw, keyword .endKw] ?_ ?_
    · refine List.forall_mem_cons.2 ⟨valid_comparison .equal, ?_⟩
      exact List.forall_mem_cons.2 ⟨valid_letter_A, valid_then_end⟩
    · intro ts a hts
      exact ⟨_, .ifThen hi hts rfl derives_letter_A (isWord_keyword .thenKw) statement_end⟩
  · intro left ls hls h
    refine fault_comparePart ?_ ?_ h
    · intro r rs w vs right body hr hrs hw hbody
      exact ⟨_, .ifThen hi hls hr hrs hw hbody⟩
    · intro n e'
      rw [List.drop_drop]
      exact ih _ e'

/-- What goes wrong in a statement. -/
theorem fault_statement (hq : ∀ t ∈ ts, Quoted t) (h : Parse.statement fin ts = .error e) :
    Fault Parse.statement (Awaits Statement) fin ts e := by
  have hgood : ∀ expected us, Awaits (Derives .expr) expected us →
      Awaits Statement expected us := by
    intro expected us
    exact .imp [] fun ts a hts => ⟨a, .expr hts⟩
  induction ts using statement_induction generalizing e with
  | nil =>
      rw [Parse.statement] at h
      refine (fault_expr h).first hgood ?_
      intro t ht
      cases ht
  | bare t rest hk =>
      simp only [Parse.statement, hk] at h
      split at h
      case isTrue hstr =>
        cases h
        refine .here (.word rfl (.expr derives_letter_A)) ?_
        intro t' ht u hu fin' more a ha
        cases ht
        simp only [Parse.statement, hu.2, hk, hu.1, hstr, if_true] at ha
        cases ha
      case isFalse hstr =>
        refine (fault_expr h).first hgood ?_
        intro t' ht u hu fin' more a ha
        cases ht
        simp only [Parse.statement, hu.2, hk, hu.1, hstr, if_false] at ha
        exact ⟨a, ha⟩
  | led k p t rest hp hk =>
      rw [hp.statement_eq hk] at h
      rcases error_of_bind h with h | ⟨⟨tree, n⟩, _, h⟩
      · have hqrest : ∀ u ∈ rest, Quoted u := fun u hu => hq u (List.mem_cons_of_mem t hu)
        refine (hp.fault (keyword?_eq_some_iff.1 hk) hqrest h).behind [t] (fun _ _ _ hus => hus) ?_
        intro _ _ u hu fin' more a ha
        rw [List.cons_append, hp.statement_eq hk] at ha
        exact exists_ok_of_bind ha
      · cases h
  | ifThen t rest hk ih =>
      refine fault_ifStatement (keyword?_eq_some_iff.1 hk) ?_ h
      intro n e' h'
      refine ih n ?_ h'
      intro u hu
      exact hq u (List.mem_cons_of_mem t (List.mem_of_mem_drop hu))
  | stray t rest hk =>
      -- `THEN` and `QUIT` begin no statement, whatever follows them
      have hstray : ∀ u, Alike t u → ∀ fin more,
          Parse.statement fin (u :: more) = .error (fin.unexpected .statement (u :: more)) := by
        intro u hu fin more
        rcases hk with hk | hk <;> simp only [Parse.statement, hu.2, hk]
      rw [hstray t (.refl t)] at h
      cases h
      refine .here (.word rfl statement_end) ?_
      intro t' ht u hu fin' more a ha
      cases ht
      rw [hstray u hu] at ha
      cases ha

end Statements

end Grammar
end TinyBasic
