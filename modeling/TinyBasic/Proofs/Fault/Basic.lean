import TinyBasic.Proofs.Grammar.Extent
import TinyBasic.Proofs.Tree.RoundTrip

/-!
# Fault — what an error says of the tokens

A production that fails has found a place where it cannot go on. `Fault p C fin ts e` says what its
error `e` tells about the tokens `ts`:

* the tokens in front of the place are good, as `C` says of them and of what was expected. For
  `C` stands mostly `Awaits P`: they can be made complete with words the first of which is expected;
* the token at the place is bad: `p` reads nothing that begins with the good tokens and this one.

What a part of a production finds wrong is wrong for the whole, behind the tokens that were read
before (`Fault.behind`, and `Fault.chain` for a production in two parts).
-/

namespace TinyBasic
namespace Grammar

open Parse Lexicon Source

/-! ## What may come next -/

/-- A word for what is expected; none if that is the end of the line. -/
def suggestion? : Expected → Option Lexeme
  | .num => some (Source.number 1)
  | .var => some (letter "A")
  | .relop => some (comparison .equal)
  | .thenKw => some (keyword .thenKw)
  | .comma => some comma
  | .equal => some (comparison .equal)
  | .expression => some (letter "A")
  | .numOrVar => some (letter "A")
  | .numberOrParen => some ⟨.lparen, "("⟩
  | .rparen => some ⟨.rparen, ")"⟩
  | .statement => some (keyword .endKw)
  | .endOfLine => none

theorem valid_letter_A : (letter "A").Valid :=
  valid_letter ⟨'A', rfl, rfl⟩

/-- The tokens can be made into one of `P` by words behind them, the first of which is expected. -/
def Awaits {α : Type} (P : List Token → α → Prop) (expected : Expected) (us : List Token) : Prop :=
  ∃ (w : Lexeme) (ws : List Lexeme) (a : α), suggestion? expected = some w ∧
    (∀ l ∈ ws, l.Valid) ∧ P (us ++ w.token :: ws.map Lexeme.token) a

namespace Awaits

variable {α β : Type} {P : List Token → α → Prop} {Q : List Token → β → Prop}
  {expected : Expected} {vs : List Token}

/-- The expected word is all that is missing. -/
theorem word {w : Lexeme} {a : α} (hw : suggestion? expected = some w) (h : P (vs ++ [w.token]) a) :
    Awaits P expected vs :=
  ⟨w, [], a, hw, nofun, h⟩

/-- Words that complete a part, and some more, complete the whole. -/
theorem imp_append (us : List Token) (more : List Lexeme) (hmore : ∀ l ∈ more, l.Valid)
    (himp : ∀ ts a, P ts a → ∃ b, Q (us ++ (ts ++ more.map Lexeme.token)) b)
    (h : Awaits P expected vs) : Awaits Q expected (us ++ vs) := by
  rcases h with ⟨w, ws, a, hw, hws, hP⟩
  rcases himp _ a hP with ⟨b, hQ⟩
  refine ⟨w, ws ++ more, b, hw, List.forall_mem_append.2 ⟨hws, hmore⟩, ?_⟩
  simpa using hQ

/-- Words that complete the last part complete the whole. -/
theorem imp (us : List Token) (himp : ∀ ts a, P ts a → ∃ b, Q (us ++ ts) b)
    (h : Awaits P expected vs) : Awaits Q expected (us ++ vs) := by
  refine h.imp_append us [] nofun ?_
  intro ts a hts
  rw [List.map_nil, List.append_nil]
  exact himp ts a hts

end Awaits

/-! ## Faults -/

/-- How a production `p` can fail. -/
inductive Fault {α : Type} (p : Ending → List Token → Except ParseError α)
    (C : Expected → List Token → Prop) (fin : Ending) : List Token → ParseError → Prop where
  /-- The tokens are good as far as they go. -/
  | atEnd {us : List Token} {expected : Expected} :
      C expected us → Fault p C fin us (fin.atEnd expected)
  /-- No token like `t` may stand here. -/
  | atToken {us rest : List Token} {t : Token} {expected : Expected} :
      C expected us → (∀ u, Alike t u → ∀ fin' more a, p fin' (us ++ u :: more) ≠ .ok a) →
        Fault p C fin (us ++ t :: rest) (.atToken expected t)
  /-- A token like `t` may stand here, but not with this value. -/
  | atValue {us rest : List Token} {t : Token} {expected : Expected} {w : Lexeme} :
      C expected us → suggestion? expected = some w → w.kind = t.kind →
        (t.kind = .num ∨ t.kind = .relop) → (∀ fin' more a, p fin' (us ++ t :: more) ≠ .ok a) →
        Fault p C fin (us ++ t :: rest) (fin.reject expected t rest)

section Fault

variable {α β : Type} {p : Ending → List Token → Except ParseError α}
  {q : Ending → List Token → Except ParseError β} {C D : Expected → List Token → Prop}
  {fin : Ending} {ts rest : List Token} {e : ParseError}

/-- A fault of a part is a fault of the whole, if the whole can only be read where the part is. -/
theorem Fault.behind (us : List Token) (h : Fault q C fin rest e)
    (hgood : ∀ expected vs, vs <+: rest → C expected vs → D expected (us ++ vs))
    (hpart : ∀ t ∈ rest.head?, ∀ u, Alike t u → ∀ fin' more a,
      p fin' (us ++ u :: more) = .ok a → ∃ b, q fin' (u :: more) = .ok b) :
    Fault p D fin (us ++ rest) e := by
  -- the bad token, or the first good one in front of it, is what the part begins with
  have hbad : ∀ vs t more', rest = vs ++ t :: more' → ∀ u, Alike t u → ∀ fin' more,
      (∀ b, q fin' (vs ++ u :: more) ≠ .ok b) → ∀ a, p fin' (us ++ vs ++ u :: more) ≠ .ok a := by
    intro vs t more' hrest u hu fin' more hq a ha
    subst hrest
    rw [List.append_assoc] at ha
    cases vs with
    | nil =>
        rcases hpart t rfl u hu fin' more a ha with ⟨b, hb⟩
        exact hq b hb
    | cons v vs =>
        rcases hpart v rfl v (.refl v) fin' (vs ++ u :: more) a ha with ⟨b, hb⟩
        exact hq b hb
  cases h with
  | @atEnd _ expected hC => exact .atEnd (hgood expected rest (List.prefix_refl rest) hC)
  | @atToken vs more' t expected hC hq =>
      rw [← List.append_assoc]
      refine .atToken (hgood expected vs (List.prefix_append vs _) hC) ?_
      intro u hu fin' more
      exact hbad vs t more' rfl u hu fin' more (hq u hu fin' more)
  | @atValue vs more' t expected w hC hw hkind hvalue hq =>
      rw [← List.append_assoc]
      refine .atValue (hgood expected vs (List.prefix_append vs _) hC) hw hkind hvalue ?_
      intro fin' more
      exact hbad vs t more' rfl t (.refl t) fin' more (hq fin' more)

/-- The part comes first. -/
theorem Fault.first (h : Fault q C fin ts e) (hgood : ∀ expected us, C expected us → D expected us)
    (hpart : ∀ t ∈ ts.head?, ∀ u, Alike t u → ∀ fin' more a,
      p fin' (u :: more) = .ok a → ∃ b, q fin' (u :: more) = .ok b) : Fault p D fin ts e :=
  h.behind [] (fun expected us _ => hgood expected us) hpart

/-- A production that reads a part with `q` behind the tokens `pre`, and then goes on with `r`,
fails in the part or in what it goes on with. -/
theorem Fault.chain {γ : Type} {q : Production γ}
    {r : γ → Ending → List Token → Except ParseError β} {f : γ × Nat → β → α}
    {P : List Token → γ → Prop} (pre : List Token)
    (hp : ∀ fin ts, p fin (pre ++ ts) = do
      let x ← q fin ts
      return f x (← r x.1 fin (ts.drop x.2)))
    (hsettled : Settled q) (hsound : ∀ c n, q fin ts = .ok (c, n) → Takes P ts c n)
    (hfirst : ∀ e, q fin ts = .error e → Fault q C fin ts e)
    (hgood : ∀ expected us, C expected us → D expected (pre ++ us))
    (hnext : ∀ c us, P us c → r c fin (ts.drop us.length) = .error e →
      Fault (r c) (fun expected vs => D expected (pre ++ us ++ vs)) fin (ts.drop us.length) e)
    (h : p fin (pre ++ ts) = .error e) : Fault p D fin (pre ++ ts) e := by
  rw [hp] at h
  rcases error_of_bind h with h | ⟨⟨c, n⟩, hc, h⟩
  -- the part fails: it comes right behind `pre`
  · refine (hfirst e h).behind pre (fun expected us _ => hgood expected us) ?_
    intro t ht u hu fin' more a ha
    rw [hp] at ha
    exact exists_ok_of_bind ha
  -- the part is read, and what comes behind it fails
  · rcases error_of_bind h with h | ⟨b, _, h⟩
    · rcases hsound c n hc with ⟨us, rest, rfl, rfl, hus⟩
      have hfault := hnext c us hus h
      rw [List.drop_left] at hfault
      rw [← List.append_assoc]
      refine hfault.behind (pre ++ us) (fun _ _ _ hvs => hvs) ?_
      -- the part is read as before, if the rest begins alike
      intro t ht u hu fin' more a ha
      rw [List.append_assoc, hp, hsettled.append hc ht hu fin' more] at ha
      have hrest : (do return f (c, us.length) (← r c fin' ((us ++ u :: more).drop us.length)))
          = .ok a := ha
      rcases ok_of_bind hrest with ⟨b, hb, -⟩
      rw [List.drop_left] at hb
      exact ⟨b, hb⟩
    · cases h

/-- The very first token is bad, or missing. -/
theorem Fault.here {expected : Expected} (hC : C expected [])
    (hbad : ∀ t ∈ ts.head?, ∀ u, Alike t u → ∀ fin' more a, p fin' (u :: more) ≠ .ok a) :
    Fault p C fin ts (fin.unexpected expected ts) := by
  cases ts with
  | nil => exact .atEnd hC
  | cons t rest =>
      have hfault : Fault p C fin ([] ++ t :: rest) (.atToken expected t) :=
        .atToken hC (hbad t rfl)
      exact hfault

/-- The first token is a number that is out of range. -/
theorem Fault.number {negative : Bool} {t : Token} (hkind : t.kind = .num)
    (h : number fin negative t rest = .error e) (hC : C .num [])
    (hpart : ∀ fin' more a, p fin' (t :: more) = .ok a → ∃ n, number fin' negative t more = .ok n) :
    Fault p C fin (t :: rest) e := by
  simp only [Parse.number] at h
  split at h
  case h_1 => cases h
  case h_2 hvalue =>
    cases h
    -- there is no value whatever follows, so nothing that begins with the token is read
    suffices hfault : Fault p C fin ([] ++ t :: rest) (fin.reject .num t rest) from hfault
    refine .atValue hC rfl hkind.symm (.inl hkind) ?_
    intro fin' more a ha
    rcases hpart fin' more a ha with ⟨n, hn⟩
    simp only [Parse.number, hvalue] at hn
    cases hn

/-- The token behind `us` is not of the kind that must stand there. -/
theorem Fault.expect (us : List Token) {kind : Token.Kind} {expected : Expected}
    (h : expect fin kind expected ts = .error e) (hC : C expected us)
    (hpart : ∀ fin' more a, p fin' (us ++ more) = .ok a →
      ∃ t, Parse.expect fin' kind expected more = .ok t) : Fault p C fin (us ++ ts) e := by
  cases ts with
  | nil =>
      cases h
      rw [List.append_nil]
      exact .atEnd hC
  | cons t rest =>
      simp only [Parse.expect] at h
      split at h
      case isTrue => cases h
      case isFalse hkind =>
        cases h
        refine .atToken hC ?_
        intro u hu fin' more a ha
        rcases hpart fin' (u :: more) a ha with ⟨u', hu'⟩
        rcases expect_eq_ok_iff.1 hu' with ⟨hukind, _, hcons⟩
        cases hcons
        exact hkind (hu.1 ▸ hukind)

end Fault

end Grammar
end TinyBasic
