import TinyBasic.Proofs.Fault.Statement

/-!
# Faults of lines and commands

A whole line fails where its statement does, or where it goes on behind its statement. So the good
tokens of a line may lack nothing: they are a line already, and no token may follow them.
-/

namespace TinyBasic
namespace Grammar

open Parse Lexicon Source

/-- The tokens are one of `P` where the end of the line is expected, or else they await more. -/
def Completes {α : Type} (P : List Token → α → Prop) (expected : Expected) (us : List Token) :
    Prop :=
  (expected = .endOfLine ∧ ∃ a, P us a) ∨ Awaits P expected us

theorem Completes.imp {α β : Type} {P : List Token → α → Prop} {Q : List Token → β → Prop}
    {expected : Expected} {vs : List Token} (us : List Token)
    (himp : ∀ ts a, P ts a → ∃ b, Q (us ++ ts) b) (h : Completes P expected vs) :
    Completes Q expected (us ++ vs) := by
  rcases h with ⟨rfl, a, ha⟩ | h
  · exact .inl ⟨rfl, himp vs a ha⟩
  · exact .inr (h.imp us himp)

/-- There is a token behind `us`, where the line must end, or the scan does not get there. -/
theorem Fault.endOfLine {α : Type} {p : Ending → List Token → Except ParseError α}
    {C : Expected → List Token → Prop} {fin : Ending} {ts : List Token} {e : ParseError}
    (us : List Token) (h : endOfLine fin ts = .error e) (hC : C .endOfLine us)
    (hpart : ∀ t ∈ ts.head?, ∀ u, Alike t u → ∀ fin' more a, p fin' (us ++ u :: more) = .ok a →
      Parse.endOfLine fin' (u :: more) = .ok ()) : Fault p C fin (us ++ ts) e := by
  have he : e = fin.unexpected .endOfLine ts := by
    cases ts <;> cases fin <;> cases h <;> rfl
  subst he
  cases ts with
  | nil =>
      rw [List.append_nil]
      exact .atEnd hC
  | cons t rest =>
      refine .atToken hC ?_
      intro u hu fin' more a ha
      have hend := hpart t rfl u hu fin' more a ha
      cases (endOfLine_eq_ok_iff.1 hend).1

section Lines

variable {fin : Ending} {ts : List Token} {e : ParseError}

theorem fault_wholeStatement (hq : ∀ t ∈ ts, Quoted t) (h : wholeStatement fin ts = .error e) :
    Fault wholeStatement (Completes Statement) fin ts e := by
  rcases error_of_bind h with h | ⟨⟨tree, n⟩, htree, h⟩
  · refine (fault_statement hq h).first (fun _ _ => .inr) ?_
    intro t ht u hu fin' more a ha
    exact exists_ok_of_bind ha
  · rcases error_of_bind h with h | ⟨_, _, h⟩
    · rcases statement_sound hq htree with ⟨us, rest, rfl, rfl, hus⟩
      rw [List.drop_left] at h
      refine .endOfLine us h (.inl ⟨rfl, tree, hus⟩) ?_
      -- the statement is read up to the same place, whatever like token stands there
      intro t ht u hu fin' more a ha
      rw [wholeStatement, settled_statement.append htree ht hu fin' more] at ha
      rcases ok_of_bind ha with ⟨_, hread, ha⟩
      cases hread
      rcases ok_of_bind ha with ⟨_, hend, -⟩
      rwa [List.drop_left] at hend
    · cases h

theorem awaits_number_line : Awaits Line .num [] := by
  rcases exists_literal_one false with ⟨n, hn⟩
  exact ⟨_, _, _, rfl, valid_singleton (valid_keyword .endKw), .numbered hn statement_end⟩

/-- What completes a statement completes a line, unless it makes the statement begin with a number.
That happens only where a number is expected at the very start, and then a numbered line will do. -/
theorem Completes.plain {expected : Expected} {us : List Token}
    (h : Completes Statement expected us) (hus : us <+: ts) (hts : ∀ t ∈ ts.head?, t.kind ≠ .num) :
    Completes Line expected us := by
  have hhead : ∀ u ∈ us.head?, u.kind ≠ .num := by
    intro u hu
    rcases List.head?_eq_some_iff.1 hu with ⟨vs, rfl⟩
    rcases hus with ⟨more, rfl⟩
    exact hts u rfl
  rcases h with ⟨rfl, a, ha⟩ | ⟨w, ws, a, hw, hws, ha⟩
  · exact .inl ⟨rfl, a, .plain ha hhead⟩
  · cases us with
    | cons u vs => exact .inr ⟨w, ws, a, hw, hws, .plain ha hhead⟩
    | nil =>
        by_cases hnum : w.kind = .num
        · cases expected <;> cases hw <;> cases hnum
          exact .inr awaits_number_line
        · refine .inr ⟨w, ws, a, hw, hws, .plain ha ?_⟩
          intro u hu
          cases hu
          exact hnum

/-- What goes wrong in a line. -/
theorem fault_line (hq : ∀ t ∈ ts, Quoted t) (h : Parse.line fin ts = .error e) :
    Fault Parse.line (Completes Line) fin ts e := by
  cases ts with
  | nil =>
      refine (fault_wholeStatement hq h).behind [] ?_ nofun
      intro expected us hprefix hus
      exact hus.plain hprefix nofun
  | cons t rest =>
      simp only [Parse.line] at h
      split at h
      case isTrue hkind =>
        have hline : ∀ fin ts, Parse.line fin (t :: ts) = do
            let n ← Parse.number fin false t ts
            return .numbered n (← wholeStatement fin ts) := by
          intro fin ts
          rw [Parse.line, if_pos hkind]
        rcases error_of_bind h with h | ⟨n, hn, h⟩
        · refine .number hkind h (.inr awaits_number_line) ?_
          intro fin' more a ha
          rw [hline] at ha
          exact exists_ok_of_bind ha
        · have hlit := (number_eq_ok_iff hkind).1 hn
          have hqrest : ∀ u ∈ rest, Quoted u := fun u hu => hq u (List.mem_cons_of_mem t hu)
          rcases error_of_bind h with h | ⟨tree, _, h⟩
          · refine (fault_wholeStatement hqrest h).behind [t] ?_ ?_
            · intro expected us _
              exact .imp [t] fun ts a hts => ⟨.numbered n a, .numbered hlit hts⟩
            · intro _ _ u hu fin' more a ha
              rw [List.cons_append, hline] at ha
              rcases ok_of_bind ha with ⟨_, _, ha⟩
              exact exists_ok_of_bind ha
          · cases h
      case isFalse hkind =>
        refine (fault_wholeStatement hq h).behind [] ?_ ?_
        · intro expected us hprefix hus
          refine hus.plain hprefix ?_
          intro u hu
          cases hu
          exact hkind
        · intro t' ht u hu fin' more a ha
          cases ht
          simp only [List.nil_append, Parse.line, hu.1, hkind, if_false] at ha
          exact ⟨a, ha⟩

/-- The tokens are a command: the word `QUIT` alone, or a line. -/
inductive Request : List Token → Command → Prop where
  | line {ts : List Token} {a : Tree} : Line ts a → Request ts (.line a)
  | quit {t : Token} : IsWord .quit t → Request [t] .quit

/-- What goes wrong in a command. -/
theorem fault_command (hq : ∀ t ∈ ts, Quoted t) (h : Parse.command fin ts = .error e) :
    Fault Parse.command (Completes Request) fin ts e := by
  have hgood : ∀ expected us, Completes Line expected us → Completes Request expected us := by
    intro expected us
    exact .imp [] fun ts a hts => ⟨.line a, .line hts⟩
  cases ts with
  | nil =>
      rcases error_of_bind h with h | ⟨_, _, h⟩
      · exact (fault_line hq h).first hgood nofun
      · cases h
  | cons t rest =>
      simp only [Parse.command] at h
      split at h
      case isTrue hquit =>
        rcases error_of_bind h with h | ⟨_, _, h⟩
        · refine .endOfLine [t] h (.inl ⟨rfl, .quit, .quit (keyword?_eq_some_iff.1 hquit)⟩) ?_
          intro _ _ u hu fin' more a ha
          simp only [List.cons_append, List.nil_append, Parse.command, hquit, if_true] at ha
          rcases ok_of_bind ha with ⟨_, hend, -⟩
          exact hend
        · cases h
      case isFalse hquit =>
        rcases error_of_bind h with h | ⟨_, _, h⟩
        · refine (fault_line hq h).first hgood ?_
          intro t' ht u hu fin' more a ha
          cases ht
          simp only [Parse.command, hu.2, hquit, if_false] at ha
          exact exists_ok_of_bind ha
        · cases h

end Lines

end Grammar
end TinyBasic
