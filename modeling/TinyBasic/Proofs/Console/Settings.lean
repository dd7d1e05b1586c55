import Mathlib
import TinyBasic.Options

/-!
# Settings — the options that settings ask for

`Describes settings o` says field by field what a list of settings asks for. Settings that do not
ask for two modes can be applied one by one, and what comes of it is what they describe
(`describes_run`). Conversely there are settings for all options (`settingsFor`).
-/

namespace TinyBasic

/-- The line that the setting gives. -/
def Setting.line? : Setting → Option String
  | line text => some text
  | _ => none

/-- The prompt that the setting asks for, or that there be none. -/
def Setting.prompt? : Setting → Option (Option String)
  | quiet => some none
  | prompt text => some (some text)
  | _ => none

namespace Arguments

/-! ## What settings ask for -/

/-- The options are those that the settings ask for. -/
structure Describes (settings : List Setting) (o : Options) : Prop where
  lines : o.lines = settings.filterMap Setting.line?
  tree : o.mode = .tree ↔ .mode .tree ∈ settings
  tokens : o.mode = .tokens ↔ .mode .tokens ∈ settings
  raw : o.upcase = false ↔ .raw ∈ settings
  /-- The last word on the prompt counts. -/
  prompt : o.prompt = (settings.filterMap Setting.prompt?).getLast?.getD (some "> ")
  help : o.help = true ↔ .help ∈ settings

theorem describes_nil : Describes [] {} := by
  constructor <;> simp

/-- Settings that ask for the same are described by the same options. -/
theorem Describes.unique {ss ts : List Setting} {o p : Options} (ho : Describes ss o)
    (hp : Describes ts p) (hmem : ∀ s, s ∈ ss ↔ s ∈ ts)
    (hlines : ss.filterMap Setting.line? = ts.filterMap Setting.line?)
    (hprompts : ss.filterMap Setting.prompt? = ts.filterMap Setting.prompt?) : o = p := by
  have htree : o.mode = .tree ↔ p.mode = .tree := by
    rw [ho.tree, hp.tree, hmem]
  have htokens : o.mode = .tokens ↔ p.mode = .tokens := by
    rw [ho.tokens, hp.tokens, hmem]
  have hmode : o.mode = p.mode := by
    revert htree htokens
    cases o.mode <;> cases p.mode <;> simp
  have hraw : o.upcase = false ↔ p.upcase = false := by
    rw [ho.raw, hp.raw, hmem]
  have hupcase : o.upcase = p.upcase := by
    revert hraw
    cases o.upcase <;> cases p.upcase <;> simp
  have hhelp : o.help = p.help := by
    rw [Bool.eq_iff_iff, ho.help, hp.help, hmem]
  have hprompt : o.prompt = p.prompt := by
    rw [ho.prompt, hp.prompt, hprompts]
  have hlinesEq : o.lines = p.lines := by
    rw [ho.lines, hp.lines, hlines]
  cases o
  cases p
  simp_all

/-! ## Settings one by one -/

/-- Two settings ask for different modes, the last one among them. -/
inductive Opposed (ss : List Setting) : Setting → Prop where
  | tree : .mode .tokens ∈ ss → Opposed ss (.mode .tree)
  | tokens : .mode .tree ∈ ss → Opposed ss (.mode .tokens)

theorem apply_of_opposed {ss : List Setting} {o : Options} {s : Setting} (ho : Describes ss o)
    (h : Opposed ss s) : o.apply s = .error .conflictingModes := by
  cases h with
  | tree h => simp [Options.apply, ho.tokens.2 h]
  | tokens h => simp [Options.apply, ho.tree.2 h]

/-- One setting more, unless it is opposed to one before. -/
theorem Describes.step {ss : List Setting} {o : Options} {s : Setting} (ho : Describes ss o)
    (hs : s ≠ .mode .eval) (hfit : ¬ Opposed ss s) :
    ∃ p, o.apply s = .ok p ∧ Describes (ss ++ [s]) p := by
  cases s with
  | mode m =>
      -- the mode so far is not the other one, or there would be a setting for it
      have hmode : (o.mode = .eval ∨ o.mode = m) ∧
          Describes (ss ++ [.mode m]) { o with mode := m } := by
        cases m with
        | eval => exact absurd rfl hs
        | tree =>
            have hother : .mode .tokens ∉ ss := fun h => hfit (.tree h)
            refine ⟨?_, ?_⟩
            · have hne := mt ho.tokens.1 hother
              revert hne
              cases o.mode <;> simp
            · constructor <;>
                simp [Setting.line?, Setting.prompt?, ho.lines, hother, ho.raw, ho.prompt, ho.help]
        | tokens =>
            have hother : .mode .tree ∉ ss := fun h => hfit (.tokens h)
            refine ⟨?_, ?_⟩
            · have hne := mt ho.tree.1 hother
              revert hne
              cases o.mode <;> simp
            · constructor <;>
                simp [Setting.line?, Setting.prompt?, ho.lines, hother, ho.raw, ho.prompt, ho.help]
      exact ⟨{ o with mode := m }, if_pos hmode.1, hmode.2⟩
  | raw | quiet | help | line _ | prompt _ =>
      refine ⟨_, rfl, ?_⟩
      constructor <;>
        simp [Setting.line?, Setting.prompt?, ho.lines, ho.tree, ho.tokens, ho.raw, ho.prompt,
          ho.help]

/-- Settings that ask for one mode at most are applied one by one, and describe what comes of it. -/
theorem describes_run {ss : List Setting} (heval : .mode .eval ∉ ss)
    (hmodes : ¬ (.mode .tree ∈ ss ∧ .mode .tokens ∈ ss)) :
    ∃ o, ss.foldlM Options.apply {} = .ok o ∧ Describes ss o := by
  induction ss using List.reverseRecOn with
  | nil => exact ⟨{}, rfl, describes_nil⟩
  | append_singleton ss s ih =>
      simp only [List.mem_append, List.mem_singleton, not_or] at heval hmodes
      have hfit : ¬ Opposed ss s := by
        intro h
        cases h with
        | tree h => exact hmodes ⟨.inr rfl, .inl h⟩
        | tokens h => exact hmodes ⟨.inl h, .inr rfl⟩
      rcases ih heval.1 fun h => hmodes ⟨.inl h.1, .inl h.2⟩ with ⟨o, hrun, ho⟩
      rcases ho.step (fun h => heval.2 h.symm) hfit with ⟨p, happly, hp⟩
      refine ⟨p, ?_, hp⟩
      rw [List.foldlM_append, hrun]
      suffices hlast : o.apply s >>= pure = .ok p from hlast
      rw [happly]
      rfl

/-! ## Settings for options -/

/-- Settings that ask for the options. -/
def settingsFor (o : Options) : List Setting :=
  let mode := if o.mode = .eval then [] else [Setting.mode o.mode]
  let raw := if o.upcase then [] else [Setting.raw]
  let prompt := o.prompt.elim Setting.quiet Setting.prompt
  let help := if o.help then [Setting.help] else []
  mode ++ raw ++ prompt :: (help ++ o.lines.map Setting.line)

theorem foldlM_lines (o : Options) (lines : List String) :
    (lines.map Setting.line).foldlM Options.apply o =
      .ok { o with lines := o.lines ++ lines } := by
  induction lines generalizing o with
  | nil => simp [pure, Except.pure]
  | cons text lines ih =>
      have hrest := ih { o with lines := o.lines ++ [text] }
      rw [List.append_assoc] at hrest
      exact hrest

theorem run_settingsFor (o : Options) : (settingsFor o).foldlM Options.apply {} = .ok o := by
  rcases o with ⟨mode, upcase, prompt, lines, help⟩
  cases mode <;> cases upcase <;> cases prompt <;> cases help <;> exact foldlM_lines _ lines

theorem ne_eval_of_mem_settingsFor {o : Options} {s : Setting} (h : s ∈ settingsFor o) :
    s ≠ .mode .eval := by
  rintro rfl
  rcases o with ⟨mode, upcase, prompt, lines, help⟩
  cases mode <;> cases upcase <;> cases prompt <;> cases help <;> simp [settingsFor] at h

end Arguments
end TinyBasic
