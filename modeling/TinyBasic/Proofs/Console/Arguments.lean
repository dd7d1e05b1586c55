import TinyBasic.Proofs.Console.Settings

/-!
# Arguments — what a command line says

The options that arguments give are described here without reading them one after the other into
settings:

* `readings args` — the options of the whole command line, faulty ones included. What stands behind
  `-e` belongs to it, whatever it looks like;
* `Means r s` — the table of options: which setting an option stands for;
* `FaultAt before r e` — the option `r` cannot be accepted behind the options `before`.

The arguments are refused exactly for the first fault, and otherwise described by their settings.
-/

namespace TinyBasic
namespace Arguments

/-! ## The options of a command line -/

/-- An option as it stands in the arguments. -/
inductive Reading where
  /-- An argument that is an option by itself. -/
  | alone (argument : String)
  /-- The option `-e` with the argument behind it. -/
  | valued (value : String)
  /-- The option `-e` with no argument behind it. -/
  | unvalued
  deriving DecidableEq, Repr

namespace Reading

/-- The arguments that the option is written with. -/
def arguments : Reading → List String
  | alone argument => [argument]
  | valued value => ["-e", value]
  | unvalued => ["-e"]

/-- Whether the option gives a line to run. -/
def isLine : Reading → Bool
  | alone argument => "--eval=".toList.isPrefixOf argument.toList
  | valued _ => true
  | unvalued => false

/-- Whether the option is about the prompt. -/
def isPrompt : Reading → Bool
  | alone argument =>
      argument == "-q" || argument == "--quiet" || "--prompt=".toList.isPrefixOf argument.toList
  | _ => false

end Reading

/-- The options of a command line from left to right. -/
def readings : List String → List Reading
  | [] => []
  | argument :: rest =>
      if argument = "-e" then
        match rest with
        | [] => [.unvalued]
        | value :: rest => .valued value :: readings rest
      else
        .alone argument :: readings rest

theorem readings_alone {argument : String} (h : argument ≠ "-e") (rest : List String) :
    readings (argument :: rest) = .alone argument :: readings rest := by
  rw [readings.eq_def]
  simp [h]

/-- The setting that an option stands for. -/
inductive Means : Reading → Setting → Prop where
  | tree : Means (.alone "--tree") (.mode .tree)
  | tokens : Means (.alone "--tokens") (.mode .tokens)
  | raw : Means (.alone "--raw") .raw
  | quiet : Means (.alone "--quiet") .quiet
  | quietShort : Means (.alone "-q") .quiet
  | help : Means (.alone "--help") .help
  | helpShort : Means (.alone "-h") .help
  | prompt (text : String) : Means (.alone ("--prompt=" ++ text)) (.prompt text)
  | line (text : String) : Means (.alone ("--eval=" ++ text)) (.line text)
  | lineShort (text : String) : Means (.valued text) (.line text)

/-- The option has no meaning. -/
inductive Meaningless : Reading → OptionError → Prop where
  | unknown {argument : String} :
      (∀ s, ¬ Means (.alone argument) s) →
        Meaningless (.alone argument) (.unknownOption argument)
  | unvalued : Meaningless .unvalued (.missingValue "-e")

/-- The option asks for one mode, and an option before it for the other. -/
inductive Conflicts (before : List Reading) : Reading → Prop where
  | tree : .alone "--tokens" ∈ before → Conflicts before (.alone "--tree")
  | tokens : .alone "--tree" ∈ before → Conflicts before (.alone "--tokens")

/-- What is wrong with the option `r` behind the options `before`. -/
inductive FaultAt (before : List Reading) (r : Reading) : OptionError → Prop where
  | meaningless {e : OptionError} : Meaningless r e → FaultAt before r e
  | conflict : Conflicts before r → FaultAt before r .conflictingModes

/-- No option is faulty behind those before it. -/
def Faultless (rs : List Reading) : Prop :=
  ∀ before r after, rs = before ++ r :: after → ∀ e, ¬ FaultAt before r e

/-! ## One option -/

theorem valueAfter?_eq_some_iff {lead argument text : String} :
    Setting.valueAfter? lead argument = some text ↔ argument = lead ++ text := by
  have hdrop : ∀ rest, (lead.toList ++ rest).drop lead.length = rest := by
    intro rest
    rw [← String.length_toList, List.drop_left]
  simp only [Setting.valueAfter?]
  constructor
  · intro h
    split at h
    case isTrue hlead =>
      cases h
      rcases List.isPrefixOf_iff_prefix.1 hlead with ⟨rest, hrest⟩
      apply String.toList_injective
      rw [← hrest, hdrop, String.toList_append, String.toList_ofList]
    case isFalse => cases h
  · rintro rfl
    simp [hdrop]

/-- The arguments that are options without a value in them. -/
def flags : List String :=
  ["--tree", "--tokens", "--raw", "-q", "--quiet", "-h", "--help", "-e"]

/-- An argument that is none of them stands for a line or a prompt, or for nothing. -/
theorem ofArg_of_notMem {argument : String} (h : argument ∉ flags) (rest : List String) :
    (∀ text, Setting.valueAfter? "--eval=" argument = some text →
      Setting.ofArg argument rest = .ok (.line text, 0)) ∧
    (∀ text, Setting.valueAfter? "--eval=" argument = none →
      Setting.valueAfter? "--prompt=" argument = some text →
      Setting.ofArg argument rest = .ok (.prompt text, 0)) ∧
    (Setting.valueAfter? "--eval=" argument = none →
      Setting.valueAfter? "--prompt=" argument = none →
      Setting.ofArg argument rest = .error (.unknownOption argument)) := by
  simp only [flags, List.mem_cons, List.not_mem_nil, or_false, not_or] at h
  refine ⟨?_, ?_, ?_⟩
  · intro text hline
    simp [Setting.ofArg, h, hline]
  · intro text hline hprompt
    simp [Setting.ofArg, h, hline, hprompt]
  · intro hline hprompt
    simp [Setting.ofArg, h, hline, hprompt]

/-- A flag is not taken for an argument with a value in it. -/
theorem valueAfter?_of_mem_flags : ∀ flag ∈ flags,
    Setting.valueAfter? "--eval=" flag = none ∧ Setting.valueAfter? "--prompt=" flag = none := by
  decide

/-- An argument with a value in it is not a flag. -/
theorem notMem_flags (text : String) :
    "--eval=" ++ text ∉ flags ∧ "--prompt=" ++ text ∉ flags := by
  refine ⟨?_, ?_⟩
  · intro h
    have hnone := (valueAfter?_of_mem_flags _ h).1
    rw [valueAfter?_eq_some_iff.2 rfl] at hnone
    cases hnone
  · intro h
    have hnone := (valueAfter?_of_mem_flags _ h).2
    rw [valueAfter?_eq_some_iff.2 rfl] at hnone
    cases hnone

theorem ofArg_of_means {argument : String} {s : Setting} (h : Means (.alone argument) s)
    (rest : List String) : Setting.ofArg argument rest = .ok (s, 0) := by
  generalize hr : Reading.alone argument = r at h
  cases h with
  | prompt text =>
      cases hr
      have hline : Setting.valueAfter? "--eval=" ("--prompt=" ++ text) = none := by
        simp [Setting.valueAfter?]
      have hofArg := ofArg_of_notMem (notMem_flags text).2 rest
      exact hofArg.2.1 text hline (valueAfter?_eq_some_iff.2 rfl)
  | line text =>
      cases hr
      have hofArg := ofArg_of_notMem (notMem_flags text).1 rest
      exact hofArg.1 text (valueAfter?_eq_some_iff.2 rfl)
  | lineShort => cases hr
  | _ =>
      cases hr
      simp [Setting.ofArg]

theorem ofArg_of_unknown {argument : String} (hne : argument ≠ "-e")
    (h : ∀ s, ¬ Means (.alone argument) s) (rest : List String) :
    Setting.ofArg argument rest = .error (.unknownOption argument) := by
  have hflags : argument ∉ flags := by
    intro hmem
    simp only [flags, List.mem_cons, List.not_mem_nil, or_false] at hmem
    rcases hmem with rfl | rfl | rfl | rfl | rfl | rfl | rfl | rfl
    · exact h _ .tree
    · exact h _ .tokens
    · exact h _ .raw
    · exact h _ .quietShort
    · exact h _ .quiet
    · exact h _ .helpShort
    · exact h _ .help
    · exact hne rfl
  have hline : Setting.valueAfter? "--eval=" argument = none := by
    rw [Option.eq_none_iff_forall_ne_some]
    intro text htext
    exact h (.line text) (valueAfter?_eq_some_iff.1 htext ▸ .line text)
  have hprompt : Setting.valueAfter? "--prompt=" argument = none := by
    rw [Option.eq_none_iff_forall_ne_some]
    intro text htext
    exact h (.prompt text) (valueAfter?_eq_some_iff.1 htext ▸ .prompt text)
  exact (ofArg_of_notMem hflags rest).2.2 hline hprompt

theorem not_means_dash_e (s : Setting) : ¬ Means (.alone "-e") s := by
  intro h
  have hok := ofArg_of_means h []
  simp [Setting.ofArg] at hok

/-- An option stands for one setting only. -/
theorem Means.unique {r : Reading} {s t : Setting} (hs : Means r s) (ht : Means r t) : s = t := by
  cases r with
  | alone argument =>
      have heq := (ofArg_of_means hs []).symm.trans (ofArg_of_means ht [])
      cases heq
      rfl
  | valued value =>
      cases hs
      cases ht
      rfl
  | unvalued => cases hs

theorem Means.ne_eval {r : Reading} {s : Setting} (h : Means r s) : s ≠ .mode .eval := by
  rintro rfl
  cases h

/-- The first option of a command line, and the arguments behind it. -/
theorem readings_eq_cons {args : List String} {r : Reading} {rs : List Reading}
    (h : readings args = r :: rs) : ∃ argument rest n, args = argument :: rest ∧
      readings (rest.drop n) = rs ∧
      (∀ s, Means r s → Setting.ofArg argument rest = .ok (s, n)) ∧
      ∀ e, Meaningless r e → Setting.ofArg argument rest = .error e := by
  cases args using readings.fun_cases with
  | case1 => cases h
  | case2 =>
      cases h
      refine ⟨"-e", [], 0, rfl, rfl, ?_, ?_⟩
      · intro s hs
        cases hs
      · intro e he
        cases he
        simp [Setting.ofArg]
  | case3 value rest =>
      cases h
      refine ⟨"-e", value :: rest, 1, rfl, rfl, ?_, ?_⟩
      · intro s hs
        cases hs
        simp [Setting.ofArg]
      · intro e he
        cases he
  | case4 argument rest hdash =>
      rw [readings_alone hdash] at h
      cases h
      refine ⟨argument, rest, 0, rfl, rfl, ?_, ?_⟩
      · intro s hs
        exact ofArg_of_means hs rest
      · intro e he
        cases he with
        | unknown hunknown => exact ofArg_of_unknown hdash hunknown rest

theorem readings_eq_nil {args : List String} (h : readings args = []) : args = [] := by
  cases args using readings.fun_cases with
  | case1 => rfl
  | case2 | case3 => cases h
  | case4 argument rest hdash =>
      rw [readings_alone hdash] at h
      cases h

/-! ## All options -/

/-- The options that stand for settings are applied, and reading goes on behind them. -/
theorem read_behind {before : List Reading} {ss : List Setting}
    (hmeans : List.Forall₂ Means before ss) :
    ∀ {args : List String} {rest : List Reading}, readings args = before ++ rest →
      ∃ behind, readings behind = rest ∧
        ∀ o : Options, o.read args = ss.foldlM Options.apply o >>= fun p => p.read behind := by
  induction hmeans with
  | nil =>
      intro args rest h
      exact ⟨args, h, fun o => rfl⟩
  | @cons r s before ss hs _ ih =>
      intro args rest h
      rcases readings_eq_cons h with ⟨argument, more, n, rfl, hmore, hofArg, -⟩
      rcases ih hmore with ⟨behind, hbehind, hread⟩
      refine ⟨behind, hbehind, ?_⟩
      intro o
      rw [Options.read, hofArg s hs, List.foldlM_cons]
      cases happly : o.apply s with
      | error e =>
          simp only [bind, Except.bind, happly]
      | ok p =>
          simp only [bind, Except.bind, happly]
          exact hread p

/-! ### Settings of all options -/

theorem exists_forall₂ {α β : Type} {R : α → β → Prop} {as : List α} (h : ∀ a ∈ as, ∃ b, R a b) :
    ∃ bs, List.Forall₂ R as bs := by
  induction as with
  | nil => exact ⟨[], .nil⟩
  | cons a as ih =>
      rw [List.forall_mem_cons] at h
      rcases h with ⟨⟨b, hb⟩, hrest⟩
      rcases ih hrest with ⟨bs, hbs⟩
      exact ⟨b :: bs, .cons hb hbs⟩

section Settings

variable {rs : List Reading} {ss : List Setting}

theorem exists_means_of_mem (h : List.Forall₂ Means rs ss) {s : Setting} (hs : s ∈ ss) :
    ∃ r ∈ rs, Means r s := by
  induction h with
  | nil => cases hs
  | @cons r t rs ss ht _ ih =>
      rcases List.mem_cons.1 hs with rfl | hs
      · exact ⟨r, List.mem_cons_self, ht⟩
      · rcases ih hs with ⟨r', hr', hmeans⟩
        exact ⟨r', List.mem_cons_of_mem r hr', hmeans⟩

theorem mem_settings (h : List.Forall₂ Means rs ss) {r : Reading} {s : Setting} (hs : Means r s)
    (hr : r ∈ rs) : s ∈ ss := by
  induction h with
  | nil => cases hr
  | @cons r' t rs ss ht _ ih =>
      rcases List.mem_cons.1 hr with rfl | hr
      · rw [hs.unique ht]
        exact List.mem_cons_self
      · exact List.mem_cons_of_mem t (ih hr)

/-- The modes of the settings are those that the options ask for. -/
theorem modes_of_settings (h : List.Forall₂ Means rs ss) : .mode .eval ∉ ss ∧
    (.mode .tree ∈ ss ↔ .alone "--tree" ∈ rs) ∧ (.mode .tokens ∈ ss ↔ .alone "--tokens" ∈ rs) := by
  refine ⟨?_, ⟨?_, mem_settings h .tree⟩, ⟨?_, mem_settings h .tokens⟩⟩
  · intro hs
    rcases exists_means_of_mem h hs with ⟨r, -, hmeans⟩
    exact hmeans.ne_eval rfl
  · intro hs
    rcases exists_means_of_mem h hs with ⟨r, hr, hmeans⟩
    cases hmeans
    exact hr
  · intro hs
    rcases exists_means_of_mem h hs with ⟨r, hr, hmeans⟩
    cases hmeans
    exact hr

/-- The option gives the value `b` of those that `f` takes from settings. -/
def Gives {β : Type} (f : Setting → Option β) (r : Reading) (b : β) : Prop :=
  ∃ s, Means r s ∧ f s = some b

theorem gives_unique {β : Type} (f : Setting → Option β) : Relator.RightUnique (Gives f) := by
  rintro r b c ⟨s, hs, hb⟩ ⟨t, ht, hc⟩
  rw [hs.unique ht, hc] at hb
  exact (Option.some.inj hb).symm

variable {β : Type} {p : Reading → Bool} {f : Setting → Option β}

/-- The options of the sort that gives values give those of the settings, one by one. -/
theorem forall₂_gives (hp : ∀ r s, Means r s → p r = (f s).isSome)
    (h : List.Forall₂ Means rs ss) : List.Forall₂ (Gives f) (rs.filter p) (ss.filterMap f) := by
  induction h with
  | nil => exact .nil
  | @cons r s rs ss hs _ ih =>
      have hr := hp r s hs
      cases hf : f s with
      | none =>
          rw [hf] at hr
          simpa [List.filter_cons, List.filterMap_cons, hr, hf] using ih
      | some b =>
          rw [hf] at hr
          simpa [List.filter_cons, List.filterMap_cons, hr, hf] using ⟨⟨s, hs, hf⟩, ih⟩

/-- Options of one sort in one order give their values in that order. -/
theorem filterMap_eq_of_filter (hp : ∀ r s, Means r s → p r = (f s).isSome)
    {rs' : List Reading} {ss' : List Setting} (h : List.Forall₂ Means rs ss)
    (h' : List.Forall₂ Means rs' ss') (heq : rs.filter p = rs'.filter p) :
    ss.filterMap f = ss'.filterMap f := by
  have hvalues := forall₂_gives hp h
  rw [heq] at hvalues
  exact List.right_unique_forall₂' (gives_unique f) hvalues (forall₂_gives hp h')

end Settings

theorem Means.isLine {r : Reading} {s : Setting} (h : Means r s) :
    r.isLine = s.line?.isSome := by
  cases h <;> simp [Reading.isLine, Setting.line?, List.isPrefixOf]

theorem Means.isPrompt {r : Reading} {s : Setting} (h : Means r s) :
    r.isPrompt = s.prompt?.isSome := by
  cases h with
  | line text =>
      have hflags := (notMem_flags text).1
      simp only [flags, List.mem_cons, not_or] at hflags
      simp [Reading.isPrompt, Setting.prompt?, List.isPrefixOf, hflags]
  | _ => simp [Reading.isPrompt, Setting.prompt?, List.isPrefixOf]

/-! ## Faults -/

/-- The three ways in which a command line is faulty. -/
theorem faultless_iff {rs : List Reading} : Faultless rs ↔
    (∀ argument, .alone argument ∈ rs → ∃ s, Means (.alone argument) s) ∧ .unvalued ∉ rs ∧
      ¬ (.alone "--tree" ∈ rs ∧ .alone "--tokens" ∈ rs) := by
  constructor
  · intro h
    refine ⟨?_, ?_, ?_⟩
    · intro argument hmem
      rcases List.append_of_mem hmem with ⟨before, after, hrs⟩
      by_contra hunknown
      exact h before _ after hrs _ (.meaningless (.unknown (not_exists.1 hunknown)))
    · intro hmem
      rcases List.append_of_mem hmem with ⟨before, after, hrs⟩
      exact h before _ after hrs _ (.meaningless .unvalued)
    · rintro ⟨htree, htokens⟩
      rcases List.append_of_mem htree with ⟨before, after, hrs⟩
      rw [hrs, List.mem_append, List.mem_cons] at htokens
      -- whichever of the two comes second is the fault
      rcases htokens with hbefore | heq | hafter
      · exact h before _ after hrs _ (.conflict (.tree hbefore))
      · simp at heq
      · rcases List.append_of_mem hafter with ⟨between, rest, hafter⟩
        refine h (before ++ .alone "--tree" :: between) (.alone "--tokens") rest ?_ _
          (.conflict (.tokens (by simp)))
        rw [hrs, hafter, List.append_assoc, List.cons_append]
  · rintro ⟨hknown, hvalued, hmodes⟩ before r after hrs e hfault
    have hr : r ∈ rs := by simp [hrs]
    have hbefore : ∀ r' ∈ before, r' ∈ rs := by
      intro r' hr'
      simp [hrs, hr']
    cases hfault with
    | meaningless h =>
        cases h with
        | unknown hunknown =>
            rcases hknown _ hr with ⟨s, hs⟩
            exact hunknown s hs
        | unvalued => exact hvalued hr
    | conflict h =>
        cases h with
        | tree htokens => exact hmodes ⟨hr, hbefore _ htokens⟩
        | tokens htree => exact hmodes ⟨hbefore _ htree, hr⟩

/-- A command line is faultless, or has a first fault. -/
theorem faultless_or_first (rs : List Reading) : Faultless rs ∨ ∃ before r after e,
    rs = before ++ r :: after ∧ Faultless before ∧ FaultAt before r e := by
  induction rs using List.reverseRecOn with
  | nil =>
      refine .inl ?_
      intro before r after h
      simp at h
  | append_singleton rs r ih =>
      rcases ih with hfaultless | ⟨before, r', after, e, rfl, hbefore, hfault⟩
      · by_cases hr : ∃ e, FaultAt rs r e
        · rcases hr with ⟨e, he⟩
          exact .inr ⟨rs, r, [], e, rfl, hfaultless, he⟩
        · refine .inl ?_
          intro before r' after h e he
          -- the option is the last one, or one of those before it
          rcases List.eq_nil_or_concat after with rfl | ⟨after, r'', rfl⟩
          · rcases List.append_inj' h rfl with ⟨rfl, hlast⟩
            cases hlast
            exact hr ⟨e, he⟩
          · rw [List.concat_eq_append, ← List.cons_append, ← List.append_assoc] at h
            exact hfaultless before r' after (List.append_inj' h rfl).1 e he
      · exact .inr ⟨before, r', after ++ [r], e, by simp, hbefore, hfault⟩

/-- Faultless options stand for settings that can be applied. -/
theorem run_of_faultless {rs : List Reading} (h : Faultless rs) : ∃ ss o,
    List.Forall₂ Means rs ss ∧ ss.foldlM Options.apply {} = .ok o ∧ Describes ss o := by
  rcases faultless_iff.1 h with ⟨hknown, hvalued, hmodes⟩
  have hmeans : ∀ r ∈ rs, ∃ s, Means r s := by
    intro r hr
    cases r with
    | alone argument => exact hknown argument hr
    | valued value => exact ⟨.line value, .lineShort value⟩
    | unvalued => exact absurd hr hvalued
  rcases exists_forall₂ hmeans with ⟨ss, hss⟩
  have hsettings := modes_of_settings hss
  rw [← hsettings.2.1, ← hsettings.2.2] at hmodes
  rcases describes_run hsettings.1 hmodes with ⟨o, hrun, ho⟩
  exact ⟨ss, o, hss, hrun, ho⟩

theorem ofArgs_of_settings {args : List String} {ss : List Setting}
    (h : List.Forall₂ Means (readings args) ss) :
    Options.ofArgs args = ss.foldlM Options.apply {} := by
  rcases read_behind h (List.append_nil _).symm with ⟨behind, hbehind, hread⟩
  rw [Options.ofArgs, hread, readings_eq_nil hbehind]
  cases ss.foldlM Options.apply {} with
  | error e => rfl
  | ok o =>
      suffices hend : o.read [] = .ok o from hend
      rw [Options.read]

/-- The first fault is the error. -/
theorem ofArgs_of_fault {args : List String} {before after : List Reading} {r : Reading}
    {e : OptionError} (hargs : readings args = before ++ r :: after) (hbefore : Faultless before)
    (hr : FaultAt before r e) : Options.ofArgs args = .error e := by
  rcases run_of_faultless hbefore with ⟨ss, o, hss, hrun, ho⟩
  rcases read_behind hss hargs with ⟨behind, hbehind, hread⟩
  -- the options in front have been applied, and the next one is at fault
  rcases readings_eq_cons hbehind with ⟨argument, rest, n, rfl, -, hofArg, hrefused⟩
  have hnext : Options.ofArgs args = o.read (argument :: rest) := by
    rw [Options.ofArgs, hread, hrun]
    rfl
  rw [hnext, Options.read]
  have hsettings := modes_of_settings hss
  cases hr with
  | meaningless h =>
      rw [hrefused e h]
      rfl
  | conflict h =>
      cases h with
      | tree htokens =>
          have hopposed := apply_of_opposed ho (.tree (hsettings.2.2.2 htokens))
          rw [hofArg _ .tree]
          simp only [bind, Except.bind, hopposed]
      | tokens htree =>
          have hopposed := apply_of_opposed ho (.tokens (hsettings.2.1.2 htree))
          rw [hofArg _ .tokens]
          simp only [bind, Except.bind, hopposed]

/-- Arguments are refused exactly for the first fault. -/
theorem ofArgs_eq_error_iff {args : List String} {e : OptionError} :
    Options.ofArgs args = .error e ↔ ∃ before r after,
      readings args = before ++ r :: after ∧ Faultless before ∧ FaultAt before r e := by
  constructor
  · intro h
    rcases faultless_or_first (readings args) with
      hfaultless | ⟨before, r, after, f, hargs, hbefore, hfault⟩
    · rcases run_of_faultless hfaultless with ⟨ss, o, hss, hrun, -⟩
      rw [ofArgs_of_settings hss, hrun] at h
      cases h
    · rw [ofArgs_of_fault hargs hbefore hfault] at h
      cases h
      exact ⟨before, r, after, hargs, hbefore, hfault⟩
  · rintro ⟨before, r, after, hargs, hbefore, hfault⟩
    exact ofArgs_of_fault hargs hbefore hfault

/-- Arguments that are accepted are faultless. -/
theorem faultless_of_ofArgs {args : List String} {o : Options} (h : Options.ofArgs args = .ok o) :
    Faultless (readings args) := by
  rcases faultless_or_first (readings args) with
    hfaultless | ⟨before, r, after, e, hargs, hbefore, hfault⟩
  · exact hfaultless
  · rw [ofArgs_of_fault hargs hbefore hfault] at h
    cases h

/-- Arguments that are accepted are faultless, and their settings describe what comes of them. -/
theorem ofArgs_eq_ok_iff {args : List String} {o : Options} : Options.ofArgs args = .ok o ↔
    Faultless (readings args) ∧ ∃ ss, List.Forall₂ Means (readings args) ss ∧ Describes ss o := by
  constructor
  · intro h
    have hfaultless := faultless_of_ofArgs h
    rcases run_of_faultless hfaultless with ⟨ss, p, hss, hrun, hp⟩
    rw [ofArgs_of_settings hss, hrun] at h
    cases h
    exact ⟨hfaultless, ss, hss, hp⟩
  · rintro ⟨hfaultless, ss, hss, ho⟩
    rcases run_of_faultless hfaultless with ⟨ts, p, hts, hrun, hp⟩
    have hunique : Relator.RightUnique Means := fun _ _ _ => Means.unique
    -- the options stand for these settings and no others
    cases List.right_unique_forall₂' hunique hss hts
    rw [ofArgs_of_settings hss, hrun, hp.unique ho (fun _ => Iff.rfl) rfl rfl]

theorem refused_iff {args : List String} : (∃ e, Options.ofArgs args = .error e) ↔
    (∃ argument, .alone argument ∈ readings args ∧ ∀ s, ¬ Means (.alone argument) s) ∨
      .unvalued ∈ readings args ∨
      .alone "--tree" ∈ readings args ∧ .alone "--tokens" ∈ readings args := by
  have hrefused : (∃ e, Options.ofArgs args = .error e) ↔ ¬ Faultless (readings args) := by
    constructor
    · rintro ⟨e, he⟩ hfaultless
      rcases ofArgs_eq_error_iff.1 he with ⟨before, r, after, hargs, -, hfault⟩
      exact hfaultless before r after hargs e hfault
    · intro h
      rcases faultless_or_first (readings args) with
        hfaultless | ⟨before, r, after, e, hargs, hbefore, hfault⟩
      · exact absurd hfaultless h
      · exact ⟨e, ofArgs_of_fault hargs hbefore hfault⟩
  rw [hrefused, faultless_iff]
  grind

/-! ## Command lines for options -/

/-- Every argument belongs to one of the options. -/
theorem flatMap_arguments_readings (args : List String) :
    (readings args).flatMap Reading.arguments = args := by
  induction args using readings.induct with
  | case1 | case2 => rfl
  | case3 value rest ih =>
      suffices hrest : "-e" :: value :: (readings rest).flatMap Reading.arguments =
        "-e" :: value :: rest from hrest
      rw [ih]
  | case4 argument rest hdash ih =>
      rw [readings_alone hdash, List.flatMap_cons, ih]
      rfl

/-- Options that stand for settings are read as they are written. -/
theorem readings_flatMap_arguments {rs : List Reading} {ss : List Setting}
    (h : List.Forall₂ Means rs ss) : readings (rs.flatMap Reading.arguments) = rs := by
  induction h with
  | nil => rfl
  | @cons r s rs ss hs _ ih =>
      cases r with
      | alone argument =>
          have hdash : argument ≠ "-e" := by
            rintro rfl
            exact not_means_dash_e s hs
          suffices hcons : readings (argument :: rs.flatMap Reading.arguments) =
            .alone argument :: rs from hcons
          rw [readings_alone hdash, ih]
      | valued value =>
          suffices hcons : .valued value :: readings (rs.flatMap Reading.arguments) =
            .valued value :: rs from hcons
          rw [ih]
      | unvalued => cases hs

theorem ofArgs_flatMap_arguments {rs : List Reading} {ss : List Setting}
    (h : List.Forall₂ Means rs ss) :
    Options.ofArgs (rs.flatMap Reading.arguments) = ss.foldlM Options.apply {} := by
  apply ofArgs_of_settings
  rw [readings_flatMap_arguments h]
  exact h

/-- Every setting but that for the usual mode has an option. -/
theorem exists_reading {s : Setting} (h : s ≠ .mode .eval) : ∃ r, Means r s := by
  cases s with
  | mode m =>
      cases m with
      | eval => exact absurd rfl h
      | tree => exact ⟨_, .tree⟩
      | tokens => exact ⟨_, .tokens⟩
  | raw => exact ⟨_, .raw⟩
  | quiet => exact ⟨_, .quiet⟩
  | help => exact ⟨_, .help⟩
  | line text => exact ⟨_, .line text⟩
  | prompt text => exact ⟨_, .prompt text⟩

/-- All options can be asked for. -/
theorem exists_ofArgs (o : Options) : ∃ args, Options.ofArgs args = .ok o := by
  have hreadings : ∀ s ∈ settingsFor o, ∃ r, flip Means s r :=
    fun s hs => exists_reading (ne_eval_of_mem_settingsFor hs)
  rcases exists_forall₂ hreadings with ⟨rs, hrs⟩
  refine ⟨rs.flatMap Reading.arguments, ?_⟩
  rw [ofArgs_flatMap_arguments hrs.flip, run_settingsFor]

/-- The order of options matters only among those that give lines, and among those about the
prompt. -/
theorem ofArgs_perm {args : List String} {o : Options} (h : Options.ofArgs args = .ok o)
    {rs : List Reading} (hperm : rs.Perm (readings args))
    (hlines : rs.filter Reading.isLine = (readings args).filter Reading.isLine)
    (hprompts : rs.filter Reading.isPrompt = (readings args).filter Reading.isPrompt) :
    Options.ofArgs (rs.flatMap Reading.arguments) = .ok o := by
  rcases ofArgs_eq_ok_iff.1 h with ⟨hfaultless, ss, hss, ho⟩
  rcases List.perm_comp_forall₂ hperm hss with ⟨ts, hts, hsettings⟩
  have hmodes := modes_of_settings hts
  have hone : ¬ (.mode .tree ∈ ts ∧ .mode .tokens ∈ ts) := by
    rw [hmodes.2.1, hmodes.2.2, hperm.mem_iff, hperm.mem_iff]
    exact (faultless_iff.1 hfaultless).2.2
  rcases describes_run hmodes.1 hone with ⟨p, hrun, hp⟩
  have hsame : p = o := by
    refine hp.unique ho (fun s => hsettings.mem_iff) ?_ ?_
    · exact filterMap_eq_of_filter (fun r s => Means.isLine) hts hss hlines
    · exact filterMap_eq_of_filter (fun r s => Means.isPrompt) hts hss hprompts
  rw [ofArgs_flatMap_arguments hts, hrun, hsame]

/-- Arguments are read from left to right, each `-e` with the argument behind it. They are refused
if an option is unknown, if a last `-e` has no value or if both modes are asked for, and the error
is that of the first fault; otherwise the options are those that their settings describe. Hence all
options can be asked for, and options may change places as long as those that give lines keep their
order, and those about the prompt keep theirs. -/
theorem arguments_read_left_to_right :
    (∀ args : List String,
      (readings args).flatMap Reading.arguments = args ∧
      ((∃ e, Options.ofArgs args = .error e) ↔
        (∃ argument, .alone argument ∈ readings args ∧ ∀ s, ¬ Means (.alone argument) s) ∨
          .unvalued ∈ readings args ∨
          .alone "--tree" ∈ readings args ∧ .alone "--tokens" ∈ readings args) ∧
      (∀ e, Options.ofArgs args = .error e ↔ ∃ before r after,
        readings args = before ++ r :: after ∧ Faultless before ∧ FaultAt before r e) ∧
      ∀ o, Options.ofArgs args = .ok o ↔ Faultless (readings args) ∧
        ∃ ss, List.Forall₂ Means (readings args) ss ∧ Describes ss o) ∧
    (∀ o, ∃ args, Options.ofArgs args = .ok o) ∧
    ∀ args o, Options.ofArgs args = .ok o → ∀ rs : List Reading, rs.Perm (readings args) →
      rs.filter Reading.isLine = (readings args).filter Reading.isLine →
      rs.filter Reading.isPrompt = (readings args).filter Reading.isPrompt →
        Options.ofArgs (rs.flatMap Reading.arguments) = .ok o := by
  refine ⟨?_, exists_ofArgs, ?_⟩
  · intro args
    exact ⟨flatMap_arguments_readings args, refused_iff, fun e => ofArgs_eq_error_iff,
      fun o => ofArgs_eq_ok_iff⟩
  · intro args o h rs hperm hlines hprompts
    exact ofArgs_perm h hperm hlines hprompts

/-- The value of `-e` may look like an option, and a last `-e` without one is no matter where the
modes have been in conflict before. -/
theorem arguments_read_left_to_right_values :
    Options.ofArgs ["-q", "--raw", "-e", "--tree", "--prompt=ok", "--eval=", "--tokens"] =
      .ok { mode := .tokens, upcase := false, prompt := some "ok", lines := ["--tree", ""] } ∧
    Options.ofArgs ["--tree", "-e", "--bogus", "--tokens", "-e"] = .error .conflictingModes := by
  rcases arguments_read_left_to_right with ⟨hread, -, hperm⟩
  refine ⟨?_, ?_⟩
  · have hok : Options.ofArgs
          ["-e", "--tree", "--tokens", "-q", "--eval=", "--prompt=ok", "--raw"] =
        .ok { mode := .tokens, upcase := false, prompt := some "ok", lines := ["--tree", ""] } := by
      have hprompt : Setting.valueAfter? "--prompt=" "--prompt=ok" = some "ok" := by decide
      have hline : Setting.valueAfter? "--eval=" "--eval=" = some "" := by decide
      have hnone : Setting.valueAfter? "--eval=" "--prompt=ok" = none := by decide
      simp [Options.ofArgs, Options.read, Setting.ofArg, Options.apply, bind,
        Except.bind, hprompt, hline, hnone]
    exact hperm _ _ hok [.alone "-q", .alone "--raw", .valued "--tree", .alone "--prompt=ok",
      .alone "--eval=", .alone "--tokens"] (by decide) (by decide) (by decide)
  · have hfaultless : Faultless [.alone "--tree", .valued "--bogus"] := by
      rw [faultless_iff]
      refine ⟨?_, by decide, by decide⟩
      intro argument h
      simp only [List.mem_cons, Reading.alone.injEq, reduceCtorEq, List.not_mem_nil, or_false] at h
      exact ⟨_, h ▸ Means.tree⟩
    have hfault : FaultAt [.alone "--tree", .valued "--bogus"] (.alone "--tokens")
        .conflictingModes := .conflict (.tokens List.mem_cons_self)
    exact ((hread ["--tree", "-e", "--bogus", "--tokens", "-e"]).2.2.1 .conflictingModes).2
      ⟨_, _, [.unvalued], by decide, hfaultless, hfault⟩

end Arguments
end TinyBasic
