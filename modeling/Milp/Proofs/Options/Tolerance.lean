/-
Which tolerance a solve works with.

A tolerance is of use if it is finite and above zero (`IsUsable`). There are three ways to choose
options (`Choice`), and each looks at the tolerance in its own way. The environment is held to
both conditions. A request is only asked whether its tolerance is above zero, so an infinite one
is taken. The words of a command line are taken as they are, as long as they spell a number.

From there on nobody looks at the tolerance again. The sessions and the audit get it unchanged.
-/
import Milp.CommandLine.Transcript
import Milp.Configuration
import Milp.Proofs.CommandLine.Words
import Milp.Proofs.Number.Special
import Milp.Proofs.Supervisor.Assignments
import Milp.Service.Request

set_option autoImplicit false

namespace Milp

open Number (exact Lawful Special)

variable {α : Type} [Number α]

/-- A tolerance that is finite and above zero. -/
def IsUsable (tolerance : α) : Prop :=
  Number.lt 0 tolerance = true ∧ Number.isFinite tolerance = true

/-! ## Ways to choose -/

/-- A way to choose options. -/
inductive Choice (α : Type) where
  /-- The settings of a service, looked up by name. -/
  | environment (lookup : String → Option String)
  /-- What a request says, over the options of the service. -/
  | request (message : Option (Service.OptionsMessage α)) (defaults : Options α)
  /-- The words of a command line. -/
  | words (arguments : List String)

namespace Choice

/-- The options that come of a choice, if it is not refused. -/
def Gives (choice : Choice α) (o : Options α) : Prop :=
  match choice with
  | .environment lookup => ∃ c, Configuration.ofLookup lookup = .ok c ∧ c.options = o
  | .request message defaults => Service.mergeOptions message defaults = .ok o
  | .words arguments => ∃ i, CommandLine.read arguments = .ok (.solve i) ∧ i.options = .ok o

/-- What a choice falls back on is of use. -/
def FallsBack : Choice α → Prop
  | .request _ defaults => IsUsable defaults.tolerance
  | .environment _ | .words _ => IsUsable (Audit.defaultTolerance : α)

/-- A choice names a tolerance that is not of use, and nobody objects. -/
def SlipsThrough : Choice α → Prop
  | .environment _ => False
  | .request message _ => ∃ asked, message = some asked ∧ (asked.tolerance == Number.posInf) = true
  | .words arguments => ∃ value, CommandLine.Sets .tolerance arguments value
      ∧ ∃ numeral, Numeral.ofText value = .ok numeral
        ∧ ¬ IsUsable (Number.ofNumeral numeral : α)

end Choice

/-! ## The environment -/

theorem Configuration.isUsable_readTolerance [Special α] {text : String} {tolerance : α}
    (h : readTolerance text = .ok tolerance) : IsUsable tolerance := by
  obtain ⟨read, -, h⟩ := Attempt.bind_eq_ok_iff.mp h
  by_cases hbad : (Number.le read 0 || !Number.isFinite read) = true
  · simp only [if_pos hbad] at h
    cases h
  · simp only [if_neg hbad] at h
    obtain rfl := Except.ok.inj h
    simp only [Bool.or_eq_true, not_or, Bool.not_eq_true, Bool.not_eq_eq_eq_not, Bool.not_true,
      Bool.not_eq_false] at hbad
    obtain ⟨habove, hfinite⟩ := hbad
    refine ⟨?_, hfinite⟩
    have hnumber := Number.isNaN_of_isFinite hfinite
    rw [Number.isNaN_eq_false_iff] at hnumber
    rw [Lawful.le_eq, Lawful.exact_zero] at habove
    rw [Lawful.lt_eq, Lawful.exact_zero]
    by_contra hnot
    have hbelow : ExtRat.le (exact read) (.fin 0) = true :=
      Number.le_of_not_lt_extRat (by simp) hnumber (Bool.not_eq_true _ ▸ hnot)
    rw [hbelow] at habove
    cases habove

/-- The environment is held to both conditions. -/
theorem Configuration.isUsable_ofLookup [Special α] (lookup : String → Option String)
    (fallsBack : IsUsable (Audit.defaultTolerance : α)) :
    Attempt.Yields (fun c : Configuration α => IsUsable c.options.tolerance) (ofLookup lookup) := by
  refine Attempt.Yields.bind (fun _ _ => trivial) fun address _ => ?_
  dsimp only
  split <;> refine Attempt.Yields.bind (fun _ _ => trivial) fun backend _ => ?_
  all_goals split <;> refine Attempt.Yields.bind (fun _ _ => trivial) fun timeLimit _ => ?_
  -- the tolerance is looked up last, whatever has been found before
  all_goals
    split
    · refine Attempt.Yields.bind (fun t ht => isUsable_readTolerance ht) fun tolerance h => ?_
      exact Attempt.yields_ok h
    · exact Attempt.yields_ok fallsBack

/-! ## Requests -/

/-- Above zero only an infinity is not of use. -/
theorem isUsable_iff_of_gt [Special α] {tolerance : α} (above : Number.gt tolerance 0 = true) :
    IsUsable tolerance ↔ ¬ (tolerance == Number.posInf) = true := by
  rw [Number.gt] at above
  rw [IsUsable, Number.isFinite_iff_isRational, Lawful.beq_eq, Special.exact_posInf,
    Number.IsRational]
  have habove := above
  rw [Lawful.lt_eq, Lawful.exact_zero] at habove
  cases hexact : exact tolerance with
  | fin q => simp [above, ExtRat.eqv]
  | posInf => simp [ExtRat.eqv]
  | nan => rw [hexact] at habove; cases habove
  | negInf => rw [hexact] at habove; cases habove

namespace Service

theorem tolerance_over (message : OptionsMessage α) (defaults : Options α) :
    Attempt.Yields (fun o : Options α => o.tolerance
        = if Number.gt message.tolerance 0 then message.tolerance else defaults.tolerance)
      (message.over defaults) := by
  rw [OptionsMessage.over]
  refine Attempt.Yields.ite (fun _ => ?_) fun _ => ?_
  all_goals
    refine Attempt.Yields.bind (fun _ _ => trivial) fun backend _ => ?_
    refine Attempt.Yields.ite (fun _ => ?_) fun _ => ?_
    all_goals
      exact Attempt.Yields.bind (fun _ _ => trivial) fun timeLimit _ => Attempt.yields_ok rfl

/-- A request is held to one of the conditions. -/
theorem isUsable_mergeOptions_iff [Special α] {message : Option (OptionsMessage α)}
    {defaults o : Options α} (h : mergeOptions message defaults = .ok o)
    (fallsBack : IsUsable defaults.tolerance) :
    IsUsable o.tolerance
      ↔ ¬ ∃ asked, message = some asked ∧ (asked.tolerance == Number.posInf) = true := by
  cases message with
  | none =>
    obtain rfl := Except.ok.inj h
    exact iff_of_true fallsBack (by simp)
  | some asked =>
    rw [tolerance_over asked defaults o h]
    simp only [Option.some.injEq, exists_eq_left']
    by_cases above : Number.gt asked.tolerance 0 = true
    · rw [if_pos above]
      exact isUsable_iff_of_gt above
    · -- nothing that is not above zero is infinite in that direction
      rw [if_neg above]
      refine iff_of_true fallsBack fun hinf => above ?_
      rw [Lawful.beq_eq, Special.exact_posInf] at hinf
      rw [Number.gt, Lawful.lt_eq, Lawful.exact_zero]
      cases hexact : exact asked.tolerance <;> rw [hexact] at hinf <;>
        first | rfl | cases hinf

end Service

/-! ## Command lines -/

namespace CommandLine

theorem tolerance_options (i : Invocation α) :
    Attempt.Yields (fun o : Options α => o.tolerance = i.tolerance) i.options := by
  rw [Invocation.options]
  split <;> refine Attempt.Yields.bind (fun _ _ => trivial) fun timeLimit _ => ?_
  all_goals exact Attempt.yields_ok rfl

theorem readNumber_eq_ok_iff {option : OptionName} {text : String} {x : α} :
    Settings.readNumber option text = .ok x
      ↔ ∃ numeral, Numeral.ofText text = .ok numeral ∧ Number.ofNumeral numeral = x := by
  rw [Settings.readNumber]
  cases Numeral.ofText text <;> simp

/-- Nobody looks at the tolerance of a command line. -/
theorem isUsable_read_iff {words : List String} {i : Invocation α}
    (h : read words = .ok (.solve i)) (fallsBack : IsUsable (Audit.defaultTolerance : α)) :
    IsUsable i.tolerance ↔ ¬ ∃ value, Sets .tolerance words value
      ∧ ∃ numeral, Numeral.ofText value = .ok numeral
        ∧ ¬ IsUsable (Number.ofNumeral numeral : α) := by
  obtain ⟨hspelled, hdefault⟩ := read_tolerance h
  by_cases hset : ∃ value, Sets .tolerance words value
  · obtain ⟨value, hsets⟩ := hset
    have hspells : ∀ value, Sets .tolerance words value →
        ∃ numeral, Numeral.ofText value = .ok numeral ∧ Number.ofNumeral numeral = i.tolerance :=
      fun value hsets => readNumber_eq_ok_iff.mp (hspelled value hsets)
    constructor
    · rintro husable ⟨value, hsets, numeral, htext, hbad⟩
      obtain ⟨numeral', htext', hi⟩ := hspells value hsets
      obtain rfl := Except.ok.inj (htext.symm.trans htext')
      rw [hi] at hbad
      exact hbad husable
    · intro hnot
      obtain ⟨numeral, htext, hi⟩ := hspells value hsets
      by_contra hbad
      rw [← hi] at hbad
      exact hnot ⟨value, hsets, numeral, htext, hbad⟩
  · rw [hdefault (not_exists.mp hset)]
    refine iff_of_true fallsBack ?_
    rintro ⟨value, hsets, -⟩
    exact hset ⟨value, hsets⟩

end CommandLine

/-! ## Solves -/

namespace Supervisor

/-- Whoever works for a supervisor works with the tolerance of its options. -/
def WorksWith (s : Supervisor α) (tolerance : α) : Prop :=
  ∀ call : Call α, (∀ limits ∈ (s.serve call).1.calls, limits.tolerance = tolerance)
    ∧ ∀ o, (s.serve call).1.result = .ok o → ∀ a, o.assignment = some a →
        ∃ reported, Audit.check tolerance call.model reported = .ok (a.values, o.quality)

theorem worksWith_options (s : Supervisor α) : s.WorksWith s.options.tolerance := by
  intro call
  rw [serve_eq]
  constructor
  · intro limits hlimits
    by_cases works : ∃ session, call.SetsToWork s.backend session
    · obtain ⟨session, works⟩ := works
      rw [record_of_setsToWork works, Record.working, List.mem_singleton] at hlimits
      rw [hlimits]
      rfl
    · obtain ⟨result, hidle, -⟩ := record_of_idle s.options works
      rw [hidle] at hlimits
      cases hlimits
  · intro o result a there
    obtain ⟨session, answer, passed, -, -, passes, ha, hquality⟩ :=
      (result_eq_ok_iff.mp result).answer there
    obtain ⟨reported, -, hcheck, -⟩ := passes.assignment ha
    exact ⟨reported, by rw [hquality]; exact hcheck⟩

theorem options_ofOptions {o : Options α} {s : Supervisor α} (h : ofOptions o = .ok s) :
    s.options = o := by
  obtain ⟨backend, -, rfl⟩ := Attempt.map_eq_ok_iff.mp h
  rfl

end Supervisor

/-! ## All ways -/

/-- **Which choices give a tolerance that is of use.** Whichever way options are chosen, if the
choice is not refused and what it falls back on is of use, the tolerance is of use unless the
choice names one that is not and slips through. That happens to no environment, to a request
exactly with an infinite tolerance, and to a command line with every number that is not of use.
Either way every session and every audit of a solve with these options gets that tolerance. -/
theorem usable_unless_slipped [Special α] (choice : Choice α) (fallsBack : choice.FallsBack)
    {o : Options α} (gives : choice.Gives o) :
    (IsUsable o.tolerance ↔ ¬ choice.SlipsThrough)
      ∧ ∀ s, Supervisor.ofOptions o = .ok s → s.WorksWith o.tolerance := by
  constructor
  · cases choice with
    | environment lookup =>
      obtain ⟨c, hc, rfl⟩ := gives
      exact iff_of_true (Configuration.isUsable_ofLookup lookup fallsBack c hc) id
    | request message defaults => exact Service.isUsable_mergeOptions_iff gives fallsBack
    | words arguments =>
      obtain ⟨i, hi, hoptions⟩ := gives
      rw [CommandLine.tolerance_options i o hoptions]
      exact CommandLine.isUsable_read_iff hi fallsBack
  · intro s hs
    obtain rfl := Supervisor.options_ofOptions hs
    exact s.worksWith_options

/-- A file and an infinite tolerance. -/
def boundless : List String := ["model.mps", "--tolerance=inf"]

/-- The options that these words give. -/
def boundlessOptions : Options ExtRat :=
  { (Options.initial : Options ExtRat) with tolerance := .posInf }

theorem boundless_gives : (Choice.words boundless).Gives boundlessOptions := by
  refine ⟨⟨"model.mps", .auto, none, none, .posInf, false, false, false⟩, ?_, ?_⟩
  · with_unfolding_all rfl
  · with_unfolding_all rfl

theorem isUsable_defaultTolerance : IsUsable (Audit.defaultTolerance : ExtRat) := by
  constructor <;> with_unfolding_all decide +kernel

theorem not_isUsable_posInf : ¬ IsUsable ExtRat.posInf :=
  fun h => absurd h.2 (by decide)

/-- A request for a tolerance of one percent. -/
def percent : Service.OptionsMessage ExtRat := ⟨"", .fin 0, 0, .fin (1 / 100), false, false⟩

/-- The words slip through, and a solve works with an infinite tolerance. The request does not,
and its tolerance is of use. -/
theorem usable_unless_slipped_boundless :
    (¬ IsUsable boundlessOptions.tolerance
        ∧ ∀ s, Supervisor.ofOptions boundlessOptions = .ok s → s.WorksWith .posInf)
      ∧ ∃ o, (Choice.request (some percent) .initial).Gives o ∧ IsUsable o.tolerance := by
  constructor
  · obtain ⟨husable, hworks⟩ := usable_unless_slipped (.words boundless)
      isUsable_defaultTolerance boundless_gives
    refine ⟨fun h => husable.mp h ⟨"inf", ?_, .infinite false, rfl, not_isUsable_posInf⟩, hworks⟩
    exact .later (by decide +kernel) (.assigned (CommandLine.ofText_assigned .tolerance "inf"))
  · have hgives : (Choice.request (some percent) .initial).Gives
        { (Options.initial : Options ExtRat) with tolerance := .fin (1 / 100) } := by
      with_unfolding_all rfl
    obtain ⟨husable, -⟩ := usable_unless_slipped (.request (some percent) .initial)
      isUsable_defaultTolerance hgives
    refine ⟨_, hgives, husable.mpr ?_⟩
    rintro ⟨asked, hasked, hinfinite⟩
    obtain rfl := Option.some.inj hasked
    exact absurd hinfinite (by decide)

/-- **Not every choice gives a tolerance that is of use**, though all fall back on one. -/
theorem not_always_usable :
    ¬ ∀ choice : Choice ExtRat, choice.FallsBack → ∀ o, choice.Gives o → IsUsable o.tolerance :=
  fun h => not_isUsable_posInf
    (h (.words boundless) isUsable_defaultTolerance boundlessOptions boundless_gives)

end Milp
