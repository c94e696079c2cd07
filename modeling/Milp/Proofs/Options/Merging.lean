/-
What a request makes of the options of the service.

A request has a value for every option, and some of these values mean that it has nothing
to say. What they mean is documented where the messages are described: no text for the
backend, zero for the time limit and the tolerance leave the service's own value; zero for
the node limit says that there is none. Verbosity is always the request's, and the grace
never is.

`mergeOptions_decides` holds the merged options against this, field by field, for every
message and all defaults. There are two reasons for a refusal. All fields come out as
documented but one: a node limit of zero leaves the service's own limit
(`nodeLimit_outlives_zero`), so a request cannot lift it.
-/
import Milp.Proofs.Attempt
import Milp.Proofs.Number.Scaling
import Milp.Proofs.Options.Seconds
import Milp.Service.Request

set_option autoImplicit false

namespace Milp

open Number (exact Lawful)

/-! ## Names of backends -/

namespace BackendChoice

/-- The names that a backend goes by. -/
def names : BackendChoice → List String
  | .auto => ["auto", ""]
  | .branchAndBound => ["bnb", "branch-and-bound", "branch_and_bound"]
  | .coinCbc => ["cbc", "coin_cbc", "coin-cbc"]
  | .highs => ["highs"]

/-- A text names a backend, but for blanks around it and upper case. -/
def Named (text : String) (choice : BackendChoice) : Prop :=
  Text.toLower (Text.trim text) ∈ choice.names

theorem ofName?_eq_some_iff (name : String) (choice : BackendChoice) :
    ofName? name = some choice ↔ name ∈ choice.names := by
  constructor
  · intro h
    unfold ofName? at h
    split_ifs at h with hauto hsearch hcbc hhighs
    all_goals
      obtain rfl := Option.some.inj h
      simp_all [names, or_assoc]
  · intro h
    cases choice <;> simp only [names, List.mem_cons, List.not_mem_nil, or_false] at h
    case highs => rw [h]; rfl
    case auto => rcases h with rfl | rfl <;> rfl
    all_goals rcases h with rfl | rfl | rfl <;> rfl

variable {α : Type} {text : String} {choice : BackendChoice}

theorem ofText_of_named (named : Named text choice) :
    (ofText text : Except (Fault α) BackendChoice) = .ok choice := by
  rw [ofText, (ofName?_eq_some_iff _ choice).mpr named]

theorem ofText_of_not_named (unknown : ∀ choice, ¬ Named text choice) :
    (ofText text : Except (Fault α) BackendChoice) = .error (.configuration
      ("unknown solver backend '" ++ Text.toLower (Text.trim text) ++ "'")) := by
  have hnone : ofName? (Text.toLower (Text.trim text)) = none := by
    by_contra hsome
    obtain ⟨choice, hchoice⟩ := Option.ne_none_iff_exists'.mp hsome
    exact unknown choice ((ofName?_eq_some_iff _ choice).mp hchoice)
  rw [ofText, hnone]

end BackendChoice

variable {α : Type} [Number α]

namespace Options

variable [Lawful α] {seconds : α}

theorem timeLimitOfSeconds_of_isSpan (source : String) (span : Duration.IsSpan (exact seconds)) :
    ∃ d, timeLimitOfSeconds seconds source = .ok d ∧ Duration.Lasts (exact seconds) d := by
  obtain ⟨d, hd, hlasts⟩ := Duration.ofSeconds_of_isSpan span
  exact ⟨d, by rw [timeLimitOfSeconds, hd], hlasts⟩

theorem timeLimitOfSeconds_of_not_isSpan (source : String)
    (span : ¬ Duration.IsSpan (exact seconds)) :
    timeLimitOfSeconds seconds source = .error (.configuration
      (source ++ " must be a non-negative number of seconds, got " ++ Number.text seconds ++ ": "
        ++ (if Number.lt seconds 0 then Duration.SecondsError.negative
            else Duration.SecondsError.outOfRange).message)) := by
  rw [timeLimitOfSeconds, Duration.ofSeconds_of_not_isSpan span]

end Options

namespace Service

/-! ## What a request says -/

/-- The backend of a request: the one it names, or the service's. -/
def OptionsMessage.Backend (message : OptionsMessage α) (defaults : Options α)
    (choice : BackendChoice) : Prop :=
  (message.backend = "" ∧ choice = defaults.backend)
    ∨ (message.backend ≠ "" ∧ BackendChoice.Named message.backend choice)

/-- It has a text for the backend that names none. -/
def OptionsMessage.UnknownBackend (message : OptionsMessage α) : Prop :=
  message.backend ≠ "" ∧ ∀ choice, ¬ BackendChoice.Named message.backend choice

/-- The time limit of a request: the one that lasts as long as it says, or the service's. -/
def OptionsMessage.TimeLimit (message : OptionsMessage α) (defaults : Options α)
    (limit : Option Duration) : Prop :=
  (exact message.timeLimit = .fin 0 ∧ limit = defaults.timeLimit)
    ∨ (exact message.timeLimit ≠ .fin 0
        ∧ ∃ d, limit = some d ∧ Duration.Lasts (exact message.timeLimit) d)

/-- It has a time limit that is no length of time. -/
def OptionsMessage.BadTimeLimit (message : OptionsMessage α) : Prop :=
  exact message.timeLimit ≠ .fin 0 ∧ ¬ Duration.IsSpan (exact message.timeLimit)

/-- A number that says nothing about the tolerance: zero, less than zero, or no number. -/
def IsUnset (tolerance : α) : Prop :=
  Number.isNaN tolerance = true ∨ Number.le tolerance 0 = true

/-- The node limit that a request documents: none for zero. -/
def OptionsMessage.documentedNodeLimit (message : OptionsMessage α) : Option Nat :=
  if message.nodeLimit = 0 then none else some message.nodeLimit

/-- Options are those of a request over those of the service. -/
structure Merged (message : OptionsMessage α) (defaults o : Options α) : Prop where
  backend : message.Backend defaults o.backend
  timeLimit : message.TimeLimit defaults o.timeLimit
  nodeLimit : o.nodeLimit
    = if message.nodeLimit = 0 then defaults.nodeLimit else some message.nodeLimit
  unset : IsUnset message.tolerance → o.tolerance = defaults.tolerance
  set : ¬ IsUnset message.tolerance → o.tolerance = message.tolerance
  verbose : o.verbose = message.verbose
  grace : o.grace = defaults.grace

section Over

variable [Lawful α] {message : OptionsMessage α} {defaults : Options α}

theorem isUnset_iff (tolerance : α) : IsUnset tolerance ↔ Number.gt tolerance 0 = false := by
  rw [IsUnset, Number.gt_eq_false_iff, Number.isNaN_zero]
  simp

theorem eq_zero_iff (x : α) : (x == 0) = true ↔ exact x = .fin 0 := by
  rw [Lawful.beq_eq, Lawful.exact_zero]
  cases exact x <;> simp [ExtRat.eqv]

/-! ## One field after the other -/

omit [Lawful α] in
theorem over_of_unknownBackend (unknown : message.UnknownBackend) :
    message.over defaults = .error (.configuration
      ("unknown solver backend '" ++ Text.toLower (Text.trim message.backend) ++ "'")) := by
  have hgiven : ¬ message.backend.isEmpty = true := by
    simpa using unknown.1
  rw [OptionsMessage.over, if_neg hgiven, BackendChoice.ofText_of_not_named unknown.2]
  rfl

/-- The options of a request, once its backend and its time limit are known. -/
def OptionsMessage.assemble (message : OptionsMessage α) (defaults : Options α)
    (choice : BackendChoice) (limit : Option Duration) : Options α :=
  { defaults with
    backend := choice
    timeLimit := limit
    nodeLimit := if 0 < message.nodeLimit then some message.nodeLimit else defaults.nodeLimit
    tolerance := if Number.gt message.tolerance 0 then message.tolerance else defaults.tolerance
    verbose := message.verbose }

omit [Lawful α] in
/-- With a known backend it remains to look at the time limit. -/
theorem over_of_backend {choice : BackendChoice} (known : message.Backend defaults choice) :
    message.over defaults
      = (if message.timeLimit == 0 then .ok defaults.timeLimit
          else (Options.timeLimitOfSeconds message.timeLimit timeLimitSource).map some).map
        (message.assemble defaults choice) := by
  have hlimit : ∀ backend, (if message.timeLimit == 0 then
        pure defaults.timeLimit >>= fun limit => pure (message.assemble defaults backend limit)
      else (some <$> Options.timeLimitOfSeconds message.timeLimit timeLimitSource) >>= fun limit =>
        pure (message.assemble defaults backend limit) : Except (Fault α) (Options α))
      = (if message.timeLimit == 0 then .ok defaults.timeLimit
          else (Options.timeLimitOfSeconds message.timeLimit timeLimitSource).map some).map
        (message.assemble defaults backend) := by
    intro backend
    by_cases hzero : (message.timeLimit == 0) = true
    · rw [if_pos hzero, if_pos hzero]
      rfl
    · rw [if_neg hzero, if_neg hzero]
      cases Options.timeLimitOfSeconds message.timeLimit timeLimitSource <;> rfl
  rcases known with ⟨hempty, hchoice⟩ | ⟨hgiven, hnamed⟩
  · rw [OptionsMessage.over, if_pos (by simpa using hempty), hchoice]
    exact hlimit defaults.backend
  · rw [OptionsMessage.over, if_neg (by simpa using hgiven), BackendChoice.ofText_of_named hnamed]
    exact hlimit choice

theorem over_of_badTimeLimit {choice : BackendChoice} (known : message.Backend defaults choice)
    (bad : message.BadTimeLimit) :
    message.over defaults = .error (.configuration
      (timeLimitSource ++ " must be a non-negative number of seconds, got "
        ++ Number.text message.timeLimit ++ ": "
        ++ (if Number.lt message.timeLimit 0 then Duration.SecondsError.negative
            else Duration.SecondsError.outOfRange).message)) := by
  have hgiven : ¬ (message.timeLimit == 0) = true := mt (eq_zero_iff _).mp bad.1
  rw [over_of_backend known, if_neg hgiven, Options.timeLimitOfSeconds_of_not_isSpan _ bad.2]
  rfl

/-- **What is not refused is merged.** -/
theorem exists_merged {choice : BackendChoice} (known : message.Backend defaults choice)
    (good : ¬ message.BadTimeLimit) :
    ∃ o, message.over defaults = .ok o ∧ Merged message defaults o := by
  obtain ⟨limit, hlimit, hover⟩ : ∃ limit, message.TimeLimit defaults limit
      ∧ message.over defaults = .ok (message.assemble defaults choice limit) := by
    rw [over_of_backend known]
    by_cases hzero : exact message.timeLimit = .fin 0
    · refine ⟨defaults.timeLimit, .inl ⟨hzero, rfl⟩, ?_⟩
      rw [if_pos ((eq_zero_iff _).mpr hzero)]
      rfl
    · have hspan : Duration.IsSpan (exact message.timeLimit) := by
        by_contra hspan
        exact good ⟨hzero, hspan⟩
      obtain ⟨d, hd, hlasts⟩ :=
        Options.timeLimitOfSeconds_of_isSpan timeLimitSource hspan
      refine ⟨some d, .inr ⟨hzero, d, rfl, hlasts⟩, ?_⟩
      rw [if_neg (mt (eq_zero_iff _).mp hzero), hd]
      rfl
  refine ⟨_, hover, known, hlimit, ?_, fun hunset => ?_, fun hset => ?_, rfl, rfl⟩
  · by_cases hnodes : message.nodeLimit = 0
    · simp [OptionsMessage.assemble, hnodes]
    · simp [OptionsMessage.assemble, hnodes, Nat.pos_of_ne_zero hnodes]
  · simp [OptionsMessage.assemble, (isUnset_iff _).mp hunset]
  · rw [isUnset_iff, Bool.not_eq_false] at hset
    simp [OptionsMessage.assemble, hset]

omit [Number α] [Lawful α] in
/-- Every text for a backend is empty, names one, or is unknown. -/
theorem backend_or_unknown (message : OptionsMessage α) (defaults : Options α) :
    (∃ choice, message.Backend defaults choice) ∨ message.UnknownBackend := by
  by_cases hempty : message.backend = ""
  · exact .inl ⟨defaults.backend, .inl ⟨hempty, rfl⟩⟩
  · by_cases hnamed : ∃ choice, BackendChoice.Named message.backend choice
    · obtain ⟨choice, hchoice⟩ := hnamed
      exact .inl ⟨choice, .inr ⟨hempty, hchoice⟩⟩
    · exact .inr ⟨hempty, not_exists.mp hnamed⟩

/-- **How a request is merged**, for every message and all defaults. It is refused exactly
for an unknown backend or a time limit that is no length of time. If it is not refused,
every option is the one that the request gives or, where it gives none, the service's. The
node limit is as documented unless the request says zero and the service has a limit. -/
theorem mergeOptions_decides (message : OptionsMessage α) (defaults : Options α) :
    ((∃ fault, mergeOptions (some message) defaults = .error fault)
        ↔ message.UnknownBackend ∨ message.BadTimeLimit)
      ∧ ∀ o, mergeOptions (some message) defaults = .ok o →
        Merged message defaults o
          ∧ (o.nodeLimit = message.documentedNodeLimit
            ↔ message.nodeLimit ≠ 0 ∨ defaults.nodeLimit = none) := by
  have hcases : (∃ fault, message.over defaults = .error fault
        ∧ (message.UnknownBackend ∨ message.BadTimeLimit))
      ∨ ∃ o, message.over defaults = .ok o ∧ Merged message defaults o
        ∧ ¬ (message.UnknownBackend ∨ message.BadTimeLimit) := by
    rcases backend_or_unknown message defaults with ⟨choice, known⟩ | unknown
    · by_cases bad : message.BadTimeLimit
      · exact .inl ⟨_, over_of_badTimeLimit known bad, .inr bad⟩
      · obtain ⟨o, ho, hmerged⟩ := exists_merged known bad
        refine .inr ⟨o, ho, hmerged, not_or.mpr ⟨fun unknown => ?_, bad⟩⟩
        rcases known with ⟨hempty, -⟩ | ⟨-, hnamed⟩
        · exact unknown.1 hempty
        · exact unknown.2 choice hnamed
    · exact .inl ⟨_, over_of_unknownBackend unknown, .inl unknown⟩
  show ((∃ fault, message.over defaults = .error fault) ↔ _)
    ∧ ∀ o, message.over defaults = .ok o → _
  rcases hcases with ⟨fault, hfault, hwhy⟩ | ⟨merged, hok, hmerged, hfine⟩
  · rw [hfault]
    exact ⟨iff_of_true ⟨fault, rfl⟩ hwhy, fun o ho => by cases ho⟩
  · rw [hok]
    refine ⟨iff_of_false (fun ⟨fault, hfault⟩ => by cases hfault) hfine, fun o ho => ?_⟩
    rw [Except.ok.injEq] at ho
    rw [← ho]
    refine ⟨hmerged, ?_⟩
    rw [hmerged.nodeLimit, OptionsMessage.documentedNodeLimit]
    by_cases hzero : message.nodeLimit = 0
    · simp [hzero]
    · simp [hzero]

end Over

/-- A request for a minute of branch and bound that says nothing about nodes. -/
def minute : OptionsMessage ExtRat := ⟨"bnb", .fin 60, 0, .fin 0, true, false⟩

/-- A service that explores seven nodes at most. -/
def sevenNodes : Options ExtRat := { (Options.initial : Options ExtRat) with nodeLimit := some 7 }

theorem mergeOptions_minute :
    mergeOptions (some minute) sevenNodes
      = .ok (minute.assemble sevenNodes .branchAndBound (some (.ofParts 60 0))) := by
  have known : minute.Backend sevenNodes .branchAndBound :=
    .inr ⟨by decide, by unfold BackendChoice.Named; decide +kernel⟩
  have hseconds : Duration.ofSeconds minute.timeLimit = .ok (.ofParts 60 0) :=
    Attempt.eq_ok_of_toOption (by decide +kernel)
  have hgiven : ¬ (minute.timeLimit == 0) = true := by decide +kernel
  show minute.over sevenNodes = _
  rw [over_of_backend known, if_neg hgiven, Options.timeLimitOfSeconds, hseconds]
  rfl

/-- The request is merged, with the service's node limit and tolerance; one for less than no
time is refused. -/
theorem mergeOptions_decides_minute :
    (∃ o, mergeOptions (some minute) sevenNodes = .ok o ∧ Merged minute sevenNodes o
        ∧ o.nodeLimit ≠ minute.documentedNodeLimit)
      ∧ ∃ fault, mergeOptions (some { minute with timeLimit := .fin (-1) }) sevenNodes
        = .error fault := by
  constructor
  · obtain ⟨hmerged, hnodes⟩ :=
      (mergeOptions_decides minute sevenNodes).2 _ mergeOptions_minute
    refine ⟨_, mergeOptions_minute, hmerged, fun hdocumented => ?_⟩
    rcases hnodes.mp hdocumented with hzero | hnone
    · exact hzero rfl
    · cases hnone
  · refine (mergeOptions_decides { minute with timeLimit := .fin (-1) } sevenNodes).1.mpr (.inr ?_)
    rw [OptionsMessage.BadTimeLimit, Number.exact_extRat]
    refine ⟨by simp, ?_⟩
    rintro ⟨q, hq, hnonneg, -⟩
    obtain rfl := ExtRat.fin.inj hq
    norm_num at hnonneg

/-- **A request for no node limit** leaves the one of the service. -/
theorem nodeLimit_outlives_zero :
    ¬ ∀ (message : OptionsMessage ExtRat) (defaults o : Options ExtRat),
      mergeOptions (some message) defaults = .ok o → o.nodeLimit = message.documentedNodeLimit := by
  intro h
  have hnone := h minute sevenNodes _ mergeOptions_minute
  cases hnone

end Service

end Milp
