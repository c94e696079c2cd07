/-
What the words of a command line set.

The reader goes through the words once, with the settings so far and perhaps an option that
waits for its value. One step of it (`readWords_cons`) either gives a value to an option, or
leaves the options as they are, or comes to the two dashes after which nothing is an option any
more. `Sets` says which values some words give to an option, without the reader.

For the tolerance this is the whole story (`read_tolerance`). A command line that asks for a
solve gives it at most one value, and the tolerance of the solve is the number that this value
spells, whichever it is, or the default if there is none.
-/
import Milp.CommandLine.Arguments
import Milp.Proofs.Attempt

set_option autoImplicit false

namespace Milp.CommandLine

open Settings

variable {α : Type} [Number α]

/-- Words give a value to an option: after an equals sign, or as the next word. -/
inductive Sets (option : OptionName) : List String → String → Prop
  | assigned {word value : String} {rest : List String}
      (name : Word.ofText word = .long option.word (some value)) :
      Sets option (word :: rest) value
  | next {word text value : String} {rest : List String}
      (name : Word.ofText word = .long option.word none) (plain : Word.ofText text = .plain value) :
      Sets option (word :: text :: rest) value
  | later {word value : String} {rest : List String} (continues : Word.ofText word ≠ .separator)
      (sets : Sets option rest value) : Sets option (word :: rest) value

/-- A value after an equals sign may be any text, even one that begins with a dash. -/
theorem ofText_assigned (option : OptionName) (value : String) :
    Word.ofText (option.word ++ "=" ++ value) = .long option.word (some value) := by
  cases option <;> simp [OptionName.word, Word.ofText, splitValue, String.toList_append]

theorem not_sets_nil (option : OptionName) (value : String) : ¬ Sets option [] value := nofun

/-- A word that is no option gives no value. -/
theorem sets_cons_iff {option : OptionName} {word value : String} {rest : List String}
    (other : ∀ given, Word.ofText word ≠ .long option.word given) :
    Sets option (word :: rest) value ↔ Word.ofText word ≠ .separator ∧ Sets option rest value := by
  constructor
  · intro h
    cases h with
    | assigned name => exact absurd name (other _)
    | next name _ => exact absurd name (other _)
    | later continues sets => exact ⟨continues, sets⟩
  · rintro ⟨continues, sets⟩
    exact .later continues sets

/-! ## Settings -/

omit [Number α] in
theorem word_injective : Function.Injective OptionName.word := by
  intro a b
  cases a <;> cases b <;> simp [OptionName.word]

/-- The tolerance is set once, to the number that a value spells. -/
theorem setOption_tolerance {s s' : Settings α} {value : String}
    (h : s.setOption .tolerance value = .ok s') :
    s.tolerance = none ∧ ∃ t, readNumber .tolerance value = .ok t ∧ s'.tolerance = some t := by
  rw [setOption] at h
  by_cases hset : s.has .tolerance = true
  · rw [if_pos hset] at h
    cases h
  · rw [if_neg hset] at h
    obtain ⟨t, ht, rfl⟩ := Attempt.map_eq_ok_iff.mp h
    exact ⟨by simpa [has] using hset, t, ht, rfl⟩

theorem setOption_other {s s' : Settings α} {option : OptionName} {value : String}
    (h : s.setOption option value = .ok s') (other : option ≠ .tolerance) :
    s'.tolerance = s.tolerance := by
  rw [setOption.eq_def] at h
  by_cases hset : s.has option = true
  · rw [if_pos hset] at h
    cases h
  · rw [if_neg hset] at h
    cases option with
    | tolerance => exact absurd rfl other
    | backend | timeLimit | nodeLimit =>
      obtain ⟨_, -, rfl⟩ := Attempt.map_eq_ok_iff.mp h
      rfl

omit [Number α] in
theorem setFile_tolerance {s s' : Settings α} {text : String} (h : s.setFile text = .ok s') :
    s'.tolerance = s.tolerance := by
  rw [setFile] at h
  split_ifs at h
  obtain rfl := Except.ok.inj h
  rfl

omit [Number α] in
theorem setFlag_tolerance {s s' : Settings α} {flag : FlagName} (h : s.setFlag flag = .ok s') :
    s'.tolerance = s.tolerance := by
  rw [setFlag] at h
  split_ifs at h
  obtain rfl := Except.ok.inj h
  rfl

omit [Number α] in
theorem readBare_tolerance {s s' : Settings α} {name : String} (h : readBare s name = .ok s') :
    s'.tolerance = s.tolerance := by
  rw [readBare] at h
  split at h
  · exact setFlag_tolerance h
  · cases h

theorem complete_tolerance {s : Settings α} {i : Invocation α} (h : s.complete = .ok (.solve i)) :
    i.tolerance = s.tolerance.getD Audit.defaultTolerance := by
  rw [complete] at h
  split at h
  · cases h
  · obtain rfl := Command.solve.inj (Except.ok.inj h)
    rfl

theorem readFiles_tolerance {s : Settings α} {words : List String} {i : Invocation α}
    (h : readFiles s words = .ok (.solve i)) :
    i.tolerance = s.tolerance.getD Audit.defaultTolerance := by
  obtain ⟨final, hfiles, hcomplete⟩ := Attempt.bind_eq_ok_iff.mp h
  have hsame : final.tolerance = s.tolerance :=
    Attempt.foldlM_preserves (P := fun s' : Settings α => s'.tolerance = s.tolerance)
      (fun s' text next h hnext => (setFile_tolerance hnext).trans h) rfl hfiles
  rw [complete_tolerance hcomplete, hsame]

/-! ## One step -/

/-- What the first of some words comes to, on the way to a solve. -/
inductive Step (i : Invocation α) (s : Settings α) (word : String) (rest : List String) :
    Option OptionName → Prop
  /-- It is the value that an option waits for. -/
  | value {option : OptionName} {value : String} {s' : Settings α}
      (plain : Word.ofText word = .plain value) (sets : s.setOption option value = .ok s')
      (goes : readWords none s' rest = .ok (.solve i)) : Step i s word rest (some option)
  /-- It gives an option a value. -/
  | assigns {option : OptionName} {value : String} {s' : Settings α}
      (name : Word.ofText word = .long option.word (some value))
      (sets : s.setOption option value = .ok s')
      (goes : readWords none s' rest = .ok (.solve i)) : Step i s word rest none
  /-- It is an option, which waits for its value. -/
  | waits {option : OptionName} (name : Word.ofText word = .long option.word none)
      (goes : readWords (some option) s rest = .ok (.solve i)) : Step i s word rest none
  /-- It has nothing to do with options. -/
  | passes {s' : Settings α}
      (other : ∀ option value, Word.ofText word ≠ .long (OptionName.word option) value)
      (continues : Word.ofText word ≠ .separator) (same : s'.tolerance = s.tolerance)
      (goes : readWords none s' rest = .ok (.solve i)) : Step i s word rest none
  /-- It ends the options. -/
  | ends (separator : Word.ofText word = .separator)
      (goes : readFiles s rest = .ok (.solve i)) : Step i s word rest none

omit [Number α] in
theorem commandOfLetter?_ne_solve (letter : Char) (i : Invocation α) :
    commandOfLetter? letter ≠ some (.solve i) := by
  intro h
  rw [commandOfLetter?.eq_def] at h
  split at h <;> cases h

omit [Number α] in
theorem commandOfName?_ne_solve (name : String) (i : Invocation α) :
    commandOfName? name ≠ some (.solve i) := by
  rw [commandOfName?]
  split_ifs <;> simp

theorem word_of_find? {name : String} {option : OptionName}
    (h : (OptionName.all.find? fun option => option.word == name) = some option) :
    option.word = name := by
  simpa using List.find?_some h

theorem word_ne_of_find? {name : String}
    (h : (OptionName.all.find? fun option => option.word == name) = none) (option : OptionName) :
    option.word ≠ name := by
  have hmem : option ∈ OptionName.all := by
    cases option <;> decide
  simpa using List.find?_eq_none.mp h option hmem

/-- **One word.** If a solve comes of the words, the first of them did one of these things. -/
theorem readWords_cons {pending : Option OptionName} {s : Settings α} {word : String}
    {rest : List String} {i : Invocation α}
    (h : readWords pending s (word :: rest) = .ok (.solve i)) : Step i s word rest pending := by
  rw [readWords.eq_def] at h
  cases pending with
  | some option =>
    cases hword : Word.ofText word with
    | plain value =>
      simp only [hword] at h
      obtain ⟨s', hs', hrest⟩ := Attempt.bind_eq_ok_iff.mp h
      exact .value hword hs' hrest
    | _ =>
      -- an option whose value does not come is a fault
      simp only [hword] at h
      cases h
  | none =>
    cases hword : Word.ofText word with
    | separator =>
      simp only [hword] at h
      exact .ends hword h
    | short letters =>
      -- a letter can ask for a text to be shown, but not for a solve
      simp only [hword] at h
      split at h
      · next command hcommand =>
        obtain rfl : command = .solve i := Except.ok.inj h
        exact absurd hcommand (commandOfLetter?_ne_solve _ i)
      · cases h
    | plain file =>
      simp only [hword] at h
      obtain ⟨s', hs', hrest⟩ := Attempt.bind_eq_ok_iff.mp h
      exact .passes (by simp [hword]) (by simp [hword]) (setFile_tolerance hs') hrest
    | long name value =>
      simp only [hword] at h
      split at h
      · next option value hfound =>
        obtain ⟨s', hs', hrest⟩ := Attempt.bind_eq_ok_iff.mp h
        exact .assigns (word_of_find? hfound ▸ hword) hs' hrest
      · next option hfound =>
        exact .waits (word_of_find? hfound ▸ hword) h
      · cases h
      · next hnone =>
        split at h
        · next command hcommand =>
          obtain rfl : command = .solve i := Except.ok.inj h
          exact absurd hcommand (commandOfName?_ne_solve name i)
        · obtain ⟨s', hs', hrest⟩ := Attempt.bind_eq_ok_iff.mp h
          refine .passes ?_ (by simp [hword]) (readBare_tolerance hs') hrest
          intro option value heq
          exact word_ne_of_find? hnone option (Word.long.inj (hword.symm.trans heq)).1.symm

/-! ## All words -/

/-- A value is given to the tolerance by the next word, if it waits for one, or later. -/
def GivesTolerance (pending : Option OptionName) (words : List String) (value : String) : Prop :=
  (pending = some .tolerance ∧ ∃ word rest, words = word :: rest ∧ Word.ofText word = .plain value)
    ∨ Sets .tolerance words value

theorem givesTolerance_none {words : List String} {value : String} :
    GivesTolerance none words value ↔ Sets .tolerance words value := by
  simp [GivesTolerance]

/-- The tolerance of a solve is what a value spells that is still to be given, if the settings
have none yet. Without such a value it is that of the settings, or the default. -/
structure TakesTolerance (given : String → Prop) (s : Settings α) (i : Invocation α) : Prop where
  spelled : ∀ value, given value →
    s.tolerance = none ∧ readNumber .tolerance value = .ok i.tolerance
  kept : (∀ value, ¬ given value) → i.tolerance = s.tolerance.getD Audit.defaultTolerance

namespace TakesTolerance

variable {given given' : String → Prop} {s s' : Settings α} {i : Invocation α}

/-- Only the tolerance of the settings counts. -/
theorem of_same (h : TakesTolerance given s' i) (same : s'.tolerance = s.tolerance)
    (hgiven : ∀ v, given' v ↔ given v) : TakesTolerance given' s i := by
  constructor
  · intro v hv
    rw [← same]
    exact h.spelled v ((hgiven v).mp hv)
  · intro hnot
    rw [← same]
    exact h.kept fun v hv => hnot v ((hgiven v).mpr hv)

theorem of_setOption {option : OptionName} {value : String} (h : TakesTolerance given s' i)
    (sets : s.setOption option value = .ok s')
    (hgiven : ∀ v, given' v ↔ (option = .tolerance ∧ v = value) ∨ given v) :
    TakesTolerance given' s i := by
  by_cases hoption : option = .tolerance
  · -- the tolerance is set now, and by nothing that follows
    subst hoption
    obtain ⟨hnone, t, ht, hs'⟩ := setOption_tolerance sets
    have hlast : ∀ v, ¬ given v := by
      intro v hv
      have := (h.spelled v hv).1
      rw [hs'] at this
      cases this
    have hi : i.tolerance = t := by
      rw [h.kept hlast, hs', Option.getD_some]
    constructor
    · intro v hv
      rcases (hgiven v).mp hv with ⟨-, rfl⟩ | hv
      · rw [hi]
        exact ⟨hnone, ht⟩
      · exact absurd hv (hlast v)
    · intro hnot
      exact absurd ((hgiven value).mpr (.inl ⟨rfl, rfl⟩)) (hnot value)
  · exact h.of_same (setOption_other sets hoption) fun v => by simp [hgiven v, hoption]

end TakesTolerance

/-- Some words give a solve its tolerance, or leave it that of the settings. -/
theorem takesTolerance_readWords {pending : Option OptionName} {s : Settings α}
    {words : List String} {i : Invocation α} (h : readWords pending s words = .ok (.solve i)) :
    TakesTolerance (GivesTolerance pending words) s i := by
  -- each word changes the settings, or the option that waits for the next one
  induction words generalizing pending s with
  | nil =>
    cases pending with
    | some option => cases h
    | none =>
      refine ⟨fun value hgiven => ?_, fun _ => complete_tolerance h⟩
      exact absurd (givesTolerance_none.mp hgiven) (not_sets_nil _ _)
  | cons word rest ih =>
    cases readWords_cons h with
    | value plain sets goes =>
      refine (ih goes).of_setOption sets fun v => ?_
      rw [givesTolerance_none, GivesTolerance, sets_cons_iff (by simp [plain])]
      simp [plain, eq_comm]
    | assigns name sets goes =>
      refine (ih goes).of_setOption sets fun v => ?_
      rw [givesTolerance_none, givesTolerance_none]
      constructor
      · intro hsets
        cases hsets with
        | assigned name' =>
          obtain ⟨hword, hvalue⟩ := Word.long.inj (name.symm.trans name')
          exact .inl ⟨word_injective hword, (Option.some.inj hvalue).symm⟩
        | next name' _ => exact absurd (name.symm.trans name') (by simp)
        | later _ sets => exact .inr sets
      · rintro (⟨rfl, rfl⟩ | hsets)
        · exact .assigned name
        · exact .later (by simp [name]) hsets
    | waits name goes =>
      refine (ih goes).of_same rfl fun v => ?_
      rw [givesTolerance_none]
      constructor
      · intro hsets
        cases hsets with
        | assigned name' => exact absurd (name.symm.trans name') (by simp)
        | next name' plain =>
          obtain ⟨hword, -⟩ := Word.long.inj (name.symm.trans name')
          exact .inl ⟨congrArg some (word_injective hword), _, _, rfl, plain⟩
        | later _ sets => exact .inr sets
      · rintro (⟨hoption, text, rest', rfl, plain⟩ | hsets)
        · obtain rfl := Option.some.inj hoption
          exact .next name plain
        · exact .later (by simp [name]) hsets
    | passes other continues same goes =>
      refine (ih goes).of_same same fun v => ?_
      rw [givesTolerance_none, givesTolerance_none, sets_cons_iff (other .tolerance)]
      exact and_iff_right continues
    | ends separator goes =>
      refine ⟨fun value hgiven => ?_, fun _ => readFiles_tolerance goes⟩
      have hsets := (sets_cons_iff (by simp [separator])).mp (givesTolerance_none.mp hgiven)
      exact absurd separator hsets.1

/-- **Where the tolerance of a command line comes from.** If it asks for a solve, every value
that it gives to the tolerance spells the tolerance of the solve. If it gives none, that is the
default. -/
theorem read_tolerance {words : List String} {i : Invocation α}
    (h : read words = .ok (.solve i)) :
    (∀ value, Sets .tolerance words value → readNumber .tolerance value = .ok i.tolerance)
      ∧ ((∀ value, ¬ Sets .tolerance words value) → i.tolerance = Audit.defaultTolerance) := by
  have htakes := takesTolerance_readWords h
  constructor
  · intro value hsets
    exact (htakes.spelled value (givesTolerance_none.mpr hsets)).2
  · intro hnot
    exact htakes.kept fun value hgiven => hnot value (givesTolerance_none.mp hgiven)

end Milp.CommandLine
