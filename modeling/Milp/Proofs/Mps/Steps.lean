/-
Reading as one step a line.

The reader is a recursion over lines that carries the section and the draft. Here it is a
fold, so that what has been read of a part of a text can be spoken of, and a text taken
apart in its middle: `step` reads one line, and goes no further once the data have ended.

Where a text is read without a fault the numbers of its lines are not used. `advance` is
`step` without them, and a text is then read from what its lines say alone
(`ofText_eq_ok_iff`).
-/
import Milp.Proofs.Attempt
import Milp.Proofs.Mps.Positions
import Milp.Proofs.Mps.Spacing

set_option autoImplicit false

namespace Milp.Mps

variable {α : Type} [Number α]

/-! ## Steps -/

/-- What has been read: the section that the next line belongs to, and the draft. -/
structure Progress (α : Type) where
  part : Section
  draft : Draft α

namespace Progress

/-- Before the first line. -/
def start : Progress α := ⟨.start, .initial⟩

/-- Read one line where the data have not ended. -/
def readLine (p : Progress α) (line : Nat) : Line → Except (Fault α) (Progress α)
  | .header fields => (p.draft.header line fields).map fun read => ⟨read.1, read.2⟩
  | .data fields => (p.draft.dataLine p.part line fields).map fun d => ⟨p.part, d⟩

/-- Read one line. -/
def step (p : Progress α) (l : Nat × Line) : Except (Fault α) (Progress α) :=
  if p.part = .ended then .ok p else p.readLine l.1 l.2

theorem foldlM_step_ended {p : Progress α} (ended : p.part = .ended) (lines : List (Nat × Line)) :
    lines.foldlM step p = .ok p := by
  induction lines with
  | nil => rfl
  | cons l lines ih =>
    rw [List.foldlM_cons, step, if_pos ended]
    exact ih

/-- **The reader is a fold of steps.** -/
theorem readLines_eq {p : Progress α} (open' : p.part ≠ .ended) (lines : List (Nat × Line)) :
    p.draft.readLines p.part lines = (lines.foldlM step p).map (·.draft) := by
  induction lines generalizing p with
  | nil => rfl
  | cons l lines ih =>
    obtain ⟨line, l⟩ := l
    rw [List.foldlM_cons, step, if_neg open']
    cases l with
    | header fields =>
      rw [Draft.readLines, readLine]
      cases p.draft.header line fields with
      | error fault => rfl
      | ok read =>
        show (if read.1 = .ended then pure read.2 else read.2.readLines read.1 lines)
          = (lines.foldlM step ⟨read.1, read.2⟩).map (·.draft)
        by_cases hended : read.1 = .ended
        · rw [if_pos hended, foldlM_step_ended hended]
          rfl
        · rw [if_neg hended]
          exact ih (p := ⟨read.1, read.2⟩) hended
    | data fields =>
      rw [Draft.readLines, readLine]
      cases p.draft.dataLine p.part line fields with
      | error fault => rfl
      | ok d => exact ih (p := ⟨p.part, d⟩) open'

end Progress

theorem Draft.ofText_eq (text : String) :
    (Draft.ofText text : Except (Fault α) (Draft α))
      = ((numbered 1 text.toList).foldlM Progress.step .start).map (·.draft) := by
  rw [ofText, numberedLines_eq]
  exact Progress.readLines_eq (p := .start) nofun _

/-! ## Without numbers -/

omit [Number α] in
/-- What one reading comes to without a fault, the other does too. -/
theorem Alike.ok_iff {β : Type} {line line' : Nat} {x y : Except (Fault α) β}
    (h : Alike line line' x y) {b : β} : x = .ok b ↔ y = .ok b := by
  obtain ⟨z, rfl, rfl⟩ := h
  cases z with
  | error detail => exact iff_of_false nofun nofun
  | ok b' => exact Iff.rfl

namespace Progress

/-- Read one line, whatever its number is. -/
def advance (p : Progress α) (l : Line) : Except (Fault α) (Progress α) := p.step (0, l)

theorem alike_step (p : Progress α) (line line' : Nat) (l : Line) :
    Alike line line' (p.step (line, l)) (p.step (line', l)) := by
  rw [step, step]
  refine .ite (.ok p) ?_
  cases l with
  | header fields => exact (p.draft.alike_header line line' fields).map _
  | data fields => exact (p.draft.alike_dataLine p.part line line' fields).map _

/-- **Without a fault, the numbers of the lines are not used.** -/
theorem foldlM_step_eq_ok_iff {p q : Progress α} (lines : List (Nat × Line)) :
    lines.foldlM step p = .ok q ↔ (lines.map Prod.snd).foldlM advance p = .ok q := by
  induction lines generalizing p with
  | nil => exact Iff.rfl
  | cons l lines ih =>
    rw [List.map_cons, List.foldlM_cons, List.foldlM_cons, Attempt.bind_eq_ok_iff,
      Attempt.bind_eq_ok_iff]
    simp only [ih]
    exact exists_congr fun next => and_congr_left' (p.alike_step l.1 0 l.2).ok_iff

theorem foldlM_advance_ended {p : Progress α} (ended : p.part = .ended) (lines : List Line) :
    lines.foldlM advance p = .ok p := by
  have hnumbered := foldlM_step_ended ended (lines.map fun l => (0, l))
  rw [foldlM_step_eq_ok_iff, List.map_map] at hnumbered
  simpa using hnumbered

end Progress

/-- What the lines of a text say, those that say something. -/
def said (text : String) : List Line := (Text.lines text).filterMap Line.ofChars?

theorem map_snd_numberedLines (text : String) : (numberedLines text).map Prod.snd = said text := by
  have hlines : ((Text.lines text).zipIdx.map Prod.fst).filterMap Line.ofChars? = said text := by
    rw [List.zipIdx_map_fst]
    rfl
  rw [numberedLines, List.map_filterMap, ← hlines, List.filterMap_map]
  refine List.filterMap_congr ?_
  rintro ⟨cs, index⟩ -
  show ((Line.ofChars? cs).map _).map Prod.snd = Line.ofChars? cs
  rw [Option.map_map]
  cases Line.ofChars? cs <;> rfl

/-- **An accepted text is read from what its lines say.** -/
theorem Draft.ofText_eq_ok_iff {text : String} {d : Draft α} :
    Draft.ofText text = .ok d
      ↔ ∃ p : Progress α, (said text).foldlM Progress.advance .start = .ok p ∧ p.draft = d := by
  rw [Draft.ofText_eq, ← numberedLines_eq, Attempt.map_eq_ok_iff, ← map_snd_numberedLines]
  exact exists_congr fun p => and_congr_left' (Progress.foldlM_step_eq_ok_iff _)

end Milp.Mps
