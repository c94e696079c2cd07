/-
Turns of a run, counted.

`run` is given a bound on the number of its steps, and `stateAfter?` says in which state
the search is after a number of them. This file ties the two together, so that no later
proof has to go through the recursion of a run again.

* The state after `k` turns has explored `k` nodes (`explored_of_stateAfter?`).
* As long as there is a state after `k` turns, a longer run continues from it
  (`run_of_stateAfter?`); if there is none, some turn before was the last one
  (`exists_last_turn`), and every run that gets past it ends the same way.

A larger bound therefore never changes how a run ends (`run_eq_of_le`).
-/
import Milp.Proofs.Search.Steps

set_option autoImplicit false

namespace Milp.Search

variable {α : Type} [Number α]

/-! ## Counters -/

theorem Concluded.explored {p : Program α} {tolerance : α} {s next : State α}
    {here : Pending α} {relaxation : Relaxation α}
    (h : Concluded p tolerance s here relaxation next) : next.explored = s.explored := by
  cases h <;> rfl

section Turns

variable {p : Program α} {limits : Limits α} {oracle : Oracle α} {watch : Nat → Sighting}
  {s next : State α} {k : Nat}

/-- A turn explores one node. -/
theorem explored_of_proceed {sighting : Sighting}
    (h : step p limits oracle sighting s = .proceed next) : next.explored = s.explored + 1 := by
  obtain ⟨here, rest, relaxation, -, -, -, hc⟩ := step_proceed h
  have htaken := hc.explored
  simpa [State.taken] using htaken

/-- The state after one more turn comes from the state before it. -/
theorem stateAfter?_succ_eq_some_iff :
    stateAfter? p limits oracle watch (k + 1) = some next
      ↔ ∃ s, stateAfter? p limits oracle watch k = some s
        ∧ step p limits oracle (watch s.explored) s = .proceed next := by
  rw [stateAfter?, Option.bind_eq_some_iff]
  refine exists_congr fun s => and_congr_right fun _ => ?_
  cases step p limits oracle (watch s.explored) s <;> simp

/-- As many nodes are explored as turns were taken. -/
theorem explored_of_stateAfter? (h : stateAfter? p limits oracle watch k = some s) :
    s.explored = k := by
  induction k generalizing s with
  | zero =>
    rw [stateAfter?, Option.some.injEq] at h
    rw [← h]
    rfl
  | succ k ih =>
    obtain ⟨before, hbefore, hstep⟩ := stateAfter?_succ_eq_some_iff.mp h
    have hcount := ih hbefore
    have hnext := explored_of_proceed hstep
    omega

/-- If there is a state after some turns, there was one after fewer. -/
theorem stateAfter?_isSome_of_le {j : Nat} (hle : j ≤ k)
    (h : (stateAfter? p limits oracle watch k).isSome = true) :
    (stateAfter? p limits oracle watch j).isSome = true := by
  induction k with
  | zero =>
    have hj : j = 0 := by omega
    rw [hj]
    exact h
  | succ k ih =>
    by_cases hj : j = k + 1
    · rw [hj]
      exact h
    · obtain ⟨next, hnext⟩ := Option.isSome_iff_exists.mp h
      obtain ⟨before, hbefore, -⟩ := stateAfter?_succ_eq_some_iff.mp hnext
      exact ih (by omega) (Option.isSome_iff_exists.mpr ⟨before, hbefore⟩)

/-! ## Runs -/

/-- A run continues from the state after the turns it has taken. -/
theorem run_of_stateAfter? (h : stateAfter? p limits oracle watch k = some s) (n : Nat) :
    run p limits oracle watch (k + n) = runFrom p limits oracle watch n s := by
  induction k generalizing s n with
  | zero =>
    rw [stateAfter?, Option.some.injEq] at h
    rw [Nat.zero_add, run, h]
  | succ k ih =>
    obtain ⟨before, hbefore, hstep⟩ := stateAfter?_succ_eq_some_iff.mp h
    have hrun := ih hbefore (n + 1)
    have hsum : k + 1 + n = k + (n + 1) := by omega
    rw [hsum, hrun, runFrom, hstep]

/-- If a number of turns cannot be taken, one before them was the last. -/
theorem exists_last_turn (h : stateAfter? p limits oracle watch k = none) :
    ∃ j s, j < k ∧ stateAfter? p limits oracle watch j = some s
      ∧ ∀ next, step p limits oracle (watch s.explored) s ≠ .proceed next := by
  induction k with
  | zero => simp [stateAfter?] at h
  | succ k ih =>
    cases hk : stateAfter? p limits oracle watch k with
    | none =>
      obtain ⟨j, s, hj, hs, hlast⟩ := ih hk
      exact ⟨j, s, by omega, hs, hlast⟩
    | some s =>
      refine ⟨k, s, by omega, hk, fun next hstep => ?_⟩
      have hnext := stateAfter?_succ_eq_some_iff.mpr ⟨s, hk, hstep⟩
      rw [h] at hnext
      cases hnext

/-- What a run makes of its last turn. -/
def Step.ending (last : Step α) : Run α :=
  match last with
  | .proceed s => .unfinished s
  | .finished s status => .answered (s.answer status)
  | .failed fault => .failed fault

/-- Every run that gets past the last turn ends with it. -/
theorem run_of_last_turn {steps : Nat} (hs : stateAfter? p limits oracle watch k = some s)
    (last : ∀ next, step p limits oracle (watch s.explored) s ≠ .proceed next)
    (hlt : k < steps) :
    run p limits oracle watch steps = (step p limits oracle (watch s.explored) s).ending := by
  obtain ⟨n, rfl⟩ : ∃ n, steps = k + (n + 1) := ⟨steps - k - 1, by omega⟩
  rw [run_of_stateAfter? hs, runFrom]
  cases hstep : step p limits oracle (watch s.explored) s with
  | proceed next => exact absurd hstep (last next)
  | finished last status => rfl
  | failed fault => rfl

/-- **A run that answers** does so in a last turn, which its bound lets it reach. -/
theorem last_turn_of_answered {steps : Nat} {answer : Answer α}
    (h : run p limits oracle watch steps = .answered answer) :
    ∃ j s last status, j < steps ∧ stateAfter? p limits oracle watch j = some s
      ∧ step p limits oracle (watch s.explored) s = .finished last status
      ∧ answer = last.answer status := by
  cases hsteps : stateAfter? p limits oracle watch steps with
  | some s =>
    -- such a run is not at its end yet
    have hrun := run_of_stateAfter? hsteps 0
    rw [Nat.add_zero, h] at hrun
    cases hrun
  | none =>
    obtain ⟨j, s, hj, hs, hlast⟩ := exists_last_turn hsteps
    have hrun := run_of_last_turn hs hlast hj
    rw [h] at hrun
    cases hstep : step p limits oracle (watch s.explored) s with
    | proceed next => exact absurd hstep (hlast next)
    | finished last status =>
      rw [hstep, Step.ending, Run.answered.injEq] at hrun
      exact ⟨j, s, last, status, hj, hs, hstep, hrun⟩
    | failed fault =>
      rw [hstep, Step.ending] at hrun
      cases hrun

/-- **A larger bound does not change how a run ends**, once it has ended. -/
theorem run_eq_of_le {few many : Nat} (hle : few ≤ many)
    (ended : stateAfter? p limits oracle watch few = none) :
    run p limits oracle watch many = run p limits oracle watch few := by
  obtain ⟨j, s, hj, hs, hlast⟩ := exists_last_turn ended
  rw [run_of_last_turn hs hlast hj, run_of_last_turn hs hlast (by omega)]

/-- Two answers of one search are equal, whatever the bounds. -/
theorem answered_unique {few many : Nat} {a b : Answer α}
    (ha : run p limits oracle watch few = .answered a)
    (hb : run p limits oracle watch many = .answered b) : a = b := by
  have hlonger : ∀ {steps : Nat} {c : Answer α}, run p limits oracle watch steps = .answered c →
      ∀ {n : Nat}, steps ≤ n → run p limits oracle watch n = .answered c := by
    intro steps c hc n hle
    obtain ⟨j, s, last, status, hj, hs, hstep, rfl⟩ := last_turn_of_answered hc
    rw [run_of_last_turn hs (by simp [hstep]) (by omega), hstep, Step.ending]
  have hboth := hlonger ha (Nat.le_add_right few many)
  rw [hlonger hb (Nat.le_add_left many few), Run.answered.injEq] at hboth
  exact hboth.symm

end Turns

end Milp.Search
