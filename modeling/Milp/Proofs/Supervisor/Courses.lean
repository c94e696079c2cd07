/-
What a supervisor notices while it waits, and in which order.

A supervisor that has set a session to work waits twice: first for the end of the session,
the end of the budget or a cancellation, then, if it had to tell the session to stop, for
the end of the session or the end of the grace. Several of these may have happened when it
looks up, and which one it takes notice of first is not determined. So nothing here knows
the time, and every order of events is possible.

`Standing.note` is what one event does to a race, and a `Course` is a sequence of events
that decides one. No race is out of reach (`Course.exists_race`), so what holds for every
course holds however a race goes. What a race says about the end of its session is what was
noticed before it was decided, either while nothing had interrupted the session or within
the grace (`Course.noticed`).
-/
import Milp.Supervisor
import Mathlib.Data.List.Induction

set_option autoImplicit false

namespace Milp

variable {α : Type}

/-! ## Events -/

/-- What a waiting supervisor can notice. -/
inductive Event (α : Type) where
  | ended (how : SessionEnd α)
  | deadline
  | cancelled
  | graceOver

def Interruption.event : Interruption → Event α
  | .deadline => .deadline
  | .cancelled => .cancelled

/-- How far a race has come. -/
inductive Standing (α : Type) where
  | running
  /-- The session has been told to stop, and the grace runs. -/
  | stopping (why : Interruption)
  | decided (race : Race α)

namespace Standing

/-- What an event does to a race. Once the session has been told to stop, neither the
budget nor the caller matters any more, and a decided race stays as it is. -/
def note : Standing α → Event α → Standing α
  | .running, .ended how => .decided (.ended how)
  | .running, .deadline => .stopping .deadline
  | .running, .cancelled => .stopping .cancelled
  | .running, .graceOver => .running
  | .stopping why, .ended how => .decided (.interrupted why (some how))
  | .stopping why, .graceOver => .decided (.interrupted why none)
  | .stopping why, .deadline | .stopping why, .cancelled => .stopping why
  | .decided race, _ => .decided race

/-- Where a race stands after some events. -/
def after (events : List (Event α)) : Standing α := events.foldl note .running

theorem after_concat (events : List (Event α)) (e : Event α) :
    after (events ++ [e]) = (after events).note e := by
  rw [after, List.foldl_append]
  rfl

/-- What comes after a race is decided does not matter. -/
theorem after_append_of_decided {events : List (Event α)} {race : Race α}
    (h : after events = .decided race) (rest : List (Event α)) :
    after (events ++ rest) = .decided race := by
  induction rest using List.reverseRecOn with
  | nil => rwa [List.append_nil]
  | append_singleton rest e ih =>
    rw [← List.append_assoc, after_concat, ih]
    rfl

/-- A race that is decided was decided by one event, before which it was not. -/
theorem exists_deciding {events : List (Event α)} {race : Race α}
    (h : after events = .decided race) :
    ∃ before e rest, events = before ++ e :: rest ∧ (∀ r, after before ≠ .decided r)
      ∧ (after before).note e = .decided race := by
  induction events using List.reverseRecOn with
  | nil => cases h
  | append_singleton events e ih =>
    by_cases hdecided : ∃ r, after events = .decided r
    · obtain ⟨r, hr⟩ := hdecided
      have hsame := (after_append_of_decided hr [e]).symm.trans h
      obtain ⟨before, d, rest, hsplit, hopen, hnote⟩ := ih (hr.trans hsame)
      refine ⟨before, d, rest ++ [e], ?_, hopen, hnote⟩
      rw [hsplit, List.append_assoc, List.cons_append]
    · rw [after_concat] at h
      exact ⟨events, e, [], rfl, fun r hr => hdecided ⟨r, hr⟩, h⟩

end Standing

/-! ## Courses -/

/-- The end of the session, if the race says that it was noticed. -/
def Race.noticed? : Race α → Option (SessionEnd α)
  | .ended how => some how
  | .interrupted _ within => within

/-- A sequence of events that decides a race. -/
structure Course (α : Type) where
  events : List (Event α)
  race : Race α
  decides : Standing.after events = .decided race

namespace Course

/-- Every race is the race of some course. -/
theorem exists_race (race : Race α) : ∃ c : Course α, c.race = race := by
  cases race with
  | ended how => exact ⟨⟨[.ended how], _, rfl⟩, rfl⟩
  | interrupted why within =>
    cases within with
    | none => exact ⟨⟨[why.event, .graceOver], _, by cases why <;> rfl⟩, rfl⟩
    | some how => exact ⟨⟨[why.event, .ended how], _, by cases why <;> rfl⟩, rfl⟩

/-- **When the end of a session is noticed**: while nothing has interrupted the session, or
after it was told to stop and before the grace was over. -/
theorem noticed (c : Course α) {how : SessionEnd α} (h : c.race.noticed? = some how) :
    ∃ before rest, c.events = before ++ .ended how :: rest
      ∧ ((Standing.after before = .running ∧ c.race = .ended how)
        ∨ ∃ why, Standing.after before = .stopping why
            ∧ c.race = .interrupted why (some how)) := by
  obtain ⟨before, e, rest, hsplit, hopen, hnote⟩ := Standing.exists_deciding c.decides
  generalize hrace : c.race = race at h hnote
  cases hstands : Standing.after before with
  | decided r => exact absurd hstands (hopen r)
  | running =>
    rw [hstands] at hnote
    -- only the end of the session decides a race that nothing has interrupted
    cases e with
    | ended how' =>
      obtain rfl : Race.ended how' = race := by injection hnote
      obtain rfl : how' = how := by injection h
      exact ⟨before, rest, hsplit, .inl ⟨hstands, rfl⟩⟩
    | deadline => cases hnote
    | cancelled => cases hnote
    | graceOver => cases hnote
  | stopping why =>
    rw [hstands] at hnote
    cases e with
    | ended how' =>
      obtain rfl : Race.interrupted why (some how') = race := by injection hnote
      obtain rfl : how' = how := by injection h
      exact ⟨before, rest, hsplit, .inr ⟨why, hstands, rfl⟩⟩
    | deadline => cases hnote
    | cancelled => cases hnote
    | graceOver =>
      -- the grace was over first, so the race says nothing about the end
      obtain rfl : Race.interrupted why none = race := by injection hnote
      cases h

end Course

end Milp
