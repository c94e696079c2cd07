/-
What a success establishes.

Models are built and answers checked by sequences of steps that may fail. These lemmas
read a success backwards: a sequence succeeded exactly if its steps did, one after the
other, and a check of every item of a list exactly if it passes every item. A failure is
read the same way: it is that of the first step that fails, after those before it succeeded.

Three ways of saying what a computation can come to go along with its steps: that every
result is of a kind (`Yields`), that every fault is (`FailsOnly`), and that an objection
found beforehand decides which of the two there is (`Settles`).
-/
import Mathlib

set_option autoImplicit false

namespace Milp.Attempt

variable {ε β γ : Type}

theorem bind_eq_ok_iff {x : Except ε β} {f : β → Except ε γ} {c : γ} :
    (x >>= f) = .ok c ↔ ∃ b, x = .ok b ∧ f b = .ok c := by
  cases x with
  | error e => simp [bind, Except.bind]
  | ok b => simp [bind, Except.bind]

theorem map_eq_ok_iff {x : Except ε β} {f : β → γ} {c : γ} :
    x.map f = .ok c ↔ ∃ b, x = .ok b ∧ f b = c := by
  cases x with
  | error e => simp [Except.map]
  | ok b => simp [Except.map]

theorem bind_eq_error_iff {x : Except ε β} {f : β → Except ε γ} {e : ε} :
    (x >>= f) = .error e ↔ x = .error e ∨ ∃ b, x = .ok b ∧ f b = .error e := by
  cases x with
  | error e => simp [bind, Except.bind]
  | ok b => simp [bind, Except.bind]

theorem map_eq_error_iff {x : Except ε β} {f : β → γ} {e : ε} :
    x.map f = .error e ↔ x = .error e := by
  cases x with
  | error e => simp [Except.map]
  | ok b => simp [Except.map]

theorem eq_ok_of_toOption {x : Except ε β} {b : β} (h : x.toOption = some b) : x = .ok b := by
  cases x with
  | error e => cases h
  | ok c => exact congrArg Except.ok (Option.some.inj h)

theorem exists_error_of_toOption {x : Except ε β} (h : x.toOption = none) : ∃ e, x = .error e := by
  cases x with
  | error e => exact ⟨e, rfl⟩
  | ok c => cases h

/-- A check of every item succeeds exactly if each item passes. -/
theorem forM_eq_ok_iff {f : β → Except ε Unit} {l : List β} :
    l.forM f = .ok () ↔ ∀ b ∈ l, f b = .ok () := by
  induction l with
  | nil => exact iff_of_true rfl (List.forall_mem_nil _)
  | cons b l ih =>
    show (f b >>= fun _ => l.forM f) = .ok () ↔ _
    rw [bind_eq_ok_iff, List.forall_mem_cons, ← ih]
    constructor
    · rintro ⟨⟨⟩, hb, hl⟩
      exact ⟨hb, hl⟩
    · rintro ⟨hb, hl⟩
      exact ⟨⟨⟩, hb, hl⟩

/-- A check of every item fails with the first fault. -/
theorem forM_eq_error {f : β → Except ε Unit} {before after : List β} {b : β} {e : ε}
    (passed : ∀ a ∈ before, f a = .ok ()) (fails : f b = .error e) :
    (before ++ b :: after).forM f = .error e := by
  induction before with
  | nil =>
    show (f b >>= fun _ => after.forM f) = .error e
    rw [fails]
    rfl
  | cons a before ih =>
    obtain ⟨ha, hbefore⟩ := List.forall_mem_cons.mp passed
    show (f a >>= fun _ => (before ++ b :: after).forM f) = .error e
    rw [ha, ← ih hbefore]
    rfl

/-- What a fold starts with and every step preserves, it ends with. -/
theorem foldlM_preserves {P : γ → Prop} {f : γ → β → Except ε γ}
    (step : ∀ c b d, P c → f c b = .ok d → P d) {l : List β} {c d : γ} (start : P c)
    (h : l.foldlM f c = .ok d) : P d := by
  induction l generalizing c with
  | nil =>
    obtain rfl : c = d := by injection h
    exact start
  | cons b l ih =>
    rw [List.foldlM_cons, bind_eq_ok_iff] at h
    obtain ⟨e, he, hl⟩ := h
    exact ih (step c b e start he) hl

/-- A fold fails exactly if one of its steps does, after those before it succeeded. -/
theorem foldlM_eq_error_iff {f : γ → β → Except ε γ} {l : List β} {c : γ} {e : ε} :
    l.foldlM f c = .error e ↔ ∃ before b after d, l = before ++ b :: after
      ∧ before.foldlM f c = .ok d ∧ f d b = .error e := by
  induction l generalizing c with
  | nil =>
    constructor
    · intro h
      cases h
    · rintro ⟨before, b, after, d, hl, -⟩
      cases before <;> cases hl
  | cons b l ih =>
    rw [List.foldlM_cons, bind_eq_error_iff]
    constructor
    · rintro (hb | ⟨d, hb, hl⟩)
      · exact ⟨[], b, l, c, rfl, rfl, hb⟩
      · obtain ⟨before, b', after, d', rfl, hbefore, hfails⟩ := ih.mp hl
        refine ⟨b :: before, b', after, d', rfl, ?_, hfails⟩
        exact bind_eq_ok_iff.mpr ⟨d, hb, hbefore⟩
    · rintro ⟨before, b', after, d', hl, hbefore, hfails⟩
      cases before with
      | nil =>
        obtain ⟨rfl, rfl⟩ := List.cons.inj hl
        obtain rfl := Except.ok.inj hbefore
        exact .inl hfails
      | cons first before =>
        obtain ⟨rfl, rfl⟩ := List.cons.inj hl
        obtain ⟨d, hb, hbefore⟩ := bind_eq_ok_iff.mp hbefore
        exact .inr ⟨d, hb, ih.mpr ⟨before, b', after, d', rfl, hbefore, hfails⟩⟩

/-- A list of results comes about exactly if its items do, one from each item. -/
theorem mapM_eq_ok_iff {f : β → Except ε γ} {l : List β} {r : List γ} :
    l.mapM f = .ok r ↔ List.Forall₂ (fun b c => f b = .ok c) l r := by
  induction l generalizing r with
  | nil =>
    rw [List.mapM_nil, List.forall₂_nil_left_iff]
    constructor
    · intro h
      exact (Except.ok.inj h).symm
    · rintro rfl
      rfl
  | cons b l ih =>
    rw [List.mapM_cons, bind_eq_ok_iff, List.forall₂_cons_left_iff]
    constructor
    · rintro ⟨c, hb, hrest⟩
      obtain ⟨cs, hl, hr⟩ := bind_eq_ok_iff.mp hrest
      exact ⟨c, cs, hb, ih.mp hl, (Except.ok.inj hr).symm⟩
    · rintro ⟨c, cs, hb, hl, rfl⟩
      refine ⟨c, hb, bind_eq_ok_iff.mpr ⟨cs, ih.mpr hl, rfl⟩⟩

/-- A list of results fails exactly if one of its items does, after those before it
succeeded. -/
theorem mapM_eq_error_iff {f : β → Except ε γ} {l : List β} {e : ε} :
    l.mapM f = .error e ↔ ∃ before b after, l = before ++ b :: after
      ∧ (∀ a ∈ before, ∃ c, f a = .ok c) ∧ f b = .error e := by
  induction l with
  | nil =>
    constructor
    · intro h
      cases h
    · rintro ⟨before, b, after, hl, -⟩
      cases before <;> cases hl
  | cons b l ih =>
    have hrest : (b :: l).mapM f = .error e
        ↔ f b = .error e ∨ ∃ c, f b = .ok c ∧ l.mapM f = .error e := by
      rw [List.mapM_cons, bind_eq_error_iff]
      refine or_congr_right (exists_congr fun c => and_congr_right' ?_)
      exact map_eq_error_iff (f := fun r => c :: r)
    rw [hrest]
    constructor
    · rintro (hb | ⟨c, hb, hl⟩)
      · exact ⟨[], b, l, rfl, List.forall_mem_nil _, hb⟩
      · obtain ⟨before, b', after, rfl, hbefore, hfails⟩ := ih.mp hl
        exact ⟨b :: before, b', after, rfl, List.forall_mem_cons.mpr ⟨⟨c, hb⟩, hbefore⟩, hfails⟩
    · rintro ⟨before, b', after, hl, hbefore, hfails⟩
      cases before with
      | nil =>
        obtain ⟨rfl, rfl⟩ := List.cons.inj hl
        exact .inl hfails
      | cons first before =>
        obtain ⟨rfl, rfl⟩ := List.cons.inj hl
        obtain ⟨⟨c, hb⟩, hbefore⟩ := List.forall_mem_cons.mp hbefore
        exact .inr ⟨c, hb, ih.mpr ⟨before, b', after, rfl, hbefore, hfails⟩⟩

/-- Every result comes about from some item. -/
theorem exists_of_mem_mapM {f : β → Except ε γ} {l : List β} {r : List γ} (h : l.mapM f = .ok r)
    {c : γ} (hc : c ∈ r) : ∃ b ∈ l, f b = .ok c := by
  rw [mapM_eq_ok_iff] at h
  induction h with
  | nil => cases hc
  | cons hb _ ih =>
    rcases List.mem_cons.mp hc with rfl | hc
    · exact ⟨_, List.mem_cons_self, hb⟩
    · obtain ⟨b, hmem, hfb⟩ := ih hc
      exact ⟨b, List.mem_cons_of_mem _ hmem, hfb⟩

theorem exists_mapM_eq_ok {f : β → Except ε γ} {l : List β} (h : ∀ b ∈ l, ∃ c, f b = .ok c) :
    ∃ r, l.mapM f = .ok r := by
  induction l with
  | nil => exact ⟨[], rfl⟩
  | cons b l ih =>
    obtain ⟨⟨c, hc⟩, hl⟩ := List.forall_mem_cons.mp h
    obtain ⟨r, hr⟩ := ih hl
    rw [mapM_eq_ok_iff] at hr
    exact ⟨c :: r, mapM_eq_ok_iff.mpr (.cons hc hr)⟩

/-- Where each item that passes has one result, so does a list whose items all pass. -/
theorem mapM_eq_ok_iff_forall {P : β → Prop} {f : β → Except ε γ} {g : β → γ} {l : List β}
    (h : ∀ b ∈ l, ∀ c, f b = .ok c ↔ P b ∧ c = g b) {r : List γ} :
    l.mapM f = .ok r ↔ (∀ b ∈ l, P b) ∧ r = l.map g := by
  rw [mapM_eq_ok_iff]
  induction l generalizing r with
  | nil => simp
  | cons b l ih =>
    obtain ⟨hb, hl⟩ := List.forall_mem_cons.mp h
    rw [List.forall₂_cons_left_iff, List.forall_mem_cons, List.map_cons]
    constructor
    · rintro ⟨c, cs, hc, hcs, rfl⟩
      obtain ⟨passes, rfl⟩ := (hb c).mp hc
      obtain ⟨rest, rfl⟩ := (ih hl).mp hcs
      exact ⟨⟨passes, rest⟩, rfl⟩
    · rintro ⟨⟨passes, rest⟩, rfl⟩
      exact ⟨g b, l.map g, (hb _).mpr ⟨passes, rfl⟩, (ih hl).mpr ⟨rest, rfl⟩, rfl⟩

/-- Items that always pass make no difference to whether a list passes, nor to the fault if it
does not. -/
theorem mapM_filter_bind {δ : Type} {f : β → Except ε γ} {keep : β → Bool} {l : List β}
    (passes : ∀ b ∈ l, keep b = false → ∃ c, f b = .ok c) (next : Except ε δ) :
    ((l.filter keep).mapM f >>= fun _ => next) = l.mapM f >>= fun _ => next := by
  induction l with
  | nil => rfl
  | cons b l ih =>
    obtain ⟨hb, hl⟩ := List.forall_mem_cons.mp passes
    have hcons : ∀ items : List β, ((b :: items).mapM f >>= fun _ => next)
        = f b >>= fun _ => items.mapM f >>= fun _ => next := by
      intro items
      rw [List.mapM_cons, bind_assoc]
      refine bind_congr fun c => ?_
      rw [bind_assoc]
      rfl
    rw [hcons, ← ih hl]
    cases hkeep : keep b with
    | true => rw [List.filter_cons_of_pos hkeep, hcons]
    | false =>
      obtain ⟨c, hc⟩ := hb hkeep
      rw [List.filter_cons_of_neg (by simp [hkeep]), hc]
      rfl

/-- A run whose steps are read beforehand and then made. -/
theorem foldlM_eq_mapM {δ : Type} {P : δ → Prop} {f : δ → β → Except ε δ}
    {reading : β → Except ε γ} {act : δ → γ → δ}
    (step : ∀ d b, P d → f d b = (reading b).map (act d))
    (keeps : ∀ d c, P d → P (act d c)) (items : List β) {d : δ} (start : P d) :
    items.foldlM f d = (items.mapM reading).map fun read => read.foldl act d := by
  induction items generalizing d with
  | nil => rfl
  | cons b items ih =>
    rw [List.foldlM_cons, List.mapM_cons, step d b start]
    cases reading b with
    | error e => rfl
    | ok c =>
      show items.foldlM f (act d c) = (items.mapM reading >>= fun read => pure (c :: read)).map _
      rw [ih (keeps d c start)]
      cases items.mapM reading <;> rfl

/-! ## Kinds of results -/

/-- Every result that a computation can have is of a kind. -/
def Yields (kind : β → Prop) (x : Except ε β) : Prop := ∀ b, x = .ok b → kind b

section Yields

variable {kind : β → Prop} {other : γ → Prop}

theorem yields_ok {b : β} (h : kind b) : Yields kind (.ok b : Except ε β) := by
  intro b' hb
  rw [← Except.ok.inj hb]
  exact h

theorem yields_error (e : ε) : Yields kind (.error e : Except ε β) := nofun

theorem Yields.bind {x : Except ε β} {f : β → Except ε γ} (first : Yields kind x)
    (next : ∀ b, kind b → Yields other (f b)) : Yields other (x >>= f) := by
  intro c hc
  obtain ⟨b, hb, hf⟩ := bind_eq_ok_iff.mp hc
  exact next b (first b hb) c hf

theorem Yields.map {x : Except ε β} {f : β → γ} (h : Yields kind x)
    (next : ∀ b, kind b → other (f b)) : Yields other (x.map f) := by
  intro c hc
  obtain ⟨b, hb, rfl⟩ := map_eq_ok_iff.mp hc
  exact next b (h b hb)

theorem Yields.ite {p : Prop} [Decidable p] {x y : Except ε β} (yes : p → Yields kind x)
    (no : ¬ p → Yields kind y) : Yields kind (if p then x else y) := by
  by_cases hp : p
  · rw [if_pos hp]
    exact yes hp
  · rw [if_neg hp]
    exact no hp

theorem yields_foldlM {f : γ → β → Except ε γ} (step : ∀ c b, other c → Yields other (f c b))
    (l : List β) {c : γ} (start : other c) : Yields other (l.foldlM f c) :=
  fun _ => foldlM_preserves (fun c b d hc => step c b hc d) start

end Yields

/-! ## Kinds of faults -/

/-- Every fault that a computation can end in is of a kind. -/
def FailsOnly (kind : ε → Prop) (x : Except ε β) : Prop := ∀ e, x = .error e → kind e

section FailsOnly

variable {kind : ε → Prop}

theorem failsOnly_ok (b : β) : FailsOnly kind (.ok b) := nofun

theorem failsOnly_error {e : ε} (h : kind e) : FailsOnly kind (.error e : Except ε β) := by
  intro e' he
  rw [← Except.error.inj he]
  exact h

theorem FailsOnly.imp {other : ε → Prop} {x : Except ε β} (h : FailsOnly kind x)
    (weaker : ∀ e, kind e → other e) : FailsOnly other x :=
  fun e he => weaker e (h e he)

theorem FailsOnly.bind {x : Except ε β} {f : β → Except ε γ} (first : FailsOnly kind x)
    (next : ∀ b, x = .ok b → FailsOnly kind (f b)) : FailsOnly kind (x >>= f) := by
  cases x with
  | error e => exact failsOnly_error (first e rfl)
  | ok b => exact next b rfl

theorem FailsOnly.map {x : Except ε β} (h : FailsOnly kind x) (f : β → γ) :
    FailsOnly kind (x.map f) := by
  cases x with
  | error e => exact failsOnly_error (h e rfl)
  | ok b => exact failsOnly_ok (f b)

theorem failsOnly_forM {f : β → Except ε Unit} {l : List β}
    (h : ∀ b ∈ l, FailsOnly kind (f b)) : FailsOnly kind (l.forM f) := by
  induction l with
  | nil => exact failsOnly_ok ()
  | cons b l ih =>
    exact (h b List.mem_cons_self).bind fun _ _ => ih fun b hb => h b (List.mem_cons_of_mem _ hb)

theorem failsOnly_mapM {f : β → Except ε γ} {l : List β}
    (h : ∀ b ∈ l, FailsOnly kind (f b)) : FailsOnly kind (l.mapM f) := by
  induction l with
  | nil => exact failsOnly_ok []
  | cons b l ih =>
    rw [List.mapM_cons]
    refine (h b List.mem_cons_self).bind fun _ _ => ?_
    exact (ih fun b hb => h b (List.mem_cons_of_mem _ hb)).bind fun _ _ => failsOnly_ok _

/-- A fold fails as its steps do, at what they preserve. -/
theorem failsOnly_foldlM {P : γ → Prop} {f : γ → β → Except ε γ} {l : List β}
    (fails : ∀ b ∈ l, ∀ c, P c → FailsOnly kind (f c b))
    (step : ∀ b ∈ l, ∀ c d, P c → f c b = .ok d → P d) {c : γ} (start : P c) :
    FailsOnly kind (l.foldlM f c) := by
  induction l generalizing c with
  | nil => exact failsOnly_ok c
  | cons b l ih =>
    obtain ⟨hfails, hrest⟩ := List.forall_mem_cons.mp fails
    obtain ⟨hstep, hsteps⟩ := List.forall_mem_cons.mp step
    rw [List.foldlM_cons]
    exact (hfails c start).bind fun d hd => ih hrest hsteps (hstep c d start hd)

end FailsOnly

/-! ## Settled computations -/

/-- A computation fails with an objection, if there is one, and otherwise has a result of a
kind. -/
def Settles (objection : Option ε) (kind : β → Prop) (x : Except ε β) : Prop :=
  match objection with
  | some e => x = .error e
  | none => ∃ b, x = .ok b ∧ kind b

theorem settles_ok {kind : β → Prop} {b : β} (h : kind b) :
    Settles none kind (.ok b : Except ε β) :=
  ⟨b, rfl, h⟩

theorem Settles.imp {objection : Option ε} {kind other : β → Prop} {x : Except ε β}
    (h : Settles objection kind x) (weaker : ∀ b, kind b → other b) :
    Settles objection other x := by
  cases objection with
  | some e => exact h
  | none =>
    obtain ⟨b, hx, hb⟩ := h
    exact ⟨b, hx, weaker b hb⟩

theorem Settles.yields {objection : Option ε} {kind : β → Prop} {x : Except ε β}
    (h : Settles objection kind x) : Yields kind x := by
  cases objection with
  | some e =>
    obtain rfl : x = .error e := h
    exact yields_error e
  | none =>
    obtain ⟨b, rfl, hb⟩ := h
    exact yields_ok hb

/-- The first objection counts. -/
theorem Settles.bind {first second : Option ε} {kind : β → Prop} {other : γ → Prop}
    {x : Except ε β} {f : β → Except ε γ} (h : Settles first kind x)
    (next : ∀ b, kind b → Settles second other (f b)) :
    Settles (first.or second) other (x >>= f) := by
  cases first with
  | some e =>
    obtain rfl : x = .error e := h
    rfl
  | none =>
    obtain ⟨b, rfl, hb⟩ := h
    exact next b hb

/-- A fold fails with the first objection to an item. -/
theorem settles_foldlM {objection : β → Option ε} {kind : γ → List β → Prop}
    {f : γ → β → Except ε γ}
    (step : ∀ c b rest, kind c (b :: rest) → Settles (objection b) (fun d => kind d rest) (f c b))
    {items : List β} {c : γ} (start : kind c items) :
    Settles (items.findSome? objection) (fun d => kind d []) (items.foldlM f c) := by
  induction items generalizing c with
  | nil => exact settles_ok start
  | cons b items ih =>
    have hcons : (b :: items).findSome? objection
        = (objection b).or (items.findSome? objection) := by
      rw [List.findSome?_cons]
      cases objection b <;> rfl
    rw [List.foldlM_cons, hcons]
    exact (step c b items start).bind fun d hd => ih hd

theorem Settles.eq_error_iff {objection : Option ε} {kind : β → Prop} {x : Except ε β} {e : ε}
    (h : Settles objection kind x) : x = .error e ↔ objection = some e := by
  cases objection with
  | some e' =>
    obtain rfl : x = .error e' := h
    rw [Except.error.injEq, Option.some.injEq]
  | none =>
    obtain ⟨b, rfl, -⟩ := h
    exact iff_of_false nofun nofun

end Milp.Attempt
