/-
Which declaration a handle stands for.

A handle is an identity and a position. A model accepts it if the identity is its own and
it has a variable at the position, and then the handle stands for that variable. Identities
are given out once, but a copy keeps the identity of its original: both go on declaring
variables at the same positions, so that from then on two declarations may issue one handle.

To say which declaration issued a handle, every model on a workbench is followed by its
line: the declarations that made its variables, in their order, those before it was copied
included. The line says which handles the model accepts and for what (`Lineage.IsTrue`), and
the lines of two models with one identity agree up to a step that made a copy
(`Parted`). So a handle stands for the declaration that issued it, unless a model was
copied before, and then declared on at both ends (`denotation_unless_copied`).
-/
import Milp.Proofs.Model.References
import Milp.Proofs.Model.WellFormed

set_option autoImplicit false

namespace Milp

variable {α : Type} [Number α]

/-! ## Lines of declarations -/

/-- A declaration that was accepted: at which step it was made, the handle that it issued
and the variable that it registered. -/
structure Declaration (α : Type) where
  time : Nat
  handle : Handle
  registered : Variable α

/-- A model, and the declarations that made its variables. -/
structure Lineage (α : Type) where
  model : Model α
  line : List (Declaration α)

/-- The declaration that a call makes, if it is one and is accepted. -/
def Model.issued? (m : Model α) (time : Nat) : BuildStep α → Option (Declaration α)
  | .declare name kind bounds =>
    match m.declare name kind bounds with
    | .ok (h, _) => some ⟨time, h, ⟨name, kind, kind.effectiveBounds bounds⟩⟩
    | .error _ => none
  | .constrain .. | .optimize .. => none

namespace Lineage

/-- A model after a call, and its line with the declaration that the call made. -/
def after (time : Nat) (call : BuildStep α) (l : Lineage α) : Lineage α :=
  ⟨l.model.attempt call, l.line ++ (l.model.issued? time call).toList⟩

omit [Number α] in
/-- The line of a model made its variables, under the handles of the model. -/
structure IsTrue (l : Lineage α) : Prop where
  registered : l.line.map (·.registered) = l.model.vars
  handles : l.line.map (·.handle) = l.model.handles

/-- An accepted declaration adds a variable under the next handle, and no other call adds
any. -/
theorem attempt_cases (m : Model α) (time : Nat) (call : BuildStep α) :
    (m.attempt call).id = m.id
      ∧ ((m.issued? time call = none ∧ (m.attempt call).vars = m.vars)
        ∨ ∃ e, m.issued? time call = some e ∧ e.time = time
            ∧ e.handle = ⟨m.id, m.vars.length⟩
            ∧ (m.attempt call).vars = m.vars ++ [e.registered]) := by
  cases call with
  | declare name kind bounds =>
    rw [Model.attempt, Model.apply, Model.issued?]
    rcases Model.declare_cases m name kind bounds with ⟨fault, hfault⟩ | hok
    · rw [hfault]
      exact ⟨rfl, .inl ⟨rfl, rfl⟩⟩
    · rw [hok]
      exact ⟨rfl, .inr ⟨_, rfl, rfl, rfl, rfl⟩⟩
  | constrain name e relation rhs =>
    rw [Model.attempt]
    cases hcall : m.apply (.constrain name e relation rhs) with
    | error fault => exact ⟨rfl, .inl ⟨rfl, rfl⟩⟩
    | ok grown =>
      obtain ⟨-, -, rfl⟩ := Model.of_constrain hcall
      exact ⟨rfl, .inl ⟨rfl, rfl⟩⟩
  | optimize e sense =>
    rw [Model.attempt]
    cases hcall : m.apply (.optimize e sense) with
    | error fault => exact ⟨rfl, .inl ⟨rfl, rfl⟩⟩
    | ok grown =>
      obtain ⟨-, -, rfl⟩ := Model.of_optimize hcall
      exact ⟨rfl, .inl ⟨rfl, rfl⟩⟩

omit [Number α] in
theorem handles_concat {m grown : Model α} {v : Variable α} (id : grown.id = m.id)
    (vars : grown.vars = m.vars ++ [v]) :
    grown.handles = m.handles ++ [⟨m.id, m.vars.length⟩] := by
  rw [Model.handles, Model.handles, id, vars, List.length_append, List.length_singleton,
    List.range_succ, List.map_append, List.map_singleton]

theorem IsTrue.after {l : Lineage α} (h : l.IsTrue) (time : Nat) (call : BuildStep α) :
    (l.after time call).IsTrue := by
  obtain ⟨hid, ⟨hnone, hvars⟩ | ⟨e, hsome, -, hhandle, hvars⟩⟩ :=
    attempt_cases l.model time call
  · refine ⟨?_, ?_⟩
    · simp only [Lineage.after, hnone, Option.toList_none, List.append_nil, hvars, h.registered]
    · simp only [Lineage.after, hnone, Option.toList_none, List.append_nil, h.handles,
        Model.handles, hid, hvars]
  · refine ⟨?_, ?_⟩
    · simp only [Lineage.after, hsome, Option.toList_some, List.map_append, List.map_singleton,
        h.registered, hvars]
    · simp only [Lineage.after, hsome, Option.toList_some, List.map_append, List.map_singleton,
        h.handles, hhandle, handles_concat hid hvars]

omit [Number α] in
/-- **A model accepts the handles of its line**, for what was registered under them. -/
theorem IsTrue.variableOf_eq_ok_iff {l : Lineage α} (h : l.IsTrue) {k : Handle}
    {v : Variable α} :
    l.model.variableOf k = .ok v ↔ ∃ e ∈ l.line, e.handle = k ∧ e.registered = v := by
  have hhandle : ∀ i : Nat, (l.line[i]?).map (·.handle)
      = if i < l.model.vars.length then some ⟨l.model.id, i⟩ else none := by
    intro i
    rw [← List.getElem?_map, h.handles, Model.handles, List.getElem?_map]
    by_cases hi : i < l.model.vars.length
    · rw [List.getElem?_range hi, if_pos hi]
      rfl
    · rw [List.getElem?_eq_none (by simpa using hi), if_neg hi]
      rfl
  rw [Model.variableOf_eq_ok_iff, ← h.registered, List.getElem?_map, Option.map_eq_some_iff]
  constructor
  · rintro ⟨hid, e, he, hv⟩
    refine ⟨e, List.mem_of_getElem? he, ?_, hv⟩
    have hat := hhandle k.index
    rw [he, Option.map_some] at hat
    split at hat
    · rw [Option.some.inj hat, ← hid]
    · cases hat
  · rintro ⟨e, he, rfl, hv⟩
    obtain ⟨i, hi⟩ := List.getElem?_of_mem he
    have hat := hhandle i
    rw [hi, Option.map_some] at hat
    split at hat
    · rw [Option.some.inj hat]
      exact ⟨rfl, e, hi, hv⟩
    · cases hat

omit [Number α] in
/-- Within a line every handle is issued once. -/
theorem IsTrue.eq_of_handle_eq {l : Lineage α} (h : l.IsTrue) {d e : Declaration α}
    (hd : d ∈ l.line) (he : e ∈ l.line) (same : d.handle = e.handle) : d = e := by
  have hdistinct : (l.line.map (·.handle)).Nodup := by
    rw [h.handles, Model.handles]
    refine List.nodup_range.map ?_
    intro i j hij
    exact (Handle.mk.inj hij).2
  exact List.inj_on_of_nodup_map hdistinct hd he same

omit [Number α] in
theorem IsTrue.model_of_mem {l : Lineage α} (h : l.IsTrue) {e : Declaration α}
    (he : e ∈ l.line) : e.handle.model = l.model.id := by
  have hmem : e.handle ∈ l.model.handles := h.handles ▸ List.mem_map_of_mem he
  obtain ⟨i, -, hi⟩ := List.mem_map.mp hmem
  rw [← hi]

end Lineage

/-! ## The past of a workbench -/

namespace Workbench

/-- A workbench with the lines of its models. -/
structure Chronicle (α : Type) where
  nextId : Nat
  /-- How many steps there have been. -/
  time : Nat
  lineages : List (Lineage α)

namespace Chronicle

/-- The workbench that a chronicle is about. -/
def bench (c : Chronicle α) : Workbench α := ⟨c.nextId, c.lineages.map (·.model)⟩

/-- What a step adds to the chronicle. A copy has the line of its original. -/
def after (c : Chronicle α) : Step α → Chronicle α
  | .create name => ⟨c.nextId + 1, c.time + 1, c.lineages ++ [⟨Model.empty ⟨c.nextId⟩ name, []⟩]⟩
  | .copy source =>
    { c with time := c.time + 1, lineages := c.lineages ++ c.lineages[source]?.toList }
  | .build target call =>
    { c with time := c.time + 1, lineages := c.lineages.modify target (·.after c.time call) }

end Chronicle

/-- The chronicle of a program. -/
def chronicle (steps : List (Step α)) : Chronicle α := steps.foldl Chronicle.after ⟨1, 0, []⟩

theorem chronicle_concat (steps : List (Step α)) (step : Step α) :
    chronicle (steps ++ [step]) = (chronicle steps).after step := by
  simp only [chronicle, List.foldl_append, List.foldl_cons, List.foldl_nil]

theorem run_concat (steps : List (Step α)) (step : Step α) :
    run (steps ++ [step]) = (run steps).apply step := by
  simp only [run, List.foldl_append, List.foldl_cons, List.foldl_nil]

theorem bench_after (c : Chronicle α) (step : Step α) :
    (c.after step).bench = c.bench.apply step := by
  cases step with
  | create name => simp [Chronicle.bench, Chronicle.after, apply, create]
  | copy source =>
    simp only [Chronicle.bench, Chronicle.after, apply, copy, List.map_append, List.getElem?_map]
    cases c.lineages[source]? with
    | none => simp
    | some l => simp
  | build target call =>
    simp only [Chronicle.bench, Chronicle.after, apply, List.getElem?_map]
    cases hget : c.lineages[target]? with
    | none =>
      rw [Option.map_none, List.modify_eq_self (List.getElem?_eq_none_iff.mp hget)]
    | some l =>
      obtain ⟨hlt, hl⟩ := List.getElem?_eq_some_iff.mp hget
      have hset : c.lineages.modify target (·.after c.time call)
          = c.lineages.set target (l.after c.time call) := by
        rw [List.modify_eq_set_getElem?, hget]
        rfl
      rw [hset, List.map_set]
      rfl

/-- **The chronicle is about the workbench** that the program makes. -/
theorem bench_chronicle (steps : List (Step α)) : (chronicle steps).bench = run steps := by
  induction steps using List.reverseRecOn with
  | nil => rfl
  | append_singleton steps step ih => rw [chronicle_concat, run_concat, bench_after, ih]

/-! ### What holds of every chronicle -/

/-- A step of a program copies a model. -/
def CopiesAt (steps : List (Step α)) (n : Nat) : Prop := ∃ source, steps[n]? = some (.copy source)

/-- Two lines that agree up to a step at which a model was copied. -/
def Parted (steps : List (Step α)) (l k : List (Declaration α)) : Prop :=
  ∃ n shared own own', CopiesAt steps n ∧ l = shared ++ own ∧ k = shared ++ own'
    ∧ (∀ e ∈ own, n < e.time) ∧ ∀ e ∈ own', n < e.time

/-- Identities are given out once, every line is true, and two models with one identity
have lines that parted when a model was copied. -/
structure Chronicle.Holds (steps : List (Step α)) (c : Chronicle α) : Prop where
  time : c.time = steps.length
  issued : ∀ l ∈ c.lineages, l.model.id.number < c.nextId
  lines : ∀ l ∈ c.lineages, l.IsTrue
  parted : c.lineages.Pairwise fun l k =>
    l.model.id = k.model.id → Parted steps l.line k.line

section Parted

variable {steps : List (Step α)} {l k : List (Declaration α)}

omit [Number α] in
theorem CopiesAt.concat {n : Nat} (h : CopiesAt steps n) (step : Step α) :
    CopiesAt (steps ++ [step]) n := by
  obtain ⟨source, hsource⟩ := h
  obtain ⟨hlt, -⟩ := List.getElem?_eq_some_iff.mp hsource
  exact ⟨source, by rw [List.getElem?_append_left hlt, hsource]⟩

omit [Number α] in
theorem CopiesAt.lt {n : Nat} (h : CopiesAt steps n) : n < steps.length := by
  obtain ⟨source, hsource⟩ := h
  exact (List.getElem?_eq_some_iff.mp hsource).1

omit [Number α] in
theorem Parted.symm (h : Parted steps l k) : Parted steps k l := by
  obtain ⟨n, shared, own, own', hn, hl, hk, hown, hown'⟩ := h
  exact ⟨n, shared, own', own, hn, hk, hl, hown', hown⟩

omit [Number α] in
theorem Parted.concat (h : Parted steps l k) (step : Step α) :
    Parted (steps ++ [step]) l k := by
  obtain ⟨n, shared, own, own', hn, hl, hk, hown, hown'⟩ := h
  exact ⟨n, shared, own, own', hn.concat step, hl, hk, hown, hown'⟩

omit [Number α] in
/-- What is declared later belongs to one line only. -/
theorem Parted.grow (h : Parted steps l k) {added : List (Declaration α)}
    (late : ∀ e ∈ added, e.time = steps.length) : Parted steps (l ++ added) k := by
  obtain ⟨n, shared, own, own', hn, rfl, hk, hown, hown'⟩ := h
  refine ⟨n, shared, own ++ added, own', hn, List.append_assoc _ _ _, hk, ?_, hown'⟩
  intro e he
  rcases List.mem_append.mp he with he | he
  · exact hown e he
  · rw [late e he]
    exact hn.lt

end Parted

theorem time_of_issued? {m : Model α} {time : Nat} {call : BuildStep α} {e : Declaration α}
    (h : e ∈ (m.issued? time call).toList) : e.time = time := by
  obtain ⟨-, ⟨hnone, -⟩ | ⟨e', hsome, htime, -, -⟩⟩ := Lineage.attempt_cases m time call
  · rw [hnone] at h
    cases h
  · rw [hsome, Option.toList_some, List.mem_singleton] at h
    rw [h, htime]

/-- What is in a list with one item changed is there already, or is the changed item. -/
theorem mem_modify {β : Type} {f : β → β} {items : List β} {n : Nat} {b : β}
    (h : b ∈ items.modify n f) : b ∈ items ∨ ∃ a ∈ items, b = f a := by
  obtain ⟨i, hi⟩ := List.getElem?_of_mem h
  rw [List.getElem?_modify] at hi
  obtain ⟨a, ha, hab⟩ := Option.map_eq_some_iff.mp hi
  have hmem : a ∈ items := List.mem_of_getElem? ha
  by_cases hn : n = i
  · rw [if_pos hn] at hab
    exact .inr ⟨a, hmem, hab.symm⟩
  · rw [if_neg hn] at hab
    exact .inl (hab ▸ hmem)

/-- A relation between any two items survives a change of one of them that respects it on
either side. -/
theorem pairwise_modify {β : Type} {R : β → β → Prop} {f : β → β}
    (left : ∀ a b, R a b → R (f a) b) (right : ∀ a b, R a b → R a (f b)) {items : List β}
    (h : items.Pairwise R) (n : Nat) : (items.modify n f).Pairwise R := by
  induction items generalizing n with
  | nil => rwa [List.modify_nil]
  | cons a items ih =>
    obtain ⟨hfirst, hrest⟩ := List.pairwise_cons.mp h
    cases n with
    | zero =>
      rw [List.modify_zero_cons, List.pairwise_cons]
      exact ⟨fun b hb => left a b (hfirst b hb), hrest⟩
    | succ n =>
      rw [List.modify_succ_cons, List.pairwise_cons]
      refine ⟨?_, ih hrest n⟩
      intro b hb
      rcases mem_modify hb with hb | ⟨c, hc, rfl⟩
      · exact hfirst b hb
      · exact right a c (hfirst c hc)

namespace Chronicle

variable {steps : List (Step α)} {c : Chronicle α}

omit [Number α] in
theorem holds_initial : Holds ([] : List (Step α)) ⟨1, 0, []⟩ where
  time := rfl
  issued := by simp
  lines := by simp
  parted := List.Pairwise.nil

theorem Holds.create (h : c.Holds steps) (name : String) :
    (c.after (.create name)).Holds (steps ++ [.create name]) where
  time := by simp [Chronicle.after, h.time]
  issued := by
    intro l hl
    rcases List.mem_append.mp hl with hl | hl
    · exact Nat.lt_succ_of_lt (h.issued l hl)
    · rw [List.mem_singleton.mp hl]
      exact Nat.lt_succ_self _
  lines := by
    intro l hl
    rcases List.mem_append.mp hl with hl | hl
    · exact h.lines l hl
    · rw [List.mem_singleton.mp hl]
      exact ⟨rfl, rfl⟩
  parted := by
    refine List.pairwise_append.mpr ⟨?_, List.pairwise_singleton _ _, ?_⟩
    · exact h.parted.imp fun hparted hid => (hparted hid).concat _
    · -- the new identity is nobody else's
      intro l hl k hk hid
      rw [List.mem_singleton.mp hk] at hid
      have hlt := h.issued l hl
      rw [hid] at hlt
      exact absurd hlt (Nat.lt_irrefl _)

theorem Holds.copy (h : c.Holds steps) (source : Nat) :
    (c.after (.copy source)).Holds (steps ++ [.copy source]) := by
  have hold : ∀ k ∈ c.lineages[source]?.toList, k ∈ c.lineages := by
    intro k hk
    exact List.mem_of_getElem? (Option.mem_toList.mp hk)
  have hmem : ∀ l ∈ (c.after (.copy source)).lineages, l ∈ c.lineages := by
    intro l hl
    rcases List.mem_append.mp hl with hl | hl
    · exact hl
    · exact hold l hl
  refine ⟨by simp [Chronicle.after, h.time], fun l hl => h.issued l (hmem l hl),
    fun l hl => h.lines l (hmem l hl), ?_⟩
  have hearlier := h.parted.imp fun {l k} hparted (hid : l.model.id = k.model.id) =>
    (hparted hid).concat (.copy source)
  refine List.pairwise_append.mpr ⟨hearlier, ?_, ?_⟩
  · cases c.lineages[source]? with
    | none => exact List.Pairwise.nil
    | some l => exact List.pairwise_singleton _ _
  · intro l hl k hk
    have hnow : CopiesAt (steps ++ [.copy source]) steps.length := ⟨source, by simp⟩
    -- the copy is parted from its original now, and from the others as its original is
    have hsymm : Std.Symm fun l k : Lineage α =>
        l.model.id = k.model.id → Parted (steps ++ [.copy source]) l.line k.line :=
      ⟨fun l k hparted hid => (hparted hid.symm).symm⟩
    refine hearlier.forall_of_forall ?_ hl (hold k hk)
    intro l _ _
    exact ⟨steps.length, l.line, [], [], hnow, (List.append_nil _).symm,
      (List.append_nil _).symm, by simp, by simp⟩

theorem Holds.build (h : c.Holds steps) (target : Nat) (call : BuildStep α) :
    (c.after (.build target call)).Holds (steps ++ [.build target call]) := by
  have hid : ∀ l : Lineage α, (l.after c.time call).model.id = l.model.id :=
    fun l => (Lineage.attempt_cases l.model c.time call).1
  refine ⟨by simp [Chronicle.after, h.time], ?_, ?_, ?_⟩
  · intro l hl
    rcases mem_modify hl with hl | ⟨k, hk, rfl⟩
    · exact h.issued l hl
    · rw [hid]
      exact h.issued k hk
  · intro l hl
    rcases mem_modify hl with hl | ⟨k, hk, rfl⟩
    · exact h.lines l hl
    · exact (h.lines k hk).after c.time call
  · -- a call adds to a line what is issued now, after any copy that parted two lines
    have hgrow : ∀ l k : Lineage α, Parted steps l.line k.line →
        Parted steps (l.after c.time call).line k.line := by
      intro l k hparted
      refine hparted.grow fun e he => ?_
      rw [time_of_issued? he, h.time]
    have hparted : (c.after (.build target call)).lineages.Pairwise fun l k =>
        l.model.id = k.model.id → Parted steps l.line k.line := by
      refine pairwise_modify ?_ ?_ h.parted target
      · intro l k hlk hsame
        rw [hid] at hsame
        exact hgrow l k (hlk hsame)
      · intro l k hlk hsame
        rw [hid] at hsame
        exact (hgrow k l (hlk hsame).symm).symm
    exact hparted.imp fun h hsame => (h hsame).concat _

end Chronicle

theorem holds_chronicle (steps : List (Step α)) : (chronicle steps).Holds steps := by
  induction steps using List.reverseRecOn with
  | nil => exact Chronicle.holds_initial
  | append_singleton steps step ih =>
    rw [chronicle_concat]
    cases step with
    | create name => exact ih.create name
    | copy source => exact ih.copy source
    | build target call => exact ih.build target call

/-! ### What a handle stands for -/

section Handles

variable {steps : List (Step α)} {l k : Lineage α} {d e : Declaration α}

/-- Declarations of two lines that issued one handle are one, or followed a copying. -/
def Agrees (steps : List (Step α)) (l k : Lineage α) : Prop :=
  ∀ d ∈ l.line, ∀ e ∈ k.line, d.handle = e.handle →
    d = e ∨ ∃ n, CopiesAt steps n ∧ n < d.time ∧ n < e.time

omit [Number α] in
instance symm_agrees (steps : List (Step α)) : Std.Symm (Agrees steps) where
  symm l k hagrees e he d hd same := by
    rcases hagrees d hd e he same.symm with heq | ⟨n, hn, hlt, hlt'⟩
    · exact .inl heq.symm
    · exact .inr ⟨n, hn, hlt', hlt⟩

omit [Number α] in
theorem Parted.agrees (parted : Parted steps l.line k.line) (hl : l.IsTrue) (hk : k.IsTrue) :
    Agrees steps l k := by
  intro d hd e he same
  obtain ⟨n, shared, own, own', hn, hline, hline', hown, hown'⟩ := parted
  have hshared : ∀ f ∈ shared, f ∈ l.line ∧ f ∈ k.line := by
    intro f hf
    rw [hline, hline']
    exact ⟨List.mem_append_left _ hf, List.mem_append_left _ hf⟩
  -- a shared declaration is in both lines, and each line issues the handle once
  rcases List.mem_append.mp (hline ▸ hd) with hd' | hd'
  · exact .inl (hk.eq_of_handle_eq (hshared d hd').2 he same)
  · rcases List.mem_append.mp (hline' ▸ he) with he' | he'
    · exact .inl (hl.eq_of_handle_eq hd (hshared e he').1 same)
    · exact .inr ⟨n, hn, hown d hd', hown' e he'⟩

/-- **Two declarations that issue one handle** are one declaration, or a model was copied
before both. -/
theorem agrees_of_mem (hl : l ∈ (chronicle steps).lineages)
    (hk : k ∈ (chronicle steps).lineages) : Agrees steps l k := by
  have holds := holds_chronicle steps
  have hpairs : (chronicle steps).lineages.Pairwise (Agrees steps) := by
    refine holds.parted.imp_of_mem ?_
    intro l k hl hk hparted d hd e he same
    have hid : l.model.id = k.model.id := by
      rw [← (holds.lines l hl).model_of_mem hd, ← (holds.lines k hk).model_of_mem he, same]
    exact (hparted hid).agrees (holds.lines l hl) (holds.lines k hk) d hd e he same
  refine hpairs.forall_of_forall ?_ hl hk
  intro l hl d hd e he same
  exact .inl ((holds.lines l hl).eq_of_handle_eq hd he same)

end Handles

/-- **What a handle stands for.** Every model on the workbench takes the handles of its own
line for what was registered under them, and no others. Any other handle that was issued is
refused, unless a model was copied before: then it may be taken for a declaration of the
model's own that was made after the copying as well. Calls are accepted only with
handles that the model takes. -/
theorem denotation_unless_copied (steps : List (Step α)) (l : Lineage α)
    (hl : l ∈ (chronicle steps).lineages) :
    (run steps).models = (chronicle steps).lineages.map (·.model)
      ∧ (∀ e ∈ l.line, l.model.variableOf e.handle = .ok e.registered)
      ∧ (∀ h v, l.model.variableOf h = .ok v → ∃ e ∈ l.line, e.handle = h ∧ e.registered = v)
      ∧ (∀ k ∈ (chronicle steps).lineages, ∀ d ∈ k.line, d ∉ l.line →
          l.model.Refuses d.handle
            ∨ ∃ e ∈ l.line, e.handle = d.handle
                ∧ ∃ n, CopiesAt steps n ∧ n < d.time ∧ n < e.time)
      ∧ ∀ call grown, l.model.apply call = .ok grown →
          ∀ h ∈ call.handles, ∃ v, l.model.variableOf h = .ok v := by
  have htrue := (holds_chronicle steps).lines l hl
  refine ⟨?_, ?_, ?_, ?_, ?_⟩
  · rw [← bench_chronicle]
    rfl
  · intro e he
    exact htrue.variableOf_eq_ok_iff.mpr ⟨e, he, rfl, rfl⟩
  · intro h v hv
    exact htrue.variableOf_eq_ok_iff.mp hv
  · intro k hk d hd hnot
    cases hown : l.model.owns d.handle with
    | false => exact .inl (Model.refuses_of_foreign hown)
    | true =>
      obtain ⟨v, hv⟩ := Model.exists_variableOf hown
      obtain ⟨e, he, hsame, -⟩ := htrue.variableOf_eq_ok_iff.mp hv
      rcases agrees_of_mem hk hl d hd e he hsame.symm with rfl | hcopied
      · exact absurd he hnot
      · exact .inr ⟨e, he, hsame, hcopied⟩
  · intro call grown hok
    exact Model.exists_variableOf_of_apply hok

/-! ### A model and its copy -/

namespace Twins

def unit : Interval ExtRat := ⟨.fin 0, .fin 1⟩

def x : Declaration ExtRat := ⟨1, ⟨⟨1⟩, 0⟩, ⟨"x", .continuous, unit⟩⟩

def y : Declaration ExtRat := ⟨3, ⟨⟨1⟩, 1⟩, ⟨"y", .continuous, unit⟩⟩

def z : Declaration ExtRat := ⟨4, ⟨⟨1⟩, 1⟩, ⟨"z", .integer, ⟨.fin 0, .fin 5⟩⟩⟩

def u : Declaration ExtRat := ⟨6, ⟨⟨2⟩, 0⟩, ⟨"u", .binary, unit⟩⟩

/-- A model is copied after `x` was declared; it goes on with `y` and its copy with `z`. A
third model has nothing to do with them. -/
def steps : List (Step ExtRat) :=
  [.create "", .build 0 (.declare "x" .continuous unit), .copy 0,
    .build 0 (.declare "y" .continuous unit), .build 1 (.declare "z" .integer ⟨.fin 0, .fin 5⟩),
    .create "", .build 2 (.declare "u" .binary unit)]

def original : Lineage ExtRat :=
  ⟨⟨⟨1⟩, "", [x.registered, y.registered], [("x", 0), ("y", 1)], [], .initial⟩, [x, y]⟩

def copied : Lineage ExtRat :=
  ⟨⟨⟨1⟩, "", [x.registered, z.registered], [("x", 0), ("z", 1)], [], .initial⟩, [x, z]⟩

def stranger : Lineage ExtRat :=
  ⟨⟨⟨2⟩, "", [u.registered], [("u", 0)], [], .initial⟩, [u]⟩

theorem lineages_steps : (chronicle steps).lineages = [original, copied, stranger] := by
  with_unfolding_all rfl

end Twins

/-- The copy takes the handle of its original that was issued before the copying, and
refuses the one of the third model. -/
theorem denotation_unless_copied_twins :
    Twins.copied ∈ (chronicle Twins.steps).lineages ∧ Twins.x ∈ Twins.original.line
      ∧ Twins.copied.model.variableOf Twins.x.handle = .ok Twins.x.registered
      ∧ Twins.copied.model.Refuses Twins.u.handle := by
  have hcopied : Twins.copied ∈ (chronicle Twins.steps).lineages := by
    simp [Twins.lineages_steps]
  have hstranger : Twins.stranger ∈ (chronicle Twins.steps).lineages := by
    simp [Twins.lineages_steps]
  have hforeign : ∀ e ∈ Twins.copied.line, e.handle ≠ Twins.u.handle := by
    intro e he
    simp only [Twins.copied, List.mem_cons, List.not_mem_nil, or_false] at he
    rcases he with rfl | rfl <;> decide
  obtain ⟨-, htakes, -, hothers, -⟩ := denotation_unless_copied Twins.steps Twins.copied hcopied
  refine ⟨hcopied, List.mem_cons_self, htakes Twins.x List.mem_cons_self, ?_⟩
  have hnot : Twins.u ∉ Twins.copied.line := fun hmem => hforeign Twins.u hmem rfl
  rcases hothers Twins.stranger hstranger Twins.u List.mem_cons_self hnot with
    hrefuses | ⟨e, he, hsame, -⟩
  · exact hrefuses
  · exact absurd hsame (hforeign e he)

/-- **Copies confuse handles.** The original takes the handle that its copy issued for `z`,
in expressions as well, and takes it for `y`. -/
theorem mistaken_twins :
    Twins.original ∈ (chronicle Twins.steps).lineages
      ∧ Twins.copied ∈ (chronicle Twins.steps).lineages ∧ Twins.z ∈ Twins.copied.line
      ∧ Twins.original.model.variableOf Twins.z.handle = .ok Twins.y.registered
      ∧ Twins.original.model.apply (.constrain none (.ofHandle Twins.z.handle) .atMost (.fin 1))
          = .ok (Twins.original.model.withConstraint
            ⟨"c0", [(Twins.y.handle, .fin 1)], .atMost, .fin 1⟩)
      ∧ Twins.y.registered.name ≠ Twins.z.registered.name
      ∧ Twins.y.registered.kind ≠ Twins.z.registered.kind := by
  refine ⟨by simp [Twins.lineages_steps], by simp [Twins.lineages_steps], by simp [Twins.copied],
    rfl, ?_, by decide, by decide⟩
  with_unfolding_all rfl

end Workbench

end Milp
