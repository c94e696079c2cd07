/-
The layout of a text does not matter.

A text may be laid out anew without changing what it says: lines that say nothing may be
put in anywhere, gaps may be made wider or narrower, blanks may follow the last word of a
line, lines may end with or without a carriage return, and behind the line that ends the
data there may be anything. `Edit` is one such change, with what it does to the numbers of
the lines, and `Relaid` is any number of them in a row.

An edit leaves what the lines say and moves their numbers (`Milp.Proofs.Mps.Spacing`), and
the reader uses the numbers only to name a line in a fault (`Milp.Proofs.Mps.Positions`). So
a text that is laid out anew is read to the same model, up to the identity that a new model
gets, or is refused for the same reason, at the same line (`read_relaid`).
-/
import Milp.Proofs.Model.Identity
import Milp.Proofs.Mps.Assembly
import Milp.Proofs.Mps.Spacing

set_option autoImplicit false

namespace Milp.Mps

open Number (Finitary)

/-! ## Edits -/

/-- Blanks within a line. -/
def IsGap (gap : List Char) : Prop := ∀ c ∈ gap, Text.isBlank c = true ∧ c ≠ '\n'

instance (gap : List Char) : Decidable (IsGap gap) :=
  List.decidableBAll _ gap

/-- A line that says nothing: it is blank, or a comment. -/
structure IsSilent (line : List Char) : Prop where
  single : '\n' ∉ line
  silent : line.all Text.isBlank = true ∨ line.head? = some '*'

/-- A change within one line. A gap keeps being one, so what starts in the first column
still does, and what does not still does not. -/
inductive LineEdit : List Char → List Char → Prop where
  | respace (left gap gap' right : List Char) (nonempty : gap ≠ []) (nonempty' : gap' ≠ [])
      (isGap : IsGap gap) (isGap' : IsGap gap') :
      LineEdit (left ++ gap ++ right) (left ++ gap' ++ right)
  | trail (line gap : List Char) (isGap : IsGap gap) : LineEdit line (line ++ gap)
  | toCrlf (line : List Char) : LineEdit line (line ++ ['\r'])
  | toLf (line : List Char) : LineEdit (line ++ ['\r']) line

/-- The number of a line after another has been put in behind the first so many. -/
def pushed (above number : Nat) : Nat := if number ≤ above then number else number + 1

/-- One change to the layout of a text, and what becomes of the numbers of its lines. -/
inductive Edit : List Char → List Char → (Nat → Nat) → Prop where
  /-- Change a line. -/
  | line (before l l' after : List Char) (whole : AtLineStart before) (ended : AtLineEnd after)
      (single : '\n' ∉ l) (edit : LineEdit l l') :
      Edit (before ++ l ++ after) (before ++ l' ++ after) id
  /-- Put in a line that says nothing, with its end. -/
  | insert (before l after : List Char) (whole : AtLineStart before) (silent : IsSilent l) :
      Edit (before ++ after) (before ++ l ++ '\n' :: after) (pushed (before.count '\n'))
  /-- Put such a line behind the last one, without an end of its own. -/
  | insertLast (before l : List Char) (whole : AtLineStart before) (silent : IsSilent l) :
      Edit before (before ++ l) id
  /-- End the last line. -/
  | finish (text : List Char) : Edit text (text ++ ['\n']) id
  /-- Exchange what comes after the line that ends the data. -/
  | endata (before tail after after' : List Char) (whole : AtLineStart before)
      (word : ∀ c ∈ tail.head?, Text.isBlank c = true) (single : '\n' ∉ tail)
      (ended : AtLineEnd after) (ended' : AtLineEnd after') :
      Edit (before ++ ("ENDATA".toList ++ tail) ++ after)
        (before ++ ("ENDATA".toList ++ tail) ++ after') id

/-- Any number of changes in a row. -/
inductive Relaid : List Char → List Char → (Nat → Nat) → Prop where
  | refl (text : List Char) : Relaid text text id
  | step {text next last : List Char} {f g : Nat → Nat} (first : Edit text next f)
      (rest : Relaid next last g) : Relaid text last (g ∘ f)

/-! ## Lines -/

theorem IsGap.blank {gap : List Char} (h : IsGap gap) : ∀ c ∈ gap, Text.isBlank c = true :=
  fun c hc => (h c hc).1

theorem IsGap.not_mem {gap : List Char} (h : IsGap gap) : '\n' ∉ gap :=
  fun hmem => (h '\n' hmem).2 rfl

theorem isGap_return : IsGap ['\r'] := by
  intro c hc
  rw [List.mem_singleton.mp hc]
  exact ⟨rfl, by decide⟩

theorem IsSilent.ofChars? {line : List Char} (h : IsSilent line) : Line.ofChars? line = none := by
  rw [ofChars?_eq, if_pos h.silent.symm]

/-- **A changed line says the same**, and is still one line. -/
theorem LineEdit.keeps {l l' : List Char} (h : LineEdit l l') (single : '\n' ∉ l) :
    '\n' ∉ l' ∧ Line.ofChars? l' = Line.ofChars? l := by
  cases h with
  | respace left gap gap' right nonempty nonempty' isGap isGap' =>
    refine ⟨?_, ofChars?_gap nonempty' nonempty isGap'.blank isGap.blank left right⟩
    simp only [List.mem_append, not_or] at single ⊢
    exact ⟨⟨single.1.1, isGap'.not_mem⟩, single.2⟩
  | trail _ gap isGap =>
    refine ⟨?_, ofChars?_trailing isGap.blank l⟩
    rw [List.mem_append, not_or]
    exact ⟨single, isGap.not_mem⟩
  | toCrlf =>
    refine ⟨?_, ofChars?_trailing isGap_return.blank l⟩
    rw [List.mem_append, not_or]
    exact ⟨single, isGap_return.not_mem⟩
  | toLf =>
    rw [List.mem_append, not_or] at single
    exact ⟨single.1, (ofChars?_trailing isGap_return.blank l').symm⟩

/-- The line that ends the data, whatever else is on it. -/
theorem ofChars?_endata {tail : List Char}
    (word : ∀ c ∈ tail.head?, Text.isBlank c = true) :
    ∃ fields, Line.ofChars? ("ENDATA".toList ++ tail) = some (.header ("ENDATA" :: fields)) := by
  have hwords : ∃ fields, Text.words ("ENDATA".toList ++ tail) = "ENDATA" :: fields := by
    cases tail with
    | nil => exact ⟨[], by decide⟩
    | cons c tail =>
      have hc : ∀ b ∈ [c], Text.isBlank b = true := by
        intro b hb
        rw [List.mem_singleton.mp hb]
        exact word c rfl
      have hgap := words_gap (List.cons_ne_nil c []) hc "ENDATA".toList tail
      rw [List.append_assoc, List.singleton_append] at hgap
      rw [hgap]
      exact ⟨Text.words tail, rfl⟩
  obtain ⟨fields, hfields⟩ := hwords
  refine ⟨fields, ?_⟩
  have hfirst : "ENDATA".toList ++ tail = 'E' :: ("NDATA".toList ++ tail) := rfl
  have hE : Text.isBlank 'E' = false := rfl
  rw [ofChars?_eq, hfields, hfirst]
  simp [hE]

/-- **A line that says nothing**, put in behind whole lines, moves those behind it by one. -/
theorem numbered_insert {before l : List Char} (whole : AtLineStart before) (silent : IsSilent l)
    (after : List Char) :
    numbered 1 (before ++ l ++ '\n' :: after)
      = renumbered (pushed (before.count '\n')) (numbered 1 (before ++ after)) := by
  have hended : AtLineEnd ('\n' :: after) := by
    intro c hc
    exact (Option.some.inj hc).symm
  rw [renumbered, List.append_assoc, numbered_append whole,
    numbered_line_append silent.single hended, silent.ofChars?, numbered_append whole,
    List.map_append, List.drop_one, List.tail_cons, numbered_succ (1 + before.count '\n'),
    Option.map_none, Option.toList_none, List.nil_append]
  refine congrArg₂ _ ?_ ?_
  · -- the lines in front keep their numbers
    refine (List.map_id _).symm.trans (List.map_congr_left fun k hk => ?_)
    have hlt := number_lt whole hk
    rw [pushed, if_pos (by omega)]
    rfl
  · refine List.map_congr_left fun k hk => ?_
    have hle := (number_le hk).1
    rw [pushed, if_neg (by omega)]

/-! ## Readings -/

section Reading

variable {α : Type}

theorem renumber_id (fault : Fault α) : fault.renumber id = fault := by
  cases fault <;> rfl

theorem mapError_renumber_id {β : Type} (x : Except (Fault α) β) :
    x.mapError (Fault.renumber id) = x := by
  cases x with
  | error fault => exact congrArg Except.error (renumber_id fault)
  | ok b => rfl

theorem mapError_renumber_comp {β : Type} (f g : Nat → Nat) (x : Except (Fault α) β) :
    x.mapError (Fault.renumber (g ∘ f))
      = (x.mapError (Fault.renumber f)).mapError (Fault.renumber g) := by
  cases x with
  | error fault => cases fault <;> rfl
  | ok b => rfl

variable [Number α]

/-- Nothing is read behind the line that ends the data. -/
theorem readLines_ended (d : Draft α) (part : Section) (before after : List (Nat × Line))
    (line : Nat) (fields : List String) :
    d.readLines part (before ++ (line, .header ("ENDATA" :: fields)) :: after)
      = d.readLines part (before ++ [(line, .header ("ENDATA" :: fields))]) := by
  induction before generalizing d part with
  | nil => rfl
  | cons l before ih =>
    obtain ⟨number, l⟩ := l
    rw [List.cons_append, List.cons_append]
    cases l with
    | header words =>
      rw [Draft.readLines, Draft.readLines]
      refine congrArg _ (funext fun read => ?_)
      dsimp only
      rw [ih]
    | data words =>
      rw [Draft.readLines, Draft.readLines]
      exact congrArg _ (funext fun next => ih next part)

/-- **One edit** changes nothing but the numbers of the lines. -/
theorem Edit.readLines {text text' : List Char} {number : Nat → Nat}
    (h : Edit text text' number) (d : Draft α) (part : Section) :
    d.readLines part (numbered 1 text')
      = (d.readLines part (numbered 1 text)).mapError (Fault.renumber number) := by
  cases h with
  | line before l l' after whole ended single edit =>
    obtain ⟨hsingle, hsame⟩ := edit.keeps single
    rw [mapError_renumber_id, numbered_exchange whole ended single hsingle hsame]
  | insert before l after whole silent =>
    rw [numbered_insert whole silent after, Draft.readLines_renumbered]
  | insertLast before l whole silent =>
    have hnothing : numbered (1 + text.count '\n') l = [] := by
      rw [numbered_line silent.single, silent.ofChars?]
      rfl
    rw [mapError_renumber_id, numbered_append whole, hnothing, List.append_nil]
  | finish => rw [mapError_renumber_id, numbered_finished]
  | endata before tail after after' whole word single ended ended' =>
    obtain ⟨fields, hline⟩ := ofChars?_endata word
    have hsingle : '\n' ∉ "ENDATA".toList ++ tail := by
      rw [List.mem_append, not_or]
      exact ⟨by decide, single⟩
    rw [mapError_renumber_id, List.append_assoc before, List.append_assoc before,
      numbered_append whole, numbered_append whole, numbered_line_append hsingle ended,
      numbered_line_append hsingle ended', hline]
    exact (readLines_ended d part _ _ _ fields).trans (readLines_ended d part _ _ _ fields).symm

theorem Relaid.readLines {text text' : List Char} {number : Nat → Nat}
    (h : Relaid text text' number) (d : Draft α) (part : Section) :
    d.readLines part (numbered 1 text')
      = (d.readLines part (numbered 1 text)).mapError (Fault.renumber number) := by
  induction h with
  | refl text => exact (mapError_renumber_id _).symm
  | step first rest ih => rw [ih, first.readLines, mapError_renumber_comp]

end Reading

/-! ## Models -/

section Models

variable {α : Type} [Number α]

namespace Draft

/-- The steps of a draft are the same for every identity, but for the references. -/
theorem steps_renamed (σ : ModelId → ModelId) (id : ModelId) (d : Draft α) :
    d.steps (σ id) = (d.steps id).map (BuildStep.renamed σ) := by
  have hexpression : ∀ terms : List (Nat × α),
      expression (σ id) terms = (expression id terms).renamed σ := by
    intro terms
    rw [expression, expression, Affine.ofTerms, Affine.ofTerms, Affine.renamed, renamedTerms,
      List.map_map]
    rfl
  have hrow : ∀ r : RowDraft α,
      rowSteps (σ id) r = (rowSteps id r).map (BuildStep.renamed σ) := by
    intro r
    rw [rowSteps, rowSteps]
    cases r.kind with
    | objective => rfl
    | free => rfl
    | constraint relation =>
      cases r.range with
      | none => dsimp only; rw [hexpression]; rfl
      | some range => dsimp only; rw [hexpression]; rfl
  rw [steps, steps, List.map_append, List.map_append, List.map_map, List.map_flatMap,
    List.map_singleton, hexpression]
  refine congrArg₂ _ (congrArg₂ _ rfl ?_) rfl
  exact congrArg (fun f => d.rows.flatMap f) (funext hrow)

/-- **A draft is turned into the same model** under every identity. -/
theorem toModel_renamed {id : ModelId} {d : Draft α} {m : Model α} (h : d.toModel id = .ok m)
    (id' : ModelId) : d.toModel id' = .ok (m.renamed fun _ => id') := by
  -- exchanging the two identities makes no two of them one
  have hbuilt := Model.build_renamed (Equiv.swap id id').injective h
  rw [← steps_renamed, Equiv.swap_apply_left] at hbuilt
  have hsame : m.renamed (Equiv.swap id id') = m.renamed fun _ => id' :=
    Model.renamed_eq_of_build h (Equiv.swap_apply_left id id')
  rw [toModel, hbuilt, hsame]

end Draft

variable [Finitary α]

/-- The identity makes no difference to what is read, nor to what is refused. -/
theorem read_renamed (id id' : ModelId) (text : String) :
    (Mps.read id' text : Except (Fault α) (Model α))
      = (Mps.read id text).map (Model.renamed fun _ => id') := by
  rw [Mps.read, Mps.read]
  cases hread : (Draft.ofText text : Except (Fault α) (Draft α)) with
  | error fault => rfl
  | ok d =>
    have hcoherent := Draft.coherent_of_ofText hread
    have hsettled := Draft.settles_toModel hcoherent id
    show d.toModel id' = (d.toModel id).map _
    cases hmade : d.toModel id with
    | error fault =>
      have hobjection := hsettled.eq_error_iff.mp hmade
      exact (Draft.settles_toModel hcoherent id').eq_error_iff.mpr hobjection
    | ok m => exact Draft.toModel_renamed hmade id'

/-- **The layout of a text does not matter.** Laid out anew, it is read to the same model, up
to the identity that the model gets, or refused with the same fault, which names the line
by the number that it now has. -/
theorem read_relaid {text text' : String} {number : Nat → Nat}
    (h : Relaid text.toList text'.toList number) (id id' : ModelId) :
    (Mps.read id' text' : Except (Fault α) (Model α))
      = ((Mps.read id text).map (Model.renamed fun _ => id')).mapError (Fault.renumber number) := by
  have hlines : (Draft.ofText text' : Except (Fault α) (Draft α))
      = (Draft.ofText text).mapError (Fault.renumber number) := by
    rw [Draft.ofText, Draft.ofText, numberedLines_eq, numberedLines_eq]
    exact h.readLines .initial .start
  rw [← read_renamed, Mps.read, Mps.read, hlines]
  cases hread : (Draft.ofText text : Except (Fault α) (Draft α)) with
  | error fault => rfl
  | ok d =>
    show d.toModel id' = (d.toModel id').mapError _
    cases hmade : d.toModel id' with
    | ok m => rfl
    | error fault =>
      -- what is wrong with a draft has no line, so there is no number to change
      have hsettled := Draft.settles_toModel (Draft.coherent_of_ofText hread) id'
      have hnone := Draft.ne_mps_of_objection? (hsettled.eq_error_iff.mp hmade)
      have hkept : fault.renumber number = fault := by
        cases fault with
        | mps line detail => exact absurd rfl (hnone line detail)
        | _ => rfl
      exact (congrArg Except.error hkept).symm

end Models

/-! ## A text that is refused -/

/-- A comment in front, a wider gap and another line end: the unknown type of row is now
found on the third line. -/
theorem read_relaid_unknownRow :
    ∃ number, Relaid "ROWS\n X obj\n".toList "* a\nROWS\n\t X obj\r\n".toList number
      ∧ (Mps.read ⟨2⟩ "* a\nROWS\n\t X obj\r\n" : Except (Fault ExtRat) (Model ExtRat))
        = .error (.mps 3 "unknown row type 'X'") := by
  have hcomment : Edit "ROWS\n X obj\n".toList "* a\nROWS\n X obj\n".toList (pushed 0) :=
    .insert [] "* a".toList "ROWS\n X obj\n".toList (by decide) ⟨by decide, by decide⟩
  have hgap : Edit "* a\nROWS\n X obj\n".toList "* a\nROWS\n\t X obj\n".toList id :=
    .line "* a\nROWS\n".toList " X obj".toList "\t X obj".toList ['\n'] (by decide) (by decide)
      (by decide) (.respace [] [' '] ['\t', ' '] "X obj".toList (by decide) (by decide)
        (by decide) (by decide))
  have hreturn : Edit "* a\nROWS\n\t X obj\n".toList "* a\nROWS\n\t X obj\r\n".toList id :=
    .line "* a\nROWS\n".toList "\t X obj".toList "\t X obj\r".toList ['\n'] (by decide)
      (by decide) (by decide) (.toCrlf "\t X obj".toList)
  have hrelaid := Relaid.step hcomment (.step hgap (.step hreturn (.refl _)))
  refine ⟨_, hrelaid, ?_⟩
  rw [read_relaid hrelaid ⟨1⟩ ⟨2⟩, read_unknownRow]
  rfl

end Milp.Mps
