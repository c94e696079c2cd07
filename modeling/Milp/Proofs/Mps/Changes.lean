/-
Changes that may be made in any order.

Once rows and columns are known, a line sets single numbers: the right-hand side of a row,
its range, a bound of a column. `Change` is one such setting with the positions in place of
the names, so it can be made of any draft and never fails (`Draft.apply`).

Two changes of different numbers commute (`apply_comm`). The one pair for which this takes
an argument is a lower and an upper bound of the same column: an upper bound below zero
takes away a lower bound of zero, but only where no line has set the lower bound. Set
before or after, the lower bound is in both cases what the line says (`sides_comm`).

So a list of changes may be reordered where any two that trade places are apart
(`foldl_rearranged`). Some changes, such as those of the title, do not move among
themselves; they are first brought to the front, in their order.
-/
import Mathlib
import Milp.Mps.Reader

set_option autoImplicit false

namespace Milp.Mps

variable {α : Type}

/-! ## Bounds -/

/-- The kinds of bounds that set the lower one. -/
def isLowerSide (kind : String) : Bool := kind == "LO" || kind == "LI" || kind == "MI"

/-- The kinds of bounds that set the upper one. -/
def isUpperSide (kind : String) : Bool := kind == "UP" || kind == "UI" || kind == "PL"

section Bounds

variable [Number α]

/-- What a bound does to a column; nothing if there is no such kind. -/
def boundChange (kind : String) (value : α) : ColumnDraft α → ColumnDraft α :=
  (Draft.boundChange? kind value).getD id

/-- A bound of the lower side, with the number that it comes to. -/
def setLower (whole : Bool) (value : α) (c : ColumnDraft α) : ColumnDraft α :=
  { c with lower := value, lowerSet := true, kind := if whole then .integer else c.kind }

/-- A bound of the upper side, with the number that it comes to, and whether it may take
away a lower bound. -/
def setUpper (whole opens : Bool) (value : α) (c : ColumnDraft α) : ColumnDraft α :=
  { c with
    lower := if opens && !c.lowerSet && c.lower == 0 then Number.negInf else c.lower
    upper := value
    kind := if whole then .integer else c.kind }

theorem boundChange_lower {kind : String} (h : isLowerSide kind = true) (value : α) :
    ∃ whole low, boundChange kind value = setLower whole low := by
  simp only [isLowerSide, Bool.or_eq_true, beq_iff_eq] at h
  rcases h with (rfl | rfl) | rfl
  · exact ⟨false, value, rfl⟩
  · exact ⟨true, value, rfl⟩
  · exact ⟨false, Number.negInf, rfl⟩

theorem boundChange_upper {kind : String} (h : isUpperSide kind = true) (value : α) :
    ∃ whole opens high, boundChange kind value = setUpper whole opens high := by
  simp only [isUpperSide, Bool.or_eq_true, beq_iff_eq] at h
  rcases h with (rfl | rfl) | rfl
  · exact ⟨false, Number.lt value 0, value, rfl⟩
  · exact ⟨true, Number.lt value 0, value, rfl⟩
  · exact ⟨false, false, Number.posInf, rfl⟩

/-- **The two sides of a column commute.** Where the lower bound is set, the upper one leaves
it alone; where it is set later, it does not matter what the upper one has made of it. -/
theorem sides_comm {kind kind' : String} (lower : isLowerSide kind = true)
    (upper : isUpperSide kind' = true) (value value' : α) (c : ColumnDraft α) :
    boundChange kind' value' (boundChange kind value c)
      = boundChange kind value (boundChange kind' value' c) := by
  obtain ⟨whole, low, hlower⟩ := boundChange_lower lower value
  obtain ⟨whole', opens, high, hupper⟩ := boundChange_upper upper value'
  rw [hlower, hupper]
  simp only [setLower, setUpper, Bool.not_true, Bool.and_false, Bool.false_and]
  cases whole <;> cases whole' <;> rfl

end Bounds

/-! ## Changes -/

/-- One number or word of a draft that a line sets. -/
inductive Change (α : Type) where
  | title (name : String)
  | sense (sense : Sense)
  /-- The right-hand side of the objective. -/
  | constant (value : α)
  | rhs (row : Nat) (value : α)
  | range (row : Nat) (value : α)
  | bound (column : Nat) (kind : String) (value : α)

/-- Whether two changes set different things. -/
def Change.Apart : Change α → Change α → Prop
  | .title _, .title _ | .sense _, .sense _ | .constant _, .constant _ => False
  | .rhs row _, .rhs row' _ | .range row _, .range row' _ => row ≠ row'
  | .bound column kind _, .bound column' kind' _ =>
    column ≠ column' ∨ (isLowerSide kind = true ∧ isUpperSide kind' = true)
      ∨ (isUpperSide kind = true ∧ isLowerSide kind' = true)
  | _, _ => True

/-- Changes of different items of a list commute, and so do changes of one item that do. -/
theorem modify_comm {β : Type} {i j : Nat} {f g : β → β} (h : i ≠ j ∨ ∀ b, g (f b) = f (g b))
    (items : List β) : (items.modify i f).modify j g = (items.modify j g).modify i f := by
  by_cases hsame : i = j
  · rw [← hsame, List.modify_modify_eq, List.modify_modify_eq]
    exact congrArg (List.modify items i) (funext (h.resolve_left (absurd hsame)))
  · exact List.modify_modify_ne f g items hsame

variable [Number α]

namespace Draft

def apply (d : Draft α) : Change α → Draft α
  | .title name => { d with name := name }
  | .sense sense => { d with sense := sense }
  | .constant value => { d with constant := -value }
  | .rhs row value => d.modifyRow row fun r => { r with rhs := value }
  | .range row value => d.setRange row value
  | .bound column kind value => d.modifyColumn column (boundChange kind value)

/-- Make changes one after the other. -/
def applyEach (d : Draft α) (changes : List (Change α)) : Draft α := changes.foldl apply d

/-- **Changes of different things commute.** -/
theorem apply_comm {a b : Change α} (h : a.Apart b) (d : Draft α) :
    (d.apply a).apply b = (d.apply b).apply a := by
  have hcolumns : ∀ {column column' : Nat} {f g : ColumnDraft α → ColumnDraft α},
      (column ≠ column' ∨ ∀ c, g (f c) = f (g c)) →
      (d.modifyColumn column f).modifyColumn column' g
        = (d.modifyColumn column' g).modifyColumn column f :=
    fun hcomm => congrArg (fun columns => { d with columns := columns })
      (modify_comm hcomm d.columns)
  have hrows : ∀ {row row' : Nat} {f g : RowDraft α → RowDraft α},
      (row ≠ row' ∨ ∀ r, g (f r) = f (g r)) →
      (d.modifyRow row f).modifyRow row' g = (d.modifyRow row' g).modifyRow row f :=
    fun hcomm => congrArg (fun rows => { d with rows := rows }) (modify_comm hcomm d.rows)
  cases a <;> cases b
  case title.title => exact h.elim
  case sense.sense => exact h.elim
  case constant.constant => exact h.elim
  case rhs.rhs => exact hrows (.inl h)
  case range.range => exact hrows (.inl h)
  case rhs.range => exact hrows (.inr fun _ => rfl)
  case range.rhs => exact hrows (.inr fun _ => rfl)
  case bound.bound =>
    refine hcolumns ?_
    rcases h with hne | ⟨hlower, hupper⟩ | ⟨hupper, hlower⟩
    · exact .inl hne
    · exact .inr (sides_comm hlower hupper _ _)
    · exact .inr fun c => (sides_comm hlower hupper _ _ c).symm
  all_goals rfl

end Draft

/-! ## Lists of changes -/

section Lists

variable {β γ : Type} {f : β → γ → β}

/-- What commutes with each of several steps may be done before them or after. -/
theorem foldl_past {c : γ} {items : List γ}
    (comm : ∀ b ∈ items, ∀ z, f (f z c) b = f (f z b) c) (z : β) :
    items.foldl f (f z c) = f (items.foldl f z) c := by
  induction items generalizing z with
  | nil => rfl
  | cons b items ih =>
    obtain ⟨hb, hitems⟩ := List.forall_mem_cons.mp comm
    rw [List.foldl_cons, List.foldl_cons, hb, ih hitems]

theorem foldl_foldl_comm {items others : List γ}
    (comm : ∀ b ∈ items, ∀ c ∈ others, ∀ z, f (f z b) c = f (f z c) b) (z : β) :
    others.foldl f (items.foldl f z) = items.foldl f (others.foldl f z) := by
  induction items generalizing z with
  | nil => rfl
  | cons b items ih =>
    obtain ⟨hb, hitems⟩ := List.forall_mem_cons.mp comm
    rw [List.foldl_cons, List.foldl_cons, ih hitems, foldl_past hb]

/-- **Steps of one sort go first**, where each of them commutes with each of the others. -/
theorem foldl_sorted {late : γ → Bool} {items : List γ}
    (comm : ∀ b ∈ items, ∀ c ∈ items, late b = true → ∀ z, f (f z b) c = f (f z c) b) (z : β) :
    items.foldl f z
      = (items.filter late).foldl f ((items.filter fun b => !late b).foldl f z) := by
  induction items generalizing z with
  | nil => rfl
  | cons b items ih =>
    have hitems : ∀ c ∈ items, ∀ e ∈ items, late c = true → ∀ z, f (f z c) e = f (f z e) c :=
      fun c hc e he => comm c (List.mem_cons_of_mem b hc) e (List.mem_cons_of_mem b he)
    rw [List.foldl_cons, ih hitems]
    cases hb : late b with
    | false =>
      have hlate : (b :: items).filter late = items.filter late :=
        List.filter_cons_of_neg (by rw [hb]; exact Bool.false_ne_true)
      have hearly : (b :: items).filter (fun b => !late b) = b :: items.filter fun b => !late b :=
        List.filter_cons_of_pos (by rw [hb]; rfl)
      rw [hlate, hearly, List.foldl_cons]
    | true =>
      have hlate : (b :: items).filter late = b :: items.filter late :=
        List.filter_cons_of_pos hb
      have hearly : (b :: items).filter (fun b => !late b) = items.filter fun b => !late b :=
        List.filter_cons_of_neg (by rw [hb]; exact Bool.false_ne_true)
      -- it waits until the others are done
      have hpast : ∀ c ∈ items.filter fun c => !late c, ∀ z, f (f z b) c = f (f z c) b :=
        fun c hc => comm b List.mem_cons_self c
          (List.mem_cons_of_mem b (List.mem_of_mem_filter hc)) hb
      rw [hlate, hearly, List.foldl_cons, foldl_past hpast]

/-- **Lines in another order.** Each makes some changes. Lines that move may take any order,
if the changes of any two of them, and those of one and a line that stays, are apart; the
lines that stay keep their order. -/
theorem foldl_rearranged {lines lines' : List γ} {made : γ → List (Change α)} {moves : γ → Bool}
    (perm : lines.Perm lines')
    (kept : (lines.filter fun l => !moves l) = lines'.filter fun l => !moves l)
    (apart : ∀ l ∈ lines, ∀ k ∈ lines, moves l = true →
      ∀ a ∈ made l, ∀ b ∈ made k, a = b ∨ a.Apart b) (d : Draft α) :
    d.applyEach (lines.flatMap made) = d.applyEach (lines'.flatMap made) := by
  -- a line is a step that makes all of its changes
  have hcomm : ∀ l ∈ lines, ∀ k ∈ lines, moves l = true → ∀ d : Draft α,
      (d.applyEach (made l)).applyEach (made k) = (d.applyEach (made k)).applyEach (made l) := by
    intro l hl k hk hmoves d
    refine foldl_foldl_comm (fun a ha b hb z => ?_) d
    rcases apart l hl k hk hmoves a ha b hb with rfl | hab
    · rfl
    · exact Draft.apply_comm hab z
  have hsorted := foldl_sorted (f := fun (d : Draft α) l => d.applyEach (made l)) hcomm d
  have hsorted' := foldl_sorted (f := fun (d : Draft α) l => d.applyEach (made l))
    (fun l hl k hk => hcomm l (perm.mem_iff.mpr hl) k (perm.mem_iff.mpr hk)) d
  rw [Draft.applyEach, Draft.applyEach, List.foldl_flatMap, List.foldl_flatMap]
  refine hsorted.trans (.trans ?_ hsorted'.symm)
  rw [kept]
  refine (perm.filter moves).foldl_eq' (fun l hl k hk d => ?_) _
  obtain ⟨hl, hmoves⟩ := List.mem_filter.mp hl
  exact hcomm l hl k (List.mem_of_mem_filter hk) hmoves d

end Lists

end Milp.Mps
