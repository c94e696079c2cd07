/-
How a search tree grows.

A tree is a table, so all there is to know about an operation is which node stands at
which position afterwards. Marking a node and recording its relaxation change one
position. Adding a child changes two: a fresh node comes to stand at the end of the
table, and its parent learns where.

The search adds children in pairs, below a node that has none. `split_get?` is the
combined effect of the two additions and of the mark that follows them.
-/
import Mathlib
import Milp.SearchTree

set_option autoImplicit false

namespace Milp

/-- A node without children. -/
def Node.IsLeaf {α : Type} (n : Node α) : Prop := n.left = none ∧ n.right = none

theorem Node.isLeaf_fresh {α : Type} (id : Nat) (parent : Option Nat) (depth : Nat)
    (cuts : List (Cut α)) : (Node.fresh id parent depth cuts).IsLeaf :=
  ⟨rfl, rfl⟩

/-- A leaf that is split: where its children are, and what it was found to be. -/
def Node.split {α : Type} (n : Node α) (left right : Nat) : Node α :=
  { n with left := some left, right := some right, outcome := .branched }

namespace SearchTree

variable {α : Type}

/-! ## Changing one node -/

theorem get?_modify (t : SearchTree α) (id : Nat) (change : Node α → Node α) (j : Nat) :
    (t.modify id change).get? j = if j = id then (t.get? j).map change else t.get? j := by
  show (t.nodes.modify id change)[j]? = _
  rw [Array.getElem?_modify]
  simp only [eq_comm (a := id)]
  rfl

@[simp] theorem size_modify (t : SearchTree α) (id : Nat) (change : Node α → Node α) :
    (t.modify id change).size = t.size :=
  Array.size_modify

theorem get?_mark (t : SearchTree α) (id : Nat) (outcome : NodeOutcome) (j : Nat) :
    (t.mark id outcome).get? j
      = if j = id then (t.get? j).map (fun n => { n with outcome := outcome }) else t.get? j :=
  get?_modify t id _ j

theorem get?_recordRelaxation (t : SearchTree α) (id : Nat) (values : List α) (optimum : α)
    (j : Nat) :
    (t.recordRelaxation id values optimum).get? j
      = if j = id then
          (t.get? j).map (fun n => { n with relaxation := some optimum, values := values })
        else t.get? j :=
  get?_modify t id _ j

@[simp] theorem size_mark (t : SearchTree α) (id : Nat) (outcome : NodeOutcome) :
    (t.mark id outcome).size = t.size :=
  size_modify t id _

@[simp] theorem size_recordRelaxation (t : SearchTree α) (id : Nat) (values : List α)
    (optimum : α) : (t.recordRelaxation id values optimum).size = t.size :=
  size_modify t id _

theorem lt_size_of_get? {t : SearchTree α} {j : Nat} {n : Node α} (h : t.get? j = some n) :
    j < t.size :=
  (Array.getElem?_eq_some_iff.mp h).1

theorem get?_initial (j : Nat) :
    (initial : SearchTree α).get? j
      = if j = rootId then some (Node.fresh rootId none 0 []) else none := by
  show (#[Node.fresh rootId none 0 []] : Array (Node α))[j]? = _
  rw [Array.getElem?_singleton]
  rfl

/-- The only node of the initial tree is its root. -/
theorem eq_of_get?_initial {j : Nat} {n : Node α} (h : (initial : SearchTree α).get? j = some n) :
    j = rootId ∧ n = Node.fresh rootId none 0 [] := by
  rw [get?_initial] at h
  by_cases hj : j = rootId
  · rw [if_pos hj, Option.some.injEq] at h
    exact ⟨hj, h.symm⟩
  · rw [if_neg hj] at h
    cases h

/-! ## Adding children -/

/-- Below a node whose side is free, a child is added at the end of the table. -/
theorem addChild?_of_free {t : SearchTree α} {parent : Nat} {above : Node α} (side : Side)
    (cut : Cut α) (there : t.get? parent = some above) (free : above.childOn side = none) :
    ∃ grown, t.addChild? parent side cut = some (t.size, grown)
      ∧ grown.size = t.size + 1
      ∧ ∀ j, grown.get? j
          = if j = t.size then
              some (Node.fresh t.size (some parent) (above.depth + 1) (above.cuts ++ [cut]))
            else if j = parent then some (above.withChild side t.size) else t.get? j := by
  have hlt : parent < t.size := lt_size_of_get? there
  have heq : t.addChild? parent side cut = some (t.size,
      (⟨t.nodes.push (Node.fresh t.size (some parent) (above.depth + 1) (above.cuts ++ [cut])),
        by simp⟩ : SearchTree α).modify parent fun above => above.withChild side t.size) := by
    rw [addChild?, there]
    simp only [free, Option.isSome_none, Bool.false_eq_true, if_false]
  -- the parent is changed in the longer table, where it still stands at its position
  refine ⟨_, heq, ?_, fun j => ?_⟩
  · rw [size_modify]
    exact Array.size_push ..
  · rw [get?_modify]
    have hpush : ∀ (n : Node α) (h : 0 < (t.nodes.push n).size),
        (⟨t.nodes.push n, h⟩ : SearchTree α).get? j = if j = t.size then some n else t.get? j :=
      fun n _ => Array.getElem?_push
    rw [hpush]
    by_cases hj : j = t.size
    · rw [if_neg (by omega), if_pos hj, if_pos hj]
    · by_cases hp : j = parent
      · rw [if_pos hp, if_neg hj, if_neg hj, if_pos hp, hp, there]
        rfl
      · rw [if_neg hp, if_neg hj, if_neg hj, if_neg hp]

/-- **The effect of a split.** Below a leaf both additions succeed; the children stand
at the end of the table, the lower half first, and no other node changes. -/
theorem split_get? {t : SearchTree α} {id : Nat} {n : Node α} (lowerCut upperCut : Cut α)
    (there : t.get? id = some n) (leaf : n.IsLeaf) :
    ∃ first second, t.addChild? id .left lowerCut = some (t.size, first)
      ∧ first.addChild? id .right upperCut = some (t.size + 1, second)
      ∧ (second.mark id .branched).size = t.size + 2
      ∧ ∀ j, (second.mark id .branched).get? j
          = if j = t.size then
              some (Node.fresh t.size (some id) (n.depth + 1) (n.cuts ++ [lowerCut]))
            else if j = t.size + 1 then
              some (Node.fresh (t.size + 1) (some id) (n.depth + 1) (n.cuts ++ [upperCut]))
            else if j = id then some (Node.split n t.size (t.size + 1)) else t.get? j := by
  have hlt : id < t.size := lt_size_of_get? there
  obtain ⟨first, hfirst, hsize₁, hget₁⟩ := addChild?_of_free .left lowerCut there leaf.1
  -- the first addition takes the left side of the node and leaves the right one free
  have there₁ : first.get? id = some (n.withChild .left t.size) := by
    rw [hget₁, if_neg (by omega), if_pos rfl]
  obtain ⟨second, hsecond, hsize₂, hget₂⟩ :=
    addChild?_of_free .right upperCut there₁ leaf.2
  rw [hsize₁] at hsecond hsize₂ hget₂
  refine ⟨first, second, hfirst, hsecond, by rw [size_mark, hsize₂], fun j => ?_⟩
  rw [get?_mark, hget₂, hget₁]
  by_cases hj₁ : j = t.size
  · rw [if_neg (by omega), if_neg (by omega), if_neg (by omega), if_pos hj₁, if_pos hj₁]
  · rw [if_neg hj₁, if_neg hj₁]
    by_cases hj₂ : j = t.size + 1
    · rw [if_neg (by omega), if_pos hj₂, if_pos hj₂]
      rfl
    · rw [if_neg hj₂, if_neg hj₂]
      by_cases hid : j = id
      · rw [if_pos hid, if_pos hid, if_pos hid]
        rfl
      · rw [if_neg hid, if_neg hid, if_neg hid, if_neg hid]

end SearchTree

end Milp
