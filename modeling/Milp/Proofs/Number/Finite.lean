/-
Arithmetic on finite numbers.

A sum of finite numbers may overflow, so over a carrier that rounds it need not be finite
again. What it is not, over any carrier, is *not a number*: only an infinity on one side
can bring that about. This file names that law and the few others that are needed where
numbers that have been read are combined once and stored. IEEE 754 promises them all;
`ExtRat` has them by computation.
-/
import Milp.Proofs.Number.Exact

set_option autoImplicit false

namespace Milp.Number

/-- **The laws of finite numbers.** A sign is changed without loss, zero takes nothing away,
and what two finite numbers come to is a number. -/
class Finitary (α : Type) [Number α] : Prop where
  isFinite_zero : isFinite (0 : α) = true
  isFinite_neg (x : α) : isFinite x = true → isFinite (-x) = true
  isFinite_abs (x : α) : isFinite x = true → isFinite (abs x) = true
  isNaN_of_isFinite (x : α) : isFinite x = true → isNaN x = false
  isNaN_add (x y : α) : isFinite x = true → isFinite y = true → isNaN (x + y) = false
  isNaN_sub (x y : α) : isFinite x = true → isFinite y = true → isNaN (x - y) = false
  sub_zero (x : α) : isNaN x = false → x - 0 = x

section Finitary

variable {α : Type} [Number α] [Finitary α]

/-- Zero is equal to itself. -/
theorem zero_beq_zero : ((0 : α) == 0) = true := by
  have h := Finitary.isNaN_of_isFinite (0 : α) Finitary.isFinite_zero
  rw [isNaN] at h
  simpa using h

end Finitary

theorem sub_zero_extRat (x : ExtRat) : x - 0 = x := by
  rw [ExtRat.zero_eq]
  cases x with
  | nan => rfl
  | negInf => rfl
  | posInf => rfl
  | fin x => rw [ExtRat.fin_sub, sub_zero]

instance : Finitary ExtRat where
  isFinite_zero := by rw [ExtRat.zero_eq, ExtRat.isFinite_fin]
  isFinite_neg x hx := by
    rw [ExtRat.eq_fin_of_isFinite hx, ExtRat.fin_neg, ExtRat.isFinite_fin]
  isFinite_abs x hx := by
    rw [ExtRat.eq_fin_of_isFinite hx, ExtRat.abs_fin, ExtRat.isFinite_fin]
  isNaN_of_isFinite x hx := by rw [ExtRat.eq_fin_of_isFinite hx, ExtRat.isNaN_fin]
  isNaN_add x y hx hy := by
    rw [ExtRat.eq_fin_of_isFinite hx, ExtRat.eq_fin_of_isFinite hy, ExtRat.fin_add,
      ExtRat.isNaN_fin]
  isNaN_sub x y hx hy := by
    rw [ExtRat.eq_fin_of_isFinite hx, ExtRat.eq_fin_of_isFinite hy, ExtRat.fin_sub,
      ExtRat.isNaN_fin]
  sub_zero x _ := sub_zero_extRat x

end Milp.Number
