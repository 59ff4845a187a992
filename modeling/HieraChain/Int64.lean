/-
  HieraChain/Int64.lean
  =====================
  **Signed 64-bit arithmetic in which an overflow has no result.**

  `checked v` is `v` where it fits and nothing where it does not.  The lemmas turn
  a chain of checked steps into one condition on integers.
-/
import Mathlib.Algebra.Group.Int.Defs
import Mathlib.Order.Lattice
import Mathlib.Tactic.Common

namespace HieraChain.Int64

def Fits (v : Int) : Prop := -2 ^ 63 ≤ v ∧ v < 2 ^ 63

instance (v : Int) : Decidable (Fits v) := inferInstanceAs (Decidable (_ ∧ _))

def checked (v : Int) : Option Int := if Fits v then some v else none

theorem fits_iff (v : Int) : Fits v ↔ -9223372036854775808 ≤ v ∧ v < 9223372036854775808 := by
  simp [Fits]

@[simp] theorem checked_of_fits {v : Int} (h : Fits v) : checked v = some v := if_pos h

theorem checked_eq_some {v w : Int} : checked v = some w ↔ Fits v ∧ v = w := by
  by_cases h : Fits v
  · simp [checked, h]
  · simp [checked, h]

theorem checked_eq_none {v : Int} : checked v = none ↔ ¬ Fits v := by
  by_cases h : Fits v
  · simp [checked, h]
  · simp [checked, h]

theorem checked_isSome {v : Int} : (checked v).isSome ↔ Fits v := by
  by_cases h : Fits v
  · simp [checked, h]
  · simp [checked, h]

theorem fits_toInt (v : BitVec 64) : Fits v.toInt := by
  have hlow := BitVec.le_toInt v
  have hhigh := BitVec.toInt_lt (x := v)
  rw [fits_iff]
  omega

end HieraChain.Int64
