/-
  HieraChain/Median.lean
  ======================
  **Medians of values of which some are bad.**

  Where fewer than half of the entries are bad, a good entry stands at or below
  the lower of the two middle places of the sorted values, and a good entry at
  or above the upper one (`exists_le_of_count`, `exists_ge_of_count`).
-/
import Mathlib.Data.List.Count
import Mathlib.Data.List.Sort
import Mathlib.Order.Lattice
import Mathlib.Tactic.Common

namespace HieraChain.Median

variable {ε α : Type} [LinearOrder α] {es : List ε} {value : ε → α} {l : List α}

theorem lt_countP_le (h : l.Pairwise (· ≤ ·)) {i : Nat} (hi : i < l.length) : i < l.countP (· ≤ l[i]) := by
  have hall : ∀ x ∈ l.take (i + 1), decide (x ≤ l[i]) = true := by
    intro x hx
    obtain ⟨j, hj, rfl⟩ := List.mem_iff_getElem.mp hx
    rw [List.length_take] at hj
    rw [List.getElem_take, decide_eq_true_iff]
    rcases Nat.lt_or_ge j i with hlt | hge
    · exact List.pairwise_iff_getElem.mp h j i _ hi hlt
    · obtain rfl : j = i := by omega
      exact le_rfl
  have hlen : i < (l.take (i + 1)).length := by
    rw [List.length_take]
    omega
  rw [← List.countP_eq_length.mpr hall] at hlen
  exact lt_of_lt_of_le hlen (List.take_sublist _ _).countP_le

theorem le_countP_ge (h : l.Pairwise (· ≤ ·)) {i : Nat} (hi : i < l.length) :
    l.length - i ≤ l.countP (l[i] ≤ ·) := by
  have hall : ∀ x ∈ l.drop i, decide (l[i] ≤ x) = true := by
    intro x hx
    obtain ⟨j, hj, rfl⟩ := List.mem_iff_getElem.mp hx
    rw [List.length_drop] at hj
    rw [List.getElem_drop, decide_eq_true_iff]
    rcases Nat.eq_zero_or_pos j with rfl | hpos
    · exact le_rfl
    · exact List.pairwise_iff_getElem.mp h i (i + j) hi (by omega) (by omega)
  rw [← List.length_drop, ← List.countP_eq_length.mpr hall]
  exact (List.drop_sublist _ _).countP_le

omit [LinearOrder α] in
theorem exists_good {bad : ε → Bool} {p : α → Bool} (hperm : l.Perm (es.map value))
    (h : es.countP bad < l.countP p) : ∃ e ∈ es, bad e = false ∧ p (value e) = true := by
  by_contra hno
  have hmono : es.countP (p ∘ value) ≤ es.countP bad := by
    apply List.countP_mono_left
    intro e he hp
    cases hbad : bad e with
    | true => rfl
    | false => exact absurd ⟨e, he, hbad, hp⟩ hno
  rw [hperm.countP_eq, List.countP_map] at h
  exact absurd h (Nat.not_lt.mpr hmono)

theorem exists_le_of_count (bad : ε → Bool) (hperm : l.Perm (es.map value)) (hsorted : l.Pairwise (· ≤ ·)) {i : Nat}
    (hi : i < l.length) (hbad : es.countP bad ≤ i) : ∃ e ∈ es, bad e = false ∧ value e ≤ l[i] := by
  obtain ⟨e, he, hgood, hle⟩ := exists_good hperm (lt_of_le_of_lt hbad (lt_countP_le hsorted hi))
  exact ⟨e, he, hgood, of_decide_eq_true hle⟩

theorem exists_ge_of_count (bad : ε → Bool) (hperm : l.Perm (es.map value)) (hsorted : l.Pairwise (· ≤ ·)) {i : Nat}
    (hi : i < l.length) (hbad : es.countP bad < l.length - i) : ∃ e ∈ es, bad e = false ∧ l[i] ≤ value e := by
  obtain ⟨e, he, hgood, hge⟩ := exists_good hperm (lt_of_lt_of_le hbad (le_countP_ge hsorted hi))
  exact ⟨e, he, hgood, of_decide_eq_true hge⟩

theorem tdiv_two_between {a b : Int} (h : a ≤ b) : a ≤ (a + b).tdiv 2 ∧ (a + b).tdiv 2 ≤ b := by
  rw [Int.tdiv_eq_ediv]
  split
  · omega
  · rw [show Int.sign 2 = 1 from rfl]
    omega

end HieraChain.Median
