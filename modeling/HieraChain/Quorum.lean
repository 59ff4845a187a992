/-
  HieraChain/Quorum.lean
  ======================
  **Quorums of `n - (n - 1) / 3` out of `n`.**

  Two quorums have a member in common that is not among the at most
  `(n - 1) / 3` faulty ones.  Members are named by their position in a list, as
  votes name them.
-/
import Mathlib.Data.Finset.Card
import Mathlib.Data.Finset.Range
import Mathlib.Data.List.Nodup

namespace HieraChain.Quorum

variable {α : Type} [DecidableEq α]

theorem exists_mem_inter_notMem {U F Q Q' : Finset α} (hQ : Q ⊆ U) (hQ' : Q' ⊆ U)
    (hsum : U.card + F.card < Q.card + Q'.card) : ∃ a ∈ Q, a ∈ Q' ∧ a ∉ F := by
  have hunion : (Q ∪ Q').card ≤ U.card := Finset.card_le_card (Finset.union_subset hQ hQ')
  have hinter := Finset.card_union_add_card_inter Q Q'
  have hlarge : F.card < (Q ∩ Q').card := by omega
  obtain ⟨a, ha, hnot⟩ := Finset.exists_mem_notMem_of_card_lt_card hlarge
  obtain ⟨hmem, hmem'⟩ := Finset.mem_inter.mp ha
  exact ⟨a, hmem, hmem', hnot⟩

theorem card_positions_le {l : List α} (hnodup : l.Nodup) (B : Finset α) :
    ((Finset.range l.length).filter fun n => ∃ a ∈ B, l[n]? = some a).card ≤ B.card := by
  have hsubset : ((Finset.range l.length).filter fun n => ∃ a ∈ B, l[n]? = some a) ⊆
      B.image fun a => l.idxOf a := by
    intro n hn
    obtain ⟨-, a, ha, hget⟩ := Finset.mem_filter.mp hn
    obtain ⟨hlt, rfl⟩ := List.getElem?_eq_some_iff.mp hget
    apply Finset.mem_image.mpr
    exact ⟨l[n], ha, List.Nodup.idxOf_getElem hnodup n hlt⟩
  exact le_trans (Finset.card_le_card hsubset) Finset.card_image_le

/-- **Quorum intersection.**  Two quorums of positions have one in common whose
    member is not faulty. -/
theorem exists_common_correct {l : List α} (hnodup : l.Nodup) (hne : l ≠ []) {B : Finset α}
    (hfew : B.card ≤ (l.length - 1) / 3) {Q Q' : Finset Nat} (hQ : Q ⊆ Finset.range l.length)
    (hQ' : Q' ⊆ Finset.range l.length) (hcard : l.length - (l.length - 1) / 3 ≤ Q.card)
    (hcard' : l.length - (l.length - 1) / 3 ≤ Q'.card) :
    ∃ n a, n ∈ Q ∧ n ∈ Q' ∧ l[n]? = some a ∧ a ∉ B := by
  have hpos : 0 < l.length := List.length_pos_iff.mpr hne
  have hpositions := card_positions_le hnodup B
  have hsum : (Finset.range l.length).card +
      ((Finset.range l.length).filter fun n => ∃ a ∈ B, l[n]? = some a).card <
        Q.card + Q'.card := by
    rw [Finset.card_range]
    omega
  obtain ⟨n, hn, hn', hcorrect⟩ := exists_mem_inter_notMem hQ hQ' hsum
  have hlt : n < l.length := Finset.mem_range.mp (hQ hn)
  have hget : l[n]? = some l[n] := List.getElem?_eq_getElem hlt
  refine ⟨n, l[n], hn, hn', hget, ?_⟩
  intro hfaulty
  apply hcorrect
  exact Finset.mem_filter.mpr ⟨hQ hn, l[n], hfaulty, hget⟩

end HieraChain.Quorum
