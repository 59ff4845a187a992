/-
  HieraChain/Records.lean
  =======================
  **The records of a list: what a walk notes that keeps the highest value of
  every key.**

  An element is a record when every earlier element of its key has a lower value
  (`Record`).  The records depend on the order of the list.  Where the list is
  ordered by a rank of the values, the records are the elements whose rank is
  below that of the higher values of their key (`record_iff_rank`).
-/
import Mathlib.Data.List.Basic
import Mathlib.Order.Lattice

namespace HieraChain.Records

variable {α κ ν : Type} [LinearOrder ν]

def Record (key : α → κ) (val : α → ν) (xs : List α) (x : α) : Prop :=
  ∃ pre post, xs = pre ++ x :: post ∧ ∀ y ∈ pre, key y = key x → val y < val x

variable {key : α → κ} {val : α → ν} {xs : List α} {a x : α}

theorem Record.mem (h : Record key val xs x) : x ∈ xs := by
  obtain ⟨pre, post, rfl, -⟩ := h
  exact List.mem_append_right pre List.mem_cons_self

theorem not_record_nil : ¬ Record key val [] x := fun h => nomatch h.mem

theorem record_append_singleton :
    Record key val (xs ++ [a]) x ↔
      Record key val xs x ∨ (x = a ∧ ∀ y ∈ xs, key y = key a → val y < val a) := by
  constructor
  · rintro ⟨pre, post, heq, hpre⟩
    rcases List.eq_nil_or_concat post with rfl | ⟨post, b, rfl⟩
    · obtain ⟨rfl, hlast⟩ := List.append_inj' heq rfl
      obtain rfl : a = x := List.head_eq_of_cons_eq hlast
      exact Or.inr ⟨rfl, hpre⟩
    · have happend : xs ++ [a] = (pre ++ x :: post) ++ [b] := by
        rw [heq, List.concat_eq_append, List.append_assoc]
        rfl
      obtain ⟨rfl, -⟩ := List.append_inj' happend rfl
      exact Or.inl ⟨pre, post, rfl, hpre⟩
  · rintro (⟨pre, post, rfl, hpre⟩ | ⟨rfl, hall⟩)
    · exact ⟨pre, post ++ [a], by rw [List.append_assoc]; rfl, hpre⟩
    · exact ⟨xs, [], rfl, hall⟩

theorem record_iff_rank {ρ : Type} [LinearOrder ρ] {rank : ν → ρ}
    (hsorted : xs.Pairwise fun y z => rank (val y) ≤ rank (val z))
    (hrank : ∀ y ∈ xs, ∀ z ∈ xs, rank (val y) = rank (val z) → val y = val z)
    (hdistinct : ∀ y ∈ xs, ∀ z ∈ xs, key y = key z → val y = val z → y = z) (hx : x ∈ xs) :
    Record key val xs x ↔ ∀ y ∈ xs, key y = key x → val x < val y → rank (val x) < rank (val y) := by
  constructor
  · rintro ⟨pre, post, rfl, hpre⟩ y hy hkey hlt
    have hpost : y ∈ post := by
      rcases List.mem_append.mp hy with hy | hy
      · exact absurd (hpre y hy hkey) (lt_asymm hlt)
      · rcases List.mem_cons.mp hy with rfl | hy
        · exact absurd hlt (lt_irrefl _)
        · exact hy
    have hle := (List.pairwise_cons.mp (List.pairwise_append.mp hsorted).2.1).1 y hpost
    refine lt_of_le_of_ne hle fun heq => ?_
    exact absurd (hrank x hx y hy heq) (ne_of_lt hlt)
  · intro hall
    obtain ⟨pre, post, rfl, hnot⟩ := List.eq_append_cons_of_mem hx
    refine ⟨pre, post, rfl, fun y hy hkey => ?_⟩
    have hmem := List.mem_append_left (x :: post) hy
    have hle := (List.pairwise_append.mp hsorted).2.2 y hy x List.mem_cons_self
    rcases lt_trichotomy (val y) (val x) with hlt | heq | hgt
    · exact hlt
    · exact absurd (hdistinct y hmem x hx hkey heq ▸ hy) hnot
    · exact absurd (hall y hmem hkey hgt) (not_lt.mpr hle)

end HieraChain.Records
