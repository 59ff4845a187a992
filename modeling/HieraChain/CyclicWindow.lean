/-
  HieraChain/CyclicWindow.lean
  ============================
  **Windows on a cycle of distinct places.**

  A list without repetition is read as a function of all integers, place `i`
  and place `i + length` being the same.  `window f start k` is the set of the
  `k` places from `start` on.  As long as it is not longer than the cycle it
  slides: one place out at the front and one in at the end (`slide`).
-/
import Mathlib.Data.Finset.Card
import Mathlib.Data.Finset.Image
import Mathlib.Data.Finset.Range
import Mathlib.Data.Int.ModEq
import Mathlib.Data.List.GetD
import Mathlib.Algebra.Ring.Periodic
import Mathlib.Tactic.Ring

namespace HieraChain

def cycleAt {α : Type} (default : α) (xs : List α) (i : Int) : α :=
  xs.getD (i % xs.length).toNat default

theorem cycleAt_mem {α : Type} (default : α) {xs : List α} (hxs : xs ≠ []) (i : Int) : cycleAt default xs i ∈ xs := by
  have hpos := List.length_pos_of_ne_nil hxs
  have hlt := Int.emod_lt_of_pos i (show 0 < (xs.length : Int) by omega)
  have hplace : (i % xs.length).toNat < xs.length := by omega
  unfold cycleAt
  rw [List.getD_eq_getElem _ _ hplace]
  exact List.getElem_mem hplace

/-- Places that repeat exactly after `n` steps. -/
structure Cyclic {α : Type} (f : Int → α) (n : Int) : Prop where
  pos : 0 < n
  periodic : Function.Periodic f n
  injective : ∀ {i j}, f i = f j → i ≡ j [ZMOD n]

/-- The `k` places from `start` on. -/
def window {α : Type} [DecidableEq α] (f : Int → α) (start : Int) (k : Nat) : Finset α :=
  (Finset.range k).image fun i : Nat => f (start + i)

namespace Cyclic

variable {α : Type} {f : Int → α} {n : Int}

theorem ne_of_lt (hf : Cyclic f n) {i j : Int} (hij : i < j) (hjn : j < i + n) : f i ≠ f j := by
  intro heq
  have hdvd : n ∣ j - i := (hf.injective heq).dvd
  have hle : n ≤ j - i := Int.le_of_dvd (by omega) hdvd
  omega

theorem cycleAt {xs : List α} (default : α) (hxs : xs ≠ []) (hnodup : xs.Nodup) :
    Cyclic (HieraChain.cycleAt default xs) xs.length where
  pos := by
    have := List.length_pos_of_ne_nil hxs
    omega
  periodic i := by
    unfold HieraChain.cycleAt
    rw [Int.add_emod_right]
  injective := by
    intro i j h
    have hlength : (0 : Int) < xs.length := by
      have := List.length_pos_of_ne_nil hxs
      omega
    have hi := Int.emod_nonneg i hlength.ne'
    have hj := Int.emod_nonneg j hlength.ne'
    have hilt := Int.emod_lt_of_pos i hlength
    have hjlt := Int.emod_lt_of_pos j hlength
    unfold HieraChain.cycleAt at h
    rw [List.getD_eq_getElem _ _ (show (i % xs.length).toNat < xs.length by omega),
      List.getD_eq_getElem _ _ (show (j % xs.length).toNat < xs.length by omega)] at h
    have hplace := (hnodup.getElem_inj_iff).mp h
    show i % xs.length = j % xs.length
    omega

end Cyclic

section
variable {α : Type} [DecidableEq α] {f : Int → α} {n : Int} {start : Int} {k : Nat}

theorem mem_window {x : α} : x ∈ window f start k ↔ ∃ i < k, f (start + i) = x := by
  simp [window]

@[simp] theorem window_zero (f : Int → α) (start : Int) : window f start 0 = ∅ := rfl

theorem window_succ (f : Int → α) (start : Int) (k : Nat) :
    window f start (k + 1) = insert (f start) (window f (start + 1) k) := by
  ext x
  rw [Finset.mem_insert, mem_window, mem_window]
  constructor
  · rintro ⟨i, hi, rfl⟩
    cases i with
    | zero => exact .inl (by simp)
    | succ i => exact .inr ⟨i, by omega, congrArg f (by push_cast; ring)⟩
  · rintro (rfl | ⟨i, hi, rfl⟩)
    · exact ⟨0, by omega, by simp⟩
    · exact ⟨i + 1, by omega, congrArg f (by push_cast; ring)⟩

theorem window_succ_last (f : Int → α) (start : Int) (k : Nat) :
    window f start (k + 1) = insert (f (start + k)) (window f start k) := by
  rw [window, Finset.range_add_one, Finset.image_insert]
  rfl

/-- **A window slides.** -/
theorem slide (hf : Cyclic f n) (hk : 0 < k) (hkn : (k : Int) ≤ n) :
    insert (f (start + k)) ((window f start k).erase (f start)) = window f (start + 1) k := by
  obtain ⟨k, rfl⟩ : ∃ j, k = j + 1 := ⟨k - 1, by omega⟩
  have hout : f start ∉ window f (start + 1) k := by
    rw [mem_window]
    rintro ⟨i, hi, heq⟩
    refine hf.ne_of_lt (i := start) (j := start + 1 + i) ?_ ?_ heq.symm
    · omega
    · omega
  rw [window_succ, Finset.erase_insert hout, window_succ_last]
  congr 2
  push_cast
  ring

theorem card_window (hf : Cyclic f n) (hkn : (k : Int) ≤ n) : (window f start k).card = k := by
  unfold window
  rw [Finset.card_image_of_injOn, Finset.card_range]
  intro i hi j hj heq
  have hi := Finset.mem_range.mp hi
  have hj := Finset.mem_range.mp hj
  by_contra hne
  rcases Nat.lt_or_gt_of_ne hne with h | h
  · exact hf.ne_of_lt (i := start + i) (j := start + j) (by omega) (by omega) heq
  · exact hf.ne_of_lt (i := start + j) (j := start + i) (by omega) (by omega) heq.symm

end

end HieraChain
