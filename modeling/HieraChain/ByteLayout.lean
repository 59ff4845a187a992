/-
  HieraChain/ByteLayout.lean
  ==========================
  **Strings placed in a longer string, and tables of places.**

  `At data off b` says that `b` stands in `data` from `off` on.  A sequence of
  strings is placed in one of two ways: one after the other (`At.flatten`), or as a
  table of words, each the place of one string, with the strings behind it
  (`At.table`).
-/
import Mathlib.Data.List.Basic

namespace HieraChain.ByteLayout

variable {α : Type}

/-- `b` stands in `data` from `off` on. -/
def At (data : List α) (off : Nat) (b : List α) : Prop := ∃ pre post, data = pre ++ b ++ post ∧ pre.length = off

variable {data : List α} {off : Nat} {a b : List α}

theorem at_self (data : List α) : At data 0 data := ⟨[], [], by simp, rfl⟩

theorem At.left (h : At data off (a ++ b)) : At data off a := by
  obtain ⟨pre, post, rfl, hoff⟩ := h
  exact ⟨pre, b ++ post, by simp, hoff⟩

theorem At.right (h : At data off (a ++ b)) : At data (off + a.length) b := by
  obtain ⟨pre, post, rfl, rfl⟩ := h
  exact ⟨pre ++ a, post, by simp, by simp⟩

theorem At.length_le (h : At data off b) : off + b.length ≤ data.length := by
  obtain ⟨pre, post, rfl, rfl⟩ := h
  simp

theorem At.slice_eq (h : At data off b) : (data.drop off).take b.length = b := by
  obtain ⟨pre, post, rfl, rfl⟩ := h
  simp

/-! ### One after the other -/

theorem At.flatten {bs : List (List α)} {width : Nat} (hwidth : ∀ b ∈ bs, b.length = width)
    (h : At data off bs.flatten) {u : Nat} (hu : bs[u]? = some b) : At data (off + u * width) b := by
  induction bs generalizing off u with
  | nil => simp at hu
  | cons b' bs ih =>
    rw [List.flatten_cons] at h
    cases u with
    | zero =>
      obtain rfl : b' = b := by simpa using hu
      simpa using h.left
    | succ u =>
      have hb' := hwidth b' List.mem_cons_self
      have hrest := ih (fun b hb => hwidth b (List.mem_cons_of_mem _ hb)) h.right (u := u) (by simpa using hu)
      rwa [hb', Nat.add_assoc, ← Nat.add_comm (u * width), ← Nat.succ_mul] at hrest

/-! ### Tables -/

/-- The words of a table: the places of the strings, from `start` on. -/
def table (word : Nat → List α) : Nat → List (List α) → List α
  | _, [] => []
  | start, b :: bs => word start ++ table word (start + b.length) bs

theorem length_table {word : Nat → List α} {width : Nat} (hword : ∀ n, (word n).length = width) (start : Nat)
    (bs : List (List α)) : (table word start bs).length = bs.length * width := by
  induction bs generalizing start with
  | nil => simp [table]
  | cons b bs ih => rw [table, List.length_append, hword, ih, List.length_cons, Nat.succ_mul, Nat.add_comm]

/-- **A string that a table names is found at the place in its word**; places are
    counted from `base`. -/
theorem At.table {word : Nat → List α} {width : Nat} (hword : ∀ n, (word n).length = width) {bs : List (List α)}
    {base start : Nat} (h : At data off (table word start bs)) (hbs : At data (base + start) bs.flatten) {u : Nat}
    (hu : bs[u]? = some b) : ∃ place, At data (off + u * width) (word place) ∧ At data (base + place) b := by
  induction bs generalizing off start u with
  | nil => simp at hu
  | cons b' bs ih =>
    rw [ByteLayout.table] at h
    rw [List.flatten_cons] at hbs
    cases u with
    | zero =>
      obtain rfl : b' = b := by simpa using hu
      exact ⟨start, by simpa using h.left, hbs.left⟩
    | succ u =>
      obtain ⟨place, hplace, hb⟩ := ih h.right (by rw [← Nat.add_assoc]; exact hbs.right) (u := u) (by simpa using hu)
      refine ⟨place, ?_, hb⟩
      rwa [hword, Nat.add_assoc, ← Nat.add_comm (u * width), ← Nat.succ_mul] at hplace

end HieraChain.ByteLayout
