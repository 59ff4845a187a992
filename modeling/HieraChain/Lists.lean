/-
  HieraChain/Lists.lean
  =====================
  **Changes in the middle of a list, and maps that may fail.**
-/
import Mathlib.Data.List.Basic
import Mathlib.Data.List.Forall2

namespace HieraChain.Lists

theorem modify_append_length {α : Type} (a : List α) (x : α) (b : List α) (f : α → α) :
    (a ++ x :: b).modify a.length f = a ++ f x :: b := by
  induction a with
  | nil => rfl
  | cons y a ih => exact congrArg (y :: ·) ih

theorem modify_append_of_lt {α : Type} {a b : List α} {i : Nat} (h : i < a.length) (f : α → α) :
    (a ++ b).modify i f = a.modify i f ++ b := by
  induction a generalizing i with
  | nil => cases h
  | cons y a ih =>
    cases i with
    | zero => rfl
    | succ i => exact congrArg (y :: ·) (ih (Nat.lt_of_succ_lt_succ h))

theorem mapM_ok_iff {ε α β : Type} {f : α → Except ε β} {l : List α} {l' : List β} :
    l.mapM f = .ok l' ↔ List.Forall₂ (fun a b => f a = .ok b) l l' := by
  induction l generalizing l' with
  | nil =>
    rw [List.mapM_nil, List.forall₂_nil_left_iff]
    exact ⟨fun h => (Except.ok.inj h).symm, fun h => by rw [h]; rfl⟩
  | cons a l ih =>
    rw [List.mapM_cons]
    constructor
    · intro h
      cases ha : f a with
      | error e =>
        rw [ha] at h
        cases h
      | ok b =>
        rw [ha] at h
        cases hl : l.mapM f with
        | error e =>
          simp only [hl, bind, Except.bind] at h
          cases h
        | ok bs =>
          simp only [hl, bind, Except.bind] at h
          cases h
          exact List.Forall₂.cons ha (ih.mp hl)
    · intro h
      cases h with
      | cons ha hl =>
        rw [ha]
        simp only [bind, Except.bind, ih.mpr hl]
        rfl

end HieraChain.Lists
