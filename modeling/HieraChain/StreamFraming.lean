/-
  HieraChain/StreamFraming.lean
  =============================
  **Frames at the front of a stream.**

  A decoder looks at the elements received so far and says that it needs more,
  that the front is a whole frame of some size, or that the stream cannot go on:
  broken, with what it decoded so far, or with an exception.  Once it has said
  anything but "more", further elements do not change it.

  `take` cuts frames off the front as long as there are whole ones.  It does not
  matter how a stream is cut into pieces (`take_append`, `take_over`), and
  `behind_iff` says when it ends in which way.
-/
import Mathlib.Data.List.Basic

namespace HieraChain

inductive Verdict (μ : Type)
  | incomplete
  | broken (m : μ)
  | thrown
  | frame (size : Nat) (m : μ)

structure Framing (β μ : Type) where
  verdict : List β → Verdict μ
  nil : verdict [] = .incomplete
  size : ∀ {b n m}, verdict b = .frame n m → 0 < n ∧ n ≤ b.length
  stable : ∀ {b}, verdict b ≠ .incomplete → ∀ c, verdict (b ++ c) = verdict b

inductive Ending (μ : Type)
  | wants
  | broken (m : μ)
  | thrown

namespace Framing

variable {β μ : Type} (F : Framing β μ)

def takeFrames : Nat → List β → List μ × List β × Ending μ
  | 0, b => ([], b, .wants)
  | fuel + 1, b =>
    match F.verdict b with
    | .incomplete => ([], b, .wants)
    | .broken m => ([], b, .broken m)
    | .thrown => ([], b, .thrown)
    | .frame n m =>
      let rest := takeFrames fuel (b.drop n)
      (m :: rest.1, rest.2)

def take (b : List β) : List μ × List β × Ending μ := F.takeFrames (b.length + 1) b

variable {F} {b c : List β} {n : Nat} {m : μ}

theorem takeFrames_succ (fuel : Nat) (b : List β) :
    F.takeFrames (fuel + 1) b = match F.verdict b with
      | .incomplete => ([], b, .wants)
      | .broken m => ([], b, .broken m)
      | .thrown => ([], b, .thrown)
      | .frame n m => (m :: (F.takeFrames fuel (b.drop n)).1, (F.takeFrames fuel (b.drop n)).2) := rfl

theorem take_eq (b : List β) : F.take b = F.takeFrames (b.length + 1) b := rfl

theorem length_drop_lt (h : F.verdict b = .frame n m) : (b.drop n).length < b.length := by
  obtain ⟨hpos, hle⟩ := F.size h
  rw [List.length_drop]
  omega

/-- **Induction over the frames at the front.** -/
theorem frame_induction {P : List β → Prop} (stop : ∀ b, (∀ n m, F.verdict b ≠ .frame n m) → P b)
    (frame : ∀ b n m, F.verdict b = .frame n m → P (b.drop n) → P b) (b : List β) : P b := by
  induction hlen : b.length using Nat.strongRecOn generalizing b with
  | _ len ih =>
    subst hlen
    cases h : F.verdict b with
    | frame n m => exact frame b n m h (ih _ (length_drop_lt h) _ rfl)
    | incomplete => exact stop b (by simp [h])
    | broken m => exact stop b (by simp [h])
    | thrown => exact stop b (by simp [h])

theorem takeFrames_fuel {fuel fuel' : Nat} (h : b.length < fuel) (h' : b.length < fuel') :
    F.takeFrames fuel b = F.takeFrames fuel' b := by
  induction fuel generalizing b fuel' with
  | zero => exact absurd h (Nat.not_lt_zero _)
  | succ fuel ih =>
    cases fuel' with
    | zero => exact absurd h' (Nat.not_lt_zero _)
    | succ fuel' =>
      rw [takeFrames_succ, takeFrames_succ]
      cases hverdict : F.verdict b with
      | frame n m =>
        have hlt := length_drop_lt hverdict
        have hrest : F.takeFrames fuel (b.drop n) = F.takeFrames fuel' (b.drop n) := ih (by omega) (by omega)
        dsimp only
        rw [hrest]
      | incomplete => rfl
      | broken m => rfl
      | thrown => rfl

theorem take_incomplete (h : F.verdict b = .incomplete) : F.take b = ([], b, .wants) := by
  rw [take_eq, takeFrames_succ, h]

theorem take_broken (h : F.verdict b = .broken m) : F.take b = ([], b, .broken m) := by
  rw [take_eq, takeFrames_succ, h]

theorem take_thrown (h : F.verdict b = .thrown) : F.take b = ([], b, .thrown) := by
  rw [take_eq, takeFrames_succ, h]

theorem take_frame (h : F.verdict b = .frame n m) : F.take b = (m :: (F.take (b.drop n)).1, (F.take (b.drop n)).2) := by
  rw [take_eq, takeFrames_succ, h]
  dsimp only
  rw [take_eq, takeFrames_fuel (length_drop_lt h) (Nat.lt_succ_self _)]

theorem take_frame_append (h : F.verdict b = .frame n m) (c : List β) :
    F.take (b ++ c) = (m :: (F.take (b.drop n ++ c)).1, (F.take (b.drop n ++ c)).2) := by
  have happend : F.verdict (b ++ c) = .frame n m := by rw [F.stable (by simp [h]) c, h]
  rw [take_frame happend, List.drop_append_of_le_length (F.size h).2]

/-- **Taking that wants more goes on where it ended.** -/
theorem take_append (h : (F.take b).2.2 = .wants) (c : List β) :
    F.take (b ++ c) = ((F.take b).1 ++ (F.take ((F.take b).2.1 ++ c)).1, (F.take ((F.take b).2.1 ++ c)).2) := by
  induction b using F.frame_induction with
  | stop b hstop =>
    cases hverdict : F.verdict b with
    | incomplete =>
      rw [take_incomplete hverdict]
      rfl
    | broken m =>
      rw [take_broken hverdict] at h
      cases h
    | thrown =>
      rw [take_thrown hverdict] at h
      cases h
    | frame n m => exact absurd hverdict (hstop n m)
  | frame b n m hverdict ih =>
    rw [take_frame hverdict] at h
    rw [take_frame_append hverdict, ih h, take_frame hverdict]
    rfl

/-- **Taking that ended for good ends so with more elements too.** -/
theorem take_over (h : (F.take b).2.2 ≠ .wants) (c : List β) : (F.take (b ++ c)).2.2 = (F.take b).2.2 := by
  induction b using F.frame_induction with
  | stop b hstop =>
    cases hverdict : F.verdict b with
    | incomplete =>
      rw [take_incomplete hverdict] at h
      exact absurd rfl h
    | broken m =>
      have happend : F.verdict (b ++ c) = .broken m := by rw [F.stable (by simp [hverdict]) c, hverdict]
      rw [take_broken hverdict, take_broken happend]
    | thrown =>
      have happend : F.verdict (b ++ c) = .thrown := by rw [F.stable (by simp [hverdict]) c, hverdict]
      rw [take_thrown hverdict, take_thrown happend]
    | frame n m => exact absurd hverdict (hstop n m)
  | frame b n m hverdict ih =>
    rw [take_frame hverdict] at h ⊢
    rw [take_frame_append hverdict]
    exact ih h

theorem take_over_frames (h : (F.take b).2.2 ≠ .wants) (c : List β) : (F.take (b ++ c)).1 = (F.take b).1 := by
  induction b using F.frame_induction with
  | stop b hstop =>
    cases hverdict : F.verdict b with
    | incomplete =>
      rw [take_incomplete hverdict] at h
      exact absurd rfl h
    | broken m =>
      have happend : F.verdict (b ++ c) = .broken m := by rw [F.stable (by simp [hverdict]) c, hverdict]
      rw [take_broken hverdict, take_broken happend]
    | thrown =>
      have happend : F.verdict (b ++ c) = .thrown := by rw [F.stable (by simp [hverdict]) c, hverdict]
      rw [take_thrown hverdict, take_thrown happend]
    | frame n m => exact absurd hverdict (hstop n m)
  | frame b n m hverdict ih =>
    rw [take_frame hverdict] at h ⊢
    rw [take_frame_append hverdict, ih h]

theorem take_left (h : (F.take b).2.2 = .wants) : F.verdict (F.take b).2.1 = .incomplete := by
  induction b using F.frame_induction with
  | stop b hstop =>
    cases hverdict : F.verdict b with
    | incomplete =>
      rw [take_incomplete hverdict]
      exact hverdict
    | broken m =>
      rw [take_broken hverdict] at h
      cases h
    | thrown =>
      rw [take_thrown hverdict] at h
      cases h
    | frame n m => exact absurd hverdict (hstop n m)
  | frame b n m hverdict ih =>
    rw [take_frame hverdict] at h ⊢
    exact ih h

/-- Behind some whole frames there is something of which `P` holds. -/
inductive Behind (F : Framing β μ) (P : List β → Prop) : List β → Prop
  | here {b : List β} (h : P b) : Behind F P b
  | later {b : List β} {n : Nat} {m : μ} (frame : F.verdict b = .frame n m) (rest : Behind F P (b.drop n)) :
    Behind F P b

/-- **How it ends is decided by what lies behind the frames.** -/
theorem behind_iff {P : List β → Prop} {E : Ending μ → Prop} (hframe : ∀ b n m, F.verdict b = .frame n m → ¬ P b)
    (hstop : ∀ b, (∀ n m, F.verdict b ≠ .frame n m) → (P b ↔ E (F.take b).2.2)) (b : List β) :
    F.Behind P b ↔ E (F.take b).2.2 := by
  constructor
  · intro h
    induction h with
    | @here b h =>
      refine (hstop b ?_).mp h
      intro n m hverdict
      exact hframe b n m hverdict h
    | later frame _ ih => rwa [take_frame frame]
  · induction b using F.frame_induction with
    | stop b hb => exact fun h => .here ((hstop b hb).mpr h)
    | frame b n m hverdict ih =>
      intro h
      rw [take_frame hverdict] at h
      exact .later hverdict (ih h)

end Framing

end HieraChain
