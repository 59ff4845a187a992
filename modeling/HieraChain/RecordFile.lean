/-
  HieraChain/RecordFile.lean
  ==========================
  **Files of length-prefixed records** — what a prefix of such a file holds.

  A record is framed by its length in four bytes.  A crash leaves a prefix of the
  bytes: some whole records and a torn rest, which is too short for a length or
  for the record that it announces (`take_frames`).  `whole t rs` counts the
  records within the first `t` bytes, and `left t rs` the bytes after them.  The
  module names nothing of the program.
-/
import HieraChain.BigEndian

namespace HieraChain.RecordFile

open HieraChain.BigEndian

def frame (r : Bytes) : Bytes := pushInt r.length 4 ++ r

def frames (rs : List Bytes) : Bytes := rs.flatMap frame

def announced (b : Bytes) : Nat := fromBigEndian (b.take 4)

def Torn (b : Bytes) : Prop := b.length < 4 ∨ b.length < 4 + announced b

def Fits (r : Bytes) : Prop := r.length < 256 ^ 4

def whole : Nat → List Bytes → Nat
  | _, [] => 0
  | t, r :: rs => if 4 + r.length ≤ t then whole (t - (4 + r.length)) rs + 1 else 0

def left : Nat → List Bytes → Nat
  | t, [] => t
  | t, r :: rs => if 4 + r.length ≤ t then left (t - (4 + r.length)) rs else t

@[simp] theorem length_frame (r : Bytes) : (frame r).length = 4 + r.length := by
  rw [frame, List.length_append, length_pushInt]

@[simp] theorem frames_nil : frames [] = [] := rfl

@[simp] theorem frames_cons (r : Bytes) (rs : List Bytes) : frames (r :: rs) = frame r ++ frames rs := rfl

theorem frames_append (rs rs' : List Bytes) : frames (rs ++ rs') = frames rs ++ frames rs' :=
  List.flatMap_append

/-! ### Reading one record -/

variable {r : Bytes} (hr : Fits r)

include hr in
theorem announced_frame (b : Bytes) : announced (frame r ++ b) = r.length := by
  have htake : (frame r ++ b).take 4 = pushInt r.length 4 := by
    rw [frame, List.append_assoc]
    exact List.take_left' (length_pushInt _ _)
  rw [announced, htake, fromBigEndian_pushInt]
  exact Nat.mod_eq_of_lt hr

theorem drop_frame (r b : Bytes) : (frame r ++ b).drop (4 + r.length) = b :=
  List.drop_left' (length_frame r)

theorem take_drop_frame (r b : Bytes) : ((frame r ++ b).drop 4).take r.length = r := by
  have hdrop : (frame r ++ b).drop 4 = r ++ b := by
    rw [frame, List.append_assoc]
    exact List.drop_left' (length_pushInt _ _)
  rw [hdrop, List.take_left]

/-! ### Torn rests -/

theorem torn_nil : Torn [] := Or.inl (by decide)

theorem Torn.take {b : Bytes} (h : Torn b) (t : Nat) : Torn (b.take t) := by
  by_cases hshort : (b.take t).length < 4
  · exact Or.inl hshort
  · right
    rw [List.length_take] at hshort ⊢
    have hannounced : announced (b.take t) = announced b := by
      rw [announced, List.take_take, announced, Nat.min_eq_left (by omega)]
    rw [hannounced]
    cases h with
    | inl h => omega
    | inr h => omega

include hr in
theorem torn_take_frame (b : Bytes) {t : Nat} (ht : t < 4 + r.length) : Torn ((frame r ++ b).take t) := by
  by_cases hshort : ((frame r ++ b).take t).length < 4
  · exact Or.inl hshort
  · right
    rw [List.length_take] at hshort ⊢
    have hannounced : announced ((frame r ++ b).take t) = r.length := by
      rw [announced, List.take_take, Nat.min_eq_left (by omega)]
      exact announced_frame hr b
    rw [hannounced]
    omega

/-- **A prefix of a file of records**: the records that are whole, and a torn rest. -/
theorem take_frames {rs : List Bytes} (hfits : ∀ r ∈ rs, Fits r) {tail : Bytes} (htail : Torn tail) {t : Nat}
    (ht : t ≤ (frames rs ++ tail).length) :
    ∃ rest, (frames rs ++ tail).take t = frames (rs.take (whole t rs)) ++ rest ∧ Torn rest
      ∧ rest.length = left t rs := by
  induction rs generalizing t with
  | nil =>
    refine ⟨tail.take t, rfl, htail.take t, ?_⟩
    rw [frames_nil, List.nil_append] at ht
    rw [List.length_take, left]
    omega
  | cons r rs ih =>
    have hr := hfits r List.mem_cons_self
    rw [frames_cons, List.append_assoc] at ht ⊢
    rw [List.length_append, length_frame] at ht
    by_cases hwhole : 4 + r.length ≤ t
    · obtain ⟨rest, htake, htorn, hlength⟩ :=
        ih (fun r' hr' => hfits r' (List.mem_cons_of_mem r hr')) (t := t - (4 + r.length)) (by omega)
      have hsplit : (frame r ++ (frames rs ++ tail)).take t
          = frame r ++ (frames rs ++ tail).take (t - (4 + r.length)) := by
        rw [List.take_append, length_frame, List.take_of_length_le]
        rw [length_frame]
        exact hwhole
      refine ⟨rest, ?_, htorn, ?_⟩
      · rw [hsplit, htake, whole, if_pos hwhole, List.take_succ_cons, frames_cons, List.append_assoc]
      · rw [left, if_pos hwhole, hlength]
    · refine ⟨(frame r ++ (frames rs ++ tail)).take t, ?_, torn_take_frame hr _ (by omega), ?_⟩
      · rw [whole, if_neg hwhole]
        rfl
      · rw [left, if_neg hwhole, List.length_take, List.length_append, length_frame]
        omega

end HieraChain.RecordFile
