/-
  HieraChain/ChangeLog.lean
  =========================
  **Undoing the entries of a change log, the newest first.**

  A log holds changes, each with what it takes to undo it.  `past undo n log v`
  is what the value `v` was when the log had `n` entries.  It does not move when
  changes are added whose undoing gives the value back (`past_push`), nor when the
  log is rolled back to a size that is not smaller (`past_rollback`).
-/
import Mathlib.Data.List.TakeDrop

namespace HieraChain.ChangeLog

variable {δ υ : Type} {undo : δ → υ → υ}

def unwind (undo : δ → υ → υ) (log : List δ) (v : υ) : υ := log.foldl (fun v c => undo c v) v

/-- The value when the log had `n` entries. -/
def past (undo : δ → υ → υ) (n : Nat) (log : List δ) (v : υ) : υ := unwind undo (log.take (log.length - n)) v

@[simp] theorem unwind_nil (v : υ) : unwind undo [] v = v := rfl

@[simp] theorem unwind_cons (c : δ) (log : List δ) (v : υ) : unwind undo (c :: log) v = unwind undo log (undo c v) := rfl

theorem unwind_append (newer older : List δ) (v : υ) :
    unwind undo (newer ++ older) v = unwind undo older (unwind undo newer v) := List.foldl_append

theorem past_self (log : List δ) (v : υ) : past undo log.length log v = v := by
  rw [past, Nat.sub_self, List.take_zero, unwind_nil]

theorem past_cons {n : Nat} {c : δ} {log : List δ} (hn : n ≤ log.length) (v : υ) :
    past undo n (c :: log) v = past undo n log (undo c v) := by
  rw [past, past, List.length_cons, Nat.succ_sub hn, List.take_succ_cons, unwind_cons]

/-- **New entries that undo what they stand for** leave the past. -/
theorem past_push {n : Nat} {added log : List δ} {v v' : υ} (hn : n ≤ log.length) (h : unwind undo added v' = v) :
    past undo n (added ++ log) v' = past undo n log v := by
  induction added generalizing v' with
  | nil => rw [List.nil_append, ← h, unwind_nil]
  | cons c added ih =>
    rw [List.cons_append, past_cons (by rw [List.length_append]; omega)]
    exact ih h

/-- **Rolling back leaves the past** before it. -/
theorem past_rollback {n m : Nat} {log : List δ} (hnm : n ≤ m) (hm : m ≤ log.length) (v : υ) :
    past undo n (log.drop (log.length - m)) (past undo m log v) = past undo n log v := by
  have hsplit : log.take (log.length - n)
      = log.take (log.length - m) ++ (log.drop (log.length - m)).take (m - n) := by
    rw [show log.length - n = (log.length - m) + (m - n) by omega, List.take_add]
  rw [past, List.length_drop, show log.length - (log.length - m) - n = m - n by omega, past, past, hsplit,
    unwind_append]

end HieraChain.ChangeLog
