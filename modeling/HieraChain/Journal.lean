/-
  HieraChain/Journal.lean
  =======================
  **A value with exact savepoints.**

  Every write keeps the value it replaces.  A savepoint is the number of writes
  so far, and rolling back to it takes back the writes made since.  A journal
  extends another when it has been written to, or rolled back to a savepoint
  not older; such a one always gives the other back (`rollback_savepoint`).
-/
namespace HieraChain

structure Journal (σ : Type) where
  current : σ
  past : List σ := []

namespace Journal

variable {σ : Type} (j : Journal σ)

def savepoint : Nat := j.past.length

def write (s : σ) : Journal σ := { current := s, past := j.current :: j.past }

def modify (f : σ → σ) : Journal σ := j.write (f j.current)

/-- Down to `n` writes; a journal with fewer stays. -/
def rollback (n : Nat) : Journal σ :=
  match (j.current :: j.past).drop (j.past.length - n) with
  | s :: older => { current := s, past := older }
  | [] => j

def Extends (before after : Journal σ) : Prop :=
  ∃ since, after.current :: after.past = since ++ before.current :: before.past

variable {j}

theorem Extends.refl (j : Journal σ) : Extends j j := ⟨[], rfl⟩

theorem Extends.trans {j k l : Journal σ} (h : Extends j k) (h' : Extends k l) : Extends j l := by
  obtain ⟨since, hk⟩ := h
  obtain ⟨since', hl⟩ := h'
  exact ⟨since' ++ since, by rw [hl, hk, List.append_assoc]⟩

theorem Extends.write {k : Journal σ} (h : Extends j k) (s : σ) : Extends j (k.write s) := by
  obtain ⟨since, hk⟩ := h
  refine ⟨s :: since, ?_⟩
  show s :: k.current :: k.past = s :: (since ++ _)
  rw [hk]

theorem Extends.modify {k : Journal σ} (h : Extends j k) (f : σ → σ) : Extends j (k.modify f) := h.write _

/-- **A savepoint brings its journal back.** -/
theorem rollback_savepoint {k : Journal σ} (h : Extends j k) : k.rollback j.savepoint = j := by
  obtain ⟨since, hk⟩ := h
  have hlength := congrArg List.length hk
  rw [List.length_append, List.length_cons, List.length_cons] at hlength
  have hdrop : k.past.length - j.savepoint = since.length := by
    unfold savepoint
    omega
  unfold rollback
  rw [hdrop, hk, List.drop_left]

theorem rollback_zero (h : j.past = []) : j.rollback 0 = j := by
  obtain ⟨s, past⟩ := j
  cases h
  rfl

end Journal

end HieraChain
