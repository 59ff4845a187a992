/-
  HieraChain/Footprint.lean
  =========================
  **Operations on some of the keys of a store.**

  A store gives every key a value.  An operation is local to some keys if it
  changes no other value and answers and writes by the values of these alone.
  Operations that are local to different keys can be done in either order
  (`Local.commute`).
-/
import Mathlib.Logic.Function.Basic

namespace HieraChain.Footprint

variable {κ ρ ω ω' : Type}

structure Local (K : κ → Prop) (f : (κ → ρ) → ω × (κ → ρ)) : Prop where
  frame : ∀ t k, ¬ K k → (f t).2 k = t k
  answers : ∀ t t', (∀ k, K k → t k = t' k) → (f t).1 = (f t').1
  writes : ∀ t t', (∀ k, K k → t k = t' k) → ∀ k, K k → (f t).2 k = (f t').2 k

def EitherOrder (f : (κ → ρ) → ω × (κ → ρ)) (g : (κ → ρ) → ω' × (κ → ρ)) (t : κ → ρ) : Prop :=
  (f t).1 = (f (g t).2).1 ∧ (g (f t).2).1 = (g t).1 ∧ (g (f t).2).2 = (f (g t).2).2

variable {K L : κ → Prop} {f : (κ → ρ) → ω × (κ → ρ)} {g : (κ → ρ) → ω' × (κ → ρ)}

theorem EitherOrder.symm {t : κ → ρ} (h : EitherOrder f g t) : EitherOrder g f t := ⟨h.2.1.symm, h.1.symm, h.2.2.symm⟩

/-- **Operations on different keys commute.** -/
theorem Local.commute (hf : Local K f) (hg : Local L g) (hdisjoint : ∀ k, K k → ¬ L k) (t : κ → ρ) :
    EitherOrder f g t := by
  have hkept : ∀ k, K k → t k = (g t).2 k := fun k hk => (hg.frame t k (hdisjoint k hk)).symm
  have hkept' : ∀ k, L k → t k = (f t).2 k := fun k hk => (hf.frame t k fun hk' => hdisjoint k hk' hk).symm
  refine ⟨hf.answers _ _ hkept, (hg.answers _ _ hkept').symm, funext fun k => ?_⟩
  by_cases hK : K k
  · rw [hg.frame _ k (hdisjoint k hK)]
    exact hf.writes _ _ hkept k hK
  · rw [hf.frame _ k hK]
    by_cases hL : L k
    · exact (hg.writes _ _ hkept' k hL).symm
    · rw [hg.frame _ k hL, hg.frame _ k hL, hf.frame _ k hK]

theorem commute_of_reads (hread : ∀ t, (f t).2 = t) {t : κ → ρ} :
    EitherOrder f g t ↔ (f t).1 = (f (g t).2).1 := by
  constructor
  · exact fun h => h.1
  · intro h
    refine ⟨h, ?_, ?_⟩
    · rw [hread]
    · rw [hread, hread]

/-! ### Local operations -/

section Writes

variable [DecidableEq κ]

def writeAll (ws : List (κ × ρ)) (t : κ → ρ) : κ → ρ := ws.foldl (fun t w => Function.update t w.1 w.2) t

@[simp] theorem writeAll_nil (t : κ → ρ) : writeAll [] t = t := rfl

@[simp] theorem writeAll_cons (w : κ × ρ) (ws : List (κ × ρ)) (t : κ → ρ) :
    writeAll (w :: ws) t = writeAll ws (Function.update t w.1 w.2) := rfl

theorem writeAll_of_not_mem (ws : List (κ × ρ)) (t : κ → ρ) {k : κ} (h : ∀ w ∈ ws, w.1 ≠ k) :
    writeAll ws t k = t k := by
  induction ws generalizing t with
  | nil => rfl
  | cons w ws ih =>
    obtain ⟨hw, hws⟩ := List.forall_mem_cons.mp h
    rw [writeAll_cons, ih _ hws, Function.update_of_ne hw.symm]

theorem writeAll_of_mem (ws : List (κ × ρ)) (t : κ → ρ) (hnodup : (ws.map Prod.fst).Nodup) {w : κ × ρ} (hw : w ∈ ws) :
    writeAll ws t w.1 = w.2 := by
  induction ws generalizing t with
  | nil => cases hw
  | cons w' ws ih =>
    obtain ⟨hnew, hnodup⟩ := List.nodup_cons.mp hnodup
    rw [writeAll_cons]
    rcases List.mem_cons.mp hw with rfl | hw
    · rw [writeAll_of_not_mem, Function.update_self]
      intro w' hw' heq
      exact hnew (heq ▸ List.mem_map_of_mem hw')
    · exact ih _ hnodup hw

theorem writeAll_congr (ws : List (κ × ρ)) {t t' : κ → ρ} {k : κ} (h : t k = t' k) :
    writeAll ws t k = writeAll ws t' k := by
  induction ws generalizing t t' with
  | nil => exact h
  | cons w ws ih =>
    rw [writeAll_cons, writeAll_cons]
    apply ih
    by_cases hw : k = w.1
    · rw [hw, Function.update_self, Function.update_self]
    · rw [Function.update_of_ne hw, Function.update_of_ne hw, h]

end Writes

end HieraChain.Footprint
