/-
  HieraChain/Machine.lean
  =======================
  **Deterministic machines, their runs, and clusters of machines.**

  A machine takes a state and an input to the next state.  A run folds a list
  of inputs.  `RunOk ok` says that every input of a run satisfies a condition in
  the state where it is handled; the rule `run_invariant` turns a step lemma
  under that condition into a run lemma, and `run_relates` a simulation of one
  step into one of runs.

  A step may be long.  `MadeOf micro` says that every step is a sequence of
  small steps, and `MadeOf.step_invariant` carries an invariant of the small
  steps to the step.  A cluster runs one machine per name, one input at a time.
-/
import Mathlib.Logic.Relation
import Mathlib.Logic.Function.Basic

namespace HieraChain

/-- A machine with states `σ` and inputs `ι`. -/
structure Machine (σ ι : Type) where
  step : σ → ι → σ

namespace Machine

variable {σ ι : Type} (M : Machine σ ι)

/-! ### Runs -/

def run (s : σ) (is : List ι) : σ := is.foldl M.step s

@[simp] theorem run_nil (s : σ) : M.run s [] = s := rfl

@[simp] theorem run_cons (s : σ) (i : ι) (is : List ι) :
    M.run s (i :: is) = M.run (M.step s i) is := rfl

theorem run_append (s : σ) (is js : List ι) : M.run s (is ++ js) = M.run (M.run s is) js :=
  List.foldl_append

/-- Every input of the run satisfies `ok` in the state where it is handled. -/
def RunOk (ok : σ → ι → Prop) : σ → List ι → Prop
  | _, [] => True
  | s, i :: is => ok s i ∧ RunOk ok (M.step s i) is

def decRunOk {ok : σ → ι → Prop} (h : ∀ s i, Decidable (ok s i)) :
    ∀ s is, Decidable (M.RunOk ok s is)
  | _, [] => isTrue trivial
  | s, i :: is =>
    match h s i, decRunOk h (M.step s i) is with
    | isTrue hi, isTrue hr => isTrue ⟨hi, hr⟩
    | isFalse hi, _ => isFalse fun hrun => hi hrun.1
    | isTrue _, isFalse hr => isFalse fun hrun => hr hrun.2

instance {ok : σ → ι → Prop} [h : ∀ s i, Decidable (ok s i)] (s : σ) (is : List ι) :
    Decidable (M.RunOk ok s is) := M.decRunOk h s is

theorem RunOk.mono {ok ok' : σ → ι → Prop} (h : ∀ s i, ok s i → ok' s i) {s : σ} {is : List ι}
    (hrun : M.RunOk ok s is) : M.RunOk ok' s is := by
  induction is generalizing s with
  | nil => exact trivial
  | cons i is ih => exact ⟨h s i hrun.1, ih hrun.2⟩

theorem RunOk.append {M : Machine σ ι} {ok : σ → ι → Prop} {s : σ} {is js : List ι} :
    M.RunOk ok s (is ++ js) ↔ M.RunOk ok s is ∧ M.RunOk ok (M.run s is) js := by
  induction is generalizing s with
  | nil => exact ⟨fun h => ⟨trivial, h⟩, fun h => h.2⟩
  | cons i is ih => exact (and_congr_right fun _ => ih).trans and_assoc.symm

/-- **Invariant rule.**  What one step preserves under `ok`, a run whose inputs
    are all `ok` preserves. -/
theorem run_invariant {inv : σ → Prop} {ok : σ → ι → Prop}
    (hstep : ∀ s i, inv s → ok s i → inv (M.step s i))
    {s : σ} {is : List ι} (hs : inv s) (hrun : M.RunOk ok s is) : inv (M.run s is) := by
  induction is generalizing s with
  | nil => exact hs
  | cons i is ih => exact ih (hstep s i hs hrun.1) hrun.2

theorem run_preserves {inv : σ → Prop} (hstep : ∀ s i, inv s → inv (M.step s i)) {s : σ}
    (hs : inv s) (is : List ι) : inv (M.run s is) := by
  induction is generalizing s with
  | nil => exact hs
  | cons i is ih => exact ih (hstep s i hs)

/-- **Simulation rule.**  What a step of one machine and a step of another on the
    same input preserve, runs on the same inputs preserve. -/
theorem run_relates {M : Machine σ ι} {τ : Type} {N : Machine τ ι} {R : σ → τ → Prop}
    (hstep : ∀ s t i, R s t → R (M.step s i) (N.step t i)) {s : σ} {t : τ} (h : R s t) (is : List ι) :
    R (M.run s is) (N.run t is) := by
  induction is generalizing s t with
  | nil => exact h
  | cons i is ih => exact ih (hstep s t i h)

/-- **Step rule.**  Where an invariant holds, `ok` inputs are also `ok'`; then so
    is every input of a run from a state with the invariant. -/
theorem RunOk.of_invariant {M : Machine σ ι} {inv : σ → Prop} {ok ok' : σ → ι → Prop}
    (hstep : ∀ s i, inv s → ok s i → inv (M.step s i) ∧ ok' s i)
    {s : σ} {is : List ι} (hs : inv s) (hrun : M.RunOk ok s is) : M.RunOk ok' s is := by
  induction is generalizing s with
  | nil => exact trivial
  | cons i is ih =>
    obtain ⟨hnext, hok'⟩ := hstep s i hs hrun.1
    exact ⟨hok', ih hnext hrun.2⟩

theorem forall_take_cons {P : σ → Prop} (s : σ) (i : ι) (is : List ι) :
    (∀ n, P (M.run s ((i :: is).take n))) ↔ P s ∧ ∀ n, P (M.run (M.step s i) (is.take n)) := by
  constructor
  · intro h
    exact ⟨h 0, fun n => h (n + 1)⟩
  · rintro ⟨hs, h⟩ (_ | n)
    · exact hs
    · exact h n

/-- **Exact rule.**  Where `P` holds and one step keeps it exactly under `ok`, it
    holds all along a run exactly when the inputs of the run are `ok`.  The
    invariant need only survive the `ok` inputs. -/
theorem forall_take_iff_of_ok {P inv : σ → Prop} {ok : σ → ι → Prop}
    (hinv : ∀ s i, inv s → ok s i → inv (M.step s i))
    (hstep : ∀ s i, inv s → P s → (P (M.step s i) ↔ ok s i)) (is : List ι) {s : σ} (hs : inv s) (hP : P s) :
    (∀ n, P (M.run s (is.take n))) ↔ M.RunOk ok s is := by
  induction is generalizing s with
  | nil =>
    constructor
    · intro _
      trivial
    · intro _ n
      rw [List.take_nil]
      exact hP
  | cons i is ih =>
    rw [M.forall_take_cons]
    constructor
    · rintro ⟨-, hrest⟩
      have hnext : P (M.step s i) := hrest 0
      have hok : ok s i := (hstep s i hs hP).mp hnext
      exact ⟨hok, (ih (hinv s i hs hok) hnext).mp hrest⟩
    · rintro ⟨hok, hrest⟩
      have hnext : P (M.step s i) := (hstep s i hs hP).mpr hok
      exact ⟨hP, (ih (hinv s i hs hok) hnext).mpr hrest⟩

theorem forall_take_iff {P inv : σ → Prop} {ok : σ → ι → Prop} (hinv : ∀ s i, inv s → inv (M.step s i))
    (hstep : ∀ s i, inv s → P s → (P (M.step s i) ↔ ok s i)) (is : List ι) {s : σ} (hs : inv s) (hP : P s) :
    (∀ n, P (M.run s (is.take n))) ↔ M.RunOk ok s is :=
  M.forall_take_iff_of_ok (fun s i h _ => hinv s i h) hstep is hs hP

/-! ### Small steps -/

/-- The step on `i` in `s` is a sequence of steps of `micro s i`. -/
def MadeOf (micro : σ → ι → σ → σ → Prop) : Prop :=
  ∀ s i, Relation.ReflTransGen (micro s i) s (M.step s i)

theorem MadeOf.step_invariant {M : Machine σ ι} {micro : σ → ι → σ → σ → Prop}
    (h : M.MadeOf micro) {inv : σ → Prop} {s : σ} {i : ι}
    (hmicro : ∀ t u, micro s i t u → inv t → inv u) (hs : inv s) : inv (M.step s i) := by
  have hseq := h s i
  generalize M.step s i = s' at hseq
  induction hseq with
  | refl => exact hs
  | tail _ hlast ih => exact hmicro _ _ hlast ih

/-! ### Clusters -/

def cluster {α : Type} [DecidableEq α] (Ms : α → Machine σ ι) : Machine (α → σ) (α × ι) where
  step s i := Function.update s i.1 ((Ms i.1).step (s i.1) i.2)

section cluster

variable {α : Type} [DecidableEq α] {Ms : α → Machine σ ι}

@[simp] theorem cluster_step_self (s : α → σ) (a : α) (i : ι) :
    (cluster Ms).step s (a, i) a = (Ms a).step (s a) i := Function.update_self ..

theorem cluster_step_of_ne (s : α → σ) {a b : α} (i : ι) (h : b ≠ a) :
    (cluster Ms).step s (a, i) b = s b := Function.update_of_ne h ..

end cluster

end Machine

end HieraChain
