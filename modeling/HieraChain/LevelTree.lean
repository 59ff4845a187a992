/-
  HieraChain/LevelTree.lean
  =========================
  **A tree of numbers in level order.**

  The root is 0 and the children of `p` are the next `w` numbers, `p * w + 1` to
  `p * w + w`.  `Path skipped p r` says that `r` is below `p` with skipped numbers
  between them.  Two numbers that are not skipped have such a path to the same
  number only if they are one (`Path.unique`), and every number below `p` has one
  from `p` or from a number below `p` that is not skipped (`below_cases`).
  `frontier` lists the first numbers below `p` that are not skipped.
-/
import Mathlib.Data.List.Nodup
import Mathlib.Tactic.Ring

namespace HieraChain.LevelTree

def parent (w r : Nat) : Nat := (r - 1) / w

variable {w : Nat}

theorem parent_lt {r : Nat} (h : 0 < r) : parent w r < r := by
  have hle : parent w r ≤ r - 1 := Nat.div_le_self _ _
  omega

theorem parent_eq_iff (hw : 0 < w) {p r : Nat} : 0 < r ∧ parent w r = p ↔ ∃ i < w, r = p * w + i + 1 := by
  constructor
  · rintro ⟨hr, rfl⟩
    refine ⟨(r - 1) % w, Nat.mod_lt _ hw, ?_⟩
    have hdiv : (r - 1) / w * w + (r - 1) % w = r - 1 := Nat.div_add_mod' _ _
    rw [parent]
    omega
  · rintro ⟨i, hi, rfl⟩
    refine ⟨Nat.succ_pos _, ?_⟩
    rw [parent, Nat.add_sub_cancel, Nat.mul_comm, Nat.mul_add_div hw, Nat.div_eq_of_lt hi, Nat.add_zero]

/-! ### Paths -/

/-- From `p` down to `r`, with skipped numbers between them. -/
inductive Path (w : Nat) (skipped : Nat → Prop) (p : Nat) : Nat → Prop
  | child {r : Nat} (pos : 0 < r) (parent_eq : parent w r = p) : Path w skipped p r
  | through {r : Nat} (pos : 0 < r) (skips : skipped (parent w r)) (path : Path w skipped p (parent w r)) :
      Path w skipped p r

/-- `r` is below `p`. -/
def Below (w p r : Nat) : Prop := Path w (fun _ => True) p r

variable {skipped : Nat → Prop} {p q r e : Nat}

theorem Path.pos (h : Path w skipped p r) : 0 < r := by
  cases h with
  | child hpos => exact hpos
  | through hpos => exact hpos

theorem Path.lt (h : Path w skipped p r) : p < r := by
  induction h with
  | child hpos hparent => exact hparent ▸ parent_lt hpos
  | through hpos _ _ ih => exact lt_trans ih (parent_lt hpos)

theorem Path.isBelow (h : Path w skipped p r) : Below w p r := by
  induction h with
  | child hpos hparent => exact .child hpos hparent
  | through hpos _ _ ih => exact .through hpos trivial ih

theorem Below.trans (hpq : Below w p q) (hqr : Below w q r) : Below w p r := by
  induction hqr with
  | child hpos hparent => exact .through hpos trivial (hparent ▸ hpq)
  | through hpos _ _ ih => exact .through hpos trivial ih

theorem below_root (hr : 0 < r) : Below w 0 r := by
  induction r using Nat.strong_induction_on with
  | _ r ih =>
    rcases Nat.eq_zero_or_pos (parent w r) with hroot | hpos
    · exact .child hr hroot
    · exact .through hr trivial (ih _ (parent_lt hr) hpos)

/-- **The first number above that is not skipped is one.** -/
theorem Path.unique (hp : Path w skipped p r) (hq : Path w skipped q r) (hp' : ¬ skipped p) (hq' : ¬ skipped q) :
    p = q := by
  induction hp with
  | child hpos hparent =>
    cases hq with
    | child _ hparent' => exact hparent.symm.trans hparent'
    | through _ hskips _ => exact absurd (hparent ▸ hskips) hp'
  | through hpos hskips _ ih =>
    cases hq with
    | child _ hparent => exact absurd (hparent ▸ hskips) hq'
    | through _ _ hpath => exact ih hpath

theorem below_cases (h : Below w p r) :
    Path w skipped p r ∨ ∃ q, ¬ skipped q ∧ Below w p q ∧ Path w skipped q r := by
  classical
  induction h with
  | child hpos hparent => exact Or.inl (.child hpos hparent)
  | @through r hpos _ hbelow ih =>
    by_cases hskips : skipped (parent w r)
    · obtain hpath | ⟨q, hq, hbelow', hpath⟩ := ih
      · exact Or.inl (.through hpos hskips hpath)
      · exact Or.inr ⟨q, hq, hbelow', .through hpos hskips hpath⟩
    · exact Or.inr ⟨parent w r, hskips, hbelow, .child hpos rfl⟩

theorem path_iff_child :
    Path w skipped p r ↔ ∃ e, 0 < e ∧ parent w e = p ∧ (e = r ∨ skipped e ∧ Path w skipped e r) := by
  constructor
  · intro h
    induction h with
    | @child r hpos hparent => exact ⟨r, hpos, hparent, Or.inl rfl⟩
    | @through r hpos hskips _ ih =>
      obtain ⟨e, he, hparent, rfl | ⟨hskips', hpath⟩⟩ := ih
      · exact ⟨_, he, hparent, Or.inr ⟨hskips, .child hpos rfl⟩⟩
      · exact ⟨e, he, hparent, Or.inr ⟨hskips', .through hpos hskips hpath⟩⟩
  · rintro ⟨e, he, rfl, rfl | ⟨hskips, hpath⟩⟩
    · exact .child he rfl
    · induction hpath with
      | child hpos hparent =>
        subst hparent
        exact .through hpos hskips (.child he rfl)
      | through hpos hskips' _ ih => exact .through hpos hskips' ih

theorem Below.linear (hp : Below w p r) (hq : Below w q r) : p = q ∨ Below w p q ∨ Below w q p := by
  induction hp with
  | child hpos hparent =>
    cases hq with
    | child _ hparent' => exact Or.inl (hparent.symm.trans hparent')
    | through _ _ hpath => exact Or.inr (Or.inr (hparent ▸ hpath))
  | through hpos _ hbelow ih =>
    cases hq with
    | child _ hparent => exact Or.inr (Or.inl (hparent ▸ hbelow))
    | through _ _ hpath => exact ih hpath

theorem not_below_sibling (h : parent w p = parent w q) (hp : 0 < p) : ¬ Below w p q := by
  intro hbelow
  have hlt : parent w p < p := parent_lt hp
  cases hbelow with
  | child _ hparent => omega
  | through _ _ hpath =>
    have := hpath.lt
    omega

theorem Path.skips_between (h : Path w skipped p r) (hpq : Below w p q) (hqr : Below w q r) : skipped q := by
  induction h with
  | child _ hparent =>
    have hlt := hpq.lt
    cases hqr with
    | child _ hparent' => omega
    | through _ _ hpath =>
      have := hpath.lt
      omega
  | through _ hskips _ ih =>
    cases hqr with
    | child _ hparent => exact hparent ▸ hskips
    | through _ _ hpath => exact ih hpath

theorem Path.congr {skipped' : Nat → Prop} (h : Path w skipped p r)
    (hskips : ∀ e, p < e → e < r → skipped e → skipped' e) : Path w skipped' p r := by
  induction h with
  | child hpos hparent => exact .child hpos hparent
  | @through r hpos hskip hpath ih =>
    have hlt := parent_lt (w := w) hpos
    refine .through hpos (hskips _ hpath.lt hlt hskip) (ih ?_)
    intro e hpe her
    exact hskips e hpe (by omega)

/-! ### Entrances -/

/-- What comes in at the entries reaches the numbers of `S` from above, each from
    one place. -/
structure Entrance (w : Nat) (skipped : Nat → Prop) (entry S : Nat → Prop) : Prop where
  entry_mem : ∀ r, entry r → S r
  closed : ∀ q r, S q → Path w skipped q r → S r
  origin : ∀ r, S r → entry r ∨ ∃ q, ¬ skipped q ∧ S q ∧ Path w skipped q r
  only : ∀ q r, entry r → S q → ¬ skipped q → ¬ Path w skipped q r

theorem entrance_below (p : Nat) : Entrance w skipped (Path w skipped p) (Below w p) where
  entry_mem _ h := h.isBelow
  closed _ _ hq h := hq.trans h.isBelow
  origin _ h := below_cases h
  only _ _ hentry hq hnot h := hnot (hentry.skips_between hq h.isBelow)

theorem entrance_root (hroot : ¬ skipped 0) : Entrance w skipped (· = 0) fun _ => True where
  entry_mem _ _ := trivial
  closed _ _ _ _ := trivial
  origin r _ := by
    rcases Nat.eq_zero_or_pos r with hzero | hpos
    · exact Or.inl hzero
    · have hbelow : Path w skipped 0 r ∨ ∃ q, ¬ skipped q ∧ Below w 0 q ∧ Path w skipped q r :=
        below_cases (below_root hpos)
      obtain hpath | ⟨q, hq, -, hpath⟩ := hbelow
      · exact Or.inr ⟨0, hroot, trivial, hpath⟩
      · exact Or.inr ⟨q, hq, trivial, hpath⟩
  only _ _ hentry _ _ h := by
    have := h.lt
    omega

/-! ### The frontier -/

/-- The children of `p` up to `last`. -/
def children (w last p : Nat) : List Nat := ((List.range w).map fun i => p * w + i + 1).filter (· ≤ last)

/-- The first numbers below `p` that are not skipped, up to `last`. -/
def frontier (w : Nat) (skipped : Nat → Bool) (last : Nat) : Nat → Nat → List Nat
  | 0, _ => []
  | fuel + 1, p =>
    (children w last p).flatMap fun e => if skipped e then frontier w skipped last fuel e else [e]

variable {last fuel : Nat} {skips : Nat → Bool}

theorem mem_children (hw : 0 < w) : e ∈ children w last p ↔ 0 < e ∧ parent w e = p ∧ e ≤ last := by
  rw [← and_assoc, parent_eq_iff hw, children, List.mem_filter, List.mem_map, decide_eq_true_eq]
  apply and_congr_left'
  constructor
  · rintro ⟨i, hi, rfl⟩
    exact ⟨i, List.mem_range.mp hi, rfl⟩
  · rintro ⟨i, hi, rfl⟩
    exact ⟨i, List.mem_range.mpr hi, rfl⟩

theorem nodup_children : (children w last p).Nodup := by
  apply List.Nodup.filter
  apply List.Nodup.map _ List.nodup_range
  intro i j hij
  simpa using hij

theorem mem_frontier (hw : 0 < w) (hfuel : last < p + fuel) :
    r ∈ frontier w skips last fuel p ↔ r ≤ last ∧ skips r = false ∧ Path w (skips · = true) p r := by
  induction fuel generalizing p with
  | zero =>
    constructor
    · intro h
      cases h
    · rintro ⟨hlast, -, hpath⟩
      have := hpath.lt
      omega
  | succ fuel ih =>
    rw [frontier, List.mem_flatMap, path_iff_child]
    constructor
    · rintro ⟨e, he, hr⟩
      obtain ⟨hpos, hparent, hlast⟩ := (mem_children hw).mp he
      have hlt := parent_lt (w := w) hpos
      by_cases hskips : skips e = true
      · rw [if_pos hskips, ih (by omega)] at hr
        exact ⟨hr.1, hr.2.1, e, hpos, hparent, Or.inr ⟨hskips, hr.2.2⟩⟩
      · rw [if_neg hskips, List.mem_singleton] at hr
        subst hr
        exact ⟨hlast, by simpa using hskips, r, hpos, hparent, Or.inl rfl⟩
    · rintro ⟨hlast, hskips, e, hpos, hparent, rfl | ⟨hskips', hpath⟩⟩
      · refine ⟨e, (mem_children hw).mpr ⟨hpos, hparent, hlast⟩, ?_⟩
        rw [hskips, if_neg Bool.false_ne_true]
        exact List.mem_singleton_self e
      · have hlt := parent_lt (w := w) hpos
        have hle := hpath.lt
        refine ⟨e, (mem_children hw).mpr ⟨hpos, hparent, by omega⟩, ?_⟩
        rw [if_pos hskips', ih (by omega)]
        exact ⟨hlast, hskips, hpath⟩

theorem frontier_of_le (hw : 0 < w) (h : last ≤ p) (fuel : Nat) : frontier w skips last fuel p = [] := by
  cases fuel with
  | zero => rfl
  | succ fuel =>
    have hnone : children w last p = [] := by
      rw [List.eq_nil_iff_forall_not_mem]
      intro e he
      obtain ⟨hpos, hparent, hlast⟩ := (mem_children hw).mp he
      have := parent_lt (w := w) hpos
      omega
    rw [frontier, hnone, List.flatMap_nil]

theorem nodup_frontier (hw : 0 < w) (hfuel : last < p + fuel) : (frontier w skips last fuel p).Nodup := by
  induction fuel generalizing p with
  | zero => exact List.nodup_nil
  | succ fuel ih =>
    rw [frontier, List.nodup_flatMap]
    constructor
    · intro e he
      obtain ⟨hpos, hparent, -⟩ := (mem_children hw).mp he
      have hlt := parent_lt (w := w) hpos
      split
      · exact ih (by omega)
      · exact List.nodup_singleton e
    · -- what is listed for two children is below both of them
      have hlisted : ∀ e ∈ children w last p, ∀ r,
          r ∈ (if skips e then frontier w skips last fuel e else [e]) → r = e ∨ Below w e r := by
        intro e he r hr
        obtain ⟨hpos, hparent, -⟩ := (mem_children hw).mp he
        have hlt := parent_lt (w := w) hpos
        split at hr
        · exact Or.inr ((mem_frontier hw (by omega)).mp hr).2.2.isBelow
        · exact Or.inl (List.mem_singleton.mp hr)
      apply List.Pairwise.imp_of_mem _ nodup_children
      intro e e' he he' hne r hr hr'
      obtain ⟨hpos, hparent, -⟩ := (mem_children hw).mp he
      obtain ⟨hpos', hparent', -⟩ := (mem_children hw).mp he'
      have hsibling : parent w e = parent w e' := hparent.trans hparent'.symm
      rcases hlisted e he r hr with rfl | hbelow <;> rcases hlisted e' he' r hr' with heq | hbelow'
      · exact hne heq
      · exact not_below_sibling hsibling.symm hpos' hbelow'
      · subst heq
        exact not_below_sibling hsibling hpos hbelow
      · rcases hbelow.linear hbelow' with heq | habove | habove
        · exact hne heq
        · exact not_below_sibling hsibling hpos habove
        · exact not_below_sibling hsibling.symm hpos' habove

end HieraChain.LevelTree
