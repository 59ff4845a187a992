/-
  HieraChain/MerkleTree.lean
  ==========================
  **Trees over a list, `w` children a node, and the way up to the root.**

  Every level is cut into groups of `w`; the parents of the groups are the next
  level, until one node is left, whose own group has the root as its parent.
  Where different groups have different parents and no leaf is a parent, a node
  stands in one group only (`eq_of_mem_tree`), and every leaf has its way up to
  the root (`exists_climb`).  Going down, equal levels have equal levels below
  them (`eq_of_iterate_above`).
-/
import Mathlib.Data.List.Nodup
import Mathlib.Data.List.Range
import Mathlib.Tactic.Ring

namespace HieraChain.Merkle

variable {α : Type}

/-! ### Levels -/

/-- The `i`th group of a level. -/
def group (w : Nat) (xs : List α) (i : Nat) : List α := (List.range w).filterMap fun j => xs[i * w + j]?

def groups (w : Nat) (xs : List α) : List (List α) := (List.range ((xs.length + w - 1) / w)).map (group w xs)

def above (w : Nat) (parent : List α → α) (xs : List α) : List α := (groups w xs).map parent

/-- The last level, with `fuel` levels to go at most. -/
def top (w : Nat) (parent : List α → α) : Nat → List α → List α
  | 0, xs => xs
  | fuel + 1, xs => if xs.length ≤ 1 then xs else top w parent fuel (above w parent xs)

def tree (w : Nat) (parent : List α → α) : Nat → List α → List (List α)
  | 0, xs => [xs]
  | fuel + 1, xs => if xs.length ≤ 1 then [xs] else groups w xs ++ tree w parent fuel (above w parent xs)

section
variable {w : Nat} {xs : List α} {parent : List α → α}

@[simp] theorem length_groups (w : Nat) (xs : List α) : (groups w xs).length = (xs.length + w - 1) / w := by
  simp [groups]

@[simp] theorem length_above (w : Nat) (parent : List α → α) (xs : List α) :
    (above w parent xs).length = (xs.length + w - 1) / w := by
  simp [above]

theorem mem_group {i : Nat} {x : α} : x ∈ group w xs i ↔ ∃ j < w, xs[i * w + j]? = some x := by
  simp [group]

theorem mem_groups {g : List α} : g ∈ groups w xs ↔ ∃ i < (xs.length + w - 1) / w, group w xs i = g := by
  simp [groups]

theorem mem_of_mem_group {i : Nat} {x : α} (h : x ∈ group w xs i) : x ∈ xs := by
  obtain ⟨j, -, hj⟩ := mem_group.mp h
  exact List.mem_of_getElem? hj

theorem filterMap_getElem? (w : Nat) (xs : List α) : ((List.range w).filterMap fun j => xs[j]?) = xs.take w := by
  induction w with
  | zero => rfl
  | succ w ih =>
    rw [List.range_succ, List.filterMap_append, ih, List.take_add_one]
    cases h : xs[w]? <;> simp [h]

theorem group_eq_take (w : Nat) (xs : List α) (i : Nat) : group w xs i = (xs.drop (i * w)).take w := by
  rw [← filterMap_getElem?, group]
  simp [List.getElem?_drop]

theorem length_group (w : Nat) (xs : List α) (i : Nat) : (group w xs i).length = min w (xs.length - i * w) := by
  rw [group_eq_take, List.length_take, List.length_drop]

theorem length_group_le (w : Nat) (xs : List α) (i : Nat) : (group w xs i).length ≤ w := by
  rw [length_group]
  exact Nat.min_le_left _ _

theorem getElem_mem_group (hw : 0 < w) {k : Nat} (hk : k < xs.length) :
    k / w < (xs.length + w - 1) / w ∧ xs[k] ∈ group w xs (k / w) := by
  constructor
  · rw [Nat.div_lt_iff_lt_mul hw]
    have := Nat.lt_mul_div_succ (xs.length + w - 1) hw
    have hmul : w * ((xs.length + w - 1) / w + 1) = (xs.length + w - 1) / w * w + w := by
      rw [Nat.mul_add, Nat.mul_comm, Nat.mul_one]
    omega
  · rw [mem_group]
    refine ⟨k % w, Nat.mod_lt k hw, ?_⟩
    rw [Nat.div_add_mod' k w]
    exact List.getElem?_eq_getElem hk

theorem exists_group_of_mem (hw : 0 < w) {x : α} (h : x ∈ xs) : ∃ g ∈ groups w xs, x ∈ g := by
  obtain ⟨k, hk, rfl⟩ := List.getElem_of_mem h
  obtain ⟨hlt, hmem⟩ := getElem_mem_group hw hk
  exact ⟨_, mem_groups.mpr ⟨k / w, hlt, rfl⟩, hmem⟩

theorem group_head (hw : 0 < w) {i : Nat} (hi : i < (xs.length + w - 1) / w) :
    ∃ x rest, xs[i * w]? = some x ∧ group w xs i = x :: rest := by
  have hlt : i * w < xs.length := by
    have := (Nat.le_div_iff_mul_le hw).mp (Nat.succ_le_of_lt hi)
    rw [Nat.succ_mul] at this
    omega
  obtain ⟨w, rfl⟩ : ∃ v, w = v + 1 := ⟨w - 1, by omega⟩
  have hfirst : xs[i * (w + 1) + 0]? = some xs[i * (w + 1)] := List.getElem?_eq_getElem hlt
  refine ⟨xs[i * (w + 1)], ((List.range w).map Nat.succ).filterMap fun j => xs[i * (w + 1) + j]?, hfirst, ?_⟩
  rw [group, List.range_succ_eq_map, List.filterMap_cons, hfirst]

theorem group_ne_nil (hw : 0 < w) {g : List α} (h : g ∈ groups w xs) : g ≠ [] := by
  obtain ⟨i, hi, rfl⟩ := mem_groups.mp h
  obtain ⟨x, rest, -, heq⟩ := group_head hw hi
  rw [heq]
  exact List.cons_ne_nil _ _

theorem group_unique (hnodup : xs.Nodup) {i j : Nat} {x : α} (hi : x ∈ group w xs i) (hj : x ∈ group w xs j) :
    i = j := by
  obtain ⟨a, ha, hxa⟩ := mem_group.mp hi
  obtain ⟨b, hb, hxb⟩ := mem_group.mp hj
  obtain ⟨hlta, -⟩ := List.getElem?_eq_some_iff.mp hxa
  have hplace : i * w + a = j * w + b := (List.getElem?_inj hlta hnodup).mp (hxa.trans hxb.symm)
  have hdivi : (i * w + a) / w = i := by
    rw [Nat.mul_comm, Nat.mul_add_div (by omega), Nat.div_eq_of_lt ha, Nat.add_zero]
  have hdivj : (j * w + b) / w = j := by
    rw [Nat.mul_comm, Nat.mul_add_div (by omega), Nat.div_eq_of_lt hb, Nat.add_zero]
  rw [← hdivi, ← hdivj, hplace]

theorem nodup_groups (hw : 0 < w) (hnodup : xs.Nodup) : (groups w xs).Nodup := by
  refine List.Nodup.map_on ?_ List.nodup_range
  intro i hi j hj heq
  obtain ⟨x, rest, -, hhead⟩ := group_head hw (List.mem_range.mp hi)
  have hmem : x ∈ group w xs i := by
    rw [hhead]
    exact List.mem_cons_self
  exact group_unique hnodup hmem (heq ▸ hmem)

theorem length_above_lt (hw : 2 ≤ w) (h : 1 < xs.length) : (above w parent xs).length < xs.length := by
  rw [length_above, Nat.div_lt_iff_lt_mul (by omega)]
  obtain ⟨a, ha⟩ : ∃ a, xs.length = a + 2 := ⟨xs.length - 2, by omega⟩
  obtain ⟨b, rfl⟩ : ∃ b, w = b + 2 := ⟨w - 2, by omega⟩
  rw [ha, show (a + 2) * (b + 2) = a * b + 2 * a + 2 * b + 4 by ring]
  omega

theorem above_ne_nil (hw : 0 < w) (h : xs ≠ []) : above w parent xs ≠ [] := by
  have hpos := List.length_pos_of_ne_nil h
  rw [← List.length_pos_iff, length_above]
  exact Nat.div_pos (by omega) hw

theorem length_top (hw : 2 ≤ w) (fuel : Nat) (h : xs ≠ []) (hfuel : xs.length ≤ fuel + 1) :
    (top w parent fuel xs).length = 1 := by
  induction fuel generalizing xs with
  | zero =>
    have hpos := List.length_pos_of_ne_nil h
    rw [top]
    omega
  | succ fuel ih =>
    rw [top]
    split
    next hle =>
      have hpos := List.length_pos_of_ne_nil h
      omega
    next hgt =>
      have hlt : (above w parent xs).length < xs.length := length_above_lt hw (Nat.lt_of_not_le hgt)
      exact ih (above_ne_nil (by omega) h) (by omega)

theorem top_mem_tree (w : Nat) (parent : List α → α) (fuel : Nat) (xs : List α) :
    top w parent fuel xs ∈ tree w parent fuel xs := by
  induction fuel generalizing xs with
  | zero => exact List.mem_singleton_self _
  | succ fuel ih =>
    rw [top, tree]
    split
    · exact List.mem_singleton_self _
    · exact List.mem_append_right _ (ih _)

/-! ### A node stands in one group -/

/-- The assumptions on a level `xs` with the groups `t` over it: different
    groups have different parents, and no node of the level is a parent. -/
structure Proper (parent : List α → α) (xs : List α) (t : List (List α)) : Prop where
  nodup : xs.Nodup
  injective : ∀ g ∈ t, ∀ g' ∈ t, parent g = parent g' → g = g'
  lowest : ∀ x ∈ xs, ∀ g ∈ t, parent g ≠ x

theorem mem_or_eq_parent {fuel : Nat} {g : List α} (hg : g ∈ tree w parent fuel xs) {x : α} (hx : x ∈ g) :
    x ∈ xs ∨ ∃ g' ∈ tree w parent fuel xs, x = parent g' := by
  induction fuel generalizing xs with
  | zero =>
    rw [tree, List.mem_singleton] at hg
    exact .inl (hg ▸ hx)
  | succ fuel ih =>
    rw [tree] at hg ⊢
    split at hg
    next hle =>
      rw [List.mem_singleton] at hg
      exact .inl (hg ▸ hx)
    next hgt =>
      rw [if_neg hgt]
      rcases List.mem_append.mp hg with hlow | hhigh
      · obtain ⟨i, -, rfl⟩ := mem_groups.mp hlow
        exact .inl (mem_of_mem_group hx)
      · right
        rcases ih hhigh with habove | ⟨g', hg', heq⟩
        · obtain ⟨g', hg', rfl⟩ := List.mem_map.mp habove
          exact ⟨g', List.mem_append_left _ hg', rfl⟩
        · exact ⟨g', List.mem_append_right _ hg', heq⟩

theorem ne_nil_of_mem_tree (hw : 0 < w) {fuel : Nat} (h : xs ≠ []) {g : List α} (hg : g ∈ tree w parent fuel xs) :
    g ≠ [] := by
  induction fuel generalizing xs with
  | zero =>
    rw [tree, List.mem_singleton] at hg
    exact hg ▸ h
  | succ fuel ih =>
    rw [tree] at hg
    split at hg
    next =>
      rw [List.mem_singleton] at hg
      exact hg ▸ h
    next =>
      rcases List.mem_append.mp hg with hlow | hhigh
      · exact group_ne_nil hw hlow
      · exact ih (above_ne_nil hw h) hhigh

theorem mem_tree_cases (hw : 0 < w) {fuel : Nat} (h : xs ≠ []) {g : List α} (hg : g ∈ tree w parent fuel xs)
    (hfuel : xs.length ≤ fuel + 1) : g ∈ groups w xs ∨ ∀ x ∈ g, ∃ g', x = parent g' := by
  have hsingle : xs.length ≤ 1 → g = xs → g ∈ groups w xs := by
    intro hle hgx
    have hpos := List.length_pos_of_ne_nil h
    refine mem_groups.mpr ⟨0, Nat.div_pos (by omega) hw, ?_⟩
    rw [group_eq_take, Nat.zero_mul, List.drop_zero, List.take_of_length_le (by omega), hgx]
  cases fuel with
  | zero => exact .inl (hsingle hfuel (List.mem_singleton.mp hg))
  | succ fuel =>
    rw [tree] at hg
    split at hg
    next hle => exact .inl (hsingle hle (List.mem_singleton.mp hg))
    next =>
      rcases List.mem_append.mp hg with hlow | hhigh
      · exact .inl hlow
      · right
        intro x hx
        rcases mem_or_eq_parent hhigh hx with habove | ⟨g', -, heq⟩
        · obtain ⟨g', -, heq⟩ := List.mem_map.mp habove
          exact ⟨g', heq.symm⟩
        · exact ⟨g', heq⟩

theorem length_le_of_mem_tree (hw : 2 ≤ w) {fuel : Nat} (hfuel : xs.length ≤ fuel + 1) {g : List α}
    (hg : g ∈ tree w parent fuel xs) : g.length ≤ w := by
  induction fuel generalizing xs with
  | zero =>
    obtain rfl := List.mem_singleton.mp hg
    exact hfuel.trans (Nat.le_of_succ_le hw)
  | succ fuel ih =>
    rw [tree] at hg
    split at hg
    next hle =>
      obtain rfl := List.mem_singleton.mp hg
      exact hle.trans (Nat.le_of_succ_le hw)
    next hgt =>
      rcases List.mem_append.mp hg with hlow | hhigh
      · obtain ⟨i, -, rfl⟩ := mem_groups.mp hlow
        exact length_group_le _ _ _
      · have hlt : (above w parent xs).length < xs.length := length_above_lt hw (Nat.lt_of_not_le hgt)
        exact ih (by omega) hhigh

theorem Proper.next (hw : 0 < w) {fuel : Nat}
    (h : Proper parent xs (groups w xs ++ tree w parent fuel (above w parent xs))) :
    Proper parent (above w parent xs) (tree w parent fuel (above w parent xs)) where
  nodup := by
    refine List.Nodup.map_on ?_ (nodup_groups hw h.nodup)
    intro g hg g' hg' heq
    exact h.injective g (List.mem_append_left _ hg) g' (List.mem_append_left _ hg') heq
  injective g hg g' hg' heq := h.injective g (List.mem_append_right _ hg) g' (List.mem_append_right _ hg') heq
  lowest := by
    intro y hy g hg heq
    obtain ⟨g₀, hg₀, rfl⟩ := List.mem_map.mp hy
    obtain rfl : g = g₀ := h.injective g (List.mem_append_right _ hg) g₀ (List.mem_append_left _ hg₀) heq
    -- the group would hold nodes of the level, and these are no parents
    obtain ⟨x, hx⟩ := List.exists_mem_of_ne_nil g (group_ne_nil hw hg₀)
    obtain ⟨i, -, rfl⟩ := mem_groups.mp hg₀
    have hmem := mem_of_mem_group hx
    rcases mem_or_eq_parent hg hx with habove | ⟨g', hg', hparent⟩
    · obtain ⟨g', hg', hparent⟩ := List.mem_map.mp habove
      exact h.lowest x hmem g' (List.mem_append_left _ hg') hparent
    · exact h.lowest x hmem g' (List.mem_append_right _ hg') hparent.symm

theorem Proper.disjoint {fuel : Nat}
    (h : Proper parent xs (groups w xs ++ tree w parent fuel (above w parent xs))) {g g' : List α}
    (hg : g ∈ groups w xs) (hg' : g' ∈ tree w parent fuel (above w parent xs)) {x : α} (hx : x ∈ g) : x ∉ g' := by
  intro hx'
  obtain ⟨i, -, rfl⟩ := mem_groups.mp hg
  have hmem := mem_of_mem_group hx
  rcases mem_or_eq_parent hg' hx' with habove | ⟨g₁, hg₁, hparent⟩
  · obtain ⟨g₁, hg₁, hparent⟩ := List.mem_map.mp habove
    exact h.lowest x hmem g₁ (List.mem_append_left _ hg₁) hparent
  · exact h.lowest x hmem g₁ (List.mem_append_right _ hg₁) hparent.symm

/-- **A node stands in one group only.** -/
theorem eq_of_mem_tree (hw : 0 < w) {fuel : Nat} (h : Proper parent xs (tree w parent fuel xs))
    {g g' : List α} (hg : g ∈ tree w parent fuel xs) (hg' : g' ∈ tree w parent fuel xs) {x : α} (hx : x ∈ g)
    (hx' : x ∈ g') : g = g' := by
  induction fuel generalizing xs with
  | zero =>
    rw [tree, List.mem_singleton] at hg hg'
    exact hg.trans hg'.symm
  | succ fuel ih =>
    rw [tree] at h hg hg'
    split at hg
    next hle =>
      rw [if_pos hle, List.mem_singleton] at hg'
      exact (List.mem_singleton.mp hg).trans hg'.symm
    next hgt =>
      rw [if_neg hgt] at h hg'
      rcases List.mem_append.mp hg with hlow | hhigh
      · rcases List.mem_append.mp hg' with hlow' | hhigh'
        · obtain ⟨i, -, rfl⟩ := mem_groups.mp hlow
          obtain ⟨j, -, rfl⟩ := mem_groups.mp hlow'
          rw [group_unique h.nodup hx hx']
        · exact absurd hx' (h.disjoint hlow hhigh' hx)
      · rcases List.mem_append.mp hg' with hlow' | hhigh'
        · exact absurd hx (h.disjoint hlow' hhigh hx')
        · exact ih (h.next hw) hhigh hhigh'

theorem nodup_tree (hw : 0 < w) {fuel : Nat} (h : Proper parent xs (tree w parent fuel xs)) :
    (tree w parent fuel xs).Nodup := by
  induction fuel generalizing xs with
  | zero => exact List.nodup_singleton _
  | succ fuel ih =>
    rw [tree] at h ⊢
    split
    next => exact List.nodup_singleton _
    next hgt =>
      rw [if_neg hgt] at h
      refine List.Nodup.append (nodup_groups hw h.nodup) (ih (h.next hw)) ?_
      intro g hg hg'
      obtain ⟨x, hx⟩ := List.exists_mem_of_ne_nil g (group_ne_nil hw hg)
      exact h.disjoint hg hg' hx hx

/-! ### The way up -/

/-- The way from a node up to a node that stands in no group, with the siblings
    before and after it at every step. -/
inductive Climb (parent : List α → α) (t : List (List α)) : α → List (List α × List α) → α → Prop
  | stop {x : α} (h : ∀ g ∈ t, x ∉ g) : Climb parent t x [] x
  | step {x root : α} {left right : List α} {path : List (List α × List α)} (hmem : left ++ x :: right ∈ t)
      (hfirst : x ∉ left) (h : Climb parent t (parent (left ++ x :: right)) path root) :
      Climb parent t x ((left, right) :: path) root

theorem parent_top_not_mem (hw : 0 < w) {fuel : Nat} (h : Proper parent xs (tree w parent fuel xs))
    {g : List α} (hg : g ∈ tree w parent fuel xs) : parent (top w parent fuel xs) ∉ g := by
  induction fuel generalizing xs with
  | zero =>
    intro hmem
    rw [tree, List.mem_singleton] at hg
    subst hg
    exact h.lowest _ hmem g (List.mem_singleton_self _) rfl
  | succ fuel ih =>
    intro hmem
    rw [tree] at h hg
    rw [top] at hmem
    split at hg
    next hle =>
      rw [if_pos hle] at hmem h
      rw [List.mem_singleton] at hg
      subst hg
      exact h.lowest _ hmem g (List.mem_singleton_self _) rfl
    next hgt =>
      rw [if_neg hgt] at hmem h
      rcases List.mem_append.mp hg with hlow | hhigh
      · obtain ⟨i, -, rfl⟩ := mem_groups.mp hlow
        exact h.lowest _ (mem_of_mem_group hmem) _ (List.mem_append_right _ (top_mem_tree w parent fuel _)) rfl
      · exact ih (h.next hw) hhigh hmem

theorem climb_step {t : List (List α)} {g : List α} (hg : g ∈ t) {x root : α} (hx : x ∈ g) {n : Nat}
    (h : ∃ path, Climb parent t (parent g) path root ∧ path.length ≤ n) :
    ∃ path, Climb parent t x path root ∧ path.length ≤ n + 1 := by
  obtain ⟨left, right, rfl, hfirst⟩ := List.eq_append_cons_of_mem hx
  obtain ⟨path, hclimb, hlength⟩ := h
  exact ⟨(left, right) :: path, .step hg hfirst hclimb, Nat.succ_le_succ hlength⟩

/-- **Every node of the lowest level has its way up to the root**, no longer than
    there are groups. -/
theorem exists_climb (hw : 0 < w) {fuel : Nat} {t : List (List α)} (hsub : ∀ g ∈ tree w parent fuel xs, g ∈ t)
    (hroot : ∀ g ∈ t, parent (top w parent fuel xs) ∉ g) {x : α} (hx : x ∈ xs) :
    ∃ path, Climb parent t x path (parent (top w parent fuel xs)) ∧
      path.length ≤ (tree w parent fuel xs).length := by
  induction fuel generalizing xs x with
  | zero =>
    refine climb_step (hsub xs (List.mem_singleton_self _)) hx ⟨[], .stop hroot, ?_⟩
    exact Nat.zero_le _
  | succ fuel ih =>
    rw [tree] at hsub ⊢
    rw [top] at hroot ⊢
    split
    next hle =>
      rw [if_pos hle] at hsub hroot
      exact climb_step (hsub xs (List.mem_singleton_self _)) hx ⟨[], .stop hroot, Nat.zero_le _⟩
    next hgt =>
      rw [if_neg hgt] at hsub hroot
      obtain ⟨g, hg, hxg⟩ := exists_group_of_mem hw hx
      obtain ⟨path, hclimb, hlength⟩ := climb_step (hsub g (List.mem_append_left _ hg)) hxg
        (ih (fun g' hg' => hsub g' (List.mem_append_right _ hg')) hroot (List.mem_map_of_mem hg))
      refine ⟨path, hclimb, hlength.trans ?_⟩
      rw [List.length_append, Nat.add_comm]
      exact Nat.add_le_add_right (List.length_pos_of_mem hg) _

end

/-! ### From the last level down -/

section Down
variable {w : Nat} {xs ys : List α} {parent : List α → α}

theorem exists_height (w : Nat) (parent : List α → α) (fuel : Nat) (xs : List α) :
    ∃ n, top w parent fuel xs = (above w parent)^[n] xs ∧
      ∀ k < n, ∀ g ∈ groups w ((above w parent)^[k] xs), g ∈ tree w parent fuel xs := by
  induction fuel generalizing xs with
  | zero => exact ⟨0, rfl, fun k hk => absurd hk (Nat.not_lt_zero k)⟩
  | succ fuel ih =>
    rw [top, tree]
    split
    · exact ⟨0, rfl, fun k hk => absurd hk (Nat.not_lt_zero k)⟩
    · obtain ⟨n, htop, hgroups⟩ := ih (above w parent xs)
      refine ⟨n + 1, htop, ?_⟩
      rintro (_ | k) hk g hg
      · exact List.mem_append_left _ hg
      · exact List.mem_append_right _ (hgroups k (Nat.lt_of_succ_lt_succ hk) g hg)

theorem ext_group (hw : 0 < w) (h : ∀ i, group w xs i = group w ys i) : xs = ys := by
  apply List.ext_getElem?
  intro k
  have hk := congrArg (·[k % w]?) (h (k / w))
  simpa only [group_eq_take, List.getElem?_take_of_lt (Nat.mod_lt k hw), List.getElem?_drop, Nat.div_add_mod'] using hk

theorem parents_of_above (h : above w parent xs = above w parent ys) :
    (groups w xs).length = (groups w ys).length ∧
      ∀ i < (groups w xs).length, parent (group w xs i) = parent (group w ys i) := by
  have hlength := congrArg List.length h
  rw [above, above, List.length_map, List.length_map] at hlength
  refine ⟨hlength, fun i hi => ?_⟩
  have hplace := congrArg (·[i]?) h
  rw [length_groups, length_groups] at hlength
  rw [length_groups] at hi
  simpa [above, groups, ← hlength, hi] using hplace

/-- **Where parents tell groups apart, a level is told by the one above it.** -/
theorem eq_of_above (hw : 0 < w) (h : above w parent xs = above w parent ys)
    (hgroup : ∀ i < (groups w xs).length, parent (group w xs i) = parent (group w ys i) →
      group w xs i = group w ys i) : xs = ys := by
  obtain ⟨hlength, hparents⟩ := parents_of_above h
  have hend : ∀ (zs : List α) (i : Nat), (groups w zs).length ≤ i → group w zs i = [] := by
    intro zs i hi
    rw [length_groups] at hi
    have hlt := (Nat.div_lt_iff_lt_mul hw).mp (Nat.lt_succ_of_le hi)
    rw [Nat.succ_mul] at hlt
    rw [← List.length_eq_zero_iff, length_group]
    omega
  refine ext_group hw fun i => ?_
  rcases Nat.lt_or_ge i (groups w xs).length with hi | hi
  · exact hgroup i hi (hparents i hi)
  · rw [hend xs i hi, hend ys i (hlength ▸ hi)]

theorem eq_of_iterate_above (hw : 0 < w) {n : Nat} (h : (above w parent)^[n] xs = (above w parent)^[n] ys)
    (hgroups : ∀ k < n, ∀ g ∈ groups w ((above w parent)^[k] xs), ∀ g' ∈ groups w ((above w parent)^[k] ys),
      parent g = parent g' → g = g') : xs = ys := by
  induction n with
  | zero => exact h
  | succ n ih =>
    rw [Function.iterate_succ_apply', Function.iterate_succ_apply'] at h
    have hlength := (parents_of_above h).1
    refine ih (eq_of_above hw h fun i hi => ?_) fun k hk => hgroups k (Nat.lt_succ_of_lt hk)
    rw [length_groups] at hi hlength
    exact hgroups n (Nat.lt_succ_self n) _ (mem_groups.mpr ⟨i, hi, rfl⟩) _
      (mem_groups.mpr ⟨i, by rwa [length_groups, hlength] at *, rfl⟩)

end Down

end HieraChain.Merkle
