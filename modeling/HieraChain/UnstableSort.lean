/-
  HieraChain/UnstableSort.lean
  ============================
  **What a sort that is not stable determines.**

  `SortOf less xs ys` is the contract of `std::sort` and `tbb::parallel_sort`:
  `ys` is some rearrangement of `xs` without an inversion.  When `less`
  compares keys, every sort of every rearrangement of `xs` shows the same
  contents exactly when equal keys come with equal contents
  (`sortOf_determined_iff`).
-/
import Mathlib.Data.List.Basic
import Mathlib.Data.List.Perm.Basic
import Mathlib.Order.Defs.LinearOrder
import Mathlib.Order.Lattice

namespace HieraChain

def SortOf {α : Type} (less : α → α → Bool) (xs ys : List α) : Prop :=
  ys.Perm xs ∧ ys.Pairwise fun a b => less b a = false

section Keys

variable {α κ γ : Type} [LinearOrder κ] {less : α → α → Bool} {key : α → κ}

theorem SortOf.perm_left {xs xs' ys : List α} (h : SortOf less xs ys) (hperm : xs.Perm xs') :
    SortOf less xs' ys :=
  ⟨h.1.trans hperm, h.2⟩

theorem SortOf.keys_le (hless : ∀ a b, less a b = decide (key a < key b)) {xs ys : List α}
    (h : SortOf less xs ys) : (ys.map key).Pairwise (· ≤ ·) := by
  refine List.pairwise_map.mpr (h.2.imp fun hab => ?_)
  rw [hless] at hab
  exact not_lt.mp (of_decide_eq_false hab)

theorem SortOf.keys_eq (hless : ∀ a b, less a b = decide (key a < key b)) {xs ys ys' : List α}
    (h : SortOf less xs ys) (h' : SortOf less xs ys') : ys.map key = ys'.map key := by
  have hperm : (ys.map key).Perm (ys'.map key) := (h.1.trans h'.1.symm).map key
  exact List.Perm.eq_of_pairwise (fun a b _ _ => le_antisymm) (h.keys_le hless) (h'.keys_le hless) hperm

theorem sortOf_mergeSort (hless : ∀ a b, less a b = decide (key a < key b)) (xs : List α) :
    SortOf less xs (xs.mergeSort fun a b => !less b a) := by
  refine ⟨List.mergeSort_perm _ _, ?_⟩
  have hsorted := @List.pairwise_mergeSort _ (fun a b => !less b a)
    (fun a b c hab hbc => by
      rw [hless, Bool.not_eq_true', decide_eq_false_iff_not, not_lt] at *
      exact le_trans hab hbc)
    (fun a b => by
      rw [hless, hless, Bool.or_eq_true, Bool.not_eq_true', Bool.not_eq_true',
        decide_eq_false_iff_not, decide_eq_false_iff_not, not_lt, not_lt]
      exact le_total _ _) xs
  exact hsorted.imp fun hab => by
    rw [Bool.not_eq_true'] at hab
    exact hab

theorem filter_mergeSort (hless : ∀ a b, less a b = decide (key a < key b)) (xs : List α) (k : κ) :
    (xs.mergeSort fun a b => !less b a).filter (fun a => decide (key a = k))
      = xs.filter fun a => decide (key a = k) := by
  have htrans : ∀ a b c, (!less b a) = true → (!less c b) = true → (!less c a) = true := by
    intro a b c hab hbc
    rw [hless, Bool.not_eq_true', decide_eq_false_iff_not, not_lt] at *
    exact le_trans hab hbc
  have htotal : ∀ a b, ((!less b a) || (!less a b)) = true := by
    intro a b
    rw [hless, hless, Bool.or_eq_true, Bool.not_eq_true', Bool.not_eq_true',
      decide_eq_false_iff_not, decide_eq_false_iff_not, not_lt, not_lt]
    exact le_total _ _
  have hequal : (xs.filter fun a => decide (key a = k)).Pairwise fun a b => (!less b a) = true := by
    refine List.pairwise_of_forall_mem_list fun a ha b hb => ?_
    have hka : key a = k := of_decide_eq_true (List.mem_filter.mp ha).2
    have hkb : key b = k := of_decide_eq_true (List.mem_filter.mp hb).2
    rw [hless, Bool.not_eq_true', decide_eq_false_iff_not, hka, hkb]
    exact lt_irrefl k
  have hsub := (List.sublist_mergeSort htrans htotal hequal List.filter_sublist).filter
    fun a => decide (key a = k)
  rw [List.filter_filter] at hsub
  simp only [Bool.and_self] at hsub
  refine (hsub.eq_of_length ?_).symm
  exact ((List.mergeSort_perm xs _).filter fun a => decide (key a = k)).length_eq.symm

theorem filter_map_of_maps_eq {k : κ} {content : α → γ} {ys ys' : List α}
    (hkeys : ys.map key = ys'.map key) (hcontents : ys.map content = ys'.map content) :
    (ys.filter fun a => decide (key a = k)).map content
      = (ys'.filter fun a => decide (key a = k)).map content := by
  induction ys generalizing ys' with
  | nil =>
    obtain rfl : ys' = [] := List.map_eq_nil_iff.mp hkeys.symm
    rfl
  | cons a ys ih =>
    cases ys' with
    | nil => cases hkeys
    | cons b ys' =>
      simp only [List.map_cons, List.cons.injEq] at hkeys hcontents
      have hrest := ih hkeys.2 hcontents.2
      by_cases hk : key b = k
      · simp only [List.filter_cons, hkeys.1, hk, decide_true, if_true, List.map_cons, hrest,
          hcontents.1]
      · simp only [List.filter_cons, hkeys.1, hk, decide_false, Bool.false_eq_true, if_false, hrest]

/-- **The contents are determined exactly when equal keys have equal contents.** -/
theorem sortOf_determined_iff (hless : ∀ a b, less a b = decide (key a < key b)) {content : α → γ}
    {xs : List α} :
    (∀ ys ys', SortOf less xs ys → SortOf less xs ys' → ys.map content = ys'.map content)
      ↔ ∀ a ∈ xs, ∀ b ∈ xs, key a = key b → content a = content b := by
  constructor
  · intro hdet a ha b hb hkey
    by_contra hne
    -- put `a` first, then `b` first; a merge sort keeps them so
    obtain ⟨l₁, l₂, rfl⟩ := List.append_of_mem ha
    have hb' : b ∈ l₁ ++ l₂ := by
      rcases List.mem_append.mp hb with hmem | hmem
      · exact List.mem_append_left _ hmem
      · rcases List.mem_cons.mp hmem with rfl | hmem
        · exact absurd rfl hne
        · exact List.mem_append_right _ hmem
    obtain ⟨m₁, m₂, hm⟩ := List.append_of_mem hb'
    have hu : (a :: b :: (m₁ ++ m₂)).Perm (l₁ ++ a :: l₂) := by
      refine List.Perm.trans (List.Perm.cons a ?_) List.perm_middle.symm
      rw [hm]
      exact List.perm_middle.symm
    have hv : (b :: a :: (m₁ ++ m₂)).Perm (l₁ ++ a :: l₂) := (List.Perm.swap a b _).trans hu
    have hsu := (sortOf_mergeSort hless (a :: b :: (m₁ ++ m₂))).perm_left hu
    have hsv := (sortOf_mergeSort hless (b :: a :: (m₁ ++ m₂))).perm_left hv
    have hfilter := filter_map_of_maps_eq (k := key b) (hsu.keys_eq hless hsv) (hdet _ _ hsu hsv)
    rw [filter_mergeSort hless, filter_mergeSort hless] at hfilter
    simp only [List.filter_cons, hkey, decide_true, if_true, List.map_cons, List.cons.injEq] at hfilter
    exact hne hfilter.1
  · intro hequal ys ys' h h'
    have hkeys := h.keys_eq hless h'
    refine List.ext_getElem? fun i => ?_
    have hi : (ys.map key)[i]? = (ys'.map key)[i]? := by rw [hkeys]
    rw [List.getElem?_map, List.getElem?_map] at hi ⊢
    cases hget : ys[i]? with
    | none =>
      rw [hget] at hi
      cases hget' : ys'[i]? with
      | none => rfl
      | some b =>
        rw [hget'] at hi
        cases hi
    | some a =>
      rw [hget] at hi
      cases hget' : ys'[i]? with
      | none =>
        rw [hget'] at hi
        cases hi
      | some b =>
        rw [hget'] at hi
        have ha := h.1.mem_iff.mp (List.mem_of_getElem? hget)
        have hb := h'.1.mem_iff.mp (List.mem_of_getElem? hget')
        exact congrArg some (hequal a ha b hb (Option.some.inj hi))

end Keys

end HieraChain
