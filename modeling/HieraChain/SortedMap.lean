/-
  HieraChain/SortedMap.lean
  =========================
  **Finite maps as lists of entries in the order of their keys**, the model of
  `std::map` where the order of iteration matters.

  A map carries the proof that its keys increase, so two maps with the same
  lookups are the same list (`ext_find?`).  What an insertion does to a sum
  over the entries is `sum_insert`.
-/
import Mathlib.Data.List.Basic
import Mathlib.Order.Defs.LinearOrder
import Mathlib.Algebra.Ring.Int.Defs
import Mathlib.Order.Lattice

namespace HieraChain

structure SortedMap (κ ν : Type) [LinearOrder κ] where
  entries : List (κ × ν)
  sorted : entries.Pairwise fun a b => a.1 < b.1
  deriving DecidableEq

namespace SortedMap

variable {κ ν : Type} [LinearOrder κ]

def empty : SortedMap κ ν := ⟨[], List.Pairwise.nil⟩

def size (m : SortedMap κ ν) : Nat := m.entries.length

def keys (m : SortedMap κ ν) : List κ := m.entries.map Prod.fst

/-! ### Lookup -/

def lookup (k : κ) : List (κ × ν) → Option ν
  | [] => none
  | e :: l => if e.1 = k then some e.2 else lookup k l

def find? (m : SortedMap κ ν) (k : κ) : Option ν := lookup k m.entries

def contains (m : SortedMap κ ν) (k : κ) : Bool := (m.find? k).isSome

@[simp] theorem find?_empty (k : κ) : (empty : SortedMap κ ν).find? k = none := rfl

theorem lookup_of_mem {k : κ} {v : ν} {l : List (κ × ν)}
    (h : l.Pairwise fun a b => a.1 < b.1) (hmem : (k, v) ∈ l) : lookup k l = some v := by
  induction l with
  | nil => cases hmem
  | cons e l ih =>
    rw [List.pairwise_cons] at h
    rcases List.mem_cons.mp hmem with rfl | hmem
    · exact if_pos rfl
    · have hlt : e.1 < k := h.1 (k, v) hmem
      rw [lookup, if_neg (ne_of_lt hlt)]
      exact ih h.2 hmem

theorem mem_of_lookup {k : κ} {v : ν} {l : List (κ × ν)} (h : lookup k l = some v) :
    (k, v) ∈ l := by
  induction l with
  | nil => cases h
  | cons e l ih =>
    rw [lookup] at h
    split at h
    next hk =>
      cases h
      rw [← hk]
      exact List.mem_cons_self
    next => exact List.mem_cons_of_mem _ (ih h)

theorem mem_entries_iff {m : SortedMap κ ν} {k : κ} {v : ν} :
    (k, v) ∈ m.entries ↔ m.find? k = some v :=
  ⟨lookup_of_mem m.sorted, mem_of_lookup⟩

theorem mem_keys_iff {m : SortedMap κ ν} {k : κ} : k ∈ m.keys ↔ ∃ v, m.find? k = some v := by
  rw [keys, List.mem_map]
  constructor
  · rintro ⟨e, he, rfl⟩
    exact ⟨e.2, mem_entries_iff.mp he⟩
  · rintro ⟨v, hv⟩
    exact ⟨(k, v), mem_entries_iff.mpr hv, rfl⟩

theorem ext_find? {m m' : SortedMap κ ν} (h : ∀ k, m.find? k = m'.find? k) : m = m' := by
  have hnodup : ∀ l : List (κ × ν), (l.Pairwise fun a b => a.1 < b.1) → l.Nodup := fun l hl =>
    hl.imp fun hlt heq => absurd (congrArg Prod.fst heq) (ne_of_lt hlt)
  have hmem : ∀ e, e ∈ m.entries ↔ e ∈ m'.entries := by
    intro e
    have hm := mem_entries_iff (m := m) (k := e.1) (v := e.2)
    have hm' := mem_entries_iff (m := m') (k := e.1) (v := e.2)
    rw [h e.1] at hm
    exact hm.trans hm'.symm
  have hperm : m.entries.Perm m'.entries :=
    (List.perm_ext_iff_of_nodup (hnodup _ m.sorted) (hnodup _ m'.sorted)).mpr hmem
  have heq : m.entries = m'.entries := by
    refine List.Perm.eq_of_pairwise (fun a b _ _ hab hba => ?_) m.sorted m'.sorted hperm
    exact absurd hab (not_lt_of_gt hba)
  cases m
  cases m'
  cases heq
  rfl

/-! ### Insertion -/

/-- Insert before the first larger key, replacing the value of an equal one. -/
def insertInto (k : κ) (v : ν) : List (κ × ν) → List (κ × ν)
  | [] => [(k, v)]
  | e :: l =>
    if k < e.1 then (k, v) :: e :: l
    else if k = e.1 then (k, v) :: l
    else e :: insertInto k v l

theorem mem_insertInto {k : κ} {v : ν} {e : κ × ν} {l : List (κ × ν)}
    (h : e ∈ insertInto k v l) : e = (k, v) ∨ e ∈ l := by
  induction l with
  | nil => exact Or.inl (List.mem_singleton.mp h)
  | cons e' l ih =>
    rw [insertInto] at h
    split at h
    · exact List.mem_cons.mp h
    · split at h
      · exact (List.mem_cons.mp h).imp id (List.mem_cons_of_mem _)
      · rcases List.mem_cons.mp h with rfl | h
        · exact Or.inr List.mem_cons_self
        · exact (ih h).imp id (List.mem_cons_of_mem _)

theorem sorted_insertInto {k : κ} {v : ν} {l : List (κ × ν)}
    (h : l.Pairwise fun a b => a.1 < b.1) : (insertInto k v l).Pairwise fun a b => a.1 < b.1 := by
  induction l with
  | nil => exact List.pairwise_singleton _ _
  | cons e l ih =>
    have hcons := List.pairwise_cons.mp h
    rw [insertInto]
    split
    next hlt =>
      refine List.pairwise_cons.mpr ⟨fun e' he' => ?_, h⟩
      rcases List.mem_cons.mp he' with rfl | he'
      · exact hlt
      · exact lt_trans hlt (hcons.1 e' he')
    next hge =>
    split
    next heq =>
      refine List.pairwise_cons.mpr ⟨fun e' he' => ?_, hcons.2⟩
      rw [heq]
      exact hcons.1 e' he'
    next hne =>
      refine List.pairwise_cons.mpr ⟨fun e' he' => ?_, ih hcons.2⟩
      rcases mem_insertInto he' with rfl | he'
      · exact lt_of_le_of_ne (not_lt.mp hge) (Ne.symm hne)
      · exact hcons.1 e' he'

/-- `m[k] = v`. -/
def insert (m : SortedMap κ ν) (k : κ) (v : ν) : SortedMap κ ν :=
  ⟨insertInto k v m.entries, sorted_insertInto m.sorted⟩

theorem lookup_insertInto (k k' : κ) (v : ν) (l : List (κ × ν)) :
    lookup k' (insertInto k v l) = if k' = k then some v else lookup k' l := by
  induction l with
  | nil =>
    change (if k = k' then some v else none) = if k' = k then some v else none
    by_cases h : k' = k
    · rw [if_pos h.symm, if_pos h]
    · rw [if_neg (Ne.symm h), if_neg h]
  | cons e l ih =>
    rw [insertInto]
    split
    next hlt =>
      rw [lookup]
      by_cases h : k' = k
      · rw [if_pos h.symm, if_pos h]
      · rw [if_neg (Ne.symm h), if_neg h]
    next hge =>
    split
    next heq =>
      rw [lookup, lookup]
      by_cases h : k' = k
      · rw [if_pos h.symm, if_pos h]
      · rw [if_neg (Ne.symm h), if_neg h, if_neg (fun he => h (by rw [← he, heq]))]
    next hne =>
      rw [lookup, lookup, ih]
      by_cases h : k' = k
      · rw [if_pos h, if_neg (fun he => hne (by rw [← h, he])), if_pos h]
      · rw [if_neg h, if_neg h]

theorem find?_insert (m : SortedMap κ ν) (k k' : κ) (v : ν) :
    (m.insert k v).find? k' = if k' = k then some v else m.find? k' :=
  lookup_insertInto k k' v m.entries

@[simp] theorem find?_insert_self (m : SortedMap κ ν) (k : κ) (v : ν) :
    (m.insert k v).find? k = some v := by
  rw [find?_insert, if_pos rfl]

theorem find?_insert_of_ne (m : SortedMap κ ν) {k k' : κ} (v : ν) (h : k' ≠ k) :
    (m.insert k v).find? k' = m.find? k' := by
  rw [find?_insert, if_neg h]

theorem insert_insert (m : SortedMap κ ν) (k : κ) (v w : ν) :
    (m.insert k v).insert k w = m.insert k w := by
  apply ext_find?
  intro k'
  simp only [find?_insert]
  split <;> rfl

theorem entries_insert_last {m : SortedMap κ ν} {k : κ} (h : ∀ e ∈ m.entries, e.1 < k) (v : ν) :
    (m.insert k v).entries = m.entries ++ [(k, v)] := by
  obtain ⟨l, hl⟩ := m
  change insertInto k v l = l ++ [(k, v)]
  replace h : ∀ e ∈ l, e.1 < k := h
  clear hl
  induction l with
  | nil => rfl
  | cons e l ih =>
    have he := h e List.mem_cons_self
    rw [insertInto, if_neg (not_lt.mpr he.le), if_neg (ne_of_gt he),
      ih fun e' he' => h e' (List.mem_cons_of_mem e he'), List.cons_append]

theorem entries_insert_of_last {m : SortedMap κ ν} {l : List (κ × ν)} {k : κ} {w : ν}
    (h : m.entries = l ++ [(k, w)]) (v : ν) : (m.insert k v).entries = l ++ [(k, v)] := by
  have hbelow : ∀ e ∈ l, e.1 < k := by
    intro e he
    have hsorted := m.sorted
    rw [h] at hsorted
    exact (List.pairwise_append.mp hsorted).2.2 e he (k, w) List.mem_cons_self
  change insertInto k v m.entries = l ++ [(k, v)]
  rw [h]
  clear h
  induction l with
  | nil =>
    rw [List.nil_append, insertInto, if_neg (lt_irrefl k), if_pos rfl]
    rfl
  | cons e l ih =>
    have he := hbelow e List.mem_cons_self
    rw [List.cons_append, insertInto, if_neg (not_lt.mpr he.le), if_neg (ne_of_gt he),
      ih fun e' he' => hbelow e' (List.mem_cons_of_mem e he'), List.cons_append]

/-! ### Insertion of many -/

def insertAll (m : SortedMap κ ν) (l : List (κ × ν)) : SortedMap κ ν :=
  l.foldl (fun m e => m.insert e.1 e.2) m

theorem find?_insertAll (m m' : SortedMap κ ν) (k : κ) :
    (m.insertAll m'.entries).find? k = (m'.find? k).or (m.find? k) := by
  obtain ⟨l, hl⟩ := m'
  change (m.insertAll l).find? k = (lookup k l).or (m.find? k)
  induction l generalizing m with
  | nil => rfl
  | cons e l ih =>
    rw [List.pairwise_cons] at hl
    have hrest := ih (m.insert e.1 e.2) hl.2
    rw [find?_insert] at hrest
    rw [lookup]
    by_cases hk : k = e.1
    · have hnone : lookup k l = none := by
        cases h : lookup k l with
        | none => rfl
        | some w => exact absurd (hl.1 (k, w) (mem_of_lookup h)) (by rw [hk]; exact lt_irrefl _)
      rw [if_pos hk, hnone] at hrest
      rw [if_pos hk.symm]
      exact hrest
    · rw [if_neg hk] at hrest
      rw [if_neg (Ne.symm hk)]
      exact hrest

theorem find?_insertAll_of_notMem (m : SortedMap κ ν) {l : List (κ × ν)} {k : κ} (h : k ∉ l.map Prod.fst) :
    (m.insertAll l).find? k = m.find? k := by
  induction l generalizing m with
  | nil => rfl
  | cons e l ih =>
    rw [List.map_cons, List.mem_cons, not_or] at h
    have hrest := ih (m.insert e.1 e.2) h.2
    rw [find?_insert_of_ne m e.2 h.1] at hrest
    exact hrest

theorem find?_insertAll_of_mem (m : SortedMap κ ν) {l : List (κ × ν)} (hnodup : (l.map Prod.fst).Nodup)
    {k : κ} {v : ν} (h : (k, v) ∈ l) : (m.insertAll l).find? k = some v := by
  induction l generalizing m with
  | nil => cases h
  | cons e l ih =>
    rw [List.map_cons, List.nodup_cons] at hnodup
    rcases List.mem_cons.mp h with rfl | h
    · have hrest := find?_insertAll_of_notMem (m.insert k v) hnodup.1
      rw [find?_insert_self] at hrest
      exact hrest
    · exact ih (m.insert e.1 e.2) hnodup.2 h

/-! ### Selection -/

/-- The entries that `f` keeps, with the values it gives them. -/
def filterMap (f : κ → ν → Option ν) (m : SortedMap κ ν) : SortedMap κ ν where
  entries := m.entries.filterMap fun e => (f e.1 e.2).map fun v => (e.1, v)
  sorted := by
    apply List.Pairwise.filterMap _ _ m.sorted
    intro e e' hlt b hb b' hb'
    obtain ⟨v, -, rfl⟩ := Option.map_eq_some_iff.mp hb
    obtain ⟨v', -, rfl⟩ := Option.map_eq_some_iff.mp hb'
    exact hlt

theorem find?_filterMap (f : κ → ν → Option ν) (m : SortedMap κ ν) (k : κ) :
    (m.filterMap f).find? k = (m.find? k).bind (f k) := by
  refine Option.ext fun v => ?_
  rw [← mem_entries_iff, Option.bind_eq_some_iff]
  constructor
  · intro hmem
    obtain ⟨e, he, heq⟩ := List.mem_filterMap.mp hmem
    obtain ⟨w, hw, hpair⟩ := Option.map_eq_some_iff.mp heq
    cases hpair
    exact ⟨e.2, mem_entries_iff.mp he, hw⟩
  · rintro ⟨w, hw, hf⟩
    refine List.mem_filterMap.mpr ⟨(k, w), mem_entries_iff.mpr hw, ?_⟩
    rw [hf, Option.map_some]

theorem filterMap_filterMap (f g : κ → ν → Option ν) (m : SortedMap κ ν) :
    (m.filterMap f).filterMap g = m.filterMap fun k v => (f k v).bind (g k) := by
  have hentries : ((m.filterMap f).filterMap g).entries
      = (m.filterMap fun k v => (f k v).bind (g k)).entries := by
    change (m.entries.filterMap _).filterMap _ = m.entries.filterMap _
    rw [List.filterMap_filterMap]
    congr 1
    funext e
    change ((f e.1 e.2).map _).bind _ = ((f e.1 e.2).bind (g e.1)).map _
    cases f e.1 e.2 with
    | none => rfl
    | some v => rfl
  cases h : (m.filterMap f).filterMap g
  cases h' : m.filterMap fun k v => (f k v).bind (g k)
  rw [h, h'] at hentries
  congr

/-! ### Sums over the entries -/

theorem sum_insert (f : κ × ν → Int) (m : SortedMap κ ν) (k : κ) (v : ν) :
    ((m.insert k v).entries.map f).sum
      = (m.entries.map f).sum + f (k, v) - ((m.find? k).map fun w => f (k, w)).getD 0 := by
  obtain ⟨l, hl⟩ := m
  change ((insertInto k v l).map f).sum
    = (l.map f).sum + f (k, v) - ((lookup k l).map fun w => f (k, w)).getD 0
  induction l with
  | nil => simp [insertInto, lookup]
  | cons e l ih =>
    rw [List.pairwise_cons] at hl
    rw [insertInto, lookup]
    split
    next hlt =>
      have hnone : lookup k l = none := by
        cases h : lookup k l with
        | none => rfl
        | some w =>
          have hgt : e.1 < k := hl.1 (k, w) (mem_of_lookup h)
          exact absurd hlt (not_lt_of_gt hgt)
      rw [if_neg (ne_of_gt hlt), hnone]
      simp only [List.map_cons, List.sum_cons, Option.map_none, Option.getD_none]
      omega
    next hge =>
    split
    next heq =>
      rw [if_pos heq.symm]
      have he : f (k, e.2) = f e := by rw [heq]
      simp only [List.map_cons, List.sum_cons, Option.map_some, Option.getD_some, he]
      omega
    next hne =>
      rw [if_neg (Ne.symm hne)]
      have hrest := ih hl.2
      simp only [List.map_cons, List.sum_cons, hrest]
      omega

end SortedMap

end HieraChain
