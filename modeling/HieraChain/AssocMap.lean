/-
  HieraChain/AssocMap.lean
  ========================
  **Finite maps as lists of entries with distinct keys**, the model of
  `std::unordered_map` and `std::map`.

  A map carries the proof that its keys are distinct, so `size` counts keys.
  New keys go to the end; replacing a value keeps its place.  Everything a
  client needs is stated through `find?` and through membership in `entries`,
  which agree (`mem_entries_iff`).
-/
import Mathlib.Data.List.Nodup
import Mathlib.Data.List.Basic

namespace HieraChain

structure AssocMap (κ ν : Type) where
  entries : List (κ × ν)
  nodup : (entries.map Prod.fst).Nodup

namespace AssocMap

variable {κ ν : Type}

def empty : AssocMap κ ν := ⟨[], List.nodup_nil⟩

def size (m : AssocMap κ ν) : Nat := m.entries.length

/-- Keep the entries that satisfy `p`. -/
def filter (m : AssocMap κ ν) (p : κ → ν → Bool) : AssocMap κ ν where
  entries := m.entries.filter fun e => p e.1 e.2
  nodup := m.nodup.sublist (List.filter_sublist.map Prod.fst)

def mapVal (m : AssocMap κ ν) (f : ν → ν) : AssocMap κ ν where
  entries := m.entries.map fun e => (e.1, f e.2)
  nodup := by
    rw [List.map_map]
    exact m.nodup

theorem mem_filter {m : AssocMap κ ν} {p : κ → ν → Bool} {k : κ} {v : ν} :
    (k, v) ∈ (m.filter p).entries ↔ (k, v) ∈ m.entries ∧ p k v = true := List.mem_filter

theorem mem_mapVal {m : AssocMap κ ν} {f : ν → ν} {k : κ} {v : ν} :
    (k, v) ∈ (m.mapVal f).entries ↔ ∃ w, (k, w) ∈ m.entries ∧ f w = v := by
  simp only [mapVal, List.mem_map]
  constructor
  · rintro ⟨⟨k', w⟩, hmem, heq⟩
    cases heq
    exact ⟨w, hmem, rfl⟩
  · rintro ⟨w, hmem, rfl⟩
    exact ⟨(k, w), hmem, rfl⟩

@[simp] theorem size_mapVal (m : AssocMap κ ν) (f : ν → ν) : (m.mapVal f).size = m.size :=
  List.length_map ..

variable [DecidableEq κ]

def find? (m : AssocMap κ ν) (k : κ) : Option ν :=
  (m.entries.find? fun e => decide (e.1 = k)).map Prod.snd

def contains (m : AssocMap κ ν) (k : κ) : Bool := (m.find? k).isSome

def erase (m : AssocMap κ ν) (k : κ) : AssocMap κ ν := m.filter fun k' _ => decide (k' ≠ k)

theorem mem_entries_iff {m : AssocMap κ ν} {k : κ} {v : ν} :
    (k, v) ∈ m.entries ↔ m.find? k = some v := by
  obtain ⟨l, hnd⟩ := m
  simp only [find?]
  induction l with
  | nil => simp
  | cons e l ih =>
    rw [List.map_cons, List.nodup_cons] at hnd
    have hrest := ih hnd.2
    rw [List.find?_cons, List.mem_cons]
    by_cases hk : e.1 = k
    · have hnot : (k, v) ∉ l := by
        intro hmem
        exact hnd.1 (List.mem_map.mpr ⟨(k, v), hmem, hk.symm⟩)
      simp only [hk, decide_true, Option.map_some, Option.some.injEq]
      constructor
      · rintro (heq | hmem)
        · rw [← heq]
        · exact absurd hmem hnot
      · intro hv
        exact .inl (by rw [← hk, ← hv])
    · simp only [hk, decide_false]
      rw [← hrest]
      constructor
      · rintro (heq | hmem)
        · exact absurd (by rw [← heq]) hk
        · exact hmem
      · exact .inr

theorem find?_eq_none_iff {m : AssocMap κ ν} {k : κ} :
    m.find? k = none ↔ k ∉ m.entries.map Prod.fst := by
  constructor
  · intro h hmem
    obtain ⟨⟨k', v⟩, hentry, rfl⟩ := List.mem_map.mp hmem
    rw [mem_entries_iff.mp hentry] at h
    cases h
  · intro h
    cases hv : m.find? k with
    | none => rfl
    | some v => exact absurd (List.mem_map.mpr ⟨(k, v), mem_entries_iff.mpr hv, rfl⟩) h

def insert (m : AssocMap κ ν) (k : κ) (v : ν) : AssocMap κ ν where
  entries :=
    if m.contains k then m.entries.map fun e => if e.1 = k then (k, v) else e
    else m.entries ++ [(k, v)]
  nodup := by
    split
    next =>
      have hfst : Prod.fst ∘ (fun e : κ × ν => if e.1 = k then (k, v) else e) = Prod.fst := by
        funext e
        rw [Function.comp_apply]
        split
        next h => exact h.symm
        next => rfl
      rw [List.map_map, hfst]
      exact m.nodup
    next h =>
      rw [List.map_append, List.nodup_append]
      refine ⟨m.nodup, List.nodup_singleton _, ?_⟩
      have hnone : m.find? k = none := by
        simpa [contains] using h
      rintro a ha b hb rfl
      simp only [List.map_cons, List.map_nil, List.mem_singleton] at hb
      exact find?_eq_none_iff.mp hnone (hb ▸ ha)

@[simp] theorem find?_empty (k : κ) : (empty : AssocMap κ ν).find? k = none := rfl

@[simp] theorem contains_empty (k : κ) : (empty : AssocMap κ ν).contains k = false := rfl

theorem find?_ext_iff {m : AssocMap κ ν} {k : κ} {o : Option ν} :
    m.find? k = o ↔ ∀ v, (k, v) ∈ m.entries ↔ o = some v := by
  constructor
  · rintro rfl v
    exact mem_entries_iff
  · intro h
    apply Option.ext
    intro v
    rw [← mem_entries_iff]
    exact h v

theorem mem_insert {m : AssocMap κ ν} {k k' : κ} {v v' : ν} :
    (k', v') ∈ (m.insert k v).entries ↔
      (k' = k ∧ v' = v) ∨ (k' ≠ k ∧ (k', v') ∈ m.entries) := by
  unfold insert
  dsimp only
  split
  next h =>
    obtain ⟨w, hw⟩ := Option.isSome_iff_exists.mp h
    rw [List.mem_map]
    constructor
    · rintro ⟨⟨a, b⟩, hmem, heq⟩
      split at heq
      next => cases heq; exact .inl ⟨rfl, rfl⟩
      next hne => cases heq; exact .inr ⟨hne, hmem⟩
    · rintro (⟨rfl, rfl⟩ | ⟨hne, hmem⟩)
      · exact ⟨(k', w), mem_entries_iff.mpr hw, if_pos rfl⟩
      · exact ⟨(k', v'), hmem, if_neg hne⟩
  next h =>
    have hnone : m.find? k = none := by simpa [contains] using h
    rw [List.mem_append, List.mem_singleton]
    constructor
    · rintro (hmem | heq)
      · refine .inr ⟨?_, hmem⟩
        rintro rfl
        rw [mem_entries_iff.mp hmem] at hnone
        cases hnone
      · cases heq
        exact .inl ⟨rfl, rfl⟩
    · rintro (⟨rfl, rfl⟩ | ⟨-, hmem⟩)
      · exact .inr rfl
      · exact .inl hmem

theorem find?_insert (m : AssocMap κ ν) (k k' : κ) (v : ν) :
    (m.insert k v).find? k' = if k' = k then some v else m.find? k' := by
  rw [find?_ext_iff]
  intro v'
  rw [mem_insert]
  by_cases h : k' = k
  · rw [if_pos h, Option.some.injEq]
    constructor
    · rintro (⟨-, rfl⟩ | ⟨hne, -⟩)
      · rfl
      · exact absurd h hne
    · rintro rfl
      exact .inl ⟨h, rfl⟩
  · rw [if_neg h, ← mem_entries_iff]
    constructor
    · rintro (⟨heq, -⟩ | ⟨-, hmem⟩)
      · exact absurd heq h
      · exact hmem
    · intro hmem
      exact .inr ⟨h, hmem⟩

@[simp] theorem find?_insert_self (m : AssocMap κ ν) (k : κ) (v : ν) :
    (m.insert k v).find? k = some v := by
  rw [find?_insert, if_pos rfl]

theorem find?_insert_of_ne (m : AssocMap κ ν) {k k' : κ} (v : ν) (h : k' ≠ k) :
    (m.insert k v).find? k' = m.find? k' := by
  rw [find?_insert, if_neg h]

theorem size_insert (m : AssocMap κ ν) (k : κ) (v : ν) :
    (m.insert k v).size = if m.contains k then m.size else m.size + 1 := by
  unfold insert size
  dsimp only
  split <;> simp

theorem find?_filter (m : AssocMap κ ν) (p : κ → ν → Bool) (k : κ) :
    (m.filter p).find? k = (m.find? k).filter (p k) := by
  rw [find?_ext_iff]
  intro v
  rw [mem_filter, mem_entries_iff, Option.filter_eq_some_iff]

theorem find?_erase (m : AssocMap κ ν) (k k' : κ) :
    (m.erase k).find? k' = if k' = k then none else m.find? k' := by
  rw [erase, find?_filter]
  split
  next h => cases hv : m.find? k' <;> simp [h]
  next h => cases hv : m.find? k' <;> simp [h]

theorem find?_mapVal (m : AssocMap κ ν) (f : ν → ν) (k : κ) :
    (m.mapVal f).find? k = (m.find? k).map f := by
  rw [find?_ext_iff]
  intro v
  rw [mem_mapVal]
  constructor
  · rintro ⟨w, hmem, rfl⟩
    rw [mem_entries_iff.mp hmem]
    rfl
  · intro h
    obtain ⟨w, hw, rfl⟩ := Option.map_eq_some_iff.mp h
    exact ⟨w, mem_entries_iff.mpr hw, rfl⟩

end AssocMap

end HieraChain
