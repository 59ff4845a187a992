/-
  HieraChain/TableCells.lean
  ==========================
  **A table as cells.**

  For one key a table has cells: the dirty rows by their ids and the inserted
  rows of the key by their indices.  A selected entry is a copy of a cell, or of
  a row that has no cell yet; its home is the cell that holds it after a write
  (`ValidAt`, `validAt_of_mem_select`).  Updates and removals change the homes
  of the selected entries and leave the other cells alone (`forSelected_cell`).
-/
import HieraChain.MemoryTable2

namespace HieraChain.Storage

open HieraChain.BigEndian

def Selected.home (s : Selected) : Place :=
  match s.place with
  | .backend => .dirty s.entry.id
  | place => place

def RowsDistinct (remoteDB : Option RemoteDB) : Prop :=
  ∀ db key condition rows, remoteDB = some db → db key condition = some rows →
    (rows.map Entry.id).Nodup ∧ ∀ e ∈ rows, e.id ≠ 0

namespace MemoryTable2

variable {H : Type} {version : Nat} {remoteDB : Option RemoteDB} {t t' : MemoryTable2 H}
  {key : Bytes} {condition : Condition} {s : Selected}

/-! ### Cells -/

def newOf (t : MemoryTable2 H) (key : Bytes) : List Entry := (t.newEntries.find? key).getD []

def cell (t : MemoryTable2 H) (key : Bytes) : Place → Option Entry
  | .backend => none
  | .dirty id => t.dirty.find? id
  | .new index => (t.newOf key)[index]?

structure Wf (t : MemoryTable2 H) : Prop where
  dirty : ∀ id e, t.dirty.find? id = some e → e.id = id ∧ id ≠ 0
  new : ∀ key, ∀ e ∈ t.newOf key, e.id = 0

structure ValidAt (t : MemoryTable2 H) (key : Bytes) (s : Selected) : Prop where
  cell_eq : t.cell key s.home = if s.place = .backend then none else some s.entry
  dirtyId : ∀ id, s.home = .dirty id → s.entry.id = id ∧ id ≠ 0
  newId : ∀ index, s.home = .new index → s.entry.id = 0

structure SameRest (key : Bytes) (t t' : MemoryTable2 H) : Prop where
  info : t'.info = t.info
  hash : t'.hash = t.hash
  tableData : t'.tableData = t.tableData
  hashDirty : t'.hashDirty = t.hashDirty
  dataDirty : t'.dataDirty = t.dataDirty
  newOf : ∀ key', key' ≠ key → t'.newOf key' = t.newOf key'
  length : (t'.newOf key).length = (t.newOf key).length

theorem SameRest.refl (key : Bytes) (t : MemoryTable2 H) : SameRest key t t :=
  ⟨rfl, rfl, rfl, rfl, rfl, fun _ _ => rfl, rfl⟩

theorem SameRest.trans {t₁ t₂ t₃ : MemoryTable2 H} (h : SameRest key t₁ t₂) (h' : SameRest key t₂ t₃) :
    SameRest key t₁ t₃ where
  info := h'.info.trans h.info
  hash := h'.hash.trans h.hash
  tableData := h'.tableData.trans h.tableData
  hashDirty := h'.hashDirty.trans h.hashDirty
  dataDirty := h'.dataDirty.trans h.dataDirty
  newOf := fun key' hne => (h'.newOf key' hne).trans (h.newOf key' hne)
  length := h'.length.trans h.length

theorem home_of_ne_backend (h : s.place ≠ .backend) : s.home = s.place := by
  rw [Selected.home]
  cases hplace : s.place with
  | backend => exact absurd hplace h
  | dirty id => rfl
  | new index => rfl

theorem ValidAt.read_eq (h : ValidAt t key s) : t.read key s = s.entry := by
  have hcell := h.cell_eq
  rw [read]
  cases hplace : s.place with
  | backend => rfl
  | dirty id =>
    rw [home_of_ne_backend (by simp [hplace]), hplace] at hcell
    simp only [cell, reduceCtorEq, if_false] at hcell
    simp [hcell]
  | new index =>
    rw [home_of_ne_backend (by simp [hplace]), hplace] at hcell
    simp only [cell, reduceCtorEq, if_false, newOf] at hcell
    simp [hcell]

theorem ValidAt.congr (h : ValidAt t key s) (hcell : t'.cell key s.home = t.cell key s.home) :
    ValidAt t' key s where
  cell_eq := hcell.trans h.cell_eq
  dirtyId := h.dirtyId
  newId := h.newId

/-! ### Writes -/

@[simp] theorem cell_noteUpdated (t : MemoryTable2 H) (key key' : Bytes) (place p : Place) (id : Nat) :
    (t.noteUpdated key' place id).cell key p = t.cell key p := by
  rw [noteUpdated]
  split
  · rfl
  · rfl

theorem sameRest_noteUpdated (t : MemoryTable2 H) (key key' : Bytes) (place : Place) (id : Nat) :
    SameRest key t (t.noteUpdated key' place id) := by
  rw [noteUpdated]
  split
  · exact ⟨rfl, rfl, rfl, rfl, rfl, fun _ _ => rfl, rfl⟩
  · exact SameRest.refl key t

/-- **A write changes the home of the entry alone.** -/
theorem cell_write (h : ValidAt t key s) {e : Entry} (hid : e.id = s.entry.id) (p : Place) :
    (t.write key s.place e).cell key p = if p = s.home then some e else t.cell key p := by
  have hcell := h.cell_eq
  cases hplace : s.place with
  | backend =>
    have hhome : s.home = .dirty s.entry.id := by rw [Selected.home, hplace]
    rw [hhome, hplace] at hcell
    have hnone : t.dirty.find? s.entry.id = none := hcell
    have hnew : e.id ≠ 0 ∧ t.dirty.contains e.id = false := by
      rw [hid, AssocMap.contains, hnone]
      exact ⟨(h.dirtyId _ hhome).2, rfl⟩
    simp only [write, if_pos hnew, hhome]
    cases p with
    | backend => rfl
    | dirty id => simp [cell, AssocMap.find?_insert, hid]
    | new index => rfl
  | dirty id =>
    rw [home_of_ne_backend (by simp [hplace]), hplace, write]
    cases p with
    | backend => rfl
    | dirty id' => simp [cell, AssocMap.find?_insert]
    | new index => rfl
  | new index =>
    rw [home_of_ne_backend (by simp [hplace]), hplace] at hcell ⊢
    simp only [cell, reduceCtorEq, if_false] at hcell
    rw [write]
    obtain ⟨hlt, -⟩ := List.getElem?_eq_some_iff.mp hcell
    cases p with
    | backend => rfl
    | dirty id' => rfl
    | new index' =>
      simp only [cell, newOf, AssocMap.find?_insert_self, Option.getD_some, List.getElem?_set,
        Place.new.injEq]
      by_cases heq : index = index'
      · subst heq
        rw [if_pos rfl, if_pos rfl]
        exact if_pos hlt
      · rw [if_neg heq, if_neg (fun h => heq h.symm)]

theorem sameRest_write (t : MemoryTable2 H) (key : Bytes) (place : Place) (e : Entry) :
    SameRest key t (t.write key place e) := by
  cases place with
  | backend =>
    simp only [write]
    split
    · exact ⟨rfl, rfl, rfl, rfl, rfl, fun _ _ => rfl, rfl⟩
    · exact SameRest.refl key t
  | dirty id => exact ⟨rfl, rfl, rfl, rfl, rfl, fun _ _ => rfl, rfl⟩
  | new index =>
    refine ⟨rfl, rfl, rfl, rfl, rfl, fun key' hne => ?_, ?_⟩
    · simp [newOf, write, AssocMap.find?_insert_of_ne _ _ hne]
    · simp [newOf, write]

/-! ### Loops over selected entries -/

/-- What a step does with a selected entry: it records, and changes its home. -/
structure StepAt (key : Bytes) (change : Entry → Entry) (recordsOf : Selected → List Change.Record)
    (t : MemoryTable2 H) (s : Selected) (r : MemoryTable2 H × List Change.Record) : Prop where
  records : r.2 = recordsOf s
  cell_eq : ∀ p, r.1.cell key p = if p = s.home then some (change s.entry) else t.cell key p
  rest : SameRest key t r.1

theorem forSelected_cons (step : MemoryTable2 H → Selected → MemoryTable2 H × List Change.Record)
    (t : MemoryTable2 H) (s : Selected) (l : List Selected) :
    forSelected step t (s :: l)
      = ((forSelected step (step t s).1 l).1, (step t s).2 ++ (forSelected step (step t s).1 l).2) := by
  have hacc : ∀ (l : List Selected) (t : MemoryTable2 H) (records : List Change.Record),
      l.foldl (fun acc s => ((step acc.1 s).1, acc.2 ++ (step acc.1 s).2)) (t, records)
        = ((forSelected step t l).1, records ++ (forSelected step t l).2) := by
    intro l
    induction l with
    | nil => intro t records; simp [forSelected]
    | cons s l ih =>
      intro t records
      have hstep := ih (step t s).1 (step t s).2
      rw [List.foldl_cons, ih]
      simp only [forSelected, List.foldl_cons, List.nil_append] at hstep ⊢
      rw [hstep]
      simp
  have h := hacc l (step t s).1 (step t s).2
  simp only [forSelected, List.foldl_cons, List.nil_append]
  exact h

/-- **The loop changes the homes of the selected entries, once each.** -/
theorem forSelected_cell {info : TableInfo} {change : Entry → Entry}
    {recordsOf : Selected → List Change.Record}
    {step : MemoryTable2 H → Selected → MemoryTable2 H × List Change.Record}
    (hstep : ∀ t s, t.info = info → ValidAt t key s → StepAt key change recordsOf t s (step t s))
    {l : List Selected} (hinfo : t.info = info) (hvalid : ∀ s ∈ l, ValidAt t key s)
    (hnodup : (l.map Selected.home).Nodup) :
    (forSelected step t l).2 = l.flatMap recordsOf
      ∧ (∀ s ∈ l, (forSelected step t l).1.cell key s.home = some (change s.entry))
      ∧ (∀ p, p ∉ l.map Selected.home → (forSelected step t l).1.cell key p = t.cell key p)
      ∧ SameRest key t (forSelected step t l).1 := by
  induction l generalizing t with
  | nil => exact ⟨rfl, nofun, fun _ _ => rfl, SameRest.refl key t⟩
  | cons s l ih =>
    obtain ⟨hfirst, hrestNodup⟩ := List.nodup_cons.mp hnodup
    have hs := hstep t s hinfo (hvalid s List.mem_cons_self)
    have hkeep : ∀ s' ∈ l, (step t s).1.cell key s'.home = t.cell key s'.home := by
      intro s' hs'
      rw [hs.cell_eq, if_neg]
      intro heq
      exact hfirst (List.mem_map.mpr ⟨s', hs', heq⟩)
    obtain ⟨hrecords, hchanged, hother, hrest⟩ := ih (hs.rest.info.trans hinfo)
      (fun s' hs' => (hvalid s' (List.mem_cons_of_mem _ hs')).congr (hkeep s' hs')) hrestNodup
    rw [forSelected_cons]
    refine ⟨?_, ?_, ?_, hs.rest.trans hrest⟩
    · rw [hs.records, hrecords, List.flatMap_cons]
    · intro s' hs'
      rcases List.mem_cons.mp hs' with rfl | hs'
      · rw [hother _ hfirst, hs.cell_eq, if_pos rfl]
      · exact hchanged s' hs'
    · intro p hp
      simp only [List.map_cons, List.mem_cons, not_or] at hp
      rw [hother p hp.2, hs.cell_eq, if_neg hp.1]

/-! ### The steps of updates and removals -/

def updatedEntry (info : TableInfo) (entry e : Entry) : Entry :=
  (updatedFields info entry).foldl (fun e f => e.setField f.1 f.2) e

def updateRecords (info : TableInfo) (entry : Entry) (s : Selected) : List Change.Record :=
  (updatedFields info entry).map fun f =>
    { index := Place.index s.place, key := f.1, oldValue := s.entry.getField f.1, id := s.entry.id }

def removeRecords (s : Selected) : List Change.Record :=
  [{ index := Place.index s.place, id := s.entry.id }]

theorem foldl_setField_marks (fields : List (Bytes × Bytes)) (e : Entry) :
    (fields.foldl (fun e f => e.setField f.1 f.2) e).id = e.id
      ∧ (fields.foldl (fun e f => e.setField f.1 f.2) e).status = e.status
      ∧ (fields.foldl (fun e f => e.setField f.1 f.2) e).num = e.num
      ∧ (fields.foldl (fun e f => e.setField f.1 f.2) e).force = e.force
      ∧ (fields.foldl (fun e f => e.setField f.1 f.2) e).deleted = e.deleted := by
  induction fields generalizing e with
  | nil => exact ⟨rfl, rfl, rfl, rfl, rfl⟩
  | cons f fields ih => exact ih (e.setField f.1 f.2)

theorem updateOne_stepAt {info : TableInfo} (entry : Entry) (hinfo : t.info = info)
    (h : ValidAt t key s) :
    StepAt key (updatedEntry info entry) (updateRecords info entry) t s (t.updateOne key entry s) := by
  have hid : (updatedEntry info entry s.entry).id = s.entry.id := (foldl_setField_marks _ _).1
  have hnoted : ValidAt (t.noteUpdated key s.place s.entry.id) key s := h.congr (cell_noteUpdated _ _ _ _ _ _)
  refine ⟨?_, fun p => ?_, ?_⟩
  · simp only [updateOne, h.read_eq, hinfo, updateRecords]
  · simp only [updateOne, h.read_eq, hinfo]
    have hwrite := cell_write hnoted hid p
    rw [cell_noteUpdated] at hwrite
    exact hwrite
  · simp only [updateOne, h.read_eq]
    exact (sameRest_noteUpdated _ _ _ _ _).trans (sameRest_write _ _ _ _)

theorem removeOne_stepAt (h : ValidAt t key s) :
    StepAt key (fun e => e.setStatus Entry.DELETED) removeRecords t s (t.removeOne key s) := by
  refine ⟨?_, fun p => ?_, ?_⟩
  · simp only [removeOne, h.read_eq, removeRecords, Entry.setStatus_id]
  · simp only [removeOne, h.read_eq]
    exact cell_write (e := s.entry.setStatus Entry.DELETED) h rfl p
  · simp only [removeOne]
    exact sameRest_write _ _ _ _

/-! ### What a select gives -/

theorem limited_sublist (l : List Selected) : (limited version condition l).Sublist l := by
  rw [limited]
  split
  · rw [proccessLimit]
    split
    · exact List.nil_sublist l
    · exact (List.drop_sublist _ _).trans (List.take_sublist _ _)
  · exact List.Sublist.refl l

theorem mem_selectBackend {dbEntries : List Entry} :
    s ∈ t.selectBackend version condition dbEntries ↔
      (s.place = .backend ∧ s.entry ∈ dbEntries ∧ t.dirty.find? s.entry.id = none)
      ∨ ∃ e ∈ dbEntries, s.place = .dirty e.id ∧ t.dirty.find? e.id = some s.entry
        ∧ (V2_5_0 ≤ version → condition.process version s.entry = true) := by
  obtain ⟨place, entry⟩ := s
  simp only [selectBackend, List.mem_filterMap]
  constructor
  · rintro ⟨e, he, hsome⟩
    cases hfind : t.dirty.find? e.id with
    | none =>
      simp only [hfind, Option.some.injEq, Selected.mk.injEq] at hsome
      obtain ⟨rfl, rfl⟩ := hsome
      exact Or.inl ⟨rfl, he, hfind⟩
    | some d =>
      simp only [hfind] at hsome
      split at hsome
      next => cases hsome
      next hkeep =>
        simp only [Option.some.injEq, Selected.mk.injEq] at hsome
        obtain ⟨rfl, rfl⟩ := hsome
        refine Or.inr ⟨e, he, rfl, hfind, ?_⟩
        intro hversion
        simpa [hversion] using hkeep
  · rintro (⟨rfl, he, hnone⟩ | ⟨e, he, rfl, hfind, hprocess⟩)
    · exact ⟨entry, he, by simp [hnone]⟩
    · refine ⟨e, he, ?_⟩
      have hkeep : ¬ ((decide (V2_5_0 ≤ version) && !condition.process version entry) = true) := by
        simp only [Bool.and_eq_true, decide_eq_true_eq, Bool.not_eq_true', not_and, Bool.not_eq_false]
        exact hprocess
      simp only [hfind, if_neg hkeep]

theorem mem_selectUpdated {processed : List Nat} :
    s ∈ t.selectUpdated version key condition processed ↔
      V2_5_0 ≤ version ∧ ∃ id, id ∈ ((t.dirtyUpdated.find? key).map SortedMap.keys).getD []
        ∧ id ∉ processed ∧ s.place = .dirty id ∧ t.dirty.find? id = some s.entry
        ∧ condition.process version s.entry = true := by
  obtain ⟨place, entry⟩ := s
  rw [selectUpdated]
  split
  next hversion =>
    simp only [List.mem_filterMap, List.mem_filter, Bool.not_eq_true', List.contains_eq_mem,
      decide_eq_false_iff_not]
    constructor
    · rintro ⟨id, ⟨hid, hnot⟩, hsome⟩
      cases hfind : t.dirty.find? id with
      | none => simp [hfind] at hsome
      | some d =>
        simp only [hfind] at hsome
        split at hsome
        next hprocess =>
          simp only [Option.some.injEq, Selected.mk.injEq] at hsome
          obtain ⟨rfl, rfl⟩ := hsome
          exact ⟨hversion, id, hid, hnot, rfl, hfind, hprocess⟩
        next => cases hsome
    · rintro ⟨-, id, hid, hnot, rfl, hfind, hprocess⟩
      exact ⟨id, ⟨hid, hnot⟩, by simp [hfind, hprocess]⟩
  next hversion =>
    constructor
    · intro h
      cases h
    · rintro ⟨h, -⟩
      exact absurd h hversion

theorem mem_selectNew :
    s ∈ t.selectNew version key condition ↔
      ∃ index, s.place = .new index ∧ (t.newOf key)[index]? = some s.entry
        ∧ (condition.conditions.entries.isEmpty || condition.process version s.entry) = true := by
  obtain ⟨place, entry⟩ := s
  simp only [selectNew, List.mem_filterMap, Prod.exists, List.mem_zipIdx_iff_getElem?]
  constructor
  · rintro ⟨e, index, he, hsome⟩
    split at hsome
    next hkeep =>
      simp only [Option.some.injEq, Selected.mk.injEq] at hsome
      obtain ⟨rfl, rfl⟩ := hsome
      exact ⟨index, rfl, he, hkeep⟩
    next => cases hsome
  · rintro ⟨index, rfl, he, hkeep⟩
    exact ⟨entry, index, he, by rw [if_pos hkeep]⟩

theorem validAt_of_mem_selectBackend (key : Bytes) {dbEntries : List Entry} (hwf : t.Wf)
    (hids : ∀ e ∈ dbEntries, e.id ≠ 0) (h : s ∈ t.selectBackend version condition dbEntries) :
    ValidAt t key s ∧ ∃ e ∈ dbEntries, s.home = .dirty e.id := by
  rcases mem_selectBackend.mp h with ⟨hplace, hmem, hnone⟩ | ⟨e, he, hplace, hfind, -⟩
  · have hhome : s.home = .dirty s.entry.id := by rw [Selected.home, hplace]
    refine ⟨⟨?_, ?_, ?_⟩, s.entry, hmem, hhome⟩
    · rw [hhome, if_pos hplace]
      exact hnone
    · intro id hid
      rw [hhome, Place.dirty.injEq] at hid
      exact ⟨hid, hid ▸ hids s.entry hmem⟩
    · intro index hindex
      rw [hhome] at hindex
      cases hindex
  · have hhome : s.home = .dirty e.id := by rw [Selected.home, hplace]
    refine ⟨⟨?_, ?_, ?_⟩, e, he, hhome⟩
    · rw [hhome, if_neg (by simp [hplace])]
      exact hfind
    · intro id hid
      rw [hhome, Place.dirty.injEq] at hid
      subst hid
      exact hwf.dirty _ _ hfind
    · intro index hindex
      rw [hhome] at hindex
      cases hindex

theorem validAt_of_mem_selectUpdated {processed : List Nat} (hwf : t.Wf)
    (h : s ∈ t.selectUpdated version key condition processed) :
    ValidAt t key s ∧ ∃ id, s.home = .dirty id ∧ id ∉ processed := by
  obtain ⟨-, id, -, hnot, hplace, hfind, -⟩ := mem_selectUpdated.mp h
  have hhome : s.home = .dirty id := by rw [Selected.home, hplace]
  refine ⟨⟨?_, ?_, ?_⟩, id, hhome, hnot⟩
  · rw [hhome, if_neg (by simp [hplace])]
    exact hfind
  · intro id' hid
    rw [hhome, Place.dirty.injEq] at hid
    subst hid
    exact hwf.dirty _ _ hfind
  · intro index hindex
    rw [hhome] at hindex
    cases hindex

theorem validAt_of_mem_selectNew (hwf : t.Wf) (h : s ∈ t.selectNew version key condition) :
    ValidAt t key s ∧ ∃ index, s.home = .new index := by
  obtain ⟨index, hplace, hget, -⟩ := mem_selectNew.mp h
  have hhome : s.home = .new index := by rw [Selected.home, hplace]
  refine ⟨⟨?_, ?_, ?_⟩, index, hhome⟩
  · rw [hhome, if_neg (by simp [hplace])]
    exact hget
  · intro id hid
    rw [hhome] at hid
    cases hid
  · intro _ _
    exact hwf.new key _ (List.mem_of_getElem? hget)

theorem nodup_homes_selectBackend {dbEntries : List Entry} (hids : (dbEntries.map Entry.id).Nodup) :
    ((t.selectBackend version condition dbEntries).map Selected.home).Nodup := by
  rw [List.nodup_iff_pairwise_ne, List.pairwise_map, selectBackend, List.pairwise_filterMap]
  rw [List.nodup_iff_pairwise_ne, List.pairwise_map] at hids
  have hhome : ∀ {e : Entry} {x : Selected}, x ∈ t.selectBackend version condition [e] → x.home = .dirty e.id := by
    intro e x hx
    rw [selectBackend, List.mem_filterMap] at hx
    obtain ⟨e', he', hx⟩ := hx
    rw [List.mem_singleton.mp he'] at hx
    split at hx
    next =>
      cases hx
      rfl
    next =>
      split at hx
      next => cases hx
      next =>
        cases hx
        rfl
  apply hids.imp
  intro a b hne x hx y hy heq
  have hmem : ∀ {e : Entry} {x : Selected}, _ = some x → x ∈ t.selectBackend version condition [e] :=
    fun {e} _ h => List.mem_filterMap.mpr ⟨e, List.mem_singleton_self e, h⟩
  rw [hhome (hmem hx), hhome (hmem hy), Place.dirty.injEq] at heq
  exact hne heq

theorem nodup_keys {κ ν : Type} [LinearOrder κ] (m : SortedMap κ ν) : m.keys.Nodup :=
  (List.pairwise_map.mpr m.sorted).imp ne_of_lt

theorem nodup_homes_selectUpdated {processed : List Nat} :
    ((t.selectUpdated version key condition processed).map Selected.home).Nodup := by
  rw [List.nodup_iff_pairwise_ne, List.pairwise_map, selectUpdated]
  split
  next =>
    rw [List.pairwise_filterMap]
    have hkeys : (((t.dirtyUpdated.find? key).map SortedMap.keys).getD []).Nodup := by
      cases t.dirtyUpdated.find? key with
      | none => exact List.nodup_nil
      | some m => exact nodup_keys m
    apply (hkeys.filter _).imp
    intro a b hne x hx y hy heq
    have hhomeX : x.home = .dirty a := by
      split at hx
      next =>
        split at hx
        next =>
          cases hx
          rfl
        next => cases hx
      next => cases hx
    have hhomeY : y.home = .dirty b := by
      split at hy
      next =>
        split at hy
        next =>
          cases hy
          rfl
        next => cases hy
      next => cases hy
    rw [hhomeX, hhomeY, Place.dirty.injEq] at heq
    exact hne heq
  next => exact List.Pairwise.nil

theorem nodup_homes_selectNew : ((t.selectNew version key condition).map Selected.home).Nodup := by
  rw [List.nodup_iff_pairwise_ne, List.pairwise_map, selectNew, List.pairwise_filterMap]
  have hindices : (((t.newEntries.find? key).getD []).zipIdx.map Prod.snd).Nodup := by
    rw [List.zipIdx_map_snd]
    exact List.nodup_range'
  rw [List.nodup_iff_pairwise_ne, List.pairwise_map] at hindices
  have hhome : ∀ {e : Entry × Nat} {x : Selected},
      (if condition.conditions.entries.isEmpty || condition.process version e.1 then
        some (⟨.new e.2, e.1⟩ : Selected) else none) = some x → x.home = .new e.2 := by
    intro e x hx
    split at hx
    next =>
      cases hx
      rfl
    next => cases hx
  apply hindices.imp
  intro a b hne x hx y hy heq
  rw [hhome hx, hhome hy, Place.new.injEq] at heq
  exact hne heq

def merged (version : Nat) (t : MemoryTable2 H) (key : Bytes) (condition : Condition)
    (dbEntries : List Entry) : List Selected :=
  t.selectBackend version condition dbEntries
    ++ t.selectUpdated version key condition (t.processed dbEntries)
    ++ t.selectNew version key condition

theorem mem_processed {dbEntries : List Entry} (hwf : t.Wf) {id : Nat} :
    id ∈ t.processed dbEntries ↔ (∃ e ∈ dbEntries, e.id = id) ∧ ∃ d, t.dirty.find? id = some d := by
  rw [processed, List.mem_filterMap]
  constructor
  · rintro ⟨e, he, hsome⟩
    obtain ⟨d, hfind, rfl⟩ := Option.map_eq_some_iff.mp hsome
    have hid := (hwf.dirty _ _ hfind).1
    exact ⟨⟨e, he, hid.symm⟩, d, by rw [hid]; exact hfind⟩
  · rintro ⟨⟨e, he, rfl⟩, d, hfind⟩
    refine ⟨e, he, ?_⟩
    rw [hfind, Option.map_some, (hwf.dirty _ _ hfind).1]

theorem merged_valid {dbEntries : List Entry} (hwf : t.Wf) (hids : ∀ e ∈ dbEntries, e.id ≠ 0)
    (h : s ∈ merged version t key condition dbEntries) : ValidAt t key s := by
  rw [merged, List.mem_append, List.mem_append] at h
  rcases h with (h | h) | h
  · exact (validAt_of_mem_selectBackend key hwf hids h).1
  · exact (validAt_of_mem_selectUpdated hwf h).1
  · exact (validAt_of_mem_selectNew hwf h).1

/-- **No cell is selected twice.** -/
theorem nodup_homes_merged {dbEntries : List Entry} (hwf : t.Wf)
    (hdistinct : (dbEntries.map Entry.id).Nodup) (hids : ∀ e ∈ dbEntries, e.id ≠ 0) :
    ((merged version t key condition dbEntries).map Selected.home).Nodup := by
  rw [merged, List.map_append, List.map_append, List.nodup_append, List.nodup_append]
  refine ⟨⟨nodup_homes_selectBackend hdistinct, nodup_homes_selectUpdated, ?_⟩,
    nodup_homes_selectNew, ?_⟩
  · intro p hp q hq heq
    obtain ⟨s, hs, rfl⟩ := List.mem_map.mp hp
    obtain ⟨s', hs', rfl⟩ := List.mem_map.mp hq
    obtain ⟨-, e, he, hhome⟩ := validAt_of_mem_selectBackend key hwf hids hs
    obtain ⟨hvalid', id, hhome', hnot⟩ := validAt_of_mem_selectUpdated hwf hs'
    rw [hhome, hhome', Place.dirty.injEq] at heq
    -- The dirty row of a returned id is processed.
    have hplace : s'.place ≠ .backend := by
      obtain ⟨-, _, -, -, hplace, -⟩ := mem_selectUpdated.mp hs'
      simp [hplace]
    have hcell := hvalid'.cell_eq
    rw [hhome', if_neg hplace] at hcell
    exact hnot ((mem_processed hwf).mpr ⟨⟨e, he, heq⟩, s'.entry, hcell⟩)
  · intro p hp q hq heq
    obtain ⟨s', hs', rfl⟩ := List.mem_map.mp hq
    obtain ⟨-, index, hhome'⟩ := validAt_of_mem_selectNew hwf hs'
    rcases List.mem_append.mp hp with hp | hp
    · obtain ⟨s, hs, rfl⟩ := List.mem_map.mp hp
      obtain ⟨-, e, -, hhome⟩ := validAt_of_mem_selectBackend key hwf hids hs
      rw [hhome, hhome'] at heq
      cases heq
    · obtain ⟨s, hs, rfl⟩ := List.mem_map.mp hp
      obtain ⟨-, id, hhome, -⟩ := validAt_of_mem_selectUpdated hwf hs
      rw [hhome, hhome'] at heq
      cases heq

theorem selectNoLock_sublist :
    (t.selectNoLock version remoteDB key condition).Sublist
      (match remoteDB with
        | none => t.selectNew version key (condition.EQ t.info.key key)
        | some db => ((db key (condition.EQ t.info.key key)).map
            (merged version t key (condition.EQ t.info.key key))).getD []) := by
  cases remoteDB with
  | none => exact limited_sublist _
  | some db =>
    cases hdb : db key (condition.EQ t.info.key key) with
    | none => simp [selectNoLock, hdb]
    | some dbEntries =>
      simp only [selectNoLock, hdb, Option.map_some, Option.getD_some]
      exact limited_sublist _

/-- **The selected entries are what the table has at their places.** -/
theorem validAt_of_mem_select (hwf : t.Wf) (hdb : RowsDistinct remoteDB)
    (h : s ∈ t.selectNoLock version remoteDB key condition) : ValidAt t key s := by
  have hmem := selectNoLock_sublist.mem h
  cases hremote : remoteDB with
  | none =>
    rw [hremote] at hmem
    exact (validAt_of_mem_selectNew hwf hmem).1
  | some db =>
    rw [hremote] at hmem
    cases hrows : db key (condition.EQ t.info.key key) with
    | none => simp [hrows] at hmem
    | some dbEntries =>
      simp only [hrows, Option.map_some, Option.getD_some] at hmem
      exact merged_valid hwf (hdb db key _ dbEntries hremote hrows).2 hmem

theorem nodup_homes_select (hwf : t.Wf) (hdb : RowsDistinct remoteDB) :
    ((t.selectNoLock version remoteDB key condition).map Selected.home).Nodup := by
  refine (selectNoLock_sublist.map Selected.home).nodup ?_
  cases hremote : remoteDB with
  | none => exact nodup_homes_selectNew
  | some db =>
    cases hrows : db key (condition.EQ t.info.key key) with
    | none => simp [hrows]
    | some dbEntries =>
      simp only [hrows, Option.map_some, Option.getD_some]
      obtain ⟨hdistinct, hids⟩ := hdb db key _ dbEntries hremote hrows
      exact nodup_homes_merged hwf hdistinct hids

end MemoryTable2

end HieraChain.Storage
