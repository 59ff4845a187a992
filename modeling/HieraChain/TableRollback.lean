/-
  HieraChain/TableRollback.lean
  =============================
  **Undoing the changes of a table.**

  A table is back (`Back`) when it has the rows, the marks and the caches of an
  earlier table, with nothing but deleted rows behind its inserted ones, and may
  have to compute a dump that the earlier one had at hand.  Rolling back the
  last change brings a table back when the change touched rows that were dirty
  or inserted already, wrote fields that were there and removed rows that were
  not marked otherwise (`insert_undoable`, `update_undoable`,
  `remove_undoable`).  A table that is back selects and dumps like the earlier
  one (`Back.selectNoLock_eq`, `Back.sameDumps`).
-/
import Mathlib.Data.List.Dedup
import HieraChain.TableCells
import HieraChain.TableHash

namespace HieraChain.Storage

open HieraChain.BigEndian

/-! ### Fields written and restored -/

theorem find?_foldl_setField_of_not_mem {fields : List (Bytes × Bytes)} {k : Bytes}
    (hk : k ∉ fields.map Prod.fst) (value : Bytes × Bytes → Bytes) (e : Entry) :
    (fields.foldl (fun e f => e.setField f.1 (value f)) e).fields.find? k = e.fields.find? k := by
  induction fields generalizing e with
  | nil => rfl
  | cons f fields ih =>
    simp only [List.map_cons, List.mem_cons, not_or] at hk
    rw [List.foldl_cons, ih hk.2, Entry.setField_fields, SortedMap.find?_insert_of_ne _ _ hk.1]

theorem find?_foldl_setField_of_mem {fields : List (Bytes × Bytes)} {k : Bytes}
    (hk : k ∈ fields.map Prod.fst) (value : Bytes → Bytes) (e : Entry) :
    (fields.foldl (fun e f => e.setField f.1 (value f.1)) e).fields.find? k = some (value k) := by
  induction fields generalizing e with
  | nil => cases hk
  | cons f fields ih =>
    rw [List.foldl_cons]
    by_cases hrest : k ∈ fields.map Prod.fst
    · exact ih hrest _
    · rw [find?_foldl_setField_of_not_mem hrest fun f => value f.1]
      rcases List.mem_cons.mp hk with rfl | hmem
      · exact SortedMap.find?_insert_self _ _ _
      · exact absurd hmem hrest

theorem restore_fields {fields : List (Bytes × Bytes)} {e : Entry}
    (hfields : ∀ f ∈ fields, e.fields.contains f.1 = true) :
    fields.foldl (fun e' f => e'.setField f.1 (e.getField f.1))
      (fields.foldl (fun e f => e.setField f.1 f.2) e) = e := by
  have hmarks : ∀ (value : Bytes → Bytes) (e' : Entry),
      fields.foldl (fun e f => e.setField f.1 (value f.1)) e'
        = (fields.map fun f => (f.1, value f.1)).foldl (fun e f => e.setField f.1 f.2) e' := by
    intro value e'
    rw [List.foldl_map]
  have hold := MemoryTable2.foldl_setField_marks (fields.map fun f => (f.1, e.getField f.1))
    (fields.foldl (fun e f => e.setField f.1 f.2) e)
  rw [← hmarks] at hold
  obtain ⟨hid, hstatus, hnum, hforce, hdeleted⟩ := hold
  obtain ⟨hid', hstatus', hnum', hforce', hdeleted'⟩ := MemoryTable2.foldl_setField_marks fields e
  apply Entry.ext (hid.trans hid') (hstatus.trans hstatus') (hnum.trans hnum') (hforce.trans hforce')
    (hdeleted.trans hdeleted')
  apply SortedMap.ext_find?
  intro k
  by_cases hk : k ∈ fields.map Prod.fst
  · rw [find?_foldl_setField_of_mem hk]
    obtain ⟨f, hf, rfl⟩ := List.mem_map.mp hk
    obtain ⟨v, hv⟩ := Option.isSome_iff_exists.mp (hfields f hf)
    rw [Entry.getField, hv, Option.getD_some]
  · rw [find?_foldl_setField_of_not_mem hk (fun f => e.getField f.1),
      find?_foldl_setField_of_not_mem hk Prod.snd]

namespace MemoryTable2

variable {H : Type} {version : Nat} {remoteDB : Option RemoteDB} {c : Hasher H}
  {t t' g h : MemoryTable2 H} {key : Bytes} {s : Selected}

/-! ### Rolling back a record -/

def homeOf (record : Change.Record) : Place :=
  if record.id ≠ 0 then .dirty record.id else .new record.index

theorem modify_append {α : Type} (a b : List α) (i : Nat) (f : α → α) :
    (a ++ b).modify i f
      = if i < a.length then a.modify i f ++ b else a ++ b.modify (i - a.length) f := by
  induction a generalizing i with
  | nil => simp
  | cons x a ih =>
    cases i with
    | zero => simp
    | succ i =>
      rw [List.cons_append, List.modify_succ_cons, ih]
      by_cases hlt : i < a.length
      · simp [hlt]
      · simp [hlt, Nat.succ_sub_succ]

theorem newOf_insert (t : MemoryTable2 H) (key key' : Bytes) (entries : List Entry) :
    ({ t with newEntries := t.newEntries.insert key entries } : MemoryTable2 H).newOf key'
      = if key' = key then entries else t.newOf key' := by
  simp only [newOf, AssocMap.find?_insert]
  split
  · rfl
  · rfl

theorem newOf_rollbackRecord (t : MemoryTable2 H) (key key' : Bytes) (record : Change.Record)
    (undo : Entry → Entry) :
    (t.rollbackRecord key record undo).newOf key'
      = if key' = key ∧ record.id = 0 then (t.newOf key).modify record.index undo
        else t.newOf key' := by
  rw [rollbackRecord]
  by_cases hid : record.id = 0
  · rw [if_neg (not_not.mpr hid)]
    simp only [hid, and_true]
    cases hfind : t.newEntries.find? key with
    | none =>
      simp only [newOf, hfind, Option.getD_none, List.modify_nil]
      split
      next heq => rw [heq, hfind, Option.getD_none]
      next => rfl
    | some entries =>
      have hentries : t.newOf key = entries := by rw [newOf, hfind, Option.getD_some]
      dsimp only
      cases hget : entries[record.index]? with
      | none =>
        have hlen : entries.length ≤ record.index := List.getElem?_eq_none_iff.mp hget
        rw [hentries, List.modify_eq_self hlen]
        dsimp only
        split
        next heq => rw [heq, hentries]
        next => rfl
      | some e =>
        dsimp only
        rw [newOf_insert, hentries, List.modify_eq_set_getElem?, hget]
        rfl
  · rw [if_pos hid, if_neg (fun h => hid h.2)]
    cases t.dirty.find? record.id with
    | none => rfl
    | some e => rfl

theorem dirty_rollbackRecord (t : MemoryTable2 H) (key : Bytes) (record : Change.Record)
    (undo : Entry → Entry) (id : Nat) :
    (t.rollbackRecord key record undo).dirty.find? id
      = if record.id ≠ 0 ∧ id = record.id then (t.dirty.find? id).map undo else t.dirty.find? id := by
  rw [rollbackRecord]
  by_cases hid : record.id = 0
  · rw [if_neg (not_not.mpr hid), if_neg (fun h => h.1 hid)]
    cases t.newEntries.find? key with
    | none => rfl
    | some entries =>
      dsimp only
      cases entries[record.index]? with
      | none => rfl
      | some e => rfl
  · rw [if_pos hid]
    simp only [ne_eq, hid, not_false_eq_true, true_and]
    cases hfind : t.dirty.find? record.id with
    | none =>
      dsimp only
      split
      next heq => rw [heq, hfind, Option.map_none]
      next => rfl
    | some e =>
      dsimp only
      rw [AssocMap.find?_insert]
      split
      next heq => rw [heq, hfind, Option.map_some]
      next => rfl

theorem cell_rollbackRecord (t : MemoryTable2 H) (key : Bytes) (record : Change.Record)
    (undo : Entry → Entry) (p : Place) :
    (t.rollbackRecord key record undo).cell key p
      = if p = homeOf record then (t.cell key p).map undo else t.cell key p := by
  rw [homeOf]
  cases p with
  | backend => simp [cell]
  | dirty id =>
    simp only [cell, dirty_rollbackRecord]
    by_cases hid : record.id = 0
    · simp [hid]
    · simp [hid]
  | new index =>
    simp only [cell, newOf_rollbackRecord, true_and]
    by_cases hid : record.id = 0
    · simp only [hid, if_true, ne_eq, not_true_eq_false, if_false, Place.new.injEq, List.getElem?_modify]
      by_cases heq : record.index = index
      · simp [heq]
      · simp [heq, Ne.symm heq]
    · simp [hid]

structure SameMarks (t t' : MemoryTable2 H) : Prop where
  info : t'.info = t.info
  hash : t'.hash = t.hash
  tableData : t'.tableData = t.tableData
  hashDirty : t'.hashDirty = t.hashDirty
  dataDirty : t'.dataDirty = t.dataDirty
  dirtyUpdated : t'.dirtyUpdated = t.dirtyUpdated

theorem SameMarks.refl (t : MemoryTable2 H) : SameMarks t t := ⟨rfl, rfl, rfl, rfl, rfl, rfl⟩

theorem SameMarks.trans {t₁ t₂ t₃ : MemoryTable2 H} (h : SameMarks t₁ t₂) (h' : SameMarks t₂ t₃) :
    SameMarks t₁ t₃ where
  info := h'.info.trans h.info
  hash := h'.hash.trans h.hash
  tableData := h'.tableData.trans h.tableData
  hashDirty := h'.hashDirty.trans h.hashDirty
  dataDirty := h'.dataDirty.trans h.dataDirty
  dirtyUpdated := h'.dirtyUpdated.trans h.dirtyUpdated

theorem sameMarks_rollbackRecord (t : MemoryTable2 H) (key : Bytes) (record : Change.Record)
    (undo : Entry → Entry) : SameMarks t (t.rollbackRecord key record undo) := by
  rw [rollbackRecord]
  split
  · cases t.dirty.find? record.id with
    | none => exact SameMarks.refl t
    | some e => exact ⟨rfl, rfl, rfl, rfl, rfl, rfl⟩
  · cases t.newEntries.find? key with
    | none => exact SameMarks.refl t
    | some entries =>
      dsimp only
      cases entries[record.index]? with
      | none => exact SameMarks.refl t
      | some e => exact ⟨rfl, rfl, rfl, rfl, rfl, rfl⟩

/-! ### Rolling back a list of records -/

def rollbackRecords (t : MemoryTable2 H) (key : Bytes) (records : List Change.Record)
    (undo : Change.Record → Entry → Entry) : MemoryTable2 H :=
  records.foldl (fun t record => t.rollbackRecord key record (undo record)) t

theorem sameMarks_rollbackRecords (t : MemoryTable2 H) (key : Bytes) (records : List Change.Record)
    (undo : Change.Record → Entry → Entry) : SameMarks t (t.rollbackRecords key records undo) := by
  induction records generalizing t with
  | nil => exact SameMarks.refl t
  | cons record records ih => exact (sameMarks_rollbackRecord t key record _).trans (ih _)

theorem newOf_rollbackRecords_of_ne (t : MemoryTable2 H) {key key' : Bytes} (hne : key' ≠ key)
    (records : List Change.Record) (undo : Change.Record → Entry → Entry) :
    (t.rollbackRecords key records undo).newOf key' = t.newOf key' := by
  induction records generalizing t with
  | nil => rfl
  | cons record records ih =>
    have hrest := ih (t.rollbackRecord key record (undo record))
    rw [newOf_rollbackRecord, if_neg (fun h => hne h.1)] at hrest
    exact hrest

theorem cell_rollbackRecords (t : MemoryTable2 H) (key : Bytes) (records : List Change.Record)
    (undo : Change.Record → Entry → Entry) (p : Place) :
    (t.rollbackRecords key records undo).cell key p
      = (records.filter fun r => decide (homeOf r = p)).foldl (fun o r => o.map (undo r)) (t.cell key p) := by
  induction records generalizing t with
  | nil => rfl
  | cons record records ih =>
    have hrest := ih (t.rollbackRecord key record (undo record))
    rw [cell_rollbackRecord] at hrest
    refine hrest.trans ?_
    by_cases heq : homeOf record = p
    · rw [if_pos heq.symm, List.filter_cons_of_pos (by simp [heq]), List.foldl_cons]
    · rw [if_neg (Ne.symm heq), List.filter_cons_of_neg (by simp [heq])]

theorem filter_flatMap_of_mem {α β κ : Type} [DecidableEq κ] {l : List α} {records : α → List β}
    {homeA : α → κ} {homeB : β → κ} (hhome : ∀ s ∈ l, ∀ r ∈ records s, homeB r = homeA s)
    (hnodup : (l.map homeA).Nodup) {s : α} (hs : s ∈ l) :
    (l.flatMap records).filter (fun r => decide (homeB r = homeA s)) = records s := by
  induction l with
  | nil => cases hs
  | cons a l ih =>
    obtain ⟨hfirst, hrest⟩ := List.nodup_cons.mp hnodup
    have hothers : ∀ s ∈ l, ∀ r ∈ records s, homeB r = homeA s :=
      fun s hs => hhome s (List.mem_cons_of_mem _ hs)
    rw [List.flatMap_cons, List.filter_append]
    rcases List.mem_cons.mp hs with rfl | hmem
    · have hall : (records s).filter (fun r => decide (homeB r = homeA s)) = records s := by
        apply List.filter_eq_self.mpr
        intro r hr
        rw [hhome s List.mem_cons_self r hr, decide_eq_true rfl]
      have hnone : (l.flatMap records).filter (fun r => decide (homeB r = homeA s)) = [] := by
        apply List.filter_eq_nil_iff.mpr
        intro r hr
        obtain ⟨s', hs', hr'⟩ := List.mem_flatMap.mp hr
        rw [decide_eq_true_iff, hothers s' hs' r hr']
        intro heq
        exact hfirst (List.mem_map.mpr ⟨s', hs', heq⟩)
      rw [hall, hnone, List.append_nil]
    · have hnone : (records a).filter (fun r => decide (homeB r = homeA s)) = [] := by
        apply List.filter_eq_nil_iff.mpr
        intro r hr
        rw [decide_eq_true_iff, hhome a List.mem_cons_self r hr]
        intro heq
        exact hfirst (List.mem_map.mpr ⟨s, hmem, heq.symm⟩)
      rw [hnone, List.nil_append, ih hothers hrest hmem]

theorem filter_flatMap_of_not_mem {α β κ : Type} [DecidableEq κ] {l : List α} {records : α → List β}
    {homeA : α → κ} {homeB : β → κ} (hhome : ∀ s ∈ l, ∀ r ∈ records s, homeB r = homeA s) {p : κ}
    (hp : p ∉ l.map homeA) : (l.flatMap records).filter (fun r => decide (homeB r = p)) = [] := by
  apply List.filter_eq_nil_iff.mpr
  intro r hr
  obtain ⟨s, hs, hr'⟩ := List.mem_flatMap.mp hr
  rw [decide_eq_true_iff, hhome s hs r hr']
  intro heq
  exact hp (List.mem_map.mpr ⟨s, hs, heq⟩)

/-- **A loop over distinct cells is undone by its records**, when the records of
    each entry undo its change. -/
theorem cell_rollback_forSelected {info : TableInfo} {change : Entry → Entry}
    {recordsOf : Selected → List Change.Record} {undo : Change.Record → Entry → Entry}
    {step : MemoryTable2 H → Selected → MemoryTable2 H × List Change.Record}
    (hstep : ∀ t s, t.info = info → ValidAt t key s → StepAt key change recordsOf t s (step t s))
    {l : List Selected} (hinfo : t.info = info) (hvalid : ∀ s ∈ l, ValidAt t key s)
    (hnodup : (l.map Selected.home).Nodup) (hplaces : ∀ s ∈ l, s.place ≠ .backend)
    (hhome : ∀ s ∈ l, ∀ r ∈ recordsOf s, homeOf r = s.home)
    (hundo : ∀ s ∈ l, (recordsOf s).foldl (fun o r => o.map (undo r)) (some (change s.entry)) = some s.entry)
    (p : Place) :
    ((forSelected step t l).1.rollbackRecords key (forSelected step t l).2 undo).cell key p
      = t.cell key p := by
  obtain ⟨hrecords, hchanged, hother, -⟩ := forSelected_cell hstep hinfo hvalid hnodup
  rw [cell_rollbackRecords, hrecords]
  by_cases hp : p ∈ l.map Selected.home
  · obtain ⟨s, hs, rfl⟩ := List.mem_map.mp hp
    rw [filter_flatMap_of_mem hhome hnodup hs, hchanged s hs, hundo s hs, (hvalid s hs).cell_eq,
      if_neg (hplaces s hs)]
  · rw [filter_flatMap_of_not_mem hhome hp, List.foldl_nil, hother p hp]

theorem homeOf_record (hvalid : ValidAt t key s) (hplace : s.place ≠ .backend)
    {record : Change.Record} (hindex : record.index = Place.index s.place) (hid : record.id = s.entry.id) :
    homeOf record = s.home := by
  have hhome := home_of_ne_backend hplace
  rw [homeOf, hid, hindex]
  cases hs : s.place with
  | backend => exact absurd hs hplace
  | dirty id =>
    rw [hs] at hhome
    obtain ⟨hentry, hne⟩ := hvalid.dirtyId id hhome
    rw [hhome, hentry, if_pos hne]
  | new index =>
    rw [hs] at hhome
    rw [hhome, hvalid.newId index hhome, if_neg (by simp)]
    rfl

/-! ### Tables that are back -/

def SameDump (consensus : Bool) (d d' : TableData) : Prop :=
  d.info = d'.info ∧
    if consensus then d.dirtyEntries = d'.dirtyEntries ∧ d.newEntries = d'.newEntries
    else d.dirtyEntries.Perm d'.dirtyEntries ∧ d.newEntries.Perm d'.newEntries

def Fresh (c : Hasher H) (t : MemoryTable2 H) : Prop :=
  ∃ d, t.tableData = some d
    ∧ ∀ data hash, t.Computes c data hash → hash = t.hash ∧ SameDump t.info.enableConsensus d data

/-- A change leaves no trace in the marks: the table counts as changed already,
    and has to be dumped again or would be dumped the same. -/
def Settled (c : Hasher H) (version : Nat) (t : MemoryTable2 H) : Prop :=
  (t.info.enableConsensus = true → V2_5_0 ≤ version → t.dataDirty = true)
    ∧ (t.hashDirty = true ∨ Fresh c t)

/-- `h` is as good as `g`. -/
structure Back (c : Hasher H) (version : Nat) (g h : MemoryTable2 H) : Prop where
  info : h.info = g.info
  hash : h.hash = g.hash
  tableData : h.tableData = g.tableData
  dirty : ∀ id, h.dirty.find? id = g.dirty.find? id
  dirtyUpdated : ∀ key, h.dirtyUpdated.find? key = g.dirtyUpdated.find? key
  newOf : ∀ key, ∃ ghosts, h.newOf key = g.newOf key ++ ghosts ∧ ∀ e ∈ ghosts, e.deleted = true
  dataDirty : h.dataDirty = g.dataDirty
    ∨ h.dataDirty = true ∧ (g.info.enableConsensus = true → version < V2_5_0)
  hashDirty : h.hashDirty = g.hashDirty ∨ h.hashDirty = true ∧ Fresh c g

theorem Back.refl (c : Hasher H) (version : Nat) (t : MemoryTable2 H) : Back c version t t where
  info := rfl
  hash := rfl
  tableData := rfl
  dirty := fun _ => rfl
  dirtyUpdated := fun _ => rfl
  newOf := fun _ => ⟨[], (List.append_nil _).symm, nofun⟩
  dataDirty := Or.inl rfl
  hashDirty := Or.inl rfl

inductive Undoable (c : Hasher H) (version : Nat) (t t' : MemoryTable2 H) : List Change → Prop
  | unchanged : t' = t → Undoable c version t t' []
  | changed {change : Change} : change.table = t.info.name → t'.info = t.info → t'.hashDirty = true →
      Back c version t (t'.rollback change) → Undoable c version t t' [change]

theorem back_of_touched (hsettled : Settled c version t) {r : MemoryTable2 H}
    (hmarks : r.info = t.info ∧ r.hash = t.hash ∧ r.tableData = t.tableData)
    (hhashDirty : r.hashDirty = true) (hdataDirty : r.dataDirty = true)
    (hdirty : ∀ id, r.dirty.find? id = t.dirty.find? id)
    (hupdated : ∀ key, r.dirtyUpdated.find? key = t.dirtyUpdated.find? key)
    (hnew : ∀ key, ∃ ghosts, r.newOf key = t.newOf key ++ ghosts ∧ ∀ e ∈ ghosts, e.deleted = true) :
    Back c version t r := by
  obtain ⟨hcounts, hdump⟩ := hsettled
  refine ⟨hmarks.1, hmarks.2.1, hmarks.2.2, hdirty, hupdated, hnew, ?_, ?_⟩
  · rw [hdataDirty]
    cases ht : t.dataDirty with
    | true => exact Or.inl rfl
    | false =>
      refine Or.inr ⟨rfl, fun hcons => ?_⟩
      by_contra hversion
      have htrue := hcounts hcons (Nat.le_of_not_lt hversion)
      rw [ht] at htrue
      cases htrue
  · rw [hhashDirty]
    rcases hdump with ht | hfresh
    · exact Or.inl ht.symm
    · exact Or.inr ⟨rfl, hfresh⟩

theorem checkField_of_ok {α : Type} {info : TableInfo} {entry : Entry} {rest : Except InvalidArgument α}
    {r : α} (h : (checkField info entry >>= fun _ => rest) = .ok r) :
    checkField info entry = .ok () ∧ rest = .ok r := by
  cases hcheck : checkField info entry with
  | error e =>
    rw [hcheck] at h
    cases h
  | ok u =>
    rw [hcheck] at h
    exact ⟨rfl, h⟩

/-! ### Insertions -/

def Accepted (info : TableInfo) (options : AccessOptions) : Prop :=
  (options.check && !checkAuthority info options.origin) = false

instance (info : TableInfo) (options : AccessOptions) : Decidable (Accepted info options) :=
  inferInstanceAs (Decidable (_ = _))

theorem insert_undoable {entry : Entry} {options : AccessOptions} {r : Result H}
    (h : t.insert key entry options = .ok r)
    (hsettled : Accepted t.info options → checkField t.info entry = .ok () → Settled c version t) :
    Undoable c version t r.2.1 r.2.2 := by
  rw [insert] at h
  split at h
  next =>
    cases h
    exact Undoable.unchanged rfl
  next haccepted =>
    obtain ⟨hfields, h⟩ := checkField_of_ok h
    cases h
    have hsettled := hsettled (by simpa [Accepted] using haccepted) hfields
    refine Undoable.changed rfl rfl rfl ?_
    let entries := (t.newEntries.find? key).getD []
    let e := entry.setField t.info.key key
    let after := touched { t with newEntries := t.newEntries.insert key (entries ++ [e]) }
    have hmarks := sameMarks_rollbackRecord after key { index := entries.length } fun e => e.setDeleted true
    refine back_of_touched hsettled ⟨hmarks.info, hmarks.hash, hmarks.tableData⟩ hmarks.hashDirty
      hmarks.dataDirty ?_ ?_ ?_
    · intro id
      refine (dirty_rollbackRecord after key _ _ id).trans ?_
      rw [if_neg (fun h => h.1 rfl)]
      rfl
    · intro key'
      have hupdated := hmarks.dirtyUpdated
      exact congrArg (fun m : AssocMap Bytes (SortedMap Nat Unit) => m.find? key') hupdated
    · intro key'
      have hnew := newOf_rollbackRecord after key key' { index := entries.length }
        fun e => e.setDeleted true
      have hafter : ∀ key', after.newOf key' = if key' = key then entries ++ [e] else t.newOf key' :=
        fun key' => newOf_insert t key key' (entries ++ [e])
      by_cases hkey : key' = key
      · refine ⟨[e.setDeleted true], ?_, ?_⟩
        · refine hnew.trans ?_
          rw [if_pos ⟨hkey, rfl⟩, hafter, if_pos rfl, hkey]
          rw [modify_append, if_neg (lt_irrefl _), Nat.sub_self]
          rfl
        · intro e' he'
          obtain rfl := List.mem_singleton.mp he'
          rfl
      · refine ⟨[], ?_, nofun⟩
        refine hnew.trans ?_
        rw [if_neg (fun h => hkey h.1), hafter, if_neg hkey, List.append_nil]

/-! ### Updates and removals -/

theorem forSelected_dirtyUpdated
    {step : MemoryTable2 H → Selected → MemoryTable2 H × List Change.Record} {l : List Selected}
    (hstep : ∀ t, ∀ s ∈ l, (step t s).1.dirtyUpdated = t.dirtyUpdated) (t : MemoryTable2 H) :
    (forSelected step t l).1.dirtyUpdated = t.dirtyUpdated := by
  induction l generalizing t with
  | nil => rfl
  | cons s l ih =>
    rw [forSelected_cons]
    refine (ih (fun t s hs => hstep t s (List.mem_cons_of_mem _ hs)) _).trans ?_
    exact hstep t s List.mem_cons_self

theorem dirtyUpdated_write (t : MemoryTable2 H) (key : Bytes) (place : Place) (e : Entry) :
    (t.write key place e).dirtyUpdated = t.dirtyUpdated := by
  cases place with
  | backend =>
    simp only [write]
    split
    · rfl
    · rfl
  | dirty id => rfl
  | new index => rfl

/-- **The records of a loop bring the table back.** -/
theorem back_of_loop {change : Entry → Entry} {recordsOf : Selected → List Change.Record}
    {undo : Change.Record → Entry → Entry}
    {step : MemoryTable2 H → Selected → MemoryTable2 H × List Change.Record} {l : List Selected}
    (hstep : ∀ t' s, t'.info = t.info → ValidAt t' key s → StepAt key change recordsOf t' s (step t' s))
    (hupdated : ∀ t, ∀ s ∈ l, (step t s).1.dirtyUpdated = t.dirtyUpdated)
    (hvalid : ∀ s ∈ l, ValidAt t key s) (hnodup : (l.map Selected.home).Nodup)
    (hplaces : ∀ s ∈ l, s.place ≠ .backend)
    (hhome : ∀ s ∈ l, ∀ r ∈ recordsOf s, homeOf r = s.home)
    (hundo : ∀ s ∈ l, (recordsOf s).foldl (fun o r => o.map (undo r)) (some (change s.entry)) = some s.entry)
    (hsettled : Settled c version t) :
    Back c version t
      ((forSelected step t l).1.touched.rollbackRecords key (forSelected step t l).2 undo) := by
  obtain ⟨-, -, -, hrest⟩ := forSelected_cell hstep rfl hvalid hnodup
  have hmarks := sameMarks_rollbackRecords (forSelected step t l).1.touched key
    (forSelected step t l).2 undo
  have hcell : ∀ p, ((forSelected step t l).1.touched.rollbackRecords key
      (forSelected step t l).2 undo).cell key p = t.cell key p := by
    intro p
    have h := cell_rollback_forSelected hstep rfl hvalid hnodup hplaces hhome hundo p
    rw [cell_rollbackRecords] at h ⊢
    exact h
  apply back_of_touched hsettled ⟨hmarks.info.trans hrest.info, hmarks.hash.trans hrest.hash,
    hmarks.tableData.trans hrest.tableData⟩ hmarks.hashDirty hmarks.dataDirty
  · intro id
    exact hcell (.dirty id)
  · intro key'
    have hsame := hmarks.dirtyUpdated.trans (forSelected_dirtyUpdated hupdated t)
    rw [hsame]
  · intro key'
    refine ⟨[], ?_, nofun⟩
    rw [List.append_nil]
    by_cases hkey : key' = key
    · subst hkey
      apply List.ext_getElem?
      intro index
      exact hcell (.new index)
    · exact (newOf_rollbackRecords_of_ne _ hkey _ _).trans (hrest.newOf key' hkey)

theorem foldl_updateRecords (s : Selected) (fields : List (Bytes × Bytes)) (e : Entry) :
    (fields.map fun f => (⟨Place.index s.place, f.1, s.entry.getField f.1, s.entry.id⟩ : Change.Record)).foldl
        (fun o r => o.map fun e => e.setField r.key r.oldValue) (some e)
      = some (fields.foldl (fun e f => e.setField f.1 (s.entry.getField f.1)) e) := by
  induction fields generalizing e with
  | nil => rfl
  | cons f fields ih => exact ih _

theorem update_undoable {entry : Entry} {condition : Condition} {options : AccessOptions} {r : Result H}
    (hwf : t.Wf) (hdb : RowsDistinct remoteDB)
    (h : t.update version remoteDB key entry condition options = .ok r)
    (hcond : Accepted t.info options → checkField t.info entry = .ok () → Settled c version t
      ∧ ∀ s ∈ t.selectNoLock version remoteDB key condition, s.place ≠ .backend
        ∧ ∀ f ∈ updatedFields t.info entry, s.entry.fields.contains f.1 = true) :
    Undoable c version t r.2.1 r.2.2 := by
  rw [update] at h
  split at h
  next =>
    cases h
    exact Undoable.unchanged rfl
  next haccepted =>
    obtain ⟨hfields, h⟩ := checkField_of_ok h
    cases h
    obtain ⟨hsettled, hselected⟩ := hcond (by simpa [Accepted] using haccepted) hfields
    have hvalid : ∀ s ∈ t.selectNoLock version remoteDB key condition, ValidAt t key s :=
      fun s hs => validAt_of_mem_select hwf hdb hs
    have hnodup : ((t.selectNoLock version remoteDB key condition).map Selected.home).Nodup :=
      nodup_homes_select hwf hdb
    obtain ⟨-, -, -, hrest⟩ := forSelected_cell
      (fun t' s hinfo hs => updateOne_stepAt entry hinfo hs) rfl hvalid hnodup
    refine Undoable.changed rfl hrest.info rfl ?_
    refine back_of_loop (fun t' s hinfo hs => updateOne_stepAt entry hinfo hs) ?_ hvalid hnodup
      (fun s hs => (hselected s hs).1) ?_ ?_ hsettled
    · intro t' s hs
      simp only [updateOne, noteUpdated, (hselected s hs).1, false_and, if_false, dirtyUpdated_write]
    · intro s hs record hrecord
      obtain ⟨f, -, rfl⟩ := List.mem_map.mp hrecord
      exact homeOf_record (hvalid s hs) (hselected s hs).1 rfl rfl
    · intro s hs
      rw [updateRecords, foldl_updateRecords, updatedEntry, restore_fields (hselected s hs).2]

theorem remove_undoable {condition : Condition} {options : AccessOptions} {r : Result H}
    (hwf : t.Wf) (hdb : RowsDistinct remoteDB)
    (h : t.remove version remoteDB key condition options = .ok r)
    (hcond : Accepted t.info options → Settled c version t
      ∧ ∀ s ∈ t.selectNoLock version remoteDB key condition, s.place ≠ .backend ∧ s.entry.status = 0) :
    Undoable c version t r.2.1 r.2.2 := by
  rw [remove] at h
  split at h
  next =>
    cases h
    exact Undoable.unchanged rfl
  next haccepted =>
    cases h
    obtain ⟨hsettled, hselected⟩ := hcond (by simpa [Accepted] using haccepted)
    have hvalid : ∀ s ∈ t.selectNoLock version remoteDB key condition, ValidAt t key s :=
      fun s hs => validAt_of_mem_select hwf hdb hs
    have hnodup : ((t.selectNoLock version remoteDB key condition).map Selected.home).Nodup :=
      nodup_homes_select hwf hdb
    have hstep : ∀ (t' : MemoryTable2 H) s, t'.info = t.info → ValidAt t' key s →
        StepAt key (fun e => e.setStatus Entry.DELETED) removeRecords t' s (t'.removeOne key s) :=
      fun _ _ _ hs => removeOne_stepAt hs
    obtain ⟨-, -, -, hrest⟩ := forSelected_cell hstep rfl hvalid hnodup
    refine Undoable.changed rfl hrest.info rfl ?_
    refine back_of_loop hstep ?_ hvalid hnodup
      (fun s hs => (hselected s hs).1) ?_ ?_ hsettled
    · intro t' s hs
      simp only [removeOne, dirtyUpdated_write]
    · intro s hs record hrecord
      obtain rfl := List.mem_singleton.mp hrecord
      exact homeOf_record (hvalid s hs) (hselected s hs).1 rfl rfl
    · intro s hs
      have hstatus : (s.entry.setStatus Entry.DELETED).setStatus 0 = s.entry := by
        refine Entry.ext ?_ ?_ ?_ ?_ ?_ ?_
        · rfl
        · exact (hselected s hs).2.symm
        · rfl
        · rfl
        · rfl
        · rfl
      simp only [removeRecords, List.foldl_cons, List.foldl_nil, Option.map_some, hstatus]

/-! ### The rows of tables that are back -/

theorem perm_entries_of_find? {κ ν : Type} [DecidableEq κ] {m m' : AssocMap κ ν}
    (h : ∀ k, m.find? k = m'.find? k) : m.entries.Perm m'.entries := by
  have hnodup : ∀ m : AssocMap κ ν, m.entries.Nodup := fun m => List.Nodup.of_map Prod.fst m.nodup
  apply (List.perm_ext_iff_of_nodup (hnodup m) (hnodup m')).mpr
  rintro ⟨k, v⟩
  rw [AssocMap.mem_entries_iff, AssocMap.mem_entries_iff, h]

theorem perm_values {κ ν : Type} [DecidableEq κ] (m : AssocMap κ (List ν)) {keys : List κ}
    (hnodup : keys.Nodup) (hkeys : ∀ k v, m.find? k = some v → k ∈ keys) :
    ((m.entries.map Prod.snd).flatten).Perm (keys.flatMap fun k => (m.find? k).getD []) := by
  have hown : (m.entries.map Prod.snd).flatten
      = (m.entries.map Prod.fst).flatMap fun k => (m.find? k).getD [] := by
    rw [List.flatMap_map, List.flatMap_def]
    congr 1
    apply List.map_congr_left
    rintro ⟨k, v⟩ hmem
    rw [AssocMap.mem_entries_iff.mp hmem, Option.getD_some]
  have hsplit : keys.Perm (m.entries.map Prod.fst ++ keys.filter fun k => !m.contains k) := by
    have hmem : (keys.filter fun k => m.contains k).Perm (m.entries.map Prod.fst) := by
      apply (List.perm_ext_iff_of_nodup (hnodup.filter _) m.nodup).mpr
      intro k
      rw [List.mem_filter, List.mem_map, AssocMap.contains]
      constructor
      · rintro ⟨-, hsome⟩
        obtain ⟨v, hv⟩ := Option.isSome_iff_exists.mp hsome
        exact ⟨(k, v), AssocMap.mem_entries_iff.mpr hv, rfl⟩
      · rintro ⟨⟨k', v⟩, hkv, rfl⟩
        have hfind := AssocMap.mem_entries_iff.mp hkv
        exact ⟨hkeys _ _ hfind, by rw [hfind]; rfl⟩
    exact (List.filter_append_perm _ keys).symm.trans (hmem.append_right _)
  have hempty : ((keys.filter fun k => !m.contains k).flatMap fun k => (m.find? k).getD []) = [] := by
    apply List.flatMap_eq_nil_iff.mpr
    intro k hk
    have hnone := (List.mem_filter.mp hk).2
    rw [AssocMap.contains, Bool.not_eq_true', Option.isSome_eq_false_iff, Option.isNone_iff_eq_none] at hnone
    rw [hnone, Option.getD_none]
  rw [hown]
  refine List.Perm.trans ?_ (hsplit.flatMap_right _).symm
  rw [List.flatMap_append, hempty, List.append_nil]

theorem exists_keys {κ ν : Type} [DecidableEq κ] (m m' : AssocMap κ ν) :
    ∃ keys : List κ, keys.Nodup ∧ (∀ k v, m.find? k = some v → k ∈ keys)
      ∧ ∀ k v, m'.find? k = some v → k ∈ keys := by
  refine ⟨(m.entries.map Prod.fst ++ m'.entries.map Prod.fst).dedup, List.nodup_dedup _, ?_, ?_⟩
  · intro k v hfind
    rw [List.mem_dedup, List.mem_append]
    exact Or.inl (List.mem_map.mpr ⟨(k, v), AssocMap.mem_entries_iff.mpr hfind, rfl⟩)
  · intro k v hfind
    rw [List.mem_dedup, List.mem_append]
    exact Or.inr (List.mem_map.mpr ⟨(k, v), AssocMap.mem_entries_iff.mpr hfind, rfl⟩)

theorem Back.dirtyRows (h' : Back c version g h) : h.dirtyRows.Perm g.dirtyRows :=
  ((perm_entries_of_find? h'.dirty).map Prod.snd).filter _

theorem Back.newRows (h' : Back c version g h) : h.newRows.Perm g.newRows := by
  obtain ⟨keys, hnodup, hg, hh⟩ := exists_keys g.newEntries h.newEntries
  have hlive : ∀ key, (h.newOf key).filter (fun e => !e.deleted) = (g.newOf key).filter fun e => !e.deleted := by
    intro key
    obtain ⟨ghosts, hnew, hdeleted⟩ := h'.newOf key
    have hnone : ghosts.filter (fun e => !e.deleted) = [] := by
      apply List.filter_eq_nil_iff.mpr
      intro e he
      simp [hdeleted e he]
    rw [hnew, List.filter_append, hnone, List.append_nil]
  have hkeys : ∀ t : MemoryTable2 H, (∀ k v, t.newEntries.find? k = some v → k ∈ keys) →
      t.newRows.Perm (keys.flatMap fun k => (t.newOf k).filter fun e => !e.deleted) := by
    intro t ht
    have hperm := (perm_values t.newEntries hnodup ht).filter fun e => !e.deleted
    rw [List.filter_flatMap] at hperm
    exact hperm
  refine (hkeys h hh).trans ?_
  simp only [hlive]
  exact (hkeys g hg).symm

/-! ### Dumps of tables that are back -/

theorem Computes.congr {data : TableData} {hash : H} (hinfo : t'.info = t.info)
    (hdirty : t'.dirtyRows.Perm t.dirtyRows) (hnew : t'.newRows.Perm t.newRows)
    (h : t.Computes c data hash) : t'.Computes c data hash where
  info := h.info.trans hinfo.symm
  dirtyEntries := h.dirtyEntries.trans hdirty.symm
  newEntries := h.newEntries.trans hnew.symm
  sorted := by
    intro hcons
    rw [hinfo] at hcons ⊢
    obtain ⟨hd, hn⟩ := h.sorted hcons
    exact ⟨hd.perm_left hdirty.symm, hn.perm_left hnew.symm⟩
  hash_eq := by
    have hhash := h.hash_eq
    rw [← hinfo] at hhash
    exact hhash

theorem Back.computes_iff (h' : Back c version g h) {data : TableData} {hash : H} :
    h.Computes c data hash ↔ g.Computes c data hash :=
  ⟨Computes.congr h'.info.symm h'.dirtyRows.symm h'.newRows.symm,
    Computes.congr h'.info h'.dirtyRows h'.newRows⟩

theorem Fresh.of_back (h' : Back c version g h) (hfresh : Fresh c h) : Fresh c g := by
  obtain ⟨d, htable, hall⟩ := hfresh
  rw [h'.tableData] at htable
  rw [h'.hash, h'.info] at hall
  exact ⟨d, htable, fun data hash hcomp => hall data hash (h'.computes_iff.mpr hcomp)⟩

theorem Back.trans {k : MemoryTable2 H} (h₁ : Back c version g h) (h₂ : Back c version h k) :
    Back c version g k where
  info := h₂.info.trans h₁.info
  hash := h₂.hash.trans h₁.hash
  tableData := h₂.tableData.trans h₁.tableData
  dirty := fun id => (h₂.dirty id).trans (h₁.dirty id)
  dirtyUpdated := fun key => (h₂.dirtyUpdated key).trans (h₁.dirtyUpdated key)
  newOf := by
    intro key
    obtain ⟨ghosts, hnew, hdeleted⟩ := h₁.newOf key
    obtain ⟨ghosts', hnew', hdeleted'⟩ := h₂.newOf key
    refine ⟨ghosts ++ ghosts', ?_, ?_⟩
    · rw [hnew', hnew, List.append_assoc]
    · intro e he
      rcases List.mem_append.mp he with he | he
      · exact hdeleted e he
      · exact hdeleted' e he
  dataDirty := by
    rcases h₂.dataDirty with heq | ⟨htrue, hcount⟩
    · rw [heq]
      exact h₁.dataDirty
    · rw [h₁.info] at hcount
      exact Or.inr ⟨htrue, hcount⟩
  hashDirty := by
    rcases h₂.hashDirty with heq | ⟨htrue, hfresh⟩
    · rw [heq]
      exact h₁.hashDirty
    · exact Or.inr ⟨htrue, hfresh.of_back h₁⟩

theorem exists_computes (c : Hasher H) (t : MemoryTable2 H) : ∃ data hash, t.Computes c data hash := by
  cases hcons : t.info.enableConsensus with
  | true =>
    have hsort : ∀ rows, SortOf (EntryLessNoLock t.info) rows
        (rows.mergeSort fun a b => !EntryLessNoLock t.info b a) := fun rows =>
      sortOf_mergeSort (less_eq t.info) rows
    exact ⟨⟨t.info, _, _⟩, _, computes_of_sortOf hcons rfl (hsort _) (hsort _)⟩
  | false =>
    refine ⟨⟨t.info, t.dirtyRows, t.newRows⟩, c.zero, rfl, List.Perm.refl _, List.Perm.refl _, ?_, ?_⟩
    · intro h
      rw [hcons] at h
      cases h
    · rw [hcons]
      rfl

theorem SameDump.refl (consensus : Bool) (d : TableData) : SameDump consensus d d := by
  refine ⟨rfl, ?_⟩
  cases consensus with
  | true => exact ⟨rfl, rfl⟩
  | false => exact ⟨List.Perm.refl _, List.Perm.refl _⟩

def SameDumps (c : Hasher H) (g h : MemoryTable2 H) : Prop :=
  (∀ data hash, h.Dump c data hash → ∃ data', g.Dump c data' hash
      ∧ Option.Rel (SameDump g.info.enableConsensus) data' data)
    ∧ ∀ data hash, g.Dump c data hash → ∃ data', h.Dump c data' hash
      ∧ Option.Rel (SameDump g.info.enableConsensus) data data'

theorem rel_sameDump_refl (consensus : Bool) (data : Option TableData) :
    Option.Rel (SameDump consensus) data data := by
  cases data with
  | none => exact Option.Rel.none
  | some d => exact Option.Rel.some (SameDump.refl consensus d)

/-- **A table that is back dumps as before.** -/
theorem Back.sameDumps (h' : Back c version g h) : SameDumps c g h := by
  have hequal : h.hashDirty = g.hashDirty → ∀ data hash, h.Dump c data hash ↔ g.Dump c data hash := by
    intro heq data hash
    rw [Dump, Dump, heq, h'.tableData, h'.hash]
    simp only [h'.computes_iff]
  rcases h'.hashDirty with heq | ⟨htrue, hfresh⟩
  · constructor
    · intro data hash hdump
      exact ⟨data, (hequal heq data hash).mp hdump, rel_sameDump_refl _ data⟩
    · intro data hash hdump
      exact ⟨data, (hequal heq data hash).mpr hdump, rel_sameDump_refl _ data⟩
  · cases hg : g.hashDirty with
    | true =>
      have heq : h.hashDirty = g.hashDirty := htrue.trans hg.symm
      constructor
      · intro data hash hdump
        exact ⟨data, (hequal heq data hash).mp hdump, rel_sameDump_refl _ data⟩
      · intro data hash hdump
        exact ⟨data, (hequal heq data hash).mpr hdump, rel_sameDump_refl _ data⟩
    | false =>
      -- The earlier table has its dump at hand, this one computes it again.
      obtain ⟨d, htable, hall⟩ := hfresh
      constructor
      · intro data hash hdump
        rw [Dump, htrue, if_pos rfl] at hdump
        obtain ⟨d', rfl, hcomp⟩ := hdump
        obtain ⟨hhash, hsame⟩ := hall d' hash (h'.computes_iff.mp hcomp)
        refine ⟨some d, ?_, Option.Rel.some hsame⟩
        rw [Dump, hg, if_neg Bool.false_ne_true]
        exact ⟨htable.symm, hhash⟩
      · intro data hash hdump
        rw [Dump, hg, if_neg Bool.false_ne_true, htable] at hdump
        obtain ⟨rfl, rfl⟩ := hdump
        obtain ⟨d', hash', hcomp⟩ := exists_computes c h
        obtain ⟨rfl, hsame⟩ := hall d' hash' (h'.computes_iff.mp hcomp)
        refine ⟨some d', ?_, Option.Rel.some hsame⟩
        rw [Dump, htrue, if_pos rfl]
        exact ⟨d', rfl, hcomp⟩

/-! ### Selects of tables that are back -/

theorem EQ_conditions_ne_nil (condition : Condition) (key value : Bytes) :
    (condition.EQ key value).conditions.entries ≠ [] := by
  intro hnil
  have hfind : (condition.EQ key value).conditions.find? key = some ⟨(true, value), (true, value)⟩ :=
    SortedMap.find?_insert_self _ _ _
  have hmem := SortedMap.mem_entries_iff.mpr hfind
  rw [hnil] at hmem
  cases hmem

theorem selectNew_ghosts {condition : Condition} (hne : condition.conditions.entries ≠ [])
    {ghosts : List Entry} (hnew : h.newOf key = g.newOf key ++ ghosts)
    (hdeleted : ∀ e ∈ ghosts, e.deleted = true) :
    h.selectNew version key condition = g.selectNew version key condition := by
  have hunfold : ∀ t : MemoryTable2 H, t.selectNew version key condition
      = (t.newOf key).zipIdx.filterMap fun e =>
        if condition.conditions.entries.isEmpty || condition.process version e.1 then
          some ⟨.new e.2, e.1⟩
        else none := fun _ => rfl
  rw [hunfold, hunfold, hnew, List.zipIdx_append, List.filterMap_append]
  have hnone : ((ghosts.zipIdx (0 + (g.newOf key).length)).filterMap fun e =>
      if condition.conditions.entries.isEmpty || condition.process version e.1 then
        some (⟨.new e.2, e.1⟩ : Selected)
      else none) = [] := by
    apply List.filterMap_eq_nil_iff.mpr
    intro e he
    have hmem : e.1 ∈ ghosts := by
      obtain ⟨e, i⟩ := e
      exact (List.mem_zipIdx_iff_le_and_getElem?_sub.mp he).2 |> List.mem_of_getElem?
    have hprocess : condition.process version e.1 = false := by
      simp [Condition.process, Entry.live, hdeleted e.1 hmem]
    simp [hprocess, hne]
  rw [hnone, List.append_nil]

/-- **A table that is back selects the same entries.** -/
theorem Back.selectNoLock_eq (h' : Back c version g h) (condition : Condition) :
    h.selectNoLock version remoteDB key condition = g.selectNoLock version remoteDB key condition := by
  obtain ⟨ghosts, hnew, hdeleted⟩ := h'.newOf key
  have hselectNew : h.selectNew version key (condition.EQ g.info.key key)
      = g.selectNew version key (condition.EQ g.info.key key) :=
    selectNew_ghosts (EQ_conditions_ne_nil _ _ _) hnew hdeleted
  simp only [selectNoLock, h'.info, hselectNew, selectBackend, selectUpdated, processed, h'.dirty,
    h'.dirtyUpdated]

/-! ### Rolling back on tables that are back -/

def KeepsDeleted (undo : Entry → Entry) : Prop := ∀ e, e.deleted = true → (undo e).deleted = true

theorem Back.rollbackRecord (h' : Back c version g h) (hdirty : g.hashDirty = true)
    {undo : Entry → Entry} (hundo : KeepsDeleted undo) (key : Bytes) (record : Change.Record) :
    Back c version (g.rollbackRecord key record undo) (h.rollbackRecord key record undo) := by
  have hg := sameMarks_rollbackRecord g key record undo
  have hh := sameMarks_rollbackRecord h key record undo
  refine ⟨?_, ?_, ?_, ?_, ?_, ?_, ?_, ?_⟩
  · rw [hg.info, hh.info, h'.info]
  · rw [hg.hash, hh.hash, h'.hash]
  · rw [hg.tableData, hh.tableData, h'.tableData]
  · intro id
    rw [dirty_rollbackRecord, dirty_rollbackRecord, h'.dirty]
  · intro key'
    rw [hg.dirtyUpdated, hh.dirtyUpdated, h'.dirtyUpdated]
  · intro key'
    rw [newOf_rollbackRecord, newOf_rollbackRecord]
    by_cases hkey : key' = key ∧ record.id = 0
    · rw [if_pos hkey, if_pos hkey]
      obtain ⟨ghosts, hnew, hdeleted⟩ := h'.newOf key
      rw [hnew, modify_append]
      by_cases hlt : record.index < (g.newOf key).length
      · exact ⟨ghosts, if_pos hlt, hdeleted⟩
      · refine ⟨ghosts.modify (record.index - (g.newOf key).length) undo, ?_, ?_⟩
        · rw [if_neg hlt, List.modify_eq_self (Nat.le_of_not_lt hlt)]
        · intro e he
          obtain ⟨i, hi⟩ := List.mem_iff_getElem?.mp he
          rw [List.getElem?_modify] at hi
          obtain ⟨e', he', rfl⟩ := Option.map_eq_some_iff.mp hi
          have hdel := hdeleted e' (List.mem_of_getElem? he')
          split
          · exact hundo e' hdel
          · exact hdel
    · rw [if_neg hkey, if_neg hkey]
      exact h'.newOf key'
  · rw [hg.dataDirty, hh.dataDirty, hg.info]
    exact h'.dataDirty
  · left
    rw [hg.hashDirty, hh.hashDirty, hdirty]
    rcases h'.hashDirty with heq | ⟨htrue, -⟩
    · exact heq.trans hdirty
    · exact htrue

theorem Back.rollbackRecords (h' : Back c version g h) (hdirty : g.hashDirty = true)
    {undo : Change.Record → Entry → Entry} (hundo : ∀ r, KeepsDeleted (undo r)) (key : Bytes)
    (records : List Change.Record) :
    Back c version (g.rollbackRecords key records undo) (h.rollbackRecords key records undo) := by
  induction records generalizing g h with
  | nil => exact h'
  | cons record records ih =>
    apply ih (h'.rollbackRecord hdirty (hundo record) key record)
    exact (sameMarks_rollbackRecord g key record _).hashDirty.trans hdirty

/-- **Undoing one change more keeps a table back.** -/
theorem Back.rollback (h' : Back c version g h) (hdirty : g.hashDirty = true) (change : Change) :
    Back c version (g.rollback change) (h.rollback change) := by
  rw [MemoryTable2.rollback, MemoryTable2.rollback]
  cases change.kind with
  | Insert =>
    dsimp only
    cases change.value with
    | nil => exact h'
    | cons record records => exact h'.rollbackRecord hdirty (fun _ _ => rfl) _ _
  | Update =>
    have hkeep : ∀ record : Change.Record, KeepsDeleted fun e => e.setField record.key record.oldValue :=
      fun _ _ he => he
    exact h'.rollbackRecords hdirty hkeep change.key change.value
  | Remove =>
    have hkeep : ∀ _ : Change.Record, KeepsDeleted fun e => e.setStatus 0 := fun _ _ he => he
    exact h'.rollbackRecords hdirty hkeep change.key change.value

/-! ### Well-formed tables stay so -/

theorem Wf.insert (hwf : t.Wf) {entry : Entry} (hid : entry.id = 0) {options : AccessOptions}
    {r : Result H} (h : t.insert key entry options = .ok r) : r.2.1.info = t.info ∧ r.2.1.Wf := by
  rw [MemoryTable2.insert] at h
  split at h
  next =>
    cases h
    exact ⟨rfl, hwf⟩
  next =>
    obtain ⟨-, h⟩ := checkField_of_ok h
    cases h
    refine ⟨rfl, hwf.dirty, ?_⟩
    intro key' e he
    have hnew := newOf_insert t key key' ((t.newEntries.find? key).getD [] ++ [entry.setField t.info.key key])
    have hmem : e ∈ if key' = key then (t.newEntries.find? key).getD [] ++ [entry.setField t.info.key key]
        else t.newOf key' := by
      rw [← hnew]
      exact he
    split at hmem
    next =>
      rcases List.mem_append.mp hmem with hold | hlast
      · exact hwf.new key e hold
      · obtain rfl := List.mem_singleton.mp hlast
        exact hid
    next => exact hwf.new key' e hmem

theorem Wf.loop (hwf : t.Wf) {change : Entry → Entry} (hid : ∀ e, (change e).id = e.id)
    {recordsOf : Selected → List Change.Record}
    {step : MemoryTable2 H → Selected → MemoryTable2 H × List Change.Record} {l : List Selected}
    (hstep : ∀ t' s, t'.info = t.info → ValidAt t' key s → StepAt key change recordsOf t' s (step t' s))
    (hvalid : ∀ s ∈ l, ValidAt t key s) (hnodup : (l.map Selected.home).Nodup) :
    (forSelected step t l).1.info = t.info ∧ (forSelected step t l).1.touched.Wf := by
  obtain ⟨-, hchanged, hother, hrest⟩ := forSelected_cell hstep rfl hvalid hnodup
  refine ⟨hrest.info, ?_, ?_⟩
  · intro id e hfind
    have hcell : (forSelected step t l).1.cell key (.dirty id) = some e := hfind
    by_cases hp : Place.dirty id ∈ l.map Selected.home
    · obtain ⟨s, hs, hhome⟩ := List.mem_map.mp hp
      have hafter := hchanged s hs
      rw [hhome, hcell] at hafter
      cases hafter
      rw [hid]
      exact (hvalid s hs).dirtyId id hhome
    · rw [hother _ hp] at hcell
      exact hwf.dirty id e hcell
  · intro key' e he
    have hmem : e ∈ (forSelected step t l).1.newOf key' := he
    by_cases hkey : key' = key
    · subst hkey
      obtain ⟨index, hindex⟩ := List.mem_iff_getElem?.mp hmem
      have hcell : (forSelected step t l).1.cell key' (.new index) = some e := hindex
      by_cases hp : Place.new index ∈ l.map Selected.home
      · obtain ⟨s, hs, hhome⟩ := List.mem_map.mp hp
        have hafter := hchanged s hs
        rw [hhome, hcell] at hafter
        cases hafter
        rw [hid]
        exact (hvalid s hs).newId index hhome
      · rw [hother _ hp] at hcell
        exact hwf.new key' e (List.mem_of_getElem? hcell)
    · rw [hrest.newOf key' hkey] at hmem
      exact hwf.new key' e hmem

theorem Wf.update (hwf : t.Wf) (hdb : RowsDistinct remoteDB) {entry : Entry} {condition : Condition}
    {options : AccessOptions} {r : Result H}
    (h : t.update version remoteDB key entry condition options = .ok r) :
    r.2.1.info = t.info ∧ r.2.1.Wf := by
  rw [MemoryTable2.update] at h
  split at h
  next =>
    cases h
    exact ⟨rfl, hwf⟩
  next =>
    obtain ⟨-, h⟩ := checkField_of_ok h
    cases h
    exact hwf.loop (fun e => (foldl_setField_marks _ e).1)
      (fun t' s hinfo hs => updateOne_stepAt entry hinfo hs)
      (fun s hs => validAt_of_mem_select hwf hdb hs) (nodup_homes_select hwf hdb)

theorem Wf.remove (hwf : t.Wf) (hdb : RowsDistinct remoteDB) {condition : Condition}
    {options : AccessOptions} {r : Result H}
    (h : t.remove version remoteDB key condition options = .ok r) :
    r.2.1.info = t.info ∧ r.2.1.Wf := by
  rw [MemoryTable2.remove] at h
  split at h
  next =>
    cases h
    exact ⟨rfl, hwf⟩
  next =>
    cases h
    have hid : ∀ e : Entry, (e.setStatus Entry.DELETED).id = e.id := fun _ => rfl
    exact hwf.loop hid (fun t' s _ hs => removeOne_stepAt hs)
      (fun s hs => validAt_of_mem_select hwf hdb hs) (nodup_homes_select hwf hdb)

theorem Wf.rollbackRecord (hwf : t.Wf) {undo : Entry → Entry} (hid : ∀ e, (undo e).id = e.id)
    (key : Bytes) (record : Change.Record) : (t.rollbackRecord key record undo).Wf where
  dirty := by
    intro id e hfind
    rw [dirty_rollbackRecord] at hfind
    split at hfind
    next =>
      obtain ⟨e', he', rfl⟩ := Option.map_eq_some_iff.mp hfind
      rw [hid]
      exact hwf.dirty id e' he'
    next => exact hwf.dirty id e hfind
  new := by
    intro key' e he
    rw [newOf_rollbackRecord] at he
    split at he
    next =>
      obtain ⟨i, hi⟩ := List.mem_iff_getElem?.mp he
      rw [List.getElem?_modify] at hi
      obtain ⟨e', he', rfl⟩ := Option.map_eq_some_iff.mp hi
      have hold := hwf.new key e' (List.mem_of_getElem? he')
      split
      · rw [hid]
        exact hold
      · exact hold
    next => exact hwf.new key' e he

theorem Wf.rollbackRecords (hwf : t.Wf) {undo : Change.Record → Entry → Entry}
    (hid : ∀ r e, (undo r e).id = e.id) (key : Bytes) (records : List Change.Record) :
    (t.rollbackRecords key records undo).Wf := by
  induction records generalizing t with
  | nil => exact hwf
  | cons record records ih => exact ih (hwf.rollbackRecord (hid record) key record)

theorem info_rollback (t : MemoryTable2 H) (change : Change) : (t.rollback change).info = t.info := by
  rw [MemoryTable2.rollback]
  cases change.kind with
  | Insert =>
    dsimp only
    cases change.value with
    | nil => rfl
    | cons record records => exact (sameMarks_rollbackRecord _ _ _ _).info
  | Update => exact (sameMarks_rollbackRecords t change.key change.value _).info
  | Remove => exact (sameMarks_rollbackRecords t change.key change.value _).info

theorem Wf.rollback (hwf : t.Wf) (change : Change) : (t.rollback change).Wf := by
  rw [MemoryTable2.rollback]
  cases change.kind with
  | Insert =>
    dsimp only
    cases change.value with
    | nil => exact hwf
    | cons record records =>
      have hid : ∀ e : Entry, (e.setDeleted true).id = e.id := fun _ => rfl
      exact hwf.rollbackRecord hid change.key { index := record.index }
  | Update =>
    have hid : ∀ (record : Change.Record) (e : Entry), (e.setField record.key record.oldValue).id = e.id :=
      fun _ _ => rfl
    exact hwf.rollbackRecords hid change.key change.value
  | Remove =>
    have hid : ∀ (_ : Change.Record) (e : Entry), (e.setStatus 0).id = e.id := fun _ _ => rfl
    exact hwf.rollbackRecords hid change.key change.value

end MemoryTable2

end HieraChain.Storage
