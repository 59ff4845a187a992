/-
  HieraChain/MemoryTable2.lean
  ============================
  **The table of a block under execution** (`libstorage/MemoryTable2.h`, `.cpp`).

  A table lays its changes over the backend: `m_dirty` holds the rows of the
  backend that were changed, by their id, and `m_newEntries` the inserted rows,
  by their key.  Entries are shared pointers in the source; here a selected
  entry comes with the place it lives at, and a write goes to that place.  A
  row that is only in the backend is a copy, which a write turns into a dirty
  row.

  The backend is a parameter.  The exits of the process on an exception of the
  backend are left out, and so is the cast of a number of rows to `int`.
-/
import HieraChain.AssocMap
import HieraChain.BufferWrites
import HieraChain.Table
import HieraChain.UnstableSort

namespace HieraChain.Storage

open HieraChain.BigEndian HieraChain.BufferWrites

structure TableData where
  info : TableInfo
  dirtyEntries : List Entry := []
  newEntries : List Entry := []

structure Change where
  table : Bytes
  kind : Change.Kind
  key : Bytes
  value : List Change.Record
  deriving DecidableEq, Repr

structure AccessOptions where
  origin : Nat := 0
  check : Bool := true

def CODE_NO_AUTHORIZED : Int := -50000

/-- `std::invalid_argument`. -/
inductive InvalidArgument
  | invalidKey (text : String)
  deriving DecidableEq, Repr

/-- `Storage::select` on one table: `none` is the null pointer. -/
abbrev RemoteDB := Bytes → Condition → Option (List Entry)

structure MemoryTable2 (H : Type) where
  info : TableInfo
  newEntries : AssocMap Bytes (List Entry) := AssocMap.empty
  dirty : AssocMap Nat Entry := AssocMap.empty
  dirtyUpdated : AssocMap Bytes (SortedMap Nat Unit) := AssocMap.empty
  hash : H
  tableData : Option TableData := none
  hashDirty : Bool := false
  dataDirty : Bool := false

inductive Place
  | backend
  | dirty (id : Nat)
  | new (index : Nat)
  deriving DecidableEq, Repr

structure Selected where
  place : Place
  entry : Entry

namespace MemoryTable2

variable {H : Type} (version : Nat) (remoteDB : Option RemoteDB)

/-! ### Select -/

/-- The rows that `entries` has from `begin` to `begin + count`. -/
def proccessLimit (condition : Condition) (entries : List Selected) : List Selected :=
  let begin := condition.getOffset
  let limit :=
    if version < V2_1_0 then Int.bmod (begin + condition.getCount) (2 ^ 32)
    else min (2 ^ 31 - 1) (begin + condition.getCount)
  if begin ≥ entries.length then []
  else (entries.take limit.toNat).drop begin.toNat

/-- The rows of the backend, each replaced by its dirty row if it has one. -/
def selectBackend (t : MemoryTable2 H) (condition : Condition) (dbEntries : List Entry) :
    List Selected :=
  dbEntries.filterMap fun e =>
    match t.dirty.find? e.id with
    | none => some ⟨.backend, e⟩
    | some d =>
      if V2_5_0 ≤ version && !condition.process version d then none else some ⟨.dirty e.id, d⟩

def processed (t : MemoryTable2 H) (dbEntries : List Entry) : List Nat :=
  dbEntries.filterMap fun e => (t.dirty.find? e.id).map Entry.id

def selectUpdated (t : MemoryTable2 H) (key : Bytes) (condition : Condition) (processed : List Nat) :
    List Selected :=
  if V2_5_0 ≤ version then
    let updated := ((t.dirtyUpdated.find? key).map SortedMap.keys).getD []
    (updated.filter fun id => !processed.contains id).filterMap fun id =>
      match t.dirty.find? id with
      | some d => if condition.process version d then some ⟨.dirty id, d⟩ else none
      | none => none
  else []

/-- The inserted rows of the key (`processEntries`). -/
def selectNew (t : MemoryTable2 H) (key : Bytes) (condition : Condition) : List Selected :=
  let entries := (t.newEntries.find? key).getD []
  entries.zipIdx.filterMap fun e =>
    if condition.conditions.entries.isEmpty || condition.process version e.1 then
      some ⟨.new e.2, e.1⟩
    else none

def limited (condition : Condition) (entries : List Selected) : List Selected :=
  if 0 ≤ condition.getOffset ∧ 0 ≤ condition.getCount then
    proccessLimit version condition entries
  else entries

def selectNoLock (t : MemoryTable2 H) (key : Bytes) (condition : Condition) : List Selected :=
  let condition := condition.EQ t.info.key key
  match remoteDB with
  | none => limited version condition (t.selectNew version key condition)
  | some db =>
    match db key condition with
    | none => []
    | some dbEntries =>
      limited version condition
        (t.selectBackend version condition dbEntries
          ++ t.selectUpdated version key condition (t.processed dbEntries)
          ++ t.selectNew version key condition)

def select (t : MemoryTable2 H) (key : Bytes) (condition : Condition) : List Entry :=
  (t.selectNoLock version remoteDB key condition).map Selected.entry

/-! ### Writes -/

def read (t : MemoryTable2 H) (key : Bytes) (s : Selected) : Entry :=
  match s.place with
  | .backend => s.entry
  | .dirty id => (t.dirty.find? id).getD s.entry
  | .new index => (((t.newEntries.find? key).getD [])[index]?).getD s.entry

/-- Write an entry to its place.  A row of the backend becomes dirty, unless it
    has no id or its id is dirty already: then the copy is lost. -/
def write (t : MemoryTable2 H) (key : Bytes) (place : Place) (e : Entry) : MemoryTable2 H :=
  match place with
  | .backend =>
    if e.id ≠ 0 ∧ t.dirty.contains e.id = false then { t with dirty := t.dirty.insert e.id e } else t
  | .dirty id => { t with dirty := t.dirty.insert id e }
  | .new index =>
    { t with
      newEntries := t.newEntries.insert key (((t.newEntries.find? key).getD []).set index e) }

def Place.index : Place → Nat
  | .new index => index
  | _ => 0

/-- `m_dirty_updated[key].insert(id)` for a row that becomes dirty. -/
def noteUpdated (t : MemoryTable2 H) (key : Bytes) (place : Place) (id : Nat) : MemoryTable2 H :=
  if place = .backend ∧ id ≠ 0 ∧ t.dirty.contains id = false then
    let ids := (t.dirtyUpdated.find? key).getD SortedMap.empty
    { t with dirtyUpdated := t.dirtyUpdated.insert key (ids.insert id ()) }
  else t

/-- The fields of `entry` that an update writes. -/
def updatedFields (info : TableInfo) (entry : Entry) : List (Bytes × Bytes) :=
  entry.fields.entries.filter fun f => decide (f.1 ≠ ID_FIELD ∧ f.1 ≠ info.key)

def updateOne (t : MemoryTable2 H) (key : Bytes) (entry : Entry) (s : Selected) :
    MemoryTable2 H × List Change.Record :=
  let e := t.read key s
  let fields := updatedFields t.info entry
  let records := fields.map fun f =>
    { index := Place.index s.place, key := f.1, oldValue := e.getField f.1, id := e.id }
  let e' := fields.foldl (fun e f => e.setField f.1 f.2) e
  ((t.noteUpdated key s.place e.id).write key s.place e', records)

def checkAuthority (info : TableInfo) (origin : Nat) : Bool :=
  info.authorizedAddress.isEmpty || info.authorizedAddress.contains origin

def checkField (info : TableInfo) (entry : Entry) : Except InvalidArgument Unit :=
  if entry.fields.keys.all fun f => info.fields.contains f then .ok ()
  else .error (.invalidKey "Invalid key.")

def touched (t : MemoryTable2 H) : MemoryTable2 H := { t with hashDirty := true, dataDirty := true }

/-- A loop over selected rows that changes the table and collects records. -/
def forSelected (step : MemoryTable2 H → Selected → MemoryTable2 H × List Change.Record)
    (t : MemoryTable2 H) (selected : List Selected) : MemoryTable2 H × List Change.Record :=
  selected.foldl (fun acc s =>
    let r := step acc.1 s
    (r.1, acc.2 ++ r.2)) (t, [])

abbrev Result (H : Type) := Int × MemoryTable2 H × List Change

def update (t : MemoryTable2 H) (key : Bytes) (entry : Entry) (condition : Condition)
    (options : AccessOptions) : Except InvalidArgument (Result H) :=
  if options.check && !checkAuthority t.info options.origin then .ok (CODE_NO_AUTHORIZED, t, [])
  else do
    checkField t.info entry
    let entries := t.selectNoLock version remoteDB key condition
    let r := forSelected (fun t s => t.updateOne key entry s) t entries
    return (entries.length, r.1.touched, [⟨t.info.name, .Update, key, r.2⟩])

def insert (t : MemoryTable2 H) (key : Bytes) (entry : Entry) (options : AccessOptions) :
    Except InvalidArgument (Result H) :=
  if options.check && !checkAuthority t.info options.origin then .ok (CODE_NO_AUTHORIZED, t, [])
  else do
    checkField t.info entry
    let entries := (t.newEntries.find? key).getD []
    let t' := { t with newEntries := t.newEntries.insert key (entries ++ [entry.setField t.info.key key]) }
    return (1, t'.touched, [⟨t.info.name, .Insert, key, [{ index := entries.length }]⟩])

def removeOne (t : MemoryTable2 H) (key : Bytes) (s : Selected) :
    MemoryTable2 H × List Change.Record :=
  let e := (t.read key s).setStatus Entry.DELETED
  (t.write key s.place e, [{ index := Place.index s.place, id := e.id }])

def remove (t : MemoryTable2 H) (key : Bytes) (condition : Condition) (options : AccessOptions) :
    Except InvalidArgument (Result H) :=
  if options.check && !checkAuthority t.info options.origin then .ok (CODE_NO_AUTHORIZED, t, [])
  else
    let entries := t.selectNoLock version remoteDB key condition
    let r := forSelected (fun t s => t.removeOne key s) t entries
    .ok (entries.length, r.1.touched, [⟨t.info.name, .Remove, key, r.2⟩])

/-! ### Rollback -/

def rollbackRecord (t : MemoryTable2 H) (key : Bytes) (record : Change.Record) (undo : Entry → Entry) :
    MemoryTable2 H :=
  if record.id ≠ 0 then
    match t.dirty.find? record.id with
    | some e => { t with dirty := t.dirty.insert record.id (undo e) }
    | none => t
  else
    match t.newEntries.find? key with
    | some entries =>
      match entries[record.index]? with
      | some e => { t with newEntries := t.newEntries.insert key (entries.set record.index (undo e)) }
      | none => t
    | none => t

/-- `rollback` of one change. -/
def rollback (t : MemoryTable2 H) (change : Change) : MemoryTable2 H :=
  match change.kind with
  | .Insert =>
    match change.value with
    | record :: _ => t.rollbackRecord change.key { index := record.index } fun e => e.setDeleted true
    | [] => t
  | .Update =>
    change.value.foldl (fun t record =>
      t.rollbackRecord change.key record fun e => e.setField record.key record.oldValue) t
  | .Remove =>
    change.value.foldl (fun t record =>
      t.rollbackRecord change.key record fun e => e.setStatus 0) t

/-! ### Dump -/

/-- `(char)getStatus()`. -/
def statusByte (e : Entry) : UInt8 := UInt8.ofNat (e.status % 256).toNat

/-- The `memcpy` calls of one iteration of `parallelGenData`. -/
def genDataFields (start : Nat) (status : UInt8) : List (Bytes × Bytes) → List (Nat × Bytes)
  | [] => [(start, [status])]
  | f :: fields =>
    if isHashField f.1 then
      (start, f.1) :: (start + f.1.length, f.2)
        :: genDataFields (start + f.1.length + f.2.length) status fields
    else genDataFields start status fields

/-- `genDataOffset`: where each entry starts, and where the last one ends. -/
def genDataOffset (startOffset : Nat) : List Entry → List Nat
  | [] => [startOffset]
  | e :: entries => startOffset :: genDataOffset (startOffset + (e.capacityOfHashField + 1).toNat) entries

/-- The `memcpy` calls of all iterations. -/
def parallelGenData (offsets : List Nat) (entries : List Entry) : List (Nat × Bytes) :=
  ((entries.zip offsets).map fun e => genDataFields e.2 (statusByte e.1) e.1.fields.entries).flatten

def genDataCalls (dirtyEntries newEntries : List Entry) : List (Nat × Bytes) :=
  let dirtyEntriesOffset := genDataOffset 0 dirtyEntries
  let insertDataStartOffset := dirtyEntriesOffset.getLastD 0
  parallelGenData dirtyEntriesOffset dirtyEntries
    ++ parallelGenData (genDataOffset insertDataStartOffset newEntries) newEntries

def allSize (entries : List Entry) : Nat := (entries.map fun e => (e.capacityOfHashField + 1).toNat).sum

def dirtyRows (t : MemoryTable2 H) : List Entry :=
  (t.dirty.entries.map Prod.snd).filter fun e => !e.deleted

def newRows (t : MemoryTable2 H) : List Entry :=
  (t.newEntries.entries.map Prod.snd).flatten.filter fun e => !e.deleted

/-- The hash function and `h256()`. -/
structure Hasher (H : Type) where
  hash : Bytes → H
  zero : H

/-- What `dump` may compute.  The containers are read in any order, the sort is
    any sort, and the threads that fill the buffer run their calls in any order. -/
structure Computes (c : Hasher H) (t : MemoryTable2 H) (data : TableData) (hash : H) : Prop where
  info : data.info = t.info
  dirtyEntries : data.dirtyEntries.Perm t.dirtyRows
  newEntries : data.newEntries.Perm t.newRows
  sorted : t.info.enableConsensus = true →
    SortOf (EntryLessNoLock t.info) t.dirtyRows data.dirtyEntries
      ∧ SortOf (EntryLessNoLock t.info) t.newRows data.newEntries
  hash_eq :
    if t.info.enableConsensus then
      ∃ calls allData, calls.Perm (genDataCalls data.dirtyEntries data.newEntries)
        ∧ writeAll (List.replicate (allSize data.dirtyEntries + allSize data.newEntries) 0) calls
          = some allData
        ∧ hash = c.hash allData
    else hash = c.zero

/-- `dump`: what it may return and leave as the hash. -/
def Dump (c : Hasher H) (t : MemoryTable2 H) (data : Option TableData) (hash : H) : Prop :=
  if t.hashDirty then ∃ d, data = some d ∧ t.Computes c d hash
  else data = t.tableData ∧ hash = t.hash

end MemoryTable2

end HieraChain.Storage
