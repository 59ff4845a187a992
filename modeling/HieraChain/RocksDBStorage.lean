/-
  HieraChain/RocksDBStorage.lean
  ==============================
  **Rows in RocksDB** (`libstorage/RocksDBStorage.h`, `RocksDBStorage.cpp`, and
  `checkStatus`, `Get`, `PutWithLock` and `Write` of `BasicRocksDB.cpp`).

  The value of a key is the list of all its rows, each a `std::map` of texts; the
  serialisation is taken as lossless, and so is the encryption.  How each access
  turns out is an input: success, a fatal status, or one that can be recovered
  by a retry.  A key that is not found is no failure.  The tables of a commit are
  handled in parallel, so the puts come in any order.
-/
import HieraChain.CachedStorage
import HieraChain.Decimal

namespace HieraChain.RocksDBStorage

open HieraChain.BigEndian HieraChain.Storage HieraChain.CachedStorage HieraChain.Decimal

/-! ### RocksDB -/

/-- The three classes of `checkStatus`. -/
inductive Status where
  | ok
  | fatal
  | retry
  deriving DecidableEq, Repr

/-- `DatabaseNeedRetry`, any other exception, or the end of the process. -/
inductive Failure where
  | retry
  | exception
  | abort
  deriving DecidableEq, Repr

/-- `map<string, string>`. -/
abbrev StoredRow := SortedMap Bytes Bytes

abbrev DB := AssocMap Bytes (List StoredRow)

structure Put where
  key : Bytes
  value : List StoredRow

/-- How the accesses of a call turn out, and in which order its puts come. -/
structure Outcomes where
  get : Bytes → Status
  put : Bytes → Status
  write : Status
  order : List Put → List Put
  order_perm : ∀ puts, (order puts).Perm puts

def checkStatus : Status → Except Failure Unit
  | .ok => .ok ()
  | .fatal => .error .exception
  | .retry => .error .retry

def entryKey (table key : Bytes) : Bytes := table ++ underscore :: key

def Get (db : DB) (o : Outcomes) (key : Bytes) : Except Failure (Option (List StoredRow)) :=
  match checkStatus (o.get key) with
  | .ok () => .ok (db.find? key)
  | .error f => .error f

/-- `Write` applies the batch. -/
def write (db : DB) (puts : List Put) : DB := puts.foldl (fun db p => db.insert p.key p.value) db

/-! ### Numbers as texts -/

/-- `boost::lexical_cast` to an unsigned type, which takes a sign. -/
def castUnsigned (width : Nat) (s : Bytes) : Option Nat :=
  let negative := s.head? = some minus
  let text := if negative ∨ s.head? = some plus then s.tail else s
  if text.isEmpty then none
  else
    match digits 0 text with
    | some n => if n < 2 ^ width then some (if negative then (2 ^ width - n) % 2 ^ width else n) else none
    | none => none

/-- `boost::lexical_cast<int>`. -/
def castInt (s : Bytes) : Option Int :=
  match lexicalCast s with
  | some v => if -2 ^ 31 ≤ v ∧ v < 2 ^ 31 then some v else none
  | none => none

/-! ### Select -/

/-- One field of a stored row; `none` where the cast throws. -/
def readField (e : Entry) (field : Bytes × Bytes) : Option Entry :=
  if field.1 = ID_FIELD then (castUnsigned 64 field.2).map fun id => { e with id }
  else if field.1 = NUM_FIELD then (castUnsigned 32 field.2).map fun num => { e with num }
  else if field.1 = STATUS then (castInt field.2).map e.setStatus
  else some (e.setField field.1 field.2)

def readFields (e : Entry) : List (Bytes × Bytes) → Option Entry
  | [] => some e
  | f :: fs => (readField e f).bind fun e => readFields e fs

def readRow (row : StoredRow) : Option Entry := readFields {} row.entries

def readRows : List StoredRow → Option (List Entry)
  | [] => some []
  | row :: rows => (readRow row).bind fun e => (readRows rows).map fun es => e :: es

def NORMAL : Int := 0

def select (version : Nat) (db : DB) (o : Outcomes) (info : TableInfo) (key : Bytes)
    (condition : Option Condition) : Reply (Option (List Entry)) :=
  match Get db o (entryKey info.name key) with
  | .ok found =>
    match readRows (found.getD []) with
    | some entries =>
      .value (some (entries.filter fun e =>
        decide (e.status = NORMAL) && condition.all fun c => c.process version e))
    | none => .thrown
  | .error .retry => .value none
  | .error .exception => .thrown
  | .error .abort => .ended .fatal

/-! ### Commit -/

/-- `key2value` of one table. -/
abbrev KeyToRows := SortedMap Bytes (List StoredRow)

def copyFromEntry (num : Nat) (value : StoredRow) (e : Entry) : StoredRow :=
  (((e.fields.entries.foldl (fun m f => m.insert f.1 f.2) value).insert NUM_FIELD (decimal num)).insert
    ID_FIELD (decimal e.id)).insert STATUS (signedDecimal e.status)

def newRow (num : Nat) (e : Entry) : StoredRow := copyFromEntry num SortedMap.empty e

def idOf (row : StoredRow) : Option Nat := (row.find? ID_FIELD).bind (castUnsigned 64)

def idsOf : List StoredRow → Option (List Nat)
  | [] => some []
  | row :: rows => (idOf row).bind fun id => (idsOf rows).map fun ids => id :: ids

def patch (num : Nat) (rows : List StoredRow) (e : Entry) : Except Failure (List StoredRow) :=
  match idsOf rows with
  | none => .error .exception
  | some ids =>
    let i := ids.findIdx fun id => !decide (id < e.id)
    match rows[i]? with
    | none => .error .abort
    | some row =>
      if row.find? ID_FIELD = some (decimal e.id) then .ok (rows.set i (copyFromEntry num row e))
      else .error .abort

def listOf (db : DB) (o : Outcomes) (info : TableInfo) (key2value : KeyToRows) (key : Bytes) :
    Except Failure (List StoredRow) :=
  match key2value.find? key with
  | some rows => .ok rows
  | none => (Get db o (entryKey info.name key)).map fun found => found.getD []

/-- A turn of the loop of `processEntries`.  Only a new entry can be forced; its
    list starts empty. -/
def processEntry (db : DB) (o : Outcomes) (num : Nat) (info : TableInfo) (isDirtyEntries : Bool)
    (key2value : KeyToRows) (e : Entry) : Except Failure KeyToRows :=
  let key := e.getField info.key
  let list :=
    if !isDirtyEntries && e.force then .ok ((key2value.find? key).getD [])
    else listOf db o info key2value key
  list.bind fun rows =>
    if isDirtyEntries then (patch num rows e).map fun rows => key2value.insert key rows
    else .ok (key2value.insert key (rows ++ [newRow num e]))

def processEntries (db : DB) (o : Outcomes) (num : Nat) (info : TableInfo) (isDirtyEntries : Bool)
    (key2value : KeyToRows) : List Entry → Except Failure KeyToRows
  | [] => .ok key2value
  | e :: es =>
    (processEntry db o num info isDirtyEntries key2value e).bind fun key2value =>
      processEntries db o num info isDirtyEntries key2value es

def processDirtyEntries (num : Nat) (info : TableInfo) (key2value : KeyToRows) : List Entry → KeyToRows
  | [] => key2value
  | e :: es =>
    if e.deleted then processDirtyEntries num info key2value es
    else
      let key := e.getField info.key
      processDirtyEntries num info
        (key2value.insert key ((key2value.find? key).getD [] ++ [newRow num e])) es

def tableLists (shouldCompleteDirty : Bool) (db : DB) (o : Outcomes) (num : Nat) (data : TableData) :
    Except Failure KeyToRows :=
  (if shouldCompleteDirty then
      processEntries db o num data.info true SortedMap.empty data.dirtyEntries
    else .ok (processDirtyEntries num data.info SortedMap.empty data.dirtyEntries)).bind fun key2value =>
    processEntries db o num data.info false key2value data.newEntries

/-- `PutWithLock` of every list. -/
def putLists (o : Outcomes) (info : TableInfo) : List (Bytes × List StoredRow) → Except Failure (List Put)
  | [] => .ok []
  | l :: ls =>
    (checkStatus (o.put (entryKey info.name l.1))).bind fun _ =>
      (putLists o info ls).map fun puts => ⟨entryKey info.name l.1, l.2⟩ :: puts

def tablesPuts (shouldCompleteDirty : Bool) (db : DB) (o : Outcomes) (num : Nat) :
    List TableData → Except Failure (List Put)
  | [] => .ok []
  | data :: datas =>
    (tableLists shouldCompleteDirty db o num data).bind fun key2value =>
      (putLists o data.info key2value.entries).bind fun puts =>
        (tablesPuts shouldCompleteDirty db o num datas).map fun rest => puts ++ rest

def commit (shouldCompleteDirty : Bool) (db : DB) (o : Outcomes) (num : Nat) (datas : List TableData) :
    Reply (DB × Nat) :=
  match (tablesPuts shouldCompleteDirty db o num datas).bind fun puts =>
      (checkStatus o.write).map fun _ => puts with
  | .ok puts => .value (write db (o.order puts), datas.length)
  | .error .retry => .value (db, 0)
  | .error .exception => .thrown
  | .error .abort => .ended .fatal

/-- The backend of a cached storage, which completes the dirty entries itself. -/
def backend (version : Nat) : Backend DB Outcomes where
  onlyCommitDirty := false
  select db o _ info key condition := select version db o info key (some condition)
  commit db o num datas := commit false db o num datas

end HieraChain.RocksDBStorage
