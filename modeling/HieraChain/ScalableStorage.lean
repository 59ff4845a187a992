/-
  HieraChain/ScalableStorage.lean
  ===============================
  **Blocks in archive stores** (`libstorage/ScalableStorage.h`,
  `ScalableStorage.cpp`, `RocksDBStorageFactory.cpp`, and of
  `libledger/DBInitializer.cpp`: `initScalableStorage`, `recoverFromBinaryLog`,
  `getBlockNumberFromStorage`, `setRemoteBlockNumber`).

  A block goes to the binary log, its archive tables to the archive store in use,
  the rest to the state store, with the name of the archive store.  The disk holds
  the contents of every store after each of its commits: without a write-ahead log
  a crash leaves any of them.  The work of a commit and that after a start are
  tasks, done one after the other, so that a crash may come between any two.

  Of the state store, the number of the current block and the table of the names
  are shown; every block sets the number.  The accesses of the stores succeed.
-/
import HieraChain.Machine
import HieraChain.MemoryTableFactory2
import HieraChain.RocksDBRows
import Mathlib.Data.List.Sort

namespace HieraChain.ScalableStorage

open HieraChain.BigEndian HieraChain.Storage HieraChain.CachedStorage HieraChain.RocksDBStorage

structure Config where
  version : Nat
  /-- `RocksDBStorage::m_shouldCompleteDirty`: there is no cached storage. -/
  shouldCompleteDirty : Bool
  m_scrollThreshold : Nat

/-! ### Tables -/

def m_archiveTables : List Bytes := [SYS_HASH_2_BLOCK, SYS_BLOCK_2_NONCES]

def isStateData (tableName : Bytes) : Bool := decide (tableName ∉ m_archiveTables)

/-- The part of `separateData` that goes to the archive. -/
def archiveData (datas : List TableData) : List TableData := datas.filter fun d => !isStateData d.info.name

/-- An entry as `decodeEntries` reads it: forced in the archive tables. -/
def decoded (info : TableInfo) (e : Entry) : Entry :=
  { e with num := 0, deleted := false, force := !isStateData info.name }

def logged (datas : List TableData) : List TableData :=
  datas.map fun d => { d with
    dirtyEntries := d.dirtyEntries.map (decoded d.info)
    newEntries := d.newEntries.map (decoded d.info) }

/-! ### The disk -/

structure StateStore where
  currentNumber : Option Nat := none
  /-- The rows of `s_block_to_dbname`: number and name. -/
  dbNames : List (Nat × Nat) := []

/-- The contents of a store are listed from the newest; those of an archive store
    with the number of the block. -/
structure Disk where
  binaryLog : List (List TableData) := []
  state : List StateStore := []
  dirs : List Nat := []
  archives : Nat → List (Nat × DB) := fun _ => []

namespace Disk

def stateStore (d : Disk) : StateStore := d.state.headD {}

def archive (d : Disk) (name : Nat) : DB := (d.archives name).head?.elim AssocMap.empty Prod.snd

/-- `getStorage` with `_createIfMissing`. -/
def getStorage (d : Disk) (name : Nat) : Disk := { d with dirs := if name ∈ d.dirs then d.dirs else d.dirs ++ [name] }

/-- What a crash leaves: each store loses as many of its last commits as the arguments say. -/
def lose (d : Disk) (ofState : Nat) (ofArchive : Nat → Nat) : Disk :=
  { d with
    state := d.state.drop ofState
    archives := fun name => (d.archives name).drop (ofArchive name) }

end Disk

def getDBNameOfArchivedBlock (st : StateStore) (blockNumber : Int) : Option Nat :=
  (st.dbNames.find? fun row => (row.1 : Int) = blockNumber).map Prod.snd

def getBlockNumberFromStorage (st : StateStore) : Int := st.currentNumber.elim (-1) fun number => (number : Int)

/-! ### The binary log -/

def getLastBlockNum (log : List (List TableData)) : Int := log.length - 1

def getMissingBlocksFromBinLog (log : List (List TableData)) (startNum endNum : Int) : List (Nat × List TableData) :=
  (log.zipIdx.filter fun block => startNum < block.2 ∧ (block.2 : Int) ≤ endNum).map fun block => (block.2, logged block.1)

def findBlock (blocksData : List (Nat × List TableData)) (num : Int) : Option (Nat × List TableData) :=
  match blocksData.find? fun block => (block.1 : Int) = num with
  | some block => if block.2.isEmpty then none else some block
  | none => none

def interval : Int := 100

/-- The loop of `recoverFromBinaryLog`; `num` grows by `interval`. -/
def recoverLoop (log : List (List TableData)) : Nat → Int → Option (List (Nat × List TableData))
  | 0, _ => some []
  | fuel + 1, num =>
    if getLastBlockNum log < num then some []
    else
      let blocksData := getMissingBlocksFromBinLog log num (num + interval)
      ((List.range blocksData.length).mapM fun i : Nat => findBlock blocksData (num + (i + 1))).bind fun blocks =>
        (recoverLoop log fuel (num + interval)).map (blocks ++ ·)

def recoverFromBinaryLog (log : List (List TableData)) (startNum : Int) : Option (List (Nat × List TableData)) :=
  if getLastBlockNum log ≤ startNum then some [] else recoverLoop log (log.length + 1) startNum

/-! ### The storage -/

inductive Task
  | writeBlocktoBinLog (datas : List TableData)
  | archive (num : Nat) (archiveData : List TableData)
  | state (num : Nat)
  | scroll (num : Nat)
  | setRemoteBlockNumber

/-- `m_archive` is the name of the store that is open. -/
structure System where
  disk : Disk
  m_archiveDBName : Nat
  m_archive : Nat
  m_remoteBlockNumber : Int := -1
  tasks : List Task := []

def commit (num : Nat) (datas : List TableData) : List Task :=
  [.archive num (archiveData datas), .state num, .scroll num]

/-- `setRemoteBlockNumber` over the directories, the largest name first. -/
def remoteLoop (st : StateStore) : List Nat → Int → Int
  | [], remoteBlockNumber => remoteBlockNumber
  | [name], _ => name
  | name :: next :: rest, _ =>
    if getDBNameOfArchivedBlock st ((name : Int) - 1) = some next then remoteLoop st (next :: rest) name else name

def remoteBlockNumber (d : Disk) : Int := remoteLoop d.stateStore (d.dirs.insertionSort (· ≥ ·)) 0

structure PutOrder where
  order : List Put → List Put
  perm : ∀ puts, (order puts).Perm puts

def PutOrder.outcomes (order : PutOrder) : Outcomes where
  get _ := .ok
  put _ := .ok
  write := .ok
  order := order.order
  order_perm := order.perm

namespace System

def stateStore (s : System) : StateStore := s.disk.stateStore

/-- A task; `none` where the process ends. -/
def perform (cfg : Config) (order : PutOrder) (s : System) : Task → Option System
  | .writeBlocktoBinLog datas => some { s with disk := { s.disk with binaryLog := s.disk.binaryLog ++ [datas] } }
  | .archive num archiveData =>
    match RocksDBStorage.commit cfg.shouldCompleteDirty (s.disk.archive s.m_archive) order.outcomes num archiveData with
    | .value (db, _) =>
      some { s with disk := { s.disk with
        archives := Function.update s.disk.archives s.m_archive ((num, db) :: s.disk.archives s.m_archive) } }
    | _ => none
  | .state num =>
    -- the row of `getNumberToDBNameData` comes with the block's own data
    let st : StateStore :=
      { currentNumber := some num, dbNames := s.stateStore.dbNames ++ [(num, s.m_archiveDBName)] }
    some { s with disk := { s.disk with state := st :: s.disk.state } }
  | .scroll num =>
    if (num + 1) % cfg.m_scrollThreshold = 0 then
      some { s with disk := s.disk.getStorage (num + 1), m_archiveDBName := num + 1, m_archive := num + 1 }
    else some s
  | .setRemoteBlockNumber =>
    if remoteBlockNumber s.disk ≤ s.m_remoteBlockNumber then some s
    else some { s with m_remoteBlockNumber := remoteBlockNumber s.disk }

end System

/-- `initScalableStorage` and what follows it; `none` where the process ends. -/
def start (disk : Disk) : Option System :=
  let number := getBlockNumberFromStorage disk.stateStore
  let blockNumber := if 0 < number then number.toNat + 1 else 0
  (recoverFromBinaryLog disk.binaryLog number).map fun blocks =>
    { disk := disk.getStorage blockNumber
      m_archiveDBName := blockNumber
      m_archive := blockNumber
      tasks := (blocks.flatMap fun block => commit block.1 block.2) ++ [.setRemoteBlockNumber] }

/-! ### Selects -/

inductive Source
  | remote
  | archive (reply : Reply (Option (List Entry)))

def selectFromArchive (cfg : Config) (s : System) (order : PutOrder) (num : Nat) (info : TableInfo) (key : Bytes)
    (condition : Option Condition) : Reply (Option (List Entry)) :=
  if num < s.m_archiveDBName then
    match getDBNameOfArchivedBlock s.stateStore num with
    | none => .ended .fatal
    | some dbName =>
      if dbName ∈ s.disk.dirs then
        RocksDBStorage.select cfg.version (s.disk.archive dbName) order.outcomes info key condition
      else .value (some [])
  else RocksDBStorage.select cfg.version (s.disk.archive s.m_archive) order.outcomes info key condition

/-- `select` from an archive table. -/
def select (cfg : Config) (s : System) (order : PutOrder) (num : Nat) (info : TableInfo) (key : Bytes)
    (condition : Option Condition) : Source :=
  if (num : Int) < s.m_remoteBlockNumber then .remote
  else .archive (selectFromArchive cfg s order num info key condition)

/-! ### Runs -/

/-- A block that is handed over where no work is left, a task, or a crash. -/
inductive Input
  | block (datas : List TableData)
  | work (order : PutOrder)
  | crash (ofState : Nat) (ofArchive : Nat → Nat)

def System.step (cfg : Config) (s : System) : Input → Option System
  | .block datas =>
    if s.tasks.isEmpty then
      some { s with tasks := .writeBlocktoBinLog datas :: commit s.disk.binaryLog.length datas }
    else some s
  | .work order =>
    match s.tasks with
    | [] => some s
    | task :: tasks => ({ s with tasks }).perform cfg order task
  | .crash ofState ofArchive => start (s.disk.lose ofState ofArchive)

def machine (cfg : Config) : Machine (Option System) Input := ⟨fun s i => s.bind fun s => s.step cfg i⟩

end HieraChain.ScalableStorage
