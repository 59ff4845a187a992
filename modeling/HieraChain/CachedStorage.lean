/-
  HieraChain/CachedStorage.lean
  =============================
  **The storage that keeps the rows of the last blocks in memory**
  (`libstorage/CachedStorage.h`, `CachedStorage.cpp`).

  The caches are one map, keyed by the name of the table and the key of the
  rows, joined.  A commit is a sequence of steps: its parallel loops handle one
  entry at a time under the lock of its cache, in an order that the inputs
  choose, and selects, evictions and flushes take place in between.  The new
  entries wait for the last dirty one.  The flushes run on one thread, in the
  order of the blocks.

  The backend is a parameter, which may fail.  A row is a value: the copies of
  `copyFrom` share their fields until one is written.  The log statement at the
  level FATAL aborts.  Left out are the storage without a backend, the counts
  that `commit` returns and the statistics.  A cache that was removed from the
  map while a thread waited for its lock is fetched again, so `restoreCache`
  has nothing to do between whole steps.
-/
import HieraChain.AssocMap
import HieraChain.Machine
import HieraChain.MemoryTable2
import HieraChain.UnstableSort

namespace HieraChain.CachedStorage

open HieraChain.BigEndian HieraChain.Storage

/-! ### How a call ends -/

inductive End where
  | nullDereference
  | fatal
  deriving DecidableEq, Repr

inductive Reply (α : Type) where
  | value (a : α)
  | thrown
  | ended (why : End)

inductive Outcome (σ α : Type) where
  | done (s : σ) (a : α)
  | thrown (s : σ)
  | ended (why : End)

namespace Outcome

variable {σ α γ : Type}

def bind (x : Outcome σ α) (f : σ → α → Outcome σ γ) : Outcome σ γ :=
  match x with
  | .done s a => f s a
  | .thrown s => .thrown s
  | .ended why => .ended why

/-- An exception passes, with the state as `f` leaves it. -/
def onThrow (x : Outcome σ α) (f : σ → σ) : Outcome σ α :=
  match x with
  | .done s a => .done s a
  | .thrown s => .thrown (f s)
  | .ended why => .ended why

@[simp] theorem bind_done (s : σ) (a : α) (f : σ → α → Outcome σ γ) : (done s a).bind f = f s a := rfl
@[simp] theorem bind_thrown (s : σ) (f : σ → α → Outcome σ γ) : (thrown s).bind f = thrown s := rfl
@[simp] theorem bind_ended (why : End) (f : σ → α → Outcome σ γ) : (ended why).bind f = ended why := rfl
@[simp] theorem onThrow_done (s : σ) (a : α) (f : σ → σ) : (done s a).onThrow f = done s a := rfl
@[simp] theorem onThrow_thrown (s : σ) (f : σ → σ) :
    (thrown s : Outcome σ α).onThrow f = thrown (f s) := rfl
@[simp] theorem onThrow_ended (why : End) (f : σ → σ) :
    (ended why : Outcome σ α).onThrow f = ended why := rfl

end Outcome

/-- The backend: `β` are its states, `ω` says how its accesses turn out.  The
    rows of a select are a pointer, which may be null; a commit that throws
    changes nothing. -/
structure Backend (β ω : Type) where
  onlyCommitDirty : Bool
  select : β → ω → Nat → TableInfo → Bytes → Condition → Reply (Option (List Entry))
  commit : β → ω → Nat → List TableData → Reply (β × Nat)

/-! ### Entries -/

/-- `m_capacity`: the names and values of the fields, as `setField` counts them. -/
def capacity (e : Entry) : Int := (e.fields.entries.map fun f => (f.1.length + f.2.length : Int)).sum

def totalCapacity (entries : List Entry) : Int := (entries.map capacity).sum

/-- `m_num` is a `uint32_t`. -/
def setNum (e : Entry) (num : Nat) : Entry := { e with num := num % 2 ^ 32 }

/-! ### The state -/

structure Config where
  version : Nat
  maxForwardBlock : Nat
  maxCapacity : Int
  /-- `tbb::parallel_sort` with `EntryLessNoLock`. -/
  sort : TableInfo → List Entry → List Entry
  sort_spec : ∀ info entries, SortOf (EntryLessNoLock info) entries (sort info entries)

def Config.disabled (cfg : Config) : Bool := decide (cfg.maxCapacity = 0 ∧ cfg.maxForwardBlock = 0)

/-- `m_entries` is a pointer, which may be null. -/
structure Cache where
  entries : Option (List Entry) := some []
  num : Nat := 0
  empty : Bool := true

structure Task where
  num : Nat
  datas : List TableData

/-- `commitData` of one table, in the making: the copies of the dirty entries,
    the other rows of their keys, and what the second loop needs. -/
structure TableCommit where
  info : TableInfo
  slots : List Entry := []
  additions : List Entry := []
  addtionKey : List Bytes := []
  duplicateIDs : List Nat := []
  newEntries : List Entry := []
  processedKeys : List Bytes := []

structure Item where
  table : Nat
  info : TableInfo
  entry : Entry

/-- A commit under way.  `request` is what the caller handed over. -/
structure Commit where
  num : Nat
  request : List TableData
  tables : List TableCommit
  dirtyLeft : List Item
  newLeft : List Item

/-- A block whose commit returned: as the caller handed it over, and as it goes
    to the backend. -/
structure Committed where
  num : Nat
  request : List TableData
  datas : List TableData

/-- `running` also stands for the pool of the flushes, which stops with it.
    `committed` is the history of the commits that returned. -/
structure State (β : Type) where
  backend : β
  caches : AssocMap Bytes Cache := AssocMap.empty
  mruQueue : List (Bytes × Bytes × Int) := []
  mru : List (Bytes × Bytes) := []
  capacity : Int := 0
  syncNum : Nat := 0
  commitNum : Nat := 0
  tasks : List Task := []
  running : Bool := true
  committing : Option Commit := none
  committed : List Committed := []

variable {β ω : Type}

/-! ### The caches -/

def cacheKey (table key : Bytes) : Bytes := table ++ underscore :: key

namespace State

def cacheAt (s : State β) (k : Bytes) : Cache := (s.caches.find? k).getD {}

def setCache (s : State β) (k : Bytes) (c : Cache) : State β := { s with caches := s.caches.insert k c }

def touchCache (s : State β) (table key : Bytes) : State β :=
  s.setCache (cacheKey table key) (s.cacheAt (cacheKey table key))

def touchMRU (s : State β) (cfg : Config) (table key : Bytes) (capacity : Int) : State β :=
  if cfg.disabled then s else { s with mruQueue := s.mruQueue ++ [(table, key, capacity)] }

def updateMRU (s : State β) (m : Bytes × Bytes × Int) : State β :=
  { s with capacity := s.capacity + m.2.2, mru := s.mru.erase (m.1, m.2.1) ++ [(m.1, m.2.1)] }

/-- `commit` waits in its last loop. -/
def waiting (s : State β) (cfg : Config) : Bool :=
  s.running && decide (cfg.maxForwardBlock < s.commitNum - s.syncNum)

end State

def conditionKey (info : TableInfo) (key : Bytes) : Condition := Condition.EQ {} info.key key

def load (cfg : Config) (B : Backend β ω) (s : State β) (w : ω) (num : Nat) (info : TableInfo)
    (key : Bytes) : Outcome (State β) Cache :=
  let s := s.touchCache info.name key
  let cache := s.cacheAt (cacheKey info.name key)
  if cache.empty then
    match B.select s.backend w num info key (conditionKey info key) with
    | .value (some rows) =>
      .done (s.touchMRU cfg info.name key (totalCapacity rows)) { cache with entries := some rows }
    | .value none => .ended .nullDereference
    | .thrown => .thrown s
    | .ended why => .ended why
  else .done s cache

/-! ### Select -/

def selectNoCondition (cfg : Config) (B : Backend β ω) (s : State β) (w : ω) (num : Nat)
    (info : TableInfo) (key : Bytes) : Outcome (State β) (Option (List Entry)) :=
  if !info.enableCache then
    match B.select s.backend w num info key (conditionKey info key) with
    | .value rows => .done s rows
    | .thrown => .thrown s
    | .ended why => .ended why
  else
    let hit := !(s.cacheAt (cacheKey info.name key)).empty
    (load cfg B s w num info key).bind fun s cache =>
      let s := s.setCache (cacheKey info.name key) { cache with empty := false }
      .done (if hit then s.touchMRU cfg info.name key 0 else s) cache.entries

def select (cfg : Config) (B : Backend β ω) (s : State β) (w : ω) (num : Nat) (info : TableInfo)
    (key : Bytes) (condition : Option Condition) : Outcome (State β) (List Entry) :=
  (selectNoCondition cfg B s w num info key).bind fun s entries =>
    match entries with
    | some entries => .done s (entries.filter fun e => condition.all fun c => c.process cfg.version e)
    | none => .ended .nullDereference

/-! ### Commit -/

/-- `std::lower_bound` by the ids. -/
def lowerBound (entries : List Entry) (id : Nat) : Nat := entries.findIdx fun e => !decide (e.id < id)

def updateRow (row entry : Entry) (num : Nat) : Entry :=
  setNum ((entry.fields.entries.foldl (fun row f => row.setField f.1 f.2) row).setStatus entry.status) num

def insertInto {α : Type} [DecidableEq α] (a : α) (as : List α) : List α :=
  if a ∈ as then as else as ++ [a]

/-- The copy of the row goes to the commit, and with the first row of a key the
    other rows of the key, since the backend does not read what it has. -/
def TableCommit.addDirty (t : TableCommit) (onlyCommitDirty : Bool) (key : Bytes)
    (entries : List Entry) (i : Nat) (row : Entry) : TableCommit :=
  let t := { t with slots := t.slots ++ [row] }
  if onlyCommitDirty then t
  else if key ∈ t.addtionKey then { t with duplicateIDs := insertInto row.id t.duplicateIDs }
  else { t with addtionKey := t.addtionKey ++ [key], additions := t.additions ++ entries.eraseIdx i }

def commitDirty (cfg : Config) (B : Backend β ω) (s : State β) (w : ω) (num : Nat) (t : TableCommit)
    (entry : Entry) : Outcome (State β) TableCommit :=
  let key := entry.getField t.info.key
  if entry.id = 0 then .ended .fatal
  else
    (load cfg B s w num t.info key).bind fun s cache =>
      match cache.entries with
      | none => .ended .nullDereference
      | some entries =>
        let i := lowerBound entries entry.id
        match entries[i]? with
        | none => .ended .fatal
        | some old =>
          if old.id ≠ entry.id then .ended .fatal
          else
            let row := updateRow old entry num
            let s := s.setCache (cacheKey t.info.name key)
              { entries := some (entries.set i row), num, empty := false }
            .done (s.touchMRU cfg t.info.name key (capacity row - capacity old))
              (t.addDirty B.onlyCommitDirty key (entries.set i row) i row)

/-- A turn of the loop over the new entries.  A forced one does not ask the
    backend. -/
def commitNew (cfg : Config) (B : Backend β ω) (s : State β) (w : ω) (num : Nat) (t : TableCommit)
    (newEntry : Entry) : Outcome (State β) TableCommit :=
  let entry := setNum newEntry num
  let key := entry.getField t.info.key
  let found : Outcome (State β) Cache :=
    if entry.force then
      let s := s.touchCache t.info.name key
      .done s (s.cacheAt (cacheKey t.info.name key))
    else load cfg B s w num t.info key
  found.bind fun s cache =>
    match cache.entries with
    | none => .ended .nullDereference
    | some entries =>
      let s := s.setCache (cacheKey t.info.name key)
        { entries := some (entries ++ [entry]), num, empty := false }
      .done (s.touchMRU cfg t.info.name key (capacity entry))
        { t with processedKeys := insertInto key t.processedKeys }

/-- The second loop over the dirty entries marks an addition that is also the
    copy of a dirty entry, and a sort follows.  The new entries are shared with
    the caller's, and so have their numbers. -/
def TableCommit.tableData (cfg : Config) (num : Nat) (t : TableCommit) : TableData :=
  if t.info.enableCache then
    { info := t.info
      dirtyEntries := cfg.sort t.info
        (t.slots ++ t.additions.map fun e => if e.id ∈ t.duplicateIDs then e.setDeleted true else e)
      newEntries := t.newEntries.map fun e => setNum e num }
  else { info := t.info, dirtyEntries := t.slots, newEntries := t.newEntries }

def sortCache (cfg : Config) (info : TableInfo) (s : State β) (key : Bytes) : State β :=
  let cache := s.cacheAt (cacheKey info.name key)
  s.setCache (cacheKey info.name key) { cache with entries := cache.entries.map (cfg.sort info) }

def sortCaches (cfg : Config) (s : State β) (tables : List TableCommit) : State β :=
  tables.foldl (fun s t => t.processedKeys.foldl (sortCache cfg t.info) s) s

def startTable (data : TableData) : TableCommit where
  info := data.info
  slots := if data.info.enableCache then [] else data.dirtyEntries
  newEntries := data.newEntries

/-- The entries of the cached tables that `entriesOf` gives. -/
def items (entriesOf : TableData → List Entry) (datas : List TableData) : List Item :=
  datas.zipIdx.flatMap fun d =>
    if d.1.info.enableCache then (entriesOf d.1).map fun e => ⟨d.2, d.1.info, e⟩ else []

def beginCommit (num : Nat) (datas : List TableData) : Commit where
  num := num
  request := datas
  tables := datas.map startTable
  dirtyLeft := items TableData.dirtyEntries datas
  newLeft := items TableData.newEntries datas

namespace Commit

def afterDirty (c : Commit) (i table : Nat) (t : TableCommit) : Commit :=
  { c with tables := c.tables.set table t, dirtyLeft := c.dirtyLeft.eraseIdx i }

def afterNew (c : Commit) (i table : Nat) (t : TableCommit) : Commit :=
  { c with tables := c.tables.set table t, newLeft := c.newLeft.eraseIdx i }

def datas (c : Commit) (cfg : Config) : List TableData := c.tables.map (TableCommit.tableData cfg c.num)

end Commit

/-! ### The flush -/

def commitBackend (cfg : Config) (B : Backend β ω) (s : State β) (w : ω) (task : Task) :
    Outcome (State β) Bool :=
  match B.commit s.backend w task.num task.datas with
  | .value (b, _) =>
    let s := { s with backend := b, syncNum := task.num }
    .done (if cfg.disabled then { s with caches := AssocMap.empty } else s) true
  | .thrown => .done { s with running := false } false
  | .ended why => .ended why

/-- The end of `commit`: the sorts, and the hand-over of the task. -/
def finishCommit (cfg : Config) (B : Backend β ω) (s : State β) (w : ω) (c : Commit) :
    Outcome (State β) Unit :=
  let s := sortCaches cfg s c.tables
  let s := { s with commitNum := c.num, committing := none }
  let block : Committed := ⟨c.num, c.request, c.datas cfg⟩
  let task : Task := ⟨c.num, c.datas cfg⟩
  if cfg.disabled then
    (commitBackend cfg B s w task).bind fun s written =>
      if written then .done { s with committed := s.committed ++ [block] } ()
      else .thrown { s with running := false }
  else .done { s with tasks := s.tasks ++ [task], committed := s.committed ++ [block] } ()

def flush (cfg : Config) (B : Backend β ω) (s : State β) (w : ω) : Outcome (State β) Unit :=
  match s.tasks with
  | [] => .done s ()
  | task :: tasks =>
    if s.running then
      (commitBackend cfg B { s with tasks } w task).bind fun s _ => .done s ()
    else .done s ()

/-! ### The eviction -/

def State.evict (s : State β) (table key : Bytes) (rest : List (Bytes × Bytes)) : State β :=
  { s with
    capacity := s.capacity - totalCapacity ((s.cacheAt (cacheKey table key)).entries.getD [])
    caches := s.caches.erase (cacheKey table key)
    mru := rest }

/-- The loop over the caches from the least recently used one.  It stops at one
    that holds data of a block that is not synced. -/
def clearThrough (cfg : Config) : List (Bytes × Bytes) → State β → State β
  | [], s => s
  | (table, key) :: rest, s =>
    if !s.running ∨ s.capacity ≤ cfg.maxCapacity then s
    else
      let s := s.touchCache table key
      let cache := s.cacheAt (cacheKey table key)
      if 0 < s.syncNum ∧ cache.num ≤ s.syncNum then clearThrough cfg rest (s.evict table key rest)
      else s

/-- `popped` entries of the queue have arrived. -/
def checkAndClear (cfg : Config) (s : State β) (popped : Nat) : State β :=
  let s := (s.mruQueue.take popped).foldl State.updateMRU { s with mruQueue := s.mruQueue.drop popped }
  if 0 < s.syncNum then clearThrough cfg s.mru s else s

/-! ### Runs -/

inductive Input (ω : Type) where
  | select (w : ω) (num : Nat) (info : TableInfo) (key : Bytes) (condition : Option Condition)
  | commit (num : Nat) (datas : List TableData)
  | dirty (i : Nat) (w : ω)
  | new (i : Nat) (w : ω)
  | finish (w : ω)
  | flush (w : ω)
  | checkAndClear (popped : Nat)
  | stop

/-- An exception leaves `commit`. -/
def abandon (s : State β) : State β := { s with committing := none }

def turn (s : State β) (c : Commit) (left : List Item) (i : Nat)
    (act : TableCommit → Entry → Outcome (State β) TableCommit)
    (after : Nat → TableCommit → Commit) : Outcome (State β) Unit :=
  match left[i]? with
  | none => .done s ()
  | some item =>
    match c.tables[item.table]? with
    | none => .done s ()
    | some t =>
      ((act t item.entry).bind fun s t =>
        .done { s with committing := some (after item.table t) } ()).onThrow abandon

/-- A step that is not due does nothing: a second commit while one is under way
    or waits, a new entry before the last dirty one, the end before the last
    entry. -/
def act (cfg : Config) (B : Backend β ω) (s : State β) : Input ω → Outcome (State β) Unit
  | .select w num info key condition =>
    (select cfg B s w num info key condition).bind fun s _ => .done s ()
  | .commit num datas =>
    if s.committing.isSome ∨ s.waiting cfg then .done s ()
    else .done { s with committing := some (beginCommit num datas) } ()
  | .dirty i w =>
    match s.committing with
    | none => .done s ()
    | some c => turn s c c.dirtyLeft i (commitDirty cfg B s w c.num) (c.afterDirty i)
  | .new i w =>
    match s.committing with
    | none => .done s ()
    | some c =>
      if c.dirtyLeft.isEmpty then turn s c c.newLeft i (commitNew cfg B s w c.num) (c.afterNew i)
      else .done s ()
  | .finish w =>
    match s.committing with
    | none => .done s ()
    | some c =>
      if c.dirtyLeft.isEmpty ∧ c.newLeft.isEmpty then finishCommit cfg B s w c else .done s ()
  | .flush w => flush cfg B s w
  | .checkAndClear popped => .done (checkAndClear cfg s popped) ()
  | .stop => .done { s with running := false } ()

inductive Process (β : Type) where
  | alive (s : State β)
  | ended (why : End)

def Outcome.process : Outcome (State β) Unit → Process β
  | .done s _ => .alive s
  | .thrown s => .alive s
  | .ended why => .ended why

def machine (cfg : Config) (B : Backend β ω) : Machine (Process β) (Input ω) where
  step p i :=
    match p with
    | .alive s => (act cfg B s i).process
    | .ended why => .ended why

end HieraChain.CachedStorage
