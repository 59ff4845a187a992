/-
  HieraChain/MemoryTableFactory2.lean
  ===================================
  **The tables of a block** (`libstorage/MemoryTableFactory2.h`, `.cpp`, and
  `getSysTableInfo` of `Table.cpp`).

  The factory keeps the opened tables by their names and the log of the changes
  they report, here with the newest first.  A change holds a pointer to its
  table, here the name, which a table never changes; after `commitDB` the log
  may hold changes of tables that the factory has let go, here `none`.

  `init`, the counter `m_ID` and the hand-over to the storage in `commitDB` are
  left out.
-/
import HieraChain.MemoryTable2

namespace HieraChain.Storage

open HieraChain.BigEndian HieraChain.BufferWrites

/-! ### System tables -/

def SYS_TABLES : Bytes := ascii "_sys_tables_".toList
def SYS_CONSENSUS : Bytes := ascii "_sys_consensus_".toList
def SYS_CURRENT_STATE : Bytes := ascii "_sys_current_state_".toList
def SYS_TX_HASH_2_BLOCK : Bytes := ascii "_sys_tx_hash_2_block_".toList
def SYS_NUMBER_2_HASH : Bytes := ascii "_sys_number_2_hash_".toList
def SYS_HASH_2_BLOCK : Bytes := ascii "_sys_hash_2_block_".toList
def SYS_CNS : Bytes := ascii "_sys_cns_".toList
def SYS_CONFIG : Bytes := ascii "_sys_config_".toList
def SYS_ACCESS_TABLE : Bytes := ascii "_sys_table_access_".toList
def SYS_BLOCK_2_NONCES : Bytes := ascii "_sys_block_2_nonces_".toList
def SYS_HASH_2_BLOCKHEADER : Bytes := ascii "_sys_hash_2_header_".toList

def SYS_VALUE : Bytes := ascii "value".toList
def SYS_SIG_LIST : Bytes := ascii "sigs".toList
def SYS_KEY : Bytes := ascii "key".toList
def KEY_FIELD : Bytes := ascii "key_field".toList
def VALUE_FIELD : Bytes := ascii "value_field".toList
def TABLE_NAME : Bytes := ascii "table_name".toList
def ENABLE_NUM : Bytes := ascii "enable_num".toList
def ADDRESS : Bytes := ascii "address".toList
def NAME : Bytes := ascii "name".toList
def NUMBER : Bytes := ascii "number".toList
def HASH : Bytes := ascii "hash".toList

def sysTables : List Bytes :=
  [SYS_CONSENSUS, SYS_TABLES, SYS_ACCESS_TABLE, SYS_CURRENT_STATE, SYS_NUMBER_2_HASH,
    SYS_TX_HASH_2_BLOCK, SYS_HASH_2_BLOCK, SYS_CNS, SYS_CONFIG, SYS_BLOCK_2_NONCES,
    SYS_HASH_2_BLOCKHEADER]

def getSysTableInfo (tableName : Bytes) : TableInfo :=
  if tableName = SYS_CONSENSUS then
    { name := tableName, key := NAME, fields := [ascii "type".toList, ascii "node_id".toList, ENABLE_NUM] }
  else if tableName = SYS_TABLES then
    { name := tableName, key := TABLE_NAME, fields := [KEY_FIELD, VALUE_FIELD] }
  else if tableName = SYS_ACCESS_TABLE then
    { name := tableName, key := TABLE_NAME, fields := [ADDRESS, ENABLE_NUM] }
  else if tableName = SYS_CURRENT_STATE then
    { name := tableName, key := SYS_KEY, fields := [SYS_VALUE], enableConsensus := false }
  else if tableName = SYS_NUMBER_2_HASH then
    { name := tableName, key := NUMBER, fields := [SYS_VALUE] }
  else if tableName = SYS_TX_HASH_2_BLOCK then
    { name := tableName, key := HASH, fields := [SYS_VALUE, ascii "index".toList],
      enableConsensus := false, enableCache := false }
  else if tableName = SYS_HASH_2_BLOCK then
    { name := tableName, key := HASH, fields := [SYS_VALUE], enableConsensus := false }
  else if tableName = SYS_HASH_2_BLOCKHEADER then
    { name := tableName, key := HASH, fields := [SYS_VALUE, SYS_SIG_LIST], enableConsensus := false }
  else if tableName = SYS_CNS then
    { name := tableName, key := NAME, fields := [ascii "version".toList, ADDRESS, ascii "abi".toList] }
  else if tableName = SYS_CONFIG then
    { name := tableName, key := SYS_KEY, fields := [SYS_VALUE, ENABLE_NUM] }
  else if tableName = SYS_BLOCK_2_NONCES then
    { name := tableName, key := NUMBER, fields := [SYS_VALUE], enableConsensus := false }
  else { name := tableName, key := [], fields := [] }

def withSystemFields (info : TableInfo) : TableInfo :=
  { info with fields := info.fields ++ [STATUS, info.key, NUM_FIELD, ID_FIELD] }

/-! ### Texts as numbers -/

inductive Failure
  | invalidArgument (e : InvalidArgument)
  | permissionDenied
  | stoi
  | badHexCharacter
  deriving DecidableEq, Repr

def leadingDigits (value count : Nat) : Bytes → Nat × Nat
  | [] => (value, count)
  | b :: rest =>
    match digit? b with
    | some d => leadingDigits (10 * value + d) (count + 1) rest
    | none => (value, count)

def isSpace (b : UInt8) : Bool := b.toNat = 32 || (decide (9 ≤ b.toNat) && decide (b.toNat ≤ 13))

def stoi (s : Bytes) : Except Failure Int :=
  let s := s.dropWhile isSpace
  let negative := s.head? = some minus
  let text := if negative ∨ s.head? = some plus then s.tail else s
  let n := leadingDigits 0 0 text
  let value : Int := if negative then -n.1 else n.1
  if n.2 = 0 then .error .stoi
  else if -2 ^ 31 ≤ value ∧ value < 2 ^ 31 then .ok value
  else .error .stoi

def fromHexChar (b : UInt8) : Option Nat :=
  let i := b.toNat
  if 48 ≤ i ∧ i ≤ 57 then some (i - 48)
  else if 97 ≤ i ∧ i ≤ 102 then some (i - 97 + 10)
  else if 65 ≤ i ∧ i ≤ 70 then some (i - 65 + 10)
  else none

def fromHexPairs : Bytes → Except Failure Bytes
  | [] => .ok []
  | [_] => .error .badHexCharacter
  | h :: l :: rest =>
    match fromHexChar h, fromHexChar l with
    | some h, some l => do
      let rest ← fromHexPairs rest
      return UInt8.ofNat (h * 16 + l) :: rest
    | _, _ => .error .badHexCharacter

def fromHex (s : Bytes) : Except Failure Bytes :=
  let digits := if s.take 2 = ascii ['0', 'x'] then s.drop 2 else s
  if s.length % 2 = 1 then
    match digits with
    | [] => .error .badHexCharacter
    | h :: rest =>
      match fromHexChar h with
      | some h => do
        let rest ← fromHexPairs rest
        return UInt8.ofNat h :: rest
      | none => .error .badHexCharacter
  else fromHexPairs digits

/-- `Address(string)`: zero unless the text has twenty bytes. -/
def toAddress (s : Bytes) : Except Failure Nat := do
  let b ← fromHex s
  return if b.length = 20 then fromBigEndian b else 0

def authorized (blockNum : Int) : List Entry → Except Failure (List Nat)
  | [] => .ok []
  | e :: entries => do
    let enableNum ← stoi (e.getField ENABLE_NUM)
    if enableNum ≤ blockNum then
      let address ← toAddress (e.getField ADDRESS)
      let addresses ← authorized blockNum entries
      return address :: addresses
    else authorized blockNum entries

/-! ### The factory -/

structure Env where
  version : Nat
  blockNum : Int
  stateStorage : TableInfo → Option RemoteDB

structure MemoryTableFactory2 (H : Type) where
  name2Table : AssocMap Bytes (MemoryTable2 H) := AssocMap.empty
  changeLog : List (Option Change) := []

/-- The hash function with the 32 bytes of an `h256`. -/
structure StateHasher (H : Type) extends MemoryTable2.Hasher H where
  asBytes : H → Bytes
  length_asBytes : ∀ h, (asBytes h).length = 32
  asBytes_zero : asBytes zero = List.replicate 32 0
  asBytes_injective : Function.Injective asBytes

namespace MemoryTableFactory2

variable {H : Type} (c : StateHasher H) (env : Env)

abbrev Factory (H : Type) := MemoryTableFactory2 H

def selectIn (t : MemoryTable2 H) (key : Bytes) (condition : Condition) : List Entry :=
  t.select env.version (env.stateStorage t.info) key condition

def setTable (f : Factory H) (name : Bytes) (t : MemoryTable2 H) : Factory H :=
  { f with name2Table := f.name2Table.insert name t }

def record (f : Factory H) (changes : List Change) : Factory H :=
  { f with changeLog := (changes.map some).reverse ++ f.changeLog }

/-! ### Opening tables

A call returns its result and the factory it leaves, also when it fails. -/

def openAccessTable (f : Factory H) (authorityFlag : Bool) : Except Failure Bool × Factory H :=
  if f.name2Table.contains SYS_ACCESS_TABLE then (.ok true, f)
  else
    let t : MemoryTable2 H := { info := withSystemFields (getSysTableInfo SYS_ACCESS_TABLE), hash := c.zero }
    if authorityFlag then
      match authorized env.blockNum (selectIn env t SYS_ACCESS_TABLE {}) with
      | .ok authorizedAddress =>
        (.ok true, f.setTable SYS_ACCESS_TABLE { t with info := { t.info with authorizedAddress } })
      | .error e => (.error e, f)
    else (.ok true, f.setTable SYS_ACCESS_TABLE t)

/-- `setAuthorizedAddress`: the description with the addresses of the table. -/
def setAuthorizedAddress (f : Factory H) (info : TableInfo) : Except Failure TableInfo × Factory H :=
  match openAccessTable c env f true with
  | (.error e, f) => (.error e, f)
  | (.ok _, f) =>
    match f.name2Table.find? SYS_ACCESS_TABLE with
    | none => (.ok info, f)
    | some access =>
      match authorized env.blockNum (selectIn env access info.name {}) with
      | .ok authorizedAddress => (.ok { info with authorizedAddress }, f)
      | .error e => (.error e, f)

/-- The last part of `openTableWithoutLock`, for tables other than the one of
    the addresses. -/
def addTable (f : Factory H) (info : TableInfo) (authorityFlag : Bool) :
    Except Failure Bool × Factory H :=
  let info := withSystemFields info
  if authorityFlag then
    match setAuthorizedAddress c env f info with
    | (.error e, f) => (.error e, f)
    | (.ok authorizedInfo, f) => (.ok true, f.setTable info.name { info := authorizedInfo, hash := c.zero })
  else (.ok true, f.setTable info.name { info, hash := c.zero })

def openSysTable (f : Factory H) (tableName : Bytes) (authorityFlag : Bool) :
    Except Failure Bool × Factory H :=
  if f.name2Table.contains tableName then (.ok true, f)
  else if tableName = SYS_ACCESS_TABLE then openAccessTable c env f authorityFlag
  else addTable c env f (getSysTableInfo tableName) authorityFlag

/-- `openTable`; `false` is the null pointer. -/
def openTable (f : Factory H) (tableName : Bytes) (authorityFlag : Bool) :
    Except Failure Bool × Factory H :=
  if f.name2Table.contains tableName then (.ok true, f)
  else if sysTables.contains tableName then openSysTable c env f tableName authorityFlag
  else
    match openSysTable c env f SYS_TABLES true with
    | (.error e, f) => (.error e, f)
    | (.ok _, f) =>
      match f.name2Table.find? SYS_TABLES with
      | none => (.ok false, f)
      | some sys =>
        match selectIn env sys tableName {} with
        | [] => (.ok false, f)
        | entry :: _ =>
          let fields := (entry.getField VALUE_FIELD).splitOn (UInt8.ofNat ','.toNat)
          addTable c env f { name := tableName, key := entry.getField KEY_FIELD, fields } authorityFlag

def tableEntry (tableName keyField valueField : Bytes) : Entry :=
  ((({} : Entry).setField TABLE_NAME tableName).setField KEY_FIELD keyField).setField VALUE_FIELD valueField

/-- `createTable`; `false` is the null pointer, for a table that is there. -/
def createTable (f : Factory H) (tableName keyField valueField : Bytes) (authorityFlag : Bool)
    (origin : Nat) : Except Failure Bool × Factory H :=
  match openTable c env f SYS_TABLES authorityFlag with
  | (.error e, f) => (.error e, f)
  | (.ok _, f) =>
    match f.name2Table.find? SYS_TABLES with
    | none => (.ok false, f)
    | some sys =>
      if (selectIn env sys tableName {}).isEmpty then
        match sys.insert tableName (tableEntry tableName keyField valueField)
            { origin, check := authorityFlag } with
        | .error e => (.error (.invalidArgument e), f)
        | .ok r =>
          if r.1 = CODE_NO_AUTHORIZED then (.error .permissionDenied, f)
          else openTable c env ((f.setTable SYS_TABLES r.2.1).record r.2.2) tableName authorityFlag
      else (.ok false, f)

/-! ### Calls on tables -/

/-- A call on an open table, which gets a recorder and its storage from the factory. -/
def callTable (f : Factory H) (tableName : Bytes)
    (call : MemoryTable2 H → Except InvalidArgument (MemoryTable2.Result H)) :
    Except Failure Int × Factory H :=
  match f.name2Table.find? tableName with
  | none => (.ok 0, f)
  | some t =>
    match call t with
    | .error e => (.error (.invalidArgument e), f)
    | .ok r => (.ok r.1, (f.setTable tableName r.2.1).record r.2.2)

def insert (f : Factory H) (tableName key : Bytes) (entry : Entry) (options : AccessOptions) :
    Except Failure Int × Factory H :=
  f.callTable tableName fun t => t.insert key entry options

def update (f : Factory H) (tableName key : Bytes) (entry : Entry) (condition : Condition)
    (options : AccessOptions) : Except Failure Int × Factory H :=
  f.callTable tableName fun t => t.update env.version (env.stateStorage t.info) key entry condition options

def remove (f : Factory H) (tableName key : Bytes) (condition : Condition) (options : AccessOptions) :
    Except Failure Int × Factory H :=
  f.callTable tableName fun t => t.remove env.version (env.stateStorage t.info) key condition options

/-! ### Savepoints -/

def savepoint (f : Factory H) : Nat := f.changeLog.length

def commit (f : Factory H) : Factory H := { f with changeLog := [] }

def undo (f : Factory H) : Option Change → Factory H
  | none => f
  | some change =>
    match f.name2Table.find? change.table with
    | none => f
    | some t => f.setTable change.table (t.rollback change)

def undoAll (f : Factory H) (changes : List (Option Change)) : Factory H :=
  changes.foldl (fun f change => { f.undo change with changeLog := f.changeLog.tail }) f

def rollback (f : Factory H) (savepoint : Nat) : Factory H :=
  f.undoAll (f.changeLog.take (f.changeLog.length - savepoint))

def commitDB (f : Factory H) : Factory H where
  name2Table := AssocMap.empty
  changeLog := f.changeLog.map fun _ => none

/-! ### The hash of all tables -/

def dumped (t : MemoryTable2 H) (data : Option TableData) (hash : H) : MemoryTable2 H :=
  { t with tableData := data, hash, hashDirty := false }

def counted (version : Nat) (f : Factory H) : List (Bytes × MemoryTable2 H) :=
  f.name2Table.entries.filter fun t =>
    t.2.info.enableConsensus && (decide (version < V2_5_0) || t.2.dataDirty)

def tables (version : Nat) (f : Factory H) : List (Bytes × MemoryTable2 H) :=
  (f.counted version).mergeSort fun l r => decide (l.1 ≤ r.1)

theorem enableConsensus_of_mem_tables {version : Nat} {f : Factory H} {t : Bytes × MemoryTable2 H}
    (h : t ∈ f.tables version) : t.2.info.enableConsensus = true := by
  rw [tables, List.mem_mergeSort, counted] at h
  have hcounts := (List.mem_filter.mp h).2
  simp only [Bool.and_eq_true] at hcounts
  exact hcounts.1

/-- The `memcpy` calls for the hashes of the tables. -/
def hashCalls (hashes : List H) : List (Nat × Bytes) :=
  hashes.zipIdx.map fun h => (h.2 * 32, c.asBytes h.1)

/-- What `hash` hands to the hash function and returns.  Each table may be
    dumped in any way, and the calls run in any order. -/
def Hash (f : Factory H) (data : Bytes) (hash : H) : Prop :=
  ∃ hashes calls,
    List.Forall₂ (fun t h => ∃ d, MemoryTable2.Dump c.toHasher t.2 d h) (f.tables env.version) hashes
    ∧ calls.Perm (hashCalls c hashes)
    ∧ writeAll (List.replicate (hashes.length * 32) 0) calls = some data
    ∧ hash = if data.isEmpty then c.zero else c.hash data

end MemoryTableFactory2

end HieraChain.Storage
