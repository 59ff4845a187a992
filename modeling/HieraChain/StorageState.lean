/-
  HieraChain/StorageState.lean
  ============================
  **The accounts of the chain's state** (`libstoragestate/StorageState.h`, `.cpp`).

  An account is a table with one row for its balance, nonce, code and hash of the
  code, and one for each slot of its storage.  The tables stand here as their
  rows by table and key, with the log of changes that savepoints roll back; a
  table of the storage has its rows from the start.  A table is created by a row
  of `_sys_tables_` and opened; a rollback takes the row back, but the table
  stays open.

  Rows are never removed here and selected by their key alone, so a row of the
  storage and an inserted one are not told apart.
-/
import HieraChain.AccountTable
import HieraChain.Decimal
import HieraChain.MemoryTableFactory2
import HieraChain.UndoLog

namespace HieraChain.StorageState

open HieraChain.BigEndian HieraChain.Storage HieraChain.Account
open HieraChain.Decimal (decimal ofDecimal)
open HieraChain.Hex (toHex)
open HieraChain.UndoLog (Log)

def V2_8_0 : Nat := 0x02080000

abbrev U256 := BitVec 256

abbrev Address := { bytes : Bytes // bytes.length = 20 }

def str (v : U256) : Bytes := decimal v.toNat

/-- `u256(string)` of decimal digits. -/
def u256 (text : Bytes) : U256 := BitVec.ofNat 256 ((ofDecimal text).getD 0)

/-- What the state is set up with: the hash function, of which the empty code has
    a hash of its own, and a start nonce that is not `Invalid256`. -/
structure Config where
  version : Nat
  hash : Bytes → Bytes
  length_hash : ∀ b, (hash b).length = 32
  hash_empty : ∀ b, hash b = hash [] → b = []
  accountStartNonce : U256
  valid : accountStartNonce ≠ BitVec.allOnes 256

def Config.EmptyHash (c : Config) : Bytes := c.hash []

def Config.twoHashes (version : Nat) : Config where
  version := version
  hash b := List.replicate 32 (if b = [] then 1 else 2)
  length_hash _ := List.length_replicate
  hash_empty b h := by
    by_contra hb
    rw [if_neg hb, if_pos rfl] at h
    exact absurd h (by decide)
  accountStartNonce := 0
  valid := by decide

structure State where
  opened : Bytes → Bool := fun _ => false
  data : Log (Bytes × Bytes) Bytes

/-- `NotEnoughCash`. -/
inductive Failure
  | NotEnoughCash
  deriving DecidableEq

section
variable (c : Config)

def tableName (address : Address) : Bytes :=
  if V2_2_0 ≤ c.version then ascii ['c', '_'] ++ toHex address.1
  else ascii "_contract_data_".toList ++ toHex address.1 ++ ascii ['_']

def bytesField (b : Bytes) : Bytes := if V2_5_0 ≤ c.version then b else toHex b

namespace State

variable (s : State) (address : Address)

/-! ### Tables -/

def select (table key : Bytes) : List Bytes := s.data.select (table, key)

def insert (table key value : Bytes) : State := { s with data := s.data.insert (table, key) value }

def update (table key value : Bytes) : State := { s with data := s.data.update (table, key) value }

/-- `openTable` finds an open table, or one with a row in `_sys_tables_`. -/
def openTable (table : Bytes) : Bool := s.opened table || !(s.select SYS_TABLES table).isEmpty

/-- `createTable`; `none` is the null pointer, for a table with a row. -/
def createTable (table : Bytes) : Option State :=
  if (s.select SYS_TABLES table).isEmpty then
    let s := s.insert SYS_TABLES table (ascii "value".toList)
    some { s with opened := Function.update s.opened table true }
  else none

def getTable : Option Bytes := if s.openTable (tableName c address) then some (tableName c address) else none

/-- The first entry of a key in the account's table, if there is a table with one. -/
def entry (key : Bytes) : Option Bytes := (s.getTable c address).bind fun table => (s.select table key).head?

/-! ### Getters -/

def addressInUse : Bool := (s.getTable c address).isSome

def balance : U256 :=
  match s.entry c address ACCOUNT_BALANCE with
  | some value => u256 value
  | none => 0

def getNonce : U256 :=
  match s.entry c address ACCOUNT_NONCE with
  | some value => u256 value
  | none => c.accountStartNonce

def codeHash : Bytes :=
  match s.entry c address ACCOUNT_CODE_HASH with
  | some value => if V2_8_0 ≤ c.version then h256 value else h256 ((Hex.fromHex value).getD [])
  | none => c.EmptyHash

def addressHasCode : Bool :=
  match s.entry c address ACCOUNT_CODE_HASH with
  | some value =>
    if V2_5_0 ≤ c.version then decide (h256 value ≠ c.EmptyHash)
    else decide (h256 ((Hex.fromHex value).getD []) ≠ c.EmptyHash)
  | none => false

def code : Bytes :=
  if s.codeHash c address = c.EmptyHash then []
  else
    match s.entry c address ACCOUNT_CODE with
    | some value => if V2_5_0 ≤ c.version then value else (Hex.fromHex value).getD []
    | none => []

def storage (key : U256) : U256 :=
  match s.entry c address (str key) with
  | some value => u256 value
  | none => 0

def accountNonemptyAndExisting : Bool :=
  (s.getTable c address).isSome &&
    (decide (s.balance c address > 0) || decide (s.codeHash c address ≠ c.EmptyHash)
      || decide (s.getNonce c address ≠ c.accountStartNonce))

/-! ### Setters -/

def createAccount (nonce amount : U256) : State :=
  match s.createTable (tableName c address) with
  | none => s
  | some s =>
    let s := s.insert (tableName c address) ACCOUNT_BALANCE (str amount)
    let s := s.insert (tableName c address) ACCOUNT_CODE_HASH (bytesField c c.EmptyHash)
    let s := s.insert (tableName c address) ACCOUNT_CODE (bytesField c [])
    let s := s.insert (tableName c address) ACCOUNT_NONCE (str nonce)
    s.insert (tableName c address) ACCOUNT_ALIVE (ascii "true".toList)

def createContract : State := s.createAccount c address c.accountStartNonce 0

def addBalance (amount : U256) : State :=
  if amount = 0 then s
  else
    match s.getTable c address with
    | some table =>
      match (s.select table ACCOUNT_BALANCE).head? with
      | some value => s.update table ACCOUNT_BALANCE (str (u256 value + amount))
      | none => s
    | none => s.createAccount c address c.accountStartNonce amount

def subBalance (amount : U256) : Except Failure State :=
  match s.getTable c address with
  | some table =>
    match (s.select table ACCOUNT_BALANCE).head? with
    | some value =>
      if u256 value < amount then .error .NotEnoughCash
      else .ok (s.update table ACCOUNT_BALANCE (str (u256 value - amount)))
    | none => .ok s
  | none => .error .NotEnoughCash

def setBalance (amount : U256) : State :=
  match s.getTable c address with
  | some table =>
    match (s.select table ACCOUNT_BALANCE).head? with
    | some _ => s.update table ACCOUNT_BALANCE (str amount)
    | none => s
  | none => s.createAccount c address c.accountStartNonce amount

def transferBalance (source target : Address) (value : U256) : Except Failure State := do
  let s ← s.subBalance c source value
  return s.addBalance c target value

def incNonce : State :=
  match s.getTable c address with
  | some table =>
    match (s.select table ACCOUNT_NONCE).head? with
    | some value => s.update table ACCOUNT_NONCE (str (u256 value + 1))
    | none => s
  | none => s.createAccount c address (c.accountStartNonce + 1) 0

def setNonce (nonce : U256) : State :=
  match s.getTable c address with
  | some table => s.update table ACCOUNT_NONCE (str nonce)
  | none => s.createAccount c address nonce 0

def setStorage (location value : U256) : State :=
  match s.getTable c address with
  | some table =>
    if (s.select table (str location)).isEmpty then s.insert table (str location) (str value)
    else s.update table (str location) (str value)
  | none => s

def setCode (code : Bytes) : State :=
  match s.getTable c address with
  | some table =>
    (s.update table ACCOUNT_CODE (bytesField c code)).update table ACCOUNT_CODE_HASH (bytesField c (c.hash code))
  | none => s

def kill : State :=
  match s.getTable c address with
  | some table =>
    let s := s.update table ACCOUNT_NONCE (str c.accountStartNonce)
    let s := s.update table ACCOUNT_BALANCE (str 0)
    let s := s.update table ACCOUNT_CODE (bytesField c [])
    let s := s.update table ACCOUNT_CODE_HASH (bytesField c c.EmptyHash)
    s.update table ACCOUNT_ALIVE (ascii "false".toList)
  | none => s

def savepoint : Nat := s.data.savepoint

def rollback (savepoint : Nat) : State := { s with data := s.data.rollback savepoint }

end State

end

end HieraChain.StorageState
