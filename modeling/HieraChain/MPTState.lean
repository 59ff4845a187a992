/-
  HieraChain/MPTState.lean
  ========================
  **The account state over a trie, with its change log** (`libmptstate/State.h`,
  `State.cpp`, `Account.h`, `Account.cpp`, `CodeSizeCache.h`).

  `m_cache` holds the accounts that were read or changed; where `account()` finds
  none there it loads one from the trie.  `m_cache[…]` makes a default account
  where there is none, without a look at the trie.

  Mutators note in `m_changeLog` what undoes them, and `rollback` undoes the
  entries from the back.  `kill` notes nothing.

  The random numbers that pick what leaves a cache are a stream in the state.
-/
import HieraChain.Machine
import HieraChain.Transaction

namespace HieraChain.MPTState

open HieraChain.BigEndian HieraChain.RLP HieraChain.Eth

abbrev H256 := FixedHash 32

def Invalid256 : U256 := BitVec.allOnes 256

structure Backing where
  /-- `crypto::Hash` -/
  hash : Bytes → H256
  EmptyTrie : H256
  /-- `m_state.at`: nonce, balance, storage root and code hash. -/
  accountAt : Address → Option (U256 × U256 × H256 × H256)
  /-- The value of a key in the trie of a root, 0 where there is none. -/
  storageAt : H256 → U256 → U256
  /-- `m_db.lookup` -/
  lookup : H256 → Bytes

def Backing.EmptyHash (db : Backing) : H256 := db.hash []

/-! ### Accounts -/

structure Account where
  m_isAlive : Bool := false
  m_isUnchanged : Bool := false
  m_hasNewCode : Bool := false
  m_nonce : U256 := 0
  m_balance : U256 := 0
  m_storageRoot : H256
  m_codeHash : H256
  m_storageOverlay : U256 → Option U256 := fun _ => none
  m_codeCache : Bytes := []

namespace Account

/-- `Account()` -/
def dead (db : Backing) : Account := { m_storageRoot := db.EmptyTrie, m_codeHash := db.EmptyHash }

/-- `Account(_nonce, _balance)` -/
def alive (db : Backing) (nonce balance : U256) : Account :=
  { dead db with m_isAlive := true, m_nonce := nonce, m_balance := balance }

/-- An account as the trie has it, `Unchanged`. -/
def loaded (record : U256 × U256 × H256 × H256) : Account where
  m_isAlive := true
  m_isUnchanged := true
  m_nonce := record.1
  m_balance := record.2.1
  m_storageRoot := record.2.2.1
  m_codeHash := record.2.2.2

variable (a : Account)

def changed : Account := { a with m_isUnchanged := false }

def kill (db : Backing) : Account :=
  changed
    { a with
      m_isAlive := false
      m_storageOverlay := fun _ => none
      m_codeHash := db.EmptyHash
      m_storageRoot := db.EmptyTrie
      m_balance := 0
      m_nonce := 0 }

def isDirty : Bool := !a.m_isUnchanged

def untouch : Account := { a with m_isUnchanged := true }

def isEmpty (db : Backing) : Bool := a.m_nonce = 0 && a.m_balance = 0 && a.m_codeHash = db.EmptyHash

def addBalance (value : U256) : Account := changed { a with m_balance := a.m_balance + value }

def incNonce : Account := changed { a with m_nonce := a.m_nonce + 1 }

def setNonce (nonce : U256) : Account := changed { a with m_nonce := nonce }

def setStorage (p v : U256) : Account :=
  changed { a with m_storageOverlay := Function.update a.m_storageOverlay p (some v) }

def clearStorage (db : Backing) : Account :=
  changed { a with m_storageOverlay := fun _ => none, m_storageRoot := db.EmptyTrie }

def setStorageRoot (root : H256) : Account :=
  changed { a with m_storageOverlay := fun _ => none, m_storageRoot := root }

/-- Without `changed()`: only a change of the account's code. -/
def setCode (db : Backing) (code : Bytes) : Account :=
  { a with m_codeCache := code, m_hasNewCode := true, m_codeHash := db.hash code }

def noteCode (code : Bytes) : Account := { a with m_codeCache := code }

end Account

/-! ### The state -/

inductive Change
  | Balance (address : Address) (value : U256)
  | Storage (address : Address) (key value : U256)
  | StorageRoot (address : Address) (value : H256)
  | Nonce (address : Address) (value : U256)
  | Create (address : Address)
  | Code (address : Address) (oldCode : Bytes)
  | Touch (address : Address)

def Change.address : Change → Address
  | .Balance a _ | .Storage a _ _ | .StorageRoot a _ | .Nonce a _ | .Create a | .Code a _ | .Touch a => a

/-- `m_changeLog` from its back; `sizes` is the cache of code sizes. -/
structure State where
  m_cache : Address → Option Account := fun _ => none
  m_unchangedCacheEntries : List Address := []
  m_nonExistingAccountsCache : List Address := []
  m_accountStartNonce : U256
  m_changeLog : List Change := []
  sizes : List (H256 × Nat) := []
  random : Nat → Nat

inductive StateException
  | notEnoughCash
  | invalidAccountStartNonceInState
  deriving DecidableEq

namespace State

variable (db : Backing) (s : State)

def put (addr : Address) (a : Account) : State := { s with m_cache := Function.update s.m_cache addr (some a) }

/-- `m_cache[addr]` -/
def entry (addr : Address) : Account := (s.m_cache addr).getD (Account.dead db)

def note (change : Change) : State := { s with m_changeLog := change :: s.m_changeLog }

def draw (bound : Nat) : Nat × State := (s.random 0 % bound, { s with random := fun k => s.random (k + 1) })

/-- The loop of `clearCacheIfTooLarge`; every round takes an entry away. -/
def clearLoop : Nat → State → State
  | 0, s => s
  | fuel + 1, s =>
    if s.m_unchangedCacheEntries.length ≤ 1000 then s
    else
      let (randomIndex, s) := s.draw s.m_unchangedCacheEntries.length
      match s.m_unchangedCacheEntries[randomIndex]?, s.m_unchangedCacheEntries.getLast? with
      | some addr, some last =>
        let s := { s with
          m_unchangedCacheEntries := (s.m_unchangedCacheEntries.set randomIndex last).dropLast }
        match s.m_cache addr with
        | none => clearLoop fuel s
        | some a =>
          clearLoop fuel (if a.isDirty then s else { s with m_cache := Function.update s.m_cache addr none })
      | _, _ => s

def clearCacheIfTooLarge : State := clearLoop s.m_unchangedCacheEntries.length s

/-- `account(_addr)`: the account that the pointer leads to. -/
def account (addr : Address) : Option Account × State :=
  match s.m_cache addr with
  | some a => (some a, s)
  | none =>
    if addr ∈ s.m_nonExistingAccountsCache then (none, s)
    else
      match db.accountAt addr with
      | none => (none, { s with m_nonExistingAccountsCache := addr :: s.m_nonExistingAccountsCache })
      | some record =>
        let s := s.clearCacheIfTooLarge
        let a := Account.loaded record
        (some a, { s.put addr a with m_unchangedCacheEntries := s.m_unchangedCacheEntries ++ [addr] })

/-! ### Code sizes -/

def c_maxSize : Nat := 50000

def store (hash : H256) (size : Nat) : State :=
  let s :=
    if c_maxSize ≤ s.sizes.length then
      let (i, s) := s.draw s.sizes.length
      { s with sizes := s.sizes.eraseIdx i }
    else s
  { s with sizes := (hash, size) :: s.sizes.filter (·.1 ≠ hash) }

/-! ### Getters -/

def addressInUse (id : Address) : Bool × State := ((s.account db id).1.isSome, (s.account db id).2)

def addressHasCode (id : Address) : Bool × State :=
  match s.account db id with
  | (some a, s) => (a.m_codeHash ≠ db.EmptyHash, s)
  | (none, s) => (false, s)

def balance (id : Address) : U256 × State :=
  match s.account db id with
  | (some a, s) => (a.m_balance, s)
  | (none, s) => (0, s)

def getNonce (addr : Address) : U256 × State :=
  match s.account db addr with
  | (some a, s) => (a.m_nonce, s)
  | (none, s) => (s.m_accountStartNonce, s)

def storage (id : Address) (key : U256) : U256 × State :=
  match s.account db id with
  | (some a, s) =>
    match a.m_storageOverlay key with
    | some v => (v, s)
    | none => (db.storageAt a.m_storageRoot key, s.put id (a.setStorage key (db.storageAt a.m_storageRoot key)))
  | (none, s) => (0, s)

def code (addr : Address) : Bytes × State :=
  match s.account db addr with
  | (none, s) => ([], s)
  | (some a, s) =>
    if a.m_codeHash = db.EmptyHash then ([], s)
    else if a.m_codeCache = [] then
      let a := a.noteCode (db.lookup a.m_codeHash)
      (a.m_codeCache, (s.put addr a).store a.m_codeHash a.m_codeCache.length)
    else (a.m_codeCache, s)

def codeHash (a : Address) : H256 × State :=
  match s.account db a with
  | (some a, s) => (a.m_codeHash, s)
  | (none, s) => (db.EmptyHash, s)

def codeSize (addr : Address) : Nat × State :=
  match s.account db addr with
  | (some a, s) =>
    if a.m_hasNewCode then (a.m_codeCache.length, s)
    else
      match s.sizes.lookup a.m_codeHash with
      | some size => (size, s)
      | none =>
        let (code, s) := s.code db addr
        (code.length, s.store a.m_codeHash code.length)
  | (none, s) => (0, s)

/-! ### Mutators -/

def createAccount (address : Address) (a : Account) : State :=
  note
    { s.put address a with
      m_nonExistingAccountsCache := s.m_nonExistingAccountsCache.filter (· ≠ address) }
    (.Create address)

def requireAccountStartNonce : Except StateException U256 :=
  if s.m_accountStartNonce = Invalid256 then .error .invalidAccountStartNonceInState else .ok s.m_accountStartNonce

def createContract (address : Address) : Except StateException Unit × State :=
  match s.requireAccountStartNonce with
  | .error e => (.error e, s)
  | .ok nonce => (.ok (), s.createAccount address (Account.alive db nonce 0))

def incNonce (addr : Address) : Except StateException Unit × State :=
  match s.account db addr with
  | (some a, s) => (.ok (), (s.put addr a.incNonce).note (.Nonce addr a.m_nonce))
  | (none, s) =>
    match s.requireAccountStartNonce with
    | .error e => (.error e, s)
    | .ok nonce => (.ok (), s.createAccount addr (Account.alive db (nonce + 1) 0))

def setNonce (addr : Address) (newNonce : U256) : State :=
  match s.account db addr with
  | (some a, s) => (s.put addr (a.setNonce newNonce)).note (.Nonce addr a.m_nonce)
  | (none, s) => s.createAccount addr (Account.alive db newNonce 0)

def addBalance (id : Address) (amount : U256) : Except StateException Unit × State :=
  match s.account db id with
  | (some a, s) =>
    let s := if !a.isDirty && a.isEmpty db then s.note (.Touch id) else s
    let s := s.put id (a.addBalance amount)
    (.ok (), if amount = 0 then s else s.note (.Balance id amount))
  | (none, s) =>
    match s.requireAccountStartNonce with
    | .error e => (.error e, s)
    | .ok nonce =>
      let s := s.createAccount id (Account.alive db nonce amount)
      (.ok (), if amount = 0 then s else s.note (.Balance id amount))

def subBalance (addr : Address) (value : U256) : Except StateException Unit × State :=
  if value = 0 then (.ok (), s)
  else
    match s.account db addr with
    | (none, s) => (.error .notEnoughCash, s)
    | (some a, s) => if a.m_balance < value then (.error .notEnoughCash, s) else s.addBalance db addr (0 - value)

def setBalance (addr : Address) (value : U256) : Except StateException Unit × State :=
  match s.account db addr with
  | (some a, s) => s.addBalance db addr (value - a.m_balance)
  | (none, s) => s.addBalance db addr (value - 0)

def kill (addr : Address) : State :=
  match s.account db addr with
  | (some a, s) => s.put addr (a.kill db)
  | (none, s) => s

def setStorage (contract : Address) (key value : U256) : State :=
  let (old, s) := s.storage db contract key
  let s := s.note (.Storage contract key old)
  s.put contract ((s.entry db contract).setStorage key value)

def clearStorage (contract : Address) : State :=
  let a := s.entry db contract
  let s := s.put contract a
  if a.m_storageRoot = db.EmptyTrie then s
  else (s.note (.StorageRoot contract a.m_storageRoot)).put contract (a.clearStorage db)

def setCode (address : Address) (newCode : Bytes) : State :=
  let (old, s) := s.code db address
  let s := s.note (.Code address old)
  s.put address ((s.entry db address).setCode db newCode)

/-! ### Savepoints -/

def savepoint : Nat := s.m_changeLog.length

/-- One round of `rollback`, before the entry is taken off the log. -/
def undoChange (change : Change) : State :=
  let account := s.entry db change.address
  let s := s.put change.address account
  match change with
  | .Storage address key value => s.put address (account.setStorage key value)
  | .StorageRoot address value => s.put address (account.setStorageRoot value)
  | .Balance address value => s.put address (account.addBalance (0 - value))
  | .Nonce address value => s.put address (account.setNonce value)
  | .Create address => { s with m_cache := Function.update s.m_cache address none }
  | .Code address oldCode => s.put address (account.setCode db oldCode)
  | .Touch address =>
    { s.put address account.untouch with m_unchangedCacheEntries := s.m_unchangedCacheEntries ++ [address] }

def rollbackLoop (savepoint : Nat) : List Change → State → State
  | [], s => s
  | change :: log, s =>
    if savepoint = log.length + 1 then s
    else rollbackLoop savepoint log { s.undoChange db change with m_changeLog := log }

def rollback (savepoint : Nat) : State := rollbackLoop db savepoint s.m_changeLog s

end State

end HieraChain.MPTState
