/-
  HieraChain/TxPool.lean
  ======================
  **The transaction pool** (`libtxpool/TxPool.cpp`, `TxPool.h`,
  `TransactionNonceCheck.cpp`, `CommonTransactionNonceCheck.cpp`).

  Transactions are shared objects: the pool, the blocks and the callers hold
  them by `ObjID`, and `importTime` and `original_hash` are written in place.
  The queue is a `std::set` ordered by the import time with `<=`.  Two
  neighbours of the place where a search for a time ends lie on the way of the
  search, so an element always goes in, at a place after an earlier time and
  before one that is not earlier (`isGap`); which one, when there are several,
  is up to the shape of the tree and is an input (`gap`).

  Left out: callbacks and receipts, `synced` and the known nodes, locks, and
  the cast of a version before RC2.  A task that is put on the worker pool is a
  call of its own.
-/
import Mathlib.Algebra.Group.Nat.Defs
import Mathlib.Data.Finset.Card
import Mathlib.Data.Finset.Dedup
import Mathlib.Data.List.Sort
import HieraChain.AssocMap
import HieraChain.Machine

namespace HieraChain.Pool

/-! ### Transactions -/

abbrev ObjID := Nat

/-- `signed` says that `sender()` finds a sender; a hash is its number. -/
structure Transaction where
  hash : Nat
  nonce : Nat
  capacity : Nat
  signed : Bool
  chainId : Nat
  importTime : Nat := 0
  original_hash : Nat := 0

def Invalid256 : Nat := 2 ^ 256 - 1

/-! ### Nonces of the recent blocks -/

/-- `TransactionNonceCheck`; `cache` is that of `CommonTransactionNonceCheck`. -/
structure NonceCheck where
  cache : Finset Nat := ∅
  blockNonceCache : AssocMap Nat (List Nat) := AssocMap.empty
  startblk : Nat := 0
  endblk : Nat := 0

def isBlockLimitOk (_ : Transaction) : Bool := true

namespace NonceCheck

variable (maxBlockLimit : Nat) (chain : List (List Nat))

def getNonces (blockNumber : Nat) : List Nat := chain[blockNumber]?.getD []

def getNonceAndUpdateCache (c : NonceCheck) (blockNumber : Nat) (update : Bool) :
    List Nat × NonceCheck :=
  let nonceVec := (c.blockNonceCache.find? blockNumber).getD (getNonces chain blockNumber)
  if update ∧ c.blockNonceCache.size < maxBlockLimit then
    (nonceVec, { c with blockNonceCache := c.blockNonceCache.insert blockNumber nonceVec })
  else (nonceVec, c)

def expire (c : NonceCheck) (i : Nat) : NonceCheck :=
  let r := c.getNonceAndUpdateCache maxBlockLimit chain i false
  { r.2 with
    cache := r.2.cache.filter fun nonce => nonce ∉ r.1
    blockNonceCache := r.2.blockNonceCache.erase i }

def enter (c : NonceCheck) (i : Nat) : NonceCheck :=
  let r := c.getNonceAndUpdateCache maxBlockLimit chain i true
  { r.2 with cache := r.2.cache ∪ r.1.toFinset }

/-- The numbers from `i` to `j`, without `j`. -/
def numbers (i j : Nat) : List Nat := List.range' i (j - i)

def updateCache (c : NonceCheck) (rebuild : Bool) : NonceCheck :=
  let lastnumber := chain.length - 1
  let prestartblk := c.startblk
  let preendblk := if rebuild then 0 else c.endblk
  let startblk := if lastnumber > maxBlockLimit then lastnumber - maxBlockLimit else 0
  let moved := { c with startblk := startblk, endblk := lastnumber }
  let erased :=
    if rebuild then { moved with cache := ∅ }
    else (numbers prestartblk startblk).foldl (expire maxBlockLimit chain) moved
  (numbers (max (preendblk + 1) startblk) (lastnumber + 1)).foldl (enter maxBlockLimit chain) erased

def init : NonceCheck := updateCache maxBlockLimit chain {} true

end NonceCheck

/-! ### The pool -/

/-- A node of the tree; an iterator is its `id`. -/
structure QueueNode where
  id : Nat
  tx : ObjID
  deriving DecidableEq, Repr

structure Config where
  limit : Nat := 102400
  maxMemoryLimit : Int := 512 * 1024 * 1024
  chainId : Nat
  maxBlockLimit : Nat := 1000

/-- The queue and what is kept beside it, with the objects that it reads;
    `nextNode` is the next node's `id`. -/
structure Books where
  objects : ObjID → Transaction
  txsQueue : List QueueNode := []
  txsHash : AssocMap Nat Nat := AssocMap.empty
  invalidTxs : AssocMap Nat Nat := AssocMap.empty
  usedMemorySize : Int := 0
  nextNode : Nat := 0

/-- `chain` has the nonces of the blocks, from the genesis block on. -/
structure TxPool extends Books where
  chain : List (List Nat)
  txsHashFilter : Finset Nat := ∅
  dropped : Finset Nat := ∅
  txNonceCheck : NonceCheck
  txpoolNonceChecker : Finset Nat := ∅

inductive ImportResult
  | Success
  | AlreadyKnown
  | AlreadyInChain
  | TransactionNonceCheckFail
  | BlockLimitCheckFailed
  | Malformed
  | TxPoolNonceCheckFail
  | InvalidChainId
  | TransactionPoolIsFull
  | OverGroupMemoryLimit
  deriving DecidableEq, Repr

def Books.times (s : Books) : List Nat := s.txsQueue.map fun n => (s.objects n.tx).importTime

/-- The object that an iterator is at; `none` would be a dead iterator. -/
def Books.at? (s : Books) (id : Nat) : Option ObjID :=
  (s.txsQueue.find? fun n => decide (n.id = id)).map QueueNode.tx

namespace TxPool

section Calls

variable (config : Config)

def write (s : TxPool) (o : ObjID) (tx : Transaction) : TxPool :=
  { s with objects := fun o' => if o' = o then tx else s.objects o' }

def setImportTime (s : TxPool) (o : ObjID) (time : Nat) : TxPool :=
  s.write o { s.objects o with importTime := time }


/-! ### Import -/

def isGap (time : Nat) (times : List Nat) (i : Nat) : Bool :=
  i ≤ times.length && (times.take i).getLast?.all (· < time) && (times.drop i).head?.all (time ≤ ·)

def place (time : Nat) (times : List Nat) (gap : Nat) : Nat :=
  if isGap time times gap then gap else (times.takeWhile (· < time)).length

/-- `m_txsQueue.emplace(_tx)`. -/
def emplace (s : TxPool) (gap : Nat) (o : ObjID) : TxPool :=
  let i := place (s.objects o).importTime s.times gap
  { s with
    txsQueue := s.txsQueue.take i ++ { id := s.nextNode, tx := o } :: s.txsQueue.drop i
    nextNode := s.nextNode + 1 }

def insert (s : TxPool) (gap : Nat) (o : ObjID) : TxPool × Bool :=
  let tx_hash := (s.objects o).hash
  if s.txsHash.contains tx_hash then (s, false)
  else
    let placed := s.emplace gap o
    let mapped := { placed with txsHash := placed.txsHash.insert tx_hash s.nextNode }
    (mapped.write o { mapped.objects o with original_hash := tx_hash }, true)

/-- The answer to a nonce that another transaction of the pool has is ignored. -/
def txPoolNonceCheck (s : TxPool) (tx : Transaction) : TxPool × Bool :=
  ({ s with txpoolNonceChecker := Insert.insert tx.nonce s.txpoolNonceChecker }, true)

def verify (s : TxPool) (o : ObjID) : TxPool × ImportResult :=
  let tx := s.objects o
  if s.txsHash.contains tx.hash then (s, .AlreadyKnown)
  else if tx.hash ∈ s.dropped then (s, .AlreadyInChain)
  else if tx.nonce = Invalid256 ∨ tx.nonce ∈ s.txNonceCheck.cache then (s, .TransactionNonceCheckFail)
  else if isBlockLimitOk tx = false then (s, .BlockLimitCheckFailed)
  else if tx.signed = false then (s, .Malformed)
  else
    let checked := s.txPoolNonceCheck tx
    if checked.2 = false then (checked.1, .TxPoolNonceCheckFail)
    -- `checkGroupId` answers true
    else if tx.chainId ≠ config.chainId then (checked.1, .InvalidChainId)
    else (checked.1, .Success)

/-- `import` at a time of the clock. -/
def importTx (s : TxPool) (o : ObjID) (time gap : Nat) : TxPool × ImportResult :=
  let timed := s.setImportTime o time
  let tx := timed.objects o
  if config.maxMemoryLimit < timed.usedMemorySize + tx.capacity then (timed, .OverGroupMemoryLimit)
  else if config.limit ≤ timed.txsQueue.length then (timed, .TransactionPoolIsFull)
  else
    let verified := timed.verify config o
    if verified.2 = .Success then
      let inserted := verified.1.insert gap o
      let counted :=
        if inserted.2 then
          { inserted.1 with
            txpoolNonceChecker := Insert.insert tx.nonce inserted.1.txpoolNonceChecker
            usedMemorySize := inserted.1.usedMemorySize + tx.capacity }
        else inserted.1
      ({ counted with txsHashFilter := Insert.insert tx.hash counted.txsHashFilter }, .Success)
    else verified

/-! ### Removal -/

def removeTrans (s : TxPool) (txHash : Nat) : TxPool :=
  match s.txsHash.find? txHash with
  | none => s
  | some id =>
    { s with
      txsQueue := s.txsQueue.filter fun n => decide (n.id ≠ id)
      txsHash := s.txsHash.erase txHash
      usedMemorySize := s.usedMemorySize - ((s.at? id).map fun o => (s.objects o).capacity).getD 0 }

def drop (s : TxPool) (txHash : Nat) : TxPool × Bool :=
  if s.txsHash.contains txHash = false then (s, false)
  else
    let noted :=
      if s.dropped.card < config.limit then { s with dropped := Insert.insert txHash s.dropped }
      else { s with dropped := ∅ }
    (noted.removeTrans txHash, true)

/-- One transaction of a block: out of the queue and of the invalid ones by its
    original hash. -/
def dropOne (s : TxPool) (o : ObjID) : TxPool :=
  let removed := s.removeTrans (s.objects o).original_hash
  { removed with invalidTxs := removed.invalidTxs.erase (s.objects o).original_hash }

def dropTransactions (s : TxPool) (block : List ObjID) : TxPool := block.foldl dropOne s

/-- The task of `dropTransactions` on the filter. -/
def dropBlockTxsFilter (s : TxPool) (block : List ObjID) : TxPool :=
  { s with
    txsHashFilter := s.txsHashFilter.filter fun h =>
      h ∉ block.map fun o => (s.objects o).original_hash }

/-- The task that removes the invalid transactions; the filter loses what the
    nonces are as hashes. -/
def removeInvalidTxs (s : TxPool) : TxPool :=
  let removed := s.invalidTxs.entries.foldl (fun s item =>
    let removed := s.removeTrans item.1
    { removed with dropped := Insert.insert item.1 removed.dropped }) s
  { removed with
    txpoolNonceChecker := removed.txpoolNonceChecker.filter fun nonce =>
      nonce ∉ s.invalidTxs.entries.map Prod.snd
    txsHashFilter := removed.txsHashFilter.filter fun h => h ∉ s.invalidTxs.entries.map Prod.snd
    invalidTxs := AssocMap.empty }

def updateCache (s : TxPool) : TxPool :=
  { s with txNonceCheck := s.txNonceCheck.updateCache config.maxBlockLimit s.chain false }

def dropBlockTrans (s : TxPool) (block : List ObjID) : TxPool :=
  let dropped := (s.updateCache config).dropTransactions block
  { dropped with
    txpoolNonceChecker := dropped.txpoolNonceChecker.filter fun nonce =>
      nonce ∉ block.map fun o => (dropped.objects o).nonce }

def clear (s : TxPool) : TxPool :=
  { s with txsQueue := [], txsHash := AssocMap.empty, dropped := ∅ }

/-! ### Sealing -/

/-- The loop of `topTransactions`; `avoid` is kept where it may be updated. -/
def topLoop (s : TxPool) (limit : Nat) (updateAvoid : Bool) :
    List QueueNode → AssocMap Nat Nat → Finset Nat → Nat → List ObjID × AssocMap Nat Nat × Finset Nat
  | [], invalid, avoid, _ => ([], invalid, avoid)
  | n :: nodes, invalid, avoid, txCnt =>
    let tx := s.objects n.tx
    if limit ≤ txCnt then ([], invalid, avoid)
    else if invalid.contains tx.hash then topLoop s limit updateAvoid nodes invalid avoid txCnt
    else if tx.nonce ∈ s.txNonceCheck.cache then topLoop s limit updateAvoid nodes invalid avoid txCnt
    else if isBlockLimitOk tx = false then
      topLoop s limit updateAvoid nodes (invalid.insert tx.original_hash tx.nonce) avoid txCnt
    else if tx.hash ∈ avoid then topLoop s limit updateAvoid nodes invalid avoid txCnt
    else
      let avoid := if updateAvoid then Insert.insert tx.hash avoid else avoid
      let rest := topLoop s limit updateAvoid nodes invalid avoid (txCnt + 1)
      (n.tx :: rest.1, rest.2)

def topTransactions (s : TxPool) (limit : Nat) (avoid : Finset Nat) (updateAvoid : Bool) :
    List ObjID × Finset Nat × TxPool :=
  let r := s.topLoop (min config.limit limit) updateAvoid s.txsQueue s.invalidTxs avoid 0
  (r.1, r.2.2, { s with invalidTxs := r.2.1 })

/-- The hashes of a peer that are unknown, which are noted in the filter. -/
def filterUnknownTxs (s : TxPool) (txsHashSet : List Nat) : List Nat × TxPool :=
  let unknown := txsHashSet.filter fun h => h ∉ s.txsHashFilter
  let filter := s.txsHashFilter ∪ txsHashSet.toFinset
  (unknown, { s with txsHashFilter := if config.limit ≤ filter.card then ∅ else filter })

end Calls

end TxPool

/-! ### Runs -/

structure Content where
  hash : Nat
  nonce : Nat
  capacity : Nat
  signed : Bool
  chainId : Nat

/-- `touch` makes an object from bytes or changes it with one of its setters,
    `commit` is the chain's. -/
inductive Input
  | importTx (o : ObjID) (time gap : Nat)
  | drop (txHash : Nat)
  | dropBlockTrans (block : List ObjID)
  | dropBlockTxsFilter (block : List ObjID)
  | removeInvalidTxs
  | clear
  | topTransactions (limit : Nat) (avoid : Finset Nat) (updateAvoid : Bool)
  | filterUnknownTxs (txsHashSet : List Nat)
  | updateCache
  | commit (nonces : List Nat)
  | touch (o : ObjID) (content : Content)

def TxPool.touch (s : TxPool) (o : ObjID) (content : Content) : TxPool :=
  s.write o
    { s.objects o with
      hash := content.hash
      nonce := content.nonce
      capacity := content.capacity
      signed := content.signed
      chainId := content.chainId }

def poolMachine (config : Config) : Machine TxPool Input where
  step s
    | .importTx o time gap => (s.importTx config o time gap).1
    | .drop txHash => (s.drop config txHash).1
    | .dropBlockTrans block => s.dropBlockTrans config block
    | .dropBlockTxsFilter block => s.dropBlockTxsFilter block
    | .removeInvalidTxs => s.removeInvalidTxs
    | .clear => s.clear
    | .topTransactions limit avoid updateAvoid => (s.topTransactions config limit avoid updateAvoid).2.2
    | .filterUnknownTxs txsHashSet => (s.filterUnknownTxs config txsHashSet).2
    | .updateCache => s.updateCache config
    | .commit nonces => { s with chain := s.chain ++ [nonces] }
    | .touch o content => s.touch o content

def TxPool.start (config : Config) (objects : ObjID → Transaction) (chain : List (List Nat)) : TxPool where
  objects := objects
  chain := chain
  txNonceCheck := NonceCheck.init config.maxBlockLimit chain

end HieraChain.Pool
