/-
  HieraChain/CommitBlock.lean
  ===========================
  **Threads that commit blocks** (`libblockchain/BlockChainImp.cpp`,
  `commitBlock`; `libblockverifier/ExecutiveContext.cpp`, `dbCommit`).

  A call checks the number and the parent hash of its block, takes the commit
  lock, checks the number again, lets six writers fill the tables of its context
  in any order, and hands these tables to the storage.  The steps of different
  calls interleave.  `number()` is read from the storage once and kept.

  The tables of a context hold what is not stored yet: new rows, and the values of
  the rows of `SYS_CURRENT_STATE` that were changed.  They are empty again once they
  were stored (`m_name2Table.clear()`), and stay as they are when storing fails.
  The storage may have taken the rows of some tables when it fails.
-/
import Mathlib.Algebra.Ring.Int.Defs
import HieraChain.Machine

namespace HieraChain.CommitBlock

structure Block (H : Type) where
  number : Int
  hash : H
  parentHash : H
  transactions : List H
  nonces : List Nat := []
  failedTransactions : Nat := 0
  deriving DecidableEq, Repr

/-- The rows of the system tables; `others` are the rows that executing blocks
    writes. -/
structure Tables (H W : Type) where
  currentNumber : Option Int := none
  totalTransactionCount : Option Int := none
  totalFailedTransaction : Option Int := none
  hash2Block : List (H × Block H) := []
  number2Hash : List (Int × H) := []
  hash2BlockHeader : List (H × Block H) := []
  txHash2Block : List (H × Int × Nat) := []
  block2Nonces : List (Int × List Nat) := []
  others : List W := []
  deriving DecidableEq, Repr

namespace Tables

variable {H W : Type}

def merge (stored context : Tables H W) : Tables H W where
  currentNumber := context.currentNumber.or stored.currentNumber
  totalTransactionCount := context.totalTransactionCount.or stored.totalTransactionCount
  totalFailedTransaction := context.totalFailedTransaction.or stored.totalFailedTransaction
  hash2Block := stored.hash2Block ++ context.hash2Block
  number2Hash := stored.number2Hash ++ context.number2Hash
  hash2BlockHeader := stored.hash2BlockHeader ++ context.hash2BlockHeader
  txHash2Block := stored.txHash2Block ++ context.txHash2Block
  block2Nonces := stored.block2Nonces ++ context.block2Nonces
  others := stored.others ++ context.others

def obtainNumber (stored : Tables H W) : Int := stored.currentNumber.getD 0

/-- `numberHash`, with `h256()` where there is no row. -/
def numberHash [Inhabited H] (stored : Tables H W) (i : Int) : H :=
  ((stored.number2Hash.find? fun row => row.1 = i).map Prod.snd).getD default

end Tables

inductive TableName
  | currentState
  | hash2Block
  | number2Hash
  | hash2BlockHeader
  | txHash2Block
  | block2Nonces
  | others
  deriving DecidableEq, Repr

def Tables.part {H W : Type} (kept : List TableName) (context : Tables H W) : Tables H W where
  currentNumber := if .currentState ∈ kept then context.currentNumber else none
  totalTransactionCount := if .currentState ∈ kept then context.totalTransactionCount else none
  totalFailedTransaction := if .currentState ∈ kept then context.totalFailedTransaction else none
  hash2Block := if .hash2Block ∈ kept then context.hash2Block else []
  number2Hash := if .number2Hash ∈ kept then context.number2Hash else []
  hash2BlockHeader := if .hash2BlockHeader ∈ kept then context.hash2BlockHeader else []
  txHash2Block := if .txHash2Block ∈ kept then context.txHash2Block else []
  block2Nonces := if .block2Nonces ∈ kept then context.block2Nonces else []
  others := if .others ∈ kept then context.others else []

/-! ### The writers -/

section Writers

variable {H W : Type} (stored : Tables H W) (block : Block H) (context : Tables H W)

def writeHash2Block : Tables H W := { context with hash2Block := context.hash2Block ++ [(block.hash, block)] }

def writeNumber2Hash : Tables H W := { context with number2Hash := context.number2Hash ++ [(block.number, block.hash)] }

/-- `update` changes the row that is there. -/
def writeNumber : Tables H W :=
  if (context.currentNumber.or stored.currentNumber).isSome then { context with currentNumber := some block.number }
  else context

/-- The counts are selected through the context and written to it; a count that is
    not there is inserted. -/
def writeTotalTransactionCount : Tables H W :=
  let count := (context.totalTransactionCount.or stored.totalTransactionCount).getD 0
  let failed := (context.totalFailedTransaction.or stored.totalFailedTransaction).getD 0
  { context with
    totalTransactionCount := some (count + block.transactions.length)
    totalFailedTransaction := some (failed + block.failedTransactions) }

def writeTxToBlock : Tables H W :=
  { context with
    txHash2Block := context.txHash2Block ++ block.transactions.mapIdx fun i tx => (tx, block.number, i)
    block2Nonces := context.block2Nonces ++ [(block.number, block.nonces)] }

def writeHash2BlockHeader : Tables H W :=
  { context with hash2BlockHeader := context.hash2BlockHeader ++ [(block.hash, block)] }

inductive Writer
  | hash2Block
  | number2Hash
  | number
  | totalTransactionCount
  | txToBlock
  | hash2BlockHeader
  deriving DecidableEq, Repr

/-- The six of `parallel_invoke`. -/
def writers : List Writer :=
  [.hash2Block, .number2Hash, .number, .totalTransactionCount, .txToBlock, .hash2BlockHeader]

def write : Writer → Tables H W
  | .hash2Block => writeHash2Block block context
  | .number2Hash => writeNumber2Hash block context
  | .number => writeNumber stored block context
  | .totalTransactionCount => writeTotalTransactionCount stored block context
  | .txToBlock => writeTxToBlock block context
  | .hash2BlockHeader => writeHash2BlockHeader block context

end Writers

/-! ### Calls -/

inductive CommitResult
  | OK
  | ERROR_NUMBER
  | ERROR_PARENT_HASH
  | ERROR_COMMITTING
  deriving DecidableEq, Repr

inductive Phase
  | checkNumber
  | readNumber
  /-- `number()` was read for `numberHash(number())` -/
  | readHash (n : Int)
  | lock
  | recheck
  /-- the writers that have not run -/
  | writing (left : List Writer)
  | dbCommit
  /-- stored, and `m_blockNumber` not set yet -/
  | publish
  | done (result : CommitResult)
  deriving DecidableEq, Repr

structure Call (H : Type) where
  block : Block H
  context : Nat
  deriving DecidableEq, Repr

structure Commit (H W : Type) where
  call : Nat
  block : Block H
  rows : Tables H W
  deriving DecidableEq, Repr

/-- `committed` lists what was stored, oldest first; no step reads it. -/
structure State (H W : Type) where
  stored : Tables H W
  blockNumber : Int
  contexts : Nat → Tables H W
  calls : Nat → Option (Call H × Phase) := fun _ => none
  commitMutex : Option Nat := none
  committed : List (Commit H W) := []

inductive Outcome
  | stored
  /-- an exception, after the rows of these tables were taken -/
  | failed (kept : List TableName)
  deriving DecidableEq, Repr

inductive Input (H : Type)
  | start (c : Nat) (call : Call H)
  | advance (c : Nat)
  | write (c : Nat) (writer : Writer)
  | dbCommit (c : Nat) (outcome : Outcome)

namespace State

variable {H W : Type}

/-- `number()`: afterwards `m_blockNumber` is the number. -/
def readNumber (s : State H W) : State H W :=
  if s.blockNumber = -1 then { s with blockNumber := s.stored.obtainNumber } else s

def setPhase (c : Nat) (call : Call H) (phase : Phase) (s : State H W) : State H W :=
  { s with calls := Function.update s.calls c (some (call, phase)) }

def unlock (s : State H W) : State H W := { s with commitMutex := none }

def start (c : Nat) (call : Call H) (s : State H W) : State H W :=
  match s.calls c with
  | none => s.setPhase c call .checkNumber
  | some _ => s

variable [DecidableEq H] [Inhabited H]

def advance (c : Nat) (s : State H W) : State H W :=
  match s.calls c with
  | some (call, .checkNumber) =>
    -- isBlockShouldCommit
    let s := s.readNumber
    if call.block.number ≠ s.blockNumber + 1 then s.setPhase c call (.done .ERROR_NUMBER)
    else s.setPhase c call .readNumber
  | some (call, .readNumber) =>
    let s := s.readNumber
    s.setPhase c call (.readHash s.blockNumber)
  | some (call, .readHash n) =>
    if call.block.parentHash ≠ s.stored.numberHash n then s.setPhase c call (.done .ERROR_PARENT_HASH)
    else s.setPhase c call .lock
  | some (call, .lock) =>
    match s.commitMutex with
    | none => { s.setPhase c call .recheck with commitMutex := some c }
    | some _ => s
  | some (call, .recheck) =>
    let s := s.readNumber
    if call.block.number ≠ s.blockNumber + 1 then (s.setPhase c call (.done .ERROR_PARENT_HASH)).unlock
    else s.setPhase c call (.writing writers)
  | some (call, .writing []) => s.setPhase c call .dbCommit
  | some (call, .publish) => ({ s with blockNumber := call.block.number }.setPhase c call (.done .OK)).unlock
  | _ => s

def runWriter (c : Nat) (writer : Writer) (s : State H W) : State H W :=
  match s.calls c with
  | some (call, .writing left) =>
    if writer ∈ left then
      { s with
        contexts := Function.update s.contexts call.context
          (CommitBlock.write s.stored call.block (s.contexts call.context) writer)
        calls := Function.update s.calls c (some (call, .writing (left.erase writer))) }
    else s
  | _ => s

def runDbCommit (c : Nat) (outcome : Outcome) (s : State H W) : State H W :=
  match s.calls c with
  | some (call, .dbCommit) =>
    let context := s.contexts call.context
    match outcome with
    | .stored =>
      { s with
        stored := s.stored.merge context
        contexts := Function.update s.contexts call.context {}
        calls := Function.update s.calls c (some (call, .publish))
        committed := s.committed ++ [⟨c, call.block, context⟩] }
    | .failed kept =>
      ({ s with stored := s.stored.merge (context.part kept) }.setPhase c call (.done .ERROR_COMMITTING)).unlock
  | _ => s

def step (s : State H W) : Input H → State H W
  | .start c call => s.start c call
  | .advance c => s.advance c
  | .write c writer => s.runWriter c writer
  | .dbCommit c outcome => s.runDbCommit c outcome

end State

def machine (H W : Type) [DecidableEq H] [Inhabited H] : Machine (State H W) (Input H) := ⟨State.step⟩

end HieraChain.CommitBlock
