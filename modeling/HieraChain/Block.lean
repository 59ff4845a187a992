/-
  HieraChain/Block.lean
  =====================
  **Blocks, proposals and the chain** (`libethcore`, `libblockchain`).

  Cryptography enters as a parameter: a hash type `H`, a signature type `S`, a
  transaction type `T` and the functions of `Crypto`.  No law is built in; a
  result that needs one (distinct headers have distinct hashes, a signature
  verifies under its key) states it.

  A proposal travels as bytes.  `EncodedBlock` is what the RLP reader can see
  of such bytes: the header item, the item at position 1, which is a string
  of transactions in the full form and a list of hashes in the short form, and
  the items after it.  Every component may fail to read.  `decode` is the full
  reader (`Block::decodeRC2`), `decodeProposal` the short one; both accept
  either form, and the reader of the other form sees no transaction at all.
-/
import HieraChain.BigEndian

namespace HieraChain

open HieraChain.BigEndian

/-- Public keys; zero is `h512()`. -/
abbrev NodeID := Nat

/-- `(index, signature)` entries of a block. -/
abbrev SigListType (S : Type) := List (Nat × S)

structure BlockHeader (H : Type) where
  parentHash : H
  stateRoot : H
  transactionsRoot : H
  receiptsRoot : H
  dbHash : H
  logBloom : Bytes := []
  number : Int
  gasLimit : Nat := 0
  gasUsed : Nat := 0
  timestamp : Nat := 0
  extraData : List Bytes := []
  sealer : Nat
  sealerList : List NodeID
  deriving DecidableEq, Repr

structure Block (H S T : Type) where
  header : BlockHeader H
  transactions : List T
  sigList : SigListType S := []
  deriving DecidableEq, Repr

structure Crypto (H S T : Type) where
  /-- `crypto::Hash` -/
  hash : Bytes → H
  /-- `BlockHeader::hash` -/
  headerHash : BlockHeader H → H
  /-- `Transaction::hash` -/
  txHash : T → H
  /-- the root over the transaction hashes (`calTransactionRootV2_2_0`) -/
  txsRoot : List H → H
  /-- `crypto::Sign` with the key pair of the node -/
  sign : NodeID → H → S
  /-- `crypto::Verify` -/
  verify : NodeID → S → H → Bool

inductive TxsItem (H T : Type)
  | txs (decoded : Option (List T))
  | hashes (decoded : Option (List H))
  deriving DecidableEq, Repr

/-- An encoded block as the reader sees it; `none` where a read throws. -/
structure EncodedBlock (H S T : Type) where
  header : Option (BlockHeader H)
  txsItem : TxsItem H T
  hash : Option H
  sigList : Option (SigListType S)
  deriving DecidableEq, Repr

/-- A proposal in the short form: the hashes, the transactions found for them,
    and the hashes and positions of the others. -/
structure PartiallyBlock (H T : Type) where
  header : BlockHeader H
  txsHash : List H
  transactions : List (Option T)
  missedTxs : List (H × Nat)
  deriving DecidableEq, Repr

structure MissedTxsResponse (H T : Type) where
  number : Int
  blockHash : H
  txs : Option (List T)
  deriving DecidableEq, Repr

variable {H S T : Type}

/-! ### Encoding and decoding -/

/-- `BlockHeader::verify` without parent and block. -/
def BlockHeader.verify (h : BlockHeader H) : Bool :=
  decide (0 ≤ h.number) && decide (h.number < 9223372036854775807)
    && decide (h.gasUsed ≤ h.gasLimit)

/-- `Block::encode`; throws when the header does not verify. -/
def Block.encode (c : Crypto H S T) (b : Block H S T) : Option (EncodedBlock H S T) :=
  if b.header.verify then
    some { header := some b.header, txsItem := .txs (some b.transactions),
           hash := some (c.headerHash b.header), sigList := some b.sigList }
  else none

/-- `encodeProposal`; the short form carries no signature. -/
def Block.encodeProposal (c : Crypto H S T) (b : Block H S T) (onlyTxsHash : Bool) :
    Option (EncodedBlock H S T) :=
  if onlyTxsHash then
    if b.header.verify then
      some { header := some b.header, txsItem := .hashes (some (b.transactions.map c.txHash)),
             hash := some (c.headerHash b.header), sigList := some [] }
    else none
  else b.encode c

/-- What the full reader takes from position 1; a list is not a string, and
    `toBytes` reads it as no bytes at all. -/
def TxsItem.asTxs : TxsItem H T → Option (List T)
  | .txs l => l
  | .hashes _ => some []

def TxsItem.asHashes : TxsItem H T → Option (List H)
  | .txs _ => some []
  | .hashes l => l

/-- `BlockHeader::populate` rejects a negative number (`toPositiveInt64`). -/
def EncodedBlock.readHeader (e : EncodedBlock H S T) : Option (BlockHeader H) :=
  e.header.filter fun h => decide (0 ≤ h.number)

variable [DecidableEq H]

/-- `Block::decodeRC2` without receipts. -/
def EncodedBlock.decode (c : Crypto H S T) (e : EncodedBlock H S T) : Option (Block H S T) := do
  let header ← e.readHeader
  let transactions ← e.txsItem.asTxs
  let hash ← e.hash
  if hash ≠ c.headerHash header then none
  else
    let sigList ← e.sigList
    some { header, transactions, sigList }

/-- `PartiallyBlock::decodeProposal` of the short form. -/
def EncodedBlock.decodeProposal (c : Crypto H S T) (e : EncodedBlock H S T) :
    Option (PartiallyBlock H T) := do
  let header ← e.readHeader
  let txsHash ← e.txsItem.asHashes
  let hash ← e.hash
  if hash ≠ c.headerHash header then none
  else some { header, txsHash, transactions := txsHash.map fun _ => none, missedTxs := [] }

/-- `TxPool::initPartiallyBlock`: the transactions of the pool that are named,
    and the others as missed. -/
def PartiallyBlock.initPartiallyBlock (c : Crypto H S T) (pool : List T)
    (p : PartiallyBlock H T) : PartiallyBlock H T :=
  let found := p.txsHash.map fun h => pool.find? fun t => decide (c.txHash t = h)
  { p with
    transactions := found
    missedTxs := (p.txsHash.zipIdx.zip found).filterMap fun e =>
      if e.2.isSome then none else some e.1 }

def PartiallyBlock.complete (p : PartiallyBlock H T) : Option (List T) := p.transactions.mapM id

/-- `PartiallyBlock::fillBlock`: number, hash, count and every transaction hash
    must match. -/
def PartiallyBlock.fillBlock (c : Crypto H S T) (p : PartiallyBlock H T)
    (r : MissedTxsResponse H T) : Option (PartiallyBlock H T) := do
  if r.number ≠ p.header.number then none
  else if r.blockHash ≠ c.headerHash p.header then none
  else
    let txs ← r.txs
    if txs.map c.txHash ≠ p.missedTxs.map Prod.fst then none
    else some { p with
      transactions := (txs.zip (p.missedTxs.map Prod.snd)).foldl
        (fun ts e => ts.set e.2 (some e.1)) p.transactions }

/-! ### The chain -/

abbrev Chain (H S T : Type) := List (Block H S T)

namespace Chain

def number (chain : Chain H S T) : Int := (chain.length : Int) - 1

def getBlockByNumber (chain : Chain H S T) (n : Int) : Option (Block H S T) :=
  if n < 0 then none else chain[n.toNat]?

def numberHash (c : Crypto H S T) (chain : Chain H S T) (n : Int) : Option H :=
  (getBlockByNumber chain n).map fun b => c.headerHash b.header

/-- `BlockChainImp::getBlockByHash` finds a block. -/
def hasHash (c : Crypto H S T) (chain : Chain H S T) (h : H) : Bool :=
  chain.any fun b => decide (c.headerHash b.header = h)

/-- `BlockChainImp::commitBlock`; `dbCommit` says whether the database took the
    block. -/
def commitBlock (c : Crypto H S T) (chain : Chain H S T) (b : Block H S T) (dbCommit : Bool) :
    Option (Chain H S T) :=
  if b.header.number ≠ number chain + 1 then none
  else if some b.header.parentHash ≠ numberHash c chain (number chain) then none
  else if dbCommit then some (chain ++ [b]) else none

end Chain

end HieraChain
