/-
  HieraChain/MissedTxs.lean
  =========================
  **The exchange of missed transactions** (`libethcore/PartiallyBlock.cpp`), on
  the bytes that travel.

  A proposal in the short form lists transaction hashes; the transactions that
  the receiver lacks are requested with `encodeMissedInfo`, answered by
  `fetchMissedTxs` and put in place by `fillBlock`.  `BlockException.outOfRange`
  is no exception of the source: it stands where a vector is indexed behind its
  end.
-/
import HieraChain.Block
import HieraChain.TxsParallelParser

namespace HieraChain.RLP

open HieraChain.BigEndian

/-! ### Lax reads -/

/-- `toInt<uint64_t>` with the flags `LaissezFaire`. -/
def toUInt64Lax (d : Bytes) : Except RLPError Nat := do
  requireGood d
  let _ ← isInt d
  if isList d || isNull d then .ok 0
  else return fromBigEndian (← payload d) % 2 ^ 64

/-- `toPair<h256, uint64_t>` with the flags `LaissezFaire`. -/
def toPair (d : Bytes) : Except RLPError (FixedHash 32 × Nat) := do
  let count ← itemCountStrict d
  if count ≠ 2 then .ok (⟨List.replicate 32 0, length_zeros_32⟩, 0)
  else
    let first ← toHashLax 32 (← index d 0)
    let second ← toUInt64Lax (← index d 1)
    return (first, second)

def toPositiveInt64 (d : Bytes) : Except RLPError Int := do
  let i ← toInt64 d
  if i < 0 then .error .badCast else .ok i

/-- `append(std::pair<h256, uint64_t> const&)`. -/
def appendPair (s : RLPStream) (p : FixedHash 32 × Nat) : Except RLPError RLPStream := do
  let s ← appendList s 2
  let s ← appendHash s p.1
  appendUnsigned s p.2

/-- `appendVector` of pairs. -/
def appendPairs (s : RLPStream) (v : List (FixedHash 32 × Nat)) : Except RLPError RLPStream := do
  v.foldlM appendPair (← appendList s v.length)

end HieraChain.RLP

namespace HieraChain.Eth

open HieraChain.BigEndian HieraChain.RLP
open HieraChain.PBFT (H256)

inductive BlockException
  | rlp (e : RLPError)
  | invalidNumber (comment : String)
  | errorBlockHash (comment : String)
  | invalidTransaction (comment : String)
  | transaction (e : TxException)
  | parser (e : ParserException)
  | outOfRange (index size : Nat)
  deriving DecidableEq, Repr

section Exchange

variable {S : Type} (c : SignatureScheme H256 S) (version : Version)

def checkBasic (rlp : Bytes) (number : Int) (expectedHash : H256) : Except BlockException Unit := do
  let blockNumber ← (do toPositiveInt64 (← index rlp 0)).mapError .rlp
  if blockNumber ≠ number then .error (.invalidNumber "checkBasic: invalid block number")
  else
    let blockHash ← (do toHash 32 (← index rlp 1)).mapError .rlp
    if blockHash ≠ expectedHash then
      .error (.errorBlockHash "checkBasic: inconsistent block hash")
    else .ok ()

/-! ### The request -/

/-- `encodeMissedInfo`; the number is written with 32 bits, as are the indices. -/
def encodeMissedInfo (number : Int) (blockHash : H256) (missedTxs : List (H256 × Nat)) :
    Except RLPError Bytes := do
  let s ← appendList {} 3
  let s ← appendUnsigned s number
  let s ← appendHash s blockHash
  out (← appendPairs s missedTxs)

/-! ### The answer -/

/-- The loop of `encodeMissedTxs`: every requested transaction, under its hash. -/
def obtainMissed (transactions : List (Transaction S)) :
    List (H256 × Nat) → Except BlockException (List (Transaction S))
  | [] => .ok []
  | txsInfo :: missedTxs =>
    match transactions[txsInfo.2]? with
    | none => .error (.outOfRange txsInfo.2 transactions.length)
    | some tx => do
      let hash ← (tx.hash c version).mapError .transaction
      if hash ≠ txsInfo.1 then
        .error (.invalidTransaction
          "encodeMissedTxs: invalid transaction for inconsistent transaction hash")
      else return tx :: (← obtainMissed transactions missedTxs)

def encodeResponse (number : Int) (expectedHash : H256) (missed : List (Transaction S)) :
    Except BlockException Bytes := do
  let txsBytes ← (TxsParallelParser.encode c version missed).mapError .parser
  (do
    let s ← appendList {} 3
    let s ← appendUnsigned s number
    let s ← appendHash s expectedHash
    out (← appendBytes s txsBytes)).mapError .rlp

def encodeMissedTxs (transactions : List (Transaction S)) (number : Int)
    (missedTxs : List (H256 × Nat)) (expectedHash : H256) : Except BlockException Bytes := do
  encodeResponse c version number expectedHash (← obtainMissed c version transactions missedTxs)

def requested (missInfo : Bytes) : Except RLPError (List (H256 × Nat)) := do
  toVector toPair (← index missInfo 2)

/-- `fetchMissedTxs` on the block of the leader. -/
def fetchMissedTxs (transactions : List (Transaction S)) (number : Int) (missInfo : Bytes)
    (expectedHash : H256) : Except BlockException Bytes := do
  let missedInfoRlp ← (ofVeryStrict missInfo).mapError .rlp
  checkBasic missedInfoRlp number expectedHash
  let missedTxs ← (requested missedInfoRlp).mapError .rlp
  encodeMissedTxs c version transactions number missedTxs expectedHash

/-! ### Filling the block -/

/-- `toBytesConstRef` of item 2. -/
def responseTxs (rlp : Bytes) : Except RLPError Bytes := do
  toBytes (← index rlp 2)

/-- The loop of `fillBlock`: each transaction into the slot it was missed at. -/
def fillMissed : List (Option (Transaction S)) → List (H256 × Nat) →
    List (Option (Transaction S)) → Except BlockException (List (Option (Transaction S)))
  | tx :: txs, missed :: missedTxs, transactions =>
    match tx with
    | none => .error (.outOfRange 0 0)
    | some tx => do
      let hash ← (tx.hash c version).mapError .transaction
      if hash ≠ missed.1 then
        .error (.invalidTransaction
          "fillBlock: invalid fetched transaction for inconsistent transaction hash")
      else if missed.2 < transactions.length then
        fillMissed txs missedTxs (transactions.set missed.2 (some tx))
      else .error (.outOfRange missed.2 transactions.length)
  | _, _, transactions => .ok transactions

/-- `fillBlock`, with the order in which the parser runs its iterations. -/
def fillBlock (headerHash : BlockHeader H256 → H256) (order : List Nat)
    (p : PartiallyBlock H256 (Transaction S)) (txsData : Bytes) :
    Except BlockException (PartiallyBlock H256 (Transaction S)) := do
  let rlp ← (ofVeryStrict txsData).mapError .rlp
  checkBasic rlp p.header.number (headerHash p.header)
  let txsBytes ← (responseTxs rlp).mapError .rlp
  let missedTransactions ←
    (TxsParallelParser.decode c version .Everything order [] txsBytes).mapError .parser
  if missedTransactions.length ≠ p.missedTxs.length then
    .error (.invalidTransaction "invalid fetched transactions: inconsistent transaction count")
  else
    let transactions ← fillMissed c version missedTransactions p.missedTxs p.transactions
    return { p with transactions }

end Exchange

end HieraChain.Eth
