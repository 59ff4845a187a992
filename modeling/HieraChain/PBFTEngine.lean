/-
  HieraChain/PBFTEngine.lean
  ==========================
  **The PBFT engine of one node** (`PBFTEngine`, `ConsensusEngineBase`).

  A `Node` is the state the handlers share under `m_mutex`; a handler is a
  function from nodes to nodes, and `step` runs the handler of one input.  What
  the handlers read from outside (the clock, the sync status, the transaction
  pool, the sealer list of the chain, the outcome of executing and storing a
  block) comes with the input as an `Env`.  Timers are not modelled: a timeout
  may come at any time.

  `trace` is a history variable, newest first: what the node signed, locked,
  sent, entered and handed to `commitBlock`.  No handler reads it.

  `m_nodeNum`, `m_f`, `m_cfgErr` and `m_idx` are functions of `m_sealerList`;
  `resetConfig` sets them together.  `execute` leaves the header as it is
  (`serialExecuteBlock`), so the hash that a node signs is that of the header
  it was sent.
-/
import HieraChain.PBFTReqCache
import HieraChain.PBFTCodec
import HieraChain.Machine
import Mathlib.Data.List.Sort

namespace HieraChain.PBFT

open HieraChain.BigEndian

/-- The sealers of the chain; `resetConfig` ends the process on an empty list. -/
abbrev SealerList := { l : List NodeID // l ≠ [] }

structure Config (H S T : Type) where
  /-- `m_keyPair` -/
  key : NodeID
  crypto : Crypto H S T
  enablePrepareWithTxsHash : Bool := false
  allowFutureBlocks : Bool := true

structure Env (T : Type) where
  /-- `utcTime()` -/
  now : Nat := 0
  /-- `m_blockSync->blockNumberFarBehind()` -/
  farBehind : Bool := false
  /-- `m_blockSync->isSyncing()` -/
  syncing : Bool := false
  /-- `m_blockSync->status().knownHighestNumber` -/
  knownHighestNumber : Int := 0
  txPool : List T := []
  /-- `m_blockChain->sealerList()` -/
  sealers : SealerList
  maxBlockTransactions : Nat := 1000
  /-- `verifyAndSetSenderForBlock` does not throw. -/
  sendersOk : Bool := true
  /-- `executeBlock` returns a context. -/
  execOk : Bool := true
  /-- The database takes the block. -/
  dbCommitOk : Bool := true

inductive Event (H S T : Type)
  /-- a prepare request went out, in the short form or the full one -/
  | prepare (req : Prepare H S T) (onlyTxsHash : Bool)
  /-- a sign request went out for a block that was executed from a raw prepare -/
  | signed (raw : Prepare H S T) (block : Block H S T) (req : PBFTMsg H S)
  /-- the raw prepare became the committed prepare -/
  | locked (raw : Prepare H S T)
  | commit (req : PBFTMsg H S)
  | viewChange (req : PBFTMsg H S)
  /-- `isValidViewChangeReq` accepted the request -/
  | acceptedViewChange (req : PBFTMsg H S)
  /-- `m_view` was set, with these requests for the view in the cache -/
  | enteredView (view : Int) (reqs : List (Nat × PBFTMsg H S))
  /-- the block was handed to `commitBlock`, which took it or not, while these
      were the sealers -/
  | commitBlock (sealerList : List NodeID) (block : Block H S T) (ok : Bool)
  /-- a block was reported and became the highest -/
  | reported (header : BlockHeader H)
  deriving DecidableEq

structure Node (H S T : Type) where
  cache : ReqCache H S T
  view : Int := 0
  toView : Int := 0
  leaderFailed : Bool := false
  consensusBlockNumber : Int := 0
  highestBlock : BlockHeader H
  sealerList : List NodeID
  chain : Chain H S T
  trace : List (Event H S T) := []

inductive CheckResult
  | VALID | INVALID | FUTURE
  deriving DecidableEq, Repr

/-- The value of an `int64_t` that is one more, wrapping at the end. -/
def succInt64 (x : Int) : Int := if x = 9223372036854775807 then -9223372036854775808 else x + 1

variable {H S T : Type}

namespace Node

variable (s : Node H S T)

def emit (e : Event H S T) : Node H S T := { s with trace := e :: s.trace }

def withCache (q : ReqCache H S T) : Node H S T := { s with cache := q }

/-! ### Configuration -/

/-- `m_nodeNum`, an `IDXTYPE` -/
def nodeNum : Nat := s.sealerList.length % 65536

/-- `m_f` -/
def f : Nat := (s.nodeNum - 1) / 3

def minValidNodes : Nat := s.nodeNum - s.f

/-- `m_idx` -/
def nodeIdx (c : Config H S T) : Nat :=
  ((s.sealerList.findIdx? fun id => decide (id = c.key)).map (· % 65536)).getD MAXIDX

/-- `m_cfgErr` -/
def cfgErr (c : Config H S T) : Bool := decide (s.nodeIdx c = MAXIDX)

/-- `resetConfig`: the sealer list of the chain, sorted. -/
def resetConfig (e : Env T) : Node H S T :=
  { s with sealerList := e.sealers.1.insertionSort (· ≤ ·) }

/-- `getLeader`; `none` when there is none. -/
def getLeader (c : Config H S T) : Option Nat :=
  if s.cfgErr c || s.leaderFailed || decide (s.highestBlock.sealer = Invalid256)
      || decide (s.nodeNum = 0) then none
  else some ((s.view + s.highestBlock.number).tmod s.nodeNum % 65536).toNat

/-- `getNodeIDByIndex`; `none` when it returns false. -/
def getNodeIDByIndex (idx : Nat) : Option NodeID :=
  if s.sealerList[idx]?.getD 0 = 0 then none else s.sealerList[idx]?

/-! ### Predicates of a request -/

def hasConsensused (m : PBFTMsg H S) : Bool :=
  decide (m.height < s.consensusBlockNumber)
    || (decide (m.height = s.consensusBlockNumber) && decide (m.view < s.view))

def isFuturePrepare (m : PBFTMsg H S) : Bool :=
  decide (s.consensusBlockNumber < m.height)
    || (decide (m.height = s.consensusBlockNumber) && decide (s.view < m.view))

def isFutureBlock (m : PBFTMsg H S) : Bool :=
  decide (s.consensusBlockNumber ≤ m.height) || decide (s.view < m.view)

def isValidLeader (c : Config H S T) (m : PBFTMsg H S) : Bool :=
  decide (s.getLeader c = some m.idx)

end Node

def Env.isSyncingHigherBlock (e : Env T) (m : PBFTMsg H S) : Bool :=
  e.farBehind || (e.syncing && decide (m.height ≤ e.knownHighestNumber))

/-! ### Signatures -/

def hashWithoutBlock (c : Config H S T) (m : PBFTMsg H S) : H :=
  match m.fieldsWithoutBlock with
  | .ok bytes => c.crypto.hash bytes
  | .error _ => c.crypto.hash []

def ownMsg (c : Config H S T) (now : Nat) (height view : Int) (idx : Nat) (blockHash : H) :
    PBFTMsg H S :=
  let sig := c.crypto.sign c.key blockHash
  let m : PBFTMsg H S := { height, view, idx, timestamp := now, blockHash, sig, sig2 := sig }
  { m with sig2 := c.crypto.sign c.key (hashWithoutBlock c m) }

/-- `PBFTEngine::checkSign` of a request -/
def Node.checkSign (c : Config H S T) (s : Node H S T) (m : PBFTMsg H S) : Bool :=
  match s.getNodeIDByIndex m.idx with
  | none => false
  | some id => c.crypto.verify id m.sig m.blockHash && c.crypto.verify id m.sig2 (hashWithoutBlock c m)

/-- `PBFTEngine::checkSign` of an index, a hash and a signature -/
def Node.checkBlockSign (c : Config H S T) (s : Node H S T) (idx : Nat) (hash : H) (sig : S) : Bool :=
  match s.getNodeIDByIndex idx with
  | none => false
  | some id => c.crypto.verify id sig hash

variable [DecidableEq H] [DecidableEq S]

namespace Node

/-! ### Checks of prepare requests and blocks -/

def isHashSavedAfterCommit (s : Node H S T) (m : PBFTMsg H S) : Bool :=
  !(decide (m.height = s.cache.committedPrepareCache.height)
    && decide (m.blockHash ≠ s.cache.committedPrepareCache.blockHash))

def isValidPrepare (c : Config H S T) (e : Env T) (s : Node H S T) (req : Prepare H S T) :
    CheckResult :=
  if s.cache.isExistPrepare req then .INVALID
  else if e.isSyncingHigherBlock req.toPBFTMsg then .INVALID
  else if s.hasConsensused req.toPBFTMsg then .INVALID
  else if !req.isEmpty && !s.isHashSavedAfterCommit req.toPBFTMsg then .INVALID
  else if s.isFuturePrepare req.toPBFTMsg then .FUTURE
  else if !s.isValidLeader c req.toPBFTMsg then .INVALID
  else if !s.checkSign c req.toPBFTMsg then .INVALID
  else .VALID

/-- `checkBlockValid` with `checkSealerList`; false where it throws. -/
def checkBlockValid (c : Config H S T) (e : Env T) (s : Node H S T) (b : Block H S T) : Bool :=
  decide (b.transactions.length ≤ e.maxBlockTransactions)
    && (decide (b.header.timestamp ≤ e.now) || c.allowFutureBlocks)
    && decide (s.chain.number < b.header.number)
    && s.chain.hasHash c.crypto b.header.parentHash
    && (decide (b.header.number ≤ 1)
      || decide (s.chain.numberHash c.crypto (b.header.number - 1) = some b.header.parentHash))
    && decide (s.sealerList = b.header.sealerList)

/-- `execBlock`: the block and whether it has an execution context; `none`
    where it throws.  An empty block is not checked. -/
def execBlock (c : Config H S T) (e : Env T) (s : Node H S T) (req : Prepare H S T) :
    Option (Block H S T × Bool) := do
  let b ← req.pBlock <|> req.block.decode c.crypto
  if b.transactions.isEmpty then some (b, false)
  else if !s.checkBlockValid c e b then none
  else if !e.sendersOk then none
  else some (b, e.execOk)

/-! ### Signing and committing -/

def broadcastCommitReq (c : Config H S T) (e : Env T) (s : Node H S T) : Node H S T :=
  let p := s.cache.prepareCache
  let req := ownMsg c e.now p.height p.view (s.nodeIdx c) p.blockHash
  (s.withCache (s.cache.addCommitReq req)).emit (.commit req)

section Commit

variable [Zero H]

/-- `commitBlock` and what follows it in `checkAndSave`. -/
def saveBlock (c : Config H S T) (e : Env T) (s : Node H S T) (b : Block H S T) : Node H S T :=
  match s.chain.commitBlock c.crypto b e.dbCommitOk with
  | some chain =>
    ({ s with chain, cache := s.cache.delCache (c.crypto.headerHash b.header) }).emit
      (.commitBlock s.sealerList b true)
  | none => s.emit (.commitBlock s.sealerList b false)

/-- `checkAndSave` once the votes are counted. -/
def saveCounted (c : Config H S T) (e : Env T) (s : Node H S T) (signSize commitSize : Nat) :
    Node H S T :=
  if s.minValidNodes ≤ signSize ∧ s.minValidNodes ≤ commitSize then
    if s.cache.prepareCache.view ≠ s.view then s
    else if s.highestBlock.number < s.cache.prepareCache.height then
      match s.cache.prepareCache.pBlock with
      | none => s
      | some b =>
        match s.cache.generateSigList s.minValidNodes with
        | none => s.saveBlock c e b
        | some sigList => s.saveBlock c e { b with sigList }
    else s
  else s

def checkAndSave (c : Config H S T) (e : Env T) (s : Node H S T) : Node H S T :=
  let hash := s.cache.prepareCache.blockHash
  let sign := s.cache.getSigCacheSize (s.checkSign c) hash s.minValidNodes
  let commit := sign.1.getCommitCacheSize (s.checkSign c) hash s.minValidNodes
  (s.withCache commit.1).saveCounted c e sign.2 commit.2

def checkAndCommit (c : Config H S T) (e : Env T) (s : Node H S T) : Node H S T :=
  let r := s.cache.getSigCacheSize (s.checkSign c) s.cache.prepareCache.blockHash s.minValidNodes
  let s := s.withCache r.1
  if r.2 = s.minValidNodes then
    if s.cache.prepareCache.view ≠ s.view then s
    else
      let s := (s.withCache s.cache.updateCommittedPrepare).emit (.locked s.cache.rawPrepareCache)
      (s.broadcastCommitReq c e).checkAndSave c e
  else s

/-- The prepare request that replaces a raw one after its block was executed. -/
def signPrepare (c : Config H S T) (e : Env T) (req : Prepare H S T) (b : Block H S T) :
    Prepare H S T where
  toPBFTMsg := ownMsg c e.now req.height req.view req.idx (c.crypto.headerHash b.header)
  -- no bytes
  block := { header := none, txsItem := .txs none, hash := none, sigList := none }
  pBlock := some b

/-- `addPrepareReq`, then `broadcastSignReq`. -/
def broadcastSignReq (c : Config H S T) (e : Env T) (s : Node H S T) (raw : Prepare H S T)
    (b : Block H S T) : Node H S T :=
  let p := signPrepare c e raw b
  let req := ownMsg c e.now p.height p.view (s.nodeIdx c) p.blockHash
  (s.withCache ((s.cache.addPrepareReq p).addSignReq req)).emit (.signed raw b req)

/-- `execPrepareAndGenerateSignMsg`; the raw prepare is in the cache already. -/
def execPrepareAndGenerateSignMsg (c : Config H S T) (e : Env T) (s : Node H S T)
    (req : Prepare H S T) : Node H S T :=
  match s.execBlock c e req with
  | none => s
  | some (b, hasContext) =>
    -- `needOmit`, or no context
    if b.transactions.isEmpty || !hasContext then s
    else (s.broadcastSignReq c e req b).checkAndCommit c e

/-! ### Prepare requests -/

def handlePrepareMsg (c : Config H S T) (e : Env T) (s : Node H S T) (req : Prepare H S T) :
    Node H S T :=
  match s.isValidPrepare c e req with
  | .INVALID => s
  | .FUTURE => s.withCache (s.cache.addFuturePrepareCache req)
  | .VALID => (s.withCache (s.cache.addRawPrepare req)).execPrepareAndGenerateSignMsg c e req

def handleFutureBlock (c : Config H S T) (e : Env T) (s : Node H S T) : Node H S T :=
  match s.cache.futurePrepareCache.find? s.consensusBlockNumber with
  | none => s
  | some req =>
    if req.view = s.view then
      let s := s.handlePrepareMsg c e req
      s.withCache (s.cache.eraseHandledFutureReq req.height)
    else s

def rehandledPrepare (c : Config H S T) (e : Env T) (s : Node H S T) : Prepare H S T where
  toPBFTMsg := ownMsg c e.now s.cache.committedPrepareCache.height s.view (s.nodeIdx c)
    s.cache.committedPrepareCache.blockHash
  block := s.cache.committedPrepareCache.block
  pBlock := s.cache.committedPrepareCache.pBlock

def rehandleCommitedPrepareCache (c : Config H S T) (e : Env T) (s : Node H S T) : Node H S T :=
  (s.emit (.prepare (s.rehandledPrepare c e) false)).handlePrepareMsg c e (s.rehandledPrepare c e)

/-- `shouldSeal`, which the sealer polls. -/
def shouldSeal (c : Config H S T) (e : Env T) (s : Node H S T) : Node H S T :=
  if s.cfgErr c then s
  else if s.getLeader c ≠ some (s.nodeIdx c) then s
  else if s.cache.committedPrepareCache.height ≠ s.consensusBlockNumber then s
  else if s.cache.rawPrepareCache.height = s.consensusBlockNumber then s
  else s.rehandleCommitedPrepareCache c e

/-- `constructPrepareReq` with a given encoding of the block. -/
def constructPrepareReq (c : Config H S T) (e : Env T) (s : Node H S T) (b : Block H S T)
    (block : EncodedBlock H S T) : Prepare H S T where
  toPBFTMsg :=
    { ownMsg c e.now b.header.number s.view (s.nodeIdx c) (c.crypto.headerHash b.header) with
      isEmpty := b.transactions.isEmpty }
  block := block
  pBlock := some b

/-- `generatePrepare`.  The short form goes out for a block with transactions;
    the node itself keeps the full one. -/
def generatePrepare (c : Config H S T) (e : Env T) (s : Node H S T) (b : Block H S T) : Node H S T :=
  if s.getLeader c ≠ some (s.nodeIdx c) then s
  else
    match b.encodeProposal c.crypto c.enablePrepareWithTxsHash, b.encode c.crypto with
    | some proposal, some full =>
      let s := s.emit (.prepare (s.constructPrepareReq c e b proposal)
        (c.enablePrepareWithTxsHash && !b.transactions.isEmpty))
      if b.transactions.isEmpty then { s with leaderFailed := true }
      else s.handlePrepareMsg c e (s.constructPrepareReq c e b full)
    | _, _ => s

/-! ### Proposals with transaction hashes -/

def completeBlock (p : PartiallyBlock H T) : Option (Block H S T) :=
  p.complete.map fun transactions => { header := p.header, transactions }

/-- `transPartiallyPrepareIntoRawPrepare`, then the execution; `encode` may
    throw between the two. -/
def handleCompletePrepare (c : Config H S T) (e : Env T) (s : Node H S T) (req : Prepare H S T)
    (b : Block H S T) : Node H S T :=
  let trans (req : Prepare H S T) : Node H S T :=
    s.withCache { s.cache with
      rawPrepareCache := req, partiallyRawPrepare := none, rawIsPartially := false }
  match b.encode c.crypto with
  | none => trans { req with pBlock := some b }
  | some block =>
    let req := { req with block, pBlock := some b }
    (trans req).execPrepareAndGenerateSignMsg c e req

def handlePartiallyPrepare (c : Config H S T) (e : Env T) (s : Node H S T) (req : Prepare H S T) :
    Node H S T :=
  let decoded := (req.block.decodeProposal c.crypto).map fun p =>
    p.initPartiallyBlock c.crypto e.txPool
  match s.isValidPrepare c e req with
  | .INVALID => s
  | .FUTURE =>
    match decoded with
    | none => s
    | some p =>
      match completeBlock p with
      | none => s.withCache (s.cache.addPartiallyFuturePrepare req (some p))
      | some b =>
        match b.encode c.crypto with
        | none => s
        | some block => s.withCache (s.cache.addFuturePrepareCache { req with block, pBlock := some b })
  | .VALID =>
    match s.cache.addPartiallyRawPrepare req decoded with
    | none => s
    | some q =>
      match decoded.bind completeBlock with
      | none => s.withCache q
      | some b => (s.withCache q).handleCompletePrepare c e req b

/-- `onReceiveMissedTxsResponse` for the raw prepare: once it is filled, the
    raw prepare and the partially received one are the same request. -/
def handleFilledPrepare (c : Config H S T) (e : Env T) (s : Node H S T) (req : Prepare H S T)
    (p : PartiallyBlock H T) : Node H S T :=
  let keep (req : Prepare H S T) : Node H S T :=
    s.withCache { s.cache with partiallyRawPrepare := some { req, pBlock := some p } }
  match completeBlock p with
  | none => keep req
  | some b =>
    match b.encode c.crypto with
    | none => keep { req with pBlock := some b }
    | some block =>
      let req := { req with block, pBlock := some b }
      let t := (keep req).handlePrepareMsg c e req
      if s.isValidPrepare c e req = .VALID then
        t.withCache { t.cache with rawIsPartially := true }
      else t

def onReceiveMissedTxsResponse (c : Config H S T) (e : Env T) (s : Node H S T)
    (resp : MissedTxsResponse H T) : Node H S T :=
  if s.cache.existInFuturePrepare resp.blockHash then
    match s.cache.partiallyFuturePrepare with
    | some ⟨req, some p⟩ =>
      match p.fillBlock c.crypto resp with
      | none => s
      | some p =>
        let q := { s.cache with partiallyFuturePrepare := none }
        match (completeBlock p).bind fun b => (b.encode c.crypto).map fun block => (b, block) with
        | none => s.withCache q
        | some (b, block) =>
          s.withCache (q.addFuturePrepareCache { req with block, pBlock := some b })
    | _ => s
  else
    match s.cache.partiallyRawPrepare with
    | some ⟨req, some p⟩ =>
      match p.fillBlock c.crypto resp with
      | none => s
      | some p => s.handleFilledPrepare c e req p
    | _ => s

/-! ### Sign and commit requests -/

/-- `checkReq`: the result and the request with its marks. -/
def checkReq (c : Config H S T) (e : Env T) (s : Node H S T) (m : PBFTMsg H S) :
    CheckResult × PBFTMsg H S :=
  if e.isSyncingHigherBlock m then (.INVALID, m)
  else if s.cache.prepareCache.blockHash ≠ m.blockHash then
    if s.isFutureBlock m then (.FUTURE, { m with isFuture := true, signChecked := false })
    else (.INVALID, m)
  else if m.idx = s.nodeIdx c then (.INVALID, m)
  else if s.cache.prepareCache.view ≠ m.view then (.INVALID, m)
  else if !s.checkSign c m then (.INVALID, m)
  else (.VALID, m)

/-- `isValidSignReq`, `isValidCommitReq` on their cache. -/
def isValidVote (c : Config H S T) (e : Env T) (s : Node H S T) (cache : VoteCache H S)
    (m : PBFTMsg H S) : CheckResult × PBFTMsg H S :=
  if VoteCache.cacheExists cache m then (.INVALID, m)
  else if s.hasConsensused m then (.INVALID, m)
  else s.checkReq c e m

def handleSignMsg (c : Config H S T) (e : Env T) (s : Node H S T) (m : PBFTMsg H S) : Node H S T :=
  match s.isValidVote c e s.cache.signCache m with
  | (.INVALID, _) => s
  | (.FUTURE, m) => s.withCache (s.cache.addSignReq m)
  | (.VALID, m) => (s.withCache (s.cache.addSignReq m)).checkAndCommit c e

def handleCommitMsg (c : Config H S T) (e : Env T) (s : Node H S T) (m : PBFTMsg H S) : Node H S T :=
  match s.isValidVote c e s.cache.commitCache m with
  | (.INVALID, _) => s
  | (.FUTURE, m) => s.withCache (s.cache.addCommitReq m)
  | (.VALID, m) => (s.withCache (s.cache.addCommitReq m)).checkAndSave c e

/-! ### View changes -/

def ownViewChange (c : Config H S T) (e : Env T) (s : Node H S T) : PBFTMsg H S :=
  ownMsg c e.now s.highestBlock.number s.toView (s.nodeIdx c) (c.crypto.headerHash s.highestBlock)

/-- `checkAndChangeView`; the count is an `IDXTYPE`. -/
def checkAndChangeView (s : Node H S T) (view : Int) : Node H S T × Bool :=
  if s.minValidNodes ≤ s.cache.getViewChangeSize view % 65536 then
    (({ s with
        leaderFailed := false
        view := view
        toView := view
        cache := s.cache.triggerViewChange view s.chain.number }).emit
      (.enteredView view (((s.cache.recvViewChangeReq.find? view).map AssocMap.entries).getD [])), true)
  else (s, false)

def catchupView (c : Config H S T) (e : Env T) (s : Node H S T) (req : PBFTMsg H S) : Node H S T :=
  match s.getNodeIDByIndex req.idx with
  | none => s
  | some _ =>
    (s.withCache (s.cache.eraseLatestViewChangeCacheForNodeUpdated req.idx)).emit
      (.viewChange (s.ownViewChange c e))

/-- `isValidViewChangeReq`: the node after a catch-up, and the verdict. -/
def isValidViewChangeReq (c : Config H S T) (e : Env T) (s : Node H S T) (source : Nat)
    (req : PBFTMsg H S) : Node H S T × Bool :=
  if s.cache.isExistViewChange req then (s, false)
  else if req.idx = s.nodeIdx c then (s, false)
  else if req.height < s.highestBlock.number then (s, false)
  else
    let s := if succInt64 req.view < s.toView ∧ req.idx = source then s.catchupView c e req else s
    if req.view ≤ s.view then (s, false)
    else if (req.height = s.highestBlock.number ∧ req.blockHash ≠ c.crypto.headerHash s.highestBlock)
        ∨ s.chain.getBlockByNumber req.height = none then (s, false)
    else if !s.checkSign c req then (s, false)
    else (s, true)

def handleViewChangeMsg (c : Config H S T) (e : Env T) (s : Node H S T) (source : Nat)
    (req : PBFTMsg H S) : Node H S T :=
  let r := s.isValidViewChangeReq c e source req
  if r.2 then
    let s := r.1.emit (.acceptedViewChange req)
    let s := s.withCache (s.cache.addViewChangeReq req s.chain.number)
    let r := s.checkAndChangeView req.view
    if !r.2 && decide (r.1.toView < req.view) then
      let s := r.1
      let t := s.cache.canTriggerViewChange s.f s.toView s.highestBlock.number s.consensusBlockNumber
      if t.1 then { s with toView := t.2 - 1 } else s
    else r.1
  else r.1

/-- `checkTimeout`, once the timer has run out -/
def checkTimeout (c : Config H S T) (e : Env T) (s : Node H S T) : Node H S T :=
  let s := { s with toView := succInt64 s.toView, leaderFailed := true }
  let s := s.withCache (s.cache.removeInvalidViewChange s.toView s.highestBlock.number
    (c.crypto.headerHash s.highestBlock))
  let req := s.ownViewChange c e
  let s := (s.withCache (s.cache.addViewChangeReq req s.chain.number)).emit (.viewChange req)
  (s.checkAndChangeView s.toView).1

/-! ### Blocks -/

/-- The part of `reportBlockWithoutLock` for a block at or above the consensus
    height. -/
def moveToHeight (c : Config H S T) (s : Node H S T) (b : Block H S T) : Node H S T :=
  { s with
    view := 0
    toView := 0
    leaderFailed := false
    consensusBlockNumber := b.header.number + 1
    cache := s.cache.delInvalidViewChange b.header.number (c.crypto.headerHash b.header) }

def reportBlockWithoutLock (c : Config H S T) (e : Env T) (s : Node H S T) (b : Block H S T) :
    Node H S T :=
  if s.chain.number = 0 ∨ s.highestBlock.number < b.header.number then
    let t := ({ s with highestBlock := b.header }).emit (.reported b.header)
    let t := if s.consensusBlockNumber ≤ b.header.number then t.moveToHeight c b else t
    (t.resetConfig e).withCache (t.cache.delCache (c.crypto.headerHash b.header))
  else s

/-- `reportBlock` of a block of the chain -/
def reportBlock (c : Config H S T) (e : Env T) (s : Node H S T) (number : Int) : Node H S T :=
  match s.chain.getBlockByNumber number with
  | none => s
  | some b => s.reportBlockWithoutLock c e b

/-- `collectGarbage`, once its interval has passed -/
def collectGarbage (c : Config H S T) (s : Node H S T) : Node H S T :=
  s.withCache (s.cache.collectGarbage s.highestBlock.number (c.crypto.headerHash s.highestBlock))

end Commit

/-- The part of `checkBlock` that looks at the signature list; an index is
    narrowed to an `IDXTYPE`. -/
def checkSigList (c : Config H S T) (s : Node H S T) (b : Block H S T) : Bool :=
  decide (s.minValidNodes ≤ b.sigList.length)
    && b.sigList.all fun sign =>
      s.checkBlockSign c (sign.1 % 65536) (c.crypto.headerHash b.header) sign.2

/-- What `checkBlock` checks after `resetConfig`. -/
def checkBlockConfigured (c : Config H S T) (e : Env T) (s : Node H S T) (b : Block H S T) : Bool :=
  if b.header.number = 0 then true
  else
    decide (s.sealerList = b.header.sealerList)
      && decide (s.sealerList[b.header.sealer % 2 ^ 64]?.getD 0 ≠ 0)
      && s.checkSigList c b
      && decide (b.transactions.length ≤ e.maxBlockTransactions)

/-- `checkBlock`: the node afterwards and the verdict. -/
def checkBlock (c : Config H S T) (e : Env T) (s : Node H S T) (b : Block H S T) :
    Node H S T × Bool :=
  if b.header.number ≤ s.chain.number then (s, false)
  else
    let s := s.resetConfig e
    (s, s.checkBlockConfigured c e b)

/-- A block that the sync module downloaded: it is stored when `checkBlock`
    accepts it. -/
def syncBlock (c : Config H S T) (e : Env T) (s : Node H S T) (b : Block H S T) : Node H S T :=
  let r := s.checkBlock c e b
  if r.2 && e.execOk then
    match r.1.chain.commitBlock c.crypto b e.dbCommitOk with
    | none => r.1
    | some chain => { r.1 with chain }
  else r.1

end Node

/-! ### Inputs -/

/-- A decoded request, as `decodeToRequests` fills a fresh object; `none` when a
    field does not fit its type. -/
def PBFTMsg.received (m : PBFTMsg H S) : Option (PBFTMsg H S) :=
  if m.idx < 65536 ∧ -9223372036854775808 ≤ m.height ∧ m.height ≤ 9223372036854775807
      ∧ -9223372036854775808 ≤ m.view ∧ m.view ≤ 9223372036854775807 then
    some { m with isFuture := false, signChecked := true, isEmpty := false }
  else none

inductive Input (H S T : Type)
  /-- `handleMsg` of a `PrepareReqPacket` with its `prepareWithEmptyBlock` -/
  | prepareReqPacket (req : PBFTMsg H S) (block : EncodedBlock H S T) (prepareWithEmptyBlock : Bool)
  | signReqPacket (req : PBFTMsg H S)
  | commitReqPacket (req : PBFTMsg H S)
  /-- with the index of the peer that sent it -/
  | viewChangeReqPacket (source : Nat) (req : PBFTMsg H S)
  | partiallyPreparePacket (req : PBFTMsg H S) (block : EncodedBlock H S T)
  | missedTxsPacket (resp : MissedTxsResponse H T)
  | handleFutureBlock
  | checkTimeout
  | collectGarbage
  /-- the disconnect handler, for the sealer at the index -/
  | disconnect (idx : Nat)
  | shouldSeal
  | generatePrepare (block : Block H S T)
  | reportBlock (number : Int)
  | syncBlock (block : Block H S T)
  | resetConfig

variable [Zero H]

def Input.receivedPrepare (req : PBFTMsg H S) (block : EncodedBlock H S T)
    (prepareWithEmptyBlock : Bool) : Option (Prepare H S T) :=
  req.received.map fun m =>
    { toPBFTMsg := { m with isEmpty := prepareWithEmptyBlock }, block }

def Node.handleMsg (c : Config H S T) (e : Env T) (s : Node H S T) : Input H S T → Node H S T
  | .prepareReqPacket req block prepareWithEmptyBlock =>
    match Input.receivedPrepare req block prepareWithEmptyBlock with
    | none => s
    | some req => s.handlePrepareMsg c e req
  | .signReqPacket req =>
    match req.received with
    | none => s
    | some req => s.handleSignMsg c e req
  | .commitReqPacket req =>
    match req.received with
    | none => s
    | some req => s.handleCommitMsg c e req
  | .viewChangeReqPacket source req =>
    match req.received with
    | none => s
    | some req => s.handleViewChangeMsg c e source req
  | .partiallyPreparePacket req block =>
    -- the mark of the packet is not read here
    match Input.receivedPrepare req block false with
    | none => s
    | some req => if c.enablePrepareWithTxsHash then s.handlePartiallyPrepare c e req else s
  | .handleFutureBlock => s.handleFutureBlock c e
  | .checkTimeout => s.checkTimeout c e
  | .collectGarbage => s.collectGarbage c
  | _ => s

/-- One input.  `workLoop` and the reception of packets rest while the node is
    no sealer. -/
def Node.step (c : Config H S T) (e : Env T) (s : Node H S T) (i : Input H S T) : Node H S T :=
  match i with
  | .missedTxsPacket resp =>
    if c.enablePrepareWithTxsHash then s.onReceiveMissedTxsResponse c e resp else s
  | .disconnect idx => s.withCache (s.cache.eraseLatestViewChangeCacheForNodeUpdated idx)
  | .shouldSeal => s.shouldSeal c e
  | .generatePrepare block => s.generatePrepare c e block
  | .reportBlock number => s.reportBlock c e number
  | .syncBlock block => s.syncBlock c e block
  | .resetConfig => s.resetConfig e
  | i => if s.cfgErr c then s else s.handleMsg c e i

def engine (c : Config H S T) : Machine (Node H S T) (Env T × Input H S T) where
  step s i := s.step c i.1 i.2

def emptyPrepare (noSig : S) : Prepare H S T where
  blockHash := 0
  sig := noSig
  sig2 := noSig
  block := { header := none, txsItem := .txs none, hash := none, sigList := none }

/-- `initPBFTEnv` on a chain with the given last block: the node has reported
    it and has loaded the committed prepare from its backup. -/
def Node.initPBFTEnv (e : Env T) (noSig : S) (backup : Prepare H S T) (chain : Chain H S T)
    (last : BlockHeader H) : Node H S T where
  cache := {
    prepareCache := emptyPrepare noSig
    rawPrepareCache := emptyPrepare noSig
    committedPrepareCache := backup }
  consensusBlockNumber := last.number + 1
  highestBlock := last
  sealerList := e.sealers.1.insertionSort (· ≤ ·)
  chain := chain

/-- Block `n` of the chain has number `n`. -/
def Numbered (chain : Chain H S T) : Prop :=
  ∀ n b, chain.getBlockByNumber n = some b → b.header.number = n

/-- A node that has just run `initPBFTEnv` on a chain from the genesis block on. -/
def Started (s : Node H S T) : Prop :=
  ∃ (e : Env T) (noSig : S) (backup : Prepare H S T) (chain : Chain H S T) (last : Block H S T),
    Numbered chain ∧ chain.getBlockByNumber chain.number = some last ∧
      s = Node.initPBFTEnv e noSig backup chain last.header

end HieraChain.PBFT
