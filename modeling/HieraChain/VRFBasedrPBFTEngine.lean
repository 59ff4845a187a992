/-
  HieraChain/VRFBasedrPBFTEngine.lean
  ===================================
  **Working sealers and their rotation**
  (`libconsensus/rotating_pbft/vrf_rpbft/VRFBasedrPBFTEngine.h`, `.cpp`, and what it
  uses of `RotatingPBFTEngine`, `ConsensusEngineBase` and `BlockChainImp`).

  The sealers of a chain are its working sealers and its pending ones; working
  sealers lead in turn.  `resetConfig` reads the chain and decides whether the
  next block has to rotate working sealers: the chain asks for it, too few
  sealers work, an interval is over, or the epoch size has changed since the
  call before.  While it has to, `checkTransactionsValid` accepts a block only if
  its first transaction rotates.

  `none` stands for the end of the process or for undefined behaviour, the
  identity `0` for `h512()`.
-/
import HieraChain.RotatingCommittee

namespace HieraChain.VRFBasedrPBFT

open RotatingPBFT (toIDXTYPE remainder MAXIDX SystemConfigRecord)

/-! ### The chain -/

/-- The row `notify_rotate` of the system's configuration. -/
structure NotifyRow where
  value : Int
  enableNumber : Int

/-- A chain of rPBFT, and after each block which of its sealers are working sealers
    and the row `notify_rotate`, if there is one. -/
structure Chain (NodeID : Type) extends RotatingPBFT.Chain NodeID where
  working : Nat → NodeID → Bool
  notifyRotate : Nat → Option NotifyRow

variable {NodeID : Type}

namespace Chain

variable (c : Chain NodeID) (number : Nat)

def workingSealerList : List NodeID := (c.tables number).sealers.nodes.filter (c.working number)

/-- `getSysteConfigByKey` of `notify_rotate`. -/
def readNotifyRotate (num : Int) : Option Int × Int :=
  match c.notifyRotate number with
  | some row => if row.enableNumber ≤ num then (some row.value, row.enableNumber) else (none, -1)
  | none => (none, -1)

/-- `getSystemConfigByKey` of `notify_rotate`, with its cached record before and after. -/
def getNotifyRotate (record : Option SystemConfigRecord) : Option Int × Option SystemConfigRecord :=
  let blockNumber : Int := number + 1
  let read := c.readNotifyRotate number blockNumber
  let updated : Option SystemConfigRecord := some ⟨read.1, read.2, blockNumber⟩
  match record with
  | some record => if record.curBlockNum = blockNumber then (record.value, some record) else (read.1, updated)
  | none => (read.1, updated)

end Chain

def toNotifyRotateFlag (notifyRotateFlagInfo : Option Int) : Bool :=
  match notifyRotateFlagInfo with
  | some value => decide (value ≠ 0)
  | none => false

/-! ### The engine -/

structure Engine (NodeID : Type) extends RotatingPBFT.Engine NodeID where
  shouldRotateSealers : Bool := false
  workingSealersNum : Int := 0
  nodeID2Index : NodeID → Option Nat := fun _ => none
  notifyRotateRecord : Option SystemConfigRecord := none

structure Transaction (Address : Type) where
  «to» : Address
  sender : Address

/-- A block; `sealer` is that of its header as a `size_t`. -/
structure Block (Address : Type) where
  transactions : List (Transaction Address)
  sealer : Nat

structure PrepareReq where
  idx : Nat
  height : Int

/-- `InvalidNodeRotationTx` and `InvalidLeader`, with what their texts say. -/
inductive Invalid (Address : Type)
  | contractAddress (expected current : Address)
  | leader (idx : Nat)
  | sender (expected current : Address)
  deriving DecidableEq

section
variable [LinearOrder NodeID] [Zero NodeID] {Address : Type} [DecidableEq Address]

/-- The loop over the sealers; `insert` of a map keeps what is there. -/
def indexFrom : List NodeID → Nat → (NodeID → Option Nat) → NodeID → Option Nat
  | [], _, nodeID2Index => nodeID2Index
  | node :: sealers, nodeIndex, nodeID2Index =>
    indexFrom sealers (toIDXTYPE (nodeIndex + 1 : Nat))
      (if nodeID2Index node = none then Function.update nodeID2Index node (some nodeIndex) else nodeID2Index)

namespace Engine

variable (c : Chain NodeID) (pub : NodeID) (number : Nat) (s : Engine NodeID)

def init (sealerList : List NodeID) (number : Nat) : Engine NodeID :=
  { RotatingPBFT.Engine.init sealerList number with }

/-- The working sealers of the chain, or `m_sealerList[0]`. -/
def workingSealers : Option (List NodeID) :=
  match c.workingSealerList number with
  | [] => s.sealerList.head?.map fun node => [node]
  | node :: rest => some (node :: rest)

/-- `m_chosedSealerList` and `m_chosedConsensusNodes` of `updateConsensusNodeList`. -/
def updateChosed (workingSealers : List NodeID) : Engine NodeID :=
  let s := { s with workingSealersNum := workingSealers.length }
  if workingSealers ≠ s.chosedSealerList then
    { s with
      toEngine := RotatingPBFT.Engine.resetLocatedInConsensusNodes pub
        { s.toEngine with
          chosedSealerList := workingSealers
          chosedConsensusNodes := workingSealers.toFinset } }
  else s

/-- `m_nodeID2Index` of `updateConsensusNodeList`. -/
def updateIndex : Engine NodeID :=
  if s.sealerListUpdated then
    { s with
      toEngine := { s.toEngine with sealersNum := s.sealerList.length }
      nodeID2Index := indexFrom s.sealerList 0 fun _ => none }
  else s

def updateConsensusNodeList : Option (Engine NodeID) := do
  let s := { s with toEngine := s.toEngine.updateConsensusNodeList c.toChain number }
  let workingSealers ← s.workingSealers c number
  return (s.updateChosed pub (workingSealers.insertionSort (· ≤ ·))).updateIndex

/-- `resetConfig` of `ConsensusEngineBase`, which calls the function above. -/
def baseResetConfig : Option (Engine NodeID) := do
  let s ← s.updateConsensusNodeList c pub number
  let nodeIdx := ((s.sealerList.findIdx? fun node => decide (node = pub)).map (· % 65536)).getD MAXIDX
  if s.sealerList.length < 1 then none
  else
    let nodeNum := toIDXTYPE s.sealerList.length
    return { s with
      toEngine :=
        { s.toEngine with
          nodeNum := nodeNum
          f := toIDXTYPE (((nodeNum : Int) - 1).tdiv 3)
          cfgErr := decide (nodeIdx = MAXIDX) } }

def setShouldRotateSealers (shouldRotateSealers : Bool) : Engine NodeID :=
  { s with shouldRotateSealers := shouldRotateSealers }

/-- The part of `resetConfig` that sets `m_shouldRotateSealers`. -/
def updateShouldRotate (epochUpdated : Bool) : Option (Engine NodeID) := do
  let (notifyRotateFlagInfo, record) := c.getNotifyRotate number s.notifyRotateRecord
  let s := { s with notifyRotateRecord := record }
  let s := if toNotifyRotateFlag notifyRotateFlagInfo then s.setShouldRotateSealers true else s
  let maxWorkingSealerNum := min s.epochSize s.sealersNum
  let s := if s.workingSealersNum < maxWorkingSealerNum then s.setShouldRotateSealers true else s
  if epochUpdated then return s.setShouldRotateSealers true
  let blocks ← remainder (number - s.rotatingIntervalEnableNumber) s.rotatingInterval
  return if blocks = 0 then s.setShouldRotateSealers true else s

def resetConfig : Option (Engine NodeID) := do
  let s ← s.baseResetConfig c pub number
  let s := s.setShouldRotateSealers false
  let s := { s with toEngine := { s.toEngine with f := toIDXTYPE ((s.workingSealersNum - 1).tdiv 3) } }
  let (_, base) ← s.toEngine.updateRotatingInterval c.toChain number
  let s := { s with toEngine := base }
  let (epochUpdated, base) ← s.toEngine.updateEpochSize c.toChain number
  let s := { s with toEngine := base }
  if number = 0 then return s
  else s.updateShouldRotate c number epochUpdated

/-- `selectLeader`; the sum is an `int64_t` that becomes a `size_t`. -/
def selectLeader (view : Int) : Nat :=
  match s.chosedSealerList[((view + number) % 2 ^ 64).toNat % s.chosedSealerList.length]? with
  | none => MAXIDX
  -- `operator[]` of the map
  | some selectedNodeId => (s.nodeID2Index selectedNodeId).getD 0

/-- `getSealerByIndex` of `RotatingPBFTEngine`. -/
def getSealerByIndex (index : Nat) : NodeID :=
  let nodeId := s.getNodeIDByIndex index
  if nodeId ≠ 0 ∧ nodeId ∈ s.chosedConsensusNodes then nodeId else 0

/-- `checkTransactionsValid`; `manager` is `WORKING_SEALER_MGR_ADDRESS`, and
    `committedHeight` the height of the committed request in the cache. -/
def checkTransactionsValid (toAddress : NodeID → Address) (manager : Address) (committedHeight : Int)
    (block : Block Address) (req : PrepareReq) : Except (Invalid Address) Unit :=
  if !s.shouldRotateSealers then .ok ()
  else
    match block.transactions with
    | [] => .ok ()
    | nodeRotatingTx :: _ =>
      if nodeRotatingTx.to ≠ manager then .error (.contractAddress manager nodeRotatingTx.to)
      else if committedHeight = req.height then .ok ()
      else if s.getSealerByIndex req.idx = 0 then .error (.leader req.idx)
      else
        let leaderAccount := toAddress (s.getSealerByIndex req.idx)
        if nodeRotatingTx.sender = leaderAccount then .ok ()
        -- a block of the backup, which its sealer made
        else if nodeRotatingTx.sender = toAddress (s.getSealerByIndex block.sealer) then .ok ()
        else .error (.sender leaderAccount nodeRotatingTx.sender)

end Engine

/-! ### A node -/

structure Node (NodeID : Type) where
  number : Nat
  engine : Option (Engine NodeID)

/-- A node that has started at a height: the ledger makes the engine and calls
    `resetConfig` before the chain can grow. -/
def Node.start (c : Chain NodeID) (pub : NodeID) (sealerList : List NodeID) (number : Nat) : Node NodeID :=
  ⟨number, (Engine.init sealerList number).resetConfig c pub number⟩

/-- An input is a call of `resetConfig` after so many more blocks. -/
def machine (c : Chain NodeID) (pub : NodeID) : Machine (Node NodeID) Nat where
  step node blocks :=
    { number := node.number + blocks, engine := node.engine.bind (Engine.resetConfig c pub (node.number + blocks)) }

end

end HieraChain.VRFBasedrPBFT
