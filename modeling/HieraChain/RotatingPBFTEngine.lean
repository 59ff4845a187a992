/-
  HieraChain/RotatingPBFTEngine.lean
  ==================================
  **The rotating committee of rPBFT**
  (`libconsensus/rotating_pbft/RotatingPBFTEngine.h`, `.cpp`, and what it uses of
  `ConsensusEngineBase` and `BlockChainImp`).

  A chain says at every height who the sealers are and what the rows of the
  system's configuration hold; a row is in force from the block after the one
  that wrote it.  The engine of a node reads the chain when `resetConfig` is
  called, at whatever heights that is, and carries the chosen nodes along.

  `none` stands for the end of the process or for undefined behaviour: an index
  out of range, a division by zero, an assertion, an exception, `LOG(FATAL)`.
  An `IDXTYPE` is 16 bits wide.  The identity `0` stands for `h512()`.
-/
import HieraChain.CyclicWindow
import HieraChain.Machine
import Mathlib.Data.Finset.Sort
import Mathlib.Data.List.Sort

namespace HieraChain.RotatingPBFT

/-! ### The chain -/

structure Sealers (NodeID : Type) where
  nodes : List NodeID
  nonempty : nodes ≠ []
  distinct : nodes.Nodup

inductive ConfigKey
  | rpbft_epoch_sealer_num
  | rpbft_epoch_block_num
  deriving DecidableEq

/-- A value that `checkValueValid` accepts. -/
abbrev ConfigValue := { value : Int // 1 ≤ value }

structure ConfigRow where
  value : ConfigValue
  enableNumber : Int

structure Changes (NodeID : Type) where
  sealers : Option (Sealers NodeID)
  config : ConfigKey → Option ConfigValue

structure Tables (NodeID : Type) where
  sealers : Sealers NodeID
  row : ConfigKey → ConfigRow

structure Chain (NodeID : Type) where
  genesisSealers : Sealers NodeID
  genesisConfig : ConfigKey → ConfigValue
  block : Nat → Changes NodeID

variable {NodeID : Type}

def Chain.tables (c : Chain NodeID) : Nat → Tables NodeID
  | 0 => ⟨c.genesisSealers, fun key => ⟨c.genesisConfig key, 0⟩⟩
  | number + 1 =>
    { sealers := (c.block (number + 1)).sealers.getD (c.tables number).sealers
      row := fun key =>
        match (c.block (number + 1)).config key with
        | some value => ⟨value, number + 1 + 1⟩
        | none => (c.tables number).row key }

/-- `getSysteConfigByKey`; `none` is the empty text. -/
def getSysteConfigByKey (row : ConfigRow) (num : Int) : Option Int × Int :=
  if row.enableNumber ≤ num then (some row.value, row.enableNumber) else (none, -1)

structure SystemConfigRecord where
  value : Option Int
  enableNumber : Int
  curBlockNum : Int

abbrev ConfigCache := ConfigKey → Option SystemConfigRecord

/-- `getSystemConfigInfoByKey` at the height `number`, with the cache before and after. -/
def getSystemConfigInfoByKey (c : Chain NodeID) (number : Nat) (key : ConfigKey) (cache : ConfigCache) :
    (Option Int × Int) × ConfigCache :=
  let blockNumber : Int := number + 1
  let read := getSysteConfigByKey ((c.tables number).row key) blockNumber
  let updated : ConfigCache := Function.update cache key (some ⟨read.1, read.2, blockNumber⟩)
  match cache key with
  | some record =>
    if record.curBlockNum = blockNumber then ((record.value, record.enableNumber), cache)
    else (read, updated)
  | none => (read, updated)

/-! ### The engine -/

structure Engine (NodeID : Type) where
  sealerList : List NodeID
  sealerListUpdated : Bool := true
  lastSealerListUpdateNumber : Nat
  nodeNum : Nat := 0
  cfgErr : Bool := false
  f : Nat := 0
  epochSize : Int := -1
  rotatingInterval : Int := -1
  startNodeIdx : Int := -1
  rotatingRound : Int := 0
  sealersNum : Int := 0
  locatedInConsensusNodes : Bool := true
  chosedConsNodeChanged : Bool := false
  chosedConsensusNodes : Finset NodeID := ∅
  chosedSealerList : List NodeID := []
  rotatingIntervalEnableNumber : Int := -1
  rotatingIntervalUpdated : Bool := false
  systemConfigRecord : ConfigCache := fun _ => none

def MAXIDX : Nat := 65535

/-- An `int64_t` kept in an `IDXTYPE`. -/
def toIDXTYPE (n : Int) : Nat := (n % 65536).toNat

/-- `/` of C++. -/
def quotient (a b : Int) : Option Int := if b = 0 then none else some (a.tdiv b)

/-- `%` of C++. -/
def remainder (a b : Int) : Option Int := if b = 0 then none else some (a.tmod b)

section
variable [LinearOrder NodeID] [Zero NodeID]

namespace Engine

/-- The engine as the ledger makes it, the chain being at height `number`. -/
def init (sealerList : List NodeID) (number : Nat) : Engine NodeID where
  sealerList := sealerList.insertionSort (· ≤ ·)
  lastSealerListUpdateNumber := number

variable (c : Chain NodeID) (pub : NodeID) (number : Nat) (s : Engine NodeID)

def updateConsensusNodeList : Engine NodeID :=
  let sealerList := (c.tables number).sealers.nodes.insertionSort (· ≤ ·)
  if sealerList ≠ s.sealerList then
    { s with sealerList := sealerList, sealerListUpdated := true, lastSealerListUpdateNumber := number }
  else if number ≠ s.lastSealerListUpdateNumber then { s with sealerListUpdated := false }
  else s

/-- `resetConfig` of `ConsensusEngineBase`. -/
def baseResetConfig : Option (Engine NodeID) :=
  let s := s.updateConsensusNodeList c number
  let nodeIdx := ((s.sealerList.findIdx? fun node => decide (node = pub)).map (· % 65536)).getD MAXIDX
  if s.sealerList.length < 1 then none
  else
    let nodeNum := toIDXTYPE s.sealerList.length
    some { s with nodeNum := nodeNum, f := toIDXTYPE (((nodeNum : Int) - 1).tdiv 3), cfgErr := decide (nodeIdx = MAXIDX) }

def setEpochSealerNum (epochSize : Int) : Engine NodeID :=
  { s with epochSize := if epochSize > s.sealersNum then s.sealersNum else epochSize }

def updateEpochSize : Option (Bool × Engine NodeID) := do
  let (info, cache) := getSystemConfigInfoByKey c number .rpbft_epoch_sealer_num s.systemConfigRecord
  let s := { s with systemConfigRecord := cache }
  let epoch ← info.1
  if epoch = s.epochSize then return (false, s)
  let updated := s.setEpochSealerNum epoch
  return (decide (s.epochSize ≠ updated.epochSize), updated)

def updateRotatingInterval : Option (Bool × Engine NodeID) := do
  let (info, cache) := getSystemConfigInfoByKey c number .rpbft_epoch_block_num s.systemConfigRecord
  let s := { s with systemConfigRecord := cache }
  let rotatingInterval ← info.1
  let enableNumber := info.2
  if rotatingInterval = s.rotatingInterval ∧ enableNumber = s.rotatingIntervalEnableNumber then return (false, s)
  return (true, { s with rotatingInterval := rotatingInterval, rotatingIntervalEnableNumber := enableNumber })

/-- `m_sealerList[idx]`. -/
def sealerAt (idx : Int) : Option NodeID := if idx < 0 then none else s.sealerList[idx.toNat]?

/-- The loop over the epoch, `count` nodes to go. -/
def chosedFrom : Nat → Int → Finset NodeID → Option (Finset NodeID)
  | 0, _, chosed => some chosed
  | count + 1, idx, chosed => do
    let node ← s.sealerAt idx
    let next ← remainder (idx + 1) s.sealersNum
    chosedFrom count next (insert node chosed)

/-- `resetChosedConsensusNodes` from its assertion on. -/
def resetStart : Option (Engine NodeID) := do
  if s.sealersNum = 0 then none
  else if s.rotatingInterval = -1 ∨ s.epochSize = -1 then return s
  else
    let rotatingRound ←
      (if s.startNodeIdx = -1 then quotient (number - s.rotatingIntervalEnableNumber) s.rotatingInterval
      else some s.rotatingRound)
    let startNodeIdx ← remainder rotatingRound s.sealersNum
    let chosed ← s.chosedFrom s.epochSize.toNat startNodeIdx ∅
    return { s with
      rotatingRound := rotatingRound
      startNodeIdx := startNodeIdx
      chosedConsensusNodes := chosed
      chosedConsNodeChanged := s.chosedConsNodeChanged || decide (chosed ≠ s.chosedConsensusNodes) }

def resetChosedConsensusNodes : Option (Engine NodeID) := do
  let s := if s.sealerListUpdated then { s with sealersNum := s.sealerList.length } else s
  let (epochUpdated, s) ← s.updateEpochSize c number
  if !epochUpdated && !s.sealerListUpdated && !s.rotatingIntervalUpdated then return s
  else s.resetStart number

/-- `getNodeIDByIndex`, which is `getSealerByIndex` of `ConsensusEngineBase`. -/
def getNodeIDByIndex (index : Int) : NodeID := (s.sealerAt index).getD 0

def chooseConsensusNodes : Option (Engine NodeID) := do
  if s.rotatingInterval = -1 ∨ s.epochSize = -1 then return s
  let consensusRound := number - s.rotatingIntervalEnableNumber - s.rotatingRound * s.rotatingInterval
  if consensusRound < s.rotatingInterval then return s
  let chosedOutIdx ← remainder s.rotatingRound s.sealersNum
  let chosedOutNodeId := s.getNodeIDByIndex chosedOutIdx
  if chosedOutNodeId = 0 then none
  let rotatingRound := s.rotatingRound + 1
  let startNodeIdx ← remainder rotatingRound s.sealersNum
  let epochSize := min s.epochSize s.sealersNum
  let chosedInNodeIdx := toIDXTYPE (← remainder (startNodeIdx + epochSize - 1) s.sealersNum)
  let chosedInNodeId := s.getNodeIDByIndex chosedInNodeIdx
  return { s with
    rotatingRound := rotatingRound
    startNodeIdx := startNodeIdx
    chosedConsensusNodes := insert chosedInNodeId (s.chosedConsensusNodes.erase chosedOutNodeId)
    chosedConsNodeChanged := true }

/-- `updateConsensusInfo`, with `updateChosedSealerList`. -/
def updateConsensusInfo : Engine NodeID :=
  if !s.chosedConsNodeChanged then s
  else if s.chosedConsensusNodes.card > 0 then
    { s with chosedSealerList := s.chosedConsensusNodes.sort, chosedConsNodeChanged := false }
  else { s with chosedConsNodeChanged := false }

def resetLocatedInConsensusNodes : Engine NodeID :=
  { s with locatedInConsensusNodes := decide (pub ∈ s.chosedConsensusNodes) }

def resetConfig : Option (Engine NodeID) := do
  let s ← s.baseResetConfig c pub number
  let (rotatingIntervalUpdated, s) ← s.updateRotatingInterval c number
  let s := { s with rotatingIntervalUpdated := rotatingIntervalUpdated }
  let rotatingRound ←
    (if s.rotatingIntervalUpdated then quotient (number - s.rotatingIntervalEnableNumber) s.rotatingInterval
    else some s.rotatingRound)
  let s := { s with rotatingRound := rotatingRound }
  let s ← s.resetChosedConsensusNodes c number
  let s := { s with f := toIDXTYPE (min ((s.epochSize - 1).tdiv 3) ((s.sealersNum - 1).tdiv 3)) }
  let s ← s.chooseConsensusNodes number
  return s.updateConsensusInfo.resetLocatedInConsensusNodes pub

def consensusList : List NodeID := s.chosedSealerList

def minValidNodes : Nat := toIDXTYPE (min s.epochSize s.sealersNum - s.f)

/-- `selectLeader`; the view and the number are added as `int64_t`, the indices
    as `uint64_t`. -/
def selectLeader (view : Int) : Option Nat := do
  let index ← remainder (Int.bmod (view + number) (2 ^ 64)) s.epochSize
  let leader ← remainder ((s.startNodeIdx + index) % 2 ^ 64) (s.sealersNum % 2 ^ 64)
  return toIDXTYPE leader

/-- `getLeader`; `failed` is `m_leaderFailed`, or a highest block without a sealer. -/
def getLeader (failed : Bool) (view : Int) : Option (Bool × Nat) :=
  if !s.locatedInConsensusNodes then some (false, MAXIDX)
  else if s.cfgErr || failed || s.nodeNum = 0 then some (false, MAXIDX)
  else (s.selectLeader number view).map fun leaderIdx => (true, leaderIdx)

end Engine

/-! ### A node -/

structure Node (NodeID : Type) where
  number : Nat
  engine : Option (Engine NodeID)

def Node.start (sealerList : List NodeID) (number : Nat) : Node NodeID := ⟨number, some (.init sealerList number)⟩

/-- An input is a call of `resetConfig` after so many more blocks. -/
def machine (c : Chain NodeID) (pub : NodeID) : Machine (Node NodeID) Nat where
  step node blocks :=
    { number := node.number + blocks, engine := node.engine.bind (Engine.resetConfig c pub (node.number + blocks)) }

end

end HieraChain.RotatingPBFT
