/-
  HieraChain/VRFRotation.lean
  ===========================
  **When two nodes agree on the working sealers and their rotation.**

  Working sealers, tolerated faults and leaders of a height are functions of the
  chain, and so are three of the four reasons to rotate.  The fourth, a changed
  epoch size, compares the chain with what the node heard at its call before.
  `EpochView` keeps just that along the calls, and the engine follows it
  (`follows_run`).  Two nodes at a height agree exactly if the chain itself asks
  for a rotation or both have heard of a change, or neither has
  (`rotation_agreement`).
-/
import HieraChain.VRFBasedrPBFTEngine

namespace HieraChain.VRFBasedrPBFT

open RotatingPBFT (toIDXTYPE remainder MAXIDX SystemConfigRecord CacheOk)

variable {NodeID : Type}

/-! ### What a chain says at a height -/

namespace Chain

variable (c : Chain NodeID) (number : Nat)

/-- The flag `notify_rotate`. -/
def notifies : Bool := toNotifyRotateFlag (c.readNotifyRotate number (number + 1)).1

section
variable [LinearOrder NodeID]

def unsorted : List NodeID :=
  if c.workingSealerList number = [] then (c.sealerList number).head?.toList else c.workingSealerList number

def chosed : List NodeID := (c.unsorted number).insertionSort (· ≤ ·)

def Rotates : Prop :=
  c.notifies number = true
    ∨ ((c.chosed number).length : Int) < min (c.epochSealerNum number) (c.sealersNum number)
    ∨ ((number : Int) - c.enableNumber number).tmod (c.epochBlockNum number) = 0

instance : Decidable (c.Rotates number) := inferInstanceAs (Decidable (_ ∨ _ ∨ _))

def nodeID2Index : NodeID → Option Nat := indexFrom (c.sealerList number) 0 fun _ => none

def turn (view : Int) : Option NodeID :=
  (c.chosed number)[((view + number) % 2 ^ 64).toNat % (c.chosed number).length]?

/-- An index of 16 bits tells a leader from the sealers that do not work. -/
def Indexed [Zero NodeID] : Prop :=
  ∀ view node, c.turn number view = some node →
    (c.sealerList number)[(c.sealerList number).idxOf node % 65536]?.getD 0 ∈ c.chosed number

end

end Chain

/-! ### What a node has heard of the epoch size -/

/-- A node's height, the epoch size of its last call, and whether that call changed it. -/
structure EpochView where
  number : Nat
  size : Int := -1
  updated : Bool := false

section
variable [LinearOrder NodeID]

/-- A size that is the configured one stays; otherwise it is cut to the sealers. -/
def Chain.nextEpochSize (c : Chain NodeID) (number : Nat) (size : Int) : Int :=
  if c.epochSealerNum number = size then size else min (c.epochSealerNum number) (c.sealersNum number)

def epochs (c : Chain NodeID) : Machine EpochView Nat where
  step view blocks :=
    let number := view.number + blocks
    let size := c.nextEpochSize number view.size
    { number := number, size := size, updated := decide (size ≠ view.size) }

/-- The view after a start at a height, with its call, and further calls. -/
def epochView (c : Chain NodeID) (height : Nat) (calls : List Nat) : EpochView :=
  (epochs c).run { number := height } (0 :: calls)

end

/-! ### The map of indices -/

section
variable [LinearOrder NodeID]

theorem indexFrom_of_some {sealers : List NodeID} {nodeIndex : Nat} {index : NodeID → Option Nat} {node : NodeID} {i : Nat}
    (h : index node = some i) : indexFrom sealers nodeIndex index node = some i := by
  induction sealers generalizing nodeIndex index with
  | nil => exact h
  | cons first sealers ih =>
    unfold indexFrom
    apply ih
    split
    next hnone =>
      have hne : node ≠ first := by
        rintro rfl
        rw [hnone] at h
        cases h
      rw [Function.update_of_ne hne, h]
    next => exact h

theorem indexFrom_of_mem {sealers : List NodeID} {nodeIndex : Nat} {index : NodeID → Option Nat} {node : NodeID}
    (hmem : node ∈ sealers) (hnone : index node = none) (hsmall : nodeIndex < 65536) :
    indexFrom sealers nodeIndex index node = some ((nodeIndex + sealers.idxOf node) % 65536) := by
  induction sealers generalizing nodeIndex index with
  | nil => cases hmem
  | cons first sealers ih =>
    unfold indexFrom
    by_cases heq : first = node
    · subst heq
      rw [if_pos hnone]
      rw [indexFrom_of_some (Function.update_self ..), List.idxOf_cons_self, Nat.add_zero, Nat.mod_eq_of_lt hsmall]
    · have hmem' : node ∈ sealers := by
        rcases List.mem_cons.mp hmem with h | h
        · exact absurd h.symm heq
        · exact h
      have hnext : toIDXTYPE (nodeIndex + 1 : Nat) = (nodeIndex + 1) % 65536 := by
        unfold toIDXTYPE
        omega
      rw [ih hmem' ?_ (by rw [hnext]; omega), hnext, List.idxOf_cons_ne _ heq]
      · congr 1
        omega
      · split
        next => rw [Function.update_of_ne (Ne.symm heq), hnone]
        next => exact hnone

theorem Chain.mem_sealerList_of_mem_chosed {c : Chain NodeID} {number : Nat} {node : NodeID}
    (h : node ∈ c.chosed number) : node ∈ c.sealerList number := by
  unfold Chain.chosed at h
  rw [List.mem_insertionSort] at h
  unfold Chain.unsorted at h
  split at h
  · exact List.mem_of_mem_head? (Option.mem_toList.mp h)
  · unfold RotatingPBFT.Chain.sealerList
    rw [List.mem_insertionSort]
    exact List.mem_of_mem_filter h

theorem Chain.chosed_ne_nil (c : Chain NodeID) (number : Nat) : c.chosed number ≠ [] := by
  have hne := c.sealerList_ne_nil number
  have hunsorted : c.unsorted number ≠ [] := by
    unfold Chain.unsorted
    split
    · cases hlist : c.sealerList number with
      | nil => exact absurd hlist hne
      | cons node rest => exact List.cons_ne_nil _ _
    · next hworking => exact hworking
  intro h
  have hperm := List.perm_insertionSort (· ≤ ·) (c.unsorted number)
  rw [show (c.unsorted number).insertionSort (· ≤ ·) = [] from h] at hperm
  exact hunsorted hperm.nil_eq.symm

theorem Chain.exists_turn (c : Chain NodeID) (number : Nat) (view : Int) :
    ∃ node, c.turn number view = some node ∧ node ∈ c.chosed number := by
  have hpos : 0 < (c.chosed number).length := List.length_pos_of_ne_nil (c.chosed_ne_nil number)
  have hlt := Nat.mod_lt ((view + number) % 2 ^ 64).toNat hpos
  exact ⟨_, List.getElem?_eq_getElem hlt, List.getElem_mem hlt⟩

theorem Chain.indexed_of_le [Zero NodeID] {c : Chain NodeID} {number : Nat} (h : c.sealersNum number ≤ 65536) :
    c.Indexed number := by
  intro view node hturn
  have hmem : node ∈ c.chosed number := List.mem_of_getElem? hturn
  have hlt : (c.sealerList number).idxOf node < (c.sealerList number).length :=
    List.idxOf_lt_length_iff.mpr (c.mem_sealerList_of_mem_chosed hmem)
  have hsmall : (c.sealerList number).idxOf node < 65536 := lt_of_lt_of_le hlt h
  rw [Nat.mod_eq_of_lt hsmall, List.getElem?_eq_getElem hlt, List.getElem_idxOf]
  exact hmem

end

/-! ### The engine at a height -/

def RecordOk (c : Chain NodeID) (record : Option SystemConfigRecord) : Prop :=
  ∀ r, record = some r → ∀ number : Nat, r.curBlockNum = number + 1 →
    (r.value, r.enableNumber) = c.readNotifyRotate number (number + 1)

theorem RecordOk.fresh (c : Chain NodeID) (number : Nat) :
    RecordOk c (some ⟨(c.readNotifyRotate number (number + 1)).1, (c.readNotifyRotate number (number + 1)).2, number + 1⟩) := by
  intro r hr number' hcur
  cases hr
  obtain rfl : number = number' := by
    dsimp only at hcur
    omega
  rfl

theorem getNotifyRotate_spec {c : Chain NodeID} {record : Option SystemConfigRecord} (h : RecordOk c record) (number : Nat) :
    ∃ record', RecordOk c record' ∧
      c.getNotifyRotate number record = ((c.readNotifyRotate number (number + 1)).1, record') := by
  unfold Chain.getNotifyRotate
  dsimp only
  cases record with
  | none => exact ⟨_, RecordOk.fresh c number, rfl⟩
  | some r =>
    dsimp only
    split
    next hcur =>
      have hread := h r rfl number hcur
      exact ⟨some r, h, by rw [← hread]⟩
    next => exact ⟨_, RecordOk.fresh c number, rfl⟩

section
variable [LinearOrder NodeID] {c : Chain NodeID} {pub : NodeID} {number : Nat} {s : Engine NodeID}

/-- An engine before a call at a height: its map of indices is that of its sealers,
    or will be made. -/
structure Ready (c : Chain NodeID) (number : Nat) (s : Engine NodeID) : Prop where
  cache : CacheOk c.toChain s.systemConfigRecord
  record : RecordOk c s.notifyRotateRecord
  nodes : s.chosedConsensusNodes = s.chosedSealerList.toFinset
  counted : (s.sealersNum = s.sealerList.length ∧ s.nodeID2Index = indexFrom s.sealerList 0 fun _ => none)
    ∨ s.sealerListUpdated = true ∧ s.lastSealerListUpdateNumber = number

structure Listed (c : Chain NodeID) (number : Nat) (s : Engine NodeID) : Prop where
  cache : CacheOk c.toChain s.systemConfigRecord
  record : RecordOk c s.notifyRotateRecord
  sealerList : s.sealerList = c.sealerList number
  sealersNum : s.sealersNum = c.sealersNum number
  index : s.nodeID2Index = c.nodeID2Index number
  list : s.chosedSealerList = c.chosed number
  nodes : s.chosedConsensusNodes = (c.chosed number).toFinset
  working : s.workingSealersNum = (c.chosed number).length

theorem Listed.ready (h : Listed c number s) (number' : Nat) : Ready c number' s where
  cache := h.cache
  record := h.record
  nodes := by rw [h.nodes, h.list]
  counted := .inl ⟨by rw [h.sealersNum, h.sealerList]; rfl, by rw [h.index, h.sealerList]; rfl⟩

theorem workingSealers_eq (hlist : s.sealerList = c.sealerList number) :
    s.workingSealers c number = some (c.unsorted number) := by
  unfold Engine.workingSealers Chain.unsorted
  rw [hlist]
  cases c.workingSealerList number with
  | nil =>
    cases hsealers : c.sealerList number with
    | nil => exact absurd hsealers (c.sealerList_ne_nil number)
    | cons node rest => rfl
  | cons node rest => rfl

theorem updateChosed_spec (pub : NodeID) (hnodes : s.chosedConsensusNodes = s.chosedSealerList.toFinset) (workingSealers : List NodeID) :
    ∃ located, s.updateChosed pub workingSealers =
      { s with
        toEngine :=
          { s.toEngine with
            chosedSealerList := workingSealers, chosedConsensusNodes := workingSealers.toFinset
            locatedInConsensusNodes := located }
        workingSealersNum := workingSealers.length } := by
  unfold Engine.updateChosed
  dsimp only
  split
  next => exact ⟨_, rfl⟩
  next hsame =>
    refine ⟨s.locatedInConsensusNodes, ?_⟩
    rw [not_not.mp hsame, ← hnodes]

theorem updateConsensusNodeList_spec (pub : NodeID) (h : Ready c number s) :
    ∃ s', s.updateConsensusNodeList c pub number = some s' ∧ Listed c number s' ∧ s'.epochSize = s.epochSize := by
  obtain ⟨updated, last, hbase, hsame, hupdated⟩ :=
    RotatingPBFT.updateConsensusNodeList_spec c.toChain number s.toEngine
  have hcounted : updated = false →
      s.sealersNum = c.sealersNum number ∧ s.nodeID2Index = c.nodeID2Index number := by
    intro hfalse
    rcases h.counted with ⟨hnum, hindex⟩ | ⟨htrue, hlast⟩
    · rw [hnum, hindex, ← hsame hfalse]
      exact ⟨rfl, rfl⟩
    · rw [hupdated htrue (.inr hlast.symm)] at hfalse
      cases hfalse
  obtain ⟨s₁, hs₁⟩ : ∃ s₁, s₁ = { s with toEngine := s.toEngine.updateConsensusNodeList c.toChain number } := ⟨_, rfl⟩
  have hlist : s₁.sealerList = c.sealerList number := by rw [hs₁, hbase]
  have hnodes : s₁.chosedConsensusNodes = s₁.chosedSealerList.toFinset := by
    rw [hs₁, hbase]
    exact h.nodes
  obtain ⟨located, hchosed⟩ := updateChosed_spec pub hnodes (c.chosed number)
  refine ⟨(s₁.updateChosed pub (c.chosed number)).updateIndex, ?_, ?_⟩
  · unfold Engine.updateConsensusNodeList
    dsimp only
    rw [← hs₁, workingSealers_eq hlist]
    rfl
  · rw [hchosed, hs₁, hbase]
    unfold Engine.updateIndex
    cases updated with
    | true => exact ⟨⟨h.cache, h.record, rfl, rfl, rfl, rfl, rfl, rfl⟩, rfl⟩
    | false =>
      obtain ⟨hnum, hindex⟩ := hcounted rfl
      exact ⟨⟨h.cache, h.record, rfl, hnum, hindex, rfl, rfl, rfl⟩, rfl⟩

theorem baseResetConfig_spec (pub : NodeID) (h : Ready c number s) :
    ∃ s', s.baseResetConfig c pub number = some s' ∧ Listed c number s' ∧ s'.epochSize = s.epochSize := by
  obtain ⟨s', hupdate, hlisted, hepoch⟩ := updateConsensusNodeList_spec pub h
  have hpos : 0 < s'.sealerList.length := by
    rw [hlisted.sealerList]
    exact c.sealersNum_pos number
  unfold Engine.baseResetConfig
  rw [hupdate]
  simp only [Option.bind_eq_bind, Option.bind_some]
  rw [if_neg (Nat.not_lt.mpr hpos)]
  exact ⟨_, rfl, ⟨hlisted.cache, hlisted.record, hlisted.sealerList, hlisted.sealersNum, hlisted.index, hlisted.list,
    hlisted.nodes, hlisted.working⟩, hepoch⟩

theorem updateEpochSize_eq (number : Nat) (hcache : CacheOk c.toChain s.systemConfigRecord) (hsealers : s.sealersNum = c.sealersNum number) :
    ∃ cache, CacheOk c.toChain cache ∧ s.toEngine.updateEpochSize c.toChain number =
      some (decide (c.nextEpochSize number s.epochSize ≠ s.epochSize),
        { s.toEngine with systemConfigRecord := cache, epochSize := c.nextEpochSize number s.epochSize }) := by
  obtain ⟨cache, hcache', hread⟩ := RotatingPBFT.getSystemConfigInfoByKey_spec hcache number .rpbft_epoch_sealer_num
  refine ⟨cache, hcache', ?_⟩
  unfold RotatingPBFT.Engine.updateEpochSize Chain.nextEpochSize
  rw [hread]
  have hvalue : ((c.tables number).row .rpbft_epoch_sealer_num).value.1 = c.epochSealerNum number := rfl
  simp only [Option.bind_eq_bind, Option.bind_some, hvalue]
  by_cases hsame : c.epochSealerNum number = s.epochSize
  · rw [if_pos hsame, if_pos hsame]
    simp
  · rw [if_neg hsame, if_neg hsame]
    have hset : (if c.epochSealerNum number > s.sealersNum then s.sealersNum else c.epochSealerNum number)
        = min (c.epochSealerNum number) (c.sealersNum number) := by
      rw [hsealers]
      split
      · omega
      · omega
    simp only [RotatingPBFT.Engine.setEpochSealerNum, hset]
    congr 2
    exact decide_eq_decide.mpr ne_comm

/-- **The state of an engine after a call.** -/
structure Settled (c : Chain NodeID) (view : EpochView) (s : Engine NodeID) : Prop extends Listed c view.number s where
  epoch : s.epochSize = view.size
  f : s.f = toIDXTYPE ((((c.chosed view.number).length : Int) - 1).tdiv 3)
  flag : 1 ≤ view.number → (s.shouldRotateSealers = true ↔ c.Rotates view.number ∨ view.updated = true)

theorem min_nextEpochSize (c : Chain NodeID) (number : Nat) (size : Int) :
    min (c.nextEpochSize number size) (c.sealersNum number) = min (c.epochSealerNum number) (c.sealersNum number) := by
  unfold Chain.nextEpochSize
  split
  · next h => rw [h]
  · rw [min_assoc, min_self]

section setter

omit [LinearOrder NodeID]

@[simp] theorem toEngine_setShouldRotateSealers (s : Engine NodeID) (b : Bool) :
    (s.setShouldRotateSealers b).toEngine = s.toEngine := rfl

@[simp] theorem workingSealersNum_setShouldRotateSealers (s : Engine NodeID) (b : Bool) :
    (s.setShouldRotateSealers b).workingSealersNum = s.workingSealersNum := rfl

@[simp] theorem shouldRotateSealers_setShouldRotateSealers (s : Engine NodeID) (b : Bool) :
    (s.setShouldRotateSealers b).shouldRotateSealers = b := rfl

@[simp] theorem setShouldRotateSealers_twice (s : Engine NodeID) (b b' : Bool) :
    (s.setShouldRotateSealers b).setShouldRotateSealers b' = s.setShouldRotateSealers b' := rfl

theorem ite_setShouldRotateSealers (s : Engine NodeID) (p : Prop) [Decidable p] :
    (if p then s.setShouldRotateSealers true else s) = s.setShouldRotateSealers (decide p || s.shouldRotateSealers) := by
  by_cases h : p
  · rw [if_pos h, decide_eq_true h]
    rfl
  · rw [if_neg h, decide_eq_false h]
    rfl

end setter

theorem updateShouldRotate_spec (hlisted : Listed c number s) (hinterval : s.rotatingInterval = c.epochBlockNum number)
    (henable : s.rotatingIntervalEnableNumber = c.enableNumber number)
    (hmin : min s.epochSize s.sealersNum = min (c.epochSealerNum number) (c.sealersNum number))
    (hflag : s.shouldRotateSealers = false) (epochUpdated : Bool) :
    ∃ flag record, s.updateShouldRotate c number epochUpdated =
        some (Engine.setShouldRotateSealers { s with notifyRotateRecord := record } flag)
      ∧ RecordOk c record ∧ (flag = true ↔ c.Rotates number ∨ epochUpdated = true) := by
  obtain ⟨record, hrecord, hread⟩ := getNotifyRotate_spec hlisted.record number
  obtain ⟨reading, hreading⟩ : ∃ reading, reading = { s with notifyRotateRecord := record } := ⟨_, rfl⟩
  have hpos := c.one_le_epochBlockNum number
  have hrest : remainder (number - reading.rotatingIntervalEnableNumber) reading.rotatingInterval
      = some (((number : Int) - c.enableNumber number).tmod (c.epochBlockNum number)) := by
    rw [hreading, hinterval, henable]
    unfold remainder
    rw [if_neg (by omega)]
  have hfew : (reading.workingSealersNum < min reading.epochSize reading.sealersNum) =
      (((c.chosed number).length : Int) < min (c.epochSealerNum number) (c.sealersNum number)) := by
    rw [hreading, hmin, hlisted.working]
  have hnone : reading.shouldRotateSealers = false := by
    rw [hreading]
    exact hflag
  have hnotifies : toNotifyRotateFlag (c.readNotifyRotate number (number + 1)).1 = c.notifies number := rfl
  unfold Engine.updateShouldRotate
  rw [hread]
  dsimp only
  rw [← hreading, hnotifies]
  simp only [ite_setShouldRotateSealers, toEngine_setShouldRotateSealers, workingSealersNum_setShouldRotateSealers,
    shouldRotateSealers_setShouldRotateSealers, hrest, hfew, hnone, Option.bind_eq_bind, Option.bind_some]
  simp only [setShouldRotateSealers_twice]
  refine ⟨decide (epochUpdated = true ∨ c.Rotates number), record, ?_, hrecord, ?_⟩
  · rw [← hreading]
    cases epochUpdated with
    | true =>
      rw [if_pos rfl, decide_eq_true (Or.inl rfl)]
      rfl
    | false =>
      have hrotates : decide (false = true ∨ c.Rotates number) = (decide (((number : Int) - c.enableNumber number).tmod
          (c.epochBlockNum number) = 0) || (decide (((c.chosed number).length : Int)
          < min (c.epochSealerNum number) (c.sealersNum number)) || (decide (c.notifies number = true) || false))) := by
        rw [Bool.eq_iff_iff]
        simp only [Bool.or_eq_true, decide_eq_true_eq, Chain.Rotates, Bool.false_eq_true, or_false, false_or]
        constructor
        · rintro (h | h | h)
          · exact .inr (.inr h)
          · exact .inr (.inl h)
          · exact .inl h
        · rintro (h | h | h)
          · exact .inr (.inr h)
          · exact .inr (.inl h)
          · exact .inl h
      rw [if_neg (by simp), hrotates]
      rfl
  · rw [decide_eq_true_eq, or_comm]

/-- **A call reads the chain at its height**, and the size heard before. -/
theorem settled_resetConfig (pub : NodeID) (view : EpochView) (blocks : Nat) (hready : Ready c (view.number + blocks) s)
    (hepoch : s.epochSize = view.size) :
    ∃ s', s.resetConfig c pub (view.number + blocks) = some s' ∧ Settled c ((epochs c).step view blocks) s' := by
  obtain ⟨number, hnumber⟩ : ∃ number, number = view.number + blocks := ⟨_, rfl⟩
  have hstep : (epochs c).step view blocks = ⟨number, c.nextEpochSize number view.size,
      decide (c.nextEpochSize number view.size ≠ view.size)⟩ := by rw [hnumber]; rfl
  rw [hstep, ← hnumber]
  rw [← hnumber] at hready
  obtain ⟨s₁, hbase, hlisted, hepoch₁⟩ := baseResetConfig_spec pub hready
  obtain ⟨s₂, hs₂⟩ : ∃ s₂, s₂ =
      { s₁ with
        toEngine := { s₁.toEngine with f := toIDXTYPE ((s₁.workingSealersNum - 1).tdiv 3) }
        shouldRotateSealers := false } := ⟨_, rfl⟩
  obtain ⟨updated, cache, hcache, hinterval, -⟩ :=
    RotatingPBFT.updateRotatingInterval_spec (s := s₂.toEngine) (by rw [hs₂]; exact hlisted.cache) number
  obtain ⟨s₃, hs₃⟩ : ∃ s₃, s₃ =
      { s₂ with
        toEngine :=
          { s₂.toEngine with
            systemConfigRecord := cache, rotatingInterval := c.epochBlockNum number
            rotatingIntervalEnableNumber := c.enableNumber number } } := ⟨_, rfl⟩
  have hepoch₃ : s₃.epochSize = view.size := by
    rw [hs₃, hs₂]
    exact hepoch₁.trans hepoch
  obtain ⟨cache', hcache', hsize⟩ := updateEpochSize_eq (s := s₃) number (by rw [hs₃]; exact hcache)
    (by rw [hs₃, hs₂]; exact hlisted.sealersNum)
  rw [hepoch₃] at hsize
  obtain ⟨s₄, hs₄⟩ : ∃ s₄, s₄ =
      { s₃ with
        toEngine :=
          { s₃.toEngine with systemConfigRecord := cache', epochSize := c.nextEpochSize number view.size } } := ⟨_, rfl⟩
  have hlisted₄ : Listed c number s₄ := by
    rw [hs₄, hs₃, hs₂]
    exact ⟨hcache', hlisted.record, hlisted.sealerList, hlisted.sealersNum, hlisted.index, hlisted.list, hlisted.nodes,
      hlisted.working⟩
  have hreset : s.resetConfig c pub number = if number = 0 then some s₄ else
      s₄.updateShouldRotate c number (decide (c.nextEpochSize number view.size ≠ view.size)) := by
    rw [hs₂] at hinterval
    rw [hs₃, hs₂] at hsize
    rw [hs₄, hs₃, hs₂]
    dsimp only at hinterval hsize ⊢
    unfold Engine.resetConfig
    simp only [hbase, Engine.setShouldRotateSealers, hinterval, hsize, Option.bind_eq_bind, Option.bind_some]
    rfl
  have hf : s₄.f = toIDXTYPE ((((c.chosed number).length : Int) - 1).tdiv 3) := by
    rw [hs₄, hs₃, hs₂, ← hlisted.working]
  rcases Nat.eq_zero_or_pos number with hzero | hpos
  · rw [hreset, if_pos hzero]
    exact ⟨s₄, rfl, ⟨hlisted₄, by rw [hs₄], hf, fun h => absurd h (by dsimp only; omega)⟩⟩
  · obtain ⟨flag, record, hupdate, hrecord, hflag⟩ := updateShouldRotate_spec hlisted₄ (by rw [hs₄, hs₃]) (by rw [hs₄, hs₃])
      (by rw [hlisted₄.sealersNum, hs₄]; exact min_nextEpochSize c number view.size) (by rw [hs₄, hs₃, hs₂])
      (decide (c.nextEpochSize number view.size ≠ view.size))
    rw [hreset, if_neg (by omega), hupdate]
    refine ⟨_, rfl, ⟨⟨hlisted₄.cache, hrecord, hlisted₄.sealerList, hlisted₄.sealersNum, hlisted₄.index, hlisted₄.list,
      hlisted₄.nodes, hlisted₄.working⟩, ?_, hf, fun _ => hflag⟩⟩
    rw [hs₄]
    rfl

/-! ### A node follows the chain -/

def Follows (c : Chain NodeID) (node : Node NodeID) (view : EpochView) : Prop :=
  node.number = view.number ∧ ∃ s, node.engine = some s ∧ Settled c view s

theorem ready_init (c : Chain NodeID) (sealerList : List NodeID) (number : Nat) :
    Ready c number (.init sealerList number) where
  cache := nofun
  record := nofun
  nodes := rfl
  counted := .inr ⟨rfl, rfl⟩

theorem follows_start (c : Chain NodeID) (pub : NodeID) (sealerList : List NodeID) (height : Nat) :
    Follows c (.start c pub sealerList height) ((epochs c).step { number := height } 0) := by
  obtain ⟨s, hreset, hsettled⟩ :=
    settled_resetConfig pub { number := height } 0 (ready_init c sealerList height) rfl
  exact ⟨rfl, s, hreset, hsettled⟩

theorem follows_step {node : Node NodeID} {view : EpochView} (blocks : Nat) (h : Follows c node view) :
    Follows c ((machine c pub).step node blocks) ((epochs c).step view blocks) := by
  obtain ⟨hnumber, s, hs, hsettled⟩ := h
  obtain ⟨s', hreset, hsettled'⟩ :=
    settled_resetConfig pub view blocks (hsettled.toListed.ready (view.number + blocks)) hsettled.epoch
  refine ⟨congrArg (· + blocks) hnumber, s', ?_, hsettled'⟩
  show node.engine.bind _ = _
  rw [hs, hnumber]
  exact hreset

/-- **Whatever the calls, a node follows the chain** and its view. -/
theorem follows_run (c : Chain NodeID) (pub : NodeID) (sealerList : List NodeID) (height : Nat) (calls : List Nat) :
    Follows c ((machine c pub).run (.start c pub sealerList height) calls) (epochView c height calls) :=
  Machine.run_relates (fun _ _ blocks h => follows_step blocks h) (follows_start c pub sealerList height) calls

theorem run_number (c : Chain NodeID) (pub : NodeID) (node : Node NodeID) (calls : List Nat) :
    ((machine c pub).run node calls).number = node.number + calls.sum := by
  induction calls generalizing node with
  | nil => rfl
  | cons blocks calls ih =>
    rw [Machine.run_cons, ih, List.sum_cons]
    exact Nat.add_assoc ..

/-! ### Two nodes -/

theorem Settled.selectLeader_eq {view : EpochView} (h : Settled c view s) {v : Int} {node : NodeID}
    (hturn : c.turn view.number v = some node) :
    s.selectLeader view.number v = (c.sealerList view.number).idxOf node % 65536 := by
  have hmem : node ∈ c.sealerList view.number := c.mem_sealerList_of_mem_chosed (List.mem_of_getElem? hturn)
  unfold Chain.turn at hturn
  unfold Engine.selectLeader
  rw [h.list, hturn]
  dsimp only
  rw [h.index, Chain.nodeID2Index, indexFrom_of_mem hmem rfl (by omega), Option.getD_some, Nat.zero_add]

variable [Zero NodeID] {Address : Type} [DecidableEq Address]

/-- Two engines rotate alike at a height, accept the same blocks, and their leaders
    are working sealers. -/
structure Agree (toAddress : NodeID → Address) (manager : Address) (number : Nat) (s s' : Engine NodeID) : Prop where
  shouldRotate : s.shouldRotateSealers = s'.shouldRotateSealers
  list : s.chosedSealerList = s'.chosedSealerList
  f : s.f = s'.f
  leader : ∀ view, s.selectLeader number view = s'.selectLeader number view
  accepts : ∀ committedHeight block req,
    s.checkTransactionsValid toAddress manager committedHeight block req
      = s'.checkTransactionsValid toAddress manager committedHeight block req
  leads : ∀ view, s.getNodeIDByIndex (s.selectLeader number view) ∈ s.chosedSealerList

def Agreement (toAddress : NodeID → Address) (manager : Address) (a b : Node NodeID) : Prop :=
  ∃ s s', a.engine = some s ∧ b.engine = some s' ∧ Agree toAddress manager a.number s s'

def Alike (c : Chain NodeID) (number : Nat) (view view' : EpochView) : Prop :=
  (c.Rotates number ∨ view.updated = view'.updated) ∧ c.Indexed number

theorem Settled.leads_iff {view : EpochView} (h : Settled c view s) :
    (∀ v, s.getNodeIDByIndex (s.selectLeader view.number v) ∈ s.chosedSealerList) ↔ c.Indexed view.number := by
  have hnode : ∀ v node, c.turn view.number v = some node →
      s.getNodeIDByIndex (s.selectLeader view.number v)
        = (c.sealerList view.number)[(c.sealerList view.number).idxOf node % 65536]?.getD 0 := by
    intro v node hturn
    unfold RotatingPBFT.Engine.getNodeIDByIndex RotatingPBFT.Engine.sealerAt
    rw [h.selectLeader_eq hturn, if_neg (by omega), h.sealerList, Int.toNat_natCast]
  rw [h.list]
  constructor
  · intro hleads v node hturn
    rw [← hnode v node hturn]
    exact hleads v
  · intro hindexed v
    obtain ⟨node, hturn, -⟩ := c.exists_turn view.number v
    rw [hnode v node hturn]
    exact hindexed v node hturn

theorem Settled.agree_iff {view view' : EpochView} {s' : Engine NodeID} (toAddress : NodeID → Address) (manager : Address)
    (h : Settled c view s) (h' : Settled c view' s') (hnumber : view.number = view'.number) (hpos : 1 ≤ view.number) :
    Agree toAddress manager view.number s s' ↔ Alike c view.number view view' := by
  have hflag := h.flag hpos
  have hflag' := h'.flag (hnumber ▸ hpos)
  rw [← hnumber] at hflag'
  have hsame : s.shouldRotateSealers = s'.shouldRotateSealers ↔ c.Rotates view.number ∨ view.updated = view'.updated := by
    rw [Bool.eq_iff_iff, hflag, hflag']
    by_cases hrotates : c.Rotates view.number
    · exact iff_of_true (iff_of_true (.inl hrotates) (.inl hrotates)) (.inl hrotates)
    · simp only [hrotates, false_or]
      exact Bool.eq_iff_iff.symm
  constructor
  · intro hagree
    exact ⟨hsame.mp hagree.shouldRotate, h.leads_iff.mp hagree.leads⟩
  · rintro ⟨hrotate, hindexed⟩
    have hshould := hsame.mpr hrotate
    have hlist : s.chosedSealerList = s'.chosedSealerList := by rw [h.list, h'.list, hnumber]
    have hsealer : s.getSealerByIndex = s'.getSealerByIndex := by
      funext index
      unfold Engine.getSealerByIndex RotatingPBFT.Engine.getNodeIDByIndex RotatingPBFT.Engine.sealerAt
      rw [h.sealerList, h'.sealerList, h.nodes, h'.nodes, hnumber]
    refine ⟨hshould, hlist, by rw [h.f, h'.f, hnumber], ?_, ?_, h.leads_iff.mpr hindexed⟩
    · intro v
      unfold Engine.selectLeader
      rw [hlist, h.index, h'.index, hnumber]
    · intro committedHeight block req
      unfold Engine.checkTransactionsValid
      rw [hshould, hsealer]

/-- **Two nodes at a height agree exactly if the chain asks for a rotation there, or
    their last calls both changed the epoch size or both did not**, and indices
    tell the leaders apart. -/
theorem rotation_agreement (c : Chain NodeID) (pub pub' : NodeID) (toAddress : NodeID → Address) (manager : Address)
    (sealerList sealerList' : List NodeID) (height height' : Nat) (calls calls' : List Nat)
    (hnumber : ((machine c pub).run (.start c pub sealerList height) calls).number
      = ((machine c pub').run (.start c pub' sealerList' height') calls').number)
    (hpos : 1 ≤ ((machine c pub).run (.start c pub sealerList height) calls).number) :
    Agreement toAddress manager ((machine c pub).run (.start c pub sealerList height) calls)
        ((machine c pub').run (.start c pub' sealerList' height') calls')
      ↔ Alike c ((machine c pub).run (.start c pub sealerList height) calls).number (epochView c height calls)
          (epochView c height' calls') := by
  obtain ⟨hview, s, hs, hsettled⟩ := follows_run c pub sealerList height calls
  obtain ⟨hview', s', hs', hsettled'⟩ := follows_run c pub' sealerList' height' calls'
  rw [hview, hview'] at hnumber
  rw [hview] at hpos ⊢
  have hiff := hsettled.agree_iff toAddress manager hsettled' hnumber hpos
  constructor
  · rintro ⟨t, t', ht, ht', hagree⟩
    rw [hs] at ht
    rw [hs'] at ht'
    cases ht
    cases ht'
    rw [hview] at hagree
    exact hiff.mp hagree
  · intro halike
    refine ⟨s, s', hs, hs', ?_⟩
    rw [hview]
    exact hiff.mpr halike

end

theorem fourSealers_ne_nil : [3, 1, 4, 2] ≠ [] := by decide

theorem fourSealers_nodup : [3, 1, 4, 2].Nodup := by decide

def fourSealers : Chain Nat where
  genesisSealers := ⟨[3, 1, 4, 2], fourSealers_ne_nil, fourSealers_nodup⟩
  genesisConfig _ := ⟨4, by decide⟩
  block _ := ⟨none, fun _ => none⟩
  working _ _ := true
  notifyRotate _ := none

/-- One node follows the blocks, the other starts at the height and calls twice. -/
theorem rotation_agreement_small :
    Agreement (fun node => node) 0 ((machine fourSealers 1).run (.start fourSealers 1 [] 0) [1, 1, 1])
      ((machine fourSealers 2).run (.start fourSealers 2 [] 3) [0]) := by
  have hnumber : ((machine fourSealers 1).run (.start fourSealers 1 [] 0) [1, 1, 1]).number = 3 := run_number ..
  have hnumber' : ((machine fourSealers 2).run (.start fourSealers 2 [] 3) [0]).number = 3 := run_number ..
  refine (rotation_agreement fourSealers 1 2 (fun node => node) 0 [] [] 0 3 [1, 1, 1] [0] ?_ ?_).mpr ?_
  · rw [hnumber, hnumber']
  · rw [hnumber]
    decide
  · rw [hnumber]
    exact ⟨.inr (by decide +kernel), Chain.indexed_of_le (by decide +kernel)⟩

/-- A node that has started at the height wants a rotation, the others do not. -/
theorem restart_disagrees : ¬ ∀ (c : Chain Nat) (pub pub' : Nat) (toAddress : Nat → Nat) (manager : Nat)
    (sealerList sealerList' : List Nat) (height height' : Nat) (calls calls' : List Nat),
    ((machine c pub).run (.start c pub sealerList height) calls).number
      = ((machine c pub').run (.start c pub' sealerList' height') calls').number →
    1 ≤ ((machine c pub).run (.start c pub sealerList height) calls).number →
    Agreement toAddress manager ((machine c pub).run (.start c pub sealerList height) calls)
      ((machine c pub').run (.start c pub' sealerList' height') calls') := by
  intro h
  have hnumber : ((machine fourSealers 1).run (.start fourSealers 1 [] 0) [1, 1, 1]).number = 3 := run_number ..
  have hnumber' : ((machine fourSealers 2).run (.start fourSealers 2 [] 3) []).number = 3 := run_number ..
  obtain ⟨s, s', hs, hs', hagree⟩ := h fourSealers 1 2 (fun node => node) 0 [] [] 0 3 [1, 1, 1] []
    (hnumber.trans hnumber'.symm) (by rw [hnumber]; decide)
  have hflag : ((machine fourSealers 1).run (.start fourSealers 1 [] 0) [1, 1, 1]).engine.map Engine.shouldRotateSealers
      = some false := by decide +kernel
  have hflag' : ((machine fourSealers 2).run (.start fourSealers 2 [] 3) []).engine.map Engine.shouldRotateSealers
      = some true := by decide +kernel
  rw [hs] at hflag
  rw [hs'] at hflag'
  have heq := hagree.shouldRotate
  rw [Option.some.inj hflag, Option.some.inj hflag'] at heq
  cases heq

end HieraChain.VRFBasedrPBFT
