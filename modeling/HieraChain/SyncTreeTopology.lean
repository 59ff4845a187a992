/-
  HieraChain/SyncTreeTopology.lean
  ================================
  **To whom a node sends its block status** (`libsync/SyncTreeTopology.h`, `.cpp`).

  The node list is cut into slots, one for each sealer.  The nodes of a slot stand
  in a tree below the slot's sealer, which has the position 0: the node of index
  `start + p - 1` has the position `p`.  A sealer sends to the other sealers and to
  the first nodes below position 0 of its slot, an observer to the nodes above and
  below it.

  The position above the first nodes of a slot is 0, and the index of it that of
  the last node of the slot before.  For the first slot it is −1, where the code
  reads before the list (`outside`).
-/
import HieraChain.TreeTopology

namespace HieraChain.Tree

open HieraChain.LevelTree

variable {NodeID : Type} [DecidableEq NodeID]

/-! ### The source -/

structure SyncTreeTopology (NodeID : Type) extends TreeTopology NodeID where
  m_nodeList : List NodeID := []
  m_nodeIndex : Int := 0
  m_startIndex : Int := 0

namespace SyncTreeTopology

variable (t : SyncTreeTopology NodeID)

omit [DecidableEq NodeID] in
def locatedInGroup : Bool := t.m_consIndex ≠ -1 || t.m_nodeIndex ≠ -1

omit [DecidableEq NodeID] in
def updateStartAndEndIndex : SyncTreeTopology NodeID :=
  if t.m_currentConsensusNodes.length = 0 then t
  else if t.m_nodeList.length = 0 then t
  else if t.locatedInGroup = false then t
  else
    let nodeNum : Int := t.m_nodeNum
    let consensusNodeSize : Int := t.m_currentConsensusNodes.length
    let slotSize := (nodeNum + consensusNodeSize - 1).tdiv consensusNodeSize
    let startIndex :=
      if 0 ≤ t.m_consIndex then slotSize * t.m_consIndex else t.m_nodeIndex.tdiv slotSize * slotSize
    let startIndex := if nodeNum - 1 < startIndex then nodeNum - 1 else startIndex
    let endIndex := startIndex + slotSize - 1
    let endIndex := if nodeNum - 1 < endIndex then nodeNum - 1 else endIndex
    { t with
      m_startIndex := startIndex
      m_endIndex := endIndex - startIndex + 1 }

def updateAllNodeInfo (consensusNodes nodeList : List NodeID) : SyncTreeTopology NodeID :=
  if nodeList = t.m_nodeList ∧ consensusNodes = t.m_currentConsensusNodes then t
  else
    updateStartAndEndIndex
      { t with
        m_nodeNum := nodeList.length
        m_nodeList := nodeList
        m_currentConsensusNodes := consensusNodes
        m_consIndex := getNodeIndexByNodeId consensusNodes t.m_nodeId
        m_nodeIndex := getNodeIndexByNodeId nodeList t.m_nodeId }

omit [DecidableEq NodeID] in
def getNodeIDByIndex (outside : NodeID) (nodeIndex : Int) : Option NodeID :=
  if t.m_nodeNum ≤ nodeIndex then none
  else if nodeIndex < 0 then some outside
  else t.m_nodeList[nodeIndex.toNat]?

omit [DecidableEq NodeID] in
def getSelectedNodeIndex (selectedIndex offset : Int) : Int := (selectedIndex + offset).tmod t.m_nodeNum

/-- The loop of `TreeTopology::recursiveSelectChildNodes`, on this list. -/
def selectLoop (outside : NodeID) (peers : Finset NodeID) (startIndex : Int) (recurse : Nat → List NodeID)
    (parentIndex : Nat) : List Nat → List NodeID
  | [] => []
  | i :: is =>
    let expectedIndex := parentIndex * t.m_treeWidth + i + 1
    if t.m_endIndex < expectedIndex then []
    else
      match t.getNodeIDByIndex outside (t.getSelectedNodeIndex expectedIndex startIndex) with
      | none => selectLoop outside peers startIndex recurse parentIndex is
      | some selectedNode =>
        (if selectedNode ∈ peers then [selectedNode]
          else if expectedIndex < t.m_endIndex then recurse expectedIndex else [])
        ++ if (expectedIndex : Int) = t.m_endIndex then []
          else selectLoop outside peers startIndex recurse parentIndex is

def selectChildren (outside : NodeID) (peers : Finset NodeID) (startIndex : Int) : Nat → Nat → List NodeID
  | 0, _ => []
  | fuel + 1, parentIndex =>
    if t.locatedInGroup = false then []
    else
      t.selectLoop outside peers startIndex (selectChildren outside peers startIndex fuel) parentIndex
        (List.range t.m_treeWidth)

def recursiveSelectChildNodes (outside : NodeID) (parentIndex : Nat) (peers : Finset NodeID) (startIndex : Int) :
    List NodeID :=
  t.selectChildren outside peers startIndex (t.m_nodeNum + 1) parentIndex

/-- The loop of `TreeTopology::selectParentNodes`, up to the first peer. -/
def parentLoop (outside : NodeID) (peers : Finset NodeID) (startIndex : Int) : Nat → Int → List NodeID
  | 0, _ => []
  | fuel + 1, parentIndex =>
    if parentIndex < 0 then []
    else
      let above := if parentIndex ≤ 0 then []
        else parentLoop outside peers startIndex fuel ((parentIndex - 1).tdiv t.m_treeWidth)
      match t.getNodeIDByIndex outside (t.getSelectedNodeIndex parentIndex startIndex) with
      | none => above
      | some selectedNode => if selectedNode ∈ peers then [selectedNode] else above

def selectParentNodes (outside : NodeID) (peers : Finset NodeID) (nodeIndex startIndex : Int) : List NodeID :=
  if t.locatedInGroup = false then []
  else if 0 ≤ t.m_consIndex then t.m_currentConsensusNodes.filter (· ∈ peers)
  else
    let parentIndex := (nodeIndex - 1).tdiv t.m_treeWidth
    if parentIndex = nodeIndex then []
    else t.parentLoop outside peers startIndex (nodeIndex.toNat + 1) parentIndex

def selectNodesForBlockSync (outside : NodeID) (peers : Finset NodeID) : List NodeID :=
  if t.locatedInGroup = false then []
  else
    let offset := t.m_startIndex - 1
    let nodeIndex := t.m_nodeIndex + 1 - t.m_startIndex
    t.selectParentNodes outside peers nodeIndex offset
      ++ if 0 ≤ t.m_consIndex then t.recursiveSelectChildNodes outside 0 peers offset
        else t.recursiveSelectChildNodes outside nodeIndex.toNat peers offset

end SyncTreeTopology

def syncTopologyOf (sealers nodes : List NodeID) (width : Nat) (nodeId : NodeID) : SyncTreeTopology NodeID :=
  SyncTreeTopology.updateAllNodeInfo { m_treeWidth := width, m_nodeId := nodeId } sealers nodes

/-- The nodes that get the block status: the sealers have it, and every node that
    has it sends it to the nodes it selects from all others. -/
inductive Informed (sealers nodes : List NodeID) (width : Nat) (outside : NodeID → NodeID) : NodeID → Prop
  | seals {x : NodeID} (hx : x ∈ sealers) : Informed sealers nodes width outside x
  | told {x y : NodeID} (hx : Informed sealers nodes width outside x)
      (hy : y ∈ (syncTopologyOf sealers nodes width x).selectNodesForBlockSync (outside x) (nodes.toFinset.erase x)) :
      Informed sealers nodes width outside y

def Covered (sealers nodes : List NodeID) (width : Nat) : Prop :=
  ∀ outside, ∀ y ∈ nodes, Informed sealers nodes width outside y

/-! ### Slots -/

def slotSize (sealers nodes : List NodeID) : Nat := (nodes.length + sealers.length - 1) / sealers.length

def slotNode (nodes : List NodeID) (start p : Nat) : Option NodeID := nodes[start + p - 1]?

/-- What `updateAllNodeInfo` has noted. -/
structure Placed (t : SyncTreeTopology NodeID) (sealers nodes : List NodeID) (width start last : Nat) : Prop where
  list_eq : t.m_nodeList = nodes
  num_eq : t.m_nodeNum = nodes.length
  sealers_eq : t.m_currentConsensusNodes = sealers
  width_eq : t.m_treeWidth = width
  start_eq : t.m_startIndex = start
  end_eq : t.m_endIndex = last
  located : t.locatedInGroup = true

section slots

variable {sealers nodes : List NodeID} {width : Nat}

/-- The lists of the claim: no node twice, at least one sealer, every sealer a node. -/
structure Lists (sealers nodes : List NodeID) : Prop where
  nodup : nodes.Nodup
  sealers_nodup : sealers.Nodup
  sealers_ne_nil : sealers ≠ []
  subset : ∀ x ∈ sealers, x ∈ nodes

omit [DecidableEq NodeID] in
theorem Lists.length_pos (h : Lists sealers nodes) : 0 < sealers.length := List.length_pos_iff.mpr h.sealers_ne_nil

omit [DecidableEq NodeID] in
theorem Lists.length_le (h : Lists sealers nodes) : sealers.length ≤ nodes.length :=
  (h.sealers_nodup.subperm h.subset).length_le

omit [DecidableEq NodeID] in
theorem Lists.le_mul (h : Lists sealers nodes) : nodes.length ≤ sealers.length * slotSize sealers nodes := by
  have hpos := h.length_pos
  have hmod := Nat.div_add_mod (nodes.length + sealers.length - 1) sealers.length
  have hlt := Nat.mod_lt (nodes.length + sealers.length - 1) hpos
  rw [slotSize]
  omega

omit [DecidableEq NodeID] in
theorem Lists.slotSize_pos (h : Lists sealers nodes) : 0 < slotSize sealers nodes :=
  Nat.div_pos (by have := h.length_le; have := h.length_pos; omega) h.length_pos

omit [DecidableEq NodeID] in
theorem Lists.slot_lt (h : Lists sealers nodes) {k : Nat} (hk : k < nodes.length) :
    k / slotSize sealers nodes < sealers.length := by
  refine (Nat.div_lt_iff_lt_mul h.slotSize_pos).mpr (lt_of_lt_of_le hk h.le_mul)

theorem getNodeIndexByNodeId_spec (xs : List NodeID) (x : NodeID) :
    (x ∉ xs ∧ getNodeIndexByNodeId xs x = -1)
      ∨ ∃ k : Nat, xs[k]? = some x ∧ getNodeIndexByNodeId xs x = k := by
  rw [getNodeIndexByNodeId]
  cases hfind : xs.findIdx? (x = ·) with
  | none =>
    refine Or.inl ⟨fun hmem => ?_, rfl⟩
    have hnot := List.findIdx?_eq_none_iff.mp hfind x hmem
    rw [decide_eq_false_iff_not] at hnot
    exact hnot rfl
  | some k =>
    obtain ⟨hk, heq, -⟩ := List.findIdx?_eq_some_iff_getElem.mp hfind
    refine Or.inr ⟨k, ?_, rfl⟩
    rw [List.getElem?_eq_getElem hk, of_decide_eq_true heq]

theorem getNodeIndexByNodeId_eq {xs : List NodeID} (hnodup : xs.Nodup) {x : NodeID} {k : Nat}
    (h : xs[k]? = some x) : getNodeIndexByNodeId xs x = k := by
  rcases getNodeIndexByNodeId_spec xs x with ⟨hnot, -⟩ | ⟨k', hk', heq⟩
  · exact absurd (List.mem_of_getElem? h) hnot
  · obtain ⟨hlt, -⟩ := List.getElem?_eq_some_iff.mp h
    rw [heq, (List.getElem?_inj hlt hnodup).mp (h.trans hk'.symm)]

theorem Lists.placed (h : Lists sealers nodes) (width : Nat) {x : NodeID} (hx : x ∈ nodes) {raw : Nat}
    (hraw : (if 0 ≤ getNodeIndexByNodeId sealers x then
        (slotSize sealers nodes : Int) * getNodeIndexByNodeId sealers x
      else (getNodeIndexByNodeId nodes x).tdiv (slotSize sealers nodes) * slotSize sealers nodes) = raw) :
    Placed (syncTopologyOf sealers nodes width x) sealers nodes width (min raw (nodes.length - 1))
        (min (slotSize sealers nodes) (nodes.length - min raw (nodes.length - 1)))
      ∧ (syncTopologyOf sealers nodes width x).m_consIndex = getNodeIndexByNodeId sealers x
      ∧ (syncTopologyOf sealers nodes width x).m_nodeIndex = getNodeIndexByNodeId nodes x := by
  have hn : 0 < nodes.length := List.length_pos_of_mem hx
  have hs := h.length_pos
  have hd := h.slotSize_pos
  have hsize : ((nodes.length : Int) + sealers.length - 1).tdiv sealers.length = slotSize sealers nodes := by
    rw [slotSize, show (nodes.length : Int) + sealers.length - 1 = ((nodes.length + sealers.length - 1 : Nat) : Int) by
      omega]
    rfl
  have hfresh : ¬ (nodes = [] ∧ sealers = []) := fun hnil => h.sealers_ne_nil hnil.2
  have hlocated : (getNodeIndexByNodeId sealers x ≠ -1 || getNodeIndexByNodeId nodes x ≠ -1) = true := by
    rcases getNodeIndexByNodeId_spec nodes x with ⟨hnot, -⟩ | ⟨k, -, hk⟩
    · exact absurd hx hnot
    · rw [hk, Bool.or_eq_true, decide_eq_true_eq, decide_eq_true_eq]
      exact Or.inr (by omega)
  rw [syncTopologyOf, SyncTreeTopology.updateAllNodeInfo, if_neg hfresh, SyncTreeTopology.updateStartAndEndIndex,
    if_neg (by dsimp only; omega), if_neg (by dsimp only; omega)]
  rw [if_neg (by rw [SyncTreeTopology.locatedInGroup, hlocated]; decide)]
  dsimp only
  rw [hsize, hraw]
  have hstart : (if (nodes.length : Int) - 1 < raw then (nodes.length : Int) - 1 else raw)
      = (min raw (nodes.length - 1) : Nat) := by
    split <;> omega
  rw [hstart]
  refine ⟨⟨rfl, rfl, rfl, rfl, rfl, ?_, hlocated⟩, rfl, rfl⟩
  dsimp only
  split <;> omega

theorem Lists.sealer_placed (h : Lists sealers nodes) (width : Nat) {j : Nat} {x : NodeID}
    (hj : sealers[j]? = some x) :
    Placed (syncTopologyOf sealers nodes width x) sealers nodes width
        (min (slotSize sealers nodes * j) (nodes.length - 1))
        (min (slotSize sealers nodes) (nodes.length - min (slotSize sealers nodes * j) (nodes.length - 1)))
      ∧ 0 ≤ (syncTopologyOf sealers nodes width x).m_consIndex := by
  have hindex := getNodeIndexByNodeId_eq h.sealers_nodup hj
  have hraw : (if 0 ≤ getNodeIndexByNodeId sealers x then
        (slotSize sealers nodes : Int) * getNodeIndexByNodeId sealers x
      else (getNodeIndexByNodeId nodes x).tdiv (slotSize sealers nodes) * slotSize sealers nodes)
      = (slotSize sealers nodes * j : Nat) := by
    rw [hindex, if_pos (by omega)]
    push_cast
    rfl
  obtain ⟨hplaced, hcons, -⟩ := h.placed width (h.subset x (List.mem_of_getElem? hj)) hraw
  exact ⟨hplaced, by rw [hcons, hindex]; omega⟩

theorem Lists.observer_placed (h : Lists sealers nodes) (width : Nat) {k : Nat} {x : NodeID}
    (hk : nodes[k]? = some x) (hx : x ∉ sealers) :
    Placed (syncTopologyOf sealers nodes width x) sealers nodes width
        (k / slotSize sealers nodes * slotSize sealers nodes)
        (min (slotSize sealers nodes) (nodes.length - k / slotSize sealers nodes * slotSize sealers nodes))
      ∧ (syncTopologyOf sealers nodes width x).m_consIndex = -1
      ∧ (syncTopologyOf sealers nodes width x).m_nodeIndex = k := by
  obtain ⟨hlt, -⟩ := List.getElem?_eq_some_iff.mp hk
  have hindex := getNodeIndexByNodeId_eq h.nodup hk
  have hown : getNodeIndexByNodeId sealers x = -1 := by
    rcases getNodeIndexByNodeId_spec sealers x with ⟨-, heq⟩ | ⟨j, hj, -⟩
    · exact heq
    · exact absurd (List.mem_of_getElem? hj) hx
  have hraw : (if 0 ≤ getNodeIndexByNodeId sealers x then
        (slotSize sealers nodes : Int) * getNodeIndexByNodeId sealers x
      else (getNodeIndexByNodeId nodes x).tdiv (slotSize sealers nodes) * slotSize sealers nodes)
      = (k / slotSize sealers nodes * slotSize sealers nodes : Nat) := by
    rw [hown, if_neg (by decide), hindex]
    push_cast
    rfl
  obtain ⟨hplaced, hcons, hnode⟩ := h.placed width (List.mem_of_getElem? hk) hraw
  have hle : k / slotSize sealers nodes * slotSize sealers nodes ≤ nodes.length - 1 := by
    have := Nat.div_mul_le_self k (slotSize sealers nodes)
    omega
  rw [min_eq_left hle] at hplaced
  exact ⟨hplaced, hcons.trans hown, hnode.trans hindex⟩

/-! ### What a node selects -/

variable {t : SyncTreeTopology NodeID} {start last : Nat} {outside : NodeID} {peers : Finset NodeID}

omit [DecidableEq NodeID] in
theorem Placed.look (h : Placed t sealers nodes width start last) {p : Nat} (hp : 0 < start + p)
    (hle : start + p ≤ nodes.length) :
    t.getNodeIDByIndex outside (t.getSelectedNodeIndex p (t.m_startIndex - 1)) = slotNode nodes start p := by
  have hsum : (p : Int) + (t.m_startIndex - 1) = ((start + p - 1 : Nat) : Int) := by
    rw [h.start_eq]
    omega
  have hmod : ((start + p - 1 : Nat) : Int).tmod t.m_nodeNum = ((start + p - 1 : Nat) : Int) := by
    rw [h.num_eq]
    exact Int.tmod_eq_of_lt (by omega) (by omega)
  rw [SyncTreeTopology.getSelectedNodeIndex, hsum, hmod, SyncTreeTopology.getNodeIDByIndex, h.num_eq,
    if_neg (by omega), if_neg (by omega), Int.toNat_natCast, h.list_eq, slotNode]

def Hidden (nodes : List NodeID) (peers : Finset NodeID) (start p : Nat) : Prop :=
  ∀ x, slotNode nodes start p = some x → x ∉ peers

theorem Placed.mem_selectLoop (h : Placed t sealers nodes width start last) (hlast : start + last ≤ nodes.length)
    {recurse : Nat → List NodeID} {p : Nat} {is : List Nat} (hsorted : is.Pairwise (· < ·)) {y : NodeID} :
    y ∈ t.selectLoop outside peers (t.m_startIndex - 1) recurse p is
      ↔ ∃ i ∈ is, p * width + i + 1 ≤ last
        ∧ ((slotNode nodes start (p * width + i + 1) = some y ∧ y ∈ peers)
          ∨ (Hidden nodes peers start (p * width + i + 1) ∧ p * width + i + 1 < last
            ∧ y ∈ recurse (p * width + i + 1))) := by
  induction is with
  | nil =>
    refine iff_of_false List.not_mem_nil ?_
    rintro ⟨i, hi, -⟩
    cases hi
  | cons i is ih =>
    obtain ⟨hbefore, hsorted⟩ := List.pairwise_cons.mp hsorted
    rw [SyncTreeTopology.selectLoop, h.width_eq, h.end_eq]
    by_cases hover : last < p * width + i + 1
    · rw [if_pos (by omega)]
      refine iff_of_false List.not_mem_nil ?_
      rintro ⟨j, hj, hle, -⟩
      rcases List.mem_cons.mp hj with rfl | hj
      · omega
      · have := hbefore j hj
        omega
    · rw [if_neg (by omega), h.look (by omega) (by omega)]
      obtain ⟨x, hx⟩ : ∃ x, slotNode nodes start (p * width + i + 1) = some x :=
        ⟨_, List.getElem?_eq_getElem (by omega)⟩
      have hhidden : Hidden nodes peers start (p * width + i + 1) ↔ x ∉ peers :=
        ⟨fun hhid => hhid x hx, fun hnot z hz => Option.some.inj (hx.symm.trans hz) ▸ hnot⟩
      have hfront : y ∈ (if x ∈ peers then [x]
            else if ((p * width + i + 1 : Nat) : Int) < last then recurse (p * width + i + 1) else [])
          ↔ (slotNode nodes start (p * width + i + 1) = some y ∧ y ∈ peers)
            ∨ (Hidden nodes peers start (p * width + i + 1) ∧ p * width + i + 1 < last
              ∧ y ∈ recurse (p * width + i + 1)) := by
        rw [hhidden, hx, Option.some.injEq]
        by_cases hpeer : x ∈ peers
        · rw [if_pos hpeer, List.mem_singleton]
          constructor
          · rintro rfl
            exact Or.inl ⟨rfl, hpeer⟩
          · rintro (⟨rfl, -⟩ | ⟨hnot, -⟩)
            · rfl
            · exact absurd hpeer hnot
        · rw [if_neg hpeer]
          by_cases hbelow : p * width + i + 1 < last
          · rw [if_pos (by omega)]
            constructor
            · exact fun hy => Or.inr ⟨hpeer, hbelow, hy⟩
            · rintro (⟨rfl, hy⟩ | ⟨-, -, hy⟩)
              · exact absurd hy hpeer
              · exact hy
          · rw [if_neg (by omega)]
            refine iff_of_false List.not_mem_nil ?_
            rintro (⟨rfl, hy⟩ | ⟨-, hlt, -⟩)
            · exact hpeer hy
            · exact hbelow hlt
      have hrest : y ∈ (if ((p * width + i + 1 : Nat) : Int) = last then []
            else t.selectLoop outside peers (t.m_startIndex - 1) recurse p is)
          ↔ ∃ j ∈ is, p * width + j + 1 ≤ last
            ∧ ((slotNode nodes start (p * width + j + 1) = some y ∧ y ∈ peers)
              ∨ (Hidden nodes peers start (p * width + j + 1) ∧ p * width + j + 1 < last
                ∧ y ∈ recurse (p * width + j + 1))) := by
        split
        next hend =>
          refine iff_of_false List.not_mem_nil ?_
          rintro ⟨j, hj, hle, -⟩
          have := hbefore j hj
          omega
        next => exact ih hsorted
      rw [hx]
      dsimp only
      rw [List.mem_append, hfront, hrest, List.exists_mem_cons_iff]
      constructor
      · rintro (hy | hy)
        · exact Or.inl ⟨by omega, hy⟩
        · exact Or.inr hy
      · rintro (⟨-, hy⟩ | hy)
        · exact Or.inl hy
        · exact Or.inr hy

/-- **The selected children**: the peers below with hidden nodes between. -/
theorem Placed.mem_children (h : Placed t sealers nodes width start last) (hw : 0 < width)
    (hlast : start + last ≤ nodes.length) {p : Nat} {y : NodeID} :
    y ∈ t.recursiveSelectChildNodes outside p peers (t.m_startIndex - 1)
      ↔ ∃ e ≤ last, Path width (Hidden nodes peers start) p e ∧ slotNode nodes start e = some y ∧ y ∈ peers := by
  rw [SyncTreeTopology.recursiveSelectChildNodes, h.num_eq]
  have hfuel : last < p + (nodes.length + 1) := by omega
  generalize nodes.length + 1 = fuel at hfuel
  induction fuel generalizing p with
  | zero =>
    refine iff_of_false List.not_mem_nil ?_
    rintro ⟨e, hle, hpath, -⟩
    have := hpath.lt
    omega
  | succ fuel ih =>
    rw [SyncTreeTopology.selectChildren, if_neg (by rw [h.located]; decide), h.width_eq,
      h.mem_selectLoop hlast List.pairwise_lt_range]
    constructor
    · rintro ⟨i, hi, hle, hy⟩
      obtain ⟨hpos, hparent⟩ := (parent_eq_iff hw).mpr ⟨i, List.mem_range.mp hi, rfl⟩
      rcases hy with ⟨hnode, hpeer⟩ | ⟨hhidden, hlt, hy⟩
      · exact ⟨_, hle, .child hpos hparent, hnode, hpeer⟩
      · have hpe := parent_lt (w := width) hpos
        obtain ⟨e, he, hpath, hnode⟩ := (ih (by omega)).mp hy
        exact ⟨e, he, path_iff_child.mpr ⟨_, hpos, hparent, Or.inr ⟨hhidden, hpath⟩⟩, hnode⟩
    · rintro ⟨e, hle, hpath, hnode, hpeer⟩
      obtain ⟨q, hpos, hparent, hq⟩ := path_iff_child.mp hpath
      obtain ⟨i, hi, rfl⟩ := (parent_eq_iff hw).mp ⟨hpos, hparent⟩
      have hpe := parent_lt (w := width) hpos
      refine ⟨i, List.mem_range.mpr hi, ?_⟩
      rcases hq with rfl | ⟨hhidden, hbelow⟩
      · exact ⟨hle, Or.inl ⟨hnode, hpeer⟩⟩
      · have hlt := hbelow.lt
        exact ⟨by omega, Or.inr ⟨hhidden, by omega, (ih (by omega)).mpr ⟨e, hle, hbelow, hnode, hpeer⟩⟩⟩

theorem hidden_iff {x : NodeID} {p : Nat} (hp : start + p - 1 < nodes.length) :
    Hidden nodes (nodes.toFinset.erase x) start p ↔ slotNode nodes start p = some x := by
  have hget : slotNode nodes start p = some nodes[start + p - 1] := List.getElem?_eq_getElem hp
  constructor
  · intro hhidden
    have hnot := hhidden _ hget
    rw [Finset.mem_erase, not_and] at hnot
    by_contra hne
    exact hnot (fun heq => hne (by rw [hget, heq])) (List.mem_toFinset.mpr (List.getElem_mem hp))
  · intro heq y hy hmem
    rw [heq] at hy
    cases hy
    exact (Finset.mem_erase.mp hmem).1 rfl

theorem mem_others {x y : NodeID} {p : Nat} (hy : slotNode nodes start p = some y) :
    y ∈ nodes.toFinset.erase x ↔ y ≠ x := by
  rw [Finset.mem_erase, List.mem_toFinset]
  exact and_iff_left (List.mem_of_getElem? hy)

/-- **A sealer** sends to the other sealers and to the first others below the root of
    its slot. -/
theorem Lists.sealer_tells (h : Lists sealers nodes) (hw : 0 < width) {j : Nat} {x y : NodeID}
    (hj : sealers[j]? = some x) (hstart : start = min (slotSize sealers nodes * j) (nodes.length - 1))
    (hlast : last = min (slotSize sealers nodes) (nodes.length - start)) :
    y ∈ (syncTopologyOf sealers nodes width x).selectNodesForBlockSync (outside) (nodes.toFinset.erase x)
      ↔ (y ∈ sealers ∧ y ≠ x)
        ∨ ∃ e ≤ last, Path width (slotNode nodes start · = some x) 0 e ∧ slotNode nodes start e = some y ∧ y ≠ x := by
  subst hstart hlast
  obtain ⟨hplaced, hcons⟩ := h.sealer_placed width hj
  have hpos : 0 < nodes.length := lt_of_lt_of_le h.length_pos h.length_le
  rw [SyncTreeTopology.selectNodesForBlockSync, if_neg (by rw [hplaced.located]; decide)]
  dsimp only
  rw [if_pos hcons, SyncTreeTopology.selectParentNodes, if_neg (by rw [hplaced.located]; decide), if_pos hcons,
    hplaced.sealers_eq, List.mem_append, hplaced.mem_children hw (by omega), List.mem_filter]
  apply or_congr
  · rw [decide_eq_true_eq, Finset.mem_erase, List.mem_toFinset]
    constructor
    · exact fun ⟨hy, hne, _⟩ => ⟨hy, hne⟩
    · exact fun ⟨hy, hne⟩ => ⟨hy, hne, h.subset y hy⟩
  · apply exists_congr
    intro e
    apply and_congr_right
    intro he
    have hpaths : Path width (Hidden nodes (nodes.toFinset.erase x) (min (slotSize sealers nodes * j) (nodes.length - 1)))
          0 e
        ↔ Path width (slotNode nodes (min (slotSize sealers nodes * j) (nodes.length - 1)) · = some x) 0 e := by
      constructor
      · exact fun hpath => hpath.congr fun q _ hq hhidden => (hidden_iff (by omega)).mp hhidden
      · exact fun hpath => hpath.congr fun q _ hq hself => (hidden_iff (by omega)).mpr hself
    rw [hpaths]
    apply and_congr_right
    intro _
    apply and_congr_right
    intro hy
    exact mem_others hy

structure Holds (sealers nodes : List NodeID) (j p : Nat) (x : NodeID) : Prop where
  pos : 0 < p
  le : p ≤ slotSize sealers nodes
  node : slotNode nodes (j * slotSize sealers nodes) p = some x

omit [DecidableEq NodeID] in
theorem Holds.lt {j p : Nat} {x : NodeID} (h : Holds sealers nodes j p x) :
    j * slotSize sealers nodes + p ≤ nodes.length := by
  obtain ⟨hlt, -⟩ := List.getElem?_eq_some_iff.mp h.node
  have := h.pos
  omega

omit [DecidableEq NodeID] in
theorem slot_unique {d j i p q : Nat} (hp : 0 < p) (hpd : p ≤ d) (hq : 0 < q) (hqd : q ≤ d)
    (h : j * d + p - 1 = i * d + q - 1) : j = i ∧ p = q := by
  have hdiv : ∀ a b : Nat, 0 < b → b ≤ d → (a * d + b - 1) / d = a := by
    intro a b hb hbd
    rw [Nat.div_eq_iff (by omega)]
    constructor <;> omega
  have hji : j = i := (hdiv j p hp hpd).symm.trans (h ▸ hdiv i q hq hqd)
  subst hji
  exact ⟨rfl, by omega⟩

omit [DecidableEq NodeID] in
theorem Lists.holds_unique (h : Lists sealers nodes) {j i p q : Nat} {x : NodeID} (hx : Holds sealers nodes j p x)
    (hx' : Holds sealers nodes i q x) : j = i ∧ p = q := by
  obtain ⟨hlt, -⟩ := List.getElem?_eq_some_iff.mp hx.node
  exact slot_unique hx.pos hx.le hx'.pos hx'.le ((List.getElem?_inj hlt h.nodup).mp (hx.node.trans hx'.node.symm))

omit [DecidableEq NodeID] in
theorem Lists.exists_holds (h : Lists sealers nodes) {x : NodeID} (hx : x ∈ nodes) :
    ∃ j p, Holds sealers nodes j p x := by
  obtain ⟨k, hk⟩ := List.getElem?_of_mem hx
  have hd := h.slotSize_pos
  refine ⟨k / slotSize sealers nodes, k % slotSize sealers nodes + 1, Nat.succ_pos _, Nat.mod_lt _ hd, ?_⟩
  rw [slotNode, ← Nat.add_assoc, Nat.add_sub_cancel, Nat.div_add_mod']
  exact hk

theorem Placed.mem_selectParentNodes (h : Placed t sealers nodes width start last) (hcons : t.m_consIndex = -1)
    (hnodup : nodes.Nodup) (hmany : 1 < nodes.length) {p : Nat} (hp : 0 < p) {x y : NodeID}
    (hx : slotNode nodes start p = some x) (hpeers : peers = nodes.toFinset.erase x) :
    y ∈ t.selectParentNodes outside peers p (t.m_startIndex - 1)
      ↔ (0 < start + parent width p ∧ slotNode nodes start (parent width p) = some y)
        ∨ (start = 0 ∧ parent width p = 0 ∧ y = outside ∧ y ∈ peers) := by
  obtain ⟨hlt, -⟩ := List.getElem?_eq_some_iff.mp hx
  have habove := parent_lt (w := width) hp
  rw [SyncTreeTopology.selectParentNodes, if_neg (by rw [h.located]; decide), if_neg (by omega)]
  dsimp only
  rw [h.width_eq, tdiv_eq_parent hp, if_neg (by omega), SyncTreeTopology.parentLoop, if_neg (by omega)]
  by_cases hfirst : 0 < start + parent width p
  · have hother : ∀ z, slotNode nodes start (parent width p) = some z → z ∈ peers := by
      intro z hz
      rw [hpeers, mem_others hz]
      rintro rfl
      have hsame := (List.getElem?_inj hlt hnodup).mp (hx.trans hz.symm)
      omega
    obtain ⟨z, hz⟩ : ∃ z, slotNode nodes start (parent width p) = some z :=
      ⟨_, List.getElem?_eq_getElem (by omega)⟩
    dsimp only
    rw [h.look hfirst (by omega), hz]
    dsimp only
    rw [if_pos (hother z hz), List.mem_singleton, Option.some.injEq]
    constructor
    · rintro rfl
      exact Or.inl ⟨hfirst, rfl⟩
    · rintro (⟨-, rfl⟩ | ⟨hzero, hroot, -⟩)
      · rfl
      · omega
  · obtain ⟨hzero, hroot⟩ : start = 0 ∧ parent width p = 0 := by omega
    have hbefore : t.getSelectedNodeIndex 0 (t.m_startIndex - 1) = -1 := by
      have htmod : (1 : Int).tmod t.m_nodeNum = 1 := by
        rw [h.num_eq]
        exact Int.tmod_eq_of_lt (by decide) (by omega)
      rw [SyncTreeTopology.getSelectedNodeIndex, h.start_eq, hzero]
      show (-1 : Int).tmod _ = -1
      rw [Int.neg_tmod, htmod]
    rw [hroot]
    dsimp only
    rw [Int.natCast_zero, hbefore, if_pos (le_refl 0), SyncTreeTopology.getNodeIDByIndex, h.num_eq, if_neg (by omega),
      if_pos (by decide)]
    dsimp only
    by_cases hpeer : outside ∈ peers
    · rw [if_pos hpeer, List.mem_singleton]
      constructor
      · rintro rfl
        exact Or.inr ⟨hzero, rfl, rfl, hpeer⟩
      · rintro (⟨hpos, -⟩ | ⟨-, -, rfl, -⟩)
        · omega
        · rfl
    · rw [if_neg hpeer]
      refine iff_of_false List.not_mem_nil ?_
      rintro (⟨hpos, -⟩ | ⟨-, -, rfl, hy⟩)
      · omega
      · exact hpeer hy

/-- **An observer** sends to the node above it and to those just below it. -/
theorem Lists.observer_tells (h : Lists sealers nodes) (hw : 0 < width) {j p : Nat} {x y : NodeID}
    (hx : Holds sealers nodes j p x) (hobserver : x ∉ sealers) :
    y ∈ (syncTopologyOf sealers nodes width x).selectNodesForBlockSync outside (nodes.toFinset.erase x)
      ↔ ((0 < j * slotSize sealers nodes + parent width p
            ∧ slotNode nodes (j * slotSize sealers nodes) (parent width p) = some y)
          ∨ (j * slotSize sealers nodes = 0 ∧ parent width p = 0 ∧ y = outside ∧ y ∈ nodes.toFinset.erase x))
        ∨ ∃ e, parent width e = p ∧ Holds sealers nodes j e y := by
  have hd := h.slotSize_pos
  have hlt := hx.lt
  have hpos := hx.pos
  have hmem : x ∈ nodes := List.mem_of_getElem? hx.node
  have hslot : (j * slotSize sealers nodes + p - 1) / slotSize sealers nodes = j := by
    rw [Nat.div_eq_iff hd]
    have := hx.le
    constructor <;> omega
  have hmany : 1 < nodes.length := by
    obtain ⟨s, hs⟩ := List.exists_mem_of_ne_nil _ h.sealers_ne_nil
    have hne : s ≠ x := fun heq => hobserver (heq ▸ hs)
    by_contra hone
    obtain ⟨z, hz⟩ := List.length_eq_one_iff.mp (show nodes.length = 1 by omega)
    have hsz := h.subset s hs
    rw [hz, List.mem_singleton] at hsz hmem
    exact hne (hsz.trans hmem.symm)
  obtain ⟨hplaced, hcons, hnode⟩ := h.observer_placed width hx.node hobserver
  rw [hslot] at hplaced
  have hindex : (syncTopologyOf sealers nodes width x).m_nodeIndex + 1
      - (syncTopologyOf sealers nodes width x).m_startIndex = p := by
    rw [hnode, hplaced.start_eq]
    omega
  rw [SyncTreeTopology.selectNodesForBlockSync, if_neg (by rw [hplaced.located]; decide)]
  dsimp only
  rw [hindex, if_neg (by omega), Int.toNat_natCast, List.mem_append,
    hplaced.mem_selectParentNodes hcons h.nodup hmany hpos hx.node rfl, hplaced.mem_children hw (by omega)]
  apply or_congr_right
  constructor
  · rintro ⟨e, he, hpath, hy, hpeer⟩
    obtain ⟨q, hq, hparent, rfl | ⟨hhidden, hpath⟩⟩ := path_iff_child.mp hpath
    · exact ⟨q, hparent, hq, by omega, hy⟩
    · -- the nodes below are others, so none of them is passed
      have hqe := hpath.lt
      have hself := (hidden_iff (by omega)).mp hhidden
      have hsame := (h.holds_unique ⟨hq, by omega, hself⟩ hx).2
      have := parent_lt (w := width) hq
      omega
  · rintro ⟨e, hparent, he⟩
    have hend := he.lt
    have hle := he.le
    refine ⟨e, by omega, .child he.pos hparent, he.node, (mem_others he.node).mpr ?_⟩
    rintro rfl
    have hsame := (h.holds_unique he hx).2
    have := parent_lt (w := width) he.pos
    omega

/-! ### Who gets the status -/

def Observes (sealers nodes : List NodeID) (j p : Nat) : Prop := ∃ x, Holds sealers nodes j p x ∧ x ∉ sealers

def Piece (sealers nodes : List NodeID) (width j p q : Nat) : Prop :=
  q = p ∨ Path width (Observes sealers nodes j) p q

def lastOf (sealers nodes : List NodeID) (j : Nat) : Nat :=
  min (slotSize sealers nodes) (nodes.length - j * slotSize sealers nodes)

/-- The last node of a slot hears from behind it: from an observer at the head of the
    next slot, or, where the list ends, from the sealer whose slot would be next. -/
def HearsFromBehind (sealers nodes : List NodeID) (width j : Nat) : Prop :=
  (∃ p, Observes sealers nodes (j + 1) p ∧ parent width p = 0)
    ∨ (nodes.length ≤ (j + 1) * slotSize sealers nodes ∧ j + 1 < sealers.length)

/-- Where a sealer stands just above an observer, it is the slot's own and at the
    head, or the observers below that observer go down to the slot's last node, which
    hears from behind. -/
def Reaches (sealers nodes : List NodeID) (width : Nat) : Prop :=
  ∀ j p x, Observes sealers nodes j p → Holds sealers nodes j (parent width p) x → x ∈ sealers →
    (sealers[j]? = some x ∧ parent width (parent width p) = 0)
      ∨ (HearsFromBehind sealers nodes width j ∧ Observes sealers nodes j (lastOf sealers nodes j)
        ∧ Piece sealers nodes width j p (lastOf sealers nodes j))

variable {outsides : NodeID → NodeID} {j p : Nat} {x : NodeID}

omit [DecidableEq NodeID] in
theorem Lists.sealer_of_slot (h : Lists sealers nodes) (hx : Holds sealers nodes j p x) :
    ∃ z, sealers[j]? = some z := by
  have hd := h.slotSize_pos
  have hlt := hx.lt
  have hpos := hx.pos
  have hslot := h.slot_lt (show j * slotSize sealers nodes < nodes.length by omega)
  rw [Nat.mul_div_cancel _ hd] at hslot
  exact ⟨_, List.getElem?_eq_getElem hslot⟩

theorem Lists.informed_of_path (h : Lists sealers nodes) (hw : 0 < width) (hx : Holds sealers nodes j p x)
    (hobserver : x ∉ sealers)
    (hpath : Path width (slotNode nodes (j * slotSize sealers nodes) · = sealers[j]?) 0 p) :
    Informed sealers nodes width outsides x := by
  obtain ⟨z, hz⟩ := h.sealer_of_slot hx
  have hzs := List.mem_of_getElem? hz
  have hlt := hx.lt
  have hpos := hx.pos
  have hle := hx.le
  have hstart : min (slotSize sealers nodes * j) (nodes.length - 1) = j * slotSize sealers nodes := by
    rw [Nat.mul_comm]
    omega
  refine .told (.seals hzs) ((h.sealer_tells hw hz hstart.symm rfl).mpr (Or.inr ⟨p, by omega, ?_, hx.node, ?_⟩))
  · rwa [hz] at hpath
  · rintro rfl
    exact hobserver hzs

theorem Lists.informed_of_head (h : Lists sealers nodes) (hw : 0 < width) (hx : Holds sealers nodes j p x)
    (hobserver : x ∉ sealers) (hhead : parent width p = 0) : Informed sealers nodes width outsides x :=
  h.informed_of_path hw hx hobserver (.child hx.pos hhead)

theorem Lists.informed_of_behind (h : Lists sealers nodes) (hw : 0 < width)
    (hx : Holds sealers nodes j (lastOf sealers nodes j) x) (hobserver : x ∉ sealers)
    (hbehind : HearsFromBehind sealers nodes width j) : Informed sealers nodes width outsides x := by
  have hlt := hx.lt
  have hpos := hx.pos
  have hnode := hx.node
  rw [slotNode] at hnode
  rcases hbehind with ⟨q, ⟨y, hy, hyo⟩, hhead⟩ | ⟨hend, hmore⟩
  · -- the observer at the head of the next slot sends to the node before the slot
    have hylt := hy.lt
    have hypos := hy.pos
    rw [Nat.succ_mul] at hylt
    have hlast : lastOf sealers nodes j = slotSize sealers nodes := by
      rw [lastOf]
      omega
    rw [hlast] at hnode
    refine .told (h.informed_of_head hw hy hyo hhead) ((h.observer_tells hw hy hyo).mpr (Or.inl (Or.inl ?_)))
    rw [hhead, slotNode, Nat.succ_mul]
    exact ⟨by omega, hnode⟩
  · have hz : sealers[j + 1]? = some sealers[j + 1] := List.getElem?_eq_getElem hmore
    have hzs := List.mem_of_getElem? hz
    rw [Nat.succ_mul] at hend
    have hlast : j * slotSize sealers nodes + lastOf sealers nodes j = nodes.length := by
      rw [lastOf]
      omega
    have hstart : min (slotSize sealers nodes * (j + 1)) (nodes.length - 1) = nodes.length - 1 := by
      rw [Nat.mul_comm, Nat.succ_mul]
      omega
    have hd := h.slotSize_pos
    refine .told (.seals hzs) ((h.sealer_tells hw hz hstart.symm rfl).mpr
      (Or.inr ⟨1, by omega, .child Nat.one_pos ?_, ?_, ?_⟩))
    · rw [parent, Nat.sub_self, Nat.zero_div]
    · rw [slotNode, Nat.add_sub_cancel, ← hlast]
      exact hnode
    · rintro rfl
      exact hobserver hzs

theorem Lists.informed_above (h : Lists sealers nodes) (hw : 0 < width) {e : Nat} {y : NodeID}
    (hy : Holds sealers nodes j e y) (hyo : y ∉ sealers) (hinformed : Informed sealers nodes width outsides y)
    (hx : Holds sealers nodes j (parent width e) x) : Informed sealers nodes width outsides x := by
  have hpos := hx.pos
  exact .told hinformed ((h.observer_tells hw hy hyo).mpr (Or.inl (Or.inl ⟨by omega, hx.node⟩)))

theorem Lists.informed_up (h : Lists sealers nodes) (hw : 0 < width) {e : Nat}
    (hpath : Path width (Observes sealers nodes j) p e) {y : NodeID} (hy : Holds sealers nodes j e y)
    (hyo : y ∉ sealers) (hinformed : Informed sealers nodes width outsides y)
    (hx : Holds sealers nodes j p x) : Informed sealers nodes width outsides x := by
  induction hpath generalizing y with
  | child _ hparent =>
    subst hparent
    exact h.informed_above hw hy hyo hinformed hx
  | through _ hobserves _ ih =>
    obtain ⟨z, hz, hzo⟩ := hobserves
    exact ih hz hzo (h.informed_above hw hy hyo hinformed hz)

/-- **Where the condition holds, the observers get the status**: from above, or from
    the slot's last node. -/
theorem Lists.informed_of_reaches (h : Lists sealers nodes) (hw : 0 < width)
    (hreaches : Reaches sealers nodes width) (hx : Holds sealers nodes j p x) (hobserver : x ∉ sealers) :
    Informed sealers nodes width outsides x := by
  induction p using Nat.strong_induction_on generalizing x with
  | _ p ih =>
    have hlt := hx.lt
    have hpos := hx.pos
    have hle := hx.le
    have habove := parent_lt (w := width) hpos
    rcases Nat.eq_zero_or_pos (parent width p) with hhead | hbelow
    · exact h.informed_of_head hw hx hobserver hhead
    · obtain ⟨z, hz⟩ : ∃ z, slotNode nodes (j * slotSize sealers nodes) (parent width p) = some z :=
        ⟨_, List.getElem?_eq_getElem (by omega)⟩
      have hholds : Holds sealers nodes j (parent width p) z := ⟨hbelow, by omega, hz⟩
      by_cases hzs : z ∈ sealers
      · rcases hreaches j p z ⟨x, hx, hobserver⟩ hholds hzs with ⟨hown, hhead⟩ | ⟨hbehind, ⟨y, hy, hyo⟩, hpath⟩
        · refine h.informed_of_path hw hx hobserver (.through hpos ?_ (.child hbelow hhead))
          rw [hz, hown]
        · have hinformed : Informed sealers nodes width outsides y := h.informed_of_behind hw hy hyo hbehind
          rcases hpath with hlast | hpath
          · rw [hlast] at hy
            have hsame := hx.node.symm.trans hy.node
            cases hsame
            exact hinformed
          · exact h.informed_up hw hpath hy hyo hinformed hx
      · exact .told (ih _ habove hholds hzs) ((h.observer_tells hw hholds hzs).mpr (Or.inr ⟨p, rfl, hx⟩))

theorem Lists.mem_of_informed (h : Lists sealers nodes) (hw : 0 < width)
    (hinformed : Informed sealers nodes width outsides x) : x ∈ nodes := by
  induction hinformed with
  | seals hx => exact h.subset _ hx
  | @told x y _ htold ih =>
    by_cases hxs : x ∈ sealers
    · obtain ⟨i, hi⟩ := List.getElem?_of_mem hxs
      rcases (h.sealer_tells hw hi rfl rfl).mp htold with ⟨hys, -⟩ | ⟨e, -, -, hnode, -⟩
      · exact h.subset y hys
      · exact List.mem_of_getElem? hnode
    · obtain ⟨i, a, hxa⟩ := h.exists_holds ih
      rcases (h.observer_tells hw hxa hxs).mp htold with (⟨-, hnode⟩ | ⟨-, -, -, hmem⟩) | ⟨e, -, he⟩
      · exact List.mem_of_getElem? hnode
      · exact List.mem_toFinset.mp (Finset.mem_of_mem_erase hmem)
      · exact List.mem_of_getElem? he.node

omit [DecidableEq NodeID] in
theorem Piece.above {q : Nat} (h : Piece sealers nodes width j p q) (hp : Observes sealers nodes j p) :
    q = p ∨ (Observes sealers nodes j (parent width q) ∧ Piece sealers nodes width j p (parent width q)) := by
  rcases h with rfl | hpath
  · exact Or.inl rfl
  · cases hpath with
    | child _ hparent =>
      subst hparent
      exact Or.inr ⟨hp, Or.inl rfl⟩
    | through _ hobserves hpath => exact Or.inr ⟨hobserves, Or.inr hpath⟩

omit [DecidableEq NodeID] in
theorem Observes.not_sealer (h : Observes sealers nodes j p)
    (hx : slotNode nodes (j * slotSize sealers nodes) p = some x) : x ∉ sealers := by
  obtain ⟨y, hy, hyo⟩ := h
  have hsame := hx.symm.trans hy.node
  cases hsame
  exact hyo

section piece

variable {above first : NodeID} (h : Lists sealers nodes) (hw : 0 < width) (hp : Observes sealers nodes j p)
  (habove : Holds sealers nodes j (parent width p) above) (hsealer : above ∈ sealers)
  (hown : ¬ (sealers[j]? = some above ∧ parent width (parent width p) = 0))
  (hbehind : HearsFromBehind sealers nodes width j →
    ¬ (Observes sealers nodes j (lastOf sealers nodes j) ∧ Piece sealers nodes width j p (lastOf sealers nodes j)))
include h hp habove

omit [DecidableEq NodeID] in
include hown in
theorem Lists.no_path_into_piece {q : Nat} (hq : Piece sealers nodes width j p q) {z : NodeID}
    (hz : sealers[j]? = some z) : ¬ Path width (slotNode nodes (j * slotSize sealers nodes) · = some z) 0 q := by
  intro hpath
  have hzs := List.mem_of_getElem? hz
  rcases hq.above hp with rfl | ⟨hobserves, -⟩
  · cases hpath with
    | child _ hhead =>
      have := habove.pos
      omega
    | through _ hnode hpath =>
      have hsame := hnode.symm.trans habove.node
      cases hsame
      cases hpath with
      | child _ hhead => exact hown ⟨hz, hhead⟩
      | through hpos hnode' hpath' =>
        -- the sealer stands at one position only
        have hle := habove.le
        have hlt := parent_lt (w := width) hpos
        have hself : Holds sealers nodes j (parent width (parent width q)) above := ⟨hpath'.pos, by omega, hnode'⟩
        have := (h.holds_unique hself habove).2
        omega
  · cases hpath with
    | child _ hhead =>
      obtain ⟨y, hy, -⟩ := hobserves
      have := hy.pos
      omega
    | through _ hnode _ => exact hobserves.not_sealer hnode hzs

include hw hsealer hown hbehind in
/-- **Where the condition fails, the piece never gets the status.** -/
theorem Lists.not_informed_piece (hfirst : first ∈ sealers) {y : NodeID}
    (hinformed : Informed sealers nodes width (fun _ => first) y) {q : Nat} (hy : Holds sealers nodes j q y)
    (hq : Piece sealers nodes width j p q) : y ∈ sealers := by
  have hd := h.slotSize_pos
  -- nothing comes in behind the last node
  have hnotLast : ∀ {q y}, Holds sealers nodes j q y → Piece sealers nodes width j p q →
      q = lastOf sealers nodes j → HearsFromBehind sealers nodes width j → y ∈ sealers := by
    rintro q y hy hq rfl hhears
    by_contra hyo
    exact hbehind hhears ⟨⟨y, hy, hyo⟩, hq⟩
  induction hinformed generalizing q with
  | seals hx => exact hx
  | @told x y hx htold ih =>
    have hylt := hy.lt
    have hypos := hy.pos
    have hyle := hy.le
    by_cases hxs : x ∈ sealers
    · obtain ⟨i, hi⟩ := List.getElem?_of_mem hxs
      rcases (h.sealer_tells hw hi rfl rfl).mp htold with ⟨hys, -⟩ | ⟨e, he, hpath, hnode, -⟩
      · exact hys
      · have hepos := hpath.pos
        by_cases hclamped : nodes.length ≤ i * slotSize sealers nodes
        · -- the sealer's slot would start behind the list
          have hstart : min (slotSize sealers nodes * i) (nodes.length - 1) = nodes.length - 1 := by
            rw [Nat.mul_comm]
            omega
          rw [hstart] at hnode he
          rw [slotNode] at hnode
          have hsame := (List.getElem?_inj (by omega) h.nodup).mp (hnode.trans hy.node.symm)
          have hji : j + 1 ≤ i := by
            by_contra hle
            have := Nat.mul_le_mul_right (slotSize sealers nodes) (show i ≤ j by omega)
            omega
          obtain ⟨hilt, -⟩ := List.getElem?_eq_some_iff.mp hi
          refine hnotLast hy hq ?_ (Or.inr ⟨?_, by omega⟩)
          · rw [lastOf]
            omega
          · rw [Nat.succ_mul]
            omega
        · have hstart : min (slotSize sealers nodes * i) (nodes.length - 1) = i * slotSize sealers nodes := by
            rw [Nat.mul_comm]
            omega
          rw [hstart] at hnode he hpath
          obtain ⟨rfl, rfl⟩ := h.holds_unique ⟨hepos, by omega, hnode⟩ hy
          exact absurd hpath (h.no_path_into_piece hp habove hown hq hi)
    · obtain ⟨i, a, hxa⟩ := h.exists_holds (h.mem_of_informed hw hx)
      rcases (h.observer_tells hw hxa hxs).mp htold with (⟨hpos, hnode⟩ | ⟨-, -, hout, -⟩) | ⟨e, hparent, he⟩
      · have ha := parent_lt (w := width) hxa.pos
        have hale := hxa.le
        rcases Nat.eq_zero_or_pos (parent width a) with hhead | hbelow
        · -- the head of the next slot
          obtain ⟨i, rfl⟩ : ∃ i', i = i' + 1 := by
            cases i with
            | zero => omega
            | succ i => exact ⟨i, rfl⟩
          rw [hhead, slotNode, Nat.succ_mul, Nat.add_zero] at hnode
          have hxlt := hxa.lt
          have hxpos := hxa.pos
          rw [Nat.succ_mul] at hxlt
          have hsame := (List.getElem?_inj (by omega) h.nodup).mp (hnode.trans hy.node.symm)
          obtain ⟨rfl, rfl⟩ := slot_unique hd le_rfl hypos hyle hsame
          refine hnotLast hy hq ?_ (Or.inl ⟨a, ⟨x, hxa, hxs⟩, hhead⟩)
          rw [lastOf]
          omega
        · obtain ⟨rfl, rfl⟩ := h.holds_unique ⟨hbelow, by omega, hnode⟩ hy
          by_contra hyo
          refine hxs (ih hxa ?_)
          rcases hq with heq | hpath
          · exact Or.inr (.child hxa.pos heq)
          · exact Or.inr (.through hxa.pos ⟨y, hy, hyo⟩ hpath)
      · exact hout ▸ hfirst
      · obtain ⟨rfl, rfl⟩ := h.holds_unique he hy
        subst hparent
        rcases hq.above hp with rfl | ⟨-, hpiece⟩
        · have hsame := hxa.node.symm.trans habove.node
          cases hsame
          exact absurd hsealer hxs
        · exact absurd (ih hxa hpiece) hxs

end piece

/-- **Every node gets the status exactly where no observer is cut off** by a sealer
    above it. -/
theorem covered_iff (h : Lists sealers nodes) (hw : 0 < width) :
    Covered sealers nodes width ↔ Reaches sealers nodes width := by
  constructor
  · intro hcovered j p above hp habove hsealer
    obtain ⟨first, hfirst⟩ := List.exists_mem_of_ne_nil _ h.sealers_ne_nil
    by_contra hnot
    rw [not_or] at hnot
    obtain ⟨hown, hbehind⟩ := hnot
    obtain ⟨y, hy, hyo⟩ := hp
    refine hyo (h.not_informed_piece hw ⟨y, hy, hyo⟩ habove hsealer hown ?_ hfirst
      (hcovered (fun _ => first) y (List.mem_of_getElem? hy.node)) hy (Or.inl rfl))
    rintro hhears ⟨hlast, hpiece⟩
    exact hbehind ⟨hhears, hlast, hpiece⟩
  · intro hreaches outsides y hy
    by_cases hys : y ∈ sealers
    · exact .seals hys
    · obtain ⟨j, p, hholds⟩ := h.exists_holds hy
      exact h.informed_of_reaches hw hreaches hholds hys

end slots

/-- Two slots of two nodes, in trees of width three. -/
theorem covered_pairs : Covered [1, 3] [1, 2, 3, 4] 3 := by
  have hlists : Lists [1, 3] [1, 2, 3, 4] := ⟨by decide, by decide, by decide, by decide⟩
  refine (covered_iff hlists (by decide)).mpr ?_
  -- every node stands at the head of its slot
  intro j p x ⟨_, hp, _⟩ habove _
  have hle : p ≤ 2 := hp.le
  have hpos := habove.pos
  have hhead : parent 3 p = 0 := Nat.div_eq_of_lt (by omega)
  omega

/-- **The node 5 of the slot 3, 4, 5 is cut off** by 4, the slot's own sealer: 4 sends
    to the head of the slot, which is the sealer 3. -/
theorem not_covered_six : Lists [3, 4] [0, 1, 2, 3, 4, 5] ∧ ¬ Covered [3, 4] [0, 1, 2, 3, 4, 5] 1 := by
  have hlists : Lists [3, 4] [0, 1, 2, 3, 4, 5] := ⟨by decide, by decide, by decide, by decide⟩
  have hnode : Holds [3, 4] [0, 1, 2, 3, 4, 5] 1 3 5 := ⟨by decide, by decide, rfl⟩
  have habove : Holds [3, 4] [0, 1, 2, 3, 4, 5] 1 (parent 1 3) 4 := ⟨by decide, by decide, rfl⟩
  refine ⟨hlists, fun hcovered => ?_⟩
  have hinformed := hcovered (fun _ => 3) 5 (by decide)
  have hsealer := hlists.not_informed_piece (by decide) ⟨5, hnode, by decide⟩ habove (by decide) (by decide) ?_
    (by decide) hinformed hnode (Or.inl rfl)
  · exact absurd hsealer (by decide)
  · -- no slot follows
    rintro (⟨p, ⟨x, hx, -⟩, -⟩ | ⟨-, hmore⟩)
    · have hlt : (1 + 1) * 3 + p ≤ 6 := hx.lt
      have := hx.pos
      omega
    · exact absurd hmore (by decide)

end HieraChain.Tree
