/-
  HieraChain/TreeTopology.lean
  ============================
  **To whom a node forwards** (`libdevcore/TreeTopology.h`, `.cpp`).

  The consensus nodes stand in a tree, rotated so that the node of a given index
  is the root.  A node selects the nearest peers below its position
  (`Knows.mem_children`), and as its parent the nearest peer above it
  (`Knows.selectParentNodes_eq`).

  A starter outside the list selects the root, or where that is not a peer the
  nearest peers below a position.  It gives the root's index for the position,
  which is 0.

  Indices that callers pass are not negative.
-/
import Mathlib.Data.Finset.Basic
import Mathlib.Data.Nat.ModEq
import HieraChain.LevelTree

namespace HieraChain.Tree

open HieraChain.LevelTree

variable {NodeID : Type} [DecidableEq NodeID]

/-! ### The source -/

structure TreeTopology (NodeID : Type) where
  m_currentConsensusNodes : List NodeID := []
  m_nodeNum : Nat := 0
  m_treeWidth : Nat := 3
  m_nodeId : NodeID
  m_consIndex : Int := 0
  m_endIndex : Int := 0

def getNodeIndexByNodeId (findSet : List NodeID) (nodeId : NodeID) : Int :=
  match findSet.findIdx? (nodeId = ·) with
  | none => -1
  | some nodeIndex => nodeIndex

namespace TreeTopology

variable (t : TreeTopology NodeID)

def updateConsensusNodeInfo (consensusNodes : List NodeID) : TreeTopology NodeID :=
  if t.m_currentConsensusNodes = consensusNodes then t
  else
    { t with
      m_currentConsensusNodes := consensusNodes
      m_consIndex := getNodeIndexByNodeId consensusNodes t.m_nodeId
      m_endIndex := (consensusNodes.length : Int) - 1
      m_nodeNum := consensusNodes.length }

omit [DecidableEq NodeID] in
def getNodeIDByIndex (nodeIndex : Nat) : Option NodeID := t.m_currentConsensusNodes[nodeIndex]?

def getSelectedNodeIndex (selectedIndex offset : Nat) : Nat := (selectedIndex + offset) % t.m_nodeNum

/-- The loop of `recursiveSelectChildNodes` over the children that are left. -/
def selectLoop (peers : Finset NodeID) (startIndex : Nat) (recurse : Nat → List NodeID) (parentIndex : Nat) :
    List Nat → List NodeID
  | [] => []
  | i :: is =>
    let expectedIndex := parentIndex * t.m_treeWidth + i + 1
    if t.m_endIndex < expectedIndex then []
    else
      match t.getNodeIDByIndex (t.getSelectedNodeIndex expectedIndex startIndex) with
      | none => selectLoop peers startIndex recurse parentIndex is
      | some selectedNode =>
        (if selectedNode ∈ peers then [selectedNode]
          else if expectedIndex < t.m_endIndex then recurse expectedIndex else [])
        ++ if (expectedIndex : Int) = t.m_endIndex then [] else selectLoop peers startIndex recurse parentIndex is

def selectChildren (peers : Finset NodeID) (startIndex : Nat) : Nat → Nat → List NodeID
  | 0, _ => []
  | fuel + 1, parentIndex =>
    t.selectLoop peers startIndex (selectChildren peers startIndex fuel) parentIndex (List.range t.m_treeWidth)

def recursiveSelectChildNodes (parentIndex : Nat) (peers : Finset NodeID) (startIndex : Nat) : List NodeID :=
  t.selectChildren peers startIndex t.m_nodeNum parentIndex

/-- The loop of `selectParentNodes`. -/
def parentLoop (peers : Finset NodeID) (startIndex : Nat) (selectAll : Bool) : Nat → Int → List NodeID
  | 0, _ => []
  | fuel + 1, parentIndex =>
    if parentIndex < 0 then []
    else
      let above := if parentIndex ≤ 0 then []
        else parentLoop peers startIndex selectAll fuel ((parentIndex - 1).tdiv t.m_treeWidth)
      match t.getNodeIDByIndex (t.getSelectedNodeIndex parentIndex.toNat startIndex) with
      | none => above
      | some selectedNode =>
        if selectedNode ∈ peers then selectedNode :: (if selectAll then above else []) else above

def selectParentNodes (peers : Finset NodeID) (nodeIndex startIndex : Nat) (selectAll : Bool) : List NodeID :=
  let parentIndex := ((nodeIndex : Int) - 1).tdiv t.m_treeWidth
  if parentIndex = nodeIndex then [] else t.parentLoop peers startIndex selectAll (nodeIndex + 1) parentIndex

def getNodeIndex (consIndex : Nat) : Nat :=
  let own := t.m_consIndex.toNat
  if consIndex ≤ own then own - consIndex
  else (own + t.m_nodeNum - consIndex % t.m_nodeNum) % t.m_nodeNum

def selectNodes (peers : Finset NodeID) (consIndex : Nat) (isTheStartNode : Bool) : List NodeID :=
  if t.m_consIndex < 0 then
    if isTheStartNode = false then []
    else
      match t.getNodeIDByIndex consIndex with
      | none => t.recursiveSelectChildNodes consIndex peers consIndex
      | some selectedNode =>
        if selectedNode ∈ peers then [selectedNode]
        else t.recursiveSelectChildNodes consIndex peers consIndex
  else t.recursiveSelectChildNodes (t.getNodeIndex consIndex) peers consIndex

def selectParent (peers : Finset NodeID) (consIndex : Nat) (selectAll : Bool) : List NodeID :=
  if t.m_consIndex < 0 then []
  else t.selectParentNodes peers (t.getNodeIndex consIndex) consIndex selectAll

end TreeTopology

def topologyOf (nodes : List NodeID) (width : Nat) (nodeId : NodeID) : TreeTopology NodeID :=
  ({ m_treeWidth := width, m_nodeId := nodeId } : TreeTopology NodeID).updateConsensusNodeInfo nodes

/-! ### Positions -/

variable {nodes : List NodeID} {width c : Nat} {x y : NodeID}

/-- The node at a position of the tree that is rooted at index `c`. -/
def nodeAt (nodes : List NodeID) (hn : 0 < nodes.length) (c r : Nat) : NodeID :=
  nodes.get ⟨(r + c) % nodes.length, Nat.mod_lt _ hn⟩

/-- The position of the node of index `k`. -/
def position (nodes : List NodeID) (c k : Nat) : Nat := (k + (nodes.length - c)) % nodes.length

section positions

variable (hn : 0 < nodes.length)

omit [DecidableEq NodeID] in
theorem nodeAt_mem (r : Nat) : nodeAt nodes hn c r ∈ nodes := List.get_mem _ _

omit [DecidableEq NodeID] in
theorem nodeAt_inj (hnodup : nodes.Nodup) {r r' : Nat} (hr : r < nodes.length) (hr' : r' < nodes.length)
    (h : nodeAt nodes hn c r = nodeAt nodes hn c r') : r = r' := by
  have hindex := congrArg Fin.val (hnodup.get_inj_iff.mp h)
  have hsame : r ≡ r' [MOD nodes.length] := Nat.ModEq.add_right_cancel' c hindex
  exact Nat.ModEq.eq_of_lt_of_lt hsame hr hr'

omit [DecidableEq NodeID] in
theorem nodeAt_position (hc : c < nodes.length) {k : Nat} (hk : k < nodes.length) :
    nodeAt nodes hn c (position nodes c k) = nodes.get ⟨k, hk⟩ := by
  have hindex : (position nodes c k + c) % nodes.length = k := by
    rw [position, Nat.mod_add_mod, Nat.add_assoc, Nat.sub_add_cancel hc.le, Nat.add_mod_right, Nat.mod_eq_of_lt hk]
  rw [nodeAt]
  congr 1
  exact Fin.ext hindex

include hn in
omit [DecidableEq NodeID] in
theorem position_lt (k : Nat) : position nodes c k < nodes.length := Nat.mod_lt _ hn

omit [DecidableEq NodeID] in
theorem exists_position (hc : c < nodes.length) (hx : x ∈ nodes) : ∃ r < nodes.length, nodeAt nodes hn c r = x := by
  obtain ⟨k, hk, rfl⟩ := List.getElem_of_mem hx
  exact ⟨position nodes c k, position_lt hn k, nodeAt_position hn hc hk⟩

end positions

/-! ### Selected children -/

/-- What `updateConsensusNodeInfo` has noted. -/
structure Knows (t : TreeTopology NodeID) (nodes : List NodeID) (width : Nat) : Prop where
  nodes_eq : t.m_currentConsensusNodes = nodes
  num_eq : t.m_nodeNum = nodes.length
  width_eq : t.m_treeWidth = width
  end_eq : t.m_endIndex = (nodes.length : Int) - 1

theorem topologyOf_eq (hn : 0 < nodes.length) (width : Nat) (x : NodeID) :
    Knows (topologyOf nodes width x) nodes width
      ∧ (topologyOf nodes width x).m_consIndex = getNodeIndexByNodeId nodes x := by
  have hne : ([] : List NodeID) ≠ nodes := by
    rintro rfl
    exact absurd hn (lt_irrefl 0)
  rw [topologyOf, TreeTopology.updateConsensusNodeInfo, if_neg hne]
  exact ⟨⟨rfl, rfl, rfl, rfl⟩, rfl⟩

variable {t : TreeTopology NodeID} {peers : Finset NodeID}

omit [DecidableEq NodeID] in
theorem Knows.getNodeID (h : Knows t nodes width) (hn : 0 < nodes.length) (c r : Nat) :
    t.getNodeIDByIndex (t.getSelectedNodeIndex r c) = some (nodeAt nodes hn c r) := by
  rw [TreeTopology.getNodeIDByIndex, TreeTopology.getSelectedNodeIndex, h.nodes_eq, h.num_eq,
    List.getElem?_eq_getElem (Nat.mod_lt _ hn)]
  rfl

def skips (nodes : List NodeID) (hn : 0 < nodes.length) (c : Nat) (peers : Finset NodeID) (r : Nat) : Bool :=
  decide (nodeAt nodes hn c r ∉ peers)

theorem Knows.selectLoop_eq (h : Knows t nodes width) (hn : 0 < nodes.length) {recurse : Nat → List NodeID}
    {next : Nat → List Nat} {parentIndex : Nat} (hrecurse : ∀ e, recurse e = (next e).map (nodeAt nodes hn c))
    (hlast : next (nodes.length - 1) = []) (is : List Nat) (hsorted : is.Pairwise (· < ·)) :
    t.selectLoop peers c recurse parentIndex is
      = (((is.map fun i => parentIndex * width + i + 1).filter (· ≤ nodes.length - 1)).flatMap fun e =>
          if skips nodes hn c peers e then next e else [e]).map (nodeAt nodes hn c) := by
  induction is with
  | nil => rfl
  | cons i is ih =>
    obtain ⟨hbefore, hsorted⟩ := List.pairwise_cons.mp hsorted
    have hbeyond : nodes.length - 1 ≤ parentIndex * width + i + 1 →
        (is.map fun i => parentIndex * width + i + 1).filter (· ≤ nodes.length - 1) = [] := by
      intro hge
      rw [List.filter_eq_nil_iff]
      intro e he
      obtain ⟨j, hj, rfl⟩ := List.mem_map.mp he
      have := hbefore j hj
      simp only [decide_eq_true_eq]
      omega
    rw [TreeTopology.selectLoop, h.width_eq, h.end_eq, List.map_cons]
    by_cases hover : nodes.length - 1 < parentIndex * width + i + 1
    · rw [if_pos (by omega), List.filter_cons_of_neg (by simpa using hover), hbeyond hover.le]
      rfl
    · rw [if_neg (by omega), h.getNodeID hn, List.filter_cons_of_pos (by rw [decide_eq_true_eq]; exact not_lt.mp hover),
        List.flatMap_cons, List.map_append]
      dsimp only
      congr 1
      · by_cases hpeer : nodeAt nodes hn c (parentIndex * width + i + 1) ∈ peers
        · have hkept : ¬ skips nodes hn c peers (parentIndex * width + i + 1) = true := by simpa [skips] using hpeer
          rw [if_pos hpeer, if_neg hkept]
          rfl
        · have hskipped : skips nodes hn c peers (parentIndex * width + i + 1) = true := by simpa [skips] using hpeer
          rw [if_neg hpeer, if_pos hskipped, hrecurse]
          split
          next => rfl
          next hend =>
            have hequal : parentIndex * width + i + 1 = nodes.length - 1 := by omega
            rw [hequal, hlast]
            rfl
      · split
        next hend =>
          rw [hbeyond (by omega)]
          rfl
        next => exact ih hsorted

theorem Knows.selectChildren_eq (h : Knows t nodes width) (hn : 0 < nodes.length) (hw : 0 < width) (fuel p : Nat) :
    t.selectChildren peers c fuel p
      = (frontier width (skips nodes hn c peers) (nodes.length - 1) fuel p).map (nodeAt nodes hn c) := by
  induction fuel generalizing p with
  | zero => rfl
  | succ fuel ih =>
    rw [TreeTopology.selectChildren, h.width_eq, LevelTree.frontier, LevelTree.children]
    exact h.selectLoop_eq hn ih (frontier_of_le hw (le_refl _) fuel) _ List.pairwise_lt_range

/-- **The selected children**: the nodes of the nearest peers below. -/
theorem Knows.mem_children (h : Knows t nodes width) (hn : 0 < nodes.length) (hw : 0 < width) {p : Nat} :
    y ∈ t.recursiveSelectChildNodes p peers c
      ↔ ∃ r < nodes.length, nodeAt nodes hn c r = y ∧ y ∈ peers
        ∧ Path width (fun e => nodeAt nodes hn c e ∉ peers) p r := by
  have hskips : (fun e => skips nodes hn c peers e = true) = fun e => nodeAt nodes hn c e ∉ peers := by
    funext e
    rw [skips, decide_eq_true_eq]
  rw [TreeTopology.recursiveSelectChildNodes, h.num_eq, h.selectChildren_eq hn hw, List.mem_map]
  constructor
  · rintro ⟨r, hr, rfl⟩
    obtain ⟨hlast, hkept, hpath⟩ := (mem_frontier hw (by omega)).mp hr
    rw [hskips] at hpath
    rw [skips, decide_eq_false_iff_not, not_not] at hkept
    exact ⟨r, by omega, rfl, hkept, hpath⟩
  · rintro ⟨r, hr, rfl, hpeer, hpath⟩
    refine ⟨r, (mem_frontier hw (by omega)).mpr ⟨by omega, ?_, ?_⟩, rfl⟩
    · rw [skips, decide_eq_false_iff_not, not_not]
      exact hpeer
    · rw [hskips]
      exact hpath

theorem Knows.nodup_children (h : Knows t nodes width) (hn : 0 < nodes.length) (hw : 0 < width)
    (hnodup : nodes.Nodup) (p : Nat) : (t.recursiveSelectChildNodes p peers c).Nodup := by
  rw [TreeTopology.recursiveSelectChildNodes, h.num_eq, h.selectChildren_eq hn hw]
  apply List.Nodup.map_on _ (nodup_frontier hw (by omega))
  intro r hr r' hr' heq
  have hlast := ((mem_frontier hw (by omega)).mp hr).1
  have hlast' := ((mem_frontier hw (by omega)).mp hr').1
  exact nodeAt_inj hn hnodup (by omega) (by omega) heq

/-! ### The selected parent -/

theorem tdiv_eq_parent {r : Nat} (hr : 0 < r) (w : Nat) : ((r : Int) - 1).tdiv w = (parent w r : Nat) := by
  rw [parent, show (r : Int) - 1 = ((r - 1 : Nat) : Int) by omega]
  rfl

theorem Knows.parentLoop_eq (h : Knows t nodes width) (hn : 0 < nodes.length) {q r : Nat}
    (hpeer : nodeAt nodes hn c q ∈ peers)
    (hpath : Path width (fun e => nodeAt nodes hn c e ∉ peers) q r) (fuel : Nat) (hfuel : parent width r < fuel) :
    t.parentLoop peers c false fuel (parent width r : Nat) = [nodeAt nodes hn c q] := by
  induction hpath generalizing fuel with
  | @child r hpos hparent =>
    cases fuel with
    | zero => omega
    | succ fuel =>
      rw [TreeTopology.parentLoop, if_neg (by omega), Int.toNat_natCast, h.getNodeID hn, hparent]
      simp only [if_pos hpeer, Bool.false_eq_true, if_false]
  | @through r hpos hskips hpath ih =>
    cases fuel with
    | zero => omega
    | succ fuel =>
      have hup : 0 < parent width r := hpath.pos
      have hlt := parent_lt (w := width) hup
      rw [TreeTopology.parentLoop, if_neg (by omega), Int.toNat_natCast, h.getNodeID hn]
      simp only [if_neg hskips, h.width_eq, tdiv_eq_parent hup]
      rw [if_neg (by omega)]
      exact ih fuel (by omega)

/-- **The selected parent**: the nearest peer above. -/
theorem Knows.selectParentNodes_eq (h : Knows t nodes width) (hn : 0 < nodes.length) {q r : Nat}
    (hpeer : nodeAt nodes hn c q ∈ peers)
    (hpath : Path width (fun e => nodeAt nodes hn c e ∉ peers) q r) :
    t.selectParentNodes peers r c false = [nodeAt nodes hn c q] := by
  have hpos := hpath.pos
  have hlt := parent_lt (w := width) hpos
  rw [TreeTopology.selectParentNodes, h.width_eq, tdiv_eq_parent hpos, if_neg (by omega)]
  exact h.parentLoop_eq hn hpeer hpath (r + 1) (by omega)

/-! ### Own positions -/

theorem getNodeIndexByNodeId_of_not_mem (h : x ∉ nodes) : getNodeIndexByNodeId nodes x = -1 := by
  rw [getNodeIndexByNodeId, List.findIdx?_eq_none_iff.mpr]
  intro y hy
  rw [decide_eq_false_iff_not]
  rintro rfl
  exact h hy

theorem getNodeIndexByNodeId_get (hnodup : nodes.Nodup) {k : Nat} (hk : k < nodes.length) :
    getNodeIndexByNodeId nodes (nodes.get ⟨k, hk⟩) = k := by
  have hfound : nodes.findIdx? (nodes.get ⟨k, hk⟩ = ·) = some k := by
    rw [List.findIdx?_eq_some_iff_getElem]
    refine ⟨hk, by simp, ?_⟩
    intro j hj
    rw [decide_eq_true_eq]
    intro heq
    exact absurd (congrArg Fin.val (hnodup.get_inj_iff.mp heq)) (by simp; omega)
  rw [getNodeIndexByNodeId, hfound]

theorem getNodeIndex_eq (hn : 0 < nodes.length) (hnodup : nodes.Nodup) (hc : c < nodes.length) (width : Nat)
    {r : Nat} (hr : r < nodes.length) :
    (topologyOf nodes width (nodeAt nodes hn c r)).getNodeIndex c = r
      ∧ 0 ≤ (topologyOf nodes width (nodeAt nodes hn c r)).m_consIndex := by
  obtain ⟨hknows, hown⟩ := topologyOf_eq hn width (nodeAt nodes hn c r)
  have hk : (r + c) % nodes.length < nodes.length := Nat.mod_lt _ hn
  rw [show getNodeIndexByNodeId nodes (nodeAt nodes hn c r) = ((r + c) % nodes.length : Nat) from
    getNodeIndexByNodeId_get hnodup hk] at hown
  refine ⟨?_, by rw [hown]; omega⟩
  rw [TreeTopology.getNodeIndex, hown, hknows.num_eq, Int.toNat_natCast, Nat.mod_eq_of_lt hc]
  by_cases hwrap : r + c < nodes.length
  · rw [Nat.mod_eq_of_lt hwrap, if_pos (by omega)]
    omega
  · have hindex : (r + c) % nodes.length = r + c - nodes.length := by
      rw [Nat.mod_eq_sub_mod (by omega), Nat.mod_eq_of_lt (by omega)]
    rw [hindex, if_neg (by omega), show r + c - nodes.length + nodes.length - c = r by omega, Nat.mod_eq_of_lt hr]

end HieraChain.Tree
