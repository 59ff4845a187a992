/-
  HieraChain/TreeTopologyBounds.lean
  ==================================
  **The tree router on indices from the network** (`libdevcore/TreeTopology.cpp`).

  The functions of `TreeTopology` on `int64_t`, where an overflow, a division by
  zero and an index outside the list are failures, which C++ leaves undefined.  An
  index that is too large for the list is looked for and not found; a negative one
  is not looked for.  The position where a search starts is not negative, since
  the index −1 fails before it is one.

  A position fails where it is looked at and its sum with the starting index does
  not fit, or has a negative remainder, or the list is empty (`Lookable`).
  `safe_iff` says which positions a search looks at, and that nothing else fails;
  a search that does not fail finds what the router of `TreeTopology.lean` finds
  (`returns_unbounded`).

  A list of ids is shorter than 2^57, as any vector of 64 bytes is.
-/
import HieraChain.TreeTopology

namespace HieraChain.Tree

open HieraChain.LevelTree

inductive Failure where
  | overflow
  | divideByZero
  | outOfRange
  | unending
  deriving DecidableEq, Repr

/-- A sum or product of type `int64_t`. -/
def int64 (v : Int) : Except Failure Int := if -2 ^ 63 ≤ v ∧ v < 2 ^ 63 then .ok v else .error .overflow

variable {NodeID : Type} [DecidableEq NodeID]

namespace Bounded

variable (t : TreeTopology NodeID)

/-! ### The source -/

omit [DecidableEq NodeID] in
def getNodeIDByIndex (nodeIndex : Int) : Except Failure (Option NodeID) :=
  if (t.m_currentConsensusNodes.length : Int) ≤ nodeIndex then .ok none
  else if nodeIndex < 0 then .error .outOfRange
  else .ok t.m_currentConsensusNodes[nodeIndex.toNat]?

omit [DecidableEq NodeID] in
def getSelectedNodeIndex (selectedIndex offset : Int) : Except Failure Int :=
  (int64 (selectedIndex + offset)).bind fun sum =>
    if t.m_nodeNum = 0 then .error .divideByZero else .ok (sum.tmod t.m_nodeNum)

/-- The loop of `recursiveSelectChildNodes` over the children that are left. -/
def selectLoop (peers : Finset NodeID) (startIndex : Int) (recurse : Nat → Except Failure (List NodeID))
    (parentIndex : Nat) : List Nat → Except Failure (List NodeID)
  | [] => .ok []
  | i :: is =>
    (int64 (parentIndex * t.m_treeWidth + i + 1)).bind fun expectedIndex =>
      if t.m_endIndex < expectedIndex then .ok []
      else
        (getSelectedNodeIndex t expectedIndex startIndex).bind fun selectedIndex =>
          (getNodeIDByIndex t selectedIndex).bind fun node =>
            match node with
            | none => selectLoop peers startIndex recurse parentIndex is
            | some selectedNode =>
              (if selectedNode ∈ peers then .ok [selectedNode]
                else if expectedIndex < t.m_endIndex then recurse expectedIndex.toNat else .ok []).bind fun selected =>
                if expectedIndex = t.m_endIndex then .ok selected
                else (selectLoop peers startIndex recurse parentIndex is).map fun rest => selected ++ rest

def selectChildren (peers : Finset NodeID) (startIndex : Int) : Nat → Nat → Except Failure (List NodeID)
  | 0, _ => .error .unending
  | fuel + 1, parentIndex =>
    selectLoop t peers startIndex (selectChildren peers startIndex fuel) parentIndex (List.range t.m_treeWidth)

def recursiveSelectChildNodes (parentIndex : Nat) (peers : Finset NodeID) (startIndex : Int) :
    Except Failure (List NodeID) :=
  selectChildren t peers startIndex (t.m_nodeNum + 1) parentIndex

/-- The loop of `selectParentNodes`. -/
def parentLoop (peers : Finset NodeID) (startIndex : Int) (selectAll : Bool) :
    Nat → Int → Except Failure (List NodeID)
  | 0, _ => .error .unending
  | fuel + 1, parentIndex =>
    if parentIndex < 0 then .ok []
    else
      (getSelectedNodeIndex t parentIndex startIndex).bind fun selectedIndex =>
        (getNodeIDByIndex t selectedIndex).bind fun node =>
          let selected := node.toList.filter (· ∈ peers)
          if selected ≠ [] ∧ selectAll = false then .ok selected
          else if parentIndex ≤ 0 then .ok selected
          else
            (parentLoop peers startIndex selectAll fuel ((parentIndex - 1).tdiv t.m_treeWidth)).map
              fun above => selected ++ above

def selectParentNodes (peers : Finset NodeID) (nodeIndex : Nat) (startIndex : Int) (selectAll : Bool) :
    Except Failure (List NodeID) :=
  let parentIndex := ((nodeIndex : Int) - 1).tdiv t.m_treeWidth
  if parentIndex = nodeIndex then .ok [] else parentLoop t peers startIndex selectAll (nodeIndex + 1) parentIndex

omit [DecidableEq NodeID] in
def getNodeIndex (consIndex : Int) : Except Failure Nat :=
  if consIndex ≤ t.m_consIndex then .ok (t.m_consIndex - consIndex).toNat
  else if t.m_nodeNum = 0 then .error .divideByZero
  else .ok ((t.m_consIndex + t.m_nodeNum - consIndex.tmod t.m_nodeNum).tmod t.m_nodeNum).toNat

def selectNodes (peers : Finset NodeID) (consIndex : Int) (isTheStartNode : Bool) :
    Except Failure (List NodeID) :=
  if t.m_consIndex < 0 then
    if isTheStartNode = false then .ok []
    else
      (getNodeIDByIndex t consIndex).bind fun node =>
        match node.filter (· ∈ peers) with
        | some selectedNode => .ok [selectedNode]
        | none => recursiveSelectChildNodes t consIndex.toNat peers consIndex
  else (getNodeIndex t consIndex).bind fun nodeIndex => recursiveSelectChildNodes t nodeIndex peers consIndex

def selectParent (peers : Finset NodeID) (consIndex : Int) (selectAll : Bool) : Except Failure (List NodeID) :=
  if t.m_consIndex < 0 then .ok []
  else (getNodeIndex t consIndex).bind fun nodeIndex => selectParentNodes t peers nodeIndex consIndex selectAll

end Bounded

def routerAfter (width : Nat) (nodeId : NodeID) (lists : List (List NodeID)) : TreeTopology NodeID :=
  lists.foldl TreeTopology.updateConsensusNodeInfo { m_treeWidth := width, m_nodeId := nodeId }

/-! ### What should hold -/

def Right (peers : Finset NodeID) (result : Except Failure (List NodeID)) : Prop :=
  ∃ selected, result = .ok selected ∧ ∀ x ∈ selected, x ∈ peers

def Safe (t : TreeTopology NodeID) (peers : Finset NodeID) (consIndex : Int) (isTheStartNode selectAll : Bool) :
    Prop :=
  Right peers (Bounded.selectNodes t peers consIndex isTheStartNode)
    ∧ Right peers (Bounded.selectParent t peers consIndex selectAll)

/-! ### Where it holds -/

section fits

variable (t : TreeTopology NodeID) (peers : Finset NodeID) (c : Int)

omit [DecidableEq NodeID] in
def Lookable (p : Nat) : Prop := t.m_nodeNum ≠ 0 ∧ (p : Int) + c < 2 ^ 63 ∧ 0 ≤ ((p : Int) + c).tmod t.m_nodeNum

omit [DecidableEq NodeID] in
def nodeOf (p : Nat) : Option NodeID := t.m_currentConsensusNodes[(((p : Int) + c).tmod t.m_nodeNum).toNat]?

omit [DecidableEq NodeID] in
def Skipped (p : Nat) : Prop := ∀ x, nodeOf t c p = some x → x ∉ peers

omit [DecidableEq NodeID] in
/-- The children of `p` are looked at, and those of positions below that are not
    peers: the products and sums of their positions fit. -/
structure ChildrenFit (p : Nat) : Prop where
  products : ∀ q, q = p ∨ ((q : Int) < t.m_endIndex ∧ Skipped t peers c q
    ∧ Path t.m_treeWidth (Skipped t peers c) p q) → (q : Int) * t.m_treeWidth + 1 < 2 ^ 63
  sums : ∀ q : Nat, (q : Int) ≤ t.m_endIndex → Path t.m_treeWidth (Skipped t peers c) p q → Lookable t c q

omit [DecidableEq NodeID] in
/-- The positions above `p` are looked at, up to the first peer or all of them. -/
def ParentsFit (selectAll : Bool) (p : Nat) : Prop :=
  ∀ q, Path t.m_treeWidth (fun e => selectAll = true ∨ Skipped t peers c e) q p → Lookable t c q

omit [DecidableEq NodeID] in
def ownPosition : Nat :=
  if c ≤ t.m_consIndex then (t.m_consIndex - c).toNat
  else ((t.m_consIndex + t.m_nodeNum - c.tmod t.m_nodeNum).tmod t.m_nodeNum).toNat

omit [DecidableEq NodeID] in
/-- Before the first list only the index 0 is right.  Outside the list a starter needs
    an index that is not negative, and the node of this index as a peer or children
    that fit.  In the list, what is looked at below and above has to fit. -/
def Fits (isTheStartNode selectAll : Bool) : Prop :=
  if t.m_consIndex < 0 then
    isTheStartNode = true → 0 ≤ c
      ∧ ((∃ x ∈ peers, t.m_currentConsensusNodes[c.toNat]? = some x) ∨ ChildrenFit t peers c c.toNat)
  else if t.m_nodeNum = 0 then c = 0
  else ChildrenFit t peers c (ownPosition t c) ∧ ParentsFit t peers c selectAll (ownPosition t c)

end fits

/-! ### One position -/

section positions

variable {t : TreeTopology NodeID} {peers : Finset NodeID} {c : Int}

structure Sane (t : TreeTopology NodeID) : Prop where
  length_eq : t.m_currentConsensusNodes.length = t.m_nodeNum
  num_lt : t.m_nodeNum < 2 ^ 57
  end_le : t.m_endIndex ≤ t.m_nodeNum
  width_pos : 0 < t.m_treeWidth

theorem int64_ok {v : Int} (hle : -2 ^ 63 ≤ v) (hlt : v < 2 ^ 63) : int64 v = .ok v := if_pos ⟨hle, hlt⟩

theorem int64_error {v : Int} (h : 2 ^ 63 ≤ v) : int64 v = .error .overflow := if_neg (by omega)

omit [DecidableEq NodeID] in
theorem Sane.look (h : Sane t) (hc : -1 ≤ c) {p : Nat} (hp : Lookable t c p) :
    ∃ i x, Bounded.getSelectedNodeIndex t p c = .ok i ∧ Bounded.getNodeIDByIndex t i = .ok (some x)
      ∧ nodeOf t c p = some x := by
  obtain ⟨hnum, hlt, hnonneg⟩ := hp
  have hbound : ((p : Int) + c).tmod t.m_nodeNum < t.m_nodeNum := 
      Int.tmod_lt_of_pos _ (Int.natCast_pos.mpr (Nat.pos_of_ne_zero hnum))
  have hindex : (((p : Int) + c).tmod t.m_nodeNum).toNat < t.m_currentConsensusNodes.length := by
    rw [h.length_eq]
    omega
  refine ⟨((p : Int) + c).tmod t.m_nodeNum, t.m_currentConsensusNodes[(((p : Int) + c).tmod t.m_nodeNum).toNat],
    ?_, ?_, List.getElem?_eq_getElem hindex⟩
  · rw [Bounded.getSelectedNodeIndex, int64_ok (by omega) hlt]
    exact if_neg hnum
  · rw [Bounded.getNodeIDByIndex, if_neg (by rw [h.length_eq]; omega), if_neg (by omega),
      List.getElem?_eq_getElem hindex]

omit [DecidableEq NodeID] in
theorem look_error {p : Nat} (hp : ¬ Lookable t c p) :
    (∃ e, Bounded.getSelectedNodeIndex t p c = .error e)
      ∨ ∃ i e, Bounded.getSelectedNodeIndex t p c = .ok i ∧ Bounded.getNodeIDByIndex t i = .error e := by
  rw [Bounded.getSelectedNodeIndex]
  by_cases hfits : -2 ^ 63 ≤ (p : Int) + c ∧ (p : Int) + c < 2 ^ 63
  · rw [int64_ok hfits.1 hfits.2]
    by_cases hnum : t.m_nodeNum = 0
    · exact Or.inl ⟨.divideByZero, if_pos hnum⟩
    · have hneg : ((p : Int) + c).tmod t.m_nodeNum < 0 := by
        by_contra hnonneg
        exact hp ⟨hnum, hfits.2, by omega⟩
      refine Or.inr ⟨_, .outOfRange, if_neg hnum, ?_⟩
      rw [Bounded.getNodeIDByIndex, if_neg (by omega), if_pos hneg]
  · exact Or.inl ⟨.overflow, by rw [int64, if_neg hfits]; rfl⟩

theorem ok_bind {α β : Type} (a : α) (f : α → Except Failure β) : (Except.ok a).bind f = f a := rfl

omit [DecidableEq NodeID] in
theorem not_right_error (e : Failure) : ¬ Right peers (.error e) := by
  rintro ⟨selected, heq, -⟩
  cases heq

omit [DecidableEq NodeID] in
theorem skipped_of_some {p : Nat} {x : NodeID} (h : nodeOf t c p = some x) : Skipped t peers c p ↔ x ∉ peers := by
  constructor
  · exact fun hskips => hskips x h
  · intro hx y hy
    rw [h] at hy
    cases hy
    exact hx

omit [DecidableEq NodeID] in
theorem right_append {a b : Except Failure (List NodeID)} :
    Right peers (a.bind fun selected => b.map fun rest => selected ++ rest) ↔ Right peers a ∧ Right peers b := by
  cases a with
  | error e => exact iff_of_false (not_right_error e) fun hright => not_right_error e hright.1
  | ok selected =>
    cases b with
    | error e => exact iff_of_false (not_right_error e) fun hright => not_right_error e hright.2
    | ok rest =>
      constructor
      · rintro ⟨both, heq, hall⟩
        cases heq
        exact ⟨⟨selected, rfl, fun x hx => hall x (List.mem_append_left _ hx)⟩,
          ⟨rest, rfl, fun x hx => hall x (List.mem_append_right _ hx)⟩⟩
      · rintro ⟨⟨_, heq, hselected⟩, _, heq', hrest⟩
        cases heq
        cases heq'
        refine ⟨selected ++ rest, rfl, fun x hx => ?_⟩
        rcases List.mem_append.mp hx with hx | hx
        · exact hselected x hx
        · exact hrest x hx

/-! ### The children -/

theorem Sane.selectLoop_iff (h : Sane t) (hc : -1 ≤ c) {recurse : Nat → Except Failure (List NodeID)} (p j m : Nat) :
    Right peers (Bounded.selectLoop t peers c recurse p (List.range' j m))
      ↔ (m ≠ 0 → (p : Int) * t.m_treeWidth + j + 1 < 2 ^ 63)
        ∧ ∀ i, j ≤ i → i < j + m → ((p * t.m_treeWidth + i + 1 : Nat) : Int) ≤ t.m_endIndex →
            Lookable t c (p * t.m_treeWidth + i + 1)
            ∧ (Skipped t peers c (p * t.m_treeWidth + i + 1) →
                ((p * t.m_treeWidth + i + 1 : Nat) : Int) < t.m_endIndex →
                Right peers (recurse (p * t.m_treeWidth + i + 1))) := by
  induction m generalizing j with
  | zero =>
    refine iff_of_true ⟨[], rfl, List.forall_mem_nil _⟩ ⟨fun hne => absurd rfl hne, fun i hle hlt => ?_⟩
    omega
  | succ m ih =>
    have hexpected : (p : Int) * t.m_treeWidth + j + 1 = ((p * t.m_treeWidth + j + 1 : Nat) : Int) := by
      push_cast
      rfl
    have hnext : (p : Int) * t.m_treeWidth + (j + 1 : Nat) + 1
        = ((p * t.m_treeWidth + j + 1 : Nat) : Int) + 1 := by
      push_cast
      ring
    have hnum := h.num_lt
    have hend := h.end_le
    rw [List.range'_succ, Bounded.selectLoop, hexpected]
    by_cases hfits : ((p * t.m_treeWidth + j + 1 : Nat) : Int) < 2 ^ 63
    · rw [int64_ok (by omega) hfits, ok_bind]
      by_cases hlast : t.m_endIndex < ((p * t.m_treeWidth + j + 1 : Nat) : Int)
      · rw [if_pos hlast]
        refine iff_of_true ⟨[], rfl, List.forall_mem_nil _⟩ ⟨fun _ => hfits, fun i hle _ hbelow => ?_⟩
        omega
      · rw [if_neg hlast]
        by_cases hlook : Lookable t c (p * t.m_treeWidth + j + 1)
        · obtain ⟨i, x, hselected, hnode, hnodeOf⟩ := h.look hc hlook
          rw [hselected, ok_bind, hnode, ok_bind]
          -- the node itself, or what is below it
          have hbelow : Right peers
              (if x ∈ peers then .ok [x]
                else if ((p * t.m_treeWidth + j + 1 : Nat) : Int) < t.m_endIndex then
                  recurse ((p * t.m_treeWidth + j + 1 : Nat) : Int).toNat
                else .ok [])
              ↔ (Skipped t peers c (p * t.m_treeWidth + j + 1) →
                ((p * t.m_treeWidth + j + 1 : Nat) : Int) < t.m_endIndex →
                Right peers (recurse (p * t.m_treeWidth + j + 1))) := by
            rw [skipped_of_some hnodeOf, Int.toNat_natCast]
            split
            next hpeer =>
              exact iff_of_true ⟨[x], rfl, fun y hy => List.mem_singleton.mp hy ▸ hpeer⟩
                fun hnot => absurd hpeer hnot
            next hnot =>
              split
              next hlt => exact ⟨fun hright _ _ => hright, fun hright => hright hnot hlt⟩
              next hge =>
                exact iff_of_true ⟨[], rfl, List.forall_mem_nil _⟩ fun _ hlt => absurd hlt hge
          by_cases hequal : ((p * t.m_treeWidth + j + 1 : Nat) : Int) = t.m_endIndex
          · simp only [if_pos hequal]
            have hwhole : ∀ a : Except Failure (List NodeID), (a.bind fun selected => .ok selected) = a := by
              intro a
              cases a with
              | error e => rfl
              | ok selected => rfl
            rw [hwhole, hbelow]
            constructor
            · intro hright
              refine ⟨fun _ => hfits, fun i hle _ hi => ?_⟩
              obtain rfl : i = j := by omega
              exact ⟨hlook, hright⟩
            · exact fun hright => (hright.2 j (le_refl j) (by omega) (by omega)).2
          · simp only [if_neg hequal]
            rw [right_append, hbelow, ih (j + 1), hnext]
            constructor
            · rintro ⟨hright, -, hrest⟩
              refine ⟨fun _ => hfits, fun i hle hlt hi => ?_⟩
              rcases Nat.eq_or_lt_of_le hle with rfl | hlt'
              · exact ⟨hlook, hright⟩
              · exact hrest i hlt' (by omega) hi
            · intro hright
              refine ⟨(hright.2 j (le_refl j) (by omega) (by omega)).2, fun _ => by omega, fun i hle hlt hi => ?_⟩
              exact hright.2 i (by omega) (by omega) hi
        · refine iff_of_false ?_ fun hright => hlook (hright.2 j (le_refl j) (by omega) (by omega)).1
          rcases look_error hlook with ⟨e, he⟩ | ⟨i, e, hi, he⟩
          · rw [he]
            exact not_right_error e
          · rw [hi, ok_bind, he]
            exact not_right_error e
    · rw [int64_error (by omega)]
      exact iff_of_false (not_right_error _) fun hright => hfits (hright.1 (Nat.succ_ne_zero m))

theorem Sane.selectChildren_iff (h : Sane t) (hc : -1 ≤ c) {fuel p : Nat} (hfuel : t.m_endIndex ≤ p + fuel) :
    Right peers (Bounded.selectChildren t peers c (fuel + 1) p) ↔ ChildrenFit t peers c p := by
  have hw := h.width_pos
  induction fuel using Nat.strong_induction_on generalizing p with
  | _ fuel ih =>
    have hbelow : ∀ {e : Nat}, 0 < e → parent t.m_treeWidth e = p → (e : Int) < t.m_endIndex →
        (Right peers (Bounded.selectChildren t peers c fuel e) ↔ ChildrenFit t peers c e) := by
      intro e he hparent hlt
      have hpe := parent_lt (w := t.m_treeWidth) he
      obtain ⟨fuel, rfl⟩ : ∃ k, fuel = k + 1 := ⟨fuel - 1, by omega⟩
      exact ih fuel (Nat.lt_succ_self _) (by push_cast at hfuel; omega)
    rw [Bounded.selectChildren, List.range_eq_range', h.selectLoop_iff hc]
    constructor
    · rintro ⟨hproduct, hchildren⟩
      have hchild : ∀ {e : Nat}, 0 < e → parent t.m_treeWidth e = p → (e : Int) ≤ t.m_endIndex →
          Lookable t c e ∧ (Skipped t peers c e → (e : Int) < t.m_endIndex → ChildrenFit t peers c e) := by
        intro e he hparent hle
        obtain ⟨i, hi, rfl⟩ := (parent_eq_iff hw).mp ⟨he, hparent⟩
        obtain ⟨hlook, hright⟩ := hchildren i (Nat.zero_le i) (by omega) hle
        exact ⟨hlook, fun hskips hlt => (hbelow he hparent hlt).mp (hright hskips hlt)⟩
      refine ⟨fun q hq => ?_, fun q hq hpath => ?_⟩
      · rcases hq with rfl | ⟨hlt, hskips, hpath⟩
        · have := hproduct (by omega)
          omega
        · obtain ⟨e, he, hparent, rfl | ⟨hskips', hpath'⟩⟩ := path_iff_child.mp hpath
          · exact ((hchild he hparent hlt.le).2 hskips hlt).products e (Or.inl rfl)
          · have hlt' := hpath'.lt
            exact ((hchild he hparent (by omega)).2 hskips' (by omega)).products q
              (Or.inr ⟨hlt, hskips, hpath'⟩)
      · obtain ⟨e, he, hparent, rfl | ⟨hskips', hpath'⟩⟩ := path_iff_child.mp hpath
        · exact (hchild he hparent hq).1
        · have hlt' := hpath'.lt
          exact ((hchild he hparent (by omega)).2 hskips' (by omega)).sums q hq hpath'
    · intro hfit
      refine ⟨fun _ => ?_, fun i _ hi hle => ?_⟩
      · have := hfit.products p (Or.inl rfl)
        omega
      · obtain ⟨he, hparent⟩ := (parent_eq_iff hw).mpr ⟨i, by omega, rfl⟩
        refine ⟨hfit.sums _ hle (.child he hparent), fun hskips hlt => (hbelow he hparent hlt).mpr ⟨?_, ?_⟩⟩
        · intro q hq
          rcases hq with rfl | ⟨hltq, hskipsq, hpath⟩
          · exact hfit.products _ (Or.inr ⟨hlt, hskips, .child he hparent⟩)
          · exact hfit.products q
              (Or.inr ⟨hltq, hskipsq, path_iff_child.mpr ⟨_, he, hparent, Or.inr ⟨hskips, hpath⟩⟩⟩)
        · intro q hq hpath
          exact hfit.sums q hq (path_iff_child.mpr ⟨_, he, hparent, Or.inr ⟨hskips, hpath⟩⟩)

theorem Sane.children_iff (h : Sane t) (hc : -1 ≤ c) (p : Nat) :
    Right peers (Bounded.recursiveSelectChildNodes t p peers c) ↔ ChildrenFit t peers c p := by
  have hend := h.end_le
  exact h.selectChildren_iff hc (by omega)

/-! ### The parents -/

omit [DecidableEq NodeID] in
theorem parentsFit_zero (selectAll : Bool) : ParentsFit t peers c selectAll 0 := by
  intro q hpath
  exact absurd hpath.pos (lt_irrefl 0)

omit [DecidableEq NodeID] in
theorem parentsFit_iff (selectAll : Bool) {p : Nat} (hp : 0 < p) :
    ParentsFit t peers c selectAll p ↔ Lookable t c (parent t.m_treeWidth p)
      ∧ ((selectAll = true ∨ Skipped t peers c (parent t.m_treeWidth p)) →
        ParentsFit t peers c selectAll (parent t.m_treeWidth p)) := by
  constructor
  · intro hfit
    exact ⟨hfit _ (.child hp rfl), fun hskips q hpath => hfit q (.through hp hskips hpath)⟩
  · rintro ⟨hlook, hup⟩ q hpath
    cases hpath with
    | child _ hparent => exact hparent ▸ hlook
    | through _ hskips hpath => exact hup hskips q hpath

theorem Sane.parentLoop_iff (h : Sane t) (hc : -1 ≤ c) (selectAll : Bool) {fuel p : Nat} (hfuel : p < fuel) :
    Right peers (Bounded.parentLoop t peers c selectAll fuel p)
      ↔ Lookable t c p ∧ ((selectAll = true ∨ Skipped t peers c p) → ParentsFit t peers c selectAll p) := by
  induction fuel generalizing p with
  | zero => omega
  | succ fuel ih =>
    rw [Bounded.parentLoop, if_neg (by omega)]
    by_cases hlook : Lookable t c p
    · obtain ⟨i, x, hselected, hnode, hnodeOf⟩ := h.look hc hlook
      rw [hselected, ok_bind, hnode, ok_bind, skipped_of_some hnodeOf, and_iff_right hlook]
      dsimp only
      have hpeers : ∀ y ∈ (some x).toList.filter (· ∈ peers), y ∈ peers := fun y hy =>
        of_decide_eq_true (List.mem_filter.mp hy).2
      have hempty : (some x).toList.filter (· ∈ peers) ≠ [] ↔ x ∈ peers := by
        rw [Option.toList_some, ne_eq, List.filter_eq_nil_iff, not_forall]
        constructor
        · rintro ⟨y, hy⟩
          rw [Classical.not_imp, not_not, List.mem_singleton, decide_eq_true_eq] at hy
          exact hy.1 ▸ hy.2
        · intro hx
          exact ⟨x, fun hnot => hnot List.mem_cons_self (decide_eq_true hx)⟩
      split
      next hstop =>
        refine iff_of_true ⟨_, rfl, hpeers⟩ fun hor => ?_
        rcases hor with hall | hskips
        · rw [hstop.2] at hall
          cases hall
        · exact absurd (hempty.mp hstop.1) hskips
      next hgo =>
        have hup : selectAll = true ∨ x ∉ peers := by
          by_contra hno
          rw [not_or, Bool.not_eq_true, not_not] at hno
          exact hgo ⟨hempty.mpr hno.2, hno.1⟩
        rw [imp_iff_right hup]
        split
        next hzero =>
          obtain rfl : p = 0 := by omega
          exact iff_of_true ⟨_, rfl, hpeers⟩ (parentsFit_zero selectAll)
        next hpos =>
          have hp : 0 < p := by omega
          have hlt := parent_lt (w := t.m_treeWidth) hp
          have hright : Right peers
                ((Except.ok ((some x).toList.filter (· ∈ peers)) : Except Failure (List NodeID)).bind fun selected =>
                  (Bounded.parentLoop t peers c selectAll fuel (parent t.m_treeWidth p : Nat)).map
                    fun rest => selected ++ rest)
              ↔ Right peers (.ok ((some x).toList.filter (· ∈ peers)))
                ∧ Right peers (Bounded.parentLoop t peers c selectAll fuel (parent t.m_treeWidth p : Nat)) :=
            right_append
          rw [ok_bind] at hright
          rw [tdiv_eq_parent hp, hright, ih (by omega), parentsFit_iff selectAll hp]
          exact and_iff_right ⟨_, rfl, hpeers⟩
    · refine iff_of_false ?_ fun hright => hlook hright.1
      rcases look_error hlook with ⟨e, he⟩ | ⟨i, e, hi, he⟩
      · rw [he]
        exact not_right_error e
      · rw [hi, ok_bind, he]
        exact not_right_error e

theorem Sane.parents_iff (h : Sane t) (hc : -1 ≤ c) (selectAll : Bool) (p : Nat) :
    Right peers (Bounded.selectParentNodes t peers p c selectAll) ↔ ParentsFit t peers c selectAll p := by
  unfold Bounded.selectParentNodes
  dsimp only
  rcases Nat.eq_zero_or_pos p with rfl | hp
  · refine iff_of_true ?_ (parentsFit_zero selectAll)
    split
    · exact ⟨[], rfl, List.forall_mem_nil _⟩
    next hne =>
      -- the width is 1, and the parent of the root is −1
      have hquotient : (((0 : Nat) : Int) - 1).tdiv t.m_treeWidth = -((1 : Int).tdiv t.m_treeWidth) := by
        rw [← Int.neg_tdiv]
        rfl
      have hnonneg : 0 ≤ (1 : Int).tdiv t.m_treeWidth := Int.tdiv_nonneg (by decide) (Int.natCast_nonneg _)
      have hneg : (((0 : Nat) : Int) - 1).tdiv t.m_treeWidth < 0 := by omega
      rw [Bounded.parentLoop, if_pos hneg]
      exact ⟨[], rfl, List.forall_mem_nil _⟩
  · have hlt := parent_lt (w := t.m_treeWidth) hp
    rw [tdiv_eq_parent hp, if_neg (by omega), h.parentLoop_iff hc selectAll (by omega),
      parentsFit_iff selectAll hp]

/-! ### The calls -/

omit [DecidableEq NodeID] in
theorem getNodeIndex_bounded (hnum : t.m_nodeNum ≠ 0) : Bounded.getNodeIndex t c = .ok (ownPosition t c) := by
  rw [Bounded.getNodeIndex, ownPosition, if_neg hnum]
  split
  · rfl
  · rfl

theorem Sane.selectNodes_outside (h : Sane t) (hc : -1 ≤ c) (hown : t.m_consIndex < 0) (isTheStartNode : Bool) :
    Right peers (Bounded.selectNodes t peers c isTheStartNode)
      ↔ (isTheStartNode = true → 0 ≤ c
        ∧ ((∃ x ∈ peers, t.m_currentConsensusNodes[c.toNat]? = some x) ∨ ChildrenFit t peers c c.toNat)) := by
  rw [Bounded.selectNodes, if_pos hown]
  cases isTheStartNode with
  | false => exact iff_of_true ⟨[], rfl, List.forall_mem_nil _⟩ nofun
  | true =>
    rw [if_neg (by decide), imp_iff_right rfl]
    have hchildren : Right peers (Bounded.recursiveSelectChildNodes t c.toNat peers c) ↔ ChildrenFit t peers c c.toNat :=
      h.children_iff hc c.toNat
    by_cases hneg : c < 0
    · refine iff_of_false ?_ fun hright => by omega
      rw [Bounded.getNodeIDByIndex, if_neg (by omega), if_pos hneg]
      exact not_right_error _
    · rw [and_iff_right (by omega)]
      have hnode : Bounded.getNodeIDByIndex t c = .ok t.m_currentConsensusNodes[c.toNat]? := by
        rw [Bounded.getNodeIDByIndex, if_neg hneg]
        split
        next hbehind => rw [List.getElem?_eq_none (by omega)]
        next => rfl
      rw [hnode, ok_bind]
      cases hget : t.m_currentConsensusNodes[c.toNat]? with
      | none =>
        rw [Option.filter_none]
        simp only [hchildren]
        exact ⟨Or.inr, fun hor => hor.resolve_left fun ⟨x, _, hx⟩ => by cases hx⟩
      | some x =>
        rw [Option.filter_some]
        by_cases hx : x ∈ peers
        · rw [if_pos (decide_eq_true hx)]
          exact iff_of_true ⟨[x], rfl, fun y hy => List.mem_singleton.mp hy ▸ hx⟩ (Or.inl ⟨x, hx, rfl⟩)
        · rw [if_neg (by rw [decide_eq_true_eq]; exact hx)]
          simp only [hchildren]
          exact ⟨Or.inr, fun hor => hor.resolve_left fun ⟨y, hy, heq⟩ => hx (Option.some.inj heq ▸ hy)⟩

theorem Sane.safe_inside (h : Sane t) (hc : -1 ≤ c) (hown : 0 ≤ t.m_consIndex) (hnum : t.m_nodeNum ≠ 0)
    (isTheStartNode selectAll : Bool) :
    Safe t peers c isTheStartNode selectAll
      ↔ ChildrenFit t peers c (ownPosition t c) ∧ ParentsFit t peers c selectAll (ownPosition t c) := by
  unfold Safe
  rw [Bounded.selectNodes, if_neg (by omega), Bounded.selectParent, if_neg (by omega), getNodeIndex_bounded hnum, ok_bind,
    ok_bind, h.children_iff hc, h.parents_iff hc]

theorem Sane.safe_initial (h : Sane t) (hc : -1 ≤ c) (hown : t.m_consIndex = 0) (hnum : t.m_nodeNum = 0)
    (isTheStartNode selectAll : Bool) : Safe t peers c isTheStartNode selectAll ↔ c = 0 := by
  have hend := h.end_le
  unfold Safe
  rw [Bounded.selectNodes, if_neg (by omega), Bounded.selectParent, if_neg (by omega), Bounded.getNodeIndex, hown,
    Int.zero_sub]
  have hnowhere : ∀ p, ¬ Lookable t c p := fun p hlook => hlook.1 hnum
  constructor
  · rintro ⟨hnodes, hparent⟩
    by_contra hne
    rw [if_pos hnum] at hparent
    split at hparent
    next hle =>
      obtain rfl : c = -1 := by omega
      have hup := (h.parents_iff hc selectAll _).mp hparent
      exact hnowhere _ (hup 0 (.child (by decide) (by rw [parent]; exact Nat.zero_div _)))
    next hpos => exact not_right_error _ hparent
  · rintro rfl
    rw [if_pos (le_refl 0), ok_bind, ok_bind, Int.neg_zero, Int.toNat_zero, h.children_iff hc, h.parents_iff hc]
    refine ⟨⟨fun q hq => ?_, fun q hq hpath => ?_⟩, parentsFit_zero selectAll⟩
    · obtain rfl : q = 0 := by omega
      omega
    · have := hpath.lt
      omega

/-! ### Without failures -/

theorem bind_eq_ok {α β : Type} {a : Except Failure α} {f : α → Except Failure β} {b : β} (h : a.bind f = .ok b) :
    ∃ x, a = .ok x ∧ f x = .ok b := by
  cases a with
  | error e => cases h
  | ok x => exact ⟨x, rfl, h⟩

theorem int64_eq_ok {v w : Int} (h : int64 v = .ok w) : w = v := by
  unfold int64 at h
  split at h
  · exact (Except.ok.inj h).symm
  · cases h

omit [DecidableEq NodeID] in
theorem look_unbounded {c p : Nat} {i : Int} {node : Option NodeID}
    (hi : Bounded.getSelectedNodeIndex t p c = .ok i) (hnode : Bounded.getNodeIDByIndex t i = .ok node) :
    t.getNodeIDByIndex (t.getSelectedNodeIndex p c) = node := by
  obtain ⟨sum, hsum, hmod⟩ := bind_eq_ok hi
  rw [int64_eq_ok hsum] at hmod
  split at hmod
  next => cases hmod
  next =>
    have hindex : i = (((p + c) % t.m_nodeNum : Nat) : Int) := by
      rw [← Except.ok.inj hmod]
      rfl
    rw [hindex, Bounded.getNodeIDByIndex] at hnode
    rw [TreeTopology.getNodeIDByIndex, TreeTopology.getSelectedNodeIndex]
    split at hnode
    next hbehind =>
      cases hnode
      exact List.getElem?_eq_none (by omega)
    next =>
      rw [if_neg (by omega), Int.toNat_natCast] at hnode
      exact Except.ok.inj hnode

theorem selectLoop_unbounded {c p : Nat} {recurse : Nat → Except Failure (List NodeID)}
    {recurse' : Nat → List NodeID} (hrecurse : ∀ e selected, p < e → recurse e = .ok selected → recurse' e = selected)
    {is : List Nat} {selected : List NodeID} (hw : 0 < t.m_treeWidth)
    (h : Bounded.selectLoop t peers c recurse p is = .ok selected) :
    t.selectLoop peers c recurse' p is = selected := by
  induction is generalizing selected with
  | nil => exact Except.ok.inj h
  | cons i is ih =>
    obtain ⟨e, he, h⟩ := bind_eq_ok h
    have he : e = ((p * t.m_treeWidth + i + 1 : Nat) : Int) := by
      rw [int64_eq_ok he]
      push_cast
      rfl
    subst he
    have hlt : p < p * t.m_treeWidth + i + 1 := by
      have := Nat.le_mul_of_pos_right p hw
      omega
    rw [TreeTopology.selectLoop]
    split at h
    next hlast =>
      rw [if_pos hlast]
      exact Except.ok.inj h
    next hlast =>
      rw [if_neg hlast]
      obtain ⟨index, hindex, h⟩ := bind_eq_ok h
      obtain ⟨node, hnode, h⟩ := bind_eq_ok h
      rw [look_unbounded hindex hnode]
      cases node with
      | none => exact ih h
      | some x =>
        obtain ⟨below, hbelow, h⟩ := bind_eq_ok h
        have hsame : (if x ∈ peers then [x]
            else if ((p * t.m_treeWidth + i + 1 : Nat) : Int) < t.m_endIndex then recurse' (p * t.m_treeWidth + i + 1)
            else []) = below := by
          rw [Int.toNat_natCast] at hbelow
          split
          next hpeer => rwa [if_pos hpeer, Except.ok.injEq] at hbelow
          next hpeer =>
            rw [if_neg hpeer] at hbelow
            split
            next hend =>
              rw [if_pos hend] at hbelow
              exact hrecurse _ _ hlt hbelow
            next hend => rwa [if_neg hend, Except.ok.injEq] at hbelow
        dsimp only
        rw [hsame]
        split at h
        next hequal =>
          rw [if_pos hequal, List.append_nil]
          exact Except.ok.inj h
        next hequal =>
          rw [if_neg hequal]
          cases hrest : Bounded.selectLoop t peers c recurse p is with
          | error e =>
            rw [hrest] at h
            cases h
          | ok rest =>
            rw [hrest] at h
            rw [ih hrest]
            exact Except.ok.inj h

theorem selectLoop_of_end {c p : Nat} {recurse : Nat → Except Failure (List NodeID)} {is : List Nat}
    {selected : List NodeID} (hw : 0 < t.m_treeWidth) (hend : t.m_endIndex ≤ p)
    (h : Bounded.selectLoop t peers c recurse p is = .ok selected) : selected = [] := by
  cases is with
  | nil => exact (Except.ok.inj h).symm
  | cons i is =>
    obtain ⟨e, he, h⟩ := bind_eq_ok h
    have hlt : p < p * t.m_treeWidth + i + 1 := by
      have := Nat.le_mul_of_pos_right p hw
      omega
    have he : e = ((p * t.m_treeWidth + i + 1 : Nat) : Int) := by
      rw [int64_eq_ok he]
      push_cast
      rfl
    rw [if_pos (by omega)] at h
    exact (Except.ok.inj h).symm

theorem selectChildren_unbounded {c fuel fuel' p : Nat} {selected : List NodeID} (hw : 0 < t.m_treeWidth)
    (hfuel : t.m_endIndex ≤ p + fuel') (h : Bounded.selectChildren t peers c fuel p = .ok selected) :
    t.selectChildren peers c fuel' p = selected := by
  induction fuel generalizing fuel' p selected with
  | zero => cases h
  | succ fuel ih =>
    rw [Bounded.selectChildren] at h
    cases fuel' with
    | zero => exact (selectLoop_of_end hw (by omega) h).symm
    | succ fuel' =>
      rw [TreeTopology.selectChildren]
      exact selectLoop_unbounded (fun e selected hlt hright => ih (by push_cast at hfuel; omega) hright) hw h

theorem parentLoop_unbounded {c fuel : Nat} {selectAll : Bool} {p : Int} {selected : List NodeID}
    (h : Bounded.parentLoop t peers c selectAll fuel p = .ok selected) :
    t.parentLoop peers c selectAll fuel p = selected := by
  induction fuel generalizing p selected with
  | zero => cases h
  | succ fuel ih =>
    rw [Bounded.parentLoop] at h
    rw [TreeTopology.parentLoop]
    split
    next hneg =>
      rw [if_pos hneg] at h
      exact Except.ok.inj h
    next hneg =>
      rw [if_neg hneg] at h
      obtain ⟨index, hindex, h⟩ := bind_eq_ok h
      obtain ⟨node, hnode, h⟩ := bind_eq_ok h
      rw [← Int.toNat_of_nonneg (by omega : 0 ≤ p)] at hindex
      rw [look_unbounded hindex hnode]
      have habove : ∀ {front all : List NodeID},
          (if p ≤ 0 then .ok front
            else (Bounded.parentLoop t peers c selectAll fuel ((p - 1).tdiv t.m_treeWidth)).map
              fun above => front ++ above) = Except.ok all →
          front ++ (if p ≤ 0 then [] else t.parentLoop peers c selectAll fuel ((p - 1).tdiv t.m_treeWidth)) = all := by
        intro front all hall
        split at hall
        next hzero =>
          rw [if_pos hzero, List.append_nil]
          exact Except.ok.inj hall
        next hpos =>
          rw [if_neg hpos]
          cases hup : Bounded.parentLoop t peers c selectAll fuel ((p - 1).tdiv t.m_treeWidth) with
          | error e =>
            rw [hup] at hall
            cases hall
          | ok above =>
            rw [hup] at hall
            rw [ih hup]
            exact Except.ok.inj hall
      cases node with
      | none => exact habove h
      | some x =>
        dsimp only at h ⊢
        by_cases hx : x ∈ peers
        · have hfront : (some x).toList.filter (· ∈ peers) = [x] := by
            rw [Option.toList_some, List.filter_cons_of_pos (by rw [decide_eq_true_eq]; exact hx), List.filter_nil]
          rw [hfront] at h
          rw [if_pos hx]
          cases selectAll with
          | false => exact Except.ok.inj h
          | true =>
            rw [if_neg (fun hstop => absurd hstop.2 (by decide))] at h
            exact habove h
        · have hfront : (some x).toList.filter (· ∈ peers) = [] := by
            rw [Option.toList_some, List.filter_cons_of_neg (by rw [decide_eq_true_eq]; exact hx), List.filter_nil]
          rw [hfront, if_neg (fun hstop => hstop.1 rfl)] at h
          rw [if_neg hx]
          exact habove h

omit [DecidableEq NodeID] in
theorem getNodeIndex_unbounded {c p : Nat} (hown : 0 ≤ t.m_consIndex) (h : Bounded.getNodeIndex t c = .ok p) :
    t.getNodeIndex c = p := by
  obtain ⟨own, hcons⟩ : ∃ own : Nat, t.m_consIndex = own := ⟨_, (Int.toNat_of_nonneg hown).symm⟩
  rw [Bounded.getNodeIndex, hcons] at h
  rw [TreeTopology.getNodeIndex, hcons, Int.toNat_natCast]
  split at h
  next hle =>
    rw [if_pos (by omega), ← Except.ok.inj h]
    omega
  next hlt =>
    rw [if_neg (by omega)]
    split at h
    next => cases h
    next hnum =>
      have hmod := Nat.mod_lt c (Nat.pos_of_ne_zero hnum)
      have hsum : (own : Int) + t.m_nodeNum - (c : Int).tmod t.m_nodeNum
          = ((own + t.m_nodeNum - c % t.m_nodeNum : Nat) : Int) := by
        rw [Nat.cast_sub (by omega)]
        push_cast
        rfl
      rw [hsum] at h
      exact Except.ok.inj h

theorem Sane.children_unbounded (h : Sane t) {c p : Nat} {selected : List NodeID}
    (hright : Bounded.recursiveSelectChildNodes t p peers c = .ok selected) :
    t.recursiveSelectChildNodes p peers c = selected := by
  have hend := h.end_le
  exact selectChildren_unbounded h.width_pos (by omega) hright

theorem Sane.selectNodes_unbounded (h : Sane t) {c : Nat} {isTheStartNode : Bool} {selected : List NodeID}
    (hright : Bounded.selectNodes t peers c isTheStartNode = .ok selected) :
    t.selectNodes peers c isTheStartNode = selected := by
  rw [Bounded.selectNodes] at hright
  rw [TreeTopology.selectNodes]
  split at hright
  next hneg =>
    rw [if_pos hneg]
    split at hright
    next hother =>
      rw [if_pos hother]
      exact Except.ok.inj hright
    next hstart =>
      rw [if_neg hstart]
      obtain ⟨node, hnode, hright⟩ := bind_eq_ok hright
      have hsame : t.getNodeIDByIndex c = node := by
        rw [Bounded.getNodeIDByIndex] at hnode
        rw [TreeTopology.getNodeIDByIndex]
        split at hnode
        next hbehind =>
          cases hnode
          exact List.getElem?_eq_none (by omega)
        next =>
          rw [if_neg (by omega), Int.toNat_natCast] at hnode
          exact Except.ok.inj hnode
      rw [hsame]
      cases node with
      | none => exact h.children_unbounded hright
      | some x =>
        rw [Option.filter_some] at hright
        dsimp only
        by_cases hx : x ∈ peers
        · rw [if_pos (decide_eq_true hx)] at hright
          rw [if_pos hx]
          exact Except.ok.inj hright
        · rw [if_neg (by rw [decide_eq_true_eq]; exact hx)] at hright
          rw [if_neg hx]
          exact h.children_unbounded hright
  next hpos =>
    rw [if_neg hpos]
    obtain ⟨p, hp, hright⟩ := bind_eq_ok hright
    rw [getNodeIndex_unbounded (by omega) hp]
    exact h.children_unbounded hright

theorem selectParent_unbounded {c : Nat} {selectAll : Bool} {selected : List NodeID}
    (hright : Bounded.selectParent t peers c selectAll = .ok selected) :
    t.selectParent peers c selectAll = selected := by
  rw [Bounded.selectParent] at hright
  rw [TreeTopology.selectParent]
  split at hright
  next hneg =>
    rw [if_pos hneg]
    exact Except.ok.inj hright
  next hpos =>
    rw [if_neg hpos]
    obtain ⟨p, hp, hright⟩ := bind_eq_ok hright
    rw [getNodeIndex_unbounded (by omega) hp]
    unfold Bounded.selectParentNodes at hright
    unfold TreeTopology.selectParentNodes
    dsimp only at hright ⊢
    split at hright
    next hself =>
      rw [if_pos hself]
      exact Except.ok.inj hright
    next hother =>
      rw [if_neg hother]
      exact parentLoop_unbounded hright

end positions

/-! ### All lists -/

theorem sane_routerAfter {width : Nat} (hw : 0 < width) (nodeId : NodeID) {lists : List (List NodeID)}
    (hlists : ∀ nodes ∈ lists, nodes.length < 2 ^ 57) :
    Sane (routerAfter width nodeId lists)
      ∧ ((routerAfter width nodeId lists).m_nodeNum = 0 → (routerAfter width nodeId lists).m_consIndex ≤ 0) := by
  unfold routerAfter
  have hstart : Sane ({ m_treeWidth := width, m_nodeId := nodeId } : TreeTopology NodeID) :=
    ⟨rfl, (by decide : 0 < 2 ^ 57), le_refl 0, hw⟩
  have hown : ({ m_treeWidth := width, m_nodeId := nodeId } : TreeTopology NodeID).m_nodeNum = 0 →
      ({ m_treeWidth := width, m_nodeId := nodeId } : TreeTopology NodeID).m_consIndex ≤ 0 := fun _ => le_refl 0
  revert hstart hown
  generalize ({ m_treeWidth := width, m_nodeId := nodeId } : TreeTopology NodeID) = t
  intro hsane hown
  induction lists generalizing t with
  | nil => exact ⟨hsane, hown⟩
  | cons nodes lists ih =>
    rw [List.foldl_cons]
    have hnext : Sane (t.updateConsensusNodeInfo nodes)
        ∧ ((t.updateConsensusNodeInfo nodes).m_nodeNum = 0 → (t.updateConsensusNodeInfo nodes).m_consIndex ≤ 0) := by
      rw [TreeTopology.updateConsensusNodeInfo]
      split
      · exact ⟨hsane, hown⟩
      · refine ⟨⟨rfl, hlists nodes List.mem_cons_self, ?_, hsane.width_pos⟩, fun hnum => ?_⟩
        · dsimp only
          omega
        · obtain rfl := List.length_eq_zero_iff.mp hnum
          exact (by decide : (-1 : Int) ≤ 0)
    exact ih (fun nodes' hmem => hlists nodes' (List.mem_cons_of_mem _ hmem)) _ hnext.1 hnext.2

/-- Both calls go right exactly where what they look at fits. -/
theorem safe_iff (width : Nat) (hw : 0 < width) (nodeId : NodeID) (lists : List (List NodeID))
    (hlists : ∀ nodes ∈ lists, nodes.length < 2 ^ 57) (peers : Finset NodeID) (c : Int) (hc : -1 ≤ c)
    (isTheStartNode selectAll : Bool) :
    Safe (routerAfter width nodeId lists) peers c isTheStartNode selectAll
      ↔ Fits (routerAfter width nodeId lists) peers c isTheStartNode selectAll := by
  obtain ⟨hsane, hown⟩ := sane_routerAfter hw nodeId hlists
  generalize routerAfter width nodeId lists = t at hsane hown
  rw [Fits]
  split
  next hneg =>
    have hparent : Right peers (Bounded.selectParent t peers c selectAll) := by
      rw [Bounded.selectParent, if_pos hneg]
      exact ⟨[], rfl, List.forall_mem_nil _⟩
    rw [Safe, and_iff_left hparent]
    exact hsane.selectNodes_outside hc hneg isTheStartNode
  next hpos =>
    split
    next hnum => exact hsane.safe_initial hc (by have := hown hnum; omega) hnum isTheStartNode selectAll
    next hnum => exact hsane.safe_inside hc (by omega) hnum isTheStartNode selectAll

theorem safe_iff_nine : Safe (routerAfter 3 9 [[8, 9]]) {8} 5 false false
    ↔ Fits (routerAfter 3 9 [[8, 9]]) {8} 5 false false :=
  safe_iff 3 (by decide) 9 [[8, 9]] (by decide) {8} 5 (by decide) false false

/-- **Where nothing fails, the width of the indices is not seen**: what the calls
    return on `int64_t` is what they return on numbers of any size. -/
theorem returns_unbounded (width : Nat) (hw : 0 < width) (nodeId : NodeID) (lists : List (List NodeID))
    (hlists : ∀ nodes ∈ lists, nodes.length < 2 ^ 57) (peers : Finset NodeID) (c : Nat)
    (isTheStartNode selectAll : Bool) :
    (∀ selected, Bounded.selectNodes (routerAfter width nodeId lists) peers c isTheStartNode = .ok selected →
      (routerAfter width nodeId lists).selectNodes peers c isTheStartNode = selected) ∧
    ∀ selected, Bounded.selectParent (routerAfter width nodeId lists) peers c selectAll = .ok selected →
      (routerAfter width nodeId lists).selectParent peers c selectAll = selected :=
  ⟨fun _ hright => (sane_routerAfter hw nodeId hlists).1.selectNodes_unbounded hright,
    fun _ hright => selectParent_unbounded hright⟩

theorem returns_unbounded_five :
    (routerAfter 2 7 [[8, 9, 7, 6, 5]]).selectNodes {8, 9, 5, 6} 6 false = [5, 8] ∧
      (routerAfter 2 7 [[8, 9, 7, 6, 5]]).selectParent {8, 9, 5, 6} 6 true = [9] := by
  have h := returns_unbounded 2 (by decide) 7 [[8, 9, 7, 6, 5]] (by decide) {8, 9, 5, 6} 6 false true
  exact ⟨h.1 [5, 8] (by decide), h.2 [9] (by decide)⟩

/-- A node whose list was never set divides by zero at index 1. -/
theorem not_safe_initial : ¬ Safe (routerAfter 3 9 []) ∅ 1 false false := by
  rintro ⟨⟨selected, heq, -⟩, -⟩
  cases heq

end HieraChain.Tree
