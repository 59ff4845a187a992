/-
  HieraChain/TreeBroadcast.lean
  =============================
  **The broadcast over the tree** (`TreeTopology.cpp`, `push` of
  `libsync/DownloadingTxsQueue.cpp`).

  A starter sends to the nodes it selects as the start node, and every consensus
  node forwards to those that it selects.  In whatever order the messages are
  delivered, every live consensus node is sent the message exactly once, by the
  node that it selects as its parent, exactly when the root of the tree is live
  or every live consensus node is below the position that a starter outside the
  list selects from (`tree_broadcast`).
-/
import Mathlib.Data.List.NodupEquivFin
import HieraChain.TreeTopology
import HieraChain.Relay

namespace HieraChain.Tree

open HieraChain.LevelTree HieraChain.Relay

variable {NodeID : Type} [DecidableEq NodeID]

/-! ### The system -/

/-- What a node forwards a message to; its peers are the other live nodes. -/
def forwardTo (nodes : List NodeID) (width c : Nat) (live : Finset NodeID) (x : NodeID) : List NodeID :=
  (topologyOf nodes width x).selectNodes (live.erase x) c false

def startTo (nodes : List NodeID) (width c : Nat) (live : Finset NodeID) (x : NodeID) : List NodeID :=
  (topologyOf nodes width x).selectNodes (live.erase x) c true

def broadcast (nodes : List NodeID) (width c : Nat) (live : Finset NodeID) (starter : NodeID) (ks : List Nat) :
    Network NodeID :=
  (relay (forwardTo nodes width c live)).run (begin starter (startTo nodes width c live starter)) ks

/-- Every live consensus node but the starter is sent one message, and selects
    its sender as its parent if that is a consensus node. -/
def Spans (nodes : List NodeID) (width c : Nat) (live : Finset NodeID) (starter : NodeID)
    (sent : List (NodeID × NodeID)) : Prop :=
  ∀ x ∈ nodes, x ∈ live → x ≠ starter →
    ∃ sender, sent.filter (·.2 = x) = [(sender, x)]
      ∧ (sender ∈ nodes → (topologyOf nodes width x).selectParent (live.erase x) c false = [sender])

/-- Every live consensus node is below position `c`. -/
def AllBelow (nodes : List NodeID) (width c : Nat) (live : Finset NodeID) : Prop :=
  ∀ k, ∀ hk : k < nodes.length, nodes.get ⟨k, hk⟩ ∈ live → Below width c (position nodes c k)

/-! ### Selections -/

section selections

variable {nodes : List NodeID} {width c : Nat} {live : Finset NodeID} {starter x y : NodeID}
  (hn : 0 < nodes.length)

def Dead (nodes : List NodeID) (hn : 0 < nodes.length) (c : Nat) (live : Finset NodeID) (r : Nat) : Prop :=
  nodeAt nodes hn c r ∉ live

def Member (nodes : List NodeID) (hn : 0 < nodes.length) (c : Nat) (live : Finset NodeID) (B : Nat → Prop)
    (y : NodeID) : Prop :=
  ∃ r < nodes.length, nodeAt nodes hn c r = y ∧ y ∈ live ∧ B r

theorem mem_children_live (hw : 0 < width) {p : Nat} (hx : ∀ e < nodes.length, p < e → nodeAt nodes hn c e ≠ x) :
    y ∈ (topologyOf nodes width x).recursiveSelectChildNodes p (live.erase x) c
      ↔ Member nodes hn c live (Path width (Dead nodes hn c live) p) y := by
  rw [(topologyOf_eq hn width x).1.mem_children hn hw]
  apply exists_congr
  intro r
  apply and_congr_right
  intro hr
  apply and_congr_right
  rintro rfl
  constructor
  · rintro ⟨hpeer, hpath⟩
    refine ⟨Finset.mem_of_mem_erase hpeer, hpath.congr ?_⟩
    intro e hpe her hnot hlive
    exact hnot (Finset.mem_erase.mpr ⟨hx e (by omega) hpe, hlive⟩)
  · rintro ⟨hlive, hpath⟩
    refine ⟨Finset.mem_erase.mpr ⟨hx r hr hpath.lt, hlive⟩, hpath.congr ?_⟩
    intro e _ _ hnot hpeer
    exact hnot (Finset.mem_of_mem_erase hpeer)

variable (hnodup : nodes.Nodup) (hc : c < nodes.length) (hw : 0 < width)

include hnodup hc

theorem selectNodes_member {p : Nat} (hp : p < nodes.length) (isTheStartNode : Bool) :
    (topologyOf nodes width (nodeAt nodes hn c p)).selectNodes (live.erase (nodeAt nodes hn c p)) c isTheStartNode
      = (topologyOf nodes width (nodeAt nodes hn c p)).recursiveSelectChildNodes p
          (live.erase (nodeAt nodes hn c p)) c := by
  obtain ⟨hposition, hown⟩ := getNodeIndex_eq hn hnodup hc width hp
  rw [TreeTopology.selectNodes, if_neg (not_lt.mpr hown), hposition]

omit hc [DecidableEq NodeID] in
theorem nodeAt_ne {p : Nat} (hp : p < nodes.length) (e : Nat) (he : e < nodes.length) (hpe : p < e) :
    nodeAt nodes hn c e ≠ nodeAt nodes hn c p := by
  intro heq
  have := nodeAt_inj hn hnodup he hp heq
  omega

include hw

theorem mem_forwardTo {p : Nat} (hp : p < nodes.length) :
    y ∈ forwardTo nodes width c live (nodeAt nodes hn c p)
      ↔ Member nodes hn c live (Path width (Dead nodes hn c live) p) y := by
  rw [forwardTo, selectNodes_member hn hnodup hc hp, mem_children_live hn hw (nodeAt_ne hn hnodup hp)]

omit hw in
theorem selectParent_of_path {q r : Nat} (hq : q < nodes.length) (hr : r < nodes.length)
    (hlive : nodeAt nodes hn c q ∈ live) (hpath : Path width (Dead nodes hn c live) q r) :
    (topologyOf nodes width (nodeAt nodes hn c r)).selectParent (live.erase (nodeAt nodes hn c r)) c false
      = [nodeAt nodes hn c q] := by
  obtain ⟨hposition, hown⟩ := getNodeIndex_eq hn hnodup hc width hr
  rw [TreeTopology.selectParent, if_neg (not_lt.mpr hown), hposition]
  apply (topologyOf_eq hn width _).1.selectParentNodes_eq hn
  · exact Finset.mem_erase.mpr ⟨(nodeAt_ne hn hnodup hq r hr hpath.lt).symm, hlive⟩
  · apply hpath.congr
    intro e _ _ hdead hpeer
    exact hdead (Finset.mem_of_mem_erase hpeer)

/-! ### The forest of the selections -/

variable {entry B : Nat → Prop}

/-- **The selections form a forest.** -/
theorem forest_of_entrance (E : Entrance width (Dead nodes hn c live) entry B) {first : List NodeID}
    (hfirst : ∀ b, b ∈ first ↔ Member nodes hn c live entry b) (hfirstNodup : first.Nodup)
    (hstarter : ¬ Member nodes hn c live B starter) :
    Relay.Forest (forwardTo nodes width c live) starter first (Member nodes hn c live B)
      fun y => position nodes c (nodes.idxOf y) where
  starter := hstarter
  first_mem := by
    intro b hb
    obtain ⟨r, hr, hb, hlive, hentry⟩ := (hfirst b).mp hb
    exact ⟨r, hr, hb, hlive, E.entry_mem r hentry⟩
  first_nodup := hfirstNodup
  next_mem := by
    rintro _ b ⟨p, hp, rfl, _, hB⟩ hb
    obtain ⟨r, hr, hb, hlive, hpath⟩ := (mem_forwardTo hn hnodup hc hw hp).mp hb
    exact ⟨r, hr, hb, hlive, E.closed p r hB hpath⟩
  next_nodup := by
    rintro _ ⟨p, hp, rfl, _, _⟩
    rw [forwardTo, selectNodes_member hn hnodup hc hp]
    exact (topologyOf_eq hn width _).1.nodup_children hn hw hnodup p
  rank_lt := by
    rintro _ b ⟨p, hp, rfl, _, _⟩ hb
    obtain ⟨r, hr, rfl, -, hpath⟩ := (mem_forwardTo hn hnodup hc hw hp).mp hb
    have hrank : ∀ e < nodes.length, position nodes c (nodes.idxOf (nodeAt nodes hn c e)) = e := by
      intro e he
      have hindex : nodes.idxOf (nodeAt nodes hn c e) < nodes.length := List.idxOf_lt_length_iff.mpr (nodeAt_mem hn e)
      apply nodeAt_inj hn hnodup (position_lt hn _) he
      rw [nodeAt_position hn hc hindex]
      exact List.getElem_idxOf hindex
    rw [hrank p hp, hrank r hr]
    exact hpath.lt
  parent_unique := by
    rintro _ _ b ⟨p, hp, rfl, hlive, _⟩ ⟨p', hp', rfl, hlive', _⟩ hb hb'
    obtain ⟨r, hr, rfl, -, hpath⟩ := (mem_forwardTo hn hnodup hc hw hp).mp hb
    obtain ⟨r', hr', heq, -, hpath'⟩ := (mem_forwardTo hn hnodup hc hw hp').mp hb'
    obtain rfl := nodeAt_inj hn hnodup hr' hr heq
    rw [hpath.unique hpath' (not_not.mpr hlive) (not_not.mpr hlive')]
  first_only := by
    rintro _ b ⟨p, hp, rfl, hlive, hB⟩ hb hmem
    obtain ⟨r, hr, rfl, -, hpath⟩ := (mem_forwardTo hn hnodup hc hw hp).mp hb
    obtain ⟨r', hr', heq, -, hentry⟩ := (hfirst _).mp hmem
    obtain rfl := nodeAt_inj hn hnodup hr' hr heq
    exact E.only p r' hentry hB (not_not.mpr hlive) hpath

theorem reached_of_entrance (E : Entrance width (Dead nodes hn c live) entry B) {first : List NodeID}
    (hfirst : ∀ b, b ∈ first ↔ Member nodes hn c live entry b) {r : Nat} (hr : r < nodes.length)
    (hlive : nodeAt nodes hn c r ∈ live) (hB : B r) :
    Reached (forwardTo nodes width c live) first (nodeAt nodes hn c r) := by
  induction r using Nat.strong_induction_on with
  | _ r ih =>
    obtain hentry | ⟨q, hq, hBq, hpath⟩ := E.origin r hB
    · exact .first ((hfirst _).mpr ⟨r, hr, rfl, hlive, hentry⟩)
    · have hlt := hpath.lt
      refine .next (ih q hlt (by omega) (not_not.mp hq) hBq) ?_
      exact (mem_forwardTo hn hnodup hc hw (by omega)).mpr ⟨r, hr, rfl, hlive, hpath⟩

/-! ### The starter -/

omit [DecidableEq NodeID] hnodup hc hw in
theorem nodeAt_root : nodeAt nodes hn c 0 = nodes.get ⟨c % nodes.length, Nat.mod_lt _ hn⟩ := by
  rw [nodeAt]
  congr 2
  rw [Nat.zero_add]

/-- **Where a starter's messages come in.** -/
theorem start_entrance (hlive : starter ∈ live) (hstarter : starter = nodes.get ⟨c, hc⟩ ∨ starter ∉ nodes) :
    ∃ entry B, Entrance width (Dead nodes hn c live) entry B
      ∧ (∀ b, b ∈ startTo nodes width c live starter ↔ Member nodes hn c live entry b)
      ∧ (startTo nodes width c live starter).Nodup ∧ ¬ Member nodes hn c live B starter
      ∧ (starter ∈ nodes → ∃ p < nodes.length, nodeAt nodes hn c p = starter ∧ entry = Path width (Dead nodes hn c live) p)
      ∧ ((∀ x ∈ nodes, x ∈ live → x ≠ starter → Member nodes hn c live B x)
        ↔ nodes.get ⟨c, hc⟩ ∈ live ∨ AllBelow nodes width c live) := by
  have hroot : nodeAt nodes hn c 0 = nodes.get ⟨c, hc⟩ := by
    rw [nodeAt_root]
    congr 2
    exact Nat.mod_eq_of_lt hc
  by_cases hmem : starter ∈ nodes
  · -- the node at the root starts
    obtain rfl : starter = nodeAt nodes hn c 0 := by
      rw [hroot]
      exact hstarter.resolve_right (not_not.mpr hmem)
    refine ⟨Path width (Dead nodes hn c live) 0, Below width 0, entrance_below 0, ?_, ?_, ?_, ?_, ?_⟩
    · intro b
      rw [startTo, selectNodes_member hn hnodup hc hn, mem_children_live hn hw (nodeAt_ne hn hnodup hn)]
    · rw [startTo, selectNodes_member hn hnodup hc hn]
      exact (topologyOf_eq hn width _).1.nodup_children hn hw hnodup 0
    · rintro ⟨r, hr, heq, -, hbelow⟩
      exact nodeAt_ne hn hnodup hn r hr hbelow.lt heq
    · exact fun _ => ⟨0, hn, rfl, rfl⟩
    · refine iff_of_true ?_ (Or.inl (hroot ▸ hlive))
      intro x hx hxlive hne
      obtain ⟨r, hr, rfl⟩ := exists_position hn hc hx
      rcases Nat.eq_zero_or_pos r with rfl | hpos
      · exact absurd rfl hne
      · exact ⟨r, hr, rfl, hxlive, below_root hpos⟩
  · -- a node outside the list starts
    have hindex := getNodeIndexByNodeId_of_not_mem hmem
    obtain ⟨hknows, hown⟩ := topologyOf_eq hn width starter
    have houtside : ∀ e < nodes.length, nodeAt nodes hn c e ≠ starter := fun e _ heq => hmem (heq ▸ nodeAt_mem hn e)
    have hselect : startTo nodes width c live starter = if nodes.get ⟨c, hc⟩ ∈ live then [nodes.get ⟨c, hc⟩]
        else (topologyOf nodes width starter).recursiveSelectChildNodes c (live.erase starter) c := by
      have hnot : nodes.get ⟨c, hc⟩ ≠ starter := hroot ▸ houtside 0 hn
      rw [startTo, TreeTopology.selectNodes, hown, hindex, if_pos (by decide), if_neg (by decide),
        TreeTopology.getNodeIDByIndex, hknows.nodes_eq, List.getElem?_eq_getElem hc]
      simp only [Finset.mem_erase, List.get_eq_getElem]
      rw [List.get_eq_getElem] at hnot
      simp only [ne_eq, hnot, not_false_eq_true, true_and]
    by_cases hrootLive : nodes.get ⟨c, hc⟩ ∈ live
    · rw [hselect, if_pos hrootLive]
      have hnotDead : ¬ Dead nodes hn c live 0 := by
        rw [Dead, hroot]
        exact not_not.mpr hrootLive
      refine ⟨(· = 0), fun _ => True, entrance_root hnotDead, ?_, List.nodup_singleton _, ?_, ?_, ?_⟩
      · intro b
        rw [List.mem_singleton, ← hroot]
        constructor
        · rintro rfl
          exact ⟨0, hn, rfl, not_not.mp hnotDead, rfl⟩
        · rintro ⟨r, hr, rfl, -, rfl⟩
          rfl
      · rintro ⟨r, hr, heq, -⟩
        exact houtside r hr heq
      · exact fun h => absurd h hmem
      · refine iff_of_true ?_ (Or.inl hrootLive)
        intro x hx hxlive _
        obtain ⟨r, hr, rfl⟩ := exists_position hn hc hx
        exact ⟨r, hr, rfl, hxlive, trivial⟩
    · rw [hselect, if_neg hrootLive]
      refine ⟨Path width (Dead nodes hn c live) c, Below width c, entrance_below c, ?_, ?_, ?_, ?_, ?_⟩
      · intro b
        rw [mem_children_live hn hw (fun e he _ => houtside e he)]
      · exact hknows.nodup_children hn hw hnodup c
      · rintro ⟨r, hr, heq, -⟩
        exact houtside r hr heq
      · exact fun h => absurd h hmem
      · rw [or_iff_right hrootLive]
        constructor
        · intro hcover k hk hklive
          obtain ⟨r, hr, heq, -, hbelow⟩ := hcover _ (List.get_mem nodes ⟨k, hk⟩) hklive
            (fun heq => hmem (heq ▸ List.get_mem nodes ⟨k, hk⟩))
          rw [← nodeAt_position hn hc hk] at heq
          rw [← nodeAt_inj hn hnodup hr (position_lt hn k) heq]
          exact hbelow
        · intro hbelow x hx hxlive _
          obtain ⟨k, hk, rfl⟩ := List.getElem_of_mem hx
          exact ⟨position nodes c k, position_lt hn k, nodeAt_position hn hc hk, hxlive, hbelow k hk hxlive⟩

end selections

/-- **Tree broadcast.**  No run delivers more messages than there are nodes.
    Every run whose messages are all delivered spans the live nodes exactly when
    the root of the tree is live or every live node is below position `c`. -/
theorem tree_broadcast (nodes : List NodeID) (width c : Nat) (live : Finset NodeID) (starter : NodeID)
    (hnodup : nodes.Nodup) (hw : 0 < width) (hc : c < nodes.length) (hlive : starter ∈ live)
    (hstarter : starter = nodes.get ⟨c, hc⟩ ∨ starter ∉ nodes) :
    (∀ ks, (relay (forwardTo nodes width c live)).RunOk Delivers
        (begin starter (startTo nodes width c live starter)) ks → ks.length ≤ nodes.length)
      ∧ ((∀ ks, (broadcast nodes width c live starter ks).inFlight = [] →
          Spans nodes width c live starter (broadcast nodes width c live starter ks).sent)
        ↔ nodes.get ⟨c, hc⟩ ∈ live ∨ AllBelow nodes width c live) := by
  have hn : 0 < nodes.length := lt_of_le_of_lt (Nat.zero_le c) hc
  obtain ⟨entry, B, E, hfirst, hfirstNodup, houtside, hentry, hcover⟩ :=
    start_entrance hn hnodup hc hw hlive hstarter
  have F := forest_of_entrance hn hnodup hc hw E hfirst hfirstNodup houtside
  have hmembers : ∀ b, Member nodes hn c live B b → b ∈ nodes.toFinset := by
    rintro _ ⟨r, _, rfl, _⟩
    exact List.mem_toFinset.mpr (nodeAt_mem hn r)
  rw [← hcover]
  refine ⟨?_, ?_, ?_⟩
  · intro ks hks
    have hle := delivered_le F hmembers hks
    rwa [List.toFinset_card_of_nodup hnodup] at hle
  · intro hspans x hx hxlive hne
    obtain ⟨ks, hquiet⟩ := exists_quiet F hmembers
    obtain ⟨sender, hsent, -⟩ := hspans ks hquiet x hx hxlive hne
    have hmem : (sender, x) ∈ (broadcast nodes width c live starter ks).sent := by
      apply List.mem_of_mem_filter
      rw [hsent]
      exact List.mem_singleton_self _
    exact F.reached ((passed_run F ks).reached _ hmem)
  · intro hcovered ks hquiet x hx hxlive hne
    obtain ⟨r, hr, rfl, -, hB⟩ := hcovered x hx hxlive hne
    have hpassed : Passed _ _ _ _ (broadcast nodes width c live starter ks) := passed_run F ks
    have hreached := reached_of_entrance hn hnodup hc hw E hfirst hr hxlive hB
    obtain ⟨sender, hsent⟩ := exists_message (hpassed.sent_once F hquiet hreached)
    refine ⟨sender, hsent, ?_⟩
    intro hsender
    have hmem : (sender, nodeAt nodes hn c r) ∈ (broadcast nodes width c live starter ks).sent := by
      apply List.mem_of_mem_filter
      rw [hsent]
      exact List.mem_singleton_self _
    obtain ⟨hfrom, hmessage⟩ | ⟨⟨q, hq, hfrom, hqlive, _⟩, hnext⟩ := hpassed.sends _ hmem
    · obtain ⟨p, hp, hroot, rfl⟩ := hentry ((show sender = starter from hfrom) ▸ hsender)
      obtain ⟨r', hr', heq, -, hpath⟩ := (hfirst _).mp hmessage
      obtain rfl := nodeAt_inj hn hnodup hr' hr heq
      rw [show sender = starter from hfrom, ← hroot]
      exact selectParent_of_path hn hnodup hc hp hr (hroot ▸ hlive) hpath
    · dsimp only at hfrom hqlive hnext
      rw [← hfrom] at hnext hqlive ⊢
      obtain ⟨r', hr', heq, -, hpath⟩ := (mem_forwardTo hn hnodup hc hw hq).mp hnext
      obtain rfl := nodeAt_inj hn hnodup hr' hr heq
      exact selectParent_of_path hn hnodup hc hq hr hqlive hpath

/-- Five nodes in a binary tree rooted at the second one, where the third is
    not live. -/
theorem tree_broadcast_small :
    (∀ ks, (relay (forwardTo [1, 2, 3, 4, 5] 2 1 {1, 2, 4, 5})).RunOk Delivers
        (begin 2 (startTo [1, 2, 3, 4, 5] 2 1 {1, 2, 4, 5} 2)) ks → ks.length ≤ [1, 2, 3, 4, 5].length)
      ∧ ((∀ ks, (broadcast [1, 2, 3, 4, 5] 2 1 {1, 2, 4, 5} 2 ks).inFlight = [] →
          Spans [1, 2, 3, 4, 5] 2 1 {1, 2, 4, 5} 2 (broadcast [1, 2, 3, 4, 5] 2 1 {1, 2, 4, 5} 2 ks).sent)
        ↔ [1, 2, 3, 4, 5].get ⟨1, by decide⟩ ∈ ({1, 2, 4, 5} : Finset Nat)
          ∨ AllBelow [1, 2, 3, 4, 5] 2 1 {1, 2, 4, 5}) :=
  tree_broadcast [1, 2, 3, 4, 5] 2 1 {1, 2, 4, 5} 2 (by decide) (by decide) (by decide) (by decide) (by decide)

/-- An outside starter whose tree has a root that is not live sends nothing. -/
theorem outside_starter_silent :
    ¬ ∀ ks, (broadcast [1, 2, 3, 4] 3 1 {1, 3, 4, 9} 9 ks).inFlight = [] →
      Spans [1, 2, 3, 4] 3 1 {1, 3, 4, 9} 9 (broadcast [1, 2, 3, 4] 3 1 {1, 3, 4, 9} 9 ks).sent := by
  intro h
  obtain ⟨sender, hsent, -⟩ := h [] (by decide) 1 (by decide) (by decide) (by decide)
  have hnone : (broadcast [1, 2, 3, 4] 3 1 {1, 3, 4, 9} 9 []).sent = [] := by decide
  rw [hnone] at hsent
  cases hsent

end HieraChain.Tree
