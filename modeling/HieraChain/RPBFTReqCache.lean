/-
  HieraChain/RPBFTReqCache.lean
  =============================
  **The status of the raw prepares of other nodes**
  (`libconsensus/rotating_pbft/RPBFTReqCache.cpp`).

  One map keeps the status of each node, the other one the nodes of each block
  hash; the missing transactions of a block are asked from a node of its hash.

  `std::map::insert` keeps the value of a key that is there.  So the first status
  of a node stays its record, while the nodes of the first hash are erased and the
  node joins the nodes of the new hash: the maps agree exactly as long as no node
  has a second status accepted (`consistent_run_iff`).
-/
import HieraChain.AssocMap
import HieraChain.Machine
import HieraChain.PBFTCommon
import HieraChain.SortedMap

namespace HieraChain

open HieraChain.PBFT

/-- `std::set<h512>`, in the order of its elements. -/
abbrev NodeSet (N : Type) [LinearOrder N] := SortedMap N Unit

structure RPBFTReqCache (N H S : Type) [LinearOrder N] where
  nodeIDToPrepareStatus : AssocMap N (PBFTMsg H S) := .empty
  prepareHashToNodeID : AssocMap H (NodeSet N) := .empty

namespace RPBFTReqCache

variable {N H S : Type} [LinearOrder N] [DecidableEq H]

/-! ### The cache -/

def checkRawPrepareStatus (cached : Option (PBFTMsg H S)) (received : PBFTMsg H S) : Bool :=
  match cached with
  | none => true
  | some cached =>
    if cached.height > received.height then false
    else if cached.height = received.height ∧ cached.view ≥ received.view then false
    else true

def updateRawPrepareStatusCache (c : RPBFTReqCache N H S) (nodeId : N) (received : PBFTMsg H S) :
    RPBFTReqCache N H S :=
  let record := c.nodeIDToPrepareStatus.find? nodeId
  if checkRawPrepareStatus record received then
    let erased :=
      match record with
      | some cached => c.prepareHashToNodeID.erase cached.blockHash
      | none => c.prepareHashToNodeID
    { nodeIDToPrepareStatus :=
        if c.nodeIDToPrepareStatus.contains nodeId then c.nodeIDToPrepareStatus
        else c.nodeIDToPrepareStatus.insert nodeId received
      prepareHashToNodeID :=
        erased.insert received.blockHash (((erased.find? received.blockHash).getD .empty).insert nodeId ()) }
  else c

def nodesOf (c : RPBFTReqCache N H S) (hash : H) : NodeSet N := (c.prepareHashToNodeID.find? hash).getD .empty

/-- `noNode` is `h512()`, and `rand` what `std::rand` gives. -/
def selectRequiredNodeToRequestTxs (noNode : N) (c : RPBFTReqCache N H S) (expectedNodeID : N) (hash : H)
    (rand : Nat) : N :=
  let nodes := c.nodesOf hash
  if nodes.size = 0 then noNode
  else if nodes.contains expectedNodeID then expectedNodeID
  else nodes.keys.getD (rand % nodes.size) noNode

/-! ### The newest accepted statuses -/

/-- The cache, and for each node the newest status that was accepted from it. -/
structure Tracked (N H S : Type) [LinearOrder N] where
  cache : RPBFTReqCache N H S := {}
  newest : N → Option (PBFTMsg H S) := fun _ => none

/-- The calls of `updateRawPrepareStatusCache`. -/
def updates : Machine (Tracked N H S) (N × PBFTMsg H S) where
  step t call :=
    { cache := t.cache.updateRawPrepareStatusCache call.1 call.2
      newest :=
        if checkRawPrepareStatus (t.newest call.1) call.2 then Function.update t.newest call.1 (some call.2)
        else t.newest }

def Announced (c : RPBFTReqCache N H S) (hash : H) (nodeId : N) : Prop :=
  ∃ status, c.nodeIDToPrepareStatus.find? nodeId = some status ∧ status.blockHash = hash

structure Consistent (noNode : N) (t : Tracked N H S) : Prop where
  records : ∀ nodeId, t.cache.nodeIDToPrepareStatus.find? nodeId = t.newest nodeId
  nodes : ∀ hash nodeId, nodeId ∈ (t.cache.nodesOf hash).keys ↔ t.cache.Announced hash nodeId
  selected : ∀ expected hash rand nodeId,
    t.cache.selectRequiredNodeToRequestTxs noNode expected hash rand = nodeId → nodeId ≠ noNode →
      t.cache.Announced hash nodeId
  finds : ∀ expected hash rand, (∃ nodeId, t.cache.Announced hash nodeId) →
    t.cache.selectRequiredNodeToRequestTxs noNode expected hash rand ≠ noNode

def Ok (noNode : N) (t : Tracked N H S) (call : N × PBFTMsg H S) : Prop :=
  checkRawPrepareStatus (t.cache.nodeIDToPrepareStatus.find? call.1) call.2 →
    t.cache.nodeIDToPrepareStatus.find? call.1 = none ∧ call.1 ≠ noNode

omit [DecidableEq H] in
theorem not_check_self (status : PBFTMsg H S) : checkRawPrepareStatus (some status) status = false := by
  simp [checkRawPrepareStatus]

instance (noNode : N) (t : Tracked N H S) (call : N × PBFTMsg H S) : Decidable (Ok noNode t call) :=
  inferInstanceAs (Decidable (_ → _ ∧ _))

section proofs

variable {noNode : N} {c : RPBFTReqCache N H S} {t : Tracked N H S}

theorem size_eq_zero_iff {m : NodeSet N} : m.size = 0 ↔ m.keys = [] := by
  rw [SortedMap.size, SortedMap.keys, List.length_eq_zero_iff, List.map_eq_nil_iff]

theorem contains_iff_mem {m : NodeSet N} {nodeId : N} : m.contains nodeId = true ↔ nodeId ∈ m.keys := by
  rw [SortedMap.mem_keys_iff, SortedMap.contains, Option.isSome_iff_exists]

theorem select_mem (expected : N) {hash : H} (rand : Nat) (h : (c.nodesOf hash).keys ≠ []) :
    c.selectRequiredNodeToRequestTxs noNode expected hash rand ∈ (c.nodesOf hash).keys := by
  unfold selectRequiredNodeToRequestTxs
  have hsize : (c.nodesOf hash).size ≠ 0 := fun hzero => h (size_eq_zero_iff.mp hzero)
  rw [if_neg hsize]
  by_cases hexpected : (c.nodesOf hash).contains expected = true
  · rw [if_pos hexpected]
    exact contains_iff_mem.mp hexpected
  · rw [if_neg hexpected]
    have hlt : rand % (c.nodesOf hash).size < (c.nodesOf hash).keys.length := by
      rw [SortedMap.keys, List.length_map]
      exact Nat.mod_lt _ (Nat.pos_of_ne_zero hsize)
    rw [List.getD_eq_getElem?_getD, List.getElem?_eq_getElem hlt, Option.getD_some]
    exact List.getElem_mem hlt

theorem select_none (expected : N) {hash : H} (rand : Nat) (h : (c.nodesOf hash).keys = []) :
    c.selectRequiredNodeToRequestTxs noNode expected hash rand = noNode := by
  unfold selectRequiredNodeToRequestTxs
  rw [if_pos (size_eq_zero_iff.mpr h)]

theorem select_expected {expected : N} {hash : H} (rand : Nat) (h : expected ∈ (c.nodesOf hash).keys) :
    c.selectRequiredNodeToRequestTxs noNode expected hash rand = expected := by
  unfold selectRequiredNodeToRequestTxs
  have hsize : (c.nodesOf hash).size ≠ 0 := fun hzero => List.ne_nil_of_mem h (size_eq_zero_iff.mp hzero)
  rw [if_neg hsize, if_pos (contains_iff_mem.mpr h)]

theorem consistent_iff : Consistent noNode t ↔
    (∀ nodeId, t.cache.nodeIDToPrepareStatus.find? nodeId = t.newest nodeId)
      ∧ (∀ hash nodeId, nodeId ∈ (t.cache.nodesOf hash).keys ↔ t.cache.Announced hash nodeId)
      ∧ t.cache.nodeIDToPrepareStatus.find? noNode = none := by
  constructor
  · intro h
    refine ⟨h.records, h.nodes, ?_⟩
    cases hrecord : t.cache.nodeIDToPrepareStatus.find? noNode with
    | none => rfl
    | some status =>
      have hannounced : t.cache.Announced status.blockHash noNode := ⟨status, hrecord, rfl⟩
      have hfinds := h.finds noNode status.blockHash 0 ⟨noNode, hannounced⟩
      exact absurd (select_expected 0 ((h.nodes _ _).mpr hannounced)) hfinds
  · rintro ⟨hrecords, hnodes, hnone⟩
    have hnot : ∀ hash, ¬ t.cache.Announced hash noNode := by
      rintro hash ⟨status, hstatus, -⟩
      rw [hnone] at hstatus
      cases hstatus
    refine ⟨hrecords, hnodes, fun expected hash rand nodeId hselect hne => ?_, fun expected hash rand hexists => ?_⟩
    · by_cases hkeys : (t.cache.nodesOf hash).keys = []
      · exact absurd (hselect.symm.trans (select_none expected rand hkeys)) hne
      · rw [← hselect]
        exact (hnodes _ _).mp (select_mem expected rand hkeys)
    · obtain ⟨nodeId, hannounced⟩ := hexists
      have hkeys := List.ne_nil_of_mem ((hnodes _ _).mpr hannounced)
      intro hselect
      have hmem := @select_mem _ _ _ _ _ noNode t.cache expected hash rand hkeys
      rw [hselect] at hmem
      exact hnot hash ((hnodes _ _).mp hmem)

theorem update_refused {nodeId : N} {received : PBFTMsg H S}
    (h : ¬ checkRawPrepareStatus (c.nodeIDToPrepareStatus.find? nodeId) received = true) :
    c.updateRawPrepareStatusCache nodeId received = c := if_neg h

theorem update_first {nodeId : N} (received : PBFTMsg H S) (h : c.nodeIDToPrepareStatus.find? nodeId = none) :
    (∀ n, (c.updateRawPrepareStatusCache nodeId received).nodeIDToPrepareStatus.find? n
        = if n = nodeId then some received else c.nodeIDToPrepareStatus.find? n)
      ∧ ∀ hash n, n ∈ ((c.updateRawPrepareStatusCache nodeId received).nodesOf hash).keys
        ↔ hash = received.blockHash ∧ n = nodeId ∨ n ∈ (c.nodesOf hash).keys := by
  have hcontains : c.nodeIDToPrepareStatus.contains nodeId = false := by
    rw [AssocMap.contains, h]
    rfl
  have hupdate : c.updateRawPrepareStatusCache nodeId received =
      { nodeIDToPrepareStatus := c.nodeIDToPrepareStatus.insert nodeId received
        prepareHashToNodeID :=
          c.prepareHashToNodeID.insert received.blockHash ((c.nodesOf received.blockHash).insert nodeId ()) } := by
    simp [updateRawPrepareStatusCache, h, hcontains, checkRawPrepareStatus, nodesOf]
  rw [hupdate]
  refine ⟨fun n => AssocMap.find?_insert .., fun hash n => ?_⟩
  rw [nodesOf, AssocMap.find?_insert]
  by_cases hhash : hash = received.blockHash
  · rw [if_pos hhash, Option.getD_some, SortedMap.mem_keys_iff, SortedMap.mem_keys_iff, hhash, and_iff_right rfl,
      SortedMap.find?_insert]
    by_cases hn : n = nodeId
    · simp [hn]
    · simp [hn]
  · rw [if_neg hhash, ← nodesOf]
    exact (or_iff_right fun hboth => hhash hboth.1).symm

theorem update_second {nodeId : N} {received status : PBFTMsg H S}
    (h : c.nodeIDToPrepareStatus.find? nodeId = some status) (haccepted : checkRawPrepareStatus (some status) received) :
    (c.updateRawPrepareStatusCache nodeId received).nodeIDToPrepareStatus = c.nodeIDToPrepareStatus := by
  have hcontains : c.nodeIDToPrepareStatus.contains nodeId = true := by
    rw [AssocMap.contains, h]
    rfl
  simp [updateRawPrepareStatusCache, h, hcontains, haccepted]

theorem consistent_step_iff (h : Consistent noNode t) (call : N × PBFTMsg H S) :
    Consistent noNode (updates.step t call) ↔ Ok noNode t call := by
  obtain ⟨nodeId, received⟩ := call
  have hrecords := h.records
  have hnoNode := (consistent_iff.mp h).2.2
  by_cases haccepted : checkRawPrepareStatus (t.cache.nodeIDToPrepareStatus.find? nodeId) received = true
  · cases hrecord : t.cache.nodeIDToPrepareStatus.find? nodeId with
    | none =>
      obtain ⟨hfind, hkeys⟩ := update_first received hrecord
      have hok : Ok noNode t (nodeId, received) ↔ nodeId ≠ noNode := by
        rw [Ok]
        simp only [hrecord, checkRawPrepareStatus, true_and, forall_const]
      rw [hok, consistent_iff]
      constructor
      · rintro ⟨-, -, hnone⟩ heq
        have hself := hfind noNode
        rw [if_pos heq.symm] at hself
        have hcontra : some received = none := hself.symm.trans hnone
        cases hcontra
      · intro hne
        refine ⟨fun n => ?_, fun hash n => ?_, ?_⟩
        · have hnewest : checkRawPrepareStatus (t.newest nodeId) received = true := hrecords nodeId ▸ haccepted
          have hstep : (updates.step t (nodeId, received)).newest = Function.update t.newest nodeId (some received) :=
            if_pos hnewest
          rw [hstep, Function.update_apply, ← hrecords n]
          exact hfind n
        · have hannounced : (updates.step t (nodeId, received)).cache.Announced hash n
              ↔ hash = received.blockHash ∧ n = nodeId ∨ t.cache.Announced hash n := by
            have hfind' : (updates.step t (nodeId, received)).cache.nodeIDToPrepareStatus.find? n
                = if n = nodeId then some received else t.cache.nodeIDToPrepareStatus.find? n := hfind n
            rw [Announced, Announced, hfind']
            by_cases hn : n = nodeId
            · subst hn
              simp [hrecord, eq_comm]
            · simp [hn]
          rw [hannounced, ← h.nodes]
          exact hkeys hash n
        · have hfindNone := hfind noNode
          rw [if_neg (Ne.symm hne)] at hfindNone
          exact hfindNone.trans hnoNode
    | some status =>
      rw [hrecord] at haccepted
      refine iff_of_false (fun hnext => ?_) fun hok => ?_
      · -- the record is still the first status, the newest one is the second
        have hnewest : checkRawPrepareStatus (t.newest nodeId) received = true := by
          rw [← hrecords nodeId, hrecord]
          exact haccepted
        have hstep : (updates.step t (nodeId, received)).newest nodeId = some received := by
          show (if _ then _ else _ : N → Option (PBFTMsg H S)) nodeId = _
          rw [if_pos hnewest, Function.update_self]
        have hkept : (updates.step t (nodeId, received)).cache.nodeIDToPrepareStatus.find? nodeId = some status :=
          (congrArg (fun m : AssocMap N (PBFTMsg H S) => m.find? nodeId) (update_second hrecord haccepted)).trans hrecord
        have heq : status = received := Option.some.inj (hkept.symm.trans ((hnext.records nodeId).trans hstep))
        rw [heq, not_check_self] at haccepted
        cases haccepted
      · have hfirst := (hok (hrecord ▸ haccepted)).1
        rw [hrecord] at hfirst
        cases hfirst
  · have hnewest : ¬ checkRawPrepareStatus (t.newest nodeId) received = true := hrecords nodeId ▸ haccepted
    have hsame : updates.step t (nodeId, received) = t := by
      show Tracked.mk _ (if _ then _ else _) = t
      rw [if_neg hnewest, update_refused haccepted]
    rw [hsame]
    exact iff_of_true h fun hbad => absurd hbad haccepted

end proofs

theorem consistent_empty (noNode : N) : Consistent noNode ({} : Tracked N H S) := by
  rw [consistent_iff]
  refine ⟨fun _ => rfl, fun hash n => iff_of_false (List.not_mem_nil) ?_, rfl⟩
  rintro ⟨status, hstatus, -⟩
  cases hstatus

/-- The maps are consistent after each call exactly when no node has a second
    status accepted. -/
theorem consistent_run_iff (noNode : N) (calls : List (N × PBFTMsg H S)) :
    (∀ k, Consistent noNode (updates.run {} (calls.take k))) ↔ updates.RunOk (Ok noNode) {} calls := by
  have hinv : ∀ (t : Tracked N H S) (call : N × PBFTMsg H S), True → True := fun _ _ h => h
  exact updates.forall_take_iff (P := Consistent noNode) hinv (fun _ call _ h => consistent_step_iff h call) calls
    trivial (consistent_empty noNode)

/-- A status of height `height` about the block `hash`. -/
def statusOf (height : Int) (hash : Nat) : PBFTMsg Nat Unit where
  height
  view := 0
  blockHash := hash
  sig := ()
  sig2 := ()

/-- Three nodes announce two blocks, and one of them an older block again. -/
theorem consistent_run_three : ∀ k, Consistent 0 (updates.run {}
    ([(1, statusOf 5 70), (2, statusOf 5 70), (3, statusOf 5 71), (1, statusOf 4 72)].take k)) := by
  exact (consistent_run_iff 0 _).mpr (by decide)

/-- A second block of one node is found at it, while its record is about the first
    one, and the other node of the first block is lost. -/
theorem second_status_inconsistent :
    ¬ Consistent 0 (updates.run {} [(1, statusOf 5 70), (2, statusOf 5 70), (1, statusOf 6 71)]) := by
  intro h
  have hlost := (h.nodes 70 2).mpr ⟨statusOf 5 70, by decide, by decide⟩
  revert hlost
  decide

end RPBFTReqCache

end HieraChain
