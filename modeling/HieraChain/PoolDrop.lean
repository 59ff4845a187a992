/-
  HieraChain/PoolDrop.lean
  ========================
  **Which transactions of a block leave the pool.**

  `dropBlockTrans` removes by `original_hash`, which `insert` alone writes; the
  index, the filter and the callers go by `hash`.  A block that was decoded has
  objects of its own, without an original hash, so that nothing of it leaves
  the pool (`decoded_block_stays`).  `committed_leave_iff` says for every
  reachable pool and every block when all of it is gone after the call and its
  two tasks.
-/
import HieraChain.PoolBookkeeping

namespace HieraChain.Pool

/-! ### What is removed -/

def originalHashes (s : Books) (block : List ObjID) : List Nat :=
  block.map fun o => (s.objects o).original_hash

section Removal

variable (s : TxPool)

theorem find?_removeTrans (txHash h : Nat) : (s.removeTrans txHash).txsHash.find? h
    = if h = txHash then none else s.txsHash.find? h := by
  cases hfind : s.txsHash.find? txHash with
  | none =>
    rw [removeTrans_none hfind]
    split
    · next heq => rw [heq, hfind]
    · rfl
  | some id => rw [removeTrans_some hfind, AssocMap.find?_erase]

theorem mem_removeTrans (txHash : Nat) (n : QueueNode) : n ∈ (s.removeTrans txHash).txsQueue
    ↔ n ∈ s.txsQueue ∧ s.txsHash.find? txHash ≠ some n.id := by
  cases hfind : s.txsHash.find? txHash with
  | none => simp [removeTrans_none hfind]
  | some id =>
    rw [removeTrans_some hfind, List.mem_filter, decide_eq_true_iff, ne_eq, ne_eq, Option.some.injEq,
      eq_comm (a := id)]

theorem objects_removeTrans (txHash : Nat) : (s.removeTrans txHash).objects = s.objects := by
  cases hfind : s.txsHash.find? txHash with
  | none => rw [removeTrans_none hfind]
  | some id => rw [removeTrans_some hfind]

theorem filter_removeTrans (txHash : Nat) : (s.removeTrans txHash).txsHashFilter = s.txsHashFilter := by
  unfold TxPool.removeTrans
  split <;> rfl

end Removal

/-- After `dropTransactions` no hash of the block's original hashes is in the
    index, and no node of theirs in the queue. -/
structure Dropped (s s' : Books) (block : List ObjID) : Prop where
  objects : s'.objects = s.objects
  find : ∀ h, s'.txsHash.find? h
    = if h ∈ originalHashes s block then none else s.txsHash.find? h
  mem : ∀ n, n ∈ s'.txsQueue
    ↔ n ∈ s.txsQueue ∧ ∀ k ∈ originalHashes s block, s.txsHash.find? k ≠ some n.id

theorem dropTransactions_dropped (s : TxPool) (block : List ObjID) :
    Dropped s.toBooks (s.dropTransactions block).toBooks block := by
  induction block generalizing s with
  | nil => exact ⟨rfl, by simp [originalHashes, TxPool.dropTransactions],
      by simp [originalHashes, TxPool.dropTransactions]⟩
  | cons o block ih =>
    have hone : (s.dropOne o).objects = s.objects := objects_removeTrans s _
    have hhashes : originalHashes (s.dropOne o).toBooks block = originalHashes s.toBooks block := by
      simp only [originalHashes, hone]
    have hfind : ∀ h, (s.dropOne o).txsHash.find? h
        = if h = (s.objects o).original_hash then none else s.txsHash.find? h :=
      find?_removeTrans s _
    have hnodes : ∀ n, n ∈ (s.dropOne o).txsQueue
        ↔ n ∈ s.txsQueue ∧ s.txsHash.find? (s.objects o).original_hash ≠ some n.id :=
      mem_removeTrans s _
    have hcons : ∀ k, k ∈ originalHashes s.toBooks (o :: block)
        ↔ k = (s.objects o).original_hash ∨ k ∈ originalHashes s.toBooks block := by
      simp [originalHashes]
    obtain ⟨hobjects, hrest, hmem⟩ := ih (s.dropOne o)
    refine ⟨hobjects.trans hone, ?_, ?_⟩
    · intro h
      refine (hrest h).trans ?_
      rw [hhashes, hfind]
      by_cases heq : h = (s.objects o).original_hash
      · rw [if_pos heq, ite_self, if_pos ((hcons h).mpr (.inl heq))]
      · rw [if_neg heq]
        congr 1
        rw [hcons, or_iff_right heq]
    · intro n
      refine (hmem n).trans ?_
      rw [hhashes, hnodes, and_assoc]
      refine and_congr_right fun _ => ?_
      constructor
      · rintro ⟨hfirst, hothers⟩ k hk
        rcases (hcons k).mp hk with rfl | hk
        · exact hfirst
        · intro hsame
          refine hothers k hk ?_
          rw [hfind, if_neg]
          · exact hsame
          · rintro rfl
            exact hfirst hsame
      · intro hall
        refine ⟨hall _ ((hcons _).mpr (.inl rfl)), fun k hk hsame => ?_⟩
        rw [hfind] at hsame
        split at hsame
        · cases hsame
        · exact hall k ((hcons k).mpr (.inr hk)) hsame

theorem filter_dropTransactions (s : TxPool) (block : List ObjID) :
    (s.dropTransactions block).txsHashFilter = s.txsHashFilter := by
  induction block generalizing s with
  | nil => rfl
  | cons o block ih => exact (ih (s.dropOne o)).trans (filter_removeTrans s _)

/-! ### The call and its tasks -/

/-- `dropBlockTrans` and the tasks that it puts on the worker pool. -/
def dropBlockAndTasks (config : Config) (s : TxPool) (block : List ObjID) : TxPool :=
  ((s.dropBlockTrans config block).dropBlockTxsFilter block).removeInvalidTxs

/-- No transaction of the block is in the queue, the index or the filter. -/
def Forgotten (s : TxPool) (block : List ObjID) : Prop :=
  ∀ o ∈ block, (∀ n ∈ s.txsQueue, (s.objects n.tx).hash ≠ (s.objects o).hash)
    ∧ s.txsHash.find? (s.objects o).hash = none ∧ (s.objects o).hash ∉ s.txsHashFilter

/-- A hash of the block is an original hash of the block, or the index and the
    filter do not have it; and a queued transaction with a hash of the block is
    indexed under an original hash of the block. -/
def NamedByOriginal (s : TxPool) (block : List ObjID) : Prop :=
  ∀ o ∈ block,
    ((s.objects o).hash ∈ originalHashes s.toBooks block
      ∨ s.txsHash.find? (s.objects o).hash = none ∧ (s.objects o).hash ∉ s.txsHashFilter)
    ∧ ∀ n ∈ s.txsQueue, (s.objects n.tx).hash = (s.objects o).hash →
      ∃ k ∈ originalHashes s.toBooks block, s.txsHash.find? k = some n.id

section Tasks

variable (config : Config) {s : TxPool} (h : Linked s.toBooks) (block : List ObjID)
include h

theorem dropBlockAndTasks_dropped :
    Dropped s.toBooks (dropBlockAndTasks config s block).toBooks block := by
  obtain ⟨hobjects, hfind, hmem⟩ := dropTransactions_dropped (s.updateCache config) block
  have hinvalid : ((s.dropBlockTrans config block).dropBlockTxsFilter block).invalidTxs.entries = [] :=
    (Linked.dropTransactions (s := s.updateCache config) h block).invalid
  unfold dropBlockAndTasks
  rw [removeInvalidTxs_toBooks hinvalid]
  exact ⟨hobjects, hfind, hmem⟩

theorem mem_filter_dropBlockAndTasks (k : Nat) : k ∈ (dropBlockAndTasks config s block).txsHashFilter
    ↔ k ∈ s.txsHashFilter ∧ k ∉ originalHashes s.toBooks block := by
  have hinvalid : ((s.dropBlockTrans config block).dropBlockTxsFilter block).invalidTxs.entries = [] :=
    (Linked.dropTransactions (s := s.updateCache config) h block).invalid
  have hobjects := (dropTransactions_dropped (s.updateCache config) block).objects
  have hfilter := filter_dropTransactions (s.updateCache config) block
  have htask : ((s.dropBlockTrans config block).dropBlockTxsFilter block).txsHashFilter
      = s.txsHashFilter.filter fun k => k ∉ originalHashes s.toBooks block := by
    simp only [TxPool.dropBlockTxsFilter, TxPool.dropBlockTrans, hobjects, hfilter]
    rfl
  simp only [dropBlockAndTasks, TxPool.removeInvalidTxs, hinvalid, List.foldl_nil, List.map_nil,
    List.not_mem_nil, not_false_eq_true, Finset.filter_true, htask, Finset.mem_filter]

theorem forgotten_iff : Forgotten (dropBlockAndTasks config s block) block ↔ NamedByOriginal s block := by
  obtain ⟨hobjects, hfind, hmem⟩ := dropBlockAndTasks_dropped config h block
  have hfilter := mem_filter_dropBlockAndTasks config h block
  refine forall_congr' fun o => imp_congr_right fun _ => ?_
  rw [hobjects, hfind, hfilter]
  constructor
  · rintro ⟨hqueue, hindex, hnot⟩
    refine ⟨?_, fun n hn hhash => ?_⟩
    · by_cases hin : (s.objects o).hash ∈ originalHashes s.toBooks block
      · exact .inl hin
      · rw [if_neg hin] at hindex
        exact .inr ⟨hindex, fun hmem => hnot ⟨hmem, hin⟩⟩
    · by_contra hnone
      push Not at hnone
      exact hqueue n ((hmem n).mpr ⟨hn, hnone⟩) hhash
  · rintro ⟨hnamed, hindexed⟩
    refine ⟨fun n hn hhash => ?_, ?_, ?_⟩
    · obtain ⟨hn, hnone⟩ := (hmem n).mp hn
      obtain ⟨k, hk, hkey⟩ := hindexed n hn hhash
      exact hnone k hk hkey
    · split
      · rfl
      · next hin => exact (hnamed.resolve_left hin).1
    · rintro ⟨hmem, hin⟩
      exact (hnamed.resolve_left hin).2 hmem

end Tasks

/-- **A block leaves the pool exactly when its original hashes name it.**  For
    every reachable pool and every block. -/
theorem committed_leave_iff (config : Config) (objects : ObjID → Transaction) (chain : List (List Nat))
    (inputs : List Input) (block : List ObjID) :
    let s := (poolMachine config).run (TxPool.start config objects chain) inputs
    Forgotten (dropBlockAndTasks config s block) block ↔ NamedByOriginal s block := by
  intro s
  have hlinked : Linked s.toBooks :=
    (poolMachine config).run_preserves (fun s i => Linked.step s i)
      (start_books config objects chain).1 inputs
  exact forgotten_iff config hlinked block

/-- Object 2 is decoded from the bytes of object 1, which is in the pool. -/
theorem decoded_block_stays :
    let s := (poolMachine { chainId := 1 }).run smallPool
      [.importTx 1 1 0, .touch 2 ⟨1, 1, 3, true, 1⟩]
    (s.objects 2).hash = 1 ∧ (dropBlockAndTasks { chainId := 1 } s [2]).txsHash.find? 1 = some 0
      ∧ 1 ∈ (dropBlockAndTasks { chainId := 1 } s [2]).txsHashFilter
      ∧ ¬ Forgotten (dropBlockAndTasks { chainId := 1 } s [2]) [2] := by
  intro s
  have hindex : (dropBlockAndTasks { chainId := 1 } s [2]).txsHash.find? 1 = some 0 := by decide +kernel
  refine ⟨by decide +kernel, hindex, by decide +kernel, fun hforgotten => ?_⟩
  have hnone := (hforgotten 2 (by simp)).2.1
  revert hnone
  decide +kernel

end HieraChain.Pool
