/-
  HieraChain/PoolNonces.lean
  ==========================
  **Which transactions a sealer gets, by their nonces.**

  The source leaves one check of four: `txPoolNonceCheck` answers true whatever
  the pool holds, and `isBlockLimitOk` answers true whatever the block limit.
  What is left are the nonces of the last `maxBlockLimit` blocks, as of the last
  `updateCache`.  They suffice (`no_replay`) while every accepted transaction
  has a nonce that no queued one has and no block before the window, no queued
  transaction or later block shares a nonce with a block that leaves the window,
  and `topTransactions` finds no queued transaction in a block that is not
  reported yet.
-/
import HieraChain.PoolDrop

namespace HieraChain.Pool

open NonceCheck

/-! ### The window of nonces -/

def NonceCheck.Faithful (chain : List (List Nat)) (c : NonceCheck) : Prop :=
  ∀ i v, c.blockNonceCache.find? i = some v → i < chain.length ∧ v = getNonces chain i

section Window

variable (maxBlockLimit : Nat) {chain : List (List Nat)} {c : NonceCheck}

theorem NonceCheck.Faithful.vec (h : c.Faithful chain) (i : Nat) :
    (c.blockNonceCache.find? i).getD (getNonces chain i) = getNonces chain i := by
  cases hfind : c.blockNonceCache.find? i with
  | none => rfl
  | some v => exact (h i v hfind).2

theorem NonceCheck.Faithful.getNonce (h : c.Faithful chain) {i : Nat} (update : Bool)
    (hi : update = true → i < chain.length) :
    (c.getNonceAndUpdateCache maxBlockLimit chain i update).1 = getNonces chain i
      ∧ ∃ kept, (c.getNonceAndUpdateCache maxBlockLimit chain i update).2 = { c with blockNonceCache := kept }
        ∧ ({ c with blockNonceCache := kept } : NonceCheck).Faithful chain := by
  unfold getNonceAndUpdateCache
  simp only [h.vec]
  split
  · next hupdate =>
    refine ⟨rfl, _, rfl, fun i' v hfind => ?_⟩
    simp only [AssocMap.find?_insert] at hfind
    split at hfind
    · next heq =>
      cases hfind
      exact ⟨heq ▸ hi hupdate.1, by rw [heq]⟩
    · exact h i' v hfind
  · exact ⟨rfl, c.blockNonceCache, rfl, h⟩

/-- The window of `c'` is that of `c`. -/
def SameWindow (c c' : NonceCheck) : Prop := c'.startblk = c.startblk ∧ c'.endblk = c.endblk

theorem expire_spec (h : c.Faithful chain) (i : Nat) :
    (expire maxBlockLimit chain c i).Faithful chain ∧ SameWindow c (expire maxBlockLimit chain c i)
      ∧ ∀ x, x ∈ (expire maxBlockLimit chain c i).cache ↔ x ∈ c.cache ∧ x ∉ getNonces chain i := by
  obtain ⟨hvec, kept, hkept, hfaithful⟩ := h.getNonce maxBlockLimit (i := i) false
    (by simp)
  unfold expire
  simp only [hvec, hkept]
  refine ⟨fun i' v hfind => ?_, ⟨rfl, rfl⟩, fun x => Finset.mem_filter⟩
  rw [AssocMap.find?_erase] at hfind
  split at hfind
  · cases hfind
  · exact hfaithful i' v hfind

theorem enter_spec (h : c.Faithful chain) {i : Nat} (hi : i < chain.length) :
    (enter maxBlockLimit chain c i).Faithful chain ∧ SameWindow c (enter maxBlockLimit chain c i)
      ∧ ∀ x, x ∈ (enter maxBlockLimit chain c i).cache ↔ x ∈ c.cache ∨ x ∈ getNonces chain i := by
  obtain ⟨hvec, kept, hkept, hfaithful⟩ := h.getNonce maxBlockLimit (i := i) true
    (fun _ => hi)
  unfold enter
  simp only [hvec, hkept]
  exact ⟨hfaithful, ⟨rfl, rfl⟩, fun x => by rw [Finset.mem_union, List.mem_toFinset]⟩

theorem foldl_expire (is : List Nat) (h : c.Faithful chain) :
    (is.foldl (expire maxBlockLimit chain) c).Faithful chain
      ∧ SameWindow c (is.foldl (expire maxBlockLimit chain) c)
      ∧ ∀ x, x ∈ (is.foldl (expire maxBlockLimit chain) c).cache
        ↔ x ∈ c.cache ∧ ∀ i ∈ is, x ∉ getNonces chain i := by
  induction is generalizing c with
  | nil => exact ⟨h, ⟨rfl, rfl⟩, by simp⟩
  | cons i is ih =>
    obtain ⟨hone, hwindow, hmem⟩ := expire_spec maxBlockLimit h i
    obtain ⟨hrest, hwindow', hmem'⟩ := ih hone
    refine ⟨hrest, ⟨hwindow'.1.trans hwindow.1, hwindow'.2.trans hwindow.2⟩, fun x => ?_⟩
    rw [List.foldl_cons, hmem', hmem, and_assoc, List.forall_mem_cons]

theorem foldl_enter (is : List Nat) (h : c.Faithful chain) (his : ∀ i ∈ is, i < chain.length) :
    (is.foldl (enter maxBlockLimit chain) c).Faithful chain
      ∧ SameWindow c (is.foldl (enter maxBlockLimit chain) c)
      ∧ ∀ x, x ∈ (is.foldl (enter maxBlockLimit chain) c).cache
        ↔ x ∈ c.cache ∨ ∃ i ∈ is, x ∈ getNonces chain i := by
  induction is generalizing c with
  | nil => exact ⟨h, ⟨rfl, rfl⟩, by simp⟩
  | cons i is ih =>
    obtain ⟨hone, hwindow, hmem⟩ := enter_spec maxBlockLimit h
      (his i List.mem_cons_self)
    obtain ⟨hrest, hwindow', hmem'⟩ := ih hone fun j hj => his j (List.mem_cons_of_mem i hj)
    refine ⟨hrest, ⟨hwindow'.1.trans hwindow.1, hwindow'.2.trans hwindow.2⟩, fun x => ?_⟩
    rw [List.foldl_cons, hmem', hmem, or_assoc, List.exists_mem_cons_iff]

end Window

def firstBlock (maxBlockLimit : Nat) (last : Nat) : Nat :=
  if last > maxBlockLimit then last - maxBlockLimit else 0

/-- The nonces of the blocks from the window's first one to its last one are in
    the cache; block zero is never read. -/
structure Covers (maxBlockLimit : Nat) (chain : List (List Nat)) (c : NonceCheck) : Prop where
  faithful : c.Faithful chain
  first : c.startblk = firstBlock maxBlockLimit c.endblk
  last : c.endblk < chain.length
  cached : ∀ j, 0 < j → c.startblk ≤ j → j ≤ c.endblk → ∀ x ∈ getNonces chain j, x ∈ c.cache

/-- No block that stays in the window shares a nonce with one that leaves it. -/
def Slides (maxBlockLimit : Nat) (chain : List (List Nat)) (c : NonceCheck) : Prop :=
  ∀ i j, c.startblk ≤ i → i < firstBlock maxBlockLimit (chain.length - 1) →
    firstBlock maxBlockLimit (chain.length - 1) ≤ j → j ≤ c.endblk →
    ∀ x ∈ getNonces chain j, x ∉ getNonces chain i

theorem mem_numbers {i j k : Nat} : k ∈ numbers i j ↔ i ≤ k ∧ k < j := by
  rw [numbers, List.mem_range'_1]
  omega

theorem Covers.updateCache {maxBlockLimit : Nat} {chain : List (List Nat)} {c : NonceCheck}
    (h : Covers maxBlockLimit chain c) (hslides : Slides maxBlockLimit chain c) :
    Covers maxBlockLimit chain (c.updateCache maxBlockLimit chain false)
      ∧ (c.updateCache maxBlockLimit chain false).startblk = firstBlock maxBlockLimit (chain.length - 1)
      ∧ (c.updateCache maxBlockLimit chain false).endblk = chain.length - 1 := by
  have hlast := h.last
  set first := firstBlock maxBlockLimit (chain.length - 1) with hfirst
  let moved : NonceCheck := { c with startblk := first, endblk := chain.length - 1 }
  obtain ⟨hfaithful, hwindow, hmem⟩ := foldl_expire maxBlockLimit (c := moved)
    (numbers c.startblk first) h.faithful
  obtain ⟨hfaithful', hwindow', hmem'⟩ := foldl_enter maxBlockLimit
    (numbers (max (c.endblk + 1) first) (chain.length - 1 + 1)) hfaithful fun i hi => by
      have := (mem_numbers.mp hi).2
      omega
  have hupdated : c.updateCache maxBlockLimit chain false
      = (numbers (max (c.endblk + 1) first) (chain.length - 1 + 1)).foldl (enter maxBlockLimit chain)
          ((numbers c.startblk first).foldl (expire maxBlockLimit chain) moved) := rfl
  rw [hupdated]
  have hstart := hwindow'.1.trans hwindow.1
  have hend := hwindow'.2.trans hwindow.2
  refine ⟨⟨hfaithful', ?_, ?_, ?_⟩, hstart, hend⟩
  · rw [hstart, hend]
  · rw [hend]
    show chain.length - 1 < chain.length
    omega
  · intro j hpos hle hge x hx
    rw [hstart] at hle
    rw [hend] at hge
    change first ≤ j at hle
    change j ≤ chain.length - 1 at hge
    rw [hmem', hmem]
    by_cases hnew : c.endblk < j
    · exact .inr ⟨j, mem_numbers.mpr (by omega), hx⟩
    · -- a block that was in the window, and no block that leaves it has its nonces
      left
      have hstartle : c.startblk ≤ first := by
        rw [h.first, hfirst]
        unfold firstBlock
        split <;> split <;> omega
      refine ⟨h.cached j hpos (by omega) (by omega) x hx, fun i hi => ?_⟩
      obtain ⟨hi, hi'⟩ := mem_numbers.mp hi
      exact hslides i j hi hi' hle (by omega) x hx

theorem getNonces_append {chain : List (List Nat)} {nonces : List Nat} {j : Nat} (h : j < chain.length) :
    getNonces (chain ++ [nonces]) j = getNonces chain j := by
  rw [getNonces, getNonces, List.getElem?_append_left h]

theorem Covers.commit {maxBlockLimit : Nat} {chain : List (List Nat)} {c : NonceCheck}
    (h : Covers maxBlockLimit chain c) (nonces : List Nat) :
    Covers maxBlockLimit (chain ++ [nonces]) c where
  faithful i v hfind := by
    obtain ⟨hi, rfl⟩ := h.faithful i v hfind
    exact ⟨by simp; omega, (getNonces_append hi).symm⟩
  first := h.first
  last := by
    have := h.last
    simp
    omega
  cached j hpos hstart hend x hx := by
    have hlast := h.last
    rw [getNonces_append (by omega)] at hx
    exact h.cached j hpos hstart hend x hx

/-! ### Calls that leave the chain and its window -/

def SameChain (s s' : TxPool) : Prop := s'.chain = s.chain ∧ s'.txNonceCheck = s.txNonceCheck

theorem removeTrans_sameChain (s : TxPool) (txHash : Nat) : SameChain s (s.removeTrans txHash) := by
  unfold TxPool.removeTrans
  split <;> exact ⟨rfl, rfl⟩

theorem dropTransactions_sameChain (s : TxPool) (block : List ObjID) :
    SameChain s (s.dropTransactions block) := by
  induction block generalizing s with
  | nil => exact ⟨rfl, rfl⟩
  | cons o block ih =>
    have hrest := ih (s.dropOne o)
    have hone := removeTrans_sameChain s (s.objects o).original_hash
    exact ⟨hrest.1.trans hone.1, hrest.2.trans hone.2⟩

theorem drop_sameChain (config : Config) (s : TxPool) (txHash : Nat) :
    SameChain s (s.drop config txHash).1 := by
  simp only [TxPool.drop]
  split
  · exact ⟨rfl, rfl⟩
  · split
    · exact removeTrans_sameChain _ txHash
    · exact removeTrans_sameChain _ txHash

theorem removeInvalidTxs_sameChain {s : TxPool} (h : s.invalidTxs.entries = []) :
    SameChain s s.removeInvalidTxs := by
  simp only [TxPool.removeInvalidTxs, h, List.foldl_nil]
  exact ⟨rfl, rfl⟩

theorem verify_sameChain (config : Config) (s : TxPool) (o : ObjID) :
    SameChain s (s.verify config o).1 := by
  simp only [TxPool.verify]
  repeat' split
  all_goals exact ⟨rfl, rfl⟩

theorem insert_sameChain (s : TxPool) (gap : Nat) (o : ObjID) : SameChain s (s.insert gap o).1 := by
  simp only [TxPool.insert]
  split <;> exact ⟨rfl, rfl⟩

theorem importTx_sameChain (config : Config) (s : TxPool) (o : ObjID) (time gap : Nat) :
    SameChain s (s.importTx config o time gap).1 := by
  have hverify := verify_sameChain config (s.setImportTime o time) o
  have hinsert := insert_sameChain ((s.setImportTime o time).verify config o).1 gap o
  simp only [TxPool.importTx]
  split
  · exact ⟨rfl, rfl⟩
  · split
    · exact ⟨rfl, rfl⟩
    · split
      · split
        · exact ⟨hinsert.1.trans hverify.1, hinsert.2.trans hverify.2⟩
        · exact ⟨hinsert.1.trans hverify.1, hinsert.2.trans hverify.2⟩
      · exact hverify

/-! ### The guard of the queue -/

/-- Queued transactions have distinct nonces, none of a block before the window. -/
structure Guarded (config : Config) (s : TxPool) : Prop where
  linked : Linked s.toBooks
  covers : Covers config.maxBlockLimit s.chain s.txNonceCheck
  distinct : (s.txsQueue.map fun n => (s.objects n.tx).nonce).Nodup
  old : ∀ n ∈ s.txsQueue, ∀ j, j = 0 ∨ j < s.txNonceCheck.startblk →
    (s.objects n.tx).nonce ∉ getNonces s.chain j

/-- What an input may do: an accepted transaction has a nonce that is new to the
    queue and to the blocks before the window; a move of the window leaves no
    block with a nonce of the queue or of a later block; a sealer finds no queued
    transaction in a block that is not reported yet. -/
def Fresh (config : Config) (s : TxPool) : Input → Prop
  | .importTx o time gap => (s.importTx config o time gap).2 = .Success →
      (∀ n ∈ s.txsQueue, (s.objects n.tx).nonce ≠ (s.objects o).nonce)
      ∧ ∀ j, j = 0 ∨ j < s.txNonceCheck.startblk → (s.objects o).nonce ∉ getNonces s.chain j
  | .dropBlockTrans _ | .updateCache => Slides config.maxBlockLimit s.chain s.txNonceCheck
      ∧ ∀ n ∈ s.txsQueue, ∀ j < firstBlock config.maxBlockLimit (s.chain.length - 1),
        (s.objects n.tx).nonce ∉ getNonces s.chain j
  | .topTransactions _ _ _ => ∀ n ∈ s.txsQueue, ∀ j, s.txNonceCheck.endblk < j →
      (s.objects n.tx).nonce ∉ getNonces s.chain j
  | .touch o _ => ∀ n ∈ s.txsQueue, n.tx ≠ o
  | _ => True

section Guard

variable {config : Config} {s s' : TxPool}

theorem Guarded.sub (h : Guarded config s) (hlinked : Linked s'.toBooks) (hchain : SameChain s s')
    (hsub : s'.txsQueue.Sublist s.txsQueue)
    (hnonce : ∀ n ∈ s'.txsQueue, (s'.objects n.tx).nonce = (s.objects n.tx).nonce) :
    Guarded config s' where
  linked := hlinked
  covers := by
    rw [hchain.1, hchain.2]
    exact h.covers
  distinct := by
    rw [List.map_congr_left hnonce]
    exact h.distinct.sublist (hsub.map _)
  old n hn j hj := by
    rw [hnonce n hn, hchain.1]
    rw [hchain.2] at hj
    exact h.old n (hsub.subset hn) j hj

theorem removeTrans_sublist (s : TxPool) (txHash : Nat) :
    (s.removeTrans txHash).txsQueue.Sublist s.txsQueue := by
  unfold TxPool.removeTrans
  split
  · exact List.Sublist.refl _
  · exact List.filter_sublist

theorem dropTransactions_sublist (s : TxPool) (block : List ObjID) :
    (s.dropTransactions block).txsQueue.Sublist s.txsQueue := by
  induction block generalizing s with
  | nil => exact List.Sublist.refl _
  | cons o block ih => exact (ih (s.dropOne o)).trans (removeTrans_sublist s _)

theorem Guarded.updateCache (h : Guarded config s)
    (hslides : Slides config.maxBlockLimit s.chain s.txNonceCheck)
    (hleave : ∀ n ∈ s.txsQueue, ∀ j < firstBlock config.maxBlockLimit (s.chain.length - 1),
      (s.objects n.tx).nonce ∉ getNonces s.chain j) : Guarded config (s.updateCache config) := by
  obtain ⟨hcovers, hstart, -⟩ := h.covers.updateCache hslides
  refine ⟨h.linked, hcovers, h.distinct, fun n hn j hj => ?_⟩
  rcases hj with rfl | hlt
  · exact h.old n hn 0 (.inl rfl)
  · exact hleave n hn j (hstart ▸ hlt)

theorem Guarded.importTx (h : Guarded config s) (o : ObjID) (time gap : Nat)
    (hfresh : Fresh config s (.importTx o time gap)) :
    Guarded config (s.importTx config o time gap).1 := by
  have hlinked : Linked (s.importTx config o time gap).1.toBooks :=
    Linked.step s (.importTx o time gap) h.linked
  have hchain := importTx_sameChain config s o time gap
  have htimed : ∀ o', ((s.setImportTime o time).objects o').nonce = (s.objects o').nonce := by
    intro o'
    simp only [TxPool.setImportTime, TxPool.write]
    split
    · next heq => rw [heq]
    · rfl
  rcases importTx_cases config s o time gap with hsame | ⟨hsuccess, -, -, hadded⟩
  · refine h.sub hlinked hchain ?_ fun n _ => ?_
    · rw [hsame]
      exact List.Sublist.refl _
    · rw [hsame]
      exact htimed n.tx
  · obtain ⟨hnew, hold⟩ := hfresh hsuccess
    have hnonce : ∀ o', ((s.importTx config o time gap).1.objects o').nonce = (s.objects o').nonce := by
      intro o'
      rw [hadded]
      exact (added_objects o').2.2.2.trans (htimed o')
    have hperm : (s.importTx config o time gap).1.txsQueue.Perm
        ({ id := s.nextNode, tx := o } :: s.txsQueue) := by
      rw [hadded]
      exact added_perm
    refine ⟨hlinked, by rw [hchain.1, hchain.2]; exact h.covers, ?_, ?_⟩
    · rw [List.map_congr_left fun n _ => hnonce n.tx, (hperm.map _).nodup_iff, List.map_cons,
        List.nodup_cons]
      refine ⟨fun hmem => ?_, h.distinct⟩
      obtain ⟨n, hn, heq⟩ := List.mem_map.mp hmem
      exact hnew n hn heq
    · intro n hn j hj
      rw [hnonce, hchain.1]
      rw [hchain.2] at hj
      rcases List.mem_cons.mp (hperm.mem_iff.mp hn) with rfl | hn
      · exact hold j hj
      · exact h.old n hn j hj

theorem Guarded.step (s : TxPool) (i : Input) (h : Guarded config s) (hfresh : Fresh config s i) :
    Guarded config ((poolMachine config).step s i) := by
  have hlinked : Linked ((poolMachine config).step s i).toBooks := h.linked.step s i
  cases i with
  | importTx o time gap => exact h.importTx o time gap hfresh
  | drop txHash =>
    have hbooks : (s.drop config txHash).1.toBooks = (s.removeTrans txHash).toBooks := drop_toBooks
    refine h.sub hlinked (drop_sameChain config s txHash) ?_ fun n _ => ?_
    · show (s.drop config txHash).1.txsQueue.Sublist s.txsQueue
      rw [hbooks]
      exact removeTrans_sublist s txHash
    · show ((s.drop config txHash).1.objects n.tx).nonce = _
      rw [hbooks, objects_removeTrans]
  | dropBlockTrans block =>
    have hupdated := h.updateCache hfresh.1 hfresh.2
    have hdropped := dropTransactions_dropped (s.updateCache config) block
    refine hupdated.sub hlinked (dropTransactions_sameChain _ block)
      (dropTransactions_sublist _ block) fun n _ => ?_
    show (((s.updateCache config).dropTransactions block).objects n.tx).nonce = _
    rw [hdropped.objects]
  | removeInvalidTxs =>
    have hbooks := removeInvalidTxs_toBooks h.linked.invalid
    refine h.sub hlinked (removeInvalidTxs_sameChain h.linked.invalid) ?_ fun n _ => ?_
    · show s.removeInvalidTxs.txsQueue.Sublist s.txsQueue
      rw [hbooks]
    · show (s.removeInvalidTxs.objects n.tx).nonce = _
      rw [hbooks]
  | clear => exact h.sub hlinked ⟨rfl, rfl⟩ (List.nil_sublist _) fun _ _ => rfl
  | topTransactions limit avoid updateAvoid =>
    exact h.sub hlinked ⟨rfl, rfl⟩ (List.Sublist.refl _) fun _ _ => rfl
  | updateCache => exact h.updateCache hfresh.1 hfresh.2
  | commit nonces =>
    refine ⟨hlinked, h.covers.commit nonces, h.distinct, fun n hn j hj => ?_⟩
    have hlast := h.covers.last
    have hfirst := h.covers.first
    have hlt : j < s.chain.length := by
      unfold firstBlock at hfirst
      rcases hj with rfl | hlt
      · omega
      · change j < s.txNonceCheck.startblk at hlt
        split at hfirst <;> omega
    show (s.objects n.tx).nonce ∉ getNonces (s.chain ++ [nonces]) j
    rw [getNonces_append hlt]
    exact h.old n hn j hj
  | touch o content =>
    refine h.sub hlinked ⟨rfl, rfl⟩ (List.Sublist.refl _) fun n hn => ?_
    exact congrArg Transaction.nonce (if_neg (hfresh n hn))
  | dropBlockTxsFilter block => exact h.sub hlinked ⟨rfl, rfl⟩ (List.Sublist.refl _) fun _ _ => rfl
  | filterUnknownTxs txsHashSet => exact h.sub hlinked ⟨rfl, rfl⟩ (List.Sublist.refl _) fun _ _ => rfl

end Guard

/-! ### What a sealer gets -/

/-- The transactions have distinct nonces, and none of a committed block. -/
def NoReplay (s : TxPool) (sealed : List ObjID) : Prop :=
  (sealed.map fun o => (s.objects o).nonce).Nodup
    ∧ ∀ o ∈ sealed, ∀ nonces ∈ s.chain, (s.objects o).nonce ∉ nonces

theorem topLoop_spec (s : TxPool) (limit : Nat) (updateAvoid : Bool) (nodes : List QueueNode)
    (invalid : AssocMap Nat Nat) (avoid : Finset Nat) (txCnt : Nat) :
    (s.topLoop limit updateAvoid nodes invalid avoid txCnt).1.Sublist (nodes.map QueueNode.tx)
      ∧ ∀ o ∈ (s.topLoop limit updateAvoid nodes invalid avoid txCnt).1,
        (s.objects o).nonce ∉ s.txNonceCheck.cache := by
  induction nodes generalizing avoid txCnt with
  | nil => exact ⟨List.Sublist.refl _, by simp [TxPool.topLoop]⟩
  | cons n nodes ih =>
    have hskip : ∀ avoid txCnt,
        (s.topLoop limit updateAvoid nodes invalid avoid txCnt).1.Sublist ((n :: nodes).map QueueNode.tx)
          ∧ ∀ o ∈ (s.topLoop limit updateAvoid nodes invalid avoid txCnt).1,
            (s.objects o).nonce ∉ s.txNonceCheck.cache :=
      fun avoid txCnt => ⟨(ih avoid txCnt).1.cons _, (ih avoid txCnt).2⟩
    simp only [TxPool.topLoop, isBlockLimitOk, Bool.true_eq_false, if_false]
    split
    · exact ⟨List.nil_sublist _, by simp⟩
    · split
      · exact hskip ..
      · split
        · exact hskip ..
        · next hkept =>
          split
          · exact hskip ..
          · refine ⟨(ih ..).1.cons_cons n.tx, fun o ho => ?_⟩
            rcases List.mem_cons.mp ho with rfl | ho
            · exact hkept
            · exact (ih ..).2 o ho

theorem Guarded.noReplay {config : Config} {s : TxPool} (h : Guarded config s) (limit : Nat)
    (avoid : Finset Nat) (updateAvoid : Bool)
    (hfresh : Fresh config s (.topTransactions limit avoid updateAvoid)) :
    NoReplay s (s.topTransactions config limit avoid updateAvoid).1 := by
  obtain ⟨hsub, hkept⟩ := topLoop_spec s (min config.limit limit) updateAvoid s.txsQueue
    s.invalidTxs avoid 0
  constructor
  · have hdistinct := h.distinct
    have hmap : s.txsQueue.map (fun n => (s.objects n.tx).nonce)
        = (s.txsQueue.map QueueNode.tx).map fun o => (s.objects o).nonce := by
      rw [List.map_map]
      rfl
    rw [hmap] at hdistinct
    exact hdistinct.sublist (hsub.map _)
  · intro o ho nonces hnonces hmem
    obtain ⟨n, hn, rfl⟩ := List.mem_map.mp (hsub.subset ho)
    obtain ⟨j, hj, rfl⟩ := List.mem_iff_getElem.mp hnonces
    have hblock : (s.objects n.tx).nonce ∈ getNonces s.chain j := by
      rw [getNonces, List.getElem?_eq_getElem hj]
      exact hmem
    rcases Nat.lt_or_ge s.txNonceCheck.endblk j with hlater | hend
    · exact hfresh n hn j hlater hblock
    · by_cases hold : j = 0 ∨ j < s.txNonceCheck.startblk
      · exact h.old n hn j hold hblock
      · exact hkept _ ho (h.covers.cached j (by omega) (by omega) hend _ hblock)

/-! ### Runs -/

theorem Covers.init (maxBlockLimit : Nat) {chain : List (List Nat)} (h : 0 < chain.length) :
    Covers maxBlockLimit chain (NonceCheck.init maxBlockLimit chain) := by
  let moved : NonceCheck :=
    { startblk := firstBlock maxBlockLimit (chain.length - 1), endblk := chain.length - 1 }
  have hmoved : moved.Faithful chain := by
    intro i v hfind
    cases hfind
  obtain ⟨hfaithful, hwindow, hmem⟩ := foldl_enter maxBlockLimit
    (numbers (max (0 + 1) moved.startblk) (chain.length - 1 + 1)) hmoved fun i hi => by
      have := (mem_numbers.mp hi).2
      omega
  have hinit : NonceCheck.init maxBlockLimit chain
      = (numbers (max (0 + 1) moved.startblk) (chain.length - 1 + 1)).foldl
          (enter maxBlockLimit chain) moved := rfl
  rw [hinit]
  refine ⟨hfaithful, ?_, ?_, ?_⟩
  · rw [hwindow.1, hwindow.2]
  · rw [hwindow.2]
    show chain.length - 1 < chain.length
    omega
  · intro j hpos hle hge x hx
    rw [hwindow.1] at hle
    rw [hwindow.2] at hge
    change j ≤ chain.length - 1 at hge
    rw [hmem]
    exact .inr ⟨j, mem_numbers.mpr (by omega), hx⟩

theorem start_guarded (config : Config) (objects : ObjID → Transaction) (blocks : List (List Nat)) :
    Guarded config (TxPool.start config objects ([] :: blocks)) where
  linked := (start_books config objects _).1
  covers := Covers.init config.maxBlockLimit (Nat.succ_pos blocks.length)
  distinct := List.nodup_nil
  old n hn := by cases hn

/-- **No transaction is sealed twice** in a run whose inputs are fresh: not two
    of one nonce, and none that is in a committed block.  The genesis block has
    no transactions. -/
theorem no_replay (config : Config) (objects : ObjID → Transaction) (blocks : List (List Nat))
    (inputs : List Input) (limit : Nat) (avoid : Finset Nat) (updateAvoid : Bool)
    (hrun : (poolMachine config).RunOk (Fresh config) (TxPool.start config objects ([] :: blocks))
      (inputs ++ [.topTransactions limit avoid updateAvoid])) :
    let s := (poolMachine config).run (TxPool.start config objects ([] :: blocks)) inputs
    NoReplay s (s.topTransactions config limit avoid updateAvoid).1 := by
  intro s
  obtain ⟨hinputs, hlast⟩ := Machine.RunOk.append.mp hrun
  have hguarded : Guarded config s :=
    Machine.run_invariant _ (fun s i => Guarded.step s i) (start_guarded config objects blocks) hinputs
  exact hguarded.noReplay limit avoid updateAvoid hlast.1

/-- One transaction is committed and another one is sealed. -/
theorem no_replay_small :
    let s := (poolMachine { chainId := 1 }).run smallPool
      [.importTx 1 1 0, .importTx 2 2 1, .commit [1], .updateCache]
    NoReplay s (s.topTransactions { chainId := 1 } 10 ∅ false).1 := by
  have hrun : (poolMachine { chainId := 1 }).RunOk (Fresh { chainId := 1 }) smallPool
      ([.importTx 1 1 0, .importTx 2 2 1, .commit [1], .updateCache] ++ [.topTransactions 10 ∅ false]) := by
    have hgenesis : ∀ x j, x ∉ getNonces [[]] j := by
      intro x j
      cases j <;> simp [getNonces]
    refine ⟨fun _ => ⟨by decide +kernel, fun j _ => hgenesis _ j⟩,
      fun _ => ⟨by decide +kernel, fun j _ => hgenesis _ j⟩, trivial, ⟨?_, ?_⟩, ?_, trivial⟩
    · exact fun i j _ hi => absurd hi (Nat.not_lt_zero i)
    · exact fun n _ j hj => absurd hj (Nat.not_lt_zero j)
    · intro n _ j hj
      change 1 < j at hj
      show _ ∉ getNonces [[], [1]] j
      rw [getNonces, List.getElem?_eq_none (by simp; omega)]
      exact List.not_mem_nil
  exact no_replay { chainId := 1 } smallObjects [] _ 10 ∅ false hrun

def sameNonce (o : ObjID) : Transaction where
  hash := o
  nonce := 7
  capacity := 3
  signed := true
  chainId := 1

/-- Two transactions with one nonce are accepted and sealed together; a nonce
    comes back when its block has left the window; and a block that is committed
    but not reported does not count. -/
theorem replayed :
    (let s := (poolMachine { chainId := 1 }).run (TxPool.start { chainId := 1 } sameNonce [[]])
        [.importTx 1 1 0, .importTx 2 2 1];
      (s.topTransactions { chainId := 1 } 10 ∅ false).1 = [1, 2] ∧ ¬ NoReplay s [1, 2])
    ∧ (let config : Config := { chainId := 1, maxBlockLimit := 1 };
      let s := (poolMachine config).run (TxPool.start config sameNonce [[], [7], [], []])
        [.importTx 1 1 0];
      (s.topTransactions config 10 ∅ false).1 = [1] ∧ ¬ NoReplay s [1])
    ∧ (let s := (poolMachine { chainId := 1 }).run (TxPool.start { chainId := 1 } sameNonce [[]])
        [.importTx 1 1 0, .commit [7]];
      (s.topTransactions { chainId := 1 } 10 ∅ false).1 = [1] ∧ ¬ NoReplay s [1]) := by
  unfold NoReplay
  decide +kernel

end HieraChain.Pool
