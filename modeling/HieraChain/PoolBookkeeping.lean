/-
  HieraChain/PoolBookkeeping.lean
  ===============================
  **The books of the transaction pool.**

  Whatever the calls, the iterators of the index are those of the queue, one
  hash for one node (`Linked`).  That the hash is the one of the transaction,
  that the queue is in the order of the import times and that the memory counter
  is the sum of the capacities (`Booked`) holds in every run in which an import
  leaves the queue in order when it writes the time of a queued object, a
  `clear` finds no capacity, and the content of a queued object is not changed
  (`bookkeeping`).  An object that is imported again moves in time but not in
  the queue (`imported_again`), and `clear` leaves the counter.
-/
import Mathlib.Algebra.BigOperators.Group.List.Basic
import Mathlib.Algebra.Ring.Int.Defs
import Mathlib.Data.List.TakeWhile
import HieraChain.TxPool

namespace HieraChain.Pool

/-! ### Index and queue -/

/-- Every node has one hash, and every hash leads to a node of the queue. -/
structure Linked (s : Books) : Prop where
  nodup : (s.txsQueue.map QueueNode.id).Nodup
  fresh : ∀ n ∈ s.txsQueue, n.id < s.nextNode
  node : ∀ h id, s.txsHash.find? h = some id → ∃ n ∈ s.txsQueue, n.id = id
  key : ∀ n ∈ s.txsQueue, ∃ h, s.txsHash.find? h = some n.id
  one : ∀ h h' id, s.txsHash.find? h = some id → s.txsHash.find? h' = some id → h = h'
  invalid : s.invalidTxs.entries = []

/-- The index has the hash of every queued transaction, the queue is in order
    and within its limit, and the counter is the sum of the capacities. -/
structure Booked (config : Config) (s : Books) : Prop where
  own : ∀ n ∈ s.txsQueue, s.txsHash.find? (s.objects n.tx).hash = some n.id
  ordered : s.times.Pairwise (· ≤ ·)
  size : s.txsQueue.length ≤ config.limit
  memory : s.usedMemorySize = (s.txsQueue.map fun n => ((s.objects n.tx).capacity : Int)).sum

theorem eq_of_id_eq {q : List QueueNode} (h : (q.map QueueNode.id).Nodup) {n n' : QueueNode}
    (hn : n ∈ q) (hn' : n' ∈ q) (hid : n.id = n'.id) : n = n' :=
  List.inj_on_of_nodup_map h hn hn' hid

/-! ### Writing objects -/

section Write

variable {s : Books} {objects : ObjID → Transaction}

theorem Booked.congr {config : Config} (h : Booked config s)
    (hobjects : ∀ n ∈ s.txsQueue, (objects n.tx).hash = (s.objects n.tx).hash
      ∧ (objects n.tx).capacity = (s.objects n.tx).capacity)
    (htimes : ({ s with objects := objects } : Books).times.Pairwise (· ≤ ·)) :
    Booked config { s with objects := objects } where
  own n hn := by
    simp only
    rw [(hobjects n hn).1]
    exact h.own n hn
  ordered := htimes
  size := h.size
  memory := by
    simp only
    rw [h.memory]
    congr 1
    refine List.map_congr_left fun n hn => ?_
    rw [(hobjects n hn).2]

theorem Linked.congr (h : Linked s) : Linked { s with objects := objects } :=
  ⟨h.nodup, h.fresh, h.node, h.key, h.one, h.invalid⟩

end Write

/-! ### Removal -/

theorem removeTrans_some {s : TxPool} {txHash id : Nat} (h : s.txsHash.find? txHash = some id) :
    (s.removeTrans txHash).toBooks = { s.toBooks with
      txsQueue := s.txsQueue.filter fun n => decide (n.id ≠ id)
      txsHash := s.txsHash.erase txHash
      usedMemorySize := s.usedMemorySize - ((s.at? id).map fun o => (s.objects o).capacity).getD 0 } := by
  simp only [TxPool.removeTrans, h]

theorem removeTrans_none {s : TxPool} {txHash : Nat} (h : s.txsHash.find? txHash = none) :
    s.removeTrans txHash = s := by
  simp only [TxPool.removeTrans, h]

theorem Linked.removeTrans {s : TxPool} (h : Linked s.toBooks) (txHash : Nat) :
    Linked (s.removeTrans txHash).toBooks := by
  cases hfind : s.txsHash.find? txHash with
  | none => rwa [removeTrans_none hfind]
  | some id =>
    rw [removeTrans_some hfind]
    constructor
    · exact h.nodup.sublist (List.filter_sublist.map _)
    · exact fun n hn => h.fresh n (List.mem_of_mem_filter hn)
    · intro h' id' hfind'
      rw [AssocMap.find?_erase] at hfind'
      split at hfind'
      · cases hfind'
      · next hne =>
        obtain ⟨n, hn, hid⟩ := h.node h' id' hfind'
        refine ⟨n, List.mem_filter.mpr ⟨hn, ?_⟩, hid⟩
        rw [decide_eq_true_iff]
        rintro hsame
        exact hne (h.one h' txHash id (hsame ▸ hid ▸ hfind') hfind)
    · intro n hn
      rw [List.mem_filter, decide_eq_true_iff] at hn
      obtain ⟨h', hkey⟩ := h.key n hn.1
      refine ⟨h', ?_⟩
      rw [AssocMap.find?_erase, if_neg]
      · exact hkey
      · rintro rfl
        rw [hkey] at hfind
        exact hn.2 (Option.some.inj hfind)
    · intro h₁ h₂ id' h₁' h₂'
      rw [AssocMap.find?_erase] at h₁' h₂'
      split at h₁'
      · cases h₁'
      · split at h₂'
        · cases h₂'
        · exact h.one h₁ h₂ id' h₁' h₂'
    · exact h.invalid

theorem sum_filter_ne {q : List QueueNode} (f : QueueNode → Int) (h : (q.map QueueNode.id).Nodup)
    {n : QueueNode} (hn : n ∈ q) :
    ((q.filter fun n' => decide (n'.id ≠ n.id)).map f).sum = (q.map f).sum - f n := by
  induction q with
  | nil => simp at hn
  | cons n' q ih =>
    rw [List.map_cons, List.nodup_cons] at h
    rcases List.mem_cons.mp hn with rfl | hmem
    · have hall : q.filter (fun n' => decide (n'.id ≠ n.id)) = q := by
        refine List.filter_eq_self.mpr fun n' hn' => ?_
        rw [decide_eq_true_iff]
        rintro hid
        exact h.1 (hid ▸ List.mem_map_of_mem hn')
      rw [List.filter_cons, if_neg (by simp), hall]
      simp
    · have hne : n'.id ≠ n.id := by
        rintro hid
        exact h.1 (hid ▸ List.mem_map_of_mem hmem)
      rw [List.filter_cons, if_pos (by simpa using hne)]
      simp only [List.map_cons, List.sum_cons, ih h.2 hmem]
      omega

theorem at?_of_mem {s : Books} (h : (s.txsQueue.map QueueNode.id).Nodup) {n : QueueNode}
    (hn : n ∈ s.txsQueue) : s.at? n.id = some n.tx := by
  unfold Books.at?
  cases hfind : s.txsQueue.find? fun n' => decide (n'.id = n.id) with
  | none =>
    rw [List.find?_eq_none] at hfind
    exact absurd (by simp) (hfind n hn)
  | some n' =>
    have hid : n'.id = n.id := by simpa using List.find?_some hfind
    rw [eq_of_id_eq h (List.mem_of_find?_eq_some hfind) hn hid]
    rfl

theorem Booked.removeTrans {config : Config} {s : TxPool} (hl : Linked s.toBooks)
    (h : Booked config s.toBooks) (txHash : Nat) : Booked config (s.removeTrans txHash).toBooks := by
  cases hfind : s.txsHash.find? txHash with
  | none => rwa [removeTrans_none hfind]
  | some id =>
    obtain ⟨n, hn, rfl⟩ := hl.node txHash id hfind
    rw [removeTrans_some hfind, at?_of_mem hl.nodup hn]
    constructor
    · intro n' hn'
      rw [List.mem_filter, decide_eq_true_iff] at hn'
      have hown := h.own n' hn'.1
      simp only [AssocMap.find?_erase]
      rw [if_neg]
      · exact hown
      · rintro hsame
        rw [hsame, hfind] at hown
        exact hn'.2 (Option.some.inj hown).symm
    · exact h.ordered.sublist (List.filter_sublist.map _)
    · exact (List.length_filter_le ..).trans h.size
    · simp only [Option.map_some, Option.getD_some]
      rw [sum_filter_ne _ hl.nodup hn, h.memory]

/-! ### Insertion -/

theorem isGap_iff {time : Nat} {times : List Nat} {i : Nat} : TxPool.isGap time times i = true ↔
    i ≤ times.length ∧ (∀ a, (times.take i).getLast? = some a → a < time)
      ∧ ∀ b, (times.drop i).head? = some b → time ≤ b := by
  simp only [TxPool.isGap, Bool.and_eq_true, decide_eq_true_iff, Option.all_eq_true, and_assoc]

theorem isGap_place (time : Nat) (times : List Nat) (gap : Nat) :
    TxPool.isGap time times (TxPool.place time times gap) = true := by
  unfold TxPool.place
  split
  · assumption
  · have hsplit : times.takeWhile (· < time) ++ times.dropWhile (· < time) = times :=
      List.takeWhile_append_dropWhile
    generalize hbefore : times.takeWhile (· < time) = before at *
    generalize hafter : times.dropWhile (· < time) = after at *
    rw [isGap_iff]
    refine ⟨by rw [← hsplit]; simp, ?_, ?_⟩
    · intro a ha
      rw [← hsplit, List.take_left] at ha
      have hmem := List.mem_of_getLast? ha
      rw [← hbefore] at hmem
      simpa using List.mem_takeWhile_imp hmem
    · intro b hb
      rw [← hsplit, List.drop_left, ← hafter] at hb
      have hnot := List.head?_dropWhile_not (fun a => decide (a < time)) times
      rw [hb] at hnot
      simpa using hnot

theorem ordered_insert {time : Nat} {times : List Nat} {i : Nat} (h : times.Pairwise (· ≤ ·))
    (hgap : TxPool.isGap time times i = true) :
    (times.take i ++ time :: times.drop i).Pairwise (· ≤ ·) := by
  obtain ⟨-, hbefore, hafter⟩ := isGap_iff.mp hgap
  have htake : (times.take i).Pairwise (· ≤ ·) := h.sublist (List.take_sublist i times)
  have hdrop : (times.drop i).Pairwise (· ≤ ·) := h.sublist (List.drop_sublist i times)
  have hearlier : ∀ a ∈ times.take i, a ≤ time := by
    intro a ha
    cases hlast : (times.take i).getLast? with
    | none =>
      rw [List.getLast?_eq_none_iff] at hlast
      rw [hlast] at ha
      cases ha
    | some last =>
      have hlt := hbefore last hlast
      obtain ⟨init, hinit⟩ := List.getLast?_eq_some_iff.mp hlast
      rw [hinit] at ha htake
      rcases List.mem_append.mp ha with hmem | hmem
      · have hle := (List.pairwise_append.mp htake).2.2 a hmem last (List.mem_singleton_self last)
        omega
      · rw [List.mem_singleton.mp hmem]
        omega
  have hlater : ∀ b ∈ times.drop i, time ≤ b := by
    intro b hb
    cases hdropped : times.drop i with
    | nil =>
      rw [hdropped] at hb
      cases hb
    | cons first rest =>
      have hle := hafter first (by rw [hdropped]; rfl)
      rw [hdropped] at hb hdrop
      rcases List.mem_cons.mp hb with rfl | hmem
      · exact hle
      · exact hle.trans ((List.pairwise_cons.mp hdrop).1 b hmem)
  rw [List.pairwise_append, List.pairwise_cons]
  refine ⟨htake, ⟨hlater, hdrop⟩, ?_⟩
  intro a ha b hb
  rcases List.mem_cons.mp hb with rfl | hmem
  · exact hearlier a ha
  · exact (hearlier a ha).trans (hlater b hmem)

def Books.added (s : Books) (i : Nat) (o : ObjID) : Books :=
  { s with
    objects := fun o' =>
      if o' = o then { s.objects o with original_hash := (s.objects o).hash } else s.objects o'
    txsQueue := s.txsQueue.take i ++ { id := s.nextNode, tx := o } :: s.txsQueue.drop i
    txsHash := s.txsHash.insert (s.objects o).hash s.nextNode
    usedMemorySize := s.usedMemorySize + (s.objects o).capacity
    nextNode := s.nextNode + 1 }

theorem verify_toBooks (config : Config) (s : TxPool) (o : ObjID) :
    (s.verify config o).1.toBooks = s.toBooks := by
  simp only [TxPool.verify]
  repeat' split
  all_goals rfl

theorem verify_success {config : Config} {s : TxPool} {o : ObjID}
    (h : (s.verify config o).2 = .Success) : s.txsHash.contains (s.objects o).hash = false := by
  cases hknown : s.txsHash.contains (s.objects o).hash with
  | false => rfl
  | true =>
    simp only [TxPool.verify, hknown, if_true] at h
    cases h

theorem insert_new {s : TxPool} {o : ObjID} (gap : Nat)
    (h : s.txsHash.contains (s.objects o).hash = false) : (s.insert gap o).2 = true
      ∧ ({ (s.insert gap o).1.toBooks with
          usedMemorySize := (s.insert gap o).1.usedMemorySize + (s.objects o).capacity } : Books)
        = s.toBooks.added (TxPool.place (s.objects o).importTime s.times gap) o := by
  simp only [TxPool.insert, h, Bool.false_eq_true, if_false, true_and]
  rfl

/-- An import writes the time; and either it leaves the books, or it succeeds and
    adds a transaction of a new hash below the limit. -/
theorem importTx_cases (config : Config) (s : TxPool) (o : ObjID) (time gap : Nat) :
    (s.importTx config o time gap).1.toBooks = (s.setImportTime o time).toBooks
    ∨ ((s.importTx config o time gap).2 = .Success ∧ s.txsHash.find? (s.objects o).hash = none
      ∧ s.txsQueue.length < config.limit ∧ (s.importTx config o time gap).1.toBooks = (s.setImportTime o time).toBooks.added
          (TxPool.place time (s.setImportTime o time).times gap) o) := by
  have hself : (s.setImportTime o time).objects o = { s.objects o with importTime := time } := if_pos rfl
  simp only [TxPool.importTx]
  generalize htimed : s.setImportTime o time = timed at *
  have hhash : timed.txsHash = s.txsHash := by rw [← htimed]; rfl
  have hqueue : timed.txsQueue = s.txsQueue := by rw [← htimed]; rfl
  split
  · exact .inl rfl
  · split
    · exact .inl rfl
    · next hlimit =>
      split
      · next hsuccess =>
        have hnew := verify_success hsuccess
        have hbooks := verify_toBooks config timed o
        generalize (timed.verify config o).1 = verified at *
        have hfresh : verified.txsHash.contains (verified.objects o).hash = false := by
          rw [hbooks]
          exact hnew
        obtain ⟨hinserted, hadded⟩ := insert_new gap hfresh
        right
        refine ⟨rfl, ?_, by rw [← hqueue]; omega, ?_⟩
        · rw [hself, hhash] at hnew
          simpa [AssocMap.contains] using hnew
        · rw [hbooks, hself] at hadded
          simpa [hinserted, hself] using hadded
      · exact .inl (verify_toBooks config timed o)

section Added

variable {s : Books} {i : Nat} {o : ObjID}

theorem added_perm : (s.added i o).txsQueue.Perm ({ id := s.nextNode, tx := o } :: s.txsQueue) := by
  have hmiddle : (s.added i o).txsQueue.Perm
      ({ id := s.nextNode, tx := o } :: (s.txsQueue.take i ++ s.txsQueue.drop i)) := List.perm_middle
  rwa [List.take_append_drop] at hmiddle

theorem added_objects (o' : ObjID) : ((s.added i o).objects o').hash = (s.objects o').hash
    ∧ ((s.added i o).objects o').capacity = (s.objects o').capacity
    ∧ ((s.added i o).objects o').importTime = (s.objects o').importTime
    ∧ ((s.added i o).objects o').nonce = (s.objects o').nonce := by
  simp only [Books.added]
  split
  · next h => exact h ▸ ⟨rfl, rfl, rfl, rfl⟩
  · exact ⟨rfl, rfl, rfl, rfl⟩

theorem Linked.added (h : Linked s) (hnew : s.txsHash.find? (s.objects o).hash = none) :
    Linked (s.added i o) := by
  have hmem : ∀ n, n ∈ (s.added i o).txsQueue ↔ n = { id := s.nextNode, tx := o } ∨ n ∈ s.txsQueue := by
    intro n
    rw [added_perm.mem_iff, List.mem_cons]
  have hfind : ∀ h', (s.added i o).txsHash.find? h'
      = if h' = (s.objects o).hash then some s.nextNode else s.txsHash.find? h' :=
    fun h' => AssocMap.find?_insert ..
  constructor
  · rw [(added_perm.map QueueNode.id).nodup_iff, List.map_cons, List.nodup_cons]
    refine ⟨?_, h.nodup⟩
    intro hid
    obtain ⟨n, hn, heq⟩ := List.mem_map.mp hid
    have hlt := h.fresh n hn
    simp only at heq
    omega
  · intro n hn
    show n.id < s.nextNode + 1
    rcases (hmem n).mp hn with rfl | hn
    · exact Nat.lt_succ_self _
    · have hlt := h.fresh n hn
      omega
  · intro h' id hid
    rw [hfind] at hid
    split at hid
    · exact ⟨_, (hmem _).mpr (.inl rfl), Option.some.inj hid⟩
    · obtain ⟨n, hn, heq⟩ := h.node h' id hid
      exact ⟨n, (hmem n).mpr (.inr hn), heq⟩
  · intro n hn
    rcases (hmem n).mp hn with rfl | hn
    · exact ⟨(s.objects o).hash, by rw [hfind, if_pos rfl]⟩
    · obtain ⟨h', hkey⟩ := h.key n hn
      refine ⟨h', ?_⟩
      rw [hfind, if_neg]
      · exact hkey
      · rintro rfl
        rw [hnew] at hkey
        cases hkey
  · -- an old hash leads to an old node
    have hold : ∀ h' id, s.txsHash.find? h' = some id → id ≠ s.nextNode := by
      rintro h' id hid rfl
      obtain ⟨n, hn, heq⟩ := h.node h' _ hid
      have hlt := h.fresh n hn
      omega
    intro h₁ h₂ id h₁' h₂'
    rw [hfind] at h₁' h₂'
    split at h₁'
    · next heq₁ =>
      split at h₂'
      · next heq₂ => exact heq₁.trans heq₂.symm
      · exact absurd (Option.some.inj h₁').symm (hold h₂ id h₂')
    · split at h₂'
      · exact absurd (Option.some.inj h₂').symm (hold h₁ id h₁')
      · exact h.one h₁ h₂ id h₁' h₂'
  · exact h.invalid

theorem times_added : (s.added i o).times
    = s.times.take i ++ (s.objects o).importTime :: s.times.drop i := by
  unfold Books.times
  rw [List.map_congr_left fun n _ => (added_objects n.tx).2.2.1]
  simp [Books.added, List.map_take, List.map_drop]

theorem Booked.added {config : Config} (h : Booked config s)
    (hnew : s.txsHash.find? (s.objects o).hash = none) (hlimit : s.txsQueue.length < config.limit)
    (hgap : TxPool.isGap (s.objects o).importTime s.times i = true) : Booked config (s.added i o) := by
  constructor
  · intro n hn
    rw [(added_objects n.tx).1]
    show (s.txsHash.insert (s.objects o).hash s.nextNode).find? (s.objects n.tx).hash = some n.id
    rw [AssocMap.find?_insert]
    rcases List.mem_cons.mp (added_perm.mem_iff.mp hn) with rfl | hn
    · exact if_pos rfl
    · have hown := h.own n hn
      rw [if_neg]
      · exact hown
      · rintro hsame
        rw [hsame, hnew] at hown
        cases hown
  · rw [times_added]
    exact ordered_insert h.ordered hgap
  · rw [added_perm.length_eq, List.length_cons]
    omega
  · rw [List.map_congr_left fun n _ => congrArg Nat.cast (added_objects (i := i) (o := o) n.tx).2.1,
      (added_perm.map _).sum_eq, List.map_cons, List.sum_cons, ← h.memory]
    exact Int.add_comm ..

end Added

/-! ### One step -/

theorem topLoop_invalid (s : TxPool) (limit : Nat) (updateAvoid : Bool) (nodes : List QueueNode)
    (invalid : AssocMap Nat Nat) (avoid : Finset Nat) (txCnt : Nat) :
    (s.topLoop limit updateAvoid nodes invalid avoid txCnt).2.1 = invalid := by
  induction nodes generalizing avoid txCnt with
  | nil => rfl
  | cons n nodes ih =>
    simp only [TxPool.topLoop, isBlockLimitOk, Bool.true_eq_false, if_false]
    split
    · rfl
    · split
      · exact ih ..
      · split
        · exact ih ..
        · split
          · exact ih ..
          · exact ih ..

theorem topTransactions_toBooks (config : Config) (s : TxPool) (limit : Nat) (avoid : Finset Nat)
    (updateAvoid : Bool) : (s.topTransactions config limit avoid updateAvoid).2.2.toBooks = s.toBooks := by
  simp only [TxPool.topTransactions, topLoop_invalid]

theorem removeInvalidTxs_toBooks {s : TxPool} (h : s.invalidTxs.entries = []) :
    s.removeInvalidTxs.toBooks = { s.toBooks with invalidTxs := AssocMap.empty } := by
  simp only [TxPool.removeInvalidTxs, h, List.foldl_nil]

theorem drop_toBooks {config : Config} {s : TxPool} {txHash : Nat} :
    (s.drop config txHash).1.toBooks = (s.removeTrans txHash).toBooks := by
  simp only [TxPool.drop]
  cases hfind : s.txsHash.find? txHash with
  | none => simp [AssocMap.contains, hfind, removeTrans_none hfind]
  | some id =>
    rw [if_neg (by simp [AssocMap.contains, hfind])]
    simp only
    split
    · rw [removeTrans_some (by exact hfind), removeTrans_some hfind]
    · rw [removeTrans_some (by exact hfind), removeTrans_some hfind]

theorem Linked.dropTransactions {s : TxPool} (h : Linked s.toBooks) (block : List ObjID) :
    Linked (s.dropTransactions block).toBooks := by
  unfold TxPool.dropTransactions
  induction block generalizing s with
  | nil => exact h
  | cons o block ih =>
    have hremoved := h.removeTrans (s.objects o).original_hash
    refine ih (s := s.dropOne o) ⟨hremoved.nodup, hremoved.fresh, hremoved.node, hremoved.key,
      hremoved.one, ?_⟩
    simp [TxPool.dropOne, AssocMap.erase, AssocMap.filter, hremoved.invalid]

theorem Booked.dropTransactions {config : Config} {s : TxPool} (hl : Linked s.toBooks)
    (h : Booked config s.toBooks) (block : List ObjID) :
    Booked config (s.dropTransactions block).toBooks := by
  induction block generalizing s with
  | nil => exact h
  | cons o block ih =>
    have hremoved := h.removeTrans hl (s.objects o).original_hash
    exact ih (hl.dropTransactions [o])
      ⟨hremoved.own, hremoved.ordered, hremoved.size, hremoved.memory⟩

section Steps

variable {config : Config}

theorem Linked.step (s : TxPool) (i : Input) (h : Linked s.toBooks) :
    Linked ((poolMachine config).step s i).toBooks := by
  cases i with
  | importTx o time gap =>
    have htimed : Linked (s.setImportTime o time).toBooks := h.congr
    show Linked (s.importTx config o time gap).1.toBooks
    rcases importTx_cases config s o time gap with hsame | ⟨-, hnew, -, hadded⟩
    · rw [hsame]
      exact htimed
    · rw [hadded]
      refine htimed.added ?_
      simpa [TxPool.setImportTime, TxPool.write] using hnew
  | drop txHash =>
    show Linked (s.drop config txHash).1.toBooks
    rw [drop_toBooks]
    exact h.removeTrans txHash
  | dropBlockTrans block => exact Linked.dropTransactions (s := s.updateCache config) h block
  | removeInvalidTxs =>
    show Linked s.removeInvalidTxs.toBooks
    rw [removeInvalidTxs_toBooks h.invalid]
    exact ⟨h.nodup, h.fresh, h.node, h.key, h.one, rfl⟩
  | clear => exact ⟨List.nodup_nil, by simp [poolMachine, TxPool.clear], by simp [poolMachine, TxPool.clear],
      by simp [poolMachine, TxPool.clear], by simp [poolMachine, TxPool.clear], h.invalid⟩
  | topTransactions limit avoid updateAvoid =>
    show Linked (s.topTransactions config limit avoid updateAvoid).2.2.toBooks
    rwa [topTransactions_toBooks]
  | touch o content => exact h.congr
  | dropBlockTxsFilter block => exact h
  | filterUnknownTxs txsHashSet => exact h
  | updateCache => exact h
  | commit nonces => exact h

/-- The books allow the input: an import leaves the queue in order, a `clear`
    finds no capacity, and the object whose content changes is not queued. -/
def Allowed (s : TxPool) : Input → Prop
  | .importTx o time _ => (s.setImportTime o time).times.Pairwise (· ≤ ·)
  | .clear => (s.txsQueue.map fun n => ((s.objects n.tx).capacity : Int)).sum = 0
  | .touch o _ => ∀ n ∈ s.txsQueue, n.tx ≠ o
  | _ => True

theorem Booked.step (s : TxPool) (i : Input) (h : Linked s.toBooks ∧ Booked config s.toBooks)
    (hok : Allowed s i) : Linked ((poolMachine config).step s i).toBooks
      ∧ Booked config ((poolMachine config).step s i).toBooks := by
  obtain ⟨hl, h⟩ := h
  refine ⟨hl.step s i, ?_⟩
  cases i with
  | importTx o time gap =>
    have htimed : Booked config (s.setImportTime o time).toBooks := by
      refine h.congr (fun n _ => ?_) hok
      split
      · next hsame => exact hsame ▸ ⟨rfl, rfl⟩
      · exact ⟨rfl, rfl⟩
    show Booked config (s.importTx config o time gap).1.toBooks
    rcases importTx_cases config s o time gap with hsame | ⟨-, hnew, hlimit, hadded⟩
    · rw [hsame]
      exact htimed
    · rw [hadded]
      have hself : (s.setImportTime o time).objects o = { s.objects o with importTime := time } :=
        if_pos rfl
      refine htimed.added ?_ hlimit ?_
      · rw [hself]
        exact hnew
      · rw [hself]
        exact isGap_place ..
  | drop txHash =>
    show Booked config (s.drop config txHash).1.toBooks
    rw [drop_toBooks]
    exact h.removeTrans hl txHash
  | dropBlockTrans block => exact Booked.dropTransactions (s := s.updateCache config) hl h block
  | removeInvalidTxs =>
    show Booked config s.removeInvalidTxs.toBooks
    rw [removeInvalidTxs_toBooks hl.invalid]
    exact ⟨h.own, h.ordered, h.size, h.memory⟩
  | clear =>
    refine ⟨by simp [poolMachine, TxPool.clear], List.Pairwise.nil, Nat.zero_le _, ?_⟩
    exact h.memory.trans hok
  | topTransactions limit avoid updateAvoid =>
    show Booked config (s.topTransactions config limit avoid updateAvoid).2.2.toBooks
    rwa [topTransactions_toBooks]
  | touch o content =>
    have hother : ∀ n ∈ s.txsQueue, (s.touch o content).objects n.tx = s.objects n.tx :=
      fun n hn => if_neg (hok n hn)
    have htimes : ({ s.toBooks with objects := (s.touch o content).objects } : Books).times = s.times :=
      List.map_congr_left fun n hn => congrArg Transaction.importTime (hother n hn)
    have htouched : Booked config { s.toBooks with objects := (s.touch o content).objects } := by
      refine h.congr (fun n hn => ?_) ?_
      · rw [hother n hn]
        exact ⟨rfl, rfl⟩
      · rw [htimes]
        exact h.ordered
    exact htouched
  | dropBlockTxsFilter block => exact h
  | filterUnknownTxs txsHashSet => exact h
  | updateCache => exact h
  | commit nonces => exact h

end Steps

/-! ### Runs -/

structure BooksKept (config : Config) (s : Books) : Prop where
  index : ∀ h id, s.txsHash.find? h = some id ↔ ∃ n ∈ s.txsQueue, n.id = id ∧ (s.objects n.tx).hash = h
  distinct : (s.txsQueue.map fun n => (s.objects n.tx).hash).Nodup
  size : s.txsQueue.length ≤ config.limit
  ordered : s.times.Pairwise (· ≤ ·)
  memory : s.usedMemorySize = (s.txsQueue.map fun n => ((s.objects n.tx).capacity : Int)).sum

theorem BooksKept.of_linked {config : Config} {s : Books} (hl : Linked s) (h : Booked config s) :
    BooksKept config s where
  index hash id := by
    constructor
    · intro hfind
      obtain ⟨n, hn, rfl⟩ := hl.node hash id hfind
      exact ⟨n, hn, rfl, hl.one _ _ _ (h.own n hn) hfind⟩
    · rintro ⟨n, hn, rfl, rfl⟩
      exact h.own n hn
  distinct := by
    refine List.Nodup.map_on (fun n hn n' hn' hhash => ?_) (List.Nodup.of_map _ hl.nodup)
    have hid := (h.own n hn).symm.trans (hhash ▸ h.own n' hn')
    exact eq_of_id_eq hl.nodup hn hn' (Option.some.inj hid)
  size := h.size
  ordered := h.ordered
  memory := h.memory

theorem start_books (config : Config) (objects : ObjID → Transaction) (chain : List (List Nat)) :
    Linked (TxPool.start config objects chain).toBooks
      ∧ Booked config (TxPool.start config objects chain).toBooks := by
  constructor
  · constructor <;> simp [TxPool.start, AssocMap.empty, AssocMap.find?]
  · constructor <;> simp [TxPool.start, Books.times]

/-- **The books are kept** in every run from an empty pool whose inputs they allow. -/
theorem bookkeeping (config : Config) (objects : ObjID → Transaction) (chain : List (List Nat))
    (inputs : List Input)
    (hrun : (poolMachine config).RunOk Allowed (TxPool.start config objects chain) inputs) :
    BooksKept config ((poolMachine config).run (TxPool.start config objects chain) inputs).toBooks := by
  obtain ⟨hl, h⟩ := Machine.run_invariant _ (fun s i => Booked.step s i)
    (start_books config objects chain) hrun
  exact .of_linked hl h

/-! ### Runs on fixed inputs -/

/-- Object `o` has hash and nonce `o` and three bytes of data. -/
def smallObjects (o : ObjID) : Transaction where
  hash := o
  nonce := o
  capacity := 3
  signed := true
  chainId := 1

def smallPool : TxPool := TxPool.start { chainId := 1 } smallObjects [[]]

theorem bookkeeping_small : BooksKept { chainId := 1 }
    ((poolMachine { chainId := 1 }).run smallPool [.importTx 1 5 0, .importTx 2 4 0, .drop 1]).toBooks := by
  refine bookkeeping { chainId := 1 } smallObjects [[]] _ ⟨?_, ?_, trivial, trivial⟩
  · exact List.Pairwise.nil
  · exact List.pairwise_singleton _ _

def againPool : TxPool := (poolMachine { chainId := 1 }).run smallPool
  [.importTx 1 1 0, .importTx 2 2 1, .importTx 1 3 0]

def clearedPool : TxPool := (poolMachine { chainId := 1 }).run smallPool [.importTx 1 1 0, .clear]

/-- An object that is imported again has a later time in its old place; and a
    pool that was cleared counts the memory of what it held. -/
theorem imported_again :
    (againPool.times = [3, 2] ∧ ¬ BooksKept { chainId := 1 } againPool.toBooks)
    ∧ clearedPool.txsQueue = [] ∧ clearedPool.usedMemorySize = 3
    ∧ ¬ BooksKept { chainId := 1 } clearedPool.toBooks := by
  refine ⟨⟨by decide +kernel, fun h => ?_⟩, by decide +kernel, by decide +kernel, fun h => ?_⟩
  · have hordered := h.ordered
    revert hordered
    decide +kernel
  · have hmemory := h.memory
    revert hmemory
    decide +kernel

end HieraChain.Pool
