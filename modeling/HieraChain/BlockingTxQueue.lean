/-
  HieraChain/BlockingTxQueue.lean
  ===============================
  **The queue of blocked transactions and its lock counts**
  (`libplugin/BlockingTxQueue.cpp`).

  A transaction holds the keys that its `localreadwriteKey` lists between
  underscores.  `lockingkeys` counts how often each key is held; an `int` that
  overflows, `front` of an empty queue and `at` of a missing key have no result.

  `insertTx`, `insertTxs` and `deleteTx` keep every count at the number of times
  the key is held by a queued transaction.  `batch_pop` moves transactions away
  and keeps their locks, so the counts are right exactly as long as it moves none
  (`accounted_run_iff`).
-/
import HieraChain.AssocMap
import HieraChain.Machine
import HieraChain.Table
import Mathlib.Algebra.Order.BigOperators.Group.List

namespace HieraChain.BlockingTxQueue

open HieraChain.BigEndian HieraChain.Storage

/-! ### Keys -/

/-- `boost::split` at underscores with `token_compress_on`: neighbouring
    underscores count as one. -/
def split : Bytes → List Bytes
  | [] => [[]]
  | b :: rest =>
    if b = underscore then if rest.head? = some underscore then split rest else [] :: split rest
    else
      match split rest with
      | [] => [[b]]
      | token :: tokens => (b :: token) :: tokens

/-- How often a loop from `0` to `int(n)` runs. -/
def turns (n : Nat) : Nat := (BitVec.ofNat 32 n).toInt.toNat

def keyItems (keys : Bytes) : List Bytes := (split keys).take (turns (split keys).length)

theorem split_ne_nil (keys : Bytes) : split keys ≠ [] := by
  induction keys with
  | nil => exact List.cons_ne_nil _ _
  | cons b rest ih =>
    rw [split]
    split
    · split
      · exact ih
      · exact List.cons_ne_nil _ _
    · split
      · exact List.cons_ne_nil _ _
      · exact List.cons_ne_nil _ _

theorem turns_lt (n : Nat) : turns n < 2 ^ 31 := by
  have hlt : (BitVec.ofNat 32 n).toInt < 2 ^ 31 := BitVec.toInt_lt
  rw [turns]
  omega

theorem turns_of_lt {n : Nat} (h : n < 2 ^ 31) : turns n = n := by
  have hsmall : (BitVec.ofNat 32 n).toNat = n := by
    rw [BitVec.toNat_ofNat]
    omega
  rw [turns, BitVec.toInt_eq_toNat_of_lt (by omega), hsmall, Int.toNat_natCast]

theorem keyItems_of_lt {keys : Bytes} (h : (split keys).length < 2 ^ 31) : keyItems keys = split keys := by
  rw [keyItems, turns_of_lt h, List.take_length]

theorem lt_of_keyItems {keys : Bytes} (h : keyItems keys = split keys) : (split keys).length < 2 ^ 31 := by
  rw [← h, keyItems]
  exact (List.length_take_le _ _).trans_lt (turns_lt _)

/-! ### The queue -/

structure transactionWithReadWriteSet where
  localreadwriteKey : Bytes
  deriving DecidableEq

namespace transactionWithReadWriteSet

def held (tx : transactionWithReadWriteSet) : List Bytes := split tx.localreadwriteKey

end transactionWithReadWriteSet

structure Queue where
  txs : List transactionWithReadWriteSet := []
  lockingkeys : AssocMap Bytes Int := .empty

def lockKey (lockingkeys : AssocMap Bytes Int) (key : Bytes) : Option (AssocMap Bytes Int) :=
  match lockingkeys.find? key with
  | none => some (lockingkeys.insert key 1)
  | some lockNum => if lockNum + 1 < 2 ^ 31 then some (lockingkeys.insert key (lockNum + 1)) else none

/-- One lock of a key less; `at` throws where the key is missing. -/
def unlockKey (lockingkeys : AssocMap Bytes Int) (key : Bytes) : Option (AssocMap Bytes Int) :=
  match lockingkeys.find? key with
  | none => none
  | some lockNum => if -2 ^ 31 ≤ lockNum - 1 then some (lockingkeys.insert key (lockNum - 1)) else none

namespace Queue

variable (q : Queue)

def isBlocked (keys : Bytes) : Bool :=
  (keyItems keys).any fun key =>
    match q.lockingkeys.find? key with
    | none => false
    | some lockNum => lockNum ≠ 0

def insertTx (tx : transactionWithReadWriteSet) : Option Queue :=
  ((keyItems tx.localreadwriteKey).foldlM lockKey q.lockingkeys).map fun lockingkeys =>
    { txs := q.txs ++ [tx], lockingkeys }

def insertTxs (reorderedTxs : List transactionWithReadWriteSet) : Option Queue :=
  (reorderedTxs.take (turns reorderedTxs.length)).foldlM insertTx q

def deleteTx : Option Queue :=
  match q.txs with
  | [] => none
  | tx :: txs =>
    ((keyItems tx.localreadwriteKey).foldlM unlockKey q.lockingkeys).map fun lockingkeys => { txs, lockingkeys }

/-- What stays in the queue, and what is pushed to `txQueue`. -/
def batch_pop : Queue × List transactionWithReadWriteSet :=
  ({ q with txs := q.txs.drop (turns q.txs.length) }, q.txs.take (turns q.txs.length))

end Queue

inductive Call
  | insertTx (tx : transactionWithReadWriteSet)
  | insertTxs (reorderedTxs : List transactionWithReadWriteSet)
  | deleteTx
  | batch_pop
  deriving DecidableEq

def Queue.step (q : Queue) : Call → Option Queue
  | .insertTx tx => q.insertTx tx
  | .insertTxs reorderedTxs => q.insertTxs reorderedTxs
  | .deleteTx => q.deleteTx
  | .batch_pop => some q.batch_pop.1

def calls : Machine (Option Queue) Call where
  step o call := o.bind fun q => q.step call

/-! ### What is claimed -/

def holds (txs : List transactionWithReadWriteSet) (key : Bytes) : Nat := (txs.map fun tx => tx.held.count key).sum

/-- `lockingkeys[key]`, which is zero where the key is missing. -/
def locks (lockingkeys : AssocMap Bytes Int) (key : Bytes) : Int := (lockingkeys.find? key).getD 0

structure Accounted (q : Queue) : Prop where
  counts : ∀ key, locks q.lockingkeys key = holds q.txs key
  blocked : ∀ keys, (split keys).length < 2 ^ 31 →
    (q.isBlocked keys = true ↔ ∃ key ∈ split keys, ∃ tx ∈ q.txs, key ∈ tx.held)
  nonneg : ∀ key, 0 ≤ locks q.lockingkeys key
  released : q.txs = [] → ∀ keys, q.isBlocked keys = false

def Right (o : Option Queue) : Prop := ∃ q, o = some q ∧ Accounted q

/-- The transactions list fewer than 2^31 keys each and, with those before them,
    none 2^31 times. -/
structure Room (q : Queue) (txs : List transactionWithReadWriteSet) : Prop where
  lists : ∀ tx ∈ txs, tx.held.length < 2 ^ 31
  holds : ∀ key, holds (q.txs ++ txs) key < 2 ^ 31

/-- Whole transactions fit, a transaction is there to delete, and none is moved
    away by `batch_pop`. -/
def Queue.Ok (q : Queue) : Call → Prop
  | .insertTx tx => Room q [tx]
  | .insertTxs reorderedTxs => Room q (reorderedTxs.take (turns reorderedTxs.length))
  | .deleteTx => q.txs ≠ []
  | .batch_pop => turns q.txs.length = 0

def Ok (o : Option Queue) (call : Call) : Prop := ∃ q, o = some q ∧ q.Ok call

/-! ### Counting -/

theorem locks_insert (m : AssocMap Bytes Int) (key : Bytes) (lockNum : Int) (key' : Bytes) :
    locks (m.insert key lockNum) key' = if key' = key then lockNum else locks m key' := by
  rw [locks, locks, AssocMap.find?_insert]
  by_cases h : key' = key
  · rw [if_pos h, if_pos h]
    rfl
  · rw [if_neg h, if_neg h]

theorem lockKey_some {m m' : AssocMap Bytes Int} {key : Bytes} (h : lockKey m key = some m') :
    (∀ key', locks m' key' = locks m key' + if key' = key then 1 else 0)
      ∧ ((∀ key', locks m key' < 2 ^ 31) → ∀ key', locks m' key' < 2 ^ 31) := by
  unfold lockKey at h
  cases hfind : m.find? key with
  | none =>
    rw [hfind] at h
    cases h
    have hzero : locks m key = 0 := by rw [locks, hfind, Option.getD_none]
    refine ⟨fun key' => ?_, fun hsmall key' => ?_⟩
    · rw [locks_insert]
      by_cases heq : key' = key
      · rw [if_pos heq, if_pos heq, heq, hzero]
        rfl
      · rw [if_neg heq, if_neg heq, add_zero]
    · rw [locks_insert]
      split
      · decide
      · exact hsmall key'
  | some lockNum =>
    rw [hfind] at h
    dsimp only at h
    have hlocks : locks m key = lockNum := by rw [locks, hfind, Option.getD_some]
    by_cases hroom : lockNum + 1 < 2 ^ 31
    · rw [if_pos hroom] at h
      cases h
      refine ⟨fun key' => ?_, fun hsmall key' => ?_⟩
      · rw [locks_insert]
        by_cases heq : key' = key
        · rw [if_pos heq, if_pos heq, heq, hlocks]
        · rw [if_neg heq, if_neg heq, add_zero]
      · rw [locks_insert]
        split
        · exact hroom
        · exact hsmall key'
    · rw [if_neg hroom] at h
      cases h

theorem exists_lockKey {m : AssocMap Bytes Int} {key : Bytes} (h : locks m key + 1 < 2 ^ 31) :
    ∃ m', lockKey m key = some m' := by
  unfold lockKey
  cases hfind : m.find? key with
  | none => exact ⟨_, rfl⟩
  | some lockNum =>
    rw [locks, hfind, Option.getD_some] at h
    exact ⟨_, if_pos h⟩

theorem locks_foldlM {keys : List Bytes} {m m' : AssocMap Bytes Int} (h : keys.foldlM lockKey m = some m') :
    (∀ key, locks m' key = locks m key + keys.count key)
      ∧ ((∀ key, locks m key < 2 ^ 31) → ∀ key, locks m' key < 2 ^ 31) := by
  induction keys generalizing m with
  | nil =>
    cases h
    exact ⟨fun key => (add_zero _).symm, fun hsmall => hsmall⟩
  | cons k keys ih =>
    rw [List.foldlM_cons] at h
    obtain ⟨m₁, hlock, hrest⟩ := Option.bind_eq_some_iff.mp h
    obtain ⟨hone, hsmallOne⟩ := lockKey_some hlock
    obtain ⟨hall, hsmallAll⟩ := ih hrest
    refine ⟨fun key => ?_, fun hsmall => hsmallAll (hsmallOne hsmall)⟩
    rw [hall, hone, List.count_cons]
    by_cases heq : key = k
    · simp [heq]
      omega
    · simp [heq, Ne.symm heq]

theorem exists_locks {keys : List Bytes} {m : AssocMap Bytes Int}
    (h : ∀ key, locks m key + keys.count key < 2 ^ 31) : ∃ m', keys.foldlM lockKey m = some m' := by
  induction keys generalizing m with
  | nil => exact ⟨m, rfl⟩
  | cons k keys ih =>
    have hk := h k
    rw [List.count_cons_self] at hk
    have hkRoom : locks m k + 1 < 2 ^ 31 := by omega
    obtain ⟨m₁, hlock⟩ := exists_lockKey hkRoom
    have hrest : ∀ key, locks m₁ key + keys.count key < 2 ^ 31 := by
      intro key
      have hkey := h key
      rw [List.count_cons] at hkey
      rw [(lockKey_some hlock).1]
      by_cases heq : key = k
      · simp [heq] at hkey ⊢
        omega
      · simp [heq, Ne.symm heq] at hkey ⊢
        exact hkey
    obtain ⟨m', hall⟩ := ih hrest
    refine ⟨m', ?_⟩
    rw [List.foldlM_cons, hlock]
    exact hall

theorem exists_unlocks {keys : List Bytes} {m : AssocMap Bytes Int}
    (h : ∀ key, (keys.count key : Int) ≤ locks m key) :
    ∃ m', keys.foldlM unlockKey m = some m' ∧ ∀ key, locks m' key = locks m key - keys.count key := by
  induction keys generalizing m with
  | nil => exact ⟨m, rfl, fun key => (sub_zero _).symm⟩
  | cons k keys ih =>
    have hk := h k
    rw [List.count_cons_self] at hk
    have hfind : m.find? k = some (locks m k) := by
      cases hnone : m.find? k with
      | none =>
        rw [locks, hnone, Option.getD_none] at hk
        omega
      | some lockNum => rw [locks, hnone, Option.getD_some]
    have hunlock : unlockKey m k = some (m.insert k (locks m k - 1)) := by
      rw [unlockKey, hfind]
      exact if_pos (by omega)
    have hone : ∀ key, locks (m.insert k (locks m k - 1)) key = locks m key - if key = k then 1 else 0 := by
      intro key
      rw [locks_insert]
      by_cases heq : key = k
      · rw [if_pos heq, if_pos heq, heq]
      · rw [if_neg heq, if_neg heq, sub_zero]
    obtain ⟨m', hrest, hall⟩ := ih (m := m.insert k (locks m k - 1)) fun key => by
      have hkey := h key
      rw [List.count_cons] at hkey
      rw [hone]
      by_cases heq : key = k
      · simp [heq] at hkey ⊢
        omega
      · simp [heq, Ne.symm heq] at hkey ⊢
        exact hkey
    refine ⟨m', ?_, fun key => ?_⟩
    · rw [List.foldlM_cons, hunlock]
      exact hrest
    · rw [hall, hone, List.count_cons]
      by_cases heq : key = k
      · simp [heq]
        omega
      · simp [heq, Ne.symm heq]

/-! ### The counts are right -/

theorem holds_nil (key : Bytes) : holds [] key = 0 := rfl

theorem holds_append (txs txs' : List transactionWithReadWriteSet) (key : Bytes) :
    holds (txs ++ txs') key = holds txs key + holds txs' key := by
  rw [holds, holds, holds, List.map_append, List.sum_append]

theorem holds_cons (tx : transactionWithReadWriteSet) (txs : List transactionWithReadWriteSet) (key : Bytes) :
    holds (tx :: txs) key = tx.held.count key + holds txs key := by
  rw [holds, holds, List.map_cons, List.sum_cons]

theorem holds_pos_iff {txs : List transactionWithReadWriteSet} {key : Bytes} :
    0 < holds txs key ↔ ∃ tx ∈ txs, key ∈ tx.held := by
  induction txs with
  | nil => simp [holds]
  | cons tx txs ih =>
    rw [holds_cons, Nat.add_pos_iff_pos_or_pos, ih, List.count_pos_iff, List.exists_mem_cons_iff]

theorem accounted_iff {q : Queue} : Accounted q ↔ ∀ key, locks q.lockingkeys key = holds q.txs key := by
  refine ⟨fun h => h.counts, fun h => ?_⟩
  have hlocked : ∀ key, (match q.lockingkeys.find? key with | none => false | some lockNum => decide (lockNum ≠ 0)) = true
      ↔ ∃ tx ∈ q.txs, key ∈ tx.held := by
    intro key
    have hkey := h key
    rw [← holds_pos_iff]
    cases hfind : q.lockingkeys.find? key with
    | none =>
      rw [locks, hfind, Option.getD_none] at hkey
      simp
      omega
    | some lockNum =>
      rw [locks, hfind, Option.getD_some] at hkey
      simp
      omega
  have hblocked : ∀ keys, q.isBlocked keys = true ↔ ∃ key ∈ keyItems keys, ∃ tx ∈ q.txs, key ∈ tx.held := by
    intro keys
    rw [Queue.isBlocked, List.any_eq_true]
    exact exists_congr fun key => and_congr_right fun _ => hlocked key
  refine ⟨h, fun keys hlt => ?_, fun key => h key ▸ Int.natCast_nonneg _, fun hempty keys => ?_⟩
  · rw [hblocked, keyItems_of_lt hlt]
  · rw [← Bool.not_eq_true, hblocked, hempty]
    rintro ⟨_, -, _, hmem, -⟩
    cases hmem

theorem insertTx_some {q q' : Queue} {tx : transactionWithReadWriteSet} (h : q.insertTx tx = some q') :
    q'.txs = q.txs ++ [tx]
      ∧ (∀ key, locks q'.lockingkeys key = locks q.lockingkeys key + (keyItems tx.localreadwriteKey).count key)
      ∧ ((∀ key, locks q.lockingkeys key < 2 ^ 31) → ∀ key, locks q'.lockingkeys key < 2 ^ 31) := by
  obtain ⟨m', hlock, rfl⟩ := Option.map_eq_some_iff.mp h
  exact ⟨rfl, locks_foldlM hlock⟩

theorem txs_inserts {txs : List transactionWithReadWriteSet} {q q' : Queue}
    (h : txs.foldlM Queue.insertTx q = some q') : q'.txs = q.txs ++ txs := by
  induction txs generalizing q with
  | nil =>
    cases h
    exact (List.append_nil _).symm
  | cons tx txs ih =>
    rw [List.foldlM_cons] at h
    obtain ⟨q₁, hinsert, hrest⟩ := Option.bind_eq_some_iff.mp h
    rw [ih hrest, (insertTx_some hinsert).1, List.append_assoc]
    rfl

theorem inserts_some {txs : List transactionWithReadWriteSet} {q q' : Queue} (h : txs.foldlM Queue.insertTx q = some q')
    (hle : ∀ key, locks q.lockingkeys key ≤ holds q.txs key) :
    (∀ key, locks q'.lockingkeys key ≤ holds q'.txs key)
      ∧ ((∀ key, locks q.lockingkeys key < 2 ^ 31) → ∀ key, locks q'.lockingkeys key < 2 ^ 31)
      ∧ ((∀ key, locks q'.lockingkeys key = holds q'.txs key) →
        (∀ key, locks q.lockingkeys key = holds q.txs key) ∧ ∀ tx ∈ txs, tx.held.length < 2 ^ 31) := by
  induction txs generalizing q with
  | nil =>
    cases h
    exact ⟨hle, fun hsmall => hsmall, fun heq => ⟨heq, nofun⟩⟩
  | cons tx txs ih =>
    rw [List.foldlM_cons] at h
    obtain ⟨q₁, hinsert, hrest⟩ := Option.bind_eq_some_iff.mp h
    obtain ⟨htxs, hlocks, hsmallOne⟩ := insertTx_some hinsert
    have hvisited : ∀ key, (keyItems tx.localreadwriteKey).count key ≤ tx.held.count key := fun key =>
      (List.take_sublist _ _).count_le key
    have hholds : ∀ key, holds q₁.txs key = holds q.txs key + tx.held.count key := by
      intro key
      rw [htxs, holds_append, holds_cons, holds_nil, add_zero]
    have hle₁ : ∀ key, locks q₁.lockingkeys key ≤ holds q₁.txs key := by
      intro key
      have := hle key
      have := hvisited key
      rw [hlocks, hholds]
      omega
    obtain ⟨hleAll, hsmallAll, hright⟩ := ih hrest hle₁
    refine ⟨hleAll, fun hsmall => hsmallAll (hsmallOne hsmall), fun heq => ?_⟩
    obtain ⟨heq₁, hlists⟩ := hright heq
    have hboth : ∀ key, locks q.lockingkeys key = holds q.txs key
        ∧ (keyItems tx.localreadwriteKey).count key = tx.held.count key := by
      intro key
      have hkey := heq₁ key
      have := hle key
      have := hvisited key
      rw [hlocks, hholds] at hkey
      omega
    refine ⟨fun key => (hboth key).1, fun tx' htx' => ?_⟩
    rcases List.mem_cons.mp htx' with rfl | htx'
    · have hperm : (keyItems tx'.localreadwriteKey).Perm tx'.held := List.perm_iff_count.mpr fun key => (hboth key).2
      exact lt_of_keyItems ((List.take_sublist _ _).eq_of_length hperm.length_eq)
    · exact hlists tx' htx'

theorem inserts_room {txs : List transactionWithReadWriteSet} {q : Queue} (hroom : Room q txs)
    (heq : ∀ key, locks q.lockingkeys key = holds q.txs key) :
    ∃ q', txs.foldlM Queue.insertTx q = some q' ∧ q'.txs = q.txs ++ txs
      ∧ ∀ key, locks q'.lockingkeys key = holds q'.txs key := by
  induction txs generalizing q with
  | nil => exact ⟨q, rfl, (List.append_nil _).symm, heq⟩
  | cons tx txs ih =>
    have hitems : keyItems tx.localreadwriteKey = tx.held := keyItems_of_lt (hroom.lists tx List.mem_cons_self)
    have hfits : ∀ key, locks q.lockingkeys key + (keyItems tx.localreadwriteKey).count key < 2 ^ 31 := by
      intro key
      have hkey := hroom.holds key
      rw [holds_append, holds_cons] at hkey
      rw [heq, hitems]
      omega
    obtain ⟨m', hlock⟩ := exists_locks hfits
    have hinsert : q.insertTx tx = some { txs := q.txs ++ [tx], lockingkeys := m' } := by
      rw [Queue.insertTx, hlock, Option.map_some]
    obtain ⟨-, hlocks, -⟩ := insertTx_some hinsert
    have happend : q.txs ++ tx :: txs = (q.txs ++ [tx]) ++ txs := by
      rw [List.append_assoc]
      rfl
    obtain ⟨q', hrest, htxs, hright⟩ := ih (q := { txs := q.txs ++ [tx], lockingkeys := m' })
      ⟨fun tx' htx' => hroom.lists tx' (List.mem_cons_of_mem _ htx'), fun key => happend ▸ hroom.holds key⟩ fun key => by
        rw [hlocks, heq, hitems, holds_append, holds_cons, holds_nil]
        push_cast
        rfl
    refine ⟨q', ?_, htxs.trans happend.symm, hright⟩
    rw [List.foldlM_cons, hinsert]
    exact hrest

theorem right_inserts_iff {q : Queue} (h : Accounted q) (hsmall : ∀ key, holds q.txs key < 2 ^ 31)
    (txs : List transactionWithReadWriteSet) : Right (txs.foldlM Queue.insertTx q) ↔ Room q txs := by
  constructor
  · rintro ⟨q', hinsert, haccounted⟩
    obtain ⟨-, hbounded, hright⟩ := inserts_some hinsert fun key => (h.counts key).le
    refine ⟨(hright haccounted.counts).2, fun key => ?_⟩
    have hkey := hbounded (fun key => by
      have := hsmall key
      rw [h.counts]
      omega) key
    rw [haccounted.counts, txs_inserts hinsert] at hkey
    omega
  · intro hroom
    obtain ⟨q', hinsert, -, hright⟩ := inserts_room hroom h.counts
    exact ⟨q', hinsert, accounted_iff.mpr hright⟩

theorem right_deleteTx {q : Queue} (h : Accounted q) {tx : transactionWithReadWriteSet}
    {txs : List transactionWithReadWriteSet} (htxs : q.txs = tx :: txs) (hlist : tx.held.length < 2 ^ 31) :
    ∃ q', q.deleteTx = some q' ∧ q'.txs = txs ∧ Accounted q' := by
  have hcounts : ∀ key, locks q.lockingkeys key = tx.held.count key + holds txs key := by
    intro key
    rw [h.counts, htxs, holds_cons]
    push_cast
    rfl
  have hitems : keyItems tx.localreadwriteKey = tx.held := keyItems_of_lt hlist
  have hheld : ∀ key, (tx.held.count key : Int) ≤ locks q.lockingkeys key := by
    intro key
    rw [hcounts]
    omega
  obtain ⟨m', hunlock, hlocks⟩ := exists_unlocks hheld
  refine ⟨{ txs, lockingkeys := m' }, ?_, rfl, accounted_iff.mpr fun key => ?_⟩
  · rw [Queue.deleteTx, htxs]
    dsimp only
    rw [hitems, hunlock, Option.map_some]
  · rw [hlocks, hcounts, add_sub_cancel_left]

/-- What the right steps keep: no list of keys and no count is too long for an
    `int`. -/
def Bounded (o : Option Queue) : Prop :=
  ∀ q, o = some q → (∀ tx ∈ q.txs, tx.held.length < 2 ^ 31) ∧ ∀ key, holds q.txs key < 2 ^ 31

theorem calls_step (q : Queue) (call : Call) : calls.step (some q) call = q.step call := rfl

theorem bounded_inserts {q : Queue} (hbounded : Bounded (some q)) {txs : List transactionWithReadWriteSet}
    (hroom : Room q txs) : Bounded (txs.foldlM Queue.insertTx q) := by
  intro q' hinsert
  rw [txs_inserts hinsert]
  refine ⟨fun tx htx => ?_, hroom.holds⟩
  rcases List.mem_append.mp htx with htx | htx
  · exact (hbounded q rfl).1 tx htx
  · exact hroom.lists tx htx

theorem insertTx_eq (q : Queue) (tx : transactionWithReadWriteSet) :
    q.step (.insertTx tx) = [tx].foldlM Queue.insertTx q := by
  rw [List.foldlM_cons]
  exact (bind_pure _).symm

theorem batch_pop_idle {q : Queue} (h : turns q.txs.length = 0) : q.batch_pop.1 = q := by
  rw [Queue.batch_pop, h]
  rfl

theorem bounded_step {o : Option Queue} (hbounded : Bounded o) {call : Call} (hok : Ok o call) :
    Bounded (calls.step o call) := by
  obtain ⟨q, rfl, hok⟩ := hok
  rw [calls_step]
  cases call with
  | insertTx tx => exact insertTx_eq q tx ▸ bounded_inserts hbounded hok
  | insertTxs reorderedTxs => exact bounded_inserts hbounded hok
  | deleteTx =>
    obtain ⟨tx, txs, htxs⟩ := List.exists_cons_of_ne_nil hok
    obtain ⟨hlists, hholds⟩ := hbounded q rfl
    rw [htxs] at hlists hholds
    intro q' hdelete
    rw [Queue.step, Queue.deleteTx, htxs] at hdelete
    obtain ⟨m', -, rfl⟩ := Option.map_eq_some_iff.mp hdelete
    refine ⟨fun tx' htx' => hlists tx' (List.mem_cons_of_mem tx htx'), fun key => ?_⟩
    have hkey := hholds key
    rw [holds_cons] at hkey
    exact (Nat.le_add_left _ _).trans_lt hkey
  | batch_pop =>
    rw [Queue.step, batch_pop_idle hok]
    exact hbounded

theorem not_accounted_batch_pop {q : Queue} (h : Accounted q) (hturns : turns q.txs.length ≠ 0)
    (hne : q.txs ≠ []) : ¬ Accounted q.batch_pop.1 := by
  intro hpopped
  obtain ⟨tx, txs, htxs⟩ := List.exists_cons_of_ne_nil hne
  obtain ⟨key, hkey⟩ := List.exists_mem_of_ne_nil _ (split_ne_nil tx.localreadwriteKey)
  have hbefore := h.counts key
  have hafter := hpopped.counts key
  have hsame : locks q.batch_pop.1.lockingkeys key = locks q.lockingkeys key := rfl
  have hsplit : holds q.txs key = holds (q.txs.take (turns q.txs.length)) key + holds q.batch_pop.1.txs key := by
    rw [← holds_append]
    exact congrArg (holds · key) (List.take_append_drop _ _).symm
  obtain ⟨n, hn⟩ := Nat.exists_eq_succ_of_ne_zero hturns
  have hmoved : 0 < holds (q.txs.take (turns q.txs.length)) key := by
    rw [hn, htxs, List.take_succ_cons]
    exact holds_pos_iff.mpr ⟨tx, List.mem_cons_self, hkey⟩
  rw [hsame, hbefore, hsplit] at hafter
  omega

theorem right_step_iff {o : Option Queue} (hbounded : Bounded o) (h : Right o) (call : Call) :
    Right (calls.step o call) ↔ Ok o call := by
  obtain ⟨q, rfl, haccounted⟩ := h
  obtain ⟨hlists, hholds⟩ := hbounded q rfl
  have hok : Ok (some q) call ↔ q.Ok call := by
    constructor
    · rintro ⟨q', heq, hok⟩
      cases heq
      exact hok
    · exact fun hok => ⟨q, rfl, hok⟩
  rw [hok, calls_step]
  cases call with
  | insertTx tx => exact insertTx_eq q tx ▸ right_inserts_iff haccounted hholds [tx]
  | insertTxs reorderedTxs => exact right_inserts_iff haccounted hholds _
  | deleteTx =>
    constructor
    · rintro ⟨q', hdelete, -⟩ hempty
      rw [Queue.step, Queue.deleteTx, hempty] at hdelete
      cases hdelete
    · intro hne
      obtain ⟨tx, txs, htxs⟩ := List.exists_cons_of_ne_nil hne
      obtain ⟨q', hdelete, -, hright⟩ := right_deleteTx haccounted htxs (hlists tx (htxs ▸ List.mem_cons_self))
      exact ⟨q', hdelete, hright⟩
  | batch_pop =>
    constructor
    · rintro ⟨q', hpop, hright⟩
      cases hpop
      by_contra hturns
      refine not_accounted_batch_pop haccounted hturns (fun hempty => hturns ?_) hright
      show turns q.txs.length = 0
      rw [hempty]
      rfl
    · intro hturns
      rw [Queue.step, batch_pop_idle hturns]
      exact ⟨q, rfl, haccounted⟩

/-- The counts are right after each call exactly when every transaction fits,
    deletions meet a transaction, and `batch_pop` moves none. -/
theorem accounted_run_iff (is : List Call) :
    (∀ n, Right (calls.run (some {}) (is.take n))) ↔ calls.RunOk Ok (some {}) is := by
  have hbounded : Bounded (some {}) := by
    rintro q ⟨⟩
    refine ⟨nofun, fun key => ?_⟩
    rw [holds_nil]
    decide
  have hright : Right (some {}) := ⟨{}, rfl, accounted_iff.mpr fun key => rfl⟩
  exact calls.forall_take_iff_of_ok (P := Right) (fun _ _ h hok => bounded_step h hok)
    (fun _ call h hP => right_step_iff h hP call) is hbounded hright

def listed (txs : List transactionWithReadWriteSet) : Nat := (txs.map fun tx => tx.held.length).sum

theorem holds_le_listed (txs : List transactionWithReadWriteSet) (key : Bytes) : holds txs key ≤ listed txs := by
  induction txs with
  | nil => exact le_refl _
  | cons tx txs ih =>
    rw [holds_cons, listed, List.map_cons, List.sum_cons]
    exact Nat.add_le_add List.count_le_length ih

theorem room_of_listed {q : Queue} {txs : List transactionWithReadWriteSet} (h : listed (q.txs ++ txs) < 2 ^ 31) :
    Room q txs := by
  refine ⟨fun tx htx => ?_, fun key => (holds_le_listed _ key).trans_lt h⟩
  have hmem : tx.held.length ∈ (q.txs ++ txs).map fun tx => tx.held.length :=
    List.mem_map_of_mem (List.mem_append_right _ htx)
  exact (List.single_le_sum (fun n _ => Nat.zero_le n) _ hmem).trans_lt h

def Short (o : Option Queue) (call : Call) : Prop :=
  match o, call with
  | none, _ => False
  | some q, .insertTx tx => listed (q.txs ++ [tx]) < 2 ^ 31
  | some q, .insertTxs reorderedTxs => listed (q.txs ++ reorderedTxs.take (turns reorderedTxs.length)) < 2 ^ 31
  | some q, .deleteTx => q.txs ≠ []
  | some q, .batch_pop => turns q.txs.length = 0

instance (o : Option Queue) (call : Call) : Decidable (Short o call) := by
  unfold Short
  split <;> infer_instance

theorem ok_of_short (o : Option Queue) (call : Call) (h : Short o call) : Ok o call := by
  cases o with
  | none => exact h.elim
  | some q =>
    refine ⟨q, rfl, ?_⟩
    cases call with
    | insertTx tx => exact room_of_listed h
    | insertTxs reorderedTxs => exact room_of_listed h
    | deleteTx => exact h
    | batch_pop => exact h

/-- Three transactions: on `a_b`, on `b__b` and on no key. -/
theorem accounted_run_three : ∀ n, Right (calls.run (some {})
    ([.insertTx ⟨[97, 95, 98]⟩, .insertTxs [⟨[98, 95, 95, 98]⟩, ⟨[]⟩], .deleteTx, .deleteTx, .deleteTx,
      .batch_pop].take n)) := by
  refine (accounted_run_iff _).mpr (Machine.RunOk.mono calls ok_of_short ?_)
  decide

/-- A transaction that `batch_pop` moved away blocks its key. -/
theorem moved_transaction_blocks : ¬ Right (calls.run (some {}) [.insertTx ⟨[97]⟩, .batch_pop]) := by
  rintro ⟨q, hrun, haccounted⟩
  have hq : q = { txs := [], lockingkeys := (AssocMap.empty : AssocMap Bytes Int).insert [97] 1 } :=
    (Option.some.inj hrun).symm
  have hreleased := haccounted.released (hq ▸ rfl) [97]
  rw [hq] at hreleased
  revert hreleased
  decide

end HieraChain.BlockingTxQueue
