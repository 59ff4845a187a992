/-
  HieraChain/EventLogFilter.lean
  ==============================
  **Event filters and the logs of a block** (`libeventfilter/EventLogFilter.cpp`,
  `EventLogFilterParams.h`).

  A filter has a set of addresses and four sets of topics, one for each position.
  `Wanted` is the condition a log has to meet; `matchesLog` is the code's test
  of it, which reads the topics of the log one position too far: at the position
  just behind the last topic it reads memory that is not the log's
  (`matchesLog_eq_none`).  Everywhere else the test decides `Wanted`
  (`matchesLog_eq_some`), and a block's matches are its wanted logs in order
  (`matchesBlock_eq`).
-/
import Mathlib.Order.Fin.Basic
import HieraChain.BigEndian

namespace HieraChain.EventPush

open HieraChain.BigEndian

/-! ### Logs, blocks and what a client receives -/

/-- `INT64_MAX`, which stands for "latest". -/
def MAX_BLOCK_NUMBER : Nat := 2 ^ 63 - 1

def MAX_NUM_TOPIC_EVENT_LOG : Nat := 4

structure LogEntry (A H : Type) where
  address : A
  topics : List H
  data : Bytes
  deriving DecidableEq, Repr

/-- What the filters read of a block: hashes of its transactions and the logs of
    their receipts. -/
structure Block (A H : Type) where
  number : Nat
  hash : H
  transactions : List H
  receipts : List (List (LogEntry A H))
  paired : receipts.length = transactions.length

structure Response (A H : Type) where
  blockNumber : Nat
  blockHash : H
  log : LogEntry A H
  logIndex : Nat
  transactionHash : H
  transactionIndex : Nat
  deriving DecidableEq, Repr

structure EventLogFilterParams (A H : Type) where
  groupID : Nat
  filterID : Bytes
  fromBlock : Nat
  toBlock : Nat
  addresses : List A
  topics : Fin MAX_NUM_TOPIC_EVENT_LOG → List H

variable {A H : Type} [DecidableEq A] [DecidableEq H]

/-! ### One log -/

def TopicAt (p : EventLogFilterParams A H) (log : LogEntry A H) (i : Fin MAX_NUM_TOPIC_EVENT_LOG) : Prop :=
  p.topics i = [] ∨ ∃ t, log.topics[i.val]? = some t ∧ t ∈ p.topics i

instance (p : EventLogFilterParams A H) (log : LogEntry A H) (i : Fin MAX_NUM_TOPIC_EVENT_LOG) :
    Decidable (TopicAt p log i) :=
  match h : log.topics[i.val]? with
  | some t => decidable_of_iff (p.topics i = [] ∨ t ∈ p.topics i) (by simp [TopicAt, h])
  | none => decidable_of_iff (p.topics i = []) (by simp [TopicAt, h])

def AddressOk (p : EventLogFilterParams A H) (log : LogEntry A H) : Prop :=
  p.addresses = [] ∨ log.address ∈ p.addresses

instance (p : EventLogFilterParams A H) (log : LogEntry A H) : Decidable (AddressOk p log) :=
  inferInstanceAs (Decidable (_ ∨ _))

def Wanted (p : EventLogFilterParams A H) (log : LogEntry A H) : Prop :=
  AddressOk p log ∧ ∀ i, TopicAt p log i

instance (p : EventLogFilterParams A H) (log : LogEntry A H) : Decidable (Wanted p log) :=
  inferInstanceAs (Decidable (_ ∧ _))

/-- The loop over the positions; `none`: it reads a topic that is not there. -/
def matchesTopics (p : EventLogFilterParams A H) (log : LogEntry A H) :
    List (Fin MAX_NUM_TOPIC_EVENT_LOG) → Option Bool
  | [] => some true
  | i :: is =>
    if p.topics i = [] then matchesTopics p log is
    else if log.topics.length < i then some false
    else
      match log.topics[i.val]? with
      | none => none
      | some t => if t ∈ p.topics i then matchesTopics p log is else some false

def matchesLog (p : EventLogFilterParams A H) (log : LogEntry A H) : Option Bool :=
  if p.addresses ≠ [] ∧ log.address ∉ p.addresses then some false
  else matchesTopics p log (List.finRange MAX_NUM_TOPIC_EVENT_LOG)

/-- The log ends just before a position with topics, and matches up to there. -/
def EndsShort (p : EventLogFilterParams A H) (log : LogEntry A H) : Prop :=
  AddressOk p log ∧ ∃ i : Fin MAX_NUM_TOPIC_EVENT_LOG,
    i.val = log.topics.length ∧ p.topics i ≠ [] ∧ ∀ j < i, TopicAt p log j

instance (p : EventLogFilterParams A H) (log : LogEntry A H) : Decidable (EndsShort p log) :=
  inferInstanceAs (Decidable (_ ∧ ∃ _ : Fin MAX_NUM_TOPIC_EVENT_LOG, _))

omit [DecidableEq A] [DecidableEq H] in
theorem topicAt_of_mem {p : EventLogFilterParams A H} {log : LogEntry A H} {i : Fin MAX_NUM_TOPIC_EVENT_LOG} {t : H}
    (ht : log.topics[i.val]? = some t) (h : t ∈ p.topics i) : TopicAt p log i := .inr ⟨t, ht, h⟩

omit [DecidableEq A] [DecidableEq H] in
theorem not_topicAt_of_not_mem {p : EventLogFilterParams A H} {log : LogEntry A H} {i : Fin MAX_NUM_TOPIC_EVENT_LOG}
    {t : H} (hne : p.topics i ≠ []) (ht : log.topics[i.val]? = some t) (h : t ∉ p.topics i) :
    ¬ TopicAt p log i := by
  rintro (hnil | ⟨u, hu, hmem⟩)
  · exact hne hnil
  · rw [ht] at hu
    cases hu
    exact h hmem

omit [DecidableEq A] [DecidableEq H] in
theorem not_topicAt_of_short {p : EventLogFilterParams A H} {log : LogEntry A H} {i : Fin MAX_NUM_TOPIC_EVENT_LOG}
    (hne : p.topics i ≠ []) (h : log.topics.length ≤ i) : ¬ TopicAt p log i := by
  rintro (hnil | ⟨t, ht, -⟩)
  · exact hne hnil
  · rw [List.getElem?_eq_none h] at ht
    cases ht

omit [DecidableEq A] in
/-- What the loop finds in the positions that are left: a read behind the last
    topic exactly at a position that ends the log, else whether they all match. -/
theorem matchesTopics_eq (p : EventLogFilterParams A H) (log : LogEntry A H)
    (is : List (Fin MAX_NUM_TOPIC_EVENT_LOG)) (hsorted : is.Pairwise (· < ·)) :
    matchesTopics p log is =
      if ∃ i ∈ is, i.val = log.topics.length ∧ p.topics i ≠ [] ∧ ∀ j ∈ is, j < i → TopicAt p log j then none
      else some (decide (∀ i ∈ is, TopicAt p log i)) := by
  induction is with
  | nil => simp [matchesTopics]
  | cons i is ih =>
    obtain ⟨hfirst, hrest⟩ := List.pairwise_cons.mp hsorted
    -- a position that matches can be left out
    have hskip : TopicAt p log i → (i.val = log.topics.length → p.topics i = []) →
        matchesTopics p log (i :: is) = matchesTopics p log is →
        matchesTopics p log (i :: is) =
          if ∃ k ∈ i :: is, k.val = log.topics.length ∧ p.topics k ≠ [] ∧
              ∀ j ∈ i :: is, j < k → TopicAt p log j then none
          else some (decide (∀ k ∈ i :: is, TopicAt p log k)) := by
      intro hi hend hloop
      rw [hloop, ih hrest]
      have hshort : (∃ k ∈ i :: is, k.val = log.topics.length ∧ p.topics k ≠ [] ∧
            ∀ j ∈ i :: is, j < k → TopicAt p log j) ↔
          ∃ k ∈ is, k.val = log.topics.length ∧ p.topics k ≠ [] ∧ ∀ j ∈ is, j < k → TopicAt p log j := by
        simp only [List.mem_cons, exists_eq_or_imp, forall_eq_or_imp]
        constructor
        · rintro (⟨hlen, hne, -⟩ | ⟨k, hk, hlen, hne, -, hbefore⟩)
          · exact absurd (hend hlen) hne
          · exact ⟨k, hk, hlen, hne, hbefore⟩
        · rintro ⟨k, hk, hlen, hne, hbefore⟩
          exact .inr ⟨k, hk, hlen, hne, fun _ => hi, hbefore⟩
      have hall : (∀ k ∈ i :: is, TopicAt p log k) ↔ ∀ k ∈ is, TopicAt p log k := by
        simp only [List.mem_cons, forall_eq_or_imp]
        exact ⟨fun h => h.2, fun h => ⟨hi, h⟩⟩
      rw [if_congr hshort rfl rfl, decide_eq_decide.mpr hall]
    -- a position that does not match ends the loop
    have hstop : ¬ TopicAt p log i → i.val ≠ log.topics.length →
        some false =
          if ∃ k ∈ i :: is, k.val = log.topics.length ∧ p.topics k ≠ [] ∧
              ∀ j ∈ i :: is, j < k → TopicAt p log j then none
          else some (decide (∀ k ∈ i :: is, TopicAt p log k)) := by
      intro hi hlen
      have hnone : ¬ ∃ k ∈ i :: is, k.val = log.topics.length ∧ p.topics k ≠ [] ∧
          ∀ j ∈ i :: is, j < k → TopicAt p log j := by
        rintro ⟨k, hk, hklen, -, hbefore⟩
        rcases List.mem_cons.mp hk with rfl | hk
        · exact hlen hklen
        · exact hi (hbefore i List.mem_cons_self (hfirst k hk))
      have hall : ¬ ∀ k ∈ i :: is, TopicAt p log k := fun h => hi (h i List.mem_cons_self)
      rw [if_neg hnone, decide_eq_false hall]
    by_cases hnil : p.topics i = []
    · exact hskip (.inl hnil) (fun _ => hnil) (by simp [matchesTopics, hnil])
    by_cases hlt : log.topics.length < i
    · rw [← hstop (not_topicAt_of_short hnil hlt.le) (by omega)]
      simp [matchesTopics, hnil, hlt]
    cases ht : log.topics[i.val]? with
    | none =>
      have hlen : i.val = log.topics.length := by
        have hle := List.getElem?_eq_none_iff.mp ht
        omega
      rw [if_pos]
      · simp [matchesTopics, hnil, hlt, ht]
      · refine ⟨i, List.mem_cons_self, hlen, hnil, ?_⟩
        intro j hj hji
        rcases List.mem_cons.mp hj with rfl | hj
        · exact absurd hji (Fin.lt_irrefl _)
        · exact absurd (hfirst j hj) (Fin.lt_asymm hji)
    | some t =>
      have hne : i.val ≠ log.topics.length := by
        have hlt' := (List.getElem?_eq_some_iff.mp ht).1
        omega
      by_cases hmem : t ∈ p.topics i
      · refine hskip (topicAt_of_mem ht hmem) (fun h => absurd h hne) ?_
        simp [matchesTopics, hnil, hlt, ht, hmem]
      · rw [← hstop (not_topicAt_of_not_mem hnil ht hmem) hne]
        simp [matchesTopics, hnil, hlt, ht, hmem]

theorem matchesLog_eq (p : EventLogFilterParams A H) (log : LogEntry A H) :
    matchesLog p log = if EndsShort p log then none else some (decide (Wanted p log)) := by
  have haddress : (p.addresses ≠ [] ∧ log.address ∉ p.addresses) ↔ ¬ AddressOk p log := by
    rw [AddressOk, not_or]
  simp only [matchesLog, if_congr haddress rfl rfl]
  by_cases h : AddressOk p log
  · rw [if_neg (not_not.mpr h), matchesTopics_eq p log _ (List.pairwise_lt_finRange _)]
    simp only [List.mem_finRange, true_and, true_implies]
    simp [EndsShort, Wanted, h]
  · simp [EndsShort, Wanted, h]

theorem matchesLog_eq_none {p : EventLogFilterParams A H} {log : LogEntry A H} :
    matchesLog p log = none ↔ EndsShort p log := by
  rw [matchesLog_eq]
  split <;> simp_all

theorem matchesLog_eq_some {p : EventLogFilterParams A H} {log : LogEntry A H} (h : ¬ EndsShort p log) :
    matchesLog p log = some (decide (Wanted p log)) := by
  rw [matchesLog_eq, if_neg h]

/-! ### One block -/

/-- The inner loop of `matches`, over the logs of one receipt from index `j`. -/
def matchesLogs (p : EventLogFilterParams A H) (response : Nat → LogEntry A H → Response A H) :
    Nat → List (LogEntry A H) → Option (List (Response A H))
  | _, [] => some []
  | j, log :: logs => do
    let isMatch ← matchesLog p log
    let rest ← matchesLogs p response (j + 1) logs
    return if isMatch then response j log :: rest else rest

/-- The outer loop, over the receipts from index `i`. -/
def matchesReceipts (p : EventLogFilterParams A H) (b : Block A H) :
    Nat → List (List (LogEntry A H)) → List H → Option (List (Response A H))
  | _, [], _ => some []
  | _, _ :: _, [] => none
  | i, logs :: receipts, tx :: transactions => do
    let found ← matchesLogs p (fun j log => ⟨b.number, b.hash, log, j, tx, i⟩) 0 logs
    let rest ← matchesReceipts p b (i + 1) receipts transactions
    return found ++ rest

def matchesBlock (p : EventLogFilterParams A H) (b : Block A H) : Option (List (Response A H)) :=
  matchesReceipts p b 0 b.receipts b.transactions

/-- The logs of one receipt with their places, from index `j`. -/
def placed (response : Nat → LogEntry A H → Response A H) : Nat → List (LogEntry A H) → List (Response A H)
  | _, [] => []
  | j, log :: logs => response j log :: placed response (j + 1) logs

def placedReceipts (b : Block A H) : Nat → List (List (LogEntry A H)) → List H → List (Response A H)
  | i, logs :: receipts, tx :: transactions =>
    placed (fun j log => ⟨b.number, b.hash, log, j, tx, i⟩) 0 logs ++ placedReceipts b (i + 1) receipts transactions
  | _, _, _ => []

def Block.logs (b : Block A H) : List (Response A H) := placedReceipts b 0 b.receipts b.transactions

def Block.wanted (p : EventLogFilterParams A H) (b : Block A H) : List (Response A H) :=
  b.logs.filter fun r => Wanted p r.log

def Block.ReadsInside (p : EventLogFilterParams A H) (b : Block A H) : Prop :=
  ∀ r ∈ b.logs, ¬ EndsShort p r.log

instance (p : EventLogFilterParams A H) (b : Block A H) : Decidable (b.ReadsInside p) :=
  inferInstanceAs (Decidable (∀ r ∈ b.logs, _))

def search (p : EventLogFilterParams A H) (rs : List (Response A H)) : Option (List (Response A H)) :=
  if ∀ r ∈ rs, ¬ EndsShort p r.log then some (rs.filter fun r => Wanted p r.log) else none

@[simp] theorem search_nil (p : EventLogFilterParams A H) : search p ([] : List (Response A H)) = some [] := rfl

theorem search_append (p : EventLogFilterParams A H) (rs rs' : List (Response A H)) :
    search p (rs ++ rs') = do
      let found ← search p rs
      let rest ← search p rs'
      return found ++ rest := by
  simp only [search, List.forall_mem_append, List.filter_append]
  by_cases h : ∀ r ∈ rs, ¬ EndsShort p r.log
  · by_cases h' : ∀ r ∈ rs', ¬ EndsShort p r.log
    · rw [if_pos ⟨h, h'⟩, if_pos h, if_pos h']
      rfl
    · rw [if_neg fun hand => h' hand.2, if_pos h, if_neg h']
      rfl
  · rw [if_neg fun hand => h hand.1, if_neg h]
    rfl

theorem matchesLogs_eq (p : EventLogFilterParams A H) {response : Nat → LogEntry A H → Response A H}
    (hlog : ∀ j log, (response j log).log = log) (logs : List (LogEntry A H)) (j : Nat) :
    matchesLogs p response j logs = search p (placed response j logs) := by
  induction logs generalizing j with
  | nil => rfl
  | cons log logs ih =>
    have hone : search p [response j log] = (matchesLog p log).map fun isMatch => if isMatch then [response j log] else [] := by
      simp only [search, List.forall_mem_singleton, hlog]
      by_cases h : EndsShort p log
      · simp [matchesLog_eq_none.mpr h, h]
      · by_cases hwanted : Wanted p log <;> simp [matchesLog_eq_some h, h, hwanted, hlog]
    rw [placed, matchesLogs, ih, ← List.singleton_append (l := placed response (j + 1) logs), search_append, hone]
    cases matchesLog p log with
    | none => rfl
    | some isMatch =>
      cases search p (placed response (j + 1) logs) with
      | none => rfl
      | some rest => cases isMatch <;> rfl

theorem matchesReceipts_eq (p : EventLogFilterParams A H) (b : Block A H) (i : Nat)
    (receipts : List (List (LogEntry A H))) (transactions : List H)
    (hpaired : receipts.length = transactions.length) :
    matchesReceipts p b i receipts transactions = search p (placedReceipts b i receipts transactions) := by
  induction receipts generalizing i transactions with
  | nil => rfl
  | cons logs receipts ih =>
    cases transactions with
    | nil => cases hpaired
    | cons tx transactions =>
      rw [placedReceipts, search_append, matchesReceipts, ih _ _ (Nat.succ.inj hpaired),
        matchesLogs_eq p (fun _ _ => rfl)]

/-- **A block's matches** are its wanted logs in order, unless one of its logs is
    read behind its last topic. -/
theorem matchesBlock_eq (p : EventLogFilterParams A H) (b : Block A H) :
    matchesBlock p b = if b.ReadsInside p then some (b.wanted p) else none :=
  matchesReceipts_eq p b 0 b.receipts b.transactions b.paired

/-- The address and the first topic match, the filter names a second topic, and
    the log has only one: the code's test reads a topic that is not there. -/
example : matchesLog (A := Nat) (H := Nat)
    ⟨1, [49], 0, 9, [], fun i => if i.val = 1 then [8] else []⟩ ⟨5, [7], []⟩ = none := by decide

end HieraChain.EventPush
