/-
  HieraChain/ParallelExecution.lean
  =================================
  **A block that is executed in parallel ends as in block order**
  (`BlockVerifier::parallelExecuteBlock`).

  A worker executes its transaction on the state of the block and puts the
  receipt into the transaction's place.  Where every transaction is local to its
  critical fields, transactions that do not conflict can be done in either order
  (`execute_comm`), and conflicts are executed in block order.  So every order
  in which the workers execute the block gives the state and the receipts of the
  block order (`parallel_as_serial`).  Transfers are local to the users of their
  tags, so no order of them makes or loses money (`parallel_conserves`).

  An execution takes effect when it is over.
-/
import HieraChain.DagTransferBalances
import HieraChain.Hex
import HieraChain.TxDAG

namespace HieraChain.Footprint

/-! ### Orders of a fold -/

theorem foldl_cons_comm {σ ι : Type} {g : σ → ι → σ} {i : ι} {is : List ι}
    (hcomm : ∀ j ∈ is, ∀ s, g (g s i) j = g (g s j) i) (s : σ) : is.foldl g (g s i) = g (is.foldl g s) i := by
  induction is generalizing s with
  | nil => rfl
  | cons j is ih =>
    rw [List.foldl_cons, List.foldl_cons, hcomm j List.mem_cons_self]
    exact ih (fun k hk => hcomm k (List.mem_cons_of_mem _ hk)) _

/-- **Another order ends in the same state** when an element stands behind a later
    one only if the two do not meet, and those that do not meet commute. -/
theorem foldl_of_order {σ ι : Type} [LinearOrder ι] {g : σ → ι → σ} {R : ι → ι → Prop} {is js : List ι}
    (hsorted : is.Pairwise (· < ·)) (hperm : is.Perm js) (horder : js.Pairwise fun b a => a < b → ¬ R a b)
    (hcomm : ∀ i ∈ is, ∀ j ∈ is, i < j → ¬ R i j → ∀ s, g (g s i) j = g (g s j) i) (s : σ) :
    is.foldl g s = js.foldl g s := by
  induction is generalizing js s with
  | nil => rw [hperm.symm.eq_nil]
  | cons i is ih =>
    obtain ⟨hfirst, hsorted⟩ := List.pairwise_cons.mp hsorted
    obtain ⟨before, after, rfl⟩ := List.append_of_mem (hperm.subset List.mem_cons_self)
    have hrest : is.Perm (before ++ after) := (hperm.trans List.perm_middle).cons_inv
    -- What stands before the least element is later and does not meet it.
    have hbefore : ∀ j ∈ before, ∀ s, g (g s i) j = g (g s j) i := by
      intro j hj
      have hmem : j ∈ is := hrest.symm.subset (List.mem_append_left _ hj)
      have hnot := (List.pairwise_append.mp horder).2.2 j hj i List.mem_cons_self (hfirst j hmem)
      exact hcomm i List.mem_cons_self j (List.mem_cons_of_mem _ hmem) (hfirst j hmem) hnot
    rw [List.foldl_cons, List.foldl_append, List.foldl_cons, ← foldl_cons_comm hbefore, ← List.foldl_append]
    refine ih hsorted hrest (horder.sublist ?_) (fun a ha b hb => ?_) _
    · exact List.Sublist.append_left (List.sublist_cons_self _ _) _
    · exact hcomm a (List.mem_cons_of_mem _ ha) b (List.mem_cons_of_mem _ hb)

theorem pairwise_of_splits {α : Type} {R : α → α → Prop} {l : List α}
    (h : ∀ before a after, l = before ++ a :: after → ∀ b ∈ after, R a b) : l.Pairwise R := by
  induction l with
  | nil => exact List.Pairwise.nil
  | cons a l ih =>
    refine List.pairwise_cons.mpr ⟨h [] a l rfl, ih fun before b after hsplit => ?_⟩
    exact h (a :: before) b after (by rw [hsplit, List.cons_append])

end HieraChain.Footprint

namespace HieraChain.Verifier

open HieraChain.BigEndian HieraChain.Footprint

variable {κ ρ ω T : Type}

/-! ### The source -/

abbrev BlockState (κ ρ ω : Type) := (κ → ρ) × List (Option ω)

/-- The function that `setTxExecuteFunc` hands to the graph. -/
def execute (f : ID → (κ → ρ) → ω × (κ → ρ)) (b : BlockState κ ρ ω) (id : ID) : BlockState κ ρ ω :=
  ((f id b.1).2, b.2.set id (some (f id b.1).1))

structure Execution (κ ρ ω : Type) where
  txDag : State
  block : BlockState κ ρ ω

def Execution.start [DecidableEq T] (txs : List (Criticals T)) (m_threadNum : Nat) (t : κ → ρ) :
    Execution κ ρ ω where
  txDag := TxDAG.start txs m_threadNum
  block := (t, List.replicate txs.length none)

def executes (s : State) (w : Nat) : List ID :=
  match s.workers[w]? with
  | some (.executing _ id) => [id]
  | _ => []

def executors (f : ID → (κ → ρ) → ω × (κ → ρ)) : Machine (Execution κ ρ ω) Nat where
  step e w := { txDag := e.txDag.step w, block := (executes e.txDag w).foldl (execute f) e.block }

def parallelExecuteBlock [DecidableEq T] (f : ID → (κ → ρ) → ω × (κ → ρ)) (txs : List (Criticals T)) (t : κ → ρ)
    (m_threadNum : Nat) (schedule : List Nat) : Execution κ ρ ω :=
  (executors f).run (Execution.start txs m_threadNum t) schedule

/-! ### Executions in block order -/

def inBlockOrder (f : ID → (κ → ρ) → ω × (κ → ρ)) (n : Nat) (t : κ → ρ) : BlockState κ ρ ω :=
  (List.range n).foldl (execute f) (t, List.replicate n none)

/-- The keys behind the critical fields of a transaction; an ordinary one may have
    to do with all. -/
def Touches (field : κ → T) (tx : Criticals T) (k : κ) : Prop := ∀ cs, tx = some cs → field k ∈ cs

section Execution

variable [DecidableEq T] {f : ID → (κ → ρ) → ω × (κ → ρ)} {txs : List (Criticals T)} {field : κ → T} {t : κ → ρ}

theorem executed_step (s : State) (w : Nat) : (s.step w).executed = s.executed ++ executes s w := by
  unfold State.step executes
  cases hworker : s.workers[w]? with
  | none => exact (List.append_nil _).symm
  | some worker =>
    cases worker with
    | executing exeCnt id => rfl
    | waiting exeCnt =>
      unfold State.act
      cases htop : s.dag.topLevel with
      | nil => exact (List.append_nil _).symm
      | cons id rest => exact (List.append_nil _).symm
    | consuming exeCnt edges nextId =>
      cases edges with
      | nil => cases nextId <;> exact (List.append_nil _).symm
      | cons id edges =>
        unfold State.act State.consumeEdge
        dsimp only
        split
        · cases nextId <;> exact (List.append_nil _).symm
        · exact (List.append_nil _).symm
    | checking => exact (List.append_nil _).symm
    | returned => exact (List.append_nil _).symm

theorem block_eq (f : ID → (κ → ρ) → ω × (κ → ρ)) (txs : List (Criticals T)) (t : κ → ρ) (n : Nat)
    (schedule : List Nat) :
    (parallelExecuteBlock f txs t n schedule).txDag = workers.run (TxDAG.start txs n) schedule
      ∧ (parallelExecuteBlock f txs t n schedule).block
        = (workers.run (TxDAG.start txs n) schedule).executed.foldl (execute f)
            (t, List.replicate txs.length none) := by
  refine Machine.run_relates (M := executors f) (N := workers)
    (R := fun e s => e.txDag = s ∧ e.block = s.executed.foldl (execute f) (t, List.replicate txs.length none))
    ?_ ⟨rfl, rfl⟩ schedule
  rintro e s w ⟨rfl, hblock⟩
  refine ⟨rfl, ?_⟩
  change (executes e.txDag w).foldl (execute f) e.block = (e.txDag.step w).executed.foldl (execute f) _
  rw [executed_step, List.foldl_append, hblock]

omit [DecidableEq T] in
theorem execute_comm (hlocal : ∀ i tx, txs[i]? = some tx → Local (Touches field tx) (f i)) {i j : ID} (hij : i ≠ j)
    {a b : Criticals T} (hi : txs[i]? = some a) (hj : txs[j]? = some b) (hconflict : ¬ TxDAG.Conflict a b)
    (s : BlockState κ ρ ω) : execute f (execute f s i) j = execute f (execute f s j) i := by
  have hdisjoint : ∀ k, Touches field a k → ¬ Touches field b k := by
    intro k hak hbk
    cases a with
    | none => exact hconflict (Or.inl rfl)
    | some as =>
      cases b with
      | none => exact hconflict (Or.inr (Or.inl rfl))
      | some bs => exact hconflict (Or.inr (Or.inr ⟨as, bs, rfl, rfl, field k, hak as rfl, hbk bs rfl⟩))
  obtain ⟨hfirst, hsecond, hstore⟩ := (hlocal i a hi).commute (hlocal j b hj) hdisjoint s.1
  refine Prod.ext hstore ?_
  change (s.2.set i (some (f i s.1).1)).set j (some (f j (f i s.1).2).1)
    = (s.2.set j (some (f j s.1).1)).set i (some (f i (f j s.1).2).1)
  rw [hsecond, hfirst, List.set_comm _ _ hij]

variable [Inhabited T] {m_threadNum : Nat} {schedule : List Nat}

theorem serial_run (hplain : ¬ (none ∈ txs ∧ some [] ∈ txs)) :
    Inv (TxDAG.init txs) (workers.run (TxDAG.start txs m_threadNum) schedule)
      ∧ TxDAG.Serial txs (workers.run (TxDAG.start txs m_threadNum) schedule) := by
  obtain ⟨hok, htop, -⟩ := TxDAG.init_ok txs
  have hinv := (inv_start hok htop m_threadNum).run schedule
  exact ⟨hinv, TxDAG.serial_of_inv hplain hinv⟩

theorem executed_as_serial (hplain : ¬ (none ∈ txs ∧ some [] ∈ txs))
    (hlocal : ∀ i tx, txs[i]? = some tx → Local (Touches field tx) (f i))
    (hall : ∀ i < txs.length, i ∈ (workers.run (TxDAG.start txs m_threadNum) schedule).executed) :
    (parallelExecuteBlock f txs t m_threadNum schedule).block = inBlockOrder f txs.length t := by
  have hserial : TxDAG.Serial txs (workers.run (TxDAG.start txs m_threadNum) schedule) := (serial_run hplain).2
  obtain ⟨-, -, hsize⟩ := TxDAG.init_ok txs
  have hmem : ∀ i, i ∈ List.range txs.length ↔ i ∈ (workers.run (TxDAG.start txs m_threadNum) schedule).executed := by
    intro i
    rw [List.mem_range]
    exact ⟨hall i, fun h => hsize ▸ (serial_run hplain).1.known h⟩
  rw [(block_eq f txs t m_threadNum schedule).2, inBlockOrder]
  symm
  refine foldl_of_order (R := fun i j => ∀ a b, txs[i]? = some a → txs[j]? = some b → TxDAG.Conflict a b)
    List.pairwise_lt_range ((List.perm_ext_iff_of_nodup List.nodup_range hserial.once).mpr hmem) ?_ ?_ _
  · -- A conflict is executed in block order.
    refine pairwise_of_splits fun before b after hsplit a ha hlt hmeet => ?_
    have hb : b ∈ (workers.run (TxDAG.start txs m_threadNum) schedule).executed := by
      rw [hsplit]
      exact List.mem_append_right _ List.mem_cons_self
    have hblt := List.mem_range.mp ((hmem b).mpr hb)
    have hget := List.getElem?_eq_getElem hblt
    have hget' := List.getElem?_eq_getElem (lt_trans hlt hblt)
    have hbefore := (hserial.ordered a b _ _ hlt hget' hget (hmeet _ _ hget' hget) (Or.inl hb)).2 _ _ hsplit
    have hnodup := hserial.once
    rw [hsplit] at hnodup
    exact (List.nodup_append.mp hnodup).2.2 a hbefore a (List.mem_cons_of_mem _ ha) rfl
  · intro i hi j hj hlt hmeet
    have hget := List.getElem?_eq_getElem (List.mem_range.mp hi)
    have hget' := List.getElem?_eq_getElem (List.mem_range.mp hj)
    refine execute_comm hlocal hlt.ne hget hget' fun hconflict => hmeet fun a b ha hb => ?_
    rw [hget] at ha
    rw [hget'] at hb
    cases ha
    cases hb
    exact hconflict

theorem returned_as_serial (hplain : ¬ (none ∈ txs ∧ some [] ∈ txs))
    (hlocal : ∀ i tx, txs[i]? = some tx → Local (Touches field tx) (f i))
    (hreturned : .returned ∈ (parallelExecuteBlock f txs t m_threadNum schedule).txDag.workers) :
    (parallelExecuteBlock f txs t m_threadNum schedule).block = inBlockOrder f txs.length t := by
  rw [(block_eq f txs t m_threadNum schedule).1] at hreturned
  exact executed_as_serial hplain hlocal ((serial_run hplain).2.finished hreturned)

end Execution

/-- **Parallel execution is as if in block order.**  However many workers there are
    and in whatever order they take their steps: when one of them has returned, the
    block has the state and the receipts that its transactions give one after the
    other; and as long as there is a worker, the steps can go on to that end. -/
theorem parallel_as_serial [DecidableEq T] [Inhabited T] (f : ID → (κ → ρ) → ω × (κ → ρ)) (field : κ → T)
    (txs : List (Criticals T)) (hplain : ¬ (none ∈ txs ∧ some [] ∈ txs))
    (hlocal : ∀ i tx, txs[i]? = some tx → Local (Touches field tx) (f i)) (t : κ → ρ) (m_threadNum : Nat)
    (schedule : List Nat) :
    (.returned ∈ (parallelExecuteBlock f txs t m_threadNum schedule).txDag.workers →
      (parallelExecuteBlock f txs t m_threadNum schedule).block = inBlockOrder f txs.length t)
    ∧ ((parallelExecuteBlock f txs t m_threadNum schedule).txDag.workers ≠ [] →
      ∃ more, (parallelExecuteBlock f txs t m_threadNum (schedule ++ more)).block = inBlockOrder f txs.length t) := by
  refine ⟨returned_as_serial hplain hlocal, fun hworkers => ?_⟩
  rw [(block_eq f txs t m_threadNum schedule).1] at hworkers
  obtain ⟨more, hall⟩ := (serial_run hplain).2.completes hworkers
  rw [← Machine.run_append] at hall
  exact ⟨more, executed_as_serial hplain hlocal hall⟩

end HieraChain.Verifier

namespace HieraChain.DagTransfer

open HieraChain.BigEndian HieraChain.Footprint HieraChain.Hex HieraChain.Verifier

/-! ### Blocks of transfers -/

/-- `getTxCriticals` for calls of the contract at the address. -/
def getTxCriticals (receiveAddress : Bytes) (calls : List Call) : List (Criticals Bytes) :=
  calls.map fun c => some ((getParallelTag c.param).map (· ++ toHex receiveAddress))

def perform (x : Context) (calls : List Call) (id : ID) (t : Rows) : Output × Rows :=
  match calls[id]? with
  | some c => call x c.param c.origin t
  | none => (none, t)

variable {x : Context} {calls : List Call} {receiveAddress : Bytes}

theorem perform_local (hquery : ∀ c ∈ calls, isQuery c.param = false) (id : ID) (tx : Criticals Bytes)
    (htx : (getTxCriticals receiveAddress calls)[id]? = some tx) :
    Local (Touches (· ++ toHex receiveAddress) tx) (perform x calls id) := by
  rw [getTxCriticals, List.getElem?_map] at htx
  obtain ⟨c, hc, rfl⟩ := Option.map_eq_some_iff.mp htx
  have hlocal := call_local x c.param (hquery c (List.mem_of_getElem? hc)) c.origin
  have htouches : Touches (· ++ toHex receiveAddress) (some ((getParallelTag c.param).map (· ++ toHex receiveAddress)))
      = (· ∈ getParallelTag c.param) := by
    funext user
    refine propext ⟨fun h => ?_, fun h cs hcs => ?_⟩
    · obtain ⟨tag, htag, heq⟩ := List.mem_map.mp (h _ rfl)
      rwa [← List.append_cancel_right heq]
    · cases hcs
      exact List.mem_map_of_mem h
  have hperform : perform x calls id = call x c.param c.origin := by
    funext t
    rw [perform, hc]
  rw [htouches, hperform]
  exact hlocal

def threeTransfers : List Call :=
  [⟨.userTransfer [97] [98] 1, 0⟩, ⟨.userTransfer [98] [97] 2, 0⟩, ⟨.userTransfer [99] [100] 3, 0⟩]

theorem parallel_as_serial_small :
    (.returned ∈ (parallelExecuteBlock (perform { text := decimalText } threeTransfers)
        (getTxCriticals [1, 2] threeTransfers) (fun _ => []) 2 [0, 1, 0]).txDag.workers →
      (parallelExecuteBlock (perform { text := decimalText } threeTransfers)
        (getTxCriticals [1, 2] threeTransfers) (fun _ => []) 2 [0, 1, 0]).block
        = inBlockOrder (perform { text := decimalText } threeTransfers) 3 (fun _ => []))
    ∧ ((parallelExecuteBlock (perform { text := decimalText } threeTransfers)
        (getTxCriticals [1, 2] threeTransfers) (fun _ => []) 2 [0, 1, 0]).txDag.workers ≠ [] →
      ∃ more, (parallelExecuteBlock (perform { text := decimalText } threeTransfers)
        (getTxCriticals [1, 2] threeTransfers) (fun _ => []) 2 ([0, 1, 0] ++ more)).block
        = inBlockOrder (perform { text := decimalText } threeTransfers) 3 (fun _ => [])) :=
  parallel_as_serial _ (· ++ toHex [1, 2]) (getTxCriticals [1, 2] threeTransfers) (by decide)
    (perform_local (by decide)) _ 2 [0, 1, 0]

def answers (x : Context) : Rows → List Call → List Output
  | _, [] => []
  | t, c :: calls => (call x c.param c.origin t).1 :: answers x ((table x).step t c) calls

theorem foldl_execute_append (f : ID → Rows → Output × Rows) (o : Option Output) (ids : List ID)
    (b : BlockState Bytes (List Row) Output) (hids : ∀ id ∈ ids, id < b.2.length) :
    ids.foldl (execute f) (b.1, b.2 ++ [o]) = ((ids.foldl (execute f) b).1, (ids.foldl (execute f) b).2 ++ [o]) := by
  induction ids generalizing b with
  | nil => rfl
  | cons id ids ih =>
    obtain ⟨hid, hids⟩ := List.forall_mem_cons.mp hids
    have hset := ih (execute f b id) fun id' hid' => by
      rw [execute, List.length_set]
      exact hids id' hid'
    rw [List.foldl_cons, List.foldl_cons, ← hset, execute, List.set_append_left _ _ hid]
    rfl

theorem length_answers (x : Context) (t : Rows) (calls : List Call) : (answers x t calls).length = calls.length := by
  induction calls generalizing t with
  | nil => rfl
  | cons c calls ih => rw [answers, List.length_cons, List.length_cons, ih]

theorem answers_concat (x : Context) (t : Rows) (calls : List Call) (c : Call) :
    answers x t (calls ++ [c]) = answers x t calls ++ [(call x c.param c.origin ((table x).run t calls)).1] := by
  induction calls generalizing t with
  | nil => rfl
  | cons c' calls ih => rw [List.cons_append, answers, answers, ih, List.cons_append, Machine.run_cons]

theorem inBlockOrder_perform (x : Context) (calls : List Call) (t : Rows) :
    inBlockOrder (perform x calls) calls.length t = ((table x).run t calls, (answers x t calls).map some) := by
  induction calls using List.reverseRecOn with
  | nil => rfl
  | append_singleton calls c ih =>
    have hfirst : ∀ (b : BlockState Bytes (List Row) Output), ∀ id ∈ List.range calls.length,
        execute (perform x (calls ++ [c])) b id = execute (perform x calls) b id := by
      intro b id hid
      rw [execute, execute, perform, perform, List.getElem?_append_left (List.mem_range.mp hid)]
    have hlast : ∀ t, perform x (calls ++ [c]) calls.length t = call x c.param c.origin t := by
      intro t
      rw [perform, List.getElem?_concat_length]
    rw [inBlockOrder] at ih
    rw [inBlockOrder, List.length_append, List.length_singleton, List.range_succ, List.foldl_append,
      List.foldl_ext _ _ _ hfirst, List.replicate_succ',
      foldl_execute_append _ _ _ (t, List.replicate calls.length none) (fun id hid => by
        rw [List.length_replicate]
        exact List.mem_range.mp hid), ih]
    rw [List.foldl_cons, List.foldl_nil, execute, hlast, Machine.run_append, answers_concat, List.map_append]
    refine Prod.ext rfl ?_
    change ((answers x t calls).map some ++ [none]).set calls.length _ = _
    rw [List.set_append_right _ _ (by rw [List.length_map, length_answers]), List.length_map, length_answers, Nat.sub_self]
    rfl

/-- **A block of transfers.**  Without calls of `userBalance`, any number of workers in
    any order leave the table and the answers of the calls one after the other. -/
theorem parallel_transfers (x : Context) (receiveAddress : Bytes) (calls : List Call)
    (hquery : ∀ c ∈ calls, isQuery c.param = false) (t : Rows) (m_threadNum : Nat) (schedule : List Nat)
    (hreturned : .returned ∈ (parallelExecuteBlock (perform x calls) (getTxCriticals receiveAddress calls) t
      m_threadNum schedule).txDag.workers) :
    (parallelExecuteBlock (perform x calls) (getTxCriticals receiveAddress calls) t m_threadNum schedule).block
      = ((table x).run t calls, (answers x t calls).map some) := by
  have hplain : ¬ (none ∈ getTxCriticals receiveAddress calls ∧ some [] ∈ getTxCriticals receiveAddress calls) := by
    rintro ⟨hnone, -⟩
    obtain ⟨c, -, hc⟩ := List.mem_map.mp hnone
    cases hc
  have hlength : (getTxCriticals receiveAddress calls).length = calls.length := List.length_map _
  rw [returned_as_serial hplain (perform_local hquery) hreturned, hlength, inBlockOrder_perform]

theorem parallel_transfers_small :
    (parallelExecuteBlock (perform { text := decimalText } threeTransfers) (getTxCriticals [1, 2] threeTransfers)
      (fun _ => []) 1 (List.replicate 16 0)).block
      = ((table { text := decimalText }).run (fun _ => []) threeTransfers,
        (answers { text := decimalText } (fun _ => []) threeTransfers).map some) :=
  parallel_transfers { text := decimalText } [1, 2] threeTransfers (by decide) (fun _ => []) 1 (List.replicate 16 0)
    (by decide +kernel)

/-! ### Money -/

theorem total_step {users : Finset Bytes} {c : Call} (hallowed : checkAuthority x c.origin = true)
    {fromUser toUser : Bytes} {amount : U256} (hparam : c.param = .userTransfer fromUser toUser amount)
    (hfrom : fromUser ∈ users) (hto : toUser ∈ users) (t : Rows) :
    total x (call x c.param c.origin t).2 users = total x t users := by
  have hexact := call_exact x c.param hallowed t
  by_cases hsame : fromUser = toUser
  · rw [hparam, call, transfer_self hsame]
  · by_cases hcode : returnCode (call x c.param c.origin t).1 = some 0
    · exact (hexact.transferred fromUser toUser amount hparam hsame hcode).2.2.2 users hfrom hto
    · rw [hexact.failed hcode]

/-- **Parallel transfers make and lose no money.**  While the workers execute a block of
    transfers by authorised origins, the sum of the balances of the users is the same
    after every step. -/
theorem parallel_conserves (x : Context) (receiveAddress : Bytes) (calls : List Call) (users : Finset Bytes)
    (htransfers : ∀ c ∈ calls, checkAuthority x c.origin = true ∧ ∃ fromUser ∈ users, ∃ toUser ∈ users, ∃ amount,
      c.param = .userTransfer fromUser toUser amount) (t : Rows) (m_threadNum : Nat) (schedule : List Nat) :
    total x (parallelExecuteBlock (perform x calls) (getTxCriticals receiveAddress calls) t m_threadNum
      schedule).block.1 users = total x t users := by
  have hstep : ∀ (ids : List ID) (b : BlockState Bytes (List Row) Output),
      total x (ids.foldl (execute (perform x calls)) b).1 users = total x b.1 users := by
    intro ids
    induction ids with
    | nil => exact fun b => rfl
    | cons id ids ih =>
      intro b
      rw [List.foldl_cons, ih, execute, perform]
      cases hcall : calls[id]? with
      | none => rfl
      | some c =>
        obtain ⟨hallowed, fromUser, hfrom, toUser, hto, amount, hparam⟩ := htransfers c (List.mem_of_getElem? hcall)
        exact total_step hallowed hparam hfrom hto b.1
  rw [(block_eq _ _ _ _ _).2, hstep]

theorem parallel_conserves_small :
    total { text := decimalText } (parallelExecuteBlock (perform { text := decimalText } threeTransfers)
      (getTxCriticals [1, 2] threeTransfers) (fun _ => [⟨[], [57]⟩]) 2 [0, 1, 0, 1, 0, 1]).block.1 {[97], [98], [99], [100]}
      = total { text := decimalText } (fun _ => [⟨[], [57]⟩]) {[97], [98], [99], [100]} :=
  parallel_conserves { text := decimalText } [1, 2] threeTransfers _ (fun c hc => by
    simp only [threeTransfers, List.mem_cons, List.not_mem_nil, or_false] at hc
    rcases hc with rfl | rfl | rfl <;> exact ⟨rfl, _, by decide, _, by decide, _, rfl⟩) _ 2 _

end HieraChain.DagTransfer
