/-
  HieraChain/DAG.lean
  ===================
  **Workers that execute the transactions of a graph**
  (`libblockverifier/DAG.h`, `DAG.cpp`, `TxDAG::executeUnit` and the loop over
  it in `BlockVerifier::parallelExecuteBlock`).

  A vertex counts the edges into it that are not consumed.  A vertex without
  such edges is placed: it is in the queue of tops, held by a worker, or
  executed (`Inv`).  So a worker holds a transaction only after all before it on
  the graph are executed (`Inv.executed_of_started`), and some worker can work
  as long as one is not executed (`progress`).

  A worker takes one step at a time, between two operations that other workers
  see.  `waitPop` gives up when the queue is empty, at the end or after a time;
  the count of consumed vertices only ends a wait early and is left out, and so
  is the exit of the process.  Indices and counts are natural numbers.
-/
import Mathlib.Algebra.BigOperators.Fin
import Mathlib.Data.List.Nodup
import Mathlib.Data.List.Perm.Subperm
import HieraChain.Machine

namespace HieraChain.Verifier

abbrev ID := Nat

structure Vertex where
  inDegree : Nat := 0
  outEdge : List ID := []
  deriving DecidableEq, Repr

structure DAG where
  vtxs : List Vertex
  topLevel : List ID := []
  deriving DecidableEq, Repr

namespace DAG

/-! ### The graph -/

def init (maxSize : Nat) : DAG := { vtxs := List.replicate maxSize {} }

def addEdge (dag : DAG) (f t : ID) : DAG :=
  if dag.vtxs.length ≤ f ∧ dag.vtxs.length ≤ t then dag
  else
    { dag with
      vtxs := (dag.vtxs.modify f fun v => { v with outEdge := v.outEdge ++ [t] }).modify t
        fun v => { v with inDegree := v.inDegree + 1 } }

def inDegree (dag : DAG) (id : ID) : Nat := (dag.vtxs[id]?.map Vertex.inDegree).getD 0

def outEdge (dag : DAG) (id : ID) : List ID := (dag.vtxs[id]?.map Vertex.outEdge).getD []

def generate (dag : DAG) : DAG :=
  { dag with
    topLevel := dag.topLevel ++ (List.range dag.vtxs.length).filter fun id => dag.inDegree id = 0 }

/-- `inDegree.fetch_sub(1)`. -/
def fetchSub (dag : DAG) (id : ID) : DAG :=
  { dag with vtxs := dag.vtxs.modify id fun v => { v with inDegree := v.inDegree - 1 } }

def push (dag : DAG) (id : ID) : DAG := { dag with topLevel := dag.topLevel ++ [id] }

@[simp] theorem length_addEdge (dag : DAG) (f t : Nat) : (dag.addEdge f t).vtxs.length = dag.vtxs.length := by
  rw [addEdge]
  split
  · rfl
  · simp

@[simp] theorem topLevel_addEdge (dag : DAG) (f t : Nat) : (dag.addEdge f t).topLevel = dag.topLevel := by
  rw [addEdge]
  split
  · rfl
  · rfl

theorem outEdge_addEdge (dag : DAG) {f : Nat} (t u : Nat) (hf : f < dag.vtxs.length) :
    (dag.addEdge f t).outEdge u = if u = f then dag.outEdge f ++ [t] else dag.outEdge u := by
  have hcond : ¬ (dag.vtxs.length ≤ f ∧ dag.vtxs.length ≤ t) := by omega
  have hmem := List.getElem?_eq_getElem hf
  simp only [outEdge, addEdge, if_neg hcond, List.getElem?_modify]
  by_cases hu : u = f
  · subst hu
    by_cases ht : t = u <;> simp [hmem, ht]
  · by_cases ht : t = u <;> cases dag.vtxs[u]? <;> simp [ht, hu, Ne.symm hu]

theorem inDegree_addEdge (dag : DAG) {t : Nat} (f v : Nat) (ht : t < dag.vtxs.length) :
    (dag.addEdge f t).inDegree v = dag.inDegree v + if v = t then 1 else 0 := by
  have hcond : ¬ (dag.vtxs.length ≤ f ∧ dag.vtxs.length ≤ t) := by omega
  have hmem := List.getElem?_eq_getElem ht
  simp only [inDegree, addEdge, if_neg hcond, List.getElem?_modify]
  by_cases hv : v = t
  · subst hv
    by_cases hf : f = v <;> simp [hmem, hf]
  · by_cases hf : f = v <;> cases dag.vtxs[v]? <;> simp [hf, hv, Ne.symm hv]

@[simp] theorem length_fetchSub (dag : DAG) (id : Nat) : (dag.fetchSub id).vtxs.length = dag.vtxs.length := by
  simp [fetchSub]

@[simp] theorem outEdge_fetchSub (dag : DAG) (id u : Nat) : (dag.fetchSub id).outEdge u = dag.outEdge u := by
  simp only [outEdge, fetchSub, List.getElem?_modify]
  split
  · cases dag.vtxs[u]? <;> rfl
  · simp

theorem inDegree_fetchSub (dag : DAG) (id v : Nat) :
    (dag.fetchSub id).inDegree v = dag.inDegree v - if v = id then 1 else 0 := by
  simp only [inDegree, fetchSub, List.getElem?_modify]
  by_cases hv : v = id
  · subst hv
    cases dag.vtxs[v]? <;> simp
  · cases dag.vtxs[v]? <;> simp [hv, Ne.symm hv]

@[simp] theorem inDegree_generate (dag : DAG) (v : Nat) : dag.generate.inDegree v = dag.inDegree v := rfl

@[simp] theorem outEdge_generate (dag : DAG) (u : Nat) : dag.generate.outEdge u = dag.outEdge u := rfl

end DAG

/-! ### Workers -/

/-- Where a worker is, with the count of `executeUnit`.  `checking` is the test
    of `hasFinished`; `consuming` has the edges to go and the next transaction. -/
inductive Worker
  | checking
  | waiting (exeCnt : Nat)
  | executing (exeCnt : Nat) (id : ID)
  | consuming (exeCnt : Nat) (edges : List ID) (nextId : Option ID)
  | returned
  deriving DecidableEq, Repr

/-- `executed` lists the transactions whose execution is over. -/
structure State where
  dag : DAG
  exeCnt : Nat := 0
  workers : List Worker
  executed : List ID := []
  deriving DecidableEq, Repr

namespace State

def set (s : State) (w : Nat) (worker : Worker) : State := { s with workers := s.workers.set w worker }

def hasFinished (s : State) : Bool := s.dag.vtxs.length ≤ s.exeCnt

/-- One edge of `consume`. -/
def consumeEdge (s : State) (id : ID) (nextId : Option ID) : State × Option ID :=
  let dag := s.dag.fetchSub id
  if s.dag.inDegree id = 1 then
    match nextId with
    | none => ({ s with dag }, some id)
    | some next => ({ s with dag := dag.push id }, some next)
  else ({ s with dag }, nextId)

def act (s : State) (w : Nat) : Worker → State
  | .checking => s.set w (if s.hasFinished then .returned else .waiting 0)
  | .waiting exeCnt =>
    match s.dag.topLevel with
    | id :: rest => { s with dag := { s.dag with topLevel := rest } }.set w (.executing exeCnt id)
    | [] => { s with exeCnt := s.exeCnt + exeCnt }.set w .checking
  | .executing exeCnt id =>
    { s with executed := s.executed ++ [id] }.set w (.consuming (exeCnt + 1) (s.dag.outEdge id) none)
  | .consuming exeCnt (id :: edges) nextId =>
    (s.consumeEdge id nextId).1.set w (.consuming exeCnt edges (s.consumeEdge id nextId).2)
  | .consuming exeCnt [] none => s.set w (.waiting exeCnt)
  | .consuming exeCnt [] (some id) => s.set w (.executing exeCnt id)
  | .returned => s

def step (s : State) (w : Nat) : State :=
  match s.workers[w]? with
  | some worker => s.act w worker
  | none => s

end State

def workers : Machine State Nat where
  step := State.step

/-! ### What workers hold -/

namespace Worker

def edges : Worker → List ID
  | .consuming _ edges _ => edges
  | _ => []

def held : Worker → List ID
  | .executing _ id => [id]
  | .consuming _ _ nextId => nextId.toList
  | _ => []

def counted : Worker → Nat
  | .waiting exeCnt => exeCnt
  | .executing exeCnt _ => exeCnt
  | .consuming exeCnt _ _ => exeCnt
  | _ => 0

end Worker

theorem sum_set {α : Type} {l : List α} {i : Nat} {x : α} (f : α → Nat) (y : α) (h : l[i]? = some x) :
    ((l.set i y).map f).sum + f x = (l.map f).sum + f y := by
  induction l generalizing i with
  | nil => simp at h
  | cons a l ih =>
    cases i with
    | zero =>
      simp only [List.getElem?_cons_zero, Option.some.injEq] at h
      subst h
      simp only [List.set_cons_zero, List.map_cons, List.sum_cons]
      omega
    | succ i =>
      have hrest := ih (by simpa using h)
      simp only [List.set_cons_succ, List.map_cons, List.sum_cons]
      omega

theorem sum_eq_zero_of_mem {α : Type} {l : List α} {f : α → Nat} (h : (l.map f).sum = 0) {x : α}
    (hx : x ∈ l) : f x = 0 :=
  List.sum_eq_zero_iff_forall_eq_nat.mp h (f x) (List.mem_map.mpr ⟨x, hx, rfl⟩)

def State.total (s : State) (f : Worker → Nat) : Nat := (s.workers.map f).sum

/-- The sum of an amount of edges over the transactions that are not executed. -/
def sumUnexecuted (g : DAG) (executed : List ID) (f : List ID → Nat) : Nat :=
  ∑ u ∈ Finset.range g.vtxs.length, if u ∈ executed then 0 else f (g.outEdge u)

/-- Edges into `v` from transactions that are not executed. -/
def unexecutedEdges (g : DAG) (executed : List ID) (v : ID) : Nat :=
  sumUnexecuted g executed (List.count v)

/-- Edges go to later transactions, and the counts are those of the edges. -/
structure DAG.Ok (g : DAG) : Prop where
  later : ∀ u v, v ∈ g.outEdge u → u < v
  known : ∀ u v, v ∈ g.outEdge u → v < g.vtxs.length
  degree : ∀ v, g.inDegree v = unexecutedEdges g [] v

/-! ### The invariant -/

/-- The invariant of the workers on the graph `g`. -/
structure Inv (g : DAG) (s : State) : Prop where
  size : s.dag.vtxs.length = g.vtxs.length
  outEdge : ∀ u, s.dag.outEdge u = g.outEdge u
  /-- A vertex counts the edges that are not consumed. -/
  degree : ∀ v, s.dag.inDegree v = unexecutedEdges g s.executed v + s.total fun w => w.edges.count v
  /-- A vertex is placed once, when no edges are left. -/
  placed : ∀ v, s.dag.topLevel.count v + (s.total fun w => w.held.count v) + s.executed.count v
    = if v < g.vtxs.length ∧ s.dag.inDegree v = 0 then 1 else 0
  ordered : ∀ before v after, s.executed = before ++ v :: after → ∀ u, v ∈ g.outEdge u → u ∈ before
  counted : s.exeCnt + s.total Worker.counted = s.executed.length
  finished : .returned ∈ s.workers → g.vtxs.length ≤ s.exeCnt

section Inv

variable {g : DAG} {s : State}

theorem outEdge_nil (g : DAG) {u : Nat} (h : g.vtxs.length ≤ u) : g.outEdge u = [] := by
  rw [DAG.outEdge, List.getElem?_eq_none h]
  rfl

theorem Inv.executed_of_degree (h : Inv g s) {u v : Nat} (hzero : s.dag.inDegree v = 0)
    (hedge : v ∈ g.outEdge u) : u ∈ s.executed := by
  have hdegree := h.degree v
  rw [hzero] at hdegree
  have hsum : unexecutedEdges g s.executed v = 0 := by omega
  rw [unexecutedEdges, sumUnexecuted] at hsum
  have hu : u < g.vtxs.length := by
    by_contra hnot
    rw [outEdge_nil g (by omega)] at hedge
    cases hedge
  have hterm := Finset.sum_eq_zero_iff.mp hsum u (Finset.mem_range.mpr hu)
  by_contra hnot
  rw [if_neg hnot] at hterm
  exact List.count_eq_zero.mp hterm hedge

/-- A transaction that is executed, or that a worker executes now or next. -/
def State.Started (s : State) (v : ID) : Prop := v ∈ s.executed ∨ ∃ w ∈ s.workers, v ∈ w.held

theorem Inv.placed_of_started (h : Inv g s) {v : Nat} (hv : s.Started v) :
    v < g.vtxs.length ∧ s.dag.inDegree v = 0 := by
  have hplaced := h.placed v
  by_contra hnot
  rw [if_neg hnot] at hplaced
  rcases hv with hv | ⟨w, hw, hv⟩
  · have := List.count_pos_iff.mpr hv
    omega
  · have hzero := sum_eq_zero_of_mem (show (s.workers.map fun w => w.held.count v).sum = 0 by
      have : s.total (fun w => w.held.count v) = 0 := by omega
      exact this) hw
    have := List.count_pos_iff.mpr hv
    omega

/-- **A worker holds a transaction only when all before it on the graph are
    executed.** -/
theorem Inv.executed_of_started (h : Inv g s) {u v : Nat} (hv : s.Started v) (hedge : v ∈ g.outEdge u) :
    u ∈ s.executed :=
  h.executed_of_degree (h.placed_of_started hv).2 hedge

theorem Inv.nodup (h : Inv g s) : s.executed.Nodup := by
  rw [List.nodup_iff_count_le_one]
  intro v
  have hplaced := h.placed v
  split at hplaced
  · omega
  · omega

theorem Inv.not_executed_of_held (h : Inv g s) {w : Worker} (hw : w ∈ s.workers) {v : Nat}
    (hv : v ∈ w.held) : v ∉ s.executed := by
  intro hexecuted
  have hplaced := h.placed v
  have hone := List.count_pos_iff.mpr hexecuted
  have hheld : 0 < s.total fun w => w.held.count v := by
    by_contra hnot
    have hzero := sum_eq_zero_of_mem (show (s.workers.map fun w => w.held.count v).sum = 0 by
      exact Nat.eq_zero_of_not_pos hnot) hw
    have := List.count_pos_iff.mpr hv
    omega
  split at hplaced
  · omega
  · omega

/-! ### Steps keep the invariant -/

theorem Inv.quiet (h : Inv g s) {w : Nat} {x y : Worker} (hw : s.workers[w]? = some x)
    {topLevel : List ID} {exeCnt : Nat} (hedges : y.edges = x.edges)
    (hplaced : ∀ v, topLevel.count v + y.held.count v = s.dag.topLevel.count v + x.held.count v)
    (hcounted : exeCnt + y.counted = s.exeCnt + x.counted) (hmore : s.exeCnt ≤ exeCnt)
    (hreturned : y = .returned → g.vtxs.length ≤ exeCnt) :
    Inv g ⟨{ s.dag with topLevel }, exeCnt, s.workers.set w y, s.executed⟩ := by
  have hsum := fun f => sum_set f y hw
  refine ⟨h.size, h.outEdge, fun v => ?_, fun v => ?_, h.ordered, ?_, fun hmem => ?_⟩
  · have hold := h.degree v
    have hset := hsum fun w => w.edges.count v
    simp only [State.total] at hold ⊢
    rw [hedges] at hset
    exact hold.trans (by omega)
  · have hold := h.placed v
    have hset := hsum fun w => w.held.count v
    have hmove := hplaced v
    simp only [State.total] at hold ⊢
    refine Eq.trans ?_ hold
    omega
  · have hold := h.counted
    have hset := hsum Worker.counted
    simp only [State.total] at hold ⊢
    omega
  · rcases List.mem_or_eq_of_mem_set hmem with hold | hnew
    · exact (h.finished hold).trans hmore
    · exact hreturned hnew.symm

theorem sumUnexecuted_append {executed : List ID} {id : Nat} (f : List ID → Nat)
    (hid : id < g.vtxs.length) (hnot : id ∉ executed) :
    sumUnexecuted g (executed ++ [id]) f + f (g.outEdge id) = sumUnexecuted g executed f := by
  have hmem := Finset.mem_range.mpr hid
  have hrest : ∀ u ∈ (Finset.range g.vtxs.length).erase id,
      (if u ∈ executed ++ [id] then 0 else f (g.outEdge u))
        = if u ∈ executed then 0 else f (g.outEdge u) := by
    intro u hu
    have hne := (Finset.mem_erase.mp hu).1
    simp [hne]
  rw [sumUnexecuted, sumUnexecuted, ← Finset.add_sum_erase _ _ hmem, ← Finset.add_sum_erase _ _ hmem,
    if_pos (by simp), if_neg hnot, Finset.sum_congr rfl hrest]
  omega

theorem Inv.execute (h : Inv g s) {w exeCnt : Nat} {id : Nat}
    (hw : s.workers[w]? = some (.executing exeCnt id)) : Inv g (s.act w (.executing exeCnt id)) := by
  have hmem := List.mem_of_getElem? hw
  have hheld : id ∈ (Worker.executing exeCnt id).held := List.mem_singleton.mpr rfl
  have hstarted : s.Started id := Or.inr ⟨_, hmem, hheld⟩
  have hplaced := h.placed_of_started hstarted
  have hnot := h.not_executed_of_held hmem hheld
  have hsum := fun f => sum_set f (.consuming (exeCnt + 1) (s.dag.outEdge id) none) hw
  refine ⟨h.size, h.outEdge, fun v => ?_, fun v => ?_, ?_, ?_, fun hreturned => ?_⟩
  · have hold := h.degree v
    have hset := hsum fun w => w.edges.count v
    have hmoved := sumUnexecuted_append (List.count v) hplaced.1 hnot
    simp only [unexecutedEdges, State.total, Worker.edges, List.count_nil, h.outEdge] at hold hset ⊢
    refine hold.trans ?_
    simp only [State.act, State.set, h.outEdge]
    omega
  · have hold := h.placed v
    have hset := hsum fun w => w.held.count v
    simp only [State.total, Worker.held, Option.toList_none, List.count_nil] at hold hset ⊢
    refine Eq.trans ?_ hold
    simp only [State.act, State.set, List.count_append]
    omega
  · intro before v after hsplit u hedge
    rcases List.eq_nil_or_concat after with rfl | ⟨rest, last, rfl⟩
    · obtain ⟨rfl, hlast⟩ := List.append_inj' hsplit rfl
      rw [List.singleton_inj] at hlast
      exact h.executed_of_started (hlast ▸ hstarted) hedge
    · rw [List.concat_eq_append, ← List.cons_append, ← List.append_assoc] at hsplit
      obtain ⟨hexecuted, -⟩ := List.append_inj' hsplit rfl
      exact h.ordered before v rest hexecuted u hedge
  · have hold := h.counted
    have hset := hsum Worker.counted
    simp only [State.total, Worker.counted, State.act, State.set, List.length_append,
      List.length_singleton] at hold hset ⊢
    omega
  · rcases List.mem_or_eq_of_mem_set hreturned with hold | hnew
    · exact h.finished hold
    · cases hnew

theorem Inv.degree_pos (h : Inv g s) {w : Worker} (hw : w ∈ s.workers) {v : Nat} (hv : v ∈ w.edges) :
    0 < s.dag.inDegree v := by
  rw [h.degree v]
  by_contra hnot
  have hzero := sum_eq_zero_of_mem (show (s.workers.map fun w => w.edges.count v).sum = 0 by
    have : s.total (fun w => w.edges.count v) = 0 := by omega
    exact this) hw
  have := List.count_pos_iff.mpr hv
  omega

theorem Inv.consume (h : Inv g s) {w exeCnt : Nat} {id : Nat} {edges : List ID} {nextId : Option ID}
    (hw : s.workers[w]? = some (.consuming exeCnt (id :: edges) nextId)) :
    Inv g (s.act w (.consuming exeCnt (id :: edges) nextId)) := by
  have hmem := List.mem_of_getElem? hw
  have hpos := h.degree_pos hmem (v := id) List.mem_cons_self
  have hknown : id < g.vtxs.length := by
    by_contra hnot
    have hnone : s.dag.inDegree id = 0 := by
      rw [DAG.inDegree, List.getElem?_eq_none (by rw [h.size]; omega)]
      rfl
    omega
  have hsum := fun f nextId' => sum_set f (.consuming exeCnt edges nextId') hw
  have hvtxs : (s.consumeEdge id nextId).1.dag.vtxs = (s.dag.fetchSub id).vtxs := by
    simp only [State.consumeEdge]
    split
    · split <;> rfl
    · rfl
  have hinDegree : ∀ v, (s.consumeEdge id nextId).1.dag.inDegree v
      = s.dag.inDegree v - if v = id then 1 else 0 := by
    intro v
    rw [← DAG.inDegree_fetchSub, DAG.inDegree, hvtxs, DAG.inDegree]
  have hkeep : (s.consumeEdge id nextId).1.workers = s.workers
      ∧ (s.consumeEdge id nextId).1.executed = s.executed
      ∧ (s.consumeEdge id nextId).1.exeCnt = s.exeCnt := by
    simp only [State.consumeEdge]
    split
    · split <;> exact ⟨rfl, rfl, rfl⟩
    · exact ⟨rfl, rfl, rfl⟩
  -- The vertex is placed when its last edge is consumed.
  have hplace : ∀ v, (s.consumeEdge id nextId).1.dag.topLevel.count v
        + (s.consumeEdge id nextId).2.toList.count v
      = s.dag.topLevel.count v + nextId.toList.count v
        + if v = id ∧ s.dag.inDegree id = 1 then 1 else 0 := by
    intro v
    have hflip : (id = v) = (v = id) := propext eq_comm
    simp only [State.consumeEdge]
    by_cases hone : s.dag.inDegree id = 1
    · rw [if_pos hone]
      cases nextId with
      | none =>
        simp only [DAG.fetchSub, Option.toList_some, Option.toList_none, List.count_nil,
          List.count_singleton, beq_iff_eq, hflip, hone, and_true]
        omega
      | some next =>
        simp only [DAG.fetchSub, DAG.push, Option.toList_some, List.count_append,
          List.count_singleton, beq_iff_eq, hflip, hone, and_true]
        omega
    · rw [if_neg hone]
      simp [hone, DAG.fetchSub]
  simp only [State.act]
  refine ⟨?_, fun u => ?_, fun v => ?_, fun v => ?_, ?_, ?_, fun hreturned => ?_⟩
  · simp only [State.set, hvtxs, DAG.length_fetchSub, h.size]
  · simp only [State.set, DAG.outEdge, hvtxs]
    exact (DAG.outEdge_fetchSub _ _ _).trans (h.outEdge u)
  · have hold := h.degree v
    have hset := hsum (fun w => w.edges.count v) (s.consumeEdge id nextId).2
    simp only [State.total, Worker.edges, State.set, hkeep, hinDegree, List.count_cons, beq_iff_eq] at hold hset ⊢
    by_cases hv : v = id
    · subst hv
      simp only [if_true] at hset ⊢
      omega
    · simp only [if_neg hv, if_neg (Ne.symm hv)] at hset ⊢
      omega
  · have hold := h.placed v
    have hset := hsum (fun w => w.held.count v) (s.consumeEdge id nextId).2
    have hnew := hplace v
    simp only [State.total, Worker.held, State.set, hkeep, hinDegree] at hold hset ⊢
    by_cases hv : v = id
    · subst hv
      by_cases hone : s.dag.inDegree v = 1
      · rw [if_neg (by omega)] at hold
        rw [if_pos ⟨rfl, hone⟩] at hnew
        rw [if_pos ⟨hknown, by simp [hone]⟩]
        omega
      · rw [if_neg (by omega)] at hold
        rw [if_neg (by omega)] at hnew
        rw [if_neg (by simp; omega)]
        omega
    · rw [if_neg (fun h => hv h.1)] at hnew
      simp only [if_neg hv, Nat.sub_zero]
      rw [← hold]
      omega
  · simp only [State.set, hkeep]
    exact h.ordered
  · have hold := h.counted
    have hset := hsum Worker.counted (s.consumeEdge id nextId).2
    simp only [State.total, Worker.counted, State.set, hkeep] at hold hset ⊢
    omega
  · simp only [State.set, hkeep] at hreturned ⊢
    rcases List.mem_or_eq_of_mem_set hreturned with hold | hnew
    · exact h.finished hold
    · cases hnew

/-- **Every step keeps the invariant.** -/
theorem Inv.step (h : Inv g s) (w : Nat) : Inv g (s.step w) := by
  rw [State.step]
  cases hw : s.workers[w]? with
  | none => exact h
  | some worker =>
    cases worker with
    | checking =>
      refine h.quiet hw ?_ ?_ ?_ le_rfl ?_
      · split <;> rfl
      · intro v
        split <;> rfl
      · split <;> rfl
      · intro hreturned
        split at hreturned
        next hfinished => exact h.size ▸ decide_eq_true_iff.mp hfinished
        next => cases hreturned
    | waiting exeCnt =>
      cases htop : s.dag.topLevel with
      | nil =>
        simp only [State.act, htop]
        refine h.quiet hw rfl (fun v => rfl) ?_ (Nat.le_add_right _ _) nofun
        simp [Worker.counted]
      | cons id rest =>
        simp only [State.act, htop]
        refine h.quiet hw rfl (fun v => ?_) rfl le_rfl nofun
        simp [htop, Worker.held, List.count_cons]
    | executing exeCnt id => exact h.execute hw
    | consuming exeCnt edges nextId =>
      cases edges with
      | cons id edges => exact h.consume hw
      | nil =>
        cases nextId with
        | none => exact h.quiet hw rfl (fun _ => rfl) rfl le_rfl nofun
        | some id => exact h.quiet hw rfl (fun _ => rfl) rfl le_rfl nofun
    | returned => exact h

theorem Inv.run (h : Inv g s) (schedule : List Nat) : Inv g (workers.run s schedule) :=
  workers.run_preserves (fun _ w hs => hs.step w) h schedule

def State.start (g : DAG) (n : Nat) : State := { dag := g.generate, workers := List.replicate n .checking }

theorem inv_start (hg : g.Ok) (htop : g.topLevel = []) (n : Nat) : Inv g (State.start g n) := by
  have htotal : ∀ f : Worker → Nat, f .checking = 0 → (State.start g n).total f = 0 := by
    intro f hf
    simp [State.total, State.start, hf]
  refine ⟨rfl, fun _ => rfl, fun v => ?_, fun v => ?_, ?_, ?_, ?_⟩
  · rw [htotal (fun w => w.edges.count v) rfl, Nat.add_zero]
    exact hg.degree v
  · rw [htotal (fun w => w.held.count v) rfl]
    simp only [State.start, DAG.generate, htop, List.nil_append, List.count_nil, Nat.add_zero]
    have hnodup : ((List.range g.vtxs.length).filter fun id => g.inDegree id = 0).Nodup :=
      List.nodup_range.filter _
    rw [hnodup.count]
    simp only [List.mem_filter, List.mem_range, decide_eq_true_eq]
    rfl
  · intro before v after hsplit
    simp [State.start] at hsplit
  · rw [htotal Worker.counted rfl]
    rfl
  · intro hmem
    have := List.eq_of_mem_replicate hmem
    cases this

/-! ### Progress -/

def Worker.left : Worker → Nat
  | .checking => 1
  | .consuming _ edges _ => 2 * edges.length + 1
  | _ => 0

def State.left (s : State) : Nat :=
  4 * (s.dag.vtxs.length - s.executed.length) + 2 * sumUnexecuted s.dag s.executed List.length
    + s.dag.topLevel.length + s.total Worker.left

/-- A frozen worker consumes nothing and holds transactions that no other waits
    for. -/
def Frozen (g : DAG) (s : State) (p : Nat) : Prop :=
  ∀ worker, s.workers[p]? = some worker → worker.edges = [] ∧ ∀ v ∈ worker.held, g.outEdge v = []

theorem Inv.known (h : Inv g s) {v : Nat} (hv : v ∈ s.executed) : v < g.vtxs.length :=
  (h.placed_of_started (Or.inl hv)).1

theorem Inv.length_lt (h : Inv g s) {x : Nat} (hx : x < g.vtxs.length) (hnot : x ∉ s.executed) :
    s.executed.length < g.vtxs.length := by
  have hnodup : (x :: s.executed).Nodup := List.nodup_cons.mpr ⟨hnot, h.nodup⟩
  have hsub : x :: s.executed ⊆ List.range g.vtxs.length := by
    intro v hv
    rcases List.mem_cons.mp hv with rfl | hv
    · exact List.mem_range.mpr hx
    · exact List.mem_range.mpr (h.known hv)
  have hlength := (List.subperm_of_subset hnodup hsub).length_le
  rw [List.length_range, List.length_cons] at hlength
  omega

theorem Inv.left_execute (h : Inv g s) {w exeCnt : Nat} {id : Nat}
    (hw : s.workers[w]? = some (.executing exeCnt id)) :
    (s.act w (.executing exeCnt id)).left < s.left := by
  have hmem := List.mem_of_getElem? hw
  have hheld : id ∈ (Worker.executing exeCnt id).held := List.mem_singleton.mpr rfl
  have hknown := (h.placed_of_started (Or.inr ⟨_, hmem, hheld⟩)).1
  have hnot := h.not_executed_of_held hmem hheld
  have hlength := h.length_lt hknown hnot
  have hset := sum_set Worker.left (.consuming (exeCnt + 1) (s.dag.outEdge id) none) hw
  have hsplit := sumUnexecuted_append List.length (h.size.symm ▸ hknown) hnot
  simp only [State.left, State.act, State.set, State.total, Worker.left, List.length_append,
    List.length_singleton, h.size] at hset ⊢
  omega

theorem left_consume {w exeCnt : Nat} {edges : List ID} {nextId : Option ID}
    (hw : s.workers[w]? = some (.consuming exeCnt edges nextId)) :
    (s.act w (.consuming exeCnt edges nextId)).left < s.left := by
  cases edges with
  | nil =>
    cases nextId with
    | none =>
      have hset := sum_set Worker.left (.waiting exeCnt) hw
      simp only [State.left, State.act, State.set, State.total, Worker.left, List.length_nil] at hset ⊢
      omega
    | some id =>
      have hset := sum_set Worker.left (.executing exeCnt id) hw
      simp only [State.left, State.act, State.set, State.total, Worker.left, List.length_nil] at hset ⊢
      omega
  | cons id edges =>
    have hset := sum_set Worker.left (.consuming exeCnt edges (s.consumeEdge id nextId).2) hw
    have hkeep : (s.consumeEdge id nextId).1.workers = s.workers
        ∧ (s.consumeEdge id nextId).1.executed = s.executed
        ∧ (s.consumeEdge id nextId).1.dag.vtxs.length = s.dag.vtxs.length
        ∧ sumUnexecuted (s.consumeEdge id nextId).1.dag s.executed List.length = sumUnexecuted s.dag s.executed List.length
        ∧ (s.consumeEdge id nextId).1.dag.topLevel.length ≤ s.dag.topLevel.length + 1 := by
      have hsize := DAG.length_fetchSub s.dag id
      have hout : sumUnexecuted (s.dag.fetchSub id) s.executed List.length = sumUnexecuted s.dag s.executed List.length := by
        simp only [sumUnexecuted, hsize, DAG.outEdge_fetchSub]
      simp only [State.consumeEdge]
      split
      · split
        · exact ⟨rfl, rfl, hsize, hout, Nat.le_succ _⟩
        · exact ⟨rfl, rfl, hsize, hout, by simp [DAG.push, DAG.fetchSub]⟩
      · exact ⟨rfl, rfl, hsize, hout, Nat.le_succ _⟩
    obtain ⟨hworkers, hexecuted, hsize, hout, htop⟩ := hkeep
    simp only [State.left, State.act, State.set, State.total, Worker.left, List.length_cons, hworkers,
      hexecuted, hsize, hout] at hset ⊢
    omega

/-- **While a transaction is not executed, a worker can work.**  It may be any
    but a frozen one, unless the frozen one holds the transaction. -/
theorem Inv.progress (h : Inv g s) (hg : g.Ok) {p : Nat} (hfrozen : Frozen g s p) {x : Nat}
    (hx : x < g.vtxs.length) (hnot : x ∉ s.executed)
    (hheld : ∀ worker, s.workers[p]? = some worker → x ∉ worker.held)
    (hother : ∃ w, w ≠ p ∧ w < s.workers.length) :
    ∃ w, w ≠ p ∧ (s.step w).left < s.left := by
  by_cases hbusy : ∃ w, w ≠ p ∧ ∃ worker, s.workers[w]? = some worker
      ∧ ((∃ n id, worker = .executing n id) ∨ ∃ n edges nextId, worker = .consuming n edges nextId)
  · obtain ⟨w, hw, worker, hworker, hkind⟩ := hbusy
    refine ⟨w, hw, ?_⟩
    rcases hkind with ⟨n, id, rfl⟩ | ⟨n, edges, nextId, rfl⟩
    · simp only [State.step, hworker]
      exact h.left_execute hworker
    · simp only [State.step, hworker]
      exact left_consume hworker
  -- Now no other worker holds or consumes anything.
  have hidle : ∀ w worker, s.workers[w]? = some worker → w ≠ p → worker.edges = [] ∧ worker.held = [] := by
    intro w worker hworker hw
    cases worker with
    | executing n id => exact absurd ⟨w, hw, _, hworker, Or.inl ⟨n, id, rfl⟩⟩ hbusy
    | consuming n edges nextId => exact absurd ⟨w, hw, _, hworker, Or.inr ⟨n, edges, nextId, rfl⟩⟩ hbusy
    | checking => exact ⟨rfl, rfl⟩
    | waiting n => exact ⟨rfl, rfl⟩
    | returned => exact ⟨rfl, rfl⟩
  -- The first such transaction waits for no other.
  have hexists : ∃ y, y < g.vtxs.length ∧ y ∉ s.executed
      ∧ ∀ worker, s.workers[p]? = some worker → y ∉ worker.held := ⟨x, hx, hnot, hheld⟩
  classical
  obtain ⟨hy, hynot, hyheld⟩ := Nat.find_spec hexists
  have hmin : ∀ u, u < Nat.find hexists → ¬ (u < g.vtxs.length ∧ u ∉ s.executed
      ∧ ∀ worker, s.workers[p]? = some worker → u ∉ worker.held) := fun u hu => Nat.find_min hexists hu
  generalize Nat.find hexists = y at hy hynot hyheld hmin
  have hdegree : s.dag.inDegree y = 0 := by
    rw [h.degree, unexecutedEdges, sumUnexecuted, State.total, Nat.add_eq_zero_iff]
    constructor
    · apply Finset.sum_eq_zero
      intro u hu
      split
      next => rfl
      next hunexecuted =>
        apply List.count_eq_zero.mpr
        intro hedge
        apply hmin u (hg.later u y hedge)
        refine ⟨Finset.mem_range.mp hu, hunexecuted, fun worker hworker hmem => ?_⟩
        rw [(hfrozen worker hworker).2 u hmem] at hedge
        cases hedge
    · apply List.sum_eq_zero_iff_forall_eq_nat.mpr
      intro n hn
      obtain ⟨worker, hworker, rfl⟩ := List.mem_map.mp hn
      obtain ⟨w, hw⟩ := List.mem_iff_getElem?.mp hworker
      have hnil : worker.edges = [] := by
        by_cases hp : w = p
        · exact (hfrozen worker (hp ▸ hw)).1
        · exact (hidle w worker hw hp).1
      rw [hnil, List.count_nil]
  have htop : s.dag.topLevel ≠ [] := by
    intro hnil
    have hplaced := h.placed y
    rw [if_pos ⟨hy, hdegree⟩, hnil, List.count_eq_zero.mpr hynot, List.count_nil] at hplaced
    have hzero : (s.total fun w => w.held.count y) = 0 := by
      apply List.sum_eq_zero_iff_forall_eq_nat.mpr
      intro n hn
      obtain ⟨worker, hworker, rfl⟩ := List.mem_map.mp hn
      obtain ⟨w, hw⟩ := List.mem_iff_getElem?.mp hworker
      apply List.count_eq_zero.mpr
      by_cases hp : w = p
      · exact hyheld worker (hp ▸ hw)
      · rw [(hidle w worker hw hp).2]
        exact List.not_mem_nil
    omega
  obtain ⟨w, hw, hlt⟩ := hother
  have hworker := List.getElem?_eq_getElem hlt
  have hcounted := h.counted
  have hlength := h.length_lt hy hynot
  refine ⟨w, hw, ?_⟩
  simp only [State.step, hworker]
  cases hkind : s.workers[w] with
  | checking =>
    rw [hkind] at hworker
    have hgoing : s.hasFinished = false := by
      rw [State.hasFinished, h.size]
      exact decide_eq_false (by omega)
    have hset := sum_set Worker.left (.waiting 0) hworker
    simp only [State.left, State.act, hgoing, Bool.false_eq_true, if_false, State.set, State.total,
      Worker.left] at hset ⊢
    omega
  | waiting n =>
    rw [hkind] at hworker
    obtain ⟨id, rest, hcons⟩ := List.exists_cons_of_ne_nil htop
    have hset := sum_set Worker.left (.executing n id) hworker
    simp only [State.left, State.act, hcons, State.set, State.total, Worker.left, List.length_cons,
      sumUnexecuted, DAG.outEdge] at hset ⊢
    omega
  | executing n id =>
    rw [hkind] at hworker
    exact absurd ⟨w, hw, _, hworker, Or.inl ⟨n, id, rfl⟩⟩ hbusy
  | consuming n edges nextId =>
    rw [hkind] at hworker
    exact absurd ⟨w, hw, _, hworker, Or.inr ⟨n, edges, nextId, rfl⟩⟩ hbusy
  | returned =>
    have := h.finished (hkind ▸ List.getElem_mem hlt)
    omega

theorem workers_step (s : State) {w p : Nat} (hne : w ≠ p) :
    (s.step w).workers[p]? = s.workers[p]? ∧ (s.step w).workers.length = s.workers.length := by
  have hset : ∀ (s : State) worker, (s.set w worker).workers[p]? = s.workers[p]?
      ∧ (s.set w worker).workers.length = s.workers.length := by
    intro s worker
    simp only [State.set, List.length_set, and_true]
    exact List.getElem?_set_ne hne
  rw [State.step]
  cases s.workers[w]? with
  | none => exact ⟨rfl, rfl⟩
  | some worker =>
    cases worker with
    | checking => exact hset _ _
    | waiting n =>
      cases htop : s.dag.topLevel with
      | nil =>
        simp only [State.act, htop]
        exact hset { s with exeCnt := s.exeCnt + n } _
      | cons id rest =>
        simp only [State.act, htop]
        exact hset { s with dag := { s.dag with topLevel := rest } } _
    | executing n id => exact hset { s with executed := s.executed ++ [id] } _
    | consuming n edges nextId =>
      cases edges with
      | cons id edges =>
        have hkeep : (s.consumeEdge id nextId).1.workers = s.workers := by
          simp only [State.consumeEdge]
          split
          · split <;> rfl
          · rfl
        have h := hset (s.consumeEdge id nextId).1 (.consuming n edges (s.consumeEdge id nextId).2)
        rw [hkeep] at h
        exact h
      | nil =>
        cases nextId with
        | none => exact hset _ _
        | some id => exact hset _ _
    | returned => exact ⟨rfl, rfl⟩

/-- **The others can execute all that a frozen worker does not hold.** -/
theorem Inv.completes (h : Inv g s) (hg : g.Ok) {p : Nat} (hfrozen : Frozen g s p)
    (hother : ∃ w, w ≠ p ∧ w < s.workers.length) :
    ∃ schedule, (∀ x < g.vtxs.length, (∀ worker, s.workers[p]? = some worker → x ∉ worker.held) →
        x ∈ (workers.run s schedule).executed)
      ∧ (workers.run s schedule).workers[p]? = s.workers[p]? := by
  induction hleft : s.left using Nat.strong_induction_on generalizing s with
  | _ left ih =>
    by_cases hdone : ∀ x < g.vtxs.length, (∀ worker, s.workers[p]? = some worker → x ∉ worker.held) →
        x ∈ s.executed
    · exact ⟨[], hdone, rfl⟩
    · push Not at hdone
      obtain ⟨x, hx, hheld, hnot⟩ := hdone
      obtain ⟨w, hw, hlt⟩ := h.progress hg hfrozen hx hnot hheld hother
      obtain ⟨hsame, hlength⟩ := workers_step s hw
      have hfrozen' : Frozen g (s.step w) p := by
        intro worker hworker
        exact hfrozen worker (hsame ▸ hworker)
      obtain ⟨schedule, hall, hkept⟩ := ih _ (hleft ▸ hlt) (h.step w) hfrozen' (hlength ▸ hother) rfl
      rw [hsame] at hall hkept
      exact ⟨w :: schedule, hall, hkept⟩

end Inv

end HieraChain.Verifier
