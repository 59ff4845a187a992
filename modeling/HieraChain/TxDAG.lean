/-
  HieraChain/TxDAG.lean
  =====================
  **Transactions in parallel are executed as if in block order**
  (`libblockverifier/TxDAG.h`, `TxDAG.cpp`).

  A transaction has critical fields, or is ordinary.  `init` adds an edge from
  the latest holder of each field, and an ordinary transaction becomes the holder
  of all fields.  So an earlier holder of a field leads to the latest one along
  edges (`Built.reach`), and conflicts are ordered by paths.

  A transaction with an empty list of fields gets no edges, not even to or from
  ordinary transactions.  The workers keep the order of all conflicts exactly
  when the block does not have both (`serial_iff`).
-/
import HieraChain.AssocMap
import HieraChain.DAG

namespace HieraChain.Verifier

/-- What `getTxCriticals` gives; `none` is the null pointer of an ordinary
    transaction. -/
abbrev Criticals (T : Type) := Option (List T)

/-! ### The latest holders of fields -/

structure CriticalField (T : Type) where
  criticals : AssocMap T ID := AssocMap.empty
  criticalAll : Option ID := none

namespace CriticalField

variable {T : Type} [DecidableEq T]

def get (l : CriticalField T) (c : T) : Option ID :=
  match l.criticals.find? c with
  | none => l.criticalAll
  | some id => some id

def update (l : CriticalField T) (c : T) (txId : ID) : CriticalField T :=
  { l with criticals := l.criticals.insert c txId }

/-- The holders that `foreachField` goes through. -/
def foreachField (l : CriticalField T) : List ID :=
  l.criticals.entries.map Prod.snd ++ l.criticalAll.toList

def setCriticalAll (_ : CriticalField T) (id : ID) : CriticalField T := { criticalAll := some id }

theorem mem_foreachField {l : CriticalField T} {c : T} {p : ID} (h : l.get c = some p) :
    p ∈ l.foreachField := by
  rw [get] at h
  rw [foreachField, List.mem_append]
  cases hfind : l.criticals.find? c with
  | none =>
    rw [hfind] at h
    exact Or.inr (by simp [h])
  | some holder =>
    rw [hfind] at h
    cases h
    exact Or.inl (List.mem_map.mpr ⟨(c, p), AssocMap.mem_entries_iff.mpr hfind, rfl⟩)

theorem get_of_mem {l : CriticalField T} {p : ID} (h : p ∈ l.foreachField) :
    l.criticalAll = some p ∨ ∃ c, l.get c = some p := by
  rw [foreachField, List.mem_append, List.mem_map] at h
  rcases h with ⟨⟨c, holder⟩, hmem, rfl⟩ | hall
  · exact Or.inr ⟨c, by rw [get, AssocMap.mem_entries_iff.mp hmem]⟩
  · exact Or.inl (by simpa using hall)

theorem get_foldl_update (l : CriticalField T) (cs : List T) (c : T) (id : ID) :
    (cs.foldl (fun l c => l.update c id) l).get c = if c ∈ cs then some id else l.get c := by
  induction cs generalizing l with
  | nil => simp
  | cons a cs ih =>
    have hstep : (l.update a id).get c = if c = a then some id else l.get c := by
      rw [get, update, AssocMap.find?_insert, get]
      by_cases hc : c = a
      · rw [if_pos hc, if_pos hc]
      · rw [if_neg hc, if_neg hc]
    rw [List.foldl_cons, ih, hstep]
    by_cases hmem : c ∈ cs
    · simp [hmem]
    · by_cases hc : c = a <;> simp [hmem, hc]

theorem criticalAll_foldl_update (l : CriticalField T) (cs : List T) (id : ID) :
    (cs.foldl (fun l c => l.update c id) l).criticalAll = l.criticalAll := by
  induction cs generalizing l with
  | nil => rfl
  | cons a cs ih => exact ih (l.update a id)

end CriticalField

/-! ### The graph of a block -/

namespace TxDAG

variable {T : Type} [DecidableEq T]

def addEdges (dag : DAG) (pIds : List ID) (id : ID) : DAG := pIds.foldl (fun dag pId => dag.addEdge pId id) dag

/-- One iteration of the loop of `init`. -/
def initTx (acc : DAG × CriticalField T) (tx : Criticals T × ID) : DAG × CriticalField T :=
  match tx.1 with
  | some criticals =>
    (addEdges acc.1 (criticals.filterMap acc.2.get) tx.2, criticals.foldl (fun l c => l.update c tx.2) acc.2)
  | none => (addEdges acc.1 acc.2.foreachField tx.2, acc.2.setCriticalAll tx.2)

/-- `init` before `generate`. -/
def init (txs : List (Criticals T)) : DAG := (txs.zipIdx.foldl initTx (DAG.init txs.length, {})).1

def start (txs : List (Criticals T)) (n : Nat) : State := State.start (init txs) n

/-! ### Edges -/

def Edge (dag : DAG) (u v : ID) : Prop := v ∈ dag.outEdge u

theorem addEdges_spec (dag : DAG) (pIds : List ID) {id : Nat} (hids : ∀ p ∈ pIds, p < dag.vtxs.length)
    (hid : id < dag.vtxs.length) :
    (addEdges dag pIds id).vtxs.length = dag.vtxs.length
      ∧ (addEdges dag pIds id).topLevel = dag.topLevel
      ∧ (∀ u v, Edge (addEdges dag pIds id) u v ↔ Edge dag u v ∨ u ∈ pIds ∧ v = id)
      ∧ ((∀ v, dag.inDegree v = unexecutedEdges dag [] v) →
        ∀ v, (addEdges dag pIds id).inDegree v = unexecutedEdges (addEdges dag pIds id) [] v)
      ∧ ∀ v, v ≠ id → (addEdges dag pIds id).inDegree v = dag.inDegree v := by
  induction pIds generalizing dag with
  | nil => exact ⟨rfl, rfl, fun u v => by simp [addEdges], fun h => h, fun _ _ => rfl⟩
  | cons p pIds ih =>
    have hp := hids p List.mem_cons_self
    have hout : ∀ u, (dag.addEdge p id).outEdge u = if u = p then dag.outEdge p ++ [id] else dag.outEdge u :=
      fun u => DAG.outEdge_addEdge dag id u hp
    have hin : ∀ v, (dag.addEdge p id).inDegree v = dag.inDegree v + if v = id then 1 else 0 :=
      fun v => DAG.inDegree_addEdge dag p v hid
    obtain ⟨hsize, htop, hedge, hdegree, hother⟩ := ih (dag.addEdge p id)
      (fun q hq => (DAG.length_addEdge dag p id).symm ▸ hids q (List.mem_cons_of_mem _ hq))
      ((DAG.length_addEdge dag p id).symm ▸ hid)
    refine ⟨hsize.trans (DAG.length_addEdge _ _ _), htop.trans (DAG.topLevel_addEdge _ _ _), fun u v => ?_,
      fun hcount => hdegree fun v => ?_, fun v hv => ?_⟩
    · refine (hedge u v).trans ?_
      rw [Edge, Edge, hout]
      by_cases hu : u = p
      · subst hu
        simp
        tauto
      · simp [hu]
    · have hflip : (id = v) = (v = id) := propext eq_comm
      rw [hin, hcount, unexecutedEdges, unexecutedEdges, sumUnexecuted, sumUnexecuted, DAG.length_addEdge]
      have hone : ∀ u ∈ Finset.range dag.vtxs.length,
          (if u ∈ ([] : List ID) then 0 else ((dag.addEdge p id).outEdge u).count v)
            = (if u ∈ ([] : List ID) then 0 else (dag.outEdge u).count v)
              + if u = p then (if v = id then 1 else 0) else 0 := by
        intro u _
        rw [hout]
        by_cases hu : u = p
        · subst hu
          simp only [List.not_mem_nil, if_false, if_true, List.count_append, List.count_singleton,
            beq_iff_eq, hflip]
        · simp [hu]
      rw [Finset.sum_congr rfl hone, Finset.sum_add_distrib, Finset.sum_ite_eq', if_pos (Finset.mem_range.mpr hp)]
    · refine (hother v hv).trans ?_
      rw [hin, if_neg hv, Nat.add_zero]

/-! ### Paths from earlier holders -/

def Holds (tx : Criticals T) (c : T) : Prop :=
  match tx with
  | some criticals => c ∈ criticals
  | none => True

/-- After the transactions `txs`, in a graph of `n` vertices. -/
structure Built (n : Nat) (txs : List (Criticals T)) (acc : DAG × CriticalField T) : Prop where
  size : acc.1.vtxs.length = n
  topLevel : acc.1.topLevel = []
  edge : ∀ u v, Edge acc.1 u v → u < v ∧ v < txs.length
  degree : ∀ v, acc.1.inDegree v = unexecutedEdges acc.1 [] v
  /-- Holders hold a field. -/
  holder : ∀ p ∈ acc.2.foreachField, ∃ tx, txs[p]? = some tx ∧ ∃ c, Holds tx c
  /-- An earlier holder of a field leads to the latest one. -/
  reach : ∀ (i : Nat) (tx : Criticals T), txs[i]? = some tx → ∀ c, Holds tx c →
    ∃ p, acc.2.get c = some p ∧ Relation.ReflTransGen (Edge acc.1) i p
  /-- Transactions that hold a field are on a path. -/
  path : ∀ (i j : Nat) (a b : Criticals T), i < j → txs[i]? = some a → txs[j]? = some b →
    (∃ c, Holds a c ∧ Holds b c) → Relation.TransGen (Edge acc.1) i j
  /-- A transaction without fields is alone. -/
  lone : ∀ i : Nat, txs[i]? = some (some []) → (∀ v, ¬ Edge acc.1 i v) ∧ acc.1.inDegree i = 0

theorem built_init (n : Nat) : Built n ([] : List (Criticals T)) (DAG.init n, {}) := by
  have hget : ∀ u, (DAG.init n).outEdge u = [] ∧ (DAG.init n).inDegree u = 0 := by
    intro u
    simp only [DAG.outEdge, DAG.inDegree, DAG.init, List.getElem?_replicate]
    split <;> exact ⟨rfl, rfl⟩
  refine ⟨List.length_replicate .., rfl, fun u v hedge => ?_, fun v => ?_, ?_, ?_, ?_, ?_⟩
  · rw [Edge, (hget u).1] at hedge
    cases hedge
  · rw [(hget v).2, unexecutedEdges, sumUnexecuted]
    symm
    apply Finset.sum_eq_zero
    intro u _
    simp [(hget u).1]
  · simp [CriticalField.foreachField, AssocMap.empty]
  · intro i tx hi
    simp at hi
  · intro i j a b _ hi
    simp at hi
  · intro i hi
    simp at hi

/-- **One iteration of the loop.** -/
theorem Built.initTx [Inhabited T] {n : Nat} {txs : List (Criticals T)} {acc : DAG × CriticalField T}
    (h : Built n txs acc) (tx : Criticals T) (hlt : txs.length < n) :
    Built n (txs ++ [tx]) (TxDAG.initTx acc (tx, txs.length)) := by
  -- Both branches add edges from holders, and make the new one a holder.
  obtain ⟨pIds, hresult, hpIds, hnil, hget, hfields⟩ : ∃ pIds,
      (TxDAG.initTx acc (tx, txs.length)).1 = addEdges acc.1 pIds txs.length
      ∧ (∀ p ∈ pIds, p ∈ acc.2.foreachField)
      ∧ (tx = some [] → pIds = [])
      ∧ (∀ c, (TxDAG.initTx acc (tx, txs.length)).2.get c
          = some txs.length ∧ Holds tx c ∧ (∀ p, acc.2.get c = some p → p ∈ pIds)
        ∨ (TxDAG.initTx acc (tx, txs.length)).2.get c = acc.2.get c ∧ ¬ Holds tx c)
      ∧ ∀ p ∈ (TxDAG.initTx acc (tx, txs.length)).2.foreachField,
          p = txs.length ∧ (∃ c, Holds tx c) ∨ p ∈ acc.2.foreachField := by
    cases tx with
    | none =>
      refine ⟨acc.2.foreachField, rfl, fun _ hp => hp, nofun, fun c => ?_, fun p hp => ?_⟩
      · exact Or.inl ⟨rfl, trivial, fun p hp => CriticalField.mem_foreachField hp⟩
      · have hp' : p ∈ [txs.length] := hp
        exact Or.inl ⟨List.mem_singleton.mp hp', default, trivial⟩
    | some criticals =>
      refine ⟨criticals.filterMap acc.2.get, rfl, fun p hp => ?_, fun hnil => ?_, fun c => ?_, fun p hp => ?_⟩
      · obtain ⟨c, -, hc⟩ := List.mem_filterMap.mp hp
        exact CriticalField.mem_foreachField hc
      · cases hnil
        rfl
      · have hnew := CriticalField.get_foldl_update acc.2 criticals c txs.length
        by_cases hc : c ∈ criticals
        · rw [if_pos hc] at hnew
          exact Or.inl ⟨hnew, hc, fun p hp => List.mem_filterMap.mpr ⟨c, hc, hp⟩⟩
        · rw [if_neg hc] at hnew
          exact Or.inr ⟨hnew, hc⟩
      · rcases CriticalField.get_of_mem hp with hall | ⟨c, hc⟩
        · have hsame := CriticalField.criticalAll_foldl_update acc.2 criticals txs.length
          right
          rw [CriticalField.foreachField, List.mem_append]
          right
          rw [← hsame]
          simp only [TxDAG.initTx] at hall
          simp [hall]
        · have hnew := CriticalField.get_foldl_update acc.2 criticals c txs.length
          simp only [TxDAG.initTx] at hc
          rw [hc] at hnew
          split at hnew
          next hmem =>
            cases hnew
            exact Or.inl ⟨rfl, c, hmem⟩
          next => exact Or.inr (CriticalField.mem_foreachField hnew.symm)
  have hbound : ∀ p ∈ acc.2.foreachField, p < txs.length := by
    intro p hp
    obtain ⟨tx', htx', -⟩ := h.holder p hp
    exact (List.getElem?_eq_some_iff.mp htx').1
  obtain ⟨hsize, htop, hedge, hdegree, hother⟩ := addEdges_spec acc.1 pIds
    (fun p hp => h.size.symm ▸ lt_trans (hbound p (hpIds p hp)) hlt) (h.size.symm ▸ hlt)
  have hmono : ∀ u v, Relation.ReflTransGen (Edge acc.1) u v →
      Relation.ReflTransGen (Edge (addEdges acc.1 pIds txs.length)) u v := fun u v hpath =>
    Relation.ReflTransGen.mono (fun a b hab => (hedge a b).mpr (Or.inl hab)) u v hpath
  have hold : ∀ (i : Nat) (tx' : Criticals T), (txs ++ [tx])[i]? = some tx' →
      txs[i]? = some tx' ∨ i = txs.length ∧ tx' = tx := by
    intro i tx' hi
    rcases Nat.lt_or_ge i txs.length with hlt' | hge
    · rw [List.getElem?_append_left hlt'] at hi
      exact Or.inl hi
    · rw [List.getElem?_append_right hge] at hi
      obtain ⟨hzero, heq⟩ := List.getElem?_eq_some_iff.mp hi
      simp only [List.length_singleton] at hzero
      exact Or.inr ⟨by omega, by simpa using heq.symm⟩
  have hnew : ∀ (p : Nat) (tx' : Criticals T), txs[p]? = some tx' → (txs ++ [tx])[p]? = some tx' := by
    intro p tx' hp
    rw [List.getElem?_append_left (List.getElem?_eq_some_iff.mp hp).1]
    exact hp
  refine ⟨?_, ?_, fun u v huv => ?_, ?_, fun p hp => ?_, fun i tx' hi c hc => ?_,
    fun i j a b hij hi hj hc => ?_, fun i hi => ?_⟩
  · rw [hresult, hsize, h.size]
  · rw [hresult, htop, h.topLevel]
  · rw [hresult, hedge] at huv
    rw [List.length_append, List.length_singleton]
    rcases huv with huv | ⟨hu, rfl⟩
    · obtain ⟨hlater, hknown⟩ := h.edge u v huv
      exact ⟨hlater, Nat.lt_succ_of_lt hknown⟩
    · exact ⟨hbound u (hpIds u hu), Nat.lt_succ_self _⟩
  · rw [hresult]
    exact hdegree h.degree
  · rcases hfields p hp with ⟨rfl, hc⟩ | hp
    · exact ⟨tx, by simp, hc⟩
    · obtain ⟨tx', htx', hc⟩ := h.holder p hp
      exact ⟨tx', hnew p tx' htx', hc⟩
  · rw [hresult]
    rcases hold i tx' hi with hi | ⟨rfl, rfl⟩
    · obtain ⟨p, hp, hpath⟩ := h.reach i tx' hi c hc
      rcases hget c with ⟨hlatest, -, hmem⟩ | ⟨hsame, -⟩
      · exact ⟨txs.length, hlatest, (hmono i p hpath).tail ((hedge _ _).mpr (Or.inr ⟨hmem p hp, rfl⟩))⟩
      · exact ⟨p, hsame.trans hp, hmono i p hpath⟩
    · rcases hget c with ⟨hlatest, -, -⟩ | ⟨-, hnot⟩
      · exact ⟨txs.length, hlatest, .refl⟩
      · exact absurd hc hnot
  · rw [hresult]
    have hearlier : txs[i]? = some a := by
      rcases hold i a hi with hi | ⟨rfl, -⟩
      · exact hi
      · have := (List.getElem?_eq_some_iff.mp hj).1
        rw [List.length_append, List.length_singleton] at this
        omega
    rcases hold j b hj with hj | ⟨rfl, rfl⟩
    · exact Relation.TransGen.mono (fun u v huv => (hedge u v).mpr (Or.inl huv)) i j
        (h.path i j a b hij hearlier hj hc)
    · obtain ⟨c, hac, hbc⟩ := hc
      obtain ⟨p, hp, hpath⟩ := h.reach i a hearlier c hac
      rcases hget c with ⟨-, -, hmem⟩ | ⟨-, hnot⟩
      · exact Relation.TransGen.tail' (hmono i p hpath) ((hedge _ _).mpr (Or.inr ⟨hmem p hp, rfl⟩))
      · exact absurd hbc hnot
  · rw [hresult]
    rcases hold i _ hi with hi | ⟨rfl, hempty⟩
    · obtain ⟨hout, hin⟩ := h.lone i hi
      have hne : i ≠ txs.length := by
        have := (List.getElem?_eq_some_iff.mp hi).1
        omega
      refine ⟨fun v huv => ?_, (hother i hne).trans hin⟩
      rcases (hedge i v).mp huv with huv | ⟨hmem, -⟩
      · exact hout v huv
      · obtain ⟨tx', htx', c, hc⟩ := h.holder i (hpIds i hmem)
        rw [hi] at htx'
        cases htx'
        cases hc
    · rw [hnil hempty.symm]
      have hfresh : ∀ u, ¬ Edge acc.1 u txs.length := fun u huv => absurd (h.edge u _ huv).2 (lt_irrefl _)
      refine ⟨fun v huv => absurd ((h.edge _ v huv).1.trans (h.edge _ v huv).2) (lt_irrefl _), ?_⟩
      refine (h.degree _).trans ?_
      rw [unexecutedEdges, sumUnexecuted]
      apply Finset.sum_eq_zero
      intro u _
      simp only [List.not_mem_nil, if_false]
      exact List.count_eq_zero.mpr (hfresh u)

/-- **The graph of a block.** -/
theorem built_block [Inhabited T] (txs : List (Criticals T)) :
    Built txs.length txs (txs.zipIdx.foldl initTx (DAG.init txs.length, {})) := by
  have hall : ∀ n, txs.length ≤ n → Built n txs (txs.zipIdx.foldl TxDAG.initTx (DAG.init n, {})) := by
    intro n hn
    induction txs using List.reverseRecOn with
    | nil => exact built_init n
    | append_singleton txs tx ih =>
      rw [List.length_append, List.length_singleton] at hn
      have hstep := (ih (by omega)).initTx tx (by omega)
      simpa [List.zipIdx_append] using hstep
  exact hall _ le_rfl

theorem init_ok [Inhabited T] (txs : List (Criticals T)) :
    (init txs).Ok ∧ (init txs).topLevel = [] ∧ (init txs).vtxs.length = txs.length := by
  have h := built_block txs
  exact ⟨⟨fun u v huv => (h.edge u v huv).1, fun u v huv => h.size.symm ▸ (h.edge u v huv).2, h.degree⟩,
    h.topLevel, h.size⟩

/-! ### Serial executions -/

def Conflict (a b : Criticals T) : Prop :=
  a = none ∨ b = none ∨ ∃ as bs, a = some as ∧ b = some bs ∧ ∃ c, c ∈ as ∧ c ∈ bs

/-- What the workers have done is part of an execution of each transaction
    once, with conflicts in block order: the earlier one is over when the later
    one begins.  The execution can go on to the end. -/
structure Serial (txs : List (Criticals T)) (s : State) : Prop where
  once : s.executed.Nodup
  ordered : ∀ (i j : Nat) (a b : Criticals T), i < j → txs[i]? = some a → txs[j]? = some b → Conflict a b →
    s.Started j → i ∈ s.executed ∧ ∀ before after, s.executed = before ++ j :: after → i ∈ before
  completes : s.workers ≠ [] → ∃ schedule, ∀ i < txs.length, i ∈ (workers.run s schedule).executed
  finished : .returned ∈ s.workers → ∀ i < txs.length, i ∈ s.executed

theorem executed_of_path {g : DAG} {s : State} (h : Inv g s) {i j : Nat}
    (hpath : Relation.TransGen (Edge g) i j) (hj : s.Started j) :
    i ∈ s.executed ∧ ∀ before after, s.executed = before ++ j :: after → i ∈ before := by
  induction hpath with
  | single hedge =>
    exact ⟨h.executed_of_started hj hedge, fun before after hsplit => h.ordered before _ after hsplit _ hedge⟩
  | tail _ hedge ih =>
    have hmiddle := h.executed_of_started hj hedge
    obtain ⟨hi, hbefore⟩ := ih (Or.inl hmiddle)
    refine ⟨hi, fun before after hsplit => ?_⟩
    obtain ⟨pre, post, rfl⟩ := List.append_of_mem (h.ordered before _ after hsplit _ hedge)
    rw [List.append_assoc, List.cons_append] at hsplit
    exact List.mem_append_left _ (hbefore pre _ hsplit)

theorem serial_of_inv [Inhabited T] {txs : List (Criticals T)} (hplain : ¬ (none ∈ txs ∧ some [] ∈ txs))
    {s : State} (h : Inv (init txs) s) : Serial txs s := by
  obtain ⟨hok, -, hsize⟩ := init_ok txs
  have hfields : ∀ b : Criticals T, b ∈ txs → none ∈ txs → ∃ c, Holds b c := by
    intro b hb hnone
    cases b with
    | none => exact ⟨default, trivial⟩
    | some bs =>
      cases bs with
      | nil => exact absurd ⟨hnone, hb⟩ hplain
      | cons c bs => exact ⟨c, List.mem_cons_self⟩
  refine ⟨h.nodup, fun i j a b hij hi hj hconflict hstarted => ?_, fun hworkers => ?_, fun hreturned i hi => ?_⟩
  · have hmeet : ∃ c, Holds a c ∧ Holds b c := by
      rcases hconflict with rfl | rfl | ⟨as, bs, rfl, rfl, hc⟩
      · obtain ⟨c, hc⟩ := hfields b (List.mem_of_getElem? hj) (List.mem_of_getElem? hi)
        exact ⟨c, trivial, hc⟩
      · obtain ⟨c, hc⟩ := hfields a (List.mem_of_getElem? hi) (List.mem_of_getElem? hj)
        exact ⟨c, hc, trivial⟩
      · exact hc
    exact executed_of_path h ((built_block txs).path i j a b hij hi hj hmeet) hstarted
  · have hnone : s.workers[s.workers.length]? = none := List.getElem?_eq_none le_rfl
    have hfrozen : Frozen (init txs) s s.workers.length := by
      intro worker hworker
      rw [hnone] at hworker
      cases hworker
    have hpos := List.length_pos_iff.mpr hworkers
    obtain ⟨schedule, hall, -⟩ := h.completes hok hfrozen ⟨0, hpos.ne, hpos⟩
    refine ⟨schedule, fun i hi => hall i (hsize ▸ hi) fun worker hworker => ?_⟩
    rw [hnone] at hworker
    cases hworker
  · by_contra hnot
    have hlength := h.length_lt (hsize ▸ hi) hnot
    have hcounted := h.counted
    have := h.finished hreturned
    omega

/-! ### Blocks with both ordinary transactions and transactions without fields -/

theorem take_top {s : State} {w : Nat} {id : ID} {rest : List ID} (htop : s.dag.topLevel = id :: rest)
    (hworker : s.workers[w]? = some .checking) (hgoing : s.hasFinished = false) :
    workers.run s [w, w]
      = { s with dag := { s.dag with topLevel := rest }, workers := s.workers.set w (.executing 0 id) } := by
  have hlt := (List.getElem?_eq_some_iff.mp hworker).1
  have hfirst : s.step w = s.set w (.waiting 0) := by
    simp only [State.step, hworker, State.act, hgoing, Bool.false_eq_true, if_false]
  have hwaiting : (s.set w (.waiting 0)).workers[w]? = some (.waiting 0) := List.getElem?_set_self hlt
  have htop' : (s.set w (.waiting 0)).dag.topLevel = id :: rest := htop
  have hsecond : (s.set w (.waiting 0)).step w
      = { s with dag := { s.dag with topLevel := rest }, workers := s.workers.set w (.executing 0 id) } := by
    rw [State.step, hwaiting]
    simp only [State.act, htop']
    simp only [State.set, List.set_set]
  rw [← hsecond, ← hfirst]
  rfl

theorem exists_holding (s : State) (before : List ID) {after : List ID} {e : ID} (offset : Nat)
    (htop : s.dag.topLevel = before ++ e :: after)
    (hidle : ∀ w, offset ≤ w → w < s.workers.length → s.workers[w]? = some .checking)
    (hroom : offset + before.length < s.workers.length) (hgoing : s.hasFinished = false) :
    ∃ (schedule : List Nat) (p : Nat), (workers.run s schedule).workers[p]? = some (Worker.executing 0 e)
      ∧ (workers.run s schedule).executed = s.executed
      ∧ (workers.run s schedule).workers.length = s.workers.length := by
  induction before generalizing s offset with
  | nil =>
    have hlt : offset < s.workers.length := by simpa using hroom
    refine ⟨[offset, offset], offset, ?_⟩
    rw [take_top htop (hidle offset le_rfl hlt) hgoing]
    exact ⟨List.getElem?_set_self hlt, rfl, List.length_set⟩
  | cons id before ih =>
    rw [List.length_cons] at hroom
    have hlt : offset < s.workers.length := by omega
    have hafter := take_top htop (hidle offset le_rfl hlt) hgoing
    have hlength : (workers.run s [offset, offset]).workers.length = s.workers.length := by
      rw [hafter, List.length_set]
    have hidle' : ∀ w, offset + 1 ≤ w → w < (workers.run s [offset, offset]).workers.length →
        (workers.run s [offset, offset]).workers[w]? = some .checking := by
      intro w hw hw'
      rw [hlength] at hw'
      rw [hafter]
      have hne : offset ≠ w := by omega
      exact (List.getElem?_set_ne hne).trans (hidle w (by omega) hw')
    obtain ⟨schedule, p, hholds, hexecuted, hsame⟩ := ih (workers.run s [offset, offset]) (offset + 1)
      (by rw [hafter]; rfl) hidle' (by rw [hlength]; omega) (by rw [hafter]; exact hgoing)
    refine ⟨[offset, offset] ++ schedule, p, ?_⟩
    rw [Machine.run_append]
    refine ⟨hholds, hexecuted.trans ?_, hsame.trans hlength⟩
    rw [hafter]

theorem exists_holding_lone [Inhabited T] {txs : List (Criticals T)} {e : Nat} (he : txs[e]? = some (some [])) :
    ∃ (schedule : List Nat) (p : Nat), (workers.run (start txs (txs.length + 2)) schedule).workers[p]? = some (Worker.executing 0 e)
      ∧ (workers.run (start txs (txs.length + 2)) schedule).executed = []
      ∧ (workers.run (start txs (txs.length + 2)) schedule).workers.length = txs.length + 2 := by
  obtain ⟨-, htop, hsize⟩ := init_ok txs
  have hlt := (List.getElem?_eq_some_iff.mp he).1
  have hlone := ((built_block txs).lone e he).2
  have htops : (start txs (txs.length + 2)).dag.topLevel
      = (List.range txs.length).filter fun id => (init txs).inDegree id = 0 := by
    simp only [start, State.start, DAG.generate, htop, List.nil_append, hsize]
  have hmem : e ∈ (start txs (txs.length + 2)).dag.topLevel := by
    rw [htops, List.mem_filter, List.mem_range]
    exact ⟨hlt, decide_eq_true hlone⟩
  obtain ⟨before, after, hsplit⟩ := List.append_of_mem hmem
  have hworkers : (start txs (txs.length + 2)).workers.length = txs.length + 2 := List.length_replicate ..
  have hshort : before.length ≤ txs.length := by
    have hle : (start txs (txs.length + 2)).dag.topLevel.length ≤ txs.length := by
      rw [htops]
      exact (List.length_filter_le _ _).trans_eq List.length_range
    rw [hsplit, List.length_append] at hle
    omega
  obtain ⟨schedule, p, hholds, hexecuted, hlength⟩ := exists_holding (start txs (txs.length + 2)) before 0 hsplit
    (fun w _ hw => by
      rw [hworkers] at hw
      exact List.getElem?_replicate_of_lt hw)
    (by rw [hworkers]; omega)
    (decide_eq_false (by
      have : (start txs (txs.length + 2)).dag.vtxs.length = txs.length := hsize
      have hzero : (start txs (txs.length + 2)).exeCnt = 0 := rfl
      omega))
  exact ⟨schedule, p, hholds, hexecuted, hlength.trans hworkers⟩

/-- **The workers keep the order of conflicts exactly when the block does not
    have both ordinary transactions and transactions with an empty list of
    fields.** -/
theorem serial_iff [Inhabited T] (txs : List (Criticals T)) :
    (∀ n schedule, Serial txs (workers.run (start txs n) schedule)) ↔ ¬ (none ∈ txs ∧ some [] ∈ txs) := by
  obtain ⟨hok, htop, hsize⟩ := init_ok txs
  have hinv : ∀ n schedule, Inv (init txs) (workers.run (start txs n) schedule) := fun n schedule =>
    (inv_start hok htop n).run schedule
  constructor
  · rintro hserial ⟨hordinary, hempty⟩
    obtain ⟨o, ho⟩ := List.mem_iff_getElem?.mp hordinary
    obtain ⟨e, he⟩ := List.mem_iff_getElem?.mp hempty
    obtain ⟨schedule, p, hholds, hexecuted, hlength⟩ := exists_holding_lone he
    have hheld : e ∈ (Worker.executing 0 e).held := List.mem_singleton.mpr rfl
    have hstarted : (workers.run (start txs (txs.length + 2)) schedule).Started e :=
      Or.inr ⟨_, List.mem_of_getElem? hholds, hheld⟩
    rcases Nat.lt_trichotomy o e with hlt | rfl | hlt
    · -- The ordinary one comes first and is not executed.
      have hmem := ((hserial _ schedule).ordered o e _ _ hlt ho he (Or.inl rfl) hstarted).1
      rw [hexecuted] at hmem
      cases hmem
    · rw [ho] at he
      cases he
    · -- The others go on to the ordinary one.
      have hlone := ((built_block txs).lone e he).1
      have hfrozen : Frozen (init txs) (workers.run (start txs (txs.length + 2)) schedule) p := by
        intro worker hworker
        rw [hholds] at hworker
        cases hworker
        refine ⟨rfl, fun v hv => ?_⟩
        obtain rfl := List.mem_singleton.mp hv
        exact List.eq_nil_iff_forall_not_mem.mpr hlone
      have hother : ∃ w, w ≠ p ∧ w < (workers.run (start txs (txs.length + 2)) schedule).workers.length := by
        rw [hlength]
        by_cases hp : p = 0
        · exact ⟨1, by omega, by omega⟩
        · exact ⟨0, by omega, by omega⟩
      obtain ⟨more, hall, hkept⟩ := (hinv _ schedule).completes hok hfrozen hother
      rw [← Machine.run_append] at hall hkept
      have hdone : o ∈ (workers.run (start txs (txs.length + 2)) (schedule ++ more)).executed := by
        apply hall o (hsize ▸ (List.getElem?_eq_some_iff.mp ho).1)
        intro worker hworker hmem
        rw [hholds] at hworker
        cases hworker
        have heq := List.mem_singleton.mp hmem
        exact hlt.ne heq.symm
      have hbefore := ((hserial _ (schedule ++ more)).ordered e o _ _ hlt he ho (Or.inr (Or.inl rfl))
        (Or.inl hdone)).1
      exact (hinv _ (schedule ++ more)).not_executed_of_held
        (List.mem_of_getElem? (hkept.trans hholds)) hheld hbefore
  · intro hplain n schedule
    exact serial_of_inv hplain (hinv n schedule)

/-- An ordinary transaction, and a later one without fields that another worker
    executes at the same time. -/
theorem not_serial : ¬ ∀ (txs : List (Criticals String)) n schedule,
    Serial txs (workers.run (start txs n) schedule) := by
  intro h
  have hordered := (h [none, some []] 2 [0, 0, 1, 1, 1]).ordered 0 1 none (some []) (by decide) rfl rfl (Or.inl rfl)
  have hexecuted : (workers.run (start [none, some ([] : List String)] 2) [0, 0, 1, 1, 1]).executed = [1] := by
    decide +kernel
  have hmem := (hordered (Or.inl (by rw [hexecuted]; exact List.mem_singleton.mpr rfl))).1
  rw [hexecuted] at hmem
  exact absurd hmem (by decide)

end TxDAG

end HieraChain.Verifier
