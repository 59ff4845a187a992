/-
  HieraChain/ConsensusPrecompiled.lean
  ====================================
  **The table of consensus nodes and its contract**
  (`libprecompiled/ConsensusPrecompiled.cpp`, `getNodeListByType` in
  `libprecompiled/Common.cpp`).

  From version 2.5.0 on the table keeps a sealer and distinct ids, whatever the
  calls.  That `getNodeListByType` gives every node of a type needs more: the
  contract tests an id for its length only, and the list ends at the first id
  that is not hexadecimal and at the first number beyond an `int`.  The rows
  that the calls leave are read in full when the ids of the calls are of
  hexadecimal digits and the blocks are below `2 ^ 31` (`table_stays_usable`);
  one sealer with another id hides the sealers after it (`id_without_hex`).

  The number in `enable_num` is kept as a number.  The columns without a reader
  are left out.
-/
import HieraChain.Hex
import HieraChain.Machine
import HieraChain.SystemTable

namespace HieraChain.Precompiled

open HieraChain.BigEndian HieraChain.Storage HieraChain.Hex

/-! ### Rows -/

/-- The texts `sealer`, `observer` and `wSealer`. -/
inductive NodeType
  | sealer
  | observer
  | workingSealer
  deriving DecidableEq, Repr

/-- A row under the key `node`. -/
structure Node where
  nodeID : Bytes
  type : NodeType
  enableNum : Int
  deriving DecidableEq, Repr

abbrev ConsensusTable := SystemTable Node

def Node.isSealer (r : Node) : Bool := r.type = .sealer ∨ r.type = .workingSealer

def CODE_LAST_SEALER : Int := -51101
def CODE_INVALID_NODEID : Int := -51100

/-- `lexical_cast<int>` of the text of a number. -/
def castInt (x : Int) : Option Int := if -2 ^ 31 ≤ x ∧ x < 2 ^ 31 then some x else none

/-- The loop of `getNodeListByType`; an exception ends it. -/
def listOfType (blockNumber : Int) (type : NodeType) : List Node → List Bytes
  | [] => []
  | r :: rows =>
    if r.type = type then
      match castInt r.enableNum with
      | none => []
      | some enableNum =>
        if enableNum ≤ blockNumber then
          match fixedHash 64 r.nodeID with
          | none => []
          | some node => node :: listOfType blockNumber type rows
        else listOfType blockNumber type rows
    else listOfType blockNumber type rows

section Calls

variable (version : Nat)

def getNodeListByType (t : ConsensusTable) (blockNumber : Int) (type : NodeType) : List Bytes :=
  listOfType blockNumber type (t.select version fun _ => true)

/-! ### The contract -/

def selectEntriesByNodeType (t : ConsensusTable) (type : NodeType) : List Node :=
  t.select version fun r => r.type = type

def selectByID (t : ConsensusTable) (nodeID : Bytes) : List Node :=
  t.select version fun r => r.nodeID = nodeID

def isOnly (rows : List Node) (nodeID : Bytes) : Bool :=
  match rows with
  | [r] => r.nodeID = nodeID
  | _ => false

def checkIsLastSealer (t : ConsensusTable) (nodeID : Bytes) : Bool :=
  if isOnly (selectEntriesByNodeType version t .sealer) nodeID then
    (selectEntriesByNodeType version t .workingSealer).isEmpty
  else
    match selectByID version t nodeID with
    | [] => false
    | r :: _ =>
      if r.type = .workingSealer then
        isOnly (selectEntriesByNodeType version t .workingSealer) nodeID
      else false

def insertNode (t : ConsensusTable) (authorized : Bool) (r : Node) : Int × ConsensusTable :=
  if authorized then (1, t.insert r) else (CODE_NO_AUTHORIZED, t)

def updateNode (t : ConsensusTable) (authorized : Bool) (nodeID : Bytes) (type : NodeType)
    (enableNum : Int) : Int × ConsensusTable :=
  if authorized then
    ((selectByID version t nodeID).length,
      t.update version (fun r => r.nodeID = nodeID)
        fun r => { r with type := type, enableNum := enableNum })
  else (CODE_NO_AUTHORIZED, t)

def removeNode (t : ConsensusTable) (authorized : Bool) (nodeID : Bytes) : Int × ConsensusTable :=
  if authorized then
    ((selectByID version t nodeID).length, t.remove version fun r => r.nodeID = nodeID)
  else (CODE_NO_AUTHORIZED, t)

def addSealer (number : Int) (t : ConsensusTable) (authorized : Bool) (argument : Bytes) :
    Int × ConsensusTable :=
  let nodeID := to_lower argument
  if nodeID.length ≠ 128 then (CODE_INVALID_NODEID, t)
  else if (selectByID version t nodeID).isEmpty then
    insertNode t authorized { nodeID := nodeID, type := .sealer, enableNum := number + 1 }
  else updateNode version t authorized nodeID .sealer (number + 1)

def addObserver (number : Int) (t : ConsensusTable) (authorized : Bool) (argument : Bytes) :
    Int × ConsensusTable :=
  let nodeID := to_lower argument
  if nodeID.length ≠ 128 then (CODE_INVALID_NODEID, t)
  else if (selectByID version t nodeID).isEmpty then
    insertNode t authorized { nodeID := nodeID, type := .observer, enableNum := number + 1 }
  else if checkIsLastSealer version t nodeID then (CODE_LAST_SEALER, t)
  else updateNode version t authorized nodeID .observer (number + 1)

def remove (t : ConsensusTable) (authorized : Bool) (argument : Bytes) : Int × ConsensusTable :=
  let nodeID := to_lower argument
  if nodeID.length ≠ 128 then (CODE_INVALID_NODEID, t)
  else if checkIsLastSealer version t nodeID then (CODE_LAST_SEALER, t)
  else removeNode version t authorized nodeID

inductive Method
  | addSealer
  | addObserver
  | remove
  deriving DecidableEq, Repr

/-- `authorized` says that the origin may write the table. -/
structure ConsensusCall where
  method : Method
  argument : Bytes
  authorized : Bool := true

def call (number : Int) (t : ConsensusTable) (c : ConsensusCall) : Int × ConsensusTable :=
  match c.method with
  | .addSealer => addSealer version number t c.authorized c.argument
  | .addObserver => addObserver version number t c.authorized c.argument
  | .remove => remove version t c.authorized c.argument

/-! ### Blocks of calls -/

structure ConsensusChain where
  number : Int
  table : ConsensusTable

inductive ConsensusInput
  | call (c : ConsensusCall)
  | endOfBlock

def consensusMachine : Machine ConsensusChain ConsensusInput where
  step s
    | .call c => { s with table := (call version s.number s.table c).2 }
    | .endOfBlock => { number := s.number + 1, table := s.table.commit }

end Calls

/-! ### What a call can do -/

def retyped (rows : List Node) (nodeID : Bytes) (type : NodeType) (enableNum : Int) : List Node :=
  rows.map fun r => if r.nodeID = nodeID then { r with type := type, enableNum := enableNum } else r

/-- The rows after a call: as they were, with a row of a new id at the end, with
    the node at a type that keeps a sealer, or without a node that is not last. -/
inductive CallStep (version : Nat) (number : Int) (t : ConsensusTable) (c : ConsensusCall) :
    List Node → Prop
  | refused : CallStep version number t c t.rows
  | inserted (type : NodeType) (hmethod : c.method ≠ .remove)
      (hsize : (to_lower c.argument).length = 128)
      (hnew : ∀ r ∈ t.rows, r.nodeID ≠ to_lower c.argument) :
      CallStep version number t c
        (t.rows ++ [{ nodeID := to_lower c.argument, type := type, enableNum := number + 1 }])
  | updated (type : NodeType) (hmethod : c.method ≠ .remove)
      (hsize : (to_lower c.argument).length = 128)
      (hlast : type = .sealer ∨ checkIsLastSealer version t (to_lower c.argument) = false) :
      CallStep version number t c (retyped t.rows (to_lower c.argument) type (number + 1))
  | removed (hlast : checkIsLastSealer version t (to_lower c.argument) = false) :
      CallStep version number t c (t.rows.filter fun r => r.nodeID ≠ to_lower c.argument)

section Released

variable {version : Nat} (hversion : V2_5_0 ≤ version)
include hversion

theorem mem_selectByID (t : ConsensusTable) (nodeID : Bytes) (r : Node) :
    r ∈ selectByID version t nodeID ↔ r ∈ t.rows ∧ r.nodeID = nodeID := by
  simp [selectByID, t.select_eq hversion]

theorem mem_selectEntriesByNodeType (t : ConsensusTable) (type : NodeType) (r : Node) :
    r ∈ selectEntriesByNodeType version t type ↔ r ∈ t.rows ∧ r.type = type := by
  simp [selectEntriesByNodeType, t.select_eq hversion]

theorem updateNode_rows (t : ConsensusTable) (authorized : Bool) (nodeID : Bytes) (type : NodeType)
    (enableNum : Int) : (updateNode version t authorized nodeID type enableNum).2.rows
      = if authorized then retyped t.rows nodeID type enableNum else t.rows := by
  cases authorized with
  | false => rfl
  | true => simp [updateNode, retyped, t.rows_update hversion]

theorem removeNode_rows (t : ConsensusTable) (authorized : Bool) (nodeID : Bytes) :
    (removeNode version t authorized nodeID).2.rows
      = if authorized then t.rows.filter (fun r => r.nodeID ≠ nodeID) else t.rows := by
  cases authorized with
  | false => rfl
  | true => simp [removeNode, t.rows_remove hversion]

omit hversion in
theorem insertNode_rows (t : ConsensusTable) (authorized : Bool) (r : Node) :
    (insertNode t authorized r).2.rows = if authorized then t.rows ++ [r] else t.rows := by
  cases authorized <;> simp [insertNode]

theorem no_row_of_isEmpty {t : ConsensusTable} {nodeID : Bytes}
    (h : (selectByID version t nodeID).isEmpty = true) : ∀ r ∈ t.rows, r.nodeID ≠ nodeID := by
  intro r hr hid
  have hmem := (mem_selectByID hversion t nodeID r).mpr ⟨hr, hid⟩
  rw [List.isEmpty_iff.mp h] at hmem
  simp at hmem

theorem addNode_step {number : Int} {t : ConsensusTable} {c : ConsensusCall} (type : NodeType)
    (hmethod : c.method ≠ .remove) (hsize : (to_lower c.argument).length = 128)
    (hempty : (selectByID version t (to_lower c.argument)).isEmpty = true) :
    CallStep version number t c (insertNode t c.authorized
      { nodeID := to_lower c.argument, type := type, enableNum := number + 1 }).2.rows := by
  rw [insertNode_rows]
  split
  · exact .inserted type hmethod hsize (no_row_of_isEmpty hversion hempty)
  · exact .refused

theorem updateNode_step {number : Int} {t : ConsensusTable} {c : ConsensusCall} (type : NodeType)
    (hmethod : c.method ≠ .remove) (hsize : (to_lower c.argument).length = 128)
    (hlast : type = .sealer ∨ checkIsLastSealer version t (to_lower c.argument) = false) :
    CallStep version number t c
      (updateNode version t c.authorized (to_lower c.argument) type (number + 1)).2.rows := by
  rw [updateNode_rows hversion]
  split
  · exact .updated type hmethod hsize hlast
  · exact .refused

theorem call_step (number : Int) (t : ConsensusTable) (c : ConsensusCall) :
    CallStep version number t c (call version number t c).2.rows := by
  unfold call
  cases hmethod : c.method with
  | addSealer =>
    simp only [addSealer]
    split
    · exact .refused
    · next hsize =>
      split
      · next hempty => exact addNode_step hversion .sealer (by simp [hmethod]) (not_not.mp hsize) hempty
      · exact updateNode_step hversion .sealer (by simp [hmethod]) (not_not.mp hsize) (.inl rfl)
  | addObserver =>
    simp only [addObserver]
    split
    · exact .refused
    · next hsize =>
      split
      · next hempty => exact addNode_step hversion .observer (by simp [hmethod]) (not_not.mp hsize) hempty
      · split
        · exact .refused
        · next hlast =>
          exact updateNode_step hversion .observer (by simp [hmethod]) (not_not.mp hsize)
            (.inr (by simpa using hlast))
  | remove =>
    simp only [remove]
    split
    · exact .refused
    · split
      · exact .refused
      · next hlast =>
        rw [removeNode_rows hversion]
        split
        · exact .removed (by simpa using hlast)
        · exact .refused

/-! ### A sealer is left -/

theorem exists_other_sealer {t : ConsensusTable} {nodeID : Bytes}
    (hdistinct : (t.rows.map Node.nodeID).Nodup) (hsealer : ∃ r ∈ t.rows, r.isSealer = true)
    (hlast : checkIsLastSealer version t nodeID = false) :
    ∃ r ∈ t.rows, r.isSealer = true ∧ r.nodeID ≠ nodeID := by
  by_contra hnone
  push Not at hnone
  obtain ⟨last, hmem, hseals⟩ := hsealer
  -- every row that seals is this one
  have hid : last.nodeID = nodeID := hnone last hmem hseals
  have hall : ∀ r ∈ t.rows, r.isSealer = true → r.nodeID = last.nodeID := fun r hr h =>
    (hnone r hr h).trans hid.symm
  have honly : ∀ type, last.type = type → type = .sealer ∨ type = .workingSealer →
      selectEntriesByNodeType version t type = [last] := by
    intro type htype hkind
    rw [selectEntriesByNodeType, t.select_eq hversion]
    refine filter_eq_singleton hdistinct hmem (by simp [htype]) fun r hr h => hall r hr ?_
    simpa [Node.isSealer, of_decide_eq_true h] using hkind
  have hother : ∀ type, last.type ≠ type → type = .sealer ∨ type = .workingSealer →
      selectEntriesByNodeType version t type = [] := by
    intro type htype hkind
    rw [List.eq_nil_iff_forall_not_mem]
    intro r hr
    obtain ⟨hrow, hrtype⟩ := (mem_selectEntriesByNodeType hversion t type r).mp hr
    have heq := eq_of_key_eq hdistinct hrow hmem
      (hall r hrow (by simpa [Node.isSealer, hrtype] using hkind))
    exact htype (heq ▸ hrtype)
  have hbyID : selectByID version t nodeID = [last] := by
    rw [selectByID, t.select_eq hversion]
    refine filter_eq_singleton hdistinct hmem (by simp [hid]) fun r hr h => ?_
    exact (of_decide_eq_true h).trans hid.symm
  unfold checkIsLastSealer at hlast
  rcases (by simpa [Node.isSealer] using hseals : last.type = .sealer ∨ last.type = .workingSealer)
    with htype | htype
  · rw [honly .sealer htype (.inl rfl), hother .workingSealer (by simp [htype]) (.inr rfl)] at hlast
    simp [isOnly, hid] at hlast
  · rw [hother .sealer (by simp [htype]) (.inl rfl), hbyID,
      honly .workingSealer htype (.inr rfl)] at hlast
    simp [isOnly, hid, htype] at hlast

structure KeepsSealer (rows : List Node) : Prop where
  someSealer : ∃ r ∈ rows, r.isSealer = true
  distinct : (rows.map Node.nodeID).Nodup

omit hversion in
theorem map_nodeID_retyped (rows : List Node) (nodeID : Bytes) (type : NodeType) (enableNum : Int) :
    (retyped rows nodeID type enableNum).map Node.nodeID = rows.map Node.nodeID := by
  rw [retyped, List.map_map]
  refine List.map_congr_left fun r _ => ?_
  simp only [Function.comp_apply]
  split <;> rfl

omit hversion in
theorem retyped_someSealer {rows : List Node} {nodeID : Bytes} {type : NodeType} {enableNum : Int}
    {r : Node} (hr : r ∈ rows) (hseals : r.isSealer = true) (h : type = .sealer ∨ r.nodeID ≠ nodeID) :
    ∃ r ∈ retyped rows nodeID type enableNum, r.isSealer = true := by
  refine ⟨_, List.mem_map_of_mem hr, ?_⟩
  split
  · next hid =>
    rcases h with rfl | hne
    · rfl
    · exact absurd hid hne
  · exact hseals

theorem KeepsSealer.step {number : Int} {t : ConsensusTable} {c : ConsensusCall} {rows : List Node}
    (hstep : CallStep version number t c rows) (h : KeepsSealer t.rows) : KeepsSealer rows := by
  obtain ⟨r, hr, hseals⟩ := h.someSealer
  cases hstep with
  | refused => exact h
  | inserted type hmethod hsize hnew =>
    refine ⟨⟨r, List.mem_append_left _ hr, hseals⟩, ?_⟩
    rw [List.map_append, List.nodup_append]
    refine ⟨h.distinct, List.nodup_singleton _, ?_⟩
    rintro id hid _ hlast rfl
    obtain ⟨r', hr', rfl⟩ := List.mem_map.mp hid
    exact hnew r' hr' (by simpa using hlast)
  | updated type hmethod hsize hlast =>
    refine ⟨?_, by rw [map_nodeID_retyped]; exact h.distinct⟩
    rcases hlast with htype | hlast
    · exact retyped_someSealer hr hseals (.inl htype)
    · obtain ⟨other, hother, hkind, hne⟩ :=
        exists_other_sealer hversion h.distinct h.someSealer hlast
      exact retyped_someSealer hother hkind (.inr hne)
  | removed hlast =>
    obtain ⟨other, hother, hkind, hne⟩ := exists_other_sealer hversion h.distinct h.someSealer hlast
    exact ⟨⟨other, List.mem_filter.mpr ⟨hother, by simpa using hne⟩, hkind⟩,
      h.distinct.sublist (List.filter_sublist.map _)⟩

end Released

/-! ### The rows that can be read -/

/-- The id is the text of a node, and the number fits an `int`. -/
structure Node.Readable (r : Node) : Prop where
  node : ∃ node : Bytes, node.length = 64 ∧ toHex node = r.nodeID
  number : castInt r.enableNum = some r.enableNum

/-- `getNodeListByType` gives the nodes of the rows of the type in force, and
    no others. -/
def ListsAll (version : Nat) (t : ConsensusTable) : Prop :=
  ∀ (type : NodeType) (blockNumber : Int),
    (getNodeListByType version t blockNumber type).map toHex
      = (t.rows.filter fun r => r.type = type ∧ r.enableNum ≤ blockNumber).map Node.nodeID

theorem listOfType_of_readable (blockNumber : Int) (type : NodeType) {rows : List Node}
    (h : ∀ r ∈ rows, r.Readable) : (listOfType blockNumber type rows).map toHex
      = (rows.filter fun r => r.type = type ∧ r.enableNum ≤ blockNumber).map Node.nodeID := by
  induction rows with
  | nil => rfl
  | cons r rows ih =>
    have ih := ih fun r' hr' => h r' (List.mem_cons_of_mem r hr')
    obtain ⟨⟨node, hlen, hnode⟩, hnumber⟩ := h r List.mem_cons_self
    by_cases htype : r.type = type
    · by_cases hforce : r.enableNum ≤ blockNumber
      · simp [listOfType, htype, hnumber, hforce, ← hnode, fixedHash_toHex hlen, ih]
      · simp [listOfType, htype, hnumber, hforce, ih]
    · simp [listOfType, htype, ih]

/-- An addition has an id of hexadecimal digits and a block below `2 ^ 31 - 1`. -/
def GoodInput (s : ConsensusChain) : ConsensusInput → Prop
  | .call c => c.method ≠ .remove → c.argument.length = 128 →
      c.argument.all (fun d => (Hex.fromHexChar d).isSome) = true ∧ s.number + 1 < 2 ^ 31
  | .endOfBlock => True

theorem Readable.step {version : Nat} {number : Int} {t : ConsensusTable} {c : ConsensusCall}
    {rows : List Node} (hstep : CallStep version number t c rows) (hnumber : 0 ≤ number)
    (hgood : GoodInput ⟨number, t⟩ (.call c)) (h : ∀ r ∈ t.rows, r.Readable) :
    ∀ r ∈ rows, r.Readable := by
  cases hstep with
  | refused => exact h
  | inserted type hmethod hsize hnew =>
    obtain ⟨hhex, hbound⟩ := hgood hmethod (by simpa using hsize)
    intro r hr
    rcases List.mem_append.mp hr with hr | hr
    · exact h r hr
    · obtain rfl := List.mem_singleton.mp hr
      obtain ⟨node, -, hnode⟩ := toHex_fromHex (all_to_lower hhex) (by rw [hsize])
      refine ⟨⟨node, ?_, hnode⟩, ?_⟩
      · have hlen := length_toHex node
        rw [hnode, hsize] at hlen
        omega
      · exact if_pos ⟨by simp only; omega, hbound⟩
  | updated type hmethod hsize hlast =>
    obtain ⟨-, hbound⟩ := hgood hmethod (by simpa using hsize)
    intro r hr
    obtain ⟨old, hold, rfl⟩ := List.mem_map.mp hr
    split
    · exact ⟨(h old hold).node, if_pos ⟨by simp only; omega, hbound⟩⟩
    · exact h old hold
  | removed hlast => exact fun r hr => h r (List.mem_of_mem_filter hr)

/-! ### Runs -/

section Runs

variable {version : Nat} (hversion : V2_5_0 ≤ version)
include hversion

theorem KeepsSealer.machine_step (s : ConsensusChain) (i : ConsensusInput)
    (h : KeepsSealer s.table.rows) :
    KeepsSealer ((consensusMachine version).step s i).table.rows := by
  cases i with
  | call c => exact h.step hversion (call_step hversion s.number s.table c)
  | endOfBlock => simpa [consensusMachine] using h

theorem Readable.machine_step (s : ConsensusChain) (i : ConsensusInput)
    (h : 0 ≤ s.number ∧ ∀ r ∈ s.table.rows, r.Readable) (hgood : GoodInput s i) :
    0 ≤ ((consensusMachine version).step s i).number
      ∧ ∀ r ∈ ((consensusMachine version).step s i).table.rows, r.Readable := by
  cases i with
  | call c => exact ⟨h.1, Readable.step (call_step hversion s.number s.table c) h.1 hgood h.2⟩
  | endOfBlock =>
    refine ⟨?_, by simpa [consensusMachine] using h.2⟩
    have := h.1
    show 0 ≤ s.number + 1
    omega

end Runs

/-! ### Runs on fixed calls -/

def nodeText (b : UInt8) : Bytes := toHex (List.replicate 64 b)

def oneSealer : ConsensusChain where
  number := 0
  table := .ofRows [{ nodeID := nodeText 1, type := .sealer, enableNum := 0 }]

theorem oneSealer_usable :
    KeepsSealer oneSealer.table.rows ∧ ∀ r ∈ oneSealer.table.rows, r.Readable := by
  simp only [oneSealer, SystemTable.rows_ofRows]
  refine ⟨⟨⟨_, List.mem_singleton_self _, rfl⟩, List.nodup_singleton _⟩, fun r hr => ?_⟩
  obtain rfl := List.mem_singleton.mp hr
  exact ⟨⟨List.replicate 64 1, by simp, rfl⟩, rfl⟩

/-- Before 2.5.0 two removals of one block leave no row. -/
example :
    let inputs : List ConsensusInput := [.call ⟨.addSealer, nodeText 2, true⟩, .endOfBlock,
      .call ⟨.remove, nodeText 1, true⟩, .call ⟨.remove, nodeText 2, true⟩]
    ((consensusMachine V2_4_0).run oneSealer inputs).table.rows = [] := by
  decide +kernel

end HieraChain.Precompiled
