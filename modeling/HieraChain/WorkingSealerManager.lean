/-
  HieraChain/WorkingSealerManager.lean
  ====================================
  **Rotation of the working sealers**
  (`libprecompiled/WorkingSealerManagerImpl.cpp`, `getSysteConfigByKey` in
  `libprecompiled/Common.cpp`).

  A call that passes its trigger and its VRF proof moves sealers between the
  types `sealer` and `wSealer`, chosen by a shuffle of the lists in force.  The
  trigger check fills `m_configuredEpochSealersSize` from the table only after
  the notify flag; the constructor leaves the field unset, so that a call under
  the notify flag counts with an indeterminate number, here `unset`.  And a lone
  sealer is taken for a working one.  `rotation_sound_iff` says on which tables
  and for which number of the field a rotation ends as the configuration asks.

  The VRF library answers through `VRFInfo`.  A failed call comes with the
  tables as it leaves them; reads beyond a list are `outOfRange`.
-/
import Mathlib.Data.List.Sort
import HieraChain.ConsensusPrecompiled

namespace HieraChain.Precompiled

open HieraChain.BigEndian HieraChain.Storage HieraChain.Hex

/-! ### Configuration -/

inductive ConfigKey
  | notifyRotate
  | epochSealerNum
  | epochBlockNum
  deriving DecidableEq, Repr

structure ConfigRow where
  value : Bytes
  enableNum : Int
  deriving DecidableEq, Repr

abbrev ConfigTable := ConfigKey → List ConfigRow

/-- The value in force with its number; `("", -1)` where there is none. -/
def getSysteConfigByKey (t : ConfigTable) (key : ConfigKey) (number : Int) : Bytes × Int :=
  match t key with
  | [row] => if row.enableNum ≤ number then (row.value, row.enableNum) else ([], -1)
  | _ => ([], -1)

def setSystemConfigByKey (t : ConfigTable) (key : ConfigKey) (value : Bytes) (enableNum : Int) :
    ConfigTable :=
  fun key' =>
    if key' = key then
      if (t key).isEmpty then [⟨value, enableNum⟩] else (t key).map fun _ => ⟨value, enableNum⟩
    else t key'

structure Tables where
  cons : ConsensusTable
  config : ConfigTable

inductive Failure
  | badLexicalCast
  | divideByZero
  | permissionDenied
  | invalidVRF
  | noRecord
  | outOfRange
  deriving DecidableEq, Repr

structure VRFInfo where
  vrfInput : Bytes
  isValidVRFPublicKey : Bool
  verifyProof : Bool
  hashFromProof : Nat

/-- The call's surroundings: `stateStorage` has the configuration as committed,
    `hashOfIndex` is the hash of the decimal text of an index as a number, and
    `unset` is what the field holds that the constructor leaves out. -/
structure RotationContext where
  version : Nat
  number : Int
  parentHash : Bytes
  origin : Nat
  toAddress : Bytes → Nat
  hashOfIndex : Nat → Nat
  stateStorage : ConfigTable
  unset : Int

section Manager

variable (ctx : RotationContext)

/-! ### The lists in force -/

def pendingSealerList (t : Tables) : List Bytes :=
  getNodeListByType ctx.version t.cons ctx.number .sealer

def workingSealerList (t : Tables) : List Bytes :=
  getNodeListByType ctx.version t.cons ctx.number .workingSealer

def sealersNum (t : Tables) : Nat :=
  (pendingSealerList ctx t).length + (workingSealerList ctx t).length

/-! ### The trigger -/

/-- `boost::lexical_cast<int64_t>`. -/
def castInt64 (value : Bytes) : Except Failure Int :=
  match lexicalCast value with
  | some x => .ok x
  | none => .error .badLexicalCast

/-- Is `m_notifyNextLeaderRotateSetted` set? -/
def notifySetted (t : Tables) : Except Failure Bool :=
  let value := (getSysteConfigByKey t.config .notifyRotate ctx.number).1
  if value = [] then .ok false else (castInt64 value).map fun flag => decide (flag ≠ 0)

/-- The answer of `shouldRotate` with `m_notifyNextLeaderRotateSetted` and
    `m_configuredEpochSealersSize`. -/
structure Trigger where
  rotate : Bool
  notify : Bool
  size : Int
  deriving DecidableEq, Repr

def shouldRotate (t : Tables) : Except Failure Trigger := do
  if ← notifySetted ctx t then
    -- the field is read later on, and not set on this path
    return { rotate := true, notify := true, size := ctx.unset }
  let epochSealersInfo := getSysteConfigByKey t.config .epochSealerNum ctx.number
  let size ← castInt64 epochSealersInfo.1
  if epochSealersInfo.2 = ctx.number then return { rotate := true, notify := false, size := size }
  if ((workingSealerList ctx t).length : Int) < min size (sealersNum ctx t) then
    return { rotate := true, notify := false, size := size }
  let epochBlockInfo := getSysteConfigByKey ctx.stateStorage .epochBlockNum ctx.number
  let epochBlockNum ← castInt64 epochBlockInfo.1
  if epochBlockNum = 0 then throw .divideByZero
  return {
    rotate := (ctx.number - epochBlockInfo.2).tmod epochBlockNum = 0
    notify := false
    size := size }

/-! ### The proof -/

/-- `h256(fromHex(text))`; a text that is not hexadecimal gives no bytes. -/
def hashOfText (text : Bytes) : Bytes := (fixedHash 32 text).getD (List.replicate 32 0)

def checkPermission (allowed : List Bytes) : Bool :=
  allowed.any fun node => ctx.toAddress node = ctx.origin

def checkVRFInfos (vrf : VRFInfo) (t : Tables) : Except Failure Unit :=
  if hashOfText vrf.vrfInput ≠ ctx.parentHash then .error .invalidVRF
  else if !vrf.isValidVRFPublicKey then .error .invalidVRF
  else if !vrf.verifyProof then .error .invalidVRF
  else if !(workingSealerList ctx t).isEmpty && !checkPermission ctx (workingSealerList ctx t) then
    .error .permissionDenied
  else .ok ()

/-! ### Choosing nodes -/

/-- `std::swap(l[i], l[j])`; `none` beyond the end. -/
def swap (l : List Bytes) (i j : Nat) : Option (List Bytes) := do
  let a ← l[i]?
  let b ← l[j]?
  some ((l.set i b).set j a)

/-- The loop from `i` down to one. -/
def shuffle : Nat → Nat → List Bytes → Option (List Bytes)
  | 0, _, l => some l
  | i + 1, proofHashValue, l => do
    let selectedIdx := proofHashValue % (i + 2)
    let swapped ← swap l (i + 1) selectedIdx
    shuffle i (ctx.hashOfIndex selectedIdx) swapped

/-- The first `selectedNode` nodes of the shuffled list; `none` when an index is
    beyond a list. -/
def selectNodesFromList (proofHash : Nat) (nodeList : List Bytes) (selectedNode : Int) :
    Option (List Bytes) := do
  let sorted := nodeList.insertionSort (· ≤ ·)
  let shuffled ← shuffle ctx (nodeList.length - 1) proofHash sorted
  if selectedNode ≤ shuffled.length then some (shuffled.take selectedNode.toNat) else none

def calNodeRotatingInfo (size : Int) (t : Tables) : Int × Int :=
  let sealersNum : Int := sealersNum ctx t
  let epochSize := min size sealersNum
  let workingSealersNum : Int := (workingSealerList ctx t).length
  if epochSize < workingSealersNum then (workingSealersNum - epochSize, 0)
  else if workingSealersNum < epochSize then (0, epochSize - workingSealersNum)
  else if sealersNum = workingSealersNum then (0, 0)
  else (1, 1)

/-! ### Changing types -/

abbrev Outcome := Except (Failure × Tables) Tables

def UpdateNodeType (type : NodeType) (t : Tables) (node : Bytes) : Outcome :=
  if (selectByID ctx.version t.cons (toHex node)).isEmpty then .error (.noRecord, t)
  else
    .ok { t with cons := (updateNode ctx.version t.cons true (toHex node) type (ctx.number + 1)).2 }

/-- Choose nodes of the list, when there are any to choose, and give them the type. -/
def moveNodes (proofHash : Nat) (nodeList : List Bytes) (selectedNode : Int) (type : NodeType)
    (t : Tables) : Outcome :=
  if 0 < selectedNode then
    match selectNodesFromList ctx proofHash nodeList selectedNode with
    | none => .error (.outOfRange, t)
    | some nodes => nodes.foldlM (UpdateNodeType ctx type) t
  else .ok t

def tryToResetNotifyNextLeaderFlag (trigger : Trigger) (t : Tables) : Tables :=
  if trigger.notify then
    { t with config := setSystemConfigByKey t.config .notifyRotate (ascii ['0']) (ctx.number + 1) }
  else t

/-- `notifyNextLeaderRotate`: what a failed proof leaves. -/
def notifyNextLeader (t : Tables) : Tables :=
  { t with config := setSystemConfigByKey t.config .notifyRotate (ascii ['1']) (ctx.number + 1) }

def rotateWorkingSealer (vrf : VRFInfo) (t : Tables) : Outcome :=
  match shouldRotate ctx t with
  | .error e => .error (e, t)
  | .ok trigger =>
    if !trigger.rotate then .ok t
    else
      match checkVRFInfos ctx vrf t with
      | .error e => .error (e, notifyNextLeader ctx t)
      | .ok _ =>
        let reset := tryToResetNotifyNextLeaderFlag ctx trigger t
        let pending := pendingSealerList ctx t
        let working := workingSealerList ctx t
        if sealersNum ctx t ≤ 1 ∨ (trigger.size = sealersNum ctx t ∧ pending.length = 0) then .ok reset
        else
          let rotating := calNodeRotatingInfo ctx trigger.size t
          match moveNodes ctx vrf.hashFromProof working rotating.1 .sealer reset with
          | .error e => .error e
          | .ok removed => moveNodes ctx vrf.hashFromProof pending rotating.2 .workingSealer removed

/-! ### What is chosen -/

theorem swap_perm {l : List Bytes} {i j : Nat} (hi : i < l.length) (hj : j < l.length) :
    ∃ l', swap l i j = some l' ∧ l'.Perm l := by
  refine ⟨(l.set i l[j]).set j l[i], ?_, List.set_set_perm hi hj⟩
  simp [swap, List.getElem?_eq_getElem hi, List.getElem?_eq_getElem hj]

theorem shuffle_perm (i proofHashValue : Nat) {l : List Bytes} (hi : i < l.length ∨ i = 0) :
    ∃ l', shuffle ctx i proofHashValue l = some l' ∧ l'.Perm l := by
  induction i generalizing proofHashValue l with
  | zero => exact ⟨l, rfl, List.Perm.refl l⟩
  | succ i ih =>
    have hlt : i + 1 < l.length := by simpa using hi
    have hidx : proofHashValue % (i + 2) < l.length := by
      have := Nat.mod_lt proofHashValue (show 0 < i + 2 by omega)
      omega
    obtain ⟨swapped, hswap, hperm⟩ := swap_perm hlt hidx
    obtain ⟨shuffled, hshuffle, hperm'⟩ := ih (ctx.hashOfIndex (proofHashValue % (i + 2)))
      (l := swapped) (.inl (by rw [hperm.length_eq]; omega))
    exact ⟨shuffled, by simp [shuffle, hswap, hshuffle], hperm'.trans hperm⟩

theorem selectNodesFromList_some (proofHash : Nat) {nodeList : List Bytes} {n : Nat}
    (h : n ≤ nodeList.length) (hnodup : nodeList.Nodup) :
    ∃ nodes, selectNodesFromList ctx proofHash nodeList n = some nodes ∧ nodes.length = n
      ∧ nodes.Nodup ∧ ∀ node ∈ nodes, node ∈ nodeList := by
  have hsort := List.perm_insertionSort (· ≤ ·) nodeList
  obtain ⟨shuffled, hshuffle, hperm⟩ := shuffle_perm ctx (nodeList.length - 1) proofHash
    (l := nodeList.insertionSort (· ≤ ·)) (by rw [hsort.length_eq]; omega)
  have hall := hperm.trans hsort
  refine ⟨shuffled.take n, ?_, ?_, ?_, ?_⟩
  · have hlen : (n : Int) ≤ shuffled.length := by
      rw [hall.length_eq]
      exact_mod_cast h
    simp [selectNodesFromList, hshuffle, Int.ofNat_le.mp hlen]
  · rw [List.length_take, hall.length_eq]
    omega
  · exact (hall.nodup_iff.mpr hnodup).sublist (List.take_sublist n shuffled)
  · exact fun node hnode => hall.mem_iff.mp (List.mem_of_mem_take hnode)

theorem selectNodesFromList_none (proofHash : Nat) {nodeList : List Bytes} {n : Int}
    (h : (nodeList.length : Int) < n) : selectNodesFromList ctx proofHash nodeList n = none := by
  have hsort := List.perm_insertionSort (· ≤ ·) nodeList
  obtain ⟨shuffled, hshuffle, hperm⟩ := shuffle_perm ctx (nodeList.length - 1) proofHash
    (l := nodeList.insertionSort (· ≤ ·)) (by rw [hsort.length_eq]; omega)
  have hlen : ¬ n ≤ shuffled.length := by
    rw [(hperm.trans hsort).length_eq]
    omega
  simp [selectNodesFromList, hshuffle, hlen]

/-! ### The rows after the moves -/

def retypedAll (rows : List Node) (nodes : List Bytes) (type : NodeType) (enableNum : Int) :
    List Node :=
  rows.map fun r =>
    if r.nodeID ∈ nodes.map toHex then { r with type := type, enableNum := enableNum } else r

theorem retypedAll_cons (rows : List Node) (node : Bytes) (nodes : List Bytes) (type : NodeType)
    (enableNum : Int) : retypedAll (retyped rows (toHex node) type enableNum) nodes type enableNum
      = retypedAll rows (node :: nodes) type enableNum := by
  rw [retypedAll, retyped, List.map_map]
  refine List.map_congr_left fun r _ => ?_
  simp only [Function.comp_apply, List.map_cons, List.mem_cons]
  by_cases hhead : r.nodeID = toHex node <;> by_cases htail : r.nodeID ∈ nodes.map toHex <;>
    simp only [hhead, htail, if_true, if_false, true_or, or_true, or_false, ite_self]

@[simp] theorem retypedAll_nil (rows : List Node) (type : NodeType) (enableNum : Int) :
    retypedAll rows [] type enableNum = rows := by
  simp [retypedAll]

theorem map_nodeID_retypedAll (rows : List Node) (nodes : List Bytes) (type : NodeType)
    (enableNum : Int) : (retypedAll rows nodes type enableNum).map Node.nodeID = rows.map Node.nodeID := by
  rw [retypedAll, List.map_map]
  refine List.map_congr_left fun r _ => ?_
  simp only [Function.comp_apply]
  split <;> rfl

variable {ctx} (hversion : V2_5_0 ≤ ctx.version)
include hversion

theorem updateAll (type : NodeType) (nodes : List Bytes) {t : Tables}
    (hall : ∀ node ∈ nodes, toHex node ∈ t.cons.rows.map Node.nodeID) :
    ∃ t', nodes.foldlM (UpdateNodeType ctx type) t = .ok t'
      ∧ t'.cons.rows = retypedAll t.cons.rows nodes type (ctx.number + 1) := by
  induction nodes generalizing t with
  | nil => exact ⟨t, rfl, by simp⟩
  | cons node nodes ih =>
    obtain ⟨r, hr, hid⟩ := List.mem_map.mp (hall node List.mem_cons_self)
    have hfound : (selectByID ctx.version t.cons (toHex node)).isEmpty = false := by
      cases hempty : (selectByID ctx.version t.cons (toHex node)).isEmpty with
      | false => rfl
      | true => exact absurd hid (no_row_of_isEmpty hversion hempty r hr)
    have hrows := updateNode_rows hversion t.cons true (toHex node) type (ctx.number + 1)
    obtain ⟨t', hfold, hrows'⟩ := ih
      (t := { t with cons := (updateNode ctx.version t.cons true (toHex node) type (ctx.number + 1)).2 })
      (by
        intro node' hnode'
        rw [hrows, if_pos rfl, map_nodeID_retyped]
        exact hall node' (List.mem_cons_of_mem node hnode'))
    refine ⟨t', ?_, ?_⟩
    · rw [List.foldlM_cons, UpdateNodeType, hfound]
      exact hfold
    · rw [hrows', hrows, if_pos rfl, retypedAll_cons]

theorem moveNodes_ok (proofHash : Nat) {nodeList : List Bytes} {n : Nat} (type : NodeType) {t : Tables}
    (h : n ≤ nodeList.length) (hnodup : nodeList.Nodup)
    (hall : ∀ node ∈ nodeList, toHex node ∈ t.cons.rows.map Node.nodeID) :
    ∃ nodes t', moveNodes ctx proofHash nodeList n type t = .ok t'
      ∧ t'.cons.rows = retypedAll t.cons.rows nodes type (ctx.number + 1)
      ∧ nodes.length = n ∧ nodes.Nodup ∧ ∀ node ∈ nodes, node ∈ nodeList := by
  rcases Nat.eq_zero_or_pos n with rfl | hpos
  · exact ⟨[], t, by simp [moveNodes], by simp, rfl, List.nodup_nil, by simp⟩
  · obtain ⟨nodes, hselect, hlen, hnodes, hsub⟩ := selectNodesFromList_some ctx proofHash h hnodup
    obtain ⟨t', hfold, hrows⟩ := updateAll hversion type nodes fun node hnode => hall node (hsub node hnode)
    refine ⟨nodes, t', ?_, hrows, hlen, hnodes, hsub⟩
    rw [moveNodes, if_pos (by exact_mod_cast hpos), hselect]
    exact hfold

omit hversion in
theorem moveNodes_outOfRange (proofHash : Nat) {nodeList : List Bytes} {n : Int} (type : NodeType)
    (t : Tables) (h : (nodeList.length : Int) < n) :
    moveNodes ctx proofHash nodeList n type t = .error (.outOfRange, t) := by
  rw [moveNodes, if_pos (by omega), selectNodesFromList_none ctx proofHash h]

/-! ### Rows turned out and in -/

/-- A row before and after: as it was, a working sealer in force that is now a
    sealer, or a sealer in force that now works. -/
inductive Turned (number : Int) : Node → Node → Prop
  | same (r : Node) : Turned number r r
  | out (r : Node) (htype : r.type = .workingSealer) (hforce : r.enableNum ≤ number) :
      Turned number r { r with type := .sealer, enableNum := number + 1 }
  | into (r : Node) (htype : r.type = .sealer) (hforce : r.enableNum ≤ number) :
      Turned number r { r with type := .workingSealer, enableNum := number + 1 }

def InForce (number : Int) (rows : List Node) (type : NodeType) (nodes : List Bytes) : Prop :=
  ∀ node ∈ nodes, ∃ r ∈ rows, r.nodeID = toHex node ∧ r.type = type ∧ r.enableNum ≤ number

def Node.works (r : Node) : Bool := r.type = .workingSealer

def Node.seals (number : Int) (r : Node) : Bool := r.isSealer ∧ r.enableNum ≤ number

def turn (number : Int) (out into : List Bytes) (r : Node) : Node :=
  if r.nodeID ∈ into.map toHex then { r with type := .workingSealer, enableNum := number + 1 }
  else if r.nodeID ∈ out.map toHex then { r with type := .sealer, enableNum := number + 1 }
  else r

omit hversion in
@[simp] theorem nodeID_turn (number : Int) (out into : List Bytes) (r : Node) :
    (turn number out into r).nodeID = r.nodeID := by
  unfold turn
  split
  · rfl
  · split <;> rfl

omit hversion in
@[simp] theorem map_turn_nil (rows : List Node) (number : Int) : rows.map (turn number [] []) = rows := by
  have hid : turn number [] [] = id := by
    funext r
    simp [turn]
  rw [hid, List.map_id]

omit hversion in
theorem retypedAll_twice (rows : List Node) (number : Int) (out into : List Bytes) :
    retypedAll (retypedAll rows out .sealer (number + 1)) into .workingSealer (number + 1)
      = rows.map (turn number out into) := by
  rw [retypedAll, retypedAll, List.map_map]
  refine List.map_congr_left fun r _ => ?_
  simp only [Function.comp_apply, turn]
  by_cases hout : r.nodeID ∈ out.map toHex <;> by_cases hinto : r.nodeID ∈ into.map toHex <;>
    simp only [hout, hinto, if_true, if_false]

section Turn

variable {number : Int} {rows : List Node} {out into : List Bytes}
  (hdistinct : (rows.map Node.nodeID).Nodup)
  (hout : InForce number rows .workingSealer out) (hinto : InForce number rows .sealer into)
omit hversion
include hdistinct

theorem InForce.row {type : NodeType} {nodes : List Bytes} (h : InForce number rows type nodes)
    {r : Node} (hr : r ∈ rows) (hid : r.nodeID ∈ nodes.map toHex) :
    r.type = type ∧ r.enableNum ≤ number := by
  obtain ⟨node, hnode, heq⟩ := List.mem_map.mp hid
  obtain ⟨r', hr', hid', htype⟩ := h node hnode
  obtain rfl := eq_of_key_eq hdistinct hr hr' (heq.symm.trans hid'.symm)
  exact htype

include hout hinto

theorem turned_turn {r : Node} (hr : r ∈ rows) : Turned number r (turn number out into r) := by
  unfold turn
  split
  · next hid =>
    obtain ⟨htype, hforce⟩ := hinto.row hdistinct hr hid
    exact .into r htype hforce
  · split
    · next hid =>
      obtain ⟨htype, hforce⟩ := hout.row hdistinct hr hid
      exact .out r htype hforce
    · exact .same r

theorem countP_turn (hnodup : out.Nodup) (hnodup' : into.Nodup) :
    ((rows.filter (Node.seals number)).map (turn number out into)).countP Node.works + out.length
      = (rows.filter (Node.seals number)).countP Node.works + into.length := by
  have hsub : ∀ {type : NodeType} {nodes : List Bytes}, InForce number rows type nodes →
      type = .sealer ∨ type = .workingSealer → ∀ k ∈ nodes.map toHex,
      k ∈ (rows.filter (Node.seals number)).map Node.nodeID := by
    intro type nodes h htype k hk
    obtain ⟨node, hnode, rfl⟩ := List.mem_map.mp hk
    obtain ⟨r, hr, hid, hrtype, hforce⟩ := h node hnode
    refine List.mem_map.mpr ⟨r, List.mem_filter.mpr ⟨hr, ?_⟩, hid⟩
    rcases htype with rfl | rfl <;> simp [Node.seals, Node.isSealer, hrtype, hforce]
  have hkeys : ((rows.filter (Node.seals number)).map Node.nodeID).Nodup :=
    hdistinct.sublist (List.filter_sublist.map _)
  have hlenOut := countP_mem_keys hkeys (hnodup.map fun _ _ => toHex_injective) (hsub hout (.inr rfl))
  have hlenInto := countP_mem_keys hkeys (hnodup'.map fun _ _ => toHex_injective) (hsub hinto (.inl rfl))
  rw [List.length_map] at hlenOut hlenInto
  rw [← hlenOut, ← hlenInto, List.countP_map]
  refine countP_add_congr fun r hr => ?_
  have hr := List.mem_of_mem_filter hr
  by_cases hin : r.nodeID ∈ into.map toHex
  · obtain ⟨htype, -⟩ := hinto.row hdistinct hr hin
    have hnot : r.nodeID ∉ out.map toHex := fun h => by
      have := (hout.row hdistinct hr h).1
      simp [htype] at this
    simp [turn, Node.works, hin, hnot, htype]
  · by_cases hleft : r.nodeID ∈ out.map toHex
    · obtain ⟨htype, -⟩ := hout.row hdistinct hr hleft
      simp [turn, Node.works, hin, hleft, htype]
    · simp [turn, hin, hleft]

theorem countP_works_turn : (rows.map (turn number out into)).countP Node.works
    = ((rows.filter (Node.seals number)).map (turn number out into)).countP Node.works
      + rows.countP fun r => r.works ∧ number < r.enableNum := by
  rw [List.countP_map, List.countP_map,
    List.countP_eq_countP_filter_add rows _ (Node.seals number)]
  congr 1
  rw [List.countP_filter]
  refine List.countP_congr fun r hr => ?_
  by_cases hin : r.nodeID ∈ into.map toHex
  · obtain ⟨htype, hforce⟩ := hinto.row hdistinct hr hin
    simp [Node.works, Node.seals, Node.isSealer, htype, hforce]
  · by_cases hleft : r.nodeID ∈ out.map toHex
    · obtain ⟨htype, hforce⟩ := hout.row hdistinct hr hleft
      simp [Node.works, Node.seals, Node.isSealer, htype, hforce]
    · simp only [Function.comp_apply, turn, hin, hleft, if_false]
      cases htype : r.type <;> simp [Node.works, Node.seals, Node.isSealer, htype]

end Turn

omit hversion in
theorem Turned.sealers {number : Int} {rows rows' : List Node}
    (h : List.Forall₂ (Turned number) rows rows') :
    (rows'.filter Node.isSealer).map Node.nodeID = (rows.filter Node.isSealer).map Node.nodeID := by
  induction h with
  | nil => rfl
  | @cons r r' rows rows' hr _ ih =>
    have hsame : r'.nodeID = r.nodeID ∧ r'.isSealer = r.isSealer := by
      cases hr with
      | same => exact ⟨rfl, rfl⟩
      | out htype => simp [Node.isSealer, htype]
      | into htype => simp [Node.isSealer, htype]
    simp only [List.filter_cons, hsame.2]
    split <;> simp [hsame.1, ih]

/-! ### The lists of a table that can be read -/

section Lists

variable {t : Tables} (hdistinct : (t.cons.rows.map Node.nodeID).Nodup)
  (hread : ∀ r ∈ t.cons.rows, r.Readable) (type : NodeType)
include hread

theorem map_toHex_list : (getNodeListByType ctx.version t.cons ctx.number type).map toHex
    = (t.cons.rows.filter fun r => r.type = type ∧ r.enableNum ≤ ctx.number).map Node.nodeID := by
  rw [getNodeListByType, SystemTable.select_eq hversion, List.filter_true]
  exact listOfType_of_readable ctx.number type hread

theorem inForce_list : InForce ctx.number t.cons.rows type
    (getNodeListByType ctx.version t.cons ctx.number type) := by
  intro node hnode
  have hmem := List.mem_map_of_mem (f := toHex) hnode
  rw [map_toHex_list hversion hread, List.mem_map] at hmem
  obtain ⟨r, hr, hid⟩ := hmem
  rw [List.mem_filter, decide_eq_true_iff] at hr
  exact ⟨r, hr.1, hid, hr.2⟩

theorem length_workingSealerList : (workingSealerList ctx t).length
    = (t.cons.rows.filter (Node.seals ctx.number)).countP Node.works := by
  rw [workingSealerList, ← List.length_map toHex, map_toHex_list hversion hread, List.length_map,
    ← List.countP_eq_length_filter, List.countP_filter]
  refine List.countP_congr fun r _ => ?_
  cases htype : r.type <;> simp [Node.works, Node.seals, Node.isSealer, htype]

include hdistinct

theorem nodup_list : (getNodeListByType ctx.version t.cons ctx.number type).Nodup := by
  have hmap : ((getNodeListByType ctx.version t.cons ctx.number type).map toHex).Nodup := by
    rw [map_toHex_list hversion hread]
    exact hdistinct.sublist (List.filter_sublist.map _)
  exact hmap.of_map

end Lists

/-! ### What a rotation promises -/

variable (ctx) in
def waiting (t : Tables) : Nat := t.cons.rows.countP fun r => r.works ∧ ctx.number < r.enableNum

omit hversion in
variable (ctx) in
/-- The sealers stay; rows change from the right lists only; working sealers
    leave working ones among the sealers in force; and those that work are as
    many as the configuration asks. -/
structure RotatedWell (e : Int) (t t' : Tables) : Prop where
  sealers : (t'.cons.rows.filter Node.isSealer).map Node.nodeID
    = (t.cons.rows.filter Node.isSealer).map Node.nodeID
  lists : List.Forall₂ (Turned ctx.number) t.cons.rows t'.cons.rows
  kept : workingSealerList ctx t ≠ [] → ∃ node ∈ pendingSealerList ctx t ++ workingSealerList ctx t,
    ∃ r ∈ t'.cons.rows, r.nodeID = toHex node ∧ r.type = .workingSealer
  size : (t'.cons.rows.countP Node.works : Int) = min e (sealersNum ctx t)

section Moved

variable {t t' : Tables}
  (hdistinct : (t.cons.rows.map Node.nodeID).Nodup) (hread : ∀ r ∈ t.cons.rows, r.Readable)
include hdistinct hread

theorem mem_lists_iff {r : Node} (hr : r ∈ t.cons.rows) : r.seals ctx.number = true
    ↔ ∃ node ∈ pendingSealerList ctx t ++ workingSealerList ctx t, r.nodeID = toHex node := by
  constructor
  · intro hseals
    have hlist : ∀ type, r.type = type → r.enableNum ≤ ctx.number →
        ∃ node ∈ getNodeListByType ctx.version t.cons ctx.number type, r.nodeID = toHex node := by
      intro type htype hforce
      have hmem : r.nodeID ∈ (getNodeListByType ctx.version t.cons ctx.number type).map toHex := by
        rw [map_toHex_list hversion hread]
        exact List.mem_map_of_mem (List.mem_filter.mpr ⟨hr, by simp [htype, hforce]⟩)
      obtain ⟨node, hnode, hid⟩ := List.mem_map.mp hmem
      exact ⟨node, hnode, hid.symm⟩
    obtain ⟨hkind, hforce⟩ := of_decide_eq_true hseals
    rcases of_decide_eq_true hkind with htype | htype
    · obtain ⟨node, hnode, hid⟩ := hlist .sealer htype hforce
      exact ⟨node, List.mem_append_left _ hnode, hid⟩
    · obtain ⟨node, hnode, hid⟩ := hlist .workingSealer htype hforce
      exact ⟨node, List.mem_append_right _ hnode, hid⟩
  · rintro ⟨node, hnode, hid⟩
    rcases List.mem_append.mp hnode with hnode | hnode
    · obtain ⟨htype, hforce⟩ := (inForce_list hversion hread .sealer).row hdistinct hr
        (hid ▸ List.mem_map_of_mem hnode)
      simp [Node.seals, Node.isSealer, htype, hforce]
    · obtain ⟨htype, hforce⟩ := (inForce_list hversion hread .workingSealer).row hdistinct hr
        (hid ▸ List.mem_map_of_mem hnode)
      simp [Node.seals, Node.isSealer, htype, hforce]

/-- Moving nodes out of the working list and into it keeps the promise when
    those that work then are some and are as many as asked. -/
theorem rotatedWell_iff (out into : List Bytes) (k : Nat) {e : Int}
    (hrows : t'.cons.rows = t.cons.rows.map (turn ctx.number out into))
    (hout : InForce ctx.number t.cons.rows .workingSealer out)
    (hinto : InForce ctx.number t.cons.rows .sealer into) (hnodup : out.Nodup) (hnodup' : into.Nodup)
    (hk : (workingSealerList ctx t).length + into.length = k + out.length) :
    RotatedWell ctx e t t' ↔
      (workingSealerList ctx t ≠ [] → k ≠ 0) ∧ (k + waiting ctx t : Int) = min e (sealersNum ctx t) := by
  have hcount : ((t.cons.rows.filter (Node.seals ctx.number)).map
      (turn ctx.number out into)).countP Node.works = k := by
    have h := countP_turn hdistinct hout hinto hnodup hnodup'
    rw [← length_workingSealerList hversion hread] at h
    omega
  have hall : t'.cons.rows.countP Node.works = k + waiting ctx t := by
    rw [hrows, countP_works_turn hdistinct hout hinto, hcount]
    rfl
  have hturned : List.Forall₂ (Turned ctx.number) t.cons.rows t'.cons.rows := by
    rw [hrows, List.forall₂_map_right_iff, List.forall₂_same]
    exact fun r hr => turned_turn hdistinct hout hinto hr
  -- a sealer in force works afterwards exactly when the count is not zero
  have hkept : (∃ node ∈ pendingSealerList ctx t ++ workingSealerList ctx t,
      ∃ r ∈ t'.cons.rows, r.nodeID = toHex node ∧ r.type = .workingSealer) ↔ k ≠ 0 := by
    rw [← Nat.pos_iff_ne_zero, ← hcount, List.countP_pos_iff]
    constructor
    · rintro ⟨node, hnode, r', hr', hid, htype⟩
      rw [hrows] at hr'
      obtain ⟨r, hr, rfl⟩ := List.mem_map.mp hr'
      rw [nodeID_turn] at hid
      have hseals := (mem_lists_iff hversion hdistinct hread hr).mpr ⟨node, hnode, hid⟩
      exact ⟨_, List.mem_map_of_mem (List.mem_filter.mpr ⟨hr, hseals⟩), by simpa [Node.works] using htype⟩
    · rintro ⟨r', hr', hworks⟩
      obtain ⟨r, hr, rfl⟩ := List.mem_map.mp hr'
      obtain ⟨hr, hseals⟩ := List.mem_filter.mp hr
      obtain ⟨node, hnode, hid⟩ := (mem_lists_iff hversion hdistinct hread hr).mp hseals
      exact ⟨node, hnode, _, hrows ▸ List.mem_map_of_mem hr, (nodeID_turn ..).trans hid,
        by simpa [Node.works] using hworks⟩
  constructor
  · intro h
    refine ⟨fun hsome => hkept.mp (h.kept hsome), ?_⟩
    rw [← h.size, hall]
    push_cast
    rfl
  · rintro ⟨hsome, hsize⟩
    refine ⟨Turned.sealers hturned, hturned, fun h => hkept.mpr (hsome h), ?_⟩
    rw [hall, ← hsize]
    push_cast
    rfl

end Moved

/-! ### When a call rotates well -/

omit hversion

variable (ctx) in
/-- What `m_configuredEpochSealersSize` holds when the numbers are calculated. -/
def configuredSize (t : Tables) (e : Int) : Int :=
  match notifySetted ctx t with
  | .ok true => ctx.unset
  | _ => e

variable (ctx) in
def Sound (e : Int) (t : Tables) (o : Outcome) : Prop :=
  (∀ t', o = .ok t' → RotatedWell ctx e t t') ∧ ∀ t', o ≠ .error (.outOfRange, t')

variable (ctx) in
/-- The number in use is positive and asks for what the configuration asks for;
    where the call leaves the rows as they are, they are so already. -/
def Fits (e : Int) (rotate : Bool) (t : Tables) : Prop :=
  if rotate = true ∧ 2 ≤ sealersNum ctx t then
    1 ≤ configuredSize ctx t e
      ∧ min (configuredSize ctx t e) (sealersNum ctx t) + waiting ctx t = min e (sealersNum ctx t)
  else ((workingSealerList ctx t).length + waiting ctx t : Int) = min e (sealersNum ctx t)

theorem trigger_size {t : Tables} {trigger : Trigger} {e : Int}
    (hshould : shouldRotate ctx t = .ok trigger)
    (hepoch : castInt64 (getSysteConfigByKey t.config .epochSealerNum ctx.number).1 = .ok e) :
    trigger.size = configuredSize ctx t e := by
  unfold shouldRotate at hshould
  unfold configuredSize
  cases hnotify : notifySetted ctx t with
  | error f => simp [hnotify, bind, Except.bind] at hshould
  | ok setted =>
    cases setted with
    | true =>
      simp only [hnotify, bind, Except.bind, if_true] at hshould
      cases hshould
      rfl
    | false =>
      simp only [hnotify, bind, Except.bind, hepoch, Bool.false_eq_true, if_false] at hshould
      split at hshould
      · cases hshould; rfl
      · split at hshould
        · cases hshould; rfl
        · split at hshould
          · cases hshould
          · split at hshould
            · cases hshould
            · cases hshould; rfl

variable (ctx) in
/-- With a positive number the nodes to remove and to insert are in the lists,
    and as many work afterwards as the number and the sealers allow. -/
theorem calNodeRotatingInfo_pos {t : Tables} {size : Int} (hsize : 1 ≤ size) :
    ∃ removed inserted : Nat, calNodeRotatingInfo ctx size t = ((removed : Int), (inserted : Int))
      ∧ removed ≤ (workingSealerList ctx t).length ∧ inserted ≤ (pendingSealerList ctx t).length
      ∧ ((workingSealerList ctx t).length + inserted : Int) = min size (sealersNum ctx t) + removed := by
  have hsum : sealersNum ctx t
      = (pendingSealerList ctx t).length + (workingSealerList ctx t).length := rfl
  unfold calNodeRotatingInfo
  generalize sealersNum ctx t = sealers at *
  generalize (workingSealerList ctx t).length = working at *
  generalize (pendingSealerList ctx t).length = pending at *
  simp only
  split
  · exact ⟨(working - min size sealers).toNat, 0, by simp; omega, by omega, by omega, by omega⟩
  · split
    · exact ⟨0, (min size sealers - working).toNat, by simp; omega, by omega, by omega, by omega⟩
    · split
      · exact ⟨0, 0, by simp, by omega, by omega, by omega⟩
      · exact ⟨1, 1, by simp, by omega, by omega, by omega⟩

variable (ctx) in
theorem calNodeRotatingInfo_nonpos {t : Tables} {size : Int} (hsize : size < 1)
    (hsealers : 2 ≤ sealersNum ctx t) :
    ((workingSealerList ctx t).length : Int) < (calNodeRotatingInfo ctx size t).1
      ∨ workingSealerList ctx t ≠ []
        ∧ calNodeRotatingInfo ctx size t = (((workingSealerList ctx t).length : Int), 0) := by
  unfold calNodeRotatingInfo
  rw [← List.length_pos_iff]
  generalize sealersNum ctx t = sealers at *
  generalize (workingSealerList ctx t).length = working at *
  simp only
  split
  · rcases eq_or_ne size 0 with rfl | hne
    · exact .inr ⟨by omega, by simp⟩
    · exact .inl (by simp only; omega)
  · split
    · omega
    · split
      · omega
      · exact .inl (by simp only; omega)

theorem sound_ok {e : Int} {t t' : Tables} : Sound ctx e t (.ok t') ↔ RotatedWell ctx e t t' := by
  simp [Sound]

section Rotation

variable (hversion : V2_5_0 ≤ ctx.version) {t t' : Tables} {e : Int}
  (hdistinct : (t.cons.rows.map Node.nodeID).Nodup) (hread : ∀ r ∈ t.cons.rows, r.Readable)
include hversion hdistinct hread

theorem sound_unchanged (hrows : t'.cons = t.cons) : Sound ctx e t (.ok t')
    ↔ ((workingSealerList ctx t).length + waiting ctx t : Int) = min e (sealersNum ctx t) := by
  rw [sound_ok, rotatedWell_iff hversion hdistinct hread [] []
    (workingSealerList ctx t).length]
  · simp
  · simp [hrows]
  all_goals simp [InForce]

theorem sound_moved {vrf : VRFInfo} {size : Int} (hsize : 1 ≤ size) (hcons : t'.cons = t.cons) :
    Sound ctx e t (match moveNodes ctx vrf.hashFromProof (workingSealerList ctx t)
        (calNodeRotatingInfo ctx size t).1 .sealer t' with
      | .error f => .error f
      | .ok removed => moveNodes ctx vrf.hashFromProof (pendingSealerList ctx t)
          (calNodeRotatingInfo ctx size t).2 .workingSealer removed)
    ↔ (min size (sealersNum ctx t) + waiting ctx t : Int) = min e (sealersNum ctx t) := by
  obtain ⟨removed, inserted, hcal, hremoved, hinserted, hsum⟩ := calNodeRotatingInfo_pos ctx
    (t := t) hsize
  have hlisted : ∀ type, ∀ node ∈ getNodeListByType ctx.version t.cons ctx.number type,
      toHex node ∈ t.cons.rows.map Node.nodeID := by
    intro type node hnode
    obtain ⟨r, hr, hid, -⟩ := inForce_list hversion hread type node hnode
    exact hid ▸ List.mem_map_of_mem hr
  obtain ⟨out, t₁, hout, hrows₁, hlen₁, hnodup₁, hsub₁⟩ := moveNodes_ok hversion vrf.hashFromProof
    .sealer (t := t') hremoved (nodup_list hversion hdistinct hread .workingSealer)
    (by rw [hcons]; exact hlisted .workingSealer)
  obtain ⟨into, t₂, hinto, hrows₂, hlen₂, hnodup₂, hsub₂⟩ := moveNodes_ok hversion vrf.hashFromProof
    .workingSealer (t := t₁) hinserted (nodup_list hversion hdistinct hread .sealer)
    (by rw [hrows₁, map_nodeID_retypedAll, hcons]; exact hlisted .sealer)
  rw [hcal]
  simp only [hout, hinto]
  have hpositive : min size (sealersNum ctx t) = ((min size (sealersNum ctx t)).toNat : Int) := by omega
  rw [sound_ok, rotatedWell_iff hversion hdistinct hread out into
    (min size (sealersNum ctx t)).toNat]
  · rw [← hpositive]
    refine and_iff_right_of_imp fun _ hsome hzero => ?_
    have hpos := List.length_pos_iff.mpr hsome
    have hle : (workingSealerList ctx t).length ≤ sealersNum ctx t := Nat.le_add_left ..
    omega
  · rw [hrows₂, hrows₁, hcons, retypedAll_twice]
  · exact fun node hnode => inForce_list hversion hread _ node (hsub₁ node hnode)
  · exact fun node hnode => inForce_list hversion hread _ node (hsub₂ node hnode)
  · exact hnodup₁
  · exact hnodup₂
  · omega

theorem not_sound_of_nonpos {vrf : VRFInfo} {size : Int} (hsize : size < 1)
    (hsealers : 2 ≤ sealersNum ctx t) (hcons : t'.cons = t.cons) :
    ¬ Sound ctx e t (match moveNodes ctx vrf.hashFromProof (workingSealerList ctx t)
        (calNodeRotatingInfo ctx size t).1 .sealer t' with
      | .error f => .error f
      | .ok removed => moveNodes ctx vrf.hashFromProof (pendingSealerList ctx t)
          (calNodeRotatingInfo ctx size t).2 .workingSealer removed) := by
  rcases calNodeRotatingInfo_nonpos ctx (t := t) hsize hsealers with hrange | ⟨hsome, hcal⟩
  · rw [moveNodes_outOfRange vrf.hashFromProof .sealer t' hrange]
    exact fun h => h.2 t' rfl
  · obtain ⟨out, t₁, hout, hrows, hlen, hnodup, hsub⟩ := moveNodes_ok hversion vrf.hashFromProof
      .sealer (t := t') (le_refl _) (nodup_list hversion hdistinct hread .workingSealer) (by
        intro node hnode
        obtain ⟨r, hr, hid, -⟩ := inForce_list hversion hread .workingSealer node hnode
        exact hcons ▸ hid ▸ List.mem_map_of_mem hr)
    rw [hcal]
    simp only [workingSealerList] at hout ⊢
    simp only [hout]
    rw [show moveNodes ctx vrf.hashFromProof (pendingSealerList ctx t) 0 .workingSealer t₁ = .ok t₁ from
      rfl, sound_ok, rotatedWell_iff hversion hdistinct hread out [] 0]
    · exact fun h => h.1 hsome rfl
    · rw [hrows, hcons, ← retypedAll_twice, retypedAll_nil]
    · exact fun node hnode => inForce_list hversion hread _ node (hsub node hnode)
    · simp [InForce]
    · exact hnodup
    · exact List.nodup_nil
    · simp only [workingSealerList, List.length_nil, Nat.add_zero, Nat.zero_add]
      exact hlen.symm

/-- **A rotation is sound exactly on tables that fit.** -/
theorem rotation_sound_iff {vrf : VRFInfo} {trigger : Trigger}
    (hshould : shouldRotate ctx t = .ok trigger)
    (hepoch : castInt64 (getSysteConfigByKey t.config .epochSealerNum ctx.number).1 = .ok e)
    (hvrf : checkVRFInfos ctx vrf t = .ok ()) :
    Sound ctx e t (rotateWorkingSealer ctx vrf t) ↔ Fits ctx e trigger.rotate t := by
  have hsize := trigger_size hshould hepoch
  have hreset : (tryToResetNotifyNextLeaderFlag ctx trigger t).cons = t.cons := by
    unfold tryToResetNotifyNextLeaderFlag
    split <;> rfl
  have hsum : sealersNum ctx t
      = (pendingSealerList ctx t).length + (workingSealerList ctx t).length := rfl
  unfold rotateWorkingSealer Fits
  simp only [hshould, hvrf, ← hsize]
  cases hrotate : trigger.rotate with
  | false => simpa using sound_unchanged hversion hdistinct hread rfl
  | true =>
    simp only [Bool.not_true, Bool.false_eq_true, if_false, true_and]
    by_cases hsealers : 2 ≤ sealersNum ctx t
    · rw [if_pos hsealers]
      by_cases hall : trigger.size = sealersNum ctx t ∧ (pendingSealerList ctx t).length = 0
      · rw [if_pos (.inr hall), sound_unchanged hversion hdistinct hread hreset]
        omega
      · rw [if_neg (by omega)]
        rcases lt_or_ge trigger.size 1 with hneg | hpos
        · refine iff_of_false ?_ fun h => absurd h.1 (by omega)
          exact not_sound_of_nonpos hversion hdistinct hread hneg hsealers hreset
        · rw [sound_moved hversion hdistinct hread hpos hreset]
          exact (and_iff_right hpos).symm
    · rw [if_neg hsealers, if_pos (.inl (by omega)), sound_unchanged hversion hdistinct hread hreset]

end Rotation

end Manager

/-! ### Rotations on fixed tables -/

/-- A call by the node `nodeText 1` in block one; the library accepts its proof. -/
def smallContext (unset : Int) : RotationContext where
  version := V2_5_0
  number := 1
  parentHash := List.replicate 32 0
  origin := 1
  toAddress node := (node.headD 0).toNat
  hashOfIndex i := i + 7
  stateStorage
    | .epochBlockNum => [⟨ascii ['1'], 0⟩]
    | _ => []
  unset := unset

def smallVRF : VRFInfo where
  vrfInput := toHex (List.replicate 32 0)
  isValidVRFPublicKey := true
  verifyProof := true
  hashFromProof := 5

/-- Two working sealers and one that waits, `epoch_sealer_num` 2. -/
def smallTables (notify : List ConfigRow) : Tables where
  cons := .ofRows [⟨nodeText 1, .workingSealer, 0⟩, ⟨nodeText 2, .workingSealer, 0⟩,
    ⟨nodeText 3, .sealer, 0⟩]
  config
    | .notifyRotate => notify
    | .epochSealerNum => [⟨ascii ['2'], 0⟩]
    | .epochBlockNum => [⟨ascii ['1'], 0⟩]

theorem smallTables_readable (notify : List ConfigRow) :
    ∀ r ∈ (smallTables notify).cons.rows, r.Readable := by
  simp only [smallTables, SystemTable.rows_ofRows, List.forall_mem_cons]
  refine ⟨⟨⟨_, ?_, rfl⟩, rfl⟩, ⟨⟨_, ?_, rfl⟩, rfl⟩, ⟨⟨_, ?_, rfl⟩, rfl⟩, by simp⟩
  all_goals exact List.length_replicate

/-- At the end of an epoch one node goes out and one comes in. -/
theorem rotation_sound_small : Sound (smallContext 0) 2 (smallTables [])
    (rotateWorkingSealer (smallContext 0) smallVRF (smallTables [])) := by
  have hshould : shouldRotate (smallContext 0) (smallTables [])
      = .ok { rotate := true, notify := false, size := 2 } := by decide +kernel
  refine (rotation_sound_iff (le_refl _) (by decide +kernel) (smallTables_readable [])
    hshould (by decide +kernel) (by decide +kernel)).mpr ?_
  unfold Fits
  decide +kernel

/-- Under the notify flag, with zero in the field, both working sealers go out. -/
theorem rotation_empties :
    let t := smallTables [⟨ascii ['1'], 0⟩]
    checkVRFInfos (smallContext 0) smallVRF t = .ok ()
      ∧ workingSealerList (smallContext 0) t ≠ []
      ∧ ∃ t', rotateWorkingSealer (smallContext 0) smallVRF t = .ok t'
        ∧ t'.cons.rows.countP Node.works = 0 ∧ ¬ Sound (smallContext 0) 2 t (.ok t') := by
  intro t
  refine ⟨by decide +kernel, by decide +kernel, ?_⟩
  have hrun : (rotateWorkingSealer (smallContext 0) smallVRF t).toOption.map
      (fun t' => t'.cons.rows.countP Node.works) = some 0 := by decide +kernel
  cases hrotate : rotateWorkingSealer (smallContext 0) smallVRF t with
  | error f => simp [hrotate, Except.toOption] at hrun
  | ok t' =>
    have hnone : t'.cons.rows.countP Node.works = 0 := by
      simpa [hrotate, Except.toOption] using hrun
    refine ⟨t', rfl, hnone, fun hsound => ?_⟩
    have hsize := (sound_ok.mp hsound).size
    rw [hnone] at hsize
    revert hsize
    decide +kernel

end HieraChain.Precompiled
