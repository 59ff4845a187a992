/-
  HieraChain/HieraShardTree.lean
  ==============================
  **The tree of shards** (`libplugin/hieraShardTree.h`, `hieraShardTree.cpp`, and
  `Hierarchical_Shard` of `libplugin/Common.h`).

  The shards are objects that `new` puts on a heap; a pointer is a place there,
  and the null pointer is `none`.  `at` throws behind the end of a vector, and a
  null pointer that is used ends the process.  A recursion that follows more
  pointers than there are shards, or more members than the file has, does not end
  (`unending`).

  The file is a JSON object of strings.  Where it cannot be parsed, nothing is
  done.  The node lists of the shards are left out, and so are the functions that
  only use these.
-/
import HieraChain.Decimal
import HieraChain.SortedMap
import HieraChain.Table

namespace HieraChain.HieraShardTree

open HieraChain.BigEndian HieraChain.Decimal HieraChain.Storage

/-! ### Numbers and texts -/

def comma : UInt8 := UInt8.ofNat ','.toNat

def isSpace (b : UInt8) : Bool := b = 32 || (9 ≤ b && b ≤ 13)

def leadingDigits (value : Nat) : Bytes → Nat
  | [] => value
  | b :: rest =>
    match digit? b with
    | some d => leadingDigits (10 * value + d) rest
    | none => value

/-- `strtol` stays in the range of a `long`, and the result is cast to `int`. -/
def atoi (s : Bytes) : Int :=
  let text := s.dropWhile isSpace
  let negative := text.head? = some minus
  let value : Int := leadingDigits 0 (if negative ∨ text.head? = some plus then text.tail else text)
  Int.bmod (max (-2 ^ 63) (min (2 ^ 63 - 1) (if negative then -value else value))) (2 ^ 32)

abbrev to_string (v : Int) : Bytes := signedDecimal v

/-- `boost::split` at commas with `token_compress_on`: neighbouring commas count
    as one. -/
def split : Bytes → List Bytes
  | [] => [[]]
  | b :: rest =>
    if b = comma then if rest.head? = some comma then split rest else [] :: split rest
    else
      match split rest with
      | [] => [[b]]
      | token :: tokens => (b :: token) :: tokens

/-! ### Shards -/

structure HieraShardNode where
  internal_groupId : Int := -1
  children : List Nat := []
  coordinator : Option Nat := none
  deriving DecidableEq

abbrev Heap := List HieraShardNode

inductive Failure where
  | nullDereference
  | outOfRange
  | divideByZero
  | unending
  deriving DecidableEq, Repr

def deref (heap : Heap) (p : Nat) : Except Failure HieraShardNode :=
  match heap[p]? with
  | some node => .ok node
  | none => .error .nullDereference

def derefOption (heap : Heap) : Option Nat → Except Failure HieraShardNode
  | some p => deref heap p
  | none => .error .nullDereference

end HieraShardTree

structure HieraShardTree where
  heap : HieraShardTree.Heap := [{}]
  root : Nat := 0
  hiera_shard_number : Int := 1
  intra_shard_number : Int := 0
  inter_shard_number : Int := 0
  cross_layer_shard_number : Int := 0

namespace HieraShardTree

open HieraChain.BigEndian HieraChain.Decimal HieraChain.Storage

/-! ### Loading -/

/-- The members of `tree.json`. -/
abbrev Json := SortedMap Bytes Bytes

/-- `asString`; a member that is missing is null, whose text is empty. -/
def asString (result : Json) (key : Bytes) : Bytes := (result.find? key).getD []

def insertChild (heap : Heap) (shard coordinator : Nat) : Heap :=
  heap.modify coordinator fun node => { node with children := node.children ++ [shard] }

/-- A turn of the loop of `recursionInsertChild`; `recurse` is the call on the
    members of the new shard. -/
def insertSubShard (result : Json) (recurse : Heap → Nat → List Bytes → Except Failure Heap) (shard : Nat)
    (heap : Heap) (subShardText : Bytes) : Except Failure Heap :=
  let id := atoi subShardText
  let subShard := heap.length
  let heap := insertChild (heap ++ [{ internal_groupId := id, coordinator := some shard }]) subShard shard
  if (result.find? (to_string id)).isSome then recurse heap subShard (split (asString result (to_string id)))
  else .ok heap

def recursionInsertChild (result : Json) : Nat → Heap → Nat → List Bytes → Except Failure Heap
  | 0, _, _, _ => .error .unending
  | fuel + 1, heap, shard, subShards =>
    subShards.foldlM (insertSubShard result (recursionInsertChild result fuel) shard) heap

/-! ### Searching -/

/-- The loop of `get_shard_by_internal_groupId`; `search` is the call on a child. -/
def searchChildren (search : Nat → Except Failure (Option Nat)) (heap : Heap) (internal_groupId : Int) :
    List Nat → Except Failure (Option Nat)
  | [] => .ok none
  | subShard :: rest =>
    (deref heap subShard).bind fun node =>
      if node.internal_groupId = internal_groupId then .ok (some subShard)
      else
        (search subShard).bind fun tmpResult =>
          match tmpResult with
          | some p => .ok (some p)
          | none => searchChildren search heap internal_groupId rest

/-- The search below a shard; the pair of a flag and a pointer is an `Option`. -/
def searchBelow (heap : Heap) (internal_groupId : Int) : Nat → Nat → Except Failure (Option Nat)
  | 0, _ => .error .unending
  | fuel + 1, shard =>
    (deref heap shard).bind fun node =>
      searchChildren (searchBelow heap internal_groupId fuel) heap internal_groupId node.children

def get_shard_by_internal_groupId (t : HieraShardTree) (internal_groupId : Int) :
    Except Failure (Option Nat) :=
  (deref t.heap t.root).bind fun root =>
    if root.internal_groupId = internal_groupId then .ok (some t.root)
    else searchBelow t.heap internal_groupId t.heap.length t.root

def shardOf (t : HieraShardTree) (internal_groupId : Int) : Except Failure HieraShardNode :=
  (get_shard_by_internal_groupId t internal_groupId).bind (derefOption t.heap)

/-! ### Leaves -/

def is_leaf (shard : HieraShardNode) : Bool := shard.children.length = 0

def is_inter (shard : HieraShardNode) : Bool := !is_leaf shard

/-- The loop of `is_cross_layer`. -/
def anyInter (heap : Heap) : List Nat → Except Failure Bool
  | [] => .ok false
  | child :: rest =>
    (deref heap child).bind fun node => if is_inter node then .ok true else anyInter heap rest

def is_cross_layer (heap : Heap) (shard : HieraShardNode) : Except Failure Bool := anyInter heap shard.children

/-! ### Counting -/

/-- The three counters that `dfs` moves. -/
structure Counts where
  intra : Int := 0
  inter : Int := 0
  cross_layer : Int := 0
  deriving DecidableEq

/-- The loop of `dfs`; `count` is the call on a child. -/
def dfsChildren (count : Nat → Counts → Except Failure (Int × Counts)) :
    List Nat → Int → Counts → Except Failure (Int × Counts)
  | [], number, counts => .ok (number, counts)
  | child :: rest, number, counts =>
    (count child counts).bind fun below => dfsChildren count rest (number + 1 + below.1) below.2

def dfs (heap : Heap) : Nat → Nat → Counts → Except Failure (Int × Counts)
  | 0, _, _ => .error .unending
  | fuel + 1, shard, counts =>
    (deref heap shard).bind fun node =>
      (is_cross_layer heap node).bind fun crossLayer =>
        dfsChildren (dfs heap fuel) node.children 0
          { intra := counts.intra + if is_leaf node then 1 else 0
            inter := counts.inter + if is_inter node then 1 else 0
            cross_layer := counts.cross_layer + if crossLayer then 1 else 0 }

def rootName : Bytes := ascii ['r', 'o', 'o', 't']

def buildFromJson (t : HieraShardTree) (parsed : Option Json) : Except Failure HieraShardTree :=
  match parsed with
  | none => .ok t
  | some result =>
    let root_id := asString result rootName
    let heap := t.heap.modify t.root fun node => { node with internal_groupId := atoi root_id }
    (recursionInsertChild result (result.entries.length + 1) heap t.root (split (asString result root_id))).bind
      fun heap =>
        (dfs heap (heap.length + 1) t.root
          ⟨t.intra_shard_number, t.inter_shard_number, t.cross_layer_shard_number⟩).bind fun below =>
          .ok
            { t with
              heap := heap
              hiera_shard_number := 1 + below.1
              intra_shard_number := below.2.intra
              inter_shard_number := below.2.inter
              cross_layer_shard_number := below.2.cross_layer }

def get_hiera_shard_number (t : HieraShardTree) : Int := t.hiera_shard_number
def get_intra_shard_number (t : HieraShardTree) : Int := t.intra_shard_number
def get_inter_shard_number (t : HieraShardTree) : Int := t.inter_shard_number
def get_cross_layer_shard_number (t : HieraShardTree) : Int := t.cross_layer_shard_number

/-! ### Descendants and ancestors -/

/-- The loop of `get_all_child`; `below` is the call on a child. -/
def allChildren (below : Nat → List Int → Except Failure (List Int)) (heap : Heap) :
    List Nat → List Int → Except Failure (List Int)
  | [], ids => .ok ids
  | subShard :: rest, ids =>
    (deref heap subShard).bind fun node =>
      (below subShard (ids ++ [node.internal_groupId])).bind (allChildren below heap rest)

def get_all_child (heap : Heap) : Nat → Nat → List Int → Except Failure (List Int)
  | 0, _, _ => .error .unending
  | fuel + 1, shard, ids =>
    (deref heap shard).bind fun node => allChildren (get_all_child heap fuel) heap node.children ids

def childTexts (heap : Heap) : List Nat → Except Failure Bytes
  | [] => .ok []
  | child :: rest =>
    (deref heap child).bind fun node =>
      (childTexts heap rest).map fun text => to_string node.internal_groupId ++ comma :: text

/-- The loop up to the root, from `tmp` on. -/
def upperTexts (heap : Heap) : Nat → Nat → Bytes → Except Failure Bytes
  | 0, _, _ => .error .unending
  | fuel + 1, tmp, coordinator =>
    (deref heap tmp).bind fun node =>
      match node.coordinator with
      | none => .ok (coordinator ++ to_string node.internal_groupId)
      | some up =>
        (deref heap up).bind fun upNode =>
          (childTexts heap upNode.children).bind fun text => upperTexts heap fuel up (coordinator ++ text)

def joinIds : List Int → Bytes
  | [] => []
  | [id] => to_string id
  | id :: ids => to_string id ++ comma :: joinIds ids

/-- The shards above from the second one on, each with its siblings, then the root. -/
def coordinatorText (t : HieraShardTree) (internal_groupId : Int) (node : HieraShardNode) :
    Except Failure Bytes :=
  match node.coordinator with
  | none => .ok (to_string internal_groupId)
  | some tmp =>
    (shardOf t internal_groupId).bind fun self =>
      upperTexts t.heap (t.heap.length + 1) tmp
        (if is_inter self then to_string internal_groupId ++ [comma] else [])

def get_shard_info_by_internal_groupId (t : HieraShardTree) (internal_groupId : Int) :
    Except Failure (Bytes × Bytes) :=
  (get_shard_by_internal_groupId t internal_groupId).bind fun shard =>
    match shard with
    | none => .error .nullDereference
    | some p =>
      (deref t.heap p).bind fun node =>
        (coordinatorText t internal_groupId node).bind fun coordinator =>
          if is_leaf node then .ok (coordinator, ascii ['N', '/', 'A'])
          else
            (get_all_child t.heap (t.heap.length + 1) p []).map fun allChild =>
              (coordinator, to_string internal_groupId ++ comma :: joinIds allChild)

/-- The last loop of `getLCA`, on what is left of both lists. -/
def firstEqual : List Bytes → List Bytes → Except Failure Int
  | id :: ids, id' :: ids' => if id = id' then .ok (atoi id) else firstEqual ids ids'
  | _, _ => .error .outOfRange

def getLCA (t : HieraShardTree) (shard_1_groupId shard_2_groupId : Int) : Except Failure Int :=
  (get_shard_info_by_internal_groupId t shard_1_groupId).bind fun shard_1 =>
    (get_shard_info_by_internal_groupId t shard_2_groupId).bind fun _ =>
      let shard_1_upper_ids := split shard_1.1
      let shard_2_upper_ids := split shard_1.1
      (shardOf t shard_1_groupId).bind fun node_1 =>
        (shardOf t shard_2_groupId).bind fun node_2 =>
          let shard_1_depth := shard_1_upper_ids.length + if is_leaf node_1 then 1 else 0
          let shard_2_depth := shard_2_upper_ids.length + if is_leaf node_2 then 1 else 0
          if shard_2_depth ≤ shard_1_depth then
            firstEqual shard_1_upper_ids (shard_2_upper_ids.drop (shard_1_depth - shard_2_depth))
          else firstEqual (shard_1_upper_ids.drop (shard_2_depth - shard_1_depth)) shard_2_upper_ids

/-! ### `Hierarchical_Shard` -/

structure Hierarchical_Shard where
  id : Int := 0
  preshard : Option Nat := none

def ancestorsOf (shards : List Hierarchical_Shard) : Nat → Option Nat → Except Failure (List Nat)
  | _, none => .ok []
  | 0, some _ => .error .unending
  | fuel + 1, some p =>
    match shards[p]? with
    | none => .error .nullDereference
    | some shard => (ancestorsOf shards fuel shard.preshard).map fun ancestors => p :: ancestors

def firstAncestor (shards : List Hierarchical_Shard) (ancestors : List Nat) :
    Nat → Option Nat → Except Failure (Option Nat)
  | _, none => .ok none
  | 0, some _ => .error .unending
  | fuel + 1, some p =>
    if p ∈ ancestors then .ok (some p)
    else
      match shards[p]? with
      | none => .error .nullDereference
      | some shard => firstAncestor shards ancestors fuel shard.preshard

def Hierarchical_Shard.getLCA (shards : List Hierarchical_Shard) (shard1 shard2 : Option Nat) :
    Except Failure (Option Nat) :=
  (ancestorsOf shards shards.length shard1).bind fun ancestors =>
    firstAncestor shards ancestors shards.length shard2

/-- The same shards as `Hierarchical_Shard`s. -/
def hierarchy (heap : Heap) : List Hierarchical_Shard :=
  heap.map fun node => ⟨node.internal_groupId, node.coordinator⟩

/-! ### Cross-layer transactions -/

/-- `rand() % size`. -/
def drawBelow (draw size : Nat) : Except Failure Nat :=
  if size = 0 then .error .divideByZero else .ok (draw % size)

/-- `at`. -/
def at_ {α : Type} (xs : List α) (i : Nat) : Except Failure α :=
  match xs[i]? with
  | some x => .ok x
  | none => .error .outOfRange

def derefAll (heap : Heap) : List Nat → Except Failure (List (Nat × HieraShardNode))
  | [] => .ok []
  | p :: ps => (deref heap p).bind fun node => (derefAll heap ps).map fun rest => (p, node) :: rest

def drawOther (cross_layer_childs : List (Nat × HieraShardNode)) (other : Int) (rand : Nat → Nat) :
    Nat → Nat → Except Failure (Nat × (Nat × HieraShardNode))
  | 0, _ => .error .unending
  | fuel + 1, n =>
    (drawBelow (rand n) cross_layer_childs.length).bind fun i =>
      (at_ cross_layer_childs i).bind fun subShard_2 =>
        if subShard_2.2.internal_groupId = other then drawOther cross_layer_childs other rand fuel (n + 1)
        else .ok (n + 1, subShard_2)

/-- The first of the two shards, the id of the subtree it is from, and the number of
    draws. -/
def chooseDoubleSubShard_1 (heap : Heap) (internal_groupId : Int) (children : List (Nat × HieraShardNode))
    (rand : Nat → Nat) : Except Failure (Int × Int × Nat) :=
  let cross_layer_childs := children.filter fun child => is_inter child.2
  let leaf_childs := children.filter fun child => !is_inter child.2
  if 1 < cross_layer_childs.length then
    (drawBelow (rand 0) children.length).bind fun subTree_index_1 =>
      (at_ children subTree_index_1).bind fun subShard_1 =>
        (get_all_child heap (heap.length + 1) subShard_1.1 []).bind fun below =>
          let all_child_1 := below ++ [internal_groupId] ++ [subShard_1.2.internal_groupId]
          (drawBelow (rand 1) all_child_1.length).bind fun i =>
            (at_ all_child_1 i).map fun dblsubShard_1 => (dblsubShard_1, subShard_1.2.internal_groupId, 2)
  else if rand 0 % 2 = 0 then
    (drawBelow (rand 1) children.length).bind fun i =>
      (at_ leaf_childs i).map fun leaf => (leaf.2.internal_groupId, internal_groupId, 2)
  else .ok (internal_groupId, internal_groupId, 1)

/-- The second one, from another subtree; `fuel` bounds the draws of the loop. -/
def chooseDoubleSubShard_2 (heap : Heap) (children : List (Nat × HieraShardNode)) (rand : Nat → Nat) (fuel : Nat)
    (subShard_1_groupId : Int) (n : Nat) : Except Failure Int :=
  let cross_layer_childs := children.filter fun child => is_inter child.2
  (drawOther cross_layer_childs subShard_1_groupId rand fuel n).bind fun (n, subShard_2) =>
    (get_all_child heap (heap.length + 1) subShard_2.1 []).bind fun all_child_2 =>
      (drawBelow (rand n) all_child_2.length).bind fun i => at_ all_child_2 i

/-- `rand n` is the draw of number `n`. -/
def get_cross_layer_childs (t : HieraShardTree) (internal_groupId : Int) (rand : Nat → Nat) (fuel : Nat) :
    Except Failure (Int × Int) :=
  (shardOf t internal_groupId).bind fun shard =>
    (derefAll t.heap shard.children).bind fun children =>
      (chooseDoubleSubShard_1 t.heap internal_groupId children rand).bind
        fun (dblsubShard_1, subShard_1_groupId, n) =>
          (chooseDoubleSubShard_2 t.heap children rand fuel subShard_1_groupId n).map fun dblsub_shard_2 =>
            (dblsubShard_1, dblsub_shard_2)

end HieraShardTree

end HieraChain
