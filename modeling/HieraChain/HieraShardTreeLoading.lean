/-
  HieraChain/HieraShardTreeLoading.lean
  =====================================
  **Loading `tree.json` gives the tree back.**

  The recursion puts the shards of a forest on the heap in the order of a walk
  (`insert_forest`), so that the heap holds the tree (`holds_nodesOf`).

  `recursionInsertChild` looks whether a shard has a member of its own before it
  goes on, and `buildFromJson` does not: the text of a root without children is
  empty, which is split into one empty text, and a shard with the id 0 is put
  below the root (`load_alone`).
-/
import HieraChain.HieraShardTreeShape
import HieraChain.Lists

namespace HieraChain.HieraShardTree

open HieraChain.BigEndian HieraChain.Decimal HieraChain.Storage HieraChain.Forest HieraChain.Lists

/-! ### Numbers and texts -/

theorem leadingDigits_map {ds : List Nat} (hds : ∀ d ∈ ds, d < 10) (v : Nat) :
    leadingDigits v (ds.map fun d => UInt8.ofNat (48 + d)) = ds.foldl (fun v d => 10 * v + d) v := by
  induction ds generalizing v with
  | nil => rfl
  | cons d ds ih =>
    have hd := hds d List.mem_cons_self
    have hdigit : digit? (UInt8.ofNat (48 + d)) = some d := by
      rw [digit?, toNat_digit hd, if_pos (by omega), Nat.add_sub_cancel_left]
    rw [List.map_cons, leadingDigits, hdigit, List.foldl_cons]
    exact ih (fun d' hd' => hds d' (List.mem_cons_of_mem _ hd')) _

theorem leadingDigits_decimal (n : Nat) : leadingDigits 0 (decimal n) = n := by
  obtain ⟨ds, -, hds, htext, hvalue⟩ := exists_digits n
  rw [htext, leadingDigits_map hds, hvalue]

theorem atoi_to_string {v : Int} (hle : -2 ^ 31 ≤ v) (hlt : v < 2 ^ 31) : atoi (to_string v) = v := by
  have hhead : ∀ b ∈ (decimal v.natAbs).head?, isSpace b = false ∧ b ≠ minus ∧ b ≠ plus := by
    intro b hb
    have hdigit := digit_of_mem (List.mem_of_mem_head? hb)
    have hnat : 48 ≤ b.toNat := UInt8.le_iff_toNat_le.mp hdigit.1
    refine ⟨?_, ?_, ?_⟩
    · rw [isSpace, Bool.or_eq_false_iff, Bool.and_eq_false_iff, decide_eq_false_iff_not,
        decide_eq_false_iff_not, decide_eq_false_iff_not]
      refine ⟨?_, Or.inr fun hle => ?_⟩
      · rintro rfl
        exact absurd hnat (by decide)
      · have := UInt8.le_iff_toNat_le.mp hle
        exact absurd (hnat.trans this) (by decide)
    · rintro rfl
      exact absurd hnat (by decide)
    · rintro rfl
      exact absurd hnat (by decide)
  unfold to_string signedDecimal
  split
  next hneg =>
    have hspace : isSpace 45 = false := by decide
    have hminus : ((45 :: decimal v.natAbs).head? = some minus) = True := eq_true rfl
    simp only [atoi, List.dropWhile_cons, hspace, Bool.false_eq_true, if_false, hminus, true_or,
      if_true, List.tail_cons, leadingDigits_decimal]
    rw [min_eq_right (by omega), max_eq_right (by omega), Int.bmod_eq_of_le (by omega) (by omega)]
    omega
  next hpos =>
    have hread := leadingDigits_decimal v.natAbs
    cases hdec : decimal v.natAbs with
    | nil => exact absurd hdec (decimal_ne_nil _)
    | cons b rest =>
      obtain ⟨hspace, hminus, hplus⟩ := hhead b (by rw [hdec]; exact rfl)
      rw [hdec] at hread
      have hnegative : ((b :: rest).head? = some minus) = False :=
        eq_false fun heq => hminus (Option.some.inj heq)
      have hpositive : ((b :: rest).head? = some plus) = False :=
        eq_false fun heq => hplus (Option.some.inj heq)
      simp only [atoi, List.dropWhile_cons, hspace, Bool.false_eq_true, if_false, hnegative, hpositive,
        or_self, hread]
      rw [min_eq_right (by omega), max_eq_right (by omega), Int.bmod_eq_of_le (by omega) (by omega)]
      omega

theorem comma_notMem_to_string (v : Int) : comma ∉ to_string v := by
  unfold to_string signedDecimal
  intro hmem
  split at hmem
  · rcases List.mem_cons.mp hmem with hminus | hmem
    · exact absurd hminus (by decide)
    · exact absurd (digit_of_mem hmem).1 (by decide)
  · exact absurd (digit_of_mem hmem).1 (by decide)

theorem to_string_ne_nil (v : Int) : to_string v ≠ [] := by
  unfold to_string signedDecimal
  split
  · exact List.cons_ne_nil _ _
  · exact decimal_ne_nil _

theorem split_of_notMem {token : Bytes} (h : comma ∉ token) : split token = [token] := by
  induction token with
  | nil => rfl
  | cons b rest ih =>
    rw [List.mem_cons, not_or] at h
    rw [split, if_neg (Ne.symm h.1), ih h.2]

theorem split_append {token rest : Bytes} (h : comma ∉ token) (hrest : rest.head? ≠ some comma) :
    split (token ++ comma :: rest) = token :: split rest := by
  induction token with
  | nil => rw [List.nil_append, split, if_pos rfl, if_neg hrest]
  | cons b token ih =>
    rw [List.mem_cons, not_or] at h
    rw [List.cons_append, split, if_neg (Ne.symm h.1), ih h.2]

theorem head?_joinIds (ids : List Int) : (joinIds ids).head? ≠ some comma := by
  have hhead : ∀ (id : Int) (rest : Bytes), (to_string id ++ rest).head? ≠ some comma := by
    intro id rest heq
    cases htext : to_string id with
    | nil => exact to_string_ne_nil id htext
    | cons b text =>
      rw [htext, List.cons_append, List.head?_cons, Option.some.injEq] at heq
      refine comma_notMem_to_string id ?_
      rw [htext, heq]
      exact List.mem_cons_self
  match ids with
  | [] => exact nofun
  | [id] =>
    have := hhead id []
    rw [List.append_nil] at this
    exact this
  | id :: id' :: ids => exact hhead id _

theorem split_joinIds {ids : List Int} (hne : ids ≠ []) : split (joinIds ids) = ids.map to_string := by
  induction ids with
  | nil => exact absurd rfl hne
  | cons id ids ih =>
    cases ids with
    | nil => exact split_of_notMem (comma_notMem_to_string id)
    | cons id' ids =>
      have hjoin : joinIds (id :: id' :: ids) = to_string id ++ comma :: joinIds (id' :: ids) := rfl
      rw [hjoin, split_append (comma_notMem_to_string id) (head?_joinIds _), ih (List.cons_ne_nil _ _)]
      rfl

/-! ### The heap of a tree -/

/-- The pointers of the trees of a forest whose first shard is at `start`. -/
def roots (start : Nat) : Forest Int → List Nat
  | .nil => []
  | .cons _ children siblings => start :: roots (start + 1 + children.size) siblings

def nodesOf (coordinator start : Nat) : Forest Int → Heap
  | .nil => []
  | .cons id children siblings =>
    ⟨id, roots (start + 1) children, some coordinator⟩
      :: (nodesOf start (start + 1) children ++ nodesOf coordinator (start + 1 + children.size) siblings)

theorem length_nodesOf (coordinator start : Nat) (f : Forest Int) :
    (nodesOf coordinator start f).length = f.size := by
  induction f generalizing coordinator start with
  | nil => rfl
  | cons id children siblings ihc ihs =>
    rw [nodesOf, List.length_cons, List.length_append, ihc, ihs, Forest.size]
    omega

theorem holds_nodesOf {heap pre post : Heap} {coordinator start : Nat} {f : Forest Int}
    (hstart : start = pre.length) (hheap : heap = pre ++ nodesOf coordinator start f ++ post) :
    Holds heap (some coordinator) (roots start f) f := by
  induction f generalizing pre post coordinator start with
  | nil => exact trivial
  | cons id children siblings ihc ihs =>
    rw [nodesOf] at hheap
    refine ⟨⟨⟨id, roots (start + 1) children, some coordinator⟩, ?_, rfl, rfl, ?_⟩, ?_⟩
    · rw [hheap, List.append_assoc, hstart, List.getElem?_append_right (le_refl _), Nat.sub_self]
      rfl
    · have hplace : start + 1 = (pre ++ [⟨id, roots (start + 1) children, some coordinator⟩] : Heap).length := by
        rw [List.length_append, hstart]
        rfl
      have hwhole : heap = (pre ++ [⟨id, roots (start + 1) children, some coordinator⟩])
          ++ nodesOf start (start + 1) children
          ++ (nodesOf coordinator (start + 1 + children.size) siblings ++ post) := by
        rw [hheap]
        simp only [List.append_assoc, List.cons_append, List.nil_append]
      exact ihc hplace hwhole
    · have hplace : start + 1 + children.size = (pre ++ ⟨id, roots (start + 1) children, some coordinator⟩
          :: nodesOf start (start + 1) children : Heap).length := by
        rw [List.length_append, List.length_cons, length_nodesOf, hstart]
        omega
      have hwhole : heap = (pre ++ ⟨id, roots (start + 1) children, some coordinator⟩
          :: nodesOf start (start + 1) children)
          ++ nodesOf coordinator (start + 1 + children.size) siblings ++ post := by
        rw [hheap]
        simp only [List.append_assoc, List.cons_append]
      exact ihs hplace hwhole

/-! ### The recursion -/

def addChildren (heap : Heap) (p : Nat) (ps : List Nat) : Heap :=
  heap.modify p fun node => { node with children := node.children ++ ps }

theorem length_addChildren (heap : Heap) (p : Nat) (ps : List Nat) :
    (addChildren heap p ps).length = heap.length := List.length_modify ..

theorem addChildren_addChildren (heap : Heap) (p : Nat) (ps ps' : List Nat) :
    addChildren (addChildren heap p ps) p ps' = addChildren heap p (ps ++ ps') := by
  rw [addChildren, addChildren, List.modify_modify_eq, addChildren]
  congr 1
  funext node
  simp only [Function.comp_apply, List.append_assoc]

theorem addChildren_nil (heap : Heap) (p : Nat) : addChildren heap p [] = heap := by
  unfold addChildren
  simp only [List.append_nil]
  exact List.modify_id ..

def Describes (result : Json) (f : Forest Int) : Prop :=
  ∀ s ∈ f.all, (0 < s.1 ∧ s.1 < 2 ^ 31)
    ∧ result.find? (to_string s.1) = if inner s then some (joinIds (s.2.members.map Prod.fst)) else none

theorem inner_iff_members {s : Rooted Int} : inner s = true ↔ s.2.members ≠ [] := by
  obtain ⟨id, f⟩ := s
  cases f with
  | nil => exact ⟨fun h => absurd rfl (of_decide_eq_true h), fun h => absurd rfl h⟩
  | cons label children siblings => exact ⟨fun _ => List.cons_ne_nil _ _, fun _ => rfl⟩

theorem insert_forest {result : Json} {f : Forest Int} (h : Describes result f) {fuel : Nat}
    (hfuel : f.depth ≤ fuel) {heap : Heap} {p : Nat} (hp : p < heap.length) :
    (f.members.map fun s => to_string s.1).foldlM
        (insertSubShard result (recursionInsertChild result fuel) p) heap
      = .ok (addChildren heap p (roots heap.length f) ++ nodesOf p heap.length f) := by
  induction f generalizing fuel heap p with
  | nil => rw [roots, addChildren_nil, nodesOf, List.append_nil]; rfl
  | cons id children siblings ihc ihs =>
    have hdepth : 1 + children.depth ≤ fuel ∧ siblings.depth ≤ fuel := by
      rw [Forest.depth] at hfuel
      omega
    obtain ⟨⟨hpos, hlt⟩, hfind⟩ := h (id, children) List.mem_cons_self
    have hchildren : Describes result children := fun s hs =>
      h s (List.mem_cons_of_mem _ (List.mem_append_left _ hs))
    have hsiblings : Describes result siblings := fun s hs =>
      h s (List.mem_cons_of_mem _ (List.mem_append_right _ hs))
    have hnew : insertChild (heap ++ [{ internal_groupId := id, coordinator := some p }]) heap.length p
        = addChildren heap p [heap.length] ++ [{ internal_groupId := id, coordinator := some p }] :=
      modify_append_of_lt hp _
    have hlength := length_addChildren heap p [heap.length]
    -- the shard with its subtree
    have hturn : insertSubShard result (recursionInsertChild result fuel) p heap (to_string id)
        = .ok (addChildren heap p [heap.length]
          ++ ⟨id, roots (heap.length + 1) children, some p⟩ :: nodesOf heap.length (heap.length + 1) children) := by
      unfold insertSubShard
      dsimp only at hfind ⊢
      rw [atoi_to_string (by omega) hlt, hnew]
      by_cases hinner : inner (id, children) = true
      · have hmembers := inner_iff_members.mp hinner
        obtain ⟨fuel, rfl⟩ : ∃ k, fuel = k + 1 := ⟨fuel - 1, by omega⟩
        rw [asString, hfind, if_pos hinner, if_pos Option.isSome_some, Option.getD_some,
          split_joinIds (by rw [ne_eq, List.map_eq_nil_iff]; exact hmembers), List.map_map,
          recursionInsertChild]
        have hplace : heap.length < (addChildren heap p [heap.length]
            ++ [{ internal_groupId := id, coordinator := some p }] : Heap).length := by
          rw [List.length_append, hlength]
          exact Nat.lt_succ_self _
        have hrec := ihc hchildren (by omega : children.depth ≤ fuel) hplace
        rw [List.length_append, hlength, List.length_singleton] at hrec
        refine hrec.trans ?_
        have hself : addChildren (addChildren heap p [heap.length]
            ++ [{ internal_groupId := id, coordinator := some p }]) heap.length (roots (heap.length + 1) children)
            = addChildren heap p [heap.length] ++ [⟨id, roots (heap.length + 1) children, some p⟩] := by
          have hmodify := modify_append_length (addChildren heap p [heap.length])
            { internal_groupId := id, coordinator := some p } []
            fun node => { node with children := node.children ++ roots (heap.length + 1) children }
          rw [hlength] at hmodify
          exact hmodify
        rw [hself, List.append_assoc]
        rfl
      · have hnil : children = .nil := by
          by_contra hne
          exact hinner (decide_eq_true hne)
        subst hnil
        rw [hfind, if_neg hinner]
        rfl
    rw [Forest.members, List.map_cons, List.foldlM_cons, hturn]
    have hplace : p < (addChildren heap p [heap.length] ++ (⟨id, roots (heap.length + 1) children, some p⟩
        :: nodesOf heap.length (heap.length + 1) children : Heap)).length := by
      rw [List.length_append, hlength]
      omega
    have hrest := ihs hsiblings hdepth.2 hplace
    have hsize : (addChildren heap p [heap.length] ++ (⟨id, roots (heap.length + 1) children, some p⟩
        :: nodesOf heap.length (heap.length + 1) children : Heap)).length = heap.length + 1 + children.size := by
      rw [List.length_append, hlength, List.length_cons, length_nodesOf]
      omega
    rw [hsize] at hrest
    refine hrest.trans ?_
    rw [addChildren, modify_append_of_lt (by rw [hlength]; exact hp)]
    change Except.ok (addChildren (addChildren heap p [heap.length]) p _ ++ _ ++ _) = _
    rw [addChildren_addChildren, nodesOf, roots]
    simp only [List.append_assoc, List.cons_append, List.nil_append]

/-! ### Loading a tree -/

/-- The members of the file of a tree: the id of the root, and for every shard with
    children their ids. -/
def jsonMembers (tree : Rooted Int) : List (Bytes × Bytes) :=
  (rootName, to_string tree.1)
    :: (tree.all.filter inner).map fun s => (to_string s.1, joinIds (s.2.members.map Prod.fst))

def toJson (tree : Rooted Int) : Json := SortedMap.empty.insertAll (jsonMembers tree)

structure WellFormed (tree : Rooted Int) : Prop where
  distinct : tree.labels.Nodup
  ids : ∀ id ∈ tree.labels, 0 < id ∧ id < 2 ^ 31

structure LoadsAs (t : HieraShardTree) (tree : Rooted Int) : Prop where
  holds : Holds t.heap none [t.root] (.cons tree.1 tree.2 .nil)
  exact : t.heap.length = tree.all.length
  number : get_hiera_shard_number t = tree.all.length
  intra : get_intra_shard_number t = tree.all.countP fun s => !inner s
  inter : get_inter_shard_number t = tree.all.countP inner
  cross_layer : get_cross_layer_shard_number t = tree.all.countP crossLayer
  search : ∀ id, ∃ result, get_shard_by_internal_groupId t id = .ok result
    ∧ (∀ q, result = some q → ∃ node, t.heap[q]? = some node ∧ node.internal_groupId = id)
    ∧ (result = none ↔ id ∉ tree.labels)

def RoundTrip (tree : Rooted Int) : Prop :=
  ∃ t, buildFromJson {} (some (toJson tree)) = .ok t ∧ LoadsAs t tree

section loading

variable {tree : Rooted Int}

theorem rootName_ne (v : Int) : rootName ≠ to_string v := by
  intro heq
  have hmem : (114 : UInt8) ∈ to_string v := heq ▸ List.mem_cons_self
  unfold to_string signedDecimal at hmem
  split at hmem
  · rcases List.mem_cons.mp hmem with hminus | hmem
    · exact absurd hminus (by decide)
    · exact absurd (digit_of_mem hmem).2 (by decide)
  · exact absurd (digit_of_mem hmem).2 (by decide)

theorem nodup_jsonMembers (h : WellFormed tree) : ((jsonMembers tree).map Prod.fst).Nodup := by
  rw [jsonMembers, List.map_cons, List.map_map, List.nodup_cons]
  constructor
  · intro hmem
    obtain ⟨s, -, heq⟩ := List.mem_map.mp hmem
    exact rootName_ne s.1 heq.symm
  · have hlabels : ((tree.all.filter inner).map Prod.fst).Nodup :=
      h.distinct.sublist (List.filter_sublist.map Prod.fst)
    have htexts := hlabels.map signedDecimal_injective
    rw [List.map_map] at htexts
    exact htexts

theorem find?_rootName (h : WellFormed tree) : (toJson tree).find? rootName = some (to_string tree.1) :=
  SortedMap.find?_insertAll_of_mem _ (nodup_jsonMembers h) List.mem_cons_self

theorem find?_shard (h : WellFormed tree) {s : Rooted Int} (hs : s ∈ tree.all) :
    (toJson tree).find? (to_string s.1)
      = if inner s then some (joinIds (s.2.members.map Prod.fst)) else none := by
  by_cases hinner : inner s = true
  · rw [if_pos hinner]
    refine SortedMap.find?_insertAll_of_mem _ (nodup_jsonMembers h) (List.mem_cons_of_mem _ ?_)
    exact List.mem_map.mpr ⟨s, List.mem_filter.mpr ⟨hs, hinner⟩, rfl⟩
  · rw [if_neg hinner]
    refine (SortedMap.find?_insertAll_of_notMem _ ?_).trans (SortedMap.find?_empty _)
    rw [jsonMembers, List.map_cons, List.map_map, List.mem_cons, not_or]
    refine ⟨(rootName_ne s.1).symm, fun hmem => ?_⟩
    obtain ⟨x, hx, heq⟩ := List.mem_map.mp hmem
    obtain ⟨hx, hxinner⟩ := List.mem_filter.mp hx
    rw [eq_of_label h.distinct hx hs (signedDecimal_injective heq)] at hxinner
    exact hinner hxinner

theorem describes (h : WellFormed tree) : Describes (toJson tree) tree.2 := by
  intro s hs
  have hall : s ∈ tree.all := List.mem_cons_of_mem _ hs
  exact ⟨h.ids s.1 (List.mem_map_of_mem hall), find?_shard h hall⟩

theorem depth_le_inner (f : Forest Int) : f.depth ≤ 1 + f.all.countP inner := by
  induction f with
  | nil => exact Nat.zero_le _
  | cons id children siblings ihc ihs =>
    rw [Forest.depth, Forest.all, List.countP_cons, List.countP_append]
    by_cases hchildren : children = .nil
    · subst hchildren
      simp only [Forest.depth]
      omega
    · have hinner : inner (id, children) = true := decide_eq_true hchildren
      rw [if_pos hinner]
      omega

theorem depth_le_members (h : WellFormed tree) (hinner : inner tree = true) :
    tree.2.depth ≤ (toJson tree).entries.length := by
  have hsubset : ∀ k ∈ (jsonMembers tree).map Prod.fst, k ∈ (toJson tree).entries.map Prod.fst := by
    intro k hk
    obtain ⟨e, he, rfl⟩ := List.mem_map.mp hk
    have hfind : (toJson tree).find? e.1 = some e.2 :=
      SortedMap.find?_insertAll_of_mem _ (nodup_jsonMembers h) he
    exact List.mem_map_of_mem (SortedMap.mem_entries_iff.mpr hfind)
  have hle := ((nodup_jsonMembers h).subperm hsubset).length_le
  rw [List.length_map, List.length_map, jsonMembers, List.length_cons, List.length_map,
    ← List.countP_eq_length_filter, Rooted.all, List.countP_cons, if_pos hinner] at hle
  have hdepth := depth_le_inner tree.2
  omega

theorem recursion_eq (h : WellFormed tree) (hinner : inner tree = true) :
    recursionInsertChild (toJson tree) ((toJson tree).entries.length + 1) [{ internal_groupId := tree.1 }] 0
        (split (asString (toJson tree) (to_string tree.1)))
      = .ok (⟨tree.1, roots 1 tree.2, none⟩ :: nodesOf 0 1 tree.2) := by
  have hmembers := inner_iff_members.mp hinner
  rw [asString, find?_shard h List.mem_cons_self, if_pos hinner, Option.getD_some,
    split_joinIds (by rw [ne_eq, List.map_eq_nil_iff]; exact hmembers), List.map_map,
    recursionInsertChild]
  exact insert_forest (describes h) (depth_le_members h hinner) Nat.zero_lt_one

theorem heap_of_root (h : WellFormed tree) :
    (({} : HieraShardTree).heap.modify 0 fun node =>
      { node with internal_groupId := atoi (asString (toJson tree) rootName) })
      = [{ internal_groupId := tree.1 }] := by
  obtain ⟨hpos, hlt⟩ := h.ids tree.1 List.mem_cons_self
  rw [asString, find?_rootName h, Option.getD_some, atoi_to_string (by omega) hlt]
  rfl

theorem roundTrip_of_inner (h : WellFormed tree) (hinner : inner tree = true) : RoundTrip tree := by
  have hheap : Holds (⟨tree.1, roots 1 tree.2, none⟩ :: nodesOf 0 1 tree.2) none [0]
      (.cons tree.1 tree.2 .nil) := by
    refine ⟨⟨_, rfl, rfl, rfl, ?_⟩, trivial⟩
    have hplace : 1 = [(⟨tree.1, roots 1 tree.2, none⟩ : HieraShardNode)].length := rfl
    exact holds_nodesOf hplace (List.append_nil _).symm
  have hroot : asString (toJson tree) rootName = to_string tree.1 := by
    rw [asString, find?_rootName h, Option.getD_some]
  let counts : Counts := ({} : Counts).after tree.all
  let t : HieraShardTree :=
    { heap := ⟨tree.1, roots 1 tree.2, none⟩ :: nodesOf 0 1 tree.2
      hiera_shard_number := 1 + tree.2.size
      intra_shard_number := counts.intra
      inter_shard_number := counts.inter
      cross_layer_shard_number := counts.cross_layer }
  have htree : IsTree t tree := ⟨hheap, h.distinct, fun id hid => by have := h.ids id hid; omega⟩
  have hlength : tree.all.length = 1 + tree.2.size := by
    rw [Rooted.all, List.length_cons, length_all]
    omega
  refine ⟨t, ?_, hheap, ?_, ?_, Int.zero_add _, Int.zero_add _, Int.zero_add _, fun id => ?_⟩
  · have hdfs := htree.dfs {}
    unfold buildFromJson
    dsimp only
    rw [heap_of_root h, hroot, recursion_eq h hinner]
    change (HieraShardTree.dfs t.heap (t.heap.length + 1) t.root {}).bind _ = _
    rw [hdfs]
    rfl
  · rw [hlength]
    change (nodesOf 0 1 tree.2).length + 1 = _
    rw [length_nodesOf]
    omega
  · rw [hlength]
    exact (Nat.cast_add 1 tree.2.size).symm
  · obtain ⟨result, hresult, hfound, hmissing⟩ := htree.search id
    refine ⟨result, hresult, fun q hq => ?_, hmissing, fun hnot => ?_⟩
    · obtain ⟨x, path, hstands, hx⟩ := hfound q hq
      obtain ⟨node, hnode, hid, -⟩ := hstands.node
      exact ⟨node, hnode, hid.trans hx⟩
    · cases result with
      | none => rfl
      | some q =>
        obtain ⟨x, path, hstands, hx⟩ := hfound q rfl
        exact absurd (hx ▸ List.mem_map_of_mem (hstands.path.mem_all x List.mem_cons_self)) hnot

theorem load_alone (h : WellFormed tree) (hinner : inner tree = false) :
    recursionInsertChild (toJson tree) ((toJson tree).entries.length + 1) [{ internal_groupId := tree.1 }] 0
        (split (asString (toJson tree) (to_string tree.1)))
      = .ok [⟨tree.1, [1], none⟩, ⟨0, [], some 0⟩] := by
  have hnil : tree.2 = .nil := by
    by_contra hne
    rw [inner, decide_eq_true hne] at hinner
    cases hinner
  have hzero : (toJson tree).find? (to_string 0) = none := by
    refine (SortedMap.find?_insertAll_of_notMem _ ?_).trans (SortedMap.find?_empty _)
    rw [jsonMembers, Rooted.all, hnil, List.filter_cons, hinner, if_neg Bool.false_ne_true]
    exact fun hmem => rootName_ne 0 (List.mem_singleton.mp hmem).symm
  rw [asString, find?_shard h List.mem_cons_self, hinner, if_neg Bool.false_ne_true, Option.getD_none,
    recursionInsertChild]
  change (insertSubShard (toJson tree) _ 0 [{ internal_groupId := tree.1 }] []).bind _ = _
  unfold insertSubShard
  have hatoi : atoi [] = 0 := by decide
  dsimp only
  rw [hatoi, hzero]
  rfl

theorem not_roundTrip_of_alone (h : WellFormed tree) (hinner : inner tree = false) : ¬ RoundTrip tree := by
  rintro ⟨t, hload, hloads⟩
  have hroot : asString (toJson tree) rootName = to_string tree.1 := by
    rw [asString, find?_rootName h, Option.getD_some]
  have hheap : t.heap = [⟨tree.1, [1], none⟩, ⟨0, [], some 0⟩] := by
    unfold buildFromJson at hload
    dsimp only at hload
    rw [heap_of_root h, hroot, load_alone h hinner] at hload
    simp only [Except.bind] at hload
    split at hload
    · cases hload
    · injection hload with hload
      rw [← hload]
  have hexact := hloads.exact
  have hnil : tree.2 = .nil := by
    by_contra hne
    rw [inner, decide_eq_true hne] at hinner
    cases hinner
  rw [hheap, Rooted.all, hnil] at hexact
  cases hexact

end loading

/-- **Loading the file of a tree gives the tree back exactly where its root has a
    child.** -/
theorem roundTrip_iff (tree : Rooted Int) (h : WellFormed tree) : RoundTrip tree ↔ tree.2 ≠ .nil := by
  constructor
  · intro hround hnil
    exact not_roundTrip_of_alone h (decide_eq_false (not_not.mpr hnil)) hround
  · exact fun hne => roundTrip_of_inner h (decide_eq_true hne)

theorem wellFormed_nine : WellFormed (9, .nil) where
  distinct := List.nodup_singleton _
  ids id hid := by
    rw [List.mem_singleton.mp hid]
    decide

/-- The tree of the one shard 9. -/
theorem roundTrip_iff_nine : WellFormed (9, .nil) ∧ (RoundTrip (9, .nil) ↔ (Forest.nil : Forest Int) ≠ .nil) :=
  ⟨wellFormed_nine, roundTrip_iff (9, .nil) wellFormed_nine⟩

theorem not_roundTrip_nine : ¬ RoundTrip (9, .nil) := not_roundTrip_of_alone wellFormed_nine rfl

end HieraChain.HieraShardTree
