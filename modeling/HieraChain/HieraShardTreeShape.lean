/-
  HieraChain/HieraShardTreeShape.lean
  ===================================
  **What the functions of a shard tree do on a heap that holds a tree.**

  `Holds` relates pointers to a forest: the ids, the order of the children and
  the links to the coordinators are those of the forest.  `Stands` follows the
  links of one shard up to the root.  The search finds every shard of the tree
  and no other (`IsTree.search`), and the counters count (`IsTree.dfs`).
-/
import HieraChain.Forest
import HieraChain.HieraShardTree
import Mathlib.Data.List.Forall2
import Mathlib.Data.List.Perm.Subperm

namespace HieraChain.HieraShardTree

open HieraChain.BigEndian HieraChain.Forest

/-! ### Trees on the heap -/

/-- The pointers are those of the trees of the forest, below one coordinator. -/
def Holds (heap : Heap) (coordinator : Option Nat) : List Nat → Forest Int → Prop
  | [], .nil => True
  | p :: ps, .cons id children siblings =>
    (∃ node, heap[p]? = some node ∧ node.internal_groupId = id ∧ node.coordinator = coordinator
      ∧ Holds heap (some p) node.children children)
    ∧ Holds heap coordinator ps siblings
  | _, _ => False

structure IsTree (t : HieraShardTree) (tree : Rooted Int) : Prop where
  holds : Holds t.heap none [t.root] (.cons tree.1 tree.2 .nil)
  distinct : tree.labels.Nodup
  ids : ∀ id ∈ tree.labels, -2 ^ 31 ≤ id ∧ id < 2 ^ 31

section holds

variable {heap : Heap} {coordinator : Option Nat} {ps : List Nat} {f : Forest Int} {root : Rooted Int}

theorem Holds.nil_iff (h : Holds heap coordinator ps f) : ps = [] ↔ f = .nil := by
  cases f with
  | nil =>
    cases ps with
    | nil => exact ⟨fun _ => rfl, fun _ => rfl⟩
    | cons p ps => exact h.elim
  | cons id children siblings =>
    cases ps with
    | nil => exact h.elim
    | cons p ps => exact ⟨nofun, nofun⟩

theorem deref_of_get {p : Nat} {node : HieraShardNode} (h : heap[p]? = some node) :
    deref heap p = .ok node := by
  rw [deref, h]

def pointers (heap : Heap) : Forest Int → List Nat → List Nat
  | .cons _ children siblings, p :: ps =>
    p :: (pointers heap children ((heap[p]?.map HieraShardNode.children).getD [])
      ++ pointers heap siblings ps)
  | _, _ => []

theorem Holds.pointers_ids (h : Holds heap coordinator ps f) :
    (pointers heap f ps).map (fun p => heap[p]?.map HieraShardNode.internal_groupId) = f.labels.map some := by
  induction f generalizing coordinator ps with
  | nil => rfl
  | cons id children siblings ihc ihs =>
    cases ps with
    | nil => exact h.elim
    | cons p ps =>
      obtain ⟨⟨node, hnode, rfl, -, hchildren⟩, hsiblings⟩ := h
      have hc := ihc hchildren
      have hs := ihs hsiblings
      rw [pointers, labels_cons, List.map_cons, List.map_cons, List.map_append, List.map_append, hs, hnode]
      rw [Option.map_some, Option.map_some, Option.getD_some, hc]

theorem Holds.size_le (h : Holds heap coordinator ps f) (hdistinct : f.labels.Nodup) :
    f.size ≤ heap.length := by
  have hids := h.pointers_ids
  have hnodup : (pointers heap f ps).Nodup := by
    refine List.Nodup.of_map (fun p => heap[p]?.map HieraShardNode.internal_groupId) ?_
    rw [hids]
    exact hdistinct.map (Option.some_injective _)
  have hbound : ∀ p ∈ pointers heap f ps, p ∈ List.range heap.length := by
    intro p hp
    have hsome : heap[p]?.map HieraShardNode.internal_groupId ∈ f.labels.map some := by
      rw [← hids]
      exact List.mem_map_of_mem hp
    obtain ⟨id, -, hid⟩ := List.mem_map.mp hsome
    rw [List.mem_range]
    by_contra hlt
    rw [List.getElem?_eq_none (not_lt.mp hlt)] at hid
    cases hid
  have hlength := (hnodup.subperm hbound).length_le
  have hcount := congrArg List.length hids
  rw [List.length_map, List.length_map, Forest.labels, List.length_map, length_all] at hcount
  rw [List.length_range] at hlength
  omega

theorem IsTree.size_lt {t : HieraShardTree} {tree : Rooted Int} (h : IsTree t tree) :
    tree.2.size < t.heap.length := by
  have hlabels : (Forest.cons tree.1 tree.2 .nil).labels = tree.labels := by
    rw [labels_cons, Rooted.labels_eq]
    exact congrArg _ (List.append_nil _)
  have hle := h.holds.size_le (hlabels ▸ h.distinct)
  rw [Forest.size, Forest.size] at hle
  omega

/-! ### The links to the root -/

/-- The pointer is that of the first tree of the path: from the pointer `r` of the
    root it is reached through the children, and its links lead back. -/
inductive Stands (heap : Heap) (r : Nat) (root : Rooted Int) : Nat → List (Rooted Int) → Prop where
  | root {node : HieraShardNode} (hnode : heap[r]? = some node)
      (hid : node.internal_groupId = root.1) (hlink : node.coordinator = none)
      (hbelow : Holds heap (some r) node.children root.2) : Stands heap r root r [root]
  | child {p q : Nat} {parentNode node : HieraShardNode} {s parent : Rooted Int} {up : List (Rooted Int)}
      (hparent : Stands heap r root p (parent :: up)) (hparentNode : heap[p]? = some parentNode)
      (hq : q ∈ parentNode.children) (hs : s ∈ parent.2.members)
      (hnode : heap[q]? = some node) (hid : node.internal_groupId = s.1)
      (hlink : node.coordinator = some p) (hbelow : Holds heap (some q) node.children s.2) :
      Stands heap r root q (s :: parent :: up)

variable {p r : Nat} {s : Rooted Int} {up : List (Rooted Int)}

theorem Stands.path {l : List (Rooted Int)} (h : Stands heap r root p l) : Path root l := by
  induction h with
  | root => exact Path.root
  | child hparent hparentNode hq hs hnode hid hlink hbelow ih => exact ih.child hs

theorem Stands.node (h : Stands heap r root p (s :: up)) :
    ∃ node, heap[p]? = some node ∧ node.internal_groupId = s.1 ∧ Holds heap (some p) node.children s.2 := by
  cases h with
  | root hnode hid hlink hbelow => exact ⟨_, hnode, hid, hbelow⟩
  | child hparent hparentNode hq hs hnode hid hlink hbelow => exact ⟨_, hnode, hid, hbelow⟩

theorem Stands.children (h : Stands heap r root p (s :: up)) {node : HieraShardNode}
    (hnode : heap[p]? = some node) :
    List.Forall₂ (fun q x => Stands heap r root q (x :: s :: up)) node.children s.2.members := by
  obtain ⟨node', hnode', -, hbelow⟩ := h.node
  rw [hnode] at hnode'
  cases hnode'
  have hsome : ∀ {ps : List Nat} {f : Forest Int}, (∀ q ∈ ps, q ∈ node.children) →
      (∀ x ∈ f.members, x ∈ s.2.members) → Holds heap (some p) ps f →
      List.Forall₂ (fun q x => Stands heap r root q (x :: s :: up)) ps f.members := by
    intro ps f
    induction f generalizing ps with
    | nil =>
      intro hps hf hholds
      cases ps with
      | nil => exact List.Forall₂.nil
      | cons q ps => exact hholds.elim
    | cons id children siblings ihc ihs =>
      intro hps hf hholds
      cases ps with
      | nil => exact hholds.elim
      | cons q ps =>
        obtain ⟨⟨child, hchild, hid, hlink, hbelow⟩, hsiblings⟩ := hholds
        refine List.Forall₂.cons ?_ (ihs (fun q' hq' => hps q' (List.mem_cons_of_mem _ hq'))
          (fun x hx => hf x (List.mem_cons_of_mem _ hx)) hsiblings)
        exact Stands.child h hnode (hps q List.mem_cons_self) (hf _ List.mem_cons_self) hchild hid hlink hbelow
  exact hsome (fun _ hq => hq) (fun _ hx => hx) hbelow

theorem IsTree.stands {t : HieraShardTree} {tree : Rooted Int} (h : IsTree t tree) :
    Stands t.heap t.root tree t.root [tree] := by
  obtain ⟨⟨node, hnode, hid, hlink, hbelow⟩, -⟩ := h.holds
  exact Stands.root hnode hid hlink hbelow

/-! ### Searching -/

theorem searchChildren_spec (id : Int) {fuel : Nat}
    (h : List.Forall₂ (fun q x => Stands heap r root q (x :: up)) ps f.members) (hfuel : f.depth ≤ fuel) :
    ∃ result, searchChildren (searchBelow heap id fuel) heap id ps = .ok result
      ∧ (∀ q, result = some q → ∃ x path, Stands heap r root q (x :: path) ∧ x.1 = id)
      ∧ (result = none → id ∉ f.labels) := by
  induction f generalizing ps up fuel with
  | nil =>
    cases h
    exact ⟨none, rfl, fun q hq => (by cases hq), fun _ => List.not_mem_nil⟩
  | cons label children siblings ihc ihs =>
    cases h with
    | @cons q _ ps _ hq hsiblings =>
      obtain ⟨node, hnode, hid, -⟩ := hq.node
      have hdepth : 1 + children.depth ≤ fuel ∧ siblings.depth ≤ fuel := by
        rw [Forest.depth] at hfuel
        omega
      rw [searchChildren, deref_of_get hnode]
      simp only [Except.bind]
      split
      next heq => exact ⟨some q, rfl, fun q' hq' => ⟨_, _, by cases hq'; exact hq, hid ▸ heq⟩, fun hnone => by cases hnone⟩
      next hne =>
        obtain ⟨fuel, rfl⟩ : ∃ k, fuel = k + 1 := ⟨fuel - 1, by omega⟩
        obtain ⟨below, hbelowEq, hfound, hmissing⟩ :=
          ihc (hq.children hnode) (by omega : children.depth ≤ fuel)
        rw [searchBelow, deref_of_get hnode]
        simp only [Except.bind]
        rw [hbelowEq]
        cases below with
        | some q' => exact ⟨some q', rfl, hfound, fun hnone => by cases hnone⟩
        | none =>
          obtain ⟨result, hresult, hfound', hmissing'⟩ := ihs hsiblings hdepth.2
          refine ⟨result, hresult, hfound', fun hnone => ?_⟩
          rw [labels_cons, List.mem_cons, List.mem_append]
          rintro (rfl | hmem | hmem)
          · exact hne hid
          · exact hmissing rfl hmem
          · exact hmissing' hnone hmem

theorem IsTree.search {t : HieraShardTree} {tree : Rooted Int} (h : IsTree t tree) (id : Int) :
    ∃ result, get_shard_by_internal_groupId t id = .ok result
      ∧ (∀ q, result = some q → ∃ x path, Stands t.heap t.root tree q (x :: path) ∧ x.1 = id)
      ∧ (result = none → id ∉ tree.labels) := by
  have hroot := h.stands
  obtain ⟨node, hnode, hid, -⟩ := hroot.node
  rw [get_shard_by_internal_groupId, deref_of_get hnode]
  simp only [Except.bind]
  split
  next heq => exact ⟨some t.root, rfl, fun q hq => ⟨tree, [], by cases hq; exact hroot, hid ▸ heq⟩, nofun⟩
  next hne =>
    have hsize := h.size_lt
    have hdepth := depth_le_size tree.2
    obtain ⟨fuel, hfuel⟩ : ∃ k, t.heap.length = k + 1 := ⟨t.heap.length - 1, by omega⟩
    obtain ⟨result, hresult, hfound, hmissing⟩ :=
      searchChildren_spec id (hroot.children hnode) (by omega : tree.2.depth ≤ fuel)
    rw [hfuel, searchBelow, deref_of_get hnode]
    refine ⟨result, hresult, hfound, fun hnone => ?_⟩
    rw [Rooted.labels_eq, List.mem_cons]
    rintro (rfl | hmem)
    · exact hne hid
    · exact hmissing hnone hmem

theorem IsTree.search_of_path {t : HieraShardTree} {tree : Rooted Int} (h : IsTree t tree)
    (hpath : Path tree (s :: up)) :
    ∃ q, get_shard_by_internal_groupId t s.1 = .ok (some q) ∧ Stands t.heap t.root tree q (s :: up) := by
  obtain ⟨result, hresult, hfound, hmissing⟩ := h.search s.1
  cases result with
  | none => exact absurd (List.mem_map_of_mem (hpath.mem_all s List.mem_cons_self)) (hmissing rfl)
  | some q =>
    obtain ⟨x, path, hstands, hx⟩ := hfound q rfl
    obtain ⟨rfl, rfl⟩ := hstands.path.unique h.distinct hpath hx
    exact ⟨q, hresult, hstands⟩

/-! ### Counting -/

theorem is_leaf_iff {node : HieraShardNode} (h : Holds heap (some p) node.children f) :
    is_leaf node = true ↔ f = .nil := by
  rw [is_leaf, decide_eq_true_eq, List.length_eq_zero_iff]
  exact h.nil_iff

def inner (s : Rooted Int) : Bool := decide (s.2 ≠ .nil)

def crossLayer (s : Rooted Int) : Bool := s.2.members.any inner

theorem is_inter_eq {node : HieraShardNode} (h : Holds heap (some p) node.children s.2) :
    is_inter node = inner s := by
  rw [is_inter, inner, Bool.eq_iff_iff, Bool.not_eq_true', decide_eq_true_eq, ← Bool.not_eq_true,
    is_leaf_iff h]

theorem anyInter_eq (h : List.Forall₂ (fun q x => Stands heap r root q (x :: up)) ps f.members) :
    anyInter heap ps = .ok (f.members.any inner) := by
  generalize f.members = xs at h
  induction h with
  | nil => rfl
  | cons hq hrest ih =>
    obtain ⟨node, hnode, -, hbelow⟩ := hq.node
    rw [anyInter, deref_of_get hnode, List.any_cons, ← is_inter_eq hbelow]
    simp only [Except.bind]
    split
    next hinter => rw [hinter, Bool.true_or]
    next hinter =>
      rw [Bool.not_eq_true] at hinter
      rw [ih, hinter, Bool.false_or]

theorem is_cross_layer_eq {node : HieraShardNode} (h : Stands heap r root p (s :: up))
    (hnode : heap[p]? = some node) : is_cross_layer heap node = .ok (crossLayer s) :=
  anyInter_eq (h.children hnode)

def Counts.after (counts : Counts) (shards : List (Rooted Int)) : Counts where
  intra := counts.intra + shards.countP fun s => !inner s
  inter := counts.inter + shards.countP inner
  cross_layer := counts.cross_layer + shards.countP crossLayer

theorem Counts.after_append (counts : Counts) (a b : List (Rooted Int)) :
    counts.after (a ++ b) = (counts.after a).after b := by
  simp only [Counts.after, List.countP_append, Nat.cast_add, Int.add_assoc]

theorem Counts.after_cons (counts : Counts) (a : Rooted Int) (l : List (Rooted Int)) :
    counts.after (a :: l) = (counts.after [a]).after l := Counts.after_append counts [a] l

theorem dfs_step {fuel : Nat} {counts : Counts} {node : HieraShardNode} (h : Stands heap r root p (s :: up))
    (hnode : heap[p]? = some node) :
    dfs heap (fuel + 1) p counts = dfsChildren (dfs heap fuel) node.children 0 (counts.after [s]) := by
  obtain ⟨node', hnode', -, hbelow⟩ := h.node
  rw [hnode] at hnode'
  cases hnode'
  have hinter := is_inter_eq hbelow
  have hleaf : is_leaf node = !inner s := by
    rw [← hinter, is_inter, Bool.not_not]
  rw [dfs, deref_of_get hnode]
  simp only [Except.bind]
  rw [is_cross_layer_eq h hnode]
  simp only [Counts.after, hleaf, hinter, List.countP_cons, List.countP_nil, Nat.zero_add, Nat.cast_ite,
    Nat.cast_one, Nat.cast_zero]

theorem dfsChildren_eq {fuel : Nat}
    (h : List.Forall₂ (fun q x => Stands heap r root q (x :: up)) ps f.members) (hfuel : f.depth ≤ fuel)
    (number : Int) (counts : Counts) :
    dfsChildren (dfs heap fuel) ps number counts = .ok (number + f.size, counts.after f.all) := by
  induction f generalizing ps up fuel number counts with
  | nil =>
    cases h
    simp only [dfsChildren, Forest.size, Forest.all, Counts.after, List.countP_nil, Nat.cast_zero,
      Int.add_zero]
  | cons label children siblings ihc ihs =>
    cases h with
    | @cons q _ ps _ hq hsiblings =>
      obtain ⟨node, hnode, -, -⟩ := hq.node
      have hdepth : 1 + children.depth ≤ fuel ∧ siblings.depth ≤ fuel := by
        rw [Forest.depth] at hfuel
        omega
      obtain ⟨fuel, rfl⟩ : ∃ k, fuel = k + 1 := ⟨fuel - 1, by omega⟩
      have hbelowEq := ihc (hq.children hnode) (by omega : children.depth ≤ fuel) 0
        (counts.after [(label, children)])
      have hrest := ihs hsiblings hdepth.2 (number + 1 + (0 + children.size))
        ((counts.after [(label, children)]).after children.all)
      rw [dfsChildren, dfs_step hq hnode, hbelowEq]
      simp only [Except.bind]
      rw [hrest, Forest.size, Forest.all, Counts.after_cons counts (label, children) (_ ++ _),
        Counts.after_append]
      congr 2
      push_cast
      omega

theorem IsTree.dfs {t : HieraShardTree} {tree : Rooted Int} (h : IsTree t tree) (counts : Counts) :
    HieraShardTree.dfs t.heap (t.heap.length + 1) t.root counts
      = .ok ((tree.2.size : Int), counts.after tree.all) := by
  have hroot := h.stands
  obtain ⟨node, hnode, -, -⟩ := hroot.node
  have hsize := h.size_lt
  have hdepth := depth_le_size tree.2
  rw [dfs_step hroot hnode, dfsChildren_eq (hroot.children hnode) (by omega), Rooted.all,
    Counts.after_cons counts tree tree.2.all, Int.zero_add]

/-! ### Descendants -/

theorem allChildren_eq {fuel : Nat}
    (h : List.Forall₂ (fun q x => Stands heap r root q (x :: up)) ps f.members) (hfuel : f.depth ≤ fuel)
    (ids : List Int) : allChildren (get_all_child heap fuel) heap ps ids = .ok (ids ++ f.labels) := by
  induction f generalizing ps up fuel ids with
  | nil =>
    cases h
    rw [allChildren]
    exact congrArg _ (List.append_nil ids).symm
  | cons label children siblings ihc ihs =>
    cases h with
    | @cons q _ ps _ hq hsiblings =>
      obtain ⟨node, hnode, hid, -⟩ := hq.node
      have hdepth : 1 + children.depth ≤ fuel ∧ siblings.depth ≤ fuel := by
        rw [Forest.depth] at hfuel
        omega
      obtain ⟨fuel, rfl⟩ : ∃ k, fuel = k + 1 := ⟨fuel - 1, by omega⟩
      have hbelowEq := ihc (hq.children hnode) (by omega : children.depth ≤ fuel) (ids ++ [label])
      rw [allChildren, deref_of_get hnode]
      simp only [Except.bind, hid]
      rw [get_all_child, deref_of_get hnode]
      simp only [Except.bind]
      rw [hbelowEq]
      simp only
      rw [ihs hsiblings hdepth.2, labels_cons, List.append_assoc, List.append_assoc]
      rfl

theorem Stands.get_all_child (h : Stands heap r root p (s :: up)) {fuel : Nat} (hfuel : s.2.depth < fuel)
    (ids : List Int) : HieraShardTree.get_all_child heap fuel p ids = .ok (ids ++ s.2.labels) := by
  obtain ⟨node, hnode, -, -⟩ := h.node
  obtain ⟨fuel, rfl⟩ : ∃ k, fuel = k + 1 := ⟨fuel - 1, by omega⟩
  rw [HieraShardTree.get_all_child, deref_of_get hnode]
  exact allChildren_eq (h.children hnode) (by omega) ids

end holds

end HieraChain.HieraShardTree
