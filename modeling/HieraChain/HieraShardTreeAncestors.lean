/-
  HieraChain/HieraShardTreeAncestors.lean
  =======================================
  **The lowest common ancestor of two shards.**

  The links of the shards give the lowest common ancestor of any two of them
  (`Stands.getLCA`).

  `HieraShardTree::getLCA` compares the texts of the shards above, and splits the
  text of the first shard twice (`shard_1_upper` instead of `shard_2_upper`).
  The two lists are the same, so that the first text of the list is the answer
  where both shards have children or neither has any, and an exception
  (`IsTree.getLCA_eq`).
-/
import HieraChain.HieraShardTreeLoading

namespace HieraChain.HieraShardTree

open HieraChain.BigEndian HieraChain.Decimal HieraChain.Forest

section tree

variable {heap : Heap} {root : Rooted Int} {r p q : Nat} {s : Rooted Int} {up l : List (Rooted Int)}

/-! ### Going up the links -/

theorem Stands.unique (hdistinct : root.labels.Nodup) (hp : Stands heap r root p l)
    (hq : Stands heap r root q l) : p = q := by
  induction hp generalizing q with
  | root =>
    cases hq
    rfl
  | @child p₁ p parentNode node s parent up hparent hparentNode hmem hs hnode hid hlink hbelow ih =>
    cases hq with
    | @child p₂ _ parentNode' node' _ _ _ hparent' hparentNode' hmem' hs' hnode' hid' hlink' hbelow' =>
      obtain rfl := ih hparent'
      rw [hparentNode] at hparentNode'
      cases hparentNode'
      -- both are the child with the id of the tree
      have hchildren := hparent.children hparentNode
      have hlabels : (parent.2.members.map Prod.fst).Nodup :=
        (List.nodup_flatMap.mp (nodup_children hdistinct).1).1 parent
          (hparent.path.mem_all parent List.mem_cons_self)
      obtain ⟨i, hi, rfl⟩ := List.mem_iff_getElem.mp hmem
      obtain ⟨j, hj, rfl⟩ := List.mem_iff_getElem.mp hmem'
      have hlength := hchildren.length_eq
      have hlabel : ∀ (k : Nat) (hk : k < parentNode.children.length) {child : HieraShardNode},
          heap[parentNode.children[k]]? = some child → child.internal_groupId = s.1 →
          (parent.2.members.map Prod.fst)[k]? = some s.1 := by
        intro k hk child hchild hsame
        obtain ⟨child', hchild', hid', -⟩ := (hchildren.get hk (by omega)).node
        rw [List.get_eq_getElem, hchild] at hchild'
        cases hchild'
        rw [List.getElem?_map, List.getElem?_eq_getElem (by omega), Option.map_some, ← hsame, hid']
        rfl
      have hsame := (hlabel i hi hnode hid).trans (hlabel j hj hnode' hid').symm
      have hij : i = j := (List.getElem?_inj (by rw [List.length_map]; omega) hlabels).mp hsame
      subst hij
      rfl

theorem hierarchy_get {node : HieraShardNode} (h : heap[p]? = some node) :
    (hierarchy heap)[p]? = some ⟨node.internal_groupId, node.coordinator⟩ := by
  rw [hierarchy, List.getElem?_map, h, Option.map_some]

theorem Stands.path_unique (hdistinct : root.labels.Nodup) {l' : List (Rooted Int)} (h : Stands heap r root p l)
    (h' : Stands heap r root p l') : l = l' := by
  obtain ⟨s, up, rfl⟩ := List.exists_cons_of_ne_nil h.path.ne_nil
  obtain ⟨s', up', rfl⟩ := List.exists_cons_of_ne_nil h'.path.ne_nil
  obtain ⟨node, hnode, hid, -⟩ := h.node
  obtain ⟨node', hnode', hid', -⟩ := h'.node
  rw [hnode] at hnode'
  cases hnode'
  obtain ⟨rfl, rfl⟩ := h.path.unique hdistinct h'.path (hid.symm.trans hid')
  rfl

theorem Stands.ancestors (hdistinct : root.labels.Nodup) (h : Stands heap r root p l) {fuel : Nat}
    (hfuel : l.length ≤ fuel) :
    ∃ qs, ancestorsOf (hierarchy heap) fuel (some p) = .ok qs
      ∧ ∀ q l', Stands heap r root q l' → (q ∈ qs ↔ l' <:+ l) := by
  have hself : ∀ {p l}, Stands heap r root p l → ∀ q l', Stands heap r root q l' → (q = p ↔ l' = l) := by
    intro p l hp q l' hq
    constructor
    · rintro rfl
      exact hq.path_unique hdistinct hp
    · rintro rfl
      exact hq.unique hdistinct hp
  induction h generalizing fuel with
  | root hnode hid hlink hbelow =>
    obtain ⟨fuel, rfl⟩ : ∃ k, fuel = k + 1 := ⟨fuel - 1, by rw [List.length_singleton] at hfuel; omega⟩
    refine ⟨[r], ?_, fun q l' hq => ?_⟩
    · rw [ancestorsOf, hierarchy_get hnode]
      simp only [hlink, ancestorsOf]
      rfl
    · rw [List.mem_singleton, hself (Stands.root hnode hid hlink hbelow) q l' hq, List.suffix_cons_iff,
        List.suffix_nil]
      exact ⟨Or.inl, fun hor => hor.resolve_right hq.path.ne_nil⟩
  | @child p₁ p parentNode node s parent up hparent hparentNode hmem hs hnode hid hlink hbelow ih =>
    rw [List.length_cons] at hfuel
    obtain ⟨fuel, rfl⟩ : ∃ k, fuel = k + 1 := ⟨fuel - 1, by omega⟩
    obtain ⟨qs, hqs, hiff⟩ := ih (Nat.le_of_succ_le_succ hfuel)
    refine ⟨p :: qs, ?_, fun q l' hq => ?_⟩
    · rw [ancestorsOf, hierarchy_get hnode]
      simp only [hlink, hqs]
      rfl
    · rw [List.mem_cons, hiff q l' hq,
        hself (Stands.child hparent hparentNode hmem hs hnode hid hlink hbelow) q l' hq]
      exact List.suffix_cons_iff.symm

theorem Stands.firstAncestor {qs : List Nat} {a : Int}
    (hqs : ∀ q x rest, Stands heap r root q (x :: rest) → (q ∈ qs ↔ Above root x.1 a))
    (hroot : Above root root.1 a) (h : Stands heap r root p l) {fuel : Nat} (hfuel : l.length ≤ fuel) :
    ∃ pre c rest q, l = pre ++ c :: rest ∧ Stands heap r root q (c :: rest) ∧ Above root c.1 a
      ∧ (∀ x ∈ pre, ¬ Above root x.1 a)
      ∧ firstAncestor (hierarchy heap) qs fuel (some p) = .ok (some q) := by
  induction h generalizing fuel with
  | root hnode hid hlink hbelow =>
    obtain ⟨fuel, rfl⟩ : ∃ k, fuel = k + 1 := ⟨fuel - 1, by rw [List.length_singleton] at hfuel; omega⟩
    have hstands := Stands.root hnode hid hlink hbelow
    refine ⟨[], root, [], r, rfl, hstands, hroot, List.forall_mem_nil _, ?_⟩
    rw [HieraShardTree.firstAncestor, if_pos ((hqs r root [] hstands).mpr hroot)]
  | @child p₁ p parentNode node s parent up hparent hparentNode hmem hs hnode hid hlink hbelow ih =>
    rw [List.length_cons] at hfuel
    obtain ⟨fuel, rfl⟩ : ∃ k, fuel = k + 1 := ⟨fuel - 1, by omega⟩
    have hstands := Stands.child hparent hparentNode hmem hs hnode hid hlink hbelow
    by_cases habove : Above root s.1 a
    · refine ⟨[], s, parent :: up, p, rfl, hstands, habove, List.forall_mem_nil _, ?_⟩
      rw [HieraShardTree.firstAncestor, if_pos ((hqs p s _ hstands).mpr habove)]
    · obtain ⟨pre, c, rest, q, hl, hq, hc, hpre, hfirst⟩ := ih (Nat.le_of_succ_le_succ hfuel)
      refine ⟨s :: pre, c, rest, q, by rw [hl]; rfl, hq, hc, ?_, ?_⟩
      · intro x hx
        rcases List.mem_cons.mp hx with rfl | hx
        · exact habove
        · exact hpre x hx
      · rw [HieraShardTree.firstAncestor, if_neg (fun hin => habove ((hqs p s _ hstands).mp hin)),
          hierarchy_get hnode]
        simp only [hlink, hfirst]

theorem Stands.getLCA (hdistinct : root.labels.Nodup) {s' : Rooted Int} {up' : List (Rooted Int)}
    (hp : Stands heap r root p (s :: up)) (hq : Stands heap r root q (s' :: up'))
    (hlength : root.2.depth < heap.length) :
    ∃ c rest x, Hierarchical_Shard.getLCA (hierarchy heap) (some p) (some q) = .ok (some x)
      ∧ Stands heap r root x (c :: rest) ∧ IsLCA root s.1 s'.1 c.1 := by
  have hfuel := hp.path.length_le
  have hfuel' := hq.path.length_le
  have hsize : (hierarchy heap).length = heap.length := List.length_map ..
  obtain ⟨qs, hqs, hiff⟩ := hp.ancestors hdistinct
    (by rw [List.length_cons, hsize]; omega : (s :: up).length ≤ (hierarchy heap).length)
  have habove : ∀ x c rest, Stands heap r root x (c :: rest) → (x ∈ qs ↔ Above root c.1 s.1) := by
    intro x c rest hx
    rw [hiff x _ hx]
    constructor
    · rintro ⟨pre, heq⟩
      rw [above_iff hdistinct hp.path, ← heq, List.map_append, List.map_cons]
      exact List.mem_append_right _ List.mem_cons_self
    · intro hc
      obtain ⟨pre, y, rest', heq, hy, hpath⟩ := Above.suffix hdistinct hp.path hc
      obtain ⟨rfl, rfl⟩ := hpath.unique hdistinct hx.path hy
      exact ⟨pre, heq.symm⟩
  have hroot : Above root root.1 s.1 := by
    obtain ⟨pre, hpre⟩ := hp.path.last
    rw [above_iff hdistinct hp.path, hpre, List.map_append]
    exact List.mem_append_right _ List.mem_cons_self
  obtain ⟨pre, c, rest, x, heq, hx, hc, hpre, hfirst⟩ := hq.firstAncestor habove hroot
    (by rw [List.length_cons, hsize]; omega : (s' :: up').length ≤ (hierarchy heap).length)
  refine ⟨c, rest, x, ?_, hx, (isLCA_of_first hdistinct hq.path heq hc hpre).symm⟩
  rw [Hierarchical_Shard.getLCA, hqs]
  exact hfirst

/-! ### The texts of the shards above -/

/-- The ids of the shards above: the shard itself where it has children, the shards
    from the second one above on with their siblings, and the root. -/
def upperIds (root : Rooted Int) : List (Rooted Int) → List Int
  | s :: _ :: above =>
    (if inner s then [s.1] else []) ++ ((above.flatMap fun g => g.2.members.map Prod.fst) ++ [root.1])
  | _ => [root.1]

def withCommas (ids : List Int) : Bytes := ids.flatMap fun id => to_string id ++ [comma]

theorem withCommas_cons (id : Int) (ids : List Int) :
    withCommas (id :: ids) = to_string id ++ comma :: withCommas ids := by
  rw [withCommas, List.flatMap_cons, List.append_assoc]
  rfl

theorem withCommas_append (ids ids' : List Int) : withCommas (ids ++ ids') = withCommas ids ++ withCommas ids' :=
  List.flatMap_append

theorem joinIds_concat (ids : List Int) (id : Int) : joinIds (ids ++ [id]) = withCommas ids ++ to_string id := by
  induction ids with
  | nil => rfl
  | cons id' ids ih =>
    have hjoin : joinIds (id' :: ids ++ [id]) = to_string id' ++ comma :: joinIds (ids ++ [id]) := by
      cases ids with
      | nil => rfl
      | cons id'' ids => rfl
    rw [hjoin, ih, withCommas_cons, List.append_assoc, List.cons_append]

theorem childTexts_eq {ps : List Nat} {xs : List (Rooted Int)}
    (h : List.Forall₂ (fun q x => Stands heap r root q (x :: up)) ps xs) :
    childTexts heap ps = .ok (withCommas (xs.map Prod.fst)) := by
  induction h with
  | nil => rfl
  | cons hq hrest ih =>
    obtain ⟨node, hnode, hid, -⟩ := hq.node
    rw [childTexts, deref_of_get hnode, ih, List.map_cons, withCommas_cons, ← hid]
    rfl

theorem Stands.upperTexts (h : Stands heap r root p l) {fuel : Nat} (hfuel : l.length ≤ fuel) (text : Bytes) :
    upperTexts heap fuel p text
      = .ok (text ++ joinIds ((l.tail.flatMap fun g => g.2.members.map Prod.fst) ++ [root.1])) := by
  induction h generalizing fuel text with
  | root hnode hid hlink hbelow =>
    obtain ⟨fuel, rfl⟩ : ∃ k, fuel = k + 1 := ⟨fuel - 1, by rw [List.length_singleton] at hfuel; omega⟩
    rw [HieraShardTree.upperTexts, deref_of_get hnode]
    simp only [Except.bind, hlink, hid]
    rfl
  | @child p₁ p parentNode node s parent up hparent hparentNode hmem hs hnode hid hlink hbelow ih =>
    rw [List.length_cons] at hfuel
    obtain ⟨fuel, rfl⟩ : ∃ k, fuel = k + 1 := ⟨fuel - 1, by omega⟩
    rw [HieraShardTree.upperTexts, deref_of_get hnode]
    simp only [Except.bind, hlink]
    rw [deref_of_get hparentNode]
    simp only
    rw [childTexts_eq (hparent.children hparentNode)]
    simp only
    rw [ih (Nat.le_of_succ_le_succ hfuel), List.tail_cons, List.tail_cons, List.flatMap_cons,
      List.append_assoc (parent.2.members.map Prod.fst), joinIds_concat, ← List.append_assoc (_ : List Int),
      joinIds_concat, withCommas_append, List.append_assoc, List.append_assoc]

end tree

section

variable {t : HieraShardTree} {tree : Rooted Int} {p : Nat} {s s' : Rooted Int} {up up' : List (Rooted Int)}

theorem IsTree.shardOf_eq (h : IsTree t tree) (hpath : Path tree (s :: up)) :
    ∃ q node, get_shard_by_internal_groupId t s.1 = .ok (some q) ∧ t.heap[q]? = some node
      ∧ shardOf t s.1 = .ok node ∧ node.internal_groupId = s.1 ∧ Stands t.heap t.root tree q (s :: up) := by
  obtain ⟨q, hq, hstands⟩ := h.search_of_path hpath
  obtain ⟨node, hnode, hid, -⟩ := hstands.node
  refine ⟨q, node, hq, hnode, ?_, hid, hstands⟩
  rw [shardOf, hq]
  exact deref_of_get hnode

theorem IsTree.coordinatorText_eq (h : IsTree t tree) (hpath : Path tree (s :: up)) {q : Nat}
    {node : HieraShardNode} (hnode : t.heap[q]? = some node) (hstands : Stands t.heap t.root tree q (s :: up)) :
    coordinatorText t s.1 node = .ok (joinIds (upperIds tree (s :: up))) := by
  have hself := hstands
  cases hstands with
  | root hnode' hid hlink hbelow =>
    rw [hnode] at hnode'
    cases hnode'
    rw [coordinatorText, hlink]
    rfl
  | @child p₁ _ parentNode node' _ parent up hparent hparentNode hmem hs hnode' hid hlink hbelow =>
    rw [hnode] at hnode'
    cases hnode'
    obtain ⟨q', node', hsearch, hnode', hshard, -, hstands'⟩ := h.shardOf_eq hpath
    obtain rfl := hstands'.unique h.distinct hself
    rw [hnode] at hnode'
    cases hnode'
    have hlength := hparent.path.length_le
    have hsize := h.size_lt
    have hdepth := depth_le_size tree.2
    rw [coordinatorText, hlink, hshard]
    simp only [Except.bind]
    rw [hparent.upperTexts (by rw [List.length_cons]; omega), is_inter_eq hbelow, upperIds, List.tail_cons]
    split
    · rw [← List.append_assoc (_ : List Int), joinIds_concat, joinIds_concat, List.singleton_append,
        withCommas_cons, List.append_assoc, List.append_assoc]
      rfl
    · rfl

theorem IsTree.info (h : IsTree t tree) (hpath : Path tree (s :: up)) :
    ∃ lower, get_shard_info_by_internal_groupId t s.1 = .ok (joinIds (upperIds tree (s :: up)), lower) := by
  obtain ⟨q, node, hsearch, hnode, -, -, hstands⟩ := h.shardOf_eq hpath
  have hlength := hpath.length_le
  have hsize := h.size_lt
  have hdepth := depth_le_size tree.2
  rw [get_shard_info_by_internal_groupId, hsearch]
  simp only [Except.bind, deref_of_get hnode]
  rw [h.coordinatorText_eq hpath hnode hstands]
  simp only
  split
  · exact ⟨_, rfl⟩
  · rw [hstands.get_all_child (by omega)]
    exact ⟨_, rfl⟩

/-! ### The comparison -/

theorem upperIds_ne_nil (root : Rooted Int) (l : List (Rooted Int)) : upperIds root l ≠ [] := by
  unfold upperIds
  split
  · rw [← List.append_assoc]
    exact List.append_ne_nil_of_right_ne_nil _ (List.cons_ne_nil _ _)
  · exact List.cons_ne_nil _ _

theorem upperIds_subset (hpath : Path tree (s :: up)) : ∀ id ∈ upperIds tree (s :: up), id ∈ tree.labels := by
  have hroot : tree.1 ∈ tree.labels := List.mem_cons_self
  intro id hid
  cases up with
  | nil =>
    obtain rfl := List.mem_singleton.mp hid
    exact hroot
  | cons parent above =>
    rw [upperIds, List.mem_append, List.mem_append, List.mem_singleton] at hid
    rcases hid with hid | hid | rfl
    · split at hid
      · obtain rfl := List.mem_singleton.mp hid
        exact List.mem_map_of_mem (hpath.mem_all s List.mem_cons_self)
      · cases hid
    · obtain ⟨g, hg, hid⟩ := List.mem_flatMap.mp hid
      obtain ⟨x, hx, rfl⟩ := List.mem_map.mp hid
      have hall := hpath.mem_all g (List.mem_cons_of_mem _ (List.mem_cons_of_mem _ hg))
      refine List.mem_map_of_mem (List.mem_cons_of_mem _ ?_)
      rcases List.mem_cons.mp hall with rfl | hall
      · exact members_subset_all hx
      · exact all_subset hall (members_subset_all hx)
    · exact hroot

theorem upper_notMem (hdistinct : tree.labels.Nodup) {parent : Rooted Int} {above : List (Rooted Int)}
    (hpath : Path tree (s :: parent :: above)) :
    s.1 ∉ (above.flatMap fun g => g.2.members.map Prod.fst) ++ [tree.1] := by
  obtain ⟨hparent, hs⟩ := hpath.tail
  have hchildren := nodup_flatMap_children hdistinct hparent.nodup hparent.mem_all
  rw [List.flatMap_cons, List.nodup_append] at hchildren
  intro hmem
  rcases List.mem_append.mp hmem with hmem | hmem
  · exact hchildren.2.2 s.1 (List.mem_map_of_mem hs) s.1 hmem rfl
  · exact root_not_child hdistinct (hparent.mem_all parent List.mem_cons_self) hs (List.mem_singleton.mp hmem)

theorem upperIds_nodup (hdistinct : tree.labels.Nodup) (hpath : Path tree (s :: up)) :
    (upperIds tree (s :: up)).Nodup := by
  cases up with
  | nil => exact List.nodup_singleton _
  | cons parent above =>
    have hparent := hpath.tail.1
    have hchildren := nodup_flatMap_children hdistinct hparent.nodup hparent.mem_all
    rw [List.flatMap_cons, List.nodup_append] at hchildren
    have hroot : tree.1 ∉ above.flatMap fun g => g.2.members.map Prod.fst := by
      intro hmem
      obtain ⟨g, hg, hid⟩ := List.mem_flatMap.mp hmem
      obtain ⟨x, hx, hid⟩ := List.mem_map.mp hid
      exact root_not_child hdistinct (hparent.mem_all g (List.mem_cons_of_mem _ hg)) hx hid
    have hrest : ((above.flatMap fun g => g.2.members.map Prod.fst) ++ [tree.1]).Nodup := by
      refine List.nodup_append.mpr ⟨hchildren.2.1, List.nodup_singleton _, fun id hid id' hid' heq => ?_⟩
      rw [heq, List.mem_singleton.mp hid'] at hid
      exact hroot hid
    rw [upperIds]
    split
    · exact List.nodup_cons.mpr ⟨upper_notMem hdistinct hpath, hrest⟩
    · exact hrest

theorem firstEqual_comm (ids ids' : List Bytes) : firstEqual ids ids' = firstEqual ids' ids := by
  induction ids generalizing ids' with
  | nil =>
    cases ids' with
    | nil => rfl
    | cons id' ids' => rfl
  | cons id ids ih =>
    cases ids' with
    | nil => rfl
    | cons id' ids' =>
      rw [firstEqual, firstEqual, ih]
      by_cases heq : id = id'
      · rw [if_pos heq, if_pos heq.symm, heq]
      · rw [if_neg heq, if_neg (Ne.symm heq)]

theorem firstEqual_tail {ids : List Bytes} (h : ids.Nodup) : firstEqual ids ids.tail = .error .outOfRange := by
  induction ids with
  | nil => rfl
  | cons id ids ih =>
    rw [List.nodup_cons] at h
    cases ids with
    | nil => rfl
    | cons id' ids =>
      rw [List.tail_cons, firstEqual, if_neg (fun heq : id = id' => h.1 (heq ▸ List.mem_cons_self))]
      exact ih h.2

theorem IsTree.getLCA_eq (h : IsTree t tree) (hpath : Path tree (s :: up)) (hpath' : Path tree (s' :: up')) :
    getLCA t s.1 s'.1 = if inner s = inner s' then .ok ((upperIds tree (s :: up)).headD 0)
      else .error .outOfRange := by
  obtain ⟨lower, hinfo⟩ := h.info hpath
  obtain ⟨lower', hinfo'⟩ := h.info hpath'
  obtain ⟨q, node, -, hnode, hshard, -, hstands⟩ := h.shardOf_eq hpath
  obtain ⟨q', node', -, hnode', hshard', -, hstands'⟩ := h.shardOf_eq hpath'
  have hleaf : ∀ {q : Nat} {node : HieraShardNode} {s up}, t.heap[q]? = some node →
      Stands t.heap t.root tree q (s :: up) → is_leaf node = !inner s := by
    intro q node s up hnode hstands
    obtain ⟨node', hnode', -, hbelow⟩ := hstands.node
    rw [hnode] at hnode'
    cases hnode'
    rw [← is_inter_eq hbelow, is_inter, Bool.not_not]
  have hnodup : ((upperIds tree (s :: up)).map to_string).Nodup := by
    refine (upperIds_nodup h.distinct hpath).map_on fun id hid id' hid' heq => ?_
    have hrange := h.ids id (upperIds_subset hpath id hid)
    have hrange' := h.ids id' (upperIds_subset hpath id' hid')
    rw [← atoi_to_string hrange.1 hrange.2, heq, atoi_to_string hrange'.1 hrange'.2]
  rw [getLCA, hinfo, hinfo']
  simp only [Except.bind, hshard, hshard', split_joinIds (upperIds_ne_nil tree (s :: up)), hleaf hnode hstands,
    hleaf hnode' hstands']
  have hsame : firstEqual ((upperIds tree (s :: up)).map to_string) ((upperIds tree (s :: up)).map to_string)
      = .ok ((upperIds tree (s :: up)).headD 0) := by
    cases hids : upperIds tree (s :: up) with
    | nil => exact absurd hids (upperIds_ne_nil _ _)
    | cons id ids =>
      have hrange := h.ids id (upperIds_subset hpath id (by rw [hids]; exact List.mem_cons_self))
      rw [List.map_cons, firstEqual, if_pos rfl, atoi_to_string hrange.1 hrange.2]
      rfl
  have htail := firstEqual_tail hnodup
  rw [← List.drop_one] at htail
  cases hs : inner s with
  | false =>
    cases hs' : inner s' with
    | false =>
      simp only [Nat.le_refl, if_true, Nat.sub_self, List.drop_zero]
      exact hsame
    | true =>
      simp only [Bool.not_false, Bool.not_true, if_true, Bool.false_eq_true, if_false, Nat.add_zero,
        Nat.le_add_right, Nat.add_sub_cancel_left]
      exact htail
  | true =>
    cases hs' : inner s' with
    | false =>
      simp only [Bool.not_false, Bool.not_true, if_true, Bool.false_eq_true, if_false, Nat.add_zero,
        Nat.add_sub_cancel_left, Bool.true_eq_false]
      rw [if_neg (by omega), firstEqual_comm]
      exact htail
    | true =>
      simp only [Nat.le_refl, if_true, Nat.sub_self, List.drop_zero]
      exact hsame

/-! ### The answers -/

/-- `getLCA` gives the lowest common ancestor, as the pointers do. -/
def RightLCA (t : HieraShardTree) (tree : Rooted Int) (a b : Int) : Prop :=
  ∃ c, getLCA t a b = .ok c ∧ IsLCA tree a b c
    ∧ ∃ p q x, get_shard_by_internal_groupId t a = .ok (some p) ∧ get_shard_by_internal_groupId t b = .ok (some q)
      ∧ Hierarchical_Shard.getLCA (hierarchy t.heap) (some p) (some q) = .ok (some x)
      ∧ (hierarchy t.heap)[x]?.map Hierarchical_Shard.id = some c

/-- The pairs whose lowest common ancestor is the first shard of the list. -/
inductive Answerable (tree : Rooted Int) (a b : Int) : Prop where
  /-- Both have children, and the first one is above the second. -/
  | inner {s s' : Rooted Int} (hs : s ∈ tree.all) (hs' : s' ∈ tree.all) (ha : s.1 = a) (hb : s'.1 = b)
      (hinner : inner s) (hinner' : inner s') (habove : Above tree a b)
  /-- There is one shard. -/
  | alone (htree : tree.2 = .nil)
  /-- Two leaves below the coordinator of the first one, which is the root or the
      first child of its own coordinator. -/
  | leaves {s p s' : Rooted Int} {above : List (Rooted Int)} (hpath : Path tree (s :: p :: above))
      (hs' : s' ∈ tree.all) (ha : s.1 = a) (hb : s'.1 = b) (hinner : ¬ HieraShardTree.inner s)
      (hinner' : ¬ HieraShardTree.inner s') (hne : a ≠ b) (habove : Above tree p.1 b)
      (hfirst : ∀ g rest, above = g :: rest → g.2.members.head? = some p)

theorem inner_eq_false : inner s = false ↔ s.2 = .nil := by
  rw [inner, decide_eq_false_iff_not, not_not]

theorem eq_of_above_leaf (hdistinct : tree.labels.Nodup) (hs : s ∈ tree.all) (hinner : inner s = false) {b : Int}
    (habove : Above tree s.1 b) : b = s.1 := by
  obtain ⟨x, up, hpath, rfl, hmem⟩ := habove
  obtain ⟨y, hy, hlabel⟩ := List.mem_map.mp hmem
  obtain rfl := eq_of_label hdistinct (hpath.mem_all y hy) hs hlabel
  obtain ⟨pre, rest, heq⟩ := List.append_of_mem hy
  rcases List.eq_nil_or_concat pre with rfl | ⟨pre, z, rfl⟩
  · rw [(List.cons.inj heq).1]
  · rw [List.concat_append] at heq
    have hz := (heq ▸ hpath : Path tree (pre ++ z :: y :: rest)).suffix.tail.2
    rw [inner_eq_false.mp hinner] at hz
    cases hz

theorem headD_upperIds (hpath : Path tree (s :: up)) (hinner : inner s = true) :
    (upperIds tree (s :: up)).headD 0 = s.1 := by
  cases hpath with
  | root => rfl
  | child hp hmem =>
    rw [upperIds, hinner]
    rfl

theorem isLCA_headD_iff (hdistinct : tree.labels.Nodup) {p : Rooted Int} {above : List (Rooted Int)}
    (hpath : Path tree (s :: p :: above)) (hinner : inner s = false) {b : Int} (hb : Above tree b b) :
    IsLCA tree s.1 b ((upperIds tree (s :: p :: above)).headD 0)
      ↔ s.1 ≠ b ∧ Above tree p.1 b ∧ ∀ g rest, above = g :: rest → g.2.members.head? = some p := by
  have hself := hpath.above_self
  have hup : upperIds tree (s :: p :: above) = (above.flatMap fun g => g.2.members.map Prod.fst) ++ [tree.1] := by
    rw [upperIds, hinner]
    rfl
  have hnotMem := upper_notMem hdistinct hpath
  have hlowest : s.1 ≠ b → Above tree p.1 b → IsLCA tree s.1 b p.1 := by
    intro hne habove
    refine ⟨(above_iff hdistinct hpath).mpr (List.mem_cons_of_mem _ List.mem_cons_self), habove, fun x hx hxb => ?_⟩
    rcases List.mem_cons.mp ((above_iff hdistinct hpath).mp hx) with rfl | hx
    · exact absurd (eq_of_above_leaf hdistinct (hpath.mem_all s List.mem_cons_self) hinner hxb) hne.symm
    · exact (above_iff hdistinct hpath.tail.1).mpr hx
  have hne : ∀ {c : Int}, c ∈ upperIds tree (s :: p :: above) → IsLCA tree s.1 b c → s.1 ≠ b := by
    rintro c hc hlca rfl
    rw [hlca.unique hdistinct (isLCA_of_above hself hself), hup] at hc
    exact hnotMem hc
  cases above with
  | nil =>
    have hroot : tree.1 = p.1 := by
      cases hpath.tail.1
      rfl
    rw [hup, List.flatMap_nil, List.nil_append, List.headD_cons, hroot]
    constructor
    · exact fun hlca => ⟨hne (by rw [hup, hroot]; exact List.mem_cons_self) hlca, hlca.right, nofun⟩
    · rintro ⟨hne, habove, -⟩
      exact hlowest hne habove
  | cons g rest =>
    obtain ⟨hg, hp⟩ := hpath.tail.1.tail
    obtain ⟨x, xs, hmembers⟩ := List.exists_cons_of_ne_nil (List.ne_nil_of_mem hp)
    have hhead : (upperIds tree (s :: p :: g :: rest)).headD 0 = x.1 := by
      rw [hup, List.flatMap_cons, hmembers]
      rfl
    rw [hhead]
    constructor
    · intro hlca
      have hdifferent := hne (by rw [hup, List.flatMap_cons, hmembers]; exact List.mem_cons_self) hlca
      -- a child of `g` on the path below `g`
      have hx : x ∈ g.2.members := by
        rw [hmembers]
        exact List.mem_cons_self
      have hxpath := hg.child hx
      have hsame : x = p := by
        have hmem := (above_iff hdistinct hpath).mp hlca.left
        obtain ⟨y, hy, hlabel⟩ := List.mem_map.mp hmem
        obtain rfl := eq_of_label hdistinct (hpath.mem_all y hy) (hxpath.mem_all x List.mem_cons_self) hlabel
        rcases List.mem_cons.mp hy with rfl | hy
        · refine absurd ?_ hnotMem
          rw [List.flatMap_cons, hmembers]
          exact List.mem_cons_self
        · rcases List.mem_cons.mp hy with rfl | hy
          · rfl
          · exact absurd hy (List.nodup_cons.mp hxpath.nodup).1
      subst hsame
      refine ⟨hdifferent, hlca.right, fun g' rest' heq => ?_⟩
      obtain ⟨rfl, rfl⟩ := List.cons.inj heq
      rw [hmembers, List.head?_cons]
    · rintro ⟨hne, habove, hfirst⟩
      have hsame := hfirst g rest rfl
      rw [hmembers, List.head?_cons, Option.some.injEq] at hsame
      rw [hsame]
      exact hlowest hne habove

theorem IsTree.rightLCA_paths (h : IsTree t tree) (hpath : Path tree (s :: up)) (hpath' : Path tree (s' :: up')) :
    RightLCA t tree s.1 s'.1
      ↔ inner s = inner s' ∧ IsLCA tree s.1 s'.1 ((upperIds tree (s :: up)).headD 0) := by
  have hsize := h.size_lt
  have hdepth := depth_le_size tree.2
  unfold RightLCA
  rw [h.getLCA_eq hpath hpath']
  constructor
  · rintro ⟨c, hc, hlca, -⟩
    split at hc
    next hinner => exact ⟨hinner, by cases hc; exact hlca⟩
    next => cases hc
  · rintro ⟨hinner, hlca⟩
    obtain ⟨p, hsearch, hstands⟩ := h.search_of_path hpath
    obtain ⟨q, hsearch', hstands'⟩ := h.search_of_path hpath'
    obtain ⟨c, rest, x, hx, hcstands, hlowest⟩ := hstands.getLCA h.distinct hstands' (by omega)
    obtain ⟨node, hnode, hid, -⟩ := hcstands.node
    refine ⟨_, if_pos hinner, hlca, p, q, x, hsearch, hsearch', hx, ?_⟩
    rw [hierarchy_get hnode, Option.map_some, hlca.unique h.distinct hlowest, ← hid]

/-- On a tree of shards, `getLCA` is right on these pairs and on no others. -/
theorem rightLCA_iff (t : HieraShardTree) (tree : Rooted Int) (h : IsTree t tree) (a b : Int)
    (ha : a ∈ tree.labels) (hb : b ∈ tree.labels) : RightLCA t tree a b ↔ Answerable tree a b := by
  obtain ⟨s, hs, rfl⟩ := List.mem_map.mp ha
  obtain ⟨s', hs', rfl⟩ := List.mem_map.mp hb
  obtain ⟨up, hpath⟩ := exists_path hs
  obtain ⟨up', hpath'⟩ := exists_path hs'
  have hsame : ∀ {x : Rooted Int}, x ∈ tree.all → x.1 = s.1 → x = s := fun hx => eq_of_label h.distinct hx hs
  have hsame' : ∀ {x : Rooted Int}, x ∈ tree.all → x.1 = s'.1 → x = s' := fun hx => eq_of_label h.distinct hx hs'
  have halone : tree.2 = .nil → s = tree ∧ s' = tree := by
    intro hnil
    rw [Rooted.all, hnil] at hs hs'
    exact ⟨List.mem_singleton.mp hs, List.mem_singleton.mp hs'⟩
  rw [h.rightLCA_paths hpath hpath']
  constructor
  · rintro ⟨hinner, hlca⟩
    cases hchildren : inner s with
    | true =>
      rw [headD_upperIds hpath hchildren] at hlca
      exact Answerable.inner hs hs' rfl rfl hchildren (hinner ▸ hchildren) hlca.right
    | false =>
      cases up with
      | nil =>
        cases hpath
        exact Answerable.alone (inner_eq_false.mp hchildren)
      | cons p above =>
        obtain ⟨hne, habove, hfirst⟩ := (isLCA_headD_iff h.distinct hpath hchildren hpath'.above_self).mp hlca
        exact Answerable.leaves hpath hs' rfl rfl (Bool.not_eq_true _ ▸ hchildren)
          (Bool.not_eq_true _ ▸ (hinner ▸ hchildren)) hne habove hfirst
  · intro hanswerable
    cases hanswerable with
    | inner hx hx' hlabel hlabel' hinner hinner' habove =>
      rw [hsame hx hlabel] at hinner
      rw [hsame' hx' hlabel'] at hinner'
      rw [headD_upperIds hpath hinner]
      exact ⟨hinner.trans hinner'.symm, isLCA_of_above habove hpath.above_self⟩
    | alone hnil =>
      obtain ⟨rfl, rfl⟩ := halone hnil
      obtain ⟨-, rfl⟩ := hpath.unique h.distinct Path.root rfl
      exact ⟨rfl, isLCA_of_above Path.root.above_self Path.root.above_self⟩
    | leaves hleaf hx' hlabel hlabel' hinner hinner' hne habove hfirst =>
      obtain rfl := hsame' hx' hlabel'
      obtain ⟨rfl, rfl⟩ := hleaf.unique h.distinct hpath hlabel
      rw [Bool.not_eq_true] at hinner hinner'
      exact ⟨hinner.trans hinner'.symm,
        (isLCA_headD_iff h.distinct hpath hinner hpath'.above_self).mpr ⟨hne, habove, hfirst⟩⟩

def sampleTree : Rooted Int :=
  (9, .cons 7 (.cons 1 .nil (.cons 2 .nil .nil)) (.cons 8 (.cons 3 .nil (.cons 4 .nil .nil)) .nil))

def sampleShards : HieraShardTree where
  heap := [⟨9, [1, 4], none⟩, ⟨7, [2, 3], some 0⟩, ⟨1, [], some 1⟩, ⟨2, [], some 1⟩, ⟨8, [5, 6], some 0⟩,
    ⟨3, [], some 4⟩, ⟨4, [], some 4⟩]

theorem isTree_sampleShards : IsTree sampleShards sampleTree where
  holds := ⟨⟨_, rfl, rfl, rfl,
      ⟨⟨_, rfl, rfl, rfl, ⟨_, rfl, rfl, rfl, trivial⟩, ⟨_, rfl, rfl, rfl, trivial⟩, trivial⟩,
        ⟨_, rfl, rfl, rfl, ⟨_, rfl, rfl, rfl, trivial⟩, ⟨_, rfl, rfl, rfl, trivial⟩, trivial⟩, trivial⟩⟩, trivial⟩
  distinct := by decide
  ids := by decide

theorem rightLCA_iff_sampleShards :
    IsTree sampleShards sampleTree ∧ (RightLCA sampleShards sampleTree 1 3 ↔ Answerable sampleTree 1 3) :=
  ⟨isTree_sampleShards,
    rightLCA_iff sampleShards sampleTree isTree_sampleShards 1 3 (by decide) (by decide)⟩

/-- The leaves 3 and 4 are below 8, and the answer is 7. -/
theorem not_rightLCA_sampleShards : IsTree sampleShards sampleTree ∧ 3 ∈ sampleTree.labels ∧ 4 ∈ sampleTree.labels
    ∧ ¬ RightLCA sampleShards sampleTree 3 4 := by
  refine ⟨isTree_sampleShards, by decide, by decide, ?_⟩
  rintro ⟨c, hc, hlca, -⟩
  have hanswer : getLCA sampleShards 3 4 = .ok 7 := rfl
  rw [hanswer] at hc
  cases hc
  have hpath : Path sampleTree [(3, .nil), (8, .cons 3 .nil (.cons 4 .nil .nil)), sampleTree] :=
    (Path.root.child (List.mem_cons_of_mem _ List.mem_cons_self)).child List.mem_cons_self
  have habove := (above_iff isTree_sampleShards.distinct hpath).mp hlca.left
  exact absurd habove (by decide)

end

end HieraChain.HieraShardTree
