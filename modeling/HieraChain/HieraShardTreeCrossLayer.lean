/-
  HieraChain/HieraShardTreeCrossLayer.lean
  ========================================
  **The two shards of a cross-layer transaction.**

  The shards are drawn from two subtrees of the coordinator, or one of them is the
  coordinator itself, and the second one is never its child.  Two kinds of draws
  go wrong.  Where one child has children, the place of a leaf among the leaves is
  drawn below the number of all children, which is one too many.  Where more have,
  the loop goes on as long as the draws name the subtree of the first shard.
-/
import HieraChain.HieraShardTreeAncestors

namespace HieraChain.HieraShardTree

open HieraChain.BigEndian HieraChain.Forest

def innerChildren (s : Rooted Int) : List (Rooted Int) := s.2.members.filter inner

/-- `get_cross_layer_childs` gives two shards of different subtrees, not both of them
    children. -/
def RightPair (t : HieraShardTree) (tree s : Rooted Int) (rand : Nat → Nat) : Prop :=
  ∃ fuel x y, get_cross_layer_childs t s.1 rand fuel = .ok (x, y) ∧ x ≠ y ∧ IsLCA tree x y s.1
    ∧ ¬ (x ∈ s.2.members.map Prod.fst ∧ y ∈ s.2.members.map Prod.fst)

/-- With one inner child, not the place behind the leaves; with more, at some time
    another child than the first one. -/
def GoodDraws (s : Rooted Int) (rand : Nat → Nat) : Prop :=
  if (innerChildren s).length = 1 then
    ¬ (rand 0 % 2 = 0 ∧ rand 1 % s.2.members.length = s.2.members.length - 1)
  else
    ∀ child, s.2.members[rand 0 % s.2.members.length]? = some child →
      ∃ k other, (innerChildren s)[rand (2 + k) % (innerChildren s).length]? = some other ∧ other ≠ child

section draws

variable {heap : Heap} {root : Rooted Int} {r : Nat} {up : List (Rooted Int)}
  {zs : List (Nat × HieraShardNode)} {xs : List (Rooted Int)}

def Points (heap : Heap) (r : Nat) (root : Rooted Int) (up : List (Rooted Int)) (z : Nat × HieraShardNode)
    (x : Rooted Int) : Prop :=
  heap[z.1]? = some z.2 ∧ Stands heap r root z.1 (x :: up)

theorem Points.id {z : Nat × HieraShardNode} {x : Rooted Int} (h : Points heap r root up z x) :
    z.2.internal_groupId = x.1 := by
  obtain ⟨node, hnode, hid, -⟩ := h.2.node
  rw [h.1] at hnode
  cases hnode
  exact hid

theorem Points.inner {z : Nat × HieraShardNode} {x : Rooted Int} (h : Points heap r root up z x) :
    is_inter z.2 = HieraShardTree.inner x := by
  obtain ⟨node, hnode, -, hbelow⟩ := h.2.node
  rw [h.1] at hnode
  cases hnode
  exact is_inter_eq hbelow

theorem derefAll_eq {ps : List Nat} (h : List.Forall₂ (fun q x => Stands heap r root q (x :: up)) ps xs) :
    ∃ zs, derefAll heap ps = .ok zs ∧ List.Forall₂ (Points heap r root up) zs xs := by
  induction h with
  | nil => exact ⟨[], rfl, List.Forall₂.nil⟩
  | cons hq hrest ih =>
    obtain ⟨zs, hzs, hpoints⟩ := ih
    obtain ⟨node, hnode, -, -⟩ := hq.node
    refine ⟨(_, node) :: zs, ?_, List.Forall₂.cons ⟨hnode, hq⟩ hpoints⟩
    rw [derefAll, deref_of_get hnode, hzs]
    rfl

theorem points_filter (h : List.Forall₂ (Points heap r root up) zs xs) :
    List.Forall₂ (Points heap r root up) (zs.filter fun z => is_inter z.2) (xs.filter inner) :=
  List.rel_filter (fun _ _ hz => by dsimp only; rw [hz.inner]) h

theorem points_filter_not (h : List.Forall₂ (Points heap r root up) zs xs) :
    List.Forall₂ (Points heap r root up) (zs.filter fun z => !is_inter z.2) (xs.filter fun x => !inner x) :=
  List.rel_filter (fun _ _ hz => by dsimp only; rw [hz.inner]) h

theorem drawBelow_eq {draw size : Nat} (h : 0 < size) : drawBelow draw size = .ok (draw % size) :=
  if_neg (by omega)

theorem at_points (h : List.Forall₂ (Points heap r root up) zs xs) {i : Nat} (hi : i < xs.length) :
    ∃ z, at_ zs i = .ok z ∧ Points heap r root up z xs[i] := by
  have hlength := h.length_eq
  refine ⟨zs[i], ?_, h.get (by omega) hi⟩
  rw [at_, List.getElem?_eq_getElem (by omega)]

theorem at_draw {α : Type} {l : List α} (h : l ≠ []) (draw : Nat) :
    ∃ i x, drawBelow draw l.length = .ok i ∧ at_ l i = .ok x ∧ x ∈ l := by
  have hpos := List.length_pos_iff.mpr h
  have hlt := Nat.mod_lt draw hpos
  refine ⟨draw % l.length, l[draw % l.length], drawBelow_eq hpos, ?_, List.getElem_mem hlt⟩
  rw [at_, List.getElem?_eq_getElem hlt]

/-! ### The loop -/

theorem drawOther_step (h : List.Forall₂ (Points heap r root up) zs xs) (hne : xs ≠ []) (other : Int)
    (rand : Nat → Nat) (fuel n : Nat) :
    ∃ z x, xs[rand n % xs.length]? = some x ∧ Points heap r root up z x
      ∧ drawOther zs other rand (fuel + 1) n
        = if x.1 = other then drawOther zs other rand fuel (n + 1) else .ok (n + 1, z) := by
  have hpos := List.length_pos_iff.mpr hne
  have hlt := Nat.mod_lt (rand n) hpos
  obtain ⟨z, hz, hpoints⟩ := at_points h hlt
  refine ⟨z, _, List.getElem?_eq_getElem hlt, hpoints, ?_⟩
  rw [drawOther, h.length_eq, drawBelow_eq hpos]
  simp only [Except.bind, hz, hpoints.id]

theorem drawOther_unending (h : List.Forall₂ (Points heap r root up) zs xs) (hne : xs ≠ []) {other : Int}
    {rand : Nat → Nat} {n : Nat} (hsame : ∀ k x, xs[rand (n + k) % xs.length]? = some x → x.1 = other)
    (fuel : Nat) : drawOther zs other rand fuel n = .error .unending := by
  induction fuel generalizing n with
  | zero => rfl
  | succ fuel ih =>
    obtain ⟨z, x, hx, -, hstep⟩ := drawOther_step h hne other rand fuel n
    rw [hstep, if_pos (hsame 0 x hx)]
    refine ih fun k x hx => hsame (k + 1) x ?_
    rw [← Nat.add_right_comm, Nat.add_assoc] at hx
    exact hx

theorem drawOther_ends (h : List.Forall₂ (Points heap r root up) zs xs) (hne : xs ≠ []) {other : Int}
    {rand : Nat → Nat} {k n : Nat} {x : Rooted Int} (hx : xs[rand (n + k) % xs.length]? = some x)
    (hother : x.1 ≠ other) :
    ∃ fuel m z y, drawOther zs other rand fuel n = .ok (m, z) ∧ y ∈ xs ∧ Points heap r root up z y ∧ y.1 ≠ other := by
  induction k generalizing n with
  | zero =>
    obtain ⟨z, x', hx', hpoints, hstep⟩ := drawOther_step h hne other rand 0 n
    rw [Nat.add_zero, hx'] at hx
    cases hx
    exact ⟨1, n + 1, z, x, by rw [hstep, if_neg hother], List.mem_of_getElem? hx', hpoints, hother⟩
  | succ k ih =>
    have hnext : xs[rand (n + 1 + k) % xs.length]? = some x := by
      rw [Nat.add_assoc, Nat.add_comm 1 k]
      exact hx
    obtain ⟨fuel, m, z, y, hdraw, hy⟩ := ih hnext
    obtain ⟨z', x', hx', hpoints, hstep⟩ := drawOther_step h hne other rand fuel n
    by_cases hsame : x'.1 = other
    · exact ⟨fuel + 1, m, z, y, by rw [hstep, if_pos hsame, hdraw], hy⟩
    · exact ⟨fuel + 1, n + 1, z', x', by rw [hstep, if_neg hsame], List.mem_of_getElem? hx', hpoints, hsame⟩

end draws

section pair

variable {t : HieraShardTree} {tree s : Rooted Int} {up : List (Rooted Int)} {zs : List (Nat × HieraShardNode)}

/-! ### The first shard -/

theorem first_of_many (h : IsTree t tree)
    (hzs : List.Forall₂ (Points t.heap t.root tree (s :: up)) zs s.2.members) (rand : Nat → Nat)
    (hmany : 1 < (innerChildren s).length) :
    ∃ e child, s.2.members[rand 0 % s.2.members.length]? = some child
      ∧ chooseDoubleSubShard_1 t.heap s.1 zs rand = .ok (e, child.1, 2) ∧ (e = s.1 ∨ e ∈ Rooted.labels child) := by
  have hpos : 0 < s.2.members.length := by
    have := List.length_filter_le inner s.2.members
    rw [innerChildren] at hmany
    omega
  have hlt := Nat.mod_lt (rand 0) hpos
  obtain ⟨z, hz, hpoints⟩ := at_points hzs hlt
  have hchild := List.getElem?_eq_getElem hlt
  generalize s.2.members[rand 0 % s.2.members.length] = child at hpoints hchild
  have hlength : (zs.filter fun z => is_inter z.2).length = (innerChildren s).length :=
    (points_filter hzs).length_eq
  have hdepth := hpoints.2.path.length_le
  have hsize := h.size_lt
  have hle := depth_le_size tree.2
  have hbelow := hpoints.2.get_all_child (by omega : child.2.depth < t.heap.length + 1) []
  obtain ⟨i, e, hi, he, hmem⟩ := at_draw (List.concat_ne_nil child.1 (child.2.labels ++ [s.1])) (rand 1)
  refine ⟨e, child, hchild, ?_, ?_⟩
  · unfold chooseDoubleSubShard_1
    simp only [hlength, if_pos hmany, hzs.length_eq, drawBelow_eq hpos, Except.bind, hz, hbelow, List.nil_append,
      hpoints.id, hi, he]
    rfl
  · rw [List.mem_append, List.mem_append, List.mem_singleton, List.mem_singleton] at hmem
    rcases hmem with (hmem | rfl) | rfl
    · exact Or.inr (List.mem_cons_of_mem _ hmem)
    · exact Or.inl rfl
    · exact Or.inr List.mem_cons_self

theorem first_of_one (hzs : List.Forall₂ (Points t.heap t.root tree (s :: up)) zs s.2.members) (rand : Nat → Nat)
    (hone : (innerChildren s).length = 1) :
    if rand 0 % 2 = 0 ∧ rand 1 % s.2.members.length = s.2.members.length - 1 then
      chooseDoubleSubShard_1 t.heap s.1 zs rand = .error .outOfRange
    else
      ∃ e n, chooseDoubleSubShard_1 t.heap s.1 zs rand = .ok (e, s.1, n)
        ∧ (e = s.1 ∨ ∃ leaf ∈ s.2.members, inner leaf = false ∧ e = leaf.1) := by
  have hnumber := List.length_eq_length_filter_add inner (l := s.2.members)
  have hleaves := points_filter_not hzs
  have hpos : 0 < s.2.members.length := by
    rw [innerChildren] at hone
    omega
  have hlt := Nat.mod_lt (rand 1) hpos
  have hlength : (zs.filter fun z => is_inter z.2).length = (innerChildren s).length :=
    (points_filter hzs).length_eq
  have hfirst : chooseDoubleSubShard_1 t.heap s.1 zs rand
      = if rand 0 % 2 = 0 then
          (at_ (zs.filter fun z => !is_inter z.2) (rand 1 % s.2.members.length)).map
            fun leaf => (leaf.2.internal_groupId, s.1, 2)
        else .ok (s.1, s.1, 1) := by
    unfold chooseDoubleSubShard_1
    simp only [hlength, hone, lt_irrefl, if_false, hzs.length_eq, drawBelow_eq hpos, Except.bind]
  rw [hfirst]
  rw [innerChildren] at hone
  split
  next hbad =>
    rw [if_pos hbad.1, at_, List.getElem?_eq_none (by rw [hleaves.length_eq]; omega)]
    rfl
  next hgood =>
    by_cases heven : rand 0 % 2 = 0
    · have hbound : rand 1 % s.2.members.length < (s.2.members.filter fun x => !inner x).length := by
        have : rand 1 % s.2.members.length ≠ s.2.members.length - 1 := fun heq => hgood ⟨heven, heq⟩
        omega
      obtain ⟨z, hz, hpoints⟩ := at_points hleaves hbound
      have hmem := List.getElem_mem hbound
      rw [List.mem_filter, Bool.not_eq_true'] at hmem
      refine ⟨_, 2, ?_, Or.inr ⟨_, hmem.1, hmem.2, rfl⟩⟩
      rw [if_pos heven, hz, ← hpoints.id]
      rfl
    · exact ⟨s.1, 1, if_neg heven, Or.inl rfl⟩

/-! ### The second shard -/

theorem second_ends (h : IsTree t tree)
    (hzs : List.Forall₂ (Points t.heap t.root tree (s :: up)) zs s.2.members) {rand : Nat → Nat} {other : Int}
    {k n : Nat} {x : Rooted Int} (hx : (innerChildren s)[rand (n + k) % (innerChildren s).length]? = some x)
    (hother : x.1 ≠ other) :
    ∃ fuel y w, y ∈ s.2.members ∧ inner y = true ∧ y.1 ≠ other ∧ w ∈ y.2.all
      ∧ chooseDoubleSubShard_2 t.heap zs rand fuel other n = .ok w.1 := by
  have hne : innerChildren s ≠ [] := List.ne_nil_of_mem (List.mem_of_getElem? hx)
  obtain ⟨fuel, m, z, y, hdraw, hy, hpoints, hyne⟩ := drawOther_ends (points_filter hzs) hne hx hother
  obtain ⟨hmem, hinner⟩ := List.mem_filter.mp hy
  have hdepth := hpoints.2.path.length_le
  have hsize := h.size_lt
  have hle := depth_le_size tree.2
  have hbelow := hpoints.2.get_all_child (by omega : y.2.depth < t.heap.length + 1) []
  have hlabels : y.2.labels ≠ [] := by
    obtain ⟨x, xs, hmembers⟩ := List.exists_cons_of_ne_nil (inner_iff_members.mp hinner)
    have hx : x ∈ y.2.members := by
      rw [hmembers]
      exact List.mem_cons_self
    exact List.ne_nil_of_mem (List.mem_map_of_mem (members_subset_all hx))
  obtain ⟨i, e, hi, he, hmemLabels⟩ := at_draw hlabels (rand m)
  obtain ⟨w, hw, rfl⟩ := List.mem_map.mp hmemLabels
  refine ⟨fuel, y, w, hmem, hinner, hyne, hw, ?_⟩
  rw [chooseDoubleSubShard_2]
  simp only [hdraw, Except.bind, hbelow, List.nil_append, hi, he]

theorem second_unending (hzs : List.Forall₂ (Points t.heap t.root tree (s :: up)) zs s.2.members)
    (hinner : innerChildren s ≠ []) {rand : Nat → Nat} {other : Int} {n : Nat}
    (hsame : ∀ k x, (innerChildren s)[rand (n + k) % (innerChildren s).length]? = some x → x.1 = other)
    (fuel : Nat) : chooseDoubleSubShard_2 t.heap zs rand fuel other n = .error .unending := by
  rw [chooseDoubleSubShard_2]
  simp only [drawOther_unending (points_filter hzs) hinner hsame]
  rfl

/-! ### Both -/

theorem right_of_branches (h : IsTree t tree) (hpath : Path tree (s :: up)) {e : Int} {y w : Rooted Int}
    (hy : y ∈ s.2.members) (hw : w ∈ y.2.all)
    (he : e = s.1 ∨ ∃ x ∈ s.2.members, x ≠ y ∧ e ∈ Rooted.labels x) :
    e ≠ w.1 ∧ IsLCA tree e w.1 s.1
      ∧ ¬ (e ∈ s.2.members.map Prod.fst ∧ w.1 ∈ s.2.members.map Prod.fst) := by
  have hself : w.1 ≠ s.1 := hpath.ne_of_all h.distinct (all_subset (members_subset_all hy) hw)
  have hnotMem := hpath.notMem_of_all h.distinct hy hw
  have hwy : w.1 ∈ Rooted.labels y := List.mem_map_of_mem (List.mem_cons_of_mem _ hw)
  rcases he with rfl | ⟨x, hx, hne, he⟩
  · obtain ⟨pre, hwpath⟩ := (hpath.child hy).exists_below (fun _ hmem => hmem) hw
    have habove : Above tree s.1 w.1 := by
      rw [above_iff h.distinct hwpath]
      refine List.mem_map_of_mem (List.mem_cons_of_mem _ (List.mem_append_right _ ?_))
      exact List.mem_cons_of_mem _ List.mem_cons_self
    exact ⟨hself.symm, isLCA_of_above habove hpath.above_self, fun hboth => hnotMem hboth.2⟩
  · have hlca := isLCA_of_branches h.distinct hpath hx hy hne he hwy
    refine ⟨?_, hlca, fun hboth => hnotMem hboth.2⟩
    rintro rfl
    obtain ⟨pre, hwpath⟩ := (hpath.child hy).exists_below (fun _ hmem => hmem) hw
    exact hself ((isLCA_of_above hwpath.above_self hwpath.above_self).unique h.distinct hlca)

/-- The two shards are right for these draws and no others. -/
theorem rightPair_iff (t : HieraShardTree) (tree : Rooted Int) (h : IsTree t tree) (s : Rooted Int)
    (hs : s ∈ tree.all) (hcross : (shardOf t s.1).bind (is_cross_layer t.heap) = .ok true) (rand : Nat → Nat) :
    RightPair t tree s rand ↔ GoodDraws s rand := by
  obtain ⟨up, hpath⟩ := exists_path hs
  obtain ⟨q, node, -, hnode, hshard, -, hstands⟩ := h.shardOf_eq hpath
  obtain ⟨zs, hderef, hzs⟩ := derefAll_eq (hstands.children hnode)
  have hinner : innerChildren s ≠ [] := by
    rw [hshard] at hcross
    have heq := (is_cross_layer_eq hstands hnode).symm.trans hcross
    obtain ⟨x, hx, hxinner⟩ := List.any_eq_true.mp (Except.ok.inj heq)
    exact List.ne_nil_of_mem (List.mem_filter.mpr ⟨hx, hxinner⟩)
  have hpos := List.length_pos_iff.mpr hinner
  have hmember : ∀ {x}, x ∈ innerChildren s → x ∈ s.2.members := fun hx => List.mem_of_mem_filter hx
  have hrun : ∀ fuel, get_cross_layer_childs t s.1 rand fuel
      = (chooseDoubleSubShard_1 t.heap s.1 zs rand).bind fun first =>
          (chooseDoubleSubShard_2 t.heap zs rand fuel first.2.1 first.2.2).map fun y => (first.1, y) := by
    intro fuel
    rw [get_cross_layer_childs, hshard]
    simp only [Except.bind, hderef]
  have hpair : ∀ {fuel e other n w}, chooseDoubleSubShard_1 t.heap s.1 zs rand = .ok (e, other, n) →
      chooseDoubleSubShard_2 t.heap zs rand fuel other n = .ok w →
      get_cross_layer_childs t s.1 rand fuel = .ok (e, w) := by
    intro fuel e other n w hfirst hsecond
    rw [hrun, hfirst]
    simp only [Except.bind, hsecond]
    rfl
  unfold RightPair GoodDraws
  split
  next hone =>
    have hfirst := first_of_one hzs rand hone
    split at hfirst
    next hbad =>
      constructor
      · rintro ⟨fuel, x, y, hresult, -⟩
        rw [hrun, hfirst] at hresult
        cases hresult
      · exact fun hgood => absurd hbad hgood
    next hgood =>
      refine ⟨fun _ => hgood, fun _ => ?_⟩
      obtain ⟨e, n, hfirst, he⟩ := hfirst
      have hdraw := List.getElem?_eq_getElem (Nat.mod_lt (rand (n + 0)) hpos)
      have hother := hpath.ne_of_all h.distinct
        (members_subset_all (hmember (List.mem_of_getElem? hdraw)))
      obtain ⟨fuel, y, w, hy, hyinner, -, hw, hsecond⟩ := second_ends h hzs hdraw hother
      have he' : e = s.1 ∨ ∃ x ∈ s.2.members, x ≠ y ∧ e ∈ Rooted.labels x := by
        rcases he with he | ⟨leaf, hleaf, hleafInner, rfl⟩
        · exact Or.inl he
        · refine Or.inr ⟨leaf, hleaf, ?_, List.mem_cons_self⟩
          rintro rfl
          rw [hyinner] at hleafInner
          cases hleafInner
      exact ⟨fuel, e, w.1, hpair hfirst hsecond, right_of_branches h hpath hy hw he'⟩
  next hmany =>
    obtain ⟨e, child, hchild, hfirst, he⟩ := first_of_many h hzs rand (by omega)
    have hchildMem := List.mem_of_getElem? hchild
    have hsameLabel : ∀ {x}, x ∈ s.2.members → x.1 = child.1 → x = child := fun hx heq =>
      eq_of_label h.distinct ((hpath.child hx).mem_all _ List.mem_cons_self)
        ((hpath.child hchildMem).mem_all _ List.mem_cons_self) heq
    constructor
    · rintro ⟨fuel, x, y, hresult, -⟩ child' hchild'
      rw [hchild] at hchild'
      cases hchild'
      by_contra hno
      have hunending : chooseDoubleSubShard_2 t.heap zs rand fuel child.1 2 = .error .unending := by
        refine second_unending hzs hinner (fun k x hx => ?_) fuel
        by_contra hne
        exact hno ⟨k, x, hx, fun heq => hne (heq ▸ rfl)⟩
      rw [hrun, hfirst] at hresult
      simp only [Except.bind, hunending] at hresult
      cases hresult
    · intro hgood
      obtain ⟨k, other, hdraw, hne⟩ := hgood child hchild
      have hother : other.1 ≠ child.1 := fun heq =>
        hne (hsameLabel (hmember (List.mem_of_getElem? hdraw)) heq)
      obtain ⟨fuel, y, w, hy, -, hyne, hw, hsecond⟩ := second_ends h hzs hdraw hother
      have hbranch : child ≠ y := fun heq => hyne (heq ▸ rfl)
      exact ⟨fuel, e, w.1, hpair hfirst hsecond, right_of_branches h hpath hy hw
        (he.imp_right fun he => ⟨child, hchildMem, hbranch, he⟩)⟩

theorem rightPair_iff_sampleShards : IsTree sampleShards sampleTree ∧ sampleTree ∈ sampleTree.all
    ∧ (shardOf sampleShards sampleTree.1).bind (is_cross_layer sampleShards.heap) = .ok true
    ∧ (RightPair sampleShards sampleTree sampleTree id ↔ GoodDraws sampleTree id) :=
  ⟨isTree_sampleShards, List.mem_cons_self, rfl,
    rightPair_iff sampleShards sampleTree isTree_sampleShards sampleTree List.mem_cons_self rfl id⟩

def leafAndShard : HieraShardTree where
  heap := [⟨9, [1, 2], none⟩, ⟨1, [], some 0⟩, ⟨8, [3], some 0⟩, ⟨3, [], some 2⟩]

def leafAndShardTree : Rooted Int := (9, .cons 1 .nil (.cons 8 (.cons 3 .nil .nil) .nil))

/-- The draws 0 and 1 ask for the second one of one leaf. -/
theorem not_rightPair_leafAndShard : IsTree leafAndShard leafAndShardTree
    ∧ (shardOf leafAndShard 9).bind (is_cross_layer leafAndShard.heap) = .ok true
    ∧ ¬ RightPair leafAndShard leafAndShardTree leafAndShardTree id := by
  refine ⟨⟨⟨⟨_, rfl, rfl, rfl, ⟨_, rfl, rfl, rfl, trivial⟩,
    ⟨_, rfl, rfl, rfl, ⟨_, rfl, rfl, rfl, trivial⟩, trivial⟩, trivial⟩, trivial⟩, by decide, by decide⟩, rfl, ?_⟩
  rintro ⟨fuel, x, y, hresult, -⟩
  have houtside : get_cross_layer_childs leafAndShard leafAndShardTree.1 id fuel = .error .outOfRange := rfl
  rw [houtside] at hresult
  cases hresult

end pair

end HieraChain.HieraShardTree
