/-
  HieraChain/Forest.lean
  ======================
  **Ordered trees with labels, their paths and lowest common ancestors.**

  A forest is its first tree's label and children, and the trees after it, so
  that an induction over a forest is one over both.  A path leads from a tree up
  to the root (`Path`).  Where labels differ, a label has one path
  (`Path.unique`), and the lowest common ancestor of two labels is the first one
  on the path of one that is also on the path of the other (`isLCA_of_first`).
-/
import Mathlib.Data.List.Lattice
import Mathlib.Data.List.Nodup
import Mathlib.Data.List.Pairwise
import Mathlib.Data.List.Perm.Basic
import Mathlib.Order.Nat

namespace HieraChain

inductive Forest (α : Type) where
  | nil
  | cons (label : α) (children siblings : Forest α)
  deriving DecidableEq, Repr

abbrev Forest.Rooted (α : Type) := α × Forest α

namespace Forest

variable {α : Type}

def members : Forest α → List (Rooted α)
  | nil => []
  | cons label children siblings => (label, children) :: siblings.members

def all : Forest α → List (Rooted α)
  | nil => []
  | cons label children siblings => (label, children) :: (children.all ++ siblings.all)

def labels (f : Forest α) : List α := f.all.map Prod.fst

def size : Forest α → Nat
  | nil => 0
  | cons _ children siblings => 1 + children.size + siblings.size

def depth : Forest α → Nat
  | nil => 0
  | cons _ children siblings => max (1 + children.depth) siblings.depth

theorem length_all (f : Forest α) : f.all.length = f.size := by
  induction f with
  | nil => rfl
  | cons label children siblings ihc ihs =>
    rw [all, List.length_cons, List.length_append, ihc, ihs, size]
    omega

theorem depth_le_size (f : Forest α) : f.depth ≤ f.size := by
  induction f with
  | nil => exact Nat.le_refl 0
  | cons label children siblings ihc ihs =>
    rw [depth, size]
    omega

theorem labels_cons (label : α) (children siblings : Forest α) :
    (cons label children siblings).labels = label :: (children.labels ++ siblings.labels) := by
  rw [labels, all, List.map_cons, List.map_append]
  rfl

theorem members_subset_all {f : Forest α} {s : Rooted α} (h : s ∈ f.members) : s ∈ f.all := by
  induction f with
  | nil => cases h
  | cons label children siblings ihc ihs =>
    rcases List.mem_cons.mp h with rfl | h
    · exact List.mem_cons_self
    · exact List.mem_cons_of_mem _ (List.mem_append_right _ (ihs h))

theorem all_subset {f : Forest α} {s s' : Rooted α} (h : s ∈ f.all) (h' : s' ∈ s.2.all) : s' ∈ f.all := by
  induction f with
  | nil => cases h
  | cons label children siblings ihc ihs =>
    refine List.mem_cons_of_mem _ (List.mem_append.mpr ?_)
    rcases List.mem_cons.mp h with rfl | h
    · exact Or.inl h'
    · exact (List.mem_append.mp h).imp ihc ihs

theorem labels_perm (f : Forest α) :
    ((f.all.flatMap fun s => s.2.members.map Prod.fst) ++ f.members.map Prod.fst).Perm f.labels := by
  induction f with
  | nil => exact List.Perm.refl _
  | cons label children siblings ihc ihs =>
    rw [labels_cons, all, members, List.flatMap_cons, List.flatMap_append, List.map_cons]
    refine List.perm_middle.trans ((List.Perm.cons label) ?_)
    dsimp only
    refine List.Perm.trans ?_ (ihc.append ihs)
    rw [List.append_assoc, List.append_assoc, List.append_assoc]
    refine (List.perm_append_comm_assoc _ _ _).trans (List.Perm.append_left _ ?_)
    exact List.Perm.refl _

/-! ### Paths -/

inductive Path (root : Rooted α) : List (Rooted α) → Prop where
  | root : Path root [root]
  | child {s p : Rooted α} {up : List (Rooted α)} (hp : Path root (p :: up)) (hs : s ∈ p.2.members) :
    Path root (s :: p :: up)

def Rooted.all (t : Rooted α) : List (Rooted α) := t :: t.2.all

def Rooted.labels (t : Rooted α) : List α := t.all.map Prod.fst

theorem Rooted.labels_eq (t : Rooted α) : t.labels = t.1 :: t.2.labels := rfl

variable {root s s' : Rooted α} {path up up' : List (Rooted α)}

theorem Path.ne_nil (h : Path root path) : path ≠ [] := by
  cases h with
  | root => exact List.cons_ne_nil _ _
  | child => exact List.cons_ne_nil _ _

theorem Path.mem_all (h : Path root path) : ∀ s ∈ path, s ∈ root.all := by
  induction h with
  | root =>
    intro s hs
    rw [List.mem_singleton.mp hs]
    exact List.mem_cons_self
  | child hp hs ih =>
    rename_i s p up
    intro x hx
    rcases List.mem_cons.mp hx with rfl | hx
    · rcases List.mem_cons.mp (ih p List.mem_cons_self) with rfl | hbelow
      · exact List.mem_cons_of_mem _ (members_subset_all hs)
      · exact List.mem_cons_of_mem _ (all_subset hbelow (members_subset_all hs))
    · exact ih x hx

theorem Path.tail (h : Path root (s :: s' :: up)) : Path root (s' :: up) ∧ s ∈ s'.2.members := by
  cases h with
  | child hp hs => exact ⟨hp, hs⟩

theorem Path.suffix {pre : List (Rooted α)} (h : Path root (pre ++ s :: up)) : Path root (s :: up) := by
  induction pre with
  | nil => exact h
  | cons x pre ih =>
    cases pre with
    | nil => exact h.tail.1
    | cons y pre => exact ih h.tail.1

theorem Path.last (h : Path root path) : ∃ pre, path = pre ++ [root] := by
  induction h with
  | root => exact ⟨[], rfl⟩
  | child hp hs ih =>
    obtain ⟨pre, hpre⟩ := ih
    exact ⟨_ :: pre, by rw [hpre]; rfl⟩

theorem Path.exists_below (h : Path root (s :: up)) {f : Forest α} (hf : ∀ x ∈ f.members, x ∈ s.2.members)
    {x : Rooted α} (hx : x ∈ f.all) : ∃ pre, Path root (x :: (pre ++ s :: up)) := by
  induction f generalizing s up with
  | nil => cases hx
  | cons label children siblings ihc ihs =>
    rcases List.mem_cons.mp hx with rfl | hx
    · exact ⟨[], h.child (hf _ List.mem_cons_self)⟩
    · rcases List.mem_append.mp hx with hx | hx
      · obtain ⟨pre, hpre⟩ := ihc (h.child (hf (label, children) List.mem_cons_self)) (fun _ => id) hx
        refine ⟨pre ++ [(label, children)], ?_⟩
        rw [List.append_assoc]
        exact hpre
      · exact ihs h (fun y hy => hf y (List.mem_cons_of_mem _ hy)) hx

theorem exists_path (hs : s ∈ root.all) : ∃ up, Path root (s :: up) := by
  rcases List.mem_cons.mp hs with rfl | hs
  · exact ⟨[], Path.root⟩
  · obtain ⟨pre, hpre⟩ := Path.root.exists_below (fun _ => id) hs
    exact ⟨_, hpre⟩

theorem depth_members {f : Forest α} (hs : s ∈ f.members) : s.2.depth < f.depth := by
  induction f with
  | nil => cases hs
  | cons label children siblings ihc ihs =>
    rw [depth]
    rcases List.mem_cons.mp hs with rfl | hs
    · dsimp only
      omega
    · have := ihs hs
      omega

theorem Path.length_le (h : Path root (s :: up)) : up.length + s.2.depth ≤ root.2.depth := by
  induction up generalizing s with
  | nil =>
    cases h
    exact Nat.le_of_eq (Nat.zero_add _)
  | cons p up ih =>
    obtain ⟨hp, hs⟩ := h.tail
    have hrest := ih hp
    have hbelow := depth_members hs
    rw [List.length_cons]
    omega

theorem Path.pairwise (h : Path root path) : path.Pairwise fun x y => x.2.depth < y.2.depth := by
  induction h with
  | root => exact List.pairwise_singleton _ _
  | child hp hs ih =>
    rename_i s p up
    refine List.pairwise_cons.mpr ⟨fun x hx => ?_, ih⟩
    have hbelow := depth_members hs
    rcases List.mem_cons.mp hx with rfl | hx
    · exact hbelow
    · exact hbelow.trans ((List.pairwise_cons.mp ih).1 x hx)

theorem Path.nodup (h : Path root path) : path.Nodup :=
  h.pairwise.imp fun hlt heq => absurd hlt (by rw [heq]; exact lt_irrefl _)

section distinct

variable (hdistinct : root.labels.Nodup)

include hdistinct in
theorem eq_of_label (hs : s ∈ root.all) (hs' : s' ∈ root.all) (h : s.1 = s'.1) : s = s' :=
  List.inj_on_of_nodup_map hdistinct hs hs' h

include hdistinct in
theorem nodup_children : (root.all.flatMap fun s => s.2.members.map Prod.fst).Nodup ∧
    root.1 ∉ root.all.flatMap fun s => s.2.members.map Prod.fst := by
  have hperm : (root.all.flatMap fun s => s.2.members.map Prod.fst).Perm root.2.labels := by
    rw [Rooted.all, List.flatMap_cons]
    exact List.perm_append_comm.trans (labels_perm root.2)
  rw [Rooted.labels_eq, List.nodup_cons] at hdistinct
  exact ⟨hperm.nodup_iff.mpr hdistinct.2, fun hmem => hdistinct.1 (hperm.mem_iff.mp hmem)⟩

include hdistinct in
theorem disjoint_children {p p' : Rooted α} (hp : p ∈ root.all) (hp' : p' ∈ root.all) (hne : p ≠ p') :
    List.Disjoint (p.2.members.map Prod.fst) (p'.2.members.map Prod.fst) := by
  have hdisjoint := (List.nodup_flatMap.mp (nodup_children hdistinct).1).2
  have hsymm : Std.Symm (Function.onFun List.Disjoint fun s : Rooted α => s.2.members.map Prod.fst) :=
    ⟨fun _ _ h => List.Disjoint.symm h⟩
  exact hdisjoint.forall hp hp' hne

include hdistinct in
theorem parent_unique {p p' : Rooted α} (hp : p ∈ root.all) (hp' : p' ∈ root.all) (hs : s ∈ p.2.members)
    (hs' : s ∈ p'.2.members) : p = p' := by
  by_contra hne
  exact disjoint_children hdistinct hp hp' hne (List.mem_map_of_mem hs) (List.mem_map_of_mem hs')

include hdistinct in
theorem nodup_flatMap_children {l : List (Rooted α)} (hl : l.Nodup) (hall : ∀ x ∈ l, x ∈ root.all) :
    (l.flatMap fun s => s.2.members.map Prod.fst).Nodup := by
  refine List.nodup_flatMap.mpr ⟨fun x hx => ?_, ?_⟩
  · exact (List.nodup_flatMap.mp (nodup_children hdistinct).1).1 x (hall x hx)
  · exact List.Pairwise.imp_of_mem
      (fun hx hy hne => disjoint_children hdistinct (hall _ hx) (hall _ hy) hne) hl

include hdistinct in
theorem root_not_child {p : Rooted α} (hp : p ∈ root.all) (hs : s ∈ p.2.members) : s.1 ≠ root.1 := by
  intro heq
  refine (nodup_children hdistinct).2 (List.mem_flatMap.mpr ⟨p, hp, ?_⟩)
  rw [← heq]
  exact List.mem_map_of_mem hs

include hdistinct in
theorem Path.unique (h : Path root (s :: up)) (h' : Path root (s' :: up')) (hlabel : s.1 = s'.1) :
    s = s' ∧ up = up' := by
  have heq := eq_of_label hdistinct (h.mem_all s List.mem_cons_self) (h'.mem_all s' List.mem_cons_self) hlabel
  subst heq
  refine ⟨rfl, ?_⟩
  induction up generalizing s up' with
  | nil =>
    cases h
    cases h' with
    | root => rfl
    | child hp hs =>
      exact absurd rfl (root_not_child hdistinct (hp.mem_all _ List.mem_cons_self) hs)
  | cons p up ih =>
    obtain ⟨hp, hs⟩ := h.tail
    cases h' with
    | root => exact absurd rfl (root_not_child hdistinct (hp.mem_all _ List.mem_cons_self) hs)
    | child hp' hs' =>
      rename_i p' up''
      have heq := parent_unique hdistinct (hp.mem_all _ List.mem_cons_self)
        (hp'.mem_all _ List.mem_cons_self) hs hs'
      subst heq
      rw [ih hp hp' rfl]

/-! ### Ancestors -/

/-- `x` is `a` or above it. -/
def Above (root : Rooted α) (x a : α) : Prop :=
  ∃ s up, Path root (s :: up) ∧ s.1 = a ∧ x ∈ (s :: up).map Prod.fst

structure IsLCA (root : Rooted α) (a b c : α) : Prop where
  left : Above root c a
  right : Above root c b
  lowest : ∀ x, Above root x a → Above root x b → Above root x c

include hdistinct in
theorem above_iff (h : Path root (s :: up)) {x : α} :
    Above root x s.1 ↔ x ∈ (s :: up).map Prod.fst := by
  constructor
  · rintro ⟨s', up', h', hlabel, hx⟩
    obtain ⟨rfl, rfl⟩ := h'.unique hdistinct h hlabel
    exact hx
  · exact fun hx => ⟨s, up, h, rfl, hx⟩

theorem Path.above_self (h : Path root (s :: up)) : Above root s.1 s.1 :=
  ⟨s, up, h, rfl, List.mem_cons_self⟩

include hdistinct in
theorem Above.suffix {c : α} (h : Path root (s :: up)) (hc : Above root c s.1) :
    ∃ pre x rest, s :: up = pre ++ x :: rest ∧ x.1 = c ∧ Path root (x :: rest) := by
  obtain ⟨x, hx, rfl⟩ := List.mem_map.mp ((above_iff hdistinct h).mp hc)
  obtain ⟨pre, rest, heq⟩ := List.append_of_mem hx
  exact ⟨pre, x, rest, heq, rfl, (heq ▸ h : Path root (pre ++ x :: rest)).suffix⟩

include hdistinct in

include hdistinct in
theorem Above.antisymm {x c : α} (hx : Above root x c) (hc : Above root c x) : x = c := by
  obtain ⟨s, up, h, rfl, -⟩ := id hx
  obtain ⟨s', up', h', rfl, -⟩ := id hc
  obtain ⟨pre, y, rest, heq, hy, hpath⟩ := Above.suffix hdistinct h hx
  obtain ⟨pre', y', rest', heq', hy', hpath'⟩ := Above.suffix hdistinct h' hc
  obtain ⟨rfl, rfl⟩ := hpath.unique hdistinct h' hy
  obtain ⟨rfl, rfl⟩ := hpath'.unique hdistinct h hy'
  have hlength := congrArg List.length heq
  have hlength' := congrArg List.length heq'
  rw [List.length_append] at hlength hlength'
  obtain rfl : pre = [] := List.length_eq_zero_iff.mp (by omega)
  exact (congrArg Prod.fst (List.cons.inj heq).1).symm

include hdistinct in
theorem IsLCA.unique {a b c c' : α} (h : IsLCA root a b c) (h' : IsLCA root a b c') : c = c' :=
  (h'.lowest c h.left h.right).antisymm hdistinct (h.lowest c' h'.left h'.right)

theorem IsLCA.symm {a b c : α} (h : IsLCA root a b c) : IsLCA root b a c :=
  ⟨h.right, h.left, fun x hb ha => h.lowest x ha hb⟩

include hdistinct in
theorem isLCA_of_first {a : α} {pre rest : List (Rooted α)} {c : Rooted α} (h : Path root (s :: up))
    (heq : s :: up = pre ++ c :: rest) (hc : Above root c.1 a) (hpre : ∀ x ∈ pre, ¬ Above root x.1 a) :
    IsLCA root s.1 a c.1 := by
  have hpath : Path root (c :: rest) := (heq ▸ h : Path root (pre ++ c :: rest)).suffix
  refine ⟨?_, hc, fun x hxs hxa => ?_⟩
  · rw [above_iff hdistinct h, heq, List.map_append, List.map_cons]
    exact List.mem_append_right _ List.mem_cons_self
  · rw [above_iff hdistinct h, heq, List.map_append] at hxs
    rw [above_iff hdistinct hpath]
    rcases List.mem_append.mp hxs with hx | hx
    · obtain ⟨y, hy, rfl⟩ := List.mem_map.mp hx
      exact absurd hxa (hpre y hy)
    · exact hx

omit hdistinct in
theorem isLCA_of_above {a b : α} (h : Above root a b) (ha : Above root a a) : IsLCA root a b a :=
  ⟨ha, h, fun _ hx _ => hx⟩

theorem Path.exists_labels (h : Path root (s :: up)) {a : α} (ha : a ∈ Rooted.labels s) :
    ∃ x rest, Path root (x :: rest) ∧ x.1 = a ∧ s :: up <:+ x :: rest := by
  obtain ⟨x, hx, rfl⟩ := List.mem_map.mp ha
  rcases List.mem_cons.mp hx with rfl | hx
  · exact ⟨x, up, h, rfl, List.suffix_rfl⟩
  · obtain ⟨pre, hpre⟩ := h.exists_below (fun _ hmem => hmem) hx
    exact ⟨x, pre ++ s :: up, hpre, rfl, List.suffix_append (x :: pre) (s :: up)⟩

include hdistinct in
theorem Path.ne_of_all (h : Path root (s :: up)) {x : Rooted α} (hx : x ∈ s.2.all) : x.1 ≠ s.1 := by
  obtain ⟨pre, hpre⟩ := h.exists_below (fun _ hmem => hmem) hx
  intro heq
  have hlength := congrArg List.length (hpre.unique hdistinct h heq).2
  rw [List.length_append, List.length_cons] at hlength
  omega

include hdistinct in
theorem Path.notMem_of_all (h : Path root (s :: up)) {y x : Rooted α} (hy : y ∈ s.2.members) (hx : x ∈ y.2.all) :
    x.1 ∉ s.2.members.map Prod.fst := by
  obtain ⟨pre, hpre⟩ := (h.child hy).exists_below (fun _ hmem => hmem) hx
  intro hmem
  obtain ⟨z, hz, hlabel⟩ := List.mem_map.mp hmem
  have hlength := congrArg List.length ((h.child hz).unique hdistinct hpre hlabel).2
  simp only [List.length_append, List.length_cons] at hlength
  omega

include hdistinct in
/-- Two children of a tree: what is at or below one and what is at or below the
    other have the tree as the lowest one above both. -/
theorem isLCA_of_branches (h : Path root (s :: up)) {x y : Rooted α} (hx : x ∈ s.2.members) (hy : y ∈ s.2.members)
    (hne : x ≠ y) {a b : α} (ha : a ∈ x.labels) (hb : b ∈ y.labels) : IsLCA root a b s.1 := by
  obtain ⟨xa, up₁, hpath₁, rfl, hsuffix₁⟩ := (h.child hx).exists_labels ha
  obtain ⟨yb, up₂, hpath₂, rfl, hsuffix₂⟩ := (h.child hy).exists_labels hb
  have hself : ∀ {z : Rooted α} {l : List (Rooted α)}, z :: s :: up <:+ l → s.1 ∈ l.map Prod.fst :=
    fun hsuffix => List.mem_map_of_mem
      (hsuffix.subset (List.mem_cons_of_mem _ List.mem_cons_self))
  refine ⟨(above_iff hdistinct hpath₁).mpr (hself hsuffix₁), (above_iff hdistinct hpath₂).mpr (hself hsuffix₂),
    fun z hza hzb => ?_⟩
  obtain ⟨pre₁, z₁, rest₁, heq₁, rfl, hz₁⟩ := hza.suffix hdistinct hpath₁
  obtain ⟨pre₂, z₂, rest₂, heq₂, hlabel, hz₂⟩ := hzb.suffix hdistinct hpath₂
  obtain ⟨rfl, rfl⟩ := hz₂.unique hdistinct hz₁ hlabel
  rw [above_iff hdistinct h]
  -- the path of `z` goes through at most one of the two children
  have hor : ∀ {w : Rooted α} {l : List (Rooted α)}, w :: s :: up <:+ l → z₂ :: rest₂ <:+ l →
      z₂ :: rest₂ <:+ s :: up ∨ w :: s :: up <:+ z₂ :: rest₂ := by
    intro w l hw hz
    rcases List.suffix_or_suffix_of_suffix hw hz with hle | hle
    · exact Or.inr hle
    · rcases List.suffix_cons_iff.mp hle with heq | hle
      · exact Or.inr (heq ▸ List.suffix_rfl)
      · exact Or.inl hle
  rcases hor hsuffix₁ ⟨pre₁, heq₁.symm⟩ with hle | hle₁
  · exact List.mem_map_of_mem (hle.subset List.mem_cons_self)
  · rcases hor hsuffix₂ ⟨pre₂, heq₂.symm⟩ with hle | hle₂
    · exact List.mem_map_of_mem (hle.subset List.mem_cons_self)
    · have hsame := (List.suffix_of_suffix_length_le hle₁ hle₂ (le_refl _)).eq_of_length rfl
      exact absurd (List.cons.inj hsame).1 hne

end distinct

end Forest

end HieraChain
