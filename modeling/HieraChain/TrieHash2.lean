/-
  HieraChain/TrieHash2.lean
  =========================
  **The root of a list of byte strings and the map of its tree**
  (`libdevcore/TrieHash2.cpp`).

  `getHash256` folds the list level by level, sixteen strings a hash, and hashes
  the last one once more.  `getMerkleProof` goes over the same levels in a loop of
  its own and records the children of every hash, both as hexadecimal texts; the
  hashes of a level may be recorded in any order.  The strings are an index and a
  hash each, as `libethcore/Block.cpp` builds them (`leafBytes`).

  A parent is the hash of its children *joined*, so that groups of children are
  told apart by the text they spell.  The groups of a tree spell different texts
  but for one case (`spell_injective`): eight leaves of 36 bytes, at the end of a
  list of more than 65536, can spell what nine hashes spell.  Two trees are told
  apart by their roots without that exception (`getHash256_injective`), since the
  first group of leaves spells no hashes.
-/
import HieraChain.AssocMap
import HieraChain.Hex
import HieraChain.MerkleTree
import HieraChain.RLPItem

namespace HieraChain.TrieHash2

open HieraChain.BigEndian HieraChain.RLP HieraChain.Hex HieraChain.Merkle

abbrev Hash := FixedHash 32
abbrev Parent2ChildListMap := AssocMap Bytes (List Bytes)

def MAX_CHILD_COUNT : Nat := 16

structure Order (α : Type) where
  run : List α → List α
  perm : ∀ xs, (run xs).Perm xs

def Order.inOrder (α : Type) : Order α := ⟨id, List.Perm.refl⟩

variable (hash : Bytes → Hash)

/-- `crypto::Hash(byteValue).asBytes()` -/
def parentOf (childList : List Bytes) : Bytes := (hash childList.flatten).data

/-- The loop halves the list at least, so that its length is enough fuel
    (`length_top`). -/
def getHash256 (bytesCaches : List Bytes) : Hash :=
  if bytesCaches.isEmpty then hash []
  else hash ((top MAX_CHILD_COUNT (parentOf hash) bytesCaches.length bytesCaches).headD [])

/-! ### The map -/

/-- `(*_parent2ChildList)[parentNode].emplace_back(child)` -/
def emplaceBack (parentNode : Bytes) (m : Parent2ChildListMap) (child : Bytes) : Parent2ChildListMap :=
  m.insert parentNode ((m.find? parentNode).getD [] ++ [child])

def addGroup (m : Parent2ChildListMap) (childList : List Bytes) : Parent2ChildListMap :=
  (childList.map toHex).foldl (emplaceBack (toHex (parentOf hash childList))) m

def addTop (m : Parent2ChildListMap) (last : Bytes) : Parent2ChildListMap :=
  emplaceBack (toHex (hash last).data) m (toHex last)

def addLevels (order : Order (List Bytes)) : Nat → Parent2ChildListMap → List Bytes → Parent2ChildListMap
  | 0, m, bytesCachesTemp => addTop hash m (bytesCachesTemp.headD [])
  | fuel + 1, m, bytesCachesTemp =>
    if bytesCachesTemp.length ≤ 1 then addTop hash m (bytesCachesTemp.headD [])
    else
      addLevels order fuel ((order.run (groups MAX_CHILD_COUNT bytesCachesTemp)).foldl (addGroup hash) m)
        (above MAX_CHILD_COUNT (parentOf hash) bytesCachesTemp)

def getMerkleProof (order : Order (List Bytes)) (bytesCaches : List Bytes) : Parent2ChildListMap :=
  if bytesCaches.isEmpty then AssocMap.empty
  else addLevels hash order bytesCaches.length AssocMap.empty bytesCaches

def treeOf (leaves : List Bytes) : List (List Bytes) :=
  tree MAX_CHILD_COUNT (parentOf hash) leaves.length leaves

section Map

variable {hash}

theorem foldl_emplaceBack (key : Bytes) (texts : List Bytes) (m : Parent2ChildListMap) (k : Bytes) :
    (texts.foldl (emplaceBack key) m).find? k
      = if k = key ∧ texts ≠ [] then some ((m.find? key).getD [] ++ texts) else m.find? k := by
  induction texts generalizing m with
  | nil => simp
  | cons text texts ih =>
    rw [List.foldl_cons, ih]
    by_cases hk : k = key
    · subst hk
      cases texts with
      | nil => simp [emplaceBack]
      | cons text' texts => simp [emplaceBack]
    · simp [emplaceBack, hk, AssocMap.find?_insert]

theorem find?_addGroup {g : List Bytes} (hg : g ≠ []) {m : Parent2ChildListMap}
    (hnew : m.find? (toHex (parentOf hash g)) = none) (k : Bytes) :
    (addGroup hash m g).find? k = if k = toHex (parentOf hash g) then some (g.map toHex) else m.find? k := by
  rw [addGroup, foldl_emplaceBack, hnew]
  simp [hg]

/-- **Groups with different parents, added in any order, stand in the map.** -/
theorem find?_addGroups {gs : List (List Bytes)} (hne : ∀ g ∈ gs, g ≠ [])
    (hnodup : (gs.map (parentOf hash)).Nodup) {m : Parent2ChildListMap}
    (hnew : ∀ g ∈ gs, m.find? (toHex (parentOf hash g)) = none) (k : Bytes) (l : List Bytes) :
    (gs.foldl (addGroup hash) m).find? k = some l ↔
      (∃ g ∈ gs, k = toHex (parentOf hash g) ∧ l = g.map toHex) ∨ m.find? k = some l := by
  induction gs generalizing m with
  | nil => simp
  | cons g gs ih =>
    rw [List.map_cons, List.nodup_cons] at hnodup
    have hfind := find?_addGroup (hne g List.mem_cons_self) (hnew g List.mem_cons_self)
    have hother : ∀ g' ∈ gs, toHex (parentOf hash g') ≠ toHex (parentOf hash g) := by
      intro g' hg' heq
      exact hnodup.1 (toHex_injective heq ▸ List.mem_map_of_mem hg')
    rw [List.foldl_cons, ih (fun g' hg' => hne g' (List.mem_cons_of_mem _ hg')) hnodup.2, hfind]
    · rw [List.exists_mem_cons_iff]
      by_cases hk : k = toHex (parentOf hash g)
      · subst hk
        rw [if_pos rfl, hnew g List.mem_cons_self]
        constructor
        · rintro (h | h)
          · exact .inl (.inr h)
          · exact .inl (.inl ⟨rfl, (Option.some.inj h).symm⟩)
        · rintro ((⟨-, rfl⟩ | h) | h)
          · exact .inr rfl
          · exact .inl h
          · cases h
      · rw [if_neg hk]
        simp [hk]
    · intro g' hg'
      rw [hfind, if_neg (hother g' hg')]
      exact hnew g' (List.mem_cons_of_mem _ hg')

theorem size_foldl_emplaceBack {key : Bytes} {texts : List Bytes} (hne : texts ≠ []) (m : Parent2ChildListMap) :
    (texts.foldl (emplaceBack key) m).size = if m.contains key then m.size else m.size + 1 := by
  induction texts generalizing m with
  | nil => exact absurd rfl hne
  | cons text texts ih =>
    have hkey : (emplaceBack key m text).contains key = true := by simp [emplaceBack, AssocMap.contains]
    rw [List.foldl_cons, ← AssocMap.size_insert m key ((m.find? key).getD [] ++ [text])]
    cases texts with
    | nil => rfl
    | cons text' texts =>
      rw [ih (List.cons_ne_nil _ _), if_pos hkey]
      rfl

theorem size_addGroups {gs : List (List Bytes)} (hne : ∀ g ∈ gs, g ≠ [])
    (hnodup : (gs.map (parentOf hash)).Nodup) {m : Parent2ChildListMap}
    (hnew : ∀ g ∈ gs, m.find? (toHex (parentOf hash g)) = none) :
    (gs.foldl (addGroup hash) m).size = m.size + gs.length := by
  induction gs generalizing m with
  | nil => rfl
  | cons g gs ih =>
    rw [List.map_cons, List.nodup_cons] at hnodup
    have hfind := find?_addGroup (hne g List.mem_cons_self) (hnew g List.mem_cons_self)
    have hsize : (addGroup hash m g).size = m.size + 1 := by
      rw [addGroup, size_foldl_emplaceBack (by simpa using hne g List.mem_cons_self), if_neg]
      simp [AssocMap.contains, hnew g List.mem_cons_self]
    rw [List.foldl_cons, ih (fun g' hg' => hne g' (List.mem_cons_of_mem _ hg')) hnodup.2, hsize, List.length_cons]
    · omega
    · intro g' hg'
      rw [hfind, if_neg]
      · exact hnew g' (List.mem_cons_of_mem _ hg')
      · intro heq
        exact hnodup.1 (toHex_injective heq ▸ List.mem_map_of_mem hg')

theorem addTop_eq {level : List Bytes} (h : level.length = 1) (m : Parent2ChildListMap) :
    addTop hash m (level.headD []) = addGroup hash m level := by
  obtain ⟨last, rfl⟩ := List.length_eq_one_iff.mp h
  simp [addTop, addGroup, parentOf]

theorem addLevels_eq (order : Order (List Bytes)) (fuel : Nat) (m : Parent2ChildListMap) {level : List Bytes}
    (hne : level ≠ []) (hfuel : level.length ≤ fuel + 1) :
    ∃ gs : List (List Bytes), gs.Perm (tree MAX_CHILD_COUNT (parentOf hash) fuel level) ∧
      addLevels hash order fuel m level = gs.foldl (addGroup hash) m := by
  induction fuel generalizing m level with
  | zero =>
    have hpos := List.length_pos_of_ne_nil hne
    exact ⟨[level], List.Perm.refl _, addTop_eq (by omega) m⟩
  | succ fuel ih =>
    have hpos := List.length_pos_of_ne_nil hne
    rw [tree, addLevels]
    split
    next hle => exact ⟨[level], List.Perm.refl _, addTop_eq (by omega) m⟩
    next hgt =>
      have hlt : (above MAX_CHILD_COUNT (parentOf hash) level).length < level.length :=
        length_above_lt (by decide) (Nat.lt_of_not_le hgt)
      have habove : above MAX_CHILD_COUNT (parentOf hash) level ≠ [] := above_ne_nil (by decide) hne
      obtain ⟨gs, hperm, heq⟩ := ih ((order.run (groups MAX_CHILD_COUNT level)).foldl (addGroup hash) m)
        habove (by omega)
      refine ⟨order.run (groups MAX_CHILD_COUNT level) ++ gs, (order.perm _).append hperm, ?_⟩
      rw [heq, List.foldl_append]

/-- **What the map holds**, in any order of the loops. -/
theorem getMerkleProof_spec (order : Order (List Bytes)) {leaves : List Bytes} (hne : leaves ≠ [])
    (h : Proper (parentOf hash) leaves (treeOf hash leaves)) :
    (getMerkleProof hash order leaves).size = (treeOf hash leaves).length ∧
    ∀ k l, (getMerkleProof hash order leaves).find? k = some l ↔
      ∃ g ∈ treeOf hash leaves, k = toHex (parentOf hash g) ∧ l = g.map toHex := by
  obtain ⟨gs, hperm, heq⟩ : ∃ gs : List (List Bytes), gs.Perm (treeOf hash leaves) ∧
      addLevels hash order leaves.length AssocMap.empty leaves = gs.foldl (addGroup hash) AssocMap.empty :=
    addLevels_eq order leaves.length AssocMap.empty hne (Nat.le_succ _)
  have hmem : ∀ g, g ∈ gs ↔ g ∈ treeOf hash leaves := fun g => hperm.mem_iff
  have hgs : ∀ g ∈ gs, g ≠ [] := fun g hg => ne_nil_of_mem_tree (by decide) hne ((hmem g).mp hg)
  have hnodup : (gs.map (parentOf hash)).Nodup := by
    refine List.Nodup.map_on ?_ (hperm.nodup_iff.mpr (nodup_tree (by decide) h))
    intro g hg g' hg' heq
    exact h.injective g ((hmem g).mp hg) g' ((hmem g').mp hg') heq
  rw [getMerkleProof, if_neg (by simpa using hne), heq]
  constructor
  · rw [size_addGroups hgs hnodup fun g hg => rfl, hperm.length_eq]
    simp [AssocMap.size, AssocMap.empty, treeOf]
  · intro k l
    rw [find?_addGroups hgs hnodup fun g hg => rfl]
    simp [hmem]

end Map

/-! ### Leaves -/

theorem data_injective {h h' : Hash} (heq : h.data = h'.data) : h = h' := by
  cases h
  cases h'
  cases heq
  rfl

theorem length_flatten_of_forall {g : List Bytes} {n : Nat} (h : ∀ x ∈ g, x.length = n) :
    g.flatten.length = g.length * n := by
  induction g with
  | nil => simp
  | cons x g ih =>
    rw [List.flatten_cons, List.length_append, h x List.mem_cons_self,
      ih fun y hy => h y (List.mem_cons_of_mem _ hy), List.length_cons, Nat.succ_mul, Nat.add_comm]

theorem flatten_injective {n : Nat} (hn : 0 < n) {g g' : List Bytes} (h : ∀ x ∈ g, x.length = n)
    (h' : ∀ x ∈ g', x.length = n) (heq : g.flatten = g'.flatten) : g = g' := by
  induction g generalizing g' with
  | nil =>
    cases g' with
    | nil => rfl
    | cons x g' =>
      have hx := h' x List.mem_cons_self
      have hlength := congrArg List.length heq
      simp only [List.flatten_cons, List.flatten_nil, List.length_append, List.length_nil] at hlength
      omega
  | cons x g ih =>
    have hx := h x List.mem_cons_self
    cases g' with
    | nil =>
      have hlength := congrArg List.length heq
      simp only [List.flatten_cons, List.flatten_nil, List.length_append, List.length_nil] at hlength
      omega
    | cons y g' =>
      rw [List.flatten_cons, List.flatten_cons] at heq
      obtain ⟨rfl, hrest⟩ := List.append_inj heq (hx.trans (h' y List.mem_cons_self).symm)
      rw [ih (fun z hz => h z (List.mem_cons_of_mem _ hz)) (fun z hz => h' z (List.mem_cons_of_mem _ hz)) hrest]

/-- `RLPStream s; s << i;` for a counter of 32 bits. -/
def indexBytes (i : Nat) : Bytes := strItem (bigEndian (i % 2 ^ 32))

def leafBytes (i : Nat) (h : Hash) : Bytes := indexBytes i ++ h.data

def leavesOf (hashes : List Hash) : List Bytes := hashes.mapIdx leafBytes

theorem length_strItem_of_le {i n : Nat} (hlong : 128 ≤ i) (hn : bytesRequired i = n) (hshort : n < 56) :
    (strItem (bigEndian i)).length = n + 1 := by
  have hsize : (bigEndian i).length = n := by rw [length_bigEndian, hn]
  rw [strItem, if_neg, List.length_append, sizePrefix, if_pos (by rw [hsize]; exact hshort), hsize]
  · exact Nat.add_comm 1 n
  · rintro ⟨hone, hlead⟩
    have hlt : i < 256 := bytesRequired_le_iff.mp (show bytesRequired i ≤ 1 by omega)
    rw [bigEndian_of_lt (by omega) hlt] at hlead
    change (UInt8.ofNat i).toNat < 128 at hlead
    rw [UInt8.toNat_ofNat', Nat.mod_eq_of_lt hlt] at hlead
    omega

theorem length_strItem_bigEndian {i : Nat} (h : i < 2 ^ 32) :
    (strItem (bigEndian i)).length
      = if i < 128 then 1 else if i < 256 then 2 else if i < 65536 then 3 else if i < 16777216 then 4 else 5 := by
  have hone : bytesRequired i ≤ 1 ↔ i < 256 := bytesRequired_le_iff
  have htwo : bytesRequired i ≤ 2 ↔ i < 65536 := bytesRequired_le_iff
  have hthree : bytesRequired i ≤ 3 ↔ i < 16777216 := bytesRequired_le_iff
  have hfour : bytesRequired i ≤ 4 ↔ i < 2 ^ 32 := bytesRequired_le_iff
  rcases Nat.lt_or_ge i 128 with hsmall | hlong
  · rw [if_pos hsmall]
    rcases Nat.eq_zero_or_pos i with rfl | hpos
    · rfl
    · rw [bigEndian_of_lt hpos (by omega), strItem, if_pos]
      · rfl
      · refine ⟨rfl, ?_⟩
        change (UInt8.ofNat i).toNat < 128
        rw [UInt8.toNat_ofNat', Nat.mod_eq_of_lt (by omega)]
        exact hsmall
  · have hpos : 0 < bytesRequired i := bytesRequired_pos (by omega)
    rw [if_neg (Nat.not_lt.mpr hlong), length_strItem_of_le hlong rfl (by omega)]
    split_ifs <;> omega

theorem indexBytes_isItem (i : Nat) : IsItem (indexBytes i) (bigEndian (i % 2 ^ 32)) := by
  apply strItem_isItem
  rw [length_bigEndian, SizeOk]
  have hle : bytesRequired (i % 2 ^ 32) ≤ 4 := bytesRequired_le_iff.mpr (Nat.mod_lt _ (by decide))
  exact hle.trans_lt (by decide)

theorem payload_leafBytes (i : Nat) (h : Hash) (rest : Bytes) :
    payload (leafBytes i h ++ rest) = .ok (bigEndian (i % 2 ^ 32)) := by
  rw [leafBytes, List.append_assoc]
  exact (indexBytes_isItem i).payload_eq _

section Leaves

variable {hash} {hashes : List Hash}

@[simp] theorem length_leavesOf (hashes : List Hash) : (leavesOf hashes).length = hashes.length := by
  simp [leavesOf]

theorem getElem?_leavesOf (hashes : List Hash) (i : Nat) : (leavesOf hashes)[i]? = hashes[i]?.map (leafBytes i) := by
  simp [leavesOf]

theorem mem_leavesOf {x : Bytes} : x ∈ leavesOf hashes ↔ ∃ i h, hashes[i]? = some h ∧ x = leafBytes i h := by
  rw [List.mem_iff_getElem?]
  constructor
  · rintro ⟨i, hi⟩
    rw [getElem?_leavesOf] at hi
    obtain ⟨h, hh, rfl⟩ := Option.map_eq_some_iff.mp hi
    exact ⟨i, h, hh, rfl⟩
  · rintro ⟨i, h, hh, rfl⟩
    refine ⟨i, ?_⟩
    rw [getElem?_leavesOf, hh]
    rfl

theorem leafBytes_index {i j : Nat} (hi : i < 2 ^ 32) (hj : j < 2 ^ 32) {h h' : Hash} (rest rest' : Bytes)
    (heq : leafBytes i h ++ rest = leafBytes j h' ++ rest') : i = j := by
  have hpayload := payload_leafBytes i h rest
  rw [heq, payload_leafBytes, Nat.mod_eq_of_lt hi, Nat.mod_eq_of_lt hj] at hpayload
  exact (bigEndian_injective (Except.ok.inj hpayload)).symm

theorem leavesOf_nodup (hsize : hashes.length ≤ 2 ^ 32) : (leavesOf hashes).Nodup := by
  rw [List.nodup_iff_getElem?_ne_getElem?]
  intro i j hij hj heq
  rw [length_leavesOf] at hj
  rw [getElem?_leavesOf, getElem?_leavesOf, List.getElem?_eq_getElem (hij.trans hj), List.getElem?_eq_getElem hj] at heq
  have hindex := leafBytes_index (by omega) (by omega) [] [] (congrArg (· ++ []) (Option.some.inj heq))
  omega

theorem length_of_mem_group (hsize : hashes.length ≤ 2 ^ 32) {i : Nat} {x : Bytes}
    (hx : x ∈ group MAX_CHILD_COUNT (leavesOf hashes) i) :
    x.length = (if i < 8 then 1 else if i < 16 then 2 else if i < 4096 then 3 else if i < 1048576 then 4 else 5) + 32 := by
  obtain ⟨j, hj, hplace⟩ := mem_group.mp hx
  rw [MAX_CHILD_COUNT] at hj hplace
  rw [getElem?_leavesOf] at hplace
  obtain ⟨h, hh, rfl⟩ := Option.map_eq_some_iff.mp hplace
  obtain ⟨hlt, -⟩ := List.getElem?_eq_some_iff.mp hh
  have hsmall : i * 16 + j < 2 ^ 32 := by omega
  rw [leafBytes, List.length_append, h.length_data, indexBytes, Nat.mod_eq_of_lt hsmall, length_strItem_bigEndian hsmall]
  split_ifs <;> omega

theorem leaves_spell_nodes (hsize : hashes.length ≤ 2 ^ 32) {i : Nat} (hi : i < (hashes.length + 15) / 16)
    {g : List Bytes} (hg : ∀ x ∈ g, x.length = 32) (hlength : g.length ≤ 16)
    (heq : (group MAX_CHILD_COUNT (leavesOf hashes) i).flatten = g.flatten) :
    65536 < hashes.length ∧ hashes.length % 16 = 8 ∧ i = hashes.length / 16 ∧ g.length = 9 := by
  have hleaves := length_flatten_of_forall fun x => length_of_mem_group (i := i) (x := x) hsize
  have hnodes := length_flatten_of_forall hg
  rw [heq, hnodes, length_group, length_leavesOf, MAX_CHILD_COUNT] at hleaves
  split_ifs at hleaves <;> omega

theorem leafGroup_head {i : Nat} (hi : i < (hashes.length + 15) / 16) :
    ∃ h rest, group MAX_CHILD_COUNT (leavesOf hashes) i = leafBytes (i * 16) h :: rest := by
  have hplace : i < ((leavesOf hashes).length + MAX_CHILD_COUNT - 1) / MAX_CHILD_COUNT := by
    rw [length_leavesOf]
    exact hi
  obtain ⟨x, rest, hx, hgroup⟩ := group_head (by decide) hplace
  rw [getElem?_leavesOf] at hx
  obtain ⟨h, -, rfl⟩ := Option.map_eq_some_iff.mp hx
  exact ⟨h, rest, hgroup⟩

theorem leaves_spell_leaves (hsize : hashes.length ≤ 2 ^ 32) {i j : Nat} (hi : i < (hashes.length + 15) / 16)
    (hj : j < (hashes.length + 15) / 16)
    (heq : (group MAX_CHILD_COUNT (leavesOf hashes) i).flatten = (group MAX_CHILD_COUNT (leavesOf hashes) j).flatten) :
    i = j := by
  obtain ⟨h, rest, hgi⟩ := leafGroup_head hi
  obtain ⟨h', rest', hgj⟩ := leafGroup_head hj
  rw [hgi, hgj, List.flatten_cons, List.flatten_cons] at heq
  have hplace := leafBytes_index (by omega) (by omega) _ _ heq
  omega

end Leaves

/-! ### Collision-free hashing -/

/-- No two strings hashed for the tree have one hash, and the eight leaves at the
    end of a long list are not the text of nine hashes. -/
structure CollisionFree (leaves : List Bytes) : Prop where
  injective : ∀ g ∈ treeOf hash leaves, ∀ g' ∈ treeOf hash leaves,
    hash g.flatten = hash g'.flatten → g.flatten = g'.flatten
  apart : 65536 < leaves.length → leaves.length % 16 = 8 → ∀ g ∈ treeOf hash leaves, g.length = 9 →
    (group MAX_CHILD_COUNT leaves (leaves.length / 16)).flatten ≠ g.flatten

section CollisionFree

variable {hash} {hashes : List Hash}

/-- **The groups of a tree spell different texts.** -/
theorem spell_injective (hsize : hashes.length ≤ 2 ^ 32) (hfree : CollisionFree hash (leavesOf hashes))
    {g g' : List Bytes} (hg : g ∈ treeOf hash (leavesOf hashes)) (hg' : g' ∈ treeOf hash (leavesOf hashes))
    (heq : g.flatten = g'.flatten) : g = g' := by
  have hempty : leavesOf hashes ≠ [] ∨ treeOf hash (leavesOf hashes) = [[]] := by
    cases hashes with
    | nil => exact .inr rfl
    | cons h hashes => exact .inl (by simp [leavesOf])
  rcases hempty with hne | hnil
  · have hfuel : (leavesOf hashes).length ≤ (leavesOf hashes).length + 1 := Nat.le_succ _
    have hnodes : ∀ g : List Bytes, (∀ x ∈ g, ∃ g', x = parentOf hash g') → ∀ x ∈ g, x.length = 32 := by
      intro g hparents x hx
      obtain ⟨g', rfl⟩ := hparents x hx
      exact (hash g'.flatten).length_data
    -- a group of leaves and a group of hashes
    have hmixed : ∀ i < (hashes.length + 15) / 16, ∀ g ∈ treeOf hash (leavesOf hashes), (∀ x ∈ g, x.length = 32) →
        (group MAX_CHILD_COUNT (leavesOf hashes) i).flatten ≠ g.flatten := by
      intro i hi g hg hlengths hspell
      have hle : g.length ≤ 16 := length_le_of_mem_tree (by decide) hfuel hg
      obtain ⟨hlong, hrest, rfl, hnine⟩ := leaves_spell_nodes hsize hi hlengths hle hspell
      rw [← length_leavesOf hashes] at hlong hrest hspell
      exact hfree.apart hlong hrest g hg hnine hspell
    rcases mem_tree_cases (by decide) hne hg hfuel with hlow | hhigh <;>
      rcases mem_tree_cases (by decide) hne hg' hfuel with hlow' | hhigh'
    · obtain ⟨i, hi, rfl⟩ := mem_groups.mp hlow
      obtain ⟨j, hj, rfl⟩ := mem_groups.mp hlow'
      rw [length_leavesOf] at hi hj
      rw [leaves_spell_leaves hsize hi hj heq]
    · obtain ⟨i, hi, rfl⟩ := mem_groups.mp hlow
      rw [length_leavesOf] at hi
      exact absurd heq (hmixed i hi g' hg' (hnodes g' hhigh'))
    · obtain ⟨j, hj, rfl⟩ := mem_groups.mp hlow'
      rw [length_leavesOf] at hj
      exact absurd heq.symm (hmixed j hj g hg (hnodes g hhigh))
    · exact flatten_injective (by decide) (hnodes g hhigh) (hnodes g' hhigh') heq
  · rw [hnil, List.mem_singleton] at hg hg'
    exact hg.trans hg'.symm

theorem proper_of_collisionFree (hsize : hashes.length ≤ 2 ^ 32) (hfree : CollisionFree hash (leavesOf hashes)) :
    Proper (parentOf hash) (leavesOf hashes) (treeOf hash (leavesOf hashes)) where
  nodup := leavesOf_nodup hsize
  injective g hg g' hg' heq := by
    apply spell_injective hsize hfree hg hg'
    apply hfree.injective g hg g' hg'
    exact data_injective heq
  lowest x hx g hg heq := by
    obtain ⟨i, h, -, rfl⟩ := mem_leavesOf.mp hx
    have hlength := congrArg List.length heq
    rw [parentOf, (hash g.flatten).length_data, leafBytes, List.length_append, h.length_data] at hlength
    have hpos := List.length_pos_of_ne_nil (indexBytes_isItem i).ne_nil
    omega

end CollisionFree

/-! ### Two trees -/

/-- No string hashed for one tree has the hash of another string hashed for the other. -/
def Apart (leaves leaves' : List Bytes) : Prop :=
  ∀ g ∈ treeOf hash leaves, ∀ g' ∈ treeOf hash leaves', hash g.flatten = hash g'.flatten → g.flatten = g'.flatten

section Apart

variable {hash} {hashes hashes' : List Hash}

theorem length_of_mem_iterate {n : Nat} (hn : 0 < n) {xs : List Bytes} {x : Bytes}
    (hx : x ∈ (above MAX_CHILD_COUNT (parentOf hash))^[n] xs) : x.length = 32 := by
  obtain ⟨n, rfl⟩ : ∃ k, n = k + 1 := ⟨n - 1, by omega⟩
  rw [Function.iterate_succ_apply', above] at hx
  obtain ⟨g, -, rfl⟩ := List.mem_map.mp hx
  exact (hash g.flatten).length_data

theorem leavesOf_injective (h : leavesOf hashes = leavesOf hashes') : hashes = hashes' := by
  apply List.ext_getElem?
  intro i
  have hi : (leavesOf hashes)[i]? = (leavesOf hashes')[i]? := by rw [h]
  rw [getElem?_leavesOf, getElem?_leavesOf] at hi
  refine Option.map_injective (fun a b hab => ?_) hi
  exact data_injective (List.append_cancel_left hab)

theorem leaves_of_spelled (hsize : hashes.length ≤ 2 ^ 32) (hsize' : hashes'.length ≤ 2 ^ 32) {i : Nat}
    (heq : (group MAX_CHILD_COUNT (leavesOf hashes) i).flatten
      = (group MAX_CHILD_COUNT (leavesOf hashes') i).flatten) :
    group MAX_CHILD_COUNT (leavesOf hashes) i = group MAX_CHILD_COUNT (leavesOf hashes') i :=
  flatten_injective (Nat.add_pos_right _ (by decide)) (fun _ => length_of_mem_group hsize)
    (fun _ => length_of_mem_group hsize') heq

/-- **Towers of leaves and hashes with one last level start from the same leaves.** -/
theorem leaves_of_towers (hsize : hashes.length ≤ 2 ^ 32) (hsize' : hashes'.length ≤ 2 ^ 32)
    (hne : hashes ≠ []) {n m : Nat} (hle : n ≤ m)
    (htop : (above MAX_CHILD_COUNT (parentOf hash))^[n] (leavesOf hashes)
      = (above MAX_CHILD_COUNT (parentOf hash))^[m] (leavesOf hashes'))
    (hspell : ∀ k < n, ∀ g ∈ groups MAX_CHILD_COUNT ((above MAX_CHILD_COUNT (parentOf hash))^[k] (leavesOf hashes)),
      ∀ k' < m, ∀ g' ∈ groups MAX_CHILD_COUNT ((above MAX_CHILD_COUNT (parentOf hash))^[k'] (leavesOf hashes')),
        hash g.flatten = hash g'.flatten → g.flatten = g'.flatten) :
    hashes = hashes' := by
  have hpos := List.length_pos_of_ne_nil hne
  obtain ⟨d, rfl⟩ : ∃ d, m = n + d := ⟨m - n, by omega⟩
  rw [Function.iterate_add_apply] at htop
  cases n with
  | zero =>
    rcases Nat.eq_zero_or_pos d with rfl | hd
    · exact leavesOf_injective htop
    · -- a leaf is too long to be a hash
      have hleaf : leafBytes 0 hashes[0] ∈ leavesOf hashes :=
        mem_leavesOf.mpr ⟨0, _, List.getElem?_eq_getElem hpos, rfl⟩
      rw [show leavesOf hashes = _ from htop] at hleaf
      have hlength := length_of_mem_iterate hd hleaf
      rw [leafBytes, List.length_append, hashes[0].length_data] at hlength
      have hindex := List.length_pos_of_ne_nil (indexBytes_isItem 0).ne_nil
      omega
  | succ n =>
    -- down to the level above the leaves
    have habove : above MAX_CHILD_COUNT (parentOf hash) (leavesOf hashes)
        = above MAX_CHILD_COUNT (parentOf hash) ((above MAX_CHILD_COUNT (parentOf hash))^[d] (leavesOf hashes')) := by
      refine eq_of_iterate_above (by decide) htop fun k hk g hg g' hg' heq => ?_
      rw [← Function.iterate_succ_apply] at hg hg'
      have hlengths : ∀ {xs : List Bytes} {g : List Bytes},
          g ∈ groups MAX_CHILD_COUNT ((above MAX_CHILD_COUNT (parentOf hash))^[k + 1] xs) → ∀ x ∈ g, x.length = 32 := by
        intro xs g hg x hx
        obtain ⟨i, -, rfl⟩ := mem_groups.mp hg
        exact length_of_mem_iterate (Nat.succ_pos k) (mem_of_mem_group hx)
      refine flatten_injective (by decide) (hlengths hg) (hlengths hg') ?_
      rw [← Function.iterate_add_apply] at hg'
      exact hspell _ (by omega) g hg _ (by omega) g' hg' (data_injective heq)
    obtain ⟨hcount, hparents⟩ := parents_of_above habove
    have hgroup : ∀ i < (groups MAX_CHILD_COUNT (leavesOf hashes)).length,
        (group MAX_CHILD_COUNT (leavesOf hashes) i).flatten
          = (group MAX_CHILD_COUNT ((above MAX_CHILD_COUNT (parentOf hash))^[d] (leavesOf hashes')) i).flatten := by
      intro i hi
      have hmem := mem_groups.mpr ⟨i, length_groups MAX_CHILD_COUNT _ ▸ hi, rfl⟩
      have hmem' := mem_groups.mpr ⟨i, length_groups MAX_CHILD_COUNT _ ▸ hcount ▸ hi, rfl⟩
      exact hspell 0 (Nat.succ_pos n) _ hmem d (by omega) _ hmem' (data_injective (hparents i hi))
    rcases Nat.eq_zero_or_pos d with rfl | hd
    · refine leavesOf_injective (eq_of_above (by decide) habove fun i hi _ => ?_)
      exact leaves_of_spelled hsize hsize' (hgroup i hi)
    · -- the first group of leaves spells no group of hashes
      have hfirst : 0 < (hashes.length + 15) / 16 := by omega
      have hspelled := leaves_spell_nodes hsize hfirst
        (fun x hx => length_of_mem_iterate hd (mem_of_mem_group hx)) (length_group_le MAX_CHILD_COUNT _ 0)
        (hgroup 0 (by rw [length_groups, length_leavesOf]; exact hfirst))
      omega

theorem top_eq_singleton (hash : Bytes → Hash) {leaves : List Bytes} (hne : leaves ≠ []) :
    ∃ last, top MAX_CHILD_COUNT (parentOf hash) leaves.length leaves = [last] := by
  have hone : (top MAX_CHILD_COUNT (parentOf hash) leaves.length leaves).length = 1 :=
    length_top (by decide) leaves.length hne (Nat.le_succ _)
  exact List.length_eq_one_iff.mp hone

theorem getHash256_eq_top (leaves : List Bytes) : getHash256 hash leaves
    = hash (top MAX_CHILD_COUNT (parentOf hash) leaves.length leaves).flatten := by
  by_cases hne : leaves = []
  · subst hne
    rfl
  · obtain ⟨last, hlast⟩ := top_eq_singleton hash hne
    rw [getHash256, if_neg (by simpa using hne), hlast]
    simp

theorem top_leavesOf (hash : Bytes → Hash) (hne : hashes ≠ []) : ∃ last n,
    (top MAX_CHILD_COUNT (parentOf hash) (leavesOf hashes).length (leavesOf hashes)) = [last] ∧ last ≠ [] ∧
    (above MAX_CHILD_COUNT (parentOf hash))^[n] (leavesOf hashes) = [last] ∧
    ∀ k < n, ∀ g ∈ groups MAX_CHILD_COUNT ((above MAX_CHILD_COUNT (parentOf hash))^[k] (leavesOf hashes)),
      g ∈ treeOf hash (leavesOf hashes) := by
  have hleaves : leavesOf hashes ≠ [] := by simpa [leavesOf] using hne
  obtain ⟨last, hlast⟩ := top_eq_singleton hash hleaves
  obtain ⟨n, htop, hgroups⟩ := exists_height MAX_CHILD_COUNT (parentOf hash) (leavesOf hashes).length (leavesOf hashes)
  rw [hlast] at htop
  refine ⟨last, n, hlast, ?_, htop.symm, hgroups⟩
  have hmem : last ∈ (above MAX_CHILD_COUNT (parentOf hash))^[n] (leavesOf hashes) := htop ▸ List.mem_singleton_self last
  rcases Nat.eq_zero_or_pos n with rfl | hn
  · obtain ⟨i, h, -, rfl⟩ := mem_leavesOf.mp hmem
    exact List.append_ne_nil_of_left_ne_nil (indexBytes_isItem i).ne_nil _
  · exact List.ne_nil_of_length_pos (by rw [length_of_mem_iterate hn hmem]; decide)

/-- **The root of a list is the root of no other list.** -/
theorem getHash256_injective (hsize : hashes.length ≤ 2 ^ 32) (hsize' : hashes'.length ≤ 2 ^ 32)
    (hapart : Apart hash (leavesOf hashes) (leavesOf hashes'))
    (h : getHash256 hash (leavesOf hashes) = getHash256 hash (leavesOf hashes')) : hashes = hashes' := by
  rw [getHash256_eq_top, getHash256_eq_top] at h
  have htops := hapart _ (top_mem_tree _ _ _ _) _ (top_mem_tree _ _ _ _) h
  by_cases hne : hashes = []
  · by_cases hne' : hashes' = []
    · rw [hne, hne']
    · obtain ⟨last, -, hlast, hlong, -⟩ := top_leavesOf hash hne'
      subst hne
      rw [hlast, List.flatten_singleton] at htops
      exact absurd htops.symm hlong
  · obtain ⟨last, n, hlast, hlong, htop, hgroups⟩ := top_leavesOf hash hne
    rw [hlast, List.flatten_singleton] at htops
    by_cases hne' : hashes' = []
    · subst hne'
      exact absurd htops hlong
    · obtain ⟨last', n', hlast', -, htop', hgroups'⟩ := top_leavesOf hash hne'
      rw [hlast', List.flatten_singleton] at htops
      rw [← htops] at htop'
      rcases Nat.le_total n n' with hle | hle
      · exact leaves_of_towers hsize hsize' hne hle (htop.trans htop'.symm)
          fun k hk g hg k' hk' g' hg' => hapart g (hgroups k hk g hg) g' (hgroups' k' hk' g' hg')
      · refine (leaves_of_towers hsize' hsize hne' hle (htop'.trans htop.symm) ?_).symm
        intro k hk g hg k' hk' g' hg' heq
        exact (hapart g' (hgroups k' hk' g' hg') g (hgroups' k hk g hg) heq.symm).symm

end Apart

end HieraChain.TrieHash2
