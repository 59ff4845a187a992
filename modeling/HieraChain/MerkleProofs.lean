/-
  HieraChain/MerkleProofs.lean
  ============================
  **Merkle proofs against the roots of the header.**

  Whatever was asked before, the caches of a chain hold the maps of its blocks
  (`CachesOk`), since they are looked up by the block's number.  From such maps the
  loop of `getMerkleProof` follows the way up to the root, so that a proof folds to
  the root of the present leaves where its leaf is one of them, and is empty where
  it is none (`foldProof_iff`).

  The header has that root where the cache of the list was empty, or was filled
  for these leaves.  It is not so for a block that was decoded: the decoder fills
  the cache of the transactions and leaves the cached root as it is.  And the leaf
  of an item is one of the tree's where its cached hash is that of its encoding;
  the setters of a receipt keep the hash it had before (`merkle_proofs_verify_iff`).

  A root is that of one list only (`roots_bind`).
-/
import HieraChain.BlockProofs
import HieraChain.TransactionCodec

namespace HieraChain.BlockProofs

open HieraChain.BigEndian HieraChain.RLP HieraChain.Hex HieraChain.Merkle HieraChain.Eth HieraChain.TrieHash2

/-! ### One proof -/

section Fold

variable {hash : Bytes → Hash} {hashes : List Hash}

theorem getHash256_eq {leaves : List Bytes} (hne : leaves ≠ []) :
    (getHash256 hash leaves).data
      = parentOf hash (top MAX_CHILD_COUNT (parentOf hash) leaves.length leaves) := by
  have hone : (top MAX_CHILD_COUNT (parentOf hash) leaves.length leaves).length = 1 :=
    length_top (by decide) leaves.length hne (Nat.le_succ _)
  obtain ⟨last, hlast⟩ := List.length_eq_one_iff.mp hone
  rw [getHash256, if_neg (by simpa using hne), hlast]
  simp [parentOf]

/-- **What the proof of an item folds to.** -/
theorem foldProof_iff (hsize : hashes.length ≤ 2 ^ 32) (hfree : CollisionFree hash (leavesOf hashes)) {i : Nat}
    {h : Hash} (hi : hashes[i]? = some h) (data : Bytes) {proof : Parent2ChildListMap}
    (hproof : IsProofMap hash (leavesOf hashes) proof) {child2Parent : Child2ParentMap}
    (hchild : IsParentMap hash (leavesOf hashes) child2Parent) (root : Hash) :
    foldProof hash (getHashNeed2Proof hash i data)
        (getMerkleProof (getHashNeed2Proof hash i data) proof child2Parent) = some root.data
      ↔ h = hash data ∧ root = getHash256 hash (leavesOf hashes) := by
  have hleaf : leafBytes i h ∈ leavesOf hashes := mem_leavesOf.mpr ⟨i, h, hi, rfl⟩
  have hne : leavesOf hashes ≠ [] := List.ne_nil_of_mem hleaf
  have hproper := proper_of_collisionFree hsize hfree
  have hlt : i < 2 ^ 32 := (List.getElem?_eq_some_iff.mp hi).1.trans_le hsize
  rw [getMerkleProof, getHashNeed2Proof]
  by_cases hfresh : h = hash data
  · -- the leaf has its way up
    subst hfresh
    obtain ⟨path, hclimb, hlength⟩ := exists_climb (w := MAX_CHILD_COUNT) (by decide)
      (fun g hg => hg) (fun g hg => parent_top_not_mem (by decide) hproper hg) hleaf
    rw [walk_eq hne hproper hproof hchild hclimb (by rw [hproof.size_eq hne hproper]; exact hlength),
      foldProof_climb hclimb, ← getHash256_eq hne]
    constructor
    · intro heq
      exact ⟨rfl, (data_injective (Option.some.inj heq)).symm⟩
    · rintro ⟨-, rfl⟩
      rfl
  · -- it is in no group, and too long to be a root
    have hstop : ∀ g ∈ treeOf hash (leavesOf hashes), leafBytes i (hash data) ∉ g := by
      intro g hg hmem
      rcases node_cases hg hmem with ⟨j, h', hj, heq⟩ | hlength
      · have hltj : j < 2 ^ 32 := (List.getElem?_eq_some_iff.mp hj).1.trans_le hsize
        obtain rfl := leafBytes_index hlt hltj [] [] (congrArg (· ++ []) heq)
        rw [hi] at hj
        obtain rfl := Option.some.inj hj
        exact hfresh (data_injective (List.append_cancel_left heq)).symm
      · exact absurd hlength (length_leafBytes i (hash data)).ne'
    rw [walk_eq hne hproper hproof hchild (.stop hstop) (Nat.zero_le _)]
    constructor
    · intro heq
      have hlength := congrArg List.length (Option.some.inj heq)
      rw [root.length_data] at hlength
      exact absurd hlength (length_leafBytes i (hash data)).ne'
    · rintro ⟨heq, -⟩
      exact absurd heq hfresh

end Fold

/-! ### The caches -/

structure CacheOk (hash : Bytes → Hash) (leavesAt : Int → Option (List Bytes)) (cache : ProofCache) : Prop where
  withProof : ∀ m, cache.withProof.2 = some m →
    ∃ leaves, leavesAt cache.withProof.1 = some leaves ∧ IsProofMap hash leaves m
  child2Parent : ∀ m, cache.child2Parent.2 = some m →
    ∃ leaves, leavesAt cache.child2Parent.1 = some leaves ∧ IsParentMap hash leaves m

section Cache

variable {hash : Bytes → Hash} {leavesAt : Int → Option (List Bytes)} {cache : ProofCache} {number : Int}
  {leaves : List Bytes}

theorem getParent2ChildList_spec (h : CacheOk hash leavesAt cache) (hat : leavesAt number = some leaves)
    {proof : Parent2ChildListMap} (hproof : IsProofMap hash leaves proof) :
    IsProofMap hash leaves (cache.getParent2ChildList number proof).1 ∧
      CacheOk hash leavesAt (cache.getParent2ChildList number proof).2 := by
  have hnew : CacheOk hash leavesAt { cache with withProof := (number, some proof) } := by
    refine ⟨?_, h.child2Parent⟩
    rintro m hm
    obtain rfl := Option.some.inj hm
    exact ⟨leaves, hat, hproof⟩
  rcases hcache : cache.withProof with ⟨first, _ | second⟩
  · simp only [ProofCache.getParent2ChildList, hcache]
    exact ⟨hproof, hnew⟩
  · simp only [ProofCache.getParent2ChildList, hcache]
    split
    next heq =>
      refine ⟨?_, h⟩
      obtain ⟨leaves', hat', hmap⟩ := h.withProof second (by rw [hcache])
      rw [hcache, heq, hat] at hat'
      obtain rfl := Option.some.inj hat'
      exact hmap
    next => exact ⟨hproof, hnew⟩

theorem getChild2ParentCache_spec (h : CacheOk hash leavesAt cache) (hat : leavesAt number = some leaves)
    {proof : Parent2ChildListMap} (hproof : IsProofMap hash leaves proof) (order : Order (Bytes × Bytes)) :
    IsParentMap hash leaves (cache.getChild2ParentCache order number proof).1 ∧
      CacheOk hash leavesAt (cache.getChild2ParentCache order number proof).2 := by
  have hparsed : IsParentMap hash leaves (parseMerkleMap order proof) := ⟨proof, order, hproof, rfl⟩
  have hnew : CacheOk hash leavesAt { cache with child2Parent := (number, some (parseMerkleMap order proof)) } := by
    refine ⟨h.withProof, ?_⟩
    rintro m hm
    obtain rfl := Option.some.inj hm
    exact ⟨leaves, hat, hparsed⟩
  rcases hcache : cache.child2Parent with ⟨first, _ | second⟩
  · simp only [ProofCache.getChild2ParentCache, hcache]
    exact ⟨hparsed, hnew⟩
  · simp only [ProofCache.getChild2ParentCache, hcache]
    split
    next heq =>
      refine ⟨?_, h⟩
      obtain ⟨leaves', hat', hmap⟩ := h.child2Parent second (by rw [hcache])
      rw [hcache, heq, hat] at hat'
      obtain rfl := Option.some.inj hat'
      exact hmap
    next => exact ⟨hparsed, hnew⟩

theorem proofOf_spec (h : CacheOk hash leavesAt cache) (hat : leavesAt number = some leaves)
    {proof : Parent2ChildListMap} (hproof : IsProofMap hash leaves proof) (s : Schedule) (node : Bytes) :
    (∃ m child, IsProofMap hash leaves m ∧ IsParentMap hash leaves child ∧
      (cache.proofOf s number proof node).1 = getMerkleProof node m child) ∧
    CacheOk hash leavesAt (cache.proofOf s number proof node).2 := by
  obtain ⟨hmap, hcache⟩ := getParent2ChildList_spec h hat hproof
  obtain ⟨hchild, hcache'⟩ := getChild2ParentCache_spec hcache hat hmap s.pairs
  exact ⟨⟨_, _, hmap, hchild, rfl⟩, hcache'⟩

end Cache

section Chain

variable {S : Type} {c : SignatureScheme Hash S} {chain : Chain c}

def Chain.transactionLeaves (chain : Chain c) (number : Int) : Option (List Bytes) :=
  (chain.getBlockByNumber number).map fun b => b.transactions.leaves (transactionKind c)

def Chain.receiptLeaves (chain : Chain c) (number : Int) : Option (List Bytes) :=
  (chain.getBlockByNumber number).map fun b => b.receipts.leaves (receiptKind c.hash)

structure CachesOk (chain : Chain c) (caches : Caches) : Prop where
  transactions : CacheOk c.hash chain.transactionLeaves caches.transactions
  receipts : CacheOk c.hash chain.receiptLeaves caches.receipts

theorem cachesOk_empty (chain : Chain c) : CachesOk chain {} where
  transactions := ⟨fun _ hm => (nomatch hm), fun _ hm => (nomatch hm)⟩
  receipts := ⟨fun _ hm => (nomatch hm), fun _ hm => (nomatch hm)⟩

variable {caches : Caches} {n : Int} {b : Block c}

theorem transactionProof_spec (h : CachesOk chain caches) (hblock : chain.getBlockByNumber n = some b) (s : Schedule)
    (index : Nat) (data : Bytes) :
    (∃ m child, IsProofMap c.hash (b.transactions.leaves (transactionKind c)) m ∧
      IsParentMap c.hash (b.transactions.leaves (transactionKind c)) child ∧
      (transactionProof s b index data caches).1 = getMerkleProof (getHashNeed2Proof c.hash index data) m child) ∧
    CachesOk chain (transactionProof s b index data caches).2 := by
  have hat : chain.transactionLeaves b.number = some (b.transactions.leaves (transactionKind c)) := by
    rw [Chain.transactionLeaves, chain.number_eq n b hblock, hblock]
    rfl
  obtain ⟨hanswer, hcache⟩ := proofOf_spec h.transactions hat ⟨s.groups, rfl⟩ s (getHashNeed2Proof c.hash index data)
  exact ⟨hanswer, hcache, h.receipts⟩

theorem receiptProof_spec (h : CachesOk chain caches) (hblock : chain.getBlockByNumber n = some b) (s : Schedule)
    (index : Nat) (data : Bytes) :
    (∃ m child, IsProofMap c.hash (b.receipts.leaves (receiptKind c.hash)) m ∧
      IsParentMap c.hash (b.receipts.leaves (receiptKind c.hash)) child ∧
      (receiptProof s b index data caches).1 = getMerkleProof (getHashNeed2Proof c.hash index data) m child) ∧
    CachesOk chain (receiptProof s b index data caches).2 := by
  have hat : chain.receiptLeaves b.number = some (b.receipts.leaves (receiptKind c.hash)) := by
    rw [Chain.receiptLeaves, chain.number_eq n b hblock, hblock]
    rfl
  obtain ⟨hanswer, hcache⟩ := proofOf_spec h.receipts hat ⟨s.groups, rfl⟩ s (getHashNeed2Proof c.hash index data)
  exact ⟨hanswer, h.transactions, hcache⟩

theorem getBlockAndIndexByTxHash_spec {txHash : Hash} {txIndex : Nat}
    (h : chain.getBlockAndIndexByTxHash txHash = some (b, txIndex)) :
    ∃ row, chain.txHash2Block.find? txHash = some row ∧ chain.getBlockByNumber row.1 = some b ∧
      row.2.toNat = txIndex := by
  simp only [Chain.getBlockAndIndexByTxHash, Option.bind_eq_bind, Option.bind_eq_some_iff, Option.pure_def,
    Option.some.injEq, Prod.mk.injEq] at h
  obtain ⟨row, hrow, b', hb', rfl, rfl⟩ := h
  exact ⟨row, hrow, hb', rfl⟩

/-- **Every query keeps the caches.** -/
theorem cachesOk_step (h : CachesOk chain caches) (q : Query × Schedule) : CachesOk chain ((machine chain).step caches q) := by
  obtain ⟨q, s⟩ := q
  cases q with
  | transaction number index =>
    simp only [machine, Query.caches, getTransactionProof]
    cases hblock : chain.getBlockByNumber number with
    | none => exact h
    | some b =>
      dsimp only
      cases b.transactions.list[index.toNat]? with
      | none => exact h
      | some tx => exact (transactionProof_spec h hblock s index.toNat tx.encoded).2
  | receipt number index =>
    simp only [machine, Query.caches, getTransactionReceiptProof]
    cases hblock : chain.getBlockByNumber number with
    | none => exact h
    | some b =>
      dsimp only
      cases b.receipts.list[index.toNat]? with
      | none => exact h
      | some txReceipt => exact (receiptProof_spec h hblock s index.toNat txReceipt.encoded).2
  | transactionByHash txHash =>
    simp only [machine, Query.caches, getTransactionByHashWithProof]
    rcases hfound : chain.getBlockAndIndexByTxHash txHash with _ | ⟨b, txIndex⟩
    · exact h
    · obtain ⟨row, -, hblock, -⟩ := getBlockAndIndexByTxHash_spec hfound
      dsimp only
      cases b.transactions.list[txIndex]? with
      | none => exact h
      | some tx => exact (transactionProof_spec h hblock s txIndex tx.encoded).2
  | receiptByHash txHash =>
    simp only [machine, Query.caches, getTransactionReceiptByHashWithProof]
    rcases hfound : chain.getBlockAndIndexByTxHash txHash with _ | ⟨b, txIndex⟩
    · exact h
    · obtain ⟨row, -, hblock, -⟩ := getBlockAndIndexByTxHash_spec hfound
      dsimp only
      cases b.receipts.list[txIndex]? with
      | none => exact h
      | some receipt =>
        cases b.transactions.list[txIndex]? with
        | none => exact h
        | some tx => exact (receiptProof_spec h hblock s txIndex receipt.encoded).2

theorem cachesOk_run (chain : Chain c) (queries : List (Query × Schedule)) :
    CachesOk chain ((machine chain).run {} queries) := by
  have hstep : ∀ caches q, CachesOk chain caches → CachesOk chain ((machine chain).step caches q) :=
    fun caches q h => cachesOk_step h q
  exact (machine chain).run_preserves hstep (cachesOk_empty chain) queries

end Chain

/-! ### Roots in the header -/

section Items

variable {Item : Type} {hash : Bytes → Hash} {k : ItemKind Item}

theorem getElem?_fillCache (hash : Bytes → Hash) (k : ItemKind Item) (p : Items Item) (i : Nat) :
    (p.fillCache hash k).list[i]? = p.list[i]? ∨ (p.fillCache hash k).list[i]? = p.list[i]?.map k.cached := by
  rw [Items.fillCache]
  split
  · exact .inl rfl
  · exact .inr List.getElem?_map

theorem leaves_fillCache (hash : Bytes → Hash) (k : ItemKind Item) (p : Items Item) : (p.fillCache hash k).leaves k = p.leaves k := by
  rw [Items.fillCache]
  split
  · rfl
  · rw [Items.leaves, Items.leaves, List.map_map]
    simp [k.hash_cached, Function.comp_def]

theorem list_calRoot (update : Bool) (p : Items Item) :
    (p.calRoot hash k update).list = (p.fillCache hash k).list := by
  rw [Items.calRoot]
  split <;> rfl

theorem leaves_calRoot (update : Bool) (p : Items Item) : (p.calRoot hash k update).leaves k = p.leaves k := by
  rw [← leaves_fillCache hash k p, Items.leaves, list_calRoot]
  rfl

theorem root_calRoot (p : Items Item) :
    (p.calRoot hash k true).root = if p.cached then p.rootCache else getHash256 hash (p.leaves k) := by
  cases hcached : p.cached <;> simp [Items.calRoot, Items.fillCache, hcached]

def CacheFresh (hash : Bytes → Hash) (k : ItemKind Item) (p : Items Item) : Prop :=
  p.cached = true → p.rootCache = getHash256 hash (p.leaves k)

def ItemFresh (hash : Bytes → Hash) (k : ItemKind Item) (p : Items Item) (i : Nat) : Prop :=
  ∃ t, p.list[i]? = some t ∧ k.hash t = hash (k.encoded t)

/-- The proof folds from the leaf of item `i` to the root in the header. -/
def Proves (hash : Bytes → Hash) (k : ItemKind Item) (p : Items Item) (i : Nat) (proof : Option MerkleProofType) : Prop :=
  ∃ t path, p.list[i]? = some t ∧ proof = some path ∧
    foldProof hash (getHashNeed2Proof hash i (k.encoded t)) path = some p.root.data

theorem root_calRoot_iff (p : Items Item) :
    (p.calRoot hash k true).root = getHash256 hash ((p.calRoot hash k true).leaves k) ↔ CacheFresh hash k p := by
  rw [root_calRoot, leaves_calRoot, CacheFresh]
  cases p.cached <;> simp

theorem itemFresh_calRoot (update : Bool) (p : Items Item) (i : Nat) :
    ItemFresh hash k (p.calRoot hash k update) i ↔ ItemFresh hash k p i := by
  rw [ItemFresh, ItemFresh, list_calRoot]
  rcases getElem?_fillCache hash k p i with heq | heq <;> rw [heq]
  cases p.list[i]? with
  | none => simp
  | some t => simp [k.hash_cached, k.encoded_cached]

/-- **The proof of item `i` from maps of the leaves, against the header.** -/
theorem proves_iff (p : Items Item) (hfree : CollisionFree hash (p.leaves k)) {i : Nat} {t : Item}
    (ht : p.list[i]? = some t) {m : Parent2ChildListMap} (hm : IsProofMap hash (p.leaves k) m)
    {child : Child2ParentMap} (hchild : IsParentMap hash (p.leaves k) child) :
    Proves hash k p i (some (getMerkleProof (getHashNeed2Proof hash i (k.encoded t)) m child)) ↔
      p.root = getHash256 hash (p.leaves k) ∧ ItemFresh hash k p i := by
  have hi : (p.list.map k.hash)[i]? = some (k.hash t) := by rw [List.getElem?_map, ht]; rfl
  have hsize : (p.list.map k.hash).length ≤ 2 ^ 32 := by rw [List.length_map]; exact p.length_le
  have hfold := foldProof_iff hsize hfree hi (k.encoded t) hm hchild p.root
  rw [Proves, ItemFresh]
  constructor
  · rintro ⟨t', path, ht', hpath, hroot⟩
    rw [ht] at ht'
    obtain rfl := Option.some.inj ht'
    obtain rfl := Option.some.inj hpath
    obtain ⟨hfresh, hheader⟩ := hfold.mp hroot
    exact ⟨hheader, t, ht, hfresh⟩
  · rintro ⟨hheader, t', ht', hfresh⟩
    rw [ht] at ht'
    obtain rfl := Option.some.inj ht'
    exact ⟨t, _, ht, rfl, hfold.mpr ⟨hfresh, hheader⟩⟩

end Items

/-! ### Proofs of a block -/

section Block

variable {S : Type} {c : SignatureScheme Hash S} {chain : Chain c} {n : Int} {b : Block c} {caches : Caches}

theorem getTransactionProof_eq {index : UInt64} {tx : BlockTransaction c}
    (htx : b.transactions.list[index.toNat]? = some tx) (s : Schedule) (caches : Caches) :
    (getTransactionProof s (some b) index caches).1
      = some (transactionProof s b index.toNat tx.encoded caches).1 := by
  simp [getTransactionProof, htx]

theorem transactionProof_iff (h : CachesOk chain caches) (hblock : chain.getBlockByNumber n = some b)
    (hfree : CollisionFree c.hash (b.transactions.leaves (transactionKind c))) (s : Schedule) {i : Nat}
    {tx : BlockTransaction c} (htx : b.transactions.list[i]? = some tx) :
    Proves c.hash (transactionKind c) b.transactions i (some (transactionProof s b i tx.encoded caches).1) ↔
      b.transactions.root = getHash256 c.hash (b.transactions.leaves (transactionKind c)) ∧
        ItemFresh c.hash (transactionKind c) b.transactions i := by
  obtain ⟨⟨m, child, hm, hchild, hanswer⟩, -⟩ := transactionProof_spec h hblock s i tx.encoded
  rw [hanswer]
  exact proves_iff b.transactions hfree htx hm hchild

theorem receiptProof_iff (h : CachesOk chain caches) (hblock : chain.getBlockByNumber n = some b)
    (hfree : CollisionFree c.hash (b.receipts.leaves (receiptKind c.hash))) (s : Schedule) {i : Nat}
    {receipt : TransactionReceipt} (hreceipt : b.receipts.list[i]? = some receipt) :
    Proves c.hash (receiptKind c.hash) b.receipts i (some (receiptProof s b i receipt.encoded caches).1) ↔
      b.receipts.root = getHash256 c.hash (b.receipts.leaves (receiptKind c.hash)) ∧
        ItemFresh c.hash (receiptKind c.hash) b.receipts i := by
  obtain ⟨⟨m, child, hm, hchild, hanswer⟩, -⟩ := receiptProof_spec h hblock s i receipt.encoded
  rw [hanswer]
  exact proves_iff b.receipts hfree hreceipt hm hchild

end Block

/-- **When the proofs of a block verify.**  `b₀` is the block before its roots were
    computed. -/
theorem merkle_proofs_verify_iff {S : Type} (c : SignatureScheme Hash S) (chain : Chain c) (n : Int)
    (b₀ b : Block c) (hb : b = (b₀.calTransactionRootV2_2_0 true).calReceiptRootV2_2_0 true)
    (hblock : chain.getBlockByNumber n = some b)
    (htxs : CollisionFree c.hash (b.transactions.leaves (transactionKind c)))
    (hreceipts : CollisionFree c.hash (b.receipts.leaves (receiptKind c.hash)))
    (queries : List (Query × Schedule)) (s : Schedule) (i : Nat) (hi : i < b₀.transactions.list.length) :
    (Proves c.hash (transactionKind c) b.transactions i
        (getTransactionProof s (some b) (UInt64.ofNat i) ((machine chain).run {} queries)).1 ↔
      CacheFresh c.hash (transactionKind c) b₀.transactions ∧ ItemFresh c.hash (transactionKind c) b₀.transactions i) ∧
    (Proves c.hash (receiptKind c.hash) b.receipts i
        (getTransactionReceiptProof s (some b) (UInt64.ofNat i) ((machine chain).run {} queries)).1 ↔
      CacheFresh c.hash (receiptKind c.hash) b₀.receipts ∧ ItemFresh c.hash (receiptKind c.hash) b₀.receipts i) ∧
    ∀ txHash, chain.txHash2Block.find? txHash = some (n, UInt32.ofNat i) →
      (Proves c.hash (transactionKind c) b.transactions i
          (some (getTransactionByHashWithProof s chain txHash ((machine chain).run {} queries)).1) ↔
        CacheFresh c.hash (transactionKind c) b₀.transactions ∧
          ItemFresh c.hash (transactionKind c) b₀.transactions i) ∧
      (Proves c.hash (receiptKind c.hash) b.receipts i
          (some (getTransactionReceiptByHashWithProof s chain txHash ((machine chain).run {} queries)).1) ↔
        CacheFresh c.hash (receiptKind c.hash) b₀.receipts ∧ ItemFresh c.hash (receiptKind c.hash) b₀.receipts i) := by
  have hcaches := cachesOk_run chain queries
  have hsmall : i < 2 ^ 32 := hi.trans_le b₀.transactions.length_le
  have hindex : (UInt64.ofNat i).toNat = i := by
    rw [UInt64.toNat_ofNat', Nat.mod_eq_of_lt (by omega)]
  have hrow : (UInt32.ofNat i).toNat = i := by
    rw [UInt32.toNat_ofNat', Nat.mod_eq_of_lt hsmall]
  -- the lists after the roots were computed, against the lists before
  have htxFresh : (b.transactions.root = getHash256 c.hash (b.transactions.leaves (transactionKind c)) ∧
      ItemFresh c.hash (transactionKind c) b.transactions i) ↔
      CacheFresh c.hash (transactionKind c) b₀.transactions ∧ ItemFresh c.hash (transactionKind c) b₀.transactions i := by
    subst hb
    exact and_congr (root_calRoot_iff _) (itemFresh_calRoot _ _ _)
  have hreceiptFresh : (b.receipts.root = getHash256 c.hash (b.receipts.leaves (receiptKind c.hash)) ∧
      ItemFresh c.hash (receiptKind c.hash) b.receipts i) ↔
      CacheFresh c.hash (receiptKind c.hash) b₀.receipts ∧ ItemFresh c.hash (receiptKind c.hash) b₀.receipts i := by
    subst hb
    exact and_congr (root_calRoot_iff _) (itemFresh_calRoot _ _ _)
  obtain ⟨tx, htx⟩ : ∃ tx, b.transactions.list[i]? = some tx := by
    obtain ⟨tx, htx⟩ : ∃ tx, b₀.transactions.list[i]? = some tx := ⟨_, List.getElem?_eq_getElem hi⟩
    subst hb
    change ∃ tx, (b₀.transactions.calRoot c.hash (transactionKind c) true).list[i]? = some tx
    rw [list_calRoot]
    rcases getElem?_fillCache c.hash (transactionKind c) b₀.transactions i with heq | heq <;> rw [heq, htx]
    · exact ⟨tx, rfl⟩
    · exact ⟨(transactionKind c).cached tx, rfl⟩
  refine ⟨?_, ?_, fun txHash hat => ?_⟩
  · rw [getTransactionProof_eq (by rw [hindex]; exact htx), hindex]
    exact (transactionProof_iff hcaches hblock htxs s htx).trans htxFresh
  · cases hreceipt : b.receipts.list[i]? with
    | none =>
      rw [← hreceiptFresh]
      simp [Proves, ItemFresh, hreceipt]
    | some receipt =>
      simp only [getTransactionReceiptProof, hindex, hreceipt]
      exact (receiptProof_iff hcaches hblock hreceipts s hreceipt).trans hreceiptFresh
  · have hfound : chain.getBlockAndIndexByTxHash txHash = some (b, i) := by
      simp [Chain.getBlockAndIndexByTxHash, hat, hblock, hrow]
    constructor
    · simp only [getTransactionByHashWithProof, hfound, htx]
      exact (transactionProof_iff hcaches hblock htxs s htx).trans htxFresh
    · cases hreceipt : b.receipts.list[i]? with
      | none =>
        rw [← hreceiptFresh]
        simp [Proves, ItemFresh, hreceipt]
      | some receipt =>
        simp only [getTransactionReceiptByHashWithProof, hfound, hreceipt, htx]
        exact (receiptProof_iff hcaches hblock hreceipts s hreceipt).trans hreceiptFresh

/-! ### What a root says -/

theorem root_calRoot_eq_iff {Item : Type} {hash : Bytes → Hash} {k : ItemKind Item} {p p' : Items Item}
    (hfresh : CacheFresh hash k p) (hfresh' : CacheFresh hash k p') (hapart : Apart hash (p.leaves k) (p'.leaves k)) :
    (p.calRoot hash k true).root = (p'.calRoot hash k true).root ↔ p.list.map k.hash = p'.list.map k.hash := by
  rw [(root_calRoot_iff p).mpr hfresh, (root_calRoot_iff p').mpr hfresh', leaves_calRoot, leaves_calRoot]
  constructor
  · intro heq
    refine getHash256_injective ?_ ?_ hapart heq
    · rw [List.length_map]
      exact p.length_le
    · rw [List.length_map]
      exact p'.length_le
  · intro heq
    rw [Items.leaves, Items.leaves, heq]

/-- **A root binds its list.**  Two blocks get one root for their transactions, or
    for their receipts, exactly when the lists have the same hashes in the same
    order; neither the length of a list nor the shape of its tree can be forged. -/
theorem roots_bind {S : Type} (c : SignatureScheme Hash S) (b b' : Block c)
    (htxs : CacheFresh c.hash (transactionKind c) b.transactions ∧ CacheFresh c.hash (transactionKind c) b'.transactions)
    (hreceipts : CacheFresh c.hash (receiptKind c.hash) b.receipts ∧ CacheFresh c.hash (receiptKind c.hash) b'.receipts)
    (hapart : Apart c.hash (b.transactions.leaves (transactionKind c)) (b'.transactions.leaves (transactionKind c)))
    (hapart' : Apart c.hash (b.receipts.leaves (receiptKind c.hash)) (b'.receipts.leaves (receiptKind c.hash))) :
    ((b.calTransactionRootV2_2_0 true).transactions.root = (b'.calTransactionRootV2_2_0 true).transactions.root ↔
      b.transactions.list.map BlockTransaction.hash = b'.transactions.list.map BlockTransaction.hash) ∧
    ((b.calReceiptRootV2_2_0 true).receipts.root = (b'.calReceiptRootV2_2_0 true).receipts.root ↔
      b.receipts.list.map (TransactionReceipt.hash c.hash) = b'.receipts.list.map (TransactionReceipt.hash c.hash)) :=
  ⟨root_calRoot_eq_iff htxs.1 htxs.2 hapart, root_calRoot_eq_iff hreceipts.1 hreceipts.2 hapart'⟩

/-! ### A block that was sealed and one that was decoded -/

def sumHash (b : Bytes) : Hash := ⟨pushInt (b.foldl (fun sum x => sum * 257 + x.toNat + 1) 7) 32, length_pushInt _ _⟩

def sumScheme : SignatureScheme Hash ECDSASignature := ecdsa sumHash fun _ _ => none

def sumTransaction : BlockTransaction sumScheme where
  transaction := plainCreation
  encoded := plainBytes
  encode_eq := by decide +kernel

def sumReceipt : TransactionReceipt where
  status := 0
  stateRoot := Hash.zero
  gasUsed := 21000
  contractAddress := Address.zero
  bloom := ⟨List.replicate 256 0, List.length_replicate⟩
  outputBytes := []
  log := []

def sealedBlock : Block sumScheme where
  number := 1
  transactions := { list := [sumTransaction, sumTransaction], length_le := by decide }
  receipts := { list := [sumReceipt, sumReceipt], length_le := by decide }

def decodedBlock : Block sumScheme where
  number := 1
  transactions := Items.decoded [sumTransaction, sumTransaction] (by decide) { list := [], length_le := by decide }
  receipts := { list := [sumReceipt, sumReceipt], length_le := by decide }

def withRoots (b : Block sumScheme) : Block sumScheme := (b.calTransactionRootV2_2_0 true).calReceiptRootV2_2_0 true

def chainOf (b : Block sumScheme) : Chain sumScheme where
  getBlockByNumber n := if n = b.number then some b else none
  number_eq n b' h := by
    split at h
    next heq => exact (Option.some.inj h) ▸ heq.symm
    next => cases h
  txHash2Block := AssocMap.empty.insert sumTransaction.hash (1, 1)

theorem chainOf_block (b : Block sumScheme) : (chainOf (withRoots b)).getBlockByNumber b.number = some (withRoots b) :=
  if_pos rfl

def anySchedule : Schedule := ⟨Order.inOrder _, Order.inOrder _⟩

theorem transactions_collisionFree : ∀ b ∈ [sealedBlock, decodedBlock],
    CollisionFree sumHash ((withRoots b).transactions.leaves (transactionKind sumScheme)) := by
  rw [List.forall_mem_cons, List.forall_mem_singleton]
  constructor <;> exact ⟨by decide +kernel, fun hlong => absurd hlong (by decide +kernel)⟩

theorem receipts_collisionFree : ∀ b ∈ [sealedBlock, decodedBlock],
    CollisionFree sumHash ((withRoots b).receipts.leaves (receiptKind sumHash)) := by
  rw [List.forall_mem_cons, List.forall_mem_singleton]
  constructor <;> exact ⟨by decide +kernel, fun hlong => absurd hlong (by decide +kernel)⟩

/-- The proofs of the sealed block's second transaction and of its receipt. -/
theorem merkle_proofs_verify_sealed :
    Proves sumHash (transactionKind sumScheme) (withRoots sealedBlock).transactions 1
        (getTransactionProof anySchedule (some (withRoots sealedBlock)) 1
          ((machine (chainOf (withRoots sealedBlock))).run {} [(.receipt 1 0, anySchedule)])).1 ∧
      Proves sumHash (receiptKind sumHash) (withRoots sealedBlock).receipts 1
        (some (getTransactionReceiptByHashWithProof anySchedule (chainOf (withRoots sealedBlock)) sumTransaction.hash
          ((machine (chainOf (withRoots sealedBlock))).run {} [(.receipt 1 0, anySchedule)])).1) := by
  have htxFresh : ItemFresh sumHash (transactionKind sumScheme) sealedBlock.transactions 1 :=
    ⟨sumTransaction, rfl, by decide +kernel⟩
  have hreceiptFresh : ItemFresh sumHash (receiptKind sumHash) sealedBlock.receipts 1 := ⟨sumReceipt, rfl, by decide +kernel⟩
  obtain ⟨htx, -, hbyHash⟩ := merkle_proofs_verify_iff sumScheme (chainOf (withRoots sealedBlock)) 1 sealedBlock
    (withRoots sealedBlock) rfl (chainOf_block sealedBlock) (transactions_collisionFree _ List.mem_cons_self)
    (receipts_collisionFree _ List.mem_cons_self) [(.receipt 1 0, anySchedule)] anySchedule 1 (by decide)
  have hrow : (chainOf (withRoots sealedBlock)).txHash2Block.find? sumTransaction.hash = some (1, 1) :=
    AssocMap.find?_insert_self _ _ _
  have htxCache : CacheFresh sumHash (transactionKind sumScheme) sealedBlock.transactions := fun hcached => nomatch hcached
  have hreceiptCache : CacheFresh sumHash (receiptKind sumHash) sealedBlock.receipts := fun hcached => nomatch hcached
  exact ⟨htx.mpr ⟨htxCache, htxFresh⟩, (hbyHash sumTransaction.hash hrow).2.mpr ⟨hreceiptCache, hreceiptFresh⟩⟩

/-- One transaction less gives another root. -/
theorem roots_bind_sealed :
    (sealedBlock.calTransactionRootV2_2_0 true).transactions.root ≠
      (({ sealedBlock with transactions := { list := [sumTransaction], length_le := by decide } } :
        Block sumScheme).calTransactionRootV2_2_0 true).transactions.root := by
  have hbind := roots_bind sumScheme sealedBlock
    { sealedBlock with transactions := { list := [sumTransaction], length_le := by decide } }
    ⟨fun hcached => absurd hcached Bool.false_ne_true, fun hcached => absurd hcached Bool.false_ne_true⟩
    ⟨fun hcached => absurd hcached Bool.false_ne_true, fun hcached => absurd hcached Bool.false_ne_true⟩
    (by unfold Apart; decide +kernel) (by unfold Apart; decide +kernel)
  intro heq
  have hlength := congrArg List.length (hbind.1.mp heq)
  exact absurd hlength (by decide)

/-- The header of the decoded block gets a root of no transactions. -/
theorem decoded_block_without_root :
    ¬ ∀ (c : SignatureScheme Hash ECDSASignature) (chain : Chain c) (n : Int) (b₀ b : Block c),
      b = (b₀.calTransactionRootV2_2_0 true).calReceiptRootV2_2_0 true → chain.getBlockByNumber n = some b →
      CollisionFree c.hash (b.transactions.leaves (transactionKind c)) →
      CollisionFree c.hash (b.receipts.leaves (receiptKind c.hash)) →
      ∀ (queries : List (Query × Schedule)) (s : Schedule) (i : Nat), i < b₀.transactions.list.length →
        Proves c.hash (transactionKind c) b.transactions i
          (getTransactionProof s (some b) (UInt64.ofNat i) ((machine chain).run {} queries)).1 := by
  intro h
  have hfree := transactions_collisionFree decodedBlock (by simp)
  have hproves := h sumScheme (chainOf (withRoots decodedBlock)) 1 decodedBlock (withRoots decodedBlock) rfl
    (chainOf_block decodedBlock) hfree (receipts_collisionFree decodedBlock (by simp)) [] anySchedule 0 (by decide)
  have htx : (withRoots decodedBlock).transactions.list[0]? = some sumTransaction := rfl
  have hindex : (UInt64.ofNat 0).toNat = 0 := rfl
  rw [Machine.run_nil, getTransactionProof_eq (by rw [hindex]; exact htx), hindex] at hproves
  have hroot := (transactionProof_iff (cachesOk_empty (chainOf (withRoots decodedBlock))) (chainOf_block decodedBlock)
    hfree anySchedule htx).mp hproves
  exact absurd hroot.1 (by decide +kernel)

end HieraChain.BlockProofs
