/-
  HieraChain/BlockProofs.lean
  ===========================
  **Roots of a block and the proofs of its items** (`libethcore/Block.cpp`,
  `libethcore/TransactionReceipt.h`, `libblockchain/BlockChainImp.cpp`), for
  version 2.2.0 and later.

  A block has two lists with a root each, of its transactions and of its
  receipts.  `calTransactionRoot` and `calReceiptRoot` compute a root only where
  the cache of the encoded list is empty, and write the cached root to the header.
  The leaves are built from `hash()`, which an item may have cached; a proof
  starts from a leaf built anew from the item's encoding.

  The chain answers a query from the maps of the block's tree, which it keeps for
  one block at a time, by the block's number.
-/
import HieraChain.Machine
import HieraChain.Transaction
import HieraChain.TrieHash2

namespace HieraChain.BlockProofs

open HieraChain.BigEndian HieraChain.RLP HieraChain.Hex HieraChain.Merkle HieraChain.Eth HieraChain.TrieHash2

/-! ### Receipts -/

structure LogEntry where
  address : Address
  topics : List Hash
  data : Bytes

def LogEntry.streamRLP (l : LogEntry) (s : RLPStream) : Except RLPError RLPStream := do
  let s ← appendList s 3
  let s ← appendHash s l.address
  let s ← appendVector s l.topics
  appendBytes s l.data

/-- A receipt; `receiptCache` and `hashCache` are `m_receipt` and `m_hash`, which
    no setter clears. -/
structure TransactionReceipt where
  status : UInt32
  stateRoot : Hash
  gasUsed : U256
  contractAddress : Address
  bloom : FixedHash 256
  outputBytes : Bytes
  log : List LogEntry
  receiptCache : Bytes := []
  hashCache : Option Hash := none

namespace TransactionReceipt

def streamRLP (r : TransactionReceipt) (s : RLPStream) : Except RLPError RLPStream := do
  let s ← appendList s 7
  let s ← appendHash s r.stateRoot
  let s ← appendBigint s r.gasUsed.toNat
  let s ← appendHash s r.contractAddress
  let s ← appendHash s r.bloom
  let s ← appendBigint s r.status.toNat
  let s ← appendBytes s r.outputBytes
  let s ← appendList s r.log.length
  r.log.foldlM (fun s l => l.streamRLP s) s

def encode (r : TransactionReceipt) : Except RLPError Bytes := do
  out (← r.streamRLP {})

end TransactionReceipt

def LogEntry.writers (l : LogEntry) : List Writer :=
  [(fun s => appendHash s l.address, strItem l.address.data),
    (fun s => appendVector s l.topics, listItem (l.topics.map fun x => strItem x.data).flatten),
    (fun s => appendBytes s l.data, strItem l.data)]

def LogEntry.encoded (l : LogEntry) : Bytes := listItem (l.writers.map Prod.snd).flatten

theorem LogEntry.appends (l : LogEntry) : Appends l.streamRLP l.encoded := by
  have hlist := appends_list l.writers (by
    simp only [writers, List.forall_mem_cons, List.not_mem_nil, false_imp_iff, implies_true, and_true]
    exact ⟨appends_hash _, appends_vector _, appends_bytes _⟩)
  intro s
  rw [encoded, ← hlist s]
  simp [streamRLP, writers]

namespace TransactionReceipt

def logWriters (r : TransactionReceipt) : List Writer := r.log.map fun l => (l.streamRLP, l.encoded)

def writers (r : TransactionReceipt) : List Writer :=
  [(fun s => appendHash s r.stateRoot, strItem r.stateRoot.data),
    (fun s => appendBigint s r.gasUsed.toNat, strItem (bigEndian r.gasUsed.toNat)),
    (fun s => appendHash s r.contractAddress, strItem r.contractAddress.data),
    (fun s => appendHash s r.bloom, strItem r.bloom.data),
    (fun s => appendBigint s r.status.toNat, strItem (bigEndian r.status.toNat)),
    (fun s => appendBytes s r.outputBytes, strItem r.outputBytes),
    (fun s => do
      let s ← appendList s r.logWriters.length
      (r.logWriters.map Prod.fst).foldlM (fun s f => f s) s, listItem (r.logWriters.map Prod.snd).flatten)]

/-- What `encode` writes. -/
def encoded (r : TransactionReceipt) : Bytes := listItem (r.writers.map Prod.snd).flatten

theorem encode_eq (r : TransactionReceipt) : r.encode = .ok r.encoded := by
  have hlog := appends_list r.logWriters (by
    simp only [logWriters, List.mem_map, forall_exists_index, and_imp, forall_apply_eq_imp_iff₂]
    intro l _
    exact l.appends)
  have hlist := (appends_list r.writers (by
    simp only [writers, List.forall_mem_cons, List.not_mem_nil, false_imp_iff, implies_true, and_true]
    exact ⟨appends_hash _, appends_bigint _, appends_hash _, appends_hash _, appends_bigint _, appends_bytes _, hlog⟩)).run []
  have hstream : r.streamRLP {} = .ok { mOut := r.encoded, mListStack := [] } := by
    rw [List.nil_append] at hlist
    rw [encoded, ← hlist]
    simp [streamRLP, writers, logWriters, List.foldlM_map]
  rw [encode, hstream]
  rfl

/-- `receipt()` -/
def receipt (r : TransactionReceipt) : Bytes := if r.receiptCache = [] then r.encoded else r.receiptCache

/-- `hash()` -/
def hash (hash : Bytes → Hash) (r : TransactionReceipt) : Hash := r.hashCache.getD (hash r.receipt)

/-- The receipt after `receipt()` and `hash()`. -/
def cached (hash : Bytes → Hash) (r : TransactionReceipt) : TransactionReceipt :=
  { r with receiptCache := r.receipt, hashCache := some (r.hash hash) }

def setStateRoot (stateRoot : Hash) (r : TransactionReceipt) : TransactionReceipt := { r with stateRoot }

end TransactionReceipt

/-! ### Transactions -/

def Hash.zero : Hash := ⟨List.replicate 32 0, length_zeros_32⟩

/-- A transaction of a block, which can be encoded; `hashWith` is `m_hashWith`,
    zero where `hash()` was not called. -/
structure BlockTransaction {S : Type} (c : SignatureScheme Hash S) where
  transaction : Transaction S
  encoded : Bytes
  encode_eq : transaction.encode c .RC2 = .ok encoded
  hashWith : Hash := Hash.zero

namespace BlockTransaction

variable {S : Type} {c : SignatureScheme Hash S}

/-- `hash()` -/
def hash (t : BlockTransaction c) : Hash := if t.hashWith ≠ Hash.zero then t.hashWith else c.hash t.encoded

def cached (t : BlockTransaction c) : BlockTransaction c := { t with hashWith := t.hash }

end BlockTransaction

/-! ### The lists of a block -/

structure ItemKind (Item : Type) where
  hash : Item → Hash
  encoded : Item → Bytes
  /-- the item after `hash()` -/
  cached : Item → Item
  /-- whether the encoding of a list without items has bytes -/
  encodesEmpty : Bool
  hash_cached : ∀ t, hash (cached t) = hash t
  encoded_cached : ∀ t, encoded (cached t) = encoded t

def transactionKind {S : Type} (c : SignatureScheme Hash S) : ItemKind (BlockTransaction c) where
  hash := BlockTransaction.hash
  encoded := BlockTransaction.encoded
  cached := BlockTransaction.cached
  encodesEmpty := false
  hash_cached t := by
    by_cases hset : t.hash = Hash.zero
    · have hzero : t.hashWith = Hash.zero := by
        by_contra hne
        rw [BlockTransaction.hash, if_pos hne] at hset
        exact hne hset
      simp [BlockTransaction.hash, BlockTransaction.cached, hzero]
    · rw [BlockTransaction.hash, BlockTransaction.cached, if_pos hset]
  encoded_cached _ := rfl

def receiptKind (hash : Bytes → Hash) : ItemKind TransactionReceipt where
  hash := TransactionReceipt.hash hash
  encoded := TransactionReceipt.encoded
  cached := TransactionReceipt.cached hash
  encodesEmpty := true
  hash_cached _ := rfl
  encoded_cached _ := rfl

/-- A list of the block: its items, whether the cache of the encoded list has
    bytes, the root computed with them, and the root in the header.  The loops
    over a list count in 32 bits. -/
structure Items (Item : Type) where
  list : List Item
  length_le : list.length ≤ 2 ^ 32
  cached : Bool := false
  rootCache : Hash := Hash.zero
  root : Hash := Hash.zero

namespace Items

variable {Item : Type} (hash : Bytes → Hash) (k : ItemKind Item)

def leaves (p : Items Item) : List Bytes := leavesOf (p.list.map k.hash)

/-- `if (m_txsCache == bytes())`, and the same for the receipts. -/
def fillCache (p : Items Item) : Items Item :=
  if p.cached then p
  else
    { p with
      list := p.list.map k.cached
      length_le := by rw [List.length_map]; exact p.length_le
      cached := k.encodesEmpty || !p.list.isEmpty
      rootCache := getHash256 hash (p.leaves k) }

def calRoot (update : Bool) (p : Items Item) : Items Item :=
  let p := p.fillCache hash k
  if update then { p with root := p.rootCache } else p

/-- The list after `decodeRC2`, which puts the bytes it was read from into the
    cache.  The cached root is the one that was there. -/
def decoded (list : List Item) (h : list.length ≤ 2 ^ 32) (p : Items Item) : Items Item :=
  { p with list, length_le := h, cached := true }

end Items

structure Block {S : Type} (c : SignatureScheme Hash S) where
  number : Int
  transactions : Items (BlockTransaction c)
  receipts : Items TransactionReceipt

namespace Block

variable {S : Type} {c : SignatureScheme Hash S}

def calTransactionRootV2_2_0 (update : Bool) (b : Block c) : Block c :=
  { b with transactions := b.transactions.calRoot c.hash (transactionKind c) update }

def calReceiptRootV2_2_0 (update : Bool) (b : Block c) : Block c :=
  { b with receipts := b.receipts.calRoot c.hash (receiptKind c.hash) update }

def getTransactionProof (order : Order (List Bytes)) (b : Block c) : Parent2ChildListMap :=
  TrieHash2.getMerkleProof c.hash order (b.transactions.leaves (transactionKind c))

def getReceiptProof (order : Order (List Bytes)) (b : Block c) : Parent2ChildListMap :=
  TrieHash2.getMerkleProof c.hash order (b.receipts.leaves (receiptKind c.hash))

end Block

/-! ### Proofs from the maps -/

abbrev Child2ParentMap := AssocMap Bytes Bytes
abbrev MerkleProofType := List (List Bytes × List Bytes)

def getHashNeed2Proof (hash : Bytes → Hash) (index : Nat) (data : Bytes) : Bytes := leafBytes index (hash data)

def childPairs (parent2ChildList : Parent2ChildListMap) : List (Bytes × Bytes) :=
  parent2ChildList.entries.flatMap fun entry => entry.2.map fun child => (child, entry.1)

def setParent (child2Parent : Child2ParentMap) (pair : Bytes × Bytes) : Child2ParentMap :=
  if pair.1 = [] then child2Parent else child2Parent.insert pair.1 pair.2

/-- `parseMerkleMap`, with its loops in any order. -/
def parseMerkleMap (order : Order (Bytes × Bytes)) (parent2ChildList : Parent2ChildListMap) : Child2ParentMap :=
  (order.run (childPairs parent2ChildList)).foldl setParent AssocMap.empty

/-- The loop of `getMerkleProof`.  It comes to every parent once at most where
    hashes do not repeat, so that the size of the map is enough fuel. -/
def walk (parent2ChildList : Parent2ChildListMap) (child2Parent : Child2ParentMap) : Nat → Bytes → MerkleProofType
  | 0, _ => []
  | fuel + 1, merkleNode =>
    match child2Parent.find? merkleNode with
    | none => []
    | some parent =>
      match parent2ChildList.find? parent with
      | none => []
      | some childList =>
        if merkleNode ∈ childList then
          (childList.take (childList.idxOf merkleNode), childList.drop (childList.idxOf merkleNode + 1))
            :: walk parent2ChildList child2Parent fuel parent
        else []

def getMerkleProof (txHash : Bytes) (parent2ChildList : Parent2ChildListMap) (child2Parent : Child2ParentMap) :
    MerkleProofType :=
  walk parent2ChildList child2Parent parent2ChildList.size (toHex txHash)

/-- A proof folded over a leaf: the hash of left, node and right, step by step. -/
def foldProof (hash : Bytes → Hash) : Bytes → MerkleProofType → Option Bytes
  | node, [] => some node
  | node, step :: path => do
    let left ← step.1.mapM fromHex
    let right ← step.2.mapM fromHex
    foldProof hash (hash (left.flatten ++ node ++ right.flatten)).data path

/-! ### The chain and its caches -/

/-- `m_transactionWithProof` and `m_txsChild2ParentCache`, or the two caches of
    the receipts. -/
structure ProofCache where
  withProof : Int × Option Parent2ChildListMap := (0, none)
  child2Parent : Int × Option Child2ParentMap := (0, none)

structure Schedule where
  groups : Order (List Bytes)
  pairs : Order (Bytes × Bytes)

namespace ProofCache

/-- `getParent2ChildListByTxsProofCache`, `getParent2ChildListByReceiptProofCache` -/
def getParent2ChildList (number : Int) (proof : Parent2ChildListMap) (cache : ProofCache) :
    Parent2ChildListMap × ProofCache :=
  match cache.withProof with
  | (first, some second) =>
    if first = number then (second, cache) else (proof, { cache with withProof := (number, some proof) })
  | (_, none) => (proof, { cache with withProof := (number, some proof) })

def getChild2ParentCache (order : Order (Bytes × Bytes)) (number : Int) (parent2Child : Parent2ChildListMap)
    (cache : ProofCache) : Child2ParentMap × ProofCache :=
  let parsed := parseMerkleMap order parent2Child
  match cache.child2Parent with
  | (first, some second) =>
    if first = number then (second, cache) else (parsed, { cache with child2Parent := (number, some parsed) })
  | (_, none) => (parsed, { cache with child2Parent := (number, some parsed) })

def proofOf (s : Schedule) (number : Int) (proof : Parent2ChildListMap) (hashWithIndex : Bytes)
    (cache : ProofCache) : MerkleProofType × ProofCache :=
  let (parent2ChildList, cache) := cache.getParent2ChildList number proof
  let (child2Parent, cache) := cache.getChild2ParentCache s.pairs number parent2ChildList
  (getMerkleProof hashWithIndex parent2ChildList child2Parent, cache)

end ProofCache

/-- The chain that is queried: the blocks by their number, and the rows of
    `SYS_TX_HASH_2_BLOCK`. -/
structure Chain {S : Type} (c : SignatureScheme Hash S) where
  getBlockByNumber : Int → Option (Block c)
  number_eq : ∀ n b, getBlockByNumber n = some b → b.number = n
  txHash2Block : AssocMap Hash (Int × UInt32)

structure Caches where
  transactions : ProofCache := {}
  receipts : ProofCache := {}

namespace Chain

variable {S : Type} {c : SignatureScheme Hash S}

def getBlockAndIndexByTxHash (chain : Chain c) (txHash : Hash) : Option (Block c × Nat) := do
  let row ← chain.txHash2Block.find? txHash
  let block ← chain.getBlockByNumber row.1
  return (block, row.2.toNat)

end Chain

section Queries

variable {S : Type} {c : SignatureScheme Hash S}

/-- The proof of item `index`, whose encoding is `data`, from the block's map. -/
def transactionProof (s : Schedule) (b : Block c) (index : Nat) (data : Bytes) (caches : Caches) :
    MerkleProofType × Caches :=
  let (proof, cache) := caches.transactions.proofOf s b.number (b.getTransactionProof s.groups)
    (getHashNeed2Proof c.hash index data)
  (proof, { caches with transactions := cache })

def receiptProof (s : Schedule) (b : Block c) (index : Nat) (data : Bytes) (caches : Caches) :
    MerkleProofType × Caches :=
  let (proof, cache) := caches.receipts.proofOf s b.number (b.getReceiptProof s.groups)
    (getHashNeed2Proof c.hash index data)
  (proof, { caches with receipts := cache })

def getTransactionProof (s : Schedule) (block : Option (Block c)) (index : UInt64) (caches : Caches) :
    Option MerkleProofType × Caches :=
  match block with
  | none => (none, caches)
  | some b =>
    match b.transactions.list[index.toNat]? with
    | none => (none, caches)
    | some tx =>
      let (proof, caches) := transactionProof s b index.toNat tx.encoded caches
      (some proof, caches)

def getTransactionReceiptProof (s : Schedule) (block : Option (Block c)) (index : UInt64) (caches : Caches) :
    Option MerkleProofType × Caches :=
  match block with
  | none => (none, caches)
  | some b =>
    match b.receipts.list[index.toNat]? with
    | none => (none, caches)
    | some txReceipt =>
      let (proof, caches) := receiptProof s b index.toNat txReceipt.encoded caches
      (some proof, caches)

/-- The proof of `getTransactionByHashWithProof`; it is empty where the
    transaction is not found. -/
def getTransactionByHashWithProof (s : Schedule) (chain : Chain c) (txHash : Hash) (caches : Caches) :
    MerkleProofType × Caches :=
  match chain.getBlockAndIndexByTxHash txHash with
  | none => ([], caches)
  | some (b, txIndex) =>
    match b.transactions.list[txIndex]? with
    | none => ([], caches)
    | some tx => transactionProof s b txIndex tx.encoded caches

/-- The proof of `getTransactionReceiptByHashWithProof`.  The localised receipt
    is encoded as the receipt is. -/
def getTransactionReceiptByHashWithProof (s : Schedule) (chain : Chain c) (txHash : Hash) (caches : Caches) :
    MerkleProofType × Caches :=
  match chain.getBlockAndIndexByTxHash txHash with
  | none => ([], caches)
  | some (b, txIndex) =>
    match b.receipts.list[txIndex]?, b.transactions.list[txIndex]? with
    | some receipt, some _ => receiptProof s b txIndex receipt.encoded caches
    | _, _ => ([], caches)

inductive Query
  | transaction (number : Int) (index : UInt64)
  | receipt (number : Int) (index : UInt64)
  | transactionByHash (txHash : Hash)
  | receiptByHash (txHash : Hash)

def Query.caches (chain : Chain c) (caches : Caches) : Query × Schedule → Caches
  | (.transaction number index, s) => (getTransactionProof s (chain.getBlockByNumber number) index caches).2
  | (.receipt number index, s) => (getTransactionReceiptProof s (chain.getBlockByNumber number) index caches).2
  | (.transactionByHash txHash, s) => (getTransactionByHashWithProof s chain txHash caches).2
  | (.receiptByHash txHash, s) => (getTransactionReceiptByHashWithProof s chain txHash caches).2

def machine (chain : Chain c) : Machine Caches (Query × Schedule) := ⟨Query.caches chain⟩

end Queries

/-! ### What the maps hold -/

theorem find?_foldl_setParent {ps : List (Bytes × Bytes)} (hne : ∀ e ∈ ps, e.1 ≠ [])
    (hfun : ∀ k p p', (k, p) ∈ ps → (k, p') ∈ ps → p = p') (m : Child2ParentMap) (k p : Bytes) :
    (ps.foldl setParent m).find? k = some p ↔ (k, p) ∈ ps ∨ (∀ p', (k, p') ∉ ps) ∧ m.find? k = some p := by
  induction ps generalizing m with
  | nil => simp
  | cons e ps ih =>
    obtain ⟨child, parent⟩ := e
    have hinsert : setParent m (child, parent) = m.insert child parent := if_neg (hne _ List.mem_cons_self)
    rw [List.foldl_cons, hinsert, ih (fun e he => hne e (List.mem_cons_of_mem _ he))
      (fun k p p' h h' => hfun k p p' (List.mem_cons_of_mem _ h) (List.mem_cons_of_mem _ h')), AssocMap.find?_insert]
    by_cases hk : k = child
    · subst hk
      rw [if_pos rfl]
      constructor
      · rintro (h | ⟨-, h⟩)
        · exact .inl (List.mem_cons_of_mem _ h)
        · obtain rfl := Option.some.inj h
          exact .inl List.mem_cons_self
      · rintro (h | ⟨h, -⟩)
        · obtain rfl : p = parent := hfun k p parent h List.mem_cons_self
          by_cases hlater : ∃ p', (k, p') ∈ ps
          · obtain ⟨p', hp'⟩ := hlater
            obtain rfl : p' = p := hfun k p' p (List.mem_cons_of_mem _ hp') h
            exact .inl hp'
          · exact .inr ⟨not_exists.mp hlater, rfl⟩
        · exact absurd List.mem_cons_self (h parent)
    · simp [hk]

section Maps

variable {hash : Bytes → Hash} {hashes : List Hash}

def IsProofMap (hash : Bytes → Hash) (leaves : List Bytes) (m : Parent2ChildListMap) : Prop :=
  ∃ order, m = TrieHash2.getMerkleProof hash order leaves

def IsParentMap (hash : Bytes → Hash) (leaves : List Bytes) (m : Child2ParentMap) : Prop :=
  ∃ proof order, IsProofMap hash leaves proof ∧ m = parseMerkleMap order proof

def hexStep (step : List Bytes × List Bytes) : List Bytes × List Bytes := (step.1.map toHex, step.2.map toHex)

theorem mapM_fromHex (xs : List Bytes) : (xs.map toHex).mapM fromHex = some xs := by
  induction xs with
  | nil => rfl
  | cons x xs ih => simp [fromHex_toHex, ih]

theorem foldProof_climb {t : List (List Bytes)} {x root : Bytes} {path : List (List Bytes × List Bytes)}
    (h : Climb (parentOf hash) t x path root) : foldProof hash x (path.map hexStep) = some root := by
  induction h with
  | stop => rfl
  | @step x root left right path hmem hfirst h ih =>
    rw [List.map_cons, foldProof, hexStep, mapM_fromHex, mapM_fromHex]
    simpa [parentOf] using ih

theorem toHex_ne_nil {x : Bytes} (h : x ≠ []) : toHex x ≠ [] := by
  intro heq
  apply h
  rw [← List.length_eq_zero_iff] at heq ⊢
  rw [length_toHex] at heq
  omega

theorem node_cases {g : List Bytes} (hg : g ∈ treeOf hash (leavesOf hashes)) {x : Bytes} (hx : x ∈ g) :
    (∃ i h, hashes[i]? = some h ∧ x = leafBytes i h) ∨ x.length = 32 := by
  rcases mem_or_eq_parent hg hx with hleaf | ⟨g', -, rfl⟩
  · exact .inl (mem_leavesOf.mp hleaf)
  · exact .inr (hash g'.flatten).length_data

theorem length_leafBytes (i : Nat) (h : Hash) : 32 < (leafBytes i h).length := by
  have hpos := List.length_pos_of_ne_nil (indexBytes_isItem i).ne_nil
  rw [leafBytes, List.length_append, h.length_data]
  omega

theorem node_ne_nil {g : List Bytes} (hg : g ∈ treeOf hash (leavesOf hashes)) {x : Bytes} (hx : x ∈ g) : x ≠ [] := by
  rw [← List.length_pos_iff]
  rcases node_cases hg hx with ⟨i, h, -, rfl⟩ | hlength
  · exact (Nat.zero_lt_succ 31).trans (length_leafBytes i h)
  · omega

theorem mem_childPairs {m : Parent2ChildListMap} {k p : Bytes} :
    (k, p) ∈ childPairs m ↔ ∃ l, m.find? p = some l ∧ k ∈ l := by
  simp only [childPairs, List.mem_flatMap, List.mem_map, Prod.mk.injEq, Prod.exists, ← AssocMap.mem_entries_iff]
  constructor
  · rintro ⟨_, l, hmem, _, hk, rfl, rfl⟩
    exact ⟨l, hmem, hk⟩
  · rintro ⟨l, hmem, hk⟩
    exact ⟨p, l, hmem, k, hk, rfl, rfl⟩

variable (hne : leavesOf hashes ≠ [])
  (hproper : Proper (parentOf hash) (leavesOf hashes) (treeOf hash (leavesOf hashes)))

include hne hproper

theorem IsProofMap.size_eq {m : Parent2ChildListMap} (h : IsProofMap hash (leavesOf hashes) m) :
    m.size = (treeOf hash (leavesOf hashes)).length := by
  obtain ⟨order, rfl⟩ := h
  exact (getMerkleProof_spec order hne hproper).1

theorem IsProofMap.find?_iff {m : Parent2ChildListMap} (h : IsProofMap hash (leavesOf hashes) m) (k : Bytes) (l : List Bytes) :
    m.find? k = some l ↔ ∃ g ∈ treeOf hash (leavesOf hashes), k = toHex (parentOf hash g) ∧ l = g.map toHex := by
  obtain ⟨order, rfl⟩ := h
  exact (getMerkleProof_spec order hne hproper).2 k l

theorem mem_childPairs_iff {m : Parent2ChildListMap} (h : IsProofMap hash (leavesOf hashes) m) {k p : Bytes} :
    (k, p) ∈ childPairs m ↔
      ∃ g ∈ treeOf hash (leavesOf hashes), ∃ x ∈ g, k = toHex x ∧ p = toHex (parentOf hash g) := by
  rw [mem_childPairs]
  constructor
  · rintro ⟨l, hl, hk⟩
    obtain ⟨g, hg, rfl, rfl⟩ := (h.find?_iff hne hproper p l).mp hl
    obtain ⟨x, hx, rfl⟩ := List.mem_map.mp hk
    exact ⟨g, hg, x, hx, rfl, rfl⟩
  · rintro ⟨g, hg, x, hx, rfl, rfl⟩
    exact ⟨_, (h.find?_iff hne hproper _ _).mpr ⟨g, hg, rfl, rfl⟩, List.mem_map_of_mem hx⟩

theorem IsParentMap.find?_iff {m : Child2ParentMap} (h : IsParentMap hash (leavesOf hashes) m) (k p : Bytes) :
    m.find? k = some p ↔
      ∃ g ∈ treeOf hash (leavesOf hashes), ∃ x ∈ g, k = toHex x ∧ p = toHex (parentOf hash g) := by
  obtain ⟨proof, order, hproof, rfl⟩ := h
  have hmem : ∀ k p, (k, p) ∈ order.run (childPairs proof) ↔
      ∃ g ∈ treeOf hash (leavesOf hashes), ∃ x ∈ g, k = toHex x ∧ p = toHex (parentOf hash g) := by
    intro k p
    rw [(order.perm _).mem_iff, mem_childPairs_iff hne hproper hproof]
  rw [parseMerkleMap, find?_foldl_setParent]
  · rw [hmem]
    simp
  · rintro ⟨k, p⟩ he
    obtain ⟨g, hg, x, hx, rfl, -⟩ := (hmem k p).mp he
    exact toHex_ne_nil (node_ne_nil hg hx)
  · intro k p p' h h'
    obtain ⟨g, hg, x, hx, rfl, rfl⟩ := (hmem k p).mp h
    obtain ⟨g', hg', x', hx', heq, rfl⟩ := (hmem (toHex x) p').mp h'
    obtain rfl := toHex_injective heq
    rw [eq_of_mem_tree (by decide) hproper hg hg' hx hx']

theorem walk_eq {proof : Parent2ChildListMap} (hproof : IsProofMap hash (leavesOf hashes) proof)
    {child2Parent : Child2ParentMap} (hchild : IsParentMap hash (leavesOf hashes) child2Parent) {x root : Bytes}
    {path : List (List Bytes × List Bytes)} (h : Climb (parentOf hash) (treeOf hash (leavesOf hashes)) x path root)
    {fuel : Nat} (hfuel : path.length ≤ fuel) :
    walk proof child2Parent fuel (toHex x) = path.map hexStep := by
  induction h generalizing fuel with
  | @stop x hstop =>
    have hnone : child2Parent.find? (toHex x) = none := by
      rw [Option.eq_none_iff_forall_not_mem]
      intro p hp
      obtain ⟨g, hg, y, hy, heq, -⟩ := (hchild.find?_iff hne hproper _ p).mp hp
      exact hstop g hg (toHex_injective heq ▸ hy)
    cases fuel with
    | zero => rfl
    | succ fuel =>
      rw [walk, hnone]
      rfl
  | @step x root left right path hmem hfirst h ih =>
    obtain ⟨fuel, rfl⟩ : ∃ n, fuel = n + 1 := ⟨fuel - 1, by rw [List.length_cons] at hfuel; omega⟩
    have hparent : child2Parent.find? (toHex x) = some (toHex (parentOf hash (left ++ x :: right))) :=
      (hchild.find?_iff hne hproper _ _).mpr ⟨_, hmem, x, by simp, rfl, rfl⟩
    have hlist : proof.find? (toHex (parentOf hash (left ++ x :: right))) = some ((left ++ x :: right).map toHex) :=
      (hproof.find?_iff hne hproper _ _).mpr ⟨_, hmem, rfl, rfl⟩
    have hplace : ((left ++ x :: right).map toHex).idxOf (toHex x) = (left.map toHex).length := by
      have hnot : toHex x ∉ left.map toHex := by
        rw [List.mem_map]
        rintro ⟨y, hy, heq⟩
        exact hfirst (toHex_injective heq ▸ hy)
      rw [List.map_append, List.map_cons, List.idxOf_append_of_notMem hnot, List.idxOf_cons_self, Nat.add_zero]
    rw [walk, hparent]
    simp only [hlist]
    rw [if_pos (List.mem_map_of_mem (by simp)), hplace, ih (Nat.le_of_succ_le_succ hfuel), List.map_cons, hexStep,
      List.map_append, List.map_cons, List.take_left, List.drop_length_add_append]
    rfl

end Maps

end HieraChain.BlockProofs
