/-
  HieraChain/MissedTxsExchange.lean
  =================================
  **What the exchange of missed transactions gives.**

  The request and the response are concatenations of items, so they read back
  as they were written (`read_encodeMissedInfo`, `read_encodeResponse`).  The
  loop of the leader answers a request exactly (`obtainMissed_ok_iff`) and
  leaves the block at the first index behind its end that it reaches
  (`obtainMissed_outOfRange_iff`); the loop of the receiver puts every
  transaction where it belongs (`fillMissed_spec`).  What the receiver accepts
  is what the abstract block accepts (`fillBlock_refines`).
-/
import HieraChain.Lists
import HieraChain.MissedTxs

namespace HieraChain.RLP

open HieraChain.BigEndian

/-! ### Sizes of what is read -/

theorem length_payload_le {d pl : Bytes} (h : payload d = .ok pl) :
    pl.length ≤ d.length - payloadOffset d := by
  obtain ⟨l, -, h⟩ := HieraChain.Eth.ok_of_bind h
  split at h
  · cases h
  · cases h
    rw [cropped]
    split
    · rw [List.length_take, List.length_drop]
      omega
    · exact Nat.zero_le _

theorem length_items_le {fuel : Nat} {pl : Bytes} {l : List Bytes} (h : items fuel pl = .ok l) :
    l.length ≤ fuel := by
  induction fuel generalizing pl l with
  | zero =>
    cases pl <;> cases h <;> exact Nat.le_refl _
  | succ fuel ih =>
    cases pl with
    | nil =>
      cases h
      exact Nat.zero_le _
    | cons d rest =>
      obtain ⟨n, -, h⟩ := HieraChain.Eth.ok_of_bind h
      obtain ⟨it, -, h⟩ := HieraChain.Eth.ok_of_bind h
      obtain ⟨its, hits, h⟩ := HieraChain.Eth.ok_of_bind h
      cases h
      have hlen := ih hits
      rw [List.length_cons]
      omega

theorem length_toVector_lt {α : Type} {convert : Bytes → Except RLPError α} {d : Bytes} {v : List α}
    (hne : v ≠ []) (h : toVector convert d = .ok v) : v.length < d.length := by
  rw [toVector] at h
  split at h
  next hlist =>
    obtain ⟨pl, hpl, h⟩ := HieraChain.Eth.ok_of_bind h
    obtain ⟨its, hits, h⟩ := HieraChain.Eth.ok_of_bind h
    have hcount := HieraChain.Eth.TxsParallelParser.length_of_mapM h
    have hle := length_items_le hits
    have hpayload := length_payload_le hpl
    have hpos : 0 < v.length := List.length_pos_iff.mpr hne
    have hoffset : 1 ≤ payloadOffset d := by
      cases d with
      | nil => exact absurd hlist Bool.false_ne_true
      | cons b rest =>
        rw [isList_cons, decide_eq_true_eq] at hlist
        rw [payloadOffset, isSingleByte_cons, decide_eq_false (by omega), if_neg Bool.false_ne_true]
        omega
    omega
  · cases h
    exact absurd rfl hne

theorem length_index_le {d x : Bytes} {i : Nat} (h : index d i = .ok x) : x.length ≤ d.length := by
  obtain ⟨pl, hpl⟩ := payload_of_index h
  rcases eq_or_ne x [] with rfl | hne
  · exact Nat.zero_le _
  · obtain ⟨its, rest, -, hsplit, -, hx⟩ := index_split hpl h hne
    obtain ⟨it, hit, rfl⟩ := Option.map_eq_some_iff.mp hx
    have hmem := List.mem_of_getElem? hit
    have hpayload := length_payload_le hpl
    have hin := (List.sublist_flatten_of_mem (List.mem_map_of_mem (f := Prod.fst) hmem)).length_le
    have hbytes : pl.length = (its.map Prod.fst).flatten.length + rest.length := by
      rw [hsplit, List.length_append]
      rfl
    omega

theorem ofVeryStrict_ok {d x : Bytes} (h : ofVeryStrict d = .ok x) : x = d := by
  obtain ⟨n, -, h⟩ := HieraChain.Eth.ok_of_bind h
  split at h
  · cases h
  split at h <;> cases h
  rfl

/-! ### Pairs -/

def pairItems (p : FixedHash 32 × Nat) : Items :=
  [(strItem p.1.data, p.1.data), (strItem (bigEndian (p.2 % 2 ^ 32)), bigEndian (p.2 % 2 ^ 32))]

def pairItem (p : FixedHash 32 × Nat) : Bytes := listItem (pairItems p).bytes

theorem sizeOk_of_le {n : Nat} (h : n ≤ 2 ^ 60) : SizeOk n := by
  unfold SizeOk sizeMax
  omega

theorem length_bigEndian_le {n k : Nat} (h : n < 256 ^ k) : (bigEndian n).length ≤ k := by
  rw [length_bigEndian]
  exact bytesRequired_le_iff.mpr h

theorem pairItems_isItem (p : FixedHash 32 × Nat) : ∀ it ∈ pairItems p, IsItem it.1 it.2 := by
  intro it hit
  have hlen := p.1.length_data
  have hindex := length_bigEndian_le (show p.2 % 2 ^ 32 < 256 ^ 4 by omega)
  simp only [pairItems, List.mem_cons, List.not_mem_nil, or_false] at hit
  rcases hit with rfl | rfl
  · exact strItem_isItem (sizeOk_of_le (by omega))
  · exact strItem_isItem (sizeOk_of_le (by omega))

theorem appends_pair (p : FixedHash 32 × Nat) : Appends (fun s => appendPair s p) (pairItem p) := by
  have hlist := appends_list
    [(fun s => appendHash s p.1, strItem p.1.data),
     (fun s => appendUnsigned s p.2, strItem (bigEndian ((p.2 : Int) % 2 ^ 32).toNat))]
    (by
      intro w hw
      simp only [List.mem_cons, List.not_mem_nil, or_false] at hw
      rcases hw with rfl | rfl
      · exact appends_hash p.1
      · exact appends_unsigned p.2)
  have hnat : ((p.2 : Int) % 2 ^ 32).toNat = p.2 % 2 ^ 32 := by omega
  rw [hnat] at hlist
  simpa [pairItem, pairItems, appendPair, List.foldlM_cons] using hlist

theorem appends_pairs (v : List (FixedHash 32 × Nat)) :
    Appends (fun s => appendPairs s v) (listItem (v.map pairItem).flatten) := by
  have hlist := appends_list (v.map fun p => (fun s => appendPair s p, pairItem p))
    (fun w hw => by
      obtain ⟨p, -, rfl⟩ := List.mem_map.mp hw
      exact appends_pair p)
  simp only [List.length_map, List.map_map, List.foldlM_map, Function.comp_def] at hlist
  exact hlist

theorem toHashLax_strItem {size : Nat} (h : FixedHash size) (hsize : SizeOk size) :
    toHashLax size (strItem h.data) = .ok h := by
  have hok : SizeOk h.data.length := by
    rw [h.length_data]
    exact hsize
  have hpayload := (strItem_isItem hok).payload_eq []
  rw [List.append_nil] at hpayload
  rw [toHashLax, requireGood_strItem hok, hpayload]
  change (if isData (strItem h.data) = true then _ else _) = _
  rw [if_pos (isData_strItem hok)]
  have hdata : List.replicate (size - h.data.length) 0 ++ h.data.take size = h.data := by
    rw [h.length_data, Nat.sub_self, List.take_of_length_le (Nat.le_of_eq h.length_data)]
    rfl
  cases h with
  | mk data hlen => simp only [hdata]

theorem toUInt64Lax_strItem {n : Nat} (hn : n < 2 ^ 64) :
    toUInt64Lax (strItem (bigEndian n)) = .ok n := by
  have hbytes := length_bigEndian_le (show n < 256 ^ 8 by omega)
  have hok : SizeOk (bigEndian n).length := sizeOk_of_le (by omega)
  have hpayload := (strItem_isItem hok).payload_eq []
  rw [List.append_nil] at hpayload
  obtain ⟨hnull, hlist⟩ := isData_ne_nil (isData_strItem hok)
  rw [length_bigEndian] at hbytes
  rw [toUInt64Lax, requireGood_strItem hok, isInt_strItem_bigEndian (by omega), hlist, hnull, hpayload]
  change Except.ok (fromBigEndian (bigEndian n) % 2 ^ 64) = _
  rw [fromBigEndian_bigEndian, Nat.mod_eq_of_lt hn]

theorem length_strItem_le (b : Bytes) (h : b.length ≤ 2 ^ 60) : (strItem b).length ≤ b.length + 9 :=
  HieraChain.PBFT.length_strItem_le_of_le b (sizeOk_of_le h)

theorem length_pairItems_le (p : FixedHash 32 × Nat) : (pairItems p).bytes.length ≤ 54 := by
  have hlen := p.1.length_data
  have hindex := length_bigEndian_le (show p.2 % 2 ^ 32 < 256 ^ 4 by omega)
  have h1 := length_strItem_le p.1.data (by omega)
  have h2 := length_strItem_le (bigEndian (p.2 % 2 ^ 32)) (by omega)
  simp only [pairItems, Items.bytes_cons, Items.bytes_nil, List.length_append, List.length_nil]
  omega

theorem length_pairItem_le (p : FixedHash 32 × Nat) : (pairItem p).length ≤ 63 := by
  have hbody := length_pairItems_le p
  have hlist := HieraChain.PBFT.length_listItem_le (pairItems p).bytes (sizeOk_of_le (by omega))
  rw [pairItem]
  omega

theorem pairItem_isItem (p : FixedHash 32 × Nat) : IsItem (pairItem p) (pairItems p).bytes := by
  have hbody := length_pairItems_le p
  exact listItem_isItem (sizeOk_of_le (by omega))

theorem toPair_pairItem (p : FixedHash 32 × Nat) : toPair (pairItem p) = .ok (p.1, p.2 % 2 ^ 32) := by
  have hbody := length_pairItems_le p
  have hsize : SizeOk (pairItems p).bytes.length := sizeOk_of_le (by omega)
  have hcount : itemCountStrict (pairItem p) = .ok 2 :=
    itemCountStrict_listItem hsize (pairItems_isItem p)
  have h0 : index (pairItem p) 0 = .ok (strItem p.1.data) :=
    index_of_items (pairItem_isItem p) (pairItems_isItem p) (i := 0) rfl
  have h1 : index (pairItem p) 1 = .ok (strItem (bigEndian (p.2 % 2 ^ 32))) :=
    index_of_items (pairItem_isItem p) (pairItems_isItem p) (i := 1) rfl
  rw [toPair, hcount]
  simp only [bind, Except.bind, h0, h1, toHashLax_strItem p.1 (sizeOk_of_le (by omega)),
    toUInt64Lax_strItem (show p.2 % 2 ^ 32 < 2 ^ 64 by omega)]
  rfl

def pairsItems (v : List (FixedHash 32 × Nat)) : Items := v.map fun p => (pairItem p, (pairItems p).bytes)

theorem pairsItems_isItem (v : List (FixedHash 32 × Nat)) :
    ∀ it ∈ pairsItems v, IsItem it.1 it.2 := by
  intro it hit
  obtain ⟨p, -, rfl⟩ := List.mem_map.mp hit
  exact pairItem_isItem p

theorem bytes_pairsItems (v : List (FixedHash 32 × Nat)) :
    (pairsItems v).bytes = (v.map pairItem).flatten := by
  rw [Items.bytes, pairsItems, List.map_map]
  rfl

theorem length_pairsItems_le (v : List (FixedHash 32 × Nat)) :
    (pairsItems v).bytes.length ≤ 63 * v.length := by
  rw [bytes_pairsItems]
  induction v with
  | nil => exact Nat.le_refl _
  | cons p v ih =>
    have hp := length_pairItem_le p
    rw [List.map_cons, List.flatten_cons, List.length_append, List.length_cons]
    omega

theorem mapM_toPair (v : List (FixedHash 32 × Nat)) :
    (v.map pairItem).mapM toPair = .ok (v.map fun p => (p.1, p.2 % 2 ^ 32)) := by
  induction v with
  | nil => rfl
  | cons p v ih =>
    rw [List.map_cons, List.mapM_cons, toPair_pairItem]
    simp only [bind, Except.bind, ih]
    rfl

end HieraChain.RLP

namespace HieraChain.Eth

open HieraChain.BigEndian HieraChain.RLP
open HieraChain.PBFT (H256)

/-! ### Request and response on the wire -/

def requestItems (number : Int) (blockHash : H256) (missedTxs : List (H256 × Nat)) : Items :=
  [(strItem (bigEndian (number % 2 ^ 32).toNat), bigEndian (number % 2 ^ 32).toNat),
   (strItem blockHash.data, blockHash.data),
   (listItem (pairsItems missedTxs).bytes, (pairsItems missedTxs).bytes)]

theorem out_three {f g h : RLPStream → Except RLPError RLPStream} {x y z : Bytes}
    (hf : Appends f x) (hg : Appends g y) (hh : Appends h z) :
    (do
      let s ← appendList {} 3
      let s ← f s
      let s ← g s
      out (← h s)) = .ok (listItem (x ++ (y ++ z))) := by
  have hlist := (appends_list [(f, x), (g, y), (h, z)] (by
    intro w hw
    simp only [List.mem_cons, List.not_mem_nil, or_false] at hw
    rcases hw with rfl | rfl | rfl
    · exact hf
    · exact hg
    · exact hh)).run []
  simp only [List.length_cons, List.length_nil, List.map_cons, List.map_nil, List.foldlM_cons,
    List.foldlM_nil, bind_pure, List.flatten_cons, List.flatten_nil, List.append_nil,
    List.nil_append] at hlist
  have hassoc : (do
      let s ← appendList {} 3
      let s ← f s
      let s ← g s
      out (← h s)) = (do
      let s ← (do
        let s ← appendList {} 3
        let s ← f s
        let s ← g s
        h s)
      out s) := by
    simp only [bind_assoc]
  rw [hassoc, hlist]
  rfl

theorem encodeMissedInfo_eq (number : Int) (blockHash : H256) (missedTxs : List (H256 × Nat)) :
    encodeMissedInfo number blockHash missedTxs
      = .ok (listItem (requestItems number blockHash missedTxs).bytes) := by
  have hbytes : (requestItems number blockHash missedTxs).bytes
      = strItem (bigEndian (number % 2 ^ 32).toNat) ++ (strItem blockHash.data
        ++ listItem (missedTxs.map pairItem).flatten) := by
    simp only [requestItems, Items.bytes_cons, Items.bytes_nil, List.append_nil, bytes_pairsItems]
  rw [hbytes]
  exact out_three (appends_unsigned number) (appends_hash blockHash) (appends_pairs missedTxs)

theorem requestItems_isItem (number : Int) (blockHash : H256) {missedTxs : List (H256 × Nat)}
    (hcount : missedTxs.length < 2 ^ 32) :
    (∀ it ∈ requestItems number blockHash missedTxs, IsItem it.1 it.2)
      ∧ SizeOk (requestItems number blockHash missedTxs).bytes.length
      ∧ SizeOk (pairsItems missedTxs).bytes.length := by
  have hhash := blockHash.length_data
  have hnum := length_bigEndian_le (show (number % 2 ^ 32).toNat < 256 ^ 4 by omega)
  have hpairs := length_pairsItems_le missedTxs
  have h1 := length_strItem_le (bigEndian (number % 2 ^ 32).toNat) (by omega)
  have h2 := length_strItem_le blockHash.data (by omega)
  have h3 := HieraChain.PBFT.length_listItem_le (pairsItems missedTxs).bytes (sizeOk_of_le (by omega))
  refine ⟨fun it hit => ?_, sizeOk_of_le ?_, sizeOk_of_le (by omega)⟩
  · simp only [requestItems, List.mem_cons, List.not_mem_nil, or_false] at hit
    rcases hit with rfl | rfl | rfl
    · exact strItem_isItem (sizeOk_of_le (by omega))
    · exact strItem_isItem (sizeOk_of_le (by omega))
    · exact listItem_isItem (sizeOk_of_le (by omega))
  · simp only [requestItems, Items.bytes_cons, Items.bytes_nil, List.length_append, List.length_nil]
    omega

theorem toPositiveInt64_strItem {n : Nat} (hn : n < 2 ^ 63) :
    toPositiveInt64 (strItem (bigEndian n)) = .ok (n : Int) := by
  rw [toPositiveInt64, toInt64_strItem hn]
  change (if (n : Int) < 0 then Except.error RLPError.badCast else Except.ok (n : Int)) = _
  rw [if_neg (Int.not_lt.mpr (Int.natCast_nonneg n))]

theorem checkBasic_of_items {rlp : Bytes} {n : Nat} {blockHash : H256} (hn : n < 2 ^ 63)
    (h0 : index rlp 0 = .ok (strItem (bigEndian n))) (h1 : index rlp 1 = .ok (strItem blockHash.data))
    (number : Int) (expectedHash : H256) :
    checkBasic rlp number expectedHash
      = if (n : Int) ≠ number then .error (.invalidNumber "checkBasic: invalid block number")
        else if blockHash ≠ expectedHash then
          .error (.errorBlockHash "checkBasic: inconsistent block hash")
        else .ok () := by
  have hnumber := toPositiveInt64_strItem hn
  have hhash : toHash 32 (strItem blockHash.data) = .ok blockHash :=
    toHash_strItem blockHash (sizeOk_of_le (by omega))
  rw [checkBasic, h0, h1]
  simp only [bind, Except.bind, hnumber, hhash, Except.mapError]

/-- **A request reads back**: as one item, with its number and its pairs, all
    cut to 32 bits. -/
theorem read_encodeMissedInfo (number : Int) (blockHash : H256) {missedTxs : List (H256 × Nat)}
    (hcount : missedTxs.length < 2 ^ 32) :
    ∃ request, encodeMissedInfo number blockHash missedTxs = .ok request
      ∧ ofVeryStrict request = .ok request
      ∧ (∀ n expectedHash, checkBasic request n expectedHash
        = if (((number % 2 ^ 32).toNat : Nat) : Int) ≠ n then
            .error (.invalidNumber "checkBasic: invalid block number")
          else if blockHash ≠ expectedHash then
            .error (.errorBlockHash "checkBasic: inconsistent block hash")
          else .ok ())
      ∧ requested request = .ok (missedTxs.map fun p => (p.1, p.2 % 2 ^ 32)) := by
  obtain ⟨hall, hsize, hpairs⟩ := requestItems_isItem number blockHash hcount
  have hitem := listItem_isItem hsize
  refine ⟨_, encodeMissedInfo_eq number blockHash missedTxs, hitem.ofVeryStrict_eq, ?_, ?_⟩
  · exact checkBasic_of_items (by omega) (index_of_items hitem hall (i := 0) rfl)
      (index_of_items hitem hall (i := 1) rfl)
  · rw [requested, index_of_items hitem hall (i := 2) rfl]
    change toVector toPair (listItem (pairsItems missedTxs).bytes) = _
    rw [toVector_listItem hpairs (pairsItems_isItem missedTxs), pairsItems, List.map_map]
    exact mapM_toPair missedTxs

theorem read_encodeResponse {S : Type} {c : SignatureScheme H256 S} {version : Version}
    (number : Int) (expectedHash : H256) {missed : List (Transaction S)} {txsBytes : Bytes}
    (henc : TxsParallelParser.encode c version missed = .ok txsBytes)
    (hlen : txsBytes.length ≤ 2 ^ 40) :
    ∃ response, encodeResponse c version number expectedHash missed = .ok response
      ∧ ofVeryStrict response = .ok response
      ∧ (∀ n h, checkBasic response n h
        = if (((number % 2 ^ 32).toNat : Nat) : Int) ≠ n then
            .error (.invalidNumber "checkBasic: invalid block number")
          else if expectedHash ≠ h then .error (.errorBlockHash "checkBasic: inconsistent block hash")
          else .ok ())
      ∧ responseTxs response = .ok txsBytes := by
  have hhash := expectedHash.length_data
  have hnum := length_bigEndian_le (show (number % 2 ^ 32).toNat < 256 ^ 4 by omega)
  have h1 := length_strItem_le (bigEndian (number % 2 ^ 32).toNat) (by omega)
  have h2 := length_strItem_le expectedHash.data (by omega)
  have h3 := length_strItem_le txsBytes (by omega)
  let its : Items :=
    [(strItem (bigEndian (number % 2 ^ 32).toNat), bigEndian (number % 2 ^ 32).toNat),
     (strItem expectedHash.data, expectedHash.data), (strItem txsBytes, txsBytes)]
  have hbytes : its.bytes = strItem (bigEndian (number % 2 ^ 32).toNat)
      ++ (strItem expectedHash.data ++ strItem txsBytes) := by
    simp only [its, Items.bytes_cons, Items.bytes_nil, List.append_nil]
  have hall : ∀ it ∈ its, IsItem it.1 it.2 := by
    intro it hit
    simp only [its, List.mem_cons, List.not_mem_nil, or_false] at hit
    rcases hit with rfl | rfl | rfl <;> exact strItem_isItem (sizeOk_of_le (by omega))
  have hsize : SizeOk its.bytes.length := by
    rw [hbytes, List.length_append, List.length_append]
    exact sizeOk_of_le (by omega)
  have hitem := listItem_isItem hsize
  refine ⟨listItem its.bytes, ?_, hitem.ofVeryStrict_eq, ?_, ?_⟩
  · have hout := out_three (appends_unsigned number) (appends_hash expectedHash)
      (appends_bytes txsBytes)
    rw [encodeResponse, henc]
    change Except.mapError BlockException.rlp (do
        let s ← appendList {} 3
        let s ← appendUnsigned s number
        let s ← appendHash s expectedHash
        out (← appendBytes s txsBytes)) = _
    rw [hout, hbytes]
    rfl
  · exact checkBasic_of_items (by omega) (index_of_items hitem hall (i := 0) rfl)
      (index_of_items hitem hall (i := 1) rfl)
  · rw [responseTxs, index_of_items hitem hall (i := 2) rfl]
    exact toBytes_strItem (sizeOk_of_le (by omega))

/-! ### The leader -/

section Leader

variable {S : Type} {c : SignatureScheme H256 S} {version : Version}

/-- The entry `info` of a request names the transaction `tx` of the block. -/
def Names (c : SignatureScheme H256 S) (version : Version) (txs : List (Transaction S))
    (info : H256 × Nat) (tx : Transaction S) : Prop :=
  txs[info.2]? = some tx ∧ tx.hash c version = .ok info.1

theorem obtainMissed_cons {txs : List (Transaction S)} {info : H256 × Nat} {tx : Transaction S}
    (h : Names c version txs info tx) (infos : List (H256 × Nat)) :
    obtainMissed c version txs (info :: infos)
      = (do return tx :: (← obtainMissed c version txs infos)) := by
  rw [obtainMissed, h.1]
  change ((tx.hash c version).mapError BlockException.transaction >>= _) = _
  rw [h.2]
  change (if info.1 ≠ info.1 then _ else _) = _
  rw [if_neg (fun hne => hne rfl)]

theorem obtainMissed_cases (c : SignatureScheme H256 S) (version : Version)
    (txs : List (Transaction S)) (info : H256 × Nat) :
    (txs.length ≤ info.2 ∧ ∀ infos, obtainMissed c version txs (info :: infos)
        = .error (.outOfRange info.2 txs.length))
      ∨ (info.2 < txs.length ∧ ∃ e, (∀ i n, e ≠ .outOfRange i n) ∧ (∀ x, e ≠ .parser x)
        ∧ (∀ tx, ¬ Names c version txs info tx)
        ∧ ∀ infos, obtainMissed c version txs (info :: infos) = .error e)
      ∨ ∃ tx, Names c version txs info tx := by
  cases hget : txs[info.2]? with
  | none =>
    refine Or.inl ⟨List.getElem?_eq_none_iff.mp hget, fun infos => ?_⟩
    rw [obtainMissed, hget]
  | some tx =>
    have hlt := (List.getElem?_eq_some_iff.mp hget).1
    cases hhash : tx.hash c version with
    | error e =>
      refine Or.inr (Or.inl ⟨hlt, .transaction e, nofun, nofun, fun tx' h => ?_, fun infos => ?_⟩)
      · obtain ⟨hget', hhash'⟩ := h
        rw [hget] at hget'
        cases hget'
        rw [hhash] at hhash'
        cases hhash'
      · rw [obtainMissed, hget]
        change ((tx.hash c version).mapError BlockException.transaction >>= _) = _
        rw [hhash]
        rfl
    | ok h =>
      by_cases hne : h = info.1
      · exact Or.inr (Or.inr ⟨tx, hget, by rw [hhash, hne]⟩)
      · refine Or.inr (Or.inl ⟨hlt, .invalidTransaction
          "encodeMissedTxs: invalid transaction for inconsistent transaction hash", nofun, nofun,
          fun tx' h' => ?_, fun infos => ?_⟩)
        · obtain ⟨hget', hhash'⟩ := h'
          rw [hget] at hget'
          cases hget'
          rw [hhash] at hhash'
          cases hhash'
          exact hne rfl
        · rw [obtainMissed, hget]
          change ((tx.hash c version).mapError BlockException.transaction >>= _) = _
          rw [hhash]
          change (if h ≠ info.1 then _ else _) = _
          rw [if_pos hne]

/-- **The loop answers a request exactly.** -/
theorem obtainMissed_ok_iff {txs : List (Transaction S)} {infos : List (H256 × Nat)}
    {missed : List (Transaction S)} :
    obtainMissed c version txs infos = .ok missed
      ↔ List.Forall₂ (Names c version txs) infos missed := by
  induction infos generalizing missed with
  | nil =>
    rw [List.forall₂_nil_left_iff, obtainMissed]
    exact ⟨fun h => by cases h; rfl, fun h => by rw [h]⟩
  | cons info infos ih =>
    rcases obtainMissed_cases c version txs info with
      ⟨hge, hout⟩ | ⟨-, e, -, -, hnot, herr⟩ | ⟨tx, htx⟩
    · rw [hout]
      refine ⟨nofun, fun h => ?_⟩
      cases h with
      | cons hname _ => exact absurd (List.getElem?_eq_some_iff.mp hname.1).1 (Nat.not_lt.mpr hge)
    · rw [herr]
      refine ⟨nofun, fun h => ?_⟩
      cases h with
      | cons hname _ => exact absurd hname (hnot _)
    · rw [obtainMissed_cons htx]
      constructor
      · intro h
        obtain ⟨rest, hrest, h⟩ := ok_of_bind h
        cases h
        exact .cons htx (ih.mp hrest)
      · intro h
        cases h with
        | @cons _ tx' _ rest hname hrest =>
          obtain rfl : tx = tx' := Option.some.inj (htx.1.symm.trans hname.1)
          rw [ih.mpr hrest]
          rfl

/-- Every index that the loop reaches lies in the block: an entry is reached
    when the entries before it name transactions. -/
def InBlock (c : SignatureScheme H256 S) (version : Version) (txs : List (Transaction S))
    (infos : List (H256 × Nat)) : Prop :=
  ∀ before info after, infos = before ++ info :: after →
    (∀ q ∈ before, ∃ tx, Names c version txs q tx) → info.2 < txs.length

theorem obtainMissed_outOfRange_iff {txs : List (Transaction S)} {infos : List (H256 × Nat)} :
    (∀ i n, obtainMissed c version txs infos ≠ .error (.outOfRange i n))
      ↔ InBlock c version txs infos := by
  induction infos with
  | nil =>
    refine ⟨fun _ before info after h => ?_, fun _ => nofun⟩
    cases before <;> cases h
  | cons info infos ih =>
    rcases obtainMissed_cases c version txs info with
      ⟨hge, hout⟩ | ⟨hlt, e, he, -, hnot, herr⟩ | ⟨tx, htx⟩
    · refine ⟨fun h => absurd (hout infos) (h _ _), fun h => ?_⟩
      exact absurd (h [] info infos rfl nofun) (Nat.not_lt.mpr hge)
    · refine ⟨fun _ before info' after h hbefore => ?_, fun _ i n h => ?_⟩
      · cases before with
        | nil =>
          cases h
          exact hlt
        | cons q before =>
          cases h
          obtain ⟨tx, htx⟩ := hbefore info List.mem_cons_self
          exact absurd htx (hnot tx)
      · rw [herr] at h
        cases h
        exact he i n rfl
    · have hiff : (∀ i n, obtainMissed c version txs (info :: infos) ≠ .error (.outOfRange i n))
          ↔ ∀ i n, obtainMissed c version txs infos ≠ .error (.outOfRange i n) := by
        rw [obtainMissed_cons htx]
        cases obtainMissed c version txs infos with
        | ok missed => exact ⟨fun _ => nofun, fun _ => nofun⟩
        | error e => exact Iff.rfl
      rw [hiff, ih]
      constructor
      · intro h before info' after heq hbefore
        cases before with
        | nil =>
          cases heq
          exact (List.getElem?_eq_some_iff.mp htx.1).1
        | cons q before =>
          cases heq
          exact h before info' after rfl fun q hq => hbefore q (List.mem_cons_of_mem _ hq)
      · intro h before info' after heq hbefore
        refine h (info :: before) info' after (by rw [heq, List.cons_append]) fun q hq => ?_
        rcases List.mem_cons.mp hq with rfl | hq
        · exact ⟨tx, htx⟩
        · exact hbefore q hq

/-! ### The answer to a request -/

/-- The exceptions that are thrown; the others stand for an access outside a vector. -/
def BlockException.thrown : BlockException → Bool
  | .outOfRange _ _ | .parser .outOfBounds => false
  | _ => true

theorem obtainMissed_thrown {txs : List (Transaction S)} {infos : List (H256 × Nat)}
    {e : BlockException} (h : obtainMissed c version txs infos = .error e)
    (hin : ∀ i n, Except.error e ≠ (.error (.outOfRange i n) : Except BlockException (List (Transaction S)))) :
    e.thrown = true := by
  induction infos with
  | nil => cases h
  | cons info infos ih =>
    rcases obtainMissed_cases c version txs info with
      ⟨-, hout⟩ | ⟨-, e', hrange, hparser, -, herr⟩ | ⟨tx, htx⟩
    · rw [hout] at h
      cases h
      exact absurd rfl (hin _ _)
    · rw [herr] at h
      cases h
      cases e with
      | outOfRange i n => exact absurd rfl (hrange i n)
      | parser x => exact absurd rfl (hparser x)
      | _ => rfl
    · rw [obtainMissed_cons htx] at h
      cases hrest : obtainMissed c version txs infos with
      | ok missed =>
        rw [hrest] at h
        cases h
      | error x =>
        rw [hrest] at h
        cases h
        exact ih hrest

theorem checkBasic_thrown {rlp : Bytes} {number : Int} {expectedHash : H256} {e : BlockException}
    (h : checkBasic rlp number expectedHash = .error e) : e.thrown = true := by
  rw [checkBasic] at h
  cases hnumber : (do toPositiveInt64 (← index rlp 0)) with
  | error x =>
    rw [hnumber] at h
    cases h
    rfl
  | ok n =>
    rw [hnumber] at h
    change (if n ≠ number then _ else _) = _ at h
    split at h
    · cases h
      rfl
    · cases hhash : (do toHash 32 (← index rlp 1)) with
      | error x =>
        rw [hhash] at h
        cases h
        rfl
      | ok blockHash =>
        rw [hhash] at h
        change (if blockHash ≠ expectedHash then _ else _) = _ at h
        split at h
        · cases h
          rfl
        · cases h

theorem encode_thrown {txs : List (Transaction S)} (hlen : txs.length < 2 ^ 32 - 1) :
    TxsParallelParser.encode c version txs ≠ .error .outOfBounds := by
  have hone : UInt32.ofNat txs.length + 1 ≠ 0 := by
    intro h
    have hsum := congrArg UInt32.toNat h
    rw [UInt32.toNat_add, UInt32.toNat_ofNat_of_lt' (show txs.length < 2 ^ 32 by omega)] at hsum
    change (txs.length + 1) % 2 ^ 32 = 0 at hsum
    omega
  rw [TxsParallelParser.encode]
  change (if UInt32.ofNat txs.length = 0 then Except.ok []
    else if UInt32.ofNat txs.length + 1 = 0 then _ else _) ≠ _
  split
  · intro h
    cases h
  · cases (txs.take (UInt32.ofNat txs.length).toNat).mapM (Transaction.rlp c version) with
    | ok txRLPs =>
      intro h
      cases h
    | error e =>
      intro h
      cases h

theorem encodeResponse_thrown {number : Int} {expectedHash : H256} {missed : List (Transaction S)}
    {e : BlockException} (hlen : missed.length < 2 ^ 32 - 1)
    (h : encodeResponse c version number expectedHash missed = .error e) : e.thrown = true := by
  rw [encodeResponse] at h
  cases henc : TxsParallelParser.encode c version missed with
  | error x =>
    rw [henc] at h
    cases h
    cases x with
    | outOfBounds => exact absurd henc (encode_thrown hlen)
    | transaction _ => rfl
    | invalidBlockFormat _ => rfl
  | ok txsBytes =>
    rw [henc] at h
    change Except.mapError BlockException.rlp _ = _ at h
    revert h
    generalize (do
        let s ← appendList {} 3
        let s ← appendUnsigned s number
        let s ← appendHash s expectedHash
        out (← appendBytes s txsBytes)) = written
    intro h
    cases written with
    | ok _ => cases h
    | error x =>
      cases h
      rfl

/-- A request is answered well: with an exception that is thrown, or with the
    transactions that it names and no others. -/
def Served (c : SignatureScheme H256 S) (version : Version) (txs : List (Transaction S)) (number : Int)
    (expectedHash : H256) (missInfo : Bytes) : Prop :=
  match fetchMissedTxs c version txs number missInfo expectedHash with
  | .error e => e.thrown = true
  | .ok response => ∃ infos missed, requested missInfo = .ok infos
      ∧ List.Forall₂ (Names c version txs) infos missed
      ∧ encodeResponse c version number expectedHash missed = .ok response

def RequestInBlock (c : SignatureScheme H256 S) (version : Version) (txs : List (Transaction S))
    (number : Int) (expectedHash : H256) (missInfo : Bytes) : Prop :=
  ∀ infos, ofVeryStrict missInfo = .ok missInfo → checkBasic missInfo number expectedHash = .ok () →
    requested missInfo = .ok infos → InBlock c version txs infos

theorem length_requested_lt {missInfo : Bytes} {infos : List (H256 × Nat)}
    (hlen : missInfo.length < 2 ^ 32) (h : requested missInfo = .ok infos) :
    infos.length < 2 ^ 32 - 1 := by
  obtain ⟨x, hx, h⟩ := ok_of_bind h
  rcases eq_or_ne infos [] with rfl | hne
  · decide
  · have hlt := length_toVector_lt hne h
    have hle := length_index_le hx
    omega

theorem served_iff {txs : List (Transaction S)} {number : Int} {expectedHash : H256}
    {missInfo : Bytes} (hlen : missInfo.length < 2 ^ 32) :
    Served c version txs number expectedHash missInfo
      ↔ RequestInBlock c version txs number expectedHash missInfo := by
  unfold Served
  have hfetch : fetchMissedTxs c version txs number missInfo expectedHash = (do
      let missedInfoRlp ← (ofVeryStrict missInfo).mapError .rlp
      checkBasic missedInfoRlp number expectedHash
      let missedTxs ← (requested missedInfoRlp).mapError .rlp
      let missed ← obtainMissed c version txs missedTxs
      encodeResponse c version number expectedHash missed) := rfl
  cases hstrict : ofVeryStrict missInfo with
  | error e =>
    simp only [hfetch, hstrict, bind, Except.bind, Except.mapError]
    refine ⟨fun _ infos hstrict' => ?_, fun _ => rfl⟩
    rw [hstrict] at hstrict'
    cases hstrict'
  | ok rlp =>
    obtain rfl := ofVeryStrict_ok hstrict
    cases hbasic : checkBasic rlp number expectedHash with
    | error e =>
      simp only [hfetch, hstrict, hbasic, bind, Except.bind, Except.mapError]
      refine ⟨fun _ infos _ hbasic' => ?_, fun _ => checkBasic_thrown hbasic⟩
      rw [hbasic] at hbasic'
      cases hbasic'
    | ok u =>
      cases hreq : requested rlp with
      | error e =>
        simp only [hfetch, hstrict, hbasic, hreq, bind, Except.bind, Except.mapError]
        refine ⟨fun _ infos _ _ hreq' => ?_, fun _ => rfl⟩
        rw [hreq] at hreq'
        cases hreq'
      | ok infos =>
        have hin : RequestInBlock c version txs number expectedHash rlp
            ↔ InBlock c version txs infos := by
          refine ⟨fun h => h infos hstrict hbasic hreq, fun h infos' _ _ hreq' => ?_⟩
          rw [hreq] at hreq'
          cases hreq'
          exact h
        rw [hin, ← obtainMissed_outOfRange_iff]
        cases hobtain : obtainMissed c version txs infos with
        | error e =>
          simp only [hfetch, hstrict, hbasic, hreq, hobtain, bind, Except.bind, Except.mapError]
          refine ⟨fun h i n heq => ?_, fun h => obtainMissed_thrown hobtain h⟩
          cases heq
          exact Bool.false_ne_true h
        | ok missed =>
          have hnames := obtainMissed_ok_iff.mp hobtain
          cases hresp : encodeResponse c version number expectedHash missed with
          | error e =>
            simp only [hfetch, hstrict, hbasic, hreq, hobtain, hresp, bind, Except.bind,
              Except.mapError]
            refine ⟨fun _ _ _ => nofun, fun _ => encodeResponse_thrown ?_ hresp⟩
            rw [← hnames.length_eq]
            exact length_requested_lt hlen hreq
          | ok response =>
            simp only [hfetch, hstrict, hbasic, hreq, hobtain, hresp, bind, Except.bind,
              Except.mapError]
            exact ⟨fun _ _ _ => nofun, fun _ => ⟨infos, missed, rfl, hnames, hresp⟩⟩

end Leader

/-! ### The follower -/

section Follower

variable {Sig S : Type} (c : SignatureScheme H256 S) (version : Version)
variable (k : Crypto H256 Sig (Transaction S))

/-- What `decodeProposal` leaves of a proposal that lists the hashes `hs`. -/
def shortProposal (header : BlockHeader H256) (hs : List H256) :
    PartiallyBlock H256 (Transaction S) :=
  { header, txsHash := hs, transactions := hs.map fun _ => none, missedTxs := [] }

/-- The proposal of a block with the transactions `txs`, as it stands at a node
    with the transactions `pool`. -/
def receivedProposal (header : BlockHeader H256) (txs pool : List (Transaction S)) :
    PartiallyBlock H256 (Transaction S) :=
  (shortProposal header (txs.map k.txHash)).initPartiallyBlock k pool

/-- The slots hold the transactions of `txs` in their order. -/
def Holds (txs : List (Transaction S)) (slots : List (Option (Transaction S))) : Prop :=
  List.Forall₂ (fun t slot => ∃ t', slot = some t' ∧ t'.encode c version = t.encode c version)
    txs slots

/-- `order` is a run of the parser on the transactions in `response`. -/
def ResponseSchedule (response : Bytes) (order : List Nat) : Prop :=
  ∀ txsBytes, responseTxs response = .ok txsBytes → TxsParallelParser.Schedule txsBytes order

/-- Request, response and `fillBlock` give the follower the block of the leader. -/
def Exchanges (header : BlockHeader H256) (txs : List (Transaction S))
    (p : PartiallyBlock H256 (Transaction S)) : Prop :=
  ∃ request response p',
    encodeMissedInfo p.header.number (k.headerHash p.header) p.missedTxs = .ok request
    ∧ fetchMissedTxs c version txs header.number request (k.headerHash header) = .ok response
    ∧ (∀ order, ResponseSchedule response order →
        fillBlock c version k.headerHash order p response = .ok p')
    ∧ Holds c version txs p'.transactions

variable {c version k}

theorem receivedProposal_transactions (header : BlockHeader H256) (txs pool : List (Transaction S)) :
    (receivedProposal k header txs pool).transactions
      = txs.map fun t => pool.find? fun t' => decide (k.txHash t' = k.txHash t) := by
  simp only [receivedProposal, shortProposal, PartiallyBlock.initPartiallyBlock, List.map_map]
  rfl

theorem mem_missedTxs_iff (k : Crypto H256 Sig (Transaction S)) (header : BlockHeader H256)
    (txs pool : List (Transaction S)) (info : H256 × Nat) :
    info ∈ (receivedProposal k header txs pool).missedTxs
      ↔ ∃ t, txs[info.2]? = some t ∧ info.1 = k.txHash t
        ∧ pool.find? (fun t' => decide (k.txHash t' = k.txHash t)) = none := by
  simp only [receivedProposal, shortProposal, PartiallyBlock.initPartiallyBlock, List.mem_filterMap]
  constructor
  · rintro ⟨⟨info', found⟩, hmem, hinfo⟩
    obtain ⟨i, hi⟩ := List.mem_iff_getElem?.mp hmem
    obtain ⟨hzip, hfound⟩ := List.getElem?_zip_eq_some.mp hi
    rw [List.getElem?_zipIdx, List.getElem?_map] at hzip
    rw [List.getElem?_map, List.getElem?_map] at hfound
    cases hget : txs[i]? with
    | none =>
      rw [hget] at hzip
      cases hzip
    | some t =>
      rw [hget] at hzip hfound
      cases hzip
      cases hfound
      dsimp only at hinfo
      split at hinfo
      · cases hinfo
      next hnone =>
        cases hinfo
        refine ⟨t, ?_, rfl, Option.not_isSome_iff_eq_none.mp hnone⟩
        rw [Nat.zero_add]
        exact hget
  · rintro ⟨t, hget, hhash, hnone⟩
    refine ⟨(info, none), List.mem_iff_getElem?.mpr ⟨info.2, List.getElem?_zip_eq_some.mpr ⟨?_, ?_⟩⟩, rfl⟩
    · rw [List.getElem?_zipIdx, List.getElem?_map, hget]
      simp only [Option.map_some, Nat.zero_add, ← hhash]
    · rw [List.getElem?_map, List.getElem?_map, hget]
      exact congrArg some hnone

/-- **The loop of `fillBlock` completes the block**: a slot whose transaction is
    there or still missed ends with a transaction that belongs there. -/
theorem fillMissed_spec {P : Nat → Transaction S → Prop} {n : Nat} {fetched : List (Transaction S)}
    {missedTxs : List (H256 × Nat)} {slots : List (Option (Transaction S))}
    (hfetched : List.Forall₂ (fun (t : Transaction S) (info : H256 × Nat) =>
      t.hash c version = .ok info.1 ∧ P info.2 t) fetched missedTxs)
    (hin : ∀ info ∈ missedTxs, info.2 < n) (hlen : slots.length = n)
    (hslots : ∀ j < n, (∃ h, (h, j) ∈ missedTxs) ∨ ∃ t, slots[j]? = some (some t) ∧ P j t) :
    ∃ slots', fillMissed c version (fetched.map some) missedTxs slots = .ok slots'
      ∧ slots'.length = n ∧ ∀ j < n, ∃ t, slots'[j]? = some (some t) ∧ P j t := by
  induction hfetched generalizing slots with
  | nil =>
    refine ⟨slots, rfl, hlen, fun j hj => (hslots j hj).resolve_left ?_⟩
    rintro ⟨h, hmem⟩
    cases hmem
  | @cons t info fetched missedTxs ht _ ih =>
    have hlt : info.2 < slots.length := by
      rw [hlen]
      exact hin info List.mem_cons_self
    have hset : (slots.set info.2 (some t)).length = n := by rw [List.length_set, hlen]
    obtain ⟨slots', hrun, hlen', hall⟩ := ih (fun q hq => hin q (List.mem_cons_of_mem _ hq)) hset
      (fun j hj => by
        by_cases hji : info.2 = j
        · subst hji
          exact Or.inr ⟨t, by rw [List.getElem?_set_self hlt], ht.2⟩
        · rw [List.getElem?_set_ne hji]
          rcases hslots j hj with ⟨h, hmem⟩ | hfilled
          · rcases List.mem_cons.mp hmem with heq | hmem
            · exact absurd (congrArg Prod.snd heq).symm hji
            · exact Or.inl ⟨h, hmem⟩
          · exact Or.inr hfilled)
    refine ⟨slots', ?_, hlen', hall⟩
    rw [List.map_cons, fillMissed, ht.1]
    change (if info.1 ≠ info.1 then _
      else if info.2 < slots.length then _ else _) = _
    rw [if_neg (fun hne => hne rfl), if_pos hlt]
    exact hrun

theorem exists_forall₂ {α β : Type} {R : α → β → Prop} {l : List α} (h : ∀ a ∈ l, ∃ b, R a b) :
    ∃ l', List.Forall₂ R l l' := by
  induction l with
  | nil => exact ⟨[], .nil⟩
  | cons a l ih =>
    obtain ⟨b, hb⟩ := h a List.mem_cons_self
    obtain ⟨l', hl'⟩ := ih fun a ha => h a (List.mem_cons_of_mem _ ha)
    exact ⟨b :: l', .cons hb hl'⟩

theorem rlp_ok_of_ready (hc : c.Inverse) {check : CheckTransaction} {t : Transaction S}
    (h : TxsParallelParser.Ready c version check t) : ∃ b, t.rlp c version = .ok b := by
  by_cases hbuffer : t.rlpBuffer = []
  · rw [Transaction.rlp, if_neg (fun hne => hne hbuffer)]
    rcases h with ⟨-, htype, vrs, hvrs, -⟩ | hdec
    · exact ⟨_, Transaction.encode_eq htype hvrs⟩
    · have hten := TxsParallelParser.ten_le_length_of_decode hc hdec
      rw [hbuffer] at hten
      exact absurd hten (by decide)
  · exact ⟨t.rlpBuffer, if_pos hbuffer⟩

theorem encode_eq_of_sameFields {t t' : Transaction S} (h : Transaction.SameFields version t t') :
    t'.encode c version = t.encode c version := by
  have hfields : ∀ s, t'.streamFields s = t.streamFields s := by
    intro s
    rw [Transaction.streamFields, Transaction.streamFields, h.nonce, h.gasPrice, h.gas,
      h.blockLimit, h.value, h.data, h.type]
    by_cases hcall : t.type = .MessageCall
    · rw [h.receiveAddress hcall]
    · simp only [if_neg hcall]
  have hsig : ∀ s, t'.streamSignature c .WithSignature s = t.streamSignature c .WithSignature s := by
    intro s
    rw [Transaction.streamSignature, Transaction.streamSignature, h.vrs]
  cases version with
  | RC1 =>
    simp only [Transaction.encode, Transaction.encodeRC1, h.type, hfields, hsig]
  | RC2 =>
    obtain ⟨hchain, hgroup, hextra⟩ := h.rc2 rfl
    have hmore : ∀ s, t'.streamFieldsRC2 s = t.streamFieldsRC2 s := by
      intro s
      rw [Transaction.streamFieldsRC2, Transaction.streamFieldsRC2, hchain, hgroup, hextra]
    simp only [Transaction.encode, Transaction.encodeRC2, h.type, hfields, hmore, hsig]

theorem length_missedTxs_le (k : Crypto H256 Sig (Transaction S)) (header : BlockHeader H256)
    (txs pool : List (Transaction S)) :
    (receivedProposal k header txs pool).missedTxs.length ≤ txs.length := by
  simp only [receivedProposal, shortProposal, PartiallyBlock.initPartiallyBlock]
  refine Nat.le_trans (List.length_filterMap_le _ _) ?_
  rw [List.length_zip, List.length_zipIdx, List.length_map]
  exact Nat.min_le_left _ _

/-- The bytes of the transactions `txs` together have a length of 32 bits. -/
def FitsMessage (c : SignatureScheme H256 S) (version : Version) (txs : List (Transaction S)) : Prop :=
  ∀ txRLPs, txs.mapM (Transaction.rlp c version) = .ok txRLPs → (txRLPs.map List.length).sum < 2 ^ 32

theorem travel (hc : c.Inverse) {txs : List (Transaction S)}
    (hready : ∀ t ∈ txs, TxsParallelParser.Ready c version .Everything t)
    (hfit : FitsMessage c version txs) :
    ∃ b txs', TxsParallelParser.encode c version txs = .ok b ∧ b.length ≤ 2 ^ 40
      ∧ List.Forall₂ (TxsParallelParser.SameTransaction c version) txs txs'
      ∧ ∀ order, TxsParallelParser.Schedule b order →
          TxsParallelParser.decode c version .Everything order [] b = .ok (txs'.map some) := by
  obtain ⟨txRLPs, hrlps⟩ := exists_forall₂ fun t ht => rlp_ok_of_ready hc (hready t ht)
  have hrlp := Lists.mapM_ok_iff.mpr hrlps
  have hsize := hfit txRLPs hrlp
  obtain ⟨b, txs', henc, hsame, hdec⟩ := TxsParallelParser.decode_encode hc hready hrlp hsize
  refine ⟨b, txs', henc, ?_, hsame, hdec⟩
  obtain ⟨txs'', hdecs, -⟩ := TxsParallelParser.Ready.decode_all hc hready hrlp hsize
  have hten := TxsParallelParser.ten_mul_length_le hc hdecs
  rcases Nat.eq_zero_or_pos txRLPs.length with hzero | hpos
  · have htxs : txs = [] := List.length_eq_zero_iff.mp (by rw [hrlps.length_eq, hzero])
    subst htxs
    cases henc
    exact Nat.zero_le _
  · have henc' := TxsParallelParser.encode_eq_encoded hrlp hpos (by omega)
    rw [henc] at henc'
    cases henc'
    rw [(TxsParallelParser.drop_encoded txRLPs).2, List.length_flatten]
    omega

/-- **The exchange restores the block**, up to the number that a request can name. -/
theorem exchanges_iff (hc : c.Inverse) {header : BlockHeader H256}
    {txs pool : List (Transaction S)} (hnumber : 0 ≤ header.number) (hcount : txs.length < 2 ^ 32)
    (hready : ∀ t ∈ txs, TxsParallelParser.Ready c version .Everything t)
    (hhash : ∀ t ∈ txs, t.hash c version = .ok (k.txHash t))
    (hpool : ∀ t ∈ txs, ∀ t' ∈ pool, k.txHash t' = k.txHash t →
      t'.encode c version = t.encode c version)
    (hfit : ∀ missed, List.Forall₂ (Names c version txs)
      (receivedProposal k header txs pool).missedTxs missed → FitsMessage c version missed) :
    Exchanges c version k header txs (receivedProposal k header txs pool)
      ↔ header.number < 2 ^ 32 := by
  have hmem := mem_missedTxs_iff k header txs pool
  have hlen := length_missedTxs_le k header txs pool
  have htransactions := receivedProposal_transactions (k := k) header txs pool
  have hheader : (receivedProposal k header txs pool).header = header := rfl
  revert hfit hmem hlen htransactions hheader
  generalize receivedProposal k header txs pool = p
  intro hfit hmem hlen htransactions hheader
  have hmissedLen : p.missedTxs.length < 2 ^ 32 := by omega
  obtain ⟨request, hrequest, hstrict, hbasic, hrequested⟩ :=
    read_encodeMissedInfo header.number (k.headerHash header) hmissedLen
  have hcut : p.missedTxs.map (fun q => (q.1, q.2 % 2 ^ 32)) = p.missedTxs := by
    refine (List.map_congr_left fun q hq => ?_).trans (List.map_id _)
    obtain ⟨t, ht, -⟩ := (hmem q).mp hq
    have hlt := (List.getElem?_eq_some_iff.mp ht).1
    exact Prod.ext rfl (Nat.mod_eq_of_lt (by omega))
  rw [hcut] at hrequested
  have hfetch : fetchMissedTxs c version txs header.number request (k.headerHash header) = (do
      checkBasic request header.number (k.headerHash header)
      let missed ← obtainMissed c version txs p.missedTxs
      encodeResponse c version header.number (k.headerHash header) missed) := by
    rw [fetchMissedTxs, hstrict]
    simp only [Except.mapError, bind, Except.bind, hrequested]
    rfl
  constructor
  · rintro ⟨request', response, p', hrequest', hresponse, -⟩
    rw [hheader, hrequest] at hrequest'
    cases hrequest'
    rw [hfetch, hbasic] at hresponse
    by_contra hlarge
    rw [if_pos (by omega)] at hresponse
    cases hresponse
  · intro hsmall
    have hnum : (((header.number % 2 ^ 32).toNat : Nat) : Int) = header.number := by omega
    -- the transactions that the request names, and what the parser makes of them
    have hnames : ∀ q ∈ p.missedTxs, ∃ t, Names c version txs q t := by
      intro q hq
      obtain ⟨t, ht, hqt, -⟩ := (hmem q).mp hq
      refine ⟨t, ht, ?_⟩
      rw [hqt]
      exact hhash t (List.mem_of_getElem? ht)
    obtain ⟨missed, hmissed⟩ := exists_forall₂ hnames
    have hready' : ∀ t ∈ missed, TxsParallelParser.Ready c version .Everything t := by
      intro t ht
      obtain ⟨i, hi⟩ := List.mem_iff_getElem?.mp ht
      obtain ⟨hlt, rfl⟩ := List.getElem?_eq_some_iff.mp hi
      have hname := (List.forall₂_iff_get.mp hmissed).2 i (by rw [hmissed.length_eq]; exact hlt) hlt
      exact hready _ (List.mem_of_getElem? hname.1)
    obtain ⟨txsBytes, fetched, henc, hsize, hsame, hdec⟩ := travel hc hready' (hfit missed hmissed)
    obtain ⟨response, hresponse, hstrict', hbasic', hread⟩ :=
      read_encodeResponse header.number (k.headerHash header) henc hsize
    -- a transaction belongs at `j` when it is written as the one of the leader
    let Belongs := fun (j : Nat) (t' : Transaction S) =>
      ∀ t, txs[j]? = some t → t'.encode c version = t.encode c version
    have hfetched : List.Forall₂ (fun (t : Transaction S) (info : H256 × Nat) =>
        t.hash c version = .ok info.1 ∧ Belongs info.2 t) fetched p.missedTxs := by
      have hlength : fetched.length = p.missedTxs.length := by
        rw [hmissed.length_eq, hsame.length_eq]
      refine List.forall₂_iff_get.mpr ⟨hlength, fun i hi hi' => ?_⟩
      have hi'' : i < missed.length := by rw [← hmissed.length_eq]; exact hi'
      have hname := (List.forall₂_iff_get.mp hmissed).2 i hi' hi''
      have htx := (List.forall₂_iff_get.mp hsame).2 i hi'' hi
      refine ⟨by rw [htx.hash, hname.2], fun t ht => ?_⟩
      rw [hname.1] at ht
      cases ht
      exact encode_eq_of_sameFields htx.fields
    have hslotsLen : p.transactions.length = txs.length := by rw [htransactions, List.length_map]
    obtain ⟨slots, hfill, hslots, hall⟩ := fillMissed_spec hfetched
      (fun q hq => by
        obtain ⟨t, ht, -⟩ := (hmem q).mp hq
        exact (List.getElem?_eq_some_iff.mp ht).1) hslotsLen
      (fun j hj => by
        have hget := List.getElem?_eq_getElem hj
        cases hfind : pool.find? fun t' => decide (k.txHash t' = k.txHash txs[j]) with
        | none => exact Or.inl ⟨k.txHash txs[j], (hmem _).mpr ⟨txs[j], hget, rfl, hfind⟩⟩
        | some t' =>
          refine Or.inr ⟨t', ?_, fun t ht => ?_⟩
          · rw [htransactions, List.getElem?_map, hget]
            exact congrArg some hfind
          · rw [hget] at ht
            cases ht
            have hfound := List.find?_some hfind
            exact hpool _ (List.getElem_mem hj) t' (List.mem_of_find?_eq_some hfind)
              (of_decide_eq_true hfound))
    refine ⟨request, response, { p with transactions := slots }, ?_, ?_, fun order horder => ?_, ?_⟩
    · rw [hheader]
      exact hrequest
    · rw [hfetch, hbasic, hnum, if_neg (fun h => h rfl), if_neg (fun h => h rfl),
        obtainMissed_ok_iff.mpr hmissed]
      exact hresponse
    · have hrun := hdec order (horder txsBytes hread)
      have hcountEq : (fetched.map some).length = p.missedTxs.length := by
        rw [List.length_map, ← hfetched.length_eq]
      rw [fillBlock, hstrict']
      simp only [Except.mapError, bind, Except.bind, hbasic', hheader, hnum, ne_eq, not_true_eq_false,
        if_false, hread, hrun, hcountEq, hfill]
      rfl
    · refine List.forall₂_iff_get.mpr ⟨hslots.symm, fun i hi hi' => ?_⟩
      obtain ⟨t', ht', hbelongs⟩ := hall i hi
      rw [List.getElem?_eq_getElem hi'] at ht'
      exact ⟨t', Option.some.inj ht', hbelongs _ (List.getElem?_eq_getElem hi)⟩

/-! ### What the follower accepts -/

theorem fillMissed_ok {txs : List (Option (Transaction S))} {missedTxs : List (H256 × Nat)}
    {slots slots' : List (Option (Transaction S))} (hlen : txs.length = missedTxs.length)
    (h : fillMissed c version txs missedTxs slots = .ok slots') :
    ∃ fetched, txs = fetched.map some
      ∧ List.Forall₂ (fun (t : Transaction S) (info : H256 × Nat) =>
          t.hash c version = .ok info.1 ∧ info.2 < slots.length) fetched missedTxs
      ∧ slots' = (fetched.zip (missedTxs.map Prod.snd)).foldl
          (fun ts e => ts.set e.2 (some e.1)) slots := by
  induction txs generalizing missedTxs slots with
  | nil =>
    cases missedTxs with
    | nil =>
      cases h
      exact ⟨[], rfl, .nil, rfl⟩
    | cons _ _ => cases hlen
  | cons tx txs ih =>
    cases missedTxs with
    | nil => cases hlen
    | cons info missedTxs =>
      cases tx with
      | none => cases h
      | some t =>
        rw [fillMissed] at h
        obtain ⟨hash, hhash, h⟩ := ok_of_bind h
        have hhash' := mapError_ok.mp hhash
        split at h
        · cases h
        next heq =>
          split at h
          next hlt =>
            obtain ⟨fetched, rfl, hall, hslots⟩ := ih (Nat.succ.inj hlen) h
            refine ⟨t :: fetched, rfl, .cons ⟨?_, hlt⟩ ?_, hslots⟩
            · rw [hhash', Decidable.of_not_not heq]
            · rw [List.length_set] at hall
              exact hall
          · cases h

/-- A response that agrees with what was asked for in its number, its hash, its
    count and each of its transaction hashes. -/
def Agrees (c : SignatureScheme H256 S) (version : Version) (k : Crypto H256 Sig (Transaction S))
    (order : List Nat) (p p' : PartiallyBlock H256 (Transaction S)) (response : Bytes) : Prop :=
  ItemReads response 0 toPositiveInt64 p.header.number
    ∧ ItemReads response 1 (toHash 32) (k.headerHash p.header)
    ∧ ∃ txsBytes fetched, ItemReads response 2 toBytes txsBytes
      ∧ TxsParallelParser.decode c version .Everything order [] txsBytes = .ok (fetched.map some)
      ∧ List.Forall₂ (fun (t : Transaction S) (info : H256 × Nat) =>
          t.hash c version = .ok info.1) fetched p.missedTxs
      ∧ p' = { p with
          transactions := (fetched.zip (p.missedTxs.map Prod.snd)).foldl
            (fun ts e => ts.set e.2 (some e.1)) p.transactions }

theorem checkBasic_ok {rlp : Bytes} {number : Int} {expectedHash : H256}
    (h : checkBasic rlp number expectedHash = .ok ()) :
    ItemReads rlp 0 toPositiveInt64 number ∧ ItemReads rlp 1 (toHash 32) expectedHash := by
  obtain ⟨n, hn, h⟩ := ok_of_bind h
  split at h
  · cases h
  next hnumber =>
  obtain ⟨blockHash, hhash, h⟩ := ok_of_bind h
  split at h
  · cases h
  next heq =>
  rw [Decidable.of_not_not hnumber] at hn
  rw [Decidable.of_not_not heq] at hhash
  exact ⟨itemReads_iff.mp (mapError_ok.mp hn), itemReads_iff.mp (mapError_ok.mp hhash)⟩

theorem fillBlock_ok {order : List Nat} {p p' : PartiallyBlock H256 (Transaction S)}
    {response : Bytes} (h : fillBlock c version k.headerHash order p response = .ok p') :
    Agrees c version k order p p' response := by
  obtain ⟨rlp, hstrict, hrest⟩ := ok_of_bind h
  rw [ofVeryStrict_ok (mapError_ok.mp hstrict)] at hrest
  obtain ⟨u, hbasic, h⟩ := ok_of_bind hrest
  obtain ⟨txsBytes, hread, h⟩ := ok_of_bind h
  obtain ⟨txs, hdec, h⟩ := ok_of_bind h
  split at h
  · cases h
  next hcount =>
  obtain ⟨slots, hfill, h⟩ := ok_of_bind h
  cases h
  obtain ⟨fetched, rfl, hall, rfl⟩ := fillMissed_ok (Decidable.of_not_not hcount) hfill
  obtain ⟨hnumber, hhash⟩ := checkBasic_ok hbasic
  exact ⟨hnumber, hhash, txsBytes, fetched, itemReads_iff.mp (mapError_ok.mp hread),
    mapError_ok.mp hdec, hall.imp fun _ _ ht => ht.1, rfl⟩

/-- The bytes that the node accepts are a response that the block accepts, so
    `PartiallyBlock.fillBlock` describes the exchange for the consensus engine. -/
theorem fillBlock_refines {order : List Nat} {p p' : PartiallyBlock H256 (Transaction S)}
    {response : Bytes} (hhash : ∀ t h, t.hash c version = .ok h → k.txHash t = h)
    (h : fillBlock c version k.headerHash order p response = .ok p') :
    ∃ fetched, p.fillBlock k
      { number := p.header.number, blockHash := k.headerHash p.header, txs := some fetched }
        = some p' := by
  obtain ⟨-, -, txsBytes, fetched, -, -, hall, rfl⟩ := fillBlock_ok h
  refine ⟨fetched, ?_⟩
  have hhashes : fetched.map k.txHash = p.missedTxs.map Prod.fst := by
    rw [← List.forall₂_eq_eq_eq, List.forall₂_map_left_iff, List.forall₂_map_right_iff]
    exact hall.imp fun t info ht => hhash t info.1 ht
  simp only [PartiallyBlock.fillBlock, ne_eq, not_true_eq_false, if_false, Option.bind_eq_bind,
    Option.bind_some, hhashes]

end Follower

/-- **The exchange of missed transactions, and when it is safe and faithful.**
    A request is answered without leaving the block exactly when its indices lie
    in it, as far as they are looked up.  A received proposal is completed to the
    block of the leader exactly when its number has 32 bits.  What is filled in
    always agrees with what was asked for. -/
theorem missed_txs_iff {Sig S : Type} (c : SignatureScheme H256 S) (hc : c.Inverse)
    (version : Version) (k : Crypto H256 Sig (Transaction S)) :
    (∀ (txs : List (Transaction S)) (number : Int) (expectedHash : H256) (missInfo : Bytes),
      missInfo.length < 2 ^ 32 →
      (Served c version txs number expectedHash missInfo
        ↔ RequestInBlock c version txs number expectedHash missInfo))
    ∧ (∀ (header : BlockHeader H256) (txs pool : List (Transaction S)),
      0 ≤ header.number → txs.length < 2 ^ 32 →
      (∀ t ∈ txs, TxsParallelParser.Ready c version .Everything t) →
      (∀ t ∈ txs, t.hash c version = .ok (k.txHash t)) →
      (∀ t ∈ txs, ∀ t' ∈ pool, k.txHash t' = k.txHash t →
        t'.encode c version = t.encode c version) →
      (∀ missed, List.Forall₂ (Names c version txs)
        (receivedProposal k header txs pool).missedTxs missed → FitsMessage c version missed) →
      (Exchanges c version k header txs (receivedProposal k header txs pool)
        ↔ header.number < 2 ^ 32))
    ∧ (∀ order p p' response, fillBlock c version k.headerHash order p response = .ok p' →
      Agrees c version k order p p' response) :=
  ⟨fun _ _ _ _ hlen => served_iff hlen,
   fun _ _ _ hnumber hcount hready hhash hpool hfit =>
    exchanges_iff hc hnumber hcount hready hhash hpool hfit,
   fun _ _ _ _ h => fillBlock_ok h⟩

/-! ### A block with one transaction -/

def prefixHash (b : Bytes) : H256 :=
  ⟨(b ++ List.replicate 32 0).take 32, by
    rw [List.length_take, List.length_append, List.length_replicate]
    omega⟩

def prefixScheme : SignatureScheme H256 ECDSASignature :=
  ecdsa prefixHash fun _ _ => some Address.zero

def prefixCrypto : Crypto H256 Nat (Transaction ECDSASignature) where
  hash := prefixHash
  headerHash _ := prefixHash []
  txHash t := (t.hash prefixScheme .RC2).toOption.getD (prefixHash [])
  txsRoot _ := prefixHash []
  sign _ _ := 0
  verify _ _ _ := true

def plainHeader (number : Int) : BlockHeader H256 where
  parentHash := prefixHash []
  stateRoot := prefixHash []
  transactionsRoot := prefixHash []
  receiptsRoot := prefixHash []
  dbHash := prefixHash []
  number := number
  sealer := 0
  sealerList := []

theorem plainCreation_rlp : Transaction.rlp prefixScheme .RC2 plainCreation = .ok plainBytes := by
  decide +kernel

theorem plainCreation_fits {pool : List (Transaction ECDSASignature)} {header : BlockHeader H256}
    {missed : List (Transaction ECDSASignature)}
    (h : List.Forall₂ (Names prefixScheme .RC2 [plainCreation])
      (receivedProposal prefixCrypto header [plainCreation] pool).missedTxs missed) :
    FitsMessage prefixScheme .RC2 missed := by
  have hle := length_missedTxs_le prefixCrypto header [plainCreation] pool
  rw [h.length_eq] at hle
  have hall : ∀ t ∈ missed, t = plainCreation := by
    intro t ht
    obtain ⟨i, hi⟩ := List.mem_iff_getElem?.mp ht
    obtain ⟨hlt, rfl⟩ := List.getElem?_eq_some_iff.mp hi
    have hname := (List.forall₂_iff_get.mp h).2 i (by rw [h.length_eq]; exact hlt) hlt
    exact List.mem_singleton.mp (List.mem_of_getElem? hname.1)
  intro txRLPs hrlp
  rcases missed with _ | ⟨t, _ | ⟨t', missed⟩⟩
  · cases hrlp
    decide
  · obtain rfl := hall t List.mem_cons_self
    rw [List.mapM_cons, plainCreation_rlp] at hrlp
    cases hrlp
    decide
  · exact absurd hle (by simp)

theorem plainCreation_ready :
    ∀ t ∈ [plainCreation], TxsParallelParser.Ready prefixScheme .RC2 .Everything t := by
  intro t ht
  obtain rfl := List.mem_singleton.mp ht
  exact Or.inl ⟨rfl, by decide, _, rfl, by decide +kernel⟩

theorem missed_txs_iff_plain :
    Exchanges prefixScheme .RC2 prefixCrypto (plainHeader 5) [plainCreation]
        (receivedProposal prefixCrypto (plainHeader 5) [plainCreation] [])
      ∧ Served prefixScheme .RC2 [plainCreation] 5 (prefixHash []) [0xc0] := by
  obtain ⟨hserved, hexchange, -⟩ := missed_txs_iff prefixScheme (ecdsa_inverse _ _) .RC2 prefixCrypto
  constructor
  · refine (hexchange (plainHeader 5) [plainCreation] [] (by decide) (by decide) plainCreation_ready
      ?_ nofun fun missed h => plainCreation_fits h).mpr (by decide)
    intro t ht
    obtain rfl := List.mem_singleton.mp ht
    decide +kernel
  · refine (hserved _ _ _ _ (by decide)).mpr fun infos _ hbasic _ => ?_
    exact absurd hbasic (by decide +kernel)

/-- The answer of the leader fills the block of the consensus engine. -/
theorem fillBlock_refines_plain : ∃ fetched,
    ((receivedProposal prefixCrypto (plainHeader 5) [plainCreation] []).fillBlock prefixCrypto
      { number := 5, blockHash := prefixHash [], txs := some fetched }).isSome := by
  let response := (fetchMissedTxs prefixScheme .RC2 [plainCreation] 5 ((encodeMissedInfo 5 (prefixHash [])
    [(prefixCrypto.txHash plainCreation, 0)]).toOption.getD []) (prefixHash [])).toOption.getD []
  have haccepted : (fillBlock prefixScheme .RC2 prefixCrypto.headerHash [0]
      (receivedProposal prefixCrypto (plainHeader 5) [plainCreation] []) response).isOk := by decide +kernel
  cases hfill : fillBlock prefixScheme .RC2 prefixCrypto.headerHash [0]
      (receivedProposal prefixCrypto (plainHeader 5) [plainCreation] []) response with
  | error e =>
    rw [hfill] at haccepted
    cases haccepted
  | ok p' =>
    obtain ⟨fetched, hfilled⟩ := fillBlock_refines (k := prefixCrypto)
      (fun t h ht => by simp [prefixCrypto, ht, Except.toOption]) hfill
    exact ⟨fetched, Option.isSome_iff_exists.mpr ⟨p', hfilled⟩⟩

/-- The leader looks up index 7 of a block with one transaction; and a proposal
    with the number 2^32 + 5 asks for block 5. -/
theorem missed_txs_leaves_block :
    (∃ missInfo, encodeMissedInfo 5 (prefixHash []) [(prefixHash plainBytes, 7)] = .ok missInfo
      ∧ fetchMissedTxs prefixScheme .RC2 [plainCreation] 5 missInfo (prefixHash [])
        = .error (.outOfRange 7 1)
      ∧ ¬ Served prefixScheme .RC2 [plainCreation] 5 (prefixHash []) missInfo)
    ∧ ¬ Exchanges prefixScheme .RC2 prefixCrypto (plainHeader (2 ^ 32 + 5)) [plainCreation]
        (receivedProposal prefixCrypto (plainHeader (2 ^ 32 + 5)) [plainCreation] []) := by
  constructor
  · have hfetch : ∃ missInfo,
        encodeMissedInfo 5 (prefixHash []) [(prefixHash plainBytes, 7)] = .ok missInfo
        ∧ fetchMissedTxs prefixScheme .RC2 [plainCreation] 5 missInfo (prefixHash [])
          = .error (.outOfRange 7 1) :=
      ⟨_, encodeMissedInfo_eq _ _ _, by decide +kernel⟩
    obtain ⟨missInfo, hrequest, hout⟩ := hfetch
    refine ⟨missInfo, hrequest, hout, fun hserved => ?_⟩
    rw [Served, hout] at hserved
    exact Bool.false_ne_true hserved
  · intro h
    have hlt : (plainHeader (2 ^ 32 + 5)).number < 2 ^ 32 :=
      (exchanges_iff (ecdsa_inverse _ _) (by decide) (by decide) plainCreation_ready
        (fun t ht => by
          obtain rfl := List.mem_singleton.mp ht
          decide +kernel)
        (fun _ _ t' ht' => absurd ht' (List.not_mem_nil (a := t')))
        (fun missed h => plainCreation_fits h)).mp h
    exact absurd hlt (by decide)

end HieraChain.Eth
