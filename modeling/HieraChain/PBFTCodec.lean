/-
  HieraChain/PBFTCodec.lean
  =========================
  **The wire format of the PBFT messages** (`libconsensus/pbft/Common.h`).

  `encode` streams the fields one after the other without an enclosing list and
  then writes them as the single string item of a list; `decode` takes that
  item and indexes inside its payload (`index_strItems`).  Every 64-bit field
  goes through `append(unsigned)`, so only `low32` of it is on the wire.
-/
import HieraChain.PBFTCommon
import HieraChain.RLPItem

namespace HieraChain.PBFT

open HieraChain.BigEndian HieraChain.RLP

abbrev H256 := FixedHash 32
abbrev H512 := FixedHash 64

/-- Largest size of a `std::vector<byte>`. -/
def vectorMaxSize : Nat := 2 ^ 63 - 1

/-! ### The common envelope -/

/-- `list_rlp.appendList(1).append(tmp.out())`, `swapOut`. -/
def envelope (tmp : RLPStream) : Except RLPError Bytes := do
  out (← appendBytes (← appendList {} 1) (← out tmp))

/-- `RLP rlp(data); rlp[0]`. -/
def openEnvelope (data : Bytes) : Except RLPError Bytes := do
  index (← ofVeryStrict data) 0

/-! ### `PBFTMsg` -/

/-- The four leading fields, as `fieldsWithoutBlock` and `streamRLPFields` write them. -/
def streamFieldsWithoutBlock {H S : Type} (m : PBFTMsg H S) (s : RLPStream) :
    Except RLPError RLPStream := do
  let s ← appendUnsigned s m.height
  let s ← appendUnsigned s m.view
  let s ← appendUnsigned s m.idx
  appendBigint s m.timestamp

def PBFTMsg.streamRLPFields (m : PBFTMsg H256 Bytes) (s : RLPStream) : Except RLPError RLPStream := do
  let s ← streamFieldsWithoutBlock m s
  let s ← appendHash s m.blockHash
  let s ← appendBytes s m.sig
  appendBytes s m.sig2

def PBFTMsg.populate (m : PBFTMsg H256 Bytes) (rlp : Bytes) : Except RLPError (PBFTMsg H256 Bytes) := do
  let height ← toInt64 (← index rlp 0)
  let view ← toInt64 (← index rlp 1)
  let idx ← toInt 2 (← index rlp 2)
  let timestamp ← toInt 32 (← index rlp 3)
  let blockHash ← toHash 32 (← index rlp 4)
  let sig ← toBytes (← index rlp 5)
  let sig2 ← toBytes (← index rlp 6)
  return { m with height, view, idx, timestamp, blockHash, sig, sig2 }

def PBFTMsg.encode (m : PBFTMsg H256 Bytes) : Except RLPError Bytes := do
  envelope (← m.streamRLPFields {})

def PBFTMsg.decode (m : PBFTMsg H256 Bytes) (data : Bytes) : Except RLPError (PBFTMsg H256 Bytes) := do
  m.populate (← openEnvelope data)

def PBFTMsg.encodeStatus (m : PBFTMsg H256 Bytes) : Except RLPError Bytes := do
  let s ← appendUnsigned {} m.height
  let s ← appendUnsigned s m.view
  let s ← appendUnsigned s m.idx
  envelope (← appendHash s m.blockHash)

def PBFTMsg.decodeStatus (m : PBFTMsg H256 Bytes) (data : Bytes) : Except RLPError (PBFTMsg H256 Bytes) := do
  let statusRlp ← openEnvelope data
  let height ← toInt64 (← index statusRlp 0)
  let view ← toInt64 (← index statusRlp 1)
  let idx ← toInt 2 (← index statusRlp 2)
  let blockHash ← toHash 32 (← index statusRlp 3)
  return { m with height, view, idx, blockHash }

/-- The bytes that `fieldsWithoutBlock` hashes. -/
def PBFTMsg.fieldsWithoutBlock {H S : Type} (m : PBFTMsg H S) : Except RLPError Bytes := do
  out (← streamFieldsWithoutBlock m {})

/-! ### `PrepareReq` -/

section PrepareReq

variable {P : Type}

def PrepareReq.streamRLPFields (m : PrepareReq H256 Bytes Bytes P) (s : RLPStream) :
    Except RLPError RLPStream := do
  appendBytes (← m.toPBFTMsg.streamRLPFields s) m.block

def PrepareReq.populate (m : PrepareReq H256 Bytes Bytes P) (rlp : Bytes) :
    Except RLPError (PrepareReq H256 Bytes Bytes P) := do
  let base ← m.toPBFTMsg.populate rlp
  let block ← toBytes (← index rlp 7)
  return { m with toPBFTMsg := base, block }

def PrepareReq.encode (m : PrepareReq H256 Bytes Bytes P) : Except RLPError Bytes := do
  envelope (← m.streamRLPFields {})

def PrepareReq.decode (m : PrepareReq H256 Bytes Bytes P) (data : Bytes) :
    Except RLPError (PrepareReq H256 Bytes Bytes P) := do
  m.populate (← openEnvelope data)

end PrepareReq

/-! ### `PBFTMsgPacket` and `OPBFTMsgPacket` -/

/-- The update of the mutable `ttl` at the head of `streamRLPFields`. -/
def PBFTMsgPacket.extendTTL {N : Type} (p : PBFTMsgPacket N) : PBFTMsgPacket N :=
  if p.prepareWithEmptyBlock then { p with ttl := p.ttl ||| 0x80 } else p

def PBFTMsgPacket.streamRLPFields {N : Type} (p : PBFTMsgPacket N) (s : RLPStream) :
    Except RLPError RLPStream := do
  let s ← appendUnsigned s p.packetId.toNat
  let s ← appendUnsigned s p.extendTTL.ttl.toNat
  let s ← appendBytes s p.data
  appendUnsigned s p.testLabel

def PBFTMsgPacket.populate {N : Type} (p : PBFTMsgPacket N) (rlp : Bytes) :
    Except RLPError (PBFTMsgPacket N) := do
  let packetId ← toInt 1 (← index rlp 0)
  let extendedTTL ← toInt 1 (← index rlp 1)
  let data ← toBytes (← index rlp 2)
  let testLabel ← toInt 1 (← index rlp 3)
  return { p with
    packetId := UInt8.ofNat packetId
    ttl := UInt8.ofNat extendedTTL &&& 0x7f
    prepareWithEmptyBlock := UInt8.ofNat extendedTTL &&& 0x80 != 0
    data
    testLabel }

def PBFTMsgPacket.encode {N : Type} (p : PBFTMsgPacket N) : Except RLPError Bytes := do
  envelope (← p.streamRLPFields {})

def PBFTMsgPacket.decode {N : Type} (p : PBFTMsgPacket N) (data : Bytes) :
    Except RLPError (PBFTMsgPacket N) := do
  p.populate (← openEnvelope data)

namespace OPBFTMsgPacket

def streamRLPFields (p : PBFTMsgPacket H512) (s : RLPStream) : Except RLPError RLPStream := do
  appendVector (← PBFTMsgPacket.streamRLPFields p s) p.forwardNodes

def populate (p : PBFTMsgPacket H512) (rlp : Bytes) : Except RLPError (PBFTMsgPacket H512) := do
  let p ← PBFTMsgPacket.populate p rlp
  let forwardNodes ← toVector (toHashLax 64) (← index rlp 3)
  return { p with forwardNodes }

def encode (p : PBFTMsgPacket H512) : Except RLPError Bytes := do
  envelope (← streamRLPFields p {})

def decode (p : PBFTMsgPacket H512) (data : Bytes) : Except RLPError (PBFTMsgPacket H512) := do
  populate p (← openEnvelope data)

end OPBFTMsgPacket

/-! ### The envelope opens -/

def strItems (ps : List Bytes) : Items := ps.map fun p => (strItem p, p)

@[simp] theorem strItems_nil : strItems [] = [] := rfl

@[simp] theorem strItems_cons (p : Bytes) (ps : List Bytes) :
    strItems (p :: ps) = (strItem p, p) :: strItems ps := rfl

theorem length_payload_le_strItem (p : Bytes) : p.length ≤ (strItem p).length := by
  unfold strItem
  split
  · exact Nat.le_refl _
  · simp

theorem length_payload_le_listItem (p : Bytes) : p.length ≤ (listItem p).length := by
  simp [listItem]

theorem length_item_le_bytes {its : Items} {it : Bytes × Bytes} (h : it ∈ its) :
    it.1.length ≤ its.bytes.length := by
  induction its with
  | nil => cases h
  | cons it' its ih =>
    rw [Items.bytes_cons, List.length_append]
    rcases List.mem_cons.mp h with rfl | h
    · omega
    · have := ih h
      omega

theorem length_sizePrefix_le (start count : Nat) {n : Nat} (h : SizeOk n) :
    (sizePrefix start count n).length ≤ 9 := by
  unfold sizePrefix
  split
  · simp
  · have hbytes : bytesRequired n ≤ 8 := by
      refine bytesRequired_le_iff.mpr ?_
      unfold SizeOk sizeMax at h
      omega
    rw [List.length_cons, length_bigEndian]
    omega

theorem length_strItem_le_of_le (p : Bytes) (h : SizeOk p.length) :
    (strItem p).length ≤ p.length + 9 := by
  unfold strItem
  split
  · omega
  · have := length_sizePrefix_le c_rlpDataImmLenStart c_rlpDataImmLenCount h
    rw [List.length_append]
    omega

theorem length_listItem_le (p : Bytes) (h : SizeOk p.length) :
    (listItem p).length ≤ p.length + 9 := by
  have := length_sizePrefix_le c_rlpListStart c_rlpListImmLenCount h
  rw [listItem, List.length_append]
  omega

theorem envelope_eq (f : Bytes) :
    envelope { mOut := f } = .ok (listItem (strItem f)) := by
  have hlist := appendList_strings [f]
  simp only [List.length_cons, List.length_nil, List.foldlM_cons, List.foldlM_nil, bind_pure,
    List.map_cons, List.map_nil, List.flatten_cons, List.flatten_nil, List.append_nil] at hlist
  change (do out (← appendBytes (← appendList {} 1) f)) = _
  rw [← bind_assoc, hlist]
  rfl

theorem openEnvelope_eq {f : Bytes} (hsize : SizeOk (listItem (strItem f)).length) :
    openEnvelope (listItem (strItem f)) = .ok (strItem f) := by
  have hstr : SizeOk (strItem f).length := hsize.mono (length_payload_le_listItem _)
  have hf : SizeOk f.length := hstr.mono (length_payload_le_strItem _)
  have hlist : IsItem (listItem (strItem f)) (Items.bytes [(strItem f, f)]) := by
    rw [Items.bytes_cons, Items.bytes_nil, List.append_nil]
    exact listItem_isItem hstr
  rw [openEnvelope, (listItem_isItem hstr).ofVeryStrict_eq]
  refine index_of_items hlist ?_
    (show ([(strItem f, f)] : Items)[0]? = some (strItem f, f) from rfl)
  intro it hit
  rw [List.mem_singleton] at hit
  subst hit
  exact strItem_isItem hf

/-- **Indexing inside the envelope** finds the item at that position. -/
theorem index_strItem {its : Items} (hsize : SizeOk its.bytes.length)
    (hall : ∀ it ∈ its, SizeOk it.2.length → IsItem it.1 it.2)
    (hle : ∀ it ∈ its, it.2.length ≤ it.1.length) {i : Nat} {it : Bytes × Bytes}
    (hi : its[i]? = some it) : index (strItem its.bytes) i = .ok it.1 := by
  refine index_of_items (strItem_isItem hsize) ?_ hi
  intro it' hit'
  exact hall it' hit' (hsize.mono (Nat.le_trans (hle it' hit') (length_item_le_bytes hit')))

theorem mem_strItems {ps : List Bytes} {it : Bytes × Bytes} (h : it ∈ strItems ps) :
    it = (strItem it.2, it.2) := by
  obtain ⟨p, -, rfl⟩ := List.mem_map.mp h
  rfl

theorem index_strItems {ps : List Bytes} (hsize : SizeOk (strItems ps).bytes.length) {i : Nat}
    {p : Bytes} (hi : ps[i]? = some p) : index (strItem (strItems ps).bytes) i = .ok (strItem p) := by
  have hget : (strItems ps)[i]? = some (strItem p, p) := by
    rw [strItems, List.getElem?_map, hi]
    rfl
  refine index_strItem hsize ?_ ?_ hget
  · intro it hit hit2
    rw [mem_strItems hit]
    exact strItem_isItem hit2
  · intro it hit
    rw [mem_strItems hit]
    exact length_payload_le_strItem _

theorem sizeOk_of_mem_strItems {ps : List Bytes} (hsize : SizeOk (strItems ps).bytes.length)
    {p : Bytes} (hp : p ∈ ps) : SizeOk p.length := by
  have hmem : (strItem p, p) ∈ strItems ps := List.mem_map.mpr ⟨p, hp, rfl⟩
  exact hsize.mono (Nat.le_trans (length_payload_le_strItem p) (length_item_le_bytes hmem))

theorem sizeOk_of_fits {f : Bytes} (h : (listItem (strItem f)).length ≤ vectorMaxSize) :
    SizeOk (listItem (strItem f)).length := by
  unfold SizeOk sizeMax
  unfold vectorMaxSize at h
  omega

/-! ### 32-bit fields and sizes -/

def low32 (i : Int) : Nat := (i % 2 ^ 32).toNat

theorem low32_lt (i : Int) : low32 i < 2 ^ 32 := by
  unfold low32
  omega

theorem low32_eq_iff {i : Int} (h : 0 ≤ i) : (low32 i : Int) = i ↔ i < 2 ^ 32 := by
  unfold low32
  omega

theorem length_strItem_le {p : Bytes} (h : p.length ≤ 55) : (strItem p).length ≤ 56 := by
  unfold strItem
  split
  · omega
  · have hshort : p.length < c_rlpDataImmLenCount := by
      change p.length < 56
      omega
    rw [sizePrefix, if_pos hshort, List.length_append, List.length_singleton]
    omega

theorem length_bytes_strItems_le (ps : List Bytes) (h : ∀ p ∈ ps, p.length ≤ 55) :
    (strItems ps).bytes.length ≤ 56 * ps.length := by
  induction ps with
  | nil => exact Nat.zero_le _
  | cons p ps ih =>
    have hp := length_strItem_le (h p List.mem_cons_self)
    have hps := ih fun q hq => h q (List.mem_cons_of_mem _ hq)
    rw [strItems_cons, Items.bytes_cons, List.length_append, List.length_cons]
    exact Nat.le_trans (Nat.add_le_add hp hps) (by omega)

theorem length_bigEndian_low32 (i : Int) : (bigEndian (low32 i)).length ≤ 55 := by
  have h : bytesRequired (low32 i) ≤ 4 := bytesRequired_le_iff.mpr (low32_lt i)
  rw [length_bigEndian]
  omega

/-- The encoded bytes fit a `std::vector<byte>`. -/
def Fits (encoded : Except RLPError Bytes) : Prop := ∀ b, encoded = .ok b → b.length ≤ vectorMaxSize

theorem fits_strItems {ps : List Bytes} (hshort : ∀ p ∈ ps, p.length ≤ 55)
    (hcount : ps.length ≤ 1000) : Fits (.ok (listItem (strItem (strItems ps).bytes))) := by
  intro b hb
  cases hb
  have hbody := length_bytes_strItems_le ps hshort
  have hstr := length_strItem_le_of_le (strItems ps).bytes (by unfold SizeOk sizeMax; omega)
  have hlist := length_listItem_le (strItem (strItems ps).bytes)
    (by unfold SizeOk sizeMax; omega)
  unfold vectorMaxSize
  omega

end HieraChain.PBFT
