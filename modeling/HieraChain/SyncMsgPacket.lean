/-
  HieraChain/SyncMsgPacket.lean
  =============================
  **The packets of block synchronisation** (`libsync/SyncMsgPacket.cpp`) and
  the numbers they carry.

  A packet is one byte for its type and a list of fields (`packetOf`), and the
  handler of the type gets the list (`received_iff`).  The status packets append
  their numbers as `bigint`.  The other packets stream theirs with `<<`, which
  resolves to `append(unsigned)`: only `low32` of them is on the wire.
-/
import HieraChain.PBFTCodec
import HieraChain.RLPCanonical
import HieraChain.TxsParallelParser

namespace HieraChain.Sync

open HieraChain.BigEndian HieraChain.RLP HieraChain.Eth
open HieraChain.PBFT (H256 strItems strItems_cons strItems_nil mem_strItems low32 low32_lt low32_eq_iff
  length_bytes_strItems_le length_bigEndian_low32 length_item_le_bytes length_payload_le_strItem vectorMaxSize)

/-! ### Packets -/

def c_syncPacketIDBase : UInt8 := 1

def StatusPacket : UInt8 := 0x00
def TransactionsPacket : UInt8 := 0x01
def ReqBlocskPacket : UInt8 := 0x03
def TxsStatusPacket : UInt8 := 0x04

inductive SyncError
  | rlp (e : RLPError)
  | parser (e : ParserException)
  /-- `InValidSyncPacket`. -/
  | invalidSyncPacket (comment : String)
  deriving DecidableEq, Repr

def ofRLP {α : Type} (r : Except RLPError α) : Except SyncError α := r.mapError .rlp

def prep (s : RLPStream) (id : UInt8) (args : Nat) : Except RLPError RLPStream := do
  appendList (← appendRaw s [id + c_syncPacketIDBase]) args

def checkPacket (msg : Bytes) : Except RLPError Bool :=
  if msg.length < 2 ∨ 0x7f < lead msg then .ok false
  else do
    let size ← actualSize (← ofVeryStrict (msg.drop 1))
    return decide (size + 1 = msg.length)

/-- `SyncMsgPacket::decode`: the type of the packet and its fields. -/
def decode (frame : Bytes) : Except RLPError (Option (UInt8 × Bytes)) := do
  if ← checkPacket frame then
    let id ← toInt 4 (← ofVeryStrict (cropped frame 0 1))
    return some (UInt8.ofNat id - c_syncPacketIDBase, ← ofVeryStrict (frame.drop 1))
  else return none

/-- `append(bigint)` of a signed number; a negative one is below `c_rlpDataImmLenStart`. -/
def appendInt (s : RLPStream) (i : Int) : Except RLPError RLPStream :=
  if i < 0 then noteAppended { s with mOut := s.mOut ++ [UInt8.ofInt i] } else appendBigint s i.toNat

def itemCount (d : Bytes) : Except RLPError Nat := if isList d then itemCountStrict d else .ok 0

/-- `toHash` with its default flags `Strict`: a short payload is padded. -/
def toHashStrict (size : Nat) (d : Bytes) : Except RLPError (FixedHash size) := do
  requireGood d
  let p ← payload d
  if isData d ∧ p.length ≤ size then toHashLax size d else .error .badCast

def toPositiveInt64 (d : Bytes) : Except RLPError Int := do
  let i ← toInt64 d
  if i < 0 then .error .badCast else .ok i

/-! ### `SyncStatusPacket` and `SyncStatusPacketWithAlignedTime` -/

structure SyncStatusPacket where
  number : Int
  genesisHash : H256
  latestHash : H256
  alignedTime : Int

namespace SyncStatusPacket

/-- `encode` of the base class, with the number of items of the class. -/
def stream (p : SyncStatusPacket) (mItemCount : Nat) : Except RLPError RLPStream := do
  let s ← prep {} StatusPacket mItemCount
  let s ← appendInt s p.number
  let s ← appendHash s p.genesisHash
  appendHash s p.latestHash

def encode (p : SyncStatusPacket) : Except RLPError Bytes := do
  out (← p.stream 3)

def encodeWithAlignedTime (p : SyncStatusPacket) : Except RLPError Bytes := do
  out (← appendInt (← p.stream 4) p.alignedTime)

def populate (p : SyncStatusPacket) (mItemCount : Nat) (rlp : Bytes) : Except SyncError SyncStatusPacket := do
  if (← ofRLP (itemCount rlp)) ≠ mItemCount then
    .error (.invalidSyncPacket "receive invalid SyncStatusPacket format")
  else
    let number ← ofRLP (do toInt64 (← index rlp 0))
    let genesisHash ← ofRLP (do toHashStrict 32 (← index rlp 1))
    let latestHash ← ofRLP (do toHashStrict 32 (← index rlp 2))
    return { p with number, genesisHash, latestHash }

def decodePacket (p : SyncStatusPacket) (rlp : Bytes) : Except SyncError SyncStatusPacket := p.populate 3 rlp

def decodePacketWithAlignedTime (p : SyncStatusPacket) (rlp : Bytes) : Except SyncError SyncStatusPacket := do
  let p ← p.populate 4 rlp
  let alignedTime ← ofRLP (do toInt64 (← index rlp 3))
  return { p with alignedTime }

end SyncStatusPacket

/-! ### The other packets with numbers -/

/-- `SyncReqBlockPacket::encode`. -/
def encodeReqBlock (fromNumber : Int) (size : UInt32) : Except RLPError Bytes := do
  let s ← prep {} ReqBlocskPacket 2
  let s ← appendUnsigned s fromNumber
  out (← appendUnsigned s size.toNat)

/-- What `onPeerRequestBlocks` reads; nothing from a list that has not two items. -/
def onPeerRequestBlocks (rlp : Bytes) : Except RLPError (Option (Int × UInt32)) := do
  if (← itemCount rlp) ≠ 2 then return none
  else
    let fromNumber ← toInt64 (← index rlp 0)
    let size ← toInt 4 (← index rlp 1)
    return some (fromNumber, UInt32.ofNat size)

/-- `SyncTxsStatusPacket::encode`; the hashes of the set come in its order. -/
def encodeTxsStatus (number : Int) (txsHash : List H256) : Except RLPError Bytes := do
  let s ← prep {} TxsStatusPacket 2
  let s ← appendUnsigned s number
  out (← appendVector s txsHash)

/-- `SyncTransactionsPacket::encode`. -/
def encodeTransactions (version : Version) (txRLPs : List Bytes) (enableTreeRouter : Bool) (consIndex : Nat) :
    Except SyncError Bytes :=
  match version with
  | .RC2 => do
    let txsBytes ← (TxsParallelParser.encodeBytes txRLPs).mapError SyncError.parser
    ofRLP do
      let s ← appendBytes (← prep {} TransactionsPacket (if enableTreeRouter then 2 else 1)) txsBytes
      if enableTreeRouter then out (← appendUnsigned s consIndex) else out s
  | .RC1 => ofRLP do
      out (← appendRaw (← prep {} TransactionsPacket (txRLPs.length % 2 ^ 32)) txRLPs.flatten
        (txRLPs.length % 2 ^ 32))

/-- The consensus index that `DownloadingTxsQueue::push` reads. -/
def consIndexOf (rlp : Bytes) : Except RLPError Int := do
  toPositiveInt64 (← index rlp 1)

/-! ### A packet reaches its handler -/

def packetOf (id : UInt8) (its : Items) : Bytes := (id + c_syncPacketIDBase) :: listItem its.bytes

/-- The handler of type `id` gets `rlp` from what was sent. -/
def Received {ε : Type} (sent : Except ε Bytes) (id : UInt8) (rlp : Bytes) : Prop :=
  ∃ b, sent = .ok b ∧ decode b = .ok (some (id, rlp))

theorem packet_of_writers (id : UInt8) (ws : List Writer) (hall : ∀ w ∈ ws, Appends w.1 w.2) :
    (do let s ← prep {} id ws.length
        let s ← (ws.map Prod.fst).foldlM (fun s (f : RLPStream → Except RLPError RLPStream) => f s) s
        out s) = .ok ((id + c_syncPacketIDBase) :: listItem (ws.map Prod.snd).flatten) := by
  have hlist := (appends_list ws hall).run [id + c_syncPacketIDBase]
  have hraw : appendRaw {} [id + c_syncPacketIDBase] = .ok { mOut := [id + c_syncPacketIDBase] } := rfl
  rw [prep, hraw]
  change (do
    let s ← appendList { mOut := [id + c_syncPacketIDBase] } ws.length
    let s ← (ws.map Prod.fst).foldlM (fun s (f : RLPStream → Except RLPError RLPStream) => f s) s
    out s) = _
  rw [← bind_assoc, hlist]
  rfl

theorem appends_int {i : Int} (h : 0 ≤ i) : Appends (fun s => appendInt s i) (strItem (bigEndian i.toNat)) := by
  intro s
  simp only [appendInt, if_neg (Int.not_lt.mpr h)]
  exact appends_bigint i.toNat s

theorem strItem_of_lt {n : Nat} (hpos : 0 < n) (hlt : n < 0x80) : strItem (bigEndian n) = [UInt8.ofNat n] := by
  obtain ⟨hbytes, hlead⟩ := lead_bigEndian_of_lt hpos hlt
  rw [strItem, hbytes, if_pos]
  rw [lead_cons, hlead]
  exact ⟨rfl, hlt⟩

section Decode

variable {id : UInt8} {its : Items}

theorem decode_packetOf (hid : id.toNat < 0x7f) (hsize : SizeOk its.bytes.length) :
    decode (packetOf id its) = .ok (some (id, listItem its.bytes)) := by
  have hlist := listItem_isItem hsize
  have hactual := hlist.actualSize_eq []
  rw [List.append_nil] at hactual
  have hpos := List.length_pos_of_ne_nil hlist.ne_nil
  have hbyte : (id + c_syncPacketIDBase).toNat = id.toNat + 1 := by
    rw [UInt8.toNat_add]
    change (id.toNat + 1) % 2 ^ 8 = _
    omega
  have hcheck : checkPacket (packetOf id its) = .ok true := by
    rw [checkPacket, packetOf, List.length_cons, if_neg, List.drop_succ_cons, List.drop_zero, hlist.ofVeryStrict_eq]
    · change (do let size ← actualSize (listItem its.bytes); Except.ok (decide (size + 1 = _))) = _
      rw [hactual]
      change Except.ok (decide ((listItem its.bytes).length + 1 = _)) = _
      rw [decide_eq_true rfl]
    · rw [lead, List.headD_cons, hbyte]
      omega
  have hitem : [id + c_syncPacketIDBase] = strItem (bigEndian (id.toNat + 1)) := by
    rw [← hbyte, strItem_of_lt (by omega) (by omega), UInt8.ofNat_toNat]
  have hcrop : cropped (packetOf id its) 0 1 = [id + c_syncPacketIDBase] :=
    cropped_zero_append [id + c_syncPacketIDBase] (listItem its.bytes)
  have hone : SizeOk (bigEndian (id.toNat + 1)).length := by
    rw [length_bigEndian]
    have : bytesRequired (id.toNat + 1) ≤ 1 := bytesRequired_le_iff.mpr (by omega)
    unfold SizeOk sizeMax
    omega
  have hback : UInt8.ofNat (id.toNat + 1) - c_syncPacketIDBase = id := by
    rw [← hbyte, UInt8.ofNat_toNat, UInt8.add_sub_cancel]
  rw [decode, hcheck, hcrop, hitem, (strItem_isItem hone).ofVeryStrict_eq]
  change (do
    let id' ← toInt 4 (strItem (bigEndian (id.toNat + 1)))
    let rlp ← ofVeryStrict (listItem its.bytes)
    Except.ok (some (UInt8.ofNat id' - c_syncPacketIDBase, rlp))) = _
  rw [toInt_strItem (by decide) (by omega), hlist.ofVeryStrict_eq]
  change Except.ok (some (UInt8.ofNat (id.toNat + 1) - c_syncPacketIDBase, listItem its.bytes)) = _
  rw [hback]

/-- **The handler gets the fields that were sent.** -/
theorem received_iff {ε : Type} {sent : Except ε Bytes} (hsent : sent = .ok (packetOf id its)) (hid : id.toNat < 0x7f)
    (hsize : SizeOk its.bytes.length) {rlp : Bytes} : Received sent id rlp ↔ rlp = listItem its.bytes := by
  have hdecode := decode_packetOf hid hsize
  constructor
  · rintro ⟨b, hb, hrlp⟩
    rw [hsent] at hb
    cases hb
    rw [hdecode] at hrlp
    cases hrlp
    rfl
  · rintro rfl
    exact ⟨_, hsent, hdecode⟩

end Decode

/-! ### Reading the fields of a list -/

section Fields

variable {its : Items}

theorem itemCount_listItem (hsize : SizeOk its.bytes.length) (hall : ∀ it ∈ its, IsItem it.1 it.2) :
    itemCount (listItem its.bytes) = .ok its.length := by
  rw [itemCount, if_pos (isList_listItem hsize)]
  exact itemCountStrict_listItem hsize hall

theorem index_listItem (hsize : SizeOk its.bytes.length) (hall : ∀ it ∈ its, IsItem it.1 it.2) {i : Nat}
    {it : Bytes × Bytes} (hi : its[i]? = some it) : index (listItem its.bytes) i = .ok it.1 :=
  index_of_items (listItem_isItem hsize) hall hi

theorem strItems_isItem {ps : List Bytes} (hsize : SizeOk (strItems ps).bytes.length) :
    ∀ it ∈ strItems ps, IsItem it.1 it.2 := by
  intro it hit
  have hle := length_item_le_bytes hit
  rw [mem_strItems hit] at hle ⊢
  exact strItem_isItem (hsize.mono (Nat.le_trans (length_payload_le_strItem _) hle))

end Fields

theorem length_bigEndian_of_lt {n : Nat} (h : n < 2 ^ 64) : (bigEndian n).length ≤ 55 := by
  have : bytesRequired n ≤ 8 := bytesRequired_le_iff.mpr (by omega)
  rw [length_bigEndian]
  omega

theorem sizeOk_of_short {ps : List Bytes} (hshort : ∀ p ∈ ps, p.length ≤ 55) (hcount : ps.length ≤ 1000) :
    SizeOk (strItems ps).bytes.length := by
  have := length_bytes_strItems_le ps hshort
  unfold SizeOk sizeMax
  omega

theorem toHashStrict_strItem (h : H256) : toHashStrict 32 (strItem h.data) = .ok h := by
  have hsize : SizeOk h.data.length := by
    rw [h.length_data]
    unfold SizeOk sizeMax
    omega
  have hpayload := (strItem_isItem hsize).payload_eq []
  rw [List.append_nil] at hpayload
  have hgood := requireGood_strItem hsize
  have hdata := isData_strItem hsize
  have hlax : toHashLax 32 (strItem h.data) = .ok h := by
    have hcut : List.replicate (32 - h.data.length) 0 ++ h.data.take 32 = h.data := by
      rw [h.length_data, Nat.sub_self, List.replicate_zero, List.nil_append,
        List.take_of_length_le (Nat.le_of_eq h.length_data)]
    rw [toHashLax, hgood, hpayload]
    change (if isData (strItem h.data) = true then Except.ok _ else _) = _
    rw [if_pos hdata]
    cases h
    congr
  rw [toHashStrict, hgood, hpayload]
  change (if isData (strItem h.data) = true ∧ h.data.length ≤ 32 then _ else _) = _
  rw [if_pos ⟨hdata, Nat.le_of_eq h.length_data⟩, hlax]

/-! ### The status packets -/

namespace SyncStatusPacket

variable (p p₀ : SyncStatusPacket)

def payloads : List Bytes := [bigEndian p.number.toNat, p.genesisHash.data, p.latestHash.data]

structure InRange : Prop where
  number_nonneg : 0 ≤ p.number
  number_lt : p.number < 2 ^ 63
  alignedTime_nonneg : 0 ≤ p.alignedTime
  alignedTime_lt : p.alignedTime < 2 ^ 63

theorem encode_eq (h : 0 ≤ p.number) : p.encode = .ok (packetOf StatusPacket (strItems p.payloads)) := by
  have hwrite := packet_of_writers StatusPacket
    [(fun s => appendInt s p.number, strItem (bigEndian p.number.toNat)),
      (fun s => appendHash s p.genesisHash, strItem p.genesisHash.data),
      (fun s => appendHash s p.latestHash, strItem p.latestHash.data)] (by
    intro w hw
    simp only [List.mem_cons, List.not_mem_nil, or_false] at hw
    rcases hw with rfl | rfl | rfl
    · exact appends_int h
    · exact appends_hash _
    · exact appends_hash _)
  simp only [List.length_cons, List.length_nil, List.map_cons, List.map_nil, List.foldlM_cons, List.foldlM_nil,
    bind_pure, bind_assoc] at hwrite
  simp only [encode, stream, bind_assoc]
  exact hwrite

theorem encodeWithAlignedTime_eq (h : p.InRange) :
    p.encodeWithAlignedTime
      = .ok (packetOf StatusPacket (strItems (p.payloads ++ [bigEndian p.alignedTime.toNat]))) := by
  have hwrite := packet_of_writers StatusPacket
    [(fun s => appendInt s p.number, strItem (bigEndian p.number.toNat)),
      (fun s => appendHash s p.genesisHash, strItem p.genesisHash.data),
      (fun s => appendHash s p.latestHash, strItem p.latestHash.data),
      (fun s => appendInt s p.alignedTime, strItem (bigEndian p.alignedTime.toNat))] (by
    intro w hw
    simp only [List.mem_cons, List.not_mem_nil, or_false] at hw
    rcases hw with rfl | rfl | rfl | rfl
    · exact appends_int h.number_nonneg
    · exact appends_hash _
    · exact appends_hash _
    · exact appends_int h.alignedTime_nonneg)
  simp only [List.length_cons, List.length_nil, List.map_cons, List.map_nil, List.foldlM_cons, List.foldlM_nil,
    bind_pure, bind_assoc] at hwrite
  simp only [encodeWithAlignedTime, stream, bind_assoc]
  exact hwrite

variable {p}

theorem payloads_short (h : p.InRange) : ∀ q ∈ p.payloads, q.length ≤ 55 := by
  intro q hq
  have hlt := h.number_lt
  have hnumber : (bigEndian p.number.toNat).length ≤ 55 := length_bigEndian_of_lt (by omega)
  simp only [payloads, List.mem_cons, List.not_mem_nil, or_false] at hq
  rcases hq with rfl | rfl | rfl
  · exact hnumber
  · rw [FixedHash.length_data]
    decide
  · rw [FixedHash.length_data]
    decide

theorem toInt64_of_range {v : Int} (hnonneg : 0 ≤ v) (hlt : v < 2 ^ 63) :
    toInt64 (strItem (bigEndian v.toNat)) = .ok v := by
  rw [toInt64_strItem (by omega), Int.toNat_of_nonneg hnonneg]

/-- **Reading the leading fields gives them back.** -/
theorem populate_eq (h : p.InRange) (ps : List Bytes) (hshort : ∀ q ∈ ps, q.length ≤ 55) (mItemCount : Nat)
    (hlen : (p.payloads ++ ps).length = mItemCount) (hcount : mItemCount ≤ 1000) :
    p₀.populate mItemCount (listItem (strItems (p.payloads ++ ps)).bytes)
      = .ok { p₀ with number := p.number, genesisHash := p.genesisHash, latestHash := p.latestHash } := by
  have hsize : SizeOk (strItems (p.payloads ++ ps)).bytes.length := by
    refine sizeOk_of_short (fun q hq => ?_) (hlen ▸ hcount)
    rcases List.mem_append.mp hq with hq | hq
    · exact payloads_short h q hq
    · exact hshort q hq
  have hall := strItems_isItem hsize
  have hitems : itemCount (listItem (strItems (p.payloads ++ ps)).bytes) = .ok mItemCount := by
    rw [itemCount_listItem hsize hall, strItems, List.length_map, hlen]
  rw [populate, hitems]
  change (if mItemCount ≠ mItemCount then _ else _) = _
  rw [if_neg (fun hne => hne rfl), index_listItem (i := 0) hsize hall rfl, index_listItem (i := 1) hsize hall rfl,
    index_listItem (i := 2) hsize hall rfl]
  change (do
    let number ← ofRLP (toInt64 (strItem (bigEndian p.number.toNat)))
    let genesisHash ← ofRLP (toHashStrict 32 (strItem p.genesisHash.data))
    let latestHash ← ofRLP (toHashStrict 32 (strItem p.latestHash.data))
    Except.ok { p₀ with number, genesisHash, latestHash }) = _
  rw [toInt64_of_range h.number_nonneg h.number_lt, toHashStrict_strItem, toHashStrict_strItem]
  rfl

def Survives (p p₀ : SyncStatusPacket) : Prop :=
  ∃ rlp p', Received p.encode StatusPacket rlp ∧ p₀.decodePacket rlp = .ok p' ∧ p'.number = p.number

def SurvivesWithAlignedTime (p p₀ : SyncStatusPacket) : Prop :=
  ∃ rlp p', Received p.encodeWithAlignedTime StatusPacket rlp ∧ p₀.decodePacketWithAlignedTime rlp = .ok p'
    ∧ p'.number = p.number ∧ p'.alignedTime = p.alignedTime

theorem survives (h : p.InRange) : p.Survives p₀ := by
  have hsize := sizeOk_of_short (payloads_short h) (by simp [payloads])
  have hread := populate_eq p₀ h [] (fun q hq => by cases hq) 3 rfl (by decide)
  rw [List.append_nil] at hread
  exact ⟨_, _, (received_iff (p.encode_eq h.number_nonneg) (by decide) hsize).mpr rfl, hread, rfl⟩

theorem survivesWithAlignedTime (h : p.InRange) : p.SurvivesWithAlignedTime p₀ := by
  have hlt := h.alignedTime_lt
  have htime : ∀ q ∈ [bigEndian p.alignedTime.toNat], q.length ≤ 55 := by
    intro q hq
    rw [List.mem_singleton.mp hq]
    exact length_bigEndian_of_lt (by omega)
  have hsize : SizeOk (strItems (p.payloads ++ [bigEndian p.alignedTime.toNat])).bytes.length := by
    refine sizeOk_of_short (fun q hq => ?_) (by simp [payloads])
    rcases List.mem_append.mp hq with hq | hq
    · exact payloads_short h q hq
    · exact htime q hq
  have hread := populate_eq p₀ h [bigEndian p.alignedTime.toNat] htime 4 rfl (by decide)
  have hfield := index_listItem (i := 3) hsize (strItems_isItem hsize) rfl
  refine ⟨_, { p₀ with number := p.number, genesisHash := p.genesisHash, latestHash := p.latestHash,
                       alignedTime := p.alignedTime },
    (received_iff (p.encodeWithAlignedTime_eq h) (by decide) hsize).mpr rfl, ?_, rfl, rfl⟩
  rw [decodePacketWithAlignedTime, hread, hfield]
  change (do
    let alignedTime ← ofRLP (toInt64 (strItem (bigEndian p.alignedTime.toNat)))
    Except.ok _) = _
  rw [toInt64_of_range h.alignedTime_nonneg h.alignedTime_lt]
  rfl

end SyncStatusPacket

/-! ### The packets of `append(unsigned)` -/

open SyncStatusPacket (toInt64_of_range)

theorem toInt64_low32 (v : Int) : toInt64 (strItem (bigEndian (low32 v))) = .ok (low32 v : Int) := by
  have := low32_lt v
  exact toInt64_strItem (by omega)

def ReqBlockSurvives (fromNumber : Int) (size : UInt32) : Prop :=
  ∃ rlp, Received (encodeReqBlock fromNumber size) ReqBlocskPacket rlp
    ∧ onPeerRequestBlocks rlp = .ok (some (fromNumber, size))

theorem encodeReqBlock_eq (fromNumber : Int) (size : UInt32) :
    encodeReqBlock fromNumber size
      = .ok (packetOf ReqBlocskPacket (strItems [bigEndian (low32 fromNumber), bigEndian (low32 size.toNat)])) := by
  have hwrite := packet_of_writers ReqBlocskPacket
    [(fun s => appendUnsigned s fromNumber, strItem (bigEndian (low32 fromNumber))),
      (fun s => appendUnsigned s size.toNat, strItem (bigEndian (low32 size.toNat)))] (by
    intro w hw
    simp only [List.mem_cons, List.not_mem_nil, or_false] at hw
    rcases hw with rfl | rfl
    · exact appends_unsigned _
    · exact appends_unsigned _)
  simp only [List.length_cons, List.length_nil, List.map_cons, List.map_nil, List.foldlM_cons, List.foldlM_nil,
    bind_pure, bind_assoc] at hwrite
  exact hwrite

/-- **A request comes back exactly when it starts below 2^32.** -/
theorem reqBlockSurvives_iff {fromNumber : Int} (hnonneg : 0 ≤ fromNumber) (size : UInt32) :
    ReqBlockSurvives fromNumber size ↔ fromNumber < 2 ^ 32 := by
  have hshort : ∀ q ∈ [bigEndian (low32 fromNumber), bigEndian (low32 size.toNat)], q.length ≤ 55 := by
    intro q hq
    simp only [List.mem_cons, List.not_mem_nil, or_false] at hq
    rcases hq with rfl | rfl
    · exact length_bigEndian_low32 _
    · exact length_bigEndian_low32 _
  have hsize := sizeOk_of_short hshort (by simp)
  have hall := strItems_isItem hsize
  have hrecv := fun (rlp : Bytes) => @received_iff _ _ _ _ (encodeReqBlock_eq fromNumber size) (by decide) hsize rlp
  have hlow : low32 size.toNat = size.toNat := by
    have := size.toNat_lt
    unfold low32
    omega
  have hread : onPeerRequestBlocks
        (listItem (strItems [bigEndian (low32 fromNumber), bigEndian (low32 size.toNat)]).bytes)
      = .ok (some (low32 fromNumber, size)) := by
    rw [onPeerRequestBlocks, itemCount_listItem hsize hall, index_listItem (i := 0) hsize hall rfl,
      index_listItem (i := 1) hsize hall rfl]
    change (do
      let fromNumber ← toInt64 (strItem (bigEndian (low32 fromNumber)))
      let size ← toInt 4 (strItem (bigEndian (low32 size.toNat)))
      Except.ok (some (fromNumber, UInt32.ofNat size))) = _
    have hlt := low32_lt size.toNat
    rw [toInt64_low32, toInt_strItem (by decide) (by omega), hlow]
    change Except.ok (some ((low32 fromNumber : Int), UInt32.ofNat size.toNat)) = _
    rw [UInt32.ofNat_toNat]
  rw [← low32_eq_iff hnonneg]
  constructor
  · rintro ⟨rlp, hrlp, hback⟩
    rw [(hrecv rlp).mp hrlp, hread] at hback
    injection hback with hback
    injection hback with hback
    exact (Prod.mk.inj hback).1
  · intro h
    refine ⟨_, (hrecv _).mpr rfl, ?_⟩
    rw [hread, h]

/-- The bytes that are sent fit a `std::vector<byte>`. -/
def FitsVector {ε : Type} (sent : Except ε Bytes) : Prop := ∀ b, sent = .ok b → b.length ≤ vectorMaxSize

theorem sizeOk_of_fitsVector {ε : Type} {sent : Except ε Bytes} {id : UInt8} {its : Items}
    (hsent : sent = .ok (packetOf id its)) (hfit : FitsVector sent) : SizeOk its.bytes.length := by
  have hle := hfit _ hsent
  have hlist := PBFT.length_payload_le_listItem its.bytes
  rw [packetOf, List.length_cons] at hle
  unfold vectorMaxSize at hle
  unfold SizeOk sizeMax
  omega

/-- No handler reads the number of this packet; it is read as that of the status packet is. -/
def txsStatusNumber (rlp : Bytes) : Except RLPError Int := do
  toInt64 (← index rlp 0)

def TxsStatusSurvives (number : Int) (txsHash : List H256) : Prop :=
  ∃ rlp, Received (encodeTxsStatus number txsHash) TxsStatusPacket rlp ∧ txsStatusNumber rlp = .ok number

def txsStatusItems (number : Int) (txsHash : List H256) : Items :=
  [(strItem (bigEndian (low32 number)), bigEndian (low32 number)),
    (listItem (txsHash.map fun x => strItem x.data).flatten, (txsHash.map fun x => strItem x.data).flatten)]

theorem encodeTxsStatus_eq (number : Int) (txsHash : List H256) :
    encodeTxsStatus number txsHash = .ok (packetOf TxsStatusPacket (txsStatusItems number txsHash)) := by
  have hwrite := packet_of_writers TxsStatusPacket
    [(fun s => appendUnsigned s number, strItem (bigEndian (low32 number))),
      (fun s => appendVector s txsHash, listItem (txsHash.map fun x => strItem x.data).flatten)] (by
    intro w hw
    simp only [List.mem_cons, List.not_mem_nil, or_false] at hw
    rcases hw with rfl | rfl
    · exact appends_unsigned _
    · exact appends_vector _)
  simp only [List.length_cons, List.length_nil, List.map_cons, List.map_nil, List.foldlM_cons, List.foldlM_nil,
    bind_pure, bind_assoc] at hwrite
  exact hwrite

/-- **The number comes back exactly when it is below 2^32.** -/
theorem txsStatusSurvives_iff {number : Int} (hnonneg : 0 ≤ number) (txsHash : List H256)
    (hfit : FitsVector (encodeTxsStatus number txsHash)) : TxsStatusSurvives number txsHash ↔ number < 2 ^ 32 := by
  have hsent := encodeTxsStatus_eq number txsHash
  have hsize := sizeOk_of_fitsVector hsent hfit
  have hall : ∀ it ∈ txsStatusItems number txsHash, IsItem it.1 it.2 := by
    intro it hit
    have hle := length_item_le_bytes hit
    simp only [txsStatusItems, List.mem_cons, List.not_mem_nil, or_false] at hit
    rcases hit with rfl | rfl
    · exact strItem_isItem (hsize.mono (Nat.le_trans (length_payload_le_strItem _) hle))
    · exact listItem_isItem (hsize.mono (Nat.le_trans (PBFT.length_payload_le_listItem _) hle))
  have hrecv := fun (rlp : Bytes) => @received_iff _ _ _ _ hsent (by decide) hsize rlp
  have hread : txsStatusNumber (listItem (txsStatusItems number txsHash).bytes) = .ok (low32 number : Int) := by
    rw [txsStatusNumber, index_listItem (i := 0) hsize hall rfl]
    exact toInt64_low32 number
  rw [← low32_eq_iff hnonneg]
  constructor
  · rintro ⟨rlp, hrlp, hback⟩
    rw [(hrecv rlp).mp hrlp, hread] at hback
    exact Except.ok.inj hback
  · intro h
    exact ⟨_, (hrecv _).mpr rfl, hread.trans (congrArg Except.ok h)⟩

def TransactionsSurvive (txRLPs : List Bytes) (consIndex : Nat) : Prop :=
  ∃ rlp, Received (encodeTransactions .RC2 txRLPs true consIndex) TransactionsPacket rlp
    ∧ consIndexOf rlp = .ok (consIndex : Int)

theorem encodeTransactions_eq {txRLPs : List Bytes} {txsBytes : Bytes}
    (hbytes : TxsParallelParser.encodeBytes txRLPs = .ok txsBytes) (consIndex : Nat) :
    encodeTransactions .RC2 txRLPs true consIndex
      = .ok (packetOf TransactionsPacket (strItems [txsBytes, bigEndian (low32 consIndex)])) := by
  have hwrite := packet_of_writers TransactionsPacket
    [(fun s => appendBytes s txsBytes, strItem txsBytes),
      (fun s => appendUnsigned s consIndex, strItem (bigEndian (low32 consIndex)))] (by
    intro w hw
    simp only [List.mem_cons, List.not_mem_nil, or_false] at hw
    rcases hw with rfl | rfl
    · exact appends_bytes _
    · exact appends_unsigned _)
  simp only [List.length_cons, List.length_nil, List.map_cons, List.map_nil, List.foldlM_cons, List.foldlM_nil,
    bind_pure, bind_assoc] at hwrite
  simp only [encodeTransactions, hbytes]
  exact congrArg ofRLP hwrite

theorem encodeBytes_iff (txRLPs : List Bytes) :
    (∃ txsBytes, TxsParallelParser.encodeBytes txRLPs = .ok txsBytes) ↔ UInt32.ofNat txRLPs.length + 1 ≠ 0 := by
  rw [TxsParallelParser.encodeBytes]
  dsimp only
  by_cases hzero : UInt32.ofNat txRLPs.length = 0
  · rw [if_pos hzero, hzero]
    exact ⟨fun _ => by decide, fun _ => ⟨_, rfl⟩⟩
  · rw [if_neg hzero]
    by_cases hwrap : UInt32.ofNat txRLPs.length + 1 = 0
    · rw [if_pos hwrap]
      constructor
      · rintro ⟨_, h⟩
        cases h
      · intro h
        exact absurd hwrap h
    · rw [if_neg hwrap]
      exact ⟨fun _ => hwrap, fun _ => ⟨_, rfl⟩⟩

/-- **The consensus index comes back exactly when it is below 2^32**, unless the
    transactions cannot be encoded. -/
theorem transactionsSurvive_iff (txRLPs : List Bytes) (consIndex : Nat)
    (hfit : FitsVector (encodeTransactions .RC2 txRLPs true consIndex)) :
    TransactionsSurvive txRLPs consIndex ↔ consIndex < 2 ^ 32 ∧ UInt32.ofNat txRLPs.length + 1 ≠ 0 := by
  rw [← encodeBytes_iff]
  cases hbytes : TxsParallelParser.encodeBytes txRLPs with
  | error e =>
    constructor
    · rintro ⟨rlp, ⟨b, hb, -⟩, -⟩
      simp only [encodeTransactions, hbytes] at hb
      cases hb
    · rintro ⟨-, txsBytes, h⟩
      cases h
  | ok txsBytes =>
    have hsent := encodeTransactions_eq hbytes consIndex
    have hsize := sizeOk_of_fitsVector hsent hfit
    have hrecv := fun (rlp : Bytes) => @received_iff _ _ _ _ hsent (by decide) hsize rlp
    have hread : consIndexOf (listItem (strItems [txsBytes, bigEndian (low32 consIndex)]).bytes)
        = .ok (low32 consIndex : Int) := by
      rw [consIndexOf, index_listItem (i := 1) hsize (strItems_isItem hsize) rfl]
      change toPositiveInt64 (strItem (bigEndian (low32 consIndex))) = _
      rw [toPositiveInt64, toInt64_low32]
      change (if (low32 consIndex : Int) < 0 then Except.error RLPError.badCast
        else Except.ok (low32 consIndex : Int)) = _
      rw [if_neg (Int.not_lt.mpr (Int.natCast_nonneg _))]
    have hlow := low32_eq_iff (Int.natCast_nonneg consIndex)
    constructor
    · rintro ⟨rlp, hrlp, hback⟩
      rw [(hrecv rlp).mp hrlp, hread] at hback
      have := hlow.mp (Except.ok.inj hback)
      exact ⟨by omega, _, rfl⟩
    · rintro ⟨hlt, -⟩
      exact ⟨_, (hrecv _).mpr rfl, hread.trans (congrArg Except.ok (hlow.mpr (by omega)))⟩

end HieraChain.Sync
