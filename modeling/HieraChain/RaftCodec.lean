/-
  HieraChain/RaftCodec.lean
  =========================
  **The wire format of the Raft messages** (`libconsensus/raft/Common.h`,
  `RaftEngine::transDataToMessage`).

  A message streams its fields with `<<`, so every number goes through
  `append(unsigned)`.  The fields are the only item of a list, which is the data
  of a `RaftMsgPacket`; the receiver takes that item out (`arrives_iff`) and
  indexes inside it.  What comes back is the message with its 64-bit numbers cut
  to 32 bits.
-/
import HieraChain.SyncMsgPacket

namespace HieraChain.Raft

open HieraChain.BigEndian HieraChain.RLP
open HieraChain.PBFT (H256 strItems low32 low32_lt low32_eq_iff index_strItems sizeOk_of_mem_strItems envelope
  envelope_eq openEnvelope openEnvelope_eq length_payload_le_strItem length_payload_le_listItem
  length_bigEndian_low32 vectorMaxSize strItems_cons strItems_nil)
open HieraChain.Sync (FitsVector toHashStrict toHashStrict_strItem toInt64_low32 strItem_of_lt)

/-! ### The messages -/

def RaftVoteReqPacket : UInt8 := 0x00
def RaftVoteRespPacket : UInt8 := 0x01
def RaftHeartBeatPacket : UInt8 := 0x02
def RaftHeartBeatRespPacket : UInt8 := 0x03

structure RaftMsg where
  idx : Nat
  term : Nat
  height : Int
  blockHash : H256

structure RaftVoteReq extends RaftMsg where
  candidate : Nat
  lastLeaderTerm : Nat
  lastBlockNumber : Int

structure RaftVoteResp extends RaftMsg where
  voteFlag : UInt8
  lastLeaderTerm : Nat

structure RaftHeartBeat extends RaftMsg where
  leader : Nat
  uncommitedBlock : Bytes
  uncommitedBlockNumber : Int

structure RaftHeartBeatResp extends RaftMsg where
  uncommitedBlockHash : H256

def RaftMsg.streamRLPFields (m : RaftMsg) (s : RLPStream) : Except RLPError RLPStream := do
  let s ← appendUnsigned s m.idx
  let s ← appendUnsigned s m.term
  let s ← appendUnsigned s m.height
  appendHash s m.blockHash

def RaftMsg.populate (m : RaftMsg) (rlp : Bytes) : Except RLPError RaftMsg := do
  let idx ← toInt 2 (← index rlp 0)
  let term ← toInt 8 (← index rlp 1)
  let height ← toInt64 (← index rlp 2)
  let blockHash ← toHash 32 (← index rlp 3)
  return { m with idx, term, height, blockHash }

def RaftVoteReq.streamRLPFields (m : RaftVoteReq) (s : RLPStream) : Except RLPError RLPStream := do
  let s ← m.toRaftMsg.streamRLPFields s
  let s ← appendUnsigned s m.candidate
  let s ← appendUnsigned s m.lastLeaderTerm
  appendUnsigned s m.lastBlockNumber

def RaftVoteReq.populate (m : RaftVoteReq) (rlp : Bytes) : Except RLPError RaftVoteReq := do
  let base ← m.toRaftMsg.populate rlp
  let candidate ← toInt 2 (← index rlp 4)
  let lastLeaderTerm ← toInt 8 (← index rlp 5)
  let lastBlockNumber ← toInt64 (← index rlp 6)
  return { toRaftMsg := base, candidate, lastLeaderTerm, lastBlockNumber }

def RaftVoteResp.streamRLPFields (m : RaftVoteResp) (s : RLPStream) : Except RLPError RLPStream := do
  let s ← m.toRaftMsg.streamRLPFields s
  let s ← appendUnsigned s m.voteFlag.toNat
  appendUnsigned s m.lastLeaderTerm

def RaftVoteResp.populate (m : RaftVoteResp) (rlp : Bytes) : Except RLPError RaftVoteResp := do
  let base ← m.toRaftMsg.populate rlp
  let voteFlag ← toInt 1 (← index rlp 4)
  let lastLeaderTerm ← toInt 8 (← index rlp 5)
  return { toRaftMsg := base, voteFlag := UInt8.ofNat voteFlag, lastLeaderTerm }

def RaftHeartBeat.streamRLPFields (m : RaftHeartBeat) (s : RLPStream) : Except RLPError RLPStream := do
  let s ← m.toRaftMsg.streamRLPFields s
  let s ← appendUnsigned s m.leader
  let s ← appendBytes s m.uncommitedBlock
  appendUnsigned s m.uncommitedBlockNumber

def RaftHeartBeat.populate (m : RaftHeartBeat) (rlp : Bytes) : Except RLPError RaftHeartBeat := do
  let base ← m.toRaftMsg.populate rlp
  let leader ← toInt 2 (← index rlp 4)
  let uncommitedBlock ← toBytes (← index rlp 5)
  let uncommitedBlockNumber ← toInt64 (← index rlp 6)
  return { toRaftMsg := base, leader, uncommitedBlock, uncommitedBlockNumber }

def RaftHeartBeatResp.streamRLPFields (m : RaftHeartBeatResp) (s : RLPStream) : Except RLPError RLPStream := do
  appendHash (← m.toRaftMsg.streamRLPFields s) m.uncommitedBlockHash

def RaftHeartBeatResp.populate (m : RaftHeartBeatResp) (rlp : Bytes) : Except RLPError RaftHeartBeatResp := do
  let base ← m.toRaftMsg.populate rlp
  let uncommitedBlockHash ← toHashStrict 32 (← index rlp 4)
  return { toRaftMsg := base, uncommitedBlockHash }

/-! ### The packet around a message -/

structure RaftMsgPacket where
  packetType : UInt8
  data : Bytes

def RaftMsgPacket.encode (p : RaftMsgPacket) : Except RLPError Bytes := do
  let s ← appendUnsigned {} p.packetType.toNat
  out (← appendBytes s p.data)

/-- `populate`: the first byte, and the item behind it. -/
def RaftMsgPacket.decode (reqData : Bytes) : Except RLPError RaftMsgPacket := do
  let packetType ← toInt 4 (← ofVeryStrict (cropped reqData 0 1))
  let data ← toBytes (← ofVeryStrict (reqData.drop 1))
  return { packetType := UInt8.ofNat packetType, data }

def transDataToMessage (stream : RLPStream → Except RLPError RLPStream) (packetType : UInt8) :
    Except RLPError Bytes := do
  let data ← envelope (← stream {})
  RaftMsgPacket.encode { packetType, data }

/-- The receiver gets a packet of this type, and `rlp` is what it populates its message from. -/
def Arrives (sent : Except RLPError Bytes) (packetType : UInt8) (rlp : Bytes) : Prop :=
  ∃ b p, sent = .ok b ∧ RaftMsgPacket.decode b = .ok p ∧ p.packetType = packetType ∧ openEnvelope p.data = .ok rlp

section Packet

variable {stream : RLPStream → Except RLPError RLPStream} {ps : List Bytes} {packetType : UInt8}

theorem transDataToMessage_eq (hstream : stream {} = .ok { mOut := (strItems ps).bytes }) :
    transDataToMessage stream packetType
      = .ok (strItem (bigEndian (low32 packetType.toNat))
          ++ strItem (listItem (strItem (strItems ps).bytes))) := by
  rw [transDataToMessage, hstream]
  change (do
    let data ← envelope { mOut := (strItems ps).bytes }
    RaftMsgPacket.encode { packetType, data }) = _
  rw [envelope_eq]
  change (do
    let s ← appendUnsigned {} packetType.toNat
    out (← appendBytes s (listItem (strItem (strItems ps).bytes)))) = _
  rw [appendUnsigned_nil]
  change (do out (← appendBytes { mOut := [] ++ strItem (bigEndian (low32 packetType.toNat)) } _)) = _
  rw [appendBytes_nil]
  rfl

theorem length_typeItem (htype : packetType.toNat < 0x80) :
    (strItem (bigEndian packetType.toNat)).length = 1 := by
  by_cases hzero : packetType.toNat = 0
  · rw [hzero]
    rfl
  · rw [strItem_of_lt (Nat.pos_of_ne_zero hzero) htype]
    rfl

theorem sizeOk_of_sent (hstream : stream {} = .ok { mOut := (strItems ps).bytes })
    (hfit : FitsVector (transDataToMessage stream packetType)) :
    SizeOk (strItem (listItem (strItem (strItems ps).bytes))).length := by
  have hle := hfit _ (transDataToMessage_eq hstream)
  rw [List.length_append] at hle
  unfold vectorMaxSize at hle
  unfold SizeOk sizeMax
  omega

/-- **The receiver populates its message from the fields that were sent.** -/
theorem arrives_iff (hstream : stream {} = .ok { mOut := (strItems ps).bytes }) (htype : packetType.toNat < 0x80)
    (hsize : SizeOk (strItem (listItem (strItem (strItems ps).bytes))).length) {rlp : Bytes} :
    Arrives (transDataToMessage stream packetType) packetType rlp ↔ rlp = strItem (strItems ps).bytes := by
  have hsent := @transDataToMessage_eq _ _ packetType hstream
  have hdata : SizeOk (listItem (strItem (strItems ps).bytes)).length := hsize.mono (length_payload_le_strItem _)
  have hlow : low32 packetType.toNat = packetType.toNat := by
    unfold low32
    omega
  rw [hlow] at hsent
  have hone := length_typeItem htype
  have htypeSize : SizeOk (bigEndian packetType.toNat).length := by
    have := length_payload_le_strItem (bigEndian packetType.toNat)
    unfold SizeOk sizeMax
    omega
  have hcrop : cropped (strItem (bigEndian packetType.toNat) ++ strItem (listItem (strItem (strItems ps).bytes))) 0 1
      = strItem (bigEndian packetType.toNat) := by
    rw [← hone]
    exact cropped_zero_append _ _
  have hdrop : (strItem (bigEndian packetType.toNat) ++ strItem (listItem (strItem (strItems ps).bytes))).drop 1
      = strItem (listItem (strItem (strItems ps).bytes)) := by
    rw [← hone, List.drop_left]
  have hdecode : RaftMsgPacket.decode
        (strItem (bigEndian packetType.toNat) ++ strItem (listItem (strItem (strItems ps).bytes)))
      = .ok { packetType, data := listItem (strItem (strItems ps).bytes) } := by
    rw [RaftMsgPacket.decode, hcrop, hdrop, (strItem_isItem htypeSize).ofVeryStrict_eq,
      (strItem_isItem hdata).ofVeryStrict_eq]
    change (do
      let n ← toInt 4 (strItem (bigEndian packetType.toNat))
      let data ← toBytes (strItem (listItem (strItem (strItems ps).bytes)))
      Except.ok (RaftMsgPacket.mk (UInt8.ofNat n) data)) = _
    rw [toInt_strItem (by decide) (by omega), toBytes_strItem hdata]
    change Except.ok (RaftMsgPacket.mk (UInt8.ofNat packetType.toNat) _) = _
    rw [UInt8.ofNat_toNat]
  have hopen := openEnvelope_eq hdata
  constructor
  · rintro ⟨b, p, hb, hp, -, hrlp⟩
    rw [hsent] at hb
    cases hb
    rw [hdecode] at hp
    cases hp
    rw [hopen] at hrlp
    exact (Except.ok.inj hrlp).symm
  · rintro rfl
    exact ⟨_, _, hsent, hdecode, rfl, hopen⟩

end Packet

/-! ### Reading the fields -/

def RaftMsg.payloads (m : RaftMsg) : List Bytes :=
  [bigEndian (low32 m.idx), bigEndian (low32 m.term), bigEndian (low32 m.height), m.blockHash.data]

def RaftVoteReq.payloads (m : RaftVoteReq) : List Bytes :=
  m.toRaftMsg.payloads
    ++ [bigEndian (low32 m.candidate), bigEndian (low32 m.lastLeaderTerm), bigEndian (low32 m.lastBlockNumber)]

def RaftVoteResp.payloads (m : RaftVoteResp) : List Bytes :=
  m.toRaftMsg.payloads ++ [bigEndian (low32 m.voteFlag.toNat), bigEndian (low32 m.lastLeaderTerm)]

def RaftHeartBeat.payloads (m : RaftHeartBeat) : List Bytes :=
  m.toRaftMsg.payloads
    ++ [bigEndian (low32 m.leader), m.uncommitedBlock, bigEndian (low32 m.uncommitedBlockNumber)]

def RaftHeartBeatResp.payloads (m : RaftHeartBeatResp) : List Bytes :=
  m.toRaftMsg.payloads ++ [m.uncommitedBlockHash.data]

structure RaftMsg.InRange (m : RaftMsg) : Prop where
  idx_lt : m.idx < 2 ^ 16
  term_lt : m.term < 2 ^ 63
  height_nonneg : 0 ≤ m.height
  height_lt : m.height < 2 ^ 63

theorem RaftMsg.streamRLPFields_eq (m : RaftMsg) (o : Bytes) :
    m.streamRLPFields { mOut := o } = .ok { mOut := o ++ (strItems m.payloads).bytes } := by
  simp only [RaftMsg.streamRLPFields, appendUnsigned_nil, appendHash_nil, bind, Except.bind, RaftMsg.payloads,
    strItems_cons, strItems_nil, Items.bytes_cons, Items.bytes_nil, List.append_nil, List.append_assoc]
  rfl

theorem RaftVoteReq.streamRLPFields_eq (m : RaftVoteReq) :
    m.streamRLPFields {} = .ok { mOut := (strItems m.payloads).bytes } := by
  rw [RaftVoteReq.streamRLPFields, m.toRaftMsg.streamRLPFields_eq []]
  simp only [appendUnsigned_nil, bind, Except.bind, RaftVoteReq.payloads, RaftMsg.payloads, List.cons_append,
    strItems_cons, strItems_nil, Items.bytes_cons, Items.bytes_nil, List.append_nil, List.nil_append,
    List.append_assoc]
  rfl

theorem RaftVoteResp.streamRLPFields_eq (m : RaftVoteResp) :
    m.streamRLPFields {} = .ok { mOut := (strItems m.payloads).bytes } := by
  rw [RaftVoteResp.streamRLPFields, m.toRaftMsg.streamRLPFields_eq []]
  simp only [appendUnsigned_nil, bind, Except.bind, RaftVoteResp.payloads, RaftMsg.payloads, List.cons_append,
    strItems_cons, strItems_nil, Items.bytes_cons, Items.bytes_nil, List.append_nil, List.nil_append,
    List.append_assoc]
  rfl

theorem RaftHeartBeat.streamRLPFields_eq (m : RaftHeartBeat) :
    m.streamRLPFields {} = .ok { mOut := (strItems m.payloads).bytes } := by
  rw [RaftHeartBeat.streamRLPFields, m.toRaftMsg.streamRLPFields_eq []]
  simp only [appendUnsigned_nil, appendBytes_nil, bind, Except.bind, RaftHeartBeat.payloads, RaftMsg.payloads,
    List.cons_append, strItems_cons, strItems_nil, Items.bytes_cons, Items.bytes_nil, List.append_nil,
    List.nil_append, List.append_assoc]
  rfl

theorem RaftHeartBeatResp.streamRLPFields_eq (m : RaftHeartBeatResp) :
    m.streamRLPFields {} = .ok { mOut := (strItems m.payloads).bytes } := by
  rw [RaftHeartBeatResp.streamRLPFields, m.toRaftMsg.streamRLPFields_eq []]
  simp only [appendHash_nil, bind, Except.bind, RaftHeartBeatResp.payloads, RaftMsg.payloads, List.cons_append,
    strItems_cons, strItems_nil, Items.bytes_cons, Items.bytes_nil, List.append_nil, List.nil_append,
    List.append_assoc]

theorem toInt8_low32 (v : Int) : toInt 8 (strItem (bigEndian (low32 v))) = .ok (low32 v) := by
  have := low32_lt v
  exact toInt_strItem (by decide) (by omega)

theorem toInt2_low32 {n : Nat} (h : n < 2 ^ 16) : toInt 2 (strItem (bigEndian (low32 n))) = .ok n := by
  have hlow : low32 n = n := by
    unfold low32
    omega
  rw [hlow]
  exact toInt_strItem (by decide) (by omega)

/-- **The leading fields come back with their numbers cut to 32 bits.** -/
theorem RaftMsg.populate_eq {m : RaftMsg} (m₀ : RaftMsg) (hm : m.InRange) (more : List Bytes)
    (hsize : SizeOk (strItems (m.payloads ++ more)).bytes.length) :
    m₀.populate (strItem (strItems (m.payloads ++ more)).bytes)
      = .ok { m with term := low32 m.term, height := low32 m.height } := by
  rw [RaftMsg.populate, index_strItems (i := 0) hsize rfl, index_strItems (i := 1) hsize rfl,
    index_strItems (i := 2) hsize rfl, index_strItems (i := 3) hsize rfl]
  change (do
    let idx ← toInt 2 (strItem (bigEndian (low32 m.idx)))
    let term ← toInt 8 (strItem (bigEndian (low32 m.term)))
    let height ← toInt64 (strItem (bigEndian (low32 m.height)))
    let blockHash ← toHash 32 (strItem m.blockHash.data)
    Except.ok { m₀ with idx, term, height, blockHash }) = _
  rw [toInt2_low32 hm.idx_lt, toInt8_low32, toInt64_low32,
    toHash_strItem m.blockHash (by unfold SizeOk sizeMax; omega)]
  rfl

theorem RaftVoteReq.populate_eq {m : RaftVoteReq} (m₀ : RaftVoteReq) (hm : m.toRaftMsg.InRange)
    (hcandidate : m.candidate < 2 ^ 16) (hsize : SizeOk (strItems m.payloads).bytes.length) :
    m₀.populate (strItem (strItems m.payloads).bytes)
      = .ok { m with term := low32 m.term, height := low32 m.height, lastLeaderTerm := low32 m.lastLeaderTerm,
                     lastBlockNumber := low32 m.lastBlockNumber } := by
  have hbase := RaftMsg.populate_eq m₀.toRaftMsg hm _ hsize
  rw [RaftVoteReq.populate, index_strItems (i := 4) hsize rfl, index_strItems (i := 5) hsize rfl,
    index_strItems (i := 6) hsize rfl, RaftVoteReq.payloads, hbase]
  change (do
    let candidate ← toInt 2 (strItem (bigEndian (low32 m.candidate)))
    let lastLeaderTerm ← toInt 8 (strItem (bigEndian (low32 m.lastLeaderTerm)))
    let lastBlockNumber ← toInt64 (strItem (bigEndian (low32 m.lastBlockNumber)))
    Except.ok (RaftVoteReq.mk _ candidate lastLeaderTerm lastBlockNumber)) = _
  rw [toInt2_low32 hcandidate, toInt8_low32, toInt64_low32]
  rfl

theorem RaftVoteResp.populate_eq {m : RaftVoteResp} (m₀ : RaftVoteResp) (hm : m.toRaftMsg.InRange)
    (hsize : SizeOk (strItems m.payloads).bytes.length) :
    m₀.populate (strItem (strItems m.payloads).bytes)
      = .ok { m with term := low32 m.term, height := low32 m.height, lastLeaderTerm := low32 m.lastLeaderTerm } := by
  have hbase := RaftMsg.populate_eq m₀.toRaftMsg hm _ hsize
  have hflag : low32 m.voteFlag.toNat = m.voteFlag.toNat := by
    have := m.voteFlag.toNat_lt
    unfold low32
    omega
  rw [RaftVoteResp.populate, index_strItems (i := 4) hsize rfl, index_strItems (i := 5) hsize rfl,
    RaftVoteResp.payloads, hbase]
  change (do
    let voteFlag ← toInt 1 (strItem (bigEndian (low32 m.voteFlag.toNat)))
    let lastLeaderTerm ← toInt 8 (strItem (bigEndian (low32 m.lastLeaderTerm)))
    Except.ok (RaftVoteResp.mk _ (UInt8.ofNat voteFlag) lastLeaderTerm)) = _
  rw [hflag, toInt_strItem (by decide) m.voteFlag.toNat_lt, toInt8_low32]
  change Except.ok (RaftVoteResp.mk _ (UInt8.ofNat m.voteFlag.toNat) _) = _
  rw [UInt8.ofNat_toNat]

theorem RaftHeartBeat.populate_eq {m : RaftHeartBeat} (m₀ : RaftHeartBeat) (hm : m.toRaftMsg.InRange)
    (hleader : m.leader < 2 ^ 16) (hsize : SizeOk (strItems m.payloads).bytes.length) :
    m₀.populate (strItem (strItems m.payloads).bytes)
      = .ok { m with term := low32 m.term, height := low32 m.height,
                     uncommitedBlockNumber := low32 m.uncommitedBlockNumber } := by
  have hbase := RaftMsg.populate_eq m₀.toRaftMsg hm _ hsize
  have hblock : SizeOk m.uncommitedBlock.length :=
    sizeOk_of_mem_strItems hsize (by simp [RaftHeartBeat.payloads])
  rw [RaftHeartBeat.populate, index_strItems (i := 4) hsize rfl, index_strItems (i := 5) hsize rfl,
    index_strItems (i := 6) hsize rfl, RaftHeartBeat.payloads, hbase]
  change (do
    let leader ← toInt 2 (strItem (bigEndian (low32 m.leader)))
    let uncommitedBlock ← toBytes (strItem m.uncommitedBlock)
    let uncommitedBlockNumber ← toInt64 (strItem (bigEndian (low32 m.uncommitedBlockNumber)))
    Except.ok (RaftHeartBeat.mk _ leader uncommitedBlock uncommitedBlockNumber)) = _
  rw [toInt2_low32 hleader, toBytes_strItem hblock, toInt64_low32]
  rfl

theorem RaftHeartBeatResp.populate_eq {m : RaftHeartBeatResp} (m₀ : RaftHeartBeatResp) (hm : m.toRaftMsg.InRange)
    (hsize : SizeOk (strItems m.payloads).bytes.length) :
    m₀.populate (strItem (strItems m.payloads).bytes)
      = .ok { m with term := low32 m.term, height := low32 m.height } := by
  have hbase := RaftMsg.populate_eq m₀.toRaftMsg hm _ hsize
  rw [RaftHeartBeatResp.populate, index_strItems (i := 4) hsize rfl, RaftHeartBeatResp.payloads, hbase]
  change (do
    let uncommitedBlockHash ← toHashStrict 32 (strItem m.uncommitedBlockHash.data)
    Except.ok (RaftHeartBeatResp.mk _ uncommitedBlockHash)) = _
  rw [toHashStrict_strItem]
  rfl

/-! ### Which messages survive -/

theorem sizeOk_of_short_message {ps : List Bytes} (hshort : ∀ p ∈ ps, p.length ≤ 55) (hcount : ps.length ≤ 1000) :
    SizeOk (strItem (listItem (strItem (strItems ps).bytes))).length := by
  have hbody := PBFT.length_bytes_strItems_le ps hshort
  have hstr := PBFT.length_strItem_le_of_le (strItems ps).bytes (by unfold SizeOk sizeMax; omega)
  have hlist := PBFT.length_listItem_le (strItem (strItems ps).bytes) (by unfold SizeOk sizeMax; omega)
  have houter := PBFT.length_strItem_le_of_le (listItem (strItem (strItems ps).bytes))
    (by unfold SizeOk sizeMax; omega)
  unfold SizeOk sizeMax
  omega

theorem sizeOk_body {f : Bytes} (h : SizeOk (strItem (listItem (strItem f))).length) : SizeOk f.length :=
  ((h.mono (length_payload_le_strItem _)).mono (length_payload_le_listItem _)).mono (length_payload_le_strItem _)

theorem RaftMsg.payloads_short (m : RaftMsg) : ∀ p ∈ m.payloads, p.length ≤ 55 := by
  intro p hp
  simp only [RaftMsg.payloads, List.mem_cons, List.not_mem_nil, or_false] at hp
  rcases hp with rfl | rfl | rfl | rfl
  · exact length_bigEndian_low32 _
  · exact length_bigEndian_low32 _
  · exact length_bigEndian_low32 _
  · rw [FixedHash.length_data]
    decide

theorem low32_nat_eq_iff {n : Nat} : low32 n = n ↔ n < 2 ^ 32 := by
  unfold low32
  omega

def RaftMsg.SameNumbers (m m' : RaftMsg) : Prop := m'.term = m.term ∧ m'.height = m.height

def RaftMsg.Narrow (m : RaftMsg) : Prop := m.term < 2 ^ 32 ∧ m.height < 2 ^ 32

theorem RaftMsg.sameNumbers_iff {m : RaftMsg} (hm : m.InRange) {m' : RaftMsg} (hterm : m'.term = low32 m.term)
    (hheight : m'.height = low32 m.height) : m.SameNumbers m' ↔ m.Narrow := by
  unfold RaftMsg.SameNumbers RaftMsg.Narrow
  rw [hterm, hheight, low32_nat_eq_iff, low32_eq_iff hm.height_nonneg]

def RaftVoteReq.Survives (m m₀ : RaftVoteReq) : Prop :=
  ∃ rlp m', Arrives (transDataToMessage m.streamRLPFields RaftVoteReqPacket) RaftVoteReqPacket rlp
    ∧ m₀.populate rlp = .ok m' ∧ m.toRaftMsg.SameNumbers m'.toRaftMsg
    ∧ m'.lastLeaderTerm = m.lastLeaderTerm ∧ m'.lastBlockNumber = m.lastBlockNumber

theorem RaftVoteReq.survives_iff {m : RaftVoteReq} (m₀ : RaftVoteReq) (hm : m.toRaftMsg.InRange)
    (hcandidate : m.candidate < 2 ^ 16) (hnumber : 0 ≤ m.lastBlockNumber) :
    m.Survives m₀ ↔ m.toRaftMsg.Narrow ∧ m.lastLeaderTerm < 2 ^ 32 ∧ m.lastBlockNumber < 2 ^ 32 := by
  have hshort : ∀ p ∈ m.payloads, p.length ≤ 55 := by
    intro p hp
    rcases List.mem_append.mp hp with hp | hp
    · exact m.toRaftMsg.payloads_short p hp
    · simp only [List.mem_cons, List.not_mem_nil, or_false] at hp
      rcases hp with rfl | rfl | rfl
      · exact length_bigEndian_low32 _
      · exact length_bigEndian_low32 _
      · exact length_bigEndian_low32 _
  have hsize := sizeOk_of_short_message hshort (by simp [RaftVoteReq.payloads, RaftMsg.payloads])
  have harrive := fun (rlp : Bytes) => @arrives_iff _ _ RaftVoteReqPacket m.streamRLPFields_eq (by decide) hsize rlp
  have hread := RaftVoteReq.populate_eq m₀ hm hcandidate (sizeOk_body hsize)
  have hblock := low32_eq_iff hnumber
  constructor
  · rintro ⟨rlp, m', hrlp, hm', hsame, hlast, hlastBlock⟩
    rw [(harrive rlp).mp hrlp, hread] at hm'
    cases hm'
    exact ⟨(RaftMsg.sameNumbers_iff hm rfl rfl).mp hsame, low32_nat_eq_iff.mp hlast, hblock.mp hlastBlock⟩
  · rintro ⟨hnarrow, hlast, hlastBlock⟩
    exact ⟨_, _, (harrive _).mpr rfl, hread, (RaftMsg.sameNumbers_iff hm rfl rfl).mpr hnarrow,
      low32_nat_eq_iff.mpr hlast, hblock.mpr hlastBlock⟩

def RaftVoteResp.Survives (m m₀ : RaftVoteResp) : Prop :=
  ∃ rlp m', Arrives (transDataToMessage m.streamRLPFields RaftVoteRespPacket) RaftVoteRespPacket rlp
    ∧ m₀.populate rlp = .ok m' ∧ m.toRaftMsg.SameNumbers m'.toRaftMsg ∧ m'.lastLeaderTerm = m.lastLeaderTerm

theorem RaftVoteResp.survives_iff {m : RaftVoteResp} (m₀ : RaftVoteResp) (hm : m.toRaftMsg.InRange) :
    m.Survives m₀ ↔ m.toRaftMsg.Narrow ∧ m.lastLeaderTerm < 2 ^ 32 := by
  have hshort : ∀ p ∈ m.payloads, p.length ≤ 55 := by
    intro p hp
    rcases List.mem_append.mp hp with hp | hp
    · exact m.toRaftMsg.payloads_short p hp
    · simp only [List.mem_cons, List.not_mem_nil, or_false] at hp
      rcases hp with rfl | rfl
      · exact length_bigEndian_low32 _
      · exact length_bigEndian_low32 _
  have hsize := sizeOk_of_short_message hshort (by simp [RaftVoteResp.payloads, RaftMsg.payloads])
  have harrive := fun (rlp : Bytes) => @arrives_iff _ _ RaftVoteRespPacket m.streamRLPFields_eq (by decide) hsize rlp
  have hread := RaftVoteResp.populate_eq m₀ hm (sizeOk_body hsize)
  constructor
  · rintro ⟨rlp, m', hrlp, hm', hsame, hlast⟩
    rw [(harrive rlp).mp hrlp, hread] at hm'
    cases hm'
    exact ⟨(RaftMsg.sameNumbers_iff hm rfl rfl).mp hsame, low32_nat_eq_iff.mp hlast⟩
  · rintro ⟨hnarrow, hlast⟩
    exact ⟨_, _, (harrive _).mpr rfl, hread, (RaftMsg.sameNumbers_iff hm rfl rfl).mpr hnarrow,
      low32_nat_eq_iff.mpr hlast⟩

def RaftHeartBeat.Survives (m m₀ : RaftHeartBeat) : Prop :=
  ∃ rlp m', Arrives (transDataToMessage m.streamRLPFields RaftHeartBeatPacket) RaftHeartBeatPacket rlp
    ∧ m₀.populate rlp = .ok m' ∧ m.toRaftMsg.SameNumbers m'.toRaftMsg
    ∧ m'.uncommitedBlockNumber = m.uncommitedBlockNumber

theorem RaftHeartBeat.survives_iff {m : RaftHeartBeat} (m₀ : RaftHeartBeat) (hm : m.toRaftMsg.InRange)
    (hleader : m.leader < 2 ^ 16) (hnumber : 0 ≤ m.uncommitedBlockNumber)
    (hfit : FitsVector (transDataToMessage m.streamRLPFields RaftHeartBeatPacket)) :
    m.Survives m₀ ↔ m.toRaftMsg.Narrow ∧ m.uncommitedBlockNumber < 2 ^ 32 := by
  have hsize := sizeOk_of_sent m.streamRLPFields_eq hfit
  have harrive := fun (rlp : Bytes) => @arrives_iff _ _ RaftHeartBeatPacket m.streamRLPFields_eq (by decide) hsize rlp
  have hread := RaftHeartBeat.populate_eq m₀ hm hleader (sizeOk_body hsize)
  have hblock := low32_eq_iff hnumber
  constructor
  · rintro ⟨rlp, m', hrlp, hm', hsame, hlast⟩
    rw [(harrive rlp).mp hrlp, hread] at hm'
    cases hm'
    exact ⟨(RaftMsg.sameNumbers_iff hm rfl rfl).mp hsame, hblock.mp hlast⟩
  · rintro ⟨hnarrow, hlast⟩
    exact ⟨_, _, (harrive _).mpr rfl, hread, (RaftMsg.sameNumbers_iff hm rfl rfl).mpr hnarrow, hblock.mpr hlast⟩

def RaftHeartBeatResp.Survives (m m₀ : RaftHeartBeatResp) : Prop :=
  ∃ rlp m', Arrives (transDataToMessage m.streamRLPFields RaftHeartBeatRespPacket) RaftHeartBeatRespPacket rlp
    ∧ m₀.populate rlp = .ok m' ∧ m.toRaftMsg.SameNumbers m'.toRaftMsg

theorem RaftHeartBeatResp.survives_iff {m : RaftHeartBeatResp} (m₀ : RaftHeartBeatResp) (hm : m.toRaftMsg.InRange) :
    m.Survives m₀ ↔ m.toRaftMsg.Narrow := by
  have hshort : ∀ p ∈ m.payloads, p.length ≤ 55 := by
    intro p hp
    rcases List.mem_append.mp hp with hp | hp
    · exact m.toRaftMsg.payloads_short p hp
    · rw [List.mem_singleton.mp hp, FixedHash.length_data]
      decide
  have hsize := sizeOk_of_short_message hshort (by simp [RaftHeartBeatResp.payloads, RaftMsg.payloads])
  have harrive := fun (rlp : Bytes) =>
    @arrives_iff _ _ RaftHeartBeatRespPacket m.streamRLPFields_eq (by decide) hsize rlp
  have hread := RaftHeartBeatResp.populate_eq m₀ hm (sizeOk_body hsize)
  constructor
  · rintro ⟨rlp, m', hrlp, hm', hsame⟩
    rw [(harrive rlp).mp hrlp, hread] at hm'
    cases hm'
    exact (RaftMsg.sameNumbers_iff hm rfl rfl).mp hsame
  · intro hnarrow
    exact ⟨_, _, (harrive _).mpr rfl, hread, (RaftMsg.sameNumbers_iff hm rfl rfl).mpr hnarrow⟩

end HieraChain.Raft
