/-
  HieraChain/P2PMessageRC2.lean
  =============================
  **Messages that are compressed and kept encoded** (`libp2p/P2PMessageRC2.h`,
  `.cpp`).

  A `P2PMessageRC2` writes all 32 bits of its protocol id, may compress its
  buffer, and keeps what it wrote until a setter changes a field.  The version
  has a flag for compressed data, which `encode` sets and no setter clears.  As
  long as no message is written again with the flag set, what is encoded decodes
  to the fields of the message (`p2p_message_codec`); a message written again
  is not compressed and is read as compressed (`p2p_message_changes`).

  Snappy is a parameter.
-/
import HieraChain.P2PMessage

namespace HieraChain.P2P

open HieraChain.BigEndian

/-- The compression: what `RawCompress` gives, and what `RawUncompress` leaves in
    its buffer with its status. -/
structure Snappy where
  compress : Bytes → Bytes
  uncompress : Bytes → Bytes × Bool
  lossless : ∀ data, uncompress (compress data) = (data, true)

structure Config where
  compressEnabled : Bool
  snappy : Snappy

def compressThreshold : Nat := 1024

def CompressFlag : BitVec 16 := 0x8000

structure P2PMessageRC2 extends P2PMessage where
  version : BitVec 16 := 0
  cache : Bytes := []

namespace P2PMessageRC2

def HEADER_LENGTH : Nat := 16

def flagged (m : P2PMessageRC2) : Bool := m.version &&& CompressFlag = CompressFlag

def setBase (m : P2PMessageRC2) (f : P2PMessage → P2PMessage) : P2PMessageRC2 :=
  { m with toP2PMessage := f m.toP2PMessage }

def setVersion (m : P2PMessageRC2) (version : BitVec 16) : P2PMessageRC2 :=
  { m with version, dirty := m.dirty || decide (m.version ≠ version) }

def wire (m : P2PMessageRC2) (payload : Bytes) : Bytes :=
  hton (BitVec.ofNat 32 (HEADER_LENGTH + payload.length)) 4 ++ (hton m.version 2 ++ (hton m.protocolID 4
    ++ (hton m.packetType 2 ++ (hton m.seq 4 ++ payload))))

/-- `encode(std::shared_ptr<bytes>)`. -/
def encodeCache (m : P2PMessageRC2) (encodeBuffer : Bytes) : P2PMessageRC2 :=
  { m with
    length := BitVec.ofNat 32 (HEADER_LENGTH + encodeBuffer.length)
    cache := m.wire encodeBuffer
    dirty := false }

def compress (config : Config) (m : P2PMessageRC2) : Option (Bytes × P2PMessageRC2) :=
  if !config.compressEnabled || m.buffer.length ≤ compressThreshold then none
  else if m.flagged then none
  else
    let compressData := config.snappy.compress m.buffer
    if compressData.length < 1 then none
    else some (compressData, { m with version := m.version ||| CompressFlag })

def encode (config : Config) (m : P2PMessageRC2) : Bytes × P2PMessageRC2 :=
  let m :=
    if m.dirty then
      match m.compress config with
      | some (compressData, m) => m.encodeCache compressData
      | none => m.encodeCache m.buffer
    else m
  (m.cache, m)

/-- The status of `uncompress` is not looked at. -/
def decode (config : Config) (m : P2PMessageRC2) (buffer : Bytes) : Option (Int × P2PMessageRC2) :=
  if buffer.length < HEADER_LENGTH then some (PACKET_INCOMPLETE, m)
  else do
    let length ← ntoh buffer 0 4
    let m := { m with length := BitVec.ofNat 32 length }
    if MAX_MESSAGE_LENGTH < length then return (PACKET_ERROR, m)
    if buffer.length < length then return (PACKET_INCOMPLETE, m)
    let cache ← copyRange buffer 0 length
    let version ← ntoh buffer 4 2
    let protocolID ← ntoh buffer 6 4
    let packetType ← ntoh buffer 10 2
    let seq ← ntoh buffer 12 4
    let content ← copyRange buffer HEADER_LENGTH length
    let m :=
      { m with
        cache
        version := BitVec.ofNat 16 version
        protocolID := BitVec.ofNat 32 protocolID
        packetType := BitVec.ofNat 16 packetType
        seq := BitVec.ofNat 32 seq }
    if config.compressEnabled && m.flagged then
      return (length,
        { m with buffer := (config.snappy.uncompress content).1, version := m.version &&& ~~~CompressFlag })
    else return (length, { m with buffer := content })

def Carries (config : Config) (bytes : Bytes) (m : P2PMessageRC2) : Prop :=
  ∀ r : P2PMessageRC2, ∃ r', r.decode config bytes = some ((bytes.length : Int), r')
    ∧ r'.protocolID = m.protocolID ∧ r'.packetType = m.packetType ∧ r'.seq = m.seq ∧ r'.buffer = m.buffer

/-- **Decoding stays inside its bytes exactly when the length is at least that
    of the header.** -/
theorem bounded_iff (config : Config) (m : P2PMessageRC2) (buffer : Bytes) :
    Bounded HEADER_LENGTH buffer (m.decode config buffer)
      ↔ (HEADER_LENGTH ≤ buffer.length → HEADER_LENGTH ≤ lengthField buffer) := by
  rcases Nat.lt_or_ge buffer.length HEADER_LENGTH with hshort | hge
  · rw [decode, if_pos hshort]
    exact ⟨fun _ hle => by omega, fun _ => ⟨_, _, rfl, Or.inl rfl⟩⟩
  · have hsize : 16 ≤ buffer.length := hge
    obtain ⟨version, hversion⟩ := ntoh_isSome (show 4 + 2 ≤ buffer.length by omega)
    obtain ⟨protocolID, hid⟩ := ntoh_isSome (show 6 + 4 ≤ buffer.length by omega)
    obtain ⟨packetType, htype⟩ := ntoh_isSome (show 10 + 2 ≤ buffer.length by omega)
    obtain ⟨seq, hseq⟩ := ntoh_isSome (show 12 + 4 ≤ buffer.length by omega)
    simp only [decode, ntoh_lengthField (show 4 ≤ buffer.length by omega), hversion, hid, htype, hseq, bind,
      Option.bind, pure]
    apply bounded_checks (by decide)
    · intro hle hlt
      simp only [copyRange, if_pos (show 0 ≤ lengthField buffer ∧ lengthField buffer ≤ buffer.length from
        ⟨Nat.zero_le _, hlt⟩), if_pos (show HEADER_LENGTH ≤ lengthField buffer ∧
        lengthField buffer ≤ buffer.length from ⟨hle, hlt⟩)]
      split
      · exact ⟨_, rfl⟩
      · exact ⟨_, rfl⟩
    · intro hlt
      have hcopy : copyRange buffer HEADER_LENGTH (lengthField buffer) = none := by
        rw [copyRange, if_neg (by omega)]
      rw [hcopy]
      cases copyRange buffer 0 (lengthField buffer) with
      | none => rfl
      | some cache => rfl

theorem decode_wire (config : Config) (m r : P2PMessageRC2) {payload : Bytes}
    (hlength : (m.wire payload).length ≤ MAX_MESSAGE_LENGTH) :
    ∃ r', r.decode config (m.wire payload) = some (((m.wire payload).length : Int), r')
      ∧ r'.protocolID = m.protocolID ∧ r'.packetType = m.packetType ∧ r'.seq = m.seq
      ∧ r'.buffer = if config.compressEnabled && m.flagged then (config.snappy.uncompress payload).1
        else payload := by
  have hsize : (m.wire payload).length = HEADER_LENGTH + payload.length := by
    simp only [wire, List.length_append, length_hton, HEADER_LENGTH]
    omega
  have hsmall : HEADER_LENGTH + payload.length < 2 ^ 32 := by
    rw [← hsize]
    exact lt_of_le_of_lt hlength (by decide)
  have hheader : HEADER_LENGTH = 16 := rfl
  generalize hlen : BitVec.ofNat 32 (HEADER_LENGTH + payload.length) = len
  have hwire : m.wire payload = hton len 4 ++ (hton m.version 2 ++ (hton m.protocolID 4
      ++ (hton m.packetType 2 ++ (hton m.seq 4 ++ payload)))) := by
    rw [← hlen]
    rfl
  have hlengthField : ntoh (m.wire payload) 0 4 = some (m.wire payload).length := by
    have h : ntoh (m.wire payload) 0 4 = some _ :=
      ntoh_full [] (hton m.version 2 ++ (hton m.protocolID 4 ++ (hton m.packetType 2
        ++ (hton m.seq 4 ++ payload)))) (BitVec.ofNat 32 (HEADER_LENGTH + payload.length)) 4 rfl (by decide)
    rw [BitVec.toNat_ofNat, Nat.mod_eq_of_lt hsmall, ← hsize] at h
    exact h
  have hversion : ntoh (m.wire payload) 4 2 = some m.version.toNat := by
    have h := ntoh_full (hton len 4) (hton m.protocolID 4 ++ (hton m.packetType 2 ++ (hton m.seq 4 ++ payload)))
      m.version 2 (length_hton _ _) (by decide)
    rw [hwire]
    exact h
  have hid : ntoh (m.wire payload) 6 4 = some m.protocolID.toNat := by
    have h := ntoh_full (hton len 4 ++ hton m.version 2) (hton m.packetType 2 ++ (hton m.seq 4 ++ payload))
      m.protocolID 4 (show _ = 6 by simp) (by decide)
    rw [hwire]
    simpa only [List.append_assoc] using h
  have htype : ntoh (m.wire payload) 10 2 = some m.packetType.toNat := by
    have h := ntoh_full (hton len 4 ++ (hton m.version 2 ++ hton m.protocolID 4)) (hton m.seq 4 ++ payload)
      m.packetType 2 (show _ = 10 by simp) (by decide)
    rw [hwire]
    simpa only [List.append_assoc] using h
  have hseq : ntoh (m.wire payload) 12 4 = some m.seq.toNat := by
    have h := ntoh_full (hton len 4 ++ (hton m.version 2 ++ (hton m.protocolID 4 ++ hton m.packetType 2)))
      payload m.seq 4 (show _ = 12 by simp) (by decide)
    rw [hwire]
    simpa only [List.append_assoc] using h
  have hpayload : copyRange (m.wire payload) HEADER_LENGTH (m.wire payload).length = some payload := by
    have h := copyRange_append (hton len 4 ++ (hton m.version 2 ++ (hton m.protocolID 4
      ++ (hton m.packetType 2 ++ hton m.seq 4)))) payload []
    simp only [List.length_append, length_hton, List.append_nil, List.append_assoc] at h
    rw [hsize, hheader, hwire]
    exact h
  have hall : copyRange (m.wire payload) 0 (m.wire payload).length = some (m.wire payload) := by
    rw [copyRange, if_pos ⟨Nat.zero_le _, le_rfl⟩, List.take_length, List.drop_zero]
  have hshort : ¬ (m.wire payload).length < HEADER_LENGTH := by omega
  have hlong : ¬ MAX_MESSAGE_LENGTH < (m.wire payload).length := by omega
  simp only [decode, if_neg hshort, hlengthField, hall, hversion, hid, htype, hseq, hpayload, bind,
    Option.bind, pure, if_neg hlong, lt_irrefl, if_false, flagged, BitVec.ofNat_toNat, BitVec.setWidth_eq]
  split
  next hflag => exact ⟨_, rfl, rfl, rfl, rfl, (if_pos hflag).symm⟩
  next hflag => exact ⟨_, rfl, rfl, rfl, rfl, (if_neg hflag).symm⟩

end P2PMessageRC2

/-! ### Runs of calls -/

inductive Setter
  | protocolID (value : BitVec 32)
  | packetType (value : BitVec 16)
  | seq (value : BitVec 32)
  | buffer (value : Bytes)
  | permitsAcquired (value : Bool)

def Setter.apply (m : P2PMessage) : Setter → P2PMessage
  | .protocolID value => m.setProtocolID value
  | .packetType value => m.setPacketType value
  | .seq value => m.setSeq value
  | .buffer value => m.setBuffer value
  | .permitsAcquired value => m.setPermitsAcquired value

inductive Call
  | set (setter : Setter)
  | encode

inductive CallRC2
  | set (setter : Setter)
  | setVersion (version : BitVec 16)
  | encode

def messages : Machine P2PMessage Call where
  step m
    | .set setter => setter.apply m
    | .encode => m.encode.2

def messagesRC2 (config : Config) : Machine P2PMessageRC2 CallRC2 where
  step m
    | .set setter => m.setBase setter.apply
    | .setVersion version => m.setVersion version
    | .encode => (m.encode config).2

def Plain (config : Config) (m : P2PMessageRC2) : CallRC2 → Prop
  | .encode => m.dirty = true → config.compressEnabled = true → m.flagged = false
  | _ => True

instance (config : Config) (m : P2PMessageRC2) (call : CallRC2) : Decidable (Plain config m call) :=
  match call with
  | .encode => inferInstanceAs (Decidable (_ → _ → _))
  | .set _ => isTrue trivial
  | .setVersion _ => isTrue trivial

namespace P2PMessageRC2

variable {config : Config} {m : P2PMessageRC2}

def Kept (config : Config) (m : P2PMessageRC2) : Prop :=
  m.dirty = false → m.cache.length ≤ MAX_MESSAGE_LENGTH → Carries config m.cache m

theorem Carries.congr {bytes : Bytes} {m' : P2PMessageRC2} (h : Carries config bytes m)
    (hid : m'.protocolID = m.protocolID) (htype : m'.packetType = m.packetType) (hseq : m'.seq = m.seq)
    (hbuffer : m'.buffer = m.buffer) : Carries config bytes m' := by
  intro r
  obtain ⟨r', hdecode, hrest⟩ := h r
  rw [← hid, ← htype, ← hseq, ← hbuffer] at hrest
  exact ⟨r', hdecode, hrest⟩

theorem apply_clean {m : P2PMessage} {setter : Setter} (h : (setter.apply m).dirty = false) :
    m.dirty = false ∧ (setter.apply m).protocolID = m.protocolID
      ∧ (setter.apply m).packetType = m.packetType ∧ (setter.apply m).seq = m.seq
      ∧ (setter.apply m).buffer = m.buffer := by
  cases setter with
  | protocolID value =>
    simp only [Setter.apply, P2PMessage.setProtocolID, Bool.or_eq_false_iff, decide_eq_false_iff_not,
      not_not] at h
    exact ⟨h.1, h.2.symm, rfl, rfl, rfl⟩
  | packetType value =>
    simp only [Setter.apply, P2PMessage.setPacketType, Bool.or_eq_false_iff, decide_eq_false_iff_not,
      not_not] at h
    exact ⟨h.1, rfl, h.2.symm, rfl, rfl⟩
  | seq value =>
    simp only [Setter.apply, P2PMessage.setSeq, Bool.or_eq_false_iff, decide_eq_false_iff_not, not_not] at h
    exact ⟨h.1, rfl, rfl, h.2.symm, rfl⟩
  | buffer value =>
    rw [Setter.apply, P2PMessage.setBuffer] at h
    cases h
  | permitsAcquired value => exact ⟨h, rfl, rfl, rfl, rfl⟩

theorem or_flag (version : BitVec 16) : (version ||| CompressFlag) &&& CompressFlag = CompressFlag := by
  apply BitVec.eq_of_getElem_eq
  intro i hi
  simp only [BitVec.getElem_and, BitVec.getElem_or]
  cases CompressFlag[i] with
  | false => rw [Bool.and_false]
  | true => rw [Bool.or_true, Bool.and_true]

theorem compress_some {m' : P2PMessageRC2} {compressData : Bytes}
    (h : m.compress config = some (compressData, m')) :
    config.compressEnabled = true ∧ compressData = config.snappy.compress m.buffer
      ∧ m' = { m with version := m.version ||| CompressFlag } := by
  rw [compress] at h
  split at h
  next => cases h
  next hlarge =>
    split at h
    next => cases h
    next =>
      simp only at h
      split at h
      next => cases h
      next =>
        simp only [Option.some.injEq, Prod.mk.injEq] at h
        simp only [Bool.or_eq_true, Bool.not_eq_true', not_or, Bool.not_eq_false] at hlarge
        exact ⟨hlarge.1, h.1.symm, h.2.symm⟩

/-- **What is written carries the fields of the message.** -/
theorem carries_encode (hkept : Kept config m) (hplain : Plain config m .encode)
    (hlength : (m.encode config).1.length ≤ MAX_MESSAGE_LENGTH) : Carries config (m.encode config).1 m := by
  cases hdirty : m.dirty with
  | false =>
    simp only [encode, hdirty, Bool.false_eq_true, if_false] at hlength ⊢
    exact hkept hdirty hlength
  | true =>
    simp only [encode, hdirty, if_true] at hlength ⊢
    have hflagged := hplain hdirty
    cases hcompress : m.compress config with
    | none =>
      simp only [hcompress] at hlength ⊢
      intro r
      obtain ⟨r', hdecode, hid, htype, hseq, hbuffer⟩ := decode_wire config m r hlength
      refine ⟨r', hdecode, hid, htype, hseq, hbuffer.trans ?_⟩
      cases henabled : config.compressEnabled with
      | false => rfl
      | true => simp [hflagged henabled]
    | some result =>
      obtain ⟨compressData, m'⟩ := result
      obtain ⟨henabled, rfl, rfl⟩ := compress_some hcompress
      simp only [hcompress] at hlength ⊢
      intro r
      obtain ⟨r', hdecode, hid, htype, hseq, hbuffer⟩ := decode_wire config
        { m with version := m.version ||| CompressFlag } r hlength
      refine ⟨r', hdecode, hid, htype, hseq, hbuffer.trans ?_⟩
      rw [henabled, flagged, or_flag, config.snappy.lossless]
      rfl

theorem encode_fields (config : Config) (m : P2PMessageRC2) :
    (m.encode config).2.protocolID = m.protocolID
      ∧ (m.encode config).2.packetType = m.packetType ∧ (m.encode config).2.seq = m.seq
      ∧ (m.encode config).2.buffer = m.buffer := by
  simp only [encode]
  split
  · cases hcompress : m.compress config with
    | none => exact ⟨rfl, rfl, rfl, rfl⟩
    | some result =>
      obtain ⟨compressData, m'⟩ := result
      obtain ⟨-, -, rfl⟩ := compress_some hcompress
      exact ⟨rfl, rfl, rfl, rfl⟩
  · exact ⟨rfl, rfl, rfl, rfl⟩

theorem kept_step {call : CallRC2} (hkept : Kept config m) (hplain : Plain config m call) :
    Kept config ((messagesRC2 config).step m call) := by
  cases call with
  | set setter =>
    intro hclean hlength
    obtain ⟨hold, hid, htype, hseq, hbuffer⟩ := apply_clean hclean
    exact (hkept hold hlength).congr hid htype hseq hbuffer
  | setVersion version =>
    intro hclean hlength
    simp only [messagesRC2, setVersion, Bool.or_eq_false_iff] at hclean
    exact (hkept hclean.1 hlength).congr rfl rfl rfl rfl
  | encode =>
    obtain ⟨hid, htype, hseq, hbuffer⟩ := encode_fields config m
    intro _ hlength
    exact (carries_encode hkept hplain hlength).congr hid htype hseq hbuffer

theorem kept_run {calls : List CallRC2} (hplain : (messagesRC2 config).RunOk (Plain config) {} calls) :
    Kept config ((messagesRC2 config).run {} calls) :=
  (messagesRC2 config).run_invariant (fun _ _ hkept hok => kept_step hkept hok) nofun hplain

end P2PMessageRC2

/-! ### The codec -/

/-- **The messages between nodes.**  What a message of either version writes
    after any calls decodes to its fields, and `decode` stays inside its bytes
    unless the length is less than that of the header. -/
theorem p2p_message_codec (config : Config) :
    (∀ calls, ((messages.run {} calls).encode).1.length ≤ MAX_MESSAGE_LENGTH →
      P2PMessage.Carries (messages.run {} calls).encode.1 (messages.run {} calls))
    ∧ (∀ calls, (messagesRC2 config).RunOk (Plain config) {} (calls ++ [.encode]) →
      (((messagesRC2 config).run {} calls).encode config).1.length ≤ MAX_MESSAGE_LENGTH →
      P2PMessageRC2.Carries config (((messagesRC2 config).run {} calls).encode config).1
        ((messagesRC2 config).run {} calls))
    ∧ (∀ (m : P2PMessage) buffer,
      (P2PMessage.HEADER_LENGTH ≤ buffer.length → P2PMessage.HEADER_LENGTH ≤ lengthField buffer) →
      Bounded P2PMessage.HEADER_LENGTH buffer (m.decode buffer))
    ∧ ∀ (m : P2PMessageRC2) buffer,
      (P2PMessageRC2.HEADER_LENGTH ≤ buffer.length → P2PMessageRC2.HEADER_LENGTH ≤ lengthField buffer) →
      Bounded P2PMessageRC2.HEADER_LENGTH buffer (m.decode config buffer) := by
  refine ⟨fun calls => P2PMessage.carries_encode _, fun calls hplain hlength => ?_,
    fun m buffer => (P2PMessage.bounded_iff m buffer).mpr,
    fun m buffer => (P2PMessageRC2.bounded_iff config m buffer).mpr⟩
  obtain ⟨hcalls, hlast⟩ := Machine.RunOk.append.mp hplain
  exact P2PMessageRC2.carries_encode (P2PMessageRC2.kept_run hcalls) hlast.1 hlength

/-! ### Messages written again -/

/-- A compression that stores its data: what Snappy writes for data of these
    sizes without repetitions. -/
def stored (size : Nat) : Bytes :=
  [UInt8.ofNat (size % 128 + 128), UInt8.ofNat (size / 128), 0xF4, UInt8.ofNat ((size - 1) % 256),
    UInt8.ofNat ((size - 1) / 256)]

def escape : Bytes := List.replicate 6 0xFF

def storedSizes (size : Nat) : Bool := decide (257 ≤ size ∧ size < 16384)

def storing : Snappy where
  compress data := if storedSizes data.length then stored data.length ++ data else escape ++ data
  uncompress data :=
    if storedSizes (data.drop 5).length && data.take 5 = stored (data.drop 5).length then (data.drop 5, true)
    else if data.take 6 = escape then (data.drop 6, true)
    else ([], false)
  lossless data := by
    have hlength : (stored data.length).length = 5 := rfl
    split
    next hsize =>
      rw [List.drop_left' hlength, List.take_left' hlength, hsize]
      simp
    next hsize =>
      have hnot : ¬ ((escape ++ data).take 5 = stored ((escape ++ data).drop 5).length) := by
        intro heq
        have hthird := congrArg (fun l : Bytes => l[2]?) heq
        simp [escape, stored] at hthird
      have htake : (escape ++ data).take 6 = escape := List.take_left' rfl
      have hdrop : (escape ++ data).drop 6 = data := List.drop_left' rfl
      simp only [hnot, decide_false, Bool.and_false, Bool.false_eq_true, if_false, htake, if_true, hdrop]

def counters : Bytes := (List.range 513).flatMap fun n => pushInt n 2

def compressing : Config := { compressEnabled := true, snappy := storing }

/-- A message with a buffer that is compressed, sent twice with different
    sequence numbers. -/
def sentAgain : List CallRC2 := [.set (.buffer counters), .encode, .set (.seq 1)]

theorem p2p_message_codec_small :
    P2PMessageRC2.Carries compressing
      (((messagesRC2 compressing).run {} [.set (.buffer counters), .set (.seq 1)]).encode compressing).1
      ((messagesRC2 compressing).run {} [.set (.buffer counters), .set (.seq 1)]) :=
  (p2p_message_codec compressing).2.1 _ (by decide +kernel) (by decide +kernel)

/-- **A negative protocol id is read as another one, a message with a new
    sequence number is read with another buffer, and a length of zero takes
    `decode` outside its bytes.** -/
theorem p2p_message_changes :
    (∀ r : P2PMessage, ∃ r', r.decode (P2PMessage.encode { protocolID := -1 }).1 = some (12, r')
      ∧ r'.protocolID = 65535)
    ∧ ¬ P2PMessageRC2.Carries compressing
      (((messagesRC2 compressing).run {} sentAgain).encode compressing).1 ((messagesRC2 compressing).run {} sentAgain)
    ∧ P2PMessage.decode {} (List.replicate 12 0) = none := by
  refine ⟨?_, ?_, by decide +kernel⟩
  · intro r
    obtain ⟨r', hdecode, hid, -⟩ := P2PMessage.carries_encode { protocolID := -1 } (by decide +kernel) r
    exact ⟨r', hdecode, hid⟩
  · intro h
    obtain ⟨r', hdecode, -, -, -, hbuffer⟩ := h {}
    have hread : ((({} : P2PMessageRC2).decode compressing
        (((messagesRC2 compressing).run {} sentAgain).encode compressing).1).map fun x => x.2.buffer) = some [] := by
      decide +kernel
    rw [hdecode, Option.map_some, hbuffer] at hread
    exact absurd hread (by decide +kernel)

end HieraChain.P2P
