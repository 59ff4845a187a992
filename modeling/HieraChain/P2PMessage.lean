/-
  HieraChain/P2PMessage.lean
  ==========================
  **The messages between nodes and their bytes, in the first version**
  (`libp2p/P2PMessage.h`, `.cpp`).

  A `P2PMessage` writes a header of twelve bytes and its buffer.  The header has
  16 bits of the protocol id, the format of the first version.  An encoding of
  at most `MAX_MESSAGE_LENGTH` bytes decodes to the fields of the message
  (`carries_encode`).

  `decode` gives `none` where the source reads or copies outside its bytes.  It
  does so exactly when the length field is less than the header (`bounded_iff`).
  The hosts are little endian.
-/
import HieraChain.BigEndian
import HieraChain.Machine

namespace HieraChain.P2P

open HieraChain.BigEndian

def PACKET_ERROR : Int := -1
def PACKET_INCOMPLETE : Int := 0

def MAX_MESSAGE_LENGTH : Nat := 100 * 1024 * 1024

/-! ### Bytes -/

/-- Copy the bytes from `first` to `last`, if they are there. -/
def copyRange (buffer : Bytes) (first last : Nat) : Option Bytes :=
  if first ≤ last ∧ last ≤ buffer.length then some ((buffer.take last).drop first) else none

/-- `ntohl` and `ntohs` of the bytes at an offset. -/
def ntoh (buffer : Bytes) (offset size : Nat) : Option Nat :=
  (copyRange buffer offset (offset + size)).map fromBigEndian

/-- `htonl` and `htons`: the low bytes of the value. -/
def hton {w : Nat} (value : BitVec w) (size : Nat) : Bytes := pushInt value.toNat size

@[simp] theorem length_hton {w : Nat} (value : BitVec w) (size : Nat) : (hton value size).length = size :=
  length_pushInt _ _

theorem copyRange_append (a b c : Bytes) : copyRange (a ++ (b ++ c)) a.length (a.length + b.length) = some b := by
  have hbounds : a.length ≤ a.length + b.length ∧ a.length + b.length ≤ (a ++ (b ++ c)).length := by
    simp only [List.length_append]
    omega
  rw [copyRange, if_pos hbounds, ← List.append_assoc, ← List.length_append, List.take_left,
    List.drop_left]

theorem ntoh_append {w : Nat} (a c : Bytes) (value : BitVec w) {offset : Nat} (size : Nat)
    (hoffset : a.length = offset) :
    ntoh (a ++ (hton value size ++ c)) offset size = some (value.toNat % 256 ^ size) := by
  have hcopy := copyRange_append a (hton value size) c
  rw [length_hton, hoffset] at hcopy
  rw [ntoh, hcopy, Option.map_some, hton, fromBigEndian_pushInt]

theorem ntoh_full {w : Nat} (a c : Bytes) (value : BitVec w) {offset : Nat} (size : Nat)
    (hoffset : a.length = offset) (hwidth : 2 ^ w = 256 ^ size) :
    ntoh (a ++ (hton value size ++ c)) offset size = some value.toNat := by
  rw [ntoh_append a c value size hoffset, ← hwidth, Nat.mod_eq_of_lt value.isLt]

theorem ntoh_isSome {buffer : Bytes} {offset size : Nat} (h : offset + size ≤ buffer.length) :
    ∃ n, ntoh buffer offset size = some n := by
  rw [ntoh, copyRange, if_pos ⟨Nat.le_add_right _ _, h⟩]
  exact ⟨_, rfl⟩

/-! ### Messages of the first version -/

structure P2PMessage where
  length : BitVec 32 := 0
  protocolID : BitVec 32 := 0
  packetType : BitVec 16 := 0
  seq : BitVec 32 := 0
  buffer : Bytes := []
  dirty : Bool := true
  permitsAcquired : Bool := false

/-- What `decode` gives: nothing where it reads or copies outside its bytes. -/
def Bounded {α : Type} (headerLength : Nat) (buffer : Bytes) (r : Option (Int × α)) : Prop :=
  ∃ n m, r = some (n, m) ∧ (n = PACKET_INCOMPLETE ∨ n = PACKET_ERROR ∨ (headerLength ≤ n ∧ n ≤ buffer.length))

def lengthField (buffer : Bytes) : Nat := fromBigEndian (buffer.take 4)

theorem bounded_checks {α : Type} {headerLength : Nat} {buffer : Bytes} {m₀ m₁ m₂ : α}
    {body : Option (Int × α)} (hheader : headerLength ≤ MAX_MESSAGE_LENGTH)
    (hcopied : headerLength ≤ lengthField buffer → lengthField buffer ≤ buffer.length →
      ∃ m, body = some ((lengthField buffer : Int), m))
    (houtside : lengthField buffer < headerLength → body = none) :
    Bounded headerLength buffer
        (if buffer.length < headerLength then some (PACKET_INCOMPLETE, m₀)
        else if MAX_MESSAGE_LENGTH < lengthField buffer then some (PACKET_ERROR, m₁)
        else if buffer.length < lengthField buffer then some (PACKET_INCOMPLETE, m₂)
        else body)
      ↔ (headerLength ≤ buffer.length → headerLength ≤ lengthField buffer) := by
  split
  next hshort => exact ⟨fun _ hle => by omega, fun _ => ⟨_, _, rfl, Or.inl rfl⟩⟩
  next hshort =>
    split
    next hlong => exact ⟨fun _ _ => by omega, fun _ => ⟨_, _, rfl, Or.inr (Or.inl rfl)⟩⟩
    next hlong =>
      split
      next hincomplete => exact ⟨fun _ _ => by omega, fun _ => ⟨_, _, rfl, Or.inl rfl⟩⟩
      next hincomplete =>
        rcases Nat.lt_or_ge (lengthField buffer) headerLength with hlt | hge
        · rw [houtside hlt]
          constructor
          · rintro ⟨n, m, hsome, -⟩
            cases hsome
          · intro h
            exact absurd (h (by omega)) (by omega)
        · obtain ⟨m, hbody⟩ := hcopied hge (by omega)
          rw [hbody]
          exact ⟨fun _ _ => hge, fun _ => ⟨_, _, rfl, Or.inr (Or.inr ⟨by omega, by omega⟩)⟩⟩

theorem ntoh_lengthField {buffer : Bytes} (h : 4 ≤ buffer.length) :
    ntoh buffer 0 4 = some (lengthField buffer) := by
  have hbounds : 0 ≤ 0 + 4 ∧ 0 + 4 ≤ buffer.length := by omega
  rw [ntoh, copyRange, if_pos hbounds]
  rfl

namespace P2PMessage

def HEADER_LENGTH : Nat := 12

def setProtocolID (m : P2PMessage) (protocolID : BitVec 32) : P2PMessage :=
  { m with protocolID, dirty := m.dirty || decide (m.protocolID ≠ protocolID) }

def setPacketType (m : P2PMessage) (packetType : BitVec 16) : P2PMessage :=
  { m with packetType, dirty := m.dirty || decide (m.packetType ≠ packetType) }

def setSeq (m : P2PMessage) (seq : BitVec 32) : P2PMessage :=
  { m with seq, dirty := m.dirty || decide (m.seq ≠ seq) }

def setBuffer (m : P2PMessage) (buffer : Bytes) : P2PMessage :=
  { m with buffer, length := BitVec.ofNat 32 (HEADER_LENGTH + buffer.length), dirty := true }

def setPermitsAcquired (m : P2PMessage) (permitsAcquired : Bool) : P2PMessage := { m with permitsAcquired }

def encode (m : P2PMessage) : Bytes × P2PMessage :=
  let length := BitVec.ofNat 32 (HEADER_LENGTH + m.buffer.length)
  (hton length 4 ++ (hton m.protocolID 2 ++ (hton m.packetType 2 ++ (hton m.seq 4 ++ m.buffer))),
    { m with length })

/-- The id is read as four bytes, of which `ntohs` takes the first two. -/
def decode (m : P2PMessage) (buffer : Bytes) : Option (Int × P2PMessage) :=
  if buffer.length < HEADER_LENGTH then some (PACKET_INCOMPLETE, m)
  else do
    let length ← ntoh buffer 0 4
    let m := { m with length := BitVec.ofNat 32 length }
    if MAX_MESSAGE_LENGTH < length then return (PACKET_ERROR, m)
    if buffer.length < length then return (PACKET_INCOMPLETE, m)
    let protocolID ← copyRange buffer 4 8
    let packetType ← ntoh buffer 6 2
    let seq ← ntoh buffer 8 4
    let content ← copyRange buffer HEADER_LENGTH length
    return (length,
      { m with
        protocolID := BitVec.ofNat 32 (fromBigEndian (protocolID.take 2))
        packetType := BitVec.ofNat 16 packetType
        seq := BitVec.ofNat 32 seq
        buffer := content })

/-- The bytes decode at every receiver to the fields of the message, with 16
    bits of the protocol id. -/
def Carries (bytes : Bytes) (m : P2PMessage) : Prop :=
  ∀ r : P2PMessage, ∃ r', r.decode bytes = some ((bytes.length : Int), r')
    ∧ r'.protocolID = BitVec.ofNat 32 (m.protocolID.toNat % 2 ^ 16)
    ∧ r'.packetType = m.packetType ∧ r'.seq = m.seq ∧ r'.buffer = m.buffer

theorem length_encode (m : P2PMessage) : m.encode.1.length = HEADER_LENGTH + m.buffer.length := by
  simp only [encode, List.length_append, length_hton, HEADER_LENGTH]
  omega

/-- **What is encoded decodes.** -/
theorem carries_encode (m : P2PMessage) (hlength : m.encode.1.length ≤ MAX_MESSAGE_LENGTH) :
    Carries m.encode.1 m := by
  intro r
  have hsize := length_encode m
  have hsmall : HEADER_LENGTH + m.buffer.length < 2 ^ 32 := by
    rw [← hsize]
    exact lt_of_le_of_lt hlength (by decide)
  have hheader : HEADER_LENGTH = 12 := rfl
  have hlengthField : ntoh m.encode.1 0 4 = some m.encode.1.length := by
    have h : ntoh m.encode.1 0 4 = some _ :=
      ntoh_full [] (hton m.protocolID 2 ++ (hton m.packetType 2 ++ (hton m.seq 4 ++ m.buffer)))
        (BitVec.ofNat 32 (HEADER_LENGTH + m.buffer.length)) 4 rfl (by decide)
    rw [BitVec.toNat_ofNat, Nat.mod_eq_of_lt hsmall, ← hsize] at h
    exact h
  have hid : copyRange m.encode.1 4 8 = some (hton m.protocolID 2 ++ hton m.packetType 2) := by
    have h := copyRange_append (hton (BitVec.ofNat 32 (HEADER_LENGTH + m.buffer.length)) 4)
      (hton m.protocolID 2 ++ hton m.packetType 2) (hton m.seq 4 ++ m.buffer)
    simpa [encode, List.append_assoc] using h
  have htype : ntoh m.encode.1 6 2 = some m.packetType.toNat := by
    have h := ntoh_full (hton (BitVec.ofNat 32 (HEADER_LENGTH + m.buffer.length)) 4 ++ hton m.protocolID 2)
      (hton m.seq 4 ++ m.buffer) m.packetType 2 (show _ = 6 by simp) (by decide)
    simpa [encode, List.append_assoc] using h
  have hseq : ntoh m.encode.1 8 4 = some m.seq.toNat := by
    have h := ntoh_full (hton (BitVec.ofNat 32 (HEADER_LENGTH + m.buffer.length)) 4
      ++ (hton m.protocolID 2 ++ hton m.packetType 2)) m.buffer m.seq 4 (show _ = 8 by simp) (by decide)
    simpa [encode, List.append_assoc] using h
  have hbuffer : copyRange m.encode.1 HEADER_LENGTH m.encode.1.length = some m.buffer := by
    have h := copyRange_append (hton (BitVec.ofNat 32 (HEADER_LENGTH + m.buffer.length)) 4
      ++ (hton m.protocolID 2 ++ (hton m.packetType 2 ++ hton m.seq 4))) m.buffer []
    simp only [List.length_append, length_hton, List.append_nil] at h
    rw [hsize, hheader]
    simpa [encode, List.append_assoc] using h
  have hshort : ¬ m.encode.1.length < HEADER_LENGTH := by omega
  have hlong : ¬ MAX_MESSAGE_LENGTH < m.encode.1.length := by omega
  have htake : (hton m.protocolID 2 ++ hton m.packetType 2).take 2 = hton m.protocolID 2 :=
    List.take_left' (length_hton _ _)
  simp only [decode, if_neg hshort, hlengthField, hid, htype, hseq, hbuffer, bind, Option.bind, pure,
    if_neg hlong, lt_irrefl, if_false, htake]
  refine ⟨_, rfl, ?_, ?_, ?_, rfl⟩
  · rw [hton, fromBigEndian_pushInt]
    rfl
  · simp
  · simp

/-- **Decoding stays inside its bytes exactly when the length is at least that
    of the header.** -/
theorem bounded_iff (m : P2PMessage) (buffer : Bytes) :
    Bounded HEADER_LENGTH buffer (m.decode buffer)
      ↔ (HEADER_LENGTH ≤ buffer.length → HEADER_LENGTH ≤ lengthField buffer) := by
  rcases Nat.lt_or_ge buffer.length HEADER_LENGTH with hshort | hge
  · rw [decode, if_pos hshort]
    exact ⟨fun _ hle => by omega, fun _ => ⟨_, _, rfl, Or.inl rfl⟩⟩
  · have hsize : 12 ≤ buffer.length := hge
    obtain ⟨packetType, htype⟩ := ntoh_isSome (show 6 + 2 ≤ buffer.length by omega)
    obtain ⟨seq, hseq⟩ := ntoh_isSome (show 8 + 4 ≤ buffer.length by omega)
    have hid : copyRange buffer 4 8 = some ((buffer.take 8).drop 4) := if_pos (by omega)
    simp only [decode, ntoh_lengthField (show 4 ≤ buffer.length by omega), htype, hseq, hid, bind,
      Option.bind, pure]
    apply bounded_checks (by decide)
    · intro hle hlt
      rw [copyRange, if_pos ⟨hle, hlt⟩]
      exact ⟨_, rfl⟩
    · intro hlt
      rw [copyRange, if_neg (by omega)]

end P2PMessage

end HieraChain.P2P
