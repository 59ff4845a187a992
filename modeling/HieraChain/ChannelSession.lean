/-
  HieraChain/ChannelSession.lean
  ==============================
  **The stream of messages from an SDK** (`libchannelserver/ChannelMessage.h`,
  `ChannelSession.cpp`).

  A session appends what it reads to a buffer and takes messages off its front
  until `decode` wants more bytes.  However the bytes are cut into reads, it
  delivers the messages that were encoded, and it goes on reading or disconnects
  as long as no frame announces less than a header (`channel_stream`).

  On such a frame `decode` hands `assign` a range that ends before it begins, the
  exception ends in the catch block of `onRead`, and the session is left without a
  read and connected.  The hosts are little endian.
-/
import HieraChain.P2PMessage

namespace HieraChain.Channel

open HieraChain.BigEndian HieraChain.P2P

def HEADER_LENGTH : Nat := 4 + 2 + 32 + 4

def MAX_LENGTH : Nat := 100 * 1024 * 1024

/-! ### Messages -/

structure ChannelMessage where
  m_length : BitVec 32 := 0
  m_type : BitVec 16 := 0
  m_seq : Bytes := List.replicate 32 48
  m_result : BitVec 32 := 0
  m_data : Bytes := []
  deriving DecidableEq, Repr

/-- How `decode` may end other than by returning. -/
inductive Failure
  /-- A read outside the received bytes. -/
  | outside
  /-- `std::length_error` of `std::vector::assign`. -/
  | lengthError
  deriving DecidableEq, Repr

namespace ChannelMessage

def encode (m : ChannelMessage) : Bytes × ChannelMessage :=
  let length := BitVec.ofNat 32 (HEADER_LENGTH + m.m_data.length)
  (hton length 4 ++ (hton m.m_type 2 ++ (m.m_seq ++ (hton m.m_result 4 ++ m.m_data))), { m with m_length := length })

def inside {α : Type} : Option α → Except Failure α
  | none => .error .outside
  | some a => .ok a

/-- `m_data->assign` of the bytes from `first` to `last`. -/
def assign (buffer : Bytes) (first last : Nat) : Except Failure Bytes :=
  if last < first then .error .lengthError else inside (copyRange buffer first last)

def decode (m : ChannelMessage) (buffer : Bytes) : Except Failure (Int × ChannelMessage) :=
  if buffer.length < HEADER_LENGTH then .ok (0, m)
  else do
    let length ← inside (ntoh buffer 0 4)
    let m := { m with m_length := BitVec.ofNat 32 length }
    if MAX_LENGTH < length then return (-1, m)
    if buffer.length < length then return (0, m)
    let type ← inside (ntoh buffer 4 2)
    let seq ← inside (copyRange buffer 6 38)
    let result ← inside (ntoh buffer 38 4)
    let data ← assign buffer HEADER_LENGTH length
    return (length,
      { m with
        m_type := BitVec.ofNat 16 type
        m_seq := seq
        m_result := BitVec.ofNat 32 result
        m_data := data })

def content (m : ChannelMessage) : BitVec 16 × Bytes × BitVec 32 × Bytes :=
  (m.m_type, m.m_seq, m.m_result, m.m_data)

end ChannelMessage

open ChannelMessage

/-! ### Sessions -/

/-- How the loop of `onRead` ends. -/
inductive Outcome
  | scheduled
  | disconnected
  | caught (failure : Failure)
  deriving DecidableEq, Repr

/-- The loop of `onRead`: the messages delivered, the bytes left and the end. -/
def readLoop : Nat → Bytes → List ChannelMessage × Bytes × Outcome
  | 0, buffer => ([], buffer, .scheduled)
  | fuel + 1, buffer =>
    match decode {} buffer with
    | .error failure => ([], buffer, .caught failure)
    | .ok (result, message) =>
      if 0 < result then
        let rest := readLoop fuel (buffer.drop result.toNat)
        (message :: rest.1, rest.2)
      else if result = 0 then ([], buffer, .scheduled)
      else ([], buffer, .disconnected)

def takeMessages (buffer : Bytes) : List ChannelMessage × Bytes × Outcome :=
  readLoop (buffer.length + 1) buffer

/-- `delivered` are the messages given to `onMessage`; `reading` says that a read
    is outstanding. -/
structure ChannelSession where
  actived : Bool := true
  recvProtocolBuffer : Bytes := []
  delivered : List ChannelMessage := []
  reading : Bool := true
  failure : Option Failure := none
  deriving DecidableEq, Repr

inductive Read
  | received (bytes : Bytes)
  | error

def disconnect (s : ChannelSession) : ChannelSession := { s with actived := false }

/-- `onRead`, which starts without an outstanding read. -/
def onRead (s : ChannelSession) (r : Read) : ChannelSession :=
  if s.actived then
    match r with
    | .error => disconnect s
    | .received bytes =>
      let taken := takeMessages (s.recvProtocolBuffer ++ bytes)
      let s := { s with recvProtocolBuffer := taken.2.1, delivered := s.delivered ++ taken.1 }
      match taken.2.2 with
      | .scheduled => { s with reading := true }
      | .disconnected => disconnect s
      | .caught failure => { s with failure := some failure }
  else s

def session : Machine ChannelSession Read where
  step s r := if s.reading then onRead { s with reading := false } r else s

def Settled (s : ChannelSession) : Prop := s.failure = none ∧ (s.reading = true ∨ s.actived = false)

def stream : List Read → Bytes
  | .received bytes :: reads => bytes ++ stream reads
  | _ => []

/-- Behind some whole frames there are the bytes of a header that announces less
    than a header. -/
inductive ShortFrame : Bytes → Prop
  | here {b : Bytes} (header : HEADER_LENGTH ≤ b.length) (short : lengthField b < HEADER_LENGTH) : ShortFrame b
  | later {b : Bytes} (long : HEADER_LENGTH ≤ lengthField b) (allowed : lengthField b ≤ MAX_LENGTH)
      (whole : lengthField b ≤ b.length) (rest : ShortFrame (b.drop (lengthField b))) : ShortFrame b

/-! ### Decoding -/

variable {m : ChannelMessage} {b : Bytes}

theorem decode_header (h : b.length < HEADER_LENGTH) : decode m b = .ok (0, m) := if_pos h

theorem lengthField_inside (h : HEADER_LENGTH ≤ b.length) : inside (ntoh b 0 4) = .ok (lengthField b) := by
  rw [ntoh_lengthField (le_trans (by decide) h)]
  rfl

theorem decode_long (h : HEADER_LENGTH ≤ b.length) (hlong : MAX_LENGTH < lengthField b) :
    ∃ m', decode m b = .ok (-1, m') := by
  refine ⟨{ m with m_length := BitVec.ofNat 32 (lengthField b) }, ?_⟩
  simp only [decode, if_neg (not_lt.mpr h), lengthField_inside h, bind, Except.bind, if_pos hlong]
  rfl

theorem decode_partial (h : HEADER_LENGTH ≤ b.length) (hallowed : lengthField b ≤ MAX_LENGTH)
    (hincomplete : b.length < lengthField b) : ∃ m', decode m b = .ok (0, m') := by
  refine ⟨{ m with m_length := BitVec.ofNat 32 (lengthField b) }, ?_⟩
  simp only [decode, if_neg (not_lt.mpr h), lengthField_inside h, bind, Except.bind,
    if_neg (not_lt.mpr hallowed), if_pos hincomplete]
  rfl

theorem copyRange_inside {first last : Nat} (hfirst : first ≤ last) (hlast : last ≤ b.length) :
    inside (copyRange b first last) = .ok ((b.take last).drop first) := by
  rw [copyRange, if_pos ⟨hfirst, hlast⟩]
  rfl

theorem ntoh_inside {offset size : Nat} (h : offset + size ≤ b.length) :
    inside (ntoh b offset size) = .ok (fromBigEndian ((b.take (offset + size)).drop offset)) := by
  rw [ntoh, copyRange, if_pos ⟨Nat.le_add_right _ _, h⟩]
  rfl

def frameMessage (b : Bytes) : ChannelMessage where
  m_length := BitVec.ofNat 32 (lengthField b)
  m_type := BitVec.ofNat 16 (fromBigEndian ((b.take 6).drop 4))
  m_seq := (b.take 38).drop 6
  m_result := BitVec.ofNat 32 (fromBigEndian ((b.take 42).drop 38))
  m_data := (b.take (lengthField b)).drop HEADER_LENGTH

theorem decode_there (h : HEADER_LENGTH ≤ b.length) (hallowed : lengthField b ≤ MAX_LENGTH)
    (hthere : lengthField b ≤ b.length) :
    decode m b = if lengthField b < HEADER_LENGTH then .error .lengthError
      else .ok ((lengthField b : Int), frameMessage b) := by
  have hsize : 42 ≤ b.length := h
  simp only [decode, if_neg (not_lt.mpr h), lengthField_inside h, bind, Except.bind,
    if_neg (not_lt.mpr hallowed), if_neg (not_lt.mpr hthere),
    ntoh_inside (show 4 + 2 ≤ b.length by omega), ntoh_inside (show 38 + 4 ≤ b.length by omega),
    copyRange_inside (show 6 ≤ 38 by decide) (show 38 ≤ b.length by omega), assign]
  by_cases hshort : lengthField b < HEADER_LENGTH
  · simp only [if_pos hshort]
  · simp only [if_neg hshort, copyRange_inside (not_lt.mp hshort) hthere]
    rfl

theorem lengthField_append (h : 4 ≤ b.length) (c : Bytes) : lengthField (b ++ c) = lengthField b := by
  rw [lengthField, List.take_append_of_le_length h, lengthField]

theorem frameMessage_append (h : HEADER_LENGTH ≤ b.length) (hthere : lengthField b ≤ b.length) (c : Bytes) :
    frameMessage (b ++ c) = frameMessage b := by
  have hsize : 42 ≤ b.length := h
  rw [frameMessage, lengthField_append (by omega), List.take_append_of_le_length (show 6 ≤ b.length by omega),
    List.take_append_of_le_length (show 38 ≤ b.length by omega), List.take_append_of_le_length hsize,
    List.take_append_of_le_length hthere]
  rfl

/-! ### Encoded messages -/

theorem length_encode (hseq : m.m_seq.length = 32) : m.encode.1.length = HEADER_LENGTH + m.m_data.length := by
  simp only [encode, List.length_append, length_hton, hseq, HEADER_LENGTH]
  omega

theorem lengthField_encode (hsize : HEADER_LENGTH + m.m_data.length < 2 ^ 32) (c : Bytes) :
    lengthField (m.encode.1 ++ c) = HEADER_LENGTH + m.m_data.length := by
  rw [encode, List.append_assoc, lengthField, List.take_left' (length_hton _ _), hton, fromBigEndian_pushInt,
    BitVec.toNat_ofNat, Nat.mod_eq_of_lt hsize]
  exact Nat.mod_eq_of_lt hsize

theorem ofNat_mod {w n : Nat} (value : BitVec w) (hn : n = 2 ^ w) : BitVec.ofNat w (value.toNat % n) = value := by
  subst hn
  rw [Nat.mod_eq_of_lt value.isLt, BitVec.ofNat_toNat, BitVec.setWidth_eq]

theorem drop_take_part (a x c : Bytes) {first last : Nat} (hfirst : a.length = first)
    (hlast : first + x.length = last) : ((a ++ (x ++ c)).take last).drop first = x := by
  subst hfirst hlast
  rw [← List.append_assoc, ← List.length_append, List.take_left, List.drop_left]

theorem frameMessage_encode (hseq : m.m_seq.length = 32) (hsize : HEADER_LENGTH + m.m_data.length < 2 ^ 32)
    (c : Bytes) : (frameMessage (m.encode.1 ++ c)).content = m.content := by
  have hfield := lengthField_encode hsize c
  let length := hton (BitVec.ofNat 32 (HEADER_LENGTH + m.m_data.length)) 4
  let type := hton m.m_type 2
  let result := hton m.m_result 4
  have htype : ((m.encode.1 ++ c).take 6).drop 4 = type := by
    have h := drop_take_part length type (m.m_seq ++ (result ++ (m.m_data ++ c)))
      (length_hton _ _) (show 4 + type.length = 6 by simp [type])
    simpa [encode, List.append_assoc] using h
  have hseqPart : ((m.encode.1 ++ c).take 38).drop 6 = m.m_seq := by
    have h := drop_take_part (length ++ type) m.m_seq (result ++ (m.m_data ++ c))
      (show _ = 6 by simp [length, type]) (show 6 + m.m_seq.length = 38 by rw [hseq])
    simpa [encode, List.append_assoc] using h
  have hresult : ((m.encode.1 ++ c).take 42).drop 38 = result := by
    have h := drop_take_part (length ++ (type ++ m.m_seq)) result (m.m_data ++ c)
      (show _ = 38 by simp [length, type, hseq]) (show 38 + result.length = 42 by simp [result])
    simpa [encode, List.append_assoc] using h
  have hdata : ((m.encode.1 ++ c).take (HEADER_LENGTH + m.m_data.length)).drop HEADER_LENGTH = m.m_data := by
    have h := drop_take_part (length ++ (type ++ (m.m_seq ++ result))) m.m_data c
      (show _ = HEADER_LENGTH by simp [length, type, result, hseq, HEADER_LENGTH]) rfl
    simpa [encode, List.append_assoc] using h
  rw [frameMessage, hfield, htype, hseqPart, hresult, hdata, content, content]
  simp only [type, result, hton, fromBigEndian_pushInt]
  rw [ofNat_mod m.m_type (by decide), ofNat_mod m.m_result (by decide)]

/-! ### Taking messages -/

def Waiting (b : Bytes) : Prop :=
  b.length < HEADER_LENGTH ∨ lengthField b ≤ MAX_LENGTH ∧ b.length < lengthField b

def TooLong (b : Bytes) : Prop := HEADER_LENGTH ≤ b.length ∧ MAX_LENGTH < lengthField b

def TooShort (b : Bytes) : Prop := HEADER_LENGTH ≤ b.length ∧ lengthField b < HEADER_LENGTH

structure Whole (b : Bytes) : Prop where
  long : HEADER_LENGTH ≤ lengthField b
  allowed : lengthField b ≤ MAX_LENGTH
  whole : lengthField b ≤ b.length

theorem HEADER_LENGTH_pos : 0 < HEADER_LENGTH := by decide

theorem HEADER_LENGTH_le_MAX_LENGTH : HEADER_LENGTH ≤ MAX_LENGTH := by decide

theorem Whole.header (h : Whole b) : HEADER_LENGTH ≤ b.length := le_trans h.long h.whole

theorem Whole.length_drop_lt (h : Whole b) : (b.drop (lengthField b)).length < b.length := by
  have hpos := HEADER_LENGTH_pos
  have hlong := h.long
  have hwhole := h.whole
  rw [List.length_drop]
  omega

theorem decode_waiting (h : Waiting b) : ∃ m', decode m b = .ok (0, m') := by
  by_cases hheader : b.length < HEADER_LENGTH
  · exact ⟨m, decode_header hheader⟩
  · obtain hshort | ⟨hallowed, hincomplete⟩ := h
    · exact absurd hshort hheader
    · exact decode_partial (not_lt.mp hheader) hallowed hincomplete

theorem decode_tooShort (h : TooShort b) : decode m b = .error .lengthError := by
  have hlong : lengthField b ≤ MAX_LENGTH := le_trans h.2.le HEADER_LENGTH_le_MAX_LENGTH
  rw [decode_there h.1 hlong (le_trans h.2.le h.1), if_pos h.2]

theorem decode_whole (h : Whole b) : decode m b = .ok ((lengthField b : Int), frameMessage b) := by
  rw [decode_there h.header h.allowed h.whole, if_neg (not_lt.mpr h.long)]

/-- **Induction over the frames at the front of the bytes.** -/
theorem frame_induction {P : Bytes → Prop} (waiting : ∀ b, Waiting b → P b) (tooLong : ∀ b, TooLong b → P b)
    (tooShort : ∀ b, TooShort b → P b) (whole : ∀ b, Whole b → P (b.drop (lengthField b)) → P b)
    (b : Bytes) : P b := by
  induction hn : b.length using Nat.strong_induction_on generalizing b with
  | _ n ih =>
    subst hn
    by_cases hheader : b.length < HEADER_LENGTH
    · exact waiting b (Or.inl hheader)
    by_cases hlong : MAX_LENGTH < lengthField b
    · exact tooLong b ⟨not_lt.mp hheader, hlong⟩
    by_cases hincomplete : b.length < lengthField b
    · exact waiting b (Or.inr ⟨not_lt.mp hlong, hincomplete⟩)
    by_cases hshort : lengthField b < HEADER_LENGTH
    · exact tooShort b ⟨not_lt.mp hheader, hshort⟩
    have hwhole : Whole b := ⟨not_lt.mp hshort, not_lt.mp hlong, not_lt.mp hincomplete⟩
    exact whole b hwhole (ih _ hwhole.length_drop_lt _ rfl)

theorem readLoop_waiting (h : Waiting b) (fuel : Nat) : readLoop fuel b = ([], b, .scheduled) := by
  cases fuel with
  | zero => rfl
  | succ fuel =>
    obtain ⟨m', hdecode⟩ := decode_waiting (m := {}) h
    rw [readLoop, hdecode]
    rfl

theorem readLoop_tooLong (h : TooLong b) (fuel : Nat) : readLoop (fuel + 1) b = ([], b, .disconnected) := by
  obtain ⟨m', hdecode⟩ := decode_long (m := {}) h.1 h.2
  rw [readLoop, hdecode]
  rfl

theorem readLoop_tooShort (h : TooShort b) (fuel : Nat) :
    readLoop (fuel + 1) b = ([], b, .caught .lengthError) := by
  rw [readLoop, decode_tooShort h]

theorem readLoop_whole (h : Whole b) (fuel : Nat) :
    readLoop (fuel + 1) b
      = (frameMessage b :: (readLoop fuel (b.drop (lengthField b))).1,
        (readLoop fuel (b.drop (lengthField b))).2) := by
  have hpos : (0 : Int) < lengthField b := by
    have := lt_of_lt_of_le HEADER_LENGTH_pos h.long
    omega
  rw [readLoop, decode_whole h]
  exact if_pos hpos

theorem readLoop_fuel (fuel : Nat) (h : b.length < fuel) : readLoop fuel b = takeMessages b := by
  suffices key : ∀ b, ∀ fuel fuel', b.length < fuel → b.length < fuel' → readLoop fuel b = readLoop fuel' b from
    key b _ _ h (Nat.lt_succ_self _)
  intro b
  induction b using frame_induction with
  | waiting b hb =>
    intro fuel fuel' _ _
    rw [readLoop_waiting hb, readLoop_waiting hb]
  | tooLong b hb =>
    rintro (_ | fuel) (_ | fuel') hfuel hfuel'
    all_goals try exact absurd ‹b.length < 0› (Nat.not_lt_zero _)
    rw [readLoop_tooLong hb, readLoop_tooLong hb]
  | tooShort b hb =>
    rintro (_ | fuel) (_ | fuel') hfuel hfuel'
    all_goals try exact absurd ‹b.length < 0› (Nat.not_lt_zero _)
    rw [readLoop_tooShort hb, readLoop_tooShort hb]
  | whole b hb ih =>
    rintro (_ | fuel) (_ | fuel') hfuel hfuel'
    all_goals try exact absurd ‹b.length < 0› (Nat.not_lt_zero _)
    have hshorter := hb.length_drop_lt
    rw [readLoop_whole hb, readLoop_whole hb, ih fuel fuel' (by omega) (by omega)]

theorem takeMessages_waiting (h : Waiting b) : takeMessages b = ([], b, .scheduled) := readLoop_waiting h _

theorem takeMessages_tooLong (h : TooLong b) : takeMessages b = ([], b, .disconnected) := readLoop_tooLong h _

theorem takeMessages_tooShort (h : TooShort b) : takeMessages b = ([], b, .caught .lengthError) :=
  readLoop_tooShort h _

theorem takeMessages_whole (h : Whole b) :
    takeMessages b = (frameMessage b :: (takeMessages (b.drop (lengthField b))).1,
      (takeMessages (b.drop (lengthField b))).2) := by
  rw [takeMessages, readLoop_whole h, readLoop_fuel _ h.length_drop_lt]

/-! ### More bytes -/

variable {c : Bytes}

theorem header_lengthField_append (h : HEADER_LENGTH ≤ b.length) (c : Bytes) :
    lengthField (b ++ c) = lengthField b := lengthField_append (le_trans (by decide) h) c

theorem TooLong.append (h : TooLong b) (c : Bytes) : TooLong (b ++ c) := by
  refine ⟨?_, ?_⟩
  · exact le_trans h.1 (by simp)
  · rw [header_lengthField_append h.1]
    exact h.2

theorem TooShort.append (h : TooShort b) (c : Bytes) : TooShort (b ++ c) := by
  refine ⟨?_, ?_⟩
  · exact le_trans h.1 (by simp)
  · rw [header_lengthField_append h.1]
    exact h.2

theorem Whole.append (h : Whole b) (c : Bytes) : Whole (b ++ c) := by
  have hfield := header_lengthField_append h.header c
  constructor
  · rw [hfield]
    exact h.long
  · rw [hfield]
    exact h.allowed
  · rw [hfield]
    exact le_trans h.whole (by simp)

theorem takeMessages_whole_append (h : Whole b) (c : Bytes) :
    takeMessages (b ++ c) = (frameMessage b :: (takeMessages (b.drop (lengthField b) ++ c)).1,
      (takeMessages (b.drop (lengthField b) ++ c)).2) := by
  rw [takeMessages_whole (h.append c), frameMessage_append h.header h.whole, header_lengthField_append h.header,
    List.drop_append_of_le_length h.whole]

theorem takeMessages_append (h : (takeMessages b).2.2 = .scheduled) (c : Bytes) :
    takeMessages (b ++ c) = ((takeMessages b).1 ++ (takeMessages ((takeMessages b).2.1 ++ c)).1,
      (takeMessages ((takeMessages b).2.1 ++ c)).2) := by
  induction b using frame_induction with
  | waiting b hb =>
    rw [takeMessages_waiting hb]
    rfl
  | tooLong b hb =>
    rw [takeMessages_tooLong hb] at h
    cases h
  | tooShort b hb =>
    rw [takeMessages_tooShort hb] at h
    cases h
  | whole b hb ih =>
    rw [takeMessages_whole hb] at h
    rw [takeMessages_whole_append hb, ih h, takeMessages_whole hb]
    rfl

theorem takeMessages_over (h : (takeMessages b).2.2 ≠ .scheduled) (c : Bytes) :
    (takeMessages (b ++ c)).2.2 = (takeMessages b).2.2 := by
  induction b using frame_induction with
  | waiting b hb =>
    rw [takeMessages_waiting hb] at h
    exact absurd rfl h
  | tooLong b hb => rw [takeMessages_tooLong hb, takeMessages_tooLong (hb.append c)]
  | tooShort b hb => rw [takeMessages_tooShort hb, takeMessages_tooShort (hb.append c)]
  | whole b hb ih =>
    rw [takeMessages_whole hb] at h ⊢
    rw [takeMessages_whole_append hb]
    exact ih h

theorem takeMessages_left (h : (takeMessages b).2.2 = .scheduled) :
    takeMessages (takeMessages b).2.1 = ([], (takeMessages b).2.1, .scheduled) := by
  induction b using frame_induction with
  | waiting b hb => rw [takeMessages_waiting hb, takeMessages_waiting hb]
  | tooLong b hb =>
    rw [takeMessages_tooLong hb] at h
    cases h
  | tooShort b hb =>
    rw [takeMessages_tooShort hb] at h
    cases h
  | whole b hb ih =>
    rw [takeMessages_whole hb] at h ⊢
    exact ih h

/-- **The loop throws exactly on a short frame.** -/
theorem shortFrame_iff : ShortFrame b ↔ ∃ failure, (takeMessages b).2.2 = .caught failure := by
  constructor
  · intro h
    induction h with
    | here header short => exact ⟨_, by rw [takeMessages_tooShort ⟨header, short⟩]⟩
    | later long allowed whole _ ih => rwa [takeMessages_whole ⟨long, allowed, whole⟩]
  · induction b using frame_induction with
    | waiting b hb =>
      rintro ⟨_, h⟩
      rw [takeMessages_waiting hb] at h
      cases h
    | tooLong b hb =>
      rintro ⟨_, h⟩
      rw [takeMessages_tooLong hb] at h
      cases h
    | tooShort b hb => exact fun _ => .here hb.1 hb.2
    | whole b hb ih =>
      intro h
      rw [takeMessages_whole hb] at h
      exact .later hb.long hb.allowed hb.whole (ih h)

/-! ### Encoded streams -/

def Sendable (m : ChannelMessage) : Prop :=
  m.m_seq.length = 32 ∧ m.m_data.length ≤ MAX_LENGTH - HEADER_LENGTH

theorem Sendable.size (h : Sendable m) : HEADER_LENGTH + m.m_data.length ≤ MAX_LENGTH := by
  have hdata := h.2
  have hlarge := HEADER_LENGTH_le_MAX_LENGTH
  omega

theorem Sendable.size_lt (h : Sendable m) : HEADER_LENGTH + m.m_data.length < 2 ^ 32 :=
  lt_of_le_of_lt h.size (by decide)

theorem Sendable.whole (h : Sendable m) : Whole m.encode.1 := by
  have hfield := lengthField_encode h.size_lt []
  rw [List.append_nil] at hfield
  constructor
  · rw [hfield]
    exact Nat.le_add_right _ _
  · rw [hfield]
    exact h.size
  · rw [hfield, length_encode h.1]

theorem takeMessages_encode (h : Sendable m) (c : Bytes) :
    takeMessages (m.encode.1 ++ c) = (frameMessage m.encode.1 :: (takeMessages c).1, (takeMessages c).2) := by
  have hfield := lengthField_encode h.size_lt []
  rw [List.append_nil] at hfield
  rw [takeMessages_whole_append h.whole, hfield, ← length_encode h.1, List.drop_length, List.nil_append]

/-- **The loop takes the encoded messages and leaves nothing.** -/
theorem takeMessages_messages (messages : List ChannelMessage) (h : ∀ m ∈ messages, Sendable m) :
    let taken := takeMessages (messages.flatMap fun m => m.encode.1)
    taken.1.map content = messages.map content ∧ taken.2 = ([], .scheduled) := by
  induction messages with
  | nil => exact ⟨rfl, rfl⟩
  | cons m messages ih =>
    have hm : Sendable m := h m List.mem_cons_self
    obtain ⟨hcontent, hleft⟩ := ih fun m' hm' => h m' (List.mem_cons_of_mem m hm')
    have hfirst := frameMessage_encode hm.1 hm.size_lt []
    rw [List.append_nil] at hfirst
    rw [List.flatMap_cons, takeMessages_encode hm]
    constructor
    · rw [List.map_cons, List.map_cons, hfirst, hcontent]
    · exact hleft

/-! ### Runs -/

variable {s : ChannelSession}

structure Open (s : ChannelSession) : Prop where
  actived : s.actived = true
  reading : s.reading = true
  failure : s.failure = none
  left : takeMessages s.recvProtocolBuffer = ([], s.recvProtocolBuffer, .scheduled)

theorem open_start : Open {} := ⟨rfl, rfl, rfl, rfl⟩

theorem Open.settled (h : Open s) : Settled s := ⟨h.failure, Or.inl h.reading⟩

def taken (s : ChannelSession) (bytes : Bytes) : List ChannelMessage × Bytes × Outcome :=
  takeMessages (s.recvProtocolBuffer ++ bytes)

def take (s : ChannelSession) (bytes : Bytes) : ChannelSession :=
  { s with recvProtocolBuffer := (taken s bytes).2.1, delivered := s.delivered ++ (taken s bytes).1 }

theorem Open.step_scheduled (h : Open s) {bytes : Bytes} (htaken : (taken s bytes).2.2 = .scheduled) :
    session.step s (.received bytes) = take s bytes := by
  have hreading := h.reading
  simp only [session, onRead, h.reading, h.actived, if_true]
  rw [show takeMessages (s.recvProtocolBuffer ++ bytes) = taken s bytes from rfl]
  simp only [htaken, take, hreading, h.actived]

theorem Open.step_disconnected (h : Open s) {bytes : Bytes} (htaken : (taken s bytes).2.2 = .disconnected) :
    session.step s (.received bytes) = { take s bytes with reading := false, actived := false } := by
  simp only [session, onRead, h.reading, h.actived, if_true]
  rw [show takeMessages (s.recvProtocolBuffer ++ bytes) = taken s bytes from rfl]
  simp only [htaken, take, disconnect]

theorem Open.step_caught (h : Open s) {bytes : Bytes} {failure : Failure}
    (htaken : (taken s bytes).2.2 = .caught failure) :
    (session.step s (.received bytes)).failure = some failure := by
  simp only [session, onRead, h.reading, h.actived, if_true]
  rw [show takeMessages (s.recvProtocolBuffer ++ bytes) = taken s bytes from rfl]
  simp only [htaken]

theorem Open.step_error (h : Open s) : session.step s .error = { s with reading := false, actived := false } := by
  simp only [session, onRead, h.reading, h.actived, if_true, disconnect]

theorem Open.take (h : Open s) {bytes : Bytes} (htaken : (taken s bytes).2.2 = .scheduled) :
    Open (take s bytes) := ⟨h.actived, h.reading, h.failure, takeMessages_left htaken⟩

theorem Open.not_shortFrame (h : Open s) : ¬ ShortFrame s.recvProtocolBuffer := by
  intro hshort
  obtain ⟨failure, hcaught⟩ := shortFrame_iff.mp hshort
  rw [h.left] at hcaught
  cases hcaught

theorem stream_nil : stream [] = [] := rfl

theorem stream_error (reads : List Read) : stream (.error :: reads) = [] := rfl

theorem run_over (h : s.reading = false) (reads : List Read) : session.run s reads = s := by
  have hstep : ∀ s' r, s' = s → session.step s' r = s := by
    rintro s' r rfl
    simp [session, h]
  exact session.run_preserves hstep rfl reads

theorem taken_append {bytes : Bytes} (htaken : (taken s bytes).2.2 = .scheduled) (more : Bytes) :
    taken s (bytes ++ more) = ((taken s bytes).1 ++ (taken (take s bytes) more).1, (taken (take s bytes) more).2) := by
  rw [taken, ← List.append_assoc, takeMessages_append htaken]
  rfl

/-- **However the bytes are cut, the session takes the messages of all of them.** -/
theorem run_cuts (cuts : List Bytes) (h : Open s) (htaken : (taken s cuts.flatten).2.2 = .scheduled) :
    session.run s (cuts.map .received) = take s cuts.flatten ∧ Open (session.run s (cuts.map .received)) := by
  induction cuts generalizing s with
  | nil =>
    have hnothing : take s [] = s := by
      simp only [take, taken, List.append_nil, h.left]
    rw [List.flatten_nil, hnothing]
    exact ⟨rfl, h⟩
  | cons cut cuts ih =>
    have hcut : (taken s cut).2.2 = .scheduled := by
      by_contra hover
      apply hover
      rw [← htaken, List.flatten_cons, taken, taken, ← List.append_assoc, takeMessages_over hover]
    rw [List.flatten_cons, taken_append hcut] at htaken
    obtain ⟨hrun, hopen⟩ := ih (h.take hcut) htaken
    rw [List.map_cons, session.run_cons, h.step_scheduled hcut]
    refine ⟨?_, hopen⟩
    rw [hrun, List.flatten_cons]
    simp only [take, taken_append hcut, List.append_assoc]

theorem run_over_settled (s : ChannelSession) (hreading : s.reading = false) (hactived : s.actived = false)
    (hfailure : s.failure = none) (reads : List Read) (n : Nat) : Settled (session.run s (reads.take n)) := by
  rw [run_over hreading]
  exact ⟨hfailure, Or.inr hactived⟩

/-- **The session settles after every read exactly when no short frame comes.** -/
theorem settled_iff (reads : List Read) (h : Open s) :
    (∀ n, Settled (session.run s (reads.take n))) ↔ ¬ ShortFrame (s.recvProtocolBuffer ++ stream reads) := by
  induction reads generalizing s with
  | nil =>
    constructor
    · intro _
      rw [stream_nil, List.append_nil]
      exact h.not_shortFrame
    · intro _ n
      rw [List.take_nil]
      exact h.settled
  | cons r reads ih =>
    rw [session.forall_take_cons, and_iff_right h.settled]
    cases r with
    | error =>
      rw [h.step_error]
      constructor
      · intro _
        rw [stream_error, List.append_nil]
        exact h.not_shortFrame
      · intro _ n
        apply run_over_settled
        · rfl
        · rfl
        · exact h.failure
    | received bytes =>
      rw [stream, ← List.append_assoc]
      cases htaken : (taken s bytes).2.2 with
      | scheduled =>
        rw [h.step_scheduled htaken, ih (h.take htaken), not_iff_not, shortFrame_iff, shortFrame_iff,
          takeMessages_append htaken]
        rfl
      | disconnected =>
        have hend : (takeMessages (s.recvProtocolBuffer ++ bytes ++ stream reads)).2.2 = .disconnected := by
          rw [takeMessages_over (show (taken s bytes).2.2 ≠ .scheduled by rw [htaken]; decide)]
          exact htaken
        rw [h.step_disconnected htaken]
        constructor
        · intro _ hshort
          obtain ⟨failure, hcaught⟩ := shortFrame_iff.mp hshort
          rw [hend] at hcaught
          cases hcaught
        · intro _ n
          apply run_over_settled
          · rfl
          · rfl
          · exact h.failure
      | caught failure =>
        have hend : (takeMessages (s.recvProtocolBuffer ++ bytes ++ stream reads)).2.2 = .caught failure := by
          rw [takeMessages_over (show (taken s bytes).2.2 ≠ .scheduled by rw [htaken]; exact Outcome.noConfusion)]
          exact htaken
        constructor
        · intro hsettled
          have hnone := (hsettled 0).1
          rw [List.take_zero, session.run_nil, h.step_caught htaken] at hnone
          cases hnone
        · intro hnot
          exact absurd (shortFrame_iff.mpr ⟨failure, hend⟩) hnot

/-! ### The stream of messages -/

def Delivered (s : ChannelSession) (messages : List ChannelMessage) : Prop :=
  s.delivered.map content = messages.map content ∧ s.recvProtocolBuffer = [] ∧ s.reading = true
    ∧ s.actived = true ∧ s.failure = none

instance (s : ChannelSession) (messages : List ChannelMessage) : Decidable (Delivered s messages) :=
  inferInstanceAs (Decidable (_ ∧ _))

instance (s : ChannelSession) : Decidable (Settled s) := inferInstanceAs (Decidable (_ ∧ _))

/-- **The stream from an SDK.**  The encoded messages are delivered in order with
    nothing left over, however they are cut into reads.  A session settles after
    every read exactly when no frame in its stream announces less than a header. -/
theorem channel_stream (messages : List ChannelMessage) (cuts : List Bytes) (reads : List Read)
    (hmessages : ∀ m ∈ messages, m.m_seq.length = 32 ∧ m.m_data.length ≤ MAX_LENGTH - HEADER_LENGTH)
    (hcuts : cuts.flatten = messages.flatMap fun m => m.encode.1) :
    Delivered (session.run {} (cuts.map .received)) messages
      ∧ ((∀ n, Settled (session.run {} (reads.take n))) ↔ ¬ ShortFrame (stream reads)) := by
  constructor
  · obtain ⟨hcontent, hleft⟩ := takeMessages_messages messages hmessages
    have htaken : taken {} cuts.flatten = takeMessages (messages.flatMap fun m => m.encode.1) := by
      rw [hcuts]
      rfl
    obtain ⟨hrun, hopen⟩ := run_cuts cuts open_start (by rw [htaken, hleft])
    refine ⟨?_, ?_, hopen.reading, hopen.actived, hopen.failure⟩
    · rw [hrun, take, htaken]
      exact hcontent
    · rw [hrun, take, htaken, hleft]
  · exact settled_iff reads open_start

def twoMessages : List ChannelMessage := [{ m_type := 18, m_data := [1, 2, 3] }, { m_type := 19 }]

def smallCuts : List Bytes := (twoMessages.flatMap fun m => m.encode.1).toChunks 5

theorem channel_stream_small :
    Delivered (session.run {} (smallCuts.map .received)) twoMessages
      ∧ ((∀ n, Settled (session.run {} (([] : List Read).take n))) ↔ ¬ ShortFrame (stream [])) :=
  channel_stream twoMessages smallCuts [] (by decide +kernel) (by decide +kernel)

/-- The bytes of a header that announces nothing leave the session without a read
    and connected. -/
theorem zero_length_hangs :
    ¬ ∀ reads n, Settled (session.run {} (List.take n reads)) := by
  intro h
  exact absurd (h [.received (List.replicate 42 0)] 1) (by decide +kernel)

end HieraChain.Channel
