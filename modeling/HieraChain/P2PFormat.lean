/-
  HieraChain/P2PFormat.lean
  =========================
  **The two formats of the messages between nodes, as frames of a stream**
  (`libp2p/P2PMessage.cpp`, `P2PMessageRC2.cpp`, `P2PMessageFactory.h`).

  A `Format` is what a message factory builds, with the facts about `decode` that
  a read loop rests on: by the length field the front of a stream is incomplete,
  too long, shorter than a header (where `decode` throws), or a whole frame, and
  a frame is decoded alike whatever follows it.
-/
import HieraChain.P2PMessageRC2
import HieraChain.StreamFraming

namespace HieraChain.P2P

open HieraChain.BigEndian

/-! ### Formats -/

/-- A message format: what `buildMessage()->decode` does, with the facts that the
    read loop rests on.  `blank` says whether a message of which only the length
    was read counts as a request. -/
structure Format where
  Message : Type
  headerLength : Nat
  decode : Bytes → Option (Int × Message)
  seq : Message → BitVec 32
  isRequestPacket : Message → Bool
  blank : Bool
  four_le : 4 ≤ headerLength
  le_max : headerLength ≤ MAX_MESSAGE_LENGTH
  short : ∀ b : Bytes, b.length < headerLength → ∃ m, decode b = some (PACKET_INCOMPLETE, m)
  partly : ∀ b : Bytes, headerLength ≤ b.length → lengthField b ≤ MAX_MESSAGE_LENGTH → b.length < lengthField b →
    ∃ m, decode b = some (PACKET_INCOMPLETE, m)
  long : ∀ b : Bytes, headerLength ≤ b.length → MAX_MESSAGE_LENGTH < lengthField b →
    ∃ m, decode b = some (PACKET_ERROR, m) ∧ seq m = 0 ∧ isRequestPacket m = blank ∧
      ∀ c, decode (b ++ c) = some (PACKET_ERROR, m)
  under : ∀ b : Bytes, headerLength ≤ b.length → lengthField b < headerLength → decode b = none
  whole : ∀ b : Bytes, headerLength ≤ lengthField b → lengthField b ≤ MAX_MESSAGE_LENGTH → lengthField b ≤ b.length →
    ∃ m, decode b = some ((lengthField b : Int), m) ∧ ∀ c, decode (b ++ c) = some ((lengthField b : Int), m)

theorem copyRange_append_of_le {b : Bytes} {first last : Nat} (h : last ≤ b.length) (c : Bytes) :
    copyRange (b ++ c) first last = copyRange b first last := by
  have hlong : last ≤ (b ++ c).length := h.trans (by simp)
  simp only [copyRange, h, hlong, and_true, List.take_append_of_le_length h]

theorem ntoh_append_of_le {b : Bytes} {offset size : Nat} (h : offset + size ≤ b.length) (c : Bytes) :
    ntoh (b ++ c) offset size = ntoh b offset size := by
  rw [ntoh, copyRange_append_of_le h, ntoh]

theorem lengthField_append_of_le {b : Bytes} (h : 4 ≤ b.length) (c : Bytes) : lengthField (b ++ c) = lengthField b := by
  rw [lengthField, List.take_append_of_le_length h, lengthField]

namespace P2PMessage

def isRequestPacket (m : P2PMessage) : Bool := !decide (m.protocolID &&& 0x8000 = 0x8000)

theorem decode_append (m : P2PMessage) {b : Bytes} (hheader : HEADER_LENGTH ≤ b.length)
    (h : MAX_MESSAGE_LENGTH < lengthField b ∨ lengthField b ≤ b.length) (c : Bytes) :
    m.decode (b ++ c) = m.decode b := by
  have hsize : 12 ≤ b.length := hheader
  have hlong : ¬ (b ++ c).length < HEADER_LENGTH := by
    rw [List.length_append]
    omega
  have hfield := ntoh_lengthField (show 4 ≤ b.length by omega)
  have htype := ntoh_append_of_le (show 6 + 2 ≤ b.length by omega) c
  have hseq := ntoh_append_of_le (show 8 + 4 ≤ b.length by omega) c
  have hid : copyRange (b ++ c) 4 8 = copyRange b 4 8 := copyRange_append_of_le (by omega) c
  simp only [decode, if_neg hlong, if_neg (not_lt.mpr hheader), ntoh_append_of_le (show 0 + 4 ≤ b.length by omega) c,
    hfield, htype, hseq, hid, bind, Option.bind, pure]
  by_cases hmax : MAX_MESSAGE_LENGTH < lengthField b
  · rw [if_pos hmax, if_pos hmax]
  · have hwhole := h.resolve_left hmax
    have hwhole' : lengthField b ≤ (b ++ c).length := hwhole.trans (by simp)
    rw [if_neg hmax, if_neg hmax, if_neg (not_lt.mpr hwhole'), if_neg (not_lt.mpr hwhole), copyRange_append_of_le hwhole]

theorem decode_cases (b : Bytes) (hheader : HEADER_LENGTH ≤ b.length) :
    (MAX_MESSAGE_LENGTH < lengthField b → decode {} b =
      some (PACKET_ERROR, { ({} : P2PMessage) with length := BitVec.ofNat 32 (lengthField b) })) ∧
    (lengthField b ≤ MAX_MESSAGE_LENGTH → b.length < lengthField b → ∃ m, decode {} b = some (PACKET_INCOMPLETE, m)) ∧
    (lengthField b < HEADER_LENGTH → decode {} b = none) ∧
    (HEADER_LENGTH ≤ lengthField b → lengthField b ≤ MAX_MESSAGE_LENGTH → lengthField b ≤ b.length →
      ∃ m, decode {} b = some ((lengthField b : Int), m)) := by
  have hsize : 12 ≤ b.length := hheader
  obtain ⟨packetType, htype⟩ := ntoh_isSome (show 6 + 2 ≤ b.length by omega)
  obtain ⟨seq, hseq⟩ := ntoh_isSome (show 8 + 4 ≤ b.length by omega)
  have hid : copyRange b 4 8 = some ((b.take 8).drop 4) := if_pos (by omega)
  simp only [decode, if_neg (not_lt.mpr hheader), ntoh_lengthField (show 4 ≤ b.length by omega), htype, hseq, hid, bind,
    Option.bind, pure]
  refine ⟨fun hmax => by rw [if_pos hmax], fun hmax hpart => ⟨_, by rw [if_neg (not_lt.mpr hmax), if_pos hpart]⟩, ?_, ?_⟩
  · intro hunder
    have hmax : ¬ MAX_MESSAGE_LENGTH < lengthField b := not_lt.mpr (hunder.le.trans (by decide))
    have hcopy : copyRange b HEADER_LENGTH (lengthField b) = none := by
      rw [copyRange, if_neg (by omega)]
    rw [if_neg hmax, if_neg (by omega), hcopy]
  · intro hle hmax hwhole
    rw [if_neg (not_lt.mpr hmax), if_neg (not_lt.mpr hwhole), copyRange, if_pos ⟨hle, hwhole⟩]
    exact ⟨_, rfl⟩

end P2PMessage

def formatRC1 : Format where
  Message := P2PMessage
  headerLength := P2PMessage.HEADER_LENGTH
  decode := P2PMessage.decode {}
  seq := P2PMessage.seq
  isRequestPacket := P2PMessage.isRequestPacket
  blank := true
  four_le := by decide
  le_max := by decide
  short := fun b h => ⟨_, by rw [P2PMessage.decode, if_pos h]⟩
  partly := fun b hheader => (P2PMessage.decode_cases b hheader).2.1
  long := fun b hheader hlong =>
    have hdecode := (P2PMessage.decode_cases b hheader).1 hlong
    ⟨_, hdecode, rfl, by simp [P2PMessage.isRequestPacket], fun c => (P2PMessage.decode_append {} hheader (.inl hlong) c).trans hdecode⟩
  under := fun b hheader => (P2PMessage.decode_cases b hheader).2.2.1
  whole := fun b hle hmax hwhole =>
    have hheader : P2PMessage.HEADER_LENGTH ≤ b.length := hle.trans hwhole
    let ⟨m, hdecode⟩ := (P2PMessage.decode_cases b hheader).2.2.2 hle hmax hwhole
    ⟨m, hdecode, fun c => (P2PMessage.decode_append {} hheader (.inr hwhole) c).trans hdecode⟩

namespace P2PMessageRC2

def isRequestPacket (m : P2PMessageRC2) : Bool := decide (0 < m.protocolID.toInt)

theorem decode_append (config : Config) (m : P2PMessageRC2) {b : Bytes} (hheader : HEADER_LENGTH ≤ b.length)
    (h : MAX_MESSAGE_LENGTH < lengthField b ∨ lengthField b ≤ b.length) (c : Bytes) :
    m.decode config (b ++ c) = m.decode config b := by
  have hsize : 16 ≤ b.length := hheader
  have hlong : ¬ (b ++ c).length < HEADER_LENGTH := by
    rw [List.length_append]
    omega
  have hfield := ntoh_lengthField (show 4 ≤ b.length by omega)
  have hversion := ntoh_append_of_le (show 4 + 2 ≤ b.length by omega) c
  have hid := ntoh_append_of_le (show 6 + 4 ≤ b.length by omega) c
  have htype := ntoh_append_of_le (show 10 + 2 ≤ b.length by omega) c
  have hseq := ntoh_append_of_le (show 12 + 4 ≤ b.length by omega) c
  simp only [decode, if_neg hlong, if_neg (not_lt.mpr hheader), ntoh_append_of_le (show 0 + 4 ≤ b.length by omega) c,
    hfield, hversion, htype, hseq, hid, bind, Option.bind, pure]
  by_cases hmax : MAX_MESSAGE_LENGTH < lengthField b
  · rw [if_pos hmax, if_pos hmax]
  · have hwhole := h.resolve_left hmax
    have hwhole' : lengthField b ≤ (b ++ c).length := hwhole.trans (by simp)
    rw [if_neg hmax, if_neg hmax, if_neg (not_lt.mpr hwhole'), if_neg (not_lt.mpr hwhole),
      copyRange_append_of_le hwhole, copyRange_append_of_le hwhole]

theorem decode_cases (config : Config) (b : Bytes) (hheader : HEADER_LENGTH ≤ b.length) :
    (MAX_MESSAGE_LENGTH < lengthField b → decode config {} b =
      some (PACKET_ERROR, { ({} : P2PMessageRC2) with length := BitVec.ofNat 32 (lengthField b) })) ∧
    (lengthField b ≤ MAX_MESSAGE_LENGTH → b.length < lengthField b →
      ∃ m, decode config {} b = some (PACKET_INCOMPLETE, m)) ∧
    (lengthField b < HEADER_LENGTH → decode config {} b = none) ∧
    (HEADER_LENGTH ≤ lengthField b → lengthField b ≤ MAX_MESSAGE_LENGTH → lengthField b ≤ b.length →
      ∃ m, decode config {} b = some ((lengthField b : Int), m)) := by
  have hsize : 16 ≤ b.length := hheader
  obtain ⟨version, hversion⟩ := ntoh_isSome (show 4 + 2 ≤ b.length by omega)
  obtain ⟨protocolID, hid⟩ := ntoh_isSome (show 6 + 4 ≤ b.length by omega)
  obtain ⟨packetType, htype⟩ := ntoh_isSome (show 10 + 2 ≤ b.length by omega)
  obtain ⟨seq, hseq⟩ := ntoh_isSome (show 12 + 4 ≤ b.length by omega)
  simp only [decode, if_neg (not_lt.mpr hheader), ntoh_lengthField (show 4 ≤ b.length by omega), hversion, htype, hseq,
    hid, bind, Option.bind, pure]
  refine ⟨fun hmax => by rw [if_pos hmax], fun hmax hpart => ⟨_, by rw [if_neg (not_lt.mpr hmax), if_pos hpart]⟩, ?_, ?_⟩
  · intro hunder
    have hmax : ¬ MAX_MESSAGE_LENGTH < lengthField b := not_lt.mpr (hunder.le.trans (by decide))
    have hcopy : copyRange b HEADER_LENGTH (lengthField b) = none := by
      rw [copyRange, if_neg (by omega)]
    rw [if_neg hmax, if_neg (by omega), hcopy]
    cases copyRange b 0 (lengthField b) with
    | none => rfl
    | some cache => rfl
  · intro hle hmax hwhole
    have hall : copyRange b 0 (lengthField b) = some ((b.take (lengthField b)).drop 0) := if_pos ⟨Nat.zero_le _, hwhole⟩
    have hcontent : copyRange b HEADER_LENGTH (lengthField b) = some ((b.take (lengthField b)).drop HEADER_LENGTH) :=
      if_pos ⟨hle, hwhole⟩
    simp only [if_neg (not_lt.mpr hmax), if_neg (not_lt.mpr hwhole), hall, hcontent]
    split
    · exact ⟨_, rfl⟩
    · exact ⟨_, rfl⟩

end P2PMessageRC2

def formatRC2 (config : Config) : Format where
  Message := P2PMessageRC2
  headerLength := P2PMessageRC2.HEADER_LENGTH
  decode := P2PMessageRC2.decode config {}
  seq := fun m => m.seq
  isRequestPacket := P2PMessageRC2.isRequestPacket
  blank := false
  four_le := by decide
  le_max := by decide
  short := fun b h => ⟨_, by rw [P2PMessageRC2.decode, if_pos h]⟩
  partly := fun b hheader => (P2PMessageRC2.decode_cases config b hheader).2.1
  long := fun b hheader hlong =>
    have hdecode := (P2PMessageRC2.decode_cases config b hheader).1 hlong
    ⟨_, hdecode, rfl, by simp [P2PMessageRC2.isRequestPacket],
      fun c => (P2PMessageRC2.decode_append config {} hheader (.inl hlong) c).trans hdecode⟩
  under := fun b hheader => (P2PMessageRC2.decode_cases config b hheader).2.2.1
  whole := fun b hle hmax hwhole =>
    have hheader : P2PMessageRC2.HEADER_LENGTH ≤ b.length := hle.trans hwhole
    let ⟨m, hdecode⟩ := (P2PMessageRC2.decode_cases config b hheader).2.2.2 hle hmax hwhole
    ⟨m, hdecode, fun c => (P2PMessageRC2.decode_append config {} hheader (.inr hwhole) c).trans hdecode⟩

/-! ### Frames of a format -/

namespace Format

variable (F : Format)

/-- The result of one `decode` in the read loop, by its sign. -/
def verdict (b : Bytes) : Verdict F.Message :=
  match F.decode b with
  | none => .thrown
  | some (result, message) =>
    if 0 < result then .frame result.toNat message
    else if result = 0 then .incomplete
    else .broken message

def Long (b : Bytes) : Prop := F.headerLength ≤ b.length ∧ MAX_MESSAGE_LENGTH < lengthField b

def Under (b : Bytes) : Prop := F.headerLength ≤ b.length ∧ lengthField b < F.headerLength

structure Whole (b : Bytes) : Prop where
  header : F.headerLength ≤ lengthField b
  allowed : lengthField b ≤ MAX_MESSAGE_LENGTH
  there : lengthField b ≤ b.length

theorem front_cases (b : Bytes) :
    F.verdict b = .incomplete ∨ F.Long b ∨ F.Under b ∨ F.Whole b := by
  by_cases hheader : b.length < F.headerLength
  · obtain ⟨m, hdecode⟩ := F.short b hheader
    refine .inl ?_
    simp [verdict, hdecode, PACKET_INCOMPLETE]
  by_cases hlong : MAX_MESSAGE_LENGTH < lengthField b
  · exact .inr (.inl ⟨not_lt.mp hheader, hlong⟩)
  by_cases hpart : b.length < lengthField b
  · obtain ⟨m, hdecode⟩ := F.partly b (not_lt.mp hheader) (not_lt.mp hlong) hpart
    refine .inl ?_
    simp [verdict, hdecode, PACKET_INCOMPLETE]
  by_cases hunder : lengthField b < F.headerLength
  · exact .inr (.inr (.inl ⟨not_lt.mp hheader, hunder⟩))
  · exact .inr (.inr (.inr ⟨not_lt.mp hunder, not_lt.mp hlong, not_lt.mp hpart⟩))

variable {F} {b : Bytes}

theorem Long.verdict (h : F.Long b) : ∃ m, F.seq m = 0 ∧ F.isRequestPacket m = F.blank ∧
    ∀ c, F.verdict (b ++ c) = .broken m := by
  obtain ⟨m, -, hseq, hblank, hdecode⟩ := F.long b h.1 h.2
  refine ⟨m, hseq, hblank, fun c => ?_⟩
  simp [Format.verdict, hdecode, PACKET_ERROR]

theorem Under.append (h : F.Under b) (c : Bytes) : F.Under (b ++ c) := by
  refine ⟨h.1.trans (by simp), ?_⟩
  rw [lengthField_append_of_le (F.four_le.trans h.1)]
  exact h.2

theorem Under.verdict (h : F.Under b) : F.verdict b = .thrown := by
  rw [Format.verdict, F.under b h.1 h.2]

theorem Whole.verdict (h : F.Whole b) : ∃ m, F.decode b = some ((lengthField b : Int), m) ∧
    ∀ c, F.verdict (b ++ c) = .frame (lengthField b) m := by
  obtain ⟨m, hdecode, happend⟩ := F.whole b h.header h.allowed h.there
  have hpos : 0 < lengthField b := Nat.lt_of_lt_of_le (by decide) (F.four_le.trans h.header)
  refine ⟨m, hdecode, fun c => ?_⟩
  simp [Format.verdict, happend, hpos]

theorem verdict_self_append (b : Bytes) : F.verdict b = F.verdict (b ++ []) := by rw [List.append_nil]

variable (F)

def framing : Framing UInt8 F.Message where
  verdict := F.verdict
  nil := by
    obtain ⟨m, hdecode⟩ := F.short [] (Nat.lt_of_lt_of_le (by decide) F.four_le)
    simp [verdict, hdecode, PACKET_INCOMPLETE]
  size := by
    intro b n m hverdict
    rcases F.front_cases b with h | h | h | h
    · rw [h] at hverdict
      cases hverdict
    · obtain ⟨m, -, -, hbroken⟩ := h.verdict
      rw [verdict_self_append, hbroken] at hverdict
      cases hverdict
    · rw [h.verdict] at hverdict
      cases hverdict
    · obtain ⟨m, -, hframe⟩ := h.verdict
      rw [verdict_self_append, hframe] at hverdict
      cases hverdict
      have hheader := h.header
      have hfour := F.four_le
      exact ⟨by omega, h.there⟩
  stable := by
    intro b hverdict c
    rcases F.front_cases b with h | h | h | h
    · exact absurd h hverdict
    · obtain ⟨m, -, -, hbroken⟩ := h.verdict
      rw [hbroken, verdict_self_append, hbroken]
    · rw [h.verdict, (h.append c).verdict]
    · obtain ⟨m, -, hframe⟩ := h.verdict
      rw [hframe, verdict_self_append, hframe]

@[simp] theorem framing_verdict (b : Bytes) : F.framing.verdict b = F.verdict b := rfl

/-- **The loop throws exactly on a header that announces less than a header.** -/
theorem behind_under (b : Bytes) : F.framing.Behind F.Under b ↔ (F.framing.take b).2.2 = .thrown := by
  refine Framing.behind_iff (E := fun e => e = .thrown) ?_ ?_ b
  · intro b n m hverdict h
    rw [framing_verdict, h.verdict] at hverdict
    cases hverdict
  · intro b hstop
    constructor
    · intro h
      rw [Framing.take_thrown h.verdict]
    · intro h
      rcases F.front_cases b with hb | hb | hb | hb
      · rw [Framing.take_incomplete hb] at h
        cases h
      · obtain ⟨m, -, -, hbroken⟩ := hb.verdict
        rw [Framing.take_broken ((verdict_self_append b).trans (hbroken []))] at h
        cases h
      · exact hb
      · obtain ⟨m, -, hframe⟩ := hb.verdict
        exact absurd ((verdict_self_append b).trans (hframe [])) (hstop _ m)

/-- **It ends with an error exactly on a header that announces too much.** -/
theorem behind_long (b : Bytes) : F.framing.Behind F.Long b ↔ ∃ m, (F.framing.take b).2.2 = .broken m := by
  refine Framing.behind_iff (E := fun e => ∃ m, e = .broken m) ?_ ?_ b
  · intro b n m hverdict h
    obtain ⟨m', -, -, hbroken⟩ := h.verdict
    rw [framing_verdict, verdict_self_append, hbroken] at hverdict
    cases hverdict
  · intro b hstop
    constructor
    · intro h
      obtain ⟨m, -, -, hbroken⟩ := h.verdict
      rw [Framing.take_broken ((verdict_self_append b).trans (hbroken []))]
      exact ⟨m, rfl⟩
    · rintro ⟨m, h⟩
      rcases F.front_cases b with hb | hb | hb | hb
      · rw [Framing.take_incomplete hb] at h
        cases h
      · exact hb
      · rw [Framing.take_thrown hb.verdict] at h
        cases h
      · obtain ⟨m, -, hframe⟩ := hb.verdict
        exact absurd ((verdict_self_append b).trans (hframe [])) (hstop _ m)

theorem broken_blank {b : Bytes} {m : F.Message} (h : (F.framing.take b).2.2 = .broken m) :
    F.seq m = 0 ∧ F.isRequestPacket m = F.blank := by
  induction b using F.framing.frame_induction with
  | stop b hstop =>
    rcases F.front_cases b with hb | hb | hb | hb
    · rw [Framing.take_incomplete hb] at h
      cases h
    · obtain ⟨m', hseq, hblank, hbroken⟩ := hb.verdict
      rw [Framing.take_broken ((verdict_self_append b).trans (hbroken []))] at h
      cases h
      exact ⟨hseq, hblank⟩
    · rw [Framing.take_thrown hb.verdict] at h
      cases h
    · obtain ⟨m, -, hframe⟩ := hb.verdict
      exact absurd ((verdict_self_append b).trans (hframe [])) (hstop _ m)
  | frame b n m' hverdict ih =>
    rw [Framing.take_frame hverdict] at h
    exact ih h

end Format

end HieraChain.P2P
