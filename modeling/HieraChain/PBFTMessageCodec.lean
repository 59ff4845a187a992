/-
  HieraChain/PBFTMessageCodec.lean
  ================================
  **Round trips of the PBFT messages**: `PBFTMsg`, `PrepareReq`, the status
  packet, and the bytes under `sig2`.

  The reader takes the fields back one by one (`PBFTMsg.populate_eq`), with
  height and view cut to 32 bits by the writer; so a message survives exactly
  when both fit (`message_codec_iff`), and two messages whose heights or views
  differ by a multiple of 2^32 are signed over the same bytes.
-/
import HieraChain.PBFTCodec

namespace HieraChain.PBFT

open HieraChain.BigEndian HieraChain.RLP

/-! ### Round trip of the messages -/

def PBFTMsg.payloads (m : PBFTMsg H256 Bytes) : List Bytes :=
  [bigEndian (low32 m.height), bigEndian (low32 m.view), bigEndian (low32 m.idx),
    bigEndian m.timestamp, m.blockHash.data, m.sig, m.sig2]

theorem PBFTMsg.streamRLPFields_eq (m : PBFTMsg H256 Bytes) :
    m.streamRLPFields {} = .ok { mOut := (strItems m.payloads).bytes } := by
  simp only [PBFTMsg.streamRLPFields, streamFieldsWithoutBlock, appendUnsigned_nil,
    appendBigint_nil, appendHash_nil, appendBytes_nil, bind, Except.bind, PBFTMsg.payloads,
    strItems_cons, strItems_nil, Items.bytes_cons, Items.bytes_nil, List.append_nil,
    List.nil_append, List.append_assoc]
  rfl

theorem PBFTMsg.populate_eq (m m₀ : PBFTMsg H256 Bytes) (hm : m.WellTyped) (more : List Bytes)
    (hsize : SizeOk (strItems (m.payloads ++ more)).bytes.length) :
    m₀.populate (strItem (strItems (m.payloads ++ more)).bytes)
      = .ok { m₀ with height := low32 m.height, view := low32 m.view, idx := m.idx,
                      timestamp := m.timestamp, blockHash := m.blockHash, sig := m.sig,
                      sig2 := m.sig2 } := by
  have hread := fun {i : Nat} {p : Bytes} (hi : (m.payloads ++ more)[i]? = some p) =>
    index_strItems hsize hi
  have hok := fun {p : Bytes} (hp : p ∈ m.payloads) =>
    sizeOk_of_mem_strItems hsize (List.mem_append_left more hp)
  have hidx : low32 m.idx = m.idx := by
    have := hm.idx_lt
    unfold low32
    omega
  have hheight := low32_lt m.height
  have hview := low32_lt m.view
  have hts := hm.timestamp_lt
  rw [PBFTMsg.populate, hread (i := 0) rfl, hread (i := 1) rfl, hread (i := 2) rfl,
    hread (i := 3) rfl, hread (i := 4) rfl, hread (i := 5) rfl, hread (i := 6) rfl]
  simp only [bind, Except.bind, pure, Except.pure]
  rw [toInt64_strItem (by omega), toInt64_strItem (by omega), hidx,
    toInt_strItem (by omega) (by have := hm.idx_lt; omega),
    toInt_strItem (by omega) (by omega),
    toHash_strItem m.blockHash (by unfold SizeOk sizeMax; omega),
    toBytes_strItem (hok (by simp [PBFTMsg.payloads])),
    toBytes_strItem (hok (by simp [PBFTMsg.payloads]))]

def PBFTMsg.Narrow {H S : Type} (m : PBFTMsg H S) : Prop := m.height < 2 ^ 32 ∧ m.view < 2 ^ 32

/-- `m'` carries every sent field of `m`. -/
def PBFTMsg.SameFields {H S : Type} (m m' : PBFTMsg H S) : Prop :=
  m'.height = m.height ∧ m'.view = m.view ∧ m'.idx = m.idx ∧ m'.timestamp = m.timestamp
    ∧ m'.blockHash = m.blockHash ∧ m'.sig = m.sig ∧ m'.sig2 = m.sig2

/-- `m'` carries every field of the status packet of `m`. -/
def PBFTMsg.SameStatus {H S : Type} (m m' : PBFTMsg H S) : Prop :=
  m'.height = m.height ∧ m'.view = m.view ∧ m'.idx = m.idx ∧ m'.blockHash = m.blockHash

/-- `m` and `m'` agree on the fields under `sig2`. -/
def PBFTMsg.SameHeader {H S : Type} (m m' : PBFTMsg H S) : Prop :=
  m.height = m'.height ∧ m.view = m'.view ∧ m.idx = m'.idx ∧ m.timestamp = m'.timestamp

def PBFTMsg.RoundTrips (m m₀ : PBFTMsg H256 Bytes) : Prop :=
  ∃ b m', m.encode = .ok b ∧ m₀.decode b = .ok m' ∧ m.SameFields m'

def PBFTMsg.StatusRoundTrips (m m₀ : PBFTMsg H256 Bytes) : Prop :=
  ∃ b m', m.encodeStatus = .ok b ∧ m₀.decodeStatus b = .ok m' ∧ m.SameStatus m'

def PrepareReq.RoundTrips {P : Type} (q q₀ : PrepareReq H256 Bytes Bytes P) : Prop :=
  ∃ b q', q.encode = .ok b ∧ q₀.decode b = .ok q' ∧ q.toPBFTMsg.SameFields q'.toPBFTMsg
    ∧ q'.block = q.block

theorem PBFTMsg.encode_eq (m : PBFTMsg H256 Bytes) :
    m.encode = .ok (listItem (strItem (strItems m.payloads).bytes)) := by
  rw [PBFTMsg.encode, m.streamRLPFields_eq]
  exact envelope_eq _

theorem PBFTMsg.decode_encode (m m₀ : PBFTMsg H256 Bytes) (hm : m.WellTyped) (hfit : Fits m.encode) :
    m₀.decode (listItem (strItem (strItems m.payloads).bytes))
      = .ok { m₀ with height := low32 m.height, view := low32 m.view, idx := m.idx,
                      timestamp := m.timestamp, blockHash := m.blockHash, sig := m.sig,
                      sig2 := m.sig2 } := by
  have hsize := sizeOk_of_fits (hfit _ m.encode_eq)
  have hbody := (hsize.mono (length_payload_le_listItem _)).mono (length_payload_le_strItem _)
  have hpop := m.populate_eq m₀ hm [] (by rw [List.append_nil]; exact hbody)
  rw [List.append_nil] at hpop
  rw [PBFTMsg.decode, openEnvelope_eq hsize]
  exact hpop

/-- **A message round-trips exactly when height and view fit 32 bits.** -/
theorem PBFTMsg.roundTrips_iff (m m₀ : PBFTMsg H256 Bytes) (hm : m.WellTyped) (hfit : Fits m.encode) :
    m.RoundTrips m₀ ↔ m.Narrow := by
  have hdec := m.decode_encode m₀ hm hfit
  constructor
  · rintro ⟨b, m', henc, hdec', hheight, hview, -⟩
    rw [m.encode_eq] at henc
    cases henc
    rw [hdec] at hdec'
    cases hdec'
    exact ⟨(low32_eq_iff hm.height_nonneg).mp hheight, (low32_eq_iff hm.view_nonneg).mp hview⟩
  · rintro ⟨hheight, hview⟩
    exact ⟨_, _, m.encode_eq, hdec, (low32_eq_iff hm.height_nonneg).mpr hheight,
      (low32_eq_iff hm.view_nonneg).mpr hview, rfl, rfl, rfl, rfl, rfl⟩

def PBFTMsg.statusPayloads (m : PBFTMsg H256 Bytes) : List Bytes :=
  [bigEndian (low32 m.height), bigEndian (low32 m.view), bigEndian (low32 m.idx),
    m.blockHash.data]

theorem PBFTMsg.encodeStatus_eq (m : PBFTMsg H256 Bytes) :
    m.encodeStatus = .ok (listItem (strItem (strItems m.statusPayloads).bytes)) := by
  simp only [PBFTMsg.encodeStatus, appendUnsigned_nil, appendHash_nil, bind, Except.bind]
  rw [envelope_eq]
  simp only [PBFTMsg.statusPayloads, low32, strItems_cons, strItems_nil, Items.bytes_cons,
    Items.bytes_nil, List.append_nil, List.nil_append, List.append_assoc]

theorem PBFTMsg.decodeStatus_encodeStatus (m m₀ : PBFTMsg H256 Bytes) (hm : m.WellTyped) :
    m₀.decodeStatus (listItem (strItem (strItems m.statusPayloads).bytes))
      = .ok { m₀ with height := low32 m.height, view := low32 m.view, idx := m.idx,
                      blockHash := m.blockHash } := by
  have hlen : (strItems m.statusPayloads).bytes.length ≤ 56 * 4 := by
    refine length_bytes_strItems_le m.statusPayloads fun p hp => ?_
    simp only [PBFTMsg.statusPayloads, List.mem_cons, List.not_mem_nil, or_false] at hp
    rcases hp with rfl | rfl | rfl | rfl
    · exact length_bigEndian_low32 _
    · exact length_bigEndian_low32 _
    · exact length_bigEndian_low32 _
    · rw [m.blockHash.length_data]
      omega
  have hbody : SizeOk (strItems m.statusPayloads).bytes.length := by
    unfold SizeOk sizeMax
    omega
  have hwrap : SizeOk (listItem (strItem (strItems m.statusPayloads).bytes)).length := by
    have hstr := length_strItem_le_of_le (strItems m.statusPayloads).bytes hbody
    have hlist := length_listItem_le (strItem (strItems m.statusPayloads).bytes)
      (by unfold SizeOk sizeMax; omega)
    unfold SizeOk sizeMax
    omega
  have hread := fun {i : Nat} {p : Bytes} (hi : m.statusPayloads[i]? = some p) =>
    index_strItems hbody hi
  have hidx : low32 m.idx = m.idx := by
    have := hm.idx_lt
    unfold low32
    omega
  have hheight := low32_lt m.height
  have hview := low32_lt m.view
  rw [PBFTMsg.decodeStatus, openEnvelope_eq hwrap]
  simp only [bind, Except.bind, pure, Except.pure]
  rw [hread (i := 0) rfl, hread (i := 1) rfl, hread (i := 2) rfl, hread (i := 3) rfl]
  simp only []
  rw [toInt64_strItem (by omega), toInt64_strItem (by omega), hidx,
    toInt_strItem (by omega) (by have := hm.idx_lt; omega),
    toHash_strItem m.blockHash (by unfold SizeOk sizeMax; omega)]

section PrepareReq

variable {P : Type}

theorem PrepareReq.encode_eq (q : PrepareReq H256 Bytes Bytes P) :
    q.encode = .ok (listItem (strItem (strItems (q.toPBFTMsg.payloads ++ [q.block])).bytes)) := by
  have hbase := q.toPBFTMsg.streamRLPFields_eq
  rw [PrepareReq.encode, PrepareReq.streamRLPFields, hbase]
  simp only [bind, Except.bind, appendBytes_nil]
  rw [envelope_eq]
  simp [strItems, Items.bytes]

/-- **A prepare request round-trips exactly when height and view fit 32 bits.** -/
theorem PrepareReq.roundTrips_iff (q q₀ : PrepareReq H256 Bytes Bytes P) (hq : q.toPBFTMsg.WellTyped)
    (hfit : Fits q.encode) : q.RoundTrips q₀ ↔ q.toPBFTMsg.Narrow := by
  have hsize := sizeOk_of_fits (hfit _ q.encode_eq)
  have hbody := (hsize.mono (length_payload_le_listItem _)).mono (length_payload_le_strItem _)
  have hpop := q.toPBFTMsg.populate_eq q₀.toPBFTMsg hq [q.block] hbody
  have hblock : index (strItem (strItems (q.toPBFTMsg.payloads ++ [q.block])).bytes) 7
      = .ok (strItem q.block) := index_strItems hbody rfl
  have hok : SizeOk q.block.length :=
    sizeOk_of_mem_strItems hbody (List.mem_append_right _ (List.mem_singleton_self _))
  have hdec : q₀.decode (listItem (strItem (strItems (q.toPBFTMsg.payloads ++ [q.block])).bytes))
      = .ok { q₀ with height := low32 q.height, view := low32 q.view, idx := q.idx,
                      timestamp := q.timestamp, blockHash := q.blockHash, sig := q.sig,
                      sig2 := q.sig2, block := q.block } := by
    rw [PrepareReq.decode, openEnvelope_eq hsize]
    simp only [bind, Except.bind]
    rw [PrepareReq.populate, hpop]
    simp only [bind, Except.bind, pure, Except.pure]
    rw [hblock]
    simp only []
    rw [toBytes_strItem hok]
  constructor
  · rintro ⟨b, q', henc, hdec', ⟨hheight, hview, -⟩, -⟩
    rw [q.encode_eq] at henc
    cases henc
    rw [hdec] at hdec'
    cases hdec'
    exact ⟨(low32_eq_iff hq.height_nonneg).mp hheight, (low32_eq_iff hq.view_nonneg).mp hview⟩
  · rintro ⟨hheight, hview⟩
    exact ⟨_, _, q.encode_eq, hdec, ⟨(low32_eq_iff hq.height_nonneg).mpr hheight,
      (low32_eq_iff hq.view_nonneg).mpr hview, rfl, rfl, rfl, rfl, rfl⟩, rfl⟩

end PrepareReq

theorem PBFTMsg.statusRoundTrips_iff (m m₀ : PBFTMsg H256 Bytes) (hm : m.WellTyped) :
    m.StatusRoundTrips m₀ ↔ m.Narrow := by
  have hdec := m.decodeStatus_encodeStatus m₀ hm
  constructor
  · rintro ⟨b, m', henc, hdec', hheight, hview, -⟩
    rw [m.encodeStatus_eq] at henc
    cases henc
    rw [hdec] at hdec'
    cases hdec'
    exact ⟨(low32_eq_iff hm.height_nonneg).mp hheight, (low32_eq_iff hm.view_nonneg).mp hview⟩
  · rintro ⟨hheight, hview⟩
    exact ⟨_, _, m.encodeStatus_eq, hdec, (low32_eq_iff hm.height_nonneg).mpr hheight,
      (low32_eq_iff hm.view_nonneg).mpr hview, rfl, rfl⟩

/-! ### The hashed fields -/

/-- The numbers whose bytes `fieldsWithoutBlock` hashes. -/
def PBFTMsg.hashedNumbers {H S : Type} (m : PBFTMsg H S) : List Nat :=
  [low32 m.height, low32 m.view, low32 m.idx, m.timestamp]

theorem PBFTMsg.fieldsWithoutBlock_eq {H S : Type} (m : PBFTMsg H S) :
    m.fieldsWithoutBlock = .ok (strItems (m.hashedNumbers.map bigEndian)).bytes := by
  simp only [PBFTMsg.fieldsWithoutBlock, streamFieldsWithoutBlock, appendUnsigned_nil,
    appendBigint_nil, bind, Except.bind, PBFTMsg.hashedNumbers, List.map_cons, List.map_nil,
    strItems_cons, strItems_nil, Items.bytes_cons, Items.bytes_nil, List.append_nil,
    List.nil_append, List.append_assoc]
  rfl

theorem eq_of_bytes_strItems {xs ys : List Nat} (hlen : xs.length = ys.length)
    (hbound : 56 * xs.length < 2 ^ 32)
    (hx : ∀ n ∈ xs, n < 256 ^ 55) (hy : ∀ n ∈ ys, n < 256 ^ 55)
    (h : (strItems (xs.map bigEndian)).bytes = (strItems (ys.map bigEndian)).bytes) : xs = ys := by
  have hsmall : ∀ zs : List Nat, (∀ n ∈ zs, n < 256 ^ 55) → zs.length = xs.length →
      SizeOk (strItems (zs.map bigEndian)).bytes.length := by
    intro zs hz hlen'
    have hle : (strItems (zs.map bigEndian)).bytes.length ≤ 56 * (zs.map bigEndian).length := by
      refine length_bytes_strItems_le _ fun p hp => ?_
      obtain ⟨n, hn, rfl⟩ := List.mem_map.mp hp
      rw [length_bigEndian]
      exact bytesRequired_le_iff.mpr (hz n hn)
    rw [List.length_map] at hle
    unfold SizeOk sizeMax
    omega
  have hread : ∀ zs : List Nat, (∀ n ∈ zs, n < 256 ^ 55) → zs.length = xs.length →
      ∀ i n, zs[i]? = some n →
        (index (strItem (strItems (zs.map bigEndian)).bytes) i >>= toInt 55) = .ok n := by
    intro zs hz hlen' i n hi
    have hget : (zs.map bigEndian)[i]? = some (bigEndian n) := by
      rw [List.getElem?_map, hi]
      rfl
    rw [index_strItems (hsmall zs hz hlen') hget]
    exact toInt_strItem (Nat.le_refl _) (hz n (List.mem_of_getElem? hi))
  apply List.ext_getElem hlen
  intro i hi hi'
  have hl := hread xs hx rfl i _ (List.getElem?_eq_getElem hi)
  have hr := hread ys hy hlen.symm i _ (List.getElem?_eq_getElem hi')
  rw [h, hr] at hl
  exact (Except.ok.inj hl).symm

/-- **The hashed bytes agree exactly when the low 32 bits of height and view,
    the index and the timestamp do.** -/
theorem PBFTMsg.fieldsWithoutBlock_eq_iff {H S : Type} (m m' : PBFTMsg H S) (hm : m.WellTyped)
    (hm' : m'.WellTyped) :
    m.fieldsWithoutBlock = m'.fieldsWithoutBlock ↔
      low32 m.height = low32 m'.height ∧ low32 m.view = low32 m'.view ∧ m.idx = m'.idx
        ∧ m.timestamp = m'.timestamp := by
  have hidx : ∀ k : PBFTMsg H S, k.WellTyped → low32 k.idx = k.idx := by
    intro k hk
    have := hk.idx_lt
    unfold low32
    omega
  have hbound : ∀ k : PBFTMsg H S, k.WellTyped → ∀ n ∈ k.hashedNumbers, n < 256 ^ 55 := by
    intro k hk n hn
    have hheight := low32_lt k.height
    have hview := low32_lt k.view
    have hidx := low32_lt k.idx
    have hts := hk.timestamp_lt
    simp only [PBFTMsg.hashedNumbers, List.mem_cons, List.not_mem_nil, or_false] at hn
    rcases hn with rfl | rfl | rfl | rfl <;> omega
  rw [m.fieldsWithoutBlock_eq, m'.fieldsWithoutBlock_eq]
  constructor
  · intro h
    have hlen : m.hashedNumbers.length = m'.hashedNumbers.length := rfl
    have hshort : 56 * m.hashedNumbers.length < 2 ^ 32 := by
      change 56 * 4 < 2 ^ 32
      omega
    have hnum := eq_of_bytes_strItems hlen hshort (hbound m hm) (hbound m' hm')
      (Except.ok.inj h)
    simp only [PBFTMsg.hashedNumbers, List.cons.injEq, and_true] at hnum
    rw [hidx m hm, hidx m' hm'] at hnum
    exact hnum
  · rintro ⟨hheight, hview, hidx', hts⟩
    simp only [PBFTMsg.hashedNumbers, hheight, hview, hidx', hts]

/-- **The message codec is exact on 32-bit heights and views and on no others.**
    For every message, prepare request and status packet the round trip holds
    exactly when height and view are below 2^32; two messages with different
    signed fields hash different bytes exactly when they do not agree on the
    index, the timestamp and the low 32 bits of height and view. -/
theorem message_codec_iff {P : Type} (m m' m₀ : PBFTMsg H256 Bytes) (q q₀ : PrepareReq H256 Bytes Bytes P)
    (hm : m.WellTyped) (hm' : m'.WellTyped) (hq : q.toPBFTMsg.WellTyped)
    (hfit : Fits m.encode) (hfitq : Fits q.encode) :
    (m.RoundTrips m₀ ↔ m.Narrow) ∧ (q.RoundTrips q₀ ↔ q.toPBFTMsg.Narrow)
      ∧ (m.StatusRoundTrips m₀ ↔ m.Narrow)
      ∧ ((¬ m.SameHeader m' → m.fieldsWithoutBlock ≠ m'.fieldsWithoutBlock) ↔
          (¬ m.SameHeader m' → ¬ (low32 m.height = low32 m'.height ∧ low32 m.view = low32 m'.view
            ∧ m.idx = m'.idx ∧ m.timestamp = m'.timestamp))) := by
  refine ⟨m.roundTrips_iff m₀ hm hfit, q.roundTrips_iff q₀ hq hfitq,
    m.statusRoundTrips_iff m₀ hm, ?_⟩
  rw [ne_eq, m.fieldsWithoutBlock_eq_iff m' hm hm']

/-- A commit request for block `h`, before it is signed. -/
def blankMessage (h : Int) : PBFTMsg H256 Bytes :=
  { height := h, view := 0, idx := 1, timestamp := 7,
    blockHash := ⟨List.replicate 32 0, length_zeros_32⟩, sig := [], sig2 := [] }

def blankPrepare (h : Int) : PrepareReq H256 Bytes Bytes Unit :=
  { toPBFTMsg := blankMessage h, block := [0xc0] }

theorem blankMessage_wellTyped {h : Int} (hlo : 0 ≤ h) (hhi : h < 2 ^ 63) :
    (blankMessage h).WellTyped where
  height_nonneg := hlo
  height_lt := hhi
  view_nonneg := Int.le_refl 0
  view_lt := show (0 : Int) < 2 ^ 63 by decide
  idx_lt := show 1 < 2 ^ 16 by decide
  timestamp_lt := show 7 < 2 ^ 256 by decide

theorem blankMessage_short (h : Int) : ∀ p ∈ (blankMessage h).payloads, p.length ≤ 55 := by
  intro p hp
  have hts : (bigEndian 7).length ≤ 55 := by
    rw [length_bigEndian]
    exact bytesRequired_le_iff.mpr (by omega)
  simp only [PBFTMsg.payloads, blankMessage, List.mem_cons, List.not_mem_nil, or_false] at hp
  rcases hp with rfl | rfl | rfl | rfl | rfl | rfl | rfl
  · exact length_bigEndian_low32 _
  · exact length_bigEndian_low32 _
  · exact length_bigEndian_low32 _
  · exact hts
  · simp
  · simp
  · simp

theorem blankMessage_fits (h : Int) : Fits (blankMessage h).encode := by
  rw [PBFTMsg.encode_eq]
  exact fits_strItems (blankMessage_short h) (by simp [PBFTMsg.payloads])

theorem blankPrepare_fits (h : Int) : Fits (blankPrepare h).encode := by
  rw [PrepareReq.encode_eq]
  refine fits_strItems ?_ (by simp [PBFTMsg.payloads])
  intro p hp
  rcases List.mem_append.mp hp with hp | hp
  · exact blankMessage_short h p hp
  · rw [List.mem_singleton] at hp
    subst hp
    exact show [0xc0].length ≤ 55 by decide

theorem message_codec_iff_at_five :
    ((blankMessage 5).RoundTrips (blankMessage 0) ↔ (blankMessage 5).Narrow)
      ∧ ((blankPrepare 5).RoundTrips (blankPrepare 0) ↔ (blankMessage 5).Narrow)
      ∧ ((blankMessage 5).StatusRoundTrips (blankMessage 0) ↔ (blankMessage 5).Narrow)
      ∧ ((¬ (blankMessage 5).SameHeader (blankMessage 6) →
            (blankMessage 5).fieldsWithoutBlock ≠ (blankMessage 6).fieldsWithoutBlock) ↔
          (¬ (blankMessage 5).SameHeader (blankMessage 6) →
            ¬ (low32 5 = low32 6 ∧ low32 0 = low32 0 ∧ 1 = 1 ∧ 7 = 7))) :=
  message_codec_iff (blankMessage 5) (blankMessage 6) (blankMessage 0) (blankPrepare 5)
    (blankPrepare 0) (blankMessage_wellTyped (by decide) (by decide))
    (blankMessage_wellTyped (by decide) (by decide))
    (blankMessage_wellTyped (by decide) (by decide)) (blankMessage_fits 5) (blankPrepare_fits 5)

/-- At height 2^32 nothing comes back: the field is written as zero, and the
    signed bytes are those of height zero. -/
theorem message_codec_truncates :
    (blankMessage (2 ^ 32)).WellTyped
      ∧ ¬ (blankMessage (2 ^ 32)).RoundTrips (blankMessage 0)
      ∧ ¬ (blankPrepare (2 ^ 32)).RoundTrips (blankPrepare 0)
      ∧ ¬ (blankMessage (2 ^ 32)).StatusRoundTrips (blankMessage 0)
      ∧ ¬ (blankMessage (2 ^ 32)).SameHeader (blankMessage 0)
      ∧ (blankMessage (2 ^ 32)).fieldsWithoutBlock = (blankMessage 0).fieldsWithoutBlock := by
  have hwt : (blankMessage (2 ^ 32)).WellTyped := blankMessage_wellTyped (by decide) (by decide)
  have hwt0 : (blankMessage 0).WellTyped := blankMessage_wellTyped (by decide) (by decide)
  have hwide : ¬ (blankMessage (2 ^ 32)).Narrow := fun h => absurd h.1 (by decide)
  refine ⟨hwt, ?_, ?_, ?_, ?_, ?_⟩
  · rw [PBFTMsg.roundTrips_iff _ _ hwt (blankMessage_fits _)]
    exact hwide
  · rw [PrepareReq.roundTrips_iff _ _ hwt (blankPrepare_fits _)]
    exact hwide
  · rw [PBFTMsg.statusRoundTrips_iff _ _ hwt]
    exact hwide
  · intro h
    exact absurd h.1 (by decide)
  · rw [PBFTMsg.fieldsWithoutBlock_eq_iff _ _ hwt hwt0]
    exact ⟨rfl, rfl, rfl, rfl⟩

end HieraChain.PBFT
