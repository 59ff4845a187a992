/-
  HieraChain/PBFTPacketCodec.lean
  ===============================
  **Round trips of the PBFT packets**: `PBFTMsgPacket` and `OPBFTMsgPacket`.

  The base class survives for every ttl below 128 and every label of one byte.
  `OPBFTMsgPacket` appends its forward nodes as the fifth item but reads them
  at the position of the fourth, which holds the label; the read yields the
  empty list, so the packet survives exactly when it has no forward node
  (`packet_codec_iff`).
-/
import HieraChain.PBFTCodec

namespace HieraChain.PBFT

open HieraChain.BigEndian HieraChain.RLP

/-! ### Round trip of the packets -/

/-- The payloads of the four fields of `PBFTMsgPacket`. -/
def PBFTMsgPacket.payloads {N : Type} (p : PBFTMsgPacket N) : List Bytes :=
  [bigEndian (low32 p.packetId.toNat), bigEndian (low32 p.extendTTL.ttl.toNat), p.data,
    bigEndian (low32 p.testLabel)]

theorem PBFTMsgPacket.streamRLPFields_eq {N : Type} (p : PBFTMsgPacket N) :
    p.streamRLPFields {} = .ok { mOut := (strItems p.payloads).bytes } := by
  simp only [PBFTMsgPacket.streamRLPFields, appendUnsigned_nil, appendBytes_nil, bind, Except.bind,
    PBFTMsgPacket.payloads, strItems_cons, strItems_nil, Items.bytes_cons, Items.bytes_nil,
    List.append_nil, List.nil_append, List.append_assoc]
  rfl

theorem low32_byte (b : UInt8) : low32 b.toNat = b.toNat := by
  have := b.toNat_lt
  unfold low32
  omega

theorem extendTTL_split {N : Type} (p : PBFTMsgPacket N) (httl : p.ttl < 128) :
    p.extendTTL.ttl &&& 0x7f = p.ttl
      ∧ (p.extendTTL.ttl &&& 0x80 != 0) = p.prepareWithEmptyBlock := by
  have hsplit : ∀ t : UInt8, t < 128 →
      (t ||| 0x80) &&& 0x7f = t ∧ ((t ||| 0x80) &&& 0x80 != 0) = true
        ∧ t &&& 0x7f = t ∧ (t &&& 0x80 != 0) = false := by
    intro t ht
    have hfin : ∀ n : Fin 256, UInt8.ofNat n < 128 →
        (UInt8.ofNat n ||| 0x80) &&& 0x7f = UInt8.ofNat n
          ∧ ((UInt8.ofNat n ||| 0x80) &&& 0x80 != 0) = true
          ∧ UInt8.ofNat n &&& 0x7f = UInt8.ofNat n ∧ (UInt8.ofNat n &&& 0x80 != 0) = false := by
      decide +kernel
    have := hfin ⟨t.toNat, t.toNat_lt⟩
    simp only [UInt8.ofNat_toNat] at this
    exact this ht
  obtain ⟨h1, h2, h3, h4⟩ := hsplit p.ttl httl
  unfold PBFTMsgPacket.extendTTL
  cases hmark : p.prepareWithEmptyBlock with
  | true => exact ⟨h1, h2⟩
  | false => exact ⟨h3, h4⟩

/-- `p'` carries every field that `PBFTMsgPacket` sends. -/
def PBFTMsgPacket.SameFields {N : Type} (p p' : PBFTMsgPacket N) : Prop :=
  p'.packetId = p.packetId ∧ p'.ttl = p.ttl ∧ p'.prepareWithEmptyBlock = p.prepareWithEmptyBlock
    ∧ p'.data = p.data ∧ p'.testLabel = p.testLabel

theorem PBFTMsgPacket.populate_eq {N : Type} (p p₀ : PBFTMsgPacket N) (httl : p.ttl < 128)
    (hlo : 0 ≤ p.testLabel) (hhi : p.testLabel ≤ 255) {body : Bytes}
    (hread : ∀ i v, p.payloads[i]? = some v → index (strItem body) i = .ok (strItem v))
    (hdata : SizeOk p.data.length) :
    p₀.populate (strItem body)
      = .ok { p₀ with packetId := p.packetId, ttl := p.ttl,
                      prepareWithEmptyBlock := p.prepareWithEmptyBlock, data := p.data,
                      testLabel := p.testLabel } := by
  obtain ⟨httl', hmark⟩ := extendTTL_split p httl
  have hlabel : low32 p.testLabel < 256 ∧ (low32 p.testLabel : Int) = p.testLabel := by
    unfold low32
    omega
  have hid := p.packetId.toNat_lt
  have hext := p.extendTTL.ttl.toNat_lt
  rw [PBFTMsgPacket.populate, hread 0 _ rfl, hread 1 _ rfl, hread 2 _ rfl, hread 3 _ rfl]
  simp only [bind, Except.bind, pure, Except.pure]
  rw [low32_byte, low32_byte, toInt_strItem (by omega) (by omega),
    toInt_strItem (by omega) (by omega), toInt_strItem (by omega) (by omega),
    toBytes_strItem hdata]
  simp only [UInt8.ofNat_toNat, httl', hmark, hlabel.2]

def PBFTMsgPacket.RoundTrips {N : Type} (p p₀ : PBFTMsgPacket N) : Prop :=
  ∃ b p', p.encode = .ok b ∧ p₀.decode b = .ok p' ∧ p.SameFields p'

theorem PBFTMsgPacket.encode_eq {N : Type} (p : PBFTMsgPacket N) :
    p.encode = .ok (listItem (strItem (strItems p.payloads).bytes)) := by
  rw [PBFTMsgPacket.encode, p.streamRLPFields_eq]
  exact envelope_eq _

theorem PBFTMsgPacket.roundTrips {N : Type} (p p₀ : PBFTMsgPacket N) (httl : p.ttl < 128)
    (hlo : 0 ≤ p.testLabel) (hhi : p.testLabel ≤ 255) (hfit : Fits p.encode) :
    p.RoundTrips p₀ := by
  have hsize := sizeOk_of_fits (hfit _ p.encode_eq)
  have hbody := (hsize.mono (length_payload_le_listItem _)).mono (length_payload_le_strItem _)
  have hpop := p.populate_eq p₀ httl hlo hhi (fun i v hi => index_strItems hbody hi)
    (sizeOk_of_mem_strItems hbody (by simp [PBFTMsgPacket.payloads]))
  have hdec : p₀.decode (listItem (strItem (strItems p.payloads).bytes))
      = p₀.populate (strItem (strItems p.payloads).bytes) := by
    rw [PBFTMsgPacket.decode, openEnvelope_eq hsize]
    rfl
  exact ⟨_, _, p.encode_eq, hdec.trans hpop, rfl, rfl, rfl, rfl, rfl⟩

namespace OPBFTMsgPacket

/-- The items of `OPBFTMsgPacket`: the base fields and the list of forward nodes. -/
def items (p : PBFTMsgPacket H512) : Items :=
  let nodes := (p.forwardNodes.map fun x => strItem x.data).flatten
  strItems p.payloads ++ [(listItem nodes, nodes)]

theorem bytes_append (a b : Items) : Items.bytes (a ++ b) = a.bytes ++ b.bytes := by
  simp [Items.bytes]

theorem encode_eq (p : PBFTMsgPacket H512) :
    encode p = .ok (listItem (strItem (items p).bytes)) := by
  rw [encode, streamRLPFields, p.streamRLPFields_eq]
  simp only [bind, Except.bind]
  rw [appendVector_nil]
  simp only [items, bytes_append, Items.bytes_cons, Items.bytes_nil, List.append_nil]
  exact envelope_eq _

theorem index_items {p : PBFTMsgPacket H512} (hsize : SizeOk (items p).bytes.length) {i : Nat}
    {it : Bytes × Bytes} (hi : (items p)[i]? = some it) :
    index (strItem (items p).bytes) i = .ok it.1 := by
  refine index_strItem hsize ?_ ?_ hi
  · intro it hit hok
    rcases List.mem_append.mp hit with hit | hit
    · rw [mem_strItems hit]
      exact strItem_isItem hok
    · rw [List.mem_singleton.mp hit] at hok ⊢
      exact listItem_isItem hok
  · intro it hit
    rcases List.mem_append.mp hit with hit | hit
    · rw [mem_strItems hit]
      exact length_payload_le_strItem _
    · rw [List.mem_singleton.mp hit]
      exact length_payload_le_listItem _

theorem decode_encode (p p₀ : PBFTMsgPacket H512) (httl : p.ttl < 128)
    (hlo : 0 ≤ p.testLabel) (hhi : p.testLabel ≤ 255) (hfit : Fits (encode p)) :
    decode p₀ (listItem (strItem (items p).bytes))
      = .ok { p₀ with packetId := p.packetId, ttl := p.ttl,
                      prepareWithEmptyBlock := p.prepareWithEmptyBlock, data := p.data,
                      testLabel := p.testLabel, forwardNodes := [] } := by
  have hsize := sizeOk_of_fits (hfit _ (encode_eq p))
  have hbody := (hsize.mono (length_payload_le_listItem _)).mono (length_payload_le_strItem _)
  have hread : ∀ i v, p.payloads[i]? = some v →
      index (strItem (items p).bytes) i = .ok (strItem v) := by
    intro i v hi
    have hlt : i < (strItems p.payloads).length := by
      rw [strItems, List.length_map]
      exact (List.getElem?_eq_some_iff.mp hi).1
    have hget : (items p)[i]? = some (strItem v, v) := by
      rw [items, List.getElem?_append_left hlt, strItems, List.getElem?_map, hi]
      rfl
    exact index_items hbody hget
  have hdata : SizeOk p.data.length := by
    have hmem : (strItem p.data, p.data) ∈ items p :=
      List.mem_append_left _ (List.mem_map.mpr ⟨p.data, by simp [PBFTMsgPacket.payloads], rfl⟩)
    exact hbody.mono (Nat.le_trans (length_payload_le_strItem _) (length_item_le_bytes hmem))
  have hpop := p.populate_eq p₀ httl hlo hhi hread hdata
  have hlabel : SizeOk (bigEndian (low32 p.testLabel)).length := by
    have := length_bigEndian_low32 p.testLabel
    unfold SizeOk sizeMax
    omega
  have hnodes : toVector (toHashLax 64) (strItem (bigEndian (low32 p.testLabel))) = .ok [] := by
    rw [toVector, (isData_ne_nil (isData_strItem hlabel)).2]
    rfl
  rw [decode, openEnvelope_eq hsize]
  simp only [bind, Except.bind]
  rw [populate, hpop]
  simp only [bind, Except.bind]
  rw [hread 3 _ rfl]
  simp only []
  rw [hnodes]
  rfl

def RoundTrips (p p₀ : PBFTMsgPacket H512) : Prop :=
  ∃ b p', encode p = .ok b ∧ decode p₀ b = .ok p' ∧ p.SameFields p'
    ∧ p'.forwardNodes = p.forwardNodes

end OPBFTMsgPacket

/-- **The packet codec is exact, except that `OPBFTMsgPacket` loses its forward
    nodes**: it restores the packet exactly when there are none. -/
theorem packet_codec_iff {N : Type} (p p₀ : PBFTMsgPacket N) (q q₀ : PBFTMsgPacket H512)
    (hp : p.ttl < 128 ∧ 0 ≤ p.testLabel ∧ p.testLabel ≤ 255)
    (hq : q.ttl < 128 ∧ 0 ≤ q.testLabel ∧ q.testLabel ≤ 255)
    (hfit : Fits p.encode) (hfitq : Fits (OPBFTMsgPacket.encode q)) :
    p.RoundTrips p₀ ∧ (OPBFTMsgPacket.RoundTrips q q₀ ↔ q.forwardNodes = []) := by
  obtain ⟨hpttl, hplo, hphi⟩ := hp
  obtain ⟨hqttl, hqlo, hqhi⟩ := hq
  have hdec := OPBFTMsgPacket.decode_encode q q₀ hqttl hqlo hqhi hfitq
  refine ⟨p.roundTrips p₀ hpttl hplo hphi hfit, ?_⟩
  constructor
  · rintro ⟨b, q', henc, hdec', -, hnodes⟩
    rw [OPBFTMsgPacket.encode_eq] at henc
    cases henc
    rw [hdec] at hdec'
    cases hdec'
    exact hnodes.symm
  · intro hnone
    exact ⟨_, _, OPBFTMsgPacket.encode_eq q, hdec, ⟨rfl, rfl, rfl, rfl, rfl⟩, hnone.symm⟩

/-- A commit packet that still has the nodes `v` to reach. -/
def forwardedPacket (v : List H512) : PBFTMsgPacket H512 :=
  { nodeId := ⟨List.replicate 64 0, List.length_replicate⟩, packetId := 2, data := [1, 2, 3],
    forwardNodes := v }

theorem forwardedPacket_short (v : List H512) :
    ∀ b ∈ (forwardedPacket v).payloads, b.length ≤ 55 := by
  intro b hb
  simp only [PBFTMsgPacket.payloads, forwardedPacket, List.mem_cons, List.not_mem_nil,
    or_false] at hb
  rcases hb with rfl | rfl | rfl | rfl
  · exact length_bigEndian_low32 _
  · exact length_bigEndian_low32 _
  · simp
  · exact length_bigEndian_low32 _

theorem forwardedPacket_fits {v : List H512} (hv : v.length ≤ 1000) :
    Fits (forwardedPacket v).encode ∧ Fits (OPBFTMsgPacket.encode (forwardedPacket v)) := by
  have hshort := forwardedPacket_short v
  constructor
  · rw [PBFTMsgPacket.encode_eq]
    exact fits_strItems hshort (by simp [PBFTMsgPacket.payloads])
  · rw [OPBFTMsgPacket.encode_eq]
    intro b hb
    cases hb
    have hbase := length_bytes_strItems_le _ hshort
    have hlen4 : (forwardedPacket v).payloads.length = 4 := rfl
    have hnodes : ((v.map fun x => strItem x.data).flatten).length ≤ 73 * v.length := by
      clear hshort hbase hlen4
      induction v with
      | nil => simp
      | cons x v ih =>
        have hx := length_strItem_le_of_le x.data
          (by rw [x.length_data]; unfold SizeOk sizeMax; omega)
        rw [x.length_data] at hx
        have hrest := ih (by simp only [List.length_cons] at hv; omega)
        simp only [List.map_cons, List.flatten_cons, List.length_append, List.length_cons]
        omega
    have hlist := length_listItem_le ((v.map fun x => strItem x.data).flatten)
      (by unfold SizeOk sizeMax; omega)
    have hbody : (OPBFTMsgPacket.items (forwardedPacket v)).bytes.length
        = (strItems (forwardedPacket v).payloads).bytes.length
          + (listItem (v.map fun x => strItem x.data).flatten).length := by
      simp only [OPBFTMsgPacket.items, OPBFTMsgPacket.bytes_append, Items.bytes_cons,
        Items.bytes_nil, List.append_nil, List.length_append]
      rfl
    have hstr := length_strItem_le_of_le (OPBFTMsgPacket.items (forwardedPacket v)).bytes
      (by unfold SizeOk sizeMax; omega)
    have hwrap := length_listItem_le (strItem (OPBFTMsgPacket.items (forwardedPacket v)).bytes)
      (by unfold SizeOk sizeMax; omega)
    unfold vectorMaxSize
    omega

theorem packet_codec_iff_without_nodes :
    (forwardedPacket []).RoundTrips (forwardedPacket [])
      ∧ (OPBFTMsgPacket.RoundTrips (forwardedPacket []) (forwardedPacket []) ↔
          (forwardedPacket []).forwardNodes = []) :=
  packet_codec_iff (forwardedPacket []) (forwardedPacket []) (forwardedPacket [])
    (forwardedPacket []) ⟨by decide, by decide, by decide⟩ ⟨by decide, by decide, by decide⟩
    (forwardedPacket_fits (by decide)).1 (forwardedPacket_fits (by decide)).2

/-- One forward node is lost. -/
theorem packet_codec_drops_node :
    let node : H512 := ⟨List.replicate 64 1, List.length_replicate⟩
    ¬ OPBFTMsgPacket.RoundTrips (forwardedPacket [node]) (forwardedPacket []) := by
  intro node
  rintro ⟨b, p', henc, hdec, -, hnodes⟩
  have hfit := (forwardedPacket_fits (v := [node]) (by decide)).2
  have hread := OPBFTMsgPacket.decode_encode (forwardedPacket [node]) (forwardedPacket [])
    (by decide) (by decide) (by decide) hfit
  rw [OPBFTMsgPacket.encode_eq] at henc
  cases henc
  rw [hread] at hdec
  cases hdec
  cases hnodes

end HieraChain.PBFT
