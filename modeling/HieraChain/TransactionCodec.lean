/-
  HieraChain/TransactionCodec.lean
  ================================
  **How exact the transaction codec is.**

  `Fields`, `FieldsRC2` and `Accepted` say what an accepted byte string holds,
  item by item; decoding succeeds exactly on them.  Encoding writes the list of
  the strings `payloads`, so it decodes again (`decode_encode`).  The other way
  around every item that is read is written as it was, except for an address
  or extra data that came as a list, and except for the items behind the
  signature, which are never read (`encode_eq_iff`).
-/
import Mathlib.Data.List.Forall2
import HieraChain.PBFTCodec
import HieraChain.RLPCanonical
import HieraChain.Transaction

namespace HieraChain.Eth

open HieraChain.BigEndian HieraChain.RLP
open HieraChain.PBFT (strItems vectorMaxSize length_payload_le_listItem length_listItem_le length_payload_le_strItem
  sizeOk_of_mem_strItems mem_strItems strItems_cons strItems_nil)

/-! ### Reads that succeed -/

theorem ok_of_bind {ε α β : Type} {x : Except ε α} {f : α → Except ε β} {b : β}
    (h : (x >>= f) = .ok b) : ∃ a, x = .ok a ∧ f a = .ok b := by
  cases x with
  | ok a => exact ⟨a, rfl, h⟩
  | error e => cases h

theorem mapError_ok {ε ε' α : Type} {f : ε → ε'} {x : Except ε α} {a : α} :
    x.mapError f = .ok a ↔ x = .ok a := by
  cases x with
  | ok b => simp [Except.mapError]
  | error e => exact ⟨nofun, nofun⟩

theorem ofRLP_ok {α : Type} {x : Except RLPError α} {a : α} : ofRLP x = .ok a ↔ x = .ok a :=
  mapError_ok

theorem atField_ok {α : Type} {texts : Transaction.FormatTexts} {rlp : Bytes} {field : String}
    {x : Except TxException α} {a : α} : texts.atField rlp field x = .ok a ↔ x = .ok a :=
  mapError_ok

theorem read_ok {α : Type} {texts : Transaction.FormatTexts} {rlp : Bytes} {field : String}
    {x : Except RLPError α} {a : α} : texts.read rlp field x = .ok a ↔ x = .ok a := by
  rw [Transaction.FormatTexts.read, atField_ok, ofRLP_ok]

/-- Item `i` of `rlp` is there and reads as `a`. -/
def ItemReads {α : Type} (rlp : Bytes) (i : Nat) (convert : Bytes → Except RLPError α) (a : α) :
    Prop := ∃ x, index rlp i = .ok x ∧ convert x = .ok a

theorem itemReads_iff {α : Type} {rlp : Bytes} {i : Nat} {convert : Bytes → Except RLPError α}
    {a : α} : (do convert (← index rlp i)) = .ok a ↔ ItemReads rlp i convert a := by
  constructor
  · exact ok_of_bind
  · rintro ⟨x, hx, hconv⟩
    rw [hx]
    exact hconv

/-- `encode` and `SignatureFromRLP` are mutually inverse. -/
structure SignatureScheme.Inverse {H S : Type} (c : SignatureScheme H S) : Prop where
  read_written : ∀ rlp start sig,
    index rlp start = .ok (strItem (c.strings sig).1) →
    index rlp (start + 1) = .ok (strItem (c.strings sig).2.1) →
    index rlp (start + 2) = .ok (strItem (c.strings sig).2.2) →
    c.fromRLP rlp start = .ok sig
  written_read : ∀ rlp start sig, c.fromRLP rlp start = .ok sig →
    index rlp start = .ok (strItem (c.strings sig).1)
      ∧ index rlp (start + 1) = .ok (strItem (c.strings sig).2.1)
      ∧ index rlp (start + 2) = .ok (strItem (c.strings sig).2.2)

namespace Transaction

/-- Items 0 to 6 of `rlp` hold the fields of `t`. -/
structure Fields {S : Type} (rlp : Bytes) (t : Transaction S) : Prop where
  list : isList rlp = true
  nonce : ItemReads rlp 0 toU256 t.nonce
  gasPrice : ItemReads rlp 1 toU256 t.gasPrice
  gas : ItemReads rlp 2 toU256 t.gas
  blockLimit : ItemReads rlp 3 toU256 t.blockLimit
  receiveAddress : ∃ x, index rlp 4 = .ok x ∧
    ((isEmpty x = true ∧ t.type = .ContractCreation)
      ∨ (isEmpty x = false ∧ t.type = .MessageCall ∧ toHash 20 x = .ok t.receiveAddress))
  value : ItemReads rlp 5 toU256 t.value
  data : ∃ x, index rlp 6 = .ok x ∧ isData x = true ∧ toBytes x = .ok t.data

/-- Items 7 to 9 of `rlp` hold the RC2 fields of `t`. -/
structure FieldsRC2 {S : Type} (rlp : Bytes) (t : Transaction S) : Prop where
  chainId : ItemReads rlp 7 toU256 t.chainId
  groupId : ItemReads rlp 8 toU256 t.groupId
  extraData : ItemReads rlp 9 toBytes t.extraData

/-- The fields as `decodeFields` returns them. -/
def common {S : Type} (t : Transaction S) : Transaction S :=
  { type := t.type, nonce := t.nonce, gasPrice := t.gasPrice, gas := t.gas
    blockLimit := t.blockLimit, value := t.value, data := t.data
    receiveAddress := if t.type = .MessageCall then t.receiveAddress else Address.zero }

section Decoding

variable {H S : Type} {c : SignatureScheme H S} {rlp : Bytes} {texts : FormatTexts}

theorem decodeReceiveAddress_spec {type : TransactionType} {address : Address}
    (h : decodeReceiveAddress texts rlp = .ok (type, address)) :
    ∃ x, index rlp 4 = .ok x ∧
      ((isEmpty x = true ∧ type = .ContractCreation)
        ∨ (isEmpty x = false ∧ type = .MessageCall ∧ toHash 20 x = .ok address)) := by
  obtain ⟨x, hx, h⟩ := ok_of_bind h
  refine ⟨x, read_ok.mp hx, ?_⟩
  cases hempty : isEmpty x with
  | true =>
    rw [if_pos hempty] at h
    cases h
    exact Or.inl ⟨rfl, rfl⟩
  | false =>
    rw [if_neg (by rw [hempty]; exact Bool.false_ne_true)] at h
    obtain ⟨a, ha, h⟩ := ok_of_bind h
    cases h
    exact Or.inr ⟨rfl, rfl, read_ok.mp ha⟩

theorem decodeData_spec {data : Bytes} (h : decodeData texts rlp = .ok data) :
    ∃ x, index rlp 6 = .ok x ∧ isData x = true ∧ toBytes x = .ok data := by
  obtain ⟨x, hx, h⟩ := ok_of_bind h
  refine ⟨x, read_ok.mp hx, ?_⟩
  split at h
  next hdata => exact ⟨hdata, read_ok.mp h⟩
  next => cases h

theorem decodeFields_spec {t : Transaction S} (h : decodeFields texts rlp = .ok t) :
    Fields rlp t := by
  unfold decodeFields at h
  split at h
  next hlist =>
    obtain ⟨nonce, hnonce, h⟩ := ok_of_bind h
    obtain ⟨gasPrice, hgasPrice, h⟩ := ok_of_bind h
    obtain ⟨gas, hgas, h⟩ := ok_of_bind h
    obtain ⟨blockLimit, hblockLimit, h⟩ := ok_of_bind h
    obtain ⟨⟨type, receiveAddress⟩, haddress, h⟩ := ok_of_bind h
    obtain ⟨value, hvalue, h⟩ := ok_of_bind h
    obtain ⟨data, hdata, h⟩ := ok_of_bind h
    cases h
    rw [read_ok, itemReads_iff] at hnonce hgasPrice hgas hblockLimit hvalue
    exact ⟨hlist, hnonce, hgasPrice, hgas, hblockLimit, decodeReceiveAddress_spec haddress, hvalue,
      decodeData_spec hdata⟩
  next => cases h

theorem read_item {α : Type} {i : Nat} {convert : Bytes → Except RLPError α} {a : α}
    (h : ItemReads rlp i convert a) (field : String) :
    texts.read rlp field (do convert (← index rlp i)) = .ok a :=
  read_ok.mpr (itemReads_iff.mpr h)

theorem Fields.decodeFields_eq {t : Transaction S} (h : Fields rlp t) :
    decodeFields texts rlp = .ok t.common := by
  have haddress : decodeReceiveAddress texts rlp
      = .ok (t.type, if t.type = .MessageCall then t.receiveAddress else Address.zero) := by
    obtain ⟨x, hx, ⟨hempty, htype⟩ | ⟨hempty, htype, hhash⟩⟩ := h.receiveAddress
    · rw [decodeReceiveAddress, read_ok.mpr hx, htype]
      exact if_pos hempty
    · rw [decodeReceiveAddress, read_ok.mpr hx, htype]
      change (if isEmpty x = true then _ else _) = _
      rw [hempty, read_ok.mpr hhash]
      rfl
  have hdata : decodeData texts rlp = .ok t.data := by
    obtain ⟨x, hx, hdata, hbytes⟩ := h.data
    rw [decodeData, read_ok.mpr hx]
    change (if isData x = true then _ else _) = _
    rw [if_pos hdata, read_ok.mpr hbytes]
  rw [decodeFields, if_pos h.list, read_item h.nonce, read_item h.gasPrice, read_item h.gas,
    read_item h.blockLimit, haddress]
  change (do let value ← texts.read rlp "value" (do toU256 (← index rlp 5)); _) = _
  rw [read_item h.value, hdata]
  rfl

/-- What `decodeRLP` accepts, and the transaction it returns for it. -/
structure Accepted (c : SignatureScheme H S) (version : Version) (check : CheckTransaction)
    (rlp : Bytes) (t : Transaction S) : Prop where
  fields : Fields rlp t
  fieldsRC2 : version = .RC2 → FieldsRC2 rlp t
  signature : ∃ vrs, t.vrs = some vrs ∧ c.fromRLP rlp version.fieldCountWithOutSig = .ok vrs
    ∧ checkSignature c version check t vrs = .ok ()

theorem decodeSignature_spec {version : Version} {check : CheckTransaction} {start : Nat}
    {t₀ t : Transaction S} (h : decodeSignature c texts version check rlp start t₀ = .ok t) :
    ∃ vrs, t = { t₀ with vrs := some vrs } ∧ c.fromRLP rlp start = .ok vrs
      ∧ checkSignature c version check t vrs = .ok () := by
  obtain ⟨vrs, hvrs, h⟩ := ok_of_bind h
  obtain ⟨u, hcheck, h⟩ := ok_of_bind h
  cases h
  exact ⟨vrs, rfl, read_ok.mp hvrs, atField_ok.mp hcheck⟩

theorem decodeRLP_spec {version : Version} {check : CheckTransaction} {t : Transaction S}
    (h : decodeRLP c version check rlp = .ok t) : Accepted c version check rlp t := by
  cases version with
  | RC1 =>
    obtain ⟨t₀, hfields, h⟩ := ok_of_bind h
    obtain ⟨vrs, rfl, hvrs, hcheck⟩ := decodeSignature_spec h
    obtain ⟨h0, h1, h2, h3, h4, h5, h6, h7⟩ := decodeFields_spec hfields
    exact ⟨⟨h0, h1, h2, h3, h4, h5, h6, h7⟩, nofun, vrs, rfl, hvrs, hcheck⟩
  | RC2 =>
    obtain ⟨t₀, hfields, h⟩ := ok_of_bind h
    obtain ⟨chainId, hchainId, h⟩ := ok_of_bind h
    obtain ⟨groupId, hgroupId, h⟩ := ok_of_bind h
    obtain ⟨extraData, hextraData, h⟩ := ok_of_bind h
    obtain ⟨vrs, rfl, hvrs, hcheck⟩ := decodeSignature_spec h
    obtain ⟨h0, h1, h2, h3, h4, h5, h6, h7⟩ := decodeFields_spec hfields
    rw [read_ok, itemReads_iff] at hchainId hgroupId hextraData
    exact ⟨⟨h0, h1, h2, h3, h4, h5, h6, h7⟩, fun _ => ⟨hchainId, hgroupId, hextraData⟩, vrs, rfl,
      hvrs, hcheck⟩

theorem decodeSignature_eq {version : Version} {check : CheckTransaction} {start : Nat}
    {t : Transaction S} {vrs : S} (hread : c.fromRLP rlp start = .ok vrs)
    (hcheck : checkSignature c version check { t with vrs := some vrs } vrs = .ok ()) :
    decodeSignature c texts version check rlp start t = .ok { t with vrs := some vrs } := by
  rw [decodeSignature, read_ok.mpr hread]
  change (do
    let _ ← texts.atField rlp "signature"
      (checkSignature c version check { t with vrs := some vrs } vrs)
    pure { t with vrs := some vrs }) = _
  rw [hcheck]
  rfl

def commonRC2 (t : Transaction S) : Transaction S :=
  { t.common with chainId := t.chainId, groupId := t.groupId, extraData := t.extraData }

/-- The transaction as a decoder of the format returns it: the caches and the
    fields that the format does not carry are at their defaults. -/
def restored (version : Version) (t : Transaction S) : Transaction S :=
  match version with
  | .RC1 => { t.common with vrs := t.vrs }
  | .RC2 => { t.commonRC2 with vrs := t.vrs }

theorem restored_streamFields (version : Version) (t : Transaction S) :
    (t.restored version).streamFields = t.streamFields := by
  funext s
  cases version with
  | RC1 =>
    by_cases hcall : t.type = .MessageCall
    · simp only [streamFields, restored, common, hcall, if_true]
    · simp only [streamFields, restored, common, hcall, if_false]
  | RC2 =>
    by_cases hcall : t.type = .MessageCall
    · simp only [streamFields, restored, commonRC2, common, hcall, if_true]
    · simp only [streamFields, restored, commonRC2, common, hcall, if_false]

theorem encode_restored (version : Version) (t : Transaction S) (sig : IncludeSignature) :
    (t.restored version).encode c version sig = t.encode c version sig := by
  have hfields := t.restored_streamFields version
  cases version with
  | RC1 =>
    rw [encode, encode, encodeRC1, encodeRC1, hfields]
    rfl
  | RC2 =>
    rw [encode, encode, encodeRC2, encodeRC2, hfields]
    rfl

theorem checkSignature_restored (version : Version) (check : CheckTransaction) (t : Transaction S)
    (vrs : S) :
    checkSignature c version check (t.restored version) vrs = checkSignature c version check t vrs := by
  have hsender : (t.restored version).sender c version = t.sender c version := by
    have hvrs : (t.restored version).vrs = t.vrs := by cases version <;> rfl
    rw [sender, sender, hvrs, hash, hash, encode_restored]
  rw [checkSignature, checkSignature, hsender]

theorem Accepted.decodeRLP_eq {version : Version} {check : CheckTransaction} {t : Transaction S}
    (h : Accepted c version check rlp t) :
    decodeRLP c version check rlp = .ok (t.restored version) := by
  obtain ⟨vrs, hvrs, hread, hcheck⟩ := h.signature
  rw [← checkSignature_restored] at hcheck
  cases version with
  | RC1 =>
    have ht : { t.common with vrs := some vrs } = t.restored .RC1 := by rw [restored, hvrs]
    rw [decodeRLP, decodeRC1, h.fields.decodeFields_eq]
    change decodeSignature c textsRC1 .RC1 check rlp 7 t.common = _
    have hread : c.fromRLP rlp 7 = .ok vrs := hread
    rw [decodeSignature_eq hread (by rw [ht]; exact hcheck), ht]
  | RC2 =>
    have ht : { t.commonRC2 with vrs := some vrs } = t.restored .RC2 := by rw [restored, hvrs]
    obtain ⟨hchainId, hgroupId, hextraData⟩ := h.fieldsRC2 rfl
    rw [decodeRLP, decodeRC2, h.fields.decodeFields_eq]
    change (do
      let chainId ← textsRC2.read rlp "chainId" (do toU256 (← index rlp 7))
      _) = _
    rw [read_item hchainId, read_item hgroupId, read_item hextraData]
    change decodeSignature c textsRC2 .RC2 check rlp 10 t.commonRC2 = _
    have hread : c.fromRLP rlp 10 = .ok vrs := hread
    rw [decodeSignature_eq hread (by rw [ht]; exact hcheck), ht]

end Decoding

/-! ### What is written -/

def fieldStrings {S : Type} (t : Transaction S) : List Bytes :=
  [bigEndian t.nonce.toNat, bigEndian t.gasPrice.toNat, bigEndian t.gas.toNat,
   bigEndian t.blockLimit.toNat,
   if t.type = .MessageCall then t.receiveAddress.data else [],
   bigEndian t.value.toNat, t.data]

def fieldStringsRC2 {S : Type} (t : Transaction S) : List Bytes :=
  [bigEndian t.chainId.toNat, bigEndian t.groupId.toNat, t.extraData]

def signatureStrings {H S : Type} (c : SignatureScheme H S) (vrs : S) : List Bytes :=
  [(c.strings vrs).1, (c.strings vrs).2.1, (c.strings vrs).2.2]

def payloads {H S : Type} (c : SignatureScheme H S) (version : Version) (t : Transaction S)
    (vrs : S) : List Bytes :=
  match version with
  | .RC1 => t.fieldStrings ++ signatureStrings c vrs
  | .RC2 => t.fieldStrings ++ (t.fieldStringsRC2 ++ signatureStrings c vrs)

theorem appendBigint_eq_appendBytes (s : RLPStream) (i : Nat) :
    appendBigint s i = appendBytes s (bigEndian i) := by
  rw [appendBigint_eq, appendBytes_eq]

theorem bytes_strItems (ps : List Bytes) : (strItems ps).bytes = (ps.map strItem).flatten := by
  induction ps with
  | nil => rfl
  | cons p ps ih => rw [strItems_cons, Items.bytes_cons, ih, List.map_cons, List.flatten_cons]

section Encoding

variable {H S : Type} {c : SignatureScheme H S}

theorem streamFields_eq (t : Transaction S) (s : RLPStream) :
    t.streamFields s = t.fieldStrings.foldlM appendBytes s := by
  simp only [streamFields, fieldStrings, appendBigint_eq_appendBytes, List.foldlM_cons,
    List.foldlM_nil, bind_pure]
  by_cases hcall : t.type = .MessageCall
  · simp only [hcall, if_true, appendHash]
  · simp only [hcall, if_false]

theorem streamFieldsRC2_eq (t : Transaction S) (s : RLPStream) :
    t.streamFieldsRC2 s = t.fieldStringsRC2.foldlM appendBytes s := by
  simp only [streamFieldsRC2, fieldStringsRC2, appendBigint_eq_appendBytes, List.foldlM_cons,
    List.foldlM_nil, bind_pure]

theorem streamSignature_eq {t : Transaction S} {vrs : S} (hvrs : t.vrs = some vrs) (s : RLPStream) :
    t.streamSignature c .WithSignature s
      = ofRLP ((signatureStrings c vrs).foldlM appendBytes s) := by
  simp only [streamSignature, hvrs, SignatureScheme.encode, signatureStrings, List.foldlM_cons,
    List.foldlM_nil, bind_pure]

theorem ofRLP_bind {α β : Type} (x : Except RLPError α) (f : α → Except RLPError β) :
    (ofRLP x >>= fun a => ofRLP (f a)) = ofRLP (x >>= f) := by
  cases x <;> rfl

/-- **A signed transaction is written as the list of its strings.** -/
theorem encode_eq {version : Version} {t : Transaction S} {vrs : S}
    (htype : t.type ≠ .NullTransaction) (hvrs : t.vrs = some vrs) :
    t.encode c version = .ok (listItem (strItems (t.payloads c version vrs)).bytes) := by
  have hall := appendList_strings (t.payloads c version vrs)
  have hout : ofRLP (do
      let s ← appendList {} (t.payloads c version vrs).length
      let s ← (t.payloads c version vrs).foldlM appendBytes s
      out s) = .ok (listItem (strItems (t.payloads c version vrs)).bytes) := by
    rw [← bind_assoc, hall, bytes_strItems]
    rfl
  rw [← hout]
  cases version with
  | RC1 =>
    simp only [encode, encodeRC1, if_neg htype, streamFields_eq, streamSignature_eq hvrs,
      ofRLP_bind, payloads, List.foldlM_append, bind_assoc]
    rfl
  | RC2 =>
    simp only [encode, encodeRC2, if_neg htype, streamFields_eq, streamFieldsRC2_eq,
      streamSignature_eq hvrs, ofRLP_bind, payloads, List.foldlM_append, bind_assoc]
    rfl

end Encoding

/-! ### What is written decodes -/

theorem index_listItem {ps : List Bytes} (hsize : SizeOk (strItems ps).bytes.length) {i : Nat}
    {p : Bytes} (hi : ps[i]? = some p) : index (listItem (strItems ps).bytes) i = .ok (strItem p) := by
  have hget : (strItems ps)[i]? = some (strItem p, p) := by
    rw [strItems, List.getElem?_map, hi]
    rfl
  refine index_of_items (listItem_isItem hsize) ?_ hget
  intro it hit
  obtain ⟨q, hq, rfl⟩ := List.mem_map.mp hit
  exact strItem_isItem (sizeOk_of_mem_strItems hsize hq)

theorem toU256_strItem (w : U256) : toU256 (strItem (bigEndian w.toNat)) = .ok w := by
  rw [toU256, toInt_strItem (by omega) w.isLt]
  change Except.ok (BitVec.ofNat 256 w.toNat) = _
  rw [BitVec.ofNat_toNat, BitVec.setWidth_eq]

theorem isEmpty_address (a : Address) : isEmpty (strItem a.data) = false := by
  have hlen := a.length_data
  have hitem : strItem a.data = UInt8.ofNat (0x80 + 20) :: a.data := by
    rw [strItem, if_neg (by omega), hlen]
    rfl
  rw [hitem]
  rfl

/-- What is written fits a `std::vector<byte>`. -/
def Fits (encoded : Except TxException Bytes) : Prop :=
  ∀ b, encoded = .ok b → b.length ≤ vectorMaxSize

section RoundTrip

variable {H S : Type} {c : SignatureScheme H S}

theorem accepted_of_payloads (hc : c.Inverse) {version : Version}
    {check : CheckTransaction} {t : Transaction S} {vrs : S} (htype : t.type ≠ .NullTransaction)
    (hvrs : t.vrs = some vrs) (hcheck : checkSignature c version check t vrs = .ok ())
    (hsize : SizeOk (strItems (t.payloads c version vrs)).bytes.length) :
    Accepted c version check (listItem (strItems (t.payloads c version vrs)).bytes) t := by
  have hread : ∀ i p, (t.payloads c version vrs)[i]? = some p →
      index (listItem (strItems (t.payloads c version vrs)).bytes) i = .ok (strItem p) :=
    fun i p hi => index_listItem hsize hi
  have hdata : SizeOk t.data.length := by
    refine sizeOk_of_mem_strItems hsize ?_
    cases version <;> simp [payloads, fieldStrings]
  have haddress : ∀ a : Address, SizeOk a.data.length := fun a => by
    rw [a.length_data]
    unfold SizeOk sizeMax
    omega
  refine ⟨⟨isList_listItem hsize, ?_, ?_, ?_, ?_, ?_, ?_, ?_⟩, ?_, vrs, hvrs, ?_, hcheck⟩
  · exact ⟨_, hread 0 _ (by cases version <;> rfl), toU256_strItem _⟩
  · exact ⟨_, hread 1 _ (by cases version <;> rfl), toU256_strItem _⟩
  · exact ⟨_, hread 2 _ (by cases version <;> rfl), toU256_strItem _⟩
  · exact ⟨_, hread 3 _ (by cases version <;> rfl), toU256_strItem _⟩
  · refine ⟨_, hread 4 _ (by cases version <;> rfl), ?_⟩
    cases hkind : t.type with
    | NullTransaction => exact absurd hkind htype
    | ContractCreation => exact Or.inl ⟨rfl, rfl⟩
    | MessageCall =>
      rw [if_pos rfl]
      exact Or.inr ⟨isEmpty_address _, rfl, toHash_strItem _ (by unfold SizeOk sizeMax; omega)⟩
  · exact ⟨_, hread 5 _ (by cases version <;> rfl), toU256_strItem _⟩
  · exact ⟨_, hread 6 _ (by cases version <;> rfl), isData_strItem hdata, toBytes_strItem hdata⟩
  · rintro rfl
    have hextra : SizeOk t.extraData.length := by
      refine sizeOk_of_mem_strItems hsize ?_
      simp [payloads, fieldStringsRC2]
    exact ⟨⟨_, hread 7 _ rfl, toU256_strItem _⟩, ⟨_, hread 8 _ rfl, toU256_strItem _⟩,
      ⟨_, hread 9 _ rfl, toBytes_strItem hextra⟩⟩
  · cases version with
    | RC1 => exact hc.read_written _ 7 _ (hread 7 _ rfl) (hread 8 _ rfl) (hread 9 _ rfl)
    | RC2 => exact hc.read_written _ 10 _ (hread 10 _ rfl) (hread 11 _ rfl) (hread 12 _ rfl)

/-- **What a signed transaction encodes to decodes to it.** -/
theorem decode_encode (hc : c.Inverse) {version : Version} {check : CheckTransaction}
    {t : Transaction S} {vrs : S} (htype : t.type ≠ .NullTransaction) (hvrs : t.vrs = some vrs)
    (hcheck : checkSignature c version check t vrs = .ok ())
    (hsize : SizeOk (strItems (t.payloads c version vrs)).bytes.length) :
    ∃ b, t.encode c version = .ok b
      ∧ decode c version check b = .ok { t.restored version with rlpBuffer := b } := by
  refine ⟨_, encode_eq htype hvrs, ?_⟩
  rw [decode, (listItem_isItem hsize).ofVeryStrict_eq]
  change (do let t ← decodeRLP c version check _; pure { t with rlpBuffer := _ }) = _
  rw [(accepted_of_payloads hc htype hvrs hcheck hsize).decodeRLP_eq]
  rfl

theorem sizeOk_of_fits {version : Version} {t : Transaction S} {vrs : S}
    (htype : t.type ≠ .NullTransaction) (hvrs : t.vrs = some vrs)
    (hfit : Fits (t.encode c version)) :
    SizeOk (strItems (t.payloads c version vrs)).bytes.length := by
  have hlist := hfit _ (encode_eq htype hvrs)
  have hle := length_payload_le_listItem (strItems (t.payloads c version vrs)).bytes
  unfold SizeOk sizeMax
  unfold vectorMaxSize at hlist
  omega

end RoundTrip

/-! ### What decodes is written back -/

/-- How an item that was read compares with the string that is written for it:
    it is that string, or a list that was read as nothing. -/
def Matches (it : Bytes × Bytes) (p : Bytes) : Prop :=
  Item it.1 it.2 ∧ ((it.1 = strItem p ∧ isList it.1 = false) ∨ (isList it.1 = true ∧ p = []))

theorem strItem_empty : strItem [] = [0x80] := rfl

theorem strItem_ne_nil (b : Bytes) : strItem b ≠ [] := by
  intro h
  have hle := length_payload_le_strItem b
  rw [h] at hle
  have hb : b = [] := List.length_eq_zero_iff.mp (Nat.le_zero.mp hle)
  rw [hb, strItem_empty] at h
  cases h

theorem listItem_injective {p q : Bytes} (hp : SizeOk p.length) (hq : SizeOk q.length)
    (h : listItem p = listItem q) : p = q := by
  have hread := (listItem_isItem hp).payload_eq []
  rw [h, (listItem_isItem hq).payload_eq []] at hread
  exact (Except.ok.inj hread).symm

theorem not_prefix_of_isList {x p : Bytes} (hitem : Item x p) (hlist : isList x = true)
    (tail tail' : Bytes) : x ++ tail ≠ strItem [] ++ tail' := by
  intro heq
  cases x with
  | nil => exact absurd rfl hitem.isItem.ne_nil
  | cons d rest =>
    rw [strItem_empty] at heq
    simp only [List.cons_append, List.cons.injEq] at heq
    rw [heq.1] at hlist
    cases hlist

theorem bytes_eq_iff {its : Items} {ps : List Bytes} {rest : Bytes}
    (h : List.Forall₂ Matches its ps) :
    its.bytes ++ rest = (strItems ps).bytes
      ↔ (∀ it ∈ its, isList it.1 = false) ∧ rest = [] := by
  induction h with
  | nil => simp
  | @cons it p its ps hit hrest ih =>
    rw [strItems_cons, Items.bytes_cons, Items.bytes_cons, List.append_assoc]
    obtain ⟨hitem, ⟨heq, hdata⟩ | ⟨hlist, rfl⟩⟩ := hit
    · rw [heq] at hdata ⊢
      rw [List.append_cancel_left_eq, ih, List.forall_mem_cons, heq, hdata]
      simp only [true_and]
    · constructor
      · intro heq
        exact absurd heq (not_prefix_of_isList hitem hlist _ _)
      · rintro ⟨hall, -⟩
        have hdata := hall it List.mem_cons_self
        rw [hlist] at hdata
        cases hdata

theorem length_bytes_le {its : Items} {ps : List Bytes} (h : List.Forall₂ Matches its ps) :
    (strItems ps).bytes.length ≤ its.bytes.length := by
  induction h with
  | nil => exact Nat.le_refl _
  | @cons it p its ps hit hrest ih =>
    have hhead : (strItem p).length ≤ it.1.length := by
      obtain ⟨hitem, ⟨heq, -⟩ | ⟨-, rfl⟩⟩ := hit
      · rw [heq]
      · exact List.length_pos_iff.mpr hitem.isItem.ne_nil
    rw [strItems_cons, Items.bytes_cons, Items.bytes_cons]
    simp only [List.length_append]
    omega

section Exact

variable {H S : Type} {c : SignatureScheme H S} {rlp : Bytes}

theorem matches_of_toU256 {i : Nat} {w : U256} {it : Bytes × Bytes}
    (h : ItemReads rlp i toU256 w) (hit : index rlp i = .ok it.1) (hitem : Item it.1 it.2) :
    Matches it (bigEndian w.toNat) := by
  obtain ⟨x, hx, hconv⟩ := h
  rw [hit] at hx
  cases hx
  obtain ⟨n, hn, hw⟩ := ok_of_bind hconv
  cases hw
  obtain ⟨heq, hlt⟩ := eq_strItem_of_toInt (by omega) hitem hn
  obtain ⟨hstr, -, -, -⟩ := toInt_spec hitem hn
  have hval : (BitVec.ofNat 256 n).toNat = n := by
    rw [BitVec.toNat_ofNat]
    exact Nat.mod_eq_of_lt hlt
  refine ⟨hitem, Or.inl ⟨by rw [hval]; exact heq, ?_⟩⟩
  rw [hstr]
  exact (isData_ne_nil (isData_strItem hitem.1)).2

theorem matches_of_isData {it : Bytes × Bytes} {b : Bytes} (hdata : isData it.1 = true)
    (h : toBytes it.1 = .ok b) (hitem : Item it.1 it.2) : Matches it b :=
  ⟨hitem, Or.inl ⟨eq_strItem_of_toBytes hitem hdata h, (isData_ne_nil hdata).2⟩⟩

theorem matches_of_toBytes {it : Bytes × Bytes} {b : Bytes} (h : toBytes it.1 = .ok b)
    (hitem : Item it.1 it.2) : Matches it b := by
  cases hdata : isData it.1 with
  | true => exact matches_of_isData hdata h hitem
  | false =>
    rw [toBytes, hdata] at h
    cases h
    refine ⟨hitem, Or.inr ⟨?_, rfl⟩⟩
    obtain ⟨hsize, heq | heq⟩ := hitem
    · rw [heq, isData_strItem hsize] at hdata
      cases hdata
    · rw [heq]
      exact isList_listItem hsize

theorem matches_of_strItem {it : Bytes × Bytes} {b : Bytes} (h : it.1 = strItem b)
    (hitem : Item it.1 it.2) : Matches it b := by
  refine ⟨hitem, Or.inl ⟨h, ?_⟩⟩
  obtain ⟨hsize, heq | heq⟩ := hitem
  · rw [heq]
    exact (isData_ne_nil (isData_strItem hsize)).2
  · have hlen : b.length < 256 ^ 8 := by
      have hle := length_payload_le_strItem b
      have hlist := length_listItem_le it.2 hsize
      rw [← h, heq] at hle
      unfold SizeOk sizeMax at hsize
      omega
    rw [h]
    exact (isData_ne_nil (isData_strItem_of_lt hlen)).2

theorem matches_of_isEmpty {it : Bytes × Bytes} (h : isEmpty it.1 = true)
    (hitem : Item it.1 it.2) : Matches it [] := by
  cases hlist : isList it.1 with
  | true => exact ⟨hitem, Or.inr ⟨hlist, rfl⟩⟩
  | false =>
    refine ⟨hitem, Or.inl ⟨?_, hlist⟩⟩
    cases hx : it.1 with
    | nil => exact absurd hx hitem.isItem.ne_nil
    | cons d rest =>
      rw [hx] at h hlist
      have hd : d = 0x80 := by
        simp only [isEmpty, isNull_cons, lead_cons, isList_cons, Bool.not_false, Bool.true_and,
          Bool.or_eq_true, beq_iff_eq, decide_eq_false_iff_not] at h hlist
        rcases h with h | h
        · exact UInt8.toNat_inj.mp h
        · exact absurd (Nat.le_of_eq h.symm) hlist
      have hsize := hitem.isItem.actualSize_eq []
      have hone : actualSize (0x80 :: rest) = .ok 1 := rfl
      rw [List.append_nil, hx, hd, hone] at hsize
      have hrest : rest = [] := by
        rw [List.length_cons] at hsize
        exact List.length_eq_zero_iff.mp (by have := Except.ok.inj hsize; omega)
      rw [hd, hrest]
      rfl

/-- The items from position `k` on, as `operator[]` hands them out. -/
def ItemsAt (rlp : Bytes) (k : Nat) (its : Items) : Prop :=
  (∀ it ∈ its, Item it.1 it.2) ∧ ∀ i it, its[i]? = some it → index rlp (k + i) = .ok it.1

theorem ItemsAt.append {k : Nat} {its its' : Items} (h : ItemsAt rlp k (its ++ its')) :
    ItemsAt rlp k its ∧ ItemsAt rlp (k + its.length) its' := by
  obtain ⟨hall, hread⟩ := h
  refine ⟨⟨fun it hit => hall it (List.mem_append_left _ hit), fun i it hi => hread i it ?_⟩,
    ⟨fun it hit => hall it (List.mem_append_right _ hit), fun i it hi => ?_⟩⟩
  · obtain ⟨hlt, -⟩ := List.getElem?_eq_some_iff.mp hi
    rw [List.getElem?_append_left hlt]
    exact hi
  · rw [Nat.add_assoc]
    refine hread _ it ?_
    rw [List.getElem?_append_right (Nat.le_add_right _ _), Nat.add_sub_cancel_left]
    exact hi

theorem Fields.forall₂_matches {t : Transaction S} (h : Fields rlp t)
    {i0 i1 i2 i3 i4 i5 i6 : Bytes × Bytes} (hits : ItemsAt rlp 0 [i0, i1, i2, i3, i4, i5, i6]) :
    List.Forall₂ Matches [i0, i1, i2, i3, i4, i5, i6] t.fieldStrings := by
  obtain ⟨hall, hread⟩ := hits
  have haddress : Matches i4 (if t.type = .MessageCall then t.receiveAddress.data else []) := by
    obtain ⟨x, hx, hkind⟩ := h.receiveAddress
    rw [show index rlp 4 = .ok i4.1 from hread 4 i4 rfl] at hx
    cases hx
    rcases hkind with ⟨hempty, htype⟩ | ⟨-, htype, hhash⟩
    · rw [htype, if_neg (by decide)]
      exact matches_of_isEmpty hempty (hall i4 (by simp))
    · rw [htype, if_pos rfl]
      exact matches_of_strItem (eq_strItem_of_toHash (hall i4 (by simp)) hhash) (hall i4 (by simp))
  have hdata : Matches i6 t.data := by
    obtain ⟨x, hx, hdata, hbytes⟩ := h.data
    rw [show index rlp 6 = .ok i6.1 from hread 6 i6 rfl] at hx
    cases hx
    exact matches_of_isData hdata hbytes (hall i6 (by simp))
  refine .cons (matches_of_toU256 h.nonce (hread 0 i0 rfl) (hall i0 (by simp))) ?_
  refine .cons (matches_of_toU256 h.gasPrice (hread 1 i1 rfl) (hall i1 (by simp))) ?_
  refine .cons (matches_of_toU256 h.gas (hread 2 i2 rfl) (hall i2 (by simp))) ?_
  refine .cons (matches_of_toU256 h.blockLimit (hread 3 i3 rfl) (hall i3 (by simp))) ?_
  refine .cons haddress ?_
  refine .cons (matches_of_toU256 h.value (hread 5 i5 rfl) (hall i5 (by simp))) ?_
  exact .cons hdata .nil

theorem FieldsRC2.forall₂_matches {t : Transaction S} (h : FieldsRC2 rlp t)
    {i7 i8 i9 : Bytes × Bytes} (hits : ItemsAt rlp 7 [i7, i8, i9]) :
    List.Forall₂ Matches [i7, i8, i9] t.fieldStringsRC2 := by
  obtain ⟨hall, hread⟩ := hits
  have hextra : Matches i9 t.extraData := by
    obtain ⟨x, hx, hbytes⟩ := h.extraData
    rw [show index rlp 9 = .ok i9.1 from hread 2 i9 rfl] at hx
    cases hx
    exact matches_of_toBytes hbytes (hall i9 (by simp))
  refine .cons (matches_of_toU256 h.chainId (hread 0 i7 rfl) (hall i7 (by simp))) ?_
  refine .cons (matches_of_toU256 h.groupId (hread 1 i8 rfl) (hall i8 (by simp))) ?_
  exact .cons hextra .nil

theorem signature_forall₂_matches (hc : c.Inverse) {start : Nat} {vrs : S}
    (h : c.fromRLP rlp start = .ok vrs) {v r s : Bytes × Bytes}
    (hits : ItemsAt rlp start [v, r, s]) :
    List.Forall₂ Matches [v, r, s] (signatureStrings c vrs) := by
  obtain ⟨hall, hread⟩ := hits
  obtain ⟨hv, hr, hs⟩ := hc.written_read rlp start vrs h
  have hv' := hread 0 v rfl
  have hr' := hread 1 r rfl
  have hs' := hread 2 s rfl
  rw [Nat.add_zero, hv] at hv'
  rw [hr] at hr'
  rw [hs] at hs'
  refine .cons (matches_of_strItem (Except.ok.inj hv').symm (hall v (by simp))) ?_
  refine .cons (matches_of_strItem (Except.ok.inj hr').symm (hall r (by simp))) ?_
  exact .cons (matches_of_strItem (Except.ok.inj hs').symm (hall s (by simp))) .nil

theorem Accepted.forall₂_matches (hc : c.Inverse) {version : Version}
    {check : CheckTransaction} {t : Transaction S} {vrs : S} {its : Items}
    (h : Accepted c version check rlp t) (hvrs : t.vrs = some vrs)
    (hlen : its.length = version.fieldCountWithOutSig + c_sigCount) (hits : ItemsAt rlp 0 its) :
    List.Forall₂ Matches its (t.payloads c version vrs) := by
  obtain ⟨vrs', hvrs', hread, -⟩ := h.signature
  rw [hvrs] at hvrs'
  cases hvrs'
  cases version with
  | RC1 =>
    match its, hlen with
    | [i0, i1, i2, i3, i4, i5, i6, v, r, s], _ =>
      have hsplit : ItemsAt rlp 0 ([i0, i1, i2, i3, i4, i5, i6] ++ [v, r, s]) := hits
      obtain ⟨hhead, hsig⟩ := hsplit.append
      exact List.rel_append (h.fields.forall₂_matches hhead)
        (signature_forall₂_matches hc hread hsig)
  | RC2 =>
    match its, hlen with
    | [i0, i1, i2, i3, i4, i5, i6, i7, i8, i9, v, r, s], _ =>
      have hsplit : ItemsAt rlp 0
          ([i0, i1, i2, i3, i4, i5, i6] ++ ([i7, i8, i9] ++ [v, r, s])) := hits
      obtain ⟨hhead, htail⟩ := hsplit.append
      obtain ⟨hmid, hsig⟩ := htail.append
      exact List.rel_append (h.fields.forall₂_matches hhead)
        (List.rel_append ((h.fieldsRC2 rfl).forall₂_matches hmid)
          (signature_forall₂_matches hc hread hsig))

/-- The byte strings that are written back as they were read: every item is a
    string, and the list ends with the signature.  (Only the address and the
    extra data are accepted as lists.) -/
structure Canonical (version : Version) (b : Bytes) : Prop where
  strings : ∀ i < version.fieldCountWithOutSig + c_sigCount,
    ∃ x, index b i = .ok x ∧ isList x = false
  exact : index b (version.fieldCountWithOutSig + c_sigCount) = .ok []

theorem decode_spec {version : Version} {check : CheckTransaction} {b : Bytes} {t : Transaction S}
    (h : decode c version check b = .ok t) :
    Accepted c version check b t ∧ ∃ pl, SizeOk pl.length ∧ b = listItem pl := by
  obtain ⟨rlp, hrlp, h⟩ := ok_of_bind h
  obtain ⟨t₀, hdec, h⟩ := ok_of_bind h
  cases h
  rw [ofRLP_ok] at hrlp
  have hne : b ≠ [] := by
    rintro rfl
    have hA := decodeRLP_spec hdec
    have hrlp' : rlp = [] := (Except.ok.inj hrlp).symm
    have hlist := hA.fields.list
    rw [hrlp'] at hlist
    cases hlist
  obtain ⟨rfl, pl, hitem⟩ := item_of_ofVeryStrict hne hrlp
  obtain ⟨⟨h0, h1, h2, h3, h4, h5, h6, h7⟩, hrc2, hsig, hvrs⟩ := decodeRLP_spec hdec
  refine ⟨⟨⟨h0, h1, h2, h3, h4, h5, h6, h7⟩, fun hv => ?_, ?_⟩, pl, hitem.1, hitem.eq_listItem h0⟩
  · obtain ⟨ha, hb, hc⟩ := hrc2 hv
    exact ⟨ha, hb, hc⟩
  · exact ⟨hsig, hvrs⟩

theorem Fields.type_ne {t : Transaction S} (h : Fields rlp t) : t.type ≠ .NullTransaction := by
  obtain ⟨x, -, ⟨-, htype⟩ | ⟨-, htype, -⟩⟩ := h.receiveAddress
  · rw [htype]
    decide
  · rw [htype]
    decide

theorem decode_split (hc : c.Inverse) {version : Version} {check : CheckTransaction} {b : Bytes}
    {t : Transaction S} (h : decode c version check b = .ok t) :
    ∃ vrs its rest, t.vrs = some vrs ∧ b = listItem (Items.bytes its ++ rest)
      ∧ SizeOk (Items.bytes its ++ rest).length ∧ (∀ it ∈ its, Item it.1 it.2)
      ∧ its.length = version.fieldCountWithOutSig + c_sigCount
      ∧ List.Forall₂ Matches its (t.payloads c version vrs) := by
  obtain ⟨hA, pl, hsize, hb⟩ := decode_spec h
  obtain ⟨vrs, hvrs, hread, -⟩ := hA.signature
  have hpl := (listItem_isItem hsize).payload_eq []
  rw [List.append_nil, ← hb] at hpl
  -- the last item that was read splits the payload
  obtain ⟨-, -, hlast⟩ := hc.written_read b _ vrs hread
  obtain ⟨its, rest, hall, rfl, hlen, -⟩ := index_split hpl hlast (strItem_ne_nil _)
  refine ⟨vrs, its, rest, hvrs, hb, hsize, hall, hlen, hA.forall₂_matches hc hvrs hlen ⟨hall, ?_⟩⟩
  intro i it hi
  rw [Nat.zero_add]
  exact index_of_prefix hpl (fun it hit => (hall it hit).isItem) hi

theorem sizeOk_payloads {its : Items} {ps : List Bytes} {rest : Bytes}
    (hsize : SizeOk (its.bytes ++ rest).length) (hmatch : List.Forall₂ Matches its ps) :
    SizeOk (strItems ps).bytes.length := by
  refine hsize.mono ?_
  have hle := length_bytes_le hmatch
  rw [List.length_append]
  omega

/-- **What an accepted byte string is written back as.** -/
theorem encode_eq_iff (hc : c.Inverse) {version : Version} {check : CheckTransaction} {b : Bytes}
    {t : Transaction S} (h : decode c version check b = .ok t) :
    t.encode c version = .ok b ↔ Canonical version b := by
  obtain ⟨hA, -⟩ := decode_spec h
  obtain ⟨vrs, its, rest, hvrs, hb, hsize, hall, hlen, hmatch⟩ := decode_split hc h
  have hpl := (listItem_isItem hsize).payload_eq []
  rw [List.append_nil, ← hb] at hpl
  have hindex : ∀ i it, its[i]? = some it → index b i = .ok it.1 :=
    fun i it hi => index_of_prefix hpl (fun it hit => (hall it hit).isItem) hi
  have hbytes : its.bytes ++ rest = _ ↔ _ ∧ rest = [] := bytes_eq_iff hmatch
  have hpast := index_past_end hpl hall (by
    rintro rfl
    cases hlen)
  rw [hlen] at hpast
  rw [encode_eq hA.fields.type_ne hvrs]
  constructor
  · intro heq
    have hlist := (Except.ok.inj heq).trans hb
    have hwritten := listItem_injective (sizeOk_payloads hsize hmatch) hsize hlist
    obtain ⟨hstrings, hrest⟩ := hbytes.mp hwritten.symm
    refine ⟨fun i hi => ?_, hpast.mpr hrest⟩
    have hget := List.getElem?_eq_getElem (show i < its.length by rw [hlen]; exact hi)
    exact ⟨_, hindex i _ hget, hstrings _ (List.mem_of_getElem? hget)⟩
  · intro hcanon
    have hstrings : ∀ it ∈ its, isList it.1 = false := by
      intro it hit
      obtain ⟨i, hi, rfl⟩ := List.mem_iff_getElem.mp hit
      obtain ⟨x, hx, hstring⟩ := hcanon.strings i (by rw [← hlen]; exact hi)
      rw [hindex i _ (List.getElem?_eq_getElem hi)] at hx
      cases hx
      exact hstring
    rw [← hbytes.mpr ⟨hstrings, hpast.mp hcanon.exact⟩, ← hb]

end Exact

end Transaction

/-! ### The default signature scheme -/

theorem ecdsa_inverse {H : Type} (hash : Bytes → H) (recover : ECDSASignature → H → Option Address) :
    (ecdsa hash recover).Inverse where
  read_written := by
    intro rlp start sig hv hr hs
    have hbyte : toInt 1 (strItem (bigEndian (sig.v + VBase).toNat)) = .ok (sig.v + VBase).toNat :=
      toInt_strItem (by omega) (UInt8.toNat_lt _)
    have hword : ∀ w : U256, toInt 32 (strItem (bigEndian w.toNat)) = .ok w.toNat :=
      fun w => toInt_strItem (by omega) w.isLt
    change ECDSASignature.fromRLP rlp start = _
    change index rlp start = .ok (strItem (bigEndian (sig.v + VBase).toNat)) at hv
    change index rlp (start + 1) = .ok (strItem (bigEndian sig.r.toNat)) at hr
    change index rlp (start + 2) = .ok (strItem (bigEndian sig.s.toNat)) at hs
    have hback : UInt8.ofNat (sig.v + VBase).toNat - VBase = sig.v := by
      rw [UInt8.ofNat_toNat, UInt8.add_sub_cancel]
    rw [ECDSASignature.fromRLP, hv, hr, hs]
    simp only [bind, Except.bind, hbyte, hword, pure, Except.pure, hback, BitVec.ofNat_toNat,
      BitVec.setWidth_eq]
  written_read := by
    intro rlp start sig h
    obtain ⟨xv, hxv, h⟩ := ok_of_bind h
    obtain ⟨v, hv, h⟩ := ok_of_bind h
    obtain ⟨xr, hxr, h⟩ := ok_of_bind h
    obtain ⟨r, hr, h⟩ := ok_of_bind h
    obtain ⟨xs, hxs, h⟩ := ok_of_bind h
    obtain ⟨s, hs, h⟩ := ok_of_bind h
    obtain ⟨hv', hvlt⟩ := index_of_toInt (by omega) (itemReads_iff.mpr ⟨xv, hxv, hv⟩)
    obtain ⟨hr', hrlt⟩ := index_of_toInt (by omega) (itemReads_iff.mpr ⟨xr, hxr, hr⟩)
    obtain ⟨hs', hslt⟩ := index_of_toInt (by omega) (itemReads_iff.mpr ⟨xs, hxs, hs⟩)
    have hword : ∀ n, n < 256 ^ 32 → (BitVec.ofNat 256 n).toNat = n := fun n hn => by
      rw [BitVec.toNat_ofNat]
      exact Nat.mod_eq_of_lt hn
    have hbyte : (UInt8.ofNat v - VBase + VBase).toNat = v := by
      rw [UInt8.sub_add_cancel, UInt8.toNat_ofNat']
      exact Nat.mod_eq_of_lt hvlt
    cases h
    change index rlp start = .ok (strItem (bigEndian (UInt8.ofNat v - VBase + VBase).toNat))
      ∧ index rlp (start + 1) = .ok (strItem (bigEndian (BitVec.ofNat 256 r).toNat))
      ∧ index rlp (start + 2) = .ok (strItem (bigEndian (BitVec.ofNat 256 s).toNat))
    rw [hbyte, hword r hrlt, hword s hslt]
    exact ⟨hv', hr', hs'⟩

/-! ### Exactness -/

namespace Transaction

section Exactness

variable {H S : Type} (c : SignatureScheme H S) (version : Version) (check : CheckTransaction)

structure SameFields (t t' : Transaction S) : Prop where
  type : t'.type = t.type
  nonce : t'.nonce = t.nonce
  gasPrice : t'.gasPrice = t.gasPrice
  gas : t'.gas = t.gas
  blockLimit : t'.blockLimit = t.blockLimit
  receiveAddress : t.type = .MessageCall → t'.receiveAddress = t.receiveAddress
  value : t'.value = t.value
  data : t'.data = t.data
  vrs : t'.vrs = t.vrs
  rc2 : version = .RC2 →
    t'.chainId = t.chainId ∧ t'.groupId = t.groupId ∧ t'.extraData = t.extraData

theorem sameFields_restored (t : Transaction S) (b : Bytes) :
    SameFields version t { t.restored version with rlpBuffer := b } := by
  cases version with
  | RC1 => exact ⟨rfl, rfl, rfl, rfl, rfl, fun h => if_pos h, rfl, rfl, rfl, nofun⟩
  | RC2 =>
    exact ⟨rfl, rfl, rfl, rfl, rfl, fun h => if_pos h, rfl, rfl, rfl, fun _ => ⟨rfl, rfl, rfl⟩⟩

/-- `decode(encode(t))` restores `t` and its hash. -/
def RoundTrips (t : Transaction S) : Prop :=
  ∃ b t', t.encode c version = .ok b ∧ decode c version check b = .ok t' ∧ SameFields version t t'
    ∧ t'.hash c version = t.hash c version

variable {c version check}

theorem encode_with_rlpBuffer (t : Transaction S) (b : Bytes) :
    encode c version { t with rlpBuffer := b } = t.encode c version := by
  cases version <;> rfl

theorem hash_restored (t : Transaction S) (b : Bytes) :
    hash c version { t.restored version with rlpBuffer := b } = t.hash c version := by
  rw [hash, hash, encode_with_rlpBuffer, encode_restored]

theorem roundTrips (hc : c.Inverse) {t : Transaction S} {vrs : S} (htype : t.type ≠ .NullTransaction)
    (hvrs : t.vrs = some vrs) (hcheck : checkSignature c version check t vrs = .ok ())
    (hfit : Fits (t.encode c version)) : RoundTrips c version check t := by
  obtain ⟨b, henc, hdec⟩ := decode_encode hc htype hvrs hcheck (sizeOk_of_fits htype hvrs hfit)
  exact ⟨b, _, henc, hdec, t.sameFields_restored version b, t.hash_restored b⟩

theorem decode_encode_of_decode (hc : c.Inverse) {b : Bytes} {t : Transaction S}
    (h : decode c version check b = .ok t) :
    ∃ b' t', t.encode c version = .ok b' ∧ decode c version check b' = .ok t'
      ∧ t'.hash c version = t.hash c version ∧ Canonical version b' := by
  obtain ⟨hA, -⟩ := decode_spec h
  obtain ⟨vrs', hvrs', -, hcheck⟩ := hA.signature
  obtain ⟨vrs, its, rest, hvrs, -, hsize, -, -, hmatch⟩ := decode_split hc h
  rw [hvrs] at hvrs'
  cases hvrs'
  obtain ⟨b', henc, hdec⟩ :=
    decode_encode hc hA.fields.type_ne hvrs hcheck (sizeOk_payloads hsize hmatch)
  have henc' : encode c version { t.restored version with rlpBuffer := b' } = .ok b' := by
    rw [encode_with_rlpBuffer, encode_restored, henc]
  exact ⟨b', _, henc, hdec, t.hash_restored b', (encode_eq_iff hc hdec).mp henc'⟩

end Exactness

end Transaction

/-- **The transaction codec, and the byte strings on which it is exact.**  Every
    signed transaction round trips.  An accepted byte string is what its
    transaction encodes to exactly when it is canonical, and exactly then no
    canonical byte string but itself has its hash. -/
theorem transaction_codec_iff {H S : Type} (c : SignatureScheme H S) (hc : c.Inverse)
    (hinj : Function.Injective c.hash) (version : Version) (check : CheckTransaction) :
    (∀ (t : Transaction S) (vrs : S), t.type ≠ .NullTransaction → t.vrs = some vrs →
        Transaction.checkSignature c version check t vrs = .ok () →
        Transaction.Fits (t.encode c version) → Transaction.RoundTrips c version check t)
      ∧ (∀ b t, Transaction.decode c version check b = .ok t →
        (t.encode c version = .ok b ↔ Transaction.Canonical version b))
      ∧ (∀ b t, Transaction.decode c version check b = .ok t →
        ((∀ b' t', Transaction.decode c version check b' = .ok t' →
            Transaction.Canonical version b' → t'.hash c version = t.hash c version → b' = b)
          ↔ Transaction.Canonical version b)) := by
  refine ⟨fun t vrs htype hvrs hcheck hfit => Transaction.roundTrips hc htype hvrs hcheck hfit,
    fun b t h => Transaction.encode_eq_iff hc h, fun b t h => ⟨fun halone => ?_, fun hcanon => ?_⟩⟩
  · obtain ⟨b', t', -, hdec, hhash, hcanon⟩ := Transaction.decode_encode_of_decode hc h
    rw [← halone b' t' hdec hcanon hhash]
    exact hcanon
  · intro b' t' hdec hcanon' hhash
    have hb := (Transaction.encode_eq_iff hc h).mpr hcanon
    have hb' := (Transaction.encode_eq_iff hc hdec).mpr hcanon'
    rw [Transaction.hash, Transaction.hash, hb, hb'] at hhash
    exact hinj (Except.ok.inj hhash)

/-! ### A creation of nothing, and other bytes for it -/

/-- ECDSA with the identity for the hash, under which every signature recovers. -/
def plainScheme : SignatureScheme Bytes ECDSASignature := ecdsa id fun _ _ => some Address.zero

/-- The creation with nonce 1, gas price 2, gas 3, block limit 4 and value 5. -/
def plainCreation : Transaction ECDSASignature where
  type := .ContractCreation
  nonce := 1
  gasPrice := 2
  gas := 3
  blockLimit := 4
  value := 5
  vrs := some { r := 1, s := 1, v := 0 }

def plainBytes : Bytes :=
  [0xcd, 0x01, 0x02, 0x03, 0x04, 0x80, 0x05, 0x80, 0x80, 0x80, 0x80, 0x1b, 0x01, 0x01]

/-- `plainBytes` with one more item, 7. -/
def trailingBytes : Bytes :=
  [0xce, 0x01, 0x02, 0x03, 0x04, 0x80, 0x05, 0x80, 0x80, 0x80, 0x80, 0x1b, 0x01, 0x01, 0x07]

/-- `plainBytes` with the empty list for the address and a list of one empty
    list for the extra data. -/
def listBytes : Bytes :=
  [0xce, 0x01, 0x02, 0x03, 0x04, 0xc0, 0x05, 0x80, 0x80, 0x80, 0xc1, 0xc0, 0x1b, 0x01, 0x01]

theorem plainCreation_encode : plainCreation.encode plainScheme .RC2 = .ok plainBytes := by
  decide +kernel

theorem decode_plainBytes :
    Transaction.decode plainScheme .RC2 .Everything plainBytes
      = .ok { plainCreation with rlpBuffer := plainBytes } := by
  decide +kernel

theorem decode_trailingBytes :
    Transaction.decode plainScheme .RC2 .Everything trailingBytes
      = .ok { plainCreation with rlpBuffer := trailingBytes } := by
  decide +kernel

theorem transaction_codec_iff_plain :
    Transaction.RoundTrips plainScheme .RC2 .Everything plainCreation
      ∧ Transaction.Canonical .RC2 plainBytes ∧ ¬ Transaction.Canonical .RC2 trailingBytes := by
  obtain ⟨hround, hexact, -⟩ := transaction_codec_iff plainScheme
    (ecdsa_inverse id fun _ _ => some Address.zero) (fun _ _ h => h) .RC2 .Everything
  refine ⟨hround _ _ (by decide) rfl (by decide +kernel) ?_, ?_, fun hcanon => ?_⟩
  · intro b hb
    rw [plainCreation_encode] at hb
    cases hb
    decide
  · exact (hexact _ _ decode_plainBytes).mp (by decide +kernel)
  · have henc := (hexact _ _ decode_trailingBytes).mpr hcanon
    exact absurd henc (by decide +kernel)

/-- Three accepted byte strings with one hash. -/
theorem transaction_codec_accepts_variants :
    ∃ t₁ t₂ t₃, Transaction.decode plainScheme .RC2 .Everything plainBytes = .ok t₁
      ∧ Transaction.decode plainScheme .RC2 .Everything trailingBytes = .ok t₂
      ∧ Transaction.decode plainScheme .RC2 .Everything listBytes = .ok t₃
      ∧ plainBytes ≠ trailingBytes ∧ plainBytes ≠ listBytes
      ∧ t₂.encode plainScheme .RC2 = .ok plainBytes ∧ t₃.encode plainScheme .RC2 = .ok plainBytes
      ∧ t₂.hash plainScheme .RC2 = t₁.hash plainScheme .RC2
      ∧ t₃.hash plainScheme .RC2 = t₁.hash plainScheme .RC2 := by
  refine ⟨_, _, { plainCreation with rlpBuffer := listBytes }, decode_plainBytes,
    decode_trailingBytes, by decide +kernel, by decide, by decide, by decide +kernel,
    by decide +kernel, by decide +kernel, by decide +kernel⟩

end HieraChain.Eth
