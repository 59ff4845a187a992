/-
  HieraChain/Transaction.lean
  ===========================
  **Transactions and their wire format** (`libethcore/Transaction.h`, `.cpp`;
  `libdevcrypto/ECDSASignature.cpp`).

  A transaction is a list of strings: seven fields in the RC1 format, ten in
  the RC2 format, and the three strings of the signature.  The signature
  scheme is a parameter (`SignatureScheme`); `ecdsa` is the one of the default
  build.  The mutable caches of the hash and of the sender are left out: every
  setter clears them.  `m_rlpBuffer` is kept, since `rlp()` returns it.
-/
import HieraChain.RLP

namespace HieraChain.Eth

open HieraChain.BigEndian HieraChain.RLP

abbrev U256 := BitVec 256
abbrev Address := FixedHash 20

def Address.zero : Address := ⟨List.replicate 20 0, length_zeros_20⟩

/-- The two branches of `g_BCOSConfig.version() >= RC2_VERSION`. -/
inductive Version
  | RC1
  | RC2
  deriving DecidableEq, Repr

inductive CheckTransaction
  | None
  | Cheap
  | Everything
  deriving DecidableEq, Repr

inductive IncludeSignature
  | WithoutSignature
  | WithSignature
  deriving DecidableEq, Repr

inductive TransactionType
  | NullTransaction
  | ContractCreation
  | MessageCall
  deriving DecidableEq, Repr

structure Transaction (S : Type) where
  type : TransactionType := .NullTransaction
  nonce : U256 := 0
  value : U256 := 0
  receiveAddress : Address := Address.zero
  gasPrice : U256 := 0
  gas : U256 := 0
  data : Bytes := []
  vrs : Option S := none
  blockLimit : U256 := 0
  rlpBuffer : Bytes := []
  chainId : U256 := 0
  groupId : U256 := 0
  extraData : Bytes := []
  deriving DecidableEq, Repr

/-- What decoding and encoding throw.  `invalidField` is the `errinfo_name`
    that the decoder adds: the text up to the field's name, the name and the
    list it was read from. -/
inductive TxException
  | rlp (e : RLPError)
  | invalidTransactionFormat (comment : String)
  | invalidSignature
  | transactionIsUnsigned
  | invalidField (text field : String) (rlp : Bytes) (cause : TxException)
  deriving DecidableEq, Repr

/-! ### Signatures -/

/-- Hashing and signing as `CryptoInterface` selects them. -/
structure SignatureScheme (H S : Type) where
  /-- `crypto::Hash` -/
  hash : Bytes → H
  /-- the three strings that `Signature::encode` appends -/
  strings : S → Bytes × Bytes × Bytes
  /-- `SignatureFromRLP` -/
  fromRLP : Bytes → Nat → Except RLPError S
  /-- `Signature::isValid` -/
  isValid : S → Bool
  /-- `Recover`, then the address of the key -/
  recover : S → H → Option Address

def SignatureScheme.encode {H S : Type} (c : SignatureScheme H S) (sig : S) (s : RLPStream) :
    Except RLPError RLPStream := do
  let s ← appendBytes s (c.strings sig).1
  let s ← appendBytes s (c.strings sig).2.1
  appendBytes s (c.strings sig).2.2

structure ECDSASignature where
  r : U256
  s : U256
  v : UInt8
  deriving DecidableEq, Repr

def VBase : UInt8 := 27

def c_secp256k1n : Nat :=
  115792089237316195423570985008687907852837564279074904382605163141518161494337

namespace ECDSASignature

/-- `(byte)(v + VBase)`, `(u256)r` and `(u256)s`, each as its big-endian bytes. -/
def strings (sig : ECDSASignature) : Bytes × Bytes × Bytes :=
  (bigEndian (sig.v + VBase).toNat, bigEndian sig.r.toNat, bigEndian sig.s.toNat)

/-- `ecdsaSignatureFromRLP`. -/
def fromRLP (rlp : Bytes) (start : Nat) : Except RLPError ECDSASignature := do
  let v ← toInt 1 (← index rlp start)
  let r ← toInt 32 (← index rlp (start + 1))
  let s ← toInt 32 (← index rlp (start + 2))
  return { r := BitVec.ofNat 256 r, s := BitVec.ofNat 256 s, v := UInt8.ofNat v - VBase }

def isValid (sig : ECDSASignature) : Bool :=
  decide (sig.s.toNat ≤ c_secp256k1n / 2) && decide (sig.v.toNat ≤ 1)
    && decide (0 < sig.r.toNat) && decide (0 < sig.s.toNat)
    && decide (sig.r.toNat < c_secp256k1n) && decide (sig.s.toNat < c_secp256k1n)

end ECDSASignature

def ecdsa {H : Type} (hash : Bytes → H) (recover : ECDSASignature → H → Option Address) :
    SignatureScheme H ECDSASignature where
  hash := hash
  strings := ECDSASignature.strings
  fromRLP := ECDSASignature.fromRLP
  isValid := ECDSASignature.isValid
  recover := recover

/-! ### Encoding -/

def c_fieldCountRC1WithOutSig : Nat := 7
def c_fieldCountRC2WithOutSig : Nat := 10
def c_sigCount : Nat := 3

def Version.fieldCountWithOutSig : Version → Nat
  | .RC1 => c_fieldCountRC1WithOutSig
  | .RC2 => c_fieldCountRC2WithOutSig

section Codec

variable {H S : Type} (c : SignatureScheme H S)

def ofRLP {α : Type} (x : Except RLPError α) : Except TxException α := x.mapError .rlp

namespace Transaction

def streamFields (t : Transaction S) (s : RLPStream) : Except RLPError RLPStream := do
  let s ← appendBigint s t.nonce.toNat
  let s ← appendBigint s t.gasPrice.toNat
  let s ← appendBigint s t.gas.toNat
  let s ← appendBigint s t.blockLimit.toNat
  let s ← if t.type = .MessageCall then appendHash s t.receiveAddress else appendBytes s []
  let s ← appendBigint s t.value.toNat
  appendBytes s t.data

def streamFieldsRC2 (t : Transaction S) (s : RLPStream) : Except RLPError RLPStream := do
  let s ← appendBigint s t.chainId.toNat
  let s ← appendBigint s t.groupId.toNat
  appendBytes s t.extraData

/-- `if (_sig)`: the signature, which must be there. -/
def streamSignature (t : Transaction S) (sig : IncludeSignature) (s : RLPStream) :
    Except TxException RLPStream :=
  match sig with
  | .WithoutSignature => .ok s
  | .WithSignature =>
    match t.vrs with
    | none => .error .transactionIsUnsigned
    | some vrs => ofRLP (c.encode vrs s)

def listCount (fieldCount : Nat) (sig : IncludeSignature) : Nat :=
  (if sig = .WithSignature then c_sigCount else 0) + fieldCount

def encodeRC1 (t : Transaction S) (sig : IncludeSignature) : Except TxException Bytes :=
  if t.type = .NullTransaction then .ok []
  else do
    let s ← ofRLP (appendList {} (listCount c_fieldCountRC1WithOutSig sig))
    let s ← ofRLP (t.streamFields s)
    ofRLP (out (← t.streamSignature c sig s))

def encodeRC2 (t : Transaction S) (sig : IncludeSignature) : Except TxException Bytes :=
  if t.type = .NullTransaction then .ok []
  else do
    let s ← ofRLP (appendList {} (listCount c_fieldCountRC2WithOutSig sig))
    let s ← ofRLP (t.streamFields s)
    let s ← ofRLP (t.streamFieldsRC2 s)
    ofRLP (out (← t.streamSignature c sig s))

def encode (version : Version) (t : Transaction S) (sig : IncludeSignature := .WithSignature) :
    Except TxException Bytes :=
  match version with
  | .RC1 => t.encodeRC1 c sig
  | .RC2 => t.encodeRC2 c sig

def hash (version : Version) (t : Transaction S) (sig : IncludeSignature := .WithSignature) :
    Except TxException H :=
  return c.hash (← t.encode c version sig)

/-- `rlp()`: the received bytes when there are any. -/
def rlp (version : Version) (t : Transaction S) : Except TxException Bytes :=
  if t.rlpBuffer ≠ [] then .ok t.rlpBuffer else t.encode c version

/-- `sender()` of a transaction whose sender is not cached. -/
def sender (version : Version) (t : Transaction S) : Except TxException Address :=
  match t.vrs with
  | none => .error .transactionIsUnsigned
  | some vrs => do
    match c.recover vrs (← t.hash c version .WithoutSignature) with
    | none => .error .invalidSignature
    | some address => .ok address

/-! ### Decoding -/

def isEmpty (d : Bytes) : Bool :=
  !isNull d && (lead d == c_rlpDataImmLenStart || lead d == c_rlpListStart)

/-- `toInt<u256>`. -/
def toU256 (d : Bytes) : Except RLPError U256 :=
  return BitVec.ofNat 256 (← toInt 32 d)

structure FormatTexts where
  notList : String
  notArray : String
  invalidField : String

def FormatTexts.atField {α : Type} (texts : FormatTexts) (rlp : Bytes) (field : String)
    (x : Except TxException α) : Except TxException α :=
  x.mapError (.invalidField texts.invalidField field rlp)

def FormatTexts.read {α : Type} (texts : FormatTexts) (rlp : Bytes) (field : String)
    (x : Except RLPError α) : Except TxException α :=
  texts.atField rlp field (ofRLP x)

/-- `m_type` and `m_receiveAddress`: an empty item 4 is a contract creation. -/
def decodeReceiveAddress (texts : FormatTexts) (rlp : Bytes) :
    Except TxException (TransactionType × Address) := do
  let item ← texts.read rlp "receiveAddress" (index rlp 4)
  if isEmpty item then return (.ContractCreation, Address.zero)
  else return (.MessageCall, ← texts.read rlp "receiveAddress" (toHash 20 item))

/-- `m_data`: item 6 must be a string. -/
def decodeData (texts : FormatTexts) (rlp : Bytes) : Except TxException Bytes := do
  let item ← texts.read rlp "transactionData" (index rlp 6)
  if isData item then texts.read rlp "transactionData" (toBytes item)
  else texts.atField rlp "transactionData" (.error (.invalidTransactionFormat texts.notArray))

def decodeFields (texts : FormatTexts) (rlp : Bytes) : Except TxException (Transaction S) :=
  if isList rlp then do
    let nonce ← texts.read rlp "nonce" (do toU256 (← index rlp 0))
    let gasPrice ← texts.read rlp "gasPrice" (do toU256 (← index rlp 1))
    let gas ← texts.read rlp "gas" (do toU256 (← index rlp 2))
    let blockLimit ← texts.read rlp "blockLimit" (do toU256 (← index rlp 3))
    let (type, receiveAddress) ← decodeReceiveAddress texts rlp
    let value ← texts.read rlp "value" (do toU256 (← index rlp 5))
    let data ← decodeData texts rlp
    return { type, nonce, gasPrice, gas, blockLimit, receiveAddress, value, data }
  else texts.atField rlp "nonce" (.error (.invalidTransactionFormat texts.notList))

/-- What `_checkSig` asks of the signature. -/
def checkSignature (version : Version) (check : CheckTransaction) (t : Transaction S) (vrs : S) :
    Except TxException Unit :=
  if check ≠ .None ∧ c.isValid vrs = false then .error .invalidSignature
  else if check = .Everything then do
    let _ ← t.sender c version
    return ()
  else return ()

/-- The signature at `start`. -/
def decodeSignature (texts : FormatTexts) (version : Version) (check : CheckTransaction)
    (rlp : Bytes) (start : Nat) (t : Transaction S) : Except TxException (Transaction S) := do
  let vrs ← texts.read rlp "signature" (c.fromRLP rlp start)
  let _ ← texts.atField rlp "signature"
    (checkSignature c version check { t with vrs := some vrs } vrs)
  return { t with vrs := some vrs }

def textsRC1 : FormatTexts where
  notList := "rc1 transaction RLP must be a list"
  notArray := "rc1 transaction data RLP must be an array"
  invalidField := "invalid rc1 transaction format, invalid field name: "

def textsRC2 : FormatTexts where
  notList := "rc2 transaction RLP must be a list"
  notArray := "rc2 transaction data RLP must be an array"
  invalidField := "invalid rc2 transaction format, invalid Field:"

def decodeRC1 (check : CheckTransaction) (rlp : Bytes) : Except TxException (Transaction S) := do
  let t ← decodeFields textsRC1 rlp
  decodeSignature c textsRC1 .RC1 check rlp 7 t

def decodeRC2 (check : CheckTransaction) (rlp : Bytes) : Except TxException (Transaction S) := do
  let t ← decodeFields textsRC2 rlp
  let chainId ← textsRC2.read rlp "chainId" (do toU256 (← index rlp 7))
  let groupId ← textsRC2.read rlp "groupId" (do toU256 (← index rlp 8))
  let extraData ← textsRC2.read rlp "extraData" (do toBytes (← index rlp 9))
  decodeSignature c textsRC2 .RC2 check rlp 10 { t with chainId, groupId, extraData }

/-- `decode(RLP const&)`. -/
def decodeRLP (version : Version) (check : CheckTransaction) (rlp : Bytes) :
    Except TxException (Transaction S) :=
  match version with
  | .RC1 => decodeRC1 c check rlp
  | .RC2 => decodeRC2 c check rlp

/-- `decode(bytesConstRef)` on a fresh object. -/
def decode (version : Version) (check : CheckTransaction) (b : Bytes) :
    Except TxException (Transaction S) := do
  let rlp ← ofRLP (ofVeryStrict b)
  let t ← decodeRLP c version check rlp
  return { t with rlpBuffer := b }

end Transaction

end Codec

end HieraChain.Eth
