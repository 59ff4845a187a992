/-
  HieraChain/BlockHeaderHash.lean
  ===============================
  **The memoised hash of a block header** (`libethcore/BlockHeader.h`, `.cpp`).

  `hash()` keeps what it computes in `m_hash`, where zero stands for nothing.
  Every setter, `populateFromParent` and `clear` end in `noteDirty`, which stores
  zero; `populate`, and with it `decode`, does not.

  Headers refer to each other (`populateFromParent`, the assignment), and both
  call `hash()` of the other one, which may be the header itself; so the state
  is a family of headers.  A call that throws leaves what was assigned before.
-/
import HieraChain.Machine
import HieraChain.MissedTxsExchange
import HieraChain.TransactionCodec

namespace HieraChain.HeaderHash

open HieraChain.BigEndian HieraChain.RLP HieraChain.Eth
open HieraChain.PBFT (H256 vectorMaxSize strItems)
open HieraChain.Eth.Transaction (toU256 bytes_strItems toU256_strItem)

/-! ### The source -/

structure Env where
  /-- `crypto::Hash` -/
  Hash : Bytes → H256
  EmptyTrie : H256
  /-- A negative `bigint` as a `byte`, where the cast does not throw. -/
  castNegative : Int → Except RLPError UInt8

def zeroHash (size : Nat) : FixedHash size := ⟨List.replicate size 0, length_zeros size⟩

def Invalid256 : U256 := BitVec.allOnes 256

structure Fields where
  m_parentHash : H256 := zeroHash 32
  m_stateRoot : H256 := zeroHash 32
  m_transactionsRoot : H256 := zeroHash 32
  m_receiptsRoot : H256 := zeroHash 32
  m_dbHash : H256 := zeroHash 32
  m_logBloom : FixedHash 256 := zeroHash 256
  m_number : Int := 0
  m_gasLimit : U256 := 0
  m_gasUsed : U256 := 0
  m_timestamp : UInt64 := UInt64.ofNat (2 ^ 64 - 1)
  m_extraData : List Bytes := []
  m_sealer : U256 := Invalid256
  m_sealerList : List (FixedHash 64) := []

structure BlockHeader extends Fields where
  m_hash : H256 := zeroHash 32

/-- `append(bigint)` of a number that may be negative: this is below 0x80. -/
def appendNumber (env : Env) (s : RLPStream) (i : Int) : Except RLPError RLPStream :=
  if i < 0 then do
    let b ← env.castNegative i
    noteAppended { s with mOut := s.mOut ++ [b] }
  else appendBigint s i.toNat

/-- `appendVector` of byte strings. -/
def appendByteStrings (s : RLPStream) (v : List Bytes) : Except RLPError RLPStream := do
  v.foldlM appendBytes (← appendList s v.length)

namespace Fields

def BasicFields : Nat := 13

def streamRLPFields (env : Env) (h : Fields) (s : RLPStream) : Except RLPError RLPStream := do
  let s ← appendHash s h.m_parentHash
  let s ← appendHash s h.m_stateRoot
  let s ← appendHash s h.m_transactionsRoot
  let s ← appendHash s h.m_receiptsRoot
  let s ← appendHash s h.m_dbHash
  let s ← appendHash s h.m_logBloom
  let s ← appendNumber env s h.m_number
  let s ← appendBigint s h.m_gasLimit.toNat
  let s ← appendBigint s h.m_gasUsed.toNat
  let s ← appendBigint s h.m_timestamp.toNat
  let s ← appendByteStrings s h.m_extraData
  let s ← appendBigint s h.m_sealer.toNat
  appendVector s h.m_sealerList

def encode (env : Env) (h : Fields) : Except RLPError Bytes := do
  out (← h.streamRLPFields env (← appendList {} BasicFields))

/-- The assignments of `populate`, each with its read. -/
def reads (header : Bytes) : List (Except RLPError (Fields → Fields)) :=
  [do let v ← toHash 32 (← index header 0); return fun h => { h with m_parentHash := v },
    do let v ← toHash 32 (← index header 1); return fun h => { h with m_stateRoot := v },
    do let v ← toHash 32 (← index header 2); return fun h => { h with m_transactionsRoot := v },
    do let v ← toHash 32 (← index header 3); return fun h => { h with m_receiptsRoot := v },
    do let v ← toHash 32 (← index header 4); return fun h => { h with m_dbHash := v },
    do let v ← toHash 256 (← index header 5); return fun h => { h with m_logBloom := v },
    do let v ← toPositiveInt64 (← index header 6); return fun h => { h with m_number := v },
    do let v ← toU256 (← index header 7); return fun h => { h with m_gasLimit := v },
    do let v ← toU256 (← index header 8); return fun h => { h with m_gasUsed := v },
    do let v ← toInt 8 (← index header 9); return fun h => { h with m_timestamp := UInt64.ofNat v },
    do let v ← toVector toBytes (← index header 10); return fun h => { h with m_extraData := v },
    do let v ← toU256 (← index header 11); return fun h => { h with m_sealer := v },
    do let v ← toVector (toHashLax 64) (← index header 12); return fun h => { h with m_sealerList := v }]

def assign : List (Except RLPError (Fields → Fields)) → Fields → Except RLPError Unit × Fields
  | [], h => (.ok (), h)
  | .error e :: _, h => (.error e, h)
  | .ok f :: rest, h => assign rest (f h)

def populate (header : Bytes) (h : Fields) : Except RLPError Unit × Fields := assign (reads header) h

def decode (header_data : Bytes) (h : Fields) : Except RLPError Unit × Fields :=
  match ofVeryStrict header_data with
  | .error e => (.error e, h)
  | .ok header_rlp => populate header_rlp h

end Fields

namespace BlockHeader

variable (h : BlockHeader)

def noteDirty : BlockHeader := { h with m_hash := zeroHash 32 }

def hash (env : Env) : Except RLPError H256 × BlockHeader :=
  if h.m_hash = zeroHash 32 then
    match h.toFields.encode env with
    | .error e => (.error e, h)
    | .ok header => (.ok (env.Hash header), { h with m_hash := env.Hash header })
  else (.ok h.m_hash, h)

def setParentHash (parentHash : H256) : BlockHeader := noteDirty { h with m_parentHash := parentHash }

def setRoots (trans_root receipt_root state_root : H256) : BlockHeader :=
  noteDirty
    { h with
      m_transactionsRoot := trans_root
      m_receiptsRoot := receipt_root
      m_stateRoot := state_root }

def setDBhash (dbHash : H256) : BlockHeader := noteDirty { h with m_dbHash := dbHash }

def setLogBloom (logBloom : FixedHash 256) : BlockHeader := noteDirty { h with m_logBloom := logBloom }

def setNumber (blockNumber : Int) : BlockHeader := noteDirty { h with m_number := blockNumber }

def setGasLimit (gasLimit : U256) : BlockHeader := noteDirty { h with m_gasLimit := gasLimit }

def setGasUsed (gasUsed : U256) : BlockHeader := noteDirty { h with m_gasUsed := gasUsed }

def appendExtraDataArray (content : Bytes) : BlockHeader :=
  noteDirty { h with m_extraData := h.m_extraData ++ [content] }

def appendExtraDataItem (content : Bytes) (index : Nat) : Bool × BlockHeader :=
  if h.m_extraData.length ≤ index then (false, h)
  else (true, noteDirty { h with m_extraData := h.m_extraData.set index content })

/-- `setExtraData(bytes, unsigned)`, the same again. -/
def setExtraDataItem (content : Bytes) (index : Nat) : Bool × BlockHeader := h.appendExtraDataItem content index

def setExtraData (extra : List Bytes) : BlockHeader := noteDirty { h with m_extraData := extra }

def setTimestamp (timestamp : UInt64) : BlockHeader := noteDirty { h with m_timestamp := timestamp }

def setSealer (sealer : U256) : BlockHeader := noteDirty { h with m_sealer := sealer }

def setSealerList (sealerList : List (FixedHash 64)) : BlockHeader := noteDirty { h with m_sealerList := sealerList }

def setStateRoot (stateRoot : H256) : BlockHeader := noteDirty { h with m_stateRoot := stateRoot }

def setTransactionsRoot (transactionsRoot : H256) : BlockHeader :=
  noteDirty { h with m_transactionsRoot := transactionsRoot }

def setReceiptsRoot (receiptsRoot : H256) : BlockHeader := noteDirty { h with m_receiptsRoot := receiptsRoot }

def clear (env : Env) : BlockHeader :=
  noteDirty
    { h with
      m_parentHash := zeroHash 32
      m_stateRoot := env.EmptyTrie
      m_transactionsRoot := env.EmptyTrie
      m_receiptsRoot := env.EmptyTrie
      m_dbHash := zeroHash 32
      m_logBloom := zeroHash 256
      m_number := 0
      m_gasLimit := 0
      m_gasUsed := 0
      m_timestamp := UInt64.ofNat (2 ^ 64 - 1)
      m_extraData := []
      m_sealer := Invalid256
      m_sealerList := [] }

def populate (header : Bytes) : BlockHeader := { h with toFields := (h.toFields.populate header).2 }

def decode (header_data : Bytes) : BlockHeader := { h with toFields := (h.toFields.decode header_data).2 }

end BlockHeader

/-! ### Headers that refer to each other -/

inductive Setter
  | setParentHash (parentHash : H256)
  | setRoots (trans_root receipt_root state_root : H256)
  | setDBhash (dbHash : H256)
  | setLogBloom (logBloom : FixedHash 256)
  | setNumber (blockNumber : Int)
  | setGasLimit (gasLimit : U256)
  | setGasUsed (gasUsed : U256)
  | appendExtraDataArray (content : Bytes)
  | appendExtraDataItem (content : Bytes) (index : Nat)
  | setExtraDataItem (content : Bytes) (index : Nat)
  | setExtraData (extra : List Bytes)
  | setTimestamp (timestamp : UInt64)
  | setSealer (sealer : U256)
  | setSealerList (sealerList : List (FixedHash 64))
  | setStateRoot (stateRoot : H256)
  | setTransactionsRoot (transactionsRoot : H256)
  | setReceiptsRoot (receiptsRoot : H256)

def BlockHeader.set (h : BlockHeader) : Setter → BlockHeader
  | .setParentHash v => h.setParentHash v
  | .setRoots t r s => h.setRoots t r s
  | .setDBhash v => h.setDBhash v
  | .setLogBloom v => h.setLogBloom v
  | .setNumber v => h.setNumber v
  | .setGasLimit v => h.setGasLimit v
  | .setGasUsed v => h.setGasUsed v
  | .appendExtraDataArray v => h.appendExtraDataArray v
  | .appendExtraDataItem v i => (h.appendExtraDataItem v i).2
  | .setExtraDataItem v i => (h.setExtraDataItem v i).2
  | .setExtraData v => h.setExtraData v
  | .setTimestamp v => h.setTimestamp v
  | .setSealer v => h.setSealer v
  | .setSealerList v => h.setSealerList v
  | .setStateRoot v => h.setStateRoot v
  | .setTransactionsRoot v => h.setTransactionsRoot v
  | .setReceiptsRoot v => h.setReceiptsRoot v

abbrev Headers := Nat → BlockHeader

variable (env : Env) (hs : Headers) (i j : Nat)

/-- `hash()` of one header. -/
def hashAt : Except RLPError H256 × Headers :=
  ((hs i).hash env |>.1, Function.update hs i ((hs i).hash env).2)

/-- The assignment `i = j`; the copy constructor does the same to a new header. -/
def assignAt : Headers :=
  if i = j then hs
  else
    let hs := Function.update hs i { hs i with toFields := (hs j).toFields }
    match hashAt env hs j with
    | (.error _, hs) => hs
    | (.ok v, hs) => Function.update hs i { hs i with m_hash := v }

/-- `populateFromParent` of `i` with the parent `j`; the number is an `int64_t`. -/
def populateFromParentAt : Headers :=
  let hs := Function.update hs i { hs i with m_stateRoot := (hs j).m_stateRoot }
  let hs := Function.update hs i { hs i with m_number := Int.bmod ((hs j).m_number + 1) (2 ^ 64) }
  match hashAt env hs j with
  | (.error _, hs) => hs
  | (.ok v, hs) =>
    let hs := Function.update hs i { hs i with m_parentHash := v }
    let hs := Function.update hs i { hs i with m_gasLimit := (hs j).m_gasLimit }
    Function.update hs i (BlockHeader.noteDirty { hs i with m_gasUsed := 0, m_sealer := Invalid256 })

inductive Op
  | set (setter : Setter)
  | populateFromParent (parent : Nat)
  | populate (header : Bytes)
  | decode (header_data : Bytes)
  | clear
  | copy (other : Nat)
  | hash

def step (hs : Headers) : Nat × Op → Headers
  | (i, .set setter) => Function.update hs i ((hs i).set setter)
  | (i, .populateFromParent parent) => populateFromParentAt env hs i parent
  | (i, .populate header) => Function.update hs i ((hs i).populate header)
  | (i, .decode header_data) => Function.update hs i ((hs i).decode header_data)
  | (i, .clear) => Function.update hs i ((hs i).clear env)
  | (i, .copy other) => assignAt env hs i other
  | (i, .hash) => (hashAt env hs i).2

def machine : Machine Headers (Nat × Op) where
  step := step env

/-! ### Coherence -/

/-- `hash()` returns the hash of `encode()`, and throws where this throws. -/
def Coherent (h : BlockHeader) : Prop := (h.hash env).1 = (h.toFields.encode env).map env.Hash

/-- `hash()` does not throw. -/
def Answers (h : BlockHeader) : Prop := h.m_hash ≠ zeroHash 32 ∨ ∃ b, h.toFields.encode env = .ok b

/-- Fields are read into a header only while it has no memo, or leave it as it is; and
    while it has one, it takes nothing from a header whose hash throws. -/
def Settled (hs : Headers) : Nat × Op → Prop
  | (i, .populate header) =>
    (hs i).m_hash = zeroHash 32 ∨ ((hs i).toFields.populate header).2 = (hs i).toFields
  | (i, .decode header_data) =>
    (hs i).m_hash = zeroHash 32 ∨ ((hs i).toFields.decode header_data).2 = (hs i).toFields
  | (i, .populateFromParent parent) => (hs i).m_hash = zeroHash 32 ∨ Answers env (hs parent)
  | (i, .copy other) => (hs i).m_hash = zeroHash 32 ∨ Answers env (hs other)
  | _ => True

section coherence

variable {env} {hs} {i j : Nat} {h : BlockHeader}

theorem hash_of_zero (hzero : h.m_hash = zeroHash 32) :
    (h.hash env).1 = (h.toFields.encode env).map env.Hash := by
  rw [BlockHeader.hash, if_pos hzero]
  cases h.toFields.encode env with
  | error e => rfl
  | ok b => rfl

theorem coherent_of_zero (hzero : h.m_hash = zeroHash 32) : Coherent env h := hash_of_zero hzero

theorem hash_of_ne_zero (hne : h.m_hash ≠ zeroHash 32) : h.hash env = (.ok h.m_hash, h) := by
  rw [BlockHeader.hash, if_neg hne]

theorem coherent_of_memo (hmemo : (h.toFields.encode env).map env.Hash = .ok h.m_hash) : Coherent env h := by
  by_cases hzero : h.m_hash = zeroHash 32
  · exact coherent_of_zero hzero
  · rw [Coherent, hash_of_ne_zero hzero, hmemo]

theorem coherent_noteDirty : Coherent env h.noteDirty := coherent_of_zero rfl

theorem hash_fields : (h.hash env).2.toFields = h.toFields := by
  by_cases hzero : h.m_hash = zeroHash 32
  · rw [BlockHeader.hash, if_pos hzero]
    cases h.toFields.encode env with
    | error e => rfl
    | ok b => rfl
  · rw [hash_of_ne_zero hzero]

theorem hash_stores {b : Bytes} (hzero : h.m_hash = zeroHash 32) (hencode : h.toFields.encode env = .ok b) :
    (h.hash env).2 = { h with m_hash := env.Hash b } := by
  rw [BlockHeader.hash, if_pos hzero, hencode]

theorem hash_memo {v : H256} (hv : (h.hash env).1 = .ok v) : (h.hash env).2.m_hash = v := by
  by_cases hzero : h.m_hash = zeroHash 32
  · rw [BlockHeader.hash, if_pos hzero] at hv ⊢
    cases hencode : h.toFields.encode env with
    | error e =>
      rw [hencode] at hv
      cases hv
    | ok b =>
      rw [hencode] at hv
      cases hv
      rfl
  · rw [hash_of_ne_zero hzero] at hv ⊢
    cases hv
    rfl

theorem hash_of_error {e : RLPError} (herror : (h.hash env).1 = .error e) :
    (h.hash env).2 = h ∧ h.m_hash = zeroHash 32 ∧ ¬ Answers env h := by
  by_cases hzero : h.m_hash = zeroHash 32
  · rw [BlockHeader.hash, if_pos hzero] at herror ⊢
    cases hencode : h.toFields.encode env with
    | error e' =>
      refine ⟨rfl, hzero, ?_⟩
      rintro (hne | ⟨b, hb⟩)
      · exact hne hzero
      · rw [hencode] at hb
        cases hb
    | ok b =>
      rw [hencode] at herror
      cases herror
  · rw [hash_of_ne_zero hzero] at herror
    cases herror

theorem coherent_hash (hc : Coherent env h) : Coherent env (h.hash env).2 := by
  cases hv : (h.hash env).1 with
  | error e =>
    rw [(hash_of_error hv).1]
    exact hc
  | ok v =>
    refine coherent_of_memo ?_
    rw [hash_fields, hash_memo hv, ← hv]
    exact hc.symm

theorem coherent_set (hc : Coherent env h) (setter : Setter) : Coherent env (h.set setter) := by
  have hitem : ∀ content index, Coherent env (h.appendExtraDataItem content index).2 := by
    intro content index
    rw [BlockHeader.appendExtraDataItem]
    split
    · exact hc
    · exact coherent_noteDirty
  cases setter with
  | appendExtraDataItem content index => exact hitem content index
  | setExtraDataItem content index => exact hitem content index
  | _ => exact coherent_noteDirty

theorem coherent_populate {fields : Fields} (hc : Coherent env h)
    (hsettled : h.m_hash = zeroHash 32 ∨ fields = h.toFields) : Coherent env { h with toFields := fields } := by
  rcases hsettled with hzero | hsame
  · exact coherent_of_zero hzero
  · subst hsame
    exact hc

theorem coherent_update (hc : ∀ k, Coherent env (hs k)) (hi : Coherent env h) :
    ∀ k, Coherent env (Function.update hs i h k) := by
  intro k
  by_cases hk : k = i
  · subst hk
    rw [Function.update_self]
    exact hi
  · rw [Function.update_of_ne hk]
    exact hc k

theorem coherent_assignAt (hc : ∀ k, Coherent env (hs k))
    (hsettled : (hs i).m_hash = zeroHash 32 ∨ Answers env (hs j)) : ∀ k, Coherent env (assignAt env hs i j k) := by
  rw [assignAt]
  split
  next => exact hc
  next hij =>
    have hother : Function.update hs i { hs i with toFields := (hs j).toFields } j = hs j :=
      Function.update_of_ne (Ne.symm hij) ..
    dsimp only
    rw [hashAt, hother]
    cases hv : ((hs j).hash env).1 with
    | error e =>
      obtain ⟨hsame, -, hnot⟩ := hash_of_error hv
      have hzero := hsettled.resolve_right hnot
      dsimp only
      rw [hsame]
      exact coherent_update (coherent_update hc (coherent_of_zero hzero)) (hc j)
    | ok v =>
      intro k
      dsimp only
      rw [Function.update_of_ne hij, Function.update_self]
      by_cases hk : k = i
      · subst hk
        rw [Function.update_self]
        refine coherent_of_memo ?_
        rw [← hv]
        exact (hc j).symm
      · rw [Function.update_of_ne hk]
        by_cases hkj : k = j
        · subst hkj
          rw [Function.update_self]
          exact coherent_hash (hc k)
        · rw [Function.update_of_ne hkj, Function.update_of_ne hk]
          exact hc k

theorem coherent_populateFromParentAt (hc : ∀ k, Coherent env (hs k))
    (hsettled : (hs i).m_hash = zeroHash 32 ∨ Answers env (hs j)) :
    ∀ k, Coherent env (populateFromParentAt env hs i j k) := by
  rw [populateFromParentAt]
  dsimp only
  -- the header while its own fields are assigned
  obtain ⟨half, hhalf, hmemo⟩ : ∃ half : BlockHeader, Function.update
      (Function.update hs i { hs i with m_stateRoot := (hs j).m_stateRoot }) i
      { Function.update hs i { hs i with m_stateRoot := (hs j).m_stateRoot } i with
        m_number := Int.bmod
          ((Function.update hs i { hs i with m_stateRoot := (hs j).m_stateRoot } j).m_number + 1) (2 ^ 64) }
      = Function.update hs i half ∧ half.m_hash = (hs i).m_hash := by
    refine ⟨_, Function.update_idem .., ?_⟩
    rw [Function.update_self]
  rw [hhalf]
  have hothers : ∀ k, k ≠ i → Coherent env (Function.update hs i half k) := by
    intro k hk
    rw [Function.update_of_ne hk]
    exact hc k
  rw [hashAt]
  cases hv : ((Function.update hs i half j).hash env).1 with
  | error e =>
    obtain ⟨hsame, hzero, hnot⟩ := hash_of_error hv
    dsimp only
    rw [hsame, Function.update_eq_self]
    have hown : half.m_hash = zeroHash 32 := by
      by_cases hij : j = i
      · subst hij
        rw [Function.update_self] at hzero
        exact hzero
      · rw [Function.update_of_ne hij] at hnot
        exact hmemo.trans (hsettled.resolve_right hnot)
    exact coherent_update hc (coherent_of_zero hown)
  | ok v =>
    intro k
    dsimp only
    by_cases hk : k = i
    · subst hk
      rw [Function.update_self]
      exact coherent_noteDirty
    · rw [Function.update_of_ne hk, Function.update_of_ne hk, Function.update_of_ne hk]
      by_cases hkj : k = j
      · subst hkj
        rw [Function.update_self]
        exact coherent_hash (hothers k hk)
      · rw [Function.update_of_ne hkj]
        exact hothers k hk

theorem coherent_step (hc : ∀ k, Coherent env (hs k)) (op : Nat × Op) (hsettled : Settled env hs op) :
    ∀ k, Coherent env (step env hs op k) := by
  obtain ⟨i, op⟩ := op
  cases op with
  | set setter => exact coherent_update hc (coherent_set (hc i) setter)
  | populateFromParent parent => exact coherent_populateFromParentAt hc hsettled
  | populate header => exact coherent_update hc (coherent_populate (hc i) hsettled)
  | decode header_data => exact coherent_update hc (coherent_populate (hc i) hsettled)
  | clear => exact coherent_update hc coherent_noteDirty
  | copy other => exact coherent_assignAt hc hsettled
  | hash => exact coherent_update hc (coherent_hash (hc i))

/-- **A run.** -/
theorem coherent_run (hc : ∀ k, Coherent env (hs k)) {ops : List (Nat × Op)}
    (hsettled : (machine env).RunOk (Settled env) hs ops) : ∀ k, Coherent env ((machine env).run hs ops k) := by
  have hstep : ∀ hs' op, (∀ k, Coherent env (hs' k)) → Settled env hs' op →
      ∀ k, Coherent env ((machine env).step hs' op k) :=
    fun _ op hc' hsettled' => coherent_step hc' op hsettled'
  exact (machine env).run_invariant hstep hc hsettled

end coherence

/-! ### Decoding what was encoded -/

def listOf (ps : List Bytes) : Bytes × Bytes := (listItem (strItems ps).bytes, (strItems ps).bytes)

def Fields.items (h : Fields) : Items :=
  strItems
      [h.m_parentHash.data, h.m_stateRoot.data, h.m_transactionsRoot.data, h.m_receiptsRoot.data, h.m_dbHash.data,
        h.m_logBloom.data, bigEndian h.m_number.toNat, bigEndian h.m_gasLimit.toNat, bigEndian h.m_gasUsed.toNat,
        bigEndian h.m_timestamp.toNat]
    ++ [listOf h.m_extraData, (strItem (bigEndian h.m_sealer.toNat), bigEndian h.m_sealer.toNat),
      listOf (h.m_sealerList.map FixedHash.data)]

section codec

variable {env : Env} {h : Fields}

theorem appends_byteStrings (v : List Bytes) : Appends (fun s => appendByteStrings s v) (listOf v).1 := by
  have hlist := appends_list (v.map fun b => (fun s => appendBytes s b, strItem b)) (fun w hw => by
    obtain ⟨b, -, rfl⟩ := List.mem_map.mp hw
    exact appends_bytes b)
  simp only [List.length_map, List.map_map, List.foldlM_map, Function.comp_def] at hlist
  rw [listOf, bytes_strItems]
  exact hlist

theorem appends_number (hnumber : 0 ≤ h.m_number) :
    Appends (fun s => appendNumber env s h.m_number) (strItem (bigEndian h.m_number.toNat)) := by
  intro s
  show appendNumber env s h.m_number = _
  rw [appendNumber, if_neg (by omega)]
  exact appends_bigint _ s

/-- **A header is written as the list of its items.** -/
theorem encode_eq (hnumber : 0 ≤ h.m_number) : h.encode env = .ok (listItem h.items.bytes) := by
  have hsealers : Appends (fun s => appendVector s h.m_sealerList) (listOf (h.m_sealerList.map FixedHash.data)).1 := by
    have hvector := appends_vector h.m_sealerList
    rw [listOf, bytes_strItems, List.map_map]
    exact hvector
  have hlist := (appends_list
    [(fun s => appendHash s h.m_parentHash, strItem h.m_parentHash.data),
      (fun s => appendHash s h.m_stateRoot, strItem h.m_stateRoot.data),
      (fun s => appendHash s h.m_transactionsRoot, strItem h.m_transactionsRoot.data),
      (fun s => appendHash s h.m_receiptsRoot, strItem h.m_receiptsRoot.data),
      (fun s => appendHash s h.m_dbHash, strItem h.m_dbHash.data),
      (fun s => appendHash s h.m_logBloom, strItem h.m_logBloom.data),
      (fun s => appendNumber env s h.m_number, strItem (bigEndian h.m_number.toNat)),
      (fun s => appendBigint s h.m_gasLimit.toNat, strItem (bigEndian h.m_gasLimit.toNat)),
      (fun s => appendBigint s h.m_gasUsed.toNat, strItem (bigEndian h.m_gasUsed.toNat)),
      (fun s => appendBigint s h.m_timestamp.toNat, strItem (bigEndian h.m_timestamp.toNat)),
      (fun s => appendByteStrings s h.m_extraData, (listOf h.m_extraData).1),
      (fun s => appendBigint s h.m_sealer.toNat, strItem (bigEndian h.m_sealer.toNat)),
      (fun s => appendVector s h.m_sealerList, (listOf (h.m_sealerList.map FixedHash.data)).1)] (by
    simp only [List.forall_mem_cons, List.not_mem_nil, false_imp_iff, implies_true, and_true]
    exact ⟨appends_hash _, appends_hash _, appends_hash _, appends_hash _, appends_hash _, appends_hash _,
      appends_number hnumber, appends_bigint _, appends_bigint _, appends_bigint _, appends_byteStrings _,
      appends_bigint _, hsealers⟩)).run []
  rw [List.nil_append] at hlist
  have hstream : (appendList {} Fields.BasicFields >>= fun s => h.streamRLPFields env s)
      = .ok { mOut := listItem h.items.bytes, mListStack := [] } := by
    simpa [Fields.streamRLPFields, Fields.items, Items.bytes, strItems, listOf, Fields.BasicFields] using hlist
  rw [Fields.encode, ← bind_assoc, hstream]
  rfl

theorem mapM_ok {α β : Type} {f : α → Except RLPError β} {g : β → α} {v : List β} (h : ∀ x ∈ v, f (g x) = .ok x) :
    (v.map g).mapM f = .ok v := by
  induction v with
  | nil => rfl
  | cons x v ih =>
    rw [List.map_cons, List.mapM_cons, h x List.mem_cons_self, ih fun y hy => h y (List.mem_cons_of_mem _ hy)]
    rfl

theorem isItem_strItems {ps : List Bytes} (hsize : SizeOk (strItems ps).bytes.length) :
    ∀ it ∈ strItems ps, IsItem it.1 it.2 := by
  intro it hit
  obtain ⟨p, hp, rfl⟩ := List.mem_map.mp hit
  exact strItem_isItem (PBFT.sizeOk_of_mem_strItems hsize hp)

theorem toVector_listOf {β : Type} {convert : Bytes → Except RLPError β} {g : β → Bytes} {v : List β}
    (hsize : SizeOk (listOf (v.map g)).2.length) (hread : ∀ x ∈ v, convert (strItem (g x)) = .ok x) :
    toVector convert (listOf (v.map g)).1 = .ok v := by
  rw [listOf, toVector_listItem hsize (isItem_strItems hsize), strItems, List.map_map, List.map_map]
  exact mapM_ok hread

section items

variable (hsize : SizeOk h.items.bytes.length)
include hsize

theorem sizeOk_payload {it : Bytes × Bytes} (hit : it ∈ h.items) (hle : it.2.length ≤ it.1.length) :
    SizeOk it.2.length :=
  hsize.mono (Nat.le_trans hle (PBFT.length_item_le_bytes hit))

theorem sizeOk_listOf {ps : List Bytes} (hmem : listOf ps ∈ h.items) : SizeOk (strItems ps).bytes.length :=
  sizeOk_payload hsize hmem (PBFT.length_payload_le_listItem _)

theorem isItem_items : ∀ it ∈ h.items, IsItem it.1 it.2 := by
  have hlist : ∀ ps, listOf ps ∈ h.items → IsItem (listOf ps).1 (listOf ps).2 :=
    fun ps hmem => listItem_isItem (sizeOk_listOf hsize hmem)
  have hstr : ∀ p, (strItem p, p) ∈ h.items → IsItem (strItem p) p :=
    fun p hmem => strItem_isItem (sizeOk_payload hsize hmem (PBFT.length_payload_le_strItem _))
  intro it hit
  have hcases := hit
  rw [Fields.items, List.mem_append, List.mem_cons, List.mem_cons, List.mem_singleton] at hcases
  rcases hcases with hstrs | rfl | rfl | rfl
  · obtain ⟨p, -, rfl⟩ := List.mem_map.mp hstrs
    exact hstr p hit
  · exact hlist _ hit
  · exact hstr _ hit
  · exact hlist _ hit

theorem index_items {k : Nat} {it : Bytes × Bytes} (hk : h.items[k]? = some it) :
    index (listItem h.items.bytes) k = .ok it.1 :=
  index_of_items (listItem_isItem hsize) (isItem_items hsize) hk

/-- **Every read finds its field.** -/
theorem populate_items (hnumber : 0 ≤ h.m_number) (hlt : h.m_number < 2 ^ 63) (target : Fields) :
    target.populate (listItem h.items.bytes) = (.ok (), h) := by
  have hhash : ∀ {size : Nat} (v : FixedHash size), size ≤ 2 ^ 60 → toHash size (strItem v.data) = .ok v :=
    fun v hle => toHash_strItem v (sizeOk_of_le hle)
  have hnum : toPositiveInt64 (strItem (bigEndian h.m_number.toNat)) = .ok h.m_number := by
    rw [toPositiveInt64_strItem (by omega), Int.toNat_of_nonneg hnumber]
  have htime : toInt 8 (strItem (bigEndian h.m_timestamp.toNat)) = .ok h.m_timestamp.toNat :=
    toInt_strItem (by omega) h.m_timestamp.toNat_lt
  have hextra : toVector toBytes (listOf h.m_extraData).1 = .ok h.m_extraData := by
    have hok : SizeOk (strItems h.m_extraData).bytes.length :=
      sizeOk_listOf hsize (List.mem_append_right _ List.mem_cons_self)
    have hread : toVector toBytes (listOf (h.m_extraData.map id)).1 = .ok h.m_extraData := by
      refine toVector_listOf ?_ fun x hx => toBytes_strItem (PBFT.sizeOk_of_mem_strItems hok hx)
      rw [List.map_id]
      exact hok
    rwa [List.map_id] at hread
  have hsealers : toVector (toHashLax 64) (listOf (h.m_sealerList.map FixedHash.data)).1 = .ok h.m_sealerList := by
    refine toVector_listOf ?_ fun x _ => toHashLax_strItem x (sizeOk_of_le (by omega))
    exact sizeOk_listOf hsize (List.mem_append_right _ (List.mem_cons_of_mem _ (List.mem_cons_of_mem _
      List.mem_cons_self)))
  rw [Fields.populate, Fields.reads]
  rw [index_items hsize (k := 0) rfl, index_items hsize (k := 1) rfl, index_items hsize (k := 2) rfl,
    index_items hsize (k := 3) rfl, index_items hsize (k := 4) rfl, index_items hsize (k := 5) rfl,
    index_items hsize (k := 6) rfl, index_items hsize (k := 7) rfl, index_items hsize (k := 8) rfl,
    index_items hsize (k := 9) rfl, index_items hsize (k := 10) rfl, index_items hsize (k := 11) rfl,
    index_items hsize (k := 12) rfl]
  simp only [bind, Except.bind, hhash _ (show 32 ≤ 2 ^ 60 by omega), hhash _ (show 256 ≤ 2 ^ 60 by omega), hnum,
    toU256_strItem, htime, hextra, hsealers, pure, Except.pure, Fields.assign, UInt64.ofNat_toNat]

end items

/-- **`decode` restores what `encode` wrote.** -/
theorem decode_encode (hnumber : 0 ≤ h.m_number) (hlt : h.m_number < 2 ^ 63) {b : Bytes}
    (hencode : h.encode env = .ok b) (hfits : b.length ≤ vectorMaxSize) (target : Fields) :
    target.decode b = (.ok (), h) := by
  rw [encode_eq hnumber] at hencode
  cases hencode
  have hsize : SizeOk h.items.bytes.length := by
    refine SizeOk.mono ?_ (PBFT.length_payload_le_listItem _)
    unfold SizeOk sizeMax
    unfold vectorMaxSize at hfits
    omega
  rw [Fields.decode, (listItem_isItem hsize).ofVeryStrict_eq]
  exact populate_items hsize hnumber hlt target

end codec

/-! ### Hash and codec -/

/-- **Headers that are read into only without a memo have the hash of their
    encoding**, and decoding restores every encoded header. -/
theorem hash_coherent (env : Env) (hs : Headers) (hc : ∀ k, Coherent env (hs k)) :
    (∀ ops, (machine env).RunOk (Settled env) hs ops → ∀ k, Coherent env ((machine env).run hs ops k))
      ∧ ∀ (h : Fields) (b : Bytes), 0 ≤ h.m_number → h.m_number < 2 ^ 63 → h.encode env = .ok b →
        b.length ≤ vectorMaxSize → ∀ target : Fields, target.decode b = (.ok (), h) := by
  constructor
  · exact fun ops hsettled => coherent_run hc hsettled
  · exact fun h b hnumber hlt hencode hfits target => decode_encode hnumber hlt hencode hfits target

section decoded

def numbered : Fields := { m_number := 1 }

def plainEnv : Env where
  Hash b :=
    if b = listItem ({} : Fields).items.bytes then ⟨List.replicate 32 1, List.length_replicate⟩
    else ⟨List.replicate 32 2, List.length_replicate⟩
  EmptyTrie := zeroHash 32
  castNegative _ := .error .badCast

theorem numbered_number : 0 ≤ numbered.m_number ∧ numbered.m_number < 2 ^ 63 := by
  show (0 : Int) ≤ 1 ∧ (1 : Int) < 2 ^ 63
  omega

theorem numbered_fits : (listItem numbered.items.bytes).length ≤ vectorMaxSize := by decide +kernel

theorem plainEnv_hash (b : Bytes) :
    plainEnv.Hash b
      = if b = listItem ({} : Fields).items.bytes then ⟨List.replicate 32 1, List.length_replicate⟩
        else ⟨List.replicate 32 2, List.length_replicate⟩ := rfl

/-- A new header that is decoded into, then hashed and set. -/
theorem hash_coherent_plain :
    (∀ k, Coherent plainEnv ((machine plainEnv).run (fun _ => {})
        [(0, .decode (listItem numbered.items.bytes)), (0, .hash), (0, .set (.setNumber 7)), (0, .hash)] k))
      ∧ ({} : Fields).decode (listItem numbered.items.bytes) = (.ok (), numbered) := by
  have hnew : ∀ k : Nat, Coherent plainEnv ((fun _ => {} : Headers) k) := fun _ => coherent_of_zero rfl
  have hencode : numbered.encode plainEnv = .ok (listItem numbered.items.bytes) := encode_eq numbered_number.1
  obtain ⟨hrun, hdecode⟩ := hash_coherent plainEnv (fun _ => {}) hnew
  refine ⟨hrun _ ⟨Or.inl rfl, trivial, trivial, trivial, trivial⟩, ?_⟩
  exact hdecode numbered _ numbered_number.1 numbered_number.2 hencode numbered_fits {}

/-- **A header that is decoded into after `hash()` keeps the old hash.** -/
theorem not_coherent_decoded :
    ¬ Coherent plainEnv ((machine plainEnv).run (fun _ => {})
      [(0, .hash), (0, .decode (listItem numbered.items.bytes))] 0) := by
  have hnew : ({} : Fields).encode plainEnv = .ok (listItem ({} : Fields).items.bytes) := encode_eq le_rfl
  have hencode : numbered.encode plainEnv = .ok (listItem numbered.items.bytes) := encode_eq numbered_number.1
  have hdecode : ∀ target : Fields, target.decode (listItem numbered.items.bytes) = (.ok (), numbered) :=
    decode_encode numbered_number.1 numbered_number.2 hencode numbered_fits
  have hne : listItem numbered.items.bytes ≠ listItem ({} : Fields).items.bytes := by decide +kernel
  have hhash : (({} : BlockHeader).hash plainEnv).2
      = { m_hash := plainEnv.Hash (listItem ({} : Fields).items.bytes) } := hash_stores rfl hnew
  have hstate : (machine plainEnv).run (fun _ => {}) [(0, .hash), (0, .decode (listItem numbered.items.bytes))] 0
      = { numbered with m_hash := plainEnv.Hash (listItem ({} : Fields).items.bytes) } := by
    rw [Machine.run_cons, Machine.run_cons, Machine.run_nil, machine]
    dsimp only [step, hashAt]
    rw [Function.update_self, Function.update_self, hhash, BlockHeader.decode, hdecode]
  have hmemo : plainEnv.Hash (listItem ({} : Fields).items.bytes) = ⟨List.replicate 32 1, List.length_replicate⟩ := by
    rw [plainEnv_hash, if_pos rfl]
  have hfresh : plainEnv.Hash (listItem numbered.items.bytes) = ⟨List.replicate 32 2, List.length_replicate⟩ := by
    rw [plainEnv_hash, if_neg hne]
  intro hc
  rw [Coherent, hstate, hmemo, hash_of_ne_zero (by decide)] at hc
  change Except.ok _ = (numbered.encode plainEnv).map plainEnv.Hash at hc
  rw [hencode] at hc
  change Except.ok _ = Except.ok (plainEnv.Hash _) at hc
  rw [hfresh, Except.ok.injEq] at hc
  exact absurd hc (by decide)

end decoded

end HieraChain.HeaderHash
