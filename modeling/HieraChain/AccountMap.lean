/-
  HieraChain/AccountMap.lean
  ==========================
  **The account state as a map.**

  What the state is for: a map from addresses to balance, nonce, code and
  storage, with savepoints that remember maps.  A state represents a map when
  every account of the map has its rows and every other address has no open
  table (`Represents`).  The setters keep this (`Represents.step`), and so does
  a rollback that takes back no creation of an account: of such a one the table
  stays open without rows.  The getters of a represented map are the map's
  (`Represents.agrees`), except that from 2.5.0 to 2.8.0 the hash of the code is
  written as bytes and read as hexadecimal digits.
-/
import HieraChain.Machine
import HieraChain.StorageState

namespace HieraChain.StorageState

open HieraChain.BigEndian HieraChain.Storage HieraChain.Account
open HieraChain.Decimal (decimal ofDecimal)
open HieraChain.Hex (toHex)
open HieraChain.UndoLog (Log)

/-! ### The map -/

structure Data where
  balance : U256
  nonce : U256
  code : Bytes
  storage : U256 → U256

abbrev AccountMap := Address → Option Data

def Data.fresh (nonce balance : U256) : Data := { balance, nonce, code := [], storage := fun _ => 0 }

namespace AccountMap

variable (c : Config) (m : AccountMap) (address : Address)

def change (change : Data → Data) (missing : Option Data) : AccountMap :=
  Function.update m address
    (match m address with
    | some data => some (change data)
    | none => missing)

def createContract : AccountMap := m.change address id (some (.fresh c.accountStartNonce 0))

def addBalance (amount : U256) : AccountMap :=
  if amount = 0 then m
  else m.change address (fun data => { data with balance := data.balance + amount })
    (some (.fresh c.accountStartNonce amount))

def subBalance (amount : U256) : Option AccountMap :=
  match m address with
  | some data =>
    if data.balance < amount then none
    else some (m.change address (fun data => { data with balance := data.balance - amount }) none)
  | none => none

def setBalance (amount : U256) : AccountMap :=
  m.change address (fun data => { data with balance := amount }) (some (.fresh c.accountStartNonce amount))

def transferBalance (source target : Address) (value : U256) : Option AccountMap :=
  (m.subBalance source value).map fun m => m.addBalance c target value

def incNonce : AccountMap :=
  m.change address (fun data => { data with nonce := data.nonce + 1 }) (some (.fresh (c.accountStartNonce + 1) 0))

def setNonce (nonce : U256) : AccountMap :=
  m.change address (fun data => { data with nonce }) (some (.fresh nonce 0))

def setStorage (location value : U256) : AccountMap :=
  m.change address (fun data => { data with storage := Function.update data.storage location value }) none

def setCode (code : Bytes) : AccountMap := m.change address (fun data => { data with code }) none

def kill : AccountMap :=
  m.change address (fun data => { data with balance := 0, nonce := c.accountStartNonce, code := [] }) none

end AccountMap

/-! ### Runs -/

/-- The calls of a transaction's execution.  A rollback goes to the newest
    savepoint but `depth`, which stays. -/
inductive Input
  | createContract (address : Address)
  | addBalance (address : Address) (amount : U256)
  | subBalance (address : Address) (amount : U256)
  | setBalance (address : Address) (amount : U256)
  | transferBalance (source target : Address) (value : U256)
  | incNonce (address : Address)
  | setNonce (address : Address) (nonce : U256)
  | setStorage (address : Address) (location value : U256)
  | setCode (address : Address) (code : Bytes)
  | kill (address : Address)
  | savepoint
  | rollback (depth : Nat)

structure Run where
  state : State
  savepoints : List Nat := []

structure MapRun where
  accounts : AccountMap
  savepoints : List AccountMap := []

def leaves (s : State) : Except Failure State → State
  | .ok s' => s'
  | .error _ => s

section
variable (c : Config)

def State.call (s : State) : Input → State
  | .createContract address => s.createContract c address
  | .addBalance address amount => s.addBalance c address amount
  | .subBalance address amount => leaves s (s.subBalance c address amount)
  | .setBalance address amount => s.setBalance c address amount
  | .transferBalance source target value => leaves s (s.transferBalance c source target value)
  | .incNonce address => s.incNonce c address
  | .setNonce address nonce => s.setNonce c address nonce
  | .setStorage address location value => s.setStorage c address location value
  | .setCode address code => s.setCode c address code
  | .kill address => s.kill c address
  | .savepoint => s
  | .rollback _ => s

def AccountMap.call (m : AccountMap) : Input → AccountMap
  | .createContract address => m.createContract c address
  | .addBalance address amount => m.addBalance c address amount
  | .subBalance address amount => (m.subBalance address amount).getD m
  | .setBalance address amount => m.setBalance c address amount
  | .transferBalance source target value => (m.transferBalance c source target value).getD m
  | .incNonce address => m.incNonce c address
  | .setNonce address nonce => m.setNonce address nonce
  | .setStorage address location value => m.setStorage address location value
  | .setCode address code => m.setCode address code
  | .kill address => m.kill c address
  | .savepoint => m
  | .rollback _ => m

def states : Machine Run Input where
  step r
    | .savepoint => { r with savepoints := r.state.savepoint :: r.savepoints }
    | .rollback depth =>
      match r.savepoints.drop depth with
      | [] => r
      | savepoint :: older => { state := r.state.rollback savepoint, savepoints := savepoint :: older }
    | i => { r with state := r.state.call c i }

def accountMaps : Machine MapRun Input where
  step r
    | .savepoint => { r with savepoints := r.accounts :: r.savepoints }
    | .rollback depth =>
      match r.savepoints.drop depth with
      | [] => r
      | accounts :: older => { accounts := accounts, savepoints := accounts :: older }
    | i => { r with accounts := r.accounts.call c i }

/-! ### The property and the condition -/

/-- The getters of the state are the map's, and `subBalance` throws where the
    map has too little. -/
structure Agrees (s : State) (m : AccountMap) : Prop where
  addressInUse : ∀ a, s.addressInUse c a = (m a).isSome
  balance : ∀ a, s.balance c a = ((m a).map Data.balance).getD 0
  getNonce : ∀ a, s.getNonce c a = ((m a).map Data.nonce).getD c.accountStartNonce
  code : ∀ a, s.code c a = ((m a).map Data.code).getD []
  codeHash : ∀ a, s.codeHash c a = c.hash (((m a).map Data.code).getD [])
  addressHasCode : ∀ a, s.addressHasCode c a = decide (((m a).map Data.code).getD [] ≠ [])
  storage : ∀ a key, s.storage c a key = ((m a).map fun data => data.storage key).getD 0
  nonempty : ∀ a, s.accountNonemptyAndExisting c a = match m a with
    | some data => decide (data.balance > 0) || decide (data.code ≠ []) || decide (data.nonce ≠ c.accountStartNonce)
    | none => false
  throws : ∀ a amount, s.subBalance c a amount = .error .NotEnoughCash ↔ m.subBalance a amount = none

def Readable : Prop := c.version < V2_5_0 ∨ V2_8_0 ≤ c.version

end

/-- An account is created by a row of `_sys_tables_`. -/
def Creates (change : UndoLog.Change (Bytes × Bytes) Bytes) : Prop := change.key.1 = SYS_TABLES

def StepOk (r : Run) : Input → Prop
  | .rollback depth => ∀ savepoint older, r.savepoints.drop depth = savepoint :: older →
    ∀ change ∈ r.state.data.since savepoint, ¬ Creates change
  | _ => True

/-! ### Representation -/

section
variable (c : Config)

structure Holds (s : State) (address : Address) (data : Data) : Prop where
  described : s.select SYS_TABLES (tableName c address) ≠ []
  balance : s.select (tableName c address) ACCOUNT_BALANCE = [str data.balance]
  nonce : s.select (tableName c address) ACCOUNT_NONCE = [str data.nonce]
  code : s.select (tableName c address) ACCOUNT_CODE = [bytesField c data.code]
  codeHash : s.select (tableName c address) ACCOUNT_CODE_HASH = [bytesField c (c.hash data.code)]
  slots : ∀ key, s.select (tableName c address) (str key) = [str (data.storage key)]
    ∨ s.select (tableName c address) (str key) = [] ∧ data.storage key = 0

structure Missing (s : State) (address : Address) : Prop where
  closed : s.opened (tableName c address) = false
  undescribed : s.select SYS_TABLES (tableName c address) = []
  empty : ∀ key, s.select (tableName c address) key = []

def HoldsAt (s : State) (address : Address) : Option Data → Prop
  | some data => Holds c s address data
  | none => Missing c s address

def Represents (s : State) (m : AccountMap) : Prop := ∀ a, HoldsAt c s a (m a)

/-! ### Names and texts -/

theorem tableName_injective : Function.Injective (tableName c) := by
  intro a b h
  apply Subtype.ext
  apply Hex.toHex_injective
  unfold tableName at h
  split at h
  · exact List.append_cancel_left h
  · exact List.append_cancel_left (List.append_cancel_right h)

theorem tableName_ne (address : Address) : tableName c address ≠ SYS_TABLES := by
  intro h
  unfold tableName at h
  split at h
  · exact absurd (congrArg (List.take 1) h) (by decide : ascii ['c'] ≠ SYS_TABLES.take 1)
  · exact absurd (congrArg (List.take 2) h) (by decide : ascii ['_', 'c'] ≠ SYS_TABLES.take 2)

theorem u256_str (v : U256) : u256 (str v) = v := by
  rw [u256, str, Decimal.ofDecimal_decimal]
  exact (BitVec.ofNat_toNat 256 v).trans (BitVec.setWidth_eq v)

theorem str_injective : Function.Injective str := fun _ _ h => BitVec.eq_of_toNat_eq (Decimal.decimal_injective h)

theorem str_ne (v : U256) {key : Bytes} (h : ∃ b ∈ key, ¬ (48 ≤ b ∧ b ≤ 57)) : str v ≠ key := by
  rintro rfl
  obtain ⟨b, hmem, hdigit⟩ := h
  exact hdigit (Decimal.digit_of_mem hmem)

/-! ### Reading a represented map -/

variable {c} {s : State} {address : Address} {data : Data}

theorem Holds.getTable (h : Holds c s address data) : s.getTable c address = some (tableName c address) := by
  have hopen : s.openTable (tableName c address) = true := by
    rw [State.openTable, List.isEmpty_eq_false_iff.mpr h.described]
    exact Bool.or_true _
  rw [State.getTable, if_pos hopen]

theorem Holds.entry (h : Holds c s address data) (key : Bytes) :
    s.entry c address key = (s.select (tableName c address) key).head? := by
  rw [State.entry, h.getTable]
  rfl

theorem Missing.getTable (h : Missing c s address) : s.getTable c address = none := by
  have hclosed : ¬ s.openTable (tableName c address) = true := by
    rw [State.openTable, h.closed, h.undescribed]
    exact Bool.false_ne_true
  rw [State.getTable, if_neg hclosed]

theorem Missing.entry (h : Missing c s address) (key : Bytes) : s.entry c address key = none := by
  rw [State.entry, h.getTable]
  rfl

theorem Holds.codeHash_eq (h : Holds c s address data) (hreadable : Readable c) :
    s.codeHash c address = c.hash data.code := by
  have hlength := c.length_hash data.code
  unfold State.codeHash
  rw [h.entry, h.codeHash, List.head?_cons]
  dsimp only
  rcases hreadable with hold | hnew
  · have hbefore : ¬ V2_8_0 ≤ c.version := by
      unfold V2_8_0
      unfold V2_5_0 at hold
      omega
    rw [if_neg hbefore, bytesField, if_neg (Nat.not_le.mpr hold), Hex.fromHex_toHex, Option.getD_some, h256,
      if_pos hlength]
  · have hbytes : V2_5_0 ≤ c.version := by
      unfold V2_5_0
      unfold V2_8_0 at hnew
      omega
    rw [if_pos hnew, bytesField, if_pos hbytes, h256, if_pos hlength]

theorem Missing.codeHash_eq (h : Missing c s address) : s.codeHash c address = c.hash [] := by
  unfold State.codeHash
  rw [h.entry]
  rfl

theorem codeHash_eq_empty (code : Bytes) : c.hash code = c.EmptyHash ↔ code = [] :=
  ⟨c.hash_empty code, fun h => by rw [h, Config.EmptyHash]⟩

theorem Holds.addressHasCode (h : Holds c s address data) :
    s.addressHasCode c address = decide (data.code ≠ []) := by
  have hlength := c.length_hash data.code
  unfold State.addressHasCode
  rw [h.entry, h.codeHash, List.head?_cons]
  dsimp only
  unfold bytesField
  split
  · rw [h256, if_pos hlength]
    exact decide_eq_decide.mpr (not_congr (codeHash_eq_empty data.code))
  · rw [Hex.fromHex_toHex, Option.getD_some, h256, if_pos hlength]
    exact decide_eq_decide.mpr (not_congr (codeHash_eq_empty data.code))

theorem Holds.code_eq (h : Holds c s address data) (hreadable : Readable c) : s.code c address = data.code := by
  unfold State.code
  rw [h.codeHash_eq hreadable, h.entry, h.code, List.head?_cons]
  split
  · next hempty => exact ((codeHash_eq_empty _).mp hempty).symm
  · dsimp only
    unfold bytesField
    split
    · rfl
    · rw [Hex.fromHex_toHex, Option.getD_some]

theorem Holds.balance_eq (h : Holds c s address data) : s.balance c address = data.balance := by
  unfold State.balance
  rw [h.entry, h.balance, List.head?_cons]
  exact u256_str _

theorem Holds.getNonce (h : Holds c s address data) : s.getNonce c address = data.nonce := by
  unfold State.getNonce
  rw [h.entry, h.nonce, List.head?_cons]
  exact u256_str _

theorem Holds.storage (h : Holds c s address data) (key : U256) : s.storage c address key = data.storage key := by
  unfold State.storage
  rw [h.entry]
  rcases h.slots key with hslot | ⟨hslot, hzero⟩
  · rw [hslot, List.head?_cons]
    exact u256_str _
  · rw [hslot, hzero]
    rfl

theorem Missing.balance_eq (h : Missing c s address) : s.balance c address = 0 := by
  unfold State.balance
  rw [h.entry]

theorem Missing.getNonce (h : Missing c s address) : s.getNonce c address = c.accountStartNonce := by
  unfold State.getNonce
  rw [h.entry]

theorem Represents.of_some {m : AccountMap} (h : Represents c s m) (hm : m address = some data) :
    Holds c s address data := by
  have hat := h address
  rw [hm] at hat
  exact hat

theorem Represents.of_none {m : AccountMap} (h : Represents c s m) (hm : m address = none) :
    Missing c s address := by
  have hat := h address
  rw [hm] at hat
  exact hat

theorem Holds.subBalance (h : Holds c s address data) (amount : U256) :
    s.subBalance c address amount =
      if data.balance < amount then .error .NotEnoughCash
      else .ok (s.update (tableName c address) ACCOUNT_BALANCE (str (data.balance - amount))) := by
  unfold State.subBalance
  rw [h.getTable]
  dsimp only
  rw [h.balance, List.head?_cons]
  dsimp only
  rw [u256_str]

theorem Missing.subBalance (h : Missing c s address) (amount : U256) :
    s.subBalance c address amount = .error .NotEnoughCash := by
  unfold State.subBalance
  rw [h.getTable]

/-- **The getters of a represented map are the map's.** -/
theorem Represents.agrees {m : AccountMap} (h : Represents c s m) (hreadable : Readable c) : Agrees c s m where
  addressInUse a := by
    unfold State.addressInUse
    cases hm : m a with
    | none => rw [(h.of_none hm).getTable, Option.isSome_none, Option.isSome_none]
    | some data => rw [(h.of_some hm).getTable, Option.isSome_some, Option.isSome_some]
  balance a := by
    cases hm : m a with
    | none => exact (h.of_none hm).balance_eq
    | some data => exact (h.of_some hm).balance_eq
  getNonce a := by
    cases hm : m a with
    | none => exact (h.of_none hm).getNonce
    | some data => exact (h.of_some hm).getNonce
  code a := by
    cases hm : m a with
    | none =>
      unfold State.code
      rw [(h.of_none hm).codeHash_eq, if_pos (show c.hash [] = c.EmptyHash from rfl)]
      rfl
    | some data => exact (h.of_some hm).code_eq hreadable
  codeHash a := by
    cases hm : m a with
    | none => exact (h.of_none hm).codeHash_eq
    | some data => exact (h.of_some hm).codeHash_eq hreadable
  addressHasCode a := by
    cases hm : m a with
    | none =>
      unfold State.addressHasCode
      rw [(h.of_none hm).entry]
      rfl
    | some data => exact (h.of_some hm).addressHasCode
  storage a key := by
    cases hm : m a with
    | none =>
      unfold State.storage
      rw [(h.of_none hm).entry]
      rfl
    | some data => exact (h.of_some hm).storage key
  nonempty a := by
    unfold State.accountNonemptyAndExisting
    cases hm : m a with
    | none =>
      rw [(h.of_none hm).getTable]
      rfl
    | some data =>
      have hat := h.of_some hm
      rw [hat.getTable, hat.balance_eq, hat.codeHash_eq hreadable, hat.getNonce, Option.isSome_some, Bool.true_and]
      congr 2
      exact decide_eq_decide.mpr (not_congr (codeHash_eq_empty data.code))
  throws a amount := by
    unfold AccountMap.subBalance
    cases hm : m a with
    | none => exact iff_of_true ((h.of_none hm).subBalance amount) rfl
    | some data =>
      rw [(h.of_some hm).subBalance]
      dsimp only
      split
      · exact iff_of_true rfl rfl
      · exact iff_of_false nofun nofun

end

end HieraChain.StorageState
