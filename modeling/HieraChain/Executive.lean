/-
  HieraChain/Executive.lean
  =========================
  **Executing a transaction** (`libexecutive/Executive.cpp`, `EVMHostContext.cpp`,
  `libblockverifier/BlockVerifier.cpp`).

  A transaction creates a contract or calls one.  Both take a savepoint and may
  leave an external context behind; then `go` runs the virtual machine in it, and
  what the machine reports is parsed into a status, each exit with its own
  revert.  Creations and calls that the machine asks for run in executives of
  their own on the same state.

  The state is the map of `AccountMap.lean` with the rows that name who may
  manage a contract, in a journal: its savepoints are exact.  The machine is any
  finite tree of calls to its host.  An executive of the host's has no machine
  (`m_vminstance` is set from outside only), so no code runs below the first
  level: the process ends there, as it does when an exception leaves a host
  function that must not throw.
-/
import HieraChain.AccountMap
import HieraChain.Journal

namespace HieraChain.Executive

open HieraChain.BigEndian HieraChain.Storage HieraChain.StorageState

def RC2_VERSION : Nat := 2
def RC3_VERSION : Nat := 3
def V2_0_0 : Nat := 0x02000000
def V2_6_0 : Nat := 0x02060000

/-! ### The state -/

structure World where
  accounts : AccountMap
  /-- the rows `authority` of the contracts' tables -/
  authority : Address → List Address := fun _ => []

inductive TransactionException
  | None | Unknown | NotEnoughCash | OutOfGasBase | BadInstruction | BadJumpDestination | OutOfGas | OutOfStack
  | StackUnderflow | PrecompiledError | RevertInstruction | AddressAlreadyUsed | PermissionDenied | CallAddressError
  | GasOverflow | ContractFrozen | AccountFrozen
  deriving DecidableEq

inductive Thrown
  | NotEnoughCash | OutOfGasBase | OutOfGas | GasOverflow | PermissionDenied | PrecompiledError | InternalVMError
  | other
  deriving DecidableEq

/-- What a node is set up with, and the answers of tables that no transaction
    changes while it runs. -/
structure Config where
  state : StorageState.Config
  txGasLimit : U256
  /-- of the block's header -/
  gasLimit : U256
  /-- `checkAuthority` of `_sys_tables_` -/
  deployers : Address → Bool
  /-- `checkAuthority` of a contract's table -/
  writable : Address → Address → Bool
  frozen : Address → Bool
  createAddress : Address → U256 → Address
  create2Address : Address → U256 → Bytes → Address
  /-- `abiIn("Error(string)", ..)` of the text for a frozen account -/
  frozenOutput : Address → Bytes
  executeOriginPrecompiled : Address → Option (Bytes → Bytes)
  /-- contract, data, origin and sender -/
  precompiled : Address → Option (Bytes → Address → Address → World → Except Thrown (Bytes × World))
  /-- none of them drops an account's table -/
  precompiled_keeps : ∀ a execute, precompiled a = some execute → ∀ data origin sender w output w',
    execute data origin sender w = .ok (output, w') → ∀ a, (w.accounts a).isSome → (w'.accounts a).isSome

def Config.version (c : Config) : Nat := c.state.version

/-- `evmSchedule().maxCodeSize` as the version sets it. -/
def Config.maxCodeSize (c : Config) : Nat :=
  if V2_6_0 ≤ c.version then 0x40000 else if c.version ≤ V2_0_0 then 0x6000 else 0x40000

def createDataGas : Nat := 200
def sstoreRefundGas : U256 := 15000
def suicideRefundGas : U256 := 24000
def baseGasRequired : U256 := 20000
def int64max : U256 := 9223372036854775807

def zeroAddress : Address := ⟨List.replicate 20 0, length_zeros_20⟩

namespace World

variable (c : Config) (w : World)

def getNonce (a : Address) : U256 := ((w.accounts a).map Data.nonce).getD c.state.accountStartNonce

def addressHasCode (a : Address) : Bool :=
  match w.accounts a with
  | some data => decide (data.code ≠ [])
  | none => false

def storage (a : Address) (key : U256) : U256 := ((w.accounts a).map fun data => data.storage key).getD 0

def balance (a : Address) : U256 := ((w.accounts a).map Data.balance).getD 0

def incNonce (a : Address) : World := { w with accounts := w.accounts.incNonce c.state a }

def setNonce (a : Address) (nonce : U256) : World := { w with accounts := w.accounts.setNonce a nonce }

def transferBalance (source target : Address) (value : U256) : Option World :=
  (w.accounts.transferBalance c.state source target value).map fun accounts => { w with accounts }

def addBalance (a : Address) (amount : U256) : World := { w with accounts := w.accounts.addBalance c.state a amount }

def setBalance (a : Address) (amount : U256) : World := { w with accounts := w.accounts.setBalance c.state a amount }

def setStorage (a : Address) (key value : U256) : World := { w with accounts := w.accounts.setStorage a key value }

def setCode (a : Address) (code : Bytes) : World := { w with accounts := w.accounts.setCode a code }

def kill (a : Address) : World := { w with accounts := w.accounts.kill c.state a }

/-- The origin may manage the new contract, and with it who may manage the sender. -/
def grantContractStatusManager (newAddress sender origin : Address) : World :=
  if c.writable newAddress zeroAddress then
    let granted := if origin = sender then [] else (w.authority sender).filter fun a => a ≠ origin
    { w with authority := Function.update w.authority newAddress (w.authority newAddress ++ origin :: granted) }
  else w

end World

/-! ### Executives -/

structure LogEntry where
  address : Address
  topics : List Bytes
  data : Bytes

structure SubState where
  suicides : List Address := []
  logs : List LogEntry := []
  refunds : U256 := 0

def SubState.add (s t : SubState) : SubState where
  suicides := s.suicides ++ t.suicides.filter fun a => a ∉ s.suicides
  logs := s.logs ++ t.logs
  refunds := s.refunds + t.refunds

/-- The external context (`EVMHostContext`). -/
structure Ext where
  myAddress : Address
  sub : SubState := {}

structure Frame where
  journal : Journal World
  ext : Option Ext := none
  output : Bytes := []
  excepted : TransactionException := .None
  gas : U256 := 0
  isCreation : Bool := false
  newAddress : Address := zeroAddress
  savepoint : Nat := 0

/-- How `execute`, `call` and the creations come back: with nothing more to do, with
    `go` still to be called, or by an exception. -/
inductive Flow
  | finished
  | go
  | throws (e : Thrown)

namespace Frame

variable (f : Frame)

def world : World := f.journal.current

def modify (g : World → World) : Frame := { f with journal := f.journal.modify g }

def revert : Frame :=
  { f with
    ext := f.ext.map fun ext => { ext with sub := {} }
    newAddress := zeroAddress
    journal := f.journal.rollback f.savepoint }

/-- `return !m_ext`. -/
def flow : Flow := if f.ext.isSome then .go else .finished

end Frame

section
variable (c : Config) (origin : Address)

/-! ### Creations -/

/-- The nonce stays with a creation that fails; its savepoint is taken after it. -/
def beginCreate (sender : Address) (gas : U256) (f : Frame) : Frame :=
  let f := f.modify fun w => w.incNonce c sender
  { f with savepoint := f.journal.savepoint, isCreation := true, gas := gas }

def setUpCreate (sender : Address) (endowment : U256) (init : Bytes) (f : Frame) : Frame × Flow :=
  match f.world.transferBalance c sender f.newAddress endowment with
  | none => (f, .throws .NotEnoughCash)
  | some w =>
    let f := f.modify fun _ => w
    let f := f.modify fun w => w.setNonce f.newAddress c.state.accountStartNonce
    let f := if V2_3_0 ≤ c.version then f.modify fun w => w.grantContractStatusManager c f.newAddress sender origin else f
    let f := if init ≠ [] then { f with ext := some { myAddress := f.newAddress } } else f
    (f, f.flow)

def executeCreate (sender : Address) (endowment gas : U256) (init : Bytes) (f : Frame) : Frame × Flow :=
  if !c.deployers origin then
    let f := ({ f with gas := 0, excepted := .PermissionDenied } : Frame).revert
    ({ f with ext := none }, .finished)
  else if V2_5_0 ≤ c.version ∧ c.frozen origin then
    let f := ({ f with output := c.frozenOutput origin, gas := 0 } : Frame).revert
    ({ f with excepted := .AccountFrozen, ext := none }, .finished)
  else
    let f := beginCreate c sender gas f
    if f.world.addressHasCode f.newAddress || decide (f.world.getNonce c f.newAddress > 0) then
      let f := ({ f with gas := 0, excepted := .AddressAlreadyUsed } : Frame).revert
      ({ f with ext := none }, .finished)
    else setUpCreate c origin sender endowment init f

def createOpcode (sender : Address) (endowment gas : U256) (init : Bytes) (f : Frame) : Frame × Flow :=
  let nonce := f.world.getNonce c sender
  executeCreate c origin sender endowment gas init { f with newAddress := c.createAddress sender nonce }

def create2Opcode (sender : Address) (endowment gas : U256) (init : Bytes) (salt : U256) (f : Frame) : Frame × Flow :=
  executeCreate c origin sender endowment gas init { f with newAddress := c.create2Address sender salt init }

/-! ### Calls -/

structure CallParameters where
  senderAddress : Address
  codeAddress : Address
  receiveAddress : Address
  valueTransfer : U256
  apparentValue : U256
  gas : U256
  data : Bytes

/-- What stands there of `callRC2` is commented out, the end apart. -/
def callRC2 (p : CallParameters) (f : Frame) : Frame × Flow :=
  let f := { f with savepoint := f.journal.savepoint, gas := p.gas, excepted := .CallAddressError }
  (f, f.flow)

/-- The statuses of `call`'s catch clauses. -/
def callExcepted : Thrown → TransactionException
  | .PrecompiledError => .PrecompiledError
  | .NotEnoughCash => .NotEnoughCash
  | _ => .Unknown

def callCatch (e : Thrown) (f : Frame) : Frame × Flow :=
  let f := { f.revert with excepted := callExcepted e }
  (f, f.flow)

/-- The transfer at the end of `call`, also after a frozen contract was found. -/
def callTransfer (p : CallParameters) (f : Frame) : Frame × Flow :=
  match f.world.transferBalance c p.senderAddress p.receiveAddress p.valueTransfer with
  | none => callCatch .NotEnoughCash f
  | some w =>
    let f := f.modify fun _ => w
    (f, f.flow)

/-- The `try` block of `call`. -/
def callTry (p : CallParameters) (f : Frame) : Frame × Flow :=
  match c.executeOriginPrecompiled p.codeAddress with
  | some execute => callTransfer c p { f with gas := p.gas, output := execute p.data }
  | none =>
    match c.precompiled p.codeAddress with
    | some execute =>
      let f := { f with gas := p.gas }
      match execute p.data origin p.senderAddress f.world with
      | .ok (output, w) => callTransfer c p { f.modify fun _ => w with output := output }
      | .error e => callCatch e f
    | none =>
      let f := { f with gas := p.gas }
      if c.frozen p.codeAddress then callTransfer c p { f with excepted := .ContractFrozen }
      else if f.world.addressHasCode p.codeAddress then
        callTransfer c p { f with ext := some { myAddress := p.receiveAddress } }
      else callTransfer c p f

/-- External for a transaction (`m_t`). -/
def call (isExternal : Bool) (p : CallParameters) (f : Frame) : Frame × Flow :=
  if RC2_VERSION ≤ c.version then callRC2 p f
  else
    let f := if isExternal then f.modify fun w => w.incNonce c p.senderAddress else f
    callTry c origin p { f with savepoint := f.journal.savepoint }

/-! ### The virtual machine's answer -/

inductive EvmcStatus
  | SUCCESS | FAILURE | REVERT | OUT_OF_GAS | INVALID_INSTRUCTION | UNDEFINED_INSTRUCTION | STACK_OVERFLOW
  | STACK_UNDERFLOW | BAD_JUMP_DESTINATION | INVALID_MEMORY_ACCESS | STATIC_MODE_VIOLATION
  /-- any other code -/
  | code (value : Int)
  deriving DecidableEq

def EVMC_INTERNAL_ERROR : Int := -1

structure Result where
  status : EvmcStatus
  output : Bytes := []
  gasLeft : U256 := 0
  createAddress : Address := zeroAddress

/-- The result of a run of the machine in the context, the state after it, and
    what the run added to the context. -/
inductive Ran
  | result (r : Result) (ext : Ext) (journal : Journal World)
  | threw (e : Thrown) (ext : Ext) (journal : Journal World)
  | crashed

/-- `EVMInterface::exec`. -/
abbrev Machine := Ext → Journal World → Ran

/-- `parseEVMCResult`; an exception stands beside the frame. -/
def parseEVMCResult (r : Result) (f : Frame) : Frame × Option Thrown :=
  match r.status with
  | .SUCCESS => ({ f with gas := r.gasLeft, output := if f.isCreation then f.output else r.output }, none)
  | .REVERT =>
    let f := ({ f with gas := r.gasLeft } : Frame).revert
    ({ f with output := r.output, excepted := .RevertInstruction }, none)
  | .OUT_OF_GAS | .FAILURE => ({ f.revert with excepted := .OutOfGas }, none)
  | .INVALID_INSTRUCTION | .UNDEFINED_INSTRUCTION =>
    (({ f with gas := 0, excepted := .BadInstruction } : Frame).revert, none)
  | .BAD_JUMP_DESTINATION => (({ f with gas := 0, excepted := .BadJumpDestination } : Frame).revert, none)
  | .STACK_OVERFLOW => (({ f with gas := 0, excepted := .OutOfStack } : Frame).revert, none)
  | .STACK_UNDERFLOW => (({ f with gas := 0, excepted := .StackUnderflow } : Frame).revert, none)
  | .INVALID_MEMORY_ACCESS | .STATIC_MODE_VIOLATION => (({ f with gas := 0, excepted := .Unknown } : Frame).revert, none)
  | .code value => (f, some (if value ≤ EVMC_INTERNAL_ERROR then .InternalVMError else .OutOfGas))

def Config.fits (c : Config) (output : Bytes) (gas : U256) : Bool :=
  decide (output.length ≤ c.maxCodeSize) && decide (BitVec.ofNat 256 (output.length * createDataGas) ≤ gas)

def deposit (address : Address) (output : Bytes) (f : Frame) : Frame × Option Thrown :=
  if c.fits output f.gas then (f.modify fun w => w.setCode address output, none)
  else (f, some .OutOfGas)

/-! ### Running it -/

inductive Gone
  | done (f : Frame)
  /-- `exit(1)` -/
  | exited
  /-- no machine, or an exception out of a function that must not throw -/
  | crashed

/-- The catch clauses of `go`. -/
def goCatch (e : Thrown) (f : Frame) : Gone :=
  match e with
  | .OutOfGas => .done { f.revert with excepted := .OutOfGas }
  | .GasOverflow => .done { f.revert with excepted := .GasOverflow }
  | .PermissionDenied =>
    if V2_6_0 ≤ c.version then .done { f.revert with excepted := .PermissionDenied }
    else .done { f.revert with gas := 0, excepted := .RevertInstruction }
  | .NotEnoughCash => .done { f.revert with excepted := .NotEnoughCash }
  | .PrecompiledError => .done { f.revert with excepted := .PrecompiledError }
  | .InternalVMError | .OutOfGasBase | .other => .exited

/-- What follows the run of the machine in the `try` block. -/
def goResult (r : Result) (address : Address) (f : Frame) : Gone :=
  match parseEVMCResult r f with
  | (f, some e) => goCatch c e f
  | (f, none) =>
    if f.isCreation then
      match deposit c address r.output f with
      | (f, some e) => goCatch c e f
      | (f, none) => .done f
    else .done f

def go (machine : Option Machine) (f : Frame) : Gone :=
  match f.ext with
  | none => .done f
  | some ext =>
    if f.gas > int64max ∨ c.gasLimit > int64max then goCatch c .GasOverflow f
    else
      match machine with
      | none => .crashed
      | some machine =>
        match machine ext f.journal with
        | .result r ext journal => goResult c r ext.myAddress { f with ext := some ext, journal := journal }
        | .threw e ext journal => goCatch c e { f with ext := some ext, journal := journal }
        | .crashed => .crashed

/-! ### The host -/

inductive StorageStatus
  | UNCHANGED | ADDED | DELETED | MODIFIED

structure CreateMessage where
  create2 : Bool
  gas : BitVec 64
  endowment : U256
  init : Bytes
  salt : U256

inductive CallKind
  | CALL | CALLCODE | DELEGATECALL
  deriving DecidableEq

structure CallMessage where
  kind : CallKind
  gas : BitVec 64
  sender : Address
  destination : Address
  value : U256
  data : Bytes

def CallMessage.parameters (m : CallMessage) (me : Address) : CallParameters where
  senderAddress := m.sender
  codeAddress := m.destination
  receiveAddress := if m.kind = .CALL then m.destination else me
  valueTransfer := if m.kind = .DELEGATECALL then 0 else m.value
  apparentValue := m.value
  gas := m.gas.signExtend 256
  data := m.data

/-- A finite run of the machine: it reads the state, calls its host, and ends. -/
inductive Behaviour
  | finish (status : EvmcStatus) (output : Bytes) (gasLeft : U256)
  | read (next : World → Behaviour)
  | setStorage (key value : U256) (next : StorageStatus → Behaviour)
  | log (topics : List Bytes) (data : Bytes) (next : Behaviour)
  | selfdestruct (beneficiary : Address) (next : Behaviour)
  | create (message : CreateMessage) (next : Result → Behaviour)
  | call (message : CallMessage) (next : Result → Behaviour)

/-- `transactionExceptionToEvmcStatusCode`. -/
def toEvmcStatus : TransactionException → EvmcStatus
  | .None => .SUCCESS
  | .RevertInstruction => .REVERT
  | .OutOfGas => .OUT_OF_GAS
  | .BadInstruction => .UNDEFINED_INSTRUCTION
  | .OutOfStack => .STACK_OVERFLOW
  | .StackUnderflow => .STACK_UNDERFLOW
  | .BadJumpDestination => .BAD_JUMP_DESTINATION
  | _ => .FAILURE

def generateCallResult (f : Frame) : Result where
  status := toEvmcStatus f.excepted
  output := f.output
  gasLeft := f.gas

def generateCreateResult (f : Frame) : Result :=
  match toEvmcStatus f.excepted with
  | .SUCCESS => { status := .SUCCESS, gasLeft := f.gas, createAddress := f.newAddress }
  | _ => generateCallResult f

inductive Nested
  | returned (r : Result) (sub : SubState) (journal : Journal World)
  | crashed

/-- `go`, `accrueSubState` and the result of the executive.  The callers are `noexcept`. -/
def runNested (result : Frame → Result) (sub : SubState) : Frame × Flow → Nested
  | (f, .finished) => .returned (result f) sub f.journal
  | (f, .go) =>
    match go c none f with
    | .done f => .returned (result f) (sub.add ((f.ext.map Ext.sub).getD {})) f.journal
    | .exited | .crashed => .crashed
  | (_, .throws _) => .crashed

namespace Ext

variable (ext : Ext) (journal : Journal World)

def create (m : CreateMessage) : Nested :=
  let gas := m.gas.signExtend 256
  let e : Frame := { journal }
  runNested c generateCreateResult ext.sub
    (if m.create2 then create2Opcode c origin ext.myAddress m.endowment gas m.init m.salt e
     else createOpcode c origin ext.myAddress m.endowment gas m.init e)

def call (m : CallMessage) : Nested :=
  runNested c generateCallResult ext.sub (Executive.call c origin false (m.parameters ext.myAddress) { journal })

/-- What `setStorage` answers, and the refund. -/
def storageStatus (oldValue value : U256) : StorageStatus × U256 :=
  if value = oldValue then (.UNCHANGED, 0)
  else if oldValue = 0 then (.ADDED, 0)
  else if value = 0 then (.DELETED, sstoreRefundGas)
  else (.MODIFIED, 0)

def suicide (beneficiary : Address) : Journal World :=
  if RC2_VERSION ≤ c.version then journal
  else
    (journal.modify fun w => w.addBalance c beneficiary (w.balance ext.myAddress)).modify
      fun w => w.setBalance c ext.myAddress 0

end Ext

/-- The run of a behaviour.  A call with a negative gas throws out of a function
    that must not. -/
def Behaviour.exec : Behaviour → Machine
  | .finish status output gasLeft, ext, journal => .result { status, output, gasLeft } ext journal
  | .read next, ext, journal => (next journal.current).exec ext journal
  | .setStorage key value next, ext, journal =>
    if !c.writable ext.myAddress origin then .threw .PermissionDenied ext journal
    else
      let oldValue := journal.current.storage ext.myAddress key
      let answer := Ext.storageStatus oldValue value
      (next answer.1).exec { ext with sub := { ext.sub with refunds := ext.sub.refunds + answer.2 } }
        (if value = oldValue then journal else journal.modify fun w => w.setStorage ext.myAddress key value)
  | .log topics data next, ext, journal =>
    next.exec { ext with sub := { ext.sub with logs := ext.sub.logs ++ [⟨ext.myAddress, topics, data⟩] } } journal
  | .selfdestruct beneficiary next, ext, journal =>
    next.exec { ext with sub := ext.sub.add { suicides := [ext.myAddress] } } (ext.suicide c journal beneficiary)
  | .create m next, ext, journal =>
    if m.gas.toInt < 0 then .crashed
    else
      match ext.create c origin journal m with
      | .returned r sub journal => (next r).exec { ext with sub } journal
      | .crashed => .crashed
  | .call m next, ext, journal =>
    if m.gas.toInt < 0 then .crashed
    else
      match ext.call c origin journal m with
      | .returned r sub journal => (next r).exec { ext with sub } journal
      | .crashed => .crashed

end

/-! ### Transactions -/

structure Transaction where
  sender : Address
  /-- `none` for a creation -/
  receiveAddress : Option Address
  value : U256
  gas : U256
  data : Bytes

structure Receipt where
  gasUsed : U256
  logs : List LogEntry
  status : TransactionException
  output : Bytes
  contractAddress : Address

inductive Outcome
  | returned (receipt : Receipt) (journal : Journal World)
  | exited
  | crashed

section
variable (c : Config) (t : Transaction)

def execute (f : Frame) : Frame × Flow :=
  if (if RC3_VERSION < c.version then c.txGasLimit else t.gas) < baseGasRequired then
    ({ f with excepted := .OutOfGasBase }, .throws .OutOfGasBase)
  else
    match t.receiveAddress with
    | none => createOpcode c t.sender t.sender t.value (c.txGasLimit - baseGasRequired) t.data f
    | some receiver =>
      call c t.sender true {
        senderAddress := t.sender
        codeAddress := receiver
        receiveAddress := receiver
        valueTransfer := t.value
        apparentValue := t.value
        gas := c.txGasLimit - baseGasRequired
        data := t.data } f

/-- `m_refunded`. -/
def refunded (f : Frame) (sub : SubState) : U256 :=
  let refunds := sub.refunds + suicideRefundGas * BitVec.ofNat 256 sub.suicides.length
  let half := (t.gas - f.gas) / 2
  if half ≤ refunds then half else refunds

def finalize (f : Frame) : Frame × List LogEntry :=
  match f.ext with
  | none => (f, [])
  | some ext =>
    let f := { f with gas := f.gas + refunded t f ext.sub }
    (ext.sub.suicides.foldl (fun f a => f.modify fun w => w.kill c a) f, ext.sub.logs)

def receipt (f : Frame) (logs : List LogEntry) : Receipt where
  gasUsed := c.txGasLimit - f.gas
  logs := logs
  status := f.excepted
  output := f.output
  contractAddress := f.newAddress

def finish (f : Frame) : Outcome :=
  let (f, logs) := finalize c t f
  .returned (receipt c f logs) f.journal

/-- `BlockVerifier::execute`.  An exception of `execute` is logged and leaves the
    status as it is. -/
def executeTransaction (machine : Option Machine) (journal : Journal World) : Outcome :=
  match execute c t { journal } with
  | (f, .finished) => finish c t f
  | (f, .go) =>
    match go c machine f with
    | .done f => finish c t f
    | .exited => .exited
    | .crashed => .crashed
  | (f, .throws _) => .returned (receipt c f []) f.journal

end

end HieraChain.Executive
