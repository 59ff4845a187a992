/-
  HieraChain/ContractLifeCycle.lean
  =================================
  **Managers of contracts** (`libprecompiled/ContractLifeCyclePrecompiled.cpp`).

  The managers of a contract and whether it is frozen are rows of the contract's
  own table.  A manager is the text of an account; the members of the committee
  may do what a manager may.  The calls of this contract run beside those of the
  governance and permission contracts, which write the table of the committee.

  A call that throws is `none`: the chain undoes it.  The hash of no bytes is a
  parameter.
-/
import HieraChain.AccountTable
import HieraChain.PermissionPrecompiled

namespace HieraChain.LifeCycle

open HieraChain.BigEndian HieraChain.Storage HieraChain.Hex HieraChain.Governance HieraChain.Account

def CODE_INVALID_REVOKE_LAST_AUTHORIZATION : Int := -51907
def CODE_INVALID_NON_EXIST_AUTHORIZATION : Int := -51906
def CODE_INVALID_NO_AUTHORIZED : Int := -51905
def CODE_INVALID_TABLE_NOT_EXIST : Int := -51904
def CODE_INVALID_CONTRACT_ADDRESS : Int := -51903
def CODE_INVALID_CONTRACT_REPEAT_AUTHORIZATION : Int := -51902
def CODE_INVALID_CONTRACT_AVAILABLE : Int := -51901
def CODE_INVALID_CONTRACT_FROZEN : Int := -51900

def STATUS_TRUE : Bytes := ascii ['t', 'r', 'u', 'e']
def STATUS_FALSE : Bytes := ascii ['f', 'a', 'l', 's', 'e']

inductive ContractStatus
  | Available
  | Frozen
  | AddressNonExistent
  | NotContractAddress
  deriving DecidableEq, Repr

/-- The tables that the calls read: those of the chain, and one for each account. -/
structure World where
  chain : Governance.Chain
  contracts : Address → Option AccountTable

def hex (a : Address) : Bytes := toHex a.bytes

section Calls

variable (version : Nat) (EmptyHash : Bytes)

/-- `none` when there is no row for the code's hash. -/
def getContractStatus (table : Option AccountTable) : Option ContractStatus :=
  match table with
  | none => some .AddressNonExistent
  | some t =>
    match selectKey version t ACCOUNT_CODE_HASH with
    | [] => none
    | value :: _ =>
      let codeHash := if V2_5_0 ≤ version then h256 value else h256 ((Hex.fromHex value).getD [])
      if EmptyHash = codeHash then some .NotContractAddress
      else if (selectKey version t ACCOUNT_FROZEN).head? = some STATUS_TRUE then some .Frozen
      else some .Available

def checkPermission (w : World) (table : Option AccountTable) (origin : Address) : Bool :=
  (match table with
    | some t => decide (hex origin ∈ selectKey version t ACCOUNT_AUTHORITY)
    | none => false) ||
  (decide (V2_5_0 ≤ version) &&
    !(selectAccess version w.chain.access Governance.SYS_ACCESS_TABLE origin.hexPrefixed).isEmpty)

def World.setTable (w : World) (a : Address) (t : AccountTable) : World :=
  { w with contracts := Function.update w.contracts a (some t) }

def updateFrozenStatus (t : AccountTable) (frozen : Bytes) : Int × AccountTable :=
  match selectKey version t ACCOUNT_FROZEN with
  | [] => (1, insertRow t ACCOUNT_FROZEN frozen)
  | rows => (rows.length, updateKey version t ACCOUNT_FROZEN frozen)

/-- `freeze` and `unfreeze`: in the status `other` they answer `refused`. -/
def switchStatus (w : World) (contract origin : Address) (other : ContractStatus) (refused : Int) (frozen : Bytes) :
    Option (Int × World) :=
  let table := w.contracts contract
  match getContractStatus version EmptyHash table with
  | none => none
  | some status =>
    if .AddressNonExistent = status then some (CODE_INVALID_TABLE_NOT_EXIST, w)
    else if .NotContractAddress = status then some (CODE_INVALID_CONTRACT_ADDRESS, w)
    else if !checkPermission version w table origin then some (CODE_INVALID_NO_AUTHORIZED, w)
    else if other = status then some (refused, w)
    else
      match table with
      | none => some (0, w)
      | some t =>
        let r := updateFrozenStatus version t frozen
        some (r.1, w.setTable contract r.2)

def freeze (w : World) (contract origin : Address) : Option (Int × World) :=
  switchStatus version EmptyHash w contract origin .Frozen CODE_INVALID_CONTRACT_FROZEN STATUS_TRUE

def unfreeze (w : World) (contract origin : Address) : Option (Int × World) :=
  switchStatus version EmptyHash w contract origin .Available CODE_INVALID_CONTRACT_AVAILABLE STATUS_FALSE

/-- Zero where the origin may manage the contract, `none` when it throws. -/
def checkContractManager (w : World) (table : Option AccountTable) (origin : Address) : Option Int :=
  match getContractStatus version EmptyHash table with
  | none => none
  | some status =>
    if .AddressNonExistent = status then some CODE_INVALID_TABLE_NOT_EXIST
    else if .NotContractAddress = status then some CODE_INVALID_CONTRACT_ADDRESS
    else if !checkPermission version w table origin then some CODE_INVALID_NO_AUTHORIZED
    else some 0

/-- Run `body` on the contract's table where the origin may manage the contract. -/
def managed (w : World) (contract origin : Address) (body : AccountTable → Int × World) : Option (Int × World) :=
  match checkContractManager version EmptyHash w (w.contracts contract) origin, w.contracts contract with
  | some 0, some t => some (body t)
  | some code, _ => some (code, w)
  | none, _ => none

def grantManager (w : World) (contract user origin : Address) : Option (Int × World) :=
  managed version EmptyHash w contract origin fun t =>
    if (selectValue version t ACCOUNT_AUTHORITY (hex user)).length > 0 then
      (CODE_INVALID_CONTRACT_REPEAT_AUTHORIZATION, w)
    else (1, w.setTable contract (insertRow t ACCOUNT_AUTHORITY (hex user)))

def revokeManager (w : World) (contract user origin : Address) : Option (Int × World) :=
  managed version EmptyHash w contract origin fun t =>
    if (selectKey version t ACCOUNT_AUTHORITY).length = 1 then (CODE_INVALID_REVOKE_LAST_AUTHORIZATION, w)
    else
      let entries := selectValue version t ACCOUNT_AUTHORITY (hex user)
      if entries.length = 0 then (CODE_INVALID_NON_EXIST_AUTHORIZATION, w)
      else (entries.length, w.setTable contract (removeValue version t ACCOUNT_AUTHORITY (hex user)))

inductive LifeCycleCall
  | freeze (contract : Address)
  | unfreeze (contract : Address)
  | grantManager (contract user : Address)
  | revokeManager (contract user : Address)
  deriving DecidableEq

/-- `revokeManager` is known from 2.7.0 on; an unknown call answers nothing. -/
def lifeCycleCall (w : World) (origin : Address) : LifeCycleCall → Option (Int × World)
  | .freeze contract => freeze version EmptyHash w contract origin
  | .unfreeze contract => unfreeze version EmptyHash w contract origin
  | .grantManager contract user => grantManager version EmptyHash w contract user origin
  | .revokeManager contract user =>
    if V2_7_0 ≤ version then revokeManager version EmptyHash w contract user origin else some (0, w)

def managers (w : World) (a : Address) : List Bytes :=
  match w.contracts a with
  | some t => selectKey version t ACCOUNT_AUTHORITY
  | none => []

def frozen (w : World) (a : Address) : Bool :=
  match w.contracts a with
  | some t => (selectKey version t ACCOUNT_FROZEN).head? = some STATUS_TRUE
  | none => false

/-! ### The world -/

inductive Input
  | lifeCycle (origin : Address) (call : LifeCycleCall)
  /-- a call of the governance or permission contract, or the end of a block -/
  | chain (i : Governance.Input)

def stepChain (w : World) (i : Governance.Input) : World where
  chain := (Governance.chain version).step w.chain i
  contracts :=
    match i with
    | .endOfBlock => fun a => (w.contracts a).map SystemTable.commit
    | _ => w.contracts

def step (w : World) : Input → World
  | .lifeCycle origin call => ((lifeCycleCall version EmptyHash w origin call).map Prod.snd).getD w
  | .chain i => stepChain version w i

def world : Machine World Input := ⟨step version EmptyHash⟩

end Calls

end HieraChain.LifeCycle
