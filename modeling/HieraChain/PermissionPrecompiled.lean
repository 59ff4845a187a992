/-
  HieraChain/PermissionPrecompiled.lean
  =====================================
  **Permissions given table by table, and the chain of all calls**
  (`libprecompiled/PermissionPrecompiled.cpp`).

  This contract writes the same access table as the governance contract, but an
  address comes as a text: it is put into lower case and stored as it is, once
  the constructor of an address has not thrown on it.  The entries of the access
  table itself are refused from 2.5.0 on.

  A machine takes the calls of both contracts and the ends of the blocks.
-/
import HieraChain.ChainGovernance

namespace HieraChain.Governance

open HieraChain.BigEndian HieraChain.Storage HieraChain.Hex

def USER_TABLE_NAME_MAX_LENGTH : Nat := 64

def CODE_COMMITTEE_PERMISSION : Int := -51004
def CODE_CONTRACT_NOT_EXIST : Int := -51003
def CODE_TABLE_NAME_OVERFLOW : Int := -51002
def CODE_TABLE_AND_ADDRESS_NOT_EXIST : Int := -51001
def CODE_TABLE_AND_ADDRESS_EXIST : Int := -51000
def CODE_ADDRESS_INVALID : Int := -50102

/-- `_user_` or `u_` before the name. -/
def getTableName (version : Nat) (tableName : Bytes) : Bytes :=
  if version < V2_2_0 then ascii ['_', 'u', 's', 'e', 'r', '_'] ++ tableName
  else ascii ['u', '_'] ++ tableName

/-- `c_` before the digits of the contract. -/
def getContractTableName (contract : Address) : Bytes := ascii ['c', '_'] ++ toHex contract.bytes

section Calls

variable (version : Nat)

def addPrefixToUserTable (tableName : Bytes) : Bytes :=
  if tableName ∈ [SYS_ACCESS_TABLE, SYS_CONSENSUS, SYS_TABLES, SYS_CNS, SYS_CONFIG] then tableName
  else getTableName version tableName

def permissionInsert (s : Chain) (tableName addr : Bytes) (origin : Address) : Int × Chain :=
  let addr := if V2_5_0 ≤ version then to_lower addr else addr
  if V2_5_0 ≤ version ∧ tableName = SYS_ACCESS_TABLE then (CODE_COMMITTEE_PERMISSION, s)
  else if V2_5_0 ≤ version ∧ (selectAccess version s.access SYS_ACCESS_TABLE addr).length ≠ 0
      ∧ (tableName = SYS_TABLES ∨ tableName = SYS_CNS) then
    (if V2_6_0 ≤ version then CODE_COMMITTEE_MEMBER_CANNOT_BE_OPERATOR
      else CODE_OPERATOR_CANNOT_BE_COMMITTEE_MEMBER, s)
  else
    let tableName := addPrefixToUserTable version tableName
    if (selectAccess version s.access tableName addr).length ≠ 0 then (CODE_TABLE_AND_ADDRESS_EXIST, s)
    else if USER_TABLE_NAME_MAX_LENGTH < tableName.length then (CODE_TABLE_NAME_OVERFLOW, s)
    else if (Address.ofText addr).isNone then (CODE_ADDRESS_INVALID, s)
    else if checkAuthority s.authorized origin then (1, s.insertAccess tableName addr)
    else (CODE_NO_AUTHORIZED, s)

/-- `allowed` is the answer of `checkPermission`. -/
def revokeWritePermission (s : Chain) (tableName user : Bytes) (origin : Address)
    (isContractTable allowed : Bool) : Int × Chain :=
  if (selectAccess version s.access tableName user).isEmpty then (CODE_TABLE_AND_ADDRESS_NOT_EXIST, s)
  else if V2_5_0 ≤ version ∧ isContractTable ∧ !allowed then (CODE_NO_AUTHORIZED, s)
  else if (V2_6_0 ≤ version ∧ isContractTable) ∨ checkAuthority s.authorized origin then
    ((selectAccess version s.access tableName user).length, s.removeAccess version tableName user)
  else (CODE_NO_AUTHORIZED, s)

def permissionRemove (s : Chain) (tableName addr : Bytes) (origin : Address) : Int × Chain :=
  let addr := if V2_5_0 ≤ version then to_lower addr else addr
  if V2_5_0 ≤ version ∧ tableName = SYS_ACCESS_TABLE then (CODE_COMMITTEE_PERMISSION, s)
  else if V2_6_0 ≤ version ∧ (selectAccess version s.access SYS_ACCESS_TABLE addr).length ≠ 0
      ∧ (tableName = SYS_CONSENSUS ∨ tableName = SYS_CONFIG) then (CODE_NO_AUTHORIZED, s)
  else revokeWritePermission version s (addPrefixToUserTable version tableName) addr origin false false

/-- `opened` says that the contract has a table. -/
def grantWrite (s : Chain) (contract user : Address) (origin : Address) (opened allowed : Bool) :
    Int × Chain :=
  let tableName := getContractTableName contract
  if (selectAccess version s.access tableName user.hexPrefixed).length ≠ 0 then
    (CODE_TABLE_AND_ADDRESS_EXIST, s)
  else if USER_TABLE_NAME_MAX_LENGTH < tableName.length then (CODE_TABLE_NAME_OVERFLOW, s)
  else if !opened then (CODE_CONTRACT_NOT_EXIST, s)
  else if V2_5_0 ≤ version ∧ !allowed then (CODE_NO_AUTHORIZED, s)
  else if V2_6_0 ≤ version ∨ checkAuthority s.authorized origin then
    (1, s.insertAccess tableName user.hexPrefixed)
  else (CODE_NO_AUTHORIZED, s)

def revokeWrite (s : Chain) (contract user : Address) (origin : Address) (allowed : Bool) :
    Int × Chain :=
  revokeWritePermission version s (getContractTableName contract) user.hexPrefixed origin true allowed

inductive PermissionCall
  | insert (tableName addr : Bytes)
  | remove (tableName addr : Bytes)
  | grantWrite (contract user : Address) (opened allowed : Bool)
  | revokeWrite (contract user : Address) (allowed : Bool)
  deriving DecidableEq

def permissionCall (s : Chain) (origin : Address) : PermissionCall → Chain
  | .insert tableName addr => (permissionInsert version s tableName addr origin).2
  | .remove tableName addr => (permissionRemove version s tableName addr origin).2
  | .grantWrite contract user opened allowed =>
    if V2_3_0 ≤ version then (grantWrite version s contract user origin opened allowed).2 else s
  | .revokeWrite contract user allowed =>
    if V2_3_0 ≤ version then (revokeWrite version s contract user origin allowed).2 else s

/-! ### The chain -/

inductive Input
  | governance (origin : Address) (call : GovernanceCall)
  | permission (origin : Address) (call : PermissionCall)
  | endOfBlock
  deriving DecidableEq

def endOfBlock (s : Chain) : Chain where
  number := s.number + 1
  authorized := authorizedAddress version s.access.commit (s.number + 1) SYS_ACCESS_TABLE
  access := s.access.commit
  committee := s.committee.map SystemTable.commit

def chain : Machine Chain Input where
  step s
    | .governance origin c => ((governanceCall version s origin c).map Prod.snd).getD s
    | .permission origin c => permissionCall version s origin c
    | .endOfBlock => endOfBlock version s

def genesis : Chain := { number := 0, authorized := [], access := .ofRows [], committee := none }

end Calls

/-! ### What the permission contract does to the access table -/

theorem getContractTableName_ne (contract : Address) {name : Bytes} (hname : name.head? = some 95) :
    getContractTableName contract ≠ name := by
  rintro rfl
  simp [getContractTableName, ascii] at hname

theorem grantWrite_cases (version : Nat) (s : Chain) (contract user origin : Address)
    (opened allowed : Bool) :
    (grantWrite version s contract user origin opened allowed).2 = s
      ∨ (grantWrite version s contract user origin opened allowed).2
        = s.insertAccess (getContractTableName contract) user.hexPrefixed := by
  unfold grantWrite
  simp only
  split
  · exact .inl rfl
  · split
    · exact .inl rfl
    · split
      · exact .inl rfl
      · split
        · exact .inl rfl
        · split
          · exact .inr rfl
          · exact .inl rfl

section Released

variable {version : Nat} (hversion : V2_5_0 ≤ version)
include hversion

theorem addPrefixToUserTable_eq {tableName name : Bytes}
    (h : addPrefixToUserTable version tableName = name) (hname : name.head? = some 95) :
    tableName = name := by
  unfold addPrefixToUserTable at h
  split at h
  · exact h
  · have hnew : ¬ version < V2_2_0 := Nat.not_lt.mpr (Nat.le_trans (by decide) hversion)
    rw [getTableName, if_neg hnew] at h
    rw [← h] at hname
    exact absurd hname (by simp [ascii])

theorem permissionInsert_cases (s : Chain) (tableName addr : Bytes) (origin : Address) :
    (permissionInsert version s tableName addr origin).2 = s
      ∨ tableName ≠ SYS_ACCESS_TABLE
        ∧ (tableName = SYS_TABLES ∨ tableName = SYS_CNS →
          (selectAccess version s.access SYS_ACCESS_TABLE (to_lower addr)).isEmpty = true)
        ∧ (∃ a, Address.ofText (to_lower addr) = some a)
        ∧ (permissionInsert version s tableName addr origin).2
          = s.insertAccess (addPrefixToUserTable version tableName) (to_lower addr) := by
  unfold permissionInsert
  simp only [hversion, true_and, ↓reduceIte]
  split
  · exact .inl rfl
  · rename_i haccess
    split
    · exact .inl rfl
    · rename_i hcommittee
      split
      · exact .inl rfl
      · split
        · exact .inl rfl
        · split
          · exact .inl rfl
          · rename_i haddress
            split
            · have hsome := Option.ne_none_iff_exists'.mp (by simpa using haddress)
              refine .inr ⟨haccess, fun htable => ?_, hsome, rfl⟩
              by_contra hmember
              exact hcommittee ⟨by simpa using hmember, htable⟩
            · exact .inl rfl

omit hversion in
theorem revokeWritePermission_cases (s : Chain) (tableName user : Bytes) (origin : Address)
    (isContractTable allowed : Bool) :
    (revokeWritePermission version s tableName user origin isContractTable allowed).2 = s
      ∨ (revokeWritePermission version s tableName user origin isContractTable allowed).2
        = s.removeAccess version tableName user := by
  unfold revokeWritePermission
  split
  · exact .inl rfl
  · split
    · exact .inl rfl
    · split
      · exact .inr rfl
      · exact .inl rfl

theorem permissionRemove_cases (s : Chain) (tableName addr : Bytes) (origin : Address) :
    (permissionRemove version s tableName addr origin).2 = s
      ∨ tableName ≠ SYS_ACCESS_TABLE
        ∧ (permissionRemove version s tableName addr origin).2
          = s.removeAccess version (addPrefixToUserTable version tableName) (to_lower addr) := by
  unfold permissionRemove
  simp only [hversion, true_and, ↓reduceIte]
  split
  · exact .inl rfl
  · rename_i haccess
    split
    · exact .inl rfl
    · rcases revokeWritePermission_cases s (addPrefixToUserTable version tableName) (to_lower addr) origin
        false false with hsame | hremoved
      · exact .inl hsame
      · exact .inr ⟨haccess, hremoved⟩

/-- A call leaves the access table as it is, adds an entry or removes entries,
    and none of them is about the access table or the votes' table. -/
theorem permissionCall_cases (s : Chain) (origin : Address) (c : PermissionCall) :
    permissionCall version s origin c = s
      ∨ ∃ tableName user, tableName ≠ SYS_ACCESS_TABLE ∧ tableName ≠ CGP_COMMITTEE_TABLE
        ∧ (permissionCall version s origin c = s.insertAccess tableName user
          ∨ permissionCall version s origin c = s.removeAccess version tableName user) := by
  have hstays : ∀ tableName, tableName ≠ SYS_ACCESS_TABLE →
      addPrefixToUserTable version tableName ≠ SYS_ACCESS_TABLE
        ∧ addPrefixToUserTable version tableName ≠ CGP_COMMITTEE_TABLE := by
    intro tableName haccess
    refine ⟨fun h => haccess (addPrefixToUserTable_eq hversion h rfl), fun h => ?_⟩
    have hsame := addPrefixToUserTable_eq hversion h rfl
    rw [hsame, addPrefixToUserTable, if_neg (by decide)] at h
    have hnew : ¬ version < V2_2_0 := Nat.not_lt.mpr (Nat.le_trans (by decide) hversion)
    rw [getTableName, if_neg hnew] at h
    exact absurd (congrArg List.head? h) (by decide)
  cases c with
  | insert tableName addr =>
    rcases permissionInsert_cases hversion s tableName addr origin with
      hsame | ⟨haccess, -, -, hinserted⟩
    · exact .inl hsame
    · exact .inr ⟨_, _, (hstays tableName haccess).1, (hstays tableName haccess).2, .inl hinserted⟩
  | remove tableName addr =>
    rcases permissionRemove_cases hversion s tableName addr origin with hsame | ⟨haccess, hremoved⟩
    · exact .inl hsame
    · exact .inr ⟨_, _, (hstays tableName haccess).1, (hstays tableName haccess).2, .inr hremoved⟩
  | grantWrite contract user opened allowed =>
    rw [permissionCall]
    split
    · rcases grantWrite_cases version s contract user origin opened allowed with hsame | hinserted
      · exact .inl hsame
      · exact .inr ⟨_, _, getContractTableName_ne contract rfl, getContractTableName_ne contract rfl,
          .inl hinserted⟩
    · exact .inl rfl
  | revokeWrite contract user allowed =>
    rw [permissionCall]
    split
    · rcases revokeWritePermission_cases s (getContractTableName contract) user.hexPrefixed origin true
        allowed with hsame | hremoved
      · exact .inl hsame
      · exact .inr ⟨_, _, getContractTableName_ne contract rfl, getContractTableName_ne contract rfl,
          .inr hremoved⟩
    · exact .inl rfl

end Released

end HieraChain.Governance
