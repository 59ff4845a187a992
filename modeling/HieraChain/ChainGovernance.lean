/-
  HieraChain/ChainGovernance.lean
  ===============================
  **Members, operators and votes**
  (`libprecompiled/ChainGovernancePrecompiled.cpp`).

  The access table names, table by table, the accounts that may write; an entry
  for the table itself makes its account a member of the committee, one for
  `_sys_tables_` or `_sys_cns_` an operator.  Weights, threshold and votes are
  rows of one more table, told apart by their keys.

  Texts of accounts and keys are texts.  The values of the votes' table are kept
  as what they are texts of, and the threshold and the weights are rational
  numbers.  A call that throws is `none`: the chain undoes it.
-/
import Mathlib.Data.Rat.Defs
import HieraChain.Hex
import HieraChain.Machine
import HieraChain.SystemTable

namespace HieraChain.Governance

open HieraChain.BigEndian HieraChain.Storage HieraChain.Hex

def V2_6_0 : Nat := 0x02060000
def V2_7_0 : Nat := 0x02070000

/-! ### Accounts -/

/-- `FixedHash<20>`. -/
structure Address where
  bytes : Bytes
  size : bytes.length = 20
  deriving DecidableEq

namespace Address

def ofByte (b : UInt8) : Address := ⟨List.replicate 20 b, List.length_replicate⟩

def zero : Address := ofByte 0

def hexPrefixed (a : Address) : Bytes := [48, 120] ++ toHex a.bytes

/-- The constructor from a text; `none` is `BadHexCharacter`. -/
def ofText (s : Bytes) : Option Address :=
  (Hex.fromHex s).map fun bytes => if h : bytes.length = 20 then ⟨bytes, h⟩ else zero

theorem length_hexPrefixed (a : Address) : a.hexPrefixed.length = 42 := by
  simp [hexPrefixed, length_toHex, a.size]

theorem hexPrefixed_injective {a b : Address} (h : a.hexPrefixed = b.hexPrefixed) : a = b := by
  obtain ⟨bytes, size⟩ := a
  have hbytes : bytes = b.bytes := toHex_injective (List.append_cancel_left h)
  subst hbytes
  rfl

@[simp] theorem hexPrefixed_inj {a b : Address} : a.hexPrefixed = b.hexPrefixed ↔ a = b :=
  ⟨hexPrefixed_injective, congrArg _⟩

/-- **An account comes back from its prefixed text.** -/
@[simp] theorem ofText_hexPrefixed (a : Address) : ofText a.hexPrefixed = some a := by
  have hafter : afterPrefix a.hexPrefixed = toHex a.bytes := by simp [hexPrefixed, afterPrefix]
  have hfrom : Hex.fromHex a.hexPrefixed = some a.bytes := by
    simp [Hex.fromHex, hafter, length_hexPrefixed, fromHexPairs_toHex]
  simp [ofText, hfrom, a.size]

end Address

/-! ### Tables -/

def SYS_ACCESS_TABLE : Bytes :=
  ascii ['_', 's', 'y', 's', '_', 't', 'a', 'b', 'l', 'e', '_', 'a', 'c', 'c', 'e', 's', 's', '_']
def SYS_TABLES : Bytes := ascii ['_', 's', 'y', 's', '_', 't', 'a', 'b', 'l', 'e', 's', '_']
def SYS_CNS : Bytes := ascii ['_', 's', 'y', 's', '_', 'c', 'n', 's', '_']
def SYS_CONFIG : Bytes := ascii ['_', 's', 'y', 's', '_', 'c', 'o', 'n', 'f', 'i', 'g', '_']
def SYS_CONSENSUS : Bytes :=
  ascii ['_', 's', 'y', 's', '_', 'c', 'o', 'n', 's', 'e', 'n', 's', 'u', 's', '_']
def CGP_COMMITTEE_TABLE : Bytes :=
  ascii ['_', 's', 'y', 's', '_', 'c', 'o', 'm', 'm', 'i', 't', 't', 'e', 'e', '_', 'v', 'o', 't', 'e',
    's', '_']

def CGP_WEIGTH_SUFFIX : Bytes := ascii ['_', 'w', 'e', 'i', 'g', 'h', 't']
def CGP_UPDATE_WEIGTH_SUFFIX : Bytes :=
  ascii ['_', 'u', 'p', 'd', 'a', 't', 'e', '_', 'w', 'e', 'i', 'g', 'h', 't']
def CGP_AUTH_THRESHOLD : Bytes :=
  ascii ['a', 'u', 't', 'h', '_', 't', 'h', 'r', 'e', 's', 'h', 'o', 'l', 'd']
def CGP_UPDATE_AUTH_THRESHOLD : Bytes :=
  ascii ['u', 'p', 'd', 'a', 't', 'e', '_', 'a', 'u', 't', 'h', '_', 't', 'h', 'r', 'e', 's', 'h', 'o',
    'l', 'd']

def c_voteValidLimit : Int := 10000

structure AccessRow where
  tableName : Bytes
  address : Bytes
  enableNum : Int
  deriving DecidableEq, Repr

def AccessRow.isMember (r : AccessRow) : Bool := r.tableName = SYS_ACCESS_TABLE

/-- The texts `grant` and `revoke`, the decimal text of a weight, and the text
    of a threshold in hundredths with six digits after the point. -/
inductive Value
  | grant
  | revoke
  | weight (w : Int)
  | threshold (percent : Int)
  deriving DecidableEq, Repr

/-- `lexical_cast<double>`. -/
def Value.number : Value → Option ℚ
  | .weight w => some w
  | .threshold percent => some (percent / 100)
  | _ => none

/-- The first threshold has no `origin`; only votes have a `block_limit`. -/
structure CommitteeRow where
  key : Bytes
  value : Value
  origin : Bytes := []
  blockLimit : Option Int := none
  deriving DecidableEq, Repr

abbrev AccessTable := SystemTable AccessRow
abbrev CommitteeTable := SystemTable CommitteeRow

/-- `number` is the block under the one that is executed.  `authorized` is what
    the access table was opened with, and `committee` is `none` until the votes'
    table is created. -/
structure Chain where
  number : Int
  authorized : List Address
  access : AccessTable
  committee : Option CommitteeTable

def CODE_CURRENT_VALUE_IS_EXPECTED_VALUE : Int := -52012
def CODE_OPERATOR_NOT_EXIST : Int := -52007
def CODE_OPERATOR_EXIST : Int := -52006
def CODE_COMMITTEE_MEMBER_CANNOT_BE_OPERATOR : Int := -52005
def CODE_OPERATOR_CANNOT_BE_COMMITTEE_MEMBER : Int := -52004
def CODE_INVALID_THRESHOLD : Int := -52003
def CODE_INVALID_REQUEST_PERMISSION_DENIED : Int := -52002
def CODE_COMMITTEE_MEMBER_NOT_EXIST : Int := -52001
def CODE_COMMITTEE_MEMBER_EXIST : Int := -52000

def checkAuthority (authorized : List Address) (origin : Address) : Bool :=
  authorized.isEmpty || decide (origin ∈ authorized)

section Calls

variable (version : Nat)

def selectAccess (t : AccessTable) (tableName address : Bytes) : List AccessRow :=
  t.select version fun r => r.tableName = tableName && r.address = address

def members (t : AccessTable) : List AccessRow := t.select version AccessRow.isMember

/-- `setAuthorizedAddress`: the writers of a table at a block. -/
def authorizedAddress (t : AccessTable) (number : Int) (tableName : Bytes) : List Address :=
  (t.select version fun r => r.tableName = tableName && r.enableNum ≤ number).filterMap
    fun r => Address.ofText r.address

def getCommitteeTable (s : Chain) : CommitteeTable :=
  s.committee.getD
    ((SystemTable.ofRows []).insert { key := CGP_AUTH_THRESHOLD, value := .threshold 50 })

def Chain.insertAccess (s : Chain) (tableName user : Bytes) : Chain :=
  let row := { tableName := tableName, address := user, enableNum := s.number + 1 }
  { s with access := s.access.insert row }

def Chain.removeAccess (s : Chain) (tableName user : Bytes) : Chain :=
  let condition := fun r : AccessRow => r.tableName = tableName && r.address = user
  { s with access := s.access.remove version condition }

/-! ### Permissions -/

def grantTablePermission (s : Chain) (tableName user : Bytes) (origin : Address) : Int × Chain :=
  if (selectAccess version s.access tableName user).isEmpty then
    if checkAuthority s.authorized origin then (1, s.insertAccess tableName user)
    else (CODE_NO_AUTHORIZED, s)
  else (1, s)

def revokeTablePermission (s : Chain) (tableName user : Bytes) (origin : Address) : Int × Chain :=
  if checkAuthority s.authorized origin then
    ((selectAccess version s.access tableName user).length, s.removeAccess version tableName user)
  else (CODE_NO_AUTHORIZED, s)

def isOperator (s : Chain) (account : Bytes) : Bool :=
  !(selectAccess version s.access SYS_TABLES account).isEmpty
    && !(selectAccess version s.access SYS_CNS account).isEmpty

def hasOperatorPermissions (s : Chain) (account : Bytes) : Bool :=
  !(selectAccess version s.access SYS_TABLES account).isEmpty
    || !(selectAccess version s.access SYS_CNS account).isEmpty

/-! ### Votes -/

/-- The vote of an origin under a key is replaced, whatever its value was; then
    the votes under the key that have run out are removed. -/
def recordVote (number : Int) (t : CommitteeTable) (key : Bytes) (value : Value) (origin : Bytes) :
    CommitteeTable :=
  let condition := fun r : CommitteeRow => r.key = key && r.origin = origin
  let limit := number + c_voteValidLimit
  let voted :=
    if (t.select version condition).isEmpty then
      t.insert { key := key, value := value, origin := origin, blockLimit := some limit }
    else
      t.update version condition
        fun r => { r with value := value, origin := origin, blockLimit := some limit }
  voted.remove version fun r => r.key = key && r.blockLimit.any (· ≤ number)

def memberWeights (t : CommitteeTable) (entries : List AccessRow) : Option (List (Bytes × ℚ)) :=
  entries.mapM fun entry => do
    let weightEntry ← (t.select version fun r => r.key = entry.address ++ CGP_WEIGTH_SUFFIX).head?
    let weight ← weightEntry.value.number
    some (entry.address, weight)

/-- `memberWeight[member]`: the last assignment, and zero where there is none. -/
def weightOf (weights : List (Bytes × ℚ)) (member : Bytes) : ℚ :=
  (weights.reverse.lookup member).getD 0

def authThreshold (t : CommitteeTable) : Option ℚ :=
  match t.select version fun r => r.key = CGP_AUTH_THRESHOLD with
  | [] => some (1 / 2)
  | entry :: _ => entry.value.number

/-- `totalVotes / total > threshold`, where a division by zero is infinite or
    not a number. -/
def moreThan (totalVotes total threshold : ℚ) : Bool :=
  if total = 0 then 0 < totalVotes else threshold < totalVotes / total

def validate (access : AccessTable) (t : CommitteeTable) (key : Bytes) (value : Value)
    (blockNumber : Int) : Option Bool := do
  let entries := access.select version fun r => r.isMember && r.enableNum ≤ blockNumber
  if entries.isEmpty then some true
  else
    let weights ← memberWeights version t entries
    let total := (weights.map Prod.snd).sum
    let votes := t.select version
      fun r => r.key = key && (r.value = value && r.blockLimit.any (blockNumber ≤ ·))
    let totalVotes := (votes.map fun r => weightOf weights r.origin).sum
    let threshold ← authThreshold version t
    some (moreThan totalVotes total threshold)

def deleteUsedVotes (s : Chain) (t : CommitteeTable) (key : Bytes) (value : Value) : CommitteeTable :=
  if checkAuthority (authorizedAddress version s.access s.number CGP_COMMITTEE_TABLE) Address.zero then
    t.remove version fun r => r.key = key && r.value = value
  else t

inductive Operation
  | GrantCommitteeMember
  | RevokeCommitteeMember
  | UpdateCommitteeMemberWeight (weight : Int)
  | UpdateThreshold (percent : Int)
  deriving DecidableEq, Repr

def Operation.key (user : Bytes) : Operation → Bytes
  | .UpdateCommitteeMemberWeight _ => user ++ CGP_UPDATE_WEIGTH_SUFFIX
  | .UpdateThreshold _ => CGP_UPDATE_AUTH_THRESHOLD
  | _ => user

def Operation.value : Operation → Value
  | .GrantCommitteeMember => .grant
  | .RevokeCommitteeMember => .revoke
  | .UpdateCommitteeMemberWeight weight => .weight weight
  | .UpdateThreshold percent => .threshold percent

def carryOut (s : Chain) (table : CommitteeTable) (op : Operation) (user : Bytes) (origin : Address) :
    Int × Chain :=
  match op with
  | .GrantCommitteeMember =>
    let s := s.insertAccess SYS_ACCESS_TABLE user
    let s := (grantTablePermission version s SYS_CONFIG user origin).2
    let s := (grantTablePermission version s SYS_CONSENSUS user origin).2
    let weight :=
      { key := user ++ CGP_WEIGTH_SUFFIX, value := .weight 1, origin := origin.hexPrefixed }
    let table := deleteUsedVotes version s (table.insert weight) user .grant
    (1, { s with committee := some table })
  | .RevokeCommitteeMember =>
    let count := (selectAccess version s.access SYS_ACCESS_TABLE user).length
    let s := s.removeAccess version SYS_ACCESS_TABLE user
    let s := (revokeTablePermission version s SYS_CONFIG user origin).2
    let s := (revokeTablePermission version s SYS_CONSENSUS user origin).2
    let table := table.remove version fun r => r.key = user ++ CGP_WEIGTH_SUFFIX
    (count, { s with committee := some (deleteUsedVotes version s table user .revoke) })
  | .UpdateCommitteeMemberWeight weight =>
    let condition := fun r : CommitteeRow => r.key = user ++ CGP_WEIGTH_SUFFIX
    let count := (table.select version condition).length
    let table := table.update version condition
      fun r => { r with value := .weight weight, origin := origin.hexPrefixed }
    let key := user ++ CGP_UPDATE_WEIGTH_SUFFIX
    (count, { s with committee := some (deleteUsedVotes version s table key (.weight weight)) })
  | .UpdateThreshold percent =>
    let condition := fun r : CommitteeRow => r.key = CGP_AUTH_THRESHOLD
    let count := (table.select version condition).length
    let table := table.update version condition
      fun r => { r with value := .threshold percent, origin := origin.hexPrefixed }
    -- before 2.7.0 the votes are looked for under another key
    let key := if V2_7_0 ≤ version then CGP_UPDATE_AUTH_THRESHOLD else user ++ CGP_WEIGTH_SUFFIX
    (count, { s with committee := some (deleteUsedVotes version s table key (.threshold percent)) })

def verifyAndRecord (s : Chain) (op : Operation) (user : Bytes) (origin : Address) :
    Option (Int × Chain) :=
  if (selectAccess version s.access SYS_ACCESS_TABLE origin.hexPrefixed).isEmpty then
    some (CODE_INVALID_REQUEST_PERMISSION_DENIED, s)
  else
    let key := op.key user
    let table := recordVote version s.number (getCommitteeTable s) key op.value origin.hexPrefixed
    match validate version s.access table key op.value (s.number + 1) with
    | none => none
    | some false => some (0, { s with committee := some table })
    | some true => some (carryOut version s table op user origin)

/-! ### The methods -/

def grantCommitteeMember (s : Chain) (member : Bytes) (origin : Address) : Option (Int × Chain) :=
  if hasOperatorPermissions version s member then
    some (CODE_OPERATOR_CANNOT_BE_COMMITTEE_MEMBER, s)
  else if (members version s.access).isEmpty then
    let granted := grantTablePermission version s SYS_ACCESS_TABLE member origin
    let s := (grantTablePermission version granted.2 SYS_CONFIG member origin).2
    let s := (grantTablePermission version s SYS_CONSENSUS member origin).2
    -- the weight is written also when the grant was refused
    let table := (getCommitteeTable s).insert
      { key := member ++ CGP_WEIGTH_SUFFIX, value := .weight 1, origin := origin.hexPrefixed }
    some (granted.1, { s with committee := some table })
  else if (selectAccess version s.access SYS_ACCESS_TABLE member).isEmpty then
    verifyAndRecord version s .GrantCommitteeMember member origin
  else some (CODE_COMMITTEE_MEMBER_EXIST, s)

def revokeCommitteeMember (s : Chain) (member : Bytes) (origin : Address) : Option (Int × Chain) :=
  if (selectAccess version s.access SYS_ACCESS_TABLE member).isEmpty then
    some (CODE_COMMITTEE_MEMBER_NOT_EXIST, s)
  else verifyAndRecord version s .RevokeCommitteeMember member origin

def updateCommitteeMemberWeight (s : Chain) (member : Bytes) (weight : Int) (origin : Address) :
    Option (Int × Chain) :=
  if V2_7_0 ≤ version ∧ weight ≤ 0 then none
  else if (selectAccess version s.access SYS_ACCESS_TABLE member).isEmpty then
    some (CODE_COMMITTEE_MEMBER_NOT_EXIST, s)
  else
    let table := getCommitteeTable s
    let created := { s with committee := some table }
    if (table.select version
        fun r => r.key = member ++ CGP_WEIGTH_SUFFIX && r.value = .weight weight).isEmpty then
      verifyAndRecord version created (.UpdateCommitteeMemberWeight weight) member origin
    else some (CODE_CURRENT_VALUE_IS_EXPECTED_VALUE, created)

def updateThreshold (s : Chain) (percent : Int) (origin : Address) : Option (Int × Chain) :=
  if 99 < percent ∨ percent < 0 then some (CODE_INVALID_THRESHOLD, s)
  else
    let table := getCommitteeTable s
    let created := { s with committee := some table }
    if (table.select version
        fun r => r.key = CGP_AUTH_THRESHOLD && r.value = .threshold percent).isEmpty then
      verifyAndRecord version created (.UpdateThreshold percent) CGP_UPDATE_AUTH_THRESHOLD origin
    else some (CODE_CURRENT_VALUE_IS_EXPECTED_VALUE, created)

def grantOperator (s : Chain) (user : Bytes) (origin : Address) : Option (Int × Chain) :=
  if (selectAccess version s.access SYS_ACCESS_TABLE origin.hexPrefixed).isEmpty then
    some (CODE_INVALID_REQUEST_PERMISSION_DENIED, s)
  else if !(selectAccess version s.access SYS_ACCESS_TABLE user).isEmpty then
    some (CODE_COMMITTEE_MEMBER_CANNOT_BE_OPERATOR, s)
  else if isOperator version s user then some (CODE_OPERATOR_EXIST, s)
  else
    let tables := grantTablePermission version s SYS_TABLES user origin
    if tables.1 = CODE_NO_AUTHORIZED then none
    else
      let cns := grantTablePermission version tables.2 SYS_CNS user origin
      if cns.1 = CODE_NO_AUTHORIZED then none else some cns

def revokeOperator (s : Chain) (user : Bytes) (origin : Address) : Option (Int × Chain) :=
  if (selectAccess version s.access SYS_ACCESS_TABLE origin.hexPrefixed).isEmpty then
    some (CODE_INVALID_REQUEST_PERMISSION_DENIED, s)
  else if (selectAccess version s.access SYS_TABLES user).isEmpty then
    some (CODE_OPERATOR_NOT_EXIST, s)
  else
    let tables := revokeTablePermission version s SYS_TABLES user origin
    some (tables.1, (revokeTablePermission version tables.2 SYS_CNS user origin).2)

inductive GovernanceCall
  | grantCommitteeMember (user : Address)
  | revokeCommitteeMember (user : Address)
  | updateCommitteeMemberWeight (user : Address) (weight : Int)
  | updateThreshold (threshold : Int)
  | grantOperator (user : Address)
  | revokeOperator (user : Address)
  deriving DecidableEq

def governanceCall (s : Chain) (origin : Address) : GovernanceCall → Option (Int × Chain)
  | .grantCommitteeMember user => grantCommitteeMember version s user.hexPrefixed origin
  | .revokeCommitteeMember user => revokeCommitteeMember version s user.hexPrefixed origin
  | .updateCommitteeMemberWeight user weight =>
    updateCommitteeMemberWeight version s user.hexPrefixed weight origin
  | .updateThreshold threshold => updateThreshold version s threshold origin
  | .grantOperator user => grantOperator version s user.hexPrefixed origin
  | .revokeOperator user => revokeOperator version s user.hexPrefixed origin

end Calls

/-! ### Rows of the access table -/

@[simp] theorem rows_insertAccess (s : Chain) (tableName user : Bytes) :
    (s.insertAccess tableName user).access.rows = s.access.rows
      ++ [{ tableName := tableName, address := user, enableNum := s.number + 1 }] := by
  simp [Chain.insertAccess]

section Released

variable {version : Nat} (hversion : V2_5_0 ≤ version)
include hversion

@[simp] theorem rows_removeAccess (s : Chain) (tableName user : Bytes) :
    (s.removeAccess version tableName user).access.rows
      = s.access.rows.filter fun r => !(r.tableName = tableName && r.address = user) := by
  simp [Chain.removeAccess, s.access.rows_remove hversion]

theorem mem_selectAccess {t : AccessTable} {tableName address : Bytes} {r : AccessRow} :
    r ∈ selectAccess version t tableName address
      ↔ r ∈ t.rows ∧ r.tableName = tableName ∧ r.address = address := by
  simp [selectAccess, t.select_eq hversion]

theorem selectAccess_isEmpty {t : AccessTable} {tableName address : Bytes} :
    (selectAccess version t tableName address).isEmpty = true
      ↔ ∀ r ∈ t.rows, r.tableName = tableName → r.address ≠ address := by
  rw [List.isEmpty_iff, List.eq_nil_iff_forall_not_mem]
  simp only [mem_selectAccess hversion]
  grind

omit hversion in
theorem mem_grantTablePermission {s : Chain} {tableName user : Bytes} {origin : Address}
    {r : AccessRow} (h : r ∈ (grantTablePermission version s tableName user origin).2.access.rows) :
    r ∈ s.access.rows ∨ r.tableName = tableName ∧ r.address = user := by
  unfold grantTablePermission at h
  split at h
  · split at h
    · rw [rows_insertAccess] at h
      rcases List.mem_append.mp h with hold | hnew
      · exact .inl hold
      · exact .inr (by simp [List.mem_singleton.mp hnew])
    · exact .inl h
  · exact .inl h

theorem mem_revokeTablePermission {s : Chain} {tableName user : Bytes} {origin : Address}
    {r : AccessRow} (h : r ∈ (revokeTablePermission version s tableName user origin).2.access.rows) :
    r ∈ s.access.rows := by
  unfold revokeTablePermission at h
  split at h
  · rw [rows_removeAccess hversion] at h
    exact (List.mem_filter.mp h).1
  · exact h

end Released

end HieraChain.Governance
