/-
  HieraChain/RoleSeparation.lean
  ==============================
  **No account is a member of the committee and an operator.**

  The guards of both contracts compare texts.  The governance contract writes
  every account as `0x` and forty digits in lower case; the permission contract
  stores the text that it was given, and the constructor of an address takes
  other texts for the same account: without `0x`, or of another length, which is
  the zero account.  An operator under such a text is not seen when the account
  is granted membership, and a member is not seen when the permission comes under
  such a text (`operator_spelled_otherwise`).

  When every insertion into the two tables of the operators spells its account
  as the governance contract does, the roles stay apart over every run
  (`roles_separate`).
-/
import HieraChain.PermissionPrecompiled

namespace HieraChain.Governance

open HieraChain.BigEndian HieraChain.Storage HieraChain.Hex

/-! ### Roles -/

def AccessRow.isOperator (r : AccessRow) : Bool := r.tableName = SYS_TABLES ∨ r.tableName = SYS_CNS

def HoldsMembership (s : Chain) (a : Address) : Prop :=
  ∃ r ∈ s.access.rows, r.isMember = true ∧ Address.ofText r.address = some a

/-- The account has an entry for the table of tables or of names, under any text. -/
def HoldsOperator (s : Chain) (a : Address) : Prop :=
  ∃ r ∈ s.access.rows, r.isOperator = true ∧ Address.ofText r.address = some a

instance (s : Chain) (a : Address) : Decidable (HoldsMembership s a) := List.decidableBEx ..

instance (s : Chain) (a : Address) : Decidable (HoldsOperator s a) := List.decidableBEx ..

/-- An insertion into the operators' tables spells its account as the governance
    contract does. -/
def Spelled : Input → Prop
  | .permission _ (.insert tableName addr) =>
    tableName = SYS_TABLES ∨ tableName = SYS_CNS →
      ∀ a ∈ Address.ofText (to_lower addr), to_lower addr = a.hexPrefixed
  | _ => True

instance : DecidablePred Spelled
  | .permission _ (.insert _ _) => inferInstanceAs (Decidable (_ → ∀ a ∈ Address.ofText _, _))
  | .permission _ (.remove _ _) => isTrue trivial
  | .permission _ (.grantWrite ..) => isTrue trivial
  | .permission _ (.revokeWrite ..) => isTrue trivial
  | .governance _ _ => isTrue trivial
  | .endOfBlock => isTrue trivial

structure RolesApart (rows : List AccessRow) : Prop where
  spelled : ∀ r ∈ rows, r.isMember = true ∨ r.isOperator = true → ∃ a : Address, r.address = a.hexPrefixed
  apart : ∀ r ∈ rows, ∀ q ∈ rows, r.isMember = true → q.isOperator = true → r.address ≠ q.address

theorem RolesApart.separate {s : Chain} (h : RolesApart s.access.rows) (a : Address) :
    ¬ (HoldsMembership s a ∧ HoldsOperator s a) := by
  rintro ⟨⟨r, hr, hmember, hra⟩, ⟨q, hq, hoperator, hqa⟩⟩
  obtain ⟨b, hb⟩ := h.spelled r hr (.inl hmember)
  obtain ⟨c, hc⟩ := h.spelled q hq (.inr hoperator)
  rw [hb, Address.ofText_hexPrefixed] at hra
  rw [hc, Address.ofText_hexPrefixed] at hqa
  cases hra
  cases hqa
  exact h.apart r hr q hq hmember hoperator (hb.trans hc.symm)

/-! ### What a call adds -/

/-- A call gives no role, makes one account a member that no operator is, or
    makes one account an operator that no member is. -/
inductive RoleStep (rows rows' : List AccessRow) : Prop
  | none (hrows : ∀ r ∈ rows', r ∈ rows ∨ r.isMember = false ∧ r.isOperator = false)
  | member (user : Address)
      (hfree : ∀ r ∈ rows, r.isOperator = true → r.address ≠ user.hexPrefixed)
      (hrows : ∀ r ∈ rows', r ∈ rows ∨ r.isOperator = false ∧ r.address = user.hexPrefixed)
  | operator (user : Address)
      (hfree : ∀ r ∈ rows, r.isMember = true → r.address ≠ user.hexPrefixed)
      (hrows : ∀ r ∈ rows', r ∈ rows ∨ r.isMember = false ∧ r.address = user.hexPrefixed)

theorem RoleStep.keeps {rows rows' : List AccessRow} (hsub : ∀ r ∈ rows', r ∈ rows) :
    RoleStep rows rows' :=
  .none fun r hr => .inl (hsub r hr)

theorem RoleStep.rolesApart {rows rows' : List AccessRow} (hstep : RoleStep rows rows')
    (h : RolesApart rows) : RolesApart rows' := by
  cases hstep with
  | none hrows =>
    have hold : ∀ r ∈ rows', r.isMember = true ∨ r.isOperator = true → r ∈ rows := by
      intro r hr hrole
      rcases hrows r hr with hmem | ⟨hmember, hoperator⟩
      · exact hmem
      · simp [hmember, hoperator] at hrole
    exact {
      spelled := fun r hr hrole => h.spelled r (hold r hr hrole) hrole
      apart := fun r hr q hq hmember hoperator =>
        h.apart r (hold r hr (.inl hmember)) q (hold q hq (.inr hoperator)) hmember hoperator }
  | member user hfree hrows =>
    refine ⟨fun r hr hrole => ?_, fun r hr q hq hmember hoperator => ?_⟩
    · rcases hrows r hr with hold | ⟨-, haddress⟩
      · exact h.spelled r hold hrole
      · exact ⟨user, haddress⟩
    · have hqold : q ∈ rows := by
        rcases hrows q hq with hold | ⟨hnot, -⟩
        · exact hold
        · simp [hnot] at hoperator
      rcases hrows r hr with hold | ⟨-, haddress⟩
      · exact h.apart r hold q hqold hmember hoperator
      · rw [haddress]
        exact (hfree q hqold hoperator).symm
  | operator user hfree hrows =>
    refine ⟨fun r hr hrole => ?_, fun r hr q hq hmember hoperator => ?_⟩
    · rcases hrows r hr with hold | ⟨-, haddress⟩
      · exact h.spelled r hold hrole
      · exact ⟨user, haddress⟩
    · have hrold : r ∈ rows := by
        rcases hrows r hr with hold | ⟨hnot, -⟩
        · exact hold
        · simp [hnot] at hmember
      rcases hrows q hq with hold | ⟨-, haddress⟩
      · exact h.apart r hrold q hold hmember hoperator
      · rw [haddress]
        exact hfree r hrold hmember

section Released

variable {version : Nat} (hversion : V2_5_0 ≤ version)
include hversion

theorem no_operator_of_guard {s : Chain} {user : Bytes}
    (h : hasOperatorPermissions version s user = false) :
    ∀ r ∈ s.access.rows, r.isOperator = true → r.address ≠ user := by
  simp only [hasOperatorPermissions, Bool.or_eq_false_iff, Bool.not_eq_false',
    selectAccess_isEmpty hversion] at h
  intro r hr hoperator
  rcases of_decide_eq_true hoperator with htables | hcns
  · exact h.1 r hr htables
  · exact h.2 r hr hcns

theorem no_member_of_guard {s : Chain} {user : Bytes}
    (h : (selectAccess version s.access SYS_ACCESS_TABLE user).isEmpty = true) :
    ∀ r ∈ s.access.rows, r.isMember = true → r.address ≠ user := by
  intro r hr hmember
  exact (selectAccess_isEmpty hversion).mp h r hr (of_decide_eq_true hmember)

omit hversion in
theorem mem_grant_member {s : Chain} {tableName user : Bytes} {origin : Address} {r : AccessRow}
    (htable : tableName ≠ SYS_TABLES ∧ tableName ≠ SYS_CNS)
    (h : r ∈ (grantTablePermission version s tableName user origin).2.access.rows) :
    r ∈ s.access.rows ∨ r.isOperator = false ∧ r.address = user := by
  rcases mem_grantTablePermission h with hold | ⟨hname, haddress⟩
  · exact .inl hold
  · exact .inr ⟨by simp [AccessRow.isOperator, hname, htable], haddress⟩

omit hversion in
theorem mem_grant_tables {s : Chain} {user : Bytes} {origin : Address} {r : AccessRow}
    (h : r ∈ (grantTablePermission version (grantTablePermission version s SYS_CONFIG user origin).2
      SYS_CONSENSUS user origin).2.access.rows) :
    r ∈ s.access.rows ∨ r.isOperator = false ∧ r.address = user := by
  rcases mem_grant_member (by decide) h with hold | hnew
  · exact mem_grant_member (by decide) hold
  · exact .inr hnew

theorem mem_carryOut {s : Chain} {table : CommitteeTable} {op : Operation} {user : Bytes}
    {origin : Address} {r : AccessRow}
    (h : r ∈ (carryOut version s table op user origin).2.access.rows) :
    r ∈ s.access.rows
      ∨ op = .GrantCommitteeMember ∧ r.isOperator = false ∧ r.address = user := by
  cases op with
  | GrantCommitteeMember =>
    rcases mem_grant_tables h with hold | hnew
    · rw [rows_insertAccess] at hold
      rcases List.mem_append.mp hold with hold | hrow
      · exact .inl hold
      · rw [List.mem_singleton.mp hrow]
        exact .inr ⟨rfl, rfl, rfl⟩
    · exact .inr ⟨rfl, hnew⟩
  | RevokeCommitteeMember =>
    have hremoved := mem_revokeTablePermission hversion (mem_revokeTablePermission hversion h)
    rw [rows_removeAccess hversion] at hremoved
    exact .inl (List.mem_filter.mp hremoved).1
  | UpdateCommitteeMemberWeight weight => exact .inl h
  | UpdateThreshold percent => exact .inl h

theorem mem_verifyAndRecord {s : Chain} {op : Operation} {user : Bytes} {origin : Address}
    {answer : Int × Chain} (h : verifyAndRecord version s op user origin = some answer)
    {r : AccessRow} (hr : r ∈ answer.2.access.rows) :
    r ∈ s.access.rows
      ∨ op = .GrantCommitteeMember ∧ r.isOperator = false ∧ r.address = user := by
  unfold verifyAndRecord at h
  split at h
  · cases h
    exact .inl hr
  · simp only at h
    split at h
    · cases h
    · cases h
      exact .inl hr
    · cases h
      exact mem_carryOut hversion hr

/-! ### One call -/

theorem grantCommitteeMember_roles {s : Chain} {user origin : Address} {answer : Int × Chain}
    (h : grantCommitteeMember version s user.hexPrefixed origin = some answer) :
    RoleStep s.access.rows answer.2.access.rows := by
  unfold grantCommitteeMember at h
  split at h
  · cases h
    exact .keeps fun _ hr => hr
  · rename_i hguard
    have hfree := no_operator_of_guard hversion (eq_false_of_ne_true hguard)
    simp only at h
    split at h
    · cases h
      refine .member user hfree fun r hr => ?_
      rcases mem_grant_tables hr with hfirst | hnew
      · exact mem_grant_member (by decide) hfirst
      · exact .inr hnew
    · split at h
      · refine .member user hfree fun r hr => ?_
        exact (mem_verifyAndRecord hversion h hr).imp_right And.right
      · cases h
        exact .keeps fun _ hr => hr

theorem verifyAndRecord_roles {s : Chain} {rows : List AccessRow} {op : Operation} {user : Bytes}
    {origin : Address} {answer : Int × Chain}
    (h : verifyAndRecord version s op user origin = some answer)
    (hrows : s.access.rows = rows) (hop : op ≠ .GrantCommitteeMember) :
    RoleStep rows answer.2.access.rows := by
  refine .keeps fun r hr => ?_
  rcases mem_verifyAndRecord hversion h hr with hold | ⟨hgrant, -⟩
  · rwa [hrows] at hold
  · exact absurd hgrant hop

theorem revokeCommitteeMember_roles {s : Chain} {user : Bytes} {origin : Address}
    {answer : Int × Chain} (h : revokeCommitteeMember version s user origin = some answer) :
    RoleStep s.access.rows answer.2.access.rows := by
  unfold revokeCommitteeMember at h
  split at h
  · cases h
    exact .keeps fun _ hr => hr
  · exact verifyAndRecord_roles hversion h rfl (by simp)

theorem updateCommitteeMemberWeight_roles {s : Chain} {user : Bytes} {weight : Int} {origin : Address}
    {answer : Int × Chain} (h : updateCommitteeMemberWeight version s user weight origin = some answer) :
    RoleStep s.access.rows answer.2.access.rows := by
  unfold updateCommitteeMemberWeight at h
  split at h
  · cases h
  · split at h
    · cases h
      exact .keeps fun _ hr => hr
    · simp only at h
      split at h
      · exact verifyAndRecord_roles hversion h rfl (by simp)
      · cases h
        exact .keeps fun _ hr => hr

theorem updateThreshold_roles {s : Chain} {percent : Int} {origin : Address} {answer : Int × Chain}
    (h : updateThreshold version s percent origin = some answer) :
    RoleStep s.access.rows answer.2.access.rows := by
  unfold updateThreshold at h
  split at h
  · cases h
    exact .keeps fun _ hr => hr
  · simp only at h
    split at h
    · exact verifyAndRecord_roles hversion h rfl (by simp)
    · cases h
      exact .keeps fun _ hr => hr

theorem grantOperator_roles {s : Chain} {user origin : Address} {answer : Int × Chain}
    (h : grantOperator version s user.hexPrefixed origin = some answer) :
    RoleStep s.access.rows answer.2.access.rows := by
  unfold grantOperator at h
  split at h
  · cases h
    exact .keeps fun _ hr => hr
  · split at h
    · cases h
      exact .keeps fun _ hr => hr
    · rename_i hguard
      split at h
      · cases h
        exact .keeps fun _ hr => hr
      · simp only at h
        split at h
        · cases h
        · split at h
          · cases h
          · cases h
            refine .operator user (no_member_of_guard hversion (by simpa using hguard)) fun r hr => ?_
            rcases mem_grantTablePermission hr with hfirst | ⟨hname, haddress⟩
            · rcases mem_grantTablePermission hfirst with hold | ⟨hname, haddress⟩
              · exact .inl hold
              · exact .inr ⟨by rw [AccessRow.isMember, hname]; decide, haddress⟩
            · exact .inr ⟨by rw [AccessRow.isMember, hname]; decide, haddress⟩

theorem revokeOperator_roles {s : Chain} {user : Bytes} {origin : Address} {answer : Int × Chain}
    (h : revokeOperator version s user origin = some answer) :
    RoleStep s.access.rows answer.2.access.rows := by
  unfold revokeOperator at h
  split at h
  · cases h
    exact .keeps fun _ hr => hr
  · split at h
    · cases h
      exact .keeps fun _ hr => hr
    · cases h
      exact .keeps fun r hr =>
        mem_revokeTablePermission hversion (mem_revokeTablePermission hversion hr)

theorem governanceCall_roles {s : Chain} {origin : Address} {c : GovernanceCall}
    {answer : Int × Chain} (h : governanceCall version s origin c = some answer) :
    RoleStep s.access.rows answer.2.access.rows := by
  cases c with
  | grantCommitteeMember user => exact grantCommitteeMember_roles hversion h
  | revokeCommitteeMember user => exact revokeCommitteeMember_roles hversion h
  | updateCommitteeMemberWeight user weight => exact updateCommitteeMemberWeight_roles hversion h
  | updateThreshold threshold => exact updateThreshold_roles hversion h
  | grantOperator user => exact grantOperator_roles hversion h
  | revokeOperator user => exact revokeOperator_roles hversion h

theorem permissionInsert_roles {s : Chain} {tableName addr : Bytes} {origin : Address}
    (hspelled : Spelled (.permission origin (.insert tableName addr))) :
    RoleStep s.access.rows (permissionInsert version s tableName addr origin).2.access.rows := by
  rcases permissionInsert_cases hversion s tableName addr origin with
    hsame | ⟨haccess, hcommittee, ⟨a, ha⟩, hinserted⟩
  · rw [hsame]
    exact .keeps fun _ hr => hr
  · rw [hinserted, rows_insertAccess]
    have hmember : addPrefixToUserTable version tableName ≠ SYS_ACCESS_TABLE :=
      fun h => haccess (addPrefixToUserTable_eq hversion h rfl)
    by_cases htable : tableName = SYS_TABLES ∨ tableName = SYS_CNS
    · have htext : to_lower addr = a.hexPrefixed := hspelled htable a ha
      rw [htext] at hcommittee ⊢
      refine .operator a (no_member_of_guard hversion (hcommittee htable)) fun r hr => ?_
      rcases List.mem_append.mp hr with hold | hnew
      · exact .inl hold
      · rw [List.mem_singleton.mp hnew]
        exact .inr ⟨decide_eq_false hmember, rfl⟩
    · have hoperator : ¬ (addPrefixToUserTable version tableName = SYS_TABLES
          ∨ addPrefixToUserTable version tableName = SYS_CNS) := by
        rintro (h | h)
        · exact htable (.inl (addPrefixToUserTable_eq hversion h rfl))
        · exact htable (.inr (addPrefixToUserTable_eq hversion h rfl))
      refine .none fun r hr => ?_
      rcases List.mem_append.mp hr with hold | hnew
      · exact .inl hold
      · rw [List.mem_singleton.mp hnew]
        exact .inr ⟨decide_eq_false hmember, decide_eq_false hoperator⟩

omit hversion in
theorem grantWrite_roles (s : Chain) (contract user origin : Address) (opened allowed : Bool) :
    RoleStep s.access.rows (grantWrite version s contract user origin opened allowed).2.access.rows := by
  rcases grantWrite_cases version s contract user origin opened allowed with hsame | hinserted
  · rw [hsame]
    exact .keeps fun _ hr => hr
  · rw [hinserted, rows_insertAccess]
    refine .none fun r hr => ?_
    rcases List.mem_append.mp hr with hold | hnew
    · exact .inl hold
    · rw [List.mem_singleton.mp hnew]
      refine .inr ⟨decide_eq_false (getContractTableName_ne contract rfl), decide_eq_false ?_⟩
      rintro (h | h)
      · exact getContractTableName_ne contract rfl h
      · exact getContractTableName_ne contract rfl h

theorem roleStep_of_removed {s s' : Chain} {tableName user : Bytes}
    (h : s' = s ∨ s' = s.removeAccess version tableName user) :
    RoleStep s.access.rows s'.access.rows := by
  refine .keeps fun r hr => ?_
  rcases h with rfl | rfl
  · exact hr
  · rw [rows_removeAccess hversion] at hr
    exact (List.mem_filter.mp hr).1

theorem permissionCall_roles {s : Chain} {origin : Address} {c : PermissionCall}
    (hspelled : Spelled (.permission origin c)) :
    RoleStep s.access.rows (permissionCall version s origin c).access.rows := by
  cases c with
  | insert tableName addr => exact permissionInsert_roles hversion hspelled
  | remove tableName addr =>
    exact roleStep_of_removed hversion
      ((permissionRemove_cases hversion s tableName addr origin).imp_right And.right)
  | grantWrite contract user opened allowed =>
    rw [permissionCall]
    split
    · exact grantWrite_roles s contract user origin opened allowed
    · exact .keeps fun _ hr => hr
  | revokeWrite contract user allowed =>
    rw [permissionCall]
    split
    · exact roleStep_of_removed hversion (revokeWritePermission_cases s _ _ origin true allowed)
    · exact .keeps fun _ hr => hr

/-! ### Runs -/

theorem step_roles {s : Chain} {i : Input} (hspelled : Spelled i) :
    RoleStep s.access.rows ((chain version).step s i).access.rows := by
  cases i with
  | governance origin c =>
    cases h : governanceCall version s origin c with
    | none => simpa [chain, h] using RoleStep.keeps fun _ hr => hr
    | some answer => simpa [chain, h] using governanceCall_roles hversion h
  | permission origin c => exact permissionCall_roles hversion hspelled
  | endOfBlock =>
    refine .keeps fun r hr => ?_
    simpa [chain, endOfBlock] using hr

theorem rolesApart_run {s : Chain} {inputs : List Input} (hs : RolesApart s.access.rows)
    (h : (chain version).RunOk (fun _ i => Spelled i) s inputs) :
    RolesApart ((chain version).run s inputs).access.rows := by
  have hstep : ∀ s i, RolesApart s.access.rows → Spelled i →
      RolesApart ((chain version).step s i).access.rows :=
    fun _ _ hs hi => (step_roles hversion hi).rolesApart hs
  exact (chain version).run_invariant hstep hs h

end Released

/-- **Roles stay apart.**  From empty tables, over any calls of both contracts
    and any blocks, no account is a member and an operator, when the insertions
    into the operators' tables spell their accounts as the governance contract
    does. -/
theorem roles_separate {version : Nat} (hversion : V2_6_0 ≤ version) {inputs : List Input}
    (h : (chain version).RunOk (fun _ i => Spelled i) genesis inputs) (a : Address) :
    ¬ (HoldsMembership ((chain version).run genesis inputs) a
      ∧ HoldsOperator ((chain version).run genesis inputs) a) := by
  have hstart : RolesApart genesis.access.rows := by
    constructor <;> simp [genesis]
  exact (rolesApart_run (Nat.le_trans (by decide) hversion) hstart h).separate a

/-- A member and an operator; the member is refused as an operator, and the
    operator as a member. -/
theorem roles_separate_small : ¬ (HoldsMembership ((chain V2_6_0).run genesis
      [.governance Address.zero (.grantCommitteeMember (.ofByte 1)), .endOfBlock,
        .permission (.ofByte 1) (.insert SYS_TABLES (Address.ofByte 2).hexPrefixed),
        .permission (.ofByte 1) (.insert SYS_CNS (Address.ofByte 1).hexPrefixed),
        .governance (.ofByte 1) (.grantCommitteeMember (.ofByte 2))]) (.ofByte 2)
    ∧ HoldsOperator ((chain V2_6_0).run genesis
      [.governance Address.zero (.grantCommitteeMember (.ofByte 1)), .endOfBlock,
        .permission (.ofByte 1) (.insert SYS_TABLES (Address.ofByte 2).hexPrefixed),
        .permission (.ofByte 1) (.insert SYS_CNS (Address.ofByte 1).hexPrefixed),
        .governance (.ofByte 1) (.grantCommitteeMember (.ofByte 2))]) (.ofByte 2)) :=
  roles_separate (by decide) (by decide +kernel) _

/-- **Another spelling passes the guards.**  A member gives itself the permission
    of an operator under its digits without `0x`. -/
theorem operator_spelled_otherwise :
    HoldsMembership ((chain V2_6_0).run genesis
      [.governance Address.zero (.grantCommitteeMember (.ofByte 1)), .endOfBlock,
        .permission (.ofByte 1) (.insert SYS_TABLES (toHex (Address.ofByte 1).bytes))]) (.ofByte 1)
    ∧ HoldsOperator ((chain V2_6_0).run genesis
      [.governance Address.zero (.grantCommitteeMember (.ofByte 1)), .endOfBlock,
        .permission (.ofByte 1) (.insert SYS_TABLES (toHex (Address.ofByte 1).bytes))]) (.ofByte 1) := by
  decide +kernel

end HieraChain.Governance
