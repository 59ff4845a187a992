/-
  HieraChain/CommitteeChanges.lean
  ================================
  **What a vote that is carried changes.**

  A call either casts no vote or reaches `verifyAndRecord` (`governanceCall_cast`).
  There it records the vote, and when the votes are enough it changes the members
  as `membersAfter` and the rows of the votes' table as `effectRows` and
  `usedRows` say (`carryOut_members`, `carryOut_votes`).
-/
import HieraChain.CommitteeVotes

namespace HieraChain.Governance

open HieraChain.BigEndian HieraChain.Storage HieraChain.Hex HieraChain.Ballots

/-! ### Members -/

def AccessRow.account (r : AccessRow) : Option Address := Address.ofText r.address

def Chain.members (s : Chain) : List Address :=
  (s.access.rows.filter AccessRow.isMember).filterMap AccessRow.account

def Chain.votes (s : Chain) : List CommitteeRow := (getCommitteeTable s).rows

def MembersSpelled (s : Chain) : Prop :=
  ∀ r ∈ s.access.rows, r.isMember = true → ∃ a : Address, r.address = a.hexPrefixed

theorem MembersSpelled.map_address {s : Chain} (h : MembersSpelled s) :
    (s.access.rows.filter AccessRow.isMember).map AccessRow.address
      = s.members.map Address.hexPrefixed := by
  have hrows : ∀ r ∈ s.access.rows.filter AccessRow.isMember,
      ∃ a : Address, r.address = a.hexPrefixed := by
    intro r hr
    obtain ⟨hmem, hmember⟩ := List.mem_filter.mp hr
    exact h r hmem hmember
  rw [Chain.members]
  generalize s.access.rows.filter AccessRow.isMember = rows at hrows ⊢
  induction rows with
  | nil => rfl
  | cons r rows ih =>
    obtain ⟨a, ha⟩ := hrows r List.mem_cons_self
    have hrest := ih fun q hq => hrows q (List.mem_cons_of_mem r hq)
    have hsome : r.account = some a := by rw [AccessRow.account, ha, Address.ofText_hexPrefixed]
    rw [List.filterMap_cons_some hsome, List.map_cons, List.map_cons, hrest, ha]

theorem MembersSpelled.mem_members {s : Chain} (h : MembersSpelled s) {a : Address} :
    a ∈ s.members ↔ ∃ r ∈ s.access.rows, r.isMember = true ∧ r.address = a.hexPrefixed := by
  have hmap : a.hexPrefixed ∈ s.members.map Address.hexPrefixed ↔ a ∈ s.members := by
    constructor
    · intro hmem
      obtain ⟨b, hb, heq⟩ := List.mem_map.mp hmem
      rwa [← Address.hexPrefixed_injective heq]
    · exact List.mem_map_of_mem
  rw [← hmap, ← h.map_address, List.mem_map]
  constructor
  · rintro ⟨r, hr, haddress⟩
    obtain ⟨hmem, hmember⟩ := List.mem_filter.mp hr
    exact ⟨r, hmem, hmember, haddress⟩
  · rintro ⟨r, hmem, hmember, haddress⟩
    exact ⟨r, List.mem_filter.mpr ⟨hmem, hmember⟩, haddress⟩

theorem members_insert_member (s : Chain) (user : Address) :
    (s.insertAccess SYS_ACCESS_TABLE user.hexPrefixed).members = s.members ++ [user] := by
  simp [Chain.members, AccessRow.isMember, AccessRow.account]

theorem members_insert_other (s : Chain) {tableName user : Bytes} (hname : tableName ≠ SYS_ACCESS_TABLE) :
    (s.insertAccess tableName user).members = s.members := by
  simp [Chain.members, AccessRow.isMember, hname]

section Released

variable {version : Nat} (hversion : V2_5_0 ≤ version)
include hversion

theorem members_remove_member {s : Chain} (h : MembersSpelled s) (user : Address) :
    (s.removeAccess version SYS_ACCESS_TABLE user.hexPrefixed).members
      = s.members.filter fun a => a ≠ user := by
  rw [Chain.members, Chain.members, rows_removeAccess hversion, List.filter_filter]
  have hrows : ∀ r ∈ s.access.rows, r.isMember = true → ∃ a : Address, r.address = a.hexPrefixed := h
  clear h
  generalize s.access.rows = rows at hrows ⊢
  induction rows with
  | nil => rfl
  | cons r rows ih =>
    have hrest := ih fun q hq => hrows q (List.mem_cons_of_mem r hq)
    by_cases hmember : r.isMember = true
    · obtain ⟨a, ha⟩ := hrows r List.mem_cons_self hmember
      have hname : r.tableName = SYS_ACCESS_TABLE := of_decide_eq_true hmember
      have hsome : r.account = some a := by rw [AccessRow.account, ha, Address.ofText_hexPrefixed]
      rw [List.filter_cons_of_pos hmember, List.filterMap_cons_some hsome]
      by_cases huser : a = user
      · rw [List.filter_cons_of_neg (by simp [hname, ha, huser]),
          List.filter_cons_of_neg (by simp [huser]), hrest]
      · rw [List.filter_cons_of_pos (by simp [hmember, ha, huser]), List.filterMap_cons_some hsome,
          List.filter_cons_of_pos (by simp [huser]), hrest]
    · rw [List.filter_cons_of_neg (by simp [hmember]), List.filter_cons_of_neg hmember, hrest]

theorem members_remove_other (s : Chain) {tableName user : Bytes} (hname : tableName ≠ SYS_ACCESS_TABLE) :
    (s.removeAccess version tableName user).members = s.members := by
  rw [Chain.members, Chain.members, rows_removeAccess hversion, List.filter_filter]
  refine congrArg _ (List.filter_congr fun r _ => ?_)
  cases hmember : r.isMember with
  | false => rfl
  | true =>
    have htable : r.tableName = SYS_ACCESS_TABLE := of_decide_eq_true hmember
    simp [htable, Ne.symm hname]

omit hversion in
theorem members_grant_other (s : Chain) {tableName user : Bytes} {origin : Address}
    (hname : tableName ≠ SYS_ACCESS_TABLE) :
    (grantTablePermission version s tableName user origin).2.members = s.members := by
  unfold grantTablePermission
  split
  · split
    · exact members_insert_other s hname
    · rfl
  · rfl

theorem members_revoke_other (s : Chain) {tableName user : Bytes} {origin : Address}
    (hname : tableName ≠ SYS_ACCESS_TABLE) :
    (revokeTablePermission version s tableName user origin).2.members = s.members := by
  unfold revokeTablePermission
  split
  · exact members_remove_other hversion s hname
  · rfl

theorem selectAccess_member {s : Chain} (h : MembersSpelled s) (a : Address) :
    (selectAccess version s.access SYS_ACCESS_TABLE a.hexPrefixed).isEmpty = true ↔ a ∉ s.members := by
  rw [selectAccess_isEmpty hversion, h.mem_members]
  constructor
  · rintro hnone ⟨r, hr, hmember, haddress⟩
    exact hnone r hr (of_decide_eq_true hmember) haddress
  · intro hnot r hr hname haddress
    exact hnot ⟨r, hr, decide_eq_true hname, haddress⟩

theorem members_isEmpty {s : Chain} (h : MembersSpelled s) :
    (members version s.access).isEmpty = true ↔ s.members = [] := by
  rw [members, s.access.select_eq hversion, List.isEmpty_iff,
    ← List.map_eq_nil_iff (f := Address.hexPrefixed), ← h.map_address, List.map_eq_nil_iff]

end Released

/-! ### Entries -/

/-- Members are spelled as the contract spells them, entries come into force with
    the next block at the latest, and none is about the votes' table. -/
structure EntriesOk (s : Chain) : Prop where
  spelled : MembersSpelled s
  enabled : ∀ r ∈ s.access.rows, r.enableNum ≤ s.number + 1
  named : ∀ r ∈ s.access.rows, r.tableName ≠ CGP_COMMITTEE_TABLE

theorem EntriesOk.insert {s : Chain} (h : EntriesOk s) {tableName user : Bytes}
    (hmember : tableName = SYS_ACCESS_TABLE → ∃ a : Address, user = a.hexPrefixed)
    (hname : tableName ≠ CGP_COMMITTEE_TABLE) : EntriesOk (s.insertAccess tableName user) := by
  refine ⟨fun r hr hrow => ?_, fun r hr => ?_, fun r hr => ?_⟩ <;>
    rw [rows_insertAccess] at hr <;> rcases List.mem_append.mp hr with hold | hnew
  · exact h.spelled r hold hrow
  · rw [List.mem_singleton.mp hnew] at hrow ⊢
    exact hmember (of_decide_eq_true hrow)
  · exact h.enabled r hold
  · rw [List.mem_singleton.mp hnew]
    exact le_refl _
  · exact h.named r hold
  · rw [List.mem_singleton.mp hnew]
    exact hname

theorem EntriesOk.of_subset {s s' : Chain} (h : EntriesOk s) (hnumber : s.number ≤ s'.number)
    (hrows : ∀ r ∈ s'.access.rows, r ∈ s.access.rows) : EntriesOk s' where
  spelled r hr hmember := h.spelled r (hrows r hr) hmember
  enabled r hr := by
    have := h.enabled r (hrows r hr)
    omega
  named r hr := h.named r (hrows r hr)

section Released

variable {version : Nat} (hversion : V2_5_0 ≤ version)
include hversion

theorem EntriesOk.remove {s : Chain} (h : EntriesOk s) (tableName user : Bytes) :
    EntriesOk (s.removeAccess version tableName user) := by
  refine h.of_subset (le_refl _) fun r hr => ?_
  rw [rows_removeAccess hversion] at hr
  exact (List.mem_filter.mp hr).1

omit hversion in
theorem EntriesOk.grant {s : Chain} (h : EntriesOk s) {tableName user : Bytes} (origin : Address)
    (hmember : tableName = SYS_ACCESS_TABLE → ∃ a : Address, user = a.hexPrefixed)
    (hname : tableName ≠ CGP_COMMITTEE_TABLE) :
    EntriesOk (grantTablePermission version s tableName user origin).2 := by
  unfold grantTablePermission
  split
  · split
    · exact h.insert hmember hname
    · exact h
  · exact h

theorem EntriesOk.revoke {s : Chain} (h : EntriesOk s) (tableName user : Bytes) (origin : Address) :
    EntriesOk (revokeTablePermission version s tableName user origin).2 := by
  unfold revokeTablePermission
  split
  · exact h.remove hversion tableName user
  · exact h

theorem rows_deleteUsedVotes {s : Chain} (h : EntriesOk s) (t : CommitteeTable) (key : Bytes)
    (value : Value) : (deleteUsedVotes version s t key value).rows
      = t.rows.filter fun r => !(r.key = key && r.value = value) := by
  have hnobody : authorizedAddress version s.access s.number CGP_COMMITTEE_TABLE = [] := by
    have hnone : (s.access.rows.filter fun r =>
        r.tableName = CGP_COMMITTEE_TABLE && r.enableNum ≤ s.number) = [] := by
      rw [List.filter_eq_nil_iff]
      intro r hr
      simp [h.named r hr]
    rw [authorizedAddress, s.access.select_eq hversion, hnone]
    rfl
  have hcheck : checkAuthority
      (authorizedAddress version s.access s.number CGP_COMMITTEE_TABLE) Address.zero = true := by
    rw [hnobody]
    rfl
  rw [deleteUsedVotes, if_pos hcheck, t.rows_remove hversion]

end Released

/-! ### A carried proposal -/

def withMembership (version : Nat) (s : Chain) (a v : Address) : Chain :=
  let s := s.insertAccess SYS_ACCESS_TABLE a.hexPrefixed
  let s := (grantTablePermission version s SYS_CONFIG a.hexPrefixed v).2
  (grantTablePermission version s SYS_CONSENSUS a.hexPrefixed v).2

def withoutMembership (version : Nat) (s : Chain) (a v : Address) : Chain :=
  let s := s.removeAccess version SYS_ACCESS_TABLE a.hexPrefixed
  let s := (revokeTablePermission version s SYS_CONFIG a.hexPrefixed v).2
  (revokeTablePermission version s SYS_CONSENSUS a.hexPrefixed v).2

def membersAfter (members : List Address) : Proposal → List Address
  | .grant a => members ++ [a]
  | .revoke a => members.filter fun b => b ≠ a
  | _ => members

def setWeight (v : Address) (w : Int) (r : CommitteeRow) : CommitteeRow :=
  { r with value := .weight w, origin := v.hexPrefixed }

def setThreshold (v : Address) (x : Int) (r : CommitteeRow) : CommitteeRow :=
  { r with value := .threshold x, origin := v.hexPrefixed }

/-- The rows of the votes' table with the weights and the threshold as carried. -/
def effectRows (v : Address) (rows : List CommitteeRow) : Proposal → List CommitteeRow
  | .grant a => rows ++ [{ key := weightKey a, value := .weight 1, origin := v.hexPrefixed }]
  | .revoke a => rows.filter fun r => !(r.key = weightKey a)
  | .weight a w => rows.map fun r =>
    if r.key = weightKey a then setWeight v w r else r
  | .threshold x => rows.map fun r =>
    if r.key = CGP_AUTH_THRESHOLD then setThreshold v x r else r

def Proposal.usesUp (version : Nat) : Proposal → Bool
  | .threshold _ => V2_7_0 ≤ version
  | _ => true

def Proposal.usedKey (version : Nat) (p : Proposal) : Bytes :=
  if p.usesUp version then p.key else CGP_UPDATE_AUTH_THRESHOLD ++ CGP_WEIGTH_SUFFIX

def usedRows (version : Nat) (p : Proposal) (rows : List CommitteeRow) : List CommitteeRow :=
  rows.filter fun r => !(r.key = p.usedKey version && r.value = p.value)

section Released

variable {version : Nat} (hversion : V2_5_0 ≤ version)
include hversion

omit hversion in
theorem EntriesOk.withMembership {s : Chain} (h : EntriesOk s) (a v : Address) :
    EntriesOk (withMembership version s a v) := by
  have hmember : EntriesOk (s.insertAccess SYS_ACCESS_TABLE a.hexPrefixed) :=
    h.insert (fun _ => ⟨a, rfl⟩) (by decide)
  have hconfig : EntriesOk (grantTablePermission version (s.insertAccess SYS_ACCESS_TABLE a.hexPrefixed)
      SYS_CONFIG a.hexPrefixed v).2 := hmember.grant v (fun _ => ⟨a, rfl⟩) (by decide)
  exact hconfig.grant v (fun _ => ⟨a, rfl⟩) (by decide)

theorem EntriesOk.withoutMembership {s : Chain} (h : EntriesOk s) (a v : Address) :
    EntriesOk (withoutMembership version s a v) :=
  ((h.remove hversion SYS_ACCESS_TABLE a.hexPrefixed).revoke hversion SYS_CONFIG a.hexPrefixed v).revoke
    hversion SYS_CONSENSUS a.hexPrefixed v

theorem EntriesOk.carryOut {s : Chain} (h : EntriesOk s) (t : CommitteeTable) (v : Address)
    (p : Proposal) : EntriesOk (carryOut version s t p.op p.user v).2 := by
  cases p with
  | grant a => exact (h.withMembership a v).of_subset (le_refl _) fun r hr => hr
  | revoke a => exact (h.withoutMembership hversion a v).of_subset (le_refl _) fun r hr => hr
  | weight a w => exact h.of_subset (le_refl _) fun r hr => hr
  | threshold x => exact h.of_subset (le_refl _) fun r hr => hr

theorem carryOut_members {s : Chain} (h : EntriesOk s) (t : CommitteeTable) (v : Address)
    (p : Proposal) :
    (carryOut version s t p.op p.user v).2.members = membersAfter s.members p := by
  cases p with
  | grant a =>
    refine (members_grant_other _ (by decide)).trans ((members_grant_other _ (by decide)).trans ?_)
    exact members_insert_member s a
  | revoke a =>
    refine (members_revoke_other hversion _ (by decide)).trans
      ((members_revoke_other hversion _ (by decide)).trans ?_)
    exact members_remove_member hversion h.spelled a
  | weight a w => rfl
  | threshold x => rfl

theorem carryOut_votes {s : Chain} (h : EntriesOk s) (t : CommitteeTable) (v : Address)
    (p : Proposal) :
    (carryOut version s t p.op p.user v).2.votes = usedRows version p (effectRows v t.rows p) := by
  cases p with
  | grant a =>
    refine (rows_deleteUsedVotes hversion (h.withMembership a v) _ _ _).trans ?_
    rw [SystemTable.rows_insert]
    rfl
  | revoke a =>
    refine (rows_deleteUsedVotes hversion (h.withoutMembership hversion a v) _ _ _).trans ?_
    rw [t.rows_remove hversion]
    rfl
  | weight a w =>
    refine (rows_deleteUsedVotes hversion h _ _ _).trans ?_
    rw [t.rows_update hversion]
    simp only [usedRows, effectRows, decide_eq_true_eq]
    rfl
  | threshold x =>
    refine (rows_deleteUsedVotes hversion h _ _ _).trans ?_
    rw [t.rows_update hversion]
    simp only [usedRows, effectRows, decide_eq_true_eq, Proposal.usedKey, Proposal.usesUp]
    rfl

end Released

/-! ### Calls -/

def Chain.Shows (s : Chain) : Proposal → Prop
  | .grant a => a ∈ s.members
  | .revoke a => a ∉ s.members
  | .weight a w => ∃ r ∈ s.votes, r.key = weightKey a ∧ r.value = .weight w
  | .threshold x => ∃ r ∈ s.votes, r.key = CGP_AUTH_THRESHOLD ∧ r.value = .threshold x

instance (s : Chain) : DecidablePred s.Shows
  | .grant _ => inferInstanceAs (Decidable (_ ∈ _))
  | .revoke _ => inferInstanceAs (Decidable (_ ∉ _))
  | .weight _ _ => inferInstanceAs (Decidable (∃ r ∈ s.votes, _))
  | .threshold _ => inferInstanceAs (Decidable (∃ r ∈ s.votes, _))

def Chain.Admits (version : Nat) (s : Chain) (p : Proposal) : Prop :=
  ¬ s.Shows p ∧ match p with
    | .grant a => hasOperatorPermissions version s a.hexPrefixed = false ∧ s.members ≠ []
    | .revoke _ => True
    | .weight a w => ¬ (V2_7_0 ≤ version ∧ w ≤ 0) ∧ a ∈ s.members
    | .threshold x => ¬ (99 < x ∨ x < 0)

instance (version : Nat) (s : Chain) : DecidablePred (s.Admits version)
  | .grant _ => inferInstanceAs (Decidable (_ ∧ (_ ∧ _)))
  | .revoke _ => inferInstanceAs (Decidable (_ ∧ True))
  | .weight _ _ => inferInstanceAs (Decidable (_ ∧ (_ ∧ _)))
  | .threshold _ => inferInstanceAs (Decidable (_ ∧ _))

def GovernanceCall.proposal : GovernanceCall → Option Proposal
  | .grantCommitteeMember user => some (.grant user)
  | .revokeCommitteeMember user => some (.revoke user)
  | .updateCommitteeMemberWeight user weight => some (.weight user weight)
  | .updateThreshold threshold => some (.threshold threshold)
  | _ => none

/-- The vote that a call casts: of a member, on a proposal that may be voted on. -/
def castBy (version : Nat) (s : Chain) : Input → Option (Address × Proposal)
  | .governance origin c =>
    c.proposal.bind fun p =>
      if origin ∈ s.members ∧ s.Admits version p then some (origin, p) else none
  | _ => none

def firstMember (version : Nat) (s : Chain) (user origin : Address) : Chain :=
  let granted := (grantTablePermission version s SYS_ACCESS_TABLE user.hexPrefixed origin).2
  let config := (grantTablePermission version granted SYS_CONFIG user.hexPrefixed origin).2
  let consensus := (grantTablePermission version config SYS_CONSENSUS user.hexPrefixed origin).2
  let weight := { key := weightKey user, value := .weight 1, origin := origin.hexPrefixed }
  { consensus with committee := some ((getCommitteeTable consensus).insert weight) }

section Released

variable {version : Nat} (hversion : V2_5_0 ≤ version)
include hversion

theorem select_votes_isEmpty {s : Chain} {key : Bytes} {value : Value} :
    ((getCommitteeTable s).select version fun r => r.key = key && r.value = value).isEmpty = true
      ↔ ¬ ∃ r ∈ s.votes, r.key = key ∧ r.value = value := by
  rw [SystemTable.select_eq hversion, List.isEmpty_iff, List.filter_eq_nil_iff]
  simp only [Bool.and_eq_true, decide_eq_true_eq, not_exists, not_and, Chain.votes]

theorem verifyAndRecord_refused {s : Chain} (h : EntriesOk s) {op : Operation} {user : Bytes}
    {origin : Address} (horigin : origin ∉ s.members) :
    verifyAndRecord version s op user origin = some (CODE_INVALID_REQUEST_PERMISSION_DENIED, s) := by
  unfold verifyAndRecord
  rw [if_pos ((selectAccess_member hversion h.spelled origin).mpr horigin)]

theorem governanceCall_cast {s : Chain} (h : EntriesOk s) {origin v : Address} {c : GovernanceCall}
    {p : Proposal} (hcast : castBy version s (.governance origin c) = some (v, p)) :
    v = origin ∧ origin ∈ s.members ∧ s.Admits version p
      ∧ ∃ s₁ : Chain, s₁.access = s.access ∧ s₁.number = s.number ∧ s₁.votes = s.votes
        ∧ governanceCall version s origin c = verifyAndRecord version s₁ p.op p.user origin := by
  obtain ⟨q, hq, hvote⟩ := Option.bind_eq_some_iff.mp hcast
  split at hvote
  · rename_i hguard
    obtain ⟨horigin, hadmits⟩ := hguard
    cases hvote
    refine ⟨rfl, horigin, hadmits, ?_⟩
    have hmember := fun a => selectAccess_member hversion h.spelled a
    cases c with
    | grantCommitteeMember user =>
      cases hq
      obtain ⟨hnot, hoperator, hsome⟩ := hadmits
      have hmembers := (members_isEmpty hversion h.spelled).not.mpr hsome
      refine ⟨s, rfl, rfl, rfl, ?_⟩
      rw [governanceCall, grantCommitteeMember, if_neg (by rw [hoperator]; simp), if_neg hmembers,
        if_pos ((hmember user).mpr hnot)]
      rfl
    | revokeCommitteeMember user =>
      cases hq
      have hin : user ∈ s.members := not_not.mp hadmits.1
      refine ⟨s, rfl, rfl, rfl, ?_⟩
      rw [governanceCall, revokeCommitteeMember, if_neg ((hmember user).not.mpr (not_not.mpr hin))]
      rfl
    | updateCommitteeMemberWeight user weight =>
      cases hq
      obtain ⟨hnot, hweight, hin⟩ := hadmits
      refine ⟨{ s with committee := some (getCommitteeTable s) }, rfl, rfl, rfl, ?_⟩
      rw [governanceCall, updateCommitteeMemberWeight, if_neg hweight,
        if_neg ((hmember user).not.mpr (not_not.mpr hin))]
      exact if_pos ((select_votes_isEmpty hversion).mpr hnot)
    | updateThreshold threshold =>
      cases hq
      obtain ⟨hnot, hrange⟩ := hadmits
      refine ⟨{ s with committee := some (getCommitteeTable s) }, rfl, rfl, rfl, ?_⟩
      rw [governanceCall, updateThreshold, if_neg hrange]
      exact if_pos ((select_votes_isEmpty hversion).mpr hnot)
    | grantOperator user => cases hq
    | revokeOperator user => cases hq
  · cases hvote

def Quiet (s s' : Chain) : Prop := s'.members = s.members ∧ s'.votes = s.votes

omit hversion in
theorem Quiet.trans {s s' s'' : Chain} (h : Quiet s s') (h' : Quiet s' s'') : Quiet s s'' :=
  ⟨h'.1.trans h.1, h'.2.trans h.2⟩

omit hversion in
theorem votes_grant (s : Chain) (tableName user : Bytes) (origin : Address) :
    (grantTablePermission version s tableName user origin).2.votes = s.votes := by
  unfold grantTablePermission
  split
  · split <;> rfl
  · rfl

omit hversion in
theorem quiet_grant (s : Chain) {tableName user : Bytes} (origin : Address)
    (hname : tableName ≠ SYS_ACCESS_TABLE) :
    Quiet s (grantTablePermission version s tableName user origin).2 :=
  ⟨members_grant_other s hname, votes_grant s tableName user origin⟩

theorem quiet_revoke (s : Chain) {tableName user : Bytes} (origin : Address)
    (hname : tableName ≠ SYS_ACCESS_TABLE) :
    Quiet s (revokeTablePermission version s tableName user origin).2 := by
  refine ⟨members_revoke_other hversion s hname, ?_⟩
  unfold revokeTablePermission
  split <;> rfl

theorem governanceCall_quiet {s : Chain} (h : EntriesOk s) {origin : Address} {c : GovernanceCall}
    (hcast : castBy version s (.governance origin c) = none) {answer : Int × Chain}
    (hcall : governanceCall version s origin c = some answer) :
    Quiet s answer.2
      ∨ s.members = [] ∧ ∃ user, c = .grantCommitteeMember user
        ∧ answer.2 = firstMember version s user origin := by
  have hmember := fun a => selectAccess_member hversion h.spelled a
  have hvote : ∀ (p : Proposal) (s₁ : Chain), c.proposal = some p → s.Admits version p →
      EntriesOk s₁ → s₁.members = s.members → s₁.votes = s.votes →
      verifyAndRecord version s₁ p.op p.user origin = some answer → Quiet s answer.2 := by
    intro p s₁ hp hadmits h₁ hmembers hvotes hverify
    have horigin : origin ∉ s₁.members := by
      intro hin
      rw [hmembers] at hin
      simp [castBy, hp, hin, hadmits] at hcast
    rw [verifyAndRecord_refused hversion h₁ horigin] at hverify
    cases hverify
    exact ⟨hmembers, hvotes⟩
  cases c with
  | grantCommitteeMember user =>
    rw [governanceCall, grantCommitteeMember] at hcall
    split at hcall
    · cases hcall
      exact .inl ⟨rfl, rfl⟩
    · rename_i hoperator
      split at hcall
      · rename_i hnobody
        cases hcall
        exact .inr ⟨(members_isEmpty hversion h.spelled).mp hnobody, user, rfl, rfl⟩
      · rename_i hsome
        split at hcall
        · rename_i hnot
          refine .inl (hvote (.grant user) s rfl ⟨(hmember user).mp hnot, ?_, ?_⟩ h rfl rfl hcall)
          · exact eq_false_of_ne_true hoperator
          · exact fun hnil => hsome ((members_isEmpty hversion h.spelled).mpr hnil)
        · cases hcall
          exact .inl ⟨rfl, rfl⟩
  | revokeCommitteeMember user =>
    rw [governanceCall, revokeCommitteeMember] at hcall
    split at hcall
    · cases hcall
      exact .inl ⟨rfl, rfl⟩
    · rename_i hin
      have hin' : user ∈ s.members := not_not.mp ((hmember user).not.mp hin)
      exact .inl (hvote (.revoke user) s rfl ⟨not_not.mpr hin', trivial⟩ h rfl rfl hcall)
  | updateCommitteeMemberWeight user weight =>
    rw [governanceCall, updateCommitteeMemberWeight] at hcall
    split at hcall
    · cases hcall
    · rename_i hweight
      split at hcall
      · cases hcall
        exact .inl ⟨rfl, rfl⟩
      · rename_i hin
        have hin' : user ∈ s.members := not_not.mp ((hmember user).not.mp hin)
        simp only at hcall
        split at hcall
        · rename_i hnot
          exact .inl (hvote (.weight user weight) { s with committee := some (getCommitteeTable s) } rfl
            ⟨(select_votes_isEmpty hversion).mp hnot, hweight, hin'⟩
            (h.of_subset (le_refl _) fun r hr => hr) rfl rfl hcall)
        · cases hcall
          exact .inl ⟨rfl, rfl⟩
  | updateThreshold threshold =>
    rw [governanceCall, updateThreshold] at hcall
    split at hcall
    · cases hcall
      exact .inl ⟨rfl, rfl⟩
    · rename_i hrange
      simp only at hcall
      split at hcall
      · rename_i hnot
        exact .inl (hvote (.threshold threshold) { s with committee := some (getCommitteeTable s) } rfl
          ⟨(select_votes_isEmpty hversion).mp hnot, hrange⟩
          (h.of_subset (le_refl _) fun r hr => hr) rfl rfl hcall)
      · cases hcall
        exact .inl ⟨rfl, rfl⟩
  | grantOperator user =>
    rw [governanceCall, grantOperator] at hcall
    split at hcall
    · cases hcall
      exact .inl ⟨rfl, rfl⟩
    · split at hcall
      · cases hcall
        exact .inl ⟨rfl, rfl⟩
      · split at hcall
        · cases hcall
          exact .inl ⟨rfl, rfl⟩
        · simp only at hcall
          split at hcall
          · cases hcall
          · split at hcall
            · cases hcall
            · cases hcall
              have htables : Quiet s
                  (grantTablePermission version s SYS_TABLES user.hexPrefixed origin).2 :=
                quiet_grant s origin (by decide)
              exact .inl (htables.trans (quiet_grant _ origin (by decide)))
  | revokeOperator user =>
    rw [governanceCall, revokeOperator] at hcall
    split at hcall
    · cases hcall
      exact .inl ⟨rfl, rfl⟩
    · split at hcall
      · cases hcall
        exact .inl ⟨rfl, rfl⟩
      · cases hcall
        have htables : Quiet s
            (revokeTablePermission version s SYS_TABLES user.hexPrefixed origin).2 :=
          quiet_revoke hversion s origin (by decide)
        exact .inl (htables.trans (quiet_revoke hversion _ origin (by decide)))

/-! ### Every call keeps the entries and the block -/

/-- A call of the block keeps the entries in order and the block as it is. -/
def KeepsBlock (s s' : Chain) : Prop := EntriesOk s' ∧ s'.number = s.number

omit hversion in
theorem number_grant (s : Chain) (tableName user : Bytes) (origin : Address) :
    (grantTablePermission version s tableName user origin).2.number = s.number := by
  unfold grantTablePermission
  split
  · split <;> rfl
  · rfl

omit hversion in
theorem number_revoke (s : Chain) (tableName user : Bytes) (origin : Address) :
    (revokeTablePermission version s tableName user origin).2.number = s.number := by
  unfold revokeTablePermission
  split <;> rfl

omit hversion in
theorem number_carryOut (s : Chain) (t : CommitteeTable) (v : Address) (p : Proposal) :
    (carryOut version s t p.op p.user v).2.number = s.number := by
  cases p with
  | grant a => exact (number_grant _ _ _ _).trans (number_grant _ _ _ _)
  | revoke a => exact (number_revoke _ _ _ _).trans (number_revoke _ _ _ _)
  | weight a w => rfl
  | threshold x => rfl

theorem verifyAndRecord_block {s : Chain} (h : EntriesOk s) {p : Proposal} {v : Address}
    {answer : Int × Chain} (hcall : verifyAndRecord version s p.op p.user v = some answer) :
    KeepsBlock s answer.2 := by
  unfold verifyAndRecord at hcall
  split at hcall
  · cases hcall
    exact ⟨h, rfl⟩
  · simp only at hcall
    split at hcall
    · cases hcall
    · cases hcall
      exact ⟨h.of_subset (le_refl _) fun r hr => hr, rfl⟩
    · cases hcall
      exact ⟨h.carryOut hversion _ v p, number_carryOut s _ v p⟩

omit hversion in
theorem firstMember_block {s : Chain} (h : EntriesOk s) (user origin : Address) :
    KeepsBlock s (firstMember version s user origin) := by
  have haccess : EntriesOk
      (grantTablePermission version s SYS_ACCESS_TABLE user.hexPrefixed origin).2 :=
    h.grant origin (fun _ => ⟨user, rfl⟩) (by decide)
  have hconfig : EntriesOk (grantTablePermission version
      (grantTablePermission version s SYS_ACCESS_TABLE user.hexPrefixed origin).2
      SYS_CONFIG user.hexPrefixed origin).2 :=
    haccess.grant origin (fun _ => ⟨user, rfl⟩) (by decide)
  have hconsensus : EntriesOk (grantTablePermission version (grantTablePermission version
      (grantTablePermission version s SYS_ACCESS_TABLE user.hexPrefixed origin).2
      SYS_CONFIG user.hexPrefixed origin).2 SYS_CONSENSUS user.hexPrefixed origin).2 :=
    hconfig.grant origin (fun _ => ⟨user, rfl⟩) (by decide)
  refine ⟨hconsensus.of_subset (le_refl _) fun r hr => hr, ?_⟩
  exact (number_grant _ _ _ _).trans ((number_grant _ _ _ _).trans (number_grant _ _ _ _))

theorem firstMember_members {s : Chain} (h : EntriesOk s) (hempty : s.members = [])
    (user origin : Address) : (firstMember version s user origin).members
      = if checkAuthority s.authorized origin then [user] else [] := by
  have hnobody : (selectAccess version s.access SYS_ACCESS_TABLE user.hexPrefixed).isEmpty = true := by
    rw [selectAccess_member hversion h.spelled, hempty]
    exact List.not_mem_nil
  refine (members_grant_other _ (by decide)).trans ((members_grant_other _ (by decide)).trans ?_)
  rw [grantTablePermission, if_pos hnobody]
  split
  · rw [members_insert_member, hempty]
    rfl
  · exact hempty

omit hversion in
theorem firstMember_votes (s : Chain) (user origin : Address) :
    (firstMember version s user origin).votes = effectRows origin s.votes (.grant user) := by
  have hvotes : (grantTablePermission version (grantTablePermission version
      (grantTablePermission version s SYS_ACCESS_TABLE user.hexPrefixed origin).2
      SYS_CONFIG user.hexPrefixed origin).2 SYS_CONSENSUS user.hexPrefixed origin).2.votes = s.votes :=
    (votes_grant _ _ _ _).trans ((votes_grant _ _ _ _).trans (votes_grant _ _ _ _))
  rw [effectRows, ← hvotes]
  exact SystemTable.rows_insert _ _

theorem governanceCall_block {s : Chain} (h : EntriesOk s) {origin : Address} {c : GovernanceCall}
    {answer : Int × Chain} (hcall : governanceCall version s origin c = some answer) :
    KeepsBlock s answer.2 := by
  have hcreated : EntriesOk { s with committee := some (getCommitteeTable s) } :=
    h.of_subset (le_refl _) fun r hr => hr
  cases c with
  | grantCommitteeMember user =>
    rw [governanceCall, grantCommitteeMember] at hcall
    split at hcall
    · cases hcall
      exact ⟨h, rfl⟩
    · split at hcall
      · cases hcall
        exact firstMember_block h user origin
      · split at hcall
        · exact verifyAndRecord_block hversion h (p := .grant user) hcall
        · cases hcall
          exact ⟨h, rfl⟩
  | revokeCommitteeMember user =>
    rw [governanceCall, revokeCommitteeMember] at hcall
    split at hcall
    · cases hcall
      exact ⟨h, rfl⟩
    · exact verifyAndRecord_block hversion h (p := .revoke user) hcall
  | updateCommitteeMemberWeight user weight =>
    rw [governanceCall, updateCommitteeMemberWeight] at hcall
    split at hcall
    · cases hcall
    · split at hcall
      · cases hcall
        exact ⟨h, rfl⟩
      · simp only at hcall
        split at hcall
        · exact verifyAndRecord_block hversion hcreated (p := .weight user weight) hcall
        · cases hcall
          exact ⟨hcreated, rfl⟩
  | updateThreshold threshold =>
    rw [governanceCall, updateThreshold] at hcall
    split at hcall
    · cases hcall
      exact ⟨h, rfl⟩
    · simp only at hcall
      split at hcall
      · exact verifyAndRecord_block hversion hcreated (p := .threshold threshold) hcall
      · cases hcall
        exact ⟨hcreated, rfl⟩
  | grantOperator user =>
    rw [governanceCall, grantOperator] at hcall
    split at hcall
    · cases hcall
      exact ⟨h, rfl⟩
    · split at hcall
      · cases hcall
        exact ⟨h, rfl⟩
      · split at hcall
        · cases hcall
          exact ⟨h, rfl⟩
        · simp only at hcall
          split at hcall
          · cases hcall
          · split at hcall
            · cases hcall
            · cases hcall
              have htables : EntriesOk
                  (grantTablePermission version s SYS_TABLES user.hexPrefixed origin).2 :=
                h.grant origin (fun _ => ⟨user, rfl⟩) (by decide)
              exact ⟨htables.grant origin (fun _ => ⟨user, rfl⟩) (by decide),
                (number_grant _ _ _ _).trans (number_grant _ _ _ _)⟩
  | revokeOperator user =>
    rw [governanceCall, revokeOperator] at hcall
    split at hcall
    · cases hcall
      exact ⟨h, rfl⟩
    · split at hcall
      · cases hcall
        exact ⟨h, rfl⟩
      · cases hcall
        exact ⟨(h.revoke hversion SYS_TABLES user.hexPrefixed origin).revoke hversion SYS_CNS
          user.hexPrefixed origin, (number_revoke _ _ _ _).trans (number_revoke _ _ _ _)⟩

end Released

end HieraChain.Governance
