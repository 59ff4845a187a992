/-
  HieraChain/CommitteeDecisions.lean
  ==================================
  **What the committee decides, and who decided it.**

  A record keeps, beside the chain, the history of the votes: which call cast one
  and which proposals the chain showed as carried.  Over every run, while there
  is a member, members, weights and threshold change only in a call after which
  the members with a standing vote for exactly that change outweigh the threshold
  (`committee_decides`).

  Four things that the votes do not cover are runs of `beyond_votes`.  A committee
  that has revoked its last member is open again: the next grant is voted by
  nobody.  Before 2.7.0 the votes for a threshold are not used up, and weights
  may be negative, so that a part outweighs the whole.  And an account that may
  not write the access table, but finds no member in it, leaves the weight of a
  member that it did not make.
-/
import Mathlib.Algebra.Order.Field.Rat
import Mathlib.Algebra.Order.Field.Basic
import HieraChain.CommitteeChanges

namespace HieraChain.Governance

open HieraChain.BigEndian HieraChain.Storage HieraChain.Hex HieraChain.Ballots

/-! ### Records -/

abbrev History := List (Event Address Proposal)

def Chain.view (s : Chain) : Committee := committeeOf s.members s.votes

def weightEntries (rows : List CommitteeRow) (a : Address) : List CommitteeRow :=
  rows.filter fun r => r.key = weightKey a

def thresholdEntries (rows : List CommitteeRow) : List CommitteeRow :=
  rows.filter fun r => r.key = CGP_AUTH_THRESHOLD

def castEvent (s : Chain) (voter : Address) (p : Proposal) : Event Address Proposal :=
  .cast voter p (s.number + c_voteValidLimit)

/-- The events of an input, newest first; `uses` says which proposals use up
    their votes when they are carried. -/
def eventsOf (version : Nat) (uses : Proposal → Bool) (s : Chain) (i : Input) : History :=
  match castBy version s i with
  | none => []
  | some (voter, p) =>
    if ((chain version).step s i).Shows p ∧ uses p = true then [.used p, castEvent s voter p]
    else [castEvent s voter p]

structure Record where
  chain : Chain
  history : History

def recorder (version : Nat) (uses : Proposal → Bool) : Machine Record Input where
  step x i := ⟨(chain version).step x.chain i, eventsOf version uses x.chain i ++ x.history⟩

def Record.start : Record := ⟨genesis, []⟩

def recordOf (version : Nat) (uses : Proposal → Bool) (inputs : List Input) : Record :=
  (recorder version uses).run Record.start inputs

/-! ### Rows of weights and thresholds -/

/-- The weights of one account are one weight, which is one for an account that
    is no member, and every member has one; and there is one threshold. -/
structure RowsOk (version : Nat) (members : List Address) (rows : List CommitteeRow) : Prop where
  weights : ∀ a, ∃ w : Int, (V2_7_0 ≤ version → 0 < w) ∧ (a ∉ members → w = 1)
    ∧ ∀ r ∈ weightEntries rows a, r.value = .weight w
  weighed : ∀ a ∈ members, weightEntries rows a ≠ []
  threshold : ∃ (r : CommitteeRow) (x : Int), thresholdEntries rows = [r] ∧ r.value = .threshold x

theorem RowsOk.congr {version : Nat} {members : List Address} {rows rows' : List CommitteeRow}
    (h : RowsOk version members rows) (hweights : ∀ a, weightEntries rows' a = weightEntries rows a)
    (hthreshold : thresholdEntries rows' = thresholdEntries rows) : RowsOk version members rows' where
  weights a := by
    rw [hweights a]
    exact h.weights a
  weighed a ha := by
    rw [hweights a]
    exact h.weighed a ha
  threshold := by
    rw [hthreshold]
    exact h.threshold

theorem weightEntries_record (number : Int) (rows : List CommitteeRow) (p : Proposal) (origin : Bytes)
    (a : Address) :
    weightEntries (recordRows number rows p.key p.value origin) a = weightEntries rows a :=
  recordRows_of_ne (key_ne_weightKey p a)

theorem thresholdEntries_record (number : Int) (rows : List CommitteeRow) (p : Proposal)
    (origin : Bytes) :
    thresholdEntries (recordRows number rows p.key p.value origin) = thresholdEntries rows :=
  recordRows_of_ne (key_ne_threshold p)

theorem committeeOf_record (members : List Address) (number : Int) (rows : List CommitteeRow)
    (p : Proposal) (origin : Bytes) :
    committeeOf members (recordRows number rows p.key p.value origin) = committeeOf members rows := by
  have hweight : weightIn (recordRows number rows p.key p.value origin) = weightIn rows := by
    funext a
    rw [weightIn, recordRows_of_ne (key_ne_weightKey p a)]
    rfl
  rw [committeeOf, committeeOf, hweight, thresholdIn, recordRows_of_ne (key_ne_threshold p)]
  rfl

theorem usedKey_ne (version : Nat) (p : Proposal) :
    (∀ a, p.usedKey version ≠ weightKey a) ∧ p.usedKey version ≠ CGP_AUTH_THRESHOLD := by
  unfold Proposal.usedKey
  split
  · exact ⟨key_ne_weightKey p, key_ne_threshold p⟩
  · refine ⟨fun a h => ?_, by decide⟩
    have hlength := congrArg List.length h
    simp [weightKey, Address.length_hexPrefixed, CGP_UPDATE_AUTH_THRESHOLD, CGP_WEIGTH_SUFFIX, ascii]
      at hlength

theorem filter_usedRows {version : Nat} {p : Proposal} {rows : List CommitteeRow} {k : Bytes}
    (hne : p.usedKey version ≠ k) :
    (usedRows version p rows).filter (fun r => r.key = k) = rows.filter fun r => r.key = k := by
  rw [usedRows, List.filter_filter]
  refine List.filter_congr fun r _ => ?_
  by_cases hk : r.key = k
  · have hother : r.key ≠ p.usedKey version := fun h => hne (h.symm.trans hk)
    simp [hother]
  · simp [hk]

theorem RowsOk.used {version : Nat} {members : List Address} {rows : List CommitteeRow}
    (h : RowsOk version members rows) (p : Proposal) :
    RowsOk version members (usedRows version p rows) :=
  h.congr (fun a => filter_usedRows ((usedKey_ne version p).1 a)) (filter_usedRows (usedKey_ne version p).2)

theorem filter_rewrite {rows : List CommitteeRow} {key k : Bytes} {f : CommitteeRow → CommitteeRow}
    (hf : ∀ r, (f r).key = r.key) :
    (rows.map fun r => if r.key = key then f r else r).filter (fun r => r.key = k)
      = if key = k then (rows.filter fun r => r.key = k).map f else rows.filter fun r => r.key = k := by
  induction rows with
  | nil => simp
  | cons r rows ih =>
    by_cases hr : r.key = k <;> by_cases hkey : key = k <;> by_cases hrk : r.key = key <;>
      simp_all

theorem weightEntries_grant (v : Address) (rows : List CommitteeRow) (a b : Address) :
    weightEntries (effectRows v rows (.grant a)) b = weightEntries rows b
      ++ if a = b then [{ key := weightKey a, value := .weight 1, origin := v.hexPrefixed }] else [] := by
  rw [weightEntries, effectRows, List.filter_append]
  by_cases hb : a = b <;> simp [weightEntries, weightKey_inj, hb]

theorem weightEntries_revoke (v : Address) (rows : List CommitteeRow) (a b : Address) :
    weightEntries (effectRows v rows (.revoke a)) b = if a = b then [] else weightEntries rows b := by
  rw [weightEntries, effectRows, List.filter_filter]
  split
  · rename_i hab
    rw [hab, List.filter_eq_nil_iff]
    simp
  · rename_i hab
    refine List.filter_congr fun r _ => ?_
    by_cases hr : r.key = weightKey b
    · simp [hr, weightKey_inj, Ne.symm hab]
    · simp [hr]

theorem weightEntries_weight (v : Address) (rows : List CommitteeRow) (a b : Address) (w : Int) :
    weightEntries (effectRows v rows (.weight a w)) b
      = if a = b then (weightEntries rows b).map (setWeight v w) else weightEntries rows b := by
  refine (filter_rewrite (f := setWeight v w) fun _ => rfl).trans ?_
  simp only [weightKey_inj]
  rfl

theorem weightEntries_threshold (v : Address) (rows : List CommitteeRow) (x : Int) (a : Address) :
    weightEntries (effectRows v rows (.threshold x)) a = weightEntries rows a := by
  refine (filter_rewrite (f := setThreshold v x) fun _ => rfl).trans ?_
  rw [if_neg (weightKey_ne_threshold a).symm]
  rfl

theorem thresholdEntries_threshold (v : Address) (rows : List CommitteeRow) (x : Int) :
    thresholdEntries (effectRows v rows (.threshold x))
      = (thresholdEntries rows).map (setThreshold v x) := by
  refine (filter_rewrite (f := setThreshold v x) fun _ => rfl).trans ?_
  rw [if_pos rfl]
  rfl

theorem thresholdEntries_effect {v : Address} {rows : List CommitteeRow} {p : Proposal}
    (hother : ∀ y, p ≠ .threshold y) :
    thresholdEntries (effectRows v rows p) = thresholdEntries rows := by
  cases p with
  | grant a => simp [thresholdEntries, effectRows, weightKey_ne_threshold]
  | revoke a =>
    rw [thresholdEntries, effectRows, List.filter_filter]
    refine List.filter_congr fun r _ => ?_
    by_cases hr : r.key = CGP_AUTH_THRESHOLD
    · simp [hr, Ne.symm (weightKey_ne_threshold a)]
    · simp [hr]
  | weight a w =>
    refine (filter_rewrite (f := setWeight v w) fun _ => rfl).trans ?_
    rw [if_neg (weightKey_ne_threshold a)]
    rfl
  | threshold y => exact absurd rfl (hother y)

theorem RowsOk.granted {version : Nat} {members members' : List Address} {rows : List CommitteeRow}
    (h : RowsOk version members rows) (v : Address) {a : Address} (ha : a ∉ members)
    (hold : ∀ b ∈ members, b ∈ members') (hnew : ∀ b ∈ members', b ∈ members ∨ b = a) :
    RowsOk version members' (effectRows v rows (.grant a)) := by
  have hentries := weightEntries_grant v rows a
  refine ⟨fun b => ?_, fun b hb => ?_, ?_⟩
  · obtain ⟨w, hpositive, hone, hall⟩ := h.weights b
    refine ⟨w, hpositive, fun hnot => hone fun hb => hnot (hold b hb), fun r hr => ?_⟩
    rw [hentries] at hr
    rcases List.mem_append.mp hr with hr | hr
    · exact hall r hr
    · split at hr
      · rename_i hab
        rw [List.mem_singleton.mp hr, hone (hab ▸ ha)]
      · cases hr
  · rw [hentries]
    rcases hnew b hb with hmem | rfl
    · exact List.append_ne_nil_of_left_ne_nil (h.weighed b hmem) _
    · rw [if_pos rfl]
      exact List.append_ne_nil_of_right_ne_nil _ (List.cons_ne_nil _ _)
  · rw [thresholdEntries_effect (by simp)]
    exact h.threshold

theorem RowsOk.effect {version : Nat} {members : List Address} {rows : List CommitteeRow}
    (h : RowsOk version members rows) (v : Address) {p : Proposal}
    (hgrant : ∀ a, p = .grant a → a ∉ members)
    (hweight : ∀ a w, p = .weight a w → a ∈ members ∧ (V2_7_0 ≤ version → 0 < w)) :
    RowsOk version (membersAfter members p) (effectRows v rows p) := by
  cases p with
  | grant a =>
    refine h.granted v (hgrant a rfl) (fun b hb => List.mem_append_left _ hb) fun b hb => ?_
    exact (List.mem_append.mp hb).imp_right List.mem_singleton.mp
  | revoke a =>
    have hentries := weightEntries_revoke v rows a
    refine ⟨fun b => ?_, fun b hb => ?_, ?_⟩
    · rw [hentries]
      split
      · exact ⟨1, fun _ => Int.one_pos, fun _ => rfl, by simp⟩
      · rename_i hab
        obtain ⟨w, hpositive, hone, hall⟩ := h.weights b
        refine ⟨w, hpositive, fun hnot => hone fun hb => hnot ?_, hall⟩
        exact List.mem_filter.mpr ⟨hb, decide_eq_true (Ne.symm hab)⟩
    · obtain ⟨hold, hne⟩ := List.mem_filter.mp hb
      rw [hentries, if_neg (Ne.symm (of_decide_eq_true hne))]
      exact h.weighed b hold
    · rw [thresholdEntries_effect (by simp)]
      exact h.threshold
  | weight a w =>
    obtain ⟨ha, hpositive⟩ := hweight a w rfl
    refine ⟨fun b => ?_, fun b hb => ?_, ?_⟩
    · rw [weightEntries_weight]
      split
      · rename_i hab
        refine ⟨w, hpositive, fun hnot => absurd (hab ▸ ha) hnot, fun r hr => ?_⟩
        obtain ⟨q, -, rfl⟩ := List.mem_map.mp hr
        rfl
      · exact h.weights b
    · rw [weightEntries_weight]
      split
      · exact fun hnil => h.weighed b hb (List.map_eq_nil_iff.mp hnil)
      · exact h.weighed b hb
    · rw [thresholdEntries_effect (by simp)]
      exact h.threshold
  | threshold x =>
    have hentries := weightEntries_threshold v rows x
    refine ⟨fun b => ?_, fun b hb => ?_, ?_⟩
    · rw [hentries]
      exact h.weights b
    · rw [hentries]
      exact h.weighed b hb
    · obtain ⟨r, y, hrows, -⟩ := h.threshold
      refine ⟨setThreshold v x r, x, ?_, rfl⟩
      rw [thresholdEntries_threshold, hrows]
      rfl

/-! ### Ballots -/

section RowsOf

variable {rows : List CommitteeRow} {box : List (Ballot Address Proposal)}

theorem RowsOf.key_of_isVote (h : RowsOf rows box) {r : CommitteeRow} (hr : r ∈ rows)
    (hvote : r.isVote = true) : ∃ p : Proposal, r.key = p.key := by
  have hmem : r ∈ box.map voteRow := by
    rw [← h.votes]
    exact List.mem_filter.mpr ⟨hr, hvote⟩
  obtain ⟨b, -, rfl⟩ := List.mem_map.mp hmem
  exact ⟨b.proposal, rfl⟩

theorem RowsOf.rewrite (h : RowsOf rows box) {k : Bytes} (hk : ∀ p : Proposal, p.key ≠ k)
    {f : CommitteeRow → CommitteeRow} (hkey : ∀ r, (f r).key = r.key)
    (hvote : ∀ r, (f r).isVote = r.isVote) :
    RowsOf (rows.map fun r => if r.key = k then f r else r) box where
  votes := by
    have hsame : CommitteeRow.isVote ∘ (fun r => if r.key = k then f r else r) = CommitteeRow.isVote := by
      funext r
      simp only [Function.comp]
      split
      · exact hvote r
      · rfl
    rw [List.filter_map, hsame]
    refine Eq.trans ?_ h.votes
    refine (List.map_congr_left fun r hr => ?_).trans (List.map_id' _)
    obtain ⟨hmem, hisVote⟩ := List.mem_filter.mp hr
    obtain ⟨p, hp⟩ := h.key_of_isVote hmem hisVote
    rw [if_neg fun heq => hk p (hp.symm.trans heq)]
  others r hr hnot := by
    obtain ⟨q, hq, rfl⟩ := List.mem_map.mp hr
    by_cases hqk : q.key = k
    · rw [if_pos hqk, hvote] at hnot
      rw [if_pos hqk, hkey]
      exact h.others q hq hnot
    · rw [if_neg hqk] at hnot ⊢
      exact h.others q hq hnot

theorem RowsOf.effect (h : RowsOf rows box) (v : Address) (p : Proposal) :
    RowsOf (effectRows v rows p) box := by
  cases p with
  | grant a =>
    refine ⟨?_, fun r hr hnot => ?_⟩
    · rw [effectRows, List.filter_append, h.votes]
      exact List.append_nil _
    · rcases List.mem_append.mp hr with hold | hnew
      · exact h.others r hold hnot
      · rw [List.mem_singleton.mp hnew]
        exact .inl ⟨a, rfl⟩
  | revoke a =>
    refine ⟨?_, fun r hr hnot => h.others r (List.mem_filter.mp hr).1 hnot⟩
    rw [effectRows, List.filter_comm, List.filter_eq_self.mpr, h.votes]
    intro r hr
    obtain ⟨hmem, hisVote⟩ := List.mem_filter.mp hr
    obtain ⟨q, hq⟩ := h.key_of_isVote hmem hisVote
    simp [hq, key_ne_weightKey]
  | weight a w => exact h.rewrite (fun q => key_ne_weightKey q a) (fun _ => rfl) fun _ => rfl
  | threshold x => exact h.rewrite key_ne_threshold (fun _ => rfl) fun _ => rfl

def usedBox (version : Nat) (p : Proposal) (box : List (Ballot Address Proposal)) :
    List (Ballot Address Proposal) :=
  if p.usesUp version then use p box else box

theorem RowsOf.used (h : RowsOf rows box) (version : Nat) (p : Proposal) :
    RowsOf (usedRows version p rows) (usedBox version p box) := by
  unfold usedRows usedBox Proposal.usedKey
  split
  · exact h.use p
  · have hnone : rows.filter (fun r => !(r.key = CGP_UPDATE_AUTH_THRESHOLD ++ CGP_WEIGTH_SUFFIX
        && r.value = p.value)) = rows := by
      rw [List.filter_eq_self]
      intro r hr
      have hlength : r.key ≠ CGP_UPDATE_AUTH_THRESHOLD ++ CGP_WEIGTH_SUFFIX := by
        intro hkey
        have hsize : r.key.length = 28 := by
          rw [hkey]
          decide
        cases hvote : r.isVote with
        | true =>
          obtain ⟨q, hq⟩ := h.key_of_isVote hr hvote
          have := q.length_key
          rw [← hq, hsize] at this
          simp at this
        | false =>
          rcases h.others r hr hvote with ⟨a, ha⟩ | hthreshold
          · rw [ha] at hsize
            simp [weightKey, Address.length_hexPrefixed, CGP_WEIGTH_SUFFIX, ascii] at hsize
          · rw [hthreshold] at hsize
            exact absurd hsize (by decide)
      simp [hlength]
    rw [hnone]
    exact h

end RowsOf

/-! ### One input -/

structure Sound (version : Nat) (x : Record) : Prop where
  entries : EntriesOk x.chain
  distinct : x.chain.members.Nodup
  rows : RowsOk version x.chain.members x.chain.votes
  ballots : ∃ box, RowsOf x.chain.votes box ∧ Matches Proposal.key x.chain.number x.history box

def enough (x : Record) (v : Address) (p : Proposal) : Bool :=
  moreThan (x.chain.view.inFavour (castEvent x.chain v p :: x.history) x.chain.number p)
    x.chain.view.total x.chain.view.threshold

def recorded (s : Chain) (v : Address) (p : Proposal) : List CommitteeRow :=
  recordRows s.number s.votes p.key p.value v.hexPrefixed

inductive StepCase (version : Nat) (x : Record) (i : Input) (s' : Chain) : Prop
  | quiet (hcast : castBy version x.chain i = none) (hquiet : Quiet x.chain s')
      (hnumber : x.chain.number ≤ s'.number)
  | first (user origin : Address) (hcast : castBy version x.chain i = none)
      (hinput : i = .governance origin (.grantCommitteeMember user)) (hempty : x.chain.members = [])
      (hmembers : s'.members = if checkAuthority x.chain.authorized origin then [user] else [])
      (hvotes : s'.votes = effectRows origin x.chain.votes (.grant user))
      (hnumber : s'.number = x.chain.number)
  | voted (v : Address) (p : Proposal) (hcast : castBy version x.chain i = some (v, p))
      (hmember : v ∈ x.chain.members) (hadmits : x.chain.Admits version p)
      (hfew : enough x v p = false) (hmembers : s'.members = x.chain.members)
      (hvotes : s'.votes = recorded x.chain v p) (hnumber : s'.number = x.chain.number)
  | carried (v : Address) (p : Proposal) (hcast : castBy version x.chain i = some (v, p))
      (hmember : v ∈ x.chain.members) (hadmits : x.chain.Admits version p)
      (henough : enough x v p = true) (hmembers : s'.members = membersAfter x.chain.members p)
      (hvotes : s'.votes = usedRows version p (effectRows v (recorded x.chain v p) p))
      (hnumber : s'.number = x.chain.number)

section Released

variable {version : Nat} (hversion : V2_5_0 ≤ version)
include hversion

theorem verifyAndRecord_cases {x : Record} (h : Sound version x) {v : Address} {p : Proposal}
    {s₁ : Chain} (haccess : s₁.access = x.chain.access) (hnumber : s₁.number = x.chain.number)
    (hvotes : s₁.votes = x.chain.votes) (hmember : v ∈ x.chain.members) :
    ∃ t : CommitteeTable, t.rows = recorded x.chain v p
      ∧ verifyAndRecord version s₁ p.op p.user v
        = if enough x v p then some (carryOut version s₁ t p.op p.user v)
          else some (0, { s₁ with committee := some t }) := by
  obtain ⟨box, hrows, hmatches⟩ := h.ballots
  have ht : (recordVote version s₁.number (getCommitteeTable s₁) p.key p.value v.hexPrefixed).rows
      = recorded x.chain v p := by
    rw [rows_recordVote hversion, hnumber]
    exact congrArg (recordRows _ · _ _ _) hvotes
  generalize htable : recordVote version s₁.number (getCommitteeTable s₁) p.key p.value v.hexPrefixed = t
    at ht
  refine ⟨t, ht, ?_⟩
  have hguard : ¬ (selectAccess version s₁.access SYS_ACCESS_TABLE v.hexPrefixed).isEmpty = true := by
    rw [haccess, selectAccess_member hversion h.entries.spelled]
    exact not_not.mpr hmember
  have hbox : RowsOf t.rows
      (record Proposal.key x.chain.number (x.chain.number + c_voteValidLimit) v p box) := by
    rw [ht]
    exact hrows.record x.chain.number v p
  have hballots : Matches Proposal.key x.chain.number (castEvent x.chain v p :: x.history)
      (record Proposal.key x.chain.number (x.chain.number + c_voteValidLimit) v p box) :=
    hmatches.record
  have hweights : ∀ a ∈ x.chain.members,
      ∃ r ∈ (t.rows.filter fun r => r.key = weightKey a).head?, r.value.number.isSome = true := by
    intro a ha
    obtain ⟨w, -, -, hall⟩ := h.rows.weights a
    have hne := h.rows.weighed a ha
    rw [ht, recorded, recordRows_of_ne (key_ne_weightKey p a)]
    cases hentries : weightEntries x.chain.votes a with
    | nil => exact absurd hentries hne
    | cons r rows =>
      have hfilter : (x.chain.votes.filter fun r => r.key = weightKey a) = r :: rows := hentries
      refine ⟨r, by rw [hfilter]; rfl, ?_⟩
      rw [hall r (by rw [hentries]; exact List.mem_cons_self)]
      rfl
  have hthreshold : ∃ r ∈ (t.rows.filter fun r => r.key = CGP_AUTH_THRESHOLD).head?,
      r.value.number.isSome = true := by
    obtain ⟨r, y, hentries, hvalue⟩ := h.rows.threshold
    rw [ht, recorded, recordRows_of_ne (key_ne_threshold p)]
    have hfilter : (x.chain.votes.filter fun r => r.key = CGP_AUTH_THRESHOLD) = [r] := hentries
    refine ⟨r, by rw [hfilter]; rfl, ?_⟩
    rw [hvalue]
    rfl
  have hvalidate : validate version s₁.access t p.key p.value (s₁.number + 1)
      = some (enough x v p) := by
    rw [haccess, hnumber, validate_eq hversion h.entries.spelled.map_address
      (List.ne_nil_of_mem hmember) h.distinct (fun r hr _ => h.entries.enabled r hr) hbox hballots
      hweights hthreshold p, ht, recorded, committeeOf_record]
    rfl
  have htable' : recordVote version s₁.number (getCommitteeTable s₁) (p.op.key p.user) p.op.value v.hexPrefixed = t :=
    htable
  have hvalidate' : validate version s₁.access t (p.op.key p.user) p.op.value (s₁.number + 1) = some (enough x v p) :=
    hvalidate
  rw [verifyAndRecord, if_neg hguard]
  simp only [htable', hvalidate']
  cases enough x v p <;> rfl

/-- **A call that casts a vote records it, and carries it out when the votes are enough.** -/
theorem governanceCall_step {x : Record} (h : Sound version x) {origin : Address} {c : GovernanceCall}
    {answer : Int × Chain} (hcall : governanceCall version x.chain origin c = some answer) :
    StepCase version x (.governance origin c) answer.2 := by
  have hblock := governanceCall_block hversion h.entries hcall
  cases hcast : castBy version x.chain (.governance origin c) with
  | none =>
    rcases governanceCall_quiet hversion h.entries hcast hcall with
      hquiet | ⟨hempty, user, rfl, hfirst⟩
    · exact .quiet hcast hquiet (le_of_eq hblock.2.symm)
    · refine .first user origin hcast rfl hempty ?_ ?_ hblock.2
      · rw [hfirst]
        exact firstMember_members hversion h.entries hempty user origin
      · rw [hfirst]
        exact firstMember_votes x.chain user origin
  | some vote =>
    obtain ⟨v, p⟩ := vote
    obtain ⟨rfl, hmember, hadmits, s₁, haccess, hnumber, hvotes, hsame⟩ :=
      governanceCall_cast hversion h.entries hcast
    obtain ⟨t, ht, hverify⟩ := verifyAndRecord_cases hversion h haccess hnumber hvotes hmember
    rw [hsame, hverify] at hcall
    have hentries : EntriesOk s₁ :=
      h.entries.of_subset (le_of_eq hnumber.symm) fun r hr => by rwa [haccess] at hr
    have hmembers : s₁.members = x.chain.members := by rw [Chain.members, haccess]; rfl
    cases henough : enough x v p with
    | false =>
      rw [henough] at hcall
      cases hcall
      exact .voted v p hcast hmember hadmits henough hmembers ht hnumber
    | true =>
      rw [henough] at hcall
      cases hcall
      refine .carried v p hcast hmember hadmits henough ?_ ?_ hblock.2
      · rw [← hmembers]
        exact carryOut_members hversion hentries t v p
      · rw [← ht]
        exact carryOut_votes hversion hentries t v p

theorem chain_step {x : Record} (h : Sound version x) (i : Input) :
    StepCase version x i ((chain version).step x.chain i)
      ∧ EntriesOk ((chain version).step x.chain i) := by
  cases i with
  | governance origin c =>
    cases hcall : governanceCall version x.chain origin c with
    | none =>
      have hcast : castBy version x.chain (.governance origin c) = none := by
        cases hcast : castBy version x.chain (.governance origin c) with
        | none => rfl
        | some vote =>
          obtain ⟨rfl, hmember, -, s₁, haccess, hnumber, hvotes, hsame⟩ :=
            governanceCall_cast hversion h.entries hcast
          obtain ⟨t, -, hverify⟩ := verifyAndRecord_cases hversion h haccess hnumber hvotes hmember
          rw [hsame, hverify] at hcall
          split at hcall <;> cases hcall
      have hstep : (chain version).step x.chain (.governance origin c) = x.chain := by
        simp [chain, hcall]
      rw [hstep]
      exact ⟨.quiet hcast ⟨rfl, rfl⟩ (le_refl _), h.entries⟩
    | some answer =>
      have hstep : (chain version).step x.chain (.governance origin c) = answer.2 := by
        simp [chain, hcall]
      rw [hstep]
      exact ⟨governanceCall_step hversion h hcall, (governanceCall_block hversion h.entries hcall).1⟩
  | permission origin c =>
    have hstep : (chain version).step x.chain (.permission origin c)
        = permissionCall version x.chain origin c := rfl
    rw [hstep]
    rcases permissionCall_cases hversion x.chain origin c with
      hsame | ⟨tableName, user, haccess, hname, hinserted | hremoved⟩
    · rw [hsame]
      exact ⟨.quiet rfl ⟨rfl, rfl⟩ (le_refl _), h.entries⟩
    · rw [hinserted]
      exact ⟨.quiet rfl ⟨members_insert_other x.chain haccess, rfl⟩ (le_refl _),
        h.entries.insert (fun hn => absurd hn haccess) hname⟩
    · rw [hremoved]
      exact ⟨.quiet rfl ⟨members_remove_other hversion x.chain haccess, rfl⟩ (le_refl _),
        h.entries.remove hversion tableName user⟩
  | endOfBlock =>
    have hnumber : x.chain.number ≤ x.chain.number + 1 := by omega
    refine ⟨.quiet rfl ⟨?_, ?_⟩ hnumber, h.entries.of_subset hnumber fun r hr => ?_⟩
    · simp [chain, endOfBlock, Chain.members]
    · cases hcommittee : x.chain.committee with
      | none => simp [chain, endOfBlock, Chain.votes, getCommitteeTable, hcommittee]
      | some t => simp [chain, endOfBlock, Chain.votes, getCommitteeTable, hcommittee]
    · simpa [chain, endOfBlock] using hr

end Released

/-! ### Runs -/

theorem shows_congr {s s' : Chain} (hmembers : s'.members = s.members)
    (hweights : ∀ a, weightEntries s'.votes a = weightEntries s.votes a)
    (hthreshold : thresholdEntries s'.votes = thresholdEntries s.votes) (p : Proposal) :
    s'.Shows p ↔ s.Shows p := by
  have hrows : ∀ (rows : List CommitteeRow) (k : Bytes) (value : Value),
      (∃ r ∈ rows, r.key = k ∧ r.value = value)
        ↔ ∃ r ∈ rows.filter (fun r => r.key = k), r.value = value := by
    intro rows k value
    simp only [List.mem_filter, decide_eq_true_eq]
    constructor
    · rintro ⟨r, hr, hk, hvalue⟩
      exact ⟨r, ⟨hr, hk⟩, hvalue⟩
    · rintro ⟨r, ⟨hr, hk⟩, hvalue⟩
      exact ⟨r, hr, hk, hvalue⟩
  cases p with
  | grant a => simp only [Chain.Shows, hmembers]
  | revoke a => simp only [Chain.Shows, hmembers]
  | weight a w =>
    have hentries := hweights a
    simp only [weightEntries] at hentries
    simp only [Chain.Shows, hrows, hentries]
  | threshold x =>
    simp only [thresholdEntries] at hthreshold
    simp only [Chain.Shows, hrows, hthreshold]

theorem Chain.Admits.effect {version : Nat} {s : Chain} {p : Proposal} (h : s.Admits version p) :
    (∀ a, p = .grant a → a ∉ s.members)
      ∧ ∀ a w, p = .weight a w → a ∈ s.members ∧ (V2_7_0 ≤ version → 0 < w) := by
  refine ⟨?_, ?_⟩
  · rintro a rfl
    exact h.1
  · rintro a w rfl
    exact ⟨h.2.2, fun hv => Int.not_le.mp fun hw => h.2.1 ⟨hv, hw⟩⟩

theorem Sound.rows_carried {version : Nat} {x : Record} (h : Sound version x) {v : Address}
    {p : Proposal} (hadmits : x.chain.Admits version p) :
    RowsOk version (membersAfter x.chain.members p)
      (usedRows version p (effectRows v (recorded x.chain v p) p)) := by
  have hrecorded : RowsOk version x.chain.members (recorded x.chain v p) :=
    h.rows.congr (weightEntries_record _ _ p _) (thresholdEntries_record _ _ p _)
  exact (hrecorded.effect v hadmits.effect.1 hadmits.effect.2).used p

theorem weightEntries_newWeight (version : Nat) (s : Chain) (v a : Address) (w : Int) :
    weightEntries (usedRows version (.weight a w)
        (effectRows v (recorded s v (.weight a w)) (.weight a w))) a
      = (weightEntries s.votes a).map (setWeight v w) := by
  rw [weightEntries, filter_usedRows ((usedKey_ne version _).1 a)]
  exact (weightEntries_weight v _ a a w).trans ((if_pos rfl).trans
    (congrArg _ (weightEntries_record _ _ _ _ a)))

theorem thresholdEntries_newThreshold (version : Nat) (s : Chain) (v : Address) (y : Int) :
    thresholdEntries (usedRows version (.threshold y)
        (effectRows v (recorded s v (.threshold y)) (.threshold y)))
      = (thresholdEntries s.votes).map (setThreshold v y) := by
  rw [thresholdEntries, filter_usedRows (usedKey_ne version _).2]
  exact (thresholdEntries_threshold v _ y).trans (congrArg _ (thresholdEntries_record _ _ _ _))

/-- **A carried proposal shows.** -/
theorem shows_carried {version : Nat} {x : Record} (h : Sound version x) {s' : Chain} {v : Address}
    {p : Proposal} (hadmits : x.chain.Admits version p)
    (hmembers : s'.members = membersAfter x.chain.members p)
    (hvotes : s'.votes = usedRows version p (effectRows v (recorded x.chain v p) p)) : s'.Shows p := by
  cases p with
  | grant a =>
    rw [Chain.Shows, hmembers]
    exact List.mem_append_right _ (List.mem_singleton_self a)
  | revoke a =>
    rw [Chain.Shows, hmembers]
    exact fun hmem => of_decide_eq_true (List.mem_filter.mp hmem).2 rfl
  | weight a w =>
    have hne := h.rows.weighed a (hadmits.effect.2 a w rfl).1
    obtain ⟨r, hr⟩ := List.exists_mem_of_ne_nil _ hne
    have hmem : setWeight v w r ∈ weightEntries s'.votes a := by
      rw [hvotes, weightEntries_newWeight]
      exact List.mem_map_of_mem hr
    obtain ⟨hmem, hkey⟩ := List.mem_filter.mp hmem
    exact ⟨_, hmem, of_decide_eq_true hkey, rfl⟩
  | threshold y =>
    obtain ⟨r, z, hrows, -⟩ := h.rows.threshold
    have hmem : setThreshold v y r ∈ thresholdEntries s'.votes := by
      rw [hvotes, thresholdEntries_newThreshold, hrows]
      exact List.mem_singleton_self _
    obtain ⟨hmem, hkey⟩ := List.mem_filter.mp hmem
    exact ⟨_, hmem, of_decide_eq_true hkey, rfl⟩

theorem membersAfter_nodup {members : List Address} (h : members.Nodup) {p : Proposal}
    (hgrant : ∀ a, p = .grant a → a ∉ members) : (membersAfter members p).Nodup := by
  cases p with
  | grant a =>
    rw [membersAfter, List.nodup_append']
    exact ⟨h, List.nodup_singleton a, by simpa using hgrant a rfl⟩
  | revoke a => exact h.filter _
  | weight a w => exact h
  | threshold y => exact h

theorem eventsOf_vote {version : Nat} {uses : Proposal → Bool} {s : Chain} {i : Input} {v : Address}
    {p : Proposal} (hcast : castBy version s i = some (v, p)) :
    eventsOf version uses s i
      = if ((chain version).step s i).Shows p ∧ uses p = true then [.used p, castEvent s v p]
        else [castEvent s v p] := by
  rw [eventsOf, hcast]

theorem eventsOf_quiet {version : Nat} {uses : Proposal → Bool} {s : Chain} {i : Input}
    (hcast : castBy version s i = none) : eventsOf version uses s i = [] := by
  rw [eventsOf, hcast]

/-- **Every input keeps what holds of records.** -/
theorem Sound.step {version : Nat} (hversion : V2_5_0 ≤ version) {x : Record} (h : Sound version x)
    (i : Input) : Sound version ((recorder version (Proposal.usesUp version)).step x i) := by
  obtain ⟨hcase, hentries⟩ := chain_step hversion h i
  obtain ⟨box, hrows, hmatches⟩ := h.ballots
  cases hcase with
  | quiet hcast hquiet hnumber =>
    refine ⟨hentries, ?_, ?_, box, ?_, ?_⟩ <;> simp only [recorder]
    · rw [hquiet.1]
      exact h.distinct
    · rw [hquiet.1, hquiet.2]
      exact h.rows
    · rw [hquiet.2]
      exact hrows
    · rw [eventsOf_quiet hcast]
      exact hmatches.later hnumber
  | first user origin hcast hinput hempty hmembers hvotes hnumber =>
    refine ⟨hentries, ?_, ?_, box, ?_, ?_⟩ <;> simp only [recorder]
    · rw [hmembers]
      split
      · exact List.nodup_singleton user
      · exact List.nodup_nil
    · have hnobody : RowsOk version [] x.chain.votes := hempty ▸ h.rows
      rw [hmembers, hvotes]
      split
      · exact hnobody.granted origin List.not_mem_nil (fun b hb => absurd hb List.not_mem_nil)
          fun b hb => .inr (List.mem_singleton.mp hb)
      · exact hnobody.granted origin List.not_mem_nil (fun b hb => hb) fun b hb => .inl hb
    · rw [hvotes]
      exact hrows.effect origin (.grant user)
    · rw [eventsOf_quiet hcast, hnumber]
      exact hmatches
  | voted v p hcast hmember hadmits hfew hmembers hvotes hnumber =>
    have hshows : ¬ ((chain version).step x.chain i).Shows p := by
      rw [shows_congr hmembers]
      · exact hadmits.1
      · intro a
        rw [hvotes]
        exact weightEntries_record _ _ p _ a
      · rw [hvotes]
        exact thresholdEntries_record _ _ p _
    refine ⟨hentries, ?_, ?_, record Proposal.key x.chain.number
      (x.chain.number + c_voteValidLimit) v p box, ?_, ?_⟩ <;> simp only [recorder]
    · rw [hmembers]
      exact h.distinct
    · rw [hmembers, hvotes]
      exact h.rows.congr (weightEntries_record _ _ p _) (thresholdEntries_record _ _ p _)
    · rw [hvotes]
      exact hrows.record x.chain.number v p
    · rw [eventsOf_vote hcast, if_neg fun hboth => hshows hboth.1, hnumber]
      exact hmatches.record
  | carried v p hcast hmember hadmits henough hmembers hvotes hnumber =>
    have hshows := shows_carried h hadmits hmembers hvotes
    refine ⟨hentries, ?_, ?_, usedBox version p
      (record Proposal.key x.chain.number (x.chain.number + c_voteValidLimit) v p box), ?_, ?_⟩ <;>
      simp only [recorder]
    · rw [hmembers]
      exact membersAfter_nodup h.distinct hadmits.effect.1
    · rw [hmembers, hvotes]
      exact h.rows_carried hadmits
    · rw [hvotes]
      exact ((hrows.record x.chain.number v p).effect v p).used version p
    · rw [eventsOf_vote hcast, hnumber]
      by_cases huses : p.usesUp version = true
      · rw [if_pos ⟨hshows, huses⟩, usedBox, if_pos huses]
        exact hmatches.record.use p
      · rw [if_neg fun hboth => huses hboth.2, usedBox, if_neg huses]
        exact hmatches.record

theorem sound_start (version : Nat) : Sound version Record.start where
  entries := by
    constructor <;> simp [Record.start, genesis, MembersSpelled]
  distinct := List.nodup_nil
  rows := by
    have hvotes : Record.start.chain.votes = [{ key := CGP_AUTH_THRESHOLD, value := .threshold 50 }] := rfl
    have hweights : ∀ a, weightEntries Record.start.chain.votes a = [] := by
      intro a
      rw [hvotes]
      simp [weightEntries, (weightKey_ne_threshold a).symm]
    refine ⟨fun a => ⟨1, fun _ => Int.one_pos, fun _ => rfl, ?_⟩, fun a ha => ?_, ?_⟩
    · rw [hweights a]
      exact fun r hr => absurd hr List.not_mem_nil
    · exact absurd ha List.not_mem_nil
    · exact ⟨_, 50, rfl, rfl⟩
  ballots := by
    refine ⟨[], ⟨rfl, fun r hr _ => .inr ?_⟩, Matches.nil _⟩
    rw [List.mem_singleton.mp hr]

theorem sound_run {version : Nat} (hversion : V2_5_0 ≤ version) (inputs : List Input) :
    Sound version (recordOf version (Proposal.usesUp version) inputs) :=
  (recorder version _).run_preserves (fun _ i h => h.step hversion i) (sound_start version) inputs

/-! ### Decisions -/

theorem moreThan_iff {votes total threshold : ℚ} (htotal : 0 ≤ total) :
    moreThan votes total threshold = true ↔ threshold * total < votes := by
  unfold moreThan
  split
  · rename_i hzero
    simp [hzero]
  · rename_i hne
    have hpositive : 0 < total := lt_of_le_of_ne htotal (Ne.symm hne)
    rw [decide_eq_true_iff, lt_div_iff₀ hpositive]

structure SameCommittee (s s' : Chain) : Prop where
  members : s'.members = s.members
  weights : ∀ a, weightEntries s'.votes a = weightEntries s.votes a
  threshold : thresholdEntries s'.votes = thresholdEntries s.votes

theorem weightIn_congr {rows rows' : List CommitteeRow} {a : Address}
    (h : weightEntries rows' a = weightEntries rows a) : weightIn rows' a = weightIn rows a := by
  simp only [weightEntries] at h
  rw [weightIn, h]
  rfl

theorem weightIn_of_entries {rows entries : List CommitteeRow} {a : Address} {r : CommitteeRow} {w : Int}
    (h : weightEntries rows a = r :: entries) (hr : r.value = .weight w) : weightIn rows a = w := by
  simp only [weightEntries] at h
  simp [weightIn, h, hr, Value.number]

theorem thresholdIn_congr {rows rows' : List CommitteeRow}
    (h : thresholdEntries rows' = thresholdEntries rows) : thresholdIn rows' = thresholdIn rows := by
  simp only [thresholdEntries] at h
  rw [thresholdIn, h]
  rfl

theorem weightEntries_carried {version : Nat} {x : Record} {v : Address} {p : Proposal} {a : Address}
    (hother : ∀ w, p ≠ .weight a w) (hgrant : p ≠ .grant a) (hrevoke : p ≠ .revoke a) :
    weightEntries (usedRows version p (effectRows v (recorded x.chain v p) p)) a
      = weightEntries x.chain.votes a := by
  have hkeep : weightEntries (usedRows version p (effectRows v (recorded x.chain v p) p)) a
      = weightEntries (effectRows v (recorded x.chain v p) p) a :=
    filter_usedRows ((usedKey_ne version p).1 a)
  rw [hkeep, ← weightEntries_record x.chain.number x.chain.votes p v.hexPrefixed a, ← recorded]
  generalize recorded x.chain v p = rows
  cases p with
  | grant b =>
    have hb : b ≠ a := fun h => hgrant (by rw [h])
    rw [weightEntries_grant, if_neg hb, List.append_nil]
  | revoke b =>
    have hb : b ≠ a := fun h => hrevoke (by rw [h])
    rw [weightEntries_revoke, if_neg hb]
  | weight b w =>
    have hb : b ≠ a := fun h => hother w (by rw [h])
    rw [weightEntries_weight, if_neg hb]
  | threshold y => exact weightEntries_threshold v rows y a

/-- The input carries the proposal: a member votes for it, and then the members
    with a standing vote for exactly it outweigh the threshold. -/
def Decided (version : Nat) (x : Record) (i : Input) (p : Proposal) : Prop :=
  ∃ v ∈ x.chain.members, castBy version x.chain i = some (v, p)
    ∧ (0 ≤ x.chain.view.total → x.chain.view.threshold * x.chain.view.total
      < x.chain.view.inFavour (castEvent x.chain v p :: x.history) x.chain.number p)

structure ChangesDecided (version : Nat) (x : Record) (i : Input) : Prop where
  granted : ∀ a, a ∉ x.chain.members → a ∈ ((chain version).step x.chain i).members →
    Decided version x i (.grant a)
  revoked : ∀ a, a ∈ x.chain.members → a ∉ ((chain version).step x.chain i).members →
    Decided version x i (.revoke a)
  weighed : ∀ a, a ∈ x.chain.members → a ∈ ((chain version).step x.chain i).members →
    ((chain version).step x.chain i).view.weight a ≠ x.chain.view.weight a →
    ∃ w : Int, ((chain version).step x.chain i).view.weight a = w ∧ Decided version x i (.weight a w)
  threshold : ((chain version).step x.chain i).view.threshold ≠ x.chain.view.threshold →
    ∃ y : Int, ((chain version).step x.chain i).view.threshold = y / 100
      ∧ Decided version x i (.threshold y)

section Released

variable {version : Nat} (hversion : V2_5_0 ≤ version)
include hversion

theorem same_or_carried {x : Record} (h : Sound version x) (hne : x.chain.members ≠ []) (i : Input) :
    SameCommittee x.chain ((chain version).step x.chain i)
      ∨ ∃ v p, Decided version x i p ∧ x.chain.Admits version p
        ∧ ((chain version).step x.chain i).members = membersAfter x.chain.members p
        ∧ ((chain version).step x.chain i).votes
          = usedRows version p (effectRows v (recorded x.chain v p) p) := by
  cases (chain_step hversion h i).1 with
  | quiet hcast hquiet hnumber =>
    exact .inl ⟨hquiet.1, fun a => by rw [hquiet.2], by rw [hquiet.2]⟩
  | first user origin hcast hinput hempty hmembers hvotes hnumber => exact absurd hempty hne
  | voted v p hcast hmember hadmits hfew hmembers hvotes hnumber =>
    refine .inl ⟨hmembers, fun a => ?_, ?_⟩
    · rw [hvotes]
      exact weightEntries_record _ _ p _ a
    · rw [hvotes]
      exact thresholdEntries_record _ _ p _
  | carried v p hcast hmember hadmits henough hmembers hvotes hnumber =>
    refine .inr ⟨v, p, ⟨v, hmember, hcast, fun htotal => ?_⟩, hadmits, hmembers, hvotes⟩
    exact (moreThan_iff htotal).mp henough

/-- **While there is a member, what changes is decided by votes.** -/
theorem changes_decided {x : Record} (h : Sound version x) (hne : x.chain.members ≠ []) (i : Input) :
    ChangesDecided version x i := by
  rcases same_or_carried hversion h hne i with hsame | ⟨v, p, hdecided, hadmits, hmembers, hvotes⟩
  · refine ⟨fun a hnot hin => ?_, fun a hin hnot => ?_, fun a _ _ hweight => ?_, fun hthreshold => ?_⟩
    · exact absurd (hsame.members ▸ hin) hnot
    · exact absurd hin (hsame.members ▸ hnot)
    · exact absurd (weightIn_congr (hsame.weights a)) hweight
    · exact absurd (thresholdIn_congr hsame.threshold) hthreshold
  · refine ⟨fun a hnot hin => ?_, fun a hin hnot => ?_, fun a hold hin hweight => ?_, fun hthreshold => ?_⟩
    · rw [hmembers] at hin
      cases p with
      | grant b =>
        rcases List.mem_append.mp hin with hold | hnew
        · exact absurd hold hnot
        · rw [List.mem_singleton.mp hnew]
          exact hdecided
      | revoke b => exact absurd (List.mem_filter.mp hin).1 hnot
      | weight b w => exact absurd hin hnot
      | threshold y => exact absurd hin hnot
    · rw [hmembers] at hnot
      cases p with
      | grant b => exact absurd (List.mem_append_left _ hin) hnot
      | revoke b =>
        by_cases hb : a = b
        · rw [hb]
          exact hdecided
        · exact absurd (List.mem_filter.mpr ⟨hin, decide_eq_true hb⟩) hnot
      | weight b w => exact absurd hin hnot
      | threshold y => exact absurd hin hnot
    · by_cases hp : ∃ w, p = .weight a w
      · obtain ⟨w, rfl⟩ := hp
        refine ⟨w, ?_, hdecided⟩
        obtain ⟨r, rows, hrows⟩ := List.exists_cons_of_ne_nil (h.rows.weighed a hold)
        have hentries : weightEntries ((chain version).step x.chain i).votes a
            = setWeight v w r :: rows.map (setWeight v w) := by
          rw [hvotes, weightEntries_newWeight, hrows]
          rfl
        exact weightIn_of_entries hentries rfl
      · have hgrant : p ≠ .grant a := by
          rintro rfl
          exact hadmits.1 hold
        have hrevoke : p ≠ .revoke a := by
          rintro rfl
          rw [hmembers] at hin
          exact of_decide_eq_true (List.mem_filter.mp hin).2 rfl
        refine absurd (weightIn_congr ?_) hweight
        rw [hvotes]
        exact weightEntries_carried (fun w hw => hp ⟨w, hw⟩) hgrant hrevoke
    · by_cases hp : ∃ y, p = .threshold y
      · obtain ⟨y, rfl⟩ := hp
        refine ⟨y, ?_, hdecided⟩
        obtain ⟨r, z, hrows, -⟩ := h.rows.threshold
        have hentries : thresholdEntries ((chain version).step x.chain i).votes = [setThreshold v y r] := by
          rw [hvotes, thresholdEntries_newThreshold, hrows]
          rfl
        simp only [thresholdEntries] at hentries
        simp [Chain.view, committeeOf, thresholdIn, hentries, setThreshold, Value.number]
      · refine absurd (thresholdIn_congr ?_) hthreshold
        rw [hvotes]
        refine (filter_usedRows (usedKey_ne version p).2).trans ?_
        exact (thresholdEntries_effect fun y hy => hp ⟨y, hy⟩).trans (thresholdEntries_record _ _ p _)

end Released

/-! ### Weights -/

theorem Sound.weight_eq {version : Nat} {x : Record} (h : Sound version x) {a : Address}
    (ha : a ∈ x.chain.members) : ∃ w : Int, weightEntries x.chain.votes a ≠ []
      ∧ (∀ r ∈ weightEntries x.chain.votes a, r.value = .weight w)
      ∧ x.chain.view.weight a = w ∧ (V2_7_0 ≤ version → 0 < w) := by
  obtain ⟨w, hpositive, -, hall⟩ := h.rows.weights a
  have hne := h.rows.weighed a ha
  obtain ⟨r, rows, hrows⟩ := List.exists_cons_of_ne_nil hne
  refine ⟨w, hne, hall, weightIn_of_entries hrows ?_, hpositive⟩
  exact hall r (by rw [hrows]; exact List.mem_cons_self)

theorem Sound.total_pos {version : Nat} {x : Record} (h : Sound version x)
    (hversion : V2_7_0 ≤ version) (hne : x.chain.members ≠ []) : 0 < x.chain.view.total := by
  refine List.sum_pos _ (fun q hq => ?_) fun hnil => hne (List.map_eq_nil_iff.mp hnil)
  obtain ⟨a, ha, rfl⟩ := List.mem_map.mp hq
  obtain ⟨w, -, -, hw, hpositive⟩ := h.weight_eq ha
  rw [hw]
  exact_mod_cast hpositive hversion

/-- An account that may not write the access table grants to a first member. -/
def StrayGrant (s : Chain) : Input → Prop
  | .governance origin (.grantCommitteeMember _) =>
    s.members = [] ∧ checkAuthority s.authorized origin = false
  | _ => False

instance (s : Chain) : DecidablePred (StrayGrant s) := fun i => by
  unfold StrayGrant
  split <;> infer_instance

def OneWeight (s : Chain) : Prop :=
  ∀ a, (weightEntries s.votes a).length = if a ∈ s.members then 1 else 0

theorem OneWeight.step {version : Nat} (hversion : V2_5_0 ≤ version) {x : Record}
    (h : Sound version x) (hone : OneWeight x.chain) {i : Input} (hstray : ¬ StrayGrant x.chain i) :
    OneWeight ((chain version).step x.chain i) := by
  intro a
  have ha := hone a
  cases (chain_step hversion h i).1 with
  | quiet hcast hquiet hnumber => rwa [hquiet.1, hquiet.2]
  | first user origin hcast hinput hempty hmembers hvotes hnumber =>
    have hauthority : checkAuthority x.chain.authorized origin = true := by
      by_contra hrefused
      rw [hinput] at hstray
      exact hstray ⟨hempty, eq_false_of_ne_true hrefused⟩
    rw [hempty, if_neg List.not_mem_nil] at ha
    rw [hmembers, hvotes, if_pos hauthority, weightEntries_grant, List.length_append, ha]
    by_cases huser : user = a
    · simp [huser]
    · simp [huser, Ne.symm huser]
  | voted v p hcast hmember hadmits hfew hmembers hvotes hnumber =>
    rw [hmembers, hvotes, ← ha]
    exact congrArg _ (weightEntries_record _ _ p _ a)
  | carried v p hcast hmember hadmits henough hmembers hvotes hnumber =>
    have hentries : weightEntries ((chain version).step x.chain i).votes a
        = weightEntries (effectRows v (recorded x.chain v p) p) a := by
      rw [hvotes]
      exact filter_usedRows ((usedKey_ne version p).1 a)
    have hrecorded : weightEntries (recorded x.chain v p) a = weightEntries x.chain.votes a :=
      weightEntries_record _ _ p _ a
    rw [hentries, hmembers]
    cases p with
    | grant b =>
      rw [weightEntries_grant, List.length_append, hrecorded, ha]
      by_cases hb : b = a
      · have hnot : a ∉ x.chain.members := hb ▸ hadmits.1
        simp [membersAfter, hb, hnot]
      · simp [membersAfter, hb, Ne.symm hb]
    | revoke b =>
      rw [weightEntries_revoke, hrecorded]
      by_cases hb : b = a
      · simp [membersAfter, hb]
      · simp [membersAfter, hb, Ne.symm hb, ha]
    | weight b w =>
      rw [weightEntries_weight, hrecorded]
      split
      · rw [List.length_map, ha]
        rfl
      · exact ha
    | threshold y =>
      rw [weightEntries_threshold, hrecorded]
      exact ha

theorem oneWeight_run {version : Nat} (hversion : V2_5_0 ≤ version) {inputs : List Input}
    (h : (recorder version (Proposal.usesUp version)).RunOk (fun x i => ¬ StrayGrant x.chain i)
      Record.start inputs) :
    OneWeight (recordOf version (Proposal.usesUp version) inputs).chain := by
  have hstep : ∀ x i, Sound version x ∧ OneWeight x.chain → ¬ StrayGrant x.chain i →
      Sound version ((recorder version (Proposal.usesUp version)).step x i)
        ∧ OneWeight ((recorder version (Proposal.usesUp version)).step x i).chain :=
    fun x i hx hi => ⟨hx.1.step hversion i, OneWeight.step hversion hx.1 hx.2 hi⟩
  have hstart : OneWeight Record.start.chain := by
    intro a
    have hnone : weightEntries Record.start.chain.votes a = [] := by
      have hvotes : Record.start.chain.votes
          = [{ key := CGP_AUTH_THRESHOLD, value := .threshold 50 }] := rfl
      rw [hvotes]
      simp [weightEntries, (weightKey_ne_threshold a).symm]
    rw [hnone]
    rfl
  exact ((recorder version _).run_invariant hstep ⟨sound_start version, hstart⟩ h).2

/-- **The committee decides by votes.**  From empty tables, after any calls of
    both contracts and any blocks: members are distinct; while there is one, what
    an input changes is decided by votes, of a whole that is positive from 2.7.0
    on; a member has a weight, the same in all its rows, and one row when no
    account without permission has granted to a first member. -/
theorem committee_decides {version : Nat} (hversion : V2_5_0 ≤ version) (inputs : List Input) :
    (recordOf version (Proposal.usesUp version) inputs).chain.members.Nodup
    ∧ ((recordOf version (Proposal.usesUp version) inputs).chain.members ≠ [] →
      (∀ i, ChangesDecided version (recordOf version (Proposal.usesUp version) inputs) i)
      ∧ (V2_7_0 ≤ version →
        0 < (recordOf version (Proposal.usesUp version) inputs).chain.view.total))
    ∧ (∀ a ∈ (recordOf version (Proposal.usesUp version) inputs).chain.members, ∃ w : Int,
      weightEntries (recordOf version (Proposal.usesUp version) inputs).chain.votes a ≠ []
        ∧ ∀ r ∈ weightEntries (recordOf version (Proposal.usesUp version) inputs).chain.votes a,
          r.value = .weight w)
    ∧ ((recorder version (Proposal.usesUp version)).RunOk (fun x i => ¬ StrayGrant x.chain i)
        Record.start inputs →
      ∀ a ∈ (recordOf version (Proposal.usesUp version) inputs).chain.members,
        (weightEntries (recordOf version (Proposal.usesUp version) inputs).chain.votes a).length = 1) := by
  have hsound := sound_run hversion inputs
  refine ⟨hsound.distinct, fun hne => ⟨changes_decided hversion hsound hne, fun hv => ?_⟩, ?_, ?_⟩
  · exact hsound.total_pos hv hne
  · intro a ha
    obtain ⟨w, hsome, hall, -⟩ := hsound.weight_eq ha
    exact ⟨w, hsome, hall⟩
  · intro hok a ha
    rw [oneWeight_run hversion hok a, if_pos ha]

def twoMembers : List Input :=
  [.governance (.ofByte 1) (.grantCommitteeMember (.ofByte 1)),
    .governance (.ofByte 1) (.grantCommitteeMember (.ofByte 2))]

theorem committee_decides_two :
    (recordOf V2_7_0 (Proposal.usesUp V2_7_0) twoMembers).chain.members = [.ofByte 1, .ofByte 2]
    ∧ (recordOf V2_7_0 (Proposal.usesUp V2_7_0) twoMembers).chain.members.Nodup :=
  ⟨by decide +kernel, (committee_decides (by decide) twoMembers).1⟩

def emptied : List Input :=
  [.governance (.ofByte 1) (.grantCommitteeMember (.ofByte 1)), .endOfBlock,
    .governance (.ofByte 1) (.revokeCommitteeMember (.ofByte 1))]

def thresholdTwice : List Input :=
  twoMembers ++ [.governance (.ofByte 1) (.grantCommitteeMember (.ofByte 3)),
    .governance (.ofByte 2) (.grantCommitteeMember (.ofByte 3)),
    .governance (.ofByte 1) (.updateThreshold 60), .governance (.ofByte 2) (.updateThreshold 60),
    .governance (.ofByte 2) (.updateThreshold 50), .governance (.ofByte 3) (.updateThreshold 50)]

def negativeWeight : List Input :=
  twoMembers ++ [.governance (.ofByte 1) (.updateCommitteeMemberWeight (.ofByte 2) (-5)),
    .governance (.ofByte 2) (.updateCommitteeMemberWeight (.ofByte 2) (-5))]

/-- **What the votes do not cover.**  After the last member is revoked, a grant by
    anyone; before 2.7.0, a threshold carried with a vote that was used before,
    and a member revoked by a part below the threshold of a negative whole; two
    weights of a member, the first of a grant that was refused. -/
theorem beyond_votes :
    (Address.ofByte 2 ∉ (recordOf V2_7_0 (fun _ => true) (emptied ++ [.endOfBlock])).chain.members
      ∧ Address.ofByte 2 ∈ (recordOf V2_7_0 (fun _ => true) (emptied ++ [.endOfBlock,
        .governance (.ofByte 9) (.grantCommitteeMember (.ofByte 2))])).chain.members
      ∧ ¬ (recordOf V2_7_0 (fun _ => true) (emptied ++ [.endOfBlock])).chain.view.threshold
          * (recordOf V2_7_0 (fun _ => true) (emptied ++ [.endOfBlock])).chain.view.total
        < (recordOf V2_7_0 (fun _ => true) (emptied ++ [.endOfBlock])).chain.view.inFavour
          (recordOf V2_7_0 (fun _ => true) (emptied ++ [.endOfBlock,
            .governance (.ofByte 9) (.grantCommitteeMember (.ofByte 2))])).history 1
          (.grant (.ofByte 2)))
    ∧ ((recordOf V2_6_0 (fun _ => true) thresholdTwice).chain.view.threshold = 1 / 2
      ∧ (recordOf V2_6_0 (fun _ => true)
        (thresholdTwice ++ [.governance (.ofByte 3) (.updateThreshold 60)])).chain.view.threshold = 3 / 5
      ∧ ¬ (recordOf V2_6_0 (fun _ => true) thresholdTwice).chain.view.threshold
          * (recordOf V2_6_0 (fun _ => true) thresholdTwice).chain.view.total
        < (recordOf V2_6_0 (fun _ => true) thresholdTwice).chain.view.inFavour
          (castEvent (recordOf V2_6_0 (fun _ => true) thresholdTwice).chain (.ofByte 3) (.threshold 60)
            :: (recordOf V2_6_0 (fun _ => true) thresholdTwice).history) 0 (.threshold 60))
    ∧ (Address.ofByte 1 ∈ (recordOf V2_6_0 (fun _ => true) negativeWeight).chain.members
      ∧ Address.ofByte 1 ∉ (recordOf V2_6_0 (fun _ => true)
        (negativeWeight ++ [.governance (.ofByte 2) (.revokeCommitteeMember (.ofByte 1))])).chain.members
      ∧ ¬ (recordOf V2_6_0 (fun _ => true) negativeWeight).chain.view.threshold
          * (recordOf V2_6_0 (fun _ => true) negativeWeight).chain.view.total
        < (recordOf V2_6_0 (fun _ => true) negativeWeight).chain.view.inFavour
          (castEvent (recordOf V2_6_0 (fun _ => true) negativeWeight).chain (.ofByte 2)
            (.revoke (.ofByte 1)) :: (recordOf V2_6_0 (fun _ => true) negativeWeight).history) 0
          (.revoke (.ofByte 1)))
    ∧ (weightEntries (recordOf V2_7_0 (fun _ => true) (emptied
        ++ [.governance (.ofByte 9) (.grantCommitteeMember (.ofByte 2)), .endOfBlock,
          .governance (.ofByte 9) (.grantCommitteeMember (.ofByte 2))])).chain.votes (.ofByte 2)).length
      = 2 := by
  decide +kernel

end HieraChain.Governance
