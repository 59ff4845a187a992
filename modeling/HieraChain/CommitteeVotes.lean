/-
  HieraChain/CommitteeVotes.lean
  ==============================
  **The votes' table as a box of ballots.**

  Votes, weights and the threshold are rows of one table, told apart by keys of
  different lengths.  `recordVote` and `deleteUsedVotes` do to the rows of the
  votes what `record` and `use` do to a box of ballots (`filter_recordRows`), and
  they leave the other rows as they are (`recordRows_of_ne`).  `validate` weighs
  the ballots that count (`validate_eq`).
-/
import HieraChain.Ballots
import HieraChain.PermissionPrecompiled

namespace HieraChain.Governance

open HieraChain.BigEndian HieraChain.Storage HieraChain.Hex HieraChain.Ballots

/-! ### Proposals -/

inductive Proposal
  | grant (member : Address)
  | revoke (member : Address)
  | weight (member : Address) (w : Int)
  | threshold (percent : Int)
  deriving DecidableEq

namespace Proposal

def op : Proposal → Operation
  | .grant _ => .GrantCommitteeMember
  | .revoke _ => .RevokeCommitteeMember
  | .weight _ w => .UpdateCommitteeMemberWeight w
  | .threshold percent => .UpdateThreshold percent

def user : Proposal → Bytes
  | .grant member => member.hexPrefixed
  | .revoke member => member.hexPrefixed
  | .weight member _ => member.hexPrefixed
  | .threshold _ => CGP_UPDATE_AUTH_THRESHOLD

def key (p : Proposal) : Bytes := p.op.key p.user

def value (p : Proposal) : Value := p.op.value

theorem eq_of_key_value {p q : Proposal} (hkey : p.key = q.key) (hvalue : p.value = q.value) :
    p = q := by
  cases p <;> cases q <;> simp_all [key, value, op, user, Operation.key, Operation.value]

theorem length_key (p : Proposal) : p.key.length ∈ [42, 56, 21] := by
  cases p <;>
    simp [key, op, user, Operation.key, Address.length_hexPrefixed, CGP_UPDATE_WEIGTH_SUFFIX,
      CGP_UPDATE_AUTH_THRESHOLD, ascii]

end Proposal

def weightKey (a : Address) : Bytes := a.hexPrefixed ++ CGP_WEIGTH_SUFFIX

theorem weightKey_inj {a b : Address} : weightKey a = weightKey b ↔ a = b := by
  simp [weightKey]

theorem key_ne_weightKey (p : Proposal) (a : Address) : p.key ≠ weightKey a := by
  intro h
  have hlength := p.length_key
  rw [h] at hlength
  simp [weightKey, Address.length_hexPrefixed, CGP_WEIGTH_SUFFIX, ascii] at hlength

theorem key_ne_threshold (p : Proposal) : p.key ≠ CGP_AUTH_THRESHOLD := by
  intro h
  have hlength := p.length_key
  rw [h] at hlength
  simp [CGP_AUTH_THRESHOLD, ascii] at hlength

theorem weightKey_ne_threshold (a : Address) : weightKey a ≠ CGP_AUTH_THRESHOLD := by
  intro h
  have hlength := congrArg List.length h
  simp [weightKey, Address.length_hexPrefixed, CGP_WEIGTH_SUFFIX, CGP_AUTH_THRESHOLD, ascii] at hlength

/-! ### Rows -/

def CommitteeRow.isVote (r : CommitteeRow) : Bool := r.blockLimit.isSome

def voteRow (b : Ballot Address Proposal) : CommitteeRow :=
  { key := b.proposal.key, value := b.proposal.value, origin := b.voter.hexPrefixed,
    blockLimit := some b.limit }

/-- The rows after `recordVote`. -/
def recordRows (number : Int) (rows : List CommitteeRow) (key : Bytes) (value : Value) (origin : Bytes) :
    List CommitteeRow :=
  let limit := some (number + c_voteValidLimit)
  (if rows.any fun r => r.key = key && r.origin = origin then
      rows.map fun r =>
        if r.key = key && r.origin = origin then
          { r with value := value, origin := origin, blockLimit := limit }
        else r
    else rows ++ [{ key := key, value := value, origin := origin, blockLimit := limit }]).filter
      fun r => !(r.key = key && r.blockLimit.any (· ≤ number))

theorem rows_recordVote {version : Nat} (hversion : V2_5_0 ≤ version) (number : Int)
    (t : CommitteeTable) (key : Bytes) (value : Value) (origin : Bytes) :
    (recordVote version number t key value origin).rows
      = recordRows number t.rows key value origin := by
  unfold recordVote recordRows
  simp only [SystemTable.rows_remove hversion, t.select_eq hversion]
  congr 1
  by_cases hany : t.rows.any (fun r => r.key = key && r.origin = origin) = true
  · have hfound : (t.rows.filter fun r => r.key = key && r.origin = origin).isEmpty = false := by
      obtain ⟨r, hr, hcondition⟩ := List.any_eq_true.mp hany
      rw [List.isEmpty_eq_false_iff_exists_mem]
      exact ⟨r, List.mem_filter.mpr ⟨hr, hcondition⟩⟩
    rw [if_pos hany, if_neg (by simp [hfound]), t.rows_update hversion]
  · have hnone : (t.rows.filter fun r => r.key = key && r.origin = origin).isEmpty = true := by
      rw [List.isEmpty_iff, List.filter_eq_nil_iff]
      exact fun r hr hcondition => hany (List.any_eq_true.mpr ⟨r, hr, hcondition⟩)
    rw [if_neg hany, if_pos hnone, SystemTable.rows_insert]

theorem recordRows_of_ne {number : Int} {rows : List CommitteeRow} {key k : Bytes} {value : Value}
    {origin : Bytes} (hne : key ≠ k) :
    (recordRows number rows key value origin).filter (fun r => r.key = k)
      = rows.filter fun r => r.key = k := by
  have hnever : ∀ r : CommitteeRow, r.key = k → r.key ≠ key := by
    rintro r rfl h
    exact hne h.symm
  unfold recordRows
  rw [List.filter_filter]
  have hkeep : ∀ l : List CommitteeRow,
      l.filter (fun r => decide (r.key = k) && !(r.key = key && r.blockLimit.any (· ≤ number)))
        = l.filter fun r => r.key = k := by
    intro l
    refine List.filter_congr fun r _ => ?_
    by_cases hk : r.key = k <;> simp [hk, Ne.symm hne]
  rw [hkeep]
  split
  · rw [List.filter_map]
    have hsame : ∀ r ∈ rows.filter (fun r => r.key = k),
        (if r.key = key && r.origin = origin then
          ({ r with value := value, origin := origin,
                    blockLimit := some (number + c_voteValidLimit) } : CommitteeRow)
        else r) = r := by
      intro r hr
      have hk := of_decide_eq_true (List.mem_filter.mp hr).2
      simp [hnever r hk]
    have hkeys : (fun r : CommitteeRow => decide (r.key = k)) ∘ (fun r =>
        if r.key = key && r.origin = origin then
          ({ r with value := value, origin := origin,
                    blockLimit := some (number + c_voteValidLimit) } : CommitteeRow)
        else r) = fun r => decide (r.key = k) := by
      funext r
      simp only [Function.comp]
      split <;> rfl
    rw [hkeys]
    exact (List.map_congr_left hsame).trans (List.map_id' _)
  · simp [hne]

/-! ### The rows of a box -/

/-- The votes are the rows of the box; the other rows are weights and thresholds. -/
structure RowsOf (rows : List CommitteeRow) (box : List (Ballot Address Proposal)) : Prop where
  votes : rows.filter CommitteeRow.isVote = box.map voteRow
  others : ∀ r ∈ rows, r.isVote = false → (∃ a, r.key = weightKey a) ∨ r.key = CGP_AUTH_THRESHOLD

section RowsOf

variable {rows : List CommitteeRow} {box : List (Ballot Address Proposal)}

theorem RowsOf.isVote_of_key (h : RowsOf rows box) {r : CommitteeRow} (hr : r ∈ rows) {p : Proposal}
    (hkey : r.key = p.key) : r.isVote = true := by
  by_contra hvote
  rcases h.others r hr (eq_false_of_ne_true hvote) with ⟨a, ha⟩ | hthreshold
  · exact key_ne_weightKey p a (hkey.symm.trans ha)
  · exact key_ne_threshold p (hkey.symm.trans hthreshold)

theorem mem_voteRow (h : RowsOf rows box) {b : Ballot Address Proposal} (hb : b ∈ box) :
    voteRow b ∈ rows := by
  have hmem : voteRow b ∈ rows.filter CommitteeRow.isVote := by
    rw [h.votes]
    exact List.mem_map_of_mem hb
  exact (List.mem_filter.mp hmem).1

theorem same_voteRow (b : Ballot Address Proposal) (v : Address) (p : Proposal) :
    (decide ((voteRow b).key = p.key) && decide ((voteRow b).origin = v.hexPrefixed))
      = b.same Proposal.key v p := by
  rw [Bool.eq_iff_iff, Ballot.same, Bool.and_eq_true, decide_eq_true_iff, decide_eq_true_iff,
    decide_eq_true_iff]
  exact and_congr_right fun _ => Address.hexPrefixed_inj

theorem RowsOf.any_same (h : RowsOf rows box) (v : Address) (p : Proposal) :
    (rows.any fun r => r.key = p.key && r.origin = v.hexPrefixed)
      = box.any (Ballot.same Proposal.key v p) := by
  rw [Bool.eq_iff_iff, List.any_eq_true, List.any_eq_true]
  constructor
  · rintro ⟨r, hr, hsame⟩
    have hkey : r.key = p.key := by
      simp only [Bool.and_eq_true, decide_eq_true_eq] at hsame
      exact hsame.1
    have hmem : r ∈ box.map voteRow := by
      rw [← h.votes]
      exact List.mem_filter.mpr ⟨hr, h.isVote_of_key hr hkey⟩
    obtain ⟨b, hb, rfl⟩ := List.mem_map.mp hmem
    exact ⟨b, hb, (same_voteRow b v p).symm.trans hsame⟩
  · rintro ⟨b, hb, hsame⟩
    exact ⟨voteRow b, mem_voteRow h hb, (same_voteRow b v p).trans hsame⟩

theorem filter_replaced (h : RowsOf rows box) (v : Address) (p : Proposal) (limit : Int) :
    (rows.map fun r =>
        if r.key = p.key && r.origin = v.hexPrefixed then
          { r with value := p.value, origin := v.hexPrefixed, blockLimit := some limit }
        else r).filter CommitteeRow.isVote
      = (box.map fun b => if b.same Proposal.key v p then ⟨v, p, limit⟩ else b).map voteRow := by
  rw [List.filter_map]
  have hvotes : rows.filter (CommitteeRow.isVote ∘ fun r =>
      if r.key = p.key && r.origin = v.hexPrefixed then
        { r with value := p.value, origin := v.hexPrefixed, blockLimit := some limit }
      else r) = rows.filter CommitteeRow.isVote := by
    refine List.filter_congr fun r hr => ?_
    simp only [Function.comp]
    split
    · rename_i hsame
      simp only [Bool.and_eq_true, decide_eq_true_eq] at hsame
      rw [h.isVote_of_key hr hsame.1]
      rfl
    · rfl
  rw [hvotes, h.votes, List.map_map, List.map_map]
  refine List.map_congr_left fun b _ => ?_
  simp only [Function.comp, same_voteRow]
  cases hsame : b.same Proposal.key v p with
  | false => simp
  | true =>
    have hb : b.proposal.key = p.key ∧ b.voter = v := of_decide_eq_true hsame
    simp [voteRow, hb.1]

/-- **`recordVote` records a ballot.** -/
theorem filter_recordRows (h : RowsOf rows box) (number : Int) (v : Address) (p : Proposal) :
    (recordRows number rows p.key p.value v.hexPrefixed).filter CommitteeRow.isVote
      = (record Proposal.key number (number + c_voteValidLimit) v p box).map voteRow := by
  have hexpired : (fun b : Ballot Address Proposal =>
        !decide (b.proposal.key = p.key ∧ b.limit ≤ number))
      = (fun r : CommitteeRow => !(decide (r.key = p.key) && r.blockLimit.any (· ≤ number)))
        ∘ voteRow := by
    funext b
    rw [Bool.eq_iff_iff, Function.comp, Bool.not_eq_true', Bool.not_eq_true', decide_eq_false_iff_not,
      ← Bool.not_eq_true, Bool.and_eq_true, decide_eq_true_iff]
    simp only [voteRow, Option.any_some, decide_eq_true_eq]
  unfold recordRows record
  rw [List.filter_comm, hexpired, ← List.filter_map, h.any_same]
  congr 1
  split
  · exact filter_replaced h v p _
  · rw [List.filter_append, h.votes, List.map_append]
    rfl

theorem RowsOf.record (h : RowsOf rows box) (number : Int) (v : Address) (p : Proposal) :
    RowsOf (recordRows number rows p.key p.value v.hexPrefixed)
      (record Proposal.key number (number + c_voteValidLimit) v p box) where
  votes := filter_recordRows h number v p
  others := by
    intro r hr hvote
    have hplaces := (List.mem_filter.mp hr).1
    split at hplaces
    · obtain ⟨q, hq, rfl⟩ := List.mem_map.mp hplaces
      by_cases hsame : (decide (q.key = p.key) && decide (q.origin = v.hexPrefixed)) = true
      · rw [if_pos hsame] at hvote
        cases hvote
      · rw [if_neg hsame] at hvote ⊢
        exact h.others q hq hvote
    · rcases List.mem_append.mp hplaces with hold | hnew
      · exact h.others r hold hvote
      · rw [List.mem_singleton.mp hnew] at hvote
        cases hvote

/-- **`deleteUsedVotes` uses the ballots of a proposal.** -/
theorem RowsOf.use (h : RowsOf rows box) (p : Proposal) :
    RowsOf (rows.filter fun r => !(r.key = p.key && r.value = p.value)) (use p box) where
  votes := by
    rw [List.filter_comm, h.votes, List.filter_map, Ballots.use]
    refine congrArg _ (List.filter_congr fun b _ => ?_)
    rw [Bool.eq_iff_iff, Function.comp, Bool.not_eq_true', ← Bool.not_eq_true, Bool.and_eq_true,
      decide_eq_true_iff, decide_eq_true_iff, decide_eq_true_iff]
    refine not_congr ⟨fun hboth => Proposal.eq_of_key_value hboth.1 hboth.2, ?_⟩
    rintro rfl
    exact ⟨rfl, rfl⟩
  others r hr := h.others r (List.mem_filter.mp hr).1

theorem RowsOf.counted (h : RowsOf rows box) (number : Int) (p : Proposal) :
    rows.filter (fun r => r.key = p.key && (r.value = p.value && r.blockLimit.any (number + 1 ≤ ·)))
      = (counted number p box).map voteRow := by
  have hvotes : rows.filter (fun r => r.key = p.key
        && (r.value = p.value && r.blockLimit.any (number + 1 ≤ ·)))
      = (rows.filter CommitteeRow.isVote).filter fun r => r.key = p.key
        && (r.value = p.value && r.blockLimit.any (number + 1 ≤ ·)) := by
    rw [List.filter_filter]
    refine List.filter_congr fun r hr => ?_
    by_cases hkey : r.key = p.key
    · rw [h.isVote_of_key hr hkey, Bool.and_true]
    · simp [hkey]
  rw [hvotes, h.votes, List.filter_map, Ballots.counted]
  refine congrArg _ (List.filter_congr fun b _ => ?_)
  rw [Bool.eq_iff_iff, Function.comp, Bool.and_eq_true, Bool.and_eq_true, decide_eq_true_iff,
    decide_eq_true_iff, decide_eq_true_iff]
  simp only [voteRow, Option.any_some, decide_eq_true_eq, Int.add_one_le_iff]
  constructor
  · rintro ⟨hkey, hvalue, hlimit⟩
    exact ⟨Proposal.eq_of_key_value hkey hvalue, hlimit⟩
  · rintro ⟨rfl, hlimit⟩
    exact ⟨rfl, rfl, hlimit⟩

end RowsOf

/-! ### The decision -/

structure Committee where
  members : List Address
  weight : Address → ℚ
  threshold : ℚ

namespace Committee

def total (c : Committee) : ℚ := (c.members.map c.weight).sum

/-- The weight of the members whose vote for the proposal stands and has not run out. -/
def inFavour (c : Committee) (history : List (Event Address Proposal)) (now : Int) (p : Proposal) : ℚ :=
  ((c.members.filter fun a => holds Proposal.key history now a p).map c.weight).sum

end Committee

def weightIn (rows : List CommitteeRow) (a : Address) : ℚ :=
  ((rows.filter fun r => r.key = weightKey a).head?.bind fun r => r.value.number).getD 0

def thresholdIn (rows : List CommitteeRow) : ℚ :=
  ((rows.filter fun r => r.key = CGP_AUTH_THRESHOLD).head?.bind fun r => r.value.number).getD (1 / 2)

/-- The committee of these members with the weights and the threshold of the table. -/
def committeeOf (members : List Address) (rows : List CommitteeRow) : Committee where
  members := members
  weight := weightIn rows
  threshold := thresholdIn rows

theorem weightOf_members (members : List Address) (w : Address → ℚ) (a : Address) :
    weightOf (members.map fun b => (b.hexPrefixed, w b)) a.hexPrefixed
      = if a ∈ members then w a else 0 := by
  have hlookup : ∀ l : List Address, (l.map fun b => (b.hexPrefixed, w b)).lookup a.hexPrefixed
      = if a ∈ l then some (w a) else none := by
    intro l
    induction l with
    | nil => rfl
    | cons b l ih =>
      rw [List.map_cons, List.lookup_cons, ih]
      by_cases hb : a = b
      · simp [hb]
      · have htext : a.hexPrefixed ≠ b.hexPrefixed := fun h => hb (Address.hexPrefixed_injective h)
        simp [beq_false_of_ne htext, hb]
  rw [weightOf, ← List.map_reverse, hlookup]
  by_cases ha : a ∈ members <;> simp [ha]

section Validate

variable {version : Nat} (hversion : V2_5_0 ≤ version)
include hversion

theorem memberWeights_eq {t : CommitteeTable} {entries : List AccessRow} {members : List Address}
    (hentries : entries.map AccessRow.address = members.map Address.hexPrefixed)
    (hweights : ∀ a ∈ members, ∃ r ∈ (t.rows.filter fun r => r.key = weightKey a).head?,
      r.value.number.isSome = true) :
    memberWeights version t entries
      = some (members.map fun a => (a.hexPrefixed, weightIn t.rows a)) := by
  induction entries generalizing members with
  | nil =>
    rw [List.map_nil, eq_comm, List.map_eq_nil_iff] at hentries
    rw [hentries]
    rfl
  | cons entry entries ih =>
    cases members with
    | nil => cases hentries
    | cons a members =>
      rw [List.map_cons, List.map_cons, List.cons.injEq] at hentries
      obtain ⟨r, hr, hnumber⟩ := hweights a List.mem_cons_self
      obtain ⟨w, hw⟩ := Option.isSome_iff_exists.mp hnumber
      have hrest := ih hentries.2 fun b hb => hweights b (List.mem_cons_of_mem a hb)
      have hhead : (t.rows.filter fun r => r.key = entry.address ++ CGP_WEIGTH_SUFFIX).head? = some r := by
        rw [hentries.1]
        exact hr
      have hweight : weightIn t.rows a = w := by
        have hhead' : (t.rows.filter fun r => r.key = weightKey a).head? = some r := hr
        simp [weightIn, hhead', hw]
      rw [memberWeights] at hrest ⊢
      rw [List.mapM_cons, t.select_eq hversion, hhead, hrest]
      simp [hw, hweight, hentries.1]

/-- **`validate` compares the weight in favour with the whole.** -/
theorem validate_eq {access : AccessTable} {t : CommitteeTable} {members : List Address}
    {box : List (Ballot Address Proposal)} {history : List (Event Address Proposal)} {number : Int}
    (hmembers : (access.rows.filter AccessRow.isMember).map AccessRow.address
      = members.map Address.hexPrefixed)
    (hne : members ≠ []) (hdistinct : members.Nodup)
    (henabled : ∀ r ∈ access.rows, r.isMember = true → r.enableNum ≤ number + 1)
    (hrows : RowsOf t.rows box) (hmatches : Matches Proposal.key number history box)
    (hweights : ∀ a ∈ members, ∃ r ∈ (t.rows.filter fun r => r.key = weightKey a).head?,
      r.value.number.isSome = true)
    (hthreshold : ∃ r ∈ (t.rows.filter fun r => r.key = CGP_AUTH_THRESHOLD).head?,
      r.value.number.isSome = true) (p : Proposal) :
    validate version access t p.key p.value (number + 1)
      = some (moreThan ((committeeOf members t.rows).inFavour history number p)
          (committeeOf members t.rows).total (committeeOf members t.rows).threshold) := by
  have hentries : (access.select version fun r => r.isMember && r.enableNum ≤ number + 1)
      = access.rows.filter AccessRow.isMember := by
    rw [access.select_eq hversion]
    refine List.filter_congr fun r hr => ?_
    cases hmember : r.isMember with
    | false => rfl
    | true => simp [henabled r hr hmember]
  have hsome : (access.rows.filter AccessRow.isMember).isEmpty = false := by
    cases hfilter : access.rows.filter AccessRow.isMember with
    | nil =>
      rw [hfilter, List.map_nil, eq_comm, List.map_eq_nil_iff] at hmembers
      exact absurd hmembers hne
    | cons r rows => rfl
  have htotal : ((members.map fun a => (a.hexPrefixed, weightIn t.rows a)).map Prod.snd).sum
      = (committeeOf members t.rows).total := by
    rw [List.map_map]
    rfl
  have hvotes : ((t.select version fun r => r.key = p.key
        && (r.value = p.value && r.blockLimit.any (number + 1 ≤ ·))).map fun r =>
          weightOf (members.map fun a => (a.hexPrefixed, weightIn t.rows a)) r.origin).sum
      = (committeeOf members t.rows).inFavour history number p := by
    rw [t.select_eq hversion, hrows.counted number p, List.map_map]
    refine Eq.trans (congrArg _ (List.map_congr_left fun b _ => ?_))
      (hmatches.sum_counted hdistinct (weightIn t.rows) p)
    exact weightOf_members members (weightIn t.rows) b.voter
  have hthresholdIn : authThreshold version t = some (committeeOf members t.rows).threshold := by
    obtain ⟨r, hr, hnumber⟩ := hthreshold
    obtain ⟨x, hx⟩ := Option.isSome_iff_exists.mp hnumber
    rw [authThreshold, t.select_eq hversion]
    cases hfilter : t.rows.filter fun r => r.key = CGP_AUTH_THRESHOLD with
    | nil => simp [hfilter] at hr
    | cons entry entries =>
      have hentry : entry = r := by simpa [hfilter] using hr
      simp [committeeOf, thresholdIn, hfilter, hentry, hx]
  unfold validate
  simp only [hentries, hsome, memberWeights_eq hversion hmembers hweights, hvotes, hthresholdIn,
    htotal, Option.bind_eq_bind, Option.bind_some, Bool.false_eq_true, if_false]

end Validate

end HieraChain.Governance
