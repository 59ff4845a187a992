/-
  HieraChain/Ballots.lean
  =======================
  **Votes that can be replaced, run out and be used up.**

  A history, newest event first, says who voted for what and until when, and
  which proposals were carried and so used up their votes.  `standing` reads off
  the vote of a voter on a topic: the last one, unless its proposal was carried
  after it.  Proposals on one topic exclude each other, a voter has one vote on
  a topic.

  A box of ballots in which a new vote replaces the voter's old one on the topic,
  and from which the ballots of a carried proposal are taken, agrees with the
  history (`Matches.record`, `Matches.use`), and counting its ballots weighs
  every voter with a standing vote once (`Matches.sum_counted`).
-/
import Mathlib.Algebra.Order.BigOperators.Group.List
import Mathlib.Data.List.Nodup
import Mathlib.Algebra.Ring.Rat

namespace HieraChain.Ballots

variable {V P K : Type} [DecidableEq V] [DecidableEq P] [DecidableEq K] (topic : P → K)

/-! ### Histories -/

inductive Event (V P : Type)
  | cast (voter : V) (proposal : P) (limit : Int)
  | used (proposal : P)
  deriving DecidableEq

def standing : List (Event V P) → V → K → Option (P × Int)
  | [], _, _ => none
  | .cast voter proposal limit :: history, v, k =>
    if voter = v ∧ topic proposal = k then some (proposal, limit) else standing history v k
  | .used proposal :: history, v, k => (standing history v k).filter fun vote => vote.1 ≠ proposal

def holds (history : List (Event V P)) (now : Int) (v : V) (p : P) : Bool :=
  (standing topic history v (topic p)).any fun vote => vote.1 = p ∧ now < vote.2

theorem holds_iff {history : List (Event V P)} {now : Int} {v : V} {p : P} :
    holds topic history now v p = true
      ↔ ∃ limit, now < limit ∧ standing topic history v (topic p) = some (p, limit) := by
  unfold holds
  cases h : standing topic history v (topic p) with
  | none => simp
  | some vote =>
    obtain ⟨q, limit⟩ := vote
    simp only [Option.any_some, decide_eq_true_eq, Option.some.injEq, Prod.mk.injEq]
    constructor
    · rintro ⟨rfl, hlimit⟩
      exact ⟨limit, hlimit, rfl, rfl⟩
    · rintro ⟨l, hlimit, rfl, rfl⟩
      exact ⟨rfl, hlimit⟩

/-! ### Boxes -/

structure Ballot (V P : Type) where
  voter : V
  proposal : P
  limit : Int
  deriving DecidableEq

def Ballot.same (v : V) (p : P) (b : Ballot V P) : Bool := topic b.proposal = topic p ∧ b.voter = v

/-- A new vote replaces the voter's old one on the topic; then the ballots on the
    topic that have run out are removed. -/
def record (now limit : Int) (v : V) (p : P) (box : List (Ballot V P)) : List (Ballot V P) :=
  (if box.any (Ballot.same topic v p) then
      box.map fun b => if b.same topic v p then ⟨v, p, limit⟩ else b
    else box ++ [⟨v, p, limit⟩]).filter fun b => !(topic b.proposal = topic p ∧ b.limit ≤ now)

def use (p : P) (box : List (Ballot V P)) : List (Ballot V P) := box.filter fun b => b.proposal ≠ p

def counted (now : Int) (p : P) (box : List (Ballot V P)) : List (Ballot V P) :=
  box.filter fun b => b.proposal = p ∧ now < b.limit

/-- The box has, besides ballots that have run out, the standing votes, one
    ballot for each voter and topic. -/
structure Matches (now : Int) (history : List (Event V P)) (box : List (Ballot V P)) : Prop where
  distinct : (box.map fun b => (b.voter, topic b.proposal)).Nodup
  standing_iff : ∀ b : Ballot V P, now < b.limit →
    (b ∈ box ↔ standing topic history b.voter (topic b.proposal) = some (b.proposal, b.limit))

variable {topic} {now : Int} {history : List (Event V P)} {box : List (Ballot V P)}

theorem Matches.nil (now : Int) : Matches topic now ([] : List (Event V P)) [] where
  distinct := List.nodup_nil
  standing_iff := by simp [standing]

theorem Matches.later {now' : Int} (h : Matches topic now history box) (hnow : now ≤ now') :
    Matches topic now' history box where
  distinct := h.distinct
  standing_iff b hlimit := h.standing_iff b (lt_of_le_of_lt hnow hlimit)

theorem Matches.eq_of_same (h : Matches topic now history box) {b c : Ballot V P} (hb : b ∈ box)
    (hc : c ∈ box) (hvoter : b.voter = c.voter) (htopic : topic b.proposal = topic c.proposal) :
    b = c :=
  List.inj_on_of_nodup_map h.distinct hb hc (Prod.ext hvoter htopic)

omit [DecidableEq P] in
theorem mem_voted {v : V} {p : P} {limit : Int} {b : Ballot V P} :
    b ∈ (if box.any (Ballot.same topic v p) then
        box.map fun b => if b.same topic v p then ⟨v, p, limit⟩ else b
      else box ++ [⟨v, p, limit⟩])
      ↔ b = ⟨v, p, limit⟩ ∨ b ∈ box ∧ b.same topic v p = false := by
  by_cases hany : box.any (Ballot.same topic v p) = true
  · rw [if_pos hany, List.mem_map]
    constructor
    · rintro ⟨c, hc, rfl⟩
      cases hsame : c.same topic v p with
      | true => exact .inl (by simp)
      | false => exact .inr (by simpa [hsame] using hc)
    · rintro (rfl | ⟨hb, hsame⟩)
      · obtain ⟨c, hc, hsame⟩ := List.any_eq_true.mp hany
        exact ⟨c, hc, by simp [hsame]⟩
      · exact ⟨b, hb, by simp [hsame]⟩
  · rw [if_neg hany, List.mem_append, List.mem_singleton, or_comm]
    refine or_congr_right ⟨fun hb => ⟨hb, ?_⟩, And.left⟩
    exact eq_false_of_ne_true fun hsame => hany (List.any_eq_true.mpr ⟨b, hb, hsame⟩)

omit [DecidableEq P] in
theorem mem_record {v : V} {p : P} {limit : Int} {b : Ballot V P} :
    b ∈ record topic now limit v p box
      ↔ (b = ⟨v, p, limit⟩ ∨ b ∈ box ∧ b.same topic v p = false)
        ∧ ¬ (topic b.proposal = topic p ∧ b.limit ≤ now) := by
  rw [record, List.mem_filter, mem_voted, Bool.not_eq_true', decide_eq_false_iff_not]

/-- **A recorded vote is the voter's standing vote.** -/
theorem Matches.record (h : Matches topic now history box) {v : V} {p : P} {limit : Int} :
    Matches topic now (.cast v p limit :: history) (record topic now limit v p box) where
  distinct := by
    refine List.Nodup.sublist (List.filter_sublist.map _) ?_
    split
    · have hkeys : ((box.map fun b => if b.same topic v p then (⟨v, p, limit⟩ : Ballot V P) else b).map
          fun b => (b.voter, topic b.proposal)) = box.map fun b => (b.voter, topic b.proposal) := by
        rw [List.map_map]
        refine List.map_congr_left fun b _ => ?_
        cases hsame : b.same topic v p with
        | false => simp [hsame]
        | true =>
          have hb : topic b.proposal = topic p ∧ b.voter = v := of_decide_eq_true hsame
          simp [hsame, hb.1, hb.2]
      rw [hkeys]
      exact h.distinct
    · rename_i hany
      rw [List.map_append, List.nodup_append']
      refine ⟨h.distinct, List.nodup_singleton _, ?_⟩
      intro key hkey hnew
      obtain ⟨b, hb, rfl⟩ := List.mem_map.mp hkey
      simp only [List.map_cons, List.map_nil, List.mem_singleton, Prod.mk.injEq] at hnew
      exact hany (List.any_eq_true.mpr ⟨b, hb, decide_eq_true ⟨hnew.2, hnew.1⟩⟩)
  standing_iff b hlimit := by
    rw [mem_record, standing]
    have hfresh : ¬ (topic b.proposal = topic p ∧ b.limit ≤ now) := fun hrun =>
      absurd hlimit (not_lt.mpr hrun.2)
    simp only [hfresh, not_false_eq_true, and_true]
    by_cases hsame : b.same topic v p = true
    · have hb : topic b.proposal = topic p ∧ b.voter = v := of_decide_eq_true hsame
      obtain ⟨voter, proposal, l⟩ := b
      simp only at hb
      obtain ⟨htopic, rfl⟩ := hb
      simp only [hsame, Bool.true_eq_false, and_false, or_false, htopic, and_self, if_true]
      constructor
      · intro heq
        cases heq
        rfl
      · intro heq
        cases heq
        rfl
    · have hother : ¬ (v = b.voter ∧ topic p = topic b.proposal) := fun hb =>
        hsame (decide_eq_true ⟨hb.2.symm, hb.1.symm⟩)
      rw [if_neg hother, ← h.standing_iff b hlimit]
      constructor
      · rintro (rfl | ⟨hb, -⟩)
        · exact absurd (by simp [Ballot.same]) hsame
        · exact hb
      · exact fun hb => .inr ⟨hb, eq_false_of_ne_true hsame⟩

/-- **The votes of a carried proposal stand no longer.** -/
theorem Matches.use (h : Matches topic now history box) (p : P) :
    Matches topic now (.used p :: history) (use p box) where
  distinct := h.distinct.sublist (List.filter_sublist.map _)
  standing_iff b hlimit := by
    rw [Ballots.use, List.mem_filter, h.standing_iff b hlimit, standing, Option.filter_eq_some_iff]

/-! ### Counting -/

theorem sum_filter_mem {names voters : List V} (hnames : names.Nodup) (hvoters : voters.Nodup)
    (w : V → ℚ) :
    (names.map fun v => if v ∈ voters then w v else 0).sum
      = ((voters.filter fun v => v ∈ names).map w).sum := by
  have hrestrict : (names.map fun v => if v ∈ voters then w v else 0).sum
      = ((names.filter fun v => v ∈ voters).map w).sum := by
    clear hnames
    induction names with
    | nil => rfl
    | cons v names ih =>
      by_cases hv : v ∈ voters <;> simp [hv, ih]
  rw [hrestrict]
  refine List.Perm.sum_eq (List.Perm.map w ?_)
  refine (List.perm_ext_iff_of_nodup (hnames.filter _) (hvoters.filter _)).mpr fun v => ?_
  simp [and_comm]

/-- **Every voter with a standing vote is counted once.** -/
theorem Matches.sum_counted (h : Matches topic now history box) {voters : List V}
    (hvoters : voters.Nodup) (w : V → ℚ) (p : P) :
    ((counted now p box).map fun b => if b.voter ∈ voters then w b.voter else 0).sum
      = ((voters.filter fun v => holds topic history now v p).map w).sum := by
  have hnames : ((counted now p box).map Ballot.voter).Nodup := by
    refine List.Nodup.map_on (fun b hb c hc hvoter => ?_)
      ((List.Nodup.of_map _ h.distinct).filter _)
    have hb' := List.mem_filter.mp hb
    have hc' := List.mem_filter.mp hc
    simp only [Bool.decide_and, Bool.and_eq_true, decide_eq_true_eq] at hb' hc'
    exact h.eq_of_same hb'.1 hc'.1 hvoter (by rw [hb'.2.1, hc'.2.1])
  have hsum := sum_filter_mem hnames hvoters w
  rw [List.map_map] at hsum
  refine Eq.trans hsum (congrArg _ (congrArg _ (List.filter_congr fun v _ => ?_)))
  rw [Bool.eq_iff_iff, decide_eq_true_iff, holds_iff, List.mem_map]
  constructor
  · rintro ⟨b, hb, rfl⟩
    obtain ⟨hmem, hb⟩ := List.mem_filter.mp hb
    obtain ⟨rfl, hlimit⟩ := of_decide_eq_true hb
    exact ⟨b.limit, hlimit, (h.standing_iff b hlimit).mp hmem⟩
  · rintro ⟨limit, hlimit, hstanding⟩
    have hmem := (h.standing_iff ⟨v, p, limit⟩ hlimit).mpr hstanding
    exact ⟨⟨v, p, limit⟩, List.mem_filter.mpr ⟨hmem, decide_eq_true ⟨rfl, hlimit⟩⟩, rfl⟩

end HieraChain.Ballots
