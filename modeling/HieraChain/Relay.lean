/-
  HieraChain/Relay.lean
  =====================
  **A message that is passed on.**

  A starter sends a message, and whoever it is delivered to sends it to a list
  of its own, leaving out the one it has it from.  Messages are delivered in any
  order.  Where the lists form a forest (`Forest`) nobody is sent the message
  twice, a run cannot deliver more messages than there are receivers
  (`delivered_le`), and once nothing is in flight those that the lists reach have
  been sent it exactly once (`sent_once`).
-/
import Mathlib.Data.Finset.Dedup
import Mathlib.Data.Fintype.Card
import HieraChain.Machine

namespace HieraChain.Relay

variable {α : Type} [DecidableEq α]

/-! ### Networks -/

structure Network (α : Type) where
  delivered : List (α × α)
  inFlight : List (α × α)

def Network.sent (s : Network α) : List (α × α) := s.delivered ++ s.inFlight

def begin (a : α) (first : List α) : Network α where
  delivered := []
  inFlight := first.map fun b => (a, b)

def forward (next : α → List α) (m : α × α) : List (α × α) :=
  ((next m.2).filter (· ≠ m.1)).map fun b => (m.2, b)

def relay (next : α → List α) : Machine (Network α) Nat where
  step s k :=
    match s.inFlight[k]? with
    | none => s
    | some m =>
      { delivered := s.delivered ++ [m]
        inFlight := s.inFlight.eraseIdx k ++ forward next m }

def Delivers (s : Network α) (k : Nat) : Prop := k < s.inFlight.length

instance (s : Network α) (k : Nat) : Decidable (Delivers s k) := inferInstanceAs (Decidable (_ < _))

/-! ### Forests -/

/-- The lists of the members `S` and of the starter form a forest. -/
structure Forest (next : α → List α) (a : α) (first : List α) (S : α → Prop) (rank : α → Nat) : Prop where
  starter : ¬ S a
  first_mem : ∀ b ∈ first, S b
  first_nodup : first.Nodup
  next_mem : ∀ q b, S q → b ∈ next q → S b
  next_nodup : ∀ q, S q → (next q).Nodup
  rank_lt : ∀ q b, S q → b ∈ next q → rank q < rank b
  parent_unique : ∀ q q' b, S q → S q' → b ∈ next q → b ∈ next q' → q = q'
  first_only : ∀ q b, S q → b ∈ next q → b ∉ first

inductive Reached (next : α → List α) (first : List α) : α → Prop
  | first {b : α} (h : b ∈ first) : Reached next first b
  | next {q b : α} (hq : Reached next first q) (h : b ∈ next q) : Reached next first b

/-- Who sends the message to `b`. -/
def Sends (next : α → List α) (a : α) (first : List α) (S : α → Prop) (m : α × α) : Prop :=
  (m.1 = a ∧ m.2 ∈ first) ∨ (S m.1 ∧ m.2 ∈ next m.1)

variable {next : α → List α} {a : α} {first : List α} {S : α → Prop} {rank : α → Nat}

omit [DecidableEq α] in
theorem Forest.reached (F : Forest next a first S rank) {b : α} (h : Reached next first b) : S b := by
  induction h with
  | first h => exact F.first_mem _ h
  | next _ h ih => exact F.next_mem _ _ ih h

omit [DecidableEq α] in
theorem Forest.sends (F : Forest next a first S rank) {m : α × α} (h : Sends next a first S m) : S m.2 := by
  obtain ⟨-, hfirst⟩ | ⟨hS, hnext⟩ := h
  · exact F.first_mem _ hfirst
  · exact F.next_mem _ _ hS hnext

theorem Forest.forward_eq (F : Forest next a first S rank) {m : α × α} (h : Sends next a first S m) :
    forward next m = (next m.2).map fun b => (m.2, b) := by
  rw [forward, List.filter_eq_self.mpr]
  intro b hb
  rw [decide_eq_true_eq]
  rintro rfl
  have hmember := F.sends h
  obtain ⟨hstarter, -⟩ | ⟨hS, hnext⟩ := h
  · exact F.starter (hstarter ▸ F.next_mem _ _ hmember hb)
  · exact absurd (lt_trans (F.rank_lt _ _ hS hnext) (F.rank_lt _ _ hmember hb)) (lt_irrefl _)

/-! ### Runs -/

structure Passed (next : α → List α) (a : α) (first : List α) (S : α → Prop) (s : Network α) : Prop where
  sent : s.sent.Perm ((first.map fun b => (a, b)) ++ s.delivered.flatMap fun m => (next m.2).map fun b => (m.2, b))
  sends : ∀ m ∈ s.sent, Sends next a first S m
  reached : ∀ m ∈ s.sent, Reached next first m.2

omit [DecidableEq α] in
theorem begin_passed : Passed next a first S (begin a first) where
  sent := by
    rw [Network.sent, begin, List.nil_append, List.flatMap_nil, List.append_nil]
  sends := by
    rintro m hm
    obtain ⟨b, hb, rfl⟩ := List.mem_map.mp hm
    exact Or.inl ⟨rfl, hb⟩
  reached := by
    rintro m hm
    obtain ⟨b, hb, rfl⟩ := List.mem_map.mp hm
    exact .first hb

theorem passed_step (F : Forest next a first S rank) (s : Network α) (k : Nat) (h : Passed next a first S s) :
    Passed next a first S ((relay next).step s k) := by
  rw [show (relay next).step s k = (match s.inFlight[k]? with
    | none => s
    | some m => ⟨s.delivered ++ [m], s.inFlight.eraseIdx k ++ forward next m⟩) from rfl]
  cases hk : s.inFlight[k]? with
  | none => exact h
  | some m =>
    obtain ⟨hlt, hget⟩ := List.getElem?_eq_some_iff.mp hk
    have hmem : m ∈ s.sent := List.mem_append_right _ (hget ▸ List.getElem_mem hlt)
    have hforward := F.forward_eq (h.sends m hmem)
    have hmember := F.sends (h.sends m hmem)
    have hflight : s.inFlight.Perm (m :: s.inFlight.eraseIdx k) := by
      rw [← hget]
      exact (List.getElem_cons_eraseIdx_perm hlt).symm
    have hperm : (s.delivered ++ [m] ++ (s.inFlight.eraseIdx k ++ forward next m)).Perm
        (s.sent ++ (next m.2).map fun b => (m.2, b)) := by
      rw [hforward, Network.sent, List.append_assoc, List.append_assoc, List.singleton_append]
      apply List.Perm.append_left
      rw [← List.cons_append]
      exact hflight.symm.append_right _
    constructor
    · refine hperm.trans ?_
      rw [List.flatMap_append, List.flatMap_singleton, ← List.append_assoc]
      exact h.sent.append_right _
    · intro m' hm'
      rcases List.mem_append.mp (hperm.mem_iff.mp hm') with hold | hnew
      · exact h.sends m' hold
      · obtain ⟨b, hb, rfl⟩ := List.mem_map.mp hnew
        exact Or.inr ⟨hmember, hb⟩
    · intro m' hm'
      rcases List.mem_append.mp (hperm.mem_iff.mp hm') with hold | hnew
      · exact h.reached m' hold
      · obtain ⟨b, hb, rfl⟩ := List.mem_map.mp hnew
        exact .next (h.reached m hmem) hb

theorem passed_run (F : Forest next a first S rank) (ks : List Nat) :
    Passed next a first S ((relay next).run (begin a first) ks) :=
  (relay next).run_preserves (passed_step F) begin_passed ks

/-! ### How often -/

/-- How often `b` is a receiver. -/
def times (b : α) (ms : List (α × α)) : Nat := (ms.map Prod.snd).count b

theorem times_append (b : α) (ms ms' : List (α × α)) : times b (ms ++ ms') = times b ms + times b ms' := by
  rw [times, List.map_append, List.count_append, times, times]

theorem times_pairs (a b : α) (bs : List α) : times b (bs.map fun b' => (a, b')) = bs.count b := by
  rw [times, List.map_map]
  congr 1
  exact List.map_id bs

theorem times_perm {b : α} {ms ms' : List (α × α)} (h : ms.Perm ms') : times b ms = times b ms' :=
  (h.map _).count_eq b

theorem Forest.times_passed (F : Forest next a first S rank) {q b : α} (hq : S q) (hb : b ∈ next q)
    (ms : List (α × α)) (hms : ∀ m ∈ ms, S m.2) :
    times b (ms.flatMap fun m => (next m.2).map fun b' => (m.2, b')) = times q ms := by
  induction ms with
  | nil => rfl
  | cons m ms ih =>
    obtain ⟨hm, hms⟩ := List.forall_mem_cons.mp hms
    rw [List.flatMap_cons, times_append, times_pairs, ih hms, times, times, List.map_cons, List.count_cons]
    by_cases heq : m.2 = q
    · rw [heq, List.count_eq_one_of_mem (F.next_nodup q hq) hb, beq_self_eq_true, if_pos rfl, Nat.add_comm]
    · have hnot : b ∉ next m.2 := fun hmem => heq (F.parent_unique _ _ _ hm hq hmem hb)
      rw [List.count_eq_zero_of_not_mem hnot, if_neg (by simpa using heq), Nat.zero_add, Nat.add_zero]

theorem Forest.times_not_passed {b : α} (ms : List (α × α)) (hms : ∀ m ∈ ms, b ∉ next m.2) :
    times b (ms.flatMap fun m => (next m.2).map fun b' => (m.2, b')) = 0 := by
  induction ms with
  | nil => rfl
  | cons m ms ih =>
    obtain ⟨hm, hms⟩ := List.forall_mem_cons.mp hms
    rw [List.flatMap_cons, times_append, times_pairs, ih hms, List.count_eq_zero_of_not_mem hm]

variable {s : Network α}

omit [DecidableEq α] in
theorem Passed.delivered_mem (F : Forest next a first S rank) (h : Passed next a first S s) :
    ∀ m ∈ s.delivered, S m.2 := fun m hm => F.sends (h.sends m (List.mem_append_left _ hm))

theorem Passed.times_first (F : Forest next a first S rank) (h : Passed next a first S s) {b : α} (hb : b ∈ first) :
    times b s.sent = 1 := by
  rw [times_perm h.sent, times_append, times_pairs, List.count_eq_one_of_mem F.first_nodup hb,
    Forest.times_not_passed]
  intro m hm hmem
  exact F.first_only _ _ (h.delivered_mem F m hm) hmem hb

theorem Passed.times_next (F : Forest next a first S rank) (h : Passed next a first S s) {q b : α} (hq : S q)
    (hb : b ∈ next q) : times b s.sent = times q s.delivered := by
  rw [times_perm h.sent, times_append, times_pairs, List.count_eq_zero_of_not_mem (F.first_only q b hq hb), Nat.zero_add,
    F.times_passed hq hb _ (h.delivered_mem F)]

/-- **Nobody is sent the message twice.** -/
theorem Passed.times_le (F : Forest next a first S rank) (h : Passed next a first S s) (b : α) :
    times b s.sent ≤ 1 := by
  induction hn : rank b using Nat.strong_induction_on generalizing b with
  | _ n ih =>
    subst hn
    by_cases hfirst : b ∈ first
    · rw [h.times_first F hfirst]
    by_cases hnext : ∃ q, S q ∧ b ∈ next q
    · obtain ⟨q, hq, hb⟩ := hnext
      have hparent := ih _ (F.rank_lt q b hq hb) q rfl
      rw [Network.sent, times_append] at hparent
      rw [h.times_next F hq hb]
      omega
    · rw [times_perm h.sent, times_append, times_pairs, List.count_eq_zero_of_not_mem hfirst,
        Forest.times_not_passed]
      · exact Nat.zero_le 1
      · intro m hm hmem
        exact hnext ⟨m.2, h.delivered_mem F m hm, hmem⟩

/-- **Once nothing is in flight, those that the lists reach have been sent it once.** -/
theorem Passed.sent_once (F : Forest next a first S rank) (h : Passed next a first S s) (hquiet : s.inFlight = [])
    {b : α} (hb : Reached next first b) : times b s.sent = 1 := by
  induction hb with
  | first hb => exact h.times_first F hb
  | next hq hb ih =>
    have hdelivered : s.delivered = s.sent := by
      rw [Network.sent, hquiet, List.append_nil]
    rw [h.times_next F (F.reached hq) hb, hdelivered]
    exact ih

theorem exists_message {b : α} {ms : List (α × α)} (h : times b ms = 1) :
    ∃ sender, ms.filter (·.2 = b) = [(sender, b)] := by
  have hlength : (ms.filter (·.2 = b)).length = 1 := by
    rw [← h, times, List.count, List.countP_map, List.countP_eq_length_filter]
    congr 2
  obtain ⟨m, hm⟩ := List.length_eq_one_iff.mp hlength
  have hmem : m ∈ ms.filter (·.2 = b) := hm ▸ List.mem_singleton_self m
  have hreceiver : m.2 = b := by simpa using (List.mem_filter.mp hmem).2
  exact ⟨m.1, by rw [hm, ← hreceiver]⟩

/-! ### Ends -/

theorem length_delivered (ks : List Nat) (s : Network α) (h : (relay next).RunOk Delivers s ks) :
    ((relay next).run s ks).delivered.length = s.delivered.length + ks.length := by
  induction ks generalizing s with
  | nil => rfl
  | cons k ks ih =>
    obtain ⟨hk, hrest⟩ := h
    have hstep : ((relay next).step s k).delivered = s.delivered ++ [s.inFlight[k]] := by
      simp only [relay, List.getElem?_eq_getElem hk]
    rw [Machine.run_cons, ih _ hrest, hstep, List.length_append, List.length_singleton, List.length_cons]
    omega

/-- **A run delivers no more messages than there are receivers.** -/
theorem delivered_le (F : Forest next a first S rank) {members : Finset α} (hmembers : ∀ b, S b → b ∈ members)
    {ks : List Nat} (hks : (relay next).RunOk Delivers (begin a first) ks) : ks.length ≤ members.card := by
  have h := passed_run F ks
  have hlength := length_delivered ks _ hks
  set s := (relay next).run (begin a first) ks
  have hnodup : (s.delivered.map Prod.snd).Nodup := by
    rw [List.nodup_iff_count_le_one]
    intro b
    have hle := h.times_le F b
    rw [Network.sent, times_append] at hle
    exact le_trans (Nat.le_add_right _ _) hle
  have hsubset : (s.delivered.map Prod.snd).toFinset ⊆ members := by
    intro b hb
    obtain ⟨m, hm, rfl⟩ := List.mem_map.mp (List.mem_toFinset.mp hb)
    exact hmembers _ (h.delivered_mem F m hm)
  have hcard := Finset.card_le_card hsubset
  rw [List.toFinset_card_of_nodup hnodup, List.length_map, hlength] at hcard
  exact le_trans (Nat.le_add_left _ _) hcard

theorem exists_quiet (F : Forest next a first S rank) {members : Finset α} (hmembers : ∀ b, S b → b ∈ members) :
    ∃ ks, ((relay next).run (begin a first) ks).inFlight = [] := by
  by_contra hnever
  have hlonger : ∀ n, ∃ ks, (relay next).RunOk Delivers (begin a first) ks ∧ ks.length = n := by
    intro n
    induction n with
    | zero => exact ⟨[], trivial, rfl⟩
    | succ n ih =>
      obtain ⟨ks, hks, hlength⟩ := ih
      have hmore : ((relay next).run (begin a first) ks).inFlight ≠ [] := fun h => hnever ⟨ks, h⟩
      refine ⟨ks ++ [0], Machine.RunOk.append.mpr ⟨hks, List.length_pos_iff.mpr hmore, trivial⟩, ?_⟩
      rw [List.length_append, hlength, List.length_singleton]
  obtain ⟨ks, hks, hlength⟩ := hlonger (members.card + 1)
  have := delivered_le F hmembers hks
  omega

end HieraChain.Relay
