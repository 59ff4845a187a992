/-
  HieraChain/PBFTVoteCount.lean
  =============================
  **What the request caches count.**

  Under one block hash the cache is a list of requests with distinct
  signatures.  `tally` says what `getSigCacheSize` and `getCommitCacheSize`
  count of it: every request that came in time, and the future ones whose
  signature verifies, of which sign requests count below the quorum only.
  Counting sets marks and changes no tally.  `Collected` says which signatures
  a list must hold, and `Collected.length_le` that they are all counted.
-/
import HieraChain.PBFTReqCache
import Mathlib.Data.List.Perm.Subperm

set_option linter.unusedSectionVars false

namespace HieraChain.PBFT

variable {H S T : Type}

/-! ### The tally -/

section Tally

variable (check : PBFTMsg H S → Bool)

def present (l : List (S × PBFTMsg H S)) : Nat := l.countP fun e => !e.2.isFuture

def verified (l : List (S × PBFTMsg H S)) : Nat :=
  l.countP fun e => e.2.isFuture && (e.2.signChecked || check e.2)

/-- How many of `v` future requests count. -/
def capped (need : Bool) (limit v : Nat) : Nat := if need then min limit v else v

/-- The count against a quorum of `n`, with future requests limited or not. -/
def tally (need : Bool) (n : Nat) (l : List (S × PBFTMsg H S)) : Nat :=
  present l + capped need (n - 1) (verified check l)

theorem capped_le (need : Bool) (limit v : Nat) : capped need limit v ≤ v := by
  unfold capped
  split_ifs
  · exact Nat.min_le_right _ _
  · exact le_rfl

theorem capped_of_reached {need : Bool} {limit k : Nat} (v : Nat)
    (h : (need && decide (limit ≤ k)) = true) : capped need (limit - k) v = 0 := by
  simp only [Bool.and_eq_true, decide_eq_true_eq] at h
  obtain ⟨rfl, hle⟩ := h
  simp [capped, Nat.sub_eq_zero_of_le hle]

theorem capped_succ {need : Bool} {limit k : Nat} (v : Nat)
    (h : ¬(need && decide (limit ≤ k)) = true) :
    capped need (limit - k) (v + 1) = capped need (limit - (k + 1)) v + 1 := by
  cases need with
  | false => rfl
  | true =>
    simp only [Bool.true_and, decide_eq_true_eq, not_le] at h
    simp only [capped, if_true]
    omega

section cons

variable {sig : S} {req : PBFTMsg H S} {rest : List (S × PBFTMsg H S)}

theorem present_cons_of_present (h : req.isFuture = false) :
    present ((sig, req) :: rest) = present rest + 1 := List.countP_cons_of_pos (by simp [h])

theorem present_cons_of_future (h : req.isFuture = true) :
    present ((sig, req) :: rest) = present rest := List.countP_cons_of_neg (by simp [h])

theorem verified_cons_of_verified (h : req.isFuture = true)
    (hcheck : req.signChecked = true ∨ check req = true) :
    verified check ((sig, req) :: rest) = verified check rest + 1 :=
  List.countP_cons_of_pos (by simpa [h] using hcheck)

theorem verified_cons_of_not (h : ¬(req.isFuture && (req.signChecked || check req)) = true) :
    verified check ((sig, req) :: rest) = verified check rest := List.countP_cons_of_neg h

end cons

theorem walkFutureReq_size (need : Bool) (limit k : Nat) (l : List (S × PBFTMsg H S)) :
    (walkFutureReq check need limit k l).2 =
      present l + capped need (limit - k) (verified check l) := by
  induction l generalizing k with
  | nil =>
    have hnone : capped need (limit - k) (verified check ([] : List (S × PBFTMsg H S))) = 0 :=
      Nat.le_zero.mp (capped_le need (limit - k) 0)
    rw [hnone]
    rfl
  | cons e rest ih =>
    obtain ⟨sig, req⟩ := e
    unfold walkFutureReq
    split_ifs with hpresent hlimit hchecked hsign
    · have hpresent : req.isFuture = false := by simpa using hpresent
      dsimp only
      rw [present_cons_of_present hpresent, verified_cons_of_not check (by simp [hpresent]), ih]
      omega
    · have hfuture : req.isFuture = true := by simpa using hpresent
      rw [present_cons_of_future hfuture, capped_of_reached _ hlimit]
      exact List.countP_eq_length_filter.symm
    · have hfuture : req.isFuture = true := by simpa using hpresent
      dsimp only
      rw [present_cons_of_future hfuture, verified_cons_of_verified check hfuture (.inl hchecked),
        capped_succ _ hlimit, ih]
      omega
    · have hfuture : req.isFuture = true := by simpa using hpresent
      dsimp only
      rw [present_cons_of_future hfuture, verified_cons_of_verified check hfuture (.inr hsign),
        capped_succ _ hlimit, ih]
      omega
    · have hfuture : req.isFuture = true := by simpa using hpresent
      dsimp only
      rw [present_cons_of_future hfuture, verified_cons_of_not check (by simp [hchecked, hsign]), ih]

/-! ### Marks -/

def Marked (e e' : S × PBFTMsg H S) : Prop :=
  e' = e ∨ (check e.2 = true ∧ e' = (e.1, { e.2 with signChecked := true }))

theorem walkFutureReq_marked (need : Bool) (limit k : Nat) (l : List (S × PBFTMsg H S)) :
    List.Forall₂ (Marked check) l (walkFutureReq check need limit k l).1 := by
  induction l generalizing k with
  | nil => exact .nil
  | cons e rest ih =>
    obtain ⟨sig, req⟩ := e
    unfold walkFutureReq
    split_ifs with hpresent hlimit hchecked hsign
    · exact .cons (.inl rfl) (ih k)
    · exact List.forall₂_same.mpr fun e _ => .inl rfl
    · exact .cons (.inl rfl) (ih (k + 1))
    · exact .cons (.inr ⟨hsign, rfl⟩) (ih (k + 1))
    · exact .cons (.inl rfl) (ih k)

variable {check} {l l' : List (S × PBFTMsg H S)}

theorem present_of_marked (h : List.Forall₂ (Marked check) l l') : present l' = present l := by
  induction h with
  | nil => rfl
  | cons hmark _ ih =>
    unfold present at ih ⊢
    rw [List.countP_cons, List.countP_cons, ih]
    rcases hmark with rfl | ⟨-, rfl⟩
    · rfl
    · rfl

theorem verified_of_marked (h : List.Forall₂ (Marked check) l l')
    (hcheck : ∀ req, check { req with signChecked := true } = check req) :
    verified check l' = verified check l := by
  induction h with
  | nil => rfl
  | cons hmark _ ih =>
    unfold verified at ih ⊢
    rw [List.countP_cons, List.countP_cons, ih]
    rcases hmark with rfl | ⟨hsign, rfl⟩
    · rfl
    · simp only [hsign, Bool.true_or, Bool.or_true]

theorem keys_of_marked (h : List.Forall₂ (Marked check) l l') :
    l'.map Prod.fst = l.map Prod.fst := by
  induction h with
  | nil => rfl
  | cons hmark _ ih =>
    rw [List.map_cons, List.map_cons, ih]
    rcases hmark with rfl | ⟨-, rfl⟩
    · rfl
    · rfl

theorem exists_of_marked (h : List.Forall₂ (Marked check) l l') {e' : S × PBFTMsg H S}
    (he' : e' ∈ l') : ∃ e ∈ l, Marked check e e' := by
  induction h with
  | nil => cases he'
  | cons hmark _ ih =>
    rcases List.mem_cons.mp he' with rfl | he'
    · exact ⟨_, List.mem_cons_self .., hmark⟩
    · obtain ⟨e, he, hmark⟩ := ih he'
      exact ⟨e, List.mem_cons_of_mem _ he, hmark⟩

theorem tally_of_marked (h : List.Forall₂ (Marked check) l l')
    (hcheck : ∀ req, check { req with signChecked := true } = check req) (need : Bool) (n : Nat) :
    tally check need n l' = tally check need n l := by
  unfold tally
  rw [present_of_marked h, verified_of_marked h hcheck]

theorem tally_append_present {need : Bool} {n : Nat} {e : S × PBFTMsg H S}
    (he : e.2.isFuture = false) :
    tally check need n (l ++ [e]) = tally check need n l + 1 := by
  simp only [tally, present, verified, List.countP_append, List.countP_singleton, he, Bool.not_false,
    if_true, Bool.false_and, Bool.false_eq_true, if_false, Nat.add_zero]
  omega

theorem present_add_verified : present l + verified check l =
    l.countP fun e => !e.2.isFuture || e.2.signChecked || check e.2 := by
  induction l with
  | nil => rfl
  | cons e rest ih =>
    unfold present verified at ih ⊢
    rw [List.countP_cons, List.countP_cons, List.countP_cons, ← ih]
    cases e.2.isFuture with
    | false =>
      simp
      omega
    | true =>
      simp
      omega

theorem tally_le_length (need : Bool) (n : Nat) : tally check need n l ≤ l.length := by
  have hall : present l + verified check l ≤ l.length := by
    rw [present_add_verified]
    exact List.countP_le_length
  exact le_trans (Nat.add_le_add_left (capped_le need (n - 1) _) _) hall

theorem tally_of_future (h : ∀ e ∈ l, e.2.isFuture = true) (n : Nat) :
    tally check true n l ≤ n - 1 := by
  have hnone : present l = 0 := by
    unfold present
    rw [List.countP_eq_zero]
    intro e he
    simp [h e he]
  unfold tally
  rw [hnone, Nat.zero_add]
  exact Nat.min_le_left _ _

theorem le_tally {need : Bool} {n : Nat} (hone : 0 < present l)
    (h : n ≤ present l + verified check l) : n ≤ tally check need n l := by
  unfold tally capped
  split_ifs
  · omega
  · exact h

/-! ### Signatures that a list must hold -/

/-- A request for the view that counts: it came in time or its signature verifies. -/
def Counted (check : PBFTMsg H S → Bool) (view : Int) (req : PBFTMsg H S) : Prop :=
  req.view = view ∧ (req.isFuture = false ∨ check req = true)

/-- The list holds the `handled` signatures; a request with one of the
    `expected` signatures counts. -/
structure Collected (check : PBFTMsg H S → Bool) (view : Int) (expected handled : List S)
    (l : List (S × PBFTMsg H S)) : Prop where
  nodup : (l.map Prod.fst).Nodup
  genuine : ∀ e ∈ l, e.1 ∈ expected → Counted check view e.2
  known : handled ⊆ expected
  kept : handled ⊆ l.map Prod.fst

namespace Collected

variable {view : Int} {expected handled : List S}

theorem marked (h : Collected check view expected handled l)
    (hcheck : ∀ req, check { req with signChecked := true } = check req)
    (hmark : List.Forall₂ (Marked check) l l') : Collected check view expected handled l' := by
  have hkeys := keys_of_marked hmark
  refine ⟨hkeys ▸ h.nodup, ?_, h.known, hkeys ▸ h.kept⟩
  intro e' he' hexpected
  obtain ⟨e, he, hmark⟩ := exists_of_marked hmark he'
  rcases hmark with rfl | ⟨-, rfl⟩
  · exact h.genuine _ he hexpected
  · have hcounted := h.genuine e he hexpected
    exact ⟨hcounted.1, hcounted.2.imp id fun hsign => (hcheck e.2).trans hsign⟩

theorem append (h : Collected check view expected handled l) (req : PBFTMsg H S)
    (hnew : req.sig ∉ l.map Prod.fst) (hreq : Counted check view req) (hsig : req.sig ∈ expected) :
    Collected check view expected (handled ++ [req.sig]) (l ++ [(req.sig, req)]) := by
  refine ⟨?_, ?_, List.append_subset.mpr ⟨h.known, by simpa using hsig⟩, ?_⟩
  · rw [List.map_append, List.nodup_append]
    refine ⟨h.nodup, List.nodup_singleton _, ?_⟩
    rintro a ha b hb rfl
    have hsig : a = req.sig := List.mem_singleton.mp hb
    exact hnew (hsig ▸ ha)
  · intro e he hexpected
    rcases List.mem_append.mp he with hold | hlast
    · exact h.genuine e hold hexpected
    · rw [List.mem_singleton.mp hlast]
      exact hreq
  · rw [List.map_append]
    intro sig hmem
    rcases List.mem_append.mp hmem with hmem | hlast
    · exact List.mem_append_left _ (h.kept hmem)
    · exact List.mem_append_right _ hlast

theorem again (h : Collected check view expected handled l) {sig : S}
    (hold : sig ∈ l.map Prod.fst) (hsig : sig ∈ expected) :
    Collected check view expected (handled ++ [sig]) l :=
  ⟨h.nodup, h.genuine, List.append_subset.mpr ⟨h.known, by simpa using hsig⟩,
    List.append_subset.mpr ⟨h.kept, by simpa using hold⟩⟩

theorem of_subset (h : Collected check view expected handled l) {handled' : List S}
    (hsub : handled' ⊆ handled) : Collected check view expected handled' l :=
  ⟨h.nodup, h.genuine, List.Subset.trans hsub h.known, List.Subset.trans hsub h.kept⟩

theorem expect (h : Collected check view expected handled l) {sig : S}
    (hnew : sig ∉ l.map Prod.fst) : Collected check view (sig :: expected) handled l := by
  refine ⟨h.nodup, ?_, List.subset_cons_of_subset _ h.known, h.kept⟩
  intro e he hexpected
  rcases List.mem_cons.mp hexpected with heq | hexpected
  · exact absurd (List.mem_map.mpr ⟨e, he, heq⟩) hnew
  · exact h.genuine e he hexpected

theorem filter (h : Collected check view expected handled l) {p : PBFTMsg H S → Bool}
    (hp : ∀ req, req.view = view → p req = true) :
    Collected check view expected handled (l.filter fun e => p e.2) := by
  refine ⟨h.nodup.sublist (List.filter_sublist.map Prod.fst), ?_, h.known, ?_⟩
  · intro e he
    exact h.genuine e (List.mem_filter.mp he).1
  · intro sig hsig
    obtain ⟨e, he, rfl⟩ := List.mem_map.mp (h.kept hsig)
    have hcounted := h.genuine e he (h.known hsig)
    exact List.mem_map.mpr ⟨e, List.mem_filter.mpr ⟨he, hp e.2 hcounted.1⟩, rfl⟩

/-- **Every signature is counted.** -/
theorem length_le (h : Collected check view expected handled l) (hnodup : handled.Nodup) :
    handled.length ≤ present l + verified check l := by
  classical
  have hsub : handled ⊆ (l.filter fun e => decide (e.1 ∈ handled)).map Prod.fst := by
    intro sig hsig
    obtain ⟨e, he, rfl⟩ := List.mem_map.mp (h.kept hsig)
    exact List.mem_map.mpr ⟨e, List.mem_filter.mpr ⟨he, decide_eq_true hsig⟩, rfl⟩
  have hcount : (l.filter fun e => decide (e.1 ∈ handled)).length ≤ present l + verified check l := by
    rw [present_add_verified, ← List.countP_eq_length_filter]
    apply List.countP_mono_left
    intro e he hmem
    have hcounted := (h.genuine e he (h.known (of_decide_eq_true hmem))).2
    rcases hcounted with hpresent | hcheck
    · simp [hpresent]
    · simp [hcheck]
  have hle := (hnodup.subperm hsub).length_le
  rw [List.length_map] at hle
  exact le_trans hle hcount

end Collected

end Tally

/-! ### The cache under one hash -/

variable [DecidableEq H] [DecidableEq S]

namespace VoteCache

variable {cache : VoteCache H S} {hash : H}

theorem votes_nodup : ((votes cache hash).map Prod.fst).Nodup := by
  unfold votes
  cases cache.find? hash with
  | none => exact List.nodup_nil
  | some m => exact m.nodup

theorem votes_insert_self (m : AssocMap S (PBFTMsg H S)) :
    votes (cache.insert hash m) hash = m.entries := by
  unfold votes
  rw [AssocMap.find?_insert_self]
  rfl

theorem cacheExists_iff_mem {req : PBFTMsg H S} :
    cacheExists cache req = true ↔ req.sig ∈ (votes cache req.blockHash).map Prod.fst := by
  rw [cacheExists_iff, List.mem_map]
  constructor
  · rintro ⟨r, hr⟩
    exact ⟨_, hr, rfl⟩
  · rintro ⟨⟨sig, r⟩, hr, rfl⟩
    exact ⟨r, hr⟩

theorem votes_addReq_of_new {req : PBFTMsg H S} (h : cacheExists cache req = false) :
    votes (addReq cache req) req.blockHash = votes cache req.blockHash ++ [(req.sig, req)] := by
  have hnew : req.sig ∉ (votes cache req.blockHash).map Prod.fst := by
    intro hmem
    rw [cacheExists_iff_mem.mpr hmem] at h
    cases h
  unfold addReq
  rw [if_neg (by simp [h]), votes_insert_self]
  unfold votes at hnew ⊢
  cases hm : cache.find? req.blockHash with
  | none => rfl
  | some m =>
    rw [hm] at hnew
    have hcontains : m.contains req.sig = false := by
      unfold AssocMap.contains
      rw [AssocMap.find?_eq_none_iff.mpr hnew]
      rfl
    change (m.insert req.sig req).entries = m.entries ++ [(req.sig, req)]
    unfold AssocMap.insert
    simp [hcontains]

theorem votes_removeInvalid_self (view : Int) : votes (removeInvalid cache hash view) hash =
    (votes cache hash).filter fun e => decide (e.2.view = view) := by
  unfold removeInvalid filterVotes
  cases hm : cache.find? hash with
  | none => simp [votes, hm]
  | some m =>
    dsimp only
    rw [votes_insert_self]
    simp [votes, hm, AssocMap.filter]

theorem votes_removeExpired_self (view : Int) : votes (removeExpired cache view) hash =
    (votes cache hash).filter fun e => decide (view ≤ e.2.view) := by
  unfold removeExpired votes
  rw [AssocMap.find?_mapVal]
  cases cache.find? hash with
  | none => rfl
  | some m => rfl

end VoteCache

section Count

variable {check : PBFTMsg H S → Bool} {cache : VoteCache H S} {hash : H} {need : Bool} {n : Nat}

theorem getCacheSize_count (hpos : 0 < n) (hsmall : n < 65536) :
    ((getCacheSize check hash cache need n).2 = n ↔
        tally check need n (VoteCache.votes cache hash) = n) ∧
      (n ≤ (getCacheSize check hash cache need n).2 ↔
        n ≤ tally check need n (VoteCache.votes cache hash)) := by
  have hle : tally check need n (VoteCache.votes cache hash) ≤ VoteCache.getSizeFromCache cache hash :=
    tally_le_length need n
  have hlimit : (n + 65535) % 65536 = n - 1 := by omega
  unfold getCacheSize
  dsimp only
  by_cases hsize : n ≤ VoteCache.getSizeFromCache cache hash
  · rw [if_pos hsize]
    have heq : (checkAndRemoveInvalidFutureReq check hash cache need ((n + 65535) % 65536)).2 =
        tally check need n (VoteCache.votes cache hash) := by
      rw [hlimit]
      unfold checkAndRemoveInvalidFutureReq VoteCache.votes tally
      cases cache.find? hash with
      | none =>
        have hnone : capped need (n - 1) (verified check ([] : List (S × PBFTMsg H S))) = 0 :=
          Nat.le_zero.mp (capped_le need (n - 1) 0)
        change 0 = 0 + capped need (n - 1) (verified check ([] : List (S × PBFTMsg H S)))
        rw [hnone]
      | some m =>
        have hwalk := walkFutureReq_size check need (n - 1) 0 m.entries
        rw [Nat.sub_zero] at hwalk
        dsimp only [Option.map_some, Option.getD_some]
        rw [← hwalk]
        split_ifs with hzero
        · exact hzero.symm
        · rfl
    rw [heq]
    exact ⟨Iff.rfl, Iff.rfl⟩
  · rw [if_neg hsize]
    omega

theorem votes_getCacheSize_marked (hone : 0 < present (VoteCache.votes cache hash)) :
    List.Forall₂ (Marked check) (VoteCache.votes cache hash)
      (VoteCache.votes (getCacheSize check hash cache need n).1 hash) := by
  have hsame : List.Forall₂ (Marked check) (VoteCache.votes cache hash) (VoteCache.votes cache hash) :=
    List.forall₂_same.mpr fun e _ => .inl rfl
  unfold getCacheSize
  dsimp only
  split_ifs
  · unfold checkAndRemoveInvalidFutureReq
    cases hm : cache.find? hash with
    | none => exact hsame
    | some m =>
      have hvotes : VoteCache.votes cache hash = m.entries := by
        unfold VoteCache.votes
        rw [hm]
        rfl
      dsimp only
      split_ifs with hzero
      · rw [walkFutureReq_size, ← hvotes] at hzero
        omega
      · rw [VoteCache.votes_insert_self, hvotes]
        exact walkFutureReq_marked check need _ 0 m.entries
  · exact hsame

end Count

end HieraChain.PBFT
