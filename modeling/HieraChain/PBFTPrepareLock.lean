/-
  HieraChain/PBFTPrepareLock.lean
  ===============================
  **The committed-prepare lock** (`isHashSavedAfterCommit`, `checkAndCommit`).

  Once a raw prepare is locked at a height, `isValidPrepare` rejects every
  other hash at that height, unless the request is marked empty.  The mark
  comes with the packet and is not compared with the block, so the lock holds
  in the runs in which no marked request with transactions passes it.

  `LockInv` carries the proof: a lock is below the consensus height or is the
  one in the cache, and as long as the prepare cache is in use the raw prepare
  agrees with every lock at its height.
-/
import HieraChain.PBFTSteps
import HieraChain.SymbolicCrypto

set_option linter.unusedSectionVars false

namespace HieraChain.PBFT

section Lock

variable {H S T : Type} [DecidableEq H] [DecidableEq S] [Zero H]

/-! ### The condition on a step -/

def Node.takenPrepare (c : Config H S T) (e : Env T) (s : Node H S T) (i : Input H S T) :
    Option (Prepare H S T) :=
  (s.handedPrepare c e i).filter fun req => decide (s.isValidPrepare c e req = .VALID)

/-- A request that is executed at the locked height with another hash is not marked empty. -/
def emptyMarkOk (c : Config H S T) (e : Env T) (s : Node H S T) (i : Input H S T) : Bool :=
  (s.takenPrepare c e i).all fun req =>
    !req.isEmpty || (s.executed c e req).isNone
      || decide (req.height ≠ s.cache.committedPrepareCache.height)
      || decide (req.blockHash = s.cache.committedPrepareCache.blockHash)

/-- The input is no sign request for the zero hash while the view is `MAXVIEW`. -/
def zeroVoteOk (s : Node H S T) : Input H S T → Bool
  | .signReqPacket m => !(decide (m.blockHash = 0) && decide (s.view = MAXVIEW))
  | _ => true

def LockOk (c : Config H S T) (s : Node H S T) (i : Env T × Input H S T) : Prop :=
  emptyMarkOk c i.1 s i.2 = true ∧ zeroVoteOk s i.2 = true

instance (c : Config H S T) (s : Node H S T) (i : Env T × Input H S T) :
    Decidable (LockOk c s i) := inferInstanceAs (Decidable (_ ∧ _))

/-! ### The invariant -/

def AboveLocks (s : Node H S T) (req : Prepare H S T) : Prop :=
  ∀ lock, .locked lock ∈ s.trace →
    lock.height < req.height ∨ (lock.height = req.height ∧ lock.blockHash = req.blockHash)

/-- A block with transactions that the node signs after a lock respects it. -/
def RespectsLock (later earlier : Event H S T) : Prop :=
  ∀ lock raw b req, earlier = .locked lock → later = .signed raw b req →
    raw.height = lock.height → b.transactions ≠ [] → raw.blockHash = lock.blockHash

structure LockInv (s : Node H S T) : Prop where
  cons_nonneg : 0 ≤ s.consensusBlockNumber
  /-- the prepare cache is out of use when its height is -1 -/
  cleared : s.cache.prepareCache.height = -1 →
    s.cache.prepareCache.blockHash = 0 ∧ s.cache.prepareCache.view = MAXVIEW
  below : ∀ lock, .locked lock ∈ s.trace → lock.height < s.consensusBlockNumber ∨
    (lock.height = s.consensusBlockNumber ∧ lock.height = s.cache.committedPrepareCache.height ∧
      lock.blockHash = s.cache.committedPrepareCache.blockHash)
  raw_above : s.cache.prepareCache.height ≠ -1 → AboveLocks s s.cache.rawPrepareCache ∧
    s.cache.rawPrepareCache.height ≤ s.consensusBlockNumber
  unique : ∀ lock lock', .locked lock ∈ s.trace → .locked lock' ∈ s.trace →
    lock.height = lock'.height → lock.blockHash = lock'.blockHash
  respected : s.trace.Pairwise RespectsLock

namespace LockInv

variable {c : Config H S T} {e : Env T} {i : Input H S T} {s₀ s s' : Node H S T}

def Plain : Event H S T → Prop
  | .locked _ => False
  | .signed .. => False
  | _ => True

theorem frame (h : LockInv s) (hcons : s.consensusBlockNumber ≤ s'.consensusBlockNumber)
    (hcommitted : s'.cache.committedPrepareCache = s.cache.committedPrepareCache)
    (hprepare : s'.cache.prepareCache = s.cache.prepareCache ∧
        s'.cache.rawPrepareCache = s.cache.rawPrepareCache ∨
      s'.cache.prepareCache = s.cache.prepareCache.clear)
    (htrace : s'.trace = s.trace ∨ ∃ ev, Plain ev ∧ s'.trace = ev :: s.trace) : LockInv s' := by
  have hmem : ∀ lock, .locked lock ∈ s'.trace ↔ .locked lock ∈ s.trace := by
    intro lock
    rcases htrace with htrace | ⟨ev, hev, htrace⟩
    · rw [htrace]
    · rw [htrace, List.mem_cons]
      constructor
      · rintro (heq | hlock)
        · rw [← heq] at hev
          exact absurd hev id
        · exact hlock
      · exact .inr
  refine ⟨le_trans h.cons_nonneg hcons, ?_, ?_, ?_, ?_, ?_⟩
  · rcases hprepare with ⟨hprepare, -⟩ | hprepare
    · rw [hprepare]
      exact h.cleared
    · rw [hprepare]
      exact fun _ => ⟨rfl, rfl⟩
  · intro lock hlock
    rcases h.below lock ((hmem lock).mp hlock) with hlow | ⟨heq, hheight, hhash⟩
    · exact .inl (lt_of_lt_of_le hlow hcons)
    · rcases lt_or_eq_of_le hcons with hlt | hcons
      · exact .inl (heq ▸ hlt)
      · exact .inr ⟨heq.trans hcons, hcommitted ▸ ⟨hheight, hhash⟩⟩
  · intro hlive
    rcases hprepare with ⟨hprepare, hraw⟩ | hprepare
    · rw [hprepare] at hlive
      rw [hraw]
      obtain ⟨habove, hle⟩ := h.raw_above hlive
      exact ⟨fun lock hlock => habove lock ((hmem lock).mp hlock), le_trans hle hcons⟩
    · rw [hprepare] at hlive
      exact absurd rfl hlive
  · intro lock lock' hlock hlock'
    exact h.unique lock lock' ((hmem lock).mp hlock) ((hmem lock').mp hlock')
  · rcases htrace with htrace | ⟨ev, hev, htrace⟩
    · rw [htrace]
      exact h.respected
    · rw [htrace, List.pairwise_cons]
      refine ⟨?_, h.respected⟩
      rintro earlier - lock raw b req - rfl -
      exact absurd hev id

theorem prepareCache_delCache {q : ReqCache H S T} (hash : H) :
    (q.delCache hash).prepareCache = q.prepareCache ∧
        (q.delCache hash).rawPrepareCache = q.rawPrepareCache ∨
      (q.delCache hash).prepareCache = q.prepareCache.clear := by
  by_cases hhash : hash = q.prepareCache.blockHash
  · exact .inr (if_pos hhash)
  · exact .inl ⟨if_neg hhash, rfl⟩

theorem aboveLocks_of_saved (h : LockInv s) {req : Prepare H S T}
    (hheight : req.height = s.consensusBlockNumber)
    (hsaved : s.isHashSavedAfterCommit req.toPBFTMsg = true) : AboveLocks s req := by
  intro lock hlock
  rcases h.below lock hlock with hlow | ⟨heq, hcommitted, hhash⟩
  · exact .inl (hheight ▸ hlow)
  · have hsame : req.height = s.cache.committedPrepareCache.height :=
      hheight.trans (heq.symm.trans hcommitted)
    simp only [Node.isHashSavedAfterCommit, hsame, decide_true, Bool.true_and, Bool.not_eq_true',
      decide_eq_false_iff_not, not_not] at hsaved
    exact .inr ⟨heq.trans hheight.symm, hhash.trans hsaved.symm⟩

theorem takenPrepare_of_taken {req : Prepare H S T} (htaken : Taken c e i s₀ s req) :
    s₀.takenPrepare c e i = some req := by
  unfold Node.takenPrepare
  rw [htaken.handed, Option.filter_some, htaken.valid]
  rfl

theorem aboveLocks_of_executed (h : LockInv s) (hok : LockOk c s₀ (e, i)) {req : Prepare H S T}
    {b : Block H S T} (htaken : Taken c e i s₀ s req) (hexec : s₀.executed c e req = some b) :
    AboveLocks s req := by
  cases hempty : req.isEmpty with
  | false => exact h.aboveLocks_of_saved htaken.current.height_eq (htaken.current.saved hempty)
  | true =>
    have hmark := hok.1
    unfold emptyMarkOk at hmark
    rw [takenPrepare_of_taken htaken] at hmark
    simp only [Option.all_some, hempty, hexec, Bool.not_true, Option.isNone_some, Bool.or_false,
      Bool.false_or, Bool.or_eq_true, decide_eq_true_eq] at hmark
    rw [← htaken.committed_eq] at hmark
    intro lock hlock
    rcases h.below lock hlock with hlow | ⟨heq, hcommitted, hhash⟩
    · exact .inl (htaken.current.height_eq ▸ hlow)
    · have hsame : req.height = s.cache.committedPrepareCache.height :=
        htaken.current.height_eq.trans (heq.symm.trans hcommitted)
      rcases hmark with hother | hmark
      · exact absurd hsame hother
      · exact .inr ⟨heq.trans htaken.current.height_eq.symm, hhash.trans hmark.symm⟩

theorem isEmpty_of_partially {p : PBFTMsg H S} {block : EncodedBlock H S T} {req : Prepare H S T}
    (h : s.handedPrepare c e (.partiallyPreparePacket p block) = some req) : req.isEmpty = false := by
  obtain ⟨req', hreq', h⟩ := Option.bind_eq_some_iff.mp h
  obtain ⟨b, -, rfl⟩ := Option.map_eq_some_iff.mp h
  obtain ⟨m, -, rfl⟩ := Option.map_eq_some_iff.mp hreq'
  rfl

theorem withRaw (h : LockInv s) {req : Prepare H S T} (habove : AboveLocks s req)
    (hheight : req.height = s.consensusBlockNumber) :
    LockInv (s.withCache { s.cache with rawPrepareCache := req }) where
  cons_nonneg := h.cons_nonneg
  cleared := h.cleared
  below := h.below
  raw_above _ := ⟨habove, le_of_eq hheight⟩
  unique := h.unique
  respected := h.respected

theorem sign (h : LockInv s) {req : Prepare H S T} (b : Block H S T) (habove : AboveLocks s req)
    (hheight : req.height = s.consensusBlockNumber) :
    LockInv ((s.withCache { s.cache with rawPrepareCache := req }).broadcastSignReq c e req b) := by
  have hlive : (Node.signPrepare c e req b).height ≠ -1 := by
    have hnonneg := h.cons_nonneg
    change req.height ≠ -1
    omega
  have hmem : ∀ lock, .locked lock ∈
      ((s.withCache { s.cache with rawPrepareCache := req }).broadcastSignReq c e req b).trace →
      .locked lock ∈ s.trace := by
    intro lock hlock
    rcases List.mem_cons.mp hlock with heq | hlock
    · cases heq
    · exact hlock
  refine ⟨h.cons_nonneg, fun hdead => absurd hdead hlive, ?_, ?_, ?_, ?_⟩
  · exact fun lock hlock => h.below lock (hmem lock hlock)
  · exact fun _ => ⟨fun lock hlock => habove lock (hmem lock hlock), le_of_eq hheight⟩
  · exact fun lock lock' hlock hlock' => h.unique lock lock' (hmem lock hlock) (hmem lock' hlock')
  · apply List.pairwise_cons.mpr
    refine ⟨?_, h.respected⟩
    rintro earlier hearlier lock raw b' req' rfl heq hsame -
    cases heq
    rcases habove lock hearlier with hlow | ⟨-, hhash⟩
    · omega
    · exact hhash.symm

theorem lock (h : LockInv s) (hlive : s.cache.prepareCache.height ≠ -1) :
    LockInv (((s.withCache s.cache.updateCommittedPrepare).emit
      (.locked s.cache.rawPrepareCache)).broadcastCommitReq c e) := by
  obtain ⟨habove, hle⟩ := h.raw_above hlive
  have hmem : ∀ lock, .locked lock ∈ (((s.withCache s.cache.updateCommittedPrepare).emit
      (.locked s.cache.rawPrepareCache)).broadcastCommitReq c e).trace →
      lock = s.cache.rawPrepareCache ∨ .locked lock ∈ s.trace := by
    intro lock hlock
    rcases List.mem_cons.mp hlock with heq | hlock
    · cases heq
    · rcases List.mem_cons.mp hlock with heq | hlock
      · injection heq with heq
        exact .inl heq
      · exact .inr hlock
  refine ⟨h.cons_nonneg, h.cleared, ?_, ?_, ?_, ?_⟩
  · intro lock hlock
    rcases hmem lock hlock with rfl | hlock
    · rcases lt_or_eq_of_le hle with hlow | heq
      · exact .inl hlow
      · exact .inr ⟨heq, rfl, rfl⟩
    · rcases h.below lock hlock with hlow | ⟨heq, -, -⟩
      · exact .inl hlow
      · rcases habove lock hlock with hlow | ⟨hsame, hhash⟩
        · exact absurd (lt_of_lt_of_le hlow hle) (not_lt.mpr (le_of_eq heq.symm))
        · exact .inr ⟨heq, hsame, hhash⟩
  · refine fun _ => ⟨?_, hle⟩
    intro lock hlock
    rcases hmem lock hlock with rfl | hlock
    · exact .inr ⟨rfl, rfl⟩
    · exact habove lock hlock
  · intro lock lock' hlock hlock' hsame
    rcases hmem lock hlock with rfl | hold
    · rcases hmem lock' hlock' with rfl | hold'
      · rfl
      · rcases habove lock' hold' with hlow | ⟨-, hhash⟩
        · exact absurd hsame (ne_of_gt hlow)
        · exact hhash.symm
    · rcases hmem lock' hlock' with rfl | hold'
      · rcases habove lock hold with hlow | ⟨-, hhash⟩
        · exact absurd hsame (ne_of_lt hlow)
        · exact hhash
      · exact h.unique lock lock' hold hold' hsame
  · apply List.pairwise_cons.mpr
    refine ⟨?_, List.pairwise_cons.mpr ⟨?_, h.respected⟩⟩
    · rintro earlier - lock raw b req - heq -
      cases heq
    · rintro earlier - lock raw b req - heq -
      cases heq

theorem live_of_lock (h : LockInv s) (hok : LockOk c s₀ (e, i)) (hsame : SameRound s₀ s)
    (hview : s.cache.prepareCache.view = s.view)
    (hcause : s.cache.prepareCache.height = s.consensusBlockNumber ∨
      ∃ m req, i = .signReqPacket m ∧ m.received = some req ∧
        req.blockHash = s.cache.prepareCache.blockHash ∧ req.view = s.cache.prepareCache.view) :
    s.cache.prepareCache.height ≠ -1 := by
  rcases hcause with hheight | ⟨m, req, rfl, hreq, hhash, -⟩
  · have hnonneg := h.cons_nonneg
    omega
  · intro hdead
    obtain ⟨hzero, hmax⟩ := h.cleared hdead
    have hvote := hok.2
    unfold PBFTMsg.received at hreq
    split_ifs at hreq
    cases hreq
    have hview₀ : s₀.view = MAXVIEW := by
      rw [← hsame.view_eq, ← hview, hmax]
    have hblank : m.blockHash = 0 := hhash.trans hzero
    simp [zeroVoteOk, hblank, hview₀] at hvote

/-- **What a small step preserves.** -/
theorem smallStep (hok : LockOk c s₀ (e, i)) (hstep : SmallStep c e i s₀ s s') (h : LockInv s) :
    LockInv s' := by
  cases hstep with
  | pending _ future raw same pfuture hfuture hraw hpfuture => exact h.frame le_rfl rfl (.inl ⟨rfl, rfl⟩) (.inl rfl)
  | note _ ev hev =>
    refine h.frame le_rfl rfl (.inl ⟨rfl, rfl⟩) (.inr ⟨ev, ?_, rfl⟩)
    cases ev <;> trivial
  | takeRaw _ req htaken => exact h.frame le_rfl rfl (.inr rfl) (.inl rfl)
  | transRaw _ req p block htaken hi hprepare hfail =>
    subst hi
    have hempty := isEmpty_of_partially htaken.handed
    have habove := h.aboveLocks_of_saved htaken.current.height_eq (htaken.current.saved hempty)
    exact h.withRaw habove htaken.current.height_eq
  | sign _ req b htaken hexec =>
    exact h.sign b (h.aboveLocks_of_executed hok htaken hexec) htaken.current.height_eq
  | countSigns _ => exact h.frame le_rfl rfl (.inl ⟨rfl, rfl⟩) (.inl rfl)
  | countCommits _ => exact h.frame le_rfl rfl (.inl ⟨rfl, rfl⟩) (.inl rfl)
  | lock _ hsame hcfg hview hcause =>
    exact h.lock (h.live_of_lock hok hsame hview hcause)
  | save _ b b' hsame hview hheight hblock hlist hcount =>
    unfold Node.saveBlock
    split
    · refine h.frame le_rfl rfl ?_ (.inr ⟨.commitBlock s.sealerList b' true, trivial, rfl⟩)
      exact prepareCache_delCache (c.crypto.headerHash b'.header)
    · exact h.frame le_rfl rfl (.inl ⟨rfl, rfl⟩)
        (.inr ⟨.commitBlock s.sealerList b' false, trivial, rfl⟩)
  | addSign _ m => exact h.frame le_rfl rfl (.inl ⟨rfl, rfl⟩) (.inl rfl)
  | addCommit m req req' hi hreq hcheck => exact h.frame le_rfl rfl (.inl ⟨rfl, rfl⟩) (.inl rfl)
  | dropViewChanges _ q hdrops =>
    obtain ⟨recv, latest, -, rfl⟩ := hdrops
    exact h.frame le_rfl rfl (.inl ⟨rfl, rfl⟩) (.inl rfl)
  | insertViewChange _ req horigin hheight => exact h.frame le_rfl rfl (.inl ⟨rfl, rfl⟩) (.inl rfl)
  | moveToView _ v failed hmove => exact h.frame le_rfl rfl (.inl ⟨rfl, rfl⟩) (.inl rfl)
  | enterView _ v hsealers hhighest hsize hview =>
    unfold Node.checkAndChangeView
    rw [if_pos hsize]
    exact h.frame le_rfl rfl (.inr rfl) (.inr ⟨.enteredView v _, trivial, rfl⟩)
  | report number b hi hblock =>
    rcases Node.reportBlockWithoutLock_cases c e s₀ b with heq | ⟨-, hcons, heq⟩ | ⟨-, -, heq⟩
    · rw [heq]
      exact h
    · rw [heq]
      exact h.frame (le_trans hcons (le_of_lt (lt_add_one _))) rfl (prepareCache_delCache _)
        (.inr ⟨.reported b.header, trivial, rfl⟩)
    · rw [heq]
      exact h.frame le_rfl rfl (prepareCache_delCache _) (.inr ⟨.reported b.header, trivial, rfl⟩)
  | collectGarbage hi => exact h.frame le_rfl rfl (.inl ⟨rfl, rfl⟩) (.inl rfl)
  | resetConfig hi => exact h.frame le_rfl rfl (.inl ⟨rfl, rfl⟩) (.inl rfl)
  | storeSynced _ b chain hi hchain => exact h.frame le_rfl rfl (.inl ⟨rfl, rfl⟩) (.inl rfl)

theorem started (hs : Started s) : LockInv s := by
  obtain ⟨e, noSig, backup, chain, last, hnumbered, hlast, rfl⟩ := hs
  have hnumber := hnumbered _ _ hlast
  have hchain : 0 ≤ chain.number := by
    by_contra hneg
    unfold Chain.getBlockByNumber at hlast
    rw [if_pos (not_le.mp hneg)] at hlast
    cases hlast
  refine ⟨?_, fun _ => ⟨rfl, rfl⟩, ?_, fun hlive => absurd rfl hlive, ?_, List.Pairwise.nil⟩
  · change 0 ≤ last.header.number + 1
    omega
  · exact fun lock hlock => absurd hlock List.not_mem_nil
  · exact fun lock lock' hlock => absurd hlock List.not_mem_nil

theorem run {is : List (Env T × Input H S T)} (h : LockInv s)
    (hrun : (engine c).RunOk (LockOk c) s is) : LockInv ((engine c).run s is) := by
  refine (engine c).run_invariant ?_ h hrun
  rintro s₀ ⟨e, i⟩ hinv hok
  exact (engine_madeOf c).step_invariant (fun t u hstep => smallStep hok hstep) hinv

end LockInv

/-- **The prepare lock.**  After a raw prepare was locked, the node signs no
    block with transactions at its height under another raw hash. -/
theorem prepare_lock (c : Config H S T) {s : Node H S T} (hs : Started s)
    {is : List (Env T × Input H S T)} (hrun : (engine c).RunOk (LockOk c) s is) :
    ((engine c).run s is).trace.Pairwise RespectsLock :=
  (LockInv.run (LockInv.started hs) hrun).respected

end Lock

/-- The fourth sealer executes a first block and gets the sign requests that
    lock it; then the leader sends it another first block. -/
def lockThenOther (prepareWithEmptyBlock : Bool) : List (Env Nat × Input Term Term Nat) :=
  quietly [sendBlock (blockOn genesis 7 [5]) false,
    .signReqPacket (requestFor 0 0 (blockOn genesis 7 [5])),
    .signReqPacket (requestFor 1 0 (blockOn genesis 7 [5])),
    sendBlock (blockOn genesis 8 [6]) prepareWithEmptyBlock]

theorem prepare_lock_unmarked :
    ((engine (sealerConfig 4)).run startNode (lockThenOther false)).trace.Pairwise RespectsLock :=
  prepare_lock (sealerConfig 4) startNode_started (by decide +kernel)

/-- With the mark on its packet the other block is signed in spite of the lock. -/
theorem prepare_lock_broken_by_mark :
    ¬((engine (sealerConfig 4)).run startNode (lockThenOther true)).trace.Pairwise RespectsLock := by
  intro h
  have hpair := List.pairwise_iff_getElem.mp h 0 2 (by decide +kernel) (by decide +kernel) (by decide)
  have hhash := hpair
    { requestFor 0 0 (blockOn genesis 7 [5]) with block := fullForm (blockOn genesis 7 [5]) }
    { requestFor 0 0 (blockOn genesis 8 [6]) with
      isEmpty := true, block := fullForm (blockOn genesis 8 [6]) }
    (blockOn genesis 8 [6]) (requestFor 3 0 (blockOn genesis 8 [6]))
    (by decide +kernel) (by decide +kernel) (by decide) (by decide)
  exact absurd hhash (by decide +kernel)

end HieraChain.PBFT
