/-
  HieraChain/PBFTSteps.lean
  =========================
  **What a step of the engine is made of.**

  A handler makes many small changes.  `SmallStep` lists them with all that is
  known when each is made, and `engine_madeOf` says that every step of the
  engine is a sequence of them.  An invariant of the engine is then proved once
  for each small change; no later module unfolds a handler.

  A small step knows the state `s₀` in which the input arrived, because the
  conditions on runs speak of that state.
-/
import HieraChain.PBFTEngine

set_option linter.unusedSectionVars false

namespace HieraChain.PBFT

variable {H S T : Type} [DecidableEq H] [DecidableEq S]

/-! ### Prepare requests that an input hands in -/

namespace Node

def executed (c : Config H S T) (e : Env T) (s : Node H S T) (req : Prepare H S T) :
    Option (Block H S T) :=
  match s.execBlock c e req with
  | some (b, true) => if b.transactions.isEmpty then none else some b
  | _ => none

theorem executed_eq_some {c : Config H S T} {e : Env T} {s : Node H S T} {req : Prepare H S T}
    {b : Block H S T} (h : s.executed c e req = some b) :
    (req.pBlock <|> req.block.decode c.crypto) = some b ∧ b.transactions ≠ [] ∧
      s.checkBlockValid c e b = true := by
  unfold executed at h
  split at h
  · next b' hblock =>
    split_ifs at h with hempty
    cases h
    unfold execBlock at hblock
    obtain ⟨b'', hb'', hblock⟩ := Option.bind_eq_some_iff.mp hblock
    split_ifs at hblock with hnone hvalid hsenders
    · cases (Prod.mk.inj (Option.some.inj hblock)).2
    · obtain ⟨rfl, -⟩ := Prod.mk.inj (Option.some.inj hblock)
      refine ⟨hb'', ?_, by simpa using hvalid⟩
      intro hnil
      rw [hnil] at hempty
      exact hempty rfl
  · cases h

def withBlock (c : Config H S T) (req : Prepare H S T) (b : Block H S T) : Prepare H S T :=
  { req with block := (b.encode c.crypto).getD req.block, pBlock := some b }

/-- The short proposal as the node reads it, with the transactions of its pool. -/
def decodedProposal (c : Config H S T) (e : Env T) (req : Prepare H S T) :
    Option (PartiallyBlock H T) :=
  (req.block.decodeProposal c.crypto).map fun p => p.initPartiallyBlock c.crypto e.txPool

/-- The prepare request that an input hands to the prepare handlers, with the
    block that the node completed for it. -/
def handedPrepare [Zero H] (c : Config H S T) (e : Env T) (s : Node H S T) :
    Input H S T → Option (Prepare H S T)
  | .prepareReqPacket req block prepareWithEmptyBlock =>
    Input.receivedPrepare req block prepareWithEmptyBlock
  | .handleFutureBlock => s.cache.futurePrepareCache.find? s.consensusBlockNumber
  | .shouldSeal => some (s.rehandledPrepare c e)
  | .generatePrepare b => (b.encode c.crypto).map fun block => s.constructPrepareReq c e b block
  | .partiallyPreparePacket req block =>
    (Input.receivedPrepare req block false).bind fun req =>
      ((decodedProposal c e req).bind completeBlock).map (withBlock c req)
  | .missedTxsPacket resp =>
    s.cache.partiallyRawPrepare.bind fun p =>
      ((p.pBlock.bind fun pBlock => pBlock.fillBlock c.crypto resp).bind completeBlock).map
        (withBlock c p.req)
  | _ => none

/-- What `isValidPrepare` ensures and what still holds while the request is executed. -/
structure Current (s : Node H S T) (req : Prepare H S T) : Prop where
  height_eq : req.height = s.consensusBlockNumber
  view_eq : req.view = s.view
  saved : req.isEmpty = false → s.isHashSavedAfterCommit req.toPBFTMsg = true

theorem isValidPrepare_congr (c : Config H S T) (e : Env T) (s : Node H S T)
    {req req' : Prepare H S T} (h : req.toPBFTMsg = req'.toPBFTMsg) :
    s.isValidPrepare c e req = s.isValidPrepare c e req' := by
  cases req
  cases req'
  cases h
  rfl

theorem current_of_valid {c : Config H S T} {e : Env T} {s : Node H S T} {req : Prepare H S T}
    (h : s.isValidPrepare c e req = .VALID) : s.Current req := by
  unfold isValidPrepare at h
  split_ifs at h with hexist hsync hcons hsaved hfuture hleader hsign
  simp only [hasConsensused, isFuturePrepare, Bool.or_eq_true, Bool.and_eq_true, decide_eq_true_eq,
    not_or, not_and] at hcons hfuture
  have hheight : req.height = s.consensusBlockNumber := by omega
  refine ⟨hheight, ?_, ?_⟩
  · have hlow := hcons.2 hheight
    have hhigh := hfuture.2 hheight
    omega
  · intro hempty
    cases hs : s.isHashSavedAfterCommit req.toPBFTMsg with
    | true => rfl
    | false => exact absurd (by rw [hempty, hs]; rfl) hsaved

theorem cfgErr_of_valid {c : Config H S T} {e : Env T} {s : Node H S T} {req : Prepare H S T}
    (h : s.isValidPrepare c e req = .VALID) : s.cfgErr c = false := by
  unfold isValidPrepare at h
  split_ifs at h with hexist hsync hcons hsaved hfuture hleader hsign
  cases hcfg : s.cfgErr c with
  | false => rfl
  | true =>
    refine absurd ?_ hleader
    unfold isValidLeader getLeader
    rw [hcfg]
    rfl

end Node

/-! ### View-change requests -/

def ViewChangesIn (recv recv' : AssocMap Int (AssocMap Nat (PBFTMsg H S))) : Prop :=
  ∀ view idx req, (recv.find? view).bind (·.find? idx) = some req →
    (recv'.find? view).bind (·.find? idx) = some req

namespace ViewChangesIn

variable {recv recv' recv'' : AssocMap Int (AssocMap Nat (PBFTMsg H S))}

theorem refl : ViewChangesIn recv recv := fun _ _ _ h => h

theorem insert {view : Int} {m m' : AssocMap Nat (PBFTMsg H S)} (hm : recv.find? view = some m)
    (hin : ∀ idx req, m'.find? idx = some req → m.find? idx = some req) :
    ViewChangesIn (recv.insert view m') recv := by
  intro v idx req h
  rw [AssocMap.find?_insert] at h
  by_cases hv : v = view
  · subst hv
    rw [if_pos rfl] at h
    rw [hm]
    exact hin idx req h
  · rw [if_neg hv] at h
    exact h

theorem filter (p : Int → AssocMap Nat (PBFTMsg H S) → Bool) :
    ViewChangesIn (recv.filter p) recv := by
  intro v idx req h
  rw [AssocMap.find?_filter] at h
  obtain ⟨m, hm, hreq⟩ := Option.bind_eq_some_iff.mp h
  rw [(Option.filter_eq_some_iff.mp hm).1]
  exact hreq

theorem mapVal_filter (p : Nat → PBFTMsg H S → Bool) :
    ViewChangesIn (recv.mapVal fun m => m.filter p) recv := by
  intro v idx req h
  rw [AssocMap.find?_mapVal] at h
  obtain ⟨m, hm, hreq⟩ := Option.bind_eq_some_iff.mp h
  obtain ⟨m', hm', rfl⟩ := Option.map_eq_some_iff.mp hm
  rw [hm', Option.bind_some]
  rw [AssocMap.find?_filter] at hreq
  exact (Option.filter_eq_some_iff.mp hreq).1

end ViewChangesIn

namespace ReqCache

variable (q : ReqCache H S T)

def withViewChanges (recv : AssocMap Int (AssocMap Nat (PBFTMsg H S)))
    (latest : AssocMap Nat (PBFTMsg H S)) : ReqCache H S T :=
  { q with recvViewChangeReq := recv, latestViewChangeReqCache := latest }

/-- The insertion at the end of `addViewChangeReq`. -/
def insertViewChange (req : PBFTMsg H S) : ReqCache H S T :=
  q.withViewChanges
    (q.recvViewChangeReq.insert req.view
      (((q.recvViewChangeReq.find? req.view).getD .empty).insert req.idx req))
    (q.latestViewChangeReqCache.insert req.idx req)

def DropsTo (q' : ReqCache H S T) : Prop :=
  ∃ recv latest, ViewChangesIn recv q.recvViewChangeReq ∧ q' = q.withViewChanges recv latest

theorem DropsTo.refl : q.DropsTo q := ⟨_, _, ViewChangesIn.refl, rfl⟩

theorem eraseExpiredViewChange_drops (idx : Nat) : q.DropsTo (q.eraseExpiredViewChange idx) := by
  unfold eraseExpiredViewChange
  cases hlatest : q.latestViewChangeReqCache.find? idx with
  | none => exact .refl q
  | some latest =>
    dsimp only
    cases hm : q.recvViewChangeReq.find? latest.view with
    | none => exact .refl q
    | some m =>
      dsimp only
      cases hreq : m.find? idx with
      | none => exact .refl q
      | some req =>
        refine ⟨_, _, ?_, rfl⟩
        split_ifs
        · apply ViewChangesIn.insert hm
          intro i r h
          rw [AssocMap.find?_erase] at h
          split_ifs at h
          exact h
        · exact .refl

theorem removeInvalidViewChange_drops (view number : Int) (hash : H) :
    q.DropsTo (q.removeInvalidViewChange view number hash) := by
  unfold removeInvalidViewChange
  cases hm : q.recvViewChangeReq.find? view with
  | none => exact .refl q
  | some m =>
    refine ⟨_, _, ViewChangesIn.insert hm ?_, rfl⟩
    intro i r h
    rw [AssocMap.find?_filter] at h
    exact (Option.filter_eq_some_iff.mp h).1

theorem addViewChangeReq_cases (req : PBFTMsg H S) (number : Int) :
    ∃ q', q.DropsTo q' ∧
      (q.addViewChangeReq req number = q' ∨
        (number ≤ req.height ∧ q.addViewChangeReq req number = q'.insertViewChange req)) := by
  have hcheck : ∃ q' ok, q.checkViewChangeReq req number = (q', ok) ∧ q.DropsTo q' ∧
      (ok = true → number ≤ req.height) := by
    unfold checkViewChangeReq
    by_cases hlow : req.height < number
    · rw [if_pos hlow]
      exact ⟨q, false, rfl, .refl q, by simp⟩
    · rw [if_neg hlow]
      have hle : number ≤ req.height := not_lt.mp hlow
      cases q.latestViewChangeReqCache.find? req.idx with
      | none => exact ⟨q, true, rfl, .refl q, fun _ => hle⟩
      | some latest =>
        dsimp only
        split_ifs
        · exact ⟨_, true, rfl, q.eraseExpiredViewChange_drops latest.idx, fun _ => hle⟩
        · exact ⟨q, false, rfl, .refl q, fun _ => hle⟩
        · exact ⟨q, false, rfl, .refl q, fun _ => hle⟩
        · exact ⟨q, true, rfl, .refl q, fun _ => hle⟩
  obtain ⟨q', ok, heq, hdrops, hok⟩ := hcheck
  refine ⟨q', hdrops, ?_⟩
  unfold addViewChangeReq
  rw [heq]
  cases ok with
  | true => exact .inr ⟨hok rfl, rfl⟩
  | false => exact .inl rfl

theorem toView_lt_minView {toView : Int} (number : Int) (h : toView < MAXVIEW) :
    toView < (q.viewWalk toView number).minView := by
  have hvisit : ∀ (view : Int) (w : ViewWalk) (e : Nat × PBFTMsg H S), toView < view →
      toView < w.minView → toView < (ViewWalk.visit number view w e).minView := by
    intro view w e hview hw
    unfold ViewWalk.visit
    split_ifs
    · exact lt_min hw hview
    · exact hw
  have hinner : ∀ (view : Int), toView < view → ∀ (l : List (Nat × PBFTMsg H S)) (w : ViewWalk),
      toView < w.minView → toView < (l.foldl (ViewWalk.visit number view) w).minView := by
    intro view hview l
    induction l with
    | nil => exact fun _ hw => hw
    | cons e l ih => exact fun w hw => ih _ (hvisit view w e hview hw)
  have houter : ∀ (l : List (Int × AssocMap Nat (PBFTMsg H S))) (w : ViewWalk), toView < w.minView →
      toView < (l.foldl (fun w e => if toView < e.1 then
        e.2.entries.foldl (ViewWalk.visit number e.1) w else w) w).minView := by
    intro l
    induction l with
    | nil => exact fun _ hw => hw
    | cons e l ih =>
      intro w hw
      apply ih
      dsimp only
      split_ifs with he
      · exact hinner e.1 he _ _ hw
      · exact hw
  exact houter _ _ h

end ReqCache

/-! ### Counting votes -/

/-- A request that counts as it stands: it came in time, or its signature was checked since. -/
def counts (req : PBFTMsg H S) : Bool := !req.isFuture || req.signChecked

theorem walkFutureReq_le (checkSign : PBFTMsg H S → Bool) (limit : Nat) (k : Nat)
    (l : List (S × PBFTMsg H S)) :
    (walkFutureReq checkSign false limit k l).2 ≤
      ((walkFutureReq checkSign false limit k l).1.filter fun e => counts e.2).length := by
  induction l generalizing k with
  | nil => exact le_rfl
  | cons e rest ih =>
    obtain ⟨sig, req⟩ := e
    unfold walkFutureReq
    split_ifs with hpresent hlimit hchecked hsign
    · have hcounts : counts req = true := by
        unfold counts
        rw [hpresent, Bool.true_or]
      simp only [List.filter_cons, hcounts, if_true, List.length_cons]
      exact Nat.succ_le_succ (ih k)
    · rw [Bool.false_and] at hlimit
      cases hlimit
    · have hcounts : counts req = true := by
        unfold counts
        rw [hchecked, Bool.or_true]
      simp only [List.filter_cons, hcounts, if_true, List.length_cons]
      exact Nat.succ_le_succ (ih (k + 1))
    · have hcounts : counts { req with signChecked := true } = true := Bool.or_true _
      simp only [List.filter_cons, hcounts, if_true, List.length_cons]
      exact Nat.succ_le_succ (ih (k + 1))
    · have hcounts : counts req = false := by
        unfold counts
        rw [Bool.or_eq_false_iff]
        exact ⟨by simpa using hpresent, by simpa using hchecked⟩
      rw [List.filter_cons, hcounts]
      exact ih k

theorem le_length_of_getCacheSize {checkSign : PBFTMsg H S → Bool} {hash : H}
    {cache : VoteCache H S} {q : Nat} (h : q ≤ (getCacheSize checkSign hash cache false q).2) :
    q ≤ ((VoteCache.votes (getCacheSize checkSign hash cache false q).1 hash).filter
      fun e => counts e.2).length := by
  unfold getCacheSize at h ⊢
  dsimp only at h ⊢
  by_cases hsize : q ≤ VoteCache.getSizeFromCache cache hash
  · rw [if_pos hsize] at h ⊢
    unfold checkAndRemoveInvalidFutureReq at h ⊢
    cases hm : cache.find? hash with
    | none =>
      rw [hm] at h
      exact le_trans h (Nat.zero_le _)
    | some m =>
      rw [hm] at h
      dsimp only at h ⊢
      by_cases hzero : (walkFutureReq checkSign false ((q + 65535) % 65536) 0 m.entries).2 = 0
      · rw [if_pos hzero] at h
        exact le_trans h (Nat.zero_le _)
      · rw [if_neg hzero] at h ⊢
        have hvotes : VoteCache.votes (cache.insert hash
            (markFutureReq checkSign false ((q + 65535) % 65536) m)) hash =
            (markFutureReq checkSign false ((q + 65535) % 65536) m).entries := by
          unfold VoteCache.votes
          rw [AssocMap.find?_insert_self]
          rfl
        rw [hvotes]
        exact le_trans h (walkFutureReq_le checkSign _ 0 m.entries)
  · rw [if_neg hsize] at h
    exact absurd h hsize

variable [Zero H]

/-! ### Reported blocks -/

theorem Node.reportBlockWithoutLock_cases (c : Config H S T) (e : Env T) (s : Node H S T)
    (b : Block H S T) :
    s.reportBlockWithoutLock c e b = s ∨
    ((s.chain.number = 0 ∨ s.highestBlock.number < b.header.number) ∧
      s.consensusBlockNumber ≤ b.header.number ∧
      s.reportBlockWithoutLock c e b = { s with
        highestBlock := b.header
        view := 0
        toView := 0
        leaderFailed := false
        consensusBlockNumber := b.header.number + 1
        sealerList := e.sealers.1.insertionSort (· ≤ ·)
        cache := (s.cache.delInvalidViewChange b.header.number
          (c.crypto.headerHash b.header)).delCache (c.crypto.headerHash b.header)
        trace := .reported b.header :: s.trace }) ∨
    ((s.chain.number = 0 ∨ s.highestBlock.number < b.header.number) ∧
      b.header.number < s.consensusBlockNumber ∧
      s.reportBlockWithoutLock c e b = { s with
        highestBlock := b.header
        sealerList := e.sealers.1.insertionSort (· ≤ ·)
        cache := s.cache.delCache (c.crypto.headerHash b.header)
        trace := .reported b.header :: s.trace }) := by
  unfold Node.reportBlockWithoutLock
  by_cases hnew : s.chain.number = 0 ∨ s.highestBlock.number < b.header.number
  · rw [if_pos hnew]
    dsimp only
    by_cases hcons : s.consensusBlockNumber ≤ b.header.number
    · rw [if_pos hcons]
      exact .inr (.inl ⟨hnew, hcons, rfl⟩)
    · rw [if_neg hcons]
      exact .inr (.inr ⟨hnew, not_le.mp hcons, rfl⟩)
  · rw [if_neg hnew]
    exact .inl rfl

/-! ### Small steps -/

def Event.IsNote : Event H S T → Prop
  | .prepare .. => True
  | .viewChange .. => True
  | .acceptedViewChange .. => True
  | _ => False

structure SameRound (s₀ s : Node H S T) : Prop where
  sealerList_eq : s.sealerList = s₀.sealerList
  view_eq : s.view = s₀.view
  chain_eq : s.chain = s₀.chain

structure Taken (c : Config H S T) (e : Env T) (i : Input H S T) (s₀ s : Node H S T)
    (req : Prepare H S T) : Prop where
  handed : s₀.handedPrepare c e i = some req
  valid : s₀.isValidPrepare c e req = .VALID
  current : s.Current req
  same : SameRound s₀ s
  committed_eq : s.cache.committedPrepareCache = s₀.cache.committedPrepareCache

theorem SameRound.refl (s : Node H S T) : SameRound s s := ⟨rfl, rfl, rfl⟩

theorem Taken.withCache {c : Config H S T} {e : Env T} {i : Input H S T} {s₀ s : Node H S T}
    {req : Prepare H S T} (h : Taken c e i s₀ s req) {q : ReqCache H S T}
    (hq : q.committedPrepareCache = s.cache.committedPrepareCache) :
    Taken c e i s₀ (s.withCache q) req where
  handed := h.handed
  valid := h.valid
  current := by
    refine ⟨h.current.height_eq, h.current.view_eq, ?_⟩
    have hsaved := h.current.saved
    unfold Node.isHashSavedAfterCommit at hsaved ⊢
    rw [← hq] at hsaved
    exact hsaved
  same := ⟨h.same.sealerList_eq, h.same.view_eq, h.same.chain_eq⟩
  committed_eq := hq.trans h.committed_eq

/-- A short proposal that the node holds or gets on input `i`, or completes further. -/
inductive KnownProposal (c : Config H S T) (e : Env T) (i : Input H S T) (s : Node H S T) :
    PartiallyBlock H T → Prop
  | held (p pb) (hp : s.cache.partiallyRawPrepare = some p ∨ s.cache.partiallyFuturePrepare = some p)
    (hpb : p.pBlock = some pb) : KnownProposal c e i s pb
  | received (m block req pb) (hi : i = .partiallyPreparePacket m block)
    (hreq : Input.receivedPrepare m block false = some req)
    (hvalid : s.isValidPrepare c e req ≠ .INVALID)
    (hpb : Node.decodedProposal c e req = some pb) : KnownProposal c e i s pb
  | filled (resp pb pb') (h : KnownProposal c e i s pb)
    (hfill : pb.fillBlock c.crypto resp = some pb') : KnownProposal c e i s pb'

/-- A prepare request that the node gets or completes on input `i`. -/
inductive KnownPrepare (c : Config H S T) (e : Env T) (i : Input H S T) (s : Node H S T) :
    Prepare H S T → Prop
  | handed (req) (h : s.handedPrepare c e i = some req)
    (hvalid : s.isValidPrepare c e req ≠ .INVALID) : KnownPrepare c e i s req
  | completed (req : Prepare H S T) (pb b) (h : KnownProposal c e i s pb)
    (hb : Node.completeBlock pb = some b) (hreq : req.pBlock = some b) : KnownPrepare c e i s req

/-- One small change on input `i`, which arrived in state `s₀`. -/
inductive SmallStep (c : Config H S T) (e : Env T) (i : Input H S T) (s₀ : Node H S T) :
    Node H S T → Node H S T → Prop
  /-- requests that wait for their turn or for transactions -/
  | pending (s : Node H S T) (future raw same pfuture)
    (hfuture : ∀ height req, future.find? height = some req →
      s.cache.futurePrepareCache.find? height = some req ∨ KnownPrepare c e i s₀ req)
    (hraw : raw = s.cache.partiallyRawPrepare ∨
      ∀ p pb, raw = some p → p.pBlock = some pb → KnownProposal c e i s₀ pb)
    (hpfuture : pfuture = s.cache.partiallyFuturePrepare ∨
      ∀ p pb, pfuture = some p → p.pBlock = some pb → KnownProposal c e i s₀ pb) :
    SmallStep c e i s₀ s (s.withCache { s.cache with
      futurePrepareCache := future
      partiallyRawPrepare := raw
      rawIsPartially := same
      partiallyFuturePrepare := pfuture })
  | note (s : Node H S T) (ev) (hev : ev.IsNote) : SmallStep c e i s₀ s (s.emit ev)
  | takeRaw (s : Node H S T) (req) (htaken : Taken c e i s₀ s req) :
    SmallStep c e i s₀ s (s.withCache (s.cache.addRawPrepare req))
  /-- a completed proposal becomes the raw prepare but is not executed; the
      prepare cache keeps what it held -/
  | transRaw (s : Node H S T) (req p block) (htaken : Taken c e i s₀ s req)
    (hi : i = .partiallyPreparePacket p block)
    (hprepare : s.cache.prepareCache = s₀.cache.prepareCache)
    (hfail : s₀.executed c e req = none ∨ ∃ b, req.pBlock = some b ∧ b.encode c.crypto = none) :
    SmallStep c e i s₀ s (s.withCache { s.cache with rawPrepareCache := req })
  | sign (s : Node H S T) (req b) (htaken : Taken c e i s₀ s req)
    (hexec : s₀.executed c e req = some b) :
    SmallStep c e i s₀ s
      ((s.withCache { s.cache with rawPrepareCache := req }).broadcastSignReq c e req b)
  | countSigns (s : Node H S T) :
    SmallStep c e i s₀ s (s.withCache (s.cache.getSigCacheSize (s.checkSign c)
      s.cache.prepareCache.blockHash s.minValidNodes).1)
  | countCommits (s : Node H S T) :
    SmallStep c e i s₀ s (s.withCache (s.cache.getCommitCacheSize (s.checkSign c)
      s.cache.prepareCache.blockHash s.minValidNodes).1)
  | lock (s : Node H S T) (hsame : SameRound s₀ s) (hcfg : s₀.cfgErr c = false)
    (hview : s.cache.prepareCache.view = s.view)
    (hcause : s.cache.prepareCache.height = s.consensusBlockNumber ∨
      ∃ m req, i = .signReqPacket m ∧ m.received = some req ∧
        req.blockHash = s.cache.prepareCache.blockHash ∧ req.view = s.cache.prepareCache.view) :
    SmallStep c e i s₀ s (((s.withCache s.cache.updateCommittedPrepare).emit
      (.locked s.cache.rawPrepareCache)).broadcastCommitReq c e)
  | save (s : Node H S T) (b b') (hsame : SameRound s₀ s)
    (hview : s.cache.prepareCache.view = s.view)
    (hheight : s.highestBlock.number < s.cache.prepareCache.height)
    (hblock : s.cache.prepareCache.pBlock = some b)
    (hlist : (∃ sigList, s.cache.generateSigList s.minValidNodes = some sigList ∧
        b' = { b with sigList }) ∨ (s.minValidNodes = 0 ∧ b' = b))
    (hcount : s.minValidNodes ≤
      ((VoteCache.votes s.cache.commitCache s.cache.prepareCache.blockHash).filter
        fun e => counts e.2).length) :
    SmallStep c e i s₀ s (s.saveBlock c e b')
  | addSign (s : Node H S T) (m) : SmallStep c e i s₀ s (s.withCache (s.cache.addSignReq m))
  | addCommit (m req req') (hi : i = .commitReqPacket m) (hreq : m.received = some req)
    (hcheck : ∃ res, s₀.isValidVote c e s₀.cache.commitCache req = (res, req') ∧ res ≠ .INVALID) :
    SmallStep c e i s₀ s₀ (s₀.withCache (s₀.cache.addCommitReq req'))
  | dropViewChanges (s : Node H S T) (q) (h : s.cache.DropsTo q) : SmallStep c e i s₀ s (s.withCache q)
  | insertViewChange (s : Node H S T) (req)
    (horigin : .viewChange req ∈ s.trace ∨ .acceptedViewChange req ∈ s.trace)
    (hheight : s.highestBlock.number ≤ req.height) :
    SmallStep c e i s₀ s (s.withCache (s.cache.insertViewChange req))
  | moveToView (s : Node H S T) (v failed)
    (h : s.toView ≤ v ∨ (i = .checkTimeout ∧ s₀.toView = MAXVIEW)) :
    SmallStep c e i s₀ s { s with toView := v, leaderFailed := failed }
  | enterView (s : Node H S T) (v) (hsealers : s.sealerList = s₀.sealerList)
    (hhighest : s.highestBlock = s₀.highestBlock)
    (hsize : s.minValidNodes ≤ s.cache.getViewChangeSize v % 65536)
    (hview : s.view < v ∨ v = s.toView) : SmallStep c e i s₀ s (s.checkAndChangeView v).1
  | report (number b) (hi : i = .reportBlock number)
    (hblock : s₀.chain.getBlockByNumber number = some b) :
    SmallStep c e i s₀ s₀ (s₀.reportBlockWithoutLock c e b)
  | collectGarbage (hi : i = .collectGarbage) : SmallStep c e i s₀ s₀ (s₀.collectGarbage c)
  | resetConfig (hi : i = .resetConfig ∨ ∃ b, i = .syncBlock b) :
    SmallStep c e i s₀ s₀ (s₀.resetConfig e)
  | storeSynced (s : Node H S T) (b chain) (hi : i = .syncBlock b)
    (hchain : s.chain.commitBlock c.crypto b e.dbCommitOk = some chain) :
    SmallStep c e i s₀ s { s with chain }

abbrev SmallSteps (c : Config H S T) (e : Env T) (i : Input H S T) (s₀ : Node H S T) :
    Node H S T → Node H S T → Prop := Relation.ReflTransGen (SmallStep c e i s₀)

namespace SmallSteps

variable {c : Config H S T} {e : Env T} {i : Input H S T} {s₀ s : Node H S T}

theorem one {s' : Node H S T} (h : SmallStep c e i s₀ s s') : SmallSteps c e i s₀ s s' :=
  Relation.ReflTransGen.single h

/-! ### Committing -/

theorem generateSigList_none {q : ReqCache H S T} {n : Nat} (hnone : q.generateSigList n = none)
    (hcount : n ≤ (VoteCache.votes q.commitCache q.prepareCache.blockHash).length) : n = 0 := by
  unfold ReqCache.generateSigList at hnone
  unfold VoteCache.votes at hcount
  cases hm : q.commitCache.find? q.prepareCache.blockHash with
  | none =>
    rw [hm] at hcount
    exact Nat.le_zero.mp hcount
  | some m =>
    rw [hm, Option.bind_some] at hnone
    rw [hm] at hcount
    by_cases hfew : m.size < n
    · exact absurd hcount (not_le.mpr hfew)
    · rw [if_neg hfew] at hnone
      cases hnone

theorem saveCounted {signSize commitSize : Nat} (hsame : SameRound s₀ s)
    (hcount : s.minValidNodes ≤ commitSize → s.minValidNodes ≤
      ((VoteCache.votes s.cache.commitCache s.cache.prepareCache.blockHash).filter
        fun e => counts e.2).length) :
    SmallSteps c e i s₀ s (s.saveCounted c e signSize commitSize) := by
  unfold Node.saveCounted
  split_ifs with henough hview hheight
  · exact .refl
  · cases hblock : s.cache.prepareCache.pBlock with
    | none => exact .refl
    | some b =>
      have hcount := hcount henough.2
      have hview := not_not.mp hview
      dsimp only
      cases hlist : s.cache.generateSigList s.minValidNodes with
      | some sigList =>
        exact one (.save s b _ hsame hview hheight hblock (.inl ⟨sigList, hlist, rfl⟩) hcount)
      | none =>
        have hzero := generateSigList_none hlist (le_trans hcount (List.length_filter_le _ _))
        exact one (.save s b _ hsame hview hheight hblock (.inr ⟨hzero, rfl⟩) hcount)
  · exact .refl
  · exact .refl

theorem checkAndSave (hsame : SameRound s₀ s) :
    SmallSteps c e i s₀ s (s.checkAndSave c e) := by
  have hsigns : SmallSteps c e i s₀ _ _ := one (.countSigns s)
  have hcommits := hsigns.tail (.countCommits _)
  exact hcommits.trans
    (saveCounted ⟨hsame.sealerList_eq, hsame.view_eq, hsame.chain_eq⟩ le_length_of_getCacheSize)

theorem checkAndCommit (hsame : SameRound s₀ s) (hcfg : s₀.cfgErr c = false)
    (hcause : s.cache.prepareCache.height = s.consensusBlockNumber ∨
      ∃ m req, i = .signReqPacket m ∧ m.received = some req ∧
        req.blockHash = s.cache.prepareCache.blockHash ∧ req.view = s.cache.prepareCache.view) :
    SmallSteps c e i s₀ s (s.checkAndCommit c e) := by
  have hcounted : SmallSteps c e i s₀ s _ := one (.countSigns s)
  unfold Node.checkAndCommit
  dsimp only
  split_ifs with hsize hview
  · exact hcounted
  · have hlocked := hcounted.tail (.lock _ ⟨hsame.sealerList_eq, hsame.view_eq, hsame.chain_eq⟩
      hcfg (not_not.mp hview) hcause)
    exact hlocked.trans (checkAndSave ⟨hsame.sealerList_eq, hsame.view_eq, hsame.chain_eq⟩)
  · exact hcounted

/-! ### Prepare requests -/

theorem addFuturePrepareCache {req : Prepare H S T} (h : KnownPrepare c e i s₀ req) :
    SmallSteps c e i s₀ s (s.withCache (s.cache.addFuturePrepareCache req)) := by
  unfold ReqCache.addFuturePrepareCache
  split_ifs
  · exact .refl
  · exact .refl
  · refine one (.pending s _ _ _ _ ?_ (.inl rfl) (.inl rfl))
    intro height r hr
    rw [AssocMap.find?_insert] at hr
    split_ifs at hr
    · cases hr
      exact .inr h
    · exact .inl hr

theorem replaceRaw {raw : Option (PartiallyPrepare H S T)} (same : Bool)
    (h : ∀ p pb, raw = some p → p.pBlock = some pb → KnownProposal c e i s₀ pb) :
    SmallSteps c e i s₀ s
      (s.withCache { s.cache with partiallyRawPrepare := raw, rawIsPartially := same }) :=
  one (.pending s _ _ _ _ (fun _ _ hr => .inl hr) (.inr h) (.inl rfl))

theorem dropRaw : SmallSteps c e i s₀ s
    (s.withCache { s.cache with partiallyRawPrepare := none, rawIsPartially := false }) :=
  replaceRaw false fun _ _ h => nomatch h

theorem execPrepareAndGenerateSignMsg_eq (s : Node H S T) (req : Prepare H S T) :
    s.execPrepareAndGenerateSignMsg c e req =
      match s.executed c e req with
      | none => s
      | some b => (s.broadcastSignReq c e req b).checkAndCommit c e := by
  unfold Node.execPrepareAndGenerateSignMsg Node.executed
  cases s.execBlock c e req with
  | none => rfl
  | some r =>
    obtain ⟨b, hasContext⟩ := r
    cases hasContext with
    | false => simp
    | true =>
      cases hempty : b.transactions.isEmpty with
      | true => simp [hempty]
      | false => simp [hempty]

theorem executed_withCache (hsame : SameRound s₀ s) (q : ReqCache H S T) (req : Prepare H S T) :
    (s.withCache q).executed c e req = s₀.executed c e req := by
  unfold Node.executed Node.execBlock Node.checkBlockValid
  rw [← hsame.sealerList_eq, ← hsame.chain_eq]
  rfl

theorem signAndCommit {req : Prepare H S T} {b : Block H S T} (htaken : Taken c e i s₀ s req)
    (hexec : s₀.executed c e req = some b) :
    SmallSteps c e i s₀ s (((s.withCache { s.cache with rawPrepareCache := req }).broadcastSignReq
      c e req b).checkAndCommit c e) := by
  have hsigned : SmallSteps c e i s₀ _ _ := one (.sign s req b htaken hexec)
  have hsame : SameRound s₀ ((s.withCache { s.cache with rawPrepareCache := req }).broadcastSignReq
      c e req b) := ⟨htaken.same.sealerList_eq, htaken.same.view_eq, htaken.same.chain_eq⟩
  have hcfg := Node.cfgErr_of_valid htaken.valid
  exact hsigned.trans (checkAndCommit hsame hcfg (.inl htaken.current.height_eq))

theorem handlePrepareMsg {req : Prepare H S T} (hhanded : s₀.handedPrepare c e i = some req)
    (hsame : SameRound s₀ s)
    (hcommitted : s.cache.committedPrepareCache = s₀.cache.committedPrepareCache)
    (hvalid : s.isValidPrepare c e req = s₀.isValidPrepare c e req) :
    SmallSteps c e i s₀ s (s.handlePrepareMsg c e req) := by
  unfold Node.handlePrepareMsg
  cases hres : s.isValidPrepare c e req with
  | INVALID => exact .refl
  | FUTURE =>
    refine addFuturePrepareCache (.handed req hhanded ?_)
    rw [← hvalid, hres]
    intro hinvalid
    cases hinvalid
  | VALID =>
    have htaken : Taken c e i s₀ s req :=
      ⟨hhanded, hvalid ▸ hres, Node.current_of_valid hres, hsame, hcommitted⟩
    have hraw : SmallSteps c e i s₀ _ _ := one (.takeRaw s req htaken)
    dsimp only
    rw [execPrepareAndGenerateSignMsg_eq, executed_withCache hsame]
    cases hb : s₀.executed c e req with
    | none => exact hraw
    | some b => exact hraw.trans (signAndCommit (htaken.withCache rfl) hb)

theorem handleFutureBlock (hi : i = .handleFutureBlock) :
    SmallSteps c e i s₀ s₀ (s₀.handleFutureBlock c e) := by
  unfold Node.handleFutureBlock
  cases hfound : s₀.cache.futurePrepareCache.find? s₀.consensusBlockNumber with
  | none => exact .refl
  | some req =>
    dsimp only
    split_ifs
    · have hhanded : s₀.handedPrepare c e i = some req := by
        rw [hi]
        exact hfound
      refine (handlePrepareMsg hhanded ⟨rfl, rfl, rfl⟩ rfl rfl).tail
        (.pending _ _ _ _ _ ?_ (.inl rfl) (.inl rfl))
      intro height r hr
      rw [AssocMap.find?_erase] at hr
      split_ifs at hr
      exact .inl hr
    · exact .refl

theorem shouldSeal (hi : i = .shouldSeal) : SmallSteps c e i s₀ s₀ (s₀.shouldSeal c e) := by
  unfold Node.shouldSeal
  split_ifs
  · exact .refl
  · exact .refl
  · exact .refl
  · exact .refl
  · have hhanded : s₀.handedPrepare c e i = some (s₀.rehandledPrepare c e) := by
      rw [hi]
      rfl
    have hnote : SmallSteps c e i s₀ _ _ := one (.note s₀
      (.prepare (s₀.rehandledPrepare c e) false) trivial)
    exact hnote.trans (handlePrepareMsg hhanded ⟨rfl, rfl, rfl⟩ rfl rfl)

theorem generatePrepare {b : Block H S T} (hi : i = .generatePrepare b) :
    SmallSteps c e i s₀ s₀ (s₀.generatePrepare c e b) := by
  unfold Node.generatePrepare
  by_cases hleader : s₀.getLeader c ≠ some (s₀.nodeIdx c)
  · rw [if_pos hleader]
  · rw [if_neg hleader]
    cases b.encodeProposal c.crypto c.enablePrepareWithTxsHash with
    | none => exact .refl
    | some proposal =>
      cases hfull : b.encode c.crypto with
      | none => exact .refl
      | some full =>
        have hnote : SmallSteps c e i s₀ _ _ := one (.note s₀
          (.prepare (s₀.constructPrepareReq c e b proposal)
            (c.enablePrepareWithTxsHash && !b.transactions.isEmpty)) trivial)
        dsimp only
        by_cases hempty : b.transactions.isEmpty = true
        · rw [if_pos hempty]
          exact hnote.tail (.moveToView _ _ true (.inl le_rfl))
        · rw [if_neg hempty]
          have hhanded : s₀.handedPrepare c e i = some (s₀.constructPrepareReq c e b full) := by
            rw [hi]
            change (b.encode c.crypto).map _ = _
            rw [hfull]
            rfl
          exact hnote.trans (handlePrepareMsg hhanded ⟨rfl, rfl, rfl⟩ rfl rfl)

/-! ### Proposals with transaction hashes -/

theorem handleCompletePrepare {p : PBFTMsg H S} {block : EncodedBlock H S T} {req : Prepare H S T}
    {b : Block H S T} (hi : i = .partiallyPreparePacket p block)
    (hprepare : s.cache.prepareCache = s₀.cache.prepareCache)
    (htaken : Taken c e i s₀ s (Node.withBlock c req b)) :
    SmallSteps c e i s₀ s (s.handleCompletePrepare c e req b) := by
  unfold Node.withBlock at htaken
  unfold Node.handleCompletePrepare
  cases henc : b.encode c.crypto with
  | none =>
    rw [henc] at htaken
    exact (one (.transRaw s _ p block htaken hi hprepare (.inr ⟨b, rfl, henc⟩))).trans dropRaw
  | some full =>
    rw [henc] at htaken
    dsimp only
    rw [execPrepareAndGenerateSignMsg_eq, executed_withCache htaken.same]
    cases hb : s₀.executed c e { req with block := full, pBlock := some b } with
    | none =>
      exact (one (.transRaw s _ p block htaken hi hprepare (.inl hb))).trans dropRaw
    | some b' =>
      have hpending : SmallSteps c e i s₀ s _ := dropRaw
      exact hpending.trans (signAndCommit (htaken.withCache rfl) hb)

theorem handlePartiallyPrepare {p : PBFTMsg H S} {block : EncodedBlock H S T} {req : Prepare H S T}
    (hi : i = .partiallyPreparePacket p block) (hreq : Input.receivedPrepare p block false = some req) :
    SmallSteps c e i s₀ s₀ (s₀.handlePartiallyPrepare c e req) := by
  have hknown : s₀.isValidPrepare c e req ≠ .INVALID → ∀ pb,
      Node.decodedProposal c e req = some pb → KnownProposal c e i s₀ pb :=
    fun hvalid pb hpb => .received p block req pb hi hreq hvalid hpb
  unfold Node.handlePartiallyPrepare
  rw [← Node.decodedProposal]
  dsimp only
  cases hres : s₀.isValidPrepare c e req with
  | INVALID => exact .refl
  | FUTURE =>
    have hknown := hknown (by rw [hres]; intro h; cases h)
    dsimp only
    cases hpb : Node.decodedProposal c e req with
    | none => exact .refl
    | some pb =>
      have hreplaced : SmallSteps c e i s₀ s₀ (s₀.withCache
          { s₀.cache with partiallyFuturePrepare := some { req, pBlock := some pb } }) := by
        refine one (.pending s₀ _ _ _ _ (fun _ _ hr => .inl hr) (.inl rfl) (.inr ?_))
        intro p pb' hp hpb'
        cases hp
        cases hpb'
        exact hknown pb hpb
      dsimp only
      cases hb : Node.completeBlock pb with
      | none =>
        dsimp only
        unfold ReqCache.addPartiallyFuturePrepare
        split
        · exact hreplaced
        · split_ifs
          · exact hreplaced
          · exact .refl
      | some b =>
        dsimp only
        split
        · exact .refl
        · exact addFuturePrepareCache (.completed _ pb b (hknown pb hpb) hb rfl)
  | VALID =>
    have hknown := hknown (by rw [hres]; intro h; cases h)
    dsimp only
    unfold ReqCache.addPartiallyRawPrepare
    split_ifs
    · exact .refl
    · dsimp only
      have hpending : SmallSteps c e i s₀ s₀ (s₀.withCache { s₀.cache with
          partiallyRawPrepare := some { req, pBlock := Node.decodedProposal c e req }
          rawIsPartially := false }) := by
        apply replaceRaw
        intro p pb hp hpb
        cases hp
        exact hknown pb hpb
      cases hb : (Node.decodedProposal c e req).bind Node.completeBlock with
      | none => exact hpending
      | some b =>
        have hhanded : s₀.handedPrepare c e i = some (Node.withBlock c req b) := by
          rw [hi]
          change (Input.receivedPrepare p block false).bind _ = _
          rw [hreq]
          change ((Node.decodedProposal c e req).bind Node.completeBlock).map _ = _
          rw [hb]
          rfl
        have hvalid : s₀.isValidPrepare c e (Node.withBlock c req b) = .VALID := by
          rw [← hres]
          exact Node.isValidPrepare_congr c e s₀ rfl
        have htaken : Taken c e i s₀ s₀ (Node.withBlock c req b) :=
          ⟨hhanded, hvalid, Node.current_of_valid hvalid, .refl s₀, rfl⟩
        exact hpending.trans (handleCompletePrepare hi rfl (htaken.withCache rfl))

theorem handleFilledPrepare {resp : MissedTxsResponse H T} {req : Prepare H S T}
    {p p' : PartiallyBlock H T} (hi : i = .missedTxsPacket resp)
    (hraw : s₀.cache.partiallyRawPrepare = some ⟨req, some p⟩)
    (hfill : p.fillBlock c.crypto resp = some p') :
    SmallSteps c e i s₀ s₀ (s₀.handleFilledPrepare c e req p') := by
  have hkeep : ∀ req, SmallSteps c e i s₀ s₀
      (s₀.withCache { s₀.cache with partiallyRawPrepare := some ⟨req, some p'⟩ }) := by
    intro req'
    apply replaceRaw
    intro q pb hq hpb
    cases hq
    cases hpb
    exact .filled resp p p' (.held _ p (.inl hraw) rfl) hfill
  unfold Node.handleFilledPrepare
  cases hb : Node.completeBlock p' with
  | none => exact hkeep req
  | some b =>
    dsimp only
    cases henc : b.encode c.crypto with
    | none => exact hkeep _
    | some full =>
      dsimp only
      have hhanded : s₀.handedPrepare c e i = some { req with block := full, pBlock := some b } := by
        rw [hi]
        change s₀.cache.partiallyRawPrepare.bind _ = _
        rw [hraw]
        change ((p.fillBlock c.crypto resp).bind Node.completeBlock).map _ = _
        rw [hfill]
        change (Node.completeBlock p').map _ = _
        rw [hb]
        change some (Node.withBlock c req b) = _
        unfold Node.withBlock
        rw [henc]
        rfl
      have hhandled := (hkeep { req with block := full, pBlock := some b }).trans
        (handlePrepareMsg hhanded ⟨rfl, rfl, rfl⟩ rfl rfl)
      split_ifs
      · exact hhandled.tail (.pending _ _ _ true _ (fun _ _ hr => .inl hr) (.inl rfl) (.inl rfl))
      · exact hhandled

theorem onReceiveMissedTxsResponse {resp : MissedTxsResponse H T} (hi : i = .missedTxsPacket resp) :
    SmallSteps c e i s₀ s₀ (s₀.onReceiveMissedTxsResponse c e resp) := by
  have hdropped : SmallSteps c e i s₀ s₀
      (s₀.withCache { s₀.cache with partiallyFuturePrepare := none }) :=
    one (.pending s₀ _ _ _ _ (fun _ _ hr => .inl hr) (.inl rfl) (.inr fun _ _ h => nomatch h))
  unfold Node.onReceiveMissedTxsResponse
  split_ifs
  · split
    · next req p hpfuture =>
      cases hfill : p.fillBlock c.crypto resp with
      | none => exact .refl
      | some p' =>
        have hknown : KnownProposal c e i s₀ p' :=
          .filled resp p p' (.held _ p (.inr hpfuture) rfl) hfill
        dsimp only
        split
        · exact hdropped
        · next b block hcompleted =>
          obtain ⟨b', hb', henc⟩ := Option.bind_eq_some_iff.mp hcompleted
          obtain ⟨block', -, heq⟩ := Option.map_eq_some_iff.mp henc
          cases heq
          exact hdropped.trans (addFuturePrepareCache (.completed _ p' b hknown hb' rfl))
    · exact .refl
  · split
    · next req p hraw =>
      cases hfill : p.fillBlock c.crypto resp with
      | none => exact .refl
      | some p' => exact handleFilledPrepare hi hraw hfill
    · exact .refl

/-! ### Sign and commit requests -/

theorem isValidVote_valid {cache : VoteCache H S} {m m' : PBFTMsg H S}
    (h : s.isValidVote c e cache m = (.VALID, m')) :
    m' = m ∧ m.blockHash = s.cache.prepareCache.blockHash ∧ m.view = s.cache.prepareCache.view ∧
      m.idx ≠ s.nodeIdx c ∧ s.checkSign c m = true := by
  unfold Node.isValidVote Node.checkReq at h
  split_ifs at h with hexist hcons hsync hhash hfuture hidx hview hsign
  · cases h
  · cases h
  · cases h
  · cases h
  · cases h
  · cases h
  · cases h
  · cases h
  · cases h
    refine ⟨rfl, (not_not.mp hhash).symm, (not_not.mp hview).symm, hidx, ?_⟩
    simpa using hsign

theorem isValidVote_kept {cache : VoteCache H S} {m m' : PBFTMsg H S} {res : CheckResult}
    (h : s.isValidVote c e cache m = (res, m')) (hres : res ≠ .INVALID) :
    VoteCache.cacheExists cache m = false ∧
      ((m' = m ∧ s.checkSign c m = true) ∨ m' = { m with isFuture := true, signChecked := false }) := by
  unfold Node.isValidVote Node.checkReq at h
  split_ifs at h with hexist hcons hsync hhash hfuture hidx hview hsign
  · cases h
    exact absurd rfl hres
  · cases h
    exact absurd rfl hres
  · cases h
    exact absurd rfl hres
  · cases h
    exact ⟨Bool.eq_false_iff.mpr hexist, .inr rfl⟩
  · cases h
    exact absurd rfl hres
  · cases h
    exact absurd rfl hres
  · cases h
    exact absurd rfl hres
  · cases h
    exact absurd rfl hres
  · cases h
    exact ⟨Bool.eq_false_iff.mpr hexist, .inl ⟨rfl, by simpa using hsign⟩⟩

theorem handleSignMsg {m req : PBFTMsg H S} (hcfg : s₀.cfgErr c = false) (hi : i = .signReqPacket m)
    (hreq : m.received = some req) : SmallSteps c e i s₀ s₀ (s₀.handleSignMsg c e req) := by
  unfold Node.handleSignMsg
  cases hres : s₀.isValidVote c e s₀.cache.signCache req with
  | mk res req' =>
    cases res with
    | INVALID => exact .refl
    | FUTURE => exact one (.addSign s₀ req')
    | VALID =>
      obtain ⟨rfl, hhash, hview, -, -⟩ := isValidVote_valid hres
      have hadded : SmallSteps c e i s₀ _ _ := one (.addSign s₀ req')
      exact hadded.trans
        (checkAndCommit ⟨rfl, rfl, rfl⟩ hcfg (.inr ⟨m, req', hi, hreq, hhash, hview⟩))

theorem handleCommitMsg {m req : PBFTMsg H S} (hi : i = .commitReqPacket m)
    (hreq : m.received = some req) : SmallSteps c e i s₀ s₀ (s₀.handleCommitMsg c e req) := by
  unfold Node.handleCommitMsg
  cases hres : s₀.isValidVote c e s₀.cache.commitCache req with
  | mk res req' =>
    cases res with
    | INVALID => exact .refl
    | FUTURE => exact one (.addCommit m req req' hi hreq ⟨_, hres, by simp⟩)
    | VALID =>
      have hadded := one (.addCommit m req req' hi hreq ⟨_, hres, by simp⟩)
      exact hadded.trans (checkAndSave ⟨rfl, rfl, rfl⟩)

/-! ### View changes -/

theorem addViewChangeReq (req : PBFTMsg H S) (number : Int)
    (horigin : .viewChange req ∈ s.trace ∨ .acceptedViewChange req ∈ s.trace)
    (hheight : s.highestBlock.number ≤ req.height) :
    SmallSteps c e i s₀ s (s.withCache (s.cache.addViewChangeReq req number)) := by
  obtain ⟨q, hdrops, hadd⟩ := s.cache.addViewChangeReq_cases req number
  have hdropped : SmallSteps c e i s₀ _ _ := one (.dropViewChanges s q hdrops)
  rcases hadd with hadd | ⟨-, hadd⟩
  · rw [hadd]
    exact hdropped
  · rw [hadd]
    exact hdropped.tail (.insertViewChange (s.withCache q) req horigin hheight)

theorem checkAndChangeView (view : Int) (hsealers : s.sealerList = s₀.sealerList)
    (hhighest : s.highestBlock = s₀.highestBlock) (hview : s.view < view ∨ view = s.toView) :
    SmallSteps c e i s₀ s (s.checkAndChangeView view).1 := by
  by_cases hsize : s.minValidNodes ≤ s.cache.getViewChangeSize view % 65536
  · exact one (.enterView s view hsealers hhighest hsize hview)
  · unfold Node.checkAndChangeView
    rw [if_neg hsize]

theorem catchupView (req : PBFTMsg H S) : SmallSteps c e i s₀ s (s.catchupView c e req) := by
  unfold Node.catchupView
  cases s.getNodeIDByIndex req.idx with
  | none => exact .refl
  | some id =>
    have hdropped : SmallSteps c e i s₀ _ _ := one (.dropViewChanges s
      (s.cache.eraseLatestViewChangeCacheForNodeUpdated req.idx) ⟨_, _, .refl, rfl⟩)
    exact hdropped.tail (.note _ _ trivial)

theorem isValidViewChangeReq (source : Nat) (req : PBFTMsg H S) :
    SmallSteps c e i s₀ s (s.isValidViewChangeReq c e source req).1 ∧
      ((s.isValidViewChangeReq c e source req).2 = true →
        (s.isValidViewChangeReq c e source req).1.sealerList = s.sealerList ∧
        (s.isValidViewChangeReq c e source req).1.highestBlock = s.highestBlock ∧
        (s.isValidViewChangeReq c e source req).1.view < req.view ∧
        s.highestBlock.number ≤ req.height) := by
  unfold Node.isValidViewChangeReq
  by_cases hexist : s.cache.isExistViewChange req = true
  · rw [if_pos hexist]
    exact ⟨.refl, by simp⟩
  rw [if_neg hexist]
  by_cases hidx : req.idx = s.nodeIdx c
  · rw [if_pos hidx]
    exact ⟨.refl, by simp⟩
  rw [if_neg hidx]
  by_cases hheight : req.height < s.highestBlock.number
  · rw [if_pos hheight]
    exact ⟨.refl, by simp⟩
  rw [if_neg hheight]
  have hcaught : ∃ t, (if succInt64 req.view < s.toView ∧ req.idx = source then s.catchupView c e req
      else s) = t ∧ SmallSteps c e i s₀ s t ∧ t.sealerList = s.sealerList ∧
        t.highestBlock = s.highestBlock := by
    refine ⟨_, rfl, ?_⟩
    split_ifs
    · refine ⟨catchupView req, ?_⟩
      unfold Node.catchupView
      cases s.getNodeIDByIndex req.idx with
      | none => exact ⟨rfl, rfl⟩
      | some id => exact ⟨rfl, rfl⟩
    · exact ⟨.refl, rfl, rfl⟩
  obtain ⟨t, ht, hsteps, hsealers, hhighest⟩ := hcaught
  dsimp only
  rw [ht]
  split_ifs with hview
  · exact ⟨hsteps, by simp⟩
  · exact ⟨hsteps, by simp⟩
  · exact ⟨hsteps, by simp⟩
  · exact ⟨hsteps, fun _ => ⟨hsealers, hhighest, not_le.mp hview, not_lt.mp hheight⟩⟩

theorem handleViewChangeMsg {source : Nat} {req : PBFTMsg H S} (hreq : req.view ≤ MAXVIEW) :
    SmallSteps c e i s₀ s₀ (s₀.handleViewChangeMsg c e source req) := by
  obtain ⟨hchecked, hvalid⟩ : SmallSteps c e i s₀ s₀ (s₀.isValidViewChangeReq c e source req).1 ∧ _ :=
    isValidViewChangeReq source req
  unfold Node.handleViewChangeMsg
  dsimp only
  generalize s₀.isValidViewChangeReq c e source req = r at hchecked hvalid ⊢
  obtain ⟨t, ok⟩ := r
  cases ok with
  | false => exact hchecked
  | true =>
    obtain ⟨hsealers, hhighest, hview, hheight⟩ := hvalid rfl
    change t.sealerList = s₀.sealerList at hsealers
    change t.highestBlock = s₀.highestBlock at hhighest
    have hnoted := hchecked.tail (.note t (.acceptedViewChange req) trivial)
    have hadded := hnoted.trans (addViewChangeReq req t.chain.number
      (.inr (List.mem_cons_self ..)) (hhighest ▸ hheight))
    have hchanged := hadded.trans (checkAndChangeView req.view hsealers hhighest (.inl hview))
    rw [if_pos rfl]
    split_ifs with hlow htrigger
    · refine hchanged.tail (.moveToView _ _ _ (.inl ?_))
      simp only [Bool.and_eq_true, Bool.not_eq_true', decide_eq_true_eq] at hlow
      have hlt := lt_of_lt_of_le hlow.2 hreq
      exact Int.le_sub_one_of_lt (ReqCache.toView_lt_minView _ _ hlt)
    · exact hchanged
    · exact hchanged

theorem checkTimeout (hi : i = .checkTimeout) : SmallSteps c e i s₀ s₀ (s₀.checkTimeout c e) := by
  unfold Node.checkTimeout
  have hup : s₀.toView ≤ succInt64 s₀.toView ∨ (i = .checkTimeout ∧ s₀.toView = MAXVIEW) := by
    unfold succInt64
    split_ifs with hmax
    · exact .inr ⟨hi, hmax⟩
    · exact .inl (le_of_lt (lt_add_one s₀.toView))
  have hmoved : SmallSteps c e i s₀ _ _ := one (.moveToView s₀ (succInt64 s₀.toView) true hup)
  have hdropped := hmoved.tail (.dropViewChanges _ _
    (ReqCache.removeInvalidViewChange_drops _ (succInt64 s₀.toView) s₀.highestBlock.number
      (c.crypto.headerHash s₀.highestBlock)))
  have hnoted := hdropped.tail (.note _ (.viewChange (Node.ownViewChange c e
    { s₀ with toView := succInt64 s₀.toView })) trivial)
  have hadded := hnoted.trans (addViewChangeReq _ s₀.chain.number (.inl (List.mem_cons_self ..)) le_rfl)
  exact hadded.trans (checkAndChangeView _ rfl rfl (.inr rfl))

/-! ### Blocks -/

theorem syncBlock {b : Block H S T} (hi : i = .syncBlock b) :
    SmallSteps c e i s₀ s₀ (s₀.syncBlock c e b) := by
  have hchecked : SmallSteps c e i s₀ s₀ (s₀.checkBlock c e b).1 := by
    unfold Node.checkBlock
    split_ifs
    · exact .refl
    · exact one (.resetConfig (.inr ⟨b, hi⟩))
  unfold Node.syncBlock
  dsimp only
  split_ifs
  · cases hchain : (s₀.checkBlock c e b).1.chain.commitBlock c.crypto b e.dbCommitOk with
    | none => exact hchecked
    | some chain => exact hchecked.tail (.storeSynced _ b chain hi hchain)
  · exact hchecked

end SmallSteps

theorem PBFTMsg.view_le_of_received {m req : PBFTMsg H S} (h : m.received = some req) :
    req.view ≤ MAXVIEW := by
  unfold PBFTMsg.received at h
  split_ifs at h with hfits
  cases h
  exact hfits.2.2.2.2

theorem PBFTMsg.idx_lt_of_received {m req : PBFTMsg H S} (h : m.received = some req) :
    req.idx < 65536 := by
  unfold PBFTMsg.received at h
  split_ifs at h with hfits
  cases h
  exact hfits.1

theorem PBFTMsg.isFuture_of_received {m req : PBFTMsg H S} (h : m.received = some req) :
    req.isFuture = false := by
  unfold PBFTMsg.received at h
  split_ifs at h
  cases h
  rfl

theorem Node.handleMsg_smallSteps (c : Config H S T) (e : Env T) (s : Node H S T)
    (i : Input H S T) (hcfg : s.cfgErr c = false) : SmallSteps c e i s s (s.handleMsg c e i) := by
  cases i with
  | prepareReqPacket req block mark =>
    simp only [handleMsg]
    cases hreq : Input.receivedPrepare req block mark with
    | none => exact .refl
    | some r => exact SmallSteps.handlePrepareMsg hreq (.refl s) rfl rfl
  | signReqPacket m =>
    simp only [handleMsg]
    cases hreq : m.received with
    | none => exact .refl
    | some req => exact SmallSteps.handleSignMsg hcfg rfl hreq
  | commitReqPacket m =>
    simp only [handleMsg]
    cases hreq : m.received with
    | none => exact .refl
    | some req => exact SmallSteps.handleCommitMsg rfl hreq
  | viewChangeReqPacket source m =>
    simp only [handleMsg]
    cases hreq : m.received with
    | none => exact .refl
    | some req => exact SmallSteps.handleViewChangeMsg (PBFTMsg.view_le_of_received hreq)
  | partiallyPreparePacket req block =>
    simp only [handleMsg]
    cases hreq : Input.receivedPrepare req block false with
    | none => exact .refl
    | some r =>
      dsimp only
      split_ifs
      · exact SmallSteps.handlePartiallyPrepare rfl hreq
      · exact .refl
  | handleFutureBlock => exact SmallSteps.handleFutureBlock rfl
  | checkTimeout => exact SmallSteps.checkTimeout rfl
  | collectGarbage => exact .single (.collectGarbage rfl)
  | _ => exact .refl

/-- **Every step of the engine is a sequence of small steps.** -/
theorem engine_madeOf (c : Config H S T) :
    (engine c).MadeOf fun s i => SmallStep c i.1 i.2 s := by
  rintro s ⟨e, i⟩
  change SmallSteps c e i s s (s.step c e i)
  have hmsg : SmallSteps c e i s s (if s.cfgErr c then s else s.handleMsg c e i) := by
    split_ifs with hcfg
    · exact .refl
    · exact s.handleMsg_smallSteps c e i (Bool.eq_false_iff.mpr hcfg)
  cases i with
  | missedTxsPacket resp =>
    simp only [Node.step]
    split_ifs
    · exact SmallSteps.onReceiveMissedTxsResponse rfl
    · exact .refl
  | disconnect idx => exact .single (.dropViewChanges s _ ⟨_, _, .refl, rfl⟩)
  | shouldSeal => exact SmallSteps.shouldSeal rfl
  | generatePrepare b => exact SmallSteps.generatePrepare rfl
  | reportBlock number =>
    simp only [Node.step, Node.reportBlock]
    cases hblock : s.chain.getBlockByNumber number with
    | none => exact .refl
    | some b => exact .single (.report number b rfl hblock)
  | syncBlock b => exact SmallSteps.syncBlock rfl
  | resetConfig => exact .single (.resetConfig (.inl rfl))
  | _ => exact hmsg

end HieraChain.PBFT
