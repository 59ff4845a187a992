/-
  HieraChain/PBFTReqCache.lean
  ============================
  **The request caches of a PBFT node** (`PBFTReqCache`, `PartiallyPBFTReqCache`).

  Sign and commit requests are kept by block hash and, below a hash, by
  signature; view-change requests by view and index.  A request that arrives
  before its prepare is kept as a future request, unchecked, and its signature
  is checked when the cache is counted (`checkAndRemoveInvalidFutureReq`).  The
  count is taken on a filtered copy; only the marks reach the cache itself.

  `std::unordered_map` has no order; the maps here keep the order of insertion.
  The cache pointer of the raw prepare may also be that of the partially
  received one (`rawIsPartially`), in which case clearing one clears both.
-/
import HieraChain.AssocMap
import HieraChain.Block
import HieraChain.PBFTCommon

set_option linter.unusedSectionVars false

namespace HieraChain.PBFT

variable {H S T : Type}

/-- A prepare request; its block travels encoded and is kept decoded once it is known. -/
abbrev Prepare (H S T : Type) := PrepareReq H S (EncodedBlock H S T) (Block H S T)

abbrev VoteCache (H S : Type) := AssocMap H (AssocMap S (PBFTMsg H S))

structure PartiallyPrepare (H S T : Type) where
  req : Prepare H S T
  -- `none` when the proposal did not decode
  pBlock : Option (PartiallyBlock H T)

structure ReqCache (H S T : Type) where
  prepareCache : Prepare H S T
  rawPrepareCache : Prepare H S T
  signCache : VoteCache H S := .empty
  commitCache : VoteCache H S := .empty
  recvViewChangeReq : AssocMap Int (AssocMap Nat (PBFTMsg H S)) := .empty
  latestViewChangeReqCache : AssocMap Nat (PBFTMsg H S) := .empty
  committedPrepareCache : Prepare H S T
  futurePrepareCache : AssocMap Int (Prepare H S T) := .empty
  partiallyRawPrepare : Option (PartiallyPrepare H S T) := none
  rawIsPartially : Bool := false
  partiallyFuturePrepare : Option (PartiallyPrepare H S T) := none

def maxFuturePrepareCacheSize : Nat := 10

/-! ### Messages -/

section Clear

variable [Zero H]

/-- `PBFTMsg::clear`; the signature bytes stay. -/
def PBFTMsg.clear (m : PBFTMsg H S) : PBFTMsg H S :=
  { m with height := -1, view := MAXVIEW, idx := MAXIDX, timestamp := Invalid256, blockHash := 0 }

def PrepareReq.clear (r : Prepare H S T) : Prepare H S T := { r with toPBFTMsg := r.toPBFTMsg.clear }

end Clear

/-! ### Future requests -/

/-- The walk of `checkAndRemoveInvalidFutureReq`: the entries with their new
    marks and the size of the filtered copy.  `futureReqSize` counts the future
    requests kept so far; at the limit every later future request leaves the
    copy, unchecked. -/
def walkFutureReq (checkSign : PBFTMsg H S → Bool) (needLimitFutureReqSize : Bool)
    (limitedSize : Nat) : Nat → List (S × PBFTMsg H S) → List (S × PBFTMsg H S) × Nat
  | _, [] => ([], 0)
  | futureReqSize, (sig, req) :: rest =>
    if !req.isFuture then
      let r := walkFutureReq checkSign needLimitFutureReqSize limitedSize futureReqSize rest
      ((sig, req) :: r.1, r.2 + 1)
    else if needLimitFutureReqSize && decide (limitedSize ≤ futureReqSize) then
      -- `removeAllRedundantFutureReq`
      ((sig, req) :: rest, (rest.filter fun e => !e.2.isFuture).length)
    else if req.signChecked then
      let r := walkFutureReq checkSign needLimitFutureReqSize limitedSize (futureReqSize + 1) rest
      ((sig, req) :: r.1, r.2 + 1)
    else if checkSign req then
      let r := walkFutureReq checkSign needLimitFutureReqSize limitedSize (futureReqSize + 1) rest
      ((sig, { req with signChecked := true }) :: r.1, r.2 + 1)
    else
      let r := walkFutureReq checkSign needLimitFutureReqSize limitedSize futureReqSize rest
      ((sig, req) :: r.1, r.2)

theorem walkFutureReq_keys (checkSign : PBFTMsg H S → Bool) (need : Bool) (limit : Nat) (k : Nat)
    (l : List (S × PBFTMsg H S)) :
    (walkFutureReq checkSign need limit k l).1.map Prod.fst = l.map Prod.fst := by
  induction l generalizing k with
  | nil => rfl
  | cons e rest ih =>
    obtain ⟨sig, req⟩ := e
    unfold walkFutureReq
    split_ifs
    · simp only [List.map_cons, ih]
    · rfl
    · simp only [List.map_cons, ih]
    · simp only [List.map_cons, ih]
    · simp only [List.map_cons, ih]

def markFutureReq (checkSign : PBFTMsg H S → Bool) (need : Bool) (limit : Nat)
    (m : AssocMap S (PBFTMsg H S)) : AssocMap S (PBFTMsg H S) where
  entries := (walkFutureReq checkSign need limit 0 m.entries).1
  nodup := (walkFutureReq_keys checkSign need limit 0 m.entries).symm ▸ m.nodup

/-! ### Votes -/

variable [DecidableEq H] [DecidableEq S]

namespace VoteCache

def votes (cache : VoteCache H S) (hash : H) : List (S × PBFTMsg H S) :=
  ((cache.find? hash).map AssocMap.entries).getD []

def getSizeFromCache (cache : VoteCache H S) (hash : H) : Nat := (votes cache hash).length

/-- `cacheExists` with the block hash and the signature of the request. -/
def cacheExists (cache : VoteCache H S) (req : PBFTMsg H S) : Bool :=
  (votes cache req.blockHash).any fun e => decide (e.1 = req.sig)

/-- `addSignReq`, `addCommitReq`: the first request with a signature stays. -/
def addReq (cache : VoteCache H S) (req : PBFTMsg H S) : VoteCache H S :=
  if cacheExists cache req then cache
  else cache.insert req.blockHash
    (((cache.find? req.blockHash).getD .empty).insert req.sig req)

/-- Keep the requests under `hash` that satisfy `p`. -/
def filterVotes (cache : VoteCache H S) (hash : H) (p : PBFTMsg H S → Bool) : VoteCache H S :=
  match cache.find? hash with
  | none => cache
  | some m => cache.insert hash (m.filter fun _ req => p req)

/-- `removeInvalidSignCache`, `removeInvalidCommitCache` -/
def removeInvalid (cache : VoteCache H S) (hash : H) (view : Int) : VoteCache H S :=
  filterVotes cache hash fun req => decide (req.view = view)

/-- `removeExpiredSignCache`, `removeExpiredCommitCache`, over every hash. -/
def removeExpired (cache : VoteCache H S) (view : Int) : VoteCache H S :=
  cache.mapVal fun m => m.filter fun _ req => decide (view ≤ req.view)

end VoteCache

/-- `checkAndRemoveInvalidFutureReq`: the cache afterwards and the count. -/
def checkAndRemoveInvalidFutureReq (checkSign : PBFTMsg H S → Bool) (hash : H)
    (cache : VoteCache H S) (need : Bool) (limit : Nat) : VoteCache H S × Nat :=
  match cache.find? hash with
  | none => (cache, 0)
  | some m =>
    let size := (walkFutureReq checkSign need limit 0 m.entries).2
    if size = 0 then (cache.erase hash, 0)
    else (cache.insert hash (markFutureReq checkSign need limit m), size)

/-- `getSigCacheSize`, `getCommitCacheSize`: the future requests are checked
    once the raw size reaches `sizeToCheck` (an `IDXTYPE`). -/
def getCacheSize (checkSign : PBFTMsg H S → Bool) (hash : H) (cache : VoteCache H S)
    (need : Bool) (sizeToCheck : Nat) : VoteCache H S × Nat :=
  let size := VoteCache.getSizeFromCache cache hash
  if sizeToCheck ≤ size then
    checkAndRemoveInvalidFutureReq checkSign hash cache need ((sizeToCheck + 65535) % 65536)
  else (cache, size)

def isInvalidAt (number : Int) (hash : H) (req : PBFTMsg H S) : Bool :=
  decide (req.height < number) || (decide (req.height = number) && decide (req.blockHash ≠ hash))

/-- `removeInvalidEntryFromCache`; keys that nothing is left under go too. -/
def removeInvalidEntryFromCache {κ υ : Type} (number : Int) (hash : H)
    (cache : AssocMap κ (AssocMap υ (PBFTMsg H S))) : AssocMap κ (AssocMap υ (PBFTMsg H S)) :=
  (cache.mapVal fun m => m.filter fun _ req => !isInvalidAt number hash req).filter
    fun _ m => decide (m.size ≠ 0)

namespace ReqCache

variable (q : ReqCache H S T)

/-! ### Prepare requests -/

def isExistPrepare (req : Prepare H S T) : Bool :=
  decide (q.rawPrepareCache.blockHash = req.blockHash) && decide (req.view ≤ q.rawPrepareCache.view)

def addFuturePrepareCache (req : Prepare H S T) : ReqCache H S T :=
  if maxFuturePrepareCacheSize ≤ q.futurePrepareCache.size then q
  else if q.futurePrepareCache.contains req.height then q
  else { q with futurePrepareCache := q.futurePrepareCache.insert req.height req }

def eraseHandledFutureReq (number : Int) : ReqCache H S T :=
  { q with futurePrepareCache := q.futurePrepareCache.erase number }

def addPrepareReq (req : Prepare H S T) : ReqCache H S T :=
  { q with
    prepareCache := req
    signCache := VoteCache.removeInvalid q.signCache req.blockHash req.view
    commitCache := VoteCache.removeInvalid q.commitCache req.blockHash req.view }

def addSignReq (req : PBFTMsg H S) : ReqCache H S T :=
  { q with signCache := VoteCache.addReq q.signCache req }

def addCommitReq (req : PBFTMsg H S) : ReqCache H S T :=
  { q with commitCache := VoteCache.addReq q.commitCache req }

def updateCommittedPrepare : ReqCache H S T := { q with committedPrepareCache := q.rawPrepareCache }

def getSigCacheSize (checkSign : PBFTMsg H S → Bool) (hash : H) (sizeToCheck : Nat) :
    ReqCache H S T × Nat :=
  let r := getCacheSize checkSign hash q.signCache true sizeToCheck
  ({ q with signCache := r.1 }, r.2)

def getCommitCacheSize (checkSign : PBFTMsg H S → Bool) (hash : H) (sizeToCheck : Nat) :
    ReqCache H S T × Nat :=
  let r := getCacheSize checkSign hash q.commitCache false sizeToCheck
  ({ q with commitCache := r.1 }, r.2)

/-- The signature list that `generateAndSetSigList` puts on the block; `none`
    when it returns false and leaves the block alone. -/
def generateSigList (minSigSize : Nat) : Option (SigListType S) :=
  (q.commitCache.find? q.prepareCache.blockHash).bind fun m =>
    if m.size < minSigSize then none else some (m.entries.map fun e => (e.2.idx, e.1))

/-! ### Partially received prepare requests -/

def addPartiallyRawPrepare (req : Prepare H S T) (pBlock : Option (PartiallyBlock H T)) :
    Option (ReqCache H S T) :=
  if (q.partiallyRawPrepare.any fun p => decide (p.req.blockHash = req.blockHash)) then none
  else some { q with partiallyRawPrepare := some { req, pBlock }, rawIsPartially := false }

def addPartiallyFuturePrepare (req : Prepare H S T) (pBlock : Option (PartiallyBlock H T)) :
    ReqCache H S T :=
  match q.partiallyFuturePrepare with
  | none => { q with partiallyFuturePrepare := some { req, pBlock } }
  | some p =>
    if p.req.height < req.height ∨ (req.height = p.req.height ∧ p.req.view < req.view) then
      { q with partiallyFuturePrepare := some { req, pBlock } }
    else q

def existInFuturePrepare (hash : H) : Bool :=
  q.partiallyFuturePrepare.any fun p => decide (p.req.blockHash = hash)

/-! ### View-change requests -/

/-- `m_recvViewChangeReq[view][idx]` -/
def viewChange? (view : Int) (idx : Nat) : Option (PBFTMsg H S) :=
  (q.recvViewChangeReq.find? view).bind fun m => m.find? idx

def isExistViewChange (req : PBFTMsg H S) : Bool := (q.viewChange? req.view req.idx).isSome

def getViewChangeSize (view : Int) : Nat :=
  ((q.recvViewChangeReq.find? view).map AssocMap.size).getD 0

def eraseLatestViewChangeCacheForNodeUpdated (idx : Nat) : ReqCache H S T :=
  { q with latestViewChangeReqCache := q.latestViewChangeReqCache.erase idx }

/-- `eraseExpiredViewChange`; the two maps hold the same pointer exactly when
    they hold the same request. -/
def eraseExpiredViewChange (idx : Nat) : ReqCache H S T :=
  match q.latestViewChangeReqCache.find? idx with
  | none => q
  | some latest =>
    match q.recvViewChangeReq.find? latest.view with
    | none => q
    | some m =>
      match m.find? idx with
      | none => q
      | some req =>
        { q with
          recvViewChangeReq :=
            if latest = req then q.recvViewChangeReq.insert latest.view (m.erase idx)
            else q.recvViewChangeReq
          latestViewChangeReqCache := q.latestViewChangeReqCache.erase idx }

/-- `checkViewChangeReq`: the cache afterwards, and whether to add the request. -/
def checkViewChangeReq (req : PBFTMsg H S) (blockNumber : Int) : ReqCache H S T × Bool :=
  if req.height < blockNumber then (q, false)
  else
    match q.latestViewChangeReqCache.find? req.idx with
    | none => (q, true)
    | some latest =>
      if latest.height < blockNumber then (q.eraseExpiredViewChange latest.idx, true)
      else if req.height < latest.height then (q, false)
      else if req.view < latest.view then (q, false)
      else (q, true)

def addViewChangeReq (req : PBFTMsg H S) (blockNumber : Int) : ReqCache H S T :=
  let r := q.checkViewChangeReq req blockNumber
  if r.2 then
    { r.1 with
      recvViewChangeReq := r.1.recvViewChangeReq.insert req.view
        (((r.1.recvViewChangeReq.find? req.view).getD .empty).insert req.idx req)
      latestViewChangeReqCache := r.1.latestViewChangeReqCache.insert req.idx req }
  else r.1

/-- The walk of `canTriggerViewChange` over the requests for views above
    `toView`: the view of every index, the least view and the least height. -/
structure ViewWalk where
  idxViewMap : AssocMap Nat Int := .empty
  minView : Int := MAXVIEW
  -- `INT64_MAX`
  minHeight : Int := 9223372036854775807

def ViewWalk.visit (number : Int) (view : Int) (w : ViewWalk) (e : Nat × PBFTMsg H S) : ViewWalk :=
  if ((w.idxViewMap.find? e.1).all fun v => decide (v < view)) && decide (number ≤ e.2.height) then
    { idxViewMap := w.idxViewMap.insert e.1 view
      minView := min w.minView view
      minHeight := min w.minHeight e.2.height }
  else w

def viewWalk (toView number : Int) : ViewWalk :=
  q.recvViewChangeReq.entries.foldl
    (fun w e => if toView < e.1 then e.2.entries.foldl (ViewWalk.visit number e.1) w else w) {}

/-- `canTriggerViewChange`: whether to trigger, and the least view.  The count
    is an `IDXTYPE`. -/
def canTriggerViewChange (maxInvalidNodeNum : Nat) (toView number consensusBlockNumber : Int) :
    Bool × Int :=
  let w := q.viewWalk toView number
  let flag := decide (w.minHeight = consensusBlockNumber)
    && decide (w.minHeight = q.committedPrepareCache.height)
  (decide (maxInvalidNodeNum < w.idxViewMap.size % 65536) && !flag, w.minView)

def removeInvalidLatestViewChangeReq (number : Int) (hash : H) : ReqCache H S T :=
  { q with latestViewChangeReqCache :=
      q.latestViewChangeReqCache.filter fun _ req => !isInvalidAt number hash req }

/-- `removeInvalidViewChange(view, highestBlock)` -/
def removeInvalidViewChange (view number : Int) (hash : H) : ReqCache H S T :=
  match q.recvViewChangeReq.find? view with
  | none => q
  | some m =>
    removeInvalidLatestViewChangeReq
      { q with recvViewChangeReq :=
          q.recvViewChangeReq.insert view (m.filter fun _ req => !isInvalidAt number hash req) }
      number hash

def delInvalidViewChange (number : Int) (hash : H) : ReqCache H S T :=
  { q with recvViewChangeReq := removeInvalidEntryFromCache number hash q.recvViewChangeReq }

def removeInvalidFutureCache (number view : Int) : ReqCache H S T :=
  { q with futurePrepareCache :=
      q.futurePrepareCache.filter fun height req =>
        !(decide (height ≤ number) || decide (req.view < view)) }

section Clear

variable [Zero H]

def addRawPrepare (req : Prepare H S T) : ReqCache H S T :=
  { q with rawPrepareCache := req, prepareCache := q.prepareCache.clear, rawIsPartially := false }

def triggerViewChange (curView number : Int) : ReqCache H S T :=
  let commitCache := VoteCache.removeExpired q.commitCache curView
  removeInvalidFutureCache
    { q with
      rawPrepareCache := q.rawPrepareCache.clear
      partiallyRawPrepare :=
        if q.rawIsPartially then
          q.partiallyRawPrepare.map fun p => { p with req := p.req.clear }
        else q.partiallyRawPrepare
      prepareCache := q.prepareCache.clear
      commitCache
      -- only sign requests with a commit request for the same hash stay
      signCache := (VoteCache.removeExpired q.signCache curView).filter
        fun hash _ => commitCache.contains hash
      -- `removeInvalidViewChange(curView)`
      recvViewChangeReq := q.recvViewChangeReq.filter fun view _ => decide (curView < view)
      latestViewChangeReqCache :=
        q.latestViewChangeReqCache.filter fun _ req => decide (curView < req.view) }
    number curView

/-- `delCache` with the hash of the header. -/
def delCache (hash : H) : ReqCache H S T :=
  { q with
    signCache := q.signCache.erase hash
    commitCache := q.commitCache.erase hash
    prepareCache := if hash = q.prepareCache.blockHash then q.prepareCache.clear else q.prepareCache
    futurePrepareCache := .empty }

end Clear

def collectGarbage (number : Int) (hash : H) : ReqCache H S T :=
  let q : ReqCache H S T :=
    { q with
      signCache := removeInvalidEntryFromCache number hash q.signCache
      commitCache := removeInvalidEntryFromCache number hash q.commitCache }
  ((q.removeInvalidFutureCache number 0).delInvalidViewChange number hash).removeInvalidLatestViewChangeReq
    number hash

end ReqCache

/-! ### Which requests are left under a hash -/

namespace VoteCache

variable {cache : VoteCache H S} {hash hash' : H} {e : S × PBFTMsg H S}

theorem mem_votes : e ∈ votes cache hash ↔ ∃ m, cache.find? hash = some m ∧ e ∈ m.entries := by
  unfold votes
  cases cache.find? hash with
  | none => simp
  | some m => simp

theorem mem_votes_insert {m : AssocMap S (PBFTMsg H S)} :
    e ∈ votes (cache.insert hash' m) hash ↔
      (hash = hash' ∧ e ∈ m.entries) ∨ (hash ≠ hash' ∧ e ∈ votes cache hash) := by
  rw [mem_votes, AssocMap.find?_insert]
  by_cases h : hash = hash'
  · rw [if_pos h]
    simp [h]
  · rw [if_neg h, ← mem_votes]
    simp [h]

theorem cacheExists_iff {req : PBFTMsg H S} :
    cacheExists cache req = true ↔ ∃ req', (req.sig, req') ∈ votes cache req.blockHash := by
  simp only [cacheExists, List.any_eq_true, decide_eq_true_eq]
  constructor
  · rintro ⟨⟨sig, req'⟩, hmem, rfl⟩
    exact ⟨req', hmem⟩
  · rintro ⟨req', hmem⟩
    exact ⟨_, hmem, rfl⟩

theorem mem_votes_addReq {req : PBFTMsg H S} : e ∈ votes (addReq cache req) hash ↔
    e ∈ votes cache hash ∨
      (cacheExists cache req = false ∧ hash = req.blockHash ∧ e = (req.sig, req)) := by
  unfold addReq
  cases hexist : cacheExists cache req with
  | true => simp
  | false =>
    rw [if_neg Bool.false_ne_true, mem_votes_insert]
    have hnew : ∀ r, (req.sig, r) ∉ votes cache req.blockHash := by
      intro r hr
      rw [cacheExists_iff.mpr ⟨r, hr⟩] at hexist
      cases hexist
    have hold : ∀ e, e ∈ ((cache.find? req.blockHash).getD .empty).entries ↔
        e ∈ votes cache req.blockHash := by
      intro e
      rw [mem_votes]
      cases cache.find? req.blockHash with
      | none => simp [AssocMap.empty]
      | some m => simp
    obtain ⟨sig, r⟩ := e
    rw [AssocMap.mem_insert, hold]
    constructor
    · rintro (⟨rfl, ⟨rfl, rfl⟩ | ⟨-, hmem⟩⟩ | ⟨-, hmem⟩)
      · exact .inr ⟨rfl, rfl, rfl⟩
      · exact .inl hmem
      · exact .inl hmem
    · rintro (hmem | ⟨-, rfl, heq⟩)
      · by_cases hhash : hash = req.blockHash
        · subst hhash
          refine .inl ⟨rfl, .inr ⟨?_, hmem⟩⟩
          rintro rfl
          exact hnew r hmem
        · exact .inr ⟨hhash, hmem⟩
      · cases heq
        exact .inl ⟨rfl, .inl ⟨rfl, rfl⟩⟩

theorem mem_votes_filterVotes {p : PBFTMsg H S → Bool} :
    e ∈ votes (filterVotes cache hash' p) hash ↔
      e ∈ votes cache hash ∧ (hash = hash' → p e.2 = true) := by
  unfold filterVotes
  cases hm : cache.find? hash' with
  | none =>
    dsimp only
    constructor
    · intro hmem
      refine ⟨hmem, ?_⟩
      rintro rfl
      obtain ⟨m, hm', -⟩ := mem_votes.mp hmem
      rw [hm] at hm'
      cases hm'
    · exact fun h => h.1
  | some m =>
    dsimp only
    rw [mem_votes_insert]
    constructor
    · rintro (⟨rfl, hmem⟩ | ⟨hne, hmem⟩)
      · obtain ⟨hmem, hp⟩ := List.mem_filter.mp hmem
        exact ⟨mem_votes.mpr ⟨m, hm, hmem⟩, fun _ => hp⟩
      · exact ⟨hmem, fun heq => absurd heq hne⟩
    · rintro ⟨hmem, hp⟩
      by_cases hhash : hash = hash'
      · subst hhash
        obtain ⟨m', hm', hmem⟩ := mem_votes.mp hmem
        rw [hm] at hm'
        cases hm'
        exact .inl ⟨rfl, List.mem_filter.mpr ⟨hmem, hp rfl⟩⟩
      · exact .inr ⟨hhash, hmem⟩

theorem mem_votes_removeInvalid {view : Int} : e ∈ votes (removeInvalid cache hash' view) hash ↔
    e ∈ votes cache hash ∧ (hash = hash' → e.2.view = view) := by
  unfold removeInvalid
  rw [mem_votes_filterVotes]
  simp only [decide_eq_true_eq]

theorem mem_votes_removeExpired {view : Int} : e ∈ votes (removeExpired cache view) hash ↔
    e ∈ votes cache hash ∧ view ≤ e.2.view := by
  unfold removeExpired
  rw [mem_votes, AssocMap.find?_mapVal, mem_votes]
  cases cache.find? hash with
  | none => simp
  | some m => simp [AssocMap.filter]

theorem mem_votes_erase : e ∈ votes (cache.erase hash') hash ↔ hash ≠ hash' ∧ e ∈ votes cache hash := by
  rw [mem_votes, AssocMap.find?_erase, mem_votes]
  by_cases h : hash = hash'
  · simp [h]
  · simp [h]

theorem mem_votes_of_filter {p : H → AssocMap S (PBFTMsg H S) → Bool}
    (h : e ∈ votes (cache.filter p) hash) : e ∈ votes cache hash := by
  obtain ⟨m, hm, hmem⟩ := mem_votes.mp h
  rw [AssocMap.find?_filter] at hm
  exact mem_votes.mpr ⟨m, (Option.filter_eq_some_iff.mp hm).1, hmem⟩

theorem mem_votes_of_removeInvalidEntry {number : Int} {blockHash : H}
    (h : e ∈ votes (removeInvalidEntryFromCache number blockHash cache) hash) :
    e ∈ votes cache hash := by
  have hmapped := mem_votes_of_filter h
  obtain ⟨m, hm, hmem⟩ := mem_votes.mp hmapped
  rw [AssocMap.find?_mapVal] at hm
  obtain ⟨m', hm', rfl⟩ := Option.map_eq_some_iff.mp hm
  exact mem_votes.mpr ⟨m', hm', (List.mem_filter.mp hmem).1⟩

end VoteCache

theorem mem_walkFutureReq {checkSign : PBFTMsg H S → Bool} {need : Bool} {limit k : Nat}
    {l : List (S × PBFTMsg H S)} {e : S × PBFTMsg H S}
    (h : e ∈ (walkFutureReq checkSign need limit k l).1) :
    e ∈ l ∨ ∃ req, (e.1, req) ∈ l ∧ checkSign req = true ∧ e.2 = { req with signChecked := true } := by
  induction l generalizing k with
  | nil => exact .inl h
  | cons a rest ih =>
    obtain ⟨sig, req⟩ := a
    have hrest : ∀ k, e ∈ (walkFutureReq checkSign need limit k rest).1 → e ∈ (sig, req) :: rest ∨
        ∃ req', (e.1, req') ∈ (sig, req) :: rest ∧ checkSign req' = true ∧
          e.2 = { req' with signChecked := true } := by
      intro k hk
      rcases ih hk with hmem | ⟨req', hmem, hcheck⟩
      · exact .inl (List.mem_cons_of_mem _ hmem)
      · exact .inr ⟨req', List.mem_cons_of_mem _ hmem, hcheck⟩
    unfold walkFutureReq at h
    split_ifs at h with hpresent hlimit hchecked hsign
    · rcases List.mem_cons.mp h with rfl | h
      · exact .inl (List.mem_cons_self ..)
      · exact hrest _ h
    · exact .inl h
    · rcases List.mem_cons.mp h with rfl | h
      · exact .inl (List.mem_cons_self ..)
      · exact hrest _ h
    · rcases List.mem_cons.mp h with rfl | h
      · exact .inr ⟨req, List.mem_cons_self .., hsign, rfl⟩
      · exact hrest _ h
    · rcases List.mem_cons.mp h with rfl | h
      · exact .inl (List.mem_cons_self ..)
      · exact hrest _ h

theorem mem_votes_getCacheSize {checkSign : PBFTMsg H S → Bool} {hash hash' : H}
    {cache : VoteCache H S} {need : Bool} {size : Nat} {e : S × PBFTMsg H S}
    (h : e ∈ VoteCache.votes (getCacheSize checkSign hash' cache need size).1 hash) :
    e ∈ VoteCache.votes cache hash ∨ ∃ req, (e.1, req) ∈ VoteCache.votes cache hash ∧
      checkSign req = true ∧ e.2 = { req with signChecked := true } := by
  unfold getCacheSize at h
  dsimp only at h
  split_ifs at h
  · unfold checkAndRemoveInvalidFutureReq at h
    cases hm : cache.find? hash' with
    | none =>
      rw [hm] at h
      exact .inl h
    | some m =>
      rw [hm] at h
      dsimp only at h
      split_ifs at h
      · exact .inl (VoteCache.mem_votes_erase.mp h).2
      · rcases VoteCache.mem_votes_insert.mp h with ⟨rfl, hmem⟩ | ⟨-, hmem⟩
        · rcases mem_walkFutureReq hmem with hold | ⟨req, hold, hcheck⟩
          · exact .inl (VoteCache.mem_votes.mpr ⟨m, hm, hold⟩)
          · exact .inr ⟨req, VoteCache.mem_votes.mpr ⟨m, hm, hold⟩, hcheck⟩
        · exact .inl hmem
  · exact .inl h

end HieraChain.PBFT
