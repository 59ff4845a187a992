/-
  HieraChain/PBFTVoteOrder.lean
  =============================
  **The order in which a prepare and the votes for it arrive**
  (`isValidSignReq`, `isValidCommitReq`, `triggerViewChange`, `addPrepareReq`).

  A node handles some votes, may enter the view of the proposal, handles more
  votes, executes the prepare and handles the rest.  Whatever the order, it
  commits the block, as long as no vote is lost on the way.

  Votes do get lost.  A request is dropped when its signature is cached under
  the block hash, in whatever view, and signatures cover the block hash alone;
  and entering a view drops the sign requests under a hash for which no commit
  request is known.
-/
import HieraChain.PBFTPrepareLock
import HieraChain.PBFTViewChange
import HieraChain.PBFTVotePhases

set_option linter.unusedSectionVars false

namespace HieraChain.PBFT

section VoteOrder

variable {H S T : Type} [DecidableEq H] [DecidableEq S] [Zero H]

/-! ### Orders -/

/-- Votes before the node enters the view, votes before the prepare, and the rest. -/
structure VoteOrder (H S T : Type) where
  early : List (Vote H S T) := []
  enter : Option (Env T × Input H S T) := none
  late : List (Vote H S T) := []
  prepare : Env T × Input H S T
  after : List (Vote H S T) := []

namespace VoteOrder

variable (o : VoteOrder H S T)

def votes : List (Vote H S T) := o.early ++ o.late ++ o.after

def beforePrepare : List (Env T × Input H S T) :=
  o.early.map Vote.input ++ (o.enter.toList ++ o.late.map Vote.input)

def inputs : List (Env T × Input H S T) :=
  o.beforePrepare ++ o.prepare :: o.after.map Vote.input

def beforeView (c : Config H S T) (s : Node H S T) : Node H S T :=
  (engine c).run s (o.early.map Vote.input)

end VoteOrder

def Input.changesView : Input H S T → Bool
  | .checkTimeout => true
  | .viewChangeReqPacket _ _ => true
  | _ => false

def Node.handsOver (c : Config H S T) (s : Node H S T) (req : Prepare H S T) : Input H S T → Bool
  | .shouldSeal =>
    decide (s.getLeader c = some (s.nodeIdx c))
      && decide (s.cache.committedPrepareCache.height = s.consensusBlockNumber)
      && decide (s.cache.rawPrepareCache.height ≠ s.consensusBlockNumber)
  | .generatePrepare b =>
    decide (s.getLeader c = some (s.nodeIdx c))
      && (b.encodeProposal c.crypto c.enablePrepareWithTxsHash).isSome
  | .partiallyPreparePacket _ _ =>
    c.enablePrepareWithTxsHash
      && !(s.cache.partiallyRawPrepare.any fun p => decide (p.req.blockHash = req.blockHash))
      && req.pBlock.any fun b => (b.encode c.crypto).isSome
  | .missedTxsPacket resp =>
    c.enablePrepareWithTxsHash && !s.cache.existInFuturePrepare resp.blockHash
      && req.pBlock.any fun b => (b.encode c.crypto).isSome
  | _ => true

/-- The prepare request that the input makes the node execute, and its block. -/
def Node.executesPrepare (c : Config H S T) (e : Env T) (s : Node H S T) (i : Input H S T) :
    Option (Prepare H S T × Block H S T) :=
  (s.takenPrepare c e i).bind fun req =>
    if s.handsOver c req i then (s.executed c e req).map fun b => (req, b) else none

/-- The run is one of the claim's: the votes are valid and from different
    sealers, the node enters the view before the prepare, and executes it. -/
structure VoteOrder.Proper (c : Config H S T) (s : Node H S T) (o : VoteOrder H S T)
    (req : Prepare H S T) (b : Block H S T) : Prop where
  sealer : s.cfgErr c = false
  valid : ∀ x ∈ o.votes, x.Valid c s (c.crypto.headerHash b.header) req.view
  signers : ((kindOf false o.votes).map fun x => s.getNodeIDByIndex x.req.idx).Nodup
  committers : ((kindOf true o.votes).map fun x => s.getNodeIDByIndex x.req.idx).Nodup
  enters : (o.enter = none ∧ s.view = req.view) ∨ ∃ x, o.enter = some x ∧ x.2.changesView = true ∧
    s.view < req.view ∧ ((engine c).step (o.beforeView c s) x).view = req.view
  executes : ((engine c).run s o.beforePrepare).executesPrepare c o.prepare.1 o.prepare.2 =
    some (req, b)
  stores : o.prepare.1.dbCommitOk = true

/-- The cached requests do not stand in the way of a vote with signature `sig`. -/
def sigOk (check : PBFTMsg H S → Bool) (view : Int) (l : List (S × PBFTMsg H S)) (sig : S) : Bool :=
  l.all fun e => !decide (e.1 = sig) || (decide (e.2.view = view) && (!e.2.isFuture || check e.2))

def ownOk (view : Int) (l : List (S × PBFTMsg H S)) (sig : S) : Bool :=
  l.all fun e => !decide (e.1 = sig) || decide (e.2.view ≠ view)

structure VoteOrder.Ok (c : Config H S T) (s : Node H S T) (o : VoteOrder H S T) (hash : H)
    (view : Int) : Prop where
  /-- the number of sealers is not a multiple of 2^16 -/
  nodes : s.nodeNum ≠ 0
  /-- the prepare cache does not hold the hash yet -/
  fresh : hash ≠ 0 ∧ s.cache.prepareCache.blockHash ≠ hash
  /-- neither does the sign cache hold a request that came in time -/
  future : ∀ e ∈ VoteCache.votes s.cache.signCache hash, e.2.view = view → e.2.isFuture = true
  /-- a cached request with the signature of a vote is for the same view, and valid -/
  signs : ∀ x ∈ kindOf false o.votes,
    sigOk (s.checkSign c) view (VoteCache.votes s.cache.signCache hash) x.req.sig = true
  commits : ∀ x ∈ kindOf true o.votes,
    sigOk (s.checkSign c) view (VoteCache.votes s.cache.commitCache hash) x.req.sig = true
  /-- the node's own signature is not cached for the view -/
  own_sign : ownOk view (VoteCache.votes s.cache.signCache hash) (c.crypto.sign c.key hash) = true
  own_commit : ownOk view (VoteCache.votes s.cache.commitCache hash) (c.crypto.sign c.key hash) = true
  /-- where the node enters the view after a sign request for it, it knows a
      commit request for the hash -/
  kept : o.enter.isSome = true → kindOf false o.early ≠ [] →
    (o.beforeView c s).cache.commitCache.contains hash = true

/-! ### Entering a view -/

def Round.enter (r : Round H S T) (view : Int) : Round H S T :=
  { r with
    view
    prepareCache := r.prepareCache.clear
    signCache := (VoteCache.removeExpired r.signCache view).filter fun hash _ =>
      (VoteCache.removeExpired r.commitCache view).contains hash
    commitCache := VoteCache.removeExpired r.commitCache view }

theorem checkAndChangeView_round (t : Node H S T) (v : Int) :
    (t.checkAndChangeView v).1.round = t.round ∨ (t.checkAndChangeView v).1.round = t.round.enter v := by
  unfold Node.checkAndChangeView
  split_ifs
  · exact .inr rfl
  · exact .inl rfl

theorem addViewChangeReq_round (t : Node H S T) (req : PBFTMsg H S) (number : Int) :
    (t.withCache (t.cache.addViewChangeReq req number)).round = t.round := by
  obtain ⟨q, ⟨recv, latest, -, rfl⟩, hadd⟩ := t.cache.addViewChangeReq_cases req number
  rcases hadd with hadd | ⟨-, hadd⟩
  · rw [hadd]
    rfl
  · rw [hadd]
    rfl

theorem removeInvalidViewChange_round (t : Node H S T) (view number : Int) (hash : H) :
    (t.withCache (t.cache.removeInvalidViewChange view number hash)).round = t.round := by
  obtain ⟨recv, latest, -, heq⟩ := t.cache.removeInvalidViewChange_drops view number hash
  rw [heq]
  rfl

theorem round_of_checkAndChangeView {t u : Node H S T} (h : u.round = t.round) (v : Int) :
    (u.checkAndChangeView v).1.round = t.round ∨
      ∃ w, (u.checkAndChangeView v).1.round = t.round.enter w := by
  rw [← h]
  exact (checkAndChangeView_round u v).imp id fun henter => ⟨v, henter⟩

theorem isValidViewChangeReq_round (c : Config H S T) (e : Env T) (t : Node H S T) (source : Nat)
    (req : PBFTMsg H S) : (t.isValidViewChangeReq c e source req).1.round = t.round := by
  have hcaught : ∃ u, (if succInt64 req.view < t.toView ∧ req.idx = source then t.catchupView c e req
      else t) = u ∧ u.round = t.round := by
    refine ⟨_, rfl, ?_⟩
    split_ifs
    · unfold Node.catchupView
      cases t.getNodeIDByIndex req.idx with
      | none => rfl
      | some id => rfl
    · rfl
  obtain ⟨u, hu, hround⟩ := hcaught
  unfold Node.isValidViewChangeReq
  dsimp only
  rw [hu, apply_ite Prod.fst, apply_ite Prod.fst, apply_ite Prod.fst, apply_ite Prod.fst,
    apply_ite Prod.fst, apply_ite Prod.fst]
  dsimp only
  split_ifs
  all_goals first | rfl | exact hround

theorem changesView_round (c : Config H S T) (t : Node H S T) {x : Env T × Input H S T}
    (hx : x.2.changesView = true) : ((engine c).step t x).round = t.round ∨
      ∃ v, ((engine c).step t x).round = t.round.enter v := by
  obtain ⟨e, i⟩ := x
  have hif : ∀ u : Node H S T, (u.round = t.round ∨ ∃ v, u.round = t.round.enter v) →
      (if t.cfgErr c then t else u).round = t.round ∨
        ∃ v, (if t.cfgErr c then t else u).round = t.round.enter v := by
    intro u hu
    split_ifs
    · exact .inl rfl
    · exact hu
  cases i with
  | checkTimeout =>
    apply hif
    change (t.checkTimeout c e).round = _ ∨ ∃ v, (t.checkTimeout c e).round = _
    unfold Node.checkTimeout
    apply round_of_checkAndChangeView
    have hdropped := removeInvalidViewChange_round
      { t with toView := succInt64 t.toView, leaderFailed := true } (succInt64 t.toView)
      t.highestBlock.number (c.crypto.headerHash t.highestBlock)
    exact (addViewChangeReq_round _ _ _).trans hdropped
  | viewChangeReqPacket source req =>
    apply hif
    simp only [Node.handleMsg]
    cases hreq : req.received with
    | none => exact .inl rfl
    | some req =>
      dsimp only
      unfold Node.handleViewChangeMsg
      have hchecked := isValidViewChangeReq_round c e t source req
      generalize t.isValidViewChangeReq c e source req = r at hchecked
      obtain ⟨u, ok⟩ := r
      cases ok with
      | false => exact .inl hchecked
      | true =>
        have hadded : ((u.emit (.acceptedViewChange req)).withCache
            (u.cache.addViewChangeReq req u.chain.number)).round = t.round :=
          (addViewChangeReq_round (u.emit (.acceptedViewChange req)) req _).trans hchecked
        have hchanged := round_of_checkAndChangeView hadded req.view
        dsimp only
        rw [if_pos rfl]
        split_ifs
        · exact hchanged
        · exact hchanged
        · exact hchanged
  | _ => cases hx

theorem votes_filter_keys (cache : VoteCache H S) (p : H → Bool) (hash : H) :
    VoteCache.votes (cache.filter fun h _ => p h) hash =
      if p hash then VoteCache.votes cache hash else [] := by
  unfold VoteCache.votes
  rw [AssocMap.find?_filter]
  cases cache.find? hash with
  | none => simp
  | some m =>
    cases p hash with
    | true => rfl
    | false => rfl

theorem Waiting.enter {c : Config H S T} {s : Node H S T} {hash : H} {view cur : Int} {own : S}
    {signers committers signs commits : List S} {r : Round H S T}
    (h : Waiting c s hash view cur own signers committers signs commits r) (hzero : hash ≠ 0)
    (hkept : signs = [] ∨ r.commitCache.contains hash = true) :
    Waiting c s hash view view own signers committers signs commits (r.enter view) := by
  have hcommits : VoteCache.votes (r.enter view).commitCache hash =
      (VoteCache.votes r.commitCache hash).filter fun e => decide (view ≤ e.2.view) :=
    VoteCache.votes_removeExpired_self view
  have hcontains : (VoteCache.removeExpired r.commitCache view).contains hash =
      r.commitCache.contains hash := by
    unfold VoteCache.removeExpired AssocMap.contains
    rw [AssocMap.find?_mapVal, Option.isSome_map]
  have hsigns : VoteCache.votes (r.enter view).signCache hash =
      if r.commitCache.contains hash then
        (VoteCache.votes r.signCache hash).filter fun e => decide (view ≤ e.2.view) else [] := by
    change VoteCache.votes (AssocMap.filter _ _) hash = _
    rw [votes_filter_keys, hcontains, VoteCache.votes_removeExpired_self]
  have hsub : ∀ e ∈ VoteCache.votes (r.enter view).signCache hash,
      e ∈ VoteCache.votes r.signCache hash := by
    intro e he
    rw [hsigns] at he
    split_ifs at he
    · exact (List.mem_filter.mp he).1
    · cases he
  have hpast : ∀ req : PBFTMsg H S, req.view = view → decide (view ≤ req.view) = true := by
    intro req hreq
    rw [hreq]
    exact decide_eq_true le_rfl
  refine ⟨h.sealerList_eq, h.height_eq, h.highest_eq, h.chain_eq, rfl, le_rfl, fun heq => hzero heq.symm,
    ?_, ?_, fun e he => h.future e (hsub e he), fun e he => h.own_sign e (hsub e he), ?_⟩
  · rw [hsigns]
    split_ifs with hknown
    · exact h.signs.filter hpast
    · rcases hkept with rfl | hkept
      · exact ⟨List.nodup_nil, fun e he => absurd he List.not_mem_nil, List.nil_subset _,
          List.nil_subset _⟩
      · exact absurd hkept hknown
  · rw [hcommits]
    exact h.commits.filter hpast
  · intro e he
    rw [hcommits] at he
    exact h.own_commit e (List.mem_filter.mp he).1

/-! ### The prepare -/

theorem Progress.congr {c : Config H S T} {s t u : Node H S T} {b : Block H S T} {view : Int}
    {signers committers signs commits : List S}
    (h : Progress c s b view signers committers signs commits t) (hround : u.round = t.round)
    (htrace : u.trace = t.trace) : Progress c s b view signers committers signs commits u := by
  have hsigns : u.cache.signCache = t.cache.signCache := congrArg Round.signCache hround
  have hcommits : u.cache.commitCache = t.cache.commitCache := congrArg Round.commitCache hround
  rcases h with h | h | h
  · refine .inl ⟨hround ▸ h.prepared, hcommits ▸ h.silent, hsigns ▸ h.few, htrace ▸ h.since⟩
  · exact .inr (.inl ⟨hround ▸ h.prepared, hcommits ▸ h.committed, hsigns ▸ h.enough,
      hcommits ▸ h.few, htrace ▸ h.sent, htrace ▸ h.since⟩)
  · refine .inr (.inr ?_)
    unfold CommittedSince at h ⊢
    rw [htrace]
    exact h

theorem handlePrepareMsg_of_executed {c : Config H S T} {e : Env T} {t : Node H S T}
    {req : Prepare H S T} {b : Block H S T} (hvalid : t.isValidPrepare c e req = .VALID)
    (hexec : t.executed c e req = some b) :
    t.handlePrepareMsg c e req =
      ((t.withCache (t.cache.addRawPrepare req)).broadcastSignReq c e req b).checkAndCommit c e := by
  unfold Node.handlePrepareMsg
  rw [hvalid]
  dsimp only
  rw [SmallSteps.execPrepareAndGenerateSignMsg_eq, SmallSteps.executed_withCache (SameRound.refl t),
    hexec]

/-- The prepare was signed on top of the round of `t`, and the votes were counted. -/
def SignedOn (c : Config H S T) (e : Env T) (t : Node H S T) (req : Prepare H S T) (b : Block H S T)
    (t' : Node H S T) : Prop :=
  ∃ u : Node H S T, (∃ p, u.round = { t.round with prepareCache := p }) ∧ t.trace <:+ u.trace ∧
    t'.round = ((u.broadcastSignReq c e req b).checkAndCommit c e).round ∧
    t'.trace = ((u.broadcastSignReq c e req b).checkAndCommit c e).trace

section SignedOn

variable {c : Config H S T} {e : Env T} {t : Node H S T} {req : Prepare H S T} {b : Block H S T}

theorem signedOn_handlePrepareMsg (hvalid : t.isValidPrepare c e req = .VALID)
    (hexec : t.executed c e req = some b) : SignedOn c e t req b (t.handlePrepareMsg c e req) := by
  rw [handlePrepareMsg_of_executed hvalid hexec]
  refine ⟨_, ?_, ?_, rfl, rfl⟩
  · exact ⟨t.cache.prepareCache.clear, rfl⟩
  · exact List.suffix_refl _

theorem SignedOn.of_round {t' u : Node H S T} (h : SignedOn c e t' req b u)
    (hround : t'.round = t.round) (hsuffix : t.trace <:+ t'.trace) : SignedOn c e t req b u := by
  obtain ⟨v, hv, hvsuffix, hsigned⟩ := h
  rw [hround] at hv
  exact ⟨v, hv, hsuffix.trans hvsuffix, hsigned⟩

theorem SignedOn.congr {u u' : Node H S T} (h : SignedOn c e t req b u) (hround : u'.round = u.round)
    (htrace : u'.trace = u.trace) : SignedOn c e t req b u' := by
  obtain ⟨v, hv, hsuffix, hvround, hvtrace⟩ := h
  exact ⟨v, hv, hsuffix, hround.trans hvround, htrace.trans hvtrace⟩

theorem withBlock_of_encode {full : EncodedBlock H S T} (hfull : b.encode c.crypto = some full) :
    Node.withBlock c req b = { req with block := full, pBlock := some b } := by
  unfold Node.withBlock
  rw [hfull]
  rfl

theorem signedOn_handleCompletePrepare {b' : Block H S T} {q : ReqCache H S T}
    (hround : (t.withCache q).round = t.round) (hencoded : (b'.encode c.crypto).isSome = true)
    (hexec : t.executed c e (Node.withBlock c req b') = some b) :
    SignedOn c e t (Node.withBlock c req b') b ((t.withCache q).handleCompletePrepare c e req b') := by
  obtain ⟨full, hfull⟩ := Option.isSome_iff_exists.mp hencoded
  rw [withBlock_of_encode hfull] at hexec ⊢
  have hexec' : ∀ q', ((t.withCache q).withCache q').executed c e
      { req with block := full, pBlock := some b' } = some b := by
    intro q'
    have hsame : SameRound t (t.withCache q) := ⟨rfl, rfl, rfl⟩
    exact (SmallSteps.executed_withCache hsame q' _).trans hexec
  unfold Node.handleCompletePrepare
  rw [hfull]
  dsimp only
  rw [SmallSteps.execPrepareAndGenerateSignMsg_eq, hexec']
  refine ⟨_, ?_, ?_, rfl, rfl⟩
  · exact ⟨t.cache.prepareCache, hround⟩
  · exact List.suffix_refl _

theorem signedOn_handlePartiallyPrepare {b' : Block H S T}
    (hunknown : (t.cache.partiallyRawPrepare.any fun p =>
      decide (p.req.blockHash = req.blockHash)) = false)
    (hb' : (Node.decodedProposal c e req).bind Node.completeBlock = some b')
    (hvalid : t.isValidPrepare c e req = .VALID) (hencoded : (b'.encode c.crypto).isSome = true)
    (hexec : t.executed c e (Node.withBlock c req b') = some b) :
    SignedOn c e t (Node.withBlock c req b') b (t.handlePartiallyPrepare c e req) := by
  unfold Node.handlePartiallyPrepare
  rw [hvalid]
  dsimp only
  unfold ReqCache.addPartiallyRawPrepare
  rw [hunknown, if_neg Bool.false_ne_true, ← Node.decodedProposal, hb']
  exact signedOn_handleCompletePrepare rfl hencoded hexec

theorem signedOn_handleFilledPrepare {b' : Block H S T} {p : PartiallyBlock H T}
    (hb' : Node.completeBlock p = some b')
    (hvalid : t.isValidPrepare c e (Node.withBlock c req b') = .VALID)
    (hencoded : (b'.encode c.crypto).isSome = true)
    (hexec : t.executed c e (Node.withBlock c req b') = some b) :
    SignedOn c e t (Node.withBlock c req b') b (t.handleFilledPrepare c e req p) := by
  obtain ⟨full, hfull⟩ := Option.isSome_iff_exists.mp hencoded
  rw [withBlock_of_encode hfull] at hvalid hexec ⊢
  unfold Node.handleFilledPrepare
  rw [hb']
  dsimp only
  rw [hfull]
  dsimp only
  rw [if_pos hvalid]
  have hkept : ∀ raw, SignedOn c e t { req with block := full, pBlock := some b' } b
      ((t.withCache { t.cache with partiallyRawPrepare := raw }).handlePrepareMsg c e
        { req with block := full, pBlock := some b' }) := by
    intro raw
    exact (signedOn_handlePrepareMsg (t := t.withCache { t.cache with partiallyRawPrepare := raw })
      hvalid hexec).of_round rfl (List.suffix_refl _)
  exact (hkept _).congr rfl rfl

theorem signedOn_step {i : Input H S T} (h : t.executesPrepare c e i = some (req, b)) :
    SignedOn c e t req b ((engine c).step t (e, i)) := by
  unfold Node.executesPrepare at h
  obtain ⟨req', htaken, h⟩ := Option.bind_eq_some_iff.mp h
  split_ifs at h with hover
  obtain ⟨b', hexec, heq⟩ := Option.map_eq_some_iff.mp h
  cases heq
  unfold Node.takenPrepare at htaken
  obtain ⟨hhanded, hvalid⟩ := Option.filter_eq_some_iff.mp htaken
  have hvalid := of_decide_eq_true hvalid
  have hhandled := signedOn_handlePrepareMsg hvalid hexec
  have hcfg := Node.cfgErr_of_valid hvalid
  have hmsg : (if t.cfgErr c then t else t.handleMsg c e i) = t.handleMsg c e i := by
    rw [hcfg]
    rfl
  cases i with
  | prepareReqPacket m block mark =>
    have hstep : (engine c).step t (e, .prepareReqPacket m block mark) = t.handlePrepareMsg c e req := by
      refine hmsg.trans ?_
      simp only [Node.handleMsg]
      rw [show Input.receivedPrepare m block mark = some req from hhanded]
    rw [hstep]
    exact hhandled
  | handleFutureBlock =>
    have hstep : (engine c).step t (e, .handleFutureBlock) = (t.handlePrepareMsg c e req).withCache
        ((t.handlePrepareMsg c e req).cache.eraseHandledFutureReq req.height) := by
      refine hmsg.trans ?_
      change t.handleFutureBlock c e = _
      unfold Node.handleFutureBlock
      rw [show t.cache.futurePrepareCache.find? t.consensusBlockNumber = some req from hhanded]
      exact if_pos (Node.current_of_valid hvalid).view_eq
    rw [hstep]
    exact hhandled.congr rfl rfl
  | shouldSeal =>
    simp only [Node.handsOver, Bool.and_eq_true, decide_eq_true_eq] at hover
    obtain ⟨⟨hleader, hcommitted⟩, hrawHeight⟩ := hover
    cases hhanded
    change SignedOn c e t _ b (t.shouldSeal c e)
    unfold Node.shouldSeal
    rw [hcfg, if_neg Bool.false_ne_true, if_neg (not_not.mpr hleader),
      if_neg (not_not.mpr hcommitted), if_neg hrawHeight]
    exact (signedOn_handlePrepareMsg (t := t.emit _) hvalid hexec).of_round rfl (List.suffix_cons ..)
  | generatePrepare b' =>
    simp only [Node.handsOver, Bool.and_eq_true, decide_eq_true_eq] at hover
    obtain ⟨hleader, hproposal⟩ := hover
    obtain ⟨proposal, hproposal⟩ := Option.isSome_iff_exists.mp hproposal
    obtain ⟨full, hfull, rfl⟩ := Option.map_eq_some_iff.mp hhanded
    obtain ⟨hblock, htransactions, -⟩ := Node.executed_eq_some hexec
    cases hblock
    have hsome : b.transactions.isEmpty = false := by simpa using htransactions
    change SignedOn c e t _ b (t.generatePrepare c e b)
    unfold Node.generatePrepare
    rw [if_neg (not_not.mpr hleader), hproposal, hfull]
    dsimp only
    rw [hsome, if_neg Bool.false_ne_true]
    exact (signedOn_handlePrepareMsg (t := t.emit _) hvalid hexec).of_round rfl (List.suffix_cons ..)
  | partiallyPreparePacket m block =>
    simp only [Node.handsOver, Bool.and_eq_true, Bool.not_eq_true'] at hover
    obtain ⟨⟨henable, hunknown⟩, hencoded⟩ := hover
    obtain ⟨req', hreq', hcompleted⟩ := Option.bind_eq_some_iff.mp hhanded
    obtain ⟨b', hb', rfl⟩ := Option.map_eq_some_iff.mp hcompleted
    have hvalid' : t.isValidPrepare c e req' = .VALID :=
      (Node.isValidPrepare_congr c e t rfl).trans hvalid
    have hstep : (engine c).step t (e, .partiallyPreparePacket m block) =
        t.handlePartiallyPrepare c e req' := by
      refine hmsg.trans ?_
      simp only [Node.handleMsg]
      rw [hreq']
      exact if_pos henable
    rw [hstep]
    exact signedOn_handlePartiallyPrepare hunknown hb' hvalid' hencoded hexec
  | missedTxsPacket resp =>
    simp only [Node.handsOver, Bool.and_eq_true, Bool.not_eq_true'] at hover
    obtain ⟨⟨henable, hfuture⟩, hencoded⟩ := hover
    obtain ⟨⟨req', pBlock'⟩, hp, hcompleted⟩ := Option.bind_eq_some_iff.mp hhanded
    obtain ⟨b', hb', rfl⟩ := Option.map_eq_some_iff.mp hcompleted
    obtain ⟨p', hfilled, hcomplete⟩ := Option.bind_eq_some_iff.mp hb'
    obtain ⟨pBlock, hpBlock, hfilled⟩ := Option.bind_eq_some_iff.mp hfilled
    cases hpBlock
    have hfilled : pBlock.fillBlock c.crypto resp = some p' := hfilled
    have hstep : (engine c).step t (e, .missedTxsPacket resp) =
        t.onReceiveMissedTxsResponse c e resp := if_pos henable
    rw [hstep]
    unfold Node.onReceiveMissedTxsResponse
    rw [hfuture, if_neg Bool.false_ne_true, hp]
    dsimp only
    rw [hfilled]
    exact signedOn_handleFilledPrepare hcomplete hvalid hencoded hexec
  | _ => cases hhanded

end SignedOn

theorem current_of_executesPrepare {c : Config H S T} {e : Env T} {t : Node H S T} {i : Input H S T}
    {req : Prepare H S T} {b : Block H S T} (h : t.executesPrepare c e i = some (req, b)) :
    t.Current req ∧ t.executed c e req = some b := by
  unfold Node.executesPrepare at h
  obtain ⟨req', htaken, h⟩ := Option.bind_eq_some_iff.mp h
  split_ifs at h
  obtain ⟨b', hexec, heq⟩ := Option.map_eq_some_iff.mp h
  cases heq
  unfold Node.takenPrepare at htaken
  exact ⟨Node.current_of_valid (of_decide_eq_true (Option.filter_eq_some_iff.mp htaken).2), hexec⟩

theorem nextOn_of_executed {c : Config H S T} {e : Env T} {t : Node H S T} {req : Prepare H S T}
    {b : Block H S T} (hinv : NodeInv c t) (h : t.executed c e req = some b) : NextOn c t.chain b := by
  obtain ⟨-, -, hvalid⟩ := Node.executed_eq_some h
  simp only [Node.checkBlockValid, Bool.and_eq_true, Bool.or_eq_true, decide_eq_true_eq] at hvalid
  obtain ⟨⟨⟨⟨-, hnumber⟩, hknown⟩, hparent⟩, -⟩ := hvalid
  have hchain : 0 ≤ t.chain.number := le_trans hinv.highest_nonneg hinv.highest_le
  rcases hparent with hfirst | hparent
  · -- on the genesis block alone, which is the only one with a hash
    have hzero : t.chain.number = 0 := by omega
    have hlen : t.chain.length = 1 := by
      unfold Chain.number at hzero
      omega
    obtain ⟨genesis, hgenesis⟩ := List.length_eq_one_iff.mp hlen
    refine ⟨by omega, ?_⟩
    rw [hzero, hgenesis]
    rw [hgenesis] at hknown
    have hhash : c.crypto.headerHash genesis.header = b.header.parentHash := by
      simpa [Chain.hasHash] using hknown
    rw [← hhash]
    rfl
  · obtain ⟨parent, hblock, -⟩ := Option.map_eq_some_iff.mp hparent
    have hle := (Chain.number_nonneg_of_getBlockByNumber hblock).2
    have heq : b.header.number = t.chain.number + 1 := by omega
    refine ⟨heq, ?_⟩
    rw [← hparent, heq, Int.add_sub_cancel]

/-- **The prepare ends the waiting.** -/
theorem Waiting.prepare {c : Config H S T} {s t t' : Node H S T} {e : Env T} {req : Prepare H S T}
    {b : Block H S T} {cur : Int} {signers committers signs commits : List S}
    (h : Waiting c s (c.crypto.headerHash b.header) req.view cur (ownSig c b) signers committers signs
      commits t.round) (hnodes : s.nodeNum ≠ 0) (hinv : NodeInv c s) (hnext : NextOn c s.chain b)
    (hcurrent : t.Current req) (hdb : e.dbCommitOk = true) (hsince : s.trace <:+ t.trace)
    (hsigned : SignedOn c e t req b t') :
    Progress c s b req.view signers committers signs commits t' := by
  obtain ⟨u, ⟨p, hu⟩, hsuffix, hround, htrace⟩ := hsigned
  apply Progress.congr ?_ hround htrace
  have hsealers : u.sealerList = s.sealerList := (congrArg Round.sealerList hu).trans h.sealerList_eq
  have hsignCache : u.cache.signCache = t.cache.signCache := congrArg Round.signCache hu
  have hcommitCache : u.cache.commitCache = t.cache.commitCache := congrArg Round.commitCache hu
  have hheight : t.consensusBlockNumber = s.highestBlock.number + 1 := h.height_eq.trans hinv.cons_eq
  obtain ⟨own, hown⟩ : ∃ own, own = ownMsg c e.now req.height req.view (u.nodeIdx c)
    (c.crypto.headerHash b.header) := ⟨_, rfl⟩
  have hhash : own.blockHash = c.crypto.headerHash b.header := by rw [hown]; rfl
  have hsig : own.sig = ownSig c b := by rw [hown]; rfl
  have hview : own.view = req.view := by rw [hown]; rfl
  have hpresent : own.isFuture = false := by rw [hown]; rfl
  -- what is left under the hash is for the view, and not signed by the node
  have honly : ∀ l : List (S × PBFTMsg H S), (∀ e ∈ l, e.2.view = req.view → e.1 ≠ ownSig c b) →
      ownSig c b ∉ (l.filter fun e => decide (e.2.view = req.view)).map Prod.fst := by
    intro l hl hmem
    obtain ⟨e, he, heq⟩ := List.mem_map.mp hmem
    obtain ⟨he, hev⟩ := List.mem_filter.mp he
    exact hl e he (of_decide_eq_true hev) heq
  have hp : ∀ m : PBFTMsg H S, m.view = req.view → decide (m.view = req.view) = true :=
    fun m hm => decide_eq_true hm
  have hnewSign := honly _ h.own_sign
  have hnewCommit := honly _ h.own_commit
  have hsigns := ((h.signs.filter hp).expect hnewSign).append own (hsig ▸ hnewSign)
    ⟨hview, .inl hpresent⟩ (hsig ▸ List.mem_cons_self ..)
  have hcommits := (h.commits.filter hp).expect hnewCommit
  change Collected _ _ _ _ ((VoteCache.votes t.cache.signCache _).filter _ ++ _) at hsigns
  change Collected _ _ _ _ ((VoteCache.votes t.cache.commitCache _).filter _) at hcommits
  have hsignVotes : VoteCache.votes (VoteCache.addReq (VoteCache.removeInvalid u.cache.signCache
      (c.crypto.headerHash b.header) req.view) own) (c.crypto.headerHash b.header) =
      ((VoteCache.votes t.cache.signCache (c.crypto.headerHash b.header)).filter
        fun e => decide (e.2.view = req.view)) ++ [(own.sig, own)] := by
    rw [votes_addReq_own _ own hhash, VoteCache.votes_removeInvalid_self, hsignCache]
    rw [VoteCache.votes_removeInvalid_self, hsignCache, hsig]
    exact hnewSign
  have hcommitVotes : VoteCache.votes (VoteCache.removeInvalid u.cache.commitCache
      (c.crypto.headerHash b.header) req.view) (c.crypto.headerHash b.header) =
      (VoteCache.votes t.cache.commitCache (c.crypto.headerHash b.header)).filter
        fun e => decide (e.2.view = req.view) := by
    rw [VoteCache.votes_removeInvalid_self, hcommitCache]
  rw [← hsignVotes] at hsigns
  rw [← hcommitVotes] at hcommits
  have hbroadcast : u.broadcastSignReq c e req b = { u with
      cache := { u.cache with
        prepareCache := Node.signPrepare c e req b
        signCache := VoteCache.addReq (VoteCache.removeInvalid u.cache.signCache
          (c.crypto.headerHash b.header) req.view) own
        commitCache := VoteCache.removeInvalid u.cache.commitCache (c.crypto.headerHash b.header)
          req.view }
      trace := .signed req b own :: u.trace } := by
    rw [hown]
    rfl
  have hhigh : u.highestBlock.number < req.height := by
    have huhigh : u.highestBlock = s.highestBlock :=
      (congrArg Round.highestBlock hu).trans h.highest_eq
    rw [huhigh, hcurrent.height_eq, hheight]
    exact lt_add_one _
  have hpos := (Node.minValidNodes_range hnodes).1
  rw [hbroadcast]
  refine Prepared.checkAndCommit (t := { u with cache := _, trace := _ })
    ⟨hsealers, (congrArg Round.consensusBlockNumber hu).trans h.height_eq,
      (congrArg Round.chain hu).trans h.chain_eq, ?_, rfl, rfl, hhigh, rfl, ?_, hcommits, ?_⟩
    hnodes hnext hdb ?_ ?_ ?_
  · exact (congrArg Round.view hu).trans hcurrent.view_eq.symm
  · rw [hsig] at hsigns
    apply hsigns.of_subset
    intro sig hmem
    rcases List.mem_cons.mp hmem with rfl | hmem
    · exact List.mem_append_right _ (List.mem_singleton.mpr rfl)
    · exact List.mem_append_left _ hmem
  · change 0 < present (VoteCache.votes (VoteCache.addReq _ own) _)
    rw [hsignVotes, present, List.countP_append]
    simp [hpresent]
  · change ownSig c b ∉ (VoteCache.votes (VoteCache.removeInvalid _ _ _) _).map Prod.fst
    rw [hcommitVotes]
    exact hnewCommit
  · change tally _ _ _ (VoteCache.votes (VoteCache.addReq _ own) _) ≤ _
    rw [hsignVotes, tally_append_present hpresent]
    have hfuture : tally (s.checkSign c) true s.minValidNodes
        ((VoteCache.votes t.cache.signCache (c.crypto.headerHash b.header)).filter
          fun e => decide (e.2.view = req.view)) ≤ s.minValidNodes - 1 := by
      apply tally_of_future
      intro e he
      obtain ⟨he, hev⟩ := List.mem_filter.mp he
      exact h.future e he (of_decide_eq_true hev)
    omega
  · exact (hsince.trans hsuffix).trans (List.suffix_cons ..)

/-! ### Every order -/

section order

variable {c : Config H S T} {s : Node H S T} {o : VoteOrder H S T} {req : Prepare H S T}
  {b : Block H S T}

theorem VoteOrder.Proper.known
    (hverify : ∀ id h, c.crypto.verify id (c.crypto.sign id h) h = true)
    (hunique : ∀ id id' sig h, c.crypto.verify id sig h = true → c.crypto.verify id' sig h = true →
      id = id')
    (h : o.Proper c s req b) {x : Vote H S T} (hx : x ∈ o.votes) :
    Known c s (c.crypto.headerHash b.header) req.view (ownSig c b) (sigsOf false o.votes)
      (sigsOf true o.votes) x := by
  have hvalid := h.valid x hx
  refine ⟨hvalid, ?_, ?_⟩
  · intro hown
    have hsigned := hvalid.signed
    unfold Node.checkSign at hsigned
    cases hid : s.getNodeIDByIndex x.req.idx with
    | none =>
      rw [hid] at hsigned
      cases hsigned
    | some id =>
      rw [hid] at hsigned
      simp only [Bool.and_eq_true] at hsigned
      rw [hvalid.hash_eq, hown] at hsigned
      have hkey := hunique id c.key _ _ hsigned.1 (hverify c.key (c.crypto.headerHash b.header))
      exact hvalid.key_ne (hid.trans (congrArg some hkey))
  · have hmem : ∀ k, x.isCommit = k → x.req.sig ∈ sigsOf k o.votes := by
      intro k hk
      exact List.mem_map.mpr ⟨x, List.mem_filter.mpr ⟨hx, decide_eq_true hk⟩, rfl⟩
    cases hk : x.isCommit with
    | true => exact hmem true hk
    | false => exact hmem false hk

theorem sigsOf_nodup
    (hunique : ∀ id id' sig h, c.crypto.verify id sig h = true → c.crypto.verify id' sig h = true →
      id = id')
    (h : o.Proper c s req b) (k : Bool)
    (hids : ((kindOf k o.votes).map fun x => s.getNodeIDByIndex x.req.idx).Nodup) :
    (sigsOf k o.votes).Nodup := by
  have hsigned : ∀ x ∈ kindOf k o.votes, ∃ id, s.getNodeIDByIndex x.req.idx = some id ∧
      c.crypto.verify id x.req.sig (c.crypto.headerHash b.header) = true := by
    intro x hx
    have hvalid := h.valid x (List.mem_filter.mp hx).1
    have hsigned := hvalid.signed
    unfold Node.checkSign at hsigned
    cases hid : s.getNodeIDByIndex x.req.idx with
    | none =>
      rw [hid] at hsigned
      cases hsigned
    | some id =>
      rw [hid] at hsigned
      simp only [Bool.and_eq_true, hvalid.hash_eq] at hsigned
      exact ⟨id, rfl, hsigned.1⟩
  refine List.Nodup.map_on ?_ (List.Nodup.of_map _ hids)
  intro x hx y hy hsig
  obtain ⟨id, hid, hx'⟩ := hsigned x hx
  obtain ⟨id', hid', hy'⟩ := hsigned y hy
  rw [hsig] at hx'
  apply List.inj_on_of_nodup_map hids hx hy
  rw [hid, hid', hunique id id' _ _ hx' hy']

theorem VoteOrder.Ok.waiting (hok : o.Ok c s (c.crypto.headerHash b.header) req.view)
    (hview : s.view ≤ req.view) :
    Waiting c s (c.crypto.headerHash b.header) req.view s.view (ownSig c b) (sigsOf false o.votes)
      (sigsOf true o.votes) [] [] s.round := by
  have hcollected : ∀ (k : Bool) (cache : VoteCache H S),
      (∀ x ∈ kindOf k o.votes, sigOk (s.checkSign c) req.view
        (VoteCache.votes cache (c.crypto.headerHash b.header)) x.req.sig = true) →
      Collected (s.checkSign c) req.view (sigsOf k o.votes) []
        (VoteCache.votes cache (c.crypto.headerHash b.header)) := by
    intro k cache hsigs
    refine ⟨VoteCache.votes_nodup, ?_, List.nil_subset _, List.nil_subset _⟩
    intro e he hexpected
    obtain ⟨x, hx, hsig⟩ := List.mem_map.mp hexpected
    have hsigOk := List.all_eq_true.mp (hsigs x hx) e he
    simp only [hsig, decide_true, Bool.not_true, Bool.false_or, Bool.and_eq_true, decide_eq_true_eq,
      Bool.or_eq_true, Bool.not_eq_true'] at hsigOk
    exact hsigOk
  have hown : ∀ cache : VoteCache H S, ownOk req.view
        (VoteCache.votes cache (c.crypto.headerHash b.header)) (ownSig c b) = true →
      ∀ e ∈ VoteCache.votes cache (c.crypto.headerHash b.header), e.2.view = req.view →
        e.1 ≠ ownSig c b := by
    intro cache hcache e he hev heq
    have hownOk := List.all_eq_true.mp hcache e he
    simp [heq, hev] at hownOk
  exact ⟨rfl, rfl, rfl, rfl, rfl, hview, hok.fresh.2, hcollected false _ hok.signs,
    hcollected true _ hok.commits, hok.future, hown _ hok.own_sign, hown _ hok.own_commit⟩

/-- **The order does not matter**, under the condition. -/
theorem vote_order
    (hverify : ∀ id h, c.crypto.verify id (c.crypto.sign id h) h = true)
    (hunique : ∀ id id' sig h, c.crypto.verify id sig h = true → c.crypto.verify id' sig h = true →
      id = id')
    {s₀ : Node H S T} (hstart : Started s₀) {before : List (Env T × Input H S T)}
    (hs : (engine c).run s₀ before = s) (hproper : o.Proper c s req b)
    (hok : o.Ok c s (c.crypto.headerHash b.header) req.view)
    (hsigns : s.minValidNodes - 1 ≤ (kindOf false o.votes).length)
    (hcommits : s.minValidNodes - 1 ≤ (kindOf true o.votes).length) :
    CommittedSince c s ((engine c).run s o.inputs) req.view b := by
  have hinv : NodeInv c s := hs ▸ (NodeInv.started hstart).run before
  have hknown : ∀ x ∈ o.votes, _ := fun x hx => hproper.known hverify hunique hx
  have hmem : ∀ x, x ∈ o.early ∨ x ∈ o.late ∨ x ∈ o.after → x ∈ o.votes := by
    intro x hx
    unfold VoteOrder.votes
    rw [List.mem_append, List.mem_append, or_assoc]
    exact hx
  have hview : s.view ≤ req.view := by
    rcases hproper.enters with ⟨-, heq⟩ | ⟨x, -, -, hlt, -⟩
    · exact le_of_eq heq
    · exact le_of_lt hlt
  -- the votes before the view
  have hearly := (hok.waiting hview).run hproper.sealer (l := o.early)
    fun x hx => hknown x (hmem x (.inl hx))
  rw [List.nil_append, List.nil_append] at hearly
  -- the view
  obtain ⟨cur, hentered⟩ : ∃ cur, Waiting c s (c.crypto.headerHash b.header) req.view cur
      (ownSig c b) (sigsOf false o.votes) (sigsOf true o.votes) (sigsOf false o.early)
      (sigsOf true o.early) ((engine c).run (o.beforeView c s) o.enter.toList).round := by
    rcases hproper.enters with ⟨hnone, -⟩ | ⟨x, hsome, hx, hlt, hreached⟩
    · rw [hnone]
      exact ⟨_, hearly⟩
    · rw [hsome]
      rcases changesView_round c (o.beforeView c s) hx with hsame | ⟨v, henter⟩
      · have hstays : (o.beforeView c s).view = s.view := hearly.view_eq
        have hnext : ((engine c).step (o.beforeView c s) x).view = (o.beforeView c s).view :=
          congrArg Round.view hsame
        omega
      · have hv : v = req.view := (congrArg Round.view henter).symm.trans hreached
        subst hv
        refine ⟨req.view, ?_⟩
        change Waiting _ _ _ _ _ _ _ _ _ _ ((engine c).step (o.beforeView c s) x).round
        rw [henter]
        apply hearly.enter hok.fresh.1
        by_cases hnone : kindOf false o.early = []
        · left
          unfold sigsOf
          rw [hnone]
          rfl
        · exact .inr (hok.kept (by rw [hsome]; rfl) hnone)
  -- the votes before the prepare
  have hlate := hentered.run hproper.sealer (l := o.late) fun x hx => hknown x (hmem x (.inr (.inl hx)))
  have hbefore : (engine c).run ((engine c).run (o.beforeView c s) o.enter.toList)
      (o.late.map Vote.input) = (engine c).run s o.beforePrepare := by
    unfold VoteOrder.beforePrepare VoteOrder.beforeView
    rw [Machine.run_append, Machine.run_append]
  rw [hbefore] at hlate
  -- the prepare
  obtain ⟨hcurrent, hexec⟩ := current_of_executesPrepare hproper.executes
  have hnext : NextOn c s.chain b := by
    have hchain : ((engine c).run s o.beforePrepare).chain = s.chain := hlate.chain_eq
    rw [← hchain]
    exact nextOn_of_executed (hinv.run _) hexec
  have hprepared := hlate.prepare hok.nodes hinv hnext hcurrent hproper.stores
    (trace_suffix_run c s o.beforePrepare) (signedOn_step hproper.executes)
  -- the votes after it
  have hafter := hprepared.run hok.nodes hproper.sealer hnext (l := o.after)
    fun x hx => hknown x (hmem x (.inr (.inr hx)))
  have hinputs : (engine c).run ((engine c).step ((engine c).run s o.beforePrepare) o.prepare)
      (o.after.map Vote.input) = (engine c).run s o.inputs := by
    unfold VoteOrder.inputs
    rw [Machine.run_append]
    rfl
  rw [hinputs] at hafter
  have hsigs : ∀ k, sigsOf k o.early ++ sigsOf k o.late ++ sigsOf k o.after = sigsOf k o.votes := by
    intro k
    unfold sigsOf kindOf VoteOrder.votes
    rw [List.filter_append, List.filter_append, List.map_append, List.map_append]
  rw [hsigs, hsigs] at hafter
  have hnodup : ∀ k, (sigsOf k o.votes).Nodup → (ownSig c b :: sigsOf k o.votes).Nodup := by
    intro k hk
    refine List.nodup_cons.mpr ⟨?_, hk⟩
    intro hown
    obtain ⟨x, hx, hsig⟩ := List.mem_map.mp hown
    exact (hknown x (List.mem_filter.mp hx).1).2.1 hsig
  apply hafter.committed (hnodup false (sigsOf_nodup hunique hproper false hproper.signers))
    (hnodup true (sigsOf_nodup hunique hproper true hproper.committers))
  · unfold sigsOf
    rw [List.length_map]
    omega
  · unfold sigsOf
    rw [List.length_map]
    omega

end order

instance (c : Config H S T) (s : Node H S T) (hash : H) (view : Int) (x : Vote H S T) :
    Decidable (x.Valid c s hash view) :=
  decidable_of_iff (x.req.received = some x.req ∧ x.req.blockHash = hash ∧
      x.req.height = s.consensusBlockNumber ∧ x.req.view = view ∧ x.req.idx ≠ s.nodeIdx c ∧
      s.getNodeIDByIndex x.req.idx ≠ some c.key ∧ s.checkSign c x.req = true ∧
      x.env.isSyncingHigherBlock x.req = false ∧ x.env.dbCommitOk = true)
    ⟨fun ⟨h₁, h₂, h₃, h₄, h₅, h₆, h₇, h₈, h₉⟩ => ⟨h₁, h₂, h₃, h₄, h₅, h₆, h₇, h₈, h₉⟩,
      fun h => ⟨h.received, h.hash_eq, h.height_eq, h.view_eq, h.idx_ne, h.key_ne, h.signed,
        h.synced, h.stores⟩⟩

end VoteOrder

/-! ### Entering the second view with votes at hand -/

def firstBlock : Block Term Term Nat := blockOn genesis 7 [5]

/-- The vote of the sealer at `idx` for the first block. -/
def voteFor (isCommit : Bool) (idx : Nat) (view : Int) : Vote Term Term Nat where
  env := quietEnv
  isCommit
  req := requestFor idx view firstBlock

def nearViewOne (is : List (Input Term Term Nat)) : Node Term Term Nat :=
  (engine (sealerConfig 4)).run startNode
    (quietly ([viewChangeOf 0 1 genesis, viewChangeOf 1 1 genesis] ++ is))

def secondPrepare : Prepare Term Term Nat where
  toPBFTMsg := requestFor 1 1 firstBlock
  block := fullForm firstBlock

def aroundPrepare (early late after : List (Vote Term Term Nat)) : VoteOrder Term Term Nat where
  early
  enter := some (quietEnv, viewChangeOf 2 1 genesis)
  late
  prepare := (quietEnv, .prepareReqPacket (requestFor 1 1 firstBlock) (fullForm firstBlock) false)
  after

def commitBeside : VoteOrder Term Term Nat :=
  aroundPrepare [voteFor true 0 1, voteFor false 0 1] [voteFor false 1 1] [voteFor true 1 1]

theorem commitBeside_proper :
    commitBeside.Proper (sealerConfig 4) (nearViewOne []) secondPrepare firstBlock :=
  ⟨by decide +kernel, by decide +kernel, by decide +kernel, by decide +kernel,
    .inr ⟨_, rfl, rfl, by decide +kernel, by decide +kernel⟩, by decide +kernel, rfl⟩

theorem vote_order_commit_beside :
    CommittedSince (sealerConfig 4) (nearViewOne [])
      ((engine (sealerConfig 4)).run (nearViewOne []) commitBeside.inputs) 1 firstBlock :=
  vote_order symbolicCrypto_verify_sign (fun _ _ _ _ h h' => symbolicCrypto_verify_unique h h')
    startNode_started rfl commitBeside_proper
    ⟨by decide +kernel, by decide +kernel, by decide +kernel, by decide +kernel, by decide +kernel,
      by decide +kernel, by decide +kernel, by decide +kernel⟩ (by decide +kernel) (by decide +kernel)

def sentNoCommit (trace : List (Event Term Term Nat)) : Bool :=
  trace.all fun
    | .commit _ => false
    | _ => true

def signsFirst : VoteOrder Term Term Nat :=
  aroundPrepare [voteFor false 0 1, voteFor false 1 1] [] [voteFor true 0 1, voteFor true 1 1]

def votedBefore : Node Term Term Nat := nearViewOne [.signReqPacket (requestFor 0 0 firstBlock)]

def votesAgain : VoteOrder Term Term Nat :=
  aroundPrepare [voteFor false 0 1, voteFor true 0 1] [voteFor false 1 1, voteFor true 1 1] []

/-- Two sign requests and two commit requests are handled, with the prepare, and
    the node sends no commit: because the view was entered in between, or because
    a request with the same signature for the first view was cached. -/
theorem vote_order_loses_votes :
    (signsFirst.Proper (sealerConfig 4) (nearViewOne []) secondPrepare firstBlock ∧
      (kindOf false signsFirst.votes).length = 2 ∧ (kindOf true signsFirst.votes).length = 2 ∧
      (nearViewOne []).minValidNodes = 3 ∧ sentNoCommit
        ((engine (sealerConfig 4)).run (nearViewOne []) signsFirst.inputs).trace = true) ∧
    votesAgain.Proper (sealerConfig 4) votedBefore secondPrepare firstBlock ∧
      (kindOf false votesAgain.votes).length = 2 ∧ (kindOf true votesAgain.votes).length = 2 ∧
      votedBefore.minValidNodes = 3 ∧ sentNoCommit
        ((engine (sealerConfig 4)).run votedBefore votesAgain.inputs).trace = true := by
  refine ⟨⟨⟨by decide +kernel, by decide +kernel, by decide +kernel, by decide +kernel,
    .inr ⟨_, rfl, rfl, by decide +kernel, by decide +kernel⟩, by decide +kernel, rfl⟩, rfl, rfl,
    by decide +kernel, by decide +kernel⟩, ⟨by decide +kernel, by decide +kernel, by decide +kernel,
    by decide +kernel, .inr ⟨_, rfl, rfl, by decide +kernel, by decide +kernel⟩, by decide +kernel,
    rfl⟩, rfl, rfl, by decide +kernel, by decide +kernel⟩

end HieraChain.PBFT
