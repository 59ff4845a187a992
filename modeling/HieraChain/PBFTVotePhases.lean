/-
  HieraChain/PBFTVotePhases.lean
  ==============================
  **The phases of a proposal at one node.**

  A node waits for the prepare and keeps the votes for it as future requests
  (`Waiting`).  Once the prepare is executed it counts sign requests
  (`Voting`), and once its own commit is out it counts commit requests
  (`Committing`).  Every vote keeps the phase or ends it; a phase ends exactly
  when its tally reaches the quorum, so with enough votes no phase is left
  (`Progress.committed`).
-/
import HieraChain.PBFTInvariants
import HieraChain.PBFTVoteCount

set_option linter.unusedSectionVars false

namespace HieraChain.PBFT

section VotePhases

variable {H S T : Type} [DecidableEq H] [DecidableEq S] [Zero H]

/-! ### Votes -/

structure Vote (H S T : Type) where
  env : Env T
  isCommit : Bool
  req : PBFTMsg H S

def Vote.input (x : Vote H S T) : Env T × Input H S T :=
  (x.env, if x.isCommit then .commitReqPacket x.req else .signReqPacket x.req)

def kindOf (isCommit : Bool) (votes : List (Vote H S T)) : List (Vote H S T) :=
  votes.filter fun x => decide (x.isCommit = isCommit)

/-- A valid vote of another sealer for a hash and a view at the consensus height. -/
structure Vote.Valid (c : Config H S T) (s : Node H S T) (hash : H) (view : Int) (x : Vote H S T) :
    Prop where
  received : x.req.received = some x.req
  hash_eq : x.req.blockHash = hash
  height_eq : x.req.height = s.consensusBlockNumber
  view_eq : x.req.view = view
  idx_ne : x.req.idx ≠ s.nodeIdx c
  key_ne : s.getNodeIDByIndex x.req.idx ≠ some c.key
  signed : s.checkSign c x.req = true
  synced : x.env.isSyncingHigherBlock x.req = false
  stores : x.env.dbCommitOk = true

def NewEvent (old new : List (Event H S T)) (ev : Event H S T) : Prop :=
  ∃ l, new = l ++ old ∧ ev ∈ l

/-- The node broadcast its commit for the hash and the view and stored the block. -/
def CommittedSince (c : Config H S T) (s t : Node H S T) (view : Int) (b : Block H S T) : Prop :=
  (∃ r, NewEvent s.trace t.trace (.commit r) ∧ r.blockHash = c.crypto.headerHash b.header ∧
    r.view = view) ∧
  ∃ b', NewEvent s.trace t.trace (.commitBlock s.sealerList b' true) ∧ b'.header = b.header ∧
    b'.transactions = b.transactions

/-! ### What the handlers of votes read -/

structure Round (H S T : Type) where
  view : Int
  consensusBlockNumber : Int
  highestBlock : BlockHeader H
  sealerList : List NodeID
  chain : Chain H S T
  prepareCache : Prepare H S T
  signCache : VoteCache H S
  commitCache : VoteCache H S

def Node.round (s : Node H S T) : Round H S T where
  view := s.view
  consensusBlockNumber := s.consensusBlockNumber
  highestBlock := s.highestBlock
  sealerList := s.sealerList
  chain := s.chain
  prepareCache := s.cache.prepareCache
  signCache := s.cache.signCache
  commitCache := s.cache.commitCache

section congr

variable {c : Config H S T} {s t : Node H S T}

theorem Node.checkSign_congr (h : t.sealerList = s.sealerList) : t.checkSign c = s.checkSign c := by
  funext m
  unfold Node.checkSign Node.getNodeIDByIndex
  rw [h]

theorem Node.nodeIdx_congr (h : t.sealerList = s.sealerList) : t.nodeIdx c = s.nodeIdx c := by
  unfold Node.nodeIdx
  rw [h]

theorem Node.cfgErr_congr (h : t.sealerList = s.sealerList) : t.cfgErr c = s.cfgErr c := by
  unfold Node.cfgErr
  rw [Node.nodeIdx_congr h]

theorem Node.minValidNodes_congr (h : t.sealerList = s.sealerList) :
    t.minValidNodes = s.minValidNodes := by
  unfold Node.minValidNodes Node.f Node.nodeNum
  rw [h]

end congr

theorem Node.minValidNodes_range {s : Node H S T} (h : s.nodeNum ≠ 0) :
    0 < s.minValidNodes ∧ s.minValidNodes < 65536 := by
  have hlt : s.nodeNum < 65536 := Nat.mod_lt _ (by decide)
  unfold Node.minValidNodes Node.f
  omega

theorem checkSign_signChecked (c : Config H S T) (s : Node H S T) (req : PBFTMsg H S) :
    s.checkSign c { req with signChecked := true } = s.checkSign c req := rfl

/-! ### New events -/

namespace NewEvent

variable {old mid new : List (Event H S T)} {ev : Event H S T}

theorem cons (old : List (Event H S T)) (ev : Event H S T) : NewEvent old (ev :: old) ev := ⟨[ev], rfl, List.mem_singleton.mpr rfl⟩

theorem of_suffix_left (h : NewEvent mid new ev) (hsuffix : old <:+ mid) : NewEvent old new ev := by
  obtain ⟨l, rfl, hev⟩ := h
  obtain ⟨l', rfl⟩ := hsuffix
  exact ⟨l ++ l', (List.append_assoc ..).symm, List.mem_append_left _ hev⟩

theorem of_suffix_right (h : NewEvent old mid ev) (hsuffix : mid <:+ new) : NewEvent old new ev := by
  obtain ⟨l, rfl, hev⟩ := h
  obtain ⟨l', rfl⟩ := hsuffix
  exact ⟨l' ++ l, (List.append_assoc ..).symm, List.mem_append_right _ hev⟩

end NewEvent

/-! ### Counting in a prepared round -/

def sigsOf (isCommit : Bool) (votes : List (Vote H S T)) : List S :=
  (kindOf isCommit votes).map fun x => x.req.sig

section Phases

variable {c : Config H S T} {s : Node H S T} {b : Block H S T} {view : Int}
  {signers committers : List S} {signs commits : List S}

def ownSig (c : Config H S T) (b : Block H S T) : S :=
  c.crypto.sign c.key (c.crypto.headerHash b.header)

structure Prepared (c : Config H S T) (s : Node H S T) (b : Block H S T) (view : Int)
    (signers committers signs commits : List S) (r : Round H S T) : Prop where
  sealerList_eq : r.sealerList = s.sealerList
  height_eq : r.consensusBlockNumber = s.consensusBlockNumber
  chain_eq : r.chain = s.chain
  view_eq : r.view = view
  hash_eq : r.prepareCache.blockHash = c.crypto.headerHash b.header
  prepare_view : r.prepareCache.view = view
  height_lt : r.highestBlock.number < r.prepareCache.height
  block_eq : r.prepareCache.pBlock = some b
  signs : Collected (s.checkSign c) view (ownSig c b :: signers) (ownSig c b :: signs)
    (VoteCache.votes r.signCache (c.crypto.headerHash b.header))
  commits : Collected (s.checkSign c) view (ownSig c b :: committers) commits
    (VoteCache.votes r.commitCache (c.crypto.headerHash b.header))
  signed : 0 < present (VoteCache.votes r.signCache (c.crypto.headerHash b.header))

def NextOn (c : Config H S T) (chain : Chain H S T) (b : Block H S T) : Prop :=
  b.header.number = chain.number + 1 ∧
    some b.header.parentHash = chain.numberHash c.crypto chain.number

theorem NextOn.commitBlock {chain : Chain H S T} {b b' : Block H S T} (h : NextOn c chain b)
    (hheader : b'.header = b.header) :
    chain.commitBlock c.crypto b' true = some (chain ++ [b']) := by
  unfold Chain.commitBlock
  rw [hheader, if_neg (not_not.mpr h.1), if_neg (not_not.mpr h.2)]
  rfl

theorem saveCounted_stores {e : Env T} {t : Node H S T} {signSize commitSize : Nat}
    (hcount : t.minValidNodes ≤ signSize ∧ t.minValidNodes ≤ commitSize)
    (hview : t.cache.prepareCache.view = t.view)
    (hheight : t.highestBlock.number < t.cache.prepareCache.height)
    (hblock : t.cache.prepareCache.pBlock = some b) (hnext : NextOn c t.chain b)
    (hdb : e.dbCommitOk = true) :
    ∃ b', (t.saveCounted c e signSize commitSize).trace =
        .commitBlock t.sealerList b' true :: t.trace ∧
      b'.header = b.header ∧ b'.transactions = b.transactions := by
  have hsaved : ∀ b' : Block H S T, b'.header = b.header →
      (t.saveBlock c e b').trace = .commitBlock t.sealerList b' true :: t.trace := by
    intro b' hheader
    unfold Node.saveBlock
    rw [hdb, hnext.commitBlock hheader]
    rfl
  unfold Node.saveCounted
  rw [if_pos hcount, if_neg (not_not.mpr hview), if_pos hheight, hblock]
  dsimp only
  cases t.cache.generateSigList t.minValidNodes with
  | none => exact ⟨b, hsaved b rfl, rfl, rfl⟩
  | some sigList => exact ⟨{ b with sigList }, hsaved _ rfl, rfl, rfl⟩

structure Recounted (c : Config H S T) (s : Node H S T) (hash : H) (t u : Node H S T) : Prop where
  round_eq : u.round = { t.round with
    signCache := u.cache.signCache, commitCache := u.cache.commitCache }
  trace_eq : u.trace = t.trace
  signs : List.Forall₂ (Marked (s.checkSign c)) (VoteCache.votes t.cache.signCache hash)
    (VoteCache.votes u.cache.signCache hash)
  commits : List.Forall₂ (Marked (s.checkSign c)) (VoteCache.votes t.cache.commitCache hash)
    (VoteCache.votes u.cache.commitCache hash)

theorem Prepared.recounted {t u : Node H S T}
    (h : Prepared c s b view signers committers signs commits t.round)
    (hcount : Recounted c s (c.crypto.headerHash b.header) t u) :
    Prepared c s b view signers committers signs commits u.round := by
  have hsigns := h.signs.marked (checkSign_signChecked c s) hcount.signs
  have hcommits := h.commits.marked (checkSign_signChecked c s) hcount.commits
  have hsigned : 0 < present (VoteCache.votes u.cache.signCache (c.crypto.headerHash b.header)) := by
    rw [present_of_marked hcount.signs]
    exact h.signed
  rw [hcount.round_eq]
  exact ⟨h.sealerList_eq, h.height_eq, h.chain_eq, h.view_eq, h.hash_eq, h.prepare_view, h.height_lt, h.block_eq,
    hsigns, hcommits, hsigned⟩

theorem Prepared.countSigns {t : Node H S T}
    (h : Prepared c s b view signers committers signs commits t.round) :
    Recounted c s (c.crypto.headerHash b.header) t (t.withCache (t.cache.getSigCacheSize
      (s.checkSign c) (c.crypto.headerHash b.header) s.minValidNodes).1) where
  round_eq := rfl
  trace_eq := rfl
  signs := votes_getCacheSize_marked h.signed
  commits := List.forall₂_same.mpr fun _ _ => .inl rfl

/-- **`checkAndSave`** stores the block when both tallies reach the quorum, and
    only counts when one does not. -/
theorem Prepared.checkAndSave {e : Env T} {t : Node H S T}
    (h : Prepared c s b view signers committers signs commits t.round) (hnodes : s.nodeNum ≠ 0)
    (hnext : NextOn c s.chain b) (hdb : e.dbCommitOk = true)
    (hcommitted : 0 < present
      (VoteCache.votes t.cache.commitCache (c.crypto.headerHash b.header))) :
    (s.minValidNodes ≤ tally (s.checkSign c) true s.minValidNodes
        (VoteCache.votes t.cache.signCache (c.crypto.headerHash b.header)) →
      s.minValidNodes ≤ tally (s.checkSign c) false s.minValidNodes
        (VoteCache.votes t.cache.commitCache (c.crypto.headerHash b.header)) →
      ∃ b', NewEvent t.trace (t.checkAndSave c e).trace (.commitBlock s.sealerList b' true) ∧
        b'.header = b.header ∧ b'.transactions = b.transactions) ∧
    (tally (s.checkSign c) true s.minValidNodes
          (VoteCache.votes t.cache.signCache (c.crypto.headerHash b.header)) < s.minValidNodes ∨
        tally (s.checkSign c) false s.minValidNodes
          (VoteCache.votes t.cache.commitCache (c.crypto.headerHash b.header)) < s.minValidNodes →
      Recounted c s (c.crypto.headerHash b.header) t (t.checkAndSave c e)) := by
  obtain ⟨hpos, hsmall⟩ := Node.minValidNodes_range hnodes
  have hsealers : t.sealerList = s.sealerList := h.sealerList_eq
  have hhash : t.cache.prepareCache.blockHash = c.crypto.headerHash b.header := h.hash_eq
  unfold Node.checkAndSave
  rw [Node.checkSign_congr hsealers, Node.minValidNodes_congr hsealers, hhash]
  dsimp only
  set sign := t.cache.getSigCacheSize (s.checkSign c) (c.crypto.headerHash b.header) s.minValidNodes
    with hsign
  set commit := sign.1.getCommitCacheSize (s.checkSign c) (c.crypto.headerHash b.header)
    s.minValidNodes with hcommit
  have hsignCount : s.minValidNodes ≤ sign.2 ↔ _ := (getCacheSize_count hpos hsmall).2
  have hcommitCount : s.minValidNodes ≤ commit.2 ↔ _ := (getCacheSize_count hpos hsmall).2
  have hnodes : (t.withCache commit.1).minValidNodes = s.minValidNodes :=
    Node.minValidNodes_congr hsealers
  constructor
  · intro hsigns hcommits
    have hcount : (t.withCache commit.1).minValidNodes ≤ sign.2 ∧
        (t.withCache commit.1).minValidNodes ≤ commit.2 := by
      rw [hnodes]
      exact ⟨hsignCount.mpr hsigns, hcommitCount.mpr hcommits⟩
    obtain ⟨b', htrace, hblock⟩ := saveCounted_stores (t := t.withCache commit.1) hcount
      (h.prepare_view.trans h.view_eq.symm) h.height_lt h.block_eq (h.chain_eq ▸ hnext) hdb
    refine ⟨b', ?_, hblock⟩
    rw [htrace, show (t.withCache commit.1).sealerList = s.sealerList from hsealers]
    exact NewEvent.cons _ _
  · intro hfew
    have hnot : ¬(s.minValidNodes ≤ sign.2 ∧ s.minValidNodes ≤ commit.2) := by
      rw [hsignCount, hcommitCount, not_and_or, not_le, not_le]
      exact hfew
    unfold Node.saveCounted
    rw [hnodes, if_neg hnot]
    exact ⟨rfl, rfl, votes_getCacheSize_marked h.signed, votes_getCacheSize_marked hcommitted⟩

/-! ### The phases after the prepare -/

structure Voting (c : Config H S T) (s : Node H S T) (b : Block H S T) (view : Int)
    (signers committers signs commits : List S) (t : Node H S T) : Prop where
  prepared : Prepared c s b view signers committers signs commits t.round
  silent : ownSig c b ∉ (VoteCache.votes t.cache.commitCache (c.crypto.headerHash b.header)).map Prod.fst
  few : tally (s.checkSign c) true s.minValidNodes
    (VoteCache.votes t.cache.signCache (c.crypto.headerHash b.header)) < s.minValidNodes
  since : s.trace <:+ t.trace

structure Committing (c : Config H S T) (s : Node H S T) (b : Block H S T) (view : Int)
    (signers committers signs commits : List S) (t : Node H S T) : Prop where
  prepared : Prepared c s b view signers committers signs (ownSig c b :: commits) t.round
  committed : 0 < present (VoteCache.votes t.cache.commitCache (c.crypto.headerHash b.header))
  enough : s.minValidNodes ≤ tally (s.checkSign c) true s.minValidNodes
    (VoteCache.votes t.cache.signCache (c.crypto.headerHash b.header))
  few : tally (s.checkSign c) false s.minValidNodes
    (VoteCache.votes t.cache.commitCache (c.crypto.headerHash b.header)) < s.minValidNodes
  sent : ∃ r, NewEvent s.trace t.trace (.commit r) ∧ r.blockHash = c.crypto.headerHash b.header ∧
    r.view = view
  since : s.trace <:+ t.trace

def Progress (c : Config H S T) (s : Node H S T) (b : Block H S T) (view : Int)
    (signers committers signs commits : List S) (t : Node H S T) : Prop :=
  Voting c s b view signers committers signs commits t ∨
    Committing c s b view signers committers signs commits t ∨ CommittedSince c s t view b

theorem Prepared.saved {e : Env T} {t : Node H S T}
    (h : Prepared c s b view signers committers signs (ownSig c b :: commits) t.round)
    (hnodes : s.nodeNum ≠ 0) (hnext : NextOn c s.chain b) (hdb : e.dbCommitOk = true)
    (hcommitted : 0 < present
      (VoteCache.votes t.cache.commitCache (c.crypto.headerHash b.header)))
    (henough : s.minValidNodes ≤ tally (s.checkSign c) true s.minValidNodes
      (VoteCache.votes t.cache.signCache (c.crypto.headerHash b.header)))
    (hsent : ∃ r, NewEvent s.trace t.trace (.commit r) ∧
      r.blockHash = c.crypto.headerHash b.header ∧ r.view = view)
    (hsince : s.trace <:+ t.trace) :
    Progress c s b view signers committers signs commits (t.checkAndSave c e) := by
  obtain ⟨hstores, hcounts⟩ := h.checkAndSave (e := e) hnodes hnext hdb hcommitted
  obtain ⟨r, hr, hreq⟩ := hsent
  by_cases hfew : tally (s.checkSign c) false s.minValidNodes
      (VoteCache.votes t.cache.commitCache (c.crypto.headerHash b.header)) < s.minValidNodes
  · have hcount := hcounts (.inr hfew)
    refine .inr (.inl ⟨h.recounted hcount, ?_, ?_, ?_, ⟨r, ?_, hreq⟩, ?_⟩)
    · rw [present_of_marked hcount.commits]
      exact hcommitted
    · rw [tally_of_marked hcount.signs (checkSign_signChecked c s)]
      exact henough
    · rw [tally_of_marked hcount.commits (checkSign_signChecked c s)]
      exact hfew
    · rw [hcount.trace_eq]
      exact hr
    · rw [hcount.trace_eq]
      exact hsince
  · obtain ⟨b', hb', hblock⟩ := hstores henough (not_lt.mp hfew)
    have hsuffix : t.trace <:+ (t.checkAndSave c e).trace := by
      obtain ⟨l, hl, -⟩ := hb'
      exact ⟨l, hl.symm⟩
    exact .inr (.inr ⟨⟨r, hr.of_suffix_right hsuffix, hreq⟩, b', hb'.of_suffix_left hsince, hblock⟩)

theorem votes_addReq_own (cache : VoteCache H S) (req : PBFTMsg H S) {hash : H}
    (hhash : req.blockHash = hash) (hnew : req.sig ∉ (VoteCache.votes cache hash).map Prod.fst) :
    VoteCache.votes (VoteCache.addReq cache req) hash =
      VoteCache.votes cache hash ++ [(req.sig, req)] := by
  subst hhash
  apply VoteCache.votes_addReq_of_new
  rw [← Bool.not_eq_true, VoteCache.cacheExists_iff_mem]
  exact hnew

theorem Prepared.sendCommit {e : Env T} {t : Node H S T}
    (h : Prepared c s b view signers committers signs commits t.round) (hnodes : s.nodeNum ≠ 0)
    (hnext : NextOn c s.chain b) (hdb : e.dbCommitOk = true)
    (hsilent : ownSig c b ∉
      (VoteCache.votes t.cache.commitCache (c.crypto.headerHash b.header)).map Prod.fst)
    (henough : s.minValidNodes ≤ tally (s.checkSign c) true s.minValidNodes
      (VoteCache.votes t.cache.signCache (c.crypto.headerHash b.header)))
    (hsince : s.trace <:+ t.trace) :
    Progress c s b view signers committers signs commits
      ((((t.withCache t.cache.updateCommittedPrepare).emit
        (.locked t.cache.rawPrepareCache)).broadcastCommitReq c e).checkAndSave c e) := by
  have hhash : t.cache.prepareCache.blockHash = c.crypto.headerHash b.header := h.hash_eq
  obtain ⟨req, hreq⟩ : ∃ req, req = ownMsg c e.now t.cache.prepareCache.height
    t.cache.prepareCache.view (t.nodeIdx c) t.cache.prepareCache.blockHash := ⟨_, rfl⟩
  have hblockHash : req.blockHash = c.crypto.headerHash b.header := by
    rw [hreq]
    exact hhash
  have hsig : req.sig = ownSig c b := by
    rw [hreq]
    exact congrArg (c.crypto.sign c.key) hhash
  have hview : req.view = view := by
    rw [hreq]
    exact h.prepare_view
  have hfuture : req.isFuture = false := by rw [hreq]; rfl
  have hvotes := votes_addReq_own t.cache.commitCache req hblockHash (hsig ▸ hsilent)
  have hbroadcast : ((t.withCache t.cache.updateCommittedPrepare).emit
      (.locked t.cache.rawPrepareCache)).broadcastCommitReq c e =
      { t with
        cache := { t.cache with
          committedPrepareCache := t.cache.rawPrepareCache
          commitCache := VoteCache.addReq t.cache.commitCache req }
        trace := .commit req :: .locked t.cache.rawPrepareCache :: t.trace } := by
    rw [hreq]
    rfl
  rw [hbroadcast]
  have hcommits := h.commits.append req (hsig ▸ hsilent) ⟨hview, .inl hfuture⟩
    (hsig ▸ List.mem_cons_self ..)
  change Collected _ _ _ _ (VoteCache.votes t.cache.commitCache _ ++ _) at hcommits
  rw [← hvotes, hsig] at hcommits
  refine Prepared.saved ⟨h.sealerList_eq, h.height_eq, h.chain_eq, h.view_eq, h.hash_eq, h.prepare_view,
    h.height_lt, h.block_eq, h.signs, ?_, h.signed⟩ hnodes hnext hdb ?_ henough
    ⟨req, ?_, hblockHash, hview⟩ ?_
  · apply hcommits.of_subset
    intro sig hmem
    rcases List.mem_cons.mp hmem with rfl | hmem
    · exact List.mem_append_right _ (List.mem_singleton.mpr rfl)
    · exact List.mem_append_left _ hmem
  · change 0 < present (VoteCache.votes (VoteCache.addReq t.cache.commitCache req) _)
    rw [hvotes, present, List.countP_append]
    simp [hfuture]
  · exact (NewEvent.cons (.locked t.cache.rawPrepareCache :: t.trace) _).of_suffix_left
      (hsince.trans (List.suffix_cons ..))
  · exact (hsince.trans (List.suffix_cons ..)).trans (List.suffix_cons ..)

theorem Prepared.checkAndCommit_of_ne {e : Env T} {t : Node H S T}
    (h : Prepared c s b view signers committers signs commits t.round) (hnodes : s.nodeNum ≠ 0)
    (hne : tally (s.checkSign c) true s.minValidNodes
      (VoteCache.votes t.cache.signCache (c.crypto.headerHash b.header)) ≠ s.minValidNodes) :
    Recounted c s (c.crypto.headerHash b.header) t (t.checkAndCommit c e) := by
  obtain ⟨hpos, hsmall⟩ := Node.minValidNodes_range hnodes
  have hsealers : t.sealerList = s.sealerList := h.sealerList_eq
  have hhash : t.cache.prepareCache.blockHash = c.crypto.headerHash b.header := h.hash_eq
  unfold Node.checkAndCommit
  rw [Node.checkSign_congr hsealers, Node.minValidNodes_congr hsealers, hhash]
  dsimp only
  set sign := t.cache.getSigCacheSize (s.checkSign c) (c.crypto.headerHash b.header) s.minValidNodes
    with hsign
  have hcount : sign.2 = s.minValidNodes ↔ _ := (getCacheSize_count hpos hsmall).1
  have hnum : (t.withCache sign.1).minValidNodes = s.minValidNodes :=
    Node.minValidNodes_congr hsealers
  rw [hnum, if_neg fun heq => hne (hcount.mp heq)]
  exact h.countSigns

/-- **`checkAndCommit`** sends the commit when the tally is the quorum. -/
theorem Prepared.checkAndCommit {e : Env T} {t : Node H S T}
    (h : Prepared c s b view signers committers signs commits t.round) (hnodes : s.nodeNum ≠ 0)
    (hnext : NextOn c s.chain b) (hdb : e.dbCommitOk = true)
    (hsilent : ownSig c b ∉
      (VoteCache.votes t.cache.commitCache (c.crypto.headerHash b.header)).map Prod.fst)
    (hle : tally (s.checkSign c) true s.minValidNodes
      (VoteCache.votes t.cache.signCache (c.crypto.headerHash b.header)) ≤ s.minValidNodes)
    (hsince : s.trace <:+ t.trace) :
    Progress c s b view signers committers signs commits (t.checkAndCommit c e) := by
  by_cases hquorum : tally (s.checkSign c) true s.minValidNodes
      (VoteCache.votes t.cache.signCache (c.crypto.headerHash b.header)) = s.minValidNodes
  · obtain ⟨hpos, hsmall⟩ := Node.minValidNodes_range hnodes
    have hsealers : t.sealerList = s.sealerList := h.sealerList_eq
    have hhash : t.cache.prepareCache.blockHash = c.crypto.headerHash b.header := h.hash_eq
    unfold Node.checkAndCommit
    rw [Node.checkSign_congr hsealers, Node.minValidNodes_congr hsealers, hhash]
    dsimp only
    set sign := t.cache.getSigCacheSize (s.checkSign c) (c.crypto.headerHash b.header)
      s.minValidNodes with hsign
    have hcount : sign.2 = s.minValidNodes ↔ _ := (getCacheSize_count hpos hsmall).1
    have hnum : (t.withCache sign.1).minValidNodes = s.minValidNodes :=
      Node.minValidNodes_congr hsealers
    have hview : (t.withCache sign.1).cache.prepareCache.view = (t.withCache sign.1).view :=
      h.prepare_view.trans h.view_eq.symm
    have henough := le_of_eq hquorum.symm
    rw [← tally_of_marked h.countSigns.signs (checkSign_signChecked c s)] at henough
    rw [hnum, if_pos (hcount.mpr hquorum), if_neg (not_not.mpr hview)]
    exact (h.recounted h.countSigns).sendCommit hnodes hnext hdb hsilent henough hsince
  · have hcounted := h.checkAndCommit_of_ne (e := e) hnodes hquorum
    refine .inl ⟨h.recounted hcounted, ?_, ?_, ?_⟩
    · rw [keys_of_marked hcounted.commits]
      exact hsilent
    · rw [tally_of_marked hcounted.signs (checkSign_signChecked c s)]
      exact lt_of_le_of_ne hle hquorum
    · rw [hcounted.trace_eq]
      exact hsince

/-! ### Handling a vote -/

theorem isValidVote_again {t : Node H S T} {e : Env T} {cache : VoteCache H S} {m : PBFTMsg H S}
    (h : VoteCache.cacheExists cache m = true) : t.isValidVote c e cache m = (.INVALID, m) := if_pos h

theorem isValidVote_future {t : Node H S T} {e : Env T} {cache : VoteCache H S} {m : PBFTMsg H S}
    (hnew : VoteCache.cacheExists cache m = false) (hheight : m.height = t.consensusBlockNumber)
    (hview : t.view ≤ m.view) (hsync : e.isSyncingHigherBlock m = false)
    (hhash : t.cache.prepareCache.blockHash ≠ m.blockHash) :
    t.isValidVote c e cache m = (.FUTURE, { m with isFuture := true, signChecked := false }) := by
  have hcons : t.hasConsensused m = false := by
    simp [Node.hasConsensused, hheight, hview]
  have hfuture : t.isFutureBlock m = true := by
    simp [Node.isFutureBlock, hheight]
  unfold Node.isValidVote Node.checkReq
  simp [hnew, hcons, hsync, hhash, hfuture]

theorem isValidVote_present {t : Node H S T} {e : Env T} {cache : VoteCache H S} {m : PBFTMsg H S}
    (hnew : VoteCache.cacheExists cache m = false) (hcons : t.hasConsensused m = false)
    (hsync : e.isSyncingHigherBlock m = false)
    (hhash : t.cache.prepareCache.blockHash = m.blockHash) (hidx : m.idx ≠ t.nodeIdx c)
    (hview : t.cache.prepareCache.view = m.view) (hsign : t.checkSign c m = true) :
    t.isValidVote c e cache m = (.VALID, m) := by
  unfold Node.isValidVote Node.checkReq
  simp [hnew, hcons, hsync, hhash, hidx, hview, hsign]

theorem step_vote {t : Node H S T} (hcfg : t.cfgErr c = false) {x : Vote H S T}
    (hx : x.req.received = some x.req) :
    (engine c).step t x.input =
      if x.isCommit then t.handleCommitMsg c x.env x.req else t.handleSignMsg c x.env x.req := by
  change t.step c x.env (if x.isCommit then _ else _) = _
  cases x.isCommit with
  | true =>
    change (if t.cfgErr c then t else t.handleMsg c x.env (.commitReqPacket x.req)) = _
    rw [hcfg, if_neg Bool.false_ne_true]
    simp only [Node.handleMsg, hx]
    rfl
  | false =>
    change (if t.cfgErr c then t else t.handleMsg c x.env (.signReqPacket x.req)) = _
    rw [hcfg, if_neg Bool.false_ne_true]
    simp only [Node.handleMsg, hx]
    rfl

/-! ### Before the prepare -/

structure Waiting (c : Config H S T) (s : Node H S T) (hash : H) (view cur : Int)
    (own : S) (signers committers signs commits : List S) (r : Round H S T) : Prop where
  sealerList_eq : r.sealerList = s.sealerList
  height_eq : r.consensusBlockNumber = s.consensusBlockNumber
  highest_eq : r.highestBlock = s.highestBlock
  chain_eq : r.chain = s.chain
  view_eq : r.view = cur
  view_le : cur ≤ view
  hash_ne : r.prepareCache.blockHash ≠ hash
  signs : Collected (s.checkSign c) view signers signs (VoteCache.votes r.signCache hash)
  commits : Collected (s.checkSign c) view committers commits (VoteCache.votes r.commitCache hash)
  future : ∀ e ∈ VoteCache.votes r.signCache hash, e.2.view = view → e.2.isFuture = true
  own_sign : ∀ e ∈ VoteCache.votes r.signCache hash, e.2.view = view → e.1 ≠ own
  own_commit : ∀ e ∈ VoteCache.votes r.commitCache hash, e.2.view = view → e.1 ≠ own

theorem Waiting.vote {hash : H} {cur : Int} {own : S} {t : Node H S T} {x : Vote H S T}
    (h : Waiting c s hash view cur own signers committers signs commits t.round)
    (hcfg : s.cfgErr c = false) (hx : x.Valid c s hash view) (hown : x.req.sig ≠ own)
    (hknown : x.req.sig ∈ if x.isCommit then committers else signers) :
    Waiting c s hash view cur own signers committers
      (signs ++ if x.isCommit = false then [x.req.sig] else [])
      (commits ++ if x.isCommit = true then [x.req.sig] else [])
      ((engine c).step t x.input).round := by
  have hcfg : t.cfgErr c = false := (Node.cfgErr_congr h.sealerList_eq).trans hcfg
  have hheight : x.req.height = t.consensusBlockNumber := hx.height_eq.trans h.height_eq.symm
  have hview : t.view ≤ x.req.view := le_of_eq_of_le h.view_eq (hx.view_eq ▸ h.view_le)
  have hhash : t.cache.prepareCache.blockHash ≠ x.req.blockHash := hx.hash_eq ▸ h.hash_ne
  have hcounted : Counted (s.checkSign c) view
      { x.req with isFuture := true, signChecked := false } := ⟨hx.view_eq, .inr hx.signed⟩
  have hmem : ∀ cache : VoteCache H S, VoteCache.cacheExists cache x.req = true ↔
      x.req.sig ∈ (VoteCache.votes cache hash).map Prod.fst := by
    intro cache
    rw [VoteCache.cacheExists_iff_mem, hx.hash_eq]
  rw [step_vote hcfg hx.received]
  cases hkind : x.isCommit with
  | true =>
    rw [hkind, if_pos rfl] at hknown
    simp only [if_true, Bool.true_eq_false, if_false, List.append_nil]
    unfold Node.handleCommitMsg
    cases hexist : VoteCache.cacheExists t.cache.commitCache x.req with
    | true =>
      rw [isValidVote_again hexist]
      exact { h with commits := h.commits.again ((hmem _).mp hexist) hknown }
    | false =>
      have hnew := fun hold => Bool.false_ne_true (hexist.symm.trans ((hmem _).mpr hold))
      have hvotes := votes_addReq_own t.cache.commitCache
        { x.req with isFuture := true, signChecked := false } hx.hash_eq hnew
      rw [isValidVote_future hexist hheight hview hx.synced hhash]
      refine ⟨h.sealerList_eq, h.height_eq, h.highest_eq, h.chain_eq, h.view_eq, h.view_le, h.hash_ne, h.signs,
        ?_, h.future, h.own_sign, ?_⟩
      · change Collected _ _ _ _ (VoteCache.votes (VoteCache.addReq _ _) _)
        rw [hvotes]
        exact h.commits.append { x.req with isFuture := true, signChecked := false } hnew
          hcounted hknown
      · intro e he hev
        change e ∈ VoteCache.votes (VoteCache.addReq _ _) _ at he
        rw [hvotes] at he
        rcases List.mem_append.mp he with hold | hlast
        · exact h.own_commit e hold hev
        · rw [List.mem_singleton.mp hlast]
          exact hown
  | false =>
    rw [hkind, if_neg Bool.false_ne_true] at hknown
    simp only [if_true, Bool.false_eq_true, if_false, List.append_nil]
    unfold Node.handleSignMsg
    cases hexist : VoteCache.cacheExists t.cache.signCache x.req with
    | true =>
      rw [isValidVote_again hexist]
      exact { h with signs := h.signs.again ((hmem _).mp hexist) hknown }
    | false =>
      have hnew := fun hold => Bool.false_ne_true (hexist.symm.trans ((hmem _).mpr hold))
      have hvotes := votes_addReq_own t.cache.signCache
        { x.req with isFuture := true, signChecked := false } hx.hash_eq hnew
      have hcases : ∀ e ∈ VoteCache.votes (VoteCache.addReq t.cache.signCache
          { x.req with isFuture := true, signChecked := false }) hash,
          e ∈ VoteCache.votes t.cache.signCache hash ∨
            e = (x.req.sig, { x.req with isFuture := true, signChecked := false }) := by
        intro e he
        rw [hvotes] at he
        exact (List.mem_append.mp he).imp id List.mem_singleton.mp
      rw [isValidVote_future hexist hheight hview hx.synced hhash]
      refine ⟨h.sealerList_eq, h.height_eq, h.highest_eq, h.chain_eq, h.view_eq, h.view_le, h.hash_ne, ?_,
        h.commits, ?_, ?_, h.own_commit⟩
      · change Collected _ _ _ _ (VoteCache.votes (VoteCache.addReq _ _) _)
        rw [hvotes]
        exact h.signs.append { x.req with isFuture := true, signChecked := false } hnew
          hcounted hknown
      · intro e he hev
        rcases hcases e he with hold | rfl
        · exact h.future e hold hev
        · rfl
      · intro e he hev
        rcases hcases e he with hold | rfl
        · exact h.own_sign e hold hev
        · exact hown

def Known (c : Config H S T) (s : Node H S T) (hash : H) (view : Int) (own : S)
    (signers committers : List S) (x : Vote H S T) : Prop :=
  x.Valid c s hash view ∧ x.req.sig ≠ own ∧ x.req.sig ∈ if x.isCommit then committers else signers

theorem sigsOf_cons (isCommit : Bool) (x : Vote H S T) (l : List (Vote H S T)) :
    sigsOf isCommit (x :: l) = (if x.isCommit = isCommit then [x.req.sig] else []) ++ sigsOf isCommit l := by
  unfold sigsOf kindOf
  by_cases h : x.isCommit = isCommit
  · simp [h]
  · simp [h]

theorem Waiting.run {hash : H} {cur : Int} {own : S} (hcfg : s.cfgErr c = false) {l : List (Vote H S T)}
    (hl : ∀ x ∈ l, Known c s hash view own signers committers x) {t : Node H S T}
    (h : Waiting c s hash view cur own signers committers signs commits t.round) :
    Waiting c s hash view cur own signers committers (signs ++ sigsOf false l) (commits ++ sigsOf true l)
      ((engine c).run t (l.map Vote.input)).round := by
  induction l generalizing t signs commits with
  | nil => simpa [sigsOf, kindOf] using h
  | cons x l ih =>
    obtain ⟨hx, hown, hknown⟩ := hl x (List.mem_cons_self ..)
    have hnext := ih (fun y hy => hl y (List.mem_cons_of_mem _ hy)) (h.vote hcfg hx hown hknown)
    rw [List.append_assoc, List.append_assoc] at hnext
    rw [sigsOf_cons, sigsOf_cons]
    exact hnext

/-! ### After the prepare -/

theorem Prepared.addSign {t : Node H S T} {x : Vote H S T}
    (h : Prepared c s b view signers committers signs commits t.round)
    (hx : Known c s (c.crypto.headerHash b.header) view (ownSig c b) signers committers x)
    (hkind : x.isCommit = false)
    (hnew : VoteCache.cacheExists t.cache.signCache x.req = false) :
    Prepared c s b view signers committers (signs ++ [x.req.sig]) commits
        (t.withCache (t.cache.addSignReq x.req)).round ∧
      tally (s.checkSign c) true s.minValidNodes (VoteCache.votes
          (t.withCache (t.cache.addSignReq x.req)).cache.signCache (c.crypto.headerHash b.header)) =
        tally (s.checkSign c) true s.minValidNodes
          (VoteCache.votes t.cache.signCache (c.crypto.headerHash b.header)) + 1 := by
  obtain ⟨hvalid, -, hknown⟩ := hx
  rw [hkind, if_neg Bool.false_ne_true] at hknown
  have hpresent : x.req.isFuture = false := PBFTMsg.isFuture_of_received hvalid.received
  have hnew : x.req.sig ∉
      (VoteCache.votes t.cache.signCache (c.crypto.headerHash b.header)).map Prod.fst := by
    rw [← hvalid.hash_eq, ← VoteCache.cacheExists_iff_mem, hnew]
    exact Bool.false_ne_true
  have hvotes := votes_addReq_own t.cache.signCache x.req hvalid.hash_eq hnew
  have hsigns := h.signs.append x.req hnew ⟨hvalid.view_eq, .inl hpresent⟩ (List.mem_cons_of_mem _ hknown)
  change Collected _ _ _ _ (VoteCache.votes t.cache.signCache _ ++ _) at hsigns
  rw [← hvotes] at hsigns
  refine ⟨⟨h.sealerList_eq, h.height_eq, h.chain_eq, h.view_eq, h.hash_eq, h.prepare_view, h.height_lt, h.block_eq,
    hsigns, h.commits, ?_⟩, ?_⟩
  · change 0 < present (VoteCache.votes (VoteCache.addReq t.cache.signCache x.req) _)
    rw [hvotes, present, List.countP_append]
    simp [hpresent]
  · change tally _ _ _ (VoteCache.votes (VoteCache.addReq t.cache.signCache x.req) _) = _
    rw [hvotes, tally_append_present hpresent]

theorem Prepared.addCommit {t : Node H S T} {x : Vote H S T}
    (h : Prepared c s b view signers committers signs commits t.round)
    (hx : Known c s (c.crypto.headerHash b.header) view (ownSig c b) signers committers x)
    (hkind : x.isCommit = true)
    (hnew : VoteCache.cacheExists t.cache.commitCache x.req = false) :
    Prepared c s b view signers committers signs (commits ++ [x.req.sig])
        (t.withCache (t.cache.addCommitReq x.req)).round ∧
      VoteCache.votes (t.withCache (t.cache.addCommitReq x.req)).cache.commitCache
          (c.crypto.headerHash b.header) =
        VoteCache.votes t.cache.commitCache (c.crypto.headerHash b.header) ++ [(x.req.sig, x.req)] := by
  obtain ⟨hvalid, -, hknown⟩ := hx
  rw [hkind, if_pos rfl] at hknown
  have hpresent : x.req.isFuture = false := PBFTMsg.isFuture_of_received hvalid.received
  have hnew : x.req.sig ∉
      (VoteCache.votes t.cache.commitCache (c.crypto.headerHash b.header)).map Prod.fst := by
    rw [← hvalid.hash_eq, ← VoteCache.cacheExists_iff_mem, hnew]
    exact Bool.false_ne_true
  have hvotes := votes_addReq_own t.cache.commitCache x.req hvalid.hash_eq hnew
  have hcommits := h.commits.append x.req hnew ⟨hvalid.view_eq, .inl hpresent⟩
    (List.mem_cons_of_mem _ hknown)
  change Collected _ _ _ _ (VoteCache.votes t.cache.commitCache _ ++ _) at hcommits
  rw [← hvotes] at hcommits
  exact ⟨⟨h.sealerList_eq, h.height_eq, h.chain_eq, h.view_eq, h.hash_eq, h.prepare_view, h.height_lt, h.block_eq,
    h.signs, hcommits, h.signed⟩, hvotes⟩

theorem Prepared.isValidVote {t : Node H S T} {x : Vote H S T} {cache : VoteCache H S}
    (h : Prepared c s b view signers committers signs commits t.round)
    (hx : x.Valid c s (c.crypto.headerHash b.header) view)
    (hnew : VoteCache.cacheExists cache x.req = false) :
    t.isValidVote c x.env cache x.req = (.VALID, x.req) := by
  have hsealers : t.sealerList = s.sealerList := h.sealerList_eq
  have hheight : x.req.height = t.consensusBlockNumber := hx.height_eq.trans h.height_eq.symm
  have hview : x.req.view = t.view := hx.view_eq.trans h.view_eq.symm
  apply isValidVote_present hnew
  · simp [Node.hasConsensused, hheight, hview]
  · exact hx.synced
  · exact h.hash_eq.trans hx.hash_eq.symm
  · rw [Node.nodeIdx_congr hsealers]
    exact hx.idx_ne
  · exact h.prepare_view.trans hx.view_eq.symm
  · rw [Node.checkSign_congr hsealers]
    exact hx.signed

theorem Progress.sign {t : Node H S T} {x : Vote H S T} (hnodes : s.nodeNum ≠ 0)
    (hnext : NextOn c s.chain b)
    (hx : Known c s (c.crypto.headerHash b.header) view (ownSig c b) signers committers x)
    (hkind : x.isCommit = false)
    (h : Voting c s b view signers committers signs commits t ∨
      Committing c s b view signers committers signs commits t) :
    Progress c s b view signers committers (signs ++ [x.req.sig]) commits
      (t.handleSignMsg c x.env x.req) := by
  have hvalid := hx.1
  have hknown := hx.2.2
  rw [hkind, if_neg Bool.false_ne_true] at hknown
  unfold Node.handleSignMsg
  cases hexist : VoteCache.cacheExists t.cache.signCache x.req with
  | true =>
    rw [isValidVote_again hexist]
    rw [VoteCache.cacheExists_iff_mem, hvalid.hash_eq] at hexist
    have hagain : ∀ {commits'}, Prepared c s b view signers committers signs commits' t.round →
        Prepared c s b view signers committers (signs ++ [x.req.sig]) commits' t.round :=
      fun hp => { hp with signs := hp.signs.again hexist (List.mem_cons_of_mem _ hknown) }
    rcases h with h | h
    · exact .inl { h with prepared := hagain h.prepared }
    · exact .inr (.inl { h with prepared := hagain h.prepared })
  | false =>
    rcases h with h | h
    · obtain ⟨hadded, htally⟩ := h.prepared.addSign hx hkind hexist
      rw [h.prepared.isValidVote hvalid hexist]
      refine hadded.checkAndCommit hnodes hnext hvalid.stores h.silent ?_ h.since
      rw [htally]
      exact h.few
    · obtain ⟨hadded, htally⟩ := h.prepared.addSign hx hkind hexist
      rw [h.prepared.isValidVote hvalid hexist]
      have hover := Nat.lt_succ_of_le h.enough
      rw [← Nat.succ_eq_add_one] at htally
      rw [← htally] at hover
      have hcounted := hadded.checkAndCommit_of_ne (e := x.env) hnodes (ne_of_gt hover)
      refine .inr (.inl ⟨hadded.recounted hcounted, ?_, ?_, ?_, ?_, ?_⟩)
      · rw [present_of_marked hcounted.commits]
        exact h.committed
      · rw [tally_of_marked hcounted.signs (checkSign_signChecked c s)]
        exact le_of_lt hover
      · rw [tally_of_marked hcounted.commits (checkSign_signChecked c s)]
        exact h.few
      · rw [hcounted.trace_eq]
        exact h.sent
      · rw [hcounted.trace_eq]
        exact h.since

theorem Progress.commit {t : Node H S T} {x : Vote H S T} (hnodes : s.nodeNum ≠ 0)
    (hnext : NextOn c s.chain b)
    (hx : Known c s (c.crypto.headerHash b.header) view (ownSig c b) signers committers x)
    (hkind : x.isCommit = true)
    (h : Voting c s b view signers committers signs commits t ∨
      Committing c s b view signers committers signs commits t) :
    Progress c s b view signers committers signs (commits ++ [x.req.sig])
      (t.handleCommitMsg c x.env x.req) := by
  have hvalid := hx.1
  have hown := hx.2.1
  have hknown := hx.2.2
  rw [hkind, if_pos rfl] at hknown
  unfold Node.handleCommitMsg
  cases hexist : VoteCache.cacheExists t.cache.commitCache x.req with
  | true =>
    rw [isValidVote_again hexist]
    rw [VoteCache.cacheExists_iff_mem, hvalid.hash_eq] at hexist
    have hagain : ∀ {commits'}, Prepared c s b view signers committers signs commits' t.round →
        Prepared c s b view signers committers signs (commits' ++ [x.req.sig]) t.round :=
      fun hp => { hp with commits := hp.commits.again hexist (List.mem_cons_of_mem _ hknown) }
    rcases h with h | h
    · exact .inl { h with prepared := hagain h.prepared }
    · exact .inr (.inl { h with prepared := hagain h.prepared })
  | false =>
    have hpresent : x.req.isFuture = false := PBFTMsg.isFuture_of_received hvalid.received
    rcases h with h | h
    · obtain ⟨hadded, hvotes⟩ := h.prepared.addCommit hx hkind hexist
      rw [h.prepared.isValidVote hvalid hexist]
      have hcounted := (hadded.checkAndSave (e := x.env) hnodes hnext hvalid.stores (by
        rw [hvotes, present, List.countP_append]
        simp [hpresent])).2 (.inl h.few)
      refine .inl ⟨hadded.recounted hcounted, ?_, ?_, ?_⟩
      · rw [keys_of_marked hcounted.commits, hvotes, List.map_append, List.mem_append]
        rintro (hold | hlast)
        · exact h.silent hold
        · exact hown (List.mem_singleton.mp hlast).symm
      · rw [tally_of_marked hcounted.signs (checkSign_signChecked c s)]
        exact h.few
      · rw [hcounted.trace_eq]
        exact h.since
    · obtain ⟨hadded, hvotes⟩ := h.prepared.addCommit hx hkind hexist
      rw [h.prepared.isValidVote hvalid hexist]
      refine Prepared.saved (t := t.withCache (t.cache.addCommitReq x.req)) hadded hnodes hnext
        hvalid.stores ?_ h.enough h.sent h.since
      rw [hvotes, present, List.countP_append]
      simp [hpresent]

theorem Progress.vote {t : Node H S T} {x : Vote H S T}
    (h : Progress c s b view signers committers signs commits t) (hnodes : s.nodeNum ≠ 0)
    (hcfg : s.cfgErr c = false) (hnext : NextOn c s.chain b)
    (hx : Known c s (c.crypto.headerHash b.header) view (ownSig c b) signers committers x) :
    Progress c s b view signers committers
      (signs ++ if x.isCommit = false then [x.req.sig] else [])
      (commits ++ if x.isCommit = true then [x.req.sig] else []) ((engine c).step t x.input) := by
  rcases or_assoc.mpr h with h | h
  · have hsealers : t.sealerList = s.sealerList :=
      h.elim (fun hv => hv.prepared.sealerList_eq) fun hc => hc.prepared.sealerList_eq
    rw [step_vote ((Node.cfgErr_congr hsealers).trans hcfg) hx.1.received]
    cases hkind : x.isCommit with
    | true =>
      simp only [if_true, Bool.true_eq_false, if_false, List.append_nil]
      exact Progress.commit hnodes hnext hx hkind h
    | false =>
      simp only [if_true, Bool.false_eq_true, if_false, List.append_nil]
      exact Progress.sign hnodes hnext hx hkind h
  · obtain ⟨⟨r, hr, hreq⟩, b', hb', hblock⟩ := h
    have hsuffix := trace_suffix_step c t x.input
    exact .inr (.inr ⟨⟨r, hr.of_suffix_right hsuffix, hreq⟩, b', hb'.of_suffix_right hsuffix, hblock⟩)

theorem Progress.run (hnodes : s.nodeNum ≠ 0) (hcfg : s.cfgErr c = false)
    (hnext : NextOn c s.chain b) {l : List (Vote H S T)}
    (hl : ∀ x ∈ l, Known c s (c.crypto.headerHash b.header) view (ownSig c b) signers committers x)
    {t : Node H S T} (h : Progress c s b view signers committers signs commits t) :
    Progress c s b view signers committers (signs ++ sigsOf false l) (commits ++ sigsOf true l)
      ((engine c).run t (l.map Vote.input)) := by
  induction l generalizing t signs commits with
  | nil => simpa [sigsOf, kindOf] using h
  | cons x l ih =>
    have hvote := h.vote hnodes hcfg hnext (hl x (List.mem_cons_self ..))
    have hrest := ih (fun y hy => hl y (List.mem_cons_of_mem _ hy)) hvote
    rw [List.append_assoc, List.append_assoc] at hrest
    rw [sigsOf_cons, sigsOf_cons]
    exact hrest

/-- **At the end no phase but the last is left.** -/
theorem Progress.committed {t : Node H S T}
    (h : Progress c s b view signers committers signs commits t)
    (hsigns : (ownSig c b :: signs).Nodup) (hcommits : (ownSig c b :: commits).Nodup)
    (hsignEnough : s.minValidNodes ≤ signs.length + 1)
    (hcommitEnough : s.minValidNodes ≤ commits.length + 1) : CommittedSince c s t view b := by
  rcases h with h | h | h
  · have hcount := le_trans hsignEnough (h.prepared.signs.length_le hsigns)
    exact absurd (le_tally h.prepared.signed hcount) (not_le.mpr h.few)
  · have hcount := le_trans hcommitEnough (h.prepared.commits.length_le hcommits)
    exact absurd (le_tally h.committed hcount) (not_le.mpr h.few)
  · exact h

end Phases

end VotePhases

end HieraChain.PBFT
