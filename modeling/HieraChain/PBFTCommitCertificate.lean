/-
  HieraChain/PBFTCommitCertificate.lean
  =====================================
  **The signature list of a committed block** (`generateAndSetSigList`,
  `checkAndSave`).

  The list is read from the commit cache as it is, while `checkAndSave` counts a
  filtered copy of it.  A commit request that is kept for later without a check
  therefore ends in the list even when it is forged, and two signatures of one
  sealer are two entries.  Where neither is kept, and the cached requests stay
  valid when the sealers change, every list certifies its block to every node
  with the same sealers (`CertInv`).
-/
import HieraChain.PBFTInvariants
import HieraChain.PBFTCheckBlock

set_option linter.unusedSectionVars false

namespace HieraChain.PBFT

section Certificate

variable {H S T : Type}

structure Certified [DecidableEq H] [DecidableEq S] (c : Crypto H S T) (sealerList : List NodeID)
    (b : Block H S T) : Prop where
  valid : ∀ sign ∈ b.sigList, ∃ id, sealerList[sign.1]? = some id ∧
    c.verify id sign.2 (c.headerHash b.header) = true
  distinct : (b.sigList.map Prod.fst).Nodup
  enough : ∀ t : Node H S T, t.sealerList = sealerList → t.minValidNodes ≤ b.sigList.length
  /-- every node with these sealers accepts the list -/
  accepted : ∀ (c' : Config H S T) (t : Node H S T), c'.crypto = c → t.sealerList = sealerList →
    t.checkSigList c' b = true

variable [DecidableEq H] [DecidableEq S]

/-! ### The condition on a step -/

/-- The signature is valid, and is the node's own if it is under its index. -/
def voteOk (c : Config H S T) (s : Node H S T) (hash : H) (idx : Nat) (sig : S) : Bool :=
  s.checkBlockSign c idx hash sig
    && (decide (idx ≠ s.nodeIdx c) || decide (sig = c.crypto.sign c.key hash))

/-- A commit request that is kept is validly signed, and no other one of its
    sealer is kept for the block. -/
def commitReqOk (c : Config H S T) (e : Env T) (s : Node H S T) : Input H S T → Bool
  | .commitReqPacket m => m.received.all fun req =>
    decide ((s.isValidVote c e s.cache.commitCache req).1 = .INVALID)
      || (voteOk c s req.blockHash req.idx req.sig
        && (VoteCache.votes s.cache.commitCache req.blockHash).all
          fun vote => decide (vote.2.idx ≠ req.idx))
  | _ => true

/-- Where the sealers change, the cached commit requests are valid under the new ones. -/
def sealersOk (c : Config H S T) (e : Env T) (s : Node H S T) : Input H S T → Bool
  | .reportBlock _ | .syncBlock _ | .resetConfig =>
    decide ((s.resetConfig e).sealerList = s.sealerList)
      || s.cache.commitCache.entries.all fun votes => votes.2.entries.all
        fun vote => voteOk c (s.resetConfig e) votes.1 vote.2.idx vote.1
  | _ => true

/-- There is a sealer, and the index of the node, if it has one, is that of its key. -/
def ownIndexOk (c : Config H S T) (s : Node H S T) : Bool :=
  decide (0 < s.nodeNum)
    && (s.cfgErr c || decide (s.getNodeIDByIndex (s.nodeIdx c) = some c.key))

def CertOk (c : Config H S T) (s : Node H S T) (i : Env T × Input H S T) : Prop :=
  ownIndexOk c s = true ∧ commitReqOk c i.1 s i.2 = true ∧ sealersOk c i.1 s i.2 = true

instance (c : Config H S T) (s : Node H S T) (i : Env T × Input H S T) :
    Decidable (CertOk c s i) := inferInstanceAs (Decidable (_ ∧ _))

/-! ### Reading the sealer list -/

variable {c : Config H S T} {e : Env T} {i : Input H S T} {s₀ s s' : Node H S T}

theorem voteOk_congr (h : s.sealerList = s'.sealerList) (hash : H) (idx : Nat) (sig : S) :
    voteOk c s hash idx sig = voteOk c s' hash idx sig := by
  unfold voteOk Node.checkBlockSign Node.getNodeIDByIndex Node.nodeIdx
  rw [h]

theorem ownIndexOk_congr (h : s.sealerList = s'.sealerList) : ownIndexOk c s = ownIndexOk c s' := by
  unfold ownIndexOk Node.nodeNum Node.cfgErr Node.getNodeIDByIndex Node.nodeIdx
  rw [h]

theorem minValidNodes_congr (h : s.sealerList = s'.sealerList) :
    s.minValidNodes = s'.minValidNodes := by
  unfold Node.minValidNodes Node.f Node.nodeNum
  rw [h]

theorem minValidNodes_pos (h : ownIndexOk c s = true) : 0 < s.minValidNodes := by
  unfold ownIndexOk at h
  simp only [Bool.and_eq_true, decide_eq_true_eq] at h
  have hnum := h.1
  unfold Node.minValidNodes Node.f
  omega

theorem voteOk_own (hverify : ∀ key hash, c.crypto.verify key (c.crypto.sign key hash) hash = true)
    (hown : ownIndexOk c s = true) (hcfg : s.cfgErr c = false) (hash : H) :
    voteOk c s hash (s.nodeIdx c) (c.crypto.sign c.key hash) = true := by
  unfold ownIndexOk at hown
  simp only [hcfg, Bool.false_or, Bool.and_eq_true, decide_eq_true_eq] at hown
  unfold voteOk Node.checkBlockSign
  rw [hown.2]
  simp [hverify]

theorem exists_sealer_of_voteOk {hash : H} {idx : Nat} {sig : S} (h : voteOk c s hash idx sig = true) :
    ∃ id, s.sealerList[idx]? = some id ∧ c.crypto.verify id sig hash = true := by
  unfold voteOk Node.checkBlockSign at h
  rw [Bool.and_eq_true] at h
  cases hid : s.getNodeIDByIndex idx with
  | none =>
    rw [hid] at h
    cases h.1
  | some id =>
    rw [hid] at h
    exact ⟨id, Node.getElem?_of_getNodeIDByIndex hid, h.1⟩

/-! ### The invariant -/

structure CertInv [Zero H] (c : Config H S T) (s : Node H S T) : Prop extends NodeInv c s where
  valid : ∀ hash sig req, (sig, req) ∈ VoteCache.votes s.cache.commitCache hash →
    req.idx < 65536 ∧ voteOk c s hash req.idx sig = true
  /-- a sealer has one request under a hash -/
  one_each : ∀ hash sig req sig' req', (sig, req) ∈ VoteCache.votes s.cache.commitCache hash →
    (sig', req') ∈ VoteCache.votes s.cache.commitCache hash → req.idx = req'.idx → sig = sig'
  certified : ∀ sealerList b ok, .commitBlock sealerList b ok ∈ s.trace →
    Certified c.crypto sealerList b

def VotesIn (cache cache' : VoteCache H S) : Prop :=
  ∀ hash sig req, (sig, req) ∈ VoteCache.votes cache hash →
    ∃ req', (sig, req') ∈ VoteCache.votes cache' hash ∧ req'.idx = req.idx

namespace CertInv

variable [Zero H]

def NoCommit : Event H S T → Prop
  | .commitBlock .. => False
  | _ => True

theorem refl_votesIn (cache : VoteCache H S) : VotesIn cache cache :=
  fun _ _ req h => ⟨req, h, rfl⟩

theorem votesIn_delCache (q : ReqCache H S T) (hash : H) :
    VotesIn (q.delCache hash).commitCache q.commitCache :=
  fun _ _ req h => ⟨req, (VoteCache.mem_votes_erase.mp h).2, rfl⟩

theorem votesIn_getCommitCacheSize (q : ReqCache H S T) (checkSign : PBFTMsg H S → Bool) (hash : H)
    (size : Nat) : VotesIn (q.getCommitCacheSize checkSign hash size).1.commitCache q.commitCache := by
  intro hash' sig req h
  rcases mem_votes_getCacheSize h with hold | ⟨req', hold, -, heq⟩
  · exact ⟨req, hold, rfl⟩
  · refine ⟨req', hold, ?_⟩
    dsimp only at heq
    rw [heq]

theorem frame (h : CertInv c s) (hnode : NodeInv c s') (hsealers : s'.sealerList = s.sealerList)
    (hvotes : VotesIn s'.cache.commitCache s.cache.commitCache)
    (htrace : ∀ sealerList b ok, .commitBlock sealerList b ok ∈ s'.trace →
      .commitBlock sealerList b ok ∈ s.trace) : CertInv c s' := by
  refine ⟨hnode, ?_, ?_, fun sealerList b ok hev => h.certified _ _ _ (htrace _ _ _ hev)⟩
  · intro hash sig req hreq
    obtain ⟨req', hreq', hidx⟩ := hvotes _ _ _ hreq
    rw [voteOk_congr hsealers, ← hidx]
    exact h.valid hash sig req' hreq'
  · intro hash sig req sig' req' hreq hreq' hidx
    obtain ⟨r, hr, hridx⟩ := hvotes _ _ _ hreq
    obtain ⟨r', hr', hridx'⟩ := hvotes _ _ _ hreq'
    exact h.one_each hash sig r sig' r' hr hr' (by rw [hridx, hridx', hidx])

theorem mem_of_mem_cons {ev : Event H S T} {trace : List (Event H S T)} {sealerList : List NodeID}
    {b : Block H S T} {ok : Bool} (h : .commitBlock sealerList b ok ∈ ev :: trace)
    (hev : NoCommit ev) : .commitBlock sealerList b ok ∈ trace := by
  rcases List.mem_cons.mp h with heq | hold
  · rw [← heq] at hev
    exact absurd hev id
  · exact hold

theorem add (h : CertInv c s) (hnode : NodeInv c s') (hsealers : s'.sealerList = s.sealerList)
    {req : PBFTMsg H S} (hcache : s'.cache.commitCache = VoteCache.addReq s.cache.commitCache req)
    (htrace : ∀ sealerList b ok, .commitBlock sealerList b ok ∈ s'.trace →
      .commitBlock sealerList b ok ∈ s.trace)
    (hidx : req.idx < 65536) (hvalid : voteOk c s req.blockHash req.idx req.sig = true)
    (hother : ∀ sig r, (sig, r) ∈ VoteCache.votes s.cache.commitCache req.blockHash →
      r.idx = req.idx → sig = req.sig) : CertInv c s' := by
  refine ⟨hnode, ?_, ?_, fun sealerList b ok hev => h.certified _ _ _ (htrace _ _ _ hev)⟩
  · intro hash sig r hr
    rw [voteOk_congr hsealers]
    rw [hcache, VoteCache.mem_votes_addReq] at hr
    rcases hr with hold | ⟨-, rfl, heq⟩
    · exact h.valid hash sig r hold
    · cases heq
      exact ⟨hidx, hvalid⟩
  · intro hash sig r sig' r' hr hr' heq
    rw [hcache, VoteCache.mem_votes_addReq] at hr hr'
    rcases hr with hold | ⟨-, rfl, hnew⟩
    · rcases hr' with hold' | ⟨-, rfl, hnew'⟩
      · exact h.one_each hash sig r sig' r' hold hold' heq
      · cases hnew'
        exact hother sig r hold heq
    · cases hnew
      rcases hr' with hold' | ⟨-, -, hnew'⟩
      · exact (hother sig' r' hold' heq.symm).symm
      · cases hnew'
        rfl

theorem reset (h : CertInv c s₀) (hi : i = .resetConfig ∨ (∃ n, i = .reportBlock n) ∨ ∃ b, i = .syncBlock b)
    (hok : CertOk c s₀ (e, i)) (hnode : NodeInv c s')
    (hsealers : s'.sealerList = (s₀.resetConfig e).sealerList)
    (hvotes : VotesIn s'.cache.commitCache s₀.cache.commitCache)
    (htrace : ∀ sealerList b ok, .commitBlock sealerList b ok ∈ s'.trace →
      .commitBlock sealerList b ok ∈ s₀.trace) : CertInv c s' := by
  have hnew := hok.2.2
  have hnew : decide ((s₀.resetConfig e).sealerList = s₀.sealerList) = true ∨
      (s₀.cache.commitCache.entries.all fun votes => votes.2.entries.all
        fun vote => voteOk c (s₀.resetConfig e) votes.1 vote.2.idx vote.1) = true := by
    rw [← Bool.or_eq_true]
    rcases hi with rfl | ⟨n, rfl⟩ | ⟨b, rfl⟩
    · exact hnew
    · exact hnew
    · exact hnew
  rcases hnew with hsame | hall
  · exact h.frame hnode (hsealers.trans (of_decide_eq_true hsame)) hvotes htrace
  · refine ⟨hnode, ?_, ?_, fun sealerList b ok hev => h.certified _ _ _ (htrace _ _ _ hev)⟩
    · intro hash sig req hreq
      obtain ⟨req', hreq', hidx⟩ := hvotes _ _ _ hreq
      refine ⟨hidx ▸ (h.valid hash sig req' hreq').1, ?_⟩
      obtain ⟨m, hm, hmem⟩ := VoteCache.mem_votes.mp hreq'
      rw [List.all_eq_true] at hall
      have hvotes := hall (hash, m) (AssocMap.mem_entries_iff.mpr hm)
      rw [List.all_eq_true] at hvotes
      rw [voteOk_congr hsealers, ← hidx]
      exact hvotes (sig, req') hmem
    · intro hash sig req sig' req' hreq hreq' hidx
      obtain ⟨r, hr, hridx⟩ := hvotes _ _ _ hreq
      obtain ⟨r', hr', hridx'⟩ := hvotes _ _ _ hreq'
      exact h.one_each hash sig r sig' r' hr hr' (by rw [hridx, hridx', hidx])

theorem certified_of_generateSigList (h : CertInv c s) {b : Block H S T} {sigList : SigListType S}
    (hhash : s.cache.prepareCache.blockHash = c.crypto.headerHash b.header)
    (hlist : s.cache.generateSigList s.minValidNodes = some sigList) :
    Certified c.crypto s.sealerList { b with sigList } := by
  unfold ReqCache.generateSigList at hlist
  obtain ⟨m, hm, hlist⟩ := Option.bind_eq_some_iff.mp hlist
  split_ifs at hlist with hfew
  cases hlist
  have hmem : ∀ vote ∈ m.entries,
      vote ∈ VoteCache.votes s.cache.commitCache s.cache.prepareCache.blockHash :=
    fun vote hvote => VoteCache.mem_votes.mpr ⟨m, hm, hvote⟩
  have henough : s.minValidNodes ≤ (m.entries.map fun vote => (vote.2.idx, vote.1)).length := by
    rw [List.length_map]
    exact not_lt.mp hfew
  have hvalid : ∀ sign ∈ m.entries.map fun vote => (vote.2.idx, vote.1), sign.1 < 65536 ∧
      voteOk c s (c.crypto.headerHash b.header) sign.1 sign.2 = true := by
    intro sign hsign
    obtain ⟨⟨sig, req⟩, hvote, rfl⟩ := List.mem_map.mp hsign
    rw [← hhash]
    exact h.valid _ _ _ (hmem _ hvote)
  refine ⟨fun sign hsign => exists_sealer_of_voteOk (hvalid sign hsign).2, ?_, ?_, ?_⟩
  · rw [List.map_map, List.nodup_iff_pairwise_ne, List.pairwise_map]
    have hkeys := m.nodup
    rw [List.nodup_iff_pairwise_ne, List.pairwise_map] at hkeys
    refine hkeys.imp_of_mem ?_
    rintro ⟨sig, req⟩ ⟨sig', req'⟩ hvote hvote' hne hidx
    exact hne (h.one_each _ _ _ _ _ (hmem _ hvote) (hmem _ hvote') hidx)
  · intro t ht
    rw [minValidNodes_congr ht]
    exact henough
  · intro c' t hc ht
    unfold Node.checkSigList
    rw [minValidNodes_congr ht, Bool.and_eq_true]
    refine ⟨decide_eq_true henough, ?_⟩
    rw [List.all_eq_true]
    intro sign hsign
    obtain ⟨hidx, hvote⟩ := hvalid sign hsign
    rw [Nat.mod_eq_of_lt hidx]
    unfold voteOk at hvote
    rw [Bool.and_eq_true] at hvote
    rw [← hvote.1]
    unfold Node.checkBlockSign Node.getNodeIDByIndex
    rw [hc, ht]

/-- **What a small step preserves.** -/
theorem smallStep (hverify : ∀ key hash, c.crypto.verify key (c.crypto.sign key hash) hash = true)
    (hok : CertOk c s₀ (e, i)) (hstep : SmallStep c e i s₀ s s') (h : CertInv c s) :
    CertInv c s' := by
  have hnode := NodeInv.smallStep hstep h.toNodeInv
  cases hstep with
  | pending _ future raw same pfuture hfuture hraw hpfuture =>
    exact h.frame hnode rfl (refl_votesIn _) fun _ _ _ hev => hev
  | note _ ev hev =>
    refine h.frame hnode rfl (refl_votesIn _) fun _ _ _ hmem => mem_of_mem_cons hmem ?_
    cases ev <;> trivial
  | takeRaw _ req htaken => exact h.frame hnode rfl (refl_votesIn _) fun _ _ _ hev => hev
  | transRaw _ req p block htaken hi hprepare hfail =>
    exact h.frame hnode rfl (refl_votesIn _) fun _ _ _ hev => hev
  | sign _ req b htaken hexec =>
    refine h.frame hnode rfl ?_ fun _ _ _ hmem => mem_of_mem_cons hmem trivial
    exact fun _ _ r hr => ⟨r, (VoteCache.mem_votes_removeInvalid.mp hr).1, rfl⟩
  | countSigns _ => exact h.frame hnode rfl (refl_votesIn _) fun _ _ _ hev => hev
  | countCommits _ =>
    exact h.frame hnode rfl (votesIn_getCommitCacheSize _ _ _ _) fun _ _ _ hev => hev
  | lock _ hsame hcfg hview hcause =>
    have hown : voteOk c s s.cache.prepareCache.blockHash (s.nodeIdx c)
        (c.crypto.sign c.key s.cache.prepareCache.blockHash) = true := by
      have hcfg : s.cfgErr c = false := by
        rw [← hcfg]
        unfold Node.cfgErr Node.nodeIdx
        rw [hsame.sealerList_eq]
      exact voteOk_own hverify ((ownIndexOk_congr hsame.sealerList_eq).trans hok.1) hcfg _
    refine h.add hnode rfl rfl ?_ ?_ hown ?_
    · exact fun _ _ _ hmem => mem_of_mem_cons (mem_of_mem_cons hmem trivial) trivial
    · change s.nodeIdx c < 65536
      unfold Node.nodeIdx
      cases s.sealerList.findIdx? fun id => decide (id = c.key) with
      | none => exact Nat.lt_succ_self 65535
      | some k => exact Nat.mod_lt _ (Nat.succ_pos _)
    · intro sig r hr hidx
      change r.idx = s.nodeIdx c at hidx
      change (sig, r) ∈ VoteCache.votes s.cache.commitCache s.cache.prepareCache.blockHash at hr
      change sig = c.crypto.sign c.key s.cache.prepareCache.blockHash
      have hvalid := (h.valid _ sig r hr).2
      unfold voteOk at hvalid
      rw [hidx, Bool.and_eq_true] at hvalid
      simpa using hvalid.2
  | save _ b b' hsame hview hheight hblock hlist hcount =>
    have hlive : s.cache.prepareCache.height ≠ -1 := by
      have hnonneg := h.highest_nonneg
      omega
    obtain ⟨b₁, hb₁, hhash⟩ := h.prepared.resolve_left hlive
    rw [hblock] at hb₁
    cases hb₁
    have hcert : Certified c.crypto s.sealerList b' := by
      rcases hlist with ⟨sigList, hlist, rfl⟩ | ⟨hzero, -⟩
      · exact h.certified_of_generateSigList hhash hlist
      · have hpos := minValidNodes_pos ((ownIndexOk_congr hsame.sealerList_eq).trans hok.1)
        exact absurd hzero (ne_of_gt hpos)
    have hcertified : ∀ stored sealerList b ok,
        .commitBlock sealerList b ok ∈ .commitBlock s.sealerList b' stored :: s.trace →
          Certified c.crypto sealerList b := by
      intro stored sealerList b ok hev
      rcases List.mem_cons.mp hev with heq | hold
      · cases heq
        exact hcert
      · exact h.certified _ _ _ hold
    rcases Node.saveBlock_cases c e s b' with ⟨hnumber, heq⟩ | heq
    · rw [heq] at hnode ⊢
      have hframe : CertInv c { s with cache := s.cache.delCache (c.crypto.headerHash b'.header) } :=
        h.frame (h.toNodeInv.frame rfl rfl rfl (NodeInv.prepareCache_delCache _ _)) rfl
          (votesIn_delCache _ _) fun _ _ _ hev => hev
      exact ⟨hnode, hframe.valid, hframe.one_each, hcertified true⟩
    · rw [heq] at hnode ⊢
      exact ⟨hnode, h.valid, h.one_each, hcertified false⟩
  | addSign _ m => exact h.frame hnode rfl (refl_votesIn _) fun _ _ _ hev => hev
  | addCommit m req req' hi hreq hcheck =>
    obtain ⟨res, hres, hkept⟩ := hcheck
    have hvote := hok.2.1
    rw [hi] at hvote
    unfold commitReqOk at hvote
    dsimp only at hvote
    rw [hreq, Option.all_some, hres, decide_eq_false hkept, Bool.false_or, Bool.and_eq_true,
      List.all_eq_true] at hvote
    obtain ⟨hvalid, hother⟩ := hvote
    have hidx : req.idx < 65536 := PBFTMsg.idx_lt_of_received hreq
    have hmarks : req'.idx = req.idx ∧ req'.sig = req.sig ∧ req'.blockHash = req.blockHash := by
      rcases (SmallSteps.isValidVote_kept hres hkept).2 with ⟨rfl, -⟩ | rfl
      · exact ⟨rfl, rfl, rfl⟩
      · exact ⟨rfl, rfl, rfl⟩
    obtain ⟨hidx', hsig, hhash⟩ := hmarks
    refine h.add hnode rfl rfl (fun _ _ _ hev => hev) (hidx' ▸ hidx) ?_ ?_
    · rw [hidx', hsig, hhash]
      exact hvalid
    · intro sig r hr heq
      rw [hhash] at hr
      exact absurd (heq.trans hidx') (of_decide_eq_true (hother (sig, r) hr))
  | dropViewChanges _ q hdrops =>
    obtain ⟨recv, latest, -, rfl⟩ := hdrops
    exact h.frame hnode rfl (refl_votesIn _) fun _ _ _ hev => hev
  | insertViewChange _ req horigin hheight =>
    exact h.frame hnode rfl (refl_votesIn _) fun _ _ _ hev => hev
  | moveToView _ v failed hmove => exact h.frame hnode rfl (refl_votesIn _) fun _ _ _ hev => hev
  | enterView _ v hsealers hhighest hsize hview =>
    unfold Node.checkAndChangeView at hnode ⊢
    rw [if_pos hsize] at hnode ⊢
    refine h.frame hnode rfl ?_ fun _ _ _ hmem => mem_of_mem_cons hmem trivial
    exact fun _ _ r hr => ⟨r, (VoteCache.mem_votes_removeExpired.mp hr).1, rfl⟩
  | report number b hi hblock =>
    rcases Node.reportBlockWithoutLock_cases c e s₀ b with heq | ⟨-, -, heq⟩ | ⟨-, -, heq⟩
    · rw [heq]
      exact h
    · rw [heq] at hnode ⊢
      exact h.reset (.inr (.inl ⟨number, hi⟩)) hok hnode rfl (votesIn_delCache _ _)
        fun _ _ _ hmem => mem_of_mem_cons hmem trivial
    · rw [heq] at hnode ⊢
      exact h.reset (.inr (.inl ⟨number, hi⟩)) hok hnode rfl (votesIn_delCache _ _)
        fun _ _ _ hmem => mem_of_mem_cons hmem trivial
  | collectGarbage hi =>
    refine h.frame hnode rfl ?_ fun _ _ _ hev => hev
    exact fun _ _ r hr => ⟨r, VoteCache.mem_votes_of_removeInvalidEntry hr, rfl⟩
  | resetConfig hi =>
    refine h.reset ?_ hok hnode rfl (refl_votesIn _) fun _ _ _ hev => hev
    rcases hi with hi | hi
    · exact .inl hi
    · exact .inr (.inr hi)
  | storeSynced _ b chain hi hchain => exact h.frame hnode rfl (refl_votesIn _) fun _ _ _ hev => hev

theorem started (hs : Started s) : CertInv c s := by
  have hnode : NodeInv c s := NodeInv.started hs
  obtain ⟨e, noSig, backup, chain, last, hnumbered, hlast, rfl⟩ := hs
  have hnone : ∀ hash vote, vote ∉ VoteCache.votes (.empty : VoteCache H S) hash := by
    intro hash vote hvote
    obtain ⟨m, hm, -⟩ := VoteCache.mem_votes.mp hvote
    cases hm
  refine ⟨hnode, ?_, ?_, ?_⟩
  · exact fun hash sig req hreq => absurd hreq (hnone hash _)
  · exact fun hash sig req sig' req' hreq => absurd hreq (hnone hash _)
  · exact fun sealerList b ok hev => absurd hev List.not_mem_nil

theorem run (hverify : ∀ key hash, c.crypto.verify key (c.crypto.sign key hash) hash = true)
    {is : List (Env T × Input H S T)} (h : CertInv c s) (hrun : (engine c).RunOk (CertOk c) s is) :
    CertInv c ((engine c).run s is) := by
  refine (engine c).run_invariant ?_ h hrun
  rintro s₀ ⟨e, i⟩ hinv hok
  exact (engine_madeOf c).step_invariant (fun t u hstep => smallStep hverify hok hstep) hinv

end CertInv

/-- **Commit certificates.**  Every block that a node hands to `commitBlock` has
    a signature list that certifies it to the sealers of that moment. -/
theorem commit_certified (c : Config H S T) [Zero H] {s : Node H S T} (hs : Started s)
    (hverify : ∀ key hash, c.crypto.verify key (c.crypto.sign key hash) hash = true)
    {is : List (Env T × Input H S T)} (hrun : (engine c).RunOk (CertOk c) s is)
    {sealerList : List NodeID} {b : Block H S T} {ok : Bool}
    (hcommit : .commitBlock sealerList b ok ∈ ((engine c).run s is).trace) :
    Certified c.crypto sealerList b :=
  (CertInv.run hverify (CertInv.started hs) hrun).certified sealerList b ok hcommit

end Certificate

/-- Inputs after which the fourth sealer commits a first block; the given commit
    request comes before the prepare request. -/
def commitFirst (early : PBFTMsg Term Term) : List (Env Nat × Input Term Term Nat) :=
  quietly (.commitReqPacket early :: fullRound (blockOn genesis 7 [5]))

theorem commit_certified_early :
    Certified symbolicCrypto [1, 2, 3, 4] (firstBlockWith [entryOf 2, entryOf 3, entryOf 0]) := by
  have hrun : (engine (sealerConfig 4)).RunOk (CertOk (sealerConfig 4)) startNode
      (commitFirst (requestFor 2 0 (blockOn genesis 7 [5]))) := by
    decide +kernel
  have hcommit : .commitBlock [1, 2, 3, 4] (firstBlockWith [entryOf 2, entryOf 3, entryOf 0]) true ∈
      ((engine (sealerConfig 4)).run startNode
        (commitFirst (requestFor 2 0 (blockOn genesis 7 [5])))).trace := by
    decide +kernel
  exact commit_certified (sealerConfig 4) startNode_started symbolicCrypto_verify_sign hrun hcommit

/-- A forged early request of the third sealer ends in the signature list, and no
    other node accepts the block. -/
theorem commit_certified_broken_by_forged :
    let forged := { requestFor 2 0 (blockOn genesis 7 [5]) with sig := 0 }
    let b := firstBlockWith [(2, 0), entryOf 3, entryOf 0, entryOf 1]
    .commitBlock [1, 2, 3, 4] b true ∈
        ((engine (sealerConfig 4)).run startNode (commitFirst forged)).trace ∧
      ¬Certified symbolicCrypto [1, 2, 3, 4] b ∧
      startNode.checkSigList (sealerConfig 1) b = false := by
  have hrejected : startNode.checkSigList (sealerConfig 1)
      (firstBlockWith [(2, 0), entryOf 3, entryOf 0, entryOf 1]) = false := by
    decide +kernel
  refine ⟨by decide +kernel, ?_, hrejected⟩
  intro hcert
  have haccepted := hcert.accepted (sealerConfig 1) startNode rfl rfl
  rw [hrejected] at haccepted
  cases haccepted

end HieraChain.PBFT
