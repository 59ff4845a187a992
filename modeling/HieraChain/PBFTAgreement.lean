/-
  HieraChain/PBFTAgreement.lean
  =============================
  **Agreement of a committee of PBFT nodes.**

  A committee runs one engine per sealer, one input at a time; the adversary
  chooses the inputs.  Two blocks of one height are committed with two quorums
  of commit requests.  The quorums share an honest sealer, which sent commit
  requests for both, so it locked both at that height, and a lock at a height
  has one hash (`LockInv.unique`).

  Each step of this argument is a condition on the inputs where the code does
  not ensure it: that a commit request naming an honest sealer was sent as one
  (the signature covers the block hash, which sign requests sign too), that a
  sealer counts once, that a proposal names its block, that the mark of an empty
  block is not abused, and that a raw prepare is replaced together with the
  prepare cache.

  A signature list that names a quorum is as good as a commit (`synced_agreement`).
-/
import HieraChain.PBFTPrepareLock
import HieraChain.PBFTInvariants
import HieraChain.PBFTCheckBlock
import HieraChain.Quorum

set_option linter.unusedSectionVars false

namespace HieraChain.PBFT

section Agreement

variable {H S T : Type}

/-- The sealers of a chain with a fixed sealer list, some of them Byzantine. -/
structure Committee (H S T : Type) where
  config : NodeID → Config H S T
  crypto : Crypto H S T
  config_key : ∀ id, (config id).key = id
  config_crypto : ∀ id, (config id).crypto = crypto
  sealers : List NodeID
  nodup : sealers.Nodup
  nonzero : 0 ∉ sealers
  length_lt : sealers.length < 65536
  byzantine : Finset NodeID
  few : byzantine.card ≤ (sealers.length - 1) / 3

namespace Committee

variable (m : Committee H S T)

def Honest (id : NodeID) : Prop := id ∈ m.sealers ∧ id ∉ m.byzantine

instance (id : NodeID) : Decidable (m.Honest id) := inferInstanceAs (Decidable (_ ∧ _))

variable [DecidableEq H] [DecidableEq S]

/-- The sealers as one machine; an input goes to the sealer that it names. -/
def cluster [Zero H] : Machine (NodeID → Node H S T) (NodeID × (Env T × Input H S T)) :=
  Machine.cluster fun id => engine (m.config id)

end Committee

variable [DecidableEq H] [DecidableEq S]

/-! ### The conditions on a step -/

def sentCommit (s : Node H S T) (hash : H) (sig : S) : Bool :=
  s.trace.any fun
    | .commit r => decide (r.blockHash = hash) && decide (r.sig = sig)
    | _ => false

variable [Zero H]

/-- A proposal that is taken and executed carries the hash and the number of its block. -/
def namesBlockOk (c : Config H S T) (e : Env T) (s : Node H S T) (i : Input H S T) : Bool :=
  (s.takenPrepare c e i).all fun req => (s.executed c e req).all fun b =>
    decide (req.blockHash = c.crypto.headerHash b.header) && decide (req.height = b.header.number)

/-- A short proposal that is complete when it is taken is also executed, or the
    prepare cache is out of use. -/
def shortOk (c : Config H S T) (e : Env T) (s : Node H S T) (i : Input H S T) : Bool :=
  match i with
  | .partiallyPreparePacket _ _ => (s.takenPrepare c e i).all fun req =>
    decide (s.cache.prepareCache.height = -1)
      || ((s.executed c e req).isSome && req.pBlock.all fun b => (b.encode c.crypto).isSome)
  | _ => true

namespace Committee

variable (m : Committee H S T)

/-- A commit request that is kept and verifies was sent by its sealer as a commit
    request, if the sealer is honest, and no other one of the sealer is kept for
    the block. -/
def commitOk (t : NodeID → Node H S T) (c : Config H S T) (e : Env T) (s : Node H S T) :
    Input H S T → Bool
  | .commitReqPacket p => p.received.all fun req =>
    decide ((s.isValidVote c e s.cache.commitCache req).1 = .INVALID) || !s.checkSign c req
      || ((m.sealers[req.idx]?.all fun id =>
            decide (id ∈ m.byzantine) || sentCommit (t id) req.blockHash req.sig)
        && (VoteCache.votes s.cache.commitCache req.blockHash).all
          fun vote => decide (vote.2.idx ≠ req.idx) || !s.checkSign c vote.2)
  | _ => true

/-- The condition on a step of an honest sealer under which the committee agrees. -/
def StepOk (t : NodeID → Node H S T) (c : Config H S T) (s : Node H S T)
    (i : Env T × Input H S T) : Prop :=
  i.1.sealers.1.insertionSort (· ≤ ·) = m.sealers ∧ LockOk c s i ∧
    namesBlockOk c i.1 s i.2 = true ∧ shortOk c i.1 s i.2 = true ∧
    m.commitOk t c i.1 s i.2 = true

instance (t : NodeID → Node H S T) (c : Config H S T) (s : Node H S T) (i : Env T × Input H S T) :
    Decidable (m.StepOk t c s i) := inferInstanceAs (Decidable (_ ∧ _))

def AgreeOk (t : NodeID → Node H S T) (i : NodeID × (Env T × Input H S T)) : Prop :=
  m.Honest i.1 → m.StepOk t (m.config i.1) (t i.1) i.2

instance (t : NodeID → Node H S T) (i : NodeID × (Env T × Input H S T)) :
    Decidable (m.AgreeOk t i) := inferInstanceAs (Decidable (_ → _))

/-- Honest sealers that committed blocks of one number committed one block. -/
def Agreement (t : NodeID → Node H S T) : Prop :=
  ∀ id id', m.Honest id → m.Honest id' → ∀ sealerList b ok sealerList' b' ok',
    .commitBlock sealerList b ok ∈ (t id).trace → .commitBlock sealerList' b' ok' ∈ (t id').trace →
    b.header.number = b'.header.number →
    m.crypto.headerHash b.header = m.crypto.headerHash b'.header

end Committee

/-! ### The invariant of one sealer -/

/-- Who sent commit requests: by a fixed account, or the node itself as its trace says. -/
def SentBy (Sent : NodeID → H → S → Prop) (key : NodeID) (s : Node H S T) (id : NodeID) (hash : H)
    (sig : S) : Prop :=
  Sent id hash sig ∨
    (id = key ∧ ∃ r, .commit r ∈ s.trace ∧ r.blockHash = hash ∧ r.sig = sig)

structure GenuineVote (m : Committee H S T) (Sent : NodeID → H → S → Prop) (c : Config H S T)
    (s : Node H S T) (hash : H) (sig : S) (r : PBFTMsg H S) : Prop where
  sig_eq : r.sig = sig
  hash_eq : r.blockHash = hash
  checked : counts r = true → s.checkSign c r = true
  /-- a verified request of an honest sealer was sent by it -/
  sent : s.checkSign c r = true → ∀ id, m.sealers[r.idx]? = some id → id ∉ m.byzantine →
    SentBy Sent c.key s id hash sig

/-- A quorum of sealers sent commit requests for the hash, as far as they are honest. -/
def CommitQuorum (m : Committee H S T) (Sent : NodeID → H → S → Prop) (c : Config H S T)
    (s : Node H S T) (hash : H) : Prop :=
  ∃ Q : Finset Nat, Q ⊆ Finset.range m.sealers.length ∧
    m.sealers.length - (m.sealers.length - 1) / 3 ≤ Q.card ∧
    ∀ n ∈ Q, ∀ id, m.sealers[n]? = some id → id ∉ m.byzantine →
      ∃ sig, SentBy Sent c.key s id hash sig

/-- While the prepare cache is in use, it and the raw prepare name one block. -/
def Linked (c : Config H S T) (q : ReqCache H S T) : Prop :=
  q.prepareCache.height ≠ -1 → ∃ header : BlockHeader H,
    q.prepareCache.blockHash = c.crypto.headerHash header ∧
    q.rawPrepareCache.blockHash = q.prepareCache.blockHash ∧
    q.rawPrepareCache.height = header.number

structure MemberInv (m : Committee H S T) (Sent : NodeID → H → S → Prop) (c : Config H S T)
    (s : Node H S T) : Prop extends NodeInv c s where
  sealers_eq : s.sealerList = m.sealers
  linked : Linked c s.cache
  /-- a commit request is for a lock and carries the node's own signature -/
  commits : ∀ r, .commit r ∈ s.trace → r.sig = c.crypto.sign c.key r.blockHash ∧
    ∃ raw header, .locked raw ∈ s.trace ∧ r.blockHash = c.crypto.headerHash header ∧
      raw.blockHash = r.blockHash ∧ raw.height = header.number
  genuine : ∀ hash sig r, (sig, r) ∈ VoteCache.votes s.cache.commitCache hash →
    GenuineVote m Sent c s hash sig r
  /-- a sealer has one verified request under a hash -/
  one_each : ∀ hash sig r sig' r', (sig, r) ∈ VoteCache.votes s.cache.commitCache hash →
    (sig', r') ∈ VoteCache.votes s.cache.commitCache hash → s.checkSign c r = true →
    s.checkSign c r' = true → r.idx = r'.idx → sig = sig'
  saved : ∀ sealerList b ok, .commitBlock sealerList b ok ∈ s.trace →
    CommitQuorum m Sent c s (c.crypto.headerHash b.header)

variable {m : Committee H S T} {Sent Sent' : NodeID → H → S → Prop} {c : Config H S T} {e : Env T}
  {i : Input H S T} {s₀ s s' : Node H S T}

theorem checkSign_congr (h : s.sealerList = s'.sealerList) (r : PBFTMsg H S) :
    s.checkSign c r = s'.checkSign c r := by
  unfold Node.checkSign Node.getNodeIDByIndex
  rw [h]

theorem Linked.of_dead {q : ReqCache H S T} (h : q.prepareCache.height = -1) : Linked c q :=
  fun hlive => absurd h hlive

theorem Linked.congr {q q' : ReqCache H S T} (h : Linked c q)
    (hprepare : q'.prepareCache = q.prepareCache) (hraw : q'.rawPrepareCache = q.rawPrepareCache) :
    Linked c q' := by
  unfold Linked
  rw [hprepare, hraw]
  exact h

theorem Linked.delCache {q : ReqCache H S T} (h : Linked c q) (hash : H) :
    Linked c (q.delCache hash) := by
  rcases NodeInv.prepareCache_delCache q hash with hp | hp
  · exact h.congr hp rfl
  · exact .of_dead (congrArg (fun p => p.height) hp)

theorem SentBy.mono {id : NodeID} {hash : H} {sig : S}
    (h : SentBy Sent c.key s id hash sig) (hsent : ∀ id hash sig, Sent id hash sig → Sent' id hash sig)
    (htrace : s.trace ⊆ s'.trace) : SentBy Sent' c.key s' id hash sig := by
  rcases h with hother | ⟨hid, r, hr, hhash, hsig⟩
  · exact .inl (hsent _ _ _ hother)
  · exact .inr ⟨hid, r, htrace hr, hhash, hsig⟩

theorem CommitQuorum.mono {hash : H} (h : CommitQuorum m Sent c s hash)
    (hsent : ∀ id hash sig, Sent id hash sig → Sent' id hash sig) (htrace : s.trace ⊆ s'.trace) :
    CommitQuorum m Sent' c s' hash := by
  obtain ⟨Q, hQ, hcard, hmembers⟩ := h
  refine ⟨Q, hQ, hcard, ?_⟩
  intro n hn id hid hhonest
  obtain ⟨sig, hsig⟩ := hmembers n hn id hid hhonest
  exact ⟨sig, hsig.mono hsent htrace⟩

theorem GenuineVote.mono {hash : H} {sig : S} {r : PBFTMsg H S}
    (h : GenuineVote m Sent c s hash sig r)
    (hsent : ∀ id hash sig, Sent id hash sig → Sent' id hash sig)
    (hsealers : s'.sealerList = s.sealerList) (htrace : s.trace ⊆ s'.trace) :
    GenuineVote m Sent' c s' hash sig r := by
  refine ⟨h.sig_eq, h.hash_eq, ?_, ?_⟩
  · rw [checkSign_congr hsealers]
    exact h.checked
  · rw [checkSign_congr hsealers]
    intro hcheck id hid hhonest
    exact (h.sent hcheck id hid hhonest).mono hsent htrace

theorem GenuineVote.mark {hash : H} {sig : S} {r : PBFTMsg H S}
    (h : GenuineVote m Sent c s hash sig r) (hcheck : s.checkSign c r = true) :
    GenuineVote m Sent c s hash sig { r with signChecked := true } :=
  ⟨h.sig_eq, h.hash_eq, fun _ => hcheck, h.sent⟩

namespace MemberInv

theorem mono (h : MemberInv m Sent c s) (hsent : ∀ id hash sig, Sent id hash sig → Sent' id hash sig) :
    MemberInv m Sent' c s := by
  refine ⟨h.toNodeInv, h.sealers_eq, h.linked, h.commits, ?_, h.one_each, ?_⟩
  · intro hash sig r hr
    exact (h.genuine hash sig r hr).mono hsent rfl (List.Subset.refl _)
  · intro sealerList b ok hev
    exact (h.saved sealerList b ok hev).mono hsent (List.Subset.refl _)

def NoVote : Event H S T → Prop
  | .commit .. => False
  | .commitBlock .. => False
  | _ => True

theorem frame (h : MemberInv m Sent c s) (hnode : NodeInv c s')
    (hsealers : s'.sealerList = s.sealerList) (hlinked : Linked c s'.cache)
    (hvotes : ∀ hash vote, vote ∈ VoteCache.votes s'.cache.commitCache hash →
      vote ∈ VoteCache.votes s.cache.commitCache hash)
    (htrace : s'.trace = s.trace ∨ ∃ ev, NoVote ev ∧ s'.trace = ev :: s.trace) :
    MemberInv m Sent c s' := by
  have hsubset : s.trace ⊆ s'.trace := by
    rcases htrace with htrace | ⟨ev, -, htrace⟩
    · rw [htrace]
      exact List.Subset.refl _
    · rw [htrace]
      exact List.subset_cons_self ..
  have hmem : ∀ ev ∈ s'.trace, ev ∈ s.trace ∨ NoVote ev := by
    intro ev hev
    rcases htrace with htrace | ⟨new, hnew, htrace⟩
    · rw [htrace] at hev
      exact .inl hev
    · rw [htrace] at hev
      rcases List.mem_cons.mp hev with rfl | hev
      · exact .inr hnew
      · exact .inl hev
  refine ⟨hnode, hsealers.trans h.sealers_eq, hlinked, ?_, ?_, ?_, ?_⟩
  · intro r hr
    rcases hmem _ hr with hold | hplain
    · obtain ⟨hsig, raw, header, hlock, hrest⟩ := h.commits r hold
      exact ⟨hsig, raw, header, hsubset hlock, hrest⟩
    · exact absurd hplain id
  · intro hash sig r hr
    exact (h.genuine hash sig r (hvotes hash _ hr)).mono (fun _ _ _ hs => hs) hsealers hsubset
  · intro hash sig r sig' r' hr hr' hcheck hcheck'
    rw [checkSign_congr hsealers] at hcheck hcheck'
    exact h.one_each hash sig r sig' r' (hvotes hash _ hr) (hvotes hash _ hr') hcheck hcheck'
  · intro sealerList b ok hev
    rcases hmem _ hev with hold | hplain
    · exact (h.saved sealerList b ok hold).mono (fun _ _ _ hs => hs) hsubset
    · exact absurd hplain id

theorem frame_quiet (h : MemberInv m Sent c s) (hnode : NodeInv c s')
    (hsealers : s'.sealerList = s.sealerList)
    (hprepare : s'.cache.prepareCache = s.cache.prepareCache)
    (hraw : s'.cache.rawPrepareCache = s.cache.rawPrepareCache)
    (hvotes : s'.cache.commitCache = s.cache.commitCache) (htrace : s'.trace = s.trace) :
    MemberInv m Sent c s' := by
  refine h.frame hnode hsealers (h.linked.congr hprepare hraw) ?_ (.inl htrace)
  intro hash vote hvote
  rw [hvotes] at hvote
  exact hvote

theorem getElem?_nodeIdx (m : Committee H S T) (hsealers : s.sealerList = m.sealers) (hcfg : s.cfgErr c = false) :
    m.sealers[s.nodeIdx c]? = some c.key := by
  have hlen := m.length_lt
  unfold Node.cfgErr Node.nodeIdx at hcfg
  unfold Node.nodeIdx
  rw [hsealers] at hcfg ⊢
  cases hfind : m.sealers.findIdx? fun id => decide (id = c.key) with
  | none =>
    rw [hfind] at hcfg
    simp at hcfg
  | some n =>
    obtain ⟨hlt, hkey, -⟩ := List.findIdx?_eq_some_iff_getElem.mp hfind
    rw [Option.map_some, Option.getD_some, Nat.mod_eq_of_lt (lt_trans hlt hlen),
      List.getElem?_eq_getElem hlt, of_decide_eq_true hkey]

theorem nodeID_of_getElem? (m : Committee H S T) (hsealers : s.sealerList = m.sealers) {n : Nat}
    {id : NodeID} (h : m.sealers[n]? = some id) : s.getNodeIDByIndex n = some id := by
  have hne : id ≠ 0 := by
    intro hzero
    exact m.nonzero (hzero ▸ List.mem_of_getElem? h)
  unfold Node.getNodeIDByIndex
  rw [hsealers, h, Option.getD_some, if_neg hne]

theorem checkSign_ownMsg (hverify : ∀ key hash, c.crypto.verify key (c.crypto.sign key hash) hash = true)
    (hsealers : s.sealerList = m.sealers) (hcfg : s.cfgErr c = false) (now : Nat) (height view : Int)
    (hash : H) : s.checkSign c (ownMsg c now height view (s.nodeIdx c) hash) = true := by
  have hid := nodeID_of_getElem? m hsealers (getElem?_nodeIdx m hsealers hcfg)
  unfold Node.checkSign
  rw [show (ownMsg c now height view (s.nodeIdx c) hash).idx = s.nodeIdx c from rfl, hid]
  exact Bool.and_eq_true_iff.mpr ⟨hverify _ _, hverify _ _⟩

theorem exists_sealer_of_checkSign (hsealers : s.sealerList = m.sealers) {r : PBFTMsg H S}
    (h : s.checkSign c r = true) : ∃ id, m.sealers[r.idx]? = some id := by
  unfold Node.checkSign at h
  cases hid : s.getNodeIDByIndex r.idx with
  | none =>
    rw [hid] at h
    cases h
  | some id => exact ⟨id, hsealers ▸ Node.getElem?_of_getNodeIDByIndex hid⟩

theorem add (h : MemberInv m Sent c s) (hnode : NodeInv c s')
    (hsealers : s'.sealerList = s.sealerList)
    (hprepare : s'.cache.prepareCache = s.cache.prepareCache)
    (hraw : s'.cache.rawPrepareCache = s.cache.rawPrepareCache) {req : PBFTMsg H S}
    (hcache : s'.cache.commitCache = VoteCache.addReq s.cache.commitCache req)
    (htrace : s.trace ⊆ s'.trace)
    (hcommits : ∀ r, .commit r ∈ s'.trace → r.sig = c.crypto.sign c.key r.blockHash ∧
      ∃ raw header, .locked raw ∈ s'.trace ∧ r.blockHash = c.crypto.headerHash header ∧
        raw.blockHash = r.blockHash ∧ raw.height = header.number)
    (hsaved : ∀ sealerList b ok, .commitBlock sealerList b ok ∈ s'.trace →
      .commitBlock sealerList b ok ∈ s.trace)
    (hnew : GenuineVote m Sent c s' req.blockHash req.sig req)
    (hother : ∀ sig r, (sig, r) ∈ VoteCache.votes s.cache.commitCache req.blockHash →
      s.checkSign c r = true → s.checkSign c req = true → r.idx = req.idx → sig = req.sig) :
    MemberInv m Sent c s' := by
  refine ⟨hnode, hsealers.trans h.sealers_eq, h.linked.congr hprepare hraw, hcommits, ?_, ?_, ?_⟩
  · intro hash sig r hr
    rw [hcache, VoteCache.mem_votes_addReq] at hr
    rcases hr with hold | ⟨-, rfl, heq⟩
    · exact (h.genuine hash sig r hold).mono (fun _ _ _ hs => hs) hsealers htrace
    · cases heq
      exact hnew
  · intro hash sig r sig' r' hr hr' hcheck hcheck' hidx
    rw [checkSign_congr hsealers] at hcheck hcheck'
    rw [hcache, VoteCache.mem_votes_addReq] at hr hr'
    rcases hr with hold | ⟨-, rfl, heq⟩
    · rcases hr' with hold' | ⟨-, rfl, heq'⟩
      · exact h.one_each hash sig r sig' r' hold hold' hcheck hcheck' hidx
      · cases heq'
        exact hother sig r hold hcheck hcheck' hidx
    · cases heq
      rcases hr' with hold' | ⟨-, -, heq'⟩
      · exact (hother sig' r' hold' hcheck' hcheck hidx.symm).symm
      · cases heq'
        rfl
  · intro sealerList b ok hev
    exact (h.saved sealerList b ok (hsaved sealerList b ok hev)).mono (fun _ _ _ hs => hs) htrace

theorem lock (h : MemberInv m Sent c s)
    (hverify : ∀ key hash, c.crypto.verify key (c.crypto.sign key hash) hash = true)
    (hhonest : c.key ∉ m.byzantine)
    (hown : ∀ hash sig, Sent c.key hash sig → sig = c.crypto.sign c.key hash)
    (hcfg : s.cfgErr c = false) (hlive : s.cache.prepareCache.height ≠ -1)
    (hnode : NodeInv c (((s.withCache s.cache.updateCommittedPrepare).emit
      (.locked s.cache.rawPrepareCache)).broadcastCommitReq c e)) :
    MemberInv m Sent c (((s.withCache s.cache.updateCommittedPrepare).emit
      (.locked s.cache.rawPrepareCache)).broadcastCommitReq c e) := by
  obtain ⟨header, hhash, hrawHash, hrawHeight⟩ := h.linked hlive
  have hcheck : s.checkSign c (ownMsg c e.now s.cache.prepareCache.height s.cache.prepareCache.view
      (s.nodeIdx c) s.cache.prepareCache.blockHash) = true :=
    checkSign_ownMsg hverify h.sealers_eq hcfg _ _ _ _
  have hkey := getElem?_nodeIdx m h.sealers_eq hcfg
  refine h.add hnode rfl rfl rfl rfl ?_ ?_ ?_ ⟨rfl, rfl, fun _ => hcheck, ?_⟩ ?_
  · exact List.Subset.trans (List.subset_cons_self ..) (List.subset_cons_self ..)
  · intro r hr
    rcases List.mem_cons.mp hr with heq | hr
    · cases heq
      refine ⟨rfl, s.cache.rawPrepareCache, header, ?_, hhash, hrawHash, hrawHeight⟩
      exact List.mem_cons_of_mem _ (List.mem_cons_self ..)
    · rcases List.mem_cons.mp hr with heq | hold
      · cases heq
      · obtain ⟨hsig, raw, header, hlock, hrest⟩ := h.commits r hold
        exact ⟨hsig, raw, header, List.mem_cons_of_mem _ (List.mem_cons_of_mem _ hlock), hrest⟩
  · intro sealerList b ok hev
    rcases List.mem_cons.mp hev with heq | hev
    · cases heq
    · rcases List.mem_cons.mp hev with heq | hold
      · cases heq
      · exact hold
  · intro _ id hid _
    change m.sealers[s.nodeIdx c]? = some id at hid
    rw [hkey] at hid
    cases hid
    exact .inr ⟨rfl, _, List.mem_cons_self .., rfl, rfl⟩
  · intro sig r hr hverified _ hidx
    change r.idx = s.nodeIdx c at hidx
    change (sig, r) ∈ VoteCache.votes s.cache.commitCache s.cache.prepareCache.blockHash at hr
    change sig = c.crypto.sign c.key s.cache.prepareCache.blockHash
    have hsent := (h.genuine _ sig r hr).sent hverified c.key (hidx ▸ hkey) hhonest
    rcases hsent with hsent | ⟨-, r', hr', hhash', hsig'⟩
    · exact hown _ _ hsent
    · rw [← hsig', (h.commits r' hr').1, hhash']

theorem nodup_votes (cache : VoteCache H S) (hash : H) :
    ((VoteCache.votes cache hash).map Prod.fst).Nodup := by
  unfold VoteCache.votes
  cases cache.find? hash with
  | none => exact List.nodup_nil
  | some votes => exact votes.nodup

theorem commitQuorum_of_count (h : MemberInv m Sent c s) {hash : H}
    (hcount : s.minValidNodes ≤
      ((VoteCache.votes s.cache.commitCache hash).filter fun vote => counts vote.2).length) :
    CommitQuorum m Sent c s hash := by
  have hmin : s.minValidNodes = m.sealers.length - (m.sealers.length - 1) / 3 := by
    unfold Node.minValidNodes Node.f Node.nodeNum
    rw [h.sealers_eq, Nat.mod_eq_of_lt m.length_lt]
  let counted := (VoteCache.votes s.cache.commitCache hash).filter fun vote => counts vote.2
  have hcounted : ∀ vote ∈ counted, vote ∈ VoteCache.votes s.cache.commitCache hash ∧
      s.checkSign c vote.2 = true := by
    intro vote hvote
    obtain ⟨hmem, hcounts⟩ := List.mem_filter.mp hvote
    exact ⟨hmem, (h.genuine hash vote.1 vote.2 hmem).checked hcounts⟩
  have hnodup : (counted.map fun vote => vote.2.idx).Nodup := by
    have hkeys := (nodup_votes s.cache.commitCache hash).sublist
      (List.Sublist.map Prod.fst List.filter_sublist : (counted.map Prod.fst).Sublist _)
    rw [List.nodup_iff_pairwise_ne, List.pairwise_map] at hkeys ⊢
    refine hkeys.imp_of_mem ?_
    intro vote vote' hvote hvote' hne hidx
    obtain ⟨hmem, hcheck⟩ := hcounted vote hvote
    obtain ⟨hmem', hcheck'⟩ := hcounted vote' hvote'
    exact hne (h.one_each hash _ _ _ _ hmem hmem' hcheck hcheck' hidx)
  refine ⟨(counted.map fun vote => vote.2.idx).toFinset, ?_, ?_, ?_⟩
  · intro n hn
    obtain ⟨vote, hvote, rfl⟩ := List.mem_map.mp (List.mem_toFinset.mp hn)
    obtain ⟨id, hid⟩ := exists_sealer_of_checkSign h.sealers_eq (hcounted vote hvote).2
    exact Finset.mem_range.mpr (List.getElem?_eq_some_iff.mp hid).1
  · rw [List.toFinset_card_of_nodup hnodup, List.length_map, ← hmin]
    exact hcount
  · intro n hn id hid hhonest
    obtain ⟨vote, hvote, rfl⟩ := List.mem_map.mp (List.mem_toFinset.mp hn)
    obtain ⟨hmem, hcheck⟩ := hcounted vote hvote
    exact ⟨vote.1, (h.genuine hash vote.1 vote.2 hmem).sent hcheck id hid hhonest⟩

theorem save (h : MemberInv m Sent c s) {b : Block H S T}
    (hquorum : CommitQuorum m Sent c s (c.crypto.headerHash b.header))
    (hnode : NodeInv c (s.saveBlock c e b)) : MemberInv m Sent c (s.saveBlock c e b) := by
  have hsaved : ∀ (t : Node H S T) (stored : Bool), t.trace = .commitBlock s.sealerList b stored :: s.trace →
      (∀ r, .commit r ∈ t.trace → r.sig = c.crypto.sign c.key r.blockHash ∧
        ∃ raw header, .locked raw ∈ t.trace ∧ r.blockHash = c.crypto.headerHash header ∧
          raw.blockHash = r.blockHash ∧ raw.height = header.number) ∧
      (∀ sealerList b' ok, .commitBlock sealerList b' ok ∈ t.trace →
        CommitQuorum m Sent c t (c.crypto.headerHash b'.header)) := by
    intro t stored htrace
    have hsubset : s.trace ⊆ t.trace := by
      rw [htrace]
      exact List.subset_cons_self ..
    constructor
    · intro r hr
      rw [htrace] at hr
      rcases List.mem_cons.mp hr with heq | hold
      · cases heq
      · obtain ⟨hsig, raw, header, hlock, hrest⟩ := h.commits r hold
        exact ⟨hsig, raw, header, hsubset hlock, hrest⟩
    · intro sealerList b' ok hev
      rw [htrace] at hev
      rcases List.mem_cons.mp hev with heq | hold
      · cases heq
        exact hquorum.mono (fun _ _ _ hs => hs) hsubset
      · exact (h.saved sealerList b' ok hold).mono (fun _ _ _ hs => hs) hsubset
  rcases Node.saveBlock_cases c e s b with ⟨-, heq⟩ | heq
  · rw [heq] at hnode ⊢
    have hcleared : MemberInv m Sent c
        { s with cache := s.cache.delCache (c.crypto.headerHash b.header) } := by
      refine h.frame (h.toNodeInv.frame rfl rfl rfl (NodeInv.prepareCache_delCache _ _)) rfl
        (h.linked.delCache _) ?_ (.inl rfl)
      intro hash vote hvote
      exact (VoteCache.mem_votes_erase.mp hvote).2
    refine ⟨hnode, h.sealers_eq, hcleared.linked, (hsaved _ true rfl).1, ?_, hcleared.one_each,
      (hsaved _ true rfl).2⟩
    intro hash sig r hr
    exact (hcleared.genuine hash sig r hr).mono (fun _ _ _ hs => hs) rfl (List.subset_cons_self ..)
  · rw [heq] at hnode ⊢
    refine ⟨hnode, h.sealers_eq, h.linked, (hsaved _ false rfl).1, ?_, h.one_each,
      (hsaved _ false rfl).2⟩
    intro hash sig r hr
    exact (h.genuine hash sig r hr).mono (fun _ _ _ hs => hs) rfl (List.subset_cons_self ..)

theorem countCommits (h : MemberInv m Sent c s) {size : Nat} {hash : H}
    (hnode : NodeInv c (s.withCache (s.cache.getCommitCacheSize (s.checkSign c) hash size).1)) :
    MemberInv m Sent c (s.withCache (s.cache.getCommitCacheSize (s.checkSign c) hash size).1) := by
  have hvotes : ∀ hash' sig r, (sig, r) ∈ VoteCache.votes
      (s.cache.getCommitCacheSize (s.checkSign c) hash size).1.commitCache hash' →
      ∃ r', (sig, r') ∈ VoteCache.votes s.cache.commitCache hash' ∧ r'.idx = r.idx ∧
        s.checkSign c r' = s.checkSign c r ∧ GenuineVote m Sent c s hash' sig r := by
    intro hash' sig r hr
    rcases mem_votes_getCacheSize hr with hold | ⟨r', hold, hcheck, heq⟩
    · exact ⟨r, hold, rfl, rfl, h.genuine hash' sig r hold⟩
    · dsimp only at heq hold
      rw [heq]
      exact ⟨r', hold, rfl, rfl, (h.genuine hash' sig r' hold).mark hcheck⟩
  refine ⟨hnode, h.sealers_eq, h.linked, h.commits, ?_, ?_, h.saved⟩
  · intro hash' sig r hr
    obtain ⟨r', -, -, -, hgenuine⟩ := hvotes hash' sig r hr
    exact hgenuine.mono (fun _ _ _ hs => hs) rfl (List.Subset.refl _)
  · intro hash' sig r sig' r' hr hr' hcheck hcheck' hidx
    obtain ⟨q, hq, hqidx, hqcheck, -⟩ := hvotes hash' sig r hr
    obtain ⟨q', hq', hqidx', hqcheck', -⟩ := hvotes hash' sig' r' hr'
    refine h.one_each hash' sig q sig' q' hq hq' (hqcheck.trans hcheck) (hqcheck'.trans hcheck') ?_
    rw [hqidx, hqidx', hidx]

/-- **What a small step of an honest sealer preserves.** -/
theorem smallStep {t : NodeID → Node H S T}
    (hverify : ∀ key hash, c.crypto.verify key (c.crypto.sign key hash) hash = true)
    (hhonest : c.key ∉ m.byzantine)
    (hown : ∀ hash sig, Sent c.key hash sig → sig = c.crypto.sign c.key hash)
    (hsent : ∀ id hash sig, sentCommit (t id) hash sig = true → Sent id hash sig)
    (hok : m.StepOk t c s₀ (e, i)) (hlock : LockInv s) (hstep : SmallStep c e i s₀ s s')
    (h : MemberInv m Sent c s) : MemberInv m Sent c s' := by
  obtain ⟨henv, hlockOk, hnames, hshort, hcommit⟩ := hok
  have hnode := NodeInv.smallStep hstep h.toNodeInv
  cases hstep with
  | pending _ future raw same pfuture hfuture hraw hpfuture =>
    exact h.frame_quiet hnode rfl rfl rfl rfl rfl
  | note _ ev hev =>
    refine h.frame hnode rfl h.linked (fun _ _ hvote => hvote) (.inr ⟨ev, ?_, rfl⟩)
    cases ev <;> trivial
  | takeRaw _ req htaken =>
    exact h.frame hnode rfl (.of_dead rfl) (fun _ _ hvote => hvote) (.inl rfl)
  | transRaw _ req p block htaken hi hprepare hfail =>
    refine h.frame hnode rfl (.of_dead ?_) (fun _ _ hvote => hvote) (.inl rfl)
    change s.cache.prepareCache.height = -1
    rw [hprepare]
    subst hi
    unfold shortOk at hshort
    dsimp only at hshort
    rw [LockInv.takenPrepare_of_taken htaken, Option.all_some, Bool.or_eq_true, Bool.and_eq_true,
      decide_eq_true_eq] at hshort
    rcases hshort with hdead | ⟨hexec, hencode⟩
    · exact hdead
    · rcases hfail with hfail | ⟨b, hb, hfail⟩
      · rw [hfail] at hexec
        cases hexec
      · rw [hb, Option.all_some, hfail] at hencode
        cases hencode
  | sign _ req b htaken hexec =>
    unfold namesBlockOk at hnames
    rw [LockInv.takenPrepare_of_taken htaken, Option.all_some, hexec, Option.all_some,
      Bool.and_eq_true, decide_eq_true_eq, decide_eq_true_eq] at hnames
    refine h.frame hnode rfl ?_ ?_ (.inr ⟨.signed req b _, trivial, rfl⟩)
    · exact fun _ => ⟨b.header, rfl, hnames.1, hnames.2⟩
    · intro hash vote hvote
      exact (VoteCache.mem_votes_removeInvalid.mp hvote).1
  | countSigns _ => exact h.frame_quiet hnode rfl rfl rfl rfl rfl
  | countCommits _ => exact h.countCommits hnode
  | lock _ hsame hcfg hview hcause =>
    have hcfg : s.cfgErr c = false := by
      rw [← hcfg]
      unfold Node.cfgErr Node.nodeIdx
      rw [hsame.sealerList_eq]
    exact h.lock hverify hhonest hown hcfg (hlock.live_of_lock hlockOk hsame hview hcause) hnode
  | save _ b b' hsame hview hheight hblock hlist hcount =>
    have hlive : s.cache.prepareCache.height ≠ -1 := by
      have hnonneg := h.highest_nonneg
      omega
    obtain ⟨b₁, hb₁, hhash⟩ := h.prepared.resolve_left hlive
    rw [hblock] at hb₁
    cases hb₁
    have hquorum := h.commitQuorum_of_count hcount
    rw [hhash] at hquorum
    have hheader : b'.header = b.header := by
      rcases hlist with ⟨sigList, -, rfl⟩ | ⟨-, rfl⟩
      · rfl
      · rfl
    rw [← hheader] at hquorum
    exact h.save hquorum hnode
  | addSign _ m => exact h.frame_quiet hnode rfl rfl rfl rfl rfl
  | addCommit p req req' hi hreq hcheck =>
    obtain ⟨res, hres, hkept⟩ := hcheck
    subst hi
    unfold Committee.commitOk at hcommit
    dsimp only at hcommit
    rw [hreq, Option.all_some, hres, decide_eq_false hkept, Bool.false_or, Bool.or_eq_true,
      Bool.not_eq_true'] at hcommit
    have hmarks : ∃ isFuture signChecked, req' = { req with isFuture, signChecked } ∧
        (counts req' = true → s₀.checkSign c req' = true) := by
      rcases (SmallSteps.isValidVote_kept hres hkept).2 with ⟨rfl, hsign⟩ | rfl
      · exact ⟨_, _, rfl, fun _ => hsign⟩
      · refine ⟨_, _, rfl, ?_⟩
        intro hcounts
        cases hcounts
    obtain ⟨isFuture, signChecked, rfl, hcounts⟩ := hmarks
    have hvalid : s₀.checkSign c req = true →
        (m.sealers[req.idx]?.all fun id =>
          decide (id ∈ m.byzantine) || sentCommit (t id) req.blockHash req.sig) = true ∧
        ((VoteCache.votes s₀.cache.commitCache req.blockHash).all
          fun vote => decide (vote.2.idx ≠ req.idx) || !s₀.checkSign c vote.2) = true := by
      intro hsign
      rw [hsign] at hcommit
      exact Bool.and_eq_true_iff.mp (hcommit.resolve_left Bool.noConfusion)
    refine h.add hnode rfl rfl rfl rfl (List.Subset.refl _) h.commits (fun _ _ _ hev => hev)
      ⟨rfl, rfl, hcounts, ?_⟩ ?_
    · intro hsign id hid hcorrect
      have hall := (hvalid hsign).1
      change m.sealers[req.idx]? = some id at hid
      rw [hid, Option.all_some, Bool.or_eq_true, decide_eq_true_eq] at hall
      exact .inl (hsent _ _ _ (hall.resolve_left hcorrect))
    · intro sig r hr hsign' hsign hidx
      have hall := List.all_eq_true.mp (hvalid hsign).2 (sig, r) hr
      rw [Bool.or_eq_true, decide_eq_true_eq, Bool.not_eq_true'] at hall
      rcases hall with hne | hunsigned
      · exact absurd hidx hne
      · rw [hunsigned] at hsign'
        cases hsign'
  | dropViewChanges _ q hdrops =>
    obtain ⟨recv, latest, -, rfl⟩ := hdrops
    exact h.frame_quiet hnode rfl rfl rfl rfl rfl
  | insertViewChange _ req horigin hheight => exact h.frame_quiet hnode rfl rfl rfl rfl rfl
  | moveToView _ v failed hmove => exact h.frame_quiet hnode rfl rfl rfl rfl rfl
  | enterView _ v hsealers hhighest hsize hview =>
    unfold Node.checkAndChangeView at hnode ⊢
    rw [if_pos hsize] at hnode ⊢
    refine h.frame hnode rfl (.of_dead rfl) ?_ (.inr ⟨.enteredView v _, trivial, rfl⟩)
    intro hash vote hvote
    exact (VoteCache.mem_votes_removeExpired.mp hvote).1
  | report number b hi hblock =>
    have hsealers : e.sealers.1.insertionSort (· ≤ ·) = s₀.sealerList := henv.trans h.sealers_eq.symm
    rcases Node.reportBlockWithoutLock_cases c e s₀ b with heq | ⟨-, -, heq⟩ | ⟨-, -, heq⟩
    · rw [heq]
      exact h
    · rw [heq] at hnode ⊢
      refine h.frame hnode hsealers (Linked.delCache h.linked _) ?_
        (.inr ⟨.reported b.header, trivial, rfl⟩)
      intro hash vote hvote
      exact (VoteCache.mem_votes_erase.mp hvote).2
    · rw [heq] at hnode ⊢
      refine h.frame hnode hsealers (Linked.delCache h.linked _) ?_
        (.inr ⟨.reported b.header, trivial, rfl⟩)
      intro hash vote hvote
      exact (VoteCache.mem_votes_erase.mp hvote).2
  | collectGarbage hi =>
    refine h.frame hnode rfl h.linked ?_ (.inl rfl)
    intro hash vote hvote
    exact VoteCache.mem_votes_of_removeInvalidEntry hvote
  | resetConfig hi => exact h.frame_quiet hnode (henv.trans h.sealers_eq.symm) rfl rfl rfl rfl
  | storeSynced _ b chain hi hchain => exact h.frame_quiet hnode rfl rfl rfl rfl rfl

theorem started (hs : Started s) (hsealers : s.sealerList = m.sealers) : MemberInv m Sent c s := by
  have hnode : NodeInv c s := NodeInv.started hs
  obtain ⟨e, noSig, backup, chain, last, hnumbered, hlast, rfl⟩ := hs
  have hnone : ∀ hash vote, vote ∉ VoteCache.votes (.empty : VoteCache H S) hash := by
    intro hash vote hvote
    cases hvote
  refine ⟨hnode, hsealers, .of_dead rfl, ?_, ?_, ?_, ?_⟩
  · intro r hr
    cases hr
  · intro hash sig r hr
    exact absurd hr (hnone hash _)
  · intro hash sig r sig' r' hr
    exact absurd hr (hnone hash _)
  · intro sealerList b ok hev
    cases hev

end MemberInv

/-! ### The committee -/

theorem sentCommit_iff {hash : H} {sig : S} : sentCommit s hash sig = true ↔
    ∃ r, .commit r ∈ s.trace ∧ r.blockHash = hash ∧ r.sig = sig := by
  unfold sentCommit
  rw [List.any_eq_true]
  constructor
  · rintro ⟨ev, hev, hmatch⟩
    split at hmatch
    · next r =>
      rw [Bool.and_eq_true, decide_eq_true_eq, decide_eq_true_eq] at hmatch
      exact ⟨r, hev, hmatch⟩
    · cases hmatch
  · rintro ⟨r, hr, rfl, rfl⟩
    exact ⟨_, hr, by simp⟩

theorem sentCommit_mono {hash : H} {sig : S} (htrace : s.trace ⊆ s'.trace)
    (h : sentCommit s hash sig = true) : sentCommit s' hash sig = true := by
  obtain ⟨r, hr, hhash, hsig⟩ := sentCommit_iff.mp h
  exact sentCommit_iff.mpr ⟨r, htrace hr, hhash, hsig⟩

namespace Committee

variable (m) {t t' : NodeID → Node H S T}

/-- Every honest sealer keeps its locks and its votes, by what all have sent. -/
def AgreeInv (t : NodeID → Node H S T) : Prop :=
  ∀ id, m.Honest id → LockInv (t id) ∧
    MemberInv m (fun id hash sig => sentCommit (t id) hash sig = true) (m.config id) (t id)

variable {m}

theorem AgreeInv.step
    (hverify : ∀ key hash, m.crypto.verify key (m.crypto.sign key hash) hash = true)
    (h : m.AgreeInv t) {i : NodeID × (Env T × Input H S T)} (hok : m.AgreeOk t i) :
    m.AgreeInv (m.cluster.step t i) := by
  have hself : m.cluster.step t i i.1 = (engine (m.config i.1)).step (t i.1) i.2 :=
    Machine.cluster_step_self ..
  have hother : ∀ id, id ≠ i.1 → m.cluster.step t i id = t id :=
    fun id hne => Machine.cluster_step_of_ne t i.2 hne
  have hsent : ∀ id hash sig, sentCommit (t id) hash sig = true →
      sentCommit (m.cluster.step t i id) hash sig = true := by
    intro id hash sig
    by_cases hid : id = i.1
    · rw [hid, hself]
      exact sentCommit_mono (trace_suffix_step _ _ _).subset
    · rw [hother id hid]
      exact fun hs => hs
  intro id hhonest
  obtain ⟨hlock, hmember⟩ := h id hhonest
  by_cases hid : id = i.1
  · subst hid
    rw [hself]
    have hstep := hok hhonest
    have hown : ∀ hash sig, sentCommit (t (m.config i.1).key) hash sig = true →
        sig = (m.config i.1).crypto.sign (m.config i.1).key hash := by
      intro hash sig hsig
      rw [m.config_key] at hsig
      obtain ⟨r, hr, rfl, rfl⟩ := sentCommit_iff.mp hsig
      exact (hmember.commits r hr).1
    have hsmall : ∀ s s', SmallStep (m.config i.1) i.2.1 i.2.2 (t i.1) s s' →
        (LockInv s ∧ MemberInv m (fun id hash sig => sentCommit (t id) hash sig = true)
          (m.config i.1) s) →
        LockInv s' ∧ MemberInv m (fun id hash sig => sentCommit (t id) hash sig = true)
          (m.config i.1) s' := by
      intro s s' hsmall hs
      refine ⟨LockInv.smallStep hstep.2.1 hsmall hs.1, ?_⟩
      refine MemberInv.smallStep ?_ ?_ hown (fun _ _ _ hs => hs) hstep hs.1 hsmall hs.2
      · rw [m.config_crypto]
        exact hverify
      · rw [m.config_key]
        exact hhonest.2
    have hnext := (engine_madeOf (m.config i.1)).step_invariant (i := i.2) hsmall ⟨hlock, hmember⟩
    exact ⟨hnext.1, hnext.2.mono hsent⟩
  · rw [hother id hid]
    exact ⟨hlock, hmember.mono hsent⟩

variable (m) in
/-- A quorum of sealers sent commit requests for the hash, as far as they are honest. -/
def Certified (t : NodeID → Node H S T) (hash : H) : Prop :=
  ∃ Q : Finset Nat, Q ⊆ Finset.range m.sealers.length ∧
    m.sealers.length - (m.sealers.length - 1) / 3 ≤ Q.card ∧
    ∀ n ∈ Q, ∀ voter, m.sealers[n]? = some voter → voter ∉ m.byzantine →
      ∃ r, .commit r ∈ (t voter).trace ∧ r.blockHash = hash

theorem AgreeInv.certified (h : m.AgreeInv t) {id : NodeID} (hhonest : m.Honest id) {sealerList : List NodeID}
    {b : Block H S T} {ok : Bool} (hb : .commitBlock sealerList b ok ∈ (t id).trace) :
    m.Certified t (m.crypto.headerHash b.header) := by
  obtain ⟨Q, hQ, hcard, hmembers⟩ := (h id hhonest).2.saved sealerList b ok hb
  rw [m.config_crypto] at hmembers
  refine ⟨Q, hQ, hcard, ?_⟩
  intro n hn voter hvoter hcorrect
  obtain ⟨sig, hsent | ⟨hid, r, hr, hhash, -⟩⟩ := hmembers n hn voter hvoter hcorrect
  · obtain ⟨r, hr, hhash, -⟩ := sentCommit_iff.mp hsent
    exact ⟨r, hr, hhash⟩
  · rw [m.config_key] at hid
    subst hid
    exact ⟨r, hr, hhash⟩

theorem AgreeInv.unique (hheader : Function.Injective m.crypto.headerHash) (h : m.AgreeInv t)
    (hne : m.sealers ≠ []) {header header' : BlockHeader H} (hcertified : m.Certified t (m.crypto.headerHash header))
    (hcertified' : m.Certified t (m.crypto.headerHash header')) (hnumber : header.number = header'.number) :
    m.crypto.headerHash header = m.crypto.headerHash header' := by
  obtain ⟨Q, hQ, hcard, hmembers⟩ := hcertified
  obtain ⟨Q', hQ', hcard', hmembers'⟩ := hcertified'
  obtain ⟨n, voter, hn, hn', hvoter, hcorrect⟩ :=
    Quorum.exists_common_correct m.nodup hne m.few hQ hQ' hcard hcard'
  obtain ⟨r, hr, hhash⟩ := hmembers n hn voter hvoter hcorrect
  obtain ⟨r', hr', hhash'⟩ := hmembers' n hn' voter hvoter hcorrect
  obtain ⟨hlocks, hmember⟩ := h voter ⟨List.mem_of_getElem? hvoter, hcorrect⟩
  obtain ⟨-, raw, lockedHeader, hlocked, hheaderHash, hraw, hheight⟩ := hmember.commits r hr
  obtain ⟨-, raw', lockedHeader', hlocked', hheaderHash', hraw', hheight'⟩ := hmember.commits r' hr'
  rw [m.config_crypto] at hheaderHash hheaderHash'
  have hsame : lockedHeader = header := hheader (hheaderHash.symm.trans hhash)
  have hsame' : lockedHeader' = header' := hheader (hheaderHash'.symm.trans hhash')
  have heights : raw.height = raw'.height := by
    rw [hheight, hheight', hsame, hsame', hnumber]
  have hlock := hlocks.unique raw raw' hlocked hlocked' heights
  rw [← hhash, ← hhash', ← hraw, ← hraw', hlock]

theorem AgreeInv.agree (hheader : Function.Injective m.crypto.headerHash) (h : m.AgreeInv t) :
    m.Agreement t := by
  intro id id' hhonest hhonest' sealerList b ok sealerList' b' ok' hb hb' hnumber
  exact h.unique hheader (List.ne_nil_of_mem hhonest.1) (h.certified hhonest hb) (h.certified hhonest' hb') hnumber

/-- **Agreement.**  Along every run whose steps of honest sealers meet the
    condition, no two honest sealers commit different blocks of one number. -/
theorem agreement (m : Committee H S T) (hheader : Function.Injective m.crypto.headerHash)
    (hverify : ∀ key hash, m.crypto.verify key (m.crypto.sign key hash) hash = true)
    {t : NodeID → Node H S T}
    (hstart : ∀ id, m.Honest id → Started (t id) ∧ (t id).sealerList = m.sealers)
    {is : List (NodeID × (Env T × Input H S T))} (hrun : m.cluster.RunOk m.AgreeOk t is) :
    m.Agreement (m.cluster.run t is) := by
  have hinv : m.AgreeInv t := by
    intro id hhonest
    obtain ⟨hs, hsealers⟩ := hstart id hhonest
    exact ⟨LockInv.started hs, MemberInv.started hs hsealers⟩
  apply AgreeInv.agree hheader
  refine m.cluster.run_invariant ?_ hinv hrun
  intro t i h hok
  exact h.step hverify hok

/-! ### Synced blocks -/

variable (m) in
/-- Some node with the sealers of the committee accepts the block in `checkBlock`; its
    signature list names a quorum, and what an honest sealer signed there are its
    commit requests. -/
def Synced (t : NodeID → Node H S T) (b : Block H S T) : Prop :=
  ∃ (c : Config H S T) (e : Env T) (s : Node H S T), c.crypto = m.crypto ∧ (s.resetConfig e).sealerList = m.sealers ∧
    0 < b.header.number ∧ (s.checkBlock c e b).2 = true ∧ NamesQuorum b ∧
    ∀ sign ∈ b.sigList, ∀ id, m.Honest id → m.crypto.verify id sign.2 (m.crypto.headerHash b.header) = true →
      sentCommit (t id) (m.crypto.headerHash b.header) sign.2 = true

variable (m) in
def Final (t : NodeID → Node H S T) (b : Block H S T) : Prop :=
  (∃ id, m.Honest id ∧ ∃ sealerList ok, .commitBlock sealerList b ok ∈ (t id).trace) ∨ m.Synced t b

theorem Synced.certified {b : Block H S T} (h : m.Synced t b) : m.Certified t (m.crypto.headerHash b.header) := by
  obtain ⟨c, e, s, hcrypto, hsealers, hnumber, hcheck, hnames, hgenuine⟩ := h
  obtain ⟨hheader, hlist⟩ := Node.checked_of_checkBlock hnumber hcheck
  refine ⟨(Finset.range m.sealers.length).filter fun n => ∃ sign ∈ b.sigList, sign.1 % 65536 = n,
    Finset.filter_subset _ _, ?_, ?_⟩
  · rw [NamesQuorum, quorum, ← hheader, hsealers] at hnames
    refine hnames.trans ?_
    have hnodup : (namedSealers b).Nodup := List.nodup_dedup _
    rw [← List.toFinset_card_of_nodup hnodup]
    refine (Finset.card_le_card ?_).trans (Finset.card_image_le (f := fun n => m.sealers.getD n 0))
    intro id hid
    obtain ⟨sign, hsign, hat⟩ := mem_namedSealers.mp (List.mem_toFinset.mp hid)
    rw [← hheader, hsealers] at hat
    have hlt := (List.getElem?_eq_some_iff.mp hat).1
    refine Finset.mem_image.mpr ⟨sign.1 % 65536, ?_, ?_⟩
    · exact Finset.mem_filter.mpr ⟨Finset.mem_range.mpr hlt, sign, hsign, rfl⟩
    · rw [List.getD_eq_getElem?_getD, hat, Option.getD_some]
  · intro n hn voter hvoter hcorrect
    obtain ⟨-, sign, hsign, rfl⟩ := Finset.mem_filter.mp hn
    obtain ⟨id, hid, hverify⟩ := Node.verify_of_checkSigList hlist hsign
    rw [hsealers, hvoter] at hid
    cases hid
    rw [hcrypto] at hverify
    have hhonest : m.Honest voter := ⟨List.mem_of_getElem? hvoter, hcorrect⟩
    obtain ⟨r, hr, hhash, -⟩ := sentCommit_iff.mp (hgenuine sign hsign voter hhonest hverify)
    exact ⟨r, hr, hhash⟩

end Committee

end Agreement

def fourCommittee : Committee Term Term Nat where
  config := sealerConfig
  crypto := symbolicCrypto
  config_key _ := rfl
  config_crypto _ := rfl
  sealers := [1, 2, 3, 4]
  nodup := by decide
  nonzero := by decide
  length_lt := by decide
  byzantine := {1}
  few := by decide

def toSealer (id : NodeID) (is : List (Input Term Term Nat)) :
    List (NodeID × (Env Nat × Input Term Term Nat)) :=
  (quietly is).map fun i => (id, i)

/-- The second and the fourth sealer lock the leader's block and then get each
    other's commit request and that of the leader. -/
def oneBlock (b : Block Term Term Nat) : List (NodeID × (Env Nat × Input Term Term Nat)) :=
  toSealer 2 [sendBlock b false, .signReqPacket (requestFor 0 0 b), .signReqPacket (requestFor 2 0 b)]
    ++ toSealer 4 (fullRound b)
    ++ toSealer 2 [.commitReqPacket (requestFor 0 0 b), .commitReqPacket (requestFor 3 0 b)]

theorem agreement_on_one :
    fourCommittee.Agreement (fourCommittee.cluster.run (fun _ => startNode)
      (oneBlock (blockOn genesis 7 [5]))) :=
  Committee.agreement fourCommittee symbolicCrypto_headerHash_injective symbolicCrypto_verify_sign
    (fun _ _ => ⟨startNode_started, rfl⟩) (by decide +kernel)

theorem oneBlock_ok :
    fourCommittee.cluster.RunOk fourCommittee.AgreeOk (fun _ => startNode) (oneBlock (blockOn genesis 7 [5])) := by
  decide +kernel

/-- The leader's prepare request for a block, and two sign and two commit requests
    of the leader alone, with different signatures over the block hash. -/
def leaderAlone (b : Block Term Term Nat) : List (Input Term Term Nat) :=
  [sendBlock b false, .signReqPacket (requestFor 0 0 b),
    .signReqPacket (resigned 0 1 (requestFor 0 0 b)), .commitReqPacket (requestFor 0 0 b),
    .commitReqPacket (resigned 0 1 (requestFor 0 0 b))]

/-- A leader that votes twice for one block to the fourth sealer and twice for
    another block to the third one. -/
theorem agreement_broken_by_leader :
    ¬fourCommittee.Agreement (fourCommittee.cluster.run (fun _ => startNode)
      (toSealer 4 (leaderAlone (blockOn genesis 7 [5])) ++
        toSealer 3 (leaderAlone (blockOn genesis 8 [6])))) := by
  intro h
  have hsame := h 4 3 (by decide) (by decide)
    [1, 2, 3, 4] { blockOn genesis 7 [5] with sigList :=
      [(3, symbolicCrypto.sign 4 (hashOf (blockOn genesis 7 [5]))),
        (0, symbolicCrypto.sign 1 (hashOf (blockOn genesis 7 [5]))),
        (0, Term.signWith 1 (hashOf (blockOn genesis 7 [5])) 1)] } true
    [1, 2, 3, 4] { blockOn genesis 8 [6] with sigList :=
      [(2, symbolicCrypto.sign 3 (hashOf (blockOn genesis 8 [6]))),
        (0, symbolicCrypto.sign 1 (hashOf (blockOn genesis 8 [6]))),
        (0, Term.signWith 1 (hashOf (blockOn genesis 8 [6])) 1)] } true
    (by decide +kernel) (by decide +kernel) (by decide)
  exact absurd hsame (by decide +kernel)

end HieraChain.PBFT
