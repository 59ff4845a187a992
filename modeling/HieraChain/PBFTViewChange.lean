/-
  HieraChain/PBFTViewChange.lean
  ==============================
  **View changes** (`checkAndChangeView`, `checkTimeout`, `handleViewChangeMsg`).

  A node enters a view with view-change requests of a quorum for exactly that
  view, each its own or accepted, each at or above its highest reported block,
  and its view only falls when a higher block is reported.  A block that is in
  the chain but not yet reported does not drop the requests below it, and
  `m_toView` wraps at the end of `int64_t`; the first is by design, the second is
  left out of the runs.
-/
import HieraChain.PBFTInvariants
import HieraChain.SymbolicCrypto

set_option linter.unusedSectionVars false

namespace HieraChain.PBFT

section ViewChange

variable {H S T : Type} [DecidableEq H] [DecidableEq S]

/-! ### What a step may do to the views -/

/-- The requests with which a node in state `s` enters view `v`. -/
structure ViewCertificate (s : Node H S T) (trace : List (Event H S T)) (v : Int)
    (reqs : List (Nat × PBFTMsg H S)) : Prop where
  distinct : (reqs.map Prod.fst).Nodup
  enough : s.minValidNodes ≤ reqs.length
  for_view : ∀ idx req, (idx, req) ∈ reqs → req.idx = idx ∧ req.view = v
  high : ∀ idx req, (idx, req) ∈ reqs → s.highestBlock.number ≤ req.height
  /-- made by the node or accepted by `isValidViewChangeReq` -/
  accepted : ∀ idx req, (idx, req) ∈ reqs →
    .viewChange req ∈ trace ∨ .acceptedViewChange req ∈ trace

/-- The step from `s` to `t` enters views with certificates only. -/
def EntersCertified (s t : Node H S T) : Prop :=
  ∃ new, t.trace = new ++ s.trace ∧
    (t.view ≠ s.view → 0 < t.view → ∃ reqs, .enteredView t.view reqs ∈ new) ∧
    ∀ v reqs, .enteredView v reqs ∈ new → ViewCertificate s t.trace v reqs

variable [Zero H]

structure ViewStep (c : Config H S T) (s : Node H S T) (i : Env T × Input H S T) : Prop where
  le_toView : ((engine c).step s i).view ≤ ((engine c).step s i).toView
  mono : (∀ number, i.2 ≠ .reportBlock number) → s.view ≤ ((engine c).step s i).view
  /-- a report leaves the views or resets them with a higher block -/
  reset : ∀ number, i.2 = .reportBlock number →
    (((engine c).step s i).view = s.view ∧ ((engine c).step s i).toView = s.toView) ∨
      (((engine c).step s i).view = 0 ∧ ((engine c).step s i).toView = 0 ∧
        s.highestBlock.number < ((engine c).step s i).highestBlock.number)
  enters : EntersCertified s ((engine c).step s i)

def noWrap (s : Node H S T) : Input H S T → Bool
  | .checkTimeout => decide (s.toView ≠ MAXVIEW)
  | _ => true

/-! ### The invariant -/

structure Requested (s : Node H S T) (view : Int) (idx : Nat) (req : PBFTMsg H S) : Prop where
  view_eq : req.view = view
  idx_eq : req.idx = idx
  high : s.highestBlock.number ≤ req.height
  accepted : .viewChange req ∈ s.trace ∨ .acceptedViewChange req ∈ s.trace

structure ViewInv (c : Config H S T) (s : Node H S T) : Prop extends NodeInv c s where
  le_toView : s.view ≤ s.toView
  requested : ∀ view idx req, s.cache.viewChange? view idx = some req → Requested s view idx req

/-- What holds between the state `s₀` before an input and a state `s` on the way. -/
structure ViewRound (i : Input H S T) (s₀ s : Node H S T) : Prop where
  mono : (∀ number, i ≠ .reportBlock number) → s₀.view ≤ s.view
  enters : EntersCertified s₀ s

variable {c : Config H S T} {e : Env T} {i : Input H S T} {s₀ s s' : Node H S T}

theorem Requested.mono {view : Int} {idx : Nat} {req : PBFTMsg H S} (h : Requested s view idx req)
    (hhighest : s'.highestBlock = s.highestBlock) (htrace : ∀ ev ∈ s.trace, ev ∈ s'.trace) :
    Requested s' view idx req := by
  refine ⟨h.view_eq, h.idx_eq, hhighest ▸ h.high, ?_⟩
  rcases h.accepted with hown | haccepted
  · exact .inl (htrace _ hown)
  · exact .inr (htrace _ haccepted)

theorem ViewCertificate.mono {trace trace' : List (Event H S T)} {v : Int}
    {reqs : List (Nat × PBFTMsg H S)} (h : ViewCertificate s trace v reqs)
    (htrace : ∀ ev ∈ trace, ev ∈ trace') : ViewCertificate s trace' v reqs := by
  refine ⟨h.distinct, h.enough, h.for_view, h.high, ?_⟩
  intro idx req hreq
  rcases h.accepted idx req hreq with hown | haccepted
  · exact .inl (htrace _ hown)
  · exact .inr (htrace _ haccepted)

theorem EntersCertified.refl (s : Node H S T) : EntersCertified s s := by
  refine ⟨[], rfl, fun hne => absurd rfl hne, ?_⟩
  intro v reqs hev
  exact absurd hev List.not_mem_nil

namespace ViewInv

def NoEntry : Event H S T → Prop
  | .enteredView .. => False
  | _ => True

theorem frame (h : ViewInv c s) (hround : ViewRound i s₀ s) (hnode : NodeInv c s')
    (hview : s'.view = s.view) (htoView : s.toView ≤ s'.toView)
    (hhighest : s'.highestBlock = s.highestBlock)
    (hrequests : ViewChangesIn s'.cache.recvViewChangeReq s.cache.recvViewChangeReq)
    (htrace : ∃ new, s'.trace = new ++ s.trace ∧ ∀ ev ∈ new, NoEntry ev) :
    ViewInv c s' ∧ ViewRound i s₀ s' := by
  obtain ⟨added, htrace, hadded⟩ := htrace
  have hmem : ∀ ev ∈ s.trace, ev ∈ s'.trace := by
    intro ev hev
    rw [htrace]
    exact List.mem_append_right _ hev
  refine ⟨⟨hnode, ?_, ?_⟩, ?_, ?_⟩
  · rw [hview]
    exact le_trans h.le_toView htoView
  · intro view idx req hreq
    exact (h.requested view idx req (hrequests view idx req hreq)).mono hhighest hmem
  · rw [hview]
    exact hround.mono
  · obtain ⟨new, hnew, hentered, hcert⟩ := hround.enters
    refine ⟨added ++ new, ?_, ?_, ?_⟩
    · rw [htrace, hnew, List.append_assoc]
    · rw [hview]
      intro hne hpos
      obtain ⟨reqs, hreqs⟩ := hentered hne hpos
      exact ⟨reqs, List.mem_append_right _ hreqs⟩
    · intro v reqs hev
      rcases List.mem_append.mp hev with hev | hev
      · exact absurd (hadded _ hev) id
      · exact (hcert v reqs hev).mono hmem

theorem frame_quiet (h : ViewInv c s) (hround : ViewRound i s₀ s) (hnode : NodeInv c s')
    (hview : s'.view = s.view) (htoView : s.toView ≤ s'.toView)
    (hhighest : s'.highestBlock = s.highestBlock)
    (hrequests : ViewChangesIn s'.cache.recvViewChangeReq s.cache.recvViewChangeReq)
    (htrace : s'.trace = s.trace) : ViewInv c s' ∧ ViewRound i s₀ s' :=
  h.frame hround hnode hview htoView hhighest hrequests
    ⟨[], htrace, fun _ hev => absurd hev List.not_mem_nil⟩

theorem frame_emit (h : ViewInv c s) (hround : ViewRound i s₀ s) (hnode : NodeInv c s')
    {ev : Event H S T} (hview : s'.view = s.view) (htoView : s.toView ≤ s'.toView)
    (hhighest : s'.highestBlock = s.highestBlock)
    (hrequests : ViewChangesIn s'.cache.recvViewChangeReq s.cache.recvViewChangeReq)
    (htrace : s'.trace = ev :: s.trace) (hev : NoEntry ev) : ViewInv c s' ∧ ViewRound i s₀ s' := by
  refine h.frame hround hnode hview htoView hhighest hrequests ⟨[ev], htrace, ?_⟩
  intro ev' hev'
  rw [List.mem_singleton.mp hev']
  exact hev

theorem high_of_removeInvalidEntry {recv : AssocMap Int (AssocMap Nat (PBFTMsg H S))}
    {number : Int} {hash : H} {view : Int} {idx : Nat} {req : PBFTMsg H S}
    (h : ((removeInvalidEntryFromCache number hash recv).find? view).bind (·.find? idx) = some req) :
    ((recv.find? view).bind (·.find? idx) = some req) ∧ number ≤ req.height := by
  unfold removeInvalidEntryFromCache at h
  have hleft := ViewChangesIn.filter _ view idx req h
  refine ⟨ViewChangesIn.mapVal_filter _ view idx req hleft, ?_⟩
  rw [AssocMap.find?_mapVal] at hleft
  obtain ⟨m, hm, hreq⟩ := Option.bind_eq_some_iff.mp hleft
  obtain ⟨m', -, rfl⟩ := Option.map_eq_some_iff.mp hm
  rw [AssocMap.find?_filter] at hreq
  have hvalid := (Option.filter_eq_some_iff.mp hreq).2
  unfold isInvalidAt at hvalid
  simp only [Bool.not_eq_true', Bool.or_eq_false_iff, decide_eq_false_iff_not] at hvalid
  exact not_lt.mp hvalid.1

theorem reportBlockWithoutLock (h : ViewInv c s) {number : Int} {b : Block H S T}
    (hblock : s.chain.getBlockByNumber number = some b) :
    ViewInv c (s.reportBlockWithoutLock c e b) ∧
      (((s.reportBlockWithoutLock c e b).view = s.view ∧
          (s.reportBlockWithoutLock c e b).toView = s.toView) ∨
        ((s.reportBlockWithoutLock c e b).view = 0 ∧ (s.reportBlockWithoutLock c e b).toView = 0 ∧
          s.highestBlock.number < (s.reportBlockWithoutLock c e b).highestBlock.number)) ∧
      EntersCertified s (s.reportBlockWithoutLock c e b) := by
  have hnode : NodeInv c (s.reportBlockWithoutLock c e b) := h.toNodeInv.reportBlockWithoutLock hblock
  have hcons := h.cons_eq
  have hnote : ∀ v reqs, .enteredView v reqs ∈ [(.reported b.header : Event H S T)] → False := by
    intro v reqs hev
    cases List.mem_singleton.mp hev
  rcases Node.reportBlockWithoutLock_cases c e s b with heq | ⟨-, hlow, heq⟩ | ⟨-, hold, heq⟩
  · rw [heq]
    exact ⟨h, .inl ⟨rfl, rfl⟩, .refl s⟩
  · rw [heq] at hnode ⊢
    refine ⟨⟨hnode, le_rfl, ?_⟩, .inr ⟨rfl, rfl, ?_⟩, [.reported b.header], rfl, ?_, ?_⟩
    · intro view idx req hreq
      obtain ⟨hreq, hhigh⟩ := high_of_removeInvalidEntry hreq
      have hold := h.requested view idx req hreq
      refine ⟨hold.view_eq, hold.idx_eq, hhigh, ?_⟩
      rcases hold.accepted with hown | haccepted
      · exact .inl (List.mem_cons_of_mem _ hown)
      · exact .inr (List.mem_cons_of_mem _ haccepted)
    · rw [hcons] at hlow
      exact Int.lt_of_add_one_le hlow
    · intro _ hpos
      exact absurd hpos (lt_irrefl 0)
    · intro v reqs hev
      exact absurd (hnote v reqs hev) id
  · rw [heq] at hnode ⊢
    refine ⟨⟨hnode, h.le_toView, ?_⟩, .inl ⟨rfl, rfl⟩, [.reported b.header], rfl, ?_, ?_⟩
    · intro view idx req hreq
      have hold' := h.requested view idx req hreq
      have hle : b.header.number ≤ s.highestBlock.number := by
        rw [hcons] at hold
        exact Int.lt_add_one_iff.mp hold
      refine ⟨hold'.view_eq, hold'.idx_eq, le_trans hle hold'.high, ?_⟩
      rcases hold'.accepted with hown | haccepted
      · exact .inl (List.mem_cons_of_mem _ hown)
      · exact .inr (List.mem_cons_of_mem _ haccepted)
    · intro hne
      exact absurd rfl hne
    · intro v reqs hev
      exact absurd (hnote v reqs hev) id

theorem checkAndChangeView (h : ViewInv c s) (hround : ViewRound i s₀ s) {v : Int}
    (hnode : NodeInv c (s.checkAndChangeView v).1) (hsealers : s.sealerList = s₀.sealerList)
    (hhighest : s.highestBlock = s₀.highestBlock)
    (hsize : s.minValidNodes ≤ s.cache.getViewChangeSize v % 65536)
    (hview : s.view < v ∨ v = s.toView) :
    ViewInv c (s.checkAndChangeView v).1 ∧ ViewRound i s₀ (s.checkAndChangeView v).1 := by
  have hle : s.view ≤ v := by
    rcases hview with hlt | heq
    · exact le_of_lt hlt
    · exact heq ▸ h.le_toView
  have hcert : ViewCertificate s₀ s.trace v
      (((s.cache.recvViewChangeReq.find? v).map AssocMap.entries).getD []) := by
    have hmin : s₀.minValidNodes = s.minValidNodes := by
      unfold Node.minValidNodes Node.f Node.nodeNum
      rw [hsealers]
    have hsize := le_trans hsize (Nat.mod_le _ _)
    rw [← hmin] at hsize
    unfold ReqCache.getViewChangeSize at hsize
    cases hm : s.cache.recvViewChangeReq.find? v with
    | none =>
      rw [hm] at hsize
      refine ⟨List.nodup_nil, hsize, ?_, ?_, ?_⟩
      · intro idx req hreq
        cases hreq
      · intro idx req hreq
        cases hreq
      · intro idx req hreq
        cases hreq
    | some m =>
      rw [hm] at hsize
      have hreq : ∀ idx req, (idx, req) ∈ m.entries → Requested s v idx req := by
        intro idx req hreq
        apply h.requested v idx req
        unfold ReqCache.viewChange?
        rw [hm]
        exact AssocMap.mem_entries_iff.mp hreq
      refine ⟨m.nodup, hsize, ?_, ?_, ?_⟩
      · intro idx req hmem
        exact ⟨(hreq idx req hmem).idx_eq, (hreq idx req hmem).view_eq⟩
      · intro idx req hmem
        rw [← hhighest]
        exact (hreq idx req hmem).high
      · intro idx req hmem
        exact (hreq idx req hmem).accepted
  unfold Node.checkAndChangeView at hnode ⊢
  rw [if_pos hsize] at hnode ⊢
  refine ⟨⟨hnode, le_rfl, ?_⟩, ?_, ?_⟩
  · intro view idx req hreq
    have hleft := ViewChangesIn.filter _ view idx req hreq
    exact (h.requested view idx req hleft).mono rfl fun ev hev => List.mem_cons_of_mem _ hev
  · intro hreport
    exact le_trans (hround.mono hreport) hle
  · obtain ⟨new, hnew, -, hold⟩ := hround.enters
    refine ⟨.enteredView v _ :: new, congrArg (_ :: ·) hnew, ?_, ?_⟩
    · intro _ _
      exact ⟨_, List.mem_cons_self ..⟩
    · intro v' reqs hev
      rcases List.mem_cons.mp hev with heq | hev
      · cases heq
        exact hcert.mono fun ev hev => List.mem_cons_of_mem _ hev
      · exact (hold v' reqs hev).mono fun ev hev => List.mem_cons_of_mem _ hev

theorem insertViewChange (h : ViewInv c s) (hround : ViewRound i s₀ s) {req : PBFTMsg H S}
    (hnode : NodeInv c (s.withCache (s.cache.insertViewChange req)))
    (horigin : .viewChange req ∈ s.trace ∨ .acceptedViewChange req ∈ s.trace)
    (hheight : s.highestBlock.number ≤ req.height) :
    ViewInv c (s.withCache (s.cache.insertViewChange req)) ∧
      ViewRound i s₀ (s.withCache (s.cache.insertViewChange req)) := by
  refine ⟨⟨hnode, h.le_toView, ?_⟩, hround.mono, hround.enters⟩
  intro view idx r hr
  change ((s.cache.recvViewChangeReq.insert req.view _).find? view).bind _ = _ at hr
  rw [AssocMap.find?_insert] at hr
  by_cases hv : view = req.view
  · rw [if_pos hv, Option.bind_some, AssocMap.find?_insert] at hr
    by_cases hidx : idx = req.idx
    · rw [if_pos hidx] at hr
      cases hr
      exact ⟨hv.symm, hidx.symm, hheight, horigin⟩
    · rw [if_neg hidx] at hr
      have hold : s.cache.viewChange? view idx = some r := by
        unfold ReqCache.viewChange?
        rw [hv]
        cases hm : s.cache.recvViewChangeReq.find? req.view with
        | none =>
          rw [hm] at hr
          cases hr
        | some m =>
          rw [hm] at hr
          exact hr
      exact (h.requested view idx r hold).mono rfl fun _ hev => hev
  · rw [if_neg hv] at hr
    exact (h.requested view idx r hr).mono rfl fun _ hev => hev

/-- **What a small step preserves.** -/
theorem smallStep (hwrap : noWrap s₀ i = true) (hstep : SmallStep c e i s₀ s s')
    (h : ViewInv c s) (hround : ViewRound i s₀ s) : ViewInv c s' ∧ ViewRound i s₀ s' := by
  have hnode := NodeInv.smallStep hstep h.toNodeInv
  cases hstep with
  | pending _ future raw same pfuture hfuture hraw hpfuture =>
    exact h.frame_quiet hround hnode rfl le_rfl rfl .refl rfl
  | note _ ev hev =>
    refine h.frame_emit hround hnode rfl le_rfl rfl .refl rfl ?_
    cases ev <;> trivial
  | takeRaw _ req htaken => exact h.frame_quiet hround hnode rfl le_rfl rfl .refl rfl
  | transRaw _ req p block htaken hi hprepare hfail =>
    exact h.frame_quiet hround hnode rfl le_rfl rfl .refl rfl
  | sign _ req b htaken hexec => exact h.frame_emit hround hnode rfl le_rfl rfl .refl rfl trivial
  | countSigns _ => exact h.frame_quiet hround hnode rfl le_rfl rfl .refl rfl
  | countCommits _ => exact h.frame_quiet hround hnode rfl le_rfl rfl .refl rfl
  | lock _ hsame hcfg hview hcause =>
    refine h.frame hround hnode rfl le_rfl rfl .refl ⟨[.commit _, .locked _], rfl, ?_⟩
    intro ev hev
    rcases List.mem_cons.mp hev with rfl | hev
    · trivial
    · rw [List.mem_singleton.mp hev]
      trivial
  | save _ b b' hsame hview hheight hblock hlist hcount =>
    rcases Node.saveBlock_cases c e s b' with ⟨-, heq⟩ | heq
    · rw [heq] at hnode ⊢
      exact h.frame_emit hround hnode rfl le_rfl rfl .refl rfl trivial
    · rw [heq] at hnode ⊢
      exact h.frame_emit hround hnode rfl le_rfl rfl .refl rfl trivial
  | addSign _ m => exact h.frame_quiet hround hnode rfl le_rfl rfl .refl rfl
  | addCommit m req req' hi hreq hcheck => exact h.frame_quiet hround hnode rfl le_rfl rfl .refl rfl
  | dropViewChanges _ q hdrops =>
    obtain ⟨recv, latest, hin, rfl⟩ := hdrops
    exact h.frame_quiet hround hnode rfl le_rfl rfl hin rfl
  | insertViewChange _ req horigin hheight => exact h.insertViewChange hround hnode horigin hheight
  | moveToView _ v failed hmove =>
    rcases hmove with hle | ⟨rfl, hmax⟩
    · exact h.frame_quiet hround hnode rfl hle rfl .refl rfl
    · unfold noWrap at hwrap
      exact absurd hmax (of_decide_eq_true hwrap)
  | enterView _ v hsealers hhighest hsize hview =>
    exact h.checkAndChangeView hround hnode hsealers hhighest hsize hview
  | report number b hi hblock =>
    obtain ⟨hinv, -, henters⟩ : ViewInv c (s₀.reportBlockWithoutLock c e b) ∧ _ :=
      h.reportBlockWithoutLock hblock
    refine ⟨hinv, ?_, henters⟩
    intro hreport
    exact absurd hi (hreport number)
  | collectGarbage hi =>
    refine h.frame_quiet hround hnode rfl le_rfl rfl ?_ rfl
    intro view idx req hreq
    exact (high_of_removeInvalidEntry hreq).1
  | resetConfig hi => exact h.frame_quiet hround hnode rfl le_rfl rfl .refl rfl
  | storeSynced _ b chain hi hchain => exact h.frame_quiet hround hnode rfl le_rfl rfl .refl rfl

theorem started (hs : Started s) : ViewInv c s := by
  have hnode : NodeInv c s := NodeInv.started hs
  obtain ⟨e, noSig, backup, chain, last, hnumbered, hlast, rfl⟩ := hs
  refine ⟨hnode, le_rfl, ?_⟩
  intro view idx req hreq
  cases hreq

/-- **What a step preserves and does.** -/
theorem step (h : ViewInv c s) (i : Env T × Input H S T) (hwrap : noWrap s i.2 = true) :
    ViewInv c ((engine c).step s i) ∧ ViewStep c s i := by
  have hs : (fun t => ViewInv c t ∧ ViewRound i.2 s t) s := ⟨h, fun _ => le_rfl, .refl s⟩
  obtain ⟨hinv, hround⟩ := (engine_madeOf c).step_invariant (i := i)
    (fun t u hstep ht => smallStep hwrap hstep ht.1 ht.2) hs
  refine ⟨hinv, hinv.le_toView, hround.mono, ?_, hround.enters⟩
  obtain ⟨e, i⟩ := i
  rintro number hi
  change i = .reportBlock number at hi
  subst hi
  change ((s.reportBlock c e number).view = s.view ∧ (s.reportBlock c e number).toView = s.toView) ∨
    ((s.reportBlock c e number).view = 0 ∧ (s.reportBlock c e number).toView = 0 ∧
      s.highestBlock.number < (s.reportBlock c e number).highestBlock.number)
  unfold Node.reportBlock
  cases hblock : s.chain.getBlockByNumber number with
  | none => exact .inl ⟨rfl, rfl⟩
  | some b => exact (h.reportBlockWithoutLock hblock).2.1

end ViewInv

end ViewChange

/-- The view-change request of the sealer at `idx` on top of a block. -/
def viewChangeOf (idx : Nat) (view : Int) (b : Block Term Term Nat) : Input Term Term Nat :=
  .viewChangeReqPacket idx (ownMsg (sealerConfig (idx + 1)) 0 b.header.number view idx (hashOf b))

/-- Two requests on top of the genesis block arrive, then the fourth sealer
    commits a first block. -/
def commitAfterRequests : List (Env Nat × Input Term Term Nat) :=
  quietly ([viewChangeOf 0 1 genesis, viewChangeOf 1 1 genesis] ++ fullRound (blockOn genesis 7 [5]))

/-- Every view was entered with less than a quorum of requests at or above the
    chain of the node in state `s`. -/
def entersBelowChain (s : Node Term Term Nat) (trace : List (Event Term Term Nat)) : Bool :=
  trace.all fun
    | .enteredView _ reqs =>
      decide ((reqs.filter fun e => decide (s.chain.number ≤ e.2.height)).length < s.minValidNodes)
    | _ => true

end HieraChain.PBFT
