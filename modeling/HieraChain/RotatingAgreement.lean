/-
  HieraChain/RotatingAgreement.lean
  =================================
  **Whether the nodes of rPBFT agree on their committee.**

  The calls of `resetConfig` after which an engine stands at the committee of
  the height (`CallOk`, `settled_resetConfig`) are those that do not come two
  intervals late, do not find an epoch size left from more sealers, do not start
  from the round `-1` and do not start with sealers that were never counted.  Two
  nodes whose calls are all such hold the same committee at the same height, and
  its leaders are members (`committee_agreement`); all take the same member for the
  leader of a view (`one_leader`).  One late call is enough for two nodes to differ
  (`late_call_disagrees`).
-/
import HieraChain.RotatingCommittee

namespace HieraChain.RotatingPBFT

variable {NodeID : Type} {c : Chain NodeID} {number : Nat}

section
variable [LinearOrder NodeID] [Zero NodeID] {s : Engine NodeID} {pub : NodeID}

/-! ### One call -/

/-- The conditions under which a call brings the engine to the committee of the
    height. -/
structure CallOk (c : Chain NodeID) (number : Nat) (s : Engine NodeID) : Prop where
  begun : Begun c number
  keepsUp : c.epochBlockNum number = s.rotatingInterval → c.enableNumber number = s.rotatingIntervalEnableNumber →
    number - c.enableNumber number - s.rotatingRound * c.epochBlockNum number < 2 * c.epochBlockNum number
  epochFits : c.epochSealerNum number = s.epochSize → c.epochSealerNum number ≤ c.sealersNum number
  counted : s.sealersNum = 0 → c.sealerList number ≠ s.sealerList ∨ number = s.lastSealerListUpdateNumber
  indexed : c.sealersNum number ≤ MAXIDX
  leaving : c.epochBlockNum number = s.rotatingInterval → c.enableNumber number = s.rotatingIntervalEnableNumber →
    c.epochBlockNum number ≤ number - c.enableNumber number - s.rotatingRound * c.epochBlockNum number →
    c.sealer number s.rotatingRound ≠ 0

structure Fresh (s : Engine NodeID) : Prop where
  sealersNum : s.sealersNum = 0
  updated : s.sealerListUpdated = true
  interval : s.rotatingInterval = -1
  epoch : s.epochSize = -1
  round : s.rotatingRound = 0
  published : s.chosedSealerList = s.chosedConsensusNodes.sort
  cache : s.systemConfigRecord = fun _ => none

structure Settled (c : Chain NodeID) (pub : NodeID) (number : Nat) (s : Engine NodeID) : Prop extends
    Aligned c number s where
  indexed : c.sealersNum number ≤ MAXIDX
  time : OnTime c number s.rotatingRound
  round : s.rotatingRound = c.round number
  f : s.f = c.faults number
  list : s.consensusList = (c.committee number).sort
  located : s.locatedInConsensusNodes = decide (pub ∈ c.committee number)
  nodeNum : s.nodeNum = c.sealersNum number
  cfgErr : s.cfgErr = decide (pub ∉ c.sealerList number)

def Ready (c : Chain NodeID) (pub : NodeID) (number : Nat) (s : Engine NodeID) : Prop :=
  Fresh s ∨ ∃ before ≤ number, Settled c pub before s

theorem Settled.chosed_eq (h : Settled c pub number s) : s.chosedConsensusNodes = c.committee number := by
  rw [h.chosed, h.round]
  rfl

omit [Zero NodeID] in
theorem updateConsensusInfo_eq (hcard : s.chosedConsensusNodes.card > 0)
    (hpublished : s.chosedConsNodeChanged = true ∨ s.chosedSealerList = s.chosedConsensusNodes.sort) :
    s.updateConsensusInfo
      = { s with chosedSealerList := s.chosedConsensusNodes.sort, chosedConsNodeChanged := false } := by
  unfold Engine.updateConsensusInfo
  cases hchanged : s.chosedConsNodeChanged with
  | true =>
    rw [if_neg (by simp), if_pos hcard]
  | false =>
    rw [if_pos (by simp), ← hpublished.resolve_left (by simp [hchanged]), ← hchanged]

theorem settled_publish (h : Aligned c number s) (hbegun : Begun c number)
    (hindexed : c.sealersNum number ≤ MAXIDX) (hround : s.rotatingRound = c.round number)
    (hf : s.f = c.faults number) (hnodeNum : s.nodeNum = c.sealersNum number)
    (hcfgErr : s.cfgErr = decide (pub ∉ c.sealerList number)) :
    Settled c pub number (s.updateConsensusInfo.resetLocatedInConsensusNodes pub) := by
  have hchosed : s.chosedConsensusNodes = c.committee number := by
    rw [h.chosed, hround]
    rfl
  have hcard : s.chosedConsensusNodes.card > 0 := by
    rw [hchosed, c.card_committee]
    exact c.epochSize_pos number
  rw [updateConsensusInfo_eq hcard h.published]
  exact
    { toAligned := ⟨⟨h.cache, h.sealerList, h.interval, h.enable, h.nonneg, .inr rfl⟩, ⟨h.start, h.chosed⟩, h.sealers,
        h.epoch⟩
      indexed := hindexed
      time := hround ▸ onTime_round hbegun
      round := hround
      f := hf
      list := by rw [← hchosed]; rfl
      located := by rw [Engine.resetLocatedInConsensusNodes, hchosed]
      nodeNum := hnodeNum
      cfgErr := hcfgErr }

/-- What a call relies on that has read the sealers and the interval: whether
    the sealers have changed, whether the interval has, and the round. -/
structure Carried (c : Chain NodeID) (number : Nat) (s : Engine NodeID) (changed updated : Bool) (round : Int) : Prop where
  cache : CacheOk c s.systemConfigRecord
  published : s.chosedConsNodeChanged = true ∨ s.chosedSealerList = s.chosedConsensusNodes.sort
  time : OnTime c number round
  leaving : c.epochBlockNum number ≤ number - c.enableNumber number - round * c.epochBlockNum number →
    c.sealer number round ≠ 0
  first : s.startNodeIdx = -1 → round = c.round number
  counted : changed = true ∨ s.sealersNum = c.sealersNum number
  kept : changed = false → updated = false → s.epochSize = c.epochSize number →
    s.startNodeIdx = round % c.sealersNum number
      ∧ s.chosedConsensusNodes = window (c.sealer number) round (c.epochSize number)

omit [LinearOrder NodeID] [Zero NodeID] in
theorem round_not_due (hbegun : Begun c number) :
    ¬ c.epochBlockNum number ≤ number - c.enableNumber number - c.round number * c.epochBlockNum number := by
  intro hle
  have := round_eq_of_le hbegun (onTime_round hbegun) hle
  omega

theorem Fresh.carried (h : Fresh s) (ok : CallOk c number s) {changed : Bool}
    (hchanged : s.sealerListUpdated = true → c.sealerList number ≠ s.sealerList ∨ number = s.lastSealerListUpdateNumber →
      changed = true) : Carried c number s changed true (c.round number) where
  cache := by
    intro key record hrecord
    rw [h.cache] at hrecord
    cases hrecord
  published := .inr h.published
  time := onTime_round ok.begun
  leaving hle := absurd hle (round_not_due ok.begun)
  first _ := rfl
  counted := .inl (hchanged h.updated (ok.counted h.sealersNum))
  kept _ hupdated := by cases hupdated

theorem Settled.carried {before : Nat} (h : Settled c pub before s) (hle : before ≤ number) (ok : CallOk c number s)
    {changed updated : Bool} (hchanged : changed = false → c.sealerList number = s.sealerList)
    (hupdated : updated = false ↔
      c.epochBlockNum number = s.rotatingInterval ∧ c.enableNumber number = s.rotatingIntervalEnableNumber) :
    Carried c number s changed updated (if updated then c.round number else s.rotatingRound) := by
  have hlist : changed = false → c.sealerList number = c.sealerList before := fun hfalse =>
    (hchanged hfalse).trans h.sealerList
  have hnum : changed = false → c.sealersNum number = c.sealersNum before := fun hfalse =>
    congrArg List.length (hlist hfalse)
  refine ⟨h.cache, h.published, ?_, ?_, ?_, ?_, ?_⟩
  · cases updated with
    | true => exact onTime_round ok.begun
    | false =>
      obtain ⟨hinterval, henable⟩ := hupdated.mp rfl
      refine ⟨h.nonneg, ?_, ok.keepsUp hinterval henable⟩
      rcases h.time.reached with hreached | hzero
      · left
        rw [hinterval, henable, h.interval, h.enable]
        refine le_trans hreached ?_
        omega
      · exact .inr hzero
  · cases updated with
    | true => exact fun hdue => absurd hdue (round_not_due ok.begun)
    | false =>
      obtain ⟨hinterval, henable⟩ := hupdated.mp rfl
      exact ok.leaving hinterval henable
  · intro hstart
    have hpos := c.sealersNum_pos before
    have hnonneg := Int.emod_nonneg s.rotatingRound (show (c.sealersNum before : Int) ≠ 0 by omega)
    rw [h.start] at hstart
    omega
  · cases hcase : changed with
    | true => exact .inl rfl
    | false => exact .inr (by rw [h.sealers, hnum hcase])
  · rintro hfalse rfl hepoch
    have hsize : c.epochSize number = c.epochSize before := by
      rw [h.epoch] at hepoch
      exact_mod_cast hepoch.symm
    have hsealer : c.sealer number = c.sealer before := by
      unfold Chain.sealer
      rw [hlist hfalse]
    rw [if_neg (by simp), hnum hfalse, hsize, hsealer]
    exact ⟨h.start, h.chosed⟩

/-- **A call brings an engine to the committee of the height.** -/
theorem settled_resetConfig (h : Ready c pub number s) (ok : CallOk c number s) :
    ∃ s', s.resetConfig c pub number = some s' ∧ Settled c pub number s' := by
  obtain ⟨changed, last, nodeNum, f, cfgErr, hbase, hsame, hchanged, hindex⟩ := baseResetConfig_spec c pub number s
  obtain ⟨hnodeNum, hcfgErr⟩ := hindex ok.indexed
  have hcache : CacheOk c s.systemConfigRecord := by
    rcases h with h | ⟨before, -, h⟩
    · intro key record hrecord
      rw [h.cache] at hrecord
      cases hrecord
    · exact h.cache
  obtain ⟨s₁, hs₁⟩ : ∃ s₁, s₁ =
      { s with
        sealerList := c.sealerList number, sealerListUpdated := changed, lastSealerListUpdateNumber := last
        nodeNum := nodeNum, f := f, cfgErr := cfgErr } := ⟨_, rfl⟩
  obtain ⟨updated, cache, hcache', hinterval, hupdated⟩ :=
    updateRotatingInterval_spec (s := s₁) (by rw [hs₁]; exact hcache) number
  have hupdated : updated = false ↔
      c.epochBlockNum number = s.rotatingInterval ∧ c.enableNumber number = s.rotatingIntervalEnableNumber := by
    rw [hupdated, hs₁]
  obtain ⟨round, hround⟩ : ∃ round, round = if updated then c.round number else s.rotatingRound := ⟨_, rfl⟩
  have hcarried : Carried c number s changed updated round := by
    rw [hround]
    rcases h with h | ⟨before, hle, h⟩
    · obtain rfl : updated = true := by
        have := c.one_le_epochBlockNum number
        rw [← Bool.not_eq_false, hupdated, h.interval]
        omega
      exact h.carried ok hchanged
    · exact h.carried hle ok hsame hupdated
  have hquotient : (if updated then quotient (number - c.enableNumber number) (c.epochBlockNum number)
      else some s₁.rotatingRound) = some round := by
    have := c.one_le_epochBlockNum number
    rw [hround, hs₁]
    cases updated with
    | true =>
      rw [if_pos rfl, if_pos rfl, quotient, if_neg (by omega)]
      rfl
    | false => rfl
  obtain ⟨s₂, hs₂⟩ : ∃ s₂, s₂ =
      { s₁ with
        systemConfigRecord := cache, rotatingInterval := c.epochBlockNum number
        rotatingIntervalEnableNumber := c.enableNumber number, rotatingIntervalUpdated := updated
        rotatingRound := round } := ⟨_, rfl⟩
  have hinformed : Informed c number s₂ := by
    rw [hs₂, hs₁]
    exact ⟨hcache', rfl, rfl, rfl, hcarried.time.nonneg, hcarried.published⟩
  obtain ⟨s₃, hreset, haligned, hround₃, hnodeNum₃, hcfgErr₃⟩ := resetChosedConsensusNodes_spec hinformed
    (by rw [hs₂, hs₁]; exact hcarried.counted) (by rw [hs₂, hs₁]; exact ok.epochFits)
    (by rw [hs₂, hs₁]; exact hcarried.first) (by
      intro hfalse hfalse' hepoch
      rw [hs₂, hs₁] at hfalse hfalse' hepoch
      obtain ⟨hstart, hchosed⟩ := hcarried.kept hfalse hfalse' hepoch
      rw [hs₂, hs₁]
      exact ⟨hstart, hchosed⟩)
  have hround₃ : s₃.rotatingRound = round := hround₃.trans (by rw [hs₂])
  obtain ⟨s₄, hs₄⟩ : ∃ s₄, s₄ =
      { s₃ with f := toIDXTYPE (min ((s₃.epochSize - 1).tdiv 3) ((s₃.sealersNum - 1).tdiv 3)) } := ⟨_, rfl⟩
  have haligned₄ : Aligned c number s₄ := by
    rw [hs₄]
    exact ⟨⟨haligned.cache, haligned.sealerList, haligned.interval, haligned.enable, haligned.nonneg, haligned.published⟩,
      ⟨haligned.start, haligned.chosed⟩, haligned.sealers, haligned.epoch⟩
  have hround₄ : s₄.rotatingRound = round := by rw [hs₄]; exact hround₃
  obtain ⟨s₅, hchoose, haligned₅, hround₅, hf₅, hnodeNum₅, hcfgErr₅⟩ := chooseConsensusNodes_spec haligned₄ ok.begun
    (by rw [hround₄]; exact hcarried.time) ok.indexed (by rw [hround₄]; exact hcarried.leaving)
  refine ⟨s₅.updateConsensusInfo.resetLocatedInConsensusNodes pub, ?_,
    settled_publish haligned₅ ok.begun ok.indexed hround₅ ?_ ?_ ?_⟩
  · unfold Engine.resetConfig
    simp only [hbase, ← hs₁, hinterval, hquotient, Option.bind_eq_bind, Option.bind_some]
    rw [← hs₂]
    simp only [hreset, Option.bind_some, ← hs₄, hchoose]
    rfl
  · rw [hf₅, hs₄, Chain.faults, haligned.epoch, haligned.sealers]
  · rw [hnodeNum₅, hs₄]
    refine hnodeNum₃.trans ?_
    rw [hs₂, hs₁]
    exact hnodeNum
  · rw [hcfgErr₅, hs₄]
    refine hcfgErr₃.trans ?_
    rw [hs₂, hs₁]
    exact hcfgErr

/-! ### The leader -/

/-- **The leader is a member of the committee.** -/
theorem Settled.selectLeader_spec (h : Settled c pub number s) {view : Int} (hview : 0 ≤ view) (hbound : view + number < 2 ^ 63) :
    ∃ leader, s.selectLeader number view = some leader
      ∧ s.getNodeIDByIndex leader = c.sealer number (c.round number + (view + number) % c.epochSize number)
      ∧ s.getNodeIDByIndex leader ∈ c.committee number := by
  have hpos := c.sealersNum_pos number
  have hepoch := c.epochSize_pos number
  have hepochLe := c.epochSize_le number
  have hmax : c.sealersNum number ≤ 65535 := h.indexed
  obtain ⟨index, hindex⟩ : ∃ index, index = (view + number) % c.epochSize number := ⟨_, rfl⟩
  have hindexNonneg : 0 ≤ index := hindex ▸ Int.emod_nonneg _ (by omega)
  have hindexLt : index < c.epochSize number := hindex ▸ Int.emod_lt_of_pos _ (by omega)
  have hsum : remainder (Int.bmod (view + number) (2 ^ 64)) s.epochSize = some index := by
    rw [Int.bmod_eq_of_le (by omega) (by omega), h.epoch, remainder_of_nonneg (by omega) hepoch, hindex]
  have hstartNonneg := Int.emod_nonneg s.rotatingRound (show (c.sealersNum number : Int) ≠ 0 by omega)
  have hstartLt := Int.emod_lt_of_pos s.rotatingRound (show 0 < (c.sealersNum number : Int) by omega)
  have hleader : remainder ((s.startNodeIdx + index) % 2 ^ 64) (s.sealersNum % 2 ^ 64)
      = some ((c.round number + index) % c.sealersNum number) := by
    have hsmall : (s.rotatingRound % c.sealersNum number + index) % 2 ^ 64
        = s.rotatingRound % c.sealersNum number + index := Int.emod_eq_of_lt (by omega) (by omega)
    have hsealers : (c.sealersNum number : Int) % 2 ^ 64 = c.sealersNum number := Int.emod_eq_of_lt (by omega) (by omega)
    rw [h.start, h.sealers, hsmall, hsealers, remainder_of_nonneg (by omega) hpos, Int.emod_add_emod, h.round]
  have hidx : (toIDXTYPE ((c.round number + index) % c.sealersNum number) : Int)
      = (c.round number + index) % c.sealersNum number := by
    have hnonneg := Int.emod_nonneg (c.round number + index) (show (c.sealersNum number : Int) ≠ 0 by omega)
    have hlt := Int.emod_lt_of_pos (c.round number + index) (show 0 < (c.sealersNum number : Int) by omega)
    unfold toIDXTYPE
    omega
  have hnode : s.getNodeIDByIndex (toIDXTYPE ((c.round number + index) % c.sealersNum number))
      = c.sealer number (c.round number + index) := by
    rw [hidx, getNodeIDByIndex_spec h.sealerList]
  refine ⟨toIDXTYPE ((c.round number + index) % c.sealersNum number), ?_, ?_, ?_⟩
  · unfold Engine.selectLeader
    simp only [hsum, hleader, Option.bind_eq_bind, Option.bind_some]
    rfl
  · rw [hnode, hindex]
  · rw [hnode, Chain.committee, mem_window]
    refine ⟨index.toNat, by omega, ?_⟩
    rw [Int.toNat_of_nonneg hindexNonneg]

theorem Settled.getLeader_eq (h : Settled c pub number s) (failed : Bool) (view : Int) :
    s.getLeader number failed view
      = if pub ∈ c.committee number ∧ failed = false then (s.selectLeader number view).map fun leader => (true, leader)
        else some (false, MAXIDX) := by
  unfold Engine.getLeader
  by_cases hmem : pub ∈ c.committee number
  · have hsealer : pub ∈ c.sealerList number := by
      obtain ⟨i, -, hi⟩ := mem_window.mp hmem
      rw [← hi]
      exact cycleAt_mem 0 (c.sealerList_ne_nil number) _
    have hpos := c.sealersNum_pos number
    have hnum : s.nodeNum ≠ 0 := by
      rw [h.nodeNum]
      omega
    cases failed <;> simp [h.located, h.cfgErr, hmem, hsealer, hnum]
  · simp [h.located, hmem]

/-! ### Two nodes -/

/-- Two engines have the same committee at a height, and its leaders are members. -/
structure Agree (number : Nat) (s s' : Engine NodeID) : Prop where
  sealers : s.sealerList = s'.sealerList
  chosed : s.chosedConsensusNodes = s'.chosedConsensusNodes
  list : s.consensusList = s'.consensusList
  start : s.startNodeIdx = s'.startNodeIdx
  epoch : s.epochSize = s'.epochSize
  f : s.f = s'.f
  quorum : s.minValidNodes = s'.minValidNodes
  leader : ∀ view, s.selectLeader number view = s'.selectLeader number view
  leads : ∀ view : Int, 0 ≤ view → view + number < 2 ^ 63 →
    ∃ leader, s.selectLeader number view = some leader ∧ s.getNodeIDByIndex leader ∈ s.chosedConsensusNodes

def Agreement (a b : Node NodeID) : Prop :=
  ∃ s s', a.engine = some s ∧ b.engine = some s' ∧ Agree a.number s s'

theorem Settled.agree {pub' : NodeID} {s' : Engine NodeID} (h : Settled c pub number s) (h' : Settled c pub' number s') :
    Agree number s s' where
  sealers := h.sealerList.trans h'.sealerList.symm
  chosed := h.chosed_eq.trans h'.chosed_eq.symm
  list := h.list.trans h'.list.symm
  start := by rw [h.start, h'.start, h.round, h'.round]
  epoch := h.epoch.trans h'.epoch.symm
  f := h.f.trans h'.f.symm
  quorum := by
    unfold Engine.minValidNodes
    rw [h.epoch, h'.epoch, h.sealers, h'.sealers, h.f, h'.f]
  leader view := by
    unfold Engine.selectLeader
    rw [h.epoch, h'.epoch, h.start, h'.start, h.round, h'.round, h.sealers, h'.sealers]
  leads view hview hbound := by
    obtain ⟨leader, hleader, -, hmem⟩ := h.selectLeader_spec hview hbound
    exact ⟨leader, hleader, h.chosed_eq ▸ hmem⟩

def StepOk (c : Chain NodeID) (node : Node NodeID) (blocks : Nat) : Prop :=
  ∀ s, node.engine = some s → CallOk c (node.number + blocks) s

instance (c : Chain NodeID) (number : Nat) (s : Engine NodeID) : Decidable (CallOk c number s) :=
  decidable_of_iff
    ((¬ (c.epochBlockNum number = 1 ∧ c.enableNumber number = number + 1))
      ∧ (c.epochBlockNum number = s.rotatingInterval → c.enableNumber number = s.rotatingIntervalEnableNumber →
        number - c.enableNumber number - s.rotatingRound * c.epochBlockNum number < 2 * c.epochBlockNum number)
      ∧ (c.epochSealerNum number = s.epochSize → c.epochSealerNum number ≤ c.sealersNum number)
      ∧ (s.sealersNum = 0 → c.sealerList number ≠ s.sealerList ∨ number = s.lastSealerListUpdateNumber)
      ∧ c.sealersNum number ≤ MAXIDX
      ∧ (c.epochBlockNum number = s.rotatingInterval → c.enableNumber number = s.rotatingIntervalEnableNumber →
        c.epochBlockNum number ≤ number - c.enableNumber number - s.rotatingRound * c.epochBlockNum number →
        c.sealer number s.rotatingRound ≠ 0))
    ⟨fun ⟨h₁, h₂, h₃, h₄, h₅, h₆⟩ => ⟨h₁, h₂, h₃, h₄, h₅, h₆⟩, fun ⟨h₁, h₂, h₃, h₄, h₅, h₆⟩ => ⟨h₁, h₂, h₃, h₄, h₅, h₆⟩⟩

instance (c : Chain NodeID) (node : Node NodeID) (blocks : Nat) : Decidable (StepOk c node blocks) :=
  match hnode : node.engine with
  | none => isTrue fun s hs => by rw [hnode] at hs; cases hs
  | some s => decidable_of_iff (CallOk c (node.number + blocks) s) (by simp [StepOk, hnode])

/-- A node is up, before its first call or at the committee of its height. -/
def Up (c : Chain NodeID) (pub : NodeID) (node : Node NodeID) : Prop :=
  ∃ s, node.engine = some s ∧ Ready c pub node.number s

def Stands (c : Chain NodeID) (pub : NodeID) (node : Node NodeID) : Prop :=
  ∃ s, node.engine = some s ∧ Settled c pub node.number s

theorem up_start (c : Chain NodeID) (pub : NodeID) (sealerList : List NodeID) (number : Nat) :
    Up c pub (.start sealerList number) :=
  ⟨_, rfl, .inl ⟨rfl, rfl, rfl, rfl, rfl, (Finset.sort_empty _).symm, rfl⟩⟩

theorem Stands.up {node : Node NodeID} (h : Stands c pub node) : Up c pub node := by
  obtain ⟨s, hs, hsettled⟩ := h
  exact ⟨s, hs, .inr ⟨node.number, le_rfl, hsettled⟩⟩

theorem stands_step {node : Node NodeID} {blocks : Nat} (h : Up c pub node) (ok : StepOk c node blocks) :
    Stands c pub ((machine c pub).step node blocks) := by
  obtain ⟨s, hs, hready⟩ := h
  have hready' : Ready c pub (node.number + blocks) s := by
    rcases hready with hfresh | ⟨before, hle, hsettled⟩
    · exact .inl hfresh
    · exact .inr ⟨before, by omega, hsettled⟩
  obtain ⟨s', hreset, hsettled⟩ := settled_resetConfig hready' (ok s hs)
  refine ⟨s', ?_, hsettled⟩
  show node.engine.bind _ = _
  rw [hs]
  exact hreset

/-- **After a run of calls that the conditions cover, a node stands at the
    committee of its height.** -/
theorem stands_run {sealerList : List NodeID} {height first : Nat} {calls : List Nat}
    (hrun : (machine c pub).RunOk (StepOk c) (.start sealerList height) (first :: calls)) :
    Stands c pub ((machine c pub).run (.start sealerList height) (first :: calls)) := by
  have hfirst := stands_step (up_start c pub sealerList height) hrun.1
  show Stands c pub ((machine c pub).run ((machine c pub).step (.start sealerList height) first) calls)
  exact Machine.run_invariant (machine c pub) (fun _ _ hstands hok => stands_step hstands.up hok) hfirst hrun.2

/-- **Two nodes at the same height agree**, whatever the calls that brought them
    there, if the conditions cover these. -/
theorem committee_agreement (c : Chain NodeID) (pub pub' : NodeID) (sealerList sealerList' : List NodeID)
    (height height' first first' : Nat) (calls calls' : List Nat)
    (hrun : (machine c pub).RunOk (StepOk c) (.start sealerList height) (first :: calls))
    (hrun' : (machine c pub').RunOk (StepOk c) (.start sealerList' height') (first' :: calls'))
    (hnumber : ((machine c pub).run (.start sealerList height) (first :: calls)).number
      = ((machine c pub').run (.start sealerList' height') (first' :: calls')).number) :
    Agreement ((machine c pub).run (.start sealerList height) (first :: calls))
      ((machine c pub').run (.start sealerList' height') (first' :: calls')) := by
  obtain ⟨s, hs, hsettled⟩ := stands_run hrun
  obtain ⟨s', hs', hsettled'⟩ := stands_run hrun'
  rw [← hnumber] at hsettled'
  exact ⟨s, s', hs, hs', hsettled.agree hsettled'⟩

def Chain.leader (c : Chain NodeID) (number : Nat) (view : Int) : NodeID :=
  c.sealer number (c.round number + (view + number) % c.epochSize number)

/-- **One leader.**  Whatever the calls that brought a node to a height, if the conditions
    cover them: a member of the committee takes the same member for the leader of a
    view as every other, and a node that is no member takes none. -/
theorem one_leader (c : Chain NodeID) (pub : NodeID) (sealerList : List NodeID) (height first : Nat) (calls : List Nat)
    (hrun : (machine c pub).RunOk (StepOk c) (.start sealerList height) (first :: calls)) {number : Nat}
    (hnumber : ((machine c pub).run (.start sealerList height) (first :: calls)).number = number) {view : Int}
    (hview : 0 ≤ view) (hbound : view + number < 2 ^ 63) :
    c.leader number view ∈ c.committee number ∧
    ∃ s, ((machine c pub).run (.start sealerList height) (first :: calls)).engine = some s ∧
      (pub ∈ c.committee number → ∃ idx, s.getLeader number false view = some (true, idx) ∧
        s.getNodeIDByIndex idx = c.leader number view) ∧
      (pub ∉ c.committee number → s.getLeader number false view = some (false, MAXIDX)) := by
  subst hnumber
  obtain ⟨s, hs, hsettled⟩ := stands_run hrun
  obtain ⟨leader, hleader, hturn, hmember⟩ := hsettled.selectLeader_spec hview hbound
  refine ⟨?_, s, hs, fun hmem => ⟨leader, ?_, hturn⟩, fun hmem => ?_⟩
  · rw [Chain.leader, ← hturn]
    exact hmember
  · rw [hsettled.getLeader_eq, if_pos ⟨hmem, rfl⟩, hleader]
    rfl
  · rw [hsettled.getLeader_eq, if_neg fun h => hmem h.1]

end

/-- Four sealers, two of them in the committee, and one leaves every two blocks. -/
def fourSealers : Chain Nat where
  genesisSealers := ⟨[3, 1, 4, 2], by decide, by decide⟩
  genesisConfig _ := ⟨2, by decide⟩
  block _ := ⟨none, fun _ => none⟩

/-- One node follows the blocks one by one, the other starts at the height. -/
theorem committee_agreement_small :
    Agreement ((machine fourSealers 1).run (.start [] 0) [0, 1, 1, 1, 1]) ((machine fourSealers 2).run (.start [] 4) [0]) :=
  committee_agreement fourSealers 1 2 [] [] 0 4 0 0 [1, 1, 1, 1] [] (by decide +kernel) (by decide +kernel) rfl

theorem one_leader_small :
    fourSealers.leader 4 3 ∈ fourSealers.committee 4 ∧
    ∃ s, ((machine fourSealers 1).run (.start [] 0) [0, 1, 1, 1, 1]).engine = some s ∧
      (1 ∈ fourSealers.committee 4 → ∃ idx, s.getLeader 4 false 3 = some (true, idx) ∧
        s.getNodeIDByIndex idx = fourSealers.leader 4 3) ∧
      (1 ∉ fourSealers.committee 4 → s.getLeader 4 false 3 = some (false, MAXIDX)) :=
  one_leader fourSealers 1 [] 0 0 [1, 1, 1, 1] (by decide +kernel) rfl (by decide) (by decide)

/-- A node whose blocks come four at once has moved its committee once, the others
    twice. -/
theorem late_call_disagrees : ¬ ∀ (c : Chain Nat) (pub pub' : Nat) (sealerList sealerList' : List Nat)
    (height height' first first' : Nat) (calls calls' : List Nat),
    ((machine c pub).run (.start sealerList height) (first :: calls)).number
      = ((machine c pub').run (.start sealerList' height') (first' :: calls')).number →
    Agreement ((machine c pub).run (.start sealerList height) (first :: calls))
      ((machine c pub').run (.start sealerList' height') (first' :: calls')) := by
  intro h
  obtain ⟨s, s', hs, hs', hagree⟩ := h fourSealers 1 2 [] [] 0 0 0 0 [1, 1, 1, 1] [4] rfl
  have hstart : ((machine fourSealers 1).run (.start [] 0) [0, 1, 1, 1, 1]).engine.map Engine.startNodeIdx = some 2 := by
    decide +kernel
  have hstart' : ((machine fourSealers 2).run (.start [] 0) [0, 4]).engine.map Engine.startNodeIdx = some 1 := by
    decide +kernel
  rw [hs] at hstart
  rw [hs'] at hstart'
  have heq := hagree.start
  rw [Option.some.inj hstart, Option.some.inj hstart'] at heq
  exact absurd heq (by decide)

end HieraChain.RotatingPBFT
