/-
  HieraChain/RotatingCommittee.lean
  =================================
  **The committee of a height, and how the parts of `resetConfig` move to it.**

  The committee of a height is a function of the chain: the round is the number
  of whole intervals since the enable number, and the members are the nodes of
  one epoch from the round on, round the sorted sealers.  Each part of
  `resetConfig` has its lemma: `resetChosedConsensusNodes` seats the nodes of an
  epoch from the engine's round on, or keeps them, and `chooseConsensusNodes`
  takes a round that is on time to the round of the height.  It moves by one
  node at most, and an engine that comes later than that stays behind.
-/
import HieraChain.RotatingPBFTEngine
import Mathlib.Tactic.Linarith

namespace HieraChain.RotatingPBFT

variable {NodeID : Type}

/-! ### What a chain says at a height -/

namespace Chain

variable (c : Chain NodeID) (number : Nat)

def epochSealerNum : Int := ((c.tables number).row .rpbft_epoch_sealer_num).value

def epochBlockNum : Int := ((c.tables number).row .rpbft_epoch_block_num).value

def enableNumber : Int := ((c.tables number).row .rpbft_epoch_block_num).enableNumber

def round : Int := (number - c.enableNumber number).tdiv (c.epochBlockNum number)

theorem row_enableNumber_le (key : ConfigKey) : ((c.tables number).row key).enableNumber ≤ number + 1 := by
  induction number with
  | zero =>
    show (0 : Int) ≤ (0 : Nat) + 1
    simp
  | succ number ih =>
    simp only [tables]
    push_cast
    split
    · exact le_rfl
    · omega

theorem enableNumber_le : c.enableNumber number ≤ number + 1 := c.row_enableNumber_le number _

theorem one_le_epochSealerNum : 1 ≤ c.epochSealerNum number := ((c.tables number).row _).value.2

theorem one_le_epochBlockNum : 1 ≤ c.epochBlockNum number := ((c.tables number).row _).value.2

section
variable [LinearOrder NodeID]

def sealerList : List NodeID := (c.tables number).sealers.nodes.insertionSort (· ≤ ·)

def sealersNum : Nat := (c.sealerList number).length

def epochSize : Nat := min (c.epochSealerNum number).toNat (c.sealersNum number)

theorem sealerList_ne_nil : c.sealerList number ≠ [] := by
  intro h
  have hperm := (c.tables number).sealers.nodes.perm_insertionSort (· ≤ ·)
  rw [show List.insertionSort (· ≤ ·) (c.tables number).sealers.nodes = [] from h] at hperm
  exact (c.tables number).sealers.nonempty hperm.nil_eq.symm

theorem sealerList_nodup : (c.sealerList number).Nodup :=
  ((c.tables number).sealers.nodes.perm_insertionSort (· ≤ ·)).nodup_iff.mpr (c.tables number).sealers.distinct

theorem sealersNum_pos : 0 < c.sealersNum number := List.length_pos_of_ne_nil (c.sealerList_ne_nil number)

theorem epochSize_pos : 0 < c.epochSize number := by
  have := c.one_le_epochSealerNum number
  have := c.sealersNum_pos number
  unfold epochSize
  omega

theorem epochSize_le : c.epochSize number ≤ c.sealersNum number := min_le_right ..

variable [Zero NodeID]

def sealer : Int → NodeID := cycleAt 0 (c.sealerList number)

theorem cyclic_sealer : Cyclic (c.sealer number) (c.sealersNum number) :=
  Cyclic.cycleAt 0 (c.sealerList_ne_nil number) (c.sealerList_nodup number)

def faults : Nat := toIDXTYPE (min (((c.epochSize number : Int) - 1).tdiv 3) (((c.sealersNum number : Int) - 1).tdiv 3))

def committee : Finset NodeID := window (c.sealer number) (c.round number) (c.epochSize number)

theorem card_committee : (c.committee number).card = c.epochSize number := by
  apply card_window (c.cyclic_sealer number)
  exact_mod_cast c.epochSize_le number

end

end Chain

/-! ### The round -/

/-- A round is on time if the height is in its interval or in the next one. -/
structure OnTime (c : Chain NodeID) (number : Nat) (round : Int) : Prop where
  nonneg : 0 ≤ round
  reached : round * c.epochBlockNum number ≤ number - c.enableNumber number ∨ round = 0
  soon : number - c.enableNumber number - round * c.epochBlockNum number < 2 * c.epochBlockNum number

/-- The enable number is not the next block's with an interval of one block. -/
def Begun (c : Chain NodeID) (number : Nat) : Prop :=
  ¬ (c.epochBlockNum number = 1 ∧ c.enableNumber number = number + 1)

variable {c : Chain NodeID} {number : Nat}

theorem tdiv_eq_of_bounds {x interval round : Int} (hinterval : 1 ≤ interval) (hx : -1 ≤ x)
    (hbegun : ¬ (interval = 1 ∧ x = -1)) (hround : 0 ≤ round) (hreached : round * interval ≤ x ∨ round = 0)
    (hnext : x < (round + 1) * interval) : x.tdiv interval = round := by
  rcases Int.lt_or_le x 0 with hneg | hnonneg
  · obtain rfl : x = -1 := by omega
    have hzero : round = 0 := by
      rcases hreached with h | h
      · have := mul_nonneg hround (show 0 ≤ interval by omega)
        omega
      · exact h
    rw [hzero, Int.neg_tdiv, Int.tdiv_eq_ediv_of_nonneg (by omega), Int.ediv_eq_zero_of_lt (by omega) (by omega), neg_zero]
  · rw [Int.tdiv_eq_ediv_of_nonneg hnonneg]
    apply Int.le_antisymm
    · have := Int.ediv_lt_of_lt_mul (by omega) hnext
      omega
    · rw [Int.le_ediv_iff_mul_le (by omega)]
      rcases hreached with h | h
      · exact h
      · rw [h, zero_mul]
        exact hnonneg

section
variable {round : Int}

theorem round_eq_of_lt (hbegun : Begun c number) (h : OnTime c number round)
    (hlt : number - c.enableNumber number - round * c.epochBlockNum number < c.epochBlockNum number) :
    c.round number = round := by
  have henable := c.enableNumber_le number
  refine tdiv_eq_of_bounds (c.one_le_epochBlockNum number) (by omega) ?_ h.nonneg h.reached ?_
  · rintro ⟨hone, hnext⟩
    exact hbegun ⟨hone, by omega⟩
  · linarith

theorem round_eq_of_le (hbegun : Begun c number) (h : OnTime c number round)
    (hle : c.epochBlockNum number ≤ number - c.enableNumber number - round * c.epochBlockNum number) :
    c.round number = round + 1 := by
  have henable := c.enableNumber_le number
  have hsoon := h.soon
  refine tdiv_eq_of_bounds (c.one_le_epochBlockNum number) (by omega) ?_ (by have := h.nonneg; omega) (.inl ?_) ?_
  · rintro ⟨hone, hnext⟩
    exact hbegun ⟨hone, by omega⟩
  · linarith
  · linarith

end

theorem onTime_round (hbegun : Begun c number) : OnTime c number (c.round number) := by
  have henable := c.enableNumber_le number
  have hinterval := c.one_le_epochBlockNum number
  rcases Int.lt_or_le (number - c.enableNumber number) 0 with hneg | hnonneg
  · have hzero : c.round number = 0 := by
      refine tdiv_eq_of_bounds hinterval (by omega) ?_ le_rfl (.inr rfl) (by omega)
      rintro ⟨hone, hnext⟩
      exact hbegun ⟨hone, by omega⟩
    rw [hzero]
    exact ⟨le_rfl, .inr rfl, by omega⟩
  · have hround : c.round number = (number - c.enableNumber number) / c.epochBlockNum number :=
      Int.tdiv_eq_ediv_of_nonneg hnonneg
    have hmul := Int.ediv_mul_le (number - c.enableNumber number) (show c.epochBlockNum number ≠ 0 by omega)
    have hlt := Int.lt_ediv_add_one_mul_self (number - c.enableNumber number) (show 0 < c.epochBlockNum number by omega)
    rw [← hround] at hmul hlt
    refine ⟨?_, .inl hmul, by linarith⟩
    rw [hround]
    exact Int.ediv_nonneg hnonneg (by omega)

/-! ### Reading the configuration -/

def CacheOk (c : Chain NodeID) (cache : ConfigCache) : Prop :=
  ∀ key record, cache key = some record → ∀ number : Nat, record.curBlockNum = number + 1 →
    (record.value, record.enableNumber) = getSysteConfigByKey ((c.tables number).row key) (number + 1)

theorem getSysteConfigByKey_row (c : Chain NodeID) (number : Nat) (key : ConfigKey) :
    getSysteConfigByKey ((c.tables number).row key) (number + 1)
      = (some ((c.tables number).row key).value.1, ((c.tables number).row key).enableNumber) := by
  unfold getSysteConfigByKey
  rw [if_pos (c.row_enableNumber_le number key)]

theorem CacheOk.update {cache : ConfigCache} (h : CacheOk c cache) (number : Nat) (key : ConfigKey) :
    CacheOk c (Function.update cache key (some
      ⟨(getSysteConfigByKey ((c.tables number).row key) (number + 1)).1,
        (getSysteConfigByKey ((c.tables number).row key) (number + 1)).2, number + 1⟩)) := by
  intro key' record hrecord number' hcur
  by_cases hkey : key' = key
  · subst hkey
    rw [Function.update_self] at hrecord
    cases hrecord
    obtain rfl : number = number' := by
      simp only [add_left_inj] at hcur
      exact_mod_cast hcur
    rfl
  · rw [Function.update_of_ne hkey] at hrecord
    exact h key' record hrecord number' hcur

theorem getSystemConfigInfoByKey_spec {cache : ConfigCache} (h : CacheOk c cache) (number : Nat) (key : ConfigKey) :
    ∃ cache', CacheOk c cache' ∧ getSystemConfigInfoByKey c number key cache
      = ((some ((c.tables number).row key).value.1, ((c.tables number).row key).enableNumber), cache') := by
  have hread := getSysteConfigByKey_row c number key
  have hupdate := h.update number key
  simp only [getSystemConfigInfoByKey]
  cases hrecord : cache key with
  | none => exact ⟨_, hupdate, by rw [hread]⟩
  | some record =>
    dsimp only
    split
    next hcur => exact ⟨cache, h, by rw [h key record hrecord number hcur, hread]⟩
    next => exact ⟨_, hupdate, by rw [hread]⟩

/-! ### The parts of `resetConfig` -/

section
variable [LinearOrder NodeID] {s : Engine NodeID} {pub : NodeID}

theorem updateConsensusNodeList_spec (c : Chain NodeID) (number : Nat) (s : Engine NodeID) :
    ∃ updated last, s.updateConsensusNodeList c number
        = { s with
            sealerList := c.sealerList number, sealerListUpdated := updated, lastSealerListUpdateNumber := last }
      ∧ (updated = false → c.sealerList number = s.sealerList)
      ∧ (s.sealerListUpdated = true → c.sealerList number ≠ s.sealerList ∨ number = s.lastSealerListUpdateNumber →
          updated = true) := by
  unfold Engine.updateConsensusNodeList
  dsimp only
  split
  next => exact ⟨true, number, rfl, fun h => (by cases h), fun _ _ => rfl⟩
  next hsame =>
    have hsame : c.sealerList number = s.sealerList := not_not.mp hsame
    split
    next hnumber =>
      refine ⟨false, s.lastSealerListUpdateNumber, ?_, fun _ => hsame, ?_⟩
      · rw [hsame]
      · rintro - (h | h)
        · exact absurd hsame h
        · exact absurd h hnumber
    next =>
      refine ⟨s.sealerListUpdated, s.lastSealerListUpdateNumber, ?_, fun _ => hsame, fun h _ => h⟩
      rw [hsame]

theorem nodeIdx_eq_MAXIDX_iff (hlength : c.sealersNum number ≤ MAXIDX) :
    (((c.sealerList number).findIdx? fun node => decide (node = pub)).map (· % 65536)).getD MAXIDX = MAXIDX
      ↔ pub ∉ c.sealerList number := by
  cases hfind : (c.sealerList number).findIdx? fun node => decide (node = pub) with
  | none =>
    rw [List.findIdx?_eq_none_iff] at hfind
    refine iff_of_true rfl fun hmem => ?_
    simpa using hfind pub hmem
  | some i =>
    obtain ⟨hi, heq, -⟩ := List.findIdx?_eq_some_iff_getElem.mp hfind
    have hsmall : i < 65535 := lt_of_lt_of_le hi hlength
    refine iff_of_false ?_ (not_not.mpr ?_)
    · simp only [Option.map_some, Option.getD_some, MAXIDX]
      omega
    · rw [← of_decide_eq_true heq]
      exact List.getElem_mem hi

theorem baseResetConfig_spec (c : Chain NodeID) (pub : NodeID) (number : Nat) (s : Engine NodeID) :
    ∃ updated last nodeNum f cfgErr, s.baseResetConfig c pub number = some
        { s with
          sealerList := c.sealerList number, sealerListUpdated := updated, lastSealerListUpdateNumber := last
          nodeNum := nodeNum, f := f, cfgErr := cfgErr }
      ∧ (updated = false → c.sealerList number = s.sealerList)
      ∧ (s.sealerListUpdated = true → c.sealerList number ≠ s.sealerList ∨ number = s.lastSealerListUpdateNumber →
          updated = true)
      ∧ (c.sealersNum number ≤ MAXIDX → nodeNum = c.sealersNum number
          ∧ cfgErr = decide (pub ∉ c.sealerList number)) := by
  obtain ⟨updated, last, heq, hsame, hupdated⟩ := updateConsensusNodeList_spec c number s
  have hpos := c.sealersNum_pos number
  unfold Engine.baseResetConfig
  rw [heq]
  dsimp only
  rw [if_neg (show ¬ (c.sealerList number).length < 1 from Nat.not_lt.mpr hpos)]
  refine ⟨updated, last, _, _, _, rfl, hsame, hupdated, fun hlength => ⟨?_, ?_⟩⟩
  · have : c.sealersNum number ≤ 65535 := hlength
    show toIDXTYPE (c.sealersNum number) = _
    unfold toIDXTYPE
    omega
  · exact decide_eq_decide.mpr (nodeIdx_eq_MAXIDX_iff hlength)

omit [LinearOrder NodeID] in
theorem updateRotatingInterval_spec (hcache : CacheOk c s.systemConfigRecord) (number : Nat) :
    ∃ updated cache, CacheOk c cache ∧ s.updateRotatingInterval c number = some (updated,
        { s with
          systemConfigRecord := cache, rotatingInterval := c.epochBlockNum number
          rotatingIntervalEnableNumber := c.enableNumber number })
      ∧ (updated = false ↔
          c.epochBlockNum number = s.rotatingInterval ∧ c.enableNumber number = s.rotatingIntervalEnableNumber) := by
  obtain ⟨cache, hcache', hread⟩ := getSystemConfigInfoByKey_spec hcache number .rpbft_epoch_block_num
  unfold Engine.updateRotatingInterval
  rw [hread]
  by_cases hsame : c.epochBlockNum number = s.rotatingInterval ∧ c.enableNumber number = s.rotatingIntervalEnableNumber
  · refine ⟨false, cache, hcache', ?_, iff_of_true rfl hsame⟩
    have hif : ((c.tables number).row .rpbft_epoch_block_num).value.1 = s.rotatingInterval
        ∧ ((c.tables number).row .rpbft_epoch_block_num).enableNumber = s.rotatingIntervalEnableNumber := hsame
    simp [hif, hsame.1, hsame.2]
  · refine ⟨true, cache, hcache', ?_, iff_of_false (by simp) hsame⟩
    have hif : ¬ (((c.tables number).row .rpbft_epoch_block_num).value.1 = s.rotatingInterval
        ∧ ((c.tables number).row .rpbft_epoch_block_num).enableNumber = s.rotatingIntervalEnableNumber) := hsame
    simp [hif, Chain.epochBlockNum, Chain.enableNumber]

theorem updateEpochSize_spec (hcache : CacheOk c s.systemConfigRecord) (hsealers : s.sealersNum = c.sealersNum number)
    (hfits : c.epochSealerNum number = s.epochSize → c.epochSealerNum number ≤ c.sealersNum number) :
    ∃ updated cache, CacheOk c cache ∧ s.updateEpochSize c number = some (updated,
        { s with systemConfigRecord := cache, epochSize := c.epochSize number })
      ∧ (updated = false → s.epochSize = c.epochSize number) := by
  obtain ⟨cache, hcache', hread⟩ := getSystemConfigInfoByKey_spec hcache number .rpbft_epoch_sealer_num
  have hpos := c.one_le_epochSealerNum number
  unfold Engine.updateEpochSize
  rw [hread]
  by_cases hsame : c.epochSealerNum number = s.epochSize
  · have hle := hfits hsame
    have hsize : s.epochSize = c.epochSize number := by
      rw [← hsame, Chain.epochSize]
      omega
    have hif : ((c.tables number).row .rpbft_epoch_sealer_num).value.1 = s.epochSize := hsame
    refine ⟨false, cache, hcache', ?_, fun _ => hsize⟩
    simp [hif, ← hsize]
  · have hif : ¬ ((c.tables number).row .rpbft_epoch_sealer_num).value.1 = s.epochSize := hsame
    have hset : (if ((c.tables number).row .rpbft_epoch_sealer_num).value.1 > s.sealersNum then s.sealersNum
        else ((c.tables number).row .rpbft_epoch_sealer_num).value.1) = c.epochSize number := by
      rw [hsealers]
      change (if c.epochSealerNum number > _ then _ else c.epochSealerNum number) = _
      rw [Chain.epochSize]
      split <;> omega
    refine ⟨decide (s.epochSize ≠ c.epochSize number), cache, hcache', ?_, ?_⟩
    · simp [hif, Engine.setEpochSealerNum, hset]
    · simp

/-! ### The chosen nodes -/

variable [Zero NodeID]

structure Informed (c : Chain NodeID) (number : Nat) (s : Engine NodeID) : Prop where
  cache : CacheOk c s.systemConfigRecord
  sealerList : s.sealerList = c.sealerList number
  interval : s.rotatingInterval = c.epochBlockNum number
  enable : s.rotatingIntervalEnableNumber = c.enableNumber number
  nonneg : 0 ≤ s.rotatingRound
  published : s.chosedConsNodeChanged = true ∨ s.chosedSealerList = s.chosedConsensusNodes.sort

structure Seated (c : Chain NodeID) (number : Nat) (s : Engine NodeID) : Prop where
  start : s.startNodeIdx = s.rotatingRound % c.sealersNum number
  chosed : s.chosedConsensusNodes = window (c.sealer number) s.rotatingRound (c.epochSize number)

structure Aligned (c : Chain NodeID) (number : Nat) (s : Engine NodeID) : Prop extends
    Informed c number s, Seated c number s where
  sealers : s.sealersNum = c.sealersNum number
  epoch : s.epochSize = c.epochSize number

theorem sealerAt_spec (hlist : s.sealerList = c.sealerList number) (i : Int) :
    s.sealerAt (i % c.sealersNum number) = some (c.sealer number i) := by
  have hpos := c.sealersNum_pos number
  have hnonneg := Int.emod_nonneg i (show (c.sealersNum number : Int) ≠ 0 by omega)
  have hlt := Int.emod_lt_of_pos i (show 0 < (c.sealersNum number : Int) by omega)
  have hplace : (i % c.sealersNum number).toNat < (c.sealerList number).length := by
    have : c.sealersNum number = (c.sealerList number).length := rfl
    omega
  unfold Engine.sealerAt
  rw [if_neg (by omega), hlist, List.getElem?_eq_getElem hplace]
  unfold Chain.sealer cycleAt
  exact congrArg some (List.getD_eq_getElem _ _ hplace).symm

omit [LinearOrder NodeID] [Zero NodeID] in
theorem remainder_of_nonneg {a : Int} {b : Nat} (ha : 0 ≤ a) (hb : 0 < b) : remainder a b = some (a % b) := by
  unfold remainder
  rw [if_neg (by omega), Int.tmod_eq_emod_of_nonneg ha]

theorem chosedFrom_spec (hlist : s.sealerList = c.sealerList number) (hsealers : s.sealersNum = c.sealersNum number)
    (count : Nat) (i : Int) (chosed : Finset NodeID) :
    s.chosedFrom count (i % c.sealersNum number) chosed = some (chosed ∪ window (c.sealer number) i count) := by
  have hpos := c.sealersNum_pos number
  have hnonneg := Int.emod_nonneg i (show (c.sealersNum number : Int) ≠ 0 by omega)
  induction count generalizing i chosed with
  | zero => simp [Engine.chosedFrom]
  | succ count ih =>
    have hnonneg := Int.emod_nonneg i (show (c.sealersNum number : Int) ≠ 0 by omega)
    have hnext : remainder (i % c.sealersNum number + 1) s.sealersNum = some ((i + 1) % c.sealersNum number) := by
      rw [hsealers, remainder_of_nonneg (by omega) hpos, Int.emod_add_emod]
    have hrest := ih (i + 1) (insert (c.sealer number i) chosed) (Int.emod_nonneg _ (by omega))
    simp only [Engine.chosedFrom, sealerAt_spec hlist, hnext, Option.bind_eq_bind, Option.bind_some]
    rw [hrest, window_succ, Finset.insert_union, Finset.union_insert]

theorem resetStart_spec (h : Informed c number s) (hsealers : s.sealersNum = c.sealersNum number)
    (hepoch : s.epochSize = c.epochSize number) (hfirst : s.startNodeIdx = -1 → s.rotatingRound = c.round number) :
    ∃ s', s.resetStart number = some s' ∧ Aligned c number s' ∧ s'.rotatingRound = s.rotatingRound
      ∧ s'.nodeNum = s.nodeNum ∧ s'.cfgErr = s.cfgErr := by
  have hpos := c.sealersNum_pos number
  have hone := c.one_le_epochBlockNum number
  have hround : (if s.startNodeIdx = -1 then quotient (number - s.rotatingIntervalEnableNumber) s.rotatingInterval
      else some s.rotatingRound) = some s.rotatingRound := by
    split
    next hstart =>
      unfold quotient
      rw [h.interval, h.enable, if_neg (by omega), hfirst hstart]
      rfl
    next => rfl
  have hstart : remainder s.rotatingRound s.sealersNum = some (s.rotatingRound % c.sealersNum number) := by
    rw [hsealers]
    exact remainder_of_nonneg h.nonneg hpos
  have hchosed : s.chosedFrom s.epochSize.toNat (s.rotatingRound % c.sealersNum number) ∅
      = some (window (c.sealer number) s.rotatingRound (c.epochSize number)) := by
    rw [chosedFrom_spec h.sealerList hsealers, hepoch, Int.toNat_natCast, Finset.empty_union]
  unfold Engine.resetStart
  rw [if_neg (by omega), if_neg (by rw [h.interval, hepoch]; omega)]
  simp only [hround, hstart, hchosed, Option.bind_eq_bind, Option.bind_some]
  refine ⟨_, rfl, ⟨⟨h.cache, h.sealerList, h.interval, h.enable, h.nonneg, ?_⟩, ⟨rfl, rfl⟩, hsealers, hepoch⟩, rfl, rfl, rfl⟩
  show (s.chosedConsNodeChanged || decide (_ ≠ s.chosedConsensusNodes)) = true ∨ _
  by_cases hsame : window (c.sealer number) s.rotatingRound (c.epochSize number) = s.chosedConsensusNodes
  · rcases h.published with hchanged | hlist
    · exact .inl (by rw [hchanged, Bool.true_or])
    · right
      show s.chosedSealerList = Finset.sort (window _ _ _)
      rw [hsame]
      exact hlist
  · exact .inl (by rw [decide_eq_true hsame, Bool.or_true])

/-- **`resetChosedConsensusNodes` keeps the nodes of an epoch from the round on,
    or seats them.** -/
theorem resetChosedConsensusNodes_spec (h : Informed c number s)
    (hcounted : s.sealerListUpdated = true ∨ s.sealersNum = c.sealersNum number)
    (hfits : c.epochSealerNum number = s.epochSize → c.epochSealerNum number ≤ c.sealersNum number)
    (hfirst : s.startNodeIdx = -1 → s.rotatingRound = c.round number)
    (hkept : s.sealerListUpdated = false → s.rotatingIntervalUpdated = false → s.epochSize = c.epochSize number →
      Seated c number s) :
    ∃ s', s.resetChosedConsensusNodes c number = some s' ∧ Aligned c number s' ∧ s'.rotatingRound = s.rotatingRound
      ∧ s'.nodeNum = s.nodeNum ∧ s'.cfgErr = s.cfgErr := by
  have hnum : (if s.sealerListUpdated then { s with sealersNum := s.sealerList.length } else s)
      = { s with sealersNum := c.sealersNum number } := by
    split
    next => rw [h.sealerList]; rfl
    next hnot => rw [← hcounted.resolve_left hnot]
  obtain ⟨s₁, hs₁⟩ : ∃ s₁, s₁ = { s with sealersNum := c.sealersNum number } := ⟨_, rfl⟩
  have hfits₁ : c.epochSealerNum number = s₁.epochSize → c.epochSealerNum number ≤ c.sealersNum number := by
    rw [hs₁]
    exact hfits
  obtain ⟨updated, cache, hcache, hread, hsame⟩ := updateEpochSize_spec (s := s₁) (hs₁ ▸ h.cache) (by rw [hs₁]) hfits₁
  obtain ⟨s₂, hs₂⟩ : ∃ s₂, s₂ = { s₁ with systemConfigRecord := cache, epochSize := c.epochSize number } := ⟨_, rfl⟩
  have hinformed : Informed c number s₂ := by
    rw [hs₂, hs₁]
    exact ⟨hcache, h.sealerList, h.interval, h.enable, h.nonneg, h.published⟩
  unfold Engine.resetChosedConsensusNodes
  simp only [hnum, ← hs₁, hread, ← hs₂, Option.bind_eq_bind, Option.bind_some]
  have hround : s₂.rotatingRound = s.rotatingRound := by rw [hs₂, hs₁]
  have hstart : s₂.startNodeIdx = s.startNodeIdx := by rw [hs₂, hs₁]
  have hnodes : s₂.chosedConsensusNodes = s.chosedConsensusNodes := by rw [hs₂, hs₁]
  have hnodeNum : s₂.nodeNum = s.nodeNum := by rw [hs₂, hs₁]
  have hcfgErr : s₂.cfgErr = s.cfgErr := by rw [hs₂, hs₁]
  have hsealers : s₂.sealersNum = c.sealersNum number := by rw [hs₂, hs₁]
  have hepoch : s₂.epochSize = c.epochSize number := by rw [hs₂]
  split
  next hflags =>
    simp only [Bool.and_eq_true, Bool.not_eq_true'] at hflags
    obtain ⟨⟨hupdated, hlist⟩, hinterval⟩ := hflags
    have hkeep : Seated c number s := by
      apply hkept
      · rw [← hlist, hs₂, hs₁]
      · rw [← hinterval, hs₂, hs₁]
      · rw [← hsame hupdated, hs₁]
    have hseated : Seated c number s₂ := ⟨by rw [hstart, hround]; exact hkeep.start, by rw [hnodes, hround]; exact hkeep.chosed⟩
    exact ⟨s₂, rfl, ⟨hinformed, hseated, hsealers, hepoch⟩, hround, hnodeNum, hcfgErr⟩
  next =>
    obtain ⟨s', hreset, haligned, hround', hnodeNum', hcfgErr'⟩ := resetStart_spec hinformed hsealers hepoch (by
      rw [hstart, hround]
      exact hfirst)
    exact ⟨s', hreset, haligned, hround'.trans hround, hnodeNum'.trans hnodeNum, hcfgErr'.trans hcfgErr⟩

theorem getNodeIDByIndex_spec (hlist : s.sealerList = c.sealerList number) (i : Int) :
    s.getNodeIDByIndex (i % c.sealersNum number) = c.sealer number i := by
  unfold Engine.getNodeIDByIndex
  rw [sealerAt_spec hlist]
  rfl

/-- **`chooseConsensusNodes` moves a round that is on time to the round of the
    height.** -/
theorem chooseConsensusNodes_spec (h : Aligned c number s) (hbegun : Begun c number)
    (htime : OnTime c number s.rotatingRound) (hindexed : c.sealersNum number ≤ MAXIDX)
    (hleaving : c.epochBlockNum number ≤ number - c.enableNumber number - s.rotatingRound * c.epochBlockNum number →
      c.sealer number s.rotatingRound ≠ 0) :
    ∃ s', s.chooseConsensusNodes number = some s' ∧ Aligned c number s' ∧ s'.rotatingRound = c.round number
      ∧ s'.f = s.f ∧ s'.nodeNum = s.nodeNum ∧ s'.cfgErr = s.cfgErr := by
  have hpos := c.sealersNum_pos number
  have hone := c.one_le_epochBlockNum number
  have hepochPos := c.epochSize_pos number
  have hepochLe := c.epochSize_le number
  unfold Engine.chooseConsensusNodes
  rw [if_neg (by rw [h.interval, h.epoch]; omega), h.interval, h.enable]
  rcases Int.lt_or_le (number - c.enableNumber number - s.rotatingRound * c.epochBlockNum number)
    (c.epochBlockNum number) with hlt | hle
  · exact ⟨s, if_pos hlt, h, (round_eq_of_lt hbegun htime hlt).symm, rfl, rfl, rfl⟩
  · have hround := round_eq_of_le hbegun htime hle
    have hout : remainder s.rotatingRound s.sealersNum = some (s.rotatingRound % c.sealersNum number) := by
      rw [h.sealers]
      exact remainder_of_nonneg h.nonneg hpos
    have hstart : remainder (s.rotatingRound + 1) s.sealersNum = some ((s.rotatingRound + 1) % c.sealersNum number) := by
      rw [h.sealers]
      exact remainder_of_nonneg (by have := h.nonneg; omega) hpos
    have hmin : min s.epochSize s.sealersNum = c.epochSize number := by
      rw [h.epoch, h.sealers]
      omega
    have hnonneg := Int.emod_nonneg (s.rotatingRound + 1) (show (c.sealersNum number : Int) ≠ 0 by omega)
    -- the node that comes in stands an epoch behind the one that leaves
    have hin : remainder ((s.rotatingRound + 1) % c.sealersNum number + min s.epochSize s.sealersNum - 1) s.sealersNum
        = some ((s.rotatingRound + c.epochSize number) % c.sealersNum number) := by
      rw [hmin, h.sealers, remainder_of_nonneg (by omega) hpos, add_sub_assoc, Int.emod_add_emod]
      congr 2
      ring
    have hindex : (toIDXTYPE ((s.rotatingRound + c.epochSize number) % c.sealersNum number) : Int)
        = (s.rotatingRound + c.epochSize number) % c.sealersNum number := by
      have hnonneg' := Int.emod_nonneg (s.rotatingRound + c.epochSize number) (show (c.sealersNum number : Int) ≠ 0 by omega)
      have hlt' := Int.emod_lt_of_pos (s.rotatingRound + c.epochSize number) (show 0 < (c.sealersNum number : Int) by omega)
      have hmax : c.sealersNum number ≤ 65535 := hindexed
      unfold toIDXTYPE
      omega
    simp only [hout, hstart, hin, hindex, getNodeIDByIndex_spec h.sealerList, Option.bind_eq_bind, Option.bind_some]
    rw [if_neg (by omega), if_neg (hleaving hle)]
    refine ⟨_, rfl, ⟨⟨h.cache, h.sealerList, rfl, rfl, ?_, .inl rfl⟩, ⟨rfl, ?_⟩, h.sealers, h.epoch⟩,
      hround.symm, rfl, rfl, rfl⟩
    · show 0 ≤ s.rotatingRound + 1
      have := h.nonneg
      omega
    · show insert _ (s.chosedConsensusNodes.erase _) = window _ (s.rotatingRound + 1) _
      rw [h.chosed]
      exact slide (c.cyclic_sealer number) hepochPos (by exact_mod_cast hepochLe)

end

end HieraChain.RotatingPBFT
