/-
  HieraChain/NodeTimeMaintenance.lean
  ===================================
  **The aligned time of a node** (`libsync/NodeTimeMaintenance.cpp`).

  Every status packet of a peer gives an offset of the peer's time from the
  local time, and the median of the recorded offsets is added to the local
  clock.  Signed arithmetic is checked: after an overflow the node has no state
  (`time = none`).  `utcTime` is unsigned, so its sum with the median is taken
  modulo 2^64 and read with a sign; the state keeps the answer of
  `getAlignedTime` beside the sum that it stands for.  What is only logged is
  left out, but not the arithmetic of the log conditions.

    * the median stands between offsets of correct peers while fewer than half
      of the recorded ones are faulty               (`resists_updateTimeInfo`);
    * which packets overflow                        (`tryToUpdatePeerTimeInfo_iff`);
    * which runs are right                          (`aligned_time_iff`).
-/
import HieraChain.Int64
import HieraChain.Machine
import HieraChain.Median
import HieraChain.SortedMap

namespace HieraChain.NodeTime

open HieraChain.Int64

variable {K : Type} [LinearOrder K]

/-! ### The maintenance of the time -/

structure NodeTimeMaintenance (K : Type) [LinearOrder K] where
  node2TimeOffset : SortedMap K Int := SortedMap.empty
  medianTimeOffset : Int := 0

def maxTimeOffset : Int := 30 * 60 * 1000

def minTimeOffset : Int := 3 * 60 * 1000

/-- `std::abs` -/
def absolute (v : Int) : Option Int := checked v.natAbs

/-- `SyncStatusPacketWithAlignedTime` -/
structure SyncStatusPacket (K : Type) where
  nodeId : K
  alignedTime : BitVec 64

def middleSum (timeOffsetVec : List Int) : Int :=
  timeOffsetVec.getD (timeOffsetVec.length / 2) 0 + timeOffsetVec.getD (timeOffsetVec.length / 2 - 1) 0

def medianOf (timeOffsetVec : List Int) : Option Int :=
  if timeOffsetVec.length % 2 = 0 then (checked (middleSum timeOffsetVec)).map fun sum => sum.tdiv 2
  else some (timeOffsetVec.getD (timeOffsetVec.length / 2) 0)

/-- The loop looks for an offset near zero; it only logs that there is none. -/
def checkLocalTimeAndWarning : List (K × Int) → Option Unit
  | [] => some ()
  | it :: node2TimeOffset =>
    (absolute it.2).bind fun offset =>
      if offset ≤ minTimeOffset then some () else checkLocalTimeAndWarning node2TimeOffset

namespace NodeTimeMaintenance

def timeOffsetVec (t : NodeTimeMaintenance K) : List Int := (t.node2TimeOffset.entries.map Prod.snd).mergeSort

/-- The median of before the update decides whether the local time is checked. -/
def updateTimeInfo (t : NodeTimeMaintenance K) : Option (NodeTimeMaintenance K) :=
  (medianOf t.timeOffsetVec).bind fun medianTimeOffset =>
    (absolute t.medianTimeOffset).bind fun before =>
      (if maxTimeOffset ≤ before then checkLocalTimeAndWarning t.node2TimeOffset.entries else some ()).map fun _ =>
        { t with medianTimeOffset := medianTimeOffset }

def record (t : NodeTimeMaintenance K) (peer : K) (peerTimeOffset : Int) : Option (NodeTimeMaintenance K) :=
  (absolute peerTimeOffset).bind fun _ =>
    updateTimeInfo { t with node2TimeOffset := t.node2TimeOffset.insert peer peerTimeOffset }

def tryToUpdatePeerTimeInfo (t : NodeTimeMaintenance K) (peerStatus : SyncStatusPacket K) (utcTime : BitVec 64) :
    Option (NodeTimeMaintenance K) :=
  (checked (peerStatus.alignedTime.toInt - utcTime.toInt)).bind fun peerTimeOffset =>
    match t.node2TimeOffset.find? peerStatus.nodeId with
    | some orgTimeOffset =>
      (checked (orgTimeOffset - peerTimeOffset)).bind fun moved =>
        (absolute moved).bind fun distance =>
          if distance ≤ minTimeOffset then some t else t.record peerStatus.nodeId peerTimeOffset
    | none => t.record peerStatus.nodeId peerTimeOffset

def getAlignedTime (t : NodeTimeMaintenance K) (utcTime : BitVec 64) : Int :=
  (utcTime + BitVec.ofInt 64 t.medianTimeOffset).toInt

end NodeTimeMaintenance

/-! ### Runs -/

/-- `time` is `none` after an overflow; `answer` is what `getAlignedTime`
    returned last, and the sum that it stands for. -/
structure Node (K : Type) [LinearOrder K] where
  time : Option (NodeTimeMaintenance K) := some {}
  answer : Option (Int × Int) := none

inductive Event (K : Type)
  | status (peerStatus : SyncStatusPacket K) (utcTime : BitVec 64)
  | getAlignedTime (utcTime : BitVec 64)

def machine (K : Type) [LinearOrder K] : Machine (Node K) (Event K) where
  step n
    | .status peerStatus utcTime => { n with time := n.time.bind fun t => t.tryToUpdatePeerTimeInfo peerStatus utcTime }
    | .getAlignedTime utcTime =>
      { n with answer := n.time.map fun t => (t.getAlignedTime utcTime, utcTime.toInt + t.medianTimeOffset) }

/-- Whichever peers are faulty, when they are fewer than half of the recorded
    ones, the median is between two offsets of correct peers. -/
def Resists (t : NodeTimeMaintenance K) : Prop :=
  ∀ faulty : K → Bool, 2 * t.node2TimeOffset.entries.countP (fun e => faulty e.1) < t.node2TimeOffset.entries.length →
    (∃ e ∈ t.node2TimeOffset.entries, faulty e.1 = false ∧ e.2 ≤ t.medianTimeOffset) ∧
      ∃ e ∈ t.node2TimeOffset.entries, faulty e.1 = false ∧ t.medianTimeOffset ≤ e.2

def Right (n : Node K) : Prop := (∃ t, n.time = some t ∧ Resists t) ∧ ∀ a ∈ n.answer, a.1 = a.2

def Bounded (v : Int) : Prop := Fits v.natAbs

/-- The offset can be recorded: its absolute value fits, and so does the sum of
    two offsets that come to stand in the middle. -/
def Recordable (t : NodeTimeMaintenance K) (peer : K) (peerTimeOffset : Int) : Prop :=
  let updated := { t with node2TimeOffset := t.node2TimeOffset.insert peer peerTimeOffset }.timeOffsetVec
  Bounded peerTimeOffset ∧ (updated.length % 2 = 0 → Fits (middleSum updated))

/-- The difference of the times fits, its distance from a recorded offset has an
    absolute value, and where it has moved it can be recorded; a clock that is
    asked for fits after the median is added. -/
def Ok (n : Node K) : Event K → Prop
  | .status peerStatus utcTime =>
    ∀ t ∈ n.time, let offset := peerStatus.alignedTime.toInt - utcTime.toInt
      Fits offset ∧ (∀ org, t.node2TimeOffset.find? peerStatus.nodeId = some org → Bounded (org - offset)) ∧
        ((∀ org, t.node2TimeOffset.find? peerStatus.nodeId = some org → minTimeOffset < (org - offset).natAbs) →
          Recordable t peerStatus.nodeId offset)
  | .getAlignedTime utcTime => ∀ t ∈ n.time, Fits (utcTime.toInt + t.medianTimeOffset)

/-! ### Values that have an absolute value -/

theorem bounded_iff {v : Int} : Bounded v ↔ -9223372036854775808 < v ∧ v < 9223372036854775808 := by
  rw [Bounded, fits_iff]
  omega

theorem Bounded.fits {v : Int} (h : Bounded v) : Fits v := by
  rw [bounded_iff] at h
  rw [fits_iff]
  omega

theorem absolute_eq_some {v w : Int} : absolute v = some w ↔ Bounded v ∧ w = v.natAbs := by
  rw [absolute, checked_eq_some, Bounded, @eq_comm _ w]

theorem absolute_of_bounded {v : Int} (h : Bounded v) : absolute v = some (v.natAbs : Int) :=
  absolute_eq_some.mpr ⟨h, rfl⟩

omit [LinearOrder K] in
theorem checkLocalTimeAndWarning_of_bounded {l : List (K × Int)} (h : ∀ e ∈ l, Bounded e.2) :
    checkLocalTimeAndWarning l = some () := by
  induction l with
  | nil => rfl
  | cons e l ih =>
    obtain ⟨he, hl⟩ := List.forall_mem_cons.mp h
    rw [checkLocalTimeAndWarning, absolute_of_bounded he, Option.bind_some]
    split
    · rfl
    · exact ih hl

/-! ### The median -/

theorem timeOffsetVec_perm (t : NodeTimeMaintenance K) :
    t.timeOffsetVec.Perm (t.node2TimeOffset.entries.map Prod.snd) := List.mergeSort_perm _ _

theorem timeOffsetVec_sorted (t : NodeTimeMaintenance K) : t.timeOffsetVec.Pairwise (· ≤ ·) := by
  refine (List.pairwise_mergeSort (fun a b c hab hbc => ?_) (fun a b => ?_) _).imp fun h => of_decide_eq_true h
  · exact decide_eq_true (le_trans (of_decide_eq_true hab) (of_decide_eq_true hbc))
  · rw [Bool.or_eq_true, decide_eq_true_iff, decide_eq_true_iff]
    exact le_total a b

theorem medianOf_between {l : List Int} (h : l.Pairwise (· ≤ ·)) {m : Int} (hm : medianOf l = some m)
    (hlow : (l.length - 1) / 2 < l.length) (hhigh : l.length / 2 < l.length) :
    l[(l.length - 1) / 2] ≤ m ∧ m ≤ l[l.length / 2] := by
  have hget : ∀ {i : Nat} (hi : i < l.length), l.getD i 0 = l[i] := by
    intro i hi
    rw [List.getD_eq_getElem?_getD, List.getElem?_eq_getElem hi, Option.getD_some]
  rw [medianOf] at hm
  split at hm
  next heven =>
    obtain ⟨sum, hsum, rfl⟩ := Option.map_eq_some_iff.mp hm
    obtain ⟨-, rfl⟩ := checked_eq_some.mp hsum
    have hlower : l.length / 2 - 1 = (l.length - 1) / 2 := by omega
    have hle : l[(l.length - 1) / 2] ≤ l[l.length / 2] :=
      List.pairwise_iff_getElem.mp h _ _ hlow hhigh (by omega)
    rw [middleSum, hlower, hget hlow, hget hhigh, Int.add_comm]
    exact Median.tdiv_two_between hle
  next hodd =>
    have hsame : (l.length - 1) / 2 = l.length / 2 := by omega
    obtain rfl := Option.some.inj hm
    simp only [hsame, hget hhigh, le_refl, and_self]

theorem medianOf_isSome {l : List Int} : (medianOf l).isSome ↔ (l.length % 2 = 0 → Fits (middleSum l)) := by
  rw [medianOf]
  split
  next heven => simp [heven, checked_isSome]
  next hodd => simp [hodd]

/-! ### One update -/

structure Inv (t : NodeTimeMaintenance K) : Prop where
  offsets : ∀ e ∈ t.node2TimeOffset.entries, Bounded e.2
  median : Bounded t.medianTimeOffset

theorem inv_start : Inv ({} : NodeTimeMaintenance K) where
  offsets e he := absurd he List.not_mem_nil
  median := (by decide : Fits (0 : Int).natAbs)

theorem resists_start : Resists ({} : NodeTimeMaintenance K) := fun _ h => absurd h (Nat.not_lt_zero _)

theorem resists_of_medianOf {t : NodeTimeMaintenance K} (hoffsets : ∀ e ∈ t.node2TimeOffset.entries, Bounded e.2)
    (hne : t.node2TimeOffset.entries ≠ []) {m : Int} (hm : medianOf t.timeOffsetVec = some m) :
    Inv { t with medianTimeOffset := m } ∧ Resists { t with medianTimeOffset := m } := by
  have hperm := timeOffsetVec_perm t
  have hsorted := timeOffsetVec_sorted t
  have hlength : t.timeOffsetVec.length = t.node2TimeOffset.entries.length :=
    hperm.length_eq.trans (List.length_map _)
  have hpos : 0 < t.timeOffsetVec.length := hlength ▸ List.length_pos_iff.mpr hne
  have hlow : (t.timeOffsetVec.length - 1) / 2 < t.timeOffsetVec.length := by omega
  have hhigh : t.timeOffsetVec.length / 2 < t.timeOffsetVec.length := by omega
  obtain ⟨hge, hle⟩ := medianOf_between hsorted hm hlow hhigh
  have hbounded : ∀ {i : Nat} (hi : i < t.timeOffsetVec.length), Bounded t.timeOffsetVec[i] := by
    intro i hi
    obtain ⟨e, he, heq⟩ := List.mem_map.mp (hperm.mem_iff.mp (List.getElem_mem hi))
    rw [← heq]
    exact hoffsets e he
  refine ⟨⟨hoffsets, ?_⟩, fun faulty hfew => ⟨?_, ?_⟩⟩
  · have hlo := bounded_iff.mp (hbounded hlow)
    have hhi := bounded_iff.mp (hbounded hhigh)
    exact bounded_iff.mpr ⟨lt_of_lt_of_le hlo.1 hge, lt_of_le_of_lt hle hhi.2⟩
  · obtain ⟨e, he, hgood, hval⟩ := Median.exists_le_of_count (fun e => faulty e.1) hperm hsorted hlow
      (by simp only at hfew; omega)
    exact ⟨e, he, hgood, hval.trans hge⟩
  · obtain ⟨e, he, hgood, hval⟩ := Median.exists_ge_of_count (fun e => faulty e.1) hperm hsorted hhigh
      (by simp only at hfew; omega)
    exact ⟨e, he, hgood, hle.trans hval⟩

theorem insert_ne_nil (m : SortedMap K Int) (peer : K) (v : Int) : (m.insert peer v).entries ≠ [] :=
  List.ne_nil_of_mem (SortedMap.mem_entries_iff.mpr (SortedMap.find?_insert_self m peer v))

theorem record_spec {t : NodeTimeMaintenance K} (h : Inv t) (peer : K) (offset : Int) :
    ((t.record peer offset).isSome ↔ Recordable t peer offset) ∧
      ∀ t' ∈ t.record peer offset, Inv t' ∧ Resists t' := by
  by_cases hbounded : Bounded offset
  · have hoffsets : ∀ e ∈ (t.node2TimeOffset.insert peer offset).entries, Bounded e.2 := by
      intro e he
      have hfind := SortedMap.mem_entries_iff.mp he
      rw [SortedMap.find?_insert] at hfind
      split at hfind
      · rw [← Option.some.inj hfind]
        exact hbounded
      · exact h.offsets e (SortedMap.mem_entries_iff.mpr hfind)
    have hcheck : ∀ before : Int, (if maxTimeOffset ≤ before then
        checkLocalTimeAndWarning (t.node2TimeOffset.insert peer offset).entries else some ()) = some () := by
      intro before
      split
      · exact checkLocalTimeAndWarning_of_bounded hoffsets
      · rfl
    have hrecord : t.record peer offset
        = (medianOf { t with node2TimeOffset := t.node2TimeOffset.insert peer offset }.timeOffsetVec).map fun m =>
            { t with node2TimeOffset := t.node2TimeOffset.insert peer offset, medianTimeOffset := m } := by
      simp only [NodeTimeMaintenance.record, NodeTimeMaintenance.updateTimeInfo, absolute_of_bounded hbounded,
        absolute_of_bounded h.median, Option.bind_some, hcheck, Option.map_some]
      exact (Option.map_eq_bind ..).symm
    constructor
    · rw [hrecord, Option.isSome_map, medianOf_isSome, Recordable, and_iff_right hbounded]
    · intro t' ht'
      rw [hrecord] at ht'
      obtain ⟨m, hm, rfl⟩ := Option.map_eq_some_iff.mp ht'
      exact resists_of_medianOf hoffsets (insert_ne_nil _ _ _) hm
  · have hnone : t.record peer offset = none := by
      have habsolute : absolute offset = none := checked_eq_none.mpr hbounded
      rw [NodeTimeMaintenance.record, habsolute, Option.bind_none]
    rw [hnone]
    refine ⟨⟨fun hsome => ?_, fun hrecordable => absurd hrecordable.1 hbounded⟩, fun t' ht' => ?_⟩
    · cases hsome
    · cases ht'

theorem tryToUpdatePeerTimeInfo_iff {t : NodeTimeMaintenance K} (h : Inv t) (hres : Resists t)
    (peerStatus : SyncStatusPacket K) (utcTime : BitVec 64) :
    ((t.tryToUpdatePeerTimeInfo peerStatus utcTime).isSome ↔ Ok { time := some t } (.status peerStatus utcTime)) ∧
      ∀ t' ∈ t.tryToUpdatePeerTimeInfo peerStatus utcTime, Inv t' ∧ Resists t' := by
  have hok : Ok { time := some t } (.status peerStatus utcTime) ↔
      let offset := peerStatus.alignedTime.toInt - utcTime.toInt
      Fits offset ∧ (∀ org, t.node2TimeOffset.find? peerStatus.nodeId = some org → Bounded (org - offset)) ∧
        ((∀ org, t.node2TimeOffset.find? peerStatus.nodeId = some org → minTimeOffset < (org - offset).natAbs) →
          Recordable t peerStatus.nodeId offset) :=
    ⟨fun hall => hall t rfl, fun hall t' ht' => Option.some.inj ht' ▸ hall⟩
  rw [hok]
  simp only [NodeTimeMaintenance.tryToUpdatePeerTimeInfo]
  generalize peerStatus.alignedTime.toInt - utcTime.toInt = offset
  by_cases hfits : Fits offset
  · rw [checked_of_fits hfits, Option.bind_some, and_iff_right hfits]
    cases hfind : t.node2TimeOffset.find? peerStatus.nodeId with
    | none =>
      obtain ⟨hsome, hafter⟩ := record_spec h peerStatus.nodeId offset
      simp only [hsome, reduceCtorEq, false_implies, implies_true, true_and, true_implies]
      exact hafter
    | some org =>
      simp only [Option.some.injEq, forall_eq']
      by_cases hbounded : Bounded (org - offset)
      · rw [checked_of_fits hbounded.fits, Option.bind_some, absolute_of_bounded hbounded, Option.bind_some,
          and_iff_right hbounded]
        by_cases hnear : ((org - offset).natAbs : Int) ≤ minTimeOffset
        · rw [if_pos hnear]
          refine ⟨⟨fun _ hmoved => absurd hnear (not_le.mpr hmoved), fun _ => rfl⟩, fun t' ht' => ?_⟩
          obtain rfl := Option.some.inj ht'
          exact ⟨h, hres⟩
        · obtain ⟨hsome, hafter⟩ := record_spec h peerStatus.nodeId offset
          rw [if_neg hnear, hsome]
          exact ⟨⟨fun hrec _ => hrec, fun hrec => hrec (not_le.mp hnear)⟩, hafter⟩
      · have hnone : ((checked (org - offset)).bind fun moved => (absolute moved).bind fun distance =>
            if distance ≤ minTimeOffset then some t else t.record peerStatus.nodeId offset) = none := by
          by_cases hmoved : Fits (org - offset)
          · rw [checked_of_fits hmoved, Option.bind_some, absolute, checked_eq_none.mpr hbounded, Option.bind_none]
          · rw [checked_eq_none.mpr hmoved, Option.bind_none]
        rw [hnone]
        refine ⟨⟨fun hsome => ?_, fun hall => absurd hall.1 hbounded⟩, fun t' ht' => ?_⟩
        · cases hsome
        · cases ht'
  · rw [checked_eq_none.mpr hfits, Option.bind_none]
    refine ⟨⟨fun hsome => ?_, fun hall => absurd hall.1 hfits⟩, fun t' ht' => ?_⟩
    · cases hsome
    · cases ht'

theorem getAlignedTime_iff (t : NodeTimeMaintenance K) (utcTime : BitVec 64) :
    t.getAlignedTime utcTime = utcTime.toInt + t.medianTimeOffset ↔ Fits (utcTime.toInt + t.medianTimeOffset) := by
  rw [NodeTimeMaintenance.getAlignedTime, BitVec.toInt_add, BitVec.toInt_ofInt, Int.add_bmod_bmod, fits_iff]
  generalize utcTime.toInt + t.medianTimeOffset = sum
  rw [Int.bmod_eq_emod]
  split <;> omega

/-! ### All runs -/

def NodeInv (n : Node K) : Prop := ∀ t ∈ n.time, Inv t

theorem step_iff {n : Node K} (e : Event K) (h : NodeInv n) (hright : Right n) :
    (Right ((machine K).step n e) ↔ Ok n e) ∧ NodeInv ((machine K).step n e) := by
  obtain ⟨⟨t, htime, hres⟩, hanswer⟩ := hright
  have hinv : Inv t := h t htime
  cases e with
  | status peerStatus utcTime =>
    obtain ⟨hsome, hafter⟩ := tryToUpdatePeerTimeInfo_iff hinv hres peerStatus utcTime
    have hok : Ok n (.status peerStatus utcTime) ↔ Ok { time := some t } (.status peerStatus utcTime) := by
      simp only [Ok, htime]
    have htime' : ((machine K).step n (.status peerStatus utcTime)).time
        = t.tryToUpdatePeerTimeInfo peerStatus utcTime := by
      simp only [machine, htime, Option.bind_some]
    rw [hok, ← hsome, Option.isSome_iff_exists]
    refine ⟨⟨?_, ?_⟩, fun t' ht' => (hafter t' (htime' ▸ ht')).1⟩
    · rintro ⟨⟨t', ht', -⟩, -⟩
      exact ⟨t', htime' ▸ ht'⟩
    · rintro ⟨t', ht'⟩
      exact ⟨⟨t', htime'.trans ht', (hafter t' ht').2⟩, hanswer⟩
  | getAlignedTime utcTime =>
    refine ⟨⟨?_, ?_⟩, h⟩
    · rintro ⟨-, hsum⟩ t' ht'
      have hasked : (t'.getAlignedTime utcTime, utcTime.toInt + t'.medianTimeOffset)
          ∈ ((machine K).step n (.getAlignedTime utcTime)).answer := by
        simp only [machine, Option.mem_def.mp ht', Option.map_some]
        rfl
      exact (getAlignedTime_iff t' utcTime).mp (hsum _ hasked)
    · intro hfits
      refine ⟨⟨t, htime, hres⟩, fun a ha => ?_⟩
      simp only [machine, htime, Option.map_some] at ha
      obtain rfl := Option.some.inj ha
      exact (getAlignedTime_iff t utcTime).mpr (hfits t htime)

/-- **The aligned time is right all along a run exactly when nothing in it overflows.**
In every state the median stands between offsets of correct peers, whichever
fewer than half of the recorded peers are faulty. -/
theorem aligned_time_iff (events : List (Event K)) :
    (∀ n, Right ((machine K).run {} (events.take n))) ↔ (machine K).RunOk Ok {} events := by
  have hstart : Right ({} : Node K) := ⟨⟨{}, rfl, resists_start⟩, fun a ha => by cases ha⟩
  have hinv : NodeInv ({} : Node K) := fun t ht => Option.some.inj ht ▸ inv_start
  apply (machine K).forall_take_iff_of_ok (fun n e (h : NodeInv n ∧ Right n) hok => ?_) (fun n e h _ => ?_) events
    ⟨hinv, hstart⟩ hstart
  · obtain ⟨hright, hnext⟩ := step_iff e h.1 h.2
    exact ⟨hnext, hright.mpr hok⟩
  · exact (step_iff e h.1 h.2).1

/-- The earliest time that a packet can carry, received in the year 2020. -/
theorem early_time_overflows :
    ¬ ∀ (events : List (Event Nat)) (n : Nat), Right ((machine Nat).run {} (events.take n)) := by
  intro h
  obtain ⟨⟨t, htime, -⟩, -⟩ := h [.status ⟨7, BitVec.ofInt 64 (-2 ^ 63)⟩ (BitVec.ofNat 64 1600000000000)] 1
  have hsome := congrArg Option.isSome htime
  rw [Option.isSome_some] at hsome
  exact absurd hsome (by decide +kernel)

end HieraChain.NodeTime
