/-
  HieraChain/WireNumbers.lean
  ===========================
  **Which 64-bit numbers survive the wire.**

  The authors noted that a large number must be appended as `bigint`, and do so
  in the status packets.  Every other number goes through `append(unsigned)` and
  comes back exactly when it is below 2^32           (`numbers_survive_iff`).
-/
import HieraChain.RaftCodec

namespace HieraChain.WireNumbers

open HieraChain.BigEndian HieraChain.RLP HieraChain.Sync HieraChain.Raft
open HieraChain.PBFT (H256)

inductive Message
  | status (p : SyncStatusPacket)
  | statusWithAlignedTime (p : SyncStatusPacket)
  | reqBlock (fromNumber : Int) (size : UInt32)
  | txsStatus (number : Int) (txsHash : List H256)
  | transactions (txRLPs : List Bytes) (consIndex : Nat)
  | voteReq (m : RaftVoteReq)
  | voteResp (m : RaftVoteResp)
  | heartBeat (m : RaftHeartBeat)
  | heartBeatResp (m : RaftHeartBeatResp)

namespace Message

/-- The numbers are not negative and fit their types, and the bytes fit memory. -/
def InRange : Message → Prop
  | status p => p.InRange
  | statusWithAlignedTime p => p.InRange
  | reqBlock fromNumber _ => 0 ≤ fromNumber ∧ fromNumber < 2 ^ 63
  | txsStatus number txsHash => 0 ≤ number ∧ number < 2 ^ 63 ∧ FitsVector (encodeTxsStatus number txsHash)
  | transactions txRLPs consIndex =>
    consIndex < 2 ^ 63 ∧ FitsVector (encodeTransactions .RC2 txRLPs true consIndex)
  | voteReq m =>
    m.toRaftMsg.InRange ∧ m.candidate < 2 ^ 16 ∧ m.lastLeaderTerm < 2 ^ 63
      ∧ 0 ≤ m.lastBlockNumber ∧ m.lastBlockNumber < 2 ^ 63
  | voteResp m => m.toRaftMsg.InRange ∧ m.lastLeaderTerm < 2 ^ 63
  | heartBeat m =>
    m.toRaftMsg.InRange ∧ m.leader < 2 ^ 16 ∧ 0 ≤ m.uncommitedBlockNumber ∧ m.uncommitedBlockNumber < 2 ^ 63
      ∧ FitsVector (transDataToMessage m.streamRLPFields RaftHeartBeatPacket)
  | heartBeatResp m => m.toRaftMsg.InRange

/-- The receiver gets every number of the message as it was, whatever its own object held. -/
def Survives : Message → Prop
  | status p => ∀ p₀, p.Survives p₀
  | statusWithAlignedTime p => ∀ p₀, p.SurvivesWithAlignedTime p₀
  | reqBlock fromNumber size => ReqBlockSurvives fromNumber size
  | txsStatus number txsHash => TxsStatusSurvives number txsHash
  | transactions txRLPs consIndex => TransactionsSurvive txRLPs consIndex
  | voteReq m => ∀ m₀, m.Survives m₀
  | voteResp m => ∀ m₀, m.Survives m₀
  | heartBeat m => ∀ m₀, m.Survives m₀
  | heartBeatResp m => ∀ m₀, m.Survives m₀

/-- The numbers that go through `append(unsigned)` fit 32 bits; the number of
    offsets of an encoded transaction list does too. -/
def Narrow : Message → Prop
  | status _ => True
  | statusWithAlignedTime _ => True
  | reqBlock fromNumber _ => fromNumber < 2 ^ 32
  | txsStatus number _ => number < 2 ^ 32
  | transactions txRLPs consIndex => consIndex < 2 ^ 32 ∧ UInt32.ofNat txRLPs.length + 1 ≠ 0
  | voteReq m => m.toRaftMsg.Narrow ∧ m.lastLeaderTerm < 2 ^ 32 ∧ m.lastBlockNumber < 2 ^ 32
  | voteResp m => m.toRaftMsg.Narrow ∧ m.lastLeaderTerm < 2 ^ 32
  | heartBeat m => m.toRaftMsg.Narrow ∧ m.uncommitedBlockNumber < 2 ^ 32
  | heartBeatResp m => m.toRaftMsg.Narrow

end Message

/-- **A message survives the wire exactly when its streamed numbers fit 32 bits.** -/
theorem numbers_survive_iff (m : Message) (h : m.InRange) : m.Survives ↔ m.Narrow := by
  cases m with
  | status p => exact iff_of_true (fun p₀ => SyncStatusPacket.survives p₀ h) trivial
  | statusWithAlignedTime p =>
    exact iff_of_true (fun p₀ => SyncStatusPacket.survivesWithAlignedTime p₀ h) trivial
  | reqBlock fromNumber size => exact reqBlockSurvives_iff h.1 size
  | txsStatus number txsHash => exact txsStatusSurvives_iff h.1 txsHash h.2.2
  | transactions txRLPs consIndex => exact transactionsSurvive_iff txRLPs consIndex h.2
  | voteReq m =>
    obtain ⟨hm, hcandidate, -, hnumber, -⟩ := h
    have hiff := fun m₀ => RaftVoteReq.survives_iff m₀ hm hcandidate hnumber
    exact ⟨fun hall => (hiff m).mp (hall m), fun hnarrow m₀ => (hiff m₀).mpr hnarrow⟩
  | voteResp m =>
    have hiff := fun m₀ => RaftVoteResp.survives_iff m₀ h.1
    exact ⟨fun hall => (hiff m).mp (hall m), fun hnarrow m₀ => (hiff m₀).mpr hnarrow⟩
  | heartBeat m =>
    obtain ⟨hm, hleader, hnumber, -, hfit⟩ := h
    have hiff := fun m₀ => RaftHeartBeat.survives_iff m₀ hm hleader hnumber hfit
    exact ⟨fun hall => (hiff m).mp (hall m), fun hnarrow m₀ => (hiff m₀).mpr hnarrow⟩
  | heartBeatResp m =>
    have hiff := fun m₀ => RaftHeartBeatResp.survives_iff m₀ h
    exact ⟨fun hall => (hiff m).mp (hall m), fun hnarrow m₀ => (hiff m₀).mpr hnarrow⟩

theorem numbers_survive_iff_at_five :
    Message.Survives (.reqBlock 5 32) ↔ Message.Narrow (.reqBlock 5 32) :=
  numbers_survive_iff (.reqBlock 5 32) ⟨by decide, by decide⟩

/-- A request that starts at block 2^32 arrives as one that starts at block 0. -/
theorem numbers_are_cut : ¬ ∀ m : Message, m.InRange → m.Survives := by
  intro h
  have hsurvives := h (.reqBlock (2 ^ 32) 32) ⟨by decide, by decide⟩
  exact absurd ((reqBlockSurvives_iff (by decide) 32).mp hsurvives) (by decide)

end HieraChain.WireNumbers
