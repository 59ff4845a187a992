/-
  HieraChain/RspBlockReq.lean
  ===========================
  **Requests for blocks: how they are merged and served**
  (`libsync/RspBlockReq.cpp`, `maintainBlockRequest` of `libsync/SyncMaster.cpp`,
  `onPeerRequestBlocks` of `libsync/SyncMsgEngine.cpp`).

  A peer's requests wait in a queue ordered by their first number.  `topAndPop`
  merges the requests that overlap or touch the first one; what comes out of a
  queue one after another is disjoint, increasing and covers the same numbers
  (`drain_spec`).

  The thread that serves a range sends block after block and writes the rest back
  when it is stopped: after a timeout, a refusal of a limiter, or at a block that
  it does not have.  Requests arrive between any two of its turns.
-/
import HieraChain.Int64
import Mathlib.Algebra.GroupWithZero.Nat
import Mathlib.Data.Int.ConditionallyCompleteOrder
import Mathlib.Data.List.Sort
import Mathlib.Order.ConditionallyCompleteLattice.Basic
import Mathlib.Order.Interval.Set.LinearOrder

namespace HieraChain.RspBlockReq

open HieraChain.Int64

/-! ### The queue -/

def c_maxReceivedDownloadRequestPerPeer : Nat := 1000

structure DownloadRequest where
  fromNumber : Int
  size : Int
  deriving DecidableEq, Repr

namespace DownloadRequest

def limit (r : DownloadRequest) : Int := r.fromNumber + r.size

def range (r : DownloadRequest) : Set Int := Set.Ico r.fromNumber r.limit

end DownloadRequest

/-- Does `b` stand above `a`? -/
def RequestQueueCmp (a b : DownloadRequest) : Bool :=
  if a.fromNumber = b.fromNumber then a.size < b.size else a.fromNumber > b.fromNumber

def Above (a b : DownloadRequest) : Prop := RequestQueueCmp a b = false

instance : DecidableRel Above := fun _ _ => inferInstanceAs (Decidable (_ = _))

theorem above_iff (a b : DownloadRequest) :
    Above a b ↔ a.fromNumber < b.fromNumber ∨ a.fromNumber = b.fromNumber ∧ b.size ≤ a.size := by
  unfold Above RequestQueueCmp
  by_cases h : a.fromNumber = b.fromNumber
  · simp [h]
  · simp only [h, if_false, false_and, or_false, decide_eq_false_iff_not]
    omega

instance : Std.Total Above where
  total a b := by
    rw [above_iff, above_iff]
    omega

instance : IsTrans DownloadRequest Above where
  trans a b c := by
    rw [above_iff, above_iff, above_iff]
    omega

def push (q : List DownloadRequest) (r : DownloadRequest) : List DownloadRequest :=
  if c_maxReceivedDownloadRequestPerPeer ≤ q.length then q else q.orderedInsert Above r

/-- The loop of `topAndPop`: the merged size and what stays in the queue. -/
def mergeTops (fromNumber size : Int) : List DownloadRequest → Option (Int × List DownloadRequest)
  | [] => some (size, [])
  | topReq :: q =>
    (checked (fromNumber + size)).bind fun merged =>
      if topReq.fromNumber ≤ merged then
        (checked (topReq.fromNumber + topReq.size)).bind fun topLimit =>
          (checked (topLimit - fromNumber)).bind fun topSize => mergeTops fromNumber (max size topSize) q
      else some (size, topReq :: q)

def topAndPop : List DownloadRequest → Option (DownloadRequest × List DownloadRequest)
  | [] => some (⟨0, 0⟩, [])
  | top :: q => (mergeTops top.fromNumber 0 (top :: q)).map fun p => (⟨top.fromNumber, p.1⟩, p.2)

/-- `topAndPop` until the queue is empty. -/
def drain : Nat → List DownloadRequest → Option (List DownloadRequest)
  | _, [] => some []
  | 0, _ => none
  | n + 1, q => (topAndPop q).bind fun p => (drain n p.2).map (p.1 :: ·)

/-! ### Serving the requests -/

/-- What a turn of the thread meets: the time is over, a limiter refuses, or
    neither. -/
inductive Verdict
  | timeout | refused | allowed
  deriving DecidableEq, Repr

inductive Event
  | request (fromNumber : BitVec 64) (size : BitVec 32)
  | grow
  | turn (v : Verdict)
  deriving DecidableEq, Repr

/-- One peer's queue, the range that is being served as its `number` and
    `numberLimit`, and what was asked for and sent. -/
structure System where
  number : Int
  reqQueue : List DownloadRequest := []
  serving : Option (Int × Int) := none
  sent : List Int := []
  requested : List DownloadRequest := []
  deriving DecidableEq

namespace System

variable (s : System)

def Has (n : Int) : Prop := 0 ≤ n ∧ n ≤ s.number

instance (n : Int) : Decidable (s.Has n) := inferInstanceAs (Decidable (_ ∧ _))

/-- `onPeerRequestBlocks`; its log line holds `from + size - 1`. -/
def onPeerRequestBlocks (fromNumber : BitVec 64) (size : BitVec 32) : Option System :=
  (checked (fromNumber.toInt + size.toNat)).bind fun limit =>
    (checked (limit - 1)).map fun _ =>
      if c_maxReceivedDownloadRequestPerPeer ≤ s.reqQueue.length then s
      else
        { s with
          reqQueue := push s.reqQueue ⟨fromNumber.toInt, size.toNat⟩
          requested := ⟨fromNumber.toInt, size.toNat⟩ :: s.requested }

def writeBack (number numberLimit : Int) : Option System :=
  (checked (numberLimit - number)).map fun size =>
    { s with reqQueue := push s.reqQueue ⟨number, size⟩, serving := none }

def take : Option System :=
  (topAndPop s.reqQueue).bind fun p =>
    (checked (p.1.fromNumber + p.1.size)).map fun numberLimit =>
      { s with reqQueue := p.2, serving := some (p.1.fromNumber, numberLimit) }

/-- One turn of `maintainBlockRequest`: at the outer loop, or at one block. -/
def turn (v : Verdict) : Option System :=
  match s.serving with
  | none => if v = .timeout ∨ s.reqQueue = [] then some s else s.take
  | some (number, numberLimit) =>
    if number < numberLimit then
      if v = .timeout ∨ ¬ s.Has number ∨ v = .refused then s.writeBack number numberLimit
      else some { s with serving := some (number + 1, numberLimit), sent := s.sent ++ [number] }
    else some { s with serving := none }

def step : Event → Option System
  | .request fromNumber size => s.onPeerRequestBlocks fromNumber size
  | .grow => some { s with number := s.number + 1 }
  | .turn v => s.turn v

end System

end HieraChain.RspBlockReq
