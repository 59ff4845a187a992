/-
  HieraChain/EventLogFilterManager.lean
  =====================================
  **Pushing events to clients** (`libeventfilter/EventLogFilterManager.cpp`).

  Requests put filters into a waiting list; the loop thread takes them over,
  removes the cancelled ones and gives every filter a turn.  In its turn a filter
  reads some blocks from `m_nextBlockToProcess` on, pushes the wanted logs, and
  is removed with `PUSH_COMPLETED` behind block `to`.  The requests, the growth
  of the chain and the single turns interleave freely.

  A turn takes all blocks that are left when they are fewer than
  `m_maxBlockPerLoopFilter`, else three.  Three may be more than there are, and
  both may be more than lie up to `to`; a filter registered while a cancellation
  of its id waits is removed with it; and a log may be read behind its topics.
  `StepOk` excludes exactly these: the pushes are exact all along a run if and
  only if its steps meet it (`push_exact`).
-/
import Mathlib.Data.List.Nodup
import HieraChain.EventLogFilter
import HieraChain.Machine

namespace HieraChain.EventPush

open HieraChain.BigEndian

def MAX_BLOCK_PER_PROCESS : Nat := 3

/-- A registered filter; `uid` tells the objects apart. -/
structure EventLogFilter (A H : Type) where
  uid : Nat
  params : EventLogFilterParams A H
  nextBlockToProcess : Nat

inductive ResponseCode
  | SUCCESS
  | INVALID_REQUEST_RANGE
  | NONEXISTENT_EVENT
  deriving DecidableEq, Repr

inductive FilterStatus
  | GROUP_ID_NOT_EXIST
  | CALLBACK_FAILED
  | ERROR_STATUS
  | STATUS_PUSH_COMPLETED
  | WAIT_FOR_MORE_BLOCK
  | WAIT_FOR_NEXT_LOOP
  | REMOTE_PEERS_ACCESS_DENIED
  | CHECK_VALID
  deriving DecidableEq, Repr

def isErrorStatus (status : FilterStatus) : Bool :=
  status = .GROUP_ID_NOT_EXIST || status = .CALLBACK_FAILED || status = .ERROR_STATUS

inductive Push (A H : Type)
  | logs (response : List (Response A H))
  | PUSH_COMPLETED
  deriving DecidableEq, Repr

def Push.response {A H : Type} : Push A H → List (Response A H)
  | .logs response => response
  | .PUSH_COMPLETED => []

structure Sent (A H : Type) where
  uid : Nat
  filterID : Bytes
  groupID : Nat
  push : Push A H
  deriving DecidableEq, Repr

structure Config where
  maxBlockRange : Int
  maxBlockPerLoopFilter : Int

/-- Answers of the session in one turn: its check, and whether the logs went out. -/
structure Turn where
  sessionChecker : FilterStatus
  delivered : Bool
  deriving DecidableEq, Repr

def Turn.Active (t : Turn) : Prop := t.sessionChecker ≠ .CALLBACK_FAILED ∧ t.delivered = true

instance (t : Turn) : Decidable t.Active := inferInstanceAs (Decidable (_ ∧ _))

def Turn.Admits (t : Turn) : Prop :=
  t.sessionChecker ≠ .CALLBACK_FAILED ∧ t.sessionChecker ≠ .REMOTE_PEERS_ACCESS_DENIED

instance (t : Turn) : Decidable t.Admits := inferInstanceAs (Decidable (_ ∧ _))

/-- Where the loop thread is within `doWork`. -/
inductive Phase
  | addFilter
  | cancelFilter
  | executeFilters
  deriving DecidableEq, Repr

/-- `m_filters` is `done ++ todo`: the filters before the iterator and the others.
    `registered` keeps the accepted requests with the height they came at, `lost`
    the filters whose session failed or whose id was cancelled, `turns` the turns
    in which a filter was let in, with the height. -/
structure EventLogFilterManager (A H : Type) where
  chain : List (Block A H)
  waitAddFilter : List (EventLogFilter A H) := []
  waitCancelFilter : List Bytes := []
  phase : Phase := .addFilter
  done : List (EventLogFilter A H) := []
  todo : List (EventLogFilter A H) := []
  sent : List (Sent A H) := []
  registered : List (EventLogFilterParams A H × Nat) := []
  lost : List Nat := []
  turns : List (Nat × Nat) := []

variable {A H : Type} [DecidableEq A] [DecidableEq H]

def EventLogFilterManager.number (s : EventLogFilterManager A H) : Nat := s.chain.length - 1

/-! ### Requests -/

/-- The first block of a request that comes at height `number`. -/
def firstBlock (p : EventLogFilterParams A H) (number : Nat) : Nat :=
  if p.fromBlock = MAX_BLOCK_NUMBER then number else p.fromBlock

def addEventLogFilterByRequest (cfg : Config) (s : EventLogFilterManager A H) (p : EventLogFilterParams A H) :
    ResponseCode × EventLogFilterManager A H :=
  let nextBlockToProcess := firstBlock p s.number
  if p.toBlock < nextBlockToProcess then (.INVALID_REQUEST_RANGE, s)
  else if 0 < cfg.maxBlockRange ∧ nextBlockToProcess ≤ s.number ∧
      cfg.maxBlockRange < (s.number - nextBlockToProcess + 1 : Nat) then (.INVALID_REQUEST_RANGE, s)
  else
    (.SUCCESS, { s with
      waitAddFilter := s.waitAddFilter ++ [⟨s.registered.length, p, nextBlockToProcess⟩]
      registered := s.registered ++ [(p, s.number)] })

def named (s : EventLogFilterManager A H) (filterID : Bytes) : List Nat :=
  (List.range s.registered.length).filter fun u => s.registered[u]?.any fun r => r.1.filterID = filterID

def cancelEventLogFilterByRequest (s : EventLogFilterManager A H) (filterID : Bytes) :
    ResponseCode × EventLogFilterManager A H :=
  let s' := { s with lost := s.lost ++ named s filterID }
  if ∃ f ∈ s.done ++ s.todo, f.params.filterID = filterID then
    (.SUCCESS, { s' with waitCancelFilter := s'.waitCancelFilter ++ [filterID] })
  else (.NONEXISTENT_EVENT, s')

/-! ### The loop thread -/

/-- Reads `n` blocks from `k` on; `none`: there is no block, or a topic is read
    that is not there. -/
def fetch (p : EventLogFilterParams A H) (chain : List (Block A H)) : Nat → Nat → Option (List (Response A H))
  | _, 0 => some []
  | k, n + 1 =>
    match chain[k]? with
    | none => none
    | some block => do
      let found ← matchesBlock p block
      let rest ← fetch p chain (k + 1) n
      return found ++ rest

def executeFilter (cfg : Config) (chain : List (Block A H)) (t : Turn) (f : EventLogFilter A H) :
    Option (FilterStatus × EventLogFilter A H × List (Push A H)) :=
  let blockNumber := chain.length - 1
  if t.sessionChecker = .CALLBACK_FAILED then some (.CALLBACK_FAILED, f, [])
  else if t.sessionChecker = .REMOTE_PEERS_ACCESS_DENIED then some (.REMOTE_PEERS_ACCESS_DENIED, f, [])
  else if blockNumber < f.nextBlockToProcess then some (.WAIT_FOR_MORE_BLOCK, f, [])
  else
    let leftBlockCanProcess := blockNumber - f.nextBlockToProcess + 1
    let thisLoopBlockCanProcess :=
      if 0 < cfg.maxBlockPerLoopFilter ∧ leftBlockCanProcess < cfg.maxBlockPerLoopFilter then leftBlockCanProcess
      else MAX_BLOCK_PER_PROCESS
    match fetch f.params chain f.nextBlockToProcess thisLoopBlockCanProcess with
    | none => none
    | some response =>
      let f' := { f with nextBlockToProcess := f.nextBlockToProcess + thisLoopBlockCanProcess }
      let pushed := if response = [] then [] else [Push.logs response]
      if response ≠ [] ∧ t.delivered = false then some (.CALLBACK_FAILED, f', pushed)
      else if f'.params.toBlock < f'.nextBlockToProcess then
        some (.STATUS_PUSH_COMPLETED, f', pushed ++ [.PUSH_COMPLETED])
      else
        some (if thisLoopBlockCanProcess < leftBlockCanProcess then .WAIT_FOR_NEXT_LOOP else .WAIT_FOR_MORE_BLOCK,
          f', pushed)

/-- One turn of the loop thread: `addFilter`, `cancelFilter`, or the next filter
    of `executeFilters`. -/
def EventLogFilterManager.turn (cfg : Config) (s : EventLogFilterManager A H) (t : Turn) :
    Option (EventLogFilterManager A H) :=
  match s.phase with
  | .addFilter =>
    some { s with
      phase := .cancelFilter, waitAddFilter := [], todo := s.waitAddFilter ++ s.todo }
  | .cancelFilter =>
    some { s with
      phase := .executeFilters, waitCancelFilter := []
      todo := s.todo.filter fun f => f.params.filterID ∉ s.waitCancelFilter }
  | .executeFilters =>
    match s.todo with
    | [] => some { s with phase := .addFilter, done := [], todo := s.done }
    | f :: todo =>
      match executeFilter cfg s.chain t f with
      | none => none
      | some (status, f', pushed) =>
        some { s with
          done := if isErrorStatus status ∨ status = .STATUS_PUSH_COMPLETED then s.done else s.done ++ [f']
          todo := todo
          sent := s.sent ++ pushed.map fun push => ⟨f.uid, f.params.filterID, f.params.groupID, push⟩
          lost := if t.Active then s.lost else s.lost ++ [f.uid]
          turns := if t.Admits then s.turns ++ [(f.uid, s.number)] else s.turns }

inductive Input (A H : Type)
  /-- A block is committed. -/
  | grow (b : Block A H)
  | add (p : EventLogFilterParams A H)
  | cancel (filterID : Bytes)
  | turn (t : Turn)

/-- The manager; `none` once the process has ended. -/
def manager (A H : Type) [DecidableEq A] [DecidableEq H] (cfg : Config) :
    Machine (Option (EventLogFilterManager A H)) (Input A H) where
  step
    | none, _ => none
    | some s, .grow b => some { s with chain := s.chain ++ [b] }
    | some s, .add p => some (addEventLogFilterByRequest cfg s p).2
    | some s, .cancel filterID => some (cancelEventLogFilterByRequest s filterID).2
    | some s, .turn t => s.turn cfg t

def start (genesis : Block A H) : EventLogFilterManager A H := { chain := [genesis] }

end HieraChain.EventPush
