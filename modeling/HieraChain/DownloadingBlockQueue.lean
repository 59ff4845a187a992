/-
  HieraChain/DownloadingBlockQueue.lean
  =====================================
  **The queue of downloaded blocks** (`libsync/DownloadingBlockQueue.h`,
  `DownloadingBlockQueue.cpp`): no block is lost, and its size is counted.

  A shard is the list of blocks of one packet, kept as bytes in a buffer.  A flush
  decodes the shards into a priority queue.  What a block's decoding gives is the
  number of its header, or nothing where an exception is thrown; it is a parameter
  (`decode`), as is the number of the chain.  Which one of several blocks with the
  smallest number the priority queue gives is an input (`tie`).

  Two paths go wrong.  `clearQueue` empties the queue and leaves `m_blockQueueSize`
  as it is, which `pop` does not.  `flushBufferToQueue` takes a shard from the
  buffer before it asks whether the queue has room, and a shard without room is
  gone.  `kept_iff` says that nothing else goes wrong.
-/
import HieraChain.Machine
import HieraChain.MissedTxs
import Mathlib.Algebra.BigOperators.Group.List.Basic
import Mathlib.Data.Finset.Max
import Mathlib.Data.Multiset.AddSub
import Mathlib.Tactic.Abel

namespace HieraChain

open HieraChain.BigEndian HieraChain.RLP

namespace Sync

def c_maxRequestBlocks : Int := 32
def c_maxRequestShards : Nat := 4
def c_maxDownloadingBlockQueueSize : Nat := c_maxRequestShards * 32 * 2
def c_maxDownloadingBlockQueueBufferSize : Nat := c_maxDownloadingBlockQueueSize
def m_blockSizeExpandCoeff : Int := 3

structure QueuedBlock where
  rlp : Bytes
  number : Int
  deriving DecidableEq

def QueuedBlock.blockSize (b : QueuedBlock) : Int := b.rlp.length

end Sync

open Sync in
structure DownloadingBlockQueue where
  m_blocks : List QueuedBlock := []
  m_buffer : List Bytes := []
  m_maxBlockQueueSize : Int := 512 * 1024 * 1024
  m_blockQueueSize : Int := 0
  m_maxRequestBlocks : Int := 8
  m_averageBlockSize : Int := 0
  m_averageCalCount : Int := 0
  deriving DecidableEq

namespace DownloadingBlockQueue

open Sync

/-! ### The source -/

def push (q : DownloadingBlockQueue) (rlps : Bytes) : DownloadingBlockQueue :=
  if c_maxDownloadingBlockQueueBufferSize ≤ q.m_buffer.length then q
  else { q with m_buffer := q.m_buffer ++ [rlps] }

/-- The product of the average size and `c_maxRequestShards` is a `size_t`, so that
    the free size is divided as one, too. -/
def adjustMaxRequestBlocks (q : DownloadingBlockQueue) : DownloadingBlockQueue :=
  if q.m_averageBlockSize = 0 then q
  else
    let freeQueueSize := q.m_maxBlockQueueSize - q.m_blockQueueSize
    let maxRequestBlocks := Int.bmod
      (freeQueueSize % 2 ^ 64 / (q.m_averageBlockSize * c_maxRequestShards % 2 ^ 64)) (2 ^ 64)
    if c_maxRequestBlocks < maxRequestBlocks then { q with m_maxRequestBlocks := c_maxRequestBlocks }
    else { q with m_maxRequestBlocks := max 1 maxRequestBlocks }

/-- The blocks that `priority_queue::top` may give. -/
def lowest (blocks : List QueuedBlock) : List QueuedBlock :=
  blocks.filter fun b => blocks.all fun b' => b.number ≤ b'.number

/-- `m_blocks.top()`. -/
def topBlock (tie : Nat) (blocks : List QueuedBlock) : Option QueuedBlock :=
  (lowest blocks)[tie % (lowest blocks).length]?

def pop (tie : Nat) (q : DownloadingBlockQueue) : DownloadingBlockQueue :=
  match topBlock tie q.m_blocks with
  | some block =>
    { q with
      m_blockQueueSize := q.m_blockQueueSize - block.blockSize * m_blockSizeExpandCoeff
      m_blocks := q.m_blocks.erase block }
  | none => { q with m_maxRequestBlocks := c_maxRequestBlocks }

def clearQueue (q : DownloadingBlockQueue) : DownloadingBlockQueue := { q with m_blocks := [] }

def clear (q : DownloadingBlockQueue) : DownloadingBlockQueue := clearQueue { q with m_buffer := [] }

def isNewerBlock (chain : Option Int) (block : QueuedBlock) : Bool :=
  match chain with
  | some number => number < block.number
  | none => true

/-- `Block(rlps[i].toBytes(), …)`. -/
def decodeBlock (decode : Bytes → Option Int) (item : Except RLPError Bytes) : Option QueuedBlock :=
  match item with
  | .ok bytes => (decode bytes).map fun number => ⟨bytes, number⟩
  | .error _ => none

/-- A turn of the loop of `flushOneShard`. -/
def flushItem (decode : Bytes → Option Int) (chain : Option Int) (q : DownloadingBlockQueue)
    (item : Except RLPError Bytes) : DownloadingBlockQueue :=
  match decodeBlock decode item with
  | none => q
  | some block =>
    if isNewerBlock chain block then
      let blockSize := block.blockSize * m_blockSizeExpandCoeff
      { q with
        m_blocks := q.m_blocks ++ [block]
        m_blockQueueSize := q.m_blockQueueSize + blockSize
        m_averageBlockSize :=
          if q.m_averageBlockSize = 0 then blockSize
          else (blockSize + q.m_averageBlockSize * q.m_averageCalCount).tdiv (q.m_averageCalCount + 1)
        m_averageCalCount := q.m_averageCalCount + 1 }
    else q

/-- The bytes of the items of a shard; a list that cannot be counted throws. -/
def shardItems (blocksBytes : Bytes) : Except RLPError (List (Except RLPError Bytes)) := do
  let rlps ← ofVeryStrict blocksBytes
  let itemCount ← if isList rlps then (do let pl ← payload rlps; itemCountFrom pl.length pl) else .ok 0
  return (List.range itemCount).map fun i => (index rlps i).bind toBytes

/-- `false` where the queue is full. -/
def flushOneShard (decode : Bytes → Option Int) (chain : Option Int) (q : DownloadingBlockQueue)
    (blocksBytes : Bytes) : Except RLPError (DownloadingBlockQueue × Bool) :=
  if c_maxDownloadingBlockQueueSize ≤ q.m_blocks.length then .ok (q, false)
  else (shardItems blocksBytes).map fun items => (items.foldl (flushItem decode chain) q, true)

/-- The loop of `flushBufferToQueue`; an exception leaves it. -/
def flushLoop (decode : Bytes → Option Int) (chain : Option Int) :
    List Bytes → DownloadingBlockQueue → DownloadingBlockQueue × Option RLPError
  | [], q => ({ q with m_buffer := [] }, none)
  | blocksShard :: rest, q =>
    match flushOneShard decode chain { q with m_buffer := rest } blocksShard with
    | .ok (q, true) => flushLoop decode chain rest q
    | .ok (q, false) => (q, none)
    | .error e => ({ q with m_buffer := rest }, some e)

def flushBufferToQueue (decode : Bytes → Option Int) (chain : Option Int) (q : DownloadingBlockQueue) :
    DownloadingBlockQueue × Option RLPError :=
  flushLoop decode chain q.m_buffer q

/-- The queue has the maximal number of blocks, none of them up to the given one. -/
def needClear (blockNumber : Int) (q : DownloadingBlockQueue) : Bool :=
  q.m_blocks.length = c_maxDownloadingBlockQueueSize
    && (topBlock 0 q.m_blocks).any fun top => blockNumber < top.number

def clearFullQueueIfNotHas (blockNumber : Int) (q : DownloadingBlockQueue) : DownloadingBlockQueue :=
  if needClear blockNumber q then clearQueue q else q

def top (decode : Bytes → Option Int) (chain : Option Int) (isFlushBuffer : Bool) (tie : Nat)
    (q : DownloadingBlockQueue) : DownloadingBlockQueue × Except RLPError (Option QueuedBlock) :=
  if isFlushBuffer then
    match q.flushBufferToQueue decode chain with
    | (q, some e) => (q, .error e)
    | (q, none) => (q, .ok (topBlock tie q.m_blocks))
  else (q, .ok (topBlock tie q.m_blocks))

/-! ### Calls -/

inductive Call where
  | push (rlps : Bytes)
  | flushBufferToQueue (chain : Option Int)
  | top (chain : Option Int) (isFlushBuffer : Bool) (tie : Nat)
  | pop (tie : Nat)
  | clear
  | clearQueue
  | clearFullQueueIfNotHas (blockNumber : Int)
  | adjustMaxRequestBlocks
  | setMaxBlockQueueSize (size : Int)

def call (decode : Bytes → Option Int) (q : DownloadingBlockQueue) : Call → DownloadingBlockQueue
  | .push rlps => q.push rlps
  | .flushBufferToQueue chain => (q.flushBufferToQueue decode chain).1
  | .top chain isFlushBuffer tie => (q.top decode chain isFlushBuffer tie).1
  | .pop tie => q.pop tie
  | .clear => q.clear
  | .clearQueue => q.clearQueue
  | .clearFullQueueIfNotHas blockNumber => q.clearFullQueueIfNotHas blockNumber
  | .adjustMaxRequestBlocks => q.adjustMaxRequestBlocks
  | .setMaxBlockQueueSize size => { q with m_maxBlockQueueSize := size }

/-! ### The books of a run -/

def decodable (decode : Bytes → Option Int) (blocksBytes : Bytes) : List QueuedBlock :=
  match shardItems blocksBytes with
  | .ok items => items.filterMap (decodeBlock decode)
  | .error _ => []

def buffered (decode : Bytes → Option Int) (buffer : List Bytes) : List QueuedBlock :=
  buffer.flatMap (decodable decode)

/-- A queue with what came in and went out: the decodable blocks of the shards
    that `push` took, those that `pop` and the clearing calls removed, and those that
    were not newer than the chain when their shard was flushed; and what the last call
    of `top` gave. -/
structure Traced where
  queue : DownloadingBlockQueue := {}
  accepted : Multiset QueuedBlock := 0
  removed : Multiset QueuedBlock := 0
  stale : Multiset QueuedBlock := 0
  answer : Option (Except RLPError (Option QueuedBlock)) := none

def acceptedBy (decode : Bytes → Option Int) (q : DownloadingBlockQueue) : Call → List QueuedBlock
  | .push rlps =>
    if c_maxDownloadingBlockQueueBufferSize ≤ q.m_buffer.length then [] else decodable decode rlps
  | _ => []

def removedBy (decode : Bytes → Option Int) (q : DownloadingBlockQueue) : Call → List QueuedBlock
  | .pop tie => (topBlock tie q.m_blocks).toList
  | .clear => buffered decode q.m_buffer ++ q.m_blocks
  | .clearQueue => q.m_blocks
  | .clearFullQueueIfNotHas blockNumber => if needClear blockNumber q then q.m_blocks else []
  | _ => []

def taken (decode : Bytes → Option Int) (chain : Option Int) (q : DownloadingBlockQueue) : List Bytes :=
  q.m_buffer.take (q.m_buffer.length - (q.flushBufferToQueue decode chain).1.m_buffer.length)

def staleOf (decode : Bytes → Option Int) (chain : Option Int) (q : DownloadingBlockQueue) : List QueuedBlock :=
  (buffered decode (taken decode chain q)).filter fun b => !isNewerBlock chain b

def staleBy (decode : Bytes → Option Int) (q : DownloadingBlockQueue) : Call → List QueuedBlock
  | .flushBufferToQueue chain => staleOf decode chain q
  | .top chain isFlushBuffer _ => if isFlushBuffer then staleOf decode chain q else []
  | _ => []

def answerOf (decode : Bytes → Option Int) (q : DownloadingBlockQueue) :
    Call → Option (Except RLPError (Option QueuedBlock))
  | .top chain isFlushBuffer tie => some (q.top decode chain isFlushBuffer tie).2
  | _ => none

def tracedCall (decode : Bytes → Option Int) (s : Traced) (c : Call) : Traced where
  queue := s.queue.call decode c
  accepted := s.accepted + acceptedBy decode s.queue c
  removed := s.removed + removedBy decode s.queue c
  stale := s.stale + staleBy decode s.queue c
  answer := answerOf decode s.queue c

def machine (decode : Bytes → Option Int) : Machine Traced Call := ⟨tracedCall decode⟩

/-! ### What should be kept -/

def totalSize (blocks : List QueuedBlock) : Int := (blocks.map QueuedBlock.blockSize).sum

def RightTop (blocks : List QueuedBlock) : Option QueuedBlock → Prop
  | some b => b ∈ blocks ∧ ∀ b' ∈ blocks, b.number ≤ b'.number
  | none => blocks = []

/-- The size is that of the queue, `top` gave a right block, and every accepted block
    is where it should be. -/
structure Kept (decode : Bytes → Option Int) (s : Traced) : Prop where
  accounted : s.queue.m_blockQueueSize = m_blockSizeExpandCoeff * totalSize s.queue.m_blocks
  answered : ∀ answer, s.answer = some answer → ∃ block, answer = .ok block ∧ RightTop s.queue.m_blocks block
  conserved : s.accepted = buffered decode s.queue.m_buffer + s.queue.m_blocks + s.removed + s.stale

def newerBlocks (decode : Bytes → Option Int) (chain : Option Int) (blocksBytes : Bytes) : List QueuedBlock :=
  (decodable decode blocksBytes).filter (isNewerBlock chain)

/-- Going through the buffer with so many blocks in the queue: the newer blocks of the
    shard that is taken when the queue is full, and whether a shard before cannot be
    read. -/
def reach (decode : Bytes → Option Int) (chain : Option Int) : Nat → List Bytes → List QueuedBlock × Bool
  | _, [] => ([], false)
  | n, blocksShard :: rest =>
    if c_maxDownloadingBlockQueueSize ≤ n then (newerBlocks decode chain blocksShard, false)
    else
      match shardItems blocksShard with
      | .ok _ => reach decode chain (n + (newerBlocks decode chain blocksShard).length) rest
      | .error _ => ([], true)

/-- The calls that go right: a flush does not come to a newer block with a full queue,
    `top` meets no shard that cannot be read, and nothing is cleared but an empty
    queue. -/
def Fits (decode : Bytes → Option Int) (q : DownloadingBlockQueue) : Call → Prop
  | .flushBufferToQueue chain => (reach decode chain q.m_blocks.length q.m_buffer).1 = []
  | .top chain isFlushBuffer _ => isFlushBuffer = true → reach decode chain q.m_blocks.length q.m_buffer = ([], false)
  | .clear => totalSize q.m_blocks = 0
  | .clearQueue => totalSize q.m_blocks = 0
  | .clearFullQueueIfNotHas blockNumber => needClear blockNumber q = true → totalSize q.m_blocks = 0
  | _ => True

/-! ### The priority queue -/

theorem topBlock_right (tie : Nat) (blocks : List QueuedBlock) : RightTop blocks (topBlock tie blocks) := by
  cases htop : topBlock tie blocks with
  | some b =>
    have hmem := List.mem_of_getElem? htop
    rw [lowest, List.mem_filter, List.all_eq_true] at hmem
    exact ⟨hmem.1, fun b' hb' => of_decide_eq_true (hmem.2 b' hb')⟩
  | none =>
    by_contra hne
    obtain ⟨b₀, hb₀⟩ := List.exists_mem_of_ne_nil blocks hne
    obtain ⟨b, hb, hle⟩ := blocks.toFinset.exists_min_image QueuedBlock.number ⟨b₀, List.mem_toFinset.mpr hb₀⟩
    have hlowest : b ∈ lowest blocks := by
      rw [lowest, List.mem_filter, List.all_eq_true]
      exact ⟨List.mem_toFinset.mp hb, fun b' hb' => decide_eq_true (hle b' (List.mem_toFinset.mpr hb'))⟩
    have hlength := List.length_pos_of_mem hlowest
    rw [topBlock, List.getElem?_eq_getElem (Nat.mod_lt tie hlength)] at htop
    cases htop

theorem totalSize_append (a b : List QueuedBlock) : totalSize (a ++ b) = totalSize a + totalSize b := by
  rw [totalSize, List.map_append, List.sum_append]
  rfl

theorem totalSize_erase {blocks : List QueuedBlock} {b : QueuedBlock} (h : b ∈ blocks) :
    totalSize (blocks.erase b) = totalSize blocks - b.blockSize := by
  have hsum := ((List.perm_cons_erase h).map QueuedBlock.blockSize).sum_eq
  rw [List.map_cons, List.sum_cons] at hsum
  rw [totalSize, totalSize, hsum]
  omega

/-! ### A flush -/

section flush

variable {decode : Bytes → Option Int} {chain : Option Int}

def drift (q : DownloadingBlockQueue) : Int := q.m_blockQueueSize - m_blockSizeExpandCoeff * totalSize q.m_blocks

theorem buffered_cons (shard : Bytes) (shards : List Bytes) :
    buffered decode (shard :: shards) = decodable decode shard ++ buffered decode shards := List.flatMap_cons

theorem buffered_append (a b : List Bytes) : buffered decode (a ++ b) = buffered decode a ++ buffered decode b :=
  List.flatMap_append

theorem flushItems_spec (items : List (Except RLPError Bytes)) (q : DownloadingBlockQueue) :
    (items.foldl (flushItem decode chain) q).m_blocks
        = q.m_blocks ++ (items.filterMap (decodeBlock decode)).filter (isNewerBlock chain)
      ∧ (items.foldl (flushItem decode chain) q).m_buffer = q.m_buffer
      ∧ drift (items.foldl (flushItem decode chain) q) = drift q := by
  induction items generalizing q with
  | nil => exact ⟨(List.append_nil _).symm, rfl, rfl⟩
  | cons item items ih =>
    obtain ⟨hblocks, hbuffer, hdrift⟩ := ih (flushItem decode chain q item)
    rw [List.foldl_cons, hblocks, hbuffer, hdrift]
    cases hblock : decodeBlock decode item with
    | none =>
      have hsame : flushItem decode chain q item = q := by
        rw [flushItem, hblock]
      rw [hsame, List.filterMap_cons_none hblock]
      exact ⟨rfl, rfl, rfl⟩
    | some block =>
      rw [List.filterMap_cons_some hblock, List.filter_cons, flushItem, hblock]
      simp only
      split
      · refine ⟨List.append_assoc _ _ _, rfl, ?_⟩
        simp only [drift, totalSize_append]
        have hone : totalSize [block] = block.blockSize := by
          rw [totalSize, List.map_singleton, List.sum_singleton]
        rw [hone, Int.mul_add, Int.mul_comm block.blockSize]
        omega
      · exact ⟨rfl, rfl, rfl⟩

theorem decodable_of_items {blocksBytes : Bytes} {items : List (Except RLPError Bytes)}
    (h : shardItems blocksBytes = .ok items) :
    decodable decode blocksBytes = items.filterMap (decodeBlock decode) := by
  rw [decodable, h]

/-- A flush takes shards from the front of the buffer, and their newer blocks are in
    the queue, but for those that `reach` names. -/
theorem flushLoop_spec (buffer : List Bytes) (q : DownloadingBlockQueue) :
    ∃ shards, buffer = shards ++ (flushLoop decode chain buffer q).1.m_buffer
      ∧ (flushLoop decode chain buffer q).1.m_blocks ++ (reach decode chain q.m_blocks.length buffer).1
        = q.m_blocks ++ (buffered decode shards).filter (isNewerBlock chain)
      ∧ drift (flushLoop decode chain buffer q).1 = drift q
      ∧ (flushLoop decode chain buffer q).2.isSome = (reach decode chain q.m_blocks.length buffer).2 := by
  induction buffer generalizing q with
  | nil => exact ⟨[], rfl, rfl, rfl, rfl⟩
  | cons blocksShard rest ih =>
    have hone : buffered decode [blocksShard] = decodable decode blocksShard := by
      rw [buffered, List.flatMap_singleton]
    rw [flushLoop, flushOneShard, reach]
    by_cases hfull : c_maxDownloadingBlockQueueSize ≤ q.m_blocks.length
    · rw [if_pos hfull, if_pos hfull]
      exact ⟨[blocksShard], rfl, by rw [hone]; rfl, rfl, rfl⟩
    · rw [if_neg hfull, if_neg hfull]
      cases hitems : shardItems blocksShard with
      | error e =>
        have hnone : decodable decode blocksShard = [] := by
          rw [decodable, hitems]
        exact ⟨[blocksShard], rfl, by rw [hone, hnone]; rfl, rfl, rfl⟩
      | ok items =>
        obtain ⟨hblocks, -, hdrift⟩ :=
          @flushItems_spec decode chain items { q with m_buffer := rest }
        obtain ⟨shards, hsplit, hrest, hdriftRest, hthrown⟩ :=
          ih (items.foldl (flushItem decode chain) { q with m_buffer := rest })
        have hnewer : (items.filterMap (decodeBlock decode)).filter (isNewerBlock chain)
            = newerBlocks decode chain blocksShard := by
          rw [newerBlocks, decodable_of_items hitems]
        rw [hnewer] at hblocks
        rw [hblocks, List.length_append] at hrest hthrown
        refine ⟨blocksShard :: shards, congrArg _ hsplit, ?_, hdriftRest.trans hdrift, hthrown⟩
        refine hrest.trans ?_
        rw [List.append_assoc, buffered_cons, List.filter_append]
        rfl

theorem conserved_flush (q : DownloadingBlockQueue) :
    (buffered decode q.m_buffer : Multiset QueuedBlock) + q.m_blocks
      = buffered decode (q.flushBufferToQueue decode chain).1.m_buffer
        + (q.flushBufferToQueue decode chain).1.m_blocks + staleOf decode chain q
        + (reach decode chain q.m_blocks.length q.m_buffer).1 := by
  obtain ⟨shards, hsplit, hblocks, -, -⟩ := @flushLoop_spec decode chain q.m_buffer q
  have htaken : taken decode chain q = shards := by
    have hlength := congrArg List.length hsplit
    rw [List.length_append] at hlength
    unfold taken flushBufferToQueue
    rw [show q.m_buffer.length - (flushLoop decode chain q.m_buffer q).1.m_buffer.length = shards.length by omega]
    nth_rewrite 1 [hsplit]
    exact List.take_left
  have hshards : (buffered decode shards : Multiset QueuedBlock)
      = (buffered decode shards).filter (isNewerBlock chain) + staleOf decode chain q := by
    rw [staleOf, htaken, Multiset.coe_add]
    exact Multiset.coe_eq_coe.mpr (List.filter_append_perm (isNewerBlock chain) _).symm
  have hqueue : ((flushLoop decode chain q.m_buffer q).1.m_blocks : Multiset QueuedBlock)
        + (reach decode chain q.m_blocks.length q.m_buffer).1
      = q.m_blocks + (buffered decode shards).filter (isNewerBlock chain) := by
    rw [Multiset.coe_add, Multiset.coe_add, hblocks]
  have hbuffer : (buffered decode q.m_buffer : Multiset QueuedBlock)
      = buffered decode shards + buffered decode (flushLoop decode chain q.m_buffer q).1.m_buffer := by
    rw [Multiset.coe_add, ← buffered_append, ← hsplit]
  rw [hbuffer, hshards, flushBufferToQueue]
  calc
    _ = ((q.m_blocks : Multiset QueuedBlock) + (buffered decode shards).filter (isNewerBlock chain))
          + buffered decode (flushLoop decode chain q.m_buffer q).1.m_buffer + staleOf decode chain q := by abel
    _ = _ := by
      rw [← hqueue]
      abel

end flush

/-! ### Calls keep the books -/

section calls

variable {decode : Bytes → Option Int} {s : Traced}

theorem kept_of_drift (h : Kept decode s) : drift s.queue = 0 := by
  have := h.accounted
  rw [drift]
  omega

theorem conserved_flush_iff (h : Kept decode s) (chain : Option Int) :
    s.accepted = buffered decode (s.queue.flushBufferToQueue decode chain).1.m_buffer
        + (s.queue.flushBufferToQueue decode chain).1.m_blocks + s.removed
        + (s.stale + staleOf decode chain s.queue)
      ↔ (reach decode chain s.queue.m_blocks.length s.queue.m_buffer).1 = [] := by
  have hwhole : s.accepted = buffered decode (s.queue.flushBufferToQueue decode chain).1.m_buffer
        + (s.queue.flushBufferToQueue decode chain).1.m_blocks + s.removed
        + (s.stale + staleOf decode chain s.queue)
        + (reach decode chain s.queue.m_blocks.length s.queue.m_buffer).1 := by
    rw [h.conserved, @conserved_flush decode chain]
    abel
  rw [hwhole, add_eq_left, Multiset.coe_eq_zero]

theorem drift_flush (q : DownloadingBlockQueue) (chain : Option Int) :
    drift (q.flushBufferToQueue decode chain).1 = drift q := by
  obtain ⟨-, -, -, hdrift, -⟩ := @flushLoop_spec decode chain q.m_buffer q
  exact hdrift

theorem thrown_flush (q : DownloadingBlockQueue) (chain : Option Int) :
    (q.flushBufferToQueue decode chain).2.isSome = (reach decode chain q.m_blocks.length q.m_buffer).2 := by
  obtain ⟨-, -, -, -, hthrown⟩ := @flushLoop_spec decode chain q.m_buffer q
  exact hthrown

theorem accounted_iff (q : DownloadingBlockQueue) :
    q.m_blockQueueSize = m_blockSizeExpandCoeff * totalSize q.m_blocks ↔ drift q = 0 := by
  rw [drift]
  omega

theorem kept_of_same (h : Kept decode s) {q : DownloadingBlockQueue} (hblocks : q.m_blocks = s.queue.m_blocks)
    (hbuffer : q.m_buffer = s.queue.m_buffer) (hsize : q.m_blockQueueSize = s.queue.m_blockQueueSize) :
    Kept decode { s with queue := q, answer := none } where
  accounted := by rw [hsize, hblocks, h.accounted]
  answered := nofun
  conserved := by rw [hblocks, hbuffer, h.conserved]

theorem flush_iff (h : Kept decode s) (chain : Option Int) :
    Kept decode (tracedCall decode s (.flushBufferToQueue chain))
      ↔ Fits decode s.queue (.flushBufferToQueue chain) := by
  have hcall : tracedCall decode s (.flushBufferToQueue chain)
      = { s with queue := (s.queue.flushBufferToQueue decode chain).1,
                 stale := s.stale + staleOf decode chain s.queue, answer := none } := by
    simp only [tracedCall, call, acceptedBy, removedBy, staleBy, answerOf, Multiset.coe_nil, add_zero]
  rw [hcall]
  constructor
  · exact fun hkept => (conserved_flush_iff h chain).mp hkept.conserved
  · intro hfits
    exact
      { accounted := (accounted_iff _).mpr ((drift_flush _ chain).trans (kept_of_drift h))
        answered := nofun
        conserved := (conserved_flush_iff h chain).mpr hfits }

theorem top_iff (h : Kept decode s) (chain : Option Int) (isFlushBuffer : Bool) (tie : Nat) :
    Kept decode (tracedCall decode s (.top chain isFlushBuffer tie))
      ↔ Fits decode s.queue (.top chain isFlushBuffer tie) := by
  have hright : ∀ {q : DownloadingBlockQueue} {answer : Except RLPError (Option QueuedBlock)},
      answer = .ok (topBlock tie q.m_blocks) → ∃ block, answer = .ok block ∧ RightTop q.m_blocks block :=
    fun heq => ⟨_, heq, topBlock_right tie _⟩
  cases isFlushBuffer with
  | false =>
    refine iff_of_true ?_ nofun
    have hcall : tracedCall decode s (.top chain false tie)
        = { s with answer := some (.ok (topBlock tie s.queue.m_blocks)) } := by
      simp only [tracedCall, call, top, acceptedBy, removedBy, staleBy, answerOf, Bool.false_eq_true, if_false,
        Multiset.coe_nil, add_zero]
    rw [hcall]
    exact
      { accounted := h.accounted
        answered := fun answer hanswer => hright (Option.some.inj hanswer).symm
        conserved := h.conserved }
  | true =>
    have hthrown := @thrown_flush decode s.queue chain
    have hqueue : (s.queue.top decode chain true tie).1 = (s.queue.flushBufferToQueue decode chain).1 := by
      rw [top, if_pos rfl]
      split
      next heq => rw [heq]
      next heq => rw [heq]
    have hcall : tracedCall decode s (.top chain true tie)
        = { s with queue := (s.queue.flushBufferToQueue decode chain).1,
                   stale := s.stale + staleOf decode chain s.queue,
                   answer := some (s.queue.top decode chain true tie).2 } := by
      simp only [tracedCall, call, acceptedBy, removedBy, staleBy, answerOf, if_true, hqueue, Multiset.coe_nil,
        add_zero]
    rw [hcall]
    constructor
    · intro hkept _
      obtain ⟨block, hanswer, -⟩ := hkept.answered _ rfl
      have hlost := (conserved_flush_iff h chain).mp hkept.conserved
      have hread : (reach decode chain s.queue.m_blocks.length s.queue.m_buffer).2 = false := by
        rw [← hthrown]
        cases hflush : s.queue.flushBufferToQueue decode chain with
        | mk q thrown =>
          cases thrown with
          | none => rfl
          | some e =>
            rw [top, if_pos rfl, hflush] at hanswer
            cases hanswer
      exact Prod.ext hlost hread
    · intro hfits
      have hreach := hfits rfl
      rw [hreach] at hthrown
      refine
        { accounted := (accounted_iff _).mpr ((drift_flush _ chain).trans (kept_of_drift h))
          answered := fun answer hanswer => hright ?_
          conserved := (conserved_flush_iff h chain).mpr (congrArg Prod.fst hreach) }
      rw [← Option.some.inj hanswer, top, if_pos rfl]
      cases hflush : s.queue.flushBufferToQueue decode chain with
      | mk q thrown =>
        rw [hflush] at hthrown
        cases thrown with
        | none => rfl
        | some e => cases hthrown

theorem pop_kept (h : Kept decode s) (tie : Nat) : Kept decode (tracedCall decode s (.pop tie)) := by
  have hcall : tracedCall decode s (.pop tie)
      = { s with queue := s.queue.pop tie, removed := s.removed + (topBlock tie s.queue.m_blocks).toList,
                 answer := none } := by
    simp only [tracedCall, call, acceptedBy, removedBy, staleBy, answerOf, Multiset.coe_nil, add_zero]
  have hright := topBlock_right tie s.queue.m_blocks
  rw [hcall, pop]
  cases htop : topBlock tie s.queue.m_blocks with
  | none =>
    simp only [Option.toList_none, Multiset.coe_nil, add_zero]
    exact kept_of_same h rfl rfl rfl
  | some block =>
    rw [htop] at hright
    refine { accounted := ?_, answered := nofun, conserved := ?_ }
    · simp only [totalSize_erase hright.1, h.accounted, Int.mul_sub, Int.mul_comm block.blockSize]
    · have hperm : (s.queue.m_blocks : Multiset QueuedBlock) = [block] + (s.queue.m_blocks.erase block) :=
        Multiset.coe_eq_coe.mpr (List.perm_cons_erase hright.1)
      rw [h.conserved, hperm, Option.toList_some]
      dsimp only
      abel

theorem clearQueue_iff (h : Kept decode s) {buffer : List Bytes} {removed : Multiset QueuedBlock}
    (hbooks : buffered decode s.queue.m_buffer + (s.queue.m_blocks : Multiset QueuedBlock)
      = buffered decode buffer + removed) :
    Kept decode
        { s with queue := clearQueue { s.queue with m_buffer := buffer }, removed := s.removed + removed, answer := none }
      ↔ totalSize s.queue.m_blocks = 0 := by
  have hempty : totalSize [] = 0 := rfl
  have hsize := h.accounted
  rw [m_blockSizeExpandCoeff] at hsize
  constructor
  · intro hkept
    have haccounted := hkept.accounted
    simp only [clearQueue, hempty, Int.mul_zero] at haccounted
    omega
  · intro hzero
    refine { accounted := ?_, answered := nofun, conserved := ?_ }
    · simp only [clearQueue, hempty, Int.mul_zero]
      omega
    · simp only [clearQueue, Multiset.coe_nil, add_zero]
      rw [h.conserved, hbooks]
      abel

theorem push_kept (h : Kept decode s) (rlps : Bytes) : Kept decode (tracedCall decode s (.push rlps)) := by
  have hcall : tracedCall decode s (.push rlps)
      = { s with queue := s.queue.push rlps, accepted := s.accepted + acceptedBy decode s.queue (.push rlps),
                 answer := none } := by
    simp only [tracedCall, call, removedBy, staleBy, answerOf, Multiset.coe_nil, add_zero]
  rw [hcall, push, acceptedBy]
  split
  · simp only [Multiset.coe_nil, add_zero]
    exact kept_of_same h rfl rfl rfl
  · refine { accounted := h.accounted, answered := nofun, conserved := ?_ }
    have hone : buffered decode [rlps] = decodable decode rlps := by
      rw [buffered, List.flatMap_singleton]
    dsimp only
    rw [h.conserved, buffered_append, hone, ← Multiset.coe_add]
    abel

theorem call_iff (h : Kept decode s) (c : Call) : Kept decode (tracedCall decode s c) ↔ Fits decode s.queue c := by
  cases c with
  | push rlps => exact iff_of_true (push_kept h rlps) trivial
  | flushBufferToQueue chain => exact flush_iff h chain
  | top chain isFlushBuffer tie => exact top_iff h chain isFlushBuffer tie
  | pop tie => exact iff_of_true (pop_kept h tie) trivial
  | clear =>
    have hcall : tracedCall decode s .clear
        = { s with queue := clearQueue { s.queue with m_buffer := [] },
                   removed := s.removed + (buffered decode s.queue.m_buffer ++ s.queue.m_blocks : List QueuedBlock),
                   answer := none } := by
      simp only [tracedCall, call, clear, acceptedBy, removedBy, staleBy, answerOf, Multiset.coe_nil, add_zero]
    rw [hcall]
    refine clearQueue_iff h ?_
    have hnil : buffered decode [] = [] := rfl
    rw [hnil, Multiset.coe_nil, zero_add, Multiset.coe_add]
  | clearQueue =>
    have hcall : tracedCall decode s .clearQueue
        = { s with queue := clearQueue { s.queue with m_buffer := s.queue.m_buffer },
                   removed := s.removed + (s.queue.m_blocks : Multiset QueuedBlock), answer := none } := by
      simp only [tracedCall, call, acceptedBy, removedBy, staleBy, answerOf, Multiset.coe_nil, add_zero]
    rw [hcall]
    exact clearQueue_iff h rfl
  | clearFullQueueIfNotHas blockNumber =>
    by_cases hclear : needClear blockNumber s.queue = true
    · have hcall : tracedCall decode s (.clearFullQueueIfNotHas blockNumber)
          = { s with queue := clearQueue { s.queue with m_buffer := s.queue.m_buffer },
                     removed := s.removed + (s.queue.m_blocks : Multiset QueuedBlock), answer := none } := by
        simp only [tracedCall, call, clearFullQueueIfNotHas, hclear, if_true, acceptedBy, removedBy, staleBy, answerOf,
          Multiset.coe_nil, add_zero]
      rw [hcall, clearQueue_iff h rfl]
      exact ⟨fun hzero _ => hzero, fun hfits => hfits hclear⟩
    · have hcall : tracedCall decode s (.clearFullQueueIfNotHas blockNumber) = { s with answer := none } := by
        simp only [tracedCall, call, clearFullQueueIfNotHas, hclear, acceptedBy, removedBy, staleBy, answerOf,
          Multiset.coe_nil, add_zero, Bool.false_eq_true, if_false]
      rw [hcall]
      exact iff_of_true (kept_of_same h rfl rfl rfl) fun hneed => absurd hneed hclear
  | adjustMaxRequestBlocks =>
    have hcall : tracedCall decode s .adjustMaxRequestBlocks
        = { s with queue := s.queue.adjustMaxRequestBlocks, answer := none } := by
      simp only [tracedCall, call, acceptedBy, removedBy, staleBy, answerOf, Multiset.coe_nil, add_zero]
    rw [hcall]
    refine iff_of_true (kept_of_same h ?_ ?_ ?_) trivial
    all_goals
      unfold adjustMaxRequestBlocks
      split
      · rfl
      · dsimp only
        split
        · rfl
        · rfl
  | setMaxBlockQueueSize size =>
    have hcall : tracedCall decode s (.setMaxBlockQueueSize size)
        = { s with queue := { s.queue with m_maxBlockQueueSize := size }, answer := none } := by
      simp only [tracedCall, call, acceptedBy, removedBy, staleBy, answerOf, Multiset.coe_nil, add_zero]
    rw [hcall]
    exact iff_of_true (kept_of_same h rfl rfl rfl) trivial

end calls

/-- The size is counted, the top is right and no block is lost all along a run exactly
    where its calls are those that go right. -/
theorem kept_iff (decode : Bytes → Option Int) (calls : List Call) :
    (∀ n, Kept decode ((machine decode).run {} (calls.take n)))
      ↔ (machine decode).RunOk (fun s c => Fits decode s.queue c) {} calls := by
  have hinitial : Kept decode {} := { accounted := rfl, answered := nofun, conserved := rfl }
  have hinv : ∀ (s : Traced) (c : Call), (fun _ => True) s → (fun _ => True) ((machine decode).step s c) :=
    fun _ _ _ => trivial
  have hstep : ∀ (s : Traced) (c : Call), (fun _ => True) s → Kept decode s →
      (Kept decode ((machine decode).step s c) ↔ Fits decode s.queue c) :=
    fun s c _ hkept => call_iff hkept c
  exact (machine decode).forall_take_iff hinv hstep calls trivial hinitial

/-- A block is flushed into the queue, and the queue is cleared: the counter stays. -/
theorem not_kept_clearQueue :
    ¬ ∀ n, Kept (fun _ => some 1) ((machine fun _ => some 1).run {}
      ([Call.push [0xc1, 1], .flushBufferToQueue none, .clearQueue].take n)) := by
  intro hkept
  have haccounted := (hkept 3).accounted
  exact absurd haccounted (by decide)

end DownloadingBlockQueue

end HieraChain
