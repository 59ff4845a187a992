/-
  HieraChain/DownloadDrain.lean
  =============================
  **Emptying the queue of downloaded blocks into the chain**
  (`libsync/SyncMaster.cpp`, `maintainDownloadingQueue`, `isNextBlock`).

  The loop tries the top of the queue while its number is at most the next one,
  and removes it, whatever becomes of it.  What the other components answer is
  an environment: every answer may depend on the time, the chain and the block,
  and may be an exception.  Which one of several blocks with the smallest number
  is the top is an input, too.

  A run of the loop is a log of turns.  `drain_spec` says that the loop comes to
  its end, and what the log says about every turn; `not_passes_at_end` that no
  block of the queue passes on the chain where it ends, so a run of numbers with
  good blocks is committed whatever else is queued.
-/
import HieraChain.DownloadingBlockQueue

namespace HieraChain.Sync

open HieraChain.DownloadingBlockQueue

inductive CommitResult
  | OK
  | ERROR_NUMBER
  | ERROR_PARENT_HASH
  | ERROR_COMMITTING
  deriving DecidableEq

/-- How a call of `commitBlock` ends; an exception may come before or after the
    block is stored. -/
inductive CommitOutcome
  | returned (ret : CommitResult)
  | thrown (stored : Bool)
  deriving DecidableEq

def CommitOutcome.stored : CommitOutcome → Bool
  | .returned ret => ret = .OK
  | .thrown stored => stored

/-- The chain, as far as the loop reads it: the number and the hash of its last
    block, and the blocks that were committed. -/
structure Chain (H : Type) where
  number : Int
  numberHash : H
  committed : List QueuedBlock := []
  deriving DecidableEq

/-- What the other components answer at a time; an execution gives a context, a
    null pointer or an exception. -/
structure Environment (H X : Type) where
  parentHash : QueuedBlock → H
  headerHash : QueuedBlock → H
  isWorking : Nat → Bool
  isConsensusOk : Option (Nat → Chain H → QueuedBlock → Except Unit Bool)
  executeBlock : Nat → Chain H → QueuedBlock → Except Unit (Option X)
  commitBlock : Nat → Chain H → QueuedBlock → X → CommitOutcome
  tie : Nat → Nat

variable {H X : Type} [DecidableEq H]

namespace Environment

variable (env : Environment H X)

def extend (c : Chain H) (block : QueuedBlock) : Chain H where
  number := block.number
  numberHash := env.headerHash block
  committed := c.committed ++ [block]

def isNextBlock (time : Nat) (c : Chain H) (block : QueuedBlock) : Except Unit Bool :=
  if c.number + 1 ≠ block.number then .ok false
  else if c.numberHash ≠ env.parentHash block then .ok false
  else
    match env.isConsensusOk with
    | some isConsensusOk => isConsensusOk time c block
    | none => .ok true

/-- Whether the `try` block stores the block; every exception is caught. -/
def stores (time : Nat) (c : Chain H) (block : QueuedBlock) : Bool :=
  match if env.isWorking time then env.isNextBlock time c block else .ok false with
  | .error _ => false
  | .ok false => false
  | .ok true =>
    match env.executeBlock time c block with
    | .error _ => false
    | .ok none => false
    | .ok (some exeCtx) => (env.commitBlock time c block exeCtx).stored

end Environment

/-- A turn of the loop: the chain before it, the block, and whether it was
    stored. -/
structure Turn (H : Type) where
  time : Nat
  chain : Chain H
  block : QueuedBlock
  stored : Bool

def Turn.next (env : Environment H X) (turn : Turn H) : Chain H :=
  if turn.stored then env.extend turn.chain turn.block else turn.chain

omit [DecidableEq H] in
theorem Turn.next_of_stored {env : Environment H X} {turn : Turn H} (h : turn.stored = true) :
    turn.next env = env.extend turn.chain turn.block := by
  rw [Turn.next, if_pos h]

omit [DecidableEq H] in
theorem Turn.next_of_not_stored {env : Environment H X} {turn : Turn H} (h : turn.stored = false) : turn.next env = turn.chain := by
  rw [Turn.next, if_neg (by rw [h]; exact Bool.false_ne_true)]

structure Drain (H : Type) where
  queue : DownloadingBlockQueue
  chain : Chain H
  log : List (Turn H) := []

namespace Drain

def turn (env : Environment H X) (s : Drain H) (block : QueuedBlock) : Turn H where
  time := s.log.length
  chain := s.chain
  block := block
  stored := env.stores s.log.length s.chain block

def step (env : Environment H X) (s : Drain H) (block : QueuedBlock) : Drain H where
  queue := s.queue.pop (env.tie s.log.length)
  chain := (s.turn env block).next env
  log := s.log ++ [s.turn env block]

/-- The `while` loop; it has no result where the fuel does not last. -/
def loop (env : Environment H X) : Nat → Drain H → Option (Drain H)
  | 0, _ => none
  | fuel + 1, s =>
    match topBlock (env.tie s.log.length) s.queue.m_blocks with
    | none => some s
    | some block => if block.number ≤ s.chain.number + 1 then loop env fuel (s.step env block) else some s

end Drain

structure Maintained (H : Type) where
  drain : Drain H
  lastDownloadingRequestTime : Nat
  finished : Bool

/-- `maintainDownloadingQueue`, for the highest number that is known and the one
    that was requested. -/
def maintainDownloadingQueue (env : Environment H X) (knownHighestNumber maxRequestNumber : Int) (fuel : Nat)
    (queue : DownloadingBlockQueue) (chain : Chain H) (lastDownloadingRequestTime : Nat) :
    Option (Maintained H) :=
  if knownHighestNumber ≤ chain.number then
    some { drain := { queue := queue.clear, chain }, lastDownloadingRequestTime, finished := true }
  else
    (Drain.loop env fuel { queue, chain }).map fun drain =>
      { drain
        lastDownloadingRequestTime :=
          if maxRequestNumber ≤ drain.chain.number then 0 else lastDownloadingRequestTime
        finished := knownHighestNumber ≤ drain.chain.number }

/-! ### Turns -/

namespace Environment

variable {env : Environment H X} {time : Nat} {c : Chain H} {block : QueuedBlock}

structure Passes (env : Environment H X) (c : Chain H) (block : QueuedBlock) : Prop where
  next : ∀ time, env.isNextBlock time c block = .ok true
  committed : ∀ time, ∃ exeCtx, env.executeBlock time c block = .ok (some exeCtx) ∧
    env.commitBlock time c block exeCtx = .returned .OK

inductive Built (env : Environment H X) (blocks : List QueuedBlock) (start : Chain H) : Chain H → Prop
  | start : Built env blocks start start
  | extend {c : Chain H} {block : QueuedBlock} {time : Nat} (hc : Built env blocks start c) (hblock : block ∈ blocks)
      (hstores : env.stores time c block = true) : Built env blocks start (env.extend c block)

theorem isNextBlock_of_stores (h : env.stores time c block = true) : env.isNextBlock time c block = .ok true := by
  rw [stores] at h
  split at h
  · cases h
  · cases h
  next heq =>
    split at heq
    · exact heq
    · cases heq

theorem number_of_isNextBlock (h : env.isNextBlock time c block = .ok true) : block.number = c.number + 1 := by
  rw [isNextBlock] at h
  split at h
  · cases h
  next hnumber => exact (not_not.mp hnumber).symm

theorem parentHash_of_isNextBlock (h : env.isNextBlock time c block = .ok true) :
    env.parentHash block = c.numberHash := by
  rw [isNextBlock] at h
  split at h
  · cases h
  · split at h
    · cases h
    next hhash => exact (not_not.mp hhash).symm

theorem isConsensusOk_of_isNextBlock (h : env.isNextBlock time c block = .ok true)
    {isConsensusOk : Nat → Chain H → QueuedBlock → Except Unit Bool} (hcheck : env.isConsensusOk = some isConsensusOk) :
    isConsensusOk time c block = .ok true := by
  rw [isNextBlock] at h
  split at h
  · cases h
  · split at h
    · cases h
    · rw [hcheck] at h
      exact h

theorem stores_of_passes (hworking : env.isWorking time = true) (h : env.Passes c block) :
    env.stores time c block = true := by
  obtain ⟨exeCtx, hexecute, hcommit⟩ := h.committed time
  rw [stores, if_pos hworking, h.next time]
  simp only [hexecute, hcommit]
  rfl

end Environment

/-! ### Runs of the loop -/

namespace Drain

open Environment

variable {env : Environment H X} {s : Drain H} {block : QueuedBlock}

/-- What holds all along the loop, for the queue and the chain where it starts. -/
structure Sound (env : Environment H X) (blocks : List QueuedBlock) (start : Chain H) (s : Drain H) : Prop where
  built : Built env blocks start s.chain
  moved : blocks.Perm (s.log.map Turn.block ++ s.queue.m_blocks)
  committed : s.chain.committed = start.committed ++ (s.log.filter Turn.stored).map Turn.block
  stores : ∀ turn ∈ s.log, turn.stored = env.stores turn.time turn.chain turn.block
  number : ∀ turn ∈ s.log, turn.block.number ≤ turn.chain.number + 1
  /-- A block with the next number was tried on this chain, and not stored. -/
  tried : ∀ turn ∈ s.log, turn.block.number ≤ s.chain.number + 1 ∧
    (turn.block.number = s.chain.number + 1 → turn.chain = s.chain ∧ turn.stored = false)

theorem sound_start (env : Environment H X) (queue : DownloadingBlockQueue) (chain : Chain H) :
    Sound env queue.m_blocks chain { queue, chain } where
  built := .start
  moved := List.Perm.refl _
  committed := (List.append_nil _).symm
  stores := nofun
  number := nofun
  tried := nofun

theorem pop_blocks {tie : Nat} {q : DownloadingBlockQueue} (htop : topBlock tie q.m_blocks = some block) :
    (q.pop tie).m_blocks = q.m_blocks.erase block := by
  rw [pop, htop]

theorem number_of_stores {time : Nat} {c : Chain H} (h : env.stores time c block = true) :
    block.number = c.number + 1 :=
  number_of_isNextBlock (isNextBlock_of_stores h)

/-- **Step lemma.** -/
theorem Sound.step {blocks : List QueuedBlock} {start : Chain H} (h : Sound env blocks start s)
    (htop : topBlock (env.tie s.log.length) s.queue.m_blocks = some block)
    (hle : block.number ≤ s.chain.number + 1) : Sound env blocks start (s.step env block) := by
  have hmem : block ∈ s.queue.m_blocks := by
    have hright := topBlock_right (env.tie s.log.length) s.queue.m_blocks
    rw [htop] at hright
    exact hright.1
  have hlog : (s.step env block).log = s.log ++ [s.turn env block] := rfl
  have hchain : (s.step env block).chain = (s.turn env block).next env := rfl
  have hforall : ∀ {P : Turn H → Prop}, (∀ turn ∈ s.log, P turn) → P (s.turn env block) →
      ∀ turn ∈ (s.step env block).log, P turn := by
    intro P hold hnew turn hturn
    rw [hlog, List.mem_append, List.mem_singleton] at hturn
    rcases hturn with hturn | rfl
    · exact hold turn hturn
    · exact hnew
  refine ⟨?_, ?_, ?_, hforall h.stores rfl, hforall h.number hle, ?_⟩
  · rw [hchain]
    cases hstored : (s.turn env block).stored with
    | false =>
      rw [Turn.next_of_not_stored hstored]
      exact h.built
    | true =>
      rw [Turn.next_of_stored hstored]
      exact h.built.extend (h.moved.mem_iff.mpr (List.mem_append_right _ hmem)) hstored
  · have hqueue : (s.step env block).queue.m_blocks = s.queue.m_blocks.erase block := pop_blocks htop
    rw [hlog, hqueue, List.map_append, List.append_assoc]
    exact h.moved.trans ((List.perm_cons_erase hmem).append_left _)
  · rw [hlog, hchain, List.filter_append, List.map_append, ← List.append_assoc, ← h.committed]
    cases hstored : (s.turn env block).stored with
    | false =>
      rw [Turn.next_of_not_stored hstored, List.filter_singleton, hstored]
      exact (List.append_nil _).symm
    | true =>
      rw [Turn.next_of_stored hstored, List.filter_singleton, hstored]
      rfl
  · rw [hchain]
    cases hstored : (s.turn env block).stored with
    | false =>
      rw [Turn.next_of_not_stored hstored]
      exact hforall h.tried ⟨hle, fun _ => ⟨rfl, hstored⟩⟩
    | true =>
      have hnumber : block.number = s.chain.number + 1 := number_of_stores hstored
      rw [Turn.next_of_stored hstored]
      change ∀ turn ∈ (s.step env block).log, turn.block.number ≤ block.number + 1 ∧
        (turn.block.number = block.number + 1 → _)
      refine hforall (fun turn hturn => ?_) ⟨?_, fun heq => ?_⟩
      · have hold := (h.tried turn hturn).1
        exact ⟨by omega, fun heq => by omega⟩
      · change block.number ≤ block.number + 1
        omega
      · change block.number = block.number + 1 at heq
        omega

theorem length_erase (htop : topBlock (env.tie s.log.length) s.queue.m_blocks = some block) :
    (s.step env block).queue.m_blocks.length + 1 = s.queue.m_blocks.length := by
  have hright := topBlock_right (env.tie s.log.length) s.queue.m_blocks
  rw [htop] at hright
  have hpos := List.length_pos_of_mem hright.1
  have hqueue : (s.step env block).queue.m_blocks = s.queue.m_blocks.erase block := pop_blocks htop
  rw [hqueue, List.length_erase_of_mem hright.1]
  omega

/-- **Run lemma.**  The loop ends within as many turns as there are blocks; it
    keeps `Sound`, and ends with a block that is too far ahead, or with none. -/
theorem loop_spec {blocks : List QueuedBlock} {start : Chain H} (h : Sound env blocks start s) {n : Nat}
    (hlen : s.queue.m_blocks.length ≤ n) :
    ∃ r, (∀ fuel, n < fuel → loop env fuel s = some r) ∧ Sound env blocks start r ∧
      ∀ block ∈ r.queue.m_blocks, r.chain.number + 1 < block.number := by
  induction n generalizing s with
  | zero =>
    have hnil := List.eq_nil_of_length_eq_zero (Nat.eq_zero_of_le_zero hlen)
    refine ⟨s, ?_, h, by rw [hnil]; nofun⟩
    intro fuel hfuel
    obtain ⟨fuel, rfl⟩ := Nat.exists_eq_succ_of_ne_zero (Nat.ne_of_gt hfuel)
    have htop : topBlock (env.tie s.log.length) s.queue.m_blocks = none := by
      rw [hnil]
      rfl
    rw [Nat.succ_eq_add_one, loop, htop]
  | succ n ih =>
    have hright := topBlock_right (env.tie s.log.length) s.queue.m_blocks
    cases htop : topBlock (env.tie s.log.length) s.queue.m_blocks with
    | none =>
      rw [htop] at hright
      refine ⟨s, ?_, h, by rw [show s.queue.m_blocks = [] from hright]; nofun⟩
      intro fuel hfuel
      obtain ⟨fuel, rfl⟩ := Nat.exists_eq_succ_of_ne_zero (Nat.ne_zero_of_lt hfuel)
      rw [Nat.succ_eq_add_one, loop, htop]
    | some block =>
      rw [htop] at hright
      by_cases hle : block.number ≤ s.chain.number + 1
      · have herase := length_erase htop
        obtain ⟨r, hloop, hsound, hend⟩ := ih (h.step htop hle) (by omega)
        refine ⟨r, ?_, hsound, hend⟩
        intro fuel hfuel
        obtain ⟨fuel, rfl⟩ := Nat.exists_eq_succ_of_ne_zero (Nat.ne_zero_of_lt hfuel)
        rw [Nat.succ_eq_add_one, loop, htop]
        simp only [if_pos hle]
        exact hloop fuel (Nat.lt_of_succ_lt_succ hfuel)
      · refine ⟨s, ?_, h, fun block' hblock' => ?_⟩
        · intro fuel hfuel
          obtain ⟨fuel, rfl⟩ := Nat.exists_eq_succ_of_ne_zero (Nat.ne_zero_of_lt hfuel)
          rw [Nat.succ_eq_add_one, loop, htop]
          simp only [if_neg hle]
        · have hlowest := hright.2 block' hblock'
          omega

/-- **The loop ends on a chain on which no block of the queue passes.** -/
theorem not_passes_at_end {blocks : List QueuedBlock} {start : Chain H} (hworking : ∀ time, env.isWorking time = true)
    (h : Sound env blocks start s) (hend : ∀ block ∈ s.queue.m_blocks, s.chain.number + 1 < block.number)
    (hblock : block ∈ blocks) : ¬env.Passes s.chain block := by
  intro hpasses
  have hnumber := number_of_isNextBlock (hpasses.next 0)
  rcases List.mem_append.mp (h.moved.mem_iff.mp hblock) with hmem | hmem
  · obtain ⟨turn, hturn, rfl⟩ := List.mem_map.mp hmem
    obtain ⟨hchain, hstored⟩ := (h.tried turn hturn).2 hnumber
    have hstores := h.stores turn hturn
    rw [hchain, stores_of_passes (hworking _) hpasses, hstored] at hstores
    cases hstores
  · have hlt := hend block hmem
    omega

end Drain

/-! ### One call -/

/-- What a call does to the queue and the chain: `r` is what it leaves. -/
structure Drained (env : Environment H X) (knownHighestNumber : Int) (queue : DownloadingBlockQueue) (chain : Chain H)
    (r : Drain H) : Prop where
  /-- The blocks that were committed, in order. -/
  committed : r.chain.committed = chain.committed ++ (r.log.filter Turn.stored).map Turn.block
  /-- A committed block is the next one, and was checked. -/
  next : ∀ turn ∈ r.log, turn.stored = true →
    turn.block.number = turn.chain.number + 1 ∧ env.parentHash turn.block = turn.chain.numberHash ∧
      ∀ isConsensusOk, env.isConsensusOk = some isConsensusOk →
        isConsensusOk turn.time turn.chain turn.block = .ok true
  /-- While the chain is behind, the removed blocks have at most the next number. -/
  removed : chain.number < knownHighestNumber →
    queue.m_blocks.Perm (r.log.map Turn.block ++ r.queue.m_blocks) ∧
      ∀ turn ∈ r.log, turn.block.number ≤ turn.chain.number + 1
  /-- A run of numbers with good blocks is committed. -/
  progress : chain.number < knownHighestNumber → ∀ m : Nat,
    (∀ c, Environment.Built env queue.m_blocks chain c → c.number < chain.number + m →
      ∃ block ∈ queue.m_blocks, env.Passes c block) →
    chain.number + m ≤ r.chain.number

theorem maintainDownloadingQueue_drains (env : Environment H X) (hworking : ∀ time, env.isWorking time = true)
    (knownHighestNumber maxRequestNumber : Int) (queue : DownloadingBlockQueue) (chain : Chain H) (lastTime : Nat) :
    ∃ r, (∀ fuel, queue.m_blocks.length < fuel →
        maintainDownloadingQueue env knownHighestNumber maxRequestNumber fuel queue chain lastTime = some r) ∧
      Drained env knownHighestNumber queue chain r.drain := by
  by_cases hknown : knownHighestNumber ≤ chain.number
  · refine ⟨_, fun fuel _ => if_pos hknown, ?_⟩
    exact
      { committed := (List.append_nil _).symm
        next := nofun
        removed := fun hlt => absurd hlt (Int.not_lt.mpr hknown)
        progress := fun hlt => absurd hlt (Int.not_lt.mpr hknown) }
  · obtain ⟨r, hloop, hsound, hend⟩ := Drain.loop_spec (Drain.sound_start env queue chain) le_rfl
    refine
      ⟨{ drain := r
         lastDownloadingRequestTime := if maxRequestNumber ≤ r.chain.number then 0 else lastTime
         finished := knownHighestNumber ≤ r.chain.number }, fun fuel hfuel => ?_, ?_⟩
    · rw [maintainDownloadingQueue, if_neg hknown, hloop fuel hfuel]
      rfl
    · refine
        { committed := hsound.committed
          next := fun turn hturn hstored => ?_
          removed := fun _ => ⟨hsound.moved, hsound.number⟩
          progress := fun _ m hgood => ?_ }
      · have hnext := Environment.isNextBlock_of_stores ((hsound.stores turn hturn).symm.trans hstored)
        exact ⟨Environment.number_of_isNextBlock hnext, Environment.parentHash_of_isNextBlock hnext,
          fun _ hcheck => Environment.isConsensusOk_of_isNextBlock hnext hcheck⟩
      · by_contra hshort
        obtain ⟨block, hblock, hpasses⟩ := hgood r.chain hsound.built (Int.not_le.mp hshort)
        exact Drain.not_passes_at_end hworking hsound hend hblock hpasses

/-- Blocks whose one byte is the hash of their parent; a block executes unless
    the byte is that of a forged one, and every context is committed. -/
def byteChain : Environment Nat Unit where
  parentHash block := (block.rlp.headD 0).toNat
  headerHash block := block.number.toNat
  isWorking _ := true
  isConsensusOk := some fun _ _ block => .ok (block.rlp.length == 1)
  executeBlock _ _ block := if block.rlp.contains 0xff then .error () else .ok (some ())
  commitBlock _ _ _ _ := .returned .OK
  tie _ := 0

def fourBlocks : DownloadingBlockQueue where
  m_blocks := [⟨[0xff], 1⟩, ⟨[0, 0], 1⟩, ⟨[0], 1⟩, ⟨[1], 2⟩]

theorem maintainDownloadingQueue_drains_fourBlocks :
    ∃ r, (∀ fuel, fourBlocks.m_blocks.length < fuel →
        maintainDownloadingQueue byteChain 5 2 fuel fourBlocks { number := 0, numberHash := 0 } 7 = some r) ∧
      Drained byteChain 5 fourBlocks { number := 0, numberHash := 0 } r.drain :=
  maintainDownloadingQueue_drains byteChain (fun _ => rfl) 5 2 fourBlocks { number := 0, numberHash := 0 } 7

example :
    (maintainDownloadingQueue byteChain 5 2 5 fourBlocks { number := 0, numberHash := 0 } 7).map
      (fun r => r.drain.chain.committed) = some [⟨[0], 1⟩, ⟨[1], 2⟩] := by
  decide

end HieraChain.Sync
