/-
  HieraChain/LinearCommit.lean
  ============================
  **Committing blocks from many threads is linear.**

  `Holds` says that the stored rows are those of a ledger: blocks with
  consecutive numbers, each naming the hash of the one before.  `Written` says
  how far the writers have come in the tables of a context.  The commit lock
  makes one call at a time write, and the number is checked again under it, so
  that the parent hash checked before belongs to the last block.

  A context whose block could not be stored keeps the rows of the writers, and
  the counts they raised.  Entering the writers again with it adds the
  transactions of the block once more, so a run has to keep to contexts that
  `Fits`.
-/
import HieraChain.CommitBlock
import Mathlib.Data.List.Chain
import Mathlib.Data.List.Nodup

namespace HieraChain.CommitBlock

variable {H W : Type}

/-! ### The rows of a ledger -/

namespace Block

def hash2Block (b : Block H) : List (H × Block H) := [(b.hash, b)]

def number2Hash (b : Block H) : List (Int × H) := [(b.number, b.hash)]

def txHash2Block (b : Block H) : List (H × Int × Nat) :=
  b.transactions.mapIdx fun i tx => (tx, b.number, i)

/-- `b` is the block after `a`. -/
def Follows (a b : Block H) : Prop := b.number = a.number + 1 ∧ b.parentHash = a.hash

end Block

/-- The rows are those that `f` gives for the blocks. -/
def Lists {α : Type} (f : Block H → List α) (rows : List α) (ledger : List (Block H)) : Prop :=
  ∀ row, row ∈ rows ↔ ∃ b ∈ ledger, row ∈ f b

theorem Lists.append {α : Type} {f : Block H → List α} {rows added : List α} {ledger : List (Block H)}
    {b : Block H} (h : Lists f rows ledger) (hb : ∀ row, row ∈ added ↔ row ∈ f b) :
    Lists f (rows ++ added) (ledger ++ [b]) := by
  intro row
  rw [List.mem_append, h row, hb row]
  simp only [List.mem_append, List.mem_singleton, or_and_right, exists_or, exists_eq_left]

structure Holds (stored : Tables H W) (ledger : List (Block H)) : Prop where
  linked : ledger.IsChain Block.Follows
  nonneg : ∀ b ∈ ledger, 0 ≤ b.number
  currentNumber : ∃ last, ledger.getLast? = some last ∧ stored.currentNumber = some last.number
  hash2Block : Lists Block.hash2Block stored.hash2Block ledger
  number2Hash : Lists Block.number2Hash stored.number2Hash ledger
  txHash2Block : Lists Block.txHash2Block stored.txHash2Block ledger
  total : stored.totalTransactionCount.getD 0 = (ledger.map fun b => (b.transactions.length : Int)).sum

theorem increasing_of_linked {ledger : List (Block H)} (h : ledger.IsChain Block.Follows) :
    ledger.Pairwise fun a b => a.number < b.number := by
  have : Trans (fun a b : Block H => a.number < b.number) (fun a b : Block H => a.number < b.number)
      (fun a b : Block H => a.number < b.number) := ⟨fun hab hbc => Int.lt_trans hab hbc⟩
  apply List.isChain_iff_pairwise.mp
  apply h.imp
  intro a b hab
  rw [hab.1]
  exact Int.lt_succ a.number

namespace Holds

variable {stored : Tables H W} {ledger : List (Block H)}

theorem obtainNumber_nonneg (h : Holds stored ledger) : 0 ≤ stored.obtainNumber := by
  obtain ⟨last, hlast, hcurrent⟩ := h.currentNumber
  rw [Tables.obtainNumber, hcurrent]
  exact h.nonneg last (List.mem_of_getLast? hlast)

theorem obtainNumber_ne (h : Holds stored ledger) : stored.obtainNumber ≠ -1 := by
  intro hunknown
  have hnonneg := h.obtainNumber_nonneg
  rw [hunknown] at hnonneg
  exact absurd hnonneg (by decide)

theorem eq_of_number (h : Holds stored ledger) {a b : Block H} (ha : a ∈ ledger) (hb : b ∈ ledger)
    (hnumber : a.number = b.number) : a = b := by
  rcases List.getElem_of_mem ha with ⟨i, hi, rfl⟩
  rcases List.getElem_of_mem hb with ⟨j, hj, rfl⟩
  have hpair := List.pairwise_iff_getElem.mp (increasing_of_linked h.linked)
  rcases Nat.lt_trichotomy i j with hlt | heq | hgt
  · exact absurd hnumber (Int.ne_of_lt (hpair i j hi hj hlt))
  · subst heq
    rfl
  · exact absurd hnumber.symm (Int.ne_of_lt (hpair j i hj hi hgt))

theorem numberHash [Inhabited H] (h : Holds stored ledger) {b : Block H} (hb : b ∈ ledger) :
    stored.numberHash b.number = b.hash := by
  have hrow : (b.number, b.hash) ∈ stored.number2Hash :=
    (h.number2Hash _).mpr ⟨b, hb, List.mem_singleton_self _⟩
  unfold Tables.numberHash
  cases hfind : stored.number2Hash.find? fun row => row.1 = b.number with
  | none =>
    have hnone := List.find?_eq_none.mp hfind _ hrow
    simp at hnone
  | some row =>
    have hnumber : row.1 = b.number := by simpa using List.find?_some hfind
    obtain ⟨a, ha, hmem⟩ := (h.number2Hash row).mp (List.mem_of_find?_eq_some hfind)
    rw [List.mem_singleton.mp hmem] at hnumber ⊢
    rw [h.eq_of_number ha hb hnumber]
    rfl

end Holds

theorem Tables.numberHash_merge [Inhabited H] (stored context : Tables H W) {n : Int}
    (h : ∀ row ∈ context.number2Hash, row.1 ≠ n) :
    (stored.merge context).numberHash n = stored.numberHash n := by
  have hnone : context.number2Hash.find? (fun row => row.1 = n) = none := by
    apply List.find?_eq_none.mpr
    intro row hrow
    simpa using h row hrow
  simp only [Tables.numberHash, Tables.merge, List.find?_append, hnone, Option.or_none]

/-! ### What the writers write -/

def Filled {α : Type} (rows : List α) (waiting : Prop) (table : List α) : Prop :=
  (∀ row ∈ table, row ∈ rows) ∧ (¬ waiting → ∀ row ∈ rows, row ∈ table)

def Slot (stored : Tables H W) (b : Block H) (context : Tables H W) (waiting : Prop) : Writer → Prop
  | .hash2Block => Filled b.hash2Block waiting context.hash2Block
  | .number2Hash => Filled b.number2Hash waiting context.number2Hash
  | .number => ¬ waiting → context.currentNumber = some b.number
  | .totalTransactionCount =>
    let count := (context.totalTransactionCount.or stored.totalTransactionCount).getD 0
    let before := stored.totalTransactionCount.getD 0
    (waiting → count = before) ∧ (¬ waiting → count = before + b.transactions.length)
  | .txToBlock => Filled b.txHash2Block waiting context.txHash2Block
  | .hash2BlockHeader => True

/-- The rows of a context, while the writers `left` have not run for the block. -/
def Written (stored : Tables H W) (b : Block H) (left : List Writer) (context : Tables H W) : Prop :=
  ∀ w, Slot stored b context (w ∈ left) w

/-- What a context may hold before the writers run for the block: no rows of
    another block, and the count that is stored. -/
structure Fits (stored : Tables H W) (b : Block H) (context : Tables H W) : Prop where
  hash2Block : ∀ row ∈ context.hash2Block, row ∈ b.hash2Block
  number2Hash : ∀ row ∈ context.number2Hash, row ∈ b.number2Hash
  txHash2Block : ∀ row ∈ context.txHash2Block, row ∈ b.txHash2Block
  total : (context.totalTransactionCount.or stored.totalTransactionCount).getD 0 =
    stored.totalTransactionCount.getD 0

instance [DecidableEq H] (stored : Tables H W) (b : Block H) (context : Tables H W) :
    Decidable (Fits stored b context) :=
  decidable_of_iff
    ((∀ row ∈ context.hash2Block, row ∈ b.hash2Block) ∧ (∀ row ∈ context.number2Hash, row ∈ b.number2Hash) ∧
      (∀ row ∈ context.txHash2Block, row ∈ b.txHash2Block) ∧
      (context.totalTransactionCount.or stored.totalTransactionCount).getD 0 =
        stored.totalTransactionCount.getD 0)
    ⟨fun ⟨h₁, h₂, h₃, h₄⟩ => ⟨h₁, h₂, h₃, h₄⟩, fun ⟨h₁, h₂, h₃, h₄⟩ => ⟨h₁, h₂, h₃, h₄⟩⟩

theorem Filled.start {α : Type} {rows table : List α} {waiting : Prop} (h : ∀ row ∈ table, row ∈ rows)
    (hwaiting : waiting) : Filled rows waiting table := ⟨h, fun hnot => absurd hwaiting hnot⟩

theorem Filled.append {α : Type} {rows table : List α} {waiting after : Prop} (h : Filled rows waiting table) :
    Filled rows after (table ++ rows) := by
  constructor
  · intro row hrow
    rcases List.mem_append.mp hrow with hold | hnew
    · exact h.1 row hold
    · exact hnew
  · intro _ row hrow
    exact List.mem_append_right table hrow

theorem Filled.mem_iff {α : Type} {rows table : List α} {waiting : Prop} (h : Filled rows waiting table)
    (hnot : ¬ waiting) (row : α) : row ∈ table ↔ row ∈ rows := ⟨h.1 row, h.2 hnot row⟩

theorem Fits.written {stored : Tables H W} {b : Block H} {context : Tables H W} (h : Fits stored b context) :
    Written stored b writers context := by
  intro w
  cases w with
  | hash2Block => exact .start h.hash2Block (by decide)
  | number2Hash => exact .start h.number2Hash (by decide)
  | number => exact fun hnot => absurd (by decide) hnot
  | totalTransactionCount => exact ⟨fun _ => h.total, fun hnot => absurd (by decide) hnot⟩
  | txToBlock => exact .start h.txHash2Block (by decide)
  | hash2BlockHeader => trivial

section Write

variable {stored : Tables H W} {b : Block H} {context : Tables H W} (hstored : stored.currentNumber.isSome)
include hstored

theorem write_number : write stored b context .number = { context with currentNumber := some b.number } := by
  apply if_pos
  rw [Option.isSome_or, hstored, Bool.or_true]

theorem slot_write_self {w : Writer} (h : Slot stored b context True w) :
    Slot stored b (write stored b context w) False w := by
  cases w with
  | hash2Block => exact Filled.append h
  | number2Hash => exact Filled.append h
  | number =>
    rw [write_number hstored]
    exact fun _ => rfl
  | totalTransactionCount =>
    refine ⟨False.elim, fun _ => ?_⟩
    rw [← h.1 trivial]
    rfl
  | txToBlock => exact Filled.append h
  | hash2BlockHeader => trivial

theorem slot_write_other {w v : Writer} (hne : v ≠ w) {waiting : Prop} (h : Slot stored b context waiting v) :
    Slot stored b (write stored b context w) waiting v := by
  cases w with
  | number =>
    rw [write_number hstored]
    cases v <;> first | exact h | exact absurd rfl hne
  | hash2Block => cases v <;> first | exact h | exact absurd rfl hne
  | number2Hash => cases v <;> first | exact h | exact absurd rfl hne
  | totalTransactionCount => cases v <;> first | exact h | exact absurd rfl hne
  | txToBlock => cases v <;> first | exact h | exact absurd rfl hne
  | hash2BlockHeader => cases v <;> exact h

/-- **One writer.** -/
theorem Written.write {left : List Writer} (h : Written stored b left context) (hnodup : left.Nodup)
    {w : Writer} (hw : w ∈ left) : Written stored b (left.erase w) (CommitBlock.write stored b context w) := by
  intro v
  by_cases hv : v = w
  · subst hv
    have hslot := h v
    rw [eq_true hw] at hslot
    rw [eq_false hnodup.not_mem_erase]
    exact slot_write_self hstored hslot
  · rw [List.mem_erase_of_ne hv]
    exact slot_write_other hstored hv (h v)

end Write

/-- **Storing a block.**  The rows of its context extend the ledger by it. -/
theorem Holds.merge [Inhabited H] {stored : Tables H W} {ledger : List (Block H)} {b : Block H}
    {context : Tables H W} (h : Holds stored ledger) (hwritten : Written stored b [] context)
    (hnumber : b.number = stored.obtainNumber + 1)
    (hparent : b.parentHash = stored.numberHash stored.obtainNumber) :
    Holds (stored.merge context) (ledger ++ [b]) := by
  obtain ⟨last, hlast, hcurrent⟩ := h.currentNumber
  have hobtain : stored.obtainNumber = last.number := by rw [Tables.obtainNumber, hcurrent, Option.getD_some]
  have hfollows : last.Follows b := by
    constructor
    · rw [hnumber, hobtain]
    · rw [hparent, hobtain, h.numberHash (List.mem_of_getLast? hlast)]
  have hnone : ∀ w : Writer, w ∉ ([] : List Writer) := fun _ => List.not_mem_nil
  constructor
  · apply List.isChain_append.mpr
    refine ⟨h.linked, List.isChain_singleton b, ?_⟩
    intro x hx y hy
    rw [hlast] at hx
    cases hx
    cases hy
    exact hfollows
  · intro x hx
    rcases List.mem_append.mp hx with hold | hnew
    · exact h.nonneg x hold
    · rw [List.mem_singleton.mp hnew, hnumber]
      exact Int.add_nonneg h.obtainNumber_nonneg (by decide)
  · refine ⟨b, List.getLast?_concat, ?_⟩
    have hcontext : context.currentNumber = some b.number := hwritten .number (hnone _)
    simp only [Tables.merge, hcontext, Option.some_or]
  · exact h.hash2Block.append (Filled.mem_iff (hwritten .hash2Block) (hnone _))
  · exact h.number2Hash.append (Filled.mem_iff (hwritten .number2Hash) (hnone _))
  · exact h.txHash2Block.append (Filled.mem_iff (hwritten .txToBlock) (hnone _))
  · calc (stored.merge context).totalTransactionCount.getD 0
        = stored.totalTransactionCount.getD 0 + b.transactions.length :=
          (hwritten .totalTransactionCount).2 (hnone _)
      _ = ((ledger ++ [b]).map fun b => (b.transactions.length : Int)).sum := by
          simp only [h.total, List.map_append, List.sum_append, List.map_cons, List.map_nil, List.sum_singleton]

/-! ### Calls under way -/

def Phase.locked : Phase → Bool
  | .recheck => true
  | .writing _ => true
  | .dbCommit => true
  | .publish => true
  | _ => false

def Phase.paid : Phase → Bool
  | .publish => true
  | .done .OK => true
  | _ => false

/-- What `number()` returns. -/
def State.number (s : State H W) : Int :=
  if s.blockNumber = -1 then s.stored.obtainNumber else s.blockNumber

theorem blockNumber_readNumber (s : State H W) : s.readNumber.blockNumber = s.number := by
  unfold State.readNumber State.number
  split
  · rfl
  · rfl

theorem number_readNumber (s : State H W) : s.readNumber.number = s.number := by
  unfold State.readNumber State.number
  split
  · simp only [ite_self]
  · rfl

section ReadNumber

variable (s : State H W)

@[simp] theorem stored_readNumber : s.readNumber.stored = s.stored := by unfold State.readNumber; split <;> rfl

@[simp] theorem contexts_readNumber : s.readNumber.contexts = s.contexts := by unfold State.readNumber; split <;> rfl

@[simp] theorem calls_readNumber : s.readNumber.calls = s.calls := by unfold State.readNumber; split <;> rfl

@[simp] theorem commitMutex_readNumber : s.readNumber.commitMutex = s.commitMutex := by
  unfold State.readNumber; split <;> rfl

@[simp] theorem committed_readNumber : s.readNumber.committed = s.committed := by
  unfold State.readNumber; split <;> rfl

end ReadNumber

variable [Inhabited H]

def ParentChecked (s : State H W) (b : Block H) : Prop :=
  ∃ n, b.number ≤ n + 1 ∧ n ≤ s.number ∧ b.parentHash = s.stored.numberHash n

/-- `b` is the block after those that are stored. -/
structure Next (s : State H W) (b : Block H) : Prop where
  blockNumber : s.blockNumber = s.stored.obtainNumber
  number : b.number = s.stored.obtainNumber + 1
  parentHash : b.parentHash = s.stored.numberHash s.stored.obtainNumber

def Found (s : State H W) (call : Call H) : Phase → Prop
  | .checkNumber => True
  | .readNumber => call.block.number ≤ s.number + 1
  | .readHash n => call.block.number ≤ n + 1 ∧ n ≤ s.number
  | .lock => ParentChecked s call.block
  | .recheck => ParentChecked s call.block
  | .writing left => Next s call.block ∧ left.Nodup ∧ Written s.stored call.block left (s.contexts call.context)
  | .dbCommit => Next s call.block ∧ Written s.stored call.block [] (s.contexts call.context)
  | .publish => call.block.number = s.stored.obtainNumber ∧ call.block.number = s.number + 1
  | .done _ => True

/-- The stored rows are those of the ledger and the blocks of the calls that were
    stored, and nothing else was stored since `s₀`. -/
structure Inv (ledger : List (Block H)) (s₀ s : State H W) : Prop where
  holds : Holds s.stored (ledger ++ s.committed.map Commit.block)
  stored : s.stored = s.committed.foldl (fun stored k => stored.merge k.rows) s₀.stored
  nodup : (s.committed.map Commit.call).Nodup
  settled : ∀ k ∈ s.committed, ∃ call phase, s.calls k.call = some (call, phase) ∧ phase.paid ∧ call.block = k.block
  paid : ∀ c call phase, s.calls c = some (call, phase) → phase.paid →
    ∃ k ∈ s.committed, k.call = c ∧ k.block = call.block
  lock : ∀ c, s.commitMutex = some c ↔ ∃ call phase, s.calls c = some (call, phase) ∧ phase.locked
  number : (∀ c call, s.calls c ≠ some (call, .publish)) → s.number = s.stored.obtainNumber
  found : ∀ c call phase, s.calls c = some (call, phase) → Found s call phase

namespace Inv

variable {ledger : List (Block H)} {s₀ s : State H W} {c : Nat} {call : Call H} {phase : Phase}

theorem unlocked_of_ne (h : Inv ledger s₀ s) (hc : s.calls c = some (call, phase)) (hlocked : phase.locked)
    {x : Nat} {other : Call H} {p : Phase} (hx : s.calls x = some (other, p)) (hne : x ≠ c) :
    p.locked = false := by
  by_contra hp
  have hself : s.commitMutex = some c := (h.lock c).mpr ⟨call, phase, hc, hlocked⟩
  have hother : s.commitMutex = some x := (h.lock x).mpr ⟨other, p, hx, by simpa using hp⟩
  rw [hself] at hother
  exact hne (Option.some.inj hother).symm

theorem number_of_locked (h : Inv ledger s₀ s) (hc : s.calls c = some (call, phase)) (hlocked : phase.locked)
    (hphase : phase ≠ .publish) : s.number = s.stored.obtainNumber := by
  apply h.number
  intro x other hx
  by_cases hne : x = c
  · subst hne
    rw [hc] at hx
    cases hx
    exact hphase rfl
  · exact absurd (h.unlocked_of_ne hc hlocked hx hne) (by decide)

end Inv

/-! ### Steps that store nothing -/

theorem Found.transport {s u : State H W} {call : Call H} {phase : Phase} (h : Found s call phase)
    (hstored : u.stored = s.stored) (hcontexts : u.contexts = s.contexts) (hnumber : u.number = s.number)
    (hknown : s.blockNumber = s.stored.obtainNumber → u.blockNumber = s.blockNumber) : Found u call phase := by
  have hparent : ParentChecked s call.block → ParentChecked u call.block := by
    rintro ⟨n, hn, hle, hhash⟩
    exact ⟨n, hn, hnumber ▸ hle, hstored ▸ hhash⟩
  have hnext : Next s call.block → Next u call.block := by
    intro hs
    constructor
    · rw [hknown hs.blockNumber, hs.blockNumber, hstored]
    · rw [hs.number, hstored]
    · rw [hs.parentHash, hstored]
  cases phase with
  | checkNumber => trivial
  | readNumber =>
    rw [Found, hnumber]
    exact h
  | readHash n => exact ⟨h.1, hnumber ▸ h.2⟩
  | lock => exact hparent h
  | recheck => exact hparent h
  | writing left => exact ⟨hnext h.1, h.2.1, by rw [hstored, hcontexts]; exact h.2.2⟩
  | dbCommit => exact ⟨hnext h.1, by rw [hstored, hcontexts]; exact h.2⟩
  | publish => exact ⟨hstored ▸ h.1, hnumber ▸ h.2⟩
  | done r => trivial

theorem Found.mono {s u : State H W} {call : Call H} {phase : Phase} (h : Found s call phase)
    (hphase : phase.locked = false) (hnumber : s.number ≤ u.number)
    (hhash : ∀ n ≤ s.number, u.stored.numberHash n = s.stored.numberHash n) : Found u call phase := by
  cases phase with
  | checkNumber => trivial
  | readNumber => exact Int.le_trans h (Int.add_le_add_right hnumber 1)
  | readHash n => exact ⟨h.1, Int.le_trans h.2 hnumber⟩
  | lock =>
    obtain ⟨n, hn, hle, hparent⟩ := h
    exact ⟨n, hn, Int.le_trans hle hnumber, hparent.trans (hhash n hle).symm⟩
  | recheck => cases hphase
  | writing left => cases hphase
  | dbCommit => cases hphase
  | publish => cases hphase
  | done r => trivial

omit [Inhabited H] in
theorem update_eq_some {calls : Nat → Option (Call H × Phase)} {c x : Nat} {call other : Call H} {q r : Phase}
    (h : Function.update calls c (some (call, q)) x = some (other, r)) :
    (x = c ∧ other = call ∧ r = q) ∨ (x ≠ c ∧ calls x = some (other, r)) := by
  by_cases hx : x = c
  · subst hx
    rw [Function.update_self] at h
    cases h
    exact .inl ⟨rfl, rfl, rfl⟩
  · rw [Function.update_of_ne hx] at h
    exact .inr ⟨hx, h⟩

namespace Inv

variable {ledger : List (Block H)} {s₀ s : State H W}

theorem readNumber (h : Inv ledger s₀ s) : Inv ledger s₀ s.readNumber := by
  have hknown : s.blockNumber = s.stored.obtainNumber → s.readNumber.blockNumber = s.blockNumber := by
    intro heq
    rw [State.readNumber, if_neg]
    rw [heq]
    exact h.holds.obtainNumber_ne
  constructor
  · simpa using h.holds
  · simpa using h.stored
  · simpa using h.nodup
  · simpa using h.settled
  · simpa using h.paid
  · simpa using h.lock
  · simpa [number_readNumber] using h.number
  · intro c call phase hc
    rw [calls_readNumber] at hc
    exact (h.found c call phase hc).transport (stored_readNumber s) (contexts_readNumber s) (number_readNumber s) hknown

section Move

variable {c : Nat}

theorem lock_move (h : Inv ledger s₀ s) {u : State H W} {call : Call H} {q : Phase} (hcalls : u.calls = Function.update s.calls c (some (call, q)))
    (hself : u.commitMutex = some c ↔ q.locked)
    (hother : ∀ x, x ≠ c → (u.commitMutex = some x ↔ s.commitMutex = some x)) (x : Nat) :
    u.commitMutex = some x ↔ ∃ other r, u.calls x = some (other, r) ∧ r.locked := by
  by_cases hx : x = c
  · subst hx
    rw [hself, hcalls, Function.update_self]
    constructor
    · intro hlocked
      exact ⟨call, q, rfl, hlocked⟩
    · rintro ⟨other, r, heq, hlocked⟩
      cases heq
      exact hlocked
  · rw [hother x hx, h.lock x, hcalls, Function.update_of_ne hx]

theorem move (h : Inv ledger s₀ s) (u : State H W) (call : Call H) (q : Phase) (hcalls : u.calls = Function.update s.calls c (some (call, q)))
    (hstored : u.stored = s.stored) (hcommitted : u.committed = s.committed) (hnumber : u.number = s.number)
    (hbefore : ∀ other r, s.calls c = some (other, r) → r.paid = false) (hafter : q.paid = false)
    (hfound : Found u call q) (hothers : ∀ x other r, x ≠ c → s.calls x = some (other, r) → Found u other r)
    (hself : u.commitMutex = some c ↔ q.locked)
    (hother : ∀ x, x ≠ c → (u.commitMutex = some x ↔ s.commitMutex = some x)) : Inv ledger s₀ u := by
  constructor
  · rw [hstored, hcommitted]
    exact h.holds
  · rw [hstored, hcommitted]
    exact h.stored
  · rw [hcommitted]
    exact h.nodup
  · intro k hk
    rw [hcommitted] at hk
    obtain ⟨other, r, hx, hr, hblock⟩ := h.settled k hk
    have hne : k.call ≠ c := by
      intro heq
      rw [heq] at hx
      rw [hbefore other r hx] at hr
      cases hr
    exact ⟨other, r, by rw [hcalls, Function.update_of_ne hne, hx], hr, hblock⟩
  · intro x other r hx hr
    rw [hcommitted]
    rcases update_eq_some (hcalls ▸ hx) with ⟨-, -, rfl⟩ | ⟨-, hold⟩
    · rw [hafter] at hr
      cases hr
    · exact h.paid x other r hold hr
  · exact h.lock_move hcalls hself hother
  · intro hnone
    rw [hnumber, hstored]
    apply h.number
    intro x other hx
    have hne : x ≠ c := by
      intro heq
      rw [heq] at hx
      exact absurd (hbefore other _ hx) (by decide)
    exact hnone x other (by rw [hcalls, Function.update_of_ne hne, hx])
  · intro x other r hx
    rcases update_eq_some (hcalls ▸ hx) with ⟨-, rfl, rfl⟩ | ⟨hne, hold⟩
    · exact hfound
    · exact hothers x other r hne hold

theorem setPhase (h : Inv ledger s₀ s) (call : Call H) (q : Phase) (mutex : Option Nat)
    (hbefore : ∀ other r, s.calls c = some (other, r) → r.paid = false)
    (hafter : q.paid = false) (hfound : Found s call q) (hself : mutex = some c ↔ q.locked)
    (hother : ∀ x, x ≠ c → (mutex = some x ↔ s.commitMutex = some x)) :
    Inv ledger s₀ { s.setPhase c call q with commitMutex := mutex } := by
  apply h.move { s.setPhase c call q with commitMutex := mutex } call q rfl rfl rfl rfl hbefore hafter _ _
    hself hother
  · exact hfound.transport rfl rfl rfl fun _ => rfl
  · intro x other r _ hx
    exact (h.found x other r hx).transport rfl rfl rfl fun _ => rfl

end Move

section Step

variable {c : Nat} {call : Call H}

theorem keep (h : Inv ledger s₀ s) {p q : Phase} (hc : s.calls c = some (call, p)) (hbefore : p.paid = false)
    (hafter : q.paid = false) (hfound : Found s call q) (hlocked : q.locked = p.locked) :
    Inv ledger s₀ (s.setPhase c call q) := by
  apply h.setPhase call q s.commitMutex _ hafter hfound
  · rw [h.lock c, hc, hlocked]
    constructor
    · rintro ⟨other, r, heq, hr⟩
      cases heq
      exact hr
    · intro hp
      exact ⟨call, p, rfl, hp⟩
  · exact fun x _ => Iff.rfl
  · intro other r hr
    rw [hc] at hr
    cases hr
    exact hbefore

theorem release (h : Inv ledger s₀ s) {p : Phase} {r : CommitResult} (hc : s.calls c = some (call, p))
    (hbefore : p.paid = false) (hafter : (Phase.done r).paid = false) (hlocked : p.locked) :
    Inv ledger s₀ (s.setPhase c call (.done r)).unlock := by
  have hmutex : s.commitMutex = some c := (h.lock c).mpr ⟨call, p, hc, hlocked⟩
  apply h.setPhase call (.done r) none _ hafter trivial
  · constructor
    · exact fun hnone => absurd hnone (by simp)
    · exact fun hdone => absurd hdone (by simp [Phase.locked])
  · intro x hne
    rw [hmutex, Option.some.injEq]
    constructor
    · exact fun hnone => absurd hnone (by simp)
    · exact fun heq => absurd heq.symm hne
  · intro other q hq
    rw [hc] at hq
    cases hq
    exact hbefore

theorem start (h : Inv ledger s₀ s) : Inv ledger s₀ (s.start c call) := by
  unfold State.start
  split
  · next hnone =>
    apply h.setPhase call .checkNumber s.commitMutex _ rfl trivial
    · rw [h.lock c, hnone]
      constructor
      · rintro ⟨other, r, heq, -⟩
        cases heq
      · exact fun hcheck => absurd hcheck (by decide)
    · exact fun x _ => Iff.rfl
    · intro other r hsome
      rw [hnone] at hsome
      cases hsome
  · exact h

theorem takeLock (h : Inv ledger s₀ s) (hc : s.calls c = some (call, .lock)) (hfree : s.commitMutex = none) :
    Inv ledger s₀ { s.setPhase c call .recheck with commitMutex := some c } := by
  have hfound : ParentChecked s call.block := h.found c call .lock hc
  apply h.setPhase call .recheck (some c) _ rfl hfound
  · exact ⟨fun _ => rfl, fun _ => rfl⟩
  · intro x hne
    rw [hfree, Option.some.injEq]
    constructor
    · exact fun heq => absurd heq.symm hne
    · exact fun hnone => absurd hnone (by simp)
  · intro other r hr
    rw [hc] at hr
    cases hr
    rfl

theorem runWriter (h : Inv ledger s₀ s) (w : Writer) : Inv ledger s₀ (s.runWriter c w) := by
  unfold State.runWriter
  split
  · next call left hc =>
    split
    · next hw =>
      have hwriting : Found s call (.writing left) := h.found c call _ hc
      obtain ⟨hnext, hnodup, hwritten⟩ := hwriting
      have hlocked : s.commitMutex = some c := (h.lock c).mpr ⟨call, .writing left, hc, rfl⟩
      have hsome : s.stored.currentNumber.isSome := by
        obtain ⟨last, -, hcurrent⟩ := h.holds.currentNumber
        rw [hcurrent]
        rfl
      refine h.move _ call (.writing (left.erase w)) rfl rfl rfl rfl ?_ rfl ?_ ?_ ?_ fun x _ => Iff.rfl
      · intro other r hr
        rw [hc] at hr
        cases hr
        rfl
      · refine ⟨⟨hnext.blockNumber, hnext.number, hnext.parentHash⟩, hnodup.erase w, ?_⟩
        simp only [Function.update_self]
        exact hwritten.write hsome hnodup hw
      · intro x other r hne hx
        exact (h.found x other r hx).mono (h.unlocked_of_ne hc rfl hx hne) (Int.le_refl _) fun _ _ => rfl
      · exact ⟨fun _ => rfl, fun _ => hlocked⟩
    · exact h
  · exact h

theorem call_ne (h : Inv ledger s₀ s) {p : Phase} (hc : s.calls c = some (call, p)) (hp : p.paid = false) :
    ∀ k ∈ s.committed, k.call ≠ c := by
  intro k hk heq
  obtain ⟨other, r, hx, hr, -⟩ := h.settled k hk
  rw [heq, hc] at hx
  cases hx
  rw [hp] at hr
  cases hr

theorem next (h : Inv ledger s₀ s) (hc : s.calls c = some (call, .dbCommit)) :
    call.block.number = s.number + 1 ∧ call.block.parentHash = s.stored.numberHash s.number := by
  have hdbCommit : Found s call .dbCommit := h.found c call _ hc
  rw [h.number_of_locked hc rfl (by decide)]
  exact ⟨hdbCommit.1.number, hdbCommit.1.parentHash⟩

theorem number_store (h : Inv ledger s₀ s) (hc : s.calls c = some (call, .dbCommit)) :
    (s.runDbCommit c .stored).number = s.number := by
  have hdbCommit : Found s call .dbCommit := h.found c call _ hc
  have hknown : s.blockNumber ≠ -1 := by
    rw [hdbCommit.1.blockNumber]
    exact h.holds.obtainNumber_ne
  simp only [State.runDbCommit, hc]
  exact (if_neg hknown).trans (if_neg hknown).symm

/-- **The storage takes the rows of the context.** -/
theorem store (h : Inv ledger s₀ s) (hc : s.calls c = some (call, .dbCommit)) :
    Inv ledger s₀ (s.runDbCommit c .stored) := by
  have hdbCommit : Found s call .dbCommit := h.found c call _ hc
  obtain ⟨hnext, hwritten⟩ := hdbCommit
  have hlocked : s.commitMutex = some c := (h.lock c).mpr ⟨call, .dbCommit, hc, rfl⟩
  have hrun : s.runDbCommit c .stored =
      { s with
        stored := s.stored.merge (s.contexts call.context)
        contexts := Function.update s.contexts call.context {}
        calls := Function.update s.calls c (some (call, .publish))
        committed := s.committed ++ [⟨c, call.block, s.contexts call.context⟩] } := by
    simp only [State.runDbCommit, hc]
  have hnumber := h.number_store hc
  have hcurrent : (s.stored.merge (s.contexts call.context)).obtainNumber = call.block.number := by
    have hset : (s.contexts call.context).currentNumber = some call.block.number := hwritten .number List.not_mem_nil
    simp only [Tables.obtainNumber, Tables.merge, hset, Option.some_or, Option.getD_some]
  have hhash : ∀ n ≤ s.number,
      (s.stored.merge (s.contexts call.context)).numberHash n = s.stored.numberHash n := by
    intro n hn
    apply Tables.numberHash_merge
    intro row hrow
    have hfilled : Filled call.block.number2Hash _ (s.contexts call.context).number2Hash := hwritten .number2Hash
    rw [List.mem_singleton.mp (hfilled.1 row hrow), (h.next hc).1]
    exact (Int.ne_of_lt (Int.lt_add_one_of_le hn)).symm
  have hfresh := h.call_ne hc rfl
  have hcalls : (s.runDbCommit c .stored).calls = Function.update s.calls c (some (call, .publish)) := by rw [hrun]
  constructor
  · rw [hrun]
    simp only [List.map_append, List.map_cons, List.map_nil, ← List.append_assoc]
    exact h.holds.merge hwritten hnext.number hnext.parentHash
  · rw [hrun]
    simp only [List.foldl_append, List.foldl_cons, List.foldl_nil]
    rw [← h.stored]
  · rw [hrun, List.map_append]
    apply List.nodup_append.mpr
    refine ⟨h.nodup, List.nodup_singleton c, ?_⟩
    rintro x hx y hy rfl
    obtain ⟨k, hk, rfl⟩ := List.mem_map.mp hx
    exact hfresh k hk (List.mem_singleton.mp hy)
  · intro k hk
    rw [hrun] at hk
    rw [hcalls]
    rcases List.mem_append.mp hk with hold | hnew
    · rw [Function.update_of_ne (hfresh k hold)]
      exact h.settled k hold
    · rw [List.mem_singleton.mp hnew]
      exact ⟨call, .publish, Function.update_self .., rfl, rfl⟩
  · intro x other r hx hr
    rw [hcalls] at hx
    rw [hrun]
    rcases update_eq_some hx with ⟨rfl, rfl, -⟩ | ⟨-, hold⟩
    · exact ⟨_, List.mem_append_right _ (List.mem_singleton_self _), rfl, rfl⟩
    · obtain ⟨k, hk, hcall⟩ := h.paid x other r hold hr
      exact ⟨k, List.mem_append_left _ hk, hcall⟩
  · apply h.lock_move hcalls
    · rw [hrun]
      exact ⟨fun _ => rfl, fun _ => hlocked⟩
    · intro x _
      rw [hrun]
  · intro hnone
    exact absurd (by rw [hcalls, Function.update_self]) (hnone c call)
  · intro x other r hx
    rw [hcalls] at hx
    rcases update_eq_some hx with ⟨-, rfl, rfl⟩ | ⟨hne, hold⟩
    · constructor
      · rw [hrun]
        exact hcurrent.symm
      · rw [hnumber]
        exact (h.next hc).1
    · apply (h.found x other r hold).mono (h.unlocked_of_ne hc rfl hold hne)
      · exact Int.le_of_eq hnumber.symm
      · rw [hrun]
        exact hhash

/-- **The number is published**, and the call returns OK. -/
theorem publish (h : Inv ledger s₀ s) (hc : s.calls c = some (call, .publish)) :
    Inv ledger s₀ (({ s with blockNumber := call.block.number } : State H W).setPhase c call (.done .OK)).unlock := by
  have hfound : Found s call .publish := h.found c call _ hc
  have hlocked : s.commitMutex = some c := (h.lock c).mpr ⟨call, .publish, hc, rfl⟩
  have hknown : call.block.number ≠ -1 := by
    rw [hfound.1]
    exact h.holds.obtainNumber_ne
  generalize hu : (({ s with blockNumber := call.block.number } : State H W).setPhase c call (.done .OK)).unlock = u
  have hcalls : u.calls = Function.update s.calls c (some (call, .done .OK)) := by rw [← hu]; rfl
  have hstored : u.stored = s.stored := by rw [← hu]; rfl
  have hcommitted : u.committed = s.committed := by rw [← hu]; rfl
  have hmutex : u.commitMutex = none := by rw [← hu]; rfl
  have hnumber : u.number = call.block.number := by
    rw [← hu]
    exact if_neg hknown
  constructor
  · rw [hstored, hcommitted]
    exact h.holds
  · rw [hstored, hcommitted]
    exact h.stored
  · rw [hcommitted]
    exact h.nodup
  · intro k hk
    rw [hcommitted] at hk
    obtain ⟨other, r, hx, hr, hblock⟩ := h.settled k hk
    rw [hcalls]
    by_cases hkc : k.call = c
    · rw [hkc, hc] at hx
      cases hx
      exact ⟨call, .done .OK, by rw [hkc, Function.update_self], rfl, hblock⟩
    · exact ⟨other, r, by rw [Function.update_of_ne hkc, hx], hr, hblock⟩
  · intro x other r hx hr
    rw [hcalls] at hx
    rw [hcommitted]
    rcases update_eq_some hx with ⟨rfl, rfl, -⟩ | ⟨-, hold⟩
    · exact h.paid x other .publish hc rfl
    · exact h.paid x other r hold hr
  · apply h.lock_move hcalls
    · rw [hmutex]
      exact ⟨fun hnone => absurd hnone (by simp), fun hdone => absurd hdone (by decide)⟩
    · intro x hne
      rw [hmutex, hlocked, Option.some.injEq]
      exact ⟨fun hnone => absurd hnone (by simp), fun heq => absurd heq.symm hne⟩
  · intro _
    rw [hnumber, hstored]
    exact hfound.1
  · intro x other r hx
    rw [hcalls] at hx
    rcases update_eq_some hx with ⟨-, rfl, rfl⟩ | ⟨hne, hold⟩
    · trivial
    · apply (h.found x other r hold).mono (h.unlocked_of_ne hc rfl hold hne)
      · rw [hnumber, hfound.2]
        exact Int.le_add_one (Int.le_refl s.number)
      · intro n _
        rw [hstored]

end Step

end Inv

/-! ### Runs -/

/-- What a step does to the stored rows and to `number()`. -/
inductive Effect (s u : State H W) : Prop
  | quiet (hstored : u.stored = s.stored) (hnumber : u.number = s.number)
  /-- the rows of the next block are stored -/
  | stored (c : Nat) (call : Call H) (hbefore : s.calls c = some (call, .dbCommit))
      (hafter : u.calls c = some (call, .publish)) (hnumber : u.number = s.number)
      (hnext : call.block.number = s.number + 1) (hparent : call.block.parentHash = s.stored.numberHash s.number)
      (hstored : u.stored = s.stored.merge (s.contexts call.context))
  /-- the call returns OK -/
  | returned (c : Nat) (call : Call H) (hbefore : s.calls c = some (call, .publish))
      (hafter : u.calls c = some (call, .done .OK)) (hnumber : u.number = s.number + 1)
      (hnext : call.block.number = s.number + 1) (hstored : u.stored = s.stored)

/-- The writers are entered with a context that fits, and a failing storage has
    taken no rows. -/
def StepOk (s : State H W) : Input H → Prop
  | .advance c =>
    ∀ x ∈ s.calls c, x.2 = .recheck → x.1.block.number = s.number + 1 →
      Fits s.stored x.1.block (s.contexts x.1.context)
  | .dbCommit c (.failed kept) => ∀ x ∈ s.calls c, x.2 = .dbCommit → kept = []
  | _ => True

instance [DecidableEq H] (s : State H W) : ∀ i, Decidable (StepOk s i)
  | .start .. => isTrue trivial
  | .advance c => inferInstanceAs (Decidable (∀ x ∈ s.calls c, _ → _ → _))
  | .write .. => isTrue trivial
  | .dbCommit _ .stored => isTrue trivial
  | .dbCommit c (.failed _) => inferInstanceAs (Decidable (∀ x ∈ s.calls c, _ → _))

omit [Inhabited H] in
theorem merge_part_nil (stored context : Tables H W) : stored.merge (context.part []) = stored := by
  simp only [Tables.merge, Tables.part, List.not_mem_nil, if_false, Option.none_or, List.append_nil]

section Step

variable [DecidableEq H] {ledger : List (Block H)} {s₀ s : State H W}

theorem Inv.advance (h : Inv ledger s₀ s) (c : Nat) (hok : StepOk s (.advance c)) :
    Inv ledger s₀ (s.advance c) ∧ Effect s (s.advance c) := by
  unfold State.advance
  split
  · next call hc =>
    have hread := h.readNumber
    have hphase : s.readNumber.calls c = some (call, .checkNumber) := by rw [calls_readNumber, hc]
    dsimp only
    split
    · exact ⟨hread.keep hphase rfl rfl trivial rfl, .quiet (stored_readNumber s) (number_readNumber s)⟩
    · next hnumber =>
      have hfound : Found s.readNumber call .readNumber := by
        rw [blockNumber_readNumber, not_not] at hnumber
        rw [Found, number_readNumber]
        exact Int.le_of_eq hnumber
      exact ⟨hread.keep hphase rfl rfl hfound rfl, .quiet (stored_readNumber s) (number_readNumber s)⟩
  · next call hc =>
    have hread := h.readNumber
    have hphase : s.readNumber.calls c = some (call, .readNumber) := by rw [calls_readNumber, hc]
    have hbefore : Found s call .readNumber := h.found c call _ hc
    have hfound : Found s.readNumber call (.readHash s.readNumber.blockNumber) := by
      rw [blockNumber_readNumber]
      exact ⟨hbefore, Int.le_of_eq (number_readNumber s).symm⟩
    exact ⟨hread.keep hphase rfl rfl hfound rfl, .quiet (stored_readNumber s) (number_readNumber s)⟩
  · next call n hc =>
    have hbefore : Found s call (.readHash n) := h.found c call _ hc
    split
    · exact ⟨h.keep hc rfl rfl trivial rfl, .quiet rfl rfl⟩
    · next hhash =>
      have hfound : Found s call .lock := ⟨n, hbefore.1, hbefore.2, not_not.mp hhash⟩
      exact ⟨h.keep hc rfl rfl hfound rfl, .quiet rfl rfl⟩
  · next call hc =>
    split
    · next hfree => exact ⟨h.takeLock hc hfree, .quiet rfl rfl⟩
    · exact ⟨h, .quiet rfl rfl⟩
  · next call hc =>
    have hread := h.readNumber
    have hphase : s.readNumber.calls c = some (call, .recheck) := by rw [calls_readNumber, hc]
    have hstored := h.number_of_locked hc rfl (by decide)
    dsimp only
    split
    · exact ⟨hread.release hphase rfl rfl rfl, .quiet (stored_readNumber s) (number_readNumber s)⟩
    · next hnumber =>
      rw [blockNumber_readNumber, not_not] at hnumber
      have hbefore : Found s call .recheck := h.found c call _ hc
      -- the number is the one that was read before the lock was taken
      obtain ⟨n, hn, hle, hparent⟩ := hbefore
      have hsame : n = s.number := Int.le_antisymm hle (Int.le_of_add_le_add_right (hnumber ▸ hn))
      have hnext : Next s.readNumber call.block := by
        constructor
        · rw [blockNumber_readNumber, stored_readNumber, hstored]
        · rw [stored_readNumber, hnumber, hstored]
        · rw [stored_readNumber, hparent, hsame, hstored]
      have hfits : Fits s.stored call.block (s.contexts call.context) := hok _ hc rfl hnumber
      have hfound : Found s.readNumber call (.writing writers) := by
        refine ⟨hnext, by decide, ?_⟩
        rw [stored_readNumber, contexts_readNumber]
        exact hfits.written
      exact ⟨hread.keep hphase rfl rfl hfound rfl, .quiet (stored_readNumber s) (number_readNumber s)⟩
  · next call hc =>
    have hbefore : Found s call (.writing []) := h.found c call _ hc
    exact ⟨h.keep hc rfl rfl ⟨hbefore.1, hbefore.2.2⟩ rfl, .quiet rfl rfl⟩
  · next call hc =>
    have hbefore : Found s call .publish := h.found c call _ hc
    refine ⟨h.publish hc, .returned c call hc (Function.update_self ..) ?_ hbefore.2 rfl⟩
    have hknown : call.block.number ≠ -1 := by
      rw [hbefore.1]
      exact h.holds.obtainNumber_ne
    rw [← hbefore.2]
    exact if_neg hknown
  · exact ⟨h, .quiet rfl rfl⟩

omit [DecidableEq H] in
theorem Inv.runDbCommit (h : Inv ledger s₀ s) (c : Nat) (outcome : Outcome) (hok : StepOk s (.dbCommit c outcome)) :
    Inv ledger s₀ (s.runDbCommit c outcome) ∧ Effect s (s.runDbCommit c outcome) := by
  by_cases hc : ∃ call, s.calls c = some (call, .dbCommit)
  · obtain ⟨call, hc⟩ := hc
    cases outcome with
    | stored =>
      have hnext := h.next hc
      have hstored := h.store hc
      refine ⟨hstored, .stored c call hc ?_ (h.number_store hc) hnext.1 hnext.2 ?_⟩
      · simp only [State.runDbCommit, hc, Function.update_self]
      · simp only [State.runDbCommit, hc]
    | failed kept =>
      have hkept : kept = [] := hok _ hc rfl
      subst hkept
      have hrun : s.runDbCommit c (.failed []) = (s.setPhase c call (.done .ERROR_COMMITTING)).unlock := by
        simp only [State.runDbCommit, hc, merge_part_nil]
      rw [hrun]
      exact ⟨h.release hc rfl rfl rfl, .quiet rfl rfl⟩
  · have hrun : s.runDbCommit c outcome = s := by
      unfold State.runDbCommit
      split
      · next call hdb => exact absurd ⟨call, hdb⟩ hc
      · rfl
    rw [hrun]
    exact ⟨h, .quiet rfl rfl⟩

end Step

/-- Nothing is under way; `m_blockNumber` is not known or the stored number. -/
structure Init (ledger : List (Block H)) (s₀ : State H W) : Prop where
  holds : Holds s₀.stored ledger
  blockNumber : s₀.blockNumber = -1 ∨ s₀.blockNumber = s₀.stored.obtainNumber
  calls : ∀ c, s₀.calls c = none
  commitMutex : s₀.commitMutex = none
  committed : s₀.committed = []

theorem Init.inv {ledger : List (Block H)} {s₀ : State H W} (h : Init ledger s₀) : Inv ledger s₀ s₀ := by
  have hnone : ∀ {c call phase}, s₀.calls c ≠ some (call, phase) := by
    intro c call phase hc
    rw [h.calls c] at hc
    cases hc
  constructor
  · simpa [h.committed] using h.holds
  · simp [h.committed]
  · simp [h.committed]
  · simp [h.committed]
  · exact fun c call phase hc => absurd hc hnone
  · intro c
    rw [h.commitMutex]
    constructor
    · exact fun heq => absurd heq (by simp)
    · rintro ⟨call, phase, hc, -⟩
      exact absurd hc hnone
  · intro _
    unfold State.number
    rcases h.blockNumber with hunknown | hknown
    · exact if_pos hunknown
    · rw [hknown]
      exact if_neg h.holds.obtainNumber_ne
  · exact fun c call phase hc => absurd hc hnone

section Linear

variable [DecidableEq H] {ledger : List (Block H)} {s₀ : State H W}

theorem step_inv {s : State H W} (h : Inv ledger s₀ s) (i : Input H) (hok : StepOk s i) :
    Inv ledger s₀ ((machine H W).step s i) ∧ Effect s ((machine H W).step s i) := by
  cases i with
  | start c call =>
    refine ⟨h.start, ?_⟩
    change Effect s (s.start c call)
    unfold State.start
    split
    · exact .quiet rfl rfl
    · exact .quiet rfl rfl
  | advance c => exact h.advance c hok
  | write c w =>
    refine ⟨h.runWriter w, ?_⟩
    change Effect s (s.runWriter c w)
    unfold State.runWriter
    split
    · split
      · exact .quiet rfl rfl
      · exact .quiet rfl rfl
    · exact .quiet rfl rfl
  | dbCommit c outcome => exact h.runDbCommit c outcome hok

theorem run_inv (h₀ : Init ledger s₀) {is : List (Input H)} (hrun : (machine H W).RunOk StepOk s₀ is) :
    Inv ledger s₀ ((machine H W).run s₀ is) := by
  have hstep : ∀ s i, Inv ledger s₀ s → StepOk s i → Inv ledger s₀ ((machine H W).step s i) :=
    fun s i h hok => (step_inv h i hok).1
  exact (machine H W).run_invariant hstep h₀.inv hrun

end Linear

structure Linear (ledger : List (Block H)) (s₀ s : State H W) : Prop where
  /-- the stored rows are those of the ledger and of the blocks that were committed -/
  holds : Holds s.stored (ledger ++ s.committed.map Commit.block)
  /-- nothing else was stored -/
  stored : s.stored = s.committed.foldl (fun stored k => stored.merge k.rows) s₀.stored
  /-- a call commits once … -/
  nodup : (s.committed.map Commit.call).Nodup
  /-- … its block, when it returns OK, … -/
  ok : ∀ c call, s.calls c = some (call, .done .OK) → ∃ k ∈ s.committed, k.call = c ∧ k.block = call.block
  /-- … and nothing otherwise -/
  error : ∀ c call r, s.calls c = some (call, .done r) → r ≠ .OK → ∀ k ∈ s.committed, k.call ≠ c
  height : s.stored.obtainNumber = s₀.stored.obtainNumber + s.committed.length
  /-- `number()` is behind only between storing and returning -/
  number : (∀ c call, s.calls c ≠ some (call, .publish)) → s.number = s.stored.obtainNumber

omit [Inhabited H] in
theorem number_of_linked {front blocks : List (Block H)} {last : Block H} (hlast : front.getLast? = some last)
    (hlinked : (front ++ blocks).IsChain Block.Follows) :
    ∃ top, (front ++ blocks).getLast? = some top ∧ top.number = last.number + blocks.length := by
  induction blocks generalizing front last with
  | nil => exact ⟨last, by rw [List.append_nil, hlast], by simp⟩
  | cons b rest ih =>
    have hfollows : last.Follows b := (List.isChain_append.mp hlinked).2.2 last hlast b rfl
    have happend : front ++ b :: rest = (front ++ [b]) ++ rest := by rw [List.append_assoc, List.singleton_append]
    rw [happend] at hlinked ⊢
    obtain ⟨top, htop, hnumber⟩ := ih List.getLast?_concat hlinked
    refine ⟨top, htop, ?_⟩
    have hlength : ((b :: rest).length : Int) = 1 + rest.length := by
      rw [List.length_cons, Int.natCast_succ, Int.add_comm]
    rw [hnumber, hfollows.1, hlength, Int.add_assoc]

theorem Inv.linear {ledger : List (Block H)} {s₀ s : State H W} (h₀ : Init ledger s₀) (h : Inv ledger s₀ s) :
    Linear ledger s₀ s where
  holds := h.holds
  stored := h.stored
  nodup := h.nodup
  ok c call hc := h.paid c call _ hc rfl
  error c call r hc hr := by
    apply h.call_ne hc
    cases r with
    | OK => exact absurd rfl hr
    | ERROR_NUMBER => rfl
    | ERROR_PARENT_HASH => rfl
    | ERROR_COMMITTING => rfl
  height := by
    obtain ⟨last, hlast, hfirst⟩ := h₀.holds.currentNumber
    obtain ⟨top, htop, hcurrent⟩ := h.holds.currentNumber
    obtain ⟨top', htop', hnumber⟩ := number_of_linked hlast h.holds.linked
    rw [htop] at htop'
    cases htop'
    rw [Tables.obtainNumber, hcurrent, Tables.obtainNumber, hfirst, Option.getD_some, Option.getD_some, hnumber,
      List.length_map]
  number := h.number

/-- **Linear commit.**  In every run that enters the writers with contexts that fit
    and in which a failing storage takes no rows, and for each further such step. -/
theorem linear_commit [DecidableEq H] {ledger : List (Block H)} {s₀ : State H W} (h₀ : Init ledger s₀)
    {is : List (Input H)} (hrun : (machine H W).RunOk StepOk s₀ is) :
    Linear ledger s₀ ((machine H W).run s₀ is) ∧
      ∀ i, StepOk ((machine H W).run s₀ is) i →
        Effect ((machine H W).run s₀ is) ((machine H W).step ((machine H W).run s₀ is) i) := by
  have hinv := run_inv h₀ hrun
  exact ⟨hinv.linear h₀, fun i hi => (step_inv hinv i hi).2⟩

/-! ### A chain of numbers -/

section Numbers

private def genesis : Block Nat := ⟨0, 100, 0, [], [], 0⟩

private def chainStart : State Nat Nat where
  stored :=
    { currentNumber := some 0
      hash2Block := [(100, genesis)]
      number2Hash := [(0, 100)] }
  blockNumber := -1
  contexts := fun _ => {}

private theorem init_chainStart : Init [genesis] chainStart where
  holds :=
    { linked := List.isChain_singleton _
      nonneg := by decide
      currentNumber := ⟨genesis, rfl, rfl⟩
      hash2Block := fun row => by simp [chainStart, Block.hash2Block, genesis]
      number2Hash := fun row => by simp [chainStart, Block.number2Hash, genesis]
      txHash2Block := fun row => by simp [chainStart, Block.txHash2Block, genesis]
      total := rfl }
  blockNumber := .inl rfl
  calls := fun _ => rfl
  commitMutex := rfl
  committed := rfl

/-- The steps of call `c` up to the storage. -/
private def untilStorage (c : Nat) (call : Call Nat) : List (Input Nat) :=
  [.start c call, .advance c, .advance c, .advance c, .advance c, .advance c] ++
    writers.reverse.map (.write c) ++ [.advance c]

private def one : Block Nat := ⟨1, 101, 100, [7, 8], [], 0⟩

/-- Two calls with a block of number 1 each; the storage fails for the first, which
    is repeated with another context. -/
private def retried : List (Input Nat) :=
  untilStorage 0 ⟨one, 0⟩ ++ [.start 1 ⟨⟨1, 102, 100, [9], [], 0⟩, 1⟩, .advance 1, .dbCommit 0 (.failed [])] ++
    untilStorage 2 ⟨one, 2⟩ ++ [.dbCommit 2 .stored, .advance 2, .advance 1, .advance 1]

theorem linear_commit_retried :
    Linear [genesis] chainStart ((machine Nat Nat).run chainStart retried) ∧
      ((machine Nat Nat).run chainStart retried).stored.totalTransactionCount = some 2 :=
  ⟨(linear_commit init_chainStart (by decide)).1, by decide⟩

/-- The same call, with the same block and context, after the storage failed: the
    total count is 4 with two transactions in the chain. -/
theorem not_linear_commit : ¬ ∀ (ledger : List (Block Nat)) (s₀ : State Nat Nat) (is : List (Input Nat)),
    Init ledger s₀ → (∀ n, s₀.contexts n = {}) → Linear ledger s₀ ((machine Nat Nat).run s₀ is) := by
  intro h
  have hlinear := h [genesis] chainStart
    (untilStorage 0 ⟨one, 0⟩ ++ [.dbCommit 0 (.failed [])] ++ untilStorage 1 ⟨one, 0⟩ ++ [.dbCommit 1 .stored, .advance 1])
    init_chainStart fun _ => rfl
  exact absurd hlinear.holds.total (by decide)

end Numbers

end HieraChain.CommitBlock
