/-
  HieraChain/NonceWindow.lean
  ===========================
  **Which nonces the chain refuses** (`libtxpool/TransactionNonceCheck.h`, `.cpp`,
  `CommonTransactionNonceCheck.cpp`, `getNonces` of `BlockChainImp.cpp`).

  After a call of `updateCache` the cache ought to have the nonces of the last
  blocks, those of the block limit and one more.  A call that rebuilds gets
  there from any state (`rebuilt_cache`).  Another call erases the nonces of the
  blocks that leave, and with them those that a block has which stays.  It gets
  there exactly when each of these comes back with a new block (`moved_cache`,
  `KeepsRepeated`), and the window holds all along a run exactly when every call
  of the run does (`nonce_window`).
-/
import HieraChain.PoolNonces

namespace HieraChain.Pool

open NonceCheck

/-! ### Checks -/

/-- `isNonceOk` of `CommonTransactionNonceCheck`. -/
def NonceCheck.isNonceOk (c : NonceCheck) (tx : Transaction) (needInsert : Bool) : Bool × NonceCheck :=
  if tx.nonce ∈ c.cache then (false, c)
  else if needInsert then (true, { c with cache := Insert.insert tx.nonce c.cache })
  else (true, c)

def NonceCheck.ok (c : NonceCheck) (tx : Transaction) : Bool := isBlockLimitOk tx && (c.isNonceOk tx false).1

theorem ok_eq_false_iff {c : NonceCheck} {tx : Transaction} : c.ok tx = false ↔ tx.nonce ∈ c.cache := by
  rw [NonceCheck.ok, isBlockLimitOk, Bool.true_and, NonceCheck.isNonceOk]
  split
  next hmem => exact ⟨fun _ => hmem, fun _ => rfl⟩
  next hmem => exact ⟨fun h => (by split at h <;> cases h), fun h => absurd h hmem⟩

/-! ### A chain and its check -/

structure Checked where
  chain : List (List Nat)
  check : NonceCheck

inductive CheckInput
  | commit (nonces : List Nat)
  | updateCache (rebuild : Bool)

def checkedMachine (maxBlockLimit : Nat) : Machine Checked CheckInput where
  step s
    | .commit nonces => { s with chain := s.chain ++ [nonces] }
    | .updateCache rebuild => { s with check := s.check.updateCache maxBlockLimit s.chain rebuild }

/-- A check at its construction over a chain; the genesis block has no
    transactions. -/
def Checked.start (maxBlockLimit : Nat) (blocks : List (List Nat)) : Checked where
  chain := [] :: blocks
  check := NonceCheck.init maxBlockLimit ([] :: blocks)

def lastCall : Nat → Nat → List CheckInput → Nat
  | _, last, [] => last
  | height, last, .commit _ :: is => lastCall (height + 1) last is
  | height, _, .updateCache _ :: is => lastCall height height is

/-- A block from number `max(1, n - maxBlockLimit)` to `n` has the nonce. -/
def InWindow (maxBlockLimit : Nat) (chain : List (List Nat)) (n nonce : Nat) : Prop :=
  ∃ j, max 1 (n - maxBlockLimit) ≤ j ∧ j ≤ n ∧ nonce ∈ getNonces chain j

def WindowHolds (maxBlockLimit : Nat) (s : Checked) (n : Nat) : Prop :=
  (∀ nonce, nonce ∈ s.check.cache ↔ InWindow maxBlockLimit s.chain n nonce)
    ∧ ∀ tx, s.check.ok tx = false ↔ InWindow maxBlockLimit s.chain n tx.nonce

/-- A nonce of a block that leaves the window and of one that stays in it comes
    back with a block that enters it. -/
def KeepsRepeated (maxBlockLimit : Nat) (s : Checked) : CheckInput → Prop
  | .updateCache false =>
    let n := s.chain.length - 1
    ∀ i j nonce, s.check.startblk ≤ i → i < n - maxBlockLimit → n - maxBlockLimit ≤ j → j ≤ s.check.endblk →
      nonce ∈ getNonces s.chain i → nonce ∈ getNonces s.chain j →
      ∃ k, s.check.endblk < k ∧ k ≤ n ∧ nonce ∈ getNonces s.chain k
  | _ => True

/-! ### One call -/

variable {maxBlockLimit : Nat} {chain : List (List Nat)} {c : NonceCheck} {s : Checked}

theorem firstBlock_eq (maxBlockLimit last : Nat) : firstBlock maxBlockLimit last = last - maxBlockLimit := by
  unfold firstBlock
  split <;> omega

structure Standing (maxBlockLimit : Nat) (chain : List (List Nat)) (c : NonceCheck) : Prop where
  faithful : c.Faithful chain
  genesis : getNonces chain 0 = []
  first : c.startblk = c.endblk - maxBlockLimit
  last : c.endblk < chain.length

variable (maxBlockLimit) in
theorem updateCache_standing (hfaithful : c.Faithful chain) (hgenesis : getNonces chain 0 = [])
    (hchain : 0 < chain.length) (rebuild : Bool) :
    Standing maxBlockLimit chain (c.updateCache maxBlockLimit chain rebuild)
      ∧ (c.updateCache maxBlockLimit chain rebuild).endblk = chain.length - 1
      ∧ ∀ nonce, nonce ∈ (c.updateCache maxBlockLimit chain rebuild).cache ↔
        (rebuild = false ∧ nonce ∈ c.cache
          ∧ ∀ i ∈ numbers c.startblk (chain.length - 1 - maxBlockLimit), nonce ∉ getNonces chain i)
        ∨ ∃ k ∈ numbers (max ((if rebuild then 0 else c.endblk) + 1) (chain.length - 1 - maxBlockLimit)) chain.length,
            nonce ∈ getNonces chain k := by
  have hend : chain.length - 1 + 1 = chain.length := by omega
  let moved : NonceCheck :=
    { c with startblk := firstBlock maxBlockLimit (chain.length - 1), endblk := chain.length - 1 }
  let erased : NonceCheck :=
    if rebuild then { moved with cache := ∅ }
    else (numbers c.startblk (firstBlock maxBlockLimit (chain.length - 1))).foldl (expire maxBlockLimit chain) moved
  have herased : erased.Faithful chain ∧ SameWindow moved erased
      ∧ ∀ nonce, nonce ∈ erased.cache ↔ rebuild = false ∧ nonce ∈ c.cache
        ∧ ∀ i ∈ numbers c.startblk (firstBlock maxBlockLimit (chain.length - 1)), nonce ∉ getNonces chain i := by
    cases rebuild with
    | true => exact ⟨hfaithful, ⟨rfl, rfl⟩, fun nonce => by simp [erased]⟩
    | false =>
      obtain ⟨hkept, hwindow, hmem⟩ := foldl_expire maxBlockLimit
        (numbers c.startblk (firstBlock maxBlockLimit (chain.length - 1))) (show moved.Faithful chain from hfaithful)
      exact ⟨hkept, hwindow, fun nonce => by simpa [erased] using hmem nonce⟩
  obtain ⟨hkept, hwindow, hmem⟩ := herased
  let entering := numbers (max ((if rebuild then 0 else c.endblk) + 1) (firstBlock maxBlockLimit (chain.length - 1)))
    (chain.length - 1 + 1)
  obtain ⟨hkept', hwindow', hmem'⟩ := foldl_enter maxBlockLimit entering hkept fun i hi => by
    have := (mem_numbers.mp hi).2
    omega
  have hupdated : c.updateCache maxBlockLimit chain rebuild = entering.foldl (enter maxBlockLimit chain) erased := rfl
  have hlast := hwindow'.2.trans hwindow.2
  rw [hupdated]
  refine ⟨⟨hkept', hgenesis, ?_, ?_⟩, hlast, ?_⟩
  · rw [hwindow'.1, hwindow.1, hlast]
    exact firstBlock_eq _ _
  · rw [hlast]
    show chain.length - 1 < chain.length
    omega
  · intro nonce
    rw [hmem', hmem]
    simp only [entering, firstBlock_eq, hend]

/-- **A call that rebuilds gets to the window.** -/
theorem rebuilt_cache (hfaithful : c.Faithful chain) (hgenesis : getNonces chain 0 = []) (hchain : 0 < chain.length)
    (nonce : Nat) :
    nonce ∈ (c.updateCache maxBlockLimit chain true).cache
      ↔ InWindow maxBlockLimit chain (chain.length - 1) nonce := by
  rw [(updateCache_standing maxBlockLimit hfaithful hgenesis hchain true).2.2]
  constructor
  · rintro (⟨hfalse, -⟩ | ⟨k, hk, hnonce⟩)
    · cases hfalse
    · obtain ⟨hfirst, hlast⟩ := mem_numbers.mp hk
      rw [if_pos rfl] at hfirst
      exact ⟨k, by omega, by omega, hnonce⟩
  · rintro ⟨j, hfirst, hlast, hnonce⟩
    right
    refine ⟨j, mem_numbers.mpr ?_, hnonce⟩
    rw [if_pos rfl]
    omega

/-- **Another call gets there from the window exactly when the nonces that repeat
    are kept.** -/
theorem moved_cache (h : Standing maxBlockLimit s.chain s.check)
    (hwindow : ∀ nonce, nonce ∈ s.check.cache ↔ InWindow maxBlockLimit s.chain s.check.endblk nonce) :
    (∀ nonce, nonce ∈ (s.check.updateCache maxBlockLimit s.chain false).cache
        ↔ InWindow maxBlockLimit s.chain (s.chain.length - 1) nonce)
      ↔ KeepsRepeated maxBlockLimit s (.updateCache false) := by
  have hlast := h.last
  have hfirst := h.first
  have hcache := (updateCache_standing maxBlockLimit h.faithful h.genesis (by omega) false).2.2
  constructor
  · intro hmoved i j nonce hi hi' hj hj' hleaves hstays
    have hpos : 0 < j := by omega
    have hin : InWindow maxBlockLimit s.chain (s.chain.length - 1) nonce := ⟨j, by omega, by omega, hstays⟩
    obtain ⟨-, -, hnone⟩ | ⟨k, hk, hnew⟩ := (hcache nonce).mp ((hmoved nonce).mpr hin)
    · exact absurd hleaves (hnone i (mem_numbers.mpr ⟨hi, hi'⟩))
    · obtain ⟨hk, hk'⟩ := mem_numbers.mp hk
      rw [if_neg Bool.false_ne_true] at hk
      exact ⟨k, by omega, by omega, hnew⟩
  · intro hkeeps nonce
    rw [hcache, if_neg Bool.false_ne_true, hwindow]
    constructor
    · rintro (⟨-, ⟨j, hj, hj', hnonce⟩, hnone⟩ | ⟨k, hk, hnonce⟩)
      · -- a block of the old window has it, which is not one that leaves
        refine ⟨j, ?_, by omega, hnonce⟩
        by_contra hout
        exact hnone j (mem_numbers.mpr ⟨by omega, by omega⟩) hnonce
      · obtain ⟨hk, hk'⟩ := mem_numbers.mp hk
        exact ⟨k, by omega, by omega, hnonce⟩
    · rintro ⟨j, hj, hj', hnonce⟩
      by_cases hnew : s.check.endblk < j
      · exact Or.inr ⟨j, mem_numbers.mpr (by omega), hnonce⟩
      by_cases hleaves : ∀ i ∈ numbers s.check.startblk (s.chain.length - 1 - maxBlockLimit), nonce ∉ getNonces s.chain i
      · exact Or.inl ⟨rfl, ⟨j, by omega, by omega, hnonce⟩, hleaves⟩
      · push Not at hleaves
        obtain ⟨i, hi, hi'⟩ := hleaves
        obtain ⟨hfirst', hlast'⟩ := mem_numbers.mp hi
        obtain ⟨k, hk, hk', hback⟩ := hkeeps i j nonce hfirst' hlast' (by omega) (by omega) hi' hnonce
        exact Or.inr ⟨k, mem_numbers.mpr (by omega), hback⟩

/-! ### Runs -/

def StandingNow (maxBlockLimit : Nat) (s : Checked) : Prop := Standing maxBlockLimit s.chain s.check

theorem Standing.commit (h : Standing maxBlockLimit chain c) (nonces : List Nat) :
    Standing maxBlockLimit (chain ++ [nonces]) c where
  faithful i v hfind := by
    obtain ⟨hi, rfl⟩ := h.faithful i v hfind
    have hlonger : i < (chain ++ [nonces]).length := by
      rw [List.length_append]
      omega
    exact ⟨hlonger, (getNonces_append hi).symm⟩
  genesis := by
    have hlast := h.last
    rw [getNonces_append (by omega), h.genesis]
  first := h.first
  last := by
    have hlast := h.last
    rw [List.length_append]
    omega

theorem standing_step (s : Checked) (i : CheckInput) (h : StandingNow maxBlockLimit s) :
    StandingNow maxBlockLimit ((checkedMachine maxBlockLimit).step s i) := by
  cases i with
  | commit nonces => exact Standing.commit h nonces
  | updateCache rebuild =>
    have hchain : 0 < s.chain.length := lt_of_le_of_lt (Nat.zero_le _) h.last
    exact (updateCache_standing maxBlockLimit h.faithful h.genesis hchain rebuild).1

theorem inWindow_append {n nonce : Nat} (hn : n < chain.length) (nonces : List Nat) :
    InWindow maxBlockLimit (chain ++ [nonces]) n nonce ↔ InWindow maxBlockLimit chain n nonce := by
  have hsame : ∀ j, j ≤ n → getNonces (chain ++ [nonces]) j = getNonces chain j := by
    intro j hj
    exact getNonces_append (by omega)
  constructor
  · rintro ⟨j, hj, hj', hnonce⟩
    exact ⟨j, hj, hj', hsame j hj' ▸ hnonce⟩
  · rintro ⟨j, hj, hj', hnonce⟩
    exact ⟨j, hj, hj', (hsame j hj').symm ▸ hnonce⟩

def Current (maxBlockLimit : Nat) (s : Checked) : Prop :=
  ∀ nonce, nonce ∈ s.check.cache ↔ InWindow maxBlockLimit s.chain s.check.endblk nonce

theorem current_step (s : Checked) (i : CheckInput) (h : StandingNow maxBlockLimit s) (hcurrent : Current maxBlockLimit s) :
    Current maxBlockLimit ((checkedMachine maxBlockLimit).step s i) ↔ KeepsRepeated maxBlockLimit s i := by
  have hchain : 0 < s.chain.length := lt_of_le_of_lt (Nat.zero_le _) h.last
  cases i with
  | commit nonces =>
    refine iff_of_true (fun nonce => ?_) trivial
    rw [show ((checkedMachine maxBlockLimit).step s (.commit nonces)).chain = s.chain ++ [nonces] from rfl,
      show ((checkedMachine maxBlockLimit).step s (.commit nonces)).check = s.check from rfl,
      inWindow_append h.last]
    exact hcurrent nonce
  | updateCache rebuild =>
    have hend := (updateCache_standing maxBlockLimit h.faithful h.genesis hchain rebuild).2.1
    have hstep : (checkedMachine maxBlockLimit).step s (.updateCache rebuild)
      = { s with check := s.check.updateCache maxBlockLimit s.chain rebuild } := rfl
    rw [Current, hstep, hend]
    cases rebuild with
    | true => exact iff_of_true (rebuilt_cache h.faithful h.genesis hchain) trivial
    | false => exact moved_cache h hcurrent

theorem start_standing (maxBlockLimit : Nat) (blocks : List (List Nat)) :
    StandingNow maxBlockLimit (Checked.start maxBlockLimit blocks)
      ∧ Current maxBlockLimit (Checked.start maxBlockLimit blocks)
      ∧ (Checked.start maxBlockLimit blocks).check.endblk = blocks.length := by
  have hfaithful : ({} : NonceCheck).Faithful ([] :: blocks) := by
    intro i v hfind
    cases hfind
  have hchain : 0 < ([] :: blocks : List (List Nat)).length := Nat.succ_pos _
  obtain ⟨hstanding, hend, -⟩ := updateCache_standing maxBlockLimit hfaithful rfl hchain true
  refine ⟨hstanding, ?_, hend⟩
  intro nonce
  rw [show (Checked.start maxBlockLimit blocks).check.endblk = blocks.length from hend]
  exact rebuilt_cache hfaithful rfl hchain nonce

theorem endblk_run (is : List CheckInput) (s : Checked) (h : StandingNow maxBlockLimit s) :
    ((checkedMachine maxBlockLimit).run s is).check.endblk = lastCall (s.chain.length - 1) s.check.endblk is := by
  induction is generalizing s with
  | nil => rfl
  | cons i is ih =>
    have hchain : 0 < s.chain.length := lt_of_le_of_lt (Nat.zero_le _) h.last
    rw [Machine.run_cons, ih _ (standing_step s i h)]
    cases i with
    | commit nonces =>
      have hheight : (s.chain ++ [nonces]).length - 1 = s.chain.length - 1 + 1 := by
        rw [List.length_append, List.length_singleton]
        omega
      rw [lastCall, ← hheight]
      rfl
    | updateCache rebuild =>
      have hend := (updateCache_standing maxBlockLimit h.faithful h.genesis hchain rebuild).2.1
      rw [lastCall, show ((checkedMachine maxBlockLimit).step s (.updateCache rebuild)).check.endblk = _ from hend]
      rfl

theorem windowHolds_iff {n : Nat} (h : s.check.endblk = n) : WindowHolds maxBlockLimit s n ↔ Current maxBlockLimit s := by
  subst h
  constructor
  · exact fun hwindow => hwindow.1
  · intro hcurrent
    refine ⟨hcurrent, ?_⟩
    intro tx
    rw [ok_eq_false_iff]
    exact hcurrent tx.nonce

/-- **The window of nonces.**  All along a run over a growing chain the cache has
    the nonces of the window of the last call, and refuses these alone, exactly
    when every call that moves the window keeps the nonces that repeat. -/
theorem nonce_window (maxBlockLimit : Nat) (blocks : List (List Nat)) (is : List CheckInput) :
    (∀ n, WindowHolds maxBlockLimit
        ((checkedMachine maxBlockLimit).run (Checked.start maxBlockLimit blocks) (is.take n))
        (lastCall blocks.length blocks.length (is.take n)))
      ↔ (checkedMachine maxBlockLimit).RunOk (KeepsRepeated maxBlockLimit) (Checked.start maxBlockLimit blocks) is := by
  obtain ⟨hstanding, hcurrent, hend⟩ := start_standing maxBlockLimit blocks
  rw [← Machine.forall_take_iff _ standing_step current_step is hstanding hcurrent]
  apply forall_congr'
  intro n
  apply windowHolds_iff
  rw [endblk_run (is.take n) _ hstanding, hend]
  rfl

/-- With a limit of one block, the nonce of block 2 goes with that of block 1. -/
theorem window_forgets :
    ¬ ∀ n, WindowHolds 1
      ((checkedMachine 1).run (Checked.start 1 [[7], [7]]) (List.take n [.commit [], .updateCache false]))
      (lastCall 2 2 (List.take n [.commit [], .updateCache false])) := by
  intro h
  have hwindow : InWindow 1 [[], [7], [7], []] 3 7 := ⟨2, by decide, by decide, by decide⟩
  exact absurd (((h 2).1 7).mpr hwindow) (by decide +kernel)

end HieraChain.Pool
