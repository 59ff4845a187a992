/-
  HieraChain/PBFTInvariants.lean
  ==============================
  **What holds in every reachable state of a node**, whatever it receives.

  The chain is numbered from the genesis block on and is at least as high as
  the highest reported block; the consensus height is the one after that block;
  and as long as the prepare cache is in use it holds an executed block with
  the hash of its header.
-/
import HieraChain.PBFTSteps

set_option linter.unusedSectionVars false

namespace HieraChain.PBFT

variable {H S T : Type} [DecidableEq H] [DecidableEq S]

/-! ### Storing a block -/

theorem Chain.commitBlock_eq_some {c : Crypto H S T} {chain chain' : Chain H S T} {b : Block H S T}
    {ok : Bool} (h : chain.commitBlock c b ok = some chain') :
    chain' = chain ++ [b] ∧ b.header.number = chain.number + 1 := by
  unfold Chain.commitBlock at h
  split_ifs at h with hnumber
  cases h
  exact ⟨rfl, not_not.mp hnumber⟩

theorem Chain.number_append (chain : Chain H S T) (b : Block H S T) :
    Chain.number (chain ++ [b]) = chain.number + 1 := by
  simp [Chain.number]

theorem Chain.number_nonneg_of_getBlockByNumber {chain : Chain H S T} {n : Int} {b : Block H S T}
    (h : chain.getBlockByNumber n = some b) : 0 ≤ n ∧ n ≤ chain.number := by
  unfold Chain.getBlockByNumber at h
  split_ifs at h with hneg
  have hlen := (List.getElem?_eq_some_iff.mp h).1
  unfold Chain.number
  omega

theorem Numbered.append {chain : Chain H S T} (h : Numbered chain) {b : Block H S T}
    (hb : b.header.number = chain.number + 1) : Numbered (chain ++ [b]) := by
  intro n b' hb'
  have hrange := Chain.number_nonneg_of_getBlockByNumber hb'
  rw [Chain.number_append] at hrange
  unfold Chain.getBlockByNumber at hb'
  rw [if_neg (not_lt.mpr hrange.1)] at hb'
  rcases lt_or_eq_of_le hrange.2 with hold | hnew
  · apply h n b'
    have hlen : n.toNat < chain.length := by
      unfold Chain.number at hold
      omega
    rw [List.getElem?_append_left hlen] at hb'
    unfold Chain.getBlockByNumber
    rw [if_neg (not_lt.mpr hrange.1)]
    exact hb'
  · have hlen : n.toNat = chain.length := by
      unfold Chain.number at hnew
      omega
    rw [hlen, List.getElem?_concat_length] at hb'
    cases hb'
    exact hb.trans hnew.symm

variable [Zero H]

theorem Node.saveBlock_cases (c : Config H S T) (e : Env T) (s : Node H S T) (b : Block H S T) :
    (b.header.number = s.chain.number + 1 ∧ s.saveBlock c e b = { s with
      chain := s.chain ++ [b]
      cache := s.cache.delCache (c.crypto.headerHash b.header)
      trace := .commitBlock s.sealerList b true :: s.trace }) ∨
    s.saveBlock c e b = { s with trace := .commitBlock s.sealerList b false :: s.trace } := by
  unfold Node.saveBlock
  cases hchain : s.chain.commitBlock c.crypto b e.dbCommitOk with
  | none => exact .inr rfl
  | some chain =>
    obtain ⟨rfl, hnumber⟩ := Chain.commitBlock_eq_some hchain
    exact .inl ⟨hnumber, rfl⟩

/-! ### The trace -/

theorem SmallStep.trace_suffix {c : Config H S T} {e : Env T} {i : Input H S T} {s₀ s s' : Node H S T}
    (hstep : SmallStep c e i s₀ s s') : s.trace <:+ s'.trace := by
  cases hstep with
  | note _ ev hev => exact List.suffix_cons ..
  | sign _ req b htaken hexec => exact List.suffix_cons ..
  | lock _ hsame hcfg hview hcause =>
    exact (List.suffix_cons ..).trans (List.suffix_cons ..)
  | save _ b b' hsame hview hheight hblock hlist hcount =>
    rcases Node.saveBlock_cases c e s b' with ⟨-, heq⟩ | heq
    · rw [heq]
      exact List.suffix_cons ..
    · rw [heq]
      exact List.suffix_cons ..
  | enterView _ v hsealers hhighest hsize hview =>
    unfold Node.checkAndChangeView
    rw [if_pos hsize]
    exact List.suffix_cons ..
  | report number b hi hblock =>
    rcases Node.reportBlockWithoutLock_cases c e s₀ b with heq | ⟨-, -, heq⟩ | ⟨-, -, heq⟩
    · rewrite [heq]
      exact List.suffix_refl _
    · rw [heq]
      exact List.suffix_cons ..
    · rw [heq]
      exact List.suffix_cons ..
  | _ => exact List.suffix_refl _

theorem trace_suffix_step (c : Config H S T) (s : Node H S T) (i : Env T × Input H S T) :
    s.trace <:+ ((engine c).step s i).trace := by
  have hs : (fun t : Node H S T => s.trace <:+ t.trace) s := List.suffix_refl _
  exact (engine_madeOf c).step_invariant (i := i) (fun _ _ hstep ht => List.IsSuffix.trans ht hstep.trace_suffix) hs

theorem trace_suffix_run (c : Config H S T) (s : Node H S T) (is : List (Env T × Input H S T)) :
    s.trace <:+ ((engine c).run s is).trace := by
  have hs : (fun t : Node H S T => s.trace <:+ t.trace) s := List.suffix_refl _
  exact (engine c).run_preserves (fun t i ht => List.IsSuffix.trans ht (trace_suffix_step c t i)) hs is

/-! ### The invariant -/

structure NodeInv (c : Config H S T) (s : Node H S T) : Prop where
  numbered : Numbered s.chain
  highest_nonneg : 0 ≤ s.highestBlock.number
  highest_le : s.highestBlock.number ≤ s.chain.number
  cons_eq : s.consensusBlockNumber = s.highestBlock.number + 1
  prepared : s.cache.prepareCache.height = -1 ∨ ∃ b, s.cache.prepareCache.pBlock = some b ∧
    s.cache.prepareCache.blockHash = c.crypto.headerHash b.header

namespace NodeInv

variable {c : Config H S T} {e : Env T} {i : Input H S T} {s₀ s s' : Node H S T}

theorem frame (h : NodeInv c s) (hchain : s'.chain = s.chain)
    (hhighest : s'.highestBlock = s.highestBlock)
    (hcons : s'.consensusBlockNumber = s.consensusBlockNumber)
    (hprepare : s'.cache.prepareCache = s.cache.prepareCache ∨
      s'.cache.prepareCache = s.cache.prepareCache.clear) : NodeInv c s' := by
  refine ⟨hchain ▸ h.numbered, hhighest ▸ h.highest_nonneg, ?_, ?_, ?_⟩
  · rw [hhighest, hchain]
    exact h.highest_le
  · rw [hcons, hhighest]
    exact h.cons_eq
  · rcases hprepare with hprepare | hprepare
    · rw [hprepare]
      exact h.prepared
    · rw [hprepare]
      exact .inl rfl

theorem prepareCache_delCache (q : ReqCache H S T) (hash : H) :
    (q.delCache hash).prepareCache = q.prepareCache ∨
      (q.delCache hash).prepareCache = q.prepareCache.clear := by
  by_cases hhash : hash = q.prepareCache.blockHash
  · exact .inr (if_pos hhash)
  · exact .inl (if_neg hhash)

theorem store (h : NodeInv c s) {b : Block H S T} (hnumber : b.header.number = s.chain.number + 1)
    (hchain : s'.chain = s.chain ++ [b]) (hhighest : s'.highestBlock = s.highestBlock)
    (hcons : s'.consensusBlockNumber = s.consensusBlockNumber)
    (hprepare : s'.cache.prepareCache = s.cache.prepareCache ∨
      s'.cache.prepareCache = s.cache.prepareCache.clear) : NodeInv c s' := by
  have hframed : NodeInv c { s' with chain := s.chain } := h.frame rfl hhighest hcons hprepare
  refine ⟨hchain ▸ h.numbered.append hnumber, hframed.highest_nonneg, ?_, hframed.cons_eq,
    hframed.prepared⟩
  have hle : s'.highestBlock.number ≤ s.chain.number := hframed.highest_le
  rw [hchain, Chain.number_append]
  exact le_trans hle (le_of_lt (lt_add_one _))

theorem reportBlockWithoutLock (h : NodeInv c s) {number : Int} {b : Block H S T}
    (hblock : s.chain.getBlockByNumber number = some b) :
    NodeInv c (s.reportBlockWithoutLock c e b) := by
  obtain ⟨hnonneg, hle⟩ := Chain.number_nonneg_of_getBlockByNumber hblock
  rw [← h.numbered number b hblock] at hnonneg hle
  have hcons := h.cons_eq
  have hhighest := h.highest_nonneg
  have hchain := h.highest_le
  have hprepared : ∀ q : ReqCache H S T, q.prepareCache = s.cache.prepareCache →
      (q.delCache (c.crypto.headerHash b.header)).prepareCache.height = -1 ∨
        ∃ b', (q.delCache (c.crypto.headerHash b.header)).prepareCache.pBlock = some b' ∧
          (q.delCache (c.crypto.headerHash b.header)).prepareCache.blockHash =
            c.crypto.headerHash b'.header := by
    intro q hq
    rcases prepareCache_delCache q (c.crypto.headerHash b.header) with heq | heq
    · rw [heq, hq]
      exact h.prepared
    · rw [heq]
      exact .inl rfl
  rcases Node.reportBlockWithoutLock_cases c e s b with heq | ⟨-, -, heq⟩ | ⟨hnew, hold, heq⟩
  · rw [heq]
    exact h
  · rw [heq]
    exact ⟨h.numbered, hnonneg, hle, rfl, hprepared _ rfl⟩
  · rw [heq]
    refine ⟨h.numbered, hnonneg, hle, ?_, hprepared _ rfl⟩
    change s.consensusBlockNumber = b.header.number + 1
    rcases hnew with hnew | hnew
    · omega
    · omega

theorem smallStep (hstep : SmallStep c e i s₀ s s') (h : NodeInv c s) : NodeInv c s' := by
  cases hstep with
  | pending _ future raw same pfuture hfuture hraw hpfuture => exact h.frame rfl rfl rfl (.inl rfl)
  | note _ ev hev => exact h.frame rfl rfl rfl (.inl rfl)
  | takeRaw _ req htaken => exact h.frame rfl rfl rfl (.inr rfl)
  | transRaw _ req p block htaken hi hprepare hfail => exact h.frame rfl rfl rfl (.inl rfl)
  | sign _ req b htaken hexec =>
    exact ⟨h.numbered, h.highest_nonneg, h.highest_le, h.cons_eq, .inr ⟨b, rfl, rfl⟩⟩
  | countSigns _ => exact h.frame rfl rfl rfl (.inl rfl)
  | countCommits _ => exact h.frame rfl rfl rfl (.inl rfl)
  | lock _ hsame hcfg hview hcause => exact h.frame rfl rfl rfl (.inl rfl)
  | save _ b b' hsame hview hheight hblock hlist hcount =>
    rcases Node.saveBlock_cases c e s b' with ⟨hnumber, heq⟩ | heq
    · rw [heq]
      exact h.store hnumber rfl rfl rfl (prepareCache_delCache _ _)
    · rw [heq]
      exact h.frame rfl rfl rfl (.inl rfl)
  | addSign _ m => exact h.frame rfl rfl rfl (.inl rfl)
  | addCommit m req req' hi hreq hcheck => exact h.frame rfl rfl rfl (.inl rfl)
  | dropViewChanges _ q hdrops =>
    obtain ⟨recv, latest, -, rfl⟩ := hdrops
    exact h.frame rfl rfl rfl (.inl rfl)
  | insertViewChange _ req horigin hheight => exact h.frame rfl rfl rfl (.inl rfl)
  | moveToView _ v failed hmove => exact h.frame rfl rfl rfl (.inl rfl)
  | enterView _ v hsealers hhighest hsize hview =>
    unfold Node.checkAndChangeView
    rw [if_pos hsize]
    exact h.frame rfl rfl rfl (.inr rfl)
  | report number b hi hblock => exact h.reportBlockWithoutLock hblock
  | collectGarbage hi => exact h.frame rfl rfl rfl (.inl rfl)
  | resetConfig hi => exact h.frame rfl rfl rfl (.inl rfl)
  | storeSynced _ b chain hi hchain =>
    obtain ⟨rfl, hnumber⟩ := Chain.commitBlock_eq_some hchain
    exact h.store hnumber rfl rfl rfl (.inl rfl)

theorem started (hs : Started s) : NodeInv c s := by
  obtain ⟨e, noSig, backup, chain, last, hnumbered, hlast, rfl⟩ := hs
  obtain ⟨hnonneg, hle⟩ := Chain.number_nonneg_of_getBlockByNumber hlast
  have hnumber := hnumbered _ _ hlast
  exact ⟨hnumbered, hnumber ▸ hnonneg, le_of_eq hnumber, rfl, .inl rfl⟩

theorem step (h : NodeInv c s) (i : Env T × Input H S T) : NodeInv c ((engine c).step s i) :=
  (engine_madeOf c).step_invariant (fun _ _ hstep => smallStep hstep) h

theorem run (h : NodeInv c s) (is : List (Env T × Input H S T)) : NodeInv c ((engine c).run s is) :=
  (engine c).run_preserves (fun _ i ht => ht.step i) h is

end NodeInv

end HieraChain.PBFT
