/-
  HieraChain/ExecutiveGas.lean
  ============================
  **Gas and refunds** (`Executive::finalize`, `gasUsed`).

  The machine runs on the limit `L` of the node, less the base gas, whatever gas
  the user wrote into the transaction; no exit leaves more (`reaches_gas`).  The
  refund is cut to half of what was used, but `finalize` takes the user's gas for
  `L` in that difference.  The gas is accounted for exactly when the counter is
  small enough anyway, or the user's gas is not below what is left and not far
  above `L`                                           (`gas_exact_iff`).
-/
import HieraChain.ExecutiveAtomicity

namespace HieraChain.Executive

open HieraChain.BigEndian HieraChain.Storage HieraChain.StorageState

variable {c : Config} {origin : Address} {t : Transaction}

/-! ### What is accounted for -/

/-- The frame that `finalize` gets. -/
def Reaches (c : Config) (t : Transaction) (machine : Option Machine) (journal : Journal World) (f : Frame) : Prop :=
  execute c t { journal } = (f, .finished)
    ∨ ∃ f₀, execute c t { journal } = (f₀, .go) ∧ go c machine f₀ = .done f

/-- `refunds` of the context with what the suicides add. -/
def SubState.counter (sub : SubState) : U256 := sub.refunds + suicideRefundGas * BitVec.ofNat 256 sub.suicides.length

/-- `m_refunded` as `finalize` leaves it. -/
def Frame.refund (t : Transaction) (f : Frame) : U256 :=
  match f.ext with
  | none => 0
  | some ext => refunded t f ext.sub

def gasUsed (c : Config) (f : Frame) : U256 := (receipt c f []).gasUsed

/-- The refund is at most half of what was used, and the gas that is left and the
    gas that was used share the limit, in integers. -/
structure GasExact (c : Config) (t : Transaction) (f : Frame) : Prop where
  half : 2 * ((f.refund t).toNat : Int) ≤ c.txGasLimit.toNat - f.gas.toNat
  left : (finalize c t f).1.gas.toNat ≤ c.txGasLimit.toNat
  used : ((gasUsed c (finalize c t f).1).toNat : Int) = c.txGasLimit.toNat - (finalize c t f).1.gas.toNat

/-- The counter is at most half of what was used, or the user's gas bounds the refund as well as the limit does. -/
def RefundFits (c : Config) (t : Transaction) (f : Frame) : Prop :=
  ∀ ext ∈ f.ext, ext.sub.counter.toNat ≤ (c.txGasLimit.toNat - f.gas.toNat) / 2
    ∨ f.gas.toNat ≤ t.gas.toNat ∧ (t.gas.toNat - f.gas.toNat) / 2 ≤ (c.txGasLimit.toNat - f.gas.toNat) / 2

/-! ### The gas that is left -/

theorem zero_le_u256 (b : U256) : (0 : U256) ≤ b := BitVec.le_def.mpr (Nat.zero_le _)

theorem setUpCreate_gas (sender : Address) (endowment : U256) (init : Bytes) (f : Frame) :
    (setUpCreate c origin sender endowment init f).1.gas = f.gas := by
  unfold setUpCreate
  cases f.world.transferBalance c sender f.newAddress endowment with
  | none => rfl
  | some w =>
    dsimp only
    split
    · split
      · rfl
      · rfl
    · split
      · rfl
      · rfl

theorem executeCreate_gas (sender : Address) (endowment gas : U256) (init : Bytes) (f : Frame) :
    (executeCreate c origin sender endowment gas init f).1.gas ≤ gas := by
  unfold executeCreate
  split
  · exact zero_le_u256 gas
  split
  · exact zero_le_u256 gas
  dsimp only
  split
  · exact zero_le_u256 gas
  · rw [setUpCreate_gas]
    exact Nat.le_refl _

theorem callTransfer_gas (p : CallParameters) (f : Frame) : (callTransfer c p f).1.gas = f.gas := by
  unfold callTransfer
  cases f.world.transferBalance c p.senderAddress p.receiveAddress p.valueTransfer with
  | none => rfl
  | some w => rfl

theorem callTry_gas (p : CallParameters) (f : Frame) : (callTry c origin p f).1.gas = p.gas := by
  unfold callTry
  cases c.executeOriginPrecompiled p.codeAddress with
  | some execute => exact callTransfer_gas p _
  | none =>
    dsimp only
    cases c.precompiled p.codeAddress with
    | some execute =>
      dsimp only
      cases execute p.data origin p.senderAddress _ with
      | ok r => exact callTransfer_gas p _
      | error e => rfl
    | none =>
      dsimp only
      split
      · exact callTransfer_gas p _
      · split
        · exact callTransfer_gas p _
        · exact callTransfer_gas p _

theorem call_gas (isExternal : Bool) (p : CallParameters) (f : Frame) :
    (call c origin isExternal p f).1.gas = p.gas := by
  unfold call
  split
  · rfl
  · exact callTry_gas p _

theorem execute_gas (t : Transaction) (journal : Journal World) :
    (execute c t { journal }).1.gas ≤ c.txGasLimit - baseGasRequired := by
  unfold execute
  by_cases hlacks : t.lacksGas c
  · rw [if_pos (show (if RC3_VERSION < c.version then c.txGasLimit else t.gas) < baseGasRequired from hlacks)]
    exact zero_le_u256 _
  · rw [if_neg (show ¬ (if RC3_VERSION < c.version then c.txGasLimit else t.gas) < baseGasRequired from hlacks)]
    cases t.receiveAddress with
    | none => exact executeCreate_gas _ _ _ _ _
    | some receiver =>
      dsimp only
      rw [call_gas]
      exact Nat.le_refl _

def Machine.Frugal (machine : Machine) (given : U256) : Prop :=
  ∀ ext journal r ext' journal', machine ext journal = .result r ext' journal' → r.gasLeft ≤ given

theorem goCatch_gas {e : Thrown} {f f' : Frame} (h : goCatch c e f = .done f') {given : U256} (hf : f.gas ≤ given) :
    f'.gas ≤ given := by
  cases e with
  | PermissionDenied =>
    unfold goCatch at h
    dsimp only at h
    split at h
    · cases h
      exact hf
    · cases h
      exact zero_le_u256 given
  | OutOfGas => cases h; exact hf
  | GasOverflow => cases h; exact hf
  | NotEnoughCash => cases h; exact hf
  | PrecompiledError => cases h; exact hf
  | InternalVMError => cases h
  | OutOfGasBase => cases h
  | other => cases h

theorem parseEVMCResult_gas {r : Result} {f : Frame} {given : U256} (hf : f.gas ≤ given) (hr : r.gasLeft ≤ given) :
    (parseEVMCResult r f).1.gas ≤ given := by
  unfold parseEVMCResult
  cases r.status with
  | SUCCESS => exact hr
  | REVERT => exact hr
  | OUT_OF_GAS => exact hf
  | FAILURE => exact hf
  | code value => exact hf
  | INVALID_INSTRUCTION => exact zero_le_u256 given
  | UNDEFINED_INSTRUCTION => exact zero_le_u256 given
  | BAD_JUMP_DESTINATION => exact zero_le_u256 given
  | STACK_OVERFLOW => exact zero_le_u256 given
  | STACK_UNDERFLOW => exact zero_le_u256 given
  | INVALID_MEMORY_ACCESS => exact zero_le_u256 given
  | STATIC_MODE_VIOLATION => exact zero_le_u256 given

theorem deposit_gas (address : Address) (output : Bytes) (f : Frame) : (deposit c address output f).1.gas = f.gas := by
  unfold deposit
  split
  · rfl
  · rfl

theorem goResult_gas {r : Result} {address : Address} {f f' : Frame} (h : goResult c r address f = .done f')
    {given : U256} (hf : f.gas ≤ given) (hr : r.gasLeft ≤ given) : f'.gas ≤ given := by
  have hparse := parseEVMCResult_gas hf hr
  unfold goResult at h
  split at h
  · next f₁ e heq =>
    rw [heq] at hparse
    exact goCatch_gas h hparse
  · next f₁ heq =>
    rw [heq] at hparse
    split at h
    · have hdeposit := deposit_gas (c := c) address r.output f₁
      split at h
      · next f₂ e heq₂ =>
        rw [heq₂] at hdeposit
        exact goCatch_gas h (by rw [hdeposit]; exact hparse)
      · next f₂ heq₂ =>
        rw [heq₂] at hdeposit
        cases h
        rw [hdeposit]
        exact hparse
    · cases h
      exact hparse

theorem go_gas {machine : Option Machine} {f f' : Frame} (h : go c machine f = .done f') {given : U256}
    (hf : f.gas ≤ given) (hmachine : ∀ m ∈ machine, m.Frugal given) : f'.gas ≤ given := by
  unfold go at h
  cases hext : f.ext with
  | none =>
    rw [hext] at h
    cases h
    exact hf
  | some ext =>
    rw [hext] at h
    dsimp only at h
    split at h
    · exact goCatch_gas h hf
    cases machine with
    | none => cases h
    | some machine =>
      dsimp only at h
      cases hrun : machine ext f.journal with
      | result r ext' journal' =>
        rw [hrun] at h
        exact goResult_gas h hf (hmachine machine rfl ext f.journal r ext' journal' hrun)
      | threw e ext' journal' =>
        rw [hrun] at h
        exact goCatch_gas h hf
      | crashed =>
        rw [hrun] at h
        cases h

/-- **No exit leaves more gas than the machine was given.** -/
theorem reaches_gas {machine : Option Machine} {journal : Journal World} {f : Frame}
    (h : Reaches c t machine journal f) (hmachine : ∀ m ∈ machine, m.Frugal (c.txGasLimit - baseGasRequired)) :
    f.gas ≤ c.txGasLimit - baseGasRequired := by
  have hstart := execute_gas (c := c) t journal
  rcases h with hfinished | ⟨f₀, hexecute, hgo⟩
  · rw [hfinished] at hstart
    exact hstart
  · rw [hexecute] at hstart
    exact go_gas hgo hstart hmachine

/-! ### The refund -/

theorem foldl_kill_gas (suicides : List Address) (f : Frame) :
    (suicides.foldl (fun f a => f.modify fun w => w.kill c a) f).gas = f.gas := by
  induction suicides generalizing f with
  | nil => rfl
  | cons a suicides ih =>
    rw [List.foldl_cons, ih]
    rfl

theorem finalize_gas (f : Frame) : (finalize c t f).1.gas = f.gas + f.refund t := by
  unfold finalize Frame.refund
  cases f.ext with
  | none => exact (BitVec.add_zero f.gas).symm
  | some ext =>
    dsimp only
    rw [foldl_kill_gas]

theorem refund_some {f : Frame} {ext : Ext} (hext : f.ext = some ext) :
    (f.refund t).toNat = min ((t.gas - f.gas).toNat / 2) ext.sub.counter.toNat := by
  have hhalf : ((t.gas - f.gas) / 2).toNat = (t.gas - f.gas).toNat / 2 := BitVec.toNat_udiv
  rw [Frame.refund, hext]
  dsimp only
  unfold refunded
  dsimp only
  rw [← hhalf, Nat.min_def]
  split
  · next hle => rw [if_pos (show ((t.gas - f.gas) / 2).toNat ≤ ext.sub.counter.toNat from hle)]
  · next hlt => rw [if_neg (show ¬ ((t.gas - f.gas) / 2).toNat ≤ ext.sub.counter.toNat from hlt)]; rfl

theorem gasExact_iff_half {f : Frame} (hL : c.txGasLimit.toNat < 2 ^ 64) (hgas : f.gas.toNat ≤ c.txGasLimit.toNat) :
    GasExact c t f ↔ (f.refund t).toNat ≤ (c.txGasLimit.toNat - f.gas.toNat) / 2 := by
  constructor
  · intro h
    have := h.half
    omega
  · intro h
    have hleft : (finalize c t f).1.gas.toNat = f.gas.toNat + (f.refund t).toNat := by
      rw [finalize_gas, BitVec.toNat_add, Nat.mod_eq_of_lt (by omega)]
    refine ⟨by omega, by omega, ?_⟩
    have hused : (gasUsed c (finalize c t f).1).toNat
        = c.txGasLimit.toNat - (finalize c t f).1.gas.toNat := by
      change (c.txGasLimit - (finalize c t f).1.gas).toNat = _
      exact BitVec.toNat_sub_of_le (BitVec.le_def.mpr (by omega))
    omega

theorem sub_toNat_cases (a b : U256) :
    b.toNat ≤ a.toNat ∧ (a - b).toNat = a.toNat - b.toNat
      ∨ a.toNat < b.toNat ∧ (a - b).toNat = 2 ^ 256 - b.toNat + a.toNat := by
  have ha := a.isLt
  have hb := b.isLt
  rw [BitVec.toNat_sub]
  omega

theorem refund_le_iff {f : Frame} (hL : c.txGasLimit.toNat < 2 ^ 64) (hgas : f.gas.toNat ≤ c.txGasLimit.toNat) :
    (f.refund t).toNat ≤ (c.txGasLimit.toNat - f.gas.toNat) / 2 ↔ RefundFits c t f := by
  cases hext : f.ext with
  | none =>
    refine iff_of_true ?_ fun ext h => by rw [hext] at h; cases h
    rw [Frame.refund, hext]
    exact Nat.zero_le _
  | some ext =>
    have hfits : RefundFits c t f ↔ ext.sub.counter.toNat ≤ (c.txGasLimit.toNat - f.gas.toNat) / 2
        ∨ f.gas.toNat ≤ t.gas.toNat
          ∧ (t.gas.toNat - f.gas.toNat) / 2 ≤ (c.txGasLimit.toNat - f.gas.toNat) / 2 := by
      unfold RefundFits
      rw [hext]
      simp only [Option.mem_some_iff, forall_eq']
    rw [hfits, refund_some hext, min_le_iff]
    rcases sub_toNat_cases t.gas f.gas with ⟨hle, hsub⟩ | ⟨hlt, hsub⟩
    · rw [hsub]
      omega
    · -- the difference has wrapped, and half of it is far above the limit
      rw [hsub]
      omega

/-! ### Every execution -/

/-- **The gas is accounted for exactly when the refund counter or the user's gas
    keeps the refund small.** -/
theorem gas_exact_iff (c : Config) (t : Transaction) (machine : Option Machine) (journal : Journal World) (f : Frame)
    (hL : c.txGasLimit.toNat < 2 ^ 64) (hbase : baseGasRequired.toNat ≤ c.txGasLimit.toNat)
    (hmachine : ∀ m ∈ machine, m.Frugal (c.txGasLimit - baseGasRequired)) (h : Reaches c t machine journal f) :
    GasExact c t f ↔ RefundFits c t f := by
  have hgiven : (c.txGasLimit - baseGasRequired).toNat = c.txGasLimit.toNat - baseGasRequired.toNat :=
    BitVec.toNat_sub_of_le (BitVec.le_def.mpr hbase)
  have hgas : f.gas.toNat ≤ c.txGasLimit.toNat := by
    have := BitVec.le_def.mp (reaches_gas h hmachine)
    omega
  rw [gasExact_iff_half hL hgas, refund_le_iff hL hgas]

/-- A creation that leaves 100000 and clears nothing. -/
theorem gas_exact_iff_deployed :
    ∃ f, Reaches .sample (.sample 0)
        (some (Behaviour.exec .sample (Transaction.sample 0).sender (.finish .SUCCESS [7] 100000))) emptyWorld f
      ∧ (GasExact .sample (.sample 0) f ↔ RefundFits .sample (.sample 0) f) :=
  ⟨_, .inr ⟨_, rfl, rfl⟩, gas_exact_iff .sample (.sample 0)
    (some (Behaviour.exec .sample (Transaction.sample 0).sender (.finish .SUCCESS [7] 100000))) emptyWorld _
    (by decide) (by decide)
    (fun m hm ext journal r ext' journal' hrun => by cases hm; cases hrun; decide)
    (.inr ⟨_, rfl, rfl⟩)⟩

/-- Init code that sets a slot, clears it and destroys its contract, for 30000. -/
def clearing : Behaviour :=
  .setStorage 1 1 fun _ => .setStorage 1 0 fun _ => .selfdestruct zeroAddress (.finish .SUCCESS [] 299950000)

/-- A user who writes no gas into the transaction gets 39000 of 50000 back. -/
theorem refund_above_half :
    ¬ ∀ (c : Config) (t : Transaction) (machine : Option Machine) (journal : Journal World) (f : Frame),
      c.txGasLimit.toNat < 2 ^ 64 → baseGasRequired.toNat ≤ c.txGasLimit.toNat →
        (∀ m ∈ machine, m.Frugal (c.txGasLimit - baseGasRequired)) → Reaches c t machine journal f →
          GasExact c t f := by
  intro h
  have hexact := h .sample (.sample 0) (some (Behaviour.exec .sample (Transaction.sample 0).sender clearing)) emptyWorld _
    (by decide) (by decide)
    (fun m hm ext journal r ext' journal' hrun => by cases hm; cases hrun; decide)
    (.inr ⟨_, rfl, rfl⟩)
  exact absurd hexact.half (by decide)

end HieraChain.Executive
