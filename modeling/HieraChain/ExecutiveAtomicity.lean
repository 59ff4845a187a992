/-
  HieraChain/ExecutiveAtomicity.lean
  ==================================
  **A transaction has all its effects or none.**

  Every executive takes its savepoint on a journal that only grows until it
  reverts, so each revert finds the state of the savepoint
  (`Journal.rollback_savepoint`).  The run of the machine is an induction over its
  behaviour: the journal extends the one it started with and holds what is meant
  (`exec_meant`).  What `go` makes of the result is a case of the status each.
-/
import HieraChain.ExecutiveEffects

namespace HieraChain.Executive

open HieraChain.BigEndian HieraChain.Storage HieraChain.StorageState

variable {c : Config} {origin : Address} {j : Journal World}

/-! ### Creations -/

theorem executeCreate_refused {sender a : Address} {endowment : U256} (gas : U256) (init : Bytes) {e : TransactionException}
    {output : Bytes} (h : j.current.create c origin sender a endowment = .refused e output) :
    executeCreate c origin sender endowment gas init { journal := j, newAddress := a } =
      ({ journal := j.rollback 0, excepted := e, output }, .finished) ∧ c.mayDeploy origin = false ∧ e ≠ .None ∧
        toEvmcStatus e = .FAILURE := by
  unfold World.create at h
  unfold executeCreate Config.mayDeploy
  split at h
  · next hdeny =>
    cases h
    rw [if_pos hdeny]
    refine ⟨rfl, ?_, nofun, rfl⟩
    rw [Bool.not_eq_true'] at hdeny
    rw [hdeny, Bool.false_and]
  · next hdeploy =>
    split at h
    · next hfrozen =>
      cases h
      rw [if_neg hdeploy, if_pos hfrozen]
      refine ⟨rfl, ?_, nofun, rfl⟩
      rw [hfrozen.2, decide_eq_true hfrozen.1, Bool.and_self, Bool.not_true, Bool.and_false]
    · split at h
      · cases h
      · split at h <;> cases h

theorem mayDeploy_of_create (c : Config) (origin : Address) {sender a : Address} {endowment : U256} {w : World}
    (h : ∀ e output, w.create c origin sender a endowment ≠ .refused e output) :
    ¬ (!c.deployers origin) = true ∧ ¬ (V2_5_0 ≤ c.version ∧ c.frozen origin) := by
  unfold World.create at h
  constructor
  · intro hdeny
    rw [if_pos hdeny] at h
    exact h _ _ rfl
  · intro hfrozen
    split at h
    · exact h _ _ rfl
    · exact h _ _ rfl

theorem executeCreate_used {sender a : Address} {endowment : U256} (gas : U256) (init : Bytes) {w : World}
    (h : j.current.create c origin sender a endowment = .used w) :
    w = j.current.incNonce c sender ∧ executeCreate c origin sender endowment gas init { journal := j, newAddress := a } =
      ({ journal := j.modify fun w => w.incNonce c sender, excepted := .AddressAlreadyUsed, isCreation := true,
         savepoint := (j.modify fun w => w.incNonce c sender).savepoint }, .finished) := by
  obtain ⟨hdeploy, hfrozen⟩ := mayDeploy_of_create c origin fun e output heq => nomatch h.symm.trans heq
  unfold World.create at h
  rw [if_neg hdeploy, if_neg hfrozen] at h
  unfold executeCreate
  rw [if_neg hdeploy, if_neg hfrozen]
  split at h
  · next hused =>
    cases h
    refine ⟨rfl, (if_pos hused).trans ?_⟩
    unfold Frame.revert beginCreate Frame.modify
    dsimp only
    rw [Journal.rollback_savepoint (.refl _)]
  · split at h <;> cases h

theorem executeCreate_unpaid {sender a : Address} {endowment : U256} (gas : U256) (init : Bytes)
    (h : j.current.create c origin sender a endowment = .unpaid) :
    ∃ f, executeCreate c origin sender endowment gas init { journal := j, newAddress := a } = (f, .throws .NotEnoughCash) := by
  obtain ⟨hdeploy, hfrozen⟩ := mayDeploy_of_create c origin fun e output heq => nomatch h.symm.trans heq
  unfold World.create at h
  rw [if_neg hdeploy, if_neg hfrozen] at h
  unfold executeCreate
  rw [if_neg hdeploy, if_neg hfrozen]
  split at h
  · cases h
  · next hused =>
    split at h
    · next hcash =>
      refine ⟨beginCreate c sender gas { journal := j, newAddress := a }, (if_neg hused).trans ?_⟩
      unfold setUpCreate
      rw [show (beginCreate c sender gas { journal := j, newAddress := a }).world.transferBalance c sender
        (beginCreate c sender gas { journal := j, newAddress := a }).newAddress endowment = none from hcash]
    · cases h

theorem executeCreate_started {sender a : Address} {endowment : U256} (gas : U256) (init : Bytes) {w : World}
    (h : j.current.create c origin sender a endowment = .started w) :
    ∃ k : Journal World, k.current = w ∧ (j.modify fun w => w.incNonce c sender).Extends k ∧
      executeCreate c origin sender endowment gas init { journal := j, newAddress := a } =
        ({ journal := k, newAddress := a, isCreation := true, gas, savepoint := (j.modify fun w => w.incNonce c sender).savepoint,
           ext := if init ≠ [] then some { myAddress := a } else none }, if init ≠ [] then .go else .finished) := by
  obtain ⟨hdeploy, hfrozen⟩ := mayDeploy_of_create c origin fun e output heq => nomatch h.symm.trans heq
  unfold World.create at h
  rw [if_neg hdeploy, if_neg hfrozen] at h
  unfold executeCreate
  rw [if_neg hdeploy, if_neg hfrozen]
  split at h
  · cases h
  · next hused =>
    split at h
    · cases h
    · next w2 hcash =>
      cases h
      have hpaid := (Journal.Extends.refl (j.modify fun w => w.incNonce c sender)).modify fun _ => w2
      have hnonce := hpaid.modify fun w => w.setNonce a c.state.accountStartNonce
      unfold World.start
      by_cases hgrant : V2_3_0 ≤ c.version
      · refine ⟨_, ?_, hnonce.modify fun w => w.grantContractStatusManager c a sender origin, (if_neg hused).trans ?_⟩
        · rw [if_pos hgrant]
          rfl
        · unfold setUpCreate
          rw [show (beginCreate c sender gas { journal := j, newAddress := a }).world.transferBalance c sender
            (beginCreate c sender gas { journal := j, newAddress := a }).newAddress endowment = some w2 from hcash]
          dsimp only
          rw [if_pos hgrant]
          by_cases hinit : init ≠ []
          · rw [if_pos hinit, if_pos hinit, if_pos hinit]
            rfl
          · rw [if_neg hinit, if_neg hinit, if_neg hinit]
            rfl
      · refine ⟨_, ?_, hnonce, (if_neg hused).trans ?_⟩
        · rw [if_neg hgrant]
          rfl
        · unfold setUpCreate
          rw [show (beginCreate c sender gas { journal := j, newAddress := a }).world.transferBalance c sender
            (beginCreate c sender gas { journal := j, newAddress := a }).newAddress endowment = some w2 from hcash]
          dsimp only
          rw [if_neg hgrant]
          by_cases hinit : init ≠ []
          · rw [if_pos hinit, if_pos hinit, if_pos hinit]
            rfl
          · rw [if_neg hinit, if_neg hinit, if_neg hinit]
            rfl

/-! ### Calls -/

theorem transferBalance_zero {w w' : World} {source target : Address} (h : w.transferBalance c source target 0 = some w') :
    w' = w := by
  unfold World.transferBalance AccountMap.transferBalance AccountMap.subBalance at h
  cases hdata : w.accounts source with
  | none =>
    rw [hdata] at h
    cases h
  | some data =>
    rw [hdata] at h
    dsimp only at h
    have hnot : ¬ data.balance < 0 := BitVec.not_lt_zero
    have hsub : data.balance - 0 = data.balance := BitVec.sub_zero _
    rw [if_neg hnot, change_some hdata, hsub, ← hdata, Function.update_eq_self] at h
    unfold AccountMap.addBalance at h
    rw [Option.map_some, if_pos rfl] at h
    exact (Option.some.inj h).symm

section
variable {p : CallParameters}

theorem callTransfer_some {f : Frame} {w : World}
    (h : f.world.transferBalance c p.senderAddress p.receiveAddress p.valueTransfer = some w) :
    callTransfer c p f = (f.modify fun _ => w, f.flow) := by
  unfold callTransfer
  rw [h]
  rfl

theorem callTransfer_none {f : Frame}
    (h : f.world.transferBalance c p.senderAddress p.receiveAddress p.valueTransfer = none) :
    callTransfer c p f = callCatch .NotEnoughCash f := by
  unfold callTransfer
  rw [h]

def Follows (p : CallParameters) (j : Journal World) : Calling → Frame × Flow → Prop
  | .failed output, r => ∃ e k, toEvmcStatus e = .FAILURE ∧ j.Extends k ∧ k.current = j.current ∧
    r = ({ journal := k, output, excepted := e, gas := p.gas, savepoint := j.savepoint }, .finished)
  | .done output w, r => ∃ k, j.Extends k ∧ k.current = w ∧
    r = ({ journal := k, output, gas := p.gas, savepoint := j.savepoint }, .finished)
  | .run w, r => ∃ k, j.Extends k ∧ k.current = w ∧
    r = ({ journal := k, gas := p.gas, savepoint := j.savepoint, ext := some { myAddress := p.receiveAddress } }, .go)
  | .unpaid, r => ∃ f : Frame, f.ext.isSome = true ∧ f.gas = p.gas ∧ r = (f, .go)

theorem toEvmcStatus_callExcepted (e : Thrown) : toEvmcStatus (callExcepted e) = .FAILURE := by
  cases e <;> rfl

theorem callCatch_follows {k : Journal World} (e : Thrown) (output : Bytes) (h : j.Extends k) :
    Follows p j (.failed output) (callCatch e { journal := k, output, gas := p.gas, savepoint := j.savepoint }) := by
  refine ⟨callExcepted e, j, toEvmcStatus_callExcepted e, .refl j, rfl, ?_⟩
  unfold callCatch Frame.revert
  dsimp only
  rw [Journal.rollback_savepoint h]
  rfl

theorem callTransfer_follows {k : Journal World} (output : Bytes) (h : j.Extends k) :
    Follows p j (k.current.paid c p output)
      (callTransfer c p { journal := k, output, gas := p.gas, savepoint := j.savepoint }) := by
  unfold World.paid
  cases hcash : k.current.transferBalance c p.senderAddress p.receiveAddress p.valueTransfer with
  | none =>
    rw [callTransfer_none hcash]
    exact callCatch_follows _ output h
  | some w => exact ⟨_, h.modify fun _ => w, rfl, callTransfer_some hcash⟩

/-- **A call that fails has changed nothing**, and one that does not is as it is meant. -/
theorem callTry_follows (origin : Address) (j : Journal World) (hvalue : c.frozen p.codeAddress = true → p.valueTransfer = 0) :
    Follows p j (j.current.call c origin p) (callTry c origin p { journal := j, savepoint := j.savepoint }) := by
  unfold World.call callTry
  cases c.executeOriginPrecompiled p.codeAddress with
  | some execute => exact callTransfer_follows _ (.refl j)
  | none =>
    dsimp only
    cases c.precompiled p.codeAddress with
    | some execute =>
      dsimp only
      unfold Frame.world
      dsimp only
      cases execute p.data origin p.senderAddress j.current with
      | ok done => exact callTransfer_follows (k := j.modify fun _ => done.2) _ ((Journal.Extends.refl j).modify _)
      | error e => exact callCatch_follows e [] (.refl j)
    | none =>
      dsimp only
      by_cases hfrozen : c.frozen p.codeAddress = true
      · rw [if_pos hfrozen, if_pos hfrozen]
        cases hcash : j.current.transferBalance c p.senderAddress p.receiveAddress p.valueTransfer with
        | none =>
          rw [callTransfer_none hcash]
          exact callCatch_follows _ [] (.refl j)
        | some w =>
          rw [hvalue hfrozen] at hcash
          exact ⟨.ContractFrozen, j.modify fun _ => w, rfl, (Journal.Extends.refl j).modify _,
            transferBalance_zero hcash, callTransfer_some (by rw [hvalue hfrozen]; exact hcash)⟩
      · rw [if_neg hfrozen, if_neg hfrozen]
        by_cases hcode : j.current.addressHasCode p.codeAddress = true
        · rw [if_pos hcode, if_pos (show ({ journal := j, savepoint := j.savepoint, gas := p.gas } : Frame).world.addressHasCode
            p.codeAddress = true from hcode)]
          cases hcash : j.current.transferBalance c p.senderAddress p.receiveAddress p.valueTransfer with
          | none => exact ⟨_, rfl, rfl, callTransfer_none hcash⟩
          | some w => exact ⟨_, (Journal.Extends.refl j).modify fun _ => w, rfl, callTransfer_some hcash⟩
        · rw [if_neg hcode, if_neg (show ¬ ({ journal := j, savepoint := j.savepoint, gas := p.gas } : Frame).world.addressHasCode
            p.codeAddress = true from hcode)]
          exact callTransfer_follows _ (.refl j)

end

/-! ### Executives of the host -/

/-- A host's executive against what is meant; it adds nothing to the context. -/
def Answers (j : Journal World) (sub : SubState) : Answer → Nested → Prop
  | .returned r w, n => ∃ k, j.Extends k ∧ k.current = w ∧ n = .returned r sub k
  | .crashed, n => n = .crashed

theorem signExtend_le {gas : BitVec 64} (h : ¬ gas.toInt < 0) : ¬ gas.signExtend 256 > int64max := by
  have hmsb : gas.msb = false := by
    rw [BitVec.msb_eq_toInt]
    exact decide_eq_false h
  have hlt := BitVec.toNat_lt_of_msb_false hmsb
  rw [BitVec.signExtend_eq_setWidth_of_msb_false hmsb]
  intro hgt
  have hnat : int64max.toNat < (gas.setWidth 256).toNat := hgt
  rw [BitVec.toNat_setWidth_of_le (by decide)] at hnat
  have hmax : int64max.toNat = 9223372036854775807 := by decide
  omega

theorem go_none {f : Frame} (hext : f.ext.isSome = true) (hgas : ¬ f.gas > int64max) (hlimit : ¬ c.gasLimit > int64max) :
    go c none f = .crashed := by
  unfold go
  obtain ⟨ext, hext⟩ := Option.isSome_iff_exists.mp hext
  rw [hext]
  dsimp only
  rw [if_neg (not_or.mpr ⟨hgas, hlimit⟩)]

theorem create_executes (ext : Ext) (m : CreateMessage) :
    ext.create c origin j m = runNested c generateCreateResult ext.sub
      (executeCreate c origin ext.myAddress m.endowment (m.gas.signExtend 256) m.init
        { journal := j, newAddress := m.address c ext.myAddress j.current }) := by
  unfold Ext.create CreateMessage.address create2Opcode createOpcode
  cases m.create2 <;> rfl

section
variable (hlimit : ¬ c.gasLimit > int64max)
include hlimit

/-- **A creation of the host's that fails leaves what was there**, but for the nonce. -/
theorem create_answers (j : Journal World) (ext : Ext) {m : CreateMessage} (hdeploy : c.mayDeploy origin = true) (hgas : ¬ m.gas.toInt < 0) :
    Answers j ext.sub (m.answer c origin ext.myAddress j.current) (ext.create c origin j m) := by
  rw [create_executes]
  unfold CreateMessage.answer
  dsimp only
  cases hcreate : j.current.create c origin ext.myAddress (m.address c ext.myAddress j.current) m.endowment with
  | refused e output =>
    have hnot := (executeCreate_refused (m.gas.signExtend 256) m.init hcreate).2.1
    rw [hdeploy] at hnot
    cases hnot
  | used w =>
    obtain ⟨rfl, heq⟩ := executeCreate_used _ m.init hcreate
    rw [heq]
    exact ⟨j.modify fun w => w.incNonce c ext.myAddress, (Journal.Extends.refl j).modify _, rfl, rfl⟩
  | unpaid =>
    obtain ⟨f, heq⟩ := executeCreate_unpaid _ m.init hcreate
    rw [heq]
    rfl
  | started w =>
    obtain ⟨k, hk, hext, heq⟩ := executeCreate_started _ m.init hcreate
    rw [heq]
    by_cases hinit : m.init ≠ []
    · dsimp only
      rw [if_pos hinit, if_pos hinit, if_pos hinit]
      unfold runNested
      dsimp only
      rw [go_none rfl (signExtend_le hgas) hlimit]
      rfl
    · dsimp only
      rw [if_neg hinit, if_neg hinit, if_neg hinit]
      exact ⟨k, ((Journal.Extends.refl j).modify _).trans hext, hk, rfl⟩

theorem call_answers (origin : Address) (j : Journal World) (ext : Ext) {m : CallMessage}
    (hvalue : c.version < RC2_VERSION → c.frozen m.destination = true → (m.parameters ext.myAddress).valueTransfer = 0)
    (hgas : ¬ m.gas.toInt < 0) :
    Answers j ext.sub (m.answer c origin ext.myAddress j.current) (ext.call c origin j m) := by
  unfold CallMessage.answer Ext.call call
  by_cases hversion : RC2_VERSION ≤ c.version
  · rw [if_pos hversion, if_pos hversion]
    exact ⟨j, .refl j, rfl, rfl⟩
  rw [if_neg hversion, if_neg hversion]
  dsimp only
  rw [if_neg Bool.false_ne_true]
  have hfollows := callTry_follows (c := c) (p := m.parameters ext.myAddress) origin j (hvalue (Nat.lt_of_not_le hversion))
  cases hcall : j.current.call c origin (m.parameters ext.myAddress) with
  | failed output =>
    rw [hcall] at hfollows
    obtain ⟨e, k, hstatus, hext, hk, heq⟩ := hfollows
    rw [heq]
    refine ⟨k, hext, hk, ?_⟩
    unfold runNested generateCallResult
    dsimp only
    rw [hstatus]
    rfl
  | done output w =>
    rw [hcall] at hfollows
    obtain ⟨k, hext, hk, heq⟩ := hfollows
    rw [heq]
    exact ⟨k, hext, hk, rfl⟩
  | run w =>
    rw [hcall] at hfollows
    obtain ⟨k, hext, hk, heq⟩ := hfollows
    rw [heq]
    unfold runNested
    dsimp only
    rw [go_none rfl (signExtend_le hgas) hlimit]
    rfl
  | unpaid =>
    rw [hcall] at hfollows
    obtain ⟨f, hsome, hf, heq⟩ := hfollows
    rw [heq]
    unfold runNested
    dsimp only
    have hle : ¬ f.gas > int64max := by
      rw [hf]
      exact signExtend_le hgas
    rw [go_none hsome hle hlimit]
    rfl

/-! ### A run of the machine -/

omit hlimit

def Means (j : Journal World) (me : Address) : Meant → Ran → Prop
  | .result r sub w, ran => ∃ k, j.Extends k ∧ k.current = w ∧ ran = .result r { myAddress := me, sub } k
  | .denied sub w, ran => ∃ k, j.Extends k ∧ k.current = w ∧ ran = .threw .PermissionDenied { myAddress := me, sub } k
  | .crashed, ran => ran = .crashed

theorem Means.before {k : Journal World} {me : Address} {m : Meant} {ran : Ran} (hext : j.Extends k)
    (h : Means k me m ran) : Means j me m ran := by
  cases m with
  | result r sub w =>
    obtain ⟨k', hext', hk, heq⟩ := h
    exact ⟨k', hext.trans hext', hk, heq⟩
  | denied sub w =>
    obtain ⟨k', hext', hk, heq⟩ := h
    exact ⟨k', hext.trans hext', hk, heq⟩
  | crashed => exact h

include hlimit

/-- **The journal of a run extends the one it began with and holds what is meant.** -/
theorem exec_meant (b : Behaviour) (me : Address) (sub : SubState) (j : Journal World)
    (h : b.Sound c origin me j.current) :
    Means j me (b.meant c origin me sub j.current) (b.exec c origin { myAddress := me, sub } j) := by
  induction b generalizing sub j with
  | finish status output gasLeft => exact ⟨j, .refl j, rfl, rfl⟩
  | read next ih => exact ih j.current sub j h
  | setStorage key value next ih =>
    unfold Behaviour.meant Behaviour.exec
    unfold Behaviour.Sound at h
    by_cases hwrite : c.writable me origin = true
    · rw [hwrite, Bool.not_true, if_neg Bool.false_ne_true, if_neg Bool.false_ne_true]
      have hnext := h hwrite
      dsimp only
      by_cases hsame : value = j.current.storage me key
      · rw [if_pos hsame] at hnext
        rw [if_pos hsame, if_pos hsame]
        exact ih _ _ j hnext
      · rw [if_neg hsame] at hnext
        rw [if_neg hsame, if_neg hsame]
        exact (ih _ _ (j.modify fun w => w.setStorage me key value) hnext).before ((Journal.Extends.refl j).modify _)
    · rw [Bool.not_eq_true] at hwrite
      rw [hwrite, Bool.not_false, if_pos rfl, if_pos rfl]
      exact ⟨j, .refl j, rfl, rfl⟩
  | log topics data next ih => exact ih _ j h
  | selfdestruct beneficiary next ih =>
    unfold Behaviour.meant Behaviour.exec
    unfold Behaviour.Sound at h
    have hsuicide : j.Extends (Ext.suicide c { myAddress := me, sub } j beneficiary) ∧
        (Ext.suicide c { myAddress := me, sub } j beneficiary).current = j.current.suicide c me beneficiary := by
      unfold Ext.suicide World.suicide
      split
      · exact ⟨.refl j, rfl⟩
      · exact ⟨((Journal.Extends.refl j).modify _).modify _, rfl⟩
    rw [← hsuicide.2] at h ⊢
    exact (ih _ _ h).before hsuicide.1
  | create m next ih =>
    unfold Behaviour.meant Behaviour.exec
    obtain ⟨hdeploy, hnext⟩ := h
    split
    · rfl
    · next hgas =>
      have hanswers := create_answers (c := c) hlimit j { myAddress := me, sub } hdeploy hgas
      dsimp only at hanswers
      cases hanswer : m.answer c origin me j.current with
      | returned r w =>
        rw [hanswer] at hanswers
        obtain ⟨k, hext, rfl, heq⟩ := hanswers
        rw [heq]
        exact (ih r sub k (hnext r _ hanswer)).before hext
      | crashed =>
        rw [hanswer] at hanswers
        rw [show Ext.create c origin { myAddress := me, sub } j m = .crashed from hanswers]
        rfl
  | call m next ih =>
    unfold Behaviour.meant Behaviour.exec
    obtain ⟨hvalue, hnext⟩ := h
    split
    · rfl
    · next hgas =>
      have hanswers := call_answers (c := c) hlimit origin j { myAddress := me, sub } hvalue hgas
      dsimp only at hanswers
      cases hanswer : m.answer c origin me j.current with
      | returned r w =>
        rw [hanswer] at hanswers
        obtain ⟨k, hext, rfl, heq⟩ := hanswers
        rw [heq]
        exact (ih r sub k (hnext r _ hanswer)).before hext
      | crashed =>
        rw [hanswer] at hanswers
        rw [show Ext.call c origin { myAddress := me, sub } j m = .crashed from hanswers]
        rfl

end

/-! ### The answer of the machine -/

/-- The executive has failed, and all it did since its savepoint is undone. -/
structure Undone (s : Journal World) (f : Frame) : Prop where
  excepted : f.excepted ≠ .None
  world : f.journal.current = s.current
  bare : ∀ ext, f.ext = some ext → ext.sub = {}

section
variable {s : Journal World} {f : Frame}

theorem revert_journal (hs : s.Extends f.journal) (hsave : f.savepoint = s.savepoint) : f.revert.journal = s := by
  unfold Frame.revert
  dsimp only
  rw [hsave]
  exact Journal.rollback_savepoint hs

theorem revert_bare (f : Frame) : ∀ ext, f.revert.ext = some ext → ext.sub = {} := by
  intro ext hext
  obtain ⟨ext', _, rfl⟩ := Option.map_eq_some_iff.mp hext
  rfl

theorem Undone.of_revert (hs : s.Extends f.journal) (hsave : f.savepoint = s.savepoint) {f' : Frame}
    (he : f'.excepted ≠ .None) (hjournal : f'.journal = f.revert.journal) (hext : f'.ext = f.revert.ext) : Undone s f' := by
  refine ⟨he, congrArg Journal.current (hjournal.trans (revert_journal hs hsave)), ?_⟩
  rw [hext]
  exact revert_bare f

theorem goCatch_undone (c : Config) (hs : s.Extends f.journal) (hsave : f.savepoint = s.savepoint) {e : Thrown}
    (he : e = .OutOfGas ∨ e = .GasOverflow ∨ e = .PermissionDenied) : ∃ f', goCatch c e f = .done f' ∧ Undone s f' := by
  rcases he with rfl | rfl | rfl
  · refine ⟨_, rfl, ?_⟩
    exact .of_revert hs hsave nofun rfl rfl
  · refine ⟨_, rfl, ?_⟩
    exact .of_revert hs hsave nofun rfl rfl
  · unfold goCatch
    dsimp only
    split
    · refine ⟨_, rfl, ?_⟩
      exact .of_revert hs hsave nofun rfl rfl
    · refine ⟨_, rfl, ?_⟩
      exact .of_revert hs hsave nofun rfl rfl

/-- **Every status that is not success is parsed with a revert**, but for the codes without a case
    of their own, which throw. -/
theorem parse_failed (hs : s.Extends f.journal) (hsave : f.savepoint = s.savepoint) {r : Result} (hr : r.status ≠ .SUCCESS)
    (hcode : ∀ value, r.status ≠ .code value) :
    ∃ f', parseEVMCResult r f = (f', none) ∧ f'.journal = s ∧ Undone s f' ∧ f'.savepoint = f.savepoint ∧
      f'.isCreation = f.isCreation ∧ f'.gas = r.gasAfter f.gas := by
  unfold parseEVMCResult Result.gasAfter
  cases hstatus : r.status with
  | SUCCESS => exact absurd hstatus hr
  | code value => exact absurd hstatus (hcode value)
  | REVERT | OUT_OF_GAS | FAILURE | INVALID_INSTRUCTION | UNDEFINED_INSTRUCTION | BAD_JUMP_DESTINATION | STACK_OVERFLOW
  | STACK_UNDERFLOW | INVALID_MEMORY_ACCESS | STATIC_MODE_VIOLATION =>
    refine ⟨_, rfl, revert_journal hs hsave, ?_, rfl, rfl, rfl⟩
    exact .of_revert hs hsave nofun rfl rfl

theorem parse_code {r : Result} {value : Int} (hr : r.status = .code value) :
    parseEVMCResult r f = (f, some (if value ≤ EVMC_INTERNAL_ERROR then .InternalVMError else .OutOfGas)) := by
  unfold parseEVMCResult
  rw [hr]

theorem goResult_code (hs : s.Extends f.journal) (hsave : f.savepoint = s.savepoint) {r : Result} {value : Int}
    (hr : r.status = .code value) (a : Address) :
    goResult c r a f = .exited ∧ r.internal ∨ ∃ f', goResult c r a f = .done f' ∧ Undone s f' := by
  unfold goResult
  rw [parse_code hr]
  dsimp only
  by_cases hinternal : value ≤ EVMC_INTERNAL_ERROR
  · rw [if_pos hinternal]
    exact .inl ⟨rfl, value, hr, hinternal⟩
  · rw [if_neg hinternal]
    exact .inr (goCatch_undone c hs hsave (.inl rfl))

theorem parse_success {r : Result} (hr : r.status = .SUCCESS) :
    parseEVMCResult r f = ({ f with gas := r.gasLeft, output := if f.isCreation then f.output else r.output }, none) := by
  unfold parseEVMCResult
  rw [hr]

/-- **What `go` makes of a creation's result.**  After a failed one it goes on to the code; only
    where that writes to the state of the savepoint does it matter. -/
theorem goResult_create (hs : s.Extends f.journal) (hsave : f.savepoint = s.savepoint) (hcreation : f.isCreation = true)
    {r : Result} {a : Address}
    (hbare : r.status ≠ .SUCCESS → c.fits r.output (r.gasAfter f.gas) = true → s.current.setCode a r.output = s.current) :
    goResult c r a f = .exited ∧ r.internal ∨
    (∃ f', goResult c r a f = .done f' ∧ Undone s f') ∨
    r.status = .SUCCESS ∧
      goResult c r a f = .done { f with gas := r.gasLeft, journal := f.journal.modify fun w => w.setCode a r.output } := by
  by_cases hsuccess : r.status = .SUCCESS
  · right
    unfold goResult
    rw [parse_success hsuccess]
    dsimp only
    rw [if_pos hcreation, if_pos hcreation]
    unfold deposit
    by_cases hfits : c.fits r.output r.gasLeft = true
    · rw [if_pos hfits]
      exact .inr ⟨hsuccess, rfl⟩
    · rw [if_neg hfits]
      left
      refine goCatch_undone c ?_ ?_ (.inl rfl)
      · exact hs
      · exact hsave
  by_cases hcode : ∃ value, r.status = .code value
  · obtain ⟨value, hr⟩ := hcode
    rcases goResult_code (c := c) hs hsave hr a with hexit | hundone
    · exact .inl hexit
    · exact .inr (.inl hundone)
  obtain ⟨f', hparse, hjournal, hundone, hsave', hcreation', hgas⟩ :=
    parse_failed hs hsave hsuccess fun value hr => hcode ⟨value, hr⟩
  right; left
  unfold goResult
  rw [hparse]
  dsimp only
  rw [if_pos (hcreation'.trans hcreation)]
  unfold deposit
  by_cases hfits : c.fits r.output f'.gas = true
  · rw [if_pos hfits]
    rw [hgas] at hfits
    refine ⟨_, rfl, hundone.excepted, ?_, hundone.bare⟩
    unfold Frame.modify Journal.modify Journal.write
    dsimp only
    rw [hjournal]
    exact hbare hsuccess hfits
  · rw [if_neg hfits]
    refine goCatch_undone c ?_ (hsave'.trans hsave) (.inl rfl)
    rw [hjournal]
    exact .refl s

theorem goResult_call (hs : s.Extends f.journal) (hsave : f.savepoint = s.savepoint) (hcreation : f.isCreation = false)
    (r : Result) (a : Address) :
    goResult c r a f = .exited ∧ r.internal ∨
    (∃ f', goResult c r a f = .done f' ∧ Undone s f') ∨
    r.status = .SUCCESS ∧ goResult c r a f = .done { f with gas := r.gasLeft, output := r.output } := by
  by_cases hsuccess : r.status = .SUCCESS
  · right; right
    refine ⟨hsuccess, ?_⟩
    unfold goResult
    rw [parse_success hsuccess]
    dsimp only
    rw [hcreation, if_neg Bool.false_ne_true, if_neg Bool.false_ne_true]
  by_cases hcode : ∃ value, r.status = .code value
  · obtain ⟨value, hr⟩ := hcode
    rcases goResult_code (c := c) hs hsave hr a with hexit | hundone
    · exact .inl hexit
    · exact .inr (.inl hundone)
  obtain ⟨f', hparse, hjournal, hundone, hsave', hcreation', hgas⟩ :=
    parse_failed hs hsave hsuccess fun value hr => hcode ⟨value, hr⟩
  right; left
  unfold goResult
  rw [hparse]
  dsimp only
  rw [hcreation', hcreation, if_neg Bool.false_ne_true]
  exact ⟨f', rfl, hundone⟩

end

/-! ### Running it -/

/-- **What `go` leaves of a run**: the process has ended, or the run is undone, or it has
    succeeded and is there as it is meant. -/
theorem go_run {s : Journal World} {f : Frame} {b : Behaviour} (me : Address) (hext : f.ext = some { myAddress := me })
    (hs : s.Extends f.journal) (hsave : f.savepoint = s.savepoint) (hsound : b.Sound c origin me f.journal.current)
    (hbare : f.isCreation = true → ∀ r sub last, b.meant c origin me {} f.journal.current = .result r sub last →
      r.status ≠ .SUCCESS → c.fits r.output (r.gasAfter f.gas) = true → s.current.setCode me r.output = s.current) :
    go c (some (b.exec c origin)) f = .exited ∧
      (∃ r sub last, b.meant c origin me {} f.journal.current = .result r sub last ∧ r.internal) ∨
    go c (some (b.exec c origin)) f = .crashed ∧ b.meant c origin me {} f.journal.current = .crashed ∨
    (∃ f', go c (some (b.exec c origin)) f = .done f' ∧ Undone s f') ∨
    ∃ r sub last f', go c (some (b.exec c origin)) f = .done f' ∧
      b.meant c origin me {} f.journal.current = .result r sub last ∧ r.status = .SUCCESS ∧
      f'.journal.current = (if f.isCreation then last.setCode me r.output else last) ∧
      f'.ext = some { myAddress := me, sub } ∧ f'.excepted = f.excepted ∧ f'.newAddress = f.newAddress := by
  unfold go
  rw [hext]
  dsimp only
  by_cases hoverflow : f.gas > int64max ∨ c.gasLimit > int64max
  · rw [if_pos hoverflow]
    exact .inr (.inr (.inl (goCatch_undone c hs hsave (.inr (.inl rfl)))))
  rw [if_neg hoverflow]
  have hmeant := exec_meant (fun hlimit => hoverflow (.inr hlimit)) b me {} f.journal hsound
  cases hb : b.meant c origin me {} f.journal.current with
  | crashed =>
    rw [hb] at hmeant
    rw [show b.exec c origin { myAddress := me } f.journal = .crashed from hmeant]
    exact .inr (.inl ⟨rfl, rfl⟩)
  | denied sub last =>
    rw [hb] at hmeant
    obtain ⟨k, hk, -, heq⟩ := hmeant
    rw [heq]
    right; right; left
    refine goCatch_undone c ?_ ?_ (.inr (.inr rfl))
    · exact hs.trans hk
    · exact hsave
  | result r sub last =>
    rw [hb] at hmeant
    obtain ⟨k, hk, rfl, heq⟩ := hmeant
    rw [heq]
    dsimp only
    obtain ⟨g, hg⟩ : ∃ g : Frame, g = { f with ext := some { myAddress := me, sub }, journal := k } := ⟨_, rfl⟩
    have hsg : s.Extends g.journal := by
      rw [hg]
      exact hs.trans hk
    have hsaveg : g.savepoint = s.savepoint := by
      rw [hg]
      exact hsave
    rw [← hg]
    cases hcreation : f.isCreation with
    | true =>
      have hcreationg : g.isCreation = true := by
        rw [hg]
        exact hcreation
      have hcases := goResult_create (c := c) (r := r) (a := me) hsg hsaveg hcreationg fun hr hfits => by
        rw [hg] at hfits
        exact hbare hcreation r sub k.current hb hr hfits
      rcases hcases with ⟨hexit, hinternal⟩ | hundone | ⟨hr, hdone⟩
      · exact .inl ⟨hexit, r, sub, k.current, rfl, hinternal⟩
      · exact .inr (.inr (.inl hundone))
      · refine .inr (.inr (.inr ⟨r, sub, k.current, _, hdone, rfl, hr, ?_, ?_, ?_, ?_⟩))
        · rw [hg]
          rfl
        · rw [hg]
        · rw [hg]
        · rw [hg]
    | false =>
      have hcreationg : g.isCreation = false := by
        rw [hg]
        exact hcreation
      rcases goResult_call (c := c) hsg hsaveg hcreationg r me with ⟨hexit, hinternal⟩ | hundone | ⟨hr, hdone⟩
      · exact .inl ⟨hexit, r, sub, k.current, rfl, hinternal⟩
      · exact .inr (.inr (.inl hundone))
      · refine .inr (.inr (.inr ⟨r, sub, k.current, _, hdone, rfl, hr, ?_, ?_, ?_, ?_⟩))
        · rw [hg]
          rfl
        · rw [hg]
        · rw [hg]
        · rw [hg]

/-! ### The receipt -/

section
variable {t : Transaction}

theorem foldl_kill (suicides : List Address) (f : Frame) :
    let f' := suicides.foldl (fun f a => f.modify fun w => w.kill c a) f
    f'.journal.current = f.journal.current.killAll c suicides ∧ f'.excepted = f.excepted ∧ f'.newAddress = f.newAddress := by
  induction suicides generalizing f with
  | nil => exact ⟨rfl, rfl, rfl⟩
  | cons a suicides ih => exact ih (f.modify fun w => w.kill c a)

theorem finish_none {f : Frame} (h : f.ext = none) : finish c t f = .returned (receipt c f []) f.journal := by
  unfold finish finalize
  rw [h]

theorem finish_some {f : Frame} {ext : Ext} (h : f.ext = some ext) :
    ∃ r k, finish c t f = .returned r k ∧ r.status = f.excepted ∧ r.logs = ext.sub.logs ∧
      r.contractAddress = f.newAddress ∧ k.current = f.journal.current.killAll c ext.sub.suicides := by
  unfold finish finalize
  rw [h]
  dsimp only
  refine ⟨_, _, rfl, ?_⟩
  obtain ⟨hworld, hexcepted, haddress⟩ :=
    foldl_kill (c := c) ext.sub.suicides { f with gas := f.gas + refunded t f ext.sub, ext := some ext }
  exact ⟨hexcepted, rfl, haddress, hworld⟩

theorem finish_undone {s : Journal World} {f : Frame} (h : Undone s f) :
    ∃ r k, finish c t f = .returned r k ∧ r.status ≠ .None ∧ r.logs = [] ∧ k.current = s.current := by
  cases hext : f.ext with
  | none => exact ⟨_, _, finish_none hext, h.excepted, rfl, h.world⟩
  | some ext =>
    obtain ⟨r, k, heq, hstatus, hlogs, -, hworld⟩ := finish_some (c := c) (t := t) hext
    rw [h.bare ext hext] at hlogs hworld
    refine ⟨r, k, heq, ?_, hlogs, hworld.trans h.world⟩
    rw [hstatus]
    exact h.excepted

/-! ### Transactions -/

variable {b : Behaviour}

theorem truthful_of_undone {s : Journal World} {f : Frame} {w : World} (h : Undone s f) (hkept : Kept c t w s.current) :
    Truthful c t b w (finish c t f) := by
  obtain ⟨r, k, heq, hstatus, hlogs, hworld⟩ := finish_undone (c := c) (t := t) h
  rw [heq]
  refine ⟨fun hnone => absurd hnone hstatus, fun _ => ⟨hlogs, ?_⟩⟩
  rw [hworld]
  exact hkept

theorem create_started_inv {origin sender a : Address} {endowment : U256} {w w' : World}
    (h : w.create c origin sender a endowment = .started w') :
    ∃ paid, (w.incNonce c sender).transferBalance c sender a endowment = some paid ∧ w' = paid.start c origin a sender ∧
      (w.incNonce c sender).addressHasCode a = false := by
  obtain ⟨hdeploy, hfrozen⟩ := mayDeploy_of_create c origin fun e output heq => nomatch h.symm.trans heq
  unfold World.create at h
  rw [if_neg hdeploy, if_neg hfrozen] at h
  split at h
  · cases h
  · next hused =>
    split at h
    · cases h
    · next paid hpaid =>
      cases h
      refine ⟨paid, hpaid, rfl, ?_⟩
      unfold World.used at hused
      rw [Bool.or_eq_true, not_or, Bool.not_eq_true] at hused
      exact hused.1

theorem begun_create {w w' : World} (hcreate : t.receiveAddress = none)
    (hc : w.create c t.sender t.sender (t.newAddress c w) t.value = .started w') :
    t.begun c w = if t.data ≠ [] then .run (t.newAddress c w) w' else .done w' := by
  unfold Transaction.begun
  rw [hcreate]
  dsimp only
  rw [hc]

theorem create_truthful (hcreate : t.receiveAddress = none) (hgas : ¬ t.lacksGas c) (h : t.SoundCreate c b j) :
    Truthful c t b j.current (executeTransaction c t (some (b.exec c t.sender)) j) := by
  have hexecute : execute c t { journal := j } = executeCreate c t.sender t.sender t.value c.givenGas t.data
      { journal := j, newAddress := t.newAddress c j.current } := by
    unfold execute
    rw [if_neg (show ¬ (if RC3_VERSION < c.version then c.txGasLimit else t.gas) < baseGasRequired from hgas), hcreate]
    rfl
  unfold executeTransaction
  rw [hexecute]
  unfold Transaction.SoundCreate at h
  cases hc : j.current.create c t.sender t.sender (t.newAddress c j.current) t.value with
  | refused e output =>
    rw [hc] at h
    obtain ⟨heq, -, he, -⟩ := executeCreate_refused c.givenGas t.data hc
    rw [heq]
    refine truthful_of_undone (s := j) ⟨he, ?_, nofun⟩ (.inl rfl)
    exact congrArg Journal.current (Journal.rollback_zero h)
  | used w =>
    obtain ⟨-, heq⟩ := executeCreate_used c.givenGas t.data hc
    rw [heq]
    exact truthful_of_undone (s := j.modify fun w => w.incNonce c t.sender) ⟨nofun, rfl, nofun⟩ (.inr rfl)
  | unpaid =>
    rw [hc] at h
    exact h.elim
  | started w =>
    rw [hc] at h
    obtain ⟨paid, hpaid, rfl, hcode⟩ := create_started_inv hc
    obtain ⟨k, hk, hext, heq⟩ := executeCreate_started c.givenGas t.data hc
    have hbegun := begun_create hcreate hc
    rw [heq]
    by_cases hdata : t.data ≠ []
    · rw [if_pos hdata] at hbegun ⊢
      rw [if_pos hdata]
      obtain ⟨hsound, hbare⟩ := h hdata
      rw [← hk] at hsound hbare hbegun
      have hrun := go_run (c := c) (b := b) (s := j.modify fun w => w.incNonce c t.sender) (t.newAddress c j.current)
        (f := { journal := k, newAddress := t.newAddress c j.current, isCreation := true, gas := c.givenGas,
                savepoint := (j.modify fun w => w.incNonce c t.sender).savepoint,
                ext := some { myAddress := t.newAddress c j.current } })
        rfl hext rfl hsound fun _ r sub last hb hr hfits => by
          rcases hbare r sub last hb hr hfits with hempty | hnone
          · rw [hempty]
            exact setCode_nil _ hcode
          · exact setCode_of_none _ _ hnone
      dsimp only at hrun ⊢
      rcases hrun with ⟨hgo, r, sub, last, hb, hinternal⟩ | ⟨hgo, hb⟩ | ⟨f', hgo, hundone⟩ |
        ⟨r, sub, last, f', hgo, hb, hr, hworld, hext', hexcepted, haddress⟩
      · rw [hgo]
        exact ⟨_, _, r, sub, last, hbegun, hb, hinternal⟩
      · rw [hgo]
        exact ⟨_, _, hbegun, hb⟩
      · rw [hgo]
        exact truthful_of_undone hundone (.inr rfl)
      · rw [hgo]
        dsimp only
        obtain ⟨receipt, k', hfinish, hstatus, hlogs, hcontract, hkilled⟩ := finish_some (c := c) (t := t) hext'
        rw [hfinish]
        rw [hexcepted] at hstatus
        refine ⟨fun _ => ?_, fun hfail => absurd hstatus hfail⟩
        rw [if_pos rfl] at hworld
        rw [hworld] at hkilled
        refine ⟨?_, fun _ => ⟨hcontract.trans haddress, ⟨paid, hpaid, hc⟩, ?_⟩⟩
        · rw [hbegun]
          refine ⟨r, sub, last, hb, hr, hlogs, ?_⟩
          rw [if_pos hcreate]
          exact hkilled
        · intro start r' sub' last' hbegun' hb' hsuicide
          rw [hbegun] at hbegun'
          cases hbegun'
          rw [hb] at hb'
          cases hb'
          rw [hkilled, killAll_of_not_mem _ hsuicide]
          apply setCode_code
          apply stays_meant b _ _ _ hb
          rw [hk]
          exact start_isSome ..
    · rw [if_neg hdata] at hbegun ⊢
      rw [if_neg hdata]
      dsimp only
      rw [finish_none rfl]
      refine ⟨fun _ => ⟨?_, fun _ => ⟨rfl, ⟨paid, hpaid, hc⟩, ?_⟩⟩, fun hfail => absurd rfl hfail⟩
      · rw [hbegun]
        exact ⟨hk, rfl⟩
      · intro start r sub last hbegun' _ _
        rw [hbegun] at hbegun'
        cases hbegun'

theorem call_truthful_new {receiver : Address} (hcall : t.receiveAddress = some receiver) (hgas : ¬ t.lacksGas c)
    (hversion : RC2_VERSION ≤ c.version) : Truthful c t b j.current (executeTransaction c t (some (b.exec c t.sender)) j) := by
  have hexecute : execute c t { journal := j } =
      ({ journal := j, savepoint := j.savepoint, gas := c.givenGas, excepted := .CallAddressError }, .finished) := by
    unfold execute
    rw [if_neg (show ¬ (if RC3_VERSION < c.version then c.txGasLimit else t.gas) < baseGasRequired from hgas), hcall]
    dsimp only
    unfold call
    rw [if_pos hversion]
    rfl
  unfold executeTransaction
  rw [hexecute]
  exact truthful_of_undone (s := j) ⟨nofun, rfl, nofun⟩ (.inl rfl)

theorem begun_call {w : World} {receiver : Address} (hcall : t.receiveAddress = some receiver)
    (hversion : ¬ RC2_VERSION ≤ c.version) :
    t.begun c w =
      match (w.incNonce c t.sender).call c t.sender (t.parameters c receiver) with
      | .done _ w' => .done w'
      | .run w' => .run receiver w'
      | _ => .failed := by
  unfold Transaction.begun
  rw [hcall]
  dsimp only
  rewrite [if_neg hversion]
  rfl

theorem present_of_call {receiver : Address} (hcall : t.receiveAddress = some receiver) {w w' : World} {r : Receipt}
    (h : match t.begun c w with
      | .failed => False
      | .done start => w' = start ∧ r.logs = []
      | .run me start => ∃ result sub last, b.meant c t.sender me {} start = .result result sub last ∧
        result.status = .SUCCESS ∧ r.logs = sub.logs ∧
        w' = (if t.receiveAddress = none then last.setCode me result.output else last).killAll c sub.suicides) :
    Present c t b w r w' :=
  ⟨h, fun hcreate => nomatch hcreate.symm.trans hcall⟩

theorem call_truthful_old {receiver : Address} (hcall : t.receiveAddress = some receiver) (hgas : ¬ t.lacksGas c)
    (hversion : ¬ RC2_VERSION ≤ c.version) (h : t.SoundCall c b receiver j) :
    Truthful c t b j.current (executeTransaction c t (some (b.exec c t.sender)) j) := by
  obtain ⟨hvalue, hsound⟩ := h
  obtain ⟨s, hs⟩ : ∃ s : Journal World, s = j.modify fun w => w.incNonce c t.sender := ⟨_, rfl⟩
  have hexecute : execute c t { journal := j } =
      callTry c t.sender (t.parameters c receiver) { journal := s, savepoint := s.savepoint } := by
    unfold execute
    rw [if_neg (show ¬ (if RC3_VERSION < c.version then c.txGasLimit else t.gas) < baseGasRequired from hgas), hcall]
    dsimp only
    unfold call
    rw [if_neg hversion, if_pos rfl, hs]
    rfl
  have hbegun := begun_call (w := j.current) hcall hversion
  have hworld : s.current = j.current.incNonce c t.sender := by
    rw [hs]
    rfl
  have hkept : Kept c t j.current s.current := .inr hworld
  rw [← hworld] at hbegun hsound
  have hfollows := callTry_follows (c := c) (p := t.parameters c receiver) t.sender s hvalue
  unfold executeTransaction
  rw [hexecute]
  cases hc : s.current.call c t.sender (t.parameters c receiver) with
  | failed output =>
    rw [hc] at hfollows
    obtain ⟨e, k, hstatus, -, hk, heq⟩ := hfollows
    rw [heq]
    refine truthful_of_undone (s := s) ⟨?_, hk, nofun⟩ hkept
    rintro rfl
    cases hstatus
  | done output w =>
    rw [hc] at hfollows hbegun
    obtain ⟨k, -, hk, heq⟩ := hfollows
    rw [heq]
    dsimp only
    rw [finish_none rfl]
    refine ⟨fun _ => present_of_call hcall ?_, fun hfail => absurd rfl hfail⟩
    rw [hbegun]
    exact ⟨hk, rfl⟩
  | unpaid =>
    rw [hc] at hsound
    exact hsound.elim
  | run w =>
    rw [hc] at hfollows hbegun hsound
    obtain ⟨k, hext, hk, heq⟩ := hfollows
    rw [show (t.parameters c receiver).receiveAddress = receiver from rfl] at heq
    rw [heq]
    dsimp only at hbegun hsound
    rw [← hk] at hbegun hsound
    have hrun := go_run (c := c) (b := b) (s := s) receiver
      (f := { journal := k, gas := (t.parameters c receiver).gas, savepoint := s.savepoint,
              ext := some { myAddress := receiver } })
      rfl hext rfl hsound nofun
    dsimp only at hrun ⊢
    rcases hrun with ⟨hgo, r, sub, last, hb, hinternal⟩ | ⟨hgo, hb⟩ | ⟨f', hgo, hundone⟩ |
      ⟨r, sub, last, f', hgo, hb, hr, hlast, hext', hexcepted, -⟩
    · rw [show go c (some (b.exec c t.sender)) _ = .exited from hgo]
      exact ⟨_, _, r, sub, last, hbegun, hb, hinternal⟩
    · rw [show go c (some (b.exec c t.sender)) _ = .crashed from hgo]
      exact ⟨_, _, hbegun, hb⟩
    · rw [show go c (some (b.exec c t.sender)) _ = .done f' from hgo]
      exact truthful_of_undone hundone hkept
    · rw [show go c (some (b.exec c t.sender)) _ = .done f' from hgo]
      dsimp only
      obtain ⟨receipt, k', hfinish, hstatus, hlogs, -, hkilled⟩ := finish_some (c := c) (t := t) hext'
      rw [hfinish]
      rw [hexcepted] at hstatus
      refine ⟨fun _ => present_of_call hcall ?_, fun hfail => absurd hstatus hfail⟩
      rw [hbegun]
      refine ⟨r, sub, last, hb, hr, hlogs, ?_⟩
      rw [if_neg Bool.false_ne_true] at hlast
      have hnot : ¬ t.receiveAddress = none := by
        rw [hcall]
        exact nofun
      rw [if_neg hnot, hkilled, hlast]

theorem truthful (h : t.Sound c b j) : Truthful c t b j.current (executeTransaction c t (some (b.exec c t.sender)) j) := by
  by_cases hgas : t.lacksGas c
  · have hexecute : execute c t { journal := j } = ({ journal := j, excepted := .OutOfGasBase }, .throws .OutOfGasBase) := by
      unfold execute
      rw [if_pos (show (if RC3_VERSION < c.version then c.txGasLimit else t.gas) < baseGasRequired from hgas)]
    unfold executeTransaction
    rw [hexecute]
    exact ⟨nofun, fun _ => ⟨rfl, .inl rfl⟩⟩
  have hsound := h hgas
  cases hreceive : t.receiveAddress with
  | none =>
    rw [hreceive] at hsound
    exact create_truthful hreceive hgas hsound
  | some receiver =>
    rw [hreceive] at hsound
    by_cases hversion : RC2_VERSION ≤ c.version
    · exact call_truthful_new hreceive hgas hversion
    · exact call_truthful_old hreceive hgas hversion (hsound (Nat.lt_of_not_le hversion))

end

theorem create_failed (hlimit : ¬ c.gasLimit > int64max) {me : Address} {sub sub' : SubState} {k : Journal World}
    {m : CreateMessage} {r : Result} (hdeploy : c.mayDeploy origin = true) (hgas : ¬ m.gas.toInt < 0)
    (h : Ext.create c origin { myAddress := me, sub } j m = .returned r sub' k) :
    j.Extends k ∧ sub' = sub ∧
      (r.status ≠ .SUCCESS → k.current = j.current ∨ k.current = j.current.incNonce c me) := by
  have hanswers := create_answers (c := c) hlimit j { myAddress := me, sub } hdeploy hgas
  rw [h] at hanswers
  dsimp only at hanswers
  cases hanswer : m.answer c origin me j.current with
  | crashed =>
    rw [hanswer] at hanswers
    cases hanswers
  | returned r' w =>
    rw [hanswer] at hanswers
    obtain ⟨k', hext, hk, heq⟩ := hanswers
    cases heq
    refine ⟨hext, rfl, fun hfail => ?_⟩
    unfold CreateMessage.answer at hanswer
    dsimp only at hanswer
    split at hanswer
    · cases hanswer
      exact .inl hk
    · next hused =>
      cases hanswer
      rw [hk]
      exact .inr (executeCreate_used 0 [] hused).1
    · cases hanswer
    · split at hanswer
      · cases hanswer
      · cases hanswer
        exact absurd rfl hfail

theorem call_failed (hlimit : ¬ c.gasLimit > int64max) {me : Address} {sub sub' : SubState} {k : Journal World}
    {m : CallMessage} {r : Result}
    (hvalue : c.version < RC2_VERSION → c.frozen m.destination = true → (m.parameters me).valueTransfer = 0)
    (hgas : ¬ m.gas.toInt < 0) (h : Ext.call c origin { myAddress := me, sub } j m = .returned r sub' k) :
    j.Extends k ∧ sub' = sub ∧ (r.status ≠ .SUCCESS → k.current = j.current) := by
  have hanswers := call_answers (c := c) hlimit origin j { myAddress := me, sub } hvalue hgas
  rw [h] at hanswers
  dsimp only at hanswers
  cases hanswer : m.answer c origin me j.current with
  | crashed =>
    rw [hanswer] at hanswers
    cases hanswers
  | returned r' w =>
    rw [hanswer] at hanswers
    obtain ⟨k', hext, hk, heq⟩ := hanswers
    cases heq
    refine ⟨hext, rfl, fun hfail => ?_⟩
    unfold CallMessage.answer at hanswer
    split at hanswer
    · cases hanswer
      exact hk
    · split at hanswer
      · cases hanswer
        exact hk
      · cases hanswer
        exact absurd rfl hfail
      · cases hanswer
      · cases hanswer

/-- **Atomic and truthful execution.**  Where the code does not slip, a receipt without an
    exception stands for all effects of the run, and one with an exception for none but the
    nonce of the sender, without logs; and an execution of the host's that fails takes its own
    effects back from the journal and leaves what was there. -/
theorem execute_atomic (c : Config) (t : Transaction) (b : Behaviour) (j : Journal World) (h : t.Sound c b j) :
    Truthful c t b j.current (executeTransaction c t (some (b.exec c t.sender)) j) ∧
    (¬ c.gasLimit > int64max → ∀ (me : Address) (sub sub' : SubState) (k k' : Journal World) (r : Result),
      (∀ m : CreateMessage, c.mayDeploy t.sender = true → ¬ m.gas.toInt < 0 →
        Ext.create c t.sender { myAddress := me, sub } k m = .returned r sub' k' →
        k.Extends k' ∧ sub' = sub ∧
          (r.status ≠ .SUCCESS → k'.current = k.current ∨ k'.current = k.current.incNonce c me)) ∧
      (∀ m : CallMessage,
        (c.version < RC2_VERSION → c.frozen m.destination = true → (m.parameters me).valueTransfer = 0) →
        ¬ m.gas.toInt < 0 → Ext.call c t.sender { myAddress := me, sub } k m = .returned r sub' k' →
        k.Extends k' ∧ sub' = sub ∧ (r.status ≠ .SUCCESS → k'.current = k.current))) :=
  ⟨truthful h, fun hlimit _ _ _ _ _ _ =>
    ⟨fun _ hdeploy hgas hreturned => create_failed hlimit hdeploy hgas hreturned,
     fun _ hvalue hgas hreturned => call_failed hlimit hvalue hgas hreturned⟩⟩

/-! ### Runs -/

def Config.sample : Config where
  state := .twoHashes V2_8_0
  txGasLimit := 300000000
  gasLimit := 300000000
  deployers := fun _ => true
  writable := fun _ _ => true
  frozen := fun _ => false
  createAddress := fun _ _ => ⟨List.replicate 20 1, rfl⟩
  create2Address := fun _ _ _ => ⟨List.replicate 20 2, rfl⟩
  frozenOutput := fun _ => []
  executeOriginPrecompiled := fun _ => none
  precompiled := fun _ => none
  precompiled_keeps := fun _ _ h => nomatch h

def Transaction.sample (value : U256) : Transaction where
  sender := ⟨List.replicate 20 9, rfl⟩
  receiveAddress := none
  value := value
  gas := 0
  data := [96]

def emptyWorld : Journal World := { current := { accounts := fun _ => none } }

theorem execute_atomic_deployed :
    Truthful .sample (.sample 0) (.finish .SUCCESS [7] 100000) emptyWorld.current
      (executeTransaction .sample (.sample 0)
        (some (Behaviour.exec .sample (Transaction.sample 0).sender (.finish .SUCCESS [7] 100000))) emptyWorld) :=
  (execute_atomic .sample (.sample 0) (.finish .SUCCESS [7] 100000) emptyWorld
    fun _ _ => ⟨trivial, fun _ _ _ hrun hfail => by cases hrun; exact absurd rfl hfail⟩).1

/-- The process ends on an error of the machine's; a contract that destroys itself while it is
    created has no code; and an unpaid creation is reported without an exception. -/
theorem not_execute_atomic :
    executeTransaction .sample (.sample 0)
      (some (Behaviour.exec .sample (Transaction.sample 0).sender (.finish (.code (-1)) [] 0))) emptyWorld = .exited ∧
    (∃ receipt k, executeTransaction .sample (.sample 0)
        (some (Behaviour.exec .sample (Transaction.sample 0).sender
          (.selfdestruct zeroAddress (.finish .SUCCESS [7] 100000)))) emptyWorld = .returned receipt k ∧
      receipt.status = .None ∧ (k.current.accounts receipt.contractAddress).map Data.code = some []) ∧
    ∃ receipt k, executeTransaction .sample (.sample 1)
        (some (Behaviour.exec .sample (Transaction.sample 1).sender (.finish .SUCCESS [7] 100000))) emptyWorld =
        .returned receipt k ∧
      receipt.status = .None ∧ (k.current.accounts receipt.contractAddress).isNone :=
  ⟨rfl, ⟨_, _, rfl, rfl, rfl⟩, ⟨_, _, rfl, rfl, rfl⟩⟩

end HieraChain.Executive
