/-
  HieraChain/ExecutiveEffects.lean
  ================================
  **What a transaction is meant to do.**

  The effects of a creation, of a call and of a run of the machine, on the plain
  state: with no journal, where what fails has no effect but the nonce of the
  creating sender.  A run of the executive has these effects as long as it does
  not come where the code slips (`Behaviour.Sound`, `Sound`).
-/
import HieraChain.AccountSetters
import HieraChain.Executive

namespace HieraChain.Executive

open HieraChain.BigEndian HieraChain.Storage HieraChain.StorageState

/-! ### Creations and calls -/

inductive Creation
  | refused (e : TransactionException) (output : Bytes)
  | used (w : World)
  | unpaid
  | started (w : World)

/-- What becomes of a call before any code runs: it fails, it is done, the code is
    to run, or the code would run unpaid. -/
inductive Calling
  | failed (output : Bytes)
  | done (output : Bytes) (w : World)
  | run (w : World)
  | unpaid

section
variable (c : Config) (origin : Address)

def Config.mayDeploy (c : Config) (origin : Address) : Bool :=
  c.deployers origin && !(decide (V2_5_0 ≤ c.version) && c.frozen origin)

namespace World

variable (w : World)

def used (a : Address) : Bool := w.addressHasCode a || decide (w.getNonce c a > 0)

def start (a sender : Address) : World :=
  let w := w.setNonce a c.state.accountStartNonce
  if V2_3_0 ≤ c.version then w.grantContractStatusManager c a sender origin else w

def create (sender a : Address) (endowment : U256) : Creation :=
  if !c.deployers origin then .refused .PermissionDenied []
  else if V2_5_0 ≤ c.version ∧ c.frozen origin then .refused .AccountFrozen (c.frozenOutput origin)
  else if (w.incNonce c sender).used c a then .used (w.incNonce c sender)
  else
    match (w.incNonce c sender).transferBalance c sender a endowment with
    | none => .unpaid
    | some w => .started (w.start c origin a sender)

def paid (p : CallParameters) (output : Bytes) : Calling :=
  match w.transferBalance c p.senderAddress p.receiveAddress p.valueTransfer with
  | none => .failed output
  | some w => .done output w

def call (p : CallParameters) : Calling :=
  match c.executeOriginPrecompiled p.codeAddress with
  | some execute => w.paid c p (execute p.data)
  | none =>
    match c.precompiled p.codeAddress with
    | some execute =>
      match execute p.data origin p.senderAddress w with
      | .ok (output, w) => w.paid c p output
      | .error _ => .failed []
    | none =>
      if c.frozen p.codeAddress then .failed []
      else if w.addressHasCode p.codeAddress then
        match w.transferBalance c p.senderAddress p.receiveAddress p.valueTransfer with
        | none => .unpaid
        | some w => .run w
      else w.paid c p []

def killAll (suicides : List Address) : World := suicides.foldl (fun w a => w.kill c a) w

end World

/-! ### Runs of the machine -/

inductive Answer
  | returned (r : Result) (w : World)
  | crashed

def CreateMessage.address (m : CreateMessage) (me : Address) (w : World) : Address :=
  if m.create2 then c.create2Address me m.salt m.init else c.createAddress me (w.getNonce c me)

def CreateMessage.answer (m : CreateMessage) (me : Address) (w : World) : Answer :=
  let a := m.address c me w
  match w.create c origin me a m.endowment with
  | .refused _ output => .returned { status := .FAILURE, output } w
  | .used w => .returned { status := .FAILURE } w
  | .unpaid => .crashed
  | .started w =>
    if m.init ≠ [] then .crashed
    else .returned { status := .SUCCESS, gasLeft := m.gas.signExtend 256, createAddress := a } w

def CallMessage.answer (m : CallMessage) (me : Address) (w : World) : Answer :=
  if RC2_VERSION ≤ c.version then .returned { status := .FAILURE, gasLeft := m.gas.signExtend 256 } w
  else
    match w.call c origin (m.parameters me) with
    | .failed output => .returned { status := .FAILURE, output, gasLeft := m.gas.signExtend 256 } w
    | .done output w => .returned { status := .SUCCESS, output, gasLeft := m.gas.signExtend 256 } w
    | .run _ | .unpaid => .crashed

/-- The result of a run, what it added to the context, and the state after it; or it
    wrote where it is not permitted to. -/
inductive Meant
  | result (r : Result) (sub : SubState) (w : World)
  | denied (sub : SubState) (w : World)
  | crashed

def World.suicide (w : World) (me beneficiary : Address) : World :=
  if RC2_VERSION ≤ c.version then w else (w.addBalance c beneficiary (w.balance me)).setBalance c me 0

def Behaviour.meant (me : Address) : Behaviour → SubState → World → Meant
  | .finish status output gasLeft, sub, w => .result { status, output, gasLeft } sub w
  | .read next, sub, w => (next w).meant me sub w
  | .setStorage key value next, sub, w =>
    if !c.writable me origin then .denied sub w
    else
      let answer := Ext.storageStatus (w.storage me key) value
      (next answer.1).meant me { sub with refunds := sub.refunds + answer.2 }
        (if value = w.storage me key then w else w.setStorage me key value)
  | .log topics data next, sub, w => next.meant me { sub with logs := sub.logs ++ [⟨me, topics, data⟩] } w
  | .selfdestruct beneficiary next, sub, w =>
    next.meant me (sub.add { suicides := [me] }) (w.suicide c me beneficiary)
  | .create m next, sub, w =>
    if m.gas.toInt < 0 then .crashed
    else
      match m.answer c origin me w with
      | .returned r w => (next r).meant me sub w
      | .crashed => .crashed
  | .call m next, sub, w =>
    if m.gas.toInt < 0 then .crashed
    else
      match m.answer c origin me w with
      | .returned r w => (next r).meant me sub w
      | .crashed => .crashed

/-- No creation by an origin that may not deploy: it would roll the whole log back.
    And no value to a frozen contract, before RC2: it would move. -/
def Behaviour.Sound (me : Address) : Behaviour → World → Prop
  | .finish .., _ => True
  | .read next, w => (next w).Sound me w
  | .setStorage key value next, w =>
    c.writable me origin = true →
      (next (Ext.storageStatus (w.storage me key) value).1).Sound me
        (if value = w.storage me key then w else w.setStorage me key value)
  | .log _ _ next, w => next.Sound me w
  | .selfdestruct beneficiary next, w => next.Sound me (w.suicide c me beneficiary)
  | .create m next, w =>
    c.mayDeploy origin = true ∧ ∀ r w', m.answer c origin me w = .returned r w' → (next r).Sound me w'
  | .call m next, w =>
    (c.version < RC2_VERSION → c.frozen m.destination = true → (m.parameters me).valueTransfer = 0) ∧
      ∀ r w', m.answer c origin me w = .returned r w' → (next r).Sound me w'

end

/-! ### Transactions -/

/-- The gas when `deposit` looks at it. -/
def Result.gasAfter (r : Result) (given : U256) : U256 :=
  match r.status with
  | .SUCCESS | .REVERT => r.gasLeft
  | .OUT_OF_GAS | .FAILURE => given
  | _ => 0

def Result.internal (r : Result) : Prop := ∃ value, r.status = .code value ∧ value ≤ EVMC_INTERNAL_ERROR

inductive Begun
  | failed
  | done (w : World)
  | run (me : Address) (w : World)

section
variable (c : Config) (t : Transaction) (b : Behaviour)

def Transaction.newAddress (w : World) : Address := c.createAddress t.sender (w.getNonce c t.sender)

def Config.givenGas : U256 := c.txGasLimit - baseGasRequired

def Transaction.parameters (receiver : Address) : CallParameters where
  senderAddress := t.sender
  codeAddress := receiver
  receiveAddress := receiver
  valueTransfer := t.value
  apparentValue := t.value
  gas := c.givenGas
  data := t.data

def Transaction.lacksGas : Prop := (if RC3_VERSION < c.version then c.txGasLimit else t.gas) < baseGasRequired

def Transaction.begun (w : World) : Begun :=
  match t.receiveAddress with
  | none =>
    match w.create c t.sender t.sender (t.newAddress c w) t.value with
    | .started w' => if t.data ≠ [] then .run (t.newAddress c w) w' else .done w'
    | _ => .failed
  | some receiver =>
    if RC2_VERSION ≤ c.version then .failed
    else
      match (w.incNonce c t.sender).call c t.sender (t.parameters c receiver) with
      | .done _ w' => .done w'
      | .run w' => .run receiver w'
      | _ => .failed

structure Present (w : World) (receipt : Receipt) (w' : World) : Prop where
  effects :
    match t.begun c w with
    | .failed => False
    | .done start => w' = start ∧ receipt.logs = []
    | .run me start => ∃ r sub last, b.meant c t.sender me {} start = .result r sub last ∧ r.status = .SUCCESS ∧
      receipt.logs = sub.logs ∧
      w' = (if t.receiveAddress = none then last.setCode me r.output else last).killAll c sub.suicides
  /-- A contract is at the address of the receipt; it has been paid, and unless it destroyed
      itself it has the output as its code. -/
  created : t.receiveAddress = none → receipt.contractAddress = t.newAddress c w ∧
    (∃ paid, (w.incNonce c t.sender).transferBalance c t.sender (t.newAddress c w) t.value = some paid ∧
      w.create c t.sender t.sender (t.newAddress c w) t.value = .started (paid.start c t.sender (t.newAddress c w) t.sender)) ∧
    ∀ start r sub last, t.begun c w = .run (t.newAddress c w) start →
      b.meant c t.sender (t.newAddress c w) {} start = .result r sub last → t.newAddress c w ∉ sub.suicides →
      (w'.accounts (t.newAddress c w)).map Data.code = some r.output

def Kept (w w' : World) : Prop := w' = w ∨ w' = w.incNonce c t.sender

/-- What is promised of the execution.  The process ends by design when the machine reports
    an error of its own; it also ends where a run of the host's cannot go on. -/
def Truthful (w : World) : Outcome → Prop
  | .returned receipt j =>
    (receipt.status = .None → Present c t b w receipt j.current) ∧
    (receipt.status ≠ .None → receipt.logs = [] ∧ Kept c t w j.current)
  | .exited => ∃ me start r sub last,
    t.begun c w = .run me start ∧ b.meant c t.sender me {} start = .result r sub last ∧ r.internal
  | .crashed => ∃ me start, t.begun c w = .run me start ∧ b.meant c t.sender me {} start = .crashed

/-! ### Where the code slips -/

/-- The creation is not unpaid: it would be reported without an exception.  A refused one
    comes first in its log: all of the log is rolled back.  And a failed run has no output that
    would be stored as the code of an account that was there before. -/
def Transaction.SoundCreate (j : Journal World) : Prop :=
  match j.current.create c t.sender t.sender (t.newAddress c j.current) t.value with
  | .refused _ _ => j.past = []
  | .used _ => True
  | .unpaid => False
  | .started w => t.data ≠ [] → b.Sound c t.sender (t.newAddress c j.current) w ∧
    ∀ r sub last, b.meant c t.sender (t.newAddress c j.current) {} w = .result r sub last → r.status ≠ .SUCCESS →
      c.fits r.output (r.gasAfter (c.givenGas)) = true →
      r.output = [] ∨ (j.current.incNonce c t.sender).accounts (t.newAddress c j.current) = none

/-- Before RC2: nothing is paid to a frozen contract, as it would be although the call fails,
    and code that runs is paid for. -/
def Transaction.SoundCall (receiver : Address) (j : Journal World) : Prop :=
  (c.frozen receiver = true → t.value = 0) ∧
    match (j.current.incNonce c t.sender).call c t.sender (t.parameters c receiver) with
    | .unpaid => False
    | .run w => b.Sound c t.sender receiver w
    | _ => True

def Transaction.Sound (j : Journal World) : Prop :=
  ¬ t.lacksGas c →
    match t.receiveAddress with
    | none => t.SoundCreate c b j
    | some receiver => c.version < RC2_VERSION → t.SoundCall c b receiver j

end

variable {c : Config} {origin : Address}

/-! ### Accounts stay -/

def Stays (w w' : World) : Prop := ∀ a, (w.accounts a).isSome → (w'.accounts a).isSome

theorem Stays.refl (w : World) : Stays w w := fun _ h => h

theorem Stays.trans {w w' w'' : World} (h : Stays w w') (h' : Stays w' w'') : Stays w w'' := fun a ha => h' a (h a ha)

theorem change_isSome {m : AccountMap} {x : Address} {g : Data → Data} {missing : Option Data} (a : Address)
    (h : (m a).isSome) : ((m.change x g missing) a).isSome := by
  unfold AccountMap.change
  by_cases ha : a = x
  · subst ha
    rw [Function.update_self]
    obtain ⟨data, hdata⟩ := Option.isSome_iff_exists.mp h
    rw [hdata]
    rfl
  · rw [Function.update_of_ne ha]
    exact h

theorem change_self_isSome {m : AccountMap} {x : Address} {g : Data → Data} {data : Data} :
    ((m.change x g (some data)) x).isSome := by
  unfold AccountMap.change
  rw [Function.update_self]
  cases m x <;> rfl

section
variable (c : Config) (w : World)

theorem stays_setStorage (a : Address) (key value : U256) : Stays w (w.setStorage a key value) :=
  fun x h => change_isSome x h

theorem stays_addBalance (a : Address) (amount : U256) : Stays w (w.addBalance c a amount) := by
  intro x h
  unfold World.addBalance AccountMap.addBalance
  dsimp only
  split
  · exact h
  · exact change_isSome x h

theorem stays_suicide (me beneficiary : Address) : Stays w (w.suicide c me beneficiary) := by
  unfold World.suicide
  split
  · exact .refl w
  · exact (stays_addBalance c w _ _).trans fun x h => change_isSome x h

theorem stays_transferBalance {w' : World} {source target : Address} {value : U256}
    (h : w.transferBalance c source target value = some w') : Stays w w' := by
  unfold World.transferBalance AccountMap.transferBalance AccountMap.subBalance at h
  intro x hx
  cases hdata : w.accounts source with
  | none =>
    rw [hdata] at h
    cases h
  | some data =>
    rw [hdata] at h
    dsimp only at h
    split at h
    · cases h
    · cases h
      exact stays_addBalance c ⟨_, w.authority⟩ target value x (change_isSome x hx)

theorem stays_start (origin a sender : Address) : Stays w (w.start c origin a sender) := by
  intro x h
  unfold World.start
  dsimp only
  have hnonce : ((w.setNonce a c.state.accountStartNonce).accounts x).isSome := change_isSome x h
  split
  · unfold World.grantContractStatusManager
    split
    · exact hnonce
    · exact hnonce
  · exact hnonce

theorem start_isSome (origin a sender : Address) : ((w.start c origin a sender).accounts a).isSome := by
  unfold World.start World.grantContractStatusManager
  split
  · split
    · exact change_self_isSome
    · exact change_self_isSome
  · exact change_self_isSome

theorem stays_create {origin sender a : Address} {endowment : U256} {w' : World}
    (h : w.create c origin sender a endowment = .used w' ∨ w.create c origin sender a endowment = .started w') :
    Stays w w' := by
  have hnonce : Stays w (w.incNonce c sender) := fun x hx => change_isSome x hx
  unfold World.create at h
  split at h
  · rcases h with h | h <;> cases h
  · split at h
    · rcases h with h | h <;> cases h
    · split at h
      · rcases h with h | h <;> cases h
        exact hnonce
      · split at h
        · rcases h with h | h <;> cases h
        · next w2 hcash =>
          rcases h with h | h <;> cases h
          exact (hnonce.trans (stays_transferBalance c _ hcash)).trans (stays_start c w2 origin a sender)

theorem stays_paid {p : CallParameters} {output output' : Bytes} {w' : World} (h : w.paid c p output = .done output' w') :
    Stays w w' := by
  unfold World.paid at h
  split at h
  · cases h
  · next hcash =>
    cases h
    exact stays_transferBalance c w hcash

theorem paid_ne_run {p : CallParameters} {output : Bytes} {w' : World} : w.paid c p output ≠ .run w' := by
  unfold World.paid
  split <;> nofun

theorem stays_call {origin : Address} {p : CallParameters} {w' : World}
    (h : (∃ output, w.call c origin p = .done output w') ∨ w.call c origin p = .run w') : Stays w w' := by
  unfold World.call at h
  cases hexecute : c.executeOriginPrecompiled p.codeAddress with
  | some execute =>
    rw [hexecute] at h
    rcases h with ⟨output, h⟩ | h
    · exact stays_paid c w h
    · exact absurd h (paid_ne_run c w)
  | none =>
    rw [hexecute] at h
    dsimp only at h
    cases hprecompiled : c.precompiled p.codeAddress with
    | some execute =>
      rw [hprecompiled] at h
      dsimp only at h
      cases hrun : execute p.data origin p.senderAddress w with
      | error e =>
        rw [hrun] at h
        rcases h with ⟨output, h⟩ | h <;> cases h
      | ok done =>
        rw [hrun] at h
        have hkeeps : Stays w done.2 := c.precompiled_keeps _ execute hprecompiled _ _ _ _ done.1 done.2 hrun
        rcases h with ⟨output, h⟩ | h
        · exact hkeeps.trans (stays_paid c done.2 h)
        · exact absurd h (paid_ne_run c done.2)
    | none =>
      rw [hprecompiled] at h
      dsimp only at h
      split at h
      · rcases h with ⟨output, h⟩ | h <;> cases h
      · split at h
        · split at h
          · rcases h with ⟨output, h⟩ | h <;> cases h
          · next hcash =>
            rcases h with ⟨output, h⟩ | h <;> cases h
            exact stays_transferBalance c w hcash
        · rcases h with ⟨output, h⟩ | h
          · exact stays_paid c w h
          · exact absurd h (paid_ne_run c w)

theorem stays_create_answer {origin me : Address} {m : CreateMessage} {r : Result} {w' : World}
    (h : m.answer c origin me w = .returned r w') : Stays w w' := by
  unfold CreateMessage.answer at h
  dsimp only at h
  split at h
  · cases h
    exact .refl w
  · next hcreate =>
    cases h
    exact stays_create c w (.inl hcreate)
  · cases h
  · next hcreate =>
    split at h
    · cases h
    · cases h
      exact stays_create c w (.inr hcreate)

theorem stays_call_answer {origin me : Address} {m : CallMessage} {r : Result} {w' : World}
    (h : m.answer c origin me w = .returned r w') : Stays w w' := by
  unfold CallMessage.answer at h
  split at h
  · cases h
    exact .refl w
  · split at h
    · cases h
      exact .refl w
    · next hcall =>
      cases h
      exact stays_call c w (.inl ⟨_, hcall⟩)
    · cases h
    · cases h

end

theorem stays_meant (b : Behaviour) (me : Address) (sub : SubState) (w : World) {r : Result} {sub' : SubState} {w' : World}
    (h : b.meant c origin me sub w = .result r sub' w') : Stays w w' := by
  induction b generalizing sub w with
  | finish status output gasLeft =>
    cases h
    exact .refl _
  | read next ih => exact ih w sub w h
  | setStorage key value next ih =>
    unfold Behaviour.meant at h
    split at h
    · cases h
    · dsimp only at h
      split at h
      · exact ih _ _ _ h
      · exact (stays_setStorage w me key value).trans (ih _ _ _ h)
  | log topics data next ih => exact ih _ w h
  | selfdestruct beneficiary next ih => exact (stays_suicide c w me beneficiary).trans (ih _ _ h)
  | create m next ih =>
    unfold Behaviour.meant at h
    split at h
    · cases h
    · split at h
      · next hanswer => exact (stays_create_answer c w hanswer).trans (ih _ _ _ h)
      · cases h
  | call m next ih =>
    unfold Behaviour.meant at h
    split at h
    · cases h
    · split at h
      · next hanswer => exact (stays_call_answer c w hanswer).trans (ih _ _ _ h)
      · cases h

theorem killAll_of_not_mem (w : World) {a : Address} {suicides : List Address} (h : a ∉ suicides) :
    (w.killAll c suicides).accounts a = w.accounts a := by
  unfold World.killAll
  induction suicides generalizing w with
  | nil => rfl
  | cons x suicides ih =>
    rw [List.foldl_cons, ih _ fun hmem => h (List.mem_cons_of_mem x hmem)]
    have hne : a ≠ x := fun heq => h (heq ▸ List.mem_cons_self)
    exact Function.update_of_ne hne _ _

theorem setCode_code (w : World) {a : Address} (code : Bytes) (h : (w.accounts a).isSome) :
    ((w.setCode a code).accounts a).map Data.code = some code := by
  obtain ⟨data, hdata⟩ := Option.isSome_iff_exists.mp h
  unfold World.setCode AccountMap.setCode
  dsimp only
  rw [change_some hdata, Function.update_self]
  rfl

theorem setCode_of_none (w : World) {a : Address} (code : Bytes) (h : w.accounts a = none) : w.setCode a code = w := by
  unfold World.setCode AccountMap.setCode
  rw [change_none_self h]

theorem setCode_nil (w : World) {a : Address} (h : w.addressHasCode a = false) : w.setCode a [] = w := by
  cases hdata : w.accounts a with
  | none => exact setCode_of_none w [] hdata
  | some data =>
    unfold World.addressHasCode at h
    rw [hdata] at h
    have hcode : data.code = [] := not_not.mp (of_decide_eq_false h)
    unfold World.setCode AccountMap.setCode
    rw [change_some hdata]
    have hsame : ({ data with code := [] } : Data) = data := by rw [← hcode]
    rw [hsame, ← hdata, Function.update_eq_self]

end HieraChain.Executive
