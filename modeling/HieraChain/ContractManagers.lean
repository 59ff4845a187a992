/-
  HieraChain/ContractManagers.lean
  ================================
  **Only managers and members of the committee manage a contract.**

  `call_cases` says what an accepted call does: it freezes a contract that is
  available, unfreezes one that is frozen, adds a manager that is not there, or
  takes away one of several.  Each needs the right of its origin in the state
  before it.  The managers stay distinct and never run out, and the accepted
  freezes and unfreezes alternate, over every run.
-/
import HieraChain.ContractLifeCycle
import Mathlib.Data.List.Chain

namespace HieraChain.LifeCycle

open HieraChain.BigEndian HieraChain.Storage HieraChain.Hex HieraChain.Governance HieraChain.Account

def IsMember (w : World) (origin : Address) : Prop :=
  ∃ r ∈ w.chain.access.rows, r.tableName = Governance.SYS_ACCESS_TABLE ∧ r.address = origin.hexPrefixed

section Released

variable {version : Nat} (hversion : V2_7_0 ≤ version)
include hversion

theorem released : V2_5_0 ≤ version := Nat.le_trans (by decide) hversion

/-! ### What a call does -/

theorem permitted_of_check {w : World} {a origin : Address} {t : AccountTable} (ht : w.contracts a = some t)
    (h : checkPermission version w (some t) origin = true) : hex origin ∈ managers version w a ∨ IsMember w origin := by
  rw [checkPermission, Bool.or_eq_true] at h
  rcases h with hmanager | hmember
  · left
    rw [managers, ht]
    exact of_decide_eq_true hmanager
  · right
    rw [Bool.and_eq_true, Bool.not_eq_true', List.isEmpty_eq_false_iff_exists_mem] at hmember
    obtain ⟨r, hr⟩ := hmember.2
    rw [selectAccess, SystemTable.select_eq (released hversion), List.mem_filter] at hr
    simp only [Bool.and_eq_true, decide_eq_true_eq] at hr
    exact ⟨r, hr.1, hr.2⟩

end Released

inductive Edit (t : AccountTable) : LifeCycleCall → Address → AccountTable → Prop
  | freeze {a : Address} {t' : AccountTable} (hbefore : (values t ACCOUNT_FROZEN).head? ≠ some STATUS_TRUE)
      (hafter : (values t' ACCOUNT_FROZEN).head? = some STATUS_TRUE)
      (hmanagers : values t' ACCOUNT_AUTHORITY = values t ACCOUNT_AUTHORITY) : Edit t (.freeze a) a t'
  | unfreeze {a : Address} {t' : AccountTable} (hbefore : (values t ACCOUNT_FROZEN).head? = some STATUS_TRUE)
      (hafter : (values t' ACCOUNT_FROZEN).head? = some STATUS_FALSE)
      (hmanagers : values t' ACCOUNT_AUTHORITY = values t ACCOUNT_AUTHORITY) : Edit t (.unfreeze a) a t'
  | grantManager {a user : Address} {t' : AccountTable} (hnew : hex user ∉ values t ACCOUNT_AUTHORITY)
      (hmanagers : values t' ACCOUNT_AUTHORITY = values t ACCOUNT_AUTHORITY ++ [hex user])
      (hfrozen : values t' ACCOUNT_FROZEN = values t ACCOUNT_FROZEN) : Edit t (.grantManager a user) a t'
  | revokeManager {a user : Address} {t' : AccountTable} (hold : hex user ∈ values t ACCOUNT_AUTHORITY)
      (hmore : (values t ACCOUNT_AUTHORITY).length ≠ 1)
      (hmanagers : values t' ACCOUNT_AUTHORITY = (values t ACCOUNT_AUTHORITY).filter fun v => v ≠ hex user)
      (hfrozen : values t' ACCOUNT_FROZEN = values t ACCOUNT_FROZEN) : Edit t (.revokeManager a user) a t'

/-- A call is refused with a code, or its origin may manage the contract and it
    edits its table. -/
inductive Outcome (version : Nat) (w : World) (origin : Address) (call : LifeCycleCall) : Int × World → Prop
  | refused {code : Int} (hcode : code < 0) : Outcome version w origin call (code, w)
  | accepted {a : Address} {t t' : AccountTable} {count : Int} (hcount : 0 < count) (ht : w.contracts a = some t)
      (hright : hex origin ∈ managers version w a ∨ IsMember w origin) (hedit : Edit t call a t') :
      Outcome version w origin call (count, w.setTable a t')

section Released

variable {version : Nat} (hversion : V2_7_0 ≤ version) {EmptyHash : Bytes}
include hversion

theorem updateFrozenStatus_spec (t : AccountTable) (text : Bytes) :
    0 < (updateFrozenStatus version t text).1 ∧
      (values (updateFrozenStatus version t text).2 ACCOUNT_FROZEN).head? = some text ∧
      values (updateFrozenStatus version t text).2 ACCOUNT_AUTHORITY = values t ACCOUNT_AUTHORITY := by
  have hne : ACCOUNT_AUTHORITY ≠ ACCOUNT_FROZEN := by decide
  unfold updateFrozenStatus
  rw [selectKey_eq (released hversion)]
  cases hrows : values t ACCOUNT_FROZEN with
  | nil =>
    refine ⟨Int.one_pos, ?_, ?_⟩
    · simp [values_insertRow, hrows]
    · simp [values_insertRow, hne]
  | cons v rest =>
    refine ⟨?_, ?_, ?_⟩
    · simp only [List.length_cons]
      omega
    · simp [values_updateKey (released hversion), hrows]
    · simp [values_updateKey (released hversion), hne]

theorem status_of_frozen {t : AccountTable} {status : ContractStatus}
    (h : getContractStatus version EmptyHash (some t) = some status)
    (hcontract : ContractStatus.NotContractAddress ≠ status) :
    status = if (values t ACCOUNT_FROZEN).head? = some STATUS_TRUE then .Frozen else .Available := by
  simp only [getContractStatus, if_pos (released hversion)] at h
  split at h
  · cases h
  · split at h
    · cases h
      exact absurd rfl hcontract
    · rw [selectKey_eq (released hversion)] at h
      split at h
      · next htrue =>
        cases h
        rw [if_pos htrue]
      · next hfalse =>
        cases h
        rw [if_neg hfalse]

theorem switchStatus_cases {w w' : World} {a origin : Address} {other : ContractStatus} {refused r : Int}
    {text : Bytes} (hrefused : refused < 0)
    (h : switchStatus version EmptyHash w a origin other refused text = some (r, w')) :
    (r < 0 ∧ w' = w) ∨ ∃ t, w.contracts a = some t ∧ (hex origin ∈ managers version w a ∨ IsMember w origin) ∧
      (if (values t ACCOUNT_FROZEN).head? = some STATUS_TRUE then ContractStatus.Frozen else .Available) ≠ other ∧
      (r, w') = ((updateFrozenStatus version t text).1, w.setTable a (updateFrozenStatus version t text).2) := by
  simp only [switchStatus] at h
  cases ht : w.contracts a with
  | none =>
    rw [ht] at h
    cases h
    exact .inl ⟨by decide, rfl⟩
  | some t =>
    rw [ht] at h
    split at h
    · cases h
    · next status hstatus =>
      split at h
      · cases h
        exact .inl ⟨by decide, rfl⟩
      · split at h
        · cases h
          exact .inl ⟨by decide, rfl⟩
        · next hcontract =>
          split at h
          · cases h
            exact .inl ⟨by decide, rfl⟩
          · next hcheck =>
            rw [Bool.not_eq_true', Bool.not_eq_false] at hcheck
            split at h
            · cases h
              exact .inl ⟨hrefused, rfl⟩
            · next hother =>
              right
              refine ⟨t, rfl, permitted_of_check hversion ht hcheck, ?_, (Option.some.inj h).symm⟩
              rw [← status_of_frozen hversion hstatus hcontract]
              exact fun heq => hother heq.symm

theorem managed_cases {w w' : World} {a origin : Address} {body : AccountTable → Int × World} {r : Int}
    (h : managed version EmptyHash w a origin body = some (r, w')) :
    (r < 0 ∧ w' = w) ∨ ∃ t, w.contracts a = some t ∧ (hex origin ∈ managers version w a ∨ IsMember w origin) ∧
      (r, w') = body t := by
  have hcheck : ∀ code, checkContractManager version EmptyHash w (w.contracts a) origin = some code →
      code < 0 ∨ code = 0 ∧ ∃ t, w.contracts a = some t ∧ (hex origin ∈ managers version w a ∨ IsMember w origin) := by
    intro code hcode
    simp only [checkContractManager] at hcode
    split at hcode
    · cases hcode
    · next status hstatus =>
      split at hcode
      · cases hcode
        exact .inl (by decide)
      · next hexists =>
        split at hcode
        · cases hcode
          exact .inl (by decide)
        · split at hcode
          · cases hcode
            exact .inl (by decide)
          · next hpermission =>
            cases hcode
            cases ht : w.contracts a with
            | none =>
              rw [ht] at hstatus
              cases hstatus
              exact absurd rfl hexists
            | some t =>
              rw [ht, Bool.not_eq_true', Bool.not_eq_false] at hpermission
              exact .inr ⟨rfl, t, rfl, permitted_of_check hversion ht hpermission⟩
  unfold managed at h
  split at h
  · next t hzero ht =>
    rcases hcheck 0 hzero with hneg | ⟨-, t', ht', hright⟩
    · exact absurd hneg (by decide)
    · exact .inr ⟨t, ht, hright, (Option.some.inj h).symm⟩
  · next code table hcode hnot =>
    cases h
    rcases hcheck r hcode with hneg | ⟨rfl, t, ht, -⟩
    · exact .inl ⟨hneg, rfl⟩
    · exact (hnot t ht rfl).elim
  · cases h

/-- **What a call does.** -/
theorem call_cases {w w' : World} {origin : Address} {call : LifeCycleCall} {r : Int}
    (h : lifeCycleCall version EmptyHash w origin call = some (r, w')) :
    Outcome version w origin call (r, w') := by
  have hreleased := released hversion
  cases call with
  | freeze a =>
    rcases switchStatus_cases hversion (by decide) h with ⟨hneg, rfl⟩ | ⟨t, ht, hright, hstatus, heq⟩
    · exact .refused hneg
    · obtain ⟨hcount, hfrozen, hmanagers⟩ := updateFrozenStatus_spec hversion t STATUS_TRUE
      rw [heq]
      refine .accepted hcount ht hright (.freeze ?_ hfrozen hmanagers)
      exact fun htrue => hstatus (if_pos htrue)
  | unfreeze a =>
    rcases switchStatus_cases hversion (by decide) h with ⟨hneg, rfl⟩ | ⟨t, ht, hright, hstatus, heq⟩
    · exact .refused hneg
    · obtain ⟨hcount, hfrozen, hmanagers⟩ := updateFrozenStatus_spec hversion t STATUS_FALSE
      rw [heq]
      refine .accepted hcount ht hright (.unfreeze ?_ hfrozen hmanagers)
      by_contra hfalse
      exact hstatus (if_neg hfalse)
  | grantManager a user =>
    rcases managed_cases hversion h with ⟨hneg, rfl⟩ | ⟨t, ht, hright, heq⟩
    · exact .refused hneg
    · rw [heq]
      rw [selectValue_eq hreleased]
      split
      · exact .refused (by decide)
      · next hnone =>
        have hnew : hex user ∉ values t ACCOUNT_AUTHORITY := by
          intro hin
          apply hnone
          exact List.length_pos_of_mem (List.mem_filter.mpr ⟨hin, decide_eq_true rfl⟩)
        refine .accepted (by decide) ht hright (.grantManager hnew ?_ ?_)
        · rw [values_insertRow, if_pos rfl]
        · rw [values_insertRow, if_neg (by decide)]
  | revokeManager a user =>
    rw [lifeCycleCall, if_pos hversion] at h
    rcases managed_cases hversion h with ⟨hneg, rfl⟩ | ⟨t, ht, hright, heq⟩
    · exact .refused hneg
    · rw [heq]
      rw [selectKey_eq hreleased, selectValue_eq hreleased]
      split
      · exact .refused (by decide)
      · next hmore =>
        dsimp only
        split
        · exact .refused (by decide)
        · next hsome =>
          have hpos := Nat.pos_of_ne_zero hsome
          obtain ⟨v, hv⟩ := List.exists_mem_of_length_pos hpos
          obtain ⟨hin, hvalue⟩ := List.mem_filter.mp hv
          have hold : hex user ∈ values t ACCOUNT_AUTHORITY := by
            rw [← of_decide_eq_true hvalue]
            exact hin
          refine .accepted (Int.natCast_pos.mpr hpos) ht hright (.revokeManager hold hmore ?_ ?_)
          · rw [values_removeValue hreleased, if_pos rfl]
          · rw [values_removeValue hreleased, if_neg (by decide)]

/-! ### One step -/

/-- The freeze or unfreeze of the contract that an input is, when it is accepted. -/
def switchOf (version : Nat) (EmptyHash : Bytes) (a : Address) (w : World) : Input → Option Bool
  | .lifeCycle origin call =>
    let accepted := ((lifeCycleCall version EmptyHash w origin call).map fun r => decide (0 ≤ r.1)).getD false
    match call with
    | .freeze b => if b = a ∧ accepted then some true else none
    | .unfreeze b => if b = a ∧ accepted then some false else none
    | _ => none
  | .chain _ => none

theorem managers_eq {w : World} {a : Address} {t : AccountTable} (ht : w.contracts a = some t) :
    managers version w a = values t ACCOUNT_AUTHORITY := by
  rw [managers, ht]
  exact selectKey_eq (released hversion) t _

theorem frozen_eq {w : World} {a : Address} {t : AccountTable} (ht : w.contracts a = some t) :
    frozen version w a = decide ((values t ACCOUNT_FROZEN).head? = some STATUS_TRUE) := by
  rw [frozen, ht]
  exact congrArg (fun l : List Bytes => decide (l.head? = some STATUS_TRUE)) (selectKey_eq (released hversion) t _)

omit hversion in
theorem setTable_self (w : World) (a : Address) (t : AccountTable) : (w.setTable a t).contracts a = some t :=
  Function.update_self ..

omit hversion in
theorem setTable_of_ne (w : World) {a b : Address} (t : AccountTable) (h : a ≠ b) :
    (w.setTable b t).contracts a = w.contracts a := Function.update_of_ne h ..

/-- What a step changes of a contract's managers and status, and with what right. -/
inductive Change (version : Nat) (a : Address) (w w' : World) : Option Bool → Prop
  | same (hmanagers : managers version w' a = managers version w a) (hfrozen : frozen version w' a = frozen version w a) :
      Change version a w w' none
  | switched {f : Bool} (hmanagers : managers version w' a = managers version w a) (hbefore : frozen version w a ≠ f)
      (hafter : frozen version w' a = f) : Change version a w w' (some f)
  | granted {user : Address} (hnew : hex user ∉ managers version w a)
      (hmanagers : managers version w' a = managers version w a ++ [hex user])
      (hfrozen : frozen version w' a = frozen version w a) : Change version a w w' none
  | revoked {user : Address} (hold : hex user ∈ managers version w a) (hmore : (managers version w a).length ≠ 1)
      (hmanagers : managers version w' a = (managers version w a).filter fun v => v ≠ hex user)
      (hfrozen : frozen version w' a = frozen version w a) : Change version a w w' none

omit hversion in
theorem congr_contracts {w w' : World} {a : Address} (h : w'.contracts a = w.contracts a) :
    managers version w' a = managers version w a ∧ frozen version w' a = frozen version w a := by
  simp only [managers, frozen, h, and_self]

theorem stepChain_same (a : Address) (w : World) (i : Governance.Input) :
    managers version (stepChain version w i) a = managers version w a ∧
      frozen version (stepChain version w i) a = frozen version w a := by
  cases i with
  | endOfBlock =>
    cases ht : w.contracts a with
    | none =>
      have hnone : (stepChain version w .endOfBlock).contracts a = none := by simp only [stepChain, ht, Option.map_none]
      exact congr_contracts (hnone.trans ht.symm)
    | some t =>
      have hcommit : (stepChain version w .endOfBlock).contracts a = some t.commit := by
        simp only [stepChain, ht, Option.map_some]
      rw [managers_eq hversion hcommit, managers_eq hversion ht, frozen_eq hversion hcommit, frozen_eq hversion ht,
        values_commit, values_commit]
      exact ⟨rfl, rfl⟩
  | governance origin call => exact congr_contracts rfl
  | permission origin call => exact congr_contracts rfl

theorem edit_change {w : World} {a b origin : Address} {t t' : AccountTable} {call : LifeCycleCall} {count : Int}
    (hcount : 0 < count) (ht : w.contracts b = some t) (hedit : Edit t call b t')
    (hcall : lifeCycleCall version EmptyHash w origin call = some (count, w.setTable b t')) :
    Change version a w (w.setTable b t') (switchOf version EmptyHash a w (.lifeCycle origin call)) := by
  have haccepted : decide (0 ≤ count) = true := decide_eq_true (Int.le_of_lt hcount)
  by_cases hab : b = a
  · subst hab
    have hmanagers := managers_eq hversion ht
    have hmanagers' := managers_eq hversion (setTable_self w b t')
    have hfrozen := frozen_eq hversion ht
    have hfrozen' := frozen_eq hversion (setTable_self w b t')
    cases hedit with
    | freeze hbefore hafter hsame =>
      simp only [switchOf, hcall, Option.map_some, Option.getD_some, haccepted, and_self, if_true]
      refine .switched (by rw [hmanagers', hsame, hmanagers]) ?_ ?_
      · rw [hfrozen, decide_eq_false hbefore]
        decide
      · rw [hfrozen', decide_eq_true hafter]
    | unfreeze hbefore hafter hsame =>
      simp only [switchOf, hcall, Option.map_some, Option.getD_some, haccepted, and_self, if_true]
      refine .switched (by rw [hmanagers', hsame, hmanagers]) ?_ ?_
      · rw [hfrozen, decide_eq_true hbefore]
        decide
      · rw [hfrozen', hafter]
        decide
    | grantManager hnew hadd hsame =>
      refine .granted (hmanagers ▸ hnew) ?_ ?_
      · rw [hmanagers', hadd, hmanagers]
      · rw [hfrozen', hsame, hfrozen]
    | revokeManager hold hmore hfilter hsame =>
      refine .revoked (hmanagers ▸ hold) (hmanagers ▸ hmore) ?_ ?_
      · rw [hmanagers', hfilter, hmanagers]
      · rw [hfrozen', hsame, hfrozen]
  · have hsame : managers version (w.setTable b t') a = _ ∧ frozen version _ a = _ :=
      congr_contracts (setTable_of_ne w t' fun h => hab h.symm)
    have hnone : switchOf version EmptyHash a w (.lifeCycle origin call) = none := by
      cases hedit with
      | freeze => simp only [switchOf, hab, false_and, if_false]
      | unfreeze => simp only [switchOf, hab, false_and, if_false]
      | grantManager => rfl
      | revokeManager => rfl
    rw [hnone]
    exact .same hsame.1 hsame.2

omit hversion in
theorem switchOf_of_not_accepted {a : Address} {w : World} {origin : Address} {call : LifeCycleCall}
    (h : ((lifeCycleCall version EmptyHash w origin call).map fun r => decide (0 ≤ r.1)).getD false = false) :
    switchOf version EmptyHash a w (.lifeCycle origin call) = none := by
  cases call with
  | freeze b => simp [switchOf, h]
  | unfreeze b => simp [switchOf, h]
  | grantManager b user => rfl
  | revokeManager b user => rfl

/-- **One step**, as the contract `a` sees it. -/
theorem step_change (a : Address) (w : World) (i : Input) :
    Change version a w (step version EmptyHash w i) (switchOf version EmptyHash a w i) := by
  cases i with
  | chain i =>
    have hsame := stepChain_same hversion a w i
    exact .same hsame.1 hsame.2
  | lifeCycle origin call =>
    cases hcall : lifeCycleCall version EmptyHash w origin call with
    | none =>
      rw [switchOf_of_not_accepted (by rw [hcall]; rfl)]
      simp only [step, hcall, Option.map_none, Option.getD_none]
      exact .same rfl rfl
    | some r =>
      simp only [step, hcall, Option.map_some, Option.getD_some]
      obtain ⟨count, w'⟩ := r
      cases call_cases hversion hcall with
      | refused hcode =>
        have hrefused : decide (0 ≤ count) = false := decide_eq_false (Int.not_le.mpr hcode)
        rw [switchOf_of_not_accepted (by rw [hcall]; exact hrefused)]
        exact .same rfl rfl
      | accepted hcount ht hright hedit => exact edit_change hversion hcount ht hedit hcall

/-! ### Runs -/

/-- The accepted freezes (`true`) and unfreezes of the contract in a run. -/
def switches (version : Nat) (EmptyHash : Bytes) (a : Address) : World → List Input → List Bool
  | _, [] => []
  | w, i :: is => (switchOf version EmptyHash a w i).toList ++ switches version EmptyHash a (step version EmptyHash w i) is

structure Fresh (version : Nat) (a : Address) (w : World) : Prop where
  managers : ∃ manager, LifeCycle.managers version w a = [manager]
  frozen : ∃ t, w.contracts a = some t ∧ selectKey version t ACCOUNT_FROZEN = []

/-- What the calls keep of a contract, over the run `is` from `w₀` to `w`. -/
structure Managed (version : Nat) (EmptyHash : Bytes) (a : Address) (w₀ : World) (is : List Input) (w : World) :
    Prop where
  distinct : (managers version w a).Nodup
  nonempty : managers version w a ≠ []
  /-- freezing and unfreezing alternate, a freeze first … -/
  alternate : (false :: switches version EmptyHash a w₀ is).IsChain (· ≠ ·)
  /-- … and the last of them is the status -/
  status : frozen version w a = (switches version EmptyHash a w₀ is).getLast?.getD false
  /-- a change needs the right of the origin, in this state -/
  authority : ∀ i, managers version (step version EmptyHash w i) a ≠ managers version w a ∨
      frozen version (step version EmptyHash w i) a ≠ frozen version w a →
    ∃ origin call, i = .lifeCycle origin call ∧ (hex origin ∈ managers version w a ∨ IsMember w origin)
  /-- an error changes nothing -/
  refused : ∀ origin call code w', lifeCycleCall version EmptyHash w origin call = some (code, w') → code < 0 → w' = w

theorem managers_run (a : Address) {w : World} (hdistinct : (managers version w a).Nodup)
    (hnonempty : managers version w a ≠ []) (is : List Input) :
    (managers version ((world version EmptyHash).run w is) a).Nodup ∧
      managers version ((world version EmptyHash).run w is) a ≠ [] := by
  have hstep : ∀ (w : World) i, (managers version w a).Nodup ∧ managers version w a ≠ [] →
      (managers version (step version EmptyHash w i) a).Nodup ∧ managers version (step version EmptyHash w i) a ≠ [] := by
    rintro w i ⟨hnodup, hne⟩
    have hchange : Change version a w (step version EmptyHash w i) _ := step_change hversion a w i
    generalize switchOf version EmptyHash a w i = f at hchange
    cases hchange with
    | same hmanagers => exact ⟨hmanagers ▸ hnodup, hmanagers ▸ hne⟩
    | switched hmanagers => exact ⟨hmanagers ▸ hnodup, hmanagers ▸ hne⟩
    | granted hnew hmanagers =>
      rw [hmanagers]
      refine ⟨List.nodup_append.mpr ⟨hnodup, List.nodup_singleton _, ?_⟩, by simp⟩
      rintro x hx y hy rfl
      exact hnew (List.mem_singleton.mp hy ▸ hx)
    | @revoked user hold hmore hmanagers =>
      rw [hmanagers]
      refine ⟨hnodup.filter _, ?_⟩
      intro hnil
      -- otherwise every manager is the revoked one, and there is one manager
      have hall : managers version w a ⊆ [hex user] := by
        intro v hv
        by_contra hother
        have hkept : v ∈ (managers version w a).filter fun v => v ≠ hex user :=
          List.mem_filter.mpr ⟨hv, decide_eq_true fun heq => hother (List.mem_singleton.mpr heq)⟩
        rw [hnil] at hkept
        exact List.not_mem_nil hkept
      have hle : (managers version w a).length ≤ 1 := (List.subperm_of_subset hnodup hall).length_le
      have hpos : 0 < (managers version w a).length := List.length_pos_of_mem hold
      exact hmore (Nat.le_antisymm hle hpos)
  exact (world version EmptyHash).run_preserves hstep ⟨hdistinct, hnonempty⟩ is

theorem switches_run (a : Address) (w : World) (is : List Input) :
    (frozen version w a :: switches version EmptyHash a w is).IsChain (· ≠ ·) ∧
      frozen version ((world version EmptyHash).run w is) a =
        (switches version EmptyHash a w is).getLast?.getD (frozen version w a) := by
  induction is generalizing w with
  | nil => exact ⟨List.isChain_singleton _, rfl⟩
  | cons i is ih =>
    obtain ⟨hchain, hlast⟩ := ih (step version EmptyHash w i)
    have hchange : Change version a w (step version EmptyHash w i) _ := step_change hversion a w i
    have hrun : (world version EmptyHash).run w (i :: is) =
        (world version EmptyHash).run (step version EmptyHash w i) is := rfl
    rw [switches, hrun, hlast]
    generalize switchOf version EmptyHash a w i = f at hchange
    cases hchange with
    | same _ hfrozen =>
      rw [hfrozen] at hchain ⊢
      exact ⟨hchain, rfl⟩
    | granted _ _ hfrozen =>
      rw [hfrozen] at hchain ⊢
      exact ⟨hchain, rfl⟩
    | revoked _ _ _ hfrozen =>
      rw [hfrozen] at hchain ⊢
      exact ⟨hchain, rfl⟩
    | @switched f _ hbefore hafter =>
      rw [hafter] at hchain ⊢
      refine ⟨List.isChain_cons_cons.mpr ⟨hbefore, hchain⟩, ?_⟩
      cases hrest : switches version EmptyHash a (step version EmptyHash w i) is with
      | nil => rfl
      | cons g rest => simp [List.getLast?_cons]

theorem right_of_change {a : Address} {w : World} {i : Input}
    (hchanged : managers version (step version EmptyHash w i) a ≠ managers version w a ∨
      frozen version (step version EmptyHash w i) a ≠ frozen version w a) :
    ∃ origin call, i = .lifeCycle origin call ∧ (hex origin ∈ managers version w a ∨ IsMember w origin) := by
  have hnot : ∀ w', step version EmptyHash w i = w' →
      ¬ (managers version w' a = managers version w a ∧ frozen version w' a = frozen version w a) := by
    rintro w' rfl ⟨hmanagers, hfrozen⟩
    rcases hchanged with h | h
    · exact h hmanagers
    · exact h hfrozen
  cases i with
  | chain i => exact (hnot _ rfl (stepChain_same hversion a w i)).elim
  | lifeCycle origin call =>
    refine ⟨origin, call, rfl, ?_⟩
    cases hcall : lifeCycleCall version EmptyHash w origin call with
    | none =>
      have hstep : step version EmptyHash w (.lifeCycle origin call) = w := by
        simp only [step, hcall, Option.map_none, Option.getD_none]
      exact (hnot _ hstep ⟨rfl, rfl⟩).elim
    | some r =>
      obtain ⟨code, w'⟩ := r
      have hstep : step version EmptyHash w (.lifeCycle origin call) = w' := by
        simp only [step, hcall, Option.map_some, Option.getD_some]
      have hsame := hnot w' hstep
      cases call_cases hversion hcall with
      | refused => exact (hsame ⟨rfl, rfl⟩).elim
      | @accepted b t t' count hcount ht hright hedit =>
        by_cases hab : a = b
        · rw [hab]
          exact hright
        · exact (hsame (congr_contracts (setTable_of_ne w t' hab))).elim

/-- **Contract manager authority.** -/
theorem contract_managers {a : Address} {w₀ : World} (h₀ : Fresh version a w₀) (is : List Input) :
    Managed version EmptyHash a w₀ is ((world version EmptyHash).run w₀ is) := by
  obtain ⟨manager, hmanager⟩ := h₀.managers
  obtain ⟨t, ht, hfrozen⟩ := h₀.frozen
  have hstart : frozen version w₀ a = false := by
    rw [selectKey_eq (released hversion)] at hfrozen
    rw [frozen_eq hversion ht, hfrozen]
    rfl
  have hdistinct : (managers version w₀ a).Nodup := by rw [hmanager]; exact List.nodup_singleton manager
  have hnonempty : managers version w₀ a ≠ [] := by rw [hmanager]; exact List.cons_ne_nil manager []
  have hrun : _ ∧ managers version ((world version EmptyHash).run w₀ is) a ≠ [] :=
    managers_run hversion a hdistinct hnonempty is
  have hswitches : _ ∧ frozen version ((world version EmptyHash).run w₀ is) a = _ := switches_run hversion a w₀ is
  rw [hstart] at hswitches
  generalize (world version EmptyHash).run w₀ is = w at hrun hswitches ⊢
  refine ⟨hrun.1, hrun.2, hswitches.1, hswitches.2, ?_, ?_⟩
  · exact fun i hchanged => right_of_change hversion hchanged
  · intro origin call code w' hcall hcode
    cases call_cases hversion hcall with
    | refused => rfl
    | accepted hcount => exact absurd hcount (Int.not_lt.mpr (Int.le_of_lt hcode))

end Released

/-! ### A contract with two managers -/

section Example

private def contract : Address := .ofByte 1
private def deployer : Address := .ofByte 2
private def user : Address := .ofByte 3

private def deployed : World where
  chain := genesis
  contracts := Function.update (fun _ => none) contract
    (some (.ofRows [⟨ACCOUNT_CODE_HASH, List.replicate 32 7⟩, ⟨ACCOUNT_AUTHORITY, hex deployer⟩]))

/-- The deployer freezes the contract and names a second manager, who unfreezes it
    and takes the deployer's right away; the deployer's last call is refused. -/
private def handOver : List Input :=
  [.lifeCycle deployer (.freeze contract), .lifeCycle deployer (.grantManager contract user), .chain .endOfBlock,
    .lifeCycle user (.unfreeze contract), .lifeCycle user (.revokeManager contract deployer),
    .lifeCycle deployer (.freeze contract)]

private theorem fresh_deployed : Fresh V2_7_0 contract deployed where
  managers := ⟨hex deployer, by decide +kernel⟩
  frozen := ⟨_, rfl, by decide +kernel⟩

theorem contract_managers_hand_over :
    Managed V2_7_0 (List.replicate 32 0) contract deployed handOver
        ((world V2_7_0 (List.replicate 32 0)).run deployed handOver) ∧
      managers V2_7_0 ((world V2_7_0 (List.replicate 32 0)).run deployed handOver) contract = [hex user] :=
  ⟨contract_managers (Nat.le_refl V2_7_0) fresh_deployed handOver, by decide +kernel⟩

end Example

end HieraChain.LifeCycle
