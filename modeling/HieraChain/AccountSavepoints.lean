/-
  HieraChain/AccountSavepoints.lean
  =================================
  **The account state refines the map over whole runs.**

  A savepoint of the state stands for the map that was remembered with it, as
  long as no account was created since: the other changes are forgotten by a
  rollback (`Later`).  With this the savepoints of a run and the maps beside them
  go through every call and every rollback that takes back no creation.  Calls
  that move money keep its sum (`supply_kept`).
-/
import Mathlib.Algebra.BigOperators.Group.Finset.Basic
import HieraChain.AccountSetters

namespace HieraChain.StorageState

open HieraChain.BigEndian HieraChain.Storage HieraChain.Account
open HieraChain.UndoLog (Log live)

variable {c : Config} {s s' : State} {address : Address}

/-! ### What a savepoint sees of later changes -/

def Quiet (s : State) (savepoint : Nat) : Prop := ∀ change ∈ s.data.since savepoint, ¬ Creates change

structure Same (s s' : State) : Prop where
  opened : s'.opened = s.opened
  select : ∀ table key, s'.select table key = s.select table key

theorem Same.represents (h : Same s s') {m : AccountMap} (hrep : Represents c s m) : Represents c s' m := by
  intro a
  apply (hrep a).congr
  · rw [h.opened]
  · exact h.select ..
  · exact fun key => h.select ..

/-- A state further on: a savepoint of before is good, and a rollback to it gives what it
    gave, unless an account was created. -/
structure Later (s s' : State) : Prop where
  within : s'.data.Within
  length : s.data.changes.length ≤ s'.data.changes.length
  quiet : ∀ n ≤ s.data.changes.length, Quiet s' n → Quiet s n ∧ Same (s.rollback n) (s'.rollback n)

theorem Same.refl (s : State) : Same s s := ⟨rfl, fun _ _ => rfl⟩

theorem Same.trans {s'' : State} (h : Same s s') (h' : Same s' s'') : Same s s'' :=
  ⟨h'.opened.trans h.opened, fun table key => (h'.select table key).trans (h.select table key)⟩

theorem Later.refl (hwithin : s.data.Within) : Later s s :=
  ⟨hwithin, Nat.le_refl _, fun _ _ hquiet => ⟨hquiet, .refl _⟩⟩

theorem Later.trans {s'' : State} (h : Later s s') (h' : Later s' s'') : Later s s'' where
  within := h'.within
  length := Nat.le_trans h.length h'.length
  quiet n hn hquiet := by
    obtain ⟨hquiet', hsame'⟩ := h'.quiet n (Nat.le_trans hn h.length) hquiet
    obtain ⟨hquiet'', hsame⟩ := h.quiet n hn hquiet'
    exact ⟨hquiet'', hsame.trans hsame'⟩

theorem Quiet.of_cons {change : UndoLog.Change (Bytes × Bytes) Bytes} {n : Nat}
    (hchanges : s'.data.changes = change :: s.data.changes) (hn : n ≤ s.data.changes.length) (h : Quiet s' n) :
    ¬ Creates change ∧ Quiet s n := by
  unfold Quiet at h
  rw [Log.since_cons hchanges hn] at h
  exact ⟨h change List.mem_cons_self, fun change' hmem => h change' (List.mem_cons_of_mem _ hmem)⟩

theorem Later.insert (hwithin : s.data.Within) (table key value : Bytes) : Later s (s.insert table key value) where
  within := hwithin.insert _ _
  length := Nat.le_succ _
  quiet n hn hquiet := by
    refine ⟨(Quiet.of_cons rfl hn hquiet).2, rfl, fun table' key' => ?_⟩
    exact (Log.rollback_insert hwithin (table, key) value hn).live_eq (table', key')

theorem Later.update (hwithin : s.data.Within) (table key value : Bytes) : Later s (s.update table key value) where
  within := hwithin.update _ _
  length := Nat.le_succ _
  quiet n hn hquiet := by
    refine ⟨(Quiet.of_cons rfl hn hquiet).2, rfl, fun table' key' => ?_⟩
    exact congrArg live (congrFun (Log.rollback_update (table, key) value hn) (table', key'))

theorem Later.create (hwithin : s.data.Within) (table : Bytes) : Later s (s.create table) where
  within := hwithin.insert _ _
  length := Nat.le_succ _
  quiet _ hn hquiet := absurd (show Creates (.insert (SYS_TABLES, table) _) from rfl) (Quiet.of_cons (s := s) rfl hn hquiet).1

theorem Writes.later (h : Writes c address s s') (hwithin : s.data.Within) : Later s s' := by
  induction h with
  | refl => exact .refl hwithin
  | insert h key value ih => exact ih.trans (.insert ih.within _ key value)
  | update h key value ih => exact ih.trans (.update ih.within _ key value)
  | create h ih => exact ih.trans (.create ih.within _)

theorem subBalance_ok {amount : U256} (h : s.subBalance c address amount = .ok s') : Writes c address s s' := by
  have hwrites := subBalance_writes c s address amount
  rw [h] at hwrites
  exact hwrites

theorem call_later (c : Config) (hwithin : s.data.Within) (i : Input) : Later s (s.call c i) := by
  cases i with
  | createContract address => exact (createAccount_writes ..).later hwithin
  | addBalance address amount => exact (addBalance_writes ..).later hwithin
  | subBalance address amount => exact (subBalance_writes ..).later hwithin
  | setBalance address amount => exact (setBalance_writes ..).later hwithin
  | transferBalance source target value =>
    unfold State.call
    dsimp only
    unfold State.transferBalance
    cases hsub : s.subBalance c source value with
    | error e => exact .refl hwithin
    | ok s' =>
      have hlater := (subBalance_ok hsub).later hwithin
      exact hlater.trans ((addBalance_writes c s' target value).later hlater.within)
  | incNonce address => exact (incNonce_writes ..).later hwithin
  | setNonce address nonce => exact (setNonce_writes ..).later hwithin
  | setStorage address location value => exact (setStorage_writes ..).later hwithin
  | setCode address code => exact (setCode_writes ..).later hwithin
  | kill address => exact (kill_writes ..).later hwithin
  | savepoint => exact .refl hwithin
  | rollback depth => exact .refl hwithin

/-! ### The savepoints of a run -/

def Remembers (c : Config) (s : State) (savepoint : Nat) (m : AccountMap) : Prop :=
  savepoint ≤ s.data.changes.length ∧ (Quiet s savepoint → Represents c (s.rollback savepoint) m)

structure Tracks (c : Config) (r : Run) (mr : MapRun) : Prop where
  represents : Represents c r.state mr.accounts
  within : r.state.data.Within
  savepoints : List.Forall₂ (Remembers c r.state) r.savepoints mr.savepoints
  sorted : r.savepoints.Pairwise (· ≥ ·)

theorem Remembers.later (hlater : Later s s') {n : Nat} {m : AccountMap} (h : Remembers c s n m) : Remembers c s' n m := by
  refine ⟨Nat.le_trans h.1 hlater.length, fun hquiet => ?_⟩
  obtain ⟨hquiet', hsame⟩ := hlater.quiet n h.1 hquiet
  exact hsame.represents (h.2 hquiet')

theorem Remembers.now {m : AccountMap} (h : Represents c s m) : Remembers c s s.savepoint m := by
  refine ⟨Nat.le_refl _, fun _ => ?_⟩
  have hsame : Same s (s.rollback s.savepoint) := by
    refine ⟨rfl, fun table key => ?_⟩
    unfold State.select State.rollback State.savepoint Log.select Log.rollback Log.savepoint
    dsimp only
    rw [Nat.sub_self, List.take_zero, List.foldl_nil]
  exact hsame.represents h

theorem Remembers.rollback {early late : Nat} {m : AccountMap} (h : Remembers c s early m) (hearly : early ≤ late)
    (hlate : late ≤ s.data.changes.length) (hquiet : Quiet s late) : Remembers c (s.rollback late) early m := by
  obtain ⟨hback, hsince⟩ := s.data.rollback_rollback hearly hlate
  constructor
  · show early ≤ (s.data.rollback late).changes.length
    rw [Log.length_changes_rollback _ hlate]
    exact hearly
  · intro hquiet'
    have hall : Quiet s early := by
      unfold Quiet
      rw [hsince]
      intro change hmem
      rcases List.mem_append.mp hmem with hlater | hbefore
      · exact hquiet change hlater
      · exact hquiet' change hbefore
    have heq : (s.rollback late).rollback early = s.rollback early := by
      show ({ opened := s.opened, data := (s.data.rollback late).rollback early } : State) = _
      rw [hback]
      rfl
    rw [heq]
    exact h.2 hall

theorem Tracks.call {r : Run} {mr : MapRun} (h : Tracks c r mr) (i : Input) :
    Tracks c { r with state := r.state.call c i } { mr with accounts := mr.accounts.call c i } where
  represents := h.represents.call i
  within := (call_later c h.within i).within
  savepoints := h.savepoints.imp fun _ _ hsave => hsave.later (call_later c h.within i)
  sorted := h.sorted

theorem Tracks.rollback {r : Run} {mr : MapRun} (h : Tracks c r mr) {depth n : Nat} {older : List Nat}
    (hdrop : r.savepoints.drop depth = n :: older) (hquiet : Quiet r.state n) :
    ∃ m olderMaps, mr.savepoints.drop depth = m :: olderMaps ∧
      Tracks c { state := r.state.rollback n, savepoints := n :: older } { accounts := m, savepoints := m :: olderMaps } := by
  have hall := List.forall₂_drop depth h.savepoints
  have hsorted := h.sorted.drop (i := depth)
  rw [hdrop] at hall hsorted
  generalize mr.savepoints.drop depth = maps at hall
  cases hall with
  | @cons _ m _ olderMaps hnow holder =>
    refine ⟨m, olderMaps, rfl, ?_⟩
    have hle : ∀ e ∈ n :: older, e ≤ n := by
      intro e hmem
      rcases List.mem_cons.mp hmem with rfl | hmem
      · exact Nat.le_refl _
      · exact List.rel_of_pairwise_cons hsorted hmem
    have hback := (List.forall₂_and_left _ _).mpr ⟨hle, List.Forall₂.cons hnow holder⟩
    exact {
      represents := hnow.2 hquiet
      within := h.within.rollback n
      savepoints := hback.imp fun _ _ he => he.2.rollback he.1 hnow.1 hquiet
      sorted := hsorted }

theorem Tracks.le {r : Run} {mr : MapRun} (h : Tracks c r mr) {n : Nat} (hmem : n ∈ r.savepoints) :
    n ≤ r.state.savepoint :=
  ((List.forall₂_and_left (p := fun n => n ≤ r.state.savepoint) _ _).mp h.savepoints).1 n hmem

/-- **One step keeps the state and its map together.** -/
theorem Tracks.step {r : Run} {mr : MapRun} (h : Tracks c r mr) (i : Input) (hok : StepOk r i) :
    Tracks c ((states c).step r i) ((accountMaps c).step mr i) := by
  cases i with
  | savepoint =>
    exact {
      represents := h.represents
      within := h.within
      savepoints := .cons (.now h.represents) h.savepoints
      sorted := List.pairwise_cons.mpr ⟨fun _ hmem => h.le hmem, h.sorted⟩ }
  | rollback depth =>
    unfold states accountMaps
    dsimp only
    cases hdrop : r.savepoints.drop depth with
    | nil =>
      have hmaps := List.forall₂_drop depth h.savepoints
      rw [hdrop] at hmaps
      rw [List.forall₂_nil_left_iff.mp hmaps]
      exact h
    | cons n older =>
      obtain ⟨m, olderMaps, hmaps, htracks⟩ := h.rollback hdrop (hok n older hdrop)
      rw [hmaps]
      exact htracks
  | _ => exact h.call _

theorem Tracks.run {r : Run} {mr : MapRun} (h : Tracks c r mr) {is : List Input}
    (hrun : (states c).RunOk StepOk r is) : Tracks c ((states c).run r is) ((accountMaps c).run mr is) := by
  induction is generalizing r mr with
  | nil => exact h
  | cons i is ih => exact ih (h.step i hrun.1) hrun.2

/-! ### From a storage -/

structure Stored where
  address : Address
  balance : U256
  nonce : U256
  code : Bytes
  slots : List (U256 × U256)

def Stored.data (a : Stored) : Data where
  balance := a.balance
  nonce := a.nonce
  code := a.code
  storage key := (a.slots.lookup key).getD 0

section
variable (c : Config)

def Stored.row (a : Stored) (key : Bytes) : Option Bytes :=
  if key = ACCOUNT_BALANCE then some (str a.balance)
  else if key = ACCOUNT_NONCE then some (str a.nonce)
  else if key = ACCOUNT_CODE then some (bytesField c a.code)
  else if key = ACCOUNT_CODE_HASH then some (bytesField c (c.hash a.code))
  else if key = ACCOUNT_ALIVE then some (ascii "true".toList)
  else (a.slots.find? fun slot => str slot.1 = key).map fun slot => str slot.2

def storedRow (accounts : List Stored) (table key : Bytes) : Option Bytes :=
  if table = SYS_TABLES then
    if (accounts.find? fun a => tableName c a.address = key).isSome then some (ascii "value".toList) else none
  else (accounts.find? fun a => tableName c a.address = table).bind fun a => a.row c key

def State.ofStorage (accounts : List Stored) : State where
  data := { rows := fun place => ((storedRow c accounts place.1 place.2).map fun value => { value }).toList }

def AccountMap.ofStorage (accounts : List Stored) : AccountMap :=
  fun address => (accounts.find? fun a => a.address = address).map Stored.data

end

theorem select_ofStorage (accounts : List Stored) (table key : Bytes) :
    (State.ofStorage c accounts).select table key = (storedRow c accounts table key).toList := by
  unfold State.select Log.select State.ofStorage
  dsimp only
  cases storedRow c accounts table key with
  | none => rfl
  | some value => rfl

theorem Stored.row_str (a : Stored) (key : U256) : a.row c (str key) = (a.slots.lookup key).map str := by
  unfold Stored.row
  rw [if_neg (str_ne key (by decide)), if_neg (str_ne key (by decide)), if_neg (str_ne key (by decide)),
    if_neg (str_ne key (by decide)), if_neg (str_ne key (by decide))]
  induction a.slots with
  | nil => rfl
  | cons slot slots ih =>
    obtain ⟨key', value⟩ := slot
    by_cases hkey : key' = key
    · subst hkey
      rw [List.find?_cons_of_pos (by simp), List.lookup_cons_self]
      rfl
    · rw [List.find?_cons_of_neg (by simpa using fun heq => hkey (str_injective heq)), ih,
        List.lookup_cons, beq_eq_false_iff_ne.mpr fun heq => hkey heq.symm]

theorem find_tableName (accounts : List Stored) (address : Address) :
    (accounts.find? fun a => tableName c a.address = tableName c address) = accounts.find? fun a => a.address = address := by
  congr 1
  funext a
  exact decide_eq_decide.mpr (tableName_injective c).eq_iff

theorem represents_ofStorage (accounts : List Stored) :
    Represents c (.ofStorage c accounts) (.ofStorage accounts) := by
  intro address
  have hsys : (State.ofStorage c accounts).select SYS_TABLES (tableName c address) =
      if (accounts.find? fun a => a.address = address).isSome then [ascii "value".toList] else [] := by
    rw [select_ofStorage, storedRow, if_pos rfl, find_tableName]
    split <;> rfl
  have hrows : ∀ key, (State.ofStorage c accounts).select (tableName c address) key =
      ((accounts.find? fun a => a.address = address).bind fun a => a.row c key).toList := by
    intro key
    rw [select_ofStorage, storedRow, if_neg (tableName_ne c address), find_tableName]
  unfold AccountMap.ofStorage
  cases hfind : accounts.find? fun a => a.address = address with
  | none =>
    rw [hfind] at hsys hrows
    exact { closed := rfl, undescribed := hsys, empty := hrows }
  | some a =>
    rw [hfind] at hsys hrows
    exact {
      described := by
        rw [hsys]
        exact List.cons_ne_nil _ _
      balance := hrows _
      nonce := hrows _
      code := hrows _
      codeHash := hrows _
      slots := fun key => by
        rw [hrows, Option.bind_some, Stored.row_str]
        unfold Stored.data
        dsimp only
        cases a.slots.lookup key with
        | none => exact .inr ⟨rfl, rfl⟩
        | some value => exact .inl rfl }

theorem tracks_ofStorage (accounts : List Stored) :
    Tracks c { state := .ofStorage c accounts } { accounts := .ofStorage accounts } where
  represents := represents_ofStorage accounts
  within := fun _ hmem => nomatch hmem
  savepoints := .nil
  sorted := .nil

instance : DecidablePred Creates := fun change => inferInstanceAs (Decidable (change.key.1 = SYS_TABLES))

instance (r : Run) : ∀ i, Decidable (StepOk r i)
  | .rollback depth =>
    match h : r.savepoints.drop depth with
    | [] => isTrue fun _ _ hdrop => nomatch h.symm.trans hdrop
    | n :: _ =>
      decidable_of_iff (∀ change ∈ r.state.data.since n, ¬ Creates change)
        ⟨fun hquiet _ _ hdrop => (List.cons.inj (h.symm.trans hdrop)).1 ▸ hquiet, fun hok => hok n _ h⟩
  | .createContract _ | .addBalance _ _ | .subBalance _ _ | .setBalance _ _ | .transferBalance _ _ _ | .incNonce _
  | .setNonce _ _ | .setStorage _ _ _ | .setCode _ _ | .kill _ | .savepoint => isTrue trivial

/-- **The account state is a map.**  In a run that takes back no creation of an account, and with
    hashes that are read as they are written, the getters of the state are those of a plain map
    under the same calls, savepoints and rollbacks. -/
theorem account_state_refines (c : Config) (hreadable : Readable c) (accounts : List Stored) (is : List Input)
    (hrun : (states c).RunOk StepOk { state := .ofStorage c accounts } is) :
    Agrees c ((states c).run { state := .ofStorage c accounts } is).state
      ((accountMaps c).run { accounts := .ofStorage accounts } is).accounts :=
  ((tracks_ofStorage accounts).run hrun).represents.agrees hreadable

/-! ### The sum of the balances -/

def balanceOf (o : Option Data) : Nat := ((o.map Data.balance).getD 0).toNat

def AccountMap.total (m : AccountMap) (addresses : Finset Address) : Nat := ∑ a ∈ addresses, balanceOf (m a)

def State.total (c : Config) (s : State) (addresses : Finset Address) : Nat := ∑ a ∈ addresses, (s.balance c a).toNat

/-- A call that makes and destroys no money; transfers are between the addresses. -/
def Moves (addresses : Finset Address) : Input → Prop
  | .addBalance .. | .subBalance .. | .setBalance .. | .kill _ => False
  | .transferBalance source target _ => source ∈ addresses ∧ target ∈ addresses
  | _ => True

section supply

variable {m m' : AccountMap} {addresses : Finset Address}

theorem Represents.total (h : Represents c s m) (addresses : Finset Address) :
    s.total c addresses = m.total addresses := by
  refine Finset.sum_congr rfl fun a _ => ?_
  unfold balanceOf
  cases hm : m a with
  | none => rw [(h.of_none hm).balance_eq]; rfl
  | some data => rw [(h.of_some hm).balance_eq]; rfl

theorem total_update {a : Address} (ha : a ∈ addresses) (o : Option Data) :
    AccountMap.total (Function.update m a o) addresses + balanceOf (m a) = m.total addresses + balanceOf o := by
  have hrest : ∑ b ∈ addresses.erase a, balanceOf (Function.update m a o b) = ∑ b ∈ addresses.erase a, balanceOf (m b) :=
    Finset.sum_congr rfl fun b hb => by rw [Function.update_of_ne (Finset.ne_of_mem_erase hb)]
  unfold AccountMap.total
  rw [← Finset.add_sum_erase _ _ ha, ← Finset.add_sum_erase addresses (fun b => balanceOf (m b)) ha, hrest,
    Function.update_self]
  omega

theorem balanceOf_le_total {a : Address} (ha : a ∈ addresses) : balanceOf (m a) ≤ m.total addresses := by
  unfold AccountMap.total
  rw [← Finset.add_sum_erase _ _ ha]
  exact Nat.le_add_right _ _

theorem total_change {f : Data → Data} {missing : Option Data} (hf : ∀ data, (f data).balance = data.balance)
    (hmissing : balanceOf missing = 0) (a : Address) : (m.change a f missing).total addresses = m.total addresses := by
  refine Finset.sum_congr rfl fun b _ => ?_
  unfold AccountMap.change
  by_cases hb : b = a
  · subst hb
    rw [Function.update_self]
    cases hm : m b with
    | none => exact hmissing
    | some data => exact congrArg BitVec.toNat (hf data)
  · rw [Function.update_of_ne hb]

theorem total_transfer {source target : Address} {value : U256} (hsource : source ∈ addresses)
    (htarget : target ∈ addresses) (hfits : m.total addresses < 2 ^ 256)
    (h : m.transferBalance c source target value = some m') : m'.total addresses = m.total addresses := by
  obtain ⟨m₁, hsub, rfl⟩ := Option.map_eq_some_iff.mp h
  have htaken : m₁.total addresses + value.toNat = m.total addresses := by
    unfold AccountMap.subBalance at hsub
    cases hm : m source with
    | none =>
      rw [hm] at hsub
      cases hsub
    | some data =>
      rw [hm] at hsub
      dsimp only at hsub
      split at hsub
      · cases hsub
      next hcovered =>
        cases hsub
        have hupdate := total_update (m := m) hsource (some { data with balance := data.balance - value })
        have hle : value.toNat ≤ data.balance.toNat := by
          rw [BitVec.lt_def] at hcovered
          omega
        rw [hm] at hupdate
        unfold AccountMap.change
        rw [hm]
        simp only [balanceOf, Option.map_some, Option.getD_some, BitVec.toNat_sub_of_le (BitVec.le_def.mpr hle)] at hupdate ⊢
        omega
  unfold AccountMap.addBalance
  split
  next hzero =>
    rw [hzero] at htaken
    exact htaken
  next hpos =>
    unfold AccountMap.change
    have hheld := balanceOf_le_total (m := m₁) htarget
    have hupdate := total_update (m := m₁) htarget
    cases hm : m₁ target with
    | none =>
      have hnew := hupdate (some (.fresh c.accountStartNonce value))
      rw [hm] at hnew
      change _ + 0 = _ + value.toNat at hnew
      dsimp only
      omega
    | some data =>
      have hnew := hupdate (some { data with balance := data.balance + value })
      rw [hm] at hnew hheld
      have hsum : (data.balance + value).toNat = data.balance.toNat + value.toNat := by
        change data.balance.toNat ≤ _ at hheld
        rw [BitVec.toNat_add, Nat.mod_eq_of_lt (by omega)]
      change _ + data.balance.toNat = _ + (data.balance + value).toNat at hnew
      dsimp only
      omega

theorem total_call {i : Input} (hmoves : Moves addresses i) (hfits : m.total addresses < 2 ^ 256) :
    (m.call c i).total addresses = m.total addresses := by
  cases i with
  | addBalance a amount => exact hmoves.elim
  | subBalance a amount => exact hmoves.elim
  | setBalance a amount => exact hmoves.elim
  | kill a => exact hmoves.elim
  | transferBalance source target value =>
    unfold AccountMap.call
    dsimp only
    cases htransfer : m.transferBalance c source target value with
    | none => rfl
    | some m' => exact total_transfer hmoves.1 hmoves.2 hfits htransfer
  | createContract a => exact total_change (by intro data; rfl) (by rfl) a
  | incNonce a => exact total_change (by intro data; rfl) (by rfl) a
  | setNonce a nonce => exact total_change (by intro data; rfl) (by rfl) a
  | setStorage a location value => exact total_change (by intro data; rfl) (by rfl) a
  | setCode a code => exact total_change (by intro data; rfl) (by rfl) a
  | savepoint => rfl
  | rollback depth => rfl

theorem total_step {mr : MapRun} {i : Input} {sum : Nat} (hmoves : Moves addresses i) (hfits : sum < 2 ^ 256)
    (h : ∀ m ∈ mr.accounts :: mr.savepoints, m.total addresses = sum) :
    ∀ m ∈ ((accountMaps c).step mr i).accounts :: ((accountMaps c).step mr i).savepoints, m.total addresses = sum := by
  obtain ⟨hnow, hsaved⟩ := List.forall_mem_cons.mp h
  have hcall : (mr.accounts.call c i).total addresses = sum := (total_call hmoves (hnow ▸ hfits)).trans hnow
  cases i with
  | savepoint => exact List.forall_mem_cons.mpr ⟨hnow, h⟩
  | rollback depth =>
    unfold accountMaps
    dsimp only
    cases hdrop : mr.savepoints.drop depth with
    | nil => exact h
    | cons m older =>
      have hback : ∀ m' ∈ m :: older, m'.total addresses = sum := fun m' hm' =>
        hsaved m' (List.mem_of_mem_drop (hdrop ▸ hm'))
      exact List.forall_mem_cons.mpr ⟨hback m List.mem_cons_self, hback⟩
  | _ => exact List.forall_mem_cons.mpr ⟨hcall, hsaved⟩

end supply

/-- **Money is kept.**  A run of calls that make and destroy none keeps the sum of the
    balances that the getter returns, through savepoints and rollbacks, as long as the
    sum fits a balance. -/
theorem supply_kept (c : Config) (accounts : List Stored) (addresses : Finset Address) (is : List Input)
    (hmoves : ∀ i ∈ is, Moves addresses i)
    (hfits : (State.ofStorage c accounts).total c addresses < 2 ^ 256)
    (hrun : (states c).RunOk StepOk { state := .ofStorage c accounts } is) :
    ((states c).run { state := .ofStorage c accounts } is).state.total c addresses
      = (State.ofStorage c accounts).total c addresses := by
  have hstart := tracks_ofStorage (c := c) accounts
  rw [hstart.represents.total] at hfits ⊢
  rw [(hstart.run hrun).represents.total]
  have hall : ∀ (mr : MapRun), (∀ m ∈ mr.accounts :: mr.savepoints,
      m.total addresses = (AccountMap.ofStorage accounts).total addresses) →
      ((accountMaps c).run mr is).accounts.total addresses = (AccountMap.ofStorage accounts).total addresses := by
    clear hrun hstart
    induction is with
    | nil => exact fun mr h => h _ List.mem_cons_self
    | cons i is ih =>
      intro mr h
      exact ih (fun j hj => hmoves j (List.mem_cons_of_mem _ hj)) _ (total_step (hmoves i List.mem_cons_self) hfits h)
  exact hall _ fun m hm => by rw [List.mem_singleton.mp hm]

/-! ### Runs -/

theorem length_sevens : (List.replicate 20 (7 : UInt8)).length = 20 := rfl

def someAddress : Address := ⟨List.replicate 20 7, length_sevens⟩

/-- What is added after the savepoint is taken back. -/
theorem account_state_refines_rolled_back :
    Agrees (.twoHashes V2_8_0)
      ((states (.twoHashes V2_8_0)).run { state := .ofStorage (.twoHashes V2_8_0) [] }
        [.createContract someAddress, .savepoint, .addBalance someAddress 5, .rollback 0, .incNonce someAddress]).state
      ((accountMaps (.twoHashes V2_8_0)).run { accounts := .ofStorage [] }
        [.createContract someAddress, .savepoint, .addBalance someAddress 5, .rollback 0, .incNonce someAddress]).accounts :=
  account_state_refines (.twoHashes V2_8_0) (.inr (Nat.le_refl _)) [] _ (by decide +kernel)

theorem supply_kept_rolled_back :
    ((states (.twoHashes V2_8_0)).run { state := .ofStorage (.twoHashes V2_8_0) [⟨someAddress, 9, 0, [], []⟩] }
        [.savepoint, .transferBalance someAddress someAddress 4, .rollback 0, .incNonce someAddress]).state.total
        (.twoHashes V2_8_0) {someAddress}
      = (State.ofStorage (.twoHashes V2_8_0) [⟨someAddress, 9, 0, [], []⟩]).total (.twoHashes V2_8_0) {someAddress} :=
  supply_kept (.twoHashes V2_8_0) [⟨someAddress, 9, 0, [], []⟩] {someAddress} _
    (by
      intro i hi
      simp only [List.mem_cons, List.not_mem_nil, or_false] at hi
      rcases hi with rfl | rfl | rfl | rfl <;> simp [Moves])
    (by rw [State.total, Finset.sum_singleton]; exact BitVec.isLt _) (by decide +kernel)

/-- An account is in use after its creation was rolled back; and with 2.5.0 the hash of a new account's
    code is not that of the empty code. -/
theorem not_account_state_refines :
    ¬ Agrees (.twoHashes V2_8_0)
      ((states (.twoHashes V2_8_0)).run { state := .ofStorage (.twoHashes V2_8_0) [] }
        [.savepoint, .createContract someAddress, .rollback 0]).state
      ((accountMaps (.twoHashes V2_8_0)).run { accounts := .ofStorage [] }
        [.savepoint, .createContract someAddress, .rollback 0]).accounts ∧
    ¬ Agrees (.twoHashes V2_5_0)
      ((states (.twoHashes V2_5_0)).run { state := .ofStorage (.twoHashes V2_5_0) [] } [.createContract someAddress]).state
      ((accountMaps (.twoHashes V2_5_0)).run { accounts := .ofStorage [] } [.createContract someAddress]).accounts :=
  ⟨fun h => absurd (h.addressInUse someAddress) (by decide +kernel),
    fun h => absurd (h.codeHash someAddress) (by decide +kernel)⟩

end HieraChain.StorageState
