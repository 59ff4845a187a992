/-
  HieraChain/AccountSetters.lean
  ==============================
  **The setters of the state keep what it represents.**

  Every setter writes rows of one account's table, or creates the table
  (`Writes`), so the other accounts keep their rows.  What the account itself
  has afterwards is said row by row, and each setter is one of a few updates.
-/
import HieraChain.AccountMap

namespace HieraChain.StorageState

open HieraChain.BigEndian HieraChain.Storage HieraChain.Account

/-! ### Writing rows -/

namespace State

/-- What `createTable` leaves where it succeeds. -/
def create (s : State) (table : Bytes) : State :=
  { s.insert SYS_TABLES table (ascii "value".toList) with opened := Function.update s.opened table true }

theorem select_insert (s : State) (table key value table' key' : Bytes) :
    (s.insert table key value).select table' key' =
      if table' = table ∧ key' = key then s.select table key ++ [value] else s.select table' key' := by
  unfold select insert
  rw [UndoLog.Log.select_insert]
  simp only [Prod.mk.injEq]

theorem select_update (s : State) (table key value table' key' : Bytes) :
    (s.update table key value).select table' key' =
      if table' = table ∧ key' = key then (s.select table key).map fun _ => value else s.select table' key' := by
  unfold select update
  rw [UndoLog.Log.select_update]
  simp only [Prod.mk.injEq]

theorem select_create (s : State) (table table' key' : Bytes) :
    (s.create table).select table' key' =
      if table' = SYS_TABLES ∧ key' = table then s.select SYS_TABLES table ++ [ascii "value".toList]
      else s.select table' key' :=
  s.select_insert SYS_TABLES table _ table' key'

@[simp] theorem opened_insert (s : State) (table key value : Bytes) : (s.insert table key value).opened = s.opened := rfl

@[simp] theorem opened_update (s : State) (table key value : Bytes) : (s.update table key value).opened = s.opened := rfl

theorem opened_create (s : State) (table : Bytes) : (s.create table).opened = Function.update s.opened table true := rfl

theorem createTable_of_nil {s : State} {table : Bytes} (h : s.select SYS_TABLES table = []) :
    s.createTable table = some (s.create table) := by
  rw [createTable, if_pos (List.isEmpty_iff.mpr h)]
  rfl

theorem createTable_of_ne {s : State} {table : Bytes} (h : s.select SYS_TABLES table ≠ []) :
    s.createTable table = none := by
  rw [createTable, List.isEmpty_eq_false_iff.mpr h]
  rfl

end State

variable {c : Config} {s s' : State} {address other : Address} {data : Data}

theorem getTable_eq {table : Bytes} (h : s.getTable c address = some table) : table = tableName c address := by
  unfold State.getTable at h
  split at h
  · exact (Option.some.inj h).symm
  · cases h

/-- Rows are written to the table of the account, or the table is created. -/
inductive Writes (c : Config) (address : Address) (s : State) : State → Prop
  | refl : Writes c address s s
  | insert {s' : State} (h : Writes c address s s') (key value : Bytes) :
      Writes c address s (s'.insert (tableName c address) key value)
  | update {s' : State} (h : Writes c address s s') (key value : Bytes) :
      Writes c address s (s'.update (tableName c address) key value)
  | create {s' : State} (h : Writes c address s s') : Writes c address s (s'.create (tableName c address))

theorem Writes.opened (h : Writes c address s s') {table : Bytes} (htable : table ≠ tableName c address) :
    s'.opened table = s.opened table := by
  induction h with
  | refl => rfl
  | insert h key value ih => exact ih
  | update h key value ih => exact ih
  | create h ih =>
    rw [State.opened_create, Function.update_of_ne htable]
    exact ih

theorem Writes.select (h : Writes c address s s') {table key : Bytes} (htable : table ≠ tableName c address)
    (hsys : ¬ (table = SYS_TABLES ∧ key = tableName c address)) : s'.select table key = s.select table key := by
  induction h with
  | refl => rfl
  | insert h _ _ ih => rw [State.select_insert, if_neg fun heq => htable heq.1, ih]
  | update h _ _ ih => rw [State.select_update, if_neg fun heq => htable heq.1, ih]
  | create h ih => rw [State.select_create, if_neg hsys, ih]

theorem HoldsAt.congr {x : Option Data} (h : HoldsAt c s other x)
    (hopened : s'.opened (tableName c other) = s.opened (tableName c other))
    (hsys : s'.select SYS_TABLES (tableName c other) = s.select SYS_TABLES (tableName c other))
    (hrows : ∀ key, s'.select (tableName c other) key = s.select (tableName c other) key) :
    HoldsAt c s' other x := by
  cases x with
  | none =>
    exact {
      closed := hopened.trans h.closed
      undescribed := hsys.trans h.undescribed
      empty := fun key => (hrows key).trans (h.empty key) }
  | some data =>
    exact {
      described := by
        rw [hsys]
        exact h.described
      balance := (hrows _).trans h.balance
      nonce := (hrows _).trans h.nonce
      code := (hrows _).trans h.code
      codeHash := (hrows _).trans h.codeHash
      slots := fun key => by
        rw [hrows]
        exact h.slots key }

theorem Writes.holdsAt (h : Writes c address s s') (hne : other ≠ address) {x : Option Data}
    (hat : HoldsAt c s other x) : HoldsAt c s' other x := by
  have hname : tableName c other ≠ tableName c address := fun heq => hne (tableName_injective c heq)
  apply hat.congr
  · exact h.opened hname
  · exact h.select (tableName_ne c address).symm fun heq => hname heq.2
  · exact fun key => h.select hname fun heq => tableName_ne c other heq.1

/-- **Writing to one account changes the map there.** -/
theorem Represents.write {m : AccountMap} (h : Represents c s m) (hwrites : Writes c address s s')
    {x : Option Data} (hat : HoldsAt c s' address x) : Represents c s' (Function.update m address x) := by
  intro other
  by_cases hother : other = address
  · subst hother
    rw [Function.update_self]
    exact hat
  · rw [Function.update_of_ne hother]
    exact hwrites.holdsAt hother (h other)

/-! ### What the setters write -/

section
variable (c : Config) (s : State) (address : Address)

theorem createAccount_writes (nonce amount : U256) : Writes c address s (s.createAccount c address nonce amount) := by
  unfold State.createAccount
  by_cases hsys : s.select SYS_TABLES (tableName c address) = []
  · rw [State.createTable_of_nil hsys]
    exact (((((Writes.refl.create.insert _ _).insert _ _).insert _ _).insert _ _).insert _ _)
  · rw [State.createTable_of_ne hsys]
    exact .refl

theorem addBalance_writes (amount : U256) : Writes c address s (s.addBalance c address amount) := by
  unfold State.addBalance
  split
  · exact .refl
  · split
    · next table htable =>
      rw [getTable_eq htable]
      split
      · exact .update .refl _ _
      · exact .refl
    · exact createAccount_writes ..

theorem subBalance_writes (amount : U256) : Writes c address s (leaves s (s.subBalance c address amount)) := by
  unfold State.subBalance
  split
  · next table htable =>
    rw [getTable_eq htable]
    split
    · split
      · exact .refl
      · exact .update .refl _ _
    · exact .refl
  · exact .refl

theorem setBalance_writes (amount : U256) : Writes c address s (s.setBalance c address amount) := by
  unfold State.setBalance
  split
  · next table htable =>
    rw [getTable_eq htable]
    split
    · exact .update .refl _ _
    · exact .refl
  · exact createAccount_writes ..

theorem incNonce_writes : Writes c address s (s.incNonce c address) := by
  unfold State.incNonce
  split
  · next table htable =>
    rw [getTable_eq htable]
    split
    · exact .update .refl _ _
    · exact .refl
  · exact createAccount_writes ..

theorem setNonce_writes (nonce : U256) : Writes c address s (s.setNonce c address nonce) := by
  unfold State.setNonce
  split
  · next table htable =>
    rw [getTable_eq htable]
    exact .update .refl _ _
  · exact createAccount_writes ..

theorem setStorage_writes (location value : U256) : Writes c address s (s.setStorage c address location value) := by
  unfold State.setStorage
  split
  · next table htable =>
    rw [getTable_eq htable]
    split
    · exact .insert .refl _ _
    · exact .update .refl _ _
  · exact .refl

theorem setCode_writes (code : Bytes) : Writes c address s (s.setCode c address code) := by
  unfold State.setCode
  split
  · next table htable =>
    rw [getTable_eq htable]
    exact (Writes.refl.update _ _).update _ _
  · exact .refl

theorem kill_writes : Writes c address s (s.kill c address) := by
  unfold State.kill
  split
  · next table htable =>
    rw [getTable_eq htable]
    exact ((((Writes.refl.update _ _).update _ _).update _ _).update _ _).update _ _
  · exact .refl

end

/-! ### The account's rows afterwards -/

section
variable (s)

theorem update_sys (key value key' : Bytes) :
    (s.update (tableName c address) key value).select SYS_TABLES key' = s.select SYS_TABLES key' := by
  rw [State.select_update, if_neg fun heq => tableName_ne c address heq.1.symm]

theorem update_same (table key value : Bytes) :
    (s.update table key value).select table key = (s.select table key).map fun _ => value := by
  rw [State.select_update, if_pos ⟨rfl, rfl⟩]

theorem update_ne {table key value key' : Bytes} (hne : key' ≠ key) :
    (s.update table key value).select table key' = s.select table key' := by
  rw [State.select_update, if_neg fun heq => hne heq.2]

end

theorem Holds.update_balance (h : Holds c s address data) (balance : U256) :
    Holds c (s.update (tableName c address) ACCOUNT_BALANCE (str balance)) address { data with balance } where
  described := by
    rw [update_sys]
    exact h.described
  balance := by
    rw [update_same, h.balance]
    rfl
  nonce := by
    rw [update_ne _ (by decide)]
    exact h.nonce
  code := by
    rw [update_ne _ (by decide)]
    exact h.code
  codeHash := by
    rw [update_ne _ (by decide)]
    exact h.codeHash
  slots key := by
    rw [update_ne _ (str_ne key (by decide))]
    exact h.slots key

theorem Holds.update_nonce (h : Holds c s address data) (nonce : U256) :
    Holds c (s.update (tableName c address) ACCOUNT_NONCE (str nonce)) address { data with nonce } where
  described := by
    rw [update_sys]
    exact h.described
  balance := by
    rw [update_ne _ (by decide)]
    exact h.balance
  nonce := by
    rw [update_same, h.nonce]
    rfl
  code := by
    rw [update_ne _ (by decide)]
    exact h.code
  codeHash := by
    rw [update_ne _ (by decide)]
    exact h.codeHash
  slots key := by
    rw [update_ne _ (str_ne key (by decide))]
    exact h.slots key

theorem Holds.update_code (h : Holds c s address data) (code : Bytes) :
    Holds c ((s.update (tableName c address) ACCOUNT_CODE (bytesField c code)).update (tableName c address)
      ACCOUNT_CODE_HASH (bytesField c (c.hash code))) address { data with code } where
  described := by
    rw [update_sys, update_sys]
    exact h.described
  balance := by
    rw [update_ne _ (by decide), update_ne _ (by decide)]
    exact h.balance
  nonce := by
    rw [update_ne _ (by decide), update_ne _ (by decide)]
    exact h.nonce
  code := by
    rw [update_ne _ (by decide), update_same, h.code]
    rfl
  codeHash := by
    rw [update_same, update_ne _ (by decide), h.codeHash]
    rfl
  slots key := by
    rw [update_ne _ (str_ne key (by decide)), update_ne _ (str_ne key (by decide))]
    exact h.slots key

theorem Holds.update_alive (h : Holds c s address data) (value : Bytes) :
    Holds c (s.update (tableName c address) ACCOUNT_ALIVE value) address data where
  described := by
    rw [update_sys]
    exact h.described
  balance := by
    rw [update_ne _ (by decide)]
    exact h.balance
  nonce := by
    rw [update_ne _ (by decide)]
    exact h.nonce
  code := by
    rw [update_ne _ (by decide)]
    exact h.code
  codeHash := by
    rw [update_ne _ (by decide)]
    exact h.codeHash
  slots key := by
    rw [update_ne _ (str_ne key (by decide))]
    exact h.slots key

theorem Holds.put_slot (h : Holds c s address data) {location value : U256}
    (hsys : s'.select SYS_TABLES (tableName c address) = s.select SYS_TABLES (tableName c address))
    (hslot : s'.select (tableName c address) (str location) = [str value])
    (hothers : ∀ key, key ≠ str location → s'.select (tableName c address) key = s.select (tableName c address) key) :
    Holds c s' address { data with storage := Function.update data.storage location value } where
  described := by
    rw [hsys]
    exact h.described
  balance := (hothers _ (str_ne location (by decide)).symm).trans h.balance
  nonce := (hothers _ (str_ne location (by decide)).symm).trans h.nonce
  code := (hothers _ (str_ne location (by decide)).symm).trans h.code
  codeHash := (hothers _ (str_ne location (by decide)).symm).trans h.codeHash
  slots key := by
    by_cases hkey : key = location
    · subst hkey
      left
      rw [hslot]
      dsimp only
      rw [Function.update_self]
    · rw [hothers _ fun heq => hkey (str_injective heq)]
      dsimp only
      rw [Function.update_of_ne hkey]
      exact h.slots key

theorem Holds.setStorage (h : Holds c s address data) (location value : U256) :
    Holds c (s.setStorage c address location value) address
      { data with storage := Function.update data.storage location value } := by
  unfold State.setStorage
  rw [h.getTable]
  dsimp only
  split
  · next hempty =>
    apply h.put_slot
    · rw [State.select_insert, if_neg fun heq => tableName_ne c address heq.1.symm]
    · rw [State.select_insert, if_pos ⟨rfl, rfl⟩, List.isEmpty_iff.mp hempty, List.nil_append]
    · intro key hne
      rw [State.select_insert, if_neg fun heq => hne heq.2]
  · next hsome =>
    apply h.put_slot
    · exact update_sys ..
    · rcases h.slots location with hslot | ⟨hslot, _⟩
      · rw [update_same, hslot]
        rfl
      · exact absurd (List.isEmpty_iff.mpr hslot) hsome
    · exact fun key hne => update_ne s hne

section
variable (s)

theorem insert_sys (key value key' : Bytes) :
    (s.insert (tableName c address) key value).select SYS_TABLES key' = s.select SYS_TABLES key' := by
  rw [State.select_insert, if_neg fun heq => tableName_ne c address heq.1.symm]

theorem insert_same {table key : Bytes} (value : Bytes) (h : s.select table key = []) :
    (s.insert table key value).select table key = [value] := by
  rw [State.select_insert, if_pos ⟨rfl, rfl⟩, h, List.nil_append]

theorem insert_ne {table key value key' : Bytes} (hne : key' ≠ key) :
    (s.insert table key value).select table key' = s.select table key' := by
  rw [State.select_insert, if_neg fun heq => hne heq.2]

end

theorem Missing.createAccount (h : Missing c s address) (nonce amount : U256) :
    Holds c (s.createAccount c address nonce amount) address (.fresh nonce amount) := by
  unfold State.createAccount
  rw [State.createTable_of_nil h.undescribed]
  dsimp only
  have hrow : ∀ key, (s.create (tableName c address)).select (tableName c address) key = [] := by
    intro key
    rw [State.select_create, if_neg fun heq => tableName_ne c address heq.1]
    exact h.empty key
  have hsys : (s.create (tableName c address)).select SYS_TABLES (tableName c address) ≠ [] := by
    rw [State.select_create, if_pos ⟨rfl, rfl⟩]
    exact List.append_ne_nil_of_right_ne_nil _ (List.cons_ne_nil _ _)
  generalize s.create (tableName c address) = created at hrow hsys
  constructor
  case described =>
    rw [insert_sys, insert_sys, insert_sys, insert_sys, insert_sys]
    exact hsys
  case balance =>
    rw [insert_ne _ (by decide), insert_ne _ (by decide), insert_ne _ (by decide), insert_ne _ (by decide)]
    exact insert_same _ _ (hrow _)
  case codeHash =>
    rw [insert_ne _ (by decide), insert_ne _ (by decide), insert_ne _ (by decide)]
    apply insert_same
    rw [insert_ne _ (by decide)]
    exact hrow _
  case code =>
    rw [insert_ne _ (by decide), insert_ne _ (by decide)]
    apply insert_same
    rw [insert_ne _ (by decide), insert_ne _ (by decide)]
    exact hrow _
  case nonce =>
    rw [insert_ne _ (by decide)]
    apply insert_same
    rw [insert_ne _ (by decide), insert_ne _ (by decide), insert_ne _ (by decide)]
    exact hrow _
  case slots =>
    intro key
    right
    refine ⟨?_, rfl⟩
    rw [insert_ne _ (str_ne key (by decide)), insert_ne _ (str_ne key (by decide)), insert_ne _ (str_ne key (by decide)),
      insert_ne _ (str_ne key (by decide)), insert_ne _ (str_ne key (by decide))]
    exact hrow _

/-! ### The setters -/

section
variable {m : AccountMap}

theorem change_some (hm : m address = some data) (f : Data → Data) (missing : Option Data) :
    m.change address f missing = Function.update m address (some (f data)) := by
  unfold AccountMap.change
  rw [hm]

theorem change_none (hm : m address = none) (f : Data → Data) (missing : Option Data) :
    m.change address f missing = Function.update m address missing := by
  unfold AccountMap.change
  rw [hm]

theorem change_none_self (hm : m address = none) (f : Data → Data) : m.change address f none = m := by
  rw [change_none hm, ← hm, Function.update_eq_self]

theorem Represents.createAccount (h : Represents c s m) (hm : m address = none) (nonce amount : U256) :
    Represents c (s.createAccount c address nonce amount)
      (Function.update m address (some (.fresh nonce amount))) :=
  h.write (createAccount_writes ..) ((h.of_none hm).createAccount nonce amount)

theorem Represents.createContract (h : Represents c s m) (address : Address) :
    Represents c (s.createContract c address) (m.createContract c address) := by
  unfold State.createContract AccountMap.createContract
  cases hm : m address with
  | none =>
    rw [change_none hm]
    exact h.createAccount hm _ _
  | some data =>
    have hsame : s.createAccount c address c.accountStartNonce 0 = s := by
      unfold State.createAccount
      rw [State.createTable_of_ne (h.of_some hm).described]
    rw [hsame, change_some hm, id_eq, ← hm, Function.update_eq_self]
    exact h

theorem Represents.addBalance (h : Represents c s m) (address : Address) (amount : U256) :
    Represents c (s.addBalance c address amount) (m.addBalance c address amount) := by
  unfold State.addBalance AccountMap.addBalance
  split
  · exact h
  · cases hm : m address with
    | none =>
      rw [(h.of_none hm).getTable, change_none hm]
      exact h.createAccount hm _ _
    | some data =>
      have hat := h.of_some hm
      rw [hat.getTable, change_some hm]
      dsimp only
      rw [hat.balance, List.head?_cons]
      dsimp only
      rw [u256_str]
      exact h.write (Writes.refl.update _ _) (hat.update_balance _)

theorem Represents.subBalance (h : Represents c s m) (address : Address) (amount : U256) :
    match m.subBalance address amount with
    | some m' => ∃ s', s.subBalance c address amount = .ok s' ∧ Represents c s' m'
    | none => s.subBalance c address amount = .error .NotEnoughCash := by
  unfold AccountMap.subBalance
  cases hm : m address with
  | none => exact (h.of_none hm).subBalance amount
  | some data =>
    have hat := h.of_some hm
    rw [hat.subBalance]
    dsimp only
    split
    · next m' hm' =>
      split at hm'
      · cases hm'
      · next hle =>
        cases hm'
        rw [if_neg hle, change_some hm]
        exact ⟨_, rfl, h.write (Writes.refl.update _ _) (hat.update_balance _)⟩
    · next hm' =>
      split at hm'
      · next hlt => rw [if_pos hlt]
      · cases hm'

theorem Represents.setBalance (h : Represents c s m) (address : Address) (amount : U256) :
    Represents c (s.setBalance c address amount) (m.setBalance c address amount) := by
  unfold State.setBalance AccountMap.setBalance
  cases hm : m address with
  | none =>
    rw [(h.of_none hm).getTable, change_none hm]
    exact h.createAccount hm _ _
  | some data =>
    have hat := h.of_some hm
    rw [hat.getTable, change_some hm]
    dsimp only
    rw [hat.balance, List.head?_cons]
    exact h.write (Writes.refl.update _ _) (hat.update_balance _)

theorem Represents.incNonce (h : Represents c s m) (address : Address) :
    Represents c (s.incNonce c address) (m.incNonce c address) := by
  unfold State.incNonce AccountMap.incNonce
  cases hm : m address with
  | none =>
    rw [(h.of_none hm).getTable, change_none hm]
    exact h.createAccount hm _ _
  | some data =>
    have hat := h.of_some hm
    rw [hat.getTable, change_some hm]
    dsimp only
    rw [hat.nonce, List.head?_cons]
    dsimp only
    rw [u256_str]
    exact h.write (Writes.refl.update _ _) (hat.update_nonce _)

theorem Represents.setNonce (h : Represents c s m) (address : Address) (nonce : U256) :
    Represents c (s.setNonce c address nonce) (m.setNonce address nonce) := by
  unfold State.setNonce AccountMap.setNonce
  cases hm : m address with
  | none =>
    rw [(h.of_none hm).getTable, change_none hm]
    exact h.createAccount hm _ _
  | some data =>
    have hat := h.of_some hm
    rw [hat.getTable, change_some hm]
    exact h.write (Writes.refl.update _ _) (hat.update_nonce _)

theorem Represents.setStorage (h : Represents c s m) (address : Address) (location value : U256) :
    Represents c (s.setStorage c address location value) (m.setStorage address location value) := by
  unfold AccountMap.setStorage
  cases hm : m address with
  | none =>
    rw [change_none_self hm, State.setStorage, (h.of_none hm).getTable]
    exact h
  | some data =>
    rw [change_some hm]
    exact h.write (setStorage_writes ..) ((h.of_some hm).setStorage location value)

theorem Represents.setCode (h : Represents c s m) (address : Address) (code : Bytes) :
    Represents c (s.setCode c address code) (m.setCode address code) := by
  unfold State.setCode AccountMap.setCode
  cases hm : m address with
  | none =>
    rw [change_none_self hm, (h.of_none hm).getTable]
    exact h
  | some data =>
    have hat := h.of_some hm
    rw [change_some hm, hat.getTable]
    exact h.write ((Writes.refl.update _ _).update _ _) (hat.update_code code)

theorem Represents.kill (h : Represents c s m) (address : Address) :
    Represents c (s.kill c address) (m.kill c address) := by
  have hwrites := kill_writes c s address
  unfold State.kill AccountMap.kill at *
  cases hm : m address with
  | none =>
    rw [change_none_self hm, (h.of_none hm).getTable]
    exact h
  | some data =>
    have hat := h.of_some hm
    rw [hat.getTable] at hwrites
    rw [change_some hm, hat.getTable]
    apply h.write hwrites
    have hnonce := hat.update_nonce c.accountStartNonce
    have hcode := (hnonce.update_balance 0).update_code []
    exact hcode.update_alive _

theorem Represents.call (h : Represents c s m) (i : Input) : Represents c (s.call c i) (m.call c i) := by
  cases i with
  | createContract address => exact h.createContract address
  | addBalance address amount => exact h.addBalance address amount
  | subBalance address amount =>
    have hsub := h.subBalance address amount
    unfold State.call AccountMap.call
    dsimp only
    cases hm : m.subBalance address amount with
    | none =>
      rw [hm] at hsub
      rw [hsub]
      exact h
    | some m' =>
      rw [hm] at hsub
      obtain ⟨s', hs', hrep⟩ := hsub
      rw [hs']
      exact hrep
  | setBalance address amount => exact h.setBalance address amount
  | transferBalance source target value =>
    have hsub := h.subBalance source value
    unfold State.call AccountMap.call
    dsimp only
    unfold State.transferBalance AccountMap.transferBalance
    cases hm : m.subBalance source value with
    | none =>
      rw [hm] at hsub
      rw [hsub]
      exact h
    | some m' =>
      rw [hm] at hsub
      obtain ⟨s', hs', hrep⟩ := hsub
      rw [hs']
      exact hrep.addBalance target value
  | incNonce address => exact h.incNonce address
  | setNonce address nonce => exact h.setNonce address nonce
  | setStorage address location value => exact h.setStorage address location value
  | setCode address code => exact h.setCode address code
  | kill address => exact h.kill address
  | savepoint => exact h
  | rollback depth => exact h

end

end HieraChain.StorageState
