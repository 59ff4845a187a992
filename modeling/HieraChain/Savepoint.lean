/-
  HieraChain/Savepoint.lean
  =========================
  **Rolling back to a savepoint.**

  From any reachable factory, after calls that each leave no trace but what
  their records undo (`CallOk`), rolling back to the savepoint gives the selects,
  the dumps and the hash that the factory had (`rollback_restores`).  A call
  that turns a row of the storage into a dirty row is not such a call: the row
  stays dirty after the rollback and is dumped (`rollback_keeps_dirty`).
-/
import HieraChain.StateHash
import HieraChain.TableRollback

namespace HieraChain.Storage

open HieraChain.BigEndian MemoryTableFactory2 MemoryTable2 StateHash

namespace Savepoint

variable {H : Type} {c : StateHasher H} {env : Env} {f f' g h : MemoryTableFactory2 H}

/-! ### Calls and reachable factories -/

/-- The calls that are rolled back.  Inserted entries come from `newEntry`,
    which leaves the id at zero. -/
inductive Call
  | createTable (tableName keyField valueField : Bytes) (authorityFlag : Bool) (origin : Nat)
  | insert (tableName key : Bytes) (entry : Entry) (hnew : entry.id = 0) (options : AccessOptions)
  | update (tableName key : Bytes) (entry : Entry) (condition : Condition) (options : AccessOptions)
  | remove (tableName key : Bytes) (condition : Condition) (options : AccessOptions)

def perform (c : StateHasher H) (env : Env) (f : MemoryTableFactory2 H) : Call → MemoryTableFactory2 H
  | .createTable tableName keyField valueField authorityFlag origin =>
    (createTable c env f tableName keyField valueField authorityFlag origin).2
  | .insert tableName key entry _ options => (f.insert tableName key entry options).2
  | .update tableName key entry condition options =>
    (f.update env tableName key entry condition options).2
  | .remove tableName key condition options => (f.remove env tableName key condition options).2

def run (c : StateHasher H) (env : Env) (f : MemoryTableFactory2 H) (calls : List Call) :
    MemoryTableFactory2 H := calls.foldl (perform c env) f

def Distinct (env : Env) : Prop := ∀ info, RowsDistinct (env.stateStorage info)

/-- A factory in use; `dump` is one table's part of `hash`, `commitDB` or a dump. -/
inductive Reachable (c : StateHasher H) : MemoryTableFactory2 H → Prop
  | start : Reachable c {}
  | openTable (env : Env) (f : MemoryTableFactory2 H) (tableName : Bytes) (authorityFlag : Bool) :
    Reachable c f → Reachable c (openTable c env f tableName authorityFlag).2
  | perform (env : Env) (f : MemoryTableFactory2 H) (call : Call) :
    Distinct env → Reachable c f → Reachable c (perform c env f call)
  | dump (f : MemoryTableFactory2 H) (name : Bytes) (t : MemoryTable2 H) (data : Option TableData)
    (hash : H) : Reachable c f → f.name2Table.find? name = some t → t.Dump c.toHasher data hash →
      Reachable c (f.setTable name (dumped t data hash))
  | rollback (f : MemoryTableFactory2 H) (savepoint : Nat) :
    Reachable c f → Reachable c (f.rollback savepoint)
  | commit (f : MemoryTableFactory2 H) : Reachable c f → Reachable c f.commit
  | commitDB (f : MemoryTableFactory2 H) : Reachable c f → Reachable c f.commitDB

/-! ### What later calls can see -/

/-- The open tables, their selects and dumps and the hash of the factory are the
    same. -/
structure Same (c : StateHasher H) (env : Env) (g h : MemoryTableFactory2 H) : Prop where
  tables : ∀ name, Option.Rel (fun tg th => th.info = tg.info
    ∧ (∀ key condition, selectIn env th key condition = selectIn env tg key condition)
    ∧ SameDumps c.toHasher tg th) (g.name2Table.find? name) (h.name2Table.find? name)
  hash : ∀ data hash, h.Hash c env data hash ↔ g.Hash c env data hash

/-! ### Calls that leave no trace -/

def InsertOk (c : StateHasher H) (env : Env) (t : MemoryTable2 H) (entry : Entry)
    (options : AccessOptions) : Prop :=
  Accepted t.info options → checkField t.info entry = .ok () → Settled c.toHasher env.version t

def UpdateOk (c : StateHasher H) (env : Env) (t : MemoryTable2 H) (key : Bytes) (entry : Entry)
    (condition : Condition) (options : AccessOptions) : Prop :=
  Accepted t.info options → checkField t.info entry = .ok () → Settled c.toHasher env.version t
    ∧ ∀ s ∈ t.selectNoLock env.version (env.stateStorage t.info) key condition, s.place ≠ .backend
      ∧ ∀ f ∈ updatedFields t.info entry, s.entry.fields.contains f.1 = true

def RemoveOk (c : StateHasher H) (env : Env) (t : MemoryTable2 H) (key : Bytes)
    (condition : Condition) (options : AccessOptions) : Prop :=
  Accepted t.info options → Settled c.toHasher env.version t
    ∧ ∀ s ∈ t.selectNoLock env.version (env.stateStorage t.info) key condition,
      s.place ≠ .backend ∧ s.entry.status = 0

/-- The call leaves no trace but what its records undo.  A table is created only
    when that opens none: its row is there, or the caller may not, or the name
    is open already. -/
def CallOk (c : StateHasher H) (env : Env) (f : MemoryTableFactory2 H) : Call → Prop
  | .createTable tableName _ _ authorityFlag origin =>
    ∃ sys, f.name2Table.find? SYS_TABLES = some sys
      ∧ (selectIn env sys tableName {} = [] → Accepted sys.info { origin, check := authorityFlag } →
          f.name2Table.contains tableName = true ∧ Settled c.toHasher env.version sys)
  | .insert tableName _ entry _ options =>
    ∀ t, f.name2Table.find? tableName = some t → InsertOk c env t entry options
  | .update tableName key entry condition options =>
    ∀ t, f.name2Table.find? tableName = some t → UpdateOk c env t key entry condition options
  | .remove tableName key condition options =>
    ∀ t, f.name2Table.find? tableName = some t → RemoveOk c env t key condition options

def AllOk (c : StateHasher H) (env : Env) : MemoryTableFactory2 H → List Call → Prop
  | _, [] => True
  | f, call :: calls => CallOk c env f call ∧ AllOk c env (perform c env f call) calls

/-! ### Well-formed factories -/

def FactoryWf (f : MemoryTableFactory2 H) : Prop :=
  ∀ name t, f.name2Table.find? name = some t → t.info.name = name ∧ t.Wf

theorem wf_fresh (info : TableInfo) (hash : H) : ({ info, hash } : MemoryTable2 H).Wf where
  dirty := nofun
  new := nofun

theorem FactoryWf.setTable (hwf : FactoryWf f) {name : Bytes} {t : MemoryTable2 H}
    (hname : t.info.name = name) (ht : t.Wf) : FactoryWf (f.setTable name t) := by
  intro name' t' hfind
  rw [MemoryTableFactory2.setTable, AssocMap.find?_insert] at hfind
  split at hfind
  next heq =>
    cases hfind
    exact ⟨hname.trans heq.symm, ht⟩
  next => exact hwf name' t' hfind

structure Opened (f f' : MemoryTableFactory2 H) : Prop where
  log : f'.changeLog = f.changeLog
  tables : ∀ name t, f'.name2Table.find? name = some t → f.name2Table.find? name = some t
    ∨ ∃ hash, t = { info := t.info, hash } ∧ t.info.name = name

theorem Opened.refl (f : MemoryTableFactory2 H) : Opened f f := ⟨rfl, fun _ _ h => Or.inl h⟩

theorem Opened.setTable (h : Opened f f') {name : Bytes} {info : TableInfo} (hname : info.name = name)
    (hash : H) : Opened f (f'.setTable name { info, hash }) where
  log := h.log
  tables := by
    intro name' t hfind
    rw [MemoryTableFactory2.setTable, AssocMap.find?_insert] at hfind
    split at hfind
    next heq =>
      cases hfind
      exact Or.inr ⟨hash, rfl, hname.trans heq.symm⟩
    next => exact h.tables name' t hfind

theorem Opened.trans {f'' : MemoryTableFactory2 H} (h : Opened f f') (h' : Opened f' f'') : Opened f f'' where
  log := h'.log.trans h.log
  tables := by
    intro name t hfind
    rcases h'.tables name t hfind with hold | hnew
    · exact h.tables name t hold
    · exact Or.inr hnew

theorem FactoryWf.opened (hwf : FactoryWf f) (h : Opened f f') : FactoryWf f' := by
  intro name t hfind
  rcases h.tables name t hfind with hold | ⟨hash, heq, hname⟩
  · exact hwf name t hold
  · refine ⟨hname, ?_⟩
    rw [heq]
    exact wf_fresh _ _

theorem getSysTableInfo_name (name : Bytes) : (getSysTableInfo name).name = name := by
  simp only [getSysTableInfo, apply_ite TableInfo.name, ite_self]

theorem opened_openAccessTable (c : StateHasher H) (env : Env) (f : MemoryTableFactory2 H)
    (authorityFlag : Bool) :
    Opened f (openAccessTable c env f authorityFlag).2 := by
  have hname : (withSystemFields (getSysTableInfo SYS_ACCESS_TABLE)).name = SYS_ACCESS_TABLE :=
    getSysTableInfo_name _
  rw [openAccessTable]
  split
  next => exact Opened.refl f
  next =>
    dsimp only
    split
    next =>
      split
      next =>
        refine (Opened.refl f).setTable ?_ _
        exact hname
      next => exact Opened.refl f
    next => exact (Opened.refl f).setTable hname _

theorem opened_setAuthorizedAddress (c : StateHasher H) (env : Env) (f : MemoryTableFactory2 H)
    (info : TableInfo) :
    Opened f (setAuthorizedAddress c env f info).2
      ∧ ∀ info', (setAuthorizedAddress c env f info).1 = .ok info' → info'.name = info.name := by
  have hopened := opened_openAccessTable c env f true
  rw [setAuthorizedAddress]
  cases hopen : openAccessTable c env f true with
  | mk result f₁ =>
    rw [hopen] at hopened
    cases result with
    | error e => exact ⟨hopened, nofun⟩
    | ok b =>
      dsimp only
      cases f₁.name2Table.find? SYS_ACCESS_TABLE with
      | none =>
        refine ⟨hopened, fun info' heq => ?_⟩
        cases heq
        rfl
      | some access =>
        dsimp only
        cases authorized env.blockNum (selectIn env access info.name {}) with
        | error e => exact ⟨hopened, nofun⟩
        | ok addresses =>
          refine ⟨hopened, fun info' heq => ?_⟩
          cases heq
          rfl

theorem opened_addTable (c : StateHasher H) (env : Env) (f : MemoryTableFactory2 H)
    (info : TableInfo) (authorityFlag : Bool) :
    Opened f (addTable c env f info authorityFlag).2 := by
  obtain ⟨hopened, hname⟩ := opened_setAuthorizedAddress c env f (withSystemFields info)
  rw [addTable]
  split
  next =>
    cases hset : setAuthorizedAddress c env f (withSystemFields info) with
    | mk result f₁ =>
      rw [hset] at hopened hname
      cases result with
      | error e => exact hopened
      | ok info' => exact hopened.setTable (hname info' rfl) _
  next => exact (Opened.refl f).setTable rfl _

theorem opened_openSysTable (c : StateHasher H) (env : Env) (f : MemoryTableFactory2 H)
    (tableName : Bytes) (authorityFlag : Bool) :
    Opened f (openSysTable c env f tableName authorityFlag).2 := by
  rw [openSysTable]
  split
  next => exact Opened.refl f
  next =>
    split
    next => exact opened_openAccessTable c env f authorityFlag
    next => exact opened_addTable c env f _ authorityFlag

/-- **Opening a table adds fresh tables at most.** -/
theorem opened_openTable (c : StateHasher H) (env : Env) (f : MemoryTableFactory2 H)
    (tableName : Bytes) (authorityFlag : Bool) :
    Opened f (openTable c env f tableName authorityFlag).2 := by
  rw [openTable]
  split
  next => exact Opened.refl f
  next =>
    split
    next => exact opened_openSysTable c env f tableName authorityFlag
    next =>
      have hopened := opened_openSysTable c env f SYS_TABLES true
      cases hopen : openSysTable c env f SYS_TABLES true with
      | mk result f₁ =>
        rw [hopen] at hopened
        cases result with
        | error e => exact hopened
        | ok b =>
          dsimp only
          cases f₁.name2Table.find? SYS_TABLES with
          | none => exact hopened
          | some sys =>
            dsimp only
            cases selectIn env sys tableName {} with
            | nil => exact hopened
            | cons entry entries => exact hopened.trans (opened_addTable c env f₁ _ authorityFlag)

theorem openTable_of_contains {tableName : Bytes} (h : f.name2Table.contains tableName = true)
    (authorityFlag : Bool) : openTable c env f tableName authorityFlag = (.ok true, f) := by
  rw [openTable, if_pos h]

/-! ### What a call does -/

theorem callTable_cases {tableName : Bytes}
    {call : MemoryTable2 H → Except InvalidArgument (Result H)} :
    (f.callTable tableName call).2 = f ∨ ∃ t r, f.name2Table.find? tableName = some t
      ∧ call t = .ok r ∧ (f.callTable tableName call).2 = (f.setTable tableName r.2.1).record r.2.2 := by
  rw [callTable]
  cases hfind : f.name2Table.find? tableName with
  | none => exact Or.inl rfl
  | some t =>
    dsimp only
    cases hcall : call t with
    | error e => exact Or.inl rfl
    | ok r => exact Or.inr ⟨t, r, rfl, hcall, rfl⟩

theorem FactoryWf.callTable (hwf : FactoryWf f) {tableName : Bytes}
    {call : MemoryTable2 H → Except InvalidArgument (Result H)}
    (hcall : ∀ t r, t.Wf → call t = .ok r → r.2.1.info = t.info ∧ r.2.1.Wf) :
    FactoryWf (f.callTable tableName call).2 := by
  rcases callTable_cases (f := f) with hsame | ⟨t, r, hfind, hok, heq⟩
  · rw [hsame]
    exact hwf
  · rw [heq]
    obtain ⟨hname, ht⟩ := hwf tableName t hfind
    obtain ⟨hinfo, hr⟩ := hcall t r ht hok
    rw [← hinfo] at hname
    exact hwf.setTable hname hr

theorem FactoryWf.createTable (hwf : FactoryWf f) (tableName keyField valueField : Bytes)
    (authorityFlag : Bool) (origin : Nat) :
    FactoryWf (createTable c env f tableName keyField valueField authorityFlag origin).2 := by
  have hopened := opened_openTable c env f SYS_TABLES authorityFlag
  rw [MemoryTableFactory2.createTable]
  cases hopen : openTable c env f SYS_TABLES authorityFlag with
  | mk result f₁ =>
    rw [hopen] at hopened
    have hwf₁ := hwf.opened hopened
    cases result with
    | error e => exact hwf₁
    | ok b =>
      dsimp only
      cases hfind : f₁.name2Table.find? SYS_TABLES with
      | none => exact hwf₁
      | some sys =>
        dsimp only
        obtain ⟨hname, hsys⟩ := hwf₁ SYS_TABLES sys hfind
        split
        next =>
          cases hinsert : sys.insert tableName (tableEntry tableName keyField valueField)
              { origin, check := authorityFlag } with
          | error e => exact hwf₁
          | ok r =>
            dsimp only
            split
            next => exact hwf₁
            next =>
              obtain ⟨hinfo, hr⟩ := hsys.insert rfl hinsert
              rw [← hinfo] at hname
              have hset : FactoryWf ((f₁.setTable SYS_TABLES r.2.1).record r.2.2) := hwf₁.setTable hname hr
              exact hset.opened (opened_openTable c env _ tableName authorityFlag)
        next => exact hwf₁

theorem FactoryWf.perform (hwf : FactoryWf f) (hdb : Distinct env) (call : Call) :
    FactoryWf (perform c env f call) := by
  cases call with
  | createTable tableName keyField valueField authorityFlag origin =>
    exact hwf.createTable tableName keyField valueField authorityFlag origin
  | insert tableName key entry hnew options =>
    exact hwf.callTable fun t r ht h => ht.insert hnew h
  | update tableName key entry condition options =>
    exact hwf.callTable fun t r ht h => ht.update (hdb t.info) h
  | remove tableName key condition options =>
    exact hwf.callTable fun t r ht h => ht.remove (hdb t.info) h

theorem FactoryWf.undo (hwf : FactoryWf f) (change : Option Change) : FactoryWf (f.undo change) := by
  cases change with
  | none => exact hwf
  | some change =>
    rw [MemoryTableFactory2.undo]
    cases hfind : f.name2Table.find? change.table with
    | none => exact hwf
    | some t =>
      obtain ⟨hname, ht⟩ := hwf change.table t hfind
      rw [← info_rollback t change] at hname
      exact hwf.setTable hname (ht.rollback change)

theorem FactoryWf.undoAll (hwf : FactoryWf f) (changes : List (Option Change)) :
    FactoryWf (f.undoAll changes) := by
  induction changes generalizing f with
  | nil => exact hwf
  | cons change changes ih =>
    have hundo : FactoryWf { f.undo change with changeLog := f.changeLog.tail } := hwf.undo change
    exact ih hundo

theorem wf_of_reachable (h : Reachable c f) : FactoryWf f := by
  induction h with
  | start => exact nofun
  | openTable env f tableName authorityFlag _ ih => exact ih.opened (opened_openTable c env f tableName authorityFlag)
  | perform env f call hdb _ ih => exact ih.perform hdb call
  | dump f name t data hash _ hfind _ ih =>
    obtain ⟨hname, ht⟩ := ih name t hfind
    have hdumped : (dumped t data hash).Wf := ⟨ht.dirty, ht.new⟩
    exact ih.setTable hname hdumped
  | rollback f savepoint _ ih => exact ih.undoAll _
  | commit f _ ih => exact ih
  | commitDB f _ _ => exact nofun

/-! ### Factories that are back -/

structure FactoryBack (c : StateHasher H) (version : Nat) (g h : MemoryTableFactory2 H) : Prop where
  log : h.changeLog = g.changeLog
  tables : ∀ name, Option.Rel (Back c.toHasher version) (g.name2Table.find? name) (h.name2Table.find? name)

theorem FactoryBack.refl (c : StateHasher H) (version : Nat) (f : MemoryTableFactory2 H) :
    FactoryBack c version f f where
  log := rfl
  tables := by
    intro name
    cases f.name2Table.find? name with
    | none => exact Option.Rel.none
    | some t => exact Option.Rel.some (Back.refl _ _ t)

theorem FactoryBack.trans {version : Nat} {k : MemoryTableFactory2 H} (h₁ : FactoryBack c version g h)
    (h₂ : FactoryBack c version h k) : FactoryBack c version g k where
  log := h₂.log.trans h₁.log
  tables := by
    intro name
    have hgh := h₁.tables name
    have hhk := h₂.tables name
    generalize g.name2Table.find? name = tg at hgh ⊢
    generalize h.name2Table.find? name = th at hgh hhk
    generalize k.name2Table.find? name = tk at hhk ⊢
    cases hgh with
    | none =>
      cases hhk with
      | none => exact Option.Rel.none
    | some hgh =>
      cases hhk with
      | some hhk => exact Option.Rel.some (hgh.trans hhk)

theorem FactoryBack.undo {version : Nat} (hback : FactoryBack c version g h) (change : Option Change)
    (hdirty : ∀ ch t, change = some ch → g.name2Table.find? ch.table = some t → t.hashDirty = true) :
    FactoryBack c version (g.undoAll [change]) (h.undoAll [change]) where
  log := congrArg List.tail hback.log
  tables := by
    cases change with
    | none => exact hback.tables
    | some change =>
      intro name
      have hchanged := hback.tables change.table
      have hname := hback.tables name
      simp only [undoAll, List.foldl_cons, List.foldl_nil, MemoryTableFactory2.undo]
      cases hg : g.name2Table.find? change.table with
      | none =>
        rw [hg] at hchanged
        cases hh : h.name2Table.find? change.table with
        | none => exact hname
        | some th =>
          rw [hh] at hchanged
          cases hchanged
      | some tg =>
        rw [hg] at hchanged
        cases hh : h.name2Table.find? change.table with
        | none =>
          rw [hh] at hchanged
          cases hchanged
        | some th =>
          rw [hh] at hchanged
          cases hchanged with
          | some hrel =>
            simp only [MemoryTableFactory2.setTable, AssocMap.find?_insert]
            split
            next => exact Option.Rel.some (hrel.rollback (hdirty change tg rfl hg) change)
            next => exact hname

/-! ### One call, undone -/

/-- A call either changes nothing, or one table in a way that can be undone. -/
inductive Traceless (c : StateHasher H) (version : Nat) (f f' : MemoryTableFactory2 H) : Prop
  | same : f' = f → Traceless c version f f'
  | changed (name : Bytes) (t t' : MemoryTable2 H) (changes : List Change) :
    f.name2Table.find? name = some t → f' = (f.setTable name t').record changes →
    Undoable c.toHasher version t t' changes → Traceless c version f f'

theorem traceless_callTable {tableName : Bytes}
    {call : MemoryTable2 H → Except InvalidArgument (Result H)}
    (h : ∀ t r, f.name2Table.find? tableName = some t → call t = .ok r →
      Undoable c.toHasher env.version t r.2.1 r.2.2) :
    Traceless c env.version f (f.callTable tableName call).2 := by
  rcases callTable_cases (f := f) with hsame | ⟨t, r, hfind, hok, heq⟩
  · exact Traceless.same hsame
  · exact Traceless.changed tableName t r.2.1 r.2.2 hfind heq (h t r hfind hok)

theorem insert_code {t : MemoryTable2 H} {key : Bytes} {entry : Entry} {options : AccessOptions}
    {r : Result H} (h : t.insert key entry options = .ok r) (hcode : r.1 ≠ CODE_NO_AUTHORIZED) :
    Accepted t.info options := by
  rw [MemoryTable2.insert] at h
  split at h
  next =>
    cases h
    exact absurd rfl hcode
  next haccepted => simpa [Accepted] using haccepted

theorem traceless_createTable {tableName keyField valueField : Bytes} {authorityFlag : Bool} {origin : Nat}
    (hok : CallOk c env f (.createTable tableName keyField valueField authorityFlag origin)) :
    Traceless c env.version f (createTable c env f tableName keyField valueField authorityFlag origin).2 := by
  obtain ⟨sys, hfind, hcreate⟩ := hok
  have hopen : f.name2Table.contains SYS_TABLES = true := by rw [AssocMap.contains, hfind]; rfl
  rw [MemoryTableFactory2.createTable, openTable_of_contains hopen]
  simp only [hfind]
  split
  next hempty =>
    have hnone := List.isEmpty_iff.mp hempty
    cases hinsert : sys.insert tableName (tableEntry tableName keyField valueField)
        { origin, check := authorityFlag } with
    | error e => exact Traceless.same rfl
    | ok r =>
      dsimp only
      split
      next => exact Traceless.same rfl
      next hcode =>
        obtain ⟨hname, hsettled⟩ := hcreate hnone (insert_code hinsert hcode)
        have hcontains : ((f.setTable SYS_TABLES r.2.1).record r.2.2).name2Table.contains tableName = true := by
          simp only [MemoryTableFactory2.record, MemoryTableFactory2.setTable, AssocMap.contains,
            AssocMap.find?_insert]
          split
          · rfl
          · exact hname
        rw [openTable_of_contains hcontains]
        exact Traceless.changed SYS_TABLES sys r.2.1 r.2.2 hfind rfl
          (insert_undoable hinsert fun _ _ => hsettled)
  next => exact Traceless.same rfl

/-- **A call that meets its condition leaves no trace.** -/
theorem traceless_perform (hwf : FactoryWf f) (hdb : Distinct env) {call : Call} (hok : CallOk c env f call) :
    Traceless c env.version f (perform c env f call) := by
  cases call with
  | createTable tableName keyField valueField authorityFlag origin => exact traceless_createTable hok
  | insert tableName key entry hnew options =>
    exact traceless_callTable fun t r hfind h => insert_undoable h (hok t hfind)
  | update tableName key entry condition options =>
    exact traceless_callTable fun t r hfind h =>
      update_undoable (hwf tableName t hfind).2 (hdb t.info) h (hok t hfind)
  | remove tableName key condition options =>
    exact traceless_callTable fun t r hfind h =>
      remove_undoable (hwf tableName t hfind).2 (hdb t.info) h (hok t hfind)

theorem setTable_back {version : Nat} {name : Bytes} {t t' : MemoryTable2 H}
    (hfind : f.name2Table.find? name = some t) (hback : Back c.toHasher version t t')
    (hlog : h.changeLog = f.changeLog)
    (htables : ∀ name', h.name2Table.find? name' = if name' = name then some t' else f.name2Table.find? name') :
    FactoryBack c version f h where
  log := hlog
  tables := by
    intro name'
    rw [htables]
    split
    next heq =>
      rw [heq, hfind]
      exact Option.Rel.some hback
    next => exact (FactoryBack.refl c version f).tables name'

theorem Traceless.undo (hwf : FactoryWf f) {version : Nat} (hcall : Traceless c version f f') :
    ∃ changes : List (Option Change), f'.changeLog = changes ++ f.changeLog
      ∧ ∀ k, FactoryBack c version f' k → FactoryBack c version f (k.undoAll changes) := by
  cases hcall with
  | same heq =>
    subst heq
    exact ⟨[], rfl, fun k hk => hk⟩
  | changed name t t' changes hfind heq hundo =>
    subst heq
    have hname := (hwf name t hfind).1
    cases hundo with
    | unchanged heq =>
      subst heq
      refine ⟨[], rfl, fun k hk => FactoryBack.trans ?_ hk⟩
      refine setTable_back hfind (Back.refl _ _ _) rfl fun name' => ?_
      exact AssocMap.find?_insert _ _ _ _
    | @changed change htable hinfo hdirty hback =>
      refine ⟨[some change], rfl, fun k hk => ?_⟩
      have htableName : change.table = name := htable.trans hname
      have hafter : ∀ ch t'', some change = some ch →
          ((f.setTable name t').record [change]).name2Table.find? ch.table = some t'' →
          t''.hashDirty = true := by
        intro ch t'' hch hfind'
        cases hch
        simp only [MemoryTableFactory2.record, MemoryTableFactory2.setTable, htableName,
          AssocMap.find?_insert_self, Option.some.injEq] at hfind'
        rw [← hfind']
        exact hdirty
      refine FactoryBack.trans ?_ (hk.undo (some change) hafter)
      refine setTable_back hfind hback rfl fun name' => ?_
      simp only [undoAll, List.foldl_cons, List.foldl_nil, MemoryTableFactory2.undo,
        MemoryTableFactory2.record, MemoryTableFactory2.setTable, htableName, AssocMap.find?_insert_self,
        AssocMap.find?_insert]
      split
      · rfl
      · rfl

/-! ### Runs of calls, undone -/

theorem undoAll_append (f : MemoryTableFactory2 H) (changes changes' : List (Option Change)) :
    f.undoAll (changes ++ changes') = (f.undoAll changes).undoAll changes' :=
  List.foldl_append

/-- **Undoing the changes of a run of calls brings the factory back.** -/
theorem run_back (hdb : Distinct env) {calls : List Call} (hwf : FactoryWf g) (hok : AllOk c env g calls) :
    ∃ changes : List (Option Change), (run c env g calls).changeLog = changes ++ g.changeLog
      ∧ FactoryBack c env.version g ((run c env g calls).undoAll changes) := by
  induction calls generalizing g with
  | nil => exact ⟨[], rfl, FactoryBack.refl c env.version g⟩
  | cons call calls ih =>
    obtain ⟨hcall, hrest⟩ := hok
    obtain ⟨later, hlog, hback⟩ := ih (hwf.perform hdb call) hrest
    obtain ⟨changes, hlogCall, hundo⟩ := (traceless_perform hwf hdb hcall).undo hwf
    refine ⟨later ++ changes, ?_, ?_⟩
    · rw [List.append_assoc, ← hlogCall]
      exact hlog
    · rw [undoAll_append]
      exact hundo _ hback

theorem rollback_eq_undoAll {changes log : List (Option Change)} (h : f.changeLog = changes ++ log) :
    f.rollback log.length = f.undoAll changes := by
  rw [MemoryTableFactory2.rollback, h, List.length_append, Nat.add_sub_cancel, List.take_left]

/-! ### What a factory that is back shows -/

theorem counted_iff {version : Nat} {name : Bytes} {t : MemoryTable2 H} :
    (name, t) ∈ f.tables version ↔ f.name2Table.find? name = some t
      ∧ t.info.enableConsensus = true ∧ (version < V2_5_0 ∨ t.dataDirty = true) := by
  rw [tables, List.mem_mergeSort, counted, List.mem_filter, AssocMap.mem_entries_iff]
  simp only [Bool.and_eq_true, Bool.or_eq_true, decide_eq_true_eq]

theorem sorted_tables (version : Nat) (f : MemoryTableFactory2 H) :
    ((f.tables version).map Prod.fst).Pairwise (· < ·) := by
  have hle : ((f.tables version).map Prod.fst).Pairwise (· ≤ ·) := by
    rw [List.pairwise_map, tables]
    refine (@List.pairwise_mergeSort _ (fun l r : Bytes × MemoryTable2 H => decide (l.1 ≤ r.1)) ?_ ?_
      _).imp fun h => of_decide_eq_true h
    · intro a b c hab hbc
      exact decide_eq_true (le_trans (of_decide_eq_true hab) (of_decide_eq_true hbc))
    · intro a b
      simp only [Bool.or_eq_true, decide_eq_true_eq]
      exact le_total _ _
  have hnodup : ((f.tables version).map Prod.fst).Nodup := by
    have hsub : ((f.counted version).map Prod.fst).Nodup :=
      f.name2Table.nodup.sublist (List.filter_sublist.map Prod.fst)
    exact ((List.mergeSort_perm _ _).map Prod.fst).nodup_iff.mpr hsub
  exact (hle.and hnodup).imp fun h => lt_of_le_of_ne h.1 h.2

theorem forall₂_of_map_fst {α β γ : Type} {l : List (α × β)} {l' : List (α × γ)}
    {R : α × β → α × γ → Prop} (hnames : l.map Prod.fst = l'.map Prod.fst)
    (hR : ∀ x ∈ l, ∀ y ∈ l', x.1 = y.1 → R x y) : List.Forall₂ R l l' := by
  induction l generalizing l' with
  | nil =>
    cases l' with
    | nil => exact List.Forall₂.nil
    | cons y l' => cases hnames
  | cons x l ih =>
    cases l' with
    | nil => cases hnames
    | cons y l' =>
      simp only [List.map_cons, List.cons.injEq] at hnames
      refine List.Forall₂.cons (hR x List.mem_cons_self y List.mem_cons_self hnames.1) (ih hnames.2 ?_)
      intro z hz w hw
      exact hR z (List.mem_cons_of_mem _ hz) w (List.mem_cons_of_mem _ hw)

theorem FactoryBack.tables_forall₂ (hback : FactoryBack c env.version g h) :
    List.Forall₂ (fun tg th => Back c.toHasher env.version tg.2 th.2) (g.tables env.version)
      (h.tables env.version) := by
  have hnames : ∀ name, name ∈ (g.tables env.version).map Prod.fst
      ↔ name ∈ (h.tables env.version).map Prod.fst := by
    intro name
    simp only [List.mem_map, Prod.exists, exists_and_right, exists_eq_right]
    have hrel := hback.tables name
    constructor
    · rintro ⟨tg, hmem⟩
      obtain ⟨hfind, hcons, hcount⟩ := counted_iff.mp hmem
      rw [hfind] at hrel
      cases hh : h.name2Table.find? name with
      | none =>
        rw [hh] at hrel
        cases hrel
      | some th =>
        rw [hh] at hrel
        cases hrel with
        | some hb =>
          refine ⟨th, counted_iff.mpr ⟨hh, by rw [hb.info]; exact hcons, ?_⟩⟩
          rcases hb.dataDirty with heq | ⟨htrue, -⟩
          · rw [heq]
            exact hcount
          · exact Or.inr htrue
    · rintro ⟨th, hmem⟩
      obtain ⟨hfind, hcons, hcount⟩ := counted_iff.mp hmem
      rw [hfind] at hrel
      cases hg : g.name2Table.find? name with
      | none =>
        rw [hg] at hrel
        cases hrel
      | some tg =>
        rw [hg] at hrel
        cases hrel with
        | some hb =>
          rw [hb.info] at hcons
          refine ⟨tg, counted_iff.mpr ⟨hg, hcons, ?_⟩⟩
          rcases hb.dataDirty with heq | ⟨-, hversion⟩
          · rw [← heq]
            exact hcount
          · exact Or.inl (hversion hcons)
  have hsg := sorted_tables env.version g
  have hsh := sorted_tables env.version h
  have hperm := (List.perm_ext_iff_of_nodup (hsg.imp ne_of_lt) (hsh.imp ne_of_lt)).mpr hnames
  have heq := List.Perm.eq_of_pairwise (fun a b _ _ hab hba => absurd hba (lt_asymm hab)) hsg hsh hperm
  apply forall₂_of_map_fst heq
  rintro ⟨name, tg⟩ htg ⟨name', th⟩ hth hname
  obtain rfl : name = name' := hname
  have hrel := hback.tables name
  rw [(counted_iff.mp htg).1, (counted_iff.mp hth).1] at hrel
  cases hrel with
  | some hb => exact hb

theorem hashes_iff {lg lh : List (Bytes × MemoryTable2 H)} {version : Nat}
    (hback : List.Forall₂ (fun tg th => Back c.toHasher version tg.2 th.2) lg lh) (hashes : List H) :
    List.Forall₂ (fun t x => ∃ d, MemoryTable2.Dump c.toHasher t.2 d x) lh hashes
      ↔ List.Forall₂ (fun t x => ∃ d, MemoryTable2.Dump c.toHasher t.2 d x) lg hashes := by
  induction hback generalizing hashes with
  | nil => exact Iff.rfl
  | @cons tg th lg lh hb _ ih =>
    obtain ⟨hforth, hback'⟩ := hb.sameDumps
    cases hashes with
    | nil =>
      constructor
      · intro h
        cases h
      · intro h
        cases h
    | cons x hashes =>
      rw [List.forall₂_cons, List.forall₂_cons, ih]
      refine and_congr_left fun _ => ⟨?_, ?_⟩
      · rintro ⟨d, hd⟩
        obtain ⟨d', hd', -⟩ := hforth d x hd
        exact ⟨d', hd'⟩
      · rintro ⟨d, hd⟩
        obtain ⟨d', hd', -⟩ := hback' d x hd
        exact ⟨d', hd'⟩

/-- **A factory that is back shows what it showed.** -/
theorem FactoryBack.same (hback : FactoryBack c env.version g h) : Same c env g h where
  tables := by
    intro name
    have hrel := hback.tables name
    generalize g.name2Table.find? name = tg at hrel ⊢
    generalize h.name2Table.find? name = th at hrel ⊢
    cases hrel with
    | none => exact Option.Rel.none
    | some hb =>
      refine Option.Rel.some ⟨hb.info, fun key condition => ?_, hb.sameDumps⟩
      simp only [selectIn, MemoryTable2.select, hb.info, hb.selectNoLock_eq]
  hash := by
    intro data hash
    simp only [Hash, hashes_iff hback.tables_forall₂]

/-- **Rolling back to a savepoint undoes calls that leave no other trace.** -/
theorem rollback_restores {H : Type} {c : StateHasher H} {env : Env} {f : MemoryTableFactory2 H}
    (hdb : Distinct env) (hreach : Reachable c f) {calls : List Call} (hok : AllOk c env f calls) :
    Same c env f ((run c env f calls).rollback f.savepoint) := by
  obtain ⟨changes, hlog, hback⟩ := run_back hdb (wf_of_reachable hreach) hok
  rw [MemoryTableFactory2.savepoint, rollback_eq_undoAll hlog]
  exact hback.same

/-! ### Runs on a small table -/

theorem distinct_smallEnv : Distinct smallEnv := by
  intro info db key condition rows hdb hrows
  cases hdb
  simp only [Option.some.injEq] at hrows
  subst hrows
  split
  next => exact ⟨List.nodup_singleton _, by simp⟩
  next =>
    split
    next => exact ⟨List.nodup_singleton _, by simp [row]⟩
    next => exact ⟨List.nodup_nil, by simp⟩

def valueEntry (value : Bytes) : Entry := ({} : Entry).setField valueField value

def oneRow : MemoryTableFactory2 Hash32 := inserted tName (ascii ['b']) (ascii ['1'])

theorem reachable_oneRow : Reachable shortHasher oneRow :=
  Reachable.perform smallEnv (opened tName) (.insert tName (ascii ['b']) (valueEntry (ascii ['1'])) rfl {})
    distinct_smallEnv (Reachable.openTable smallEnv {} tName true Reachable.start)

def marked (f : MemoryTableFactory2 Hash32) : Bool :=
  (f.name2Table.find? tName).all fun t => t.hashDirty && t.dataDirty

theorem settled_of_marked {f : MemoryTableFactory2 Hash32} (h : marked f = true) {t : MemoryTable2 Hash32}
    (ht : f.name2Table.find? tName = some t) : Settled shortHasher.toHasher smallEnv.version t := by
  rw [marked, ht, Option.all_some, Bool.and_eq_true] at h
  exact ⟨fun _ _ => h.2, Or.inl h.1⟩

/-- The rows of a select are inserted rows with the field `v` and the status zero. -/
def selectsInserted (f : MemoryTableFactory2 Hash32) (key : Bytes) : Bool :=
  (f.name2Table.find? tName).all fun t =>
    (t.selectNoLock smallEnv.version (smallEnv.stateStorage t.info) key {}).all fun s =>
      decide (s.place ≠ .backend ∧ s.entry.status = 0)
        && (updatedFields t.info (valueEntry (ascii ['3']))).all fun f => s.entry.fields.contains f.1

theorem selectsInserted_iff {f : MemoryTableFactory2 Hash32} {key : Bytes} (h : selectsInserted f key = true)
    {t : MemoryTable2 Hash32} (ht : f.name2Table.find? tName = some t) :
    ∀ s ∈ t.selectNoLock smallEnv.version (smallEnv.stateStorage t.info) key {},
      (s.place ≠ .backend ∧ s.entry.status = 0)
        ∧ ∀ f ∈ updatedFields t.info (valueEntry (ascii ['3'])), s.entry.fields.contains f.1 = true := by
  rw [selectsInserted, ht, Option.all_some, List.all_eq_true] at h
  intro s hs
  have hrow := h s hs
  rw [Bool.and_eq_true, decide_eq_true_iff, List.all_eq_true] at hrow
  exact hrow

def smallCalls : List Call :=
  [.insert tName (ascii ['c']) (valueEntry (ascii ['2'])) rfl {},
    .update tName (ascii ['c']) (valueEntry (ascii ['3'])) {} {}, .remove tName (ascii ['c']) {} {}]

theorem rollback_restores_small :
    Same shortHasher smallEnv oneRow ((run shortHasher smallEnv oneRow smallCalls).rollback oneRow.savepoint) := by
  have hchecks : marked oneRow = true
      ∧ marked (run shortHasher smallEnv oneRow (smallCalls.take 1)) = true
      ∧ marked (run shortHasher smallEnv oneRow (smallCalls.take 2)) = true
      ∧ selectsInserted (run shortHasher smallEnv oneRow (smallCalls.take 1)) (ascii ['c']) = true
      ∧ selectsInserted (run shortHasher smallEnv oneRow (smallCalls.take 2)) (ascii ['c']) = true := by
    decide +kernel
  obtain ⟨h₀, h₁, h₂, hupdate, hremove⟩ := hchecks
  apply rollback_restores distinct_smallEnv reachable_oneRow
  refine ⟨fun t ht _ _ => settled_of_marked h₀ ht, ?_, ?_, trivial⟩
  · intro t ht _ _
    refine ⟨settled_of_marked h₁ ht, fun s hs => ?_⟩
    obtain ⟨hrow, hfields⟩ := selectsInserted_iff hupdate ht s hs
    exact ⟨hrow.1, hfields⟩
  · intro t ht _
    exact ⟨settled_of_marked h₂ ht, fun s hs => (selectsInserted_iff hremove ht s hs).1⟩

def storedUpdate : Call := .update tName (ascii ['a']) (valueEntry (ascii ['3'])) {} {}

def undone : MemoryTableFactory2 Hash32 :=
  (run shortHasher smallEnv oneRow [storedUpdate]).rollback oneRow.savepoint

/-- **The row of the storage stays dirty after the rollback, and is dumped.** -/
theorem rollback_keeps_dirty :
    Reachable shortHasher oneRow ∧ Distinct smallEnv ∧ ¬ Same shortHasher smallEnv oneRow undone := by
  refine ⟨reachable_oneRow, distinct_smallEnv, fun hsame => ?_⟩
  have hchecks : (oneRow.name2Table.find? tName).all (fun t => t.info.enableConsensus && t.dirtyRows.isEmpty)
        && (oneRow.name2Table.find? tName).isSome && marked oneRow && marked undone
        && (undone.name2Table.find? tName).all (fun t => !t.dirtyRows.isEmpty) = true := by
    decide +kernel
  simp only [Bool.and_eq_true, marked] at hchecks
  obtain ⟨⟨⟨⟨hempty, hopen⟩, hmarked⟩, hmarked'⟩, hdirty⟩ := hchecks
  obtain ⟨tg, hg⟩ := Option.isSome_iff_exists.mp hopen
  have hrel := hsame.tables tName
  cases hh : undone.name2Table.find? tName with
  | none =>
    rw [hg, hh] at hrel
    cases hrel
  | some th =>
    rw [hg, hh] at hrel
    rw [hg, Option.all_some, Bool.and_eq_true] at hempty hmarked
    rw [hh, Option.all_some, Bool.and_eq_true] at hmarked'
    rw [hh, Option.all_some] at hdirty
    cases hrel with
    | some hrel =>
      obtain ⟨-, -, hforth, -⟩ := hrel
      obtain ⟨d, hash, hcomp⟩ := exists_computes shortHasher.toHasher th
      have hdump : th.Dump shortHasher.toHasher (some d) hash := by
        rw [Dump, hmarked'.1, if_pos rfl]
        exact ⟨d, rfl, hcomp⟩
      obtain ⟨data', hdump', hrel'⟩ := hforth (some d) hash hdump
      rw [Dump, hmarked.1, if_pos rfl] at hdump'
      obtain ⟨d', rfl, hcomp'⟩ := hdump'
      cases hrel' with
      | some hsameDump =>
        have hlists := hsameDump.2
        rw [hempty.1, if_pos rfl] at hlists
        have hnone := hcomp'.dirtyEntries
        have hsome := hcomp.dirtyEntries
        rw [List.isEmpty_iff.mp hempty.2] at hnone
        rw [← hlists.1, hnone.eq_nil] at hsome
        rw [hsome.symm.eq_nil] at hdirty
        cases hdirty

end Savepoint

end HieraChain.Storage
