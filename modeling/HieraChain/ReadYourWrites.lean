/-
  HieraChain/ReadYourWrites.lean
  ==============================
  **A table under execution reads as the table with its changes applied.**

  The reference table (`RefTable`) has the rows of the storage with all updates
  and removals applied, and the inserted rows.  From version 2.5.0 on every run
  of calls on a fresh `MemoryTable2` gives what the reference table gives
  (`read_your_writes`): a select returns the matching rows, each once, cut to
  the limit, and an update or a removal changes the rows that a select returns.
  What matches is what the calls that made the condition leave to ask
  (`Satisfies`); the limit has numbers that fit an `int`.  Before 2.5.0 a select
  tests the condition on the storage's rows only (`select_before_changes`).
-/
import Mathlib.Data.List.Perm.Subperm
import HieraChain.Conditions
import HieraChain.TableRollback

namespace HieraChain.Storage

open HieraChain.BigEndian MemoryTable2

namespace ReadYourWrites

/-! ### The reference table -/

structure Query where
  asks : List Ask
  offset : Int := -1
  count : Int := -1

def Query.condition (q : Query) : Condition :=
  ({ offset := q.offset, count := q.count } : Condition).ask q.asks

def Query.cut {α : Type} (q : Query) (l : List α) : List α :=
  if 0 ≤ q.offset ∧ 0 ≤ q.count then (l.drop q.offset.toNat).take q.count.toNat else l

structure RefTable where
  stored : List Entry
  inserted : Bytes → List Entry

namespace RefTable

/-- The rows with their addresses: `dirty` with the id for a stored row, `new`
    with the index for an inserted row of the key. -/
def rows (ref : RefTable) (key : Bytes) : List Selected :=
  (ref.stored.map fun e => ⟨.dirty e.id, e⟩) ++ (ref.inserted key).zipIdx.map fun e => ⟨.new e.2, e.1⟩

/-- `selected` are the rows that satisfy the query, each once, cut to its limit. -/
def Selects (ref : RefTable) (info : TableInfo) (key : Bytes) (q : Query) (selected : List Selected) :
    Prop :=
  ∃ l : List Selected, (∀ s, s ∈ l ↔ s ∈ ref.rows key ∧ Satisfies info key q.asks s.entry)
    ∧ (l.map Selected.place).Nodup ∧ selected = q.cut l

def change (ref : RefTable) (key : Bytes) (selected : List Selected) (f : Entry → Entry) : RefTable where
  stored := ref.stored.map fun e => if Place.dirty e.id ∈ selected.map Selected.place then f e else e
  inserted key' :=
    if key' = key then
      (ref.inserted key).zipIdx.map fun e =>
        if Place.new e.2 ∈ selected.map Selected.place then f e.1 else e.1
    else ref.inserted key'

def insert (ref : RefTable) (key : Bytes) (e : Entry) : RefTable :=
  { ref with inserted := fun key' => if key' = key then ref.inserted key ++ [e] else ref.inserted key' }

end RefTable

/-! ### Calls -/

/-- Inserted entries come from `newEntry`, which leaves the id at zero. -/
inductive Call
  | select (key : Bytes) (q : Query)
  | insert (key : Bytes) (entry : Entry) (hnew : entry.id = 0) (options : AccessOptions)
  | update (key : Bytes) (entry : Entry) (q : Query) (options : AccessOptions)
  | remove (key : Bytes) (q : Query) (options : AccessOptions)

/-- What a call gives; an update or a removal also shows what a select returns
    in its place. -/
inductive Output
  | selected (entries : List Entry)
  | refused
  | invalid (e : InvalidArgument)
  | inserted
  | changed (number : Int) (entries : List Entry)

variable {H : Type}

def changeOutput (t : MemoryTable2 H) (entries : List Entry)
    (r : Except InvalidArgument (Result H)) : Output × MemoryTable2 H :=
  match r with
  | .error e => (.invalid e, t)
  | .ok r => if r.1 = CODE_NO_AUTHORIZED then (.refused, r.2.1) else (.changed r.1 entries, r.2.1)

def step (version : Nat) (db : RemoteDB) (t : MemoryTable2 H) : Call → Output × MemoryTable2 H
  | .select key q => (.selected (t.select version (some db) key q.condition), t)
  | .insert key entry _ options =>
    match t.insert key entry options with
    | .error e => (.invalid e, t)
    | .ok r => if r.1 = CODE_NO_AUTHORIZED then (.refused, r.2.1) else (.inserted, r.2.1)
  | .update key entry q options =>
    changeOutput t (t.select version (some db) key q.condition)
      (t.update version (some db) key entry q.condition options)
  | .remove key q options =>
    changeOutput t (t.select version (some db) key q.condition)
      (t.remove version (some db) key q.condition options)

def trace (version : Nat) (db : RemoteDB) (t : MemoryTable2 H) : List Call → List (Call × Output)
  | [] => []
  | call :: calls =>
    let r := step version db t call
    (call, r.1) :: trace version db r.2 calls

/-! ### Calls on the reference table -/

/-- A change of the rows that a select returns, unless the caller may not. -/
def ChangeStep (info : TableInfo) (ref : RefTable) (key : Bytes) (q : Query) (options : AccessOptions)
    (check : Except InvalidArgument Unit) (f : Entry → Entry) (out : Output) (ref' : RefTable) : Prop :=
  if Accepted info options then
    match check with
    | .error e => out = .invalid e ∧ ref' = ref
    | .ok _ => ∃ selected, ref.Selects info key q selected
      ∧ out = .changed selected.length (selected.map Selected.entry) ∧ ref' = ref.change key selected f
  else out = .refused ∧ ref' = ref

def RefStep (info : TableInfo) (ref : RefTable) (call : Call) (out : Output) (ref' : RefTable) : Prop :=
  match call with
  | .select key q => ∃ selected, ref.Selects info key q selected
      ∧ out = .selected (selected.map Selected.entry) ∧ ref' = ref
  | .insert key entry _ options =>
    if Accepted info options then
      match checkField info entry with
      | .error e => out = .invalid e ∧ ref' = ref
      | .ok _ => out = .inserted ∧ ref' = ref.insert key (entry.setField info.key key)
    else out = .refused ∧ ref' = ref
  | .update key entry q options =>
    ChangeStep info ref key q options (checkField info entry) (updatedEntry info entry) out ref'
  | .remove key q options =>
    ChangeStep info ref key q options (.ok ()) (fun e => e.setStatus Entry.DELETED) out ref'

def RefRun (info : TableInfo) : RefTable → List (Call × Output) → Prop
  | _, [] => True
  | ref, x :: rest => ∃ ref', RefStep info ref x.1 x.2 ref' ∧ RefRun info ref' rest

/-! ### The storage, and usual queries -/

structure StoreOk (store : List Entry) : Prop where
  distinct : (store.map Entry.id).Nodup
  ids : ∀ e ∈ store, e.id ≠ 0

def Returns (version : Nat) (info : TableInfo) (store : List Entry) (db : RemoteDB) : Prop :=
  ∀ key c, ∃ rows, db key c = some rows
    ∧ rows.Perm (store.filter fun e => decide (e.fields.find? info.key = some key) && c.process version e)

/-- The rows of the storage as the table has them now, and its inserted rows. -/
def abs (store : List Entry) (t : MemoryTable2 H) : RefTable where
  stored := store.map fun e => (t.dirty.find? e.id).getD e
  inserted := t.newOf

/-- The calls on each field are clear, and the numbers of the limit and of the
    rows fit an `int`. -/
structure Usual (ref : RefTable) (key : Bytes) (q : Query) : Prop where
  clear : Clear q.asks
  offset : -2 ^ 31 ≤ q.offset ∧ q.offset < 2 ^ 31
  count : -2 ^ 31 ≤ q.count ∧ q.count < 2 ^ 31
  rows : (ref.rows key).length < 2 ^ 31

def CallUsual (ref : RefTable) : Call → Prop
  | .select key q => Usual ref key q
  | .insert _ _ _ _ => True
  | .update key _ q _ => Usual ref key q
  | .remove key q _ => Usual ref key q

def AllUsual (version : Nat) (db : RemoteDB) (store : List Entry) : MemoryTable2 H → List Call → Prop
  | _, [] => True
  | t, call :: calls => CallUsual (abs store t) call
      ∧ AllUsual version db store (step version db t call).2 calls

/-! ### The invariant of a run -/

variable {version : Nat} {info : TableInfo} {store : List Entry} {db : RemoteDB} {t t' : MemoryTable2 H}
  {key : Bytes} {q : Query}

def updatedIds (t : MemoryTable2 H) (key : Bytes) : List Nat :=
  ((t.dirtyUpdated.find? key).map SortedMap.keys).getD []

structure Inv (info : TableInfo) (store : List Entry) (t : MemoryTable2 H) : Prop where
  info_eq : t.info = info
  wf : t.Wf
  /-- Dirty rows are rows of the storage and keep their key. -/
  dirty : ∀ id d, t.dirty.find? id = some d →
    ∃ e ∈ store, e.id = id ∧ d.fields.find? info.key = e.fields.find? info.key
  /-- A live dirty row is noted under its key. -/
  noted : ∀ id d key, t.dirty.find? id = some d → d.live = true →
    d.fields.find? info.key = some key → id ∈ updatedIds t key
  /-- What is noted is dirty. -/
  updated : ∀ key id, id ∈ updatedIds t key →
    ∃ d, t.dirty.find? id = some d ∧ d.fields.find? info.key = some key
  inserted : ∀ key, ∀ e ∈ t.newOf key, e.fields.find? info.key = some key

def current (t : MemoryTable2 H) (e : Entry) : Entry := (t.dirty.find? e.id).getD e

theorem Inv.current_id (h : Inv info store t) (e : Entry) : (current t e).id = e.id := by
  rw [current]
  cases hfind : t.dirty.find? e.id with
  | none => rfl
  | some d => exact (h.wf.dirty _ _ hfind).1

theorem mem_rows (hinv : Inv info store t) {s : Selected} :
    s ∈ (abs store t).rows key ↔ (∃ e ∈ store, s = ⟨.dirty e.id, current t e⟩)
      ∨ ∃ index e, (t.newOf key)[index]? = some e ∧ s = ⟨.new index, e⟩ := by
  simp only [RefTable.rows, abs, List.mem_append, List.mem_map, List.map_map, Prod.exists,
    List.mem_zipIdx_iff_getElem?]
  apply or_congr
  · constructor
    · rintro ⟨e, he, rfl⟩
      refine ⟨e, he, ?_⟩
      have hid := hinv.current_id e
      simp only [Function.comp_apply, Selected.mk.injEq, Place.dirty.injEq]
      exact ⟨hid, rfl⟩
    · rintro ⟨e, he, rfl⟩
      refine ⟨e, he, ?_⟩
      have hid := hinv.current_id e
      simp only [Function.comp_apply, Selected.mk.injEq, Place.dirty.injEq]
      exact ⟨hid, rfl⟩
  · constructor
    · rintro ⟨e, index, he, rfl⟩
      exact ⟨index, e, he, rfl⟩
    · rintro ⟨index, e, he, rfl⟩
      exact ⟨e, index, he, rfl⟩

theorem StoreOk.eq_of_id (h : StoreOk store) {e e' : Entry} (he : e ∈ store) (he' : e' ∈ store)
    (hid : e.id = e'.id) : e = e' :=
  List.inj_on_of_nodup_map h.distinct he he' hid

theorem Returns.rowsDistinct (hstore : StoreOk store) (hdb : Returns version info store db) :
    RowsDistinct (some db) := by
  intro db' key c rows hsome hrows
  cases hsome
  obtain ⟨rows', hrows', hperm⟩ := hdb key c
  rw [hrows] at hrows'
  cases hrows'
  constructor
  · rw [(hperm.map Entry.id).nodup_iff]
    exact hstore.distinct.sublist (List.filter_sublist.map Entry.id)
  · intro e he
    exact hstore.ids e (List.mem_filter.mp (hperm.mem_iff.mp he)).1

/-! ### What a select returns -/

def homed (s : Selected) : Selected := ⟨s.home, s.entry⟩

def Answers (version : Nat) (info : TableInfo) (store : List Entry) (key : Bytes) (q : Query)
    (rows : List Entry) : Prop :=
  rows.Perm (store.filter fun e => decide (e.fields.find? info.key = some key)
    && (q.condition.EQ info.key key).process version e)

theorem satisfies_iff (hversion : V2_5_0 ≤ version) (hclear : Clear q.asks) (e : Entry) :
    e.fields.find? info.key = some key ∧ (q.condition.EQ info.key key).process version e = true
      ↔ Satisfies info key q.asks e :=
  process_ask_iff (le_trans (by decide) hversion) hclear rfl info key e

theorem Answers.mem_iff (hversion : V2_5_0 ≤ version) (hclear : Clear q.asks) {rows : List Entry}
    (hrows : Answers version info store key q rows) (e : Entry) :
    e ∈ rows ↔ e ∈ store ∧ Satisfies info key q.asks e := by
  rw [List.Perm.mem_iff hrows, List.mem_filter, Bool.and_eq_true, decide_eq_true_iff,
    satisfies_iff hversion hclear]

theorem row_of_mem_merged (hstore : StoreOk store) (hinv : Inv info store t) (hversion : V2_5_0 ≤ version)
    (hclear : Clear q.asks) {rows : List Entry} (hrows : Answers version info store key q rows)
    {s : Selected} (hs : s ∈ merged version t key (q.condition.EQ info.key key) rows) :
    homed s ∈ (abs store t).rows key ∧ Satisfies info key q.asks s.entry := by
  have hmem := hrows.mem_iff hversion hclear
  rw [mem_rows hinv]
  rw [merged, List.mem_append, List.mem_append] at hs
  rcases hs with (hs | hs) | hs
  · rcases mem_selectBackend.mp hs with ⟨hplace, he, hnone⟩ | ⟨e, he, hplace, hfind, hprocess⟩
    · obtain ⟨hstored, hsat⟩ := (hmem _).mp he
      refine ⟨Or.inl ⟨s.entry, hstored, ?_⟩, hsat⟩
      simp [homed, Selected.home, hplace, current, hnone]
    · obtain ⟨hstored, hsat⟩ := (hmem _).mp he
      obtain ⟨e', he', hid, hkey⟩ := hinv.dirty _ _ hfind
      obtain rfl := hstore.eq_of_id he' hstored hid
      refine ⟨Or.inl ⟨e', hstored, ?_⟩, ?_⟩
      · simp [homed, Selected.home, hplace, current, hfind]
      · exact (satisfies_iff hversion hclear _).mp ⟨hkey.trans hsat.key, hprocess hversion⟩
  · obtain ⟨-, id, hid, -, hplace, hfind, hprocess⟩ := mem_selectUpdated.mp hs
    obtain ⟨d, hd, hkey⟩ := hinv.updated key id hid
    rw [hfind] at hd
    cases hd
    obtain ⟨e, he, rfl, -⟩ := hinv.dirty id _ hfind
    refine ⟨Or.inl ⟨e, he, ?_⟩, (satisfies_iff hversion hclear _).mp ⟨hkey, hprocess⟩⟩
    simp [homed, Selected.home, hplace, current, hfind]
  · obtain ⟨index, hplace, hget, hkeep⟩ := mem_selectNew.mp hs
    have hprocess : (q.condition.EQ info.key key).process version s.entry = true := by
      rw [Bool.or_eq_true, List.isEmpty_iff] at hkeep
      exact hkeep.resolve_left (EQ_conditions_ne_nil q.condition info.key key)
    have hkey := hinv.inserted key _ (List.mem_of_getElem? hget)
    refine ⟨Or.inr ⟨index, s.entry, hget, ?_⟩, (satisfies_iff hversion hclear _).mp ⟨hkey, hprocess⟩⟩
    simp [homed, Selected.home, hplace]

theorem mem_merged_of_row (hstore : StoreOk store) (hinv : Inv info store t) (hversion : V2_5_0 ≤ version)
    (hclear : Clear q.asks) {rows : List Entry} (hrows : Answers version info store key q rows)
    {s : Selected} (hs : s ∈ (abs store t).rows key) (hsat : Satisfies info key q.asks s.entry) :
    ∃ s' ∈ merged version t key (q.condition.EQ info.key key) rows, homed s' = s := by
  have hmem := hrows.mem_iff hversion hclear
  obtain ⟨hkey, hprocess⟩ := (satisfies_iff hversion hclear _).mpr hsat
  simp only [merged, List.mem_append]
  rcases (mem_rows hinv).mp hs with ⟨e, he, rfl⟩ | ⟨index, e, hget, rfl⟩
  · cases hfind : t.dirty.find? e.id with
    | none =>
      have hcurrent : current t e = e := by rw [current, hfind]; rfl
      simp only [hcurrent] at hsat ⊢
      have hreturned : e ∈ rows := (hmem e).mpr ⟨he, hsat⟩
      exact ⟨⟨.backend, e⟩, Or.inl (Or.inl (mem_selectBackend.mpr (Or.inl ⟨rfl, hreturned, hfind⟩))), rfl⟩
    | some d =>
      have hcurrent : current t e = d := by rw [current, hfind]; rfl
      simp only [hcurrent] at hsat hkey hprocess ⊢
      refine ⟨⟨.dirty e.id, d⟩, Or.inl ?_, rfl⟩
      by_cases hreturned : e ∈ rows
      · exact Or.inl (mem_selectBackend.mpr (Or.inr ⟨e, hreturned, rfl, hfind, fun _ => hprocess⟩))
      · have hnoted := hinv.noted _ _ _ hfind hsat.live hkey
        have hnot : e.id ∉ t.processed rows := by
          intro hprocessed
          obtain ⟨⟨e', he', hid⟩, -⟩ := (mem_processed hinv.wf).mp hprocessed
          exact hreturned (hstore.eq_of_id ((hmem e').mp he').1 he hid ▸ he')
        exact Or.inr (mem_selectUpdated.mpr ⟨hversion, e.id, hnoted, hnot, rfl, hfind, hprocess⟩)
  · refine ⟨⟨.new index, e⟩, Or.inr (mem_selectNew.mpr ⟨index, rfl, hget, ?_⟩), rfl⟩
    rw [hprocess, Bool.or_true]

/-! ### The limit -/

theorem ask_limit (c : Condition) (asks : List Ask) :
    (c.ask asks).offset = c.offset ∧ (c.ask asks).count = c.count := by
  induction asks generalizing c with
  | nil => exact ⟨rfl, rfl⟩
  | cons a asks ih =>
    have hadd : (c.add a).offset = c.offset ∧ (c.add a).count = c.count := by
      rw [Condition.add]
      cases a.op with
      | EQ => exact ⟨rfl, rfl⟩
      | NE => exact ⟨rfl, rfl⟩
      | GT => exact ⟨rfl, rfl⟩
      | GE => exact ⟨rfl, rfl⟩
      | LT => exact ⟨rfl, rfl⟩
      | LE => exact ⟨rfl, rfl⟩
    obtain ⟨hoffset, hcount⟩ := ih (c.add a)
    exact ⟨hoffset.trans hadd.1, hcount.trans hadd.2⟩

theorem bmod_int {n : Int} (h : -2 ^ 31 ≤ n ∧ n < 2 ^ 31) : Int.bmod n (2 ^ 32) = n :=
  Int.bmod_eq_of_le (by omega) (by omega)

theorem limited_eq_cut (info : TableInfo) (key : Bytes) (hversion : V2_5_0 ≤ version) (hoffset : -2 ^ 31 ≤ q.offset ∧ q.offset < 2 ^ 31)
    (hcount : -2 ^ 31 ≤ q.count ∧ q.count < 2 ^ 31) {l : List Selected} (hlength : l.length < 2 ^ 31) :
    limited version (q.condition.EQ info.key key) l = q.cut l := by
  have hgetOffset : (q.condition.EQ info.key key).getOffset = q.offset := by
    refine Eq.trans ?_ (bmod_int hoffset)
    exact congrArg (Int.bmod · (2 ^ 32)) (ask_limit _ _).1
  have hgetCount : (q.condition.EQ info.key key).getCount = q.count := by
    refine Eq.trans ?_ (bmod_int hcount)
    exact congrArg (Int.bmod · (2 ^ 32)) (ask_limit _ _).2
  have hnew : ¬ version < V2_1_0 := by
    have : V2_1_0 ≤ V2_5_0 := by decide
    omega
  simp only [limited, proccessLimit, hgetOffset, hgetCount, if_neg hnew, Query.cut]
  split
  next hlimit =>
    split
    next hbegin =>
      rw [List.drop_of_length_le (by omega), List.take_nil]
    next hbegin =>
      rw [List.drop_take]
      by_cases hsmall : q.offset + q.count ≤ 2 ^ 31 - 1
      · congr 1
        omega
      · -- Neither bound cuts off a row.
        rw [List.take_of_length_le, List.take_of_length_le]
        · rw [List.length_drop]
          omega
        · rw [List.length_drop]
          omega
  next => rfl

theorem cut_map {α β : Type} (q : Query) (f : α → β) (l : List α) : q.cut (l.map f) = (q.cut l).map f := by
  simp only [Query.cut]
  split
  · rw [List.map_take, List.map_drop]
  · rfl

/-! ### Selects -/

/-- **A select gives what the reference table selects.** -/
theorem selects (hstore : StoreOk store) (hdb : Returns version info store db)
    (hversion : V2_5_0 ≤ version) (hinv : Inv info store t) (husual : Usual (abs store t) key q) :
    (abs store t).Selects info key q ((t.selectNoLock version (some db) key q.condition).map homed) := by
  obtain ⟨rows, hrows, hperm⟩ := hdb key (q.condition.EQ info.key key)
  have hanswers : Answers version info store key q rows := hperm
  obtain ⟨hdistinct, hids⟩ := Returns.rowsDistinct hstore hdb db key _ rows rfl hrows
  have hplaces : (((merged version t key (q.condition.EQ info.key key) rows).map homed).map
      Selected.place).Nodup := by
    rw [List.map_map]
    exact nodup_homes_merged hinv.wf hdistinct hids
  have hsound : ∀ s ∈ merged version t key (q.condition.EQ info.key key) rows,
      homed s ∈ (abs store t).rows key ∧ Satisfies info key q.asks s.entry := fun s hs =>
    row_of_mem_merged hstore hinv hversion husual.clear hanswers hs
  have hlength : (merged version t key (q.condition.EQ info.key key) rows).length < 2 ^ 31 := by
    refine lt_of_le_of_lt ?_ husual.rows
    rw [← List.length_map homed]
    refine (List.Nodup.subperm hplaces.of_map fun s hs => ?_).length_le
    obtain ⟨s', hs', rfl⟩ := List.mem_map.mp hs
    exact (hsound s' hs').1
  refine ⟨(merged version t key (q.condition.EQ info.key key) rows).map homed, fun s => ?_, hplaces, ?_⟩
  · constructor
    · intro hs
      obtain ⟨s', hs', rfl⟩ := List.mem_map.mp hs
      exact hsound s' hs'
    · rintro ⟨hrow, hsat⟩
      obtain ⟨s', hs', rfl⟩ := mem_merged_of_row hstore hinv hversion husual.clear hanswers hrow hsat
      exact List.mem_map.mpr ⟨s', hs', rfl⟩
  · rw [cut_map, ← limited_eq_cut info key hversion husual.offset husual.count hlength]
    simp only [selectNoLock, hinv.info_eq, hrows]
    rfl

/-! ### Changes -/

/-- Selected entries are rows of the key, each once, where the table has them. -/
structure RowsOf (info : TableInfo) (store : List Entry) (t : MemoryTable2 H) (key : Bytes)
    (l : List Selected) : Prop where
  valid : ∀ s ∈ l, ValidAt t key s
  nodup : (l.map Selected.home).Nodup
  rows : ∀ s ∈ l, homed s ∈ (abs store t).rows key
  live : ∀ s ∈ l, s.entry.live = true
  keys : ∀ s ∈ l, s.entry.fields.find? info.key = some key

theorem rowsOf_select (hstore : StoreOk store) (hdb : Returns version info store db)
    (hversion : V2_5_0 ≤ version) (hinv : Inv info store t) (husual : Usual (abs store t) key q) :
    RowsOf info store t key (t.selectNoLock version (some db) key q.condition) := by
  have hdistinct := Returns.rowsDistinct hstore hdb
  obtain ⟨l, hmem, -, hcut⟩ := selects hstore hdb hversion hinv husual
  have hrow : ∀ s ∈ t.selectNoLock version (some db) key q.condition,
      homed s ∈ (abs store t).rows key ∧ Satisfies info key q.asks s.entry := by
    intro s hs
    have hcutMem : homed s ∈ q.cut l := by
      rw [← hcut]
      exact List.mem_map.mpr ⟨s, hs, rfl⟩
    apply (hmem (homed s)).mp
    rw [Query.cut] at hcutMem
    split at hcutMem
    · exact List.mem_of_mem_drop (List.mem_of_mem_take hcutMem)
    · exact hcutMem
  exact ⟨fun s hs => validAt_of_mem_select hinv.wf hdistinct hs, nodup_homes_select hinv.wf hdistinct,
    fun s hs => (hrow s hs).1, fun s hs => (hrow s hs).2.live, fun s hs => (hrow s hs).2.key⟩

variable {l : List Selected} {change : Entry → Entry} {recordsOf : Selected → List Change.Record}
  {f : MemoryTable2 H → Selected → MemoryTable2 H × List Change.Record}

theorem RowsOf.stored (h : RowsOf info store t key l) (hinv : Inv info store t) {s : Selected}
    (hs : s ∈ l) {id : Nat} (hhome : s.home = .dirty id) :
    ∃ e ∈ store, e.id = id ∧ s.entry = current t e := by
  rcases (mem_rows hinv).mp (h.rows s hs) with ⟨e, he, heq⟩ | ⟨index, e, -, heq⟩
  · simp only [homed, Selected.mk.injEq, hhome, Place.dirty.injEq] at heq
    exact ⟨e, he, heq.1.symm, heq.2⟩
  · simp only [homed, Selected.mk.injEq, hhome, reduceCtorEq, false_and] at heq

theorem RowsOf.new (h : RowsOf info store t key l) {s : Selected} (hs : s ∈ l) {index : Nat}
    (hhome : s.home = .new index) : (t.newOf key)[index]? = some s.entry := by
  have hcell := (h.valid s hs).cell_eq
  have hplace : s.place ≠ .backend := by
    intro hplace
    simp [Selected.home, hplace] at hhome
  rw [hhome, if_neg hplace] at hcell
  exact hcell

/-- **A loop changes the rows of the reference table at the selected addresses.** -/
theorem abs_loop (hstore : StoreOk store) (hinv : Inv info store t) (h : RowsOf info store t key l)
    (hstep : ∀ t' s, t'.info = t.info → ValidAt t' key s → StepAt key change recordsOf t' s (f t' s)) :
    abs store (forSelected f t l).1 = (abs store t).change key (l.map homed) change := by
  obtain ⟨-, hchanged, hother, hrest⟩ := forSelected_cell hstep rfl h.valid h.nodup
  have hplaces : (l.map homed).map Selected.place = l.map Selected.home := by
    rw [List.map_map]
    rfl
  simp only [abs, RefTable.change, hplaces, RefTable.mk.injEq, List.map_map]
  constructor
  · apply List.map_congr_left
    intro e he
    have hid := hinv.current_id e
    rw [current] at hid
    simp only [Function.comp_apply, hid]
    split
    next hmem =>
      obtain ⟨s, hs, hhome⟩ := List.mem_map.mp hmem
      have hcell := hchanged s hs
      rw [hhome] at hcell
      obtain ⟨e', he', heid, hentry⟩ := h.stored hinv hs hhome
      obtain rfl := hstore.eq_of_id he' he heid
      have hfind : (forSelected f t l).1.dirty.find? e'.id = some (change s.entry) := hcell
      rw [hfind, Option.getD_some, hentry, current]
    next hmem =>
      have hcell : (forSelected f t l).1.dirty.find? e.id = t.dirty.find? e.id := hother _ hmem
      rw [hcell]
  · funext key'
    split
    next hkey =>
      subst hkey
      apply List.ext_getElem?
      intro index
      have hcell : (forSelected f t l).1.cell key' (.new index)
          = ((forSelected f t l).1.newOf key')[index]? := rfl
      rw [← hcell, List.getElem?_map, List.getElem?_zipIdx]
      by_cases hmem : Place.new index ∈ l.map Selected.home
      · obtain ⟨s, hs, hhome⟩ := List.mem_map.mp hmem
        rw [← hhome, hchanged s hs, h.new hs hhome]
        simp only [Option.map_some, Nat.zero_add, if_pos hmem]
      · rw [hother _ hmem]
        cases hget : (t.newOf key')[index]? with
        | none => simp [cell, hget]
        | some e => simp only [cell, hget, Option.map_some, Nat.zero_add, if_neg hmem]
    next hkey => exact hrest.newOf key' hkey

/-- **The invariant survives a loop** that keeps ids and keys of the rows, and
    notes the rows that become dirty and stay live. -/
theorem Inv.loop (hstore : StoreOk store) (hinv : Inv info store t) (h : RowsOf info store t key l)
    (hstep : ∀ t' s, t'.info = t.info → ValidAt t' key s → StepAt key change recordsOf t' s (f t' s))
    (hid : ∀ e, (change e).id = e.id)
    (hkey : ∀ e, (change e).fields.find? info.key = e.fields.find? info.key)
    (hkept : ∀ key' id, id ∈ updatedIds t key' → id ∈ updatedIds (forSelected f t l).1 key')
    (hnoted : ∀ s ∈ l, s.place = .backend → (change s.entry).live = true →
      s.entry.id ∈ updatedIds (forSelected f t l).1 key)
    (hlive : ∀ s ∈ l, (change s.entry).live = true → s.entry.live = true)
    (hupdated : ∀ key' id, id ∈ updatedIds (forSelected f t l).1 key' →
      id ∈ updatedIds t key' ∨ key' = key ∧ ∃ s ∈ l, s.home = .dirty id) :
    Inv info store (forSelected f t l).1.touched := by
  obtain ⟨-, hchanged, hother, hrest⟩ := forSelected_cell hstep rfl h.valid h.nodup
  -- A dirty row of the new table is a changed row or an old one.
  have hdirty : ∀ id d, (forSelected f t l).1.dirty.find? id = some d →
      (∃ s ∈ l, s.home = .dirty id ∧ d = change s.entry) ∨ t.dirty.find? id = some d := by
    intro id d hfind
    by_cases hmem : Place.dirty id ∈ l.map Selected.home
    · obtain ⟨s, hs, hhome⟩ := List.mem_map.mp hmem
      have hcell := hchanged s hs
      rw [hhome] at hcell
      have heq : (forSelected f t l).1.dirty.find? id = some (change s.entry) := hcell
      rw [hfind] at heq
      cases heq
      exact Or.inl ⟨s, hs, hhome, rfl⟩
    · have hcell : (forSelected f t l).1.dirty.find? id = t.dirty.find? id := hother _ hmem
      exact Or.inr (hcell ▸ hfind)
  refine ⟨hrest.info.trans hinv.info_eq, (hinv.wf.loop hid hstep h.valid h.nodup).2, ?_, ?_, ?_, ?_⟩
  · intro id d hfind
    rcases hdirty id d hfind with ⟨s, hs, hhome, rfl⟩ | hold
    · obtain ⟨e, he, heid, hentry⟩ := h.stored hinv hs hhome
      refine ⟨e, he, heid, ?_⟩
      rw [hkey, hentry, current]
      cases hcur : t.dirty.find? e.id with
      | none => rfl
      | some d' =>
        obtain ⟨e', he', hid', hkey'⟩ := hinv.dirty _ _ hcur
        obtain rfl := hstore.eq_of_id he' he hid'
        exact hkey'
    · exact hinv.dirty id d hold
  · intro id d key' hfind hdlive hdkey
    rcases hdirty id d hfind with ⟨s, hs, hhome, rfl⟩ | hold
    · rw [hkey, h.keys s hs, Option.some.injEq] at hdkey
      subst hdkey
      have hvalid := (h.valid s hs).dirtyId id hhome
      by_cases hplace : s.place = .backend
      · rw [← hvalid.1]
        exact hnoted s hs hplace hdlive
      · have hcell := (h.valid s hs).cell_eq
        rw [hhome, if_neg hplace] at hcell
        exact hkept key id (hinv.noted id s.entry key hcell (hlive s hs hdlive) (h.keys s hs))
    · exact hkept key' id (hinv.noted id d key' hold hdlive hdkey)
  · intro key' id hmem
    by_cases hsel : Place.dirty id ∈ l.map Selected.home
    · obtain ⟨s, hs, hhome⟩ := List.mem_map.mp hsel
      have hcell := hchanged s hs
      rw [hhome] at hcell
      refine ⟨change s.entry, hcell, ?_⟩
      rw [hkey, h.keys s hs]
      rcases hupdated key' id hmem with hold | ⟨rfl, -⟩
      · -- The row was dirty under this key before.
        obtain ⟨d, hd, hdkey⟩ := hinv.updated key' id hold
        have hplace : s.place ≠ .backend := by
          intro hplace
          have hnone := (h.valid s hs).cell_eq
          rw [hhome, if_pos hplace] at hnone
          have : t.dirty.find? id = none := hnone
          rw [hd] at this
          cases this
        have hsome := (h.valid s hs).cell_eq
        rw [hhome, if_neg hplace] at hsome
        have : t.dirty.find? id = some s.entry := hsome
        rw [hd] at this
        cases this
        rw [← hdkey, h.keys s hs]
      · rfl
    · rcases hupdated key' id hmem with hold | ⟨-, s, hs, hhome⟩
      · obtain ⟨d, hd, hdkey⟩ := hinv.updated key' id hold
        have hcell : (forSelected f t l).1.dirty.find? id = t.dirty.find? id := hother _ hsel
        exact ⟨d, hcell.trans hd, hdkey⟩
      · exact absurd (List.mem_map.mpr ⟨s, hs, hhome⟩) hsel
  · intro key' e he
    have hmem : e ∈ (forSelected f t l).1.newOf key' := he
    by_cases heq : key' = key
    · subst heq
      obtain ⟨index, hindex⟩ := List.mem_iff_getElem?.mp hmem
      have hcell : (forSelected f t l).1.cell key' (.new index) = some e := hindex
      by_cases hsel : Place.new index ∈ l.map Selected.home
      · obtain ⟨s, hs, hhome⟩ := List.mem_map.mp hsel
        rw [← hhome, hchanged s hs] at hcell
        cases hcell
        exact (hkey _).trans (h.keys s hs)
      · rw [hother _ hsel] at hcell
        exact hinv.inserted key' e (List.mem_of_getElem? hcell)
    · rw [hrest.newOf key' heq] at hmem
      exact hinv.inserted key' e hmem

/-! ### What updates and removals note -/

theorem mem_updatedIds {id : Nat} :
    id ∈ updatedIds t key ↔ ∃ ids, t.dirtyUpdated.find? key = some ids ∧ id ∈ ids.keys := by
  rw [updatedIds]
  cases t.dirtyUpdated.find? key with
  | none => simp
  | some ids => simp

theorem updatedIds_congr (h : t'.dirtyUpdated = t.dirtyUpdated) (key : Bytes) :
    updatedIds t' key = updatedIds t key := by
  rw [updatedIds, updatedIds, h]

theorem mem_updatedIds_noteUpdated {key' : Bytes} {place : Place} {id id' : Nat} :
    id' ∈ updatedIds (t.noteUpdated key place id) key' ↔ id' ∈ updatedIds t key'
      ∨ (place = .backend ∧ id ≠ 0 ∧ t.dirty.contains id = false) ∧ key' = key ∧ id' = id := by
  rw [noteUpdated]
  split
  next hnew =>
    simp only [mem_updatedIds, AssocMap.find?_insert, hnew, true_and, ne_eq, not_false_eq_true]
    by_cases hkey : key' = key
    · subst hkey
      simp only [if_pos, Option.some.injEq, exists_eq_left', SortedMap.mem_keys_iff,
        SortedMap.find?_insert, true_and]
      by_cases hid : id' = id
      · subst hid
        simp
      · cases t.dirtyUpdated.find? key' <;> simp [hid]
    · simp [hkey]
  next hnew => simp [hnew]

theorem mem_updatedIds_update (entry : Entry) {key' : Bytes} {id : Nat}
    (hvalid : ∀ s ∈ l, ValidAt t key s) (hnodup : (l.map Selected.home).Nodup) :
    id ∈ updatedIds (forSelected (fun t s => t.updateOne key entry s) t l).1 key' ↔
      id ∈ updatedIds t key' ∨ key' = key ∧ ∃ s ∈ l, s.place = .backend ∧ s.entry.id = id := by
  induction l generalizing t with
  | nil => simp [forSelected]
  | cons s l ih =>
    obtain ⟨hfirst, hrestNodup⟩ := List.nodup_cons.mp hnodup
    have hs := hvalid s List.mem_cons_self
    have hinfo : t.info = t.info := rfl
    have hstep := updateOne_stepAt entry hinfo hs
    have hkeep : ∀ s' ∈ l, ValidAt (t.updateOne key entry s).1 key s' := by
      intro s' hs'
      apply (hvalid s' (List.mem_cons_of_mem _ hs')).congr
      rw [hstep.cell_eq, if_neg]
      intro heq
      exact hfirst (List.mem_map.mpr ⟨s', hs', heq⟩)
    have hnote : id ∈ updatedIds (t.updateOne key entry s).1 key' ↔ id ∈ updatedIds t key'
        ∨ s.place = .backend ∧ key' = key ∧ id = s.entry.id := by
      have hwrite : (t.updateOne key entry s).1.dirtyUpdated
          = (t.noteUpdated key s.place s.entry.id).dirtyUpdated := by
        simp only [updateOne, hs.read_eq]
        exact dirtyUpdated_write _ _ _ _
      rw [updatedIds_congr hwrite, mem_updatedIds_noteUpdated]
      apply or_congr_right
      constructor
      · rintro ⟨⟨hplace, -, -⟩, hrest⟩
        exact ⟨hplace, hrest⟩
      · rintro ⟨hplace, hrest⟩
        have hhome : s.home = .dirty s.entry.id := by rw [Selected.home, hplace]
        have hnone := hs.cell_eq
        rw [hhome, if_pos hplace] at hnone
        have hfind : t.dirty.find? s.entry.id = none := hnone
        refine ⟨⟨hplace, (hs.dirtyId _ hhome).2, ?_⟩, hrest⟩
        rw [AssocMap.contains, hfind]
        rfl
    rw [forSelected_cons]
    refine (ih hkeep hrestNodup).trans ?_
    rw [hnote]
    constructor
    · rintro ((hold | ⟨hplace, hkey, hid⟩) | ⟨hkey, s', hs', hrest⟩)
      · exact Or.inl hold
      · exact Or.inr ⟨hkey, s, List.mem_cons_self, hplace, hid.symm⟩
      · exact Or.inr ⟨hkey, s', List.mem_cons_of_mem _ hs', hrest⟩
    · rintro (hold | ⟨hkey, s', hs', hplace, hid⟩)
      · exact Or.inl (Or.inl hold)
      · rcases List.mem_cons.mp hs' with rfl | hs'
        · exact Or.inl (Or.inr ⟨hplace, hkey, hid.symm⟩)
        · exact Or.inr ⟨hkey, s', hs', hplace, hid⟩

theorem updatedEntry_key (info : TableInfo) (entry e : Entry) :
    (updatedEntry info entry e).fields.find? info.key = e.fields.find? info.key := by
  apply find?_foldl_setField_of_not_mem
  intro hmem
  obtain ⟨f, hf, hkey⟩ := List.mem_map.mp hmem
  have hne := (List.mem_filter.mp hf).2
  simp only [decide_eq_true_eq] at hne
  exact hne.2 hkey

theorem Inv.update (hstore : StoreOk store) (hinv : Inv info store t) (h : RowsOf info store t key l)
    (entry : Entry) : Inv info store (forSelected (fun t s => t.updateOne key entry s) t l).1.touched := by
  have hids : ∀ key' id, id ∈ updatedIds (forSelected (fun t s => t.updateOne key entry s) t l).1 key' ↔
      id ∈ updatedIds t key' ∨ key' = key ∧ ∃ s ∈ l, s.place = .backend ∧ s.entry.id = id :=
    fun _ _ => mem_updatedIds_update entry h.valid h.nodup
  refine hinv.loop hstore h (fun t' s hinfo hs => updateOne_stepAt entry (hinfo.trans hinv.info_eq) hs)
    (fun e => (foldl_setField_marks _ e).1) (updatedEntry_key info entry) ?_ ?_ ?_ ?_
  · intro key' id hold
    exact (hids key' id).mpr (Or.inl hold)
  · intro s hs hplace _
    exact (hids key _).mpr (Or.inr ⟨rfl, s, hs, hplace, rfl⟩)
  · intro s hs _
    exact h.live s hs
  · intro key' id hmem
    rcases (hids key' id).mp hmem with hold | ⟨hkey, s, hs, hplace, rfl⟩
    · exact Or.inl hold
    · exact Or.inr ⟨hkey, s, hs, by rw [Selected.home, hplace]⟩

theorem Inv.remove (hstore : StoreOk store) (hinv : Inv info store t) (h : RowsOf info store t key l) :
    Inv info store (forSelected (fun t s => t.removeOne key s) t l).1.touched := by
  have hsame : (forSelected (fun t s => t.removeOne key s) t l).1.dirtyUpdated = t.dirtyUpdated :=
    forSelected_dirtyUpdated (fun t s _ => dirtyUpdated_write _ _ _ _) t
  have hids := updatedIds_congr hsame
  have hdead : ∀ e : Entry, (e.setStatus Entry.DELETED).live = false := fun e => rfl
  refine hinv.loop hstore h (fun t' s _ hs => removeOne_stepAt hs) (fun _ => rfl) (fun _ => rfl) ?_ ?_ ?_ ?_
  · intro key' id hold
    rwa [hids]
  · intro s _ _ hlive
    rw [hdead] at hlive
    cases hlive
  · intro s _ hlive
    rw [hdead] at hlive
    cases hlive
  · intro key' id hmem
    rw [hids] at hmem
    exact Or.inl hmem

/-! ### Steps and runs -/

theorem inserted (hinv : Inv info store t) (key : Bytes) {entry : Entry} (hnew : entry.id = 0) :
    let t' := ({ t with newEntries :=
      t.newEntries.insert key ((t.newEntries.find? key).getD [] ++ [entry.setField t.info.key key]) }).touched
    abs store t' = (abs store t).insert key (entry.setField info.key key) ∧ Inv info store t' := by
  intro t'
  have hnewOf : ∀ key', t'.newOf key'
      = if key' = key then t.newOf key ++ [entry.setField t.info.key key] else t.newOf key' :=
    fun key' => newOf_insert t key key' _
  constructor
  · simp only [abs, RefTable.insert, RefTable.mk.injEq]
    refine ⟨rfl, ?_⟩
    funext key'
    rw [hnewOf, hinv.info_eq]
  · refine ⟨hinv.info_eq, ⟨hinv.wf.dirty, ?_⟩, hinv.dirty, hinv.noted, hinv.updated, ?_⟩
    · intro key' e he
      rw [hnewOf] at he
      split at he
      next =>
        rcases List.mem_append.mp he with hold | hlast
        · exact hinv.wf.new key e hold
        · obtain rfl := List.mem_singleton.mp hlast
          exact hnew
      next => exact hinv.wf.new key' e he
    · intro key' e he
      rw [hnewOf] at he
      split at he
      next hkey =>
        subst hkey
        rcases List.mem_append.mp he with hold | hlast
        · exact hinv.inserted key' e hold
        · obtain rfl := List.mem_singleton.mp hlast
          rw [Entry.setField_fields, hinv.info_eq]
          exact SortedMap.find?_insert_self _ _ _
      next => exact hinv.inserted key' e he

/-- **One call on the table is a call on the reference table.** -/
theorem step_ref (hstore : StoreOk store) (hdb : Returns version info store db)
    (hversion : V2_5_0 ≤ version) (hinv : Inv info store t) {call : Call}
    (husual : CallUsual (abs store t) call) :
    RefStep info (abs store t) call (step version db t call).1 (abs store (step version db t call).2)
      ∧ Inv info store (step version db t call).2 := by
  have hentries : ∀ l : List Selected, (l.map homed).map Selected.entry = l.map Selected.entry := by
    intro l
    rw [List.map_map]
    rfl
  have hnumber : ∀ n : Nat, ¬ ((n : Int) = CODE_NO_AUTHORIZED) := by
    intro n h
    rw [CODE_NO_AUTHORIZED] at h
    omega
  obtain rfl := hinv.info_eq
  cases call with
  | select key q =>
    refine ⟨⟨_, selects hstore hdb hversion hinv husual, ?_, rfl⟩, hinv⟩
    rw [hentries]
    rfl
  | insert key entry hnew options =>
    by_cases hauth : Accepted t.info options
    · have hcond : ¬ (options.check && !checkAuthority t.info options.origin) = true := by
        rw [hauth]
        exact Bool.false_ne_true
      simp only [RefStep, if_pos hauth, step, MemoryTable2.insert, if_neg hcond]
      cases hcheck : checkField t.info entry with
      | error e => exact ⟨⟨rfl, rfl⟩, hinv⟩
      | ok u =>
        have hdone := inserted hinv key hnew
        exact ⟨⟨rfl, hdone.1⟩, hdone.2⟩
    · have hcond : (options.check && !checkAuthority t.info options.origin) = true :=
        eq_true_of_ne_false hauth
      simp only [RefStep, if_neg hauth, step, MemoryTable2.insert, if_pos hcond]
      exact ⟨⟨rfl, rfl⟩, hinv⟩
  | update key entry q options =>
    have hrows := rowsOf_select hstore hdb hversion hinv husual
    by_cases hauth : Accepted t.info options
    · have hcond : ¬ (options.check && !checkAuthority t.info options.origin) = true := by
        rw [hauth]
        exact Bool.false_ne_true
      simp only [RefStep, ChangeStep, if_pos hauth, step, MemoryTable2.update, if_neg hcond]
      cases hcheck : checkField t.info entry with
      | error e => exact ⟨⟨rfl, rfl⟩, hinv⟩
      | ok u =>
        have habs := abs_loop hstore hinv hrows fun t' s hinfo hs => updateOne_stepAt entry hinfo hs
        simp only [changeOutput, bind, Except.bind, pure, Except.pure, if_neg (hnumber _)]
        refine ⟨⟨_, selects hstore hdb hversion hinv husual, ?_, habs⟩, hinv.update hstore hrows entry⟩
        rw [hentries, List.length_map]
        rfl
    · have hcond : (options.check && !checkAuthority t.info options.origin) = true :=
        eq_true_of_ne_false hauth
      simp only [RefStep, ChangeStep, if_neg hauth, step, MemoryTable2.update, if_pos hcond]
      exact ⟨⟨rfl, rfl⟩, hinv⟩
  | remove key q options =>
    have hrows := rowsOf_select hstore hdb hversion hinv husual
    by_cases hauth : Accepted t.info options
    · have hcond : ¬ (options.check && !checkAuthority t.info options.origin) = true := by
        rw [hauth]
        exact Bool.false_ne_true
      have habs := abs_loop hstore hinv hrows fun t' s _ hs => removeOne_stepAt hs
      simp only [RefStep, ChangeStep, if_pos hauth, step, MemoryTable2.remove, if_neg hcond, changeOutput,
        if_neg (hnumber _)]
      refine ⟨⟨_, selects hstore hdb hversion hinv husual, ?_, habs⟩, hinv.remove hstore hrows⟩
      rw [hentries, List.length_map]
      rfl
    · have hcond : (options.check && !checkAuthority t.info options.origin) = true :=
        eq_true_of_ne_false hauth
      simp only [RefStep, ChangeStep, if_neg hauth, step, MemoryTable2.remove, if_pos hcond]
      exact ⟨⟨rfl, rfl⟩, hinv⟩

theorem run_ref (hstore : StoreOk store) (hdb : Returns version info store db)
    (hversion : V2_5_0 ≤ version) {calls : List Call} (hinv : Inv info store t)
    (husual : AllUsual version db store t calls) :
    RefRun info (abs store t) (trace version db t calls) := by
  induction calls generalizing t with
  | nil => trivial
  | cons call calls ih =>
    obtain ⟨hstep, hinv'⟩ := step_ref hstore hdb hversion hinv husual.1
    exact ⟨_, hstep, ih hinv' husual.2⟩

def opened (info : TableInfo) (hash : H) : MemoryTable2 H := { info, hash }

theorem inv_opened (info : TableInfo) (store : List Entry) (hash : H) :
    Inv info store (opened info hash) where
  info_eq := rfl
  wf := ⟨nofun, nofun⟩
  dirty := nofun
  noted := nofun
  updated := nofun
  inserted := nofun

/-- **Read your writes.**  A fresh table gives in every run of calls what the
    reference table gives. -/
theorem read_your_writes {H : Type} {version : Nat} {info : TableInfo} {store : List Entry} {db : RemoteDB}
    (hversion : V2_5_0 ≤ version) (hstore : StoreOk store) (hdb : Returns version info store db)
    (hash : H) (calls : List Call) (husual : AllUsual version db store (opened info hash) calls) :
    RefRun info ⟨store, fun _ => []⟩ (trace version db (opened info hash) calls) := by
  have hstart : abs store (opened info hash) = ⟨store, fun _ => []⟩ := by
    have hstored : (fun e : Entry => ((opened info hash).dirty.find? e.id).getD e) = id := rfl
    simp only [abs, hstored, List.map_id, RefTable.mk.injEq, true_and]
    rfl
  rw [← hstart]
  exact run_ref hstore hdb hversion (inv_opened info store hash) husual

/-! ### One row -/

theorem clear_of_exact {asks : List Ask} (h : ∀ a ∈ asks, a.op.exact = true) : Clear asks := by
  intro field
  have hmem : ∀ a ∈ asksOn asks field, a.op.exact = true := fun a ha => h a (List.mem_filter.mp ha).1
  cases hlast : (asksOn asks field).getLast? with
  | none =>
    rw [List.getLast?_eq_none_iff.mp hlast]
    exact Or.inr ⟨nofun, nofun⟩
  | some a => exact Or.inl ⟨a, hlast, hmem a (List.mem_of_getLast? hlast)⟩

def oneInfo : TableInfo := { name := ascii ['t'], key := ascii ['k'], fields := [ascii ['v']] }

def oneStore : List Entry :=
  [(({ id := 1 } : Entry).setField (ascii ['k']) (ascii ['a'])).setField (ascii ['v']) (ascii ['0'])]

def oneDB (version : Nat) : RemoteDB := fun key c =>
  some (oneStore.filter fun e => decide (e.fields.find? oneInfo.key = some key) && c.process version e)

theorem oneDB_returns (version : Nat) : Returns version oneInfo oneStore (oneDB version) := fun _ _ =>
  ⟨_, rfl, List.Perm.refl _⟩

theorem oneStore_ok : StoreOk oneStore := ⟨by decide +kernel, by decide +kernel⟩

/-- The rows of key `a` with the value `v`. -/
def valued (v : Char) : Query := { asks := [⟨.EQ, ascii ['v'], ascii [v]⟩] }

def setValue (v : Char) : Entry := ({} : Entry).setField (ascii ['v']) (ascii [v])

/-- The row gets the value one, and is sought by the old and by the new value. -/
def moved : List Call :=
  [.update (ascii ['a']) (setValue '1') (valued '0') {}, .select (ascii ['a']) (valued '0'),
    .select (ascii ['a']) (valued '1')]

/-- **A run in which an update moves a row out of one condition and into another.** -/
theorem read_your_writes_small :
    RefRun oneInfo ⟨oneStore, fun _ => []⟩ (trace V2_5_0 (oneDB V2_5_0) (opened oneInfo ()) moved) := by
  have husual : ∀ (t : MemoryTable2 Unit) v, t.newOf (ascii ['a']) = [] →
      Usual (abs oneStore t) (ascii ['a']) (valued v) := by
    intro t v hnew
    have hone : -2 ^ 31 ≤ (-1 : Int) ∧ (-1 : Int) < 2 ^ 31 := by decide
    refine ⟨clear_of_exact ?_, hone, hone, ?_⟩
    · intro a ha
      obtain rfl := List.mem_singleton.mp ha
      rfl
    · simp only [RefTable.rows, abs, hnew, List.length_append, List.length_map, List.zipIdx_nil,
        List.length_nil]
      decide
  refine read_your_writes (le_refl _) oneStore_ok (oneDB_returns V2_5_0) () moved ⟨?_, ?_, ?_, trivial⟩
  · exact husual _ _ rfl
  · exact husual _ _ (by decide +kernel)
  · exact husual _ _ (by decide +kernel)

theorem RefStep.satisfies {ref ref' : RefTable} {entries : List Entry}
    (h : RefStep info ref (.select key q) (.selected entries) ref') {e : Entry} (he : e ∈ entries) :
    Satisfies info key q.asks e := by
  obtain ⟨selected, ⟨l, hmem, -, rfl⟩, hout, -⟩ := h
  cases hout
  obtain ⟨s, hs, rfl⟩ := List.mem_map.mp he
  refine ((hmem s).mp ?_).2
  rw [Query.cut] at hs
  split at hs
  · exact List.mem_of_mem_drop (List.mem_of_mem_take hs)
  · exact hs

/-- The bounds of a row of one hundred: the second call replaces the first. -/
def bounded : Query :=
  { asks := [⟨.LT, ascii ['v'], ascii ['5', '0']⟩, ⟨.LT, ascii ['v'], ascii ['1', '5', '0']⟩] }

def hundred : Entry :=
  ((({} : Entry).setField (ascii ['v']) (ascii ['1', '0', '0'])).setField (ascii ['k']) (ascii ['a']))

/-- **Before version 2.5.0 a select returns a row that an update moved out of
    the condition, and later bounds replace earlier ones in every version.** -/
theorem select_before_changes :
    ¬ RefRun oneInfo ⟨oneStore, fun _ => []⟩ (trace V2_4_0 (oneDB V2_4_0) (opened oneInfo ()) moved)
      ∧ bounded.condition.process V2_5_0 hundred = true
      ∧ ∃ a ∈ bounded.asks, a.op.test a.value (hundred.getField a.field) = false := by
  refine ⟨?_, by decide +kernel, by decide +kernel⟩
  rintro ⟨ref, -, ref', hselect, -⟩
  have hout : ∃ entries, (step V2_4_0 (oneDB V2_4_0)
      (step V2_4_0 (oneDB V2_4_0) (opened oneInfo ()) (.update (ascii ['a']) (setValue '1') (valued '0') {})).2
      (.select (ascii ['a']) (valued '0'))).1 = .selected entries
      ∧ ∃ e ∈ entries, e.fields.find? (ascii ['v']) = some (ascii ['1']) :=
    ⟨_, rfl, by decide +kernel⟩
  obtain ⟨entries, hentries, e, he, hvalue⟩ := hout
  rw [hentries] at hselect
  have hsat := hselect.satisfies he
  obtain ⟨value, hfind, htest⟩ := hsat.fields (ascii ['v']) (by decide) (by decide) (by decide)
  rw [hvalue] at hfind
  cases hfind
  have hfalse := htest ⟨.EQ, ascii ['v'], ascii ['0']⟩ (by decide)
  exact absurd hfalse (by decide)

end ReadYourWrites

end HieraChain.Storage
