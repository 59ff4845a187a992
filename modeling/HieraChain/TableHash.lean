/-
  HieraChain/TableHash.lean
  =========================
  **What the hash of a table depends on.**

  `EntryLessNoLock` compares keys (`less_eq`): the id, the key field, the number
  of fields and the fields.  The buffer that `dump` fills holds the data of the
  sorted entries one after the other, whatever the threads do
  (`Computes.hash_eq_tableBytes`).  So a dump is a function of the rows exactly
  when rows with the same id and fields have the same status
  (`dump_schedule_independent_iff`).
-/
import Mathlib.Data.Prod.Lex
import HieraChain.MemoryTable2

namespace HieraChain.Storage

open HieraChain.BigEndian HieraChain.BufferWrites

/-! ### The comparison as a comparison of keys -/

abbrev SortKey := ℕ ×ₗ Bytes ×ₗ ℕ ×ₗ List (Bytes ×ₗ Bytes)

def sortKey (info : TableInfo) (e : Entry) : SortKey :=
  toLex (e.id, toLex (e.getField info.key, toLex (e.fields.size, e.fields.entries.map toLex)))

theorem lessFields_iff {ls rs : List (Bytes × Bytes)} (hlen : ls.length = rs.length) :
    lessFields ls rs = true ↔ ls.map (toLex : Bytes × Bytes → Bytes ×ₗ Bytes) < rs.map toLex := by
  induction ls generalizing rs with
  | nil =>
    obtain rfl : rs = [] := List.length_eq_zero_iff.mp hlen.symm
    exact ⟨nofun, fun h => absurd h (lt_irrefl _)⟩
  | cons l ls ih =>
    cases rs with
    | nil => cases hlen
    | cons r rs =>
      rw [List.map_cons, List.map_cons, List.cons_lt_cons_iff, Prod.Lex.lt_iff, ← ih (Nat.succ.inj hlen)]
      simp only [ofLex_toLex, EmbeddingLike.apply_eq_iff_eq]
      rw [lessFields]
      by_cases hname : l.1 = r.1
      · by_cases hvalue : l.2 = r.2
        · rw [if_neg (fun h => h hname), if_neg (fun h => h hvalue)]
          have heq : l = r := Prod.ext hname hvalue
          simp only [heq, lt_irrefl, and_false, or_false, false_or, true_and]
        · rw [if_neg (fun h => h hname), if_pos hvalue, decide_eq_true_iff]
          have hne : l ≠ r := fun h => hvalue (congrArg Prod.snd h)
          simp only [hname, hne, lt_irrefl, true_and, false_or, false_and, or_false]
      · rw [if_pos hname, decide_eq_true_iff]
        have hne : l ≠ r := fun h => hname (congrArg Prod.fst h)
        simp only [hname, hne, false_and, or_false]

theorem less_iff (info : TableInfo) (lhs rhs : Entry) :
    EntryLessNoLock info lhs rhs = true ↔ sortKey info lhs < sortKey info rhs := by
  simp only [sortKey, Prod.Lex.lt_iff, ofLex_toLex]
  rw [EntryLessNoLock]
  by_cases hid : lhs.id = rhs.id
  · rw [if_neg (fun h => h hid)]
    by_cases hkey : lhs.getField info.key = rhs.getField info.key
    · rw [if_neg (fun h => h hkey)]
      by_cases hsize : lhs.fields.size = rhs.fields.size
      · rw [if_neg (fun h => h hsize), lessFields_iff hsize]
        simp only [hid, hkey, hsize, lt_irrefl, true_and, false_or]
      · rw [if_pos hsize, decide_eq_true_iff]
        simp only [hid, hkey, hsize, lt_irrefl, true_and, false_or, false_and, or_false]
    · rw [if_pos hkey, decide_eq_true_iff]
      simp only [hid, hkey, lt_irrefl, true_and, false_or, false_and, or_false]
  · rw [if_pos hid, decide_eq_true_iff]
    simp only [hid, false_and, or_false]

theorem less_eq (info : TableInfo) (lhs rhs : Entry) :
    EntryLessNoLock info lhs rhs = decide (sortKey info lhs < sortKey info rhs) := by
  rw [Bool.eq_iff_iff, decide_eq_true_iff]
  exact less_iff info lhs rhs

theorem sortKey_eq_iff (info : TableInfo) (a b : Entry) :
    sortKey info a = sortKey info b ↔ a.id = b.id ∧ a.fields.entries = b.fields.entries := by
  constructor
  · intro h
    have hkey := congrArg (fun k : SortKey => ((ofLex k).1, (ofLex (ofLex (ofLex k).2).2).2)) h
    obtain ⟨hid, hfields⟩ := Prod.mk.inj hkey
    exact ⟨hid, List.map_injective_iff.mpr toLex.injective hfields⟩
  · rintro ⟨hid, hfields⟩
    have hf : a.fields = b.fields := by
      cases ha : a.fields
      cases hb : b.fields
      rw [ha, hb] at hfields
      cases hfields
      rfl
    rw [sortKey, sortKey, Entry.getField, Entry.getField, hid, hf]

/-! ### The bytes for the hash -/

def entryBlocks (fields : List (Bytes × Bytes)) (status : UInt8) : List Bytes :=
  ((fields.filter fun f => isHashField f.1).map fun f => [f.1, f.2]).flatten ++ [[status]]

/-- The data of an entry: its hash fields, names and values, and its status. -/
def entryData (e : Entry) : Bytes :=
  (entryBlocks e.fields.entries (MemoryTable2.statusByte e)).flatten

theorem entryBlocks_cons_of_pos {f : Bytes × Bytes} (h : isHashField f.1 = true)
    (fields : List (Bytes × Bytes)) (status : UInt8) :
    entryBlocks (f :: fields) status = f.1 :: f.2 :: entryBlocks fields status := by
  simp only [entryBlocks, List.filter_cons, h, if_true, List.map_cons, List.flatten_cons,
    List.cons_append, List.nil_append]

theorem entryBlocks_cons_of_neg {f : Bytes × Bytes} (h : isHashField f.1 = false)
    (fields : List (Bytes × Bytes)) (status : UInt8) :
    entryBlocks (f :: fields) status = entryBlocks fields status := by
  simp only [entryBlocks, List.filter_cons, h, Bool.false_eq_true, if_false]

theorem length_blocks (fields : List (Bytes × Bytes)) (status : UInt8) :
    ((entryBlocks fields status).flatten.length : Int) = (fields.map hashFieldSize).sum + 1 := by
  induction fields with
  | nil => rfl
  | cons f fields ih =>
    rw [List.map_cons, List.sum_cons, hashFieldSize]
    cases hhash : isHashField f.1 with
    | true =>
      rw [entryBlocks_cons_of_pos hhash, if_pos rfl, List.flatten_cons, List.flatten_cons,
        List.length_append, List.length_append, Nat.cast_add, Nat.cast_add, ih]
      omega
    | false =>
      rw [entryBlocks_cons_of_neg hhash, if_neg Bool.false_ne_true, ih]
      omega

theorem length_entryData (e : Entry) : (e.capacityOfHashField + 1).toNat = (entryData e).length := by
  have hlen := length_blocks e.fields.entries (MemoryTable2.statusByte e)
  rw [e.capacity_eq, entryData]
  omega

theorem genDataFields_eq (start : Nat) (status : UInt8) (fields : List (Bytes × Bytes)) :
    MemoryTable2.genDataFields start status fields = consecutive start (entryBlocks fields status) := by
  induction fields generalizing start with
  | nil => rfl
  | cons f fields ih =>
    rw [MemoryTable2.genDataFields]
    cases hhash : isHashField f.1 with
    | true =>
      rw [if_pos rfl, ih, entryBlocks_cons_of_pos hhash]
      rfl
    | false => rw [if_neg Bool.false_ne_true, ih, entryBlocks_cons_of_neg hhash]

theorem consecutive_append (start : Nat) (bs bs' : List Bytes) :
    consecutive start (bs ++ bs')
      = consecutive start bs ++ consecutive (start + bs.flatten.length) bs' := by
  induction bs generalizing start with
  | nil => rfl
  | cons b bs ih =>
    rw [List.cons_append, consecutive, consecutive, ih, List.flatten_cons, List.length_append,
      Nat.add_assoc, List.cons_append]

def blocksOf (entries : List Entry) : List Bytes :=
  (entries.map fun e => entryBlocks e.fields.entries (MemoryTable2.statusByte e)).flatten

theorem flatten_blocksOf (entries : List Entry) :
    (blocksOf entries).flatten = (entries.map entryData).flatten := by
  induction entries with
  | nil => rfl
  | cons e entries ih =>
    rw [blocksOf] at ih ⊢
    rw [List.map_cons, List.flatten_cons, List.flatten_append, ih, List.map_cons, List.flatten_cons,
      entryData]

theorem parallelGenData_eq (start : Nat) (entries : List Entry) :
    MemoryTable2.parallelGenData (MemoryTable2.genDataOffset start entries) entries
      = consecutive start (blocksOf entries) := by
  induction entries generalizing start with
  | nil => rfl
  | cons e entries ih =>
    have hunfold : ∀ offsets es, MemoryTable2.parallelGenData offsets es
        = ((es.zip offsets).map fun e =>
            MemoryTable2.genDataFields e.2 (MemoryTable2.statusByte e.1) e.1.fields.entries).flatten :=
      fun _ _ => rfl
    simp only [hunfold] at ih ⊢
    rw [MemoryTable2.genDataOffset, List.zip_cons_cons, List.map_cons, List.flatten_cons, ih,
      genDataFields_eq, length_entryData, blocksOf, blocksOf, List.map_cons, List.flatten_cons,
      consecutive_append, entryData]

theorem getLastD_genDataOffset (start : Nat) (entries : List Entry) (d : Nat) :
    (MemoryTable2.genDataOffset start entries).getLastD d
      = start + (entries.map entryData).flatten.length := by
  induction entries generalizing start d with
  | nil => rfl
  | cons e entries ih =>
    rw [MemoryTable2.genDataOffset, List.getLastD_cons, ih, length_entryData, List.map_cons,
      List.flatten_cons, List.length_append]
    omega

theorem allSize_eq (entries : List Entry) :
    MemoryTable2.allSize entries = (entries.map entryData).flatten.length := by
  induction entries with
  | nil => rfl
  | cons e entries ih =>
    rw [MemoryTable2.allSize] at ih ⊢
    rw [List.map_cons, List.sum_cons, ih, length_entryData, List.map_cons, List.flatten_cons,
      List.length_append]

theorem genDataCalls_eq (dirtyEntries newEntries : List Entry) :
    MemoryTable2.genDataCalls dirtyEntries newEntries
      = consecutive 0 (blocksOf (dirtyEntries ++ newEntries)) := by
  rw [MemoryTable2.genDataCalls, getLastD_genDataOffset, parallelGenData_eq, parallelGenData_eq,
    blocksOf, blocksOf, blocksOf, List.map_append, List.flatten_append, consecutive_append]
  congr 2
  rw [← flatten_blocksOf]
  rfl

def tableBytes (data : TableData) : Bytes :=
  ((data.dirtyEntries ++ data.newEntries).map entryData).flatten

/-- **The threads fill the buffer with the data of the entries in their order.** -/
theorem writeAll_genDataCalls (data : TableData) {calls : List (Nat × Bytes)}
    (hcalls : calls.Perm (MemoryTable2.genDataCalls data.dirtyEntries data.newEntries)) :
    writeAll (List.replicate
        (MemoryTable2.allSize data.dirtyEntries + MemoryTable2.allSize data.newEntries) 0) calls
      = some (tableBytes data) := by
  rw [genDataCalls_eq] at hcalls
  have hblocks : (blocksOf (data.dirtyEntries ++ data.newEntries)).flatten = tableBytes data :=
    flatten_blocksOf _
  rw [← hblocks]
  apply writeAll_consecutive hcalls
  rw [hblocks, List.length_replicate, allSize_eq, allSize_eq, tableBytes, List.map_append,
    List.flatten_append, List.length_append]

section Dump

variable {H : Type} {c : MemoryTable2.Hasher H} {t : MemoryTable2 H}

theorem MemoryTable2.Computes.hash_eq_tableBytes {data : TableData} {hash : H}
    (hcons : t.info.enableConsensus = true) (h : t.Computes c data hash) :
    hash = c.hash (tableBytes data) := by
  have heq := h.hash_eq
  rw [if_pos hcons] at heq
  obtain ⟨calls, allData, hcalls, hrun, rfl⟩ := heq
  rw [writeAll_genDataCalls data hcalls] at hrun
  cases hrun
  rfl

theorem computes_of_sortOf {data : TableData} (hcons : t.info.enableConsensus = true)
    (hinfo : data.info = t.info)
    (hdirty : SortOf (EntryLessNoLock t.info) t.dirtyRows data.dirtyEntries)
    (hnew : SortOf (EntryLessNoLock t.info) t.newRows data.newEntries) :
    t.Computes c data (c.hash (tableBytes data)) := by
  refine ⟨hinfo, hdirty.1, hnew.1, fun _ => ⟨hdirty, hnew⟩, ?_⟩
  rw [if_pos hcons]
  exact ⟨_, _, List.Perm.refl _, writeAll_genDataCalls data (List.Perm.refl _), rfl⟩

/-! ### Independence of the schedule -/

def content (e : Entry) : List (Bytes × Bytes) × Int := (e.fields.entries, e.status)

def contents (data : TableData) : List (List (Bytes × Bytes) × Int) × List (List (Bytes × Bytes) × Int) :=
  (data.dirtyEntries.map content, data.newEntries.map content)

theorem tableBytes_of_contents {data data' : TableData} (h : contents data = contents data') :
    tableBytes data = tableBytes data' := by
  obtain ⟨hdirty, hnew⟩ := Prod.mk.inj h
  have hdata : ∀ l l' : List Entry, l.map content = l'.map content → l.map entryData = l'.map entryData := by
    intro l l' hl
    have hfactor : entryData = (fun x : List (Bytes × Bytes) × Int =>
        (entryBlocks x.1 (UInt8.ofNat (x.2 % 256).toNat)).flatten) ∘ content := rfl
    rw [hfactor, ← List.map_map, hl, List.map_map]
  rw [tableBytes, tableBytes, List.map_append, List.map_append, hdata _ _ hdirty, hdata _ _ hnew]

def SameRows (t t' : MemoryTable2 H) : Prop :=
  t'.info = t.info ∧ t'.dirtyRows.Perm t.dirtyRows ∧ t'.newRows.Perm t.newRows

/-- All dumps of the rows agree in the hash and in the contents of the entries. -/
def ScheduleIndependent (c : MemoryTable2.Hasher H) (t : MemoryTable2 H) : Prop :=
  ∀ t' data data' hash hash', SameRows t t' → t.Computes c data hash → t'.Computes c data' hash' →
    hash = hash' ∧ contents data = contents data'

def TiesAgree (rows : List Entry) : Prop :=
  ∀ a ∈ rows, ∀ b ∈ rows, a.id = b.id → a.fields.entries = b.fields.entries → a.status = b.status

theorem tiesAgree_iff (info : TableInfo) (rows : List Entry) :
    TiesAgree rows ↔ ∀ ys ys', SortOf (EntryLessNoLock info) rows ys →
      SortOf (EntryLessNoLock info) rows ys' → ys.map content = ys'.map content := by
  rw [sortOf_determined_iff (less_eq info)]
  constructor
  · intro h a ha b hb hkey
    obtain ⟨hid, hfields⟩ := (sortKey_eq_iff info a b).mp hkey
    exact Prod.ext hfields (h a ha b hb hid hfields)
  · intro h a ha b hb hid hfields
    exact congrArg Prod.snd (h a ha b hb ((sortKey_eq_iff info a b).mpr ⟨hid, hfields⟩))

theorem ScheduleIndependent.tiesAgree (hcons : t.info.enableConsensus = true)
    (h : ScheduleIndependent c t) : TiesAgree t.dirtyRows ∧ TiesAgree t.newRows := by
  rw [tiesAgree_iff t.info, tiesAgree_iff t.info]
  have hsort : ∀ rows, SortOf (EntryLessNoLock t.info) rows
      (rows.mergeSort fun a b => !EntryLessNoLock t.info b a) := fun rows =>
    sortOf_mergeSort (less_eq t.info) rows
  constructor
  · intro ys ys' hys hys'
    have hsame := h t ⟨t.info, ys, _⟩ ⟨t.info, ys', _⟩ _ _
      ⟨rfl, List.Perm.refl _, List.Perm.refl _⟩
      (computes_of_sortOf hcons rfl hys (hsort t.newRows))
      (computes_of_sortOf hcons rfl hys' (hsort t.newRows))
    exact congrArg Prod.fst hsame.2
  · intro ys ys' hys hys'
    have hsame := h t ⟨t.info, _, ys⟩ ⟨t.info, _, ys'⟩ _ _
      ⟨rfl, List.Perm.refl _, List.Perm.refl _⟩
      (computes_of_sortOf hcons rfl (hsort t.dirtyRows) hys)
      (computes_of_sortOf hcons rfl (hsort t.dirtyRows) hys')
    exact congrArg Prod.snd hsame.2

theorem scheduleIndependent_of_tiesAgree (hcons : t.info.enableConsensus = true)
    (hdirty : TiesAgree t.dirtyRows) (hnew : TiesAgree t.newRows) : ScheduleIndependent c t := by
  rw [tiesAgree_iff t.info] at hdirty hnew
  rintro t' data data' hash hash' ⟨hinfo, hdirtyRows, hnewRows⟩ h h'
  have hcons' : t'.info.enableConsensus = true := by rw [hinfo]; exact hcons
  obtain ⟨hd, hn⟩ := h.sorted hcons
  obtain ⟨hd', hn'⟩ := h'.sorted hcons'
  rw [hinfo] at hd' hn'
  have hcontents : contents data = contents data' :=
    Prod.ext (hdirty _ _ hd (hd'.perm_left hdirtyRows)) (hnew _ _ hn (hn'.perm_left hnewRows))
  refine ⟨?_, hcontents⟩
  rw [h.hash_eq_tableBytes hcons, h'.hash_eq_tableBytes hcons', tableBytes_of_contents hcontents]

end Dump

/-- **A dump depends on the rows alone exactly when rows that compare equal have
    the same status.** -/
theorem dump_schedule_independent_iff {H : Type} (c : MemoryTable2.Hasher H) (t : MemoryTable2 H)
    (hcons : t.info.enableConsensus = true) :
    ScheduleIndependent c t ↔ TiesAgree t.dirtyRows ∧ TiesAgree t.newRows :=
  ⟨fun h => h.tiesAgree hcons, fun h => scheduleIndependent_of_tiesAgree hcons h.1 h.2⟩

/-! ### A row that is removed and inserted again -/

def valueField : Bytes := ascii ['v']
def keyField : Bytes := ascii ['k']

/-- A table with the key field `k` and the field `v`. -/
def plainInfo : TableInfo where
  name := ascii ['t']
  key := keyField
  fields := [valueField, STATUS, keyField, NUM_FIELD, ID_FIELD]

def plainTable : MemoryTable2 Bytes where
  info := plainInfo
  hash := []

def identityHasher : MemoryTable2.Hasher Bytes := ⟨id, []⟩

def emptyDB : Option RemoteDB := some fun _ _ => some []

def plainRow : Entry := ({} : Entry).setField valueField (ascii ['1'])

def insertedOnce : Except InvalidArgument (MemoryTable2.Result Bytes) :=
  plainTable.insert keyField plainRow {}

def insertedTwice : Except InvalidArgument (MemoryTable2.Result Bytes) := do
  let r ← insertedOnce
  let r ← r.2.1.remove V2_5_0 emptyDB keyField {} {}
  r.2.1.insert keyField plainRow {}

theorem dump_schedule_independent_iff_plain :
    ∃ r, insertedOnce = .ok r ∧ ScheduleIndependent identityHasher r.2.1 := by
  refine ⟨_, rfl, (dump_schedule_independent_iff _ _ rfl).mpr ⟨?_, ?_⟩⟩
  · intro a ha
    cases ha
  · intro a ha b hb _ _
    obtain rfl := List.mem_singleton.mp ha
    obtain rfl := List.mem_singleton.mp hb
    rfl

/-- The removed row and the new one compare equal and hash differently. -/
theorem dump_depends_on_schedule :
    ∃ r, insertedTwice = .ok r ∧ ¬ ScheduleIndependent identityHasher r.2.1 := by
  refine ⟨_, rfl, fun h => ?_⟩
  obtain ⟨-, hnew⟩ := h.tiesAgree rfl
  have hstatus := hnew ((plainRow.setField keyField keyField).setStatus 1) (by decide +kernel)
    (plainRow.setField keyField keyField) (by decide +kernel) rfl rfl
  exact absurd hstatus (by decide)

end HieraChain.Storage
