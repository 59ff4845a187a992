/-
  HieraChain/BinLogCodec.lean
  ===========================
  **A block of the binary log is read as it was written.**

  The record leaves out what is not data of the rows: the number of the block in
  which a row changed last, the flags of the table and, but for two tables, the
  force flag.  Of the rest, `decodeBlock_encode` restores what a record can carry
  (`CarriesTable`): a status of one byte, and columns with names that are not
  empty and hold no comma.  The lengths follow from the size of the record.
-/
import HieraChain.BinLogHandler

namespace HieraChain.BinLog

open HieraChain.BigEndian HieraChain.Storage HieraChain.Wire

/-! ### Data -/

def IsColumn (key : Bytes) : Prop := key ≠ STATUS ∧ key ≠ NUM_FIELD ∧ key ≠ ID_FIELD

instance (key : Bytes) : Decidable (IsColumn key) := inferInstanceAs (Decidable (_ ∧ _ ∧ _))

/-- The entry `e` has the id, the status and just the data columns of `e'`. -/
structure RestoredEntry (e e' : Entry) : Prop where
  id : e.id = e'.id
  status : e.status = e'.status
  fields : ∀ key, IsColumn key → e.fields.find? key = e'.fields.find? key
  marks : ∀ key, ¬ IsColumn key → e.fields.find? key = none

/-- The same table, with rows in the same order that agree as `R` says. -/
structure SameTable (R : Entry → Entry → Prop) (t t' : TableData) : Prop where
  name : t.info.name = t'.info.name
  key : t.info.key = t'.info.key
  fields : vecFieldOf t.info = vecFieldOf t'.info
  dirtyEntries : List.Forall₂ R t.dirtyEntries t'.dirtyEntries
  newEntries : List.Forall₂ R t.newEntries t'.newEntries

/-! ### What a record can carry -/

structure CarriesEntry (vecField : List Bytes) (e : Entry) : Prop where
  /-- `uint64_t`. -/
  id : e.id < 2 ^ 64
  status : 0 ≤ e.status ∧ e.status < 256
  fields : ∀ field ∈ e.fields.entries, IsColumn field.1 → field.1 ∈ vecField

structure CarriesTable (t : TableData) : Prop where
  name : t.info.name.length < 256
  names : ∀ field ∈ vecFieldOf t.info, field ≠ [] ∧ comma ∉ field
  marks : STATUS ∈ vecFieldOf t.info ∧ NUM_FIELD ∈ vecFieldOf t.info ∧ ID_FIELD ∈ vecFieldOf t.info
  dirtyEntries : ∀ e ∈ t.dirtyEntries, CarriesEntry (vecFieldOf t.info) e
  newEntries : ∀ e ∈ t.newEntries, CarriesEntry (vecFieldOf t.info) e

instance (vecField : List Bytes) (e : Entry) : Decidable (CarriesEntry vecField e) :=
  decidable_of_iff (e.id < 2 ^ 64 ∧ (0 ≤ e.status ∧ e.status < 256)
      ∧ ∀ field ∈ e.fields.entries, IsColumn field.1 → field.1 ∈ vecField)
    ⟨fun h => ⟨h.1, h.2.1, h.2.2⟩, fun h => ⟨h.id, h.status, h.fields⟩⟩

instance (t : TableData) : Decidable (CarriesTable t) :=
  decidable_of_iff (t.info.name.length < 256 ∧ (∀ field ∈ vecFieldOf t.info, field ≠ [] ∧ comma ∉ field)
      ∧ (STATUS ∈ vecFieldOf t.info ∧ NUM_FIELD ∈ vecFieldOf t.info ∧ ID_FIELD ∈ vecFieldOf t.info)
      ∧ (∀ e ∈ t.dirtyEntries, CarriesEntry (vecFieldOf t.info) e)
      ∧ ∀ e ∈ t.newEntries, CarriesEntry (vecFieldOf t.info) e)
    ⟨fun h => ⟨h.1, h.2.1, h.2.2.1, h.2.2.2.1, h.2.2.2.2⟩,
      fun h => ⟨h.name, h.names, h.marks, h.dirtyEntries, h.newEntries⟩⟩

/-! ### Flags -/

theorem and_one_cases : ∀ c : UInt8, c &&& 1 = 0 ∨ c &&& 1 = 1 := Hex.forall_byte (by decide +kernel)

theorem shiftBit (b : UInt8) : ∀ p < 8, ∀ q < 8,
    ((b ||| 1 <<< UInt8.ofNat (7 - p)) >>> UInt8.ofNat (7 - q) &&& 1 != 0)
      = (decide (p = q) || (b >>> UInt8.ofNat (7 - q) &&& 1 != 0)) := by
  have hmask : ∀ p < 8, ∀ q < 8,
      (1 <<< UInt8.ofNat (7 - p)) >>> UInt8.ofNat (7 - q) &&& 1 = if p = q then (1 : UInt8) else 0 := by decide
  have hand (x y : UInt8) : (x ||| y) &&& 1 = (x &&& 1) ||| (y &&& 1) := by
    rw [← UInt8.toBitVec_inj]
    exact BitVec.and_or_distrib_right ..
  intro p hp q hq
  rw [UInt8.shiftRight_or, hand, hmask p hp q hq]
  rcases and_one_cases (b >>> UInt8.ofNat (7 - q)) with h | h <;> by_cases hpq : p = q <;> simp [h, hpq]

@[simp] theorem length_setFlag (u : Bytes) (i : Nat) : (setFlag u i).length = u.length :=
  List.length_modify ..

theorem hasFlag_setFlag {u : Bytes} {i j : Nat} {b : Bool} (h : hasFlag u j = some b) :
    hasFlag (setFlag u i) j = some (decide (i = j) || b) := by
  obtain ⟨byte, hbyte, hb⟩ := Option.map_eq_some_iff.mp h
  rw [hasFlag, setFlag, List.getElem?_modify, hbyte]
  apply congrArg some
  change ((if i / 8 = j / 8 then byte ||| 1 <<< UInt8.ofNat (7 - i % 8) else byte)
    >>> UInt8.ofNat (7 - j % 8) &&& 1 != 0) = (decide (i = j) || b)
  by_cases hsame : i / 8 = j / 8
  · rw [if_pos hsame, shiftBit byte (i % 8) (by omega) (j % 8) (by omega), hb]
    congr 1
    rw [decide_eq_decide]
    omega
  · rw [if_neg hsame, hb]
    have hne : decide (i = j) = false := decide_eq_false (by rintro rfl; exact hsame rfl)
    rw [hne, Bool.false_or]

variable {e : Entry}

@[simp] theorem length_setFlags (keys : List Bytes) (i : Nat) (u : Bytes) :
    (setFlags e keys i u).length = u.length := by
  induction keys generalizing i u with
  | nil => rfl
  | cons key keys ih =>
    rw [setFlags, ih]
    split
    · exact length_setFlag u i
    · rfl

theorem hasFlag_setFlags_of_lt {keys : List Bytes} {i j : Nat} {u : Bytes} {b : Bool} (hlt : j < i)
    (h : hasFlag u j = some b) : hasFlag (setFlags e keys i u) j = some b := by
  induction keys generalizing i u with
  | nil => exact h
  | cons key keys ih =>
    rw [setFlags]
    apply ih (Nat.lt_succ_of_lt hlt)
    split
    · rw [hasFlag_setFlag h, decide_eq_false (ne_of_gt hlt), Bool.false_or]
    · exact h

/-- **The flag of a column** says whether the entry has it. -/
theorem hasFlag_setFlags {keys : List Bytes} {i : Nat} {u : Bytes}
    (hclear : ∀ k < keys.length, hasFlag u (i + k) = some false) {k : Nat} {key : Bytes}
    (hkey : keys[k]? = some key) :
    hasFlag (setFlags e keys i u) (i + k) = some (e.fields.contains key) := by
  induction keys generalizing i u k with
  | nil => cases hkey
  | cons key' keys ih =>
    have hfirst := hclear 0 (Nat.succ_pos _)
    have hnext : hasFlag (if e.fields.contains key' then setFlag u i else u) i
        = some (e.fields.contains key') := by
      cases hcontains : e.fields.contains key' with
      | true =>
        rw [Nat.add_zero] at hfirst
        rw [if_pos rfl, hasFlag_setFlag hfirst, decide_eq_true rfl, Bool.true_or]
      | false => exact hfirst
    rw [setFlags]
    cases k with
    | zero =>
      cases hkey
      exact hasFlag_setFlags_of_lt (Nat.lt_succ_self i) hnext
    | succ k =>
      have hshift : i + (k + 1) = i + 1 + k := by omega
      rw [hshift]
      apply ih _ hkey
      intro n hn
      have hold := hclear (n + 1) (Nat.succ_lt_succ hn)
      rw [show i + (n + 1) = i + 1 + n by omega] at hold
      split
      · rw [hasFlag_setFlag hold, decide_eq_false (by omega), Bool.false_or]
      · exact hold

theorem hasFlag_replicate {n j : Nat} (h : j / 8 < n) : hasFlag (List.replicate n 0) j = some false := by
  rw [hasFlag, List.getElem?_replicate, if_pos h]
  have hzero : ∀ q < 8, ((0 : UInt8) >>> UInt8.ofNat (7 - q) &&& 1 != 0) = false := by decide +kernel
  exact congrArg some (hzero (j % 8) (by omega))

/-! ### Entries -/

theorem length_columns {vecField : List Bytes}
    (hmarks : STATUS ∈ vecField ∧ NUM_FIELD ∈ vecField ∧ ID_FIELD ∈ vecField) :
    (columns vecField).length + 3 ≤ vecField.length := by
  have hsub : [STATUS, NUM_FIELD, ID_FIELD]
      ⊆ vecField.filter fun key => !!(key == STATUS || key == NUM_FIELD || key == ID_FIELD) := by
    intro key hkey
    rw [List.mem_filter]
    simp only [List.mem_cons, List.not_mem_nil, or_false] at hkey
    rcases hkey with rfl | rfl | rfl
    · exact ⟨hmarks.1, by decide⟩
    · exact ⟨hmarks.2.1, by decide⟩
    · exact ⟨hmarks.2.2, by decide⟩
  have hnodup : [STATUS, NUM_FIELD, ID_FIELD].Nodup := by decide
  have hthree := (List.subperm_of_subset hnodup hsub).length_le
  have hlength := List.length_eq_length_filter_add (l := vecField)
    fun key => !(key == STATUS || key == NUM_FIELD || key == ID_FIELD)
  rw [columns]
  change 3 ≤ _ at hthree
  omega

theorem mem_columns {vecField : List Bytes} {key : Bytes} :
    key ∈ columns vecField ↔ key ∈ vecField ∧ IsColumn key := by
  simp [columns, IsColumn, and_assoc]

/-- What reading the columns `keys` of `e` adds to an entry. -/
def copyFields (e : Entry) : List Bytes → Entry → Entry
  | [], r => r
  | key :: keys, r => copyFields e keys (((e.fields.find? key).map (r.setField key)).getD r)

theorem reads_fields {usedFlag : Bytes} {keys : List Bytes} {i : Nat} {r : Entry}
    (hflags : ∀ k key, keys[k]? = some key → hasFlag usedFlag (i + k) = some (e.fields.contains key))
    (hsize : (writeFields e keys).length < 2 ^ 32) :
    Reads (decodeFields usedFlag keys i r) (writeFields e keys) (copyFields e keys r) := by
  induction keys generalizing i r with
  | nil => exact Reads.pure r
  | cons key keys ih =>
    rw [writeFields, List.flatMap_cons, List.length_append] at hsize
    have hflag := hflags 0 key rfl
    have hrest : ∀ r, Reads (decodeFields usedFlag keys (i + 1) r) (writeFields e keys) (copyFields e keys r) := by
      intro r
      apply ih
      · intro k key' hkey'
        have hnext := hflags (k + 1) key' hkey'
        rwa [show i + (k + 1) = i + 1 + k by omega] at hnext
      · exact lt_of_le_of_lt (Nat.le_add_left _ _) hsize
    rw [writeFields, List.flatMap_cons, decodeFields, copyFields]
    rw [Nat.add_zero, SortedMap.contains] at hflag
    rw [hflag]
    cases hfind : e.fields.find? key with
    | none => exact hrest r
    | some value =>
      have hlength : value.length < 2 ^ 32 := by
        rw [hfind, Option.map_some, Option.getD_some, writeString, List.length_append] at hsize
        omega
      have hvalue : Reads (counted 4) (writeString value) value := reads_counted hlength
      exact hvalue.bind (hrest (r.setField key value))

theorem copyFields_marks (keys : List Bytes) (r : Entry) :
    (copyFields e keys r).id = r.id ∧ (copyFields e keys r).status = r.status
      ∧ (copyFields e keys r).deleted = r.deleted := by
  induction keys generalizing r with
  | nil => exact ⟨rfl, rfl, rfl⟩
  | cons key keys ih =>
    rw [copyFields]
    cases e.fields.find? key with
    | none => exact ih r
    | some value => exact ih (r.setField key value)

theorem copyFields_find? (keys : List Bytes) (r : Entry) (key : Bytes) :
    (copyFields e keys r).fields.find? key
      = if key ∈ keys ∧ (e.fields.find? key).isSome then e.fields.find? key else r.fields.find? key := by
  induction keys generalizing r with
  | nil => simp [copyFields]
  | cons key' keys ih =>
    rw [copyFields, ih]
    by_cases hmem : key ∈ keys
    · cases hfind : e.fields.find? key with
      | some value => simp [hmem]
      | none =>
        cases hfind' : e.fields.find? key' with
        | none => simp
        | some value =>
          have hne : key ≠ key' := by
            rintro rfl
            rw [hfind] at hfind'
            cases hfind'
          simp [SortedMap.find?_insert, hne]
    · by_cases hsame : key = key'
      · subst hsame
        cases hfind : e.fields.find? key with
        | none => simp
        | some value => simp [hmem]
      · cases hfind' : e.fields.find? key' with
        | none => simp [hmem, hsame]
        | some value => simp [hmem, hsame, SortedMap.find?_insert]

def loggedEntry (vecField : List Bytes) (force : Bool) (e : Entry) : Entry :=
  copyFields e (columns vecField) { id := e.id, status := e.status, force }

theorem reads_entry {vecField : List Bytes} (force : Bool)
    (hmarks : STATUS ∈ vecField ∧ NUM_FIELD ∈ vecField ∧ ID_FIELD ∈ vecField)
    (h : CarriesEntry vecField e) (hsize : (encodeEntry vecField e).length < 2 ^ 32) :
    Reads (decodeEntry vecField force) (encodeEntry vecField e) (loggedEntry vecField force e) := by
  have hid : Reads (integer 8) (writeUINT64 e.id) e.id := by
    have hlt := h.id
    have hnat : ((e.id : Int) % 2 ^ 64).toNat = e.id := by omega
    rw [writeUINT64, hnat]
    exact reads_integer hlt
  have hstatus : Reads (integer 1) [MemoryTable2.statusByte e] e.status.toNat := by
    have hlt := h.status
    have hbyte : [MemoryTable2.statusByte e] = pushInt e.status.toNat 1 := by
      rw [MemoryTable2.statusByte, show e.status % 256 = e.status by omega]
      rfl
    rw [hbyte]
    exact reads_integer (show e.status.toNat < 256 ^ 1 by omega)
  have hcast : ((e.status.toNat : Nat) : Int) = e.status := Int.toNat_of_nonneg h.status.1
  have hcolumns := length_columns hmarks
  have hflagSize : flagSize vecField = (vecField.length - 3) / 8 + 1 := by
    rw [flagSize, if_neg (by omega)]
  have hflags : ∀ k key, (columns vecField)[k]? = some key →
      hasFlag (setFlags e (columns vecField) 0 (List.replicate (flagSize vecField) 0)) (0 + k)
        = some (e.fields.contains key) := by
    intro k key hkey
    apply hasFlag_setFlags _ hkey
    intro n hn
    apply hasFlag_replicate
    rw [hflagSize]
    omega
  have hchunk : Reads (chunk (flagSize vecField))
      (setFlags e (columns vecField) 0 (List.replicate (flagSize vecField) 0)) _ :=
    reads_chunk (by rw [length_setFlags, List.length_replicate])
  have hvalues : (writeFields e (columns vecField)).length < 2 ^ 32 := by
    rw [encodeEntry, List.length_append, List.length_cons, List.length_append] at hsize
    omega
  rw [decodeEntry, encodeEntry]
  refine hid.bind ?_
  refine Reads.bind (b := [MemoryTable2.statusByte e]) hstatus ?_
  refine hchunk.bind ?_
  rw [hcast]
  exact reads_fields hflags hvalues

theorem loggedEntry_restored {vecField : List Bytes} (force : Bool) (h : CarriesEntry vecField e) :
    RestoredEntry (loggedEntry vecField force e) e := by
  obtain ⟨hid, hstatus, -⟩ := copyFields_marks (e := e) (columns vecField)
    { id := e.id, status := e.status, force }
  refine ⟨hid, hstatus, ?_, ?_⟩
  · intro key hkey
    rw [loggedEntry, copyFields_find?]
    cases hfind : e.fields.find? key with
    | none => simp
    | some value =>
      have hmem := h.fields (key, value) (SortedMap.mem_entries_iff.mpr hfind) hkey
      rw [if_pos ⟨mem_columns.mpr ⟨hmem, hkey⟩, rfl⟩]
  · intro key hkey
    rw [loggedEntry, copyFields_find?, if_neg fun hmem => hkey (mem_columns.mp hmem.1).2]
    rfl

theorem length_encodeEntry (vecField : List Bytes) (e : Entry) : 1 ≤ (encodeEntry vecField e).length := by
  rw [encodeEntry, List.length_append, List.length_cons]
  omega

theorem reads_entries {vecField : List Bytes} (force : Bool) {entries : List Entry}
    (hmarks : STATUS ∈ vecField ∧ NUM_FIELD ∈ vecField ∧ ID_FIELD ∈ vecField)
    (h : ∀ e ∈ entries, CarriesEntry vecField e) (hsize : (encodeEntries vecField entries).length < 2 ^ 32) :
    Reads (decodeEntries vecField force) (encodeEntries vecField entries)
      (entries.map (loggedEntry vecField force)) := by
  rw [encodeEntries, List.length_append] at hsize
  have hcount := length_le_flatMap (f := encodeEntry vecField) fun e (_ : e ∈ entries) => length_encodeEntry vecField e
  rw [decodeEntries, encodeEntries]
  refine (reads_integer (show entries.length < 256 ^ 4 by omega)).bind ?_
  apply reads_repeated
  intro e he
  have hentry := length_mem_flatMap (f := encodeEntry vecField) he
  exact reads_entry force hmarks (h e he) (by omega)

theorem forall₂_logged {R : Entry → Entry → Prop} {vecField : List Bytes} {force : Bool} {entries : List Entry}
    (h : ∀ e ∈ entries, R (loggedEntry vecField force e) e) :
    List.Forall₂ R (entries.map (loggedEntry vecField force)) entries := by
  rw [List.forall₂_map_left_iff, List.forall₂_same]
  exact h

/-! ### Tables -/

theorem splitFields_intercalate {names : List Bytes} (hne : names ≠ [])
    (h : ∀ field ∈ names, field ≠ [] ∧ comma ∉ field) : splitFields ([comma].intercalate names) = names := by
  rw [splitFields, List.splitOn_intercalate comma (fun field hfield => (h field hfield).2) hne]
  cases names with
  | nil => exact absurd rfl hne
  | cons first rest =>
    have hfilter : rest.dropLast.filter (fun field => field ≠ []) = rest.dropLast := by
      rw [List.filter_eq_self]
      intro field hfield
      have hmem := List.mem_cons_of_mem first ((List.dropLast_sublist rest).subset hfield)
      simpa using (h field hmem).1
    change first :: (rest.dropLast.filter (fun field => field ≠ []) ++ rest.getLast?.toList) = first :: rest
    rw [hfilter]
    congr 1
    cases hlast : rest.getLast? with
    | none =>
      rw [List.getLast?_eq_none_iff.mp hlast]
      rfl
    | some last => exact List.dropLast_append_getLast? last hlast

def loggedInfo (info : TableInfo) : TableInfo :=
  { name := info.name, key := info.key, fields := info.fields.filter fun field => field ≠ info.key }

def loggedData (t : TableData) : TableData where
  info := loggedInfo t.info
  dirtyEntries := t.dirtyEntries.map (loggedEntry (vecFieldOf t.info) (forced t.info))
  newEntries := t.newEntries.map (loggedEntry (vecFieldOf t.info) (forced t.info))

variable {t : TableData}

theorem reads_data (h : CarriesTable t) (hsize : (encodeTable t).length < 2 ^ 32) :
    Reads decodeData (encodeTable t) (loggedData t) := by
  have hparts := hsize
  rw [encodeTable] at hparts
  simp only [List.length_append] at hparts
  have hname : Reads (counted 1) (pushInt t.info.name.length 1 ++ t.info.name) t.info.name :=
    reads_counted (show t.info.name.length < 256 ^ 1 from h.name)
  have hlength : ([comma].intercalate (vecFieldOf t.info)).length < 2 ^ 32 := by
    rw [writeString, List.length_append] at hparts
    omega
  have htext : Reads (counted 4) (writeString ([comma].intercalate (vecFieldOf t.info))) _ :=
    reads_counted hlength
  have hsplit : splitFields ([comma].intercalate (vecFieldOf t.info)) = vecFieldOf t.info :=
    splitFields_intercalate (List.cons_ne_nil _ _) h.names
  have htable : Reads decodeTable (pushInt t.info.name.length 1 ++ t.info.name
      ++ (writeString ([comma].intercalate (vecFieldOf t.info)) ++ [])) (loggedInfo t.info) := by
    rw [decodeTable]
    refine hname.bind (htext.bind ?_)
    rw [hsplit]
    exact Reads.pure _
  rw [List.append_nil] at htable
  have hdirty := reads_entries (forced t.info) h.marks h.dirtyEntries (by omega)
  have hnew := reads_entries (forced t.info) h.marks h.newEntries (by omega)
  rw [encodeTable, decodeData]
  simp only
  rw [← List.append_assoc]
  refine htable.bind ?_
  refine hdirty.bind ?_
  exact hnew.map _

theorem loggedData_same {R : Entry → Entry → Prop}
    (hdirty : ∀ e ∈ t.dirtyEntries, R (loggedEntry (vecFieldOf t.info) (forced t.info) e) e)
    (hnew : ∀ e ∈ t.newEntries, R (loggedEntry (vecFieldOf t.info) (forced t.info) e) e) :
    SameTable R (loggedData t) t where
  name := rfl
  key := rfl
  fields := by
    rw [vecFieldOf, vecFieldOf]
    congr 1
    exact List.filter_eq_self.mpr fun field hfield => (List.mem_filter.mp hfield).2
  dirtyEntries := forall₂_logged hdirty
  newEntries := forall₂_logged hnew

/-! ### Blocks -/

variable {crc32 : Bytes → Nat} {num startNum endNum : Int} {datas : List TableData}

@[simp] theorem length_writeUINT32 (n : Nat) : (writeUINT32 n).length = 4 := length_pushInt _ _

@[simp] theorem length_writeUINT64 (n : Int) : (writeUINT64 n).length = 8 := length_pushInt _ _

theorem toInt64_number {n : Int} (h : 0 ≤ n ∧ n < 2 ^ 63) : toInt64 n.toNat = n := by
  have hcast : ((n.toNat : Nat) : Int) = n := Int.toNat_of_nonneg h.1
  unfold toInt64
  rw [hcast]
  apply Int.bmod_eq_of_le_mul_two
  · omega
  · omega

theorem reads_number {n : Int} (h : 0 ≤ n ∧ n < 2 ^ 63) : Reads (integer 8) (writeUINT64 n) n.toNat := by
  have hmod : n % 2 ^ 64 = n := by omega
  rw [writeUINT64, hmod]
  exact reads_integer (by omega)

theorem encodePayload_eq : encodePayload crc32 num datas
    = writeUINT64 num ++ (writeUINT32 datas.length ++ (datas.flatMap encodeTable
      ++ writeUINT32 (crc32 (writeUINT64 num ++ (writeUINT32 datas.length ++ datas.flatMap encodeTable))))) := by
  rw [encodePayload, List.append_assoc, List.append_assoc]

theorem decodeBlock_less (hnum : 0 ≤ num ∧ num < 2 ^ 63) (hless : num ≤ startNum) :
    decodeBlock (encodePayload crc32 num datas) startNum endNum = some (.LessThanSpecifiedRange, num, []) := by
  rw [decodeBlock, blockReader, encodePayload_eq, (reads_number hnum).run_bind, toInt64_number hnum, if_pos hless]
  rfl

theorem decodeBlock_greater (hnum : 0 ≤ num ∧ num < 2 ^ 63) (hstart : startNum < num) (hgreater : endNum < num) :
    decodeBlock (encodePayload crc32 num datas) startNum endNum = some (.GreaterThanSpecifiedRange, num, []) := by
  rw [decodeBlock, blockReader, encodePayload_eq, (reads_number hnum).run_bind, toInt64_number hnum,
    if_neg (not_le.mpr hstart), if_pos hgreater]
  rfl

theorem length_encodeTable (t : TableData) : 1 ≤ (encodeTable t).length := by
  rw [encodeTable]
  simp only [List.length_append, length_pushInt]
  omega

/-- **A block in the range is read as it was written.** -/
theorem decodeBlock_encode (hnum : 0 ≤ num ∧ num < 2 ^ 63) (htables : ∀ t ∈ datas, CarriesTable t)
    (hsize : (encodePayload crc32 num datas).length < 2 ^ 32) (hstart : startNum < num) (hend : num ≤ endNum) :
    decodeBlock (encodePayload crc32 num datas) startNum endNum
      = some (.Success, num, datas.map loggedData) := by
  rw [encodePayload_eq] at hsize
  simp only [List.length_append] at hsize
  have hcount := length_le_flatMap (f := encodeTable) fun t (_ : t ∈ datas) => length_encodeTable t
  have hdatas : Reads (repeated decodeData datas.length) (datas.flatMap encodeTable) (datas.map loggedData) := by
    apply reads_repeated
    intro t ht
    have htable := length_mem_flatMap (f := encodeTable) ht
    exact reads_data (htables t ht) (by omega)
  have hinteger : Reads (integer 4) (writeUINT32 datas.length) datas.length :=
    reads_integer (show datas.length < 256 ^ 4 by omega)
  rw [decodeBlock, blockReader, encodePayload_eq, (reads_number hnum).run_bind, toInt64_number hnum,
    if_neg (not_le.mpr hstart), if_neg (not_lt.mpr hend), hinteger.run_bind, hdatas.run_bind,
    run_remaining, if_pos (length_writeUINT32 _)]
  rfl

/-- **The tables of a block come back**, for a record below 4 GiB and any range that
    holds its number. -/
theorem decodeBlock_restores (crc32 : Bytes → Nat) (num startNum endNum : Int) (datas : List TableData)
    (hnum : 0 < num ∧ num < 2 ^ 63) (htables : ∀ t ∈ datas, CarriesTable t)
    (hsize : (encodePayload crc32 num datas).length < 2 ^ 32) (hrange : startNum < num ∧ num ≤ endNum) :
    ∃ datas', decodeBlock (encodePayload crc32 num datas) startNum endNum = some (.Success, num, datas')
      ∧ List.Forall₂ (SameTable RestoredEntry) datas' datas := by
  refine ⟨datas.map loggedData, ?_, ?_⟩
  · exact decodeBlock_encode ⟨le_of_lt hnum.1, hnum.2⟩ htables hsize hrange.1 hrange.2
  · rw [List.forall₂_map_left_iff, List.forall₂_same]
    intro t ht
    exact loggedData_same
      (fun e he => loggedEntry_restored _ ((htables t ht).dirtyEntries e he))
      fun e he => loggedEntry_restored _ ((htables t ht).newEntries e he)

def smallTable : TableData where
  info := { name := ascii ['t'], key := ascii ['k'], fields := [ascii ['v'], STATUS, ascii ['k'], NUM_FIELD, ID_FIELD] }
  newEntries := [({ id := 1 } : Entry).setField (ascii ['v']) [7]]

theorem decodeBlock_restores_small : ∃ datas',
    decodeBlock (encodePayload (fun _ => 0) 1 [smallTable]) 0 1 = some (.Success, 1, datas')
      ∧ List.Forall₂ (SameTable RestoredEntry) datas' [smallTable] :=
  decodeBlock_restores (fun _ => 0) 1 0 1 [smallTable] (by decide) (by decide +kernel) (by decide +kernel) (by decide)

/-- A status above 255 loses its high bits, and a count of `2 ^ 32` is read as zero. -/
theorem lengths_wrap :
    (decodeBlock (encodePayload (fun _ => 0) 1
        [{ smallTable with newEntries := [({ id := 1 } : Entry).setStatus 256] }]) 0 1).map
        (fun r => r.2.2.map fun t => t.newEntries.map Entry.status) = some [[0]]
      ∧ decodeBlock (encodePayload (fun _ => 0) 1 (List.replicate (2 ^ 32) smallTable)) 0 1
        = some (.BlockDataLengthError, 1, []) := by
  refine ⟨by decide +kernel, ?_⟩
  have hnumber : (0 : Int) ≤ 1 ∧ (1 : Int) < 2 ^ 63 := by decide
  have hcount : Reads (integer 4) (writeUINT32 (List.replicate (2 ^ 32) smallTable).length) 0 := by
    rw [List.length_replicate]
    exact reads_integer (k := 4) (n := 0) (by decide)
  have hdatas : ∀ (f : List TableData → Reader (DecodeBlockResult × Int × List TableData)) (b : Bytes),
      (repeated decodeData 0 >>= f) b = f [] b := fun _ _ => rfl
  have hlength : 2 ^ 32 ≤ ((List.replicate (2 ^ 32) smallTable).flatMap encodeTable).length := by
    have hle := length_le_flatMap (f := encodeTable) (l := List.replicate (2 ^ 32) smallTable)
      fun t _ => length_encodeTable t
    rwa [List.length_replicate] at hle
  rw [decodeBlock, blockReader, encodePayload_eq, (reads_number hnumber).run_bind, toInt64_number hnumber,
    if_neg (by decide), if_neg (by decide), hcount.run_bind]
  rw [hdatas, run_remaining, if_neg]
  · rfl
  · rw [List.length_append]
    omega

end HieraChain.BinLog
