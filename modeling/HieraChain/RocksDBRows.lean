/-
  HieraChain/RocksDBRows.lean
  ===========================
  **What a commit writes to RocksDB and a select reads back**
  (`libstorage/RocksDBStorage.cpp`).

  A stored row is read as the entry it was made of (`readRow_newRow`), but for
  fields that have the name of a mark.  A commit of tables without dirty entries
  puts behind the rows of every key its new entries (`commit_find?`); where the
  first one is forced, the rows before are dropped.
-/
import HieraChain.RocksDBStorage

namespace HieraChain.RocksDBStorage

open HieraChain.BigEndian HieraChain.Storage HieraChain.CachedStorage HieraChain.Decimal

/-! ### Numbers as texts -/

theorem digits_digitText (ds : List Nat) (hds : ∀ d ∈ ds, d < 10) (value : Nat) :
    digits value (ds.map fun d => UInt8.ofNat (48 + d)) = some (ds.foldl (fun v d => 10 * v + d) value) := by
  induction ds generalizing value with
  | nil => rfl
  | cons d ds ih =>
    have hd : d < 10 := hds d List.mem_cons_self
    have hdigit : digit? (UInt8.ofNat (48 + d)) = some d := by
      rw [digit?, toNat_digit hd, if_pos ⟨Nat.le_add_right .., by omega⟩, Nat.add_sub_cancel_left]
    rw [List.map_cons, digits, hdigit]
    exact ih (fun d' hd' => hds d' (List.mem_cons_of_mem d hd')) _

theorem digits_decimal (n : Nat) : digits 0 (decimal n) = some n := by
  obtain ⟨ds, -, hds, htext, hvalue⟩ := exists_digits n
  rw [htext, digits_digitText ds hds, hvalue]

theorem decimal_unsigned (n : Nat) :
    (decimal n).head? ≠ some minus ∧ (decimal n).head? ≠ some plus ∧ (decimal n).isEmpty = false := by
  refine ⟨?_, ?_, ?_⟩
  · intro hhead
    exact absurd (digit_of_mem (List.mem_of_mem_head? hhead)).1 (by decide)
  · intro hhead
    exact absurd (digit_of_mem (List.mem_of_mem_head? hhead)).1 (by decide)
  · rw [List.isEmpty_eq_false_iff]
    exact decimal_ne_nil n

theorem castUnsigned_decimal {width n : Nat} (h : n < 2 ^ width) : castUnsigned width (decimal n) = some n := by
  obtain ⟨hminus, hplus, hne⟩ := decimal_unsigned n
  unfold castUnsigned
  simp only [hminus, hplus, or_self, if_false, hne, Bool.false_eq_true, digits_decimal]
  rw [if_pos h]

/-- The test of a number against the range of `int64_t`. -/
def fits64 (value : Int) : Option Int := if -2 ^ 63 ≤ value ∧ value < 2 ^ 63 then some value else none

theorem lexicalCast_eq {negative : Prop} [Decidable negative] {s text : Bytes} {n : Nat}
    (hsign : s.head? = some minus ↔ negative)
    (htext : (if s.head? = some minus ∨ s.head? = some plus then s.tail else s) = text) (hne : text.isEmpty = false)
    (hdigits : digits 0 text = some n) : lexicalCast s = fits64 (if negative then -n else n) := by
  have hcast : lexicalCast s =
      if (if s.head? = some minus ∨ s.head? = some plus then s.tail else s).isEmpty then none
      else (digits 0 (if s.head? = some minus ∨ s.head? = some plus then s.tail else s)).bind fun n =>
        fits64 (if s.head? = some minus then -n else n) := rfl
  rw [hcast, htext, hne, hdigits, if_neg Bool.false_ne_true, Option.bind_some]
  simp only [hsign]

theorem lexicalCast_signedDecimal {v : Int} (hlow : -2 ^ 63 ≤ v) (hhigh : v < 2 ^ 63) :
    lexicalCast (signedDecimal v) = some v := by
  obtain ⟨hminus, hplus, hne⟩ := decimal_unsigned v.natAbs
  have hfits : fits64 v = some v := if_pos ⟨hlow, hhigh⟩
  rw [signedDecimal]
  by_cases hv : v < 0
  · have hhead : (45 :: decimal v.natAbs).head? = some minus := rfl
    have habs : -((v.natAbs : Nat) : Int) = v := by rw [Int.ofNat_natAbs_of_nonpos hv.le, Int.neg_neg]
    rw [if_pos hv, lexicalCast_eq (iff_of_true hhead trivial) (if_pos (Or.inl hhead)) hne (digits_decimal _),
      if_pos trivial, habs, hfits]
  · have habs : ((v.natAbs : Nat) : Int) = v := Int.natAbs_of_nonneg (not_lt.mp hv)
    have hunsigned : ¬ ((decimal v.natAbs).head? = some minus ∨ (decimal v.natAbs).head? = some plus) := by
      rintro (hhead | hhead)
      · exact hminus hhead
      · exact hplus hhead
    rw [if_neg hv, lexicalCast_eq (iff_of_false hminus not_false) (if_neg hunsigned) hne (digits_decimal _),
      if_neg not_false, habs, hfits]

theorem castInt_signedDecimal {v : Int} (hrange : -2 ^ 31 ≤ v ∧ v < 2 ^ 31) : castInt (signedDecimal v) = some v := by
  have hcast : lexicalCast (signedDecimal v) = some v := lexicalCast_signedDecimal (by omega) (by omega)
  rw [castInt, hcast]
  exact if_pos hrange

/-! ### Rows -/

def IsMark (field : Bytes) : Prop := field = ID_FIELD ∨ field = NUM_FIELD ∨ field = STATUS

instance (field : Bytes) : Decidable (IsMark field) := inferInstanceAs (Decidable (_ ∨ _ ∨ _))

def stored (num : Nat) (e : Entry) : Entry where
  id := e.id
  status := e.status
  num := num
  fields := e.fields.filterMap fun field value => if IsMark field then none else some value
  capacityOfHashField := _
  capacity_eq := rfl

/-- The types of the marks of an entry, and the number of its block is not too large. -/
structure Storable (num : Nat) (e : Entry) : Prop where
  id : e.id < 2 ^ 64
  num : num < 2 ^ 32
  status : -2 ^ 31 ≤ e.status ∧ e.status < 2 ^ 31

theorem marks_distinct : ID_FIELD ≠ NUM_FIELD ∧ ID_FIELD ≠ STATUS ∧ NUM_FIELD ≠ STATUS := by decide

theorem find?_newRow (num : Nat) (e : Entry) (field : Bytes) :
    (newRow num e).find? field =
      if field = STATUS then some (signedDecimal e.status)
      else if field = ID_FIELD then some (decimal e.id)
      else if field = NUM_FIELD then some (decimal num)
      else e.fields.find? field := by
  have hfields : (e.fields.entries.foldl (fun m f => m.insert f.1 f.2) SortedMap.empty).find? field
      = e.fields.find? field := by
    have hall := SortedMap.find?_insertAll (SortedMap.empty : StoredRow) e.fields field
    rw [SortedMap.find?_empty, Option.or_none] at hall
    exact hall
  rw [newRow, copyFromEntry, SortedMap.find?_insert, SortedMap.find?_insert, SortedMap.find?_insert, hfields]
  congr

structure Fits (id num : Nat) (status : Int) (fields : List (Bytes × Bytes)) : Prop where
  id : ∀ value, (ID_FIELD, value) ∈ fields → castUnsigned 64 value = some id
  num : ∀ value, (NUM_FIELD, value) ∈ fields → castUnsigned 32 value = some num
  status : ∀ value, (STATUS, value) ∈ fields → castInt value = some status

/-- **The marks are set, the other fields are added.** -/
theorem readFields_spec {id num : Nat} {status : Int} {fields : List (Bytes × Bytes)} (h : Fits id num status fields)
    (e : Entry) :
    ∃ e', readFields e fields = some e'
      ∧ (ID_FIELD ∈ fields.map Prod.fst ∨ e.id = id → e'.id = id)
      ∧ (NUM_FIELD ∈ fields.map Prod.fst ∨ e.num = num → e'.num = num)
      ∧ (STATUS ∈ fields.map Prod.fst ∨ e.status = status → e'.status = status)
      ∧ e'.force = e.force ∧ e'.deleted = e.deleted
      ∧ e'.fields = e.fields.insertAll (fields.filter fun f => ¬ IsMark f.1) := by
  obtain ⟨hid_num, hid_status, hnum_status⟩ := marks_distinct
  induction fields generalizing e with
  | nil =>
    refine ⟨e, rfl, ?_, ?_, ?_, rfl, rfl, rfl⟩
    · exact fun hor => hor.resolve_left List.not_mem_nil
    · exact fun hor => hor.resolve_left List.not_mem_nil
    · exact fun hor => hor.resolve_left List.not_mem_nil
  | cons f fields ih =>
    obtain ⟨name, value⟩ := f
    have hrest : Fits id num status fields :=
      ⟨fun v hv => h.id v (List.mem_cons_of_mem _ hv), fun v hv => h.num v (List.mem_cons_of_mem _ hv),
        fun v hv => h.status v (List.mem_cons_of_mem _ hv)⟩
    rw [List.map_cons, readFields, readField]
    by_cases hname : name = ID_FIELD
    · subst hname
      have hmark : IsMark ID_FIELD := Or.inl rfl
      obtain ⟨e', hread, hid, hnum, hstatus, hforce, hdeleted, hfields⟩ := ih hrest { e with id }
      rw [if_pos rfl, h.id value List.mem_cons_self, List.filter_cons_of_neg (by simp [hmark])]
      refine ⟨e', hread, fun _ => hid (Or.inr rfl), ?_, ?_, hforce, hdeleted, hfields⟩
      · exact fun hor => hnum (hor.imp_left fun hmem => (List.mem_cons.mp hmem).resolve_left hid_num.symm)
      · exact fun hor => hstatus (hor.imp_left fun hmem => (List.mem_cons.mp hmem).resolve_left hid_status.symm)
    · rw [if_neg hname]
      by_cases hname' : name = NUM_FIELD
      · subst hname'
        have hmark : IsMark NUM_FIELD := Or.inr (Or.inl rfl)
        obtain ⟨e', hread, hid, hnum, hstatus, hforce, hdeleted, hfields⟩ := ih hrest { e with num }
        rw [if_pos rfl, h.num value List.mem_cons_self, List.filter_cons_of_neg (by simp [hmark])]
        refine ⟨e', hread, ?_, fun _ => hnum (Or.inr rfl), ?_, hforce, hdeleted, hfields⟩
        · exact fun hor => hid (hor.imp_left fun hmem => (List.mem_cons.mp hmem).resolve_left hid_num)
        · exact fun hor => hstatus (hor.imp_left fun hmem => (List.mem_cons.mp hmem).resolve_left hnum_status.symm)
      · rw [if_neg hname']
        by_cases hname'' : name = STATUS
        · subst hname''
          have hmark : IsMark STATUS := Or.inr (Or.inr rfl)
          obtain ⟨e', hread, hid, hnum, hstatus, hforce, hdeleted, hfields⟩ := ih hrest (e.setStatus status)
          rw [if_pos rfl, h.status value List.mem_cons_self, List.filter_cons_of_neg (by simp [hmark])]
          refine ⟨e', hread, ?_, ?_, fun _ => hstatus (Or.inr rfl), hforce, hdeleted, hfields⟩
          · exact fun hor => hid (hor.imp_left fun hmem => (List.mem_cons.mp hmem).resolve_left hid_status)
          · exact fun hor => hnum (hor.imp_left fun hmem => (List.mem_cons.mp hmem).resolve_left hnum_status)
        · have hmark : ¬ IsMark name := by
            rintro (hmark | hmark | hmark)
            · exact hname hmark
            · exact hname' hmark
            · exact hname'' hmark
          obtain ⟨e', hread, hid, hnum, hstatus, hforce, hdeleted, hfields⟩ := ih hrest (e.setField name value)
          rw [if_neg hname'', List.filter_cons_of_pos (by simp [hmark])]
          refine ⟨e', hread, ?_, ?_, ?_, hforce, hdeleted, hfields⟩
          · exact fun hor => hid (hor.imp_left fun hmem => (List.mem_cons.mp hmem).resolve_left (Ne.symm hname))
          · exact fun hor => hnum (hor.imp_left fun hmem => (List.mem_cons.mp hmem).resolve_left (Ne.symm hname'))
          · exact fun hor => hstatus (hor.imp_left fun hmem => (List.mem_cons.mp hmem).resolve_left (Ne.symm hname''))

/-- **A stored row is read as the entry that it was made of.** -/
theorem readRow_newRow {num : Nat} {e : Entry} (h : Storable num e) : readRow (newRow num e) = some (stored num e) := by
  obtain ⟨hid_num, hid_status, hnum_status⟩ := marks_distinct
  have hmem : ∀ {field value}, (field, value) ∈ (newRow num e).entries ↔ (newRow num e).find? field = some value :=
    SortedMap.mem_entries_iff
  have hid : (newRow num e).find? ID_FIELD = some (decimal e.id) := by
    rw [find?_newRow, if_neg hid_status, if_pos rfl]
  have hnum : (newRow num e).find? NUM_FIELD = some (decimal num) := by
    rw [find?_newRow, if_neg hnum_status, if_neg hid_num.symm, if_pos rfl]
  have hstatus : (newRow num e).find? STATUS = some (signedDecimal e.status) := by
    rw [find?_newRow, if_pos rfl]
  have hfits : Fits e.id num e.status (newRow num e).entries := by
    refine ⟨?_, ?_, ?_⟩
    · intro value hvalue
      rw [hmem, hid] at hvalue
      cases hvalue
      exact castUnsigned_decimal h.id
    · intro value hvalue
      rw [hmem, hnum] at hvalue
      cases hvalue
      exact castUnsigned_decimal h.num
    · intro value hvalue
      rw [hmem, hstatus] at hvalue
      cases hvalue
      exact castInt_signedDecimal h.status
  obtain ⟨e', hread, hid', hnum', hstatus', hforce, hdeleted, hfields⟩ := readFields_spec hfits {}
  rw [readRow, hread]
  refine congrArg some (Entry.ext (hid' (Or.inl (List.mem_map_of_mem (hmem.mpr hid))))
    (hstatus' (Or.inl (List.mem_map_of_mem (hmem.mpr hstatus)))) (hnum' (Or.inl (List.mem_map_of_mem (hmem.mpr hnum))))
    hforce hdeleted ?_)
  rw [hfields]
  refine SortedMap.ext_find? fun field => ?_
  have hnodup : (((newRow num e).entries.filter fun f => ¬ IsMark f.1).map Prod.fst).Nodup := by
    refine List.Nodup.sublist (List.filter_sublist.map Prod.fst) ?_
    exact List.pairwise_map.mpr ((newRow num e).sorted.imp fun hlt heq => absurd heq (ne_of_lt hlt))
  have hstored : (stored num e).fields.find? field = if IsMark field then none else e.fields.find? field := by
    rw [stored, SortedMap.find?_filterMap]
    split
    · cases e.fields.find? field <;> rfl
    · cases e.fields.find? field <;> rfl
  rw [hstored]
  split
  next hmark =>
    rw [SortedMap.find?_insertAll_of_notMem]
    · rfl
    · rintro hin
      obtain ⟨f, hf, rfl⟩ := List.mem_map.mp hin
      exact absurd hmark (by simpa using (List.mem_filter.mp hf).2)
  next hmark =>
    have hrow : (newRow num e).find? field = e.fields.find? field := by
      rw [find?_newRow, if_neg fun heq => hmark (Or.inr (Or.inr heq)), if_neg fun heq => hmark (Or.inl heq),
        if_neg fun heq => hmark (Or.inr (Or.inl heq))]
    cases hfind : e.fields.find? field with
    | some value =>
      refine SortedMap.find?_insertAll_of_mem _ hnodup (List.mem_filter.mpr ⟨hmem.mpr (hrow.trans hfind), ?_⟩)
      simpa using hmark
    | none =>
      rw [SortedMap.find?_insertAll_of_notMem]
      · rfl
      · rintro hin
        obtain ⟨f, hf, rfl⟩ := List.mem_map.mp hin
        have hsome := hmem.mp (List.mem_filter.mp hf).1
        rw [hrow, hfind] at hsome
        cases hsome

theorem readRows_map {num : Nat} {es : List Entry} (h : ∀ e ∈ es, Storable num e) :
    readRows (es.map (newRow num)) = some (es.map (stored num)) := by
  induction es with
  | nil => rfl
  | cons e es ih =>
    rw [List.map_cons, readRows, readRow_newRow (h e List.mem_cons_self), Option.bind_some,
      ih fun e' he' => h e' (List.mem_cons_of_mem e he')]
    rfl

/-! ### Commits -/

structure Outcomes.Fine (o : Outcomes) : Prop where
  get : ∀ key, o.get key = .ok
  put : ∀ key, o.put key = .ok
  write : o.write = .ok

def ofKey (info : TableInfo) (key : Bytes) (entries : List Entry) : List Entry :=
  entries.filter fun e => decide (e.getField info.key = key)

/-- A new entry comes behind the rows of its key so far; `old` are the ones stored. -/
def addRow (num : Nat) (old : List StoredRow) (rows : Option (List StoredRow)) (e : Entry) : Option (List StoredRow) :=
  some (rows.getD (if e.force then [] else old) ++ [newRow num e])

def written (db : DB) (num : Nat) (d : TableData) (key : Bytes) : Option (List StoredRow) :=
  (ofKey d.info key d.newEntries).foldl (addRow num ((db.find? (entryKey d.info.name key)).getD [])) none

section commits

variable {db : DB} {o : Outcomes} {num : Nat} {info : TableInfo}

theorem foldl_addRow_some (old rows : List StoredRow) (es : List Entry) :
    es.foldl (addRow num old) (some rows) = some (rows ++ es.map (newRow num)) := by
  induction es generalizing rows with
  | nil => rw [List.foldl_nil, List.map_nil, List.append_nil]
  | cons e es ih =>
    rw [List.foldl_cons, addRow, Option.getD_some, ih, List.map_cons, List.append_assoc, List.singleton_append]

theorem foldl_addRow_none (old : List StoredRow) (e : Entry) (es : List Entry) :
    (e :: es).foldl (addRow num old) none = some ((if e.force then [] else old) ++ (e :: es).map (newRow num)) := by
  rw [List.foldl_cons, addRow, Option.getD_none, foldl_addRow_some, List.map_cons, List.append_assoc,
    List.singleton_append]

theorem processEntry_eq (hget : ∀ key, o.get key = .ok) (key2value : KeyToRows) (e : Entry) :
    processEntry db o num info false key2value e =
      .ok (key2value.insert (e.getField info.key)
        ((key2value.find? (e.getField info.key)).getD
          (if e.force then [] else (db.find? (entryKey info.name (e.getField info.key))).getD []) ++ [newRow num e])) := by
  unfold processEntry
  cases hforce : e.force with
  | true => rfl
  | false =>
    simp only [Bool.not_false, Bool.and_false, Bool.false_eq_true, if_false, listOf, Get, hget, checkStatus]
    cases hfind : key2value.find? (e.getField info.key) <;> rfl

theorem processEntries_spec (hget : ∀ key, o.get key = .ok) (key2value : KeyToRows) (es : List Entry) :
    ∃ lists, processEntries db o num info false key2value es = .ok lists
      ∧ ∀ key, lists.find? key =
        (ofKey info key es).foldl (addRow num ((db.find? (entryKey info.name key)).getD [])) (key2value.find? key) := by
  induction es generalizing key2value with
  | nil => exact ⟨key2value, rfl, fun _ => rfl⟩
  | cons e es ih =>
    rw [processEntries, processEntry_eq hget]
    obtain ⟨lists, hlists, hfind⟩ := ih (key2value.insert (e.getField info.key)
      ((key2value.find? (e.getField info.key)).getD
        (if e.force then [] else (db.find? (entryKey info.name (e.getField info.key))).getD []) ++ [newRow num e]))
    refine ⟨lists, hlists, fun key => ?_⟩
    rw [hfind]
    by_cases hkey : e.getField info.key = key
    · subst hkey
      rw [SortedMap.find?_insert_self, ofKey, ofKey, List.filter_cons_of_pos (by simp), List.foldl_cons, addRow]
    · rw [SortedMap.find?_insert_of_ne _ _ (Ne.symm hkey), ofKey, ofKey, List.filter_cons_of_neg (by simp [hkey])]

theorem tableLists_spec (hget : ∀ key, o.get key = .ok) (complete : Bool) {d : TableData} (hdirty : d.dirtyEntries = []) :
    ∃ lists, tableLists complete db o num d = .ok lists ∧ ∀ key, lists.find? key = written db num d key := by
  obtain ⟨lists, hlists, hfind⟩ := @processEntries_spec db o num d.info hget SortedMap.empty d.newEntries
  refine ⟨lists, ?_, hfind⟩
  rw [tableLists, hdirty]
  cases complete
  · exact hlists
  · exact hlists

theorem putLists_eq (hput : ∀ key, o.put key = .ok) (lists : List (Bytes × List StoredRow)) :
    putLists o info lists = .ok (lists.map fun l => ⟨entryKey info.name l.1, l.2⟩) := by
  induction lists with
  | nil => rfl
  | cons l lists ih =>
    rw [putLists, hput, ih]
    rfl

theorem tablesPuts_spec (ho : o.Fine) (complete : Bool) {datas : List TableData} (hdirty : ∀ d ∈ datas, d.dirtyEntries = []) :
    ∃ puts, tablesPuts complete db o num datas = .ok puts
      ∧ ∀ p, p ∈ puts ↔ ∃ d ∈ datas, ∃ key, p.key = entryKey d.info.name key ∧ written db num d key = some p.value := by
  induction datas with
  | nil => exact ⟨[], rfl, fun p => ⟨fun h => absurd h List.not_mem_nil, fun ⟨d, hd, _⟩ => absurd hd List.not_mem_nil⟩⟩
  | cons d datas ih =>
    obtain ⟨lists, hlists, hfind⟩ := @tableLists_spec db o num ho.get complete d (hdirty d List.mem_cons_self)
    obtain ⟨puts, hputs, hmem⟩ := ih fun d' hd' => hdirty d' (List.mem_cons_of_mem d hd')
    refine ⟨lists.entries.map (fun l => ⟨entryKey d.info.name l.1, l.2⟩) ++ puts, ?_, fun p => ?_⟩
    · rw [tablesPuts, hlists]
      show (putLists o d.info lists.entries).bind _ = _
      rw [putLists_eq ho.put, hputs]
      rfl
    · have hfirst : p ∈ lists.entries.map (fun l => ({ key := entryKey d.info.name l.1, value := l.2 } : Put))
          ↔ ∃ key, p.key = entryKey d.info.name key ∧ written db num d key = some p.value := by
        constructor
        · intro hp
          obtain ⟨l, hl, rfl⟩ := List.mem_map.mp hp
          exact ⟨l.1, rfl, (hfind l.1).symm.trans (SortedMap.mem_entries_iff.mp hl)⟩
        · rintro ⟨key, hkey, hvalue⟩
          refine List.mem_map.mpr ⟨(key, p.value), SortedMap.mem_entries_iff.mpr ((hfind key).trans hvalue), ?_⟩
          cases p
          cases hkey
          rfl
      rw [List.mem_append, hfirst, hmem, List.exists_mem_cons_iff]

theorem find?_write (puts : List Put) (db : DB) (key : Bytes) :
    ((∀ p ∈ puts, p.key ≠ key) → (write db puts).find? key = db.find? key)
      ∧ ∀ value, (∃ p ∈ puts, p.key = key) → (∀ p ∈ puts, p.key = key → p.value = value) →
        (write db puts).find? key = some value := by
  induction puts generalizing db with
  | nil => exact ⟨fun _ => rfl, fun value hp => absurd hp.choose_spec.1 List.not_mem_nil⟩
  | cons p puts ih =>
    obtain ⟨hother, hthis⟩ := ih (db.insert p.key p.value)
    refine ⟨fun hne => ?_, fun value hp hvalue => ?_⟩
    · refine (hother fun q hq => hne q (List.mem_cons_of_mem p hq)).trans ?_
      exact AssocMap.find?_insert_of_ne _ _ (Ne.symm (hne p List.mem_cons_self))
    · by_cases hrest : ∃ q ∈ puts, q.key = key
      · exact hthis value hrest fun q hq => hvalue q (List.mem_cons_of_mem p hq)
      · have hne : ∀ q ∈ puts, q.key ≠ key := fun q hq heq => hrest ⟨q, hq, heq⟩
        obtain ⟨q, hq, hkey⟩ := hp
        have hfirst : p.key = key := by
          rcases List.mem_cons.mp hq with rfl | hq
          · exact hkey
          · exact absurd hkey (hne q hq)
        refine (hother hne).trans ?_
        rw [← hfirst, AssocMap.find?_insert_self, hvalue p List.mem_cons_self hfirst]

/-- **What a commit of new entries writes**, where the names of tables and keys
    that are joined differ. -/
theorem commit_find? (ho : o.Fine) (complete : Bool) {datas : List TableData} (hdirty : ∀ d ∈ datas, d.dirtyEntries = []) :
    ∃ db', commit complete db o num datas = .value (db', datas.length)
      ∧ (∀ key, (∀ d ∈ datas, ∀ k, entryKey d.info.name k = key → written db num d k = none) →
        db'.find? key = db.find? key)
      ∧ ∀ d ∈ datas, ∀ k rows, written db num d k = some rows →
        (∀ d' ∈ datas, ∀ k', entryKey d'.info.name k' = entryKey d.info.name k → d' = d ∧ k' = k) →
        db'.find? (entryKey d.info.name k) = some rows := by
  obtain ⟨puts, hputs, hmem⟩ := @tablesPuts_spec db o num ho complete datas hdirty
  have hmem' : ∀ p, p ∈ o.order puts ↔ p ∈ puts := fun p => (o.order_perm puts).mem_iff
  refine ⟨write db (o.order puts), ?_, fun key hnone => ?_, fun d hd k rows hrows hjoined => ?_⟩
  · rw [commit, hputs, ho.write]
    rfl
  · refine (find?_write (o.order puts) db key).1 fun p hp hkey => ?_
    obtain ⟨d, hd, k, hpkey, hvalue⟩ := (hmem p).mp ((hmem' p).mp hp)
    rw [hnone d hd k (hpkey.symm.trans hkey)] at hvalue
    cases hvalue
  · refine (find?_write (o.order puts) db (entryKey d.info.name k)).2 rows ?_ ?_
    · exact ⟨⟨entryKey d.info.name k, rows⟩, (hmem' _).mpr ((hmem _).mpr ⟨d, hd, k, rfl, hrows⟩), rfl⟩
    · intro p hp hkey
      obtain ⟨d', hd', k', hpkey, hvalue⟩ := (hmem p).mp ((hmem' p).mp hp)
      obtain ⟨rfl, rfl⟩ := hjoined d' hd' k' (hpkey.symm.trans hkey)
      rw [hrows] at hvalue
      cases hvalue
      rfl

end commits

end HieraChain.RocksDBStorage
