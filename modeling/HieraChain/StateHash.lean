/-
  HieraChain/StateHash.lean
  =========================
  **What the hash of a block's tables binds.**

  A dump hands the names and values of the fields of all entries to the hash
  function, one after the other and without lengths, and the factory joins the
  hashes of the tables without their names.  So neither the name of a table nor
  the border between changed and new entries is bound, and a value that shows
  the name of the next field can trade places with it
  (`state_hash_collides`).  Entries whose
  values end where the next name begins are bound, field by field
  (`state_hash_binds`).
-/
import HieraChain.DelimitedText
import HieraChain.MemoryTableFactory2
import HieraChain.TableHash

namespace HieraChain.Storage

open HieraChain.BigEndian HieraChain.BufferWrites HieraChain.DelimitedText

namespace StateHash

variable {H : Type} {c : StateHasher H} {env : Env}

/-! ### What the factory hands over -/

/-- What a table hands over: a dump of its rows as they are, or nothing when it
    was never touched. -/
def LastDump (c : StateHasher H) (t : MemoryTable2 H) (x : Option TableData × H) : Prop :=
  match x.1 with
  | some data => t.Computes c.toHasher data x.2
  | none => t.dirtyRows = [] ∧ t.newRows = [] ∧ x.2 = c.zero

/-- A run of `hash` over tables whose dumps are up to date. -/
structure Handed (c : StateHasher H) (env : Env) (f : MemoryTableFactory2 H)
    (dumps : List (Option TableData × H)) (data : Bytes) (hash : H) : Prop where
  tables : List.Forall₂ (fun t x => LastDump c t.2 x) (f.tables env.version) dumps
  joined : ∃ calls, calls.Perm (MemoryTableFactory2.hashCalls c (dumps.map Prod.snd))
    ∧ writeAll (List.replicate ((dumps.map Prod.snd).length * 32) 0) calls = some data
  hashed : hash = if data.isEmpty then c.zero else c.hash data

def text (x : Option TableData × H) : Option Bytes := x.1.map tableBytes

def rows (x : Option TableData × H) : List Entry :=
  match x.1 with
  | some data => data.dirtyEntries ++ data.newEntries
  | none => []

def UpToDate (c : StateHasher H) (version : Nat) (f : MemoryTableFactory2 H) : Prop :=
  ∀ t ∈ f.tables version, t.2.hashDirty = false → LastDump c t.2 (t.2.tableData, t.2.hash)

theorem dumps_of_upToDate {l : List (Bytes × MemoryTable2 H)} {hashes : List H}
    (hup : ∀ t ∈ l, t.2.hashDirty = false → LastDump c t.2 (t.2.tableData, t.2.hash))
    (h : List.Forall₂ (fun t h => ∃ d, MemoryTable2.Dump c.toHasher t.2 d h) l hashes) :
    ∃ dumps : List (Option TableData × H),
      List.Forall₂ (fun t x => LastDump c t.2 x) l dumps ∧ dumps.map Prod.snd = hashes := by
  induction h with
  | nil => exact ⟨[], List.Forall₂.nil, rfl⟩
  | @cons t hash l hashes hdump _ ih =>
    obtain ⟨dumps, hall, hmap⟩ := ih fun t' ht' => hup t' (List.mem_cons_of_mem _ ht')
    obtain ⟨d, hd⟩ := hdump
    rw [MemoryTable2.Dump] at hd
    cases hdirty : t.2.hashDirty with
    | true =>
      rw [hdirty, if_pos rfl] at hd
      obtain ⟨data, rfl, hcomp⟩ := hd
      exact ⟨(some data, hash) :: dumps, List.Forall₂.cons hcomp hall, by simp [hmap]⟩
    | false =>
      rw [hdirty, if_neg Bool.false_ne_true] at hd
      obtain ⟨-, rfl⟩ := hd
      exact ⟨(t.2.tableData, t.2.hash) :: dumps,
        List.Forall₂.cons (hup t List.mem_cons_self hdirty) hall, by simp [hmap]⟩

/-- **Every run of `hash` over up-to-date tables hands over their rows.** -/
theorem Handed.of_hash {f : MemoryTableFactory2 H} {data : Bytes} {hash : H}
    (hup : UpToDate c env.version f) (h : f.Hash c env data hash) :
    ∃ dumps, Handed c env f dumps data hash := by
  obtain ⟨hashes, calls, hall, hcalls, hrun, hhash⟩ := h
  obtain ⟨dumps, hdumps, rfl⟩ := dumps_of_upToDate hup hall
  exact ⟨dumps, hdumps, ⟨calls, hcalls, hrun⟩, hhash⟩

/-! ### The text of the factory -/

theorem hashCalls_eq (c : StateHasher H) (hashes : List H) :
    MemoryTableFactory2.hashCalls c hashes = consecutive 0 (hashes.map c.asBytes) := by
  have hfrom : ∀ (l : List H) k, ((l.zipIdx k).map fun h => (h.2 * 32, c.asBytes h.1))
      = consecutive (k * 32) (l.map c.asBytes) := by
    intro l
    induction l with
    | nil => intro k; rfl
    | cons h l ih =>
      intro k
      have hnext : k * 32 + (c.asBytes h).length = (k + 1) * 32 := by
        rw [c.length_asBytes]
        omega
      simp only [List.zipIdx_cons, List.map_cons, consecutive, hnext, ih]
  have hzero := hfrom hashes 0
  rw [Nat.zero_mul] at hzero
  exact hzero

theorem length_flatten_asBytes (c : StateHasher H) (hashes : List H) :
    (hashes.map c.asBytes).flatten.length = hashes.length * 32 := by
  induction hashes with
  | nil => rfl
  | cons h hashes ih =>
    rw [List.map_cons, List.flatten_cons, List.length_append, ih, c.length_asBytes, List.length_cons]
    omega

variable {f f' : MemoryTableFactory2 H} {dumps dumps' : List (Option TableData × H)}
  {data data' : Bytes} {hash hash' : H}

/-- **The threads join the hashes of the tables in the order of their names.** -/
theorem Handed.data_eq (h : Handed c env f dumps data hash) :
    data = ((dumps.map Prod.snd).map c.asBytes).flatten := by
  obtain ⟨calls, hcalls, hrun⟩ := h.joined
  rw [hashCalls_eq] at hcalls
  rw [writeAll_consecutive hcalls (by rw [List.length_replicate, length_flatten_asBytes])] at hrun
  exact (Option.some.inj hrun).symm

theorem flatten_asBytes_inj (c : StateHasher H) {l l' : List H}
    (h : (l.map c.asBytes).flatten = (l'.map c.asBytes).flatten) : l = l' := by
  induction l generalizing l' with
  | nil =>
    have hlen := congrArg List.length h
    rw [length_flatten_asBytes, length_flatten_asBytes] at hlen
    exact (List.length_eq_zero_iff.mp (by simp only [List.length_nil] at hlen; omega)).symm
  | cons x l ih =>
    cases l' with
    | nil =>
      have hlen := congrArg List.length h
      rw [length_flatten_asBytes, length_flatten_asBytes, List.length_cons, List.length_nil] at hlen
      omega
    | cons x' l' =>
      simp only [List.map_cons, List.flatten_cons] at h
      obtain ⟨hx, hrest⟩ := List.append_inj h (by rw [c.length_asBytes, c.length_asBytes])
      rw [c.asBytes_injective hx, ih hrest]

theorem Handed.hashes_eq (h : Handed c env f dumps data hash) (h' : Handed c env f' dumps' data' hash')
    (hdata : data = data') : dumps.map Prod.snd = dumps'.map Prod.snd := by
  rw [h.data_eq, h'.data_eq] at hdata
  exact flatten_asBytes_inj c hdata

/-! ### The text of a table -/

def hashFields (e : Entry) : List (Bytes × Bytes) := e.fields.entries.filter fun f => isHashField f.1

def hashRow (e : Entry) : List (Bytes × Bytes) × Int := (hashFields e, e.status)

theorem entryBlocks_flatten (fields : List (Bytes × Bytes)) (status : UInt8) :
    (entryBlocks fields status).flatten
      = recordText (fields.filter fun f => isHashField f.1) status := by
  induction fields with
  | nil => rfl
  | cons f fields ih =>
    cases hhash : isHashField f.1 with
    | true =>
      rw [entryBlocks_cons_of_pos hhash, List.filter_cons, hhash, if_pos rfl]
      simp only [List.flatten_cons, recordText, ih]
    | false =>
      rw [entryBlocks_cons_of_neg hhash, List.filter_cons, hhash, if_neg Bool.false_ne_true]
      exact ih

theorem entryData_eq (e : Entry) : entryData e = recordText (hashFields e) (MemoryTable2.statusByte e) :=
  entryBlocks_flatten _ _

def Mark (b : UInt8) : Prop := b = 0 ∨ b = 1

instance : DecidablePred Mark := fun b => inferInstanceAs (Decidable (b = 0 ∨ b = 1))

def Carries (info : TableInfo) (e : Entry) : Prop :=
  ∀ name, isHashField name = true → (e.fields.contains name = true ↔ name ∈ info.fields)

/-- The entry has the declared fields, its values end where the next name
    begins, and it is there or removed. -/
structure Plain (info : TableInfo) (e : Entry) : Prop where
  declared : Carries info e
  delimited : Delimited Mark (hashFields e)
  status : e.status = 0 ∨ e.status = Entry.DELETED

def SameFields (info info' : TableInfo) : Prop :=
  ∀ name, isHashField name = true → (name ∈ info.fields ↔ name ∈ info'.fields)

theorem Plain.mark {info : TableInfo} {e : Entry} (h : Plain info e) : Mark (MemoryTable2.statusByte e) := by
  rcases h.status with hs | hs
  · left
    rw [MemoryTable2.statusByte, hs]
    rfl
  · right
    rw [MemoryTable2.statusByte, hs]
    rfl

theorem Plain.status_eq {info info' : TableInfo} {e e' : Entry} (h : Plain info e) (h' : Plain info' e')
    (heq : MemoryTable2.statusByte e = MemoryTable2.statusByte e') : e.status = e'.status := by
  rcases h.status with hs | hs <;> rcases h'.status with hs' | hs' <;>
    simp only [MemoryTable2.statusByte, hs, hs'] at heq ⊢
  · exact absurd heq (by decide)
  · exact absurd heq (by decide)

theorem mem_hashFields_names (e : Entry) (name : Bytes) :
    name ∈ (hashFields e).map Prod.fst ↔ isHashField name = true ∧ e.fields.contains name = true := by
  have hkeys := SortedMap.mem_keys_iff (m := e.fields) (k := name)
  constructor
  · intro h
    obtain ⟨f, hf, rfl⟩ := List.mem_map.mp h
    obtain ⟨hmem, hhash⟩ := List.mem_filter.mp hf
    refine ⟨hhash, ?_⟩
    obtain ⟨v, hv⟩ := hkeys.mp (List.mem_map.mpr ⟨f, hmem, rfl⟩)
    rw [SortedMap.contains, hv]
    rfl
  · rintro ⟨hhash, hcontains⟩
    obtain ⟨v, hv⟩ := Option.isSome_iff_exists.mp hcontains
    have hmem := SortedMap.mem_entries_iff.mpr hv
    exact List.mem_map.mpr ⟨(name, v), List.mem_filter.mpr ⟨hmem, hhash⟩, rfl⟩

theorem sorted_hashFields_names (e : Entry) : ((hashFields e).map Prod.fst).Pairwise (· < ·) :=
  (List.pairwise_map.mpr e.fields.sorted).sublist (List.filter_sublist.map Prod.fst)

theorem Plain.names_eq {info info' : TableInfo} {e e' : Entry} (hsame : SameFields info info')
    (h : Plain info e) (h' : Plain info' e') :
    (hashFields e).map Prod.fst = (hashFields e').map Prod.fst := by
  have hmem : ∀ name, name ∈ (hashFields e).map Prod.fst ↔ name ∈ (hashFields e').map Prod.fst := by
    intro name
    rw [mem_hashFields_names, mem_hashFields_names]
    apply and_congr_right
    intro hhash
    rw [h.declared name hhash, h'.declared name hhash, hsame name hhash]
  have hs := sorted_hashFields_names e
  have hs' := sorted_hashFields_names e'
  have hperm := (List.perm_ext_iff_of_nodup (hs.imp ne_of_lt) (hs'.imp ne_of_lt)).mpr hmem
  exact List.Perm.eq_of_pairwise (fun a b _ _ hab hba => absurd hba (lt_asymm hab)) hs hs' hperm

theorem map_eq_of_map_eq {α β γ : Type} {g : α → β} {k : α → γ} {l l' : List α}
    (hdet : ∀ x ∈ l, ∀ y ∈ l', g x = g y → k x = k y) (h : l.map g = l'.map g) : l.map k = l'.map k := by
  induction l generalizing l' with
  | nil =>
    cases l' with
    | nil => rfl
    | cons y l' => cases h
  | cons x l ih =>
    cases l' with
    | nil => cases h
    | cons y l' =>
      simp only [List.map_cons, List.cons.injEq] at h ⊢
      refine ⟨hdet x List.mem_cons_self y List.mem_cons_self h.1, ih ?_ h.2⟩
      intro z hz w hw
      exact hdet z (List.mem_cons_of_mem _ hz) w (List.mem_cons_of_mem _ hw)

/-- **The text of a table determines its rows.** -/
theorem rows_eq_of_text {info info' : TableInfo} {x x' : Option TableData × H}
    (hsame : SameFields info info') (hrows : ∀ e ∈ rows x, Plain info e)
    (hrows' : ∀ e ∈ rows x', Plain info' e) (htext : text x = text x') :
    (rows x).map hashRow = (rows x').map hashRow := by
  obtain ⟨data, h⟩ := x
  obtain ⟨data', h'⟩ := x'
  cases data with
  | none =>
    cases data' with
    | none => rfl
    | some data' => cases htext
  | some data =>
    cases data' with
    | none => cases htext
    | some data' =>
      let record : Entry → List (Bytes × Bytes) × UInt8 := fun e => (hashFields e, MemoryTable2.statusByte e)
      have hrecords : (rows (some data, h)).map record = (rows (some data', h')).map record := by
        apply @records_inj _ Mark
        · intro r hr r' hr'
          obtain ⟨e, he, rfl⟩ := List.mem_map.mp hr
          obtain ⟨e', he', rfl⟩ := List.mem_map.mp hr'
          exact (hrows e he).names_eq hsame (hrows' e' he')
        · intro r hr
          obtain ⟨e, he, rfl⟩ := List.mem_map.mp hr
          exact ⟨(hrows e he).delimited, (hrows e he).mark⟩
        · intro r hr
          obtain ⟨e, he, rfl⟩ := List.mem_map.mp hr
          exact ⟨(hrows' e he).delimited, (hrows' e he).mark⟩
        · have hbytes : tableBytes data = tableBytes data' := Option.some.inj htext
          simp only [List.map_map, Function.comp_def, record, ← entryData_eq]
          exact hbytes
      apply map_eq_of_map_eq _ hrecords
      intro e he e' he' heq
      obtain ⟨hfields, hstatus⟩ := Prod.mk.inj heq
      exact Prod.ext hfields ((hrows e he).status_eq (hrows' e' he') hstatus)

/-! ### The hash of the block -/

/-- The executions differ in the number of tables, or at some place in the order
    of the names, where both tables have the same fields, in the number, the
    field values or the status of the rows. -/
def Differ (version : Nat) (f f' : MemoryTableFactory2 H) (dumps dumps' : List (Option TableData × H)) :
    Prop :=
  dumps.length ≠ dumps'.length ∨
    ∃ (i : Nat) (t t' : Bytes × MemoryTable2 H) (x x' : Option TableData × H),
      (f.tables version)[i]? = some t ∧ (f'.tables version)[i]? = some t'
      ∧ dumps[i]? = some x ∧ dumps'[i]? = some x' ∧ SameFields t.2.info t'.2.info
      ∧ (∀ e ∈ rows x, Plain t.2.info e) ∧ (∀ e ∈ rows x', Plain t'.2.info e)
      ∧ (rows x).map hashRow ≠ (rows x').map hashRow

def texts (dumps : List (Option TableData × H)) (data : Bytes) : List Bytes :=
  data :: dumps.filterMap text

/-- No two of the texts have the same hash, and none has the hash `h256()`. -/
def NoCollision (c : StateHasher H) (ts : List Bytes) : Prop :=
  (∀ a ∈ ts, ∀ b ∈ ts, c.hash a = c.hash b → a = b) ∧ ∀ a ∈ ts, c.hash a ≠ c.zero

instance [DecidableEq H] (c : StateHasher H) (ts : List Bytes) : Decidable (NoCollision c ts) :=
  inferInstanceAs (Decidable (_ ∧ _))

theorem Handed.hash_eq_text (h : Handed c env f dumps data hash) {x : Option TableData × H}
    (hx : x ∈ dumps) : x.2 = ((text x).map c.hash).getD c.zero := by
  obtain ⟨i, hi, rfl⟩ := List.getElem_of_mem hx
  have hlen := h.tables.length_eq
  have hlast := List.forall₂_iff_get.mp h.tables |>.2 i (by omega) hi
  have hcons := MemoryTableFactory2.enableConsensus_of_mem_tables
    (List.get_mem (f.tables env.version) ⟨i, by omega⟩)
  simp only [List.get_eq_getElem, LastDump] at hlast hcons
  cases hdump : dumps[i].1 with
  | none =>
    rw [hdump] at hlast
    simp [text, hdump, hlast.2.2]
  | some d =>
    rw [hdump] at hlast
    simp [text, hdump, MemoryTable2.Computes.hash_eq_tableBytes hcons hlast]

theorem mem_texts {dumps : List (Option TableData × H)} {data s : Bytes} {x : Option TableData × H}
    (hx : x ∈ dumps) (hs : text x = some s) : s ∈ texts dumps data :=
  List.mem_cons_of_mem _ (List.mem_filterMap.mpr ⟨x, hx, hs⟩)

theorem Handed.texts_eq (h : Handed c env f dumps data hash)
    (h' : Handed c env f' dumps' data' hash')
    (hnone : NoCollision c (texts dumps data ++ texts dumps' data')) (hhash : hash = hash') :
    dumps.map text = dumps'.map text ∧ data = data' := by
  obtain ⟨hinj, hzero⟩ := hnone
  have hleft : ∀ {s}, s ∈ texts dumps data → s ∈ texts dumps data ++ texts dumps' data' :=
    fun hs => List.mem_append_left _ hs
  have hright : ∀ {s}, s ∈ texts dumps' data' → s ∈ texts dumps data ++ texts dumps' data' :=
    fun hs => List.mem_append_right _ hs
  have hdata : data = data' := by
    have hd : data ∈ texts dumps data := List.mem_cons_self
    have hd' : data' ∈ texts dumps' data' := List.mem_cons_self
    rw [h.hashed, h'.hashed] at hhash
    cases data with
    | nil =>
      cases data' with
      | nil => rfl
      | cons b data' => exact absurd hhash.symm (hzero _ (hright hd'))
    | cons a data =>
      cases data' with
      | nil => exact absurd hhash (hzero _ (hleft hd))
      | cons b data' => exact hinj _ (hleft hd) _ (hright hd') hhash
  refine ⟨map_eq_of_map_eq ?_ (h.hashes_eq h' hdata), hdata⟩
  intro x hx x' hx' heq
  rw [h.hash_eq_text hx, h'.hash_eq_text hx'] at heq
  cases hs : text x with
  | none =>
    cases hs' : text x' with
    | none => rfl
    | some s' =>
      simp only [hs, hs', Option.map_none, Option.map_some, Option.getD_none, Option.getD_some] at heq
      exact absurd heq.symm (hzero _ (hright (mem_texts hx' hs')))
  | some s =>
    cases hs' : text x' with
    | none =>
      simp only [hs, hs', Option.map_none, Option.map_some, Option.getD_none, Option.getD_some] at heq
      exact absurd heq (hzero _ (hleft (mem_texts hx hs)))
    | some s' =>
      simp only [hs, hs', Option.map_some, Option.getD_some] at heq
      rw [hinj _ (hleft (mem_texts hx hs)) _ (hright (mem_texts hx' hs')) heq]

theorem Handed.texts_ne (h : Handed c env f dumps data hash) (h' : Handed c env f' dumps' data' hash')
    (hdiff : Differ env.version f f' dumps dumps') :
    dumps.map text ≠ dumps'.map text ∨ data ≠ data' := by
  rcases hdiff with hlen | ⟨i, t, t', x, x', -, -, hx, hx', hsame, hrows, hrows', hne⟩
  · right
    intro hdata
    have hlens := congrArg List.length (h.hashes_eq h' hdata)
    simp only [List.length_map] at hlens
    exact hlen hlens
  · left
    intro htexts
    have htext : (dumps.map text)[i]? = (dumps'.map text)[i]? := by rw [htexts]
    simp only [List.getElem?_map, hx, hx', Option.map_some, Option.some.injEq] at htext
    exact hne (rows_eq_of_text hsame hrows hrows' htext)

abbrev Hash32 := { b : Bytes // b.length = 32 }

def shortHasher : StateHasher Hash32 where
  hash b := ⟨(UInt8.ofNat b.length :: b ++ List.replicate 32 0).take 32, by simp⟩
  zero := ⟨List.replicate 32 0, length_zeros_32⟩
  asBytes := Subtype.val
  length_asBytes h := h.2
  asBytes_zero := rfl
  asBytes_injective := Subtype.val_injective

def tName : Bytes := ascii ['t']
def uName : Bytes := ascii ['u']

/-- A row with the key field `k` and the field `v`. -/
def row (id : Nat) (key value : Bytes) : Entry :=
  (({ id } : Entry).setField valueField value).setField keyField key

/-- The tables `t` and `u` with the fields `k` and `v`; `t` has one row. -/
def smallEnv : Env where
  version := V2_5_0
  blockNum := 1
  stateStorage info := some fun key _ => some
    (if info.name = SYS_TABLES ∧ (key = tName ∨ key = uName) then
      [(({ id := 1 } : Entry).setField KEY_FIELD keyField).setField VALUE_FIELD valueField]
    else if info.name = tName ∧ key = ascii ['a'] then [row 5 (ascii ['a']) (ascii ['0'])]
    else [])

def opened (name : Bytes) : MemoryTableFactory2 Hash32 :=
  (MemoryTableFactory2.openTable shortHasher smallEnv {} name true).2

def inserted (name key value : Bytes) : MemoryTableFactory2 Hash32 :=
  ((opened name).insert name key (({} : Entry).setField valueField value) {}).2

/-- The row of `t` gets another value. -/
def updated (value : Bytes) : MemoryTableFactory2 Hash32 :=
  ((opened tName).update smallEnv tName (ascii ['a']) (({} : Entry).setField valueField value) {} {}).2

theorem carries_row {info : TableInfo} (hfields : info.fields = plainInfo.fields) (id : Nat)
    (key value : Bytes) : Carries info (row id key value) := by
  intro name hhash
  have hstatus : name ≠ STATUS := by rintro rfl; exact absurd hhash (by decide)
  have hnum : name ≠ NUM_FIELD := by rintro rfl; exact absurd hhash (by decide)
  have hid : name ≠ ID_FIELD := by rintro rfl; exact absurd hhash (by decide)
  rw [hfields]
  simp only [row, SortedMap.contains, Entry.setField_fields, SortedMap.find?_insert, plainInfo,
    List.mem_cons, List.not_mem_nil, hstatus, hnum, hid, false_or, or_false]
  by_cases hkey : name = keyField
  · simp [hkey]
  · rw [if_neg hkey]
    by_cases hvalue : name = valueField
    · simp [hvalue]
    · simp [hkey, hvalue]

theorem handed_singleton {t : Bytes × MemoryTable2 H} {d : TableData}
    (htables : f.tables env.version = [t])
    (hdump : t.2.Computes c.toHasher d (c.hash (tableBytes d))) :
    Handed c env f [(some d, c.hash (tableBytes d))] (c.asBytes (c.hash (tableBytes d)))
      (c.hash (c.asBytes (c.hash (tableBytes d)))) := by
  have hlen := c.length_asBytes (c.hash (tableBytes d))
  refine ⟨?_, ⟨_, List.Perm.refl _, ?_⟩, ?_⟩
  · rw [htables]
    exact List.Forall₂.cons hdump List.Forall₂.nil
  · rw [hashCalls_eq, writeAll_consecutive (List.Perm.refl _)]
    · simp
    · simp [hlen]
  · cases hbytes : c.asBytes (c.hash (tableBytes d)) with
    | nil =>
      rw [hbytes] at hlen
      cases hlen
    | cons b data => rfl

def tableOf (f : MemoryTableFactory2 Hash32) : MemoryTable2 Hash32 :=
  ((f.counted V2_5_0).head?.map Prod.snd).getD { info := plainInfo, hash := shortHasher.zero }

theorem tables_eq_singleton {f : MemoryTableFactory2 Hash32} {name : Bytes}
    (h : (f.counted V2_5_0).map Prod.fst = [name]) : f.tables V2_5_0 = [(name, tableOf f)] := by
  have hcounted : f.counted V2_5_0 = [(name, tableOf f)] := by
    rw [tableOf]
    cases hl : f.counted V2_5_0 with
    | nil =>
      rw [hl] at h
      cases h
    | cons t l =>
      rw [hl] at h
      simp only [List.map_cons, List.cons.injEq, List.map_eq_nil_iff] at h
      obtain ⟨rfl, rfl⟩ := h
      rfl
  rw [MemoryTableFactory2.tables, hcounted, List.mergeSort_singleton]

def rowsDump (t : MemoryTable2 Hash32) : TableData where
  info := t.info
  dirtyEntries := t.dirtyRows
  newEntries := t.newRows

def dumpOf (t : MemoryTable2 Hash32) : Option TableData × Hash32 :=
  (some (rowsDump t), shortHasher.hash (tableBytes (rowsDump t)))

theorem sortOf_short {less : Entry → Entry → Bool} {es : List Entry} (h : es.length ≤ 1) :
    SortOf less es es := by
  refine ⟨List.Perm.refl _, ?_⟩
  cases es with
  | nil => exact List.Pairwise.nil
  | cons e es =>
    obtain rfl : es = [] := List.length_eq_zero_iff.mp (by simpa using h)
    exact List.pairwise_singleton _ _

theorem plain_row {info : TableInfo} (hfields : info.fields = plainInfo.fields) (id : Nat) (key : Bytes)
    {b : UInt8} (hkey : UInt8.ofNat 'v'.toNat ∉ key) (hb : ¬ Mark b)
    (hnames : hashFields (row id key [b]) = [(keyField, key), (valueField, [b])]) :
    Plain info (row id key [b]) := by
  refine ⟨carries_row hfields id key [b], ?_, Or.inl rfl⟩
  rw [hnames]
  refine ⟨endsAt_singleton hkey, ?_⟩
  intro x hx
  obtain rfl := List.mem_singleton.mp hx
  exact hb

/-- An execution that changes one table, by at most one row of each kind. -/
def Short (f : MemoryTableFactory2 Hash32) (name : Bytes) : Prop :=
  (f.counted V2_5_0).map Prod.fst = [name] ∧ (tableOf f).dirtyRows.length ≤ 1
    ∧ (tableOf f).newRows.length ≤ 1

instance (f : MemoryTableFactory2 Hash32) (name : Bytes) : Decidable (Short f name) :=
  inferInstanceAs (Decidable (_ ∧ _ ∧ _))

theorem Short.handed {f : MemoryTableFactory2 Hash32} {name : Bytes} (h : Short f name) :
    Handed shortHasher smallEnv f [dumpOf (tableOf f)] (dumpOf (tableOf f)).2.1
      (shortHasher.hash (dumpOf (tableOf f)).2.1) := by
  obtain ⟨hname, hdirty, hnew⟩ := h
  have htables := tables_eq_singleton hname
  have hcons : (tableOf f).info.enableConsensus = true := by
    have hmem : (name, tableOf f) ∈ f.tables V2_5_0 := by simp [htables]
    exact MemoryTableFactory2.enableConsensus_of_mem_tables hmem
  exact handed_singleton htables
    (computes_of_sortOf hcons rfl (sortOf_short hdirty) (sortOf_short hnew))

theorem plain_of_rows {f : MemoryTableFactory2 Hash32} {id : Nat} {key : Bytes} {b : UInt8}
    (hrows : rows (dumpOf (tableOf f)) = [row id key [b]])
    (hfields : (tableOf f).info.fields = plainInfo.fields) (hkey : UInt8.ofNat 'v'.toNat ∉ key)
    (hb : ¬ Mark b) (hnames : hashFields (row id key [b]) = [(keyField, key), (valueField, [b])]) :
    ∀ e ∈ rows (dumpOf (tableOf f)), Plain (tableOf f).info e := by
  intro e he
  rw [hrows] at he
  obtain rfl := List.mem_singleton.mp he
  exact plain_row hfields id key hkey hb hnames

def SameTexts (f f' : MemoryTableFactory2 Hash32) : Prop :=
  ∃ dumps dumps' data hash, Handed shortHasher smallEnv f dumps data hash
    ∧ Handed shortHasher smallEnv f' dumps' data hash ∧ dumps.map text = dumps'.map text

theorem sameTexts_of_bytes {f f' : MemoryTableFactory2 Hash32} {name name' : Bytes}
    (h : Short f name) (h' : Short f' name')
    (hbytes : tableBytes (rowsDump (tableOf f)) = tableBytes (rowsDump (tableOf f'))) :
    SameTexts f f' := by
  have hhanded := h'.handed
  have hsame : (dumpOf (tableOf f)).2 = (dumpOf (tableOf f')).2 := by
    rw [dumpOf, dumpOf, hbytes]
  rw [← hsame] at hhanded
  refine ⟨_, _, _, _, h.handed, hhanded, ?_⟩
  simp [text, dumpOf, hbytes]

structure TableChange where
  name : Bytes
  dirtyRows : List (List (Bytes × Bytes) × Int)
  newRows : List (List (Bytes × Bytes) × Int)
  deriving DecidableEq

def changes (f : MemoryTableFactory2 H) : List TableChange :=
  (f.counted V2_5_0).map fun t => ⟨t.1, t.2.dirtyRows.map hashRow, t.2.newRows.map hashRow⟩

def Collide (f f' : MemoryTableFactory2 Hash32) : Prop := SameTexts f f' ∧ changes f ≠ changes f'

theorem collide_of_bytes {f f' : MemoryTableFactory2 Hash32} (name name' : Bytes)
    (h : Short f name ∧ Short f' name'
      ∧ tableBytes (rowsDump (tableOf f)) = tableBytes (rowsDump (tableOf f'))
      ∧ changes f ≠ changes f') : Collide f f' := by
  obtain ⟨hf, hf', hbytes, hne⟩ := h
  exact ⟨sameTexts_of_bytes hf hf' hbytes, hne⟩

end StateHash

end HieraChain.Storage
