/-
  HieraChain/ScalableStorageArchive.lean
  ======================================
  **The store that the name of a block leads to holds the block**
  (`libstorage/ScalableStorage.cpp`, `libledger/DBInitializer.cpp`).

  What an archive store holds for a key follows from the commits in its history
  (`History.find?`): the rows of the one block that has entries of the key, once,
  as a block is written a second time only from the binary log, with forced entries.
  The invariant ties the rows of `s_block_to_dbname` to these histories.  A crash
  keeps it where no archive store loses a block that the state store keeps; the
  replay starts from the state store only.
-/
import HieraChain.ScalableStorage

namespace HieraChain.ScalableStorage

open HieraChain.BigEndian HieraChain.Storage HieraChain.CachedStorage HieraChain.RocksDBStorage

/-! ### Blocks -/

/-- What the tables of a block are: some, with names of their own; the archive
    tables have new entries only. -/
structure GoodBlock (num : Nat) (datas : List TableData) : Prop where
  some : datas ≠ []
  names : (datas.map fun d => d.info.name).Nodup
  inserts : ∀ d ∈ datas, isStateData d.info.name = false → d.dirtyEntries = []
  entries : ∀ d ∈ datas, isStateData d.info.name = false → ∀ e ∈ d.newEntries, Storable num e

def entriesAt (datas : List TableData) (table key : Bytes) : List Entry :=
  (datas.filter fun d => d.info.name = table).flatMap fun d => ofKey d.info key d.newEntries

/-- What a select should give: the entries that block `num` has committed. -/
def committed (cfg : Config) (num : Nat) (datas : List TableData) (table key : Bytes) (condition : Option Condition) :
    List Entry :=
  ((entriesAt datas table key).map (stored num)).filter fun e =>
    decide (e.status = NORMAL) && condition.all fun c => c.process cfg.version e

section blocks

variable {cfg : Config} {num : Nat} {datas : List TableData} {table key : Bytes} {d : TableData}

theorem entriesAt_eq (hnames : (datas.map fun d => d.info.name).Nodup) (hd : d ∈ datas) :
    entriesAt datas d.info.name key = ofKey d.info key d.newEntries := by
  have hfilter : datas.filter (fun d' => d'.info.name = d.info.name) = [d] := by
    induction datas with
    | nil => cases hd
    | cons d' datas ih =>
      rw [List.map_cons, List.nodup_cons] at hnames
      rcases List.mem_cons.mp hd with rfl | hd
      · rw [List.filter_cons_of_pos (by simp), List.filter_eq_nil_iff.mpr]
        intro d' hd' hname
        exact hnames.1 (List.mem_map.mpr ⟨d', hd', by simpa using hname⟩)
      · rw [List.filter_cons_of_neg, ih hnames.2 hd]
        intro hname
        have hname' : d'.info.name = d.info.name := by simpa using hname
        exact hnames.1 (List.mem_map.mpr ⟨d, hd, hname'.symm⟩)
  rw [entriesAt, hfilter, List.flatMap_cons, List.flatMap_nil, List.append_nil]

theorem entriesAt_eq_nil (h : ∀ d ∈ datas, d.info.name ≠ table) : entriesAt datas table key = [] := by
  rw [entriesAt, List.filter_eq_nil_iff.mpr fun d hd => by simpa using h d hd, List.flatMap_nil]

theorem entryKey_injective {t t' k k' : Bytes} (ht : isStateData t = false) (ht' : isStateData t' = false)
    (heq : entryKey t k = entryKey t' k') : t = t' ∧ k = k' := by
  have hmem : ∀ {t}, isStateData t = false → t = SYS_HASH_2_BLOCK ∨ t = SYS_BLOCK_2_NONCES := by
    intro t ht
    rw [isStateData, decide_eq_false_iff_not, not_not, m_archiveTables] at ht
    simpa using ht
  have hne : ∀ k k', entryKey SYS_HASH_2_BLOCK k ≠ entryKey SYS_BLOCK_2_NONCES k' := by
    intro k k' heq
    have hprefix := congrArg (List.take 6) heq
    rw [entryKey, entryKey, List.take_append_of_le_length (by decide), List.take_append_of_le_length (by decide)]
      at hprefix
    exact absurd hprefix (by decide)
  rcases hmem ht with rfl | rfl
  · rcases hmem ht' with rfl | rfl
    · exact ⟨rfl, (List.cons.inj (List.append_cancel_left heq)).2⟩
    · exact absurd heq (hne k k')
  · rcases hmem ht' with rfl | rfl
    · exact absurd heq.symm (hne k' k)
    · exact ⟨rfl, (List.cons.inj (List.append_cancel_left heq)).2⟩

theorem mem_archiveData : d ∈ archiveData datas ↔ d ∈ datas ∧ isStateData d.info.name = false := by
  rw [archiveData, List.mem_filter, Bool.not_eq_true']

theorem mem_logged : d ∈ logged datas ↔ ∃ d' ∈ datas, d =
    { d' with
      dirtyEntries := d'.dirtyEntries.map (decoded d'.info)
      newEntries := d'.newEntries.map (decoded d'.info) } := by
  rw [logged, List.mem_map]
  exact exists_congr fun d' => and_congr_right fun _ => eq_comm

def Forced (datas : List TableData) : Prop :=
  ∀ d ∈ datas, isStateData d.info.name = false → ∀ e ∈ d.newEntries, e.force = true

theorem forced_logged (datas : List TableData) : Forced (logged datas) := by
  intro d hd harchive e he
  obtain ⟨d', -, rfl⟩ := mem_logged.mp hd
  obtain ⟨e', -, rfl⟩ := List.mem_map.mp he
  show (!isStateData d'.info.name) = true
  rw [show isStateData d'.info.name = false from harchive, Bool.not_false]

theorem GoodBlock.logged (h : GoodBlock num datas) : GoodBlock num (logged datas) where
  some hnil := h.some (List.map_eq_nil_iff.mp hnil)
  names := by
    rw [ScalableStorage.logged, List.map_map]
    exact h.names
  inserts d hd harchive := by
    obtain ⟨d', hd', rfl⟩ := mem_logged.mp hd
    show d'.dirtyEntries.map _ = []
    rw [h.inserts d' hd' harchive, List.map_nil]
  entries d hd harchive e he := by
    obtain ⟨d', hd', rfl⟩ := mem_logged.mp hd
    obtain ⟨e', he', rfl⟩ := List.mem_map.mp he
    have hstorable := h.entries d' hd' harchive e' he'
    exact ⟨hstorable.id, hstorable.num, hstorable.status⟩

theorem rows_logged (datas : List TableData) (table key : Bytes) :
    (entriesAt (logged datas) table key).map (newRow num) = (entriesAt datas table key).map (newRow num) := by
  have hcomm : (logged datas).filter (fun d => d.info.name = table)
      = logged (datas.filter fun d => d.info.name = table) := by
    rw [logged, List.filter_map]
    rfl
  rw [entriesAt, entriesAt, hcomm, logged, List.flatMap_map, List.map_flatMap, List.map_flatMap]
  refine List.flatMap_congr fun d _ => ?_
  rw [ofKey, ofKey, List.filter_map, List.map_map]
  rfl

/-! ### Commits to an archive store -/

theorem written_eq {db : DB} (h : db.find? (entryKey d.info.name key) = none ∨ ∀ e ∈ d.newEntries, e.force = true) :
    written db num d key =
      if ofKey d.info key d.newEntries = [] then none else some ((ofKey d.info key d.newEntries).map (newRow num)) := by
  rw [written]
  cases hentries : ofKey d.info key d.newEntries with
  | nil => rfl
  | cons e es =>
    have hin : e ∈ ofKey d.info key d.newEntries := hentries ▸ List.mem_cons_self
    have hold : (if e.force then [] else (db.find? (entryKey d.info.name key)).getD []) = ([] : List StoredRow) := by
      rcases h with hnone | hforce
      · rw [hnone, Option.getD_none, ite_self]
      · rw [hforce e (List.mem_filter.mp hin).1, if_pos rfl]
    rw [foldl_addRow_none, hold, List.nil_append, if_neg (List.cons_ne_nil e es)]

theorem written_eq_none {db : DB} (h : ofKey d.info key d.newEntries = []) : written db num d key = none := by
  rw [written, h, List.foldl_nil]

/-- **A block in an archive store**: the keys that it has entries of get their rows. -/
theorem commit_block (db : DB) (order : PutOrder) (hgood : GoodBlock num datas) :
    ∃ db', RocksDBStorage.commit cfg.shouldCompleteDirty db order.outcomes num (archiveData datas)
        = .value (db', (archiveData datas).length)
      ∧ ∀ table key, isStateData table = false →
        (Forced datas ∨ db.find? (entryKey table key) = none ∨ entriesAt datas table key = []) →
        db'.find? (entryKey table key) =
          if entriesAt datas table key = [] then db.find? (entryKey table key)
          else some ((entriesAt datas table key).map (newRow num)) := by
  obtain ⟨db', hcommit, hkeep, hwrite⟩ := @commit_find? db order.outcomes num
    ⟨fun _ => rfl, fun _ => rfl, rfl⟩ cfg.shouldCompleteDirty (archiveData datas) fun d hd =>
      hgood.inserts d (mem_archiveData.mp hd).1 (mem_archiveData.mp hd).2
  refine ⟨db', hcommit, fun table key htable hcase => ?_⟩
  split
  next hnil =>
    refine hkeep _ fun d hd k hkey => ?_
    obtain ⟨hd, harchive⟩ := mem_archiveData.mp hd
    obtain ⟨rfl, rfl⟩ := entryKey_injective harchive htable hkey
    exact written_eq_none ((entriesAt_eq hgood.names hd).symm.trans hnil)
  next hsome =>
    -- the one table of that name
    have hexists : ∃ d ∈ datas, d.info.name = table := by
      by_contra hno
      exact hsome (entriesAt_eq_nil fun d hd hname => hno ⟨d, hd, hname⟩)
    obtain ⟨d, hd, rfl⟩ := hexists
    have hentries : entriesAt datas d.info.name key = ofKey d.info key d.newEntries := entriesAt_eq hgood.names hd
    rw [hentries] at hsome hcase ⊢
    refine hwrite d (mem_archiveData.mpr ⟨hd, htable⟩) key _ ?_ ?_
    · rw [written_eq, if_neg hsome]
      rcases hcase with hforced | hnone | hnil
      · exact Or.inr (hforced d hd htable)
      · exact Or.inl hnone
      · exact absurd hnil hsome
    · intro d' hd' k' hkey
      obtain ⟨hd', harchive'⟩ := mem_archiveData.mp hd'
      obtain ⟨hname, hk⟩ := entryKey_injective harchive' htable hkey
      exact ⟨List.inj_on_of_nodup_map hgood.names hd' hd hname, hk⟩

end blocks

/-! ### Histories of archive stores -/

def newest (history : List (Nat × DB)) : DB := history.head?.elim AssocMap.empty Prod.snd

/-- Every commit to the store was of a block of the binary log; a second one of the
    same block has forced entries. -/
inductive History (cfg : Config) (log : List (List TableData)) : List (Nat × DB) → Prop
  | nil : History cfg log []
  | cons {older : List (Nat × DB)} {num : Nat} {db : DB} {datas given : List TableData} {size : Nat} (order : PutOrder) :
      History cfg log older → log[num]? = some datas →
      (given = datas ∧ num ∉ older.map Prod.fst ∨ given = logged datas) →
      RocksDBStorage.commit cfg.shouldCompleteDirty (newest older) order.outcomes num (archiveData given)
        = .value (db, size) →
      History cfg log ((num, db) :: older)

def LogOk (log : List (List TableData)) : Prop := ∀ (num : Nat) (datas : List TableData), log[num]? = some datas → GoodBlock num datas

section histories

variable {cfg : Config} {log : List (List TableData)} {history : List (Nat × DB)}

theorem History.drop (h : History cfg log history) (n : Nat) : History cfg log (history.drop n) := by
  induction n generalizing history with
  | zero => exact h
  | succ n ih =>
    cases h with
    | nil => exact History.nil
    | cons order h hlog hgiven hcommit => exact ih h

theorem History.append (h : History cfg log history) (datas : List TableData) : History cfg (log ++ [datas]) history := by
  induction h with
  | nil => exact History.nil
  | cons order _ hlog hgiven hcommit ih =>
    have hlt := (List.getElem?_eq_some_iff.mp hlog).1
    exact History.cons order ih ((List.getElem?_append_left hlt).trans hlog) hgiven hcommit

theorem History.lt (h : History cfg log history) {num : Nat} (hnum : num ∈ history.map Prod.fst) : num < log.length := by
  induction h with
  | nil => cases hnum
  | cons order _ hlog _ _ ih =>
    rcases List.mem_cons.mp hnum with rfl | hnum
    · exact (List.getElem?_eq_some_iff.mp hlog).1
    · exact ih hnum

/-- **A store holds the rows of a block once it has committed it**, for a key that
    no other block has entries of. -/
theorem History.find? (h : History cfg log history) (hok : LogOk log) {k : Nat} {datas : List TableData}
    {table key : Bytes} (hk : log[k]? = some datas) (htable : isStateData table = false)
    (hother : ∀ (j : Nat) (datas' : List TableData), log[j]? = some datas' → j ≠ k → entriesAt datas' table key = []) :
    (newest history).find? (entryKey table key) =
      if k ∈ history.map Prod.fst ∧ entriesAt datas table key ≠ [] then
        some ((entriesAt datas table key).map (newRow k))
      else none := by
  induction h with
  | nil => rw [if_neg fun hin => absurd hin.1 List.not_mem_nil]; rfl
  | @cons older num db datas' given size order _ hlog hgiven hcommit ih =>
    -- what the block gives to the key, from the caller or from the binary log
    have hgood := hok num datas' hlog
    have hblock : GoodBlock num given ∧ (given = datas' ∧ num ∉ older.map Prod.fst ∨ Forced given)
        ∧ (entriesAt given table key).map (newRow num) = (entriesAt datas' table key).map (newRow num) := by
      rcases hgiven with ⟨rfl, hnew⟩ | rfl
      · exact ⟨hgood, Or.inl ⟨rfl, hnew⟩, rfl⟩
      · exact ⟨hgood.logged, Or.inr (forced_logged datas'), rows_logged datas' table key⟩
    obtain ⟨hgood', hcase, hrows⟩ := hblock
    obtain ⟨db', hcommit', hfind⟩ := @commit_block cfg num given (newest older) order hgood'
    have hsame := hcommit.symm.trans hcommit'
    cases hsame
    have hnil : entriesAt given table key = [] ↔ entriesAt datas' table key = [] := by
      rw [← List.map_eq_nil_iff, hrows, List.map_eq_nil_iff]
    show db.find? (entryKey table key) = _
    by_cases hnum : num = k
    · subst hnum
      have hdatas := hlog.symm.trans hk
      cases hdatas
      rw [hfind table key htable]
      · split
        next hempty =>
          rw [ih, if_neg fun hin => hin.2 (hnil.mp hempty), if_neg fun hin => hin.2 (hnil.mp hempty)]
        next hsome =>
          rw [hrows, if_pos ⟨List.mem_cons_self, fun hempty => hsome (hnil.mpr hempty)⟩]
      · rcases hcase with ⟨-, hnew⟩ | hforced
        · refine Or.inr (Or.inl ?_)
          rw [ih, if_neg fun hin => hnew hin.1]
        · exact Or.inl hforced
    · have hempty : entriesAt given table key = [] := hnil.mpr (hother num datas' hlog hnum)
      rw [hfind table key htable (Or.inr (Or.inr hempty)), if_pos hempty, ih]
      have hmem : k ∈ ((num, db) :: older).map Prod.fst ↔ k ∈ older.map Prod.fst := by
        rw [List.map_cons, List.mem_cons]
        exact or_iff_right fun heq => hnum heq.symm
      simp only [hmem]

end histories

/-! ### Replays -/

def blocksFrom (log : List (List TableData)) (num : Nat) : List (Nat × List TableData) :=
  (log.zipIdx.drop num).map fun block => (block.2, logged block.1)

section replays

variable {log : List (List TableData)} {num : Nat}

theorem filter_zipIdx {α : Type} (l : List α) (first low size : Nat) :
    ((l.zipIdx first).filter fun p => decide (low ≤ p.2 ∧ p.2 < low + size))
      = ((l.zipIdx first).drop (low - first)).take (size - (first - low)) := by
  induction l generalizing first with
  | nil => simp
  | cons a l ih =>
    rw [List.zipIdx_cons]
    by_cases hlow : low ≤ first
    · by_cases hhigh : first < low + size
      · rw [List.filter_cons_of_pos (by simp [hlow, hhigh]), ih, Nat.sub_eq_zero_of_le hlow,
          Nat.sub_eq_zero_of_le (Nat.le_succ_of_le hlow), List.drop_zero, List.drop_zero,
          show size - (first - low) = size - (first + 1 - low) + 1 by omega, List.take_succ_cons]
      · rw [List.filter_cons_of_neg (by simp [hhigh]), ih, show size - (first - low) = 0 by omega,
          show size - (first + 1 - low) = 0 by omega, List.take_zero, List.take_zero]
    · rw [List.filter_cons_of_neg (by simp [hlow]), ih, show low - first = low - (first + 1) + 1 by omega,
        List.drop_succ_cons, show first - low = 0 by omega, show first + 1 - low = 0 by omega]

theorem getMissing_eq (log : List (List TableData)) (num : Nat) :
    getMissingBlocksFromBinLog log ((num : Int) - 1) ((num : Int) - 1 + interval) = (blocksFrom log num).take 100 := by
  have hfilter := filter_zipIdx log 0 num 100
  rw [Nat.sub_zero, Nat.zero_sub, Nat.sub_zero] at hfilter
  rw [getMissingBlocksFromBinLog, blocksFrom, ← List.map_take, ← hfilter]
  congr 1
  refine List.filter_congr fun block _ => ?_
  rw [interval]
  exact decide_eq_decide.mpr (by omega)

theorem length_blocksFrom (log : List (List TableData)) (num : Nat) : (blocksFrom log num).length = log.length - num := by
  rw [blocksFrom, List.length_map, List.length_drop, List.length_zipIdx]

theorem getElem?_blocksFrom (log : List (List TableData)) (num i : Nat) :
    (blocksFrom log num)[i]? = (log[num + i]?).map fun datas => (num + i, logged datas) := by
  rw [blocksFrom, List.getElem?_map, List.getElem?_drop, List.getElem?_zipIdx, Option.map_map, Nat.zero_add]
  rfl

theorem mapM_range' {α : Type} {f : Nat → Option α} (l : List α) (first : Nat)
    (h : ∀ i a, l[i]? = some a → f (first + i) = some a) : (List.range' first l.length).mapM f = some l := by
  induction l generalizing first with
  | nil => rfl
  | cons a l ih =>
    have hrest := ih (first + 1) fun i b hb => by
      rw [Nat.add_assoc, Nat.add_comm 1 i]
      exact h (i + 1) b hb
    have hfirst : f first = some a := h 0 a rfl
    rw [List.length_cons, List.range'_succ, List.mapM_cons, hfirst, hrest]
    rfl

theorem find?_numbered {α : Type} (l : List (Nat × α)) (first i : Nat) (h : ∀ j b, l[j]? = some b → b.1 = first + j) :
    l.find? (fun b => decide ((b.1 : Int) = (first : Int) + i)) = l[i]? := by
  induction l generalizing first i with
  | nil => rfl
  | cons b l ih =>
    have hb : b.1 = first := h 0 b rfl
    cases i with
    | zero => rw [List.find?_cons_of_pos (by simp [hb]), List.getElem?_cons_zero]
    | succ i =>
      have hrest := ih (first + 1) i fun j c hc => by
        rw [Nat.add_assoc, Nat.add_comm 1 j]
        exact h (j + 1) c hc
      have hne : decide ((b.1 : Int) = (first : Int) + ((i + 1 : Nat) : Int)) = false := decide_eq_false (by omega)
      rw [List.getElem?_cons_succ, ← hrest]
      simp only [List.find?_cons, hne]
      congr 1
      funext c
      exact decide_eq_decide.mpr (by omega)

theorem collect_eq (hok : LogOk log) (num : Nat) :
    (List.range ((blocksFrom log num).take 100).length).mapM
        (fun i : Nat => findBlock ((blocksFrom log num).take 100) ((num : Int) - 1 + (i + 1)))
      = some ((blocksFrom log num).take 100) := by
  have hnumbered : ∀ j b, ((blocksFrom log num).take 100)[j]? = some b → b.1 = num + j ∧ b.2 ≠ [] := by
    intro j b hb
    rw [List.getElem?_take] at hb
    split at hb
    · rw [getElem?_blocksFrom] at hb
      obtain ⟨datas, hdatas, rfl⟩ := Option.map_eq_some_iff.mp hb
      exact ⟨rfl, (hok _ datas hdatas).logged.some⟩
    · cases hb
  rw [List.range_eq_range']
  refine mapM_range' _ 0 fun i b hb => ?_
  have hfind := find?_numbered _ num i fun j c hc => (hnumbered j c hc).1
  have hnum : ((num : Int) - 1 + (((0 + i : Nat) : Int) + 1)) = (num : Int) + i := by omega
  have hsome : b.2.isEmpty = false := List.isEmpty_eq_false_iff.mpr (hnumbered i b hb).2
  rw [findBlock, hnum, hfind, hb]
  dsimp only
  rw [hsome, if_neg Bool.false_ne_true]

theorem recoverLoop_eq (hok : LogOk log) (fuel num : Nat) (hfuel : log.length < num + fuel) :
    recoverLoop log fuel ((num : Int) - 1) = some (blocksFrom log num) := by
  induction fuel generalizing num with
  | zero =>
    have hnil : blocksFrom log num = [] := List.eq_nil_of_length_eq_zero (by rw [length_blocksFrom]; omega)
    rw [recoverLoop, hnil]
  | succ fuel ih =>
    rw [recoverLoop]
    split
    next hend =>
      rw [getLastBlockNum] at hend
      have hnil : blocksFrom log num = [] := List.eq_nil_of_length_eq_zero (by rw [length_blocksFrom]; omega)
      rw [hnil]
    next =>
      have hnext : (num : Int) - 1 + interval = ((num + 100 : Nat) : Int) - 1 := by
        rw [interval]
        omega
      dsimp only
      rw [getMissing_eq, collect_eq hok, hnext, ih (num + 100) (by omega), Option.bind_some, Option.map_some]
      have hdrop : blocksFrom log (num + 100) = (blocksFrom log num).drop 100 := by
        rw [blocksFrom, blocksFrom, ← List.map_drop, List.drop_drop]
      rw [hdrop, List.take_append_drop]

/-- **The blocks that are committed again** are all behind the number. -/
theorem recover_eq (hok : LogOk log) (num : Nat) :
    recoverFromBinaryLog log ((num : Int) - 1) = some (blocksFrom log num) := by
  rw [recoverFromBinaryLog]
  split
  next hend =>
    rw [getLastBlockNum] at hend
    have hnil : blocksFrom log num = [] := List.eq_nil_of_length_eq_zero (by rw [length_blocksFrom]; omega)
    rw [hnil]
  next => exact recoverLoop_eq hok _ num (by omega)

end replays

/-! ### The invariant -/

/-- The rows of a state store are of the blocks from 0 on.  The store of a block was
    begun no later than the block, and it exists. -/
structure StateOk (log : List (List TableData)) (dirs : List Nat) (st : StateStore) : Prop where
  numbers : st.dbNames.map Prod.fst = List.range st.dbNames.length
  number : getBlockNumberFromStorage st = (st.dbNames.length : Int) - 1
  le : st.dbNames.length ≤ log.length
  rows : ∀ row ∈ st.dbNames, row.2 ≤ row.1 ∧ row.2 ∈ dirs

structure DiskOk (cfg : Config) (d : Disk) : Prop where
  log : LogOk d.binaryLog
  histories : ∀ name, History cfg d.binaryLog (d.archives name)
  states : ∀ st ∈ d.state, StateOk d.binaryLog d.dirs st

def Held (d : Disk) : Prop := ∀ row ∈ d.stateStore.dbNames, row.1 ∈ (d.archives row.2).map Prod.fst

def System.next (s : System) : Nat := s.stateStore.dbNames.length

inductive Work (log : List (List TableData)) : Nat → List Task → Prop
  | idle : Work log log.length []
  | remote : Work log log.length [.setRemoteBlockNumber]
  | replay {num : Nat} {datas : List TableData} {tasks : List Task} :
      log[num]? = some datas → Work log (num + 1) tasks → Work log num (commit num (logged datas) ++ tasks)

inductive Phase (s : System) : Prop
  | between : Work s.disk.binaryLog s.next s.tasks → Phase s
  | block {datas : List TableData} :
      GoodBlock s.disk.binaryLog.length datas → s.next = s.disk.binaryLog.length →
      s.tasks = .writeBlocktoBinLog datas :: commit s.next datas → Phase s
  | archive {datas : List TableData} {tasks : List Task} :
      s.disk.binaryLog[s.next]? = some datas → (∀ name, s.next ∉ (s.disk.archives name).map Prod.fst) →
      Work s.disk.binaryLog (s.next + 1) tasks → s.tasks = commit s.next datas ++ tasks → Phase s
  | state {tasks : List Task} :
      s.next < s.disk.binaryLog.length → s.next ∈ (s.disk.archives s.m_archive).map Prod.fst →
      Work s.disk.binaryLog (s.next + 1) tasks → s.tasks = .state s.next :: .scroll s.next :: tasks → Phase s
  | scroll {num : Nat} {tasks : List Task} :
      num + 1 = s.next → Work s.disk.binaryLog s.next tasks → s.tasks = .scroll num :: tasks → Phase s

structure Inv (cfg : Config) (s : System) : Prop where
  disk : DiskOk cfg s.disk
  held : Held s.disk
  opened : s.m_archive = s.m_archiveDBName
  dir : s.m_archiveDBName ∈ s.disk.dirs
  current : ∀ row ∈ s.stateStore.dbNames, s.m_archiveDBName ≤ row.1 → row.2 = s.m_archiveDBName
  le : s.m_archiveDBName ≤ s.next

section invariant

variable {cfg : Config} {s : System} {d : Disk}

theorem DiskOk.stateStore (h : DiskOk cfg d) : StateOk d.binaryLog d.dirs d.stateStore := by
  rw [Disk.stateStore]
  cases hstate : d.state with
  | nil => exact ⟨rfl, rfl, Nat.zero_le _, nofun⟩
  | cons st older => exact h.states st (hstate ▸ List.mem_cons_self)

theorem StateOk.lt {log : List (List TableData)} {dirs : List Nat} {st : StateStore} (h : StateOk log dirs st)
    {row : Nat × Nat} (hrow : row ∈ st.dbNames) : row.1 < st.dbNames.length := by
  rw [← List.mem_range, ← h.numbers]
  exact List.mem_map_of_mem hrow

theorem StateOk.name {log : List (List TableData)} {dirs : List Nat} {st : StateStore} (h : StateOk log dirs st)
    {num : Nat} (hnum : num < st.dbNames.length) :
    ∃ row ∈ st.dbNames, row.1 = num ∧ getDBNameOfArchivedBlock st num = some row.2 := by
  have hnumbered : ∀ i row, st.dbNames[i]? = some row → row.1 = 0 + i := by
    intro i row hrow
    have hfst : (st.dbNames.map Prod.fst)[i]? = some row.1 := by rw [List.getElem?_map, hrow]; rfl
    rw [h.numbers, List.getElem?_eq_some_iff] at hfst
    obtain ⟨hi, hvalue⟩ := hfst
    rw [Nat.zero_add, ← hvalue, List.getElem_range]
  have hfind := find?_numbered st.dbNames 0 num hnumbered
  have hrow : st.dbNames[num]? = some st.dbNames[num] := List.getElem?_eq_getElem hnum
  refine ⟨st.dbNames[num], List.getElem_mem hnum, (hnumbered num _ hrow).trans (Nat.zero_add num), ?_⟩
  rw [hrow] at hfind
  rw [getDBNameOfArchivedBlock]
  have hsame : (fun row : Nat × Nat => decide ((row.1 : Int) = (num : Int)))
      = fun row => decide ((row.1 : Int) = ((0 : Nat) : Int) + num) := by
    funext row
    exact decide_eq_decide.mpr (by omega)
  rw [hsame, hfind, Option.map_some]

theorem StateOk.mono {log log' : List (List TableData)} {dirs dirs' : List Nat} {st : StateStore}
    (h : StateOk log dirs st) (hlog : log.length ≤ log'.length) (hdirs : ∀ name ∈ dirs, name ∈ dirs') :
    StateOk log' dirs' st where
  numbers := h.numbers
  number := h.number
  le := le_trans h.le hlog
  rows row hrow := ⟨(h.rows row hrow).1, hdirs _ (h.rows row hrow).2⟩

theorem mem_getStorage (d : Disk) (name : Nat) :
    name ∈ (d.getStorage name).dirs ∧ ∀ other ∈ d.dirs, other ∈ (d.getStorage name).dirs := by
  rw [Disk.getStorage]
  dsimp only
  split
  next hin => exact ⟨hin, fun _ hother => hother⟩
  next =>
    exact ⟨List.mem_append_right _ List.mem_cons_self, fun _ hother => List.mem_append_left _ hother⟩

theorem DiskOk.getStorage (h : DiskOk cfg d) (name : Nat) : DiskOk cfg (d.getStorage name) where
  log := h.log
  histories := h.histories
  states st hst := (h.states st hst).mono (le_refl _) (mem_getStorage d name).2

/-! #### A start -/

theorem work_blocksFrom {log : List (List TableData)} (left num : Nat) (hleft : num + left = log.length) :
    Work log num (((blocksFrom log num).flatMap fun block => commit block.1 block.2) ++ [.setRemoteBlockNumber]) := by
  induction left generalizing num with
  | zero =>
    have hnum : num = log.length := hleft
    have hnil : blocksFrom log num = [] := List.eq_nil_of_length_eq_zero (by rw [length_blocksFrom]; omega)
    rw [hnil, hnum]
    exact Work.remote
  | succ left ih =>
    have hlt : num < log.length := by omega
    have hcons : blocksFrom log num = (num, logged log[num]) :: blocksFrom log (num + 1) := by
      have hlen : num < log.zipIdx.length := by rw [List.length_zipIdx]; exact hlt
      rw [blocksFrom, List.drop_eq_getElem_cons hlen, List.map_cons, List.getElem_zipIdx, Nat.zero_add]
      rfl
    rw [hcons, List.flatMap_cons, List.append_assoc]
    exact Work.replay (List.getElem?_eq_getElem hlt) (ih (num + 1) (by omega))

/-- **A start goes on from the state store.** -/
theorem start_spec (hdisk : DiskOk cfg d) (hheld : Held d) : ∃ s, start d = some s ∧ Inv cfg s ∧ Phase s := by
  have hstate := hdisk.stateStore
  rw [start, hstate.number, recover_eq hdisk.log]
  refine ⟨_, rfl, ⟨hdisk.getStorage _, hheld, rfl, (mem_getStorage d _).1, ?_, ?_⟩, ?_⟩
  · intro row hrow hle
    have hlt := hstate.lt hrow
    have hle' := (hstate.rows row hrow).1
    dsimp only at hle ⊢
    split at hle
    next hpos => omega
    next hpos =>
      rw [if_neg hpos]
      omega
  · show (if (0 : Int) < (d.stateStore.dbNames.length : Int) - 1 then _ else 0) ≤ d.stateStore.dbNames.length
    split
    · omega
    · omega
  · exact Phase.between (work_blocksFrom (d.binaryLog.length - d.stateStore.dbNames.length) _
      (Nat.add_sub_cancel' hstate.le))

/-! #### Tasks -/

theorem perform_log (h : Inv cfg s) {datas : List TableData} (hgood : GoodBlock s.disk.binaryLog.length datas) :
    Inv cfg { s with disk := { s.disk with binaryLog := s.disk.binaryLog ++ [datas] } } where
  disk :=
    { log := fun num datas' hnum => by
        rcases Nat.lt_or_ge num s.disk.binaryLog.length with hlt | hge
        · exact h.disk.log num datas' ((List.getElem?_append_left hlt).symm.trans hnum)
        · have hlast := (List.getElem?_append_right hge).symm.trans hnum
          obtain ⟨hlt, hvalue⟩ := List.getElem?_eq_some_iff.mp hlast
          have hend : num = s.disk.binaryLog.length := by
            rw [List.length_singleton] at hlt
            omega
          subst hend
          simp only [Nat.sub_self, List.getElem_cons_zero] at hvalue
          subst hvalue
          exact hgood
      histories := fun name => (h.disk.histories name).append datas
      states := fun st hst => (h.disk.states st hst).mono (by rw [List.length_append]; exact Nat.le_add_right ..)
        fun _ hname => hname }
  held := h.held
  opened := h.opened
  dir := h.dir
  current := h.current
  le := h.le

theorem perform_archive (h : Inv cfg s) (order : PutOrder) {num : Nat} {datas given : List TableData}
    (hlog : s.disk.binaryLog[num]? = some datas)
    (hgiven : given = datas ∧ num ∉ (s.disk.archives s.m_archive).map Prod.fst ∨ given = logged datas) :
    ∃ db, s.perform cfg order (.archive num (archiveData given))
        = some { s with disk := { s.disk with
            archives := Function.update s.disk.archives s.m_archive ((num, db) :: s.disk.archives s.m_archive) } }
      ∧ Inv cfg { s with disk := { s.disk with
            archives := Function.update s.disk.archives s.m_archive ((num, db) :: s.disk.archives s.m_archive) } } := by
  have hgood := h.disk.log num datas hlog
  have hgood' : GoodBlock num given := by
    rcases hgiven with ⟨rfl, -⟩ | rfl
    · exact hgood
    · exact hgood.logged
  obtain ⟨db, hcommit, -⟩ := @commit_block cfg num given (s.disk.archive s.m_archive) order hgood'
  refine ⟨db, by rw [System.perform, hcommit], ⟨⟨h.disk.log, fun name => ?_, h.disk.states⟩, fun row hrow => ?_, h.opened,
    h.dir, h.current, h.le⟩⟩
  · by_cases hname : name = s.m_archive
    · subst hname
      dsimp only
      rw [Function.update_self]
      exact History.cons order (h.disk.histories _) hlog hgiven hcommit
    · dsimp only
      rw [Function.update_of_ne hname]
      exact h.disk.histories name
  · have hin := h.held row hrow
    by_cases hname : row.2 = s.m_archive
    · dsimp only
      rw [hname, Function.update_self]
      rw [hname] at hin
      exact List.mem_cons_of_mem num hin
    · dsimp only
      rw [Function.update_of_ne hname]
      exact hin

theorem perform_state (h : Inv cfg s) (order : PutOrder) (hlt : s.next < s.disk.binaryLog.length)
    (hin : s.next ∈ (s.disk.archives s.m_archive).map Prod.fst) :
    ∃ s', s.perform cfg order (.state s.next) = some s' ∧ Inv cfg s' ∧ s'.disk.binaryLog = s.disk.binaryLog
      ∧ s'.next = s.next + 1 ∧ s'.tasks = s.tasks := by
  have hstate := h.disk.stateStore
  have hrows : ∀ row ∈ s.stateStore.dbNames ++ [(s.next, s.m_archiveDBName)],
      row ∈ s.stateStore.dbNames ∨ row = (s.next, s.m_archiveDBName) := by
    intro row hrow
    exact (List.mem_append.mp hrow).imp_right List.mem_singleton.mp
  have hlength : (s.stateStore.dbNames ++ [(s.next, s.m_archiveDBName)]).length = s.next + 1 := List.length_append
  refine ⟨_, rfl, ⟨⟨h.disk.log, h.disk.histories, ?_⟩, ?_, h.opened, h.dir, ?_, ?_⟩, rfl, hlength, rfl⟩
  · intro st hst
    rcases List.mem_cons.mp hst with rfl | hst
    · refine ⟨?_, ?_, ?_, ?_⟩
      · dsimp only
        rw [hlength, List.map_append, List.range_succ]
        exact congrArg (· ++ [s.next]) hstate.numbers
      · show (s.next : Int) = _
        rw [hlength]
        omega
      · rw [hlength]
        exact hlt
      · intro row hrow
        rcases hrows row hrow with hrow | rfl
        · exact hstate.rows row hrow
        · exact ⟨h.le, h.dir⟩
    · exact h.disk.states st hst
  · intro row hrow
    rcases hrows row hrow with hrow | rfl
    · exact h.held row hrow
    · rw [h.opened] at hin
      exact hin
  · intro row hrow hle
    rcases hrows row hrow with hrow | rfl
    · exact h.current row hrow hle
    · rfl
  · exact le_trans h.le (le_of_lt (Nat.lt_of_lt_of_eq (Nat.lt_succ_self _) hlength.symm))

theorem perform_scroll (h : Inv cfg s) (order : PutOrder) {num : Nat} (hnum : num + 1 = s.next) :
    ∃ s', s.perform cfg order (.scroll num) = some s' ∧ Inv cfg s' ∧ s'.disk.binaryLog = s.disk.binaryLog
      ∧ s'.next = s.next ∧ s'.tasks = s.tasks := by
  rw [System.perform]
  split
  · refine ⟨_, rfl, ⟨h.disk.getStorage _, h.held, rfl, (mem_getStorage s.disk _).1, ?_, le_of_eq hnum⟩, rfl, rfl, rfl⟩
    intro row hrow hle
    have hlt : row.1 < s.next := h.disk.stateStore.lt hrow
    dsimp only at hle
    omega
  · exact ⟨s, rfl, h, rfl, rfl, rfl⟩

theorem perform_setRemote (h : Inv cfg s) (order : PutOrder) :
    ∃ s', s.perform cfg order .setRemoteBlockNumber = some s' ∧ Inv cfg s' ∧ s'.disk.binaryLog = s.disk.binaryLog
      ∧ s'.next = s.next ∧ s'.tasks = s.tasks := by
  rw [System.perform]
  split
  · exact ⟨s, rfl, h, rfl, rfl, rfl⟩
  · exact ⟨_, rfl, ⟨h.disk, h.held, h.opened, h.dir, h.current, h.le⟩, rfl, rfl, rfl⟩

/-! #### Steps -/

theorem DiskOk.lose (h : DiskOk cfg d) (ofState : Nat) (ofArchive : Nat → Nat) :
    DiskOk cfg (d.lose ofState ofArchive) where
  log := h.log
  histories name := (h.histories name).drop _
  states st hst := h.states st (List.mem_of_mem_drop hst)

/-- Blocks are as `GoodBlock` says.  **A crash takes no block from an archive store
    that the state store keeps.** -/
def Input.Ok (s : System) : Input → Prop
  | .block datas => GoodBlock s.disk.binaryLog.length datas
  | .work _ => True
  | .crash ofState ofArchive => Held (s.disk.lose ofState ofArchive)

theorem Phase.idle (hphase : Phase s) (hnil : s.tasks = []) : s.next = s.disk.binaryLog.length := by
  cases hphase with
  | between hwork =>
    rw [hnil] at hwork
    generalize hnext : s.next = next at hwork
    cases hwork with
    | idle => rfl
  | block _ _ htasks =>
    rw [hnil] at htasks
    cases htasks
  | archive _ _ _ htasks =>
    rw [hnil] at htasks
    cases htasks
  | state _ _ _ htasks =>
    rw [hnil] at htasks
    cases htasks
  | scroll _ _ htasks =>
    rw [hnil] at htasks
    cases htasks

/-- **One task.** -/
theorem work_step (h : Inv cfg s) (hphase : Phase s) (order : PutOrder) {task : Task} {tasks : List Task}
    (htask : s.tasks = task :: tasks) :
    ∃ s', ({ s with tasks }).perform cfg order task = some s' ∧ Inv cfg s' ∧ Phase s' := by
  have h' : Inv cfg { s with tasks } := ⟨h.disk, h.held, h.opened, h.dir, h.current, h.le⟩
  -- the archive part of a block, first written or written again
  have harchive : ∀ {datas given : List TableData} {rest : List Task}, s.disk.binaryLog[s.next]? = some datas →
      (given = datas ∧ s.next ∉ (s.disk.archives s.m_archive).map Prod.fst ∨ given = logged datas) →
      Work s.disk.binaryLog (s.next + 1) rest → task :: tasks = commit s.next given ++ rest →
      ∃ s', ({ s with tasks }).perform cfg order task = some s' ∧ Inv cfg s' ∧ Phase s' := by
    intro datas given rest hlog hgiven hwork heq
    obtain ⟨rfl, rfl⟩ := List.cons.inj heq
    obtain ⟨db, hperform, hinv⟩ := perform_archive h' order hlog hgiven
    refine ⟨_, hperform, hinv, Phase.state (List.getElem?_eq_some_iff.mp hlog).1 ?_ hwork rfl⟩
    dsimp only
    rw [Function.update_self]
    exact List.mem_cons_self
  cases hphase with
  | between hwork =>
    rw [htask] at hwork
    generalize hnext : s.next = next at hwork
    generalize hlist : task :: tasks = list at hwork
    cases hwork with
    | idle => cases hlist
    | remote =>
      obtain ⟨rfl, rfl⟩ := List.cons.inj hlist
      obtain ⟨s', hperform, hinv, hlog, hnext', htasks'⟩ := perform_setRemote h' order
      refine ⟨s', hperform, hinv, Phase.between ?_⟩
      rw [hlog, hnext', htasks']
      show Work s.disk.binaryLog s.next []
      rw [hnext]
      exact Work.idle
    | replay hlog hwork =>
      subst hnext
      exact harchive hlog (Or.inr rfl) hwork hlist
  | @block datas hgood hnext htasks =>
    rw [htask] at htasks
    obtain ⟨rfl, rfl⟩ := List.cons.inj htasks
    refine ⟨_, rfl, perform_log h' hgood, Phase.archive ?_ ?_ ?_ (List.append_nil _).symm⟩
    · show (s.disk.binaryLog ++ [datas])[s.next]? = _
      rw [hnext]
      exact List.getElem?_concat_length
    · intro name hin
      have hlt : s.next < s.disk.binaryLog.length := (h.disk.histories name).lt hin
      exact absurd hnext (Nat.ne_of_lt hlt)
    · have hlength : (s.disk.binaryLog ++ [datas]).length = s.next + 1 := by
        rw [hnext]
        exact List.length_append
      show Work (s.disk.binaryLog ++ [datas]) (s.next + 1) []
      rw [← hlength]
      exact Work.idle
  | archive hlog hnew hwork htasks =>
    rw [htask] at htasks
    exact harchive hlog (Or.inl ⟨rfl, hnew _⟩) hwork htasks
  | state hlt hin hwork htasks =>
    rw [htask] at htasks
    obtain ⟨rfl, rfl⟩ := List.cons.inj htasks
    obtain ⟨s', hperform, hinv, hlog, hnext', htasks'⟩ := perform_state h' order hlt hin
    refine ⟨s', hperform, hinv, Phase.scroll hnext'.symm ?_ htasks'⟩
    rw [hlog, hnext']
    exact hwork
  | scroll hnum hwork htasks =>
    rw [htask] at htasks
    obtain ⟨rfl, rfl⟩ := List.cons.inj htasks
    obtain ⟨s', hperform, hinv, hlog, hnext', htasks'⟩ := perform_scroll h' order hnum
    refine ⟨s', hperform, hinv, Phase.between ?_⟩
    rw [hlog, hnext', htasks']
    exact hwork

theorem step_spec (h : Inv cfg s) (hphase : Phase s) {i : Input} (hi : i.Ok s) :
    ∃ s', s.step cfg i = some s' ∧ Inv cfg s' ∧ Phase s' := by
  cases i with
  | block datas =>
    rw [System.step]
    split
    next hempty =>
      have hnext := hphase.idle (List.isEmpty_iff.mp hempty)
      refine ⟨_, rfl, ⟨h.disk, h.held, h.opened, h.dir, h.current, h.le⟩, Phase.block hi hnext ?_⟩
      exact congrArg (fun num => Task.writeBlocktoBinLog datas :: commit num datas) hnext.symm
    next => exact ⟨s, rfl, h, hphase⟩
  | work order =>
    rw [System.step]
    split
    next => exact ⟨s, rfl, h, hphase⟩
    next task tasks htask => exact work_step h hphase order htask
  | crash ofState ofArchive =>
    exact start_spec (h.disk.lose ofState ofArchive) hi

/-! #### Selects -/

theorem selectFromArchive_eq (h : Inv cfg s) (order : PutOrder) {num : Nat} (hnum : num < s.next) {datas : List TableData}
    (hdatas : s.disk.binaryLog[num]? = some datas) {info : TableInfo} (htable : isStateData info.name = false) {key : Bytes}
    (hother : ∀ (j : Nat) (datas' : List TableData), s.disk.binaryLog[j]? = some datas' → j ≠ num →
      entriesAt datas' info.name key = []) (condition : Option Condition) :
    selectFromArchive cfg s order num info key condition
      = .value (some (committed cfg num datas info.name key condition)) := by
  have hstate := h.disk.stateStore
  obtain ⟨row, hrow, rfl, hname⟩ := hstate.name hnum
  -- what the store of the block holds
  have hselect : RocksDBStorage.select cfg.version (s.disk.archive row.2) order.outcomes info key condition
      = .value (some (committed cfg row.1 datas info.name key condition)) := by
    have hfind := (h.disk.histories row.2).find? h.disk.log hdatas htable hother
    have hin := h.held row hrow
    have hrows : readRows (((s.disk.archive row.2).find? (entryKey info.name key)).getD [])
        = some ((entriesAt datas info.name key).map (stored row.1)) := by
      have hstorable : ∀ e ∈ entriesAt datas info.name key, Storable row.1 e := by
        intro e he
        obtain ⟨d, hd, he⟩ := List.mem_flatMap.mp he
        obtain ⟨hd, hdname⟩ := List.mem_filter.mp hd
        have hdname' : d.info.name = info.name := by simpa using hdname
        exact (h.disk.log row.1 datas hdatas).entries d hd (by rw [hdname']; exact htable) e (List.mem_filter.mp he).1
      rw [← readRows_map hstorable]
      congr 1
      rw [show (s.disk.archive row.2).find? (entryKey info.name key) = _ from hfind]
      by_cases hnil : entriesAt datas info.name key = []
      · rw [if_neg fun hsome => hsome.2 hnil, hnil]
        rfl
      · rw [if_pos ⟨hin, hnil⟩, Option.getD_some]
    have hget : Get (s.disk.archive row.2) order.outcomes (entryKey info.name key)
        = .ok ((s.disk.archive row.2).find? (entryKey info.name key)) := rfl
    rw [RocksDBStorage.select, hget]
    dsimp only
    rw [hrows]
    rfl
  rw [selectFromArchive]
  split
  next =>
    rw [show getDBNameOfArchivedBlock s.stateStore row.1 = some row.2 from hname]
    dsimp only
    rw [if_pos (hstate.rows row hrow).2]
    exact hselect
  next hle =>
    have hsame := h.current row hrow (Nat.le_of_not_lt hle)
    rw [h.opened, ← hsame]
    exact hselect

/-- **Archived blocks stay reachable where no crash takes from an archive store what
    the state store keeps**: after any blocks, tasks and crashes the process goes
    on, and a select of a block that is not left to the remote storage gives what
    the block has committed for a key that no other block has entries of. -/
theorem archived_reachable (cfg : Config) (inputs : List Input)
    (hok : (machine cfg).RunOk (fun o i => ∀ s, o = some s → i.Ok s) (start {}) inputs) :
    ∃ s, (machine cfg).run (start {}) inputs = some s
      ∧ ∀ (order : PutOrder) (num : Nat) (datas : List TableData) (info : TableInfo) (key : Bytes)
          (condition : Option Condition),
        s.m_remoteBlockNumber ≤ num → (num : Int) ≤ getBlockNumberFromStorage s.stateStore →
        s.disk.binaryLog[num]? = some datas → info.name ∈ m_archiveTables →
        (∀ (j : Nat) (datas' : List TableData), s.disk.binaryLog[j]? = some datas' → j ≠ num →
          entriesAt datas' info.name key = []) →
        select cfg s order num info key condition
          = .archive (.value (some (committed cfg num datas info.name key condition))) := by
  have hempty : DiskOk cfg {} := ⟨fun _ _ h => absurd h (by simp), fun _ => History.nil, nofun⟩
  obtain ⟨s₀, hstart, hinv₀, hphase₀⟩ := @start_spec cfg {} hempty nofun
  have hstep : ∀ (o : Option System) (i : Input), (∃ s, o = some s ∧ Inv cfg s ∧ Phase s) → (∀ s, o = some s → i.Ok s) →
      ∃ s, (machine cfg).step o i = some s ∧ Inv cfg s ∧ Phase s := by
    rintro o i ⟨s, rfl, hinv, hphase⟩ hi
    exact step_spec hinv hphase (hi s rfl)
  obtain ⟨s, hs, hinv, -⟩ := (machine cfg).run_invariant hstep ⟨s₀, hstart, hinv₀, hphase₀⟩ hok
  have hnumber : getBlockNumberFromStorage s.stateStore = (s.next : Int) - 1 := hinv.disk.stateStore.number
  refine ⟨s, hs, ?_⟩
  intro order num datas info key condition hremote hle hdatas htable hother
  have hlt : num < s.next := by omega
  have harchive : isStateData info.name = false := by
    rw [isStateData, decide_eq_false_iff_not, not_not]
    exact htable
  rw [select, if_neg (not_lt.mpr hremote), selectFromArchive_eq hinv order hlt hdatas harchive hother condition]

end invariant

/-! ### A sample -/

def sampleConfig : Config where
  version := 0
  shouldCompleteDirty := true
  m_scrollThreshold := 2

def sampleOrder : PutOrder := ⟨id, fun puts => List.Perm.refl puts⟩

def sampleInfo : TableInfo where
  name := SYS_HASH_2_BLOCK
  key := HASH
  fields := [SYS_VALUE]

def sampleBlock (hash : UInt8) : List TableData :=
  [{ info := sampleInfo
     newEntries := [(({ id := 1, force := true } : Entry).setField HASH [hash]).setField SYS_VALUE [hash, hash]] }]

theorem good_sampleBlock (num : Nat) (hnum : num < 2 ^ 32) (hash : UInt8) : GoodBlock num (sampleBlock hash) where
  some := List.cons_ne_nil _ _
  names := List.nodup_singleton _
  inserts d hd _ := by
    rw [List.mem_singleton.mp hd]
  entries d hd _ e he := by
    rw [List.mem_singleton.mp hd] at he
    rw [List.mem_singleton.mp he]
    exact ⟨(by decide : (1 : Nat) < 2 ^ 64), hnum, (by decide : -2 ^ 31 ≤ (0 : Int) ∧ (0 : Int) < 2 ^ 31)⟩

instance (d : Disk) : Decidable (Held d) := inferInstanceAs (Decidable (∀ row ∈ d.stateStore.dbNames, _))

theorem ok_block {o : Option System} (num : Nat) {datas : List TableData}
    (ho : o.map (fun s => s.disk.binaryLog.length) = some num) (hgood : GoodBlock num datas) :
    ∀ s, o = some s → (Input.block datas).Ok s := by
  rintro s rfl
  cases ho
  exact hgood

theorem ok_crash {o : Option System} {ofState : Nat} {ofArchive : Nat → Nat}
    (ho : o.map (fun s => decide (Held (s.disk.lose ofState ofArchive))) = some true) :
    ∀ s, o = some s → (Input.crash ofState ofArchive).Ok s := by
  rintro s rfl
  have hheld : Held (s.disk.lose ofState ofArchive) := of_decide_eq_true (Option.some.inj ho)
  exact hheld

/-- Two blocks, each with its four tasks, and a crash, with the tasks of the start. -/
abbrev sampleRun (ofState : Nat) (ofArchive : Nat → Nat) : List Input :=
  [.work sampleOrder,
    .block (sampleBlock 1), .work sampleOrder, .work sampleOrder, .work sampleOrder, .work sampleOrder,
    .block (sampleBlock 2), .work sampleOrder, .work sampleOrder, .work sampleOrder, .work sampleOrder,
    .crash ofState ofArchive, .work sampleOrder, .work sampleOrder, .work sampleOrder, .work sampleOrder]

/-- The state store loses its last block, which is committed again. -/
theorem archived_reachable_sample :
    ∃ s, (machine sampleConfig).run (start {}) (sampleRun 1 fun _ => 0) = some s
      ∧ select sampleConfig s sampleOrder 1 sampleInfo [2] none
          = .archive (.value (some (committed sampleConfig 1 (sampleBlock 2) SYS_HASH_2_BLOCK [2] none))) := by
  obtain ⟨s, hs, hselect⟩ := archived_reachable sampleConfig (sampleRun 1 fun _ => 0)
    ⟨fun _ _ => trivial, ok_block 0 (by decide +kernel) (good_sampleBlock 0 (by decide) 1), fun _ _ => trivial,
      fun _ _ => trivial, fun _ _ => trivial, fun _ _ => trivial,
      ok_block 1 (by decide +kernel) (good_sampleBlock 1 (by decide) 2), fun _ _ => trivial, fun _ _ => trivial,
      fun _ _ => trivial, fun _ _ => trivial, ok_crash (by decide +kernel), fun _ _ => trivial, fun _ _ => trivial,
      fun _ _ => trivial, fun _ _ => trivial, trivial⟩
  -- what the end of the run looks like
  have hnumbers : ((machine sampleConfig).run (start {}) (sampleRun 1 fun _ => 0)).map
      (fun s => (s.m_remoteBlockNumber, getBlockNumberFromStorage s.stateStore)) = some (0, 1) := by decide +kernel
  have hlog : ((machine sampleConfig).run (start {}) (sampleRun 1 fun _ => 0)).map (fun s => s.disk.binaryLog)
      = some [sampleBlock 1, sampleBlock 2] := rfl
  rw [hs, Option.map_some, Option.some.injEq] at hnumbers hlog
  obtain ⟨hremote, hnumber⟩ := Prod.mk.inj hnumbers
  refine ⟨s, hs, hselect sampleOrder 1 (sampleBlock 2) sampleInfo [2] none ?_ ?_ ?_ (by decide) ?_⟩
  · rw [hremote]
    decide
  · rw [hnumber]
    decide
  · rw [hlog]
    rfl
  · rw [hlog]
    intro j datas' hj hne
    match j with
    | 0 =>
      cases hj
      decide +kernel
    | 1 => exact absurd rfl hne
    | j + 2 => cases hj

/-- **A crash that takes from the archive store a block that the state store keeps.**
    The block is not committed again, and its row is gone. -/
theorem archived_lost :
    GoodBlock 0 (sampleBlock 1) ∧ GoodBlock 1 (sampleBlock 2)
      ∧ ((machine sampleConfig).run (start {}) (sampleRun 0 fun _ => 1)).map
          (fun s => (s.m_remoteBlockNumber, getBlockNumberFromStorage s.stateStore, s.tasks.length)) = some (0, 1, 0)
      ∧ ((machine sampleConfig).run (start {}) (sampleRun 0 fun _ => 1)).map (fun s => s.disk.binaryLog)
          = some [sampleBlock 1, sampleBlock 2]
      ∧ ((machine sampleConfig).run (start {}) (sampleRun 0 fun _ => 1)).map
          (fun s => select sampleConfig s sampleOrder 1 sampleInfo [2] none) = some (.archive (.value (some [])))
      ∧ entriesAt (sampleBlock 1) SYS_HASH_2_BLOCK [2] = []
      ∧ (committed sampleConfig 1 (sampleBlock 2) SYS_HASH_2_BLOCK [2] none).length = 1 :=
  ⟨good_sampleBlock 0 (by decide) 1, good_sampleBlock 1 (by decide) 2, by decide +kernel, rfl, rfl, by decide +kernel,
    by decide +kernel⟩

end HieraChain.ScalableStorage
