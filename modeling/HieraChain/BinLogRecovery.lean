/-
  HieraChain/BinLogRecovery.lean
  ==============================
  **Crashes of a node with a binary log** (`BinaryLogStorage::commit`,
  `DBInitializer::recoverFromBinaryLog`).

  A node commits blocks through the log and is restarted from what a crash leaves
  of the files and of the backend.  Beside the node the system keeps the blocks
  whose records are in each file, from which follows what recovery has to commit.

  Recovery commits the missing blocks when the crash cuts the files cleanly
  (`recovers_missing_blocks`): behind the whole records of the newest file there
  is nothing or a length at least, and a file without a whole record is one that
  `checkBinLogSize` removes.  With one to three bytes of a length
  `getLastBlockNum` gives `-1`, and no block is committed
  (`torn_length_loses_block`).
-/
import HieraChain.BinLogScan
import HieraChain.Machine

namespace HieraChain.BinLog

open HieraChain.BigEndian HieraChain.RecordFile HieraChain.Storage

/-- The files up to `name` stay, of that one the first `bytes` bytes, and the
    backend is at the block `backend`. -/
structure Crash where
  name : Int
  bytes : Nat
  backend : Int

namespace Crash

def directory (x : Crash) (d : Directory) : Directory :=
  d.filterMap fun name content =>
    if name < x.name then some content
    else if name = x.name then some (content.take x.bytes)
    else none

def kept (x : Crash) (d : Directory) : Nat := min x.bytes ((d.find? x.name).getD []).length

def blocks (c : Config) (x : Crash) (d : Directory) (bs : List Commit) : List Commit :=
  if firstNumber bs < x.name then bs
  else if firstNumber bs = x.name then bs.take (whole (x.kept d - versionSize) (payloads c bs))
  else []

end Crash

/-- The node, and for each file the blocks whose records it holds, the newest file
    first.  `number` is the number of the last block of the backend. -/
structure System where
  directory : Directory := SortedMap.empty
  handler : BinLogHandler := {}
  number : Int
  running : Bool := true
  written : List (List Commit) := []

def Crash.written (c : Config) (x : Crash) (s : System) : List (List Commit) :=
  (s.written.map (x.blocks c s.directory)).filter fun bs => bs ≠ []

def committed (written : List (List Commit)) : List Commit := written.reverse.flatten

def missing (backend : Int) (written : List (List Commit)) : List Commit :=
  (committed written).filter fun b => backend < b.1

inductive Input
  | commit (datas : List TableData)
  | restart (crash : Crash)

def record (newFile : Bool) (b : Commit) (written : List (List Commit)) : List (List Commit) :=
  match newFile, written with
  | false, bs :: older => (bs ++ [b]) :: older
  | _, _ => [b] :: written

/-- `BinaryLogStorage::commit` of the next block. -/
def commitBlock (c : Config) (s : System) (datas : List TableData) : System :=
  let num := s.number + 1
  let file := writeBlocktoBinLog c s.directory s.handler num datas
  { directory := file.1
    handler := file.2
    number := num
    written := record (s.handler.needsNewFile c (encodeBlock c.crc32 num datas)) (num, datas) s.written }

def filesAfter (c : Config) (s : System) (x : Crash) : Directory := checkBinLogSize c (x.directory s.directory)

def restart (c : Config) (s : System) (x : Crash) : System :=
  match recoverFromBinaryLog (filesAfter c s x) x.backend with
  | none => { directory := filesAfter c s x, number := x.backend, running := false, written := x.written c s }
  | some commits =>
    { directory := filesAfter c s x
      number := (commits.getLast?.map Prod.fst).getD x.backend
      written := x.written c s }

def node (c : Config) : Machine System Input where
  step s i :=
    match i with
    | .commit datas => if s.running then commitBlock c s datas else s
    | .restart x => restart c s x

/-- A node whose first logged block is `first`. -/
def initial (first : Nat) : System := { number := (first : Int) - 1 }

/-! ### The condition -/

/-- The cut file is one to remove, or behind its whole records there is nothing or
    a length at least. -/
def CleanCut (c : Config) (x : Crash) (s : System) : Prop :=
  ∀ bs ∈ s.written, firstNumber bs = x.name →
    if whole (x.kept s.directory - versionSize) (payloads c bs) = 0 then
      x.kept s.directory ≤ versionSize ∧ c.relative = true
    else
      left (x.kept s.directory - versionSize) (payloads c bs) = 0
        ∨ 4 ≤ left (x.kept s.directory - versionSize) (payloads c bs)

instance (c : Config) (x : Crash) (s : System) : Decidable (CleanCut c x s) :=
  inferInstanceAs (Decidable (∀ bs ∈ s.written, firstNumber bs = x.name → ite _ _ _))

/-- A commit is of a block that the log can carry.  A crash leaves the backend at a
    block up to the last one logged, and cuts cleanly. -/
def Meets (c : Config) (first : Nat) (s : System) : Input → Prop
  | .commit datas => Loggable c.crc32 (s.number + 1) datas
  | .restart x =>
    ((first : Int) ≤ x.backend + 1 ∧ x.backend < first + (committed (x.written c s)).length) ∧ CleanCut c x s

instance (c : Config) (first : Nat) (s : System) : ∀ i, Decidable (Meets c first s i)
  | .commit datas => inferInstanceAs (Decidable (Loggable c.crc32 (s.number + 1) datas))
  | .restart _ => inferInstanceAs (Decidable (_ ∧ _))

/-! ### Writing -/

variable {c : Config} {d : Directory} {fs : List File} {base next : Int}

theorem LogOf.names_lt (h : LogOf c base next fs) : ∀ f ∈ fs, firstNumber f.blocks < next := by
  induction h with
  | nil => intro f hf; cases hf
  | @cons f older first hgood hblocks holder ih =>
    have hpos := hgood.pos
    intro g hg
    rcases List.mem_cons.mp hg with rfl | hg
    · rw [File.firstNumber_eq hgood hblocks]
      omega
    · have hlt := ih g hg
      omega

theorem write_end {name : Int} {content : Bytes} (hfind : (d.find? name).getD [] = content) (buffer : Bytes) :
    d.write name content.length buffer = d.insert name (content ++ buffer) := by
  rw [Directory.write, hfind, List.take_length, List.drop_eq_nil_of_le (Nat.le_add_right _ _), List.append_nil]

theorem Holds.entries (hd : Holds c d fs) : d.entries = (fs.map (File.entry c)).reverse := by
  rw [← hd, List.reverse_reverse]

theorem find?_next (h : LogOf c base next fs) (hd : Holds c d fs) {num : Int} (hnum : next ≤ num) :
    d.find? num = none := by
  cases hfind : d.find? num with
  | none => rfl
  | some content =>
    have hmem := SortedMap.mem_entries_iff.mpr hfind
    rw [hd.entries, List.mem_reverse, List.mem_map] at hmem
    obtain ⟨f, hf, hentry⟩ := hmem
    have hlt := h.names_lt f hf
    have hname : firstNumber f.blocks = num := congrArg Prod.fst hentry
    omega

def newFile (b : Commit) : File := { blocks := [b], tail := [] }

def extend (f : File) (b : Commit) : File := { blocks := f.blocks ++ [b], tail := [] }

theorem content_newFile (b : Commit) :
    (newFile b).content c = writeUINT32 BINLOG_VERSION ++ encodeBlock c.crc32 b.1 b.2 := by
  rw [File.content, newFile, payloads, List.map_singleton, frames_cons, frames_nil, List.append_nil,
    List.append_nil, encodeBlock_eq]

theorem content_extend {f : File} (htail : f.tail = []) (b : Commit) :
    (extend f b).content c = f.content c ++ encodeBlock c.crc32 b.1 b.2 := by
  rw [File.content, File.content, extend, htail, payloads, List.map_append, frames_append, List.map_singleton,
    frames_cons, frames_nil, List.append_nil, List.append_nil, List.append_nil, encodeBlock_eq, List.append_assoc]
  rfl

theorem good_newFile {b : Commit} (hb : Loggable c.crc32 b.1 b.2) : (newFile b).Good c where
  nonempty := List.cons_ne_nil b []
  loggable := by
    intro b' hb'
    rw [List.mem_singleton.mp hb']
    exact hb
  torn := torn_nil
  tail := Or.inl rfl
  size := by
    rw [content_newFile, List.length_append, length_writeUINT32]
    exact hb.size

theorem good_extend {f : File} (h : f.Good c) {b : Commit} (htail : f.tail = [])
    (hb : Loggable c.crc32 b.1 b.2)
    (hsize : (f.content c).length + (encodeBlock c.crc32 b.1 b.2).length < 2 ^ 32) : (extend f b).Good c where
  nonempty := by simp [extend]
  loggable := by
    intro b' hb'
    rcases List.mem_append.mp hb' with hb' | hb'
    · exact h.loggable b' hb'
    · rw [List.mem_singleton.mp hb']
      exact hb
  torn := torn_nil
  tail := Or.inl rfl
  size := by
    rw [content_extend htail, List.length_append]
    exact hsize

/-- The handler writes at the end of the newest file, or has opened none. -/
def Writes (c : Config) (h : BinLogHandler) (fs : List File) : Prop :=
  h.m_writtenBytesLength = 0 ∨ ∃ f older, fs = f :: older ∧ f.tail = [] ∧ h.m_fd = firstNumber f.blocks
    ∧ h.position = (f.content c).length ∧ h.m_writtenBytesLength = (f.content c).length

structure Recoverable (c : Config) (first : Nat) (s : System) (fs : List File) : Prop where
  log : LogOf c first (s.number + 1) fs
  holds : Holds c s.directory fs
  writes : Writes c s.handler fs
  written : s.written = fs.map File.blocks
  running : s.running = true

variable {first : Nat} {s : System}

theorem recoverable_newFile (h : Recoverable c first s fs) {datas : List TableData}
    (hb : Loggable c.crc32 (s.number + 1) datas)
    (hnew : s.handler.needsNewFile c (encodeBlock c.crc32 (s.number + 1) datas) = true) :
    Recoverable c first (commitBlock c s datas) (newFile (s.number + 1, datas) :: fs) := by
  have hgood := good_newFile (b := (s.number + 1, datas)) hb
  have hlength : (newFile (s.number + 1, datas)).content c
      = writeUINT32 BINLOG_VERSION ++ encodeBlock c.crc32 (s.number + 1) datas := content_newFile _
  have hsize := hgood.size
  have hnone := find?_next h.log h.holds (Int.le_refl _)
  have hopen : s.directory.write (s.number + 1) ([] : Bytes).length (writeUINT32 BINLOG_VERSION)
      = s.directory.insert (s.number + 1) ([] ++ writeUINT32 BINLOG_VERSION) :=
    write_end (by rw [hnone]; rfl) _
  have hrecord : Directory.write (s.directory.insert (s.number + 1) (writeUINT32 BINLOG_VERSION)) (s.number + 1)
      (writeUINT32 BINLOG_VERSION).length (encodeBlock c.crc32 (s.number + 1) datas)
      = s.directory.insert (s.number + 1) ((newFile (s.number + 1, datas)).content c) := by
    rw [write_end (by rw [SortedMap.find?_insert_self]; rfl), SortedMap.insert_insert, hlength]
  have hfile : writeBlocktoBinLog c s.directory s.handler (s.number + 1) datas
      = (s.directory.insert (s.number + 1) ((newFile (s.number + 1, datas)).content c),
        { m_writtenBytesLength := ((newFile (s.number + 1, datas)).content c).length
          m_fd := s.number + 1
          position := ((newFile (s.number + 1, datas)).content c).length }) := by
    rw [hlength, List.length_append, length_writeUINT32] at hsize
    rw [writeBlocktoBinLog]
    simp only [hnew, if_true, initNewBinaryFile, BinLogHandler.writeBuffer]
    refine Prod.ext ?_ ?_
    · rw [← hrecord]
      exact congrArg (fun d : Directory => d.write _ _ _) hopen
    · rw [hlength, List.length_append, length_writeUINT32]
      simp only [versionSize, Nat.mod_eq_of_lt hsize]
  have hbelow : ∀ e ∈ s.directory.entries, e.1 < s.number + 1 := by
    intro e he
    rw [h.holds.entries, List.mem_reverse, List.mem_map] at he
    obtain ⟨f, hf, rfl⟩ := he
    exact h.log.names_lt f hf
  have hlog : LogOf c first (s.number + 1 + ([(s.number + 1, datas)] : List Commit).length)
      (newFile (s.number + 1, datas) :: fs) := LogOf.cons hgood ⟨rfl, trivial⟩ h.log
  refine ⟨hlog, ?_, Or.inr ⟨_, fs, rfl, rfl, ?_, ?_, ?_⟩, ?_, rfl⟩
  · rw [Holds, commitBlock, hfile]
    change (s.directory.insert _ _).entries.reverse = _
    rw [SortedMap.entries_insert_last hbelow, List.reverse_append, h.holds]
    rfl
  · rw [commitBlock, hfile]
    rfl
  · rw [commitBlock, hfile]
  · rw [commitBlock, hfile]
  · rw [commitBlock, hnew, h.written]
    cases fs with
    | nil => rfl
    | cons f older => rfl

theorem recoverable_extend (h : Recoverable c first s fs) (hlimit : c.m_binarylogSize < 2 ^ 32)
    {datas : List TableData} (hb : Loggable c.crc32 (s.number + 1) datas)
    (hold : s.handler.needsNewFile c (encodeBlock c.crc32 (s.number + 1) datas) = false) :
    ∃ fs', Recoverable c first (commitBlock c s datas) fs' := by
  have hroom := hold
  rw [BinLogHandler.needsNewFile, decide_eq_false_iff_not, not_or] at hroom
  obtain hzero | ⟨f, older, rfl, htail, hfd, hposition, hwritten⟩ := h.writes
  · exact absurd hzero hroom.1
  obtain ⟨start, hgood, hblocks, holder, hnext⟩ := h.log.uncons
  have hsize : (f.content c).length + (encodeBlock c.crc32 (s.number + 1) datas).length < 2 ^ 32 := by omega
  have hlength : (extend f (s.number + 1, datas)).content c
      = f.content c ++ encodeBlock c.crc32 (s.number + 1) datas := content_extend htail _
  have hentries : s.directory.entries
      = (older.map (File.entry c)).reverse ++ [(firstNumber f.blocks, f.content c)] := by
    rw [h.holds.entries, List.map_cons, List.reverse_cons]
    rfl
  have hfind : (s.directory.find? (firstNumber f.blocks)).getD [] = f.content c := by
    have hmem : (firstNumber f.blocks, f.content c) ∈ s.directory.entries := by
      rw [hentries]
      exact List.mem_append_right _ List.mem_cons_self
    rw [SortedMap.mem_entries_iff.mp hmem]
    rfl
  have hfile : writeBlocktoBinLog c s.directory s.handler (s.number + 1) datas
      = (s.directory.insert (firstNumber f.blocks) ((extend f (s.number + 1, datas)).content c),
        { m_writtenBytesLength := ((extend f (s.number + 1, datas)).content c).length
          m_fd := firstNumber f.blocks
          position := ((extend f (s.number + 1, datas)).content c).length }) := by
    rw [writeBlocktoBinLog]
    simp only [hold, Bool.false_eq_true, if_false, BinLogHandler.writeBuffer, hfd, hposition, hwritten,
      write_end hfind, hlength, List.length_append, Nat.mod_eq_of_lt hsize]
  have hname : firstNumber (extend f (s.number + 1, datas)).blocks = firstNumber f.blocks := by
    cases hcases : f.blocks with
    | nil => exact absurd hcases hgood.nonempty
    | cons b bs =>
      rw [extend, hcases]
      rfl
  have hblocks' : Consecutive start (extend f (s.number + 1, datas)).blocks :=
    hblocks.append ⟨hnext.symm, trivial⟩
  have hlog := LogOf.cons (good_extend (b := (s.number + 1, datas)) hgood htail hb hsize) hblocks' holder
  have hnumber : start + ((extend f (s.number + 1, datas)).blocks.length : Int) = s.number + 1 + 1 := by
    rw [extend, List.length_append, List.length_singleton]
    omega
  rw [hnumber] at hlog
  refine ⟨extend f (s.number + 1, datas) :: older, hlog, ?_, Or.inr ⟨_, older, rfl, rfl, ?_, ?_, ?_⟩, ?_, rfl⟩
  · rw [Holds, commitBlock, hfile]
    change (s.directory.insert _ _).entries.reverse = _
    rw [SortedMap.entries_insert_of_last hentries, List.reverse_append, List.reverse_reverse, List.map_cons,
      File.entry, hname]
    rfl
  · rw [commitBlock, hfile, hname]
  · rw [commitBlock, hfile]
  · rw [commitBlock, hfile]
  · rw [commitBlock, hold, h.written]
    rfl

theorem recoverable_commit (h : Recoverable c first s fs) (hlimit : c.m_binarylogSize < 2 ^ 32)
    {datas : List TableData} (hb : Loggable c.crc32 (s.number + 1) datas) :
    ∃ fs', Recoverable c first (commitBlock c s datas) fs' := by
  cases hnew : s.handler.needsNewFile c (encodeBlock c.crc32 (s.number + 1) datas) with
  | true => exact ⟨_, recoverable_newFile h hb hnew⟩
  | false => exact recoverable_extend h hlimit hb hnew

/-! ### Crashes -/

def keep (c : Config) (x : Crash) (name : Int) (content : Bytes) : Option Bytes :=
  (if name < x.name then some content
    else if name = x.name then some (content.take x.bytes)
    else none).bind fun content => if content.length ≤ versionSize ∧ c.relative then none else some content

def keepEntry (c : Config) (x : Crash) (e : Int × Bytes) : Option (Int × Bytes) :=
  (keep c x e.1 e.2).map fun content => (e.1, content)

theorem entries_filesAfter (x : Crash) :
    (filesAfter c s x).entries = s.directory.entries.filterMap (keepEntry c x) := by
  rw [filesAfter, checkBinLogSize, Crash.directory, SortedMap.filterMap_filterMap]
  rfl

variable {x : Crash} {name : Int} {content : Bytes}

theorem keep_before (hlt : name < x.name) (hlength : versionSize < content.length) :
    keep c x name content = some content := by
  rw [keep, if_pos hlt, Option.bind_some, if_neg fun hshort => absurd hshort.1 (not_le.mpr hlength)]

theorem keep_cut (heq : name = x.name) :
    keep c x name content
      = if (content.take x.bytes).length ≤ versionSize ∧ c.relative = true then none
        else some (content.take x.bytes) := by
  rw [keep, if_neg (by omega), if_pos heq, Option.bind_some]

theorem keep_after (hgt : x.name < name) : keep c x name content = none := by
  rw [keep, if_neg (by omega), if_neg (by omega)]
  rfl

theorem File.Good.long {f : File} (h : f.Good c) : versionSize < (f.content c).length := by
  have hlength := File.length_content (c := c) f
  have hpos := h.pos
  unfold versionSize
  omega

theorem log_before (h : LogOf c base next fs) (hlt : ∀ f ∈ fs, firstNumber f.blocks < x.name) :
    (fs.map (File.entry c)).filterMap (keepEntry c x) = fs.map (File.entry c)
      ∧ ((fs.map File.blocks).map (x.blocks c d)).filter (fun bs => bs ≠ []) = fs.map File.blocks := by
  induction h with
  | nil => exact ⟨rfl, rfl⟩
  | @cons f older first hgood hblocks holder ih =>
    have hf := hlt f List.mem_cons_self
    have hrest := ih fun g hg => hlt g (List.mem_cons_of_mem f hg)
    have hkeep : keepEntry c x (f.entry c) = some (f.entry c) := by
      rw [keepEntry, File.entry, keep_before hf hgood.long]
      rfl
    constructor
    · rw [List.map_cons, List.filterMap_cons, hkeep, hrest.1]
    · rw [List.map_cons, List.map_cons, Crash.blocks, if_pos hf, List.filter_cons_of_pos, hrest.2]
      simpa using hgood.nonempty

theorem good_cut {f : File} (h : f.Good c) {n : Nat} (hn : n ≤ (f.content c).length)
    (hwhole : whole (n - versionSize) (payloads c f.blocks) ≠ 0)
    (hleft : left (n - versionSize) (payloads c f.blocks) = 0
      ∨ 4 ≤ left (n - versionSize) (payloads c f.blocks)) :
    ∃ f' : File, f'.Good c ∧ f'.content c = (f.content c).take n
      ∧ f'.blocks = f.blocks.take (whole (n - versionSize) (payloads c f.blocks)) := by
  have hrest : n - versionSize ≤ (frames (payloads c f.blocks) ++ f.tail).length := by
    rw [File.content, List.length_append, length_writeUINT32] at hn
    unfold versionSize
    omega
  have hfits : ∀ r ∈ payloads c f.blocks, Fits r := by
    intro r hr
    obtain ⟨b, hb, rfl⟩ := List.mem_map.mp hr
    exact (h.loggable b hb).fits
  obtain ⟨rest, htake, htorn, hlength⟩ := take_frames hfits h.torn hrest
  have hfour : versionSize ≤ n := by
    by_contra hshort
    apply hwhole
    rw [show n - versionSize = 0 by omega]
    cases payloads c f.blocks with
    | nil => rfl
    | cons r rs => rw [whole, if_neg (by omega)]
  have hcontent : (f.content c).take n = writeUINT32 BINLOG_VERSION
      ++ (frames (payloads c (f.blocks.take (whole (n - versionSize) (payloads c f.blocks)))) ++ rest) := by
    rw [File.content, List.take_append, List.take_of_length_le (by rw [length_writeUINT32]; exact hfour),
      length_writeUINT32, payloads_take, ← htake]
    rfl
  refine ⟨⟨f.blocks.take (whole (n - versionSize) (payloads c f.blocks)), rest⟩, ?_, hcontent.symm, rfl⟩
  refine ⟨?_, ?_, htorn, ?_, ?_⟩
  · intro hnil
    rcases List.take_eq_nil_iff.mp hnil with hzero | hnil
    · exact hwhole hzero
    · exact h.nonempty hnil
  · intro b hb
    exact h.loggable b (List.mem_of_mem_take hb)
  · rw [← hlength] at hleft
    exact hleft.imp List.length_eq_zero_iff.mp id
  · have hsize := h.size
    have hshorter := congrArg List.length hcontent
    rw [List.length_take] at hshorter
    exact lt_of_le_of_lt (hshorter ▸ Nat.min_le_right _ _) hsize

/-- **A clean cut leaves files of one chain**, with the blocks whose records are
    whole. -/
theorem log_cut (h : LogOf c base next fs)
    (hkept : ∀ f ∈ fs, firstNumber f.blocks = x.name → x.kept d = min x.bytes (f.content c).length)
    (hclean : ∀ f ∈ fs, firstNumber f.blocks = x.name →
      if whole (x.kept d - versionSize) (payloads c f.blocks) = 0 then
        x.kept d ≤ versionSize ∧ c.relative = true
      else
        left (x.kept d - versionSize) (payloads c f.blocks) = 0
          ∨ 4 ≤ left (x.kept d - versionSize) (payloads c f.blocks)) :
    ∃ fs' next', LogOf c base next' fs'
      ∧ (fs.map (File.entry c)).filterMap (keepEntry c x) = fs'.map (File.entry c)
      ∧ ((fs.map File.blocks).map (x.blocks c d)).filter (fun bs => bs ≠ []) = fs'.map File.blocks := by
  induction h with
  | nil => exact ⟨[], base, LogOf.nil, rfl, rfl⟩
  | @cons f older first hgood hblocks holder ih =>
    have hname := File.firstNumber_eq hgood hblocks
    have holdernames := holder.names_lt
    rcases lt_trichotomy first x.name with hlt | heq | hgt
    · -- All files are older than the cut.
      have hbefore : ∀ g ∈ f :: older, firstNumber g.blocks < x.name := by
        intro g hg
        rcases List.mem_cons.mp hg with rfl | hg
        · rw [hname]
          exact hlt
        · exact lt_trans (holdernames g hg) hlt
      have hall := LogOf.cons hgood hblocks holder
      obtain ⟨hentries, hwritten⟩ := log_before (d := d) hall hbefore
      exact ⟨f :: older, _, hall, hentries, hwritten⟩
    · -- The newest file is the cut one.
      have hcutname := hname.trans heq
      obtain ⟨hentries, hwritten⟩ := log_before (x := x) (d := d) holder fun g hg => heq ▸ holdernames g hg
      have hk := hkept f List.mem_cons_self hcutname
      have hcut := hclean f List.mem_cons_self hcutname
      have htake : (f.content c).take (x.kept d) = (f.content c).take x.bytes := by
        rw [hk]
        exact List.take_eq_take_min.symm
      have hkeep : keepEntry c x (f.entry c) = (if x.kept d ≤ versionSize ∧ c.relative = true then none
          else some (firstNumber f.blocks, (f.content c).take (x.kept d))) := by
        rw [keepEntry, File.entry, keep_cut hcutname, htake, hk, List.length_take]
        split
        · rfl
        · rfl
      have hkeptblocks : x.blocks c d f.blocks
          = f.blocks.take (whole (x.kept d - versionSize) (payloads c f.blocks)) := by
        rw [Crash.blocks, if_neg (by omega), if_pos hcutname]
      rw [List.map_cons, List.map_cons, List.map_cons, List.filterMap_cons, hkeep, hkeptblocks]
      split at hcut
      next hzero =>
        refine ⟨older, first, holder, ?_, ?_⟩
        · rw [if_pos hcut]
          exact hentries
        · rw [hzero, List.take_zero, List.filter_cons_of_neg (by simp)]
          exact hwritten
      next hsome =>
        have hn : x.kept d ≤ (f.content c).length := hk ▸ Nat.min_le_right _ _
        obtain ⟨f', hgood', hcontent', hblocks'⟩ := good_cut hgood hn hsome hcut
        have hconsecutive : Consecutive first f'.blocks := hblocks' ▸ hblocks.take _
        have hname' := File.firstNumber_eq hgood' hconsecutive
        have hlong := hgood'.long
        have hlonger : ¬ (x.kept d ≤ versionSize ∧ c.relative = true) := by
          intro hshort
          rw [hcontent', List.length_take] at hlong
          omega
        refine ⟨f' :: older, _, LogOf.cons hgood' hconsecutive holder, ?_, ?_⟩
        · rw [if_neg hlonger, hentries, List.map_cons, File.entry, hname', hcontent', hname]
        · rw [List.filter_cons_of_pos, hwritten, List.map_cons, hblocks']
          rw [← hblocks']
          simpa using hgood'.nonempty
    · -- The newest file is lost.
      obtain ⟨fs', next', hlog, hentries, hwritten⟩ := ih
        (fun g hg => hkept g (List.mem_cons_of_mem f hg)) fun g hg => hclean g (List.mem_cons_of_mem f hg)
      refine ⟨fs', next', hlog, ?_, ?_⟩
      · have hkeep : keepEntry c x (f.entry c) = none := by
          rw [keepEntry, File.entry, keep_after (by omega)]
          rfl
        rw [List.map_cons, List.filterMap_cons, hkeep]
        exact hentries
      · have hlost : x.blocks c d f.blocks = [] := by
          rw [Crash.blocks, if_neg (by omega), if_neg (by omega)]
        rw [List.map_cons, List.map_cons, hlost, List.filter_cons_of_neg (by simp)]
        exact hwritten

/-! ### Recovery -/

theorem Consecutive.filter_eq_drop {first : Int} {bs : List Commit} (h : Consecutive first bs) (num : Int) :
    bs.filter (fun b => num < b.1) = bs.drop (num + 1 - first).toNat := by
  induction bs generalizing first with
  | nil => rw [List.drop_nil]; rfl
  | cons b bs ih =>
    have hfirst := h.1
    by_cases hlt : num < first
    · rw [show (num + 1 - first).toNat = 0 by omega, List.drop_zero, List.filter_eq_self]
      intro b' hb'
      have hmem := (h.mem hb').1
      exact decide_eq_true (by omega)
    · have hnat : (num + 1 - first).toNat = (num + 1 - (first + 1)).toNat + 1 := by omega
      rw [List.filter_cons_of_neg (by simp only [decide_eq_true_eq]; omega), ih h.2, hnat, List.drop_succ_cons]

theorem last_recovered (h : LogOf c base next fs) {backend : Int} (hbase : base ≤ backend + 1)
    (hlast : backend < next) :
    ((((chain fs).drop (backend + 1 - base).toNat).map recovered).getLast?.map Prod.fst).getD backend = next - 1 := by
  obtain ⟨hchain, hlength⟩ := h.consecutive
  rw [List.getLast?_map, List.getLast?_drop]
  split
  next hdone =>
    rw [Option.map_none, Option.map_none, Option.getD_none]
    omega
  next hmore =>
    rw [List.getLast?_eq_getElem?]
    cases hget : (chain fs)[(chain fs).length - 1]? with
    | none =>
      rw [List.getElem?_eq_none_iff] at hget
      omega
    | some b =>
      have hnumber := hchain.get hget
      rw [Option.map_some, Option.map_some, Option.getD_some, recovered]
      omega

theorem recoverable_restart (h : Recoverable c first s fs) (hok : Meets c first s (.restart x)) :
    recoverFromBinaryLog (filesAfter c s x) x.backend = some ((missing x.backend (x.written c s)).map recovered)
      ∧ (∀ b ∈ missing x.backend (x.written c s), Loggable c.crc32 b.1 b.2)
      ∧ ∃ fs', Recoverable c first (restart c s x) fs' := by
  obtain ⟨⟨hlow, hhigh⟩, hclean⟩ := hok
  have hkept : ∀ f ∈ fs, firstNumber f.blocks = x.name →
      x.kept s.directory = min x.bytes (f.content c).length := by
    intro f hf hname
    have hmem : (x.name, f.content c) ∈ s.directory.entries := by
      rw [h.holds.entries, List.mem_reverse, ← hname]
      exact List.mem_map_of_mem hf
    rw [Crash.kept, SortedMap.mem_entries_iff.mp hmem]
    rfl
  have hcut : ∀ f ∈ fs, firstNumber f.blocks = x.name → _ := fun f hf hname =>
    hclean f.blocks (by rw [h.written]; exact List.mem_map_of_mem hf) hname
  obtain ⟨fs', next', hlog, hentries, hwritten⟩ := log_cut h.log hkept hcut
  have hholds : Holds c (filesAfter c s x) fs' := by
    rw [Holds, entries_filesAfter, ← List.filterMap_reverse, h.holds, hentries]
  have hblocks : x.written c s = fs'.map File.blocks := by
    rw [Crash.written, h.written, hwritten]
  have hcommitted : committed (x.written c s) = chain fs' := by
    rw [hblocks]
    rfl
  obtain ⟨hchain, hlength⟩ := hlog.consecutive
  rw [hcommitted] at hhigh
  have hmissing : missing x.backend (x.written c s) = (chain fs').drop (x.backend + 1 - first).toNat := by
    rw [missing, hcommitted, hchain.filter_eq_drop]
  have hrecover := recoverFromBinaryLog_log hlog hholds (Int.natCast_nonneg first) hlow
  refine ⟨?_, ?_, fs', ?_⟩
  · rw [hrecover, hmissing]
  · intro b hb
    rw [hmissing] at hb
    exact hlog.loggable b (List.mem_of_mem_drop hb)
  · have hlast := last_recovered hlog hlow (show x.backend < next' by omega)
    rw [restart, hrecover]
    refine ⟨?_, hholds, Or.inl rfl, hblocks, rfl⟩
    have hnumber : (((((chain fs').drop (x.backend + 1 - first).toNat).map recovered).getLast?.map Prod.fst).getD
        x.backend) + 1 = next' := by
      rw [hlast, Int.sub_add_cancel]
    exact hnumber.symm ▸ hlog

def SameCommit (b b' : Commit) : Prop := b.1 = b'.1 ∧ List.Forall₂ (SameTable SameEntry) b.2 b'.2

theorem recovered_same {bs : List Commit} (h : ∀ b ∈ bs, Loggable c.crc32 b.1 b.2) :
    List.Forall₂ SameCommit (bs.map recovered) bs := by
  rw [List.forall₂_map_left_iff, List.forall₂_same]
  intro b hb
  exact ⟨rfl, (h b hb).same⟩

theorem recoverable_step (hlimit : c.m_binarylogSize < 2 ^ 32) (s : System) (i : Input)
    (h : ∃ fs, Recoverable c first s fs) (hok : Meets c first s i) :
    ∃ fs, Recoverable c first ((node c).step s i) fs := by
  obtain ⟨fs, h⟩ := h
  cases i with
  | commit datas =>
    change ∃ fs, Recoverable c first (if s.running then commitBlock c s datas else s) fs
    rw [if_pos h.running]
    exact recoverable_commit h hlimit hok
  | restart x => exact (recoverable_restart h hok).2.2

theorem recoverable_initial (c : Config) (first : Nat) : Recoverable c first (initial first) [] where
  log := by
    change LogOf c first ((first : Int) - 1 + 1) []
    rw [Int.sub_add_cancel]
    exact LogOf.nil
  holds := rfl
  writes := Or.inl rfl
  written := rfl
  running := rfl

/-- **Recovery after any run of commits and crashes.**  When every block can be
    logged and every crash cuts cleanly, the next restart commits the missing
    blocks, each once and in order, with the data that was committed. -/
theorem recovers_missing_blocks (c : Config) (hlimit : c.m_binarylogSize < 2 ^ 32) (first : Nat)
    (inputs : List Input) (x : Crash)
    (hrun : (node c).RunOk (Meets c first) (initial first) (inputs ++ [.restart x])) :
    ∃ commits, recoverFromBinaryLog (filesAfter c ((node c).run (initial first) inputs) x) x.backend = some commits
      ∧ List.Forall₂ SameCommit commits
        (missing x.backend (x.written c ((node c).run (initial first) inputs))) := by
  obtain ⟨hinputs, hlast⟩ := Machine.RunOk.append.mp hrun
  obtain ⟨fs, hinv⟩ := (node c).run_invariant (recoverable_step hlimit)
    ⟨[], recoverable_initial c first⟩ hinputs
  obtain ⟨hrecover, hloggable, -⟩ := recoverable_restart hinv hlast.1
  exact ⟨_, hrecover, recovered_same hloggable⟩

/-! ### Two runs -/

def smallConfig : Config := { m_binarylogSize := 1024, relative := true, crc32 := fun _ => 0 }

def twoBlocks : System := (node smallConfig).run (initial 1) [.commit [smallTable], .commit [smallTable]]

/-- The second block is cut behind its length and some bytes. -/
theorem recovers_missing_blocks_small : ∃ commits,
    recoverFromBinaryLog (filesAfter smallConfig twoBlocks { name := 1, bytes := 100, backend := 0 }) 0 = some commits
      ∧ List.Forall₂ SameCommit commits
        (missing 0 (Crash.written smallConfig { name := 1, bytes := 100, backend := 0 } twoBlocks)) :=
  recovers_missing_blocks smallConfig (by decide +kernel) 1 [.commit [smallTable], .commit [smallTable]]
    { name := 1, bytes := 100, backend := 0 } (by decide +kernel)

/-- **One byte of the second record is left**: the first block is logged and not
    recovered. -/
theorem torn_length_loses_block :
    Loggable smallConfig.crc32 1 [smallTable] ∧ Loggable smallConfig.crc32 2 [smallTable]
      ∧ (missing 0 (Crash.written smallConfig { name := 1, bytes := 77, backend := 0 } twoBlocks)).map Prod.fst = [1]
      ∧ (recoverFromBinaryLog (filesAfter smallConfig twoBlocks { name := 1, bytes := 77, backend := 0 }) 0).map
          (List.map Prod.fst) = some [] := by
  decide +kernel

end HieraChain.BinLog
