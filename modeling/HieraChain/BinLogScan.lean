/-
  HieraChain/BinLogScan.lean
  ==========================
  **What the reader finds in the files of the log.**

  A `Good` file holds the records of consecutive blocks, the first of which names
  it, and a torn rest that is empty or has at least four bytes.  With fewer bytes
  `getLastBlockNum` would take the file for unreadable.  For files of one chain
  (`LogOf`) the last block is found (`getLastBlockNum_log`), and a window of
  numbers gives the data of its blocks (`missing_find?`).
-/
import HieraChain.BinLogCodec
import Mathlib.Data.Int.Interval

namespace HieraChain.BinLog

open HieraChain.BigEndian HieraChain.RecordFile HieraChain.Storage

structure SameEntry (e e' : Entry) : Prop extends RestoredEntry e e' where
  deleted : e.deleted = e'.deleted

structure Loggable (crc32 : Bytes → Nat) (num : Int) (datas : List TableData) : Prop where
  number : 0 ≤ num ∧ num < 2 ^ 63
  nonempty : datas ≠ []
  tables : ∀ t ∈ datas, CarriesTable t
  /-- Rows that were rolled back are not dumped. -/
  dumped : ∀ t ∈ datas, ∀ e ∈ t.dirtyEntries ++ t.newEntries, e.deleted = false
  /-- The file of one record is below 4 GiB. -/
  size : versionSize + (encodeBlock crc32 num datas).length < 2 ^ 32
  hash : (blockHash (datas.map loggedData)).isSome

instance (crc32 : Bytes → Nat) (num : Int) (datas : List TableData) : Decidable (Loggable crc32 num datas) :=
  decidable_of_iff ((0 ≤ num ∧ num < 2 ^ 63) ∧ datas ≠ [] ∧ (∀ t ∈ datas, CarriesTable t)
      ∧ (∀ t ∈ datas, ∀ e ∈ t.dirtyEntries ++ t.newEntries, e.deleted = false)
      ∧ versionSize + (encodeBlock crc32 num datas).length < 2 ^ 32
      ∧ (blockHash (datas.map loggedData)).isSome)
    ⟨fun h => ⟨h.1, h.2.1, h.2.2.1, h.2.2.2.1, h.2.2.2.2.1, h.2.2.2.2.2⟩,
      fun h => ⟨h.number, h.nonempty, h.tables, h.dumped, h.size, h.hash⟩⟩

theorem Loggable.same {crc32 : Bytes → Nat} {num : Int} {datas : List TableData} (h : Loggable crc32 num datas) :
    List.Forall₂ (SameTable SameEntry) (datas.map loggedData) datas := by
  rw [List.forall₂_map_left_iff, List.forall₂_same]
  intro t ht
  have hentry : ∀ e ∈ t.dirtyEntries ++ t.newEntries, CarriesEntry (vecFieldOf t.info) e →
      SameEntry (loggedEntry (vecFieldOf t.info) (forced t.info) e) e := by
    intro e he hcarries
    refine ⟨loggedEntry_restored _ hcarries, ?_⟩
    rw [h.dumped t ht e he]
    exact (copyFields_marks _ _).2.2
  exact loggedData_same
    (fun e he => hentry e (List.mem_append_left _ he) ((h.tables t ht).dirtyEntries e he))
    fun e he => hentry e (List.mem_append_right _ he) ((h.tables t ht).newEntries e he)

/-- The numbers go up by one from `first`. -/
def Consecutive : Int → List Commit → Prop
  | _, [] => True
  | first, b :: bs => b.1 = first ∧ Consecutive (first + 1) bs

theorem Consecutive.append {first : Int} {bs bs' : List Commit} (h : Consecutive first bs)
    (h' : Consecutive (first + bs.length) bs') : Consecutive first (bs ++ bs') := by
  induction bs generalizing first with
  | nil => simpa using h'
  | cons b bs ih =>
    refine ⟨h.1, ih h.2 ?_⟩
    rw [List.length_cons] at h'
    rwa [show first + 1 + (bs.length : Int) = first + ((bs.length + 1 : Nat) : Int) by omega]

theorem Consecutive.take {first : Int} {bs : List Commit} (h : Consecutive first bs) (n : Nat) :
    Consecutive first (bs.take n) := by
  induction bs generalizing first n with
  | nil => rw [List.take_nil]; trivial
  | cons b bs ih =>
    cases n with
    | zero => trivial
    | succ n => exact ⟨h.1, ih h.2 n⟩

theorem Consecutive.get {first : Int} {bs : List Commit} (h : Consecutive first bs) {i : Nat} {b : Commit}
    (hget : bs[i]? = some b) : b.1 = first + i := by
  induction bs generalizing first i with
  | nil => cases hget
  | cons b' bs ih =>
    cases i with
    | zero =>
      cases hget
      rw [h.1]
      simp
    | succ i =>
      rw [ih h.2 hget]
      omega

theorem Consecutive.mem {first : Int} {bs : List Commit} (h : Consecutive first bs) {b : Commit}
    (hmem : b ∈ bs) : first ≤ b.1 ∧ b.1 < first + bs.length := by
  obtain ⟨i, hi⟩ := List.mem_iff_getElem?.mp hmem
  have hlt : i < bs.length := (List.getElem?_eq_some_iff.mp hi).1
  rw [h.get hi]
  omega

/-! ### Files -/

structure File where
  blocks : List Commit
  tail : Bytes

variable (c : Config)

def payloads (bs : List Commit) : List Bytes := bs.map fun b => encodePayload c.crc32 b.1 b.2

theorem payloads_take (bs : List Commit) (n : Nat) : payloads c (bs.take n) = (payloads c bs).take n :=
  List.map_take

def firstNumber (bs : List Commit) : Int := (bs.head?.map Prod.fst).getD 0

namespace File

def content (f : File) : Bytes := writeUINT32 BINLOG_VERSION ++ (frames (payloads c f.blocks) ++ f.tail)

def entry (f : File) : Int × Bytes := (firstNumber f.blocks, f.content c)

structure Good (f : File) : Prop where
  nonempty : f.blocks ≠ []
  loggable : ∀ b ∈ f.blocks, Loggable c.crc32 b.1 b.2
  torn : Torn f.tail
  tail : f.tail = [] ∨ 4 ≤ f.tail.length
  size : (f.content c).length < 2 ^ 32

end File

variable {c}

theorem encodeBlock_eq (b : Commit) :
    encodeBlock c.crc32 b.1 b.2 = frame (encodePayload c.crc32 b.1 b.2) := rfl

theorem Loggable.fits {b : Commit} (h : Loggable c.crc32 b.1 b.2) : Fits (encodePayload c.crc32 b.1 b.2) := by
  have hsize := h.size
  rw [encodeBlock_eq, length_frame] at hsize
  unfold Fits
  omega

theorem fileLength_of_lt {content : Bytes} (h : content.length < 2 ^ 32) : fileLength content = content.length :=
  Nat.mod_eq_of_lt h

variable {content tail : Bytes} {offset : Nat}

theorem drop_record {b : Commit} {bs : List Commit}
    (hdrop : content.drop offset = frames (payloads c (b :: bs)) ++ tail) :
    content.drop offset = frame (encodePayload c.crc32 b.1 b.2) ++ (frames (payloads c bs) ++ tail) := by
  rw [hdrop, payloads, List.map_cons, frames_cons, List.append_assoc]
  rfl

theorem drop_next {b : Commit} {bs : List Commit}
    (hdrop : content.drop offset = frames (payloads c (b :: bs)) ++ tail) :
    content.drop (offset + (4 + (encodePayload c.crc32 b.1 b.2).length)) = frames (payloads c bs) ++ tail := by
  rw [← List.drop_drop, drop_record hdrop, drop_frame]

theorem le_length_of_drop {b : Commit} {bs : List Commit}
    (hdrop : content.drop offset = frames (payloads c (b :: bs)) ++ tail) :
    offset + 4 + (encodePayload c.crc32 b.1 b.2).length ≤ content.length := by
  have hlength := congrArg List.length (drop_record hdrop)
  rw [List.length_drop, List.length_append, length_frame] at hlength
  omega

theorem number_of_record {b : Commit} (h : Loggable c.crc32 b.1 b.2) (rest : Bytes) :
    fromBigEndian (((frame (encodePayload c.crc32 b.1 b.2) ++ rest).drop 4).take 8) = b.1.toNat := by
  have hdrop : (frame (encodePayload c.crc32 b.1 b.2) ++ rest).drop 4 = encodePayload c.crc32 b.1 b.2 ++ rest := by
    rw [frame, List.append_assoc]
    exact List.drop_left' (length_pushInt _ _)
  rw [hdrop, encodePayload_eq, List.append_assoc, List.take_left' (length_writeUINT64 _), writeUINT64,
    fromBigEndian_pushInt]
  have hnumber := h.number
  have hmod : b.1 % 2 ^ 64 = b.1 := by omega
  rw [hmod]
  exact Nat.mod_eq_of_lt (by omega)

theorem le_length_payload (b : Commit) : 8 ≤ (encodePayload c.crc32 b.1 b.2).length := by
  rw [encodePayload_eq, List.length_append, length_writeUINT64]
  omega

theorem announced_record {b : Commit} {bs : List Commit} (h : Loggable c.crc32 b.1 b.2)
    (hdrop : content.drop offset = frames (payloads c (b :: bs)) ++ tail) :
    fromBigEndian ((content.drop offset).take 4) = (encodePayload c.crc32 b.1 b.2).length := by
  rw [drop_record hdrop]
  exact announced_frame h.fits _

/-! ### The last block -/

theorem lastBlockLoop_frames {bs : List Commit} {first : Int} {fuel n : Nat}
    (hlength : content.length < 2 ^ 32) (hoffset : offset ≤ content.length)
    (hdrop : content.drop offset = frames (payloads c bs) ++ tail)
    (hloggable : ∀ b ∈ bs, Loggable c.crc32 b.1 b.2) (htorn : Torn tail)
    (htail : tail = [] ∨ 4 ≤ tail.length) (hbs : Consecutive first bs) (hfuel : bs.length < fuel) :
    lastBlockLoop content fuel offset n = if bs = [] then toInt64 n else first + bs.length - 1 := by
  induction bs generalizing first fuel n offset with
  | nil =>
    obtain ⟨fuel, rfl⟩ := Nat.exists_eq_succ_of_ne_zero (Nat.ne_of_gt hfuel)
    have hrest : content.drop offset = tail := hdrop
    have hcount := congrArg List.length hrest
    rw [List.length_drop] at hcount
    rw [if_pos rfl, lastBlockLoop, fileLength_of_lt hlength]
    by_cases hend : offset < content.length
    · have hfour : 4 ≤ tail.length := by
        rcases htail with rfl | hfour
        · change _ = 0 at hcount
          omega
        · exact hfour
      have hmore : content.length < offset + 4 + fromBigEndian (tail.take 4) := by
        cases htorn with
        | inl h => omega
        | inr h =>
          unfold announced at h
          omega
      simp only [if_pos hend, hrest, if_neg (not_lt.mpr hfour), if_pos hmore]
    · rw [if_neg hend]
  | cons b bs ih =>
    obtain ⟨fuel, rfl⟩ := Nat.exists_eq_succ_of_ne_zero (Nat.ne_of_gt (Nat.zero_lt_of_lt hfuel))
    have hb := hloggable b List.mem_cons_self
    have hend := le_length_of_drop hdrop
    have hpayload := le_length_payload (c := c) b
    have hfour : ¬ (content.drop offset).length < 4 := by
      rw [List.length_drop]
      omega
    have hnumber : fromBigEndian (((content.drop offset).drop 4).take 8) = b.1.toNat := by
      rw [drop_record hdrop]
      exact number_of_record hb _
    have hlong : ¬ (((content.drop offset).drop 4).take 8).length < 8 := by
      rw [List.length_take, List.length_drop, List.length_drop]
      omega
    rw [lastBlockLoop, fileLength_of_lt hlength]
    simp only [if_pos (show offset < content.length by omega), if_neg hfour, announced_record hb hdrop,
      if_neg (not_lt.mpr hend), if_neg hlong, hnumber]
    rw [Nat.add_assoc, ih (by omega) (drop_next hdrop) (fun b' hb' => hloggable b' (List.mem_cons_of_mem b hb'))
      hbs.2 (Nat.lt_of_succ_lt_succ hfuel), if_neg (List.cons_ne_nil b bs), toInt64_number hb.number, hbs.1,
      List.length_cons]
    split
    next hnil =>
      rw [hnil, List.length_nil]
      omega
    next => omega

namespace File

variable {f : File} {first : Int}

theorem drop_content (f : File) : (f.content c).drop versionSize = frames (payloads c f.blocks) ++ f.tail :=
  List.drop_left' (length_writeUINT32 _)

theorem version_content (f : File) : fromBigEndian ((f.content c).take 4) = BINLOG_VERSION := by
  rw [content, List.take_left' (length_writeUINT32 _), writeUINT32, fromBigEndian_pushInt]
  rfl

theorem firstNumber_eq (h : f.Good c) (hbs : Consecutive first f.blocks) : firstNumber f.blocks = first := by
  cases hblocks : f.blocks with
  | nil => exact absurd hblocks h.nonempty
  | cons b bs =>
    rw [hblocks] at hbs
    exact hbs.1

theorem length_frames (bs : List Commit) : 12 * bs.length ≤ (frames (payloads c bs)).length := by
  induction bs with
  | nil => exact Nat.zero_le _
  | cons b bs ih =>
    have hpayload := le_length_payload (c := c) b
    rw [payloads, List.map_cons, frames_cons, List.length_append, length_frame, List.length_cons]
    rw [payloads] at ih
    omega

theorem length_content (f : File) : 4 + 12 * f.blocks.length ≤ (f.content c).length := by
  have hframes := length_frames (c := c) f.blocks
  rw [content, List.length_append, length_writeUINT32, List.length_append]
  omega

theorem Good.pos (h : f.Good c) : 0 < f.blocks.length := List.length_pos_iff.mpr h.nonempty

theorem getFirstBlockNum (h : f.Good c) (hbs : Consecutive first f.blocks) :
    getFirstBlockNumInBinLog (f.content c) = first := by
  have hlength := length_content (c := c) f
  have hpos := h.pos
  rw [getFirstBlockNumInBinLog, fileLength_of_lt h.size, if_neg (by unfold versionSize; omega),
    if_neg (by omega)]
  have hdrop : (f.content c).drop 8 = ((f.content c).drop versionSize).drop 4 := by rw [List.drop_drop]; rfl
  rw [hdrop]
  cases hblocks : f.blocks with
  | nil => exact absurd hblocks h.nonempty
  | cons b bs =>
    have hcontent := drop_content (c := c) f
    rw [hblocks] at hcontent hbs
    have hb := h.loggable b (by rw [hblocks]; exact List.mem_cons_self)
    rw [drop_record hcontent, number_of_record hb, toInt64_number hb.number]
    exact hbs.1

end File

/-! ### Chains of files -/

/-- Files of one chain of blocks, the newest first, up to the number before
    `next`. -/
inductive LogOf (c : Config) (base : Int) : Int → List File → Prop
  | nil : LogOf c base base []
  | cons {f : File} {older : List File} {first : Int} (hgood : f.Good c) (hblocks : Consecutive first f.blocks)
      (holder : LogOf c base first older) : LogOf c base (first + f.blocks.length) (f :: older)

def chain (fs : List File) : List Commit := (fs.map File.blocks).reverse.flatten

theorem chain_cons (f : File) (older : List File) : chain (f :: older) = chain older ++ f.blocks := by
  rw [chain, List.map_cons, List.reverse_cons, List.flatten_append, List.flatten_singleton]
  rfl

variable {base next : Int} {fs : List File}

theorem LogOf.uncons {f : File} {older : List File} (h : LogOf c base next (f :: older)) :
    ∃ first, f.Good c ∧ Consecutive first f.blocks ∧ LogOf c base first older
      ∧ first + f.blocks.length = next := by
  cases h with
  | cons hgood hblocks holder => exact ⟨_, hgood, hblocks, holder, rfl⟩

theorem LogOf.consecutive (h : LogOf c base next fs) :
    Consecutive base (chain fs) ∧ base + (chain fs).length = next := by
  induction h with
  | nil => exact ⟨trivial, by simp [chain]⟩
  | cons hgood hblocks holder ih =>
    rw [chain_cons, List.length_append]
    constructor
    · apply ih.1.append
      rw [ih.2]
      exact hblocks
    · rw [← ih.2]
      omega

theorem LogOf.loggable (h : LogOf c base next fs) : ∀ b ∈ chain fs, Loggable c.crc32 b.1 b.2 := by
  induction h with
  | nil => intro b hb; cases hb
  | cons hgood hblocks holder ih =>
    intro b hb
    rw [chain_cons, List.mem_append] at hb
    rcases hb with hb | hb
    · exact ih b hb
    · exact hgood.loggable b hb

def Holds (c : Config) (d : Directory) (fs : List File) : Prop := d.entries.reverse = fs.map (File.entry c)

variable {d : Directory}

/-- **The last block is found.** -/
theorem getLastBlockNum_log (h : LogOf c base next fs) (hd : Holds c d fs) :
    getLastBlockNum d = some (if fs = [] then -1 else next - 1) := by
  have hlast : d.entries.getLast? = (fs.map (File.entry c)).head? := by
    rw [← hd, List.head?_reverse]
  rw [getLastBlockNum, hlast]
  cases h with
  | nil => rfl
  | @cons f older first hgood hblocks holder =>
    have hlength := File.length_content (c := c) f
    have hpos := hgood.pos
    have hscan := lastBlockLoop_frames (c := c) (n := 0) hgood.size
      (show versionSize ≤ (f.content c).length by unfold versionSize; omega) (File.drop_content f) hgood.loggable hgood.torn
      hgood.tail hblocks (show f.blocks.length < (f.content c).length + 1 by omega)
    rw [if_neg hgood.nonempty] at hscan
    have hname : getFirstBlockNumInBinLog (f.content c) = firstNumber f.blocks := by
      rw [File.getFirstBlockNum hgood hblocks, File.firstNumber_eq hgood hblocks]
    simp only [List.map_cons, List.head?_cons, File.entry, hname, ne_eq, not_true_eq_false, if_false,
      fileLength_of_lt hgood.size, if_neg (show ¬ (f.content c).length < versionSize by unfold versionSize; omega),
      hscan, if_neg (List.cons_ne_nil f older)]

/-! ### A window of blocks -/

/-- The data of the block `k` when it is in the window. -/
def inWindow (startNum endNum : Int) (bs : List Commit) (k : Int) : Option (List TableData) :=
  if startNum < k ∧ k ≤ endNum then (SortedMap.lookup k bs).map (List.map loggedData) else none

theorem lookup_append (k : Int) (bs bs' : List Commit) :
    SortedMap.lookup k (bs ++ bs') = (SortedMap.lookup k bs).or (SortedMap.lookup k bs') := by
  induction bs with
  | nil => rfl
  | cons b bs ih =>
    rw [List.cons_append, SortedMap.lookup, SortedMap.lookup]
    split
    · rfl
    · exact ih

theorem lookup_eq_none {first : Int} {bs : List Commit} (h : Consecutive first bs) {k : Int}
    (hk : k < first ∨ first + bs.length ≤ k) : SortedMap.lookup k bs = none := by
  cases hfind : SortedMap.lookup k bs with
  | none => rfl
  | some datas =>
    have hmem := h.mem (SortedMap.mem_of_lookup hfind)
    change first ≤ k ∧ k < first + bs.length at hmem
    omega

variable {startNum endNum : Int}

theorem inWindow_append (k : Int) (bs bs' : List Commit) :
    inWindow startNum endNum (bs ++ bs') k
      = (inWindow startNum endNum bs k).or (inWindow startNum endNum bs' k) := by
  unfold inWindow
  split
  · rw [lookup_append]
    cases SortedMap.lookup k bs with
    | none => rfl
    | some datas => rfl
  · rfl

theorem inWindow_nil (k : Int) : inWindow startNum endNum [] k = none := by
  unfold inWindow
  split
  · rfl
  · rfl

theorem inWindow_outside {first : Int} {bs : List Commit} (h : Consecutive first bs)
    (hout : first + bs.length ≤ startNum + 1 ∨ endNum < first) (k : Int) :
    inWindow startNum endNum bs k = none := by
  unfold inWindow
  split
  next hwindow =>
    rw [lookup_eq_none h (by omega)]
    rfl
  next => rfl

/-- **The blocks of a file that are in the window are read**, whatever the torn rest
    makes of the end of the scan. -/
theorem getBlockData_frames {bs : List Commit} {first : Int} {fuel : Nat} (data : BlockDataMap)
    (hlength : content.length < 2 ^ 32) (hoffset : offset ≤ content.length)
    (hdrop : content.drop offset = frames (payloads c bs) ++ tail)
    (hloggable : ∀ b ∈ bs, Loggable c.crc32 b.1 b.2) (htorn : Torn tail)
    (hbs : Consecutive first bs) (hfuel : bs.length < fuel) :
    ∃ data' flag, getBlockData content startNum endNum fuel offset data = some (data', flag)
      ∧ ∀ k, data'.find? k = (inWindow startNum endNum bs k).or (data.find? k) := by
  induction bs generalizing first fuel offset data with
  | nil =>
    obtain ⟨fuel, rfl⟩ := Nat.exists_eq_succ_of_ne_zero (Nat.ne_of_gt hfuel)
    have hrest : content.drop offset = tail := hdrop
    have hcount := congrArg List.length hrest
    rw [List.length_drop] at hcount
    have hnone : ∀ k, data.find? k = (inWindow startNum endNum [] k).or (data.find? k) := by
      intro k
      rw [inWindow_nil]
      rfl
    rw [getBlockData, fileLength_of_lt hlength]
    by_cases hend : offset < content.length
    · by_cases hfour : tail.length < 4
      · simp only [if_pos hend, hrest, if_pos hfour]
        exact ⟨data, false, rfl, hnone⟩
      · have hshort : ((tail.drop 4).take (fromBigEndian (tail.take 4))).length ≠ fromBigEndian (tail.take 4) := by
          rw [List.length_take, List.length_drop]
          cases htorn with
          | inl h => omega
          | inr h =>
            unfold announced at h
            omega
        simp only [if_pos hend, hrest, if_neg hfour, if_pos hshort, ite_self]
        exact ⟨data, false, rfl, hnone⟩
    · rw [if_neg hend]
      exact ⟨data, true, rfl, hnone⟩
  | cons b bs ih =>
    obtain ⟨fuel, rfl⟩ := Nat.exists_eq_succ_of_ne_zero (Nat.ne_of_gt (Nat.zero_lt_of_lt hfuel))
    have hb := hloggable b List.mem_cons_self
    have hend := le_length_of_drop hdrop
    have hfour : ¬ (content.drop offset).length < 4 := by
      rw [List.length_drop]
      omega
    have hbuffer : ((content.drop offset).drop 4).take (encodePayload c.crc32 b.1 b.2).length
        = encodePayload c.crc32 b.1 b.2 := by
      rw [drop_record hdrop]
      exact take_drop_frame _ _
    have hmod : (offset + 4) % 2 ^ 32 = offset + 4 := Nat.mod_eq_of_lt (by omega)
    have hmod' : (offset + 4 + (encodePayload c.crc32 b.1 b.2).length) % 2 ^ 32
        = offset + (4 + (encodePayload c.crc32 b.1 b.2).length) := by
      rw [Nat.mod_eq_of_lt (by omega), Nat.add_assoc]
    have hnext := fun data => ih data (by omega) (drop_next hdrop)
      (fun b' hb' => hloggable b' (List.mem_cons_of_mem b hb')) hbs.2 (Nat.lt_of_succ_lt_succ hfuel)
    have hsplit : ∀ k, inWindow startNum endNum (b :: bs) k
        = (inWindow startNum endNum [b] k).or (inWindow startNum endNum bs k) := by
      intro k
      exact inWindow_append k [b] bs
    rw [getBlockData, fileLength_of_lt hlength]
    simp only [if_pos (show offset < content.length by omega), if_neg hfour, announced_record hb hdrop,
      hmod, hmod', if_neg (show ¬ content.length < offset + (4 + (encodePayload c.crc32 b.1 b.2).length) by omega),
      hbuffer, ne_eq, not_true_eq_false, if_false]
    by_cases hless : b.1 ≤ startNum
    · rw [decodeBlock_less hb.number hless]
      obtain ⟨data', flag, hread, hfind⟩ := hnext data
      refine ⟨data', flag, hread, ?_⟩
      intro k
      have hone : Consecutive b.1 [b] := ⟨rfl, trivial⟩
      rw [hfind, hsplit, inWindow_outside hone (Or.inl (by simpa using hless))]
      rfl
    by_cases hgreater : endNum < b.1
    · rw [decodeBlock_greater hb.number (not_le.mp hless) hgreater]
      refine ⟨data, true, rfl, ?_⟩
      intro k
      rw [inWindow_outside hbs (Or.inr (by rw [← hbs.1]; exact hgreater))]
      rfl
    · rw [decodeBlock_encode hb.number hb.tables hb.fits (not_le.mp hless) (not_lt.mp hgreater)]
      obtain ⟨data', flag, hread, hfind⟩ := hnext (data.insert b.1 (b.2.map loggedData))
      refine ⟨data', flag, hread, ?_⟩
      intro k
      rw [hfind, hsplit, SortedMap.find?_insert]
      by_cases hk : k = b.1
      · have hrest : inWindow startNum endNum bs k = none := by
          unfold inWindow
          rw [lookup_eq_none hbs.2 (Or.inl (by rw [hk, hbs.1]; omega))]
          exact ite_self none
        have hthis : inWindow startNum endNum [b] k = some (b.2.map loggedData) := by
          rw [inWindow, if_pos (by omega), SortedMap.lookup, if_pos hk.symm]
          rfl
        rw [hrest, hthis, if_pos hk]
        rfl
      · have hthis : inWindow startNum endNum [b] k = none := by
          rw [inWindow, SortedMap.lookup, if_neg (Ne.symm hk)]
          exact ite_self none
        rw [hthis, if_neg hk]
        rfl

variable (startNum endNum) in
theorem readBinLog_good {f : File} {first : Int} (h : f.Good c) (hbs : Consecutive first f.blocks)
    (data : BlockDataMap) :
    ∃ data' flag, readBinLog (f.content c) startNum endNum data = some (data', flag)
      ∧ ∀ k, data'.find? k = (inWindow startNum endNum f.blocks k).or (data.find? k) := by
  have hlength := File.length_content (c := c) f
  rw [readBinLog, fileLength_of_lt h.size, if_neg (by unfold versionSize; omega), if_pos (File.version_content f)]
  exact getBlockData_frames data h.size (by unfold versionSize; omega) (File.drop_content f) h.loggable h.torn
    hbs (by omega)

variable (startNum endNum) in
theorem missingLoop_log (h : LogOf c base next fs) (data : BlockDataMap) :
    ∃ data', missingLoop startNum endNum (fs.map (File.entry c)) data = some data'
      ∧ ∀ k, data'.find? k = (inWindow startNum endNum (chain fs) k).or (data.find? k) := by
  induction h generalizing data with
  | nil =>
    refine ⟨data, rfl, ?_⟩
    intro k
    rw [show chain [] = [] from rfl, inWindow_nil]
    rfl
  | @cons f older first hgood hblocks holder ih =>
    have hfirst := File.getFirstBlockNum hgood hblocks
    have hname := File.firstNumber_eq hgood hblocks
    have hchain : ∀ k, inWindow startNum endNum (chain (f :: older)) k
        = (inWindow startNum endNum (chain older) k).or (inWindow startNum endNum f.blocks k) := by
      intro k
      rw [chain_cons, inWindow_append]
    rw [List.map_cons, File.entry, missingLoop, hname, hfirst]
    simp only [ne_eq, not_true_eq_false, if_false]
    by_cases hskip : endNum < first
    · obtain ⟨data', hread, hfind⟩ := ih data
      refine ⟨data', by rw [if_pos hskip]; exact hread, ?_⟩
      intro k
      rw [hfind, hchain, inWindow_outside hblocks (Or.inr hskip), Option.or_none]
    rw [if_neg hskip]
    obtain ⟨data₁, flag, hread, hfind⟩ := readBinLog_good startNum endNum hgood hblocks data
    rw [hread]
    simp only [Option.bind_eq_bind, Option.bind_some]
    by_cases hstop : first ≤ startNum
    · refine ⟨data₁, if_pos hstop, ?_⟩
      intro k
      have hconsecutive := holder.consecutive
      rw [hfind, hchain, inWindow_outside hconsecutive.1 (Or.inl (by omega)), Option.none_or]
    · rw [if_neg hstop]
      obtain ⟨data', hrest, hfind'⟩ := ih data₁
      refine ⟨data', hrest, ?_⟩
      intro k
      rw [hfind', hfind, hchain, Option.or_assoc]

variable (startNum endNum) in
theorem missing_find? (h : LogOf c base next fs) (hd : Holds c d fs) :
    ∃ data, getMissingBlocksFromBinLog d startNum endNum = some data
      ∧ ∀ k, data.find? k = inWindow startNum endNum (chain fs) k := by
  rw [getMissingBlocksFromBinLog]
  by_cases hempty : endNum ≤ startNum
  · refine ⟨SortedMap.empty, if_pos hempty, ?_⟩
    intro k
    rw [inWindow, if_neg (by omega)]
    rfl
  · obtain ⟨data, hread, hfind⟩ := missingLoop_log startNum endNum h SortedMap.empty
    refine ⟨data, ?_, ?_⟩
    · rw [if_neg hempty, hd]
      exact hread
    · intro k
      rw [hfind, SortedMap.find?_empty, Option.or_none]

/-! ### Recovery -/

def recovered (b : Commit) : Commit := (b.1, b.2.map loggedData)

theorem size_of_range {data : BlockDataMap} (first : Int) {n : Nat}
    (h : ∀ k, (data.find? k).isSome ↔ first ≤ k ∧ k < first + n) : data.size = n := by
  have hnodup : data.keys.Nodup := by
    rw [SortedMap.keys, List.Nodup, List.pairwise_map]
    exact data.sorted.imp fun hlt => ne_of_lt hlt
  have hset : data.keys.toFinset = Finset.Ico first (first + n) := by
    ext k
    rw [List.mem_toFinset, SortedMap.mem_keys_iff, Finset.mem_Ico, ← h k, Option.isSome_iff_exists]
  have hcard := List.toFinset_card_of_nodup hnodup
  rw [hset, Int.card_Ico, SortedMap.keys, List.length_map] at hcard
  rw [SortedMap.size, ← hcard]
  omega

theorem mapM_range {β : Type} {l : List β} {f : Nat → Option β} (h : ∀ i b, l[i]? = some b → f i = some b) :
    (List.range l.length).mapM f = some l := by
  induction l generalizing f with
  | nil => rfl
  | cons b l ih =>
    have hrest := ih (f := f ∘ Nat.succ) fun i b' hb' => h (i + 1) b' hb'
    rw [List.length_cons, List.range_succ_eq_map, List.mapM_cons, h 0 b rfl, List.mapM_map, hrest]
    rfl

theorem lookup_consecutive {first : Int} {bs : List Commit} (h : Consecutive first bs) {k : Int} (hk : first ≤ k) :
    SortedMap.lookup k bs = (bs[(k - first).toNat]?).map Prod.snd := by
  induction bs generalizing first with
  | nil => rfl
  | cons b bs ih =>
    rw [SortedMap.lookup, h.1]
    split
    next hsame =>
      rw [hsame, Int.sub_self]
      rfl
    next hne =>
      have hnat : (k - first).toNat = (k - (first + 1)).toNat + 1 := by omega
      rw [ih h.2 (by omega), hnat, List.getElem?_cons_succ]

theorem recoverBlock_logged {data : BlockDataMap} {b : Commit} (h : Loggable c.crc32 b.1 b.2)
    (hfind : data.find? b.1 = some (b.2.map loggedData)) : recoverBlock data b.1 = some (recovered b) := by
  obtain ⟨hash, hhash⟩ := Option.isSome_iff_exists.mp h.hash
  have hne : b.2.map loggedData ≠ [] := by
    intro hnil
    exact h.nonempty (List.map_eq_nil_iff.mp hnil)
  rw [recoverBlock, hfind]
  simp only [Option.bind_eq_bind, Option.bind_some, if_neg hne, hhash]
  rfl

theorem recoverWindow (h : LogOf c base next fs) (hd : Holds c d fs) {num : Int} (hnum : base ≤ num + 1)
    (hle : num < next) :
    ∃ data, getMissingBlocksFromBinLog d num (num + interval) = some data
      ∧ ((List.range data.size).mapM fun i : Nat => recoverBlock data (num + (i + 1)))
        = some ((((chain fs).drop (num + 1 - base).toNat).take 100).map recovered) := by
  obtain ⟨data, hread, hfind⟩ := missing_find? num (num + interval) h hd
  obtain ⟨hchain, hlength⟩ := h.consecutive
  refine ⟨data, hread, ?_⟩
  have hblock : ∀ k, base ≤ k → data.find? k
      = if num < k ∧ k ≤ num + interval then
          ((chain fs)[(k - base).toNat]?).map fun b => b.2.map loggedData
        else none := by
    intro k hk
    rw [hfind, inWindow, lookup_consecutive hchain hk, Option.map_map]
    rfl
  have hcount : (((chain fs).drop (num + 1 - base).toNat).take 100).length
      = min 100 ((chain fs).length - (num + 1 - base).toNat) := by
    rw [List.length_take, List.length_drop]
  have hsize : data.size = ((((chain fs).drop (num + 1 - base).toNat).take 100).map recovered).length := by
    rw [List.length_map, hcount]
    apply size_of_range (num + 1)
    intro k
    by_cases hlow : num < k
    · rw [hblock k (by omega)]
      by_cases hhigh : k ≤ num + interval
      · rw [if_pos ⟨hlow, hhigh⟩, Option.isSome_map, isSome_getElem?]
        unfold interval at hhigh
        omega
      · rw [if_neg fun hwindow => hhigh hwindow.2]
        unfold interval at hhigh
        constructor
        · intro hnone
          cases hnone
        · omega
    · rw [hfind, inWindow, if_neg fun hwindow => hlow hwindow.1]
      constructor
      · intro hnone
        cases hnone
      · omega
  rw [hsize]
  apply mapM_range
  intro i b hb
  rw [List.getElem?_map] at hb
  obtain ⟨block, hget, rfl⟩ := Option.map_eq_some_iff.mp hb
  rw [List.getElem?_take] at hget
  split at hget
  case isFalse => cases hget
  rw [List.getElem?_drop] at hget
  have hnumber := hchain.get hget
  have hk : num + ((i : Int) + 1) = block.1 := by omega
  rw [hk]
  apply recoverBlock_logged (h.loggable block (List.mem_of_getElem? hget))
  have hindex : (block.1 - base).toNat = (num + 1 - base).toNat + i := by omega
  rw [hblock block.1 (by omega), if_pos (by unfold interval; omega), hindex, hget]
  rfl

theorem drop_chain (h : LogOf c base next fs) {num : Int} (hle : next ≤ num + 1) :
    (chain fs).drop (num + 1 - base).toNat = [] := by
  have hlength := h.consecutive.2
  rw [List.drop_eq_nil_iff]
  omega

theorem recoverWindows_log (h : LogOf c base next fs) (hd : Holds c d fs) {fuel : Nat} {num : Int}
    (hnum : base ≤ num + 1) (hfuel : next - num ≤ fuel) :
    recoverWindows d (next - 1) fuel num
      = some (((chain fs).drop (num + 1 - base).toNat).map recovered) := by
  induction fuel generalizing num with
  | zero =>
    rw [recoverWindows, drop_chain h (by omega)]
    rfl
  | succ fuel ih =>
    rw [recoverWindows]
    by_cases hlast : num ≤ next - 1
    · obtain ⟨data, hread, hcommits⟩ := recoverWindow h hd hnum (by omega)
      have hrest := @ih (num + interval) (by unfold interval; omega) (by unfold interval; omega)
      have hindex : (num + interval + 1 - base).toNat = (num + 1 - base).toNat + 100 := by
        unfold interval
        omega
      rw [if_pos hlast, hread]
      simp only [Option.bind_eq_bind, Option.bind_some, hcommits, hrest]
      rw [hindex, ← List.drop_drop, ← List.map_append, List.take_append_drop]
    · rw [if_neg hlast, drop_chain h (by omega)]
      rfl

/-- **Recovery commits the blocks after the one of the backend**, the oldest first. -/
theorem recoverFromBinaryLog_log (h : LogOf c base next fs) (hd : Holds c d fs) {startNum : Int}
    (hzero : 0 ≤ base) (hbase : base ≤ startNum + 1) :
    recoverFromBinaryLog d startNum = some (((chain fs).drop (startNum + 1 - base).toNat).map recovered) := by
  rw [recoverFromBinaryLog, getLastBlockNum_log h hd]
  simp only [Option.bind_eq_bind, Option.bind_some]
  by_cases hnil : fs = []
  · subst hnil
    rw [if_pos rfl, if_pos (by omega), show chain [] = [] from rfl, List.drop_nil]
    rfl
  · rw [if_neg hnil]
    by_cases hdone : next - 1 ≤ startNum
    · rw [if_pos hdone, drop_chain h (by omega)]
      rfl
    · rw [if_neg hdone]
      exact recoverWindows_log h hd hbase (by omega)

end HieraChain.BinLog
