/-
  HieraChain/BinLogDamage.lean
  ============================
  **What `decodeBlock` makes of damaged bytes.**

  The formats here say what the bytes of a block look like.  `decodeBlock` reads
  inside its buffer exactly on the buffers of that form, and since it compares the
  checksum with nothing, it accepts a wrong one whenever the length is right
  (`detects_damage_iff`).
-/
import HieraChain.BinLogHandler

namespace HieraChain.BinLog

open HieraChain.BigEndian HieraChain.Storage HieraChain.Wire

/-! ### Formats -/

inductive Values (usedFlag : Bytes) : List Bytes → Nat → Entry → Format Entry
  | nil (fieldIdx : Nat) (e : Entry) : Values usedFlag [] fieldIdx e [] e
  | unset {key : Bytes} {keys : List Bytes} {fieldIdx : Nat} {e : Entry} {b : Bytes} {e' : Entry}
      (flag : hasFlag usedFlag fieldIdx = some false) (rest : Values usedFlag keys (fieldIdx + 1) e b e') :
      Values usedFlag (key :: keys) fieldIdx e b e'
  | set {key : Bytes} {keys : List Bytes} {fieldIdx : Nat} {e : Entry} {text value b : Bytes} {e' : Entry}
      (flag : hasFlag usedFlag fieldIdx = some true) (head : Text 4 text value)
      (rest : Values usedFlag keys (fieldIdx + 1) (e.setField key value) b e') :
      Values usedFlag (key :: keys) fieldIdx e (text ++ b) e'

def EntryBytes (vecField : List Bytes) (force : Bool) : Format Entry := fun b e =>
  ∃ id status flags values idNumber statusNumber, b = id ++ (status ++ (flags ++ values))
    ∧ Number 8 id idNumber ∧ Number 1 status statusNumber ∧ flags.length = flagSize vecField
    ∧ Values flags (columns vecField) 0 { id := idNumber, status := statusNumber, force } values e

def EntriesBytes (vecField : List Bytes) (force : Bool) : Format (List Entry) := fun b entries =>
  ∃ count rest, b = count ++ rest ∧ Number 4 count entries.length
    ∧ Several (EntryBytes vecField force) entries.length rest entries

def InfoBytes : Format TableInfo := fun b info =>
  ∃ name fields text, b = name ++ fields ∧ Text 1 name info.name ∧ Text 4 fields text
    ∧ splitFields text = info.key :: info.fields
    ∧ info = { name := info.name, key := info.key, fields := info.fields }

def DataBytes : Format TableData := fun b t =>
  ∃ info dirty new, b = info ++ (dirty ++ new) ∧ InfoBytes info t.info
    ∧ EntriesBytes (t.info.key :: t.info.fields) (forced t.info) dirty t.dirtyEntries
    ∧ EntriesBytes (t.info.key :: t.info.fields) (forced t.info) new t.newEntries

def TablesBytes : Format (List TableData) := fun b datas =>
  ∃ count rest, b = count ++ rest ∧ Number 4 count datas.length ∧ Several DataBytes datas.length rest datas

/-! ### Readers of these formats -/

theorem recognizes_values (usedFlag : Bytes) (keys : List Bytes) (fieldIdx : Nat) (e : Entry) :
    Recognizes (decodeFields usedFlag keys fieldIdx e) (Values usedFlag keys fieldIdx e) := by
  induction keys generalizing fieldIdx e with
  | nil =>
    apply (Recognizes.pure e).congr
    intro b e'
    constructor
    · rintro ⟨rfl, rfl⟩
      exact Values.nil fieldIdx _
    · intro h
      cases h
      exact ⟨rfl, rfl⟩
  | cons key keys ih =>
    rw [decodeFields]
    cases hflag : hasFlag usedFlag fieldIdx with
    | none =>
      apply Recognizes.failure.congr
      intro b e'
      constructor
      · intro h
        exact h.elim
      · intro h
        cases h with
        | unset flag => rw [hflag] at flag; cases flag
        | set flag => rw [hflag] at flag; cases flag
    | some flag =>
      cases flag with
      | false =>
        apply (ih (fieldIdx + 1) e).congr
        intro b e'
        constructor
        · exact Values.unset hflag
        · intro h
          cases h with
          | unset _ rest => exact rest
          | set flag => rw [hflag] at flag; cases flag
      | true =>
        apply ((recognizes_counted 4).bind fun value => ih (fieldIdx + 1) (e.setField key value)).congr
        intro b e'
        constructor
        · rintro ⟨p, q, value, rfl, hvalue, hrest⟩
          exact Values.set hflag hvalue hrest
        · intro h
          cases h with
          | unset flag => rw [hflag] at flag; cases flag
          | set _ head rest => exact ⟨_, _, _, rfl, head, rest⟩

theorem recognizes_entry (vecField : List Bytes) (force : Bool) :
    Recognizes (decodeEntry vecField force) (EntryBytes vecField force) := by
  apply ((recognizes_integer 8).bind fun id => (recognizes_integer 1).bind fun status =>
    (recognizes_chunk (flagSize vecField)).bind fun usedFlag =>
      recognizes_values usedFlag (columns vecField) 0 { id, status, force }).congr
  intro b e
  constructor
  · rintro ⟨id, _, idNumber, rfl, hid, status, _, statusNumber, rfl, hstatus, flags, values, _, rfl,
      ⟨hflags, rfl⟩, hvalues⟩
    exact ⟨id, status, flags, values, idNumber, statusNumber, rfl, hid, hstatus, hflags, hvalues⟩
  · rintro ⟨id, status, flags, values, idNumber, statusNumber, rfl, hid, hstatus, hflags, hvalues⟩
    exact ⟨id, _, idNumber, rfl, hid, status, _, statusNumber, rfl, hstatus, flags, values, flags, rfl,
      ⟨hflags, rfl⟩, hvalues⟩

theorem recognizes_entries (vecField : List Bytes) (force : Bool) :
    Recognizes (decodeEntries vecField force) (EntriesBytes vecField force) :=
  recognizes_several (recognizes_entry vecField force) 4

theorem recognizes_info : Recognizes decodeTable InfoBytes := by
  unfold decodeTable
  refine ((recognizes_counted 1).bind fun name => (recognizes_counted 4).bind (H := fun text b info =>
    b = [] ∧ info.name = name ∧ splitFields text = info.key :: info.fields
      ∧ info = { name := info.name, key := info.key, fields := info.fields }) fun text => ?_).congr ?_
  · cases hfields : splitFields text with
    | nil =>
      apply Recognizes.failure.congr
      intro b info
      constructor
      · intro h
        exact h.elim
      · rintro ⟨-, -, hcons, -⟩
        cases hcons
    | cons key fields =>
      apply (Recognizes.pure _).congr
      intro b info
      constructor
      · rintro ⟨rfl, rfl⟩
        exact ⟨rfl, rfl, rfl, rfl⟩
      · rintro ⟨rfl, rfl, hcons, hinfo⟩
        cases hcons
        exact ⟨rfl, hinfo⟩
  · intro b info
    constructor
    · rintro ⟨name, _, _, rfl, hname, fields, _, text, rfl, hfields, rfl, rfl, hcons, hinfo⟩
      rw [List.append_nil]
      exact ⟨name, fields, text, rfl, hname, hfields, hcons, hinfo⟩
    · rintro ⟨name, fields, text, rfl, hname, hfields, hcons, hinfo⟩
      exact ⟨name, _, info.name, rfl, hname, fields, [], text, (List.append_nil _).symm, hfields, rfl, rfl, hcons,
        hinfo⟩

theorem recognizes_data : Recognizes decodeData DataBytes := by
  apply (recognizes_info.bind fun info =>
    (recognizes_entries (info.key :: info.fields) (forced info)).bind fun dirtyEntries =>
      (recognizes_entries (info.key :: info.fields) (forced info)).bind fun newEntries =>
        Recognizes.pure ({ info, dirtyEntries, newEntries } : TableData)).congr
  intro b t
  constructor
  · rintro ⟨info, _, tableInfo, rfl, hinfo, dirty, _, dirtyEntries, rfl, hdirty, new, _, newEntries, rfl, hnew,
      rfl, rfl⟩
    rw [List.append_nil]
    exact ⟨info, dirty, new, rfl, hinfo, hdirty, hnew⟩
  · rintro ⟨info, dirty, new, rfl, hinfo, hdirty, hnew⟩
    exact ⟨info, _, t.info, rfl, hinfo, dirty, _, t.dirtyEntries, rfl, hdirty, new, [], t.newEntries,
      (List.append_nil _).symm, hnew, rfl, rfl⟩

theorem recognizes_tables :
    Recognizes (do let n ← integer 4; repeated decodeData n) TablesBytes :=
  recognizes_several recognizes_data 4

/-! ### Damage -/

def Checked (crc32 : Bytes → Nat) (buffer : Bytes) : Prop :=
  fromBigEndian (buffer.drop (buffer.length - 4)) = crc32 (buffer.take (buffer.length - 4))

instance (crc32 : Bytes → Nat) (buffer : Bytes) : Decidable (Checked crc32 buffer) :=
  inferInstanceAs (Decidable (_ = _))

/-- A number outside the range, or the tables and behind them a number of bytes that
    is not four, or the checksum. -/
def Intact (crc32 : Bytes → Nat) (startNum endNum : Int) (buffer : Bytes) : Prop :=
  ∃ number rest n, buffer = number ++ rest ∧ Number 8 number n
    ∧ (toInt64 n ≤ startNum ∨ endNum < toInt64 n
      ∨ ∃ tables trailer datas, rest = tables ++ trailer ∧ TablesBytes tables datas
        ∧ (trailer.length = 4 → Checked crc32 buffer))

variable {startNum endNum : Int}

theorem decodeBlock_number {number : Bytes} {n : Nat} (h : Number 8 number n) (rest : Bytes) :
    decodeBlock (number ++ rest) startNum endNum
      = if toInt64 n ≤ startNum then some (.LessThanSpecifiedRange, toInt64 n, [])
        else if endNum < toInt64 n then some (.GreaterThanSpecifiedRange, toInt64 n, [])
        else ((do let n ← integer 4; repeated decodeData n : Reader _) rest).map fun p =>
          if p.2.length = 4 then (.Success, toInt64 n, p.1) else (.BlockDataLengthError, toInt64 n, p.1) := by
  rw [decodeBlock, blockReader, ((recognizes_integer 8).complete h).run_bind]
  split
  · rfl
  split
  · rfl
  · -- The tables are one reader, and the rest of the buffer is looked at behind it.
    rw [← bind_assoc]
    change (((do let n ← integer 4; repeated decodeData n : Reader _) rest).bind _).map Prod.fst = _
    cases (do let n ← integer 4; repeated decodeData n : Reader (List TableData)) rest with
    | none => rfl
    | some p =>
      obtain ⟨datas, trailer⟩ := p
      rw [Option.bind_some, Option.map_some]
      change ((remaining >>= _) trailer).map Prod.fst = _
      rw [run_remaining]
      split
      · rfl
      · rfl

/-- **The checksum is not looked at.**  Reading stays inside the buffer and success
    means a right checksum exactly for the buffers that are `Intact`. -/
theorem detects_damage_iff (crc32 : Bytes → Nat) (startNum endNum : Int) (buffer : Bytes) :
    (∃ r, decodeBlock buffer startNum endNum = some r ∧ (r.1 = .Success → Checked crc32 buffer))
      ↔ Intact crc32 startNum endNum buffer := by
  constructor
  · rintro ⟨r, hdecode, hchecked⟩
    -- The number was read.
    obtain ⟨number, rest, n, rfl, hnumber⟩ :
        ∃ number rest n, buffer = number ++ rest ∧ Number 8 number n := by
      rw [decodeBlock, blockReader, Option.map_eq_some_iff] at hdecode
      obtain ⟨p, hread, -⟩ := hdecode
      change (integer 8 buffer).bind _ = some p at hread
      obtain ⟨⟨n, rest⟩, hinteger, -⟩ := Option.bind_eq_some_iff.mp hread
      obtain ⟨number, hbuffer, hnumber⟩ := (recognizes_integer 8).sound hinteger
      exact ⟨number, rest, n, hbuffer, hnumber⟩
    refine ⟨number, rest, n, rfl, hnumber, ?_⟩
    rw [decodeBlock_number hnumber] at hdecode
    by_cases hless : toInt64 n ≤ startNum
    · exact Or.inl hless
    by_cases hgreater : endNum < toInt64 n
    · exact Or.inr (Or.inl hgreater)
    rw [if_neg hless, if_neg hgreater, Option.map_eq_some_iff] at hdecode
    obtain ⟨⟨datas, trailer⟩, htables, rfl⟩ := hdecode
    obtain ⟨tables, hrest, hformat⟩ := recognizes_tables.sound htables
    refine Or.inr (Or.inr ⟨tables, trailer, datas, hrest, hformat, ?_⟩)
    intro hfour
    apply hchecked
    rw [if_pos hfour]
  · rintro ⟨number, rest, n, rfl, hnumber, hcase⟩
    rw [decodeBlock_number hnumber]
    by_cases hless : toInt64 n ≤ startNum
    · exact ⟨_, if_pos hless, fun h => by cases h⟩
    by_cases hgreater : endNum < toInt64 n
    · rw [if_neg hless, if_pos hgreater]
      exact ⟨_, rfl, fun h => by cases h⟩
    rcases hcase with hless' | hgreater' | ⟨tables, trailer, datas, rfl, hformat, hchecked⟩
    · exact absurd hless' hless
    · exact absurd hgreater' hgreater
    rw [if_neg hless, if_neg hgreater, recognizes_tables.complete hformat trailer, Option.map_some]
    refine ⟨_, rfl, ?_⟩
    by_cases hfour : trailer.length = 4
    · exact fun _ => hchecked hfour
    · rw [if_neg hfour]
      intro h
      cases h

/-- Three bytes are read past their end, and of two payloads that differ in the
    checksum alone both are accepted. -/
theorem damage_accepted :
    decodeBlock [0, 0, 0] 0 1 = none
      ∧ ∀ crc32 : Bytes → Nat, ∃ trailer ∈ [[0, 0, 0, 0], [0, 0, 0, 1]],
        (decodeBlock ([0, 0, 0, 0, 0, 0, 0, 1, 0, 0, 0, 0] ++ trailer) 0 1).map Prod.fst = some .Success
          ∧ ¬ Checked crc32 ([0, 0, 0, 0, 0, 0, 0, 1, 0, 0, 0, 0] ++ trailer) := by
  refine ⟨rfl, ?_⟩
  intro crc32
  by_cases hzero : crc32 [0, 0, 0, 0, 0, 0, 0, 1, 0, 0, 0, 0] = 0
  · refine ⟨[0, 0, 0, 1], by decide, by decide +kernel, ?_⟩
    intro hchecked
    change 1 = crc32 [0, 0, 0, 0, 0, 0, 0, 1, 0, 0, 0, 0] at hchecked
    omega
  · refine ⟨[0, 0, 0, 0], by decide, by decide +kernel, ?_⟩
    intro hchecked
    exact hzero hchecked.symm

end HieraChain.BinLog
