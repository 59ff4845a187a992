/-
  HieraChain/Table.lean
  =====================
  **Entries, conditions and table descriptions** (`libstorage/Table.h`,
  `Table.cpp`, `Common.cpp`).

  `std::string` is a list of bytes, ordered as `std::string` is.  The branches
  for versions before RC3 are left out.  An entry carries the proof that its
  running count `capacityOfHashField` is the size of its hash fields, since
  `dump` lays out its buffer by this count.  `m_tempIndex` is left out: a
  select writes it where an update or a removal reads it.
-/
import Mathlib.Data.List.Lex
import HieraChain.BigEndian
import HieraChain.SortedMap

namespace HieraChain.Storage

open HieraChain.BigEndian

instance instLinearOrderUInt8 : LinearOrder UInt8 where
  le := (· ≤ ·)
  lt := (· < ·)
  le_refl a := UInt8.le_refl a
  le_trans a b c := UInt8.le_trans
  lt_iff_le_not_ge a b := by
    rw [UInt8.lt_iff_toNat_lt, UInt8.le_iff_toNat_le, UInt8.le_iff_toNat_le]
    omega
  le_antisymm a b := UInt8.le_antisymm
  le_total a b := UInt8.le_total a b
  toDecidableLE := inferInstance
  toDecidableEq := inferInstance
  toDecidableLT := inferInstance

def ascii (text : List Char) : Bytes := text.map fun c => UInt8.ofNat c.toNat

/-! ### Versions -/

def V2_1_0 : Nat := 0x02010000
def V2_2_0 : Nat := 0x02020000
def V2_3_0 : Nat := 0x02030000
def V2_4_0 : Nat := 0x02040000
def V2_5_0 : Nat := 0x02050000

/-! ### Fields -/

def ID_FIELD : Bytes := ascii ['_', 'i', 'd', '_']
def NUM_FIELD : Bytes := ascii ['_', 'n', 'u', 'm', '_']
def STATUS : Bytes := ascii ['_', 's', 't', 'a', 't', 'u', 's', '_']

/-- `'_'`. -/
def underscore : UInt8 := UInt8.ofNat '_'.toNat

/-- A field counts for the hash when its name neither starts nor ends with an
    underscore. -/
def isHashField (key : Bytes) : Bool :=
  !key.isEmpty && (key.head? != some underscore && key.getLast? != some underscore)

def hashFieldSize (field : Bytes × Bytes) : Int :=
  if isHashField field.1 then field.1.length + field.2.length else 0

abbrev Fields := SortedMap Bytes Bytes

structure TableInfo where
  name : Bytes
  key : Bytes
  fields : List Bytes
  authorizedAddress : List Nat := []
  enableConsensus : Bool := true
  enableCache : Bool := true
  deriving DecidableEq, Repr

/-! ### Entries -/

theorem capacity_empty : (0 : Int) = ((SortedMap.empty : Fields).entries.map hashFieldSize).sum := rfl

structure Entry where
  id : Nat := 0
  status : Int := 0
  num : Nat := 0
  force : Bool := false
  deleted : Bool := false
  fields : Fields := SortedMap.empty
  capacityOfHashField : Int := 0
  capacity_eq : capacityOfHashField = (fields.entries.map hashFieldSize).sum := by exact capacity_empty
  deriving DecidableEq

namespace Entry

def DELETED : Int := 1

def getField (e : Entry) (key : Bytes) : Bytes := (e.fields.find? key).getD []

/-- What `setField` adds to the capacity. -/
def updatedCapacity (e : Entry) (key value : Bytes) : Int :=
  match e.fields.find? key with
  | some old => (value.length : Int) - old.length
  | none => key.length + value.length

def setField (e : Entry) (key value : Bytes) : Entry where
  id := e.id
  status := e.status
  num := e.num
  force := e.force
  deleted := e.deleted
  fields := e.fields.insert key value
  capacityOfHashField :=
    if isHashField key then e.capacityOfHashField + e.updatedCapacity key value
    else e.capacityOfHashField
  capacity_eq := by
    rw [SortedMap.sum_insert, ← e.capacity_eq, updatedCapacity, hashFieldSize]
    split
    next hhash =>
      cases hold : e.fields.find? key with
      | none =>
        simp only [Option.map_none, Option.getD_none]
        omega
      | some old =>
        simp only [Option.map_some, Option.getD_some, hashFieldSize, if_pos hhash]
        omega
    next hhash =>
      cases hold : e.fields.find? key with
      | none =>
        simp only [Option.map_none, Option.getD_none]
        omega
      | some old =>
        simp only [Option.map_some, Option.getD_some, hashFieldSize, if_neg hhash]
        omega

def setStatus (e : Entry) (status : Int) : Entry := { e with status }

def setDeleted (e : Entry) (deleted : Bool) : Entry := { e with deleted }

def live (e : Entry) : Bool := decide (e.status ≠ DELETED) && !e.deleted

@[simp] theorem setField_fields (e : Entry) (key value : Bytes) :
    (e.setField key value).fields = e.fields.insert key value := rfl
@[simp] theorem setField_id (e : Entry) (key value : Bytes) : (e.setField key value).id = e.id := rfl
@[simp] theorem setField_status (e : Entry) (key value : Bytes) :
    (e.setField key value).status = e.status := rfl
@[simp] theorem setField_deleted (e : Entry) (key value : Bytes) :
    (e.setField key value).deleted = e.deleted := rfl
@[simp] theorem setField_live (e : Entry) (key value : Bytes) :
    (e.setField key value).live = e.live := rfl
@[simp] theorem setStatus_fields (e : Entry) (status : Int) :
    (e.setStatus status).fields = e.fields := rfl
@[simp] theorem setStatus_id (e : Entry) (status : Int) : (e.setStatus status).id = e.id := rfl
@[simp] theorem setDeleted_id (e : Entry) (deleted : Bool) : (e.setDeleted deleted).id = e.id := rfl
@[simp] theorem setDeleted_fields (e : Entry) (deleted : Bool) :
    (e.setDeleted deleted).fields = e.fields := rfl

theorem ext {e e' : Entry} (hid : e.id = e'.id) (hstatus : e.status = e'.status)
    (hnum : e.num = e'.num) (hforce : e.force = e'.force) (hdeleted : e.deleted = e'.deleted)
    (hfields : e.fields = e'.fields) : e = e' := by
  have hcap : e.capacityOfHashField = e'.capacityOfHashField := by
    rw [e.capacity_eq, e'.capacity_eq, hfields]
  cases e
  cases e'
  cases hid
  cases hstatus
  cases hnum
  cases hforce
  cases hdeleted
  cases hfields
  cases hcap
  rfl

end Entry

/-! ### The order of the entries -/

/-- The loop of `EntryLessNoLock`. -/
def lessFields : List (Bytes × Bytes) → List (Bytes × Bytes) → Bool
  | l :: ls, r :: rs =>
    if l.1 ≠ r.1 then decide (l.1 < r.1)
    else if l.2 ≠ r.2 then decide (l.2 < r.2)
    else lessFields ls rs
  | _, _ => false

def EntryLessNoLock (info : TableInfo) (lhs rhs : Entry) : Bool :=
  if lhs.id ≠ rhs.id then decide (lhs.id < rhs.id)
  else if lhs.getField info.key ≠ rhs.getField info.key then
    decide (lhs.getField info.key < rhs.getField info.key)
  else if lhs.fields.size ≠ rhs.fields.size then decide (lhs.fields.size < rhs.fields.size)
  else lessFields lhs.fields.entries rhs.fields.entries

/-! ### Conditions -/

/-- The two bounds of a field; the flag says whether the bound is included. -/
structure Range where
  left : Bool × Bytes
  right : Bool × Bytes
  deriving DecidableEq, Repr

/-- `"_VALUE_UNLIMITED_"`. -/
def UNLIMITED : Bytes :=
  ascii ['_', 'V', 'A', 'L', 'U', 'E', '_', 'U', 'N', 'L', 'I', 'M', 'I', 'T', 'E', 'D', '_']

structure Condition where
  offset : Int := -1
  count : Int := -1
  conditions : SortedMap Bytes Range := SortedMap.empty

namespace Condition

def EQ (c : Condition) (key value : Bytes) : Condition :=
  { c with conditions := c.conditions.insert key ⟨(true, value), (true, value)⟩ }

def NE (c : Condition) (key value : Bytes) : Condition :=
  { c with conditions := c.conditions.insert key ⟨(false, value), (false, value)⟩ }

def lower (c : Condition) (key value : Bytes) (included : Bool) : Condition :=
  let right := ((c.conditions.find? key).map Range.right).getD (false, UNLIMITED)
  { c with conditions := c.conditions.insert key ⟨(included, value), right⟩ }

def upper (c : Condition) (key value : Bytes) (included : Bool) : Condition :=
  let left := ((c.conditions.find? key).map Range.left).getD (false, UNLIMITED)
  { c with conditions := c.conditions.insert key ⟨left, (included, value)⟩ }

def GT (c : Condition) (key value : Bytes) : Condition := c.lower key value false
def GE (c : Condition) (key value : Bytes) : Condition := c.lower key value true
def LT (c : Condition) (key value : Bytes) : Condition := c.upper key value false
def LE (c : Condition) (key value : Bytes) : Condition := c.upper key value true

def limit (c : Condition) (offset count : Int) : Condition := { c with offset, count }

/-- `getOffset` and `getCount` return `int`. -/
def getOffset (c : Condition) : Int := Int.bmod c.offset (2 ^ 32)
def getCount (c : Condition) : Int := Int.bmod c.count (2 ^ 32)

end Condition

def digit? (b : UInt8) : Option Nat :=
  if 48 ≤ b.toNat ∧ b.toNat ≤ 57 then some (b.toNat - 48) else none

def digits (value : Nat) : Bytes → Option Nat
  | [] => some value
  | b :: rest =>
    match digit? b with
    | some d => digits (10 * value + d) rest
    | none => none

/-- The characters `'-'` and `'+'`. -/
def minus : UInt8 := UInt8.ofNat '-'.toNat
def plus : UInt8 := UInt8.ofNat '+'.toNat

/-- `boost::lexical_cast<int64_t>`; `none` where it throws. -/
def lexicalCast (s : Bytes) : Option Int :=
  let negative := s.head? = some minus
  let text := if negative ∨ s.head? = some plus then s.tail else s
  if text.isEmpty then none
  else do
    let n ← digits 0 text
    let value : Int := if negative then -n else n
    if -2 ^ 63 ≤ value ∧ value < 2 ^ 63 then some value else none

def fieldNumber (value : Bytes) : Option Int :=
  if value.isEmpty then some 0 else lexicalCast value

/-- The test of a field against a range; `false` also where a cast throws. -/
def Range.process (version : Nat) (r : Range) (value : Bytes) : Bool :=
  if r.left.2 = r.right.2 ∧ r.left.1 = true ∧ r.right.1 = true then decide (r.left.2 = value)
  else if V2_3_0 ≤ version ∧ r.left.2 = r.right.2 ∧ r.left.1 = false ∧ r.right.1 = false then
    decide (r.left.2 ≠ value)
  else
    let aboveLeft :=
      if r.left.2 = UNLIMITED then true
      else match lexicalCast r.left.2, fieldNumber value with
        | some lhs, some rhs => if r.left.1 then decide (lhs ≤ rhs) else decide (lhs < rhs)
        | _, _ => false
    let belowRight :=
      if r.right.2 = UNLIMITED then true
      else match lexicalCast r.right.2, fieldNumber value with
        | some lhs, some rhs => if r.right.1 then decide (lhs ≥ rhs) else decide (lhs > rhs)
        | _, _ => false
    aboveLeft && belowRight

/-- The test of an entry: live, and every field with a range satisfies it.
    Ranges of fields that do not count for the hash are skipped. -/
def Condition.process (version : Nat) (c : Condition) (e : Entry) : Bool :=
  e.live && c.conditions.entries.all fun range =>
    !isHashField range.1 ||
      match e.fields.find? range.1 with
      | some value => range.2.process version value
      | none => false

/-! ### Changes -/

inductive Change.Kind
  | Insert
  | Update
  | Remove
  deriving DecidableEq, Repr

structure Change.Record where
  index : Nat
  key : Bytes := []
  oldValue : Bytes := []
  id : Nat := 0
  deriving DecidableEq, Repr

end HieraChain.Storage
