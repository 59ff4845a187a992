/-
  HieraChain/EntrySharing.lean
  ============================
  **Entries that share their fields until one of them is written**
  (`libstorage/Table.cpp`, `class Entry`).

  Every entry has its own attributes and sizes, and a pointer to fields with a
  count of the entries that point to them.  `setField` and `setStatus` take a
  copy of the fields first where the count is above one.  `copyFrom` leaves early
  where the two entries already share their fields, and then copies no attribute.

  `Sound` says that the counts and the sizes are right; every call keeps it
  (`Sound.step`).  The entries behave as independent records exactly as long as
  no entry copies from one that shares its fields and differs in an attribute
  (`independent_iff`).
-/
import HieraChain.Machine
import HieraChain.Table
import Mathlib.Logic.Function.Basic

namespace HieraChain.EntrySharing

open HieraChain.BigEndian HieraChain.Storage

def RC3_VERSION : Nat := 3

/-- `isHashField` for a version. -/
def isHashField (version : Nat) (key : Bytes) : Bool :=
  if key.isEmpty then false
  else if version < RC3_VERSION then Storage.isHashField key || key == STATUS
  else Storage.isHashField key

/-! ### Sizes -/

/-- The size of the keys and values of the fields that `counts` picks. -/
def sizeOf (counts : Bytes → Bool) (fields : Fields) : Int :=
  (fields.entries.map fun f => if counts f.1 then (f.1.length + f.2.length : Int) else 0).sum

/-- What `setField` adds to the sizes. -/
def updatedCapacity (fields : Fields) (key value : Bytes) : Int :=
  match fields.find? key with
  | some old => (value.length : Int) - old.length
  | none => key.length + value.length

theorem sizeOf_insert (counts : Bytes → Bool) (fields : Fields) (key value : Bytes) :
    sizeOf counts (fields.insert key value)
      = sizeOf counts fields + if counts key then updatedCapacity fields key value else 0 := by
  rw [sizeOf, SortedMap.sum_insert, updatedCapacity]
  change sizeOf counts fields + _ - _ = _
  cases hold : fields.find? key with
  | none =>
    simp only [Option.map_none, Option.getD_none]
    omega
  | some old =>
    simp only [Option.map_some, Option.getD_some]
    split
    · omega
    · omega

/-! ### Entries in memory -/

structure Attributes where
  ID : Nat := 0
  status : Int := 0
  tempIndex : Nat := 0
  num : Nat := 0
  dirty : Bool := false
  force : Bool := false
  deleted : Bool := false
  deriving DecidableEq

namespace Attributes

variable (t : Attributes)

-- The overloads for a text have no value where `lexical_cast` throws.

def setID : Option Nat → Attributes
  | none => t
  | some id => { t with ID := id, dirty := true }

def setStatus : Option Int → Attributes
  | none => t
  | some status => { t with status, dirty := true }

def setNum : Option Nat → Attributes
  | none => t
  | some num => { t with num, dirty := true }

def setTempIndex (index : Nat) : Attributes := { t with tempIndex := index }
def setDirty (dirty : Bool) : Attributes := { t with dirty }
def setForce (force : Bool) : Attributes := { t with force }
def setDeleted (deleted : Bool) : Attributes := { t with deleted }

end Attributes

structure EntryData where
  refCount : Int := 0
  fields : Fields := .empty

structure Entry where
  attributes : Attributes := {}
  capacity : Int := 0
  capacityOfHashField : Int := 0
  data : Nat

/-- The shared fields by address, the next free address, and the entries ever
    constructed; a destroyed one is `none`. -/
structure Memory where
  data : Nat → EntryData := fun _ => {}
  next : Nat := 0
  entries : List (Option Entry) := []

/-- `m_refCount += n` at `p`. -/
def addRef (data : Nat → EntryData) (p : Nat) (n : Int) : Nat → EntryData :=
  Function.update data p { data p with refCount := (data p).refCount + n }

@[simp] theorem addRef_fields (data : Nat → EntryData) (p q : Nat) (n : Int) :
    (addRef data p n q).fields = (data q).fields := by
  by_cases hq : q = p
  · rw [hq, addRef, Function.update_self]
  · rw [addRef, Function.update_of_ne hq]

theorem addRef_refCount (data : Nat → EntryData) (p q : Nat) (n : Int) :
    (addRef data p n q).refCount = (data q).refCount + if p = q then n else 0 := by
  by_cases hq : q = p
  · rw [hq, addRef, Function.update_self, if_pos rfl]
  · rw [addRef, Function.update_of_ne hq, if_neg (Ne.symm hq), Int.add_zero]

def alive {α : Type} (l : List (Option α)) (a : Nat) : Option α := l[a]?.join

/-- Replace the value at `a`, if it is alive. -/
def change {α : Type} (l : List (Option α)) (a : Nat) (f : α → Option α) : List (Option α) :=
  match alive l a with
  | none => l
  | some x => l.set a (f x)

namespace Memory

variable (version : Nat) (m : Memory)

/-- Whether an entry is alive and points to the fields at `p`. -/
def pointsTo (p : Nat) : Option Entry → Bool
  | none => false
  | some e => e.data == p

/-- The number of live entries that share the fields at `p`. -/
def owners (p : Nat) : Nat := m.entries.countP (pointsTo p)

/-- `Entry::Entry`. -/
def construct : Memory where
  data := Function.update m.data m.next { refCount := 1 }
  next := m.next + 1
  entries := m.entries ++ [some { data := m.next }]

/-- `Entry::~Entry`. -/
def destroy (a : Nat) : Memory :=
  match alive m.entries a with
  | none => m
  | some e =>
    { m with
      data := if (m.data e.data).refCount > 0 then addRef m.data e.data (-1) else m.data
      entries := m.entries.set a none }

def setAttributes (a : Nat) (f : Attributes → Attributes) : Memory :=
  { m with entries := change m.entries a fun e => some { e with attributes := f e.attributes } }

def checkRef (a : Nat) : Memory :=
  match alive m.entries a with
  | none => m
  | some e =>
    if (m.data e.data).refCount > 1 then
      { data :=
          addRef (Function.update m.data m.next { refCount := 1, fields := (m.data e.data).fields }) e.data (-1)
        next := m.next + 1
        entries := m.entries.set a (some { e with data := m.next }) }
    else m

/-- What `setField` does after `checkRef`. -/
def writeField (a : Nat) (key value : Bytes) : Memory :=
  match alive m.entries a with
  | none => m
  | some e =>
    { m with
      data := Function.update m.data e.data
        { m.data e.data with fields := (m.data e.data).fields.insert key value }
      entries := m.entries.set a
        (some
          { e with
            attributes := { e.attributes with dirty := true }
            capacity := e.capacity + updatedCapacity (m.data e.data).fields key value
            capacityOfHashField :=
              if isHashField version key then
                e.capacityOfHashField + updatedCapacity (m.data e.data).fields key value
              else e.capacityOfHashField }) }

def setField (a : Nat) (key value : Bytes) : Memory := (m.checkRef a).writeField version a key value

def setID (a : Nat) (id : Option Nat) : Memory := m.setAttributes a (·.setID id)
def setNum (a : Nat) (num : Option Nat) : Memory := m.setAttributes a (·.setNum num)
def setTempIndex (a index : Nat) : Memory := m.setAttributes a (·.setTempIndex index)
def setDirty (a : Nat) (dirty : Bool) : Memory := m.setAttributes a (·.setDirty dirty)
def setForce (a : Nat) (force : Bool) : Memory := m.setAttributes a (·.setForce force)
def setDeleted (a : Nat) (deleted : Bool) : Memory := m.setAttributes a (·.setDeleted deleted)
def setStatus (a : Nat) (status : Option Int) : Memory := (m.checkRef a).setAttributes a (·.setStatus status)

/-- `a.copyFrom(b)`.  The lock of the second entry cannot be taken where both
    have the same fields, and the call returns. -/
def copyFrom (a b : Nat) : Memory :=
  match alive m.entries a, alive m.entries b with
  | some e, some entry =>
    if e.data = entry.data then m
    else
      { m with
        data := addRef (addRef m.data e.data (-1)) entry.data 1
        entries := m.entries.set a
          (some
            { attributes := entry.attributes
              capacity := entry.capacity
              capacityOfHashField := entry.capacityOfHashField
              data := entry.data }) }
  | _, _ => m

end Memory

inductive Call
  | construct
  | destroy (a : Nat)
  | copyFrom (a b : Nat)
  | setField (a : Nat) (key value : Bytes)
  | setID (a : Nat) (id : Option Nat)
  | setStatus (a : Nat) (status : Option Int)
  | setNum (a : Nat) (num : Option Nat)
  | setTempIndex (a index : Nat)
  | setDirty (a : Nat) (dirty : Bool)
  | setForce (a : Nat) (force : Bool)
  | setDeleted (a : Nat) (deleted : Bool)

def Memory.step (version : Nat) (m : Memory) : Call → Memory
  | .construct => m.construct
  | .destroy a => m.destroy a
  | .copyFrom a b => m.copyFrom a b
  | .setField a key value => m.setField version a key value
  | .setID a id => m.setID a id
  | .setStatus a status => m.setStatus a status
  | .setNum a num => m.setNum a num
  | .setTempIndex a index => m.setTempIndex a index
  | .setDirty a dirty => m.setDirty a dirty
  | .setForce a force => m.setForce a force
  | .setDeleted a deleted => m.setDeleted a deleted

/-! ### Independent records -/

structure Record where
  attributes : Attributes := {}
  fields : Fields := .empty

def Record.setField (r : Record) (key value : Bytes) : Record where
  attributes := { r.attributes with dirty := true }
  fields := r.fields.insert key value

def changeAttributes (l : List (Option Record)) (a : Nat) (f : Attributes → Attributes) :
    List (Option Record) :=
  change l a fun r => some { r with attributes := f r.attributes }

def stepRecords (l : List (Option Record)) : Call → List (Option Record)
  | .construct => l ++ [some {}]
  | .destroy a => change l a fun _ => none
  | .copyFrom a b =>
    match alive l b with
    | none => l
    | some r => change l a fun _ => some r
  | .setField a key value => change l a fun r => some (r.setField key value)
  | .setID a id => changeAttributes l a (·.setID id)
  | .setStatus a status => changeAttributes l a (·.setStatus status)
  | .setNum a num => changeAttributes l a (·.setNum num)
  | .setTempIndex a index => changeAttributes l a (·.setTempIndex index)
  | .setDirty a dirty => changeAttributes l a (·.setDirty dirty)
  | .setForce a force => changeAttributes l a (·.setForce force)
  | .setDeleted a deleted => changeAttributes l a (·.setDeleted deleted)

namespace Memory

def record (data : Nat → EntryData) (e : Entry) : Record where
  attributes := e.attributes
  fields := (data e.data).fields

def view (m : Memory) : List (Option Record) := m.entries.map (Option.map (record m.data))

end Memory

/-! ### Live entries -/

section alive

variable {α β : Type} {l : List (Option α)} {a b : Nat} {x : α} {o : Option α}

theorem lt_of_alive (h : alive l a = some x) : a < l.length := by
  have hget : l[a]? = some (some x) := Option.join_eq_some_iff.mp h
  exact (List.getElem?_eq_some_iff.mp hget).1

theorem getElem_of_alive (h : alive l a = some x) (hlt : a < l.length) : l[a] = some x := by
  rw [alive, List.getElem?_eq_getElem hlt] at h
  exact h

theorem mem_of_alive (h : alive l a = some x) : some x ∈ l := by
  rw [← getElem_of_alive h (lt_of_alive h)]
  exact List.getElem_mem _

theorem alive_set_self (h : alive l a = some x) : alive (l.set a o) a = o := by
  rw [alive, List.getElem?_set_self (lt_of_alive h)]
  rfl

theorem alive_set_of_ne (h : b ≠ a) : alive (l.set a o) b = alive l b := by
  rw [alive, List.getElem?_set_ne (Ne.symm h)]
  rfl

theorem alive_map (f : α → β) : alive (l.map (Option.map f)) a = (alive l a).map f := by
  rw [alive, alive, List.getElem?_map]
  cases l[a]? with
  | none => rfl
  | some o => rfl

theorem alive_of_alive_set (h : alive (l.set a o) b = some x) : (b = a ∧ o = some x) ∨ (b ≠ a ∧ alive l b = some x) := by
  by_cases hb : b = a
  · subst hb
    have hlt : b < (l.set b o).length := lt_of_alive h
    rw [List.length_set] at hlt
    have hget : (l.set b o)[b]? = some (some x) := Option.join_eq_some_iff.mp h
    rw [List.getElem?_set_self hlt] at hget
    exact Or.inl ⟨rfl, Option.some.inj hget⟩
  · rw [alive_set_of_ne hb] at h
    exact Or.inr ⟨hb, h⟩

theorem alive_of_alive_append (h : alive (l ++ [o]) b = some x) : o = some x ∨ alive l b = some x := by
  have hget : (l ++ [o])[b]? = some (some x) := Option.join_eq_some_iff.mp h
  by_cases hb : b < l.length
  · rw [List.getElem?_append_left hb] at hget
    exact Or.inr (Option.join_eq_some_iff.mpr hget)
  · rw [List.getElem?_append_right (Nat.not_lt.mp hb), List.getElem?_singleton] at hget
    split at hget
    · exact Or.inl (Option.some.inj hget)
    · cases hget

theorem change_of_alive (h : alive l a = some x) (f : α → Option α) : change l a f = l.set a (f x) := by
  rw [change, h]

theorem change_of_none (h : alive l a = none) (f : α → Option α) : change l a f = l := by
  rw [change, h]

end alive

/-! ### What every call keeps -/

/-- An entry whose fields are allocated and whose sizes are those of the fields. -/
structure Fits (version : Nat) (data : Nat → EntryData) (next : Nat) (e : Entry) : Prop where
  allocated : e.data < next
  capacity : e.capacity = sizeOf (fun _ => true) (data e.data).fields
  capacityOfHashField : e.capacityOfHashField = sizeOf (isHashField version) (data e.data).fields

theorem Fits.of_fields {version : Nat} {data data' : Nat → EntryData} {next next' : Nat} {e : Entry}
    (h : Fits version data next e) (hnext : next ≤ next')
    (hfields : (data' e.data).fields = (data e.data).fields) : Fits version data' next' e where
  allocated := h.allocated.trans_le hnext
  capacity := by rw [hfields, h.capacity]
  capacityOfHashField := by rw [hfields, h.capacityOfHashField]

structure Sound (version : Nat) (m : Memory) : Prop where
  fits : ∀ a e, alive m.entries a = some e → Fits version m.data m.next e
  counted : ∀ p < m.next, (m.data p).refCount = m.owners p

namespace Memory

variable {version : Nat} {m : Memory} {a : Nat} {e : Entry} {o : Option Entry} {p : Nat}

@[simp] theorem pointsTo_none : pointsTo p none = false := rfl
@[simp] theorem pointsTo_some : (pointsTo p (some e) = true) ↔ e.data = p := decide_eq_true_iff

theorem owners_set (data : Nat → EntryData) (next : Nat) (he : alive m.entries a = some e) :
    owners ⟨data, next, m.entries.set a o⟩ p + (if pointsTo p (some e) then 1 else 0)
      = m.owners p + if pointsTo p o then 1 else 0 := by
  have hlt := lt_of_alive he
  have hpos : (if pointsTo p (some e) then 1 else 0) ≤ m.owners p := by
    split
    next hp =>
      exact List.countP_pos_iff.mpr ⟨some e, mem_of_alive he, hp⟩
    next => exact Nat.zero_le _
  have hset : (m.entries.set a o).countP (pointsTo p) = _ := List.countP_set hlt
  rw [getElem_of_alive he hlt] at hset
  rw [owners, hset]
  change m.owners p - _ + _ + _ = _
  omega

theorem owners_of_notMem (h : ∀ b f, alive m.entries b = some f → f.data ≠ p) : m.owners p = 0 := by
  refine List.countP_eq_zero.mpr fun o ho hpoints => ?_
  obtain ⟨b, hb, rfl⟩ := List.mem_iff_getElem.mp ho
  cases hf : m.entries[b] with
  | none =>
    rw [hf] at hpoints
    cases hpoints
  | some f =>
    rw [hf] at hpoints
    have hget : m.entries[b]? = some (some f) := by rw [List.getElem?_eq_getElem hb, hf]
    exact h b f (Option.join_eq_some_iff.mpr hget) (pointsTo_some.mp hpoints)

theorem ne_of_owners_le_one (he : alive m.entries a = some e) (h : m.owners e.data ≤ 1) {b : Nat} {f : Entry}
    (hb : b ≠ a) (hf : alive m.entries b = some f) : f.data ≠ e.data := by
  intro heq
  have hset := owners_set (o := none) (p := e.data) m.data m.next he
  simp only [pointsTo_some, pointsTo_none, if_true, Bool.false_eq_true, if_false] at hset
  have hzero : (m.entries.set a none).countP (pointsTo e.data) = 0 := by
    change owners ⟨m.data, m.next, m.entries.set a none⟩ e.data = 0
    omega
  have hother : alive (m.entries.set a none) b = some f := by rw [alive_set_of_ne hb, hf]
  exact List.countP_eq_zero.mp hzero (some f) (mem_of_alive hother) (pointsTo_some.mpr heq)

end Memory

section calls

open Memory

variable {version : Nat} {m : Memory} {a b : Nat} {e f : Entry}

/-- **Frame rule.**  Where one entry is replaced, the counts follow, and the
    fields of the others stay as they were, one record changes and the memory
    stays sound. -/
theorem Sound.put (h : Sound version m) (he : alive m.entries a = some e) (data : Nat → EntryData) {next : Nat}
    (o : Option Entry) (hnext : m.next ≤ next)
    (hcount : ∀ p < next, (data p).refCount + (if pointsTo p (some e) then 1 else 0)
      = m.owners p + if pointsTo p o then 1 else 0)
    (hframe : ∀ b f, b ≠ a → alive m.entries b = some f → (data f.data).fields = (m.data f.data).fields)
    (hnew : ∀ f, o = some f → Fits version data next f) :
    Sound version ⟨data, next, m.entries.set a o⟩ ∧
      view ⟨data, next, m.entries.set a o⟩ = m.view.set a (o.map (record data)) := by
  refine ⟨⟨?_, ?_⟩, ?_⟩
  · intro b f hf
    rcases alive_of_alive_set hf with ⟨rfl, ho⟩ | ⟨hb, hf⟩
    · exact hnew f ho
    · exact (h.fits b f hf).of_fields hnext (hframe b f hb hf)
  · intro p hp
    have hset := owners_set (o := o) (p := p) data next he
    have hcount := hcount p hp
    have hcast : ∀ c : Bool, ((if c then 1 else 0 : Nat) : Int) = if c then 1 else 0 := by
      intro c
      cases c <;> rfl
    have hset' := congrArg (Nat.cast : Nat → Int) hset
    rw [Nat.cast_add, Nat.cast_add, hcast, hcast] at hset'
    change (data p).refCount = _
    omega
  · change (m.entries.set a o).map (Option.map (record data)) = _
    rw [List.map_set]
    refine List.ext_getElem? fun b => ?_
    by_cases hb : b = a
    · subst hb
      have hlt := lt_of_alive he
      rw [List.getElem?_set_self (by rw [List.length_map]; exact hlt),
        List.getElem?_set_self (by rw [view, List.length_map]; exact hlt)]
    · rw [List.getElem?_set_ne (Ne.symm hb), List.getElem?_set_ne (Ne.symm hb), view, List.getElem?_map,
        List.getElem?_map]
      cases hget : m.entries[b]? with
      | none => rfl
      | some o' =>
        cases o' with
        | none => rfl
        | some f =>
          have hfields := hframe b f hb (Option.join_eq_some_iff.mpr hget)
          change some (some (Record.mk f.attributes (data f.data).fields)) = some (some (Record.mk _ _))
          rw [hfields]

theorem alive_view (m : Memory) (a : Nat) : alive m.view a = (alive m.entries a).map (record m.data) := alive_map _

theorem Sound.owners_eq_zero (h : Sound version m) {p : Nat} (hp : m.next ≤ p) : m.owners p = 0 :=
  owners_of_notMem fun b f hf => Nat.ne_of_lt ((h.fits b f hf).allocated.trans_le hp)

theorem owners_pos (he : alive m.entries a = some e) : 0 < m.owners e.data :=
  List.countP_pos_iff.mpr ⟨some e, mem_of_alive he, pointsTo_some.mpr rfl⟩

theorem set_of_alive {α : Type} {l : List (Option α)} {x : α} (h : alive l a = some x) : l.set a (some x) = l := by
  rw [← getElem_of_alive h (lt_of_alive h), List.set_getElem_self]

theorem Sound.checkRef (h : Sound version m) (a : Nat) :
    Sound version (m.checkRef a) ∧ (m.checkRef a).view = m.view ∧
      ∀ e, alive (m.checkRef a).entries a = some e → (m.checkRef a).owners e.data ≤ 1 := by
  rw [Memory.checkRef]
  cases he : alive m.entries a with
  | none => exact ⟨h, rfl, fun e he' => absurd (he.symm.trans he') (by rintro ⟨⟩)⟩
  | some e =>
    have hfits := h.fits a e he
    have hcount := h.counted e.data hfits.allocated
    have hfresh : m.next ≠ e.data := Nat.ne_of_gt hfits.allocated
    simp only
    split
    next hshared =>
      have hput := h.put he
        (addRef (Function.update m.data m.next { refCount := 1, fields := (m.data e.data).fields }) e.data (-1))
        (some { e with data := m.next }) (Nat.le_add_right _ 1) ?_ ?_ ?_
      · refine ⟨hput.1, ?_, ?_⟩
        · rw [hput.2]
          apply set_of_alive
          rw [alive_view, he, Option.map_some, record, record, addRef_fields, Function.update_self]
        · intro e' he'
          rw [alive_set_self he] at he'
          cases he'
          have hnew := hput.1.counted m.next (Nat.lt_succ_self _)
          rw [addRef_refCount, Function.update_self, if_neg (Ne.symm hfresh)] at hnew
          change (1 : Int) + 0 = (owners _ m.next : Nat) at hnew
          change owners _ m.next ≤ 1
          omega
      · intro p hp
        simp only [addRef_refCount, pointsTo_some]
        by_cases hnew : p = m.next
        · subst hnew
          rw [Function.update_self, h.owners_eq_zero le_rfl, if_neg (Ne.symm hfresh), if_neg (Ne.symm hfresh),
            if_pos rfl]
          rfl
        · have hlt : p < m.next := by omega
          rw [Function.update_of_ne hnew, h.counted p hlt, if_neg (Ne.symm hnew)]
          split
          · omega
          · rfl
      · intro b f hb hf
        rw [addRef_fields, Function.update_of_ne (Nat.ne_of_lt (h.fits b f hf).allocated)]
      · rintro f ⟨⟩
        have hfields : (addRef (Function.update m.data m.next
            { refCount := 1, fields := (m.data e.data).fields }) e.data (-1) m.next).fields
            = (m.data e.data).fields := by
          rw [addRef_fields, Function.update_self]
        refine ⟨Nat.lt_succ_self _, ?_, ?_⟩
        · change e.capacity = _
          rw [hfields, hfits.capacity]
        · change e.capacityOfHashField = _
          rw [hfields, hfits.capacityOfHashField]
    next hone =>
      refine ⟨h, rfl, ?_⟩
      intro e' he'
      cases he.symm.trans he'
      omega

theorem Sound.writeField (h : Sound version m) (key value : Bytes)
    (hone : ∀ e, alive m.entries a = some e → m.owners e.data ≤ 1) :
    Sound version (m.writeField version a key value) ∧
      (m.writeField version a key value).view = change m.view a fun r => some (r.setField key value) := by
  rw [Memory.writeField, change, alive_view]
  cases he : alive m.entries a with
  | none => exact ⟨h, rfl⟩
  | some e =>
    have hfits := h.fits a e he
    simp only [Option.map_some]
    have hput := h.put he
      (Function.update m.data e.data { m.data e.data with fields := (m.data e.data).fields.insert key value })
      (some
        { e with
          attributes := { e.attributes with dirty := true }
          capacity := e.capacity + updatedCapacity (m.data e.data).fields key value
          capacityOfHashField :=
            if isHashField version key then
              e.capacityOfHashField + updatedCapacity (m.data e.data).fields key value
            else e.capacityOfHashField })
      le_rfl ?_ ?_ ?_
    · refine ⟨hput.1, hput.2.trans ?_⟩
      rw [Option.map_some, record, Function.update_self]
      rfl
    · intro p hp
      simp only [pointsTo_some]
      rw [← h.counted p hp]
      by_cases hold : p = e.data
      · rw [hold, Function.update_self]
      · rw [Function.update_of_ne hold]
    · intro b f hb hf
      rw [Function.update_of_ne (ne_of_owners_le_one he (hone e he) hb hf)]
    · rintro f ⟨⟩
      have hfields := congrArg EntryData.fields (Function.update_self e.data
        { m.data e.data with fields := (m.data e.data).fields.insert key value } m.data)
      refine ⟨hfits.allocated, ?_, ?_⟩
      · rw [hfields, sizeOf_insert, if_pos rfl, ← hfits.capacity]
      · rw [hfields, sizeOf_insert, ← hfits.capacityOfHashField]
        change (if _ then _ else _) = _
        split
        · rfl
        · exact (Int.add_zero _).symm

theorem Sound.setField (h : Sound version m) (a : Nat) (key value : Bytes) :
    Sound version (m.setField version a key value) ∧
      (m.setField version a key value).view = change m.view a fun r => some (r.setField key value) := by
  obtain ⟨hsound, hview, hone⟩ := h.checkRef a
  have hwrite := hsound.writeField key value hone
  rw [hview] at hwrite
  exact hwrite

theorem Sound.setAttributes (h : Sound version m) (a : Nat) (g : Attributes → Attributes) :
    Sound version (m.setAttributes a g) ∧ (m.setAttributes a g).view = changeAttributes m.view a g := by
  rw [Memory.setAttributes, changeAttributes, change, change, alive_view]
  cases he : alive m.entries a with
  | none => exact ⟨h, rfl⟩
  | some e =>
    have hput := h.put he m.data (some { e with attributes := g e.attributes }) le_rfl ?_ ?_ ?_
    · exact hput
    · intro p hp
      simp only [pointsTo_some]
      rw [h.counted p hp]
    · exact fun _ _ _ _ => rfl
    · rintro f ⟨⟩
      have hfits := h.fits a e he
      exact ⟨hfits.allocated, hfits.capacity, hfits.capacityOfHashField⟩

theorem Sound.setStatus (h : Sound version m) (a : Nat) (status : Option Int) :
    Sound version (m.setStatus a status) ∧
      (m.setStatus a status).view = changeAttributes m.view a (·.setStatus status) := by
  obtain ⟨hsound, hview, -⟩ := h.checkRef a
  have hset := hsound.setAttributes a (·.setStatus status)
  rw [hview] at hset
  exact hset

theorem Sound.destroy (h : Sound version m) (a : Nat) :
    Sound version (m.destroy a) ∧ (m.destroy a).view = change m.view a fun _ => none := by
  rw [Memory.destroy, change, alive_view]
  cases he : alive m.entries a with
  | none => exact ⟨h, rfl⟩
  | some e =>
    have hpos : (m.data e.data).refCount > 0 := by
      have hcount := h.counted e.data (h.fits a e he).allocated
      have howners := owners_pos he
      omega
    simp only [if_pos hpos, Option.map_some]
    have hput := h.put he (addRef m.data e.data (-1)) none le_rfl ?_ ?_ ?_
    · exact hput
    · intro p hp
      simp only [addRef_refCount, pointsTo_some, pointsTo_none, Bool.false_eq_true, if_false]
      rw [h.counted p hp]
      split
      · omega
      · rfl
    · intro b f _ _
      exact addRef_fields _ _ _ _
    · rintro f ⟨⟩

theorem Sound.construct (h : Sound version m) :
    Sound version m.construct ∧ m.construct.view = m.view ++ [some ({} : Record)] := by
  have hne : ∀ {b f}, alive m.entries b = some f → f.data ≠ m.next := fun hf =>
    Nat.ne_of_lt (h.fits _ _ hf).allocated
  have hfields : (m.construct.data m.next).fields = .empty := by
    change (Function.update m.data m.next { refCount := 1 } m.next).fields = .empty
    rw [Function.update_self]
  have howners : ∀ p, m.construct.owners p = m.owners p + if m.next = p then 1 else 0 := by
    intro p
    change (m.entries ++ [some ({ data := m.next } : Entry)]).countP (pointsTo p) = _
    rw [List.countP_append, List.countP_singleton]
    simp only [pointsTo_some]
    rfl
  refine ⟨⟨?_, ?_⟩, ?_⟩
  · intro b f hf
    rcases alive_of_alive_append hf with hf | hf
    · cases hf
      refine ⟨Nat.lt_succ_self _, ?_, ?_⟩
      · rw [hfields]
        rfl
      · rw [hfields]
        rfl
    · refine (h.fits b f hf).of_fields (Nat.le_succ _) ?_
      change (Function.update m.data m.next { refCount := 1 } f.data).fields = _
      rw [Function.update_of_ne (hne hf)]
  · intro p hp
    rw [howners]
    change (Function.update m.data m.next { refCount := 1 } p).refCount = _
    by_cases hnew : p = m.next
    · rw [hnew, Function.update_self, h.owners_eq_zero le_rfl, if_pos rfl]
      rfl
    · have hlt : p < m.next := by
        change p < m.next + 1 at hp
        omega
      rw [Function.update_of_ne hnew, if_neg (Ne.symm hnew), h.counted p hlt, Nat.add_zero]
  · change (m.entries ++ [some ({ data := m.next } : Entry)]).map (Option.map (record m.construct.data)) = _
    rw [List.map_append]
    congr 1
    · refine List.map_congr_left fun o ho => ?_
      cases o with
      | none => rfl
      | some f =>
        obtain ⟨b, hb, hget⟩ := List.mem_iff_getElem.mp ho
        have hf : alive m.entries b = some f := by
          rw [alive, List.getElem?_eq_getElem hb, hget]
          rfl
        rw [Option.map_some, Option.map_some, record, record]
        change some (Record.mk _ (Function.update m.data m.next { refCount := 1 } f.data).fields) = _
        rw [Function.update_of_ne (hne hf)]
    · rw [List.map_singleton, Option.map_some, record, hfields]

end calls

/-- Where an entry copies from one that shares its fields, the two agree in
    their attributes. -/
def Call.Ok (m : Memory) : Call → Prop
  | .copyFrom a b => ∀ e f, alive m.entries a = some e → alive m.entries b = some f →
      e.data = f.data → e.attributes = f.attributes
  | _ => True

section calls

open Memory

variable {version : Nat} {m : Memory} {a b : Nat} {e f : Entry}

theorem Sound.copyFrom (h : Sound version m) (a b : Nat) :
    Sound version (m.copyFrom a b) ∧
      ((m.copyFrom a b).view = stepRecords m.view (.copyFrom a b) ↔ (Call.copyFrom a b).Ok m) := by
  rw [Memory.copyFrom, stepRecords, Call.Ok, alive_view]
  cases he : alive m.entries a with
  | none =>
    refine ⟨h, iff_of_true ?_ (by rintro _ _ ⟨⟩)⟩
    cases hf : alive m.entries b with
    | none => rfl
    | some f => exact (change_of_none (by rw [alive_view, he, Option.map_none]) _).symm
  | some e =>
    cases hf : alive m.entries b with
    | none => exact ⟨h, iff_of_true rfl (by rintro _ _ _ ⟨⟩)⟩
    | some f =>
      have hview : alive m.view a = some (record m.data e) := by rw [alive_view, he, Option.map_some]
      simp only [Option.map_some]
      rw [change_of_alive hview]
      split
      next hshared =>
        refine ⟨h, ?_⟩
        constructor
        · intro hsame e' f' he' hf' _
          cases he'
          cases hf'
          have hset : alive (m.view.set a (some (record m.data f))) a = some (record m.data f) :=
            alive_set_self hview
          rw [← hsame, hview] at hset
          exact congrArg Record.attributes (Option.some.inj hset)
        · intro hok
          have hrecord : record m.data f = record m.data e := by
            rw [record, record, hok e f rfl rfl hshared, hshared]
          rw [hrecord, set_of_alive hview]
      next hapart =>
        have hput := h.put he (addRef (addRef m.data e.data (-1)) f.data 1)
          (some
            { attributes := f.attributes
              capacity := f.capacity
              capacityOfHashField := f.capacityOfHashField
              data := f.data })
          le_rfl ?_ ?_ ?_
        · refine ⟨hput.1, iff_of_true (hput.2.trans ?_) ?_⟩
          · rw [Option.map_some, record, record, addRef_fields, addRef_fields]
          · intro e' f' he' hf' hsame
            cases he'
            cases hf'
            exact absurd hsame hapart
        · intro p hp
          simp only [addRef_refCount, pointsTo_some]
          rw [h.counted p hp]
          split
          · omega
          · omega
        · intro c g _ _
          rw [addRef_fields, addRef_fields]
        · rintro g ⟨⟩
          have hfits := h.fits b f hf
          refine ⟨hfits.allocated, ?_, ?_⟩
          · rw [addRef_fields, addRef_fields, ← hfits.capacity]
          · rw [addRef_fields, addRef_fields, ← hfits.capacityOfHashField]

/-- **Step lemma.**  Every call keeps the memory sound, and does to the entries
    what it does to independent records exactly when it is `Ok`. -/
theorem Sound.step (h : Sound version m) (call : Call) :
    Sound version (m.step version call) ∧
      ((m.step version call).view = stepRecords m.view call ↔ call.Ok m) := by
  have hother : ∀ {m' : Memory} {records : List (Option Record)}, Sound version m' ∧ m'.view = records →
      Sound version m' ∧ (m'.view = records ↔ True) := fun hcall => ⟨hcall.1, iff_true_intro hcall.2⟩
  cases call with
  | construct => exact hother h.construct
  | destroy a => exact hother (h.destroy a)
  | copyFrom a b => exact h.copyFrom a b
  | setField a key value => exact hother (h.setField a key value)
  | setID a id => exact hother (h.setAttributes a (·.setID id))
  | setStatus a status => exact hother (h.setStatus a status)
  | setNum a num => exact hother (h.setAttributes a (·.setNum num))
  | setTempIndex a index => exact hother (h.setAttributes a (·.setTempIndex index))
  | setDirty a dirty => exact hother (h.setAttributes a (·.setDirty dirty))
  | setForce a force => exact hother (h.setAttributes a (·.setForce force))
  | setDeleted a deleted => exact hother (h.setAttributes a (·.setDeleted deleted))

end calls

/-! ### Runs -/

/-- The entries in memory, and the independent records that they stand for. -/
structure State where
  memory : Memory := {}
  records : List (Option Record) := []

def calls (version : Nat) : Machine State Call where
  step s call := { memory := s.memory.step version call, records := stepRecords s.records call }

/-- The getters return what the records hold, `refCount()` is the number of live
    entries that share the fields, and the sizes are those of the fields. -/
structure State.Right (version : Nat) (s : State) : Prop where
  records : s.memory.view = s.records
  refCount : ∀ a e, alive s.memory.entries a = some e →
    (s.memory.data e.data).refCount = s.memory.owners e.data
  capacity : ∀ a e, alive s.memory.entries a = some e →
    e.capacity = sizeOf (fun _ => true) (s.memory.data e.data).fields
  capacityOfHashField : ∀ a e, alive s.memory.entries a = some e →
    e.capacityOfHashField = sizeOf (isHashField version) (s.memory.data e.data).fields

theorem right_iff {version : Nat} {s : State} (h : Sound version s.memory) :
    s.Right version ↔ s.memory.view = s.records := by
  constructor
  · exact State.Right.records
  · intro hrecords
    exact
      { records := hrecords
        refCount := fun a e he => h.counted e.data (h.fits a e he).allocated
        capacity := fun a e he => (h.fits a e he).capacity
        capacityOfHashField := fun a e he => (h.fits a e he).capacityOfHashField }

theorem sound_start (version : Nat) : Sound version {} where
  fits := by
    intro a e he
    cases he
  counted := by
    intro p hp
    cases hp

/-- Entries behave as independent records all along a run exactly when no entry
    copies from one that shares its fields and differs in an attribute. -/
theorem independent_iff (version : Nat) (is : List Call) :
    (∀ n, ((calls version).run {} (is.take n)).Right version) ↔
      (calls version).RunOk (fun s call => call.Ok s.memory) {} is := by
  have hstart : State.Right version {} := (right_iff (sound_start version)).mpr rfl
  have hinv : ∀ (s : State) (call : Call), Sound version s.memory →
      Sound version ((calls version).step s call).memory := fun s call h => (h.step call).1
  refine (calls version).forall_take_iff hinv ?_ is (sound_start version) hstart
  intro s call h hright
  have hstep := h.step call
  refine (right_iff (s := (calls version).step s call) hstep.1).trans ?_
  rw [← hstep.2]
  change _ = stepRecords s.records call ↔ _
  rw [← hright.records]
  rfl

/-- A second copy between two entries that still share their fields does not
    copy the identifier that was set in between. -/
theorem second_copy_leaves_id :
    ¬((calls V2_5_0).run {}
      [.construct, .construct, .copyFrom 0 1, .setID 1 (some 5), .copyFrom 0 1]).Right V2_5_0 := by
  intro h
  have hid := congrArg (fun l => (alive l 0).map fun r => r.attributes.ID) h.records
  exact absurd hid (by decide)

end HieraChain.EntrySharing
