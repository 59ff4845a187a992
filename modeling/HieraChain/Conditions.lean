/-
  HieraChain/Conditions.lean
  ==========================
  **What a condition asks for** (`Condition` of `libstorage/Table.cpp`).

  A condition is made by calls of `EQ`, `NE`, `GT`, `GE`, `LT` and `LE`.  A call
  replaces what was asked of the field before: `EQ` and `NE` all of it, a bound
  the bound on its side.  What is left to ask is `effective`; `process` tests it
  (`process_ask_iff`) when the calls on each field are `Clear`.  They are not
  clear when a bound follows an `EQ` or `NE`, and when the two bounds name one
  value, which the two kinds of ranges cannot tell from an `EQ` or `NE`.
-/
import Mathlib.Data.List.Induction
import HieraChain.Table

namespace HieraChain.Storage

open HieraChain.BigEndian

inductive Op
  | EQ
  | NE
  | GT
  | GE
  | LT
  | LE
  deriving DecidableEq, Repr

structure Ask where
  op : Op
  field : Bytes
  value : Bytes
  deriving DecidableEq, Repr

namespace Op

def exact : Op → Bool
  | .EQ | .NE => true
  | _ => false

def lower : Op → Bool
  | .GT | .GE => true
  | _ => false

def upper : Op → Bool
  | .LT | .LE => true
  | _ => false

/-- The value of a field against the value of the call: texts for `EQ` and `NE`,
    numbers for bounds. -/
def test (op : Op) (asked value : Bytes) : Bool :=
  match op with
  | .EQ => decide (asked = value)
  | .NE => decide (asked ≠ value)
  | op =>
    match lexicalCast asked, fieldNumber value with
    | some lhs, some rhs =>
      match op with
      | .GT => decide (lhs < rhs)
      | .GE => decide (lhs ≤ rhs)
      | .LT => decide (lhs > rhs)
      | _ => decide (lhs ≥ rhs)
    | _, _ => false

end Op

/-! ### Making a condition -/

def Condition.add (c : Condition) (a : Ask) : Condition :=
  match a.op with
  | .EQ => c.EQ a.field a.value
  | .NE => c.NE a.field a.value
  | .GT => c.GT a.field a.value
  | .GE => c.GE a.field a.value
  | .LT => c.LT a.field a.value
  | .LE => c.LE a.field a.value

def Condition.ask (c : Condition) (asks : List Ask) : Condition := asks.foldl Condition.add c

def Range.add (old : Option Range) (a : Ask) : Range :=
  match a.op with
  | .EQ => ⟨(true, a.value), (true, a.value)⟩
  | .NE => ⟨(false, a.value), (false, a.value)⟩
  | .GT => ⟨(false, a.value), (old.map Range.right).getD (false, UNLIMITED)⟩
  | .GE => ⟨(true, a.value), (old.map Range.right).getD (false, UNLIMITED)⟩
  | .LT => ⟨(old.map Range.left).getD (false, UNLIMITED), (false, a.value)⟩
  | .LE => ⟨(old.map Range.left).getD (false, UNLIMITED), (true, a.value)⟩

def asksOn (asks : List Ask) (field : Bytes) : List Ask := asks.filter fun a => decide (a.field = field)

def rangeOf (old : Option Range) (asks : List Ask) : Option Range :=
  asks.foldl (fun r a => some (Range.add r a)) old

theorem find?_add (c : Condition) (a : Ask) (field : Bytes) :
    (c.add a).conditions.find? field
      = if field = a.field then some (Range.add (c.conditions.find? field) a)
        else c.conditions.find? field := by
  rw [Condition.add]
  cases hop : a.op <;>
    simp only [Condition.EQ, Condition.NE, Condition.GT, Condition.GE, Condition.LT, Condition.LE,
      Condition.lower, Condition.upper, SortedMap.find?_insert, Range.add, hop] <;>
    split <;> simp_all

theorem find?_ask (c : Condition) (asks : List Ask) (field : Bytes) :
    (c.ask asks).conditions.find? field = rangeOf (c.conditions.find? field) (asksOn asks field) := by
  induction asks generalizing c with
  | nil => rfl
  | cons a asks ih =>
    have hrest := ih (c.add a)
    rw [find?_add] at hrest
    refine hrest.trans ?_
    by_cases hfield : field = a.field
    · rw [if_pos hfield, asksOn, asksOn, List.filter_cons_of_pos (by simp [hfield])]
      rfl
    · rw [if_neg hfield, asksOn, asksOn, List.filter_cons_of_neg (by simp [Ne.symm hfield])]

/-! ### The meaning of the calls -/

def lastLower (asks : List Ask) : Option Ask := (asks.filter fun a => a.op.lower).getLast?

def lastUpper (asks : List Ask) : Option Ask := (asks.filter fun a => a.op.upper).getLast?

def effective (asks : List Ask) : List Ask :=
  match asks.getLast? with
  | none => []
  | some a => if a.op.exact then [a] else (lastLower asks).toList ++ (lastUpper asks).toList

/-- The calls on one field end with an exact one, or are bounds, the last two of
    which have different values. -/
def ClearOn (asks : List Ask) : Prop :=
  (∃ a, asks.getLast? = some a ∧ a.op.exact = true)
    ∨ (∀ a ∈ asks, a.op.exact = false ∧ a.value ≠ UNLIMITED)
      ∧ ∀ l u, lastLower asks = some l → lastUpper asks = some u → l.value ≠ u.value

def Clear (asks : List Ask) : Prop := ∀ field, ClearOn (asksOn asks field)

def Meets (e : Entry) (field : Bytes) (asks : List Ask) : Prop :=
  ∃ value, e.fields.find? field = some value ∧ ∀ a ∈ effective asks, a.op.test a.value value = true

/-- The entry is live, has the key, and meets what is asked of the other fields
    that count for the hash. -/
structure Satisfies (info : TableInfo) (key : Bytes) (asks : List Ask) (e : Entry) : Prop where
  live : e.live = true
  key : e.fields.find? info.key = some key
  fields : ∀ field, isHashField field = true → field ≠ info.key → asksOn asks field ≠ [] →
    Meets e field (asksOn asks field)

/-! ### Ranges and calls -/

def boundOf : Option Ask → Bool × Bytes
  | none => (false, UNLIMITED)
  | some a => (decide (a.op = .GE ∨ a.op = .LE), a.value)

theorem rangeOf_concat (old : Option Range) (asks : List Ask) (a : Ask) :
    rangeOf old (asks ++ [a]) = some (Range.add (rangeOf old asks) a) := by
  rw [rangeOf, rangeOf, List.foldl_append]
  rfl

theorem filter_concat_getLast? {p : Ask → Bool} (asks : List Ask) (a : Ask) :
    ((asks ++ [a]).filter p).getLast? = if p a then some a else (asks.filter p).getLast? := by
  rw [List.filter_append]
  cases hp : p a with
  | true => simp [hp]
  | false => simp [hp]

theorem rangeOf_bounds {asks : List Ask} (hbounds : ∀ a ∈ asks, a.op.exact = false) :
    (rangeOf none asks).getD ⟨(false, UNLIMITED), (false, UNLIMITED)⟩
      = ⟨boundOf (lastLower asks), boundOf (lastUpper asks)⟩ := by
  induction asks using List.reverseRecOn with
  | nil => rfl
  | append_singleton asks a ih =>
    have hih := ih fun a' ha' => hbounds a' (List.mem_append_left _ ha')
    have ha := hbounds a (by simp)
    have hleft : ((rangeOf none asks).map Range.left).getD (false, UNLIMITED) = boundOf (lastLower asks) := by
      have h := congrArg Range.left hih
      cases hr : rangeOf none asks with
      | none => rw [hr] at h; exact h
      | some r => rw [hr] at h; exact h
    have hright : ((rangeOf none asks).map Range.right).getD (false, UNLIMITED) = boundOf (lastUpper asks) := by
      have h := congrArg Range.right hih
      cases hr : rangeOf none asks with
      | none => rw [hr] at h; exact h
      | some r => rw [hr] at h; exact h
    rw [rangeOf_concat, Option.getD_some, lastLower, lastUpper, filter_concat_getLast?,
      filter_concat_getLast?, ← lastLower, ← lastUpper]
    cases hop : a.op with
    | EQ => rw [hop] at ha; cases ha
    | NE => rw [hop] at ha; cases ha
    | GT => simp [Range.add, hop, Op.lower, Op.upper, boundOf, hright]
    | GE => simp [Range.add, hop, Op.lower, Op.upper, boundOf, hright]
    | LT => simp [Range.add, hop, Op.lower, Op.upper, boundOf, hleft]
    | LE => simp [Range.add, hop, Op.lower, Op.upper, boundOf, hleft]

def aboveLeft (left : Bool × Bytes) (value : Bytes) : Bool :=
  if left.2 = UNLIMITED then true
  else match lexicalCast left.2, fieldNumber value with
    | some lhs, some rhs => if left.1 then decide (lhs ≤ rhs) else decide (lhs < rhs)
    | _, _ => false

def belowRight (right : Bool × Bytes) (value : Bytes) : Bool :=
  if right.2 = UNLIMITED then true
  else match lexicalCast right.2, fieldNumber value with
    | some lhs, some rhs => if right.1 then decide (lhs ≥ rhs) else decide (lhs > rhs)
    | _, _ => false

theorem aboveLeft_boundOf {a : Ask} (hlower : a.op.lower = true) (hvalue : a.value ≠ UNLIMITED)
    (value : Bytes) : aboveLeft (boundOf (some a)) value = a.op.test a.value value := by
  rw [aboveLeft, boundOf, if_neg hvalue]
  cases hop : a.op with
  | GT => rfl
  | GE => rfl
  | EQ => rw [hop] at hlower; cases hlower
  | NE => rw [hop] at hlower; cases hlower
  | LT => rw [hop] at hlower; cases hlower
  | LE => rw [hop] at hlower; cases hlower

theorem belowRight_boundOf {a : Ask} (hupper : a.op.upper = true) (hvalue : a.value ≠ UNLIMITED)
    (value : Bytes) : belowRight (boundOf (some a)) value = a.op.test a.value value := by
  rw [belowRight, boundOf, if_neg hvalue]
  cases hop : a.op with
  | LT => rfl
  | LE => rfl
  | EQ => rw [hop] at hupper; cases hupper
  | NE => rw [hop] at hupper; cases hupper
  | GT => rw [hop] at hupper; cases hupper
  | GE => rw [hop] at hupper; cases hupper

theorem process_of_ne {version : Nat} {r : Range} (hne : r.left.2 ≠ r.right.2) (value : Bytes) :
    r.process version value = (aboveLeft r.left value && belowRight r.right value) := by
  rw [Range.process, if_neg (fun h => hne h.1), if_neg (fun h => hne h.2.1)]
  rfl

theorem mem_of_lastLower {asks : List Ask} {a : Ask} (h : lastLower asks = some a) :
    a ∈ asks ∧ a.op.lower = true :=
  List.mem_filter.mp (List.mem_of_getLast? h)

theorem mem_of_lastUpper {asks : List Ask} {a : Ask} (h : lastUpper asks = some a) :
    a ∈ asks ∧ a.op.upper = true :=
  List.mem_filter.mp (List.mem_of_getLast? h)

theorem lastLower_or_lastUpper {asks : List Ask} (hne : asks ≠ [])
    (hbounds : ∀ a ∈ asks, a.op.exact = false) :
    (∃ l, lastLower asks = some l) ∨ ∃ u, lastUpper asks = some u := by
  obtain ⟨a, ha⟩ := List.exists_mem_of_ne_nil asks hne
  have hop : a.op.lower = true ∨ a.op.upper = true := by
    have hexact := hbounds a ha
    cases hop : a.op with
    | EQ => rw [hop] at hexact; cases hexact
    | NE => rw [hop] at hexact; cases hexact
    | GT => exact Or.inl rfl
    | GE => exact Or.inl rfl
    | LT => exact Or.inr rfl
    | LE => exact Or.inr rfl
  rcases hop with hlower | hupper
  · left
    have hmem : a ∈ asks.filter fun a => a.op.lower := List.mem_filter.mpr ⟨ha, hlower⟩
    exact Option.isSome_iff_exists.mp (List.getLast?_isSome.mpr (List.ne_nil_of_mem hmem))
  · right
    have hmem : a ∈ asks.filter fun a => a.op.upper := List.mem_filter.mpr ⟨ha, hupper⟩
    exact Option.isSome_iff_exists.mp (List.getLast?_isSome.mpr (List.ne_nil_of_mem hmem))

/-- **The range of clear calls tests what they ask for.** -/
theorem process_rangeOf {version : Nat} (hversion : V2_3_0 ≤ version) {asks : List Ask}
    (hclear : ClearOn asks) {r : Range} (hr : rangeOf none asks = some r) (value : Bytes) :
    r.process version value = true ↔ ∀ a ∈ effective asks, a.op.test a.value value = true := by
  rcases hclear with ⟨a, hlast, hexact⟩ | ⟨hbounds, hdiffer⟩
  · obtain ⟨pre, rfl⟩ := List.getLast?_eq_some_iff.mp hlast
    rw [rangeOf_concat] at hr
    cases hr
    have heffective : effective (pre ++ [a]) = [a] := by simp [effective, hexact]
    rw [heffective]
    simp only [List.mem_singleton, forall_eq]
    cases hop : a.op with
    | EQ => simp [Range.add, hop, Range.process, Op.test]
    | NE => simp [Range.add, hop, Range.process, Op.test, hversion]
    | GT => rw [hop] at hexact; cases hexact
    | GE => rw [hop] at hexact; cases hexact
    | LT => rw [hop] at hexact; cases hexact
    | LE => rw [hop] at hexact; cases hexact
  · have hne : asks ≠ [] := by
      rintro rfl
      cases hr
    have hrange := rangeOf_bounds fun a ha => (hbounds a ha).1
    rw [hr, Option.getD_some] at hrange
    have heffective : effective asks = (lastLower asks).toList ++ (lastUpper asks).toList := by
      rw [effective]
      cases hlast : asks.getLast? with
      | none => exact absurd (List.getLast?_eq_none_iff.mp hlast) hne
      | some a => simp [(hbounds a (List.mem_of_getLast? hlast)).1]
    have hsides : (boundOf (lastLower asks)).2 ≠ (boundOf (lastUpper asks)).2 := by
      cases hl : lastLower asks with
      | none =>
        cases hu : lastUpper asks with
        | none =>
          rcases lastLower_or_lastUpper hne fun a ha => (hbounds a ha).1 with ⟨l, h⟩ | ⟨u, h⟩
          · rw [hl] at h; cases h
          · rw [hu] at h; cases h
        | some u => exact fun h => (hbounds u (mem_of_lastUpper hu).1).2 h.symm
      | some l =>
        cases hu : lastUpper asks with
        | none => exact (hbounds l (mem_of_lastLower hl).1).2
        | some u => exact hdiffer l u hl hu
    have hleft : aboveLeft (boundOf (lastLower asks)) value = true
        ↔ ∀ a ∈ (lastLower asks).toList, a.op.test a.value value = true := by
      cases hl : lastLower asks with
      | none => simp [boundOf, aboveLeft]
      | some l =>
        obtain ⟨hmem, hlower⟩ := mem_of_lastLower hl
        rw [aboveLeft_boundOf hlower (hbounds l hmem).2]
        simp
    have hright : belowRight (boundOf (lastUpper asks)) value = true
        ↔ ∀ a ∈ (lastUpper asks).toList, a.op.test a.value value = true := by
      cases hu : lastUpper asks with
      | none => simp [boundOf, belowRight]
      | some u =>
        obtain ⟨hmem, hupper⟩ := mem_of_lastUpper hu
        rw [belowRight_boundOf hupper (hbounds u hmem).2]
        simp
    rw [hrange, process_of_ne hsides, Bool.and_eq_true, hleft, hright, heffective]
    simp only [List.mem_append, or_imp, forall_and]

/-! ### The test of an entry -/

theorem process_iff {version : Nat} {c : Condition} {e : Entry} :
    c.process version e = true ↔ e.live = true ∧ ∀ field r, c.conditions.find? field = some r →
      isHashField field = true → ∃ value, e.fields.find? field = some value ∧ r.process version value = true := by
  rw [Condition.process, Bool.and_eq_true, List.all_eq_true]
  apply and_congr_right
  intro _
  constructor
  · intro h field r hr hhash
    have hrange := h (field, r) (SortedMap.mem_entries_iff.mpr hr)
    simp only [hhash, Bool.not_true, Bool.false_or] at hrange
    cases hfind : e.fields.find? field with
    | none =>
      rw [hfind] at hrange
      cases hrange
    | some value =>
      rw [hfind] at hrange
      exact ⟨value, rfl, hrange⟩
  · rintro h ⟨field, r⟩ hmem
    cases hhash : isHashField field with
    | false => rfl
    | true =>
      obtain ⟨value, hfind, hprocess⟩ := h field r (SortedMap.mem_entries_iff.mp hmem) hhash
      simp only [hfind, hprocess, Bool.or_true]

/-- **A row of the key is selected when it satisfies what is asked.** -/
theorem process_ask_iff {version : Nat} (hversion : V2_3_0 ≤ version) {asks : List Ask}
    (hclear : Clear asks) {base : Condition} (hbase : base.conditions = SortedMap.empty)
    (info : TableInfo) (key : Bytes) (e : Entry) :
    e.fields.find? info.key = some key ∧ ((base.ask asks).EQ info.key key).process version e = true
      ↔ Satisfies info key asks e := by
  have hrange : ∀ field, field ≠ info.key →
      ((base.ask asks).EQ info.key key).conditions.find? field = rangeOf none (asksOn asks field) := by
    intro field hne
    have hfind := find?_ask base asks field
    rw [hbase, SortedMap.find?_empty] at hfind
    exact (SortedMap.find?_insert_of_ne _ _ hne).trans hfind
  rw [process_iff]
  constructor
  · rintro ⟨hkey, hlive, hfields⟩
    refine ⟨hlive, hkey, fun field hhash hne hasked => ?_⟩
    cases hr : rangeOf none (asksOn asks field) with
    | none =>
      rcases List.eq_nil_or_concat (asksOn asks field) with hnil | ⟨pre, a, hconcat⟩
      · exact absurd hnil hasked
      · rw [hconcat, List.concat_eq_append, rangeOf_concat] at hr
        cases hr
    | some r =>
      obtain ⟨value, hvalue, hprocess⟩ := hfields field r ((hrange field hne).trans hr) hhash
      exact ⟨value, hvalue, (process_rangeOf hversion (hclear field) hr value).mp hprocess⟩
  · intro h
    refine ⟨h.key, h.live, fun field r hr hhash => ?_⟩
    by_cases hfield : field = info.key
    · have hself : ((base.ask asks).EQ info.key key).conditions.find? info.key
          = some ⟨(true, key), (true, key)⟩ := SortedMap.find?_insert_self _ _ _
      rw [hfield, hself] at hr
      cases hr
      refine ⟨key, by rw [hfield]; exact h.key, ?_⟩
      simp [Range.process]
    · rw [hrange field hfield] at hr
      have hasked : asksOn asks field ≠ [] := by
        intro hnil
        rw [hnil] at hr
        cases hr
      obtain ⟨value, hvalue, htest⟩ := h.fields field hhash hfield hasked
      exact ⟨value, hvalue, (process_rangeOf hversion (hclear field) hr value).mpr htest⟩

end HieraChain.Storage
