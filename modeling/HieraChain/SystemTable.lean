/-
  HieraChain/SystemTable.lean
  ===========================
  **A system table while a block is executed, row by row.**

  The precompiled contracts read and write their tables through `select`,
  `insert`, `update` and `remove`.  A cell is a row as it is now beside the row
  that the storage has; at the end of the block the rows that are left become
  the storage's.  From version 2.5.0 on the condition of a call is tested on the
  rows as they are, and everything is said of `rows` alone.  Before 2.5.0 it is
  tested on the storage's rows, so that a row which an earlier call of the block
  changed or removed still answers with its old fields (`MemoryTable2`,
  `selectBackend`).

  Rows are of any type.  The rows of a select come in the order of the table.
-/
import HieraChain.MemoryTable2

namespace HieraChain.Storage

/-- `committed` is `none` for a row inserted in this block. -/
structure Cell (R : Type) where
  committed : Option R
  row : R
  live : Bool := true

structure SystemTable (R : Type) where
  cells : List (Cell R)

variable {R : Type}

/-- Does a call with the condition `p` reach the cell? -/
def Cell.selected (version : Nat) (p : R → Bool) (c : Cell R) : Bool :=
  if V2_5_0 ≤ version then c.live && p c.row
  else
    match c.committed with
    | some stored => p stored
    | none => c.live && p c.row

namespace SystemTable

variable (version : Nat)

/-! ### Calls -/

def select (t : SystemTable R) (p : R → Bool) : List R :=
  (t.cells.filter (Cell.selected version p)).map Cell.row

def insert (t : SystemTable R) (r : R) : SystemTable R := ⟨t.cells ++ [{ committed := none, row := r }]⟩

def update (t : SystemTable R) (p : R → Bool) (f : R → R) : SystemTable R :=
  ⟨t.cells.map fun c => if c.selected version p then { c with row := f c.row } else c⟩

def remove (t : SystemTable R) (p : R → Bool) : SystemTable R :=
  ⟨t.cells.map fun c => if c.selected version p then { c with live := false } else c⟩

def commit (t : SystemTable R) : SystemTable R :=
  ⟨(t.cells.filter Cell.live).map fun c => { committed := some c.row, row := c.row }⟩

def ofRows (rows : List R) : SystemTable R := ⟨rows.map fun r => { committed := some r, row := r }⟩

/-! ### Rows -/

def rows (t : SystemTable R) : List R := (t.cells.filter Cell.live).map Cell.row

@[simp] theorem rows_insert (t : SystemTable R) (r : R) : (t.insert r).rows = t.rows ++ [r] := by
  simp [rows, insert]

@[simp] theorem rows_commit (t : SystemTable R) : t.commit.rows = t.rows := by
  obtain ⟨cells⟩ := t
  induction cells with
  | nil => rfl
  | cons c cells ih =>
    simp only [rows, commit] at ih ⊢
    cases hlive : c.live <;> simp [hlive, ih]

@[simp] theorem rows_ofRows (l : List R) : (ofRows l).rows = l := by
  simp only [rows, ofRows]
  induction l with
  | nil => rfl
  | cons r l ih => simpa using ih

section Released

variable {version} (hversion : V2_5_0 ≤ version)
include hversion

theorem selected_eq (p : R → Bool) (c : Cell R) : c.selected version p = (c.live && p c.row) :=
  if_pos hversion

theorem select_eq (t : SystemTable R) (p : R → Bool) : t.select version p = t.rows.filter p := by
  obtain ⟨cells⟩ := t
  induction cells with
  | nil => rfl
  | cons c cells ih =>
    simp only [select, rows] at ih ⊢
    cases hlive : c.live <;> cases hp : p c.row <;>
      simp [selected_eq hversion, hlive, hp, ih]

theorem rows_update (t : SystemTable R) (p : R → Bool) (f : R → R) :
    (t.update version p f).rows = t.rows.map fun r => if p r then f r else r := by
  obtain ⟨cells⟩ := t
  induction cells with
  | nil => rfl
  | cons c cells ih =>
    simp only [update, rows, selected_eq hversion] at ih ⊢
    cases hlive : c.live <;> cases hp : p c.row <;> simpa [hlive, hp] using ih

theorem rows_remove (t : SystemTable R) (p : R → Bool) :
    (t.remove version p).rows = t.rows.filter fun r => !p r := by
  obtain ⟨cells⟩ := t
  induction cells with
  | nil => rfl
  | cons c cells ih =>
    simp only [remove, rows, selected_eq hversion] at ih ⊢
    cases hlive : c.live <;> cases hp : p c.row <;> simpa [hlive, hp] using ih

end Released

end SystemTable

/-! ### Rows with distinct keys -/

section Keys

variable {K : Type} {key : R → K} {l : List R}

theorem eq_of_key_eq (hdistinct : (l.map key).Nodup) {a b : R} (ha : a ∈ l) (hb : b ∈ l)
    (h : key a = key b) : a = b :=
  List.inj_on_of_nodup_map hdistinct ha hb h

theorem filter_eq_singleton {p : R → Bool} {a : R} (hdistinct : (l.map key).Nodup) (ha : a ∈ l)
    (hp : p a = true) (hall : ∀ b ∈ l, p b = true → key b = key a) : l.filter p = [a] := by
  have hnodup : (l.filter p).Nodup := (List.Nodup.of_map key hdistinct).filter p
  have hmem : ∀ b, b ∈ l.filter p ↔ b ∈ [a] := by
    intro b
    rw [List.mem_filter, List.mem_singleton]
    constructor
    · rintro ⟨hb, hpb⟩
      exact eq_of_key_eq hdistinct hb ha (hall b hb hpb)
    · rintro rfl
      exact ⟨ha, hp⟩
  exact List.perm_singleton.mp ((List.perm_ext_iff_of_nodup hnodup (List.nodup_singleton a)).mpr hmem)

theorem countP_mem_keys [DecidableEq K] {keys : List K} (hdistinct : (l.map key).Nodup)
    (hkeys : keys.Nodup) (hsub : ∀ k ∈ keys, k ∈ l.map key) :
    l.countP (fun r => decide (key r ∈ keys)) = keys.length := by
  have hperm : ((l.map key).filter fun k => decide (k ∈ keys)).Perm keys := by
    refine (List.perm_ext_iff_of_nodup (hdistinct.filter _) hkeys).mpr fun k => ?_
    rw [List.mem_filter, decide_eq_true_iff]
    exact ⟨fun h => h.2, fun h => ⟨hsub k h, h⟩⟩
  rw [← hperm.length_eq, ← List.countP_eq_length_filter, List.countP_map]
  rfl

end Keys

theorem countP_add_congr {l : List R} {p q p' q' : R → Bool}
    (h : ∀ r ∈ l, (p r).toNat + (q r).toNat = (p' r).toNat + (q' r).toNat) :
    l.countP p + l.countP q = l.countP p' + l.countP q' := by
  induction l with
  | nil => rfl
  | cons r l ih =>
    have hhead := h r List.mem_cons_self
    have htail := ih fun r' hr' => h r' (List.mem_cons_of_mem r hr')
    have hcons : ∀ p : R → Bool, (r :: l).countP p = l.countP p + (p r).toNat := by
      intro p
      rw [List.countP_cons]
      cases p r <;> rfl
    rw [hcons p, hcons q, hcons p', hcons q']
    omega

end HieraChain.Storage
