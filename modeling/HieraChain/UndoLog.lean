/-
  HieraChain/UndoLog.lean
  =======================
  **Rows with an undo log.**

  Under every key stands a list of rows.  Rows are inserted and overwritten, and
  each change is logged: an insertion with the index of its row, an overwriting
  with the indices and old values of the rows it reaches.  Undoing an insertion
  marks its row and leaves it in place, so that the indices of older changes
  stay good.  A savepoint is the length of the log.

  What a rollback leaves is not the old rows but these with marked rows behind
  (`Behind`), and nobody sees the difference: `rollback_insert` and
  `rollback_update` let a change be forgotten by every earlier savepoint.
-/
import Mathlib.Logic.Function.Basic

namespace HieraChain.UndoLog

variable {κ ν : Type}

structure Row (ν : Type) where
  value : ν
  undone : Bool := false

inductive Change (κ ν : Type)
  | insert (key : κ) (index : Nat)
  | update (key : κ) (records : List (Nat × ν))

def Change.key : Change κ ν → κ
  | .insert key _ => key
  | .update key _ => key

structure Log (κ ν : Type) where
  rows : κ → List (Row ν)
  changes : List (Change κ ν) := []

def live (rows : List (Row ν)) : List ν := (rows.filter fun r => !r.undone).map Row.value

/-- The indices, from `start` on, and values of the rows that are not undone. -/
def records (start : Nat) : List (Row ν) → List (Nat × ν)
  | [] => []
  | r :: rows => if r.undone then records (start + 1) rows else (start, r.value) :: records (start + 1) rows

def Row.overwrite (value : ν) (r : Row ν) : Row ν := if r.undone then r else { r with value }

def restore (records : List (Nat × ν)) (rows : List (Row ν)) : List (Row ν) :=
  records.foldl (fun rows record => rows.modify record.1 fun r => { r with value := record.2 }) rows

def Change.undoRows (rows : List (Row ν)) : Change κ ν → List (Row ν)
  | .insert _ index => rows.modify index fun r => { r with undone := true }
  | .update _ records => restore records rows

section
variable [DecidableEq κ]

namespace Log

variable (s : Log κ ν)

def select (key : κ) : List ν := live (s.rows key)

def insert (key : κ) (value : ν) : Log κ ν where
  rows := Function.update s.rows key (s.rows key ++ [{ value }])
  changes := .insert key (s.rows key).length :: s.changes

def update (key : κ) (value : ν) : Log κ ν where
  rows := Function.update s.rows key ((s.rows key).map (Row.overwrite value))
  changes := .update key (records 0 (s.rows key)) :: s.changes

def savepoint : Nat := s.changes.length

end Log

def undo (rows : κ → List (Row ν)) (change : Change κ ν) : κ → List (Row ν) :=
  Function.update rows change.key (Change.undoRows (rows change.key) change)

def Log.rollback (s : Log κ ν) (savepoint : Nat) : Log κ ν where
  rows := (s.changes.take (s.changes.length - savepoint)).foldl undo s.rows
  changes := s.changes.drop (s.changes.length - savepoint)

/-! ### Selects -/

theorem live_append (a b : List (Row ν)) : live (a ++ b) = live a ++ live b := by
  rw [live, List.filter_append, List.map_append]
  rfl

theorem live_overwrite (value : ν) (rows : List (Row ν)) :
    live (rows.map (Row.overwrite value)) = (live rows).map fun _ => value := by
  induction rows with
  | nil => rfl
  | cons r rows ih =>
    simp only [live] at ih ⊢
    cases hundone : r.undone with
    | true => simpa [Row.overwrite, hundone] using ih
    | false => simpa [Row.overwrite, hundone] using ih

theorem Log.select_insert (s : Log κ ν) (key : κ) (value : ν) (key' : κ) :
    (s.insert key value).select key' = if key' = key then s.select key ++ [value] else s.select key' := by
  unfold Log.select Log.insert
  dsimp only
  split
  · next heq =>
    subst heq
    rw [Function.update_self, live_append]
    rfl
  · next hne => rw [Function.update_of_ne hne]

theorem Log.select_update (s : Log κ ν) (key : κ) (value : ν) (key' : κ) :
    (s.update key value).select key' = if key' = key then (s.select key).map fun _ => value else s.select key' := by
  unfold Log.select Log.update
  dsimp only
  split
  · next heq =>
    subst heq
    rw [Function.update_self, live_overwrite]
  · next hne => rw [Function.update_of_ne hne]

/-! ### Undoing one change -/

theorem modify_append_length {α : Type} (a : List α) (x : α) (b : List α) (f : α → α) :
    (a ++ x :: b).modify a.length f = a ++ f x :: b := by
  induction a with
  | nil => rfl
  | cons y a ih => exact congrArg (y :: ·) ih

theorem modify_append_of_lt {α : Type} {a b : List α} {i : Nat} (h : i < a.length) (f : α → α) :
    (a ++ b).modify i f = a.modify i f ++ b := by
  induction a generalizing i with
  | nil => cases h
  | cons y a ih =>
    cases i with
    | zero => rfl
    | succ i => exact congrArg (y :: ·) (ih (Nat.lt_of_succ_lt_succ h))

theorem restore_overwrite (value : ν) (before rows : List (Row ν)) :
    restore (records before.length rows) (before ++ rows.map (Row.overwrite value)) = before ++ rows := by
  induction rows generalizing before with
  | nil => rfl
  | cons r rows ih =>
    have hnext := ih (before ++ [r])
    rw [List.length_append, List.length_singleton, List.append_assoc, List.append_assoc, List.singleton_append,
      List.singleton_append] at hnext
    obtain ⟨old, undone⟩ := r
    rw [List.map_cons, records, Row.overwrite]
    cases undone with
    | true => exact hnext
    | false =>
      rw [if_neg Bool.false_ne_true, if_neg Bool.false_ne_true, restore, List.foldl_cons, modify_append_length]
      exact hnext

theorem undo_apply (rows : κ → List (Row ν)) (change : Change κ ν) (key : κ) :
    undo rows change key = if key = change.key then change.undoRows (rows key) else rows key := by
  unfold undo
  split
  · next heq => rw [heq, Function.update_self]
  · next hne => rw [Function.update_of_ne hne]

end

/-- The change speaks of the first `length` rows. -/
def Change.Within (length : Nat) : Change κ ν → Prop
  | .insert _ index => index < length
  | .update _ records => ∀ record ∈ records, record.1 < length

def Log.Within (s : Log κ ν) : Prop := ∀ change ∈ s.changes, change.Within (s.rows change.key).length

theorem Change.Within.mono {n m : Nat} {change : Change κ ν} (h : change.Within n) (hle : n ≤ m) : change.Within m := by
  cases change with
  | insert key index => exact Nat.lt_of_lt_of_le h hle
  | update key records => exact fun record hrecord => Nat.lt_of_lt_of_le (h record hrecord) hle

def Behind (rows rows' : κ → List (Row ν)) : Prop :=
  ∀ key, ∃ ghosts, (∀ g ∈ ghosts, Row.undone g = true) ∧ rows' key = rows key ++ ghosts

theorem Behind.live_eq {rows rows' : κ → List (Row ν)} (h : Behind rows rows') (key : κ) :
    live (rows' key) = live (rows key) := by
  obtain ⟨ghosts, hghosts, heq⟩ := h key
  have hnone : live ghosts = [] := by
    rw [live, List.map_eq_nil_iff, List.filter_eq_nil_iff]
    intro g hg
    rw [hghosts g hg]
    exact Bool.false_ne_true
  rw [heq, live_append, hnone, List.append_nil]

theorem length_restore (records : List (Nat × ν)) (rows : List (Row ν)) : (restore records rows).length = rows.length := by
  induction records generalizing rows with
  | nil => rfl
  | cons record records ih =>
    rw [restore, List.foldl_cons]
    exact (ih _).trans (List.length_modify ..)

theorem length_undoRows (rows : List (Row ν)) (change : Change κ ν) : (change.undoRows rows).length = rows.length := by
  cases change with
  | insert key index => exact List.length_modify ..
  | update key records => exact length_restore records rows

theorem restore_append {records : List (Nat × ν)} {rows ghosts : List (Row ν)}
    (h : ∀ record ∈ records, record.1 < rows.length) : restore records (rows ++ ghosts) = restore records rows ++ ghosts := by
  induction records generalizing rows with
  | nil => rfl
  | cons record records ih =>
    simp only [restore, List.foldl_cons]
    rw [modify_append_of_lt (h record List.mem_cons_self)]
    apply ih
    intro record' hrecord'
    rw [List.length_modify]
    exact h record' (List.mem_cons_of_mem _ hrecord')

theorem undoRows_append {rows ghosts : List (Row ν)} {change : Change κ ν} (h : change.Within rows.length) :
    change.undoRows (rows ++ ghosts) = change.undoRows rows ++ ghosts := by
  cases change with
  | insert key index => exact modify_append_of_lt h _
  | update key records => exact restore_append h

section
variable [DecidableEq κ]

theorem length_undo (rows : κ → List (Row ν)) (change : Change κ ν) (key : κ) :
    (undo rows change key).length = (rows key).length := by
  rw [undo_apply]
  split
  · exact length_undoRows ..
  · rfl

theorem length_undoAll (changes : List (Change κ ν)) (rows : κ → List (Row ν)) (key : κ) :
    (changes.foldl undo rows key).length = (rows key).length := by
  induction changes generalizing rows with
  | nil => rfl
  | cons change changes ih => exact (ih _).trans (length_undo rows change key)

theorem Behind.undo {rows rows' : κ → List (Row ν)} (h : Behind rows rows') {change : Change κ ν}
    (hwithin : change.Within (rows change.key).length) : Behind (undo rows change) (undo rows' change) := by
  intro key
  obtain ⟨ghosts, hghosts, heq⟩ := h key
  refine ⟨ghosts, hghosts, ?_⟩
  rw [undo_apply, undo_apply]
  split
  · next hkey =>
    subst hkey
    rw [heq, undoRows_append hwithin]
  · exact heq

theorem Behind.undoAll {rows rows' : κ → List (Row ν)} (h : Behind rows rows') {changes : List (Change κ ν)}
    (hwithin : ∀ change ∈ changes, change.Within (rows change.key).length) :
    Behind (changes.foldl UndoLog.undo rows) (changes.foldl UndoLog.undo rows') := by
  induction changes generalizing rows rows' with
  | nil => exact h
  | cons change changes ih =>
    apply ih (h.undo (hwithin change List.mem_cons_self))
    intro change' hchange'
    rw [length_undo]
    exact hwithin change' (List.mem_cons_of_mem _ hchange')

/-! ### Rolling back -/

namespace Log

variable {s : Log κ ν}

theorem undo_insert (s : Log κ ν) (key : κ) (value : ν) :
    Behind s.rows (UndoLog.undo (s.insert key value).rows (.insert key (s.rows key).length)) := by
  intro key'
  rw [undo_apply]
  unfold Log.insert
  by_cases hkey : key' = key
  · subst hkey
    refine ⟨[⟨value, true⟩], ?_, ?_⟩
    · intro g hg
      rw [List.mem_singleton.mp hg]
    · rw [if_pos (show key' = (Change.insert (ν := ν) key' _).key from rfl)]
      dsimp only
      rw [Function.update_self]
      exact modify_append_length ..
  · refine ⟨[], nofun, ?_⟩
    rw [if_neg (show ¬ key' = (Change.insert (ν := ν) key _).key from hkey)]
    dsimp only
    rw [Function.update_of_ne hkey, List.append_nil]

theorem undo_update (s : Log κ ν) (key : κ) (value : ν) :
    UndoLog.undo (s.update key value).rows (.update key (records 0 (s.rows key))) = s.rows := by
  funext key'
  rw [undo_apply]
  unfold Log.update
  by_cases hkey : key' = key
  · subst hkey
    rw [if_pos (show key' = (Change.update key' _).key from rfl)]
    dsimp only
    rw [Function.update_self]
    exact restore_overwrite value [] (s.rows key')
  · rw [if_neg (show ¬ key' = (Change.update key _).key from hkey)]
    dsimp only
    rw [Function.update_of_ne hkey]

theorem Within.insert (h : s.Within) (key : κ) (value : ν) : (s.insert key value).Within := by
  have hlength : ∀ key', ((s.insert key value).rows key').length = (s.rows key').length + if key' = key then 1 else 0 := by
    intro key'
    unfold Log.insert
    dsimp only
    split
    · next hkey =>
      subst hkey
      rw [Function.update_self, List.length_append, List.length_singleton]
    · next hkey => rw [Function.update_of_ne hkey, Nat.add_zero]
  intro change hchange
  rw [hlength]
  rcases List.mem_cons.mp hchange with rfl | hold
  · show (s.rows key).length < (s.rows key).length + if key = key then 1 else 0
    rw [if_pos rfl]
    exact Nat.lt_succ_self _
  · exact (h change hold).mono (Nat.le_add_right ..)

theorem lt_of_mem_records {rows : List (Row ν)} {start : Nat} {record : Nat × ν} (h : record ∈ records start rows) :
    record.1 < start + rows.length := by
  induction rows generalizing start with
  | nil => cases h
  | cons r rows ih =>
    rw [List.length_cons]
    unfold records at h
    split at h
    · have := ih h
      omega
    · rcases List.mem_cons.mp h with rfl | hrest
      · dsimp only
        omega
      · have := ih hrest
        omega

theorem Within.update (h : s.Within) (key : κ) (value : ν) : (s.update key value).Within := by
  have hlength : ∀ key', ((s.update key value).rows key').length = (s.rows key').length := by
    intro key'
    unfold Log.update
    dsimp only
    by_cases hkey : key' = key
    · subst hkey
      rw [Function.update_self, List.length_map]
    · rw [Function.update_of_ne hkey]
  intro change hchange
  rw [hlength]
  rcases List.mem_cons.mp hchange with rfl | hold
  · intro record hrecord
    have hlt := lt_of_mem_records hrecord
    rw [Nat.zero_add] at hlt
    exact hlt
  · exact h change hold

theorem Within.rollback (h : s.Within) (savepoint : Nat) : (s.rollback savepoint).Within := by
  intro change hchange
  rw [show (s.rollback savepoint).rows = (s.changes.take (s.changes.length - savepoint)).foldl UndoLog.undo s.rows from rfl,
    length_undoAll]
  exact h change (List.mem_of_mem_drop hchange)

def since (s : Log κ ν) (savepoint : Nat) : List (Change κ ν) := s.changes.take (s.changes.length - savepoint)

omit [DecidableEq κ] in
theorem since_cons {s' : Log κ ν} {change : Change κ ν} {savepoint : Nat} (hchanges : s'.changes = change :: s.changes)
    (hle : savepoint ≤ s.changes.length) : s'.since savepoint = change :: s.since savepoint := by
  rw [since, hchanges, List.length_cons, Nat.succ_sub hle, List.take_succ_cons, since]

theorem rows_rollback_cons (s s' : Log κ ν) (change : Change κ ν) {savepoint : Nat}
    (hchanges : s'.changes = change :: s.changes) (hle : savepoint ≤ s.changes.length) :
    (s'.rollback savepoint).rows = (s.since savepoint).foldl UndoLog.undo (UndoLog.undo s'.rows change) := by
  show (s'.since savepoint).foldl UndoLog.undo s'.rows = _
  rw [since_cons hchanges hle, List.foldl_cons]

/-- **A savepoint does not see a later insertion.** -/
theorem rollback_insert (h : s.Within) (key : κ) (value : ν) {savepoint : Nat} (hle : savepoint ≤ s.changes.length) :
    Behind (s.rollback savepoint).rows ((s.insert key value).rollback savepoint).rows := by
  rw [rows_rollback_cons s (s.insert key value) _ rfl hle]
  exact (undo_insert s key value).undoAll fun change hchange => h change (List.mem_of_mem_take hchange)

/-- **A savepoint does not see a later overwriting.** -/
theorem rollback_update (key : κ) (value : ν) {savepoint : Nat} (hle : savepoint ≤ s.changes.length) :
    ((s.update key value).rollback savepoint).rows = (s.rollback savepoint).rows := by
  rw [rows_rollback_cons s (s.update key value) _ rfl hle, undo_update]
  rfl

theorem length_changes_rollback (s : Log κ ν) {savepoint : Nat} (hle : savepoint ≤ s.changes.length) :
    (s.rollback savepoint).changes.length = savepoint := by
  show (s.changes.drop _).length = savepoint
  rw [List.length_drop]
  omega

theorem rollback_rollback (s : Log κ ν) {early late : Nat} (hearly : early ≤ late) (hlate : late ≤ s.changes.length) :
    (s.rollback late).rollback early = s.rollback early ∧
      s.since early = s.since late ++ (s.rollback late).since early := by
  have hlength := length_changes_rollback s hlate
  have hsplit : s.since early = s.since late ++ (s.rollback late).since early := by
    rw [since, since, since, hlength]
    show _ = _ ++ (s.changes.drop (s.changes.length - late)).take (late - early)
    rw [show s.changes.length - early = (s.changes.length - late) + (late - early) by omega, List.take_add]
  refine ⟨?_, hsplit⟩
  have hrows : ((s.rollback late).rollback early).rows = (s.rollback early).rows := by
    show ((s.rollback late).since early).foldl UndoLog.undo ((s.since late).foldl UndoLog.undo s.rows)
      = (s.since early).foldl UndoLog.undo s.rows
    rw [hsplit, List.foldl_append]
  have hchanges : ((s.rollback late).rollback early).changes = (s.rollback early).changes := by
    show (s.changes.drop _).drop ((s.rollback late).changes.length - early) = s.changes.drop _
    rw [hlength, List.drop_drop]
    congr 1
    omega
  cases hs : s.rollback early
  cases hs' : (s.rollback late).rollback early
  rw [hs, hs'] at hrows hchanges
  rw [Log.mk.injEq]
  exact ⟨hrows, hchanges⟩

end Log

end

end HieraChain.UndoLog
