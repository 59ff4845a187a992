/-
  HieraChain/AccountTable.lean
  ============================
  **The table of an account** (`libstoragestate/StorageState.h`).

  Balance, code, nonce, the managers of a contract and the slots of its storage
  are rows of one table, told apart by their keys.  A row is a key and a value;
  the calls here select by the key, and by the value where the managers are
  concerned.
-/
import HieraChain.Hex
import HieraChain.SystemTable

namespace HieraChain.Account

open HieraChain.BigEndian HieraChain.Storage HieraChain.Hex

def ACCOUNT_BALANCE : Bytes := ascii ['b', 'a', 'l', 'a', 'n', 'c', 'e']
def ACCOUNT_CODE_HASH : Bytes := ascii ['c', 'o', 'd', 'e', 'H', 'a', 's', 'h']
def ACCOUNT_CODE : Bytes := ascii ['c', 'o', 'd', 'e']
def ACCOUNT_NONCE : Bytes := ascii ['n', 'o', 'n', 'c', 'e']
def ACCOUNT_ALIVE : Bytes := ascii ['a', 'l', 'i', 'v', 'e']
def ACCOUNT_AUTHORITY : Bytes := ascii ['a', 'u', 't', 'h', 'o', 'r', 'i', 't', 'y']
def ACCOUNT_FROZEN : Bytes := ascii ['f', 'r', 'o', 'z', 'e', 'n']

structure AccountRow where
  key : Bytes
  value : Bytes
  deriving DecidableEq, Repr

abbrev AccountTable := SystemTable AccountRow

/-- `h256` from bytes: bytes of another length give the hash of zeros. -/
def h256 (b : Bytes) : Bytes := if b.length = 32 then b else List.replicate 32 0

section Calls

variable (version : Nat) (t : AccountTable) (key value : Bytes)

def selectKey : List Bytes := (t.select version fun r => r.key = key).map AccountRow.value

/-- With `EQ` on the value. -/
def selectValue : List Bytes := (t.select version fun r => r.key = key && r.value = value).map AccountRow.value

def insertRow : AccountTable := t.insert ⟨key, value⟩

def updateKey : AccountTable := t.update version (fun r => r.key = key) fun r => { r with value := value }

def removeValue : AccountTable := t.remove version fun r => r.key = key && r.value = value

/-! ### Values -/

def values : List Bytes := (t.rows.filter fun r => r.key = key).map AccountRow.value

end Calls

section Released

variable {version : Nat} (hversion : V2_5_0 ≤ version) (t : AccountTable)
include hversion

theorem selectKey_eq (key : Bytes) : selectKey version t key = values t key := by
  rw [selectKey, SystemTable.select_eq hversion]
  rfl

theorem selectValue_eq (key value : Bytes) :
    selectValue version t key value = (values t key).filter fun v => v = value := by
  rw [selectValue, SystemTable.select_eq hversion, values, List.filter_map, List.filter_filter]
  congr 1
  apply List.filter_congr
  intro r _
  exact Bool.and_comm ..

theorem values_updateKey (key value key' : Bytes) :
    values (updateKey version t key value) key' =
      if key' = key then (values t key').map fun _ => value else values t key' := by
  rw [values, updateKey, SystemTable.rows_update hversion, values]
  induction t.rows with
  | nil => simp
  | cons r rows ih =>
    by_cases hkey : key' = key
    · subst hkey
      by_cases hr : r.key = key' <;> simpa [hr] using ih
    · by_cases hr : r.key = key
      · have hne : ¬ key = key' := fun heq => hkey heq.symm
        simpa [hr, hkey, hne] using ih
      · by_cases hr' : r.key = key' <;> simpa [hr, hr', hkey] using ih

theorem values_removeValue (key value key' : Bytes) :
    values (removeValue version t key value) key' =
      if key' = key then (values t key').filter fun v => v ≠ value else values t key' := by
  rw [values, removeValue, SystemTable.rows_remove hversion, values]
  induction t.rows with
  | nil => simp
  | cons r rows ih =>
    by_cases hkey : key' = key
    · subst hkey
      by_cases hr : r.key = key' <;> by_cases hv : r.value = value <;> simpa [hr, hv] using ih
    · by_cases hr : r.key = key
      · have hne : ¬ key = key' := fun heq => hkey heq.symm
        by_cases hv : r.value = value <;> simpa [hr, hv, hkey, hne] using ih
      · by_cases hr' : r.key = key' <;> simpa [hr, hr', hkey] using ih

end Released

theorem values_insertRow (t : AccountTable) (key value key' : Bytes) :
    values (insertRow t key value) key' = if key' = key then values t key' ++ [value] else values t key' := by
  rw [values, insertRow, SystemTable.rows_insert, List.filter_append, List.map_append, values]
  by_cases hkey : key' = key
  · subst hkey
    simp
  · have hne : ¬ key = key' := fun heq => hkey heq.symm
    simp [hkey, hne]

@[simp] theorem values_commit (t : AccountTable) (key : Bytes) : values t.commit key = values t key := by
  rw [values, SystemTable.rows_commit, values]

end HieraChain.Account
