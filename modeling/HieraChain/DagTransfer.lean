/-
  HieraChain/DagTransfer.lean
  ===========================
  **The transfers that run in parallel**
  (`libprecompiled/extension/DagTransferPrecompiled.cpp`).

  Calls whose tags have no user in common run in any order.  The tags of a call
  that adds, saves, draws or transfers are the users whose rows it reads and
  writes (`call_local`).  A call of `userBalance` reads a row and has no tag: it
  commutes with another call exactly when that one does not write the row, and
  all other pairs of calls with different tags commute (`parallel_tags`).

  The table is there.  The texts of balances are a parameter, and arguments are
  as `abiOut` gives them.
-/
import HieraChain.Decimal
import HieraChain.Footprint
import HieraChain.MemoryTable2

namespace HieraChain.DagTransfer

open HieraChain.BigEndian HieraChain.Decimal HieraChain.Footprint

abbrev U256 := BitVec 256

def CODE_INVALID_OPENTABLE_FAILED : Int := -51406
def CODE_INVALID_BALANCE_OVERFLOW : Int := -51405
def CODE_INVALID_INSUFFICIENT_BALANCE : Int := -51404
def CODE_INVALID_USER_ALREADY_EXIST : Int := -51403
def CODE_INVALID_USER_NOT_EXIST : Int := -51402
def CODE_INVALID_AMOUNT : Int := -51401
def CODE_INVALID_USER_NAME : Int := -51400

/-! ### The table -/

/-- `str` of a number, and the constructor from a text, `none` where it throws. -/
structure U256Text where
  str : U256 → Bytes
  parse : Bytes → Option U256
  parse_str : ∀ n, parse (str n) = some n

structure Row where
  user_name : Bytes
  user_balance : Bytes
  deriving DecidableEq, Repr

abbrev Rows := Bytes → List Row

/-- What is fixed while a block is executed; whoever may write the table is
    listed, or nobody is. -/
structure Context where
  text : U256Text
  authorizedAddress : List Nat := []

def checkAuthority (x : Context) (origin : Nat) : Bool :=
  x.authorizedAddress.isEmpty || x.authorizedAddress.contains origin

def select (t : Rows) (user : Bytes) : List Row := t user

def insert (x : Context) (t : Rows) (user : Bytes) (entry : Row) (origin : Nat) : Int × Rows :=
  if checkAuthority x origin then (1, Function.update t user (t user ++ [entry]))
  else (Storage.CODE_NO_AUTHORIZED, t)

def update (x : Context) (t : Rows) (user : Bytes) (entry : Row) (origin : Nat) : Int × Rows :=
  if checkAuthority x origin then
    ((t user).length, Function.update t user ((t user).map fun r => { r with user_balance := entry.user_balance }))
  else (Storage.CODE_NO_AUTHORIZED, t)

/-! ### The calls -/

abbrev Output := Option (List U256)

def abiIn (ret : Int) : Output := some [BitVec.ofInt 256 ret]

def invalidUserName (user : Bytes) : Bool := user.isEmpty

def userAddCall (x : Context) (t : Rows) (user : Bytes) (amount : U256) (origin : Nat) : Output × Rows :=
  if invalidUserName user then (abiIn CODE_INVALID_USER_NAME, t)
  else
    match select t user with
    | _ :: _ => (abiIn CODE_INVALID_USER_ALREADY_EXIST, t)
    | [] =>
      let inserted := insert x t user ⟨user, x.text.str amount⟩ origin
      if inserted.1 = Storage.CODE_NO_AUTHORIZED then (abiIn Storage.CODE_NO_AUTHORIZED, inserted.2)
      else (abiIn 0, inserted.2)

def userSaveCall (x : Context) (t : Rows) (user : Bytes) (amount : U256) (origin : Nat) : Output × Rows :=
  if invalidUserName user then (abiIn CODE_INVALID_USER_NAME, t)
  else if 0 = amount then (abiIn CODE_INVALID_AMOUNT, t)
  else
    match select t user with
    | [] =>
      let inserted := insert x t user ⟨user, x.text.str amount⟩ origin
      if inserted.1 = Storage.CODE_NO_AUTHORIZED then (abiIn Storage.CODE_NO_AUTHORIZED, inserted.2)
      else (abiIn 0, inserted.2)
    | entry :: _ =>
      match x.text.parse entry.user_balance with
      | none => (none, t)
      | some balance =>
        let new_balance := balance + amount
        if new_balance < balance then (abiIn CODE_INVALID_BALANCE_OVERFLOW, t)
        else
          let updated := update x t user ⟨user, x.text.str new_balance⟩ origin
          if updated.1 = Storage.CODE_NO_AUTHORIZED then (abiIn Storage.CODE_NO_AUTHORIZED, updated.2)
          else (abiIn 0, updated.2)

def userDrawCall (x : Context) (t : Rows) (user : Bytes) (amount : U256) (origin : Nat) : Output × Rows :=
  if invalidUserName user then (abiIn CODE_INVALID_USER_NAME, t)
  else if amount = 0 then (abiIn CODE_INVALID_AMOUNT, t)
  else
    match select t user with
    | [] => (abiIn CODE_INVALID_USER_NOT_EXIST, t)
    | entry :: _ =>
      match x.text.parse entry.user_balance with
      | none => (none, t)
      | some balance =>
        if balance < amount then (abiIn CODE_INVALID_INSUFFICIENT_BALANCE, t)
        else
          let updated := update x t user ⟨user, x.text.str (balance - amount)⟩ origin
          if updated.1 = Storage.CODE_NO_AUTHORIZED then (abiIn Storage.CODE_NO_AUTHORIZED, updated.2)
          else (abiIn 0, updated.2)

def userBalanceCall (x : Context) (t : Rows) (user : Bytes) : Output × Rows :=
  let answer (ret : Int) (balance : U256) : Output := some [BitVec.ofInt 256 ret, balance]
  if invalidUserName user then (answer CODE_INVALID_USER_NAME 0, t)
  else
    match select t user with
    | [] => (answer CODE_INVALID_USER_NOT_EXIST 0, t)
    | entry :: _ =>
      match x.text.parse entry.user_balance with
      | none => (none, t)
      | some balance => (answer 0 balance, t)

def transfer (x : Context) (t : Rows) (fromUser toUser : Bytes) (fromUserBalance toUserBalance amount : U256)
    (origin : Nat) : Output × Rows :=
  if toUserBalance + amount < toUserBalance then (abiIn CODE_INVALID_BALANCE_OVERFLOW, t)
  else
    let updated := update x t fromUser ⟨fromUser, x.text.str (fromUserBalance - amount)⟩ origin
    if updated.1 = Storage.CODE_NO_AUTHORIZED then (abiIn Storage.CODE_NO_AUTHORIZED, updated.2)
    else (abiIn 0, (update x updated.2 toUser ⟨toUser, x.text.str (toUserBalance + amount)⟩ origin).2)

def userTransferCall (x : Context) (t : Rows) (fromUser toUser : Bytes) (amount : U256) (origin : Nat) :
    Output × Rows :=
  if invalidUserName fromUser || invalidUserName toUser then (abiIn CODE_INVALID_USER_NAME, t)
  else if amount = 0 then (abiIn CODE_INVALID_AMOUNT, t)
  else if fromUser = toUser then (abiIn 0, t)
  else
    match select t fromUser with
    | [] => (abiIn CODE_INVALID_USER_NOT_EXIST, t)
    | entry :: _ =>
      match x.text.parse entry.user_balance with
      | none => (none, t)
      | some fromUserBalance =>
        if fromUserBalance < amount then (abiIn CODE_INVALID_INSUFFICIENT_BALANCE, t)
        else
          match select t toUser with
          | [] =>
            let inserted := insert x t toUser ⟨toUser, x.text.str 0⟩ origin
            if inserted.1 = Storage.CODE_NO_AUTHORIZED then (abiIn Storage.CODE_NO_AUTHORIZED, inserted.2)
            else transfer x inserted.2 fromUser toUser fromUserBalance 0 amount origin
          | entry :: _ =>
            match x.text.parse entry.user_balance with
            | none => (none, t)
            | some toUserBalance => transfer x t fromUser toUser fromUserBalance toUserBalance amount origin

inductive Param
  | userAdd (user : Bytes) (amount : U256)
  | userSave (user : Bytes) (amount : U256)
  | userDraw (user : Bytes) (amount : U256)
  | userTransfer (fromUser toUser : Bytes) (amount : U256)
  | userBalance (user : Bytes)
  | other
  deriving DecidableEq

def getParallelTag : Param → List Bytes
  | .userAdd user _ => if !invalidUserName user then [user] else []
  | .userSave user _ => if !invalidUserName user then [user] else []
  | .userDraw user _ => if !invalidUserName user then [user] else []
  | .userTransfer fromUser toUser _ =>
    if !invalidUserName fromUser && !invalidUserName toUser then [fromUser, toUser] else []
  | .userBalance _ => []
  | .other => []

def call (x : Context) (param : Param) (origin : Nat) (t : Rows) : Output × Rows :=
  match param with
  | .userAdd user amount => userAddCall x t user amount origin
  | .userSave user amount => userSaveCall x t user amount origin
  | .userDraw user amount => userDrawCall x t user amount origin
  | .userTransfer fromUser toUser amount => userTransferCall x t fromUser toUser amount origin
  | .userBalance user => userBalanceCall x t user
  | .other => (some [], t)

/-! ### What a call reads and writes -/

variable {x : Context} {t : Rows} {K : Bytes → Prop} {user : Bytes} {amount : U256} {origin : Nat}

/-- What `insert` and `update` leave when they are allowed. -/
def inserted (user : Bytes) (entry : Row) (rows : List Row) : Bytes × List Row := (user, rows ++ [entry])

def updated (user balance : Bytes) (rows : List Row) : Bytes × List Row :=
  (user, rows.map fun r => { r with user_balance := balance })

theorem insert_eq (entry : Row) :
    insert x t user entry origin = if checkAuthority x origin
      then (1, writeAll [inserted user entry (t user)] t) else (Storage.CODE_NO_AUTHORIZED, t) := rfl

theorem update_eq (entry : Row) :
    update x t user entry origin = if checkAuthority x origin
      then (((t user).length : Int), writeAll [updated user entry.user_balance (t user)] t)
      else (Storage.CODE_NO_AUTHORIZED, t) := rfl

theorem length_ne_noAuthorized (n : Nat) : (n : Int) ≠ Storage.CODE_NO_AUTHORIZED := by
  intro h
  have : (0 : Int) ≤ n := Int.natCast_nonneg n
  rw [h] at this
  exact absurd this (by decide)

theorem insert_answers (entry : Row) :
    (if (insert x t user entry origin).1 = Storage.CODE_NO_AUTHORIZED
      then (abiIn Storage.CODE_NO_AUTHORIZED, (insert x t user entry origin).2)
      else (abiIn 0, (insert x t user entry origin).2))
      = if checkAuthority x origin then (abiIn 0, writeAll [inserted user entry (t user)] t)
        else (abiIn Storage.CODE_NO_AUTHORIZED, t) := by
  rw [insert_eq]
  by_cases hallowed : checkAuthority x origin = true
  · simp only [if_pos hallowed]
    rfl
  · simp only [if_neg hallowed]
    rfl

theorem update_answers (entry : Row) :
    (if (update x t user entry origin).1 = Storage.CODE_NO_AUTHORIZED
      then (abiIn Storage.CODE_NO_AUTHORIZED, (update x t user entry origin).2)
      else (abiIn 0, (update x t user entry origin).2))
      = if checkAuthority x origin then (abiIn 0, writeAll [updated user entry.user_balance (t user)] t)
        else (abiIn Storage.CODE_NO_AUTHORIZED, t) := by
  rw [update_eq]
  by_cases hallowed : checkAuthority x origin = true
  · simp only [if_pos hallowed, if_neg (length_ne_noAuthorized _)]
  · simp only [if_neg hallowed]
    rfl

/-! ### The balance that is shown -/

def shown (x : Context) (rows : List Row) : Option (Option U256) :=
  rows.head?.map fun r => x.text.parse r.user_balance

theorem userBalance_eq (hname : invalidUserName user = false) :
    userBalanceCall x t user = (match shown x (t user) with
      | none => some [BitVec.ofInt 256 CODE_INVALID_USER_NOT_EXIST, 0]
      | some none => none
      | some (some balance) => some [BitVec.ofInt 256 0, balance], t) := by
  simp only [userBalanceCall, select, hname, Bool.false_eq_true, if_false]
  cases hrows : t user with
  | nil => rfl
  | cons row rows =>
    simp only [shown, List.head?_cons, Option.map_some]
    cases x.text.parse row.user_balance with
    | none => rfl
    | some balance => rfl

theorem userBalance_eq_iff {t' : Rows} (hname : invalidUserName user = false) :
    (userBalanceCall x t user).1 = (userBalanceCall x t' user).1 ↔ shown x (t user) = shown x (t' user) := by
  rw [userBalance_eq hname, userBalance_eq hname]
  have hcode : BitVec.ofInt 256 CODE_INVALID_USER_NOT_EXIST ≠ BitVec.ofInt 256 0 := by decide
  constructor
  · intro h
    rcases hleft : shown x (t user) with _ | _ | balance <;> rcases hright : shown x (t' user) with _ | _ | balance' <;>
      simp_all
  · intro h
    rw [h]

def Writes (x : Context) (t : Rows) (origin : Nat) (user : Bytes) : Param → Prop
  | .userAdd u _ =>
    user = u ∧ invalidUserName u = false ∧ checkAuthority x origin = true ∧ shown x (t u) = none
  | .userSave u amount =>
    user = u ∧ invalidUserName u = false ∧ amount ≠ 0 ∧ checkAuthority x origin = true
      ∧ (shown x (t u) = none ∨ ∃ balance, shown x (t u) = some (some balance) ∧ ¬ balance + amount < balance)
  | .userDraw u amount =>
    user = u ∧ invalidUserName u = false ∧ amount ≠ 0 ∧ checkAuthority x origin = true
      ∧ ∃ balance, shown x (t u) = some (some balance) ∧ ¬ balance < amount
  | .userTransfer fromUser toUser amount =>
    (user = fromUser ∨ user = toUser) ∧ invalidUserName fromUser = false ∧ invalidUserName toUser = false
      ∧ amount ≠ 0 ∧ fromUser ≠ toUser ∧ checkAuthority x origin = true
      ∧ (∃ balance, shown x (t fromUser) = some (some balance) ∧ ¬ balance < amount)
      ∧ (shown x (t toUser) = none
        ∨ ∃ balance, shown x (t toUser) = some (some balance) ∧ ¬ balance + amount < balance)
  | .userBalance _ => False
  | .other => False

/-- What a call does to a table, and to every table with the same rows of its
    tags: an answer and some writes. -/
structure Effect (x : Context) (param : Param) (origin : Nat) (t : Rows) (a : Output) (ws : List (Bytes × List Row)) :
    Prop where
  run : ∀ t', (∀ u ∈ getParallelTag param, t' u = t u) → call x param origin t' = (a, writeAll ws t')
  mine : ∀ w ∈ ws, w.1 ∈ getParallelTag param
  writes : ∀ user, Writes x t origin user param ↔ ∃ w ∈ ws, w.1 = user
  shows : ∀ w ∈ ws, shown x w.2 ≠ shown x (t w.1)
  nodup : (ws.map Prod.fst).Nodup

variable {param : Param} {a : Output}

theorem Effect.nothing (hrun : ∀ t', (∀ u ∈ getParallelTag param, t' u = t u) → call x param origin t' = (a, t'))
    (hwrites : ∀ user, ¬ Writes x t origin user param) : Effect x param origin t a [] where
  run := hrun
  mine _ h := by cases h
  writes user := iff_of_false (hwrites user) fun ⟨_, h, _⟩ => by cases h
  shows _ h := by cases h
  nodup := List.nodup_nil

theorem written_one (w : Bytes × List Row) (u : Bytes) : (∃ w' ∈ [w], w'.1 = u) ↔ w.1 = u := by
  simp only [List.mem_singleton, exists_eq_left]

theorem written_two (w w' : Bytes × List Row) (u : Bytes) :
    (∃ w'' ∈ [w, w'], w''.1 = u) ↔ w.1 = u ∨ w'.1 = u := by
  simp only [List.mem_cons, List.not_mem_nil, or_false, exists_eq_or_imp, exists_eq_left]

theorem shown_inserted (amount : U256) : shown x [⟨user, x.text.str amount⟩] = some (some amount) := by
  simp only [shown, List.head?_cons, Option.map_some, x.text.parse_str]

theorem shown_updated {rows : List Row} (balance : U256) (h : shown x rows ≠ none) :
    shown x (updated user (x.text.str balance) rows).2 = some (some balance) := by
  cases rows with
  | nil => exact absurd rfl h
  | cons row rows => simp only [shown, updated, List.map_cons, List.head?_cons, Option.map_some, x.text.parse_str]

theorem shown_ne {rows : List Row} {old new : U256} (h : shown x rows = some (some old)) (hne : new ≠ old) :
    some (some new) ≠ shown x rows := by
  rw [h]
  intro heq
  exact hne (Option.some.inj (Option.some.inj heq))

theorem add_ne {balance : U256} (h : amount ≠ 0) : balance + amount ≠ balance := by
  intro heq
  apply h
  bv_omega

theorem sub_ne {balance : U256} (h : amount ≠ 0) : balance - amount ≠ balance := by
  intro heq
  apply h
  bv_omega

theorem userAdd_effect : ∃ a ws, Effect x (.userAdd user amount) origin t a ws := by
  by_cases hname : invalidUserName user = true
  · refine ⟨_, [], .nothing (a := abiIn CODE_INVALID_USER_NAME) (fun t' _ => ?_) fun _ h => ?_⟩
    · simp only [call, userAddCall, if_pos hname]
    · exact absurd hname (by simp [h.2.1])
  have hvalid : invalidUserName user = false := by simpa using hname
  have htag : user ∈ getParallelTag (.userAdd user amount) := by simp [getParallelTag, hvalid]
  cases hrows : t user with
  | cons row rows =>
    refine ⟨_, [], .nothing (a := abiIn CODE_INVALID_USER_ALREADY_EXIST) (fun t' ht => ?_) fun _ h => ?_⟩
    · simp only [call, userAddCall, if_neg hname, select, ht user htag, hrows]
    · exact absurd h.2.2.2 (by simp [hrows, shown])
  | nil =>
    have hthen : ∀ t', t' user = t user → call x (.userAdd user amount) origin t'
        = if checkAuthority x origin then (abiIn 0, writeAll [inserted user ⟨user, x.text.str amount⟩ (t' user)] t')
          else (abiIn Storage.CODE_NO_AUTHORIZED, t') := by
      intro t' hsame
      simp only [call, userAddCall, if_neg hname, select, hsame, hrows]
      rw [insert_answers, hsame, hrows]
    by_cases hallowed : checkAuthority x origin = true
    · refine ⟨abiIn 0, [inserted user ⟨user, x.text.str amount⟩ []], fun t' ht => ?_, ?_, fun u => ?_, ?_, ?_⟩
      · rw [hthen t' (ht user htag), if_pos hallowed, ht user htag, hrows]
      · simpa [inserted] using htag
      · rw [written_one]
        exact ⟨fun h => h.1.symm, fun h => ⟨h.symm, hvalid, hallowed, by rw [hrows]; rfl⟩⟩
      · simp [inserted, hrows, shown]
      · simp
    · refine ⟨_, [], .nothing (a := abiIn Storage.CODE_NO_AUTHORIZED) (fun t' ht => ?_) fun _ h => hallowed h.2.2.1⟩
      rw [hthen t' (ht user htag), if_neg hallowed]

theorem userSave_effect : ∃ a ws, Effect x (.userSave user amount) origin t a ws := by
  by_cases hname : invalidUserName user = true
  · refine ⟨_, [], .nothing (a := abiIn CODE_INVALID_USER_NAME) (fun t' _ => ?_) fun _ h => ?_⟩
    · simp only [call, userSaveCall, if_pos hname]
    · exact absurd hname (by simp [h.2.1])
  have hvalid : invalidUserName user = false := by simpa using hname
  have htag : user ∈ getParallelTag (.userSave user amount) := by simp [getParallelTag, hvalid]
  by_cases hamount : 0 = amount
  · refine ⟨_, [], .nothing (a := abiIn CODE_INVALID_AMOUNT) (fun t' _ => ?_) fun _ h => h.2.2.1 hamount.symm⟩
    simp only [call, userSaveCall, if_neg hname, if_pos hamount]
  cases hrows : t user with
  | nil =>
    have hthen : ∀ t', t' user = t user → call x (.userSave user amount) origin t'
        = if checkAuthority x origin then (abiIn 0, writeAll [inserted user ⟨user, x.text.str amount⟩ (t' user)] t')
          else (abiIn Storage.CODE_NO_AUTHORIZED, t') := by
      intro t' hsame
      simp only [call, userSaveCall, if_neg hname, if_neg hamount, select, hsame, hrows]
      rw [insert_answers, hsame, hrows]
    by_cases hallowed : checkAuthority x origin = true
    · refine ⟨abiIn 0, [inserted user ⟨user, x.text.str amount⟩ []], fun t' ht => ?_, ?_, fun u => ?_, ?_, ?_⟩
      · rw [hthen t' (ht user htag), if_pos hallowed, ht user htag, hrows]
      · simpa [inserted] using htag
      · rw [written_one]
        exact ⟨fun h => h.1.symm, fun h => ⟨h.symm, hvalid, Ne.symm hamount, hallowed, Or.inl (by rw [hrows]; rfl)⟩⟩
      · simp [inserted, hrows, shown]
      · simp
    · refine ⟨_, [], .nothing (a := abiIn Storage.CODE_NO_AUTHORIZED) (fun t' ht => ?_) fun _ h => hallowed h.2.2.2.1⟩
      rw [hthen t' (ht user htag), if_neg hallowed]
  | cons row rows =>
    have hshown : shown x (t user) = some (x.text.parse row.user_balance) := by rw [hrows]; rfl
    cases hparse : x.text.parse row.user_balance with
    | none =>
      rw [hparse] at hshown
      refine ⟨_, [], .nothing (a := none) (fun t' ht => ?_) fun _ h => ?_⟩
      · simp only [call, userSaveCall, if_neg hname, if_neg hamount, select, ht user htag, hrows, hparse]
      · exact absurd h.2.2.2.2 (by simp [hshown])
    | some balance =>
      rw [hparse] at hshown
      by_cases hover : balance + amount < balance
      · refine ⟨_, [], .nothing (a := abiIn CODE_INVALID_BALANCE_OVERFLOW) (fun t' ht => ?_) fun _ h => ?_⟩
        · simp only [call, userSaveCall, if_neg hname, if_neg hamount, select, ht user htag, hrows, hparse, if_pos hover]
        · exact absurd h.2.2.2.2 (by simp [hshown, hover])
      have hthen : ∀ t', t' user = t user → call x (.userSave user amount) origin t'
          = if checkAuthority x origin then (abiIn 0, writeAll [updated user (x.text.str (balance + amount)) (t' user)] t')
            else (abiIn Storage.CODE_NO_AUTHORIZED, t') := by
        intro t' hsame
        simp only [call, userSaveCall, if_neg hname, if_neg hamount, select, hsame, hrows, hparse, if_neg hover]
        rw [update_answers, hsame, hrows]
      by_cases hallowed : checkAuthority x origin = true
      · refine ⟨abiIn 0, [updated user (x.text.str (balance + amount)) (t user)], fun t' ht => ?_, ?_, fun u => ?_, ?_, ?_⟩
        · rw [hthen t' (ht user htag), if_pos hallowed, ht user htag]
        · simpa [updated] using htag
        · rw [written_one]
          exact ⟨fun h => h.1.symm,
            fun h => ⟨h.symm, hvalid, Ne.symm hamount, hallowed, Or.inr ⟨balance, hshown, hover⟩⟩⟩
        · rw [List.forall_mem_singleton, shown_updated _ (by simp [hshown])]
          exact shown_ne hshown (add_ne (Ne.symm hamount))
        · simp
      · refine ⟨_, [], .nothing (a := abiIn Storage.CODE_NO_AUTHORIZED) (fun t' ht => ?_) fun _ h => hallowed h.2.2.2.1⟩
        rw [hthen t' (ht user htag), if_neg hallowed]

theorem userDraw_effect : ∃ a ws, Effect x (.userDraw user amount) origin t a ws := by
  by_cases hname : invalidUserName user = true
  · refine ⟨_, [], .nothing (a := abiIn CODE_INVALID_USER_NAME) (fun t' _ => ?_) fun _ h => ?_⟩
    · simp only [call, userDrawCall, if_pos hname]
    · exact absurd hname (by simp [h.2.1])
  have hvalid : invalidUserName user = false := by simpa using hname
  have htag : user ∈ getParallelTag (.userDraw user amount) := by simp [getParallelTag, hvalid]
  by_cases hamount : amount = 0
  · refine ⟨_, [], .nothing (a := abiIn CODE_INVALID_AMOUNT) (fun t' _ => ?_) fun _ h => h.2.2.1 hamount⟩
    simp only [call, userDrawCall, if_neg hname, if_pos hamount]
  cases hrows : t user with
  | nil =>
    refine ⟨_, [], .nothing (a := abiIn CODE_INVALID_USER_NOT_EXIST) (fun t' ht => ?_) fun _ h => ?_⟩
    · simp only [call, userDrawCall, if_neg hname, if_neg hamount, select, ht user htag, hrows]
    · exact absurd h.2.2.2.2 (by simp [hrows, shown])
  | cons row rows =>
    have hshown : shown x (t user) = some (x.text.parse row.user_balance) := by rw [hrows]; rfl
    cases hparse : x.text.parse row.user_balance with
    | none =>
      rw [hparse] at hshown
      refine ⟨_, [], .nothing (a := none) (fun t' ht => ?_) fun _ h => ?_⟩
      · simp only [call, userDrawCall, if_neg hname, if_neg hamount, select, ht user htag, hrows, hparse]
      · exact absurd h.2.2.2.2 (by simp [hshown])
    | some balance =>
      rw [hparse] at hshown
      by_cases hless : balance < amount
      · refine ⟨_, [], .nothing (a := abiIn CODE_INVALID_INSUFFICIENT_BALANCE) (fun t' ht => ?_) fun _ h => ?_⟩
        · simp only [call, userDrawCall, if_neg hname, if_neg hamount, select, ht user htag, hrows, hparse, if_pos hless]
        · exact absurd h.2.2.2.2 (by simp [hshown, hless])
      have hthen : ∀ t', t' user = t user → call x (.userDraw user amount) origin t'
          = if checkAuthority x origin then (abiIn 0, writeAll [updated user (x.text.str (balance - amount)) (t' user)] t')
            else (abiIn Storage.CODE_NO_AUTHORIZED, t') := by
        intro t' hsame
        simp only [call, userDrawCall, if_neg hname, if_neg hamount, select, hsame, hrows, hparse, if_neg hless]
        rw [update_answers, hsame, hrows]
      by_cases hallowed : checkAuthority x origin = true
      · refine ⟨abiIn 0, [updated user (x.text.str (balance - amount)) (t user)], fun t' ht => ?_, ?_, fun u => ?_, ?_, ?_⟩
        · rw [hthen t' (ht user htag), if_pos hallowed, ht user htag]
        · simpa [updated] using htag
        · rw [written_one]
          exact ⟨fun h => h.1.symm, fun h => ⟨h.symm, hvalid, hamount, hallowed, balance, hshown, hless⟩⟩
        · rw [List.forall_mem_singleton, shown_updated _ (by simp [hshown])]
          exact shown_ne hshown (sub_ne hamount)
        · simp
      · refine ⟨_, [], .nothing (a := abiIn Storage.CODE_NO_AUTHORIZED) (fun t' ht => ?_) fun _ h => hallowed h.2.2.2.1⟩
        rw [hthen t' (ht user htag), if_neg hallowed]

theorem transfer_eq {fromUser toUser : Bytes} (hne : fromUser ≠ toUser) (fromUserBalance toUserBalance : U256) :
    transfer x t fromUser toUser fromUserBalance toUserBalance amount origin
      = if toUserBalance + amount < toUserBalance then (abiIn CODE_INVALID_BALANCE_OVERFLOW, t)
        else if checkAuthority x origin then
          (abiIn 0, writeAll [updated fromUser (x.text.str (fromUserBalance - amount)) (t fromUser),
            updated toUser (x.text.str (toUserBalance + amount)) (t toUser)] t)
        else (abiIn Storage.CODE_NO_AUTHORIZED, t) := by
  rw [transfer]
  by_cases hover : toUserBalance + amount < toUserBalance
  · rw [if_pos hover, if_pos hover]
  rw [if_neg hover, if_neg hover]
  by_cases hallowed : checkAuthority x origin = true
  · have hto : Function.update t fromUser (updated fromUser (x.text.str (fromUserBalance - amount)) (t fromUser)).2 toUser
        = t toUser := Function.update_of_ne hne.symm _ _
    simp only [update_eq, if_pos hallowed, if_neg (length_ne_noAuthorized _), writeAll_cons, writeAll_nil]
    rw [show (updated fromUser (x.text.str (fromUserBalance - amount)) (t fromUser)).1 = fromUser from rfl, hto]
  · simp only [update_eq, if_neg hallowed]
    rfl

theorem transfer_inserted {fromUser toUser : Bytes} (hne : fromUser ≠ toUser) (hto : t toUser = [])
    (hallowed : checkAuthority x origin = true) (fromUserBalance amount : U256) :
    transfer x (writeAll [inserted toUser ⟨toUser, x.text.str 0⟩ (t toUser)] t) fromUser toUser fromUserBalance 0
        amount origin
      = (abiIn 0, writeAll [updated fromUser (x.text.str (fromUserBalance - amount)) (t fromUser),
          (toUser, [⟨toUser, x.text.str (0 + amount)⟩])] t) := by
  have hover : ¬ (0 : U256) + amount < 0 := BitVec.not_lt_zero
  rw [transfer_eq hne, if_neg hover, if_pos hallowed, hto]
  simp only [writeAll_cons, writeAll_nil, inserted, updated, List.nil_append, Function.update_self,
    Function.update_of_ne hne, List.map_cons, List.map_nil]
  rw [Function.update_comm hne, Function.update_idem, Function.update_comm hne.symm]

theorem userTransfer_effect {fromUser toUser : Bytes} :
    ∃ a ws, Effect x (.userTransfer fromUser toUser amount) origin t a ws := by
  by_cases hnames : (invalidUserName fromUser || invalidUserName toUser) = true
  · refine ⟨_, [], .nothing (a := abiIn CODE_INVALID_USER_NAME) (fun t' _ => ?_) fun _ h => ?_⟩
    · simp only [call, userTransferCall, if_pos hnames]
    · exact absurd hnames (by simp [h.2.1, h.2.2.1])
  obtain ⟨hfromValid, htoValid⟩ : invalidUserName fromUser = false ∧ invalidUserName toUser = false := by
    simpa using hnames
  have htags : getParallelTag (.userTransfer fromUser toUser amount) = [fromUser, toUser] := by
    simp [getParallelTag, hfromValid, htoValid]
  have hfromTag : fromUser ∈ getParallelTag (.userTransfer fromUser toUser amount) := by simp [htags]
  have htoTag : toUser ∈ getParallelTag (.userTransfer fromUser toUser amount) := by simp [htags]
  by_cases hamount : amount = 0
  · refine ⟨_, [], .nothing (a := abiIn CODE_INVALID_AMOUNT) (fun t' _ => ?_) fun _ h => h.2.2.2.1 hamount⟩
    simp only [call, userTransferCall, if_neg hnames, if_pos hamount]
  by_cases hself : fromUser = toUser
  · refine ⟨_, [], .nothing (a := abiIn 0) (fun t' _ => ?_) fun _ h => h.2.2.2.2.1 hself⟩
    simp only [call, userTransferCall, if_neg hnames, if_neg hamount, if_pos hself]
  cases hfrom : t fromUser with
  | nil =>
    refine ⟨_, [], .nothing (a := abiIn CODE_INVALID_USER_NOT_EXIST) (fun t' ht => ?_) fun _ h => ?_⟩
    · simp only [call, userTransferCall, if_neg hnames, if_neg hamount, if_neg hself, select, ht _ hfromTag, hfrom]
    · exact absurd h.2.2.2.2.2.2.1 (by simp [hfrom, shown])
  | cons row rows =>
  have hfromShown : shown x (t fromUser) = some (x.text.parse row.user_balance) := by rw [hfrom]; rfl
  cases hparse : x.text.parse row.user_balance with
  | none =>
    rw [hparse] at hfromShown
    refine ⟨_, [], .nothing (a := none) (fun t' ht => ?_) fun _ h => ?_⟩
    · simp only [call, userTransferCall, if_neg hnames, if_neg hamount, if_neg hself, select, ht _ hfromTag, hfrom,
        hparse]
    · exact absurd h.2.2.2.2.2.2.1 (by simp [hfromShown])
  | some fromUserBalance =>
  rw [hparse] at hfromShown
  by_cases hless : fromUserBalance < amount
  · refine ⟨_, [], .nothing (a := abiIn CODE_INVALID_INSUFFICIENT_BALANCE) (fun t' ht => ?_) fun _ h => ?_⟩
    · simp only [call, userTransferCall, if_neg hnames, if_neg hamount, if_neg hself, select, ht _ hfromTag, hfrom,
        hparse, if_pos hless]
    · exact absurd h.2.2.2.2.2.2.1 (by simp [hfromShown, hless])
  cases hto : t toUser with
  | nil =>
    have hcall : ∀ t', t' fromUser = t fromUser → t' toUser = t toUser →
        call x (.userTransfer fromUser toUser amount) origin t'
          = if checkAuthority x origin then
              (abiIn 0, writeAll [updated fromUser (x.text.str (fromUserBalance - amount)) (t' fromUser),
                (toUser, [⟨toUser, x.text.str (0 + amount)⟩])] t')
            else (abiIn Storage.CODE_NO_AUTHORIZED, t') := by
      intro t' hfromSame htoSame
      simp only [call, userTransferCall, if_neg hnames, if_neg hamount, if_neg hself, select, hfromSame, hfrom, hparse,
        if_neg hless, htoSame, hto, insert_eq]
      by_cases hallowed : checkAuthority x origin = true
      · have hinserted := transfer_inserted hself (htoSame.trans hto) hallowed fromUserBalance amount
        rw [htoSame, hto, hfromSame, hfrom] at hinserted
        simp only [if_pos hallowed]
        exact hinserted
      · simp only [if_neg hallowed]
        rfl
    by_cases hallowed : checkAuthority x origin = true
    · refine ⟨abiIn 0, [updated fromUser (x.text.str (fromUserBalance - amount)) (t fromUser),
        (toUser, [⟨toUser, x.text.str (0 + amount)⟩])], fun t' ht => ?_, ?_, fun u => ?_, ?_, ?_⟩
      · rw [hcall t' (ht _ hfromTag) (ht _ htoTag), if_pos hallowed, ht _ hfromTag]
      · simp [updated, htags]
      · rw [written_two]
        refine ⟨fun h => h.1.imp Eq.symm Eq.symm, fun h => ?_⟩
        exact ⟨h.imp Eq.symm Eq.symm, hfromValid, htoValid, hamount, hself, hallowed,
          ⟨fromUserBalance, hfromShown, hless⟩, Or.inl (by rw [hto]; rfl)⟩
      · rw [List.forall_mem_cons, List.forall_mem_singleton]
        refine ⟨?_, ?_⟩
        · rw [shown_updated _ (by simp [hfromShown])]
          exact shown_ne hfromShown (sub_ne hamount)
        · rw [shown_inserted, hto]
          exact Option.some_ne_none _
      · simp [updated, hself]
    · refine ⟨_, [], .nothing (a := abiIn Storage.CODE_NO_AUTHORIZED) (fun t' ht => ?_) fun _ h => hallowed h.2.2.2.2.2.1⟩
      rw [hcall t' (ht _ hfromTag) (ht _ htoTag), if_neg hallowed]
  | cons toRow toRows =>
  have htoShown : shown x (t toUser) = some (x.text.parse toRow.user_balance) := by rw [hto]; rfl
  cases htoParse : x.text.parse toRow.user_balance with
  | none =>
    rw [htoParse] at htoShown
    refine ⟨_, [], .nothing (a := none) (fun t' ht => ?_) fun _ h => ?_⟩
    · simp only [call, userTransferCall, if_neg hnames, if_neg hamount, if_neg hself, select, ht _ hfromTag, hfrom,
        hparse, if_neg hless, ht _ htoTag, hto, htoParse]
    · exact absurd h.2.2.2.2.2.2.2 (by simp [htoShown])
  | some toUserBalance =>
  rw [htoParse] at htoShown
  have hcall : ∀ t', t' fromUser = t fromUser → t' toUser = t toUser →
      call x (.userTransfer fromUser toUser amount) origin t'
        = transfer x t' fromUser toUser fromUserBalance toUserBalance amount origin := by
    intro t' hfromSame htoSame
    simp only [call, userTransferCall, if_neg hnames, if_neg hamount, if_neg hself, select, hfromSame, hfrom, hparse,
      if_neg hless, htoSame, hto, htoParse]
  by_cases hover : toUserBalance + amount < toUserBalance
  · refine ⟨_, [], .nothing (a := abiIn CODE_INVALID_BALANCE_OVERFLOW) (fun t' ht => ?_) fun _ h => ?_⟩
    · rw [hcall t' (ht _ hfromTag) (ht _ htoTag), transfer_eq hself, if_pos hover]
    · exact absurd h.2.2.2.2.2.2.2 (by simp [htoShown, hover])
  by_cases hallowed : checkAuthority x origin = true
  · refine ⟨abiIn 0, [updated fromUser (x.text.str (fromUserBalance - amount)) (t fromUser),
      updated toUser (x.text.str (toUserBalance + amount)) (t toUser)], fun t' ht => ?_, ?_, fun u => ?_, ?_, ?_⟩
    · rw [hcall t' (ht _ hfromTag) (ht _ htoTag), transfer_eq hself, if_neg hover, if_pos hallowed, ht _ hfromTag,
        ht _ htoTag]
    · simp [updated, htags]
    · rw [written_two]
      refine ⟨fun h => h.1.imp Eq.symm Eq.symm, fun h => ?_⟩
      exact ⟨h.imp Eq.symm Eq.symm, hfromValid, htoValid, hamount, hself, hallowed,
        ⟨fromUserBalance, hfromShown, hless⟩, Or.inr ⟨toUserBalance, htoShown, hover⟩⟩
    · rw [List.forall_mem_cons, List.forall_mem_singleton]
      refine ⟨?_, ?_⟩
      · rw [shown_updated _ (by simp [hfromShown])]
        exact shown_ne hfromShown (sub_ne hamount)
      · rw [shown_updated _ (by simp [htoShown])]
        exact shown_ne htoShown (add_ne hamount)
    · simp [updated, hself]
  · refine ⟨_, [], .nothing (a := abiIn Storage.CODE_NO_AUTHORIZED) (fun t' ht => ?_) fun _ h => hallowed h.2.2.2.2.2.1⟩
    rw [hcall t' (ht _ hfromTag) (ht _ htoTag), transfer_eq hself, if_neg hover, if_neg hallowed]

/-- A call of `userBalance`. -/
def isQuery : Param → Bool
  | .userBalance _ => true
  | _ => false

theorem exists_effect (x : Context) (param : Param) (hquery : isQuery param = false) (origin : Nat) (t : Rows) :
    ∃ a ws, Effect x param origin t a ws := by
  cases param with
  | userAdd user amount => exact userAdd_effect
  | userSave user amount => exact userSave_effect
  | userDraw user amount => exact userDraw_effect
  | userTransfer fromUser toUser amount => exact userTransfer_effect
  | userBalance user => cases hquery
  | other => exact ⟨_, [], .nothing (a := some []) (fun _ _ => rfl) fun _ h => h⟩

/-- **A call is local to the users of its tags.** -/
theorem call_local (x : Context) (param : Param) (hquery : isQuery param = false) (origin : Nat) :
    Local (· ∈ getParallelTag param) (call x param origin) where
  frame t k hk := by
    obtain ⟨a, ws, heffect⟩ := exists_effect x param hquery origin t
    rw [heffect.run t fun _ _ => rfl]
    exact writeAll_of_not_mem ws t fun w hw heq => hk (heq ▸ heffect.mine w hw)
  answers t t' heq := by
    obtain ⟨a, ws, heffect⟩ := exists_effect x param hquery origin t
    rw [heffect.run t fun _ _ => rfl, heffect.run t' fun u hu => (heq u hu).symm]
  writes t t' heq k hk := by
    obtain ⟨a, ws, heffect⟩ := exists_effect x param hquery origin t
    rw [heffect.run t fun _ _ => rfl, heffect.run t' fun u hu => (heq u hu).symm]
    exact writeAll_congr ws (heq k hk)

theorem shown_call_iff (hquery : isQuery param = false) (user : Bytes) :
    shown x (t user) = shown x ((call x param origin t).2 user) ↔ ¬ Writes x t origin user param := by
  obtain ⟨a, ws, heffect⟩ := exists_effect x param hquery origin t
  rw [heffect.run t fun _ _ => rfl, heffect.writes]
  dsimp only
  constructor
  · rintro hsame ⟨w, hw, rfl⟩
    rw [writeAll_of_mem ws t heffect.nodup hw] at hsame
    exact heffect.shows w hw hsame.symm
  · intro hnone
    rw [writeAll_of_not_mem]
    exact fun w hw heq => hnone ⟨w, hw, heq⟩

/-! ### Parallel tags -/

def Overlooked (x : Context) (t : Rows) (query param : Param) (origin : Nat) : Prop :=
  ∃ user, query = .userBalance user ∧ invalidUserName user = false ∧ Writes x t origin user param

theorem not_overlooked {query param : Param} (h : isQuery query = false) : ¬ Overlooked x t query param origin := by
  rintro ⟨user, rfl, -⟩
  cases h

theorem query_commute_iff (x : Context) (t : Rows) (user : Bytes) (param : Param) (origin origin' : Nat) :
    EitherOrder (call x (.userBalance user) origin) (call x param origin') t
      ↔ ¬ Overlooked x t (.userBalance user) param origin' ∧ ¬ Overlooked x t param (.userBalance user) origin := by
  have hread : ∀ t, (call x (.userBalance user) origin t).2 = t := by
    intro t
    by_cases hname : invalidUserName user = true
    · simp only [call, userBalanceCall, if_pos hname]
    · rw [call, userBalance_eq (by simpa using hname)]
  have hother : ¬ Overlooked x t param (.userBalance user) origin := by
    rintro ⟨_, -, -, hwrites⟩
    exact hwrites
  rw [and_iff_left hother, commute_of_reads hread]
  by_cases hname : invalidUserName user = true
  · refine iff_of_true ?_ ?_
    · simp only [call, userBalanceCall, if_pos hname]
    · rintro ⟨_, heq, hvalid, -⟩
      cases heq
      rw [hname] at hvalid
      cases hvalid
  have hvalid : invalidUserName user = false := by simpa using hname
  have hoverlooked : Overlooked x t (.userBalance user) param origin' ↔ Writes x t origin' user param := by
    constructor
    · rintro ⟨_, heq, -, hwrites⟩
      cases heq
      exact hwrites
    · exact fun hwrites => ⟨user, rfl, hvalid, hwrites⟩
  rw [hoverlooked, call, call, userBalance_eq_iff hvalid]
  by_cases hquery : isQuery param = true
  · cases param with
    | userBalance user' =>
      refine iff_of_true ?_ fun h => h
      by_cases hname' : invalidUserName user' = true
      · simp only [call, userBalanceCall, if_pos hname']
      · rw [call, userBalance_eq (by simpa using hname')]
    | _ => cases hquery
  · exact shown_call_iff (by simpa using hquery) user

/-- **Parallel tags.**  Calls without a common tag commute, unless one is a query
    of a user whose row the other writes. -/
theorem parallel_tags (x : Context) (t : Rows) (param param' : Param) (origin origin' : Nat)
    (hdisjoint : ∀ tag ∈ getParallelTag param, tag ∉ getParallelTag param') :
    EitherOrder (call x param origin) (call x param' origin') t
      ↔ ¬ Overlooked x t param param' origin' ∧ ¬ Overlooked x t param' param origin := by
  by_cases hquery : isQuery param = true
  · cases param with
    | userBalance user => exact query_commute_iff x t user param' origin origin'
    | _ => cases hquery
  by_cases hquery' : isQuery param' = true
  · cases param' with
    | userBalance user =>
      rw [and_comm, ← query_commute_iff x t user param origin' origin]
      exact ⟨EitherOrder.symm, EitherOrder.symm⟩
    | _ => cases hquery'
  have hcall : isQuery param = false := by simpa using hquery
  have hcall' : isQuery param' = false := by simpa using hquery'
  exact iff_of_true ((call_local x param hcall origin).commute (call_local x param' hcall' origin') hdisjoint t)
    ⟨not_overlooked hcall, not_overlooked hcall'⟩

/-! ### Decimal texts -/

def decimalText : U256Text where
  str n := decimal n.toNat
  parse text := (ofDecimal text).map (BitVec.ofNat 256)
  parse_str n := by rw [ofDecimal_decimal, Option.map_some, BitVec.ofNat_toNat, BitVec.setWidth_eq]

/-- A transfer from user `a` to `b` beside a new user `c`. -/
theorem parallel_tags_small :
    EitherOrder (call { text := decimalText } (.userTransfer [97] [98] 1) 0)
        (call { text := decimalText } (.userAdd [99] 7) 0) (fun _ => [])
      ↔ ¬ Overlooked { text := decimalText } (fun _ => []) (.userTransfer [97] [98] 1) (.userAdd [99] 7) 0
        ∧ ¬ Overlooked { text := decimalText } (fun _ => []) (.userAdd [99] 7) (.userTransfer [97] [98] 1) 0 :=
  parallel_tags { text := decimalText } (fun _ => []) (.userTransfer [97] [98] 1) (.userAdd [99] 7) 0 0 (by decide)

/-- A query of user `a` and the call that adds the user have no tag in common. -/
theorem query_without_tag :
    ¬ ∀ x t param param' origin origin', (∀ tag ∈ getParallelTag param, tag ∉ getParallelTag param') →
      EitherOrder (call x param origin) (call x param' origin') t := by
  intro h
  have horder := h { text := decimalText } (fun _ => []) (.userBalance [97]) (.userAdd [97] 5) 0 0 (by decide)
  have hname : invalidUserName [97] = false := rfl
  have hanswers : (userBalanceCall { text := decimalText } (fun _ => []) [97]).1
      = (userBalanceCall { text := decimalText }
        (call { text := decimalText } (.userAdd [97] 5) 0 fun _ => []).2 [97]).1 := horder.1
  have hshown := (userBalance_eq_iff hname).mp hanswers
  exact absurd hshown (by decide +kernel)

end HieraChain.DagTransfer
