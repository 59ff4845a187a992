/-
  HieraChain/DagTransferBalances.lean
  ===================================
  **The transfers keep the books.**

  Every call of `DagTransferPrecompiled` that answers with a code other than
  zero leaves the table as it was, although a transfer inserts its receiver
  before it checks for an overflow: a new receiver cannot overflow, and whoever
  may insert may update.  A call that answers zero has moved exactly its amount,
  without a wrap modulo 2^256, over any sequence of calls   (`calls_exact`).
-/
import HieraChain.DagTransfer
import HieraChain.Machine
import Mathlib.Algebra.BigOperators.Group.Finset.Basic

namespace HieraChain.DagTransfer

open HieraChain.BigEndian HieraChain.Footprint

variable {x : Context} {t t' : Rows} {user : Bytes} {amount : U256} {origin : Nat}

/-! ### Balances -/

/-- The number that the user's row shows: zero without a row, nothing where the
    text is no number. -/
def balanceOf (x : Context) (rows : List Row) : Option Nat :=
  ((shown x rows).getD (some 0)).map BitVec.toNat

theorem balanceOf_nil : balanceOf x [] = some 0 := rfl

theorem balanceOf_of_shown {rows : List Row} {balance : U256} (h : shown x rows = some (some balance)) :
    balanceOf x rows = some balance.toNat := by
  rw [balanceOf, h]
  rfl

/-- The sum of the balances of some users; a text that is no number counts for nothing. -/
def total (x : Context) (t : Rows) (users : Finset Bytes) : Nat := ∑ u ∈ users, (balanceOf x (t u)).getD 0

def OneRow (t : Rows) : Prop := ∀ user, (t user).length ≤ 1

def Credited (x : Context) (t t' : Rows) (user : Bytes) (amount : Nat) : Prop :=
  ∃ v, balanceOf x (t user) = some v ∧ balanceOf x (t' user) = some (v + amount)

def Debited (x : Context) (t t' : Rows) (user : Bytes) (amount : Nat) : Prop :=
  ∃ v, balanceOf x (t user) = some (v + amount) ∧ balanceOf x (t' user) = some v

def returnCode (a : Output) : Option U256 := a.bind List.head?

/-- What a call leaves: an answer with another code leaves the table alone, and
    the code zero is given for exactly the change that was asked for. -/
structure Exact (x : Context) (t : Rows) (param : Param) (a : Output) (t' : Rows) : Prop where
  failed : returnCode a ≠ some 0 → t' = t
  saved : ∀ user amount, param = .userSave user amount → returnCode a = some 0 →
    Credited x t t' user amount.toNat ∧ ∀ u, u ≠ user → t' u = t u
  drawn : ∀ user amount, param = .userDraw user amount → returnCode a = some 0 →
    Debited x t t' user amount.toNat ∧ ∀ u, u ≠ user → t' u = t u
  transferred : ∀ fromUser toUser amount, param = .userTransfer fromUser toUser amount → fromUser ≠ toUser →
    returnCode a = some 0 →
      Debited x t t' fromUser amount.toNat ∧ Credited x t t' toUser amount.toNat
        ∧ (∀ u, u ≠ fromUser → u ≠ toUser → t' u = t u)
        ∧ ∀ users : Finset Bytes, fromUser ∈ users → toUser ∈ users → total x t' users = total x t users
  oneRow : OneRow t → OneRow t'

/-! ### What a call writes -/

def Refused (t : Rows) (r : Output × Rows) : Prop := returnCode r.1 ≠ some 0 ∧ r.2 = t

theorem refused_code {ret : Int} (h : BitVec.ofInt 256 ret ≠ 0) : Refused t (abiIn ret, t) := by
  refine ⟨?_, rfl⟩
  intro heq
  exact h (Option.some.inj heq)

theorem refused_exception : Refused t (none, t) := by
  refine ⟨?_, rfl⟩
  intro h
  cases h

theorem add_toNat {balance : U256} (h : ¬ balance + amount < balance) :
    (balance + amount).toNat = balance.toNat + amount.toNat := by
  bv_omega

theorem sub_toNat {balance : U256} (h : ¬ balance < amount) :
    balance.toNat = (balance - amount).toNat + amount.toNat := by
  bv_omega

theorem shown_cons (row : Row) (rows : List Row) :
    shown x (row :: rows) = some (x.text.parse row.user_balance) := rfl

structure Replaced (x : Context) (t : Rows) (user : Bytes) (r : Output × Rows) (v v' : Nat) : Prop where
  eq : ∃ rows, r = (abiIn 0, Function.update t user rows) ∧ balanceOf x rows = some v'
    ∧ ((t user).length ≤ 1 → rows.length ≤ 1)
  before : balanceOf x (t user) = some v

theorem replaced_inserted (hrows : t user = []) :
    Replaced x t user (abiIn 0, writeAll [inserted user ⟨user, x.text.str amount⟩ (t user)] t) 0 amount.toNat where
  eq := by
    refine ⟨[⟨user, x.text.str amount⟩], ?_, balanceOf_of_shown (shown_inserted amount), fun _ => Nat.le_refl 1⟩
    rw [hrows]
    rfl
  before := by rw [hrows, balanceOf_nil]

theorem replaced_updated {balance : U256} (hshown : shown x (t user) = some (some balance)) (new : U256) :
    Replaced x t user (abiIn 0, writeAll [updated user (x.text.str new) (t user)] t) balance.toNat new.toNat where
  eq := by
    have hnew : shown x (updated user (x.text.str new) (t user)).2 = some (some new) :=
      shown_updated new (by rw [hshown]; exact Option.some_ne_none _)
    refine ⟨_, rfl, balanceOf_of_shown hnew, fun hlen => ?_⟩
    rw [updated, List.length_map]
    exact hlen
  before := balanceOf_of_shown hshown

theorem userAdd_cases (hallowed : checkAuthority x origin = true) :
    Refused t (userAddCall x t user amount origin)
      ∨ Replaced x t user (userAddCall x t user amount origin) 0 amount.toNat := by
  rw [userAddCall]
  by_cases hname : invalidUserName user = true
  · rw [if_pos hname]
    exact .inl (refused_code (by decide))
  rw [if_neg hname, select]
  cases hrows : t user with
  | cons row rows => exact .inl (refused_code (by decide))
  | nil =>
    right
    simp only [insert_answers, if_pos hallowed]
    exact replaced_inserted hrows

theorem userSave_cases (hallowed : checkAuthority x origin = true) :
    Refused t (userSaveCall x t user amount origin)
      ∨ ∃ v, Replaced x t user (userSaveCall x t user amount origin) v (v + amount.toNat) := by
  rw [userSaveCall]
  by_cases hname : invalidUserName user = true
  · rw [if_pos hname]
    exact .inl (refused_code (by decide))
  rw [if_neg hname]
  by_cases hamount : 0 = amount
  · rw [if_pos hamount]
    exact .inl (refused_code (by decide))
  rw [if_neg hamount, select]
  cases hrows : t user with
  | nil =>
    refine .inr ⟨0, ?_⟩
    simp only [insert_answers, if_pos hallowed, Nat.zero_add]
    exact replaced_inserted hrows
  | cons row rows =>
    dsimp only
    cases hparse : x.text.parse row.user_balance with
    | none => exact .inl refused_exception
    | some balance =>
      dsimp only
      by_cases hover : balance + amount < balance
      · rw [if_pos hover]
        exact .inl (refused_code (by decide))
      rw [if_neg hover]
      refine .inr ⟨balance.toNat, ?_⟩
      simp only [update_answers, if_pos hallowed, ← add_toNat hover]
      exact replaced_updated (by rw [hrows, shown_cons, hparse]) _

theorem userDraw_cases (hallowed : checkAuthority x origin = true) :
    Refused t (userDrawCall x t user amount origin)
      ∨ ∃ v, Replaced x t user (userDrawCall x t user amount origin) (v + amount.toNat) v := by
  rw [userDrawCall]
  by_cases hname : invalidUserName user = true
  · rw [if_pos hname]
    exact .inl (refused_code (by decide))
  rw [if_neg hname]
  by_cases hamount : amount = 0
  · rw [if_pos hamount]
    exact .inl (refused_code (by decide))
  rw [if_neg hamount, select]
  cases hrows : t user with
  | nil => exact .inl (refused_code (by decide))
  | cons row rows =>
    dsimp only
    cases hparse : x.text.parse row.user_balance with
    | none => exact .inl refused_exception
    | some balance =>
      dsimp only
      by_cases hless : balance < amount
      · rw [if_pos hless]
        exact .inl (refused_code (by decide))
      rw [if_neg hless]
      refine .inr ⟨(balance - amount).toNat, ?_⟩
      simp only [update_answers, if_pos hallowed, ← sub_toNat hless]
      exact replaced_updated (by rw [hrows, shown_cons, hparse]) _

/-- The call answers zero after it has replaced the rows of the two users. -/
structure Moved (x : Context) (t : Rows) (fromUser toUser : Bytes) (r : Output × Rows) (amount : Nat) : Prop where
  eq : ∃ rows rows' v w, r = (abiIn 0, writeAll [(fromUser, rows), (toUser, rows')] t)
    ∧ balanceOf x (t fromUser) = some (v + amount) ∧ balanceOf x rows = some v
    ∧ balanceOf x (t toUser) = some w ∧ balanceOf x rows' = some (w + amount)
    ∧ ((t fromUser).length ≤ 1 → rows.length ≤ 1) ∧ ((t toUser).length ≤ 1 → rows'.length ≤ 1)

theorem userTransfer_cases (hallowed : checkAuthority x origin = true) {fromUser toUser : Bytes}
    (hne : fromUser ≠ toUser) :
    Refused t (userTransferCall x t fromUser toUser amount origin)
      ∨ Moved x t fromUser toUser (userTransferCall x t fromUser toUser amount origin) amount.toNat := by
  rw [userTransferCall]
  by_cases hnames : (invalidUserName fromUser || invalidUserName toUser) = true
  · rw [if_pos hnames]
    exact .inl (refused_code (by decide))
  rw [if_neg hnames]
  by_cases hamount : amount = 0
  · rw [if_pos hamount]
    exact .inl (refused_code (by decide))
  rw [if_neg hamount, if_neg hne, select]
  cases hfrom : t fromUser with
  | nil => exact .inl (refused_code (by decide))
  | cons row rows =>
  dsimp only
  cases hparse : x.text.parse row.user_balance with
  | none => exact .inl refused_exception
  | some fromUserBalance =>
  dsimp only
  by_cases hless : fromUserBalance < amount
  · rw [if_pos hless]
    exact .inl (refused_code (by decide))
  rw [if_neg hless, select]
  have hshown : shown x (t fromUser) = some (some fromUserBalance) := by rw [hfrom, shown_cons, hparse]
  -- what becomes of the sender, whoever the receiver is
  have hsender : balanceOf x (t fromUser) = some ((fromUserBalance - amount).toNat + amount.toNat) := by
    rw [balanceOf_of_shown hshown, ← sub_toNat hless]
  have hsent : balanceOf x (updated fromUser (x.text.str (fromUserBalance - amount)) (t fromUser)).2
      = some (fromUserBalance - amount).toNat :=
    balanceOf_of_shown (shown_updated _ (by rw [hshown]; exact Option.some_ne_none _))
  have hlen : (t fromUser).length ≤ 1
      → (updated fromUser (x.text.str (fromUserBalance - amount)) (t fromUser)).2.length ≤ 1 := by
    intro h
    rw [updated, List.length_map]
    exact h
  cases hto : t toUser with
  | nil =>
    have hinsert : insert x t toUser ⟨toUser, x.text.str 0⟩ origin
        = (1, writeAll [inserted toUser ⟨toUser, x.text.str 0⟩ (t toUser)] t) := by rw [insert_eq, if_pos hallowed]
    have hone : ¬ (1 : Int) = Storage.CODE_NO_AUTHORIZED := by decide
    right
    simp only [hinsert, if_neg hone, transfer_inserted hne hto hallowed]
    refine ⟨_, _, _, 0, rfl, hsender, hsent, by rw [hto, balanceOf_nil], ?_, hlen, fun _ => Nat.le_refl 1⟩
    have hzero : (0 : U256) + amount = amount := BitVec.zero_add amount
    rw [balanceOf_of_shown (shown_inserted _), hzero, Nat.zero_add]
  | cons toRow toRows =>
    dsimp only
    cases htoParse : x.text.parse toRow.user_balance with
    | none => exact .inl refused_exception
    | some toUserBalance =>
      dsimp only
      have htoShown : shown x (t toUser) = some (some toUserBalance) := by rw [hto, shown_cons, htoParse]
      rw [transfer_eq hne]
      by_cases hover : toUserBalance + amount < toUserBalance
      · rw [if_pos hover]
        exact .inl (refused_code (by decide))
      rw [if_neg hover, if_pos hallowed]
      have hreceived : balanceOf x (updated toUser (x.text.str (toUserBalance + amount)) (t toUser)).2
          = some (toUserBalance.toNat + amount.toNat) := by
        rw [balanceOf_of_shown (shown_updated _ (by rw [htoShown]; exact Option.some_ne_none _)), add_toNat hover]
      have hlen' : (t toUser).length ≤ 1
          → (updated toUser (x.text.str (toUserBalance + amount)) (t toUser)).2.length ≤ 1 := by
        intro h
        rw [updated, List.length_map]
        exact h
      exact .inr ⟨_, _, _, _, rfl, hsender, hsent, balanceOf_of_shown htoShown, hreceived, hlen, hlen'⟩

/-! ### Every call is exact -/

section Exact

variable {param : Param} {r : Output × Rows}

theorem Refused.exact (h : Refused t r) : Exact x t param r.1 r.2 where
  failed _ := h.2
  saved _ _ _ hcode := absurd hcode h.1
  drawn _ _ _ hcode := absurd hcode h.1
  transferred _ _ _ _ _ hcode := absurd hcode h.1
  oneRow hone := by rw [h.2]; exact hone

theorem Replaced.oneRow {v v' : Nat} (h : Replaced x t user r v v') (hone : OneRow t) : OneRow r.2 := by
  obtain ⟨rows, rfl, -, hlen⟩ := h.eq
  intro u
  by_cases hu : u = user
  · subst hu
    change (Function.update t u rows u).length ≤ 1
    rw [Function.update_self]
    exact hlen (hone u)
  · change (Function.update t user rows u).length ≤ 1
    rw [Function.update_of_ne hu]
    exact hone u

theorem Replaced.code {v v' : Nat} (h : Replaced x t user r v v') : returnCode r.1 = some 0 := by
  obtain ⟨rows, rfl, -⟩ := h.eq
  rfl

theorem Replaced.others {v v' : Nat} (h : Replaced x t user r v v') : ∀ u, u ≠ user → r.2 u = t u := by
  obtain ⟨rows, rfl, -⟩ := h.eq
  intro u hu
  exact Function.update_of_ne hu rows t

theorem Replaced.after {v v' : Nat} (h : Replaced x t user r v v') : balanceOf x (r.2 user) = some v' := by
  obtain ⟨rows, rfl, hbalance, -⟩ := h.eq
  change balanceOf x (Function.update t user rows user) = _
  rw [Function.update_self]
  exact hbalance

theorem Moved.code {fromUser toUser : Bytes} {a : Nat} (h : Moved x t fromUser toUser r a) :
    returnCode r.1 = some 0 := by
  obtain ⟨_, _, _, _, rfl, -⟩ := h.eq
  rfl

theorem Moved.after {fromUser toUser : Bytes} {a : Nat} (h : Moved x t fromUser toUser r a) (hne : fromUser ≠ toUser) :
    Debited x t r.2 fromUser a ∧ Credited x t r.2 toUser a ∧ (∀ u, u ≠ fromUser → u ≠ toUser → r.2 u = t u)
      ∧ (OneRow t → OneRow r.2) := by
  obtain ⟨rows, rows', v, w, rfl, hfrom, hrows, hto, hrows', hlen, hlen'⟩ := h.eq
  dsimp only
  have hwrite : ∀ u, writeAll [(fromUser, rows), (toUser, rows')] t u
      = if u = toUser then rows' else if u = fromUser then rows else t u := by
    intro u
    simp only [writeAll_cons, writeAll_nil, Function.update_apply]
  refine ⟨⟨v, hfrom, ?_⟩, ⟨w, hto, ?_⟩, fun u hu hu' => ?_, fun hone u => ?_⟩
  · rw [hwrite, if_neg hne, if_pos rfl]
    exact hrows
  · rw [hwrite, if_pos rfl]
    exact hrows'
  · rw [hwrite, if_neg hu', if_neg hu]
  · rw [hwrite]
    split
    · exact hlen' (hone _)
    · split
      · exact hlen (hone _)
      · exact hone u

theorem exact_of_unchanged {a : Output} (hsame : t' = t) (hsave : ∀ user amount, param ≠ .userSave user amount)
    (hdraw : ∀ user amount, param ≠ .userDraw user amount)
    (htransfer : ∀ fromUser toUser amount, param = .userTransfer fromUser toUser amount → fromUser = toUser) :
    Exact x t param a t' where
  failed _ := hsame
  saved user amount h := absurd h (hsave user amount)
  drawn user amount h := absurd h (hdraw user amount)
  transferred fromUser toUser amount h hne := absurd (htransfer fromUser toUser amount h) hne
  oneRow hone := by rw [hsame]; exact hone

theorem transfer_self {fromUser toUser : Bytes} (h : fromUser = toUser) (amount : U256) :
    (userTransferCall x t fromUser toUser amount origin).2 = t := by
  rw [userTransferCall, if_pos h]
  split
  · rfl
  · split
    · rfl
    · rfl

theorem userBalance_reads : (userBalanceCall x t user).2 = t := by
  by_cases hname : invalidUserName user = true
  · simp only [userBalanceCall, if_pos hname]
  · rw [userBalance_eq (by simpa using hname)]

theorem total_of_moved {fromUser toUser : Bytes} {a : Nat} (hne : fromUser ≠ toUser) (hdebit : Debited x t t' fromUser a)
    (hcredit : Credited x t t' toUser a) (hothers : ∀ u, u ≠ fromUser → u ≠ toUser → t' u = t u)
    {users : Finset Bytes} (hfrom : fromUser ∈ users) (hto : toUser ∈ users) : total x t' users = total x t users := by
  obtain ⟨v, hbefore, hafter⟩ := hdebit
  obtain ⟨w, htoBefore, htoAfter⟩ := hcredit
  have hto' : toUser ∈ users.erase fromUser := Finset.mem_erase.mpr ⟨hne.symm, hto⟩
  have hsplit : ∀ t : Rows, total x t users
      = (balanceOf x (t fromUser)).getD 0 + ((balanceOf x (t toUser)).getD 0
        + total x t ((users.erase fromUser).erase toUser)) := by
    intro t
    rw [total, ← Finset.add_sum_erase _ _ hfrom, ← Finset.add_sum_erase _ _ hto']
    rfl
  have hrest : total x t' ((users.erase fromUser).erase toUser) = total x t ((users.erase fromUser).erase toUser) := by
    refine Finset.sum_congr rfl fun u hu => ?_
    obtain ⟨huTo, hu⟩ := Finset.mem_erase.mp hu
    rw [hothers u (Finset.ne_of_mem_erase hu) huTo]
  rw [hsplit t', hsplit t, hrest, hbefore, hafter, htoBefore, htoAfter]
  simp only [Option.getD_some]
  omega

/-- **A call by an authorised origin is exact.** -/
theorem call_exact (x : Context) (param : Param) {origin : Nat} (hallowed : checkAuthority x origin = true) (t : Rows) :
    Exact x t param (call x param origin t).1 (call x param origin t).2 := by
  cases param with
  | userAdd user amount =>
    rcases @userAdd_cases x t user amount origin hallowed with hrefused | hreplaced
    · exact hrefused.exact
    · exact {
        failed := fun hcode => absurd hreplaced.code hcode
        saved := fun _ _ h => by cases h
        drawn := fun _ _ h => by cases h
        transferred := fun _ _ _ h => by cases h
        oneRow := hreplaced.oneRow }
  | userSave user amount =>
    rcases @userSave_cases x t user amount origin hallowed with hrefused | ⟨v, hreplaced⟩
    · exact hrefused.exact
    · exact {
        failed := fun hcode => absurd hreplaced.code hcode
        saved := fun _ _ h _ => by
          cases h
          exact ⟨⟨v, hreplaced.before, hreplaced.after⟩, hreplaced.others⟩
        drawn := fun _ _ h => by cases h
        transferred := fun _ _ _ h => by cases h
        oneRow := hreplaced.oneRow }
  | userDraw user amount =>
    rcases @userDraw_cases x t user amount origin hallowed with hrefused | ⟨v, hreplaced⟩
    · exact hrefused.exact
    · exact {
        failed := fun hcode => absurd hreplaced.code hcode
        saved := fun _ _ h => by cases h
        drawn := fun _ _ h _ => by
          cases h
          exact ⟨⟨v, hreplaced.before, hreplaced.after⟩, hreplaced.others⟩
        transferred := fun _ _ _ h => by cases h
        oneRow := hreplaced.oneRow }
  | userTransfer fromUser toUser amount =>
    by_cases hne : fromUser = toUser
    · refine exact_of_unchanged (transfer_self hne amount) (fun _ _ h => by cases h) (fun _ _ h => by cases h) ?_
      intro _ _ _ h
      cases h
      exact hne
    rcases @userTransfer_cases x t amount origin hallowed fromUser toUser hne with hrefused | hmoved
    · exact hrefused.exact
    · obtain ⟨hdebit, hcredit, hothers, hone⟩ := hmoved.after hne
      exact {
        failed := fun hcode => absurd hmoved.code hcode
        saved := fun _ _ h => by cases h
        drawn := fun _ _ h => by cases h
        transferred := fun _ _ _ h _ _ => by
          cases h
          exact ⟨hdebit, hcredit, hothers, fun _ hfrom hto => total_of_moved hne hdebit hcredit hothers hfrom hto⟩
        oneRow := hone }
  | userBalance user =>
    exact exact_of_unchanged userBalance_reads (fun _ _ h => by cases h) (fun _ _ h => by cases h)
      fun _ _ _ h => by cases h
  | other =>
    exact exact_of_unchanged rfl (fun _ _ h => by cases h) (fun _ _ h => by cases h) fun _ _ _ h => by cases h

end Exact

/-! ### Sequences of calls -/

structure Call where
  param : Param
  origin : Nat

def table (x : Context) : Machine Rows Call where
  step t c := (call x c.param c.origin t).2

/-- The call is exact in the table it finds, which has one row for a user at most. -/
def ExactAt (x : Context) (t : Rows) (c : Call) : Prop :=
  OneRow t ∧ Exact x t c.param (call x c.param c.origin t).1 ((table x).step t c)

/-- **The books are kept.**  From every table with at most one row for a user, every
    sequence of calls by authorised origins is exact call by call. -/
theorem calls_exact (x : Context) (t : Rows) (hone : OneRow t) (calls : List Call)
    (hallowed : ∀ c ∈ calls, checkAuthority x c.origin = true) : (table x).RunOk (ExactAt x) t calls := by
  induction calls generalizing t with
  | nil => trivial
  | cons c calls ih =>
    have hexact := call_exact x c.param (hallowed c List.mem_cons_self) t
    exact ⟨⟨hone, hexact⟩, ih _ (hexact.oneRow hone) fun c' hc' => hallowed c' (List.mem_cons_of_mem _ hc')⟩

/-- A new user, and a transfer to another new user. -/
theorem calls_exact_small :
    (table { text := decimalText }).RunOk (ExactAt { text := decimalText }) (fun _ => [])
      [⟨.userSave [97] 5, 1⟩, ⟨.userTransfer [97] [98] 3, 1⟩, ⟨.userDraw [98] 7, 2⟩] :=
  calls_exact { text := decimalText } (fun _ => []) (fun _ => Nat.zero_le 1) _ (by decide)

end HieraChain.DagTransfer
