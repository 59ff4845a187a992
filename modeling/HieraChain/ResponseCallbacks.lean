/-
  HieraChain/ResponseCallbacks.lean
  =================================
  **Callbacks of sent messages** (`libnetwork/Session.cpp`, `asyncSendMessage`,
  `onMessage`, `onTimeout`, `drop`; `libp2p/Service.cpp`,
  `asyncSendMessageByNodeID`, `onLocalAMOPMessage`).

  A message with a callback is registered under its sequence number.  Its
  response, its timer and the drop of the session look the callback up and queue
  its invocation; response and timer remove the entry only after the invocation.
  Every step below is one that a thread takes without the others seeing its
  middle, and the steps of all threads interleave freely.

  A call to a peer without a session, or to the node itself other than with an
  AMOP request, is never answered.  An entry whose invocation is queued is found
  again by the next response, timer or drop.  A timer that runs before its
  callback is registered finds nothing, and neither does a drop.  `StepOk`
  excludes these; then every callback is invoked at most once, and once when it
  was answered (`callback_once`).
-/
import Mathlib.Data.List.Nodup
import Mathlib.Logic.Function.Basic
import HieraChain.Machine

namespace HieraChain.Callbacks

/-! ### Calls -/

/-- A `deadline_timer`: waiting, or run out with its handler posted, or done. -/
inductive Timer
  | none
  | armed
  | posted
  | over
  deriving DecidableEq, Repr

def Timer.cancel : Timer → Timer
  | .armed => .over
  | t => t

def Timer.Live (t : Timer) : Prop := t = .armed ∨ t = .posted

/-- How far `asyncSendMessage` is with a call. -/
inductive Place
  | checking
  | arming
  | adding
  | returned
  deriving DecidableEq, Repr

/-- What `asyncSendMessageByNodeID` finds: no running session of the peer, one, or
    that the peer is the node itself. -/
inductive Route
  | absent
  | found
  | self (amop request : Bool)
  deriving DecidableEq, Repr

/-- A call with a callback.  `ended` says that its response, its timeout or the
    drop of the session has been processed, or that it was refused. -/
structure Call where
  seq : BitVec 32 := 0
  timeout : Bool := false
  place : Place := .returned
  isLocal : Bool := false
  timer : Timer := .none
  invoked : Nat := 0
  ended : Bool := false

/-- A queued invocation, and the sequence number that is removed after it. -/
structure Task where
  call : Nat
  removes : Option (BitVec 32)
  deriving DecidableEq, Repr

/-- A session of a peer with what the service has beside it.  `seq` is the factory's
    last sequence number, `removals` are the entries that invocations are about to
    remove. -/
structure Service where
  actived : Bool := false
  seq2Callback : BitVec 32 → Option Nat := fun _ => none
  localAMOPCallbacks : BitVec 32 → Option Nat := fun _ => none
  seq : BitVec 32 := 1
  count : Nat := 0
  calls : Nat → Call := fun _ => {}
  tasks : List Task := []
  removals : List (BitVec 32) := []

/-- `insert` of a map keeps what is there. -/
def insert (table : BitVec 32 → Option Nat) (seq : BitVec 32) (k : Nat) : BitVec 32 → Option Nat :=
  if table seq = none then Function.update table seq (some k) else table

def erase (table : BitVec 32 → Option Nat) (seq : BitVec 32) : BitVec 32 → Option Nat :=
  Function.update table seq none

namespace Service

def push (s : Service) (c : Call) : Service :=
  { s with count := s.count + 1, calls := Function.update s.calls s.count c }

def modify (s : Service) (k : Nat) (f : Call → Call) : Service :=
  { s with calls := Function.update s.calls k (f (s.calls k)) }

def enqueue (s : Service) (k : Nat) (removes : Option (BitVec 32)) : Service :=
  { s with tasks := s.tasks ++ [⟨k, removes⟩] }

/-- `onLocalAMOPMessage` with a response. -/
def localResponse (s : Service) (seq : BitVec 32) : Service :=
  match s.localAMOPCallbacks seq with
  | none => s
  | some k =>
    { (s.modify k fun c => { c with timer := c.timer.cancel, ended := true }).enqueue k none with
      localAMOPCallbacks := erase s.localAMOPCallbacks seq }

def asyncSendMessageByNodeID (s : Service) (seq : BitVec 32) (timeout : Bool) : Route → Service
  | .absent => s.push { seq, timeout }
  | .self false _ => s.push { seq, timeout }
  | .self true false => (s.push { seq, timeout }).localResponse seq
  | .self true true =>
    -- the request itself is given to `onMessage` without a session, which leaves it
    { s.push { seq, timeout, isLocal := true, timer := if timeout then .armed else .none } with
      localAMOPCallbacks := insert s.localAMOPCallbacks seq s.count }
  | .found =>
    let seq' := if seq = 0 then s.seq + 1 else seq
    { s.push { seq := seq', timeout, place := .checking } with seq := if seq = 0 then s.seq + 1 else s.seq }

/-- `if (!actived())`; `usable`: the host has network and the socket is connected. -/
def check (s : Service) (k : Nat) (usable : Bool) : Service :=
  if (s.calls k).place = .checking then
    if s.actived && usable then
      s.modify k fun c => { c with place := if c.timeout then .arming else .adding }
    else (s.modify k fun c => { c with place := .returned, ended := true }).enqueue k none
  else s

def arm (s : Service) (k : Nat) : Service :=
  if (s.calls k).place = .arming then s.modify k fun c => { c with place := .adding, timer := .armed } else s

def addSeqCallback (s : Service) (k : Nat) : Service :=
  if (s.calls k).place = .adding then
    { s.modify k fun c => { c with place := .returned } with
      seq2Callback := insert s.seq2Callback (s.calls k).seq k }
  else s

/-- `onMessage` with a response. -/
def response (s : Service) (seq : BitVec 32) : Service :=
  if s.actived then
    match s.seq2Callback seq with
    | none => s
    | some k => (s.modify k fun c => { c with timer := c.timer.cancel, ended := true }).enqueue k (some seq)
  else s

def expire (s : Service) (k : Nat) : Service :=
  if (s.calls k).timer = .armed then s.modify k fun c => { c with timer := .posted } else s

/-- The handler of the timer: `onTimeout`, or that of a local message. -/
def onTimeout (s : Service) (k : Nat) : Service :=
  if (s.calls k).timer = .posted then
    let s' := s.modify k fun c => { c with timer := .over, ended := true }
    let seq := (s.calls k).seq
    if (s.calls k).isLocal then
      match s.localAMOPCallbacks seq with
      | none => s'
      | some k' =>
        { (s'.modify k' fun c => { c with ended := true }).enqueue k' none with
          localAMOPCallbacks := erase s.localAMOPCallbacks seq }
    else
      match s.seq2Callback seq with
      | none => s'
      | some k' => (s'.modify k' fun c => { c with ended := true }).enqueue k' (some seq)
  else s

def InTable (s : Service) (k : Nat) : Prop := s.seq2Callback (s.calls k).seq = some k

def InLocal (s : Service) (k : Nat) : Prop := s.localAMOPCallbacks (s.calls k).seq = some k

instance (s : Service) (k : Nat) : Decidable (s.InTable k) := inferInstanceAs (Decidable (_ = _))

instance (s : Service) (k : Nat) : Decidable (s.InLocal k) := inferInstanceAs (Decidable (_ = _))

def drop (s : Service) : Service :=
  if s.actived then
    { s with
      actived := false
      seq2Callback := fun _ => none
      calls := fun k =>
        if s.InTable k then { s.calls k with timer := (s.calls k).timer.cancel, ended := true } else s.calls k
      tasks := s.tasks ++ ((List.range s.count).filter fun k => s.InTable k).map fun k => ⟨k, none⟩ }
  else s

def invoke (s : Service) (t : Task) : Service :=
  if t ∈ s.tasks then
    { s.modify t.call fun c => { c with invoked := c.invoked + 1 } with
      tasks := s.tasks.erase t
      removals := s.removals ++ t.removes.toList }
  else s

/-- `removeSeqCallback` after the invocation. -/
def removeSeqCallback (s : Service) (seq : BitVec 32) : Service :=
  if seq ∈ s.removals then
    { s with removals := s.removals.erase seq, seq2Callback := erase s.seq2Callback seq }
  else s

end Service

inductive Input
  | start
  | drop
  | call (seq : BitVec 32) (timeout : Bool) (route : Route)
  | check (k : Nat) (usable : Bool)
  | arm (k : Nat)
  | addSeqCallback (k : Nat)
  | response (seq : BitVec 32)
  | localResponse (seq : BitVec 32)
  | expire (k : Nat)
  | onTimeout (k : Nat)
  | invoke (t : Task)
  | removeSeqCallback (seq : BitVec 32)

def service : Machine Service Input where
  step s
    | .start => { s with actived := true }
    | .drop => s.drop
    | .call seq timeout route => s.asyncSendMessageByNodeID seq timeout route
    | .check k usable => s.check k usable
    | .arm k => s.arm k
    | .addSeqCallback k => s.addSeqCallback k
    | .response seq => s.response seq
    | .localResponse seq => s.localResponse seq
    | .expire k => s.expire k
    | .onTimeout k => s.onTimeout k
    | .invoke t => s.invoke t
    | .removeSeqCallback seq => s.removeSeqCallback seq

/-! ### The property and the condition -/

def tasksOf (s : Service) (k : Nat) : Nat := s.tasks.countP fun t => t.call = k

def answers (s : Service) (k : Nat) : Nat := (s.calls k).invoked + tasksOf s k

/-- The callback is registered where a response finds it, in a session that is
    active or in the table of local messages, and its timer still runs. -/
def Waiting (s : Service) (k : Nat) : Prop :=
  (s.InTable k ∧ s.actived = true ∨ s.InLocal k) ∧ ((s.calls k).timeout = true → (s.calls k).timer.Live)

/-- The callback is invoked at most once; once it is answered and no invocation is
    queued, it has been invoked; and a call that has returned is answered or waits
    for its answer. -/
structure Once (s : Service) (k : Nat) : Prop where
  le_one : (s.calls k).invoked ≤ 1
  answered : (s.calls k).ended = true → tasksOf s k = 0 → (s.calls k).invoked = 1
  kept : (s.calls k).place = .returned → (s.calls k).invoked + tasksOf s k = 1 ∨ Waiting s k

/-- The condition on a step: a call finds a session, or is an AMOP request to the
    node itself under a new sequence number; a callback is registered under a new
    sequence number while the session is active; a timer runs after that; and
    response, timer and drop meet no entry that is answered already. -/
def StepOk (s : Service) : Input → Prop
  | .call seq _ route => route = .found ∨ route = .self true true ∧ s.localAMOPCallbacks seq = none
  | .addSeqCallback k => (s.calls k).place = .adding →
    s.actived = true ∧ s.seq2Callback (s.calls k).seq = none
  | .response seq => s.actived = true → ∀ k, s.seq2Callback seq = some k → answers s k = 0
  | .onTimeout k => (s.calls k).timer = .posted →
    (s.calls k).place = .returned ∧
      ((s.calls k).isLocal = false → ∀ k', s.seq2Callback (s.calls k).seq = some k' → answers s k' = 0)
  | .drop => s.actived = true → ∀ k < s.count, s.InTable k → answers s k = 0
  | _ => True

/-! ### Invariant -/

/-- What holds of one call: before its registration it is untouched; in a table it
    is waiting or, in that of the session, answered once; afterwards it is
    answered once. -/
structure CallOk (s : Service) (k : Nat) : Prop where
  early : (s.calls k).place ≠ .returned →
    answers s k = 0 ∧ (s.calls k).ended = false ∧ (s.calls k).isLocal = false ∧ ¬ s.InTable k ∧ ¬ s.InLocal k
  armed : (s.calls k).place = .adding → (s.calls k).timeout = true → (s.calls k).timer.Live
  table : s.InTable k → (s.calls k).isLocal = false ∧ s.actived = true ∧ answers s k ≤ 1 ∧
    (answers s k = 0 → (s.calls k).ended = false ∧ ((s.calls k).timeout = true → (s.calls k).timer.Live))
  «local» : s.InLocal k → (s.calls k).isLocal = true ∧ answers s k = 0 ∧ (s.calls k).ended = false ∧
    ((s.calls k).timeout = true → (s.calls k).timer.Live)
  rest : (s.calls k).place = .returned → ¬ s.InTable k → ¬ s.InLocal k → answers s k = 1

structure Inv (s : Service) : Prop where
  calls : ∀ k < s.count, CallOk s k
  fresh : ∀ k, s.count ≤ k → s.calls k = {}
  table : ∀ q k, s.seq2Callback q = some k → k < s.count ∧ (s.calls k).seq = q
  localTable : ∀ q k, s.localAMOPCallbacks q = some k → k < s.count ∧ (s.calls k).seq = q
  tasks : ∀ t ∈ s.tasks, t.call < s.count ∧ ∀ q, t.removes = some q ↔ s.seq2Callback q = some t.call
  removals : ∀ q, s.removals.count q = match s.seq2Callback q with
    | none => 0
    | some k => (s.calls k).invoked

theorem CallOk.same {s s' : Service} {k : Nat} (h : CallOk s k) {n : Nat}
    (hcall : s'.calls k = { s.calls k with invoked := n }) (hactived : s'.InTable k → s'.actived = s.actived)
    (hanswers : answers s' k = answers s k) (htable : s'.InTable k ↔ s.InTable k)
    (hlocal : s'.InLocal k ↔ s.InLocal k) : CallOk s' k := by
  refine ⟨?_, ?_, ?_, ?_, ?_⟩
  · rw [hcall, hanswers, htable, hlocal]
    exact h.early
  · rw [hcall]
    exact h.armed
  · intro hin
    rw [hcall, hanswers, hactived hin]
    exact h.table (htable.mp hin)
  · intro hin
    rw [hcall, hanswers]
    exact h.local (hlocal.mp hin)
  · rw [hcall, hanswers, htable, hlocal]
    exact h.rest

theorem CallOk.frame {s s' : Service} {k : Nat} (h : CallOk s k) (hcall : s'.calls k = s.calls k)
    (hactived : s'.InTable k → s'.actived = s.actived) (htasks : tasksOf s' k = tasksOf s k)
    (htable : s'.InTable k ↔ s.InTable k) (hlocal : s'.InLocal k ↔ s.InLocal k) : CallOk s' k :=
  h.same (n := (s.calls k).invoked) hcall hactived (by rw [answers, answers, hcall, htasks]) htable hlocal

theorem CallOk.once {s : Service} {k : Nat} (h : CallOk s k) : Once s k := by
  by_cases hplace : (s.calls k).place = .returned
  · by_cases htable : s.InTable k
    · obtain ⟨-, hactived, hle, hzero⟩ := h.table htable
      refine ⟨Nat.le_of_add_right_le hle, ?_, ?_⟩
      · intro hended htasks
        have hne : answers s k ≠ 0 := fun hz => by simp [(hzero hz).1] at hended
        simp only [answers] at hle hne
        omega
      · intro _
        rcases Nat.eq_zero_or_pos (answers s k) with hz | hpos
        · exact .inr ⟨.inl ⟨htable, hactived⟩, (hzero hz).2⟩
        · exact .inl (Nat.le_antisymm hle hpos)
    · by_cases hlocal : s.InLocal k
      · obtain ⟨-, hzero, hended, hlive⟩ := h.local hlocal
        simp only [answers] at hzero
        refine ⟨by omega, fun hended' => ?_, fun _ => .inr ⟨.inr hlocal, hlive⟩⟩
        rw [hended] at hended'
        cases hended'
      · have hone := h.rest hplace htable hlocal
        simp only [answers] at hone
        exact ⟨by omega, fun _ htasks => by omega, fun _ => .inl hone⟩
  · obtain ⟨hzero, hended, -⟩ := h.early hplace
    simp only [answers] at hzero
    refine ⟨by omega, fun hended' => ?_, fun hplace' => absurd hplace' hplace⟩
    rw [hended] at hended'
    cases hended'

theorem start_inv : Inv {} where
  calls := fun _ h => absurd h (Nat.not_lt_zero _)
  fresh := fun _ _ => rfl
  table := fun _ _ h => nomatch h
  localTable := fun _ _ h => nomatch h
  tasks := fun _ h => nomatch h
  removals := fun _ => rfl

/-! ### Tables and tasks -/

section parts

variable {s : Service}

theorem tasksOf_enqueue (s : Service) (k : Nat) (r : Option (BitVec 32)) (j : Nat) :
    tasksOf (s.enqueue k r) j = tasksOf s j + if j = k then 1 else 0 := by
  simp only [tasksOf, Service.enqueue, List.countP_append, List.countP_singleton, decide_eq_true_eq]
  by_cases h : j = k
  · simp [h]
  · simp [h, Ne.symm h]

theorem insert_of_none {table : BitVec 32 → Option Nat} {seq : BitVec 32} (k : Nat) (h : table seq = none) (q : BitVec 32) :
    insert table seq k q = if q = seq then some k else table q := by
  rw [insert, if_pos h, Function.update_apply]

theorem erase_apply (table : BitVec 32 → Option Nat) (seq q : BitVec 32) :
    erase table seq q = if q = seq then none else table q := by
  rw [erase, Function.update_apply]

theorem Inv.no_task (h : Inv s) {k : Nat} (hk : s.count ≤ k) : tasksOf s k = 0 := by
  rw [tasksOf, List.countP_eq_zero]
  intro t ht
  have hlt := (h.tasks t ht).1
  simp only [decide_eq_true_eq]
  omega

theorem Inv.table_lt (h : Inv s) {q : BitVec 32} {k : Nat} (hk : s.count ≤ k) : s.seq2Callback q ≠ some k := by
  intro heq
  exact absurd (h.table q k heq).1 (Nat.not_lt.mpr hk)

theorem Inv.local_lt (h : Inv s) {q : BitVec 32} {k : Nat} (hk : s.count ≤ k) : s.localAMOPCallbacks q ≠ some k := by
  intro heq
  exact absurd (h.localTable q k heq).1 (Nat.not_lt.mpr hk)

theorem Inv.inTable (h : Inv s) {q : BitVec 32} {k : Nat} (heq : s.seq2Callback q = some k) : s.InTable k := by
  obtain ⟨-, rfl⟩ := h.table q k heq
  exact heq

theorem Inv.inLocal (h : Inv s) {q : BitVec 32} {k : Nat} (heq : s.localAMOPCallbacks q = some k) : s.InLocal k := by
  obtain ⟨-, rfl⟩ := h.localTable q k heq
  exact heq

end parts

/-! ### Steps that touch one call -/

section steps

variable {s : Service}

theorem CallOk.of_answered {k : Nat} (hplace : (s.calls k).place = .returned) (hone : answers s k = 1)
    (hlocal : ¬ s.InLocal k) (htable : s.InTable k → (s.calls k).isLocal = false ∧ s.actived = true) : CallOk s k where
  early := fun h => absurd hplace h
  armed := fun h => by
    rw [hplace] at h
    cases h
  table := fun h => ⟨(htable h).1, (htable h).2, Nat.le_of_eq hone, fun hz => by omega⟩
  «local» := fun h => absurd h hlocal
  rest := fun _ _ _ => hone

theorem Inv.touch {s' : Service} (h : Inv s) {k : Nat} (hk : k < s.count) (hcount : s'.count = s.count)
    (hcalls : ∀ j, j ≠ k → s'.calls j = s.calls j) (hseq : (s'.calls k).seq = (s.calls k).seq)
    (hinvoked : (s'.calls k).invoked = (s.calls k).invoked) (hactived : s'.actived = s.actived)
    (htable : s'.seq2Callback = s.seq2Callback)
    (hlocal : ∀ q j, j ≠ k → (s'.localAMOPCallbacks q = some j ↔ s.localAMOPCallbacks q = some j))
    (hlocalk : ∀ q, s'.localAMOPCallbacks q = some k → s.localAMOPCallbacks q = some k)
    (htasksOf : ∀ j, j ≠ k → tasksOf s' j = tasksOf s j)
    (htasks : ∀ t ∈ s'.tasks, t ∈ s.tasks ∨
      t.call = k ∧ ∀ q, t.removes = some q ↔ s.seq2Callback q = some k)
    (hremovals : s'.removals = s.removals) (hok : CallOk s' k) : Inv s' where
  calls := by
    intro j hj
    rw [hcount] at hj
    by_cases hjk : j = k
    · exact hjk ▸ hok
    · refine (h.calls j hj).frame (hcalls j hjk) (fun _ => hactived) (htasksOf j hjk) ?_ ?_
      · rw [Service.InTable, Service.InTable, htable, hcalls j hjk]
      · rw [Service.InLocal, Service.InLocal, hcalls j hjk]
        exact hlocal _ j hjk
  fresh := by
    intro j hj
    rw [hcount] at hj
    rw [hcalls j (by omega), h.fresh j hj]
  table := by
    intro q j hq
    rw [htable] at hq
    obtain ⟨hlt, hseqj⟩ := h.table q j hq
    refine ⟨hcount ▸ hlt, ?_⟩
    by_cases hjk : j = k
    · subst hjk
      rw [hseq, hseqj]
    · rw [hcalls j hjk, hseqj]
  localTable := by
    intro q j hq
    by_cases hjk : j = k
    · subst hjk
      obtain ⟨hlt, hseqj⟩ := h.localTable q j (hlocalk q hq)
      exact ⟨hcount ▸ hlt, hseq.trans hseqj⟩
    · obtain ⟨hlt, hseqj⟩ := h.localTable q j ((hlocal q j hjk).mp hq)
      exact ⟨hcount ▸ hlt, by rw [hcalls j hjk, hseqj]⟩
  tasks := by
    intro t ht
    rw [hcount, htable]
    rcases htasks t ht with hold | ⟨hcall, hremoves⟩
    · exact h.tasks t hold
    · exact ⟨hcall ▸ hk, fun q => hcall ▸ hremoves q⟩
  removals := by
    intro q
    rw [hremovals, htable, h.removals q]
    cases hq : s.seq2Callback q with
    | none => rfl
    | some j =>
      dsimp only
      by_cases hjk : j = k
      · rw [hjk, hinvoked]
      · rw [hcalls j hjk]

theorem Inv.modify (h : Inv s) {k : Nat} (hk : k < s.count) (f : Call → Call) (hseq : (f (s.calls k)).seq = (s.calls k).seq)
    (hinvoked : (f (s.calls k)).invoked = (s.calls k).invoked) (hok : CallOk (s.modify k f) k) :
    Inv (s.modify k f) := by
  have hself : (s.modify k f).calls k = f (s.calls k) := Function.update_self ..
  refine h.touch hk rfl (fun j hj => Function.update_of_ne hj ..) ?_ ?_ rfl rfl (fun _ _ _ => Iff.rfl) (fun _ => id)
    (fun _ _ => rfl) (fun t ht => .inl ht) rfl hok
  · rw [hself, hseq]
  · rw [hself, hinvoked]

theorem Inv.modify_enqueue (h : Inv s) {k : Nat} (hk : k < s.count) (f : Call → Call) (r : Option (BitVec 32))
    (hseq : (f (s.calls k)).seq = (s.calls k).seq) (hinvoked : (f (s.calls k)).invoked = (s.calls k).invoked)
    (hr : ∀ q, r = some q ↔ s.seq2Callback q = some k) (hok : CallOk ((s.modify k f).enqueue k r) k) :
    Inv ((s.modify k f).enqueue k r) := by
  have hself : ((s.modify k f).enqueue k r).calls k = f (s.calls k) := Function.update_self ..
  refine h.touch hk rfl (fun j hj => Function.update_of_ne hj ..) ?_ ?_ rfl rfl (fun _ _ _ => Iff.rfl) (fun _ => id)
    ?_ ?_ rfl hok
  · rw [hself, hseq]
  · rw [hself, hinvoked]
  · intro j hj
    rw [tasksOf_enqueue, if_neg hj, Nat.add_zero]
    rfl
  · intro t ht
    rcases List.mem_append.mp ht with hold | hnew
    · exact .inl hold
    · obtain rfl := List.mem_singleton.mp hnew
      exact .inr ⟨rfl, hr⟩

theorem answers_modify_enqueue (k : Nat) (f : Call → Call) (r : Option (BitVec 32))
    (hinvoked : (f (s.calls k)).invoked = (s.calls k).invoked) (hzero : answers s k = 0) :
    answers ((s.modify k f).enqueue k r) k = 1 := by
  have hself : ((s.modify k f).enqueue k r).calls k = f (s.calls k) := Function.update_self ..
  have htasks : tasksOf (s.modify k f) k = tasksOf s k := rfl
  simp only [answers] at hzero
  rw [answers, hself, hinvoked, tasksOf_enqueue, if_pos rfl, htasks]
  omega

theorem Inv.none_iff (h : Inv s) {k : Nat} (htable : ¬ s.InTable k) (q : BitVec 32) :
    (none : Option (BitVec 32)) = some q ↔ s.seq2Callback q = some k :=
  ⟨fun hq => (nomatch hq), fun hq => absurd (h.inTable hq) htable⟩

theorem Inv.lt_of_ne (h : Inv s) {k : Nat} (hne : (s.calls k).place ≠ .returned ∨ (s.calls k).timer ≠ .none) :
    k < s.count := by
  by_contra hge
  have hfresh := h.fresh k (Nat.le_of_not_lt hge)
  rw [hfresh] at hne
  rcases hne with hne | hne
  · exact hne rfl
  · exact hne rfl

theorem check_inv (h : Inv s) (k : Nat) (usable : Bool) : Inv (s.check k usable) := by
  unfold Service.check
  split
  · next hplace =>
    have hk : k < s.count := h.lt_of_ne (.inl (by simp [hplace]))
    obtain ⟨hzero, hended, hloc, htable, hlocal⟩ := (h.calls k hk).early (by simp [hplace])
    split
    · generalize hf : (fun c : Call => { c with place := if c.timeout then Place.arming else Place.adding }) = f
      have hself : (s.modify k f).calls k = f (s.calls k) := Function.update_self ..
      refine h.modify hk f (by rw [← hf]) (by rw [← hf]) ?_
      have hcall : (s.modify k f).calls k =
          { s.calls k with place := if (s.calls k).timeout then .arming else .adding } := by rw [hself, ← hf]
      have htable' : ¬ (s.modify k f).InTable k := by
        rw [Service.InTable, hcall]
        exact htable
      have hlocal' : ¬ (s.modify k f).InLocal k := by
        rw [Service.InLocal, hcall]
        exact hlocal
      refine ⟨fun _ => ⟨?_, ?_, ?_, htable', hlocal'⟩, ?_, fun hin => absurd hin htable', fun hin => absurd hin hlocal', ?_⟩
      · rw [answers, hcall]
        exact hzero
      · rw [hcall]
        exact hended
      · rw [hcall]
        exact hloc
      · rw [hcall]
        intro hadding htimeout
        dsimp only at hadding htimeout
        rw [if_pos htimeout] at hadding
        cases hadding
      · rw [hcall]
        intro hreturned
        dsimp only at hreturned
        split at hreturned
        · cases hreturned
        · cases hreturned
    · have hself : ((s.modify k fun c => { c with place := .returned, ended := true }).enqueue k none).calls k =
          { s.calls k with place := .returned, ended := true } := Function.update_self ..
      refine h.modify_enqueue hk _ none rfl rfl (h.none_iff htable) ?_
      refine CallOk.of_answered ?_ (answers_modify_enqueue k _ none rfl hzero) ?_ ?_
      · rw [hself]
      · rw [Service.InLocal, hself]
        exact hlocal
      · intro hin
        rw [Service.InTable, hself] at hin
        exact absurd hin htable
  · exact h

theorem arm_inv (h : Inv s) (k : Nat) : Inv (s.arm k) := by
  unfold Service.arm
  split
  · next hplace =>
    have hk : k < s.count := h.lt_of_ne (.inl (by simp [hplace]))
    obtain ⟨hzero, hended, hloc, htable, hlocal⟩ := (h.calls k hk).early (by simp [hplace])
    refine h.modify hk _ rfl rfl ?_
    have hcall : (s.modify k fun c => { c with place := .adding, timer := .armed }).calls k =
        { s.calls k with place := .adding, timer := .armed } := Function.update_self ..
    have htable' : ¬ (s.modify k fun c => { c with place := .adding, timer := .armed }).InTable k := by
      rw [Service.InTable, hcall]
      exact htable
    have hlocal' : ¬ (s.modify k fun c => { c with place := .adding, timer := .armed }).InLocal k := by
      rw [Service.InLocal, hcall]
      exact hlocal
    refine ⟨fun _ => ⟨?_, ?_, ?_, htable', hlocal'⟩, ?_, fun hin => absurd hin htable', fun hin => absurd hin hlocal', ?_⟩
    · rw [answers, hcall]
      exact hzero
    · rw [hcall]
      exact hended
    · rw [hcall]
      exact hloc
    · rw [hcall]
      exact fun _ _ => .inl rfl
    · rw [hcall]
      intro hreturned
      cases hreturned
  · exact h

theorem expire_inv (h : Inv s) (k : Nat) : Inv (s.expire k) := by
  unfold Service.expire
  split
  · next htimer =>
    have hk : k < s.count := h.lt_of_ne (.inr (by simp [htimer]))
    have hok := h.calls k hk
    refine h.modify hk _ rfl rfl ?_
    have hcall : (s.modify k fun c => { c with timer := .posted }).calls k = { s.calls k with timer := .posted } :=
      Function.update_self ..
    have hanswers : answers (s.modify k fun c => { c with timer := .posted }) k = answers s k := by
      rw [answers, hcall]
      rfl
    have htable : (s.modify k fun c => { c with timer := .posted }).InTable k ↔ s.InTable k := by
      rw [Service.InTable, hcall]
      exact Iff.rfl
    have hlocal : (s.modify k fun c => { c with timer := .posted }).InLocal k ↔ s.InLocal k := by
      rw [Service.InLocal, hcall]
      exact Iff.rfl
    refine ⟨?_, ?_, ?_, ?_, ?_⟩
    · rw [hcall, hanswers, htable, hlocal]
      exact hok.early
    · rw [hcall]
      exact fun _ _ => .inr rfl
    · rw [hcall, hanswers, htable]
      intro hin
      obtain ⟨hloc, hactived, hle, hzero⟩ := hok.table hin
      exact ⟨hloc, hactived, hle, fun hz => ⟨(hzero hz).1, fun _ => .inr rfl⟩⟩
    · rw [hcall, hanswers, hlocal]
      intro hin
      obtain ⟨hloc, hz, hended, -⟩ := hok.local hin
      exact ⟨hloc, hz, hended, fun _ => .inr rfl⟩
    · rw [hcall, hanswers, htable, hlocal]
      exact hok.rest
  · exact h

structure Mild (f : Call → Call) : Prop where
  seq : ∀ c, (f c).seq = c.seq
  invoked : ∀ c, (f c).invoked = c.invoked
  place : ∀ c, (f c).place = c.place
  isLocal : ∀ c, (f c).isLocal = c.isLocal

theorem mild_found : Mild fun c => { c with timer := c.timer.cancel, ended := true } :=
  ⟨fun _ => rfl, fun _ => rfl, fun _ => rfl, fun _ => rfl⟩

theorem mild_over : Mild fun c => { c with timer := .over, ended := true } :=
  ⟨fun _ => rfl, fun _ => rfl, fun _ => rfl, fun _ => rfl⟩

theorem mild_ended : Mild fun c => { c with ended := true } :=
  ⟨fun _ => rfl, fun _ => rfl, fun _ => rfl, fun _ => rfl⟩

theorem Mild.comp {f g : Call → Call} (hg : Mild g) (hf : Mild f) : Mild (g ∘ f) :=
  ⟨fun c => (hg.seq _).trans (hf.seq c), fun c => (hg.invoked _).trans (hf.invoked c),
    fun c => (hg.place _).trans (hf.place c), fun c => (hg.isLocal _).trans (hf.isLocal c)⟩

theorem modify_modify (s : Service) (k : Nat) (f g : Call → Call) : (s.modify k f).modify k g = s.modify k (g ∘ f) := by
  simp [Service.modify]

theorem InTable.returned (h : Inv s) {k : Nat} (hk : k < s.count) (hin : s.InTable k) : (s.calls k).place = .returned := by
  by_contra hplace
  exact ((h.calls k hk).early hplace).2.2.2.1 hin

theorem InLocal.returned (h : Inv s) {k : Nat} (hk : k < s.count) (hin : s.InLocal k) : (s.calls k).place = .returned := by
  by_contra hplace
  exact ((h.calls k hk).early hplace).2.2.2.2 hin

/-- **An entry of the session's table is answered**, by a response or a timer. -/
theorem Inv.answer (h : Inv s) {seq : BitVec 32} {k : Nat} (hfound : s.seq2Callback seq = some k)
    (hzero : answers s k = 0) {f : Call → Call} (hf : Mild f) : Inv ((s.modify k f).enqueue k (some seq)) := by
  obtain ⟨hk, -⟩ := h.table seq k hfound
  have hin : s.InTable k := h.inTable hfound
  obtain ⟨hloc, hactived, -⟩ := (h.calls k hk).table hin
  have hcall : ((s.modify k f).enqueue k (some seq)).calls k = f (s.calls k) := Function.update_self ..
  refine h.modify_enqueue hk f (some seq) (hf.seq _) (hf.invoked _) ?_ ?_
  · intro q
    constructor
    · rintro hq
      cases hq
      exact hfound
    · intro hq
      rw [← (h.table q k hq).2, (h.table seq k hfound).2]
  · refine CallOk.of_answered ?_ (answers_modify_enqueue k f _ (hf.invoked _) hzero) ?_ ?_
    · rw [hcall, hf.place]
      exact InTable.returned h hk hin
    · rw [Service.InLocal, hcall, hf.seq]
      intro hlocal
      have hlocal' := ((h.calls k hk).local hlocal).1
      rw [hloc] at hlocal'
      cases hlocal'
    · rw [hcall, hf.isLocal]
      exact fun _ => ⟨hloc, hactived⟩

/-- **An entry of the local table is answered** and removed at once. -/
theorem Inv.answerLocal (h : Inv s) {seq : BitVec 32} {k : Nat} (hfound : s.localAMOPCallbacks seq = some k)
    {f : Call → Call} (hf : Mild f) :
    Inv { (s.modify k f).enqueue k none with localAMOPCallbacks := erase s.localAMOPCallbacks seq } := by
  obtain ⟨hk, hseq⟩ := h.localTable seq k hfound
  have hin : s.InLocal k := h.inLocal hfound
  obtain ⟨hloc, hzero, -⟩ := (h.calls k hk).local hin
  have hout : ¬ s.InTable k := by
    intro htable
    have hloc' := ((h.calls k hk).table htable).1
    rw [hloc] at hloc'
    cases hloc'
  generalize hu : ({ (s.modify k f).enqueue k none with
    localAMOPCallbacks := erase s.localAMOPCallbacks seq } : Service) = u
  have hcall : u.calls k = f (s.calls k) := by
    rw [← hu]
    exact Function.update_self ..
  have htable : u.seq2Callback = s.seq2Callback := by rw [← hu]; rfl
  have hlocal : ∀ q, u.localAMOPCallbacks q = if q = seq then none else s.localAMOPCallbacks q := by
    intro q
    rw [← hu]
    exact erase_apply ..
  have hnone : ¬ u.InLocal k := by
    rw [Service.InLocal, hlocal, hcall, hf.seq, if_pos hseq]
    exact nofun
  refine h.touch hk (by rw [← hu]; rfl) ?_ ?_ ?_ (by rw [← hu]; rfl) htable ?_ ?_ ?_ ?_ (by rw [← hu]; rfl) ?_
  · intro j hj
    rw [← hu]
    exact Function.update_of_ne hj ..
  · rw [hcall, hf.seq]
  · rw [hcall, hf.invoked]
  · intro q j hj
    rw [hlocal]
    split
    · next hq =>
      rw [hq, hfound]
      exact ⟨fun h' => (nomatch h'), fun h' => absurd (Option.some.inj h').symm hj⟩
    · exact Iff.rfl
  · intro q hq
    rw [hlocal] at hq
    split at hq
    · cases hq
    · exact hq
  · intro j hj
    rw [← hu]
    exact (tasksOf_enqueue (s.modify k f) k none j).trans (by rw [if_neg hj]; rfl)
  · intro t ht
    rw [← hu] at ht
    rcases List.mem_append.mp ht with hold | hnew
    · exact .inl hold
    · obtain rfl := List.mem_singleton.mp hnew
      exact .inr ⟨rfl, h.none_iff hout⟩
  · refine CallOk.of_answered ?_ ?_ hnone ?_
    · rw [hcall, hf.place]
      exact InLocal.returned h hk hin
    · rw [← hu]
      exact answers_modify_enqueue k f none (hf.invoked _) hzero
    · rw [Service.InTable, htable, hcall, hf.seq]
      exact fun hin' => absurd hin' hout

theorem response_inv (h : Inv s) (seq : BitVec 32)
    (hok : s.actived = true → ∀ k, s.seq2Callback seq = some k → answers s k = 0) : Inv (s.response seq) := by
  unfold Service.response
  split
  · next hactived =>
    split
    · exact h
    · next k hfound => exact h.answer hfound (hok hactived k hfound) mild_found
  · exact h

theorem localResponse_inv (h : Inv s) (seq : BitVec 32) : Inv (s.localResponse seq) := by
  unfold Service.localResponse
  split
  · exact h
  · next k hfound => exact h.answerLocal hfound mild_found

theorem Inv.over (h : Inv s) {k : Nat} (hk : k < s.count) (hplace : (s.calls k).place = .returned)
    (htable : ¬ s.InTable k) (hlocal : ¬ s.InLocal k) : Inv (s.modify k fun c => { c with timer := .over, ended := true }) := by
  have hcall : (s.modify k fun c => { c with timer := .over, ended := true }).calls k =
      { s.calls k with timer := .over, ended := true } := Function.update_self ..
  refine h.modify hk _ rfl rfl (CallOk.of_answered ?_ ?_ ?_ ?_)
  · rw [hcall]
    exact hplace
  · rw [answers, hcall]
    exact (h.calls k hk).rest hplace htable hlocal
  · rw [Service.InLocal, hcall]
    exact hlocal
  · intro hin
    rw [Service.InTable, hcall] at hin
    exact absurd hin htable

theorem onTimeout_inv (h : Inv s) (k : Nat) (hok : (s.calls k).timer = .posted → (s.calls k).place = .returned ∧
    ((s.calls k).isLocal = false → ∀ k', s.seq2Callback (s.calls k).seq = some k' → answers s k' = 0)) :
    Inv (s.onTimeout k) := by
  unfold Service.onTimeout
  split
  · next htimer =>
    have hk : k < s.count := h.lt_of_ne (.inr (by simp [htimer]))
    obtain ⟨hplace, hentry⟩ := hok htimer
    have hcallOk := h.calls k hk
    dsimp only
    split
    · next hloc =>
      have htable : ¬ s.InTable k := by
        intro hin
        have hloc' := (hcallOk.table hin).1
        rw [hloc] at hloc'
        cases hloc'
      split
      · next hnone =>
        refine h.over hk hplace htable ?_
        rw [Service.InLocal, hnone]
        exact nofun
      · next k' hfound =>
        by_cases hkk : k' = k
        · subst hkk
          rw [modify_modify]
          exact h.answerLocal hfound (mild_ended.comp mild_over)
        · have hlocal : ¬ s.InLocal k := by
            rw [Service.InLocal, hfound]
            exact fun heq => hkk (Option.some.inj heq)
          exact (h.over hk hplace htable hlocal).answerLocal hfound mild_ended
    · next hloc =>
      have hlocal : ¬ s.InLocal k := fun hin => hloc (hcallOk.local hin).1
      split
      · next hnone =>
        refine h.over hk hplace ?_ hlocal
        rw [Service.InTable, hnone]
        exact nofun
      · next k' hfound =>
        have hzero := hentry (by simpa using hloc) k' hfound
        by_cases hkk : k' = k
        · subst hkk
          rw [modify_modify]
          exact h.answer hfound hzero (mild_ended.comp mild_over)
        · have htable : ¬ s.InTable k := by
            rw [Service.InTable, hfound]
            exact fun heq => hkk (Option.some.inj heq)
          have hsame : (s.modify k fun c => { c with timer := .over, ended := true }).calls k' = s.calls k' :=
            Function.update_of_ne hkk ..
          refine (h.over hk hplace htable hlocal).answer hfound ?_ mild_ended
          rw [answers, hsame]
          exact hzero
  · exact h

/-- **A callback is registered** under a number without an entry. -/
theorem addSeqCallback_inv (h : Inv s) (k : Nat) (hok : (s.calls k).place = .adding →
    s.actived = true ∧ s.seq2Callback (s.calls k).seq = none) : Inv (s.addSeqCallback k) := by
  unfold Service.addSeqCallback
  split
  · next hplace =>
    have hk : k < s.count := h.lt_of_ne (.inl (by simp [hplace]))
    obtain ⟨hactived, hnone⟩ := hok hplace
    obtain ⟨hzero, hended, hloc, -, hlocal⟩ := (h.calls k hk).early (by simp [hplace])
    have hlive := (h.calls k hk).armed hplace
    generalize hu : ({ s.modify k fun c => { c with place := .returned } with
      seq2Callback := insert s.seq2Callback (s.calls k).seq k } : Service) = u
    have hcall : u.calls k = { s.calls k with place := .returned } := by
      rw [← hu]
      exact Function.update_self ..
    have hcalls : ∀ j, j ≠ k → u.calls j = s.calls j := by
      intro j hj
      rw [← hu]
      exact Function.update_of_ne hj ..
    have htable : ∀ q, u.seq2Callback q = if q = (s.calls k).seq then some k else s.seq2Callback q := by
      intro q
      rw [← hu]
      exact insert_of_none k hnone q
    have hseq : ∀ j, (u.calls j).seq = (s.calls j).seq := by
      intro j
      by_cases hj : j = k
      · rw [hj, hcall]
      · rw [hcalls j hj]
    have hanswers : ∀ j, answers u j = answers s j := by
      intro j
      have htasks : tasksOf u j = tasksOf s j := by rw [← hu]; rfl
      by_cases hj : j = k
      · rw [hj, answers, hcall, ← hj, htasks, hj]
        rfl
      · rw [answers, hcalls j hj, htasks]
        rfl
    have hactived' : u.actived = s.actived := by rw [← hu]; rfl
    have hcount : u.count = s.count := by rw [← hu]; rfl
    have hlocalTable : u.localAMOPCallbacks = s.localAMOPCallbacks := by rw [← hu]; rfl
    have hin : u.InTable k := by rw [Service.InTable, htable, hseq, if_pos rfl]
    have hlocal' : ¬ u.InLocal k := by
      rw [Service.InLocal, hlocalTable, hseq]
      exact hlocal
    refine ⟨?_, ?_, ?_, ?_, ?_, ?_⟩
    · intro j hj
      rw [hcount] at hj
      by_cases hjk : j = k
      · subst hjk
        refine ⟨?_, ?_, ?_, fun hl => absurd hl hlocal', fun _ hnot => absurd hin hnot⟩
        · rw [hcall]
          exact fun hne => absurd rfl hne
        · rw [hcall]
          intro hadding
          cases hadding
        · rw [hanswers, hcall, hactived', hzero]
          exact fun _ => ⟨hloc, hactived, Nat.zero_le 1, fun _ => ⟨hended, hlive⟩⟩
      · refine (h.calls j hj).frame (hcalls j hjk) (fun _ => hactived') (by rw [← hu]; rfl) ?_ ?_
        · rw [Service.InTable, Service.InTable, htable, hcalls j hjk]
          by_cases hq : (s.calls j).seq = (s.calls k).seq
          · rw [if_pos hq, hq, hnone]
            exact ⟨fun heq => absurd (Option.some.inj heq).symm hjk, fun heq => (nomatch heq)⟩
          · rw [if_neg hq]
        · rw [Service.InLocal, Service.InLocal, hlocalTable, hcalls j hjk]
    · intro j hj
      rw [hcount] at hj
      rw [hcalls j (by omega), h.fresh j hj]
    · intro q j hq
      rw [htable] at hq
      rw [hcount, hseq]
      split at hq
      · next heq =>
        cases hq
        exact ⟨hk, heq.symm⟩
      · exact h.table q j hq
    · intro q j hq
      rw [hlocalTable] at hq
      rw [hcount, hseq]
      exact h.localTable q j hq
    · intro t ht
      rw [← hu] at ht
      obtain ⟨hlt, hremoves⟩ := h.tasks t ht
      refine ⟨hcount ▸ hlt, fun q => ?_⟩
      rw [htable, hremoves q]
      split
      · next heq =>
        rw [heq, hnone]
        refine ⟨fun h' => (nomatch h'), fun h' => ?_⟩
        have hpos : 0 < tasksOf s k := List.countP_pos_iff.mpr ⟨t, ht, by simpa using (Option.some.inj h').symm⟩
        simp only [answers] at hzero
        omega
      · exact Iff.rfl
    · intro q
      have hremovals : u.removals = s.removals := by rw [← hu]; rfl
      rw [hremovals, htable, h.removals q]
      by_cases heq : q = (s.calls k).seq
      · rw [if_pos heq, heq, hnone]
        dsimp only
        rw [hcall]
        simp only [answers] at hzero
        exact (Nat.eq_zero_of_add_eq_zero_right hzero).symm
      · rw [if_neg heq]
        cases hq : s.seq2Callback q with
        | none => rfl
        | some j =>
          have hj : j ≠ k := by
            rintro rfl
            exact heq (h.table q j hq).2.symm
          dsimp only
          rw [hcalls j hj]
  · exact h

theorem tasksOf_drop (hactived : s.actived = true) (j : Nat) :
    tasksOf s.drop j = tasksOf s j + if j < s.count ∧ s.InTable j then 1 else 0 := by
  have hnodup : ((List.range s.count).filter fun k => s.InTable k).Nodup := List.nodup_range.filter _
  have hcount : (((List.range s.count).filter fun k => s.InTable k).map fun k => (⟨k, none⟩ : Task)).countP
      (fun t => t.call = j) = ((List.range s.count).filter fun k => s.InTable k).count j := by
    rw [List.countP_map, List.count]
    congr 1
  rw [tasksOf, tasksOf, Service.drop, if_pos hactived]
  dsimp only
  rw [List.countP_append, hcount]
  congr 1
  split
  · next hin =>
    refine List.count_eq_one_of_mem hnodup ?_
    rw [List.mem_filter, List.mem_range]
    exact ⟨hin.1, by simpa using hin.2⟩
  · next hout =>
    rw [List.count_eq_zero, List.mem_filter, List.mem_range]
    intro hin
    exact hout ⟨hin.1, by simpa using hin.2⟩

theorem drop_inv (h : Inv s) (hok : s.actived = true → ∀ k < s.count, s.InTable k → answers s k = 0) : Inv s.drop := by
  by_cases hactived : s.actived = true
  · have hcall : ∀ k, s.drop.calls k =
        if s.InTable k then { s.calls k with timer := (s.calls k).timer.cancel, ended := true } else s.calls k := by
      intro k
      rw [Service.drop, if_pos hactived]
    have hcount : s.drop.count = s.count := by rw [Service.drop, if_pos hactived]
    have hnone : ∀ q, s.drop.seq2Callback q = none := by
      intro q
      rw [Service.drop, if_pos hactived]
    have hlocalTable : s.drop.localAMOPCallbacks = s.localAMOPCallbacks := by rw [Service.drop, if_pos hactived]
    have hseq : ∀ k, (s.drop.calls k).seq = (s.calls k).seq := by
      intro k
      rw [hcall]
      split
      · rfl
      · rfl
    have hout : ∀ k, ¬ s.drop.InTable k := by
      intro k
      rw [Service.InTable, hnone]
      exact nofun
    have hlocal : ∀ k, s.drop.InLocal k ↔ s.InLocal k := by
      intro k
      rw [Service.InLocal, Service.InLocal, hlocalTable, hseq]
    have hmiss : ∀ k, ¬ s.InTable k → tasksOf s.drop k = tasksOf s k := by
      intro k hk
      rw [tasksOf_drop hactived, if_neg fun hand => hk hand.2, Nat.add_zero]
    refine ⟨?_, ?_, ?_, ?_, ?_, ?_⟩
    · intro k hk
      rw [hcount] at hk
      by_cases hin : s.InTable k
      · have hplace : (s.drop.calls k).place = .returned := by
          rw [hcall, if_pos hin]
          exact InTable.returned h hk hin
        refine CallOk.of_answered hplace ?_ ?_ fun hin' => absurd hin' (hout k)
        · have hzero := hok hactived k hk hin
          simp only [answers] at hzero
          rw [answers, hcall, if_pos hin, tasksOf_drop hactived, if_pos ⟨hk, hin⟩]
          show (s.calls k).invoked + _ = 1
          omega
        · rw [hlocal]
          intro hin'
          have hloc := ((h.calls k hk).table hin).1
          rw [((h.calls k hk).local hin').1] at hloc
          cases hloc
      · have hsame : s.drop.calls k = s.calls k := by rw [hcall, if_neg hin]
        exact (h.calls k hk).frame hsame (fun hin' => absurd hin' (hout k)) (hmiss k hin)
          (iff_of_false (hout k) hin) (hlocal k)
    · intro k hk
      rw [hcount] at hk
      have hin : ¬ s.InTable k := h.table_lt hk
      rw [hcall, if_neg hin, h.fresh k hk]
    · intro q k hq
      rw [hnone] at hq
      cases hq
    · intro q k hq
      rw [hlocalTable] at hq
      rw [hcount, hseq]
      exact h.localTable q k hq
    · intro t ht
      rw [hcount]
      rw [Service.drop, if_pos hactived] at ht
      rcases List.mem_append.mp ht with hold | hnew
      · obtain ⟨hlt, hremoves⟩ := h.tasks t hold
        refine ⟨hlt, fun q => ?_⟩
        rw [hnone]
        refine ⟨fun hq => ?_, fun h' => (nomatch h')⟩
        have hin : s.InTable t.call := h.inTable ((hremoves q).mp hq)
        have hzero := hok hactived t.call hlt hin
        have hpos : 0 < tasksOf s t.call := List.countP_pos_iff.mpr ⟨t, hold, by simp⟩
        simp only [answers] at hzero
        omega
      · obtain ⟨k, hk, rfl⟩ := List.mem_map.mp hnew
        exact ⟨List.mem_range.mp (List.mem_filter.mp hk).1, fun q => by simp [hnone]⟩
    · intro q
      have hremovals : s.drop.removals = s.removals := by rw [Service.drop, if_pos hactived]
      rw [hremovals, hnone, h.removals q]
      cases hq : s.seq2Callback q with
      | none => rfl
      | some k =>
        have hzero := hok hactived k (h.table q k hq).1 (h.inTable hq)
        simp only [answers] at hzero
        exact Nat.eq_zero_of_add_eq_zero_right hzero
  · rw [Service.drop, if_neg hactived]
    exact h

theorem countP_erase_task {tasks : List Task} {t : Task} (ht : t ∈ tasks) (j : Nat) :
    tasks.countP (fun t' => t'.call = j) = (tasks.erase t).countP (fun t' => t'.call = j) + if t.call = j then 1 else 0 := by
  rw [(List.perm_cons_erase ht).countP_eq, List.countP_cons]
  simp only [decide_eq_true_eq]

theorem invoke_inv (h : Inv s) (t : Task) : Inv (s.invoke t) := by
  unfold Service.invoke
  split
  · next ht =>
    obtain ⟨hk, hremoves⟩ := h.tasks t ht
    generalize hu : ({ s.modify t.call fun c => { c with invoked := c.invoked + 1 } with
      tasks := s.tasks.erase t, removals := s.removals ++ t.removes.toList } : Service) = u
    have hcount : u.count = s.count := by rw [← hu]; rfl
    have hactived : u.actived = s.actived := by rw [← hu]; rfl
    have htable : u.seq2Callback = s.seq2Callback := by rw [← hu]; rfl
    have hlocal : u.localAMOPCallbacks = s.localAMOPCallbacks := by rw [← hu]; rfl
    have htasks : u.tasks = s.tasks.erase t := by rw [← hu]
    have hcall : ∀ j, u.calls j = { s.calls j with invoked := (s.calls j).invoked + if t.call = j then 1 else 0 } := by
      intro j
      rw [← hu]
      by_cases hj : t.call = j
      · subst hj
        rw [if_pos rfl]
        exact Function.update_self ..
      · rw [if_neg hj]
        exact Function.update_of_ne (Ne.symm hj) ..
    have hanswers : ∀ j, answers u j = answers s j := by
      intro j
      rw [answers, hcall, tasksOf, htasks, answers, tasksOf, countP_erase_task ht j]
      dsimp only
      omega
    have hmem : ∀ t' ∈ s.tasks.erase t, t' ∈ s.tasks := fun t' ht' => List.mem_of_mem_erase ht'
    refine ⟨?_, ?_, ?_, ?_, ?_, ?_⟩
    · intro j hj
      rw [hcount] at hj
      refine (h.calls j hj).same (hcall j) (fun _ => hactived) (hanswers j) ?_ ?_
      · rw [Service.InTable, htable, hcall]
        exact Iff.rfl
      · rw [Service.InLocal, hlocal, hcall]
        exact Iff.rfl
    · intro j hj
      rw [hcount] at hj
      rw [hcall, if_neg (by omega), h.fresh j hj]
    · intro q j hq
      rw [htable] at hq
      rw [hcount, hcall]
      exact h.table q j hq
    · intro q j hq
      rw [hlocal] at hq
      rw [hcount, hcall]
      exact h.localTable q j hq
    · intro t' ht'
      rw [htasks] at ht'
      rw [hcount, htable]
      exact h.tasks t' (hmem t' ht')
    · intro q
      have hremovals : u.removals = s.removals ++ t.removes.toList := by rw [← hu]
      have hnew : t.removes.toList.count q = if t.removes = some q then 1 else 0 := by
        cases t.removes with
        | none => simp
        | some q' =>
          rw [Option.toList_some, List.count_singleton]
          by_cases heq : q' = q
          · simp [heq]
          · simp [heq]
      rw [hremovals, htable, List.count_append, h.removals q, hnew]
      cases hq : s.seq2Callback q with
      | none =>
        have hno : ¬ t.removes = some q := by
          rw [hremoves q, hq]
          exact nofun
        rw [if_neg hno]
      | some j =>
        have hiff : t.removes = some q ↔ t.call = j := by
          rw [hremoves q, hq, Option.some.injEq]
          exact eq_comm
        dsimp only
        rw [hcall, if_congr hiff rfl rfl]
  · exact h

theorem removeSeqCallback_inv (h : Inv s) (seq : BitVec 32) : Inv (s.removeSeqCallback seq) := by
  unfold Service.removeSeqCallback
  split
  · next hmem =>
    have hpos : 0 < s.removals.count seq := List.count_pos_iff.mpr hmem
    have hcount := h.removals seq
    cases hfound : s.seq2Callback seq with
    | none =>
      rw [hfound] at hcount
      dsimp only at hcount
      omega
    | some k =>
      rw [hfound] at hcount
      dsimp only at hcount
      obtain ⟨hk, hseq⟩ := h.table seq k hfound
      have hin : s.InTable k := h.inTable hfound
      obtain ⟨hloc, hactived, hle, -⟩ := (h.calls k hk).table hin
      have hone : answers s k = 1 ∧ (s.calls k).invoked = 1 ∧ tasksOf s k = 0 := by
        simp only [answers] at hle ⊢
        omega
      generalize hu : ({ s with removals := s.removals.erase seq, seq2Callback := erase s.seq2Callback seq } : Service) = u
      have hcalls : u.calls = s.calls := by rw [← hu]
      have htable : ∀ q, u.seq2Callback q = if q = seq then none else s.seq2Callback q := by
        intro q
        rw [← hu]
        exact erase_apply ..
      have hlocal : u.localAMOPCallbacks = s.localAMOPCallbacks := by rw [← hu]
      have hanswers : ∀ j, answers u j = answers s j := by
        intro j
        rw [← hu]
        rfl
      have hcountEq : u.count = s.count := by rw [← hu]
      refine ⟨?_, ?_, ?_, ?_, ?_, ?_⟩
      · intro j hj
        rw [hcountEq] at hj
        have hlocalj : u.InLocal j ↔ s.InLocal j := by rw [Service.InLocal, Service.InLocal, hlocal, hcalls]
        by_cases hjk : j = k
        · subst hjk
          have hout : ¬ u.InTable j := by
            rw [Service.InTable, htable, hcalls, if_pos hseq]
            exact nofun
          refine CallOk.of_answered ?_ ?_ ?_ fun hin' => absurd hin' hout
          · rw [hcalls]
            exact InTable.returned h hk hin
          · rw [hanswers]
            exact hone.1
          · rw [hlocalj]
            intro hin'
            have hloc' := ((h.calls j hk).local hin').1
            rw [hloc] at hloc'
            cases hloc'
        · refine (h.calls j hj).frame (by rw [hcalls]) (fun _ => by rw [← hu]) (by rw [← hu]; rfl) ?_ hlocalj
          rw [Service.InTable, Service.InTable, htable, hcalls]
          split
          · next heq =>
            rw [heq, hfound]
            exact ⟨fun h' => (nomatch h'), fun h' => absurd (Option.some.inj h').symm hjk⟩
          · exact Iff.rfl
      · intro j hj
        rw [hcountEq] at hj
        rw [hcalls, h.fresh j hj]
      · intro q j hq
        rw [htable] at hq
        rw [hcountEq, hcalls]
        split at hq
        · cases hq
        · exact h.table q j hq
      · intro q j hq
        rw [hlocal] at hq
        rw [hcountEq, hcalls]
        exact h.localTable q j hq
      · intro t ht
        rw [← hu] at ht
        obtain ⟨hlt, hremoves⟩ := h.tasks t ht
        refine ⟨hcountEq ▸ hlt, fun q => ?_⟩
        rw [htable, hremoves q]
        split
        · next heq =>
          rw [heq, hfound]
          refine ⟨fun h' => ?_, fun h' => (nomatch h')⟩
          have hposk : 0 < tasksOf s k := List.countP_pos_iff.mpr ⟨t, ht, by simpa using (Option.some.inj h').symm⟩
          omega
        · exact Iff.rfl
      · intro q
        have hremovals : u.removals = s.removals.erase seq := by rw [← hu]
        rw [hremovals, htable, hcalls]
        by_cases heq : q = seq
        · rw [if_pos heq, heq, List.count_erase_self, hcount, hone.2.1]
        · rw [if_neg heq, List.count_erase_of_ne heq]
          exact h.removals q
  · exact h

theorem Inv.pushed {u : Service} (h : Inv s) {c : Call} (hcount : u.count = s.count + 1)
    (hcalls : u.calls = Function.update s.calls s.count c) (hactived : u.actived = s.actived)
    (htable : u.seq2Callback = s.seq2Callback) (htasks : u.tasks = s.tasks) (hremovals : u.removals = s.removals)
    (hlocal : ∀ q j, j ≠ s.count → (u.localAMOPCallbacks q = some j ↔ s.localAMOPCallbacks q = some j))
    (hlocalk : ∀ q, u.localAMOPCallbacks q = some s.count → c.seq = q) (hok : CallOk u s.count) : Inv u := by
  have hself : u.calls s.count = c := by
    rw [hcalls]
    exact Function.update_self ..
  have hother : ∀ j, j ≠ s.count → u.calls j = s.calls j := by
    intro j hj
    rw [hcalls]
    exact Function.update_of_ne hj ..
  refine ⟨?_, ?_, ?_, ?_, ?_, ?_⟩
  · intro j hj
    rw [hcount] at hj
    by_cases hjk : j = s.count
    · exact hjk ▸ hok
    · refine (h.calls j (by omega)).frame (hother j hjk) (fun _ => hactived) (by rw [tasksOf, htasks]; rfl) ?_ ?_
      · rw [Service.InTable, Service.InTable, htable, hother j hjk]
      · rw [Service.InLocal, Service.InLocal, hother j hjk]
        exact hlocal _ j hjk
  · intro j hj
    rw [hcount] at hj
    rw [hother j (by omega), h.fresh j (by omega)]
  · intro q j hq
    rw [htable] at hq
    obtain ⟨hlt, hseq⟩ := h.table q j hq
    rw [hcount, hother j (by omega)]
    exact ⟨by omega, hseq⟩
  · intro q j hq
    rw [hcount]
    by_cases hjk : j = s.count
    · subst hjk
      rw [hself]
      exact ⟨Nat.lt_succ_self _, hlocalk q hq⟩
    · obtain ⟨hlt, hseq⟩ := h.localTable q j ((hlocal q j hjk).mp hq)
      rw [hother j hjk]
      exact ⟨by omega, hseq⟩
  · intro t ht
    rw [htasks] at ht
    obtain ⟨hlt, hremoves⟩ := h.tasks t ht
    rw [hcount, htable]
    exact ⟨by omega, hremoves⟩
  · intro q
    rw [hremovals, htable, h.removals q]
    cases hq : s.seq2Callback q with
    | none => rfl
    | some j =>
      have hlt := (h.table q j hq).1
      dsimp only
      rw [hother j (by omega)]

theorem found_inv (h : Inv s) (seq : BitVec 32) (timeout : Bool) :
    Inv (s.asyncSendMessageByNodeID seq timeout .found) := by
  generalize hu : s.asyncSendMessageByNodeID seq timeout .found = u
  rw [Service.asyncSendMessageByNodeID] at hu
  have hself : u.calls s.count = { seq := if seq = 0 then s.seq + 1 else seq, timeout, place := .checking } := by
    rw [← hu]
    exact Function.update_self ..
  have htable : u.seq2Callback = s.seq2Callback := by rw [← hu]; rfl
  have hlocal : u.localAMOPCallbacks = s.localAMOPCallbacks := by rw [← hu]; rfl
  have htasks : u.tasks = s.tasks := by rw [← hu]; rfl
  refine h.pushed (by rw [← hu]; rfl) (by rw [← hu]; rfl) (by rw [← hu]; rfl) htable htasks (by rw [← hu]; rfl)
    (fun q j _ => by rw [hlocal]) ?_ ?_
  · intro q hq
    rw [hlocal] at hq
    exact absurd hq (h.local_lt (Nat.le_refl _))
  · have hout : ¬ u.InTable s.count := by
      rw [Service.InTable, htable]
      exact h.table_lt (Nat.le_refl _)
    have hout' : ¬ u.InLocal s.count := by
      rw [Service.InLocal, hlocal]
      exact h.local_lt (Nat.le_refl _)
    refine ⟨fun _ => ⟨?_, ?_, ?_, hout, hout'⟩, ?_, fun hin => absurd hin hout, fun hin => absurd hin hout', ?_⟩
    · have hnone : tasksOf s s.count = 0 := h.no_task (Nat.le_refl _)
      rw [answers, hself, tasksOf, htasks]
      exact (Nat.zero_add _).trans hnone
    · rw [hself]
    · rw [hself]
    · rw [hself]
      exact fun hadding => (nomatch hadding)
    · rw [hself]
      exact fun hreturned => (nomatch hreturned)

theorem self_inv (h : Inv s) (seq : BitVec 32) (timeout : Bool) (hnone : s.localAMOPCallbacks seq = none) :
    Inv (s.asyncSendMessageByNodeID seq timeout (.self true true)) := by
  generalize hu : s.asyncSendMessageByNodeID seq timeout (.self true true) = u
  rw [Service.asyncSendMessageByNodeID] at hu
  have hself : u.calls s.count =
      { seq, timeout, isLocal := true, timer := if timeout then .armed else .none } := by
    rw [← hu]
    exact Function.update_self ..
  have htable : u.seq2Callback = s.seq2Callback := by rw [← hu]; rfl
  have hlocal : ∀ q, u.localAMOPCallbacks q = if q = seq then some s.count else s.localAMOPCallbacks q := by
    intro q
    rw [← hu]
    exact insert_of_none s.count hnone q
  have htasks : u.tasks = s.tasks := by rw [← hu]; rfl
  refine h.pushed (by rw [← hu]; rfl) (by rw [← hu]; rfl) (by rw [← hu]; rfl) htable htasks (by rw [← hu]; rfl) ?_ ?_ ?_
  · intro q j hj
    rw [hlocal]
    split
    · next heq =>
      rw [heq, hnone]
      exact ⟨fun h' => absurd (Option.some.inj h').symm hj, fun h' => (nomatch h')⟩
    · exact Iff.rfl
  · intro q hq
    rw [hlocal] at hq
    split at hq
    · next heq => exact heq.symm
    · exact absurd hq (h.local_lt (Nat.le_refl _))
  · have hout : ¬ u.InTable s.count := by
      rw [Service.InTable, htable]
      exact h.table_lt (Nat.le_refl _)
    have hin : u.InLocal s.count := by
      rw [Service.InLocal, hlocal, hself, if_pos rfl]
    refine ⟨?_, ?_, fun hin' => absurd hin' hout, fun _ => ⟨?_, ?_, ?_, ?_⟩, fun _ _ hnot => absurd hin hnot⟩
    · rw [hself]
      exact fun hne => absurd rfl hne
    · rw [hself]
      exact fun hadding => (nomatch hadding)
    · rw [hself]
    · have hnoTask : tasksOf s s.count = 0 := h.no_task (Nat.le_refl _)
      rw [answers, hself, tasksOf, htasks]
      exact (Nat.zero_add _).trans hnoTask
    · rw [hself]
    · rw [hself]
      dsimp only
      intro htimeout
      rw [if_pos htimeout]
      exact .inl rfl

theorem activate_inv (h : Inv s) : Inv { s with actived := true } := by
  refine ⟨fun k hk => (h.calls k hk).frame rfl (fun hin => ((h.calls k hk).table hin).2.1.symm) rfl Iff.rfl Iff.rfl,
    h.fresh, h.table, h.localTable, h.tasks, h.removals⟩

/-- **Each step keeps the invariant** under the condition. -/
theorem step_inv (s : Service) (i : Input) (h : Inv s) (hok : StepOk s i) : Inv (service.step s i) := by
  cases i with
  | start => exact activate_inv h
  | drop => exact drop_inv h hok
  | call seq timeout route =>
    rcases hok with hfound | ⟨hself, hnone⟩
    · subst hfound
      exact found_inv h seq timeout
    · subst hself
      exact self_inv h seq timeout hnone
  | check k usable => exact check_inv h k usable
  | arm k => exact arm_inv h k
  | addSeqCallback k => exact addSeqCallback_inv h k hok
  | response seq => exact response_inv h seq hok
  | localResponse seq => exact localResponse_inv h seq
  | expire k => exact expire_inv h k
  | onTimeout k => exact onTimeout_inv h k hok
  | invoke t => exact invoke_inv h t
  | removeSeqCallback seq => exact removeSeqCallback_inv h seq

end steps

/-! ### Every callback is invoked once -/

def answeredRun : List Input :=
  [.start, .call 0 true .found, .check 0 true, .arm 0, .addSeqCallback 0, .response 2, .invoke ⟨0, some 2⟩,
    .removeSeqCallback 2]

end HieraChain.Callbacks
