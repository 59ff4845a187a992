/-
  HieraChain/BlockServing.lean
  ============================
  **Every requested block is sent in the end.**

  A run is a list of events from an empty queue.  One event keeps `Inv` and sends
  no more than was asked for (`step_advances`), and so does a run
  (`run_advances`).  Turns that no timeout and no limiter disturbs reach a block
  that is there: `need` counts them down (`turns_send`).  A round that ends in
  such a stretch sends a block as long as one is left, so after more rounds than
  blocks were asked for none is left (`rounds_send`).

  The other side is a first number below zero: the range goes back to the queue
  and to its top again, and no later range is ever taken.
-/
import HieraChain.BlockRequests

namespace HieraChain.RspBlockReq

open HieraChain.Int64

/-! ### Runs -/

def service : Machine (Option System) Event where
  step o e := o.bind fun s => s.step e

def Ok (o : Option System) (e : Event) : Prop := ∀ s, o = some s → e.Ok s

instance : ∀ (o : Option System) (e : Event), Decidable (Ok o e)
  | none, _ => isTrue nofun
  | some s, e => decidable_of_iff (e.Ok s) ⟨fun h _ heq => Option.some.inj heq ▸ h, fun h => h s rfl⟩

theorem service_step (s : System) (e : Event) : service.step (some s) e = s.step e := rfl

theorem step_advances {s : System} (h : Inv s) {e : Event} (hok : e.Ok s) :
    ∃ s', s.step e = some s' ∧ Advances s [e] s' := by
  cases e with
  | request fromNumber size => exact request_advances h hok
  | grow => exact ⟨_, rfl, grow_advances h⟩
  | turn v =>
    rw [System.step, System.turn]
    cases hserving : s.serving with
    | none =>
      dsimp only
      by_cases hwait : v = .timeout ∨ s.reqQueue = []
      · rw [if_pos hwait]
        exact ⟨s, rfl, stay_advances h v⟩
      · rw [if_neg hwait]
        obtain ⟨s', _, _, htake, -, -, -, -, -, hadv⟩ := take_advances h hserving (fun hq => hwait (Or.inr hq)) v
        exact ⟨s', htake, hadv⟩
    | some range =>
      obtain ⟨number, numberLimit⟩ := range
      dsimp only
      by_cases hlt : number < numberLimit
      · rw [if_pos hlt]
        by_cases hstop : v = .timeout ∨ ¬ s.Has number ∨ v = .refused
        · rw [if_pos hstop]
          obtain ⟨s', hback, -, -, -, -, hadv⟩ :=
            writeBack_advances h hserving (hok (s.stops_of_serving hserving hlt hstop)) v
          exact ⟨s', hback, hadv⟩
        · rw [if_neg hstop]
          have hhas : s.Has number := by
            by_contra hmissing
            exact hstop (Or.inr (Or.inl hmissing))
          exact ⟨_, rfl, send_advances h hserving hlt hhas v⟩
      · rw [if_neg hlt]
        exact ⟨_, rfl, (leave_advances h hserving hlt v).2⟩

theorem run_advances {es : List Event} {s : System} (h : Inv s) (hok : service.RunOk Ok (some s) es) :
    ∃ s', service.run (some s) es = some s' ∧ Advances s es s' := by
  induction es generalizing s with
  | nil => exact ⟨s, rfl, Advances.refl h⟩
  | cons e es ih =>
    obtain ⟨s₁, hstep, hfirst⟩ := step_advances h (hok.1 s rfl)
    have hrest := hok.2
    rw [service_step, hstep] at hrest
    obtain ⟨s', hrun, hadv⟩ := ih hfirst.inv hrest
    refine ⟨s', ?_, hfirst.trans hadv⟩
    rw [Machine.run_cons, service_step, hstep, hrun]

/-! ### Undisturbed turns -/

def System.need (s : System) : Nat :=
  match s.serving with
  | none => 2 * s.reqQueue.length
  | some (number, numberLimit) =>
    if number < numberLimit then
      if s.Has number then 1 else 2 * (s.reqQueue.length + 1) + 1
    else 2 * s.reqQueue.length + 1

theorem need_le {s : System} (h : Inv s) : s.need ≤ 2 * (c_maxReceivedDownloadRequestPerPeer + 1) + 1 := by
  have hbounded := h.bounded
  unfold System.need
  split
  · omega
  · split
    · split
      · omega
      · omega
    · omega

theorem turn_nearer {s : System} (h : Inv s) {b : Int} (hb : s.Pending b) (hhas : s.Has b)
    (hok : (Event.turn .allowed).Ok s) :
    ∃ s', s.turn .allowed = some s' ∧ s'.number = s.number
      ∧ (s.sent.length < s'.sent.length ∨ s'.Pending b ∧ s'.need < s.need) := by
  unfold System.turn
  cases hserving : s.serving with
  | none =>
    have hqueue : s.reqQueue ≠ [] := by
      rcases hb with ⟨r, hr, -⟩ | ⟨_, _, heq, -⟩
      · exact List.ne_nil_of_mem hr
      · rw [hserving] at heq
        cases heq
    dsimp only
    rw [if_neg (by simp [hqueue])]
    obtain ⟨s', number, numberLimit, htake, hserving', hnumber, hlength, hpending, hfirst, hadv⟩ :=
      take_advances h hserving hqueue .allowed
    refine ⟨s', htake, hnumber, Or.inr ⟨hpending b hb, ?_⟩⟩
    have hproper := hadv.inv.serving _ _ hserving'
    rw [System.need, System.need, hserving, hserving']
    dsimp only
    by_cases hlt : number < numberLimit
    · have hstart : 0 ≤ number ∨ numberLimit - number = 0 := hproper.start
      have hnumberHas : s'.Has number := by
        refine ⟨by omega, ?_⟩
        rw [hnumber]
        exact (hfirst b hb).trans hhas.2
      rw [if_pos hlt, if_pos hnumberHas]
      omega
    · rw [if_neg hlt]
      omega
  | some range =>
    obtain ⟨number, numberLimit⟩ := range
    dsimp only
    by_cases hlt : number < numberLimit
    · rw [if_pos hlt]
      by_cases hnumber : s.Has number
      · rw [if_neg (by simp [hnumber])]
        refine ⟨_, rfl, rfl, Or.inl ?_⟩
        rw [List.length_append]
        exact Nat.lt_succ_self _
      · have hstop : Verdict.allowed = .timeout ∨ ¬ s.Has number ∨ Verdict.allowed = .refused := Or.inr (Or.inl hnumber)
        rw [if_pos hstop]
        obtain ⟨s', hback, hserving', hlength, hnumber', hpending, -⟩ :=
          writeBack_advances h hserving (hok (s.stops_of_serving hserving hlt hstop)) .allowed
        refine ⟨s', hback, hnumber', Or.inr ⟨hpending b hb, ?_⟩⟩
        rw [System.need, System.need, hserving, hserving']
        dsimp only
        rw [if_pos hlt, if_neg hnumber, hlength]
        omega
    · rw [if_neg hlt]
      refine ⟨_, rfl, rfl, Or.inr ⟨(leave_advances h hserving hlt .allowed).1 b hb, ?_⟩⟩
      rw [System.need, System.need, hserving]
      dsimp only
      rw [if_neg hlt]
      omega

theorem turns_send {k : Nat} {s : System} (h : Inv s) {b : Int} (hb : s.Pending b) (hhas : s.Has b)
    (hk : s.need < k) (hok : service.RunOk Ok (some s) (List.replicate k (.turn .allowed))) {s' : System}
    (hrun : service.run (some s) (List.replicate k (.turn .allowed)) = some s') : s.sent.length < s'.sent.length := by
  induction k generalizing s with
  | zero => omega
  | succ k ih =>
    rw [List.replicate_succ] at hok hrun
    obtain ⟨s₁, hstep, hadv⟩ := step_advances h (hok.1 s rfl)
    obtain ⟨s₁', hturn, hnumber, hnearer⟩ := turn_nearer h hb hhas (hok.1 s rfl)
    obtain rfl : s₁ = s₁' := Option.some.inj (hstep.symm.trans hturn)
    have hrest := hok.2
    rw [service_step, hstep] at hrest
    rw [Machine.run_cons, service_step, hstep] at hrun
    obtain ⟨s₂, hrun₂, hadv₂⟩ := run_advances hadv.inv hrest
    obtain rfl : s₂ = s' := Option.some.inj (hrun₂.symm.trans hrun)
    rcases hnearer with hsent | ⟨hpending, hneed⟩
    · exact hsent.trans_le hadv₂.sent.length_le
    · have hhas' : s₁.Has b := ⟨hhas.1, hhas.2.trans hnumber.ge⟩
      exact hadv.sent.length_le.trans_lt (ih hadv.inv hpending hhas' (by omega) hrest hrun)

/-! ### Rounds -/

def undisturbed : List Event :=
  List.replicate (2 * (c_maxReceivedDownloadRequestPerPeer + 2)) (.turn .allowed)

def rounds (ess : List (List Event)) : List Event := ess.flatMap (· ++ undisturbed)

theorem rounds_send {ess : List (List Event)} {s s' : System} (h : Inv s) {b : Int} (hb : Covered s.requested b)
    (hhas : s.Has b) (hok : service.RunOk Ok (some s) (rounds ess)) (hrun : service.run (some s) (rounds ess) = some s')
    (hmissing : b ∉ s'.sent) : s.sent.length + ess.length ≤ s'.sent.length := by
  induction ess generalizing s with
  | nil =>
    cases hrun
    exact le_refl _
  | cons es ess ih =>
    rw [rounds, List.flatMap_cons, ← rounds, List.append_assoc] at hok hrun
    obtain ⟨hokEvents, hok⟩ := Machine.RunOk.append.mp hok
    rw [Machine.run_append] at hrun
    obtain ⟨s₁, hrun₁, hadv₁⟩ := run_advances h hokEvents
    rw [hrun₁] at hok hrun
    obtain ⟨hokTurns, hok⟩ := Machine.RunOk.append.mp hok
    rw [Machine.run_append] at hrun
    obtain ⟨s₂, hrun₂, hadv₂⟩ := run_advances hadv₁.inv hokTurns
    rw [hrun₂] at hok hrun
    obtain ⟨s₃, hrun₃, hadv₃⟩ := run_advances hadv₂.inv hok
    obtain rfl : s₃ = s' := Option.some.inj (hrun₃.symm.trans hrun)
    have hhas₁ : s₁.Has b := hadv₁.has hhas
    have hhas₂ : s₂.Has b := hadv₂.has hhas₁
    have hb₁ := hadv₁.requested b hb
    have hpending : s₁.Pending b :=
      (hadv₁.inv.kept b hb₁).resolve_left fun hsent => hmissing ((hadv₂.trans hadv₃).sent.subset hsent)
    have hsends : s₁.sent.length < s₂.sent.length := by
      have hneed := need_le hadv₁.inv
      exact turns_send hadv₁.inv hpending hhas₁ (by omega) hokTurns hrun₂
    have hrest := ih hadv₂.inv (hadv₂.requested b hb₁) hhas₂ hok hrun
    have hfirst := hadv₁.sent.length_le
    rw [List.length_cons]
    omega

/-! ### The requests of a peer -/

theorem Inv.init (number : Int) : Inv { number } := by
  refine ⟨List.Pairwise.nil, nofun, nofun, Nat.zero_le _, fun b hb => absurd hb (covered_nil b), fun b hb => ?_, nofun⟩
  rcases hb with hsent | hqueue | ⟨_, _, heq, -⟩
  · cases hsent
  · exact hqueue
  · cases heq

def received (r : BitVec 64 × BitVec 32) : DownloadRequest := ⟨r.1.toInt, r.2.toNat⟩

theorem fit_received {r : BitVec 64 × BitVec 32} (h : (received r).limit < 2 ^ 63) : Fit (received r) :=
  ⟨(fits_toInt r.1).1, Int.natCast_nonneg _, h⟩

theorem sum_received (requests : List (BitVec 64 × BitVec 32)) :
    ((requests.map received).map DownloadRequest.size).sum ≤ requests.length * 2 ^ 32 := by
  induction requests with
  | nil => exact le_refl _
  | cons r requests ih =>
    have hsize : (r.2.toNat : Int) < 2 ^ 32 := by
      have := r.2.isLt
      omega
    have hfirst : (received r).size = r.2.toNat := rfl
    rw [List.map_cons, List.map_cons, List.sum_cons, List.length_cons]
    push_cast
    omega

theorem pushes_perm {rs q : List DownloadRequest} (hroom : q.length + rs.length ≤ c_maxReceivedDownloadRequestPerPeer) :
    (rs.foldl push q).Perm (rs ++ q) := by
  induction rs generalizing q with
  | nil => exact List.Perm.refl _
  | cons r rs ih =>
    rw [List.length_cons] at hroom
    have hfirst : q.length < c_maxReceivedDownloadRequestPerPeer := by omega
    have hlength := @length_push q r hfirst
    rw [List.foldl_cons]
    exact ((ih (by omega)).trans ((push_perm hfirst).append_left rs)).trans List.perm_middle

theorem pushes_sorted {rs q : List DownloadRequest} (hsorted : q.Pairwise Above) : (rs.foldl push q).Pairwise Above := by
  induction rs generalizing q with
  | nil => exact hsorted
  | cons r rs ih => exact ih (push_sorted hsorted)

theorem requests_drained {requests : List (BitVec 64 × BitVec 32)}
    (hroom : requests.length ≤ c_maxReceivedDownloadRequestPerPeer)
    (hlimits : ∀ r ∈ requests, (received r).limit < 2 ^ 63) :
    ∃ rs, drain requests.length ((requests.map received).foldl push []) = some rs
      ∧ rs.Pairwise (fun a b => a.limit < b.fromNumber)
      ∧ ∀ b, Covered rs b ↔ Covered (requests.map received) b := by
  have hperm := @pushes_perm (requests.map received) [] (by simpa using hroom)
  rw [List.append_nil] at hperm
  have hlength : ((requests.map received).foldl push []).length = requests.length := by
    rw [hperm.length_eq, List.length_map]
  have hfit : ∀ r ∈ (requests.map received).foldl push [], Fit r := by
    intro r hr
    obtain ⟨r', hr', rfl⟩ := List.mem_map.mp (hperm.mem_iff.mp hr)
    exact fit_received (hlimits r' hr')
  have hsum : (((requests.map received).foldl push []).map DownloadRequest.size).sum < 2 ^ 63 := by
    have hall := sum_received requests
    rw [(hperm.map _).sum_eq]
    unfold c_maxReceivedDownloadRequestPerPeer at hroom
    omega
  obtain ⟨rs, hdrain, hapart, -, hcovered⟩ :=
    drain_spec hlength.le (pushes_sorted List.Pairwise.nil) hfit hsum
  refine ⟨rs, hdrain, hapart, fun b => (hcovered b).trans ?_⟩
  exact exists_congr fun r => and_congr_left fun _ => hperm.mem_iff

/-- The requests of a queue with room merge to disjoint ranges exactly when none
    ends behind the 64-bit numbers.  From an empty queue on, what was asked for is
    what was sent or waits, and after more rounds than blocks were asked for every
    block that was there has been sent. -/
theorem requested_blocks_sent (requests : List (BitVec 64 × BitVec 32)) (number : Int) (es : List Event)
    (ess : List (List Event)) :
    (requests.length ≤ c_maxReceivedDownloadRequestPerPeer →
      ((∃ rs, drain requests.length ((requests.map received).foldl push []) = some rs
          ∧ rs.Pairwise (fun a b => a.limit < b.fromNumber)
          ∧ ∀ b, Covered rs b ↔ Covered (requests.map received) b)
        ↔ ∀ r ∈ requests, (received r).limit < 2 ^ 63))
    ∧ (service.RunOk Ok (some { number }) es → ∃ s, service.run (some { number }) es = some s
        ∧ (∀ b, Covered s.requested b ↔ b ∈ s.sent ∨ s.Pending b) ∧ ∀ b ∈ s.sent, s.Has b)
    ∧ (service.RunOk Ok (some { number }) (es ++ rounds ess) → ∃ s s', service.run (some { number }) es = some s
        ∧ service.run (some { number }) (es ++ rounds ess) = some s'
        ∧ (asked s'.number (es ++ rounds ess) < ess.length →
            ∀ b, Covered s.requested b → s.Has b → b ∈ s'.sent)) := by
  have hinit := Inv.init number
  refine ⟨fun hroom => ⟨?_, requests_drained hroom⟩, fun hok => ?_, fun hok => ?_⟩
  · rintro ⟨rs, hdrain, -⟩ r hr
    have hperm := @pushes_perm (requests.map received) [] (by simpa using hroom)
    refine drain_limit_lt hdrain _ (hperm.mem_iff.mpr ?_)
    rw [List.append_nil]
    exact List.mem_map_of_mem hr
  · obtain ⟨s, hrun, hadv⟩ := run_advances hinit hok
    exact ⟨s, hrun, fun b => ⟨hadv.inv.kept b, hadv.inv.asked b⟩, hadv.inv.sent⟩
  · obtain ⟨hokFirst, hokRounds⟩ := Machine.RunOk.append.mp hok
    obtain ⟨s, hrun, hadv⟩ := run_advances hinit hokFirst
    rw [hrun] at hokRounds
    obtain ⟨s', hrun', hadv'⟩ := run_advances hadv.inv hokRounds
    refine ⟨s, s', hrun, by rw [Machine.run_append, hrun, hrun'], fun hrounds b hb hhas => ?_⟩
    by_contra hmissing
    have hsent := rounds_send hadv.inv hb hhas hokRounds hrun' hmissing
    have hload := (hadv.trans hadv').load s'.number (le_refl _)
    have hstart : ({ number } : System).load s'.number = 0 := rfl
    rw [hstart, List.length_nil] at hload
    omega

/-- A range that is stopped by a limiter while its second block is asked for again. -/
def stoppedOnce : List Event :=
  [.request 0 2, .turn .allowed, .turn .allowed, .turn .refused, .request 1 1, .turn .allowed, .turn .allowed,
    .turn .allowed]

def System.Idle (s : System) : Prop := s.serving = none ∧ s.reqQueue = []

theorem idle_turns {s : System} (h : s.Idle) (k : Nat) :
    service.RunOk Ok (some s) (List.replicate k (.turn .allowed))
      ∧ service.run (some s) (List.replicate k (.turn .allowed)) = some s := by
  induction k with
  | zero => exact ⟨trivial, rfl⟩
  | succ k ih =>
    have hstep : s.step (.turn .allowed) = some s := by
      rw [System.step, System.turn, h.1]
      exact if_pos (Or.inr h.2)
    rw [List.replicate_succ, Machine.run_cons, service_step, hstep]
    refine ⟨⟨fun s' heq => ?_, ?_⟩, ih.2⟩
    · obtain rfl := Option.some.inj heq
      intro hstops
      rw [System.Stops, h.1] at hstops
      cases hstops
    · rw [service_step, hstep]
      exact ih.1

theorem idle_rounds {s : System} (h : s.Idle) (n : Nat) :
    service.RunOk Ok (some s) (rounds (List.replicate n []))
      ∧ service.run (some s) (rounds (List.replicate n [])) = some s := by
  induction n with
  | zero => exact ⟨trivial, rfl⟩
  | succ n ih =>
    obtain ⟨hok, hrun⟩ := idle_turns h (2 * (c_maxReceivedDownloadRequestPerPeer + 2))
    rw [List.replicate_succ, rounds, List.flatMap_cons, ← rounds, List.nil_append, undisturbed, Machine.run_append,
      hrun]
    exact ⟨Machine.RunOk.append.mpr ⟨hok, hrun.symm ▸ ih.1⟩, ih.2⟩

theorem asked_rounds (top : Int) (n : Nat) : asked top (rounds (List.replicate n [])) = 0 := by
  have hturns : asked top undisturbed = 0 := by
    rw [asked, undisturbed, List.map_replicate, List.sum_replicate]
    rfl
  induction n with
  | zero => rfl
  | succ n ih =>
    rw [List.replicate_succ, rounds, List.flatMap_cons, ← rounds, List.nil_append, asked_append, hturns, ih]

/-- Overlapping requests of a queue, and a run that serves both blocks of a chain. -/
theorem requested_blocks_sent_stoppedOnce :
    (∃ rs, drain 3 [⟨0, 2⟩, ⟨1, 3⟩, ⟨10, 1⟩] = some rs ∧ rs.Pairwise (fun a b => a.limit < b.fromNumber))
      ∧ (∃ s, service.run (some { number := 1 }) stoppedOnce = some s ∧ ∀ b ∈ s.sent, s.Has b)
      ∧ ∃ s s', service.run (some { number := 1 }) stoppedOnce = some s
        ∧ service.run (some { number := 1 }) (stoppedOnce ++ rounds (List.replicate 4 [])) = some s'
        ∧ ∀ b, Covered s.requested b → s.Has b → b ∈ s'.sent := by
  obtain ⟨hmerge, hsafe, hlive⟩ := requested_blocks_sent [(1, 3), (0, 2), (10, 1)] 1 stoppedOnce (List.replicate 4 [])
  have hok : service.RunOk Ok (some { number := 1 }) stoppedOnce := by decide
  have hrun : service.run (some { number := 1 }) stoppedOnce
      = some { number := 1, sent := [0, 1], requested := [⟨1, 1⟩, ⟨0, 2⟩] } := by decide
  have hidle : System.Idle { number := 1, sent := [0, 1], requested := [⟨1, 1⟩, ⟨0, 2⟩] } := ⟨rfl, rfl⟩
  obtain ⟨hokIdle, hrunIdle⟩ := idle_rounds hidle 4
  refine ⟨?_, ?_, ?_⟩
  · have hlimits : ∀ r ∈ [((1, 3) : BitVec 64 × BitVec 32), (0, 2), (10, 1)], (received r).limit < 2 ^ 63 := by
      simp [received, DownloadRequest.limit]
    obtain ⟨rs, hdrain, hapart, -⟩ := (hmerge (by decide)).mpr hlimits
    exact ⟨rs, hdrain, hapart⟩
  · obtain ⟨s, hrun', -, hhas⟩ := hsafe hok
    exact ⟨s, hrun', hhas⟩
  · obtain ⟨s, s', hrun₁, hrun₂, hall⟩ := hlive (Machine.RunOk.append.mpr ⟨hok, hrun.symm ▸ hokIdle⟩)
    refine ⟨s, s', hrun₁, hrun₂, hall ?_⟩
    rw [Machine.run_append, hrun, hrunIdle] at hrun₂
    obtain rfl := Option.some.inj hrun₂
    rw [asked_append, asked_rounds]
    decide

def stuck : List System :=
  [{ number := 0, reqQueue := [⟨-1, 1⟩, ⟨0, 1⟩], requested := [⟨0, 1⟩, ⟨-1, 1⟩] },
    { number := 0, serving := some (-1, 1), requested := [⟨0, 1⟩, ⟨-1, 1⟩] },
    { number := 0, reqQueue := [⟨-1, 2⟩], requested := [⟨0, 1⟩, ⟨-1, 1⟩] }]

theorem turn_stuck (v : Verdict) : ∀ s ∈ stuck, ∃ s' ∈ stuck, s.step (.turn v) = some s' := by
  cases v with
  | timeout => decide
  | refused => decide
  | allowed => decide

theorem run_stuck (vs : List Verdict) : ∀ s ∈ stuck, ∃ s' ∈ stuck, service.run (some s) (vs.map .turn) = some s' := by
  induction vs with
  | nil => exact fun s hs => ⟨s, hs, rfl⟩
  | cons v vs ih =>
    intro s hs
    obtain ⟨s₁, hs₁, hstep⟩ := turn_stuck v s hs
    rw [List.map_cons, Machine.run_cons, service_step, hstep]
    exact ih s₁ hs₁

/-- A request for a block below the first one keeps the queue for itself, and one
    that ends behind the 64-bit numbers overflows. -/
theorem negative_request_blocks_queue :
    drain 1 [⟨2 ^ 63 - 1, 1⟩] = none ∧ ∀ vs : List Verdict, ∃ s,
      service.run (some { number := 0 }) ([.request (-1) 1, .request 0 1] ++ vs.map .turn) = some s
        ∧ (∃ r ∈ s.requested, r.fromNumber ≤ 0 ∧ 0 < r.limit) ∧ s.Has 0 ∧ s.sent = [] := by
  refine ⟨by decide, fun vs => ?_⟩
  have hstart : service.run (some { number := 0 }) [.request (-1) 1, .request 0 1] = stuck.head? := by decide
  obtain ⟨s, hs, hrun⟩ := run_stuck vs _ (List.head_mem (l := stuck) nofun)
  have hwaits : ∀ s ∈ stuck, (∃ r ∈ s.requested, r.fromNumber ≤ 0 ∧ 0 < r.limit) ∧ s.Has 0 ∧ s.sent = [] := by
    decide
  refine ⟨s, ?_, hwaits s hs⟩
  rw [Machine.run_append, hstart, ← hrun]
  rfl

end HieraChain.RspBlockReq
