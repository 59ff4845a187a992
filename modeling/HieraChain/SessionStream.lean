/-
  HieraChain/SessionStream.lean
  =============================
  **The read loop of a session between nodes** (`libnetwork/Session.cpp`,
  `doRead`, `onMessage`, `drop`; `libp2p/Service.cpp`, the error branch of
  `onMessage`; `libp2p/P2PSession.cpp`, `stop`).

  A read adds bytes to `m_data`; the loop decodes messages off the front and
  hands each to `onMessage`, then issues the next read.  A decoding error goes
  through `onMessage` too, which looks for a callback of the message's sequence
  number first; without one the message handler gets the error, stops the session
  and removes it.

  The encoded messages are delivered in order however they are cut.  A length
  below that of the header makes `decode` throw, and an error whose message, not a
  request and with sequence number 0, meets a callback is not a reason to stop:
  in both cases no read is issued and nobody stops the session.  Otherwise it
  reads on or is handed to its handler (`session_stream`).  What any bytes do to a
  session does not depend on how they are cut (`stream_of_any_bytes`).
-/
import HieraChain.P2PFormat

namespace HieraChain.P2P

instance instLawfulBEqSeq : LawfulBEq (BitVec 32) := instLawfulBEq

open HieraChain.BigEndian

/-! ### Sessions -/

/-- A session with its entry in the service.  `delivered` are the messages given to
    `onMessage` without an error, `reading` says that a read is outstanding,
    `seq2Callback` has the sequence numbers with a callback, `errors` counts the
    calls of the message handler with an error that wait in the thread pool;
    `run` is the flag of the `P2PSession`, `listed` that `m_sessions` has it. -/
structure Session (F : Format) where
  actived : Bool := true
  data : Bytes := []
  delivered : List F.Message := []
  reading : Bool := true
  seq2Callback : List (BitVec 32) := []
  errors : Nat := 0
  run : Bool := true
  listed : Bool := true

inductive Input
  /-- The outstanding read brings bytes; the flag says whether the socket is still
      connected when the next one is to be issued. -/
  | received (bytes : Bytes) (connected : Bool)
  | readError
  /-- A write error, an idle timer, or a disconnection by somebody else. -/
  | drop
  | addSeqCallback (seq : BitVec 32)
  | removeSeqCallback (seq : BitVec 32)
  /-- The thread pool calls the message handler with an error. -/
  | handleError

namespace Session

variable {F : Format}

/-- The callbacks are told and forgotten, the message handler gets the error. -/
def drop (s : Session F) : Session F :=
  if s.actived then { s with actived := false, seq2Callback := [], errors := s.errors + 1 } else s

/-- `onMessage` with an error. -/
def onError (s : Session F) (message : F.Message) : Session F :=
  if s.actived then
    if F.seq message ∈ s.seq2Callback ∧ F.isRequestPacket message = false then s
    else { s with errors := s.errors + 1 }
  else s

def doRead (s : Session F) (connected : Bool) : Session F :=
  if s.actived then
    if connected then { s with reading := true } else s.drop
  else s

def onRead (s : Session F) (bytes : Bytes) (connected : Bool) : Session F :=
  let taken := F.framing.take (s.data ++ bytes)
  let s := { s with
    data := taken.2.1
    delivered := if s.actived then s.delivered ++ taken.1 else s.delivered }
  match taken.2.2 with
  | .wants => s.doRead connected
  | .broken message => s.onError message
  | .thrown => s

def stop (s : Session F) : Session F := if s.run then { s with run := false }.drop else s

/-- `Service::onMessage` with an error: `stop` and `onDisconnect`. -/
def handleError (s : Session F) : Session F := { s.stop with listed := false }

end Session

def session (F : Format) : Machine (Session F) Input where
  step s
    | .received bytes connected => if s.reading then { s with reading := false }.onRead bytes connected else s
    | .readError => if s.reading then { s with reading := false }.drop else s
    | .drop => s.drop
    | .addSeqCallback seq => if s.actived then { s with seq2Callback := seq :: s.seq2Callback } else s
    | .removeSeqCallback seq => { s with seq2Callback := s.seq2Callback.filter fun seq' => seq' ≠ seq }
    | .handleError => if 0 < s.errors then { s with errors := s.errors - 1 }.handleError else s

/-- A read is outstanding, or the message handler has an error to handle, or it
    has stopped and removed the session. -/
def Settled {F : Format} (s : Session F) : Prop :=
  s.reading = true ∨ 0 < s.errors ∨ (s.actived = false ∧ s.listed = false)

instance {F : Format} (s : Session F) : Decidable (Settled s) := inferInstanceAs (Decidable (_ ∨ _))

/-- The condition on a read of a session that is alive: behind whole frames there
    is no header that announces less than a header, and, where a message of which
    only the length was read does not count as a request, there is none that
    announces too much while sequence number 0 has a callback. -/
def ReadOk {F : Format} (s : Session F) : Input → Prop
  | .received bytes _ => s.reading = true → s.actived = true →
    ¬ F.framing.Behind F.Under (s.data ++ bytes) ∧
    (F.framing.Behind F.Long (s.data ++ bytes) → F.blank = true ∨ 0 ∉ s.seq2Callback)
  | _ => True

/-! ### One step -/

section step

variable {F : Format} {s : Session F}

structure Inv (s : Session F) : Prop where
  stopped : s.run = false → s.actived = false
  dropped : s.actived = false → 0 < s.errors ∨ s.listed = false
  handed : s.actived = true → s.reading = true → s.errors = 0

theorem Inv.settled (h : Inv s) (hactived : s.actived = false) : Settled s :=
  .inr ((h.dropped hactived).imp_right fun hlisted => ⟨hactived, hlisted⟩)

theorem drop_actived (s : Session F) : s.drop.actived = false := by
  unfold Session.drop
  split
  · rfl
  · next h => exact Bool.not_eq_true _ ▸ h

theorem drop_inv (h : s.actived = false → 0 < s.errors ∨ s.listed = false) : Inv s.drop := by
  have hactived := drop_actived s
  refine ⟨fun _ => hactived, fun _ => ?_, fun h' => absurd h' (by simp [hactived])⟩
  unfold Session.drop
  split
  · exact .inl (Nat.succ_pos _)
  · next hold => exact h (by simpa using hold)

theorem handleError_spec (h : s.run = false → s.actived = false) :
    s.handleError.actived = false ∧ s.handleError.listed = false := by
  refine ⟨?_, rfl⟩
  show s.stop.actived = false
  unfold Session.stop
  split
  · exact drop_actived _
  · next hrun => exact h (by simpa using hrun)

theorem handleError_inv (h : s.run = false → s.actived = false) : Inv s.handleError := by
  obtain ⟨hactived, hlisted⟩ := handleError_spec h
  exact ⟨fun _ => hactived, fun _ => .inr hlisted, fun h' => absurd h' (by simp [hactived])⟩

theorem onRead_inv (h : Inv s) (hreading : s.reading = false) (bytes : Bytes) (connected : Bool)
    (herrors : s.actived = true → s.errors = 0) : Inv (s.onRead bytes connected) := by
  unfold Session.onRead
  dsimp only
  generalize hu : ({ s with
    data := (F.framing.take (s.data ++ bytes)).2.1
    delivered := if s.actived then s.delivered ++ (F.framing.take (s.data ++ bytes)).1 else s.delivered } : Session F) = u
  have hinv : Inv u := by
    subst hu
    exact ⟨h.stopped, h.dropped, h.handed⟩
  have hactived : u.actived = s.actived := by rw [← hu]
  have hzero : u.errors = s.errors := by rw [← hu]
  cases (F.framing.take (s.data ++ bytes)).2.2 with
  | wants =>
    unfold Session.doRead
    dsimp only
    split
    · next hlive =>
      split
      · exact ⟨hinv.stopped, hinv.dropped, fun _ _ => by rw [hzero, herrors (hactived ▸ hlive)]⟩
      · exact drop_inv hinv.dropped
    · exact hinv
  | broken message =>
    unfold Session.onError
    dsimp only
    split
    · next hlive =>
      split
      · exact hinv
      · refine ⟨hinv.stopped, fun _ => .inl (Nat.succ_pos _), fun _ hread => ?_⟩
        rw [← hu] at hread
        simp only [hreading] at hread
        cases hread
    · exact hinv
  | thrown => exact hinv

theorem step_inv (s : Session F) (i : Input) (h : Inv s) : Inv ((session F).step s i) := by
  cases i with
  | received bytes connected =>
    simp only [session]
    split
    · next hreading =>
      refine onRead_inv (s := { s with reading := false }) ⟨h.stopped, h.dropped, ?_⟩ rfl bytes connected ?_
      · intro _ hread
        cases hread
      · exact fun hactived => h.handed hactived hreading
    · exact h
  | readError =>
    simp only [session]
    split
    · exact drop_inv h.dropped
    · exact h
  | drop => exact drop_inv h.dropped
  | addSeqCallback seq =>
    simp only [session]
    split
    · exact ⟨h.stopped, h.dropped, h.handed⟩
    · exact h
  | removeSeqCallback seq => exact ⟨h.stopped, h.dropped, h.handed⟩
  | handleError =>
    simp only [session]
    split
    · exact handleError_inv h.stopped
    · exact h

theorem start_inv (F : Format) : Inv ({} : Session F) := ⟨nofun, nofun, fun _ _ => rfl⟩

/-- **After a read the session reads on or is handed to its handler, exactly under
    the condition.** -/
theorem received_settled_iff (h : Inv s) (hactived : s.actived = true) (hreading : s.reading = true) (bytes : Bytes)
    (connected : Bool) : Settled ((session F).step s (.received bytes connected)) ↔ ReadOk s (.received bytes connected) := by
  have herrors : s.errors = 0 := h.handed hactived hreading
  simp only [ReadOk, hactived, hreading, true_implies, F.behind_under, F.behind_long]
  simp only [session, hreading, if_true, Session.onRead]
  cases hend : (F.framing.take (s.data ++ bytes)).2.2 with
  | wants =>
    refine iff_of_true ?_ ⟨by simp, by simp⟩
    simp only [Session.doRead, hactived, if_true]
    split
    · exact .inl rfl
    · exact .inr (.inl (by simp [Session.drop]))
  | broken message =>
    obtain ⟨hseq, hblank⟩ := F.broken_blank hend
    simp only [Session.onError, hactived, if_true, hseq, hblank]
    by_cases hdiverted : (0 : BitVec 32) ∈ s.seq2Callback ∧ F.blank = false
    · rw [if_pos hdiverted]
      refine iff_of_false ?_ ?_
      · rintro (hread | hqueued | ⟨hlive, -⟩)
        · cases hread
        · simp only [herrors] at hqueued
          exact absurd hqueued (lt_irrefl 0)
        · cases hlive
      · rintro ⟨-, hlong⟩
        rcases hlong ⟨message, rfl⟩ with hrequest | hnone
        · rw [hdiverted.2] at hrequest
          cases hrequest
        · exact hnone hdiverted.1
    · rw [if_neg hdiverted]
      refine iff_of_true (.inr (.inl (Nat.succ_pos _))) ⟨by simp, fun _ => ?_⟩
      by_cases hmem : (0 : BitVec 32) ∈ s.seq2Callback
      · exact .inl (by simpa using fun hfalse => hdiverted ⟨hmem, hfalse⟩)
      · exact .inr hmem
  | thrown =>
    refine iff_of_false ?_ fun hok => hok.1 rfl
    rintro (hread | hqueued | ⟨hlive, -⟩)
    · cases hread
    · simp only [herrors] at hqueued
      exact absurd hqueued (lt_irrefl 0)
    · simp only [hactived] at hlive
      cases hlive

theorem step_settled_iff (s : Session F) (i : Input) (h : Inv s) (hsettled : Settled s) :
    Settled ((session F).step s i) ↔ ReadOk s i := by
  cases hactived : s.actived with
  | false =>
    have hdead : ((session F).step s i).actived = false := by
      cases i with
      | received bytes connected =>
        simp only [session, Session.onRead]
        split
        · split
          · simp [Session.doRead, hactived]
          · simp [Session.onError, hactived]
          · exact hactived
        · exact hactived
      | readError =>
        simp only [session]
        split
        · exact drop_actived _
        · exact hactived
      | drop => exact drop_actived s
      | addSeqCallback seq => simp [session, hactived]
      | removeSeqCallback seq => exact hactived
      | handleError =>
        simp only [session]
        split
        · exact (handleError_spec (s := { s with errors := s.errors - 1 }) h.stopped).1
        · exact hactived
    refine iff_of_true ((step_inv s i h).settled hdead) ?_
    cases i with
    | received bytes connected => exact fun _ hlive => absurd hlive (by simp [hactived])
    | readError => exact trivial
    | drop => exact trivial
    | addSeqCallback seq => exact trivial
    | removeSeqCallback seq => exact trivial
    | handleError => exact trivial
  | true =>
    cases i with
    | received bytes connected =>
      by_cases hreading : s.reading = true
      · exact received_settled_iff h hactived hreading bytes connected
      · refine iff_of_true ?_ fun hread => absurd hread hreading
        simp only [session, hreading]
        exact hsettled
    | readError =>
      refine iff_of_true ?_ trivial
      by_cases hreading : s.reading = true
      · have hdead : ((session F).step s .readError).actived = false := by
          simp only [session, hreading, if_true]
          exact drop_actived _
        exact (step_inv s .readError h).settled hdead
      · simp only [session, hreading]
        exact hsettled
    | drop => exact iff_of_true ((step_inv s .drop h).settled (drop_actived s)) trivial
    | addSeqCallback seq =>
      refine iff_of_true ?_ trivial
      have hstep : (session F).step s (.addSeqCallback seq) = { s with seq2Callback := seq :: s.seq2Callback } :=
        if_pos hactived
      rw [hstep]
      exact hsettled
    | removeSeqCallback seq => exact iff_of_true hsettled trivial
    | handleError =>
      refine iff_of_true ?_ trivial
      by_cases hqueued : 0 < s.errors
      · have hdead : ((session F).step s .handleError).actived = false := by
          simp only [session, hqueued, if_true]
          exact (handleError_spec (s := { s with errors := s.errors - 1 }) h.stopped).1
        exact (step_inv s .handleError h).settled hdead
      · simp only [session, hqueued, if_false]
        exact hsettled

end step

/-! ### Whole streams -/

section streams

variable {F : Format} {s : Session F}

structure Open (s : Session F) : Prop where
  actived : s.actived = true
  reading : s.reading = true
  errors : s.errors = 0
  left : F.verdict s.data = .incomplete

theorem open_start (F : Format) : Open ({} : Session F) := ⟨rfl, rfl, rfl, F.framing.nil⟩

def Session.taking (s : Session F) (bytes : Bytes) : Session F :=
  { s with
    data := (F.framing.take (s.data ++ bytes)).2.1
    delivered := s.delivered ++ (F.framing.take (s.data ++ bytes)).1 }

theorem Open.step (h : Open s) {bytes : Bytes} (hwants : (F.framing.take (s.data ++ bytes)).2.2 = .wants) :
    (session F).step s (.received bytes true) = s.taking bytes ∧ Open (s.taking bytes) := by
  have hreading := h.reading
  have hactived := h.actived
  constructor
  · simp only [session, hreading, if_true, Session.onRead, hwants, Session.doRead, hactived, Session.taking]
  · exact ⟨h.actived, h.reading, h.errors, Framing.take_left hwants⟩

/-- **However the bytes are cut, the session takes the messages of all of them.** -/
theorem run_cuts (cuts : List Bytes) (h : Open s) (hwants : (F.framing.take (s.data ++ cuts.flatten)).2.2 = .wants) :
    (session F).run s (cuts.map (.received · true)) = s.taking cuts.flatten ∧ Open (s.taking cuts.flatten) := by
  induction cuts generalizing s with
  | nil =>
    have hnothing : s.taking [] = s := by
      simp only [Session.taking, List.append_nil, Framing.take_incomplete (F := F.framing) h.left]
    rw [List.flatten_nil, hnothing]
    exact ⟨rfl, h⟩
  | cons cut cuts ih =>
    have hcut : (F.framing.take (s.data ++ cut)).2.2 = .wants := by
      by_contra hover
      rw [List.flatten_cons, ← List.append_assoc, Framing.take_over hover] at hwants
      exact hover hwants
    obtain ⟨hstep, hopen⟩ := h.step hcut
    have htake : F.framing.take (s.data ++ (cut ++ cuts.flatten)) =
        ((F.framing.take (s.data ++ cut)).1 ++ (F.framing.take ((s.taking cut).data ++ cuts.flatten)).1,
          (F.framing.take ((s.taking cut).data ++ cuts.flatten)).2) := by
      rw [← List.append_assoc]
      exact Framing.take_append hcut cuts.flatten
    have hrest : (F.framing.take ((s.taking cut).data ++ cuts.flatten)).2.2 = .wants := by
      rw [List.flatten_cons, htake] at hwants
      exact hwants
    obtain ⟨hrun, hlast⟩ := ih hopen hrest
    have hsame : s.taking (cut ++ cuts.flatten) = (s.taking cut).taking cuts.flatten := by
      simp only [Session.taking, htake, List.append_assoc]
    rw [List.map_cons, (session F).run_cons, hstep, List.flatten_cons, hsame]
    exact ⟨hrun, hlast⟩

theorem run_over (hreading : s.reading = false) (cuts : List Bytes) :
    (session F).run s (cuts.map (.received · true)) = s := by
  induction cuts with
  | nil => rfl
  | cons cut cuts ih =>
    have hstep : (session F).step s (.received cut true) = s := by simp [session, hreading]
    rw [List.map_cons, (session F).run_cons, hstep, ih]

/-- Whether the session reads on, and how many errors wait for the handler. -/
def Session.ended (s : Session F) : Ending F.Message → Bool × Nat
  | .wants => (true, 0)
  | .broken message => (false, if F.seq message ∈ s.seq2Callback ∧ F.isRequestPacket message = false then 0 else 1)
  | .thrown => (false, 0)

theorem Open.step_over (h : Open s) {bytes : Bytes} (hover : (F.framing.take (s.data ++ bytes)).2.2 ≠ .wants) :
    ((session F).step s (.received bytes true)).delivered = s.delivered ++ (F.framing.take (s.data ++ bytes)).1
      ∧ ((session F).step s (.received bytes true)).reading = false
      ∧ (((session F).step s (.received bytes true)).reading, ((session F).step s (.received bytes true)).errors)
        = s.ended (F.framing.take (s.data ++ bytes)).2.2 := by
  have hreading := h.reading
  have hactived := h.actived
  have herrors := h.errors
  cases hend : (F.framing.take (s.data ++ bytes)).2.2 with
  | wants => exact absurd hend hover
  | thrown => simp [session, hreading, Session.onRead, hend, hactived, Session.ended, herrors]
  | broken message =>
    simp only [session, hreading, if_true, Session.onRead, hend, hactived, Session.onError, Session.ended]
    by_cases hdiverted : F.seq message ∈ s.seq2Callback ∧ F.isRequestPacket message = false
    · rw [if_pos hdiverted, if_pos hdiverted]
      exact ⟨rfl, rfl, Prod.ext rfl herrors⟩
    · rw [if_neg hdiverted, if_neg hdiverted]
      exact ⟨rfl, rfl, Prod.ext rfl (congrArg (· + 1) herrors)⟩

theorem Open.run (h : Open s) (cuts : List Bytes) :
    ((session F).run s (cuts.map (.received · true))).delivered
        = s.delivered ++ (F.framing.take (s.data ++ cuts.flatten)).1
      ∧ (((session F).run s (cuts.map (.received · true))).reading,
          ((session F).run s (cuts.map (.received · true))).errors)
        = s.ended (F.framing.take (s.data ++ cuts.flatten)).2.2 := by
  induction cuts generalizing s with
  | nil =>
    rw [List.flatten_nil, List.append_nil, Framing.take_incomplete (F := F.framing) h.left]
    exact ⟨(List.append_nil _).symm, Prod.ext h.reading h.errors⟩
  | cons cut cuts ih =>
    rw [List.map_cons, (session F).run_cons, List.flatten_cons, ← List.append_assoc]
    by_cases hwants : (F.framing.take (s.data ++ cut)).2.2 = .wants
    · obtain ⟨hstep, hopen⟩ := h.step hwants
      obtain ⟨hdelivered, hended⟩ := ih hopen
      rw [hstep, Framing.take_append hwants]
      refine ⟨?_, hended⟩
      rw [hdelivered, Session.taking, List.append_assoc]
    · obtain ⟨hdelivered, hreading, hended⟩ := h.step_over hwants
      rw [run_over hreading, Framing.take_over hwants, Framing.take_over_frames hwants]
      exact ⟨hdelivered, hended⟩

/-- **Any bytes, however they are cut.**  A session is given the messages at the front
    of all the bytes that arrive, malformed ones included; these alone decide whether
    it reads on and how many errors the handler gets. -/
theorem stream_of_any_bytes (F : Format) (pending : List (BitVec 32)) (cuts : List Bytes) :
    ((session F).run { seq2Callback := pending } (cuts.map (.received · true))).delivered
        = (F.framing.take cuts.flatten).1
      ∧ (((session F).run { seq2Callback := pending } (cuts.map (.received · true))).reading,
          ((session F).run { seq2Callback := pending } (cuts.map (.received · true))).errors)
        = Session.ended { seq2Callback := pending } (F.framing.take cuts.flatten).2.2 :=
  Open.run (s := { seq2Callback := pending }) ⟨rfl, rfl, rfl, F.framing.nil⟩ cuts

/-- The session handed on messages of these contents and nothing else, holds
    nothing back and reads on. -/
def Delivered {κ : Type} (content : F.Message → κ) (s : Session F) (contents : List κ) : Prop :=
  s.delivered.map content = contents ∧ s.data = [] ∧ s.reading = true ∧ s.actived = true ∧ s.errors = 0

/-- **Encoded messages are delivered**, when each encoding is a frame that carries
    its content. -/
theorem delivered_of_frames {α κ : Type} (content : F.Message → κ) (encode : α → Bytes) (expected : α → κ)
    (xs : List α) (cuts : List Bytes) (hcuts : cuts.flatten = xs.flatMap encode)
    (hframes : ∀ x ∈ xs, F.headerLength ≤ (encode x).length ∧
      ∃ m, F.decode (encode x) = some (((encode x).length : Int), m) ∧ content m = expected x) :
    Delivered content ((session F).run {} (cuts.map (.received · true))) (xs.map expected) := by
  have hfront : ∀ x ∈ xs, ∃ m, F.framing.verdict (encode x) = .frame (encode x).length m ∧ content m = expected x := by
    intro x hx
    obtain ⟨hheader, m, hdecode, hcontent⟩ := hframes x hx
    have hpos : 0 < (encode x).length := Nat.lt_of_lt_of_le (by decide) (F.four_le.trans hheader)
    refine ⟨m, ?_, hcontent⟩
    simp [Format.verdict, hdecode, List.length_pos_iff.mp hpos]
  have htake : ∃ ms, F.framing.take (xs.flatMap encode) = (ms, [], .wants) ∧ ms.map content = xs.map expected := by
    clear hcuts hframes
    induction xs with
    | nil => exact ⟨[], Framing.take_incomplete F.framing.nil, rfl⟩
    | cons x xs ih =>
      obtain ⟨m, hverdict, hcontent⟩ := hfront x List.mem_cons_self
      obtain ⟨ms, hms, hcontents⟩ := ih fun y hy => hfront y (List.mem_cons_of_mem x hy)
      refine ⟨m :: ms, ?_, by rw [List.map_cons, List.map_cons, hcontent, hcontents]⟩
      rw [List.flatMap_cons, Framing.take_frame_append hverdict, List.drop_length, List.nil_append, hms]
  obtain ⟨ms, hms, hcontents⟩ := htake
  have hwants : (F.framing.take (({} : Session F).data ++ cuts.flatten)).2.2 = .wants := by
    rw [hcuts]
    exact congrArg (fun t => t.2.2) hms
  obtain ⟨hrun, hopen⟩ := run_cuts cuts (open_start F) hwants
  rw [hrun]
  have htaken : F.framing.take (({} : Session F).data ++ cuts.flatten) = (ms, [], .wants) := by
    rw [hcuts]
    exact hms
  refine ⟨?_, ?_, hopen.reading, hopen.actived, hopen.errors⟩
  · simp only [Session.taking, htaken]
    exact hcontents
  · simp only [Session.taking, htaken]

end streams

def P2PMessage.content (m : P2PMessage) : Nat × BitVec 16 × BitVec 32 × Bytes :=
  (m.protocolID.toNat % 2 ^ 16, m.packetType, m.seq, m.buffer)

def P2PMessageRC2.content (m : P2PMessageRC2) : BitVec 32 × BitVec 16 × BitVec 32 × Bytes :=
  (m.protocolID, m.packetType, m.seq, m.buffer)

def Written (m : P2PMessageRC2) : Prop := m.dirty = false → P2PMessageRC2.HEADER_LENGTH ≤ m.cache.length

theorem written_encode (config : Config) {m : P2PMessageRC2} (h : Written m) :
    P2PMessageRC2.HEADER_LENGTH ≤ (m.encode config).2.cache.length := by
  have hwire : ∀ (m' : P2PMessageRC2) payload, P2PMessageRC2.HEADER_LENGTH ≤ (m'.encodeCache payload).cache.length := by
    intro m' payload
    simp only [P2PMessageRC2.encodeCache, P2PMessageRC2.wire, List.length_append, length_hton, P2PMessageRC2.HEADER_LENGTH]
    omega
  simp only [P2PMessageRC2.encode]
  split
  · split
    · exact hwire _ _
    · exact hwire _ _
  · next hclean => exact h (by simpa using hclean)

theorem written_run (config : Config) (calls : List CallRC2) : Written ((messagesRC2 config).run {} calls) := by
  have hstep : ∀ m call, Written m → Written ((messagesRC2 config).step m call) := by
    intro m call h
    cases call with
    | set setter =>
      intro hclean
      exact h (P2PMessageRC2.apply_clean hclean).1
    | setVersion version =>
      intro hclean
      simp only [messagesRC2, P2PMessageRC2.setVersion, Bool.or_eq_false_iff] at hclean
      exact h hclean.1
    | encode => exact fun _ => written_encode config h
  have hstart : Written {} := by
    intro h
    cases h
  exact (messagesRC2 config).run_preserves hstep hstart calls

/-- **The stream of messages between nodes.**  In both formats encoded messages
    are delivered in order with nothing left over, however they are cut into reads.
    A session reads on or is handed to its handler after every read exactly when
    its reads meet the condition, and its handler stops and removes it. -/
theorem session_stream (config : Config) :
    (∀ (messages : List P2PMessage) (cuts : List Bytes),
      (∀ m ∈ messages, m.encode.1.length ≤ MAX_MESSAGE_LENGTH) →
      cuts.flatten = messages.flatMap (fun m => m.encode.1) →
      Delivered P2PMessage.content ((session formatRC1).run {} (cuts.map (.received · true)))
        (messages.map P2PMessage.content)) ∧
    (∀ (messages : List (List CallRC2)) (cuts : List Bytes),
      (∀ calls ∈ messages, (messagesRC2 config).RunOk (Plain config) {} (calls ++ [.encode]) ∧
        (((messagesRC2 config).run {} calls).encode config).1.length ≤ MAX_MESSAGE_LENGTH) →
      cuts.flatten = messages.flatMap (fun calls => (((messagesRC2 config).run {} calls).encode config).1) →
      Delivered P2PMessageRC2.content ((session (formatRC2 config)).run {} (cuts.map (.received · true)))
        (messages.map fun calls => ((messagesRC2 config).run {} calls).content)) ∧
    ∀ F, F = formatRC1 ∨ F = formatRC2 config → ∀ is : List Input,
      ((∀ n, Settled ((session F).run {} (is.take n))) ↔ (session F).RunOk ReadOk {} is) ∧
      (0 < ((session F).run {} is).errors → ((session F).run {} (is ++ [.handleError])).actived = false ∧
        ((session F).run {} (is ++ [.handleError])).listed = false) := by
  refine ⟨?_, ?_, ?_⟩
  · intro messages cuts hlength hcuts
    refine delivered_of_frames (F := formatRC1) P2PMessage.content (fun m => m.encode.1) P2PMessage.content messages cuts
      hcuts ?_
    intro m hm
    refine ⟨?_, ?_⟩
    · show P2PMessage.HEADER_LENGTH ≤ m.encode.1.length
      rw [P2PMessage.length_encode]
      exact Nat.le_add_right _ _
    · obtain ⟨r, hdecode, hid, htype, hseq, hbuffer⟩ := P2PMessage.carries_encode m (hlength m hm) {}
      refine ⟨r, hdecode, ?_⟩
      rw [P2PMessage.content, P2PMessage.content, hid, htype, hseq, hbuffer, BitVec.toNat_ofNat]
      congr 1
      omega
  · intro messages cuts hmessages hcuts
    refine delivered_of_frames (F := formatRC2 config) P2PMessageRC2.content
      (fun calls => (((messagesRC2 config).run {} calls).encode config).1)
      (fun calls => ((messagesRC2 config).run {} calls).content) messages cuts hcuts ?_
    intro calls hcalls
    obtain ⟨hplain, hlength⟩ := hmessages calls hcalls
    obtain ⟨hbefore, hlast⟩ := Machine.RunOk.append.mp hplain
    obtain ⟨r, hdecode, hid, htype, hseq, hbuffer⟩ :=
      P2PMessageRC2.carries_encode (P2PMessageRC2.kept_run hbefore) hlast.1 hlength {}
    refine ⟨?_, r, hdecode, ?_⟩
    · exact written_encode config (written_run config calls)
    · rw [P2PMessageRC2.content, P2PMessageRC2.content, hid, htype, hseq, hbuffer]
  · intro F _ is
    constructor
    · exact (session F).forall_take_iff step_inv (fun s i h hP => step_settled_iff s i h hP) is (start_inv F) (.inl rfl)
    · intro herrors
      have hinv := (session F).run_preserves step_inv (start_inv F) is
      have hstep : (session F).run {} (is ++ [.handleError]) =
          ({ (session F).run {} is with errors := ((session F).run {} is).errors - 1 } : Session F).handleError := by
        rw [(session F).run_append]
        exact if_pos herrors
      rw [hstep]
      exact handleError_spec (s := { (session F).run {} is with errors := ((session F).run {} is).errors - 1 }) hinv.stopped

/-- Two messages, the second of which is a response, in three reads. -/
theorem session_stream_two :
    Delivered P2PMessage.content ((session formatRC1).run {}
        (([([0, 0, 0, 13, 0, 7] : Bytes), [0, 1, 0, 0, 0, 2, 9, 0, 0, 0], [12, 0xFF, 0xF9, 0, 1, 0, 0, 0, 2]]).map
          (.received · true)))
      ([{ protocolID := 7, packetType := 1, seq := 2, buffer := [9] },
        { protocolID := 0xFFFFFFF9, packetType := 1, seq := 2 }].map P2PMessage.content) :=
  (session_stream ⟨false, storing⟩).1 _ _ (by decide +kernel) (by decide +kernel)

/-- A header of zero bytes leaves the session without a read and with nobody to
    stop it. -/
theorem not_session_stream :
    ¬ ∀ (F : Format) (is : List Input), Settled ((session F).run {} is) := by
  intro h
  exact absurd (h formatRC1 [.received (List.replicate 12 0) true]) (by decide +kernel)

end HieraChain.P2P
