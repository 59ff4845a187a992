/-
  HieraChain/StateMigration.lean
  ==============================
  **Handing a state from one shard to another**
  (`libplugin/SyncThreadMaster.cpp`, `receiveRemoteMsgWorker`;
  `libplugin/PluginMsgBase.cpp`, `messageHandler`).

  The coordinator asks the source and the destination shard of a request to
  prepare, and commits the request once both have answered.  The network handler
  puts a message into its queue without the shard it came from; a worker takes
  the messages out and counts Prepares by the id of their request.

  So two Prepares of one shard complete a vote, and so do two of different
  requests with one id.  Where the first two Prepares of an id are for one
  request and come from its two shards, a commit follows both of them
  (`commits_prepared`).
-/
import HieraChain.AssocMap
import HieraChain.BigEndian
import HieraChain.Machine

namespace HieraChain.Plugin

open HieraChain.BigEndian

/-! ### Messages -/

structure Request where
  sourceshardid : Bytes
  destinshardid : Bytes
  readwritekeys : Bytes
  requestmessageid : Bytes
  deriving DecidableEq, Repr

structure MasterShardMsg where
  request : Request
  coordinatorshardid : Int
  deriving DecidableEq, Repr

def MasterShardMsg.id (m : MasterShardMsg) : Bytes := m.request.requestmessageid

structure RequestForMasterShardMsg where
  sourceshardid : Int
  destinshardid : Int
  readwritekey : Bytes
  requestmessageid : Bytes
  deriving DecidableEq, Repr

inductive ShardMsg
  | requestForMasterShard (m : RequestForMasterShardMsg)
  | masterShardPrePrepare (m : MasterShardMsg)
  | masterShardPrepare (m : MasterShardMsg)
  | masterShardCommit (m : MasterShardMsg)
  deriving DecidableEq, Repr

inductive Submitted
  /-- `0x777888999` -/
  | masterRequest (m : RequestForMasterShardMsg)
  /-- `0x000111222` -/
  | prePrepare (m : MasterShardMsg)
  /-- `0x333444555`: commit the request -/
  | stateChangeCommit (m : MasterShardMsg)
  /-- `0x666777888` -/
  | masterCommit (m : MasterShardMsg)
  deriving DecidableEq, Repr

/-! ### The node -/

/-- `prepares` lists the Prepares that reached the node with the shards they came
    from; no step reads it. -/
structure Node where
  isForwardNode : Bool
  requestForMasterShardMsg : List RequestForMasterShardMsg := []
  masterShardPrePrepareMsg : List MasterShardMsg := []
  masterShardPrepareMsg : List MasterShardMsg := []
  masterShardCommitMsg : List MasterShardMsg := []
  masterRequestVotes : AssocMap Bytes Nat := AssocMap.empty
  sendedStateChangeCommit : List Bytes := []
  submitted : List Submitted := []
  prepares : List (Bytes × MasterShardMsg) := []

inductive Queue
  | requestForMasterShardMsg
  | masterShardPrePrepareMsg
  | masterShardPrepareMsg
  | masterShardCommitMsg
  deriving DecidableEq, Repr

inductive Input
  | receive (shard : Bytes) (m : ShardMsg)
  | work (queue : Queue)
  deriving DecidableEq, Repr

namespace Node

/-- `processMasterShard…Msg` -/
def push (s : Node) (shard : Bytes) : ShardMsg → Node
  | .requestForMasterShard m => { s with requestForMasterShardMsg := s.requestForMasterShardMsg ++ [m] }
  | .masterShardPrePrepare m => { s with masterShardPrePrepareMsg := s.masterShardPrePrepareMsg ++ [m] }
  | .masterShardPrepare m =>
    { s with
      masterShardPrepareMsg := s.masterShardPrepareMsg ++ [m]
      prepares := s.prepares ++ [(shard, m)] }
  | .masterShardCommit m => { s with masterShardCommitMsg := s.masterShardCommitMsg ++ [m] }

def sendRawTransaction (s : Node) (tx : Submitted) : Node :=
  if s.isForwardNode then { s with submitted := s.submitted ++ [tx] } else s

def vote (s : Node) (m : MasterShardMsg) : Node :=
  match s.masterRequestVotes.find? m.id with
  | none => { s with masterRequestVotes := s.masterRequestVotes.insert m.id 1 }
  | some voteNum => { s with masterRequestVotes := s.masterRequestVotes.insert m.id (voteNum + 1) }

def handlePrepare (s : Node) (m : MasterShardMsg) : Node :=
  let s := s.vote m
  if s.masterRequestVotes.find? m.id = some 2 ∧ m.id ∉ s.sendedStateChangeCommit then
    let s := { s with sendedStateChangeCommit := m.id :: s.sendedStateChangeCommit }
    s.sendRawTransaction (.stateChangeCommit m)
  else s

def work (s : Node) : Queue → Node
  | .requestForMasterShardMsg =>
    match s.requestForMasterShardMsg with
    | [] => s
    | m :: rest => { s with requestForMasterShardMsg := rest }.sendRawTransaction (.masterRequest m)
  | .masterShardPrePrepareMsg =>
    match s.masterShardPrePrepareMsg with
    | [] => s
    | m :: rest => { s with masterShardPrePrepareMsg := rest }.sendRawTransaction (.prePrepare m)
  | .masterShardPrepareMsg =>
    match s.masterShardPrepareMsg with
    | [] => s
    | m :: rest => { s with masterShardPrepareMsg := rest }.handlePrepare m
  | .masterShardCommitMsg =>
    match s.masterShardCommitMsg with
    | [] => s
    | m :: rest => { s with masterShardCommitMsg := rest }.sendRawTransaction (.masterCommit m)

def step (s : Node) : Input → Node
  | .receive shard m => s.push shard m
  | .work queue => s.work queue

def commits (s : Node) : List MasterShardMsg :=
  s.submitted.filterMap fun
    | .stateChangeCommit m => some m
    | _ => none

end Node

def node : Machine Node Input := ⟨Node.step⟩

/-! ### What a commit needs -/

def Prepared (s : Node) (r : Request) (shard : Bytes) : Prop := ∃ p ∈ s.prepares, p.1 = shard ∧ p.2.request = r

structure Sound (s : Node) : Prop where
  once : (s.commits.map MasterShardMsg.id).Nodup
  source : ∀ m ∈ s.commits, Prepared s m.request m.request.sourceshardid
  destin : ∀ m ∈ s.commits, Prepared s m.request m.request.destinshardid

def Complete (p q : Bytes × MasterShardMsg) : Prop :=
  p.2.request = q.2.request ∧
    (p.1 = q.2.request.sourceshardid ∧ q.1 = q.2.request.destinshardid ∨
      p.1 = q.2.request.destinshardid ∧ q.1 = q.2.request.sourceshardid)

instance (p q : Bytes × MasterShardMsg) : Decidable (Complete p q) := inferInstanceAs (Decidable (_ ∧ _))

def preparesOf (s : Node) (id : Bytes) : List (Bytes × MasterShardMsg) := s.prepares.filter fun p => p.2.id = id

def StepOk (s : Node) : Input → Prop
  | .receive shard (.masterShardPrepare m) =>
    (preparesOf s m.id).length = 1 → ∀ p ∈ preparesOf s m.id, Complete p (shard, m)
  | _ => True

instance (s : Node) : ∀ i, Decidable (StepOk s i)
  | .receive _ (.masterShardPrepare _) => inferInstanceAs (Decidable (_ → ∀ p ∈ _, _))
  | .receive _ (.requestForMasterShard _) => isTrue trivial
  | .receive _ (.masterShardPrePrepare _) => isTrue trivial
  | .receive _ (.masterShardCommit _) => isTrue trivial
  | .work _ => isTrue trivial

/-! ### Votes -/

def votesOf (done : List MasterShardMsg) (id : Bytes) : List MasterShardMsg := done.filter fun m => m.id = id

theorem votesOf_append (done : List MasterShardMsg) (m : MasterShardMsg) (id : Bytes) :
    votesOf (done ++ [m]) id = if m.id = id then votesOf done id ++ [m] else votesOf done id := by
  unfold votesOf
  rw [List.filter_append]
  by_cases h : m.id = id
  · simp [h]
  · simp [h]

/-- The counts and the commits are those of the Prepares `done`. -/
structure Counted (s : Node) (done : List MasterShardMsg) : Prop where
  queue : s.prepares.map Prod.snd = done ++ s.masterShardPrepareMsg
  votes : ∀ id, (s.masterRequestVotes.find? id).getD 0 = (votesOf done id).length
  sended : ∀ id, id ∈ s.sendedStateChangeCommit ↔ 2 ≤ (votesOf done id).length
  once : (s.commits.map MasterShardMsg.id).Nodup
  /-- the second Prepare of its id made the commit -/
  second : ∀ m ∈ s.commits, (votesOf done m.id)[1]? = some m

section Send

variable (s : Node) (tx : Submitted)

@[simp] theorem prepares_send : (s.sendRawTransaction tx).prepares = s.prepares := by
  unfold Node.sendRawTransaction
  split <;> rfl

@[simp] theorem queue_send : (s.sendRawTransaction tx).masterShardPrepareMsg = s.masterShardPrepareMsg := by
  unfold Node.sendRawTransaction
  split <;> rfl

@[simp] theorem votes_send : (s.sendRawTransaction tx).masterRequestVotes = s.masterRequestVotes := by
  unfold Node.sendRawTransaction
  split <;> rfl

@[simp] theorem sended_send : (s.sendRawTransaction tx).sendedStateChangeCommit = s.sendedStateChangeCommit := by
  unfold Node.sendRawTransaction
  split <;> rfl

end Send

theorem commits_send (s : Node) (tx : Submitted) (htx : ∀ m, tx ≠ .stateChangeCommit m) :
    (s.sendRawTransaction tx).commits = s.commits := by
  unfold Node.sendRawTransaction
  split
  · unfold Node.commits
    rw [List.filterMap_append]
    cases tx with
    | stateChangeCommit m => exact absurd rfl (htx m)
    | masterRequest m => exact List.append_nil _
    | prePrepare m => exact List.append_nil _
    | masterCommit m => exact List.append_nil _
  · rfl

theorem commits_send_commit (s : Node) (m : MasterShardMsg) :
    (s.sendRawTransaction (.stateChangeCommit m)).commits = s.commits ++ if s.isForwardNode then [m] else [] := by
  unfold Node.sendRawTransaction
  split
  · unfold Node.commits
    rw [List.filterMap_append]
    rfl
  · exact (List.append_nil _).symm

theorem Counted.other {s u : Node} {done : List MasterShardMsg} (h : Counted s done)
    (hprepares : u.prepares = s.prepares) (hqueue : u.masterShardPrepareMsg = s.masterShardPrepareMsg)
    (hvotes : u.masterRequestVotes = s.masterRequestVotes)
    (hsended : u.sendedStateChangeCommit = s.sendedStateChangeCommit) (hcommits : u.commits = s.commits) :
    Counted u done where
  queue := by rw [hprepares, hqueue, h.queue]
  votes := by rw [hvotes]; exact h.votes
  sended := by rw [hsended]; exact h.sended
  once := by rw [hcommits]; exact h.once
  second := by rw [hcommits]; exact h.second

theorem vote_eq (s : Node) (m : MasterShardMsg) :
    s.vote m = { s with
      masterRequestVotes := s.masterRequestVotes.insert m.id ((s.masterRequestVotes.find? m.id).getD 0 + 1) } := by
  unfold Node.vote
  split
  · next hnone => rw [hnone, Option.getD_none]
  · next voteNum hsome => rw [hsome, Option.getD_some]

theorem handlePrepare_eq {s : Node} {done rest : List MasterShardMsg} {m : MasterShardMsg} (h : Counted s done) :
    ({ s with masterShardPrepareMsg := rest } : Node).handlePrepare m =
      let counted : Node := { s with
        masterShardPrepareMsg := rest
        masterRequestVotes := s.masterRequestVotes.insert m.id ((votesOf done m.id).length + 1) }
      if (votesOf done m.id).length = 1 then
        ({ counted with sendedStateChangeCommit := m.id :: s.sendedStateChangeCommit } : Node).sendRawTransaction
          (.stateChangeCommit m)
      else counted := by
  unfold Node.handlePrepare
  rw [vote_eq, h.votes]
  simp only [AssocMap.find?_insert_self, Option.some.injEq, h.sended]
  by_cases hone : (votesOf done m.id).length = 1
  · rw [if_pos hone, if_pos]
    omega
  · rw [if_neg hone, if_neg]
    omega

/-- **One Prepare is counted.** -/
theorem Counted.handle {s : Node} {done rest : List MasterShardMsg} {m : MasterShardMsg} (h : Counted s done)
    (hqueue : s.masterShardPrepareMsg = m :: rest) :
    Counted (({ s with masterShardPrepareMsg := rest } : Node).handlePrepare m) (done ++ [m]) := by
  rw [handlePrepare_eq h]
  have htaken : s.prepares.map Prod.snd = done ++ [m] ++ rest := by
    rw [h.queue, hqueue, List.append_assoc, List.singleton_append]
  have hvotes : ∀ id, ((s.masterRequestVotes.insert m.id ((votesOf done m.id).length + 1)).find? id).getD 0 =
      (votesOf (done ++ [m]) id).length := by
    intro id
    rw [votesOf_append]
    by_cases hid : m.id = id
    · subst hid
      rw [AssocMap.find?_insert_self, Option.getD_some, if_pos rfl, List.length_append, List.length_singleton]
    · rw [AssocMap.find?_insert_of_ne _ _ (Ne.symm hid), if_neg hid, h.votes]
  have hsecond : ∀ m' ∈ s.commits, (votesOf (done ++ [m]) m'.id)[1]? = some m' := by
    intro m' hm'
    have hold := h.second m' hm'
    rw [votesOf_append]
    split
    · rw [List.getElem?_append_left (List.getElem?_eq_some_iff.mp hold).1, hold]
    · exact hold
  dsimp only
  split
  · next hone =>
    have hlength : (votesOf (done ++ [m]) m.id).length = 2 := by
      rw [votesOf_append, if_pos rfl, List.length_append, hone, List.length_singleton]
    have hnew : ∀ m' ∈ s.commits, m'.id ≠ m.id := by
      intro m' hm' heq
      have hlt := (List.getElem?_eq_some_iff.mp (h.second m' hm')).1
      rw [heq, hone] at hlt
      exact absurd hlt (by decide)
    generalize hcounted : ({ s with
      masterShardPrepareMsg := rest
      masterRequestVotes := s.masterRequestVotes.insert m.id ((votesOf done m.id).length + 1)
      sendedStateChangeCommit := m.id :: s.sendedStateChangeCommit } : Node) = u
    have hcommits : (u.sendRawTransaction (.stateChangeCommit m)).commits =
        s.commits ++ if s.isForwardNode then [m] else [] := by
      rw [commits_send_commit, ← hcounted]
      rfl
    constructor
    · rw [prepares_send, queue_send, ← hcounted]
      exact htaken
    · rw [votes_send, ← hcounted]
      exact hvotes
    · intro id
      rw [sended_send, ← hcounted, List.mem_cons, h.sended]
      by_cases hid : id = m.id
      · subst hid
        simp [hlength]
      · rw [votesOf_append, if_neg fun heq => hid heq.symm]
        simp [hid]
    · rw [hcommits, List.map_append]
      refine List.nodup_append.mpr ⟨h.once, by split <;> simp, ?_⟩
      rintro id hid id' hid' rfl
      obtain ⟨m', hm', rfl⟩ := List.mem_map.mp hid
      obtain ⟨m'', hm'', heq⟩ := List.mem_map.mp hid'
      split at hm''
      · rw [List.mem_singleton.mp hm''] at heq
        exact hnew m' hm' heq.symm
      · cases hm''
    · intro m' hm'
      rw [hcommits] at hm'
      rcases List.mem_append.mp hm' with hold | hsent
      · exact hsecond m' hold
      · split at hsent
        · rw [List.mem_singleton.mp hsent, votesOf_append, if_pos rfl, List.getElem?_append_right (by omega), hone]
          rfl
        · cases hsent
  · next hone =>
    constructor
    · exact htaken
    · exact hvotes
    · intro id
      rw [votesOf_append, h.sended]
      split
      · next hid =>
        subst hid
        rw [List.length_append, List.length_singleton]
        omega
      · exact Iff.rfl
    · exact h.once
    · exact hsecond

/-! ### Runs -/

def Paired : List (Bytes × MasterShardMsg) → Prop
  | p :: q :: _ => Complete p q
  | _ => True

theorem Paired.append {l : List (Bytes × MasterShardMsg)} {p : Bytes × MasterShardMsg} (h : Paired l)
    (hp : l.length = 1 → ∀ q ∈ l, Complete q p) : Paired (l ++ [p]) := by
  match l with
  | [] => trivial
  | [q] => exact hp rfl q (List.mem_singleton_self q)
  | _ :: _ :: _ => exact h

structure Inv (s : Node) : Prop where
  counted : ∃ done, Counted s done
  paired : ∀ id, Paired (preparesOf s id)

theorem Inv.submit {s u : Node} (h : Inv s) (hprepares : u.prepares = s.prepares)
    (hqueue : u.masterShardPrepareMsg = s.masterShardPrepareMsg) (hvotes : u.masterRequestVotes = s.masterRequestVotes)
    (hsended : u.sendedStateChangeCommit = s.sendedStateChangeCommit) (hcommits : u.commits = s.commits)
    {tx : Submitted} (htx : ∀ m, tx ≠ .stateChangeCommit m) : Inv (u.sendRawTransaction tx) := by
  obtain ⟨⟨done, hdone⟩, hpaired⟩ := h
  refine ⟨⟨done, hdone.other ?_ ?_ ?_ ?_ ?_⟩, ?_⟩
  · rw [prepares_send, hprepares]
  · rw [queue_send, hqueue]
  · rw [votes_send, hvotes]
  · rw [sended_send, hsended]
  · rw [commits_send u tx htx, hcommits]
  · intro id
    rw [preparesOf, prepares_send, hprepares]
    exact hpaired id

theorem step_inv (s : Node) (i : Input) (h : Inv s) (hok : StepOk s i) : Inv (s.step i) := by
  have hinv := h
  obtain ⟨⟨done, hdone⟩, hpaired⟩ := h
  cases i with
  | receive shard m =>
    cases m with
    | requestForMasterShard m => exact ⟨⟨done, hdone.other rfl rfl rfl rfl rfl⟩, hpaired⟩
    | masterShardPrePrepare m => exact ⟨⟨done, hdone.other rfl rfl rfl rfl rfl⟩, hpaired⟩
    | masterShardCommit m => exact ⟨⟨done, hdone.other rfl rfl rfl rfl rfl⟩, hpaired⟩
    | masterShardPrepare m =>
      refine ⟨⟨done, ?_, hdone.votes, hdone.sended, hdone.once, hdone.second⟩, ?_⟩
      · simp only [Node.step, Node.push, List.map_append, hdone.queue, List.append_assoc, List.map_cons, List.map_nil]
      · intro id
        have happend : preparesOf (s.step (.receive shard (.masterShardPrepare m))) id =
            preparesOf s id ++ if m.id = id then [(shard, m)] else [] := by
          simp only [preparesOf, Node.step, Node.push, List.filter_append]
          by_cases hid : m.id = id <;> simp [hid]
        rw [happend]
        split
        · next hid =>
          subst hid
          exact (hpaired m.id).append hok
        · rw [List.append_nil]
          exact hpaired id
  | work queue =>
    cases queue with
    | masterShardPrepareMsg =>
      simp only [Node.step, Node.work]
      split
      · exact ⟨⟨done, hdone⟩, hpaired⟩
      · next m rest hqueue =>
        refine ⟨⟨done ++ [m], hdone.handle hqueue⟩, ?_⟩
        have hprepares : (({ s with masterShardPrepareMsg := rest } : Node).handlePrepare m).prepares = s.prepares := by
          rw [handlePrepare_eq hdone]
          dsimp only
          split
          · rw [prepares_send]
          · rfl
        intro id
        rw [preparesOf, hprepares]
        exact hpaired id
    | requestForMasterShardMsg =>
      simp only [Node.step, Node.work]
      split
      · exact hinv
      · next m rest _ =>
        refine hinv.submit (u := { s with requestForMasterShardMsg := rest }) rfl rfl rfl rfl rfl ?_
        intro m' heq
        cases heq
    | masterShardPrePrepareMsg =>
      simp only [Node.step, Node.work]
      split
      · exact hinv
      · next m rest _ =>
        refine hinv.submit (u := { s with masterShardPrePrepareMsg := rest }) rfl rfl rfl rfl rfl ?_
        intro m' heq
        cases heq
    | masterShardCommitMsg =>
      simp only [Node.step, Node.work]
      split
      · exact hinv
      · next m rest _ =>
        refine hinv.submit (u := { s with masterShardCommitMsg := rest }) rfl rfl rfl rfl rfl ?_
        intro m' heq
        cases heq

def start (isForwardNode : Bool) : Node := { isForwardNode }

theorem start_inv (isForwardNode : Bool) : Inv (start isForwardNode) where
  counted := ⟨[], rfl, fun _ => rfl, fun _ => by simp [start, votesOf], List.nodup_nil, fun _ h => nomatch h⟩
  paired := fun _ => trivial

theorem Inv.sound {s : Node} (h : Inv s) : Sound s := by
  obtain ⟨⟨done, hdone⟩, hpaired⟩ := h
  have hboth : ∀ m ∈ s.commits, ∃ p q, p ∈ s.prepares ∧ q ∈ s.prepares ∧ q.2 = m ∧ Complete p q := by
    intro m hm
    have hvotes : (preparesOf s m.id).map Prod.snd = votesOf done m.id ++ votesOf s.masterShardPrepareMsg m.id := by
      rw [votesOf, votesOf, ← List.filter_append, ← hdone.queue, List.filter_map]
      rfl
    have hsecond : ((preparesOf s m.id).map Prod.snd)[1]? = some m := by
      have hin := hdone.second m hm
      rw [hvotes, List.getElem?_append_left (List.getElem?_eq_some_iff.mp hin).1, hin]
    have hmem : ∀ p ∈ preparesOf s m.id, p ∈ s.prepares := fun p hp => (List.mem_filter.mp hp).1
    have hpair := hpaired m.id
    match hlist : preparesOf s m.id with
    | [] =>
      rw [hlist] at hsecond
      cases hsecond
    | [p] =>
      rw [hlist] at hsecond
      cases hsecond
    | p :: q :: rest =>
      rw [hlist] at hsecond hpair hmem
      refine ⟨p, q, hmem p List.mem_cons_self, hmem q (List.mem_cons_of_mem p List.mem_cons_self), ?_, hpair⟩
      exact Option.some.inj hsecond
  refine ⟨hdone.once, ?_, ?_⟩
  · intro m hm
    obtain ⟨p, q, hp, hq, rfl, hrequest, ⟨hfirst, -⟩ | ⟨-, hlast⟩⟩ := hboth m hm
    · exact ⟨p, hp, hfirst, hrequest⟩
    · exact ⟨q, hq, hlast, rfl⟩
  · intro m hm
    obtain ⟨p, q, hp, hq, rfl, hrequest, ⟨-, hlast⟩ | ⟨hfirst, -⟩⟩ := hboth m hm
    · exact ⟨q, hq, hlast, rfl⟩
    · exact ⟨p, hp, hfirst, hrequest⟩

/-- **A commit needs both shards.** -/
theorem commits_prepared (isForwardNode : Bool) {is : List Input} (hrun : node.RunOk StepOk (start isForwardNode) is) :
    Sound (node.run (start isForwardNode) is) :=
  (node.run_invariant step_inv (start_inv isForwardNode) hrun).sound

private def request : Request := ⟨[49], [50], [107], [51, 49]⟩

/-- Both shards answer, the source twice; a Prepare of another request between. -/
theorem commits_prepared_twice :
    Sound (node.run (start true)
        [.receive [49] (.masterShardPrepare ⟨request, 3⟩), .receive [52] (.masterShardPrepare ⟨⟨[52], [50], [107], [53]⟩, 3⟩),
          .receive [50] (.masterShardPrepare ⟨request, 3⟩), .work .masterShardPrepareMsg, .work .masterShardPrepareMsg,
          .receive [49] (.masterShardPrepare ⟨request, 3⟩), .work .masterShardPrepareMsg, .work .masterShardPrepareMsg]) :=
  commits_prepared true (by decide)

/-- The source answers twice, and the request is committed. -/
theorem not_commits_prepared :
    ¬ ∀ (isForwardNode : Bool) (is : List Input), Sound (node.run (start isForwardNode) is) := by
  intro h
  have hsound := h true
    [.receive [49] (.masterShardPrepare ⟨request, 3⟩), .receive [49] (.masterShardPrepare ⟨request, 3⟩),
      .work .masterShardPrepareMsg, .work .masterShardPrepareMsg]
  have hdestin := hsound.destin ⟨request, 3⟩ (by decide)
  exact absurd hdestin (by unfold Prepared; decide)

end HieraChain.Plugin
