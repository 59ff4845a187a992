/-
  HieraChain/EventPush.lean
  =========================
  **Exact pushes.**  What every accepted filter has been sent, after every prefix
  of a run.
-/
import HieraChain.EventLogFilterManager

namespace HieraChain.EventPush

open HieraChain.BigEndian

variable {A H : Type} [DecidableEq A] [DecidableEq H]

/-! ### The property -/

def listed (s : EventLogFilterManager A H) : List (EventLogFilter A H) := s.waitAddFilter ++ (s.done ++ s.todo)

def sentTo (s : EventLogFilterManager A H) (u : Nat) : List (Push A H) :=
  (s.sent.filter fun m => m.uid = u).map Sent.push

def pushed (s : EventLogFilterManager A H) (u : Nat) : List (Response A H) := (sentTo s u).flatMap Push.response

/-- The wanted logs of the existing blocks from `a` up to, but not with, `b`. -/
def wantedIn (p : EventLogFilterParams A H) (chain : List (Block A H)) (a b : Nat) : List (Response A H) :=
  ((chain.take b).drop a).flatMap fun block => block.wanted p

/-- How often the filter has been let in since the chain had block `h`. -/
def turnsSince (s : EventLogFilterManager A H) (u h : Nat) : Nat := s.turns.countP fun t => t.1 = u ∧ h ≤ t.2

/-- The filter has been sent the wanted logs of the blocks before its next one,
    which lies in the range and not above the chain; each turn since the chain has
    had block `h` took it one block further or behind `h`. -/
structure Pending (s : EventLogFilterManager A H) (u : Nat) (p : EventLogFilterParams A H) (first : Nat)
    (f : EventLogFilter A H) : Prop where
  mem : f ∈ listed s
  uid : f.uid = u
  params : f.params = p
  first_le : first ≤ f.nextBlockToProcess
  le_toBlock : f.nextBlockToProcess ≤ p.toBlock
  le_length : f.nextBlockToProcess = first ∨ f.nextBlockToProcess ≤ s.chain.length
  pushed : pushed s u = wantedIn p s.chain first f.nextBlockToProcess
  open' : Push.PUSH_COMPLETED ∉ sentTo s u
  keepsUp : ∀ h, min (h + 1) (first + turnsSince s u h) ≤ f.nextBlockToProcess

/-- The chain has block `to`, the filter has been sent the wanted logs of its whole
    range and then `PUSH_COMPLETED`, and it is gone. -/
structure Finished (s : EventLogFilterManager A H) (u : Nat) (p : EventLogFilterParams A H) (first : Nat) : Prop where
  gone : ∀ f ∈ listed s, f.uid ≠ u
  toBlock_lt : p.toBlock < s.chain.length
  pushed : pushed s u = wantedIn p s.chain first (p.toBlock + 1)
  completed : ∃ before, sentTo s u = before ++ [.PUSH_COMPLETED] ∧ Push.PUSH_COMPLETED ∉ before

def Exact (s : EventLogFilterManager A H) (u : Nat) (p : EventLogFilterParams A H) (first : Nat) : Prop :=
  (∃ f, Pending s u p first f) ∨ Finished s u p first

/-- The process is alive, and the pushes of every filter whose session has been
    active and whose id has not been cancelled are exact. -/
def Pushes : Option (EventLogFilterManager A H) → Prop
  | none => False
  | some s => ∀ u p number, s.registered[u]? = some (p, number) → u ∉ s.lost → Exact s u p (firstBlock p number)

/-! ### The condition -/

def turnEnd (cfg : Config) (chain : List (Block A H)) (next : Nat) : Nat :=
  if ((chain.length - next : Nat) : Int) < cfg.maxBlockPerLoopFilter then chain.length
  else next + MAX_BLOCK_PER_PROCESS

/-- Where the filter reads in this turn: there are as many blocks, their logs have
    the topics that are read, and the client wants nothing of those behind `to`. -/
def TurnOk (cfg : Config) (s : EventLogFilterManager A H) (t : Turn) (f : EventLogFilter A H) : Prop :=
  t.Admits → f.nextBlockToProcess ≤ s.number →
    turnEnd cfg s.chain f.nextBlockToProcess ≤ s.chain.length ∧
    (∀ b ∈ (s.chain.take (turnEnd cfg s.chain f.nextBlockToProcess)).drop f.nextBlockToProcess,
      b.ReadsInside f.params) ∧
    (t.Active → f.uid ∉ s.lost →
      ∀ b ∈ (s.chain.take (turnEnd cfg s.chain f.nextBlockToProcess)).drop (f.params.toBlock + 1),
        b.wanted f.params = [])

/-- The condition on a step: on the turn of a filter, and that a waiting
    cancellation meets no filter that was registered after it. -/
def StepOk (cfg : Config) : Option (EventLogFilterManager A H) → Input A H → Prop
  | some s, .turn t =>
    match s.phase, s.todo with
    | .cancelFilter, todo => ∀ f ∈ todo, f.params.filterID ∈ s.waitCancelFilter → f.uid ∈ s.lost
    | .executeFilters, f :: _ => TurnOk cfg s t f
    | _, _ => True
  | _, _ => True

/-! ### One turn of a filter -/

theorem wantedIn_self (p : EventLogFilterParams A H) (chain : List (Block A H)) (a : Nat) : wantedIn p chain a a = [] := by
  have hnil : (chain.take a).drop a = [] := List.drop_eq_nil_of_le (List.length_take_le a chain)
  rw [wantedIn, hnil, List.flatMap_nil]

theorem wantedIn_append (p : EventLogFilterParams A H) (chain : List (Block A H)) {a b c : Nat} (hab : a ≤ b)
    (hbc : b ≤ c) : wantedIn p chain a c = wantedIn p chain a b ++ wantedIn p chain b c := by
  have hsplit : (chain.take c).drop a = (chain.take b).drop a ++ (chain.take c).drop b := by
    have hb : chain.take b = (chain.take c).take b := by rw [List.take_take, Nat.min_eq_left hbc]
    rw [hb]
    generalize chain.take c = l
    rw [List.drop_take]
    conv_lhs => rw [← List.take_append_drop (b - a) (l.drop a)]
    rw [List.drop_drop, Nat.add_sub_cancel' hab]
  rw [wantedIn, hsplit, List.flatMap_append]
  rfl

theorem wantedIn_grow (p : EventLogFilterParams A H) (chain : List (Block A H)) (b : Block A H) {a c : Nat}
    (h : c = a ∨ c ≤ chain.length) : wantedIn p (chain ++ [b]) a c = wantedIn p chain a c := by
  rcases h with rfl | h
  · rw [wantedIn_self, wantedIn_self]
  · rw [wantedIn, List.take_append_of_le_length h]
    rfl

theorem wantedIn_eq_nil {p : EventLogFilterParams A H} {chain : List (Block A H)} {a b : Nat} :
    wantedIn p chain a b = [] ↔ ∀ block ∈ (chain.take b).drop a, block.wanted p = [] := List.flatMap_eq_nil_iff

theorem fetch_eq (p : EventLogFilterParams A H) (chain : List (Block A H)) (k n : Nat) (hk : k ≤ chain.length) :
    fetch p chain k n =
      if k + n ≤ chain.length ∧ ∀ b ∈ (chain.take (k + n)).drop k, b.ReadsInside p then some (wantedIn p chain k (k + n))
      else none := by
  induction n generalizing k with
  | zero =>
    have hnil : (chain.take k).drop k = [] := List.drop_eq_nil_of_le (List.length_take_le k chain)
    simp [fetch, hk, wantedIn_self, hnil]
  | succ n ih =>
    rcases Nat.eq_or_lt_of_le hk with rfl | hlt
    · simp [fetch]
    · have hcons : (chain.take (k + (n + 1))).drop k = chain[k] :: (chain.take (k + 1 + n)).drop (k + 1) := by
        have hlen : k < (chain.take (k + (n + 1))).length := by
          rw [List.length_take]
          omega
        rw [List.drop_eq_getElem_cons hlen, List.getElem_take, Nat.add_right_comm k 1 n, Nat.add_assoc k n 1]
      have hget : chain[k]? = some chain[k] := List.getElem?_eq_getElem hlt
      simp only [fetch, hget, matchesBlock_eq, ih (k + 1) hlt]
      simp only [wantedIn, hcons, List.forall_mem_cons, List.flatMap_cons]
      rw [Nat.add_right_comm k 1 n, Nat.add_assoc k n 1]
      by_cases hinside : chain[k].ReadsInside p
      · rw [if_pos hinside]
        by_cases hrest : k + (n + 1) ≤ chain.length ∧ ∀ b ∈ (chain.take (k + (n + 1))).drop (k + 1), b.ReadsInside p
        · rw [if_pos hrest, if_pos ⟨hrest.1, hinside, hrest.2⟩]
          rfl
        · rw [if_neg hrest, if_neg fun h => hrest ⟨h.1, h.2.2⟩]
          rfl
      · simp [hinside]

omit [DecidableEq A] [DecidableEq H] in
theorem add_thisLoop (cfg : Config) {chain : List (Block A H)} (hchain : chain ≠ []) {next : Nat}
    (hnext : next ≤ chain.length - 1) :
    next + (if 0 < cfg.maxBlockPerLoopFilter ∧ ((chain.length - 1 - next + 1 : Nat) : Int) < cfg.maxBlockPerLoopFilter
      then chain.length - 1 - next + 1 else MAX_BLOCK_PER_PROCESS) = turnEnd cfg chain next := by
  have hpos : 0 < chain.length := List.length_pos_iff.mpr hchain
  have hleft : chain.length - 1 - next + 1 = chain.length - next := by omega
  rw [turnEnd, hleft]
  by_cases hlt : ((chain.length - next : Nat) : Int) < cfg.maxBlockPerLoopFilter
  · have hmax : 0 < cfg.maxBlockPerLoopFilter := by omega
    rw [if_pos ⟨hmax, hlt⟩, if_pos hlt]
    omega
  · rw [if_neg fun h => hlt h.2, if_neg hlt]

def turnPushes (cfg : Config) (chain : List (Block A H)) (f : EventLogFilter A H) : List (Push A H) :=
  let response := wantedIn f.params chain f.nextBlockToProcess (turnEnd cfg chain f.nextBlockToProcess)
  if response = [] then [] else [.logs response]

theorem turnPushes_response (cfg : Config) (chain : List (Block A H)) (f : EventLogFilter A H) :
    (turnPushes cfg chain f).flatMap Push.response =
      wantedIn f.params chain f.nextBlockToProcess (turnEnd cfg chain f.nextBlockToProcess) := by
  unfold turnPushes
  dsimp only
  split
  · next h => exact h.symm
  · exact List.flatMap_singleton ..

theorem not_completed_mem_turnPushes (cfg : Config) (chain : List (Block A H)) (f : EventLogFilter A H) :
    Push.PUSH_COMPLETED ∉ turnPushes cfg chain f := by
  unfold turnPushes
  dsimp only
  split
  · exact List.not_mem_nil
  · simp

theorem executeFilter_idle (cfg : Config) {chain : List (Block A H)} {t : Turn} {f : EventLogFilter A H}
    (h : ¬ (t.Admits ∧ f.nextBlockToProcess ≤ chain.length - 1)) :
    ∃ status, executeFilter cfg chain t f = some (status, f, []) ∧ status ≠ .STATUS_PUSH_COMPLETED ∧
      (isErrorStatus status = true → t.sessionChecker = .CALLBACK_FAILED) := by
  unfold executeFilter
  by_cases hfailed : t.sessionChecker = .CALLBACK_FAILED
  · exact ⟨.CALLBACK_FAILED, by simp [hfailed], by simp, fun _ => hfailed⟩
  by_cases hdenied : t.sessionChecker = .REMOTE_PEERS_ACCESS_DENIED
  · exact ⟨.REMOTE_PEERS_ACCESS_DENIED, by simp [hdenied], by simp, fun herror => by simp [isErrorStatus] at herror⟩
  have hwait : chain.length - 1 < f.nextBlockToProcess := by
    by_contra hle
    exact h ⟨⟨hfailed, hdenied⟩, Nat.le_of_not_lt hle⟩
  exact ⟨.WAIT_FOR_MORE_BLOCK, by simp [hfailed, hdenied, hwait], by simp, fun herror => by simp [isErrorStatus] at herror⟩

theorem waits (q : Prop) [Decidable q] :
    isErrorStatus (if q then .WAIT_FOR_NEXT_LOOP else .WAIT_FOR_MORE_BLOCK) = false ∧
      (if q then FilterStatus.WAIT_FOR_NEXT_LOOP else .WAIT_FOR_MORE_BLOCK) ≠ .STATUS_PUSH_COMPLETED := by
  by_cases hq : q <;> simp [hq, isErrorStatus]

section reads

variable (cfg : Config) {chain : List (Block A H)} {t : Turn} {f : EventLogFilter A H}

/-- The blocks of the turn exist, and their logs have the topics that are read. -/
def Readable (chain : List (Block A H)) (f : EventLogFilter A H) : Prop :=
  turnEnd cfg chain f.nextBlockToProcess ≤ chain.length ∧
    ∀ b ∈ (chain.take (turnEnd cfg chain f.nextBlockToProcess)).drop f.nextBlockToProcess, b.ReadsInside f.params

theorem executeFilter_reads (hchain : chain ≠ []) (ht : t.Admits) (hnext : f.nextBlockToProcess ≤ chain.length - 1) :
    (¬ Readable cfg chain f → executeFilter cfg chain t f = none) ∧
    (Readable cfg chain f → ∃ status sent,
      executeFilter cfg chain t f =
        some (status, { f with nextBlockToProcess := turnEnd cfg chain f.nextBlockToProcess }, sent) ∧
      (t.delivered = true →
        (f.params.toBlock < turnEnd cfg chain f.nextBlockToProcess →
          status = .STATUS_PUSH_COMPLETED ∧ sent = turnPushes cfg chain f ++ [.PUSH_COMPLETED]) ∧
        (turnEnd cfg chain f.nextBlockToProcess ≤ f.params.toBlock →
          isErrorStatus status = false ∧ status ≠ .STATUS_PUSH_COMPLETED ∧ sent = turnPushes cfg chain f))) := by
  have hle : f.nextBlockToProcess ≤ chain.length := by omega
  have hend := add_thisLoop cfg hchain hnext
  simp only [executeFilter, if_neg ht.1, if_neg ht.2, if_neg (Nat.not_lt.mpr hnext)]
  rw [fetch_eq f.params chain _ _ hle, hend]
  constructor
  · intro hread
    unfold Readable at hread
    rw [if_neg hread]
  · intro hread
    unfold Readable at hread
    rw [if_pos hread]
    dsimp only
    split
    · next hfailed =>
      refine ⟨_, _, rfl, fun hdelivered => ?_⟩
      rw [hdelivered] at hfailed
      exact absurd hfailed.2 (by decide)
    · split
      · next hcompleted =>
        exact ⟨_, _, rfl, fun _ => ⟨fun _ => ⟨rfl, rfl⟩, fun h => absurd hcompleted (Nat.not_lt.mpr h)⟩⟩
      · next hmore =>
        have hwait := waits (chain.length - 1 - f.nextBlockToProcess + 1 > (if 0 < cfg.maxBlockPerLoopFilter ∧
          ((chain.length - 1 - f.nextBlockToProcess + 1 : Nat) : Int) < cfg.maxBlockPerLoopFilter
          then chain.length - 1 - f.nextBlockToProcess + 1 else MAX_BLOCK_PER_PROCESS))
        exact ⟨_, _, rfl, fun _ => ⟨fun h => absurd h hmore, fun _ => ⟨hwait.1, hwait.2, rfl⟩⟩⟩

end reads

/-! ### Invariant -/

/-- The chain has its genesis block; the listed filters are different objects,
    each made by an accepted request; nothing is recorded of filters that are not
    registered yet; before the first turn of a round none is done. -/
structure Inv (s : EventLogFilterManager A H) : Prop where
  chain : s.chain ≠ []
  nodup : ((listed s).map EventLogFilter.uid).Nodup
  made : ∀ f ∈ listed s, ∃ number, s.registered[f.uid]? = some (f.params, number)
  sent : ∀ m ∈ s.sent, m.uid < s.registered.length
  turns : ∀ t ∈ s.turns, t.1 < s.registered.length
  lost : ∀ u ∈ s.lost, u < s.registered.length
  round : s.phase ≠ .executeFilters → s.done = []

def InvOpt : Option (EventLogFilterManager A H) → Prop
  | none => True
  | some s => Inv s

omit [DecidableEq A] [DecidableEq H] in
theorem start_inv (genesis : Block A H) : Inv (start genesis) where
  chain := List.cons_ne_nil genesis []
  nodup := List.nodup_nil
  made := fun _ h => nomatch h
  sent := fun _ h => nomatch h
  turns := fun _ h => nomatch h
  lost := fun _ h => nomatch h
  round := fun _ => rfl

omit [DecidableEq A] [DecidableEq H] in
theorem Inv.uid_lt {s : EventLogFilterManager A H} (hs : Inv s) {f : EventLogFilter A H} (hf : f ∈ listed s) :
    f.uid < s.registered.length := by
  obtain ⟨number, hreg⟩ := hs.made f hf
  exact (List.getElem?_eq_some_iff.mp hreg).1

omit [DecidableEq A] [DecidableEq H] in
theorem Inv.unique {s : EventLogFilterManager A H} (hs : Inv s) {f g : EventLogFilter A H} (hf : f ∈ listed s)
    (hg : g ∈ listed s) (h : f.uid = g.uid) : f = g := List.inj_on_of_nodup_map hs.nodup hf hg h

def afterTurn (s : EventLogFilterManager A H) (t : Turn) (f : EventLogFilter A H) (todo kept : List (EventLogFilter A H))
    (sent : List (Push A H)) : EventLogFilterManager A H :=
  { s with
    done := s.done ++ kept, todo := todo
    sent := s.sent ++ sent.map fun push => ⟨f.uid, f.params.filterID, f.params.groupID, push⟩
    lost := if t.Active then s.lost else s.lost ++ [f.uid]
    turns := if t.Admits then s.turns ++ [(f.uid, s.number)] else s.turns }

theorem turn_execute (cfg : Config) {s : EventLogFilterManager A H} (t : Turn) {f : EventLogFilter A H}
    {todo : List (EventLogFilter A H)} (hphase : s.phase = .executeFilters) (htodo : s.todo = f :: todo) :
    s.turn cfg t = (executeFilter cfg s.chain t f).map fun r =>
      afterTurn s t f todo (if isErrorStatus r.1 ∨ r.1 = .STATUS_PUSH_COMPLETED then [] else [r.2.1]) r.2.2 := by
  unfold EventLogFilterManager.turn
  rw [hphase, htodo]
  dsimp only
  cases executeFilter cfg s.chain t f with
  | none => rfl
  | some r =>
    obtain ⟨status, f', sent⟩ := r
    dsimp only [Option.map_some, afterTurn]
    congr 2
    · exact hphase.symm
    · split
      · exact (List.append_nil s.done).symm
      · rfl

def KeptOf (f : EventLogFilter A H) (kept : List (EventLogFilter A H)) : Prop :=
  kept = [] ∨ ∃ next, kept = [{ f with nextBlockToProcess := next }]

theorem turn_kept (cfg : Config) {chain : List (Block A H)} (hchain : chain ≠ []) (t : Turn) (f : EventLogFilter A H)
    {r : FilterStatus × EventLogFilter A H × List (Push A H)} (h : executeFilter cfg chain t f = some r) :
    KeptOf f (if isErrorStatus r.1 ∨ r.1 = .STATUS_PUSH_COMPLETED then [] else [r.2.1]) := by
  split
  · exact .inl rfl
  · by_cases hread : t.Admits ∧ f.nextBlockToProcess ≤ chain.length - 1
    · obtain ⟨hnone, hsome⟩ := executeFilter_reads cfg hchain hread.1 hread.2
      by_cases hok : Readable cfg chain f
      · obtain ⟨status, sent, heq, -⟩ := hsome hok
        rw [h] at heq
        cases heq
        exact .inr ⟨_, rfl⟩
      · rw [hnone hok] at h
        cases h
    · obtain ⟨status, heq, -⟩ := executeFilter_idle cfg hread
      rw [h] at heq
      cases heq
      exact .inr ⟨_, rfl⟩

section afterTurn

variable {s : EventLogFilterManager A H} {t : Turn} {f : EventLogFilter A H} {todo kept : List (EventLogFilter A H)}
  {sent : List (Push A H)}

omit [DecidableEq A] [DecidableEq H] in
theorem listed_afterTurn :
    listed (afterTurn s t f todo kept sent) = s.waitAddFilter ++ (s.done ++ (kept ++ todo)) := by
  rw [listed, afterTurn]
  dsimp only
  rw [List.append_assoc s.done]

omit [DecidableEq A] [DecidableEq H] in
theorem mem_listed_afterTurn (htodo : s.todo = f :: todo) (hkept : KeptOf f kept) {g : EventLogFilter A H}
    (hg : g.uid ≠ f.uid) : g ∈ listed (afterTurn s t f todo kept sent) ↔ g ∈ listed s := by
  have hnot : g ∉ kept := by
    rcases hkept with rfl | ⟨next, rfl⟩
    · exact List.not_mem_nil
    · intro hmem
      rw [List.mem_singleton.mp hmem] at hg
      exact hg rfl
  have hne : g ≠ f := fun h => hg (congrArg EventLogFilter.uid h)
  rw [listed_afterTurn, listed, htodo]
  simp [hnot, hne]

omit [DecidableEq A] [DecidableEq H] in
theorem sentTo_afterTurn (u : Nat) :
    sentTo (afterTurn s t f todo kept sent) u = sentTo s u ++ if f.uid = u then sent else [] := by
  simp only [sentTo, afterTurn, List.filter_append, List.map_append, List.filter_map, List.map_map]
  congr 1
  by_cases h : f.uid = u
  · simp [h, Function.comp_def]
  · simp [h, Function.comp_def]

omit [DecidableEq A] [DecidableEq H] in
theorem turnsSince_afterTurn (u h : Nat) :
    turnsSince (afterTurn s t f todo kept sent) u h =
      turnsSince s u h + if t.Admits ∧ f.uid = u ∧ h ≤ s.number then 1 else 0 := by
  simp only [turnsSince, afterTurn]
  by_cases ht : t.Admits
  · by_cases hu : f.uid = u ∧ h ≤ s.number
    · simp [ht, hu.1, hu.2]
    · simp [ht, hu]
  · simp [ht]

omit [DecidableEq A] [DecidableEq H] in
theorem Inv.afterTurn (hs : Inv s) (hphase : s.phase = .executeFilters) (htodo : s.todo = f :: todo)
    (hkept : KeptOf f kept) : Inv (afterTurn s t f todo kept sent) where
  chain := hs.chain
  nodup := by
    have hsub : ((s.waitAddFilter ++ (s.done ++ (kept ++ todo))).map EventLogFilter.uid).Sublist
        ((listed s).map EventLogFilter.uid) := by
      rw [listed, htodo]
      simp only [List.map_append, List.map_cons]
      refine (List.Sublist.refl _).append ((List.Sublist.refl _).append ?_)
      rcases hkept with rfl | ⟨next, rfl⟩
      · exact List.sublist_cons_self _ _
      · exact List.Sublist.refl _
    rw [listed_afterTurn]
    exact hs.nodup.sublist hsub
  made := by
    have hf : f ∈ listed s := by simp [listed, htodo]
    intro g hg
    by_cases hne : g.uid = f.uid
    · rw [listed_afterTurn] at hg
      simp only [List.mem_append] at hg
      rcases hg with hg | hg | hg | hg
      · exact hs.made g (by simp [listed, hg])
      · exact hs.made g (by simp [listed, hg])
      · rcases hkept with rfl | ⟨next, rfl⟩
        · cases hg
        · rw [List.mem_singleton.mp hg]
          exact hs.made f hf
      · exact hs.made g (by simp [listed, htodo, hg])
    · exact hs.made g ((mem_listed_afterTurn htodo hkept hne).mp hg)
  sent := by
    intro m hm
    rcases List.mem_append.mp hm with hm | hm
    · exact hs.sent m hm
    · obtain ⟨push, -, rfl⟩ := List.mem_map.mp hm
      exact hs.uid_lt (by simp [listed, htodo])
  turns := by
    intro x hx
    have hf : f.uid < s.registered.length := hs.uid_lt (by simp [listed, htodo])
    simp only [EventPush.afterTurn] at hx
    split at hx
    · rcases List.mem_append.mp hx with hx | hx
      · exact hs.turns x hx
      · rw [List.mem_singleton.mp hx]
        exact hf
    · exact hs.turns x hx
  lost := by
    intro u hu
    have hf : f.uid < s.registered.length := hs.uid_lt (by simp [listed, htodo])
    simp only [EventPush.afterTurn] at hu
    split at hu
    · exact hs.lost u hu
    · rcases List.mem_append.mp hu with hu | hu
      · exact hs.lost u hu
      · rw [List.mem_singleton.mp hu]
        exact hf
  round := fun h => absurd hphase h

end afterTurn

/-! ### Requests and the other turns -/

omit [DecidableEq A] [DecidableEq H] in
theorem Inv.move {s u : EventLogFilterManager A H} (hs : Inv s)
    (hchain : u.chain ≠ []) (hlisted : ((listed u).map EventLogFilter.uid).Nodup) (hmem : ∀ f ∈ listed u, f ∈ listed s)
    (hsent : u.sent = s.sent) (hturns : u.turns = s.turns) (hregistered : u.registered = s.registered)
    (hlost : ∀ x ∈ u.lost, x < u.registered.length) (hround : u.phase ≠ .executeFilters → u.done = []) : Inv u where
  chain := hchain
  nodup := hlisted
  made := fun f hf => hregistered ▸ hs.made f (hmem f hf)
  sent := by
    rw [hsent, hregistered]
    exact hs.sent
  turns := by
    rw [hturns, hregistered]
    exact hs.turns
  lost := hlost
  round := hround

omit [DecidableEq A] [DecidableEq H] in
theorem addEventLogFilterByRequest_cases (cfg : Config) (s : EventLogFilterManager A H) (p : EventLogFilterParams A H) :
    (addEventLogFilterByRequest cfg s p).2 = s ∨
    firstBlock p s.number ≤ p.toBlock ∧ (addEventLogFilterByRequest cfg s p).2 = { s with
      waitAddFilter := s.waitAddFilter ++ [⟨s.registered.length, p, firstBlock p s.number⟩]
      registered := s.registered ++ [(p, s.number)] } := by
  unfold addEventLogFilterByRequest
  dsimp only
  split
  · exact .inl rfl
  · next hrange =>
    split
    · exact .inl rfl
    · exact .inr ⟨Nat.le_of_not_lt hrange, rfl⟩

omit [DecidableEq A] [DecidableEq H] in
theorem Inv.add {s : EventLogFilterManager A H} (hs : Inv s) (p : EventLogFilterParams A H) (next number : Nat) :
    Inv { s with
      waitAddFilter := s.waitAddFilter ++ [⟨s.registered.length, p, next⟩]
      registered := s.registered ++ [(p, number)] } where
  chain := hs.chain
  nodup := by
    have hnew : s.registered.length ∉ (listed s).map EventLogFilter.uid := by
      intro hmem
      obtain ⟨f, hf, huid⟩ := List.mem_map.mp hmem
      exact absurd (hs.uid_lt hf) (by omega)
    have hperm : ((s.waitAddFilter ++ [(⟨s.registered.length, p, next⟩ : EventLogFilter A H)]) ++ (s.done ++ s.todo)).Perm
        ((⟨s.registered.length, p, next⟩ : EventLogFilter A H) :: listed s) := by
      rw [List.append_assoc]
      exact List.perm_middle
    exact ((hperm.map EventLogFilter.uid).nodup_iff).mpr (List.nodup_cons.mpr ⟨hnew, hs.nodup⟩)
  made := by
    intro f hf
    by_cases hold : f ∈ listed s
    · obtain ⟨n, hreg⟩ := hs.made f hold
      exact ⟨n, by rw [List.getElem?_append_left (hs.uid_lt hold), hreg]⟩
    · have hnew : f = ⟨s.registered.length, p, next⟩ := by
        simp only [listed, List.mem_append, List.mem_singleton] at hf hold
        tauto
      subst hnew
      exact ⟨number, by simp⟩
  sent := fun m hm => by
    rw [List.length_append]
    exact Nat.lt_add_right _ (hs.sent m hm)
  turns := fun t ht => by
    rw [List.length_append]
    exact Nat.lt_add_right _ (hs.turns t ht)
  lost := fun u hu => by
    rw [List.length_append]
    exact Nat.lt_add_right _ (hs.lost u hu)
  round := hs.round

omit [DecidableEq A] [DecidableEq H] in
theorem named_lt {s : EventLogFilterManager A H} {filterID : Bytes} : ∀ u ∈ named s filterID, u < s.registered.length :=
  fun _ hu => List.mem_range.mp (List.mem_filter.mp hu).1

omit [DecidableEq A] [DecidableEq H] in
theorem cancelEventLogFilterByRequest_cases (s : EventLogFilterManager A H) (filterID : Bytes) :
    ∃ waiting, (cancelEventLogFilterByRequest s filterID).2 =
      { s with lost := s.lost ++ named s filterID, waitCancelFilter := waiting } := by
  unfold cancelEventLogFilterByRequest
  dsimp only
  split
  · exact ⟨_, rfl⟩
  · exact ⟨_, rfl⟩

theorem turn_inv (cfg : Config) {s : EventLogFilterManager A H} (hs : Inv s) (t : Turn) : InvOpt (s.turn cfg t) := by
  cases hphase : s.phase with
  | addFilter =>
    have hdone : s.done = [] := hs.round (by simp [hphase])
    have hlisted : ∀ u : EventLogFilterManager A H, u.waitAddFilter = [] → u.done = s.done →
        u.todo = s.waitAddFilter ++ s.todo → listed u = listed s := by
      intro u hwait hdone' htodo
      rw [listed, listed, hwait, hdone', htodo, hdone]
      rfl
    simp only [EventLogFilterManager.turn, hphase, InvOpt]
    have hsame := hlisted { s with phase := .cancelFilter, waitAddFilter := [], todo := s.waitAddFilter ++ s.todo }
      rfl rfl rfl
    exact hs.move hs.chain (hsame ▸ hs.nodup) (fun f hf => hsame ▸ hf) rfl rfl rfl hs.lost (fun _ => hdone)
  | cancelFilter =>
    have hdone : s.done = [] := hs.round (by simp [hphase])
    simp only [EventLogFilterManager.turn, hphase, InvOpt]
    refine hs.move hs.chain (hs.nodup.sublist ?_) ?_ rfl rfl rfl hs.lost (fun _ => hdone)
    · refine List.Sublist.map _ ?_
      exact (List.Sublist.refl _).append ((List.Sublist.refl _).append List.filter_sublist)
    · intro f hf
      simp only [listed, List.mem_append] at hf ⊢
      exact hf.imp_right (Or.imp_right List.mem_of_mem_filter)
  | executeFilters =>
    cases htodo : s.todo with
    | nil =>
      simp only [EventLogFilterManager.turn, hphase, htodo, InvOpt]
      have hsame : listed ({ s with phase := .addFilter, done := [], todo := s.done } : EventLogFilterManager A H) =
          listed s := by
        simp [listed, htodo]
      exact hs.move hs.chain (hsame ▸ hs.nodup) (fun f hf => hsame ▸ hf) rfl rfl rfl hs.lost (fun _ => rfl)
    | cons f todo =>
      rw [turn_execute cfg t hphase htodo]
      cases hexec : executeFilter cfg s.chain t f with
      | none => exact trivial
      | some r => exact hs.afterTurn hphase htodo (turn_kept cfg hs.chain t f hexec)

theorem step_inv (cfg : Config) (s : Option (EventLogFilterManager A H)) (i : Input A H) (hs : InvOpt s) :
    InvOpt ((manager A H cfg).step s i) := by
  cases s with
  | none => exact trivial
  | some s =>
    cases i with
    | grow b => exact hs.move (u := { s with chain := s.chain ++ [b] }) (by simp) hs.nodup (fun f hf => hf) rfl rfl rfl hs.lost hs.round
    | add p =>
      show Inv _
      rcases addEventLogFilterByRequest_cases cfg s p with heq | ⟨-, heq⟩
      · rw [heq]
        exact hs
      · rw [heq]
        exact hs.add p _ _
    | cancel filterID =>
      show Inv _
      obtain ⟨waiting, heq⟩ := cancelEventLogFilterByRequest_cases s filterID
      rw [heq]
      refine hs.move hs.chain hs.nodup (fun f hf => hf) rfl rfl rfl ?_ hs.round
      intro x hx
      rcases List.mem_append.mp hx with hx | hx
      · exact hs.lost x hx
      · exact named_lt x hx
    | turn t => exact turn_inv cfg hs t

/-! ### Exact pushes, step by step -/

theorem Exact.frame {s s' : EventLogFilterManager A H} {u first : Nat} {p : EventLogFilterParams A H}
    (h : Exact s u p first) (hchain : s'.chain = s.chain) (hsent : sentTo s' u = sentTo s u)
    (hturns : ∀ n, turnsSince s' u n = turnsSince s u n)
    (hlisted : ∀ f, f.uid = u → (f ∈ listed s' ↔ f ∈ listed s)) : Exact s' u p first := by
  have hpushed : EventPush.pushed s' u = EventPush.pushed s u := congrArg (List.flatMap Push.response) hsent
  rcases h with ⟨f, h⟩ | h
  · refine .inl ⟨f, (hlisted f h.uid).mpr h.mem, h.uid, h.params, h.first_le, h.le_toBlock, ?_, ?_, ?_, ?_⟩
    · rw [hchain]
      exact h.le_length
    · rw [hpushed, hchain]
      exact h.pushed
    · rw [hsent]
      exact h.open'
    · intro n
      rw [hturns]
      exact h.keepsUp n
  · refine .inr ⟨?_, ?_, ?_, ?_⟩
    · intro f hf huid
      exact h.gone f ((hlisted f huid).mp hf) huid
    · rw [hchain]
      exact h.toBlock_lt
    · rw [hpushed, hchain]
      exact h.pushed
    · rw [hsent]
      exact h.completed

theorem Exact.grow {s : EventLogFilterManager A H} {u first : Nat} {p : EventLogFilterParams A H}
    (h : Exact s u p first) (b : Block A H) : Exact { s with chain := s.chain ++ [b] } u p first := by
  have hlen : (s.chain ++ [b]).length = s.chain.length + 1 := List.length_append
  rcases h with ⟨f, h⟩ | h
  · refine .inl ⟨f, h.mem, h.uid, h.params, h.first_le, h.le_toBlock, ?_, ?_, h.open', h.keepsUp⟩
    · exact h.le_length.imp_right fun hle => by
        rw [hlen]
        exact Nat.le_succ_of_le hle
    · exact h.pushed.trans (wantedIn_grow p s.chain b h.le_length).symm
  · refine .inr ⟨h.gone, ?_, ?_, h.completed⟩
    · rw [hlen]
      exact Nat.lt_succ_of_lt h.toBlock_lt
    · exact h.pushed.trans (wantedIn_grow p s.chain b (.inr h.toBlock_lt)).symm

theorem Exact.pending {s : EventLogFilterManager A H} (hs : Inv s) {f : EventLogFilter A H} (hf : f ∈ listed s)
    {p : EventLogFilterParams A H} {first : Nat} (h : Exact s f.uid p first) : Pending s f.uid p first f := by
  rcases h with ⟨g, h⟩ | h
  · have hgf : g = f := hs.unique h.mem hf h.uid
    exact hgf ▸ h
  · exact absurd rfl (h.gone f hf)

theorem Pending.registered {s : EventLogFilterManager A H} (hs : Inv s) {p : EventLogFilterParams A H}
    (hrange : firstBlock p s.number ≤ p.toBlock) :
    Pending { s with
        waitAddFilter := s.waitAddFilter ++ [⟨s.registered.length, p, firstBlock p s.number⟩]
        registered := s.registered ++ [(p, s.number)] }
      s.registered.length p (firstBlock p s.number) ⟨s.registered.length, p, firstBlock p s.number⟩ := by
  have hsent : s.sent.filter (fun m => m.uid = s.registered.length) = [] := by
    rw [List.filter_eq_nil_iff]
    intro m hm
    have hlt := hs.sent m hm
    simp only [decide_eq_true_eq]
    omega
  have hturns : ∀ n, s.turns.countP (fun t => t.1 = s.registered.length ∧ n ≤ t.2) = 0 := by
    intro n
    rw [List.countP_eq_zero]
    intro t ht
    have hlt := hs.turns t ht
    simp only [decide_eq_true_eq]
    omega
  have hnone : sentTo s s.registered.length = [] := by rw [sentTo, hsent, List.map_nil]
  refine ⟨?_, rfl, rfl, le_rfl, hrange, .inl rfl, ?_, ?_, ?_⟩
  · simp [listed]
  · show (sentTo s s.registered.length).flatMap Push.response = wantedIn p s.chain _ _
    rw [hnone, wantedIn_self]
    rfl
  · show Push.PUSH_COMPLETED ∉ sentTo s s.registered.length
    rw [hnone]
    exact List.not_mem_nil
  · intro n
    rw [turnsSince, hturns n]
    exact Nat.min_le_right ..

section turn

variable (cfg : Config) {s : EventLogFilterManager A H} {t : Turn} {f : EventLogFilter A H}
  {todo kept : List (EventLogFilter A H)} {sent : List (Push A H)}

theorem Exact.other (htodo : s.todo = f :: todo) (hkept : KeptOf f kept) {u first : Nat} {p : EventLogFilterParams A H}
    (hu : u ≠ f.uid) (h : Exact s u p first) : Exact (afterTurn s t f todo kept sent) u p first := by
  refine h.frame rfl ?_ ?_ ?_
  · rw [sentTo_afterTurn, if_neg hu.symm, List.append_nil]
  · intro n
    rw [turnsSince_afterTurn, if_neg fun hand => hu hand.2.1.symm, Nat.add_zero]
  · intro g hg
    exact mem_listed_afterTurn htodo hkept (hg ▸ hu)

theorem pushes_afterTurn (hs : Inv s) (hP : Pushes (some s)) (htodo : s.todo = f :: todo) (hkept : KeptOf f kept)
    (hself : t.Active → f.uid ∉ s.lost → ∀ p first, Pending s f.uid p first f → Exact (afterTurn s t f todo kept sent) f.uid p first) :
    Pushes (some (afterTurn s t f todo kept sent)) := by
  intro u p number hreg hlost
  have hold : u ∉ s.lost := by
    intro hu
    refine hlost ?_
    simp only [afterTurn]
    split
    · exact hu
    · exact List.mem_append_left _ hu
  have hexact := hP u p number hreg hold
  by_cases hu : u = f.uid
  · subst hu
    have hactive : t.Active := by
      by_contra hinactive
      refine hlost ?_
      simp only [afterTurn, if_neg hinactive]
      exact List.mem_append_right _ List.mem_cons_self
    exact hself hactive hold p _ (hexact.pending hs (by simp [listed, htodo]))
  · exact hexact.other htodo hkept hu

theorem Pending.idle {p : EventLogFilterParams A H} {first : Nat}
    (h : Pending s f.uid p first f) (hread : ¬ (t.Admits ∧ f.nextBlockToProcess ≤ s.number)) :
    Pending (afterTurn s t f todo [f] []) f.uid p first f := by
  have hsent : sentTo (afterTurn s t f todo [f] []) f.uid = sentTo s f.uid := by
    rw [sentTo_afterTurn, if_pos rfl, List.append_nil]
  refine ⟨?_, rfl, h.params, h.first_le, h.le_toBlock, h.le_length, ?_, ?_, ?_⟩
  · rw [listed_afterTurn]
    simp
  · rw [EventPush.pushed, hsent]
    exact h.pushed
  · rw [hsent]
    exact h.open'
  · intro n
    have hkeeps := h.keepsUp n
    rw [turnsSince_afterTurn]
    by_cases hn : t.Admits ∧ f.uid = f.uid ∧ n ≤ s.number
    · have hwait : s.number < f.nextBlockToProcess := by
        by_contra hle
        exact hread ⟨hn.1, Nat.le_of_not_lt hle⟩
      have hle : min (n + 1) (first + (turnsSince s f.uid n + if t.Admits ∧ f.uid = f.uid ∧ n ≤ s.number then 1 else 0)) ≤
        n + 1 := Nat.min_le_left ..
      omega
    · rw [if_neg hn]
      exact hkeeps

omit [DecidableEq A] [DecidableEq H] in
theorem turnEnd_gt {chain : List (Block A H)} (hchain : chain ≠ []) {next : Nat} (h : next ≤ chain.length - 1) :
    next < turnEnd cfg chain next := by
  have hpos : 0 < chain.length := List.length_pos_iff.mpr hchain
  unfold turnEnd MAX_BLOCK_PER_PROCESS
  split
  · omega
  · omega

theorem pushed_afterTurn {p : EventLogFilterParams A H} {first stop : Nat} (h : Pending s f.uid p first f)
    (hle : f.nextBlockToProcess ≤ stop)
    (hresponse : sent.flatMap Push.response = wantedIn p s.chain f.nextBlockToProcess stop) :
    pushed (afterTurn s t f todo kept sent) f.uid = wantedIn p s.chain first stop := by
  rw [pushed, sentTo_afterTurn, if_pos rfl, List.flatMap_append, hresponse,
    wantedIn_append p s.chain h.first_le hle]
  exact congrArg (· ++ _) h.pushed

theorem Pending.read (hs : Inv s) {p : EventLogFilterParams A H} {first : Nat}
    (h : Pending s f.uid p first f) (hnext : f.nextBlockToProcess ≤ s.number)
    (hlength : turnEnd cfg s.chain f.nextBlockToProcess ≤ s.chain.length)
    (hstop : turnEnd cfg s.chain f.nextBlockToProcess ≤ f.params.toBlock) :
    Pending (afterTurn s t f todo [{ f with nextBlockToProcess := turnEnd cfg s.chain f.nextBlockToProcess }]
        (turnPushes cfg s.chain f)) f.uid p first
      { f with nextBlockToProcess := turnEnd cfg s.chain f.nextBlockToProcess } := by
  have hgt := turnEnd_gt cfg hs.chain hnext
  obtain rfl := h.params
  refine ⟨?_, rfl, rfl, h.first_le.trans hgt.le, hstop, .inr hlength, ?_, ?_, ?_⟩
  · rw [listed_afterTurn]
    simp
  · exact pushed_afterTurn h hgt.le (turnPushes_response cfg s.chain f)
  · rw [sentTo_afterTurn, if_pos rfl, List.mem_append]
    rintro (hold | hnew)
    · exact h.open' hold
    · exact not_completed_mem_turnPushes cfg s.chain f hnew
  · intro n
    have hkeeps := h.keepsUp n
    rw [turnsSince_afterTurn]
    show _ ≤ turnEnd cfg s.chain f.nextBlockToProcess
    split
    · omega
    · omega

theorem exact_passed_iff (hs : Inv s) (htodo : s.todo = f :: todo) {p : EventLogFilterParams A H} {first : Nat}
    (h : Pending s f.uid p first f) (hnext : f.nextBlockToProcess ≤ s.number)
    (hlength : turnEnd cfg s.chain f.nextBlockToProcess ≤ s.chain.length)
    (hstop : f.params.toBlock < turnEnd cfg s.chain f.nextBlockToProcess) :
    Exact (afterTurn s t f todo [] (turnPushes cfg s.chain f ++ [.PUSH_COMPLETED])) f.uid p first ↔
      wantedIn p s.chain (p.toBlock + 1) (turnEnd cfg s.chain f.nextBlockToProcess) = [] := by
  have hgt := turnEnd_gt cfg hs.chain hnext
  obtain rfl := h.params
  have hlast : f.nextBlockToProcess ≤ f.params.toBlock + 1 := Nat.le_succ_of_le h.le_toBlock
  have hpushed : pushed (afterTurn s t f todo [] (turnPushes cfg s.chain f ++ [.PUSH_COMPLETED])) f.uid =
      wantedIn f.params s.chain first (f.params.toBlock + 1) ++
        wantedIn f.params s.chain (f.params.toBlock + 1) (turnEnd cfg s.chain f.nextBlockToProcess) := by
    rw [← wantedIn_append f.params s.chain (h.first_le.trans hlast) hstop]
    refine pushed_afterTurn h hgt.le ?_
    rw [List.flatMap_append, turnPushes_response]
    exact List.append_nil _
  have hgone : ∀ g ∈ listed (afterTurn s t f todo [] (turnPushes cfg s.chain f ++ [.PUSH_COMPLETED])), g.uid ≠ f.uid := by
    intro g hg huid
    have hnodup := hs.nodup
    rw [listed, htodo, List.append_cons, ← List.append_assoc, ← List.append_assoc] at hnodup
    rw [listed_afterTurn, List.nil_append] at hg
    have hperm : (s.waitAddFilter ++ s.done ++ [f] ++ todo).Perm (f :: (s.waitAddFilter ++ (s.done ++ todo))) := by
      rw [List.append_assoc, List.singleton_append, ← List.append_assoc]
      exact List.perm_middle
    have hnot := (List.nodup_cons.mp ((hperm.map EventLogFilter.uid).nodup_iff.mp hnodup)).1
    exact hnot (List.mem_map.mpr ⟨g, hg, huid⟩)
  constructor
  · rintro (⟨g, hpending⟩ | hfinished)
    · exact absurd hpending.uid (hgone g hpending.mem)
    · have hrange := hfinished.pushed
      rw [hpushed] at hrange
      exact List.append_right_eq_self.mp hrange
  · intro hnothing
    refine .inr ⟨hgone, Nat.lt_of_lt_of_le hstop hlength, ?_, ?_⟩
    · rw [hpushed, hnothing, List.append_nil]
      rfl
    · refine ⟨sentTo s f.uid ++ turnPushes cfg s.chain f, ?_, ?_⟩
      · rw [sentTo_afterTurn, if_pos rfl, List.append_assoc]
      · rw [List.mem_append]
        rintro (hold | hnew)
        · exact h.open' hold
        · exact not_completed_mem_turnPushes cfg s.chain f hnew

/-- **The turn of one filter**: the pushes stay exact exactly under `TurnOk`. -/
theorem turn_exact (hs : Inv s) (hP : Pushes (some s)) (hphase : s.phase = .executeFilters)
    (htodo : s.todo = f :: todo) : Pushes (s.turn cfg t) ↔ TurnOk cfg s t f := by
  have hf : f ∈ listed s := by simp [listed, htodo]
  rw [turn_execute cfg t hphase htodo]
  by_cases hread : t.Admits ∧ f.nextBlockToProcess ≤ s.number
  · obtain ⟨hnone, hsome⟩ := executeFilter_reads cfg hs.chain hread.1 hread.2
    by_cases hok : Readable cfg s.chain f
    · obtain ⟨status, sent, heq, hdelivered⟩ := hsome hok
      have hkept := turn_kept cfg hs.chain t f heq
      rw [heq, Option.map_some]
      by_cases hown : t.Active ∧ f.uid ∉ s.lost
      · obtain ⟨hpassed, hbefore⟩ := hdelivered hown.1.2
        obtain ⟨number, hreg⟩ := hs.made f hf
        have hpending := (hP f.uid f.params number hreg hown.2).pending hs hf
        by_cases hstop : f.params.toBlock < turnEnd cfg s.chain f.nextBlockToProcess
        · obtain ⟨rfl, rfl⟩ := hpassed hstop
          have hiff := fun first (h : Pending s f.uid f.params first f) => exact_passed_iff (t := t) (p := f.params) cfg hs htodo h hread.2 hok.1 hstop
          rw [if_pos (.inr rfl)] at hkept ⊢
          constructor
          · intro hpushes _ _
            have hexact := hpushes f.uid f.params number hreg (by simp only [afterTurn, if_pos hown.1]; exact hown.2)
            exact ⟨hok.1, hok.2, fun _ _ => wantedIn_eq_nil.mp ((hiff _ hpending).mp hexact)⟩
          · intro hturn
            have hnothing := wantedIn_eq_nil.mpr ((hturn hread.1 hread.2).2.2 hown.1 hown.2)
            refine pushes_afterTurn hs hP htodo hkept ?_
            intro _ _ p first h
            obtain rfl := h.params
            exact (hiff first h).mpr hnothing
        · have hle := Nat.le_of_not_lt hstop
          obtain ⟨herror, hcompleted, rfl⟩ := hbefore hle
          rw [if_neg (by simp [herror, hcompleted])] at hkept ⊢
          constructor
          · intro _ _ _
            refine ⟨hok.1, hok.2, fun _ _ b hb => ?_⟩
            rw [List.drop_eq_nil_of_le ((List.length_take_le _ _).trans (Nat.le_succ_of_le hle))] at hb
            cases hb
          · intro _
            refine pushes_afterTurn hs hP htodo hkept ?_
            intro _ _ p first h
            exact .inl ⟨_, h.read cfg hs hread.2 hok.1 hle⟩
      · constructor
        · intro _ _ _
          exact ⟨hok.1, hok.2, fun hactive hlost => absurd ⟨hactive, hlost⟩ hown⟩
        · intro _
          refine pushes_afterTurn hs hP htodo hkept ?_
          intro hactive hlost
          exact absurd ⟨hactive, hlost⟩ hown
    · rw [hnone hok]
      constructor
      · intro h
        exact h.elim
      · intro hturn
        obtain ⟨hlength, hinside, -⟩ := hturn hread.1 hread.2
        exact absurd ⟨hlength, hinside⟩ hok
  · obtain ⟨status, heq, hcompleted, herror⟩ := executeFilter_idle cfg hread
    have hkept := turn_kept cfg hs.chain t f heq
    rw [heq, Option.map_some]
    constructor
    · intro _ hadmits hnext
      exact absurd ⟨hadmits, hnext⟩ hread
    · intro _
      refine pushes_afterTurn hs hP htodo hkept ?_
      intro hactive _ p first h
      have hlisted : ¬ (isErrorStatus status = true ∨ status = .STATUS_PUSH_COMPLETED) := by
        rintro (herr | hdone)
        · exact hactive.1 (herror herr)
        · exact hcompleted hdone
      rw [if_neg hlisted]
      exact .inl ⟨f, h.idle hread⟩

end turn

/-! ### Runs -/

theorem cancelFilter_exact (cfg : Config) {s : EventLogFilterManager A H} (hs : Inv s) (hP : Pushes (some s)) (t : Turn)
    (hphase : s.phase = .cancelFilter) :
    Pushes (s.turn cfg t) ↔ ∀ f ∈ s.todo, f.params.filterID ∈ s.waitCancelFilter → f.uid ∈ s.lost := by
  have hdone : s.done = [] := hs.round (by simp [hphase])
  simp only [EventLogFilterManager.turn, hphase]
  generalize hu : ({ s with
    phase := .executeFilters, waitCancelFilter := []
    todo := s.todo.filter fun f => f.params.filterID ∉ s.waitCancelFilter } : EventLogFilterManager A H) = s'
  have hsent : s'.sent = s.sent := by rw [← hu]
  have hlisted : ∀ g, g ∈ listed s' ↔
      g ∈ listed s ∧ (g ∈ s.todo → g ∉ s.waitAddFilter → g.params.filterID ∉ s.waitCancelFilter) := by
    intro g
    simp only [← hu, listed, hdone, List.nil_append, List.mem_append, List.mem_filter, decide_eq_true_eq]
    tauto
  constructor
  · intro hpushes f hf hid
    by_contra hlost
    have hmem : f ∈ listed s := by simp [listed, hf]
    obtain ⟨number, hreg⟩ := hs.made f hmem
    have hpending := (hP f.uid f.params number hreg hlost).pending hs hmem
    have hwaiting : f ∉ s.waitAddFilter := by
      intro hwait
      have hnodup := hs.nodup
      rw [listed, List.map_append, List.nodup_append] at hnodup
      refine hnodup.2.2 f.uid (List.mem_map_of_mem hwait) f.uid ?_ rfl
      exact List.mem_map_of_mem (List.mem_append_right _ hf)
    rcases hpushes f.uid f.params number (by rw [← hu]; exact hreg) (by rw [← hu]; exact hlost) with ⟨g, hg⟩ | hfinished
    · have hgs := (hlisted g).mp hg.mem
      obtain rfl : g = f := hs.unique hgs.1 hmem hg.uid
      exact hgs.2 hf hwaiting hid
    · obtain ⟨before, hcompleted, -⟩ := hfinished.completed
      have hin : Push.PUSH_COMPLETED ∈ sentTo s f.uid := by
        have hsame : sentTo s' f.uid = sentTo s f.uid := by rw [sentTo, hsent, sentTo]
        rw [← hsame, hcompleted]
        exact List.mem_append_right _ List.mem_cons_self
      exact hpending.open' hin
  · intro hcancelled u p number hreg hlost
    have hold := hP u p number (by rw [← hu] at hreg; exact hreg) (by rw [← hu] at hlost; exact hlost)
    refine hold.frame (by rw [← hu]) (by rw [sentTo, hsent, sentTo]) (fun n => by rw [turnsSince, turnsSince, ← hu]) ?_
    rintro g rfl
    rw [hlisted]
    constructor
    · exact fun h => h.1
    · intro hg
      refine ⟨hg, fun htodo _ hid => ?_⟩
      rw [← hu] at hlost
      exact hlost (hcancelled g htodo hid)

theorem step_exact (cfg : Config) (s : Option (EventLogFilterManager A H)) (i : Input A H) (hs : InvOpt s)
    (hP : Pushes s) : Pushes ((manager A H cfg).step s i) ↔ StepOk cfg s i := by
  cases s with
  | none => exact hP.elim
  | some s =>
    have hinv : Inv s := hs
    cases i with
    | grow b =>
      refine iff_of_true ?_ trivial
      intro u p number hreg hlost
      exact (hP u p number hreg hlost).grow b
    | add p =>
      refine iff_of_true ?_ trivial
      show Pushes (some _)
      rcases addEventLogFilterByRequest_cases cfg s p with heq | ⟨hrange, heq⟩
      · rw [heq]
        exact hP
      · rw [heq]
        intro u q number hreg hlost
        rcases Nat.lt_trichotomy u s.registered.length with hlt | rfl | hgt
        · have hold := hP u q number (by rw [List.getElem?_append_left hlt] at hreg; exact hreg) hlost
          refine hold.frame rfl rfl (fun _ => rfl) ?_
          rintro g rfl
          have hne : g ≠ ⟨s.registered.length, p, firstBlock p s.number⟩ := by
            rintro rfl
            exact absurd hlt (lt_irrefl _)
          simp [listed, hne]
        · rw [List.getElem?_append_right le_rfl, Nat.sub_self] at hreg
          cases hreg
          exact .inl ⟨_, Pending.registered hinv hrange⟩
        · have hnone : (s.registered ++ [(p, s.number)])[u]? = none := by
            rw [List.getElem?_eq_none_iff, List.length_append]
            exact hgt
          rw [hnone] at hreg
          cases hreg
    | cancel filterID =>
      refine iff_of_true ?_ trivial
      show Pushes (some _)
      obtain ⟨waiting, heq⟩ := cancelEventLogFilterByRequest_cases s filterID
      rw [heq]
      intro u p number hreg hlost
      exact (hP u p number hreg fun h => hlost (List.mem_append_left _ h)).frame rfl rfl (fun _ => rfl) fun _ _ => Iff.rfl
    | turn t =>
      show Pushes (s.turn cfg t) ↔ _
      cases hphase : s.phase with
      | addFilter =>
        simp only [StepOk, hphase, iff_true]
        have hdone : s.done = [] := hinv.round (by simp [hphase])
        simp only [EventLogFilterManager.turn, hphase]
        intro u p number hreg hlost
        refine (hP u p number hreg hlost).frame rfl rfl (fun _ => rfl) fun g _ => ?_
        simp [listed, hdone]
      | cancelFilter =>
        simp only [StepOk, hphase]
        exact cancelFilter_exact cfg hinv hP t hphase
      | executeFilters =>
        cases htodo : s.todo with
        | nil =>
          simp only [StepOk, hphase, htodo, iff_true]
          simp only [EventLogFilterManager.turn, hphase, htodo]
          intro u p number hreg hlost
          refine (hP u p number hreg hlost).frame rfl rfl (fun _ => rfl) fun g _ => ?_
          simp [listed, htodo]
        | cons f todo =>
          simp only [StepOk, hphase, htodo]
          exact turn_exact cfg hinv hP hphase htodo

/-- **Event push is exact** all along a run if and only if its steps meet the
    condition. -/
theorem push_exact (cfg : Config) (genesis : Block A H) (is : List (Input A H)) :
    (∀ n, Pushes ((manager A H cfg).run (some (start genesis)) (is.take n))) ↔
      (manager A H cfg).RunOk (StepOk cfg) (some (start genesis)) is :=
  (manager A H cfg).forall_take_iff (step_inv cfg) (step_exact cfg) is (start_inv genesis) (fun _ _ _ h => nomatch h)

/-- A filter for block 0 at height 1: both blocks are read in its turn, and the log
    of block 1 is pushed. -/
theorem not_push_exact :
    ¬ ∀ (cfg : Config) (genesis : Block Nat Nat) (is : List (Input Nat Nat)),
      Pushes ((manager Nat Nat cfg).run (some (start genesis)) is) := by
  intro h
  have hpushes := h ⟨0, 3⟩ ⟨0, 10, [], [], rfl⟩
    [.grow ⟨1, 11, [20], [[⟨5, [7], []⟩]], rfl⟩, .add ⟨1, [49], 0, 0, [5], fun _ => []⟩,
      .turn ⟨.CHECK_VALID, true⟩, .turn ⟨.CHECK_VALID, true⟩, .turn ⟨.CHECK_VALID, true⟩]
  rcases hpushes 0 ⟨1, [49], 0, 0, [5], fun _ => []⟩ 1 rfl (by decide) with ⟨f, hpending⟩ | hfinished
  · exact absurd hpending.mem List.not_mem_nil
  · exact absurd hfinished.pushed (by decide)

end HieraChain.EventPush
