/-
  HieraChain/CachedStorageSync.lean
  =================================
  **Which blocks are on the disk.**

  Where no access of RocksDB asks for a retry, the blocks that are written are
  the first ones that were committed, and the sync number is below every other
  (`Books`); a read that fails ends its call by an exception, and no null result
  is used (`no_lost_flush`).

  A retry breaks both.  `RocksDBStorage::commit` logs it and returns 0, which
  `commitBackend` does not look at: the block is counted as synced and the next
  one is written.  `RocksDBStorage::select` logs it and returns a null pointer,
  whose rows are asked for (`not_no_lost_flush`).
-/
import HieraChain.CachedStorageCalls
import HieraChain.RocksDBStorage
import HieraChain.TableHash
import Mathlib.Data.List.Sort

namespace HieraChain.CachedStorage

open HieraChain.BigEndian HieraChain.Storage HieraChain.RocksDBStorage

variable {β ω : Type}

/-! ### RocksDB without a retry -/

def NoRetry (o : Outcomes) : Prop := (∀ k, o.get k ≠ .retry) ∧ (∀ k, o.put k ≠ .retry) ∧ o.write ≠ .retry

def Firm {α : Type} (x : Except RocksDBStorage.Failure α) : Prop := x ≠ .error .retry

theorem Firm.bind {α γ : Type} {x : Except RocksDBStorage.Failure α} {f : α → Except RocksDBStorage.Failure γ}
    (hx : Firm x) (hf : ∀ a, Firm (f a)) : Firm (x.bind f) := by
  cases x with
  | ok a => exact hf a
  | error e => exact fun h => hx (congrArg Except.error (Except.error.inj h))

theorem Firm.map {α γ : Type} {x : Except RocksDBStorage.Failure α} {f : α → γ} (hx : Firm x) :
    Firm (x.map f) := by
  cases x with
  | ok a => exact nofun
  | error e => exact fun h => hx (congrArg Except.error (Except.error.inj h))

theorem firm_checkStatus {st : Status} (h : st ≠ .retry) : Firm (checkStatus st) := by
  cases st with
  | ok => exact nofun
  | fatal => exact nofun
  | retry => exact absurd rfl h

section noRetry

variable {o : Outcomes} (ho : NoRetry o)
include ho

theorem firm_get (db : DB) (k : Bytes) : Firm (Get db o k) := by
  have hcheck := firm_checkStatus (ho.1 k)
  unfold Get
  split
  next => exact nofun
  next f hf => exact fun h => hcheck (hf.trans (congrArg Except.error (Except.error.inj h)))

theorem firm_processEntry (db : DB) (num : Nat) (info : TableInfo) (isDirty : Bool) (m : KeyToRows)
    (e : Entry) : Firm (processEntry db o num info isDirty m e) := by
  have hlist : Firm (listOf db o info m (e.getField info.key)) := by
    unfold listOf
    split
    · exact nofun
    · exact (firm_get ho db _).map
  have hpatch : ∀ rows, Firm (patch num rows e) := by
    intro rows
    unfold patch
    split
    · exact nofun
    · dsimp only
      split
      · exact nofun
      · split
        · exact nofun
        · exact nofun
  unfold processEntry
  refine Firm.bind ?_ fun rows => ?_
  · split
    · exact nofun
    · exact hlist
  · split
    · exact (hpatch rows).map
    · exact nofun

theorem firm_processEntries (db : DB) (num : Nat) (info : TableInfo) (isDirty : Bool) (es : List Entry)
    (m : KeyToRows) : Firm (processEntries db o num info isDirty m es) := by
  induction es generalizing m with
  | nil => exact nofun
  | cons e es ih => exact (firm_processEntry ho db num info isDirty m e).bind ih

theorem firm_tablesPuts (complete : Bool) (db : DB) (num : Nat) (datas : List TableData) :
    Firm (tablesPuts complete db o num datas) := by
  have hputs : ∀ (info : TableInfo) (ls : List (Bytes × List StoredRow)), Firm (putLists o info ls) := by
    intro info ls
    induction ls with
    | nil => exact nofun
    | cons l ls ih => exact (firm_checkStatus (ho.2.1 _)).bind fun _ => ih.map
  induction datas with
  | nil => exact nofun
  | cons data datas ih =>
    refine Firm.bind (Firm.bind ?_ fun m => firm_processEntries ho db num data.info false _ m) fun m =>
      (hputs data.info _).bind fun puts => ih.map
    split
    · exact firm_processEntries ho db num data.info true _ _
    · exact nofun

theorem commit_of_noRetry {complete : Bool} {db : DB} {num : Nat} {datas : List TableData} {r : DB × Nat}
    (h : commit complete db o num datas = .value r) :
    ∃ puts, tablesPuts complete db o num datas = .ok puts ∧ o.write = .ok ∧ r.1 = write db (o.order puts) := by
  have hfirm := firm_tablesPuts ho complete db num datas
  unfold commit at h
  cases hputs : tablesPuts complete db o num datas with
  | error f =>
    rw [hputs] at h hfirm
    cases f with
    | retry => exact absurd rfl hfirm
    | exception => cases h
    | abort => cases h
  | ok puts =>
    rw [hputs] at h
    cases hwrite : o.write with
    | ok =>
      rw [hwrite] at h
      cases h
      exact ⟨puts, rfl, rfl, rfl⟩
    | fatal =>
      rw [hwrite] at h
      cases h
    | retry => exact absurd hwrite ho.2.2

theorem answers_backend (version : Nat) : Answers (backend version) o := by
  refine ⟨fun b num info key c => ?_, fun b num datas => ?_⟩
  · have hget := firm_get ho b (entryKey info.name key)
    simp only [backend, RocksDBStorage.select]
    cases hfound : Get b o (entryKey info.name key) with
    | ok found =>
      dsimp only
      split
      · exact ⟨nofun, nofun⟩
      · exact ⟨nofun, nofun⟩
    | error f =>
      rw [hfound] at hget
      cases f with
      | retry => exact absurd rfl hget
      | exception => exact ⟨nofun, nofun⟩
      | abort => exact ⟨nofun, nofun⟩
  · simp only [backend, RocksDBStorage.commit]
    split <;> exact nofun

end noRetry

/-! ### The books -/

def Writes (db : DB) (b : Committed) (db' : DB) : Prop :=
  ∃ o puts, tablesPuts false db o b.num b.datas = .ok puts ∧ o.write = .ok ∧ db' = write db (o.order puts)

/-- From `db`, the batches of these blocks are written, in this order, and nothing else. -/
inductive Replays (db : DB) : List Committed → DB → Prop where
  | nil : Replays db [] db
  | snoc {bs : List Committed} {b : Committed} {db' db'' : DB} :
      Replays db bs db' → Writes db' b db'' → Replays db (bs ++ [b]) db''

theorem Replays.eq_of_nil {db db' : DB} (h : Replays db [] db') : db' = db := by
  generalize hbs : ([] : List Committed) = bs at h
  cases h with
  | nil => rfl
  | snoc => exact absurd hbs.symm (by simp)

theorem Replays.writes {db db' : DB} {b : Committed} (h : Replays db [b] db') : Writes db b db' := by
  generalize hbs : [b] = bs at h
  cases h with
  | nil => cases hbs
  | @snoc bs' b' db'' _ hbefore hwrites =>
    have happend : [] ++ [b] = bs' ++ [b'] := hbs
    obtain ⟨hnil, hb⟩ := List.append_inj' happend rfl
    cases hb
    rw [← hnil] at hbefore
    exact hbefore.eq_of_nil ▸ hwrites

structure BooksOf (cfg : Config) (db₀ : DB) (s : State DB) (written rest : List Committed) : Prop where
  committed : s.committed = written ++ rest
  replays : Replays db₀ written s.backend
  ahead : ∀ b ∈ rest, s.syncNum < b.num
  rising : (rest.map Committed.num).Pairwise (· < ·)
  /-- The pool, while it runs, has the tasks of all blocks that are not written. -/
  tasks : s.running = true → s.tasks = rest.map Committed.task
  disabled : cfg.disabled = true → rest = []
  under : ∀ c, s.committing = some c → s.syncNum < c.num ∧ ∀ b ∈ s.committed, b.num < c.num
  noNull : NoNull s

def Books (cfg : Config) (db₀ : DB) (s : State DB) : Prop := ∃ written rest, BooksOf cfg db₀ s written rest

section books

variable {cfg : Config} {version : Nat} {db₀ : DB} {s s' : State DB} {written rest : List Committed}

theorem BooksOf.kept (h : BooksOf cfg db₀ s written rest) (hkept : Kept s s') :
    BooksOf cfg db₀ s' written rest where
  committed := hkept.1.committed.trans h.committed
  replays := hkept.1.backend ▸ h.replays
  ahead := hkept.1.syncNum ▸ h.ahead
  rising := h.rising
  tasks hrunning := hkept.1.tasks.trans (h.tasks (hkept.1.running ▸ hrunning))
  disabled := h.disabled
  under c hc := by
    rw [hkept.1.syncNum, hkept.1.committed]
    exact h.under c (hkept.1.committing ▸ hc)
  noNull := hkept.2

theorem BooksOf.recommit (h : BooksOf cfg db₀ s written rest) (c? : Option Commit)
    (hunder : ∀ c, c? = some c → s.syncNum < c.num ∧ ∀ b ∈ s.committed, b.num < c.num) :
    BooksOf cfg db₀ { s with committing := c? } written rest :=
  ⟨h.committed, h.replays, h.ahead, h.rising, h.tasks, h.disabled, hunder, h.noNull⟩

theorem BooksOf.abandon (h : BooksOf cfg db₀ s written rest) :
    BooksOf cfg db₀ (CachedStorage.abandon s) written rest := h.recommit none nofun

theorem BooksOf.written_snoc {o : Outcomes} (ho : NoRetry o) {b : Committed}
    (h : Replays db₀ written s.backend) {r : DB × Nat}
    (hcommit : RocksDBStorage.commit false s.backend o b.num b.datas = .value r) :
    Replays db₀ (written ++ [b]) r.1 := by
  obtain ⟨puts, hputs, hwrite, hr⟩ := commit_of_noRetry ho hcommit
  exact h.snoc ⟨o, puts, hputs, hwrite, hr⟩

theorem books_flush {o : Outcomes} (ho : NoRetry o) (h : BooksOf cfg db₀ s written rest) :
    (flush cfg (backend version) s o).Meets (Books cfg db₀) fun _ => True := by
  unfold flush
  cases htasks : s.tasks with
  | nil => exact ⟨⟨written, rest, h⟩, trivial⟩
  | cons task tasks =>
    dsimp only
    by_cases hrunning : s.running = true
    · rw [if_pos hrunning]
      have hrest := (h.tasks hrunning).symm.trans htasks
      obtain ⟨b, rest', rfl, htask, htasks'⟩ := List.map_eq_cons_iff.mp hrest
      have hrising := List.pairwise_cons.mp h.rising
      unfold commitBackend
      rw [← htask]
      split
      next db n hcommit =>
        have hdisabled : cfg.disabled = false := by
          cases hd : cfg.disabled with
          | false => rfl
          | true => cases h.disabled hd
        rw [hdisabled]
        refine ⟨⟨written ++ [b], rest', ?_⟩, trivial⟩
        exact
          { committed := by
              rw [List.append_assoc]
              exact h.committed
            replays := BooksOf.written_snoc ho h.replays hcommit
            ahead := fun b' hb' => hrising.1 b'.num (List.mem_map_of_mem hb')
            rising := hrising.2
            tasks := fun _ => htasks'.symm
            disabled := fun hd => by rw [hdisabled] at hd; cases hd
            under := fun c hc => ⟨(h.under c hc).2 b (h.committed ▸ by simp), (h.under c hc).2⟩
            noNull := h.noNull }
      next =>
        refine ⟨⟨written, b :: rest', ?_⟩, trivial⟩
        exact ⟨h.committed, h.replays, h.ahead, h.rising, nofun, h.disabled, h.under, h.noNull⟩
      next why hwhy =>
        rintro rfl
        exact (answers_backend ho version).2 _ _ _ hwhy
    · rw [if_neg hrunning]
      exact ⟨⟨written, rest, h⟩, trivial⟩

theorem books_finishCommit {o : Outcomes} (ho : NoRetry o) {c : Commit} (hc : s.committing = some c)
    (h : BooksOf cfg db₀ s written rest) :
    (finishCommit cfg (backend version) s o c).Meets (Books cfg db₀) fun _ => True := by
  have hunder := h.under c hc
  have hkept : Kept s (sortCaches cfg s c.tables) := kept_sortCaches h.noNull c.tables
  have hsorted := h.kept hkept
  generalize hs' : sortCaches cfg s c.tables = s' at hsorted hkept
  have hahead : s'.syncNum < c.num := hkept.1.syncNum ▸ hunder.1
  have hbelow : ∀ b ∈ s'.committed, b.num < c.num := hkept.1.committed ▸ hunder.2
  unfold finishCommit
  rw [hs']
  dsimp only
  by_cases hd : cfg.disabled = true
  · rw [if_pos hd]
    obtain rfl := h.disabled hd
    unfold commitBackend
    dsimp only
    split
    next db n hcommit =>
      rw [if_pos hd]
      refine ⟨⟨written ++ [⟨c.num, c.request, c.datas cfg⟩], [], ?_⟩, trivial⟩
      exact
        { committed := by
            rw [List.append_nil, ← List.append_nil written, ← hsorted.committed]
          replays := BooksOf.written_snoc ho (b := ⟨c.num, c.request, c.datas cfg⟩) hsorted.replays hcommit
          ahead := nofun
          rising := List.Pairwise.nil
          tasks := hsorted.tasks
          disabled := fun _ => rfl
          under := nofun
          noNull := nofun }
    next =>
      refine ⟨written, [], ?_⟩
      exact ⟨hsorted.committed, hsorted.replays, nofun, List.Pairwise.nil, nofun, fun _ => rfl, nofun,
        hsorted.noNull⟩
    next why hwhy =>
      rintro rfl
      exact (answers_backend ho version).2 _ _ _ hwhy
  · rw [if_neg hd]
    refine ⟨⟨written, rest ++ [⟨c.num, c.request, c.datas cfg⟩], ?_⟩, trivial⟩
    have hrest : ∀ b ∈ rest, b.num < c.num := fun b hb =>
      hbelow b (hsorted.committed ▸ List.mem_append_right _ hb)
    exact
      { committed := by
          rw [← List.append_assoc, ← hsorted.committed]
        replays := hsorted.replays
        ahead := fun b hb => by
          rcases List.mem_append.mp hb with hb | hb
          · exact hsorted.ahead b hb
          · rw [List.mem_singleton.mp hb]
            exact hahead
        rising := by
          rw [List.map_append, List.pairwise_append]
          refine ⟨h.rising, List.pairwise_singleton _ _, fun a ha b hb => ?_⟩
          obtain ⟨b', hb', rfl⟩ := List.mem_map.mp ha
          rw [List.map_singleton, List.mem_singleton] at hb
          rw [hb]
          exact hrest b' hb'
        tasks := fun hrunning => by
          rw [List.map_append, ← hsorted.tasks hrunning]
          rfl
        disabled := fun hd' => absurd hd' hd
        under := nofun
        noNull := hsorted.noNull }

theorem books_turn {c : Commit} {left : List Item} {i : Nat}
    {f : TableCommit → Entry → Outcome (State DB) TableCommit} {after : Nat → TableCommit → Commit}
    (hc : s.committing = some c) (hf : ∀ t e, (f t e).Meets (Kept s) fun _ => True)
    (hafter : ∀ table t, (after table t).num = c.num) (h : BooksOf cfg db₀ s written rest) :
    (turn s c left i f after).Meets (Books cfg db₀) fun _ => True := by
  unfold turn
  split
  next => exact ⟨⟨written, rest, h⟩, trivial⟩
  next item _ =>
    split
    next => exact ⟨⟨written, rest, h⟩, trivial⟩
    next t _ =>
      have hmeets := hf t item.entry
      cases hcall : f t item.entry with
      | done s' t' =>
        rw [hcall] at hmeets
        have hkept := h.kept hmeets.1
        refine ⟨⟨written, rest, hkept.recommit _ fun c' hc' => ?_⟩, trivial⟩
        cases hc'
        rw [hafter]
        exact hkept.under c (hmeets.1.1.committing.trans hc)
      | thrown s' =>
        rw [hcall] at hmeets
        exact ⟨written, rest, (h.kept hmeets).abandon⟩
      | ended why =>
        rw [hcall] at hmeets
        exact hmeets

end books

/-! ### Runs -/

def Input.outcomes : Input ω → Option ω
  | .select w _ _ _ _ => some w
  | .commit _ _ => none
  | .dirty _ w => some w
  | .new _ w => some w
  | .finish w => some w
  | .flush w => some w
  | .checkAndClear _ => none
  | .stop => none

def Rises : Process β → Input ω → Prop
  | .alive s, .commit num _ => s.syncNum < num ∧ ∀ b ∈ s.committed, b.num < num
  | _, _ => True

def WithoutRetry (p : Process DB) (i : Input Outcomes) : Prop :=
  Rises p i ∧ ∀ o, i.outcomes = some o → NoRetry o

theorem books_act {cfg : Config} {version : Nat} {db₀ : DB} {s : State DB} {i : Input Outcomes}
    (h : Books cfg db₀ s) (hi : WithoutRetry (.alive s) i) :
    (act cfg (backend version) s i).Meets (Books cfg db₀) fun _ => True := by
  obtain ⟨written, rest, h⟩ := h
  cases i with
  | select w num info key condition =>
    have hw := answers_backend (hi.2 w rfl) version
    have hselect : (select cfg (backend version) s w num info key condition).Meets (Kept s) fun _ => True :=
      meets_select hw h.noNull num info key condition
    have hmeets := hselect.mono
      (fun s' hs' => (⟨written, rest, h.kept hs'⟩ : Books cfg db₀ s')) fun _ _ => trivial
    exact hmeets.bind fun s' _ hs' _ => ⟨hs', trivial⟩
  | commit num datas =>
    simp only [act]
    split
    · exact ⟨⟨written, rest, h⟩, trivial⟩
    · refine ⟨⟨written, rest, h.recommit _ fun c hc => ?_⟩, trivial⟩
      cases hc
      exact hi.1
  | dirty i w =>
    have hw := answers_backend (hi.2 w rfl) version
    simp only [act]
    split
    next => exact ⟨⟨written, rest, h⟩, trivial⟩
    next c hc =>
      exact books_turn hc (fun t e => meets_commitDirty hw h.noNull c.num t e) (fun _ _ => rfl) h
  | new i w =>
    have hw := answers_backend (hi.2 w rfl) version
    simp only [act]
    split
    next => exact ⟨⟨written, rest, h⟩, trivial⟩
    next c hc =>
      split
      · exact books_turn hc (fun t e => meets_commitNew hw h.noNull c.num t e) (fun _ _ => rfl) h
      · exact ⟨⟨written, rest, h⟩, trivial⟩
  | finish w =>
    simp only [act]
    split
    next => exact ⟨⟨written, rest, h⟩, trivial⟩
    next c hc =>
      split
      · exact books_finishCommit (hi.2 w rfl) hc h
      · exact ⟨⟨written, rest, h⟩, trivial⟩
  | flush w => exact books_flush (hi.2 w rfl) h
  | checkAndClear popped => exact ⟨⟨written, rest, h.kept (kept_checkAndClear h.noNull popped)⟩, trivial⟩
  | stop =>
    exact ⟨⟨written, rest, h.committed, h.replays, h.ahead, h.rising, nofun, h.disabled, h.under, h.noNull⟩,
      trivial⟩

def start (db₀ : β) (syncNum : Nat) : State β := { backend := db₀, syncNum }

def Sound (cfg : Config) (db₀ : DB) : Process DB → Prop
  | .alive s => Books cfg db₀ s
  | .ended why => why ≠ .nullDereference

theorem Sound.run {cfg : Config} {version : Nat} {db₀ : DB} {p : Process DB} (hp : Sound cfg db₀ p)
    {is : List (Input Outcomes)} (hrun : (machine cfg (backend version)).RunOk WithoutRetry p is) :
    Sound cfg db₀ ((machine cfg (backend version)).run p is) := by
  refine Machine.run_invariant _ (fun p i hinv (hi : WithoutRetry p i) => ?_) hp hrun
  cases p with
  | ended why => exact hinv
  | alive s =>
    have hmeets : (act cfg (backend version) s i).Meets (Books cfg db₀) fun _ => True := books_act hinv hi
    change Sound cfg db₀ (act cfg (backend version) s i).process
    cases hact : act cfg (backend version) s i with
    | done s' _ =>
      rw [hact] at hmeets
      exact hmeets.1
    | thrown s' =>
      rw [hact] at hmeets
      exact hmeets
    | ended why =>
      rw [hact] at hmeets
      exact hmeets

/-! ### Failed reads -/

/-- What a turn of a loop reads: the list of the key of its entry, unless it is
    cached. -/
def turnAsks (s : State DB) (c : Commit) (left : List Item) (i : Nat) (w : Outcomes)
    (skips : Entry → Bool) : Option (Outcomes × Bytes) :=
  match left[i]? with
  | none => none
  | some item =>
    match c.tables[item.table]? with
    | none => none
    | some t =>
      if !skips item.entry && (s.cacheAt (cacheKey t.info.name (item.entry.getField t.info.key))).empty then
        some (w, entryKey t.info.name (item.entry.getField t.info.key))
      else none

def asks (s : State DB) : Input Outcomes → Option (Outcomes × Bytes)
  | .select w _ info key _ =>
    if !info.enableCache || (s.cacheAt (cacheKey info.name key)).empty then some (w, entryKey info.name key)
    else none
  | .dirty i w => s.committing.bind fun c => turnAsks s c c.dirtyLeft i w fun e => decide (e.id = 0)
  | .new i w =>
    s.committing.bind fun c =>
      if c.dirtyLeft.isEmpty then turnAsks s c c.newLeft i w fun e => e.force else none
  | _ => none

theorem turnAsks_outcomes {s : State DB} {c : Commit} {left : List Item} {i : Nat} {w o : Outcomes}
    {skips : Entry → Bool} {k : Bytes} (h : turnAsks s c left i w skips = some (o, k)) : w = o := by
  unfold turnAsks at h
  split at h
  · cases h
  · split at h
    · cases h
    · split at h
      · cases h
        rfl
      · cases h

theorem select_of_fatal {version : Nat} {db : DB} {o : Outcomes} {info : TableInfo} {key : Bytes}
    {condition : Option Condition} (h : o.get (entryKey info.name key) = .fatal) :
    RocksDBStorage.select version db o info key condition = .thrown := by
  unfold RocksDBStorage.select Get
  rw [h]
  rfl

theorem load_of_fatal {cfg : Config} {version : Nat} {s : State DB} {w : Outcomes} {num : Nat}
    {info : TableInfo} {key : Bytes} (hempty : (s.cacheAt (cacheKey info.name key)).empty = true)
    (h : w.get (entryKey info.name key) = .fatal) :
    load cfg (backend version) s w num info key = .thrown (s.touchCache info.name key) := by
  unfold load
  dsimp only
  rw [cacheAt_touchCache, if_pos hempty]
  simp only [backend]
  rw [select_of_fatal h]

theorem turn_of_fatal {s : State DB} {c : Commit} {left : List Item} {i : Nat} {w : Outcomes}
    {skips : Entry → Bool} {f : TableCommit → Entry → Outcome (State DB) TableCommit}
    {after : Nat → TableCommit → Commit} {o : Outcomes} {k : Bytes}
    (hf : ∀ t e, skips e = false →
      (s.cacheAt (cacheKey t.info.name (e.getField t.info.key))).empty = true →
      w.get (entryKey t.info.name (e.getField t.info.key)) = .fatal → ∃ s', f t e = .thrown s')
    (hasks : turnAsks s c left i w skips = some (o, k)) (hfail : o.get k = .fatal) :
    ∃ s', turn s c left i f after = .thrown s' := by
  unfold turnAsks at hasks
  split at hasks
  next => cases hasks
  next item hitem =>
    split at hasks
    next => cases hasks
    next t ht =>
      split at hasks
      next hcond =>
        cases hasks
        rw [Bool.and_eq_true, Bool.not_eq_true'] at hcond
        obtain ⟨s', hs'⟩ := hf t item.entry hcond.1 hcond.2 hfail
        unfold turn
        rw [hitem]
        dsimp only
        rw [ht]
        dsimp only
        rw [hs']
        exact ⟨_, rfl⟩
      next => cases hasks

theorem act_of_fatal {cfg : Config} {version : Nat} {s : State DB} {i : Input Outcomes} {o : Outcomes}
    {k : Bytes} (hasks : asks s i = some (o, k)) (hfail : o.get k = .fatal) :
    ∃ s', act cfg (backend version) s i = .thrown s' := by
  cases i with
  | select w num info key condition =>
    simp only [asks] at hasks
    split at hasks
    next hcond =>
      cases hasks
      simp only [act, CachedStorage.select, selectNoCondition]
      cases hcache : info.enableCache with
      | false =>
        simp only [Bool.not_false, if_true, backend]
        rw [select_of_fatal hfail]
        exact ⟨_, rfl⟩
      | true =>
        rw [hcache, Bool.not_true, Bool.false_or] at hcond
        simp only [Bool.not_true, Bool.false_eq_true, if_false]
        rw [load_of_fatal hcond hfail]
        exact ⟨_, rfl⟩
    next => cases hasks
  | dirty i w =>
    obtain ⟨c, hc, hasks⟩ := Option.bind_eq_some_iff.mp hasks
    simp only [act, hc]
    refine turn_of_fatal (fun t e hskip hempty hget => ?_) hasks hfail
    unfold commitDirty
    dsimp only
    rw [if_neg (of_decide_eq_false hskip), load_of_fatal hempty hget]
    exact ⟨_, rfl⟩
  | new i w =>
    obtain ⟨c, hc, hasks⟩ := Option.bind_eq_some_iff.mp hasks
    simp only [act, hc]
    split at hasks
    next hleft =>
      rw [if_pos hleft]
      refine turn_of_fatal (fun t e hskip hempty hget => ?_) hasks hfail
      have hforce : (setNum e c.num).force = false := hskip
      unfold commitNew
      dsimp only
      rw [hforce, if_neg (by simp)]
      have hload : load cfg (backend version) s w c.num t.info (e.getField t.info.key)
          = .thrown (s.touchCache t.info.name (e.getField t.info.key)) := load_of_fatal hempty hget
      exact ⟨_, congrArg (Outcome.bind · _) hload⟩
    next => cases hasks
  | commit num datas => cases hasks
  | finish w => cases hasks
  | flush w => cases hasks
  | checkAndClear popped => cases hasks
  | stop => cases hasks

/-- The disk holds the batches of the first committed blocks, and the sync number
    is below the other ones. -/
def Synced (db₀ : DB) (s : State DB) : Prop :=
  ∃ written rest, s.committed = written ++ rest ∧ Replays db₀ written s.backend
    ∧ ∀ b ∈ rest, s.syncNum < b.num

/-- **No silently lost flush.**  From any content of the disk, where blocks are
    committed by rising numbers and no access of RocksDB asks for a retry:
    the process does not end by a null pointer; in every state reached, the disk
    holds the batches of the first committed blocks, one after the other, and
    the sync number is below the other ones; and every call whose read fails ends
    by an exception. -/
theorem no_lost_flush (cfg : Config) (version : Nat) (db₀ : DB) (syncNum : Nat)
    (is : List (Input Outcomes))
    (hrun : (machine cfg (backend version)).RunOk WithoutRetry (.alive (start db₀ syncNum)) is) :
    (machine cfg (backend version)).run (.alive (start db₀ syncNum)) is ≠ .ended .nullDereference
      ∧ ∀ s, (machine cfg (backend version)).run (.alive (start db₀ syncNum)) is = .alive s →
        Synced db₀ s
        ∧ ∀ i o k, WithoutRetry (.alive s) i → asks s i = some (o, k) → o.get k ≠ .ok →
          ∃ s', act cfg (backend version) s i = .thrown s' := by
  have hstart : Sound cfg db₀ (.alive (start db₀ syncNum)) :=
    ⟨[], [], rfl, Replays.nil, nofun, List.Pairwise.nil, fun _ => rfl, fun _ => rfl, nofun, nofun⟩
  have hsound := hstart.run hrun
  refine ⟨fun hend => ?_, fun s hs => ⟨?_, fun i o k hi hasks hfail => ?_⟩⟩
  · rw [hend] at hsound
    exact hsound rfl
  · rw [hs] at hsound
    obtain ⟨written, rest, h⟩ := hsound
    exact ⟨written, rest, h.committed, h.replays, h.ahead⟩
  · have ho : i.outcomes = some o := by
      cases i with
      | select w num info key condition =>
        simp only [asks] at hasks
        split at hasks
        · cases hasks; rfl
        · cases hasks
      | dirty i w =>
        obtain ⟨c, -, hasks⟩ := Option.bind_eq_some_iff.mp hasks
        exact congrArg some (turnAsks_outcomes hasks)
      | new i w =>
        obtain ⟨c, -, hasks⟩ := Option.bind_eq_some_iff.mp hasks
        split at hasks
        · exact congrArg some (turnAsks_outcomes hasks)
        · cases hasks
      | commit num datas => cases hasks
      | finish w => cases hasks
      | flush w => cases hasks
      | checkAndClear popped => cases hasks
      | stop => cases hasks
    refine act_of_fatal hasks ?_
    cases hget : o.get k with
    | ok => exact absurd hget hfail
    | fatal => rfl
    | retry => exact absurd hget ((hi.2 o ho).1 k)

/-! ### A sample -/

/-- An insertion sort is one that `tbb::parallel_sort` may be. -/
def plainSort (info : TableInfo) (entries : List Entry) : List Entry :=
  entries.insertionSort fun a b => EntryLessNoLock info b a = false

theorem plainSort_spec (info : TableInfo) (entries : List Entry) :
    SortOf (EntryLessNoLock info) entries (plainSort info entries) := by
  have htotal : Std.Total fun a b => EntryLessNoLock info b a = false := ⟨fun a b => by
    simp only [less_eq, decide_eq_false_iff_not, not_lt]
    exact le_total _ _⟩
  have htrans : IsTrans Entry fun a b => EntryLessNoLock info b a = false := ⟨fun a b c => by
    simp only [less_eq, decide_eq_false_iff_not, not_lt]
    exact le_trans⟩
  exact ⟨List.perm_insertionSort _ entries, List.pairwise_insertionSort _ entries⟩

def sampleConfig : Config where
  version := V2_5_0
  maxForwardBlock := 10
  maxCapacity := 1000
  sort := plainSort
  sort_spec := plainSort_spec

def sampleInfo : TableInfo := { name := ascii ['t'], key := ascii ['k'], fields := [] }

def sampleEntry : Entry :=
  { ({} : Entry).setField (ascii ['k']) (ascii ['a']) with id := 2, force := true, capacity_eq := by decide }

def accesses (get write : Status) : Outcomes where
  get _ := get
  put _ := .ok
  write := write
  order puts := puts
  order_perm _ := List.Perm.refl _

def oneBlock (write : Status) : List (Input Outcomes) :=
  [.commit 1 [{ info := sampleInfo, newEntries := [sampleEntry] }], .new 0 (accesses .ok .ok),
    .finish (accesses .ok .ok), .flush (accesses .ok write)]

theorem no_lost_flush_oneBlock :
    (machine sampleConfig (backend V2_5_0)).run (.alive (start AssocMap.empty 0)) (oneBlock .ok)
        ≠ .ended .nullDereference
      ∧ ∀ s, (machine sampleConfig (backend V2_5_0)).run (.alive (start AssocMap.empty 0)) (oneBlock .ok)
          = .alive s →
        Synced AssocMap.empty s
        ∧ ∀ i o k, WithoutRetry (.alive s) i → asks s i = some (o, k) → o.get k ≠ .ok →
          ∃ s', act sampleConfig (backend V2_5_0) s i = .thrown s' := by
  have hok : ∀ o, some (accesses .ok .ok) = some o → NoRetry o := by
    rintro o h
    cases h
    exact ⟨fun _ => nofun, fun _ => nofun, nofun⟩
  exact no_lost_flush sampleConfig V2_5_0 AssocMap.empty 0 (oneBlock .ok)
    ⟨⟨⟨by decide, nofun⟩, nofun⟩, ⟨trivial, hok⟩, ⟨trivial, hok⟩, ⟨trivial, hok⟩, trivial⟩

theorem puts_oneBlock {o : Outcomes} {puts : List Put}
    (h : tablesPuts false AssocMap.empty o 1
      [{ info := sampleInfo, newEntries := [setNum sampleEntry 1] }] = .ok puts) : puts ≠ [] := by
  have hlists : tableLists false AssocMap.empty o 1
      { info := sampleInfo, newEntries := [setNum sampleEntry 1] }
      = .ok (SortedMap.empty.insert (ascii ['a']) [newRow 1 (setNum sampleEntry 1)]) := rfl
  unfold tablesPuts at h
  rw [hlists] at h
  rintro rfl
  change ((putLists o sampleInfo [(ascii ['a'], [newRow 1 (setNum sampleEntry 1)])]).bind fun puts =>
    (tablesPuts false AssocMap.empty o 1 []).map fun rest => puts ++ rest) = .ok [] at h
  unfold putLists at h
  cases hput : checkStatus (o.put (entryKey sampleInfo.name (ascii ['a']))) with
  | error f =>
    rw [hput] at h
    cases h
  | ok _ =>
    rw [hput] at h
    cases h

theorem write_ne_empty {puts : List Put} (h : puts ≠ []) : write AssocMap.empty puts ≠ AssocMap.empty := by
  obtain ⟨init, last, rfl⟩ := List.eq_nil_or_concat puts |>.resolve_left h
  intro heq
  have hfind : (write AssocMap.empty (init.concat last)).find? last.key = some last.value := by
    rw [List.concat_eq_append, write, List.foldl_append]
    exact AssocMap.find?_insert_self ..
  rw [heq] at hfind
  cases hfind

/-- A block whose write asks for a retry counts as synced and is not on the disk;
    a select whose read asks for a retry uses a null pointer. -/
theorem not_no_lost_flush :
    (∃ s, (machine sampleConfig (backend V2_5_0)).run (.alive (start AssocMap.empty 0)) (oneBlock .retry)
        = .alive s ∧ s.syncNum = 1 ∧ s.committed.map Committed.num = [1] ∧ ¬ Synced AssocMap.empty s)
      ∧ (machine sampleConfig (backend V2_5_0)).run (.alive (start AssocMap.empty 0))
          [.select (accesses .retry .ok) 0 sampleInfo (ascii ['a']) none] = .ended .nullDereference := by
  obtain ⟨s, hrun, hsync, hcommitted, hbackend⟩ : ∃ s,
      (machine sampleConfig (backend V2_5_0)).run (.alive (start AssocMap.empty 0)) (oneBlock .retry)
        = .alive s ∧ s.syncNum = 1
      ∧ s.committed = [⟨1, [{ info := sampleInfo, newEntries := [sampleEntry] }],
          [{ info := sampleInfo, newEntries := [setNum sampleEntry 1] }]⟩]
      ∧ s.backend = AssocMap.empty := ⟨_, rfl, rfl, rfl, rfl⟩
  refine ⟨⟨s, hrun, hsync, by rw [hcommitted]; rfl, ?_⟩, rfl⟩
  rintro ⟨written, rest, happend, hreplays, hahead⟩
  rw [hcommitted] at happend
  rw [hbackend] at hreplays
  cases written with
  | nil =>
    have hlt := hahead _ (happend ▸ List.mem_cons_self)
    rw [hsync] at hlt
    exact absurd hlt (lt_irrefl 1)
  | cons b bs =>
    obtain ⟨rfl, hnil⟩ := List.cons.inj happend
    obtain ⟨rfl, -⟩ := List.append_eq_nil_iff.mp hnil.symm
    obtain ⟨o, puts, hputs, -, hwrite⟩ := hreplays.writes
    have hne : o.order puts ≠ [] := fun hnil =>
      puts_oneBlock hputs ((o.order_perm puts).symm.trans (List.Perm.of_eq hnil)).eq_nil
    exact write_ne_empty hne hwrite.symm

end HieraChain.CachedStorage
