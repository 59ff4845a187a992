/-
  HieraChain/CachedStorageCalls.lean
  ==================================
  **What the calls on the caches leave alone.**

  Loads, selects, the turns of a commit, the sorts and the eviction change the
  caches and the order of their use, and nothing else (`SameBooks`).  Where the
  backend gives no null pointer, no cache holds one and no call uses one
  (`meets_select`, `meets_commitDirty`, `meets_commitNew`).
-/
import HieraChain.CachedStorage

namespace HieraChain.CachedStorage

open HieraChain.BigEndian HieraChain.Storage

/-! ### What a call of the storage may do -/

def Outcome.Meets {σ α : Type} (x : Outcome σ α) (P : σ → Prop) (Q : α → Prop) : Prop :=
  match x with
  | .done s a => P s ∧ Q a
  | .thrown s => P s
  | .ended why => why ≠ .nullDereference

namespace Outcome

variable {σ α γ : Type} {P : σ → Prop} {Q : α → Prop} {R : γ → Prop}

theorem Meets.bind {x : Outcome σ α} {f : σ → α → Outcome σ γ} (hx : x.Meets P Q)
    (hf : ∀ s a, P s → Q a → (f s a).Meets P R) : (x.bind f).Meets P R := by
  cases x with
  | done s a => exact hf s a hx.1 hx.2
  | thrown s => exact hx
  | ended why => exact hx

theorem Meets.mono {x : Outcome σ α} {P' : σ → Prop} {Q' : α → Prop} (hx : x.Meets P Q)
    (hP : ∀ s, P s → P' s) (hQ : ∀ a, Q a → Q' a) : x.Meets P' Q' := by
  cases x with
  | done s a => exact ⟨hP s hx.1, hQ a hx.2⟩
  | thrown s => exact hP s hx
  | ended why => exact hx

end Outcome

variable {β ω : Type}

def Committed.task (b : Committed) : Task := ⟨b.num, b.datas⟩

structure SameBooks (s s' : State β) : Prop where
  backend : s'.backend = s.backend
  syncNum : s'.syncNum = s.syncNum
  tasks : s'.tasks = s.tasks
  running : s'.running = s.running
  committing : s'.committing = s.committing
  committed : s'.committed = s.committed

theorem SameBooks.refl (s : State β) : SameBooks s s := ⟨rfl, rfl, rfl, rfl, rfl, rfl⟩

theorem SameBooks.trans {s s' s'' : State β} (h : SameBooks s s') (h' : SameBooks s' s'') :
    SameBooks s s'' :=
  ⟨h'.backend.trans h.backend, h'.syncNum.trans h.syncNum, h'.tasks.trans h.tasks,
    h'.running.trans h.running, h'.committing.trans h.committing, h'.committed.trans h.committed⟩

theorem sameBooks_setCache (s : State β) (k : Bytes) (c : Cache) : SameBooks s (s.setCache k c) :=
  ⟨rfl, rfl, rfl, rfl, rfl, rfl⟩

theorem cacheAt_setCache (s : State β) (k k' : Bytes) (c : Cache) :
    (s.setCache k c).cacheAt k' = if k' = k then c else s.cacheAt k' := by
  rw [State.setCache, State.cacheAt, AssocMap.find?_insert, State.cacheAt]
  split
  · rfl
  · rfl

theorem cacheAt_touchCache (s : State β) (table key k : Bytes) :
    (s.touchCache table key).cacheAt k = s.cacheAt k := by
  rw [State.touchCache, cacheAt_setCache]
  split
  next h => rw [h]
  next => rfl

@[simp] theorem cacheAt_touchMRU (s : State β) (cfg : Config) (table key k : Bytes) (n : Int) :
    (s.touchMRU cfg table key n).cacheAt k = s.cacheAt k := by
  unfold State.touchMRU
  split
  · rfl
  · rfl

def NoNull (s : State β) : Prop := ∀ k c, s.caches.find? k = some c → c.entries.isSome = true

theorem NoNull.cacheAt {s : State β} (h : NoNull s) (k : Bytes) : (s.cacheAt k).entries.isSome = true := by
  rw [State.cacheAt]
  cases hc : s.caches.find? k with
  | none => rfl
  | some c => exact h k c hc

theorem NoNull.setCache {s : State β} (h : NoNull s) (k : Bytes) {c : Cache}
    (hc : c.entries.isSome = true) : NoNull (s.setCache k c) := by
  intro k' c' hfind
  rw [State.setCache, AssocMap.find?_insert] at hfind
  split at hfind
  next => cases hfind; exact hc
  next => exact h k' c' hfind

theorem NoNull.touchCache {s : State β} (h : NoNull s) (table key : Bytes) :
    NoNull (s.touchCache table key) := h.setCache _ (h.cacheAt _)

theorem NoNull.touchMRU {s : State β} (h : NoNull s) (cfg : Config) (table key : Bytes) (n : Int) :
    NoNull (s.touchMRU cfg table key n) := by
  unfold State.touchMRU
  split
  · exact h
  · exact h

theorem sameBooks_touchMRU (s : State β) (cfg : Config) (table key : Bytes) (n : Int) :
    SameBooks s (s.touchMRU cfg table key n) := by
  unfold State.touchMRU
  split
  · exact SameBooks.refl s
  · exact ⟨rfl, rfl, rfl, rfl, rfl, rfl⟩

/-- The state after a call on the caches of `s`. -/
def Kept (s s' : State β) : Prop := SameBooks s s' ∧ NoNull s'

theorem Kept.trans {s s' s'' : State β} (h : Kept s s') (h' : Kept s' s'') : Kept s s'' :=
  ⟨h.1.trans h'.1, h'.2⟩

theorem kept_touchCache {s : State β} (h : NoNull s) (table key : Bytes) :
    Kept s (s.touchCache table key) := ⟨sameBooks_setCache .., h.touchCache table key⟩

theorem kept_setCache {s : State β} (h : NoNull s) (k : Bytes) {c : Cache}
    (hc : c.entries.isSome = true) : Kept s (s.setCache k c) :=
  ⟨sameBooks_setCache .., h.setCache k hc⟩

theorem kept_touchMRU {s : State β} (h : NoNull s) (cfg : Config) (table key : Bytes) (n : Int) :
    Kept s (s.touchMRU cfg table key n) := ⟨sameBooks_touchMRU s cfg table key n, h.touchMRU cfg table key n⟩

section calls

variable {cfg : Config} {B : Backend β ω} {s : State β} {w : ω}

/-- The backend gives no null pointer and does not end the process by one. -/
def Answers (B : Backend β ω) (w : ω) : Prop :=
  (∀ b num info key c, B.select b w num info key c ≠ .value none
    ∧ B.select b w num info key c ≠ .ended .nullDereference)
  ∧ ∀ b num datas, B.commit b w num datas ≠ .ended .nullDereference

theorem meets_load (hw : Answers B w) (h : NoNull s) (num : Nat) (info : TableInfo) (key : Bytes) :
    (load cfg B s w num info key).Meets (Kept s) fun c => c.entries.isSome = true := by
  have htouch := kept_touchCache h info.name key
  unfold load
  dsimp only
  split
  next =>
    have hanswer := hw.1 (s.touchCache info.name key).backend num info key (conditionKey info key)
    split
    next rows hrows => exact ⟨htouch.trans (kept_touchMRU htouch.2 ..), rfl⟩
    next hrows => exact absurd hrows hanswer.1
    next => exact htouch
    next why hwhy =>
      rintro rfl
      exact hanswer.2 hwhy
  next => exact ⟨htouch, htouch.2.cacheAt _⟩

theorem meets_select (hw : Answers B w) (h : NoNull s) (num : Nat) (info : TableInfo) (key : Bytes)
    (condition : Option Condition) :
    (select cfg B s w num info key condition).Meets (Kept s) fun _ => True := by
  have hrows : (selectNoCondition cfg B s w num info key).Meets (Kept s) fun r => r.isSome = true := by
    unfold selectNoCondition
    split
    next =>
      have hanswer := hw.1 s.backend num info key (conditionKey info key)
      split
      next rows hrows =>
        cases rows with
        | none => exact absurd hrows hanswer.1
        | some rows => exact ⟨⟨SameBooks.refl s, h⟩, rfl⟩
      next => exact ⟨SameBooks.refl s, h⟩
      next why hwhy =>
        rintro rfl
        exact hanswer.2 hwhy
    next =>
      refine (meets_load hw h num info key).bind fun s' cache hs' hcache => ?_
      have hset := hs'.trans (kept_setCache hs'.2 (cacheKey info.name key)
        (c := { cache with empty := false }) hcache)
      refine ⟨?_, hcache⟩
      split
      · exact hset.trans (kept_touchMRU hset.2 ..)
      · exact hset
  refine hrows.bind fun s' rows hs' hsome => ?_
  cases rows with
  | none => cases hsome
  | some rows => exact ⟨hs', trivial⟩

theorem meets_commitDirty (hw : Answers B w) (h : NoNull s) (num : Nat) (t : TableCommit) (e : Entry) :
    (commitDirty cfg B s w num t e).Meets (Kept s) fun _ => True := by
  unfold commitDirty
  dsimp only
  split
  next => exact nofun
  next =>
    refine (meets_load hw h num t.info _).bind fun s' cache hs' hcache => ?_
    split
    next hnone => rw [hnone] at hcache; cases hcache
    next rows _ =>
      split
      next => exact nofun
      next old _ =>
        split
        next => exact nofun
        next =>
          have hset := hs'.trans (kept_setCache hs'.2 (cacheKey t.info.name (e.getField t.info.key))
            (c := { entries := some (rows.set (lowerBound rows e.id) (updateRow old e num)), num, empty := false })
            rfl)
          exact ⟨hset.trans (kept_touchMRU hset.2 ..), trivial⟩

theorem meets_commitNew (hw : Answers B w) (h : NoNull s) (num : Nat) (t : TableCommit) (e : Entry) :
    (commitNew cfg B s w num t e).Meets (Kept s) fun _ => True := by
  unfold commitNew
  dsimp only
  have hfound : (if (setNum e num).force then
        Outcome.done (s.touchCache t.info.name ((setNum e num).getField t.info.key))
          ((s.touchCache t.info.name ((setNum e num).getField t.info.key)).cacheAt
            (cacheKey t.info.name ((setNum e num).getField t.info.key)))
      else load cfg B s w num t.info ((setNum e num).getField t.info.key)).Meets (Kept s)
        fun c => c.entries.isSome = true := by
    split
    · have htouch := kept_touchCache h t.info.name ((setNum e num).getField t.info.key)
      exact ⟨htouch, htouch.2.cacheAt _⟩
    · exact meets_load hw h num t.info _
  refine hfound.bind fun s' cache hs' hcache => ?_
  split
  next hnone => rw [hnone] at hcache; cases hcache
  next rows _ =>
    have hset := hs'.trans (kept_setCache hs'.2 (cacheKey t.info.name ((setNum e num).getField t.info.key))
      (c := { entries := some (rows ++ [setNum e num]), num, empty := false }) rfl)
    exact ⟨hset.trans (kept_touchMRU hset.2 ..), trivial⟩

theorem kept_sortCaches (h : NoNull s) (tables : List TableCommit) :
    Kept s (sortCaches cfg s tables) := by
  have hkeys : ∀ (info : TableInfo) (keys : List Bytes) (s : State β), NoNull s →
      Kept s (keys.foldl (sortCache cfg info) s) := by
    intro info keys
    induction keys with
    | nil => exact fun s hs => ⟨SameBooks.refl s, hs⟩
    | cons key keys ih =>
      intro s hs
      have hset : Kept s (sortCache cfg info s key) := by
        refine kept_setCache hs _ ?_
        rw [Option.isSome_map]
        exact hs.cacheAt _
      exact hset.trans (ih _ hset.2)
  unfold sortCaches
  induction tables generalizing s with
  | nil => exact ⟨SameBooks.refl s, h⟩
  | cons t tables ih =>
    have hfirst := hkeys t.info t.processedKeys s h
    exact hfirst.trans (ih hfirst.2)

theorem kept_checkAndClear (h : NoNull s) (popped : Nat) : Kept s (checkAndClear cfg s popped) := by
  have hclear : ∀ (mru : List (Bytes × Bytes)) (s : State β), NoNull s → Kept s (clearThrough cfg mru s) := by
    intro mru
    induction mru with
    | nil => exact fun s hs => ⟨SameBooks.refl s, hs⟩
    | cons m mru ih =>
      obtain ⟨table, key⟩ := m
      intro s hs
      have htouch := kept_touchCache hs table key
      have hevict : Kept s ((s.touchCache table key).evict table key mru) := by
        refine ⟨⟨rfl, rfl, rfl, rfl, rfl, rfl⟩, fun k c hfind => ?_⟩
        rw [State.evict, AssocMap.find?_erase] at hfind
        split at hfind
        · cases hfind
        · exact htouch.2 k c hfind
      unfold clearThrough
      split
      · exact ⟨SameBooks.refl s, hs⟩
      · dsimp only
        split
        · exact hevict.trans (ih _ hevict.2)
        · exact htouch
  have hpop : ∀ (queue : List (Bytes × Bytes × Int)) (s : State β), NoNull s →
      Kept s (queue.foldl State.updateMRU s) := by
    intro queue
    induction queue with
    | nil => exact fun s hs => ⟨SameBooks.refl s, hs⟩
    | cons m queue ih =>
      intro s hs
      have hfirst : Kept s (s.updateMRU m) := ⟨⟨rfl, rfl, rfl, rfl, rfl, rfl⟩, hs⟩
      exact hfirst.trans (ih _ hfirst.2)
  have hqueue : Kept s { s with mruQueue := s.mruQueue.drop popped } := ⟨⟨rfl, rfl, rfl, rfl, rfl, rfl⟩, h⟩
  have hpopped := hqueue.trans (hpop (s.mruQueue.take popped) _ hqueue.2)
  unfold checkAndClear
  dsimp only
  split
  · exact hpopped.trans (hclear _ _ hpopped.2)
  · exact hpopped

end calls

end HieraChain.CachedStorage
