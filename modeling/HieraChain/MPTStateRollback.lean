/-
  HieraChain/MPTStateRollback.lean
  ================================
  **What `rollback` restores** (`libmptstate/State.cpp`).

  `State.view` is what the getters show of the accounts.  Undoing a change is a
  function on views (`Change.undo`), and what `rollback` does to the state is this
  on its view (`Inv.rollback`).  The invariant says that a change is undone on an
  account that is in the cache and stays there, since it is dirty, and that an
  account becomes clean again only where it reads as the trie has it.

  A step whose entries undo what it did keeps the past (`Advances`).  All steps do
  but for those that `Undoable` leaves out.
-/
import HieraChain.ChangeLog
import HieraChain.MPTState

namespace HieraChain.MPTState

open HieraChain.BigEndian HieraChain.RLP HieraChain.Eth HieraChain.ChangeLog

/-! ### What the getters show -/

@[ext] structure AccountView where
  nonce : U256
  balance : U256
  code : Bytes
  codeHash : H256
  storage : U256 → U256

def Account.codeOf (db : Backing) (a : Account) : Bytes :=
  if a.m_codeHash = db.EmptyHash then []
  else if a.m_codeCache = [] then db.lookup a.m_codeHash
  else a.m_codeCache

def Account.storageOf (db : Backing) (a : Account) (key : U256) : U256 :=
  (a.m_storageOverlay key).getD (db.storageAt a.m_storageRoot key)

def Account.view (db : Backing) (a : Account) : AccountView where
  nonce := a.m_nonce
  balance := a.m_balance
  code := a.codeOf db
  codeHash := a.m_codeHash
  storage := a.storageOf db

abbrev View := Address → Option AccountView

def Backing.view (db : Backing) : View := fun addr => (db.accountAt addr).map fun record => (Account.loaded record).view db

def State.view (db : Backing) (s : State) : View := fun addr =>
  match s.m_cache addr with
  | some a => some (a.view db)
  | none => db.view addr

/-- The trie holds what the code relies on: the empty trie has no values, and the
    code of an account has its hash, which is that of the empty one for no other. -/
structure Backing.Sound (db : Backing) : Prop where
  empty : ∀ key, db.storageAt db.EmptyTrie key = 0
  code : ∀ addr record, db.accountAt addr = some record → record.2.2.2 ≠ db.EmptyHash →
    db.hash (db.lookup record.2.2.2) = record.2.2.2
  hash_empty : ∀ code, db.hash code = db.EmptyHash → code = []

/-! ### Undoing on views -/

def edit (V : View) (addr : Address) (f : AccountView → AccountView) : View := Function.update V addr ((V addr).map f)

def Change.undo (db : Backing) (change : Change) (V : View) : View :=
  match change with
  | .Balance addr value => edit V addr fun v => { v with balance := v.balance + (0 - value) }
  | .Storage addr key value => edit V addr fun v => { v with storage := Function.update v.storage key value }
  | .StorageRoot addr root => edit V addr fun v => { v with storage := db.storageAt root }
  | .Nonce addr nonce => edit V addr fun v => { v with nonce := nonce }
  | .Create addr => Function.update V addr none
  | .Code addr code => edit V addr fun v => { v with code := code, codeHash := db.hash code }
  | .Touch _ => V

def Change.Starts : Change → Prop
  | .Create _ | .Touch _ => True
  | _ => False

/-! ### The invariant -/

structure AccountOk (db : Backing) (a : Account) : Prop where
  hash_eq : db.hash (a.codeOf db) = a.m_codeHash
  empty : a.m_codeHash = db.EmptyHash → a.m_codeCache = []
  old : a.m_hasNewCode = false → a.m_codeCache = [] ∨ a.m_codeCache = db.lookup a.m_codeHash
  new : a.m_hasNewCode = true → a.m_codeCache = [] → a.m_codeHash = db.EmptyHash

def Backing.codeLength (db : Backing) (hash : H256) : Nat := if hash = db.EmptyHash then 0 else (db.lookup hash).length

structure Inv (db : Backing) (s : State) : Prop where
  accounts : ∀ addr a, s.m_cache addr = some a → AccountOk db a
  clean : ∀ addr a, s.m_cache addr = some a → a.m_isUnchanged = true → db.view addr = some (a.view db)
  absent : ∀ addr ∈ s.m_nonExistingAccountsCache, db.accountAt addr = none
  logged : ∀ change ∈ s.m_changeLog, ∃ a, s.m_cache change.address = some a ∧ a.m_isUnchanged = false
  starts : s.m_changeLog.Pairwise fun change older => change.Starts → older.address ≠ change.address
  created : ∀ addr, Change.Create addr ∈ s.m_changeLog → db.accountAt addr = none
  touched : ∀ newer addr older, s.m_changeLog = newer ++ .Touch addr :: older →
    unwind (Change.undo db) newer (s.view db) addr = db.view addr
  sizes : ∀ p ∈ s.sizes, p.2 = db.codeLength p.1

section proofs

variable {db : Backing} {s s' : State} {addr : Address} {a a' : Account}

/-! ### Views -/

theorem view_of_cached (ha : s.m_cache addr = some a) : s.view db addr = some (a.view db) := by
  rw [State.view, ha]

theorem view_of_uncached (ha : s.m_cache addr = none) : s.view db addr = db.view addr := by
  rw [State.view, ha]

theorem view_put (s : State) (addr : Address) (a : Account) :
    (s.put addr a).view db = Function.update (s.view db) addr (some (a.view db)) := by
  funext other
  by_cases hother : other = addr
  · subst hother
    rw [Function.update_self]
    exact view_of_cached (Function.update_self ..)
  · have hcache : (s.put addr a).m_cache other = s.m_cache other := Function.update_of_ne hother ..
    rw [Function.update_of_ne hother, State.view, State.view, hcache]

theorem view_put_same (hview : s.view db addr = some (a'.view db)) : (s.put addr a').view db = s.view db := by
  rw [view_put, ← hview, Function.update_eq_self]

theorem put_cache_self (s : State) (addr : Address) (a : Account) : (s.put addr a).m_cache addr = some a :=
  Function.update_self ..

theorem put_cache_ne {other : Address} (hne : other ≠ addr) : (s.put addr a).m_cache other = s.m_cache other :=
  Function.update_of_ne hne ..

theorem put_put (s : State) (addr : Address) (a a' : Account) : (s.put addr a).put addr a' = s.put addr a' := by
  rw [State.put, State.put, State.put, Function.update_idem]

/-! ### Accounts -/

theorem codeOf_empty (h : a.m_codeHash = db.EmptyHash) : a.codeOf db = [] := if_pos h

theorem codeOf_unread (h : a.m_codeHash ≠ db.EmptyHash) (hnil : a.m_codeCache = []) :
    a.codeOf db = db.lookup a.m_codeHash := by
  rw [Account.codeOf, if_neg h, if_pos hnil]

theorem codeOf_read (h : a.m_codeHash ≠ db.EmptyHash) (hnil : a.m_codeCache ≠ []) : a.codeOf db = a.m_codeCache := by
  rw [Account.codeOf, if_neg h, if_neg hnil]

theorem accountOk_dead : AccountOk db (Account.dead db) where
  hash_eq := by
    rw [codeOf_empty rfl]
    rfl
  empty _ := rfl
  old _ := Or.inl rfl
  new _ _ := rfl

theorem accountOk_loaded (hdb : db.Sound) {record : U256 × U256 × H256 × H256}
    (hrecord : db.accountAt addr = some record) : AccountOk db (Account.loaded record) where
  hash_eq := by
    by_cases hempty : (Account.loaded record).m_codeHash = db.EmptyHash
    · rw [codeOf_empty hempty, hempty]
      rfl
    · rw [codeOf_unread hempty rfl]
      exact hdb.code addr record hrecord hempty
  empty _ := rfl
  old _ := Or.inl rfl
  new h _ := absurd h Bool.false_ne_true

theorem codeOf_setCode (hdb : db.Sound) (a : Account) (code : Bytes) : (a.setCode db code).codeOf db = code := by
  by_cases hempty : (a.setCode db code).m_codeHash = db.EmptyHash
  · rw [codeOf_empty hempty, hdb.hash_empty code hempty]
  · refine codeOf_read hempty ?_
    rintro (hnil : code = [])
    subst hnil
    exact hempty rfl

theorem accountOk_setCode (hdb : db.Sound) (a : Account) (code : Bytes) : AccountOk db (a.setCode db code) where
  hash_eq := by
    rw [codeOf_setCode hdb]
    rfl
  empty h := hdb.hash_empty code h
  old h := absurd h.symm Bool.false_ne_true
  new _ h := by
    have hnil : code = [] := h
    subst hnil
    rfl

theorem accountOk_noteCode (hok : AccountOk db a) (hne : a.m_codeHash ≠ db.EmptyHash) (hnil : a.m_codeCache = []) :
    AccountOk db (a.noteCode (db.lookup a.m_codeHash))
      ∧ (a.noteCode (db.lookup a.m_codeHash)).codeOf db = a.codeOf db := by
  have hsame : (a.noteCode (db.lookup a.m_codeHash)).codeOf db = a.codeOf db := by
    rw [codeOf_unread hne hnil]
    by_cases hlookup : db.lookup a.m_codeHash = []
    · exact codeOf_unread hne hlookup
    · exact codeOf_read hne hlookup
  refine ⟨⟨?_, ?_, ?_, ?_⟩, hsame⟩
  · rw [hsame]
    exact hok.hash_eq
  · exact fun hempty => absurd hempty hne
  · exact fun _ => Or.inr rfl
  · exact fun hnew _ => absurd (hok.new hnew hnil) hne

theorem length_codeOf (hok : AccountOk db a) :
    (a.m_hasNewCode = true → a.m_codeCache.length = (a.codeOf db).length)
      ∧ (a.m_hasNewCode = false → db.codeLength a.m_codeHash = (a.codeOf db).length) := by
  by_cases hempty : a.m_codeHash = db.EmptyHash
  · rw [codeOf_empty hempty, Backing.codeLength, if_pos hempty, hok.empty hempty]
    exact ⟨fun _ => rfl, fun _ => rfl⟩
  · rw [Backing.codeLength, if_neg hempty]
    by_cases hnil : a.m_codeCache = []
    · rw [codeOf_unread hempty hnil]
      exact ⟨fun hnew => absurd (hok.new hnew hnil) hempty, fun _ => rfl⟩
    · rw [codeOf_read hempty hnil]
      exact ⟨fun _ => rfl, fun hold => by rw [(hok.old hold).resolve_left hnil]⟩

/-! ### Steps of the cache -/

/-- **Writing an account that reads as before.** -/
theorem Inv.put_same (h : Inv db s) (hview : s.view db addr = some (a'.view db)) (hok : AccountOk db a')
    (hclean : a'.m_isUnchanged = true → ∀ a, s.m_cache addr = some a → a.m_isUnchanged = true) :
    Inv db (s.put addr a') where
  accounts other a ha := by
    by_cases hother : other = addr
    · subst hother
      rw [put_cache_self] at ha
      cases ha
      exact hok
    · rw [put_cache_ne hother] at ha
      exact h.accounts other a ha
  clean other a ha hunchanged := by
    by_cases hother : other = addr
    · subst hother
      rw [put_cache_self] at ha
      cases ha
      cases hold : s.m_cache other with
      | none => rw [← hview, view_of_uncached hold]
      | some b => rw [← hview, h.clean other b hold (hclean hunchanged b hold), view_of_cached hold]
    · rw [put_cache_ne hother] at ha
      exact h.clean other a ha hunchanged
  absent := h.absent
  logged change hchange := by
    obtain ⟨b, hb, hdirty⟩ := h.logged change hchange
    by_cases hother : change.address = addr
    · subst hother
      refine ⟨a', put_cache_self .., ?_⟩
      cases hunchanged : a'.m_isUnchanged with
      | false => rfl
      | true => exact absurd ((hclean hunchanged b hb).symm.trans hdirty) (by decide)
    · exact ⟨b, (put_cache_ne hother).trans hb, hdirty⟩
  starts := h.starts
  created := h.created
  touched newer other older hlog := by
    rw [view_put_same hview]
    exact h.touched newer other older hlog
  sizes := h.sizes

/-! A dirty account is written. -/

theorem Inv.accounts_put (h : Inv db s) (hok : AccountOk db a') :
    ∀ other b, (s.put addr a').m_cache other = some b → AccountOk db b := by
  intro other b hb
  by_cases hother : other = addr
  · subst hother
    rw [put_cache_self] at hb
    cases hb
    exact hok
  · rw [put_cache_ne hother] at hb
    exact h.accounts other b hb

theorem Inv.clean_put (h : Inv db s) (hdirty : a'.m_isUnchanged = false) :
    ∀ other b, (s.put addr a').m_cache other = some b → b.m_isUnchanged = true →
      db.view other = some (b.view db) := by
  intro other b hb hunchanged
  by_cases hother : other = addr
  · subst hother
    rw [put_cache_self] at hb
    cases hb
    rw [hdirty] at hunchanged
    cases hunchanged
  · rw [put_cache_ne hother] at hb
    exact h.clean other b hb hunchanged

theorem Inv.logged_put (h : Inv db s) (hdirty : a'.m_isUnchanged = false) {change : Change}
    (hchange : change.address = addr ∨ change ∈ s.m_changeLog) :
    ∃ b, (s.put addr a').m_cache change.address = some b ∧ b.m_isUnchanged = false := by
  by_cases hother : change.address = addr
  · rw [hother]
    exact ⟨a', put_cache_self .., hdirty⟩
  · obtain ⟨b, hb, hb'⟩ := h.logged change (hchange.resolve_left hother)
    exact ⟨b, (put_cache_ne hother).trans hb, hb'⟩

theorem Inv.touched_push (h : Inv db s) {change : Change} {V : View} (hundo : change.undo db V = s.view db)
    {newer older : List Change} {other : Address}
    (hlog : change :: s.m_changeLog = newer ++ .Touch other :: older) (hne : newer ≠ []) :
    unwind (Change.undo db) newer V other = db.view other := by
  cases newer with
  | nil => exact absurd rfl hne
  | cons c newer =>
    obtain ⟨rfl, hrest⟩ := List.cons.inj hlog
    rw [unwind_cons, hundo]
    exact h.touched newer other older hrest

/-- **Writing an account and noting how to undo it.** -/
theorem Inv.push (h : Inv db s) {change : Change} (hok : AccountOk db a') (hdirty : a'.m_isUnchanged = false)
    (haddress : change.address = addr) (hstarts : ¬ change.Starts)
    (hundo : change.undo db (Function.update (s.view db) addr (some (a'.view db))) = s.view db) :
    Inv db ((s.put addr a').note change) where
  accounts := h.accounts_put hok
  clean := h.clean_put hdirty
  absent := h.absent
  logged c hc := by
    rcases List.mem_cons.mp hc with rfl | hc
    · exact h.logged_put hdirty (Or.inl haddress)
    · exact h.logged_put hdirty (Or.inr hc)
  starts := List.pairwise_cons.mpr ⟨fun _ _ hs => absurd hs hstarts, h.starts⟩
  created other hother := by
    rcases List.mem_cons.mp hother with rfl | hmem
    · exact absurd trivial hstarts
    · exact h.created other hmem
  touched newer other older hlog := by
    refine h.touched_push ?_ hlog ?_
    · rw [show ((s.put addr a').note change).view db = _ from view_put s addr a']
      exact hundo
    · rintro rfl
      cases hlog
      exact hstarts trivial
  sizes := h.sizes

/-- **The first touch of a clean account.** -/
theorem Inv.touch (h : Inv db s) (ha : s.m_cache addr = some a) (hunchanged : a.m_isUnchanged = true) :
    Inv db ((s.put addr a.changed).note (.Touch addr)) := by
  have hreads : s.view db addr = some (a.changed.view db) :=
    show s.view db addr = some (a.view db) from view_of_cached ha
  have hview : ((s.put addr a.changed).note (.Touch addr)).view db = s.view db := view_put_same hreads
  have hok := h.accounts addr a ha
  refine
    { accounts := h.accounts_put ⟨hok.hash_eq, hok.empty, hok.old, hok.new⟩
      clean := h.clean_put rfl
      absent := h.absent
      logged := ?_
      starts := List.pairwise_cons.mpr ⟨?_, h.starts⟩
      created := ?_
      touched := ?_
      sizes := h.sizes }
  · intro c hc
    rcases List.mem_cons.mp hc with rfl | hc
    · exact h.logged_put rfl (Or.inl rfl)
    · exact h.logged_put rfl (Or.inr hc)
  · -- a clean account has no entries
    rintro older holder - haddress
    obtain ⟨b, hb, hdirty⟩ := h.logged older holder
    rw [haddress] at hb
    have hsame := hb.symm.trans ha
    cases hsame
    rw [hunchanged] at hdirty
    cases hdirty
  · intro other hother
    rcases List.mem_cons.mp hother with hother | hmem
    · cases hother
    · exact h.created other hmem
  · intro newer other older hlog
    by_cases hnil : newer = []
    · subst hnil
      cases hlog
      rw [unwind_nil, hview, h.clean addr a ha hunchanged, hreads]
      rfl
    · rw [hview]
      exact h.touched_push rfl hlog hnil

/-- **A new account.** -/
theorem Inv.create (h : Inv db s) (hnone : s.m_cache addr = none) (habsent : db.accountAt addr = none)
    (hok : AccountOk db a') (hdirty : a'.m_isUnchanged = false) :
    Inv db (s.createAccount addr a')
      ∧ (Change.Create addr).undo db ((s.createAccount addr a').view db) = s.view db := by
  have hview : (s.createAccount addr a').view db = Function.update (s.view db) addr (some (a'.view db)) :=
    view_put s addr a'
  have habsentView : s.view db addr = none := by
    rw [view_of_uncached hnone, Backing.view, habsent]
    rfl
  have hundo : (Change.Create addr).undo db ((s.createAccount addr a').view db) = s.view db := by
    rw [hview, Change.undo, Function.update_idem, ← habsentView, Function.update_eq_self]
  have hunlogged : ∀ c ∈ s.m_changeLog, c.address ≠ addr := by
    rintro c hc rfl
    obtain ⟨b, hb, -⟩ := h.logged c hc
    rw [hnone] at hb
    cases hb
  refine ⟨⟨h.accounts_put hok, h.clean_put hdirty, ?_, ?_, ?_, ?_, ?_, h.sizes⟩, hundo⟩
  · intro other hother
    exact h.absent other (List.mem_filter.mp hother).1
  · intro c hc
    rcases List.mem_cons.mp hc with rfl | hc
    · exact h.logged_put hdirty (Or.inl rfl)
    · exact h.logged_put hdirty (Or.inr hc)
  · exact List.pairwise_cons.mpr ⟨fun older holder _ => hunlogged older holder, h.starts⟩
  · intro other hother
    rcases List.mem_cons.mp hother with hother | hmem
    · cases hother
      exact habsent
    · exact h.created other hmem
  · intro newer other older hlog
    refine h.touched_push hundo hlog ?_
    rintro rfl
    cases hlog

/-- **Undoing an entry on its account.** -/
theorem Inv.pop (h : Inv db s) {change : Change} {log : List Change} (hlog : s.m_changeLog = change :: log)
    (hok : AccountOk db a') (hdirty : a'.m_isUnchanged = false)
    (hundo : Function.update (s.view db) addr (some (a'.view db)) = change.undo db (s.view db)) :
    Inv db { s.put addr a' with m_changeLog := log }
      ∧ State.view db { s.put addr a' with m_changeLog := log } = change.undo db (s.view db) := by
  have hview : State.view db { s.put addr a' with m_changeLog := log } = change.undo db (s.view db) :=
    (view_put s addr a').trans hundo
  have hmem : ∀ c ∈ log, c ∈ s.m_changeLog := fun c hc => hlog ▸ List.mem_cons_of_mem _ hc
  refine ⟨⟨h.accounts_put hok, h.clean_put hdirty, h.absent, ?_, ?_, ?_, ?_, h.sizes⟩, hview⟩
  · exact fun c hc => h.logged_put hdirty (Or.inr (hmem c hc))
  · have hstarts := h.starts
    rw [hlog] at hstarts
    exact (List.pairwise_cons.mp hstarts).2
  · exact fun other hother => h.created other (hmem _ hother)
  · intro newer other older hrest
    rw [hview]
    refine h.touched (change :: newer) other older ?_
    rw [hlog]
    exact congrArg (change :: ·) hrest

/-! ### Undoing -/

theorem storageOf_setStorage (a : Account) (key value : U256) :
    (a.setStorage key value).storageOf db = Function.update (a.storageOf db) key value := by
  funext k
  by_cases hk : k = key
  · subst hk
    rw [Function.update_self, Account.storageOf]
    show (Function.update a.m_storageOverlay k (some value) k).getD _ = value
    rw [Function.update_self, Option.getD_some]
  · rw [Function.update_of_ne hk, Account.storageOf, Account.storageOf]
    show (Function.update a.m_storageOverlay key (some value) k).getD _ = _
    rw [Function.update_of_ne hk]
    rfl

theorem put_self (ha : s.m_cache addr = some a) : s.put addr a = s := by
  rw [State.put, ← ha, Function.update_eq_self]

theorem edit_of_cached (ha : s.m_cache addr = some a) (f : AccountView → AccountView) :
    edit (s.view db) addr f = Function.update (s.view db) addr (some (f (a.view db))) := by
  rw [edit, view_of_cached ha, Option.map_some]

theorem Inv.starts_cons (h : Inv db s) {change : Change} {log : List Change} (hlog : s.m_changeLog = change :: log) :
    (change.Starts → ∀ c ∈ log, c.address ≠ change.address)
      ∧ log.Pairwise fun change older => change.Starts → older.address ≠ change.address := by
  have hstarts := h.starts
  rw [hlog] at hstarts
  obtain ⟨hfirst, hrest⟩ := List.pairwise_cons.mp hstarts
  exact ⟨fun hc c hmem => hfirst c hmem hc, hrest⟩

theorem Inv.pop_create (h : Inv db s) {log : List Change} (hlog : s.m_changeLog = .Create addr :: log) :
    Inv db { s with m_cache := Function.update s.m_cache addr none, m_changeLog := log }
      ∧ State.view db { s with m_cache := Function.update s.m_cache addr none, m_changeLog := log }
        = (Change.Create addr).undo db (s.view db) := by
  obtain ⟨hfirst, hrest⟩ := h.starts_cons hlog
  have hne : ∀ c ∈ log, c.address ≠ addr := hfirst trivial
  have habsent : db.accountAt addr = none := h.created addr (hlog ▸ List.mem_cons_self)
  have hmem : ∀ c ∈ log, c ∈ s.m_changeLog := fun c hc => hlog ▸ List.mem_cons_of_mem _ hc
  have hcache : ∀ other, other ≠ addr → Function.update s.m_cache addr none other = s.m_cache other :=
    fun other hother => Function.update_of_ne hother ..
  have hgone : Function.update s.m_cache addr none addr = none := Function.update_self ..
  have hview : State.view db { s with m_cache := Function.update s.m_cache addr none, m_changeLog := log }
      = (Change.Create addr).undo db (s.view db) := by
    funext other
    rw [Change.undo]
    by_cases hother : other = addr
    · subst hother
      rw [Function.update_self, view_of_uncached hgone, Backing.view, habsent]
      rfl
    · rw [Function.update_of_ne hother, State.view, State.view]
      dsimp only
      rw [hcache other hother]
  have hkept : ∀ {other b}, Function.update s.m_cache addr none other = some b → s.m_cache other = some b := by
    intro other b hb
    by_cases hother : other = addr
    · subst hother
      rw [hgone] at hb
      cases hb
    · rw [← hcache other hother, hb]
  refine ⟨⟨fun other b hb => h.accounts other b (hkept hb), fun other b hb => h.clean other b (hkept hb), h.absent, ?_,
    hrest, fun other hother => h.created other (hmem _ hother), ?_, h.sizes⟩, hview⟩
  · intro c hc
    obtain ⟨b, hb, hb'⟩ := h.logged c (hmem c hc)
    exact ⟨b, (hcache _ (hne c hc)).trans hb, hb'⟩
  · intro newer other older holder
    rw [hview]
    refine h.touched (.Create addr :: newer) other older ?_
    rw [hlog]
    exact congrArg (Change.Create addr :: ·) holder

theorem Inv.pop_touch (h : Inv db s) {log : List Change} (hlog : s.m_changeLog = .Touch addr :: log)
    (ha : s.m_cache addr = some a) (entries : List Address) :
    Inv db { s.put addr a.untouch with m_unchangedCacheEntries := entries, m_changeLog := log }
      ∧ State.view db { s.put addr a.untouch with m_unchangedCacheEntries := entries, m_changeLog := log }
        = s.view db := by
  obtain ⟨hfirst, hrest⟩ := h.starts_cons hlog
  have hne : ∀ c ∈ log, c.address ≠ addr := hfirst trivial
  have hmem : ∀ c ∈ log, c ∈ s.m_changeLog := fun c hc => hlog ▸ List.mem_cons_of_mem _ hc
  have hok := h.accounts addr a ha
  have hreads : s.view db addr = some (a.untouch.view db) :=
    show s.view db addr = some (a.view db) from view_of_cached ha
  have hview : State.view db { s.put addr a.untouch with m_unchangedCacheEntries := entries, m_changeLog := log }
      = s.view db := view_put_same hreads
  refine ⟨⟨h.accounts_put ⟨hok.hash_eq, hok.empty, hok.old, hok.new⟩, ?_, h.absent, ?_, hrest,
    fun other hother => h.created other (hmem _ hother), ?_, h.sizes⟩, hview⟩
  · intro other b hb hunchanged
    by_cases hother : other = addr
    · -- it reads as when it was touched
      subst hother
      have hsame := (put_cache_self s other a.untouch).symm.trans hb
      cases hsame
      rw [← hreads]
      exact (h.touched [] other log hlog).symm
    · exact h.clean other b ((put_cache_ne hother).symm.trans hb) hunchanged
  · intro c hc
    obtain ⟨b, hb, hb'⟩ := h.logged c (hmem c hc)
    exact ⟨b, (put_cache_ne (hne c hc)).trans hb, hb'⟩
  · intro newer other older holder
    rw [hview]
    refine h.touched (.Touch addr :: newer) other older ?_
    rw [hlog]
    exact congrArg (Change.Touch addr :: ·) holder

/-- **One round of `rollback` undoes the newest entry.** -/
theorem Inv.undo (hdb : db.Sound) (h : Inv db s) {change : Change} {log : List Change}
    (hlog : s.m_changeLog = change :: log) :
    Inv db { s.undoChange db change with m_changeLog := log }
      ∧ State.view db { s.undoChange db change with m_changeLog := log } = change.undo db (s.view db) := by
  obtain ⟨a, ha, hdirty⟩ := h.logged change (hlog ▸ List.mem_cons_self)
  have hok := h.accounts _ a ha
  have hentry : s.entry db change.address = a := by
    rw [State.entry, ha, Option.getD_some]
  unfold State.undoChange
  dsimp only
  rw [hentry, put_self ha]
  cases change with
  | Balance address value =>
    refine h.pop hlog ⟨hok.hash_eq, hok.empty, hok.old, hok.new⟩ rfl ?_
    rw [Change.undo, edit_of_cached (show s.m_cache address = some a from ha)]
    rfl
  | Storage address key value =>
    refine h.pop hlog ⟨hok.hash_eq, hok.empty, hok.old, hok.new⟩ rfl ?_
    rw [Change.undo, edit_of_cached (show s.m_cache address = some a from ha), Account.view, storageOf_setStorage]
    rfl
  | StorageRoot address value =>
    refine h.pop hlog ⟨hok.hash_eq, hok.empty, hok.old, hok.new⟩ rfl ?_
    rw [Change.undo, edit_of_cached (show s.m_cache address = some a from ha)]
    rfl
  | Nonce address value =>
    refine h.pop hlog ⟨hok.hash_eq, hok.empty, hok.old, hok.new⟩ rfl ?_
    rw [Change.undo, edit_of_cached (show s.m_cache address = some a from ha)]
    rfl
  | Code address oldCode =>
    refine h.pop hlog (accountOk_setCode hdb a oldCode) hdirty ?_
    rw [Change.undo, edit_of_cached (show s.m_cache address = some a from ha), Account.view, codeOf_setCode hdb]
    rfl
  | Create address => exact h.pop_create hlog
  | Touch address => exact h.pop_touch hlog ha _

/-- **`rollback` is undoing on views.** -/
theorem Inv.rollback (hdb : db.Sound) (h : Inv db s) {savepoint : Nat} (hle : savepoint ≤ s.savepoint) :
    Inv db (s.rollback db savepoint)
      ∧ (s.rollback db savepoint).view db = past (Change.undo db) savepoint s.m_changeLog (s.view db)
      ∧ (s.rollback db savepoint).m_changeLog = s.m_changeLog.drop (s.m_changeLog.length - savepoint) := by
  have hloop : ∀ (log : List Change) (s : State), Inv db s → s.m_changeLog = log → savepoint ≤ log.length →
      Inv db (State.rollbackLoop db savepoint log s)
        ∧ (State.rollbackLoop db savepoint log s).view db = past (Change.undo db) savepoint log (s.view db)
        ∧ (State.rollbackLoop db savepoint log s).m_changeLog = log.drop (log.length - savepoint) := by
    intro log
    induction log with
    | nil =>
      rintro s h hlog -
      rw [State.rollbackLoop, past, List.take_nil, List.drop_nil]
      exact ⟨h, rfl, hlog⟩
    | cons change log ih =>
      intro s h hlog hle
      rw [State.rollbackLoop]
      split
      next hend =>
        rw [hend, ← List.length_cons, past_self, Nat.sub_self]
        exact ⟨h, rfl, hlog⟩
      next hmore =>
        rw [List.length_cons] at hle
        obtain ⟨hinv, hview⟩ := h.undo hdb hlog
        obtain ⟨hinv', hview', hlog'⟩ := ih _ hinv rfl (by omega)
        refine ⟨hinv', ?_, ?_⟩
        · rw [hview', hview, past_cons (by omega)]
        · rw [hlog', List.length_cons, Nat.succ_sub (by omega), List.drop_succ_cons]
  exact hloop s.m_changeLog s h rfl hle

/-! ### Reads -/

structure Reads (db : Backing) (s s' : State) : Prop where
  inv : Inv db s'
  view_eq : s'.view db = s.view db
  log_eq : s'.m_changeLog = s.m_changeLog
  nonce_eq : s'.m_accountStartNonce = s.m_accountStartNonce

theorem Reads.refl (h : Inv db s) : Reads db s s := ⟨h, rfl, rfl, rfl⟩

theorem Reads.trans {s'' : State} (h : Reads db s s') (h' : Reads db s' s'') : Reads db s s'' :=
  ⟨h'.inv, h'.view_eq.trans h.view_eq, h'.log_eq.trans h.log_eq, h'.nonce_eq.trans h.nonce_eq⟩

theorem Inv.of_lists (h : Inv db s) (entries : List Address) (random : Nat → Nat) :
    Inv db { s with m_unchangedCacheEntries := entries, random := random } :=
  ⟨h.accounts, h.clean, h.absent, h.logged, h.starts, h.created, h.touched, h.sizes⟩

theorem reads_put (h : Inv db s) (hview : s.view db addr = some (a'.view db)) (hok : AccountOk db a')
    (hclean : a'.m_isUnchanged = true → ∀ a, s.m_cache addr = some a → a.m_isUnchanged = true) :
    Reads db s (s.put addr a') := ⟨h.put_same hview hok hclean, view_put_same hview, rfl, rfl⟩

theorem reads_evict (h : Inv db s) (ha : s.m_cache addr = some a) (hunchanged : a.m_isUnchanged = true) :
    Reads db s { s with m_cache := Function.update s.m_cache addr none } := by
  have hgone : Function.update s.m_cache addr none addr = none := Function.update_self ..
  have hcache : ∀ other, other ≠ addr → Function.update s.m_cache addr none other = s.m_cache other :=
    fun other hother => Function.update_of_ne hother ..
  have hkept : ∀ {other b}, Function.update s.m_cache addr none other = some b → s.m_cache other = some b := by
    intro other b hb
    by_cases hother : other = addr
    · subst hother
      rw [hgone] at hb
      cases hb
    · rw [← hcache other hother, hb]
  have hview : State.view db { s with m_cache := Function.update s.m_cache addr none } = s.view db := by
    funext other
    by_cases hother : other = addr
    · subst hother
      rw [view_of_uncached hgone, view_of_cached ha, h.clean other a ha hunchanged]
    · rw [State.view, State.view]
      dsimp only
      rw [hcache other hother]
  refine ⟨⟨fun other b hb => h.accounts other b (hkept hb), fun other b hb => h.clean other b (hkept hb), h.absent, ?_,
    h.starts, h.created, ?_, h.sizes⟩, hview, rfl, rfl⟩
  · intro c hc
    obtain ⟨b, hb, hdirty⟩ := h.logged c hc
    refine ⟨b, (hcache _ ?_).trans hb, hdirty⟩
    intro haddress
    rw [haddress] at hb
    have hsame := hb.symm.trans ha
    cases hsame
    rw [hunchanged] at hdirty
    cases hdirty
  · intro newer other older hlog
    rw [hview]
    exact h.touched newer other older hlog

theorem clearLoop_spec (fuel : Nat) (h : Inv db s) :
    Reads db s (State.clearLoop fuel s)
      ∧ ∀ other, s.m_cache other = none → (State.clearLoop fuel s).m_cache other = none := by
  induction fuel generalizing s with
  | zero => exact ⟨Reads.refl h, fun _ hnone => hnone⟩
  | succ fuel ih =>
    rw [State.clearLoop]
    split
    · exact ⟨Reads.refl h, fun _ hnone => hnone⟩
    · dsimp only [State.draw]
      split
      next addr last _ _ =>
        have hs := h.of_lists ((s.m_unchangedCacheEntries.set (s.random 0 % s.m_unchangedCacheEntries.length) last).dropLast)
          fun k => s.random (k + 1)
        have hreads : Reads db s _ := ⟨hs, rfl, rfl, rfl⟩
        split
        next =>
          obtain ⟨hreads', hnone⟩ := ih hs
          exact ⟨hreads.trans hreads', hnone⟩
        next a ha =>
          split
          next =>
            obtain ⟨hreads', hnone⟩ := ih hs
            exact ⟨hreads.trans hreads', hnone⟩
          next hdirty =>
            have hunchanged : a.m_isUnchanged = true := by
              rw [Account.isDirty] at hdirty
              simpa using hdirty
            have hevict := reads_evict hs ha hunchanged
            obtain ⟨hreads', hnone⟩ := ih hevict.inv
            refine ⟨hreads.trans (hevict.trans hreads'), fun other hother => hnone other ?_⟩
            by_cases heq : other = addr
            · subst heq
              exact Function.update_self ..
            · exact (Function.update_of_ne heq ..).trans hother
      next => exact ⟨⟨h.of_lists _ _, rfl, rfl, rfl⟩, fun _ hnone => hnone⟩

/-- **`account()`** shows the account of the view. -/
theorem account_spec (hdb : db.Sound) (h : Inv db s) (addr : Address) :
    Reads db s (s.account db addr).2
      ∧ (s.account db addr).2.m_cache addr = (s.account db addr).1
      ∧ ((s.account db addr).1 = none → db.accountAt addr = none) := by
  rw [State.account]
  split
  next a ha => exact ⟨Reads.refl h, ha, nofun⟩
  next hnone =>
    split
    next hmem => exact ⟨Reads.refl h, hnone, fun _ => h.absent addr hmem⟩
    next hnew =>
      split
      next habsent =>
        refine ⟨⟨⟨h.accounts, h.clean, ?_, h.logged, h.starts, h.created, h.touched, h.sizes⟩, rfl, rfl, rfl⟩, hnone,
          fun _ => habsent⟩
        intro other hother
        rcases List.mem_cons.mp hother with rfl | hother
        · exact habsent
        · exact h.absent other hother
      next record hrecord =>
        dsimp only
        obtain ⟨hreads, hkept⟩ := clearLoop_spec s.m_unchangedCacheEntries.length h
        have hgone : s.clearCacheIfTooLarge.m_cache addr = none := hkept addr hnone
        have hview : s.clearCacheIfTooLarge.view db addr = some ((Account.loaded record).view db) := by
          rw [view_of_uncached hgone, Backing.view, hrecord]
          rfl
        have hput := reads_put hreads.inv hview (accountOk_loaded hdb hrecord) (by
          intro _ a ha
          have hsame := hgone.symm.trans ha
          cases hsame)
        exact ⟨hreads.trans ⟨hput.inv.of_lists _ _, hput.view_eq, hput.log_eq, hput.nonce_eq⟩, put_cache_self ..,
          nofun⟩

theorem account_view (hdb : db.Sound) (h : Inv db s) (addr : Address) :
    (s.account db addr).1.map (Account.view db) = s.view db addr := by
  obtain ⟨hreads, hcache, habsent⟩ := account_spec hdb h addr
  rw [← hreads.view_eq]
  cases ho : (s.account db addr).1 with
  | none =>
    rw [ho] at hcache
    rw [view_of_uncached hcache, Backing.view, habsent ho]
    rfl
  | some a =>
    rw [ho] at hcache
    rw [view_of_cached hcache]
    rfl

theorem reads_store (h : Inv db s) {hash : H256} {size : Nat} (hsize : size = db.codeLength hash) :
    Reads db s (s.store hash size) := by
  have hkept : ∀ (i : Nat) (random : Nat → Nat),
      Inv db { s with sizes := (hash, size) :: (s.sizes.eraseIdx i).filter (·.1 ≠ hash), random := random } := by
    intro i random
    refine ⟨h.accounts, h.clean, h.absent, h.logged, h.starts, h.created, h.touched, ?_⟩
    intro p hp
    rcases List.mem_cons.mp hp with rfl | hp
    · exact hsize
    · exact h.sizes p (List.mem_of_mem_eraseIdx (List.mem_filter.mp hp).1)
  rw [State.store]
  split
  · exact ⟨hkept _ _, rfl, rfl, rfl⟩
  · have hall := hkept s.sizes.length s.random
    rw [List.eraseIdx_of_length_le (le_refl _)] at hall
    exact ⟨hall, rfl, rfl, rfl⟩

theorem reads_code (hdb : db.Sound) (h : Inv db s) (addr : Address) :
    Reads db s (s.code db addr).2
      ∧ (s.code db addr).1 = ((s.view db addr).map AccountView.code).getD []
      ∧ ∀ a, (s.account db addr).1 = some a →
        ∃ a', (s.code db addr).2.m_cache addr = some a' ∧ a'.m_isUnchanged = a.m_isUnchanged := by
  obtain ⟨hreads, hcache, -⟩ := account_spec hdb h addr
  have hview := account_view hdb h addr
  rw [State.code]
  split
  next s' heq =>
    rw [heq] at hreads hview
    rw [← hview]
    refine ⟨hreads, rfl, ?_⟩
    rw [heq]
    exact nofun
  next a s' heq =>
    rw [heq] at hreads hcache hview
    have hcache' : s'.m_cache addr = some a := hcache
    have hok := hreads.inv.accounts addr a hcache'
    rw [← hview, heq]
    show _ ∧ _ = a.codeOf db ∧ _
    split
    next hempty =>
      refine ⟨hreads, (codeOf_empty hempty).symm, ?_⟩
      rintro b hb
      cases hb
      exact ⟨a, hcache', rfl⟩
    next hne =>
      split
      next hnil =>
        obtain ⟨hok', hsame⟩ := accountOk_noteCode hok hne hnil
        have hload : (a.noteCode (db.lookup a.m_codeHash)).view db = a.view db := by
          rw [Account.view, hsame]
          rfl
        have hput := reads_put hreads.inv ((view_of_cached hcache').trans (congrArg some hload.symm)) hok' (by
          intro hunchanged b hb
          have hsame := hcache'.symm.trans hb
          cases hsame
          exact hunchanged)
        have hstore := reads_store (s := s'.put addr (a.noteCode (db.lookup a.m_codeHash))) hput.inv
          (show (db.lookup a.m_codeHash).length = db.codeLength a.m_codeHash by rw [Backing.codeLength, if_neg hne])
        refine ⟨hreads.trans (hput.trans hstore), (codeOf_unread hne hnil).symm, ?_⟩
        rintro b hb
        cases hb
        refine ⟨a.noteCode (db.lookup a.m_codeHash), ?_, rfl⟩
        have hcaches : ∀ (t : State) (hash : H256) (size : Nat), (t.store hash size).m_cache = t.m_cache := by
          intro t hash size
          rw [State.store]
          split <;> rfl
        dsimp only
        rw [hcaches]
        exact put_cache_self ..
      next hnil =>
        refine ⟨hreads, (codeOf_read hne hnil).symm, ?_⟩
        rintro b hb
        cases hb
        exact ⟨a, hcache', rfl⟩

theorem reads_storage (hdb : db.Sound) (h : Inv db s) (addr : Address) (key : U256) :
    Reads db s (s.storage db addr key).2
      ∧ (s.storage db addr key).1 = ((s.view db addr).map fun v => v.storage key).getD 0
      ∧ ∀ a, (s.account db addr).1 = some a → ∃ a', (s.storage db addr key).2.m_cache addr = some a' := by
  obtain ⟨hreads, hcache, -⟩ := account_spec hdb h addr
  have hview := account_view hdb h addr
  rw [State.storage]
  split
  next a s' heq =>
    rw [heq] at hreads hcache hview
    have hcache' : s'.m_cache addr = some a := hcache
    have hok := hreads.inv.accounts addr a hcache'
    rw [← hview, heq]
    show _ ∧ _ = a.storageOf db key ∧ _
    split
    next v hv =>
      refine ⟨hreads, ?_, ?_⟩
      · rw [Account.storageOf, hv, Option.getD_some]
      · rintro b -
        exact ⟨a, hcache'⟩
    next hnone =>
      have hvalue : a.storageOf db key = db.storageAt a.m_storageRoot key := by
        rw [Account.storageOf, hnone, Option.getD_none]
      have hread : (a.setStorage key (db.storageAt a.m_storageRoot key)).view db = a.view db := by
        rw [Account.view, storageOf_setStorage, ← hvalue, Function.update_eq_self]
        rfl
      have hput := reads_put hreads.inv ((view_of_cached hcache').trans (congrArg some hread.symm))
        ⟨hok.hash_eq, hok.empty, hok.old, hok.new⟩ fun hunchanged =>
          absurd (show false = true from hunchanged) Bool.false_ne_true
      refine ⟨hreads.trans hput, hvalue.symm, ?_⟩
      rintro b -
      exact ⟨_, put_cache_self ..⟩
  next s' heq =>
    rw [heq] at hreads hview
    rw [← hview]
    refine ⟨hreads, rfl, ?_⟩
    rw [heq]
    exact nofun

theorem reads_codeSize (hdb : db.Sound) (h : Inv db s) (addr : Address) :
    Reads db s (s.codeSize db addr).2
      ∧ (s.codeSize db addr).1 = ((s.view db addr).map fun v => v.code.length).getD 0 := by
  obtain ⟨hreads, hcache, -⟩ := account_spec hdb h addr
  have hview := account_view hdb h addr
  rw [State.codeSize]
  split
  next a s' heq =>
    rw [heq] at hreads hcache hview
    have hcache' : s'.m_cache addr = some a := hcache
    obtain ⟨hnew, hold⟩ := length_codeOf (hreads.inv.accounts addr a hcache')
    rw [← hview]
    show _ ∧ _ = (a.codeOf db).length
    split
    next hnewCode => exact ⟨hreads, hnew hnewCode⟩
    next hoven =>
      have hlength := hold (Bool.eq_false_iff.mpr hoven)
      split
      next size hsize =>
        refine ⟨hreads, ?_⟩
        obtain ⟨l₁, l₂, hsplit, -⟩ := List.lookup_eq_some_iff.mp hsize
        have hmem : (a.m_codeHash, size) ∈ s'.sizes := by
          rw [hsplit]
          exact List.mem_append_right _ List.mem_cons_self
        rw [← hlength]
        exact hreads.inv.sizes _ hmem
      next =>
        obtain ⟨hcode, hvalue, -⟩ := reads_code hdb hreads.inv addr
        have hcodeOf : (s'.code db addr).1 = a.codeOf db := by
          rw [hvalue, view_of_cached hcache']
          rfl
        dsimp only
        refine ⟨hreads.trans (hcode.trans (reads_store hcode.inv ?_)), ?_⟩
        · rw [hcodeOf, hlength]
        · rw [hcodeOf]
  next s' heq =>
    rw [heq] at hreads hview
    rw [← hview]
    exact ⟨hreads, rfl⟩

/-! ### Steps that keep the past -/

structure Advances (db : Backing) (s s' : State) : Prop where
  inv : Inv db s'
  grows : ∃ added, s'.m_changeLog = added ++ s.m_changeLog ∧ unwind (Change.undo db) added (s'.view db) = s.view db
  nonce_eq : s'.m_accountStartNonce = s.m_accountStartNonce

theorem Reads.advances (h : Reads db s s') : Advances db s s' := ⟨h.inv, ⟨[], h.log_eq, h.view_eq⟩, h.nonce_eq⟩

theorem Advances.trans {s'' : State} (h : Advances db s s') (h' : Advances db s' s'') : Advances db s s'' := by
  obtain ⟨added, hlog, hundo⟩ := h.grows
  obtain ⟨added', hlog', hundo'⟩ := h'.grows
  refine ⟨h'.inv, ⟨added' ++ added, ?_, ?_⟩, h'.nonce_eq.trans h.nonce_eq⟩
  · rw [hlog', hlog, List.append_assoc]
  · rw [unwind_append, hundo', hundo]

theorem undo_edit (ha : s.m_cache addr = some a) {f : AccountView → AccountView} (hf : f (a'.view db) = a.view db) :
    edit (Function.update (s.view db) addr (some (a'.view db))) addr f = s.view db := by
  rw [edit, Function.update_self, Option.map_some, hf, Function.update_idem, ← view_of_cached ha,
    Function.update_eq_self]

theorem advances_push (h : Inv db s) {change : Change} (hok : AccountOk db a') (hdirty : a'.m_isUnchanged = false)
    (haddress : change.address = addr) (hstarts : ¬ change.Starts)
    (hundo : change.undo db (Function.update (s.view db) addr (some (a'.view db))) = s.view db) :
    Advances db s ((s.put addr a').note change) := by
  refine ⟨h.push hok hdirty haddress hstarts hundo, ⟨[change], rfl, ?_⟩, rfl⟩
  rw [unwind_cons, unwind_nil, show ((s.put addr a').note change).view db = _ from view_put s addr a']
  exact hundo

theorem advances_create (h : Inv db s) (hnone : s.m_cache addr = none) (habsent : db.accountAt addr = none)
    (nonce balance : U256) : Advances db s (s.createAccount addr (Account.alive db nonce balance)) := by
  have hok : AccountOk db (Account.alive db nonce balance) :=
    ⟨accountOk_dead.hash_eq, accountOk_dead.empty, accountOk_dead.old, accountOk_dead.new⟩
  obtain ⟨hinv, hundo⟩ := h.create hnone habsent hok rfl
  exact ⟨hinv, ⟨[.Create addr], rfl, hundo⟩, rfl⟩

theorem advances_incNonce (hdb : db.Sound) (h : Inv db s) (addr : Address) :
    Advances db s (s.incNonce db addr).2 := by
  obtain ⟨hreads, hcache, habsent⟩ := account_spec hdb h addr
  rw [State.incNonce]
  split
  next a s' heq =>
    rw [heq] at hreads hcache
    have hcache' : s'.m_cache addr = some a := hcache
    have hok := hreads.inv.accounts addr a hcache'
    exact hreads.advances.trans (advances_push hreads.inv ⟨hok.hash_eq, hok.empty, hok.old, hok.new⟩ rfl rfl id
      (undo_edit hcache' rfl))
  next s' heq =>
    rw [heq] at hreads hcache habsent
    split
    next => exact hreads.advances
    next nonce _ => exact hreads.advances.trans (advances_create hreads.inv hcache (habsent rfl) _ _)

theorem advances_setNonce (hdb : db.Sound) (h : Inv db s) (addr : Address) (newNonce : U256) :
    Advances db s (s.setNonce db addr newNonce) := by
  obtain ⟨hreads, hcache, habsent⟩ := account_spec hdb h addr
  rw [State.setNonce]
  split
  next a s' heq =>
    rw [heq] at hreads hcache
    have hcache' : s'.m_cache addr = some a := hcache
    have hok := hreads.inv.accounts addr a hcache'
    exact hreads.advances.trans (advances_push hreads.inv ⟨hok.hash_eq, hok.empty, hok.old, hok.new⟩ rfl rfl id
      (undo_edit hcache' rfl))
  next s' heq =>
    rw [heq] at hreads hcache habsent
    exact hreads.advances.trans (advances_create hreads.inv hcache (habsent rfl) _ _)

theorem advances_pay (h : Inv db s) (ha : s.m_cache addr = some a) (amount : U256) :
    Advances db s (if amount = 0 then s.put addr (a.addBalance amount)
      else (s.put addr (a.addBalance amount)).note (.Balance addr amount)) := by
  have hok := h.accounts addr a ha
  have hok' : AccountOk db (a.addBalance amount) := ⟨hok.hash_eq, hok.empty, hok.old, hok.new⟩
  split
  next hzero =>
    subst hzero
    have hsum : a.m_balance + 0 = a.m_balance := by simp
    have hview : (a.addBalance 0).view db = a.view db := congrArg (fun b => { a.view db with balance := b }) hsum
    refine (reads_put h ((view_of_cached ha).trans (congrArg some hview.symm)) hok' ?_).advances
    exact fun hunchanged => absurd (show false = true from hunchanged) Bool.false_ne_true
  next =>
    have hsum : a.m_balance + amount + (0 - amount) = a.m_balance := by bv_omega
    exact advances_push h hok' rfl rfl id
      (undo_edit ha (congrArg (fun b => { a.view db with balance := b }) hsum))

theorem advances_addBalance (hdb : db.Sound) (h : Inv db s) (id : Address) (amount : U256) :
    Advances db s (s.addBalance db id amount).2 := by
  obtain ⟨hreads, hcache, habsent⟩ := account_spec hdb h id
  rw [State.addBalance]
  split
  next a s' heq =>
    rw [heq] at hreads hcache
    have hcache' : s'.m_cache id = some a := hcache
    refine hreads.advances.trans ?_
    dsimp only
    by_cases htouch : (!a.isDirty && a.isEmpty db) = true
    · rw [if_pos htouch]
      rw [Bool.and_eq_true, Account.isDirty, Bool.not_not] at htouch
      have hview : ((s'.put id a.changed).note (.Touch id)).view db = s'.view db :=
        view_put_same (show s'.view db id = some (a.view db) from view_of_cached hcache')
      have hadvances : Advances db s' ((s'.put id a.changed).note (.Touch id)) :=
        ⟨hreads.inv.touch hcache' htouch.1, ⟨[.Touch id], rfl, hview⟩, rfl⟩
      have hpay := advances_pay hadvances.inv (put_cache_self s' id a.changed) amount
      have hput : ((s'.put id a.changed).note (.Touch id)).put id (a.changed.addBalance amount)
          = (s'.note (.Touch id)).put id (a.addBalance amount) :=
        congrArg (State.note · (.Touch id)) (put_put s' id a.changed (a.addBalance amount))
      rw [hput] at hpay
      exact hadvances.trans hpay
    · rw [if_neg htouch]
      exact advances_pay hreads.inv hcache' amount
  next s' heq =>
    rw [heq] at hreads hcache habsent
    split
    next => exact hreads.advances
    next nonce _ =>
      refine hreads.advances.trans ?_
      dsimp only
      split
      next => exact advances_create hreads.inv hcache (habsent rfl) _ _
      next hne =>
        have hcreate := advances_create hreads.inv hcache (habsent rfl) nonce 0
        have hpay := advances_pay hcreate.inv (put_cache_self s' id (Account.alive db nonce 0)) amount
        have hput : (s'.createAccount id (Account.alive db nonce 0)).put id
              ((Account.alive db nonce 0).addBalance amount)
            = s'.createAccount id (Account.alive db nonce amount) := by
          have hsum : (Account.alive db nonce 0).addBalance amount = Account.alive db nonce amount := by
            have hzero : (0 : U256) + amount = amount := by simp
            exact congrArg (fun b => { Account.alive db nonce 0 with m_balance := b }) hzero
          rw [hsum, State.createAccount, State.createAccount, State.put, State.put, State.note, State.note]
          dsimp only [State.put]
          rw [Function.update_idem]
        rw [if_neg hne, hput] at hpay
        exact hcreate.trans hpay

theorem advances_subBalance (hdb : db.Sound) (h : Inv db s) (addr : Address) (value : U256) :
    Advances db s (s.subBalance db addr value).2 := by
  obtain ⟨hreads, -, -⟩ := account_spec hdb h addr
  rw [State.subBalance]
  split
  next => exact (Reads.refl h).advances
  next =>
    split
    next s' heq =>
      rw [heq] at hreads
      exact hreads.advances
    next a s' heq =>
      rw [heq] at hreads
      split
      next => exact hreads.advances
      next => exact hreads.advances.trans (advances_addBalance hdb hreads.inv addr (0 - value))

theorem advances_setBalance (hdb : db.Sound) (h : Inv db s) (addr : Address) (value : U256) :
    Advances db s (s.setBalance db addr value).2 := by
  obtain ⟨hreads, -, -⟩ := account_spec hdb h addr
  rw [State.setBalance]
  split
  next a s' heq =>
    rw [heq] at hreads
    exact hreads.advances.trans (advances_addBalance hdb hreads.inv addr (value - a.m_balance))
  next s' heq =>
    rw [heq] at hreads
    exact hreads.advances.trans (advances_addBalance hdb hreads.inv addr (value - 0))

theorem uncached_of_view (hview : s.view db addr = none) : s.m_cache addr = none ∧ db.accountAt addr = none := by
  cases hcache : s.m_cache addr with
  | some a =>
    rw [view_of_cached hcache] at hview
    cases hview
  | none =>
    rw [view_of_uncached hcache, Backing.view, Option.map_eq_none_iff] at hview
    exact ⟨rfl, hview⟩

theorem addressInUse_eq (hdb : db.Sound) (h : Inv db s) (addr : Address) :
    (s.addressInUse db addr).1 = (s.view db addr).isSome := by
  rw [State.addressInUse, ← account_view hdb h, Option.isSome_map]

theorem advances_createContract (hdb : db.Sound) (h : Inv db s) (hunused : (s.addressInUse db addr).1 = false) :
    Advances db s (s.createContract db addr).2 := by
  rw [addressInUse_eq hdb h, Option.isSome_eq_false_iff, Option.isNone_iff_eq_none] at hunused
  obtain ⟨hnone, habsent⟩ := uncached_of_view hunused
  rw [State.createContract]
  split
  next => exact (Reads.refl h).advances
  next nonce _ => exact advances_create h hnone habsent nonce 0

theorem entry_of_cached (ha : s.m_cache addr = some a) : s.entry db addr = a := by
  rw [State.entry, ha, Option.getD_some]

theorem account_of_inUse (hused : (s.addressInUse db addr).1 = true) : ∃ a, (s.account db addr).1 = some a :=
  Option.isSome_iff_exists.mp hused

theorem advances_setStorage (hdb : db.Sound) (h : Inv db s) (hused : (s.addressInUse db addr).1 = true)
    (key value : U256) : Advances db s (s.setStorage db addr key value) := by
  obtain ⟨hreads, hold, hcached⟩ := reads_storage hdb h addr key
  obtain ⟨a, ha⟩ := account_of_inUse hused
  obtain ⟨a', ha'⟩ := hcached a ha
  have hok := hreads.inv.accounts addr a' ha'
  have holdValue : (s.storage db addr key).1 = a'.storageOf db key := by
    rw [hold, ← hreads.view_eq, view_of_cached ha']
    rfl
  have hentry : State.entry db ((s.storage db addr key).2.note (.Storage addr key (s.storage db addr key).1)) addr = a' :=
    entry_of_cached ha'
  rw [State.setStorage]
  dsimp only
  rw [hentry]
  refine hreads.advances.trans (advances_push hreads.inv
    ⟨hok.hash_eq, hok.empty, hok.old, hok.new⟩ rfl rfl id (undo_edit ha' ?_))
  rw [holdValue, Account.view, storageOf_setStorage]
  dsimp only
  rw [Function.update_idem, Function.update_eq_self]
  rfl

theorem advances_setCode (hdb : db.Sound) (h : Inv db s) (ha : s.m_cache addr = some a) (hdirty : a.isDirty = true)
    (newCode : Bytes) : Advances db s (s.setCode db addr newCode) := by
  obtain ⟨hreads, hold, hcached⟩ := reads_code hdb h addr
  have hfound : (s.account db addr).1 = some a := by
    rw [State.account, ha]
  obtain ⟨a', ha', hsame⟩ := hcached a hfound
  have hok := hreads.inv.accounts addr a' ha'
  have hdirty' : a'.m_isUnchanged = false := by
    rw [hsame]
    rw [Account.isDirty, Bool.not_eq_true'] at hdirty
    exact hdirty
  have holdCode : (s.code db addr).1 = a'.codeOf db := by
    rw [hold, ← hreads.view_eq, view_of_cached ha']
    rfl
  have hentry : State.entry db ((s.code db addr).2.note (.Code addr (s.code db addr).1)) addr = a' :=
    entry_of_cached ha'
  rw [State.setCode]
  dsimp only
  rw [hentry]
  refine hreads.advances.trans (advances_push hreads.inv
    (accountOk_setCode hdb a' newCode) hdirty' rfl id (undo_edit ha' ?_))
  rw [holdCode, hok.hash_eq]
  rfl

def blank (db : Backing) : AccountView := (Account.dead db).view db

theorem reads_clearStorage_uncached (h : Inv db s) (hnone : s.m_cache addr = none)
    (hblank : s.view db addr = some (blank db)) : Reads db s (s.clearStorage db addr) := by
  have hentry : s.entry db addr = Account.dead db := by
    rw [State.entry, hnone, Option.getD_none]
  have hroot : (Account.dead db).m_storageRoot = db.EmptyTrie := rfl
  rw [State.clearStorage, hentry, if_pos hroot]
  exact reads_put h hblank accountOk_dead fun hunchanged => absurd (show false = true from hunchanged) Bool.false_ne_true

theorem advances_clearStorage_cached (h : Inv db s) (ha : s.m_cache addr = some a)
    (hkept : a.m_storageRoot = db.EmptyTrie
      ∨ ∀ key value, a.m_storageOverlay key = some value → value = db.storageAt a.m_storageRoot key) :
    Advances db s (s.clearStorage db addr) := by
  have hok := h.accounts addr a ha
  rw [State.clearStorage, entry_of_cached ha, put_self ha]
  split
  next => exact (Reads.refl h).advances
  next hne =>
    have hstorage : a.storageOf db = db.storageAt a.m_storageRoot := by
      funext key
      rw [Account.storageOf]
      cases hvalue : a.m_storageOverlay key with
      | none => rfl
      | some value => exact hkept.resolve_left hne key value hvalue
    refine advances_push h ⟨hok.hash_eq, hok.empty, hok.old, hok.new⟩ rfl
      rfl id (undo_edit ha ?_)
    rw [← hstorage]
    rfl

theorem reads_kill (hdb : db.Sound) (h : Inv db s) (hblank : ∀ v, s.view db addr = some v → v = blank db) :
    Reads db s (s.kill db addr) := by
  obtain ⟨hreads, hcache, -⟩ := account_spec hdb h addr
  rw [State.kill]
  split
  next a s' heq =>
    rw [heq] at hreads hcache
    have hcache' : s'.m_cache addr = some a := hcache
    have hok := hreads.inv.accounts addr a hcache'
    have hview : a.view db = blank db := by
      refine hblank _ ?_
      rw [← hreads.view_eq]
      exact view_of_cached hcache'
    have hcodeCache : a.m_codeCache = [] := hok.empty (congrArg AccountView.codeHash hview)
    have hkilled : (a.kill db).view db = blank db := by
      have hcode : (a.kill db).codeOf db = (Account.dead db).codeOf db := by
        rw [codeOf_empty rfl, codeOf_empty rfl]
      rw [blank, Account.view, Account.view, hcode]
      rfl
    refine hreads.trans (reads_put hreads.inv ?_ ⟨?_, fun _ => hcodeCache, fun _ => Or.inl hcodeCache, fun _ _ => rfl⟩ ?_)
    · rw [view_of_cached hcache', hview, hkilled]
    · rw [codeOf_empty rfl]
      rfl
    · exact fun hunchanged => absurd (show false = true from hunchanged) Bool.false_ne_true
  next s' heq =>
    rw [heq] at hreads
    exact hreads

end proofs

/-! ### Runs -/

/-- What `rollback` undoes, and the getters. -/
inductive Op
  | addBalance (addr : Address) (amount : U256)
  | subBalance (addr : Address) (value : U256)
  | setBalance (addr : Address) (value : U256)
  | incNonce (addr : Address)
  | setNonce (addr : Address) (newNonce : U256)
  | createContract (addr : Address)
  | setStorage (addr : Address) (key value : U256)
  | clearStorage (addr : Address)
  | setCode (addr : Address) (newCode : Bytes)
  | kill (addr : Address)
  | addressInUse (addr : Address)
  | addressHasCode (addr : Address)
  | balance (addr : Address)
  | getNonce (addr : Address)
  | storage (addr : Address) (key : U256)
  | code (addr : Address)
  | codeHash (addr : Address)
  | codeSize (addr : Address)
  | rollback (savepoint : Nat)

def State.step (db : Backing) (s : State) : Op → State
  | .addBalance addr amount => (s.addBalance db addr amount).2
  | .subBalance addr value => (s.subBalance db addr value).2
  | .setBalance addr value => (s.setBalance db addr value).2
  | .incNonce addr => (s.incNonce db addr).2
  | .setNonce addr newNonce => s.setNonce db addr newNonce
  | .createContract addr => (s.createContract db addr).2
  | .setStorage addr key value => s.setStorage db addr key value
  | .clearStorage addr => s.clearStorage db addr
  | .setCode addr newCode => s.setCode db addr newCode
  | .kill addr => s.kill db addr
  | .addressInUse addr => (s.addressInUse db addr).2
  | .addressHasCode addr => (s.addressHasCode db addr).2
  | .balance addr => (s.balance db addr).2
  | .getNonce addr => (s.getNonce db addr).2
  | .storage addr key => (s.storage db addr key).2
  | .code addr => (s.code db addr).2
  | .codeHash addr => (s.codeHash db addr).2
  | .codeSize addr => (s.codeSize db addr).2
  | .rollback savepoint => s.rollback db savepoint

def machine (db : Backing) : Machine State Op := ⟨State.step db⟩

/-- `createContract` is for addresses that are not in use, `rollback` for
    savepoints that were taken and not left behind. -/
def Op.Allowed (db : Backing) (s : State) : Op → Prop
  | .createContract addr => (s.addressInUse db addr).1 = false
  | .rollback savepoint => savepoint ≤ s.savepoint
  | _ => True

def Op.Undoable (db : Backing) (s : State) : Op → Prop
  | .setStorage addr _ _ => (s.addressInUse db addr).1 = true
  | .setCode addr _ => ∃ a, s.m_cache addr = some a ∧ a.isDirty = true
  | .clearStorage addr =>
    match s.m_cache addr with
    | some a => a.m_storageRoot = db.EmptyTrie
      ∨ ∀ key value, a.m_storageOverlay key = some value → value = db.storageAt a.m_storageRoot key
    | none => s.view db addr = some (blank db)
  | .kill addr => ∀ v, s.view db addr = some v → v = blank db
  | _ => True

def Op.Above (savepoint : Nat) : Op → Prop
  | .rollback earlier => savepoint ≤ earlier
  | _ => True

structure Answers where
  addressInUse : Bool
  addressHasCode : Bool
  balance : U256
  getNonce : U256
  storage : U256 → U256
  code : Bytes
  codeHash : H256
  codeSize : Nat

def State.answers (db : Backing) (s : State) (addr : Address) : Answers where
  addressInUse := (s.addressInUse db addr).1
  addressHasCode := (s.addressHasCode db addr).1
  balance := (s.balance db addr).1
  getNonce := (s.getNonce db addr).1
  storage := fun key => (s.storage db addr key).1
  code := (s.code db addr).1
  codeHash := (s.codeHash db addr).1
  codeSize := (s.codeSize db addr).1

/-- A state over the trie of a root: nothing is cached but sizes of codes. -/
structure State.Fresh (db : Backing) (s : State) : Prop where
  cache : s.m_cache = fun _ => none
  absent : s.m_nonExistingAccountsCache = []
  log : s.m_changeLog = []
  sizes : ∀ p ∈ s.sizes, p.2 = db.codeLength p.1

section runs

variable {db : Backing} {s s' : State}

theorem State.Fresh.inv (h : s.Fresh db) : Inv db s where
  accounts addr a ha := by
    rw [h.cache] at ha
    cases ha
  clean addr a ha := by
    rw [h.cache] at ha
    cases ha
  absent addr hmem := by
    rw [h.absent] at hmem
    cases hmem
  logged change hmem := by
    rw [h.log] at hmem
    cases hmem
  starts := by
    rw [h.log]
    exact List.Pairwise.nil
  created addr hmem := by
    rw [h.log] at hmem
    cases hmem
  touched newer addr older hlog := by
    rw [h.log] at hlog
    exact absurd hlog.symm (List.append_ne_nil_of_right_ne_nil newer (List.cons_ne_nil _ _))
  sizes := h.sizes

/-! #### Getters -/

theorem reads_of_account (hdb : db.Sound) (h : Inv db s) (addr : Address) :
    Reads db s (s.addressHasCode db addr).2 ∧ Reads db s (s.balance db addr).2 ∧ Reads db s (s.getNonce db addr).2
      ∧ Reads db s (s.codeHash db addr).2 := by
  obtain ⟨hreads, -, -⟩ := account_spec hdb h addr
  rw [State.addressHasCode, State.balance, State.getNonce, State.codeHash]
  cases heq : s.account db addr with
  | mk found s' =>
    rw [heq] at hreads
    cases found with
    | some a => exact ⟨hreads, hreads, hreads, hreads⟩
    | none => exact ⟨hreads, hreads, hreads, hreads⟩

/-- **The view and the start nonce give all answers.** -/
theorem answers_eq (hdb : db.Sound) (h : Inv db s) (addr : Address) :
    s.answers db addr =
      { addressInUse := (s.view db addr).isSome
        addressHasCode := ((s.view db addr).map fun v => decide (v.codeHash ≠ db.EmptyHash)).getD false
        balance := ((s.view db addr).map AccountView.balance).getD 0
        getNonce := ((s.view db addr).map AccountView.nonce).getD s.m_accountStartNonce
        storage := fun key => ((s.view db addr).map fun v => v.storage key).getD 0
        code := ((s.view db addr).map AccountView.code).getD []
        codeHash := ((s.view db addr).map AccountView.codeHash).getD db.EmptyHash
        codeSize := ((s.view db addr).map fun v => v.code.length).getD 0 } := by
  have hview := account_view hdb h addr
  obtain ⟨hreads, -, -⟩ := account_spec hdb h addr
  have hstorage := fun key => (reads_storage hdb h addr key).2.1
  rw [State.answers, addressInUse_eq hdb h, (reads_code hdb h addr).2.1, (reads_codeSize hdb h addr).2, funext hstorage,
    State.addressHasCode, State.balance, State.getNonce, State.codeHash, ← hview]
  cases heq : s.account db addr with
  | mk found s' =>
    rw [heq] at hreads
    cases found with
    | some a => rfl
    | none =>
      have hnonce : s'.m_accountStartNonce = s.m_accountStartNonce := hreads.nonce_eq
      rw [← hnonce]
      rfl

/-! #### Steps -/

/-- **What a step does but for `rollback`.** -/
theorem advances_step (hdb : db.Sound) (h : Inv db s) {op : Op} (hallowed : op.Allowed db s)
    (hundoable : op.Undoable db s) (hop : ∀ savepoint, op ≠ .rollback savepoint) : Advances db s (s.step db op) := by
  cases op with
  | addBalance addr amount => exact advances_addBalance hdb h addr amount
  | subBalance addr value => exact advances_subBalance hdb h addr value
  | setBalance addr value => exact advances_setBalance hdb h addr value
  | incNonce addr => exact advances_incNonce hdb h addr
  | setNonce addr newNonce => exact advances_setNonce hdb h addr newNonce
  | createContract addr => exact advances_createContract hdb h hallowed
  | setStorage addr key value => exact advances_setStorage hdb h hundoable key value
  | setCode addr newCode =>
    obtain ⟨a, ha, hdirty⟩ := hundoable
    exact advances_setCode hdb h ha hdirty newCode
  | clearStorage addr =>
    rw [Op.Undoable] at hundoable
    split at hundoable
    next a ha => exact advances_clearStorage_cached h ha hundoable
    next hnone => exact (reads_clearStorage_uncached h hnone hundoable).advances
  | kill addr => exact (reads_kill hdb h hundoable).advances
  | addressInUse addr => exact (account_spec hdb h addr).1.advances
  | addressHasCode addr => exact (reads_of_account hdb h addr).1.advances
  | balance addr => exact (reads_of_account hdb h addr).2.1.advances
  | getNonce addr => exact (reads_of_account hdb h addr).2.2.1.advances
  | storage addr key => exact (reads_storage hdb h addr key).1.advances
  | code addr => exact (reads_code hdb h addr).1.advances
  | codeHash addr => exact (reads_of_account hdb h addr).2.2.2.advances
  | codeSize addr => exact (reads_codeSize hdb h addr).1.advances
  | rollback savepoint => exact absurd rfl (hop savepoint)

theorem rollback_nonce (s : State) (savepoint : Nat) :
    (s.rollback db savepoint).m_accountStartNonce = s.m_accountStartNonce := by
  have hloop : ∀ (log : List Change) (s : State),
      (State.rollbackLoop db savepoint log s).m_accountStartNonce = s.m_accountStartNonce := by
    intro log
    induction log with
    | nil => exact fun _ => rfl
    | cons change log ih =>
      intro s
      rw [State.rollbackLoop]
      split
      · rfl
      · rw [ih]
        cases change <;> rfl
  exact hloop s.m_changeLog s

/-- What holds after a savepoint: rolling back leads to the view that was. -/
structure Keeps (db : Backing) (savepoint : Nat) (V : View) (nonce : U256) (s : State) : Prop where
  inv : Inv db s
  le : savepoint ≤ s.savepoint
  past_eq : past (Change.undo db) savepoint s.m_changeLog (s.view db) = V
  nonce_eq : s.m_accountStartNonce = nonce

theorem Keeps.step {savepoint : Nat} {V : View} {nonce : U256} (hdb : db.Sound) (h : Keeps db savepoint V nonce s)
    {op : Op} (hallowed : op.Allowed db s) (hundoable : op.Undoable db s) (habove : op.Above savepoint) :
    Keeps db savepoint V nonce (s.step db op) := by
  by_cases hop : ∀ m, op ≠ .rollback m
  · obtain ⟨hinv, ⟨added, hlog, hundo⟩, hnonce⟩ := advances_step hdb h.inv hallowed hundoable hop
    refine ⟨hinv, ?_, ?_, hnonce.trans h.nonce_eq⟩
    · rw [State.savepoint, hlog, List.length_append]
      exact le_trans h.le (Nat.le_add_left ..)
    · rw [hlog, past_push h.le hundo]
      exact h.past_eq
  · push Not at hop
    obtain ⟨m, rfl⟩ := hop
    have hm : m ≤ s.m_changeLog.length := hallowed
    obtain ⟨hinv, hview, hlog⟩ := h.inv.rollback hdb hm
    have hstep : s.step db (.rollback m) = s.rollback db m := rfl
    rw [hstep]
    refine ⟨hinv, ?_, ?_, (rollback_nonce s m).trans h.nonce_eq⟩
    · have hle : savepoint ≤ m := habove
      rw [State.savepoint, hlog, List.length_drop]
      omega
    · rw [hlog, hview, past_rollback habove hm]
      exact h.past_eq

/-- **`rollback` is exact on runs whose steps can be undone**: whatever happens
    before and after a savepoint, the getters return after the rollback what they
    returned at the savepoint. -/
theorem rollback_undoes (hdb : db.Sound) (hs : s.Fresh db) (before during : List Op)
    (hbefore : (machine db).RunOk (fun s op => op.Allowed db s ∧ op.Undoable db s) s before)
    (hduring : (machine db).RunOk
      (fun t op => op.Allowed db t ∧ op.Undoable db t ∧ op.Above ((machine db).run s before).savepoint)
      ((machine db).run s before) during) (addr : Address) :
    (((machine db).run ((machine db).run s before) during).rollback db ((machine db).run s before).savepoint).answers db
        addr
      = ((machine db).run s before).answers db addr := by
  -- the past at 0 is that of the start
  have hstart : Keeps db 0 (s.view db) s.m_accountStartNonce s :=
    ⟨hs.inv, Nat.zero_le _, by rw [hs.log, past, List.take_nil, unwind_nil], rfl⟩
  have hat : Keeps db 0 (s.view db) s.m_accountStartNonce ((machine db).run s before) := by
    refine (machine db).run_invariant (fun t op ht hop => ht.step hdb hop.1 hop.2 ?_) hstart hbefore
    cases op with
    | rollback m => exact Nat.zero_le m
    | _ => trivial
  generalize (machine db).run s before = t at *
  have hfrom : Keeps db t.savepoint (t.view db) t.m_accountStartNonce t :=
    ⟨hat.inv, le_refl _, past_self .., rfl⟩
  have hend := (machine db).run_invariant
    (fun u op hu hop => hu.step hdb hop.1 hop.2.1 hop.2.2) hfrom hduring
  obtain ⟨hinv, hview, -⟩ := hend.inv.rollback hdb hend.le
  rw [answers_eq hdb hinv, answers_eq hdb hat.inv, hview, hend.past_eq, rollback_nonce, hend.nonce_eq]

end runs

/-! ### A sample -/

def hashOf (value : U256) : H256 :=
  ⟨(List.range 32).map fun i => UInt8.ofNat (value.toNat / 256 ^ (31 - i)), by rw [List.length_map, List.length_range]⟩

def sampleAddress : Address := ⟨List.replicate 20 7, rfl⟩

def sampleRoot : H256 := hashOf 0x507dc864c12c35fa19f6a8c824601ce2f1bedd1fdf454c2df2f2a7ce411a6d6f

/-- One account; its code is empty.  The hash is that of `[]` and of `[1]`. -/
def sample : Backing where
  hash code :=
    if code = [] then hashOf 0xc5d2460186f7233c927e7db2dcc703c0e500b653ca82273b7bfad8045d85a470
    else hashOf 0x5fe7f977e71dba2ea1a68e21057beebb9be2ac30c6410aa38d4f3fbe41dcffd2
  EmptyTrie := hashOf 0x56e81f171bcc55a6ff8345e692c0f86e5b48e01b996cadc001622fb5e363b421
  accountAt addr :=
    if addr = sampleAddress then
      some (0, 0, sampleRoot, hashOf 0xc5d2460186f7233c927e7db2dcc703c0e500b653ca82273b7bfad8045d85a470)
    else none
  storageAt root key := if root = sampleRoot ∧ key = 1 then 5 else 0
  lookup _ := []

def sampleStart : State := { m_accountStartNonce := 0, random := fun _ => 0 }

theorem sample_sound : sample.Sound where
  empty key := by
    have hroot : sample.EmptyTrie ≠ sampleRoot := by decide +kernel
    show (if sample.EmptyTrie = sampleRoot ∧ key = 1 then (5 : U256) else 0) = 0
    exact if_neg fun h => hroot h.1
  code addr record hrecord hne := by
    have hsome : (if addr = sampleAddress then
        some ((0 : U256), (0 : U256), sampleRoot, sample.EmptyHash) else none) = some record := hrecord
    split at hsome
    · cases hsome
      exact absurd rfl hne
    · cases hsome
  hash_empty code h := by
    by_contra hne
    have hother : sample.hash code = hashOf 0x5fe7f977e71dba2ea1a68e21057beebb9be2ac30c6410aa38d4f3fbe41dcffd2 :=
      if_neg hne
    have hdiffer : hashOf 0x5fe7f977e71dba2ea1a68e21057beebb9be2ac30c6410aa38d4f3fbe41dcffd2 ≠ sample.EmptyHash := by
      decide +kernel
    exact hdiffer (hother.symm.trans h)

theorem sampleStart_fresh : sampleStart.Fresh sample := ⟨rfl, rfl, rfl, nofun⟩

/-- A value that is set before and after the savepoint, with new code. -/
theorem rollback_undoes_sample :
    (((machine sample).run ((machine sample).run sampleStart [.setStorage sampleAddress 1 7, .addBalance sampleAddress 10])
        [.setNonce sampleAddress 3, .setStorage sampleAddress 1 9, .setCode sampleAddress [1]]).rollback sample
          ((machine sample).run sampleStart [.setStorage sampleAddress 1 7, .addBalance sampleAddress 10]).savepoint).answers
            sample sampleAddress
      = ((machine sample).run sampleStart [.setStorage sampleAddress 1 7, .addBalance sampleAddress 10]).answers sample
          sampleAddress :=
  rollback_undoes sample_sound sampleStart_fresh [.setStorage sampleAddress 1 7, .addBalance sampleAddress 10]
    [.setNonce sampleAddress 3, .setStorage sampleAddress 1 9, .setCode sampleAddress [1]]
    ⟨⟨trivial, (by decide +kernel : (State.addressInUse _ _ _).1 = true)⟩, ⟨trivial, trivial⟩, trivial⟩
    ⟨⟨trivial, trivial, trivial⟩, ⟨trivial, (by decide +kernel : (State.addressInUse _ _ _).1 = true), trivial⟩,
      ⟨trivial, ⟨_, rfl, rfl⟩, trivial⟩, trivial⟩ sampleAddress

/-- **`clearStorage` is undone by `setStorageRoot`, which drops the values that
    were set before.** -/
theorem rollback_loses_storage :
    sample.Sound ∧ sampleStart.Fresh sample
      ∧ (machine sample).RunOk (fun s op => op.Allowed sample s) sampleStart
          [.setStorage sampleAddress 1 7, .clearStorage sampleAddress]
      ∧ ((machine sample).run sampleStart [.setStorage sampleAddress 1 7]).savepoint = 1
      ∧ (((machine sample).run sampleStart [.setStorage sampleAddress 1 7]).storage sample sampleAddress 1).1 = 7
      ∧ ((((machine sample).run sampleStart [.setStorage sampleAddress 1 7, .clearStorage sampleAddress]).rollback sample
          1).storage sample sampleAddress 1).1 = 5 :=
  ⟨sample_sound, sampleStart_fresh, ⟨trivial, trivial, trivial⟩, by decide +kernel, by decide +kernel, by decide +kernel⟩

end HieraChain.MPTState
