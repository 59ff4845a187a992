/-
  HieraChain/PBFTBlockBinding.lean
  ================================
  **What the hash of a committed block says about its transactions**
  (`decodeRC2`, `decodeProposal`, `fillBlock`, `checkBlockValid`).

  A block hash is the hash of the header alone, and no reader, filler or check
  compares `transactionsRoot` with the transactions or with the hash list of a
  proposal.  The root binds the transactions only where every proposal that the
  node takes in names it itself; from there on nothing loosens it (`BindInv`),
  because missed transactions are checked against the hash list one by one.
-/
import HieraChain.PBFTInvariants
import HieraChain.SymbolicCrypto

set_option linter.unusedSectionVars false

namespace HieraChain.PBFT

section Binding

variable {H S T : Type} [DecidableEq H] [DecidableEq S]

/-! ### Blocks and proposals with their own root -/

def Bound (c : Crypto H S T) (b : Block H S T) : Prop :=
  b.header.transactionsRoot = c.txsRoot (b.transactions.map c.txHash)

instance (c : Crypto H S T) (b : Block H S T) : Decidable (Bound c b) :=
  inferInstanceAs (Decidable (_ = _))

def BoundPrepare (c : Crypto H S T) (req : Prepare H S T) : Prop :=
  ∀ b, (req.pBlock <|> req.block.decode c) = some b → b.transactions ≠ [] → Bound c b

/-- A short proposal whose transactions are those of its hash list, and whose
    header names the root of that list. -/
structure BoundProposal (c : Crypto H S T) (p : PartiallyBlock H T) : Prop where
  sized : p.transactions.length = p.txsHash.length
  found : ∀ (n : Nat) t, p.transactions[n]? = some (some t) → p.txsHash[n]? = some (c.txHash t)
  missed : ∀ hash (n : Nat), (hash, n) ∈ p.missedTxs → p.txsHash[n]? = some hash
  root : p.txsHash ≠ [] → p.header.transactionsRoot = c.txsRoot p.txsHash

/-- What two nodes committed under one block hash carries the same transactions. -/
def SameTransactions (c : Crypto H S T) (s s' : Node H S T) : Prop :=
  ∀ sealerList b ok sealerList' b' ok', .commitBlock sealerList b ok ∈ s.trace →
    .commitBlock sealerList' b' ok' ∈ s'.trace → c.headerHash b.header = c.headerHash b'.header →
    b.transactions = b'.transactions

/-- The header of an encoded block names the root of the hashes, if there are any. -/
def rootNames (c : Crypto H S T) (block : EncodedBlock H S T) (hashes : Option (List H)) : Bool :=
  match block.header, hashes with
  | some header, some hashes =>
    hashes.isEmpty || decide (header.transactionsRoot = c.txsRoot hashes)
  | _, _ => true

variable [Zero H]

/-- The condition on a step: a proposal that is not rejected, or is the node's
    own, names the root of its transactions or of its hash list. -/
def bindOk (c : Config H S T) (e : Env T) (s : Node H S T) : Input H S T → Bool
  | .prepareReqPacket m block mark =>
    (Input.receivedPrepare m block mark).all fun req =>
      decide (s.isValidPrepare c e req = .INVALID)
        || rootNames c.crypto block (block.txsItem.asTxs.map (List.map c.crypto.txHash))
  | .partiallyPreparePacket m block =>
    (Input.receivedPrepare m block false).all fun req =>
      decide (s.isValidPrepare c e req = .INVALID) || rootNames c.crypto block block.txsItem.asHashes
  | .generatePrepare b => b.transactions.isEmpty || decide (Bound c.crypto b)
  | _ => true

variable {c : Config H S T} {e : Env T} {i : Input H S T} {s₀ s s' : Node H S T}

theorem rootNames_iff {block : EncodedBlock H S T} {header : BlockHeader H} {hashes : List H}
    (hheader : block.header = some header) (hne : hashes ≠ []) :
    rootNames c.crypto block (some hashes) = true ↔
      header.transactionsRoot = c.crypto.txsRoot hashes := by
  unfold rootNames
  rw [hheader]
  simp [hne]

theorem header_of_readHeader {block : EncodedBlock H S T} {header : BlockHeader H}
    (h : block.readHeader = some header) : block.header = some header :=
  (Option.filter_eq_some_iff.mp h).1

/-! ### Short proposals -/

theorem eq_map_some_of_mapM_id {l : List (Option T)} {txs : List T} (h : l.mapM id = some txs) :
    l = txs.map some := by
  induction l generalizing txs with
  | nil =>
    cases h
    rfl
  | cons o l ih =>
    rw [List.mapM_cons] at h
    obtain ⟨t, ht, h⟩ := Option.bind_eq_some_iff.mp h
    obtain ⟨txs', htxs', h⟩ := Option.bind_eq_some_iff.mp h
    cases h
    change o = some t at ht
    rw [List.map_cons, ← ih htxs', ht]

namespace BoundProposal

theorem bound_of_completeBlock {p : PartiallyBlock H T} {b : Block H S T}
    (h : BoundProposal c.crypto p) (hb : Node.completeBlock p = some b)
    (hne : b.transactions ≠ []) : Bound c.crypto b := by
  obtain ⟨txs, htxs, rfl⟩ := Option.map_eq_some_iff.mp hb
  have hall := eq_map_some_of_mapM_id htxs
  have hsized := h.sized
  rw [hall, List.length_map] at hsized
  have hhashes : txs.map c.crypto.txHash = p.txsHash := by
    apply List.ext_getElem?
    intro n
    rw [List.getElem?_map]
    cases ht : txs[n]? with
    | none =>
      have hlen := List.getElem?_eq_none_iff.mp ht
      rw [hsized] at hlen
      exact (List.getElem?_eq_none_iff.mpr hlen).symm
    | some t =>
      have hfound : p.transactions[n]? = some (some t) := by
        rw [hall, List.getElem?_map, ht]
        rfl
      exact (h.found n t hfound).symm
  have hroot : p.txsHash ≠ [] := by
    rw [← hhashes]
    intro hnil
    exact hne (List.map_eq_nil_iff.mp hnil)
  change p.header.transactionsRoot = c.crypto.txsRoot (txs.map c.crypto.txHash)
  rw [hhashes]
  exact h.root hroot

theorem set_found {hashes : List H} {l : List (T × Nat)} {ts : List (Option T)}
    (hl : ∀ t (n : Nat), (t, n) ∈ l → hashes[n]? = some (c.crypto.txHash t))
    (hts : ∀ (n : Nat) t, ts[n]? = some (some t) → hashes[n]? = some (c.crypto.txHash t)) (n : Nat) (t : T)
    (h : (l.foldl (fun ts e => ts.set e.2 (some e.1)) ts)[n]? = some (some t)) :
    hashes[n]? = some (c.crypto.txHash t) := by
  induction l generalizing ts with
  | nil => exact hts n t h
  | cons a l ih =>
    obtain ⟨t', n'⟩ := a
    refine ih (fun t n ht => hl t n (List.mem_cons_of_mem _ ht)) ?_ h
    intro k u hu
    rw [List.getElem?_set] at hu
    split_ifs at hu with heq hlen
    · cases hu
      exact heq ▸ hl _ n' (List.mem_cons_self ..)
    · exact hts k u hu

theorem length_foldl_set (l : List (T × Nat)) (ts : List (Option T)) :
    (l.foldl (fun ts e => ts.set e.2 (some e.1)) ts).length = ts.length := by
  induction l generalizing ts with
  | nil => rfl
  | cons a l ih =>
    rw [List.foldl_cons, ih, List.length_set]

theorem fillBlock {p p' : PartiallyBlock H T} {resp : MissedTxsResponse H T}
    (h : BoundProposal c.crypto p) (hfill : p.fillBlock c.crypto resp = some p') :
    BoundProposal c.crypto p' := by
  unfold PartiallyBlock.fillBlock at hfill
  split_ifs at hfill
  obtain ⟨txs, -, hfill⟩ := Option.bind_eq_some_iff.mp hfill
  split_ifs at hfill with hhashes
  cases hfill
  have hhashes := not_not.mp hhashes
  have hplaces : ∀ t n, (t, n) ∈ txs.zip (p.missedTxs.map Prod.snd) →
      p.txsHash[n]? = some (c.crypto.txHash t) := by
    intro t n hmem
    apply h.missed
    have hmapped : (c.crypto.txHash t, n) ∈
        (txs.map c.crypto.txHash).zip (p.missedTxs.map Prod.snd) := by
      rw [List.zip_map_left]
      exact List.mem_map.mpr ⟨(t, n), hmem, rfl⟩
    rw [hhashes, List.zip_map'] at hmapped
    obtain ⟨⟨hash, n'⟩, hmissed, heq⟩ := List.mem_map.mp hmapped
    cases heq
    exact hmissed
  refine ⟨?_, set_found hplaces h.found, h.missed, h.root⟩
  rw [length_foldl_set]
  exact h.sized

theorem of_decodedProposal {req : Prepare H S T} {p : PartiallyBlock H T}
    (hp : Node.decodedProposal c e req = some p)
    (hroot : rootNames c.crypto req.block req.block.txsItem.asHashes = true) :
    BoundProposal c.crypto p := by
  obtain ⟨q, hq, rfl⟩ := Option.map_eq_some_iff.mp hp
  unfold EncodedBlock.decodeProposal at hq
  obtain ⟨header, hheader, hq⟩ := Option.bind_eq_some_iff.mp hq
  obtain ⟨hashes, hhashes, hq⟩ := Option.bind_eq_some_iff.mp hq
  obtain ⟨hash, -, hq⟩ := Option.bind_eq_some_iff.mp hq
  split_ifs at hq
  cases hq
  rw [hhashes] at hroot
  refine ⟨List.length_map .., ?_, ?_, ?_⟩
  · intro n t ht
    change (hashes.map _)[n]? = some (some t) at ht
    rw [List.getElem?_map] at ht
    obtain ⟨hash', hhash', ht⟩ := Option.map_eq_some_iff.mp ht
    have hfound := List.find?_some ht
    change hashes[n]? = some (c.crypto.txHash t)
    rw [hhash', of_decide_eq_true hfound]
  · intro hash' n hmissed
    obtain ⟨⟨⟨hash'', n'⟩, o⟩, hzip, hsome⟩ := List.mem_filterMap.mp hmissed
    have hindex := (List.of_mem_zip hzip).1
    split_ifs at hsome
    cases hsome
    exact List.mem_zipIdx_iff_getElem?.mp hindex
  · intro hne
    exact (rootNames_iff (header_of_readHeader hheader) hne).mp hroot

end BoundProposal

/-! ### The invariant -/

structure HeldBound (c : Crypto H S T) (q : ReqCache H S T) : Prop where
  future : ∀ height req, q.futurePrepareCache.find? height = some req → BoundPrepare c req
  partially : ∀ p pb, q.partiallyRawPrepare = some p ∨ q.partiallyFuturePrepare = some p →
    p.pBlock = some pb → BoundProposal c pb
  raw : BoundPrepare c q.rawPrepareCache
  committed : BoundPrepare c q.committedPrepareCache

structure BindInv (c : Config H S T) (s : Node H S T) : Prop extends NodeInv c s where
  held : HeldBound c.crypto s.cache
  in_use : ∀ b, s.cache.prepareCache.height ≠ -1 → s.cache.prepareCache.pBlock = some b →
    Bound c.crypto b
  signed : ∀ raw b req, .signed raw b req ∈ s.trace → Bound c.crypto b
  saved : ∀ sealerList b ok, .commitBlock sealerList b ok ∈ s.trace → Bound c.crypto b

namespace BindInv

theorem bound_of_executed {req : Prepare H S T} {b : Block H S T}
    (h : BoundPrepare c.crypto req) (hexec : s.executed c e req = some b) : Bound c.crypto b := by
  obtain ⟨hblock, htransactions, -⟩ := Node.executed_eq_some hexec
  exact h b hblock htransactions

theorem bound_of_knownProposal (h : HeldBound c.crypto s₀.cache) (hok : bindOk c e s₀ i = true)
    {pb : PartiallyBlock H T} (hpb : KnownProposal c e i s₀ pb) : BoundProposal c.crypto pb := by
  induction hpb with
  | held p pb hp hpb => exact h.partially p pb hp hpb
  | received m block req pb hi hreq hvalid hpb =>
    subst hi
    unfold bindOk at hok
    dsimp only at hok
    rw [hreq, Option.all_some, decide_eq_false hvalid, Bool.false_or] at hok
    apply BoundProposal.of_decodedProposal hpb
    obtain ⟨m', -, rfl⟩ := Option.map_eq_some_iff.mp hreq
    exact hok
  | filled resp pb pb' _ hfill ih => exact ih.fillBlock hfill

theorem boundPrepare_of_completed {req : Prepare H S T} {pb : PartiallyBlock H T} {b : Block H S T}
    (h : BoundProposal c.crypto pb) (hb : Node.completeBlock pb = some b)
    (hreq : req.pBlock = some b) : BoundPrepare c.crypto req := by
  intro b' hb' hne
  rw [hreq] at hb'
  cases hb'
  exact h.bound_of_completeBlock hb hne

theorem bound_of_knownPrepare (h : HeldBound c.crypto s₀.cache) (hok : bindOk c e s₀ i = true)
    {req : Prepare H S T} (hreq : KnownPrepare c e i s₀ req) : BoundPrepare c.crypto req := by
  cases hreq with
  | completed pb b hpb hb hreq =>
    exact boundPrepare_of_completed (bound_of_knownProposal h hok hpb) hb hreq
  | handed hhanded hvalid =>
    cases i with
    | prepareReqPacket m block mark =>
      unfold bindOk at hok
      dsimp only at hok
      change Input.receivedPrepare m block mark = some req at hhanded
      rw [hhanded, Option.all_some, decide_eq_false hvalid, Bool.false_or] at hok
      obtain ⟨m', -, rfl⟩ := Option.map_eq_some_iff.mp hhanded
      intro b hb hne
      change block.decode c.crypto = some b at hb
      unfold EncodedBlock.decode at hb
      obtain ⟨header, hheader, hb⟩ := Option.bind_eq_some_iff.mp hb
      obtain ⟨txs, htxs, hb⟩ := Option.bind_eq_some_iff.mp hb
      obtain ⟨hash, -, hb⟩ := Option.bind_eq_some_iff.mp hb
      split_ifs at hb
      obtain ⟨sigList, -, hb⟩ := Option.bind_eq_some_iff.mp hb
      cases hb
      rw [htxs] at hok
      refine (rootNames_iff (header_of_readHeader hheader) ?_).mp hok
      intro hnil
      exact hne (List.map_eq_nil_iff.mp hnil)
    | handleFutureBlock => exact h.future _ _ hhanded
    | shouldSeal =>
      cases hhanded
      exact h.committed
    | generatePrepare b =>
      obtain ⟨block, -, rfl⟩ := Option.map_eq_some_iff.mp hhanded
      intro b' hb' hne
      cases hb'
      unfold bindOk at hok
      simpa [hne] using hok
    | partiallyPreparePacket m block =>
      obtain ⟨r, hr, hhanded⟩ := Option.bind_eq_some_iff.mp hhanded
      obtain ⟨b, hb, rfl⟩ := Option.map_eq_some_iff.mp hhanded
      obtain ⟨pb, hpb, hb⟩ := Option.bind_eq_some_iff.mp hb
      have hvalid' : s₀.isValidPrepare c e r ≠ .INVALID := by
        have hsame : r.toPBFTMsg = (Node.withBlock c r b).toPBFTMsg := rfl
        rw [Node.isValidPrepare_congr c e s₀ hsame]
        exact hvalid
      have hknown := KnownProposal.received m block r pb rfl hr hvalid' hpb
      exact boundPrepare_of_completed (bound_of_knownProposal h hok hknown) hb rfl
    | missedTxsPacket resp =>
      obtain ⟨p, hp, hhanded⟩ := Option.bind_eq_some_iff.mp hhanded
      obtain ⟨b, hb, rfl⟩ := Option.map_eq_some_iff.mp hhanded
      obtain ⟨pb', hpb', hb⟩ := Option.bind_eq_some_iff.mp hb
      obtain ⟨pb, hpb, hfill⟩ := Option.bind_eq_some_iff.mp hpb'
      have hknown : KnownProposal c e (.missedTxsPacket resp) s₀ pb' :=
        .filled resp pb pb' (.held p pb (.inl hp) hpb) hfill
      exact boundPrepare_of_completed (bound_of_knownProposal h hok hknown) hb rfl
    | _ => cases hhanded

def Neutral : Event H S T → Prop
  | .signed .. => False
  | .commitBlock .. => False
  | _ => True

theorem held_of_less {q q' : ReqCache H S T} (h : HeldBound c.crypto q)
    (hfuture : ∀ height req, q'.futurePrepareCache.find? height = some req →
      q.futurePrepareCache.find? height = some req)
    (hpartially : ∀ p pb, q'.partiallyRawPrepare = some p ∨ q'.partiallyFuturePrepare = some p →
      p.pBlock = some pb → ∃ p', (q.partiallyRawPrepare = some p' ∨
        q.partiallyFuturePrepare = some p') ∧ p'.pBlock = some pb)
    (hraw : q'.rawPrepareCache = q.rawPrepareCache ∨ q'.rawPrepareCache = q.rawPrepareCache.clear)
    (hcommitted : q'.committedPrepareCache = q.committedPrepareCache) : HeldBound c.crypto q' := by
  refine ⟨fun height req hreq => h.future height req (hfuture height req hreq), ?_, ?_, ?_⟩
  · intro p pb hp hpb
    obtain ⟨p', hp', hpb'⟩ := hpartially p pb hp hpb
    exact h.partially p' pb hp' hpb'
  · rcases hraw with hraw | hraw
    · rw [hraw]
      exact h.raw
    · rw [hraw]
      exact h.raw
  · rw [hcommitted]
    exact h.committed

theorem frame (h : BindInv c s) (hnode : NodeInv c s') (hheld : HeldBound c.crypto s'.cache)
    (hprepare : s'.cache.prepareCache = s.cache.prepareCache ∨
      s'.cache.prepareCache = s.cache.prepareCache.clear)
    (htrace : s'.trace = s.trace ∨ ∃ ev, Neutral ev ∧ s'.trace = ev :: s.trace) : BindInv c s' := by
  have hmem : ∀ ev ∈ s'.trace, ev ∈ s.trace ∨ Neutral ev := by
    intro ev hev
    rcases htrace with htrace | ⟨new, hnew, htrace⟩
    · rw [htrace] at hev
      exact .inl hev
    · rw [htrace] at hev
      rcases List.mem_cons.mp hev with rfl | hev
      · exact .inr hnew
      · exact .inl hev
  refine ⟨hnode, hheld, ?_, ?_, ?_⟩
  · intro b hlive hb
    rcases hprepare with hprepare | hprepare
    · rw [hprepare] at hlive hb
      exact h.in_use b hlive hb
    · rw [hprepare] at hlive
      exact absurd rfl hlive
  · intro raw b req hev
    rcases hmem _ hev with hold | hneutral
    · exact h.signed raw b req hold
    · exact absurd hneutral id
  · intro sealerList b ok hev
    rcases hmem _ hev with hold | hneutral
    · exact h.saved sealerList b ok hold
    · exact absurd hneutral id

theorem held_congr {q q' : ReqCache H S T} (h : HeldBound c.crypto q)
    (hfuture : q'.futurePrepareCache = q.futurePrepareCache)
    (hraw : q'.partiallyRawPrepare = q.partiallyRawPrepare)
    (hpfuture : q'.partiallyFuturePrepare = q.partiallyFuturePrepare)
    (hrawPrepare : q'.rawPrepareCache = q.rawPrepareCache)
    (hcommitted : q'.committedPrepareCache = q.committedPrepareCache) : HeldBound c.crypto q' := by
  refine held_of_less h ?_ ?_ (.inl hrawPrepare) hcommitted
  · intro height req hreq
    rw [hfuture] at hreq
    exact hreq
  · intro p pb hp hpb
    rw [hraw, hpfuture] at hp
    exact ⟨p, hp, hpb⟩

theorem held_delCache {q : ReqCache H S T} (h : HeldBound c.crypto q) (hash : H) :
    HeldBound c.crypto (q.delCache hash) := by
  refine held_of_less h ?_ (fun p pb hp hpb => ⟨p, hp, hpb⟩) (.inl rfl) rfl
  intro height req hreq
  cases hreq

theorem held_withRaw {q : ReqCache H S T} (h : HeldBound c.crypto q) {req : Prepare H S T}
    (hreq : BoundPrepare c.crypto req) :
    HeldBound c.crypto { q with rawPrepareCache := req } :=
  ⟨h.future, h.partially, hreq, h.committed⟩

theorem held_removeInvalidFutureCache {q : ReqCache H S T} (h : HeldBound c.crypto q)
    (number view : Int) : HeldBound c.crypto (q.removeInvalidFutureCache number view) := by
  refine held_of_less h ?_ (fun p pb hp hpb => ⟨p, hp, hpb⟩) (.inl rfl) rfl
  intro height req hreq
  change (q.futurePrepareCache.filter _).find? height = some req at hreq
  rw [AssocMap.find?_filter] at hreq
  exact (Option.filter_eq_some_iff.mp hreq).1

theorem held_triggerViewChange {q : ReqCache H S T} (h : HeldBound c.crypto q) (view number : Int) :
    HeldBound c.crypto (q.triggerViewChange view number) := by
  unfold ReqCache.triggerViewChange
  apply held_removeInvalidFutureCache
  refine held_of_less h (fun _ _ hreq => hreq) ?_ (.inr rfl) rfl
  intro p pb hp hpb
  dsimp only at hp
  rcases hp with hp | hp
  · split_ifs at hp
    · obtain ⟨p', hp', rfl⟩ := Option.map_eq_some_iff.mp hp
      exact ⟨p', .inl hp', hpb⟩
    · exact ⟨p, .inl hp, hpb⟩
  · exact ⟨p, .inr hp, hpb⟩

theorem bound_of_taken (h : HeldBound c.crypto s₀.cache) (hok : bindOk c e s₀ i = true)
    {req : Prepare H S T} (htaken : Taken c e i s₀ s req) : BoundPrepare c.crypto req := by
  refine bound_of_knownPrepare h hok (.handed req htaken.handed ?_)
  rw [htaken.valid]
  intro hinvalid
  cases hinvalid

/-- **What a small step preserves**, on an input that meets the condition. -/
theorem smallStep (h₀ : HeldBound c.crypto s₀.cache) (hok : bindOk c e s₀ i = true)
    (hstep : SmallStep c e i s₀ s s') (h : BindInv c s) : BindInv c s' := by
  have hnode := NodeInv.smallStep hstep h.toNodeInv
  cases hstep with
  | pending _ future raw same pfuture hfuture hraw hpfuture =>
    refine h.frame hnode ⟨?_, ?_, h.held.raw, h.held.committed⟩ (.inl rfl) (.inl rfl)
    · intro height req hreq
      rcases hfuture height req hreq with hold | hknown
      · exact h.held.future height req hold
      · exact bound_of_knownPrepare h₀ hok hknown
    · intro p pb hp hpb
      rcases hp with hp | hp
      · change raw = some p at hp
        rcases hraw with rfl | hraw
        · exact h.held.partially p pb (.inl hp) hpb
        · exact bound_of_knownProposal h₀ hok (hraw p pb hp hpb)
      · change pfuture = some p at hp
        rcases hpfuture with rfl | hpfuture
        · exact h.held.partially p pb (.inr hp) hpb
        · exact bound_of_knownProposal h₀ hok (hpfuture p pb hp hpb)
  | note _ ev hev =>
    refine h.frame hnode h.held (.inl rfl) (.inr ⟨ev, ?_, rfl⟩)
    cases ev <;> trivial
  | takeRaw _ req htaken =>
    have hraw := held_withRaw h.held (bound_of_taken h₀ hok htaken)
    exact h.frame hnode (held_congr hraw rfl rfl rfl rfl rfl) (.inr rfl) (.inl rfl)
  | transRaw _ req p block htaken hi hprepare hfail =>
    exact h.frame hnode (held_withRaw h.held (bound_of_taken h₀ hok htaken)) (.inl rfl) (.inl rfl)
  | sign _ req b htaken hexec =>
    have hreq := bound_of_taken h₀ hok htaken
    have hb : Bound c.crypto b := bound_of_executed hreq hexec
    refine ⟨hnode, held_congr (held_withRaw h.held hreq) rfl rfl rfl rfl rfl, ?_, ?_, ?_⟩
    · intro b' _ hb'
      cases hb'
      exact hb
    · intro raw b' req' hev
      rcases List.mem_cons.mp hev with heq | hold
      · cases heq
        exact hb
      · exact h.signed raw b' req' hold
    · intro sealerList b' ok hev
      rcases List.mem_cons.mp hev with heq | hold
      · cases heq
      · exact h.saved sealerList b' ok hold
  | countSigns _ =>
    exact h.frame hnode (held_congr h.held rfl rfl rfl rfl rfl) (.inl rfl) (.inl rfl)
  | countCommits _ =>
    exact h.frame hnode (held_congr h.held rfl rfl rfl rfl rfl) (.inl rfl) (.inl rfl)
  | lock _ hsame hcfg hview hcause =>
    refine ⟨hnode, ⟨h.held.future, h.held.partially, h.held.raw, h.held.raw⟩, h.in_use, ?_, ?_⟩
    · intro raw b req hev
      rcases List.mem_cons.mp hev with heq | hev
      · cases heq
      · rcases List.mem_cons.mp hev with heq | hold
        · cases heq
        · exact h.signed raw b req hold
    · intro sealerList b ok hev
      rcases List.mem_cons.mp hev with heq | hev
      · cases heq
      · rcases List.mem_cons.mp hev with heq | hold
        · cases heq
        · exact h.saved sealerList b ok hold
  | save _ b b' hsame hview hheight hblock hlist hcount =>
    have hlive : s.cache.prepareCache.height ≠ -1 := by
      have hnonneg := h.highest_nonneg
      omega
    have hb : Bound c.crypto b' := by
      have hbound := h.in_use b hlive hblock
      rcases hlist with ⟨sigList, -, rfl⟩ | ⟨-, rfl⟩
      · exact hbound
      · exact hbound
    have hsaved : ∀ stored sealerList b ok,
        .commitBlock sealerList b ok ∈ .commitBlock s.sealerList b' stored :: s.trace →
          Bound c.crypto b := by
      intro stored sealerList b ok hev
      rcases List.mem_cons.mp hev with heq | hold
      · cases heq
        exact hb
      · exact h.saved sealerList b ok hold
    have hsigned : ∀ stored raw b req,
        .signed raw b req ∈ .commitBlock s.sealerList b' stored :: s.trace → Bound c.crypto b := by
      intro stored raw b req hev
      rcases List.mem_cons.mp hev with heq | hold
      · cases heq
      · exact h.signed raw b req hold
    rcases Node.saveBlock_cases c e s b' with ⟨-, heq⟩ | heq
    · rw [heq] at hnode ⊢
      refine ⟨hnode, held_delCache h.held _, ?_, hsigned true, hsaved true⟩
      intro b'' hlive' hb''
      rcases NodeInv.prepareCache_delCache s.cache (c.crypto.headerHash b'.header) with hp | hp
      · rw [hp] at hlive' hb''
        exact h.in_use b'' hlive' hb''
      · rw [hp] at hlive'
        exact absurd rfl hlive'
    · rw [heq] at hnode ⊢
      exact ⟨hnode, h.held, h.in_use, hsigned false, hsaved false⟩
  | addSign _ m => exact h.frame hnode (held_congr h.held rfl rfl rfl rfl rfl) (.inl rfl) (.inl rfl)
  | addCommit m req req' hi hreq hcheck =>
    exact h.frame hnode (held_congr h.held rfl rfl rfl rfl rfl) (.inl rfl) (.inl rfl)
  | dropViewChanges _ q hdrops =>
    obtain ⟨recv, latest, -, rfl⟩ := hdrops
    exact h.frame hnode (held_congr h.held rfl rfl rfl rfl rfl) (.inl rfl) (.inl rfl)
  | insertViewChange _ req horigin hheight =>
    exact h.frame hnode (held_congr h.held rfl rfl rfl rfl rfl) (.inl rfl) (.inl rfl)
  | moveToView _ v failed hmove => exact h.frame hnode h.held (.inl rfl) (.inl rfl)
  | enterView _ v hsealers hhighest hsize hview =>
    unfold Node.checkAndChangeView at hnode ⊢
    rw [if_pos hsize] at hnode ⊢
    exact h.frame hnode (held_triggerViewChange h.held _ _) (.inr rfl)
      (.inr ⟨.enteredView v _, trivial, rfl⟩)
  | report number b hi hblock =>
    rcases Node.reportBlockWithoutLock_cases c e s₀ b with heq | ⟨-, -, heq⟩ | ⟨-, -, heq⟩
    · rw [heq]
      exact h
    · rw [heq] at hnode ⊢
      refine h.frame hnode (held_delCache ?_ _) (NodeInv.prepareCache_delCache _ _)
        (.inr ⟨.reported b.header, trivial, rfl⟩)
      exact held_congr h.held rfl rfl rfl rfl rfl
    · rw [heq] at hnode ⊢
      exact h.frame hnode (held_delCache h.held _) (NodeInv.prepareCache_delCache _ _)
        (.inr ⟨.reported b.header, trivial, rfl⟩)
  | collectGarbage hi =>
    refine h.frame hnode (held_congr (held_removeInvalidFutureCache ?_ _ _) rfl rfl rfl rfl rfl)
      (.inl rfl) (.inl rfl)
    exact held_congr h.held rfl rfl rfl rfl rfl
  | resetConfig hi => exact h.frame hnode h.held (.inl rfl) (.inl rfl)
  | storeSynced _ b chain hi hchain => exact h.frame hnode h.held (.inl rfl) (.inl rfl)

theorem started (hs : Started s) (hbackup : BoundPrepare c.crypto s.cache.committedPrepareCache) :
    BindInv c s := by
  have hnode : NodeInv c s := NodeInv.started hs
  obtain ⟨e, noSig, backup, chain, last, hnumbered, hlast, rfl⟩ := hs
  refine ⟨hnode, ⟨?_, ?_, ?_, hbackup⟩, ?_, ?_, ?_⟩
  · intro height req hreq
    cases hreq
  · intro p pb hp
    rcases hp with hp | hp
    · cases hp
    · cases hp
  · intro b hb
    cases hb
  · intro b _ hb
    cases hb
  · intro raw b req hev
    cases hev
  · intro sealerList b ok hev
    cases hev

theorem run {is : List (Env T × Input H S T)} (h : BindInv c s)
    (hrun : (engine c).RunOk (fun s i => bindOk c i.1 s i.2 = true) s is) :
    BindInv c ((engine c).run s is) := by
  refine (engine c).run_invariant ?_ h hrun
  rintro s₀ ⟨e, i⟩ hinv hok
  exact (engine_madeOf c).step_invariant (fun t u hstep => smallStep hinv.held hok hstep) hinv

end BindInv

/-- **The block hash binds the transactions.**  Two nodes that take in only
    proposals that name their own root sign bound blocks only, and commit the
    same transactions under one block hash. -/
theorem block_hash_binds (c c' : Config H S T) (hcrypto : c'.crypto = c.crypto)
    (hheader : Function.Injective c.crypto.headerHash) (hroot : Function.Injective c.crypto.txsRoot)
    (htx : Function.Injective c.crypto.txHash) {s s' : Node H S T} (hs : Started s) (hs' : Started s')
    (hbackup : BoundPrepare c.crypto s.cache.committedPrepareCache)
    (hbackup' : BoundPrepare c.crypto s'.cache.committedPrepareCache)
    {is is' : List (Env T × Input H S T)}
    (hrun : (engine c).RunOk (fun s i => bindOk c i.1 s i.2 = true) s is)
    (hrun' : (engine c').RunOk (fun s i => bindOk c' i.1 s i.2 = true) s' is') :
    (∀ raw b req, .signed raw b req ∈ ((engine c).run s is).trace → Bound c.crypto b) ∧
      SameTransactions c.crypto ((engine c).run s is) ((engine c').run s' is') := by
  have hinv := (BindInv.started hs hbackup).run hrun
  rw [← hcrypto] at hbackup'
  have hinv' := (BindInv.started hs' hbackup').run hrun'
  refine ⟨hinv.signed, ?_⟩
  intro sealerList b ok sealerList' b' ok' hb hb' hhash
  have hbound := hinv.saved sealerList b ok hb
  have hbound' := hinv'.saved sealerList' b' ok' hb'
  rw [hcrypto] at hbound'
  unfold Bound at hbound hbound'
  rw [hheader hhash, hbound'] at hbound
  exact List.map_injective_iff.mpr htx (hroot hbound).symm

end Binding

def sameHeader (transactions : List Nat) : Block Term Term Nat :=
  { blockOn genesis 7 [5] with transactions }

theorem backup_bound : BoundPrepare symbolicCrypto startNode.cache.committedPrepareCache := by
  intro b hb
  cases hb

/-- The third and the fourth sealer commit the same block in one round each. -/
theorem block_hash_binds_first :
    SameTransactions symbolicCrypto
      ((engine (sealerConfig 4)).run startNode (quietly (fullRound (sameHeader [5]))))
      ((engine (sealerConfig 3)).run startNode (quietly (fullRound (sameHeader [5])))) :=
  (block_hash_binds (sealerConfig 4) (sealerConfig 3) rfl symbolicCrypto_headerHash_injective
    symbolicCrypto_txsRoot_injective symbolicCrypto_txHash_injective startNode_started
    startNode_started backup_bound backup_bound (by decide +kernel) (by decide +kernel)).2

/-- A leader that sends other transactions under the same header to the third sealer. -/
theorem block_hash_binds_broken_by_leader :
    let b := { sameHeader [5] with sigList := [entryOf 3, entryOf 0, entryOf 1] }
    let b' := { sameHeader [6] with sigList := [entryOf 2, entryOf 0, entryOf 1] }
    .commitBlock [1, 2, 3, 4] b true ∈ ((engine (sealerConfig 4)).run startNode
        (quietly (fullRound (sameHeader [5])))).trace ∧
      .commitBlock [1, 2, 3, 4] b' true ∈ ((engine (sealerConfig 3)).run startNode
        (quietly (fullRound (sameHeader [6])))).trace ∧
      hashOf b = hashOf b' ∧ b.transactions ≠ b'.transactions := by
  decide +kernel

end HieraChain.PBFT
