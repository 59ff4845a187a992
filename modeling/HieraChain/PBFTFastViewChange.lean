/-
  HieraChain/PBFTFastViewChange.lean
  ==================================
  **When the cached view changes trigger a fast view change**
  (`PBFTReqCache::canTriggerViewChange`).

  The walk keeps the highest view of every sealer, but takes the least view and
  the least height over all requests that were the highest so far.  A request
  that the walk reaches before a higher one of its sealer stays in both, so they
  depend on the order of the maps.

  `triggersRightly_iff` says for which caches they do not.
-/
import Mathlib.Data.Finset.Card
import Mathlib.Data.List.Sort
import Mathlib.Data.Prod.Lex
import Mathlib.Order.Bounds.Basic
import HieraChain.PBFTReqCache
import HieraChain.Records

namespace HieraChain.PBFT

open HieraChain.Records

/-! ### The requests that count -/

structure Seen where
  view : Int
  idx : Nat
  height : Int
  deriving DecidableEq

namespace ReqCache

variable {H S T : Type} (q : ReqCache H S T) (toView number : Int)

def request (view : Int) (idx : Nat) : Option (PBFTMsg H S) :=
  (q.recvViewChangeReq.find? view).bind fun m => m.find? idx

def Counts (x : Seen) : Prop :=
  ∃ req, q.request x.view x.idx = some req ∧ toView < x.view ∧ number ≤ req.height ∧ req.height = x.height

def Highest (x : Seen) : Prop :=
  q.Counts toView number x ∧ ∀ y, q.Counts toView number y → y.idx = x.idx → y.view ≤ x.view

def countedOf (e : Int × AssocMap Nat (PBFTMsg H S)) : List Seen :=
  if toView < e.1 then
    (e.2.entries.filter fun r => decide (number ≤ r.2.height)).map fun r => ⟨e.1, r.1, r.2.height⟩
  else []

def counted : List Seen := q.recvViewChangeReq.entries.flatMap (countedOf toView number)

def sealersAbove : Finset Nat := ((q.counted toView number).map Seen.idx).toFinset

structure Reordered (q q' : ReqCache H S T) : Prop where
  request : ∀ view idx, q'.request view idx = q.request view idx
  committed : q'.committedPrepareCache = q.committedPrepareCache

/-- In every order of the maps, the answer is the same; the trigger needs more
    sealers than `maxInvalidNodeNum`, and the view is then the least of their
    highest views. -/
def TriggersRightly (maxInvalidNodeNum : Nat) (consensusBlockNumber : Int) : Prop :=
  ∀ q', Reordered q q' →
    q'.canTriggerViewChange maxInvalidNodeNum toView number consensusBlockNumber
        = q.canTriggerViewChange maxInvalidNodeNum toView number consensusBlockNumber
      ∧ ((q'.canTriggerViewChange maxInvalidNodeNum toView number consensusBlockNumber).1 = true →
        maxInvalidNodeNum < (q.sealersAbove toView number).card
        ∧ IsLeast {view | ∃ x, q.Highest toView number x ∧ x.view = view}
          (q'.canTriggerViewChange maxInvalidNodeNum toView number consensusBlockNumber).2)

/-- Some order of the views reaches the request before the higher ones of its
    sealer, and every request below the height `c` after a higher one of its own:
    `G` are the higher views that come first. -/
def Exposed (c : Int) (x : Seen) : Prop :=
  ∃ G : Set Int,
    (∀ view ∈ G, x.view < view ∧ ∀ y, q.Counts toView number y → y.idx = x.idx → y.view ≠ view)
    ∧ ∀ y, q.Counts toView number y → y.height < c → y.view = x.view ∨ y.view ∈ G →
      ∃ z, q.Counts toView number z ∧ z.idx = y.idx ∧ y.view < z.view ∧ z.view ∈ G

/-- Whether the least height is `c` does not depend on the order. -/
def HeightFree (c : Int) : Prop :=
  (∃ x, q.Highest toView number x ∧ x.height < c)
  ∨ ((∃ x, q.Highest toView number x ∧ x.height = c) ∧ ∀ x, q.Counts toView number x → c ≤ x.height)
  ∨ ((∀ x, q.Highest toView number x → c < x.height)
    ∧ ¬ ∃ x, q.Counts toView number x ∧ x.height = c ∧ q.Exposed toView number c x)

structure OrderFree (maxInvalidNodeNum : Nat) (consensusBlockNumber : Int) : Prop where
  views : ∀ x, q.Counts toView number x → ∃ y, q.Highest toView number y ∧ y.view ≤ x.view
  heights : maxInvalidNodeNum < (q.sealersAbove toView number).card % 65536 →
    q.committedPrepareCache.height = consensusBlockNumber → q.HeightFree toView number consensusBlockNumber

def Fits : Prop :=
  ∀ view idx req, q.request view idx = some req → view ≤ MAXVIEW ∧ req.height < 2 ^ 63

/-! ### The walk -/

def ViewWalk.see (w : ViewWalk) (x : Seen) : ViewWalk :=
  if (w.idxViewMap.find? x.idx).all fun v => decide (v < x.view) then
    { idxViewMap := w.idxViewMap.insert x.idx x.view
      minView := min w.minView x.view
      minHeight := min w.minHeight x.height }
  else w

structure ViewWalk.Knows (w : ViewWalk) (xs : List Seen) : Prop where
  found : ∀ i v, w.idxViewMap.find? i = some v →
    (∃ x ∈ xs, x.idx = i ∧ x.view = v) ∧ ∀ x ∈ xs, x.idx = i → x.view ≤ v
  missing : ∀ i, w.idxViewMap.find? i = none → ∀ x ∈ xs, x.idx ≠ i
  minView : ∀ b, w.minView ≤ b ↔ MAXVIEW ≤ b ∨ ∃ x, Record Seen.idx Seen.view xs x ∧ x.view ≤ b
  minHeight : ∀ b, w.minHeight ≤ b ↔
    9223372036854775807 ≤ b ∨ ∃ x, Record Seen.idx Seen.view xs x ∧ x.height ≤ b

theorem ViewWalk.knows_nil : ViewWalk.Knows {} [] where
  found := nofun
  missing := nofun
  minView b := by
    constructor
    · exact Or.inl
    · rintro (h | ⟨x, hx, -⟩)
      · exact h
      · exact absurd hx not_record_nil
  minHeight b := by
    constructor
    · exact Or.inl
    · rintro (h | ⟨x, hx, -⟩)
      · exact h
      · exact absurd hx not_record_nil

theorem min_le_iff_record {m top : Int} {f : Seen → Int} {xs : List Seen} {a : Seen}
    (hm : ∀ b, m ≤ b ↔ top ≤ b ∨ ∃ x, Record Seen.idx Seen.view xs x ∧ f x ≤ b)
    (ha : ∀ y ∈ xs, y.idx = a.idx → y.view < a.view) (b : Int) :
    min m (f a) ≤ b ↔ top ≤ b ∨ ∃ x, Record Seen.idx Seen.view (xs ++ [a]) x ∧ f x ≤ b := by
  rw [min_le_iff, hm]
  constructor
  · rintro ((h | ⟨x, hx, hle⟩) | hle)
    · exact Or.inl h
    · exact Or.inr ⟨x, record_append_singleton.mpr (Or.inl hx), hle⟩
    · exact Or.inr ⟨a, record_append_singleton.mpr (Or.inr ⟨rfl, ha⟩), hle⟩
  · rintro (h | ⟨x, hx, hle⟩)
    · exact Or.inl (Or.inl h)
    · rcases record_append_singleton.mp hx with hx | ⟨rfl, -⟩
      · exact Or.inl (Or.inr ⟨x, hx, hle⟩)
      · exact Or.inr hle

theorem ViewWalk.Knows.see {w : ViewWalk} {xs : List Seen} (h : w.Knows xs) (a : Seen) :
    (w.see a).Knows (xs ++ [a]) := by
  unfold ViewWalk.see
  split
  next hall =>
    have ha : ∀ y ∈ xs, y.idx = a.idx → y.view < a.view := by
      intro y hy hidx
      cases hfind : w.idxViewMap.find? a.idx with
      | none => exact absurd hidx (h.missing a.idx hfind y hy)
      | some v =>
        rw [hfind, Option.all_some, decide_eq_true_eq] at hall
        exact lt_of_le_of_lt ((h.found a.idx v hfind).2 y hy hidx) hall
    refine ⟨fun i v hfind => ?_, fun i hfind x hx => ?_, min_le_iff_record h.minView ha,
      min_le_iff_record h.minHeight ha⟩
    · rw [AssocMap.find?_insert] at hfind
      split at hfind
      next hi =>
        cases hfind
        subst hi
        refine ⟨⟨a, List.mem_append_right xs (List.mem_singleton.mpr rfl), rfl, rfl⟩, fun x hx hidx => ?_⟩
        rcases List.mem_append.mp hx with hx | hx
        · exact (ha x hx hidx).le
        · rw [List.mem_singleton.mp hx]
      next hi =>
        obtain ⟨⟨x, hx, hidx, hview⟩, hle⟩ := h.found i v hfind
        refine ⟨⟨x, List.mem_append_left _ hx, hidx, hview⟩, fun y hy hyidx => ?_⟩
        rcases List.mem_append.mp hy with hy | hy
        · exact hle y hy hyidx
        · rw [List.mem_singleton.mp hy] at hyidx
          exact absurd hyidx.symm hi
    · rw [AssocMap.find?_insert] at hfind
      split at hfind
      next => cases hfind
      next hi =>
        rcases List.mem_append.mp hx with hx | hx
        · exact h.missing i hfind x hx
        · rw [List.mem_singleton.mp hx]
          exact Ne.symm hi
  next hall =>
    obtain ⟨v, hfind, hv⟩ : ∃ v, w.idxViewMap.find? a.idx = some v ∧ a.view ≤ v := by
      cases hfind : w.idxViewMap.find? a.idx with
      | none =>
        rw [hfind] at hall
        exact absurd rfl hall
      | some v =>
        rw [hfind, Option.all_some, decide_eq_true_eq, not_lt] at hall
        exact ⟨v, rfl, hall⟩
    obtain ⟨⟨y, hy, hyidx, hyview⟩, hle⟩ := h.found a.idx v hfind
    have hrecord : ∀ x, Record Seen.idx Seen.view (xs ++ [a]) x ↔ Record Seen.idx Seen.view xs x := by
      intro x
      rw [record_append_singleton]
      constructor
      · rintro (hx | ⟨rfl, hlt⟩)
        · exact hx
        · exact absurd (hlt y hy hyidx) (not_lt.mpr (hyview ▸ hv))
      · exact Or.inl
    refine ⟨fun i v' hfind' => ?_, fun i hfind' x hx => ?_, fun b => ?_, fun b => ?_⟩
    · obtain ⟨⟨x, hx, hidx, hview⟩, hle'⟩ := h.found i v' hfind'
      refine ⟨⟨x, List.mem_append_left _ hx, hidx, hview⟩, fun z hz hzidx => ?_⟩
      rcases List.mem_append.mp hz with hz | hz
      · exact hle' z hz hzidx
      · rw [List.mem_singleton.mp hz] at hzidx ⊢
        rw [← hzidx, hfind] at hfind'
        cases hfind'
        exact hv
    · rcases List.mem_append.mp hx with hx | hx
      · exact h.missing i hfind' x hx
      · rw [List.mem_singleton.mp hx]
        rintro rfl
        rw [hfind] at hfind'
        cases hfind'
    · simp only [hrecord]
      exact h.minView b
    · simp only [hrecord]
      exact h.minHeight b

theorem ViewWalk.knows_foldl (xs : List Seen) : (xs.foldl ViewWalk.see {}).Knows xs := by
  induction xs using List.reverseRecOn with
  | nil => exact ViewWalk.knows_nil
  | append_singleton xs a ih =>
    rw [List.foldl_append]
    exact ih.see a

theorem ViewWalk.Knows.size {w : ViewWalk} {xs : List Seen} (h : w.Knows xs) :
    w.idxViewMap.size = (xs.map Seen.idx).toFinset.card := by
  have hkeys : (w.idxViewMap.entries.map Prod.fst).toFinset = (xs.map Seen.idx).toFinset := by
    ext i
    rw [List.mem_toFinset, List.mem_toFinset]
    constructor
    · intro hi
      cases hfind : w.idxViewMap.find? i with
      | none => exact absurd hi (AssocMap.find?_eq_none_iff.mp hfind)
      | some v =>
        obtain ⟨⟨x, hx, hidx, -⟩, -⟩ := h.found i v hfind
        exact List.mem_map.mpr ⟨x, hx, hidx⟩
    · intro hi
      obtain ⟨x, hx, rfl⟩ := List.mem_map.mp hi
      by_contra hnot
      exact h.missing x.idx (AssocMap.find?_eq_none_iff.mpr hnot) x hx rfl
  rw [← hkeys, List.toFinset_card_of_nodup w.idxViewMap.nodup, List.length_map]
  rfl

section walk

variable {H S T : Type} {q q' : ReqCache H S T} {toView number : Int} {x : Seen}

theorem viewWalk_eq : q.viewWalk toView number = (q.counted toView number).foldl ViewWalk.see {} := by
  have hinner : ∀ (view : Int) (rs : List (Nat × PBFTMsg H S)) (w : ViewWalk),
      rs.foldl (ViewWalk.visit number view) w
        = ((rs.filter fun r => decide (number ≤ r.2.height)).map fun r => (⟨view, r.1, r.2.height⟩ : Seen)).foldl
          ViewWalk.see w := by
    intro view rs
    induction rs with
    | nil => exact fun _ => rfl
    | cons r rs ih =>
      intro w
      rw [List.foldl_cons, ih, List.filter_cons]
      by_cases hheight : number ≤ r.2.height
      · have hvisit : ViewWalk.visit number view w r = w.see ⟨view, r.1, r.2.height⟩ := by
          rw [ViewWalk.visit, decide_eq_true hheight, Bool.and_true]
          rfl
        rw [if_pos (decide_eq_true hheight), List.map_cons, List.foldl_cons, hvisit]
      · have hvisit : ViewWalk.visit number view w r = w := by
          rw [ViewWalk.visit, decide_eq_false hheight, Bool.and_false, if_neg Bool.false_ne_true]
        rw [if_neg (by rw [decide_eq_false hheight]; exact Bool.false_ne_true), hvisit]
  unfold viewWalk counted
  generalize ({} : ViewWalk) = w
  induction q.recvViewChangeReq.entries generalizing w with
  | nil => rfl
  | cons e es ih =>
    rw [List.foldl_cons, ih, List.flatMap_cons, List.foldl_append, countedOf]
    split
    · rw [hinner]
    · rfl

theorem mem_counted : x ∈ q.counted toView number ↔ q.Counts toView number x := by
  rw [counted, List.mem_flatMap]
  constructor
  · rintro ⟨⟨view, m⟩, he, hx⟩
    unfold countedOf at hx
    split at hx
    next hview =>
      obtain ⟨⟨idx, req⟩, hr, rfl⟩ := List.mem_map.mp hx
      obtain ⟨hr, hheight⟩ := List.mem_filter.mp hr
      refine ⟨req, ?_, hview, of_decide_eq_true hheight, rfl⟩
      rw [request, AssocMap.mem_entries_iff.mp he]
      exact AssocMap.mem_entries_iff.mp hr
    next => cases hx
  · rintro ⟨req, hreq, hview, hheight, heq⟩
    obtain ⟨m, hm, hreq⟩ := Option.bind_eq_some_iff.mp hreq
    refine ⟨(x.view, m), AssocMap.mem_entries_iff.mpr hm, ?_⟩
    rw [countedOf, if_pos hview]
    refine List.mem_map.mpr ⟨(x.idx, req), List.mem_filter.mpr ⟨AssocMap.mem_entries_iff.mpr hreq, ?_⟩, ?_⟩
    · exact decide_eq_true hheight
    · rw [heq]

theorem Counts.eq {y : Seen} (hx : q.Counts toView number x) (hy : q.Counts toView number y)
    (hidx : x.idx = y.idx) (hview : x.view = y.view) : x = y := by
  obtain ⟨req, hreq, -, -, hheight⟩ := hx
  obtain ⟨req', hreq', -, -, hheight'⟩ := hy
  obtain ⟨view, idx, height⟩ := x
  obtain ⟨view', idx', height'⟩ := y
  dsimp only at *
  subst hidx hview hheight hheight'
  rw [hreq] at hreq'
  cases hreq'
  rfl

theorem Reordered.counts (h : Reordered q q') : q'.Counts toView number x ↔ q.Counts toView number x := by
  unfold Counts
  rw [h.request]

theorem Reordered.sealersAbove (h : Reordered q q') :
    q'.sealersAbove toView number = q.sealersAbove toView number := by
  ext i
  simp only [ReqCache.sealersAbove, List.mem_toFinset, List.mem_map, mem_counted, h.counts]

/-! ### Orders as ranks of the views -/

def Early {ρ : Type} [LT ρ] (q : ReqCache H S T) (toView number : Int) (rank : Int → ρ) (x : Seen) : Prop :=
  q.Counts toView number x
    ∧ ∀ y, q.Counts toView number y → y.idx = x.idx → x.view < y.view → rank x.view < rank y.view

theorem record_iff_early {ρ : Type} [LinearOrder ρ] {rank : Int → ρ}
    (hsorted : q.recvViewChangeReq.entries.Pairwise fun d e => rank d.1 ≤ rank e.1)
    (hrank : ∀ y, q.Counts toView number y → ∀ z, q.Counts toView number z → rank y.view = rank z.view →
      y.view = z.view) :
    Record Seen.idx Seen.view (q.counted toView number) x ↔ Early q toView number rank x := by
  have hview : ∀ e, ∀ y ∈ countedOf (S := S) (H := H) toView number e, y.view = e.1 := by
    intro e y hy
    unfold countedOf at hy
    split at hy
    · obtain ⟨r, -, rfl⟩ := List.mem_map.mp hy
      rfl
    · cases hy
  have hcounted : (q.counted toView number).Pairwise fun y z => rank y.view ≤ rank z.view := by
    rw [counted, List.pairwise_flatMap]
    refine ⟨fun e _ => List.pairwise_of_forall_mem_list fun y hy z hz => ?_,
      hsorted.imp fun hle y hy z hz => ?_⟩
    · rw [hview e y hy, hview e z hz]
    · rw [hview _ y hy, hview _ z hz]
      exact hle
  have hmem : ∀ {x}, x ∈ q.counted toView number → q.Counts toView number x := mem_counted.mp
  by_cases hx : q.Counts toView number x
  · rw [record_iff_rank hcounted (fun y hy z hz => hrank y (hmem hy) z (hmem hz))
      (fun y hy z hz => (hmem hy).eq (hmem hz)) (mem_counted.mpr hx)]
    constructor
    · exact fun h => ⟨hx, fun y hy => h y (mem_counted.mpr hy)⟩
    · exact fun h y hy => h.2 y (hmem hy)
  · exact ⟨fun h => absurd (hmem h.mem) hx, fun h => absurd h.1 hx⟩

theorem exists_rank (q : ReqCache H S T) (toView number : Int) : ∃ rank : Int → Nat,
    (∀ y, q.Counts toView number y → ∀ z, q.Counts toView number z → rank y.view = rank z.view →
      y.view = z.view)
    ∧ ∀ x, Record Seen.idx Seen.view (q.counted toView number) x ↔ Early q toView number rank x := by
  have hkey : ∀ y, q.Counts toView number y → y.view ∈ q.recvViewChangeReq.entries.map Prod.fst := by
    rintro y ⟨req, hreq, -⟩
    obtain ⟨m, hm, -⟩ := Option.bind_eq_some_iff.mp hreq
    exact List.mem_map_of_mem (AssocMap.mem_entries_iff.mpr hm)
  have hinj : ∀ y, q.Counts toView number y → ∀ z, q.Counts toView number z →
      (q.recvViewChangeReq.entries.map Prod.fst).idxOf y.view
        = (q.recvViewChangeReq.entries.map Prod.fst).idxOf z.view → y.view = z.view :=
    fun y hy z _ heq => (List.idxOf_inj (hkey y hy)).mp heq
  refine ⟨(q.recvViewChangeReq.entries.map Prod.fst).idxOf, hinj, fun x => record_iff_early ?_ hinj⟩
  rw [← List.pairwise_map (f := Prod.fst) (R := fun a b =>
    (q.recvViewChangeReq.entries.map Prod.fst).idxOf a ≤ (q.recvViewChangeReq.entries.map Prod.fst).idxOf b)]
  rw [List.pairwise_iff_getElem]
  intro i j hi hj hij
  rw [q.recvViewChangeReq.nodup.idxOf_getElem, q.recvViewChangeReq.nodup.idxOf_getElem]
  exact hij.le

def reorder {ρ : Type} [LinearOrder ρ] (q : ReqCache H S T) (rank : Int → ρ) : ReqCache H S T :=
  { q with
    recvViewChangeReq :=
      { entries := q.recvViewChangeReq.entries.insertionSort fun d e => rank d.1 ≤ rank e.1
        nodup := ((List.perm_insertionSort _ _).map Prod.fst).nodup_iff.mpr q.recvViewChangeReq.nodup } }

theorem reordered_reorder {ρ : Type} [LinearOrder ρ] (q : ReqCache H S T) (rank : Int → ρ) :
    Reordered q (q.reorder rank) where
  request view idx := by
    have hfind : (q.reorder rank).recvViewChangeReq.find? view = q.recvViewChangeReq.find? view := by
      rw [AssocMap.find?_ext_iff]
      intro m
      rw [← AssocMap.mem_entries_iff]
      exact (List.perm_insertionSort _ _).mem_iff
    rw [request, request, hfind]
  committed := rfl

structure Walked {ρ : Type} [LinearOrder ρ] (q q' : ReqCache H S T) (toView number : Int) (rank : Int → ρ) :
    Prop where
  reordered : Reordered q q'
  inj : ∀ y, q.Counts toView number y → ∀ z, q.Counts toView number z → rank y.view = rank z.view →
    y.view = z.view
  record : ∀ x, Record Seen.idx Seen.view (q'.counted toView number) x ↔ Early q toView number rank x

theorem Reordered.early {ρ : Type} [LT ρ] {rank : Int → ρ} (h : Reordered q q') :
    Early q' toView number rank x ↔ Early q toView number rank x := by
  unfold Early
  simp only [h.counts]

theorem Reordered.walked (h : Reordered q q') (toView number : Int) :
    ∃ rank : Int → Nat, Walked q q' toView number rank := by
  obtain ⟨rank, hinj, hrecord⟩ := exists_rank q' toView number
  exact ⟨rank, h, fun y hy z hz => hinj y (h.counts.mpr hy) z (h.counts.mpr hz),
    fun x => (hrecord x).trans h.early⟩

theorem walked_reorder {ρ : Type} [LinearOrder ρ] (q : ReqCache H S T) (toView number : Int) {rank : Int → ρ}
    (hinj : Function.Injective rank) : Walked q (q.reorder rank) toView number rank := by
  have hreordered := reordered_reorder q rank
  refine ⟨hreordered, fun y _ z _ heq => hinj heq, fun x => ?_⟩
  rw [← hreordered.early]
  refine record_iff_early ?_ fun y _ z _ heq => hinj heq
  have htotal : Std.Total fun d e : Int × AssocMap Nat (PBFTMsg H S) => rank d.1 ≤ rank e.1 :=
    ⟨fun _ _ => le_total _ _⟩
  have htrans : IsTrans (Int × AssocMap Nat (PBFTMsg H S)) fun d e => rank d.1 ≤ rank e.1 :=
    ⟨fun _ _ _ => le_trans⟩
  exact List.pairwise_insertionSort _ _

section walked

variable {ρ : Type} [LinearOrder ρ] {rank : Int → ρ}

theorem Walked.minView (h : Walked q q' toView number rank) (b : Int) :
    (q'.viewWalk toView number).minView ≤ b ↔
      MAXVIEW ≤ b ∨ ∃ x, Early q toView number rank x ∧ x.view ≤ b := by
  rw [viewWalk_eq, (ViewWalk.knows_foldl _).minView]
  simp only [h.record]

theorem Walked.minHeight (h : Walked q q' toView number rank) (b : Int) :
    (q'.viewWalk toView number).minHeight ≤ b ↔
      9223372036854775807 ≤ b ∨ ∃ x, Early q toView number rank x ∧ x.height ≤ b := by
  rw [viewWalk_eq, (ViewWalk.knows_foldl _).minHeight]
  simp only [h.record]

theorem Walked.size (h : Walked q q' toView number rank) :
    (q'.viewWalk toView number).idxViewMap.size = (q.sealersAbove toView number).card := by
  rw [viewWalk_eq, (ViewWalk.knows_foldl _).size, ← h.reordered.sealersAbove]
  rfl

theorem Walked.answer (h : Walked q q' toView number rank) (maxInvalidNodeNum : Nat) (c : Int) :
    q'.canTriggerViewChange maxInvalidNodeNum toView number c
      = (decide (maxInvalidNodeNum < (q.sealersAbove toView number).card % 65536)
          && !(decide ((q'.viewWalk toView number).minHeight = c)
            && decide ((q'.viewWalk toView number).minHeight = q.committedPrepareCache.height)),
        (q'.viewWalk toView number).minView) := by
  rw [canTriggerViewChange, h.size, h.reordered.committed]

theorem Highest.early (hx : q.Highest toView number x) : Early q toView number rank x :=
  ⟨hx.1, fun y hy hidx hlt => absurd (hx.2 y hy hidx) (not_le.mpr hlt)⟩

end walked

theorem Early.highest (hx : Early q toView number (fun v : Int => -v) x) : q.Highest toView number x := by
  refine ⟨hx.1, fun y hy hidx => ?_⟩
  by_contra hlt
  have hneg : -x.view < -y.view := hx.2 y hy hidx (not_le.mp hlt)
  omega

theorem Counts.exists_highest (hx : q.Counts toView number x) :
    ∃ y, q.Highest toView number y ∧ y.idx = x.idx ∧ x.view ≤ y.view := by
  have hknows := ViewWalk.knows_foldl (q.counted toView number)
  cases hfind : ((q.counted toView number).foldl ViewWalk.see {}).idxViewMap.find? x.idx with
  | none => exact absurd rfl (hknows.missing _ hfind x (mem_counted.mpr hx))
  | some v =>
    obtain ⟨⟨y, hy, hidx, rfl⟩, hle⟩ := hknows.found _ _ hfind
    refine ⟨y, ⟨mem_counted.mp hy, fun z hz hzidx => ?_⟩, hidx, hle x (mem_counted.mpr hx) rfl⟩
    exact hle z (mem_counted.mpr hz) (hzidx.trans hidx)

theorem exists_counts {n : Nat} (h : n < (q.sealersAbove toView number).card) :
    ∃ x, q.Counts toView number x := by
  obtain ⟨i, hi⟩ := Finset.card_pos.mp (lt_of_le_of_lt (Nat.zero_le n) h)
  obtain ⟨x, hx, -⟩ := List.mem_map.mp (List.mem_toFinset.mp hi)
  exact ⟨x, mem_counted.mp hx⟩

/-! ### Where the order does not matter -/

section orderFree

variable {ρ : Type} [LinearOrder ρ] {rank : Int → ρ}

theorem Counts.view_le (hfits : q.Fits) (hx : q.Counts toView number x) : x.view ≤ MAXVIEW := by
  obtain ⟨req, hreq, -⟩ := hx
  exact (hfits _ _ _ hreq).1

theorem Counts.height_lt (hfits : q.Fits) (hx : q.Counts toView number x) : x.height < 2 ^ 63 := by
  obtain ⟨req, hreq, -, -, heq⟩ := hx
  exact heq ▸ (hfits _ _ _ hreq).2

theorem Walked.isLeast (h : Walked q q' toView number rank) (hfits : q.Fits)
    (hviews : ∀ x, q.Counts toView number x → ∃ y, q.Highest toView number y ∧ y.view ≤ x.view)
    (hsome : ∃ x, q.Counts toView number x) :
    IsLeast {view | ∃ x, q.Highest toView number x ∧ x.view = view} (q'.viewWalk toView number).minView := by
  have hlower : ∀ y, q.Highest toView number y → (q'.viewWalk toView number).minView ≤ y.view :=
    fun y hy => (h.minView y.view).mpr (Or.inr ⟨y, hy.early, le_refl _⟩)
  refine ⟨?_, ?_⟩
  · rcases (h.minView _).mp (le_refl _) with htop | ⟨x, hx, hle⟩
    · obtain ⟨x, hx⟩ := hsome
      obtain ⟨y, hy, -⟩ := hx.exists_highest
      exact ⟨y, hy, le_antisymm ((hy.1.view_le hfits).trans htop) (hlower y hy)⟩
    · obtain ⟨y, hy, hyx⟩ := hviews x hx.1
      exact ⟨y, hy, le_antisymm (hyx.trans hle) (hlower y hy)⟩
  · rintro _ ⟨y, hy, rfl⟩
    exact hlower y hy

theorem HeightFree.iff {c : Int} (hfree : q.HeightFree toView number c) (hfits : q.Fits)
    (hsome : ∃ x, q.Counts toView number x) (h : Walked q q' toView number rank) :
    (q'.viewWalk toView number).minHeight = c ↔
      (∃ x, q.Highest toView number x ∧ x.height = c) ∧ ∀ x, q.Counts toView number x → c ≤ x.height := by
  have hlower : ∀ {b : Int}, b ≤ (q'.viewWalk toView number).minHeight ↔
      b ≤ 9223372036854775807 ∧ ∀ x, Early q toView number rank x → b ≤ x.height := by
    intro b
    have hle := h.minHeight (b - 1)
    constructor
    · intro hb
      refine ⟨?_, fun x hx => ?_⟩
      · by_contra hnot
        have := hle.mpr (Or.inl (by omega))
        omega
      · by_contra hnot
        have := hle.mpr (Or.inr ⟨x, hx, by omega⟩)
        omega
    · rintro ⟨htop, hall⟩
      by_contra hnot
      rcases hle.mp (by omega) with hmax | ⟨x, hx, hxb⟩
      · omega
      · have := hall x hx
        omega
  constructor
  · intro heq
    rcases hfree with ⟨x, hx, hlt⟩ | hall | ⟨habove, hnone⟩
    · have := (hlower.mp heq.ge).2 x hx.early
      omega
    · exact hall
    · exfalso
      rcases (h.minHeight c).mp heq.le with htop | ⟨x, hx, hle⟩
      · obtain ⟨x, hx⟩ := hsome
        obtain ⟨y, hy, -⟩ := hx.exists_highest
        have := habove y hy
        have := hy.1.height_lt hfits
        omega
      · have hge := (hlower.mp heq.ge).2
        refine hnone ⟨x, hx.1, le_antisymm hle (hge x hx), {v | x.view < v ∧ rank v < rank x.view},
          fun v hv => ⟨hv.1, ?_⟩, fun y hy hlow hplace => ?_⟩
        · rintro y hy hidx rfl
          exact lt_asymm hv.2 (hx.2 y hy hidx hv.1)
        · -- a lower request is not early, so a higher one of its sealer comes first
          have hnot : ¬ Early q toView number rank y := fun hearly =>
            absurd (hge y hearly) (not_le.mpr hlow)
          obtain ⟨z, hz, hzidx, hlt, hrank⟩ : ∃ z, q.Counts toView number z ∧ z.idx = y.idx
              ∧ y.view < z.view ∧ ¬ rank y.view < rank z.view := by
            by_contra hno
            refine hnot ⟨hy, fun z hz hzidx hlt => ?_⟩
            by_contra hrank
            exact hno ⟨z, hz, hzidx, hlt, hrank⟩
          have hzy : rank z.view < rank y.view := by
            refine lt_of_le_of_ne (not_lt.mp hrank) fun heq' => ?_
            exact absurd (h.inj z hz y hy heq') (ne_of_gt hlt)
          refine ⟨z, hz, hzidx, hlt, ?_⟩
          rcases hplace with hview | ⟨hgt, hbefore⟩
          · rw [hview] at hzy hlt
            exact ⟨hlt, hzy⟩
          · exact ⟨hgt.trans hlt, hzy.trans hbefore⟩
  · rintro ⟨⟨x, hx, rfl⟩, hall⟩
    refine le_antisymm ((h.minHeight _).mpr (Or.inr ⟨x, hx.early, le_refl _⟩)) (hlower.mpr ⟨?_, ?_⟩)
    · have := hx.1.height_lt hfits
      omega
    · exact fun y hy => hall y hy.1

/-- **The trigger does not depend on the order.** -/
theorem OrderFree.triggersRightly {maxInvalidNodeNum : Nat} {c : Int} (hfits : q.Fits)
    (hfree : q.OrderFree toView number maxInvalidNodeNum c) :
    q.TriggersRightly toView number maxInvalidNodeNum c := by
  intro q' hreordered
  obtain ⟨rank, h⟩ := hreordered.walked toView number
  obtain ⟨rank₀, h₀⟩ : ∃ rank : Int → Nat, Walked q q toView number rank :=
    Reordered.walked ⟨fun _ _ => rfl, rfl⟩ toView number
  have hview : (q'.viewWalk toView number).minView = (q.viewWalk toView number).minView := by
    by_cases hsome : ∃ x, q.Counts toView number x
    · exact (h.isLeast hfits hfree.views hsome).unique (h₀.isLeast hfits hfree.views hsome)
    · have hno : ∀ {ρ : Type} [LinearOrder ρ] {rank : Int → ρ} {q' : ReqCache H S T},
          Walked q q' toView number rank → ∀ b, (q'.viewWalk toView number).minView ≤ b ↔ MAXVIEW ≤ b := by
        intro ρ _ rank q' h b
        rw [h.minView]
        exact ⟨fun hb => hb.elim id fun ⟨x, hx, _⟩ => absurd ⟨x, hx.1⟩ hsome, Or.inl⟩
      exact le_antisymm ((hno h _).mpr ((hno h₀ _).mp (le_refl _)))
        ((hno h₀ _).mpr ((hno h _).mp (le_refl _)))
  rw [h.answer, h₀.answer, hview]
  by_cases hcount : maxInvalidNodeNum < (q.sealersAbove toView number).card % 65536
  · have hcard := lt_of_lt_of_le hcount (Nat.mod_le _ _)
    have hsome := exists_counts hcard
    refine ⟨?_, fun _ => ⟨hcard, h₀.isLeast hfits hfree.views hsome⟩⟩
    by_cases hheight : q.committedPrepareCache.height = c
    · have hheights := hfree.heights hcount hheight
      have hflag := (hheights.iff hfits hsome h).trans (hheights.iff hfits hsome h₀).symm
      rw [hheight]
      simp only [hflag]
    · have hboth : ∀ n : Int, (decide (n = c) && decide (n = q.committedPrepareCache.height)) = false := by
        intro n
        rw [Bool.and_eq_false_iff, decide_eq_false_iff_not, decide_eq_false_iff_not]
        by_cases hn : n = c
        · exact Or.inr fun heq => hheight (heq.symm.trans hn)
        · exact Or.inl hn
      rw [hboth, hboth]
  · refine ⟨by rw [decide_eq_false hcount, Bool.false_and, Bool.false_and], fun htrue => ?_⟩
    rw [decide_eq_false hcount, Bool.false_and] at htrue
    cases htrue

end orderFree

/-! ### Where it does -/

/-- The rank of an order in which the views of a class come before those of the
    next, and higher views first. -/
def classRank (cls : Int → Nat) (v : Int) : Nat ×ₗ Int := toLex (cls v, -v)

theorem classRank_lt {cls : Int → Nat} {v v' : Int} :
    classRank cls v < classRank cls v' ↔ cls v < cls v' ∨ (cls v = cls v' ∧ v' < v) := by
  rw [classRank, classRank, Prod.Lex.toLex_lt_toLex]
  simp only [neg_lt_neg_iff]

theorem classRank_injective (cls : Int → Nat) : Function.Injective (classRank cls) := by
  intro v v' h
  have hpair := congrArg ofLex h
  exact neg_injective (congrArg Prod.snd hpair)

theorem early_first {v : Int} (hx : q.Counts toView number x) (hv : x.view = v) :
    Early q toView number (classRank fun u => if u = v then 0 else 1) x := by
  refine ⟨hx, fun y _ _ hlt => classRank_lt.mpr (Or.inl ?_)⟩
  rw [if_pos hv, if_neg (by rw [← hv]; exact ne_of_gt hlt)]
  exact Nat.zero_lt_one

/-- **Where the trigger is right in every order, no request is in the way.** -/
theorem TriggersRightly.orderFree {maxInvalidNodeNum : Nat} {c : Int} (hfits : q.Fits)
    (hright : q.TriggersRightly toView number maxInvalidNodeNum c) :
    q.OrderFree toView number maxInvalidNodeNum c := by
  have hsame : ∀ {q₁ q₂ : ReqCache H S T}, Reordered q q₁ → Reordered q q₂ →
      q₁.canTriggerViewChange maxInvalidNodeNum toView number c
        = q₂.canTriggerViewChange maxInvalidNodeNum toView number c :=
    fun h₁ h₂ => (hright _ h₁).1.trans (hright _ h₂).1.symm
  have hdown : Walked q (q.reorder fun v : Int => -v) toView number fun v : Int => -v :=
    walked_reorder q toView number neg_injective
  have hfirst : ∀ v, Walked q (q.reorder (classRank fun u => if u = v then 0 else 1)) toView number
      (classRank fun u => if u = v then 0 else 1) := fun v => walked_reorder q toView number (classRank_injective _)
  constructor
  · intro x hx
    by_contra hnone
    have hanswer := congrArg Prod.snd (hsame hdown.reordered (hfirst x.view).reordered)
    rw [hdown.answer, (hfirst x.view).answer] at hanswer
    have hle : ((q.reorder fun v : Int => -v).viewWalk toView number).minView ≤ x.view := by
      have hwalk := ((hfirst x.view).minView x.view).mpr (Or.inr ⟨x, early_first hx rfl, le_refl _⟩)
      exact hanswer.trans_le hwalk
    rcases (hdown.minView x.view).mp hle with htop | ⟨y, hy, hyx⟩
    · obtain ⟨y, hy, -, hxy⟩ := hx.exists_highest
      exact hnone ⟨y, hy, (hy.1.view_le hfits).trans htop⟩
    · exact hnone ⟨y, hy.highest, hyx⟩
  · intro hcount hheight
    have hflag : ∀ {ρ₁ ρ₂ : Type} [LinearOrder ρ₁] [LinearOrder ρ₂] {r₁ : Int → ρ₁} {r₂ : Int → ρ₂}
        {q₁ q₂ : ReqCache H S T}, Walked q q₁ toView number r₁ → Walked q q₂ toView number r₂ →
        ((q₁.viewWalk toView number).minHeight = c ↔ (q₂.viewWalk toView number).minHeight = c) := by
      intro ρ₁ ρ₂ _ _ r₁ r₂ q₁ q₂ h₁ h₂
      have hanswer := congrArg Prod.fst (hsame h₁.reordered h₂.reordered)
      rw [h₁.answer, h₂.answer, hheight, decide_eq_true hcount, Bool.true_and, Bool.true_and, Bool.and_self,
        Bool.and_self] at hanswer
      exact decide_eq_decide.mp (Bool.not_inj hanswer)
    obtain ⟨x₀, hx₀⟩ := exists_counts (lt_of_lt_of_le hcount (Nat.mod_le _ _))
    obtain ⟨top, htop, -⟩ := hx₀.exists_highest
    by_cases hbelow : ∃ x, q.Highest toView number x ∧ x.height < c
    · exact Or.inl hbelow
    have habove : ∀ x, q.Highest toView number x → c ≤ x.height := fun x hx =>
      not_lt.mp fun hlt => hbelow ⟨x, hx, hlt⟩
    have hmax : c < 9223372036854775807 ∨ c = 9223372036854775807 := by
      have := habove top htop
      have := htop.1.height_lt hfits
      omega
    have hdownHeight : ∀ b, ((q.reorder fun v : Int => -v).viewWalk toView number).minHeight ≤ b →
        9223372036854775807 ≤ b ∨ ∃ x, q.Highest toView number x ∧ x.height ≤ b := by
      intro b hb
      rcases (hdown.minHeight b).mp hb with h | ⟨x, hx, hle⟩
      · exact Or.inl h
      · exact Or.inr ⟨x, hx.highest, hle⟩
    by_cases hat : ∃ x, q.Highest toView number x ∧ x.height = c
    · refine Or.inr (Or.inl ⟨hat, fun x hx => ?_⟩)
      obtain ⟨y, hy, hyc⟩ := hat
      have heq : ((q.reorder fun v : Int => -v).viewWalk toView number).minHeight = c := by
        refine le_antisymm ((hdown.minHeight c).mpr (Or.inr ⟨y, hy.early, hyc.le⟩)) ?_
        by_contra hlt
        rcases hdownHeight (c - 1) (by omega) with h | ⟨z, hz, hle⟩
        · omega
        · have := habove z hz
          omega
      have hfirstEq := (hflag hdown (hfirst x.view)).mp heq
      rw [← hfirstEq]
      exact ((hfirst x.view).minHeight x.height).mpr (Or.inr ⟨x, early_first hx rfl, le_refl _⟩)
    · have hstrict : ∀ x, q.Highest toView number x → c < x.height := fun x hx =>
        lt_of_le_of_ne (habove x hx) fun heq => hat ⟨x, hx, heq.symm⟩
      refine Or.inr (Or.inr ⟨hstrict, ?_⟩)
      rintro ⟨x, hx, hxc, G, hG, hovertaken⟩
      classical
      let cls : Int → Nat := fun v => if v ∈ G then 0 else if v = x.view then 1 else 2
      have hexposed : Walked q (q.reorder (classRank cls)) toView number (classRank cls) :=
        walked_reorder q toView number (classRank_injective _)
      have hself : cls x.view = 1 := by
        have hnot : x.view ∉ G := fun hin => lt_irrefl _ (hG _ hin).1
        simp only [cls, if_neg hnot, if_pos]
      have hearly : Early q toView number (classRank cls) x := by
        refine ⟨hx, fun y hy hidx hlt => classRank_lt.mpr (Or.inl ?_)⟩
        have hnot : y.view ∉ G := fun hin => (hG _ hin).2 y hy hidx rfl
        have hother : cls y.view = 2 := by simp only [cls, if_neg hnot, if_neg (ne_of_gt hlt)]
        rw [hself, hother]
        exact Nat.one_lt_two
      have hlow : ∀ y, Early q toView number (classRank cls) y → c ≤ y.height := by
        intro y hy
        by_contra hlt
        by_cases hplace : y.view = x.view ∨ y.view ∈ G
        · obtain ⟨z, hz, hzidx, hzlt, hzG⟩ := hovertaken y hy.1 (not_le.mp hlt) hplace
          have hzero : cls z.view = 0 := if_pos hzG
          rcases classRank_lt.mp (hy.2 z hz hzidx hzlt) with hcls | ⟨-, hview⟩
          · omega
          · exact lt_asymm hzlt hview
        · -- a request that is neither is reached late, so it is the highest one
          have htwo : cls y.view = 2 := by
            simp only [cls, if_neg fun hin => hplace (Or.inr hin), if_neg fun heq => hplace (Or.inl heq)]
          refine hlt (habove y ⟨hy.1, fun z hz hzidx => ?_⟩)
          by_contra hzlt
          have hle : cls z.view ≤ 2 := by
            simp only [cls]
            split_ifs <;> omega
          rcases classRank_lt.mp (hy.2 z hz hzidx (not_le.mp hzlt)) with hcls | ⟨-, hview⟩
          · omega
          · exact hzlt hview.le
      have heq : ((q.reorder (classRank cls)).viewWalk toView number).minHeight = c := by
        refine le_antisymm ((hexposed.minHeight c).mpr (Or.inr ⟨x, hearly, hxc.le⟩)) ?_
        by_contra hlt
        rcases (hexposed.minHeight (c - 1)).mp (by omega) with h | ⟨z, hz, hle⟩
        · omega
        · have := hlow z hz
          omega
      have hdownEq := (hflag hexposed hdown).mp heq
      rcases hdownHeight c hdownEq.le with h | ⟨z, hz, hle⟩
      · have := hstrict top htop
        have := htop.1.height_lt hfits
        omega
      · have := hstrict z hz
        omega

end walk

/-- **The fast view change is triggered alike in every order of the maps, with the
    least of the sealers' highest views, exactly where no request of an overtaken
    view is below it, and where the requests of overtaken views do not decide
    whether the least height is the committed one.** -/
theorem triggersRightly_iff {H S T : Type} (q : ReqCache H S T) (toView number : Int) (maxInvalidNodeNum : Nat)
    (consensusBlockNumber : Int) (hfits : q.Fits) :
    q.TriggersRightly toView number maxInvalidNodeNum consensusBlockNumber
      ↔ q.OrderFree toView number maxInvalidNodeNum consensusBlockNumber :=
  ⟨TriggersRightly.orderFree hfits, OrderFree.triggersRightly hfits⟩

def sampleRequest (view : Int) : PBFTMsg Nat Nat where
  height := 0
  view := view
  idx := 0
  blockHash := 0
  sig := 0
  sig2 := 0

def sampleCache : ReqCache Nat Nat Nat where
  prepareCache := { sampleRequest 0 with block := ⟨none, .txs none, none, none⟩ }
  rawPrepareCache := { sampleRequest 0 with block := ⟨none, .txs none, none, none⟩ }
  committedPrepareCache := { sampleRequest 0 with block := ⟨none, .txs none, none, none⟩ }
  recvViewChangeReq := ⟨[(7, ⟨[(0, sampleRequest 7)], by decide⟩), (5, ⟨[(0, sampleRequest 5)], by decide⟩)],
    by decide⟩

theorem fits_sampleCache : sampleCache.Fits := by
  intro view idx req hreq
  obtain ⟨m, hm, hreq⟩ := Option.bind_eq_some_iff.mp hreq
  have hentry : (view, m) ∈ sampleCache.recvViewChangeReq.entries := AssocMap.mem_entries_iff.mpr hm
  have hpair : (idx, req) ∈ m.entries := AssocMap.mem_entries_iff.mpr hreq
  rcases List.mem_cons.mp hentry with heq | hentry
  · obtain ⟨rfl, rfl⟩ := Prod.mk.inj heq
    obtain ⟨rfl, rfl⟩ := Prod.mk.inj (List.mem_singleton.mp hpair)
    decide
  · obtain ⟨rfl, rfl⟩ := Prod.mk.inj (List.mem_singleton.mp hentry)
    obtain ⟨rfl, rfl⟩ := Prod.mk.inj (List.mem_singleton.mp hpair)
    decide

theorem triggersRightly_iff_sampleCache :
    sampleCache.Fits ∧ (sampleCache.TriggersRightly 1 0 0 1 ↔ sampleCache.OrderFree 1 0 0 1) :=
  ⟨fits_sampleCache, triggersRightly_iff sampleCache 1 0 0 1 fits_sampleCache⟩

/-- Two views of one sealer: the walk answers 7 when it comes to the view 7 first,
    and 5 when it comes to the view 5 first. -/
theorem not_triggersRightly_sampleCache : ¬ sampleCache.TriggersRightly 1 0 0 1 := by
  intro hright
  have hsame := (hright (sampleCache.reorder fun v : Int => v) (reordered_reorder _ _)).1
  exact absurd hsame (by decide)

end ReqCache

end HieraChain.PBFT
