/-
  HieraChain/BlockRequests.lean
  =============================
  **No requested block is skipped.**

  What `topAndPop` merges is one range with the union of the merged ranges
  (`mergeTops_spec`), so a queue that is emptied gives disjoint ranges in
  increasing order (`drain_spec`).  Every number that was asked for has been sent
  or is still in the queue or in the range being served (`Inv.kept`), as long as
  no request is negative or overflows and the queue has room when a rest is
  written back.

  Every block that is sent leaves one less to send (`Advances.load`).
-/
import HieraChain.Machine
import HieraChain.RspBlockReq
import Mathlib.Algebra.Order.BigOperators.Group.List

namespace HieraChain.RspBlockReq

open HieraChain.Int64

/-! ### Merging -/

def Covered (q : List DownloadRequest) (b : Int) : Prop := ∃ r ∈ q, r.fromNumber ≤ b ∧ b < r.limit

theorem covered_nil (b : Int) : ¬ Covered [] b := by
  rintro ⟨r, hr, -⟩
  cases hr

theorem covered_cons (r : DownloadRequest) (q : List DownloadRequest) (b : Int) :
    Covered (r :: q) b ↔ (r.fromNumber ≤ b ∧ b < r.limit) ∨ Covered q b := by
  simp only [Covered, List.mem_cons, exists_eq_or_imp]

structure Fit (r : DownloadRequest) : Prop where
  low : -2 ^ 63 ≤ r.fromNumber
  size : 0 ≤ r.size
  high : r.limit < 2 ^ 63

/-- The merged size stays in 64 bits: it ends where a request ends, or no longer
    range than all requests together can come out. -/
def Room (fromNumber size : Int) (q : List DownloadRequest) : Prop :=
  0 ≤ fromNumber ∨ size + (q.map DownloadRequest.size).sum < 2 ^ 63
    ∨ size = 0 ∧ ∀ r ∈ q, r.fromNumber ≤ fromNumber → r.size = 0

theorem Room.next {fromNumber size : Int} {r : DownloadRequest} {q : List DownloadRequest}
    (h : Room fromNumber size (r :: q)) (hq : ∀ r' ∈ r :: q, Fit r') (hlow : fromNumber ≤ r.fromNumber)
    (htop : r.fromNumber ≤ fromNumber + size) :
    r.limit - fromNumber < 2 ^ 63 ∧ Room fromNumber (max size (r.limit - fromNumber)) q := by
  have hr := hq r List.mem_cons_self
  have hhigh := hr.high
  have hrsize := hr.size
  have hlimit : r.limit = r.fromNumber + r.size := rfl
  have hsum : 0 ≤ (q.map DownloadRequest.size).sum := by
    apply List.sum_nonneg
    intro n hn
    obtain ⟨r', hr', rfl⟩ := List.mem_map.mp hn
    exact (hq r' (List.mem_cons_of_mem r hr')).size
  rcases h with hpos | htotal | ⟨hzero, hempty⟩
  · exact ⟨by omega, Or.inl hpos⟩
  · rw [List.map_cons, List.sum_cons] at htotal
    refine ⟨by omega, Or.inr (Or.inl ?_)⟩
    omega
  · have hrzero := hempty r List.mem_cons_self (by omega)
    refine ⟨by omega, Or.inr (Or.inr ⟨by omega, fun r' hr' => hempty r' (List.mem_cons_of_mem r hr')⟩)⟩

/-- The numbers from `0` to `top` of a range. -/
def upTo (top lo hi : Int) : Nat := (min hi (top + 1) - max lo 0).toNat

theorem upTo_merge {top lo hi lo' hi' : Int} (hlo : lo ≤ lo') (hmeet : lo' ≤ hi) :
    upTo top lo (max hi hi') ≤ upTo top lo hi + upTo top lo' hi' := by
  rcases le_total hi' hi with h | h
  · rw [max_eq_left h]
    exact Nat.le_add_right _ _
  · rw [max_eq_right h]
    unfold upTo
    omega

theorem upTo_succ {top lo hi : Int} (hpos : 0 ≤ lo) (htop : lo ≤ top) (hlt : lo < hi) :
    upTo top lo hi = upTo top (lo + 1) hi + 1 := by
  unfold upTo
  omega

theorem upTo_empty (top lo : Int) : upTo top lo lo = 0 := by
  unfold upTo
  omega

/-- The blocks up to `top` that the requests ask for, as often as they do. -/
def weight (top : Int) (q : List DownloadRequest) : Nat := (q.map fun r => upTo top r.fromNumber r.limit).sum

@[simp] theorem weight_nil (top : Int) : weight top [] = 0 := rfl

@[simp] theorem weight_cons (top : Int) (r : DownloadRequest) (q : List DownloadRequest) :
    weight top (r :: q) = upTo top r.fromNumber r.limit + weight top q := by
  rw [weight, weight, List.map_cons, List.sum_cons]

/-- What the loop of `topAndPop` makes of a queue. -/
structure Merged (fromNumber size : Int) (q : List DownloadRequest) (size' : Int) (rest : List DownloadRequest) :
    Prop where
  grows : size ≤ size'
  high : fromNumber + size' < 2 ^ 63
  suffix : rest <:+ q
  apart : ∀ r ∈ rest, fromNumber + size' < r.fromNumber
  covered : ∀ b, (fromNumber ≤ b ∧ b < fromNumber + size') ∨ Covered rest b
    ↔ (fromNumber ≤ b ∧ b < fromNumber + size) ∨ Covered q b
  weight_le : ∀ top, upTo top fromNumber (fromNumber + size') + weight top rest
    ≤ upTo top fromNumber (fromNumber + size) + weight top q

theorem mergeTops_spec {fromNumber : Int} (hmin : -2 ^ 63 ≤ fromNumber) {q : List DownloadRequest}
    (hsorted : q.Pairwise Above) (hq : ∀ r ∈ q, Fit r) (hlow : ∀ r ∈ q, fromNumber ≤ r.fromNumber) :
    ∀ {size : Int}, 0 ≤ size → fromNumber + size < 2 ^ 63 → Room fromNumber size q →
      ∃ size' rest, mergeTops fromNumber size q = some (size', rest) ∧ Merged fromNumber size q size' rest := by
  induction q with
  | nil =>
    intro size _ hhigh _
    exact ⟨size, [], rfl, le_refl _, hhigh, List.suffix_refl _, nofun, fun b => Iff.rfl, fun top => le_refl _⟩
  | cons r q ih =>
    intro size hsize hhigh hroom
    obtain ⟨habove, hsorted⟩ := List.pairwise_cons.mp hsorted
    have hr := hq r List.mem_cons_self
    have hrlow := hlow r List.mem_cons_self
    have hfits : Fits (fromNumber + size) := ⟨by omega, hhigh⟩
    rw [mergeTops, checked_of_fits hfits, Option.bind_some]
    by_cases htop : r.fromNumber ≤ fromNumber + size
    · have hrlimit : r.limit = r.fromNumber + r.size := rfl
      have hrhigh := hr.high
      have hrsize := hr.size
      obtain ⟨hspan, hroom⟩ := hroom.next hq hrlow htop
      obtain ⟨size', rest, hmerge, hmerged⟩ := ih hsorted (fun r' hr' => hq r' (List.mem_cons_of_mem r hr'))
        (fun r' hr' => hlow r' (List.mem_cons_of_mem r hr')) (by omega) (by omega) hroom
      have hlimitFits : Fits (r.fromNumber + r.size) := ⟨by omega, hrhigh⟩
      have hspanFits : Fits (r.fromNumber + r.size - fromNumber) := ⟨by omega, by omega⟩
      rw [if_pos htop, checked_of_fits hlimitFits, Option.bind_some, checked_of_fits hspanFits, Option.bind_some,
        ← hrlimit]
      refine ⟨size', rest, hmerge, (le_max_left _ _).trans hmerged.grows, hmerged.high,
        hmerged.suffix.trans (List.suffix_cons ..), hmerged.apart, fun b => ?_, fun top => ?_⟩
      · rw [hmerged.covered, covered_cons, ← or_assoc]
        refine or_congr_left ?_
        omega
      · have hend : fromNumber + max size (r.limit - fromNumber) = max (fromNumber + size) r.limit := by
          omega
        have hweight := hmerged.weight_le top
        rw [hend] at hweight
        have hmeet := @upTo_merge top fromNumber (fromNumber + size) r.fromNumber r.limit hrlow htop
        rw [weight_cons, ← Nat.add_assoc]
        exact hweight.trans (Nat.add_le_add_right hmeet _)
    · rw [if_neg htop]
      refine ⟨size, r :: q, rfl, le_refl _, hhigh, List.suffix_refl _, fun r' hr' => ?_, fun b => Iff.rfl,
        fun top => le_refl _⟩
      rcases List.mem_cons.mp hr' with rfl | hr'
      · exact not_le.mp htop
      · have := (above_iff _ _).mp (habove r' hr')
        omega

/-- What `topAndPop` takes from a queue that is not empty. -/
structure Popped (q : List DownloadRequest) (r : DownloadRequest) (rest : List DownloadRequest) : Prop where
  fit : Fit r
  first : ∀ r' ∈ q, r.fromNumber ≤ r'.fromNumber
  mem : ∃ r' ∈ q, r'.fromNumber = r.fromNumber
  shorter : rest.length < q.length
  suffix : rest <:+ q
  apart : ∀ r' ∈ rest, r.limit < r'.fromNumber
  covered : ∀ b, (r.fromNumber ≤ b ∧ b < r.limit) ∨ Covered rest b ↔ Covered q b
  weight_le : ∀ top, upTo top r.fromNumber r.limit + weight top rest ≤ weight top q

theorem topAndPop_spec {top : DownloadRequest} {q : List DownloadRequest} (hsorted : (top :: q).Pairwise Above)
    (hq : ∀ r ∈ top :: q, Fit r) (hroom : Room top.fromNumber 0 (top :: q)) :
    ∃ r rest, topAndPop (top :: q) = some (r, rest) ∧ Popped (top :: q) r rest := by
  have htop := hq top List.mem_cons_self
  have hlow : ∀ r ∈ top :: q, top.fromNumber ≤ r.fromNumber := by
    intro r hr
    rcases List.mem_cons.mp hr with rfl | hr
    · exact le_refl _
    · have := (above_iff _ _).mp ((List.pairwise_cons.mp hsorted).1 r hr)
      omega
  have htopLimit : top.limit = top.fromNumber + top.size := rfl
  have hhigh := htop.high
  have hsize := htop.size
  obtain ⟨size', rest, hmerge, hmerged⟩ := mergeTops_spec htop.low hsorted hq hlow (le_refl 0) (by omega) hroom
  have hgrows := hmerged.grows
  have hlimit : (⟨top.fromNumber, size'⟩ : DownloadRequest).limit = top.fromNumber + size' := rfl
  refine ⟨⟨top.fromNumber, size'⟩, rest, by rw [topAndPop, hmerge]; rfl, ⟨htop.low, hgrows, hmerged.high⟩, hlow,
    ⟨top, List.mem_cons_self, rfl⟩, ?_, hmerged.suffix, hmerged.apart, fun b => ?_, fun limit => ?_⟩
  · -- the first request is always merged
    rcases List.suffix_cons_iff.mp hmerged.suffix with rfl | hsuffix
    · have := hmerged.apart top List.mem_cons_self
      omega
    · exact Nat.lt_succ_of_le hsuffix.length_le
  · rw [hlimit, hmerged.covered]
    exact or_iff_right fun h => by omega
  · have hweight := hmerged.weight_le limit
    show upTo limit top.fromNumber (top.fromNumber + size') + weight limit rest ≤ weight limit (top :: q)
    rwa [add_zero, upTo_empty, Nat.zero_add] at hweight

theorem limit_lt_of_mergeTops {fromNumber size size' : Int} {q rest : List DownloadRequest}
    (h : mergeTops fromNumber size q = some (size', rest)) : ∀ r ∈ q, r ∈ rest ∨ r.limit < 2 ^ 63 := by
  induction q generalizing size with
  | nil =>
    intro r hr
    cases hr
  | cons top q ih =>
    rw [mergeTops] at h
    obtain ⟨merged, -, h⟩ := Option.bind_eq_some_iff.mp h
    by_cases htop : top.fromNumber ≤ merged
    · rw [if_pos htop] at h
      obtain ⟨topLimit, hlimit, h⟩ := Option.bind_eq_some_iff.mp h
      obtain ⟨topSize, -, h⟩ := Option.bind_eq_some_iff.mp h
      intro r hr
      rcases List.mem_cons.mp hr with rfl | hr
      · exact Or.inr (checked_eq_some.mp hlimit).1.2
      · exact ih h r hr
    · rw [if_neg htop] at h
      cases h
      exact fun r hr => Or.inl hr

/-! ### Emptying a queue -/

theorem drain_limit_lt {n : Nat} {q rs : List DownloadRequest} (h : drain n q = some rs) :
    ∀ r ∈ q, r.limit < 2 ^ 63 := by
  induction n generalizing q rs with
  | zero =>
    cases q with
    | nil => exact fun r hr => by cases hr
    | cons top q => cases h
  | succ n ih =>
    cases q with
    | nil => exact fun r hr => by cases hr
    | cons top q =>
      rw [drain] at h
      · obtain ⟨p, hpop, h⟩ := Option.bind_eq_some_iff.mp h
        obtain ⟨rs', hdrain, -⟩ := Option.map_eq_some_iff.mp h
        rw [topAndPop] at hpop
        obtain ⟨merged, hmerge, rfl⟩ := Option.map_eq_some_iff.mp hpop
        intro r hr
        rcases limit_lt_of_mergeTops hmerge r hr with hrest | hlimit
        · exact ih hdrain r hrest
        · exact hlimit
      · exact List.cons_ne_nil _ _

theorem drain_spec {n : Nat} {q : List DownloadRequest} (hn : q.length ≤ n) (hsorted : q.Pairwise Above)
    (hq : ∀ r ∈ q, Fit r) (hsum : (q.map DownloadRequest.size).sum < 2 ^ 63) :
    ∃ rs, drain n q = some rs ∧ rs.Pairwise (fun a b => a.limit < b.fromNumber)
      ∧ (∀ r ∈ rs, ∃ r' ∈ q, r'.fromNumber = r.fromNumber) ∧ ∀ b, Covered rs b ↔ Covered q b := by
  induction n generalizing q with
  | zero =>
    obtain rfl := List.eq_nil_of_length_eq_zero (Nat.le_zero.mp hn)
    exact ⟨[], by rw [drain], List.Pairwise.nil, nofun, fun b => Iff.rfl⟩
  | succ n ih =>
    cases q with
    | nil => exact ⟨[], by rw [drain], List.Pairwise.nil, nofun, fun b => Iff.rfl⟩
    | cons top q =>
      obtain ⟨r, rest, hpop, hpopped⟩ := topAndPop_spec hsorted hq (Or.inr (Or.inl (by omega)))
      have hrest : ∀ r' ∈ rest, r' ∈ top :: q := fun r' hr' => hpopped.suffix.subset hr'
      have hrestSum : (rest.map DownloadRequest.size).sum < 2 ^ 63 := by
        refine lt_of_le_of_lt ?_ hsum
        refine (hpopped.suffix.sublist.map _).sum_le_sum fun n hn => ?_
        obtain ⟨r', hr', rfl⟩ := List.mem_map.mp hn
        exact (hq r' hr').size
      obtain ⟨rs, hdrain, hapart, hfroms, hcovered⟩ := ih
        (Nat.le_of_lt_succ (Nat.lt_of_lt_of_le hpopped.shorter hn)) (hsorted.sublist hpopped.suffix.sublist)
        (fun r' hr' => hq r' (hrest r' hr')) hrestSum
      refine ⟨r :: rs, ?_, ?_, ?_, fun b => ?_⟩
      · rw [drain, hpop, Option.bind_some, hdrain]
        · rfl
        · exact List.cons_ne_nil _ _
      · refine List.pairwise_cons.mpr ⟨fun r' hr' => ?_, hapart⟩
        obtain ⟨r'', hr'', hfrom⟩ := hfroms r' hr'
        exact hfrom ▸ hpopped.apart r'' hr''
      · intro r' hr'
        rcases List.mem_cons.mp hr' with rfl | hr'
        · exact hpopped.mem
        · obtain ⟨r'', hr'', hfrom⟩ := hfroms r' hr'
          exact ⟨r'', hrest r'' hr'', hfrom⟩
      · rw [covered_cons, hcovered, hpopped.covered]

/-! ### Pushing -/

section push

variable {q : List DownloadRequest} {r : DownloadRequest}

theorem push_perm (h : q.length < c_maxReceivedDownloadRequestPerPeer) : (push q r).Perm (r :: q) := by
  rw [push, if_neg (not_le.mpr h)]
  exact List.perm_orderedInsert Above r q

theorem push_sorted (hsorted : q.Pairwise Above) : (push q r).Pairwise Above := by
  unfold push
  split
  · exact hsorted
  · exact hsorted.orderedInsert r q

theorem length_push (h : q.length < c_maxReceivedDownloadRequestPerPeer) : (push q r).length = q.length + 1 :=
  (push_perm h).length_eq

theorem mem_push (h : q.length < c_maxReceivedDownloadRequestPerPeer) {r' : DownloadRequest} :
    r' ∈ push q r ↔ r' = r ∨ r' ∈ q := by
  rw [(push_perm h).mem_iff, List.mem_cons]

theorem covered_push (h : q.length < c_maxReceivedDownloadRequestPerPeer) (b : Int) :
    Covered (push q r) b ↔ (r.fromNumber ≤ b ∧ b < r.limit) ∨ Covered q b := by
  rw [← covered_cons]
  exact exists_congr fun r' => and_congr_left fun _ => (push_perm h).mem_iff

theorem weight_push (h : q.length < c_maxReceivedDownloadRequestPerPeer) (top : Int) :
    weight top (push q r) = upTo top r.fromNumber r.limit + weight top q := by
  rw [← weight_cons]
  exact ((push_perm h).map _).sum_eq

end push

/-! ### The thread -/

def System.Pending (s : System) (b : Int) : Prop :=
  Covered s.reqQueue b ∨ ∃ number numberLimit, s.serving = some (number, numberLimit) ∧ number ≤ b ∧ b < numberLimit

/-- The blocks up to `top` that are to be sent. -/
def System.load (s : System) (top : Int) : Nat :=
  weight top s.reqQueue + match s.serving with
    | none => 0
    | some (number, numberLimit) => upTo top number numberLimit

/-- The blocks up to `top` that an event asks for. -/
def Event.asks (top : Int) : Event → Nat
  | .request fromNumber size => upTo top fromNumber.toInt (fromNumber.toInt + size.toNat)
  | .grow => 0
  | .turn _ => 0

def asked (top : Int) (es : List Event) : Nat := (es.map (Event.asks top)).sum

@[simp] theorem asked_nil (top : Int) : asked top [] = 0 := rfl

@[simp] theorem asked_cons (top : Int) (e : Event) (es : List Event) : asked top (e :: es) = e.asks top + asked top es := by
  rw [asked, asked, List.map_cons, List.sum_cons]

theorem asked_append (top : Int) (es es' : List Event) : asked top (es ++ es') = asked top es + asked top es' := by
  rw [asked, asked, asked, List.map_append, List.sum_append]

def System.Stops (s : System) (v : Verdict) : Bool :=
  match s.serving with
  | none => false
  | some (number, numberLimit) => number < numberLimit && (v = .timeout || !s.Has number || v = .refused)

theorem System.stops_of_serving {s : System} {number numberLimit : Int}
    (hserving : s.serving = some (number, numberLimit)) (hlt : number < numberLimit) {v : Verdict}
    (hstop : v = .timeout ∨ ¬ s.Has number ∨ v = .refused) : s.Stops v := by
  rw [System.Stops, hserving]
  simpa [hlt, or_assoc] using hstop

/-- A request begins at a block, or is empty, and ends within 64 bits; a rest is
    written back to a queue with room. -/
def Event.Ok (s : System) : Event → Prop
  | .request fromNumber size =>
    (0 ≤ fromNumber.toInt ∨ size = 0 ∧ -2 ^ 63 < fromNumber.toInt) ∧ fromNumber.toInt + size.toNat < 2 ^ 63
  | .grow => True
  | .turn v => s.Stops v → s.reqQueue.length < c_maxReceivedDownloadRequestPerPeer

instance (s : System) : ∀ e : Event, Decidable (e.Ok s)
  | .request _ _ => inferInstanceAs (Decidable (_ ∧ _))
  | .grow => inferInstanceAs (Decidable True)
  | .turn _ => inferInstanceAs (Decidable (_ → _))

structure Proper (r : DownloadRequest) : Prop where
  fit : Fit r
  start : 0 ≤ r.fromNumber ∨ r.size = 0

structure Inv (s : System) : Prop where
  sorted : s.reqQueue.Pairwise Above
  proper : ∀ r ∈ s.reqQueue, Proper r
  serving : ∀ number numberLimit, s.serving = some (number, numberLimit) →
    Proper ⟨number, numberLimit - number⟩
  bounded : s.reqQueue.length ≤ c_maxReceivedDownloadRequestPerPeer
  kept : ∀ b, Covered s.requested b → b ∈ s.sent ∨ s.Pending b
  asked : ∀ b, b ∈ s.sent ∨ s.Pending b → Covered s.requested b
  sent : ∀ b ∈ s.sent, s.Has b

structure Advances (s : System) (es : List Event) (s' : System) : Prop where
  inv : Inv s'
  sent : s.sent <+: s'.sent
  number : s.number ≤ s'.number
  requested : ∀ b, Covered s.requested b → Covered s'.requested b
  load : ∀ top, s'.number ≤ top → s'.sent.length + s'.load top ≤ s.sent.length + s.load top + asked top es

namespace Advances

theorem refl {s : System} (h : Inv s) : Advances s [] s :=
  ⟨h, List.prefix_refl _, le_refl _, fun _ hb => hb, fun _ _ => le_refl _⟩

theorem trans {s s' s'' : System} {es es' : List Event} (h : Advances s es s') (h' : Advances s' es' s'') :
    Advances s (es ++ es') s'' := by
  refine ⟨h'.inv, h.sent.trans h'.sent, h.number.trans h'.number, fun b hb => h'.requested b (h.requested b hb),
    fun top htop => ?_⟩
  have hfirst := h.load top (h'.number.trans htop)
  have hsecond := h'.load top htop
  rw [asked_append]
  omega

theorem has {s s' : System} {es : List Event} (h : Advances s es s') {b : Int} (hb : s.Has b) : s'.Has b :=
  ⟨hb.1, hb.2.trans h.number⟩

end Advances

section steps

variable {s : System}

theorem request_advances (h : Inv s) {fromNumber : BitVec 64} {size : BitVec 32}
    (hok : (Event.request fromNumber size).Ok s) :
    ∃ s', s.onPeerRequestBlocks fromNumber size = some s' ∧ Advances s [.request fromNumber size] s' := by
  obtain ⟨hstart, hhigh⟩ := hok
  have hlow := (fits_toInt fromNumber).1
  have hsize : (0 : Int) ≤ size.toNat := Int.natCast_nonneg _
  have hzero : size = 0 → (size.toNat : Int) = 0 := by
    rintro rfl
    rfl
  have hlimit : Fits (fromNumber.toInt + size.toNat) := ⟨by omega, hhigh⟩
  have hlast : Fits (fromNumber.toInt + size.toNat - 1) := by
    refine ⟨?_, by omega⟩
    rcases hstart with hpos | ⟨hempty, hmin⟩
    · omega
    · have := hzero hempty
      omega
  rw [System.onPeerRequestBlocks, checked_of_fits hlimit, Option.bind_some, checked_of_fits hlast, Option.map_some]
  refine ⟨_, rfl, ?_⟩
  by_cases hfull : c_maxReceivedDownloadRequestPerPeer ≤ s.reqQueue.length
  · rw [if_pos hfull]
    exact ⟨h, List.prefix_refl _, le_refl _, fun _ hb => hb, fun top _ => Nat.le_add_right _ _⟩
  · rw [if_neg hfull]
    have hroom := not_le.mp hfull
    have hproper : Proper ⟨fromNumber.toInt, size.toNat⟩ := by
      refine ⟨⟨hlow, hsize, hhigh⟩, ?_⟩
      rcases hstart with hpos | ⟨hempty, -⟩
      · exact Or.inl hpos
      · exact Or.inr (hzero hempty)
    refine ⟨⟨push_sorted h.sorted, fun r hr => ?_, h.serving, ?_, fun b hb => ?_, fun b hb => ?_, h.sent⟩,
      List.prefix_refl _, le_refl _, fun b hb => (covered_cons _ _ _).mpr (Or.inr hb), fun top _ => ?_⟩
    · rcases (mem_push hroom).mp hr with rfl | hr
      · exact hproper
      · exact h.proper r hr
    · exact (length_push hroom).le.trans hroom
    · rcases (covered_cons _ _ _).mp hb with hnew | hold
      · exact Or.inr (Or.inl ((covered_push hroom b).mpr (Or.inl hnew)))
      · rcases h.kept b hold with hsent | hqueue | hserving
        · exact Or.inl hsent
        · exact Or.inr (Or.inl ((covered_push hroom b).mpr (Or.inr hqueue)))
        · exact Or.inr (Or.inr hserving)
    · rw [covered_cons]
      rcases hb with hsent | hqueue | hserving
      · exact Or.inr (h.asked b (Or.inl hsent))
      · rcases (covered_push hroom b).mp hqueue with hnew | hold
        · exact Or.inl hnew
        · exact Or.inr (h.asked b (Or.inr (Or.inl hold)))
      · exact Or.inr (h.asked b (Or.inr (Or.inr hserving)))
    · have hweight : weight top (push s.reqQueue ⟨fromNumber.toInt, size.toNat⟩)
          = upTo top fromNumber.toInt (fromNumber.toInt + size.toNat) + weight top s.reqQueue := weight_push hroom top
      simp only [System.load, asked_cons, asked_nil, Event.asks, hweight]
      omega

theorem grow_advances (h : Inv s) : Advances s [.grow] { s with number := s.number + 1 } := by
  have hnumber : s.number ≤ s.number + 1 := by omega
  exact ⟨⟨h.sorted, h.proper, h.serving, h.bounded, h.kept, h.asked,
    fun b hb => ⟨(h.sent b hb).1, (h.sent b hb).2.trans hnumber⟩⟩, List.prefix_refl _, hnumber, fun _ hb => hb,
    fun _ _ => Nat.le_add_right _ _⟩

theorem stay_advances (h : Inv s) (v : Verdict) : Advances s [.turn v] s :=
  ⟨h, List.prefix_refl _, le_refl _, fun _ hb => hb, fun _ _ => Nat.le_add_right _ _⟩

theorem writeBack_advances (h : Inv s) {number numberLimit : Int} (hserving : s.serving = some (number, numberLimit))
    (hroom : s.reqQueue.length < c_maxReceivedDownloadRequestPerPeer) (v : Verdict) :
    ∃ s', s.writeBack number numberLimit = some s' ∧ s'.serving = none
      ∧ s'.reqQueue.length = s.reqQueue.length + 1 ∧ s'.number = s.number ∧ (∀ b, s.Pending b → s'.Pending b)
      ∧ Advances s [.turn v] s' := by
  have hproper := h.serving _ _ hserving
  have hfit := hproper.fit
  have hlow : -2 ^ 63 ≤ number := hfit.low
  have hsize : 0 ≤ numberLimit - number := hfit.size
  have hhigh : number + (numberLimit - number) < 2 ^ 63 := hfit.high
  have hfits : Fits (numberLimit - number) := by
    refine ⟨by omega, ?_⟩
    rcases hproper.start with hpos | hempty
    · have : 0 ≤ number := hpos
      omega
    · have : numberLimit - number = 0 := hempty
      omega
  have hlimit : (⟨number, numberLimit - number⟩ : DownloadRequest).limit = numberLimit := by
    show number + (numberLimit - number) = numberLimit
    omega
  have hpending : ∀ b, s.Pending b ↔ Covered (push s.reqQueue ⟨number, numberLimit - number⟩) b := by
    intro b
    rw [covered_push hroom, hlimit, System.Pending, hserving, or_comm]
    refine or_congr_left ⟨?_, fun hb => ⟨number, numberLimit, rfl, hb⟩⟩
    rintro ⟨n, l, heq, hb⟩
    cases heq
    exact hb
  rw [System.writeBack, checked_of_fits hfits, Option.map_some]
  refine ⟨_, rfl, rfl, length_push hroom, rfl, fun b hb => Or.inl ((hpending b).mp hb),
    ⟨push_sorted h.sorted, fun r hr => ?_, nofun, (length_push hroom).le.trans hroom, fun b hb => ?_, fun b hb => ?_,
      h.sent⟩, List.prefix_refl _, le_refl _, fun _ hb => hb, fun top _ => ?_⟩
  · rcases (mem_push hroom).mp hr with rfl | hr
    · exact hproper
    · exact h.proper r hr
  · exact (h.kept b hb).imp_right fun hb => Or.inl ((hpending b).mp hb)
  · rcases hb with hsent | hqueue | ⟨_, _, heq, -⟩
    · exact h.asked b (Or.inl hsent)
    · exact h.asked b (Or.inr ((hpending b).mpr hqueue))
    · cases heq
  · have hweight := @weight_push s.reqQueue ⟨number, numberLimit - number⟩ hroom top
    rw [hlimit] at hweight
    simp only [System.load, asked_cons, asked_nil, Event.asks, hweight, hserving]
    omega

theorem take_advances (h : Inv s) (hidle : s.serving = none) (hqueue : s.reqQueue ≠ []) (v : Verdict) :
    ∃ s' number numberLimit, s.take = some s' ∧ s'.serving = some (number, numberLimit) ∧ s'.number = s.number
      ∧ s'.reqQueue.length < s.reqQueue.length ∧ (∀ b, s.Pending b → s'.Pending b)
      ∧ (∀ b, s.Pending b → number ≤ b) ∧ Advances s [.turn v] s' := by
  obtain ⟨top, q, hq⟩ := List.exists_cons_of_ne_nil hqueue
  have hsorted := h.sorted
  have hproper := h.proper
  rw [hq] at hsorted hproper
  have hroom : Room top.fromNumber 0 (top :: q) := by
    rcases lt_or_ge top.fromNumber 0 with hneg | hpos
    · refine Or.inr (Or.inr ⟨rfl, fun r hr hle => ?_⟩)
      exact (hproper r hr).start.resolve_left (by omega)
    · exact Or.inl hpos
  obtain ⟨r, rest, hpop, hpopped⟩ := topAndPop_spec hsorted (fun r hr => (hproper r hr).fit) hroom
  rw [← hq] at hpop
  have hfit := hpopped.fit
  have hlimit : r.limit = r.fromNumber + r.size := rfl
  have hlow := hfit.low
  have hsize := hfit.size
  have hhigh := hfit.high
  have hfits : Fits (r.fromNumber + r.size) := ⟨by omega, by omega⟩
  have hstart : 0 ≤ r.fromNumber ∨ r.size = 0 := by
    -- a first number below zero is asked for by an empty request only
    by_contra hbad
    obtain ⟨hneg, hne⟩ := not_or.mp hbad
    obtain ⟨r', hr', hfrom, hlt⟩ := (hpopped.covered r.fromNumber).mp (Or.inl ⟨le_refl _, by omega⟩)
    have hlimit' : r'.limit = r'.fromNumber + r'.size := rfl
    rcases (hproper r' hr').start with hpos | hempty
    · omega
    · omega
  have hpending : ∀ b, s.Pending b ↔ (r.fromNumber ≤ b ∧ b < r.limit) ∨ Covered rest b := by
    intro b
    rw [System.Pending, hidle, hpopped.covered, hq]
    refine or_iff_left ?_
    rintro ⟨_, _, heq, -⟩
    cases heq
  have hpending' : ∀ b, ({ s with reqQueue := rest, serving := some (r.fromNumber, r.limit) } : System).Pending b
      ↔ s.Pending b := by
    intro b
    rw [hpending, or_comm, System.Pending]
    refine or_congr_right ⟨?_, fun hb => ⟨_, _, rfl, hb⟩⟩
    rintro ⟨n, l, heq, hb⟩
    cases heq
    exact hb
  have hlength : rest.length < s.reqQueue.length := hq ▸ hpopped.shorter
  refine ⟨{ s with reqQueue := rest, serving := some (r.fromNumber, r.limit) }, r.fromNumber, r.limit, ?_, rfl, rfl,
    hlength, fun b hb => (hpending' b).mpr hb, fun b hb => ?_,
    ⟨hsorted.sublist hpopped.suffix.sublist, fun r' hr' => hproper r' (hpopped.suffix.subset hr'),
      fun n l heq => ?_, hlength.le.trans h.bounded, fun b hb => ?_, fun b hb => ?_, h.sent⟩,
    List.prefix_refl _, le_refl _, fun _ hb => hb, fun top' _ => ?_⟩
  · rw [System.take, hpop, Option.bind_some, checked_of_fits hfits]
    rfl
  · rw [System.Pending, hidle, hq] at hb
    rcases hb with ⟨r', hr', hfrom, -⟩ | ⟨_, _, heq, -⟩
    · exact (hpopped.first r' hr').trans hfrom
    · cases heq
  · cases heq
    rw [hlimit, add_sub_cancel_left]
    exact ⟨hfit, hstart⟩
  · exact (h.kept b hb).imp_right (hpending' b).mpr
  · exact h.asked b (hb.imp_right (hpending' b).mp)
  · have hweight := hpopped.weight_le top'
    rw [← hq] at hweight
    simp only [System.load, asked_cons, asked_nil, Event.asks, hidle]
    omega

theorem send_advances (h : Inv s) {number numberLimit : Int} (hserving : s.serving = some (number, numberLimit))
    (hlt : number < numberLimit) (hhas : s.Has number) (v : Verdict) :
    Advances s [.turn v]
      { s with serving := some (number + 1, numberLimit), sent := s.sent ++ [number] } := by
  have hproper := h.serving _ _ hserving
  have hhigh : number + (numberLimit - number) < 2 ^ 63 := hproper.fit.high
  have hlow : -2 ^ 63 ≤ number := hproper.fit.low
  have hpos : 0 ≤ number := hhas.1
  have hpending : ∀ b, s.Pending b ↔ b = number
      ∨ ({ s with serving := some (number + 1, numberLimit), sent := s.sent ++ [number] } : System).Pending b := by
    intro b
    rw [System.Pending, System.Pending, hserving, or_left_comm]
    refine or_congr_right ⟨?_, ?_⟩
    · rintro ⟨n, l, heq, hle, hb⟩
      cases heq
      by_cases hb' : b = number
      · exact Or.inl hb'
      · exact Or.inr ⟨_, _, rfl, by omega, hb⟩
    · rintro (rfl | ⟨n, l, heq, hle, hb⟩)
      · exact ⟨_, _, rfl, le_refl _, hlt⟩
      · cases heq
        exact ⟨_, _, rfl, by omega, hb⟩
  refine ⟨⟨h.sorted, h.proper, fun n l heq => ?_, h.bounded, fun b hb => ?_, fun b hb => ?_, fun b hb => ?_⟩,
    List.prefix_append _ _, le_refl _, fun _ hb => hb, fun top htop => ?_⟩
  · cases heq
    refine ⟨⟨?_, ?_, ?_⟩, Or.inl ?_⟩
    · show -2 ^ 63 ≤ number + 1
      omega
    · show 0 ≤ numberLimit - (number + 1)
      omega
    · show number + 1 + (numberLimit - (number + 1)) < 2 ^ 63
      omega
    · show 0 ≤ number + 1
      omega
  · rw [List.mem_append, List.mem_singleton]
    rcases h.kept b hb with hsent | hpend
    · exact Or.inl (Or.inl hsent)
    · exact ((hpending b).mp hpend).imp_left Or.inr
  · rw [List.mem_append, List.mem_singleton] at hb
    rcases hb with (hsent | hnow) | hpend
    · exact h.asked b (Or.inl hsent)
    · exact h.asked b (Or.inr ((hpending b).mpr (Or.inl hnow)))
    · exact h.asked b (Or.inr ((hpending b).mpr (Or.inr hpend)))
  · rw [List.mem_append, List.mem_singleton] at hb
    rcases hb with hsent | rfl
    · exact h.sent b hsent
    · exact hhas
  · have hfirst := upTo_succ hpos (hhas.2.trans htop) hlt
    simp only [System.load, asked_cons, asked_nil, Event.asks, hserving, List.length_append, List.length_singleton, hfirst]
    omega

theorem leave_advances (h : Inv s) {number numberLimit : Int} (hserving : s.serving = some (number, numberLimit))
    (hdone : ¬ number < numberLimit) (v : Verdict) :
    (∀ b, s.Pending b → ({ s with serving := none } : System).Pending b)
      ∧ Advances s [.turn v] { s with serving := none } := by
  have hpending : ∀ b, s.Pending b ↔ ({ s with serving := none } : System).Pending b := by
    intro b
    rw [System.Pending, System.Pending, hserving]
    refine or_congr_right ⟨?_, ?_⟩
    · rintro ⟨n, l, heq, hle, hb⟩
      cases heq
      exact absurd (lt_of_le_of_lt hle hb) hdone
    · rintro ⟨_, _, heq, -⟩
      cases heq
  refine ⟨fun b => (hpending b).mp, ⟨h.sorted, h.proper, nofun, h.bounded, fun b hb => ?_, fun b hb => ?_, h.sent⟩,
    List.prefix_refl _, le_refl _, fun _ hb => hb, fun top _ => ?_⟩
  · exact (h.kept b hb).imp_right (hpending b).mp
  · exact h.asked b (hb.imp_right (hpending b).mpr)
  · simp only [System.load, asked_cons, asked_nil, Event.asks, hserving]
    omega

end steps

end HieraChain.RspBlockReq
