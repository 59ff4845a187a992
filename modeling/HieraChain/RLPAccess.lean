/-
  HieraChain/RLPAccess.lean
  =========================
  **The position cache of `RLP::operator[]`, and the iterator**
  (`libdevcore/RLP.h`, `RLP.cpp`).

  An `RLP` object remembers the last index, where its item ends, and the item;
  an access walks on from there, or from the start for a smaller index.  An
  exception leaves what was assigned before it: an access that fails while it
  reads item `n + 1` leaves the index at `n` and the unread rest in the place
  of item `n`.

  `itemAt` is item `i` of a payload.  Every access keeps the cache on it
  (`Follows`), and returns what a fresh object returns, which is what the
  iterator gives, exactly in the cases of `Access.Ok`.
-/
import HieraChain.Machine
import HieraChain.RLPCanonical

namespace HieraChain.RLP

open HieraChain.BigEndian

/-! ### The items of a payload -/

/-- Item `i` of a payload; behind the last one there is nothing. -/
def itemAt : Bytes → Nat → Except RLPError Bytes
  | pl, 0 => do
    let n ← sizeAsEncoded pl
    return pl.take n
  | pl, i + 1 => do
    let n ← sizeAsEncoded pl
    itemAt (pl.drop n) i

theorem itemAt_nil (i : Nat) : itemAt [] i = .ok [] := by
  induction i with
  | zero => rfl
  | succ i ih => exact ih

theorem itemAt_zero {pl : Bytes} {n : Nat} (h : sizeAsEncoded pl = .ok n) : itemAt pl 0 = .ok (pl.take n) := by
  rw [itemAt, h]
  rfl

theorem itemAt_succ {pl : Bytes} {n : Nat} (h : sizeAsEncoded pl = .ok n) (i : Nat) :
    itemAt pl (i + 1) = itemAt (pl.drop n) i := by
  rw [itemAt, h]
  rfl

theorem itemAt_error {pl : Bytes} {e : RLPError} (h : sizeAsEncoded pl = .error e) (i : Nat) :
    itemAt pl i = .error e := by
  cases i with
  | zero =>
    rw [itemAt, h]
    rfl
  | succ i =>
    rw [itemAt, h]
    rfl

theorem readable_nil : ofThrowIfTooSmall [] = .ok [] := rfl

theorem readable_itemAt {pl x : Bytes} {i : Nat} (h : itemAt pl i = .ok x) : ofThrowIfTooSmall x = .ok x := by
  induction i generalizing pl with
  | zero =>
    cases hn : sizeAsEncoded pl with
    | error e =>
      rw [itemAt_error hn] at h
      cases h
    | ok n =>
      rw [itemAt_zero hn] at h
      cases h
      by_cases hnil : pl = []
      · rw [hnil, List.take_nil, readable_nil]
      · obtain ⟨p, hitem⟩ := item_take hnil hn
        have hread := hitem.isItem.ofThrowIfTooSmall_eq []
        rwa [List.append_nil] at hread
  | succ i ih =>
    cases hn : sizeAsEncoded pl with
    | error e =>
      rw [itemAt_error hn] at h
      cases h
    | ok n =>
      rw [itemAt_succ hn] at h
      exact ih h

theorem itemAt_of_items {its : Items} (hall : ∀ it ∈ its, Item it.1 it.2) {i : Nat} {it : Bytes × Bytes}
    (hi : its[i]? = some it) (rest : Bytes) : itemAt (its.bytes ++ rest) i = .ok it.1 := by
  induction its generalizing i with
  | nil => cases hi
  | cons it' its ih =>
    have hsize := (hall it' List.mem_cons_self).isItem.sizeAsEncoded_eq (Items.bytes its ++ rest)
    rw [Items.bytes_cons, List.append_assoc]
    cases i with
    | zero =>
      cases hi
      rw [itemAt_zero hsize, List.take_left]
    | succ i =>
      rw [itemAt_succ hsize, List.drop_left]
      exact ih (fun y hy => hall y (List.mem_cons_of_mem _ hy)) hi

theorem itemAt_eq_nil_iff {pl : Bytes} {i : Nat} :
    itemAt pl i = .ok [] ↔ ∃ its : Items, (∀ it ∈ its, Item it.1 it.2) ∧ pl = its.bytes ∧ its.length ≤ i := by
  induction i generalizing pl with
  | zero =>
    constructor
    · intro h
      by_cases hnil : pl = []
      · exact ⟨[], by simp, hnil, le_rfl⟩
      · cases hn : sizeAsEncoded pl with
        | error e =>
          rw [itemAt_error hn] at h
          cases h
        | ok n =>
          rw [itemAt_zero hn] at h
          obtain ⟨p, hitem⟩ := item_take hnil hn
          exact absurd (Except.ok.inj h) hitem.isItem.ne_nil
    · rintro ⟨its, -, rfl, hlen⟩
      rw [List.eq_nil_of_length_eq_zero (Nat.eq_zero_of_le_zero hlen)]
      rfl
  | succ i ih =>
    constructor
    · intro h
      by_cases hnil : pl = []
      · exact ⟨[], by simp, hnil, Nat.zero_le _⟩
      · cases hn : sizeAsEncoded pl with
        | error e =>
          rw [itemAt_error hn] at h
          cases h
        | ok n =>
          rw [itemAt_succ hn] at h
          obtain ⟨p, hitem⟩ := item_take hnil hn
          obtain ⟨its, hall, hrest, hlen⟩ := ih.mp h
          refine ⟨(pl.take n, p) :: its, List.forall_mem_cons.mpr ⟨hitem, hall⟩, ?_, Nat.succ_le_succ hlen⟩
          rw [Items.bytes_cons, ← hrest, List.take_append_drop]
    · rintro ⟨its, hall, rfl, hlen⟩
      cases its with
      | nil => exact itemAt_nil _
      | cons it its =>
        rw [Items.bytes_cons, itemAt_succ ((hall it List.mem_cons_self).isItem.sizeAsEncoded_eq _), List.drop_left]
        exact ih.mpr ⟨its, fun y hy => hall y (List.mem_cons_of_mem _ hy), rfl, Nat.le_of_succ_le_succ hlen⟩

theorem itemAt_of_length_le {pl x : Bytes} {i : Nat} (h : itemAt pl i = .ok x) (hle : pl.length ≤ i) : x = [] := by
  induction i generalizing pl with
  | zero =>
    obtain rfl := List.eq_nil_of_length_eq_zero (Nat.eq_zero_of_le_zero hle)
    exact (Except.ok.inj h).symm
  | succ i ih =>
    by_cases hnil : pl = []
    · rw [hnil, itemAt_nil] at h
      exact (Except.ok.inj h).symm
    · cases hn : sizeAsEncoded pl with
      | error e =>
        rw [itemAt_error hn] at h
        cases h
      | ok n =>
        rw [itemAt_succ hn] at h
        obtain ⟨p, hitem⟩ := item_take hnil hn
        have hpos := List.length_pos_iff.mpr hitem.isItem.ne_nil
        rw [List.length_take_of_le (sizeAsEncoded_spec hn).2] at hpos
        refine ih h ?_
        rw [List.length_drop]
        omega

/-! ### The iterator -/

/-- `RLP::iterator`: the current item, and the `m_remaining` bytes behind it. -/
structure iterator where
  currentItem : Bytes := []
  remaining : Bytes := []

def iterator.cut (pl : Bytes) : Except RLPError iterator := do
  let currentItem := cropped pl 0 (← sizeAsEncoded pl)
  return { currentItem, remaining := pl.drop currentItem.length }

/-- `begin()`; where the object is no list, that is `end()`. -/
def iterator.begin (d : Bytes) : Except RLPError iterator :=
  if isList d then do iterator.cut (← payload d) else .ok {}

/-- `operator++`. -/
def iterator.next (it : iterator) : Except RLPError iterator :=
  if it.remaining.isEmpty then .ok {} else iterator.cut it.remaining

def iterator.advance : Nat → iterator → Except RLPError iterator
  | 0, it => .ok it
  | k + 1, it => do iterator.advance k (← it.next)

/-- What the iterator gives after `i` steps; at the end that is `RLP()`. -/
def nth (d : Bytes) (i : Nat) : Except RLPError Bytes := do
  let it ← (← iterator.begin d).advance i
  ofVeryStrict it.currentItem

/-! ### Accesses -/

/-- The list-indexing cache; on a fresh object the index is `(size_t)-1`. -/
structure Cache where
  lastIndex : Nat := sizeMax
  lastEnd : Nat := 0
  lastItem : Bytes := []
  deriving DecidableEq

/-- The first part of `operator[]`, for an index in front of the last one. -/
def rewind (d : Bytes) : Except RLPError Cache := do
  let pl ← payload d
  let lastEnd ← sizeAsEncoded pl
  return { lastIndex := 0, lastEnd, lastItem := cropped pl 0 lastEnd }

/-- The loop of `operator[]`, for `k` more items; what is assigned before an
    exception stays. -/
def walk (d : Bytes) : Nat → Cache → Cache × Except RLPError Unit
  | 0, c => (c, .ok ())
  | k + 1, c =>
    if c.lastItem.isEmpty then (c, .ok ())
    else
      match payload d with
      | .error e => (c, .error e)
      | .ok pl =>
        match sizeAsEncoded (pl.drop c.lastEnd) with
        | .error e => ({ c with lastItem := pl.drop c.lastEnd }, .error e)
        | .ok n =>
          let lastItem := cropped (pl.drop c.lastEnd) 0 n
          walk d k { lastIndex := c.lastIndex + 1, lastEnd := c.lastEnd + lastItem.length, lastItem }

/-- The constructor at the end of `operator[]`. -/
def handOut (w : Cache × Except RLPError Unit) : Except RLPError Bytes := do
  w.2
  ofThrowIfTooSmall w.1.lastItem

/-- `operator[]`: the cache afterwards, and the item or the exception. -/
def access (d : Bytes) (c : Cache) (i : Nat) : Cache × Except RLPError Bytes :=
  match if i < c.lastIndex then rewind d else .ok c with
  | .error e => (c, .error e)
  | .ok c => ((walk d (i - c.lastIndex) c).1, handOut (walk d (i - c.lastIndex) c))

/-! ### What the iterator gives -/

theorem iterator.advance_end (k : Nat) : iterator.advance k {} = .ok {} := by
  induction k with
  | zero => rfl
  | succ k ih => exact ih

theorem ofVeryStrict_take {pl : Bytes} {n : Nat} (h : sizeAsEncoded pl = .ok n) :
    ofVeryStrict (pl.take n) = .ok (pl.take n) := by
  by_cases hnil : pl = []
  · rw [hnil, List.take_nil]
    rfl
  · obtain ⟨p, hitem⟩ := item_take hnil h
    exact hitem.isItem.ofVeryStrict_eq

theorem iterator.cut_eq {pl : Bytes} {n : Nat} (h : sizeAsEncoded pl = .ok n) :
    iterator.cut pl = .ok { currentItem := pl.take n, remaining := pl.drop n } := by
  rw [iterator.cut, h]
  change Except.ok (iterator.mk (cropped pl 0 n) (pl.drop (cropped pl 0 n).length)) = _
  rw [cropped_of_sizeAsEncoded h, List.length_take_of_le (sizeAsEncoded_spec h).2]

theorem iterator.cut_error {pl : Bytes} {e : RLPError} (h : sizeAsEncoded pl = .error e) :
    iterator.cut pl = .error e := by
  rw [iterator.cut, h]
  rfl

theorem iterator.nth_cut (pl : Bytes) (i : Nat) :
    (do
      let it ← (← iterator.cut pl).advance i
      ofVeryStrict it.currentItem) = itemAt pl i := by
  induction i generalizing pl with
  | zero =>
    cases hn : sizeAsEncoded pl with
    | error e =>
      rw [iterator.cut_error hn, itemAt_error hn]
      rfl
    | ok n =>
      rw [iterator.cut_eq hn, itemAt_zero hn]
      exact ofVeryStrict_take hn
  | succ i ih =>
    cases hn : sizeAsEncoded pl with
    | error e =>
      rw [iterator.cut_error hn, itemAt_error hn]
      rfl
    | ok n =>
      rw [iterator.cut_eq hn, itemAt_succ hn]
      change ((iterator.mk (pl.take n) (pl.drop n)).next >>= iterator.advance i) >>= _ = _
      rw [bind_assoc, iterator.next]
      by_cases hrest : pl.drop n = []
      · rw [hrest, itemAt_nil]
        change (do
          let it ← iterator.advance i {}
          ofVeryStrict it.currentItem) = _
        rw [iterator.advance_end]
        rfl
      · rw [if_neg fun h => hrest (List.isEmpty_iff.mp h)]
        exact ih (pl.drop n)

theorem nth_of_isList {d : Bytes} (hlist : isList d = true) (i : Nat) :
    nth d i = payload d >>= fun pl => itemAt pl i := by
  rw [nth, iterator.begin, if_pos hlist]
  cases hpl : payload d with
  | error e => rfl
  | ok pl => exact iterator.nth_cut pl i

theorem nth_of_not_isList {d : Bytes} (hlist : ¬isList d = true) (i : Nat) : nth d i = .ok [] := by
  rw [nth, iterator.begin, if_neg hlist]
  change (do
    let it ← iterator.advance i {}
    ofVeryStrict it.currentItem) = _
  rw [iterator.advance_end]
  rfl

/-! ### What an access gives -/

/-- The cache has walked over the payload; after an exception the rest that
    could not be read stands in the place of the item. -/
structure Follows (pl : Bytes) (c : Cache) : Prop where
  bound : c.lastIndex ≤ pl.length
  next : c.lastItem ≠ [] → ∀ j, itemAt pl (c.lastIndex + 1 + j) = itemAt (pl.drop c.lastEnd) j
  past : c.lastItem = [] → ∀ j, itemAt pl (c.lastIndex + j) = .ok []
  here : ∃ x, itemAt pl c.lastIndex = .ok x ∧
    (c.lastItem = x ∨ x ≠ [] ∧ ∃ e, sizeAsEncoded c.lastItem = .error e)

theorem sizeAsEncoded_error_iff {x : Bytes} :
    (∃ e, sizeAsEncoded x = .error e) ↔ ofThrowIfTooSmall x ≠ .ok x := by
  constructor
  · rintro ⟨e, he⟩ hread
    cases hsize : actualSize x with
    | error e' =>
      rw [ofThrowIfTooSmall, hsize] at hread
      cases hread
    | ok n =>
      rw [sizeAsEncoded, hread] at he
      change actualSize x = _ at he
      rw [hsize] at he
      cases he
  · intro hread
    cases hread' : ofThrowIfTooSmall x with
    | error e =>
      refine ⟨e, ?_⟩
      rw [sizeAsEncoded, hread']
      rfl
    | ok y =>
      rw [ofThrowIfTooSmall_ok hread'] at hread'
      exact absurd hread' hread

section walk

variable {d pl : Bytes} {c : Cache}

theorem Follows.lt (h : Follows pl c) (hne : c.lastItem ≠ []) : c.lastIndex < pl.length := by
  obtain ⟨x, hx, hitem⟩ := h.here
  by_contra hlt
  have hnil := itemAt_of_length_le hx (Nat.not_lt.mp hlt)
  rcases hitem with rfl | ⟨hx', -⟩
  · exact hne hnil
  · exact hx' hnil

theorem Follows.fail (h : Follows pl c) (hne : c.lastItem ≠ []) {e : RLPError}
    (he : sizeAsEncoded (pl.drop c.lastEnd) = .error e) :
    Follows pl { c with lastItem := pl.drop c.lastEnd } := by
  have hdrop : pl.drop c.lastEnd ≠ [] := by
    intro hnil
    rw [hnil] at he
    cases he
  obtain ⟨x, hx, hitem⟩ := h.here
  refine ⟨h.bound, fun _ => h.next hne, fun hnil => absurd hnil hdrop, x, hx, Or.inr ⟨?_, e, he⟩⟩
  rcases hitem with rfl | ⟨hx', -⟩
  · exact hne
  · exact hx'

theorem Follows.take (h : Follows pl c) (hne : c.lastItem ≠ []) {n : Nat}
    (hn : sizeAsEncoded (pl.drop c.lastEnd) = .ok n) :
    Follows pl
      { lastIndex := c.lastIndex + 1, lastEnd := c.lastEnd + n, lastItem := (pl.drop c.lastEnd).take n } where
  bound := h.lt hne
  next := by
    intro _ j
    change itemAt pl (c.lastIndex + 1 + 1 + j) = itemAt (pl.drop (c.lastEnd + n)) j
    rw [Nat.add_assoc _ 1 j, Nat.add_comm 1 j, h.next hne, itemAt_succ hn, List.drop_drop]
  past := by
    intro hnil j
    change itemAt pl (c.lastIndex + 1 + j) = _
    rw [h.next hne]
    by_cases hrest : pl.drop c.lastEnd = []
    · rw [hrest, itemAt_nil]
    · obtain ⟨p, hitem⟩ := item_take hrest hn
      exact absurd hnil hitem.isItem.ne_nil
  here := by
    refine ⟨_, ?_, Or.inl rfl⟩
    change itemAt pl (c.lastIndex + 1 + 0) = _
    rw [h.next hne, itemAt_zero hn]

theorem walk_error (hpl : payload d = .ok pl) (hne : c.lastItem ≠ []) {e : RLPError}
    (he : sizeAsEncoded (pl.drop c.lastEnd) = .error e) (k : Nat) :
    walk d (k + 1) c = ({ c with lastItem := pl.drop c.lastEnd }, .error e) := by
  rw [walk, if_neg fun hnil => hne (List.isEmpty_iff.mp hnil)]
  simp only [hpl, he]

theorem walk_next (hpl : payload d = .ok pl) (hne : c.lastItem ≠ []) {n : Nat}
    (hn : sizeAsEncoded (pl.drop c.lastEnd) = .ok n) (k : Nat) :
    walk d (k + 1) c
      = walk d k
          { lastIndex := c.lastIndex + 1, lastEnd := c.lastEnd + n, lastItem := (pl.drop c.lastEnd).take n } := by
  rw [walk, if_neg fun hnil => hne (List.isEmpty_iff.mp hnil)]
  simp only [hpl, hn, cropped_of_sizeAsEncoded hn, List.length_take_of_le (sizeAsEncoded_spec hn).2]

/-- **Loop lemma.**  The loop keeps the cache on the payload, and `k` more items
    behind the last one hand out the item there. -/
theorem walk_spec (hpl : payload d = .ok pl) (h : Follows pl c) (k : Nat) :
    Follows pl (walk d k c).1 ∧ (k ≠ 0 → handOut (walk d k c) = itemAt pl (c.lastIndex + k)) := by
  induction k generalizing c with
  | zero => exact ⟨h, fun hk => absurd rfl hk⟩
  | succ k ih =>
    by_cases hempty : c.lastItem = []
    · rw [walk, if_pos (List.isEmpty_iff.mpr hempty)]
      refine ⟨h, fun _ => ?_⟩
      rw [h.past hempty, handOut, hempty]
      rfl
    · have hindex : c.lastIndex + (k + 1) = c.lastIndex + 1 + k := by omega
      cases hn : sizeAsEncoded (pl.drop c.lastEnd) with
      | error e =>
        rw [walk_error hpl hempty hn, hindex, h.next hempty, itemAt_error hn]
        exact ⟨h.fail hempty hn, fun _ => rfl⟩
      | ok n =>
        obtain ⟨hfollows, hout⟩ := ih (h.take hempty hn)
        rw [walk_next hpl hempty hn, hindex]
        refine ⟨hfollows, fun _ => ?_⟩
        cases k with
        | zero =>
          rw [h.next hempty, itemAt_zero hn]
          exact readable_itemAt (itemAt_zero hn)
        | succ k => exact hout (Nat.succ_ne_zero k)

theorem Follows.start {n : Nat} (hn : sizeAsEncoded pl = .ok n) :
    Follows pl { lastIndex := 0, lastEnd := n, lastItem := pl.take n } where
  bound := Nat.zero_le _
  next := by
    intro _ j
    change itemAt pl (0 + 1 + j) = itemAt (pl.drop n) j
    rw [Nat.zero_add, Nat.add_comm, itemAt_succ hn]
  past := by
    intro hnil j
    by_cases hpl : pl = []
    · rw [hpl, itemAt_nil]
    · obtain ⟨p, hitem⟩ := item_take hpl hn
      exact absurd hnil hitem.isItem.ne_nil
  here := ⟨_, itemAt_zero hn, Or.inl rfl⟩

theorem rewind_eq (hpl : payload d = .ok pl) :
    rewind d = (sizeAsEncoded pl).map fun n => { lastIndex := 0, lastEnd := n, lastItem := pl.take n } := by
  rw [rewind, hpl]
  cases hn : sizeAsEncoded pl with
  | error e =>
    change (sizeAsEncoded pl >>= fun _ => _) = _
    rw [hn]
    rfl
  | ok n =>
    change (sizeAsEncoded pl >>= fun n => Except.ok (Cache.mk 0 n (cropped pl 0 n))) = _
    rw [hn]
    change Except.ok (Cache.mk 0 n (cropped pl 0 n)) = Except.ok (Cache.mk 0 n (pl.take n))
    rw [cropped_of_sizeAsEncoded hn]

theorem access_of_lt (hpl : payload d = .ok pl) {i : Nat} (hlt : i < c.lastIndex) :
    (access d c i).2 = itemAt pl i ∧ ((access d c i).1 = c ∨ Follows pl (access d c i).1) := by
  rw [access, if_pos hlt, rewind_eq hpl]
  cases hn : sizeAsEncoded pl with
  | error e => exact ⟨(itemAt_error hn i).symm, Or.inl rfl⟩
  | ok n =>
    obtain ⟨hfollows, hout⟩ := walk_spec hpl (Follows.start hn) i
    refine ⟨?_, Or.inr hfollows⟩
    cases i with
    | zero => exact (readable_itemAt (itemAt_zero hn)).trans (itemAt_zero hn).symm
    | succ i =>
      rw [Nat.zero_add] at hout
      exact hout (Nat.succ_ne_zero i)

theorem access_of_error {e : RLPError} (hpl : payload d = .error e) {i : Nat} (hlt : i < c.lastIndex) :
    access d c i = (c, .error e) := by
  rw [access, if_pos hlt, rewind, hpl]
  rfl

theorem access_of_ge {i : Nat} (hge : c.lastIndex ≤ i) :
    access d c i = ((walk d (i - c.lastIndex) c).1, handOut (walk d (i - c.lastIndex) c)) := by
  rw [access, if_neg (Nat.not_lt.mpr hge)]

theorem access_self (d : Bytes) (c : Cache) : access d c c.lastIndex = (c, ofThrowIfTooSmall c.lastItem) := by
  rw [access_of_ge le_rfl, Nat.sub_self]
  rfl

theorem access_of_ne (hpl : payload d = .ok pl) (h : Follows pl c) {i : Nat} (hne : i ≠ c.lastIndex) :
    (access d c i).2 = itemAt pl i ∧ Follows pl (access d c i).1 := by
  by_cases hlt : i < c.lastIndex
  · obtain ⟨hout, hcache⟩ := access_of_lt hpl hlt
    refine ⟨hout, ?_⟩
    rcases hcache with hsame | hfollows
    · rw [hsame]
      exact h
    · exact hfollows
  · obtain ⟨hfollows, hout⟩ := walk_spec hpl h (i - c.lastIndex)
    rw [access_of_ge (Nat.not_lt.mp hlt)]
    rw [Nat.add_sub_cancel' (Nat.not_lt.mp hlt)] at hout
    exact ⟨hout (by omega), hfollows⟩

end walk

/-! ### Runs of accesses -/

theorem length_lt {d : Bytes} {n : Nat} (h : length d = .ok n) : n < sizeMax := by
  cases d with
  | nil =>
    cases h
    exact Nat.zero_lt_succ _
  | cons b rest =>
    have hb := b.toNat_lt
    have hlong : ∀ {k}, longLength k rest = .ok n → n < sizeMax := fun hk =>
      (longLength_spec hk).2.1.trans_le (Nat.sub_le _ _)
    have hshort : ∀ k, (Except.ok (b.toNat - k) : Except RLPError Nat) = .ok n → n < sizeMax := by
      intro k hk
      have hn : b.toNat - k = n := Except.ok.inj hk
      unfold sizeMax
      omega
    rw [length_cons (requireGood_of_length (List.cons_ne_nil _ _) h)] at h
    split_ifs at h
    · rw [← Except.ok.inj h, sizeMax]
      omega
    · exact hshort _ h
    · exact hlong h
    · exact hshort _ h
    · exact hlong h

theorem length_payload_lt {d pl : Bytes} (h : payload d = .ok pl) : pl.length < sizeMax := by
  cases hlen : length d with
  | error e =>
    rw [payload, hlen] at h
    cases h
  | ok n =>
    rw [payload, hlen] at h
    change (if n > d.length then _ else _) = _ at h
    split at h
    · cases h
    · cases h
      refine Nat.lt_of_le_of_lt ?_ (length_lt hlen)
      rw [cropped]
      split
      · exact List.length_take_le _ _
      · exact Nat.zero_le _

def Keeps (d : Bytes) (c : Cache) : Prop := c = {} ∨ ∃ pl, payload d = .ok pl ∧ Follows pl c

/-- The payload is a concatenation of at most `n` items. -/
def EndsBy (d : Bytes) (n : Nat) : Prop :=
  ∃ its : Items, (∀ it ∈ its, Item it.1 it.2) ∧ payload d = .ok its.bytes ∧ its.length ≤ n

/-- An access returns or throws what a fresh object does, and what the iterator
    gives. -/
def Access.Right (d : Bytes) (c : Cache) (i : BitVec 64) : Prop :=
  (access d c i.toNat).2 = (access d {} i.toNat).2 ∧ (access d {} i.toNat).2 = nth d i.toNat

/-- An index whose cached item was lost in an exception; the index of a fresh
    cache; and a string instead of a list. -/
def Access.Ok (d : Bytes) (c : Cache) (i : BitVec 64) : Prop :=
  if i.toNat = sizeMax then EndsBy d sizeMax ∨ (isList d = false ∧ c.lastIndex = sizeMax)
  else if isList d then i.toNat = c.lastIndex → ofThrowIfTooSmall c.lastItem = .ok c.lastItem
  else EndsBy d i.toNat

theorem endsBy_iff {d pl : Bytes} (hpl : payload d = .ok pl) {n : Nat} : EndsBy d n ↔ itemAt pl n = .ok [] := by
  rw [itemAt_eq_nil_iff]
  constructor
  · rintro ⟨its, hall, hbytes, hlen⟩
    exact ⟨its, hall, Except.ok.inj (hpl.symm.trans hbytes), hlen⟩
  · rintro ⟨its, hall, rfl, hlen⟩
    exact ⟨its, hall, hpl, hlen⟩

theorem toNat_le (i : BitVec 64) : i.toNat ≤ sizeMax := by
  have hlt := i.isLt
  unfold sizeMax
  omega

theorem access_keeps {d : Bytes} {c : Cache} (h : Keeps d c) (i : BitVec 64) :
    Keeps d (access d c i.toNat).1 := by
  rcases h with rfl | ⟨pl, hpl, h⟩
  · rcases Nat.eq_or_lt_of_le (toNat_le i) with hmax | hlt
    · rw [hmax, show sizeMax = ({} : Cache).lastIndex from rfl, access_self]
      exact Or.inl rfl
    · cases hpl : payload d with
      | error e =>
        rw [access_of_error hpl hlt]
        exact Or.inl rfl
      | ok pl => exact (access_of_lt (c := {}) hpl hlt).2.imp id fun h => ⟨pl, hpl, h⟩
  · by_cases hsame : i.toNat = c.lastIndex
    · rw [hsame, access_self]
      exact Or.inr ⟨pl, hpl, h⟩
    · exact Or.inr ⟨pl, hpl, (access_of_ne hpl h hsame).2⟩

theorem access_fresh_max (d : Bytes) : (access d {} sizeMax).2 = .ok [] := by
  rw [show sizeMax = ({} : Cache).lastIndex from rfl, access_self]
  rfl

theorem access_fresh (d : Bytes) {i : Nat} (hlt : i < sizeMax) :
    (access d {} i).2 = payload d >>= fun pl => itemAt pl i := by
  cases hpl : payload d with
  | error e =>
    rw [access_of_error (c := {}) hpl hlt]
    rfl
  | ok pl => exact (access_of_lt (c := {}) hpl hlt).1

theorem Follows.ne_max {d pl : Bytes} {c : Cache} (hpl : payload d = .ok pl) (h : Follows pl c) :
    sizeMax ≠ c.lastIndex := by
  have hbound := h.bound
  have hlt := length_payload_lt hpl
  omega

theorem right_of_max_iff {d : Bytes} {c : Cache} (h : Keeps d c) :
    ((access d c sizeMax).2 = (access d {} sizeMax).2 ∧ (access d {} sizeMax).2 = nth d sizeMax) ↔
      EndsBy d sizeMax ∨ (isList d = false ∧ c.lastIndex = sizeMax) := by
  rw [access_fresh_max]
  -- the first half, then the iterator of a list and of a string
  have hsame : (access d c sizeMax).2 = .ok [] ↔ EndsBy d sizeMax ∨ c.lastIndex = sizeMax := by
    rcases h with rfl | ⟨pl, hpl, h⟩
    · exact iff_of_true (access_fresh_max d) (Or.inr rfl)
    · rw [(access_of_ne hpl h (h.ne_max hpl)).1, endsBy_iff hpl]
      exact (or_iff_left (Ne.symm (h.ne_max hpl))).symm
  rw [hsame]
  cases hlist : isList d with
  | false =>
    rw [nth_of_not_isList (by rw [hlist]; exact Bool.false_ne_true)]
    simp
  | true =>
    have hnth : Except.ok [] = nth d sizeMax ↔ EndsBy d sizeMax := by
      rw [nth_of_isList hlist]
      cases hpl : payload d with
      | error e =>
        refine iff_of_false (fun heq => nomatch heq) ?_
        rintro ⟨its, -, hbytes, -⟩
        rw [hpl] at hbytes
        cases hbytes
      | ok pl =>
        rw [endsBy_iff hpl]
        exact eq_comm
    rw [hnth]
    simp only [Bool.true_eq_false, false_and, or_false]
    exact ⟨fun h => h.2, fun h => ⟨Or.inl h, h⟩⟩

theorem right_of_isList_iff {d : Bytes} {c : Cache} (h : Keeps d c) (hlist : isList d = true) {i : Nat}
    (hlt : i < sizeMax) :
    ((access d c i).2 = (access d {} i).2 ∧ (access d {} i).2 = nth d i) ↔
      (i = c.lastIndex → ofThrowIfTooSmall c.lastItem = .ok c.lastItem) := by
  rw [access_fresh d hlt, nth_of_isList hlist, and_iff_left rfl]
  rcases h with rfl | ⟨pl, hpl, h⟩
  · exact iff_of_true (access_fresh d hlt) fun _ => readable_nil
  · rw [hpl]
    change _ = itemAt pl i ↔ _
    by_cases hsame : i = c.lastIndex
    · subst hsame
      obtain ⟨x, hx, hitem⟩ := h.here
      rw [access_self, hx]
      simp only [true_imp_iff]
      rcases hitem with rfl | ⟨-, herror⟩
      · exact Iff.rfl
      · have hread := sizeAsEncoded_error_iff.mp herror
        refine iff_of_false (fun hok => hread ?_) hread
        obtain rfl := ofThrowIfTooSmall_ok hok
        exact hok
    · exact iff_of_true (access_of_ne hpl h hsame).1 fun heq => absurd heq hsame

theorem right_of_not_isList_iff {d : Bytes} {c : Cache} (h : Keeps d c) (hlist : ¬isList d = true) {i : Nat}
    (hlt : i < sizeMax) :
    ((access d c i).2 = (access d {} i).2 ∧ (access d {} i).2 = nth d i) ↔ EndsBy d i := by
  rw [nth_of_not_isList hlist]
  have hfresh : (access d {} i).2 = .ok [] ↔ EndsBy d i := by
    rw [access_fresh d hlt]
    cases hpl : payload d with
    | error e =>
      refine iff_of_false (fun heq => nomatch heq) ?_
      rintro ⟨its, -, hbytes, -⟩
      rw [hpl] at hbytes
      cases hbytes
    | ok pl => exact (endsBy_iff hpl).symm
  constructor
  · intro hright
    exact hfresh.mp hright.2
  · intro hends
    refine ⟨?_, hfresh.mpr hends⟩
    rw [hfresh.mpr hends]
    rcases h with rfl | ⟨pl, hpl, h⟩
    · exact hfresh.mpr hends
    · have hitem := (endsBy_iff hpl).mp hends
      by_cases hsame : i = c.lastIndex
      · -- there is nothing at the last index, so nothing was lost there
        subst hsame
        obtain ⟨x, hx, hlast⟩ := h.here
        rw [access_self]
        rw [hitem] at hx
        cases hx
        rcases hlast with hlast | ⟨hne, -⟩
        · rw [hlast]
          rfl
        · exact absurd rfl hne
      · exact (access_of_ne hpl h hsame).1.trans hitem

/-- **Access lemma.** -/
theorem right_iff {d : Bytes} {c : Cache} (h : Keeps d c) (i : BitVec 64) : Access.Right d c i ↔ Access.Ok d c i := by
  rw [Access.Right, Access.Ok]
  by_cases hmax : i.toNat = sizeMax
  · rw [if_pos hmax, hmax]
    exact right_of_max_iff h
  · have hlt : i.toNat < sizeMax := Nat.lt_of_le_of_ne (toNat_le i) hmax
    rw [if_neg hmax]
    by_cases hlist : isList d = true
    · rw [if_pos hlist]
      exact right_of_isList_iff h hlist hlt
    · rw [if_neg hlist]
      exact right_of_not_isList_iff h hlist hlt

def accesses (d : Bytes) : Machine Cache (BitVec 64) where
  step c i := (access d c i.toNat).1

theorem runRight_iff (d : Bytes) (is : List (BitVec 64)) :
    (accesses d).RunOk (Access.Right d) {} is ↔ (accesses d).RunOk (Access.Ok d) {} is := by
  have hstart : Keeps d {} := Or.inl rfl
  constructor
  · refine Machine.RunOk.of_invariant (fun c i h hright => ?_) hstart
    exact ⟨access_keeps h i, (right_iff h i).mp hright⟩
  · refine Machine.RunOk.of_invariant (fun c i h hok => ?_) hstart
    exact ⟨access_keeps h i, (right_iff h i).mpr hok⟩

end HieraChain.RLP
