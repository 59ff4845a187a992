/-
  HieraChain/RLPCanonical.lean
  ============================
  **What the RLP reader accepts, the writer puts out.**

  `Item x p` says that `x` is the string item or the list item with payload
  `p`.  Every stretch of bytes that `sizeAsEncoded` measures is such an item
  (`item_of_sizeAsEncoded`), so an item that `operator[]` hands out splits the
  payload of its list into items up to it (`index_split`).  A typed read of an
  item determines its bytes (`eq_strItem_of_toInt`, `eq_strItem_of_toHash`,
  `eq_strItem_of_toBytes`).
-/
import Mathlib.Data.List.Induction
import HieraChain.RLPItem

namespace HieraChain.BigEndian

theorem bigEndian_fromBigEndian (d : UInt8) (b : Bytes) (hd : d ≠ 0) :
    bigEndian (fromBigEndian (d :: b)) = d :: b := by
  induction b using List.reverseRecOn with
  | nil =>
    have hnat : d.toNat ≠ 0 := fun h => hd (UInt8.toNat_inj.mp h)
    have hval : fromBigEndian [d] = d.toNat := by simp [fromBigEndian]
    have hlt := d.toNat_lt
    rw [hval, bigEndian_of_lt (Nat.pos_of_ne_zero hnat) (by omega), UInt8.ofNat_toNat]
  | append_singleton b i ih =>
    have hval : fromBigEndian (d :: (b ++ [i])) = fromBigEndian (d :: b) * 256 + i.toNat := by
      rw [← List.cons_append]
      exact fromBigEndian_append_singleton (d :: b) i
    have hpos : 0 < fromBigEndian (d :: b) := by
      rcases Nat.eq_zero_or_pos (fromBigEndian (d :: b)) with hzero | hpos
      · rw [hzero, bigEndian_zero] at ih
        cases ih
      · exact hpos
    have hlt := i.toNat_lt
    have hdiv : (fromBigEndian (d :: b) * 256 + i.toNat) / 256 = fromBigEndian (d :: b) := by omega
    have hbyte : UInt8.ofNat (fromBigEndian (d :: b) * 256 + i.toNat) = i := by
      apply UInt8.toNat_inj.mp
      simp only [UInt8.toNat_ofNat']
      omega
    rw [hval, bigEndian_of_pos (by omega), hdiv, ih, hbyte]
    rfl

end HieraChain.BigEndian

namespace HieraChain.RLP

open HieraChain.BigEndian

/-! ### Items -/

/-- `x` is the string item or the list item with payload `p`. -/
def Item (x p : Bytes) : Prop := SizeOk p.length ∧ (x = strItem p ∨ x = listItem p)

theorem Item.isItem {x p : Bytes} (h : Item x p) : IsItem x p := by
  obtain ⟨hsize, rfl | rfl⟩ := h
  · exact strItem_isItem hsize
  · exact listItem_isItem hsize

theorem isList_listItem {p : Bytes} (hsize : SizeOk p.length) : isList (listItem p) = true := by
  unfold listItem sizePrefix
  split
  next hshort =>
    have hlead := UInt8.toNat_ofNat_of_lt' (show 0xc0 + p.length < 256 by
      change p.length < 56 at hshort
      omega)
    rw [List.cons_append, isList_cons, decide_eq_true_eq]
    change 0xc0 ≤ (UInt8.ofNat (0xc0 + p.length)).toNat
    omega
  next hlong =>
    change ¬ p.length < 56 at hlong
    obtain ⟨hpos, hle⟩ := bytesRequired_size (by omega) hsize
    have hlead := UInt8.toNat_ofNat_of_lt' (show bytesRequired p.length + 247 < 256 by omega)
    rw [List.cons_append, isList_cons, decide_eq_true_eq]
    change 0xc0 ≤ (UInt8.ofNat (bytesRequired p.length + 247)).toNat
    omega

theorem isData_listItem {p : Bytes} (hsize : SizeOk p.length) : isData (listItem p) = false := by
  have hlist := isList_listItem hsize
  cases hdata : isData (listItem p) with
  | false => rfl
  | true =>
    rw [(isData_ne_nil hdata).2] at hlist
    cases hlist

theorem Item.eq_strItem {x p : Bytes} (h : Item x p) (hdata : isData x = true) : x = strItem p := by
  obtain ⟨hsize, rfl | rfl⟩ := h
  · rfl
  · rw [isData_listItem hsize] at hdata
    cases hdata

theorem Item.eq_listItem {x p : Bytes} (h : Item x p) (hlist : isList x = true) : x = listItem p := by
  obtain ⟨hsize, rfl | rfl⟩ := h
  · rw [(isData_ne_nil (isData_strItem hsize)).2] at hlist
    cases hlist
  · rfl

/-! ### What is measured is an item -/

theorem longLength_spec {k n : Nat} {rest : Bytes} (h : longLength k rest = .ok n) :
    56 ≤ n ∧ SizeOk n ∧ k ≤ rest.length ∧ bigEndian n = rest.take k := by
  unfold longLength at h
  split at h
  · cases h
  next hlen =>
  split at h
  · cases h
  next hlead =>
  split at h
  · cases h
  next hk =>
  have hbound : c_rlpListStart - c_rlpDataImmLenStart - c_rlpMaxLengthBytes = 56 := rfl
  rw [hbound] at h
  by_cases hlong : fromBigEndian (rest.take k) < 56
  · rw [if_pos hlong] at h
    cases h
  rw [if_neg hlong] at h
  by_cases hsize : fromBigEndian (rest.take k) ≥ sizeMax - 0x100
  · rw [if_pos hsize] at h
    cases h
  rw [if_neg hsize] at h
  cases h
  refine ⟨by omega, Nat.lt_of_not_le hsize, by omega, ?_⟩
  cases rest with
  | nil => exact absurd rfl hlead
  | cons d tail =>
    cases k with
    | zero => simp [fromBigEndian] at hlong
    | succ k =>
      rw [List.take_succ_cons]
      refine bigEndian_fromBigEndian d _ fun hd => hlead ?_
      rw [hd]
      rfl

theorem second_of_requireGood {d : UInt8} {rest : Bytes} (hd : d.toNat = 0x81)
    (hgood : requireGood (d :: rest) = .ok ()) :
    ∃ m tail, rest = m :: tail ∧ 0x80 ≤ m.toNat := by
  have hstart : ¬ d.toNat ≠ c_rlpDataImmLenStart + 1 := fun h => h hd
  cases rest with
  | nil =>
    simp only [requireGood, if_neg hstart] at hgood
    cases hgood
  | cons m tail =>
    refine ⟨m, tail, rfl, ?_⟩
    by_contra hlt
    have hsmall : m.toNat < c_rlpDataImmLenStart := Nat.lt_of_not_le hlt
    simp only [requireGood, if_neg hstart, if_pos hsmall] at hgood
    cases hgood

section Measured

variable {d : UInt8} {rest : Bytes}

theorem item_short_string (hgood : requireGood (d :: rest) = .ok ()) (hlo : 0x80 ≤ d.toNat)
    (hhi : d.toNat ≤ 183) (hle : d.toNat - 128 ≤ rest.length) :
    Item (d :: rest.take (d.toNat - 128)) (rest.take (d.toNat - 128)) := by
  have hlen : (rest.take (d.toNat - 128)).length = d.toNat - 128 := List.length_take_of_le hle
  have hbyte : UInt8.ofNat (0x80 + (d.toNat - 128)) = d := by
    rw [show 0x80 + (d.toNat - 128) = d.toNat by omega, UInt8.ofNat_toNat]
  refine ⟨by rw [hlen]; unfold SizeOk sizeMax; omega, Or.inl ?_⟩
  rw [strItem, if_neg, sizePrefix, if_pos]
  · simp only [c_rlpDataImmLenStart, hlen, hbyte, List.singleton_append]
  · rw [hlen]
    change d.toNat - 128 < 56
    omega
  · rintro ⟨hone, hlead⟩
    rw [hlen] at hone
    obtain ⟨m, tail, rfl, hm⟩ := second_of_requireGood (by omega) hgood
    rw [hone] at hlead
    change m.toNat < 0x80 at hlead
    omega

theorem item_short_list (hlo : 0xc0 ≤ d.toNat) (hhi : d.toNat ≤ 247)
    (hle : d.toNat - 192 ≤ rest.length) :
    Item (d :: rest.take (d.toNat - 192)) (rest.take (d.toNat - 192)) := by
  have hlen : (rest.take (d.toNat - 192)).length = d.toNat - 192 := List.length_take_of_le hle
  have hbyte : UInt8.ofNat (0xc0 + (d.toNat - 192)) = d := by
    rw [show 0xc0 + (d.toNat - 192) = d.toNat by omega, UInt8.ofNat_toNat]
  refine ⟨by rw [hlen]; unfold SizeOk sizeMax; omega, Or.inr ?_⟩
  rw [listItem, sizePrefix, if_pos]
  · simp only [c_rlpListStart, hlen, hbyte, List.singleton_append]
  · rw [hlen]
    change d.toNat - 192 < 56
    omega

theorem long_split {k n : Nat} (hlong : longLength k rest = .ok n) (hle : k + n ≤ rest.length) :
    ∃ p, p.length = n ∧ rest.take (k + n) = bigEndian n ++ p ∧ bytesRequired n = k := by
  obtain ⟨-, -, hk, hbytes⟩ := longLength_spec hlong
  refine ⟨(rest.drop k).take n, ?_, ?_, ?_⟩
  · rw [List.length_take, List.length_drop]
    omega
  · rw [hbytes, List.take_add]
  · rw [← length_bigEndian, hbytes, List.length_take_of_le hk]

theorem item_long_string {n : Nat} (hlo : 183 < d.toNat) (hhi : d.toNat < 192)
    (hlong : longLength (d.toNat - 183) rest = .ok n) (hle : d.toNat - 183 + n ≤ rest.length) :
    ∃ p, Item (d :: rest.take (d.toNat - 183 + n)) p := by
  obtain ⟨hbig, hsize, -, -⟩ := longLength_spec hlong
  obtain ⟨p, hlen, hsplit, hk⟩ := long_split hlong hle
  refine ⟨p, by rw [hlen]; exact hsize, Or.inl ?_⟩
  have hbyte : UInt8.ofNat (d.toNat - 183 + 183) = d := by
    rw [show d.toNat - 183 + 183 = d.toNat by omega, UInt8.ofNat_toNat]
  have himm : ¬ n < 56 := by omega
  have hone : ¬ (n = 1 ∧ lead p < 128) := by omega
  simp only [strItem, sizePrefix, c_rlpDataImmLenStart, c_rlpDataImmLenCount, c_rlpListStart,
    c_rlpMaxLengthBytes, hlen, hone, himm, if_false, hsplit, hk]
  rw [hbyte]
  rfl

theorem item_long_list {n : Nat} (hlo : 247 < d.toNat)
    (hlong : longLength (d.toNat - 247) rest = .ok n) (hle : d.toNat - 247 + n ≤ rest.length) :
    ∃ p, Item (d :: rest.take (d.toNat - 247 + n)) p := by
  obtain ⟨hbig, hsize, -, -⟩ := longLength_spec hlong
  obtain ⟨p, hlen, hsplit, hk⟩ := long_split hlong hle
  refine ⟨p, by rw [hlen]; exact hsize, Or.inr ?_⟩
  have hbyte : UInt8.ofNat (d.toNat - 247 + 247) = d := by
    rw [show d.toNat - 247 + 247 = d.toNat by omega, UInt8.ofNat_toNat]
  have himm : ¬ n < 56 := by omega
  simp only [listItem, sizePrefix, c_rlpListStart, c_rlpListImmLenCount, c_rlpMaxLengthBytes, hlen,
    himm, if_false, hsplit, hk]
  rw [hbyte]
  rfl

end Measured

/-- **The bytes that `actualSize` measures are an item**, when they are there. -/
theorem item_of_actualSize {d : Bytes} {n : Nat} (hne : d ≠ []) (h : actualSize d = .ok n)
    (hle : n ≤ d.length) : ∃ p, Item (d.take n) p := by
  cases d with
  | nil => exact absurd rfl hne
  | cons b rest =>
    rw [actualSize, isNull_cons, if_neg Bool.false_ne_true, isSingleByte_cons] at h
    by_cases hsingle : b.toNat < 0x80
    · rw [if_pos (by simpa using hsingle)] at h
      cases h
      refine ⟨[b], by unfold SizeOk sizeMax; simp, Or.inl ?_⟩
      rw [strItem, if_pos ⟨rfl, hsingle⟩]
      rfl
    rw [if_neg (by simpa using hsingle)] at h
    cases hlen : length (b :: rest) with
    | error e => rw [hlen] at h; cases h
    | ok l =>
      rw [hlen] at h
      have hn : payloadOffset (b :: rest) + l = n := Except.ok.inj h
      have hgood := requireGood_of_length (List.cons_ne_nil _ _) hlen
      rw [length_cons hgood, if_neg hsingle] at hlen
      rw [payloadOffset_cons, if_neg hsingle] at hn
      rw [List.length_cons] at hle
      by_cases h183 : b.toNat ≤ 183
      · rw [if_pos h183] at hlen hn
        have hl : b.toNat - 128 = l := Except.ok.inj hlen
        rw [← hn, ← hl, Nat.add_comm 1 (b.toNat - 128), List.take_succ_cons]
        exact ⟨_, item_short_string hgood (by omega) h183 (by omega)⟩
      rw [if_neg h183] at hlen hn
      by_cases h192 : b.toNat < 192
      · rw [if_pos h192] at hlen hn
        subst hn
        rw [show 1 + (b.toNat - 183) + l = (b.toNat - 183 + l) + 1 by omega, List.take_succ_cons]
        exact item_long_string (by omega) h192 hlen (by omega)
      rw [if_neg h192] at hlen hn
      by_cases h247 : b.toNat ≤ 247
      · rw [if_pos h247] at hlen hn
        have hl : b.toNat - 192 = l := Except.ok.inj hlen
        rw [← hn, ← hl, Nat.add_comm 1 (b.toNat - 192), List.take_succ_cons]
        exact ⟨_, item_short_list (by omega) h247 (by omega)⟩
      · rw [if_neg h247] at hlen hn
        subst hn
        rw [show 1 + (b.toNat - 247) + l = (b.toNat - 247 + l) + 1 by omega, List.take_succ_cons]
        exact item_long_list (by omega) hlen (by omega)

theorem sizeAsEncoded_spec {d : Bytes} {n : Nat} (h : sizeAsEncoded d = .ok n) :
    actualSize d = .ok n ∧ n ≤ d.length := by
  cases hsize : actualSize d with
  | error e =>
    simp only [sizeAsEncoded, ofThrowIfTooSmall, hsize] at h
    cases h
  | ok m =>
    by_cases hle : m > d.length
    · simp only [sizeAsEncoded, ofThrowIfTooSmall, hsize, bind, Except.bind, if_pos hle] at h
      cases h
    · simp only [sizeAsEncoded, ofThrowIfTooSmall, hsize, bind, Except.bind, if_neg hle] at h
      cases h
      exact ⟨rfl, by omega⟩

theorem cropped_of_sizeAsEncoded {d : Bytes} {n : Nat} (h : sizeAsEncoded d = .ok n) :
    cropped d 0 n = d.take n := by
  have hle := (sizeAsEncoded_spec h).2
  rw [cropped, if_pos (by omega), List.drop_zero]

theorem item_take {d : Bytes} {n : Nat} (hne : d ≠ []) (h : sizeAsEncoded d = .ok n) :
    ∃ p, Item (d.take n) p :=
  item_of_actualSize hne (sizeAsEncoded_spec h).1 (sizeAsEncoded_spec h).2

theorem item_of_sizeAsEncoded {d : Bytes} {n : Nat} (hne : d ≠ []) (h : sizeAsEncoded d = .ok n) :
    ∃ p rest, Item (cropped d 0 n) p ∧ d = cropped d 0 n ++ rest := by
  obtain ⟨p, hitem⟩ := item_take hne h
  rw [cropped_of_sizeAsEncoded h]
  exact ⟨p, d.drop n, hitem, (List.take_append_drop n d).symm⟩

theorem item_of_ofVeryStrict {d x : Bytes} (hne : d ≠ []) (h : ofVeryStrict d = .ok x) :
    x = d ∧ ∃ p, Item d p := by
  cases hsize : actualSize d with
  | error e =>
    rw [ofVeryStrict, hsize] at h
    cases h
  | ok n =>
    rw [ofVeryStrict, hsize] at h
    change (if n < d.length then _ else if n > d.length then _ else _) = _ at h
    split at h
    · cases h
    next hlo =>
    split at h
    · cases h
    next hhi =>
    cases h
    have hn : n = d.length := by omega
    obtain ⟨p, hitem⟩ := item_of_actualSize hne hsize (by omega)
    rw [hn, List.take_length] at hitem
    exact ⟨rfl, p, hitem⟩

/-! ### Walking a list -/

theorem indexFrom_split {pl x : Bytes} (k : Nat) (pre tail : Bytes) (it : Bytes × Bytes)
    (hitem : Item it.1 it.2) (hpl : pl = pre ++ it.1 ++ tail) (hne : x ≠ [])
    (h : indexFrom pl k (pre.length + it.1.length) it.1 = .ok x) :
    ∃ its rest, (∀ j ∈ its, Item j.1 j.2) ∧ tail = Items.bytes its ++ rest
      ∧ its.length = k ∧ (it :: its)[k]?.map Prod.fst = some x := by
  induction k generalizing pre tail it with
  | zero =>
    simp only [indexFrom] at h
    cases h
    exact ⟨[], tail, by simp, rfl, rfl, rfl⟩
  | succ k ih =>
    have hdrop : pl.drop (pre.length + it.1.length) = tail := by
      rw [hpl, ← List.length_append]
      exact List.drop_left
    cases hsize : sizeAsEncoded (pl.drop (pre.length + it.1.length)) with
    | error e =>
      have hempty : it.1.isEmpty = false := List.isEmpty_eq_false_iff.mpr hitem.isItem.ne_nil
      rw [indexFrom, hempty, if_neg Bool.false_ne_true] at h
      simp only [hsize] at h
      cases h
    | ok n =>
      rw [indexFrom_succ hitem.isItem.ne_nil hsize, hdrop] at h
      rw [hdrop] at hsize
      by_cases htail : tail = []
      · -- past the end every further item is empty
        subst htail
        have hcrop : cropped [] 0 n = [] := by
          rw [cropped]
          split <;> simp
        rw [hcrop] at h
        cases k with
        | zero => exact absurd (Except.ok.inj h).symm hne
        | succ k => exact absurd (Except.ok.inj h).symm hne
      · obtain ⟨p, rest, hnext, hsplit⟩ := item_of_sizeAsEncoded htail hsize
        have hpl' : pl = (pre ++ it.1) ++ cropped tail 0 n ++ rest := by
          rw [hpl, List.append_assoc (pre ++ it.1), ← hsplit]
        rw [← List.length_append] at h
        obtain ⟨its, rest', hall, hrest, hlen, hget⟩ := ih (pre ++ it.1) rest
          (cropped tail 0 n, p) hnext hpl' h
        refine ⟨(cropped tail 0 n, p) :: its, rest', ?_, ?_, by simp [hlen], by simpa using hget⟩
        · intro j hj
          rcases List.mem_cons.mp hj with rfl | hj
          · exact hnext
          · exact hall j hj
        · rw [Items.bytes_cons, List.append_assoc, ← hrest, ← hsplit]

theorem payload_of_index {d x : Bytes} {k : Nat} (h : index d k = .ok x) :
    ∃ pl, payload d = .ok pl := by
  cases hpl : payload d with
  | ok pl => exact ⟨pl, rfl⟩
  | error e =>
    rw [index, hpl] at h
    cases h

theorem ofThrowIfTooSmall_ok {d x : Bytes} (h : ofThrowIfTooSmall d = .ok x) : x = d := by
  cases hsize : actualSize d with
  | error e =>
    rw [ofThrowIfTooSmall, hsize] at h
    cases h
  | ok n =>
    rw [ofThrowIfTooSmall, hsize] at h
    change (if n > d.length then _ else _) = _ at h
    split at h
    · cases h
    · exact (Except.ok.inj h).symm

/-- **`operator[]` splits the payload** into the items up to the one it returns
    and what follows them. -/
theorem index_split {d pl x : Bytes} {k : Nat} (hpl : payload d = .ok pl)
    (h : index d k = .ok x) (hne : x ≠ []) :
    ∃ its rest, (∀ it ∈ its, Item it.1 it.2) ∧ pl = Items.bytes its ++ rest
      ∧ its.length = k + 1 ∧ its[k]?.map Prod.fst = some x := by
  rw [index, hpl] at h
  change (do
    let lastEnd ← sizeAsEncoded pl
    let item ← indexFrom pl k lastEnd (cropped pl 0 lastEnd)
    ofThrowIfTooSmall item) = _ at h
  cases hsize : sizeAsEncoded pl with
  | error e => rw [hsize] at h; cases h
  | ok n =>
    rw [hsize] at h
    change (do
      let item ← indexFrom pl k n (cropped pl 0 n)
      ofThrowIfTooSmall item) = _ at h
    cases hwalk : indexFrom pl k n (cropped pl 0 n) with
    | error e => rw [hwalk] at h; cases h
    | ok item =>
      rw [hwalk] at h
      have hitem : item = x := (ofThrowIfTooSmall_ok h).symm
      subst hitem
      by_cases hnil : pl = []
      · subst hnil
        have hcrop : cropped [] 0 n = [] := by
          rw [cropped]
          split <;> simp
        rw [hcrop] at hwalk
        cases k with
        | zero => exact absurd (Except.ok.inj hwalk).symm hne
        | succ k => exact absurd (Except.ok.inj hwalk).symm hne
      · obtain ⟨p, rest, hhead, hsplit⟩ := item_of_sizeAsEncoded hnil hsize
        have hn : (cropped pl 0 n).length = n := by
          obtain ⟨-, hle⟩ := sizeAsEncoded_spec hsize
          rw [cropped, if_pos (by omega), List.drop_zero, List.length_take_of_le hle]
        have hwalk' : indexFrom pl k (([] : Bytes).length + (cropped pl 0 n).length)
            (cropped pl 0 n) = .ok item := by
          rw [hn, List.length_nil, Nat.zero_add]
          exact hwalk
        obtain ⟨its, rest', hall, hrest, hlen, hget⟩ := indexFrom_split k [] rest
          (cropped pl 0 n, p) hhead hsplit hne hwalk'
        refine ⟨(cropped pl 0 n, p) :: its, rest', ?_, ?_, by simp [hlen], hget⟩
        · intro it hit
          rcases List.mem_cons.mp hit with rfl | hit
          · exact hhead
          · exact hall it hit
        · rw [Items.bytes_cons, List.append_assoc, ← hrest, ← hsplit]

theorem indexFrom_past_end (pre rest : Bytes) (it : Bytes × Bytes) (its : Items)
    (hall : ∀ j ∈ it :: its, Item j.1 j.2) :
    indexFrom (pre ++ (Items.bytes (it :: its) ++ rest)) (its.length + 1)
        (pre.length + it.1.length) it.1 = .ok [] ↔ rest = [] := by
  induction its generalizing pre it with
  | nil =>
    have hdrop : (pre ++ (Items.bytes [it] ++ rest)).drop (pre.length + it.1.length) = rest := by
      rw [Items.bytes_cons, Items.bytes_nil, List.append_nil, ← List.append_assoc,
        ← List.length_append]
      exact List.drop_left
    have hempty : it.1.isEmpty = false :=
      List.isEmpty_eq_false_iff.mpr (hall it List.mem_cons_self).isItem.ne_nil
    rw [List.length_nil, indexFrom, hempty, if_neg Bool.false_ne_true]
    simp only [hdrop]
    constructor
    · intro h
      by_contra hrest
      cases hsize : sizeAsEncoded rest with
      | error e => rw [hsize] at h; cases h
      | ok n =>
        rw [hsize] at h
        obtain ⟨p, tail, hitem, -⟩ := item_of_sizeAsEncoded hrest hsize
        exact hitem.isItem.ne_nil (Except.ok.inj h)
    · rintro rfl
      rfl
  | cons it' its ih =>
    have hhead := hall it List.mem_cons_self
    have hnext := (hall it' (List.mem_cons_of_mem _ List.mem_cons_self)).isItem
    have hdrop : (pre ++ (Items.bytes (it :: it' :: its) ++ rest)).drop (pre.length + it.1.length)
        = it'.1 ++ (Items.bytes its ++ rest) := by
      simp only [Items.bytes_cons, List.append_assoc]
      rw [← List.append_assoc pre, ← List.length_append]
      exact List.drop_left
    have hsize : sizeAsEncoded
        ((pre ++ (Items.bytes (it :: it' :: its) ++ rest)).drop (pre.length + it.1.length))
          = .ok it'.1.length := by rw [hdrop, hnext.sizeAsEncoded_eq]
    have hwalk := ih (pre ++ it.1) it' (fun y hy => hall y (List.mem_cons_of_mem _ hy))
    rw [List.length_append, List.append_assoc, ← List.append_assoc it.1] at hwalk
    rw [List.length_cons, indexFrom_succ hhead.isItem.ne_nil hsize, hdrop, cropped_zero_append]
    exact hwalk

theorem index_past_end {d rest : Bytes} {its : Items} (hpl : payload d = .ok (its.bytes ++ rest))
    (hall : ∀ it ∈ its, Item it.1 it.2) (hne : its ≠ []) :
    index d its.length = .ok [] ↔ rest = [] := by
  cases its with
  | nil => exact absurd rfl hne
  | cons it its =>
    have hhead := (hall it List.mem_cons_self).isItem
    have hwalk := indexFrom_past_end [] rest it its hall
    rw [List.nil_append, List.length_nil, Nat.zero_add] at hwalk
    rw [← hwalk, index, hpl]
    change (do let lastEnd ← sizeAsEncoded (Items.bytes (it :: its) ++ rest); _) = _ ↔ _
    rw [Items.bytes_cons, List.append_assoc, hhead.sizeAsEncoded_eq]
    change (do
      let item ← indexFrom _ (its.length + 1) it.1.length (cropped _ 0 it.1.length)
      ofThrowIfTooSmall item) = _ ↔ _
    rw [cropped_zero_append, ← List.append_assoc]
    constructor
    · intro h
      cases hitem : indexFrom (it.1 ++ Items.bytes its ++ rest) (its.length + 1) it.1.length it.1 with
      | error e => rw [hitem] at h; cases h
      | ok x =>
        rw [hitem] at h
        rw [← ofThrowIfTooSmall_ok h]
    · intro h
      rw [h]
      rfl

/-! ### Lists of items -/

theorem items_of_items {its : Items} (hall : ∀ it ∈ its, IsItem it.1 it.2) {fuel : Nat}
    (hfuel : its.length ≤ fuel) : items fuel (Items.bytes its) = .ok (its.map Prod.fst) := by
  induction its generalizing fuel with
  | nil => cases fuel <;> rfl
  | cons it its ih =>
    obtain ⟨fuel, rfl⟩ := Nat.exists_eq_succ_of_ne_zero (show fuel ≠ 0 by
      rw [List.length_cons] at hfuel
      omega)
    have hhead := hall it List.mem_cons_self
    have hrest := ih (fun it' hit' => hall it' (List.mem_cons_of_mem _ hit'))
      (Nat.le_of_succ_le_succ hfuel)
    obtain ⟨d, tail, hd⟩ := List.exists_cons_of_ne_nil hhead.ne_nil
    have hbytes : (Items.bytes (it :: its)) = d :: (tail ++ Items.bytes its) := by
      rw [Items.bytes_cons, hd, List.cons_append]
    have hsize := hhead.sizeAsEncoded_eq (Items.bytes its)
    have hunfold : items (fuel + 1) (Items.bytes (it :: its)) = do
        let item := cropped (Items.bytes (it :: its)) 0 (← sizeAsEncoded (Items.bytes (it :: its)))
        return (← ofVeryStrict item) :: (← items fuel ((Items.bytes (it :: its)).drop item.length)) := by
      rw [hbytes]
      rfl
    rw [Nat.succ_eq_add_one, hunfold, Items.bytes_cons, hsize]
    simp only [bind, Except.bind, cropped_zero_append, hhead.ofVeryStrict_eq, List.drop_left, hrest]
    rfl

theorem itemCountFrom_of_items {its : Items} (hall : ∀ it ∈ its, IsItem it.1 it.2) {fuel : Nat}
    (hfuel : its.length ≤ fuel) : itemCountFrom fuel (Items.bytes its) = .ok its.length := by
  induction its generalizing fuel with
  | nil => cases fuel <;> rfl
  | cons it its ih =>
    obtain ⟨fuel, rfl⟩ := Nat.exists_eq_succ_of_ne_zero (show fuel ≠ 0 by
      rw [List.length_cons] at hfuel
      omega)
    have hhead := hall it List.mem_cons_self
    have hrest := ih (fun it' hit' => hall it' (List.mem_cons_of_mem _ hit'))
      (Nat.le_of_succ_le_succ hfuel)
    obtain ⟨d, tail, hd⟩ := List.exists_cons_of_ne_nil hhead.ne_nil
    have hbytes : (Items.bytes (it :: its)) = d :: (tail ++ Items.bytes its) := by
      rw [Items.bytes_cons, hd, List.cons_append]
    have hunfold : itemCountFrom (fuel + 1) (Items.bytes (it :: its)) = do
        let size ← sizeAsEncoded (Items.bytes (it :: its))
        return (← itemCountFrom fuel ((Items.bytes (it :: its)).drop size)) + 1 := by
      rw [hbytes]
      rfl
    rw [Nat.succ_eq_add_one, hunfold, Items.bytes_cons, hhead.sizeAsEncoded_eq]
    simp only [bind, Except.bind, List.drop_left, hrest]
    rfl

theorem items_spec {fuel : Nat} {pl : Bytes} {xs : List Bytes} (h : items fuel pl = .ok xs)
    (hfuel : pl.length ≤ fuel) :
    ∃ its : Items, (∀ it ∈ its, Item it.1 it.2) ∧ pl = its.bytes ∧ xs = its.map Prod.fst := by
  induction fuel generalizing pl xs with
  | zero =>
    obtain rfl := List.eq_nil_of_length_eq_zero (Nat.eq_zero_of_le_zero hfuel)
    cases h
    exact ⟨[], by simp, rfl, rfl⟩
  | succ fuel ih =>
    cases pl with
    | nil =>
      cases h
      exact ⟨[], by simp, rfl, rfl⟩
    | cons d tail =>
      cases hn : sizeAsEncoded (d :: tail) with
      | error e =>
        simp only [items, hn] at h
        cases h
      | ok n =>
        obtain ⟨p, hitem⟩ := item_take (List.cons_ne_nil d tail) hn
        have hle := (sizeAsEncoded_spec hn).2
        have hpos := List.length_pos_iff.mpr hitem.isItem.ne_nil
        have hlen : ((d :: tail).take n).length = n := List.length_take_of_le hle
        simp only [items, hn, bind, Except.bind, cropped_of_sizeAsEncoded hn, hitem.isItem.ofVeryStrict_eq,
          hlen] at h
        cases hys : items fuel ((d :: tail).drop n) with
        | error e =>
          rw [hys] at h
          cases h
        | ok ys =>
          rw [hys] at h
          cases h
          obtain ⟨its, hall, hrest, rfl⟩ := ih hys (by
            rw [List.length_drop]
            omega)
          refine ⟨((d :: tail).take n, p) :: its, List.forall_mem_cons.mpr ⟨hitem, hall⟩, ?_, rfl⟩
          rw [Items.bytes_cons, ← hrest, List.take_append_drop]

theorem itemCountFrom_spec {fuel : Nat} {pl : Bytes} {n : Nat} (h : itemCountFrom fuel pl = .ok n)
    (hfuel : pl.length ≤ fuel) :
    ∃ its : Items, (∀ it ∈ its, Item it.1 it.2) ∧ pl = its.bytes ∧ n = its.length := by
  induction fuel generalizing pl n with
  | zero =>
    obtain rfl := List.eq_nil_of_length_eq_zero (Nat.eq_zero_of_le_zero hfuel)
    cases h
    exact ⟨[], by simp, rfl, rfl⟩
  | succ fuel ih =>
    cases pl with
    | nil =>
      cases h
      exact ⟨[], by simp, rfl, rfl⟩
    | cons d tail =>
      cases hm : sizeAsEncoded (d :: tail) with
      | error e =>
        simp only [itemCountFrom, hm] at h
        cases h
      | ok m =>
        obtain ⟨p, hitem⟩ := item_take (List.cons_ne_nil d tail) hm
        have hpos := List.length_pos_iff.mpr hitem.isItem.ne_nil
        have hlen : ((d :: tail).take m).length = m := List.length_take_of_le (sizeAsEncoded_spec hm).2
        simp only [itemCountFrom, hm, bind, Except.bind] at h
        cases hk : itemCountFrom fuel ((d :: tail).drop m) with
        | error e =>
          rw [hk] at h
          cases h
        | ok k =>
          rw [hk] at h
          cases h
          obtain ⟨its, hall, hrest, rfl⟩ := ih hk (by
            rw [List.length_drop]
            omega)
          refine ⟨((d :: tail).take m, p) :: its, List.forall_mem_cons.mpr ⟨hitem, hall⟩, ?_, rfl⟩
          rw [Items.bytes_cons, ← hrest, List.take_append_drop]

theorem toVector_listItem {α : Type} {convert : Bytes → Except RLPError α} {its : Items}
    (hsize : SizeOk its.bytes.length) (hall : ∀ it ∈ its, IsItem it.1 it.2) :
    toVector convert (listItem its.bytes) = (its.map Prod.fst).mapM convert := by
  have hpayload := (listItem_isItem hsize).payload_eq []
  rw [List.append_nil] at hpayload
  rw [toVector, if_pos (isList_listItem hsize), hpayload]
  change (do (← items its.bytes.length its.bytes).mapM convert) = _
  rw [items_of_items hall (length_le_bytes hall)]
  rfl

theorem itemCountStrict_listItem {its : Items} (hsize : SizeOk its.bytes.length)
    (hall : ∀ it ∈ its, IsItem it.1 it.2) : itemCountStrict (listItem its.bytes) = .ok its.length := by
  have hpayload := (listItem_isItem hsize).payload_eq []
  rw [List.append_nil] at hpayload
  rw [itemCountStrict, if_pos (isList_listItem hsize), hpayload]
  exact itemCountFrom_of_items hall (length_le_bytes hall)

/-! ### Typed reads of an item -/

theorem Item.payload_eq {x p : Bytes} (h : Item x p) : payload x = .ok p := by
  have hpayload := h.isItem.payload_eq []
  rwa [List.append_nil] at hpayload

theorem eq_strItem_of_toBytes {x p b : Bytes} (hitem : Item x p) (hdata : isData x = true)
    (h : toBytes x = .ok b) : x = strItem b := by
  rw [toBytes, if_pos hdata, hitem.payload_eq] at h
  rw [hitem.eq_strItem hdata, Except.ok.inj h]

theorem eq_strItem_of_toHash {x p : Bytes} {size : Nat} {b : FixedHash size} (hitem : Item x p)
    (h : toHash size x = .ok b) : x = strItem b.data := by
  cases hgood : requireGood x with
  | error e =>
    rw [toHash, hgood] at h
    cases h
  | ok u =>
    rw [toHash, hgood, hitem.payload_eq] at h
    change (if isData x = true then _ else _) = _ at h
    split at h
    next hdata =>
      split at h
      next hlen =>
        rw [hitem.eq_strItem hdata, ← Except.ok.inj h]
      next => cases h
    next => cases h

theorem lead_of_isInt {p : Bytes} (hshort : p.length ≤ 55) (h : isInt (strItem p) = .ok true) :
    p = [] ∨ lead p ≠ 0 := by
  cases p with
  | nil => exact Or.inl rfl
  | cons d rest =>
    right
    have hsize : SizeOk (d :: rest).length := by
      unfold SizeOk sizeMax
      omega
    have hgood := requireGood_strItem hsize
    unfold strItem at h hgood
    by_cases hsingle : (d :: rest).length = 1 ∧ lead (d :: rest) < c_rlpDataImmLenStart
    · rw [if_pos hsingle] at h hgood
      rw [isInt, isNull_cons, if_neg Bool.false_ne_true, hgood] at h
      change (if lead (d :: rest) < c_rlpDataImmLenStart then Except.ok (lead (d :: rest) != 0)
        else _) = _ at h
      rw [if_pos hsingle.2] at h
      simpa using Except.ok.inj h
    · have hprefix : sizePrefix c_rlpDataImmLenStart c_rlpDataImmLenCount (d :: rest).length
          = [UInt8.ofNat (0x80 + (rest.length + 1))] := by
        rw [sizePrefix, if_pos]
        · rfl
        · change rest.length + 1 < 56
          rw [List.length_cons] at hshort
          omega
      rw [List.length_cons] at hshort
      have hlead := UInt8.toNat_ofNat_of_lt' (show 0x80 + (rest.length + 1) < 256 by omega)
      rw [if_neg hsingle, hprefix, List.singleton_append] at h hgood
      rw [isInt, isNull_cons, if_neg Bool.false_ne_true, hgood] at h
      change (if lead (_ :: d :: rest) < 128 then _ else if lead (_ :: d :: rest) = 128 then _
        else if lead (_ :: d :: rest) ≤ 183 then
          (if (d :: rest).length + 1 ≤ 1 then _ else Except.ok (lead (d :: rest) != 0)) else _)
        = _ at h
      rw [lead_cons, hlead, if_neg (by omega), if_neg (by omega), if_pos (by omega),
        if_neg (by simp)] at h
      simpa using Except.ok.inj h

theorem toInt_spec {x p : Bytes} {maxSize n : Nat} (hitem : Item x p)
    (h : toInt maxSize x = .ok n) :
    x = strItem p ∧ isInt x = .ok true ∧ p.length ≤ maxSize ∧ n = fromBigEndian p := by
  cases hgood : requireGood x with
  | error e =>
    rw [toInt, hgood] at h
    cases h
  | ok u =>
    cases hint : isInt x with
    | error e =>
      rw [toInt, hgood, hint] at h
      cases h
    | ok v =>
      rw [toInt, hgood, hint, hitem.payload_eq] at h
      change (if (!v || isList x || isNull x) = true then _ else
        if p.length > maxSize then _ else _) = _ at h
      split at h
      · cases h
      next hkind =>
      split at h
      · cases h
      next hlen =>
      have hlist : isList x = false := by
        cases hl : isList x with
        | false => rfl
        | true => exact absurd (by rw [hl, Bool.or_true, Bool.true_or]) hkind
      have hv : v = true := by
        cases v with
        | true => rfl
        | false => exact absurd rfl hkind
      obtain ⟨hsize, hx | hx⟩ := hitem
      · exact ⟨hx, by rw [hv], by omega, (Except.ok.inj h).symm⟩
      · rw [hx, isList_listItem hsize] at hlist
        cases hlist

/-- **An integer that was read is written as it was.** -/
theorem eq_strItem_of_toInt {x p : Bytes} {maxSize n : Nat} (hmax : maxSize ≤ 55)
    (hitem : Item x p) (h : toInt maxSize x = .ok n) :
    x = strItem (bigEndian n) ∧ n < 256 ^ maxSize := by
  obtain ⟨rfl, hint, hlen, rfl⟩ := toInt_spec hitem h
  have hbytes : bigEndian (fromBigEndian p) = p := by
    rcases lead_of_isInt (by omega) hint with rfl | hlead
    · rfl
    · cases p with
      | nil => exact absurd rfl hlead
      | cons d rest =>
        refine bigEndian_fromBigEndian d rest fun hd => hlead ?_
        rw [hd]
        rfl
  refine ⟨by rw [hbytes], bytesRequired_le_iff.mp ?_⟩
  rw [← length_bigEndian, hbytes]
  exact hlen

theorem index_of_toInt {d : Bytes} {k maxSize n : Nat} (hmax : maxSize ≤ 55)
    (h : (do toInt maxSize (← index d k)) = .ok n) :
    index d k = .ok (strItem (bigEndian n)) ∧ n < 256 ^ maxSize := by
  cases hx : index d k with
  | error e =>
    rw [hx] at h
    cases h
  | ok x =>
    rw [hx] at h
    have hread : toInt maxSize x = .ok n := h
    have hne : x ≠ [] := by
      rintro rfl
      cases hread
    obtain ⟨pl, hpl⟩ := payload_of_index hx
    obtain ⟨its, rest, hall, -, -, hget⟩ := index_split hpl hx hne
    obtain ⟨it, hit, rfl⟩ := Option.map_eq_some_iff.mp hget
    obtain ⟨heq, hlt⟩ := eq_strItem_of_toInt hmax (hall it (List.mem_of_getElem? hit)) hread
    exact ⟨by rw [heq], hlt⟩

end HieraChain.RLP
