/-
  HieraChain/RLPItem.lean
  =======================
  **What the RLP writer puts out, the reader takes back** — one item at a time.

  `strItem b` and `listItem pl` are the bytes the writer adds for a string and
  for a finished list; every `append` is one of them (`appendBytes_eq`,
  `appendBigint_eq`).  `IsItem x p` says that `x` reads as an item with payload
  `p` whatever follows it; both kinds satisfy it (`strItem_isItem`,
  `listItem_isItem`) as long as the payload length fits the reader's bound, and
  every accessor is then determined on a concatenation of items
  (`index_of_items`, `toInt_strItem`, `toVector_listItem`, …).
-/
import HieraChain.RLP

namespace HieraChain.RLP

open HieraChain.BigEndian

/-! ### Items as the writer lays them out -/

def strItem (b : Bytes) : Bytes :=
  if b.length = 1 ∧ lead b < c_rlpDataImmLenStart then b
  else sizePrefix c_rlpDataImmLenStart c_rlpDataImmLenCount b.length ++ b

def listItem (pl : Bytes) : Bytes :=
  sizePrefix c_rlpListStart c_rlpListImmLenCount pl.length ++ pl

def SizeOk (n : Nat) : Prop := n < sizeMax - 0x100

theorem SizeOk.mono {m n : Nat} (h : SizeOk n) (hle : m ≤ n) : SizeOk m :=
  Nat.lt_of_le_of_lt hle h

@[simp] theorem lead_cons (d : UInt8) (rest : Bytes) : lead (d :: rest) = d.toNat := rfl

@[simp] theorem isNull_cons (d : UInt8) (rest : Bytes) : isNull (d :: rest) = false := rfl

@[simp] theorem isData_cons (d : UInt8) (rest : Bytes) :
    isData (d :: rest) = decide (d.toNat < 0xc0) := rfl

@[simp] theorem isList_cons (d : UInt8) (rest : Bytes) :
    isList (d :: rest) = decide (0xc0 ≤ d.toNat) := rfl

@[simp] theorem isSingleByte_cons (d : UInt8) (rest : Bytes) :
    isSingleByte (d :: rest) = decide (d.toNat < 0x80) := rfl

theorem appendBytes_eq (s : RLPStream) (b : Bytes) :
    appendBytes s b = noteAppended { s with mOut := s.mOut ++ strItem b } := by
  unfold appendBytes strItem
  split
  · rfl
  · rw [List.append_assoc]

theorem lead_bigEndian_of_lt {i : Nat} (hpos : 0 < i) (hlt : i < 0x80) :
    bigEndian i = [UInt8.ofNat i] ∧ (UInt8.ofNat i).toNat = i := by
  refine ⟨bigEndian_of_lt hpos (by omega), ?_⟩
  simp only [UInt8.toNat_ofNat']
  omega

theorem appendBigint_eq (s : RLPStream) (i : Nat) :
    appendBigint s i = noteAppended { s with mOut := s.mOut ++ strItem (bigEndian i) } := by
  unfold appendBigint
  by_cases hzero : i = 0
  · subst hzero
    rw [if_pos rfl, bigEndian_zero]
    rfl
  · rw [if_neg hzero]
    by_cases hsmall : i < c_rlpDataImmLenStart
    · obtain ⟨hbytes, hbyte⟩ := lead_bigEndian_of_lt (Nat.pos_of_ne_zero hzero) hsmall
      rw [if_pos hsmall, hbytes, strItem, if_pos]
      exact ⟨rfl, by rw [lead_cons, hbyte]; exact hsmall⟩
    · rw [if_neg hsmall, strItem, if_neg]
      · rw [length_bigEndian, List.append_assoc]
      · rintro ⟨hlen, hlead⟩
        -- one byte below 0x80 would make the number small
        have hle : bytesRequired i ≤ 1 := by rw [length_bigEndian] at hlen; omega
        have hlt : i < 256 := bytesRequired_le_iff.mp hle
        rw [bigEndian_of_lt (Nat.pos_of_ne_zero hzero) hlt, lead_cons] at hlead
        simp only [UInt8.toNat_ofNat'] at hlead
        omega

theorem noteAppended_nil (o : Bytes) :
    noteAppended { mOut := o, mListStack := [] } = .ok { mOut := o, mListStack := [] } := rfl

@[simp] theorem appendBytes_nil (o b : Bytes) :
    appendBytes { mOut := o, mListStack := [] } b
      = .ok { mOut := o ++ strItem b, mListStack := [] } := by
  rw [appendBytes_eq, noteAppended_nil]

@[simp] theorem appendBigint_nil (o : Bytes) (i : Nat) :
    appendBigint { mOut := o, mListStack := [] } i
      = .ok { mOut := o ++ strItem (bigEndian i), mListStack := [] } := by
  rw [appendBigint_eq, noteAppended_nil]

@[simp] theorem appendUnsigned_nil (o : Bytes) (i : Int) :
    appendUnsigned { mOut := o, mListStack := [] } i
      = .ok { mOut := o ++ strItem (bigEndian (i % 2 ^ 32).toNat), mListStack := [] } := by
  rw [appendUnsigned, appendBigint_nil]

@[simp] theorem appendHash_nil {size : Nat} (o : Bytes) (h : FixedHash size) :
    appendHash { mOut := o, mListStack := [] } h
      = .ok { mOut := o ++ strItem h.data, mListStack := [] } := by
  rw [appendHash, appendBytes_nil]

/-! ### Writers of one item -/

/-- `f` appends the item `x` to whatever is open. -/
def Appends (f : RLPStream → Except RLPError RLPStream) (x : Bytes) : Prop :=
  ∀ s, f s = noteAppended { s with mOut := s.mOut ++ x }

theorem appends_bytes (b : Bytes) : Appends (fun s => appendBytes s b) (strItem b) :=
  fun s => appendBytes_eq s b

theorem appends_bigint (i : Nat) : Appends (fun s => appendBigint s i) (strItem (bigEndian i)) :=
  fun s => appendBigint_eq s i

theorem appends_unsigned (i : Int) :
    Appends (fun s => appendUnsigned s i) (strItem (bigEndian (i % 2 ^ 32).toNat)) :=
  fun s => appendBigint_eq s _

theorem appends_hash {size : Nat} (h : FixedHash size) :
    Appends (fun s => appendHash s h) (strItem h.data) :=
  fun s => appendBytes_eq s h.data

/-- `f` puts out the `n` finished items of `x` at once. -/
def Puts (f : RLPStream → Except RLPError RLPStream) (x : Bytes) (n : Nat) : Prop :=
  ∀ s, f s = noteAppended { s with mOut := s.mOut ++ x } n

structure Chunk where
  write : RLPStream → Except RLPError RLPStream
  bytes : Bytes
  count : Nat

def Chunk.Ok (c : Chunk) : Prop := Puts c.write c.bytes c.count ∧ (c.count = 0 → c.bytes = [])

theorem foldlM_of_count_zero {cs : List Chunk} (hall : ∀ c ∈ cs, c.Ok) (hzero : (cs.map Chunk.count).sum = 0)
    (s : RLPStream) : (cs.map Chunk.write).foldlM (fun s f => f s) s = .ok s := by
  induction cs with
  | nil => rfl
  | cons c cs ih =>
    obtain ⟨hputs, hempty⟩ := hall c List.mem_cons_self
    rw [List.map_cons, List.sum_cons, Nat.add_eq_zero_iff] at hzero
    have hstep : c.write s = .ok s := by
      rw [hputs s, hempty hzero.1, hzero.1, List.append_nil]
      rfl
    rw [List.map_cons, List.foldlM_cons, hstep]
    exact ih (fun c' hc' => hall c' (List.mem_cons_of_mem _ hc')) hzero.2

theorem flatten_of_count_zero {cs : List Chunk} (hall : ∀ c ∈ cs, c.Ok) (hzero : (cs.map Chunk.count).sum = 0) :
    (cs.map Chunk.bytes).flatten = [] := by
  induction cs with
  | nil => rfl
  | cons c cs ih =>
    rw [List.map_cons, List.sum_cons, Nat.add_eq_zero_iff] at hzero
    rw [List.map_cons, List.flatten_cons, (hall c List.mem_cons_self).2 hzero.1, List.nil_append]
    exact ih (fun c' hc' => hall c' (List.mem_cons_of_mem _ hc')) hzero.2

/-- **Chunks appended to an open list**, from the point where it waits for as
    many items as they have. -/
theorem foldlM_chunks (pre body : Bytes) (stack : List (Nat × Nat)) (cs : List Chunk) (hall : ∀ c ∈ cs, c.Ok)
    (hpos : 0 < (cs.map Chunk.count).sum) :
    (cs.map Chunk.write).foldlM (fun s f => f s)
        { mOut := pre ++ body, mListStack := ((cs.map Chunk.count).sum, pre.length) :: stack }
      = noteAppended { mOut := pre ++ listItem (body ++ (cs.map Chunk.bytes).flatten), mListStack := stack } := by
  induction cs generalizing body with
  | nil => cases hpos
  | cons c cs ih =>
    obtain ⟨hputs, hempty⟩ := hall c List.mem_cons_self
    have hrest : ∀ c' ∈ cs, c'.Ok := fun c' hc' => hall c' (List.mem_cons_of_mem _ hc')
    rw [List.map_cons, List.map_cons, List.map_cons, List.sum_cons, List.foldlM_cons, List.flatten_cons, hputs]
    by_cases hlast : (cs.map Chunk.count).sum = 0
    · -- the list is complete with this chunk, and the others are empty
      rw [List.map_cons, List.sum_cons, hlast, Nat.add_zero] at hpos
      have hclose : noteAppended
            { mOut := pre ++ body ++ c.bytes, mListStack := (c.count + 0, pre.length) :: stack } c.count
          = noteAppended { mOut := pre ++ listItem (body ++ c.bytes), mListStack := stack } := by
        simp [noteAppended, closeLists, listItem, List.append_assoc, Nat.pos_iff_ne_zero.mp hpos]
      rw [hlast, hclose, flatten_of_count_zero hrest hlast, List.append_nil]
      cases hnote : noteAppended { mOut := pre ++ listItem (body ++ c.bytes), mListStack := stack } with
      | error e => rfl
      | ok s => exact foldlM_of_count_zero hrest hlast s
    · have hstep : noteAppended
            { mOut := pre ++ body ++ c.bytes,
              mListStack := (c.count + (cs.map Chunk.count).sum, pre.length) :: stack } c.count
          = .ok { mOut := pre ++ (body ++ c.bytes),
                  mListStack := ((cs.map Chunk.count).sum, pre.length) :: stack } := by
        by_cases hcount : c.count = 0
        · simp [noteAppended, hcount, List.append_assoc]
        · simp [noteAppended, closeLists, hcount, hlast, List.append_assoc]
      have hfold := ih (body ++ c.bytes) hrest (Nat.pos_of_ne_zero hlast)
      rw [hstep, ← List.append_assoc body]
      exact hfold

/-- **A list that is opened for some items and gets them in chunks is one
    item.** -/
theorem appends_chunks (cs : List Chunk) (hall : ∀ c ∈ cs, c.Ok) :
    Appends (fun s => do
      let s ← appendList s (cs.map Chunk.count).sum
      (cs.map Chunk.write).foldlM (fun s f => f s) s) (listItem (cs.map Chunk.bytes).flatten) := by
  intro s
  by_cases hzero : (cs.map Chunk.count).sum = 0
  · rw [flatten_of_count_zero hall hzero]
    simp only [hzero]
    change (do
      let s ← noteAppended { s with mOut := s.mOut ++ sizePrefix c_rlpListStart c_rlpListImmLenCount 0 }
      (cs.map Chunk.write).foldlM (fun s (f : RLPStream → Except RLPError RLPStream) => f s) s) = _
    rw [listItem, List.append_nil]
    cases hnote : noteAppended { s with mOut := s.mOut ++ sizePrefix c_rlpListStart c_rlpListImmLenCount 0 } with
    | error e => rfl
    | ok s' => exact foldlM_of_count_zero hall hzero s'
  · have hfold := foldlM_chunks s.mOut [] s.mListStack cs hall (Nat.pos_of_ne_zero hzero)
    rw [List.append_nil, List.nil_append] at hfold
    simp only [appendList, if_neg hzero]
    exact hfold

abbrev Writer := (RLPStream → Except RLPError RLPStream) × Bytes

/-- **A list that is opened for some items and gets them is one item.** -/
theorem appends_list (ws : List Writer) (hall : ∀ w ∈ ws, Appends w.1 w.2) :
    Appends (fun s => do
      let s ← appendList s ws.length
      (ws.map Prod.fst).foldlM (fun s f => f s) s) (listItem (ws.map Prod.snd).flatten) := by
  have hchunks := appends_chunks (ws.map fun w => ⟨w.1, w.2, 1⟩) (fun c hc => by
    obtain ⟨w, hw, rfl⟩ := List.mem_map.mp hc
    exact ⟨hall w hw, fun h => absurd h Nat.one_ne_zero⟩)
  have hcount : (List.replicate ws.length 1).sum = ws.length := by
    rw [List.sum_replicate_nat, Nat.mul_one]
  simp only [List.map_map, Function.comp_def, List.map_const', hcount] at hchunks
  exact hchunks

theorem Appends.run {f : RLPStream → Except RLPError RLPStream} {x : Bytes} (h : Appends f x)
    (o : Bytes) :
    f { mOut := o, mListStack := [] } = .ok { mOut := o ++ x, mListStack := [] } := by
  rw [h, noteAppended_nil]

theorem appendList_strings (bs : List Bytes) :
    (do let s ← appendList {} bs.length; bs.foldlM appendBytes s)
      = .ok { mOut := listItem (bs.map strItem).flatten, mListStack := [] } := by
  have hlist := (appends_list (bs.map fun b => (fun s => appendBytes s b, strItem b))
    (fun w hw => by
      obtain ⟨b, -, rfl⟩ := List.mem_map.mp hw
      exact appends_bytes b)).run []
  simp only [List.length_map, List.map_map, List.foldlM_map, Function.comp_def,
    List.nil_append] at hlist
  exact hlist

theorem appends_vector {size : Nat} (v : List (FixedHash size)) :
    Appends (fun s => appendVector s v) (listItem (v.map fun x => strItem x.data).flatten) := by
  have hlist := appends_list (v.map fun x => (fun s => appendHash s x, strItem x.data))
    (fun w hw => by
      obtain ⟨x, -, rfl⟩ := List.mem_map.mp hw
      exact appends_hash x)
  simp only [List.length_map, List.map_map, List.foldlM_map, Function.comp_def] at hlist
  exact hlist

theorem appendVector_nil {size : Nat} (o : Bytes) (v : List (FixedHash size)) :
    appendVector { mOut := o, mListStack := [] } v
      = .ok { mOut := o ++ listItem (v.map fun x => strItem x.data).flatten,
              mListStack := [] } :=
  (appends_vector v).run o

/-! ### Items as the reader sees them -/

theorem length_cons {d : UInt8} {rest : Bytes} (hgood : requireGood (d :: rest) = .ok ()) :
    length (d :: rest)
      = if d.toNat < 128 then .ok 1
        else if d.toNat ≤ 183 then .ok (d.toNat - 128)
        else if d.toNat < 192 then longLength (d.toNat - 183) rest
        else if d.toNat ≤ 247 then .ok (d.toNat - 192)
        else longLength (d.toNat - 247) rest := by
  rw [length, hgood]
  rfl

theorem payloadOffset_cons (d : UInt8) (rest : Bytes) :
    payloadOffset (d :: rest)
      = if d.toNat < 128 then 0
        else if d.toNat ≤ 183 then 1
        else if d.toNat < 192 then 1 + (d.toNat - 183)
        else if d.toNat ≤ 247 then 1
        else 1 + (d.toNat - 247) := by
  have hdata : c_rlpDataIndLenZero = 183 := rfl
  have hlist : c_rlpListIndLenZero = 247 := rfl
  simp only [payloadOffset, lengthSize, isSingleByte_cons, isData_cons, isList_cons, lead_cons,
    hdata, hlist, Bool.and_eq_true, decide_eq_true_eq]
  split_ifs <;> omega

/-- `x` reads as an item with payload `p`, whatever follows it. -/
structure IsItem (x p : Bytes) : Prop where
  ne_nil : x ≠ []
  length_eq : ∀ rest, length (x ++ rest) = .ok p.length
  split : ∃ pre, x = pre ++ p ∧ ∀ rest, payloadOffset (x ++ rest) = pre.length

theorem longLength_bigEndian {n : Nat} (hlong : 56 ≤ n) (hsize : SizeOk n) (rest : Bytes) :
    longLength (bytesRequired n) (bigEndian n ++ rest) = .ok n := by
  obtain ⟨d, tail, heq, hd⟩ := bigEndian_eq_cons (show 0 < n by omega)
  have hbytes : bytesRequired n ≤ 8 := by
    refine bytesRequired_le_iff.mpr ?_
    unfold SizeOk sizeMax at hsize
    omega
  have hlead : lead (bigEndian n ++ rest) ≠ 0 := by
    rw [heq, List.cons_append, lead_cons]
    intro hzero
    exact hd (UInt8.toNat_inj.mp hzero)
  have htake : (bigEndian n ++ rest).take (bytesRequired n) = bigEndian n := by
    rw [← length_bigEndian]
    exact List.take_left
  unfold longLength
  rw [if_neg (by simp), if_neg hlead, if_neg (by omega)]
  simp only [htake, fromBigEndian_bigEndian]
  rw [if_neg (by simp only [c_rlpListStart, c_rlpDataImmLenStart, c_rlpMaxLengthBytes]; omega),
    if_neg (by unfold SizeOk at hsize; omega)]

theorem bytesRequired_size {n : Nat} (hlong : 56 ≤ n) (hsize : SizeOk n) :
    0 < bytesRequired n ∧ bytesRequired n ≤ 8 := by
  refine ⟨bytesRequired_pos (by omega), bytesRequired_le_iff.mpr ?_⟩
  unfold SizeOk sizeMax at hsize
  omega

theorem requireGood_of_ne {d : UInt8} (h : d.toNat ≠ 0x81) (rest : Bytes) :
    requireGood (d :: rest) = .ok () := by
  unfold requireGood
  exact if_pos h

theorem requireGood_of_second {m : UInt8} (h : ¬ m.toNat < 0x80) (d : UInt8) (rest : Bytes) :
    requireGood (d :: m :: rest) = .ok () := by
  have hm : ¬ m.toNat < c_rlpDataImmLenStart := h
  simp only [requireGood, if_neg hm, ite_self]

theorem singleByte_isItem {d : UInt8} (h : d.toNat < 0x80) : IsItem [d] [d] where
  ne_nil := List.cons_ne_nil _ _
  length_eq rest := by
    rw [List.cons_append, length_cons (requireGood_of_ne (by omega) _), if_pos h]
    rfl
  split := ⟨[], rfl, fun rest => by rw [List.cons_append, payloadOffset_cons, if_pos h]; rfl⟩

theorem shortString_isItem {b : Bytes} (hshort : b.length < 56)
    (hgood : ¬(b.length = 1 ∧ lead b < 0x80)) :
    IsItem (UInt8.ofNat (0x80 + b.length) :: b) b where
  ne_nil := List.cons_ne_nil _ _
  length_eq rest := by
    have hlead := UInt8.toNat_ofNat_of_lt' (show 0x80 + b.length < 256 by omega)
    have hreq : requireGood (UInt8.ofNat (0x80 + b.length) :: (b ++ rest)) = .ok () := by
      by_cases hone : b.length = 1
      · obtain ⟨m, rfl⟩ := List.length_eq_one_iff.mp hone
        have hm : ¬ m.toNat < 0x80 := fun h => hgood ⟨rfl, h⟩
        exact requireGood_of_second hm _ _
      · exact requireGood_of_ne (by omega) _
    rw [List.cons_append, length_cons hreq, hlead, if_neg (by omega), if_pos (by omega),
      Nat.add_sub_cancel_left]
  split := by
    refine ⟨[UInt8.ofNat (0x80 + b.length)], rfl, fun rest => ?_⟩
    have hlead := UInt8.toNat_ofNat_of_lt' (show 0x80 + b.length < 256 by omega)
    rw [List.cons_append, payloadOffset_cons, hlead, if_neg (by omega), if_pos (by omega)]
    rfl

theorem longString_isItem {b : Bytes} (hlong : 56 ≤ b.length) (hsize : SizeOk b.length) :
    IsItem (UInt8.ofNat (bytesRequired b.length + 183) :: (bigEndian b.length ++ b)) b where
  ne_nil := List.cons_ne_nil _ _
  length_eq rest := by
    obtain ⟨hpos, hle⟩ := bytesRequired_size hlong hsize
    have hlead := UInt8.toNat_ofNat_of_lt' (show bytesRequired b.length + 183 < 256 by omega)
    rw [List.cons_append, length_cons (requireGood_of_ne (by omega) _), hlead, if_neg (by omega),
      if_neg (by omega), if_pos (by omega), Nat.add_sub_cancel, List.append_assoc,
      longLength_bigEndian hlong hsize]
  split := by
    obtain ⟨hpos, hle⟩ := bytesRequired_size hlong hsize
    have hlead := UInt8.toNat_ofNat_of_lt' (show bytesRequired b.length + 183 < 256 by omega)
    refine ⟨UInt8.ofNat (bytesRequired b.length + 183) :: bigEndian b.length, rfl, fun rest => ?_⟩
    rw [List.cons_append, payloadOffset_cons, hlead, if_neg (by omega), if_neg (by omega),
      if_pos (by omega), List.length_cons, length_bigEndian]
    omega

theorem shortList_isItem {pl : Bytes} (hshort : pl.length < 56) :
    IsItem (UInt8.ofNat (0xc0 + pl.length) :: pl) pl where
  ne_nil := List.cons_ne_nil _ _
  length_eq rest := by
    have hlead := UInt8.toNat_ofNat_of_lt' (show 0xc0 + pl.length < 256 by omega)
    rw [List.cons_append, length_cons (requireGood_of_ne (by omega) _), hlead, if_neg (by omega),
      if_neg (by omega), if_neg (by omega), if_pos (by omega), Nat.add_sub_cancel_left]
  split := by
    refine ⟨[UInt8.ofNat (0xc0 + pl.length)], rfl, fun rest => ?_⟩
    have hlead := UInt8.toNat_ofNat_of_lt' (show 0xc0 + pl.length < 256 by omega)
    rw [List.cons_append, payloadOffset_cons, hlead, if_neg (by omega), if_neg (by omega),
      if_neg (by omega), if_pos (by omega)]
    rfl

theorem longList_isItem {pl : Bytes} (hlong : 56 ≤ pl.length) (hsize : SizeOk pl.length) :
    IsItem (UInt8.ofNat (bytesRequired pl.length + 247) :: (bigEndian pl.length ++ pl)) pl where
  ne_nil := List.cons_ne_nil _ _
  length_eq rest := by
    obtain ⟨hpos, hle⟩ := bytesRequired_size hlong hsize
    have hlead := UInt8.toNat_ofNat_of_lt' (show bytesRequired pl.length + 247 < 256 by omega)
    rw [List.cons_append, length_cons (requireGood_of_ne (by omega) _), hlead, if_neg (by omega),
      if_neg (by omega), if_neg (by omega), if_neg (by omega), Nat.add_sub_cancel,
      List.append_assoc, longLength_bigEndian hlong hsize]
  split := by
    obtain ⟨hpos, hle⟩ := bytesRequired_size hlong hsize
    have hlead := UInt8.toNat_ofNat_of_lt' (show bytesRequired pl.length + 247 < 256 by omega)
    refine ⟨UInt8.ofNat (bytesRequired pl.length + 247) :: bigEndian pl.length, rfl,
      fun rest => ?_⟩
    rw [List.cons_append, payloadOffset_cons, hlead, if_neg (by omega), if_neg (by omega),
      if_neg (by omega), if_neg (by omega), List.length_cons, length_bigEndian]
    omega

/-- **Every string the writer puts out reads as an item.** -/
theorem strItem_isItem {b : Bytes} (hsize : SizeOk b.length) : IsItem (strItem b) b := by
  unfold strItem
  split
  next h =>
    obtain ⟨d, rfl⟩ := List.length_eq_one_iff.mp h.1
    exact singleByte_isItem h.2
  next h =>
    unfold sizePrefix
    split
    next hshort => exact shortString_isItem hshort h
    next hlong => exact longString_isItem (Nat.le_of_not_lt hlong) hsize

/-- **Every list the writer closes reads as an item.** -/
theorem listItem_isItem {pl : Bytes} (hsize : SizeOk pl.length) : IsItem (listItem pl) pl := by
  unfold listItem sizePrefix
  split
  next hshort => exact shortList_isItem hshort
  next hlong => exact longList_isItem (Nat.le_of_not_lt hlong) hsize

/-! ### Accessors on items -/

section Accessors

variable {x p : Bytes}

theorem IsItem.length_payload_le (h : IsItem x p) : p.length ≤ x.length := by
  obtain ⟨pre, rfl, -⟩ := h.split
  simp

theorem IsItem.payload_eq (h : IsItem x p) (rest : Bytes) : payload (x ++ rest) = .ok p := by
  have hlen := h.length_eq rest
  have hle := h.length_payload_le
  obtain ⟨pre, rfl, hoff⟩ := h.split
  rw [payload, hlen]
  change (if _ then _ else _) = _
  rw [if_neg (by simp only [List.length_append] at hle ⊢; omega), hoff, cropped,
    if_pos (by simp only [List.length_append]; omega)]
  simp

theorem isNull_append_of_ne_nil (hne : x ≠ []) (rest : Bytes) : isNull (x ++ rest) = false := by
  cases x with
  | nil => exact absurd rfl hne
  | cons d tail => rfl

theorem IsItem.actualSize_eq (h : IsItem x p) (rest : Bytes) :
    actualSize (x ++ rest) = .ok x.length := by
  have hlen := h.length_eq rest
  have hnull := isNull_append_of_ne_nil h.ne_nil rest
  have hne := h.ne_nil
  obtain ⟨pre, hx, hoff⟩ := h.split
  have hsum : x.length = pre.length + p.length := by rw [hx, List.length_append]
  rw [actualSize, hnull, if_neg Bool.false_ne_true]
  split
  next hsingle =>
    -- a single byte has no prefix, and its length is one
    have hoff0 : pre.length = 0 := by rw [← hoff rest, payloadOffset, if_pos hsingle]
    have hone : p.length = 1 := by
      cases x with
      | nil => exact absurd rfl hne
      | cons d tail =>
        simp only [List.cons_append, isSingleByte_cons, decide_eq_true_eq] at hsingle
        rw [List.cons_append, length_cons (requireGood_of_ne (by omega) _), if_pos hsingle] at hlen
        exact (Except.ok.inj hlen).symm
    rw [hsum, hoff0, hone]
  next => rw [hlen, hoff, hsum]; rfl

theorem IsItem.ofThrowIfTooSmall_eq (h : IsItem x p) (rest : Bytes) :
    ofThrowIfTooSmall (x ++ rest) = .ok (x ++ rest) := by
  rw [ofThrowIfTooSmall, h.actualSize_eq]
  exact if_neg (by simp)

theorem IsItem.ofVeryStrict_eq (h : IsItem x p) : ofVeryStrict x = .ok x := by
  have hsize := h.actualSize_eq []
  rw [List.append_nil] at hsize
  rw [ofVeryStrict, hsize]
  change (if _ then _ else if _ then _ else _) = _
  rw [if_neg (Nat.lt_irrefl _), if_neg (Nat.lt_irrefl _)]

theorem IsItem.sizeAsEncoded_eq (h : IsItem x p) (rest : Bytes) :
    sizeAsEncoded (x ++ rest) = .ok x.length := by
  rw [sizeAsEncoded, h.ofThrowIfTooSmall_eq]
  exact h.actualSize_eq rest

theorem cropped_zero_append (x rest : Bytes) : cropped (x ++ rest) 0 x.length = x := by
  rw [cropped, if_pos (by simp), List.drop_zero, List.take_left]

end Accessors

abbrev Items := List (Bytes × Bytes)

def Items.bytes (its : Items) : Bytes := (its.map Prod.fst).flatten

@[simp] theorem Items.bytes_nil : Items.bytes [] = [] := rfl

@[simp] theorem Items.bytes_cons (it : Bytes × Bytes) (its : Items) :
    Items.bytes (it :: its) = it.1 ++ Items.bytes its := rfl

theorem length_le_bytes {its : Items} (hall : ∀ it ∈ its, IsItem it.1 it.2) :
    its.length ≤ (Items.bytes its).length := by
  induction its with
  | nil => exact Nat.le_refl _
  | cons it its ih =>
    have hhead := List.length_pos_iff.mpr (hall it List.mem_cons_self).ne_nil
    have hrest := ih fun it' hit' => hall it' (List.mem_cons_of_mem _ hit')
    rw [Items.bytes_cons, List.length_cons, List.length_append]
    omega

theorem indexFrom_succ {pl lastItem : Bytes} {k lastEnd size : Nat} (hne : lastItem ≠ [])
    (hsize : sizeAsEncoded (pl.drop lastEnd) = .ok size) :
    indexFrom pl (k + 1) lastEnd lastItem
      = indexFrom pl k (lastEnd + (cropped (pl.drop lastEnd) 0 size).length)
          (cropped (pl.drop lastEnd) 0 size) := by
  have hempty : lastItem.isEmpty = false := List.isEmpty_eq_false_iff.mpr hne
  rw [indexFrom, hempty, if_neg Bool.false_ne_true]
  simp only [hsize]
  rfl

theorem indexFrom_items (pre rest : Bytes) (it : Bytes × Bytes) (its : Items) (i : Nat)
    (hall : ∀ it' ∈ it :: its, IsItem it'.1 it'.2) (hi : i < its.length + 1) :
    indexFrom (pre ++ (Items.bytes (it :: its) ++ rest)) i (pre.length + it.1.length) it.1
      = .ok (((it :: its).map Prod.fst).get ⟨i, by rwa [List.length_map, List.length_cons]⟩) := by
  induction i generalizing pre it its with
  | zero => rfl
  | succ i ih =>
    cases its with
    | nil => simp only [List.length_nil] at hi; omega
    | cons it' its =>
      have hhead := hall it List.mem_cons_self
      have hnext := hall it' (List.mem_cons_of_mem _ List.mem_cons_self)
      have hdrop : (pre ++ (Items.bytes (it :: it' :: its) ++ rest)).drop (pre.length + it.1.length)
          = it'.1 ++ (Items.bytes its ++ rest) := by
        simp only [Items.bytes_cons, List.append_assoc]
        rw [← List.append_assoc pre, ← List.length_append]
        exact List.drop_left
      have hwalk := ih (pre ++ it.1) it' its
        (fun y hy => hall y (List.mem_cons_of_mem _ hy)) (by simp only [List.length_cons] at hi; omega)
      have hsize : sizeAsEncoded
          ((pre ++ (Items.bytes (it :: it' :: its) ++ rest)).drop (pre.length + it.1.length))
            = .ok it'.1.length := by rw [hdrop, hnext.sizeAsEncoded_eq]
      rw [indexFrom_succ hhead.ne_nil hsize, hdrop, cropped_zero_append]
      rw [List.length_append, List.append_assoc, ← List.append_assoc it.1] at hwalk
      exact hwalk

theorem index_of_prefix {d rest : Bytes} {its : Items} (hpl : payload d = .ok (its.bytes ++ rest))
    (hall : ∀ it ∈ its, IsItem it.1 it.2) {i : Nat} {it : Bytes × Bytes}
    (hi : its[i]? = some it) : index d i = .ok it.1 := by
  obtain ⟨hlt, hget⟩ := List.getElem?_eq_some_iff.mp hi
  cases its with
  | nil => simp only [List.length_nil] at hlt; omega
  | cons it0 its =>
    have hhead := hall it0 List.mem_cons_self
    have hwalk := indexFrom_items [] rest it0 its i hall (by simpa using hlt)
    simp only [List.nil_append, List.length_nil, Nat.zero_add] at hwalk
    have hres : ((it0 :: its).map Prod.fst).get ⟨i, by simpa using hlt⟩ = it.1 := by
      rw [List.get_eq_getElem, List.getElem_map, hget]
    have hitem : IsItem it.1 it.2 := hall it (List.mem_of_getElem? hi)
    have hctor := hitem.ofThrowIfTooSmall_eq []
    rw [List.append_nil] at hctor
    rw [index, hpl]
    change (do let lastEnd ← sizeAsEncoded (Items.bytes (it0 :: its) ++ rest); _) = _
    rw [Items.bytes_cons, List.append_assoc, hhead.sizeAsEncoded_eq]
    change (do let item ← indexFrom _ i it0.1.length (cropped _ 0 it0.1.length); _) = _
    rw [cropped_zero_append, ← List.append_assoc, ← Items.bytes_cons, hwalk, hres]
    exact hctor

/-- **`operator[]` on an item whose payload is a concatenation of items**
    returns the item at that position. -/
theorem index_of_items {x : Bytes} {its : Items} (hx : IsItem x its.bytes)
    (hall : ∀ it ∈ its, IsItem it.1 it.2) {i : Nat} {it : Bytes × Bytes}
    (hi : its[i]? = some it) : index x i = .ok it.1 := by
  have hpayload := hx.payload_eq []
  rw [List.append_nil] at hpayload
  exact index_of_prefix (hpayload.trans (by rw [List.append_nil])) hall hi

/-! ### Typed reads -/

theorem isData_strItem_of_lt {b : Bytes} (hlt : b.length < 256 ^ 8) :
    isData (strItem b) = true := by
  unfold strItem
  split
  next h =>
    obtain ⟨d, rfl⟩ := List.length_eq_one_iff.mp h.1
    have hlt : d.toNat < 0x80 := h.2
    rw [isData_cons, decide_eq_true_eq]
    omega
  next h =>
    unfold sizePrefix
    split
    next hshort =>
      have hlead := UInt8.toNat_ofNat_of_lt' (show 0x80 + b.length < 256
        by simp only [c_rlpDataImmLenCount, c_rlpListStart, c_rlpDataImmLenStart,
              c_rlpMaxLengthBytes] at hshort; omega)
      rw [List.cons_append, isData_cons, decide_eq_true_eq]
      simp only [c_rlpDataImmLenCount, c_rlpListStart, c_rlpDataImmLenStart,
        c_rlpMaxLengthBytes] at hshort ⊢
      omega
    next hlong =>
      simp only [c_rlpDataImmLenCount, c_rlpListStart, c_rlpDataImmLenStart,
        c_rlpMaxLengthBytes] at hlong ⊢
      have hle : bytesRequired b.length ≤ 8 := bytesRequired_le_iff.mpr hlt
      have hlead := UInt8.toNat_ofNat_of_lt' (show bytesRequired b.length + 183 < 256 by omega)
      rw [List.cons_append, isData_cons, decide_eq_true_eq]
      change (UInt8.ofNat (bytesRequired b.length + 183)).toNat < _
      omega

theorem isData_strItem {b : Bytes} (hsize : SizeOk b.length) : isData (strItem b) = true := by
  refine isData_strItem_of_lt ?_
  unfold SizeOk sizeMax at hsize
  omega

theorem isData_ne_nil {d : Bytes} (h : isData d = true) : isNull d = false ∧ isList d = false := by
  cases d with
  | nil => exact absurd h Bool.false_ne_true
  | cons n rest =>
    simp only [isData_cons, decide_eq_true_eq] at h
    simp only [isNull_cons, isList_cons, decide_eq_false_iff_not, true_and]
    omega

theorem requireGood_of_length {d : Bytes} (hne : d ≠ []) {n : Nat} (h : length d = .ok n) :
    requireGood d = .ok () := by
  cases d with
  | nil => exact absurd rfl hne
  | cons b rest =>
    cases hgood : requireGood (b :: rest) with
    | ok u => rfl
    | error e => rw [length, hgood] at h; cases h

theorem toBytes_strItem {b : Bytes} (hsize : SizeOk b.length) : toBytes (strItem b) = .ok b := by
  have hpayload := (strItem_isItem hsize).payload_eq []
  rw [List.append_nil] at hpayload
  rw [toBytes, isData_strItem hsize, if_pos rfl, hpayload]

theorem requireGood_strItem {b : Bytes} (hsize : SizeOk b.length) :
    requireGood (strItem b) = .ok () := by
  have hitem := strItem_isItem hsize
  have hlen := hitem.length_eq []
  rw [List.append_nil] at hlen
  exact requireGood_of_length hitem.ne_nil hlen

theorem toHash_strItem {size : Nat} (h : FixedHash size) (hsize : SizeOk size) :
    toHash size (strItem h.data) = .ok h := by
  have hsize' : SizeOk h.data.length := by rw [h.length_data]; exact hsize
  have hpayload := (strItem_isItem hsize').payload_eq []
  rw [List.append_nil] at hpayload
  rw [toHash, requireGood_strItem hsize', hpayload]
  change (if isData (strItem h.data) = true then _ else _) = _
  rw [if_pos (isData_strItem hsize'), dif_pos h.length_data]

theorem isInt_strItem_bigEndian {n : Nat} (hn : bytesRequired n ≤ 55) :
    isInt (strItem (bigEndian n)) = .ok true := by
  by_cases hzero : n = 0
  · subst hzero
    rw [bigEndian_zero]
    rfl
  obtain ⟨d, rest, heq, hd⟩ := bigEndian_eq_cons (Nat.pos_of_ne_zero hzero)
  have hdne : d.toNat ≠ 0 := fun h => hd (UInt8.toNat_inj.mp h)
  have hlen : rest.length + 1 = bytesRequired n := by
    rw [← length_bigEndian, heq, List.length_cons]
  have hsize : SizeOk (d :: rest).length := by
    unfold SizeOk sizeMax
    rw [List.length_cons]
    omega
  have hgood := requireGood_strItem hsize
  rw [heq]
  unfold strItem at hgood ⊢
  by_cases hsingle : (d :: rest).length = 1 ∧ lead (d :: rest) < c_rlpDataImmLenStart
  · rw [if_pos hsingle] at hgood ⊢
    rw [isInt, isNull_cons, if_neg Bool.false_ne_true, hgood]
    change (if lead (d :: rest) < c_rlpDataImmLenStart then _ else _) = _
    rw [if_pos hsingle.2, lead_cons]
    simp [hdne]
  · have hprefix : sizePrefix c_rlpDataImmLenStart c_rlpDataImmLenCount (d :: rest).length
        = [UInt8.ofNat (0x80 + (rest.length + 1))] := by
      rw [sizePrefix, if_pos]
      · rfl
      · change rest.length + 1 < 56
        omega
    have hlead := UInt8.toNat_ofNat_of_lt' (show 0x80 + (rest.length + 1) < 256 by omega)
    rw [if_neg hsingle, hprefix] at hgood ⊢
    rw [List.singleton_append] at hgood ⊢
    rw [isInt, isNull_cons, if_neg Bool.false_ne_true, hgood]
    change (if lead (_ :: d :: rest) < 128 then _ else if lead (_ :: d :: rest) = 128 then _
      else if lead (_ :: d :: rest) ≤ 183 then
        (if (d :: rest).length + 1 ≤ 1 then _ else Except.ok (lead (d :: rest) != 0)) else _) = _
    rw [lead_cons, hlead, if_neg (by omega), if_neg (by omega), if_pos (by omega),
      if_neg (by simp), lead_cons]
    simp [hdne]

/-- **Integers read back**, as long as the reader's type is wide enough. -/
theorem toInt_strItem {n maxSize : Nat} (hmax : maxSize ≤ 55) (hn : n < 256 ^ maxSize) :
    toInt maxSize (strItem (bigEndian n)) = .ok n := by
  have hbytes : bytesRequired n ≤ maxSize := bytesRequired_le_iff.mpr hn
  have hsize : SizeOk (bigEndian n).length := by
    unfold SizeOk sizeMax
    rw [length_bigEndian]
    omega
  have hpayload := (strItem_isItem hsize).payload_eq []
  rw [List.append_nil] at hpayload
  obtain ⟨hnull, hlist⟩ := isData_ne_nil (isData_strItem hsize)
  rw [toInt, requireGood_strItem hsize, isInt_strItem_bigEndian (by omega), hnull, hlist, hpayload]
  change (if (bigEndian n).length > maxSize then _ else _) = _
  rw [length_bigEndian, if_neg (by omega), fromBigEndian_bigEndian]

theorem toInt64_strItem {n : Nat} (hn : n < 2 ^ 63) :
    toInt64 (strItem (bigEndian n)) = .ok (n : Int) := by
  rw [toInt64, toInt_strItem (by omega) (by omega)]
  change Except.ok (Int.bmod (n : Int) (2 ^ 64)) = _
  rw [Int.bmod_eq_of_le (by omega) (by omega)]

end HieraChain.RLP
