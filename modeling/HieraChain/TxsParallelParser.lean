/-
  HieraChain/TxsParallelParser.lean
  =================================
  **The parallel codec of transaction lists** (`libethcore/TxsParallelParser.cpp`).

  `[txNum] [offset 0 … offset txNum] [transaction bytes]`, where the count and
  the offsets are `uint32_t` in the byte order of the host, taken as little
  endian.  The arithmetic on counts and offsets is that of `UInt32`.

  A read of the count or of the offset table goes to memory without a check.
  `load` makes it visible: it fails with `outOfBounds` where the source would
  read behind the input.  The iterations of `tbb::parallel_for` run in any
  order, given to `decode` as a list.
-/
import Mathlib.Algebra.BigOperators.Group.List.Lemmas
import HieraChain.TransactionCodec

namespace HieraChain.Eth

open HieraChain.BigEndian HieraChain.RLP

abbrev Offset_t := UInt32

inductive BlockFormatCause
  | reason (text : String)
  | transaction (e : TxException)
  deriving DecidableEq, Repr

/-- `outOfBounds` is no exception of the source: the program has left its input. -/
inductive ParserException
  | outOfBounds
  | transaction (e : TxException)
  | invalidBlockFormat (cause : BlockFormatCause)
  deriving DecidableEq, Repr

namespace TxsParallelParser

def toBytes (num : Offset_t) : Bytes :=
  [UInt8.ofNat num.toNat, UInt8.ofNat (num.toNat / 256), UInt8.ofNat (num.toNat / 65536),
   UInt8.ofNat (num.toNat / 16777216)]

/-- `fromBytes` and the reads through `offsets`: four bytes at `pos`. -/
def load (b : Bytes) (pos : Nat) : Except ParserException Offset_t :=
  match b.drop pos with
  | b0 :: b1 :: b2 :: b3 :: _ =>
    .ok (UInt32.ofNat (b0.toNat + 256 * b1.toNat + 65536 * b2.toNat + 16777216 * b3.toNat))
  | _ => .error .outOfBounds

/-! ### Encoding -/

/-- `offsets[i + 1] += offsets[i]`, from the first entry on. -/
def accumulate (offset : Offset_t) : List Offset_t → List Offset_t
  | [] => []
  | size :: sizes => (offset + size) :: accumulate (offset + size) sizes

def layout (txNum : Offset_t) (offsets : List Offset_t) (objects : Bytes) : Bytes :=
  toBytes txNum ++ (offsets.map toBytes).flatten ++ objects

section Encode

variable {H S : Type} (c : SignatureScheme H S) (version : Version)

/-- `encode(std::shared_ptr<Transactions>)`.  With a count of 2^32 - 1 the
    vector of `txNum + 1` offsets is empty, and writing to it leaves it. -/
def encode (txs : List (Transaction S)) : Except ParserException Bytes :=
  let txNum := UInt32.ofNat txs.length
  if txNum = 0 then .ok []
  else if txNum + 1 = 0 then .error .outOfBounds
  else do
    let txRLPs ← ((txs.take txNum.toNat).mapM (Transaction.rlp c version)).mapError .transaction
    let offsets := 0 :: accumulate 0 (txRLPs.map fun txByte => UInt32.ofNat txByte.length)
    return layout txNum offsets txRLPs.flatten

/-- The loop of the other overload: the offsets, the last one being the end,
    and the bytes so far. -/
def appendAll (offset : Offset_t) (txBytes : Bytes) : List Bytes → List Offset_t × Bytes
  | [] => ([offset], txBytes)
  | txByte :: txs =>
    let r := appendAll (offset + UInt32.ofNat txByte.length) (txBytes ++ txByte) txs
    (offset :: r.1, r.2)

/-- `encode(std::vector<bytes> const&)`. -/
def encodeBytes (txs : List Bytes) : Except ParserException Bytes :=
  let txNum := UInt32.ofNat txs.length
  if txNum = 0 then .ok []
  else if txNum + 1 = 0 then .error .outOfBounds
  else
    let r := appendAll 0 [] (txs.take txNum.toNat)
    .ok (layout txNum r.1 r.2)

/-! ### Decoding -/

variable (check : CheckTransaction)

/-- One iteration: the transaction at `i`. -/
def decodeOne (b : Bytes) (objectStart : Nat) (i : Nat) :
    Except ParserException (Transaction S) := do
  let maxOffset := b.length - objectStart - 1
  let offset ← load b (4 + 4 * i)
  let next ← load b (4 + 4 * (i + 1))
  let size := next - offset
  if offset.toNat > maxOffset then
    .error (.invalidBlockFormat (.reason "offset > maxOffset"))
  else
    (Transaction.decode c version check (cropped (b.drop objectStart) offset.toNat size.toNat)).mapError
      fun e => .invalidBlockFormat (.transaction e)

def resize {α : Type} (v : List (Option α)) (n : Nat) : List (Option α) :=
  v.take n ++ List.replicate (n - v.length) none

/-- The iterations in the order `order`, up to the first that throws. -/
def decodeLoop (b : Bytes) (objectStart : Nat) (order : List Nat)
    (txs : List (Option (Transaction S))) : Except ParserException (List (Option (Transaction S))) :=
  order.foldlM (fun txs i => do
    let tx ← decodeOne c version check b objectStart i
    return txs.set i (some tx)) txs

/-- `decode` into `txs`.  `sizeof(Offset_t) * (txNum + 2)` wraps in `txNum + 2`
    only. -/
def decode (order : List Nat) (txs : List (Option (Transaction S))) (b : Bytes) :
    Except ParserException (List (Option (Transaction S))) :=
  if b.length = 0 then .ok txs
  else do
    let txNum ← load b 0
    let objectStart := 4 * (txNum + 2).toNat
    if objectStart ≥ b.length then
      .error (.invalidBlockFormat (.reason "objectStart >= bytesSize"))
    else if txNum + 1 = 0 ∨ (b.drop objectStart).length = 0 then
      .error (.invalidBlockFormat (.reason "offsets.size() == 0 || txBytes.size() == 0"))
    else
      decodeLoop c version check b objectStart order (resize txs txNum.toNat)

end Encode

/-- `order` runs through the iterations of the loop for the count in `b`. -/
def Schedule (b : Bytes) (order : List Nat) : Prop :=
  ∀ txNum, load b 0 = .ok txNum → order.Perm (List.range txNum.toNat)

/-! ### Reads of 32-bit words -/

@[simp] theorem length_toBytes (num : Offset_t) : (toBytes num).length = 4 := rfl

theorem load_toBytes (pre rest : Bytes) (num : Offset_t) :
    load (pre ++ (toBytes num ++ rest)) pre.length = .ok num := by
  have hlt := num.toNat_lt
  have hval : (UInt8.ofNat num.toNat).toNat + 256 * (UInt8.ofNat (num.toNat / 256)).toNat
      + 65536 * (UInt8.ofNat (num.toNat / 65536)).toNat
      + 16777216 * (UInt8.ofNat (num.toNat / 16777216)).toNat = num.toNat := by
    simp only [UInt8.toNat_ofNat']
    omega
  rw [load, List.drop_left]
  simp only [toBytes, List.cons_append, List.nil_append, hval, UInt32.ofNat_toNat]

theorem load_ok {b : Bytes} {pos : Nat} (h : pos + 4 ≤ b.length) : ∃ num, load b pos = .ok num := by
  have hlen : (b.drop pos).length = b.length - pos := List.length_drop
  unfold load
  split
  · exact ⟨_, rfl⟩
  next hshort =>
    match hd : b.drop pos with
    | b0 :: b1 :: b2 :: b3 :: rest => exact absurd hd (hshort b0 b1 b2 b3 rest)
    | [] | [_] | [_, _] | [_, _, _] =>
      rw [hd] at hlen
      simp only [List.length_cons, List.length_nil] at hlen
      omega

theorem load_outOfBounds {b : Bytes} {pos : Nat} (h : b.length < pos + 4) :
    load b pos = .error .outOfBounds := by
  have hlen : (b.drop pos).length = b.length - pos := List.length_drop
  unfold load
  split
  next hd =>
    rw [hd] at hlen
    simp only [List.length_cons] at hlen
    omega
  · rfl

/-! ### The offset table -/

theorem length_flatten_toBytes (offsets : List Offset_t) :
    (offsets.map toBytes).flatten.length = 4 * offsets.length := by
  induction offsets with
  | nil => rfl
  | cons o offsets ih =>
    rw [List.map_cons, List.flatten_cons, List.length_append, ih, length_toBytes, List.length_cons]
    omega

theorem length_layout (txNum : Offset_t) (offsets : List Offset_t) (objects : Bytes) :
    (layout txNum offsets objects).length = 4 + 4 * offsets.length + objects.length := by
  rw [layout, List.length_append, List.length_append, length_flatten_toBytes, length_toBytes]

theorem load_layout_count (txNum : Offset_t) (offsets : List Offset_t) (objects : Bytes) :
    load (layout txNum offsets objects) 0 = .ok txNum := by
  rw [layout, List.append_assoc]
  exact load_toBytes [] _ txNum

theorem load_layout_offset (txNum : Offset_t) (offsets : List Offset_t) (objects : Bytes) {i : Nat}
    {o : Offset_t} (hi : offsets[i]? = some o) :
    load (layout txNum offsets objects) (4 + 4 * i) = .ok o := by
  obtain ⟨hlt, hget⟩ := List.getElem?_eq_some_iff.mp hi
  have hsplit : offsets = offsets.take i ++ o :: offsets.drop (i + 1) := by
    rw [← hget, List.getElem_cons_drop, List.take_append_drop]
  have hbytes : layout txNum offsets objects
      = (toBytes txNum ++ ((offsets.take i).map toBytes).flatten)
        ++ (toBytes o ++ (((offsets.drop (i + 1)).map toBytes).flatten ++ objects)) := by
    conv_lhs => rw [hsplit]
    simp only [layout, List.map_append, List.map_cons, List.flatten_append, List.flatten_cons,
      List.append_assoc]
  have hpre : (toBytes txNum ++ ((offsets.take i).map toBytes).flatten).length = 4 + 4 * i := by
    rw [List.length_append, length_flatten_toBytes, length_toBytes, List.length_take_of_le (by omega)]
  rw [hbytes, ← hpre]
  exact load_toBytes _ _ o

theorem drop_layout (txNum : Offset_t) (offsets : List Offset_t) (objects : Bytes) :
    (layout txNum offsets objects).drop (4 + 4 * offsets.length) = objects := by
  have hpre : (toBytes txNum ++ (offsets.map toBytes).flatten).length = 4 + 4 * offsets.length := by
    rw [List.length_append, length_flatten_toBytes, length_toBytes]
  rw [layout, ← hpre]
  exact List.drop_left

theorem accumulate_getElem? (offset : Offset_t) (sizes : List Nat) {i : Nat} (hi : i ≤ sizes.length) :
    (offset :: accumulate offset (sizes.map UInt32.ofNat))[i]?
      = some (offset + UInt32.ofNat (sizes.take i).sum) := by
  induction sizes generalizing offset i with
  | nil =>
    obtain rfl : i = 0 := Nat.le_zero.mp hi
    simp
  | cons size sizes ih =>
    cases i with
    | zero => simp
    | succ i =>
      have hrest := ih (offset + UInt32.ofNat size) (Nat.le_of_succ_le_succ hi)
      rw [List.map_cons, accumulate, List.getElem?_cons_succ, hrest, List.take_succ_cons,
        List.sum_cons, UInt32.ofNat_add, UInt32.add_assoc]

theorem length_accumulate (offset : Offset_t) (sizes : List Offset_t) :
    (accumulate offset sizes).length = sizes.length := by
  induction sizes generalizing offset with
  | nil => rfl
  | cons size sizes ih => rw [accumulate, List.length_cons, ih, List.length_cons]

/-! ### The two encoders -/

theorem appendAll_eq (offset : Offset_t) (txBytes : Bytes) (txs : List Bytes) :
    appendAll offset txBytes txs
      = (offset :: accumulate offset (txs.map fun txByte => UInt32.ofNat txByte.length),
         txBytes ++ txs.flatten) := by
  induction txs generalizing offset txBytes with
  | nil => simp [appendAll, accumulate]
  | cons txByte txs ih =>
    rw [appendAll, ih]
    simp only [List.map_cons, accumulate, List.flatten_cons, List.append_assoc]

section Parser

variable {H S : Type} {c : SignatureScheme H S} {version : Version} {check : CheckTransaction}

theorem mapM_take {ε α β : Type} {f : α → Except ε β} {l : List α} {r : List β}
    (h : l.mapM f = .ok r) (n : Nat) : (l.take n).mapM f = .ok (r.take n) := by
  induction l generalizing r n with
  | nil =>
    cases h
    simp [pure, Except.pure]
  | cons a l ih =>
    rw [List.mapM_cons] at h
    obtain ⟨x, hx, h⟩ := ok_of_bind h
    obtain ⟨xs, hxs, h⟩ := ok_of_bind h
    cases h
    cases n with
    | zero => rfl
    | succ n =>
      rw [List.take_succ_cons, List.mapM_cons, hx, List.take_succ_cons]
      change (do let xs ← (l.take n).mapM f; pure (x :: xs)) = _
      rw [ih hxs]
      rfl

theorem length_of_mapM {ε α β : Type} {f : α → Except ε β} {l : List α} {r : List β}
    (h : l.mapM f = .ok r) : r.length = l.length := by
  induction l generalizing r with
  | nil =>
    cases h
    rfl
  | cons a l ih =>
    rw [List.mapM_cons] at h
    obtain ⟨x, -, h⟩ := ok_of_bind h
    obtain ⟨xs, hxs, h⟩ := ok_of_bind h
    cases h
    rw [List.length_cons, List.length_cons, ih hxs]

/-- **The overloads agree**: a list of transactions is written as the list of
    their byte strings. -/
theorem encode_eq_encodeBytes {txs : List (Transaction S)} {txRLPs : List Bytes}
    (h : txs.mapM (Transaction.rlp c version) = .ok txRLPs) :
    encode c version txs = encodeBytes txRLPs := by
  rw [encode, encodeBytes, length_of_mapM h, appendAll_eq]
  simp only [mapM_take h, Except.mapError, List.nil_append]
  rfl

/-! ### The round trip -/

structure SameTransaction (c : SignatureScheme H S) (version : Version) (t t' : Transaction S) :
    Prop where
  fields : Transaction.SameFields version t t'
  hash : t'.hash c version = t.hash c version

/-- A transaction that can be sent: a signed one that was built here, or one
    that was received. -/
def Ready (c : SignatureScheme H S) (version : Version) (check : CheckTransaction)
    (t : Transaction S) : Prop :=
  (t.rlpBuffer = [] ∧ t.type ≠ .NullTransaction
    ∧ ∃ vrs, t.vrs = some vrs ∧ Transaction.checkSignature c version check t vrs = .ok ())
  ∨ Transaction.decode c version check t.rlpBuffer = .ok t

theorem ten_le_length_of_decode (hc : c.Inverse) {b : Bytes} {t : Transaction S}
    (h : Transaction.decode c version check b = .ok t) : 10 ≤ b.length := by
  obtain ⟨vrs, its, rest, -, hb, -, hall, hlen, -⟩ := Transaction.decode_split hc h
  have hitems := length_le_bytes fun it hit => (hall it hit).isItem
  have hlist := HieraChain.PBFT.length_payload_le_listItem (Items.bytes its ++ rest)
  have hcount : 7 ≤ version.fieldCountWithOutSig := by cases version <;> decide
  have hsig : c_sigCount = 3 := rfl
  rw [← hb, List.length_append] at hlist
  omega

theorem Ready.decode_rlp (hc : c.Inverse) {t : Transaction S} (ht : Ready c version check t)
    {b : Bytes} (hb : t.rlp c version = .ok b) (hlen : b.length < 2 ^ 32) :
    ∃ t', Transaction.decode c version check b = .ok t' ∧ SameTransaction c version t t' := by
  rcases ht with ⟨hbuffer, htype, vrs, hvrs, hcheck⟩ | hdec
  · rw [Transaction.rlp, if_neg (fun h => h hbuffer)] at hb
    have hfit : Transaction.Fits (t.encode c version) := by
      intro b' hb'
      rw [hb] at hb'
      cases hb'
      unfold HieraChain.PBFT.vectorMaxSize
      omega
    obtain ⟨b', t', henc, hdec, hfields, hhash⟩ := Transaction.roundTrips hc htype hvrs hcheck hfit
    rw [hb] at henc
    cases henc
    exact ⟨t', hdec, hfields, hhash⟩
  · have hne : t.rlpBuffer ≠ [] := by
      intro hnil
      have hten := ten_le_length_of_decode hc hdec
      rw [hnil] at hten
      exact absurd hten (by decide)
    rw [Transaction.rlp, if_pos hne] at hb
    cases hb
    exact ⟨t, hdec, ⟨rfl, rfl, rfl, rfl, rfl, fun _ => rfl, rfl, rfl, rfl, fun _ => ⟨rfl, rfl, rfl⟩⟩,
      rfl⟩

theorem Ready.decode_all (hc : c.Inverse) {txs : List (Transaction S)} {txRLPs : List Bytes}
    (hready : ∀ t ∈ txs, Ready c version check t)
    (hrlp : txs.mapM (Transaction.rlp c version) = .ok txRLPs)
    (hsize : (txRLPs.map List.length).sum < 2 ^ 32) :
    ∃ txs', List.Forall₂ (fun b t => Transaction.decode c version check b = .ok t) txRLPs txs'
      ∧ List.Forall₂ (SameTransaction c version) txs txs' := by
  induction txs generalizing txRLPs with
  | nil =>
    cases hrlp
    exact ⟨[], .nil, .nil⟩
  | cons t txs ih =>
    rw [List.mapM_cons] at hrlp
    obtain ⟨b, hb, hrlp⟩ := ok_of_bind hrlp
    obtain ⟨bs, hbs, hrlp⟩ := ok_of_bind hrlp
    cases hrlp
    rw [List.map_cons, List.sum_cons] at hsize
    obtain ⟨t', hdec, hsame⟩ := (hready t List.mem_cons_self).decode_rlp hc hb (by omega)
    obtain ⟨txs', hdecs, hsames⟩ :=
      ih (fun t ht => hready t (List.mem_cons_of_mem _ ht)) hbs (by omega)
    exact ⟨t' :: txs', .cons hdec hdecs, .cons hsame hsames⟩

theorem cropped_flatten (objects : List Bytes) {i : Nat} {b : Bytes} (hi : objects[i]? = some b) :
    cropped objects.flatten ((objects.map List.length).take i).sum b.length = b
      ∧ ((objects.map List.length).take i).sum + b.length ≤ objects.flatten.length
      ∧ ((objects.map List.length).take (i + 1)).sum
        = ((objects.map List.length).take i).sum + b.length := by
  obtain ⟨hlt, hget⟩ := List.getElem?_eq_some_iff.mp hi
  have hsum : ((objects.map List.length).take (i + 1)).sum
      = ((objects.map List.length).take i).sum + b.length := by
    rw [List.take_add_one, List.sum_append, List.getElem?_map, hi]
    simp
  have hle : ((objects.map List.length).take (i + 1)).sum ≤ objects.flatten.length := by
    rw [List.length_flatten]
    conv_rhs => rw [← List.take_append_drop (i + 1) (objects.map List.length)]
    rw [List.sum_append]
    omega
  refine ⟨?_, by omega, hsum⟩
  have hslice := List.drop_take_succ_flatten_eq_getElem objects i hlt
  rw [hsum, List.drop_take, Nat.add_sub_cancel_left, hget] at hslice
  rw [cropped, if_pos (by omega)]
  exact hslice

/-- What the encoders write for byte strings of at most 2^32 - 1 bytes together. -/
def encoded (txRLPs : List Bytes) : Bytes :=
  layout (UInt32.ofNat txRLPs.length)
    (0 :: accumulate 0 ((txRLPs.map List.length).map UInt32.ofNat)) txRLPs.flatten

theorem load_encoded_offset (txRLPs : List Bytes) {i : Nat} (hi : i ≤ txRLPs.length) :
    load (encoded txRLPs) (4 + 4 * i)
      = .ok (UInt32.ofNat ((txRLPs.map List.length).take i).sum) := by
  refine load_layout_offset _ _ _ ?_
  rw [accumulate_getElem? 0 _ (by rw [List.length_map]; exact hi), UInt32.zero_add]

theorem drop_encoded (txRLPs : List Bytes) :
    (encoded txRLPs).drop (4 * (txRLPs.length + 2)) = txRLPs.flatten
      ∧ (encoded txRLPs).length = 4 * (txRLPs.length + 2) + txRLPs.flatten.length := by
  have hlen : (0 :: accumulate 0 ((txRLPs.map List.length).map UInt32.ofNat)).length
      = txRLPs.length + 1 := by
    rw [List.length_cons, length_accumulate, List.length_map, List.length_map]
  have hdrop := drop_layout (UInt32.ofNat txRLPs.length)
    (0 :: accumulate 0 ((txRLPs.map List.length).map UInt32.ofNat)) txRLPs.flatten
  have htotal := length_layout (UInt32.ofNat txRLPs.length)
    (0 :: accumulate 0 ((txRLPs.map List.length).map UInt32.ofNat)) txRLPs.flatten
  rw [hlen] at hdrop htotal
  rw [encoded, show 4 * (txRLPs.length + 2) = 4 + 4 * (txRLPs.length + 1) by omega]
  exact ⟨hdrop, htotal⟩

theorem decodeOne_encoded {txRLPs : List Bytes} {i : Nat} {b : Bytes} {t : Transaction S}
    (hsize : (txRLPs.map List.length).sum < 2 ^ 32) (hi : txRLPs[i]? = some b) (hpos : 0 < b.length)
    (hdec : Transaction.decode c version check b = .ok t) :
    decodeOne c version check (encoded txRLPs) (4 * (txRLPs.length + 2)) i = .ok t := by
  obtain ⟨hlt, -⟩ := List.getElem?_eq_some_iff.mp hi
  obtain ⟨hslice, hle, hnext⟩ := cropped_flatten txRLPs hi
  obtain ⟨hdrop, htotal⟩ := drop_encoded txRLPs
  rw [List.length_flatten] at hle htotal
  have hoffset : (UInt32.ofNat ((txRLPs.map List.length).take i).sum).toNat
      = ((txRLPs.map List.length).take i).sum := UInt32.toNat_ofNat_of_lt' (by
    change _ < 2 ^ 32
    omega)
  have hlength : (UInt32.ofNat ((txRLPs.map List.length).take (i + 1)).sum
      - UInt32.ofNat ((txRLPs.map List.length).take i).sum).toNat = b.length := by
    rw [hnext, UInt32.ofNat_add, UInt32.add_comm, UInt32.add_sub_cancel]
    exact UInt32.toNat_ofNat_of_lt' (by
      change _ < 2 ^ 32
      omega)
  rw [decodeOne, load_encoded_offset _ (by omega), load_encoded_offset _ (by omega)]
  change (if (UInt32.ofNat ((txRLPs.map List.length).take i).sum).toNat
      > (encoded txRLPs).length - 4 * (txRLPs.length + 2) - 1 then _ else _) = _
  rw [hoffset, if_neg (by omega), hdrop, hlength, hslice, hdec]
  rfl

/-! ### The loop -/

theorem decodeLoop_spec {b : Bytes} {objectStart : Nat} {txs : List (Transaction S)}
    (hone : ∀ i t, txs[i]? = some t → decodeOne c version check b objectStart i = .ok t)
    (order : List Nat) (hin : ∀ i ∈ order, i < txs.length)
    (slots : List (Option (Transaction S))) (hlen : slots.length = txs.length) :
    ∃ slots', decodeLoop c version check b objectStart order slots = .ok slots'
      ∧ slots'.length = txs.length
      ∧ ∀ j, slots'[j]? = if j ∈ order then txs[j]?.map some else slots[j]? := by
  induction order generalizing slots with
  | nil => exact ⟨slots, rfl, hlen, fun j => by simp⟩
  | cons i order ih =>
    have hi := hin i List.mem_cons_self
    have hget := List.getElem?_eq_getElem hi
    obtain ⟨slots', hrun, hlen', hslots⟩ := ih (fun j hj => hin j (List.mem_cons_of_mem _ hj))
      (slots.set i (some txs[i])) (by rw [List.length_set, hlen])
    refine ⟨slots', ?_, hlen', fun j => ?_⟩
    · rw [decodeLoop, List.foldlM_cons, hone i _ hget]
      exact hrun
    · rw [hslots j]
      by_cases hj : j ∈ order
      · rw [if_pos hj, if_pos (List.mem_cons_of_mem _ hj)]
      · rw [if_neg hj, List.getElem?_set]
        by_cases hij : i = j
        · subst hij
          rw [if_pos rfl, if_pos (by rw [hlen]; exact hi), if_pos List.mem_cons_self, hget]
          rfl
        · rw [if_neg hij, if_neg]
          rintro (_ | ⟨_, hmem⟩)
          · exact hij rfl
          · exact hj hmem

theorem decodeLoop_eq {b : Bytes} {objectStart : Nat} {txs : List (Transaction S)}
    (hone : ∀ i t, txs[i]? = some t → decodeOne c version check b objectStart i = .ok t)
    {order : List Nat} (hperm : order.Perm (List.range txs.length))
    {slots : List (Option (Transaction S))} (hlen : slots.length = txs.length) :
    decodeLoop c version check b objectStart order slots = .ok (txs.map some) := by
  obtain ⟨slots', hrun, hlen', hslots⟩ := decodeLoop_spec hone order
    (fun i hi => List.mem_range.mp (hperm.mem_iff.mp hi)) slots hlen
  rw [hrun]
  congr 1
  refine List.ext_getElem? fun j => ?_
  rw [hslots j, List.getElem?_map]
  split
  · rfl
  next hj =>
    have hge : ¬ j < txs.length := fun hlt => hj (hperm.mem_iff.mpr (List.mem_range.mpr hlt))
    rw [List.getElem?_eq_none (by omega), List.getElem?_eq_none (by omega)]
    rfl

theorem length_resize {α : Type} (v : List (Option α)) (n : Nat) : (resize v n).length = n := by
  rw [resize, List.length_append, List.length_take, List.length_replicate]
  omega

theorem ten_mul_length_le (hc : c.Inverse) {txRLPs : List Bytes} {txs : List (Transaction S)}
    (h : List.Forall₂ (fun b t => Transaction.decode c version check b = .ok t) txRLPs txs) :
    10 * txRLPs.length ≤ (txRLPs.map List.length).sum := by
  induction h with
  | nil => exact Nat.le_refl _
  | cons hdec _ ih =>
    have hten := ten_le_length_of_decode hc hdec
    rw [List.map_cons, List.sum_cons, List.length_cons]
    omega

theorem toNat_count {n : Nat} (h : n + 2 < 2 ^ 32) :
    (UInt32.ofNat n).toNat = n ∧ (UInt32.ofNat n + 2).toNat = n + 2
      ∧ UInt32.ofNat n + 1 ≠ 0 ∧ (0 < n → UInt32.ofNat n ≠ 0) := by
  have hn : (UInt32.ofNat n).toNat = n := UInt32.toNat_ofNat_of_lt' (by
    change n < 2 ^ 32
    omega)
  refine ⟨hn, ?_, fun h0 => ?_, fun hpos h0 => ?_⟩
  · rw [UInt32.toNat_add, hn]
    exact Nat.mod_eq_of_lt h
  · have hsum := congrArg UInt32.toNat h0
    rw [UInt32.toNat_add, hn, Nat.mod_eq_of_lt (show n + (1 : UInt32).toNat < 2 ^ 32 by
      change n + 1 < 2 ^ 32
      omega)] at hsum
    exact absurd hsum (Nat.succ_ne_zero n)
  · rw [h0] at hn
    exact absurd hn (Nat.ne_of_lt hpos)

theorem encode_eq_encoded {txs : List (Transaction S)} {txRLPs : List Bytes}
    (hrlp : txs.mapM (Transaction.rlp c version) = .ok txRLPs) (hpos : 0 < txRLPs.length)
    (hcount : txRLPs.length + 2 < 2 ^ 32) : encode c version txs = .ok (encoded txRLPs) := by
  obtain ⟨hn, -, hone, hzero⟩ := toNat_count hcount
  rw [encode_eq_encodeBytes hrlp, encodeBytes, appendAll_eq, hn, List.take_length, List.nil_append]
  change (if UInt32.ofNat txRLPs.length = 0 then _
    else if UInt32.ofNat txRLPs.length + 1 = 0 then _ else _) = _
  rw [if_neg (hzero hpos), if_neg hone, encoded, List.map_map]
  rfl

/-- **What is encoded decodes to the same transactions in order.** -/
theorem decode_encode (hc : c.Inverse) {txs : List (Transaction S)} {txRLPs : List Bytes}
    (hready : ∀ t ∈ txs, Ready c version check t)
    (hrlp : txs.mapM (Transaction.rlp c version) = .ok txRLPs)
    (hsize : (txRLPs.map List.length).sum < 2 ^ 32) :
    ∃ b txs', encode c version txs = .ok b ∧ List.Forall₂ (SameTransaction c version) txs txs'
      ∧ ∀ order, Schedule b order → decode c version check order [] b = .ok (txs'.map some) := by
  obtain ⟨txs', hdecs, hsames⟩ := Ready.decode_all hc hready hrlp hsize
  have hten := ten_mul_length_le hc hdecs
  have hlen := hdecs.length_eq
  rcases Nat.eq_zero_or_pos txRLPs.length with hzero | hpos
  · have hnil : txRLPs = [] := List.length_eq_zero_iff.mp hzero
    have htxs : txs = [] := List.length_eq_zero_iff.mp (by rw [← length_of_mapM hrlp, hzero])
    have htxs' : txs' = [] := List.length_eq_zero_iff.mp (by rw [← hlen, hzero])
    subst hnil htxs htxs'
    exact ⟨[], [], rfl, .nil, fun order _ => rfl⟩
  · have hcount : txRLPs.length + 2 < 2 ^ 32 := by omega
    obtain ⟨hn, hstart, hone, -⟩ := toNat_count hcount
    obtain ⟨hdrop, htotal⟩ := drop_encoded txRLPs
    have hload : load (encoded txRLPs) 0 = .ok (UInt32.ofNat txRLPs.length) :=
      load_layout_count _ _ _
    have hobjects : 0 < txRLPs.flatten.length := by
      rw [List.length_flatten]
      omega
    refine ⟨encoded txRLPs, txs', encode_eq_encoded hrlp hpos hcount, hsames, fun order horder => ?_⟩
    have hperm := horder _ hload
    rw [hn] at hperm
    rw [decode, if_neg (by omega), hload]
    change (if 4 * (UInt32.ofNat txRLPs.length + 2).toNat ≥ (encoded txRLPs).length then _
      else if UInt32.ofNat txRLPs.length + 1 = 0
          ∨ ((encoded txRLPs).drop (4 * (UInt32.ofNat txRLPs.length + 2).toNat)).length = 0 then _
      else _) = _
    rw [hstart, if_neg (by omega), hdrop, if_neg (not_or.mpr ⟨hone, by omega⟩), hn]
    refine decodeLoop_eq (fun i t hi => ?_) (by rw [← hlen]; exact hperm)
      (by rw [length_resize, hlen])
    obtain ⟨hlt, hget⟩ := List.getElem?_eq_some_iff.mp hi
    have hi' : i < txRLPs.length := by rw [hlen]; exact hlt
    have hdec := List.forall₂_iff_get.mp hdecs |>.2 i hi' hlt
    have hb := List.getElem?_eq_getElem hi'
    have hdec' : Transaction.decode c version check txRLPs[i] = .ok t := by
      rw [← hget]
      exact hdec
    have hlong := ten_le_length_of_decode hc hdec'
    exact decodeOne_encoded hsize hb (by omega) hdec'

/-! ### Reads outside the input -/

theorem decodeOne_outOfBounds_iff {b : Bytes} {objectStart i : Nat} :
    decodeOne c version check b objectStart i = .error .outOfBounds
      ↔ b.length < 4 + 4 * (i + 1) + 4 := by
  constructor
  · intro h
    by_contra hin
    obtain ⟨offset, hoffset⟩ := load_ok (show 4 + 4 * i + 4 ≤ b.length by omega)
    obtain ⟨next, hnext⟩ := load_ok (show 4 + 4 * (i + 1) + 4 ≤ b.length by omega)
    rw [decodeOne, hoffset, hnext] at h
    change (if offset.toNat > b.length - objectStart - 1 then _ else
      (Transaction.decode c version check
        (cropped (b.drop objectStart) offset.toNat (next - offset).toNat)).mapError _) = _ at h
    split at h
    · cases h
    · cases hdec : Transaction.decode c version check
          (cropped (b.drop objectStart) offset.toNat (next - offset).toNat) with
      | ok t => rw [hdec] at h; cases h
      | error e => rw [hdec] at h; cases h
  · intro hout
    rcases Nat.lt_or_ge b.length (4 + 4 * i + 4) with hfirst | hfirst
    · rw [decodeOne, load_outOfBounds hfirst]
      rfl
    · obtain ⟨offset, hoffset⟩ := load_ok hfirst
      rw [decodeOne, hoffset, load_outOfBounds hout]
      rfl

theorem decodeLoop_ne_outOfBounds {b : Bytes} {objectStart : Nat} {order : List Nat}
    (hin : ∀ i ∈ order, 4 + 4 * (i + 1) + 4 ≤ b.length) (slots : List (Option (Transaction S))) :
    decodeLoop c version check b objectStart order slots ≠ .error .outOfBounds := by
  induction order generalizing slots with
  | nil => exact nofun
  | cons i order ih =>
    have hi := hin i List.mem_cons_self
    rw [decodeLoop, List.foldlM_cons]
    cases hone : decodeOne c version check b objectStart i with
    | ok t => exact ih (fun j hj => hin j (List.mem_cons_of_mem _ hj)) _
    | error e =>
      intro h
      cases h
      rw [decodeOne_outOfBounds_iff] at hone
      omega

/-- The byte strings that `decode` does not leave: the empty one, and those
    that hold a count, which is not 2^32 - 2 or has its whole table behind it. -/
def HoldsTable (b : Bytes) : Prop :=
  b = [] ∨ ∃ txNum, load b 0 = .ok txNum ∧ (txNum.toNat = 2 ^ 32 - 2 → 2 ^ 34 ≤ b.length)

theorem decode_of_load {b : Bytes} {txNum : Offset_t} (h : load b 0 = .ok txNum) (order : List Nat)
    (txs : List (Option (Transaction S))) :
    decode c version check order txs b
      = if 4 * (txNum + 2).toNat ≥ b.length then
          .error (.invalidBlockFormat (.reason "objectStart >= bytesSize"))
        else if txNum + 1 = 0 ∨ (b.drop (4 * (txNum + 2).toNat)).length = 0 then
          .error (.invalidBlockFormat (.reason "offsets.size() == 0 || txBytes.size() == 0"))
        else
          decodeLoop c version check b (4 * (txNum + 2).toNat) order (resize txs txNum.toNat) := by
  have hne : b.length ≠ 0 := by
    intro hnil
    rw [load_outOfBounds (by omega)] at h
    cases h
  rw [decode, if_neg hne, h]
  rfl

theorem HoldsTable.decode_ne {b : Bytes} (h : HoldsTable b) {order : List Nat}
    (horder : Schedule b order) (txs : List (Option (Transaction S))) :
    decode c version check order txs b ≠ .error .outOfBounds := by
  rcases h with rfl | ⟨txNum, hload, hlarge⟩
  · exact nofun
  · rw [decode_of_load hload]
    split
    · exact nofun
    next hstart =>
    split
    · exact nofun
    next hcount =>
    refine decodeLoop_ne_outOfBounds (fun i hi => ?_) _
    have hi' := List.mem_range.mp ((horder txNum hload).mem_iff.mp hi)
    have hlt := txNum.toNat_lt
    rw [UInt32.toNat_add] at hstart
    change ¬ 4 * ((txNum.toNat + 2) % 2 ^ 32) ≥ b.length at hstart
    rcases Nat.lt_or_ge (txNum.toNat + 2) (2 ^ 32) with hsmall | hwrap
    · rw [Nat.mod_eq_of_lt hsmall] at hstart
      omega
    · by_cases hmax : txNum.toNat = 2 ^ 32 - 2
      · have := hlarge hmax
        omega
      · -- the count 2^32 - 1 makes the table empty
        exfalso
        refine hcount (Or.inl (UInt32.toNat_inj.mp ?_))
        rw [UInt32.toNat_add]
        change (txNum.toNat + 1) % 2 ^ 32 = 0
        omega

theorem decode_outOfBounds {b : Bytes} {txNum : Offset_t} (hload : load b 0 = .ok txNum)
    (hmax : txNum.toNat = 2 ^ 32 - 2) (hshort : b.length < 2 ^ 34) :
    ∃ order, Schedule b order ∧ decode c version check order [] b = .error .outOfBounds := by
  obtain ⟨m, hm⟩ : ∃ m, txNum.toNat = m + 1 := ⟨txNum.toNat - 1, by omega⟩
  refine ⟨m :: List.range m, fun n hn => ?_, ?_⟩
  · rw [hload] at hn
    cases hn
    rw [hm, List.range_succ]
    exact (List.perm_append_singleton m (List.range m)).symm
  · have hpos : 0 < b.length := by
      by_contra hnil
      rw [load_outOfBounds (by omega)] at hload
      cases hload
    have hzero : (txNum + 2).toNat = 0 := by
      rw [UInt32.toNat_add]
      change (txNum.toNat + 2) % 2 ^ 32 = 0
      omega
    have hone : txNum + 1 ≠ 0 := by
      intro h
      have hnat := congrArg UInt32.toNat h
      rw [UInt32.toNat_add] at hnat
      change (txNum.toNat + 1) % 2 ^ 32 = 0 at hnat
      omega
    rw [decode_of_load hload, hzero, if_neg (by omega), if_neg, decodeLoop, List.foldlM_cons,
      decodeOne_outOfBounds_iff.mpr (by omega)]
    · rfl
    · rintro (h | h)
      · exact hone h
      · rw [List.drop_zero] at h
        omega

/-- **Which byte strings `decode` stays inside.** -/
theorem decode_safe_iff (c : SignatureScheme H S) (version : Version) (check : CheckTransaction)
    (b : Bytes) :
    (∀ order txs, Schedule b order → decode c version check order txs b ≠ .error .outOfBounds)
      ↔ HoldsTable b := by
  constructor
  · intro hsafe
    rcases Nat.eq_zero_or_pos b.length with hnil | hpos
    · exact Or.inl (List.length_eq_zero_iff.mp hnil)
    rcases Nat.lt_or_ge b.length 4 with hshort | hlong
    · have hload := load_outOfBounds (show b.length < 0 + 4 by omega)
      refine absurd ?_ (hsafe [] [] fun n hn => ?_)
      · rw [decode, if_neg (by omega), hload]
        rfl
      · rw [hload] at hn
        cases hn
    · obtain ⟨txNum, hload⟩ := load_ok (show 0 + 4 ≤ b.length by omega)
      refine Or.inr ⟨txNum, hload, fun hmax => ?_⟩
      by_contra hshort
      obtain ⟨order, horder, hout⟩ := decode_outOfBounds hload hmax (Nat.lt_of_not_le hshort)
      exact hsafe order [] horder hout
  · exact fun h order txs horder => h.decode_ne horder txs

end Parser

/-- **The transaction list codec.**  A list of ready transactions round trips,
    the overloads agree, and `decode` stays inside its input exactly on the
    byte strings that hold their offset table. -/
theorem txs_parser_iff {H S : Type} (c : SignatureScheme H S) (hc : c.Inverse) (version : Version)
    (check : CheckTransaction) :
    (∀ (txs : List (Transaction S)) (txRLPs : List Bytes),
        (∀ t ∈ txs, Ready c version check t) →
        txs.mapM (Transaction.rlp c version) = .ok txRLPs →
        (txRLPs.map List.length).sum < 2 ^ 32 →
        ∃ b txs', encode c version txs = .ok b ∧ List.Forall₂ (SameTransaction c version) txs txs'
          ∧ ∀ order, Schedule b order →
            decode c version check order [] b = .ok (txs'.map some))
      ∧ (∀ (txs : List (Transaction S)) (txRLPs : List Bytes),
        txs.mapM (Transaction.rlp c version) = .ok txRLPs →
        encode c version txs = encodeBytes txRLPs)
      ∧ (∀ b, (∀ order txs, Schedule b order →
          decode c version check order txs b ≠ .error .outOfBounds) ↔ HoldsTable b) :=
  ⟨fun _ _ hready hrlp hsize => decode_encode hc hready hrlp hsize,
    fun _ _ hrlp => encode_eq_encodeBytes hrlp, fun b => decode_safe_iff c version check b⟩

/-- A created and a received transaction. -/
theorem txs_parser_iff_two :
    (∃ b txs', encode plainScheme .RC2
          [plainCreation, { plainCreation with rlpBuffer := trailingBytes }] = .ok b
        ∧ List.Forall₂ (SameTransaction plainScheme .RC2)
          [plainCreation, { plainCreation with rlpBuffer := trailingBytes }] txs'
        ∧ ∀ order, Schedule b order →
          decode plainScheme .RC2 .Everything order [] b = .ok (txs'.map some))
      ∧ encode plainScheme .RC2 [plainCreation] = encodeBytes [plainBytes] := by
  obtain ⟨hround, hagree, -⟩ := txs_parser_iff plainScheme
    (ecdsa_inverse id fun _ _ => some Address.zero) .RC2 .Everything
  refine ⟨hround _ [plainBytes, trailingBytes] (fun t ht => ?_) (by decide +kernel) (by decide),
    hagree _ _ (by decide +kernel)⟩
  rcases List.mem_cons.mp ht with rfl | ht
  · exact Or.inl ⟨rfl, by decide, _, rfl, by decide +kernel⟩
  · rw [List.mem_singleton.mp ht]
    exact Or.inr decode_trailingBytes

/-- One byte, and a count of 2^32 - 2 with one byte behind it. -/
theorem txs_parser_leaves_input :
    (Schedule [0x01] [] ∧ decode plainScheme .RC2 .Everything [] [] [0x01] = .error .outOfBounds)
      ∧ ∃ order, Schedule [0xfe, 0xff, 0xff, 0xff, 0x00] order
        ∧ decode plainScheme .RC2 .Everything order [] [0xfe, 0xff, 0xff, 0xff, 0x00]
          = .error .outOfBounds := by
  refine ⟨⟨nofun, rfl⟩, ?_⟩
  have hcount : load [0xfe, 0xff, 0xff, 0xff, 0x00] 0 = .ok 0xfffffffe := rfl
  exact decode_outOfBounds hcount rfl (by decide)

end TxsParallelParser

end HieraChain.Eth
