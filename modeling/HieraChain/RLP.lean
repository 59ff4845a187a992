/-
  HieraChain/RLP.lean
  ===================
  **The RLP reader and writer of `libdevcore`** (`RLP.h`, `RLP.cpp`).

  `RLP` is a view of a byte string; each accessor re-reads the prefix, so the
  model is a family of functions on `Bytes` that return `Except RLPError`.
  The list-indexing cache (`m_lastIndex`, `m_lastEnd`, `m_lastItem`) is left
  out: `operator[]` is given as a fresh object computes it.

  `RLPStream` keeps the output `mOut` and the stack `mListStack` of open
  lists.  Every overload of `append` ends in `noteAppended`, which closes the
  lists that the item completes by moving their bytes and writing the prefix
  in front.
-/
import HieraChain.BigEndian

namespace HieraChain.RLP

open HieraChain.BigEndian

inductive RLPError
  | badCast
  | badRLP
  | oversizeRLP
  | undersizeRLP
  | itemCountTooLarge
  | listStackNotEmpty
  deriving DecidableEq, Repr

/-! ### Constants -/

def c_rlpMaxLengthBytes : Nat := 8
def c_rlpDataImmLenStart : Nat := 0x80
def c_rlpListStart : Nat := 0xc0
def c_rlpDataImmLenCount : Nat := c_rlpListStart - c_rlpDataImmLenStart - c_rlpMaxLengthBytes
def c_rlpDataIndLenZero : Nat := c_rlpDataImmLenStart + c_rlpDataImmLenCount - 1
def c_rlpListImmLenCount : Nat := 256 - c_rlpListStart - c_rlpMaxLengthBytes
def c_rlpListIndLenZero : Nat := c_rlpListStart + c_rlpListImmLenCount - 1

/-- `std::numeric_limits<size_t>::max()`. -/
def sizeMax : Nat := 2 ^ 64 - 1

/-! ### The reader -/

def lead (d : Bytes) : Nat := (d.headD 0).toNat

def isNull (d : Bytes) : Bool := d.isEmpty

def isData (d : Bytes) : Bool := !isNull d && decide (lead d < c_rlpListStart)

def isList (d : Bytes) : Bool := !isNull d && decide (c_rlpListStart ≤ lead d)

def isSingleByte (d : Bytes) : Bool := !isNull d && decide (lead d < c_rlpDataImmLenStart)

def requireGood : Bytes → Except RLPError Unit
  | [] => .error .badRLP
  | n :: rest =>
    if n.toNat ≠ c_rlpDataImmLenStart + 1 then .ok ()
    else match rest with
      | [] => .error .badRLP
      | m :: _ => if m.toNat < c_rlpDataImmLenStart then .error .badRLP else .ok ()

/-- The branch of `length` for a payload of 56 bytes or more: `lengthSize`
    bytes of `rest` hold the length, without leading zeroes. -/
def longLength (lengthSize : Nat) (rest : Bytes) : Except RLPError Nat :=
  if rest.length < lengthSize then .error .badRLP
  else if lead rest = 0 then .error .badRLP
  else if lengthSize > 8 then .error .undersizeRLP
  else
    let ret := fromBigEndian (rest.take lengthSize)
    if ret < c_rlpListStart - c_rlpDataImmLenStart - c_rlpMaxLengthBytes then .error .badRLP
    else if ret ≥ sizeMax - 0x100 then .error .undersizeRLP
    else .ok ret

def length : Bytes → Except RLPError Nat
  | [] => .ok 0
  | d :: rest => do
    requireGood (d :: rest)
    let n := d.toNat
    if n < c_rlpDataImmLenStart then .ok 1
    else if n ≤ c_rlpDataIndLenZero then .ok (n - c_rlpDataImmLenStart)
    else if n < c_rlpListStart then longLength (n - c_rlpDataIndLenZero) rest
    else if n ≤ c_rlpListIndLenZero then .ok (n - c_rlpListStart)
    else longLength (n - c_rlpListIndLenZero) rest

def lengthSize (d : Bytes) : Nat :=
  if isData d && decide (c_rlpDataIndLenZero < lead d) then lead d - c_rlpDataIndLenZero
  else if isList d && decide (c_rlpListIndLenZero < lead d) then lead d - c_rlpListIndLenZero
  else 0

def payloadOffset (d : Bytes) : Nat := if isSingleByte d then 0 else 1 + lengthSize d

def actualSize (d : Bytes) : Except RLPError Nat :=
  if isNull d then .ok 0
  else if isSingleByte d then .ok 1
  else return payloadOffset d + (← length d)

/-- `vector_ref::cropped(_begin, _count)`; empty when out of range. -/
def cropped (d : Bytes) (begin count : Nat) : Bytes :=
  if begin + count ≤ d.length then (d.drop begin).take count else []

def payload (d : Bytes) : Except RLPError Bytes := do
  let l ← length d
  if l > d.length then .error .badRLP
  else .ok (cropped d (payloadOffset d) l)

/-- The constructor with the flags `ThrowOnFail | FailIfTooSmall`. -/
def ofThrowIfTooSmall (d : Bytes) : Except RLPError Bytes := do
  if (← actualSize d) > d.length then .error .undersizeRLP else .ok d

/-- The constructor with its default flags `VeryStrict`. -/
def ofVeryStrict (d : Bytes) : Except RLPError Bytes := do
  let size ← actualSize d
  if size < d.length then .error .oversizeRLP
  else if size > d.length then .error .undersizeRLP
  else .ok d

def sizeAsEncoded (d : Bytes) : Except RLPError Nat := do
  actualSize (← ofThrowIfTooSmall d)

/-- The loop of `operator[]`: `k` more items of `pl` after the item `lastItem`,
    which ends at `lastEnd`. -/
def indexFrom (pl : Bytes) : Nat → Nat → Bytes → Except RLPError Bytes
  | 0, _, lastItem => .ok lastItem
  | k + 1, lastEnd, lastItem =>
    if lastItem.isEmpty then .ok lastItem
    else do
      let tail := pl.drop lastEnd
      let item := cropped tail 0 (← sizeAsEncoded tail)
      indexFrom pl k (lastEnd + item.length) item

/-- `operator[]` on a fresh object. -/
def index (d : Bytes) (i : Nat) : Except RLPError Bytes := do
  let pl ← payload d
  let lastEnd ← sizeAsEncoded pl
  let item ← indexFrom pl i lastEnd (cropped pl 0 lastEnd)
  ofThrowIfTooSmall item

def isInt (d : Bytes) : Except RLPError Bool :=
  if isNull d then .ok false
  else do
    requireGood d
    let n := lead d
    if n < c_rlpDataImmLenStart then .ok (n != 0)
    else if n = c_rlpDataImmLenStart then .ok true
    else if n ≤ c_rlpDataIndLenZero then
      if d.length ≤ 1 then .error .badRLP else .ok (lead (d.drop 1) != 0)
    else if n < c_rlpListStart then
      if d.length ≤ 1 + n - c_rlpDataIndLenZero then .error .badRLP
      else .ok (lead (d.drop (1 + n - c_rlpDataIndLenZero)) != 0)
    else .ok false

/-- `toInt<_T>` with its default flags `Strict`, for an unsigned `_T` of
    `maxSize` bytes. -/
def toInt (maxSize : Nat) (d : Bytes) : Except RLPError Nat := do
  requireGood d
  if !(← isInt d) || isList d || isNull d then .error .badCast
  else
    let p ← payload d
    if p.length > maxSize then .error .badCast else .ok (fromBigEndian p)

/-- `toInt<int64_t>`: the shifts of `fromBigEndian` wrap into the sign bit. -/
def toInt64 (d : Bytes) : Except RLPError Int :=
  return Int.bmod (← toInt 8 d) (2 ^ 64)

/-- `toBytes` with its default flags `LaissezFaire`. -/
def toBytes (d : Bytes) : Except RLPError Bytes :=
  if isData d then payload d else .ok []

/-- A hash of `size` bytes. -/
structure FixedHash (size : Nat) where
  data : Bytes
  length_data : data.length = size
  deriving DecidableEq, Repr

/-- `toHash` with the flags `VeryStrict`. -/
def toHash (size : Nat) (d : Bytes) : Except RLPError (FixedHash size) := do
  requireGood d
  let p ← payload d
  if isData d then
    if h : p.length = size then .ok ⟨p, h⟩ else .error .badCast
  else .error .badCast

/-- `Converter<FixedHash>` with the flags `LaissezFaire`: a payload that is too
    short is padded on the left, one that is too long is cut on the right. -/
def toHashLax (size : Nat) (d : Bytes) : Except RLPError (FixedHash size) := do
  requireGood d
  let p ← payload d
  if isData d then
    .ok ⟨List.replicate (size - p.length) 0 ++ p.take size, by
      simp only [List.length_append, List.length_replicate, List.length_take]; omega⟩
  else .ok ⟨List.replicate size 0, length_zeros size⟩

/-- `begin()` to `end()` of a list: the items of the payload, in order; each is
    handed out through the constructor with the flags `VeryStrict`. -/
def items (fuel : Nat) (pl : Bytes) : Except RLPError (List Bytes) :=
  match fuel, pl with
  | _, [] => .ok []
  | 0, _ :: _ => .ok []
  | fuel + 1, pl => do
    let item := cropped pl 0 (← sizeAsEncoded pl)
    return (← ofVeryStrict item) :: (← items fuel (pl.drop item.length))

/-- The loop of `items()`; each item is at least one byte. -/
def itemCountFrom : Nat → Bytes → Except RLPError Nat
  | _, [] => .ok 0
  | 0, _ :: _ => .ok 0
  | fuel + 1, d => do
    let size ← sizeAsEncoded d
    return (← itemCountFrom fuel (d.drop size)) + 1

def itemCountStrict (d : Bytes) : Except RLPError Nat :=
  if isList d then do
    let pl ← payload d
    itemCountFrom pl.length pl
  else .error .badCast

/-- `toVector<_T>` with its default flags `LaissezFaire`. -/
def toVector {α : Type} (convert : Bytes → Except RLPError α) (d : Bytes) :
    Except RLPError (List α) :=
  if isList d then do
    let pl ← payload d
    (← items pl.length pl).mapM convert
  else .ok []

/-! ### The writer -/

/-- `RLPStream`: the output so far, and for each open list the number of items
    it still waits for and the position where it starts, innermost first. -/
structure RLPStream where
  mOut : Bytes := []
  mListStack : List (Nat × Nat) := []
  deriving DecidableEq, Repr

/-- The byte `base + size` for a short payload, else the number of bytes of its
    size and these bytes (`pushCount`). -/
def sizePrefix (start immLenCount size : Nat) : Bytes :=
  if size < immLenCount then [UInt8.ofNat (start + size)]
  else UInt8.ofNat (bytesRequired size + (start + immLenCount - 1)) :: bigEndian size

/-- The loop of `noteAppended`: each list that is complete gets its prefix and
    counts as one item of the list around it. -/
def closeLists (out : Bytes) : List (Nat × Nat) → Nat → Except RLPError RLPStream
  | [], _ => .ok { mOut := out }
  | (left, p) :: stack, itemCount =>
    if left < itemCount then .error .itemCountTooLarge
    else if left - itemCount ≠ 0 then
      .ok { mOut := out, mListStack := (left - itemCount, p) :: stack }
    else
      let list := out.drop p
      closeLists
        (out.take p ++ sizePrefix c_rlpListStart c_rlpListImmLenCount list.length ++ list) stack 1

def noteAppended (s : RLPStream) (itemCount : Nat := 1) : Except RLPError RLPStream :=
  if itemCount = 0 then .ok s else closeLists s.mOut s.mListStack itemCount

/-- `appendRaw`: bytes of `itemCount` finished items. -/
def appendRaw (s : RLPStream) (b : Bytes) (itemCount : Nat := 1) : Except RLPError RLPStream :=
  noteAppended { s with mOut := s.mOut ++ b } itemCount

/-- `append(bytesConstRef)`. -/
def appendBytes (s : RLPStream) (b : Bytes) : Except RLPError RLPStream :=
  if b.length = 1 ∧ lead b < c_rlpDataImmLenStart then
    noteAppended { s with mOut := s.mOut ++ b }
  else
    noteAppended { s with
      mOut := s.mOut ++ sizePrefix c_rlpDataImmLenStart c_rlpDataImmLenCount b.length ++ b }

/-- `append(bigint)`. -/
def appendBigint (s : RLPStream) (i : Nat) : Except RLPError RLPStream :=
  if i = 0 then
    noteAppended { s with mOut := s.mOut ++ [UInt8.ofNat c_rlpDataImmLenStart] }
  else if i < c_rlpDataImmLenStart then
    noteAppended { s with mOut := s.mOut ++ [UInt8.ofNat i] }
  else
    noteAppended { s with
      mOut := s.mOut
        ++ sizePrefix c_rlpDataImmLenStart c_rlpDataImmLenCount (bytesRequired i)
        ++ bigEndian i }

/-- `append(unsigned)`, the overload that every built-in integer type takes:
    the argument is converted to 32 bits. -/
def appendUnsigned (s : RLPStream) (i : Int) : Except RLPError RLPStream :=
  appendBigint s (i % 2 ^ 32).toNat

/-- `append(FixedHash)`. -/
def appendHash {size : Nat} (s : RLPStream) (h : FixedHash size) : Except RLPError RLPStream :=
  appendBytes s h.data

/-- `appendList(size_t)`; the empty list is written at once. -/
def appendList (s : RLPStream) (count : Nat) : Except RLPError RLPStream :=
  if count = 0 then
    noteAppended { s with mOut := s.mOut ++ sizePrefix c_rlpListStart c_rlpListImmLenCount 0 }
  else .ok { s with mListStack := (count, s.mOut.length) :: s.mListStack }

/-- `appendVector` of hashes. -/
def appendVector {size : Nat} (s : RLPStream) (v : List (FixedHash size)) :
    Except RLPError RLPStream := do
  v.foldlM appendHash (← appendList s v.length)

/-- `out`, `swapOut`: the bytes written, once every list is complete. -/
def out (s : RLPStream) : Except RLPError Bytes :=
  if s.mListStack.isEmpty then .ok s.mOut else .error .listStackNotEmpty

end HieraChain.RLP
