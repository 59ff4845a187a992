/-
  HieraChain/ABI.lean
  ===================
  **The codec of contract calls** (`libethcore/ABI.h`, `ABI.cpp`).

  The templates of `ContractABI` are functions of the type of a value: `AbiType`
  lists the supported types, and `Value t` is what a variable of type `t` holds.
  Arguments are pairs of a type and a value.  An exception of the decoder is
  `none`; `abiOut` turns it into `false`.

  Sizes and offsets of the decoder are of 64 bits (`size_t`).  Memory for what is
  decoded is there.  `std::vector<bool>` and static arrays without elements do not
  compile in the source; here they are types like others.
-/
import HieraChain.BigEndian
import HieraChain.ByteLayout
import HieraChain.Decimal
import HieraChain.Hex
import HieraChain.RLP

namespace HieraChain.ABI

open HieraChain.BigEndian HieraChain.RLP HieraChain.ByteLayout HieraChain.Decimal

abbrev U256 := BitVec 256

/-- A sign and 256 bits, as `s256` has them. -/
structure S256 where
  val : Int
  lower : -(2 ^ 256) < val
  upper : val < 2 ^ 256
  deriving DecidableEq

theorem S256.ext {v w : S256} (h : v.val = w.val) : v = w := by
  cases v
  cases w
  cases h
  rfl

/-- `convert_to<u256>()`: two's complement. -/
def S256.toU256 (v : S256) : U256 := BitVec.ofInt 256 v.val

/-! ### Types -/

inductive AbiType
  | u256
  | s256
  | bool
  | address
  | string32
  | string
  | bytes
  | array (elem : AbiType) (n : Nat)
  | vector (elem : AbiType)
  deriving DecidableEq, Repr

/-- `ABIDynamicType` -/
def isDynamic : AbiType → Bool
  | .string => true
  | .bytes => true
  | .vector _ => true
  | .array elem _ => isDynamic elem
  | _ => false

/-- `Length` and `Offset`: the words that a value takes in the fixed part. -/
def fixedLength : AbiType → Nat
  | .array elem n => if isDynamic elem then 1 else n * fixedLength elem
  | _ => 1

def Value : AbiType → Type
  | .u256 => U256
  | .s256 => S256
  | .bool => Bool
  | .address => FixedHash 20
  | .string32 => FixedHash 32
  | .string => Bytes
  | .bytes => Bytes
  | .array elem n => { xs : List (Value elem) // xs.length = n }
  | .vector elem => { xs : List (Value elem) // xs.length < 2 ^ 64 }

abbrev Arg := Σ t, Value t

def MAX_BYTE_LENGTH : Nat := 32

/-! ### Encoding -/

/-- `h256(u256(n)).asBytes()` -/
def word (n : Nat) : Bytes := pushInt n MAX_BYTE_LENGTH

/-- `serialise(const bytes&)`, `serialise(const std::string&)`: the size, and the
    bytes filled up with zeros. -/
def serialiseBytes (input : Bytes) : Bytes :=
  let size := (input.length + 31) / MAX_BYTE_LENGTH * MAX_BYTE_LENGTH
  word input.length ++ (input ++ List.replicate (size - input.length) 0)

/-- The loop over the encoded elements of an array: `offset_bytes` and `content`. -/
def serialiseElements (dynamic : Bool) : Nat → List Bytes → Bytes × Bytes
  | _, [] => ([], [])
  | length, out :: outs =>
    let rest := serialiseElements dynamic (if dynamic then length + out.length else length) outs
    ((if dynamic then word length else []) ++ rest.1, out ++ rest.2)

def serialise : (t : AbiType) → Value t → Bytes
  | .u256, (v : U256) => word v.toNat
  | .s256, (v : S256) => word v.toU256.toNat
  | .bool, (v : Bool) => word (if v then 1 else 0)
  | .address, (v : FixedHash 20) => List.replicate 12 0 ++ v.data
  | .string32, (v : FixedHash 32) => v.data
  | .string, (v : Bytes) => serialiseBytes v
  | .bytes, (v : Bytes) => serialiseBytes v
  | .array elem n, (v : { xs : List (Value elem) // xs.length = n }) =>
    let elements := serialiseElements (isDynamic elem) (n * MAX_BYTE_LENGTH) (v.val.map (serialise elem))
    elements.1 ++ elements.2
  | .vector elem, (v : { xs : List (Value elem) // xs.length < 2 ^ 64 }) =>
    let elements := serialiseElements (isDynamic elem) (v.val.length * MAX_BYTE_LENGTH) (v.val.map (serialise elem))
    word v.val.length ++ (elements.1 ++ elements.2)

/-- `abiInAux`: `fixed` and `dynamic`. -/
def abiInAux : Nat → List Arg → Bytes × Bytes
  | _, [] => ([], [])
  | offset, ⟨t, v⟩ :: args =>
    let out := serialise t v
    if isDynamic t then
      let rest := abiInAux (offset + out.length) args
      (word offset ++ rest.1, out ++ rest.2)
    else
      let rest := abiInAux offset args
      (out ++ rest.1, rest.2)

/-- `Offset<T...>` -/
def offsetOf (ts : List AbiType) : Nat := (ts.map fixedLength).sum

/-- `abiIn` without a signature: `fixed + dynamic`. -/
def abiIn (args : List Arg) : Bytes :=
  let parts := abiInAux (offsetOf (args.map Sigma.fst) * MAX_BYTE_LENGTH) args
  parts.1 ++ parts.2

/-! ### Decoding -/

/-- A value of type `size_t`. -/
def size_t (n : Nat) : Nat := n % 2 ^ 64

theorem size_t_lt (n : Nat) : size_t n < 2 ^ 64 := Nat.mod_lt _ (by decide)

def validOffset (data : Bytes) (offset : Nat) : Option Unit := if data.length ≤ size_t offset then none else some ()

/-- `populate` of `n` bytes. -/
def populate (n : Nat) (b : Bytes) : FixedHash n where
  data := (b ++ List.replicate n 0).take n
  length_data := by simp

def threshold : Nat := 0x8fffffffffffffffffffffffffffffffffffffffffffffffffffffffffffffff

def S256.ofU256 (u : U256) : S256 where
  val := if threshold < u.toNat then -((2 ^ 256 - 1 - u.toNat + 1 : Nat) : Int) else u.toNat
  lower := by
    have := u.isLt
    split <;> rw [threshold] at * <;> omega
  upper := by
    have := u.isLt
    split <;> omega

def deserialiseU256 (data : Bytes) (offset : Nat) : Option U256 := do
  validOffset data (offset + MAX_BYTE_LENGTH - 1)
  return BitVec.ofNat 256 (fromBigEndian (cropped data offset MAX_BYTE_LENGTH))

def deserialiseBytes (data : Bytes) (offset : Nat) : Option Bytes := do
  let len ← deserialiseU256 data offset
  validOffset data (offset + MAX_BYTE_LENGTH + size_t len.toNat - 1)
  return cropped data (size_t (offset + MAX_BYTE_LENGTH)) (size_t len.toNat)

/-- The loop over the elements: `n` of them, each from its number. -/
def collect {α : Type} : (n : Nat) → (Nat → Option α) → Option { xs : List α // xs.length = n }
  | 0, _ => some ⟨[], rfl⟩
  | n + 1, f => do
    let x ← f 0
    let xs ← collect n fun u => f (u + 1)
    return ⟨x :: xs.val, congrArg Nat.succ xs.property⟩

def collectVector {α : Type} {n : Nat} (hn : n < 2 ^ 64) (f : Nat → Option α) :
    Option { xs : List α // xs.length < 2 ^ 64 } :=
  (collect n f).map fun xs => ⟨xs.val, by rw [xs.property]; exact hn⟩

/-- `thisOffset` of element `u`: from the table, or by its number. -/
def elementOffset (data : Bytes) (elem : AbiType) (offset u : Nat) : Option Nat :=
  let place := size_t (offset + u * fixedLength elem * MAX_BYTE_LENGTH)
  if isDynamic elem then do
    let length ← deserialiseU256 data place
    return size_t (offset + size_t length.toNat)
  else return place

def deserialise (data : Bytes) : (t : AbiType) → Nat → Option (Value t)
  | .u256, offset => deserialiseU256 data offset
  | .s256, offset => (deserialiseU256 data offset).map S256.ofU256
  | .bool, offset => (deserialiseU256 data offset).map fun (ret : U256) => decide (0 < ret)
  | .address, offset => do
    validOffset data (offset + MAX_BYTE_LENGTH - 1)
    return populate 20 (cropped data (size_t (offset + MAX_BYTE_LENGTH - 20)) 20)
  | .string32, offset => do
    validOffset data (offset + MAX_BYTE_LENGTH - 1)
    return populate 32 (cropped data offset MAX_BYTE_LENGTH)
  | .string, offset => deserialiseBytes data offset
  | .bytes, offset => deserialiseBytes data offset
  | .array elem n, offset =>
    collect n fun u => do deserialise data elem (← elementOffset data elem offset u)
  | .vector elem, offset => do
    let length ← deserialiseU256 data offset
    let offset := size_t (offset + MAX_BYTE_LENGTH)
    collectVector (size_t_lt length.toNat) fun u => do deserialise data elem (← elementOffset data elem offset u)

def abiOutAux (data : Bytes) : Nat → List AbiType → Option (List Arg)
  | _, [] => some []
  | offset, t :: ts => do
    let place ← if isDynamic t then (deserialiseU256 data offset).map fun (u : U256) => size_t u.toNat else some offset
    let v ← deserialise data t place
    let args ← abiOutAux data (size_t (offset + fixedLength t * MAX_BYTE_LENGTH)) ts
    return ⟨t, v⟩ :: args

/-- `abiOut` into variables of the types; `none` is the answer `false`. -/
def abiOut (data : Bytes) (ts : List AbiType) : Option (List Arg) := abiOutAux data 0 ts

/-! ### Decoding by the names of types -/

/-- The loop of `abiOutByFuncSelector`: its answer and `_out`, or `none` where it
    throws. -/
def selectorLoop (data : Bytes) : Nat → List String → List Bytes → Option (Bool × List Bytes)
  | _, [], out => some (true, out)
  | offset, type :: allTypes, out =>
    if "int" = type ∨ "int256" = type then do
      let s ← (deserialise data .s256 offset : Option S256)
      selectorLoop data (size_t (offset + MAX_BYTE_LENGTH)) allTypes (out ++ [signedDecimal s.val])
    else if "uint" = type ∨ "uint256" = type then do
      let u ← (deserialise data .u256 offset : Option U256)
      selectorLoop data (size_t (offset + MAX_BYTE_LENGTH)) allTypes (out ++ [decimal u.toNat])
    else if "address" = type then do
      let addr ← (deserialise data .address offset : Option (FixedHash 20))
      selectorLoop data (size_t (offset + MAX_BYTE_LENGTH)) allTypes (out ++ [Hex.toHex addr.data])
    else if "string" = type then do
      let stringOffset ← deserialiseU256 data offset
      let str ← deserialiseBytes data (size_t stringOffset.toNat)
      selectorLoop data (size_t (offset + MAX_BYTE_LENGTH)) allTypes (out ++ [str])
    else some (false, out)

def abiOutByFuncSelector (data : Bytes) (allTypes : List String) (out : List Bytes) : Option (Bool × List Bytes) :=
  selectorLoop data 0 allTypes out

end HieraChain.ABI
