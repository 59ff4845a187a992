/-
  HieraChain/PBFTCommon.lean
  ==========================
  **The PBFT messages** of `libconsensus/Common.h` and `libconsensus/pbft/Common.h`.

  A message carries the height, view, node index and timestamp it was made
  with, the block hash, a signature `sig` of the block hash and a signature
  `sig2` of the other four fields.  `isFuture`, `signChecked` and `isEmpty` are
  not sent; the receiver sets them.

  `IDXTYPE` is `uint16_t` and `VIEWTYPE` is `int64_t`; fields are `Nat` and
  `Int`, and `WellTyped` states the ranges of the C++ types.  The hash type `H`
  and the signature type `S` are parameters: the codec takes byte strings, the
  consensus rules any types.
-/
import HieraChain.BigEndian

namespace HieraChain.PBFT

open HieraChain.BigEndian

/-! ### Constants -/

def MAXIDX : Nat := 65535
def MAXVIEW : Int := 9223372036854775807
def MAXTTL : UInt8 := 2

/-- `Invalid256`, the default timestamp and the index of an unsealed block. -/
def Invalid256 : Nat := 2 ^ 256 - 1

/-- `PBFTMsg`, and with it `SignReq`, `CommitReq` and `ViewChangeReq`. -/
structure PBFTMsg (H S : Type) where
  height : Int := -1
  view : Int := MAXVIEW
  idx : Nat := MAXIDX
  timestamp : Nat := Invalid256
  blockHash : H
  sig : S
  sig2 : S
  isFuture : Bool := false
  signChecked : Bool := true
  isEmpty : Bool := false
  deriving DecidableEq, Repr

/-- `PrepareReq`: `block` holds the encoded block, `pBlock` the decoded one. -/
structure PrepareReq (H S B P : Type) extends PBFTMsg H S where
  block : B
  pBlock : Option P := none
  deriving DecidableEq, Repr

/-- The ranges of the C++ types, for a message with `height >= 0` and `view >= 0`. -/
structure PBFTMsg.WellTyped {H S : Type} (m : PBFTMsg H S) : Prop where
  height_nonneg : 0 ≤ m.height
  height_lt : m.height < 2 ^ 63
  view_nonneg : 0 ≤ m.view
  view_lt : m.view < 2 ^ 63
  idx_lt : m.idx < 2 ^ 16
  timestamp_lt : m.timestamp < 2 ^ 256

/-- `PBFTMsgPacket`, and with it `OPBFTMsgPacket`. -/
structure PBFTMsgPacket (N : Type) where
  testLabel : Int := 0
  nodeIdx : Nat := 0
  nodeId : N
  packetId : UInt8 := 0
  -- the 8th bit of it on the wire is `prepareWithEmptyBlock`
  ttl : UInt8 := MAXTTL
  prepareWithEmptyBlock : Bool := false
  data : Bytes := []
  forwardNodes : List N := []
  deriving DecidableEq, Repr

end HieraChain.PBFT
