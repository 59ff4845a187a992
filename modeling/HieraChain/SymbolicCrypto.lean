/-
  HieraChain/SymbolicCrypto.lean
  ==============================
  **Hashes and signatures as terms of a free algebra.**

  An instance of `Crypto` on which concrete runs can be computed.  A hash is the
  term of what is hashed, so distinct headers, hash lists and transactions have
  distinct hashes; a signature is the term of the key, the hash and a salt, so a
  key has many valid signatures over one hash and no other key has any.

  The last section sets up a chain of four sealers with the keys 1 to 4, on
  which witnesses and counterexamples are computed.
-/
import HieraChain.PBFTEngine
import Mathlib.Data.List.Basic

namespace HieraChain

open HieraChain.BigEndian

inductive Term
  | atom (n : Nat)
  | pair (a b : Term)
  deriving DecidableEq, Repr

namespace Term

instance : Zero Term := ⟨.atom 0⟩

def ofList : List Term → Term
  | [] => atom 0
  | a :: l => pair a (ofList l)

def ofInt : Int → Term
  | .ofNat n => pair (atom 0) (atom n)
  | .negSucc n => pair (atom 1) (atom n)

def ofBytes (b : Bytes) : Term := ofList (b.map fun x => atom x.toNat)

theorem ofList_injective : Function.Injective ofList := by
  intro l
  induction l with
  | nil =>
    intro m h
    cases m with
    | nil => rfl
    | cons b m => cases h
  | cons a l ih =>
    intro m h
    cases m with
    | nil => cases h
    | cons b m =>
      injection h with hab hlm
      rw [hab, ih hlm]

theorem ofInt_injective : Function.Injective ofInt := by
  intro m n h
  cases m with
  | ofNat m =>
    cases n with
    | ofNat n => cases h; rfl
    | negSucc n => cases h
  | negSucc m =>
    cases n with
    | ofNat n => cases h
    | negSucc n => cases h; rfl

theorem ofBytes_injective : Function.Injective ofBytes := by
  apply ofList_injective.comp
  apply List.map_injective_iff.mpr
  intro x y h
  injection h with h
  exact UInt8.toNat_inj.mp h

def ofHeader (h : BlockHeader Term) : Term :=
  ofList [h.parentHash, h.stateRoot, h.transactionsRoot, h.receiptsRoot, h.dbHash,
    ofBytes h.logBloom, ofInt h.number, atom h.gasLimit, atom h.gasUsed, atom h.timestamp,
    ofList (h.extraData.map ofBytes), atom h.sealer, ofList (h.sealerList.map atom)]

theorem ofHeader_injective : Function.Injective ofHeader := by
  intro h h' heq
  have hfields := ofList_injective heq
  simp only [List.cons.injEq, atom.injEq, and_true] at hfields
  obtain ⟨hparent, hstate, htxs, hreceipts, hdb, hbloom, hnumber, hlimit, hused, htime, hextra, hsealer,
    hsealers⟩ := hfields
  have hbloom := ofBytes_injective hbloom
  have hnumber := ofInt_injective hnumber
  have hextra := List.map_injective_iff.mpr ofBytes_injective (ofList_injective hextra)
  have hatom : Function.Injective atom := fun _ _ h => atom.inj h
  have hsealers := List.map_injective_iff.mpr hatom (ofList_injective hsealers)
  cases h
  cases h'
  simp only [BlockHeader.mk.injEq]
  exact ⟨hparent, hstate, htxs, hreceipts, hdb, hbloom, hnumber, hlimit, hused, htime, hextra, hsealer,
    hsealers⟩

def signWith (key : NodeID) (hash : Term) (salt : Nat) : Term := pair (atom key) (pair hash (atom salt))

def verifyWith (key : NodeID) (sig hash : Term) : Bool :=
  match sig with
  | pair (atom k) (pair h (atom _)) => decide (k = key) && decide (h = hash)
  | _ => false

end Term

open Term

def symbolicCrypto : Crypto Term Term Nat where
  hash b := pair (atom 1) (ofBytes b)
  headerHash h := pair (atom 2) (ofHeader h)
  txHash t := pair (atom 3) (atom t)
  txsRoot l := pair (atom 4) (ofList l)
  sign key hash := signWith key hash 0
  verify := verifyWith

theorem symbolicCrypto_headerHash_injective : Function.Injective symbolicCrypto.headerHash := by
  intro h h' heq
  injection heq with _ heq
  exact ofHeader_injective heq

theorem symbolicCrypto_txsRoot_injective : Function.Injective symbolicCrypto.txsRoot := by
  intro l l' heq
  injection heq with _ heq
  exact ofList_injective heq

theorem symbolicCrypto_txHash_injective : Function.Injective symbolicCrypto.txHash := by
  intro t t' heq
  injection heq with _ heq
  exact atom.inj heq

theorem symbolicCrypto_verify_sign (key : NodeID) (hash : Term) :
    symbolicCrypto.verify key (symbolicCrypto.sign key hash) hash = true := by
  simp [symbolicCrypto, signWith, verifyWith]

theorem symbolicCrypto_verify_unique {key key' : NodeID} {sig hash : Term}
    (h : symbolicCrypto.verify key sig hash = true)
    (h' : symbolicCrypto.verify key' sig hash = true) : key = key' := by
  simp only [symbolicCrypto, verifyWith] at h h'
  split at h
  · simp only [Bool.and_eq_true, decide_eq_true_eq] at h h'
    exact h.1.symm.trans h'.1
  · cases h

/-! ### A chain of four sealers -/

namespace PBFT

def fourSealers : SealerList := ⟨[1, 2, 3, 4], by decide⟩

def genesis : Block Term Term Nat where
  header := {
    parentHash := 0, stateRoot := 0, transactionsRoot := 0, receiptsRoot := 0, dbHash := 0
    number := 0, sealer := 0, sealerList := [1, 2, 3, 4] }
  transactions := []

def blockOn (parent : Block Term Term Nat) (timestamp : Nat) (transactions : List Nat) :
    Block Term Term Nat where
  header := {
    parentHash := symbolicCrypto.headerHash parent.header
    stateRoot := 0
    transactionsRoot := symbolicCrypto.txsRoot (transactions.map symbolicCrypto.txHash)
    receiptsRoot := 0
    dbHash := 0
    number := parent.header.number + 1
    timestamp
    sealer := 0
    sealerList := [1, 2, 3, 4] }
  transactions

def hashOf (b : Block Term Term Nat) : Term := symbolicCrypto.headerHash b.header

def sealerConfig (key : NodeID) : Config Term Term Nat where
  key := key
  crypto := symbolicCrypto

def quietEnv : Env Nat where
  sealers := fourSealers

def startNode : Node Term Term Nat :=
  Node.initPBFTEnv quietEnv 0 (emptyPrepare 0) [genesis] genesis.header

theorem startNode_started : Started startNode := by
  refine ⟨quietEnv, 0, emptyPrepare 0, [genesis], genesis, ?_, rfl, rfl⟩
  intro n b hb
  unfold Chain.getBlockByNumber at hb
  split_ifs at hb with hneg
  have hlen := (List.getElem?_eq_some_iff.mp hb).1
  have hzero : n.toNat = 0 := Nat.lt_one_iff.mp hlen
  rw [hzero] at hb
  cases hb
  change (0 : Int) = n
  omega

/-- The request of the sealer at `idx` (its key is `idx + 1`) for a block. -/
def requestFor (idx : Nat) (view : Int) (b : Block Term Term Nat) : PBFTMsg Term Term :=
  ownMsg (sealerConfig (idx + 1)) 0 b.header.number view idx (hashOf b)

/-- The same request with another signature of the same sealer over the block hash. -/
def resigned (idx : Nat) (salt : Nat) (m : PBFTMsg Term Term) : PBFTMsg Term Term :=
  { m with sig := Term.signWith (idx + 1) m.blockHash salt }

def fullForm (b : Block Term Term Nat) : EncodedBlock Term Term Nat where
  header := some b.header
  txsItem := .txs (some b.transactions)
  hash := some (hashOf b)
  sigList := some b.sigList

def firstBlockWith (sigList : SigListType Term) : Block Term Term Nat :=
  { blockOn genesis 7 [5] with sigList }

/-- The signature list entry of the sealer at `idx` for it. -/
def entryOf (idx : Nat) : Nat × Term :=
  (idx, symbolicCrypto.sign (idx + 1) (hashOf (blockOn genesis 7 [5])))

def sendBlock (b : Block Term Term Nat) (prepareWithEmptyBlock : Bool) : Input Term Term Nat :=
  .prepareReqPacket (requestFor 0 0 b) (fullForm b) prepareWithEmptyBlock

/-- The prepare packet for a block, and the requests of the first two sealers for it. -/
def fullRound (b : Block Term Term Nat) : List (Input Term Term Nat) :=
  [sendBlock b false, .signReqPacket (requestFor 0 0 b), .signReqPacket (requestFor 1 0 b),
    .commitReqPacket (requestFor 0 0 b), .commitReqPacket (requestFor 1 0 b)]

def quietly (is : List (Input Term Term Nat)) : List (Env Nat × Input Term Term Nat) :=
  is.map fun i => (quietEnv, i)

end PBFT

end HieraChain
