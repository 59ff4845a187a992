/-
  HieraChain/PBFTCheckBlock.lean
  ==============================
  **Which quorum a synced block proves** (`PBFTEngine::checkBlock`).

  `checkBlock` counts the entries of the signature list and checks each of them
  under the sealer at its narrowed index.  Nothing compares two indices, so an
  accepted block is signed by a quorum exactly when the narrowed indices name
  that many different sealers (`checkBlock_quorum_iff`).
-/
import HieraChain.SymbolicCrypto
import Mathlib.Data.List.Dedup

namespace HieraChain.PBFT

section CheckBlock

variable {H S T : Type}

def signers (c : Crypto H S T) (b : Block H S T) : List NodeID :=
  (b.header.sealerList.filter fun id =>
    b.sigList.any fun sign => c.verify id sign.2 (c.headerHash b.header)).dedup

/-- `n - (n - 1) / 3` -/
def quorum (n : Nat) : Nat := n - (n - 1) / 3

def SignedByQuorum (c : Crypto H S T) (b : Block H S T) : Prop :=
  quorum b.header.sealerList.length ≤ (signers c b).length

def namedSealers (b : Block H S T) : List NodeID :=
  (b.sigList.filterMap fun sign => b.header.sealerList[sign.1 % 65536]?).dedup

def NamesQuorum (b : Block H S T) : Prop :=
  quorum b.header.sealerList.length ≤ (namedSealers b).length

theorem mem_signers {c : Crypto H S T} {b : Block H S T} {id : NodeID} :
    id ∈ signers c b ↔ id ∈ b.header.sealerList ∧
      ∃ sign ∈ b.sigList, c.verify id sign.2 (c.headerHash b.header) = true := by
  simp only [signers, List.mem_dedup, List.mem_filter, List.any_eq_true]

theorem mem_namedSealers {b : Block H S T} {id : NodeID} :
    id ∈ namedSealers b ↔
      ∃ sign ∈ b.sigList, b.header.sealerList[sign.1 % 65536]? = some id := by
  simp only [namedSealers, List.mem_dedup, List.mem_filterMap]

theorem Node.getElem?_of_getNodeIDByIndex {s : Node H S T} {idx : Nat} {id : NodeID}
    (h : s.getNodeIDByIndex idx = some id) : s.sealerList[idx]? = some id := by
  unfold Node.getNodeIDByIndex at h
  split_ifs at h
  exact h

theorem Node.verify_of_checkSigList {c : Config H S T} {s : Node H S T} {b : Block H S T}
    (h : s.checkSigList c b = true) {sign : Nat × S} (hsign : sign ∈ b.sigList) :
    ∃ id, s.sealerList[sign.1 % 65536]? = some id ∧
      c.crypto.verify id sign.2 (c.crypto.headerHash b.header) = true := by
  rw [Node.checkSigList, Bool.and_eq_true, List.all_eq_true] at h
  have hentry := h.2 sign hsign
  rw [Node.checkBlockSign] at hentry
  cases hid : s.getNodeIDByIndex (sign.1 % 65536) with
  | none =>
    rw [hid] at hentry
    cases hentry
  | some id =>
    rw [hid] at hentry
    exact ⟨id, Node.getElem?_of_getNodeIDByIndex hid, hentry⟩

theorem signers_perm_namedSealers {c : Config H S T} {s : Node H S T} {b : Block H S T}
    (hunique : ∀ id id' sig hash, c.crypto.verify id sig hash = true →
      c.crypto.verify id' sig hash = true → id = id')
    (hsealers : s.sealerList = b.header.sealerList) (hlist : s.checkSigList c b = true) :
    (signers c.crypto b).Perm (namedSealers b) := by
  apply (List.perm_ext_iff_of_nodup (List.nodup_dedup _) (List.nodup_dedup _)).mpr
  intro id
  change id ∈ signers c.crypto b ↔ id ∈ namedSealers b
  rw [mem_signers, mem_namedSealers]
  constructor
  · rintro ⟨-, sign, hsign, hverify⟩
    obtain ⟨id', hid', hverify'⟩ := Node.verify_of_checkSigList hlist hsign
    rw [hunique id id' sign.2 _ hverify hverify', ← hsealers]
    exact ⟨sign, hsign, hid'⟩
  · rintro ⟨sign, hsign, hid⟩
    obtain ⟨id', hid', hverify'⟩ := Node.verify_of_checkSigList hlist hsign
    rw [hsealers, hid] at hid'
    cases hid'
    exact ⟨List.mem_of_getElem? hid, sign, hsign, hverify'⟩

theorem Node.checked_of_checkBlock {c : Config H S T} {e : Env T} {s : Node H S T}
    {b : Block H S T} (hnumber : 0 < b.header.number) (h : (s.checkBlock c e b).2 = true) :
    (s.resetConfig e).sealerList = b.header.sealerList ∧
      (s.resetConfig e).checkSigList c b = true := by
  unfold Node.checkBlock at h
  split_ifs at h
  unfold Node.checkBlockConfigured at h
  dsimp only at h
  rw [if_neg (ne_of_gt hnumber)] at h
  simp only [Bool.and_eq_true, decide_eq_true_eq] at h
  exact ⟨h.1.1.1, h.1.2⟩

/-- **A block that `checkBlock` accepts is signed by a quorum exactly when the
    narrowed indices of its signature list name one.** -/
theorem checkBlock_quorum_iff (c : Config H S T) (e : Env T) (s : Node H S T) (b : Block H S T)
    (hunique : ∀ id id' sig hash, c.crypto.verify id sig hash = true →
      c.crypto.verify id' sig hash = true → id = id')
    (hnumber : 0 < b.header.number) (hcheck : (s.checkBlock c e b).2 = true) :
    SignedByQuorum c.crypto b ↔ NamesQuorum b := by
  obtain ⟨hsealers, hlist⟩ := Node.checked_of_checkBlock hnumber hcheck
  unfold SignedByQuorum NamesQuorum
  rw [(signers_perm_namedSealers hunique hsealers hlist).length_eq]

end CheckBlock

theorem checkBlock_quorum_iff_of_three :
    SignedByQuorum symbolicCrypto (firstBlockWith [entryOf 0, entryOf 1, entryOf 2]) ↔
      NamesQuorum (firstBlockWith [entryOf 0, entryOf 1, entryOf 2]) :=
  checkBlock_quorum_iff (sealerConfig 4) quietEnv startNode _
    (fun _ _ _ _ h h' => symbolicCrypto_verify_unique h h') (by decide) (by decide +kernel)

/-- One sealer of four, three times in the list. -/
theorem checkBlock_accepts_one_signer :
    let b := firstBlockWith [entryOf 0, entryOf 0, entryOf 0]
    0 < b.header.number ∧ (startNode.checkBlock (sealerConfig 4) quietEnv b).2 = true ∧
      signers symbolicCrypto b = [1] ∧ ¬SignedByQuorum symbolicCrypto b := by
  have hsigners : signers symbolicCrypto (firstBlockWith [entryOf 0, entryOf 0, entryOf 0]) = [1] := by
    decide +kernel
  refine ⟨by decide, by decide +kernel, hsigners, ?_⟩
  unfold SignedByQuorum
  rw [hsigners]
  decide

end HieraChain.PBFT
