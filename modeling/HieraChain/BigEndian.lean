/-
  HieraChain/BigEndian.lean
  =========================
  **Big-endian byte strings** — the arithmetic under every length prefix and
  every integer field of the wire format.

  A byte string is a `List UInt8`.  `fromBigEndian` reads one as a number,
  `pushInt n k` writes the low `k` bytes of `n`, and `bytesRequired n` is the
  number of bytes of `n` without leading zeroes.  The module names nothing of
  the program: it is the part that any length-prefixed format needs.
-/
import Mathlib.Tactic.Ring
import Mathlib.Data.Nat.Basic

namespace HieraChain.BigEndian

abbrev Bytes := List UInt8

instance instLawfulBEqBytes : LawfulBEq Bytes := List.instLawfulBEq

theorem length_zeros (size : Nat) : (List.replicate size (0 : UInt8)).length = size := List.length_replicate

theorem length_zeros_20 : (List.replicate 20 (0 : UInt8)).length = 20 := length_zeros 20

theorem length_zeros_32 : (List.replicate 32 (0 : UInt8)).length = 32 := length_zeros 32

def fromBigEndian (b : Bytes) : Nat := b.foldl (fun r i => r * 256 + i.toNat) 0

/-- Steps of `n := n / 256` until `n` is zero, at most `fuel` of them. -/
def bytesRequiredLoop : Nat → Nat → Nat
  | 0, _ => 0
  | fuel + 1, n => if n = 0 then 0 else bytesRequiredLoop fuel (n / 256) + 1

/-- Bytes required to hold `n`; zero for zero. -/
def bytesRequired (n : Nat) : Nat := bytesRequiredLoop n n

/-- The low `k` bytes of `n`, most significant first. -/
def pushInt (n : Nat) : Nat → Bytes
  | 0 => []
  | k + 1 => pushInt (n / 256) k ++ [UInt8.ofNat n]

/-- The big-endian bytes of `n` without leading zeroes. -/
def bigEndian (n : Nat) : Bytes := pushInt n (bytesRequired n)

theorem bytesRequiredLoop_eq {fuel n : Nat} (h : n ≤ fuel) :
    bytesRequiredLoop fuel n = bytesRequired n := by
  induction n using Nat.strongRecOn generalizing fuel with
  | ind n ih =>
    by_cases hzero : n = 0
    · subst hzero
      cases fuel <;> rfl
    · obtain ⟨fuel, rfl⟩ := Nat.exists_eq_succ_of_ne_zero (show fuel ≠ 0 by omega)
      obtain ⟨k, rfl⟩ := Nat.exists_eq_succ_of_ne_zero hzero
      have hlt : k.succ / 256 < k.succ := Nat.div_lt_self (Nat.succ_pos k) (by omega)
      rw [bytesRequired, bytesRequiredLoop, bytesRequiredLoop, if_neg hzero, if_neg hzero,
        ih _ hlt (show k.succ / 256 ≤ fuel by omega), ih _ hlt (show k.succ / 256 ≤ k by omega)]

@[simp] theorem bytesRequired_zero : bytesRequired 0 = 0 := rfl

theorem bytesRequired_of_pos {n : Nat} (h : 0 < n) :
    bytesRequired n = bytesRequired (n / 256) + 1 := by
  obtain ⟨k, rfl⟩ := Nat.exists_eq_succ_of_ne_zero (Nat.pos_iff_ne_zero.mp h)
  have hlt : k.succ / 256 < k.succ := Nat.div_lt_self (Nat.succ_pos k) (by omega)
  rw [bytesRequired, bytesRequiredLoop, if_neg (Nat.succ_ne_zero k),
    bytesRequiredLoop_eq (show k.succ / 256 ≤ k by omega)]

theorem bytesRequired_pos {n : Nat} (h : 0 < n) : 0 < bytesRequired n := by
  rw [bytesRequired_of_pos h]
  exact Nat.succ_pos _

theorem bytesRequired_le_iff {n k : Nat} : bytesRequired n ≤ k ↔ n < 256 ^ k := by
  induction k generalizing n with
  | zero =>
    by_cases h : n = 0
    · simp [h]
    · have hpos := bytesRequired_pos (Nat.pos_of_ne_zero h)
      simp only [pow_zero]
      omega
  | succ k ih =>
    by_cases h : n = 0
    · simp [h]
    · rw [bytesRequired_of_pos (Nat.pos_of_ne_zero h), Nat.add_le_add_iff_right, ih, pow_succ]
      exact Nat.div_lt_iff_lt_mul (by omega)

@[simp] theorem length_pushInt (n k : Nat) : (pushInt n k).length = k := by
  induction k generalizing n with
  | zero => rfl
  | succ k ih => simp [pushInt, ih]

@[simp] theorem length_bigEndian (n : Nat) : (bigEndian n).length = bytesRequired n :=
  length_pushInt _ _

theorem fromBigEndian_append_singleton (b : Bytes) (i : UInt8) :
    fromBigEndian (b ++ [i]) = fromBigEndian b * 256 + i.toNat := by
  simp [fromBigEndian]

theorem fromBigEndian_pushInt (n k : Nat) : fromBigEndian (pushInt n k) = n % 256 ^ k := by
  induction k generalizing n with
  | zero => simp [pushInt, fromBigEndian, Nat.mod_one]
  | succ k ih =>
    have hbyte : (UInt8.ofNat n).toNat = n % 256 := by simp
    rw [pushInt, fromBigEndian_append_singleton, ih, hbyte, pow_succ, Nat.mul_comm (256 ^ k) 256,
      Nat.mod_mul]
    omega

theorem fromBigEndian_bigEndian (n : Nat) : fromBigEndian (bigEndian n) = n := by
  rw [bigEndian, fromBigEndian_pushInt]
  exact Nat.mod_eq_of_lt (bytesRequired_le_iff.mp (Nat.le_refl _))

@[simp] theorem bigEndian_zero : bigEndian 0 = [] := by
  simp [bigEndian, pushInt]

theorem bigEndian_of_lt {n : Nat} (hpos : 0 < n) (hlt : n < 256) :
    bigEndian n = [UInt8.ofNat n] := by
  have hdiv : n / 256 = 0 := Nat.div_eq_of_lt hlt
  simp [bigEndian, bytesRequired_of_pos hpos, hdiv, pushInt]

theorem bigEndian_of_pos {n : Nat} (h : 0 < n) :
    bigEndian n = bigEndian (n / 256) ++ [UInt8.ofNat n] := by
  rw [bigEndian, bytesRequired_of_pos h, pushInt]
  rfl

theorem bigEndian_eq_cons {n : Nat} (h : 0 < n) :
    ∃ d rest, bigEndian n = d :: rest ∧ d ≠ 0 := by
  induction n using Nat.strongRecOn with
  | ind n ih =>
    by_cases hsmall : n < 256
    · refine ⟨UInt8.ofNat n, [], bigEndian_of_lt h hsmall, ?_⟩
      intro hzero
      have hnat : (UInt8.ofNat n).toNat = 0 := by rw [hzero]; rfl
      have hbyte : (UInt8.ofNat n).toNat = n % 256 := by simp
      omega
    · obtain ⟨d, rest, heq, hd⟩ := ih (n / 256) (by omega) (by omega)
      exact ⟨d, rest ++ [UInt8.ofNat n], by rw [bigEndian_of_pos h, heq]; rfl, hd⟩

theorem bigEndian_injective : Function.Injective bigEndian := by
  intro m n h
  rw [← fromBigEndian_bigEndian m, h, fromBigEndian_bigEndian]

end HieraChain.BigEndian
