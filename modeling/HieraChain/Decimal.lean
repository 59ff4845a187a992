/-
  HieraChain/Decimal.lean
  =======================
  **Numbers as decimal texts**, as the standard library writes them.
-/
import HieraChain.BigEndian
import Mathlib.Data.FinEnum
import Mathlib.Data.Nat.Digits.Defs

namespace HieraChain.Decimal

open HieraChain.BigEndian

def decimal (n : Nat) : Bytes := if n = 0 then [48] else ((Nat.digits 10 n).map fun d => UInt8.ofNat (48 + d)).reverse

def ofDecimal (text : Bytes) : Option Nat :=
  if text ≠ [] ∧ ∀ b ∈ text, 48 ≤ b ∧ b ≤ 57 then some (Nat.ofDigits 10 (text.reverse.map fun b => b.toNat - 48))
  else none

theorem toNat_digit {d : Nat} (h : d < 10) : (UInt8.ofNat (48 + d)).toNat = 48 + d := by
  rw [UInt8.toNat_ofNat', Nat.mod_eq_of_lt (by omega)]

theorem decimal_of_pos {n : Nat} (h : 0 < n) :
    decimal n = ((Nat.digits 10 n).map fun d => UInt8.ofNat (48 + d)).reverse := if_neg h.ne'

theorem decimal_ne_nil (n : Nat) : decimal n ≠ [] := by
  rcases Nat.eq_zero_or_pos n with rfl | hpos
  · decide
  · rw [decimal_of_pos hpos]
    simp [Nat.digits_ne_nil_iff_ne_zero, hpos.ne']

theorem digit_of_mem {n : Nat} {b : UInt8} (h : b ∈ decimal n) : 48 ≤ b ∧ b ≤ 57 := by
  rcases Nat.eq_zero_or_pos n with rfl | hpos
  · obtain rfl : b = 48 := by simpa [decimal] using h
    decide
  · rw [decimal_of_pos hpos, List.mem_reverse, List.mem_map] at h
    obtain ⟨d, hd, rfl⟩ := h
    have hlt := Nat.digits_lt_base (by decide) hd
    rw [UInt8.le_iff_toNat_le, UInt8.le_iff_toNat_le, toNat_digit hlt]
    exact ⟨Nat.le_add_right _ _, by show 48 + d ≤ 57; omega⟩

theorem ofDecimal_decimal (n : Nat) : ofDecimal (decimal n) = some n := by
  rcases Nat.eq_zero_or_pos n with rfl | hpos
  · decide +kernel
  have hback : (Nat.digits 10 n).map ((fun b : UInt8 => b.toNat - 48) ∘ fun d => UInt8.ofNat (48 + d))
      = Nat.digits 10 n := by
    refine (List.map_congr_left fun d hd => ?_).trans (List.map_id _)
    rw [Function.comp_apply, toNat_digit (Nat.digits_lt_base (by decide) hd), Nat.add_sub_cancel_left, id]
  rw [ofDecimal, if_pos ⟨decimal_ne_nil n, fun b => digit_of_mem⟩, decimal_of_pos hpos, List.reverse_reverse,
    List.map_map, hback, Nat.ofDigits_digits]

theorem decimal_injective : Function.Injective decimal := by
  intro m n heq
  have hm := ofDecimal_decimal m
  rw [heq, ofDecimal_decimal] at hm
  exact (Option.some.inj hm).symm

theorem exists_digits (n : Nat) : ∃ ds : List Nat, ds ≠ [] ∧ (∀ d ∈ ds, d < 10)
    ∧ decimal n = (ds.map fun d => UInt8.ofNat (48 + d)) ∧ ds.foldl (fun v d => 10 * v + d) 0 = n := by
  rcases Nat.eq_zero_or_pos n with rfl | hpos
  · exact ⟨[0], List.cons_ne_nil _ _, by decide, rfl, rfl⟩
  · refine ⟨(Nat.digits 10 n).reverse, ?_, fun d hd => ?_, ?_, ?_⟩
    · simp [Nat.digits_ne_nil_iff_ne_zero, hpos.ne']
    · exact Nat.digits_lt_base (by decide) (List.mem_reverse.mp hd)
    · rw [decimal_of_pos hpos, List.map_reverse]
    · have hfold := Nat.ofDigits_digits 10 n
      rw [Nat.ofDigits_eq_foldr] at hfold
      rw [List.foldl_reverse]
      refine Eq.trans ?_ hfold
      congr 1
      funext d v
      exact Nat.add_comm _ _

def signedDecimal (v : Int) : Bytes := if v < 0 then 45 :: decimal v.natAbs else decimal v.natAbs

theorem signedDecimal_injective : Function.Injective signedDecimal := by
  have hsign : ∀ m n, 45 :: decimal m ≠ decimal n := by
    intro m n heq
    have hdigit := digit_of_mem (heq ▸ List.mem_cons_self : (45 : UInt8) ∈ decimal n)
    exact absurd hdigit.1 (by decide)
  intro v w heq
  unfold signedDecimal at heq
  split at heq <;> split at heq
  · have habs := decimal_injective (List.tail_eq_of_cons_eq heq)
    omega
  · exact absurd heq (hsign _ _)
  · exact absurd heq.symm (hsign _ _)
  · have habs := decimal_injective heq
    omega

end HieraChain.Decimal
