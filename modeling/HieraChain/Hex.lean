/-
  HieraChain/Hex.lean
  ===================
  **Hexadecimal texts** (`libdevcore/CommonData.h`, `CommonData.cpp`,
  `FixedHash.h`).

  `fromHex` skips a leading `0x` and takes both cases of a digit; `toHex` writes
  lower-case digits.  Bytes come back from their text (`fromHex_toHex`), and a
  text comes back from its bytes when it is of lower-case digits only
  (`toHex_fromHex`).  A `FixedHash` of a text with another number of bytes is
  zero, and the text `0x` + 126 digits has 63 bytes.
-/
import HieraChain.Table

namespace HieraChain.Hex

open HieraChain.BigEndian

/-! ### Digits -/

/-- `none` is the answer `-1`. -/
def fromHexChar (c : UInt8) : Option UInt8 :=
  if 48 ≤ c ∧ c ≤ 57 then some (c - 48)
  else if 97 ≤ c ∧ c ≤ 102 then some (c - 97 + 10)
  else if 65 ≤ c ∧ c ≤ 70 then some (c - 65 + 10)
  else none

def hexdigits (v : UInt8) : UInt8 := if v < 10 then 48 + v else 97 + (v - 10)

/-- A digit as `toHex` writes it. -/
def isLowerDigit (c : UInt8) : Bool := (48 ≤ c && c ≤ 57) || (97 ≤ c && c ≤ 102)

/-- `boost::to_lower` on one character. -/
def lowerChar (c : UInt8) : UInt8 := if 65 ≤ c ∧ c ≤ 90 then c + 32 else c

def to_lower (s : Bytes) : Bytes := s.map lowerChar

theorem forall_byte {P : UInt8 → Prop} (h : ∀ i < 256, P (UInt8.ofNat i)) (b : UInt8) : P b := by
  have hb := h b.toNat b.toNat_lt
  rwa [UInt8.ofNat_toNat] at hb

theorem byte_facts : ∀ b : UInt8,
    ((b < 16 → fromHexChar (hexdigits b) = some b ∧ isLowerDigit (hexdigits b) = true)
      ∧ (isLowerDigit b = true → ∃ i < 16,
        fromHexChar b = some (UInt8.ofNat i) ∧ UInt8.ofNat i < 16 ∧ hexdigits (UInt8.ofNat i) = b)
      ∧ ((fromHexChar b).isSome = true → isLowerDigit (lowerChar b) = true))
    ∧ (b >>> 4) &&& 15 < 16 ∧ b &&& 15 < 16 ∧ ((b >>> 4) &&& 15) * 16 + (b &&& 15) = b :=
  forall_byte (by decide +kernel)

theorem fromHexChar_hexdigits (v : UInt8) (h : v < 16) : fromHexChar (hexdigits v) = some v :=
  ((byte_facts v).1.1 h).1

theorem isLowerDigit_hexdigits (v : UInt8) (h : v < 16) : isLowerDigit (hexdigits v) = true :=
  ((byte_facts v).1.1 h).2

theorem hexdigits_fromHexChar (c : UInt8) (h : isLowerDigit c = true) :
    ∃ v, fromHexChar c = some v ∧ v < 16 ∧ hexdigits v = c := by
  obtain ⟨i, -, hi⟩ := (byte_facts c).1.2.1 h
  exact ⟨UInt8.ofNat i, hi⟩

theorem isLowerDigit_lowerChar (c : UInt8) (h : (fromHexChar c).isSome = true) :
    isLowerDigit (lowerChar c) = true :=
  (byte_facts c).1.2.2 h

/-! ### Texts -/

def fromHexPairs : Bytes → Option Bytes
  | h :: l :: text => do
    let high ← fromHexChar h
    let low ← fromHexChar l
    let bytes ← fromHexPairs text
    some ((high * 16 + low) :: bytes)
  | _ => some []

/-- The text after a leading `0x`. -/
def afterPrefix : Bytes → Bytes
  | a :: b :: text => if a = 48 ∧ b = 120 then text else a :: b :: text
  | text => text

/-- `none` is `BadHexCharacter`. -/
def fromHex (s : Bytes) : Option Bytes :=
  let text := afterPrefix s
  if s.length % 2 = 1 then do
    let first ← (text.head?).bind fromHexChar
    let bytes ← fromHexPairs text.tail
    some (first :: bytes)
  else fromHexPairs text

def toHex (bytes : Bytes) : Bytes :=
  bytes.flatMap fun b : UInt8 => [hexdigits ((b >>> 4) &&& 15), hexdigits (b &&& 15)]

/-- `FixedHash<n>(s)`: zero when the text has another number of bytes. -/
def fixedHash (n : Nat) (s : Bytes) : Option Bytes :=
  (fromHex s).map fun bytes => if bytes.length = n then bytes else List.replicate n 0

/-! ### Bytes and their text -/

theorem high_lt (b : UInt8) : (b >>> 4) &&& 15 < 16 := (byte_facts b).2.1

theorem low_lt (b : UInt8) : b &&& 15 < 16 := (byte_facts b).2.2.1

theorem join_halves (b : UInt8) : ((b >>> 4) &&& 15) * 16 + (b &&& 15) = b := (byte_facts b).2.2.2

theorem halves_join (v : UInt8 × UInt8) (hhigh : v.1 < 16) (hlow : v.2 < 16) :
    ((v.1 * 16 + v.2) >>> 4) &&& 15 = v.1 ∧ (v.1 * 16 + v.2) &&& 15 = v.2 := by
  obtain ⟨high, low⟩ := v
  have hall : ∀ i < 16, ∀ j < 16,
      ((UInt8.ofNat i * 16 + UInt8.ofNat j) >>> 4) &&& 15 = UInt8.ofNat i
        ∧ (UInt8.ofNat i * 16 + UInt8.ofNat j) &&& 15 = UInt8.ofNat j := by
    decide +kernel
  have h := hall high.toNat (by simpa [UInt8.lt_iff_toNat_lt] using hhigh)
    low.toNat (by simpa [UInt8.lt_iff_toNat_lt] using hlow)
  simpa using h

theorem toHex_cons (b : UInt8) (bytes : Bytes) :
    toHex (b :: bytes) = hexdigits ((b >>> 4) &&& 15) :: hexdigits (b &&& 15) :: toHex bytes := by
  simp [toHex]

theorem length_toHex (bytes : Bytes) : (toHex bytes).length = 2 * bytes.length := by
  induction bytes with
  | nil => rfl
  | cons b bytes ih =>
    rw [toHex_cons]
    simp only [List.length_cons, ih]
    omega

theorem all_toHex (bytes : Bytes) : (toHex bytes).all isLowerDigit = true := by
  induction bytes with
  | nil => rfl
  | cons b bytes ih =>
    simp [toHex_cons, isLowerDigit_hexdigits _ (high_lt b), isLowerDigit_hexdigits _ (low_lt b), ih]

theorem afterPrefix_of_digits {s : Bytes} (h : s.all isLowerDigit = true) : afterPrefix s = s := by
  match s, h with
  | [], _ => rfl
  | [_], _ => rfl
  | a :: b :: text, h =>
    have hb : isLowerDigit b = true := by simp at h; exact h.2.1
    have hne : b ≠ 120 := by
      rintro rfl
      exact absurd hb (by decide)
    simp [afterPrefix, hne]

theorem fromHex_of_even {s : Bytes} (h : s.all isLowerDigit = true) (heven : s.length % 2 = 0) :
    fromHex s = fromHexPairs s := by
  simp [fromHex, heven, afterPrefix_of_digits h]

theorem fromHexPairs_toHex (bytes : Bytes) : fromHexPairs (toHex bytes) = some bytes := by
  induction bytes with
  | nil => rfl
  | cons b bytes ih =>
    simp [toHex_cons, fromHexPairs, fromHexChar_hexdigits _ (high_lt b),
      fromHexChar_hexdigits _ (low_lt b), ih, join_halves]

/-- **Bytes come back from their text.** -/
theorem fromHex_toHex (bytes : Bytes) : fromHex (toHex bytes) = some bytes := by
  rw [fromHex_of_even (all_toHex bytes) (by rw [length_toHex]; omega)]
  exact fromHexPairs_toHex bytes

theorem toHex_fromHexPairs : ∀ s : Bytes, s.all isLowerDigit = true → s.length % 2 = 0 →
    ∃ bytes, fromHexPairs s = some bytes ∧ toHex bytes = s
  | [], _, _ => ⟨[], rfl, rfl⟩
  | [_], _, heven => by simp at heven
  | h :: l :: text, hall, heven => by
    simp only [List.all_cons, Bool.and_eq_true] at hall
    obtain ⟨high, hfrom, hhigh, hh⟩ := hexdigits_fromHexChar h hall.1
    obtain ⟨low, lfrom, hlow, hl⟩ := hexdigits_fromHexChar l hall.2.1
    obtain ⟨bytes, hbytes, hback⟩ := toHex_fromHexPairs text hall.2.2 (by
      simp only [List.length_cons] at heven
      omega)
    refine ⟨(high * 16 + low) :: bytes, by simp [fromHexPairs, hfrom, lfrom, hbytes], ?_⟩
    have hjoin := halves_join (high, low) hhigh hlow
    rw [toHex_cons, hjoin.1, hjoin.2, hh, hl, hback]

/-- **A text of lower-case digits comes back from its bytes.** -/
theorem toHex_fromHex {s : Bytes} (h : s.all isLowerDigit = true) (heven : s.length % 2 = 0) :
    ∃ bytes, fromHex s = some bytes ∧ toHex bytes = s := by
  rw [fromHex_of_even h heven]
  exact toHex_fromHexPairs s h heven

theorem toHex_injective {a b : Bytes} (h : toHex a = toHex b) : a = b := by
  have := congrArg fromHex h
  simpa [fromHex_toHex] using this

theorem fixedHash_toHex {n : Nat} {bytes : Bytes} (h : bytes.length = n) :
    fixedHash n (toHex bytes) = some bytes := by
  simp [fixedHash, fromHex_toHex, h]

@[simp] theorem length_to_lower (s : Bytes) : (to_lower s).length = s.length := by
  simp [to_lower]

theorem all_to_lower {s : Bytes} (h : s.all (fun c => (fromHexChar c).isSome) = true) :
    (to_lower s).all isLowerDigit = true := by
  rw [List.all_eq_true] at h ⊢
  intro c hc
  obtain ⟨d, hd, rfl⟩ := List.mem_map.mp hc
  exact isLowerDigit_lowerChar d (h d hd)

end HieraChain.Hex
