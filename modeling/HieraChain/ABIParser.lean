/-
  HieraChain/ABIParser.lean
  =========================
  **The parser of function signatures** (`libethcore/ABIParser.h`,
  `ABIParser.cpp`).

  A position that `find` does not find is the length of the text here, so a
  `substr` up to it takes the whole text.  The loop of `reset` holds what
  follows its position in place of the position.  `reset` clears its object
  first, so it is a function of the text alone, and `none` is its `false`.

    * what one turn of the loop reads    (`groupsLoop_cons`, `groupsLoop_cut`);
    * the texts that `reset` accepts     (`reset_iff`);
    * the texts that `parser` accepts    (`parser_iff`).
-/
import Mathlib.Data.List.Basic
import HieraChain.Decimal
import HieraChain.SpacedText
import HieraChain.Table

namespace HieraChain.ABIParser

open HieraChain.BigEndian HieraChain.Decimal HieraChain.SpacedText HieraChain.Storage

/-! ### Types -/

inductive ABI_ELEMENTARY_TYPE
  | INVALID | BOOL | INT | UINT | BYTESN | ADDR | BYTES | STRING | FIXED | UNFIXED
deriving DecidableEq

def strBool : Bytes := ascii ['b', 'o', 'o', 'l']
def strBytes : Bytes := ascii ['b', 'y', 't', 'e', 's']
def strString : Bytes := ascii ['s', 't', 'r', 'i', 'n', 'g']
def strAddr : Bytes := ascii ['a', 'd', 'd', 'r', 'e', 's', 's']
def strUint : Bytes := ascii ['u', 'i', 'n', 't']
def strInt : Bytes := ascii ['i', 'n', 't']

/-- A name with each of the widths `unit, 2 unit, …, 32 unit`. -/
def widths (name : Bytes) (unit : Nat) : List Bytes := (List.range 32).map fun i => name ++ decimal (unit * (i + 1))

def setUint : List Bytes := strUint :: widths strUint 8
def setInt : List Bytes := strInt :: widths strInt 8
def setByteN : List Bytes := widths strBytes 1

def getEnumType (strType : Bytes) : ABI_ELEMENTARY_TYPE :=
  if strType = strBool then .BOOL
  else if strType = strAddr then .ADDR
  else if strType = strString then .STRING
  else if strType = strBytes then .BYTES
  else if strType ∈ setUint then .UINT
  else if strType ∈ setInt then .INT
  else if strType ∈ setByteN then .BYTESN
  else .INVALID

structure ABIInType where
  aet : ABI_ELEMENTARY_TYPE := .INVALID
  strEleType : Bytes := []
  strType : Bytes := []
  extents : List Nat := []

def ABIInType.rank (type : ABIInType) : Nat := type.extents.length

def ABIInType.extent (type : ABIInType) (index : Nat) : Nat :=
  if type.rank < index then 0 else type.extents.getD (index - 1) 0

def ABIInType.getType (type : ABIInType) : Bytes := type.strType

def ABIInType.dynamic (type : ABIInType) : Bool :=
  type.aet = .STRING || type.aet = .BYTES || (List.range type.rank).any fun i => type.extent (i + 1) = 0

def isBlank (b : UInt8) : Bool := b = 32

def isDigit (b : UInt8) : Bool := 48 ≤ b && b ≤ 57

/-- The number of a text of digits, or `ULONG_MAX` where it is larger. -/
def strtoul (digit : Bytes) : Nat := min ((ofDecimal digit).getD 0) (2 ^ 64 - 1)

def extentOf (digit : Bytes) : Nat := if digit = [] then 0 else strtoul digit

/-- The loop of `reset` over what follows `leftBracket`. -/
def groupsLoop : Nat → Bytes → List Nat → Option (List Nat)
  | _, [], r => some r
  | 0, _ :: _, _ => none
  | fuel + 1, x :: xs, r =>
    let rest := x :: xs
    let leftBracket := rest.idxOf 91
    let rigthBracket := rest.idxOf 93
    if leftBracket = rest.length ∨ rigthBracket = rest.length ∨ rigthBracket ≤ leftBracket then none
    else
      let digit := trim isBlank ((rest.drop (leftBracket + 1)).take (rigthBracket - leftBracket - 1))
      if digit.all isDigit then groupsLoop fuel (rest.drop (rigthBracket + 1)) (r ++ [extentOf digit]) else none

def reset (s : Bytes) : Option ABIInType :=
  let strType := trim isBlank s
  let firstLeftBracket := strType.idxOf 91
  let strEleType := trim isBlank (strType.take firstLeftBracket)
  let t := getEnumType strEleType
  if t = .INVALID then none
  else
    (groupsLoop strType.length (strType.drop firstLeftBracket) []).map fun r =>
      { aet := t, strEleType := strEleType, strType := strType, extents := r }

/-! ### Functions -/

structure ABIFunc where
  strFuncName : Bytes := []
  strFuncSignature : Bytes := []
  allParamsType : List ABIInType := []

def ABIFunc.getParamsType (f : ABIFunc) : List Bytes := f.allParamsType.map ABIInType.getType
def ABIFunc.getSignature (f : ABIFunc) : Bytes := f.strFuncSignature
def ABIFunc.getFuncName (f : ABIFunc) : Bytes := f.strFuncName

/-- The loop of `parser` over the texts between the commas. -/
def typesLoop (f : ABIFunc) (sig : Bytes) : List Bytes → Bool × Bytes × ABIFunc
  | [] => (true, sig, f)
  | type :: types =>
    let type := trim isBlank type
    if type = [] then typesLoop f sig types
    else
      let sig := sig ++ type ++ [44]
      match reset type with
      | none => (false, sig, f)
      | some inType => typesLoop { f with allParamsType := f.allParamsType ++ [inType] } sig types

def closeList (sig : Bytes) : Bytes := if sig.getLast? = some 44 then sig.dropLast ++ [41] else sig ++ [41]

def ABIFunc.parser (f : ABIFunc) (sig : Bytes) : Bool × ABIFunc :=
  let i0 := sig.idxOf 40
  let i1 := sig.idxOf 41
  if i0 = sig.length ∨ i1 = sig.length ∨ i1 ≤ i0 then (false, f)
  else
    let strFuncName := trim isBlank (sig.take i0)
    let strTypes := (sig.drop (i0 + 1)).take (i1 - i0 - 1)
    match typesLoop f (strFuncName ++ [40]) (strTypes.splitOn 44) with
    | (false, _, f) => (false, f)
    | (true, sig, f) => (true, { f with strFuncName := strFuncName, strFuncSignature := closeList sig })

/-! ### Elementary types -/

/-- The elementary types of Solidity, without the unsupported fixed point numbers. -/
def Elementary (e : Bytes) : Prop :=
  e ∈ [strBool, strAddr, strString, strBytes, strUint, strInt] ∨ ∃ n, 1 ≤ n ∧ n ≤ 32 ∧
    (e = strUint ++ decimal (8 * n) ∨ e = strInt ++ decimal (8 * n) ∨ e = strBytes ++ decimal n)

theorem mem_widths {e name : Bytes} {unit : Nat} :
    e ∈ widths name unit ↔ ∃ n, 1 ≤ n ∧ n ≤ 32 ∧ e = name ++ decimal (unit * n) := by
  rw [widths, List.mem_map]
  constructor
  · rintro ⟨i, hi, rfl⟩
    exact ⟨i + 1, Nat.le_add_left _ _, List.mem_range.mp hi, rfl⟩
  · rintro ⟨n, hpos, hle, rfl⟩
    refine ⟨n - 1, List.mem_range.mpr (by omega), ?_⟩
    rw [Nat.sub_add_cancel hpos]

theorem getEnumType_ne_invalid_iff {e : Bytes} : getEnumType e ≠ .INVALID ↔ Elementary e := by
  have hsets : getEnumType e ≠ .INVALID ↔ e = strBool ∨ e = strAddr ∨ e = strString ∨ e = strBytes ∨
      e ∈ setUint ∨ e ∈ setInt ∨ e ∈ setByteN := by
    unfold getEnumType
    repeat' split
    all_goals simp_all
  rw [hsets, setUint, setInt, setByteN, List.mem_cons, List.mem_cons, mem_widths, mem_widths, mem_widths, Elementary]
  simp only [List.mem_cons, List.not_mem_nil, or_false, Nat.one_mul]
  constructor
  · rintro (h | h | h | h | (h | ⟨n, h₁, h₂, h⟩) | (h | ⟨n, h₁, h₂, h⟩) | ⟨n, h₁, h₂, h⟩)
    · exact .inl (.inl h)
    · exact .inl (.inr (.inl h))
    · exact .inl (.inr (.inr (.inl h)))
    · exact .inl (.inr (.inr (.inr (.inl h))))
    · exact .inl (.inr (.inr (.inr (.inr (.inl h)))))
    · exact .inr ⟨n, h₁, h₂, .inl h⟩
    · exact .inl (.inr (.inr (.inr (.inr (.inr h)))))
    · exact .inr ⟨n, h₁, h₂, .inr (.inl h)⟩
    · exact .inr ⟨n, h₁, h₂, .inr (.inr h)⟩
  · rintro ((h | h | h | h | h | h) | ⟨n, h₁, h₂, h | h | h⟩)
    · exact .inl h
    · exact .inr (.inl h)
    · exact .inr (.inr (.inl h))
    · exact .inr (.inr (.inr (.inl h)))
    · exact .inr (.inr (.inr (.inr (.inl (.inl h)))))
    · exact .inr (.inr (.inr (.inr (.inr (.inl (.inl h))))))
    · exact .inr (.inr (.inr (.inr (.inl (.inr ⟨n, h₁, h₂, h⟩)))))
    · exact .inr (.inr (.inr (.inr (.inr (.inl (.inr ⟨n, h₁, h₂, h⟩))))))
    · exact .inr (.inr (.inr (.inr (.inr (.inr ⟨n, h₁, h₂, h⟩)))))

theorem getEnumType_eq_string_iff {e : Bytes} : getEnumType e = .STRING ↔ e = strString := by
  constructor
  · intro h
    unfold getEnumType at h
    repeat' split at h
    all_goals first | assumption | cases h
  · rintro rfl
    rfl

theorem getEnumType_eq_bytes_iff {e : Bytes} : getEnumType e = .BYTES ↔ e = strBytes := by
  constructor
  · intro h
    unfold getEnumType at h
    repeat' split at h
    all_goals first | assumption | cases h
  · rintro rfl
    rfl

def isPlain (b : UInt8) : Bool := isDigit b || (97 ≤ b && b ≤ 122)

theorem isDigit_of_mem_decimal {n : Nat} {b : UInt8} (h : b ∈ decimal n) : isDigit b = true := by
  simpa [isDigit] using digit_of_mem h

theorem isPlain_of_elementary {e : Bytes} (h : Elementary e) : ∀ b ∈ e, isPlain b = true := by
  have hnames : ∀ name ∈ [strBool, strAddr, strString, strBytes, strUint, strInt], ∀ b ∈ name, isPlain b = true := by
    decide +kernel
  have hwidth : ∀ name ∈ [strBool, strAddr, strString, strBytes, strUint, strInt], ∀ n,
      ∀ b ∈ name ++ decimal n, isPlain b = true := by
    intro name hname n b hb
    rcases List.mem_append.mp hb with hb | hb
    · exact hnames name hname b hb
    · rw [isPlain, isDigit_of_mem_decimal hb, Bool.true_or]
  rcases h with h | ⟨n, -, -, rfl | rfl | rfl⟩
  · exact hnames e h
  · exact hwidth strUint (by simp) _
  · exact hwidth strInt (by simp) _
  · exact hwidth strBytes (by simp) _

/-! ### The loop over the groups -/

/-- Groups one after the other: what stands before the bracket, and what stands between the brackets. -/
def groupsText (gs : List (Bytes × Bytes)) : Bytes := gs.flatMap fun g => g.1 ++ 91 :: (g.2 ++ [93])

def Digits (digit : Bytes) : Prop := ∀ b ∈ digit, isDigit b = true

def Closed (g : Bytes × Bytes) : Prop := 91 ∉ g.1 ∧ 93 ∉ g.1 ∧ Digits (trim isBlank g.2)

theorem groupsText_cons (g : Bytes × Bytes) (gs : List (Bytes × Bytes)) :
    groupsText (g :: gs) = g.1 ++ 91 :: (g.2 ++ 93 :: groupsText gs) := by
  simp [groupsText]

theorem blank_or_mem_trim {s : Bytes} {b : UInt8} (h : b ∈ s) : isBlank b = true ∨ b ∈ trim isBlank s := by
  rcases (spread_singleton_of_trim s).mem h with hblank | ⟨t, ht, hmem⟩
  · exact .inl hblank
  · rw [List.mem_singleton.mp ht] at hmem
    exact .inr hmem

theorem Closed.notMem {g : Bytes × Bytes} (h : Closed g) : 93 ∉ g.2 := by
  intro hmem
  rcases blank_or_mem_trim hmem with hblank | hdigit
  · exact absurd hblank (by decide)
  · exact absurd (h.2.2 _ hdigit) (by decide)

theorem idxOf_append_cons {c : UInt8} {a : Bytes} (h : c ∉ a) (b : Bytes) : (a ++ c :: b).idxOf c = a.length := by
  rw [List.idxOf_append_of_notMem h, List.idxOf_cons_self, Nat.add_zero]

theorem exists_cut {c : UInt8} {s : Bytes} (h : s.idxOf c ≠ s.length) :
    ∃ a b, s = a ++ c :: b ∧ c ∉ a ∧ s.idxOf c = a.length := by
  have hmem : c ∈ s := by
    by_contra hno
    exact h (List.idxOf_eq_length hno)
  obtain ⟨a, b, rfl, hno⟩ := List.eq_append_cons_of_mem hmem
  exact ⟨a, b, rfl, hno, idxOf_append_cons hno b⟩

theorem exists_cut_two {c d : UInt8} {s : Bytes} (hc : s.idxOf c ≠ s.length) (hd : s.idxOf d ≠ s.length)
    (hlt : s.idxOf c < s.idxOf d) :
    ∃ a m b, s = a ++ c :: (m ++ d :: b) ∧ c ∉ a ∧ d ∉ a ∧ d ∉ m := by
  obtain ⟨a, b, hs, hno, hidx⟩ := exists_cut hc
  obtain ⟨a', b', hs', hno', hidx'⟩ := exists_cut hd
  rw [hidx, hidx'] at hlt
  rcases List.append_eq_append_iff.mp (hs.symm.trans hs') with ⟨x, rfl, hx⟩ | ⟨x, rfl, hx⟩
  · cases x with
    | nil =>
      rw [List.append_nil] at hlt
      exact absurd hlt (Nat.lt_irrefl _)
    | cons y x =>
      rw [List.cons_append] at hx
      obtain ⟨rfl, rfl⟩ := List.cons.inj hx
      refine ⟨a, x, b', hs, hno, ?_, ?_⟩
      · exact fun hmem => hno' (List.mem_append_left _ hmem)
      · exact fun hmem => hno' (List.mem_append_right _ (List.mem_cons_of_mem _ hmem))
  · rw [List.length_append] at hlt
    omega

theorem cut_two {c d : UInt8} {a m : Bytes} (b : Bytes) (hcd : c ≠ d) (hc : c ∉ a) (hda : d ∉ a) (hdm : d ∉ m) :
    let s := a ++ c :: (m ++ d :: b)
    s.idxOf c = a.length ∧ s.idxOf d = a.length + 1 + m.length ∧ s.length = a.length + 1 + m.length + 1 + b.length := by
  refine ⟨idxOf_append_cons hc _, ?_, ?_⟩
  · have hno : d ∉ a ++ c :: m := by
      intro hmem
      rcases List.mem_append.mp hmem with hmem | hmem
      · exact hda hmem
      · rcases List.mem_cons.mp hmem with rfl | hmem
        · exact hcd rfl
        · exact hdm hmem
    have hidx := idxOf_append_cons hno b
    rw [List.append_assoc, List.cons_append] at hidx
    rw [hidx, List.length_append, List.length_cons]
    omega
  · simp only [List.length_append, List.length_cons]
    omega

theorem take_drop_cut (a m b : Bytes) (c d : UInt8) :
    let s := a ++ c :: (m ++ d :: b)
    s.take a.length = a ∧ (s.drop (a.length + 1)).take (a.length + 1 + m.length - a.length - 1) = m
      ∧ s.drop (a.length + 1 + m.length + 1) = b := by
  have hdrop : (a ++ c :: (m ++ d :: b)).drop (a.length + 1) = m ++ d :: b := by
    rw [List.drop_append, List.drop_of_length_le (Nat.le_succ _), Nat.add_sub_cancel_left]
    rfl
  have hlen : a.length + 1 + m.length - a.length - 1 = m.length := by omega
  refine ⟨List.take_left, ?_, ?_⟩
  · rw [hdrop, hlen, List.take_left]
  · rw [show a.length + 1 + m.length + 1 = (a.length + 1) + (m.length + 1) by omega, ← List.drop_drop, hdrop,
      List.drop_append, List.drop_of_length_le (Nat.le_succ _), Nat.add_sub_cancel_left]
    rfl

theorem groupsLoop_succ {rest : Bytes} (h : rest ≠ []) (fuel : Nat) (r : List Nat) :
    groupsLoop (fuel + 1) rest r =
      if rest.idxOf 91 = rest.length ∨ rest.idxOf 93 = rest.length ∨ rest.idxOf 93 ≤ rest.idxOf 91 then none
      else
        let digit := trim isBlank ((rest.drop (rest.idxOf 91 + 1)).take (rest.idxOf 93 - rest.idxOf 91 - 1))
        if digit.all isDigit then groupsLoop fuel (rest.drop (rest.idxOf 93 + 1)) (r ++ [extentOf digit])
        else none := by
  cases rest with
  | nil => exact absurd rfl h
  | cons x xs => rfl

theorem groupsLoop_cons {g : Bytes × Bytes} (hg : Closed g) (fuel : Nat) (rest : Bytes) (r : List Nat) :
    groupsLoop (fuel + 1) (g.1 ++ 91 :: (g.2 ++ 93 :: rest)) r
      = groupsLoop fuel rest (r ++ [extentOf (trim isBlank g.2)]) := by
  obtain ⟨hleft, hright, hlen⟩ := cut_two rest (by decide) hg.1 hg.2.1 hg.notMem
  obtain ⟨-, hdigit, hrest⟩ := take_drop_cut g.1 g.2 rest 91 93
  rw [groupsLoop_succ (by simp), hleft, hright, hdigit, hrest, if_neg (by omega)]
  exact if_pos (List.all_eq_true.mpr hg.2.2)

theorem groupsLoop_cut {fuel : Nat} {rest : Bytes} {r r' : List Nat} (hne : rest ≠ [])
    (h : groupsLoop (fuel + 1) rest r = some r') :
    ∃ g rest', rest = g.1 ++ 91 :: (g.2 ++ 93 :: rest') ∧ Closed g := by
  rw [groupsLoop_succ hne] at h
  split at h
  next => cases h
  next hfound =>
    rw [not_or, not_or, Nat.not_le] at hfound
    obtain ⟨a, m, b, rfl, hleft, hright, hinner⟩ := exists_cut_two hfound.1 hfound.2.1 hfound.2.2
    obtain ⟨hidx, hidx', -⟩ := cut_two b (by decide : (91 : UInt8) ≠ 93) hleft hright hinner
    obtain ⟨-, hdigit, -⟩ := take_drop_cut a m b 91 93
    simp only [hidx, hidx', hdigit] at h
    split at h
    next hdigits => exact ⟨(a, m), b, rfl, hleft, hright, List.all_eq_true.mp hdigits⟩
    next => cases h

theorem groupsLoop_iff {fuel : Nat} {rest : Bytes} {r r' : List Nat} (hfuel : rest.length ≤ fuel) :
    groupsLoop fuel rest r = some r' ↔ ∃ gs, rest = groupsText gs ∧ (∀ g ∈ gs, Closed g)
      ∧ r' = r ++ gs.map fun g => extentOf (trim isBlank g.2) := by
  have hnil : ∀ fuel r r', groupsLoop fuel [] r = some r' ↔ ∃ gs, [] = groupsText gs ∧ (∀ g ∈ gs, Closed g)
      ∧ r' = r ++ gs.map fun g => extentOf (trim isBlank g.2) := by
    intro fuel r r'
    have hloop : groupsLoop fuel [] r = some r := by cases fuel <;> rfl
    rw [hloop]
    constructor
    · intro h
      refine ⟨[], rfl, fun g hg => absurd hg List.not_mem_nil, ?_⟩
      rw [List.map_nil, List.append_nil]
      exact (Option.some.inj h).symm
    · rintro ⟨gs, htext, -, rfl⟩
      cases gs with
      | nil => rw [List.map_nil, List.append_nil]
      | cons g gs =>
        rw [groupsText_cons] at htext
        simp at htext
  induction fuel generalizing rest r with
  | zero =>
    obtain rfl := List.length_eq_zero_iff.mp (Nat.le_zero.mp hfuel)
    exact hnil _ _ _
  | succ fuel ih =>
    by_cases hne : rest = []
    · rw [hne]
      exact hnil _ _ _
    constructor
    · intro h
      obtain ⟨g, rest', rfl, hg⟩ := groupsLoop_cut hne h
      rw [groupsLoop_cons hg] at h
      simp only [List.length_append, List.length_cons] at hfuel
      obtain ⟨gs, rfl, hgs, rfl⟩ := (ih (by omega)).mp h
      refine ⟨g :: gs, (groupsText_cons g gs).symm, List.forall_mem_cons.mpr ⟨hg, hgs⟩, ?_⟩
      rw [List.map_cons, List.append_assoc, List.singleton_append]
    · rintro ⟨gs, rfl, hgs, rfl⟩
      cases gs with
      | nil => exact absurd rfl hne
      | cons g gs =>
        obtain ⟨hg, hgs⟩ := List.forall_mem_cons.mp hgs
        rw [groupsText_cons] at hfuel ⊢
        simp only [List.length_append, List.length_cons] at hfuel
        rw [groupsLoop_cons hg]
        refine (ih (by omega)).mpr ⟨gs, rfl, hgs, ?_⟩
        rw [List.map_cons, List.append_assoc, List.singleton_append]

/-! ### The texts that `reset` accepts -/

/-- An elementary type with spaces around it and groups, with any text between these. -/
structure Loose (u e : Bytes) (gs : List (Bytes × Bytes)) : Prop where
  text : u = e ++ groupsText gs
  elementary : Elementary (trim isBlank e)
  closed : ∀ g ∈ gs, Closed g
  first : ∀ g ∈ gs.head?, g.1 = []

/-- What `reset` records of a type. -/
def inType (u e : Bytes) (gs : List (Bytes × Bytes)) : ABIInType where
  aet := getEnumType (trim isBlank e)
  strEleType := trim isBlank e
  strType := u
  extents := gs.map fun g => extentOf (trim isBlank g.2)

theorem notMem_of_elementary {e : Bytes} {c : UInt8} (h : Elementary (trim isBlank e)) (hblank : isBlank c = false)
    (hplain : isPlain c = false) : c ∉ e := by
  intro hmem
  rcases blank_or_mem_trim hmem with h' | h'
  · rw [hblank] at h'
    cases h'
  · have hc := isPlain_of_elementary h c h'
    rw [hplain] at hc
    cases hc

theorem Loose.idxOf {u e : Bytes} {gs : List (Bytes × Bytes)} (h : Loose u e gs) : u.idxOf 91 = e.length := by
  have hno : 91 ∉ e := notMem_of_elementary h.elementary (by decide) (by decide)
  obtain ⟨rfl, -, -, hfirst⟩ := h
  cases gs with
  | nil =>
    rw [groupsText, List.flatMap_nil, List.append_nil]
    exact List.idxOf_eq_length hno
  | cons g gs =>
    rw [groupsText_cons, hfirst g rfl, List.nil_append]
    exact idxOf_append_cons hno _

theorem reset_iff {s : Bytes} {type : ABIInType} :
    reset s = some type ↔ ∃ e gs, Loose (trim isBlank s) e gs ∧ type = inType (trim isBlank s) e gs := by
  have hlen : ((trim isBlank s).drop ((trim isBlank s).idxOf 91)).length ≤ (trim isBlank s).length := by
    rw [List.length_drop]
    exact Nat.sub_le _ _
  constructor
  · intro h
    simp only [reset] at h
    split at h
    next => cases h
    next helem =>
      obtain ⟨r, hloop, rfl⟩ := Option.map_eq_some_iff.mp h
      obtain ⟨gs, htext, hgs, hr⟩ := (groupsLoop_iff hlen).mp hloop
      refine ⟨_, gs, ⟨?_, getEnumType_ne_invalid_iff.mp helem, hgs, ?_⟩, ?_⟩
      · rw [← htext, List.take_append_drop]
      · intro g hg
        cases gs with
        | nil => cases hg
        | cons g' gs =>
          obtain rfl : g' = g := by simpa using hg
          -- What follows the first place of the bracket starts with it.
          have hfound : (trim isBlank s).idxOf 91 ≠ (trim isBlank s).length := by
            intro hlast
            rw [hlast, List.drop_length, groupsText_cons] at htext
            simp at htext
          obtain ⟨a, b, hs, -, hidx⟩ := exists_cut hfound
          rw [hidx, hs, List.drop_left, groupsText_cons] at htext
          cases hgap : g'.1 with
          | nil => rfl
          | cons y gap =>
            rw [hgap, List.cons_append] at htext
            have hbracket := (List.cons.inj htext).1
            refine absurd ?_ (hgs g' List.mem_cons_self).1
            rw [hgap, hbracket]
            exact List.mem_cons_self
      · rw [hr, List.nil_append]
        rfl
  · rintro ⟨e, gs, hloose, rfl⟩
    have htake : (trim isBlank s).take e.length = e := by
      rw [hloose.text, List.take_left]
    have hdrop : (trim isBlank s).drop e.length = groupsText gs := by
      rw [hloose.text, List.drop_left]
    rw [hloose.idxOf, hdrop] at hlen
    simp only [reset, hloose.idxOf, htake, hdrop]
    rw [if_neg (getEnumType_ne_invalid_iff.mpr hloose.elementary),
      (groupsLoop_iff hlen).mpr ⟨gs, rfl, hloose.closed, rfl⟩]
    rfl

theorem dynamic_iff (type : ABIInType) :
    type.dynamic = true ↔ type.aet = .STRING ∨ type.aet = .BYTES ∨ 0 ∈ type.extents := by
  have hextent : ((List.range type.rank).any fun i => type.extent (i + 1) = 0) = true ↔ 0 ∈ type.extents := by
    rw [List.any_eq_true, List.mem_iff_getElem]
    constructor
    · rintro ⟨i, hi, hzero⟩
      have hlt : i < type.rank := List.mem_range.mp hi
      rw [decide_eq_true_iff, ABIInType.extent, if_neg (Nat.not_lt.mpr hlt), Nat.add_sub_cancel,
        List.getD_eq_getElem?_getD, List.getElem?_eq_getElem hlt, Option.getD_some] at hzero
      exact ⟨i, hlt, hzero⟩
    · rintro ⟨i, hlt, hzero⟩
      have hrank : i < type.rank := hlt
      refine ⟨i, List.mem_range.mpr hlt, ?_⟩
      rw [decide_eq_true_iff, ABIInType.extent, if_neg (Nat.not_lt.mpr hrank), Nat.add_sub_cancel,
        List.getD_eq_getElem?_getD, List.getElem?_eq_getElem hlt, Option.getD_some]
      exact hzero
  rw [ABIInType.dynamic, Bool.or_eq_true, Bool.or_eq_true, hextent, decide_eq_true_iff, decide_eq_true_iff, or_assoc]

/-! ### The texts that `parser` accepts -/

def written (types : List Bytes) : List Bytes := (types.map (trim isBlank)).filter fun type => type ≠ []

theorem typesLoop_fst (types : List Bytes) (f : ABIFunc) (sig : Bytes) :
    (typesLoop f sig types).1 = true ↔ ∀ type ∈ written types, (reset type).isSome := by
  induction types generalizing f sig with
  | nil => exact ⟨fun _ _ h => absurd h List.not_mem_nil, fun _ => rfl⟩
  | cons type types ih =>
    simp only [typesLoop, written, List.map_cons]
    by_cases hempty : trim isBlank type = []
    · rw [if_pos hempty, List.filter_cons_of_neg (by simpa using hempty)]
      exact ih f sig
    · rw [if_neg hempty, List.filter_cons_of_pos (by simpa using hempty), List.forall_mem_cons]
      cases hreset : reset (trim isBlank type) with
      | none => simp
      | some inType =>
        simp only [Option.isSome_some, true_and]
        exact ih _ _

theorem typesLoop_snd (types : List Bytes) (f : ABIFunc) (sig : Bytes) (h : (typesLoop f sig types).1 = true) :
    (typesLoop f sig types).2 = (sig ++ (written types).flatMap (· ++ [44]),
      { f with allParamsType := f.allParamsType ++ (written types).filterMap reset }) := by
  induction types generalizing f sig with
  | nil => simp [typesLoop, written]
  | cons type types ih =>
    simp only [typesLoop, written, List.map_cons] at h ⊢
    by_cases hempty : trim isBlank type = []
    · rw [if_pos hempty] at h ⊢
      rw [List.filter_cons_of_neg (by simpa using hempty)]
      exact ih f sig h
    · rw [if_neg hempty] at h ⊢
      rw [List.filter_cons_of_pos (by simpa using hempty)]
      cases hreset : reset (trim isBlank type) with
      | none =>
        rw [hreset] at h
        cases h
      | some inType =>
        rw [hreset] at h
        rw [List.filterMap_cons_some hreset, List.flatMap_cons]
        refine (ih _ _ h).trans ?_
        simp only [written, List.append_assoc, List.singleton_append]

theorem flatMap_comma {types : List Bytes} (h : types ≠ []) :
    types.flatMap (· ++ [44]) = [44].intercalate types ++ [44] := by
  induction types with
  | nil => exact absurd rfl h
  | cons type types ih =>
    cases types with
    | nil => simp
    | cons type' types =>
      rw [List.flatMap_cons, ih (List.cons_ne_nil _ _), List.intercalate_cons_cons]
      simp only [List.append_assoc]

theorem closeList_types (name : Bytes) (types : List Bytes) :
    closeList (name ++ [40] ++ types.flatMap (· ++ [44])) = name ++ [40] ++ [44].intercalate types ++ [41] := by
  cases htypes : types with
  | nil => simp [closeList]
  | cons type rest =>
    rw [flatMap_comma (List.cons_ne_nil _ _), closeList, ← List.append_assoc, List.getLast?_concat, if_pos rfl,
      List.dropLast_concat]

/-- The text cut at the brackets that `parser` finds. -/
structure Cut (s pre mid post : Bytes) : Prop where
  text : s = pre ++ 40 :: (mid ++ 41 :: post)
  noOpen : 40 ∉ pre
  noClose : 41 ∉ pre ∧ 41 ∉ mid

theorem parser_of_cut {s pre mid post : Bytes} (h : Cut s pre mid post) (f : ABIFunc) :
    f.parser s =
      let r := typesLoop f (trim isBlank pre ++ [40]) (mid.splitOn 44)
      if r.1 then (true, { r.2.2 with strFuncName := trim isBlank pre, strFuncSignature := closeList r.2.1 })
      else (false, r.2.2) := by
  obtain ⟨rfl, hopen, hpre, hmid⟩ := h
  obtain ⟨hi0, hi1, hlen⟩ := cut_two post (by decide : (40 : UInt8) ≠ 41) hopen hpre hmid
  obtain ⟨hname, htypes, -⟩ := take_drop_cut pre mid post 40 41
  simp only [ABIFunc.parser]
  rw [hi0, hi1, hname, htypes, if_neg (by omega)]
  rcases typesLoop f (trim isBlank pre ++ [40]) (mid.splitOn 44) with ⟨_ | _, _, _⟩ <;> rfl

theorem parser_iff {s : Bytes} :
    (ABIFunc.parser {} s).1 = true ↔
      ∃ pre mid post, Cut s pre mid post ∧ ∀ type ∈ written (mid.splitOn 44), (reset type).isSome := by
  have hcut : ∀ {pre mid post}, Cut s pre mid post →
      ((ABIFunc.parser {} s).1 = true ↔ ∀ type ∈ written (mid.splitOn 44), (reset type).isSome) := by
    intro pre mid post h
    rw [parser_of_cut h, ← typesLoop_fst _ {} (trim isBlank pre ++ [40])]
    cases hloop : (typesLoop {} (trim isBlank pre ++ [40]) (mid.splitOn 44)).1 <;> simp [hloop]
  constructor
  · intro h
    have hfound := h
    simp only [ABIFunc.parser] at hfound
    split at hfound
    next => cases hfound
    next hbrackets =>
      rw [not_or, not_or, Nat.not_le] at hbrackets
      obtain ⟨pre, mid, post, hs, hopen, hpre, hmid⟩ := exists_cut_two hbrackets.1 hbrackets.2.1 hbrackets.2.2
      exact ⟨pre, mid, post, ⟨hs, hopen, hpre, hmid⟩, (hcut ⟨hs, hopen, hpre, hmid⟩).mp h⟩
  · rintro ⟨pre, mid, post, h, htypes⟩
    exact (hcut h).mpr htypes

theorem parser_records {s pre mid post : Bytes} (h : Cut s pre mid post)
    (htypes : ∀ type ∈ written (mid.splitOn 44), (reset type).isSome) :
    (ABIFunc.parser {} s).2 = { strFuncName := trim isBlank pre
                                strFuncSignature := trim isBlank pre ++ [40]
                                  ++ [44].intercalate (written (mid.splitOn 44)) ++ [41]
                                allParamsType := (written (mid.splitOn 44)).filterMap reset } := by
  have hloop := (typesLoop_fst _ {} (trim isBlank pre ++ [40])).mpr htypes
  have hrest := typesLoop_snd _ _ _ hloop
  simp only [parser_of_cut h, hloop, hrest, if_true, closeList_types, List.nil_append]

end HieraChain.ABIParser
