/-
  HieraChain/ABICodec.lean
  ========================
  **What decoding gives back of an encoded call.**

  Where an encoded value stands in the data, the decoder reads the value, but for
  its signed numbers (`deserialise_of_at`, by induction on the type): these go
  through `S256.ofU256`, whose threshold is 0x8ff.. and not 0x7ff...  The most
  negative numbers come back positive (`restored_eq_iff`).  The heads of a call
  and its tails are placed by `abiInAux` where `abiOutAux` looks for them, and so
  is every table of an array, at any depth (`abi_round_trip_iff`).
-/
import HieraChain.ABI

namespace HieraChain.ABI

open HieraChain.BigEndian HieraChain.RLP HieraChain.ByteLayout HieraChain.Decimal

/-! ### Words -/

@[simp] theorem length_word (n : Nat) : (word n).length = 32 := length_pushInt n 32

theorem fromBigEndian_word (n : Nat) : fromBigEndian (word n) = n % 2 ^ 256 := fromBigEndian_pushInt n 32

theorem size_t_eq {n : Nat} (h : n < 2 ^ 64) : size_t n = n := Nat.mod_eq_of_lt h

section Read

variable {data : Bytes} {off : Nat} (hdata : data.length < 2 ^ 63)

theorem cropped_of_at {b : Bytes} (h : At data off b) : cropped data off b.length = b := by
  rw [cropped, if_pos h.length_le, h.slice_eq]

include hdata in
theorem validOffset_of_lt {offset : Nat} (hlt : offset < data.length) : validOffset data offset = some () := by
  rw [validOffset, size_t_eq (by omega), if_neg (by omega)]

include hdata in
theorem deserialiseU256_of_at {n : Nat} (h : At data off (word n)) :
    deserialiseU256 data off = some (BitVec.ofNat 256 n) := by
  have hcropped : cropped data off MAX_BYTE_LENGTH = word n := by
    rw [← cropped_of_at h, length_word]
    rfl
  have hle := h.length_le
  rw [length_word] at hle
  have hvalid : validOffset data (off + MAX_BYTE_LENGTH - 1) = some () :=
    validOffset_of_lt hdata (by rw [MAX_BYTE_LENGTH]; omega)
  have hmod : BitVec.ofNat 256 (n % 2 ^ 256) = BitVec.ofNat 256 n := by
    apply BitVec.eq_of_toNat_eq
    rw [BitVec.toNat_ofNat, BitVec.toNat_ofNat, Nat.mod_mod]
  rw [deserialiseU256, hvalid, hcropped, fromBigEndian_word, hmod]
  rfl

theorem toNat_ofNat_of_lt {n : Nat} (h : n < 2 ^ 64) : size_t (BitVec.ofNat 256 n).toNat = n := by
  rw [BitVec.toNat_ofNat, Nat.mod_eq_of_lt (by omega), size_t_eq h]

include hdata in
theorem deserialiseBytes_of_at {b : Bytes} (h : At data off (serialiseBytes b)) : deserialiseBytes data off = some b := by
  rw [serialiseBytes] at h
  have hb := h.right.left
  have hble := hb.length_le
  rw [length_word] at hb hble
  have hvalid : validOffset data (off + MAX_BYTE_LENGTH + b.length - 1) = some () :=
    validOffset_of_lt hdata (by rw [MAX_BYTE_LENGTH]; omega)
  rw [deserialiseBytes, deserialiseU256_of_at hdata h.left]
  simp only [Option.bind_eq_bind, Option.bind_some, toNat_ofNat_of_lt (show b.length < 2 ^ 64 by omega), hvalid]
  rw [MAX_BYTE_LENGTH, size_t_eq (by omega), cropped_of_at hb]
  rfl

end Read

theorem populate_eq {n : Nat} (v : FixedHash n) : populate n v.data = v := by
  obtain ⟨data, hdata⟩ := v
  simp [populate, hdata]

/-! ### Arrays -/

theorem collect_eq {α : Type} {f : Nat → Option α} {n : Nat} {xs : List α} (hn : xs.length = n)
    (h : ∀ u x, xs[u]? = some x → f u = some x) : collect n f = some ⟨xs, hn⟩ := by
  subst hn
  induction xs generalizing f with
  | nil => rfl
  | cons x xs ih =>
    have hfirst := h 0 x rfl
    have hrest := ih (f := fun u => f (u + 1)) fun u y hy => h (u + 1) y hy
    simp [collect, hfirst, hrest]

theorem collectVector_eq {α : Type} {f : Nat → Option α} {n m : Nat} (hmn : m = n) (hn : n < 2 ^ 64)
    {xs : { xs : List α // xs.length = m }} (h : collect m f = some xs) :
    collectVector hn f = some ⟨xs.val, by rw [xs.property, hmn]; exact hn⟩ := by
  subst hmn
  rw [collectVector, h]
  rfl

theorem serialiseElements_static (length : Nat) (outs : List Bytes) :
    serialiseElements false length outs = ([], outs.flatten) := by
  induction outs with
  | nil => rfl
  | cons out outs ih => simp [serialiseElements, ih]

theorem serialiseElements_dynamic (length : Nat) (outs : List Bytes) :
    serialiseElements true length outs = (table word length outs, outs.flatten) := by
  induction outs generalizing length with
  | nil => rfl
  | cons out outs ih => simp [serialiseElements, table, ih]

theorem fixedLength_of_dynamic {t : AbiType} (h : isDynamic t = true) : fixedLength t = 1 := by
  cases t with
  | array elem n => exact if_pos h
  | _ => rfl

/-- **The places of the elements.** -/
theorem elementOffset_of_at {data : Bytes} {off : Nat} (hdata : data.length < 2 ^ 63) {elem : AbiType} {outs : List Bytes}
    (hwidth : isDynamic elem = false → ∀ out ∈ outs, out.length = fixedLength elem * 32)
    (h : At data off ((serialiseElements (isDynamic elem) (outs.length * MAX_BYTE_LENGTH) outs).1
      ++ (serialiseElements (isDynamic elem) (outs.length * MAX_BYTE_LENGTH) outs).2)) {u : Nat} {out : Bytes}
    (hu : outs[u]? = some out) : ∃ place, elementOffset data elem off u = some place ∧ At data place out := by
  rcases hdynamic : isDynamic elem with _ | _
  · rw [hdynamic, serialiseElements_static] at h
    have hplace := At.flatten (hwidth hdynamic) h hu
    have hle := hplace.length_le
    refine ⟨_, ?_, hplace⟩
    rw [elementOffset, hdynamic, MAX_BYTE_LENGTH, ← Nat.mul_assoc] at *
    rw [size_t_eq (by omega)]
    rfl
  · rw [hdynamic, serialiseElements_dynamic] at h
    have htails := h.right
    rw [length_table length_word] at htails
    obtain ⟨place, hword, hout⟩ := At.table length_word h.left htails hu
    have hle := hword.length_le
    have hle' := hout.length_le
    rw [length_word] at hle
    refine ⟨_, ?_, hout⟩
    simp only [elementOffset, hdynamic, fixedLength_of_dynamic hdynamic, MAX_BYTE_LENGTH, Nat.mul_one, if_true]
    rw [size_t_eq (by omega), deserialiseU256_of_at hdata hword]
    simp only [Option.bind_eq_bind, Option.bind_some, toNat_ofNat_of_lt (show place < 2 ^ 64 by omega)]
    rw [size_t_eq (by omega)]
    rfl

theorem length_flatten {bs : List Bytes} {width : Nat} (h : ∀ b ∈ bs, b.length = width) :
    bs.flatten.length = bs.length * width := by
  induction bs with
  | nil => simp
  | cons b bs ih =>
    rw [List.flatten_cons, List.length_append, h b List.mem_cons_self, ih fun b' hb' => h b' (List.mem_cons_of_mem _ hb'),
      List.length_cons, Nat.succ_mul, Nat.add_comm]

theorem length_serialise : ∀ (t : AbiType) (v : Value t), isDynamic t = false →
    (serialise t v).length = fixedLength t * 32
  | .u256, _, _ => length_word _
  | .s256, _, _ => length_word _
  | .bool, _, _ => length_word _
  | .address, (v : FixedHash 20), _ => by
    rw [serialise, List.length_append, v.length_data]
    rfl
  | .string32, (v : FixedHash 32), _ => v.length_data
  | .array elem n, (v : { xs : List (Value elem) // xs.length = n }), h => by
    rw [isDynamic] at h
    have hwidth : ∀ out ∈ v.val.map (serialise elem), out.length = fixedLength elem * 32 := by
      intro out hout
      obtain ⟨x, -, rfl⟩ := List.mem_map.mp hout
      exact length_serialise elem x h
    rw [serialise, h, serialiseElements_static, List.nil_append, length_flatten hwidth, List.length_map, v.property,
      fixedLength, if_neg (by simp [h]), Nat.mul_assoc]

/-! ### Values -/

def restored : (t : AbiType) → Value t → Value t
  | .s256, (v : S256) => S256.ofU256 v.toU256
  | .array elem n, (v : { xs : List (Value elem) // xs.length = n }) =>
    (⟨v.val.map (restored elem), by rw [List.length_map]; exact v.property⟩ : { xs : List (Value elem) // xs.length = n })
  | .vector elem, (v : { xs : List (Value elem) // xs.length < 2 ^ 64 }) =>
    (⟨v.val.map (restored elem), by rw [List.length_map]; exact v.property⟩ :
      { xs : List (Value elem) // xs.length < 2 ^ 64 })
  | .u256, v => v
  | .bool, v => v
  | .address, v => v
  | .string32, v => v
  | .string, v => v
  | .bytes, v => v

section Scalars

variable {data : Bytes} {off : Nat} (hdata : data.length < 2 ^ 63)

include hdata in
theorem deserialiseU256_serialise {u : U256} (h : At data off (word u.toNat)) : deserialiseU256 data off = some u := by
  rw [deserialiseU256_of_at hdata h, BitVec.ofNat_toNat, BitVec.setWidth_eq]

include hdata in
theorem deserialise_address {v : FixedHash 20} (h : At data off (List.replicate 12 0 ++ v.data)) :
    deserialise data .address off = some v := by
  have hle := h.length_le
  have hright := h.right
  rw [List.length_append, List.length_replicate, v.length_data] at hle
  rw [List.length_replicate] at hright
  have hcropped := cropped_of_at hright
  rw [v.length_data] at hcropped
  rw [deserialise, validOffset_of_lt hdata (by rw [MAX_BYTE_LENGTH]; omega), MAX_BYTE_LENGTH, size_t_eq (by omega),
    show off + 32 - 20 = off + 12 by omega, hcropped, populate_eq]
  rfl

include hdata in
theorem deserialise_string32 {v : FixedHash 32} (h : At data off v.data) : deserialise data .string32 off = some v := by
  have hle := h.length_le
  have hcropped := cropped_of_at h
  rw [v.length_data] at hle hcropped
  rw [deserialise, validOffset_of_lt hdata (by rw [MAX_BYTE_LENGTH]; omega), MAX_BYTE_LENGTH, hcropped, populate_eq]
  rfl

end Scalars

theorem collect_elements {data : Bytes} {off : Nat} (hdata : data.length < 2 ^ 63) {elem : AbiType}
    (hread : ∀ v off, At data off (serialise elem v) → deserialise data elem off = some (restored elem v))
    {xs : List (Value elem)}
    (h : At data off ((serialiseElements (isDynamic elem) (xs.length * MAX_BYTE_LENGTH) (xs.map (serialise elem))).1
      ++ (serialiseElements (isDynamic elem) (xs.length * MAX_BYTE_LENGTH) (xs.map (serialise elem))).2)) :
    collect xs.length (fun u => do deserialise data elem (← elementOffset data elem off u))
      = some ⟨xs.map (restored elem), List.length_map _⟩ := by
  apply collect_eq
  intro u y hy
  obtain ⟨x, hx, rfl⟩ := Option.map_eq_some_iff.mp (List.getElem?_map.symm.trans hy)
  have hout : (xs.map (serialise elem))[u]? = some (serialise elem x) := by rw [List.getElem?_map, hx]; rfl
  have hwidth : isDynamic elem = false → ∀ out ∈ xs.map (serialise elem), out.length = fixedLength elem * 32 := by
    intro hstatic out hmem
    obtain ⟨x, -, rfl⟩ := List.mem_map.mp hmem
    exact length_serialise elem x hstatic
  have hcount : xs.length = (xs.map (serialise elem)).length := (List.length_map _).symm
  rw [hcount] at h
  obtain ⟨place, hplace, hat⟩ := elementOffset_of_at hdata hwidth h hout
  simp only [hplace, Option.bind_eq_bind, Option.bind_some]
  exact hread x place hat

/-- **A value is read where it stands.** -/
theorem deserialise_of_at {data : Bytes} (hdata : data.length < 2 ^ 63) (t : AbiType) (v : Value t) {off : Nat}
    (h : At data off (serialise t v)) : deserialise data t off = some (restored t v) := by
  induction t generalizing off with
  | u256 => exact deserialiseU256_serialise hdata h
  | s256 =>
    rw [deserialise, deserialiseU256_serialise hdata h]
    rfl
  | bool =>
    rw [deserialise, deserialiseU256_of_at hdata h]
    cases v <;> rfl
  | address => exact deserialise_address hdata h
  | string32 => exact deserialise_string32 hdata h
  | string => exact deserialiseBytes_of_at hdata h
  | bytes => exact deserialiseBytes_of_at hdata h
  | array elem n ih =>
    obtain ⟨xs, rfl⟩ := v
    rw [serialise] at h
    rw [deserialise]
    exact collect_elements hdata (fun v off hv => ih v hv) h
  | vector elem ih =>
    obtain ⟨xs, hlength⟩ := v
    rw [serialise] at h
    have hle := h.length_le
    rw [List.length_append, length_word] at hle
    have helements := h.right
    rw [length_word] at helements
    have hcollect := collect_elements hdata (fun v off hv => ih v hv) helements
    rw [deserialise, deserialiseU256_of_at hdata h.left]
    simp only [Option.bind_eq_bind, Option.bind_some, MAX_BYTE_LENGTH]
    rw [size_t_eq (show off + 32 < 2 ^ 64 by omega)]
    exact collectVector_eq (toNat_ofNat_of_lt hlength).symm (size_t_lt _) hcollect

/-! ### Calls -/

theorem length_fixed (offset : Nat) (args : List Arg) :
    (abiInAux offset args).1.length = offsetOf (args.map Sigma.fst) * 32 := by
  induction args generalizing offset with
  | nil => simp [abiInAux, offsetOf]
  | cons arg args ih =>
    obtain ⟨t, v⟩ := arg
    rw [List.map_cons, offsetOf, List.map_cons, List.sum_cons, Nat.add_mul, ← offsetOf, abiInAux]
    rcases hdynamic : isDynamic t with _ | _
    · simp [ih, length_serialise t v hdynamic]
    · simp [ih, fixedLength_of_dynamic hdynamic]

def restoredArg (arg : Arg) : Arg := ⟨arg.1, restored arg.1 arg.2⟩

/-- **Heads and tails are read where they were put.** -/
theorem abiOutAux_of_at {data : Bytes} (hdata : data.length < 2 ^ 63) {args : List Arg} {off offset : Nat}
    (hfixed : At data off (abiInAux offset args).1) (hdynamic : At data offset (abiInAux offset args).2) :
    abiOutAux data off (args.map Sigma.fst) = some (args.map restoredArg) := by
  induction args generalizing off offset with
  | nil => rfl
  | cons arg args ih =>
    obtain ⟨t, v⟩ := arg
    rw [abiInAux] at hfixed hdynamic
    rw [List.map_cons, abiOutAux, List.map_cons]
    by_cases ht : isDynamic t = true
    · rw [if_pos ht] at hfixed hdynamic ⊢
      have hle := hdynamic.length_le
      have hrest := hfixed.right
      have hfit := hrest.length_le
      rw [length_word] at hrest hfit
      have hnext := ih hrest hdynamic.right
      rw [deserialiseU256_of_at hdata hfixed.left, fixedLength_of_dynamic ht, MAX_BYTE_LENGTH]
      simp only [Option.map_some, Option.bind_eq_bind, Option.bind_some, toNat_ofNat_of_lt (show offset < 2 ^ 64 by omega)]
      rw [deserialise_of_at hdata t v hdynamic.left, Nat.one_mul, size_t_eq (by omega), hnext]
      rfl
    · have hstatic : isDynamic t = false := by simpa using ht
      rw [if_neg ht] at hfixed hdynamic ⊢
      have hrest := hfixed.right
      have hfit := hrest.length_le
      rw [length_serialise t v hstatic] at hrest hfit
      have hnext := ih hrest hdynamic
      rw [MAX_BYTE_LENGTH]
      simp only [Option.bind_eq_bind, Option.bind_some]
      rw [deserialise_of_at hdata t v hfixed.left, size_t_eq (by omega), hnext]
      rfl

theorem at_abiIn (args : List Arg) :
    At (abiIn args) 0 (abiInAux (offsetOf (args.map Sigma.fst) * MAX_BYTE_LENGTH) args).1 ∧
      At (abiIn args) (offsetOf (args.map Sigma.fst) * MAX_BYTE_LENGTH)
        (abiInAux (offsetOf (args.map Sigma.fst) * MAX_BYTE_LENGTH) args).2 := by
  have hself := at_self (abiIn args)
  have hright := hself.right (a := (abiInAux (offsetOf (args.map Sigma.fst) * MAX_BYTE_LENGTH) args).1)
  rw [length_fixed, Nat.zero_add] at hright
  exact ⟨hself.left, hright⟩

theorem abiOut_abiIn {args : List Arg} (hsize : (abiIn args).length < 2 ^ 63) :
    abiOut (abiIn args) (args.map Sigma.fst) = some (args.map restoredArg) := by
  obtain ⟨hfixed, hdynamic⟩ := at_abiIn args
  exact abiOutAux_of_at hsize hfixed hdynamic

/-! ### Signed numbers -/

/-- Whether the signed numbers of a value are in the range that the threshold
    tells apart. -/
def signedOk : (t : AbiType) → Value t → Bool
  | .s256, (v : S256) => decide (-(7 * 2 ^ 252) ≤ v.val ∧ v.val < 9 * 2 ^ 252)
  | .array elem _, (v : { xs : List (Value elem) // _ }) => v.val.all (signedOk elem)
  | .vector elem, (v : { xs : List (Value elem) // xs.length < 2 ^ 64 }) => v.val.all (signedOk elem)
  | .u256, _ => true
  | .bool, _ => true
  | .address, _ => true
  | .string32, _ => true
  | .string, _ => true
  | .bytes, _ => true

theorem val_ofU256_toU256 (v : S256) :
    (S256.ofU256 v.toU256).val = v.val ↔ -(7 * 2 ^ 252) ≤ v.val ∧ v.val < 9 * 2 ^ 252 := by
  obtain ⟨v, hlower, hupper⟩ := v
  have hnat : (S256.toU256 ⟨v, hlower, hupper⟩).toNat = (v % 2 ^ 256).toNat := BitVec.toNat_ofInt v
  simp only [S256.ofU256, threshold, hnat]
  obtain ⟨u, hu⟩ : ∃ u, (v % 2 ^ 256).toNat = u := ⟨_, rfl⟩
  rw [hu]
  split_ifs <;> omega

theorem map_eq_self {α : Type} {f : α → α} {xs : List α} : xs.map f = xs ↔ ∀ x ∈ xs, f x = x := by
  induction xs with
  | nil => simp
  | cons x xs ih => simp [ih]

/-- **A value comes back exactly where its signed numbers are in that range.** -/
theorem restored_eq_iff (t : AbiType) (v : Value t) : restored t v = v ↔ signedOk t v = true := by
  induction t with
  | s256 =>
    refine Iff.trans ?_ (decide_eq_true_iff (p := -(7 * 2 ^ 252) ≤ S256.val v ∧ S256.val v < 9 * 2 ^ 252)).symm
    exact ⟨fun h => (val_ofU256_toU256 v).mp (congrArg S256.val h), fun h => S256.ext ((val_ofU256_toU256 v).mpr h)⟩
  | array elem n ih =>
    obtain ⟨xs, hn⟩ := v
    change (⟨xs.map (restored elem), _⟩ : { xs : List (Value elem) // xs.length = n }) = ⟨xs, hn⟩
      ↔ xs.all (signedOk elem) = true
    rw [Subtype.mk.injEq, map_eq_self, List.all_eq_true]
    exact forall₂_congr fun x _ => ih x
  | vector elem ih =>
    obtain ⟨xs, hn⟩ := v
    change (⟨xs.map (restored elem), _⟩ : { xs : List (Value elem) // xs.length < 2 ^ 64 }) = ⟨xs, hn⟩
      ↔ xs.all (signedOk elem) = true
    rw [Subtype.mk.injEq, map_eq_self, List.all_eq_true]
    exact forall₂_congr fun x _ => ih x
  | _ => exact iff_of_true rfl rfl

theorem restoredArg_eq_iff (a : Arg) : restoredArg a = a ↔ signedOk a.1 a.2 = true := by
  rw [← restored_eq_iff]
  obtain ⟨t, v⟩ := a
  simp [restoredArg]

/-! ### By the names of types -/

inductive SelectorType
  | int256
  | uint256
  | address
  | string
  deriving DecidableEq, Repr

namespace SelectorType

def name : SelectorType → String
  | .int256 => "int256"
  | .uint256 => "uint256"
  | .address => "address"
  | .string => "string"

def type : SelectorType → AbiType
  | .int256 => .s256
  | .uint256 => .u256
  | .address => .address
  | .string => .string

def text : (s : SelectorType) → Value s.type → Bytes
  | .int256, (v : S256) => signedDecimal v.val
  | .uint256, (v : U256) => decimal v.toNat
  | .address, (v : FixedHash 20) => Hex.toHex v.data
  | .string, (v : Bytes) => v

end SelectorType

abbrev NamedArg := Σ s : SelectorType, Value s.type

def NamedArg.arg (a : NamedArg) : Arg := ⟨a.1.type, a.2⟩

def NamedArg.text (a : NamedArg) : Bytes := a.1.text a.2

/-- What `abiOutByFuncSelector` gives back of it. -/
def NamedArg.restored (a : NamedArg) : NamedArg := ⟨a.1, ABI.restored a.1.type a.2⟩

theorem selectorLoop_of_at {data : Bytes} (hdata : data.length < 2 ^ 63) {args : List NamedArg} {off offset : Nat}
    (out : List Bytes) (hfixed : At data off (abiInAux offset (args.map NamedArg.arg)).1)
    (hdynamic : At data offset (abiInAux offset (args.map NamedArg.arg)).2) :
    selectorLoop data off (args.map fun a => a.1.name) out
      = some (true, out ++ args.map fun a => a.restored.text) := by
  induction args generalizing off offset out with
  | nil => simp [selectorLoop]
  | cons a args ih =>
    obtain ⟨s, v⟩ := a
    -- a static value stands in the fixed part, followed by the rest of it
    have hstatic : isDynamic s.type = false → (serialise s.type v).length = 32 →
        At data off (serialise s.type v) ∧
          selectorLoop data (size_t (off + MAX_BYTE_LENGTH)) (args.map fun a => a.1.name)
              (out ++ [NamedArg.text (NamedArg.restored ⟨s, v⟩)])
            = some (true, out ++ NamedArg.text (NamedArg.restored ⟨s, v⟩) :: args.map fun a => a.restored.text) := by
      intro hs hlength
      simp only [List.map_cons, NamedArg.arg, abiInAux, hs] at hfixed hdynamic
      have hrest := hfixed.right
      have hfit := hrest.length_le
      rw [hlength] at hrest hfit
      rw [MAX_BYTE_LENGTH, size_t_eq (by omega), ih _ hrest hdynamic, List.append_assoc]
      exact ⟨hfixed.left, rfl⟩
    cases s with
    | int256 =>
      obtain ⟨hat, hnext⟩ := hstatic rfl (length_word _)
      change selectorLoop data off ("int256" :: _) out = _
      rw [selectorLoop, if_pos (Or.inr rfl), deserialise_of_at hdata .s256 v hat]
      exact hnext
    | uint256 =>
      obtain ⟨hat, hnext⟩ := hstatic rfl (length_word _)
      change selectorLoop data off ("uint256" :: _) out = _
      rw [selectorLoop, if_neg (by decide), if_pos (Or.inr rfl), deserialise_of_at hdata .u256 v hat]
      exact hnext
    | address =>
      obtain ⟨hat, hnext⟩ := hstatic rfl (length_serialise .address v rfl)
      change selectorLoop data off ("address" :: _) out = _
      rw [selectorLoop, if_neg (by decide), if_neg (by decide), if_pos rfl, deserialise_of_at hdata .address v hat]
      exact hnext
    | string =>
      change At data off (word offset ++ _) at hfixed
      change At data offset (serialiseBytes v ++ _) at hdynamic
      have hle := hdynamic.length_le
      have hrest := hfixed.right
      have hfit := hrest.length_le
      rw [length_word] at hrest hfit
      change selectorLoop data off ("string" :: _) out = _
      rw [selectorLoop, if_neg (by decide), if_neg (by decide), if_neg (by decide), if_pos rfl,
        deserialiseU256_of_at hdata hfixed.left]
      simp only [Option.bind_eq_bind, Option.bind_some, toNat_ofNat_of_lt (show offset < 2 ^ 64 by omega)]
      rw [deserialiseBytes_of_at hdata hdynamic.left, MAX_BYTE_LENGTH, size_t_eq (by omega)]
      refine (ih _ hrest hdynamic.right).trans ?_
      rw [List.append_assoc]
      rfl

theorem text_restored_iff (a : NamedArg) : a.restored.text = a.text ↔ signedOk a.arg.1 a.arg.2 = true := by
  rw [← restored_eq_iff]
  obtain ⟨s, v⟩ := a
  cases s with
  | int256 =>
    constructor
    · intro h
      exact S256.ext (signedDecimal_injective h)
    · intro h
      exact congrArg (fun w : S256 => signedDecimal w.val) h
  | _ => exact iff_of_true rfl rfl

/-! ### The round trip -/

/-- **Encoding, then decoding.**  Every value comes back exactly where its signed
    numbers are from -7 * 2^252 up to 9 * 2^252. -/
theorem abi_round_trip_iff (args : List Arg) (namedArgs : List NamedArg) :
    ((abiIn args).length < 2 ^ 63 →
      (abiOut (abiIn args) (args.map Sigma.fst) = some args ↔ ∀ a ∈ args, signedOk a.1 a.2 = true)) ∧
    ((abiIn (namedArgs.map NamedArg.arg)).length < 2 ^ 63 →
      (abiOutByFuncSelector (abiIn (namedArgs.map NamedArg.arg)) (namedArgs.map fun a => a.1.name) []
          = some (true, namedArgs.map NamedArg.text) ↔ ∀ a ∈ namedArgs, signedOk a.arg.1 a.arg.2 = true)) := by
  constructor
  · intro hsize
    rw [abiOut_abiIn hsize, Option.some.injEq, map_eq_self]
    exact forall₂_congr fun a _ => restoredArg_eq_iff a
  · intro hsize
    obtain ⟨hfixed, hdynamic⟩ := at_abiIn (namedArgs.map NamedArg.arg)
    rw [abiOutByFuncSelector, selectorLoop_of_at hsize [] hfixed hdynamic, List.nil_append, Option.some.injEq,
      Prod.mk.injEq, and_iff_right rfl, List.map_inj_left]
    exact forall₂_congr fun a _ => text_restored_iff a

def least : S256 := ⟨-(2 ^ 255), by decide, by decide⟩

def minusOne : S256 := ⟨-1, by decide, by decide⟩

/-- A call with an array of strings, a number and an empty vector, and one by
    names. -/
theorem abi_round_trip_small :
    (abiOut (abiIn [⟨.array .string 2, ⟨[[97], []], rfl⟩⟩, ⟨.s256, minusOne⟩, ⟨.vector .bytes, ⟨[], by decide⟩⟩])
        [.array .string 2, .s256, .vector .bytes]
      = some [⟨.array .string 2, ⟨[[97], []], rfl⟩⟩, ⟨.s256, minusOne⟩, ⟨.vector .bytes, ⟨[], by decide⟩⟩]) ∧
    abiOutByFuncSelector (abiIn [⟨.string, [97, 98]⟩, ⟨.s256, minusOne⟩]) ["string", "int256"] []
      = some (true, [[97, 98], [45, 49]]) := by
  constructor
  · refine ((abi_round_trip_iff [⟨.array .string 2, ⟨[[97], []], rfl⟩⟩, ⟨.s256, minusOne⟩,
      ⟨.vector .bytes, ⟨[], by decide⟩⟩] []).1 (by decide +kernel)).mpr ?_
    decide +kernel
  · refine ((abi_round_trip_iff [] [⟨.string, [97, 98]⟩, ⟨.int256, minusOne⟩]).2 (by decide +kernel)).mpr ?_
    decide +kernel

/-- The least number comes back as its opposite. -/
theorem least_comes_back_positive :
    ¬ ∀ args : List Arg, (abiIn args).length < 2 ^ 63 → abiOut (abiIn args) (args.map Sigma.fst) = some args := by
  intro h
  have hleast := h [⟨.s256, least⟩] (by decide +kernel)
  rw [abiOut_abiIn (by decide +kernel), Option.some.injEq, map_eq_self] at hleast
  have hok := (restoredArg_eq_iff ⟨.s256, least⟩).mp (hleast _ List.mem_cons_self)
  exact absurd hok (by decide +kernel)

end HieraChain.ABI
