/-
  HieraChain/ABISignature.lean
  ============================
  **The grammar of function signatures, and what the parser makes of it.**

  A signature is a name and a list of types; a text is written so when it has
  the tokens of the signature with nothing but spaces around them (`Written`).
  What counts as a name is a parameter (`Naming`).  The parser searches for the
  next bracket and skips what it does not look for:

    * text after the closing bracket;
    * empty texts between commas;
    * text between the groups of a type;
    * and it records a written size of zero as it records a missing size.

  It reads every signature that is written; where it goes wrong is `reads_signatures_iff`.
-/
import HieraChain.ABIParser
import HieraChain.DelimitedText
import Mathlib.Data.List.Forall2

namespace HieraChain.ABIParser

open HieraChain.BigEndian HieraChain.Decimal HieraChain.SpacedText HieraChain.Storage

/-! ### The grammar -/

/-- A notion of a name: names have no spaces at their ends and no round brackets. -/
structure Naming where
  isName : Bytes → Prop
  trimmed : ∀ n, isName n → trim isBlank n = n
  noBracket : ∀ n, isName n → 40 ∉ n ∧ 41 ∉ n

def isIdentifierStart (b : UInt8) : Bool := (65 ≤ b && b ≤ 90) || (97 ≤ b && b ≤ 122) || b = 95 || b = 36

def Naming.identifier : Naming where
  isName n := n ≠ [] ∧ (∀ b ∈ n.head?, isIdentifierStart b = true) ∧ ∀ b ∈ n, (isIdentifierStart b || isDigit b) = true
  trimmed n h := trim_of_solid fun b hb => by
    have hpart := h.2.2 b hb
    cases hblank : isBlank b with
    | false => rfl
    | true =>
      rw [of_decide_eq_true hblank] at hpart
      cases hpart
  noBracket n h := ⟨fun hb => absurd (h.2.2 _ hb) (by decide), fun hb => absurd (h.2.2 _ hb) (by decide)⟩

/-- An elementary type and the digits in each group after it, none in an unsized group. -/
structure TypeText where
  elem : Bytes
  groups : List Bytes

def TypeText.Valid (t : TypeText) : Prop := Elementary t.elem ∧ ∀ digits ∈ t.groups, Digits digits

def groupTokens (digits : Bytes) : List Bytes := [[91], digits, [93]]

def TypeText.tokens (t : TypeText) : List Bytes := t.elem :: t.groups.flatMap groupTokens

structure Signature where
  name : Bytes
  types : List TypeText

def Signature.tokens (sig : Signature) : List Bytes :=
  sig.name :: [40] :: ([[44]].intercalate (sig.types.map TypeText.tokens) ++ [[41]])

structure Written (N : Naming) (sig : Signature) (s : Bytes) : Prop where
  name : N.isName sig.name
  types : ∀ t ∈ sig.types, t.Valid
  text : Spread isBlank sig.tokens s

structure TypeRead (t : TypeText) (type : ABIInType) : Prop where
  text : Spread isBlank t.tokens type.getType ∧ trim isBlank type.getType = type.getType
  extents : List.Forall₂ (fun digits extent => extent = 0 ↔ digits = []) t.groups type.extents
  dynamic : type.dynamic = true ↔ t.elem = strString ∨ t.elem = strBytes ∨ [] ∈ t.groups

structure ParsedAs (sig : Signature) (f : ABIFunc) : Prop where
  params : List.Forall₂ TypeRead sig.types f.allParamsType
  signature : f.getSignature = sig.name ++ [40] ++ [44].intercalate f.getParamsType ++ [41]

/-- The parser accepts the text exactly when it is a signature, and then records this signature. -/
def Right (N : Naming) (s : Bytes) : Prop :=
  ((ABIFunc.parser {} s).1 = true ↔ ∃ sig, Written N sig s) ∧
    ∀ sig, Written N sig s → ParsedAs sig (ABIFunc.parser {} s).2

/-- Where the text between the first brackets reads as types, nothing is there that the parser skips. -/
def Ok (N : Naming) (s : Bytes) : Prop :=
  ∀ pre mid post, Cut s pre mid post → (∀ u ∈ written (mid.splitOn 44), ∃ e gs, Loose u e gs) →
    N.isName (trim isBlank pre) ∧ Blank isBlank post ∧
      (Blank isBlank mid ∨ ∀ piece ∈ mid.splitOn 44, ¬ Blank isBlank piece) ∧
      ∀ u ∈ written (mid.splitOn 44), ∀ e gs, Loose u e gs →
        ∀ g ∈ gs, Blank isBlank g.1 ∧ ofDecimal (trim isBlank g.2) ≠ some 0

/-! ### Tokens -/

theorem solid_of_digits {digits : Bytes} (h : Digits digits) : Solid isBlank digits := by
  intro b hb
  have hdigit := h b hb
  cases hblank : isBlank b with
  | false => rfl
  | true =>
    rw [of_decide_eq_true hblank] at hdigit
    cases hdigit

theorem solid_of_elementary {e : Bytes} (h : Elementary e) : Solid isBlank e := by
  intro b hb
  have hplain := isPlain_of_elementary h b hb
  cases hblank : isBlank b with
  | false => rfl
  | true =>
    rw [of_decide_eq_true hblank] at hplain
    cases hplain

theorem elementary_ne_nil {e : Bytes} (h : Elementary e) : e ≠ [] := by
  have hnames : ∀ name ∈ [strBool, strAddr, strString, strBytes, strUint, strInt], name ≠ [] := by decide
  rcases h with h | ⟨n, -, -, rfl | rfl | rfl⟩
  · exact hnames e h
  · exact List.append_ne_nil_of_left_ne_nil (hnames strUint (by simp)) _
  · exact List.append_ne_nil_of_left_ne_nil (hnames strInt (by simp)) _
  · exact List.append_ne_nil_of_left_ne_nil (hnames strBytes (by simp)) _

theorem TypeText.Valid.mem_tokens {t : TypeText} (h : t.Valid) {token : Bytes} (ht : token ∈ t.tokens) {b : UInt8}
    (hb : b ∈ token) : isPlain b = true ∨ b = 91 ∨ b = 93 := by
  rcases List.mem_cons.mp ht with rfl | ht
  · exact .inl (isPlain_of_elementary h.1 b hb)
  · obtain ⟨digits, hdigits, htoken⟩ := List.mem_flatMap.mp ht
    simp only [groupTokens, List.mem_cons, List.not_mem_nil, or_false] at htoken
    rcases htoken with rfl | rfl | rfl
    · exact .inr (.inl (List.mem_singleton.mp hb))
    · exact .inl (by rw [isPlain, h.2 _ hdigits b hb, Bool.true_or])
    · exact .inr (.inr (List.mem_singleton.mp hb))

theorem TypeText.Valid.solid {t : TypeText} (h : t.Valid) : ∀ token ∈ t.tokens, Solid isBlank token := by
  intro token ht b hb
  cases hblank : isBlank b with
  | false => rfl
  | true =>
    have hspace : b = 32 := of_decide_eq_true hblank
    rw [hspace] at hb
    rcases h.mem_tokens ht hb with hplain | heq | heq
    · cases hplain
    · cases heq
    · cases heq

theorem TypeText.Valid.notMem {t : TypeText} (h : t.Valid) {u : Bytes} (hu : Spread isBlank t.tokens u) {c : UInt8}
    (hc : c = 44 ∨ c = 41) : c ∉ u := by
  intro hmem
  rcases hu.mem hmem with hblank | ⟨token, ht, hmem⟩
  · rcases hc with rfl | rfl <;> cases hblank
  · rcases h.mem_tokens ht hmem with hplain | heq | heq
    · rcases hc with rfl | rfl <;> cases hplain
    · rcases hc with rfl | rfl <;> cases heq
    · rcases hc with rfl | rfl <;> cases heq

theorem TypeText.Valid.trim_ne_nil {t : TypeText} (h : t.Valid) {u : Bytes} (hu : Spread isBlank t.tokens u) :
    trim isBlank u ≠ [] := by
  intro htrim
  have hblank := trim_eq_nil_iff.mp htrim
  obtain ⟨a, r, -, -, rfl⟩ := hu
  obtain ⟨b, e, helem⟩ := List.exists_cons_of_ne_nil (elementary_ne_nil h.1)
  have hsolid := solid_of_elementary h.1 b (by rw [helem]; exact List.mem_cons_self)
  have hb := hblank b (by simp [helem])
  rw [hsolid] at hb
  cases hb

/-! ### Types -/

theorem spread_groups {ds : List Bytes} {r : Bytes} (hds : ∀ digits ∈ ds, Digits digits)
    (h : Spread isBlank (ds.flatMap groupTokens) r) :
    ∃ gs b, r = groupsText gs ++ b ∧ Blank isBlank b ∧ (∀ g ∈ gs, Blank isBlank g.1)
      ∧ gs.map (fun g => trim isBlank g.2) = ds := by
  induction ds generalizing r with
  | nil => exact ⟨[], r, rfl, h, fun g hg => absurd hg List.not_mem_nil, rfl⟩
  | cons digits ds ih =>
    obtain ⟨hdigits, hds⟩ := List.forall_mem_cons.mp hds
    obtain ⟨a, _, ha, ⟨x, _, hx, ⟨y, r, hy, hr, rfl⟩, rfl⟩, rfl⟩ := h
    obtain ⟨gs, b, rfl, hb, hgaps, rfl⟩ := ih hds hr
    refine ⟨(a, x ++ (digits ++ y)) :: gs, b, ?_, hb, List.forall_mem_cons.mpr ⟨ha, hgaps⟩, ?_⟩
    · rw [groupsText_cons]
      simp only [List.append_assoc, List.cons_append, List.nil_append]
    · rw [List.map_cons, trim_append_of_blank hx hy, trim_of_solid (solid_of_digits hdigits)]

theorem spread_groupsText {gs : List (Bytes × Bytes)} (h : ∀ g ∈ gs, Blank isBlank g.1) :
    Spread isBlank ((gs.map fun g => trim isBlank g.2).flatMap groupTokens) (groupsText gs) := by
  induction gs with
  | nil => exact Blank.nil
  | cons g gs ih =>
    obtain ⟨hg, hgs⟩ := List.forall_mem_cons.mp h
    obtain ⟨x, y, hx, hy, hdigits⟩ := exists_trim isBlank g.2
    refine ⟨g.1, _, hg, ⟨x, _, hx, ⟨y, _, hy, ih hgs, rfl⟩, rfl⟩, ?_⟩
    rw [groupsText_cons]
    conv_lhs => rw [hdigits]
    simp only [List.append_assoc, List.cons_append, List.nil_append]

theorem groupsText_injective {gs gs' : List (Bytes × Bytes)} (h : ∀ g ∈ gs, Closed g) (h' : ∀ g ∈ gs', Closed g)
    (heq : groupsText gs = groupsText gs') : gs = gs' := by
  induction gs generalizing gs' with
  | nil =>
    cases gs' with
    | nil => rfl
    | cons g' gs' =>
      rw [groupsText_cons] at heq
      exact absurd (congrArg List.length heq) (by simp [groupsText])
  | cons g gs ih =>
    cases gs' with
    | nil =>
      rw [groupsText_cons] at heq
      exact absurd (congrArg List.length heq) (by simp [groupsText])
    | cons g' gs' =>
      obtain ⟨hg, hgs⟩ := List.forall_mem_cons.mp h
      obtain ⟨hg', hgs'⟩ := List.forall_mem_cons.mp h'
      rw [groupsText_cons, groupsText_cons] at heq
      have hmark : ∀ {c : UInt8} {a a' b b' : Bytes}, c ∉ a → c ∉ a' → a ++ c :: b = a' ++ c :: b' →
          a = a' ∧ b = b' := by
        intro c a a' b b' ha ha' hab
        obtain ⟨h₁, -, h₂⟩ := @DelimitedText.append_inj_of_mark UInt8 (· = c) _ _ _ _ _ _
          (fun x hx hxc => ha (hxc ▸ hx)) (fun x hx hxc => ha' (hxc ▸ hx)) rfl rfl hab
        exact ⟨h₁, h₂⟩
      obtain ⟨hgap, hrest⟩ := hmark hg.1 hg'.1 heq
      obtain ⟨hinner, hrest⟩ := hmark hg.notMem hg'.notMem hrest
      rw [Prod.ext hgap hinner, ih hgs hgs' hrest]

theorem Loose.unique {u e e' : Bytes} {gs gs' : List (Bytes × Bytes)} (h : Loose u e gs) (h' : Loose u e' gs') :
    e = e' ∧ gs = gs' := by
  have hlen : e.length = e'.length := h.idxOf.symm.trans h'.idxOf
  obtain ⟨he, hgs⟩ := List.append_inj (h.text.symm.trans h'.text) hlen
  exact ⟨he, groupsText_injective h.closed h'.closed hgs⟩

theorem TypeText.Valid.loose {t : TypeText} (h : t.Valid) {u : Bytes} (hu : Spread isBlank t.tokens u)
    (htrim : trim isBlank u = u) :
    ∃ e gs, Loose u e gs ∧ trim isBlank e = t.elem ∧ gs.map (fun g => trim isBlank g.2) = t.groups
      ∧ ∀ g ∈ gs, Blank isBlank g.1 := by
  obtain ⟨a, r, ha, hr, rfl⟩ := hu
  obtain ⟨gs, b, rfl, hb, hgaps, hdigits⟩ := spread_groups h.2 hr
  have hgap : ∀ g ∈ gs, 91 ∉ g.1 ∧ 93 ∉ g.1 := by
    intro g hg
    exact ⟨fun hmem => absurd (hgaps g hg _ hmem) (by decide), fun hmem => absurd (hgaps g hg _ hmem) (by decide)⟩
  have hinner : ∀ g ∈ gs, Digits (trim isBlank g.2) := by
    intro g hg
    exact h.2 _ (hdigits ▸ List.mem_map_of_mem hg)
  have helem : ∀ {x}, Blank isBlank x → trim isBlank (a ++ (t.elem ++ x)) = t.elem := by
    intro x hx
    rw [trim_append_of_blank ha hx, trim_of_solid (solid_of_elementary h.1)]
  have hend : b = [] := by
    rw [← List.append_assoc, ← List.append_assoc] at htrim
    exact eq_nil_of_trim_append htrim hb
  subst hend
  cases gs with
  | nil =>
    refine ⟨a ++ (t.elem ++ []), [], ⟨?_, ?_, ?_, ?_⟩, helem Blank.nil, hdigits, hgaps⟩
    · simp [groupsText]
    · rw [helem Blank.nil]
      exact h.1
    · exact fun g hg => absurd hg List.not_mem_nil
    · exact fun g hg => by cases hg
  | cons g gs =>
    -- The spaces before the first bracket belong to the element type.
    obtain ⟨hg, hgs⟩ := List.forall_mem_cons.mp hgaps
    refine ⟨a ++ (t.elem ++ g.1), ([], g.2) :: gs, ⟨?_, ?_, ?_, ?_⟩, helem hg, hdigits, ?_⟩
    · simp [groupsText_cons]
    · rw [helem hg]
      exact h.1
    · rw [List.forall_mem_cons]
      refine ⟨⟨List.not_mem_nil, List.not_mem_nil, hinner g List.mem_cons_self⟩, fun g' hg' => ?_⟩
      have hmem : g' ∈ g :: gs := List.mem_cons_of_mem _ hg'
      exact ⟨(hgap g' hmem).1, (hgap g' hmem).2, hinner g' hmem⟩
    · intro g' hg'
      obtain rfl : ([], g.2) = g' := by simpa using hg'
      rfl
    · exact List.forall_mem_cons.mpr ⟨Blank.nil, hgs⟩

theorem Loose.valid {u e : Bytes} {gs : List (Bytes × Bytes)} (h : Loose u e gs)
    (hgaps : ∀ g ∈ gs, Blank isBlank g.1) :
    ∃ t : TypeText, t.Valid ∧ Spread isBlank t.tokens u := by
  refine ⟨⟨trim isBlank e, gs.map fun g => trim isBlank g.2⟩, ⟨h.elementary, ?_⟩, ?_⟩
  · intro digits hdigits
    obtain ⟨g, hg, rfl⟩ := List.mem_map.mp hdigits
    exact (h.closed g hg).2.2
  · rw [h.text]
    obtain ⟨x, y, hx, hy, he⟩ := exists_trim isBlank e
    refine ⟨x, y ++ groupsText gs, hx, (spread_groupsText hgaps).append_left hy, ?_⟩
    conv_lhs => rw [he]
    simp only [List.append_assoc]

theorem extentOf_eq_zero_iff {digits : Bytes} (h : Digits digits) :
    (extentOf digits = 0 ↔ digits = []) ↔ ofDecimal digits ≠ some 0 := by
  by_cases hempty : digits = []
  · subst hempty
    exact ⟨fun _ => by decide, fun _ => by simp [extentOf]⟩
  · have hsome : ∃ n, ofDecimal digits = some n := by
      refine ⟨_, if_pos ⟨hempty, fun b hb => ?_⟩⟩
      simpa [isDigit] using h b hb
    obtain ⟨n, hn⟩ := hsome
    rw [extentOf, if_neg hempty, strtoul, hn, Option.getD_some]
    simp only [hempty, iff_false, ne_eq, Option.some.injEq]
    omega

theorem zero_mem_iff {groups : List Bytes} {extents : List Nat}
    (h : List.Forall₂ (fun digits extent => extent = 0 ↔ digits = []) groups extents) : 0 ∈ extents ↔ [] ∈ groups := by
  induction h with
  | nil => simp
  | cons hx _ ih => rw [List.mem_cons, List.mem_cons, ih, eq_comm, hx, eq_comm]

theorem TypeText.Valid.read_iff {t : TypeText} (h : t.Valid) {u : Bytes} (hu : Spread isBlank t.tokens u)
    (htrim : trim isBlank u = u) :
    ∃ type, reset u = some type ∧ (TypeRead t type ↔
      ∀ e gs, Loose u e gs → ∀ g ∈ gs, ofDecimal (trim isBlank g.2) ≠ some 0) := by
  obtain ⟨e, gs, hloose, helem, hdigits, -⟩ := h.loose hu htrim
  have hextents : List.Forall₂ (fun digits extent => extent = 0 ↔ digits = []) t.groups (inType u e gs).extents ↔
      ∀ g ∈ gs, ofDecimal (trim isBlank g.2) ≠ some 0 := by
    rw [← hdigits, inType, List.forall₂_map_left_iff, List.forall₂_map_right_iff, List.forall₂_same]
    constructor
    · intro hzero g hg
      exact (extentOf_eq_zero_iff (hloose.closed g hg).2.2).mp (hzero g hg)
    · intro hsize g hg
      exact (extentOf_eq_zero_iff (hloose.closed g hg).2.2).mpr (hsize g hg)
  refine ⟨inType u e gs, reset_iff.mpr ⟨e, gs, by rwa [htrim], by rw [htrim]⟩, ?_⟩
  constructor
  · intro hread e' gs' hloose'
    obtain ⟨-, rfl⟩ := hloose.unique hloose'
    exact hextents.mp hread.extents
  · intro hsize
    have hzero := hextents.mpr (hsize e gs hloose)
    refine ⟨⟨hu, htrim⟩, hzero, ?_⟩
    have haet : (inType u e gs).aet = getEnumType t.elem := congrArg getEnumType helem
    rw [dynamic_iff, zero_mem_iff hzero, haet, getEnumType_eq_string_iff, getEnumType_eq_bytes_iff]

/-! ### Signatures -/

theorem Cut.unique {s pre mid post pre' mid' post' : Bytes} (h : Cut s pre mid post) (h' : Cut s pre' mid' post') :
    pre = pre' ∧ mid = mid' ∧ post = post' := by
  have heq := h.text.symm.trans h'.text
  obtain ⟨hpre, -, hrest⟩ := @DelimitedText.append_inj_of_mark UInt8 (· = 40) _ _ _ _ _ _
    (fun x hx hc => h.noOpen (hc ▸ hx)) (fun x hx hc => h'.noOpen (hc ▸ hx)) rfl rfl heq
  obtain ⟨hmid, -, hpost⟩ := @DelimitedText.append_inj_of_mark UInt8 (· = 41) _ _ _ _ _ _
    (fun x hx hc => h.noClose.2 (hc ▸ hx)) (fun x hx hc => h'.noClose.2 (hc ▸ hx)) rfl rfl hrest
  exact ⟨hpre, hmid, hpost⟩

theorem written_of_blank {mid : Bytes} (h : Blank isBlank mid) : written (mid.splitOn 44) = [] := by
  have hno : (44 : UInt8) ∉ mid := fun hmem => absurd (h _ hmem) (by decide)
  rw [List.splitOn_eq_singleton hno, written, List.map_singleton, trim_eq_nil_iff.mpr h]
  rfl

theorem written_of_not_blank {pieces : List Bytes} (h : ∀ piece ∈ pieces, ¬ Blank isBlank piece) :
    written pieces = pieces.map (trim isBlank) := by
  refine List.filter_eq_self.mpr fun u hu => ?_
  obtain ⟨piece, hpiece, rfl⟩ := List.mem_map.mp hu
  simpa [trim_eq_nil_iff] using h piece hpiece

theorem forall₂_trim_iff {types : List TypeText} (hvalid : ∀ t ∈ types, t.Valid) {pieces : List Bytes} :
    List.Forall₂ (fun t piece => Spread isBlank t.tokens (trim isBlank piece)) types pieces ↔
      List.Forall₂ (fun t piece => Spread isBlank t.tokens piece) types pieces := by
  induction types generalizing pieces with
  | nil => rw [List.forall₂_nil_left_iff, List.forall₂_nil_left_iff]
  | cons t types ih =>
    obtain ⟨ht, htypes⟩ := List.forall_mem_cons.mp hvalid
    cases pieces with
    | nil => rw [List.forall₂_nil_right_iff, List.forall₂_nil_right_iff]
    | cons piece pieces => rw [List.forall₂_cons, List.forall₂_cons, spread_trim_iff ht.solid, ih htypes]

theorem exists_mem_left {α β : Type} {R : α → β → Prop} {as : List α} {bs : List β} (h : List.Forall₂ R as bs) {b : β}
    (hb : b ∈ bs) : ∃ a ∈ as, R a b := by
  obtain ⟨i, hi, rfl⟩ := List.mem_iff_getElem.mp hb
  have hlen : i < as.length := h.length_eq ▸ hi
  exact ⟨_, List.get_mem _ ⟨i, hlen⟩, h.get hlen hi⟩

theorem spread_types_iff {types : List TypeText} (hvalid : ∀ t ∈ types, t.Valid) {mid : Bytes} :
    Spread isBlank ([[44]].intercalate (types.map TypeText.tokens)) mid ↔
      (Blank isBlank mid ∨ ∀ piece ∈ mid.splitOn 44, ¬ Blank isBlank piece) ∧
        List.Forall₂ (fun t u => Spread isBlank t.tokens u) types (written (mid.splitOn 44)) := by
  cases types with
  | nil =>
    constructor
    · intro hmid
      rw [written_of_blank hmid]
      exact ⟨.inl hmid, .nil⟩
    · rintro ⟨hblank | hpieces, htypes⟩
      · exact hblank
      · rw [written_of_not_blank hpieces, List.forall₂_nil_left_iff, List.map_eq_nil_iff] at htypes
        exact absurd htypes (List.splitOn_ne_nil _ _)
  | cons t types =>
    rw [spread_intercalate (by simp)]
    constructor
    · rintro ⟨pieces, hspread, rfl⟩
      rw [List.forall₂_map_left_iff] at hspread
      have hcomma : ∀ piece ∈ pieces, (44 : UInt8) ∉ piece := by
        intro piece hmem
        obtain ⟨t', ht', hspread'⟩ := exists_mem_left hspread hmem
        exact (hvalid t' ht').notMem hspread' (.inl rfl)
      have hblank : ∀ piece ∈ pieces, ¬ Blank isBlank piece := by
        intro piece hmem hblank
        obtain ⟨t', ht', hspread'⟩ := exists_mem_left hspread hmem
        exact (hvalid t' ht').trim_ne_nil hspread' (trim_eq_nil_iff.mpr hblank)
      have hne : pieces ≠ [] := by
        rintro rfl
        cases hspread
      rw [List.splitOn_intercalate 44 hcomma hne, written_of_not_blank hblank, List.forall₂_map_right_iff]
      exact ⟨.inr hblank, forall₂_trim_iff hvalid |>.mpr hspread⟩
    · rintro ⟨hblank | hpieces, htypes⟩
      · rw [written_of_blank hblank] at htypes
        cases htypes
      · rw [written_of_not_blank hpieces, List.forall₂_map_right_iff] at htypes
        refine ⟨mid.splitOn 44, ?_, (List.intercalate_splitOn 44).symm⟩
        rw [List.forall₂_map_left_iff]
        exact (forall₂_trim_iff hvalid).mp htypes

theorem mem_intercalate_tokens {types : List TypeText} {token : Bytes}
    (h : token ∈ [[44]].intercalate (types.map TypeText.tokens)) : token = [44] ∨ ∃ t ∈ types, token ∈ t.tokens := by
  induction types with
  | nil => exact absurd h List.not_mem_nil
  | cons t types ih =>
    cases types with
    | nil =>
      rw [List.map_singleton, List.intercalate_singleton] at h
      exact .inr ⟨t, List.mem_cons_self, h⟩
    | cons t' types =>
      rw [List.map_cons, List.map_cons, List.intercalate_cons_cons, List.append_assoc] at h
      rcases List.mem_append.mp h with h | h
      · exact .inr ⟨t, List.mem_cons_self, h⟩
      rcases List.mem_cons.mp h with h | h
      · exact .inl h
      rcases ih h with h | ⟨t'', ht, h⟩
      · exact .inl h
      · exact .inr ⟨t'', List.mem_cons_of_mem _ ht, h⟩

theorem Written.cut {N : Naming} {sig : Signature} {s : Bytes} (h : Written N sig s) :
    ∃ pre mid post, Cut s pre mid post ∧ trim isBlank pre = sig.name ∧ Blank isBlank post ∧
      Spread isBlank ([[44]].intercalate (sig.types.map TypeText.tokens)) mid := by
  obtain ⟨a, _, ha, ⟨b, r, hb, hr, rfl⟩, hs⟩ := h.text
  obtain ⟨m, _, hm, ⟨c, post, hc, hpost, rfl⟩, rfl⟩ := spread_append.mp hr
  have hmid := hm.append_right hc
  have hname : ∀ {c : UInt8}, c ∉ sig.name → isBlank c = false → c ∉ a ++ (sig.name ++ b) := by
    intro c hno hblank hmem
    simp only [List.mem_append] at hmem
    rcases hmem with hmem | hmem | hmem
    · rw [ha c hmem] at hblank
      cases hblank
    · exact hno hmem
    · rw [hb c hmem] at hblank
      cases hblank
  obtain ⟨hopen, hclose⟩ := N.noBracket _ h.name
  refine ⟨a ++ (sig.name ++ b), m ++ c, post, ⟨?_, hname hopen rfl, hname hclose rfl, ?_⟩, ?_, hpost, hmid⟩
  · rw [hs]
    simp only [List.append_assoc, List.cons_append, List.nil_append]
  · intro hmem
    rcases hmid.mem hmem with hblank | ⟨token, htoken, hmem⟩
    · cases hblank
    · rcases mem_intercalate_tokens htoken with rfl | ⟨t, ht, htoken⟩
      · exact absurd (List.mem_singleton.mp hmem) (by decide)
      · rcases (h.types t ht).mem_tokens htoken hmem with hplain | heq | heq
        · cases hplain
        · cases heq
        · cases heq
  · rw [trim_append_of_blank ha hb, N.trimmed _ h.name]

theorem Cut.written {N : Naming} {sig : Signature} {s pre mid post : Bytes} (h : Cut s pre mid post)
    (hname : N.isName sig.name) (hpre : trim isBlank pre = sig.name) (hpost : Blank isBlank post)
    (htypes : ∀ t ∈ sig.types, t.Valid)
    (hmid : Spread isBlank ([[44]].intercalate (sig.types.map TypeText.tokens)) mid) : Written N sig s := by
  refine ⟨hname, htypes, ?_⟩
  obtain ⟨a, b, ha, hb, hs⟩ := exists_trim isBlank pre
  have hclose : Spread isBlank [[41]] (41 :: post) := ⟨[], post, Blank.nil, hpost, rfl⟩
  have hrest := spread_append.mpr ⟨mid, 41 :: post, hmid, hclose, rfl⟩
  refine ⟨a, b ++ 40 :: (mid ++ 41 :: post), ha, ⟨b, _, hb, hrest, rfl⟩, ?_⟩
  rw [← hpre, h.text]
  conv_lhs => rw [hs]
  simp only [List.append_assoc]

theorem params_iff {types : List TypeText} {us : List Bytes} (hvalid : ∀ t ∈ types, t.Valid)
    (h : List.Forall₂ (fun t u => Spread isBlank t.tokens u) types us) (htrim : ∀ u ∈ us, trim isBlank u = u) :
    (∀ u ∈ us, (reset u).isSome) ∧ (List.Forall₂ TypeRead types (us.filterMap reset) ↔
      ∀ u ∈ us, ∀ e gs, Loose u e gs → ∀ g ∈ gs, ofDecimal (trim isBlank g.2) ≠ some 0) := by
  induction h with
  | nil =>
    refine ⟨fun u hu => absurd hu List.not_mem_nil, fun _ u hu => absurd hu List.not_mem_nil, fun _ => .nil⟩
  | cons hu _ ih =>
    obtain ⟨ht, htypes⟩ := List.forall_mem_cons.mp hvalid
    obtain ⟨htrim₁, htrim⟩ := List.forall_mem_cons.mp htrim
    obtain ⟨type, hreset, hread⟩ := ht.read_iff hu htrim₁
    obtain ⟨hsome, hrest⟩ := ih htypes htrim
    rw [List.filterMap_cons_some hreset, List.forall₂_cons, List.forall_mem_cons, List.forall_mem_cons, hread, hrest,
      hreset]
    exact ⟨⟨rfl, hsome⟩, Iff.rfl⟩

theorem trim_of_mem_written {types : List Bytes} {u : Bytes} (h : u ∈ written types) : trim isBlank u = u := by
  obtain ⟨type, -, rfl⟩ := List.mem_map.mp (List.mem_filter.mp h).1
  exact trim_trim type

theorem isSome_reset {types : List Bytes} {u : Bytes} (h : u ∈ written types) :
    (reset u).isSome ↔ ∃ e gs, Loose u e gs := by
  rw [Option.isSome_iff_exists]
  constructor
  · rintro ⟨type, hreset⟩
    obtain ⟨e, gs, hloose, -⟩ := reset_iff.mp hreset
    rw [trim_of_mem_written h] at hloose
    exact ⟨e, gs, hloose⟩
  · rintro ⟨e, gs, hloose⟩
    exact ⟨_, reset_iff.mpr ⟨e, gs, by rwa [trim_of_mem_written h], rfl⟩⟩

theorem map_getType {us : List Bytes} (h : ∀ u ∈ us, (reset u).isSome) (htrim : ∀ u ∈ us, trim isBlank u = u) :
    (us.filterMap reset).map ABIInType.getType = us := by
  induction us with
  | nil => rfl
  | cons u us ih =>
    obtain ⟨hu, hus⟩ := List.forall_mem_cons.mp h
    obtain ⟨htrim₁, htrim⟩ := List.forall_mem_cons.mp htrim
    obtain ⟨type, hreset⟩ := Option.isSome_iff_exists.mp hu
    obtain ⟨e, gs, -, rfl⟩ := reset_iff.mp hreset
    rw [List.filterMap_cons_some hreset, List.map_cons, ih hus htrim]
    exact congrArg (· :: us) htrim₁

theorem exists_types {us : List Bytes} (h : ∀ u ∈ us, ∃ t : TypeText, t.Valid ∧ Spread isBlank t.tokens u) :
    ∃ types : List TypeText, (∀ t ∈ types, t.Valid) ∧
      List.Forall₂ (fun t u => Spread isBlank t.tokens u) types us := by
  induction us with
  | nil => exact ⟨[], fun t ht => absurd ht List.not_mem_nil, .nil⟩
  | cons u us ih =>
    obtain ⟨⟨t, ht, hu⟩, hus⟩ := List.forall_mem_cons.mp h
    obtain ⟨types, htypes, hrest⟩ := ih hus
    exact ⟨t :: types, List.forall_mem_cons.mpr ⟨ht, htypes⟩, .cons hu hrest⟩

/-- **The parser reads exactly the signatures, where nothing is there that it skips.**
It accepts every signature that is written; it accepts nothing else and records
the extents as they are exactly for the texts that are `Ok`. -/
theorem reads_signatures_iff (N : Naming) (s : Bytes) : Right N s ↔ Ok N s := by
  constructor
  · intro hright pre mid post hcut hloose
    have hreset : ∀ u ∈ written (mid.splitOn 44), (reset u).isSome := fun u hu => (isSome_reset hu).mpr (hloose u hu)
    obtain ⟨sig, hsig⟩ := hright.1.mp (parser_iff.mpr ⟨pre, mid, post, hcut, hreset⟩)
    obtain ⟨pre', mid', post', hcut', hname, hpost, hmid⟩ := hsig.cut
    obtain ⟨rfl, rfl, rfl⟩ := hcut.unique hcut'
    obtain ⟨hblank, htypes⟩ := (spread_types_iff hsig.types).mp hmid
    have hparams := (hright.2 sig hsig).params
    rw [parser_records hcut hreset] at hparams
    have hsize := (params_iff hsig.types htypes fun u => trim_of_mem_written).2.mp hparams
    refine ⟨hname ▸ hsig.name, hpost, hblank, fun u hu e gs hread g hg => ⟨?_, hsize u hu e gs hread g hg⟩⟩
    obtain ⟨t, ht, hspread⟩ := exists_mem_left htypes hu
    obtain ⟨e', gs', hread', -, -, hgaps⟩ := (hsig.types t ht).loose hspread (trim_of_mem_written hu)
    obtain ⟨-, rfl⟩ := hread.unique hread'
    exact hgaps g hg
  · intro hok
    have haccepted : ∀ sig, Written N sig s → ∃ pre mid post, Cut s pre mid post ∧ trim isBlank pre = sig.name ∧
        (∀ u ∈ written (mid.splitOn 44), (reset u).isSome) ∧
        List.Forall₂ (fun t u => Spread isBlank t.tokens u) sig.types (written (mid.splitOn 44)) := by
      intro sig hsig
      obtain ⟨pre, mid, post, hcut, hname, -, hmid⟩ := hsig.cut
      obtain ⟨-, htypes⟩ := (spread_types_iff hsig.types).mp hmid
      exact ⟨pre, mid, post, hcut, hname, (params_iff hsig.types htypes fun u => trim_of_mem_written).1, htypes⟩
    refine ⟨⟨fun haccept => ?_, ?_⟩, fun sig hsig => ?_⟩
    · obtain ⟨pre, mid, post, hcut, hreset⟩ := parser_iff.mp haccept
      have hloose := fun u hu => (isSome_reset hu).mp (hreset u hu)
      obtain ⟨hname, hpost, hblank, hgroups⟩ := hok pre mid post hcut hloose
      obtain ⟨types, hvalid, htypes⟩ := exists_types fun u hu => by
        obtain ⟨e, gs, hread⟩ := hloose u hu
        exact hread.valid fun g hg => (hgroups u hu e gs hread g hg).1
      exact ⟨⟨_, types⟩, hcut.written hname rfl hpost hvalid ((spread_types_iff hvalid).mpr ⟨hblank, htypes⟩)⟩
    · rintro ⟨sig, hsig⟩
      obtain ⟨pre, mid, post, hcut, -, hreset, -⟩ := haccepted sig hsig
      exact parser_iff.mpr ⟨pre, mid, post, hcut, hreset⟩
    · obtain ⟨pre, mid, post, hcut, hname, hreset, htypes⟩ := haccepted sig hsig
      obtain ⟨-, -, -, hgroups⟩ := hok pre mid post hcut fun u hu => (isSome_reset hu).mp (hreset u hu)
      have hparams := (params_iff hsig.types htypes fun u => trim_of_mem_written).2.mpr
        fun u hu e gs hread g hg => (hgroups u hu e gs hread g hg).2
      rw [parser_records hcut hreset]
      refine ⟨hparams, ?_⟩
      rw [ABIFunc.getSignature, ABIFunc.getParamsType, hname, map_getType hreset fun u => trim_of_mem_written]

/-- What stands after the closing bracket is skipped. -/
theorem parser_skips_rest :
    ¬ Right Naming.identifier (ascii ['f', '(', 'u', 'i', 'n', 't', '2', '5', '6', ')', 'x']) := by
  intro hright
  obtain ⟨sig, hsig⟩ := hright.1.mp (by decide +kernel)
  obtain ⟨pre, mid, post, hcut, -, hpost, -⟩ := hsig.cut
  have hcut' : Cut (ascii ['f', '(', 'u', 'i', 'n', 't', '2', '5', '6', ')', 'x']) (ascii ['f'])
      (ascii ['u', 'i', 'n', 't', '2', '5', '6']) (ascii ['x']) := ⟨by decide, by decide, by decide⟩
  obtain ⟨-, -, rfl⟩ := hcut.unique hcut'
  exact absurd hpost (by decide)

end HieraChain.ABIParser
