/-
  HieraChain/Wire.lean
  ====================
  **Readers of byte strings** — what a decoder of a sequential format rests on.

  A reader takes bytes from the front of a string, or fails where they run out.
  `Reads r b a` says that `r` reads `a` off `b`, whatever follows `b`.  Such facts
  compose like the readers do, so the round trip of a format is proved field by
  field.

  A format says which bytes stand for a value, without a direction of reading.  A
  reader that `Recognizes` a format takes just its bytes off the front of a string
  and fails on every other string.  The module names nothing of the program.
-/
import HieraChain.BigEndian

namespace HieraChain.Wire

open HieraChain.BigEndian

abbrev Reader (α : Type) := StateT Bytes Option α

variable {α β : Type}

/-- `r` reads `a` off the bytes `b` and leaves what follows them. -/
def Reads (r : Reader α) (b : Bytes) (a : α) : Prop := ∀ rest, r (b ++ rest) = some (a, rest)

/-- The next `n` bytes. -/
def chunk (n : Nat) : Reader Bytes := fun b => if n ≤ b.length then some (b.take n, b.drop n) else none

/-- An unsigned integer of `k` bytes, most significant first. -/
def integer (k : Nat) : Reader Nat := do
  let b ← chunk k
  return fromBigEndian b

/-- A byte string behind its length in `k` bytes. -/
def counted (k : Nat) : Reader Bytes := do
  let n ← integer k
  chunk n

def repeated (r : Reader α) : Nat → Reader (List α)
  | 0 => return []
  | n + 1 => do
    let a ← r
    let as ← repeated r n
    return a :: as

def remaining : Reader Bytes := fun b => some (b, b)

/-! ### Sizes -/

theorem length_le_flatMap {f : α → List β} {l : List α} (h : ∀ a ∈ l, 1 ≤ (f a).length) :
    l.length ≤ (l.flatMap f).length := by
  induction l with
  | nil => exact Nat.zero_le _
  | cons a l ih =>
    have ha := h a List.mem_cons_self
    have hl := ih fun b hb => h b (List.mem_cons_of_mem a hb)
    rw [List.flatMap_cons, List.length_append, List.length_cons]
    omega

theorem length_mem_flatMap {f : α → List β} {l : List α} {a : α} (h : a ∈ l) :
    (f a).length ≤ (l.flatMap f).length := by
  rw [List.flatMap_def]
  exact (List.sublist_flatten_of_mem (List.mem_map_of_mem h)).length_le

/-! ### What readers read -/

theorem Reads.pure (a : α) : Reads (pure a : Reader α) [] a := by
  intro rest
  rfl

theorem Reads.run_bind {r : Reader α} {b : Bytes} {a : α} (h : Reads r b a) (f : α → Reader β) (rest : Bytes) :
    (r >>= f) (b ++ rest) = f a rest := by
  have hrun : (r >>= f) (b ++ rest) = (r (b ++ rest)).bind fun p => f p.1 p.2 := rfl
  rw [hrun, h, Option.bind_some]

theorem Reads.bind {r : Reader α} {f : α → Reader β} {b b' : Bytes} {a : α} {c : β}
    (hfirst : Reads r b a) (hsecond : Reads (f a) b' c) : Reads (r >>= f) (b ++ b') c := by
  intro rest
  rw [List.append_assoc, hfirst.run_bind, hsecond]

theorem Reads.map {r : Reader α} {b : Bytes} {a : α} (f : α → β) (h : Reads r b a) :
    Reads (do let x ← r; return f x) b (f a) := by
  have hread : Reads (do let x ← r; return f x) (b ++ []) (f a) := h.bind (Reads.pure (f a))
  rwa [List.append_nil] at hread

theorem reads_chunk {b : Bytes} {n : Nat} (hlength : b.length = n) : Reads (chunk n) b b := by
  intro rest
  subst hlength
  simp [chunk]

theorem reads_integer {n k : Nat} (h : n < 256 ^ k) : Reads (integer k) (pushInt n k) n := by
  have hread := (reads_chunk (length_pushInt n k)).map fromBigEndian
  rwa [fromBigEndian_pushInt, Nat.mod_eq_of_lt h] at hread

theorem reads_counted {b : Bytes} {k : Nat} (h : b.length < 256 ^ k) :
    Reads (counted k) (pushInt b.length k ++ b) b :=
  (reads_integer h).bind (reads_chunk rfl)

theorem run_remaining (f : Bytes → Reader β) (b : Bytes) : (remaining >>= f) b = f b b := rfl

theorem reads_repeated {γ : Type} {r : Reader α} {write : γ → Bytes} {value : γ → α} {l : List γ}
    (h : ∀ x ∈ l, Reads r (write x) (value x)) :
    Reads (repeated r l.length) (l.flatMap write) (l.map value) := by
  induction l with
  | nil => exact Reads.pure []
  | cons x l ih =>
    have hx := h x List.mem_cons_self
    have hrest := ih fun y hy => h y (List.mem_cons_of_mem x hy)
    rw [List.flatMap_cons]
    exact hx.bind (hrest.map fun as => value x :: as)

/-! ### Formats -/

abbrev Format (α : Type) := Bytes → α → Prop

/-- A number of `k` bytes, most significant first. -/
def Number (k : Nat) : Format Nat := fun b n => b.length = k ∧ fromBigEndian b = n

/-- `n` bytes. -/
def Block (n : Nat) : Format Bytes := fun b a => b.length = n ∧ b = a

/-- A text behind its length in `k` bytes. -/
def Text (k : Nat) : Format Bytes := fun b a => ∃ n, b = n ++ a ∧ Number k n a.length

/-- `n` values one after the other. -/
inductive Several (G : Format α) : Nat → Format (List α)
  | nil : Several G 0 [] []
  | cons {n : Nat} {b b' : Bytes} {a : α} {as : List α} (head : G b a) (tail : Several G n b' as) :
      Several G (n + 1) (b ++ b') (a :: as)

/-- `r` reads the bytes of the format and nothing else. -/
structure Recognizes (r : Reader α) (G : Format α) : Prop where
  sound : ∀ {b a rest}, r b = some (a, rest) → ∃ pre, b = pre ++ rest ∧ G pre a
  complete : ∀ {b a}, G b a → Reads r b a

theorem Recognizes.congr {r : Reader α} {G H : Format α} (h : Recognizes r G) (heq : ∀ b a, G b a ↔ H b a) :
    Recognizes r H := by
  constructor
  · intro b a rest hread
    obtain ⟨pre, hb, hG⟩ := h.sound hread
    exact ⟨pre, hb, (heq pre a).mp hG⟩
  · intro b a hH
    exact h.complete ((heq b a).mpr hH)

theorem Recognizes.pure (a : α) : Recognizes (return a : Reader α) fun b c => b = [] ∧ c = a := by
  constructor
  · intro b c rest hread
    cases hread
    exact ⟨[], rfl, rfl, rfl⟩
  · rintro b c ⟨rfl, rfl⟩
    exact Reads.pure c

theorem Recognizes.failure : Recognizes (failure : Reader α) fun _ _ => False := by
  constructor
  · intro b a rest hread
    cases hread
  · intro b a h
    exact h.elim

theorem Recognizes.bind {r : Reader α} {f : α → Reader β} {G : Format α} {H : α → Format β}
    (h : Recognizes r G) (hf : ∀ a, Recognizes (f a) (H a)) :
    Recognizes (r >>= f) fun b c => ∃ p q a, b = p ++ q ∧ G p a ∧ H a q c := by
  constructor
  · intro b c rest hread
    have hrun : (r >>= f) b = (r b).bind fun p => f p.1 p.2 := rfl
    rw [hrun, Option.bind_eq_some_iff] at hread
    obtain ⟨⟨a, b'⟩, hfirst, hsecond⟩ := hread
    obtain ⟨p, hb, hG⟩ := h.sound hfirst
    obtain ⟨q, hb', hH⟩ := (hf a).sound hsecond
    refine ⟨p ++ q, ?_, p, q, a, rfl, hG, hH⟩
    rw [hb, List.append_assoc]
    exact congrArg (p ++ ·) hb'
  · rintro b c ⟨p, q, a, rfl, hG, hH⟩
    exact (h.complete hG).bind ((hf a).complete hH)

theorem recognizes_chunk (n : Nat) : Recognizes (chunk n) (Block n) := by
  constructor
  · intro b a rest hread
    unfold chunk at hread
    split at hread
    next hle =>
      cases hread
      exact ⟨b.take n, (List.take_append_drop n b).symm, List.length_take_of_le hle, rfl⟩
    next => cases hread
  · rintro b a ⟨hlength, rfl⟩
    exact reads_chunk hlength

theorem recognizes_integer (k : Nat) : Recognizes (integer k) (Number k) := by
  apply ((recognizes_chunk k).bind fun b => Recognizes.pure (fromBigEndian b)).congr
  intro b n
  constructor
  · rintro ⟨p, q, a, rfl, ⟨hlength, rfl⟩, rfl, rfl⟩
    rw [List.append_nil]
    exact ⟨hlength, rfl⟩
  · rintro ⟨hlength, rfl⟩
    exact ⟨b, [], b, (List.append_nil b).symm, ⟨hlength, rfl⟩, rfl, rfl⟩

theorem recognizes_counted (k : Nat) : Recognizes (counted k) (Text k) := by
  apply ((recognizes_integer k).bind recognizes_chunk).congr
  intro b a
  constructor
  · rintro ⟨p, q, n, rfl, hnumber, rfl, rfl⟩
    exact ⟨p, rfl, hnumber⟩
  · rintro ⟨n, rfl, hnumber⟩
    exact ⟨n, a, a.length, rfl, hnumber, rfl, rfl⟩

theorem recognizes_repeated {r : Reader α} {G : Format α} (h : Recognizes r G) (n : Nat) :
    Recognizes (repeated r n) (Several G n) := by
  induction n with
  | zero =>
    apply (Recognizes.pure []).congr
    intro b as
    constructor
    · rintro ⟨rfl, rfl⟩
      exact Several.nil
    · intro hseveral
      cases hseveral
      exact ⟨rfl, rfl⟩
  | succ n ih =>
    apply (h.bind fun a => ih.bind fun as => Recognizes.pure (a :: as)).congr
    intro b as
    constructor
    · rintro ⟨p, q, a, rfl, hG, p', q', as', rfl, htail, rfl, rfl⟩
      rw [List.append_nil]
      exact Several.cons hG htail
    · intro hseveral
      cases hseveral with
      | cons head tail => exact ⟨_, _, _, rfl, head, _, [], _, (List.append_nil _).symm, tail, rfl, rfl⟩

theorem Several.length {G : Format α} {n : Nat} {b : Bytes} {as : List α} (h : Several G n b as) :
    as.length = n := by
  induction h with
  | nil => rfl
  | cons head tail ih => rw [List.length_cons, ih]

theorem recognizes_several {r : Reader α} {G : Format α} (h : Recognizes r G) (k : Nat) :
    Recognizes (do let n ← integer k; repeated r n) fun b as =>
      ∃ count rest, b = count ++ rest ∧ Number k count as.length ∧ Several G as.length rest as := by
  apply ((recognizes_integer k).bind fun n => recognizes_repeated h n).congr
  intro b as
  constructor
  · rintro ⟨count, rest, n, rfl, hcount, hseveral⟩
    cases hseveral.length
    exact ⟨count, rest, rfl, hcount, hseveral⟩
  · rintro ⟨count, rest, rfl, hcount, hseveral⟩
    exact ⟨count, rest, as.length, rfl, hcount, hseveral⟩

end HieraChain.Wire
