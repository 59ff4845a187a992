/-
  HieraChain/BufferWrites.lean
  ============================
  **Writes to a buffer in any order.**

  `memcpy` copies a block into a buffer and fails where it would leave it.
  Writes that all agree with one intended content give that content wherever
  they reach, whatever their order (`writes_agree`); when they reach every
  position the buffer is the content (`writes_eq`).
-/
import Mathlib.Data.List.Basic
import Mathlib.Data.List.Perm.Basic

namespace HieraChain.BufferWrites

variable {α : Type}

def memcpy (buffer : List α) (pos : Nat) (block : List α) : Option (List α) :=
  if pos + block.length ≤ buffer.length then
    some (buffer.take pos ++ (block ++ buffer.drop (pos + block.length)))
  else none

def writeAll (buffer : List α) (writes : List (Nat × List α)) : Option (List α) :=
  writes.foldlM (fun b w => memcpy b w.1 w.2) buffer

/-- The write puts what `content` has at its place. -/
def Agrees (content : List α) (w : Nat × List α) : Prop :=
  ∃ before after, content = before ++ (w.2 ++ after) ∧ before.length = w.1

def Covers (w : Nat × List α) (p : Nat) : Prop := w.1 ≤ p ∧ p < w.1 + w.2.length

theorem memcpy_spec {buffer content : List α} {w : Nat × List α} (hw : Agrees content w)
    (hlen : buffer.length = content.length) :
    ∃ buffer', memcpy buffer w.1 w.2 = some buffer' ∧ buffer'.length = content.length
      ∧ ∀ p, (Covers w p → buffer'[p]? = content[p]?) ∧ (¬ Covers w p → buffer'[p]? = buffer[p]?) := by
  obtain ⟨before, after, rfl, hpos⟩ := hw
  rw [List.length_append, List.length_append] at hlen
  have hfit : w.1 + w.2.length ≤ buffer.length := by omega
  have htake : (buffer.take w.1).length = w.1 := List.length_take_of_le (by omega)
  refine ⟨_, if_pos hfit, ?_, fun p => ⟨fun hin => ?_, fun hout => ?_⟩⟩
  · simp only [List.length_append, List.length_drop, htake]
    omega
  · obtain ⟨hlo, hhi⟩ := hin
    rw [List.getElem?_append_right (by rw [htake]; exact hlo), htake,
      List.getElem?_append_left (by omega), List.getElem?_append_right (by omega), hpos,
      List.getElem?_append_left (by omega)]
  · rcases Nat.lt_or_ge p w.1 with hlt | hge
    · rw [List.getElem?_append_left (by rw [htake]; exact hlt), List.getElem?_take_of_lt hlt]
    · have hafter : w.1 + w.2.length ≤ p := by
        by_contra hlt
        exact hout ⟨hge, by omega⟩
      rw [List.getElem?_append_right (by rw [htake]; exact hge), htake,
        List.getElem?_append_right (by omega), List.getElem?_drop]
      congr 1
      omega

/-- **Writes that agree with a content commute**: each position that one of
    them reaches ends as in the content. -/
theorem writes_agree {content : List α} (writes : List (Nat × List α))
    (hall : ∀ w ∈ writes, Agrees content w) {buffer : List α} (hlen : buffer.length = content.length) :
    ∃ buffer', writeAll buffer writes = some buffer' ∧ buffer'.length = content.length
      ∧ ∀ p, ((∃ w ∈ writes, Covers w p) ∨ buffer[p]? = content[p]?) → buffer'[p]? = content[p]? := by
  induction writes generalizing buffer with
  | nil =>
    refine ⟨buffer, rfl, hlen, fun p hp => ?_⟩
    rcases hp with ⟨w, hw, -⟩ | hp
    · cases hw
    · exact hp
  | cons w writes ih =>
    obtain ⟨buffer₁, hcopy, hlen₁, hone⟩ := memcpy_spec (hall w List.mem_cons_self) hlen
    obtain ⟨buffer', hrun, hlen', hrest⟩ := ih (fun w' hw' => hall w' (List.mem_cons_of_mem _ hw')) hlen₁
    refine ⟨buffer', ?_, hlen', fun p hp => hrest p ?_⟩
    · rw [writeAll, List.foldlM_cons, hcopy]
      exact hrun
    · by_cases hcov : Covers w p
      · exact Or.inr ((hone p).1 hcov)
      · rcases hp with ⟨w', hw', hcov'⟩ | hp
        · rcases List.mem_cons.mp hw' with rfl | hw'
          · exact absurd hcov' hcov
          · exact Or.inl ⟨w', hw', hcov'⟩
        · exact Or.inr (((hone p).2 hcov).trans hp)

/-- **Writes that agree with a content and reach all of it leave the content.** -/
theorem writes_eq {content : List α} {writes : List (Nat × List α)}
    (hall : ∀ w ∈ writes, Agrees content w) {buffer : List α} (hlen : buffer.length = content.length)
    (hcover : ∀ p < content.length, ∃ w ∈ writes, Covers w p) :
    writeAll buffer writes = some content := by
  obtain ⟨buffer', hrun, hlen', hagree⟩ := writes_agree writes hall hlen
  rw [hrun]
  congr 1
  refine List.ext_getElem? fun p => ?_
  rcases Nat.lt_or_ge p content.length with hlt | hge
  · exact hagree p (Or.inl (hcover p hlt))
  · rw [List.getElem?_eq_none (by omega), List.getElem?_eq_none hge]

/-! ### Blocks side by side -/

/-- The writes of consecutive blocks from `start` on. -/
def consecutive (start : Nat) : List (List α) → List (Nat × List α)
  | [] => []
  | b :: bs => (start, b) :: consecutive (start + b.length) bs

theorem consecutive_agrees {content before after : List α} {bs : List (List α)}
    (h : content = before ++ (bs.flatten ++ after)) :
    ∀ w ∈ consecutive before.length bs, Agrees content w := by
  induction bs generalizing before with
  | nil => exact nofun
  | cons b bs ih =>
    rw [List.flatten_cons, List.append_assoc] at h
    intro w hw
    rcases List.mem_cons.mp hw with rfl | hw
    · exact ⟨before, bs.flatten ++ after, h, rfl⟩
    · have hrest : content = (before ++ b) ++ (bs.flatten ++ after) := by
        rw [h, List.append_assoc]
      rw [← List.length_append] at hw
      exact ih hrest w hw

theorem consecutive_covers {bs : List (List α)} {start p : Nat} (hlo : start ≤ p)
    (hhi : p < start + bs.flatten.length) : ∃ w ∈ consecutive start bs, Covers w p := by
  induction bs generalizing start with
  | nil =>
    rw [List.flatten_nil, List.length_nil] at hhi
    omega
  | cons b bs ih =>
    rw [List.flatten_cons, List.length_append] at hhi
    rcases Nat.lt_or_ge p (start + b.length) with hlt | hge
    · exact ⟨(start, b), List.mem_cons_self, hlo, hlt⟩
    · obtain ⟨w, hw, hcov⟩ := ih hge (by omega)
      exact ⟨w, List.mem_cons_of_mem _ hw, hcov⟩

/-- **Blocks side by side fill the buffer, in whatever order they are written.** -/
theorem writeAll_consecutive {bs : List (List α)} {calls : List (Nat × List α)}
    (hcalls : calls.Perm (consecutive 0 bs)) {buffer : List α}
    (hlen : buffer.length = bs.flatten.length) : writeAll buffer calls = some bs.flatten := by
  have hcontent : bs.flatten = [] ++ (bs.flatten ++ []) := by simp
  apply writes_eq
  · intro w hw
    exact consecutive_agrees hcontent w (hcalls.mem_iff.mp hw)
  · exact hlen
  · intro p hp
    obtain ⟨w, hw, hcov⟩ := consecutive_covers (Nat.zero_le p) (by simpa using hp)
    exact ⟨w, hcalls.mem_iff.mpr hw, hcov⟩

end HieraChain.BufferWrites
