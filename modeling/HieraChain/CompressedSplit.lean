/-
  HieraChain/CompressedSplit.lean
  ===============================
  **Splitting at a separator where neighbouring separators count as one**
  (`boost::split` with `token_compress_on`).

  Texts that were joined by separators come back without the empty ones between
  the first and the last (`split_intercalate`).
-/
import Mathlib.Data.List.Basic

namespace HieraChain.CompressedSplit

variable {α : Type} [DecidableEq α] (sep : α)

def split : List α → List (List α)
  | [] => [[]]
  | a :: rest =>
    if a = sep then if rest.head? = some sep then split rest else [] :: split rest
    else
      match split rest with
      | [] => [[a]]
      | token :: tokens => (a :: token) :: tokens

/-! ### The pieces -/

theorem split_cons_of_ne {a : α} (h : a ≠ sep) {rest token : List α} {tokens : List (List α)}
    (hrest : split sep rest = token :: tokens) : split sep (a :: rest) = (a :: token) :: tokens := by
  rw [split, if_neg h, hrest]

theorem split_sep_sep {rest : List α} (h : rest.head? = some sep) : split sep (sep :: rest) = split sep rest := by
  rw [split, if_pos rfl, if_pos h]

theorem split_sep {rest : List α} (h : rest.head? ≠ some sep) : split sep (sep :: rest) = [] :: split sep rest := by
  rw [split, if_pos rfl, if_neg h]

theorem split_append {v : List α} (hv : sep ∉ v) {t token : List α} {tokens : List (List α)}
    (ht : split sep t = token :: tokens) : split sep (v ++ t) = (v ++ token) :: tokens := by
  induction v with
  | nil => exact ht
  | cons a v ih =>
    have ha : a ≠ sep := fun heq => hv (heq ▸ List.mem_cons_self)
    exact split_cons_of_ne sep ha (ih fun hmem => hv (List.mem_cons_of_mem a hmem))

theorem split_of_notMem {v : List α} (hv : sep ∉ v) : split sep v = [v] := by
  have h := split_append sep hv (show split sep [] = [] :: [] from rfl)
  rwa [List.append_nil] at h

/-! ### Joined texts -/

def behind : List (List α) → List (List α)
  | [] => []
  | [w] => [w]
  | w :: w' :: ws => if w = [] then behind (w' :: ws) else w :: behind (w' :: ws)

theorem split_intercalate {v : List α} {ws : List (List α)} (hv : sep ∉ v) (hws : ∀ w ∈ ws, sep ∉ w) :
    split sep ([sep].intercalate (v :: ws)) = v :: behind ws := by
  induction ws generalizing v with
  | nil =>
    rw [List.intercalate_singleton, split_of_notMem sep hv]
    rfl
  | cons w ws ih =>
    have hw : sep ∉ w := hws w List.mem_cons_self
    have hrest := ih hw fun w' hw' => hws w' (List.mem_cons_of_mem w hw')
    have hjoin : [sep].intercalate (v :: w :: ws) = v ++ (sep :: [sep].intercalate (w :: ws)) := by
      simp [List.intercalate]
    rw [hjoin]
    cases ws with
    | nil =>
      have hhead : w.head? ≠ some sep := fun hhead => hw (List.mem_of_mem_head? hhead)
      rw [List.intercalate_singleton] at hrest ⊢
      rw [split_append sep hv (split_sep sep hhead), List.append_nil, hrest]
      rfl
    | cons w' ws =>
      have hjoin' : [sep].intercalate (w :: w' :: ws) = w ++ (sep :: [sep].intercalate (w' :: ws)) := by
        simp [List.intercalate]
      by_cases hempty : w = []
      · subst hempty
        have hhead : ([sep].intercalate ([] :: w' :: ws)).head? = some sep := by
          rw [hjoin']
          rfl
        rw [split_append sep hv ((split_sep_sep sep hhead).trans hrest), List.append_nil, behind, if_pos rfl]
      · have hhead : ([sep].intercalate (w :: w' :: ws)).head? ≠ some sep := by
          obtain ⟨a, tail, rfl⟩ := List.exists_cons_of_ne_nil hempty
          rw [hjoin']
          intro heq
          have ha : a = sep := Option.some.inj heq
          exact hw (ha ▸ List.mem_cons_self)
        rw [split_append sep hv (split_sep sep hhead), List.append_nil, hrest, behind, if_neg hempty]

omit [DecidableEq α] in
theorem length_behind_le (ws : List (List α)) : (behind ws).length ≤ ws.length := by
  induction ws using behind.induct with
  | case1 => exact Nat.le_refl _
  | case2 w => exact Nat.le_refl _
  | case3 w' ws ih =>
    rw [behind, if_pos rfl]
    exact Nat.le_succ_of_le ih
  | case4 w w' ws hne ih =>
    rw [behind, if_neg hne]
    exact Nat.succ_le_succ ih

omit [DecidableEq α] in
theorem behind_of_ne_nil {ws : List (List α)} (h : ∀ w ∈ ws.dropLast, w ≠ []) : behind ws = ws := by
  induction ws using behind.induct with
  | case1 => rfl
  | case2 w => rfl
  | case3 w' ws ih => exact absurd rfl (h [] List.mem_cons_self)
  | case4 w w' ws hne ih =>
    rw [behind, if_neg hne, ih fun v hv => h v (List.mem_cons_of_mem w hv)]

omit [DecidableEq α] in
theorem length_behind_lt {ws : List (List α)} (h : ∃ w ∈ ws.dropLast, w = []) : (behind ws).length < ws.length := by
  induction ws using behind.induct with
  | case1 =>
    obtain ⟨w, hw, -⟩ := h
    cases hw
  | case2 w =>
    obtain ⟨w, hw, -⟩ := h
    cases hw
  | case3 w' ws ih =>
    rw [behind, if_pos rfl]
    exact Nat.lt_succ_of_le (length_behind_le _)
  | case4 w w' ws hne ih =>
    obtain ⟨v, hv, hnil⟩ := h
    rw [behind, if_neg hne]
    rcases List.mem_cons.mp hv with rfl | hv
    · exact absurd hnil hne
    · exact Nat.succ_lt_succ (ih ⟨v, hv, hnil⟩)

theorem length_split_intercalate_iff {v : List α} {ws : List (List α)} (hv : sep ∉ v) (hws : ∀ w ∈ ws, sep ∉ w) :
    (v :: ws).length ≤ (split sep ([sep].intercalate (v :: ws))).length ↔ ∀ w ∈ ws.dropLast, w ≠ [] := by
  rw [split_intercalate sep hv hws, List.length_cons, List.length_cons, Nat.add_le_add_iff_right]
  constructor
  · intro hle w hw hnil
    exact absurd (length_behind_lt ⟨w, hw, hnil⟩) (Nat.not_lt.mpr hle)
  · intro h
    exact Nat.le_of_eq (congrArg List.length (behind_of_ne_nil h)).symm

end HieraChain.CompressedSplit
