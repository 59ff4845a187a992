/-
  HieraChain/SpacedText.lean
  ==========================
  **Texts of tokens with blanks around them.**

  A text spreads a list of tokens when it has the tokens in order and nothing
  but blanks before, between and after them (`Spread`).  Spreading is kept when
  the blanks at the ends of the text are dropped or added (`spread_trim_iff`).
-/
import Mathlib.Data.List.DropRight
import Mathlib.Data.List.Forall2

namespace HieraChain.SpacedText

variable {α : Type} (blank : α → Bool)

def Blank (s : List α) : Prop := ∀ x ∈ s, blank x = true

instance (s : List α) : Decidable (Blank blank s) := inferInstanceAs (Decidable (∀ x ∈ s, _))

def trim (s : List α) : List α := (s.dropWhile blank).rdropWhile blank

def Spread : List (List α) → List α → Prop
  | [], s => Blank blank s
  | t :: ts, s => ∃ a r, Blank blank a ∧ Spread ts r ∧ s = a ++ (t ++ r)

def Solid (s : List α) : Prop := ∀ x ∈ s, blank x = false

variable {blank}

/-! ### Trimming -/

theorem Blank.nil : Blank blank [] := fun _ h => absurd h List.not_mem_nil

theorem blank_append {a b : List α} : Blank blank (a ++ b) ↔ Blank blank a ∧ Blank blank b :=
  List.forall_mem_append

theorem blank_reverse {a : List α} : Blank blank a.reverse ↔ Blank blank a := by
  simp [Blank]

theorem dropWhile_of_blank {a : List α} (h : Blank blank a) : a.dropWhile blank = [] :=
  List.dropWhile_eq_nil_iff.mpr h

theorem dropWhile_of_solid {s : List α} (h : Solid blank s) : s.dropWhile blank = s := by
  cases s with
  | nil => rfl
  | cons x s => simp [h x List.mem_cons_self]

theorem rdropWhile_append_of_blank {b : List α} (hb : Blank blank b) (s : List α) :
    (s ++ b).rdropWhile blank = s.rdropWhile blank := by
  rw [List.rdropWhile, List.reverse_append, List.dropWhile_append_of_pos (blank_reverse.mpr hb), List.rdropWhile]

theorem trim_append_of_blank {a b : List α} (ha : Blank blank a) (hb : Blank blank b) (s : List α) :
    trim blank (a ++ (s ++ b)) = trim blank s := by
  rw [trim, List.dropWhile_append_of_pos ha, List.dropWhile_append, trim]
  split
  next hs =>
    rw [dropWhile_of_blank hb, List.isEmpty_iff.mp hs]
  next => exact rdropWhile_append_of_blank hb _

theorem exists_trim (blank : α → Bool) (s : List α) :
    ∃ a b, Blank blank a ∧ Blank blank b ∧ s = a ++ (trim blank s ++ b) := by
  refine ⟨s.takeWhile blank, (s.dropWhile blank).rtakeWhile blank, fun x hx => List.mem_takeWhile_imp hx,
    fun x hx => List.mem_rtakeWhile_imp hx, ?_⟩
  rw [trim, List.rdropWhile_append_rtakeWhile, List.takeWhile_append_dropWhile]

theorem trim_trim (s : List α) : trim blank (trim blank s) = trim blank s := by
  obtain ⟨a, b, ha, hb, hs⟩ := exists_trim blank s
  have htrim := trim_append_of_blank ha hb (trim blank s)
  rw [← hs] at htrim
  exact htrim.symm

theorem trim_of_solid {s : List α} (h : Solid blank s) : trim blank s = s := by
  have hrev : Solid blank s.reverse := fun x hx => h x (List.mem_reverse.mp hx)
  rw [trim, dropWhile_of_solid h, List.rdropWhile, dropWhile_of_solid hrev, List.reverse_reverse]

theorem trim_eq_nil_iff {s : List α} : trim blank s = [] ↔ Blank blank s := by
  constructor
  · intro htrim
    obtain ⟨a, b, ha, hb, hs⟩ := exists_trim blank s
    rw [hs, htrim, List.nil_append]
    exact blank_append.mpr ⟨ha, hb⟩
  · intro hs
    rw [trim, dropWhile_of_blank hs, List.rdropWhile_nil]

theorem eq_nil_of_trim_append {u b : List α} (h : trim blank (u ++ b) = u ++ b) (hb : Blank blank b) : b = [] := by
  have hcut := trim_append_of_blank Blank.nil hb u
  rw [List.nil_append, h] at hcut
  have hlen : (trim blank u).length ≤ u.length := by
    rw [trim]
    exact ((List.rdropWhile_prefix _ _).length_le).trans (List.dropWhile_sublist _).length_le
  have hsum := congrArg List.length hcut
  rw [List.length_append] at hsum
  exact List.length_eq_zero_iff.mp (by omega)

/-! ### Spreading -/

theorem spread_singleton_of_trim (s : List α) : Spread blank [trim blank s] s := exists_trim blank s

theorem Spread.append_left {ts : List (List α)} {a s : List α} (ha : Blank blank a) (h : Spread blank ts s) :
    Spread blank ts (a ++ s) := by
  cases ts with
  | nil => exact blank_append.mpr ⟨ha, h⟩
  | cons t ts =>
    obtain ⟨a', r, ha', hr, rfl⟩ := h
    exact ⟨a ++ a', r, blank_append.mpr ⟨ha, ha'⟩, hr, (List.append_assoc _ _ _).symm⟩

theorem spread_append {ts us : List (List α)} {s : List α} :
    Spread blank (ts ++ us) s ↔ ∃ a b, Spread blank ts a ∧ Spread blank us b ∧ s = a ++ b := by
  induction ts generalizing s with
  | nil =>
    constructor
    · intro h
      exact ⟨[], s, Blank.nil, h, rfl⟩
    · rintro ⟨a, b, ha, hb, rfl⟩
      exact hb.append_left ha
  | cons t ts ih =>
    constructor
    · rintro ⟨a, r, ha, hr, rfl⟩
      obtain ⟨x, y, hx, hy, rfl⟩ := ih.mp hr
      exact ⟨a ++ (t ++ x), y, ⟨a, x, ha, hx, rfl⟩, hy, by simp only [List.append_assoc]⟩
    · rintro ⟨_, y, ⟨a, x, ha, hx, rfl⟩, hy, rfl⟩
      exact ⟨a, x ++ y, ha, ih.mpr ⟨x, y, hx, hy, rfl⟩, by simp only [List.append_assoc]⟩

theorem Spread.append_right {ts : List (List α)} {s b : List α} (hb : Blank blank b) (h : Spread blank ts s) :
    Spread blank ts (s ++ b) := by
  have happ : Spread blank (ts ++ []) (s ++ b) := spread_append.mpr ⟨s, b, h, hb, rfl⟩
  rwa [List.append_nil] at happ

theorem spread_intercalate {tss : List (List (List α))} {sep s : List α} (h : tss ≠ []) :
    Spread blank ([sep].intercalate tss) s ↔
      ∃ pieces, List.Forall₂ (Spread blank) tss pieces ∧ s = sep.intercalate pieces := by
  induction tss generalizing s with
  | nil => exact absurd rfl h
  | cons ts tss ih =>
    cases tss with
    | nil =>
      rw [List.intercalate_singleton]
      constructor
      · intro hs
        exact ⟨[s], .cons hs .nil, (List.intercalate_singleton).symm⟩
      · rintro ⟨pieces, hpieces, rfl⟩
        cases hpieces with
        | cons hpiece hnil =>
          cases hnil
          rwa [List.intercalate_singleton]
    | cons ts' tss =>
      rw [List.intercalate_cons_cons, List.append_assoc, spread_append]
      constructor
      · rintro ⟨a, _, ha, ⟨x, r, hx, hr, rfl⟩, rfl⟩
        obtain ⟨pieces, hpieces, rfl⟩ := (ih (List.cons_ne_nil _ _)).mp hr
        refine ⟨(a ++ x) :: pieces, .cons (ha.append_right hx) hpieces, ?_⟩
        cases hpieces with
        | cons hpiece hrest =>
          rw [List.intercalate_cons_cons]
          simp only [List.append_assoc]
      · rintro ⟨pieces, hpieces, rfl⟩
        cases hpieces with
        | cons hpiece hrest =>
          rename_i piece pieces
          have hmore : pieces ≠ [] := by
            rintro rfl
            cases hrest
          obtain ⟨piece', pieces', rfl⟩ := List.exists_cons_of_ne_nil hmore
          refine ⟨piece, sep ++ sep.intercalate (piece' :: pieces'), hpiece, ?_, ?_⟩
          · exact ⟨[], _, Blank.nil, (ih (List.cons_ne_nil _ _)).mpr ⟨_, hrest, rfl⟩, rfl⟩
          · rw [List.intercalate_cons_cons, List.append_assoc]

theorem Spread.mem {ts : List (List α)} {s : List α} {x : α} (h : Spread blank ts s) (hx : x ∈ s) :
    blank x = true ∨ ∃ t ∈ ts, x ∈ t := by
  induction ts generalizing s with
  | nil => exact .inl (h x hx)
  | cons t ts ih =>
    obtain ⟨a, r, ha, hr, rfl⟩ := h
    rcases List.mem_append.mp hx with hmem | hmem
    · exact .inl (ha x hmem)
    rcases List.mem_append.mp hmem with hmem | hmem
    · exact .inr ⟨t, List.mem_cons_self, hmem⟩
    rcases ih hr hmem with hblank | ⟨u, hu, hmem⟩
    · exact .inl hblank
    · exact .inr ⟨u, List.mem_cons_of_mem _ hu, hmem⟩

theorem Spread.reverse {ts : List (List α)} {s : List α} (h : Spread blank ts s) :
    Spread blank (ts.map List.reverse).reverse s.reverse := by
  induction ts generalizing s with
  | nil => exact blank_reverse.mpr h
  | cons t ts ih =>
    obtain ⟨a, r, ha, hr, rfl⟩ := h
    rw [List.map_cons, List.reverse_cons, spread_append]
    refine ⟨r.reverse, t.reverse ++ a.reverse, ih hr, ⟨[], a.reverse, Blank.nil, blank_reverse.mpr ha, rfl⟩, ?_⟩
    simp only [List.reverse_append, List.append_assoc]

theorem Spread.dropWhile {ts : List (List α)} {s : List α} (hts : ∀ t ∈ ts, Solid blank t) (h : Spread blank ts s) :
    Spread blank ts (s.dropWhile blank) := by
  induction ts generalizing s with
  | nil =>
    rw [dropWhile_of_blank h]
    exact Blank.nil
  | cons t ts ih =>
    obtain ⟨a, r, ha, hr, rfl⟩ := h
    rw [List.dropWhile_append_of_pos ha]
    cases t with
    | nil => exact ⟨[], _, Blank.nil, ih (fun u hu => hts u (List.mem_cons_of_mem _ hu)) hr, rfl⟩
    | cons x t =>
      have hx : blank x = false := hts _ List.mem_cons_self x List.mem_cons_self
      rw [List.cons_append, List.dropWhile_cons, hx]
      exact ⟨[], r, Blank.nil, hr, rfl⟩

theorem Spread.rdropWhile {ts : List (List α)} {s : List α} (hts : ∀ t ∈ ts, Solid blank t)
    (h : Spread blank ts s) : Spread blank ts (s.rdropWhile blank) := by
  have hrev : ∀ t ∈ (ts.map List.reverse).reverse, Solid blank t := by
    intro t ht x hx
    obtain ⟨u, hu, rfl⟩ := List.mem_map.mp (List.mem_reverse.mp ht)
    exact hts u hu x (List.mem_reverse.mp hx)
  have hback := (h.reverse.dropWhile hrev).reverse
  have hmap : ts.map (List.reverse ∘ List.reverse) = ts := by
    refine (List.map_congr_left fun t _ => ?_).trans (List.map_id ts)
    exact List.reverse_reverse t
  rw [List.map_reverse, List.reverse_reverse, List.map_map, hmap] at hback
  exact hback

/-- **Blanks at the ends of a text do not matter.** -/
theorem spread_trim_iff {ts : List (List α)} {s : List α} (hts : ∀ t ∈ ts, Solid blank t) :
    Spread blank ts (trim blank s) ↔ Spread blank ts s := by
  constructor
  · intro h
    obtain ⟨a, b, ha, hb, hs⟩ := exists_trim blank s
    rw [hs]
    exact (h.append_right hb).append_left ha
  · intro h
    exact (h.dropWhile hts).rdropWhile hts

end HieraChain.SpacedText
