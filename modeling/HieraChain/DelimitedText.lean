/-
  HieraChain/DelimitedText.lean
  =============================
  **Texts written one after the other without lengths or separators.**

  A record is a list of names with values, closed by a mark.  Names and values
  are joined without anything between them, so a value ends where the next name
  begins.  When every value shows the next name only at its end, and the last
  one holds no mark, the joined text determines the records (`records_inj`).
-/
import Mathlib.Data.List.Basic

namespace HieraChain.DelimitedText

variable {α : Type}

/-- After `v`, the text `d` shows for the first time at the end of `v`. -/
def EndsAt (v d : List α) : Prop := ∀ a b, v ++ d = a ++ (d ++ b) → b = []

theorem append_inj_of_endsAt {v v' d r r' : List α} (hv : EndsAt v d) (hv' : EndsAt v' d)
    (h : v ++ (d ++ r) = v' ++ (d ++ r')) : v = v' ∧ r = r' := by
  have hshort : ∀ {w w' s s' : List α}, EndsAt w' d → w ++ (d ++ s) = w' ++ (d ++ s') →
      ∀ a, w' = w ++ a → a = [] := by
    intro w w' s s' hw' heq a ha
    rw [ha, List.append_assoc] at heq
    have hshift : d ++ s = a ++ (d ++ s') := List.append_cancel_left heq
    -- The text shows in `w' ++ d` already at the end of `w`.
    have hshow : a ++ d = d ++ s.take a.length := by
      have htake := congrArg (List.take (a.length + d.length)) hshift
      rw [List.take_length_add_append, List.take_left, Nat.add_comm, List.take_length_add_append] at htake
      exact htake.symm
    have hend : s.take a.length = [] := by
      apply hw' w
      rw [ha, List.append_assoc, hshow]
    have hlen := congrArg List.length hshow
    rw [hend, List.length_append, List.append_nil] at hlen
    exact List.length_eq_zero_iff.mp (by omega)
  have hsame : v = v' := by
    rcases List.append_eq_append_iff.mp h with ⟨a, ha, -⟩ | ⟨a, ha, -⟩
    · rw [hshort hv' h a ha, List.append_nil] at ha
      exact ha.symm
    · rw [hshort hv h.symm a ha, List.append_nil] at ha
      exact ha
  subst hsame
  exact ⟨rfl, List.append_cancel_left (List.append_cancel_left h)⟩

theorem append_inj_of_mark {mark : α → Prop} {v v' r r' : List α} {s s' : α}
    (hv : ∀ x ∈ v, ¬ mark x) (hv' : ∀ x ∈ v', ¬ mark x) (hs : mark s) (hs' : mark s')
    (h : v ++ s :: r = v' ++ s' :: r') : v = v' ∧ s = s' ∧ r = r' := by
  induction v generalizing v' with
  | nil =>
    cases v' with
    | nil =>
      obtain ⟨hmark, hrest⟩ := List.cons.inj h
      exact ⟨rfl, hmark, hrest⟩
    | cons x v' =>
      obtain ⟨rfl, -⟩ := List.cons.inj h
      exact absurd hs (hv' _ List.mem_cons_self)
  | cons x v ih =>
    cases v' with
    | nil =>
      obtain ⟨rfl, -⟩ := List.cons.inj h
      exact absurd hs' (hv _ List.mem_cons_self)
    | cons y v' =>
      obtain ⟨rfl, htail⟩ := List.cons.inj h
      obtain ⟨rfl, hmark, hrest⟩ := ih (fun z hz => hv z (List.mem_cons_of_mem _ hz))
        (fun z hz => hv' z (List.mem_cons_of_mem _ hz)) htail
      exact ⟨rfl, hmark, hrest⟩

theorem endsAt_singleton {v : List α} {x : α} (h : x ∉ v) : EndsAt v [x] := by
  intro a b hab
  rcases List.eq_nil_or_concat b with rfl | ⟨b, y, rfl⟩
  · rfl
  · rw [List.concat_eq_append, ← List.append_assoc, ← List.append_assoc] at hab
    obtain ⟨rfl, -⟩ := List.append_inj' hab rfl
    simp at h

/-! ### Records -/

def Delimited (mark : α → Prop) : List (List α × List α) → Prop
  | [] => True
  | [f] => ∀ x ∈ f.2, ¬ mark x
  | f :: g :: fields => EndsAt f.2 g.1 ∧ Delimited mark (g :: fields)

def recordText : List (List α × List α) → α → List α
  | [], s => [s]
  | f :: fields, s => f.1 ++ (f.2 ++ recordText fields s)

theorem recordText_ne_nil (fields : List (List α × List α)) (s : α) : recordText fields s ≠ [] := by
  induction fields with
  | nil => simp [recordText]
  | cons f fields ih => simp [recordText, ih]

theorem record_inj {mark : α → Prop} {fields fields' : List (List α × List α)} {s s' : α}
    {r r' : List α} (hnames : fields.map Prod.fst = fields'.map Prod.fst)
    (hd : Delimited mark fields) (hd' : Delimited mark fields') (hs : mark s) (hs' : mark s')
    (h : recordText fields s ++ r = recordText fields' s' ++ r') :
    fields = fields' ∧ s = s' ∧ r = r' := by
  induction fields generalizing fields' with
  | nil =>
    obtain rfl : fields' = [] := by simpa using hnames.symm
    simp only [recordText, List.cons_append, List.nil_append, List.cons.injEq] at h
    exact ⟨rfl, h⟩
  | cons f fields ih =>
    cases fields' with
    | nil => cases hnames
    | cons f' fields' =>
      simp only [List.map_cons, List.cons.injEq] at hnames
      obtain ⟨hname, hrest⟩ := hnames
      simp only [recordText, List.append_assoc, hname] at h
      have hvalue := List.append_cancel_left h
      cases fields with
      | nil =>
        obtain rfl : fields' = [] := by simpa using hrest.symm
        simp only [recordText, List.cons_append, List.nil_append] at hvalue
        obtain ⟨hv, hmark, hr⟩ := append_inj_of_mark hd hd' hs hs' hvalue
        exact ⟨by rw [Prod.ext hname hv], hmark, hr⟩
      | cons g fields =>
        cases fields' with
        | nil => cases hrest
        | cons g' fields' =>
          obtain ⟨hend, hd⟩ := hd
          obtain ⟨hend', hd'⟩ := hd'
          have hname' : g.1 = g'.1 := (List.cons.inj hrest).1
          rw [← hname'] at hend'
          -- Split off the next name, which ends the value on both sides.
          have hsplit : f.2 ++ (g.1 ++ (g.2 ++ (recordText fields s ++ r)))
              = f'.2 ++ (g.1 ++ (g'.2 ++ (recordText fields' s' ++ r'))) := by
            simpa only [recordText, List.append_assoc, hname'] using hvalue
          obtain ⟨hv, htail⟩ := append_inj_of_endsAt hend hend' hsplit
          have hnext : recordText (g :: fields) s ++ r = recordText (g' :: fields') s' ++ r' := by
            simp only [recordText, List.append_assoc, hname', htail]
          obtain ⟨hfields, hmark, hr⟩ := ih hrest hd hd' hnext
          exact ⟨by rw [Prod.ext hname hv, hfields], hmark, hr⟩

/-- **Delimited records of the same names are determined by their joined text.** -/
theorem records_inj {mark : α → Prop} {rs rs' : List (List (List α × List α) × α)}
    (hnames : ∀ x ∈ rs, ∀ y ∈ rs', x.1.map Prod.fst = y.1.map Prod.fst)
    (h : ∀ x ∈ rs, Delimited mark x.1 ∧ mark x.2) (h' : ∀ x ∈ rs', Delimited mark x.1 ∧ mark x.2)
    (htext : (rs.map fun x => recordText x.1 x.2).flatten = (rs'.map fun x => recordText x.1 x.2).flatten) :
    rs = rs' := by
  induction rs generalizing rs' with
  | nil =>
    cases rs' with
    | nil => rfl
    | cons x rs' => simp [recordText_ne_nil] at htext
  | cons x rs ih =>
    cases rs' with
    | nil => simp [recordText_ne_nil] at htext
    | cons y rs' =>
      obtain ⟨hd, hs⟩ := h x List.mem_cons_self
      obtain ⟨hd', hs'⟩ := h' y List.mem_cons_self
      simp only [List.map_cons, List.flatten_cons] at htext
      have hnames₀ := hnames x List.mem_cons_self y List.mem_cons_self
      obtain ⟨hfields, hmark, hrest⟩ := record_inj hnames₀ hd hd' hs hs' htext
      have htail : rs = rs' := by
        apply ih _ (fun z hz => h z (List.mem_cons_of_mem _ hz))
          (fun z hz => h' z (List.mem_cons_of_mem _ hz)) hrest
        intro z hz w hw
        exact hnames z (List.mem_cons_of_mem _ hz) w (List.mem_cons_of_mem _ hw)
      rw [Prod.ext hfields hmark, htail]

end HieraChain.DelimitedText
