import Mathlib.Data.List.Basic

/-! Patterns with wildcards.

A pattern is a row of pieces, each a symbol that stands for itself or a wildcard of some kind. What
a wildcard may take is a parameter, `takes`, which also sees what is left behind it. A matcher
that lets each wildcard take as little as it can need not come back to an earlier one when
`takes` is `Growing`: a fit that begins with a wildcard may as well begin earlier
(`Fits.earlier`). -/
namespace Wildcards

inductive Piece (α κ : Type) where
  | lit (a : α)
  | wild (kind : κ)
  deriving DecidableEq, Repr

variable {α κ : Type}

/-- The row splits into one part for each piece. -/
def Fits (takes : κ → List α → List α → Prop) : List (Piece α κ) → List α → Prop
  | [], s => s = []
  | .lit a :: ps, s => ∃ t, s = a :: t ∧ Fits takes ps t
  | .wild k :: ps, s => ∃ x t, s = x ++ t ∧ takes k x t ∧ Fits takes ps t

/-- A wildcard that takes something may take more before it. -/
def Growing (takes : κ → List α → List α → Prop) : Prop :=
  ∀ k x t z, takes k x t → takes k (z ++ x) t

/-- Every wildcard takes anything. -/
def anything : κ → List α → List α → Prop := fun _ _ _ => True

variable {takes takes' : κ → List α → List α → Prop} {ps qs : List (Piece α κ)} {s t : List α}
  {a b : α} {k : κ}

theorem fits_nil : Fits takes [] s ↔ s = [] := Iff.rfl

theorem fits_lit_cons : Fits takes (.lit a :: ps) (b :: t) ↔ b = a ∧ Fits takes ps t := by
  simp [Fits]

theorem not_fits_lit_nil : ¬ Fits takes (.lit a :: ps) [] := by simp [Fits]

/-- A wildcard at the end of the row takes nothing. -/
theorem fits_wild_nil : Fits takes (.wild k :: ps) [] ↔ takes k [] [] ∧ Fits takes ps [] := by
  constructor
  · intro ⟨x, t, hs, htakes, hfits⟩
    obtain ⟨rfl, rfl⟩ := List.append_eq_nil_iff.mp hs.symm
    exact ⟨htakes, hfits⟩
  · intro h
    exact ⟨[], [], rfl, h.1, h.2⟩

theorem Fits.mono (h : ∀ k x t, takes k x t → takes' k x t) (hfits : Fits takes ps s) :
    Fits takes' ps s := by
  induction ps generalizing s with
  | nil => exact hfits
  | cons p ps ih =>
    cases p with
    | lit a =>
      obtain ⟨t, hs, hfits⟩ := hfits
      exact ⟨t, hs, ih hfits⟩
    | wild k =>
      obtain ⟨x, t, hs, htakes, hfits⟩ := hfits
      exact ⟨x, t, hs, h k x t htakes, ih hfits⟩

theorem Fits.free (h : Fits takes ps s) : Fits anything ps s := h.mono fun _ _ _ _ => trivial

/-- **A fit that begins with a wildcard may begin earlier.** -/
theorem Fits.earlier (hgrow : Growing takes) (h : Fits takes (.wild k :: ps) t) :
    Fits takes (.wild k :: ps) (s ++ t) := by
  obtain ⟨x, u, rfl, htakes, hfits⟩ := h
  exact ⟨s ++ x, u, (List.append_assoc s x u).symm, hgrow k x u s htakes, hfits⟩

/-- Symbols in front take themselves. -/
theorem fits_lits (l : List α) :
    Fits takes (l.map .lit ++ ps) s ↔ ∃ t, s = l ++ t ∧ Fits takes ps t := by
  induction l generalizing s with
  | nil => simp
  | cons a l ih =>
    simp only [List.map_cons, List.cons_append]
    constructor
    · intro ⟨u, hs, h⟩
      obtain ⟨t, hu, hfits⟩ := ih.mp h
      exact ⟨t, hs.trans (congrArg (a :: ·) hu), hfits⟩
    · intro ⟨t, hs, h⟩
      exact ⟨l ++ t, hs, ih.mpr ⟨t, rfl, h⟩⟩

/-- A row of symbols fits itself only. -/
theorem fits_map_lit (l : List α) : Fits takes (l.map .lit) s ↔ s = l := by
  have h : Fits takes (l.map .lit ++ []) s ↔ ∃ t, s = l ++ t ∧ Fits takes [] t := fits_lits l
  simpa [fits_nil] using h

/-- A fit of two patterns one behind the other splits the row. -/
theorem Fits.split (h : Fits takes (ps ++ qs) s) :
    ∃ x t, s = x ++ t ∧ Fits anything ps x ∧ Fits takes qs t := by
  induction ps generalizing s with
  | nil => exact ⟨[], s, rfl, rfl, h⟩
  | cons p ps ih =>
    cases p with
    | lit a =>
      obtain ⟨u, rfl, h⟩ := h
      obtain ⟨x, t, rfl, hx, ht⟩ := ih h
      exact ⟨a :: x, t, rfl, ⟨x, rfl, hx⟩, ht⟩
    | wild k =>
      obtain ⟨w, u, rfl, -, h⟩ := h
      obtain ⟨x, t, rfl, hx, ht⟩ := ih h
      exact ⟨w ++ x, t, (List.append_assoc w x t).symm, ⟨w, x, rfl, trivial, hx⟩, ht⟩

/-- A pattern with a symbol in it fits no empty row. -/
theorem Fits.ne_nil (h : Fits takes ps s) (ha : .lit a ∈ ps) : s ≠ [] := by
  intro hs
  subst hs
  induction ps with
  | nil => cases ha
  | cons p ps ih =>
    cases p with
    | lit b => exact not_fits_lit_nil h
    | wild k =>
      obtain hk | ha := List.mem_cons.mp ha
      · cases hk
      · exact ih ha (fits_wild_nil.mp h).2

/-- The wildcard in front of the row can be told by where it ends. -/
theorem exists_split_iff {P : List α → List α → Prop} :
    (∃ x t, s = x ++ t ∧ P x t) ↔ ∃ i ∈ List.range (s.length + 1), P (s.take i) (s.drop i) := by
  constructor
  · intro ⟨x, t, hs, h⟩
    subst hs
    refine ⟨x.length, List.mem_range.mpr ?_, ?_⟩
    · rw [List.length_append]
      omega
    · rwa [List.take_left, List.drop_left]
  · intro ⟨i, _, h⟩
    exact ⟨_, _, (List.take_append_drop i s).symm, h⟩

instance decidableFits [DecidableEq α] [∀ k x t, Decidable (takes k x t)] :
    ∀ ps s, Decidable (Fits takes ps s)
  | [], s => inferInstanceAs (Decidable (s = []))
  | .lit _ :: _, [] => isFalse not_fits_lit_nil
  | .lit _ :: ps, _ :: t =>
    have := decidableFits ps t
    decidable_of_iff _ fits_lit_cons.symm
  | .wild _ :: ps, _ =>
    have := decidableFits ps
    decidable_of_iff _ exists_split_iff.symm

end Wildcards
