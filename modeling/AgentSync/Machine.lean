import Mathlib.Logic.Relation
import Mathlib.Data.List.Basic

/-! Step machines and their runs.

A machine is a partial step function: an action either applies to a state or does
not. `Reach` is the set of states that steps meeting a guard lead to, so a law
about every run is a law about `Reach`, and `Reach.invariant` is the one
induction such laws need: the law holds at the start and one guarded step keeps
it. A run given as a list of actions is what a concrete execution is checked
with (`Reach.of_run`). -/
namespace Machine

variable {σ α γ : Type*} {step : σ → α → Option σ} {guard guard' : σ → α → Prop} {s₀ s s' : σ}

/-- The states reached from `s₀` by steps that all meet `guard`. -/
inductive Reach (step : σ → α → Option σ) (guard : σ → α → Prop) (s₀ : σ) : σ → Prop where
  | start : Reach step guard s₀ s₀
  | step {s s' : σ} (a : α) : Reach step guard s₀ s → guard s a → step s a = some s' →
      Reach step guard s₀ s'

namespace Reach

/-- What holds at the start and survives every guarded step holds wherever a run gets. -/
theorem invariant {I : σ → Prop} (h₀ : I s₀)
    (hstep : ∀ s a s', I s → guard s a → step s a = some s' → I s')
    (h : Reach step guard s₀ s) : I s := by
  induction h with
  | start => exact h₀
  | step a _ hg hs ih => exact hstep _ a _ ih hg hs

theorem mono (hg : ∀ s a, guard s a → guard' s a) (h : Reach step guard s₀ s) :
    Reach step guard' s₀ s := by
  induction h with
  | start => exact .start
  | step a _ ha hs ih => exact .step a ih (hg _ a ha) hs

theorem trans {s₁ : σ} (h : Reach step guard s₀ s₁) (h' : Reach step guard s₁ s) :
    Reach step guard s₀ s := by
  induction h' with
  | start => exact h
  | step a _ hg hs ih => exact .step a ih hg hs

end Reach

/-- Running a list of actions; `none` when one of them does not apply. -/
def run (step : σ → α → Option σ) : σ → List α → Option σ
  | s, [] => some s
  | s, a :: rest => (step s a).bind fun s' => run step s' rest

/-- Every action of the run meets the guard at the state it is taken in. -/
def Guarded (step : σ → α → Option σ) (guard : σ → α → Prop) : σ → List α → Prop
  | _, [] => True
  | s, a :: rest => guard s a ∧ ∀ s', step s a = some s' → Guarded step guard s' rest

theorem run_append (as bs : List α) :
    run step s₀ (as ++ bs) = (run step s₀ as).bind fun s => run step s bs := by
  induction as generalizing s₀ with
  | nil => rfl
  | cons a rest ih => simp only [List.cons_append, run, Option.bind_assoc, ih]

theorem Guarded.of_forall (hg : ∀ s a, guard s a) (as : List α) : Guarded step guard s₀ as := by
  induction as generalizing s₀ with
  | nil => trivial
  | cons a rest ih => exact ⟨hg s₀ a, fun _ _ => ih⟩

/-- `Guarded`, for a guard that is computed. -/
def allowed (step : σ → α → Option σ) (p : σ → α → Bool) : σ → List α → Bool
  | _, [] => true
  | s, a :: rest => p s a && (step s a).all fun s' => allowed step p s' rest

theorem Guarded.of_allowed {p : σ → α → Bool} (hp : ∀ s a, p s a = true → guard s a)
    {as : List α} (h : allowed step p s₀ as = true) : Guarded step guard s₀ as := by
  induction as generalizing s₀ with
  | nil => trivial
  | cons a rest ih =>
    obtain ⟨ha, hrest⟩ := Bool.and_eq_true_iff.mp h
    refine ⟨hp s₀ a ha, fun s' hs' => ih ?_⟩
    rw [hs'] at hrest
    exact hrest

theorem Reach.of_run {as : List α} (hg : Guarded step guard s₀ as) (h : run step s₀ as = some s) :
    Reach step guard s₀ s := by
  induction as generalizing s₀ with
  | nil =>
    cases h
    exact .start
  | cons a rest ih =>
    obtain ⟨s₁, hs₁, hrest⟩ := Option.bind_eq_some_iff.mp h
    exact trans (.step a .start hg.1 hs₁) (ih (hg.2 s₁ hs₁) hrest)

/-- A law that each step keeps exactly when it meets the guard holds all along a run exactly
when the run is guarded. -/
theorem always_iff_guarded {I P : σ → Prop} (h₀ : I s₀) (hP : P s₀)
    (hstep : ∀ s a s', I s → P s → step s a = some s' → I s' ∧ (P s' ↔ guard s a))
    {as : List α} (h : run step s₀ as = some s) :
    (∀ pre t, pre <+: as → run step s₀ pre = some t → P t) ↔ Guarded step guard s₀ as := by
  induction as generalizing s₀ with
  | nil =>
    refine ⟨fun _ => trivial, fun _ pre t hpre ht => ?_⟩
    rw [List.prefix_nil.mp hpre] at ht
    cases ht
    exact hP
  | cons a rest ih =>
    obtain ⟨s₁, hs₁, hrest⟩ := Option.bind_eq_some_iff.mp h
    obtain ⟨hI, hiff⟩ := hstep s₀ a s₁ h₀ hP hs₁
    constructor
    · intro hall
      have hP₁ : P s₁ := hall [a] s₁ ⟨rest, rfl⟩ (by rw [run, hs₁]; rfl)
      refine ⟨hiff.mp hP₁, fun s' hs' => ?_⟩
      obtain rfl := Option.some.inj (hs₁.symm.trans hs')
      refine (ih hI hP₁ hrest).mp fun pre t hpre ht => ?_
      refine hall (a :: pre) t (List.prefix_cons_inj a |>.mpr hpre) ?_
      rw [run, hs₁]
      exact ht
    · intro hg pre t hpre ht
      cases pre with
      | nil =>
        cases ht
        exact hP
      | cons b pre =>
        obtain ⟨rfl, hrestpre⟩ := List.cons_prefix_cons.mp hpre
        rw [run, hs₁] at ht
        exact (ih hI (hiff.mpr hg.1) hrest).mpr (hg.2 s₁ hs₁) pre t hrestpre ht

/-! ### Histories -/

/-- The machine with a history beside it, which `note` keeps: what a law says of the past of a
run and the states do not show. -/
def traced (step : σ → α → Option σ) (note : σ → α → σ → γ → γ) (x : σ × γ) (a : α) :
    Option (σ × γ) :=
  (step x.1 a).map fun s => (s, note x.1 a s x.2)

theorem traced_eq_some {note : σ → α → σ → γ → γ} {x y : σ × γ} {a : α} :
    traced step note x a = some y ↔ step x.1 a = some y.1 ∧ y.2 = note x.1 a y.1 x.2 := by
  obtain ⟨s, g⟩ := y
  simp only [traced, Option.map_eq_some_iff, Prod.mk.injEq]
  constructor
  · rintro ⟨s, hs, rfl, rfl⟩
    exact ⟨hs, rfl⟩
  · rintro ⟨hs, rfl⟩
    exact ⟨s, hs, rfl, rfl⟩

end Machine
