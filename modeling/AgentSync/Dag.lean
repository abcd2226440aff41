import Mathlib.Logic.Relation
import Mathlib.Order.WellFoundedSet

/-! The latest of a set of dependent things.

`dep x y` says that `x` depends on `y`. The latest of a set are those that no other of the set
depends on. Where nothing depends on itself, every element of a finite set is reached from one of
the latest (`exists_latest`); where the set has all that its elements depend on, the latest reach
just the set, and none of them another (`reaches_latest_iff`, `eq_of_reaches_latest`). -/
namespace Dag

open Relation

variable {α : Type*} (dep : α → α → Prop) (S : Set α)

def Acyclic : Prop := ∀ x, ¬ TransGen dep x x

def latest : Set α := {x | x ∈ S ∧ ∀ y ∈ S, ¬ dep y x}

/-- What an element of the set depends on is in the set. -/
def Closed : Prop := ∀ x ∈ S, ∀ y, dep x y → y ∈ S

variable {dep S} {x y : α}

/-- A measure that falls along the dependencies. -/
theorem Acyclic.of_rank (rank : α → Nat) (h : ∀ x y, dep x y → rank y < rank x) : Acyclic dep := by
  have hlt {x y : α} (hxy : TransGen dep x y) : rank y < rank x := by
    induction hxy with
    | single hstep => exact h _ _ hstep
    | tail _ hstep ih => exact (h _ _ hstep).trans ih
  exact fun x hx => Nat.lt_irrefl _ (hlt hx)

theorem exists_latest (hacyclic : Acyclic dep) (hS : S.Finite) (hx : x ∈ S) :
    ∃ y ∈ latest dep S, ReflTransGen dep y x := by
  have horder : IsStrictOrder α (TransGen dep) := { irrefl := hacyclic, trans := fun _ _ _ => .trans }
  have hwf : S.WellFoundedOn (TransGen dep) := hS.wellFoundedOn
  refine hwf.induction (P := fun x => ∃ y ∈ latest dep S, ReflTransGen dep y x) hx fun y hy ih => ?_
  by_cases h : ∃ z ∈ S, dep z y
  · obtain ⟨z, hz, hzy⟩ := h
    obtain ⟨w, hw, hwz⟩ := ih z hz (.single hzy)
    exact ⟨w, hw, hwz.tail hzy⟩
  · exact ⟨y, ⟨hy, fun z hz hzy => h ⟨z, hz, hzy⟩⟩, .refl⟩

theorem Closed.reaches (h : Closed dep S) (hx : x ∈ S) (hxy : ReflTransGen dep x y) : y ∈ S := by
  induction hxy with
  | refl => exact hx
  | tail _ hstep ih => exact h _ ih _ hstep

theorem eq_of_reaches_latest (h : Closed dep S) (hx : x ∈ S) (hy : y ∈ latest dep S)
    (hxy : ReflTransGen dep x y) : x = y := by
  cases hxy with
  | refl => rfl
  | tail hxz hzy => exact absurd hzy (hy.2 _ (h.reaches hx hxz))

theorem reaches_latest_iff (hacyclic : Acyclic dep) (hS : S.Finite) (h : Closed dep S) :
    (∃ y ∈ latest dep S, ReflTransGen dep y x) ↔ x ∈ S :=
  ⟨fun ⟨_, hy, hyx⟩ => h.reaches hy.1 hyx, exists_latest hacyclic hS⟩

end Dag
