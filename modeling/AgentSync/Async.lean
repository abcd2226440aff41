import Mathlib.Data.List.Basic
import Mathlib.Order.Basic

/-! Asynchronous programs and the tasks that run them.

A program makes calls to a host and awaits each answer. Between two calls it runs without
interruption, so the tasks of one program text interleave at the calls and nowhere else.
`Prog` is such a program as the tree of its calls, `Leads` says what its calls are until it
reaches a point, and `splice` is the list of tasks after one of them has moved. -/
namespace Async

/-- A program over the calls `ω`. The call `o` answers a `ρ o` or throws an `ε`. -/
inductive Prog (ω : Type) (ρ : ω → Type) (ε α : Type) where
  | pure (a : α)
  | throw (e : ε)
  | call (o : ω) (k : Except ε (ρ o) → Prog ω ρ ε α)

namespace Prog

variable {ω : Type} {ρ : ω → Type} {ε α β σ : Type}

def bind : Prog ω ρ ε α → (α → Prog ω ρ ε β) → Prog ω ρ ε β
  | .pure a, f => f a
  | .throw e, _ => .throw e
  | .call o k, f => .call o fun r => (k r).bind f

def tryCatch : Prog ω ρ ε α → (ε → Prog ω ρ ε α) → Prog ω ρ ε α
  | .pure a, _ => .pure a
  | .throw e, handler => handler e
  | .call o k, handler => .call o fun r => (k r).tryCatch handler

/-- Awaiting one call. -/
def await (o : ω) : Prog ω ρ ε (ρ o) :=
  .call o fun r => match r with
    | .ok a => .pure a
    | .error e => .throw e

instance : Monad (Prog ω ρ ε) where
  pure := .pure
  bind := bind

instance : MonadExcept ε (Prog ω ρ ε) where
  throw := .throw
  tryCatch := tryCatch

/-- What a program ends with when no other program runs beside it. -/
def eval (host : σ → (o : ω) → Except ε (ρ o) × σ) : σ → Prog ω ρ ε α → Except ε α × σ
  | s, .pure a => (.ok a, s)
  | s, .throw e => (.error e, s)
  | s, .call o k => eval host (host s o).2 (k (host s o).1)

/-- The call a program waits for. -/
def next : Prog ω ρ ε α → Option ω
  | .call o _ => some o
  | _ => none

/-- A program whose calls are all `ok` and answered, until it is one that satisfies `Q`. -/
inductive Leads (ok : ω → Prop) (Q : Prog ω ρ ε α → Prop) : Prog ω ρ ε α → Prop where
  | here {p : Prog ω ρ ε α} : Q p → Leads ok Q p
  | call {o : ω} {k : Except ε (ρ o) → Prog ω ρ ε α} : ok o → (∀ a, Leads ok Q (k (.ok a))) →
      Leads ok Q (.call o k)

end Prog

/-! ### Tasks -/

variable {τ : Type*} {ts new : List τ} {i : Nat} {t u : τ}

/-- The tasks once task `i` has become `new`: it has ended, goes on, or has started others. -/
def splice (ts : List τ) (i : Nat) (new : List τ) : List τ := ts.take i ++ (new ++ ts.drop (i + 1))

/-- A task and the tasks around it. -/
theorem exists_splice (h : ts[i]? = some t) :
    ∃ pre post, ts = pre ++ t :: post ∧ ∀ new, splice ts i new = pre ++ (new ++ post) := by
  obtain ⟨hi, rfl⟩ := List.getElem?_eq_some_iff.mp h
  refine ⟨ts.take i, ts.drop (i + 1), ?_, fun _ => rfl⟩
  rw [List.getElem_cons_drop, List.take_append_drop]

theorem mem_splice (h : u ∈ splice ts i new) : u ∈ new ∨ u ∈ ts := by
  rcases List.mem_append.mp h with h | h
  · exact .inr (List.mem_of_mem_take h)
  · rcases List.mem_append.mp h with h | h
    · exact .inl h
    · exact .inr (List.mem_of_mem_drop h)

end Async
