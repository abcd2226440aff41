import Mathlib.Algebra.Group.Nat.Defs
import Mathlib.Data.List.Basic

/-! Programs that may panic.

A program ends with a value, with an error that it returns, or it panics. Sums of machine words are
checked or wrap, as the build has it; indexing and slicing are always checked. What a program calls
is written down on the way, so that one can say what holds of every call (`Always`). -/
namespace Usize

inductive Outcome (ε α : Type) where
  | ok (value : α)
  | err (error : ε)
  | panic
  deriving DecidableEq, Repr

/-- A run, with the calls it has made; `ι` says what a call was made with. -/
structure Exec (ι ε α : Type) where
  calls : List ι
  outcome : Outcome ε α

namespace Exec

variable {ι ε α β : Type}

def err (e : ε) : Exec ι ε α := ⟨[], .err e⟩

def panic : Exec ι ε α := ⟨[], .panic⟩

/-- A call is written down, and made. -/
def call (i : ι) (x : Exec ι ε α) : Exec ι ε α := {x with calls := i :: x.calls}

instance : Monad (Exec ι ε) where
  pure a := ⟨[], .ok a⟩
  bind x f :=
    match x.outcome with
    | .ok a => ⟨x.calls ++ (f a).calls, (f a).outcome⟩
    | .err e => ⟨x.calls, .err e⟩
    | .panic => ⟨x.calls, .panic⟩

/-- `if let Ok(a)`: an error is no value, a panic goes on. -/
def ok? (x : Exec ι ε α) : Exec ι ε (Option α) where
  calls := x.calls
  outcome := match x.outcome with
    | .ok a => .ok (some a)
    | .err _ => .ok none
    | .panic => .panic

/-- What holds of every call that is made. -/
def Always (P : ι → Prop) (x : Exec ι ε α) : Prop := ∀ i ∈ x.calls, P i

variable {P : ι → Prop} {x : Exec ι ε α} {f : α → Exec ι ε β}

theorem bind_of_ok {a : α} (h : x.outcome = .ok a) :
    (x >>= f) = ⟨x.calls ++ (f a).calls, (f a).outcome⟩ := by
  simp only [Bind.bind, h]

theorem bind_of_err {e : ε} (h : x.outcome = .err e) : (x >>= f) = ⟨x.calls, .err e⟩ := by
  simp only [Bind.bind, h]

theorem bind_of_panic (h : x.outcome = .panic) : (x >>= f) = ⟨x.calls, .panic⟩ := by
  simp only [Bind.bind, h]

@[simp] theorem pure_bind (a : α) (f : α → Exec ι ε β) : (pure a >>= f) = f a := by
  rw [bind_of_ok rfl]
  rfl

/-- The rule for what comes after. -/
theorem Always.bind (hx : Always P x) (hf : ∀ a, x.outcome = .ok a → Always P (f a)) :
    Always P (x >>= f) := by
  cases hout : x.outcome with
  | ok a =>
    rw [bind_of_ok hout]
    exact List.forall_mem_append.mpr ⟨hx, hf a hout⟩
  | err e =>
    rw [bind_of_err hout]
    exact hx
  | panic =>
    rw [bind_of_panic hout]
    exact hx

/-- What holds of every call holds of those before and of those after. -/
theorem Always.of_bind (h : Always P (x >>= f)) :
    Always P x ∧ ∀ a, x.outcome = .ok a → Always P (f a) := by
  cases hout : x.outcome with
  | ok a =>
    rw [bind_of_ok hout] at h
    obtain ⟨hx, hf⟩ := List.forall_mem_append.mp h
    refine ⟨hx, fun b hb => ?_⟩
    obtain rfl := Outcome.ok.inj hb
    exact hf
  | err e =>
    rw [bind_of_err hout] at h
    exact ⟨h, fun _ ha => by cases ha⟩
  | panic =>
    rw [bind_of_panic hout] at h
    exact ⟨h, fun _ ha => by cases ha⟩

theorem Always.pure (a : α) : Always P (Pure.pure a : Exec ι ε α) := fun _ hi => by cases hi

theorem Always.err (e : ε) : Always P (Exec.err e : Exec ι ε α) := fun _ hi => by cases hi

end Exec

/-! ### Words -/

/-- What a program is built for: the width of `usize`, and whether sums are checked. -/
structure Target where
  width : Nat
  checks : Bool
  deriving DecidableEq, Repr

namespace Target

variable {ι ε β : Type} {t : Target} {a b : Nat}

/-- `a + b`. -/
def add (t : Target) (a b : Nat) : Exec ι ε Nat :=
  if a + b < 2 ^ t.width then pure (a + b)
  else if t.checks then .panic
  else pure ((a + b) % 2 ^ t.width)

theorem add_of_lt (h : a + b < 2 ^ t.width) : (t.add a b : Exec ι ε Nat) = pure (a + b) := if_pos h

/-- A sum that does not fit panics, or is short by the size of the word. -/
theorem add_of_le (h : 2 ^ t.width ≤ a + b) (ha : a < 2 ^ t.width) (hb : b < 2 ^ t.width) :
    (t.add a b : Exec ι ε Nat) = if t.checks then .panic else pure (a + b - 2 ^ t.width) := by
  rw [add, if_neg (by omega), Nat.mod_eq_sub_mod h, Nat.mod_eq_of_lt (by omega)]

end Target

variable {ι ε β : Type}

/-- `buf[i]`. -/
def index (buf : List β) (i : Nat) : Exec ι ε β :=
  match buf[i]? with
  | some b => pure b
  | none => .panic

/-- `&buf[a..b]`. -/
def slice (buf : List β) (a b : Nat) : Exec ι ε (List β) :=
  if a ≤ b ∧ b ≤ buf.length then pure ((buf.take b).drop a) else .panic

theorem index_of_getElem? {buf : List β} {i : Nat} {b : β} (h : buf[i]? = some b) :
    (index buf i : Exec ι ε β) = pure b := by
  rw [index, h]

theorem slice_of_le {buf : List β} {a b : Nat} (hab : a ≤ b) (hb : b ≤ buf.length) :
    (slice buf a b : Exec ι ε (List β)) = pure ((buf.take b).drop a) := if_pos ⟨hab, hb⟩

theorem slice_of_lt {buf : List β} {a b : Nat} (h : b < a) :
    (slice buf a b : Exec ι ε (List β)) = .panic := if_neg fun hle => absurd hle.1 (Nat.not_le.mpr h)

theorem always_index {P : ι → Prop} (buf : List β) (i : Nat) :
    Exec.Always P (index buf i : Exec ι ε β) := by
  unfold index
  split
  next => exact .pure _
  next => exact fun _ hi => by cases hi

end Usize
