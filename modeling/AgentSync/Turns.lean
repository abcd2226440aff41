import Mathlib.Data.List.Basic

/-! Programs that fail half-way.

A program in an exception and state monad comes to a list of turns one after the other: it
skips a turn, writes, or fails and ends there. `Follows` is the rule for such a program: it
ends as its turns say, and when it fails the state is one that a program leaves that has
written before (`late`) or one that has not. -/
namespace Turns

inductive Turn where
  | skip
  | write
  | fail
  deriving DecidableEq, Repr

/-- The turns of a program that goes on with the result of a computation, if it has one. -/
def on {ε α : Type*} (e : Except ε α) (ts : α → List Turn) : List Turn :=
  match e with
  | .ok a => ts a
  | .error _ => [.fail]

/-- Some turn writes. -/
def writes (ts : List Turn) : Bool := ts.contains .write

/-- A turn fails, and there was a write before it; `wrote` says whether there was one before
the list. -/
def late : Bool → List Turn → Bool
  | _, [] => false
  | wrote, .skip :: rest => late wrote rest
  | _, .write :: rest => late true rest
  | wrote, .fail :: _ => wrote

/-- The writes before the first turn that fails. -/
def count : List Turn → Nat
  | [] => 0
  | .skip :: rest => count rest
  | .write :: rest => count rest + 1
  | .fail :: _ => 0

variable {wrote : Bool} {ts ts' : List Turn}

theorem writes_append : writes (ts ++ ts') = (writes ts || writes ts') := by
  simp [writes, Bool.decide_or]

theorem late_append (h : .fail ∉ ts) : late wrote (ts ++ ts') = late (wrote || writes ts) ts' := by
  induction ts generalizing wrote with
  | nil => simp [writes]
  | cons t rest ih =>
    have hrest : .fail ∉ rest := fun hin => h (List.mem_cons_of_mem _ hin)
    cases t with
    | skip => simpa [late, writes] using ih hrest
    | write =>
      show late true (rest ++ ts') = late (wrote || writes (.write :: rest)) ts'
      rw [ih hrest, Bool.true_or, writes, List.contains_cons, beq_self_eq_true, Bool.true_or,
        Bool.or_true]
    | fail => exact absurd List.mem_cons_self h

theorem late_append_of_fail (h : .fail ∈ ts) : late wrote (ts ++ ts') = late wrote ts := by
  induction ts generalizing wrote with
  | nil => cases h
  | cons t rest ih =>
    cases t with
    | skip => exact ih ((List.mem_cons.mp h).resolve_left (by simp))
    | write => exact ih ((List.mem_cons.mp h).resolve_left (by simp))
    | fail => rfl

/-- Nothing is late without a turn that fails. -/
theorem fail_mem_of_late (h : late wrote ts = true) : .fail ∈ ts := by
  by_contra hno
  have hnil : late wrote (ts ++ []) = late (wrote || writes ts) [] := late_append hno
  rw [List.append_nil, h] at hnil
  cases hnil

/-! ### Programs -/

variable {ε σ α β γ : Type} {S : Bool → σ → Prop} {s : σ}

/-- The program ends with success and `Q`, and no turn fails; or with an error where a turn
does, and in a state that `S` allows after the writes before that turn. -/
def Follows (S : Bool → σ → Prop) (wrote : Bool) (x : EStateM ε σ α) (s : σ) (ts : List Turn)
    (Q : α → σ → Prop) : Prop :=
  match x s with
  | .ok a s' => .fail ∉ ts ∧ Q a s'
  | .error _ s' => .fail ∈ ts ∧ S (late wrote ts) s'

namespace Follows

variable {x : EStateM ε σ α} {f : α → EStateM ε σ β} {Q Q' : α → σ → Prop} {R : β → σ → Prop}

protected theorem pure {a : α} (h : Q a s) :
    Follows S wrote (pure a : EStateM ε σ α) s [] Q :=
  ⟨List.not_mem_nil, h⟩

theorem of_ok {a : α} {s' : σ} (hrun : x s = .ok a s') (hts : .fail ∉ ts) (h : Q a s') :
    Follows S wrote x s ts Q := by
  rw [Follows, hrun]
  exact ⟨hts, h⟩

theorem of_error {e : ε} {s' : σ} (hrun : x s = .error e s') (hts : .fail ∈ ts)
    (h : S (late wrote ts) s') : Follows S wrote x s ts Q := by
  rw [Follows, hrun]
  exact ⟨hts, h⟩

protected theorem bind (h : Follows S wrote x s ts fun a s' =>
    Follows S (wrote || writes ts) (f a) s' ts' R) : Follows S wrote (x >>= f) s (ts ++ ts') R := by
  show match EStateM.bind x f s with
    | .ok a s' => .fail ∉ ts ++ ts' ∧ R a s'
    | .error _ s' => .fail ∈ ts ++ ts' ∧ S (late wrote (ts ++ ts')) s'
  unfold Follows at h
  unfold EStateM.bind
  cases hx : x s with
  | error e s' =>
    rw [hx] at h
    obtain ⟨hfail, hS⟩ := h
    rw [late_append_of_fail hfail]
    exact ⟨List.mem_append_left _ hfail, hS⟩
  | ok a s' =>
    rw [hx] at h
    obtain ⟨hnone, h⟩ := h
    show match f a s' with
      | .ok a s' => .fail ∉ ts ++ ts' ∧ R a s'
      | .error _ s' => .fail ∈ ts ++ ts' ∧ S (late wrote (ts ++ ts')) s'
    rw [late_append hnone]
    cases hf : f a s' with
    | ok b s'' =>
      rw [hf] at h
      exact ⟨by simp [hnone, h.1], h.2⟩
    | error e s'' =>
      rw [hf] at h
      exact ⟨List.mem_append_right _ h.1, h.2⟩

theorem weaken (h : Follows S wrote x s ts Q) (hQ : ∀ a s', Q a s' → Q' a s') :
    Follows S wrote x s ts Q' := by
  unfold Follows at h ⊢
  cases hx : x s with
  | ok a s' =>
    rw [hx] at h
    exact ⟨h.1, hQ a s' h.2⟩
  | error e s' =>
    rw [hx] at h
    exact h

/-- The end of a program that has not failed. -/
theorem run (h : Follows S wrote x s ts Q) :
    Follows S wrote x s ts fun a s' => Q a s' ∧ x s = .ok a s' := by
  unfold Follows at h ⊢
  cases hx : x s with
  | ok a s' =>
    rw [hx] at h
    exact ⟨h.1, h.2, rfl⟩
  | error e s' =>
    rw [hx] at h
    exact h

/-- A step that succeeds and is no turn. -/
theorem step {a : α} {s' : σ} (hrun : x s = .ok a s') (h : Follows S wrote (f a) s' ts R) :
    Follows S wrote (x >>= f) s ts R :=
  List.nil_append ts ▸ .bind (.of_ok hrun List.not_mem_nil (by simpa [writes] using h))

/-- A step that writes. -/
theorem write {a : α} {s' : σ} (hrun : x s = .ok a s') (h : Follows S true (f a) s' ts R) :
    Follows S wrote (x >>= f) s (.write :: ts) R := by
  show Follows S wrote (x >>= f) s ([.write] ++ ts) R
  exact .bind (.of_ok hrun (by simp) (by simpa [writes] using h))

/-- A step that fails. -/
theorem fails {e : ε} (hrun : x s = .error e s) (hS : S wrote s) :
    Follows S wrote (x >>= f) s (.fail :: ts) R := by
  show Follows S wrote (x >>= f) s ([.fail] ++ ts) R
  exact .bind (.of_error hrun (by simp) hS)

/-- A loop that comes to its turns one after the other. -/
theorem forM {body : γ → EStateM ε σ PUnit} (turn : γ → Turn) (I : List γ → Bool → σ → Prop)
    (xs : List γ)
    (hbody : ∀ x rest wrote s, I (x :: rest) wrote s →
      Follows S wrote (body x) s [turn x] fun _ s' => I rest (wrote || writes [turn x]) s')
    (h : I xs wrote s) : Follows S wrote (xs.forM body) s (xs.map turn) fun _ s' =>
      I [] (wrote || writes (xs.map turn)) s' := by
  induction xs generalizing wrote s with
  | nil => exact .pure (by simpa [writes] using h)
  | cons x rest ih =>
    show Follows S wrote (body x >>= fun _ => rest.forM body) s ([turn x] ++ rest.map turn) _
    refine .bind ((hbody x rest wrote s h).weaken fun _ s' hs' => ?_)
    refine (ih hs').weaken fun _ s'' hs'' => ?_
    rwa [List.map_cons, ← List.singleton_append, writes_append, ← Bool.or_assoc]

end Follows

/-- **A program that follows its turns fails late just when they say so.** -/
theorem Follows.error_iff {x : EStateM ε σ α} {Q : α → σ → Prop} {harmless : σ → Prop}
    (h : Follows S false x s ts Q) (hsafe : ∀ s', S false s' → harmless s')
    (hharm : ∀ s', S true s' → ¬ harmless s') :
    (∀ e s', x s = .error e s' → harmless s') ↔ late false ts = false := by
  unfold Follows at h
  cases hx : x s with
  | ok a s' =>
    rw [hx] at h
    refine ⟨fun _ => ?_, fun _ e s' herror => by cases herror⟩
    by_contra hlate
    exact h.1 (fail_mem_of_late (eq_true_of_ne_false hlate))
  | error e s' =>
    rw [hx] at h
    constructor
    · intro hall
      by_contra hlate
      rw [eq_true_of_ne_false hlate] at h
      exact hharm s' h.2 (hall e s' rfl)
    · intro hlate e' s'' herror
      cases herror
      rw [hlate] at h
      exact hsafe s' h.2

end Turns
