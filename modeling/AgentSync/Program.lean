import Mathlib.Data.List.Basic

/-! Programs that read and write a state and may throw.

A throw keeps the state it happens in. `Leads` says where the run from one state ends: `Q` of what
it returns and of the state then, `E` of the state it throws in. A loop leads where its turns
keep an invariant (`Leads.forM`), and a law about the state alone is one that every piece of a
program keeps (`Keeps`). -/
namespace Program

variable {ε σ α β γ : Type} {x : EStateM ε σ α} {f : α → EStateM ε σ β} {s : σ}

/-- The state a program stops in. -/
def finish : EStateM.Result ε σ α → σ
  | .ok _ s => s
  | .error _ s => s

theorem bind_ok {a : α} {s' : σ} (h : x s = .ok a s') : (x >>= f) s = f a s' := by
  simp only [Bind.bind, EStateM.bind, h]

theorem bind_error {e : ε} {s' : σ} (h : x s = .error e s') : (x >>= f) s = .error e s' := by
  simp only [Bind.bind, EStateM.bind, h]

theorem get_bind (g : σ → EStateM ε σ β) (s : σ) : (get >>= g) s = g s s := rfl

/-- What the last step of a program does not touch. -/
theorem finish_bind_pure (x : EStateM ε σ α) (g : α → β) (s : σ) :
    finish ((do return g (← x) : EStateM ε σ β) s) = finish (x s) := by
  cases h : x s with
  | ok a s' =>
    rw [bind_ok h]
    rfl
  | error e s' =>
    rw [bind_error h]
    rfl

/-- The program with its error as a value. -/
def attempt (x : EStateM ε σ α) : EStateM ε σ (Except ε α) := fun s =>
  match x s with
  | .ok a s' => .ok (.ok a) s'
  | .error e s' => .ok (.error e) s'

/-! ### Where a run leads -/

def Leads (x : EStateM ε σ α) (s : σ) (Q : α → σ → Prop) (E : σ → Prop) : Prop :=
  match x s with
  | .ok a s' => Q a s'
  | .error _ s' => E s'

namespace Leads

variable {Q Q' : α → σ → Prop} {R : β → σ → Prop} {E E' : σ → Prop}

protected theorem pure {a : α} (h : Q a s) : Leads (pure a : EStateM ε σ α) s Q E := h

protected theorem get {Q : σ → σ → Prop} (h : Q s s) : Leads (get : EStateM ε σ σ) s Q E := h

protected theorem modify {g : σ → σ} {Q : PUnit → σ → Prop} (h : Q ⟨⟩ (g s)) :
    Leads (modify g : EStateM ε σ PUnit) s Q E := h

theorem of_ok {a : α} {s' : σ} (hrun : x s = .ok a s') (h : Q a s') : Leads x s Q E := by
  rwa [Leads, hrun]

theorem of_error {e : ε} {s' : σ} (hrun : x s = .error e s') (h : E s') : Leads x s Q E := by
  rwa [Leads, hrun]

theorem ok {a : α} {s' : σ} (h : Leads x s Q E) (hrun : x s = .ok a s') : Q a s' := by
  rwa [Leads, hrun] at h

theorem error {e : ε} {s' : σ} (h : Leads x s Q E) (hrun : x s = .error e s') : E s' := by
  rwa [Leads, hrun] at h

/-- Where the error is a value the program goes on. -/
protected theorem attempt {P : σ → Prop} (h : Leads x s (fun _ => P) P) :
    Leads (attempt x) s (fun _ => P) E := by
  cases hrun : x s with
  | ok a s' => exact .of_ok (a := .ok a) (by rw [Program.attempt, hrun]) (h.ok hrun)
  | error e s' => exact .of_ok (a := .error e) (by rw [Program.attempt, hrun]) (h.error hrun)

theorem weaken (h : Leads x s Q E) (hQ : ∀ a s', Q a s' → Q' a s') (hE : ∀ s', E s' → E' s') :
    Leads x s Q' E' := by
  cases hrun : x s with
  | ok a s' =>
    rw [Leads, hrun]
    exact hQ a s' (h.ok hrun)
  | error e s' =>
    rw [Leads, hrun]
    exact hE s' (h.error hrun)

protected theorem and (h : Leads x s Q E) (h' : Leads x s Q' E') :
    Leads x s (fun a s' => Q a s' ∧ Q' a s') fun s' => E s' ∧ E' s' := by
  cases hrun : x s with
  | ok a s' => exact .of_ok hrun ⟨h.ok hrun, h'.ok hrun⟩
  | error e s' => exact .of_error hrun ⟨h.error hrun, h'.error hrun⟩

protected theorem bind (h : Leads x s (fun a s' => Leads (f a) s' R E) E) :
    Leads (x >>= f) s R E := by
  cases hrun : x s with
  | ok a s' =>
    rw [Leads, bind_ok hrun]
    exact h.ok hrun
  | error e s' =>
    rw [Leads, bind_error hrun]
    exact h.error hrun

/-- A loop, by what holds with the turns that are left. -/
theorem forM {t : γ → EStateM ε σ PUnit} {I : List γ → σ → Prop} {xs : List γ}
    (hturn : ∀ y ys s, I (y :: ys) s → Leads (t y) s (fun _ s' => I ys s') E) (h : I xs s) :
    Leads (xs.forM t) s (fun _ s' => I [] s') E := by
  induction xs generalizing s with
  | nil => exact h
  | cons y ys ih => exact .bind ((hturn y ys s h).weaken (fun _ s' hs' => ih hs') fun _ h => h)

/-- A loop whose turns keep an invariant. -/
theorem forM_of_mem {t : γ → EStateM ε σ PUnit} {I : σ → Prop} {xs : List γ}
    (hturn : ∀ y ∈ xs, ∀ s, I s → Leads (t y) s (fun _ => I) E) (h : I s) :
    Leads (xs.forM t) s (fun _ => I) E := by
  induction xs generalizing s with
  | nil => exact h
  | cons y ys ih =>
    have hfirst := hturn y List.mem_cons_self s h
    have hrest (z : γ) (hz : z ∈ ys) := hturn z (List.mem_cons_of_mem _ hz)
    exact .bind (hfirst.weaken (fun _ s' hs' => ih hrest hs') fun _ h => h)

/-- The same for a loop that adds to a result. -/
theorem foldlM {t : β → γ → EStateM ε σ β} {I : List γ → β → σ → Prop} {xs : List γ} {b : β}
    (hturn : ∀ y ys b s, I (y :: ys) b s → Leads (t b y) s (fun b' s' => I ys b' s') E)
    (h : I xs b s) : Leads (xs.foldlM t b) s (fun b' s' => I [] b' s') E := by
  induction xs generalizing b s with
  | nil => exact h
  | cons y ys ih =>
    rw [List.foldlM_cons]
    exact .bind ((hturn y ys b s h).weaken (fun _ s' hs' => ih hs') fun _ h => h)

end Leads

/-! ### What a program keeps -/

/-- What holds before the program holds when it stops. -/
def Keeps (P : σ → Prop) (x : EStateM ε σ α) : Prop := ∀ s, P s → Leads x s (fun _ => P) P

namespace Keeps

variable {P : σ → Prop}

theorem finish (h : Keeps P x) (hs : P s) : P (finish (x s)) := by
  have hlead := h s hs
  cases hrun : x s with
  | ok a s' => exact hlead.ok hrun
  | error e s' => exact hlead.error hrun

protected theorem pure (a : α) : Keeps P (pure a : EStateM ε σ α) := fun _ h => h

protected theorem throw (e : ε) : Keeps P (throw e : EStateM ε σ α) := fun _ h => h

protected theorem get : Keeps P (get : EStateM ε σ σ) := fun _ h => h

protected theorem bind (hx : Keeps P x) (hf : ∀ a, Keeps P (f a)) : Keeps P (x >>= f) :=
  fun s hs => .bind ((hx s hs).weaken (fun a s' hs' => hf a s' hs') fun _ h => h)

protected theorem forM {t : γ → EStateM ε σ PUnit} (h : ∀ y, Keeps P (t y)) (xs : List γ) :
    Keeps P (xs.forM t) :=
  fun _ hs => @Leads.forM _ _ _ _ _ t (fun _ => P) xs (fun y _ s hs => h y s hs) hs

/-- The same where only the turns that are taken keep it. -/
theorem forM_of_mem {t : γ → EStateM ε σ PUnit} {xs : List γ} (h : ∀ y ∈ xs, Keeps P (t y)) :
    Keeps P (xs.forM t) := by
  induction xs with
  | nil => exact .pure _
  | cons y ys ih =>
    exact .bind (h y List.mem_cons_self) fun _ => ih fun z hz => h z (List.mem_cons_of_mem _ hz)

protected theorem ite {c : Prop} [Decidable c] {y : EStateM ε σ α} (hx : Keeps P x)
    (hy : Keeps P y) : Keeps P (if c then x else y) := by
  split
  · exact hx
  · exact hy

/-- A branch may use why it is taken. -/
theorem ite_of {c : Prop} [Decidable c] {y : EStateM ε σ α} (hx : c → Keeps P x)
    (hy : ¬ c → Keeps P y) : Keeps P (if c then x else y) := by
  split
  next h => exact hx h
  next h => exact hy h

/-- What holds early on holds at the end. -/
theorem finish_bind (hf : ∀ a, Keeps P (f a)) (h : P (Program.finish (x s))) :
    P (Program.finish ((x >>= f) s)) := by
  cases hrun : x s with
  | ok a s' =>
    rw [hrun] at h
    rw [bind_ok hrun]
    exact (hf a).finish h
  | error e s' =>
    rw [hrun] at h
    rw [bind_error hrun]
    exact h

end Keeps

end Program
