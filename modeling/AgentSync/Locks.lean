import Mathlib.Logic.Relation
import Mathlib.Data.List.MinMax
import AgentSync.Async

/-! Tasks that take mutexes.

`Cmd` is what is left of a task when only its locking counts: a guard lives as long as the
block under it, everything else is `work`. `Ordered` checks the text: under every guard only
mutexes of higher rank are taken. `Task.Step` keeps it, so in every pool of such tasks the
mutexes along a chain of waiting tasks climb (`Blocks.rank_lt`), and no chain closes. -/
namespace Locks
open Async

/-- A task over the mutexes `μ`. -/
inductive Cmd (μ : Type*) where
  | skip
  /-- Anything that takes no mutex: a computation, input or output, a timer, a channel. -/
  | work
  | seq (a b : Cmd μ)
  | choice (a b : Cmd μ)
  | loop (a : Cmd μ)
  /-- `let guard = m.lock().await; a; drop(guard)`. -/
  | lock (m : μ) (a : Cmd μ)
  /-- The same, once the guard is there. -/
  | held (m : μ) (a : Cmd μ)

namespace Cmd

variable {μ : Type*}

/-- A block that may be left out: a condition, an early return, an error. -/
def opt (a : Cmd μ) : Cmd μ := .choice .skip a

/-- One block after the other. -/
def block : List (Cmd μ) → Cmd μ
  | [] => .skip
  | a :: rest => .seq a (block rest)

/-- One statement under a guard. -/
def under (m : μ) : Cmd μ := .lock m .work

/-- The mutexes the task holds. -/
def holds : Cmd μ → List μ
  | .seq a _ => holds a
  | .held m a => m :: holds a
  | _ => []

/-- The mutex whose guard the task awaits. -/
def waits : Cmd μ → Option μ
  | .seq .skip _ => none
  | .seq a _ => waits a
  | .lock m _ => some m
  | .held _ a => waits a
  | _ => none

/-- Every mutex is taken under mutexes of lower rank, and no lower than `low`. -/
def Ordered (rank : μ → Nat) : Nat → Cmd μ → Bool
  | _, .skip => true
  | _, .work => true
  | low, .seq a b => Ordered rank low a && Ordered rank low b
  | low, .choice a b => Ordered rank low a && Ordered rank low b
  | low, .loop a => Ordered rank low a
  | low, .lock m a => decide (low ≤ rank m) && Ordered rank (rank m + 1) a
  | low, .held m a => decide (low ≤ rank m) && Ordered rank (rank m + 1) a

/-- One step of a task; a guard comes only when the mutex is `free`. -/
inductive Step (free : μ → Prop) : Cmd μ → Cmd μ → Prop where
  | work : Step free .work .skip
  | first {a a' b : Cmd μ} : Step free a a' → Step free (.seq a b) (.seq a' b)
  | next {b : Cmd μ} : Step free (.seq .skip b) b
  | left {a b : Cmd μ} : Step free (.choice a b) a
  | right {a b : Cmd μ} : Step free (.choice a b) b
  | leave {a : Cmd μ} : Step free (.loop a) .skip
  | again {a : Cmd μ} : Step free (.loop a) (.seq a (.loop a))
  | take {m : μ} {a : Cmd μ} : free m → Step free (.lock m a) (.held m a)
  | inside {m : μ} {a a' : Cmd μ} : Step free a a' → Step free (.held m a) (.held m a')
  | drop {m : μ} : Step free (.held m .skip) .skip

variable {m : μ} {a a' b : Cmd μ} {rank : μ → Nat} {low : Nat}

theorem Step.ordered {free : μ → Prop} (h : Step free a a') (ha : a.Ordered rank low = true) :
    a'.Ordered rank low = true := by
  induction h generalizing low with
  | work => rfl
  | first _ ih =>
    simp only [Ordered, Bool.and_eq_true] at ha ⊢
    exact ⟨ih ha.1, ha.2⟩
  | next => simpa [Ordered] using ha
  | left => exact (Bool.and_eq_true_iff.mp ha).1
  | right => exact (Bool.and_eq_true_iff.mp ha).2
  | leave => rfl
  | again => simpa [Ordered] using ha
  | take _ => exact ha
  | inside _ ih =>
    simp only [Ordered, Bool.and_eq_true] at ha ⊢
    exact ⟨ha.1, ih ha.2⟩
  | drop => rfl

/-- A task waits for a mutex above `low`, and above those it holds. -/
theorem rank_lt_of_waits (ha : a.Ordered rank low = true) (hw : a.waits = some m) :
    low ≤ rank m ∧ ∀ m' ∈ a.holds, rank m' < rank m := by
  induction a generalizing low with
  | skip => cases hw
  | work => cases hw
  | seq a b iha _ =>
    have hwa : a.waits = some m := by
      cases a with
      | skip => cases hw
      | _ => exact hw
    exact iha (Bool.and_eq_true_iff.mp ha).1 hwa
  | choice a b _ _ => cases hw
  | loop a _ => cases hw
  | lock m' a _ =>
    obtain rfl := Option.some.inj hw
    exact ⟨of_decide_eq_true (Bool.and_eq_true_iff.mp ha).1, fun _ h => absurd h List.not_mem_nil⟩
  | held m' a ih =>
    obtain ⟨hlow, hrest⟩ := Bool.and_eq_true_iff.mp ha
    obtain ⟨habove, hholds⟩ := ih hrest hw
    have hlow := of_decide_eq_true hlow
    refine ⟨by omega, fun k hk => ?_⟩
    rcases List.mem_cons.mp hk with rfl | hk
    · omega
    · exact hholds k hk

/-- A task that is not at its end and waits for no mutex can move. -/
theorem exists_step (free : μ → Prop) (ha : a ≠ .skip) (hw : ∀ m, a.waits = some m → free m) :
    ∃ a', Step free a a' := by
  induction a with
  | skip => exact absurd rfl ha
  | work => exact ⟨_, .work⟩
  | seq a b iha _ =>
    by_cases hskip : a = .skip
    · subst hskip
      exact ⟨_, .next⟩
    · obtain ⟨a', h⟩ := iha hskip fun m hm => hw m (by
        cases a with
        | skip => exact absurd rfl hskip
        | _ => exact hm)
      exact ⟨_, .first h⟩
  | choice a b _ _ => exact ⟨_, .left⟩
  | loop a _ => exact ⟨_, .leave⟩
  | lock m a _ => exact ⟨_, .take (hw m rfl)⟩
  | held m a ih =>
    by_cases hskip : a = .skip
    · subst hskip
      exact ⟨_, .drop⟩
    · obtain ⟨a', h⟩ := ih hskip hw
      exact ⟨_, .inside h⟩

end Cmd

/-! ### Pools -/

variable {μ : Type*}

/-- No task holds the mutex. -/
def Free (ts : List (Cmd μ)) (m : μ) : Prop := ∀ t ∈ ts, m ∉ t.holds

/-- Tasks run `programs`; one may start, move or be aborted, and an aborted task drops its
guards. -/
inductive Step (programs : List (Cmd μ)) : List (Cmd μ) → List (Cmd μ) → Prop where
  | spawn {ts : List (Cmd μ)} {t : Cmd μ} : t ∈ programs → Step programs ts (ts ++ [t])
  | move {ts : List (Cmd μ)} {i : Nat} {t t' : Cmd μ} : ts[i]? = some t → t.Step (Free ts) t' →
      Step programs ts (splice ts i [t'])
  | abort {ts : List (Cmd μ)} (i : Nat) : Step programs ts (splice ts i [])

/-- The pools that come from an empty one. -/
abbrev Reach (programs : List (Cmd μ)) : List (Cmd μ) → Prop :=
  Relation.ReflTransGen (Step programs) []

/-- Task `i` waits for a mutex that task `j` holds. -/
def Blocks (ts : List (Cmd μ)) (i j : Nat) : Prop :=
  ∃ t u m, ts[i]? = some t ∧ ts[j]? = some u ∧ t.waits = some m ∧ m ∈ u.holds

variable {programs : List (Cmd μ)} {rank : μ → Nat} {ts : List (Cmd μ)}

theorem Reach.ordered (hp : ∀ t ∈ programs, t.Ordered rank 0 = true) (h : Reach programs ts) :
    ∀ t ∈ ts, t.Ordered rank 0 = true := by
  induction h with
  | refl => exact fun t ht => absurd ht List.not_mem_nil
  | tail _ hs ih =>
    intro t ht
    cases hs with
    | spawn hnew =>
      rcases List.mem_append.mp ht with ht | ht
      · exact ih t ht
      · exact hp t (List.mem_singleton.mp ht ▸ hnew)
    | move hi hstep =>
      rcases mem_splice ht with ht | ht
      · obtain rfl := List.mem_singleton.mp ht
        exact hstep.ordered (ih _ (List.mem_of_getElem? hi))
      · exact ih t ht
    | abort i =>
      rcases mem_splice ht with ht | ht
      · cases ht
      · exact ih t ht

/-- Along a chain of tasks that wait for one another, the last holds a mutex no lower than
the one the first waits for. -/
theorem Blocks.rank_lt (ho : ∀ t ∈ ts, t.Ordered rank 0 = true) {i j : Nat}
    (h : Relation.TransGen (Blocks ts) i j) :
    ∃ t u m m', ts[i]? = some t ∧ ts[j]? = some u ∧ t.waits = some m ∧ m' ∈ u.holds ∧
      rank m ≤ rank m' := by
  induction h with
  | single h =>
    obtain ⟨t, u, m, ht, hu, hw, hm⟩ := h
    exact ⟨t, u, m, m, ht, hu, hw, hm, le_refl _⟩
  | tail _ h ih =>
    obtain ⟨t, u, m, m', ht, hu, hw, hm, hle⟩ := ih
    obtain ⟨u', v, k, hu', hv, hw', hk⟩ := h
    obtain rfl := Option.some.inj (hu.symm.trans hu')
    have hlt := (Cmd.rank_lt_of_waits (ho u (List.mem_of_getElem? hu)) hw').2 m' hm
    exact ⟨t, v, m, k, ht, hv, hw, hk, by omega⟩

/-- **The lock order theorem.** Tasks whose programs respect a rank never wait in a circle. -/
theorem no_cycle (hp : ∀ t ∈ programs, t.Ordered rank 0 = true) (h : Reach programs ts) (i : Nat) :
    ¬ Relation.TransGen (Blocks ts) i i := by
  intro hcycle
  have ho := h.ordered hp
  obtain ⟨t, u, m, m', ht, hu, hw, hm, hle⟩ := Blocks.rank_lt ho hcycle
  obtain rfl := Option.some.inj (ht.symm.trans hu)
  have hlt := (Cmd.rank_lt_of_waits (ho t (List.mem_of_getElem? ht)) hw).2 m' hm
  omega

/-- A pool that is not at its end always has a task that can move. -/
theorem exists_move (hp : ∀ t ∈ programs, t.Ordered rank 0 = true) (h : Reach programs ts)
    (hlive : ∃ t ∈ ts, t ≠ .skip) : ∃ t ∈ ts, ∃ t', t.Step (Free ts) t' := by
  have ho := h.ordered hp
  by_contra hstuck
  push Not at hstuck
  -- Every task that is left waits for a mutex that some task holds.
  have hwaits : ∀ t ∈ ts, t ≠ .skip → ∃ m, t.waits = some m ∧ ¬ Free ts m := by
    intro t ht hskip
    by_contra hno
    push Not at hno
    obtain ⟨t', ht'⟩ := Cmd.exists_step (Free ts) hskip hno
    exact hstuck t ht t' ht'
  have hclimb : ∀ n, ∃ t ∈ ts, ∃ m, t.waits = some m ∧ n ≤ rank m := by
    intro n
    induction n with
    | zero =>
      obtain ⟨t, ht, hskip⟩ := hlive
      obtain ⟨m, hw, -⟩ := hwaits t ht hskip
      exact ⟨t, ht, m, hw, Nat.zero_le _⟩
    | succ n ih =>
      obtain ⟨t, ht, m, hw, hle⟩ := ih
      have hskip : t ≠ .skip := by
        rintro rfl
        cases hw
      obtain ⟨m', hw', hheld⟩ := hwaits t ht hskip
      obtain rfl := Option.some.inj (hw.symm.trans hw')
      unfold Free at hheld
      push Not at hheld
      obtain ⟨u, hu, hm⟩ := hheld
      obtain ⟨k, hk, -⟩ := hwaits u hu (by
        rintro rfl
        cases hm)
      have hlt := (Cmd.rank_lt_of_waits (ho u hu) hk).2 m hm
      exact ⟨u, hu, k, hk, by omega⟩
  -- The ranks waited for have no bound, but the tasks are finitely many.
  have hbound : ∃ n, ∀ t ∈ ts, ∀ m, t.waits = some m → rank m < n := by
    clear ho hstuck hwaits hclimb hlive h
    induction ts with
    | nil => exact ⟨0, fun t ht => absurd ht List.not_mem_nil⟩
    | cons t rest ih =>
      obtain ⟨n, hn⟩ := ih
      refine ⟨max n ((t.waits.elim 0 rank) + 1), fun u hu m hm => ?_⟩
      rcases List.mem_cons.mp hu with rfl | hu
      · rw [hm]
        simp
      · have := hn u hu m hm
        omega
  obtain ⟨n, hn⟩ := hbound
  obtain ⟨t, ht, m, hw, hle⟩ := hclimb n
  have := hn t ht m hw
  omega

end Locks
