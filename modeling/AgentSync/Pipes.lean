import Mathlib.Data.List.Basic
import Mathlib.Logic.Function.Basic

/-! Items that come in by themselves, and readers that ask for them.

What nobody waits for is queued, and a reader that finds nothing leaves in a single slot the promise
that the next item resolves. A promise is resolved before its reader goes on, so an item can be on
its way (`holding`). Beside the pipe stand what has come in and what has been read, and as long as
one reader at a time has asked for an item the two differ by what is on its way and what is queued
(`Stand`). -/
namespace Pipes

inductive Reader (α : Type) where
  /-- It has not begun, or is at a yield. -/
  | idle
  | waiting
  /-- An item is on its way to it. -/
  | holding (item : α)
  /-- It is about to learn that there is no item. -/
  | ending
  | ended
  /-- It was told to return. -/
  | left
  deriving DecidableEq, Repr

/-- The reader has been asked for an item, and has not answered. -/
def Reader.busy {α : Type} : Reader α → Bool
  | .waiting | .holding _ | .ending => true
  | .idle | .ended | .left => false

structure Pipe (ι α : Type) where
  queue : List α
  waiter : Option ι
  reader : ι → Reader α
  arrived : List α
  yielded : List α

namespace Pipe

variable {ι α : Type} [DecidableEq ι]

def empty : Pipe ι α := ⟨[], none, fun _ => .idle, [], []⟩

/-- An item comes in. -/
def push (x : α) (s : Pipe ι α) : Pipe ι α :=
  match s.waiter with
  | some i => {s with
      waiter := none
      reader := Function.update s.reader i (.holding x)
      arrived := s.arrived ++ [x]}
  | none => {s with
      queue := s.queue ++ [x]
      arrived := s.arrived ++ [x]}

/-- Who waits is told that there is no item. -/
def wake (s : Pipe ι α) : Pipe ι α :=
  match s.waiter with
  | some i => {s with
      waiter := none
      reader := Function.update s.reader i .ending}
  | none => s

/-- Reader `i` shifts `x` off the queue. -/
def take (i : ι) (x : α) (rest : List α) (s : Pipe ι α) : Pipe ι α :=
  {s with
    queue := rest
    reader := Function.update s.reader i (.holding x)}

def wait (i : ι) (s : Pipe ι α) : Pipe ι α :=
  {s with
    waiter := some i
    reader := Function.update s.reader i .waiting}

def finish (i : ι) (s : Pipe ι α) : Pipe ι α :=
  {s with reader := Function.update s.reader i .ended}

/-- Reader `i` goes on, where its promise is resolved. -/
def resume (i : ι) (s : Pipe ι α) : Option (Pipe ι α) :=
  match s.reader i with
  | .holding x => some {s with
      reader := Function.update s.reader i .idle
      yielded := s.yielded ++ [x]}
  | .ending => some (s.finish i)
  | _ => none

/-- Reader `i` is told to return where it stands. -/
def leave (i : ι) (s : Pipe ι α) : Option (Pipe ι α) :=
  match s.reader i with
  | .idle => some {s with reader := Function.update s.reader i .left}
  | _ => none

section
variable {i : ι} {x : α} {rest : List α} {s s' : Pipe ι α}

@[simp] theorem reader_take : (s.take i x rest).reader i = .holding x := Function.update_self ..

@[simp] theorem reader_wait : (s.wait i).reader i = .waiting := Function.update_self ..

@[simp] theorem reader_finish : (s.finish i).reader i = .ended := Function.update_self ..

theorem reader_resume (hs : s.resume i = some s') :
    s'.reader i = .idle ∨ s.reader i = .ending ∧ s'.reader i = .ended := by
  unfold resume at hs
  split at hs
  next =>
    obtain rfl := Option.some.inj hs
    exact .inl (Function.update_self ..)
  next hending =>
    obtain rfl := Option.some.inj hs
    exact .inr ⟨hending, reader_finish⟩
  next => cases hs

theorem reader_leave (hs : s.leave i = some s') : s'.reader i = .left := by
  unfold leave at hs
  split at hs
  next =>
    obtain rfl := Option.some.inj hs
    exact Function.update_self ..
  next => cases hs

end

/-- Nobody has been asked for an item. -/
def Resting (s : Pipe ι α) : Prop := ∀ j, (s.reader j).busy = false

end Pipe

open Pipe

variable {ι α : Type}

/-- Nobody but `i` has been asked for an item. -/
def Alone (i : ι) (s : Pipe ι α) : Prop := ∀ j, j ≠ i → (s.reader j).busy = false

/-- How a pipe stands whose readers are asked one at a time. -/
inductive Stand (s : Pipe ι α) : Prop where
  | resting (hrest : s.Resting) (hwaiter : s.waiter = none)
      (horder : s.yielded ++ s.queue = s.arrived)
  | waiting (i : ι) (halone : Alone i s) (hreader : s.reader i = .waiting)
      (hwaiter : s.waiter = some i) (hqueue : s.queue = []) (horder : s.yielded = s.arrived)
  | holding (i : ι) (x : α) (halone : Alone i s) (hreader : s.reader i = .holding x)
      (hwaiter : s.waiter = none) (horder : s.yielded ++ x :: s.queue = s.arrived)
  | ending (i : ι) (halone : Alone i s) (hreader : s.reader i = .ending)
      (hwaiter : s.waiter = none) (hqueue : s.queue = []) (horder : s.yielded = s.arrived)

section
variable {s : Pipe ι α} {i j : ι} {q r : Reader α}

theorem Pipe.Resting.ne (h : s.Resting) (hr : r.busy = true) : s.reader i ≠ r := by
  intro hi
  rw [← hi, h i] at hr
  cases hr

theorem Alone.eq (h : Alone i s) (hj : (s.reader j).busy = true) : j = i := by
  by_contra hne
  rw [h j hne] at hj
  cases hj

/-- A reader that has been asked is the one that is alone. -/
theorem Alone.reader_eq (h : Alone i s) (hi : s.reader i = q) (hj : s.reader j = r)
    (hr : r.busy = true) : q = r := by
  rw [h.eq (j := j) (by rw [hj, hr])] at hj
  exact hi.symm.trans hj

end

namespace Stand

variable {s : Pipe ι α} {i j : ι} {x : α} {rest : List α}

theorem not_holding (halone : Alone i s) {r : Reader α} (hreader : s.reader i = r)
    (hr : r ≠ .holding x) : ¬ ∃ j, s.reader j = .holding x := by
  intro h
  obtain ⟨j, hj⟩ := h
  exact hr (halone.reader_eq hreader hj rfl)

/-- **What arrived and was not yielded is on its way or queued, in order.** -/
theorem order (h : Stand s) : ∃ held : Option α, s.yielded ++ held.toList ++ s.queue = s.arrived ∧
    ∀ x, held = some x ↔ ∃ i, s.reader i = .holding x := by
  cases h with
  | resting hrest _ horder =>
    refine ⟨none, by simpa using horder, fun x => iff_of_false (by simp) ?_⟩
    intro h
    obtain ⟨i, hi⟩ := h
    exact hrest.ne rfl hi
  | waiting i halone hreader _ hqueue horder =>
    refine ⟨none, by simp [hqueue, horder], fun x => iff_of_false (by simp) ?_⟩
    exact not_holding halone hreader (by simp)
  | holding i x halone hreader _ horder =>
    refine ⟨some x, by simpa using horder, fun y => ⟨fun h => ?_, fun h => ?_⟩⟩
    · exact ⟨i, by rw [hreader, Option.some.inj h]⟩
    · by_contra hne
      exact not_holding halone hreader (fun h => hne (by rw [Reader.holding.inj h])) h
  | ending i halone hreader _ hqueue horder =>
    refine ⟨none, by simp [hqueue, horder], fun x => iff_of_false (by simp) ?_⟩
    exact not_holding halone hreader (by simp)

theorem of_rest (h : Stand s) (hrest : s.Resting) :
    s.waiter = none ∧ s.yielded ++ s.queue = s.arrived := by
  cases h with
  | resting _ hwaiter horder => exact ⟨hwaiter, horder⟩
  | waiting i _ hreader | holding i _ _ hreader | ending i _ hreader =>
    exact absurd hreader (hrest.ne rfl)

/-- Where a reader waits, there is nothing to read. -/
theorem of_waiting (h : Stand s) (hreader : s.reader i = .waiting) :
    s.waiter = some i ∧ s.queue = [] ∧ s.yielded = s.arrived := by
  cases h with
  | resting hrest => exact absurd hreader (hrest.ne rfl)
  | waiting j halone _ hwaiter hqueue horder =>
    obtain rfl := halone.eq (j := i) (by rw [hreader]; rfl)
    exact ⟨hwaiter, hqueue, horder⟩
  | holding j _ halone hj | ending j halone hj =>
    cases halone.reader_eq hj hreader rfl

theorem of_waiter (h : Stand s) (hwaiter : s.waiter = some i) :
    Alone i s ∧ s.reader i = .waiting ∧ s.queue = [] ∧ s.yielded = s.arrived := by
  cases h with
  | waiting j halone hreader hj hqueue horder =>
    obtain rfl := Option.some.inj (hwaiter.symm.trans hj)
    exact ⟨halone, hreader, hqueue, horder⟩
  | resting _ hnone | holding _ _ _ _ hnone | ending _ _ _ hnone =>
    rw [hwaiter] at hnone
    cases hnone

theorem of_holding (h : Stand s) (hreader : s.reader i = .holding x) :
    Alone i s ∧ s.waiter = none ∧ s.yielded ++ x :: s.queue = s.arrived := by
  cases h with
  | resting hrest => exact absurd hreader (hrest.ne rfl)
  | holding j y halone hj hwaiter horder =>
    obtain rfl := halone.eq (j := i) (by rw [hreader]; rfl)
    obtain rfl := Reader.holding.inj (hreader.symm.trans hj)
    exact ⟨halone, hwaiter, horder⟩
  | waiting j halone hj | ending j halone hj =>
    cases halone.reader_eq hj hreader rfl

theorem of_ending (h : Stand s) (hreader : s.reader i = .ending) :
    Alone i s ∧ s.waiter = none ∧ s.queue = [] ∧ s.yielded = s.arrived := by
  cases h with
  | resting hrest => exact absurd hreader (hrest.ne rfl)
  | ending j halone _ hwaiter hqueue horder =>
    obtain rfl := halone.eq (j := i) (by rw [hreader]; rfl)
    exact ⟨halone, hwaiter, hqueue, horder⟩
  | waiting j halone hj | holding j _ halone hj =>
    cases halone.reader_eq hj hreader rfl

theorem empty : Stand (Pipe.empty : Pipe ι α) := .resting (fun _ => rfl) rfl rfl

/-! ### Steps -/

variable [DecidableEq ι] {r : Reader α}

theorem alone_update (halone : ∀ k, k ≠ i → (s.reader k).busy = false) (k : ι) (hk : k ≠ i) :
    (Function.update s.reader i r k).busy = false := by
  rw [Function.update_of_ne hk]
  exact halone k hk

theorem resting_update (halone : ∀ k, k ≠ i → (s.reader k).busy = false) (hr : r.busy = false)
    (k : ι) : (Function.update s.reader i r k).busy = false := by
  by_cases hk : k = i
  · rw [hk, Function.update_self, hr]
  · exact alone_update halone k hk

/-- A reader that has not been asked may end or leave. -/
theorem update (h : Stand s) (hi : (s.reader i).busy = false) (hr : r.busy = false) :
    Stand {s with reader := Function.update s.reader i r} := by
  have hne {j : ι} (hj : (s.reader j).busy = true) : j ≠ i := by
    intro hji
    rw [hji, hi] at hj
    cases hj
  have halone' {j : ι} (halone : Alone j s) :
      Alone j {s with reader := Function.update s.reader i r} := by
    intro k hk
    show (Function.update s.reader i r k).busy = false
    by_cases hki : k = i
    · rw [hki, Function.update_self, hr]
    · rw [Function.update_of_ne hki, halone k hk]
  cases h with
  | resting hrest hwaiter horder =>
    exact .resting (resting_update (fun k _ => hrest k) hr) hwaiter horder
  | waiting j halone hreader hwaiter hqueue horder =>
    refine .waiting j (halone' halone) ?_ hwaiter hqueue horder
    exact (Function.update_of_ne (hne (by rw [hreader]; rfl)) ..).trans hreader
  | holding j x halone hreader hwaiter horder =>
    refine .holding j x (halone' halone) ?_ hwaiter horder
    exact (Function.update_of_ne (hne (by rw [hreader]; rfl)) ..).trans hreader
  | ending j halone hreader hwaiter hqueue horder =>
    refine .ending j (halone' halone) ?_ hwaiter hqueue horder
    exact (Function.update_of_ne (hne (by rw [hreader]; rfl)) ..).trans hreader

theorem push (h : Stand s) (hending : ∀ i, s.reader i ≠ .ending) : Stand (s.push x) := by
  unfold Pipe.push
  split
  next i hwaiter =>
    obtain ⟨halone, -, hqueue, horder⟩ := h.of_waiter hwaiter
    refine .holding i x (alone_update halone) (Function.update_self ..) rfl ?_
    simp [hqueue, horder]
  next hwaiter =>
    cases h with
    | resting hrest _ horder =>
      exact .resting hrest hwaiter (by simp [← horder])
    | holding i y halone hreader _ horder =>
      exact .holding i y halone hreader hwaiter (by simp [← horder])
    | waiting i _ _ hsome =>
      rw [hwaiter] at hsome
      cases hsome
    | ending i _ hreader => exact absurd hreader (hending i)

theorem wake (h : Stand s) : Stand s.wake := by
  unfold Pipe.wake
  split
  next i hwaiter =>
    obtain ⟨halone, -, hqueue, horder⟩ := h.of_waiter hwaiter
    exact .ending i (alone_update halone) (Function.update_self ..) rfl hqueue horder
  next => exact h

theorem take (h : Stand s) (hrest : s.Resting) (hqueue : s.queue = x :: rest) :
    Stand (s.take i x rest) := by
  obtain ⟨hwaiter, horder⟩ := h.of_rest hrest
  exact .holding i x (alone_update fun k _ => hrest k) (Function.update_self ..) hwaiter
    (hqueue ▸ horder)

theorem wait (h : Stand s) (hrest : s.Resting) (hqueue : s.queue = []) : Stand (s.wait i) := by
  obtain ⟨-, horder⟩ := h.of_rest hrest
  rw [hqueue, List.append_nil] at horder
  exact .waiting i (alone_update fun k _ => hrest k) (Function.update_self ..) rfl hqueue horder

theorem finish (h : Stand s) (hrest : s.Resting) : Stand (s.finish i) := h.update (hrest i) rfl

theorem resume {s' : Pipe ι α} (h : Stand s) (hs : s.resume i = some s') : Stand s' := by
  unfold Pipe.resume at hs
  split at hs
  next x hreader =>
    obtain rfl := Option.some.inj hs
    obtain ⟨halone, hwaiter, horder⟩ := h.of_holding hreader
    exact .resting (resting_update halone rfl) hwaiter (by simpa using horder)
  next hreader =>
    obtain rfl := Option.some.inj hs
    obtain ⟨halone, hwaiter, hqueue, horder⟩ := h.of_ending hreader
    exact .resting (resting_update halone rfl) hwaiter (by simpa [Pipe.finish, hqueue] using horder)
  next => cases hs

theorem leave {s' : Pipe ι α} (h : Stand s) (hs : s.leave i = some s') : Stand s' := by
  unfold Pipe.leave at hs
  split at hs
  next hreader =>
    obtain rfl := Option.some.inj hs
    exact h.update (by rw [hreader]; rfl) rfl
  next => cases hs

/-! ### Who moves -/

theorem eq_or_of_update {q : Reader α} (h : Function.update s.reader i r j = q) :
    r = q ∨ s.reader j = q := by
  by_cases hj : j = i
  · rw [hj, Function.update_self] at h
    exact .inl h
  · rw [Function.update_of_ne hj] at h
    exact .inr h

/-- A reader moves when an item comes in only where it waits. -/
theorem reader_push (h : Stand s) (j : ι) : (s.push x).reader j = s.reader j ∨
    s.reader j = .waiting ∧ (s.push x).reader j = .holding x := by
  unfold Pipe.push
  split
  next i hwaiter =>
    by_cases hj : j = i
    · obtain rfl := hj
      exact .inr ⟨(h.of_waiter hwaiter).2.1, Function.update_self ..⟩
    · exact .inl (Function.update_of_ne hj ..)
  next => exact .inl rfl

/-- Nobody waits who was told. -/
theorem reader_wake (h : Stand s) (j : ι) : s.wake.reader j ≠ .waiting ∧
    (s.wake.reader j = s.reader j ∨ s.reader j = .waiting ∧ s.wake.reader j = .ending) := by
  unfold Pipe.wake
  split
  next i hwaiter =>
    obtain ⟨halone, hreader, -⟩ := h.of_waiter hwaiter
    dsimp only
    by_cases hj : j = i
    · obtain rfl := hj
      rw [Function.update_self]
      exact ⟨by simp, .inr ⟨hreader, rfl⟩⟩
    · rw [Function.update_of_ne hj]
      refine ⟨fun hwaiting => ?_, .inl rfl⟩
      exact hj (halone.eq (by rw [hwaiting]; rfl))
  next hwaiter =>
    refine ⟨fun hwaiting => ?_, .inl rfl⟩
    have hsome := (h.of_waiting hwaiting).1
    rw [hwaiter] at hsome
    cases hsome

end Stand

end Pipes
