import AgentSync.Machine

/-! When the bridge applies the remote state.

Document changes come in bursts, and `scheduleApplyRemoteState` makes one pass of many: the first
call arms a timer, and calls while it is armed or a pass is in flight leave a note that one more
is due. The note is read after a pass that has ended well only, since the `finally` of
`runScheduledApply` lets a rejection out past it.

The law is that every call is followed by the start of a pass, by the second time that a timer
fires or a pass ends (`schedule_followed`). What carries it is `Due`: until that pass starts, a
timer is armed or the pass in flight has the note. -/
namespace AgentSync.Obsidian

/-- The fields of the debounce, and how many passes have been started. -/
structure ApplyQueue where
  applyTimer : Bool
  applyPending : Bool
  applyInFlight : Bool
  disposed : Bool
  started : Nat
  deriving DecidableEq, Repr

namespace ApplyQueue

def new : ApplyQueue := ⟨false, false, false, false, 0⟩

/-- `scheduleApplyRemoteState`. -/
def schedule (q : ApplyQueue) : ApplyQueue :=
  if q.disposed then q
  else if q.applyInFlight then {q with applyPending := true}
  else if q.applyTimer then {q with applyPending := true}
  else {q with applyTimer := true}

/-- The callback of the timer, and `runScheduledApply` to its first await. -/
def fire (q : ApplyQueue) : ApplyQueue :=
  let q := {q with applyTimer := false}
  if q.disposed then q else {q with applyInFlight := true, started := q.started + 1}

/-- `runScheduledApply` from the end of its pass on. -/
def settle (q : ApplyQueue) (resolved : Bool) : ApplyQueue :=
  let q := {q with applyInFlight := false}
  if resolved then
    if q.applyPending && !q.disposed then schedule {q with applyPending := false} else q
  else q

def dispose (q : ApplyQueue) : ApplyQueue :=
  {q with disposed := true, applyTimer := false, applyPending := false}

inductive Act where
  | schedule
  | fire
  /-- The pass in flight ends, or throws. -/
  | settle (resolved : Bool)
  | dispose
  deriving DecidableEq, Repr

def step (q : ApplyQueue) : Act → Option ApplyQueue
  | .schedule => some q.schedule
  | .fire => if q.applyTimer then some q.fire else none
  | .settle resolved => if q.applyInFlight then some (q.settle resolved) else none
  | .dispose => some q.dispose

/-- No pass throws while one more is due. -/
def Calm (q : ApplyQueue) : Act → Prop
  | .settle false => q.applyPending = false
  | _ => True

/-! ### What a run keeps -/

/-- The timer is armed only while no pass is in flight, and a note is left only while there is a
timer or a pass. -/
structure Sound (q : ApplyQueue) : Prop where
  single : q.applyTimer = true → q.applyInFlight = false
  pending : q.disposed = false → q.applyPending = true →
    q.applyTimer = true ∨ q.applyInFlight = true

/-- How often a timer has fired or a pass has ended. -/
def turns (_ : ApplyQueue) (a : Act) (_ : ApplyQueue) (k : Nat) : Nat :=
  match a with
  | .fire | .settle _ => k + 1
  | _ => k

/-- `k` turns after a call a pass has been started after the first `n`, or one is going to be. -/
structure Due (n k : Nat) (q : ApplyQueue) : Prop where
  le : n ≤ q.started
  kept : q.disposed = true ∨ n < q.started ∨ q.applyTimer = true ∧ k ≤ 1 ∨
    q.applyInFlight = true ∧ q.applyPending = true ∧ k = 0

variable {q q' : ApplyQueue} {a : Act} {n k : Nat}

theorem sound_new : new.Sound := ⟨nofun, nofun⟩

theorem Sound.step (h : q.Sound) (hcalm : q.Calm a) (hstep : q.step a = some q') : q'.Sound := by
  obtain ⟨hsingle, hpending⟩ := h
  cases a with
  | schedule =>
    obtain rfl := Option.some.inj hstep
    constructor <;> grind [schedule]
  | fire =>
    obtain ⟨htimer, hq'⟩ := Option.ite_none_right_eq_some.mp hstep
    obtain rfl := Option.some.inj hq'
    constructor <;> grind [fire]
  | settle resolved =>
    obtain ⟨hflight, hq'⟩ := Option.ite_none_right_eq_some.mp hstep
    obtain rfl := Option.some.inj hq'
    cases resolved with
    | true => constructor <;> grind [settle, schedule]
    | false =>
      -- The note would be lost, and there is none.
      have hnone : q.applyPending = false := hcalm
      constructor <;> grind [settle]
  | dispose =>
    obtain rfl := Option.some.inj hstep
    exact ⟨nofun, nofun⟩

theorem due_schedule (q : ApplyQueue) : Due q.started 0 q.schedule := by
  constructor <;> grind [schedule]

theorem Due.step (h : Due n k q) (hsound : q.Sound) (hcalm : q.Calm a)
    (hstep : q.step a = some q') : Due n (turns q a q' k) q' := by
  obtain ⟨hle, hkept⟩ := h
  cases a with
  | schedule =>
    obtain rfl := Option.some.inj hstep
    constructor <;> grind [schedule, turns]
  | fire =>
    obtain ⟨htimer, hq'⟩ := Option.ite_none_right_eq_some.mp hstep
    obtain rfl := Option.some.inj hq'
    constructor <;> grind [fire]
  | settle resolved =>
    obtain ⟨hflight, hq'⟩ := Option.ite_none_right_eq_some.mp hstep
    obtain rfl := Option.some.inj hq'
    have hidle : q.applyTimer = false := by grind [hsound.single]
    cases resolved with
    | true => constructor <;> grind [settle, schedule, turns]
    | false =>
      have hnone : q.applyPending = false := hcalm
      constructor <;> grind [settle]
  | dispose =>
    obtain rfl := Option.some.inj hstep
    exact ⟨hle, .inl rfl⟩

/-- **Where no pass throws while one more is due, a note is left only while there is a timer or a
pass, and every call is followed by the start of a pass**: it has come when all is quiet, and by
the second turn at the latest, whatever other calls come in between. -/
theorem schedule_followed (h : Machine.Reach step Calm new q) :
    (q.disposed = false → q.applyPending = true →
      q.applyTimer = true ∨ q.applyInFlight = true) ∧
    ∀ x : ApplyQueue × Nat,
      Machine.Reach (Machine.traced step turns) (fun x a => x.1.Calm a) (q.schedule, 0) x →
      x.1.disposed = false →
      x.1.applyTimer = false ∧ x.1.applyInFlight = false ∨ 2 ≤ x.2 → q.started < x.1.started := by
  have hq : q.Sound := h.invariant sound_new fun _ _ _ hs hcalm hstep => hs.step hcalm hstep
  refine ⟨hq.pending, fun x hx hopen hquiet => ?_⟩
  have hstart : q.schedule.Sound := hq.step (a := .schedule) trivial rfl
  have hdue : x.1.Sound ∧ Due q.started x.2 x.1 := by
    refine hx.invariant (I := fun x => x.1.Sound ∧ Due q.started x.2 x.1)
      ⟨hstart, due_schedule q⟩ fun y a y' hy hcalm hstep => ?_
    obtain ⟨hstep, hturns⟩ := Machine.traced_eq_some.mp hstep
    rw [hturns]
    exact ⟨hy.1.step hcalm hstep, hy.2.step hy.1 hcalm hstep⟩
  grind [hdue.2.kept]

/-- A pass is in flight. -/
private def flying : ApplyQueue := ⟨false, false, true, false, 1⟩

private theorem reach_flying : Machine.Reach step Calm new flying :=
  .step .fire (.step .schedule .start trivial rfl) trivial rfl

theorem schedule_followed_flying :
    (flying.disposed = false → flying.applyPending = true →
      flying.applyTimer = true ∨ flying.applyInFlight = true) ∧
    ∃ x : ApplyQueue × Nat,
      Machine.Reach (Machine.traced step turns) (fun x a => x.1.Calm a) (flying.schedule, 0) x ∧
      flying.started < x.1.started := by
  obtain ⟨hpending, hfollowed⟩ := schedule_followed reach_flying
  have hreach : Machine.Reach (Machine.traced step turns) (fun x a => x.1.Calm a)
      (flying.schedule, 0) (⟨false, false, true, false, 2⟩, 2) :=
    .step .fire (.step (.settle true) .start trivial rfl) trivial rfl
  exact ⟨hpending, _, hreach, hfollowed _ hreach rfl (.inr (Nat.le_refl _))⟩

/-- The pass throws while one more is due: the note stays, with no timer and no pass to read it,
and the call that left it is followed by none. -/
theorem schedule_forgotten : Machine.Reach step (fun _ _ => True) new flying ∧
    ∃ q, Machine.Reach step (fun _ _ => True) flying.schedule q ∧
      q.disposed = false ∧ q.applyPending = true ∧ q.applyTimer = false ∧
      q.applyInFlight = false ∧ q.started = flying.started :=
  ⟨reach_flying.mono fun _ _ _ => trivial,
    _, .step (.settle false) .start trivial rfl, rfl, rfl, rfl, rfl, rfl⟩

end ApplyQueue

end AgentSync.Obsidian
