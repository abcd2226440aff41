import AgentSync.Net.Outbound
import Mathlib.Algebra.Group.Nat.Defs

/-! How a supervisor retries.

A supervisor counts the attempts that have failed in a row. It waits before the next one, each
time twice as long as before until the wait is the longest that its options allow
(`backoffDelay_eq`), and gives up when as many have failed as they allow. A connection that is made
and lost starts the count anew. The phases of a supervisor show the count only, so the law is about
its history beside it (`retries_follow`). -/
namespace AgentSync.Net

def millis : Nat := 10 ^ 6

/-- `backoff_delay`, of durations in nanoseconds; their milliseconds are made a `u64`. -/
def backoffDelay (initial cap attempt : Nat) : Nat :=
  let exp := min (attempt - 1) 20
  let factor := 2 ^ exp
  min (min (initial / millis % 2 ^ 64 * factor) (2 ^ 64 - 1) * millis) cap

/-- Each wait is twice the one before, up to the longest: that the product saturates is not seen
where the longest is a number of milliseconds of a `u64`. -/
theorem backoffDelay_eq {cap : Nat} (hcap : cap ≤ (2 ^ 64 - 1) * millis) (initial attempt : Nat) :
    backoffDelay initial cap attempt =
      min (initial / millis % 2 ^ 64 * 2 ^ min (attempt - 1) 20 * millis) cap := by
  unfold backoffDelay
  rcases Nat.le_total (initial / millis % 2 ^ 64 * 2 ^ min (attempt - 1) 20) (2 ^ 64 - 1) with h | h
  · simp only [Nat.min_eq_left h]
  · have hlarge := Nat.le_trans hcap (Nat.mul_le_mul_right millis h)
    simp only [Nat.min_eq_right h]
    rw [Nat.min_eq_right hcap, Nat.min_eq_right hlarge]

/-- The default options: from half a second to half a minute. -/
example : (List.range 8).map (fun n => backoffDelay (500 * millis) (30000 * millis) (n + 1)) =
    [500, 1000, 2000, 4000, 8000, 16000, 30000, 30000].map (· * millis) := by
  decide +kernel

/-- As many attempts as the options allow; the first is made in any case. -/
def ReconnectSupervisor.allowed (x : ReconnectSupervisor) : Nat := max x.maxAttempts 1

namespace Outbound

/-! ### What becomes of the supervisors -/

/-- Where a supervisor goes when what it awaits completes. -/
inductive Goes (maxAttempts : Nat) : SupervisorPhase → Bool → SupervisorPhase → Prop
  | connects {attempt conn : Nat} : Goes maxAttempts (.connecting attempt) true (.registered conn)
  | givesUp {attempt : Nat} : maxAttempts ≤ attempt →
      Goes maxAttempts (.connecting attempt) false .finished
  | fails {attempt : Nat} : attempt < maxAttempts →
      Goes maxAttempts (.connecting attempt) false (.sleeping attempt)
  | starts {conn : Nat} {ok : Bool} : Goes maxAttempts (.registered conn) ok (.connected conn)
  | stores {conn : Nat} {ok : Bool} : Goes maxAttempts (.connected conn) ok (.waiting conn)
  | loses {conn : Nat} {dead : Option Nat} {ok : Bool} :
      Goes maxAttempts (.waiting conn) ok (.closing dead)
  | retries {attempt : Nat} {ok : Bool} :
      Goes maxAttempts (.sleeping attempt) ok (.connecting (attempt + 1))
  | reconnects {dead : Option Nat} {ok : Bool} : Goes maxAttempts (.closing dead) ok (.connecting 1)

/-- What a step makes of the supervisors. -/
inductive Moves (xs : List ReconnectSupervisor) : Act → List ReconnectSupervisor → Prop
  | stays {a : Act} (ha : ∀ i ok, a ≠ .supervise i ok) : Moves xs a xs
  | signals {a : Act} (ha : ∀ i ok, a ≠ .supervise i ok) (i : Nat) :
      Moves xs a (xs.modify i fun x => {x with signalled := true})
  | spawns {a : Act} (ha : ∀ i ok, a ≠ .supervise i ok) (maxAttempts : Nat) :
      Moves xs a (xs ++ [⟨maxAttempts, .connecting 1, false⟩])
  | goes {i : Nat} {ok : Bool} {x : ReconnectSupervisor} {phase : SupervisorPhase}
      (hi : xs[i]? = some x) (hgoes : Goes x.maxAttempts x.phase ok phase) :
      Moves xs (.supervise i ok) (xs.modify i fun x => {x with phase})
  | ends {i : Nat} {x : ReconnectSupervisor} (hi : xs[i]? = some x)
      (hsignalled : x.signalled = true)
      (hphase : (∃ conn, x.phase = .waiting conn) ∨ ∃ attempt, x.phase = .sleeping attempt) :
      Moves xs (.observe i) (xs.modify i fun x => {x with phase := .finished})

variable {s s' : Outbound} {a : Act} {i : Nat} {x : ReconnectSupervisor}

theorem store_supervisors (s : Outbound) (conn : Nat) :
    (s.store conn).supervisors = s.supervisors := by
  unfold store
  cases s.client <;> rfl

theorem moves_supervise {ok : Bool} (hi : s.supervisors[i]? = some x)
    (h : s.supervise i x ok = some s') : Moves s.supervisors (.supervise i ok) s'.supervisors := by
  obtain ⟨maxAttempts, phase, signalled⟩ := x
  unfold Outbound.supervise at h
  cases phase with
  | connecting attempt =>
    simp only at h
    cases ok with
    | true =>
      obtain rfl := Option.some.inj h
      exact .goes hi .connects
    | false =>
      simp only [Bool.false_eq_true, if_false] at h
      split at h
      next hmax =>
        obtain rfl := Option.some.inj h
        exact .goes hi (.givesUp hmax)
      next hmax =>
        obtain rfl := Option.some.inj h
        exact .goes hi (.fails (Nat.lt_of_not_le hmax))
  | registered conn =>
    obtain rfl := Option.some.inj h
    exact .goes hi .starts
  | connected conn =>
    obtain rfl := Option.some.inj h
    simp only [setPhase, store_supervisors]
    exact .goes hi .stores
  | waiting conn =>
    obtain ⟨-, h⟩ := Option.ite_none_right_eq_some.mp h
    cases hclient : s.client with
    | none =>
      rw [hclient] at h
      obtain rfl := Option.some.inj h
      exact .goes hi .loses
    | some dead =>
      rw [hclient] at h
      obtain rfl := Option.some.inj h
      exact .goes hi .loses
  | sleeping attempt =>
    obtain rfl := Option.some.inj h
    exact .goes hi .retries
  | closing conn =>
    cases conn with
    | none =>
      obtain rfl := Option.some.inj h
      exact .goes hi .reconnects
    | some conn =>
      obtain rfl := Option.some.inj h
      exact .goes hi .reconnects
  | finished => cases h

theorem moves_disconnects {again : Option Nat} (ha : ∀ i ok, a ≠ .supervise i ok) :
    Moves s.supervisors a (s.disconnects again).supervisors := by
  cases again with
  | none => exact .stays ha
  | some maxAttempts =>
    unfold disconnects
    cases s.url with
    | true => exact .spawns ha maxAttempts
    | false => exact .stays ha

theorem moves_disconnect {again : Option Nat} (ha : ∀ i ok, a ≠ .supervise i ok) :
    Moves s.supervisors a (s.disconnect again).supervisors := by
  unfold disconnect
  cases s.supervisor with
  | none => exact .stays ha
  | some i => exact .signals ha i

theorem moves_proceed {ok : Bool} (h : s.proceed ok = some s') :
    Moves s.supervisors (.proceed ok) s'.supervisors := by
  have ha (i : Nat) (ok' : Bool) : Act.proceed ok ≠ .supervise i ok' := by simp
  unfold Outbound.proceed at h
  cases hcall : s.call with
  | idle =>
    rw [hcall] at h
    cases h
  | connecting =>
    rw [hcall] at h
    simp only at h
    split at h <;> obtain rfl := Option.some.inj h <;> exact .stays ha
  | registered conn =>
    rw [hcall] at h
    obtain rfl := Option.some.inj h
    exact .stays ha
  | connected conn =>
    rw [hcall] at h
    obtain rfl := Option.some.inj h
    show Moves s.supervisors _ (s.store conn).supervisors
    rw [store_supervisors]
    exact .stays ha
  | shuttingDown i again =>
    rw [hcall] at h
    obtain ⟨-, h⟩ := Option.ite_none_right_eq_some.mp h
    obtain rfl := Option.some.inj h
    exact .stays ha
  | taking again =>
    rw [hcall] at h
    simp only at h
    split at h
    next =>
      obtain rfl := Option.some.inj h
      exact .stays ha
    next =>
      obtain rfl := Option.some.inj h
      exact moves_disconnects ha
  | closing conn again =>
    rw [hcall] at h
    obtain rfl := Option.some.inj h
    exact moves_disconnects (s := s.unregisterPeer conn) ha

/-- **What a step does to the supervisors.** -/
theorem step_moves (h : step s a = some s') :
    Moves s.supervisors a s'.supervisors := by
  cases a with
  | connect =>
    obtain ⟨-, h⟩ := Option.ite_none_right_eq_some.mp h
    obtain rfl := Option.some.inj h
    exact .stays (by simp)
  | connectWithReconnect maxAttempts =>
    obtain ⟨-, h⟩ := Option.ite_none_right_eq_some.mp h
    obtain rfl := Option.some.inj h
    exact moves_disconnect (s := {s with disconnected := false}) (by simp)
  | disconnect =>
    obtain ⟨-, h⟩ := Option.ite_none_right_eq_some.mp h
    obtain rfl := Option.some.inj h
    exact moves_disconnect (by simp)
  | proceed ok => exact moves_proceed h
  | timeout =>
    simp only [step] at h
    split at h
    next =>
      obtain rfl := Option.some.inj h
      exact .stays (by simp)
    next => cases h
  | supervise i ok =>
    obtain ⟨x, hi, h⟩ := Option.bind_eq_some_iff.mp h
    exact moves_supervise hi h
  | observe i =>
    obtain ⟨x, hi, h⟩ := Option.bind_eq_some_iff.mp h
    split at h
    next conn hphase =>
      obtain ⟨hsignalled, h⟩ := Option.ite_none_right_eq_some.mp h
      obtain rfl := Option.some.inj h
      exact .ends hi hsignalled (.inl ⟨conn, hphase⟩)
    next attempt hphase =>
      obtain ⟨hsignalled, h⟩ := Option.ite_none_right_eq_some.mp h
      obtain rfl := Option.some.inj h
      exact .ends hi hsignalled (.inr ⟨attempt, hphase⟩)
    next => cases h
  | hangup conn =>
    obtain ⟨-, h⟩ := Option.ite_none_right_eq_some.mp h
    obtain rfl := Option.some.inj h
    exact .stays (by simp)
  | frame conn =>
    obtain ⟨-, h⟩ := Option.ite_none_right_eq_some.mp h
    obtain rfl := Option.some.inj h
    exact .stays (by simp)

/-! ### The count -/

/-- The attempts that have failed in a row, the last one first in the history. -/
def streak (attempts : List Bool) : Nat := (attempts.takeWhile fun ok => !ok).length

/-- What completes is an attempt if the supervisor is connecting. -/
def attempted (ok : Bool) (attempts : List Bool) : SupervisorPhase → List Bool
  | .connecting _ => ok :: attempts
  | _ => attempts

/-- What has come of the attempts of each supervisor. -/
def note (s : Outbound) (a : Act) (_ : Outbound) (history : Nat → List Bool) : Nat → List Bool :=
  match a with
  | .supervise i ok =>
    match s.supervisors[i]? with
    | some x => Function.update history i (attempted ok (history i) x.phase)
    | none => history
  | _ => history

theorem note_of_ne {history : Nat → List Bool} (ha : ∀ i ok, a ≠ .supervise i ok) :
    note s a s' history = history := by
  cases a with
  | supervise i ok => exact absurd rfl (ha i ok)
  | _ => rfl

theorem note_supervise {history : Nat → List Bool} {ok : Bool} (hi : s.supervisors[i]? = some x) :
    note s (.supervise i ok) s' history =
      Function.update history i (attempted ok (history i) x.phase) := by
  rw [note, hi]

/-- A supervisor goes by what has come of its attempts. -/
def Paced (x : ReconnectSupervisor) (attempts : List Bool) : Prop :=
  match x.phase with
  | .connecting attempt => attempt = streak attempts + 1 ∧ attempt ≤ x.allowed
  | .sleeping attempt => attempt = streak attempts ∧ 0 < attempt ∧ attempt < x.maxAttempts
  | .finished => streak attempts = x.allowed ∨ x.signalled = true ∧ streak attempts < x.allowed
  | _ => streak attempts = 0

theorem streak_true (attempts : List Bool) : streak (true :: attempts) = 0 := rfl

theorem streak_false (attempts : List Bool) :
    streak (false :: attempts) = streak attempts + 1 := rfl

theorem Paced.signal {attempts : List Bool} (h : Paced x attempts) :
    Paced {x with signalled := true} attempts := by
  obtain ⟨maxAttempts, phase, signalled⟩ := x
  cases phase with
  | finished => exact h.imp_right fun h => ⟨rfl, h.2⟩
  | _ => exact h

/-- The supervisor goes on, and its history with it. -/
theorem Paced.goes {attempts : List Bool} (h : Paced x attempts) {ok : Bool}
    {phase : SupervisorPhase} (hgoes : Goes x.maxAttempts x.phase ok phase) :
    Paced {x with phase} (attempted ok attempts x.phase) := by
  obtain ⟨maxAttempts, phase', signalled⟩ := x
  cases hgoes with
  | connects => exact streak_true attempts
  | givesUp hmax =>
    obtain ⟨rfl, hle⟩ := h
    refine .inl ((streak_false attempts).trans ?_)
    simp only [ReconnectSupervisor.allowed] at hle hmax ⊢
    omega
  | fails hlt =>
    obtain ⟨rfl, -⟩ := h
    exact ⟨(streak_false attempts).symm, Nat.succ_pos _, hlt⟩
  | starts => exact h
  | stores => exact h
  | loses => exact h
  | retries =>
    obtain ⟨rfl, -, hlt⟩ := h
    refine ⟨rfl, ?_⟩
    simp only [ReconnectSupervisor.allowed] at hlt ⊢
    omega
  | reconnects =>
    have hnone : streak attempts = 0 := h
    refine ⟨?_, Nat.le_max_right _ _⟩
    show 1 = streak attempts + 1
    rw [hnone]

/-- It is told to end. -/
theorem Paced.ends {attempts : List Bool} (h : Paced x attempts) (hsignalled : x.signalled = true)
    (hphase : (∃ conn, x.phase = .waiting conn) ∨ ∃ attempt, x.phase = .sleeping attempt) :
    Paced {x with phase := .finished} attempts := by
  obtain ⟨maxAttempts, phase, signalled⟩ := x
  refine .inr ⟨hsignalled, ?_⟩
  simp only [ReconnectSupervisor.allowed]
  rcases hphase with ⟨conn, rfl⟩ | ⟨attempt, rfl⟩
  · have hnone : streak attempts = 0 := h
    omega
  · obtain ⟨rfl, -, hlt⟩ := h
    simp only at hlt
    omega

/-- Each supervisor is paced, and those that are still to come have no history. -/
structure AllPaced (xs : List ReconnectSupervisor) (history : Nat → List Bool) : Prop where
  paced : ∀ (i : Nat) (x : ReconnectSupervisor), xs[i]? = some x → Paced x (history i)
  fresh : ∀ i, xs.length ≤ i → history i = []

/-- One supervisor goes on. -/
theorem AllPaced.modify {xs : List ReconnectSupervisor} {history : Nat → List Bool}
    (h : AllPaced xs history) (hi : xs[i]? = some x) (f : ReconnectSupervisor → ReconnectSupervisor)
    {attempts : List Bool} (hf : Paced (f x) attempts) :
    AllPaced (xs.modify i f) (Function.update history i attempts) where
  paced j y hy := by
    rw [List.getElem?_modify] at hy
    by_cases hj : i = j
    · subst hj
      simp only [if_true, hi, Option.map_eq_map, Option.map_some] at hy
      obtain rfl := Option.some.inj hy
      rwa [Function.update_self]
    · simp only [if_neg hj, id_map'] at hy
      rw [Function.update_of_ne (Ne.symm hj)]
      exact h.paced j y hy
  fresh j hj := by
    rw [List.length_modify] at hj
    have hlt := (List.getElem?_eq_some_iff.mp hi).1
    rw [Function.update_of_ne (by omega)]
    exact h.fresh j hj

theorem AllPaced.spawn {xs : List ReconnectSupervisor} {history : Nat → List Bool}
    (h : AllPaced xs history) (maxAttempts : Nat) :
    AllPaced (xs ++ [⟨maxAttempts, .connecting 1, false⟩]) history where
  paced j y hy := by
    rcases Nat.lt_trichotomy j xs.length with hj | rfl | hj
    · rw [List.getElem?_append_left hj] at hy
      exact h.paced j y hy
    · rw [List.getElem?_concat_length] at hy
      obtain rfl := Option.some.inj hy
      rw [h.fresh _ (Nat.le_refl _)]
      exact ⟨rfl, Nat.le_max_right _ _⟩
    · rw [List.getElem?_eq_none (by simp; omega)] at hy
      cases hy
  fresh j hj := by
    rw [List.length_append] at hj
    exact h.fresh j (by omega)

/-- **One step.** -/
theorem AllPaced.step {history : Nat → List Bool} (h : AllPaced s.supervisors history)
    (hs : Outbound.step s a = some s') : AllPaced s'.supervisors (note s a s' history) := by
  have hmoves := step_moves hs
  generalize s'.supervisors = xs at hmoves ⊢
  cases hmoves with
  | stays ha => rwa [note_of_ne ha]
  | signals ha i =>
    rw [note_of_ne ha]
    cases hi : s.supervisors[i]? with
    | none =>
      rw [List.modify_eq_self (List.getElem?_eq_none_iff.mp hi)]
      exact h
    | some x =>
      have hsignalled := h.modify hi (fun x => {x with signalled := true}) (h.paced i x hi).signal
      rwa [Function.update_eq_self] at hsignalled
  | spawns ha maxAttempts =>
    rw [note_of_ne ha]
    exact h.spawn maxAttempts
  | goes hi hgoes =>
    rw [note_supervise hi]
    exact h.modify hi _ ((h.paced _ _ hi).goes hgoes)
  | ends hi hsignalled hphase =>
    rw [note_of_ne (by simp)]
    have hended := h.modify hi (fun x => {x with phase := .finished})
      ((h.paced _ _ hi).ends hsignalled hphase)
    rwa [Function.update_eq_self] at hended

theorem Paced.bounded {attempts : List Bool} (h : Paced x attempts) :
    streak attempts ≤ x.allowed ∧ (streak attempts = x.allowed → x.phase = .finished) ∧
      (x.phase = .finished → streak attempts = x.allowed ∨ x.signalled = true) := by
  have hpos : 0 < x.allowed := Nat.lt_of_lt_of_le Nat.one_pos (Nat.le_max_right _ _)
  have hmax : x.maxAttempts ≤ x.allowed := Nat.le_max_left _ _
  unfold Paced at h
  cases hphase : x.phase with
  | connecting attempt =>
    rw [hphase] at h
    obtain ⟨rfl, hle⟩ := h
    refine ⟨Nat.le_of_succ_le hle, fun heq => ?_, fun hends => SupervisorPhase.noConfusion hends⟩
    omega
  | sleeping attempt =>
    rw [hphase] at h
    obtain ⟨rfl, -, hlt⟩ := h
    refine ⟨by omega, fun heq => ?_, fun hends => SupervisorPhase.noConfusion hends⟩
    omega
  | finished =>
    rw [hphase] at h
    rcases h with heq | ⟨hsignalled, hlt⟩
    · exact ⟨Nat.le_of_eq heq, fun _ => rfl, fun _ => .inl heq⟩
    · exact ⟨Nat.le_of_lt hlt, fun _ => rfl, fun _ => .inr hsignalled⟩
  | registered conn | connected conn | waiting conn | closing conn =>
    rw [hphase] at h
    have hnone : streak attempts = 0 := h
    refine ⟨by omega, fun heq => ?_, fun hends => SupervisorPhase.noConfusion hends⟩
    omega

/-- **A supervisor retries as its options say**, in every run, whatever the caller and the other
supervisors do meanwhile. As many attempts in a row as the options allow are made at most; when the
last has failed it has ended, and it ends before only if it was told to. It waits only after an
attempt that has failed and with one left, and the wait is twice as long for each that has failed
before, up to the longest. -/
theorem retries_follow {url : Bool} {history : Nat → List Bool}
    (hrun : Machine.Reach (Machine.traced step note) (fun _ _ => True) (start url, fun _ => [])
      (s, history)) (hx : s.supervisors[i]? = some x) :
    streak (history i) ≤ x.allowed ∧
      (streak (history i) = x.allowed → x.phase = .finished) ∧
      (x.phase = .finished → streak (history i) = x.allowed ∨ x.signalled = true) ∧
      ∀ attempt, x.phase = .sleeping attempt → 0 < streak (history i) ∧
        streak (history i) < x.maxAttempts ∧
        ∀ initial cap, cap ≤ (2 ^ 64 - 1) * millis → backoffDelay initial cap attempt =
          min (initial / millis % 2 ^ 64 * 2 ^ min (streak (history i) - 1) 20 * millis) cap := by
  have hstart : AllPaced (start url).supervisors fun _ => [] := by
    refine ⟨fun j y hy => ?_, fun _ _ => rfl⟩
    cases hy
  have hall : AllPaced s.supervisors history :=
    hrun.invariant (I := fun y => AllPaced y.1.supervisors y.2) hstart fun y a y' h _ hs => by
      obtain ⟨hstep, hnote⟩ := Machine.traced_eq_some.mp hs
      rw [hnote]
      exact h.step hstep
  have h := hall.paced i x hx
  obtain ⟨hle, hlast, hfinished⟩ := h.bounded
  refine ⟨hle, hlast, hfinished, fun attempt hphase => ?_⟩
  rw [Paced, hphase] at h
  obtain ⟨rfl, hpos, hlt⟩ := h
  exact ⟨hpos, hlt, fun initial cap hcap => backoffDelay_eq hcap initial _⟩

/-- The hub cannot be reached: a supervisor with two attempts fails, waits, fails and gives up. -/
theorem retries_follow_unreachable : ∃ (s : Outbound) (x : ReconnectSupervisor)
    (history : Nat → List Bool), s.supervisors[0]? = some x ∧ history 0 = [false, false] ∧
      x.phase = .finished ∧ streak (history 0) ≤ x.allowed := by
  let acts : List Act := [.connectWithReconnect 2, .proceed true, .supervise 0 false,
    .supervise 0 true, .supervise 0 false]
  have hread : ((Machine.run (Machine.traced step note) (start true, fun _ => []) acts).map
      fun y => (y.1.supervisors, y.2 0)) =
        some ([⟨2, .finished, false⟩], [false, false]) := by
    decide +kernel
  obtain ⟨⟨s, history⟩, hs, hread⟩ := Option.map_eq_some_iff.mp hread
  obtain ⟨hsups, hhistory⟩ := Prod.mk.inj hread
  have hx : s.supervisors[0]? = some ⟨2, .finished, false⟩ := by rw [hsups]; rfl
  have hrun := Machine.Reach.of_run (.of_forall (fun _ _ => trivial) acts) hs
  exact ⟨s, _, history, hx, hhistory, rfl, (retries_follow hrun hx).1⟩

end Outbound

end AgentSync.Net
