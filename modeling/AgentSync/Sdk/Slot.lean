import AgentSync.Sdk.Uplink

/-! The connection field of a TypeScript vault.

`isConnected` and the kick after a local change go by `this.connection` alone. A `connect` stores
its connection there when the handshake is over, and every `connect` and every `disconnect` clears
the field once its own `conn.close()` has resolved, whatever the field holds by then.

The law (`Follows`) is that the field is the connection of the sync loop that runs. It holds in
every run in which nothing is stored over, or cleared from under, a running loop
(`undisturbed`). -/
namespace AgentSync.Sdk.Uplink

variable (s : Uplink) (off : List Nat)

def isConnected : Bool := s.connection.isSome

/-- The connection that `kickSyncLoop` pumps on. -/
def kickSyncLoop : Option Nat := s.connection

/-! ### The law and its condition -/

/-- The connections whose sync loops were running when the vault was told to disconnect. -/
def calledOff (a : Act) (_ : Uplink) : List Nat :=
  match a with
  | .disconnect => off ++ s.attempts.filterMap (·.phase.loop)
  | .close => if s.closed then off else off ++ s.attempts.filterMap (·.phase.loop)
  | _ => off

/-- A sync loop runs on the connection, and the vault has not been told to disconnect since it
was stored. -/
def lives (c : Nat) : Bool := s.attempts.any (·.phase.loop = some c) && c ∉ off

/-- The field is the connection of the running sync loop. -/
def Follows (x : Uplink × List Nat) : Prop :=
  ∀ c, x.1.lives x.2 c = true → x.1.connection = some c ∧ x.1.isConnected = true ∧
    x.1.kickSyncLoop = some c

/-- Calls come one after the other, each once the one before has been ended by a `disconnect()`
that has resolved. -/
def sequential : Act → Bool
  | .connect | .connectWithReconnect _ => s.attempts.isEmpty || s.disconnected
  | _ => true

/-- An attempt or a teardown that is about to set or clear the field finds no connection there
whose loop runs. -/
def undisturbed : Act → Bool
  | .advance i _ => (s.attempts[i]?).all fun x =>
    match x.phase with
    | .handshaken _ | .finishing _ _ => s.connection.all fun c => !s.lives off c
    | _ => true
  | .resume k => (s.teardowns[k]?).all fun d =>
    match d.phase with
    | .awaiting _ => s.connection.all fun c => !s.lives off c
    | _ => true
  | _ => true

/-- The run of a vault, with the connections it was told to give up. -/
abbrev slotStep : Uplink × List Nat → Act → Option (Uplink × List Nat) :=
  Machine.traced step fun s a s' off => s.calledOff off a s'

/-! ### What touches the field -/

variable {s off} {s' : Uplink} {i : Nat} {x : Attempt} {r : Resolution} {c : Nat}

theorem lives_iff : s.lives off c = true ↔
    (∃ y ∈ s.attempts, y.phase.loop = some c) ∧ c ∉ off := by
  simp [lives]

theorem connection_pump {handling more : Bool} :
    (s.pump i x c handling more).connection = s.connection := by
  unfold pump
  split <;> rfl

theorem connection_flush : (s.flush i x c).connection = s.connection := by
  unfold flush
  split <;> rfl

theorem connection_handle : (s.handle i x c r).connection = s.connection := by
  unfold handle
  split
  next =>
    split
    next => rfl
    next =>
      split
      next => exact connection_flush
      next => exact connection_pump
  all_goals rfl

theorem connection_retry {signal attempt : Nat} :
    (s.retry i x signal attempt).connection = s.connection := by
  unfold retry
  split <;> rfl

/-- Only the end of a handshake and the end of a clean-up touch the field. -/
theorem advance_connection (h : s.advance i x r = some s')
    (hstored : ∀ conn, x.phase ≠ .handshaken conn)
    (hcleared : ∀ conn failed, x.phase ≠ .finishing conn failed) :
    s'.connection = s.connection := by
  unfold advance at h
  split at h
  next =>
    split at h
    · obtain rfl := Option.some.inj h
      rfl
    · obtain rfl := Option.some.inj h
      unfold ends
      rfl
  next =>
    simp only at h
    split at h
    · split at h
      · obtain rfl := Option.some.inj h
        rfl
      · split at h
        · cases h
        · obtain rfl := Option.some.inj h
          rfl
    · obtain rfl := Option.some.inj h
      rfl
  next hx => exact absurd hx (hstored _)
  next =>
    split at h
    · obtain rfl := Option.some.inj h
      exact connection_pump
    · obtain rfl := Option.some.inj h
      rfl
  next =>
    split at h
    · obtain rfl := Option.some.inj h
      exact connection_handle
    · obtain ⟨-, h⟩ := Option.ite_none_right_eq_some.mp h
      obtain rfl := Option.some.inj h
      rfl
  next =>
    split at h <;> obtain rfl := Option.some.inj h <;> rfl
  next =>
    obtain rfl := Option.some.inj h
    rfl
  next =>
    split at h
    · obtain rfl := Option.some.inj h
      rfl
    · obtain rfl := Option.some.inj h
      exact connection_pump
  next =>
    obtain rfl := Option.some.inj h
    rfl
  next =>
    obtain rfl := Option.some.inj h
    rfl
  next hx => exact absurd hx (hcleared _ _)
  next =>
    obtain ⟨signal, -, h⟩ := Option.map_eq_some_iff.mp h
    split at h
    · exact h ▸ connection_retry
    · split at h <;> exact h ▸ rfl
  next =>
    obtain ⟨signal, -, h⟩ := Option.map_eq_some_iff.mp h
    exact h ▸ connection_retry
  next => cases h

/-! ### What a step keeps -/

variable {off' : List Nat}

/-- A step leaves the field or finds no connection there whose loop runs, and a sync loop that
it starts runs on the stored connection. -/
theorem Follows.keep (h : Follows (s, off)) (hoff : ∀ c ∈ off, c ∈ off')
    (hloops : ∀ y ∈ s'.attempts, ∀ c, y.phase.loop = some c →
      (∃ y' ∈ s.attempts, y'.phase.loop = some c) ∨ s'.connection = some c)
    (hfield : s'.connection = s.connection ∨
      (s.connection.all fun c => !s.lives off c) = true) : Follows (s', off') := by
  intro c hc
  obtain ⟨⟨y, hy, hloop⟩, hlive⟩ := lives_iff.mp hc
  have hconn : s'.connection = some c := by
    rcases hloops y hy c hloop with hold | hconn
    · have hlives : s.lives off c = true := lives_iff.mpr ⟨hold, fun hmem => hlive (hoff c hmem)⟩
      have hstored := (h c hlives).1
      rcases hfield with hsame | hvacant
      · exact hsame.trans hstored
      · rw [hstored, Option.all_some, hlives] at hvacant
        cases hvacant
    · exact hconn
  exact ⟨hconn, by rw [isConnected, hconn]; rfl, hconn⟩

/-- A step that starts no sync loop and leaves the field. -/
theorem Follows.quiet (h : Follows (s, off)) (hoff : ∀ c ∈ off, c ∈ off')
    (hloops : ∀ y ∈ s'.attempts, ∀ c, y.phase.loop = some c →
      ∃ y' ∈ s.attempts, y'.phase.loop = some c)
    (hconn : s'.connection = s.connection) : Follows (s', off') :=
  h.keep hoff (fun y hy c hloop => .inl (hloops y hy c hloop)) (.inl hconn)

theorem Follows.advance (h : Follows (s, off)) (hi : s.attempts[i]? = some x)
    (hguard : s.undisturbed off (.advance i r) = true) (hs : s.advance i x r = some s') :
    Follows (s', off) := by
  simp only [undisturbed, hi, Option.all_some] at hguard
  obtain ⟨t, x', hput, hmoved⟩ := advance_moves hs
  have hconn : s'.connection = t.connection := by
    rw [hput]
    rfl
  refine h.keep (fun c hc => hc) (fun y hy c hloop => ?_) ?_
  · rw [hput] at hy
    rcases List.mem_or_eq_of_mem_set hy with hy | rfl
    · exact .inl ⟨y, hmoved.keeps.attempts ▸ hy, hloop⟩
    · rcases hmoved.loop c hloop with ⟨hloop, -⟩ | ⟨-, hstored⟩
      · exact .inl ⟨x, List.mem_of_getElem? hi, hloop⟩
      · exact .inr (hconn.trans hstored)
  · by_cases hstored : ∃ conn, x.phase = .handshaken conn
    · obtain ⟨conn, hx⟩ := hstored
      rw [hx] at hguard
      exact .inr hguard
    · by_cases hcleared : ∃ conn failed, x.phase = .finishing conn failed
      · obtain ⟨conn, failed, hx⟩ := hcleared
        rw [hx] at hguard
        exact .inr hguard
      · exact .inl (advance_connection hs (fun conn hx => hstored ⟨conn, hx⟩)
          fun conn failed hx => hcleared ⟨conn, failed, hx⟩)

theorem Follows.step {a : Act} (h : Follows (s, off)) (hguard : s.undisturbed off a = true)
    (hs : Uplink.step s a = some s') : Follows (s', s.calledOff off a s') := by
  cases a with
  | connect =>
    obtain rfl := Option.some.inj hs
    refine h.quiet (fun c hc => hc) (fun y hy c hloop => ?_) rfl
    rcases List.mem_append.mp hy with hy | hy
    · exact ⟨y, hy, hloop⟩
    · obtain rfl := List.mem_singleton.mp hy
      simp only at hloop
      split at hloop <;> cases hloop
  | connectWithReconnect maxAttempts =>
    obtain rfl := Option.some.inj hs
    refine h.quiet (fun c hc => hc) (fun y hy c hloop => ?_) ?_
    · unfold connectWithReconnect retry at hy
      simp only at hy
      split at hy
      all_goals
        rcases List.mem_or_eq_of_mem_set hy with hy | rfl
        · rcases List.mem_append.mp hy with hy | hy
          · exact ⟨y, hy, hloop⟩
          · obtain rfl := List.mem_singleton.mp hy
            cases hloop
        · simp only at hloop
          first | cases hloop | (split at hloop <;> cases hloop)
    · exact connection_retry
  | disconnect =>
    obtain rfl := Option.some.inj hs
    unfold disconnect
    split
    all_goals
      exact h.quiet (fun c hc => List.mem_append_left _ hc)
        (fun y hy c hloop => ⟨y, hy, hloop⟩) rfl
  | close =>
    obtain rfl := Option.some.inj hs
    simp only [calledOff]
    split
    next => exact h.quiet (fun c hc => hc) (fun y hy c hloop => ⟨y, hy, hloop⟩) rfl
    next =>
      unfold disconnect
      split
      all_goals
        exact h.quiet (fun c hc => List.mem_append_left _ hc)
          (fun y hy c hloop => ⟨y, hy, hloop⟩) rfl
  | advance i r =>
    obtain ⟨x, hi, hs⟩ := Option.bind_eq_some_iff.mp hs
    exact h.advance hi hguard hs
  | resume k =>
    obtain ⟨d, hd, hs⟩ := Option.bind_eq_some_iff.mp hs
    simp only [undisturbed, hd, Option.all_some] at hguard
    unfold resume at hs
    split at hs
    next conn hphase =>
      obtain rfl := Option.some.inj hs
      rw [hphase] at hguard
      exact h.keep (fun c hc => hc) (fun y hy c hloop => .inl ⟨y, hy, hloop⟩) (.inr hguard)
    next =>
      obtain rfl := Option.some.inj hs
      exact h.quiet (fun c hc => hc) (fun y hy c hloop => ⟨y, hy, hloop⟩) rfl
    next =>
      obtain rfl := Option.some.inj hs
      exact h.quiet (fun c hc => hc) (fun y hy c hloop => ⟨y, hy, hloop⟩) rfl
    next => cases hs
  | arrive conn =>
    obtain ⟨-, hs⟩ := Option.ite_none_right_eq_some.mp hs
    obtain rfl := Option.some.inj hs
    exact h.quiet (fun c hc => hc) (fun y hy c hloop => ⟨y, hy, hloop⟩) rfl
  | hangup conn =>
    obtain rfl := Option.some.inj hs
    exact h.quiet (fun c hc => hc) (fun y hy c hloop => ⟨y, hy, hloop⟩) rfl

/-- **In every run in which nothing is stored over, or cleared from under, a connection whose
sync loop runs, `this.connection` is that connection until its loop ends or the vault is told to
disconnect.** -/
theorem follows_of_undisturbed (url : Bool) {x : Uplink × List Nat}
    (h : Machine.Reach slotStep (fun x a => x.1.undisturbed x.2 a = true) (Uplink.start url, []) x) :
    Follows x := by
  refine h.invariant (fun c hc => ?_) fun x a x' hx hg hs => ?_
  · obtain ⟨⟨y, hy, -⟩, -⟩ := lives_iff.mp hc
    cases hy
  · obtain ⟨hstep, hoff⟩ := Machine.traced_eq_some.mp hs
    show Follows (x'.1, x'.2)
    rw [hoff]
    exact Follows.step hx hg hstep

private def completes (i : Nat) : Act := .advance i ⟨true, .other, false⟩

/-- Attempt `i` connects, over connection `conn`, and enters its sync loop. -/
private def connects (i conn : Nat) : List Act :=
  [.connect, completes i, .arrive conn, completes i, completes i, .arrive conn, completes i,
    completes i, completes i, completes i, completes i]

/-- The vault disconnects: the call resolves, and the sync loop of attempt `i` ends. -/
private def disconnects (i conn : Nat) : List Act :=
  [.disconnect, .hangup conn, .resume 0, completes i]

/-- A vault connects again after the clean-up of its first call. -/
theorem follows_of_undisturbed_again : ∃ x : Uplink × List Nat,
    x.1.lives x.2 1 = true ∧ Follows x := by
  have hrun : ((Machine.run slotStep (Uplink.start true, [])
      (connects 0 0 ++ disconnects 0 0 ++ [completes 0] ++ connects 1 1)).any
        fun x => x.1.lives x.2 1) = true := by
    decide +kernel
  have hguard : Machine.allowed slotStep (fun x a => x.1.undisturbed x.2 a) (Uplink.start true, [])
      (connects 0 0 ++ disconnects 0 0 ++ [completes 0] ++ connects 1 1) = true := by
    decide +kernel
  obtain ⟨x, hx, hlives⟩ := (Option.any_eq_true _ _).mp hrun
  exact ⟨x, hlives, follows_of_undisturbed true
    (.of_run (.of_allowed (fun _ _ h => h) hguard) hx)⟩

/-- **The clean-up of an earlier call takes the later connection**: the first `connect` is still
in its `conn.close()` when the second has stored its connection, and then clears the field. -/
theorem follows_of_undisturbed_late : ∃ x : Uplink × List Nat,
    Machine.Reach slotStep (fun x a => x.1.sequential a = true) (Uplink.start true, []) x ∧
      x.1.lives x.2 1 = true ∧ x.1.isConnected = false ∧ ¬ Follows x := by
  have hrun : ((Machine.run slotStep (Uplink.start true, [])
      (connects 0 0 ++ disconnects 0 0 ++ connects 1 1 ++ [completes 0])).any
        fun x => x.1.lives x.2 1 && !x.1.isConnected) = true := by
    decide +kernel
  have hguard : Machine.allowed slotStep (fun x a => x.1.sequential a) (Uplink.start true, [])
      (connects 0 0 ++ disconnects 0 0 ++ connects 1 1 ++ [completes 0]) = true := by
    decide +kernel
  obtain ⟨x, hx, hlives⟩ := (Option.any_eq_true _ _).mp hrun
  obtain ⟨hlives, hconn⟩ := Bool.and_eq_true_iff.mp hlives
  rw [Bool.not_eq_true'] at hconn
  refine ⟨x, .of_run (.of_allowed (fun _ _ h => h) hguard) hx, hlives, hconn, fun h => ?_⟩
  rw [(h 1 hlives).2.1] at hconn
  cases hconn

end AgentSync.Sdk.Uplink
