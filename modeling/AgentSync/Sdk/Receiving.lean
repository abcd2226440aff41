import AgentSync.Basic
import AgentSync.Machine
import AgentSync.Pipes

/-! What comes in, as iterators.

`recv()` of the two WebSocket transports and `Vault.events()` turn what comes in by itself into async
iterators. The iterators of a connection share one queue, and its close wakes who waits, so they
lose nothing and all come to an end (`recv_lossless`). An iterator of events has a queue of its own. Its
loop looks at `closed` before its queue, and `Vault.close` wakes nobody: what is queued by then is
lost, and an iterator that waits goes on waiting (`events_lossless_iff`, `stranded`). -/
namespace AgentSync.Sdk.Receiving

open Pipes

/-! ### Messages -/

/-- The data of a message in a browser. -/
inductive MessageData where
  | arrayBuffer (bytes : Bytes)
  | other
  deriving DecidableEq, Repr

/-- The data of a message of `ws`. -/
inductive WsData where
  | buffer (bytes : Bytes)
  | arrayBuffer (bytes : Bytes)
  | buffers (fragments : List Bytes)
  deriving DecidableEq, Repr

def toBytes : WsData → Bytes
  | .buffers fragments => fragments.foldl (fun out b => out ++ b) []
  | .arrayBuffer bytes => bytes
  | .buffer bytes => bytes

/-- What `makeBrowserTransport` takes a message for, if it does not ignore it. -/
def browserFrame : MessageData → Option Bytes
  | .arrayBuffer bytes => some bytes
  | .other => none

/-- What `nodeWsTransport` takes a message for. -/
def nodeFrame (data : WsData) : Option Bytes := some (toBytes data)

/-! ### Frames -/

/-- A connection, as its listeners and its iterators share it. -/
structure Connection (ι : Type) where
  closed : Bool
  incoming : Pipe ι Bytes

inductive RecvAct (ι M : Type) where
  | message (data : M)
  | close
  /-- `next()` of an iterator that has answered the calls before. -/
  | next (i : ι)
  /-- An iterator goes on, its promise resolved. -/
  | resume (i : ι)
  /-- `return()` of an iterator that has answered the calls before. -/
  | leave (i : ι)
  deriving DecidableEq, Repr

section Recv
variable {ι M : Type} [DecidableEq ι] (frame : M → Option Bytes)

def opened : Connection ι := ⟨false, .empty⟩

def onMessage (data : M) (s : Connection ι) : Connection ι :=
  match frame data with
  | none => s
  | some bytes => {s with incoming := s.incoming.push bytes}

def onClose (s : Connection ι) : Connection ι := ⟨true, s.incoming.wake⟩

/-- `recv`, from the top of its loop. -/
def recv (i : ι) (s : Connection ι) : Connection ι :=
  match s.incoming.queue with
  | bytes :: rest => {s with incoming := s.incoming.take i bytes rest}
  | [] =>
    if s.closed then {s with incoming := s.incoming.finish i}
    else {s with incoming := s.incoming.wait i}

/-- A socket that is closed has no more messages. -/
def recvStep (s : Connection ι) : RecvAct ι M → Option (Connection ι)
  | .message data => if s.closed then none else some (onMessage frame data s)
  | .close => if s.closed then none else some (onClose s)
  | .next i => match s.incoming.reader i with
    | .idle => some (recv i s)
    | _ => none
  | .resume i => (s.incoming.resume i).map fun p => {s with incoming := p}
  | .leave i => (s.incoming.leave i).map fun p => {s with incoming := p}

/-- An iterator is asked for a frame when no other has been asked for one. -/
def InTurn (s : Connection ι) (a : RecvAct ι M) : Prop := ∀ i, a = .next i → s.incoming.Resting

end Recv

/-! ### Events -/

/-- An iterator of `events()`. -/
structure Iteration (α : Type) where
  /-- It has subscribed. -/
  attached : Bool
  pipe : Pipe Unit α

/-- A vault, as its iterators see it. -/
structure VaultEvents (ι α : Type) where
  closed : Bool
  iter : ι → Iteration α

namespace Iteration

variable {α : Type}

def fresh : Iteration α := ⟨false, .empty⟩

/-- The listener. -/
def emit (e : α) (g : Iteration α) : Iteration α :=
  if g.attached then {g with pipe := g.pipe.push e} else g

/-- `events`, from the top of its loop; it unsubscribes when it ends. -/
def events (closed : Bool) (g : Iteration α) : Iteration α :=
  if closed then ⟨false, g.pipe.finish ()⟩
  else
    match g.pipe.queue with
    | e :: rest => {g with pipe := g.pipe.take () e rest}
    | [] => {g with pipe := g.pipe.wait ()}

/-- `next()`; the iterator subscribes when it is first asked. -/
def next (closed : Bool) (g : Iteration α) : Option (Iteration α) :=
  match g.pipe.reader () with
  | .idle => some (events closed {g with attached := true})
  | _ => none

def resume (g : Iteration α) : Option (Iteration α) :=
  match g.pipe.reader () with
  | .ending => some ⟨false, g.pipe.finish ()⟩
  | _ => (g.pipe.resume ()).map fun p => {g with pipe := p}

def leave (g : Iteration α) : Option (Iteration α) :=
  (g.pipe.leave ()).map fun p => ⟨false, p⟩

end Iteration

inductive EventAct (ι α : Type) where
  | emit (e : α)
  /-- `Vault.close` sets `closed`. -/
  | close
  | next (i : ι)
  | resume (i : ι)
  | leave (i : ι)
  deriving DecidableEq, Repr

section Events
variable {ι α : Type} [DecidableEq ι]

def unheard : VaultEvents ι α := ⟨false, fun _ => .fresh⟩

def eventStep (s : VaultEvents ι α) : EventAct ι α → Option (VaultEvents ι α)
  | .emit e => some {s with iter := fun i => (s.iter i).emit e}
  | .close => some {s with closed := true}
  | .next i => ((s.iter i).next s.closed).map fun g => {s with iter := Function.update s.iter i g}
  | .resume i => (s.iter i).resume.map fun g => {s with iter := Function.update s.iter i g}
  | .leave i => (s.iter i).leave.map fun g => {s with iter := Function.update s.iter i g}

end Events

/-! ### What an adapter owes -/

section
variable {ι α : Type}

/-- What was yielded is what arrived, but for an item on its way and what is queued. -/
def InOrder (p : Pipe ι α) : Prop :=
  ∃ held : Option α, p.yielded ++ held.toList ++ p.queue = p.arrived ∧
    ∀ x, held = some x ↔ ∃ i, p.reader i = .holding x

/-- Nobody waits for a source that is closed. -/
def Awake (closed : Bool) (p : Pipe ι α) : Prop := closed = true → ∀ i, p.reader i ≠ .waiting

/-- An iterator ends when the source is closed. -/
def EndsClosed (closed : Bool) (p : Pipe ι α) : Prop :=
  ∀ i, p.reader i = .ended → closed = true

/-- An iterator ends when everything has been yielded. -/
def Drained (p : Pipe ι α) : Prop := ∀ i, p.reader i = .ended → p.yielded = p.arrived

structure Lossless (closed : Bool) (p : Pipe ι α) : Prop where
  inOrder : InOrder p
  endsClosed : EndsClosed closed p
  drained : Drained p
  awake : Awake closed p

end

/-! ### Frames are not lost -/

section
variable {ι M : Type}

structure Connection.Inv (s : Connection ι) : Prop where
  stand : Stand s.incoming
  awake : Awake s.closed s.incoming
  closing : ∀ i, s.incoming.reader i = .ending ∨ s.incoming.reader i = .ended → s.closed = true
  drained : Drained s.incoming

theorem inv_opened : (opened : Connection ι).Inv where
  stand := .empty
  awake := fun h => by cases h
  closing := fun _ h => by rcases h with h | h <;> cases h
  drained := fun _ h => by cases h

variable [DecidableEq ι] {frame : M → Option Bytes} {s s' : Connection ι} {i : ι}

theorem inv_onMessage (h : s.Inv) (hopen : s.closed = false) (data : M) :
    (onMessage frame data s).Inv := by
  unfold onMessage
  split
  next => exact h
  next bytes _ =>
    have hnot (i : ι) : ¬ (s.incoming.reader i = .ending ∨ s.incoming.reader i = .ended) := by
      intro hi
      have hclosed := h.closing i hi
      rw [hopen] at hclosed
      cases hclosed
    have hkept (i : ι) (r : Reader Bytes) (hr : r = .ending ∨ r = .ended) :
        (s.incoming.push bytes).reader i ≠ r := by
      intro hi
      rcases h.stand.reader_push (x := bytes) i with hsame | ⟨-, hheld⟩
      · rw [← hi, hsame] at hr
        exact hnot i hr
      · rw [← hi, hheld] at hr
        rcases hr with hr | hr <;> cases hr
    refine ⟨h.stand.push fun i hi => hnot i (.inl hi), fun hclosed => ?_, fun i hi => ?_,
      fun i hi => absurd hi (hkept i _ (.inr rfl))⟩
    · rw [hopen] at hclosed
      cases hclosed
    · exact absurd rfl (hkept i _ hi)

theorem inv_onClose (h : s.Inv) (hopen : s.closed = false) : (onClose s).Inv := by
  refine ⟨h.stand.wake, fun _ i => (h.stand.reader_wake i).1, fun _ _ => rfl, fun i hi => ?_⟩
  rcases (h.stand.reader_wake i).2 with hsame | ⟨-, hending⟩
  · have hclosed := h.closing i (.inr (hsame.symm.trans hi))
    rw [hopen] at hclosed
    cases hclosed
  · cases hending.symm.trans hi

/-- One reader moves. -/
theorem Connection.Inv.move (h : s.Inv) {p : Pipe ι Bytes} {r : Reader Bytes} (hstand : Stand p)
    (hreader : p.reader = Function.update s.incoming.reader i r)
    (hwaiting : r = .waiting → s.closed = false)
    (hclosing : r = .ending ∨ r = .ended → s.closed = true)
    (hdrained : r = .ended ∨ s.incoming.yielded = s.incoming.arrived → p.yielded = p.arrived) :
    Connection.Inv {s with incoming := p} := by
  have hcases (j : ι) (q : Reader Bytes) (hj : p.reader j = q) :
      r = q ∨ s.incoming.reader j = q := by
    rw [hreader] at hj
    exact Stand.eq_or_of_update hj
  refine ⟨hstand, fun hclosed j hj => ?_, fun j hj => ?_, fun j hj => ?_⟩
  · rcases hcases j _ hj with hr | hj
    · exact absurd hclosed (by simp [hwaiting hr])
    · exact h.awake hclosed j hj
  · rcases hj with hj | hj
    · rcases hcases j _ hj with hr | hj
      · exact hclosing (.inl hr)
      · exact h.closing j (.inl hj)
    · rcases hcases j _ hj with hr | hj
      · exact hclosing (.inr hr)
      · exact h.closing j (.inr hj)
  · rcases hcases j _ hj with hr | hj
    · exact hdrained (.inl hr)
    · exact hdrained (.inr (h.drained j hj))

theorem inv_recv (h : s.Inv) (hrest : s.incoming.Resting) : (recv i s).Inv := by
  unfold recv
  split
  next bytes rest hqueue =>
    exact h.move (h.stand.take hrest hqueue) rfl (by simp) (by simp) (by simp [Pipe.take])
  next hqueue =>
    obtain ⟨-, horder⟩ := h.stand.of_rest hrest
    rw [hqueue, List.append_nil] at horder
    split
    next hclosed => exact h.move (h.stand.finish hrest) rfl (by simp) (fun _ => hclosed) fun _ => horder
    next hopen =>
      exact h.move (h.stand.wait hrest hqueue) rfl (fun _ => Bool.not_eq_true _ ▸ hopen) (by simp)
        fun _ => horder

theorem inv_resume (h : s.Inv) {p : Pipe ι Bytes} (hp : s.incoming.resume i = some p) :
    Connection.Inv {s with incoming := p} := by
  have hstand := h.stand.resume hp
  unfold Pipe.resume at hp
  split at hp
  next bytes hreader =>
    obtain rfl := Option.some.inj hp
    obtain ⟨-, -, horder⟩ := h.stand.of_holding hreader
    refine h.move hstand rfl (by simp) (by simp) fun hold => ?_
    rcases hold with hr | hold
    · cases hr
    · rw [← hold] at horder
      simp at horder
  next hreader =>
    obtain rfl := Option.some.inj hp
    obtain ⟨-, -, -, horder⟩ := h.stand.of_ending hreader
    exact h.move hstand rfl (by simp) (fun _ => h.closing i (.inl hreader)) fun _ => horder
  next => cases hp

theorem inv_leave (h : s.Inv) {p : Pipe ι Bytes} (hp : s.incoming.leave i = some p) :
    Connection.Inv {s with incoming := p} := by
  have hstand := h.stand.leave hp
  unfold Pipe.leave at hp
  split at hp
  next =>
    obtain rfl := Option.some.inj hp
    exact h.move hstand rfl (by simp) (by simp) (by simp)
  next => cases hp

theorem inv_recvStep {a : RecvAct ι M} (h : s.Inv) (hturn : InTurn s a)
    (hs : recvStep frame s a = some s') : s'.Inv := by
  cases a with
  | message data =>
    simp only [recvStep] at hs
    split at hs
    next => cases hs
    next hopen =>
      obtain rfl := Option.some.inj hs
      exact inv_onMessage h (Bool.not_eq_true _ ▸ hopen) data
  | close =>
    simp only [recvStep] at hs
    split at hs
    next => cases hs
    next hopen =>
      obtain rfl := Option.some.inj hs
      exact inv_onClose h (Bool.not_eq_true _ ▸ hopen)
  | next i =>
    simp only [recvStep] at hs
    split at hs
    next =>
      obtain rfl := Option.some.inj hs
      exact inv_recv h (hturn i rfl)
    next => cases hs
  | resume i =>
    obtain ⟨p, hp, rfl⟩ := Option.map_eq_some_iff.mp hs
    exact inv_resume h hp
  | leave i =>
    obtain ⟨p, hp, rfl⟩ := Option.map_eq_some_iff.mp hs
    exact inv_leave h hp

/-- **A connection whose iterators take turns loses no frame and strands nobody.** -/
theorem recv_lossless (h : Machine.Reach (recvStep frame) InTurn opened s) :
    Lossless s.closed s.incoming := by
  have hinv : s.Inv := h.invariant inv_opened fun _ _ _ hs hturn hstep => inv_recvStep hs hturn hstep
  exact ⟨hinv.stand.order, fun i hi => hinv.closing i (.inr hi), hinv.drained, hinv.awake⟩

end

/-! ### Events are, where nothing is closed under them -/

section
variable {α : Type} {closed : Bool} {g g' : Iteration α}

structure Iteration.Inv (closed : Bool) (g : Iteration α) : Prop where
  stand : Stand g.pipe
  /-- Its promise is never resolved with `null`. -/
  ending : g.pipe.reader () ≠ .ending
  ended : g.pipe.reader () = .ended → closed = true ∧ g.attached = false

theorem inv_fresh (closed : Bool) : Iteration.Inv closed (.fresh : Iteration α) where
  stand := .empty
  ending := fun h => by cases h
  ended := fun h => by cases h

/-- An event changes an iterator that waits, or its queue. -/
theorem inv_emit (h : g.Inv closed) (e : α) : (g.emit e).Inv closed ∧
    (Awake closed g.pipe → Awake closed (g.emit e).pipe) ∧
    (Drained g.pipe → Drained (g.emit e).pipe) := by
  unfold Iteration.emit
  split
  next hattached =>
    have hmoves := h.stand.reader_push (x := e) ()
    have hended : (g.pipe.push e).reader () ≠ .ended := by
      intro hi
      rcases hmoves with hsame | ⟨-, hheld⟩
      · have hdetached := (h.ended (hsame.symm.trans hi)).2
        rw [hattached] at hdetached
        cases hdetached
      · cases hheld.symm.trans hi
    refine ⟨⟨h.stand.push fun _ => h.ending, fun hi => ?_, fun hi => absurd hi hended⟩,
      fun hawake hclosed _ hi => ?_, fun _ _ hi => absurd hi hended⟩
    · rcases hmoves with hsame | ⟨-, hheld⟩
      · exact h.ending (hsame.symm.trans hi)
      · cases hheld.symm.trans hi
    · rcases hmoves with hsame | ⟨-, hheld⟩
      · exact hawake hclosed () (hsame.symm.trans hi)
      · cases hheld.symm.trans hi
  next => exact ⟨h, id, id⟩

theorem resting_of_idle {p : Pipe Unit α} (hreader : p.reader () = .idle) : p.Resting := by
  intro j
  rw [hreader]
  rfl

/-- An iterator that is asked does not wait once the vault is closed, and loses then what it has
in its queue. -/
theorem inv_next (h : g.Inv closed) (hg : g.next closed = some g') : g'.Inv closed ∧
    Awake closed g'.pipe ∧ (Drained g'.pipe ↔ (closed = true → g.pipe.queue = [])) := by
  unfold Iteration.next at hg
  split at hg
  next hreader =>
    obtain rfl := Option.some.inj hg
    have hrest := resting_of_idle hreader
    obtain ⟨-, horder⟩ := h.stand.of_rest hrest
    unfold Iteration.events
    split
    next hclosed =>
      refine ⟨⟨h.stand.finish hrest, by simp, fun _ => ⟨hclosed, rfl⟩⟩, fun _ i => by simp,
        ⟨fun hdrained _ => ?_, fun hqueue i _ => ?_⟩⟩
      · have hyielded : g.pipe.yielded = g.pipe.arrived := hdrained () Pipe.reader_finish
        rw [hyielded] at horder
        exact List.append_right_eq_self.mp horder
      · rw [hqueue hclosed, List.append_nil] at horder
        exact horder
    next hopen =>
      have hgoes {p : Pipe Unit α} {r : Reader α} (hstand : Stand p) (hp : p.reader () = r)
          (hending : r ≠ .ending) (hended : r ≠ .ended) :
          Iteration.Inv closed ⟨true, p⟩ ∧ Awake closed p ∧
            (Drained p ↔ (closed = true → g.pipe.queue = [])) := by
        obtain rfl := hp
        exact ⟨⟨hstand, hending, fun hi => absurd hi hended⟩, fun hclosed => absurd hclosed hopen,
          iff_of_true (fun _ hi => absurd hi hended) fun hclosed => absurd hclosed hopen⟩
      split
      next e rest hqueue =>
        exact hgoes (h.stand.take hrest hqueue) Pipe.reader_take (by simp) (by simp)
      next hqueue =>
        exact hgoes (h.stand.wait hrest hqueue) Pipe.reader_wait (by simp) (by simp)
  next => cases hg

/-- An iterator that has answered waits for nothing, and has not ended. -/
theorem inv_resume_leave (h : g.Inv closed) (hg : g.resume = some g' ∨ g.leave = some g') :
    g'.Inv closed ∧ Awake closed g'.pipe ∧ Drained g'.pipe := by
  have hgoes {b : Bool} {p : Pipe Unit α} {r : Reader α} (hstand : Stand p) (hp : p.reader () = r)
      (hr : r = .idle ∨ r = .left) :
      Iteration.Inv closed ⟨b, p⟩ ∧ Awake closed p ∧ Drained p := by
    obtain rfl := hp
    refine ⟨⟨hstand, fun hi => ?_, fun hi => ?_⟩, fun _ _ hi => ?_, fun _ hi => ?_⟩
    all_goals
      rw [hi] at hr
      rcases hr with hr | hr <;> cases hr
  rcases hg with hg | hg
  · unfold Iteration.resume at hg
    split at hg
    next hending => exact absurd hending h.ending
    next =>
      obtain ⟨p, hp, rfl⟩ := Option.map_eq_some_iff.mp hg
      rcases Pipe.reader_resume hp with hidle | ⟨hending, -⟩
      · exact hgoes (h.stand.resume hp) hidle (.inl rfl)
      · exact absurd hending h.ending
  · obtain ⟨p, hp, rfl⟩ := Option.map_eq_some_iff.mp hg
    exact hgoes (h.stand.leave hp) (Pipe.reader_leave hp) (.inr rfl)

end

/-! ### All iterators of a vault -/

section
variable {ι α : Type} {s s' : VaultEvents ι α}

/-- Nobody waits for an event when the vault is closed. -/
def ClosedAtRest (s : VaultEvents ι α) (a : EventAct ι α) : Prop :=
  a = .close → ∀ i, (s.iter i).pipe.reader () ≠ .waiting

/-- Nobody comes back to a closed vault with events still queued. -/
def ReadOut (s : VaultEvents ι α) (a : EventAct ι α) : Prop :=
  ∀ i, a = .next i → s.closed = true → (s.iter i).pipe.queue = []

/-- Something holds of every iterator. -/
def Every (P : Bool → Iteration α → Prop) (s : VaultEvents ι α) : Prop :=
  ∀ i, P s.closed (s.iter i)

abbrev AllAwake (s : VaultEvents ι α) : Prop := Every (fun closed g => Awake closed g.pipe) s

abbrev AllDrained (s : VaultEvents ι α) : Prop := Every (fun _ g => Drained g.pipe) s

theorem Iteration.Inv.close {closed : Bool} {g : Iteration α} (h : g.Inv closed) : g.Inv true :=
  ⟨h.stand, h.ending, fun hi => ⟨rfl, (h.ended hi).2⟩⟩

theorem closedAtRest_of_ne {a : EventAct ι α} (ha : a ≠ .close) : ClosedAtRest s a :=
  fun hclose => absurd hclose ha

theorem readOut_of_ne {a : EventAct ι α} (ha : ∀ i, a ≠ .next i) : ReadOut s a :=
  fun i hnext => absurd hnext (ha i)

theorem allInv_unheard : Every Iteration.Inv (unheard : VaultEvents ι α) := fun _ => inv_fresh false

theorem allAwake_unheard : AllAwake (unheard : VaultEvents ι α) := fun _ hclosed => by cases hclosed

theorem allDrained_unheard : AllDrained (unheard : VaultEvents ι α) := fun _ _ hi => by cases hi

variable [DecidableEq ι]

theorem Every.update {P : Bool → Iteration α → Prop} {g : Iteration α} {i : ι} (h : Every P s)
    (hg : P s.closed g) : Every P {s with iter := Function.update s.iter i g} := by
  intro j
  dsimp only
  by_cases hj : j = i
  · rw [hj, Function.update_self]
    exact hg
  · rw [Function.update_of_ne hj]
    exact h j

/-- An iterator moves that does not come back to its queue. -/
theorem keeps_of_answered {i : ι} {g : Iteration α} (h : Every Iteration.Inv s)
    (hg : (s.iter i).resume = some g ∨ (s.iter i).leave = some g) :
    Every Iteration.Inv {s with iter := Function.update s.iter i g} ∧
      (AllAwake s → AllAwake {s with iter := Function.update s.iter i g}) ∧
      (AllDrained s → AllDrained {s with iter := Function.update s.iter i g}) := by
  obtain ⟨hinv, hawake, hdrained⟩ := inv_resume_leave (h i) hg
  exact ⟨h.update hinv, fun hall => hall.update hawake, fun hall => hall.update hdrained⟩

/-- What one step does to the iterators of a vault. -/
theorem eventStep_keeps {a : EventAct ι α} (h : Every Iteration.Inv s) (hs : eventStep s a = some s') :
    Every Iteration.Inv s' ∧ (AllAwake s → (AllAwake s' ↔ ClosedAtRest s a)) ∧
      (AllDrained s → (AllDrained s' ↔ ReadOut s a)) := by
  cases a with
  | emit e =>
    obtain rfl := Option.some.inj hs
    refine ⟨fun i => (inv_emit (h i) e).1, fun hawake => ?_, fun hdrained => ?_⟩
    · exact iff_of_true (fun i => (inv_emit (h i) e).2.1 (hawake i)) (closedAtRest_of_ne (by simp))
    · exact iff_of_true (fun i => (inv_emit (h i) e).2.2 (hdrained i)) (readOut_of_ne (by simp))
  | close =>
    obtain rfl := Option.some.inj hs
    refine ⟨fun i => (h i).close, fun _ => ⟨fun hawake _ i => hawake i rfl (), ?_⟩, fun hdrained => ?_⟩
    · exact fun hrest i _ _ => hrest rfl i
    · exact iff_of_true hdrained (readOut_of_ne (by simp))
  | next i =>
    obtain ⟨g, hg, rfl⟩ := Option.map_eq_some_iff.mp hs
    obtain ⟨hinv, hawake', hdrained'⟩ := inv_next (h i) hg
    refine ⟨h.update hinv, fun hawake => ?_, fun hdrained => ⟨fun hall j hj hclosed => ?_, ?_⟩⟩
    · exact iff_of_true (hawake.update hawake') (closedAtRest_of_ne (by simp))
    · obtain rfl := EventAct.next.inj hj
      have hg' := hall i
      dsimp only at hg'
      rw [Function.update_self] at hg'
      exact hdrained'.mp hg' hclosed
    · exact fun hread => hdrained.update (hdrained'.mpr (hread i rfl))
  | resume i =>
    obtain ⟨g, hg, rfl⟩ := Option.map_eq_some_iff.mp hs
    obtain ⟨hinv, hawake, hdrained⟩ := keeps_of_answered h (.inl hg)
    exact ⟨hinv, fun hall => iff_of_true (hawake hall) (closedAtRest_of_ne (by simp)),
      fun hall => iff_of_true (hdrained hall) (readOut_of_ne (by simp))⟩
  | leave i =>
    obtain ⟨g, hg, rfl⟩ := Option.map_eq_some_iff.mp hs
    obtain ⟨hinv, hawake, hdrained⟩ := keeps_of_answered h (.inr hg)
    exact ⟨hinv, fun hall => iff_of_true (hawake hall) (closedAtRest_of_ne (by simp)),
      fun hall => iff_of_true (hdrained hall) (readOut_of_ne (by simp))⟩

/-- In every run the events are yielded in order, and an iterator ends after the close. -/
theorem events_inOrder (h : Machine.Reach eventStep (fun _ _ => True) unheard s) (i : ι) :
    InOrder (s.iter i).pipe ∧ EndsClosed s.closed (s.iter i).pipe := by
  have hinv : Every Iteration.Inv s :=
    h.invariant allInv_unheard fun _ _ _ hs _ hstep => (eventStep_keeps hs hstep).1
  exact ⟨(hinv i).stand.order, fun _ hi => ((hinv i).ended hi).1⟩

variable {as : List (EventAct ι α)}

/-- **Nobody is stranded where the vault is closed while nobody waits.** -/
theorem events_awake_iff (h : Machine.run eventStep unheard as = some s) :
    (∀ pre t, pre <+: as → Machine.run eventStep unheard pre = some t → AllAwake t) ↔
      Machine.Guarded eventStep ClosedAtRest unheard as := by
  refine Machine.always_iff_guarded (I := Every Iteration.Inv) allInv_unheard allAwake_unheard ?_ h
  intro s a s' hinv hawake hs
  obtain ⟨hinv', hiff, -⟩ := eventStep_keeps hinv hs
  exact ⟨hinv', hiff hawake⟩

/-- **No event is lost where nobody comes back to a closed vault with events queued.** -/
theorem events_drained_iff (h : Machine.run eventStep unheard as = some s) :
    (∀ pre t, pre <+: as → Machine.run eventStep unheard pre = some t → AllDrained t) ↔
      Machine.Guarded eventStep ReadOut unheard as := by
  refine Machine.always_iff_guarded (I := Every Iteration.Inv) allInv_unheard allDrained_unheard ?_ h
  intro s a s' hinv hdrained hs
  obtain ⟨hinv', -, hiff⟩ := eventStep_keeps hinv hs
  exact ⟨hinv', hiff hdrained⟩

abbrev AllLossless (s : VaultEvents ι α) : Prop :=
  Every (fun closed g => Lossless closed g.pipe) s

theorem events_lossless_iff (h : Machine.run eventStep unheard as = some s) :
    (∀ pre t, pre <+: as → Machine.run eventStep unheard pre = some t → AllLossless t) ↔
      Machine.Guarded eventStep ClosedAtRest unheard as ∧
        Machine.Guarded eventStep ReadOut unheard as := by
  rw [← events_awake_iff h, ← events_drained_iff h]
  constructor
  · intro hall
    exact ⟨fun pre t hpre ht i => (hall pre t hpre ht i).awake,
      fun pre t hpre ht i => (hall pre t hpre ht i).drained⟩
  · intro hall pre t hpre ht i
    obtain ⟨hawake, hdrained⟩ := hall
    have hreach := Machine.Reach.of_run (.of_forall (fun _ _ => trivial) pre) ht
    obtain ⟨horder, hends⟩ := events_inOrder hreach i
    exact ⟨horder, hends, hdrained pre t hpre ht i, hawake pre t hpre ht i⟩

/-- Who waits goes on waiting until there is an event. -/
theorem stranded {i : ι} (hwaiting : (s.iter i).pipe.reader () = .waiting)
    (h : Machine.Reach eventStep (fun _ a => ∀ e, a ≠ .emit e) s s') :
    (s'.iter i).pipe.reader () = .waiting := by
  refine h.invariant (I := fun s => (s.iter i).pipe.reader () = .waiting) hwaiting ?_
  intro s a s' hs hne hstep
  cases a with
  | emit e => exact absurd rfl (hne e)
  | close =>
    obtain rfl := Option.some.inj hstep
    exact hs
  | next j | resume j | leave j =>
    obtain ⟨g, hg, rfl⟩ := Option.map_eq_some_iff.mp hstep
    have hj : i ≠ j := by
      intro hij
      obtain rfl := hij
      simp [Iteration.next, Iteration.resume, Iteration.leave, Pipe.resume, Pipe.leave, hs] at hg
    dsimp only
    rw [Function.update_of_ne hj]
    exact hs

/-- **Frames are never lost and nobody waits for one in vain; for events it depends on how the vault
is closed.** -/
theorem iterators_lossless_iff (ι α : Type) [DecidableEq ι] :
    (∀ s : Connection ι, Machine.Reach (recvStep browserFrame) InTurn opened s →
        Lossless s.closed s.incoming) ∧
      (∀ s : Connection ι, Machine.Reach (recvStep nodeFrame) InTurn opened s →
        Lossless s.closed s.incoming) ∧
      ∀ (as : List (EventAct ι α)) (s : VaultEvents ι α),
        Machine.run eventStep unheard as = some s →
        ((∀ pre t, pre <+: as → Machine.run eventStep unheard pre = some t → AllLossless t) ↔
          Machine.Guarded eventStep ClosedAtRest unheard as ∧
            Machine.Guarded eventStep ReadOut unheard as) :=
  ⟨fun _ h => recv_lossless h, fun _ h => recv_lossless h, fun _ _ h => events_lossless_iff h⟩

/-- An event is yielded, the vault is closed, and the iterator ends. -/
def oneEvent : List (EventAct Unit Nat) := [.next (), .emit 1, .resume (), .close, .next ()]

theorem iterators_lossless_iff_oneEvent :
    ∃ s, Machine.run eventStep unheard oneEvent = some s ∧ AllLossless s := by
  have hrest : Machine.allowed eventStep
      (fun s a => a != .close || (s.iter ()).pipe.reader () != .waiting) unheard oneEvent = true := by
    decide
  have hread : Machine.allowed eventStep
      (fun s a => a != .next () || !s.closed || (s.iter ()).pipe.queue == [])
      unheard oneEvent = true := by
    decide
  have hrun : ∃ s, Machine.run eventStep unheard oneEvent = some s := ⟨_, rfl⟩
  obtain ⟨s, hs⟩ := hrun
  refine ⟨s, hs, ((iterators_lossless_iff Unit Nat).2.2 oneEvent s hs).mpr ⟨?_, ?_⟩ oneEvent s
    (List.prefix_refl _) hs⟩
  · refine Machine.Guarded.of_allowed (fun s a h => ?_) hrest
    intro ha i
    simpa [ha] using h
  · refine Machine.Guarded.of_allowed (fun s a h => ?_) hread
    intro i ha hclosed
    simpa [ha, hclosed] using h

/-- An iterator that waits when the vault is closed goes on waiting, and one that comes back to a
closed vault loses what is queued. -/
theorem events_stranded_and_lost :
    (∃ s : VaultEvents Unit Nat,
      Machine.run eventStep unheard [.next (), .close] = some s ∧ ¬ AllLossless s ∧
        ∀ s', Machine.Reach eventStep (fun _ a => ∀ e, a ≠ .emit e) s s' →
          (s'.iter ()).pipe.reader () = .waiting) ∧
      ∃ s : VaultEvents Unit Nat,
        Machine.run eventStep unheard
            [.next (), .emit 1, .resume (), .emit 2, .close, .next ()] = some s ∧
          (s.iter ()).pipe.arrived = [1, 2] ∧ (s.iter ()).pipe.yielded = [1] ∧ ¬ AllLossless s := by
  refine ⟨⟨_, rfl, fun h => ?_, fun s' h => stranded rfl h⟩, _, rfl, rfl, rfl, fun h => ?_⟩
  · exact (h ()).awake rfl () rfl
  · exact absurd ((h ()).drained () rfl) (by decide)

end

end AgentSync.Sdk.Receiving
