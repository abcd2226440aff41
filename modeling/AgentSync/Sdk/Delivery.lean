import AgentSync.Sync
import Mathlib.Data.List.GetD

/-! A TypeScript vault on one ready connection and the hub's side of it.

The vault pumps when a mutating method or the receive loop comes to it, never by itself; the
hub answers every frame and its notifier looks for something to send again and again. What the
hub has generated it holds until it is sent. Counted as sent (`under`), it is in one sync
dialogue (`Sync.Dialogue`) of which every step here is a step or none (`step_under`), as long as
the hub sends in the order in which it has generated.

The law (`Converged`) is that documents agree once nothing is under way. `Inv` carries it: the
vault has nothing to send or something is in progress. A call that ends without pumping
breaks it (`Kicked`): a label, a flush that is rejected, a method that throws after it has
changed the document. -/
namespace AgentSync.Sdk

open Sync

/-- Where `runSyncLoop` is; `handling` is false before the first frame. -/
inductive SyncLoop where
  | receiving
  | savingDoc
  | savingState
  /-- About to call `generateSyncMessage`. -/
  | flushed (handling : Bool)
  /-- In the send of `pumpOutbound`. -/
  | pumping (handling : Bool)
  | persisting
  deriving DecidableEq, Repr

/-- Where a mutating method is. -/
inductive MethodPhase where
  | savingDoc
  | savingState
  | flushed
  | pumping
  deriving DecidableEq, Repr

structure MethodCall where
  /-- It calls `kickSyncLoop` after `flush`; `createLabel` and `deleteLabel` do not. -/
  kicks : Bool
  phase : MethodPhase
  deriving DecidableEq, Repr

/-- Who generates and sends on the hub; the reader is the opening of the connection as well. -/
inductive HubTask where
  | reader
  | notifier
  deriving DecidableEq, Repr

/-- The vault is party `true` of the dialogue, the hub party `false`. -/
structure Peering (D S M : Type) where
  dialogue : Dialogue D S M
  loop : SyncLoop
  methods : List MethodCall
  /-- The hub has yet to answer a frame. -/
  replying : Bool
  /-- What the hub has generated and not sent yet, the oldest first. -/
  held : List (HubTask × M)
  /-- The notifier has found nothing to send since the hub's last change. -/
  notified : Bool

/-- The loop will pump. -/
def SyncLoop.pumps : SyncLoop → Bool
  | .savingDoc | .savingState | .flushed _ | .pumping _ => true
  | .receiving | .persisting => false

namespace Peering

variable {D S M C H : Type} (P : Protocol D S M C H) (s : Peering D S M)

/-- The connection has just been stored, and the hub has registered its peer: both are about to
generate their first message. -/
def start (dialogue : Dialogue D S M) : Peering D S M :=
  ⟨dialogue, .flushed false, [], true, [], false⟩

/-- `generateSyncMessage` of the vault, and the send of what it returns. -/
def generate (loop : SyncLoop) (methods : List MethodCall) : Peering D S M :=
  {s with dialogue := s.dialogue.generate P true, loop, methods}

/-- What the loop awaits completes. -/
def runSyncLoop [DecidableEq H] : Option (Peering D S M) :=
  match s.loop with
  | .receiving => (s.dialogue.receive P true).map fun dialogue =>
    {s with
      dialogue
      loop := if P.heads (dialogue.side true).doc = P.heads (s.dialogue.side true).doc
        then .flushed true else .savingDoc}
  | .savingDoc => some {s with loop := .savingState}
  | .savingState => some {s with loop := .flushed true}
  | .flushed handling | .pumping handling =>
    some (s.generate P (if (s.dialogue.toSend P true).isSome then .pumping handling
      else if handling then .persisting else .receiving) s.methods)
  | .persisting => some {s with loop := .receiving}

/-- Call `i` ends with its next step and does not pump. -/
def MethodCall.leaves (m : MethodCall) (ok : Bool) : Bool :=
  match m.phase with
  | .savingDoc => !ok
  | .savingState => !ok || !m.kicks
  | .flushed | .pumping => false

/-- What call `i` awaits completes; `ok` is how its save ends. -/
def runMethod (i : Nat) (m : MethodCall) (ok : Bool) : Peering D S M :=
  if MethodCall.leaves m ok then {s with methods := s.methods.eraseIdx i}
  else match m.phase with
    | .savingDoc => {s with methods := s.methods.set i {m with phase := .savingState}}
    | .savingState => {s with methods := s.methods.set i {m with phase := .flushed}}
    | .flushed | .pumping =>
      s.generate P s.loop (if (s.dialogue.toSend P true).isSome
        then s.methods.set i {m with phase := .pumping} else s.methods.eraseIdx i)

/-- The task has a message in hand. -/
def holds (task : HubTask) : Bool := s.held.any fun x => x.1 = task

/-- `generate_sync_message` of the hub. -/
def draw (task : HubTask) : Peering D S M :=
  {s with
    dialogue := s.dialogue.draw P false
    held := s.held ++ (s.dialogue.toSend P false).toList.map (task, ·)}

inductive Act (C : Type) where
  /-- A mutating method changes the document; `throws` after that or goes on to `flush`. -/
  | call (kicks : Bool) (c : C) (throws : Bool)
  | runMethod (i : Nat) (ok : Bool)
  | runSyncLoop
  /-- The hub's reader takes a frame, and generates an answer. -/
  | handleInbound
  | reply
  /-- The hub's document changes. -/
  | hubEdit (c : C)
  /-- A round of the hub's notifier. -/
  | notify
  /-- `out_tx.send`. -/
  | send (task : HubTask)
  deriving DecidableEq, Repr

def step [DecidableEq H] (s : Peering D S M) : Act C → Option (Peering D S M)
  | .call kicks c throws => some {s with
    dialogue := s.dialogue.edit P true c
    methods := if throws then s.methods else s.methods ++ [⟨kicks, .savingDoc⟩]}
  | .runMethod i ok => (s.methods[i]?).map fun m => s.runMethod P i m ok
  | .runSyncLoop => s.runSyncLoop P
  | .handleInbound =>
    if s.replying ∨ s.holds .reader then none
    else (s.dialogue.receive P false).map fun dialogue => {s with dialogue, replying := true}
  | .reply => if s.replying then some {s.draw P .reader with replying := false} else none
  | .hubEdit c => some {s with dialogue := s.dialogue.edit P false c, notified := false}
  | .notify =>
    if s.holds .notifier then none
    else some {s.draw P .notifier with
      notified := s.notified || (s.dialogue.toSend P false).isNone}
  | .send task => (s.held.find? fun x => x.1 = task).map fun x =>
    {s with
      dialogue := s.dialogue.send false x.2
      held := s.held.eraseP fun x => x.1 = task}

/-! ### The law and its condition -/

/-- No call and no frame handler is in progress, no frame is under way and the notifier has
found nothing to send. -/
def Quiescent : Prop := s.methods = [] ∧ s.loop = .receiving ∧ s.replying = false ∧
  s.held = [] ∧ (∀ i, s.dialogue.wire i = []) ∧ s.notified = true

def Converged : Prop := s.Quiescent →
  P.heads (s.dialogue.side true).doc = P.heads (s.dialogue.side false).doc

/-- The loop will pump, or a call has yet to end. -/
def InProgress (loop : SyncLoop) (methods : List MethodCall) : Prop :=
  loop.pumps = true ∨ methods ≠ []

/-- A call that ends without pumping leaves nothing to send, or is not the last in progress; and
the hub sends what it has generated first. -/
def Kicked : Act C → Prop
  | .call _ c true => (s.dialogue.edit P true c).toSend P true = none ∨ InProgress s.loop s.methods
  | .runMethod i ok => ∀ m, s.methods[i]? = some m → MethodCall.leaves m ok = true →
      s.dialogue.toSend P true = none ∨ InProgress s.loop (s.methods.eraseIdx i)
  | .send task => (s.held.head?).map Prod.fst = some task
  | _ => True

/-! ### The dialogue -/

/-- The dialogue in which the hub has sent all it has generated. -/
def under : Dialogue D S M :=
  {s.dialogue with wire :=
    Function.update s.dialogue.wire false (s.dialogue.wire false ++ s.held.map Prod.snd)}

variable {P s} {s' : Peering D S M} {dialogue : Dialogue D S M} {loop : SyncLoop}
  {methods methods' : List MethodCall} {i : Nat} {m : MethodCall} {ok : Bool}

theorem under_of_nil (h : s.held = []) : s.under = s.dialogue := by
  simp [under, h]

theorem under_generate (s : Peering D S M) (loop : SyncLoop) (methods : List MethodCall) :
    (s.generate P loop methods).under = s.under.generate P true := by
  simp only [under, generate, Dialogue.generate, Dialogue.toSend]
  congr 1
  funext j
  cases j <;> rfl

theorem under_draw (s : Peering D S M) (task : HubTask) :
    (s.draw P task).under = s.under.generate P false := by
  simp only [under, draw, Dialogue.draw, Dialogue.generate, Dialogue.toSend]
  congr 1
  funext j
  cases j <;> simp

theorem under_receive {i : Bool} (h : s.dialogue.receive P i = some dialogue) :
    s.under.receive P i = some {s with dialogue}.under := by
  unfold Dialogue.receive at h ⊢
  split at h
  next m rest hwire =>
    obtain rfl := Option.some.inj h
    have hunder : s.under.wire (!i) = m :: (rest ++ if i then s.held.map Prod.snd else []) := by
      cases i with
      | true => exact congrArg (· ++ s.held.map Prod.snd) hwire
      | false => simpa [under] using hwire
    rw [hunder]
    refine congrArg some (congrArg _ ?_)
    funext j
    cases i <;> cases j <;> simp [under]
  next => cases h

/-- What is sent in its turn was under way. -/
theorem under_send {task : HubTask} {m : M} {rest : List (HubTask × M)}
    (h : s.held = (task, m) :: rest) :
    {s with dialogue := s.dialogue.send false m, held := rest}.under = s.under := by
  simp only [under, Dialogue.send, h]
  congr 1
  funext j
  cases j <;> simp

/-- Every step is a step of the dialogue or none. -/
theorem step_under [DecidableEq H] {a : Act C} (hg : s.Kicked P a) (hs : step P s a = some s') :
    s'.under = s.under ∨ ∃ b, Dialogue.step P s.under b = some s'.under := by
  cases a with
  | call kicks c throws =>
    obtain rfl := Option.some.inj hs
    exact .inr ⟨.edit true c, rfl⟩
  | runMethod i ok =>
    obtain ⟨m, -, rfl⟩ := Option.map_eq_some_iff.mp hs
    unfold Peering.runMethod
    split
    · exact .inl rfl
    · split
      · exact .inl rfl
      · exact .inl rfl
      · exact .inr ⟨.generate true, congrArg some (under_generate ..).symm⟩
      · exact .inr ⟨.generate true, congrArg some (under_generate ..).symm⟩
  | runSyncLoop =>
    simp only [step, Peering.runSyncLoop] at hs
    split at hs
    · obtain ⟨dialogue, hreceive, rfl⟩ := Option.map_eq_some_iff.mp hs
      exact .inr ⟨.receive true, under_receive hreceive⟩
    · obtain rfl := Option.some.inj hs
      exact .inl rfl
    · obtain rfl := Option.some.inj hs
      exact .inl rfl
    · obtain rfl := Option.some.inj hs
      exact .inr ⟨.generate true, congrArg some (under_generate ..).symm⟩
    · obtain rfl := Option.some.inj hs
      exact .inr ⟨.generate true, congrArg some (under_generate ..).symm⟩
    · obtain rfl := Option.some.inj hs
      exact .inl rfl
  | handleInbound =>
    obtain ⟨-, hs⟩ := Option.ite_none_left_eq_some.mp hs
    obtain ⟨dialogue, hreceive, rfl⟩ := Option.map_eq_some_iff.mp hs
    exact .inr ⟨.receive false, under_receive hreceive⟩
  | reply =>
    obtain ⟨-, hs⟩ := Option.ite_none_right_eq_some.mp hs
    obtain rfl := Option.some.inj hs
    exact .inr ⟨.generate false, congrArg some (under_draw s .reader).symm⟩
  | hubEdit c =>
    obtain rfl := Option.some.inj hs
    exact .inr ⟨.edit false c, rfl⟩
  | notify =>
    obtain ⟨-, hs⟩ := Option.ite_none_left_eq_some.mp hs
    obtain rfl := Option.some.inj hs
    exact .inr ⟨.generate false, congrArg some (under_draw s .notifier).symm⟩
  | send task =>
    obtain ⟨x, hx, rfl⟩ := Option.map_eq_some_iff.mp hs
    obtain ⟨⟨task, m⟩, hhead, rfl⟩ := Option.map_eq_some_iff.mp hg
    obtain ⟨rest, hheld⟩ := List.head?_eq_some_iff.mp hhead
    obtain rfl : (task, m) = x := by simpa [hheld] using hx
    have hrest : s.held.eraseP (fun x => x.1 = task) = rest := by simp [hheld]
    rw [hrest]
    exact .inl (under_send hheld)

/-! ### What a run keeps -/

structure Inv (P : Protocol D S M C H) (dialogue : Dialogue D S M) (s : Peering D S M) : Prop where
  reach : Dialogue.Reach P dialogue s.under
  vault : s.dialogue.toSend P true = none ∨ InProgress s.loop s.methods
  hub : s.dialogue.toSend P false = none ∨ s.replying = true ∨ s.notified = false

theorem Inv.converged (hP : Dialogue.Lawful P dialogue) (h : Inv P dialogue s) : s.Converged P := by
  intro ⟨hmethods, hloop, hreply, hheld, hwire, hnotified⟩
  refine hP.agree s.dialogue (under_of_nil hheld ▸ h.reach) hwire fun i => ?_
  cases i with
  | true =>
    refine h.vault.resolve_right fun hprogress => ?_
    rcases hprogress with hpumps | hcall
    · rw [hloop] at hpumps
      cases hpumps
    · exact hcall hmethods
  | false =>
    refine h.hub.resolve_right fun hhub => ?_
    rcases hhub with hhub | hhub
    · cases hreply.symm.trans hhub
    · cases hnotified.symm.trans hhub

theorem Inv.call (hP : Dialogue.Lawful P dialogue) (h : Inv P dialogue s)
    (hi : s.methods[i]? = some m)
    (hleaves : MethodCall.leaves m ok = true →
      s.dialogue.toSend P true = none ∨ InProgress s.loop (s.methods.eraseIdx i)) :
    (s.runMethod P i m ok).dialogue.toSend P true = none ∨
      InProgress (s.runMethod P i m ok).loop (s.runMethod P i m ok).methods := by
  have hgenerated : (s.dialogue.generate P true).toSend P true = none :=
    hP.generate_toSend (s := s.under) h.reach
  have hset : ∀ m', s.methods.set i m' ≠ [] := fun m' hnil =>
    List.ne_nil_of_mem (List.mem_of_getElem? hi) (by simpa using hnil)
  unfold Peering.runMethod
  split
  next hl => exact hleaves hl
  next =>
    split
    · exact .inr (.inr (hset _))
    · exact .inr (.inr (hset _))
    · exact .inl hgenerated
    · exact .inl hgenerated

theorem Inv.looped [DecidableEq H] (hP : Dialogue.Lawful P dialogue) (h : Inv P dialogue s)
    (hs : s.runSyncLoop P = some s') :
    s'.dialogue.toSend P true = none ∨ InProgress s'.loop s'.methods := by
  have hgenerated : (s.dialogue.generate P true).toSend P true = none :=
    hP.generate_toSend (s := s.under) h.reach
  unfold Peering.runSyncLoop at hs
  split at hs
  · obtain ⟨dialogue', -, rfl⟩ := Option.map_eq_some_iff.mp hs
    refine .inr (.inl ?_)
    simp only
    split <;> rfl
  · obtain rfl := Option.some.inj hs
    exact .inr (.inl rfl)
  · obtain rfl := Option.some.inj hs
    exact .inr (.inl rfl)
  · obtain rfl := Option.some.inj hs
    exact .inl hgenerated
  · obtain rfl := Option.some.inj hs
    exact .inl hgenerated
  next hloop =>
    obtain rfl := Option.some.inj hs
    refine h.vault.imp_right fun hpumps => .inr (hpumps.resolve_left ?_)
    rw [hloop]
    exact Bool.false_ne_true

/-- The vault's steps leave the hub alone. -/
theorem runMethod_hub : (s.runMethod P i m ok).dialogue.side false = s.dialogue.side false ∧
    (s.runMethod P i m ok).replying = s.replying ∧
      (s.runMethod P i m ok).notified = s.notified := by
  unfold Peering.runMethod
  split
  · exact ⟨rfl, rfl, rfl⟩
  · split
    · exact ⟨rfl, rfl, rfl⟩
    · exact ⟨rfl, rfl, rfl⟩
    · exact ⟨Dialogue.generate_side_not, rfl, rfl⟩
    · exact ⟨Dialogue.generate_side_not, rfl, rfl⟩

theorem runSyncLoop_hub [DecidableEq H] (hs : s.runSyncLoop P = some s') :
    s'.dialogue.side false = s.dialogue.side false ∧ s'.replying = s.replying ∧
      s'.notified = s.notified := by
  unfold Peering.runSyncLoop at hs
  split at hs
  · obtain ⟨dialogue, hreceive, rfl⟩ := Option.map_eq_some_iff.mp hs
    exact ⟨Dialogue.receive_side_not hreceive, rfl, rfl⟩
  · obtain rfl := Option.some.inj hs
    exact ⟨rfl, rfl, rfl⟩
  · obtain rfl := Option.some.inj hs
    exact ⟨rfl, rfl, rfl⟩
  · obtain rfl := Option.some.inj hs
    exact ⟨Dialogue.generate_side_not, rfl, rfl⟩
  · obtain rfl := Option.some.inj hs
    exact ⟨Dialogue.generate_side_not, rfl, rfl⟩
  · obtain rfl := Option.some.inj hs
    exact ⟨rfl, rfl, rfl⟩

theorem Inv.hub_kept (h : Inv P dialogue s) (hside : s'.dialogue.side false = s.dialogue.side false)
    (hreply : s'.replying = s.replying) (hnotified : s'.notified = s.notified) :
    s'.dialogue.toSend P false = none ∨ s'.replying = true ∨ s'.notified = false := by
  rw [Dialogue.toSend_of_side hside, hreply, hnotified]
  exact h.hub

/-- A step of the hub. -/
theorem Inv.vault_kept (h : Inv P dialogue s) (hside : s'.dialogue.side true = s.dialogue.side true)
    (hloop : s'.loop = s.loop) (hmethods : s'.methods = s.methods) :
    s'.dialogue.toSend P true = none ∨ InProgress s'.loop s'.methods := by
  rw [Dialogue.toSend_of_side hside, hloop, hmethods]
  exact h.vault

theorem Inv.step [DecidableEq H] (hP : Dialogue.Lawful P dialogue) (h : Inv P dialogue s)
    {a : Act C} (hg : s.Kicked P a) (hs : Peering.step P s a = some s') : Inv P dialogue s' := by
  have hreach : Dialogue.Reach P dialogue s'.under := by
    rcases step_under hg hs with hsame | ⟨b, hb⟩
    · rw [hsame]
      exact h.reach
    · exact h.reach.next hb
  have hgenerated : (s.dialogue.generate P false).toSend P false = none :=
    hP.generate_toSend (s := s.under) h.reach
  refine ⟨hreach, ?_, ?_⟩
  · cases a with
    | call kicks c throws =>
      obtain rfl := Option.some.inj hs
      cases throws with
      | true => exact hg
      | false => exact .inr (.inr (List.append_ne_nil_of_right_ne_nil _ (List.cons_ne_nil _ _)))
    | runMethod i ok =>
      obtain ⟨m, hi, rfl⟩ := Option.map_eq_some_iff.mp hs
      exact h.call hP hi (hg m hi)
    | runSyncLoop => exact h.looped hP hs
    | handleInbound =>
      obtain ⟨-, hs⟩ := Option.ite_none_left_eq_some.mp hs
      obtain ⟨dialogue, hreceive, rfl⟩ := Option.map_eq_some_iff.mp hs
      exact h.vault_kept (Dialogue.receive_side_not hreceive) rfl rfl
    | reply =>
      obtain ⟨-, hs⟩ := Option.ite_none_right_eq_some.mp hs
      obtain rfl := Option.some.inj hs
      exact h.vault_kept Dialogue.draw_side_not rfl rfl
    | hubEdit c =>
      obtain rfl := Option.some.inj hs
      exact h.vault_kept Dialogue.edit_side_not rfl rfl
    | notify =>
      obtain ⟨-, hs⟩ := Option.ite_none_left_eq_some.mp hs
      obtain rfl := Option.some.inj hs
      exact h.vault_kept Dialogue.draw_side_not rfl rfl
    | send task =>
      obtain ⟨x, -, rfl⟩ := Option.map_eq_some_iff.mp hs
      exact h.vault_kept rfl rfl rfl
  · cases a with
    | call kicks c throws =>
      obtain rfl := Option.some.inj hs
      exact h.hub_kept Dialogue.edit_side_not rfl rfl
    | runMethod i ok =>
      obtain ⟨m, -, rfl⟩ := Option.map_eq_some_iff.mp hs
      exact h.hub_kept runMethod_hub.1 runMethod_hub.2.1 runMethod_hub.2.2
    | runSyncLoop =>
      have hhub := runSyncLoop_hub hs
      exact h.hub_kept hhub.1 hhub.2.1 hhub.2.2
    | handleInbound =>
      obtain ⟨-, hs⟩ := Option.ite_none_left_eq_some.mp hs
      obtain ⟨dialogue, -, rfl⟩ := Option.map_eq_some_iff.mp hs
      exact .inr (.inl rfl)
    | reply =>
      obtain ⟨-, hs⟩ := Option.ite_none_right_eq_some.mp hs
      obtain rfl := Option.some.inj hs
      exact .inl hgenerated
    | hubEdit c =>
      obtain rfl := Option.some.inj hs
      exact .inr (.inr rfl)
    | notify =>
      obtain ⟨-, hs⟩ := Option.ite_none_left_eq_some.mp hs
      obtain rfl := Option.some.inj hs
      exact .inl hgenerated
    | send task =>
      obtain ⟨x, -, rfl⟩ := Option.map_eq_some_iff.mp hs
      exact h.hub_kept rfl rfl rfl

/-- In every run whose calls leave nothing unsent when they end, the documents agree whenever
nothing is under way. -/
theorem converged_of_kicked [DecidableEq H] (hP : Dialogue.Lawful P dialogue)
    (h : Machine.Reach (step P) (Kicked P) (start dialogue) s) : s.Converged P := by
  have hreach : Dialogue.Reach P dialogue (start dialogue).under := by
    rw [under_of_nil rfl]
    exact .start
  have hstart : Inv P dialogue (start dialogue) := ⟨hreach, .inr (.inl rfl), .inr (.inl rfl)⟩
  exact Inv.converged hP (h.invariant hstart fun _ _ _ hinv hg hs => hinv.step hP hg hs)

/-- Two parties that have nothing. -/
private def blank : Dialogue (Finset Nat) (Exchange Nat) (Finset Nat) := freshDialogue fun _ => ∅

/-- Both have told each other so. -/
private def introduced : List (Act Nat) :=
  [.reply, .send .reader, .runSyncLoop, .runSyncLoop, .runSyncLoop, .runSyncLoop, .runSyncLoop,
    .handleInbound, .reply, .notify]

/-- A label; a write whose `saveDoc` is rejected; a method that throws after its change. -/
private def stranded : List (List (Act Nat)) :=
  [[.call false 5 false, .runMethod 0 true, .runMethod 0 true],
    [.call true 5 false, .runMethod 0 false], [.call true 5 true]]

/-- `Quiescent`, computed. -/
def quiescent (s : Peering D S M) : Bool :=
  s.methods.isEmpty && s.loop = .receiving && !s.replying && s.held.isEmpty &&
    ((s.dialogue.wire false).isEmpty && (s.dialogue.wire true).isEmpty) && s.notified

theorem quiescent_iff : s.quiescent = true ↔ s.Quiescent := by
  simp [quiescent, Quiescent, and_assoc]

/-- No call throws or ends without pumping, and the hub sends in turn. -/
def kicks (s : Peering D S M) : Act C → Bool
  | .call _ _ throws => !throws
  | .send task => (s.held.head?).map Prod.fst = some task
  | .runMethod i ok => (s.methods[i]?).all fun m => !MethodCall.leaves m ok
  | _ => true

theorem kicked_of_kicks {a : Act C} (h : s.kicks a = true) : s.Kicked P a := by
  cases a with
  | call kicks c throws =>
    cases throws with
    | true => cases h
    | false => trivial
  | runMethod i ok =>
    intro m hi hleaves
    simp [Peering.kicks, hi, hleaves] at h
  | send task =>
    show (s.held.head?).map Prod.fst = some task
    exact of_decide_eq_true h
  | _ => trivial

theorem converged_of_kicked_stranded : Dialogue.Lawful sets blank ∧ ∀ run ∈ stranded, ∃ s,
    Machine.Reach (step sets) (fun _ _ => True) (start blank) s ∧ ¬ s.Converged sets := by
  refine ⟨sets_lawful _, fun run hrun => ?_⟩
  have hread : ∀ run ∈ stranded, (Machine.run (step sets) (start blank) (introduced ++ run)).map
      (fun s => (s.quiescent, (s.dialogue.side true).doc, (s.dialogue.side false).doc)) =
      some (true, {5}, ∅) := by decide +kernel
  obtain ⟨s, hs, hend⟩ := Option.map_eq_some_iff.mp (hread run hrun)
  simp only [Prod.mk.injEq] at hend
  obtain ⟨hquiet, hdoc, hdoc'⟩ := hend
  refine ⟨s, .of_run (.of_forall (fun _ _ => trivial) _) hs, fun hconverged => ?_⟩
  have heads := hconverged (quiescent_iff.mp hquiet)
  rw [hdoc, hdoc'] at heads
  exact absurd heads (by decide)

/-- A vault that writes a file and comes to rest with it delivered. -/
theorem converged_of_kicked_delivered : ∃ s : Peering (Finset Nat) (Exchange Nat) (Finset Nat),
    s.Quiescent ∧ (s.dialogue.side false).doc = {5} ∧ s.Converged sets := by
  let delivered : List (Act Nat) := introduced ++ [.call true 5 false, .runMethod 0 true,
    .runMethod 0 true, .runMethod 0 true, .runMethod 0 true, .handleInbound, .reply, .notify,
    .send .reader, .runSyncLoop, .runSyncLoop, .runSyncLoop]
  have hrun : (Machine.run (step sets) (start blank) delivered).map
      (fun s => (s.quiescent, (s.dialogue.side false).doc)) = some (true, {5}) := by
    decide +kernel
  obtain ⟨s, hs, hend⟩ := Option.map_eq_some_iff.mp hrun
  simp only [Prod.mk.injEq] at hend
  have hkicks : Machine.allowed (step sets) kicks (start blank) delivered = true := by
    decide +kernel
  have hkicked : Machine.Guarded (step sets) (Kicked sets) (start blank) delivered :=
    .of_allowed (fun _ _ => kicked_of_kicks) hkicks
  exact ⟨s, quiescent_iff.mp hend.1, hend.2,
    converged_of_kicked (sets_lawful _) (.of_run hkicked hs)⟩

end Peering

end AgentSync.Sdk
