import AgentSync.Net.Inbound

/-! The outgoing queue of a connection.

Three places generate sync messages from the one state of a peer: the opening of the connection,
its reader in answer to a message, and its notifier. Each generates under the locks of the peers
and the document and sends into the channel when both are free again, so another task may send
between the two.

The law (`InOrder`) is that the channel has the messages in the order they were generated. It
holds in every run in which a task sends only what is next in turn (`inTurn`). -/
namespace AgentSync.Net

/-- A generated message that is still to be sent, and which one it is. -/
structure Hand where
  number : Nat
  bytes : Bytes
  deriving DecidableEq, Repr

inductive OpeningPhase where
  | generating
  | sending (m : Hand)
  /-- The tasks of the connection are spawned. -/
  | spawned
  deriving DecidableEq, Repr

inductive ReaderPhase where
  | waiting
  | receiving (bytes : Bytes)
  | replying
  | sending (m : Hand)
  | ended
  deriving DecidableEq, Repr

inductive NotifierPhase where
  | generating
  | sending (m : Hand)
  | waiting
  | stopped
  deriving DecidableEq, Repr

/-- A registered connection: `queued` is every frame that has been sent into its channel,
`taken` how many of them the writer has taken, and `produced` every message generated from the
peer's sync state. -/
structure Queue (D σ : Type*) where
  doc : D
  slot : Option σ
  incoming : List Frame
  produced : List Bytes
  queued : List Frame
  taken : Nat
  written : List Frame
  /-- The writer runs, so the channel has a receiver. -/
  writer : Bool
  opening : OpeningPhase
  reader : ReaderPhase
  notifier : NotifierPhase

def OpeningPhase.hand : OpeningPhase → Option Hand
  | .sending m => some m
  | _ => none

def ReaderPhase.hand : ReaderPhase → Option Hand
  | .sending m => some m
  | _ => none

def NotifierPhase.hand : NotifierPhase → Option Hand
  | .sending m => some m
  | _ => none

def Frame.sync? : Frame → Option Bytes
  | .sync bytes => some bytes
  | _ => none

namespace Queue

variable {D σ M : Type*} (P : SyncProtocol D σ M) (encodes : Frame → Bool) (s : Queue D σ)

/-- A connection whose peer has just been registered. -/
def start (doc : D) : Queue D σ :=
  ⟨doc, some P.new, [], [], [], 0, [], true, .generating, .waiting, .generating⟩

/-- `out_tx.send`, which fails once the receiver is gone. -/
def send (f : Frame) : Queue D σ := if s.writer then {s with queued := s.queued ++ [f]} else s

/-- `generate_sync_message`, and the message in hand. -/
def generate : Queue D σ × Option Hand :=
  match s.slot with
  | none => (s, none)
  | some state =>
    match P.generate s.doc state with
    | (state, none) => ({s with slot := some state}, none)
    | (state, some bytes) =>
      ({s with slot := some state, produced := s.produced ++ [bytes]},
        some ⟨s.produced.length, bytes⟩)

/-- `receive_sync_message`, and whether it is answered. -/
def receive (bytes : Bytes) : Queue D σ × Bool :=
  match P.decode bytes with
  | .error _ => (s, false)
  | .ok msg =>
    match s.slot with
    | none => (s, true)
    | some state =>
      let ((doc, state), res) := P.receive s.doc state msg
      ({s with doc, slot := some state}, res.isOk)

/-- What `handle_inbound` sends for a frame that is not a sync message. -/
def answer (blob : Except Error Bytes) : Frame → Option Frame
  | .blobFetch hash =>
    match blob with
    | .ok bytes => some (.blobPush hash bytes)
    | .error e => some (.error (txt "blob fetch " ++ hash ++ txt ": " ++ e.text))
  | .ping ts => some (.pong ts)
  | _ => none

/-! ### The tasks -/

/-- The opening, up to the spawning of the tasks. -/
def open? : Option (Queue D σ) :=
  match s.opening with
  | .generating =>
    match s.generate P with
    | (s, some m) => some {s with opening := .sending m}
    | (s, none) => some {s with opening := .spawned}
  | .sending m => some {s.send (.sync m.bytes) with opening := .spawned}
  | .spawned => none

/-- The reader; `blob` is what the store has for a hash it is asked for. -/
def read? (blob : Except Error Bytes) : Option (Queue D σ) :=
  match s.reader with
  | .waiting =>
    match s.incoming with
    | [] => none
    | .sync bytes :: rest => some {s with incoming := rest, reader := .receiving bytes}
    | f :: rest =>
      let s := {s with incoming := rest}
      some ((answer blob f).elim s s.send)
  | .receiving bytes =>
    let (s, answered) := s.receive P bytes
    some {s with reader := if answered then .replying else .waiting}
  | .replying =>
    match s.generate P with
    | (s, some m) => some {s with reader := .sending m}
    | (s, none) => some {s with reader := .waiting}
  | .sending m => some {s.send (.sync m.bytes) with reader := .waiting}
  | .ended => none

/-- The notifier; it stops when its message has no receiver any more. -/
def notify? : Option (Queue D σ) :=
  match s.notifier with
  | .generating =>
    match s.generate P with
    | (s, some m) => some {s with notifier := .sending m}
    | (s, none) => some {s with notifier := .waiting}
  | .sending m =>
    some {s.send (.sync m.bytes) with notifier := if s.writer then .waiting else .stopped}
  | .waiting => some {s with notifier := .generating}
  | .stopped => none

/-- The writer takes the next frame; one that does not encode is left out. -/
def write? : Option (Queue D σ) :=
  (s.queued[s.taken]?).map fun f => {s with
    taken := s.taken + 1
    written := if encodes f then s.written ++ [f] else s.written}

inductive Act (D : Type*) where
  | opening
  | reader (blob : Except Error Bytes)
  | notifier
  | writer
  /-- A frame is decoded. -/
  | arrive (f : Frame)
  /-- The socket has closed under the reader. -/
  | hangup
  /-- The writer ends: it is told to close, or the socket takes no more. -/
  | close
  /-- The notifier is aborted where it waits. -/
  | abort
  | change (doc : D)
  /-- The peer loses its slot. -/
  | unregister

def step : Act D → Option (Queue D σ)
  | .opening => s.open? P
  | .reader blob => if s.opening = .spawned then s.read? P blob else none
  | .notifier => if s.opening = .spawned then s.notify? P else none
  | .writer => if s.opening = .spawned ∧ s.writer = true then s.write? encodes else none
  | .arrive f => some {s with incoming := s.incoming ++ [f]}
  | .hangup =>
    if s.reader = .waiting then some {s with slot := none, reader := .ended} else none
  | .close => if s.opening = .spawned then some {s with writer := false} else none
  | .abort =>
    match s.notifier with
    | .generating | .waiting => some {s with notifier := .stopped}
    | _ => none
  | .change doc => some {s with doc}
  | .unregister => some {s with slot := none}

/-! ### The law and its condition -/

def hands : List Hand :=
  s.opening.hand.toList ++ (s.reader.hand.toList ++ s.notifier.hand.toList)

/-- The sync messages in the channel, from the first one sent. -/
def syncs : List Bytes := s.queued.filterMap Frame.sync?

/-- The channel has the generated messages in their order, and all of them unless one is still
in hand or the writer has ended; and the writer has written what it has taken in order. -/
structure InOrder : Prop where
  ordered : s.syncs <+: s.produced
  complete : s.writer = true → s.hands = [] → s.syncs = s.produced
  written : s.written = (s.queued.take s.taken).filter encodes

/-- What the task sends next. -/
def sending : Act D → Option Hand
  | .opening => s.opening.hand
  | .reader _ => s.reader.hand
  | .notifier => s.notifier.hand
  | _ => none

/-- What the tasks have in hand that this step is not about. -/
def others : Act D → List Hand
  | .opening => s.reader.hand.toList ++ s.notifier.hand.toList
  | .reader _ => s.opening.hand.toList ++ s.notifier.hand.toList
  | .notifier => s.opening.hand.toList ++ s.reader.hand.toList
  | _ => []

/-- A task sends its message when no other has an earlier one in hand. -/
def inTurn (a : Act D) : Bool :=
  (s.sending a).all fun m => (s.others a).all fun m' => m.number < m'.number

end Queue

/-! ### Numbered messages -/

/-- Of the produced messages the first are placed, and the others are in hand, as long as there
is somewhere to place them. -/
structure Line (placed produced : List Bytes) (hands : List Hand) (alive : Bool) : Prop where
  ordered : placed <+: produced
  held : ∀ m ∈ hands, placed.length ≤ m.number ∧ produced[m.number]? = some m.bytes
  covered : alive = true → ∀ n, placed.length ≤ n → n < produced.length → ∃ m ∈ hands, m.number = n

namespace Line

variable {placed produced : List Bytes} {hands hands' : List Hand} {alive : Bool} {m : Hand}
  {bytes : Bytes}

theorem congr (h : Line placed produced hands alive) (hhands : ∀ m, m ∈ hands' ↔ m ∈ hands) :
    Line placed produced hands' alive := by
  refine ⟨h.ordered, fun m hm => h.held m ((hhands m).mp hm), fun halive n hn hlt => ?_⟩
  obtain ⟨m, hm, hnum⟩ := h.covered halive n hn hlt
  exact ⟨m, (hhands m).mpr hm, hnum⟩

theorem produce (h : Line placed produced hands alive)
    (hhands : ∀ m, m ∈ hands' ↔ m = ⟨produced.length, bytes⟩ ∨ m ∈ hands) :
    Line placed (produced ++ [bytes]) hands' alive := by
  have hlength := h.ordered.length_le
  refine ⟨h.ordered.trans (List.prefix_append ..), fun m hm => ?_, fun halive n hn hlt => ?_⟩
  · rcases (hhands m).mp hm with rfl | hm
    · exact ⟨hlength, by simp⟩
    · obtain ⟨hle, hget⟩ := h.held m hm
      refine ⟨hle, ?_⟩
      rw [List.getElem?_append_left (List.getElem?_eq_some_iff.mp hget).1]
      exact hget
  · by_cases hnew : n = produced.length
    · exact ⟨_, (hhands _).mpr (.inl rfl), hnew.symm⟩
    · obtain ⟨m, hm, hnum⟩ := h.covered halive n hn (by
        rw [List.length_append, List.length_singleton] at hlt
        omega)
      exact ⟨m, (hhands m).mpr (.inr hm), hnum⟩

/-- The earliest message in hand is the next one to place. -/
theorem place (h : Line placed produced hands true)
    (hhands : ∀ m', m' ∈ hands ↔ m' = m ∨ m' ∈ hands')
    (hfirst : ∀ m' ∈ hands', m.number < m'.number) :
    Line (placed ++ [m.bytes]) produced hands' true := by
  obtain ⟨hle, hget⟩ := h.held m ((hhands m).mpr (.inl rfl))
  have hlt := (List.getElem?_eq_some_iff.mp hget).1
  have hnum : m.number = placed.length := by
    obtain ⟨m', hm', hnum'⟩ := h.covered rfl placed.length (le_refl _) (by omega)
    rcases (hhands m').mp hm' with rfl | hm'
    · exact hnum'
    · have := hfirst m' hm'
      omega
  refine ⟨?_, fun m' hm' => ⟨?_, (h.held m' ((hhands m').mpr (.inr hm'))).2⟩,
    fun _ n hn hlt' => ?_⟩
  · obtain ⟨rest, rfl⟩ := h.ordered
    rw [hnum, List.getElem?_append_right (le_refl _), Nat.sub_self] at hget
    obtain ⟨b, rest', rfl⟩ := List.exists_cons_of_ne_nil (l := rest) (by
      rintro rfl
      cases hget)
    obtain rfl := Option.some.inj hget
    exact ⟨rest', by simp⟩
  · have := hfirst m' hm'
    rw [List.length_append, List.length_singleton]
    omega
  · rw [List.length_append, List.length_singleton] at hn
    obtain ⟨m', hm', hnum'⟩ := h.covered rfl n (by omega) hlt'
    rcases (hhands m').mp hm' with rfl | hm'
    · omega
    · exact ⟨m', hm', hnum'⟩

/-- Nothing is placed any more. -/
theorem drop (h : Line placed produced hands alive) (hhands : ∀ m' ∈ hands', m' ∈ hands) :
    Line placed produced hands' false :=
  ⟨h.ordered, fun m hm => h.held m (hhands m hm), fun hf => by cases hf⟩

end Line

namespace Queue

variable {D σ M : Type*} {P : SyncProtocol D σ M} {encodes : Frame → Bool} {s s' t : Queue D σ}
  {m : Hand} {a : Act D}

theorem mem_hands : m ∈ s.hands ↔
    s.opening.hand = some m ∨ s.reader.hand = some m ∨ s.notifier.hand = some m := by
  simp [hands]

structure Inv (encodes : Frame → Bool) (s : Queue D σ) : Prop where
  line : Line s.syncs s.produced s.hands s.writer
  taken : s.taken ≤ s.queued.length
  written : s.written = (s.queued.take s.taken).filter encodes

/-- The channel, its writer and what was generated are as they were. -/
structure Quiet (s s' : Queue D σ) : Prop where
  produced : s'.produced = s.produced
  queued : s'.queued = s.queued
  taken : s'.taken = s.taken
  written : s'.written = s.written
  writer : s'.writer = s.writer

theorem Inv.quiet (h : Inv encodes s) (hq : Quiet s s') (hhands : ∀ m, m ∈ s'.hands ↔ m ∈ s.hands) :
    Inv encodes s' := by
  have hsyncs : s'.syncs = s.syncs := by rw [syncs, hq.queued, syncs]
  refine ⟨?_, by rw [hq.taken, hq.queued]; exact h.taken, ?_⟩
  · rw [hsyncs, hq.produced, hq.writer]
    exact h.line.congr hhands
  · rw [hq.written, hq.queued, hq.taken]
    exact h.written

/-- What generating does: no message and no change but in the slot, or the next message. -/
theorem generate_cases : ∃ t m, s.generate P = (t, m) ∧
    (t.opening = s.opening ∧ t.reader = s.reader ∧ t.notifier = s.notifier) ∧
    (m = none ∧ Quiet s t ∨ ∃ bytes, m = some ⟨s.produced.length, bytes⟩ ∧
      Quiet {s with produced := s.produced ++ [bytes]} t) := by
  unfold generate
  split
  next => exact ⟨s, none, rfl, ⟨rfl, rfl, rfl⟩, .inl ⟨rfl, rfl, rfl, rfl, rfl, rfl⟩⟩
  next state _ =>
    split
    next => exact ⟨_, none, rfl, ⟨rfl, rfl, rfl⟩, .inl ⟨rfl, rfl, rfl, rfl, rfl, rfl⟩⟩
    next bytes _ =>
      exact ⟨_, _, rfl, ⟨rfl, rfl, rfl⟩, .inr ⟨bytes, rfl, rfl, rfl, rfl, rfl, rfl⟩⟩

/-- A message is generated and taken in hand. -/
theorem Inv.produced (h : Inv encodes s) {bytes : Bytes}
    (hq : Quiet {s with produced := s.produced ++ [bytes]} s')
    (hhands : ∀ m, m ∈ s'.hands ↔ m = ⟨s.produced.length, bytes⟩ ∨ m ∈ s.hands) :
    Inv encodes s' := by
  have hsyncs : s'.syncs = s.syncs := by rw [syncs, hq.queued, syncs]
  refine ⟨?_, by rw [hq.taken, hq.queued]; exact h.taken, ?_⟩
  · rw [hsyncs, hq.produced, hq.writer]
    exact h.line.produce hhands
  · rw [hq.written, hq.queued, hq.taken]
    exact h.written

theorem syncs_send (f : Frame) (hwriter : s.writer = true) :
    (s.send f).syncs = s.syncs ++ f.sync?.toList := by
  rw [send, if_pos hwriter, syncs, List.filterMap_append, syncs]
  cases hf : f.sync? with
  | none => simp [hf]
  | some bytes => simp [hf]

theorem send_cases (f : Frame) : (s.send f).produced = s.produced ∧ (s.send f).taken = s.taken ∧
    (s.send f).written = s.written ∧ (s.send f).writer = s.writer ∧
    (s.send f).hands = s.hands ∧
    (s.writer = true ∧ (s.send f).queued = s.queued ++ [f] ∨ s.writer = false ∧ s.send f = s) := by
  unfold send
  split
  next hwriter => exact ⟨rfl, rfl, rfl, rfl, rfl, .inl ⟨hwriter, rfl⟩⟩
  next hwriter => exact ⟨rfl, rfl, rfl, rfl, rfl, .inr ⟨by simpa using hwriter, rfl⟩⟩

theorem send_tasks (f : Frame) : (s.send f).opening = s.opening ∧ (s.send f).reader = s.reader ∧
    (s.send f).notifier = s.notifier := by
  unfold send
  split <;> exact ⟨rfl, rfl, rfl⟩

/-- A frame in the channel does not change what the writer has taken. -/
theorem Inv.queued (h : Inv encodes s) (f : Frame) : (s.send f).taken ≤ (s.send f).queued.length ∧
    (s.send f).written = ((s.send f).queued.take (s.send f).taken).filter encodes := by
  obtain ⟨-, htaken, hwritten, -, -, hqueued⟩ := send_cases (s := s) f
  rw [htaken, hwritten]
  rcases hqueued with ⟨-, hqueued⟩ | ⟨-, hsame⟩
  · rw [hqueued, List.length_append, List.take_append_of_le_length h.taken]
    exact ⟨Nat.le_add_right_of_le h.taken, h.written⟩
  · rw [hsame]
    exact ⟨h.taken, h.written⟩

/-- The message that is next in turn is sent. -/
theorem Inv.sent (h : Inv encodes s) (rest : List Hand)
    (hhands : ∀ m', m' ∈ s.hands ↔ m' = m ∨ m' ∈ rest)
    (hturn : ∀ m' ∈ rest, m.number < m'.number) (hq : Quiet (s.send (.sync m.bytes)) s')
    (hrest : ∀ m', m' ∈ s'.hands ↔ m' ∈ rest) : Inv encodes s' := by
  obtain ⟨htaken, hwritten⟩ := h.queued (.sync m.bytes)
  obtain ⟨hproduced, -, -, hwriter, -, hqueued⟩ := send_cases (s := s) (.sync m.bytes)
  refine ⟨?_, by rw [hq.taken, hq.queued]; exact htaken, ?_⟩
  · have hsyncs : s'.syncs = (s.send (.sync m.bytes)).syncs := by rw [syncs, hq.queued, syncs]
    rw [hsyncs, hq.produced, hq.writer, hproduced, hwriter]
    rcases hqueued with ⟨halive, -⟩ | ⟨hdead, hsame⟩
    · have hline := h.line
      rw [halive] at hline
      rw [syncs_send _ halive, halive]
      exact (hline.place hhands hturn).congr hrest
    · rw [hsame, hdead]
      exact h.line.drop fun m' hm' => (hhands m').mpr (.inr ((hrest m').mp hm'))
  · rw [hq.written, hq.queued, hq.taken]
    exact hwritten

/-- The reader answers with a frame that is not a sync message. -/
theorem Inv.answered (h : Inv encodes s) {f : Frame} (hf : f.sync? = none) :
    Inv encodes (s.send f) := by
  obtain ⟨htaken, hwritten⟩ := h.queued f
  obtain ⟨hproduced, -, -, hwriter, hhands, hqueued⟩ := send_cases (s := s) f
  refine ⟨?_, htaken, hwritten⟩
  rw [hproduced, hwriter, hhands]
  rcases hqueued with ⟨halive, -⟩ | ⟨-, hsame⟩
  · rw [syncs_send _ halive, hf, Option.toList_none, List.append_nil]
    exact h.line
  · rw [hsame]
    exact h.line

theorem Quiet.trans {u : Queue D σ} (h : Quiet s t) (h' : Quiet t u) : Quiet s u :=
  ⟨h'.produced.trans h.produced, h'.queued.trans h.queued, h'.taken.trans h.taken,
    h'.written.trans h.written, h'.writer.trans h.writer⟩

/-- A task generates a message and then has what it got in hand. -/
theorem Inv.generated (h : Inv encodes s) {m : Option Hand} (hgen : s.generate P = (t, m))
    (hq : Quiet t s') (hhands : ∀ m', m' ∈ s'.hands ↔ m = some m' ∨ m' ∈ s.hands) :
    Inv encodes s' := by
  obtain ⟨t', m', hgen', -, hcases⟩ := generate_cases (P := P) (s := s)
  obtain ⟨rfl, rfl⟩ := Prod.mk.inj (hgen'.symm.trans hgen)
  rcases hcases with ⟨rfl, hquiet⟩ | ⟨bytes, rfl, hquiet⟩
  · refine h.quiet (hquiet.trans hq) fun m => (hhands m).trans ?_
    simp
  · refine h.produced (hquiet.trans hq) fun m => (hhands m).trans ?_
    rw [Option.some.injEq, eq_comm]

theorem Inv.opens (h : Inv encodes s) (hturn : s.inTurn (.opening : Act D) = true)
    (hs : s.open? P = some s') : Inv encodes s' := by
  unfold open? at hs
  split at hs
  next hphase =>
    obtain ⟨t, m, hgen, ⟨-, hreader, hnotifier⟩, -⟩ := generate_cases (P := P) (s := s)
    rw [hgen] at hs
    cases m with
    | none =>
      obtain rfl := Option.some.inj hs
      refine h.generated hgen ⟨rfl, rfl, rfl, rfl, rfl⟩ fun m' => ?_
      simp [mem_hands, hphase, hreader, hnotifier, OpeningPhase.hand]
    | some m =>
      obtain rfl := Option.some.inj hs
      refine h.generated hgen ⟨rfl, rfl, rfl, rfl, rfl⟩ fun m' => ?_
      simp [mem_hands, hphase, hreader, hnotifier, OpeningPhase.hand]
  next m hphase =>
    obtain rfl := Option.some.inj hs
    have hrest : ∀ m' ∈ s.others (.opening : Act D), m.number < m'.number := by
      simpa [inTurn, sending, hphase, OpeningPhase.hand] using hturn
    refine h.sent (s.others (.opening : Act D)) (fun m' => ?_) hrest
      ⟨rfl, rfl, rfl, rfl, rfl⟩ fun m' => ?_
    · simp [mem_hands, hphase, OpeningPhase.hand, others, eq_comm]
    · obtain ⟨-, hreader, hnotifier⟩ := send_tasks (s := s) (.sync m.bytes)
      simp [mem_hands, OpeningPhase.hand, others, hreader, hnotifier]
  next => cases hs

theorem Inv.notifies (h : Inv encodes s) (hturn : s.inTurn (.notifier : Act D) = true)
    (hs : s.notify? P = some s') : Inv encodes s' := by
  unfold notify? at hs
  split at hs
  next hphase =>
    obtain ⟨t, m, hgen, ⟨hopening, hreader, -⟩, -⟩ := generate_cases (P := P) (s := s)
    rw [hgen] at hs
    cases m with
    | none =>
      obtain rfl := Option.some.inj hs
      refine h.generated hgen ⟨rfl, rfl, rfl, rfl, rfl⟩ fun m' => ?_
      simp [mem_hands, hphase, hreader, hopening, NotifierPhase.hand]
    | some m =>
      obtain rfl := Option.some.inj hs
      refine h.generated hgen ⟨rfl, rfl, rfl, rfl, rfl⟩ fun m' => ?_
      simp only [mem_hands, hphase, hreader, hopening, NotifierPhase.hand, reduceCtorEq, or_false]
      grind
  next m hphase =>
    obtain rfl := Option.some.inj hs
    have hrest : ∀ m' ∈ s.others (.notifier : Act D), m.number < m'.number := by
      simpa [inTurn, sending, hphase, NotifierPhase.hand] using hturn
    refine h.sent (s.others (.notifier : Act D)) (fun m' => ?_) hrest
      ⟨rfl, rfl, rfl, rfl, rfl⟩ fun m' => ?_
    · simp only [mem_hands, hphase, NotifierPhase.hand, others, List.mem_append,
        Option.mem_toList, Option.some.injEq]
      grind
    · obtain ⟨hopening, hreader, -⟩ := send_tasks (s := s) (.sync m.bytes)
      simp only [mem_hands, others, hopening, hreader, List.mem_append, Option.mem_toList]
      split <;> simp [NotifierPhase.hand]
  next hphase =>
    obtain rfl := Option.some.inj hs
    exact h.quiet ⟨rfl, rfl, rfl, rfl, rfl⟩ fun m => by simp [mem_hands, hphase, NotifierPhase.hand]
  next => cases hs

theorem receive_cases (bytes : Bytes) : ∃ t answered, s.receive P bytes = (t, answered) ∧
    Quiet s t ∧ t.opening = s.opening ∧ t.notifier = s.notifier := by
  unfold receive
  split
  next => exact ⟨s, false, rfl, ⟨rfl, rfl, rfl, rfl, rfl⟩, rfl, rfl⟩
  next =>
    split
    next => exact ⟨s, true, rfl, ⟨rfl, rfl, rfl, rfl, rfl⟩, rfl, rfl⟩
    next => exact ⟨_, _, rfl, ⟨rfl, rfl, rfl, rfl, rfl⟩, rfl, rfl⟩

/-- No answer to another frame is a sync message. -/
theorem answer_sync {blob : Except Error Bytes} {f g : Frame} (h : answer blob f = some g) :
    g.sync? = none := by
  cases f with
  | blobFetch hash =>
    cases blob <;> (obtain rfl := Option.some.inj h; rfl)
  | ping ts =>
    obtain rfl := Option.some.inj h
    rfl
  | _ => cases h

theorem Inv.reads {blob : Except Error Bytes} (h : Inv encodes s)
    (hturn : s.inTurn (.reader blob : Act D) = true) (hs : s.read? P blob = some s') :
    Inv encodes s' := by
  unfold read? at hs
  split at hs
  next hphase =>
    split at hs
    next => cases hs
    next bytes rest _ =>
      obtain rfl := Option.some.inj hs
      exact h.quiet ⟨rfl, rfl, rfl, rfl, rfl⟩ fun m => by simp [mem_hands, hphase, ReaderPhase.hand]
    next f rest _ _ =>
      obtain rfl := Option.some.inj hs
      have hrest : Inv encodes {s with incoming := rest} :=
        h.quiet ⟨rfl, rfl, rfl, rfl, rfl⟩ fun m => Iff.rfl
      cases hans : answer blob f with
      | none => exact hrest
      | some g => exact hrest.answered (answer_sync hans)
  next bytes hphase =>
    obtain ⟨t, answered, hrec, hquiet, hopening, hnotifier⟩ :=
      receive_cases (P := P) (s := s) bytes
    rw [hrec] at hs
    obtain rfl := Option.some.inj hs
    refine h.quiet (hquiet.trans ⟨rfl, rfl, rfl, rfl, rfl⟩) fun m => ?_
    cases answered <;> simp [mem_hands, hphase, hopening, hnotifier, ReaderPhase.hand]
  next hphase =>
    obtain ⟨t, m, hgen, ⟨hopening, -, hnotifier⟩, -⟩ := generate_cases (P := P) (s := s)
    rw [hgen] at hs
    cases m with
    | none =>
      obtain rfl := Option.some.inj hs
      refine h.generated hgen ⟨rfl, rfl, rfl, rfl, rfl⟩ fun m' => ?_
      simp [mem_hands, hphase, hopening, hnotifier, ReaderPhase.hand]
    | some m =>
      obtain rfl := Option.some.inj hs
      refine h.generated hgen ⟨rfl, rfl, rfl, rfl, rfl⟩ fun m' => ?_
      simp only [mem_hands, hphase, hopening, hnotifier, ReaderPhase.hand, reduceCtorEq, false_or]
      grind
  next m hphase =>
    obtain rfl := Option.some.inj hs
    have hrest : ∀ m' ∈ s.others (.reader blob : Act D), m.number < m'.number := by
      simpa [inTurn, sending, hphase, ReaderPhase.hand] using hturn
    refine h.sent (s.others (.reader blob : Act D)) (fun m' => ?_) hrest
      ⟨rfl, rfl, rfl, rfl, rfl⟩ fun m' => ?_
    · simp only [mem_hands, hphase, ReaderPhase.hand, others, List.mem_append,
        Option.mem_toList, Option.some.injEq]
      grind
    · obtain ⟨hopening, -, hnotifier⟩ := send_tasks (s := s) (.sync m.bytes)
      simp [mem_hands, ReaderPhase.hand, others, hopening, hnotifier]
  next => cases hs

/-- The next frame is written, or left out. -/
theorem Inv.writes (h : Inv encodes s) (hs : s.write? encodes = some s') : Inv encodes s' := by
  obtain ⟨f, hf, rfl⟩ := Option.map_eq_some_iff.mp hs
  have hlt := (List.getElem?_eq_some_iff.mp hf).1
  refine ⟨h.line, hlt, ?_⟩
  simp only [List.take_add_one, hf, Option.toList_some, List.filter_append, h.written]
  cases hf : encodes f <;> simp [hf]

theorem Inv.step (h : Inv encodes s) (hturn : s.inTurn a = true)
    (hs : s.step P encodes a = some s') : Inv encodes s' := by
  cases a with
  | opening => exact h.opens hturn hs
  | reader blob => exact h.reads hturn (Option.ite_none_right_eq_some.mp hs).2
  | notifier => exact h.notifies hturn (Option.ite_none_right_eq_some.mp hs).2
  | writer => exact h.writes (Option.ite_none_right_eq_some.mp hs).2
  | arrive f =>
    obtain rfl := Option.some.inj hs
    exact h.quiet ⟨rfl, rfl, rfl, rfl, rfl⟩ fun m => Iff.rfl
  | hangup =>
    obtain ⟨hphase, hs⟩ := Option.ite_none_right_eq_some.mp hs
    obtain rfl := Option.some.inj hs
    exact h.quiet ⟨rfl, rfl, rfl, rfl, rfl⟩ fun m => by simp [mem_hands, hphase, ReaderPhase.hand]
  | close =>
    obtain ⟨-, hs⟩ := Option.ite_none_right_eq_some.mp hs
    obtain rfl := Option.some.inj hs
    exact ⟨h.line.drop fun m hm => hm, h.taken, h.written⟩
  | abort =>
    simp only [Queue.step] at hs
    split at hs
    next hphase =>
      obtain rfl := Option.some.inj hs
      exact h.quiet ⟨rfl, rfl, rfl, rfl, rfl⟩ fun m => by
        simp [mem_hands, hphase, NotifierPhase.hand]
    next hphase =>
      obtain rfl := Option.some.inj hs
      exact h.quiet ⟨rfl, rfl, rfl, rfl, rfl⟩ fun m => by
        simp [mem_hands, hphase, NotifierPhase.hand]
    next => cases hs
  | change doc =>
    obtain rfl := Option.some.inj hs
    exact h.quiet ⟨rfl, rfl, rfl, rfl, rfl⟩ fun m => Iff.rfl
  | unregister =>
    obtain rfl := Option.some.inj hs
    exact h.quiet ⟨rfl, rfl, rfl, rfl, rfl⟩ fun m => Iff.rfl

theorem Inv.inOrder (h : Inv encodes s) : s.InOrder encodes := by
  refine ⟨h.line.ordered, fun halive hhands => ?_, h.written⟩
  refine h.line.ordered.eq_of_length_le ?_
  by_contra hlt
  obtain ⟨m, hm, -⟩ := h.line.covered halive s.syncs.length (le_refl _) (by omega)
  rw [hhands] at hm
  cases hm

/-- **In every run in which a task sends only what is next in turn, the channel has the sync
messages of the peer each once and in the order they were generated, and the writer writes them
in that order.** -/
theorem in_order_of_turn {doc : D}
    (h : Machine.Reach (step P encodes) (fun s a => s.inTurn a = true) (.start P doc) s) :
    s.InOrder encodes := by
  refine (h.invariant (I := Inv encodes) ?_ fun s a s' hinv hg hs => hinv.step hg hs).inOrder
  refine ⟨⟨List.prefix_rfl, fun m hm => ?_, fun _ n _ hn => ?_⟩, le_refl _, rfl⟩
  · cases hm
  · cases hn

/-- A document counts its changes, and a peer is told each count once. -/
private def counting : SyncProtocol Nat (Option Nat) Unit where
  new := none
  decode := fun _ => .ok ()
  generate := fun doc state =>
    if state = some doc then (state, none) else (some doc, some [UInt8.ofNat doc])
  receive := fun doc _ _ => ((doc, none), .ok ())

/-- The opening message is sent, a message of the peer is received, and the reader has its
answer in hand when the document changes and the notifier wakes up. -/
private def racing : List (Act Nat) :=
  [.opening, .opening, .notifier, .arrive (.sync []), .reader (.ok []), .reader (.ok []),
    .reader (.ok []), .change 1, .notifier, .notifier]

theorem in_order_of_turn_taken : ∃ s : Queue Nat (Option Nat),
    s.produced = [[0], [0], [1]] ∧ s.written = [.sync [0], .sync [0], .sync [1]] ∧
      s.InOrder fun _ => true := by
  have hrun : ((Machine.run (step counting fun _ => true) (.start counting 0)
      (racing ++ [.reader (.ok []), .notifier, .writer, .writer, .writer])).any fun s =>
        s.produced = [[0], [0], [1]] ∧ s.written = [.sync [0], .sync [0], .sync [1]]) = true := by
    decide +kernel
  have hguard : Machine.allowed (step counting fun _ => true) inTurn (.start counting 0)
      (racing ++ [.reader (.ok []), .notifier, .writer, .writer, .writer]) = true := by
    decide +kernel
  obtain ⟨s, hs, hread⟩ := (Option.any_eq_true _ _).mp hrun
  obtain ⟨hproduced, hwritten⟩ := of_decide_eq_true hread
  exact ⟨s, hproduced, hwritten, in_order_of_turn
    (.of_run (.of_allowed (fun _ _ h => h) hguard) hs)⟩

/-- **The notifier overtakes the reader**: its message was generated after the reader's and is
sent before it. -/
theorem in_order_of_turn_overtaken : ∃ s : Queue Nat (Option Nat),
    Machine.Reach (step counting fun _ => true) (fun _ _ => True) (.start counting 0) s ∧
      s.produced = [[0], [0], [1]] ∧ s.syncs = [[0], [1], [0]] ∧ s.hands = [] ∧
      ¬ s.InOrder fun _ => true := by
  have hrun : ((Machine.run (step counting fun _ => true) (.start counting 0)
      (racing ++ [.notifier, .reader (.ok [])])).any fun s =>
        s.produced = [[0], [0], [1]] ∧ s.syncs = [[0], [1], [0]] ∧ s.hands = []) = true := by
    decide +kernel
  obtain ⟨s, hs, hread⟩ := (Option.any_eq_true _ _).mp hrun
  obtain ⟨hproduced, hsyncs, hhands⟩ := of_decide_eq_true hread
  refine ⟨s, .of_run (.of_forall (fun _ _ => trivial) _) hs, hproduced, hsyncs, hhands, fun h => ?_⟩
  have hordered := h.ordered
  rw [hproduced, hsyncs] at hordered
  revert hordered
  decide

end Queue

end AgentSync.Net
