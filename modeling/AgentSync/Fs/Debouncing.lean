import AgentSync.Debounce
import AgentSync.Machine
import AgentSync.Fs.Events

/-! The loop between the watcher and the handler of events.

`debounced_fs_loop` holds an event back for a while under its path, and the next event of that path
takes its place. It takes what is in the channel first, then sleeps until the first event is due,
and `flush_expired` hands over whatever is due by then, path by path and in no order. While an event
is handled time goes by and the watcher goes on (`FsLoop.step`), so more may be in the channel by
the time the loop looks again.

A rename waits under the path it leads to (`FsEvent.key`). -/
namespace AgentSync

open Debounce (Book)

/-- `FS_DEBOUNCE`, in milliseconds. -/
def fsDebounce : Nat := 150

/-- What the loop waits for when it has nothing to handle: an hour. -/
def idleWait : Nat := 3600 * 1000

/-- The path an event waits under. -/
def FsEvent.key : FsEvent → PathBuf
  | .touched path | .removed path => path
  | .renamed _ dst => dst

/-- An event, and when it is due. -/
abbrev Deferred := FsEvent × Nat

def Deferred.key (e : Deferred) : PathBuf := e.1.key

/-- Where `debounced_fs_loop` is. -/
inductive LoopPlace where
  | top
  /-- In the `select!`, whose timer goes off at `wake`. -/
  | waiting (wake : Nat)
  /-- `flush_expired` is called, with or without `force_all`. -/
  | flushing (forced : Bool)
  | handling (forced : Bool) (expired : List PathBuf)
  | returned
  deriving DecidableEq, Repr

/-- The loop and its channel. `sent` is all that the watcher has reported, of which the loop has
received what is in `book`; `times` says when each event was handed over. -/
structure FsLoop where
  now : Nat
  sent : List FsEvent
  /-- The watcher is gone. -/
  closed : Bool
  book : Book PathBuf Deferred
  times : List Nat
  place : LoopPlace

namespace FsLoop

variable (s : FsLoop)

/-- `Binding::new` with its watcher, and the loop that is spawned for it. -/
def start : FsLoop := ⟨0, [], false, .empty, [], .top⟩

/-- What is in the channel. -/
def channel : List FsEvent := s.sent.drop s.book.received.length

/-- The dates of what waits. -/
def dues : List Nat := s.book.pending.entries.map fun e => e.2.2

/-- When the timer is to go off: the wait is until the first date, or not at all. -/
def wake : Nat := s.now + ((s.dues.map fun due => due - s.now).min?).getD idleWait

/-- The paths whose events are due. -/
def expired (forced : Bool) : List PathBuf :=
  (s.book.pending.entries.filter fun e => forced || e.2.2 ≤ s.now).map Sigma.fst

inductive Act where
  /-- The watcher reports an event. -/
  | sent (event : FsEvent)
  | hangUp
  | elapsed (ms : Nat)
  /-- The loop goes on; `pick` says which path is next. -/
  | proceed (pick : Nat)
  deriving DecidableEq, Repr

def receive (event : FsEvent) : FsLoop :=
  {s with book := s.book.receive Deferred.key (event, s.now + fsDebounce), place := .top}

/-- One path of `flush_expired`. -/
def handOver (path : PathBuf) : FsLoop :=
  match s.book.pending.lookup path with
  | some _ => {s with book := s.book.handle path, times := s.times ++ [s.now]}
  | none => s

def proceed (pick : Nat) : Option FsLoop :=
  match s.place with
  | .top => some {s with place := .waiting s.wake}
  | .waiting wake =>
    -- The select is biased, so the timer is not looked at while there is something to receive.
    match s.channel with
    | event :: _ => some (s.receive event)
    | [] =>
      if s.closed then some {s with place := .flushing true}
      else if wake ≤ s.now then some {s with place := .flushing false}
      else none
  | .flushing forced => some {s with place := .handling forced (s.expired forced)}
  | .handling forced [] => some {s with place := if forced then .returned else .top}
  | .handling forced paths =>
    paths[pick]?.map fun path =>
      {s.handOver path with place := .handling forced (paths.eraseIdx pick)}
  | .returned => none

def step : Act → Option FsLoop
  | .sent event => if s.closed then none else some {s with sent := s.sent ++ [event]}
  | .hangUp => some {s with closed := true}
  | .elapsed ms => some {s with now := s.now + ms}
  | .proceed pick => s.proceed pick

/-- What waits and is due is among the paths to hand over, and those are due. -/
def Collected (forced : Bool) (paths : List PathBuf) : Prop :=
  (forced = true → s.closed = true ∧ s.channel = [] ∧ s.book.pending.keys ⊆ paths) ∧
    (forced = false → ∀ path ∈ paths, ∀ e, s.book.pending.lookup path = some e → e.2 ≤ s.now)

/-- What the place of the loop says about what waits. -/
def Placed : LoopPlace → Prop
  | .top => True
  | .waiting wake => ∀ path e, s.book.pending.lookup path = some e → wake ≤ max e.2 s.now
  | .flushing forced => forced = true → s.closed = true ∧ s.channel = []
  | .handling forced paths => s.Collected forced paths
  | .returned => s.closed = true ∧ s.channel = [] ∧ s.book.pending = ∅

structure Inv : Prop where
  kept : s.book.Kept Deferred.key
  /-- What is received is what was sent, one after the other. -/
  received : s.book.received.map Prod.fst <+: s.sent
  /-- No event is handed over before its date, unless the watcher is gone. -/
  timely : ∀ x ∈ s.book.handled.zip s.times, x.1.2 ≤ x.2 ∨ s.closed = true
  timed : s.times.length = s.book.handled.length
  placed : s.Placed s.place

variable {s s' : FsLoop} {path : PathBuf} {paths : List PathBuf} {e : Deferred} {forced : Bool}
  {pick : Nat}

/-! ### Looking things up -/

theorem mem_dues (h : s.book.pending.lookup path = some e) : e.2 ∈ s.dues :=
  List.mem_map.mpr ⟨⟨path, e⟩, AList.mem_lookup_iff.mp h, rfl⟩

/-- The timer goes off by the date of whatever waits. -/
theorem wake_le (h : s.book.pending.lookup path = some e) : s.wake ≤ max e.2 s.now := by
  have hmem : e.2 - s.now ∈ s.dues.map fun due => due - s.now := List.mem_map_of_mem (mem_dues h)
  cases hmin : (s.dues.map fun due => due - s.now).min? with
  | none =>
    rw [List.min?_eq_none_iff.mp hmin] at hmem
    cases hmem
  | some least =>
    have hle : least ≤ e.2 - s.now := (List.min?_eq_some_iff.mp hmin).2 _ hmem
    rw [wake, hmin, Option.getD_some]
    omega

theorem mem_expired (h : s.book.pending.lookup path = some e) :
    path ∈ s.expired forced ↔ forced = true ∨ e.2 ≤ s.now := by
  have hentry : (⟨path, e⟩ : Sigma fun _ : PathBuf => Deferred) ∈ s.book.pending.entries :=
    AList.mem_lookup_iff.mp h
  have hdue (x : Sigma fun _ : PathBuf => Deferred) : (forced || decide (x.2.2 ≤ s.now)) = true ↔
      forced = true ∨ x.2.2 ≤ s.now := by simp
  simp only [expired, List.mem_map, List.mem_filter, hdue]
  constructor
  · rintro ⟨x, ⟨hx, hor⟩, rfl⟩
    have hsame : s.book.pending.lookup x.1 = some x.2 := AList.mem_lookup_iff.mpr hx
    rw [h] at hsame
    rwa [Option.some.inj hsame]
  · exact fun hor => ⟨_, ⟨hentry, hor⟩, rfl⟩

theorem mem_keys (h : path ∈ s.book.pending.keys) : ∃ e, s.book.pending.lookup path = some e :=
  Option.isSome_iff_exists.mp (AList.lookup_isSome.mpr h)

theorem mem_eraseIdx_of_ne {k : PathBuf} (hk : k ∈ paths) (hpath : paths[pick]? = some path)
    (hne : k ≠ path) : k ∈ paths.eraseIdx pick := by
  obtain ⟨i, hi⟩ := List.getElem?_of_mem hk
  refine List.mem_eraseIdx_iff_getElem?.mpr ⟨i, fun h => hne ?_, hi⟩
  rw [h, hpath] at hi
  exact (Option.some.inj hi).symm

/-! ### One step -/

/-- What the loop does to hand one path over. -/
theorem handOver_eq (path : PathBuf) : (s.handOver path).book = s.book.handle path ∧
    (s.handOver path).now = s.now ∧ (s.handOver path).sent = s.sent ∧
    (s.handOver path).closed = s.closed := by
  unfold handOver
  split
  next => exact ⟨rfl, rfl, rfl, rfl⟩
  next hnone =>
    refine ⟨?_, rfl, rfl, rfl⟩
    rw [Book.handle, hnone]

theorem received_handle (b : Book PathBuf Deferred) (path : PathBuf) :
    (b.handle path).received = b.received := by
  unfold Book.handle
  split <;> rfl

/-- What still waits once a path is handed over. -/
theorem lookup_handle (b : Book PathBuf Deferred) (path k : PathBuf) :
    (b.handle path).pending.lookup k = if k = path then none else b.pending.lookup k := by
  unfold Book.handle
  split
  next =>
    split
    next hk => rw [hk, AList.lookup_erase]
    next hk => exact AList.lookup_erase_ne hk
  next hnone =>
    split
    next hk => rw [hk, hnone]
    next => rfl

theorem channel_handOver (path : PathBuf) : (s.handOver path).channel = s.channel := by
  obtain ⟨hbook, -, hsent, -⟩ := handOver_eq (s := s) path
  rw [channel, hbook, received_handle, hsent, channel]

theorem Inv.start : start.Inv where
  kept := .empty
  received := List.nil_prefix
  timely := fun x hx => by cases hx
  timed := rfl
  placed := trivial

/-- Reporting an event does nothing to the loop. -/
theorem Inv.sent (h : s.Inv) (event : FsEvent) (hopen : s.closed = false) :
    {s with sent := s.sent ++ [event]}.Inv where
  kept := h.kept
  received := h.received.trans (List.prefix_append _ _)
  timely := h.timely
  timed := h.timed
  placed := by
    have hplaced := h.placed
    show Placed _ s.place
    cases hplace : s.place with
    | top => trivial
    | waiting wake =>
      rw [hplace] at hplaced
      exact hplaced
    | flushing forced =>
      rw [hplace] at hplaced
      exact fun hf => absurd (hplaced hf).1 (by simp [hopen])
    | handling forced paths =>
      rw [hplace] at hplaced
      exact ⟨fun hf => absurd (hplaced.1 hf).1 (by simp [hopen]), hplaced.2⟩
    | returned =>
      rw [hplace] at hplaced
      exact absurd hplaced.1 (by simp [hopen])

theorem Inv.hungUp (h : s.Inv) : {s with closed := true}.Inv where
  kept := h.kept
  received := h.received
  timely := fun x hx => .inr rfl
  timed := h.timed
  placed := by
    have hplaced := h.placed
    show Placed _ s.place
    cases hplace : s.place with
    | top => trivial
    | waiting wake =>
      rw [hplace] at hplaced
      exact hplaced
    | flushing forced =>
      rw [hplace] at hplaced
      exact fun hf => ⟨rfl, (hplaced hf).2⟩
    | handling forced paths =>
      rw [hplace] at hplaced
      exact ⟨fun hf => ⟨rfl, (hplaced.1 hf).2⟩, hplaced.2⟩
    | returned =>
      rw [hplace] at hplaced
      exact ⟨rfl, hplaced.2⟩

/-- What is due stays so. -/
theorem Inv.elapsed (h : s.Inv) (ms : Nat) : {s with now := s.now + ms}.Inv where
  kept := h.kept
  received := h.received
  timely := h.timely
  timed := h.timed
  placed := by
    have hplaced := h.placed
    show Placed _ s.place
    cases hplace : s.place with
    | top => trivial
    | waiting wake =>
      rw [hplace] at hplaced
      intro path e he
      have hwake := hplaced path e he
      show wake ≤ max e.2 (s.now + ms)
      omega
    | flushing forced =>
      rw [hplace] at hplaced
      exact hplaced
    | handling forced paths =>
      rw [hplace] at hplaced
      exact ⟨hplaced.1, fun hf path hpath e he => Nat.le_add_right_of_le (hplaced.2 hf path hpath e he)⟩
    | returned =>
      rw [hplace] at hplaced
      exact hplaced

/-- **An event is received**: the next one that was sent. -/
theorem Inv.receive (h : s.Inv) {event : FsEvent} {rest : List FsEvent}
    (hchannel : s.channel = event :: rest) : (s.receive event).Inv where
  kept := h.kept.receive _
  received := by
    obtain ⟨more, hmore⟩ := h.received
    have hdrop : s.channel = more := by
      rw [channel, ← hmore, List.drop_left' (List.length_map _)]
    refine ⟨rest, ?_⟩
    show (s.book.received ++ [(event, s.now + fsDebounce)]).map Prod.fst ++ rest = s.sent
    rw [List.map_append, List.append_assoc, ← hmore, ← hdrop, hchannel]
    rfl
  timely := h.timely
  timed := h.timed
  placed := trivial

/-- **A path is handed over**: what waits under it, if anything, was due. -/
theorem Inv.handOver (h : s.Inv) (hplace : s.place = .handling forced paths)
    (hpath : paths[pick]? = some path) :
    {s.handOver path with place := .handling forced (paths.eraseIdx pick)}.Inv := by
  obtain ⟨hbook, hnow, hsent, hclosed⟩ := handOver_eq (s := s) path
  have hchannel := channel_handOver (s := s) path
  have hcollected : s.Collected forced paths := by
    have hplaced := h.placed
    rwa [hplace] at hplaced
  have hlookup (k : PathBuf) : (s.handOver path).book.pending.lookup k =
      if k = path then none else s.book.pending.lookup k := by rw [hbook, lookup_handle]
  have hdue {e : Deferred} (he : s.book.pending.lookup path = some e) : e.2 ≤ s.now ∨ s.closed = true := by
    cases forced with
    | true => exact .inr (hcollected.1 rfl).1
    | false => exact .inl (hcollected.2 rfl path (List.mem_of_getElem? hpath) e he)
  refine ⟨?_, ?_, ?_, ?_, fun hf => ⟨?_, ?_, ?_⟩, fun hf k hk x hx => ?_⟩
  · exact hbook ▸ h.kept.handle path
  · show (s.handOver path).book.received.map Prod.fst <+: (s.handOver path).sent
    rw [hbook, received_handle, hsent]
    exact h.received
  · intro x hx
    show x.1.2 ≤ x.2 ∨ (s.handOver path).closed = true
    rw [hclosed]
    unfold FsLoop.handOver at hx
    split at hx
    next y hy =>
      rw [Book.handle, hy, List.zip_append h.timed.symm, List.mem_append] at hx
      rcases hx with hx | hx
      · exact h.timely x hx
      · rw [List.mem_singleton.mp hx]
        exact hdue hy
    next => exact h.timely x hx
  · show (s.handOver path).times.length = (s.handOver path).book.handled.length
    unfold FsLoop.handOver
    split
    next y hy =>
      rw [Book.handle, hy, List.length_append, List.length_append, h.timed]
      rfl
    next => exact h.timed
  · exact hclosed.trans (hcollected.1 hf).1
  · exact hchannel.trans (hcollected.1 hf).2.1
  · intro k hk
    obtain ⟨x, hx⟩ := Option.isSome_iff_exists.mp (AList.lookup_isSome.mpr hk)
    have hne : k ≠ path := by
      rintro rfl
      rw [hlookup, if_pos rfl] at hx
      cases hx
    rw [hlookup, if_neg hne] at hx
    have hin : k ∈ s.book.pending.keys := AList.lookup_isSome.mp (by rw [hx]; rfl)
    exact mem_eraseIdx_of_ne ((hcollected.1 hf).2.2 hin) hpath hne
  · show x.2 ≤ (s.handOver path).now
    rw [hnow]
    have hx' : (s.handOver path).book.pending.lookup k = some x := hx
    rw [hlookup] at hx'
    split at hx'
    next => cases hx'
    next => exact hcollected.2 hf k (List.mem_of_mem_eraseIdx hk) x hx'

theorem Inv.proceed (h : s.Inv) (hs : s.proceed pick = some s') : s'.Inv := by
  unfold FsLoop.proceed at hs
  split at hs
  next =>
    obtain rfl := Option.some.inj hs
    exact ⟨h.kept, h.received, h.timely, h.timed, fun path e he => wake_le he⟩
  next wake hplace =>
    split at hs
    next event rest hchannel =>
      obtain rfl := Option.some.inj hs
      exact h.receive hchannel
    next hchannel =>
      split at hs
      next hclosed =>
        obtain rfl := Option.some.inj hs
        exact ⟨h.kept, h.received, h.timely, h.timed, fun _ => ⟨hclosed, hchannel⟩⟩
      next =>
        split at hs
        next =>
          obtain rfl := Option.some.inj hs
          exact ⟨h.kept, h.received, h.timely, h.timed, fun hf => by cases hf⟩
        next => cases hs
  next forced hplace =>
    obtain rfl := Option.some.inj hs
    have hplaced := h.placed
    rw [hplace] at hplaced
    refine ⟨h.kept, h.received, h.timely, h.timed, fun hf => ⟨(hplaced hf).1, (hplaced hf).2, ?_⟩,
      fun hf path hpath e he => ?_⟩
    · intro k hk
      obtain ⟨e, he⟩ := mem_keys hk
      exact (mem_expired he).mpr (.inl hf)
    · rcases (mem_expired he).mp hpath with hforced | hdue
      · rw [hf] at hforced
        cases hforced
      · exact hdue
  next forced hplace =>
    obtain rfl := Option.some.inj hs
    have hplaced := h.placed
    rw [hplace] at hplaced
    cases forced with
    | false => exact ⟨h.kept, h.received, h.timely, h.timed, trivial⟩
    | true =>
      obtain ⟨hclosed, hchannel, hkeys⟩ := hplaced.1 rfl
      refine ⟨h.kept, h.received, h.timely, h.timed, hclosed, hchannel, AList.ext ?_⟩
      exact List.map_eq_nil_iff.mp (List.subset_nil.mp hkeys)
  next forced paths _ hplace =>
    obtain ⟨path, hpath, rfl⟩ := Option.map_eq_some_iff.mp hs
    exact h.handOver hplace hpath
  next => cases hs

theorem Inv.step {a : Act} (h : s.Inv) (hs : s.step a = some s') : s'.Inv := by
  cases a with
  | sent event =>
    simp only [FsLoop.step] at hs
    split at hs
    next => cases hs
    next hopen =>
      obtain rfl := Option.some.inj hs
      exact h.sent event (Bool.eq_false_of_not_eq_true hopen)
  | hangUp =>
    obtain rfl := Option.some.inj hs
    exact h.hungUp
  | elapsed ms =>
    obtain rfl := Option.some.inj hs
    exact h.elapsed ms
  | proceed pick => exact h.proceed hs

theorem Inv.of_reach (h : Machine.Reach FsLoop.step (fun _ _ => True) FsLoop.start s) : s.Inv :=
  h.invariant .start fun _ _ _ hinv _ hs => hinv.step hs

/-! ### A whole flush -/

/-- A file is written twice and renamed, and the watcher goes before anything is due. -/
private def leaving : List Act :=
  [.proceed 0, .sent (.touched [['a']]), .proceed 0, .elapsed 20, .sent (.touched [['a']]),
    .proceed 0, .proceed 0, .sent (.renamed [['a']] [['b']]), .proceed 0, .proceed 0, .hangUp,
    .proceed 0, .proceed 0, .proceed 0, .proceed 0, .proceed 0, .proceed 0]

end FsLoop

end AgentSync
