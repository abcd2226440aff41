import Mathlib.Data.List.Flatten
import AgentSync.Tickets
import AgentSync.Fs.Binding

/-! The set of what this peer wrote and the watcher has still to report.

`DirtySet` keeps for each path a vector of hashes and times. It forgets what is older than its
lifetime at every call, and a vector that has become empty with it. Looked at path by path the map
is the good tickets of a book that forgets nothing (`Agrees`), so what the calls answer is what the
book accepts. -/
namespace AgentSync.Suppression

open Tickets

/-- `DirtySet`; an `Instant` is in ticks of a clock. -/
abbrev Entries := AList fun _ : Str => List (Str × Nat)

/-- `TTL`, for a clock with so many ticks to a second. -/
def ttl (ticks : Nat) : Nat := 5 * ticks

section Code
variable (ticks : Nat)

/-- `HashMap::retain`, with what the closure makes of the value. -/
def retainMut {β : Type} (f : β → Option β) (m : AList fun _ : Str => β) :
    AList fun _ : Str => β where
  entries := m.entries.filterMap fun e => (f e.2).map fun v => ⟨e.1, v⟩
  nodupKeys := by
    rw [List.nodupKeys_iff_pairwise]
    refine (List.nodupKeys_iff_pairwise.mp m.nodupKeys).filterMap _ fun e e' hne v hv v' hv' => ?_
    obtain ⟨w, -, rfl⟩ := Option.map_eq_some_iff.mp hv
    obtain ⟨w', -, rfl⟩ := Option.map_eq_some_iff.mp hv'
    exact hne

/-- `now.duration_since(*t) < TTL`; the duration since a later instant is zero. -/
def fresh (now : Nat) (e : Str × Nat) : Bool := now - e.2 < ttl ticks

def gc (now : Nat) (s : Entries) : Entries :=
  retainMut (fun v =>
    let v := v.filter (fresh ticks now)
    if v.isEmpty then none else some v) s

/-- `mark`, where the clock is read twice: to collect, and for the mark. -/
def mark (collected now : Nat) (path hash : Str) (s : Entries) : Entries :=
  let s := gc ticks collected s
  s.insert path ((s.lookup path).getD [] ++ [(hash, now)])

def checkAndConsume (now : Nat) (path hash : Str) (s : Entries) : Bool × Entries :=
  let s := gc ticks now s
  match s.lookup path with
  | none => (false, s)
  | some entries =>
    match entries.findIdx? (·.1 = hash) with
    | none => (false, s)
    | some idx =>
      let entries := entries.eraseIdx idx
      (true, if entries.isEmpty then s.erase path else s.insert path entries)

end Code

/-- A call, with what the clock says when it reads it. -/
inductive Call where
  | mark (path hash : Str) (collected now : Nat)
  | check (path hash : Str) (now : Nat)
  deriving DecidableEq, Repr

namespace Call

def readings : Call → List Nat
  | .mark _ _ collected now => [collected, now]
  | .check _ _ now => [now]

/-- The call as an event of the book. -/
def event : Call → Event (Str × Str)
  | .mark path hash _ now => .issue (path, hash) now
  | .check path hash now => .redeem (path, hash) now

end Call

section Runs
variable (ticks : Nat)

def step (s : Entries) : Call → Entries
  | .mark path hash collected now => mark ticks collected now path hash s
  | .check path hash now => (checkAndConsume ticks now path hash s).2

def answer (s : Entries) : Call → Bool
  | .mark _ _ _ _ => false
  | .check path hash now => (checkAndConsume ticks now path hash s).1

/-- The set after the calls. -/
def after (calls : List Call) : Entries := calls.foldl (step ticks) ∅

/-- Every mark there was, and which of them are consumed. -/
def book (calls : List Call) : Book (Str × Str) := recordEvents (ttl ticks) [] (calls.map Call.event)

/-- How often `check_and_consume` succeeds for a path and a hash. -/
def successes (path hash : Str) : Entries → List Call → Nat
  | _, [] => 0
  | s, c :: calls => (if c.event.key = (path, hash) ∧ answer ticks s c then 1 else 0) +
      successes path hash (step ticks s c) calls

end Runs

/-- The clock does not go back from one reading to the next. -/
def Clocked (calls : List Call) : Prop := (calls.flatMap Call.readings).Pairwise (· ≤ ·)

instance (calls : List Call) : Decidable (Clocked calls) :=
  inferInstanceAs (Decidable (List.Pairwise _ _))

/-! ### The map -/

theorem lookup_retainMut {β : Type} (f : β → Option β) (m : AList fun _ : Str => β) (path : Str) :
    (retainMut f m).lookup path = (m.lookup path).bind f := by
  refine Option.ext fun w => ?_
  rw [Option.bind_eq_some_iff, ← Option.mem_def, AList.mem_lookup_iff, retainMut]
  simp only [List.mem_filterMap, Option.map_eq_some_iff, Sigma.mk.injEq, heq_eq_eq]
  constructor
  · intro h
    obtain ⟨e, he, v, hv, rfl, rfl⟩ := h
    exact ⟨e.2, AList.mem_lookup_iff.mpr he, hv⟩
  · intro h
    obtain ⟨v, hv, hw⟩ := h
    exact ⟨⟨path, v⟩, AList.mem_lookup_iff.mp hv, w, hw, rfl, rfl⟩

/-- The vector of a path, which is empty where there is none. -/
def marksOf (s : Entries) (path : Str) : List (Str × Nat) := (s.lookup path).getD []

section
variable {ticks collected now : Nat} {path hash p : Str} {s : Entries}

theorem marksOf_gc : marksOf (gc ticks now s) p = (marksOf s p).filter (fresh ticks now) := by
  rw [marksOf, gc, lookup_retainMut, marksOf]
  cases hlookup : s.lookup p with
  | none => rfl
  | some v =>
    simp only [Option.bind_some, Option.getD_some]
    split
    next hempty => exact (List.isEmpty_iff.mp hempty).symm
    next => rfl

theorem marksOf_mark : marksOf (mark ticks collected now path hash s) p =
    (marksOf s p).filter (fresh ticks collected) ++ if p = path then [(hash, now)] else [] := by
  rw [← marksOf_gc]
  split
  next hp =>
    obtain rfl := hp
    rw [marksOf, mark, AList.lookup_insert]
    rfl
  next hp =>
    rw [marksOf, mark, AList.lookup_insert_ne hp, List.append_nil]
    rfl

/-- What is consumed is the first that matches, and a vector that has become empty goes away. -/
theorem checkAndConsume_eq : checkAndConsume ticks now path hash s =
    if (marksOf (gc ticks now s) path).any (·.1 = hash) then
      (true, if ((marksOf (gc ticks now s) path).eraseP (·.1 = hash)).isEmpty
        then (gc ticks now s).erase path
        else (gc ticks now s).insert path ((marksOf (gc ticks now s) path).eraseP (·.1 = hash)))
    else (false, gc ticks now s) := by
  simp only [checkAndConsume]
  split
  next hlookup =>
    have hmarks : marksOf (gc ticks now s) path = [] := by rw [marksOf, hlookup, Option.getD_none]
    rw [hmarks]
    rfl
  next entries hlookup =>
    have hmarks : marksOf (gc ticks now s) path = entries := by
      rw [marksOf, hlookup, Option.getD_some]
    rw [hmarks, List.eraseP_eq_eraseIdx, ← List.findIdx?_isSome]
    cases entries.findIdx? (·.1 = hash) <;> rfl

theorem checkAndConsume_fst : (checkAndConsume ticks now path hash s).1 =
    ((marksOf s path).filter (fresh ticks now)).any (·.1 = hash) := by
  rw [← marksOf_gc, checkAndConsume_eq]
  split
  next h => exact h.symm
  next h => exact (Bool.not_eq_true _ ▸ h).symm

theorem marksOf_checkAndConsume : marksOf (checkAndConsume ticks now path hash s).2 p =
    if p = path then ((marksOf s p).filter (fresh ticks now)).eraseP (·.1 = hash)
    else (marksOf s p).filter (fresh ticks now) := by
  rw [← marksOf_gc, checkAndConsume_eq]
  by_cases hp : p = path
  · obtain rfl := hp
    rw [if_pos rfl]
    split
    next =>
      split
      next hempty =>
        rw [List.isEmpty_iff.mp hempty, marksOf, AList.lookup_erase]
        rfl
      next =>
        conv_lhs => rw [marksOf]
        rw [AList.lookup_insert]
        rfl
    next hany =>
      refine (List.eraseP_of_forall_not fun e he => ?_).symm
      exact fun hhash => hany (List.any_eq_true.mpr ⟨e, he, hhash⟩)
  · rw [if_neg hp]
    split
    next =>
      split
      next => rw [marksOf, AList.lookup_erase_ne hp, marksOf]
      next => rw [marksOf, AList.lookup_insert_ne hp, marksOf]
    next => rfl

/-! ### The map and the book -/

/-- The mark of the path can still be consumed. -/
def goodAt (ticks now : Nat) (p : Str) (m : Ticket (Str × Str)) : Bool :=
  m.key.1 = p ∧ Good (ttl ticks) m.key now m

/-- At a time the map has the good tickets of the book. -/
def Agrees (ticks now : Nat) (s : Entries) (b : Book (Str × Str)) : Prop :=
  ∀ p, (marksOf s p).filter (fresh ticks now) =
    (b.filter (goodAt ticks now p)).map fun m => (m.key.2, m.time)

theorem fresh_eq_true {e : Str × Nat} : fresh ticks now e = true ↔ now - e.2 < ttl ticks :=
  decide_eq_true_iff

theorem goodAt_eq_true {m : Ticket (Str × Str)} :
    goodAt ticks now p m = true ↔ m.key.1 = p ∧ m.spent = false ∧ now - m.time < ttl ticks := by
  simp [goodAt, Good]

variable {b : Book (Str × Str)} {T : Nat}

theorem Agrees.mono (h : Agrees ticks T s b) (hle : T ≤ now) : Agrees ticks now s b := by
  intro p
  have hfresh : (marksOf s p).filter (fresh ticks now) =
      ((marksOf s p).filter (fresh ticks T)).filter (fresh ticks now) := by
    rw [List.filter_filter]
    refine List.filter_congr fun e _ => Bool.eq_iff_iff.mpr ?_
    rw [Bool.and_eq_true, fresh_eq_true, fresh_eq_true]
    omega
  rw [hfresh, h p, List.filter_map, List.filter_filter]
  refine congrArg _ (List.filter_congr fun m _ => Bool.eq_iff_iff.mpr ?_)
  rw [Bool.and_eq_true, goodAt_eq_true, goodAt_eq_true, Function.comp_apply, fresh_eq_true]
  have htime : now - m.time < ttl ticks → T - m.time < ttl ticks := by omega
  grind

theorem agrees_mark (h : Agrees ticks collected s b) :
    Agrees ticks collected (mark ticks collected now path hash s)
      (b ++ [⟨(path, hash), now, false⟩]) := by
  intro p
  rw [marksOf_mark, List.filter_append, List.filter_filter, List.filter_append, List.map_append]
  simp only [Bool.and_self, h p]
  refine congrArg _ ?_
  -- The mark is younger than `TTL` or not on both sides alike.
  by_cases hp : p = path
  · obtain rfl := hp
    simp only [if_pos, List.filter_singleton, goodAt, Good, fresh, true_and]
    cases decide (collected - now < ttl ticks) <;> rfl
  · simp [hp, Ne.symm hp, goodAt]

theorem agrees_checkAndConsume (h : Agrees ticks now s b) :
    Agrees ticks now (checkAndConsume ticks now path hash s).2
      (spend (fun m => Good (ttl ticks) (path, hash) now m) b) := by
  intro p
  rw [marksOf_checkAndConsume]
  by_cases hp : p = path
  · obtain rfl := hp
    have hsplit (m : Ticket (Str × Str)) : decide (Good (ttl ticks) (p, hash) now m) =
        (goodAt ticks now p m && decide (m.key.2 = hash)) := by
      rw [Bool.eq_iff_iff, Bool.and_eq_true, goodAt_eq_true, decide_eq_true_iff, decide_eq_true_iff,
        Good, Prod.ext_iff]
      grind
    have hused (m : Ticket (Str × Str)) : goodAt ticks now p m.used = false := by simp [goodAt, Good]
    have hfresh : ∀ e ∈ ((marksOf s p).filter (fresh ticks now)).eraseP (·.1 = hash),
        fresh ticks now e = true :=
      fun e he => (List.mem_filter.mp (List.mem_of_mem_eraseP he)).2
    rw [if_pos rfl, List.filter_eq_self.mpr hfresh, h p, filter_spend hsplit hused, List.eraseP_map]
    rfl
  · have hdisjoint (m : Ticket (Str × Str)) (hm : decide (Good (ttl ticks) (path, hash) now m)) :
        goodAt ticks now p m = false ∧ goodAt ticks now p m.used = false := by
      have hkey : m.key = (path, hash) := (of_decide_eq_true hm).1
      simp [goodAt, hkey, Ne.symm hp]
    rw [if_neg hp, filter_spend_of_disjoint hdisjoint, List.filter_filter]
    simp only [Bool.and_self, h p]

/-- **What the set answers is what the book accepts.** -/
theorem checkAndConsume_eq_accepts (h : Agrees ticks now s b) :
    (checkAndConsume ticks now path hash s).1 =
      accepts (ttl ticks) b (.redeem (path, hash) now) := by
  rw [checkAndConsume_fst, h path, Bool.eq_iff_iff, accepts_redeem]
  simp only [List.any_eq_true, List.mem_map, List.mem_filter, goodAt_eq_true, decide_eq_true_eq]
  constructor
  · intro hany
    obtain ⟨e, ⟨m, ⟨hm, hpath, hspent, htime⟩, rfl⟩, hhash⟩ := hany
    exact ⟨m, hm, Prod.ext hpath hhash, hspent, htime⟩
  · intro hgood
    obtain ⟨m, hm, hkey, hspent, htime⟩ := hgood
    exact ⟨_, ⟨m, ⟨hm, congrArg Prod.fst hkey, hspent, htime⟩, rfl⟩, congrArg Prod.snd hkey⟩

end

/-! ### Runs -/

section
variable {ticks now T : Nat} {s : Entries} {b : Book (Str × Str)} {c : Call} {calls : List Call}

/-- The first reading of the clock, by which a call collects. -/
def Call.collected : Call → Nat
  | .mark _ _ collected _ => collected
  | .check _ _ now => now

theorem Call.exists_readings (c : Call) : ∃ later, c.readings = c.collected :: later := by
  cases c with
  | mark path hash collected now => exact ⟨[now], rfl⟩
  | check path hash now => exact ⟨[], rfl⟩

theorem agrees_step (h : Agrees ticks c.collected s b) :
    Agrees ticks c.collected (step ticks s c) (record (ttl ticks) b c.event) := by
  cases c with
  | mark path hash collected now => exact agrees_mark h
  | check path hash now => exact agrees_checkAndConsume h

theorem answer_eq_accepts (h : Agrees ticks c.collected s b) :
    answer ticks s c = accepts (ttl ticks) b c.event := by
  cases c with
  | mark path hash collected now => rfl
  | check path hash now => exact checkAndConsume_eq_accepts h

theorem agrees_empty (ticks now : Nat) : Agrees ticks now ∅ [] := fun _ => rfl

/-- **As long as the clock does not go back the map has the good tickets.** -/
theorem agrees_foldl (h : Agrees ticks T s b)
    (hclock : (T :: calls.flatMap Call.readings).Pairwise (· ≤ ·)) (hT : T ≤ now)
    (hnow : ∀ r ∈ calls.flatMap Call.readings, r ≤ now) :
    Agrees ticks now (calls.foldl (step ticks) s)
      (recordEvents (ttl ticks) b (calls.map Call.event)) := by
  induction calls generalizing T s b with
  | nil => exact h.mono hT
  | cons c calls ih =>
    obtain ⟨later, hreadings⟩ := c.exists_readings
    rw [List.flatMap_cons, hreadings] at hclock hnow
    obtain ⟨hfirst, hrest⟩ := List.pairwise_cons.mp hclock
    refine ih (agrees_step (h.mono (hfirst _ (.head _)))) ?_ (hnow _ (.head _)) fun r hr => ?_
    · exact hrest.sublist ((List.sublist_append_right later _).cons_cons _)
    · exact hnow r (.tail _ (List.mem_append_right later hr))

/-- The successes are what the book accepts. -/
theorem successes_eq_accepted {path hash : Str} (h : Agrees ticks T s b)
    (hclock : (T :: calls.flatMap Call.readings).Pairwise (· ≤ ·)) :
    successes ticks path hash s calls =
      accepted (ttl ticks) (path, hash) b (calls.map Call.event) := by
  induction calls generalizing T s b with
  | nil => rfl
  | cons c calls ih =>
    obtain ⟨later, hreadings⟩ := c.exists_readings
    rw [List.flatMap_cons, hreadings] at hclock
    obtain ⟨hfirst, hrest⟩ := List.pairwise_cons.mp hclock
    have hcollected := h.mono (hfirst _ (.head _))
    have hlater := hrest.sublist ((List.sublist_append_right later _).cons_cons _)
    rw [successes, List.map_cons, accepted, answer_eq_accepts hcollected,
      ih (agrees_step hcollected) hlater]

/-! ### Calls one after the other -/

/-- A call finds the map with the good tickets of the book. -/
theorem agrees_after (hclock : Clocked (calls ++ [c])) :
    Agrees ticks c.collected (after ticks calls) (book ticks calls) := by
  obtain ⟨later, hreadings⟩ := c.exists_readings
  rw [Clocked, List.flatMap_append, List.flatMap_singleton, hreadings] at hclock
  obtain ⟨hcalls, -, hbefore⟩ := List.pairwise_append.mp hclock
  refine agrees_foldl (agrees_empty ticks 0) ?_ (Nat.zero_le _) fun r hr => hbefore r hr _ (.head _)
  exact List.pairwise_cons.mpr ⟨fun _ _ => Nat.zero_le _, hcalls⟩

theorem sublist_readings (calls : List Call) :
    ((calls.map Call.event).map Event.time).Sublist (calls.flatMap Call.readings) := by
  induction calls with
  | nil => exact .slnil
  | cons c calls ih =>
    cases c with
    | mark path hash collected now => exact (ih.cons_cons now).cons collected
    | check path hash now => exact ih.cons_cons now

/-- Marks stand in the book from the oldest on. -/
theorem pairwise_book (hclock : Clocked calls) :
    ((book ticks calls).map Ticket.time).Pairwise (· ≤ ·) :=
  pairwise_recordEvents (hclock.sublist (sublist_readings calls))

theorem book_concat :
    book ticks (calls ++ [c]) = record (ttl ticks) (book ticks calls) c.event := by
  rw [book, List.map_append, recordEvents, List.foldl_append]
  rfl

/-- The calls about one path and hash. -/
def about (path hash : Str) (calls : List Call) : List Call :=
  calls.filter fun c => c.event.key = (path, hash)

theorem filter_book {path hash : Str} :
    (book ticks calls).filter (·.key = (path, hash)) = book ticks (about path hash calls) := by
  rw [book, filter_recordEvents, book, about, List.filter_map]
  rfl

/-- What a call of `check_and_consume` owes, after the calls before it. -/
structure Accounted (ticks : Nat) (before : List Call) (path hash : Str) (now : Nat) : Prop where
  answer : (checkAndConsume ticks now path hash (after ticks before)).1 = true ↔
    ∃ m ∈ book ticks before, Good (ttl ticks) (path, hash) now m
  /-- The oldest mark that is good is consumed, and nothing else changes. -/
  consumed : (checkAndConsume ticks now path hash (after ticks before)).1 = true →
    ∃ older m newer, book ticks before = older ++ m :: newer ∧
      Good (ttl ticks) (path, hash) now m ∧
      (∀ m' ∈ book ticks before, Good (ttl ticks) (path, hash) now m' → m.time ≤ m'.time) ∧
      book ticks (before ++ [.check path hash now]) = older ++ m.used :: newer
  kept : (checkAndConsume ticks now path hash (after ticks before)).1 = false →
    book ticks (before ++ [.check path hash now]) = book ticks before
  /-- Calls about other paths and hashes make no difference. -/
  alone : (checkAndConsume ticks now path hash (after ticks before)).1 =
    (checkAndConsume ticks now path hash (after ticks (about path hash before))).1

variable {before : List Call} {path hash : Str}

theorem check_eq_accepts (hclock : Clocked (before ++ [.check path hash now])) :
    (checkAndConsume ticks now path hash (after ticks before)).1 =
      accepts (ttl ticks) (book ticks before) (.redeem (path, hash) now) :=
  checkAndConsume_eq_accepts (agrees_after hclock)

theorem accounted (hclock : Clocked (before ++ [.check path hash now])) :
    Accounted ticks before path hash now := by
  have hanswer := @check_eq_accepts ticks _ _ _ _ hclock
  have hbook : book ticks (before ++ [.check path hash now]) =
      record (ttl ticks) (book ticks before) (.redeem (path, hash) now) := book_concat
  refine ⟨by rw [hanswer, accepts_redeem], fun h => ?_, fun h => ?_, ?_⟩
  · rw [hanswer] at h
    obtain ⟨older, m, newer, hsplit, hgood, holder, hrecord⟩ := record_of_accepts h
    refine ⟨older, m, newer, hsplit, hgood, fun m' hm' hgood' => ?_, hbook.trans hrecord⟩
    have hsorted := @pairwise_book ticks _
      (hclock.sublist ((List.sublist_append_left before _).flatMap _))
    rw [hsplit, List.map_append, List.map_cons] at hsorted
    rw [hsplit] at hm'
    rcases List.mem_append.mp hm' with hin | hin
    · exact absurd hgood' (holder m' hin)
    · rcases List.mem_cons.mp hin with rfl | hin
      · exact Nat.le_refl _
      · exact (List.pairwise_cons.mp (List.pairwise_append.mp hsorted).2.1).1 _
          (List.mem_map_of_mem hin)
  · rw [hanswer] at h
    exact hbook.trans (record_of_not_accepts h)
  · have halone : Clocked (about path hash before ++ [.check path hash now]) :=
      hclock.sublist ((List.filter_sublist.append_right _).flatMap _)
    rw [hanswer, check_eq_accepts halone, ← filter_book]
    exact (accepts_filter (e := .redeem (path, hash) now) rfl).symm

/-- **What becomes of a mark.** It is consumed at most once, by an event of its path and hash that
comes within five seconds and finds no older one. -/
theorem suppression_accounting (ticks : Nat) (hclock : Clocked calls) :
    (∀ path hash, successes ticks path hash ∅ calls ≤ issued (path, hash) (calls.map Call.event)) ∧
      ∀ before path hash now, before ++ [.check path hash now] <+: calls →
        Accounted ticks before path hash now := by
  constructor
  · intro path hash
    have hzero : (0 :: calls.flatMap Call.readings).Pairwise (· ≤ ·) :=
      List.pairwise_cons.mpr ⟨fun _ _ => Nat.zero_le _, hclock⟩
    rw [successes_eq_accepted (agrees_empty ticks 0) hzero]
    exact accepted_le_issued _ _
  · intro before path hash now hpre
    exact accounted (hclock.sublist (hpre.sublist.flatMap _))

theorem suppression_accounting_twice :
    (∀ path hash, successes 1000 path hash ∅
        [.mark (txt "a.md") (txt "h1") 0 1, .check (txt "a.md") (txt "h1") 4000,
          .check (txt "a.md") (txt "h1") 4001] ≤
      issued (path, hash) [.issue (txt "a.md", txt "h1") 1, .redeem (txt "a.md", txt "h1") 4000,
        .redeem (txt "a.md", txt "h1") 4001]) ∧
      ∀ before path hash now, before ++ [.check path hash now] <+:
          [.mark (txt "a.md") (txt "h1") 0 1, .check (txt "a.md") (txt "h1") 4000,
            .check (txt "a.md") (txt "h1") 4001] →
        Accounted 1000 before path hash now :=
  suppression_accounting 1000 (by decide)

end

/-! ### The set of a binding

A binding keeps its marks in one list, by a clock of milliseconds that it reads once for a call. -/

/-- The marks of the list, path by path. -/
def Lists (s : Entries) (d : DirtySet) : Prop :=
  ∀ p, marksOf s p = (d.filter (·.path = p)).map fun m => (m.hash, m.time)

section
variable {now : Nat} {path hash : Str} {s : Entries} {d : DirtySet}

theorem lists_gc (h : Lists s d) : Lists (gc 1000 now s) (d.gc now) := by
  intro p
  rw [marksOf_gc, h p, List.filter_map, DirtySet.gc, List.filter_filter, List.filter_filter]
  refine congrArg _ (List.filter_congr fun m _ => ?_)
  rw [Bool.and_comm]
  rfl

theorem lists_mark (h : Lists s d) :
    Lists (mark 1000 now now path hash s) (d.mark now path hash) := by
  intro p
  rw [marksOf_mark, ← marksOf_gc, lists_gc h p, DirtySet.mark, List.filter_append, List.map_append]
  refine congrArg _ ?_
  by_cases hp : p = path
  · obtain rfl := hp
    simp
  · simp [hp, Ne.symm hp]

theorem matching_eq (m : Mark) :
    DirtySet.matching path hash m = (decide (m.path = path) && decide (m.hash = hash)) := rfl

/-- The set of a binding without its branch: where nothing matches nothing is removed. -/
theorem dirtySet_checkAndConsume_eq : d.checkAndConsume now path hash =
    ((d.gc now).any (DirtySet.matching path hash),
      (d.gc now).eraseP (DirtySet.matching path hash)) := by
  rw [DirtySet.checkAndConsume]
  split
  next h => rw [h]
  next h =>
    rw [Bool.not_eq_true] at h
    rw [h, List.eraseP_of_forall_not (by simpa using h)]

theorem checkAndConsume_eq_dirtySet (h : Lists s d) :
    (checkAndConsume 1000 now path hash s).1 = (d.checkAndConsume now path hash).1 ∧
      Lists (checkAndConsume 1000 now path hash s).2 (d.checkAndConsume now path hash).2 := by
  have hgc := @lists_gc now _ _ h
  rw [dirtySet_checkAndConsume_eq]
  constructor
  · rw [checkAndConsume_fst, ← marksOf_gc, hgc path, List.any_map, List.any_filter]
    rfl
  · intro p
    rw [marksOf_checkAndConsume, ← marksOf_gc, hgc p]
    by_cases hp : p = path
    · obtain rfl := hp
      have hmatching : DirtySet.matching p hash =
          fun m : Mark => decide (m.hash = hash) && decide (m.path = p) := by
        funext m
        exact Bool.and_comm _ _
      rw [if_pos rfl, List.eraseP_map, List.eraseP_filter, hmatching]
      rfl
    · refine (if_neg hp).trans (congrArg _ ?_)
      rcases List.exists_or_eq_self_of_eraseP (DirtySet.matching path hash) (d.gc now) with
        hsame | ⟨m, l₁, l₂, -, hm, hsplit, herase⟩
      · rw [hsame]
      · have hpath : m.path ≠ p := by
          rw [matching_eq, Bool.and_eq_true, decide_eq_true_iff] at hm
          exact fun hm' => hp (hm'.symm.trans hm.1)
        rw [herase, hsplit, List.filter_append, List.filter_append,
          List.filter_cons_of_neg (by simpa using hpath)]

end

end AgentSync.Suppression
