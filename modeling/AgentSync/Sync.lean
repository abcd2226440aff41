import AgentSync.Machine
import Mathlib.Data.Finset.Lattice.Basic
import Mathlib.Data.Finset.Insert

/-! Two parties that bring their documents together by messages.

A `Protocol` tells what a party sends and what it makes of a message; a `Dialogue` is two
parties and what each has sent that the other has not received. `Lawful` is what a sync
protocol promises over the runs of a dialogue: nothing to send leaves the state alone, a
message is followed by silence until something comes of it, and when nothing is under way and
neither party has anything to send, they agree. `sets` is such a protocol (`sets_lawful`):
each party sends its whole set. -/
namespace Sync

/-- Documents `D` with heads `H` and edits `C`; states `S` and messages `M` of the protocol. -/
structure Protocol (D S M C H : Type) where
  generate : D → S → Option M × S
  receive : D → S → M → D × S
  edit : D → C → D
  heads : D → H

structure Side (D S : Type) where
  doc : D
  state : S
  deriving DecidableEq, Repr

/-- `wire i` is what party `i` has sent and the other has not received. -/
structure Dialogue (D S M : Type) where
  side : Bool → Side D S
  wire : Bool → List M

namespace Dialogue

variable {D S M C H : Type} (P : Protocol D S M C H) (s : Dialogue D S M) (i : Bool)

/-- What party `i` has to send. -/
def toSend : Option M := (P.generate (s.side i).doc (s.side i).state).1

def generate : Dialogue D S M where
  side := Function.update s.side i
    ⟨(s.side i).doc, (P.generate (s.side i).doc (s.side i).state).2⟩
  wire := Function.update s.wire i (s.wire i ++ (s.toSend P i).toList)

/-- What `generate` does but for the send. -/
def draw : Dialogue D S M :=
  {s with
    side := Function.update s.side i
      ⟨(s.side i).doc, (P.generate (s.side i).doc (s.side i).state).2⟩}

def send (m : M) : Dialogue D S M :=
  {s with wire := Function.update s.wire i (s.wire i ++ [m])}

def receive : Option (Dialogue D S M) :=
  match s.wire (!i) with
  | m :: rest =>
    let r := P.receive (s.side i).doc (s.side i).state m
    some ⟨Function.update s.side i ⟨r.1, r.2⟩, Function.update s.wire (!i) rest⟩
  | [] => none

def edit (c : C) : Dialogue D S M :=
  {s with side := Function.update s.side i ⟨P.edit (s.side i).doc c, (s.side i).state⟩}

inductive Act (C : Type) where
  | generate (i : Bool)
  | receive (i : Bool)
  | edit (i : Bool) (c : C)
  deriving DecidableEq, Repr

def step (s : Dialogue D S M) : Act C → Option (Dialogue D S M)
  | .generate i => some (s.generate P i)
  | .receive i => s.receive P i
  | .edit i c => some (s.edit P i c)

/-- The dialogues that `start` leads to. -/
def Reach (start s : Dialogue D S M) : Prop := Machine.Reach (step P) (fun _ _ => True) start s

structure Lawful (start : Dialogue D S M) : Prop where
  silent : ∀ s i, Reach P start s → s.toSend P i = none →
    (P.generate (s.side i).doc (s.side i).state).2 = (s.side i).state
  waits : ∀ s i, Reach P start s → s.toSend P i ≠ none → (s.generate P i).toSend P i = none
  agree : ∀ s, Reach P start s → (∀ i, s.wire i = []) → (∀ i, s.toSend P i = none) →
    P.heads (s.side true).doc = P.heads (s.side false).doc

variable {P s i} {start s' : Dialogue D S M}

theorem Reach.next (h : Reach P start s) {a : Act C} (hs : step P s a = some s') :
    Reach P start s' :=
  Machine.Reach.step a h trivial hs

/-- After `generate` there is nothing to send. -/
theorem Lawful.generate_toSend (hP : Lawful P start) (h : Reach P start s) :
    (s.generate P i).toSend P i = none := by
  cases hsend : s.toSend P i with
  | none =>
    have hstate := hP.silent s i h hsend
    have hside : (s.generate P i).side = s.side := by
      show Function.update s.side i _ = s.side
      rw [hstate]
      exact Function.update_eq_self i s.side
    unfold toSend at hsend ⊢
    rw [hside]
    exact hsend
  | some m => exact hP.waits s i h (by rw [hsend]; exact Option.some_ne_none m)

theorem toSend_of_side {j : Bool} (h : s'.side j = s.side j) : s'.toSend P j = s.toSend P j := by
  unfold toSend
  rw [h]

theorem generate_side_not : (s.generate P i).side (!i) = s.side (!i) :=
  Function.update_of_ne (by cases i <;> decide) _ _

theorem draw_side_not : (s.draw P i).side (!i) = s.side (!i) :=
  Function.update_of_ne (by cases i <;> decide) _ _

theorem edit_side_not {c : C} : (s.edit P i c).side (!i) = s.side (!i) :=
  Function.update_of_ne (by cases i <;> decide) _ _

theorem receive_side_not (h : s.receive P i = some s') : s'.side (!i) = s.side (!i) := by
  unfold receive at h
  split at h
  · obtain rfl := Option.some.inj h
    exact Function.update_of_ne (by cases i <;> decide) _ _
  · cases h

end Dialogue

/-! ### Sending the whole set -/

/-- What a party knows: what it has sent last, what it has been sent last, and whether it waits
for an answer. -/
structure Exchange (α : Type) where
  lastSent : Option (Finset α)
  theirs : Option (Finset α)
  inFlight : Bool
  deriving DecidableEq

variable {α : Type} [DecidableEq α]

/-- A party sends its set unless it has sent it and has been sent it or waits for an answer. -/
def sets : Protocol (Finset α) (Exchange α) (Finset α) α (Finset α) where
  generate d s :=
    if s.lastSent = some d ∧ (s.theirs = some d ∨ s.inFlight = true) then (none, s)
    else (some d, ⟨some d, s.theirs, true⟩)
  receive d s m := (d ∪ m, ⟨s.lastSent, some m, false⟩)
  edit d c := insert c d
  heads d := d

def Exchange.fresh : Exchange α := ⟨none, none, false⟩

/-- A dialogue whose parties have said nothing yet. -/
def freshDialogue (docs : Bool → Finset α) : Dialogue (Finset α) (Exchange α) (Finset α) :=
  ⟨fun i => ⟨docs i, .fresh⟩, fun _ => []⟩

/-- What a party has sent last is the end of its wire or what the other was sent last; what it
was sent it has. -/
structure Told (s : Dialogue (Finset α) (Exchange α) (Finset α)) : Prop where
  sent : ∀ i x, (s.side i).state.lastSent = some x →
    (s.wire i).getLast? = some x ∨ s.wire i = [] ∧ (s.side (!i)).state.theirs = some x
  known : ∀ i x, (s.side i).state.theirs = some x → x ⊆ (s.side i).doc

theorem sets_generate (s : Dialogue (Finset α) (Exchange α) (Finset α)) (i : Bool) :
    s.toSend sets i = none ∧ s.generate sets i = s ∨
      s.toSend sets i = some (s.side i).doc ∧ s.generate sets i =
        ⟨Function.update s.side i
          ⟨(s.side i).doc, ⟨some (s.side i).doc, (s.side i).state.theirs, true⟩⟩,
          Function.update s.wire i (s.wire i ++ [(s.side i).doc])⟩ := by
  unfold Dialogue.generate Dialogue.toSend sets
  by_cases hquiet : (s.side i).state.lastSent = some (s.side i).doc ∧
      ((s.side i).state.theirs = some (s.side i).doc ∨ (s.side i).state.inFlight = true)
  · refine .inl ⟨by simp only [if_pos hquiet], ?_⟩
    simp only [if_pos hquiet, Option.toList_none, List.append_nil]
    rw [Function.update_eq_self i s.wire]
    congr 1
    exact Function.update_eq_self i s.side
  · exact .inr ⟨by simp only [if_neg hquiet], by simp only [if_neg hquiet, Option.toList_some]⟩

theorem Told.generate {s : Dialogue (Finset α) (Exchange α) (Finset α)} (h : Told s) (i : Bool) :
    Told (s.generate sets i) := by
  rcases sets_generate s i with ⟨-, hgen⟩ | ⟨-, hgen⟩
  · rw [hgen]
    exact h
  · rw [hgen]
    refine ⟨fun j x hx => ?_, fun j x hx => ?_⟩
    · by_cases hj : j = i
      · subst hj
        simp only [Function.update_self] at hx ⊢
        exact .inl (by simp [← hx])
      · obtain rfl : j = !i := Bool.eq_not_of_ne hj
        simp only [Function.update_of_ne hj, Bool.not_not, Function.update_self] at hx ⊢
        have hsent := h.sent (!i) x hx
        rwa [Bool.not_not] at hsent
    · by_cases hj : j = i
      · subst hj
        simp only [Function.update_self] at hx ⊢
        exact h.known j x hx
      · simp only [Function.update_of_ne hj] at hx ⊢
        exact h.known j x hx

theorem Told.receive {s s' : Dialogue (Finset α) (Exchange α) (Finset α)} (h : Told s) {i : Bool}
    (hs : s.receive sets i = some s') : Told s' := by
  unfold Dialogue.receive at hs
  split at hs
  next m rest hwire =>
    obtain rfl := Option.some.inj hs
    refine ⟨fun j x hx => ?_, fun j x hx => ?_⟩
    · by_cases hj : j = i
      · subst hj
        have hne : (!j) ≠ j := by cases j <;> decide
        simp only [Function.update_self, Function.update_of_ne hne,
          Function.update_of_ne hne.symm] at hx ⊢
        exact h.sent j x hx
      · obtain rfl : j = !i := Bool.eq_not_of_ne hj
        simp only [Function.update_of_ne hj, Bool.not_not, Function.update_self] at hx ⊢
        have hlast : (m :: rest).getLast? = some x := by
          rcases h.sent (!i) x hx with hlast | ⟨hnil, -⟩
          · rw [← hwire]
            exact hlast
          · cases hwire.symm.trans hnil
        cases rest with
        | nil => exact .inr ⟨rfl, hlast⟩
        | cons n rest => exact .inl (by rw [← hlast, List.getLast?_cons_cons])
    · by_cases hj : j = i
      · subst hj
        simp only [Function.update_self] at hx ⊢
        obtain rfl := Option.some.inj hx
        exact Finset.subset_union_right
      · simp only [Function.update_of_ne hj] at hx ⊢
        exact h.known j x hx
  next => cases hs

theorem Told.edit {s : Dialogue (Finset α) (Exchange α) (Finset α)} (h : Told s) (i : Bool)
    (c : α) : Told (s.edit sets i c) := by
  have hstate : ∀ j, ((s.edit sets i c).side j).state = (s.side j).state := by
    intro j
    by_cases hj : j = i
    · subst hj
      simp [Dialogue.edit]
    · simp [Dialogue.edit, Function.update_of_ne hj]
  refine ⟨fun j x hx => ?_, fun j x hx => ?_⟩
  · rw [hstate] at hx ⊢
    exact h.sent j x hx
  · rw [hstate] at hx
    refine (h.known j x hx).trans ?_
    by_cases hj : j = i
    · subst hj
      simp [Dialogue.edit, sets, Finset.subset_insert]
    · simp [Dialogue.edit, Function.update_of_ne hj]

theorem Told.reach {docs : Bool → Finset α} {s : Dialogue (Finset α) (Exchange α) (Finset α)}
    (h : Dialogue.Reach sets (freshDialogue docs) s) : Told s := by
  have hfresh : Told (freshDialogue docs) := by
    constructor
    all_goals
      intro i x hx
      cases hx
  refine Machine.Reach.invariant hfresh (fun s a s' htold _ hs => ?_) h
  cases a with
  | generate i =>
    obtain rfl := Option.some.inj hs
    exact htold.generate i
  | receive i => exact htold.receive hs
  | edit i c =>
    obtain rfl := Option.some.inj hs
    exact htold.edit i c

theorem sets_lawful (docs : Bool → Finset α) :
    Dialogue.Lawful (sets (α := α)) (freshDialogue docs) := by
  refine ⟨fun s i _ hsend => ?_, fun s i _ hsend => ?_, fun s hs hwire hsend => ?_⟩
  · rcases sets_generate s i with ⟨-, hgen⟩ | ⟨hsome, -⟩
    · have hside := congrArg (fun t => (t.side i).state) hgen
      simpa [Dialogue.generate] using hside
    · cases hsend.symm.trans hsome
  · rcases sets_generate s i with ⟨hnone, -⟩ | ⟨-, hgen⟩
    · exact absurd hnone hsend
    · rw [hgen]
      simp [Dialogue.toSend, sets]
  · have htold := Told.reach hs
    have hlast : ∀ i, (s.side i).state.lastSent = some (s.side i).doc := by
      intro i
      by_contra hne
      have hquiet := hsend i
      simp [Dialogue.toSend, sets, hne] at hquiet
    have hsub : ∀ i, (s.side i).doc ⊆ (s.side (!i)).doc := by
      intro i
      rcases htold.sent i _ (hlast i) with hwire' | ⟨-, htheirs⟩
      · rw [hwire i] at hwire'
        cases hwire'
      · exact htold.known (!i) _ htheirs
    exact Finset.Subset.antisymm (hsub true) (hsub false)

end Sync
