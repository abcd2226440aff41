import Mathlib.Data.List.AList

/-! Events that are put off.

An event waits under its key, and the next event of that key takes its place. So not every event
that is received is handled. What is kept (`Book.Kept`) is that for each key the events that are
handled, with the one that waits, are among those received, in their order and each once, and that
the last of them is the last that was received. -/
namespace Debounce

variable {κ ε : Type*} [DecidableEq κ]

/-- What has been received and handled, in order, and what waits under each key. -/
structure Book (κ ε : Type*) where
  received : List ε
  pending : AList fun _ : κ => ε
  handled : List ε

namespace Book

variable (key : ε → κ) (b : Book κ ε)

def empty : Book κ ε := ⟨[], ∅, []⟩

def receive (e : ε) : Book κ ε :=
  {b with received := b.received ++ [e], pending := b.pending.insert (key e) e}

/-- What waits under the key is handled, if something does. -/
def handle (k : κ) : Book κ ε :=
  match b.pending.lookup k with
  | some e => {b with pending := b.pending.erase k, handled := b.handled ++ [e]}
  | none => b

/-- The events of a key. -/
def ofKey (k : κ) (es : List ε) : List ε := es.filter fun e => key e = k

/-- The events of a key that are handled, and the one that is to be. -/
def kept (k : κ) : List ε := ofKey key k b.handled ++ (b.pending.lookup k).toList

structure Kept : Prop where
  keyed : ∀ k e, b.pending.lookup k = some e → key e = k
  order : ∀ k, (b.kept key k).Sublist (ofKey key k b.received)
  last : ∀ k, (b.kept key k).getLast? = (ofKey key k b.received).getLast?

variable {key b}

theorem ofKey_append (k : κ) (es es' : List ε) :
    ofKey key k (es ++ es') = ofKey key k es ++ ofKey key k es' := List.filter_append ..

theorem ofKey_self (e : ε) : ofKey key (key e) [e] = [e] := by simp [ofKey]

theorem ofKey_other {k : κ} {e : ε} (h : k ≠ key e) : ofKey key k [e] = [] := by
  simp [ofKey, h.symm]

theorem Kept.empty : (Book.empty : Book κ ε).Kept key where
  keyed := fun k e h => by cases h
  order := fun k => .slnil
  last := fun k => rfl

/-- **One event is received**: it is the last of its key, and no other key sees it. -/
theorem Kept.receive (h : b.Kept key) (e : ε) : (b.receive key e).Kept key := by
  have hself : (b.receive key e).kept key (key e) = ofKey key (key e) b.handled ++ [e] := by
    simp [kept, Book.receive, AList.lookup_insert]
  have hother {k : κ} (hk : k ≠ key e) : (b.receive key e).kept key k = b.kept key k := by
    simp [kept, Book.receive, AList.lookup_insert_ne hk]
  have hreceived (k : κ) :
      ofKey key k (b.receive key e).received = ofKey key k b.received ++ ofKey key k [e] :=
    ofKey_append k b.received [e]
  refine ⟨fun k e' hk => ?_, fun k => ?_, fun k => ?_⟩
  · by_cases hke : k = key e
    · rw [hke, Book.receive, AList.lookup_insert] at hk
      rw [← Option.some.inj hk, hke]
    · rw [Book.receive, AList.lookup_insert_ne hke] at hk
      exact h.keyed k e' hk
  · rw [hreceived]
    by_cases hke : k = key e
    · have hhandled : (ofKey key (key e) b.handled).Sublist (ofKey key (key e) b.received) :=
        (List.sublist_append_left _ _).trans (h.order (key e))
      rw [hke, hself, ofKey_self]
      exact hhandled.append (List.Sublist.refl [e])
    · rw [hother hke, ofKey_other hke, List.append_nil]
      exact h.order k
  · rw [hreceived]
    by_cases hke : k = key e
    · rw [hke, hself, ofKey_self, List.getLast?_concat, List.getLast?_concat]
    · rw [hother hke, ofKey_other hke, List.append_nil]
      exact h.last k

/-- Handling an event moves it from one part of what is kept to the other. -/
theorem kept_handle (h : b.Kept key) (k k' : κ) : (b.handle k).kept key k' = b.kept key k' := by
  unfold Book.handle
  split
  next e he =>
    have hkey := h.keyed k e he
    rw [kept, kept, ofKey_append]
    by_cases hk : k' = k
    · subst hk
      rw [AList.lookup_erase, he, ← hkey, ofKey_self]
      exact List.append_nil _
    · rw [AList.lookup_erase_ne hk, ofKey_other (by rwa [hkey]), List.append_nil]
  next => rfl

theorem Kept.handle (h : b.Kept key) (k : κ) : (b.handle k).Kept key := by
  have hreceived : (b.handle k).received = b.received := by
    unfold Book.handle
    split <;> rfl
  refine ⟨fun k' e hk' => ?_, fun k' => ?_, fun k' => ?_⟩
  · unfold Book.handle at hk'
    split at hk'
    next e' he =>
      by_cases hk : k' = k
      · rw [hk, AList.lookup_erase] at hk'
        cases hk'
      · rw [AList.lookup_erase_ne hk] at hk'
        exact h.keyed k' e hk'
    next => exact h.keyed k' e hk'
  · rw [kept_handle h, hreceived]
    exact h.order k'
  · rw [kept_handle h, hreceived]
    exact h.last k'

/-- When nothing waits, the last event of each key is handled. -/
theorem Kept.settled (h : b.Kept key) (hnone : b.pending = ∅) (k : κ) :
    (ofKey key k b.handled).Sublist (ofKey key k b.received) ∧
      (ofKey key k b.handled).getLast? = (ofKey key k b.received).getLast? := by
  have hkept : b.kept key k = ofKey key k b.handled := by
    rw [kept, hnone, AList.lookup_empty]
    exact List.append_nil _
  exact ⟨hkept ▸ h.order k, hkept ▸ h.last k⟩

end Book

end Debounce
