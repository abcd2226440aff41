import Mathlib.Logic.Function.Basic
import Mathlib.Data.List.TakeDrop

/-! One directory, as those see it who hold its files open.

A name leads to a file and an open handle is the file itself, so opening a name for writing
empties what its other writers are writing to, and a rename moves the name from under them.
`create`, `writeAt` and `rename` are what a file system does in one step each; a whole write is
many of them. No two names lead to one file (`single`), so what is written under one name is
not seen under another before it is renamed. -/

/-- What an open directory holds: `ν` are its names, `β` is what files are made of. -/
structure Folder (ν β : Type*) where
  entries : ν → Option Nat
  data : Nat → List β
  next : Nat
  fresh : ∀ n i, entries n = some i → i < next
  single : ∀ n m i, entries n = some i → entries m = some i → n = m

namespace Folder

variable {ν β : Type*}

/-! ### Writing into a file -/

/-- `old` with `new` in it from `off` on; a gap is filled with `zero`. -/
def overwrite (zero : β) (old : List β) (off : Nat) (new : List β) : List β :=
  old.takeD off zero ++ new ++ old.drop (off + new.length)

/-- Writing what is there already changes nothing. -/
theorem overwrite_self (zero : β) (before new after : List β) :
    overwrite zero (before ++ new ++ after) before.length new = before ++ new ++ after := by
  have htake : (before ++ new ++ after).takeD before.length zero = before := by
    rw [List.append_assoc, List.takeD_left]
  rw [overwrite, htake, ← List.length_append, List.drop_left]

/-- Writing on at the end. -/
theorem overwrite_end (zero : β) (old new : List β) :
    overwrite zero old old.length new = old ++ new := by
  have htake : old.takeD old.length zero = old := by
    rw [List.takeD_eq_take _ (Nat.le_refl _), List.take_length]
  rw [overwrite, htake, List.drop_eq_nil_of_le (Nat.le_add_right _ _), List.append_nil]

/-! ### The operations -/

def empty : Folder ν β where
  entries := fun _ => none
  data := fun _ => []
  next := 0
  fresh := fun _ _ h => by cases h
  single := fun _ _ _ h => by cases h

/-- What reading the name gives. -/
def read (f : Folder ν β) (n : ν) : Option (List β) := (f.entries n).map f.data

def writeAt (f : Folder ν β) (zero : β) (i off : Nat) (new : List β) : Folder ν β :=
  {f with data := Function.update f.data i (overwrite zero (f.data i) off new)}

@[simp] theorem entries_writeAt (f : Folder ν β) (zero : β) (i off : Nat) (new : List β) :
    (f.writeAt zero i off new).entries = f.entries := rfl

theorem data_writeAt (f : Folder ν β) (zero : β) (i off : Nat) (new : List β) (j : Nat) :
    (f.writeAt zero i off new).data j =
      if j = i then overwrite zero (f.data i) off new else f.data j :=
  Function.update_apply _ _ _ _

/-- A writer that has all of `bytes` but `left` in its file, and writes `n` on. -/
theorem data_writeAt_next {f : Folder ν β} {i : Nat} {bytes left : List β} (zero : β)
    (h : f.data i ++ left = bytes) (n : Nat) :
    (f.writeAt zero i (bytes.length - left.length) (left.take n)).data i ++ left.drop n =
      bytes := by
  have hoff : bytes.length - left.length = (f.data i).length := by
    rw [← h, List.length_append, Nat.add_sub_cancel]
  rw [data_writeAt, if_pos rfl, hoff, overwrite_end, List.append_assoc, List.take_append_drop, h]

/-- A writer whose file holds `bytes` already, and that has `left` of them to go. -/
theorem data_writeAt_again {f : Folder ν β} {i : Nat} {bytes left : List β} (zero : β)
    (h : f.data i = bytes) (hleft : left <:+ bytes) (n : Nat) :
    (f.writeAt zero i (bytes.length - left.length) (left.take n)).data i = bytes := by
  obtain ⟨before, rfl⟩ := hleft
  have hparts : before ++ left = before ++ left.take n ++ left.drop n := by
    rw [List.append_assoc, List.take_append_drop]
  have hoff : (before ++ left).length - left.length = before.length := by
    rw [List.length_append, Nat.add_sub_cancel]
  rw [data_writeAt, if_pos rfl, h, hoff, hparts, overwrite_self]

theorem read_eq_some {f : Folder ν β} {n : ν} {b : List β} :
    f.read n = some b ↔ ∃ i, f.entries n = some i ∧ f.data i = b :=
  Option.map_eq_some_iff

/-- What is written to a file is read under its name only. -/
theorem read_writeAt {f : Folder ν β} {m : ν} {i : Nat} (zero : β) (off : Nat) (new : List β)
    (h : f.entries m ≠ some i) : (f.writeAt zero i off new).read m = f.read m := by
  unfold read
  refine Option.map_congr fun j hj => ?_
  rw [data_writeAt, if_neg]
  rintro rfl
  exact h hj

theorem read_writeAt_of_ne {f : Folder ν β} {n m : ν} {i : Nat} (zero : β) (off : Nat)
    (new : List β) (hi : f.entries n = some i) (h : m ≠ n) :
    (f.writeAt zero i off new).read m = f.read m :=
  read_writeAt zero off new fun hm => h (f.single m n i hm hi)

variable [DecidableEq ν]

/-- A new file, which the name leads to. -/
def link (f : Folder ν β) (n : ν) : Folder ν β where
  entries := Function.update f.entries n (some f.next)
  data := Function.update f.data f.next []
  next := f.next + 1
  fresh := by
    intro m i h
    rw [Function.update_apply] at h
    split at h
    next => exact Option.some.inj h ▸ Nat.lt_succ_self _
    next => exact Nat.lt_succ_of_lt (f.fresh m i h)
  single := by
    intro m m' i h h'
    rw [Function.update_apply] at h h'
    split at h <;> split at h'
    next hm hm' => exact hm.trans hm'.symm
    next => exact absurd (Option.some.inj h ▸ f.fresh m' i h') (Nat.lt_irrefl _)
    next => exact absurd (Option.some.inj h' ▸ f.fresh m i h) (Nat.lt_irrefl _)
    next => exact f.single m m' i h h'

/-- Opening a name for writing: its file is emptied, or there is a new one. -/
def create (f : Folder ν β) (n : ν) : Folder ν β × Nat :=
  match f.entries n with
  | some i => ({f with data := Function.update f.data i []}, i)
  | none => (f.link n, f.next)

/-- Where the names lead when `src` has become `dst`. -/
private def moved (f : Folder ν β) (src dst n : ν) : Option Nat :=
  if n = dst then f.entries src else if n = src then none else f.entries n

private theorem moved_eq_some {f : Folder ν β} {src dst n : ν} {i : Nat}
    (h : f.moved src dst n = some i) :
    (n = dst ∧ f.entries src = some i) ∨ (n ≠ dst ∧ n ≠ src ∧ f.entries n = some i) := by
  unfold moved at h
  split at h
  next hn => exact .inl ⟨hn, h⟩
  next hn =>
    split at h
    next => cases h
    next hsrc => exact .inr ⟨hn, hsrc, h⟩

/-- The file of `src` is the file of `dst`, and `src` is no name any more. -/
def move (f : Folder ν β) (src dst : ν) : Folder ν β where
  entries := f.moved src dst
  data := f.data
  next := f.next
  fresh := by
    intro n i h
    obtain ⟨-, h⟩ | ⟨-, -, h⟩ := moved_eq_some h <;> exact f.fresh _ i h
  single := by
    intro n m i h h'
    obtain ⟨hn, h⟩ | ⟨hn, hsrc, h⟩ := moved_eq_some h <;>
      obtain ⟨hm, h'⟩ | ⟨hm, hsrc', h'⟩ := moved_eq_some h'
    · exact hn.trans hm.symm
    · exact absurd (f.single m src i h' h) hsrc'
    · exact absurd (f.single n src i h h') hsrc
    · exact f.single n m i h h'

def rename (f : Folder ν β) (src dst : ν) : Option (Folder ν β) :=
  (f.entries src).map fun _ => f.move src dst

/-! ### What they do to one name and one file -/

variable {f f' : Folder ν β} {n m : ν} {i j : Nat}

theorem entries_create_self : (f.create n).1.entries n = some (f.create n).2 := by
  unfold create
  split
  next h => exact h
  next => exact Function.update_self ..

theorem entries_create_of_ne (h : m ≠ n) : (f.create n).1.entries m = f.entries m := by
  unfold create
  split
  next => rfl
  next => exact Function.update_of_ne h ..

theorem data_create : (f.create n).1.data j = if j = (f.create n).2 then [] else f.data j := by
  unfold create
  split <;> exact Function.update_apply _ _ _ _

theorem next_le_create : f.next ≤ (f.create n).1.next := by
  unfold create
  split
  next => exact Nat.le_refl _
  next => exact Nat.le_succ _

/-- An open file that another name leads to, or none, is not the one that is emptied. -/
theorem create_ne (hj : j < f.next) (h : f.entries n ≠ some j) : j ≠ (f.create n).2 := by
  unfold create
  split
  next i hi =>
    rintro rfl
    exact h hi
  next => exact Nat.ne_of_lt hj

theorem rename_eq_some {src dst : ν} (h : f.rename src dst = some f') :
    ∃ i, f.entries src = some i ∧ f'.data = f.data ∧ f'.next = f.next ∧ ∀ n, f'.entries n =
      if n = dst then some i else if n = src then none else f.entries n := by
  obtain ⟨i, hi, rfl⟩ := Option.map_eq_some_iff.mp h
  exact ⟨i, hi, rfl, rfl, fun n => by rw [← hi]; rfl⟩

/-! ### What they do to what is read -/

theorem read_create_of_ne (h : m ≠ n) : (f.create n).1.read m = f.read m := by
  unfold read
  rw [entries_create_of_ne h]
  refine Option.map_congr fun i hi => ?_
  rw [data_create, if_neg]
  exact create_ne (f.fresh m i hi) fun hn => h (f.single m n i hi hn)

theorem read_rename {src dst : ν} (h : f.rename src dst = some f') (n : ν) :
    f'.read n = if n = dst then f.read src else if n = src then none else f.read n := by
  obtain ⟨i, hi, hdata, -, hentries⟩ := rename_eq_some h
  rw [read, hentries, hdata]
  split
  next => rw [read, hi]
  next => split <;> rfl

/-! ### Writing in place -/

/-- What there is after `k` steps of a write in place: the name is opened, which empties its file,
and then each unit is written. -/
def writeInPlace (f : Folder ν β) (zero : β) (n : ν) (bytes : List β) : Nat → Folder ν β
  | 0 => f
  | k + 1 => (f.create n).1.writeAt zero (f.create n).2 0 (bytes.take k)

theorem read_writeInPlace (zero : β) (bytes : List β) (k : Nat) :
    (f.writeInPlace zero n bytes (k + 1)).read m = if m = n then some (bytes.take k) else f.read m := by
  rw [writeInPlace]
  split
  next hm =>
    rw [hm, read, entries_writeAt, entries_create_self, Option.map_some, data_writeAt, if_pos rfl,
      data_create, if_pos rfl]
    exact congrArg some (overwrite_end zero [] (bytes.take k))
  next hm => rw [read_writeAt_of_ne zero 0 _ entries_create_self hm, read_create_of_ne hm]

/-- One file after the other is written, and `k` steps of that are done. -/
def writesInPlace (f : Folder ν β) (zero : β) : List (ν × List β) → Nat → Folder ν β
  | [], _ => f
  | (n, bytes) :: rest, k =>
    if k ≤ bytes.length + 1 then f.writeInPlace zero n bytes k
    else (f.writeInPlace zero n bytes (bytes.length + 1)).writesInPlace zero rest
      (k - (bytes.length + 1))

@[simp] theorem writesInPlace_zero (zero : β) (ws : List (ν × List β)) :
    f.writesInPlace zero ws 0 = f := by
  cases ws with
  | nil => rfl
  | cons w rest => simp [writesInPlace, writeInPlace]

/-- More steps than there are leave the file whole. -/
theorem read_writesInPlace_one (zero : β) (bytes : List β) (k : Nat) :
    (f.writesInPlace zero [(n, bytes)] (k + 1)).read m =
      if m = n then some (bytes.take k) else f.read m := by
  rw [writesInPlace]
  split
  next => exact read_writeInPlace zero bytes k
  next hk => rw [writesInPlace, read_writeInPlace, List.take_length, List.take_of_length_le (by omega)]

/-- What is read while two files are written one after the other. -/
theorem read_writesInPlace_two {n' : ν} (zero : β) (a b : List β) (hne : n ≠ n') (k : Nat) :
    (f.writesInPlace zero [(n, a), (n', b)] k).read m =
      if m = n ∧ 0 < k then some (a.take (k - 1))
      else if m = n' ∧ a.length + 1 < k then some (b.take (k - (a.length + 2)))
      else f.read m := by
  rw [writesInPlace]
  split
  next hk =>
    have hsecond : ¬ (m = n' ∧ a.length + 1 < k) := fun h => by omega
    rw [if_neg hsecond]
    cases k with
    | zero => simp [writeInPlace]
    | succ k => simp [read_writeInPlace]
  next hk =>
    obtain ⟨j, rfl⟩ : ∃ j, k = a.length + 1 + (j + 1) := ⟨k - (a.length + 2), by omega⟩
    have hfirst : a.take (a.length + 1 + (j + 1) - 1) = a := List.take_of_length_le (by omega)
    rw [Nat.add_sub_cancel_left, read_writesInPlace_one, read_writeInPlace, List.take_length, hfirst,
      show a.length + 1 + (j + 1) - (a.length + 2) = j by omega]
    by_cases hm : m = n
    · simp [hm, hne]
    · have hlt : a.length + 1 < a.length + 1 + (j + 1) := by omega
      simp [hm, hlt]

end Folder
