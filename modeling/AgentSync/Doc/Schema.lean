import Mathlib.Data.List.Sort
import AgentSync.Path
import AgentSync.Doc.Store

/-! Vault documents and the operations' monad.

A document is its history of changes, the operations of the open transaction and the
content they add up to. Every read goes through the getters below, which accept what a
peer may have written at a register, and every write is an operation appended to the
transaction; a failed operation leaves behind what it had written. Times, ids and
change hashes come from a supply. -/
namespace AgentSync

/-- The crates that documents rest on. -/
structure Crates where
  nfc : Nfc
  sha : ContentHash
  /-- `{:?}` of a scalar. -/
  debug : Scalar → Str
  /-- What Automerge says of a key put into an object that is no map. -/
  invalidOp : Val → Str

/-! ### History -/

abbrev ChangeHash := Array32

instance : LE ChangeHash := ⟨fun a b => a.val ≤ b.val⟩

instance (a b : ChangeHash) : Decidable (a ≤ b) := inferInstanceAs (Decidable (a.val ≤ b.val))

structure Change where
  hash : ChangeHash
  deps : List ChangeHash
  timestamp : Int
  ops : List Op
  deriving DecidableEq

/-- The hashes no change depends on, sorted. -/
def headsOf (changes : List Change) : List ChangeHash :=
  ((changes.map Change.hash).filter fun h => !changes.any fun c => c.deps.contains h).insertionSort
    (· ≤ ·)

/-- The clock, the ids and the change hashes of a replica, by the number of draws. -/
structure Supply where
  now : Nat → Int
  id : Nat → Str
  hash : Nat → ChangeHash

structure Doc where
  changes : List Change
  pending : List Op
  root : Root
  supply : Supply
  draws : Nat

abbrev DocM := EStateM Error Doc

namespace Doc

/-- Recording operations in the open transaction. -/
def emitted (d : Doc) (ops : List Op) : Doc :=
  {d with pending := d.pending ++ ops, root := applyAll d.root ops}

/-- Closing the transaction; an empty one leaves no change. -/
def committed (d : Doc) (time : Int) : Doc :=
  if d.pending = [] then d
  else {d with
    changes := d.changes ++ [⟨d.supply.hash d.draws, headsOf d.changes, time, d.pending⟩]
    pending := []
    draws := d.draws + 1}

/-- A read of the current content. -/
def read {α : Type} (f : Root → Except Error α) : DocM α := fun d =>
  match f d.root with
  | .ok a => .ok a d
  | .error e => .error e d

/-- A result that does not depend on the document. -/
def lift {α : Type} (r : Except Error α) : DocM α := read fun _ => r

def emit (ops : List Op) : DocM Unit := fun d => .ok () (d.emitted ops)

def nowMs : DocM Int := fun d => .ok (d.supply.now d.draws) {d with draws := d.draws + 1}

def newId : DocM Str := fun d => .ok (d.supply.id d.draws) {d with draws := d.draws + 1}

def commitNow : DocM Unit := fun d =>
  .ok () ({d with draws := d.draws + 1}.committed (d.supply.now d.draws))

/-- `get_heads`, which closes the open transaction first. -/
def heads : DocM (List ChangeHash) := fun d =>
  let d := d.committed 0
  .ok (headsOf d.changes) d

end Doc

/-! ### Getters -/

/-- `as i64` of a `u64`. -/
def u64AsI64 (v : Nat) : Int := (BitVec.ofNat 64 v).toInt

namespace Root

variable (L : Crates) (r : Root)

/-- `map_obj`. -/
def mapObj (m : RootMap) : Except Error Unit :=
  match r.get (.rootMap m) with
  | some (.scalar _) | none =>
    .error (.other (txt "schema missing root." ++ (Addr.rootMap m).key))
  | some _ => .ok ()

/-- `get_object` finds one. -/
def hasObject (a : Addr) : Bool :=
  match r.get a with
  | some v => v.isObject
  | none => false

/-- Whether a key can be put into the object at a register. -/
def writable (a : Addr) : Except Error Unit :=
  match r.get a with
  | some .map | none => .ok ()
  | some v => .error (.automerge (L.invalidOp v))

def getStr (a : Addr) : Except Error (Option Str) :=
  match r.get a with
  | some (.scalar (.str s)) => .ok (some s)
  | some (.scalar .null) => .ok none
  | some (.scalar s) =>
    .error (.other (txt "expected string at " ++ a.key ++ txt ", got " ++ L.debug s))
  | _ => .ok none

def getInt (a : Addr) : Except Error (Option Int) :=
  match r.get a with
  | some (.scalar (.int v)) => .ok (some v)
  | some (.scalar (.uint v)) => .ok (some (u64AsI64 v))
  | some (.scalar .null) => .ok none
  | some (.scalar s) =>
    .error (.other (txt "expected int at " ++ a.key ++ txt ", got " ++ L.debug s))
  | _ => .ok none

/-- `get_text` on the content of a file. -/
def getText (fid : Str) : Option Str :=
  match r.get (.content fid) with
  | some (.text s) => some s
  | _ => none

/-- `map_keys` of `files`. -/
def fileKeys : List Str :=
  (r.keys.filterMap fun a => match a with
    | .file fid => some fid
    | _ => none).insertionSort (· ≤ ·)

/-- `map_keys` of `directories`. -/
def dirKeys : List Str :=
  (r.keys.filterMap fun a => match a with
    | .dir did => some did
    | _ => none).insertionSort (· ≤ ·)

/-- `map_keys` of `labels`. -/
def labelKeys : List Str :=
  (r.keys.filterMap fun a => match a with
    | .label name => some name
    | _ => none).insertionSort (· ≤ ·)

variable {r}

theorem mem_fileKeys {fid : Str} : fid ∈ r.fileKeys ↔ (r.get (.file fid)).isSome = true := by
  simp only [fileKeys, List.mem_insertionSort, List.mem_filterMap]
  constructor
  · intro ⟨a, ha, hfid⟩
    cases a <;> cases hfid
    exact AList.lookup_isSome.mpr ha
  · intro h
    exact ⟨.file fid, AList.lookup_isSome.mp h, rfl⟩

theorem mem_dirKeys {did : Str} : did ∈ r.dirKeys ↔ (r.get (.dir did)).isSome = true := by
  simp only [dirKeys, List.mem_insertionSort, List.mem_filterMap]
  constructor
  · intro ⟨a, ha, hdid⟩
    cases a <;> cases hdid
    exact AList.lookup_isSome.mpr ha
  · intro h
    exact ⟨.dir did, AList.lookup_isSome.mp h, rfl⟩

theorem mem_labelKeys {name : Str} :
    name ∈ r.labelKeys ↔ (r.get (.label name)).isSome = true := by
  simp only [labelKeys, List.mem_insertionSort, List.mem_filterMap]
  constructor
  · intro ⟨a, ha, hname⟩
    cases a <;> cases hname
    exact AList.lookup_isSome.mpr ha
  · intro h
    exact ⟨.label name, AList.lookup_isSome.mp h, rfl⟩

theorem nodup_labelKeys : r.labelKeys.Nodup := by
  refine (List.perm_insertionSort (· ≤ ·) _).nodup_iff.mpr ?_
  refine r.keys_nodup.filterMap fun a b name ha hb => ?_
  cases a <;> cases ha
  cases b <;> cases hb
  rfl

theorem nodup_fileKeys : r.fileKeys.Nodup := by
  refine (List.perm_insertionSort (· ≤ ·) _).nodup_iff.mpr ?_
  refine r.keys_nodup.filterMap fun a b fid ha hb => ?_
  cases a <;> cases ha
  cases b <;> cases hb
  rfl

theorem nodup_dirKeys : r.dirKeys.Nodup := by
  refine (List.perm_insertionSort (· ≤ ·) _).nodup_iff.mpr ?_
  refine r.keys_nodup.filterMap fun a b did ha hb => ?_
  cases a <;> cases ha
  cases b <;> cases hb
  rfl

end Root

end AgentSync
