import Mathlib.Data.List.AList
import Mathlib.Data.List.Induction
import AgentSync.Basic

/-! The content of a vault document.

The document is a tree of Automerge maps with one scalar, object or text at each key.
An address is the path of keys that leads to a register, so the tree is a finite map
from addresses to values, and writing at an address takes away what was below it.
`Op.apply` is what a local operation does to it; for a register that holds no text the
effect of a list of operations is their own footprint where they touch it and nothing
elsewhere (`get_applyAll`). -/
namespace AgentSync

/-! ### Addresses -/

inductive FileField where
  | path | kind | size | createdAt | updatedAt | deletedAt
  deriving DecidableEq, Repr

inductive DirField where
  | path | createdAt | deletedAt
  deriving DecidableEq, Repr

inductive LabelField where
  | heads | createdAt
  deriving DecidableEq, Repr

inductive RootMap where
  | directories | files | labels
  deriving DecidableEq, Repr

/-- The registers the schema knows. -/
inductive Addr where
  | schemaVersion
  | vaultId
  | rootMap (m : RootMap)
  | file (fid : Str)
  | fileMeta (fid : Str)
  | fileField (fid : Str) (f : FileField)
  | content (fid : Str)
  | binaryHash (fid : Str)
  | dir (did : Str)
  | dirField (did : Str) (f : DirField)
  | label (name : Str)
  | labelField (name : Str) (f : LabelField)
  deriving DecidableEq, Repr

namespace Addr

/-- The file entry a register is in. -/
def fileId : Addr → Option Str
  | file fid | fileMeta fid | fileField fid _ | content fid | binaryHash fid => some fid
  | _ => none

/-- The directory entry a register is in. -/
def dirId : Addr → Option Str
  | dir did | dirField did _ => some did
  | _ => none

/-- The objects on the way to a register, nearest first. -/
def ancestors : Addr → List Addr
  | schemaVersion | vaultId | rootMap _ => []
  | file _ => [rootMap .files]
  | fileMeta fid => [file fid, rootMap .files]
  | fileField fid _ => [fileMeta fid, file fid, rootMap .files]
  | content fid => [file fid, rootMap .files]
  | binaryHash fid => [file fid, rootMap .files]
  | dir _ => [rootMap .directories]
  | dirField did _ => [dir did, rootMap .directories]
  | label _ => [rootMap .labels]
  | labelField name _ => [label name, rootMap .labels]

def isContent : Addr → Bool
  | content _ => true
  | _ => false

theorem fileId_of_mem_ancestors {a b : Addr} {fid : Str} (h : a ∈ b.ancestors)
    (hfid : a.fileId = some fid) : b.fileId = some fid := by
  cases b <;> simp [ancestors] at h <;> grind [fileId]

theorem dirId_of_mem_ancestors {a b : Addr} {did : Str} (h : a ∈ b.ancestors)
    (hdid : a.dirId = some did) : b.dirId = some did := by
  cases b <;> simp [ancestors] at h <;> grind [dirId]

/-- The map key of a register. -/
def key : Addr → Str
  | schemaVersion => txt "schema_version"
  | vaultId => txt "vault_id"
  | rootMap .directories => txt "directories"
  | rootMap .files => txt "files"
  | rootMap .labels => txt "labels"
  | file fid => fid
  | fileMeta _ => txt "meta"
  | fileField _ .path => txt "path"
  | fileField _ .kind => txt "kind"
  | fileField _ .size => txt "size"
  | fileField _ .createdAt => txt "created_at"
  | fileField _ .updatedAt => txt "updated_at"
  | fileField _ .deletedAt => txt "deleted_at"
  | content _ => txt "content"
  | binaryHash _ => txt "binary_hash"
  | dir did => did
  | dirField _ .path => txt "path"
  | dirField _ .createdAt => txt "created_at"
  | dirField _ .deletedAt => txt "deleted_at"
  | label name => name
  | labelField _ .heads => txt "heads"
  | labelField _ .createdAt => txt "created_at"

end Addr

/-! ### Values -/

/-- A scalar; `other` is one of a type the code never writes, with its `Debug` text. -/
inductive Scalar where
  | str (s : Str)
  | int (v : Int)
  | uint (v : Nat)
  | bytes (b : Bytes)
  | null
  | other (debug : Str)
  deriving DecidableEq, Repr

inductive Val where
  | scalar (s : Scalar)
  | map
  | list
  | text (s : Str)
  deriving DecidableEq, Repr

def Val.isObject : Val → Bool
  | .scalar _ => false
  | _ => true

/-! ### The tree -/

abbrev Root := AList fun _ : Addr => Val

namespace Root

def get (r : Root) (a : Addr) : Option Val := r.lookup a

/-- Taking away a register and all that is below it. -/
def clear (r : Root) (a : Addr) : Root :=
  ⟨r.entries.filter fun e => e.1 != a && !e.1.ancestors.contains a,
    List.NodupKeys.sublist List.filter_sublist r.nodupKeys⟩

/-- Writing a register, or deleting it. -/
def set (r : Root) (a : Addr) : Option Val → Root
  | some v => (r.clear a).insert a v
  | none => r.clear a

private theorem dlookup_filter (l : List (Sigma fun _ : Addr => Val)) (p : Addr → Bool)
    (b : Addr) : (l.filter fun e => p e.1).dlookup b = if p b then l.dlookup b else none := by
  induction l with
  | nil => simp
  | cons e rest ih =>
    obtain ⟨k, v⟩ := e
    by_cases hk : p k
    · rw [List.filter_cons_of_pos (by simpa using hk)]
      by_cases hb : b = k
      · subst hb
        simp [hk]
      · rw [List.dlookup_cons_ne _ _ hb, List.dlookup_cons_ne _ _ hb, ih]
    · rw [List.filter_cons_of_neg (by simpa using hk), ih]
      by_cases hb : b = k
      · subst hb
        simp [hk]
      · rw [List.dlookup_cons_ne _ _ hb]

theorem get_clear (r : Root) (a b : Addr) :
    (r.clear a).get b = if b = a ∨ a ∈ b.ancestors then none else r.get b := by
  have h := dlookup_filter r.entries (fun k => k != a && !k.ancestors.contains a) b
  simp only [get, AList.lookup, clear] at h ⊢
  rw [h]
  by_cases hb : b = a
  · simp [hb]
  · by_cases hanc : a ∈ b.ancestors <;> simp [hb, hanc]

/-- **Writing at an address** sets it, empties what is below and leaves the rest. -/
@[simp] theorem get_set (r : Root) (a b : Addr) (v : Option Val) :
    (r.set a v).get b = if b = a then v else if a ∈ b.ancestors then none else r.get b := by
  cases v with
  | none =>
    rw [set, get_clear]
    by_cases hb : b = a
    · simp [hb]
    · simp [hb]
  | some v =>
    by_cases hb : b = a
    · subst hb
      simp [set, get]
    · have hne : get ((r.clear a).insert a v) b = (r.clear a).get b :=
        AList.lookup_insert_ne hb
      rw [set, hne, get_clear]
      simp [hb]

@[simp] theorem get_empty (a : Addr) : get ∅ a = none := AList.lookup_empty a

end Root

/-! ### Operations -/

/-- What a transaction records. -/
inductive Op where
  | put (a : Addr) (s : Scalar)
  | putMap (a : Addr)
  | putText (fid : Str)
  | delete (a : Addr)
  /-- `splice_text` on the content of a file, in characters. -/
  | spliceText (fid : Str) (pos del : Nat) (insert : Str)
  deriving DecidableEq, Repr

namespace Op

/-- The register an operation writes, with its new value; a splice writes none anew. -/
def writes : Op → Option (Addr × Option Val)
  | put a s => some (a, some (.scalar s))
  | putMap a => some (a, some .map)
  | putText fid => some (.content fid, some (.text []))
  | delete a => some (a, none)
  | spliceText .. => none

def apply (r : Root) : Op → Root
  | put a s => r.set a (some (.scalar s))
  | putMap a => r.set a (some .map)
  | putText fid => r.set (.content fid) (some (.text []))
  | delete a => r.set a none
  | spliceText fid pos del insert =>
    match r.get (.content fid) with
    | some (.text s) => r.set (.content fid) (some (.text (s.take pos ++ insert ++ s.drop (pos + del))))
    | _ => r

/-- The register an operation is about. -/
def target : Op → Addr
  | put a _ => a
  | putMap a => a
  | putText fid => .content fid
  | delete a => a
  | spliceText fid _ _ _ => .content fid

/-- The operation decides what is at `b`. -/
def touches (b : Addr) (op : Op) : Bool :=
  match op.writes with
  | some (a, _) => b = a || b.ancestors.contains a
  | none => false

end Op

def applyAll (r : Root) (ops : List Op) : Root := ops.foldl Op.apply r

/-- What a list of operations leaves in an empty document. -/
def footprint (ops : List Op) : Root := applyAll ∅ ops

@[simp] theorem applyAll_nil (r : Root) : applyAll r [] = r := rfl

@[simp] theorem applyAll_cons (r : Root) (op : Op) (ops : List Op) :
    applyAll r (op :: ops) = applyAll (op.apply r) ops := rfl

theorem applyAll_append (r : Root) (ops ops' : List Op) :
    applyAll r (ops ++ ops') = applyAll (applyAll r ops) ops' := List.foldl_append

/-- One operation, at a register that holds no text. -/
theorem get_apply (r : Root) (op : Op) {b : Addr} (hb : b.isContent = false) :
    (op.apply r).get b =
      if op.touches b then (op.apply ∅).get b else r.get b := by
  cases op with
  | spliceText fid pos del insert =>
    simp only [Op.touches, Op.writes, Bool.false_eq_true, if_false, Op.apply]
    have hne : b ≠ .content fid := by
      rintro rfl
      cases hb
    have hanc : Addr.content fid ∉ b.ancestors := by cases b <;> simp [Addr.ancestors]
    split
    next => simp [hne, hanc]
    next => rfl
  | _ =>
    simp only [Op.touches, Op.writes, Op.apply, Root.get_set, Root.get_empty]
    grind

/-- **Where operations touch a register, their footprint decides; elsewhere nothing changes.** -/
theorem get_applyAll (r : Root) (ops : List Op) {b : Addr} (hb : b.isContent = false) :
    (applyAll r ops).get b =
      if ops.any (Op.touches b) then (footprint ops).get b else r.get b := by
  induction ops using List.reverseRecOn with
  | nil => rfl
  | append_singleton ops op ih =>
    rw [footprint, applyAll_append, applyAll_append, ← footprint]
    simp only [applyAll_cons, applyAll_nil, List.any_append, List.any_cons, List.any_nil,
      Bool.or_false]
    rw [get_apply _ _ hb, get_apply (footprint ops) _ hb, ih]
    by_cases hop : op.touches b = true
    · simp [hop]
    · simp [hop]

/-! ### Frames -/

/-- An operation on another register leaves a register as it is. -/
theorem get_apply_of_ne (r : Root) (op : Op) {b : Addr} (hne : op.target ≠ b)
    (hanc : op.target ∉ b.ancestors) : (op.apply r).get b = r.get b := by
  have hset (v : Option Val) : (r.set op.target v).get b = r.get b := by
    rw [Root.get_set, if_neg (Ne.symm hne), if_neg hanc]
  cases op with
  | spliceText fid pos del insert =>
    simp only [Op.apply]
    split
    next => exact hset _
    next => rfl
  | _ => exact hset _

theorem get_applyAll_of_ne {r : Root} {ops : List Op} {b : Addr}
    (h : ∀ op ∈ ops, op.target ≠ b ∧ op.target ∉ b.ancestors) :
    (applyAll r ops).get b = r.get b := by
  induction ops generalizing r with
  | nil => rfl
  | cons op rest ih =>
    have hop := h op List.mem_cons_self
    rw [applyAll_cons, ih fun op' hop' => h op' (List.mem_cons_of_mem _ hop'),
      get_apply_of_ne r op hop.1 hop.2]

/-- Operations see only the registers of a part of the tree they stay in. -/
theorem get_applyAll_congr {r r' : Root} {ops : List Op} {P : Addr → Prop}
    (hops : ∀ op ∈ ops, P op.target) (h : ∀ b, P b → r.get b = r'.get b) :
    ∀ b, P b → (applyAll r ops).get b = (applyAll r' ops).get b := by
  induction ops generalizing r r' with
  | nil => exact h
  | cons op rest ih =>
    refine ih (fun op' hop' => hops op' (List.mem_cons_of_mem _ hop')) fun b hb => ?_
    have hop := hops op List.mem_cons_self
    cases op with
    | spliceText fid pos del insert =>
      have hcontent : r.get (.content fid) = r'.get (.content fid) := h _ hop
      simp only [Op.apply, ← hcontent]
      split
      next => rw [Root.get_set, Root.get_set, h b hb]
      next => exact h b hb
    | _ => rw [Op.apply, Op.apply, Root.get_set, Root.get_set, h b hb]

/-! ### Writing entry by entry -/

/-- A part of the tree is the same in both. -/
def Root.SameAt (P : Addr → Prop) (r r' : Root) : Prop := ∀ b, P b → r.get b = r'.get b

/-- A loop that writes each entry according to what is there. -/
def writeEach {γ : Type} (f : Root → γ → List Op) (xs : List γ) (r : Root) : Root :=
  xs.foldl (fun r x => applyAll r (f r x)) r

section WriteEach

variable {γ : Type} {f : Root → γ → List Op} {P : γ → Addr → Prop} {xs : List γ} {r : Root}

/-- What no turn of the loop writes stays. -/
theorem writeEach_frame {Q : Addr → Prop}
    (hf : ∀ x ∈ xs, ∀ r, ∀ op ∈ f r x, ∀ b, Q b → op.target ≠ b ∧ op.target ∉ b.ancestors) :
    Root.SameAt Q (writeEach f xs r) r := by
  induction xs generalizing r with
  | nil => exact fun _ _ => rfl
  | cons x rest ih =>
    intro b hb
    have hrest := ih (r := applyAll r (f r x)) (fun y hy => hf y (List.mem_cons_of_mem _ hy)) b hb
    refine hrest.trans (get_applyAll_of_ne fun op hop => ?_)
    exact hf x List.mem_cons_self r op hop b hb

/-- **Each turn of the loop acts on its own part of the tree** as if it were the only one,
when the parts do not meet. -/
theorem writeEach_own (hown : ∀ x ∈ xs, ∀ r, ∀ op ∈ f r x, P x op.target)
    (hcongr : ∀ x ∈ xs, ∀ r r', Root.SameAt (P x) r r' → f r x = f r' x)
    (hapart : xs.Pairwise fun x y => ∀ a b, (P x a → P y b → a ≠ b ∧ a ∉ b.ancestors) ∧
      (P y a → P x b → a ≠ b ∧ a ∉ b.ancestors)) {x : γ} (hx : x ∈ xs) :
    Root.SameAt (P x) (writeEach f xs r) (applyAll r (f r x)) := by
  induction xs generalizing r with
  | nil => cases hx
  | cons y rest ih =>
    obtain ⟨hy, hrest⟩ := List.pairwise_cons.mp hapart
    obtain rfl | hx := List.mem_cons.mp hx
    · show Root.SameAt (P x) (writeEach f rest (applyAll r (f r x))) _
      refine writeEach_frame fun z hz r op hop b hb => ?_
      exact (hy z hz _ _).2 (hown z (List.mem_cons_of_mem _ hz) r op hop) hb
    · have hsame : Root.SameAt (P x) (applyAll r (f r y)) r := fun b hb =>
        get_applyAll_of_ne fun op hop => (hy x hx _ _).1 (hown y List.mem_cons_self r op hop) hb
      have hturn := ih (r := applyAll r (f r y))
        (fun z hz => hown z (List.mem_cons_of_mem _ hz))
        (fun z hz => hcongr z (List.mem_cons_of_mem _ hz)) hrest hx
      rw [hcongr x (List.mem_cons_of_mem _ hx) _ _ hsame] at hturn
      exact fun b hb => (hturn b hb).trans
        (get_applyAll_congr (hown x (List.mem_cons_of_mem _ hx) r) hsame b hb)

end WriteEach

theorem footprint_append (ops ops' : List Op) {b : Addr} (hb : b.isContent = false) :
    (footprint (ops ++ ops')).get b =
      if ops'.any (Op.touches b) then (footprint ops').get b else (footprint ops).get b := by
  rw [footprint, applyAll_append, get_applyAll _ _ hb, ← footprint]

end AgentSync
