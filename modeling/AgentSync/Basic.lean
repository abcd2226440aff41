import Mathlib.Data.Char
import Mathlib.Data.List.Lex

/-! Bytes, text and errors.

A Rust string is a list of Unicode scalar values, a byte buffer a list of bytes,
and the 32-byte arrays of keys, nonces and fingerprints carry their length. -/
namespace AgentSync

universe u

abbrev Bytes := List UInt8

/-- A Rust `String`. -/
abbrev Str := List Char

/-- `[u8; 32]`. -/
abbrev Array32 := {b : Bytes // b.length = 32}

/-- `[byte; 32]`. -/
def Array32.fill (byte : UInt8) : Array32 := ⟨List.replicate 32 byte, List.length_replicate⟩

/-- `copy_from_slice` into a fresh `[u8; 32]`, for a slice of the right length. -/
def Array32.ofBytes? (b : Bytes) : Option Array32 :=
  if h : b.length = 32 then some ⟨b, h⟩ else none

theorem Array32.ofBytes?_eq_some {b : Bytes} {a : Array32} :
    Array32.ofBytes? b = some a ↔ b = a.val := by
  unfold Array32.ofBytes?
  split
  next h =>
    simp only [Option.some.injEq]
    exact ⟨fun e => congrArg Subtype.val e, fun e => Subtype.ext e⟩
  next h =>
    simp only [reduceCtorEq, false_iff]
    exact fun e => h (e ▸ a.property)

theorem Array32.ofBytes?_val (a : Array32) : Array32.ofBytes? a.val = some a :=
  Array32.ofBytes?_eq_some.mpr rfl

/-- The crate's error enumeration, with the texts its constructors carry. Only the
constructors that modelled code raises are here. -/
inductive Error where
  | invalidPath (message : Str)
  | notFound (message : Str)
  | alreadyExists (message : Str)
  | auth (message : Str)
  | protocol (message : Str)
  | network (message : Str)
  | io (message : Str)
  | automerge (message : Str)
  | serdeJson (message : Str)
  | other (message : Str)
  deriving DecidableEq, Repr

/-- A string literal as text. -/
abbrev txt (s : String) : Str := s.toList

/-- What `Error` displays. -/
def Error.text : Error → Str
  | .invalidPath m => txt "invalid path: " ++ m
  | .notFound m => txt "not found: " ++ m
  | .alreadyExists m => txt "already exists: " ++ m
  | .auth m => txt "auth failed: " ++ m
  | .protocol m => txt "protocol: " ++ m
  | .network m => txt "network: " ++ m
  | .io m => txt "io: " ++ m
  | .automerge m => txt "automerge: " ++ m
  | .serdeJson m => txt "serde json: " ++ m
  | .other m => m

/-- `content_hash`: lowercase hex of a SHA-256 digest, which comes from another crate. -/
structure ContentHash where
  hash : Bytes → Str
  length : ∀ b, (hash b).length = 64
  hex : ∀ b, ∀ c ∈ hash b, c ∈ txt "0123456789abcdef"

theorem hex_of_all {s : Str} (h : s.all (txt "0123456789abcdef").contains = true) :
    ∀ c ∈ s, c ∈ txt "0123456789abcdef" := by simpa using h

/-- The digest of the empty string, for every string. -/
def emptyDigest : ContentHash where
  hash := fun _ => txt "e3b0c44298fc1c14" ++ txt "9afbf4c8996fb924" ++ txt "27ae41e4649b934c" ++
    txt "a495991b7852b855"
  length := fun _ => rfl
  hex := by
    simp only [List.forall_mem_append]
    exact fun _ => ⟨⟨⟨hex_of_all rfl, hex_of_all rfl⟩, hex_of_all rfl⟩, hex_of_all rfl⟩

theorem bind_eq_ok {ε : Type*} {α β : Type u} {x : Except ε α} {f : α → Except ε β} {b : β} :
    (x >>= f) = .ok b ↔ ∃ a, x = .ok a ∧ f a = .ok b := by
  cases x with
  | error e => simp [bind, Except.bind]
  | ok a => simp [bind, Except.bind]

theorem eq_ok_of_toOption {ε α : Type} {x : Except ε α} {a : α} (h : x.toOption = some a) :
    x = .ok a := by
  cases x with
  | ok b => exact congrArg _ (Option.some.inj h)
  | error e => cases h

theorem mapM_cons_eq_ok {ε : Type u} {α : Type v} {β : Type u} {f : α → Except ε β} {a : α}
    {l : List α} {ys : List β} : (a :: l).mapM f = .ok ys ↔
      ∃ b bs, f a = .ok b ∧ l.mapM f = .ok bs ∧ ys = b :: bs := by
  simp only [List.mapM_cons, bind_eq_ok, pure, Except.pure, Except.ok.injEq, eq_comm (b := ys)]
  grind

end AgentSync
