import AgentSync.Fs.Disk
import AgentSync.Store.Blobs
import AgentSync.Doc.History

/-! A vault that is bound to a directory.

The binding remembers by path what a pass of the materializer wrote last and what was last
taken into the document, and which of its own writes the watcher has still to report. The file
system is a parameter: the methods of the adapter, and the two calls that a pass makes past
it. -/
namespace AgentSync

/-! ### Suppression -/

/-- `TTL`, in milliseconds. -/
def suppressionTtl : Nat := 5000

/-- A write of this peer that the watcher has yet to report. -/
structure Mark where
  path : Str
  hash : Str
  time : Nat
  deriving DecidableEq, Repr

abbrev DirtySet := List Mark

namespace DirtySet

variable (now : Nat) (path hash : Str) (s : DirtySet)

def gc : DirtySet := s.filter fun m => now - m.time < suppressionTtl

def mark : DirtySet := gc now s ++ [⟨path, hash, now⟩]

/-- The mark is of a write of these contents at this path. -/
def matching (m : Mark) : Bool := m.path = path && m.hash = hash

/-- Whether an event is the echo of a write, and what is left to report. -/
def checkAndConsume : Bool × DirtySet :=
  let s := gc now s
  if s.any (matching path hash) then (true, s.eraseP (matching path hash)) else (false, s)

variable {now path hash s} {m : Mark}

/-- An echo uses its mark up. -/
theorem mem_of_consumed (h : m ∈ (checkAndConsume now path hash s).2) : m ∈ s := by
  simp only [checkAndConsume] at h
  split at h
  next => exact (List.mem_filter.mp (List.mem_of_mem_eraseP h)).1
  next => exact (List.mem_filter.mp h).1

/-- Only a write that is marked has an echo. -/
theorem exists_mark (h : (checkAndConsume now path hash s).1 = true) :
    ∃ m ∈ s, m.path = path ∧ m.hash = hash := by
  simp only [checkAndConsume] at h
  split at h
  next hany =>
    obtain ⟨m, hm, hmatching⟩ := List.any_eq_true.mp hany
    exact ⟨m, (List.mem_filter.mp hm).1, by simpa [matching] using hmatching⟩
  next => cases h

end DirtySet

/-! ### Options -/

structure BindOptions where
  /-- Extensions whose files are taken in as text. -/
  textExtensions : List Str
  attachmentMaxBytes : Nat
  textFileMaxBytes : Nat
  deriving DecidableEq, Repr

def authorizedKeysFile : Str := txt "authorized_keys"

def syncIgnoreFilename : Str := txt ".syncignore"

/-- The last segment is `.syncignore`. -/
def isSyncignorePath (path : Str) : Bool := (path.splitOn '/').getLast? = some syncIgnoreFilename

/-- `Path::extension`: what follows the last dot of the file name, but for a leading one. -/
def extension (path : Str) : Option Str :=
  match (names path).getLast? with
  | none => none
  | some name =>
    if name = ['.', '.'] then none
    else
      match name.reverse.dropWhile (· != '.') with
      | [] | [_] => none
      | _ :: _ => some (name.reverse.takeWhile (· != '.')).reverse

def eqIgnoreAsciiCase (a b : Str) : Bool := a.map Char.toLower = b.map Char.toLower

namespace BindOptions

variable (opts : BindOptions)

def isTextExtension (path : Str) : Bool :=
  if path = authorizedKeysFile || isSyncignorePath path then true
  else
    match extension path with
    | some ext => opts.textExtensions.any fun e => eqIgnoreAsciiCase e ext
    | none => opts.textExtensions.isEmpty

def overSize (path : Str) (size : Nat) : Bool :=
  if opts.isTextExtension path then size > opts.textFileMaxBytes
  else size > opts.attachmentMaxBytes

end BindOptions

/-! ### The binding -/

/-- What a vault asks of the file system its directory is in. -/
structure Filesystem (σ : Type) where
  read : σ → PathBuf → Except Error Bytes
  write : σ → PathBuf → Bytes → σ × Except Error Unit
  delete : σ → PathBuf → σ × Except Error Unit
  /-- `tokio::fs::create_dir_all`. -/
  createDirAll : σ → PathBuf → σ × Except IoError Unit
  /-- `tokio::fs::remove_dir`. -/
  removeDir : σ → PathBuf → σ × Except IoError Unit

/-- What does not change while a directory is bound. -/
structure Setting (σ : Type) where
  crates : Crates
  automerge : Automerge
  blobStore : BlobStore
  root : PathBuf
  opts : BindOptions
  adapter : Filesystem σ

/-- A path of the document, segment by segment below the root. -/
def Setting.vaultPathToFsPath {σ : Type} (V : Setting σ) (vault : Str) : PathBuf :=
  V.root ++ components vault

/-- A vault and the directory it is bound to. -/
structure Bound (σ : Type) where
  doc : Doc
  /-- The disk of the vault's own storage, where its blobs are. -/
  storage : Disk
  fs : σ
  now : Nat
  dirty : DirtySet
  materialized : AList fun _ : Str => Str
  lastIngested : AList fun _ : Str => Str
  materializedDirs : List Str

/-! ### Text of bytes -/

/-- `std::str::from_utf8`. -/
def fromUtf8 (b : Bytes) : Option Str := (b.toByteArray.utf8Decode?).map Array.toList

theorem fromUtf8_utf8 (s : Str) : fromUtf8 (utf8 s) = some s := by
  have h : (utf8 s).toByteArray.utf8Decode? = some s.toArray := List.utf8Decode?_utf8Encode
  rw [fromUtf8, h]
  simp

theorem fromUtf8_eq_some {b : Bytes} {s : Str} : fromUtf8 b = some s ↔ b = utf8 s := by
  refine ⟨fun h => ?_, fun h => h ▸ fromUtf8_utf8 s⟩
  obtain ⟨a, ha, rfl⟩ := Option.map_eq_some_iff.mp h
  have hget := @ByteArray.utf8Encode_get_utf8Decode? b.toByteArray (by rw [ha]; rfl)
  simp only [ha, Option.get_some] at hget
  have hdata := congrArg (fun x => x.data.toList) hget
  simpa [List.utf8Encode, utf8] using hdata.symm

/-! ### Bytes of a text -/

theorem utf8_append (s t : Str) : utf8 (s ++ t) = utf8 s ++ utf8 t := List.flatMap_append

theorem utf8_cons (c : Char) (s : Str) : utf8 (c :: s) = String.utf8EncodeChar c ++ utf8 s := rfl

theorem utf8_inj {s t : Str} (h : utf8 s = utf8 t) : s = t := by
  have h' := congrArg fromUtf8 h
  rw [fromUtf8_utf8, fromUtf8_utf8] at h'
  exact Option.some.inj h'

/-- The first bytes tell the character. -/
theorem utf8EncodeChar_inj {c d : Char} {rest : Bytes}
    (h : String.utf8EncodeChar c = String.utf8EncodeChar d ++ rest) : c = d := by
  have hc := ByteArray.utf8DecodeChar?_utf8EncodeChar_append (b := ByteArray.empty) (c := c)
  have hd := ByteArray.utf8DecodeChar?_utf8EncodeChar_append (b := rest.toByteArray) (c := d)
  rw [ByteArray.append_empty, h, List.toByteArray_append] at hc
  exact Option.some.inj (hc.symm.trans hd)

section

variable {d : Char} {b : UInt8} (hd : String.utf8EncodeChar d = [b])
include hd

/-- No other character has the byte of one that is a single byte. -/
theorem eq_of_utf8EncodeChar {c : Char} {x y : Bytes}
    (h : String.utf8EncodeChar c = x ++ b :: y) : c = d ∧ x = [] ∧ y = [] := by
  have hlt : x.length < (String.utf8EncodeChar c).length := by
    rw [h, List.length_append, List.length_cons]
    omega
  have hb : b.IsUTF8FirstByte := by
    have hfirst := UInt8.isUTF8FirstByte_getElem_zero_utf8EncodeChar (c := d)
    simp only [hd] at hfirst
    exact hfirst
  have hget : (String.utf8EncodeChar c)[x.length] = b := by simp [h]
  have hzero := UInt8.isUTF8FirstByte_getElem_utf8EncodeChar.mp (hget ▸ hb)
  obtain rfl := List.length_eq_zero_iff.mp hzero
  have hcd : String.utf8EncodeChar c = String.utf8EncodeChar d ++ y := h.trans (hd ▸ rfl)
  obtain rfl := utf8EncodeChar_inj hcd
  rw [hd] at h
  exact ⟨rfl, rfl, (List.cons.inj h).2.symm⟩

/-- A text is taken apart at such a byte where it has the character. -/
theorem utf8_eq_append_cons {s : Str} {x y : Bytes} (h : utf8 s = x ++ b :: y) :
    ∃ before after, s = before ++ d :: after ∧ utf8 before = x ∧ utf8 after = y := by
  induction s generalizing x with
  | nil => exact absurd h.symm (by simp [utf8])
  | cons c s ih =>
    rw [utf8_cons] at h
    obtain ⟨z, rfl, hz⟩ | ⟨z, hc, hz⟩ := List.append_eq_append_iff.mp h
    · obtain ⟨before, after, rfl, rfl, rfl⟩ := ih hz
      exact ⟨c :: before, after, rfl, rfl, rfl⟩
    · cases z with
      | nil =>
        obtain ⟨before, after, rfl, hbefore, rfl⟩ := ih (x := []) hz.symm
        refine ⟨c :: before, after, rfl, ?_, rfl⟩
        rw [utf8_cons, hbefore, hc, List.append_nil, List.append_nil]
      | cons b' z =>
        obtain ⟨rfl, rfl⟩ := List.cons.inj hz
        obtain ⟨rfl, rfl, rfl⟩ := eq_of_utf8EncodeChar hd hc
        exact ⟨[], s, rfl, rfl, rfl⟩

theorem mem_of_mem_utf8 {s : Str} (h : b ∈ utf8 s) : d ∈ s := by
  obtain ⟨x, y, hxy⟩ := List.append_of_mem h
  obtain ⟨before, after, rfl, -⟩ := utf8_eq_append_cons hd hxy
  exact List.mem_append_right before List.mem_cons_self

end

end AgentSync
