import AgentSync.Store.Labels
import AgentSync.Store.Snapshots

/-! Heads as bytes and as text.

The document keeps the heads of a label as bytes. The two indexes, `b64_heads` and the listing for
the browser write them as base64, each with a loop of its own. A decoder reads an encoder when it
accepts what that one writes and nothing else (`Reads`); the two decoders read all of them. -/
namespace AgentSync

/-! ### Decoders and what they read -/

/-- The decoder takes exactly what the encoder writes, for what it is written for. -/
def Reads {α β ε : Type} (encode : α → β) (decode : β → Except ε α) : Prop :=
  ∀ b a, decode b = .ok a ↔ b = encode a

namespace Reads

variable {α β ε : Type} {encode : α → β} {decode : β → Except ε α}

theorem decode_encode (h : Reads encode decode) (a : α) : decode (encode a) = .ok a :=
  (h _ a).mpr rfl

end Reads

/-! ### The encoders -/

/-- The loop `for h in heads`, which appends the bytes of each hash. -/
def extendFromHeads (bytes : Bytes) : List ChangeHash → Bytes
  | [] => bytes
  | h :: rest => extendFromHeads (bytes ++ h.val) rest

theorem extendFromHeads_eq (bytes : Bytes) (heads : List ChangeHash) :
    extendFromHeads bytes heads = bytes ++ Doc.encodeHeads heads := by
  induction heads generalizing bytes with
  | nil => exact (List.append_nil bytes).symm
  | cons h rest ih =>
    rw [extendFromHeads, ih, List.append_assoc]
    rfl

theorem extendFromHeads_nil (heads : List ChangeHash) :
    extendFromHeads [] heads = Doc.encodeHeads heads := extendFromHeads_eq [] heads

/-- `b64_heads` of the document's history. -/
def Doc.b64Heads (heads : List ChangeHash) : Str := Base64.encodeNoPad (Doc.encodeHeads heads)

/-- The text that `SnapshotIndex::write` puts into an entry. -/
def SnapshotIndex.writtenHeads (heads : List ChangeHash) : Str :=
  Base64.encodeNoPad (extendFromHeads [] heads)

theorem SnapshotIndex.entryOf_heads (l : Doc.Label) :
    (SnapshotIndex.entryOf l).heads = SnapshotIndex.writtenHeads l.heads := by
  rw [SnapshotIndex.writtenHeads, extendFromHeads_nil]
  rfl

namespace Wasm

def encodeHeadsB64 (heads : List ChangeHash) : Str := Base64.encodeNoPad (extendFromHeads [] heads)

structure LabelJson where
  name : Str
  headsB64 : Str
  createdAtMs : Int
  deriving DecidableEq, Repr

/-- What `list_labels` hands to the browser. -/
def labelsJson (labels : List Doc.Label) : List LabelJson :=
  labels.map fun l => ⟨l.name, encodeHeadsB64 l.heads, l.createdAt⟩

end Wasm

/-! ### The decoders -/

theorem Doc.reads_decodeHeads : Reads Doc.encodeHeads Doc.decodeHeads := by
  intro b heads
  constructor
  · intro h
    unfold Doc.decodeHeads at h
    split at h
    next => cases h
    next hlen =>
      obtain rfl := Except.ok.inj h
      exact (Doc.encodeHeads_chunks (by omega)).symm
  · intro h
    rw [h, Doc.decodeHeads_encodeHeads]

theorem Doc.decodeHeads_isOk_iff {b : Bytes} :
    (∃ heads, Doc.decodeHeads b = .ok heads) ↔ 32 ∣ b.length := by
  rw [Nat.dvd_iff_mod_eq_zero]
  constructor
  · intro h
    obtain ⟨heads, h⟩ := h
    rw [(Doc.reads_decodeHeads b heads).mp h, Doc.length_encodeHeads, Nat.mul_mod_right]
  · intro h
    exact ⟨_, if_neg (not_not_intro h)⟩

variable {F : NativeSnapshotStorage.Formats}

theorem reads_b64Heads : Reads Doc.b64Heads (NativeSnapshotStorage.decodeB64Heads F) := fun _ _ =>
  NativeSnapshotStorage.decodeB64Heads_eq_ok

/-- A decoder of text is the decoder of bytes behind base64. -/
theorem decodeB64Heads_iff_decodeHeads {s : Str} {heads : List ChangeHash} :
    NativeSnapshotStorage.decodeB64Heads F s = .ok heads ↔
      ∃ b, Base64.decodeNoPad s = some b ∧ Doc.decodeHeads b = .ok heads := by
  rw [reads_b64Heads s heads]
  constructor
  · intro h
    exact ⟨_, Base64.decodeNoPad_eq_some.mpr h, Doc.decodeHeads_encodeHeads heads⟩
  · intro h
    obtain ⟨b, hb, hheads⟩ := h
    rw [Base64.decodeNoPad_eq_some.mp hb, (Doc.reads_decodeHeads b heads).mp hheads]
    rfl

/-- **One codec of heads.** The bytes are taken apart where their length is a multiple of 32, and
then they are the bytes of what comes out. All who write heads as text write the same text, and
`decode_b64_heads` takes that and nothing else, so that a label is read from either index as it
was written. -/
theorem heads_codec (F : NativeSnapshotStorage.Formats) :
    (∀ heads, Doc.decodeHeads (Doc.encodeHeads heads) = .ok heads) ∧
    (∀ b, (∃ heads, Doc.decodeHeads b = .ok heads) ↔ 32 ∣ b.length) ∧
    (∀ b heads, Doc.decodeHeads b = .ok heads ↔ Doc.encodeHeads heads = b) ∧
    (∀ heads, SnapshotIndex.writtenHeads heads = Doc.b64Heads heads ∧
      NativeSnapshotStorage.encodeHeads heads = Doc.b64Heads heads ∧
      Wasm.encodeHeadsB64 heads = Doc.b64Heads heads ∧
      Base64.decodeNoPad (Doc.b64Heads heads) = some (Doc.encodeHeads heads)) ∧
    (∀ text heads, NativeSnapshotStorage.decodeB64Heads F text = .ok heads ↔
      text = Doc.b64Heads heads) ∧
    (∀ text heads, NativeSnapshotStorage.decodeB64Heads F text = .ok heads ↔
      ∃ b, Base64.decodeNoPad text = some b ∧ Doc.decodeHeads b = .ok heads) ∧
    ∀ l : Doc.Label,
      NativeSnapshotStorage.fromDisk F ⟨l.name, (SnapshotIndex.entryOf l).heads, l.createdAt⟩ =
        ⟨l.name, l.heads, l.createdAt⟩ ∧
      (NativeSnapshotStorage.toDisk ⟨l.name, l.heads, l.createdAt⟩).heads =
        (SnapshotIndex.entryOf l).heads ∧
      Wasm.labelsJson [l] = [⟨l.name, (SnapshotIndex.entryOf l).heads, l.createdAt⟩] := by
  have hwasm (heads : List ChangeHash) : Wasm.encodeHeadsB64 heads = Doc.b64Heads heads := by
    rw [Wasm.encodeHeadsB64, extendFromHeads_nil]
    rfl
  have hwritten (heads : List ChangeHash) :
      SnapshotIndex.writtenHeads heads = Doc.b64Heads heads := by
    rw [SnapshotIndex.writtenHeads, extendFromHeads_nil]
    rfl
  refine ⟨Doc.reads_decodeHeads.decode_encode, fun b => Doc.decodeHeads_isOk_iff, ?_, ?_,
    reads_b64Heads, fun text heads => decodeB64Heads_iff_decodeHeads, ?_⟩
  · intro b heads
    rw [Doc.reads_decodeHeads b heads, eq_comm]
  · intro heads
    exact ⟨hwritten heads, rfl, hwasm heads, Base64.decodeNoPad_encodeNoPad _⟩
  · intro l
    have hentry : (SnapshotIndex.entryOf l).heads = Doc.b64Heads l.heads := by
      rw [SnapshotIndex.entryOf_heads, hwritten]
    rw [hentry, Wasm.labelsJson, List.map_singleton, hwasm]
    exact ⟨NativeSnapshotStorage.fromDisk_toDisk ⟨l.name, l.heads, l.createdAt⟩, rfl, rfl⟩

end AgentSync
