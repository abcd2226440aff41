import AgentSync.Doc.Write

/-! Histories, labels and restoring.

A document's content is what Automerge makes of its changes (`Automerge.view`).
`restore_to_heads` forks the document at the heads and writes, as one forward change,
what it takes for the live entries to be the fork's. -/
namespace AgentSync

/-! ### Automerge -/

/-- The Automerge library. A change that depends on all the others acts on their content
in sequence. What a register holds after any merge is what one change left there; its
other registers in the same objects are still set unless somebody deleted them. -/
structure Automerge where
  view : List Change → Root
  /-- The hash of the schema's first change, which depends on the vault id only. -/
  genesis : Str → ChangeHash
  /-- The text of the error for heads that are not in the history. -/
  missingHash : Str
  view_nil : view [] = ∅
  view_commit : ∀ S c, c.deps = headsOf S → view (S ++ [c]) = applyAll (view S) c.ops
  origin : ∀ S a v, a.isContent = false → (view S).get a = some v →
    ∃ c ∈ S, (footprint c.ops).get a = some v ∧
      ∀ b, b.isContent = false → b.ancestors ⊆ a :: a.ancestors →
        (footprint c.ops).get b ≠ none → (∀ c' ∈ S, Op.delete b ∉ c'.ops) →
        (view S).get b ≠ none

/-- The changes that `wanted` depends on, latest first. -/
def upTo : List Change → List ChangeHash → List Change
  | [], _ => []
  | c :: rest, wanted =>
    if wanted.contains c.hash then c :: upTo rest (c.deps ++ wanted) else upTo rest wanted

namespace Doc

variable (L : Crates) (A : Automerge)

/-- What the schema starts with. -/
def genesisOps (vaultId : Str) : List Op :=
  [.put .schemaVersion (.int 1), .put .vaultId (.str vaultId),
    .putMap (.rootMap .directories), .putMap (.rootMap .files), .putMap (.rootMap .labels)]

/-- `Doc::new`. -/
def new (vaultId : Str) (supply : Supply) : Doc where
  changes := [⟨A.genesis vaultId, [], 0, genesisOps vaultId⟩]
  pending := []
  root := footprint (genesisOps vaultId)
  supply := supply
  draws := 0

/-- A document that holds the given changes. -/
def ofChanges (changes : List Change) (supply : Supply) (draws : Nat) : Doc :=
  ⟨changes, [], A.view changes, supply, draws⟩

/-- `fork_at`, for a document whose transaction is closed. -/
def forkAt (d : Doc) (heads : List ChangeHash) : Except Error Doc :=
  if heads.all fun h => d.changes.any fun c => c.hash = h then
    .ok (ofChanges A (upTo d.changes.reverse heads).reverse d.supply d.draws)
  else .error (.other (txt "fork_at failed: " ++ A.missingHash))

/-- `merge`, which closes both transactions first. -/
def merge (d other : Doc) : Doc :=
  let d := d.committed 0
  let other := other.committed 0
  ofChanges A
    (d.changes ++ other.changes.filter fun c => !(d.changes.any fun c' => c'.hash = c.hash))
    d.supply d.draws

/-! ### Labels -/

structure Label where
  name : Str
  heads : List ChangeHash
  createdAt : Int
  deriving DecidableEq

def encodeHeads (heads : List ChangeHash) : Bytes := heads.flatMap Subtype.val

/-- The 32-byte chunks of `decode_heads`. -/
def chunks (fuel : Nat) (b : Bytes) : List ChangeHash :=
  match fuel with
  | 0 => []
  | fuel + 1 =>
    match Array32.ofBytes? (b.take 32) with
    | some h => h :: chunks fuel (b.drop 32)
    | none => []

def decodeHeads (b : Bytes) : Except Error (List ChangeHash) :=
  if b.length % 32 ≠ 0 then
    .error (.other (txt "encoded heads length not multiple of 32: " ++ (toString b.length).toList))
  else .ok (chunks (b.length / 32) b)

theorem length_encodeHeads (heads : List ChangeHash) : (encodeHeads heads).length = 32 * heads.length := by
  induction heads with
  | nil => rfl
  | cons h rest ih =>
    rw [encodeHeads, List.flatMap_cons, List.length_append, h.property, ← encodeHeads, ih,
      List.length_cons]
    omega

theorem chunks_encodeHeads (heads : List ChangeHash) :
    chunks heads.length (encodeHeads heads) = heads := by
  induction heads with
  | nil => rfl
  | cons h rest ih =>
    have htake : (encodeHeads (h :: rest)).take 32 = h.val := List.take_left' h.property
    have hdrop : (encodeHeads (h :: rest)).drop 32 = encodeHeads rest := List.drop_left' h.property
    rw [List.length_cons, chunks, htake, Array32.ofBytes?_val, hdrop, ih]

theorem encodeHeads_chunks {n : Nat} {b : Bytes} (hb : b.length = 32 * n) :
    encodeHeads (chunks n b) = b := by
  induction n generalizing b with
  | zero => exact (List.eq_nil_of_length_eq_zero hb).symm
  | succ n ih =>
    have htake : (b.take 32).length = 32 := by
      rw [List.length_take]
      omega
    have hdrop : (b.drop 32).length = 32 * n := by
      rw [List.length_drop]
      omega
    have hhead : Array32.ofBytes? (b.take 32) = some ⟨b.take 32, htake⟩ := dif_pos htake
    rw [chunks, hhead, encodeHeads, List.flatMap_cons, ← encodeHeads, ih hdrop,
      List.take_append_drop]

/-- Heads that are written are read. -/
theorem decodeHeads_encodeHeads (heads : List ChangeHash) :
    decodeHeads (encodeHeads heads) = .ok heads := by
  have hlen := length_encodeHeads heads
  rw [decodeHeads, if_neg (by omega), hlen, Nat.mul_div_cancel_left _ (by decide),
    chunks_encodeHeads]

def createLabel (label : Str) : DocM Unit := do
  read (Root.mapObj · .labels)
  let heads ← heads
  read (Root.writable L · (.rootMap .labels))
  let now ← nowMs
  emit [.putMap (.label label), .put (.labelField label .heads) (.bytes (encodeHeads heads)),
    .put (.labelField label .createdAt) (.int now)]
  commitNow

def deleteLabel (label : Str) : DocM Unit := do
  read (Root.mapObj · .labels)
  read (Root.writable L · (.rootMap .labels))
  emit [.delete (.label label)]
  commitNow

/-- One entry of `list_labels`. -/
def readLabel (r : Root) (name : Str) : Except Error (Option Label) :=
  match r.get (.label name) with
  | some (.scalar (.bytes b)) => do return some ⟨name, ← decodeHeads b, 0⟩
  | some (.scalar _) | none => .ok none
  | some _ =>
    match r.get (.labelField name .heads) with
    | some (.scalar (.bytes b)) => do
      let createdAt := (← r.getInt L (.labelField name .createdAt)).getD 0
      return some ⟨name, ← decodeHeads b, createdAt⟩
    | _ => .ok none

def labelsIn (r : Root) : List Str → Except Error (List Label)
  | [] => .ok []
  | name :: rest => do
    let label ← readLabel L r name
    return label.toList ++ (← labelsIn r rest)

def listLabels (r : Root) : Except Error (List Label) := do
  r.mapObj .labels
  let labels ← labelsIn L r r.labelKeys
  return labels.insertionSort fun a b => a.name ≤ b.name

/-! ### Restoring -/

/-- The first loop of `restore_to_heads`: a file that is live now and was not then. -/
def killFile (now : Int) (past : List FileMeta) (fid : Str) : DocM Unit := do
  let entry ← read (Root.readFileMeta L · fid)
  let aliveNow := (entry.map fun m => m.deletedAt.isNone).getD false
  if aliveNow && !past.any fun m => m.id = fid && m.deletedAt.isNone then
    read (Root.mapObj · .files)
    if ← ask (Root.hasObject · (.file fid)) then
      if ← ask (Root.hasObject · (.fileMeta fid)) then
        emit [.put (.fileField fid .deletedAt) (.int now)]
      else pure ()
    else pure ()
  else pure ()

/-- The maps of an entry that are not there yet. -/
def missingMaps (r : Root) (fid : Str) : List Op :=
  if r.hasObject (.file fid) then
    if r.hasObject (.fileMeta fid) then [] else [.putMap (.fileMeta fid)]
  else [.putMap (.file fid), .putMap (.fileMeta fid)]

/-- The object the first of a restored entry's writes goes into. -/
def restoreTarget (r : Root) (fid : Str) : Addr :=
  if r.hasObject (.file fid) then
    if r.hasObject (.fileMeta fid) then .fileMeta fid else .file fid
  else .rootMap .files

/-- The body of a restored entry, given what its content is now. -/
def restoreBody (m : FileMeta) (target : Str) (current : Option Str) : List Op :=
  match m.kind with
  | .text => setTextOps m.id target current
  | .attachment =>
    match m.binaryHash with
    | some h => [.put (.binaryHash m.id) (.str h)]
    | none => []

/-- The writes of the second loop for one entry. An entry whose maps are made anew has no
content left. -/
def restoreOps (r : Root) (now : Int) (m : FileMeta) (target : Str) : List Op :=
  missingMaps r m.id ++
    [.put (.fileField m.id .path) (.str m.path),
      .put (.fileField m.id .kind) (.str m.kind.asStr),
      .put (.fileField m.id .size) (.int m.size),
      .put (.fileField m.id .createdAt) (.int m.createdAt),
      .put (.fileField m.id .updatedAt) (.int now),
      .delete (.fileField m.id .deletedAt)] ++
    restoreBody m target (if r.hasObject (.file m.id) then r.getText m.id else none)

/-- The second loop: a file that was live then, with its text if it was one. -/
def restoreFile (now : Int) (text : Str → Str) (m : FileMeta) : DocM Unit := do
  if m.deletedAt.isSome then pure ()
  else
    read (Root.mapObj · .files)
    read fun r => r.writable L (restoreTarget r m.id)
    emit (restoreOps (← ask id) now m (text m.id))

/-- The third loop: a directory that is live now and was not then. -/
def killDirectory (now : Int) (past : List DirectoryMeta) (did : Str) : DocM Unit := do
  read (Root.mapObj · .directories)
  let aliveNow ← if ← ask (Root.hasObject · (.dir did)) then
      pure (← read (Root.getInt L · (.dirField did .deletedAt))).isNone
    else pure false
  if aliveNow && !past.any fun m => m.id = did && m.deletedAt.isNone then
    markDirectory L now did
  else pure ()

/-- The fourth loop: a directory that was live then. -/
def restoreDirectory (m : DirectoryMeta) : DocM Unit := do
  if m.deletedAt.isSome then pure ()
  else
    read (Root.mapObj · .directories)
    read fun r => r.writable L (if r.hasObject (.dir m.id) then .dir m.id else .rootMap .directories)
    let r ← ask id
    emit ((if r.hasObject (.dir m.id) then [] else [.putMap (.dir m.id)]) ++
      [.put (.dirField m.id .path) (.str m.path),
        .put (.dirField m.id .createdAt) (.int m.createdAt),
        .delete (.dirField m.id .deletedAt)])

/-- The texts of the past files; a failed read leaves a file out. -/
def pastText (past : Root) (fid : Str) : Str :=
  match past.readFileId fid with
  | .ok (some text) => text
  | _ => []

/-- `fork_at` on the document at hand. -/
def fork (heads : List ChangeHash) : DocM Doc := fun d =>
  match forkAt A d heads with
  | .ok past => .ok past d
  | .error e => .error e d

/-- The four loops. The source keeps the past entries in hash maps by id; ids are distinct,
and the order in which entries are restored does not matter to the content. -/
def restoreEntries (now : Int) (pastFiles : List FileMeta) (pastDirs : List DirectoryMeta)
    (text : Str → Str) : DocM Unit := do
  read (Root.mapObj · .files)
  read (Root.mapObj · .directories)
  let files ← ask Root.fileKeys
  let dirs ← ask Root.dirKeys
  files.forM (killFile L now pastFiles)
  pastFiles.forM (restoreFile L now text)
  dirs.forM (killDirectory L now pastDirs)
  pastDirs.forM (restoreDirectory L)
  commitNow

def restoreToHeads (heads : List ChangeHash) : DocM Unit := do
  let _ ← Doc.heads
  let past ← fork A heads
  let pastFiles ← lift (past.root.listFiles L)
  let pastDirs ← lift (past.root.listDirectories L)
  let now ← nowMs
  restoreEntries L now pastFiles pastDirs (pastText past.root)

/-- `get_changes` closes the transaction. -/
def headsAtTime (target : Int) : DocM (List ChangeHash) := do
  let _ ← heads
  fun d =>
    let included := d.changes.filter fun c => c.timestamp ≤ target
    .ok ((included.map Change.hash).filter fun h => !included.any fun c => c.deps.contains h) d

def restoreToTime (target : Int) : DocM Unit := do
  let heads ← headsAtTime target
  restoreToHeads L A heads

end Doc

end AgentSync
