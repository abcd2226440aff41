import AgentSync.Fs.Adapter

/-! Which files on the disk are the vault's.

An absolute path below the root is a path of the document when it can be normalized and is
allowed. Patterns of the options and the `.syncignore` files of the tree decide what is allowed,
but for the two kinds of file that the vault itself depends on. -/
namespace AgentSync

/-! ### Globs -/

/-- Where a pattern goes on after the star, or the two stars and a slash, at `p`. -/
def skipStars (pat : Bytes) (p : Nat) : Nat :=
  if pat[p]? = some 42 ∧ pat[p + 1]? = some 42 then if pat[p + 2]? = some 47 then p + 3 else p + 2
  else p + 1

/-- The loop of `glob_match`: the last star takes one byte more whenever the rest does not fit. -/
def globLoop (pat s : Bytes) : Nat → Nat → Nat → Option Nat → Nat → Bool
  | 0, _, _, _, _ => false
  | n + 1, pi, si, starPi, starSi =>
    if si < s.length then
      if pat[pi]? = some 42 then globLoop pat s n (skipStars pat pi) si (some pi) si
      else if pi < pat.length ∧ pat[pi]? = s[si]? then
        globLoop pat s n (pi + 1) (si + 1) starPi starSi
      else
        match starPi with
        | some p => globLoop pat s n (skipStars pat p) (starSi + 1) (some p) (starSi + 1)
        | none => false
    else (pat.drop pi).all (· = 42)

def globMatch (pattern path : Str) : Bool :=
  let pat := utf8 pattern
  let s := utf8 path
  globLoop pat s ((s.length + 1) * (pat.length + 1)) 0 0 none 0

def globMatchAny (patterns : List Str) (path : Str) : Bool := patterns.any (globMatch · path)

theorem lt_skipStars (pat : Bytes) (p : Nat) : p < skipStars pat p := by
  unfold skipStars
  split
  · split <;> omega
  · omega

example : globMatch (txt "**/*.md") (txt "x/y/z.md") = true := by decide +kernel

example : globMatch (txt "*.md") (txt "a.txt") = false := by decide +kernel

/-! ### `.syncignore` -/

inductive EntryKind where
  | dir
  | file
  /-- A link, or a special file. -/
  | other
  deriving DecidableEq, Repr

/-- What a `WalkDir` comes to. -/
structure WalkEntry where
  path : PathBuf
  kind : EntryKind
  deriving DecidableEq, Repr

/-- `ignore::Match`. -/
inductive Verdict where
  | none
  | ignore
  | whitelist
  deriving DecidableEq, Repr

structure DirMatcher where
  /-- The directory the `.syncignore` is in. -/
  dir : PathBuf
  depth : Nat
  /-- `matched_path_or_any_parents`. -/
  matcher : PathBuf → Bool → Verdict

structure SyncIgnoreSet where
  vaultRoot : PathBuf
  matchers : List DirMatcher

/-- What the matchers make of a path one after the other, the deepest last. -/
def SyncIgnoreSet.matches (s : SyncIgnoreSet) (vaultRelative : Str) (isDir : Bool) : Bool :=
  let abs := s.vaultRoot.join vaultRelative
  s.matchers.foldl (fun ignored m =>
    if m.dir.isPrefixOf abs then
      match m.matcher abs isDir with
      | .ignore => true
      | .whitelist => false
      | .none => ignored
    else ignored) false

/-- `Path::strip_prefix`. -/
def PathBuf.stripPrefix (p base : PathBuf) : Option PathBuf :=
  if base.isPrefixOf p then some (p.drop base.length) else none

/-- What the handler of the watcher's events asks besides. Walking a tree and reading patterns is
the work of other crates, and comes without what they fail at. -/
structure Watching (σ : Type) extends Setting σ where
  includePatterns : List Str
  /-- `exists` of the adapter. -/
  present : σ → PathBuf → Bool
  /-- Whether it is a directory, by `fs::metadata`. -/
  isDir : σ → PathBuf → Option Bool
  /-- `WalkDir`. -/
  walk : σ → PathBuf → List WalkEntry
  /-- `GitignoreBuilder`, with one file. -/
  gitignore : σ → PathBuf → Option (PathBuf → Bool → Verdict)

def alwaysExcludedTopSegments : List Str := [txt ".agentsync", txt ".git"]

def alwaysExcluded (path : Str) : Bool :=
  alwaysExcludedTopSegments.contains ((path.splitOn '/').headD [])

/-- The names of directories that are not searched for `.syncignore` files. -/
def skippedDirs : List Str := [txt ".git", txt ".agentsync", txt "node_modules"]

theorem Path.Segment.isName {N : Nfc} {seg : Str} (h : Path.Segment N seg) : IsName seg :=
  ⟨h.ne_nil, h.ne_dot, h.ne_dotdot⟩

theorem names_of_normalized {N : Nfc} {path : Str} (h : Path.Normalized N path) :
    names path = path.splitOn '/' :=
  names_eq fun seg hseg => (h.segments seg hseg).isName

/-- The disk takes a path of the document apart at its slashes. -/
theorem components_of_normalized {N : Nfc} {path : Str}
    (h : Path.Normalized N path) :
    components path = path.splitOn '/' :=
  components_of_names (List.splitOn_ne_nil _ _) fun seg hseg => (h.segments seg hseg).isName

/-- Where a path of the document is. -/
theorem resolve_vaultPathToFsPath {σ : Type} {V : Setting σ} {path : Str}
    (h : Path.Normalized V.crates.nfc path) :
    (V.vaultPathToFsPath path).resolve = V.root.resolve ++ path.splitOn '/' := by
  rw [Setting.vaultPathToFsPath, components_of_normalized h]
  exact resolve_append fun seg hseg => (h.segments seg hseg).isName

namespace Watching

variable {σ : Type} (V : Watching σ)

/-- The walk of `from_vault_root` leaves out what is in a skipped directory. -/
def isSkipped (path : PathBuf) : Bool :=
  (path.drop V.root.length).any skippedDirs.contains

/-- The matcher of one `.syncignore` file. -/
def dirMatcher (fs : σ) (path : PathBuf) : Option DirMatcher :=
  (V.gitignore fs path).map fun matcher =>
    ⟨path.dropLast, ((PathBuf.stripPrefix path.dropLast V.root).getD []).length, matcher⟩

/-- `SyncIgnoreSet::from_vault_root`. -/
def syncIgnoreSet (fs : σ) : SyncIgnoreSet where
  vaultRoot := V.root
  matchers :=
    if V.isDir fs V.root = some true then
      (((V.walk fs V.root).filter fun e => !V.isSkipped e.path && e.kind = .file &&
        e.path.fileName = some syncIgnoreFilename).filterMap fun e =>
          V.dirMatcher fs e.path).insertionSort fun m n => m.depth ≤ n.depth
    else []

/-! ### Paths of the document -/

def pathAllowed (s : SyncIgnoreSet) (path : Str) : Bool :=
  if alwaysExcluded path then false
  else if path = authorizedKeysFile || isSyncignorePath path then true
  else if s.matches path false then false
  else if !V.includePatterns.isEmpty && !globMatchAny V.includePatterns path then false
  else true

/-- Patterns to include are for files only. -/
def dirPathAllowed (_ : Watching σ) (s : SyncIgnoreSet) (path : Str) : Bool :=
  if alwaysExcluded path then false else !s.matches path true

/-- An absolute path below the root, relative to it and normalized. -/
def vaultRelative (abs : PathBuf) : Option Str := do
  let rel ← abs.stripPrefix V.root
  if rel = [] then none
  else
    match Path.normalize V.crates.nfc
        ((Path.joinSlash rel).map fun c => if c = '\\' then '/' else c) with
    | .ok path => some path
    | .error _ => none

def fsPathToVaultPath (s : SyncIgnoreSet) (abs : PathBuf) : Option Str := do
  let path ← V.vaultRelative abs
  if V.pathAllowed s path then some path else none

def fsPathToVaultDirPath (s : SyncIgnoreSet) (abs : PathBuf) : Option Str := do
  let path ← V.vaultRelative abs
  if V.dirPathAllowed s path then some path else none

variable {V} {s : SyncIgnoreSet} {abs : PathBuf} {path : Str}

theorem vaultRelative_of_vaultPath (h : V.fsPathToVaultPath s abs = some path) :
    V.vaultRelative abs = some path ∧ V.pathAllowed s path = true := by
  obtain ⟨p, hp, h⟩ := Option.bind_eq_some_iff.mp h
  split at h
  next hallowed => exact ⟨Option.some.inj h ▸ hp, Option.some.inj h ▸ hallowed⟩
  next => cases h

theorem vaultRelative_of_vaultDirPath (h : V.fsPathToVaultDirPath s abs = some path) :
    V.vaultRelative abs = some path ∧ V.dirPathAllowed s path = true := by
  obtain ⟨p, hp, h⟩ := Option.bind_eq_some_iff.mp h
  split at h
  next hallowed => exact ⟨Option.some.inj h ▸ hp, Option.some.inj h ▸ hallowed⟩
  next => cases h

/-- **What is taken in has a path that the document leaves alone.** -/
theorem normalized_vaultRelative (h : V.vaultRelative abs = some path) :
    Path.Normalized V.crates.nfc path := by
  obtain ⟨rel, -, h⟩ := Option.bind_eq_some_iff.mp h
  split at h
  next => cases h
  next =>
    split at h
    next p hp =>
      obtain rfl := Option.some.inj h
      exact Path.normalized_of_normalize hp
    next => cases h

theorem normalized_vaultPath (h : V.fsPathToVaultPath s abs = some path) :
    Path.Normalized V.crates.nfc path :=
  normalized_vaultRelative (vaultRelative_of_vaultPath h).1

theorem normalized_vaultDirPath (h : V.fsPathToVaultDirPath s abs = some path) :
    Path.Normalized V.crates.nfc path :=
  normalized_vaultRelative (vaultRelative_of_vaultDirPath h).1

/-! ### There and back -/

/-- **A path of the document is that of the file it is written to.** -/
theorem vaultRelative_vaultPathToFsPath (h : Path.Normalized V.crates.nfc path) :
    V.vaultRelative (V.vaultPathToFsPath path) = some path := by
  have hstrip : PathBuf.stripPrefix (V.vaultPathToFsPath path) V.root
      = some (path.splitOn '/') := by
    simp [Setting.vaultPathToFsPath, PathBuf.stripPrefix, components_of_normalized h]
  have hunified : (path.map fun c => if c = '\\' then '/' else c) = path := by
    refine (List.map_congr_left fun c hc => if_neg ?_).trans (List.map_id _)
    rintro rfl
    rw [← Path.joinSlash_splitOn path] at hc
    obtain hslash | ⟨seg, hseg, hc⟩ := Path.mem_joinSlash hc
    · cases hslash
    · exact (h.segments seg hseg).backslash hc
  have hnormalize : Path.normalize V.crates.nfc path = .ok path := h
  simp only [vaultRelative, hstrip, Option.bind_eq_bind, Option.bind_some,
    List.splitOn_ne_nil, if_false, Path.joinSlash_splitOn, hunified, hnormalize]

end Watching

end AgentSync
