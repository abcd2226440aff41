import Mathlib.Data.List.AList
import Mathlib.Data.List.DropRight
import AgentSync.Basic

/-! A POSIX disk without links.

A path is the list of components the system walks, `..` among them. `.` and empty components are
gone but for the last: a path that ends in a slash or in `/.` leads to a directory or nowhere.
Walking a path needs a directory at every step, so `a/..` exists only when `a` does. -/
namespace AgentSync

/-- An absolute `PathBuf`, as its components. -/
abbrev PathBuf := List Str

/-- Where a path leads once `..` is resolved. -/
abbrev Location := List Str

/-- A component that is no name: it leads where it stands. -/
def isBlank (c : Str) : Bool := c = [] || c = ['.']

/-- The components of `std::path`, of a relative path or of what follows the leading slash. -/
def names (path : Str) : List Str := (path.splitOn '/').filter fun c => !isBlank c

/-- The slash, or the dot behind one, that a path ends in. -/
def ending (path : Str) : List Str :=
  let segs := path.splitOn '/'
  if (segs.rdropWhile (· == [])).getLast? = some ['.'] then [['.']]
  else if segs.getLast? = some [] then [[]]
  else []

/-- What the system walks of a relative path or of what follows the leading slash. -/
def components (path : Str) : List Str := names path ++ ending path

/-- `Path::join`: an absolute argument replaces the path. -/
def PathBuf.join (p : PathBuf) (path : Str) : PathBuf :=
  if path.head? = some '/' then components path else p ++ components path

/-- `Path::parent`, of a path of the vault: the last name is gone, and what is behind it. -/
def PathBuf.parent (p : PathBuf) : PathBuf := (p.rdropWhile isBlank).dropLast

/-- `Path::file_name`. -/
def PathBuf.fileName (p : PathBuf) : Option Str :=
  (p.rdropWhile isBlank).getLast?.bind fun name => if name = ['.', '.'] then none else some name

/-- One step of a walk. -/
def Location.child (l : Location) (c : Str) : Location :=
  if c = ['.', '.'] then l.dropLast else if isBlank c then l else l ++ [c]

/-- `path` with `..` resolved as if every component were a directory. -/
def PathBuf.resolve (p : PathBuf) : Location := p.foldl Location.child []

/-- A component that leads one level down. -/
structure IsName (c : Str) : Prop where
  ne_nil : c ≠ []
  ne_dot : c ≠ ['.']
  ne_dotdot : c ≠ ['.', '.']

theorem isName_of_not_isBlank {c : Str} (h : isBlank c = false) (hdots : c ≠ ['.', '.']) :
    IsName c := by
  refine ⟨?_, ?_, hdots⟩
  · rintro rfl
    cases h
  · rintro rfl
    cases h

theorem IsName.isBlank {c : Str} (h : IsName c) : isBlank c = false := by
  simp [AgentSync.isBlank, h.ne_nil, h.ne_dot]

theorem IsName.child {c : Str} (h : IsName c) (l : Location) : l.child c = l ++ [c] := by
  rw [Location.child, if_neg h.ne_dotdot, h.isBlank, if_neg Bool.false_ne_true]

theorem child_of_isBlank {c : Str} (h : isBlank c = true) (l : Location) : l.child c = l := by
  have hdots : c ≠ ['.', '.'] := by
    rintro rfl
    cases h
  rw [Location.child, if_neg hdots, if_pos h]

/-- Names lead down. -/
theorem resolve_append {p : PathBuf} {segs : List Str} (h : ∀ seg ∈ segs, IsName seg) :
    PathBuf.resolve (p ++ segs) = p.resolve ++ segs := by
  induction segs generalizing p with
  | nil => simp
  | cons seg rest ih =>
    have hseg : PathBuf.resolve (p ++ [seg]) = p.resolve ++ [seg] := by
      rw [PathBuf.resolve, List.foldl_append]
      exact (h seg List.mem_cons_self).child _
    have hrest := ih (p := p ++ [seg]) fun seg' hseg' => h seg' (List.mem_cons_of_mem _ hseg')
    rwa [hseg, List.append_assoc, List.append_assoc] at hrest

theorem names_eq {path : Str} (h : ∀ seg ∈ path.splitOn '/', IsName seg) :
    names path = path.splitOn '/' :=
  List.filter_eq_self.mpr fun seg hseg => by simp [(h seg hseg).isBlank]

/-- A path that is nothing but names. -/
theorem components_of_names {path : Str} (hne : path.splitOn '/' ≠ [])
    (h : ∀ seg ∈ path.splitOn '/', IsName seg) : components path = path.splitOn '/' := by
  have hlast := h _ (List.getLast_mem hne)
  have hending : ending path = [] := by
    have hkeep : (path.splitOn '/').rdropWhile (· == []) = path.splitOn '/' :=
      List.rdropWhile_eq_self_iff.mpr fun hne => by simpa using (h _ (List.getLast_mem hne)).ne_nil
    rw [ending, hkeep, List.getLast?_eq_some_getLast hne]
    simp [hlast.ne_dot, hlast.ne_nil]
  rw [components, names_eq h, hending, List.append_nil]

/-- What is behind the last name leads nowhere else. -/
theorem resolve_rdropWhile (p : PathBuf) : PathBuf.resolve (p.rdropWhile isBlank) = p.resolve := by
  induction p using List.reverseRecOn with
  | nil => rfl
  | append_singleton p c ih =>
    cases hc : isBlank c with
    | true =>
      rw [List.rdropWhile_concat_pos _ _ _ hc, ih, PathBuf.resolve, PathBuf.resolve,
        List.foldl_append]
      exact (child_of_isBlank hc _).symm
    | false => rw [List.rdropWhile_concat_neg _ _ _ (by simp [hc])]

theorem rdropWhile_blanks {p rest : PathBuf} (h : ∀ c ∈ rest, isBlank c = true) :
    (p ++ rest).rdropWhile isBlank = p.rdropWhile isBlank := by
  induction rest using List.reverseRecOn with
  | nil => rw [List.append_nil]
  | append_singleton rest c ih =>
    rw [← List.append_assoc, List.rdropWhile_concat_pos _ _ _ (h c (by simp))]
    exact ih fun c' hc' => h c' (List.mem_append_left _ hc')

theorem isBlank_of_mem_ending {path c : Str} (h : c ∈ ending path) : isBlank c = true := by
  unfold ending at h
  dsimp only at h
  split at h
  next => exact List.mem_singleton.mp h ▸ rfl
  next =>
    split at h
    next => exact List.mem_singleton.mp h ▸ rfl
    next => cases h

theorem isBlank_of_mem_names {path c : Str} (h : c ∈ names path) : isBlank c = false := by
  simpa using (List.mem_filter.mp h).2

/-- The names of a path are what there is to it before what it ends in. -/
theorem rdropWhile_components (path : Str) :
    (components path).rdropWhile isBlank = names path := by
  rw [components, rdropWhile_blanks fun c hc => isBlank_of_mem_ending hc]
  refine List.rdropWhile_eq_self_iff.mpr fun hne => ?_
  rw [isBlank_of_mem_names (List.getLast_mem hne)]
  exact Bool.false_ne_true

theorem rdropWhile_append_components {path : Str} (h : names path ≠ []) (p : PathBuf) :
    (p ++ components path).rdropWhile isBlank = p ++ names path := by
  rw [components, ← List.append_assoc, rdropWhile_blanks fun c hc => isBlank_of_mem_ending hc]
  refine List.rdropWhile_eq_self_iff.mpr fun hne => ?_
  rw [List.getLast_append_of_ne_nil hne h, isBlank_of_mem_names (List.getLast_mem h)]
  exact Bool.false_ne_true

theorem PathBuf.fileName_concat {c : Str} (h : IsName c) (p : PathBuf) :
    PathBuf.fileName (p ++ [c]) = some c := by
  rw [PathBuf.fileName, List.rdropWhile_concat_neg _ _ _ (by simp [h.isBlank]),
    List.getLast?_concat]
  exact if_neg h.ne_dotdot

/-- The path ends in `/.`, with slashes behind it or not. -/
def PathBuf.endsInDot (p : PathBuf) : Bool := (p.rdropWhile (· == [])).getLast? = some ['.']

theorem PathBuf.parent_isPrefix (p : PathBuf) : p.parent <+: p :=
  (List.dropLast_prefix _).trans (List.rdropWhile_prefix _ _)

inductive IoError where
  | notFound
  | alreadyExists
  | notADirectory
  | isADirectory
  | directoryNotEmpty
  | invalidInput
  | invalidArgument
  | busy
  /-- Whatever else the system reports. -/
  | other (text : Str)
  deriving DecidableEq, Repr

/-- What `std::io::Error` displays. -/
def IoError.text : IoError → Str
  | .notFound => txt "No such file or directory (os error 2)"
  | .alreadyExists => txt "File exists (os error 17)"
  | .notADirectory => txt "Not a directory (os error 20)"
  | .isADirectory => txt "Is a directory (os error 21)"
  | .directoryNotEmpty => txt "Directory not empty (os error 39)"
  | .invalidInput => txt "file name contained an unexpected NUL byte"
  | .invalidArgument => txt "Invalid argument (os error 22)"
  | .busy => txt "Device or resource busy (os error 16)"
  | .other text => text

inductive Node where
  | dir
  | file (bytes : Bytes)
  deriving DecidableEq, Repr

/-- Everything below the root directory, which is always there. -/
structure Disk where
  nodes : AList fun _ : Location => Node

namespace Disk

variable (d : Disk)

def node (l : Location) : Option Node := if l = [] then some .dir else d.nodes.lookup l

def put (l : Location) (n : Node) : Disk := ⟨d.nodes.insert l n⟩

def drop (l : Location) : Disk := ⟨d.nodes.erase l⟩

theorem node_put {l : Location} (hl : l ≠ []) (n : Node) (m : Location) :
    (d.put l n).node m = if m = l then some n else d.node m := by
  unfold node put
  by_cases hm : m = []
  · subst hm
    simp [hl.symm]
  · by_cases heq : m = l
    · subst heq
      simp [hm]
    · simp [hm, heq, AList.lookup_insert_ne heq]

theorem node_drop {l : Location} (hl : l ≠ []) (m : Location) :
    (d.drop l).node m = if m = l then none else d.node m := by
  unfold node drop
  by_cases hm : m = []
  · subst hm
    simp [hl.symm]
  · by_cases heq : m = l
    · subst heq
      simp [hm]
    · simp [hm, heq, AList.lookup_erase_ne heq]

/-! ### Walking a path -/

def walk : Location → List Str → Except IoError Location
  | l, [] => .ok l
  | l, c :: rest =>
    match d.node l with
    | some .dir => walk (l.child c) rest
    | some (.file _) => .error .notADirectory
    | none => .error .notFound

/-- The name a path gives; its last component need not exist. -/
def locate (p : PathBuf) : Except IoError Location :=
  if p.any fun c => c.contains '\x00' then .error .invalidInput else d.walk [] p

/-- The same for a name that is to be made, which must not end in what asks for a directory. -/
def locateNew (slash dot : IoError) (p : PathBuf) : Except IoError Location :=
  if p.getLast? = some [] then do
    let _ ← d.locate p.dropLast
    .error slash
  else do
    let l ← d.locate p
    if p.endsInDot then .error dot else .ok l

def metadata (p : PathBuf) : Except IoError Node := do
  let l ← d.locate p
  match d.node l with
  | some n => .ok n
  | none => .error .notFound

/-- `fs::read`. -/
def read (p : PathBuf) : Except IoError Bytes := do
  match ← d.metadata p with
  | .file bytes => .ok bytes
  | .dir => .error .isADirectory

/-- `fs::write`: the file is created or truncated. -/
def write (p : PathBuf) (bytes : Bytes) : Except IoError Disk := do
  let l ← d.locateNew .isADirectory .isADirectory p
  match d.node l with
  | some .dir => .error .isADirectory
  | _ => .ok (d.put l (.file bytes))

/-- `fs::rename` of a file. -/
def rename (p q : PathBuf) : Except IoError Disk := do
  let l ← d.locate p
  let m ← d.locateNew .notADirectory .busy q
  match d.node l, d.node m with
  | none, _ => .error .notFound
  | some .dir, _ => .error .notADirectory
  | some (.file _), some .dir => .error .isADirectory
  | some (.file bytes), _ => .ok ((d.drop l).put m (.file bytes))

/-- `fs::remove_file`. -/
def removeFile (p : PathBuf) : Except IoError Disk := do
  let l ← d.locate p
  match d.node l with
  | some (.file _) => .ok (d.drop l)
  | some .dir => .error .isADirectory
  | none => .error .notFound

/-- `fs::remove_dir`. -/
def removeDir (p : PathBuf) : Except IoError Disk := do
  let l ← d.locate p
  if p.endsInDot then .error .invalidArgument
  else match d.node l with
  | some .dir =>
    if l = [] ∨ d.nodes.keys.any fun m => m.dropLast == l then .error .directoryNotEmpty
    else .ok (d.drop l)
  | some (.file _) => .error .notADirectory
  | none => .error .notFound

/-- Making the directories of a path that are missing, from the one reached so far. -/
def createDirs : Disk → Location → List Str → Disk × Except IoError Unit
  | d, _, [] => (d, .ok ())
  | d, l, c :: rest =>
    match d.node (l.child c) with
    | some .dir => createDirs d (l.child c) rest
    | some (.file _) => (d, .error .alreadyExists)
    | none => createDirs (d.put (l.child c) .dir) (l.child c) rest

/-- A directory that is named `x/.` is not made, but those that `x` is in are. -/
def makeDirs (p : PathBuf) : Disk × Except IoError Unit :=
  if p.endsInDot then
    match createDirs d [] p.parent with
    | (d', .error e) => (d', .error e)
    | (d', .ok _) => (d', (d'.metadata p).map fun _ => ())
  else createDirs d [] p

/-- `fs::create_dir_all`. The first `mkdir` is of the whole path, so a file on the way is found
before anything is made. -/
def createDirAll (p : PathBuf) : Disk × Except IoError Unit :=
  if p.any fun c => c.contains '\x00' then (d, .error .invalidInput)
  else if d.walk [] (p.rdropWhile (· == [])) = .error .notADirectory then
    (d, .error .notADirectory)
  else d.makeDirs p

variable {d}

theorem walk_append {l m : Location} {p q : List Str} (h : d.walk l p = .ok m) :
    d.walk l (p ++ q) = d.walk m q := by
  induction p generalizing l with
  | nil =>
    obtain rfl := Except.ok.inj h
    rfl
  | cons c rest ih =>
    simp only [List.cons_append, walk] at h ⊢
    split at h
    next => exact ih h
    next => cases h
    next => cases h

/-- The first step of a walk to a directory leads to one. -/
theorem node_child_of_walk {l m : Location} {c : Str} {rest : List Str}
    (h : d.walk (l.child c) rest = .ok m) (hm : d.node m = some .dir) :
    d.node (l.child c) = some .dir := by
  cases rest with
  | nil =>
    obtain rfl := Except.ok.inj h
    exact hm
  | cons c' rest' =>
    simp only [walk] at h
    split at h
    next hdir => exact hdir
    next => cases h
    next => cases h

/-- Directories that are there are not created again. -/
theorem createDirs_append_of_walk {l m : Location} {p q : List Str} (h : d.walk l p = .ok m)
    (hm : d.node m = some .dir) : createDirs d l (p ++ q) = createDirs d m q := by
  induction p generalizing l with
  | nil =>
    obtain rfl := Except.ok.inj h
    rfl
  | cons c rest ih =>
    simp only [walk] at h
    split at h
    next =>
      simp only [List.cons_append, createDirs, node_child_of_walk h hm]
      exact ih h
    next => cases h
    next => cases h

theorem createDirs_of_walk {l m : Location} {p : List Str} (h : d.walk l p = .ok m)
    (hm : d.node m = some .dir) : createDirs d l p = (d, .ok ()) := by
  have happend := createDirs_append_of_walk (q := []) h hm
  rwa [List.append_nil] at happend

/-- What a walk to a directory goes through are directories. -/
theorem walk_of_prefix {l m : Location} {p q : List Str} (h : d.walk l p = .ok m)
    (hm : d.node m = some .dir) (hq : q <+: p) :
    ∃ m', d.walk l q = .ok m' ∧ d.node m' = some .dir := by
  induction q generalizing l p with
  | nil =>
    refine ⟨l, rfl, ?_⟩
    cases p with
    | nil => exact Except.ok.inj h ▸ hm
    | cons c rest =>
      simp only [walk] at h
      split at h
      next hdir => exact hdir
      next => cases h
      next => cases h
  | cons c q ih =>
    obtain ⟨rest, rfl⟩ := hq
    simp only [List.cons_append, walk] at h ⊢
    split at h
    next => exact ih h (List.prefix_append q rest)
    next => cases h
    next => cases h

/-- Only a directory is found under a path that ends in no name. -/
theorem node_of_walk_blank {l m : Location} {p : List Str} {c : Str} (hc : isBlank c = true)
    (h : d.walk l (p ++ [c]) = .ok m) : d.node m = some .dir := by
  induction p generalizing l with
  | nil =>
    simp only [List.nil_append, walk, child_of_isBlank hc] at h
    split at h
    next hdir => exact Except.ok.inj h ▸ hdir
    next => cases h
    next => cases h
  | cons c' rest ih =>
    simp only [List.cons_append, walk] at h
    split at h
    next => exact ih h
    next => cases h
    next => cases h

/-- More nodes never break a walk, as long as directories stay directories. -/
theorem walk_mono {d' : Disk} (hdirs : ∀ m, d.node m = some .dir → d'.node m = some .dir)
    {l m : Location} {p : List Str} (h : d.walk l p = .ok m) : d'.walk l p = .ok m := by
  induction p generalizing l with
  | nil => exact h
  | cons c rest ih =>
    simp only [walk] at h
    split at h
    next hdir =>
      simp only [walk, hdirs _ hdir]
      exact ih h
    next => cases h
    next => cases h

theorem locate_mono {d' : Disk} (hdirs : ∀ m, d.node m = some .dir → d'.node m = some .dir)
    {p : PathBuf} {l : Location} (h : d.locate p = .ok l) : d'.locate p = .ok l := by
  unfold locate at h ⊢
  split at h
  next => cases h
  next hnul => rw [if_neg hnul, walk_mono hdirs h]

/-- The path leads to a directory that is there. -/
def IsDir (d : Disk) (p : PathBuf) : Prop := d.metadata p = .ok .dir

theorem isDir_iff {p : PathBuf} :
    d.IsDir p ↔ ∃ l, d.locate p = .ok l ∧ d.node l = some .dir := by
  simp only [IsDir, metadata, bind_eq_ok]
  refine exists_congr fun l => and_congr_right fun _ => ?_
  split
  next n hn => simp [hn]
  next hn => simp [hn]

theorem walk_of_locate {p : PathBuf} {l : Location} (h : d.locate p = .ok l) :
    (p.any fun c => c.contains '\x00') = false ∧ d.walk [] p = .ok l := by
  unfold locate at h
  split at h
  next => cases h
  next hnul => exact ⟨Bool.eq_false_iff.mpr hnul, h⟩

theorem IsDir.createDirAll {p : PathBuf} (h : d.IsDir p) : d.createDirAll p = (d, .ok ()) := by
  obtain ⟨l, hl, hdir⟩ := isDir_iff.mp h
  obtain ⟨hnul, hwalk⟩ := walk_of_locate hl
  obtain ⟨m, hm, -⟩ := walk_of_prefix hwalk hdir (List.rdropWhile_prefix (· == []) p)
  obtain ⟨m', hm', hdir'⟩ := walk_of_prefix hwalk hdir p.parent_isPrefix
  have hmeta : d.metadata p = .ok .dir := h
  rw [Disk.createDirAll, hnul, if_neg Bool.false_ne_true, hm, if_neg (by simp), makeDirs,
    createDirs_of_walk hm' hdir', createDirs_of_walk hwalk hdir]
  simp only [hmeta]
  exact ite_self _

theorem resolve_of_walk {l m : Location} {p : List Str} (h : d.walk l p = .ok m) :
    m = p.foldl Location.child l := by
  induction p generalizing l with
  | nil => exact (Except.ok.inj h).symm
  | cons c rest ih =>
    simp only [walk] at h
    split at h
    next => exact ih h
    next => cases h
    next => cases h

/-- A path that leads somewhere leads where its `..` say. -/
theorem resolve_of_locate {p : PathBuf} {l : Location} (h : d.locate p = .ok l) :
    l = p.resolve := by
  unfold locate at h
  split at h
  next => cases h
  next => exact resolve_of_walk h

/-- A file name that leads one level down. -/
structure PlainName (name : Str) : Prop where
  ne_nil : name ≠ []
  ne_dot : name ≠ ['.']
  ne_dotdot : name ≠ ['.', '.']
  slash : '/' ∉ name
  nul : '\x00' ∉ name

instance (name : Str) : Decidable (PlainName name) :=
  decidable_of_iff (name ≠ [] ∧ name ≠ ['.'] ∧ name ≠ ['.', '.'] ∧ '/' ∉ name ∧ '\x00' ∉ name)
    ⟨fun ⟨hnil, hdot, hdotdot, hslash, hnul⟩ => ⟨hnil, hdot, hdotdot, hslash, hnul⟩,
      fun h => ⟨h.ne_nil, h.ne_dot, h.ne_dotdot, h.slash, h.nul⟩⟩

/-- Long enough not to be one of the special names. -/
theorem PlainName.of_length {name : Str} (hlen : 3 ≤ name.length) (hslash : '/' ∉ name)
    (hnul : '\x00' ∉ name) : PlainName name := by
  refine ⟨?_, ?_, ?_, hslash, hnul⟩ <;> rintro rfl <;> simp at hlen

theorem PlainName.isName {name : Str} (h : PlainName name) : IsName name :=
  ⟨h.ne_nil, h.ne_dot, h.ne_dotdot⟩

theorem PlainName.join {name : Str} (h : PlainName name) (p : PathBuf) :
    p.join name = p ++ [name] := by
  have hhead : name.head? ≠ some '/' := fun hs => h.slash (List.mem_of_mem_head? hs)
  rw [PathBuf.join, if_neg hhead, components_of_names (List.splitOn_ne_nil _ _) fun seg hseg => ?_,
    List.splitOn_eq_singleton h.slash]
  rw [List.splitOn_eq_singleton h.slash, List.mem_singleton] at hseg
  exact hseg ▸ h.isName

theorem PlainName.locate {name : Str} (h : PlainName name) {p : PathBuf} {l : Location}
    (hp : d.locate p = .ok l) (hdir : d.node l = some .dir) :
    d.locate (p.join name) = .ok (l ++ [name]) := by
  rw [h.join]
  unfold Disk.locate at hp ⊢
  split at hp
  next => cases hp
  next hnul =>
    have hnul' : ¬ ((p ++ [name]).any fun c => c.contains '\x00') = true := by
      simpa [h.nul] using hnul
    rw [if_neg hnul', walk_append hp]
    simp [walk, hdir, h.isName.child]

/-- Only the root is a directory without a node of its own. -/
theorem ne_nil_of_node {l : Location} (h : d.node l ≠ some .dir) : l ≠ [] := by
  rintro rfl
  exact h rfl

/-- `d'` has every directory that `d` has. -/
def KeepsDirs (d d' : Disk) : Prop := ∀ l, d.node l = some .dir → d'.node l = some .dir

theorem KeepsDirs.trans {d₁ d₂ : Disk} (h : KeepsDirs d d₁) (h' : KeepsDirs d₁ d₂) :
    KeepsDirs d d₂ := fun l hl => h' l (h l hl)

theorem keepsDirs_put {l : Location} {n : Node} (h : d.node l ≠ some .dir) :
    KeepsDirs d (d.put l n) := by
  intro m hm
  rw [node_put d (ne_nil_of_node h), if_neg (by rintro rfl; exact h hm), hm]

theorem keepsDirs_drop {l : Location} (h : d.node l ≠ some .dir) : KeepsDirs d (d.drop l) := by
  intro m hm
  rw [node_drop d (ne_nil_of_node h), if_neg (by rintro rfl; exact h hm), hm]

theorem IsDir.mono {d' : Disk} {p : PathBuf} (h : d.IsDir p) (hd : KeepsDirs d d') :
    d'.IsDir p := by
  obtain ⟨l, hl, hdir⟩ := isDir_iff.mp h
  exact isDir_iff.mpr ⟨l, locate_mono hd hl, hd l hdir⟩

/-- What a path leads to that is no directory, it leads to as a name. -/
theorem locateNew_eq_ok {slash dot : IoError} {p : PathBuf} {l : Location}
    (hl : d.node l ≠ some .dir) : d.locateNew slash dot p = .ok l ↔ d.locate p = .ok l := by
  have hblank {c : Str} (hc : isBlank c = true) (hlast : p.getLast? = some c)
      (h : d.locate p = .ok l) : False := by
    obtain ⟨-, hwalk⟩ := walk_of_locate h
    rw [← List.dropLast_append_getLast? c hlast] at hwalk
    exact hl (node_of_walk_blank hc hwalk)
  unfold locateNew
  split
  next hslash =>
    refine ⟨fun h => ?_, fun h => (hblank rfl hslash h).elim⟩
    obtain ⟨_, -, h⟩ := bind_eq_ok.mp h
    cases h
  next hslash =>
    rw [bind_eq_ok]
    constructor
    · rintro ⟨l', hl', h⟩
      split at h
      next => cases h
      next => exact Except.ok.inj h ▸ hl'
    · intro h
      refine ⟨l, h, if_neg fun hdot => ?_⟩
      have hkeep : p.rdropWhile (· == []) = p :=
        List.rdropWhile_eq_self_iff.mpr fun hne hnil => hslash (by
          rw [List.getLast?_eq_some_getLast hne, eq_of_beq hnil])
      rw [PathBuf.endsInDot, hkeep] at hdot
      exact hblank rfl (of_decide_eq_true hdot) h

theorem write_eq_ok {p : PathBuf} {bytes : Bytes} {d' : Disk} :
    d.write p bytes = .ok d' ↔
      ∃ l, d.locate p = .ok l ∧ d.node l ≠ some .dir ∧ d' = d.put l (.file bytes) := by
  simp only [write, bind_eq_ok]
  refine exists_congr fun l => ?_
  split
  next hdir => simp [hdir]
  next hdir =>
    rw [locateNew_eq_ok hdir]
    exact and_congr_right fun _ => ⟨fun h => ⟨hdir, (Except.ok.inj h).symm⟩, fun h => by rw [h.2]⟩

theorem keepsDirs_write {p : PathBuf} {bytes : Bytes} {d' : Disk}
    (h : d.write p bytes = .ok d') : KeepsDirs d d' := by
  obtain ⟨l, -, hl, rfl⟩ := write_eq_ok.mp h
  exact keepsDirs_put hl

theorem rename_eq_ok {p q : PathBuf} {d' : Disk} :
    d.rename p q = .ok d' ↔ ∃ l m bytes, d.locate p = .ok l ∧ d.locate q = .ok m ∧
      d.node l = some (.file bytes) ∧ d.node m ≠ some .dir ∧
      d' = (d.drop l).put m (.file bytes) := by
  simp only [rename, bind_eq_ok]
  constructor
  · rintro ⟨l, hl, m, hm, h⟩
    split at h
    next => cases h
    next => cases h
    next => cases h
    next bytes hfile hdst =>
      exact ⟨l, m, bytes, hl, (locateNew_eq_ok hdst).mp hm, hfile, hdst, (Except.ok.inj h).symm⟩
  · rintro ⟨l, m, bytes, hl, hm, hfile, hdst, rfl⟩
    refine ⟨l, hl, m, (locateNew_eq_ok hdst).mpr hm, ?_⟩
    simp only [hfile]

theorem keepsDirs_rename {p q : PathBuf} {d' : Disk} (h : d.rename p q = .ok d') :
    KeepsDirs d d' := by
  obtain ⟨l, m, bytes, -, -, hfile, hdst, rfl⟩ := rename_eq_ok.mp h
  have hsrc : d.node l ≠ some .dir := by simp [hfile]
  refine (keepsDirs_drop hsrc).trans (keepsDirs_put ?_)
  rw [node_drop d (ne_nil_of_node hsrc)]
  split
  next => simp
  next => exact hdst

/-! ### Files -/

theorem read_eq_ok {p : PathBuf} {bytes : Bytes} :
    d.read p = .ok bytes ↔ ∃ l, d.locate p = .ok l ∧ d.node l = some (.file bytes) := by
  simp only [read, metadata, bind_eq_ok]
  constructor
  · intro h
    obtain ⟨n, ⟨l, hl, hn⟩, h⟩ := h
    split at hn
    next n' hnode =>
      obtain rfl := Except.ok.inj hn
      split at h
      next => exact ⟨l, hl, Except.ok.inj h ▸ hnode⟩
      next => cases h
    next => cases hn
  · intro h
    obtain ⟨l, hl, hnode⟩ := h
    exact ⟨.file bytes, ⟨l, hl, by rw [hnode]⟩, rfl⟩

theorem read_of_write {p : PathBuf} {bytes : Bytes} {d' : Disk} (h : d.write p bytes = .ok d') :
    d'.read p = .ok bytes := by
  have hkeeps := keepsDirs_write h
  obtain ⟨l, hl, hdir, rfl⟩ := write_eq_ok.mp h
  refine read_eq_ok.mpr ⟨l, locate_mono hkeeps hl, ?_⟩
  rw [node_put d (ne_nil_of_node hdir), if_pos rfl]

theorem read_of_rename {p q : PathBuf} {bytes : Bytes} {d' : Disk} (h : d.rename p q = .ok d')
    (hread : d.read p = .ok bytes) : d'.read q = .ok bytes := by
  have hkeeps := keepsDirs_rename h
  obtain ⟨l, m, bytes', hl, hm, hfile, hdst, rfl⟩ := rename_eq_ok.mp h
  obtain ⟨l', hl', hfile'⟩ := read_eq_ok.mp hread
  obtain rfl := Except.ok.inj (hl.symm.trans hl')
  obtain rfl := Node.file.inj (Option.some.inj (hfile.symm.trans hfile'))
  refine read_eq_ok.mpr ⟨m, locate_mono hkeeps hm, ?_⟩
  rw [node_put _ (ne_nil_of_node hdst), if_pos rfl]

/-- The content of the file at a place. -/
def bytesAt (d : Disk) (l : Location) : Option Bytes :=
  match d.node l with
  | some (.file bytes) => some bytes
  | _ => none

theorem bytesAt_eq_some {l : Location} {bytes : Bytes} :
    d.bytesAt l = some bytes ↔ d.node l = some (.file bytes) := by
  unfold bytesAt
  split
  next bytes' h => simp [h]
  next hfile =>
    constructor
    · intro h
      cases h
    · intro h
      exact absurd h (hfile bytes)

theorem bytesAt_congr {d' : Disk} {l : Location} (h : d'.node l = d.node l) :
    d'.bytesAt l = d.bytesAt l := by
  rw [bytesAt, bytesAt, h]

theorem bytesAt_dir {l : Location} (h : d.node l = some .dir) : d.bytesAt l = none := by
  rw [bytesAt, h]

/-- What is put at one place is not at another. -/
theorem bytesAt_put {l : Location} (h : d.node l ≠ some .dir) (n : Node) (m : Location)
    (hm : m ≠ l) : (d.put l n).bytesAt m = d.bytesAt m :=
  bytesAt_congr (by rw [node_put d (ne_nil_of_node h), if_neg hm])

theorem bytesAt_drop {l : Location} (h : l ≠ []) (m : Location) :
    (d.drop l).bytesAt m = if m = l then none else d.bytesAt m := by
  by_cases hm : m = l
  · rw [if_pos hm, bytesAt, node_drop d h, if_pos hm]
  · rw [if_neg hm]
    exact bytesAt_congr (by rw [node_drop d h, if_neg hm])

/-- A file that is read is where the path leads. -/
theorem bytesAt_of_read {p : PathBuf} {bytes : Bytes} (h : d.read p = .ok bytes) :
    d.bytesAt p.resolve = some bytes := by
  obtain ⟨n, hn, h⟩ := bind_eq_ok.mp h
  obtain ⟨l, hl, hn⟩ := bind_eq_ok.mp hn
  obtain rfl := resolve_of_locate hl
  split at hn
  next n' hnode =>
    obtain rfl := Except.ok.inj hn
    split at h
    next bytes' =>
      obtain rfl := Except.ok.inj h
      exact bytesAt_eq_some.mpr hnode
    next => cases h
  next => cases hn

theorem bytesAt_createDirs {l : Location} {p : List Str} (m : Location) :
    (createDirs d l p).1.bytesAt m = d.bytesAt m := by
  induction p generalizing d l with
  | nil => rfl
  | cons c rest ih =>
    simp only [createDirs]
    split
    next => exact ih
    next => rfl
    next hnone =>
      have hne : d.node (l.child c) ≠ some .dir := by
        rw [hnone]
        nofun
      rw [ih]
      by_cases hm : m = l.child c
      · rw [hm, bytesAt_dir (by rw [node_put d (ne_nil_of_node hne), if_pos rfl]), bytesAt, hnone]
      · exact bytesAt_put hne _ m hm

/-- What `create_dir_all` makes is on its path. -/
theorem createDirAll_fst (p : PathBuf) :
    (d.createDirAll p).1 = d ∨ ∃ q, q <+: p ∧ (d.createDirAll p).1 = (createDirs d [] q).1 := by
  unfold createDirAll makeDirs
  split
  next => exact .inl rfl
  next =>
    split
    next => exact .inl rfl
    next =>
      split
      next =>
        refine .inr ⟨p.parent, p.parent_isPrefix, ?_⟩
        split
        next d' e hmake => rw [hmake]
        next d' _ hmake => rw [hmake]
      next => exact .inr ⟨p, List.prefix_rfl, rfl⟩

theorem bytesAt_createDirAll (p : PathBuf) (m : Location) :
    (d.createDirAll p).1.bytesAt m = d.bytesAt m := by
  obtain heq | ⟨q, -, heq⟩ := createDirAll_fst (d := d) p
  · rw [heq]
  · rw [heq, bytesAt_createDirs]

/-- A directory that is removed is empty. -/
theorem removeDir_eq_ok {p : PathBuf} {d' : Disk} (h : d.removeDir p = .ok d') :
    ∃ l, d.locate p = .ok l ∧ d.node l = some .dir ∧ l ≠ [] ∧
      (d.nodes.keys.any fun m => m.dropLast == l) = false ∧ d' = d.drop l := by
  obtain ⟨l, hl, h⟩ := bind_eq_ok.mp h
  split at h
  next => cases h
  next =>
    split at h
    next hdir =>
      split at h
      next => cases h
      next hempty =>
        obtain ⟨hne, hnone⟩ := not_or.mp hempty
        exact ⟨l, hl, hdir, hne, Bool.eq_false_iff.mpr hnone, (Except.ok.inj h).symm⟩
    next => cases h
    next => cases h

theorem bytesAt_removeDir {p : PathBuf} {d' : Disk} (h : d.removeDir p = .ok d') (m : Location) :
    d'.bytesAt m = d.bytesAt m := by
  obtain ⟨l, -, hdir, hne, -, rfl⟩ := removeDir_eq_ok h
  rw [bytesAt_drop hne]
  by_cases hm : m = l
  · rw [if_pos hm, hm, bytesAt_dir hdir]
  · exact if_neg hm

theorem bytesAt_removeFile {p : PathBuf} {d' : Disk} (h : d.removeFile p = .ok d')
    (m : Location) : d'.bytesAt m = if m = p.resolve then none else d.bytesAt m := by
  obtain ⟨l, hl, h⟩ := bind_eq_ok.mp h
  obtain rfl := resolve_of_locate hl
  split at h
  next bytes hfile =>
    obtain rfl := Except.ok.inj h
    have hdir : d.node p.resolve ≠ some .dir := by
      rw [hfile]
      nofun
    exact bytesAt_drop (ne_nil_of_node hdir) m
  next => cases h
  next => cases h

theorem bytesAt_write {p : PathBuf} {bytes : Bytes} {d' : Disk} (h : d.write p bytes = .ok d')
    (m : Location) : d'.bytesAt m = if m = p.resolve then some bytes else d.bytesAt m := by
  obtain ⟨l, hl, hdir, rfl⟩ := write_eq_ok.mp h
  obtain rfl := resolve_of_locate hl
  by_cases hm : m = p.resolve
  · rw [if_pos hm]
    exact bytesAt_eq_some.mpr (by rw [node_put d (ne_nil_of_node hdir), if_pos hm])
  · rw [if_neg hm]
    exact bytesAt_put hdir _ m hm

theorem bytesAt_rename {p q : PathBuf} {d' : Disk} (h : d.rename p q = .ok d') (m : Location) :
    d'.bytesAt m = if m = q.resolve then d.bytesAt p.resolve
      else if m = p.resolve then none else d.bytesAt m := by
  obtain ⟨l, l', bytes, hl, hl', hfile, hdir, rfl⟩ := rename_eq_ok.mp h
  obtain rfl := resolve_of_locate hl
  obtain rfl := resolve_of_locate hl'
  have hsrc : p.resolve ≠ [] := ne_nil_of_node (by rw [hfile]; nofun)
  have hdst : (d.drop p.resolve).node q.resolve ≠ some .dir := by
    rw [node_drop d hsrc]
    split
    · nofun
    · exact hdir
  by_cases hm : m = q.resolve
  · rw [if_pos hm, bytesAt_eq_some.mpr hfile]
    exact bytesAt_eq_some.mpr (by rw [node_put _ (ne_nil_of_node hdst), if_pos hm])
  · rw [if_neg hm, bytesAt_put hdst _ m hm]
    exact bytesAt_drop hsrc m

/-! ### Places -/

/-- What is made anew is on the way, where nothing was. -/
theorem created_of_createDirs {l m : Location} {p : List Str}
    (h : (createDirs d l p).1.node m ≠ d.node m) :
    d.node m = none ∧ ∃ q, q <+: p ∧ m = q.foldl Location.child l := by
  induction p generalizing d l with
  | nil => exact absurd rfl h
  | cons c rest ih =>
    have hlonger {d' : Disk} (hrest : (createDirs d' (l.child c) rest).1.node m ≠ d'.node m) :
        d'.node m = none ∧ ∃ q, q <+: c :: rest ∧ m = q.foldl Location.child l := by
      obtain ⟨hnone, q, hq, hm⟩ := ih hrest
      exact ⟨hnone, c :: q, (List.prefix_cons_inj c).mpr hq, hm⟩
    simp only [createDirs] at h
    split at h
    next => exact hlonger h
    next => exact absurd rfl h
    next hnone =>
      have hput := node_put d (ne_nil_of_node (by rw [hnone]; nofun)) .dir m
      by_cases hm : m = l.child c
      · exact ⟨hm ▸ hnone, [c], (List.prefix_cons_inj c).mpr List.nil_prefix, hm⟩
      · rw [if_neg hm] at hput
        rw [← hput] at h ⊢
        exact hlonger h

/-- The places on the way to a directory that is there, and above it. -/
structure Walked (d : Disk) (l : Location) : Prop where
  above : ∀ m, m <+: l → m ≠ l → d.node m = some .dir

theorem Walked.child {l : Location} (h : d.Walked l) (hdir : d.node l = some .dir) (c : Str) :
    d.Walked (l.child c) := by
  refine ⟨fun m hm hne => ?_⟩
  have hup (hml : m <+: l) : d.node m = some .dir := by
    by_cases heq : m = l
    · exact heq ▸ hdir
    · exact h.above m hml heq
  unfold Location.child at hm hne
  split at hm
  next => exact hup (hm.trans (List.dropLast_prefix l))
  next hc =>
    rw [if_neg hc] at hne
    split at hm
    next => exact hup hm
    next hc' =>
      rw [if_neg hc'] at hne
      exact hup ((List.prefix_concat_iff.mp hm).resolve_left hne)

theorem Walked.of_walk {l m : Location} {p : List Str} (hl : d.Walked l)
    (h : d.walk l p = .ok m) : d.Walked m := by
  induction p generalizing l with
  | nil => exact Except.ok.inj h ▸ hl
  | cons c rest ih =>
    simp only [walk] at h
    split at h
    next hdir => exact ih (hl.child hdir c) h
    next => cases h
    next => cases h

/-- What is above a directory is one too. -/
theorem IsDir.above {p : PathBuf} (h : d.IsDir p) {m : Location} (hm : m <+: p.resolve) :
    d.node m = some .dir := by
  obtain ⟨l, hl, hdir⟩ := isDir_iff.mp h
  obtain rfl := resolve_of_locate hl
  unfold locate at hl
  split at hl
  next => cases hl
  next =>
    have hwalked : d.Walked p.resolve :=
      .of_walk ⟨fun m hm hne => absurd (List.prefix_nil.mp hm) hne⟩ hl
    by_cases heq : m = p.resolve
    · exact heq ▸ hdir
    · exact hwalked.above m hm heq

/-- What a path to a directory goes through is a directory. -/
theorem IsDir.through {p q : PathBuf} (h : d.IsDir p) (hq : q <+: p) :
    d.node q.resolve = some .dir := by
  obtain ⟨l, hl, hdir⟩ := isDir_iff.mp h
  obtain ⟨m, hm, hdir'⟩ := walk_of_prefix (walk_of_locate hl).2 hdir hq
  rwa [resolve_of_walk hm] at hdir'

theorem node_of_write {p : PathBuf} {bytes : Bytes} {d' : Disk} (h : d.write p bytes = .ok d')
    {m : Location} (hm : m ≠ p.resolve) : d'.node m = d.node m := by
  obtain ⟨l, hl, hdir, rfl⟩ := write_eq_ok.mp h
  obtain rfl := resolve_of_locate hl
  rw [node_put d (ne_nil_of_node hdir), if_neg hm]

theorem node_of_rename {p q : PathBuf} {d' : Disk} (h : d.rename p q = .ok d') {m : Location}
    (hsrc : m ≠ p.resolve) (hdst : m ≠ q.resolve) : d'.node m = d.node m := by
  obtain ⟨l, l', bytes, hl, hl', hfile, hdir, rfl⟩ := rename_eq_ok.mp h
  obtain rfl := resolve_of_locate hl
  obtain rfl := resolve_of_locate hl'
  rw [node_put _ (ne_nil_of_node hdir), if_neg hdst]
  rw [node_drop d (ne_nil_of_node (by rw [hfile]; nofun)), if_neg hsrc]

theorem node_of_removeFile {p : PathBuf} {d' : Disk} (h : d.removeFile p = .ok d') {m : Location}
    (hm : m ≠ p.resolve) : d'.node m = d.node m := by
  obtain ⟨l, hl, h⟩ := bind_eq_ok.mp h
  obtain rfl := resolve_of_locate hl
  split at h
  next bytes hfile =>
    obtain rfl := Except.ok.inj h
    rw [node_drop d (ne_nil_of_node (by rw [hfile]; nofun)), if_neg hm]
  next => cases h
  next => cases h

theorem node_of_removeDir {p : PathBuf} {d' : Disk} (h : d.removeDir p = .ok d') {m : Location}
    (hm : m ≠ p.resolve) : d'.node m = d.node m := by
  obtain ⟨l, hl, -, hne, -, rfl⟩ := removeDir_eq_ok h
  obtain rfl := resolve_of_locate hl
  rw [node_drop d hne, if_neg hm]

/-! ### Making directories -/

theorem keepsDirs_createDirs {l : Location} {p : List Str} : KeepsDirs d (createDirs d l p).1 := by
  induction p generalizing d l with
  | nil => exact fun _ h => h
  | cons c rest ih =>
    simp only [createDirs]
    split
    next => exact ih
    next => exact fun _ h => h
    next hnone => exact (keepsDirs_put (by rw [hnone]; nofun)).trans ih

/-- Where directories have been made the path leads to one. -/
theorem walk_of_createDirs {l : Location} {p : List Str} (hl : d.node l = some .dir)
    (h : (createDirs d l p).2 = .ok ()) :
    (createDirs d l p).1.walk l p = .ok (p.foldl Location.child l) ∧
      (createDirs d l p).1.node (p.foldl Location.child l) = some .dir := by
  induction p generalizing d l with
  | nil => exact ⟨rfl, hl⟩
  | cons c rest ih =>
    have hstart := keepsDirs_createDirs (d := d) (l := l) (p := c :: rest) l hl
    simp only [createDirs] at h hstart ⊢
    simp only [walk, hstart, List.foldl_cons]
    split at h
    next hdir => exact ih hdir h
    next => cases h
    next hnone =>
      refine ih ?_ h
      rw [node_put d (ne_nil_of_node (by rw [hnone]; nofun)), if_pos rfl]

theorem isDir_of_createDirs {p : PathBuf} (hnul : (p.any fun c => c.contains '\x00') = false)
    (h : (createDirs d [] p).2 = .ok ()) : (createDirs d [] p).1.IsDir p := by
  obtain ⟨hwalk, hdir⟩ := walk_of_createDirs (l := []) rfl h
  refine isDir_iff.mpr ⟨_, ?_, hdir⟩
  rw [locate, hnul, if_neg Bool.false_ne_true, hwalk]

/-- Behind a dot there is a directory or nothing. -/
theorem isDir_of_endsInDot {p : PathBuf} {n : Node} (h : p.endsInDot = true)
    (hmeta : d.metadata p = .ok n) : d.IsDir p := by
  have hne : p ≠ [] := by
    rintro rfl
    cases h
  have hblank : isBlank (p.getLast hne) = true := by
    by_cases hslash : p.getLast hne = []
    · rw [hslash]
      rfl
    · have hkeep : p.rdropWhile (· == []) = p :=
        List.rdropWhile_eq_self_iff.mpr fun hne hnil => hslash (eq_of_beq hnil)
      rw [PathBuf.endsInDot, hkeep, List.getLast?_eq_some_getLast hne] at h
      rw [Option.some.inj (of_decide_eq_true h)]
      rfl
  obtain ⟨l, hl, -⟩ := bind_eq_ok.mp hmeta
  obtain ⟨-, hwalk⟩ := walk_of_locate hl
  rw [← List.dropLast_append_getLast hne] at hwalk
  exact isDir_iff.mpr ⟨l, hl, node_of_walk_blank hblank hwalk⟩

theorem isDir_of_makeDirs {p : PathBuf} (hnul : (p.any fun c => c.contains '\x00') = false)
    (h : (d.makeDirs p).2 = .ok ()) : (d.makeDirs p).1.IsDir p := by
  unfold makeDirs at h ⊢
  split at h
  next hdot =>
    rw [if_pos hdot]
    split at h
    next => cases h
    next d' _ _ =>
      cases hmeta : d'.metadata p with
      | error e =>
        rw [hmeta] at h
        cases h
      | ok n => exact isDir_of_endsInDot hdot hmeta
  next hdot =>
    rw [if_neg hdot]
    exact isDir_of_createDirs hnul h

theorem isDir_of_createDirAll {p : PathBuf} (h : (d.createDirAll p).2 = .ok ()) :
    (d.createDirAll p).1.IsDir p := by
  unfold createDirAll at h ⊢
  split at h
  next => cases h
  next hnul =>
    rw [if_neg hnul]
    split at h
    next => cases h
    next hwalk =>
      rw [if_neg hwalk]
      exact isDir_of_makeDirs (Bool.eq_false_iff.mpr hnul) h

/-- The path comes to a file before it comes to where nothing is. -/
def blocked (d : Disk) : Location → List Str → Bool
  | _, [] => false
  | l, c :: rest =>
    match d.node (l.child c) with
    | some .dir => blocked d (l.child c) rest
    | some (.file _) => true
    | none => false

theorem blocked_append_of_walk {l m : Location} {p q : List Str} (h : d.walk l p = .ok m)
    (hm : d.node m = some .dir) : d.blocked l (p ++ q) = d.blocked m q := by
  induction p generalizing l with
  | nil =>
    obtain rfl := Except.ok.inj h
    rfl
  | cons c rest ih =>
    simp only [walk] at h
    split at h
    next =>
      simp only [List.cons_append, blocked, node_child_of_walk h hm]
      exact ih h
    next => cases h
    next => cases h

theorem blocked_append {l : Location} {p : List Str} (h : d.blocked l p = true) (q : List Str) :
    d.blocked l (p ++ q) = true := by
  induction p generalizing l with
  | nil => cases h
  | cons c rest ih =>
    simp only [List.cons_append, blocked] at h ⊢
    split at h
    next => exact ih h
    next => rfl
    next => cases h

/-- What is no name leads to nothing in the way. -/
theorem blocked_concat_blank {l : Location} {p : List Str} {c : Str} (hl : d.node l = some .dir)
    (hc : isBlank c = true) : d.blocked l (p ++ [c]) = d.blocked l p := by
  induction p generalizing l with
  | nil => simp only [List.nil_append, blocked, child_of_isBlank hc, hl]
  | cons c' rest ih =>
    simp only [List.cons_append, blocked]
    split
    next hdir => exact ih hdir
    next => rfl
    next => rfl

theorem blocked_rdropWhile (p : List Str) :
    d.blocked [] (p.rdropWhile (· == [])) = d.blocked [] p := by
  induction p using List.reverseRecOn with
  | nil => rfl
  | append_singleton p c ih =>
    by_cases hc : c = []
    · subst hc
      rw [List.rdropWhile_concat_pos _ _ _ rfl, ih]
      exact (blocked_concat_blank rfl rfl).symm
    · rw [List.rdropWhile_concat_neg _ _ _ (by simpa using hc)]

/-- A file that is in the way is met by a walk past it, -/
theorem walk_of_blocked {l : Location} {p : List Str} (hl : d.node l = some .dir)
    (h : d.blocked l p = true) (c : Str) : d.walk l (p ++ [c]) = .error .notADirectory := by
  induction p generalizing l with
  | nil => cases h
  | cons c' rest ih =>
    simp only [blocked] at h
    simp only [List.cons_append, walk, hl]
    split at h
    next hdir => exact ih hdir h
    next hfile =>
      obtain ⟨a, q, hq⟩ := List.exists_cons_of_ne_nil (List.concat_ne_nil c rest)
      simp only [hq, walk, hfile]
    next => cases h

/-- and one that a walk meets is in the way. -/
theorem blocked_of_walk {l : Location} {p : List Str} (hl : d.node l = some .dir)
    (h : d.walk l p = .error .notADirectory) : d.blocked l p = true := by
  induction p generalizing l with
  | nil => cases h
  | cons c rest ih =>
    simp only [walk, hl] at h
    simp only [blocked]
    split
    next hdir => exact ih hdir h
    next => rfl
    next hnone =>
      cases rest with
      | nil => cases h
      | cons c' rest' =>
        simp only [walk, hnone] at h
        cases h

/-- Then no directory is made. -/
theorem createDirs_of_blocked {l : Location} {p : List Str} (h : d.blocked l p = true) :
    createDirs d l p = (d, .error .alreadyExists) := by
  induction p generalizing l with
  | nil => cases h
  | cons c rest ih =>
    simp only [blocked] at h
    simp only [createDirs]
    split at h
    next => exact ih h
    next => rfl
    next => cases h

/-- Otherwise some have been when it fails. -/
theorem createDirs_ne_of_error {l : Location} {p : List Str} {e : IoError}
    (h : d.blocked l p = false) (herror : (createDirs d l p).2 = .error e) :
    (createDirs d l p).1 ≠ d := by
  induction p generalizing l with
  | nil => cases herror
  | cons c rest ih =>
    simp only [blocked] at h
    simp only [createDirs] at herror ⊢
    split at h
    next hdir =>
      simp only [hdir] at herror ⊢
      exact ih h herror
    next => cases h
    next hnone =>
      simp only [hnone] at herror ⊢
      intro heq
      have hput : (d.put (l.child c) .dir).node (l.child c) = some .dir := by
        rw [node_put d (ne_nil_of_node (by rw [hnone]; nofun)), if_pos rfl]
      have hdir := keepsDirs_createDirs (l := l.child c) (p := rest) _ hput
      rw [heq, hnone] at hdir
      cases hdir

/-- **A path with a file in the way** is refused. -/
theorem createDirAll_of_blocked {p : PathBuf} (h : d.blocked [] p = true) :
    ∃ e, d.createDirAll p = (d, .error e) := by
  unfold createDirAll makeDirs
  split
  next => exact ⟨_, rfl⟩
  next =>
    split
    next => exact ⟨_, rfl⟩
    next hwalk =>
      split
      next hdot =>
        obtain ⟨r, hr⟩ := List.getLast?_eq_some_iff.mp (of_decide_eq_true hdot)
        refine absurd ?_ hwalk
        rw [← blocked_rdropWhile, hr, blocked_concat_blank rfl rfl] at h
        rw [hr, walk_of_blocked rfl h]
      next => exact ⟨_, createDirs_of_blocked h⟩

/-- Where what a dot is behind is all that is missing, nothing is made. -/
theorem createDirAll_of_dot {p : PathBuf} {e : IoError} (hdot : p.endsInDot = true)
    (hdir : d.IsDir p.parent) (hmeta : d.metadata p = .error e) :
    ∃ e, d.createDirAll p = (d, .error e) := by
  obtain ⟨l, hl, hdir⟩ := isDir_iff.mp hdir
  unfold createDirAll makeDirs
  split
  next => exact ⟨_, rfl⟩
  next =>
    split
    next => exact ⟨_, rfl⟩
    next =>
      simp only [createDirs_of_walk (walk_of_locate hl).2 hdir, hmeta]
      exact ⟨e, rfl⟩

/-- No directory is made for what is no name. -/
theorem createDirs_blanks {l : Location} {rest : List Str} (hl : d.node l = some .dir)
    (h : ∀ c ∈ rest, isBlank c = true) : createDirs d l rest = (d, .ok ()) := by
  induction rest with
  | nil => rfl
  | cons c rest ih =>
    obtain ⟨hc, hrest⟩ := List.forall_mem_cons.mp h
    simp only [createDirs, child_of_isBlank hc, hl]
    exact ih hrest

/-- **A path with none in the way** is made, or something is before it fails: unless only what a
dot is behind is missing. -/
theorem createDirAll_of_free {p : PathBuf} (hnul : (p.any fun c => c.contains '\x00') = false)
    (hfree : d.blocked [] p = false) (hdot : p.endsInDot = true → ¬ d.IsDir p.parent) :
    (d.createDirAll p).2 = .ok () ∨ (d.createDirAll p).1 ≠ d := by
  have hwalk : d.walk [] (p.rdropWhile (· == [])) ≠ .error .notADirectory := by
    intro hwalk
    have hblocked := blocked_of_walk rfl hwalk
    rw [blocked_rdropWhile, hfree] at hblocked
    cases hblocked
  have hmakes {q : PathBuf} (hq : q <+: p) (herror : (createDirs d [] q).2 ≠ .ok ()) :
      (createDirs d [] q).1 ≠ d := by
    cases hmake : (createDirs d [] q).2 with
    | ok _ => exact absurd hmake herror
    | error e =>
      refine createDirs_ne_of_error (Bool.eq_false_iff.mpr fun hblocked => ?_) hmake
      obtain ⟨rest, rfl⟩ := hq
      rw [blocked_append hblocked] at hfree
      cases hfree
  rw [createDirAll, hnul, if_neg Bool.false_ne_true, if_neg hwalk, makeDirs]
  by_cases hends : p.endsInDot = true
  · refine .inr ?_
    rw [if_pos hends]
    cases hmake : createDirs d [] p.parent with
    | mk d' r =>
      cases r with
      | error e =>
        have hne := hmakes p.parent_isPrefix (by rw [hmake]; simp)
        rwa [hmake] at hne
      | ok _ =>
        have hnul' : (p.parent.any fun c => c.contains '\x00') = false := by
          obtain ⟨rest, hrest⟩ := p.parent_isPrefix
          rw [← hrest, List.any_append, Bool.or_eq_false_iff] at hnul
          exact hnul.1
        have hdir := isDir_of_createDirs (d := d) hnul' (by rw [hmake])
        rw [hmake] at hdir
        rintro rfl
        exact hdot hends hdir
  · rw [if_neg hends]
    by_cases hok : (createDirs d [] p).2 = .ok ()
    · exact .inl hok
    · exact .inr (hmakes List.prefix_rfl hok)

end Disk

end AgentSync
