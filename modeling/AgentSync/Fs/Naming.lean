import AgentSync.Fs.Events

/-! Names of files as the system has them.

A name is any bytes but a NUL and a slash. On its way into the document it becomes text: what is no
UTF-8 is replaced, a backslash becomes a slash, and the rest is composed. The way back writes the
text as it is, so only a name that none of this changes is found again (`paths_inverse`). -/
namespace AgentSync

/-! ### Text of any bytes -/

/-- The byte goes on with a character. -/
def continues (b : UInt8) : Bool := 0x80 ≤ b && b ≤ 0xBF

/-- The second byte of three goes with the first. -/
def continuesThree (a b : UInt8) : Bool :=
  if a = 0xE0 then 0xA0 ≤ b && b ≤ 0xBF
  else if a = 0xED then 0x80 ≤ b && b ≤ 0x9F
  else continues b

/-- The second byte of four goes with the first. -/
def continuesFour (a b : UInt8) : Bool :=
  if a = 0xF0 then 0x90 ≤ b && b ≤ 0xBF
  else if a = 0xF4 then 0x80 ≤ b && b ≤ 0x8F
  else continues b

/-- The bytes of a character that breaks off, or the one byte that begins none. -/
def brokenLength : Bytes → Nat
  | a :: b :: c :: _ =>
    if 0xE0 ≤ a ∧ a ≤ 0xEF ∧ continuesThree a b then 2
    else if 0xF0 ≤ a ∧ a ≤ 0xF4 ∧ continuesFour a b then if continues c then 3 else 2
    else 1
  | [a, b] =>
    if (0xE0 ≤ a ∧ a ≤ 0xEF ∧ continuesThree a b) ∨ (0xF0 ≤ a ∧ a ≤ 0xF4 ∧ continuesFour a b) then 2
    else 1
  | _ => 1

def lossyFrom : Nat → Bytes → Str
  | 0, _ => []
  | _, [] => []
  | n + 1, b =>
    match b.toByteArray.utf8DecodeChar? 0 with
    | some c => c :: lossyFrom n (b.drop c.utf8Size)
    | none => '\uFFFD' :: lossyFrom n (b.drop (brokenLength b))

/-- `String::from_utf8_lossy`. -/
def fromUtf8Lossy (b : Bytes) : Str := lossyFrom b.length b

theorem lossyFrom_utf8 {n : Nat} {s : Str} (h : (utf8 s).length ≤ n) : lossyFrom n (utf8 s) = s := by
  induction s generalizing n with
  | nil => cases n <;> rfl
  | cons c s ih =>
    have hlen : (utf8 (c :: s)).length = c.utf8Size + (utf8 s).length := by
      rw [utf8_cons, List.length_append, String.length_utf8EncodeChar]
    have hpos := c.utf8Size_pos
    obtain ⟨m, rfl⟩ : ∃ m, n = m + 1 := ⟨n - 1, by omega⟩
    have hdecode : (utf8 (c :: s)).toByteArray.utf8DecodeChar? 0 = some c := by
      rw [utf8_cons, List.toByteArray_append]
      exact ByteArray.utf8DecodeChar?_utf8EncodeChar_append
    have hdrop : (utf8 (c :: s)).drop c.utf8Size = utf8 s := by
      rw [utf8_cons, ← String.length_utf8EncodeChar, List.drop_left]
    have hne : utf8 (c :: s) ≠ [] := fun hnil => by
      rw [hnil, List.length_nil] at hlen
      omega
    obtain ⟨b, rest, hb⟩ := List.exists_cons_of_ne_nil hne
    rw [hb, lossyFrom.eq_3 _ _ (List.cons_ne_nil b rest), ← hb, hdecode]
    exact congrArg (c :: ·) (hdrop ▸ ih (by omega))

theorem fromUtf8Lossy_utf8 (s : Str) : fromUtf8Lossy (utf8 s) = s := lossyFrom_utf8 (Nat.le_refl _)

/-- Text of two bytes that begin a character, and of a byte that begins none. -/
example : fromUtf8Lossy [97, 0xE2, 0x82, 47, 0xFF, 98] = txt "a\uFFFD/\uFFFDb" := by decide +kernel

/-! ### Names -/

/-- What can be the name of a file. -/
structure FileName (b : Bytes) : Prop where
  ne_nil : b ≠ []
  nul : 0 ∉ b
  slash : 47 ∉ b
  ne_dot : b ≠ [46]
  ne_dotdot : b ≠ [46, 46]

instance (b : Bytes) : Decidable (FileName b) :=
  decidable_of_iff (b ≠ [] ∧ 0 ∉ b ∧ 47 ∉ b ∧ b ≠ [46] ∧ b ≠ [46, 46])
    ⟨fun ⟨h₁, h₂, h₃, h₄, h₅⟩ => ⟨h₁, h₂, h₃, h₄, h₅⟩,
      fun h => ⟨h.ne_nil, h.nul, h.slash, h.ne_dot, h.ne_dotdot⟩⟩

/-- A path of the system: its components, each as its bytes. -/
abbrev OsPath := List Bytes

/-- The path of some components of text. -/
def PathBuf.toOs (p : PathBuf) : OsPath := p.map utf8

/-- `to_string_lossy`, of a relative path. -/
def OsPath.toStringLossy (rel : OsPath) : Str := fromUtf8Lossy ([47].intercalate rel)

namespace Watching

variable {σ : Type} (V : Watching σ)

/-- What the path below the root is read as. -/
def readAs (rel : OsPath) : Str := rel.toStringLossy.map fun c => if c = '\\' then '/' else c

/-- `fs_path_to_vault_path`, of any path of the system. -/
def osPathToVaultPath (s : SyncIgnoreSet) (abs : OsPath) : Option Str :=
  if V.root.toOs.isPrefixOf abs then
    let rel := readAs (abs.drop V.root.length)
    if rel = [] then none
    else
      match Path.normalize V.crates.nfc rel with
      | .error _ => none
      | .ok path => if V.pathAllowed s path then some path else none
  else none

/-- `vault_path_to_fs_path`. -/
def vaultPathToOsPath (path : Str) : OsPath := (V.vaultPathToFsPath path).toOs

/-- A name that becomes text and is the same text when it is composed, without a backslash. -/
def Faithful (N : Nfc) (b : Bytes) : Prop := ∃ seg, b = utf8 seg ∧ '\\' ∉ seg ∧ N.nfc seg = seg

/-- Each name is one that stays as it is, or else the path is read as one that is not taken in. -/
def Returns (s : SyncIgnoreSet) (rel : OsPath) : Prop :=
  (∀ b ∈ rel, Faithful V.crates.nfc b) ∨
    ∀ path, Path.normalize V.crates.nfc (readAs rel) = .ok path → V.pathAllowed s path = false

variable {V} {s : SyncIgnoreSet} {rel rel' : OsPath} {path : Str}

/-- The names of a path of the document. -/
theorem vaultPathToOsPath_eq (hpath : Path.Normalized V.crates.nfc path) :
    V.vaultPathToOsPath path = V.root.toOs ++ (path.splitOn '/').map utf8 := by
  rw [vaultPathToOsPath, Setting.vaultPathToFsPath, components_of_normalized hpath, PathBuf.toOs,
    List.map_append]
  rfl

theorem fileName_of_segment {N : Nfc} {seg : Str} (h : Path.Segment N seg) : FileName (utf8 seg) where
  ne_nil hnil := h.ne_nil (utf8_inj (t := []) hnil)
  nul hin := h.nul (mem_of_mem_utf8 rfl hin)
  slash hin := h.slash (mem_of_mem_utf8 rfl hin)
  ne_dot hdot := h.ne_dot (utf8_inj (t := ['.']) hdot)
  ne_dotdot hdots := h.ne_dotdot (utf8_inj (t := ['.', '.']) hdots)

/-- A faithful name is a segment of a path. -/
theorem segment_of_fileName {N : Nfc} {seg : Str} (h : FileName (utf8 seg)) (hback : '\\' ∉ seg)
    (hnfc : N.nfc seg = seg) : Path.Segment N seg where
  ne_nil hnil := h.ne_nil (congrArg utf8 hnil)
  ne_dot hdot := h.ne_dot (congrArg utf8 hdot)
  ne_dotdot hdots := h.ne_dotdot (congrArg utf8 hdots)
  slash hin := h.slash (List.mem_flatMap.mpr ⟨'/', hin, by decide⟩)
  backslash := hback
  nul hin := h.nul (List.mem_flatMap.mpr ⟨'\x00', hin, by decide⟩)
  nfc := hnfc

theorem utf8_joinSlash (segs : List Str) :
    utf8 (Path.joinSlash segs) = [47].intercalate (segs.map utf8) := by
  induction segs with
  | nil => rfl
  | cons seg rest ih =>
    cases rest with
    | nil => simp [Path.joinSlash]
    | cons seg' rest =>
      have hstep : Path.joinSlash (seg :: seg' :: rest) = seg ++ '/' :: Path.joinSlash (seg' :: rest) := by
        simp [Path.joinSlash, List.intercalate_cons_cons]
      have hslash : String.utf8EncodeChar '/' = [47] := rfl
      rw [hstep, utf8_append, utf8_cons, ih, hslash]
      simp only [List.map_cons, List.intercalate_cons_cons, List.append_assoc]

theorem readAs_map_utf8 (segs : List Str) :
    readAs (segs.map utf8) = (Path.joinSlash segs).map fun c => if c = '\\' then '/' else c := by
  rw [readAs, OsPath.toStringLossy, ← utf8_joinSlash, fromUtf8Lossy_utf8]

/-- Faithful names are read as they are. -/
theorem readAs_faithful {segs : List Str} (h : ∀ seg ∈ segs, '\\' ∉ seg) :
    readAs (segs.map utf8) = Path.joinSlash segs := by
  rw [readAs_map_utf8]
  refine (List.map_congr_left fun c hc => if_neg ?_).trans (List.map_id _)
  intro hback
  subst hback
  obtain hslash | ⟨seg, hseg, hc⟩ := Path.mem_joinSlash hc
  · cases hslash
  · exact h seg hseg hc

theorem osPathToVaultPath_append :
    V.osPathToVaultPath s (V.root.toOs ++ rel) = some path ↔
      Path.normalize V.crates.nfc (readAs rel) = .ok path ∧ V.pathAllowed s path = true := by
  have hprefix : V.root.toOs.isPrefixOf (V.root.toOs ++ rel) = true := by simp
  have hdrop : (V.root.toOs ++ rel).drop V.root.length = rel := by
    have hlen : V.root.length = V.root.toOs.length := (List.length_map utf8).symm
    rw [hlen, List.drop_left]
  rw [osPathToVaultPath, if_pos hprefix, hdrop]
  dsimp only
  split
  next hnil => simp [hnil, Path.normalize]
  next =>
    split
    next hnormalize => simp [hnormalize]
    next q hnormalize =>
      rw [hnormalize]
      split
      next hallowed =>
        simp only [Option.some.injEq, Except.ok.injEq]
        exact ⟨fun h => ⟨h, h ▸ hallowed⟩, fun h => h.1⟩
      next hnot =>
        simp only [reduceCtorEq, Except.ok.injEq, false_iff]
        intro h
        obtain ⟨h, hallowed⟩ := h
        exact hnot (h ▸ hallowed)

/-- Of a path of text this is what the handler of the watcher's events asks for. -/
theorem osPathToVaultPath_toOs (abs : PathBuf) :
    V.osPathToVaultPath s abs.toOs = V.fsPathToVaultPath s abs := by
  by_cases hprefix : V.root <+: abs
  · obtain ⟨rel, rfl⟩ := hprefix
    have hstrip : (V.root ++ rel).stripPrefix V.root = some rel := by simp [PathBuf.stripPrefix]
    have hos : (V.root ++ rel).toOs = V.root.toOs ++ rel.map utf8 := List.map_append
    refine Option.ext fun path => ?_
    rw [hos, osPathToVaultPath_append, readAs_map_utf8]
    simp only [fsPathToVaultPath, vaultRelative, hstrip, Option.bind_eq_bind, Option.bind_some]
    by_cases hrel : rel = []
    · subst hrel
      simp [Path.joinSlash, Path.normalize]
    · rw [if_neg hrel]
      split
      next p hnormalize =>
        rw [hnormalize, Option.bind_some]
        split
        next hallowed =>
          simp only [Option.some.injEq, Except.ok.injEq]
          exact ⟨fun h => h.1, fun h => ⟨h, h ▸ hallowed⟩⟩
        next hnot =>
          simp only [reduceCtorEq, Except.ok.injEq, iff_false]
          intro h
          obtain ⟨h, hallowed⟩ := h
          exact hnot (h ▸ hallowed)
      next hnormalize => simp [hnormalize]
  · have hos : ¬ V.root.toOs <+: abs.toOs := by
      rwa [PathBuf.toOs, PathBuf.toOs, List.prefix_map_iff_of_injective fun _ _ => utf8_inj]
    have hstrip : abs.stripPrefix V.root = none := by
      rw [PathBuf.stripPrefix, if_neg (by rwa [List.isPrefixOf_iff_prefix])]
    rw [osPathToVaultPath, if_neg (by rwa [List.isPrefixOf_iff_prefix]), fsPathToVaultPath,
      vaultRelative, hstrip]
    rfl

/-- A path of the document is read as itself. -/
theorem osPathToVaultPath_vaultPathToOsPath (hpath : Path.Normalized V.crates.nfc path)
    (hallowed : V.pathAllowed s path = true) :
    V.osPathToVaultPath s (V.vaultPathToOsPath path) = some path := by
  have hback : ∀ seg ∈ path.splitOn '/', '\\' ∉ seg := fun seg hseg =>
    (hpath.segments seg hseg).backslash
  rw [vaultPathToOsPath_eq hpath, osPathToVaultPath_append, readAs_faithful hback,
    Path.joinSlash_splitOn]
  exact ⟨hpath, hallowed⟩

theorem exists_segments {N : Nfc} (hnames : ∀ b ∈ rel, FileName b)
    (hfaithful : ∀ b ∈ rel, Faithful N b) :
    ∃ segs : List Str, rel = segs.map utf8 ∧ ∀ seg ∈ segs, Path.Segment N seg := by
  induction rel with
  | nil => exact ⟨[], rfl, fun _ h => nomatch h⟩
  | cons b rel ih =>
    obtain ⟨segs, rfl, hsegs⟩ := ih (fun x hx => hnames x (List.mem_cons_of_mem _ hx))
      fun x hx => hfaithful x (List.mem_cons_of_mem _ hx)
    obtain ⟨seg, rfl, hback, hnfc⟩ := hfaithful b List.mem_cons_self
    have hseg := segment_of_fileName (hnames _ List.mem_cons_self) hback hnfc
    refine ⟨seg :: segs, rfl, fun x hx => ?_⟩
    obtain rfl | hx := List.mem_cons.mp hx
    · exact hseg
    · exact hsegs x hx

/-- **Which files are found again.** -/
theorem returns_iff (hnames : ∀ b ∈ rel, FileName b) : V.Returns s rel ↔
    ∀ path, V.osPathToVaultPath s (V.root.toOs ++ rel) = some path →
      V.vaultPathToOsPath path = V.root.toOs ++ rel := by
  constructor
  · intro h path hpath
    obtain ⟨hnormalize, hallowed⟩ := osPathToVaultPath_append.mp hpath
    obtain hfaithful | hno := h
    · obtain ⟨segs, rfl, hsegs⟩ := exists_segments hnames hfaithful
      rw [readAs_faithful fun seg hseg => (hsegs seg hseg).backslash] at hnormalize
      have hne : segs ≠ [] := by
        intro hnil
        subst hnil
        cases hnormalize
      have hnorm := Path.normalized_joinSlash hsegs hne
      obtain rfl := Except.ok.inj (hnorm.symm.trans hnormalize)
      rw [vaultPathToOsPath_eq hnorm, Path.joinSlash,
        List.splitOn_intercalate '/' (fun seg hseg => (hsegs seg hseg).slash) hne]
    · rw [hno path hnormalize] at hallowed
      cases hallowed
  · intro h
    by_cases hsome : ∃ path, V.osPathToVaultPath s (V.root.toOs ++ rel) = some path
    · obtain ⟨path, hpath⟩ := hsome
      have hnorm := Path.normalized_of_normalize (osPathToVaultPath_append.mp hpath).1
      have hrel := List.append_cancel_left ((vaultPathToOsPath_eq hnorm).symm.trans (h path hpath))
      refine .inl fun b hb => ?_
      rw [← hrel] at hb
      obtain ⟨seg, hseg, rfl⟩ := List.mem_map.mp hb
      have hsegment := hnorm.segments seg hseg
      exact ⟨seg, rfl, hsegment.backslash, hsegment.nfc⟩
    · refine .inr fun path hnormalize => Bool.eq_false_of_not_eq_true fun hallowed => hsome ?_
      exact ⟨path, osPathToVaultPath_append.mpr ⟨hnormalize, hallowed⟩⟩

/-- **Paths of the disk and of the document.** A file that is found again is the only one of its
path among such files; any other shares its path with a file that is found again. -/
theorem paths_inverse (V : Watching σ) (s : SyncIgnoreSet) (rel : OsPath)
    (hnames : ∀ b ∈ rel, FileName b) :
    ((∀ path, V.osPathToVaultPath s (V.root.toOs ++ rel) = some path →
        V.vaultPathToOsPath path = V.root.toOs ++ rel) ↔ V.Returns s rel) ∧
    (V.Returns s rel → ∀ rel' path, (∀ b ∈ rel', FileName b) → V.Returns s rel' →
      V.osPathToVaultPath s (V.root.toOs ++ rel) = some path →
      V.osPathToVaultPath s (V.root.toOs ++ rel') = some path → rel = rel') ∧
    (¬ V.Returns s rel → ∃ rel' path, (∀ b ∈ rel', FileName b) ∧ rel' ≠ rel ∧
      V.osPathToVaultPath s (V.root.toOs ++ rel) = some path ∧
      V.osPathToVaultPath s (V.root.toOs ++ rel') = some path) ∧
    ∀ path, Path.Normalized V.crates.nfc path → V.pathAllowed s path = true →
      V.osPathToVaultPath s (V.vaultPathToOsPath path) = some path := by
  refine ⟨(returns_iff hnames).symm, ?_, ?_, ?_⟩
  · intro h rel' path hnames' h' hpath hpath'
    have hback := (returns_iff hnames).mp h path hpath
    have hback' := (returns_iff hnames').mp h' path hpath'
    exact List.append_cancel_left (hback.symm.trans hback')
  · intro h
    rw [returns_iff hnames] at h
    push Not at h
    obtain ⟨path, hpath, hother⟩ := h
    obtain ⟨hnormalize, hallowed⟩ := osPathToVaultPath_append.mp hpath
    have hnorm := Path.normalized_of_normalize hnormalize
    refine ⟨(path.splitOn '/').map utf8, path, fun b hb => ?_, fun heq => hother ?_, hpath, ?_⟩
    · obtain ⟨seg, hseg, rfl⟩ := List.mem_map.mp hb
      exact fileName_of_segment (hnorm.segments seg hseg)
    · rw [vaultPathToOsPath_eq hnorm, heq]
    · rw [← vaultPathToOsPath_eq hnorm]
      exact osPathToVaultPath_vaultPathToOsPath hnorm hallowed
  · intro path hpath hallowed
    exact osPathToVaultPath_vaultPathToOsPath hpath hallowed

/-- A file of which the name has a backslash is taken for one in a directory. -/
theorem backslash_name :
    (∀ b ∈ [utf8 (txt "a\\b.md")], FileName b) ∧
      localDisk.osPathToVaultPath ⟨localDisk.root, []⟩
        (localDisk.root.toOs ++ [utf8 (txt "a\\b.md")]) = some (txt "a/b.md") ∧
      localDisk.vaultPathToOsPath (txt "a/b.md") ≠
        localDisk.root.toOs ++ [utf8 (txt "a\\b.md")] ∧
      localDisk.osPathToVaultPath ⟨localDisk.root, []⟩
        (localDisk.root.toOs ++ [utf8 (txt "a"), utf8 (txt "b.md")]) = some (txt "a/b.md") := by
  refine ⟨by decide, ?_, by decide, ?_⟩
  · decide +kernel
  · decide +kernel

/-- A note in a directory is found again. -/
theorem paths_inverse_note :
    localDisk.osPathToVaultPath ⟨localDisk.root, []⟩
        (localDisk.root.toOs ++ [utf8 (txt "a"), utf8 (txt "b.md")]) = some (txt "a/b.md") ∧
      localDisk.vaultPathToOsPath (txt "a/b.md") =
        localDisk.root.toOs ++ [utf8 (txt "a"), utf8 (txt "b.md")] := by
  have hnames : ∀ b ∈ [utf8 (txt "a"), utf8 (txt "b.md")], FileName b := by decide
  have hpath : localDisk.osPathToVaultPath ⟨localDisk.root, []⟩
      (localDisk.root.toOs ++ [utf8 (txt "a"), utf8 (txt "b.md")]) = some (txt "a/b.md") := by
    decide +kernel
  have hreturns : localDisk.Returns ⟨localDisk.root, []⟩ [utf8 (txt "a"), utf8 (txt "b.md")] := by
    refine .inl fun b hb => ?_
    simp only [List.mem_cons, List.not_mem_nil, or_false] at hb
    obtain rfl | rfl := hb
    · exact ⟨txt "a", rfl, by decide, rfl⟩
    · exact ⟨txt "b.md", rfl, by decide, rfl⟩
  exact ⟨hpath, (paths_inverse localDisk _ _ hnames).1.mpr hreturns _ hpath⟩

end Watching

end AgentSync
