import AgentSync.Fs.Guarding

/-! What is inside a directory that is ignored.

The patterns of one `.syncignore` decide about a path by itself, or else by the nearest directory
above it that they say something of; of several such files the deepest counts that decides. So
what is inside an ignored directory is ignored too, unless a negated pattern speaks of something
below that directory (`SyncIgnoreSet.matches_of_above`). -/
namespace AgentSync

open Program

/-! ### One file of patterns -/

/-- A path and what is above it, the nearest first; taken backwards. -/
def climb : PathBuf → List PathBuf
  | [] => [[]]
  | seg :: up => (seg :: up).reverse :: climb up

/-- The paths that patterns are tried on, and whether they are directories. -/
def tried (rel : PathBuf) (isDir : Bool) : List (PathBuf × Bool) :=
  (rel, isDir) :: (climb rel.reverse).tail.map fun up => (up, true)

/-- The first verdict there is. -/
def firstDecisive : List Verdict → Verdict
  | [] => .none
  | .none :: rest => firstDecisive rest
  | v :: _ => v

/-- What patterns make of a path, which make `glob` of each path by itself. -/
def matchedPathOrAnyParents (glob : PathBuf → Bool → Verdict) (rel : PathBuf) (isDir : Bool) :
    Verdict :=
  firstDecisive ((tried rel isDir).map fun x => glob x.1 x.2)

theorem firstDecisive_append {vs ws : List Verdict} (h : ∀ v ∈ vs, v = .none) :
    firstDecisive (vs ++ ws) = firstDecisive ws := by
  induction vs with
  | nil => rfl
  | cons v vs ih =>
    obtain rfl := h v List.mem_cons_self
    exact ih fun w hw => h w (List.mem_cons_of_mem _ hw)

theorem firstDecisive_eq_none {vs : List Verdict} :
    firstDecisive vs = .none ↔ ∀ v ∈ vs, v = .none := by
  induction vs with
  | nil => simp [firstDecisive]
  | cons v vs ih => cases v <;> simp [firstDecisive, ih]

/-- A verdict is that of some path, and nothing before it has one. -/
theorem firstDecisive_eq {vs : List Verdict} {v : Verdict} (h : firstDecisive vs = v)
    (hv : v ≠ .none) :
    ∃ front back, vs = front ++ v :: back ∧ ∀ w ∈ front, w = .none := by
  induction vs with
  | nil => exact absurd h.symm hv
  | cons w vs ih =>
    cases w with
    | none =>
      obtain ⟨front, back, rfl, hfront⟩ := ih h
      refine ⟨.none :: front, back, rfl, fun x hx => ?_⟩
      obtain rfl | hx := List.mem_cons.mp hx
      · rfl
      · exact hfront x hx
    | ignore => exact ⟨[], vs, by rw [← h]; rfl, fun _ hx => nomatch hx⟩
    | whitelist => exact ⟨[], vs, by rw [← h]; rfl, fun _ hx => nomatch hx⟩

theorem climb_append (t d : PathBuf) : ∃ front, climb (t ++ d) = front ++ climb d ∧
    ∀ x ∈ front, ∃ u, u ≠ [] ∧ x = d.reverse ++ u := by
  induction t with
  | nil => exact ⟨[], rfl, fun _ hx => nomatch hx⟩
  | cons seg t ih =>
    obtain ⟨front, heq, hfront⟩ := ih
    refine ⟨(seg :: (t ++ d)).reverse :: front, ?_, fun x hx => ?_⟩
    · rw [List.cons_append, climb, heq, List.cons_append]
    · obtain rfl | hx := List.mem_cons.mp hx
      · exact ⟨t.reverse ++ [seg], by simp, by simp⟩
      · exact hfront x hx

theorem climb_head (l : PathBuf) : climb l = l.reverse :: (climb l).tail := by
  cases l <;> rfl

/-- Below a directory the paths below it are tried first, and then the directory. -/
theorem tried_append (d : PathBuf) {t : PathBuf} (ht : t ≠ []) (isDir : Bool) :
    ∃ front, tried (d ++ t) isDir = front ++ tried d true ∧
      ∀ x ∈ front, ∃ u, u ≠ [] ∧ x.1 = d ++ u := by
  obtain hnil | ⟨t', seg, rfl⟩ := List.eq_nil_or_concat' t
  · exact absurd hnil ht
  obtain ⟨front, hclimb, hfront⟩ := climb_append t'.reverse d.reverse
  rw [List.reverse_reverse] at hfront
  refine ⟨(d ++ (t' ++ [seg]), isDir) :: front.map fun up => (up, true), ?_, fun x hx => ?_⟩
  · have htail : (climb (d ++ (t' ++ [seg])).reverse).tail = front ++ climb d.reverse := by
      rw [← hclimb]
      simp [climb]
    rw [tried, htail, List.map_append, climb_head d.reverse, List.reverse_reverse]
    rfl
  · obtain rfl | hx := List.mem_cons.mp hx
    · exact ⟨t' ++ [seg], ht, rfl⟩
    · obtain ⟨up, hup, rfl⟩ := List.mem_map.mp hx
      exact hfront up hup

/-! ### All of them -/

namespace SyncIgnoreSet

/-- The verdict of one file on a path, which it may not be above. -/
def verdict (m : DirMatcher) (abs : PathBuf) (isDir : Bool) : Verdict :=
  if m.dir.isPrefixOf abs then m.matcher abs isDir else .none

/-- What verdicts come to, each over those before it. -/
def settle (v : DirMatcher → Verdict) (ms : List DirMatcher) : Bool :=
  ms.foldl (fun ignored m =>
    match v m with
    | .ignore => true
    | .whitelist => false
    | .none => ignored) false

theorem matches_eq_settle (s : SyncIgnoreSet) (path : Str) (isDir : Bool) :
    s.matches path isDir = settle (verdict · (s.vaultRoot.join path) isDir) s.matchers := by
  unfold SyncIgnoreSet.matches settle
  dsimp only
  congr 1
  funext ignored m
  unfold verdict
  split <;> rfl

variable {v : DirMatcher → Verdict} {before after ms : List DirMatcher} {m : DirMatcher}

/-- **The last verdict counts.** -/
theorem settle_of_last (hm : v m ≠ .none) (hafter : ∀ x ∈ after, v x = .none) :
    settle v (before ++ m :: after) = decide (v m = .ignore) := by
  have hrest (b : Bool) : after.foldl (fun ignored m =>
      match v m with
      | .ignore => true
      | .whitelist => false
      | .none => ignored) b = b := by
    induction after with
    | nil => rfl
    | cons x after ih =>
      rw [List.foldl_cons, hafter x List.mem_cons_self]
      exact ih fun y hy => hafter y (List.mem_cons_of_mem _ hy)
  rw [settle, List.foldl_append, List.foldl_cons, hrest]
  cases h : v m with
  | none => exact absurd h hm
  | ignore => rfl
  | whitelist => rfl

/-- There is a last one, or none. -/
theorem exists_last (v : DirMatcher → Verdict) (ms : List DirMatcher) : (∀ m ∈ ms, v m = .none) ∨
    ∃ before m after, ms = before ++ m :: after ∧ v m ≠ .none ∧ ∀ x ∈ after, v x = .none := by
  induction ms with
  | nil => exact .inl fun _ hm => nomatch hm
  | cons m ms ih =>
    obtain hnone | ⟨before, m', after, rfl, hm', hafter⟩ := ih
    · by_cases hm : v m = .none
      · exact .inl fun x hx => (List.mem_cons.mp hx).elim (fun h => h ▸ hm) (hnone x)
      · exact .inr ⟨[], m, ms, rfl, hm, hnone⟩
    · exact .inr ⟨m :: before, m', after, rfl, hm', hafter⟩

theorem settle_of_none (h : ∀ m ∈ ms, v m = .none) : settle v ms = false := by
  induction ms with
  | nil => rfl
  | cons m ms ih =>
    rw [settle, List.foldl_cons, h m List.mem_cons_self]
    exact ih fun x hx => h x (List.mem_cons_of_mem _ hx)

/-! ### Above and below -/

/-- Each file decides by its patterns. -/
def Decided (s : SyncIgnoreSet) (glob : DirMatcher → PathBuf → Bool → Verdict) : Prop :=
  ∀ m ∈ s.matchers, ∀ rel isDir,
    m.matcher (m.dir ++ rel) isDir = matchedPathOrAnyParents (glob m) rel isDir

/-- What decides about `abs` is a negated pattern for `abs` or a directory above it, which is below
`dir`. -/
def ReincludedBelow (s : SyncIgnoreSet) (glob : DirMatcher → PathBuf → Bool → Verdict)
    (dir abs : PathBuf) (isDir : Bool) : Prop :=
  ∃ before m after, s.matchers = before ++ m :: after ∧
    (∀ x ∈ after, verdict x abs isDir = .none) ∧
    ∃ rel front q back, abs = m.dir ++ rel ∧ tried rel isDir = front ++ q :: back ∧
      (∀ x ∈ front, glob m x.1 x.2 = .none) ∧ glob m q.1 q.2 = .whitelist ∧
      ∃ u, u ≠ [] ∧ m.dir ++ q.1 = dir ++ u

variable {s : SyncIgnoreSet} {glob : DirMatcher → PathBuf → Bool → Verdict}
  {dir t abs : PathBuf} {isDir : Bool}

theorem verdict_append (hm : m ∈ s.matchers) (hglob : s.Decided glob) (rel : PathBuf) :
    verdict m (m.dir ++ rel) isDir = matchedPathOrAnyParents (glob m) rel isDir := by
  rw [verdict, if_pos (by simp), hglob m hm]

/-- A file that says nothing of a path says nothing of what is above it. -/
theorem verdict_above (hm : m ∈ s.matchers) (hglob : s.Decided glob) (ht : t ≠ [])
    (h : verdict m (dir ++ t) isDir = .none) : verdict m dir true = .none := by
  by_cases hdir : m.dir.isPrefixOf dir = true
  · obtain ⟨r, rfl⟩ := List.isPrefixOf_iff_prefix.mp hdir
    rw [List.append_assoc, verdict_append hm hglob, matchedPathOrAnyParents,
      firstDecisive_eq_none] at h
    rw [verdict_append hm hglob, matchedPathOrAnyParents, firstDecisive_eq_none]
    obtain ⟨front, htried, -⟩ := tried_append r ht isDir
    rw [htried, List.map_append] at h
    exact fun v hv => h v (List.mem_append_right _ hv)
  · exact if_neg hdir

/-- A negated pattern that does not speak of something below the directory speaks of it, or of one
above it. -/
theorem whitelisted_above (hm : m ∈ s.matchers) (hglob : s.Decided glob) (ht : t ≠ [])
    {rel : PathBuf} {front back : List (PathBuf × Bool)} {q : PathBuf × Bool}
    (hrel : m.dir ++ rel = dir ++ t) (htried : tried rel isDir = front ++ q :: back)
    (hfront : ∀ x ∈ front, glob m x.1 x.2 = .none) (hq : glob m q.1 q.2 = .whitelist)
    (hbelow : ¬ ∃ u, u ≠ [] ∧ m.dir ++ q.1 = dir ++ u) : verdict m dir true = .whitelist := by
  have hsplit : ∃ r, dir = m.dir ++ r ∧ rel = r ++ t := by
    obtain ⟨r, hdir, hrel⟩ | ⟨c, hdir, hrel⟩ := List.append_eq_append_iff.mp hrel
    · exact ⟨r, hdir, hrel⟩
    · cases c with
      | nil => exact ⟨[], by simpa using hdir.symm, by simpa using hrel.symm⟩
      | cons seg c => exact absurd ⟨seg :: c ++ q.1, by simp, by rw [hdir, List.append_assoc]⟩ hbelow
  obtain ⟨r, rfl, rfl⟩ := hsplit
  obtain ⟨first, htried', hfirst⟩ := tried_append r ht isDir
  have hup : ∃ c, tried r true = c ++ q :: back ∧ ∀ x ∈ c, glob m x.1 x.2 = .none := by
    obtain ⟨c, rfl, hc⟩ | ⟨c, rfl, hc⟩ := List.append_eq_append_iff.mp (htried'.symm.trans htried)
    · exact ⟨c, hc, fun x hx => hfront x (List.mem_append_right _ hx)⟩
    · cases c with
      | nil => exact ⟨[], hc.symm, fun _ hx => nomatch hx⟩
      | cons x c =>
        obtain ⟨rfl, -⟩ := List.cons.inj hc
        obtain ⟨u, hu, hqu⟩ := hfirst q (List.mem_append_right _ List.mem_cons_self)
        exact absurd ⟨u, hu, by rw [hqu, List.append_assoc]⟩ hbelow
  obtain ⟨c, hc, hnone⟩ := hup
  have hverdicts : ∀ v ∈ c.map fun x => glob m x.1 x.2, v = .none := fun v hv => by
    obtain ⟨x, hx, rfl⟩ := List.mem_map.mp hv
    exact hnone x hx
  rw [verdict_append hm hglob, matchedPathOrAnyParents, hc, List.map_append,
    firstDecisive_append hverdicts, List.map_cons, hq]
  rfl

/-- **What is in an ignored directory is ignored**, unless a negated pattern speaks of something
below the directory. -/
theorem settle_of_above (hglob : s.Decided glob) (ht : t ≠ [])
    (hdir : settle (verdict · dir true) s.matchers = true)
    (hno : ¬ s.ReincludedBelow glob dir (dir ++ t) isDir) :
    settle (verdict · (dir ++ t) isDir) s.matchers = true := by
  obtain hnone | ⟨before, m, after, hms, hm, hafter⟩ :=
    exists_last (verdict · (dir ++ t) isDir) s.matchers
  · -- Then nothing would decide about the directory.
    have hnone' : ∀ m ∈ s.matchers, verdict m dir true = .none := fun m hm =>
      verdict_above hm hglob ht (hnone m hm)
    rw [settle_of_none hnone'] at hdir
    cases hdir
  have hmem : m ∈ s.matchers := hms ▸ List.mem_append_right before List.mem_cons_self
  rw [hms, settle_of_last hm hafter]
  refine decide_eq_true ?_
  cases hv : verdict m (dir ++ t) isDir with
  | none => exact absurd hv hm
  | ignore => rfl
  | whitelist =>
    exfalso
    have hprefix : m.dir.isPrefixOf (dir ++ t) = true := by
      refine Bool.eq_true_of_not_eq_false fun hfalse => hm ?_
      show verdict m (dir ++ t) isDir = .none
      rw [verdict, hfalse]
      rfl
    obtain ⟨rel, hrel⟩ := List.isPrefixOf_iff_prefix.mp hprefix
    rw [← hrel, verdict_append hmem hglob, matchedPathOrAnyParents] at hv
    obtain ⟨vfront, vback, hmap, hnone⟩ := firstDecisive_eq hv (by simp)
    obtain ⟨front, rest, htried, rfl, hrest⟩ := List.map_eq_append_iff.mp hmap
    obtain ⟨q, back, rfl, hq, rfl⟩ := List.map_eq_cons_iff.mp hrest
    have hfront : ∀ x ∈ front, glob m x.1 x.2 = .none := fun x hx =>
      hnone _ (List.mem_map_of_mem hx)
    by_cases hbelow : ∃ u, u ≠ [] ∧ m.dir ++ q.1 = dir ++ u
    · exact hno ⟨before, m, after, hms, hafter, rel, front, q, back, hrel.symm, htried, hfront, hq,
        hbelow⟩
    · -- The directory would not be ignored either.
      have hwhite := whitelisted_above hmem hglob ht hrel htried hfront hq hbelow
      have hlast : settle (verdict · dir true) s.matchers = decide (verdict m dir true = .ignore) := by
        rw [hms]
        refine settle_of_last (by simp [hwhite]) fun x hx => ?_
        have hxmem : x ∈ s.matchers :=
          hms ▸ List.mem_append_right before (List.mem_cons_of_mem _ hx)
        exact verdict_above hxmem hglob ht (hafter x hx)
      rw [hlast, hwhite] at hdir
      cases hdir

/-- Where a path of the document is. -/
theorem join_normalized {N : Nfc} {path : Str} (h : Path.Normalized N path) (root : PathBuf) :
    root.join path = root ++ path.splitOn '/' := by
  have hhead : path.head? ≠ some '/' := by
    rw [← Path.joinSlash_splitOn path]
    exact Path.head?_joinSlash h.segments
  rw [PathBuf.join, if_neg hhead, components_of_normalized h]

theorem matches_of_above {N : Nfc} {d path : Str} (hglob : s.Decided glob)
    (hpath : Path.Normalized N path) (hd : d ∈ Path.ancestors path)
    (hdir : s.matches d true = true)
    (hno : ¬ s.ReincludedBelow glob (s.vaultRoot.join d) (s.vaultRoot.join path) isDir) :
    s.matches path isDir = true := by
  obtain ⟨t, rfl⟩ := hpath.mem_ancestors.mp hd
  have hsplit : s.vaultRoot.join (d ++ '/' :: t) = s.vaultRoot.join d ++ t.splitOn '/' := by
    rw [join_normalized hpath, join_normalized (hpath.ancestors d hd),
      List.splitOn_append_cons_self, List.append_assoc]
  rw [matches_eq_settle] at hdir ⊢
  rw [hsplit] at hno ⊢
  exact settle_of_above hglob (List.splitOn_ne_nil _ _) hdir hno

end SyncIgnoreSet

/-! ### The scan -/

namespace Watching

variable {σ : Type} {V : Watching σ} {s : SyncIgnoreSet}
  {glob : DirMatcher → PathBuf → Bool → Verdict} {d path : Str}

/-- The file is inside a directory that is never synced; or it is inside one that is ignored, and no
pattern takes it back, nor is it one of the files of patterns, which every peer needs. -/
def InExcluded (s : SyncIgnoreSet) (glob : DirMatcher → PathBuf → Bool → Verdict) (path : Str) :
    Prop :=
  ∃ d ∈ Path.ancestors path, alwaysExcluded d = true ∨
    (s.matches d true = true ∧ isSyncignorePath path = false ∧
      ¬ s.ReincludedBelow glob (s.vaultRoot.join d) (s.vaultRoot.join path) false)

theorem alwaysExcluded_of_above {N : Nfc} (hpath : Path.Normalized N path)
    (hd : d ∈ Path.ancestors path) (h : alwaysExcluded d = true) : alwaysExcluded path = true := by
  obtain ⟨t, rfl⟩ := hpath.mem_ancestors.mp hd
  have hhead : ((d ++ '/' :: t).splitOn '/').headD [] = (d.splitOn '/').headD [] := by
    rw [List.splitOn_append_cons_self]
    cases hsplit : d.splitOn '/' with
    | nil => exact absurd hsplit (List.splitOn_ne_nil _ _)
    | cons seg rest => rfl
  rw [alwaysExcluded, hhead]
  exact h

/-- What is inside an excluded directory is not allowed. -/
theorem not_pathAllowed_of_inExcluded (hglob : s.Decided glob)
    (hpath : Path.Normalized V.crates.nfc path) (h : InExcluded s glob path) :
    V.pathAllowed s path = false := by
  obtain ⟨d, hd, hexcluded | ⟨hdir, hignore, hno⟩⟩ := h
  · rw [pathAllowed, alwaysExcluded_of_above hpath hd hexcluded]
    rfl
  · have hkeys : path ≠ authorizedKeysFile := by
      intro hkeys
      have hnone : Path.ancestors authorizedKeysFile = [] := by decide
      rw [hkeys, hnone] at hd
      cases hd
    have hmatches := SyncIgnoreSet.matches_of_above hglob hpath hd hdir hno
    simp [pathAllowed, hkeys, hignore, hmatches]

/-- **Exclusion is hereditary**, and a scan syncs nothing that is inside. -/
theorem excluded_inside (V : Watching σ) (s : SyncIgnoreSet)
    (glob : DirMatcher → PathBuf → Bool → Verdict) (hglob : s.Decided glob) :
    (∀ path d isDir, Path.Normalized V.crates.nfc path → d ∈ Path.ancestors path →
      s.matches d true = true →
      ¬ s.ReincludedBelow glob (s.vaultRoot.join d) (s.vaultRoot.join path) isDir →
      s.matches path isDir = true) ∧
    ∀ P : Doc → Prop, Doc.TakenInAt V.crates (fun path => ¬ InExcluded s glob path) P →
      Program.Keeps (Watch.HasUnder s P) V.initialScan := by
  constructor
  · intro path d isDir hpath hd hdir hno
    exact SyncIgnoreSet.matches_of_above hglob hpath hd hdir hno
  · intro P hP
    refine initialScan_keepsAt hP fun abs path habs hin => ?_
    have hallowed := (vaultRelative_of_vaultPath habs).2
    rw [not_pathAllowed_of_inExcluded hglob (normalized_vaultPath habs) hin] at hallowed
    cases hallowed

/-- `build/`, and `!build/keep.md` or nothing more. -/
private def buildGlob (keeps : Bool) (rel : PathBuf) (isDir : Bool) : Verdict :=
  if rel = [txt "build"] ∧ isDir = true then .ignore
  else if keeps = true ∧ rel = [txt "build", txt "keep.md"] then .whitelist
  else .none

private def buildIgnored (keeps : Bool) : SyncIgnoreSet where
  vaultRoot := []
  matchers := [⟨[], 0, matchedPathOrAnyParents (buildGlob keeps)⟩]

private theorem decided_buildIgnored (keeps : Bool) :
    (buildIgnored keeps).Decided fun _ => buildGlob keeps := by
  intro m hm rel isDir
  obtain rfl := List.mem_singleton.mp hm
  rfl

/-- The note is inside, and a pattern takes it back; a file of patterns needs none. -/
theorem included_inside : (buildIgnored true).Decided (fun _ => buildGlob true) ∧
    (buildIgnored true).matches (txt "build") true = true ∧
    txt "build" ∈ Path.ancestors (txt "build/keep.md") ∧
    (buildIgnored true).matches (txt "build/keep.md") false = false ∧
    localDisk.pathAllowed (buildIgnored true) (txt "build/keep.md") = true ∧
    txt "build" ∈ Path.ancestors (txt "build/.syncignore") ∧
    localDisk.pathAllowed (buildIgnored true) (txt "build/.syncignore") = true :=
  ⟨decided_buildIgnored true, by decide, by decide, by decide, by decide +kernel, by decide, by decide⟩

/-- Without the negated pattern nothing inside is synced. -/
theorem excluded_inside_build :
    (buildIgnored false).matches (txt "build/a/b.md") false = true ∧
    ∀ P : Doc → Prop,
      Doc.TakenInAt localDisk.crates
        (fun path => ¬ InExcluded (buildIgnored false) (fun _ => buildGlob false) path) P →
      Program.Keeps (Watch.HasUnder (buildIgnored false) P) localDisk.initialScan := by
  have h := excluded_inside localDisk (buildIgnored false) (fun _ => buildGlob false)
    (decided_buildIgnored false)
  refine ⟨h.1 (txt "build/a/b.md") (txt "build") false rfl (by decide) (by decide) ?_, h.2⟩
  rintro ⟨_, _, _, _, _, _, _, q, _, _, _, _, hwhite, _⟩
  revert hwhite
  simp only [buildGlob]
  split
  · simp
  · simp

end Watching

end AgentSync
