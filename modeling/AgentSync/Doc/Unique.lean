import AgentSync.Doc.Closure
import AgentSync.Doc.Timeline

/-! No two live entries of one path.

Entries are keyed by id, so each operation has to look before it writes. A restore brings
back an earlier state of the vault, so the law is kept for every state the history has been
in (`Tidy`). `rename_directory` alone does not look where it goes (`Doc.Collides`). -/
namespace AgentSync

variable {L : Crates} {A : Automerge} {r : Root} {fid did p q : Str}

/-- No two live directories have one path. -/
abbrev Root.UniqueDirectories (L : Crates) (r : Root) : Prop :=
  Index.Unique LiveDirectory.path (r.dirAt L)

/-! ### The operations -/

inductive VaultOp where
  | tree (op : TreeOp)
  | restoreToHeads (heads : List ChangeHash)

def VaultOp.run (L : Crates) (A : Automerge) : VaultOp → DocM Unit
  | .tree op => op.run L
  | .restoreToHeads heads => Doc.restoreToHeads L A heads

namespace Path

/-- At or below. -/
abbrev AtOrBelow (dir p : Str) : Prop := p = dir ∨ Below dir p

/-- Something at or below `src` is to go where something is that stays. -/
def Clash (src dst : Str) (paths : Set Str) : Prop :=
  ∃ x ∈ paths, AtOrBelow src x ∧ moved src dst x ∈ paths ∧ ¬ AtOrBelow src (moved src dst x)

end Path

namespace Doc

variable {d d' : Doc}

/-- The renames of a directory that put two entries at one path. -/
def Collides (L : Crates) (d : Doc) : VaultOp → Prop
  | .tree (.renameDirectory src dst) => ∃ p q, Path.normalize L.nfc src = .ok p ∧
      Path.normalize L.nfc dst = .ok q ∧ p ≠ q ∧
      (Path.Clash p q (d.root.filePaths L) ∨ Path.Clash p q (d.root.dirPaths L) ∨
        (Path.Below p q ∧ p ∈ d.root.dirPaths L ∧ q ∈ d.root.dirPaths L))
  | _ => False

/-! ### The invariant -/

/-- What the contents are like that the vault has or has had. -/
structure Neat (L : Crates) (d : Doc) (r : Root) : Prop where
  readable : r.Readable L
  files : r.UniqueFiles L
  directories : r.UniqueDirectories L
  file : ∀ n, d.draws ≤ n → r.get (.file (d.supply.id n)) = none
  dir : ∀ n, d.draws ≤ n → r.get (.dir (d.supply.id n)) = none

structure Tidy (L : Crates) (A : Automerge) (d : Doc) : Prop where
  sound : d.Sound L.nfc A
  closed : d.pending = []
  started : d.changes ≠ []
  sequential : Sequential d.changes
  once : ∀ m n, d.draws ≤ m → d.draws ≤ n → d.supply.id m = d.supply.id n → m = n
  neat : ∀ front, front ≠ [] → front <+: d.changes → d.Neat L (A.view front)

theorem Neat.later (h : d.Neat L r) (hsupply : d'.supply = d.supply) (hdraws : d.draws ≤ d'.draws) :
    d'.Neat L r :=
  ⟨h.readable, h.files, h.directories, fun n hn => hsupply ▸ h.file n (hdraws.trans hn),
    fun n hn => hsupply ▸ h.dir n (hdraws.trans hn)⟩

namespace Tidy

theorem root_eq (h : d.Tidy L A) : d.root = A.view d.changes := by
  rw [h.sound.root, h.closed]
  rfl

/-- The present is one of the states of the history. -/
theorem now (h : d.Tidy L A) : d.Neat L d.root := by
  rw [h.root_eq]
  exact h.neat _ h.started (List.prefix_refl _)

theorem settled (h : d.Tidy L A) : d.Settled L A :=
  ⟨h.sound, h.now.readable, h.now.file, h.now.dir, h.once⟩

theorem draw (h : d.Tidy L A) {n : Nat} (hn : d.draws ≤ n) : {d with draws := n}.Tidy L A :=
  ⟨h.sound.draw n, h.closed, h.started, h.sequential,
    fun l m hl hm => h.once l m (hn.trans hl) (hn.trans hm),
    fun front hne hfront => (h.neat front hne hfront).later rfl hn⟩

/-- **One more change**, or none. -/
theorem next (h : d.Tidy L A) (hsound : d'.Sound L.nfc A) (hclosed : d'.pending = [])
    (hchanges : d'.changes = d.changes ∨
      ∃ c, c.deps = headsOf d.changes ∧ d'.changes = d.changes ++ [c])
    (hsupply : d'.supply = d.supply) (hdraws : d.draws ≤ d'.draws) (hneat : d'.Neat L d'.root) :
    d'.Tidy L A := by
  have hroot : d'.root = A.view d'.changes := by
    rw [hsound.root, hclosed]
    rfl
  refine ⟨hsound, hclosed, ?_, ?_, fun m n hm hn => ?_, fun front hne hfront => ?_⟩
  · rcases hchanges with hsame | ⟨c, -, hnew⟩
    · rw [hsame]
      exact h.started
    · simp [hnew]
  · rcases hchanges with hsame | ⟨c, hdeps, hnew⟩
    · rw [hsame]
      exact h.sequential
    · rw [hnew]
      exact h.sequential.concat hdeps
  · rw [hsupply]
    exact h.once m n (hdraws.trans hm) (hdraws.trans hn)
  · by_cases hall : front = d'.changes
    · rw [hall, ← hroot]
      exact hneat
    · have hold : front <+: d.changes := by
        rcases hchanges with hsame | ⟨c, -, hnew⟩
        · exact hsame ▸ hfront
        · rw [hnew] at hfront hall
          exact (List.prefix_concat_iff.mp hfront).resolve_left hall
      exact (h.neat front hne hold).later hsupply hdraws

theorem becomes (h : d.Tidy L A) (hsound : d'.Sound L.nfc A) {files : Str → Option LiveFile}
    {dirs : Str → Option LiveDirectory} {paths : List Str} (hb : Becomes L d d' files dirs paths)
    (hfiles : Index.Unique LiveFile.path files) (hdirs : Index.Unique LiveDirectory.path dirs) :
    d'.Tidy L A := by
  refine h.next hsound hb.closed hb.changes hb.supply hb.draws
    ⟨hb.readable, ?_, hb.dirs.unique hdirs, hb.fresh.file, hb.fresh.dir⟩
  rw [Root.UniqueFiles, hb.files]
  exact hfiles

/-! ### The operations -/

theorem file (h : d.Tidy L A) (op : FileOp) : (d.after (op.run L)).Tidy L A := by
  have hsound : (d.after (op.run L)).Sound L.nfc A := op.run_keeps.after h.sound
  have hfiles := h.now.files
  have hdirs := h.now.directories
  have heffect := h.settled.effect op
  generalize d.after (op.run L) = d' at hsound heffect ⊢
  cases heffect with
  | none => exact h
  | rewritten hf hpath hb =>
    exact h.becomes hsound hb (hfiles.update (hfiles.free_of_same hf hpath)) hdirs
  | placed hnorm hfree hb =>
    exact h.becomes hsound hb (hfiles.update (Index.free_of_notMem hfree)) hdirs
  | deleted hb => exact h.becomes hsound hb hfiles.erase hdirs
  | created hnorm hb => exact h.becomes hsound hb hfiles hdirs

theorem unique_without {recursive : Bool} {dirs : Str → Option LiveDirectory}
    (h : r.UniqueDirectories L) (hdirs : Without p (withoutChildren p recursive (r.dirAt L)) dirs) :
    Index.Unique LiveDirectory.path dirs := by
  have hsub : ∀ did f, dirs did = some f → r.dirAt L did = some f := by
    intro did f hf
    have hleft : withoutChildren p recursive (r.dirAt L) did = some f := by
      rcases hdirs with ⟨did', f', -, -, rfl⟩ | ⟨-, rfl⟩
      · rw [Index.update_eq_some] at hf
        rcases hf with ⟨-, hf⟩ | ⟨-, hf⟩
        · cases hf
        · exact hf
      · exact hf
    unfold withoutChildren at hleft
    split at hleft
    next => exact (Option.filter_eq_some_iff.mp hleft).1
    next => exact hleft
  exact h.mono fun did f hf => ⟨f, hsub did f hf, rfl⟩

theorem deleteDirectory (h : d.Tidy L A) (path : Str) (recursive : Bool) :
    (d.after (Doc.deleteDirectory L path recursive)).Tidy L A := by
  cases hp : Path.normalize L.nfc path with
  | error e =>
    have hrun : Doc.deleteDirectory L path recursive d = .error e d := lift_error hp _
    rw [after_error hrun]
    exact h
  | ok p =>
    have hdeleted (d₁ d₂ : Doc) (fid : Str) (f : LiveFile) (h₁ : d₁.Tidy L A)
        (_ : d₁.root.fileAt L fid = some f) (hd₂ : d₂.Settled L A)
        (hb : Becomes L d₁ d₂ (Function.update (d₁.root.fileAt L) fid none) (d₁.root.dirAt L) []) :
        d₂.Tidy L A := h₁.becomes hd₂.sound hb h₁.now.files.erase h₁.now.directories
    have hoc := @Doc.deleteDirectory_outcome L A p d (Tidy L A) path recursive hdeleted h.settled
      (h.draw (Nat.le_succ _)) hp
    rcases hoc with ⟨-, -, e, hrun⟩ | ⟨-, _, d', hrun, mid, hmid, -, -, -, -, dirs, hdirs, hb⟩
    · rw [after_error hrun]
      exact h.draw (Nat.le_succ _)
    · rw [after_ok hrun]
      exact hmid.becomes ((deleteDirectory_keeps path recursive).of_ok h.sound hrun) hb
        hmid.now.files (unique_without h.now.directories hdirs)

/-- The paths of the directories stay apart when the one at `p` is redirected. -/
theorem unique_redirected {dirs : Str → Option LiveDirectory} (h : r.UniqueDirectories L)
    (hredirected : Redirected p q (r.dirAt L) dirs)
    (hfree : p ∈ r.dirPaths L → q ∉ r.dirPaths L) : Index.Unique LiveDirectory.path dirs := by
  rcases hredirected with ⟨did, f, hf, hpath, rfl⟩ | ⟨-, rfl⟩
  · exact h.update (Index.free_of_notMem (hfree ⟨did, f, hf, hpath⟩))
  · exact h

/-- Moving leaves paths apart that do not clash. -/
theorem unique_movedFiles (hp : Path.Normalized L.nfc p) (h : r.UniqueFiles L)
    (hok : ¬ Path.Clash p q (r.filePaths L)) :
    Index.Unique LiveFile.path fun fid => (r.fileAt L fid).map (movedFile p q) := by
  refine h.map fun fid fid' f f' hf hf' hsame => ?_
  rw [path_movedFile hp, path_movedFile hp] at hsame
  have hmem : f.path ∈ r.filePaths L := Index.mem_keys_of hf
  have hmem' : f'.path ∈ r.filePaths L := Index.mem_keys_of hf'
  by_cases hbelow : Path.AtOrBelow p f.path
  · by_cases hbelow' : Path.AtOrBelow p f'.path
    · rw [if_pos hbelow, if_pos hbelow'] at hsame
      exact Path.moved_inj hbelow hbelow' hsame
    · rw [if_pos hbelow, if_neg hbelow'] at hsame
      exact absurd ⟨_, hmem, hbelow, hsame ▸ hmem', hsame ▸ hbelow'⟩ hok
  · by_cases hbelow' : Path.AtOrBelow p f'.path
    · rw [if_neg hbelow, if_pos hbelow'] at hsame
      exact absurd ⟨_, hmem', hbelow', hsame ▸ hmem, hsame ▸ hbelow⟩ hok
    · rwa [if_neg hbelow, if_neg hbelow'] at hsame

theorem unique_movedDirectories {dirs : Str → Option LiveDirectory}
    (hp : Path.Normalized L.nfc p) (hne : p ≠ q) (h : r.UniqueDirectories L)
    (hredirected : Redirected p q (r.dirAt L) dirs) (hok : ¬ Path.Clash p q (r.dirPaths L))
    (hself : ¬ (Path.Below p q ∧ p ∈ r.dirPaths L ∧ q ∈ r.dirPaths L)) :
    Index.Unique LiveDirectory.path fun did => (dirs did).map (movedDirectory p q) := by
  have hfree (hthere : p ∈ r.dirPaths L) : q ∉ r.dirPaths L := by
    intro hq
    by_cases hbelow : Path.Below p q
    · exact hself ⟨hbelow, hthere, hq⟩
    · refine hok ⟨p, hthere, .inl rfl, ?_, ?_⟩
      · rwa [Path.moved_self]
      · rw [Path.moved_self]
        exact not_or.mpr ⟨Ne.symm hne, hbelow⟩
  have hunique := unique_redirected h hredirected hfree
  -- Once redirected nothing is left at `p`.
  have hgone {did : Str} {f : LiveDirectory} (hf : dirs did = some f) : f.path ≠ p := by
    rintro rfl
    rcases hredirected with ⟨did', f', hf', hpath, rfl⟩ | ⟨hnone, rfl⟩
    · rw [Index.update_eq_some] at hf
      rcases hf with ⟨-, hf⟩ | ⟨hdid, hf⟩
      · obtain rfl := Option.some.inj hf
        exact hne rfl
      · exact hdid (h did did' f f' hf hf' hpath.symm)
    · exact hnone (Index.mem_keys_of hf)
  have hstays {did did' : Str} {f f' : LiveDirectory} (hf : dirs did = some f)
      (hf' : dirs did' = some f') (hbelow : Path.Below p f.path)
      (hbelow' : ¬ Path.Below p f'.path) : Path.moved p q f.path ≠ f'.path := by
    intro hsame
    have hdst : Path.Below q f'.path := hsame ▸ hbelow.moved
    have hmem' := (hredirected.keys (hgone hf')).mp (Index.mem_keys_of hf')
    have hmem := (hredirected.keys (hgone hf)).mp (Index.mem_keys_of hf)
    rcases hmem with hmem | ⟨hq, -⟩
    · rcases hmem' with hmem' | ⟨hq, -⟩
      · refine hok ⟨_, hmem, .inr hbelow, hsame ▸ hmem', ?_⟩
        rw [hsame]
        exact not_or.mpr ⟨hgone hf', hbelow'⟩
      · exact hdst.ne hq.symm
    · exact hbelow' ((hq ▸ hbelow).trans hdst)
  refine hunique.map fun did did' f f' hf hf' hsame => ?_
  rw [path_movedDirectory hp, path_movedDirectory hp] at hsame
  by_cases hbelow : Path.Below p f.path
  · by_cases hbelow' : Path.Below p f'.path
    · rw [if_pos hbelow, if_pos hbelow'] at hsame
      exact Path.moved_inj (.inr hbelow) (.inr hbelow') hsame
    · rw [if_pos hbelow, if_neg hbelow'] at hsame
      exact absurd hsame (hstays hf hf' hbelow hbelow')
  · by_cases hbelow' : Path.Below p f'.path
    · rw [if_neg hbelow, if_pos hbelow'] at hsame
      exact absurd hsame.symm (hstays hf' hf hbelow' hbelow)
    · rwa [if_neg hbelow, if_neg hbelow'] at hsame

theorem renameDirectory (h : d.Tidy L A) (src dst : Str)
    (hok : ¬ Collides L d (.tree (.renameDirectory src dst))) :
    (d.after (Doc.renameDirectory L src dst)).Tidy L A := by
  cases hp : Path.normalize L.nfc src with
  | error e =>
    have hrun : Doc.renameDirectory L src dst d = .error e d := lift_error hp _
    rw [after_error hrun]
    exact h
  | ok p =>
    cases hq : Path.normalize L.nfc dst with
    | error e =>
      have hrun : Doc.renameDirectory L src dst d = .error e d := by
        show EStateM.bind (lift _) _ d = _
        simp only [EStateM.bind, lift, read, hp]
        exact lift_error hq _
      rw [after_error hrun]
      exact h
    | ok q =>
      rcases renameDirectory_outcome h.settled hp hq with
        ⟨-, hrun⟩ | ⟨hne, _, d', hrun, dirs, hredirected, hb⟩
      · rw [after_ok hrun]
        exact h
      · rw [after_ok hrun]
        have hnormp := Path.normalized_of_normalize hp
        have hfiles : ¬ Path.Clash p q (d.root.filePaths L) :=
          fun hclash => hok ⟨p, q, hp, hq, hne, .inl hclash⟩
        have hdirs : ¬ Path.Clash p q (d.root.dirPaths L) :=
          fun hclash => hok ⟨p, q, hp, hq, hne, .inr (.inl hclash)⟩
        have hself : ¬ (Path.Below p q ∧ p ∈ d.root.dirPaths L ∧ q ∈ d.root.dirPaths L) :=
          fun hself => hok ⟨p, q, hp, hq, hne, .inr (.inr hself)⟩
        exact h.becomes ((renameDirectory_keeps src dst).of_ok h.sound hrun) hb
          (unique_movedFiles hnormp h.now.files hfiles)
          (unique_movedDirectories hnormp hne h.now.directories hredirected hdirs hself)

/-- **A restore** brings the tables of an earlier state back. -/
theorem restoreToHeads (h : d.Tidy L A) (hdistinct : d.Distinct) (heads : List ChangeHash) :
    (d.after (Doc.restoreToHeads L A heads)).Tidy L A := by
  have hclosed := committed_of_closed h.closed 0
  obtain ⟨front, hfront, hupTo⟩ := h.sequential.upTo h.sound.ordered hdistinct heads
  have hroot (past : Doc) (hfork : forkAt A (d.committed 0) heads = .ok past) :
      past.root = A.view front := by
    rw [hclosed] at hfork
    unfold forkAt at hfork
    split at hfork
    next =>
      obtain rfl := Except.ok.inj hfork
      rw [hupTo, List.reverse_reverse]
      rfl
    next => cases hfork
  have hfails (hlist : ∀ past, forkAt A (d.committed 0) heads = .ok past →
      ∃ e, past.root.listFiles L = .error e) :
      (d.after (Doc.restoreToHeads L A heads)).Tidy L A := by
    obtain ⟨e, hrun⟩ := restoreToHeads_fails hlist
    rw [after_error hrun, hclosed]
    exact h
  by_cases hne : front = []
  · -- Before the first change there are no maps to list.
    refine hfails fun past hfork => ?_
    have hempty : past.root.mapObj .files = .error (.other (txt "schema missing root.files")) := by
      rw [hroot past hfork, hne, A.view_nil, Root.mapObj, Root.get_empty]
      rfl
    exact ⟨_, by rw [Root.listFiles, hempty]; rfl⟩
  · cases hfork : forkAt A (d.committed 0) heads with
    | error e =>
      refine hfails fun past hok => ?_
      rw [hfork] at hok
      cases hok
    | ok past =>
      have hneat := h.neat front hne hfront
      rw [← hroot past hfork] at hneat
      obtain ⟨_, d', hrun, ops, t, n, hn, hd', hreadable, hfiles, hdirs, hfile, hdir⟩ :=
        restoreToHeads_outcome h.settled.ready hfork (forkAt_sound (h.sound.committed 0) hfork)
          hneat.readable
      have hsound := (restoreToHeads_keeps heads).of_ok h.sound hrun
      rw [hclosed] at hn hd'
      rw [after_ok hrun]
      have hsupply : d'.supply = d.supply := by
        rw [hd']
        unfold committed
        split <;> rfl
      have hdraws : d.draws ≤ d'.draws := by
        refine hn.trans ?_
        rw [hd']
        unfold committed
        split
        · exact Nat.le_refl _
        · exact Nat.le_succ _
      refine h.next hsound ?_ ?_ hsupply hdraws ⟨hreadable, ?_, ?_, fun k hk => ?_, fun k hk => ?_⟩
      · rw [hd']
        exact committed_pending _ _
      · rw [hd']
        unfold committed
        split
        · exact .inl rfl
        · exact .inr ⟨_, rfl, rfl⟩
      · rw [Root.UniqueFiles, hfiles]
        exact hneat.files
      · rw [Root.UniqueDirectories, hdirs]
        exact hneat.directories
      · rw [hsupply]
        exact hfile _ (h.now.file k (hdraws.trans hk)) (hneat.file k (hdraws.trans hk))
      · rw [hsupply]
        exact hdir _ (h.now.dir k (hdraws.trans hk)) (hneat.dir k (hdraws.trans hk))

/-- **One call** that puts no two entries at one path. -/
theorem after (h : d.Tidy L A) (hdistinct : d.Distinct) (op : VaultOp) (hok : ¬ Collides L d op) :
    (d.after (op.run L A)).Tidy L A := by
  cases op with
  | restoreToHeads heads => exact h.restoreToHeads hdistinct heads
  | tree op =>
    cases op with
    | file op => exact h.file op
    | deleteDirectory path recursive => exact h.deleteDirectory path recursive
    | renameDirectory src dst => exact h.renameDirectory src dst hok

theorem new (vaultId : Str) {supply : Supply} (hids : Function.Injective supply.id) :
    (Doc.new A vaultId supply).Tidy L A := by
  have hsound := Doc.new_sound (N := L.nfc) (A := A) vaultId supply
  have hneat : (Doc.new A vaultId supply).Neat L (Doc.new A vaultId supply).root := by
    refine ⟨(wellFormed_new vaultId supply).readable, fun i j f g hf => ?_, fun i j f g hf => ?_,
      fun n _ => get_new_file .., fun n _ => get_new_dir ..⟩
    · rw [Root.fileAt_of_none (get_new_file ..)] at hf
      cases hf
    · rw [Root.dirAt_of_none (get_new_dir ..)] at hf
      cases hf
  refine ⟨hsound, rfl, by simp [Doc.new], ?_, fun _ _ _ _ h => hids h, fun front hne hfront => ?_⟩
  · exact @Sequential.concat [] ⟨A.genesis vaultId, [], 0, genesisOps vaultId⟩
      (fun front c hfront => by simp at hfront) rfl
  · have hall : front = (Doc.new A vaultId supply).changes := by
      obtain ⟨c, rest, rfl⟩ := List.exists_cons_of_ne_nil hne
      obtain ⟨hhead, hrest⟩ := List.cons_prefix_cons.mp hfront
      rw [List.prefix_nil.mp hrest, hhead]
      rfl
    have hview : A.view front = (Doc.new A vaultId supply).root := by
      rw [hall, hsound.root]
      rfl
    rw [hview]
    exact hneat

end Tidy

/-! ### The renames that collide -/

theorem Redirected.stays {t dirs : Str → Option LiveDirectory} (h : Redirected p q t dirs)
    {f : LiveDirectory} (hf : t did = some f) (hne : f.path ≠ p) : dirs did = some f := by
  rcases h with ⟨did', f', hf', hpath, rfl⟩ | ⟨-, rfl⟩
  · rw [Function.update_of_ne ?_, hf]
    rintro rfl
    rw [hf] at hf'
    obtain rfl := Option.some.inj hf'
    exact hne hpath
  · exact hf

theorem Redirected.goes {t dirs : Str → Option LiveDirectory} (h : Redirected p q t dirs)
    (hthere : p ∈ Index.keys LiveDirectory.path t) :
    ∃ did f, t did = some f ∧ f.path = p ∧ dirs did = some { f with path := q } := by
  rcases h with ⟨did, f, hf, hpath, rfl⟩ | ⟨hnone, -⟩
  · exact ⟨did, f, hf, hpath, Function.update_self ..⟩
  · exact absurd hthere hnone

/-- **Every rename that collides** leaves two live entries of one path. -/
theorem Tidy.collided (h : d.Tidy L A) {op : VaultOp} (hbad : Collides L d op) :
    ¬ ((d.after (op.run L A)).root.UniqueFiles L ∧
      (d.after (op.run L A)).root.UniqueDirectories L) := by
  intro ⟨hfiles, hdirs⟩
  match op, hbad with
  | .tree (.renameDirectory src dst), hbad =>
    obtain ⟨p, q, hp, hq, hne, hclash⟩ := hbad
    have hnorm := Path.normalized_of_normalize hp
    rcases renameDirectory_outcome h.settled hp hq with
      ⟨heq, -⟩ | ⟨-, _, d', hrun, dirs, hredirected, hb⟩
    · exact hne heq
    rw [VaultOp.run, TreeOp.run, after_ok hrun] at hfiles hdirs
    -- Two entries of one path are one, and its path before the rename is one.
    have hdirSame {did did' : Str} {f f' : LiveDirectory} (hf : dirs did = some f)
        (hf' : dirs did' = some f')
        (hpath : (movedDirectory p q f).path = (movedDirectory p q f').path) : did = did' := by
      refine hdirs did did' _ _ (hb.dirs.keep _ _ ?_) (hb.dirs.keep _ _ ?_) hpath
      · rw [hf, Option.map_some]
      · rw [hf', Option.map_some]
    -- The directory of the source goes to `q`, so no other one may stay there.
    have hroot (hthere : ∃ did f, d.root.dirAt L did = some f ∧ f.path = p) {did' : Str}
        {f' : LiveDirectory} (hf' : d.root.dirAt L did' = some f') (hstays : dirs did' = some f')
        (hy : f'.path = q) : False := by
      obtain ⟨did₀, f₀, hf₀, hpath₀, hgoes⟩ := hredirected.goes hthere
      have hsame := hdirSame hgoes hstays (by
        rw [path_movedDirectory hnorm, path_movedDirectory hnorm, hy])
      subst hsame
      rw [hf₀] at hf'
      obtain rfl := Option.some.inj hf'
      exact hne (hpath₀.symm.trans hy)
    rcases hclash with ⟨-, ⟨fid, f, hf, rfl⟩, hx, ⟨fid', f', hf', hy⟩, hout⟩ |
      ⟨-, ⟨did, f, hf, rfl⟩, hx, ⟨did', f', hf', hy⟩, hout⟩ |
      ⟨hbelow, hthere, did', f', hf', hy⟩
    · rw [Root.UniqueFiles, hb.files] at hfiles
      have hsame := hfiles fid fid' (movedFile p q f) (movedFile p q f') (by simp [hf])
        (by simp [hf']) (by
          rw [path_movedFile hnorm, path_movedFile hnorm, if_pos hx, hy, if_neg hout])
      subst hsame
      rw [hf] at hf'
      obtain rfl := Option.some.inj hf'
      exact hout (hy ▸ hx)
    · rw [← hy] at hout
      have hstays := hredirected.stays hf' fun hpath => hout (.inl hpath)
      by_cases hsrc : f.path = p
      · rw [hsrc, Path.moved_self] at hy
        exact hroot ⟨did, f, hf, hsrc⟩ hf' hstays hy
      · have hsame := hdirSame (hredirected.stays hf hsrc) hstays (by
          rw [path_movedDirectory hnorm, path_movedDirectory hnorm,
            if_pos (hx.resolve_left hsrc), if_neg fun h => hout (.inr h), hy])
        subst hsame
        rw [hf] at hf'
        obtain rfl := Option.some.inj hf'
        exact hout hx
    · exact hroot hthere hf' (hredirected.stays hf' fun hpath => hne (hpath.symm.trans hy)) hy

/-! ### Runs -/

/-- A call and the document it leaves, failed or not. No two changes share a hash. -/
def vaultStep (L : Crates) (A : Automerge) (d : Doc) (op : VaultOp) : Option Doc :=
  if (d.after (op.run L A)).Distinct then some (d.after (op.run L A)) else none

/-- **Live paths are unique.** After every sequence of calls in which no rename of a directory
puts two entries at one path, no two live files have one path and no two live directories. -/
theorem live_paths_unique {vaultId : Str} {supply : Supply} (hids : Function.Injective supply.id)
    (h : Machine.Reach (vaultStep L A) (fun d op => ¬ Collides L d op) (Doc.new A vaultId supply) d) :
    d.root.UniqueFiles L ∧ d.root.UniqueDirectories L := by
  have hd : d.Tidy L A ∧ d.Distinct := by
    refine Machine.Reach.invariant (I := fun d => d.Tidy L A ∧ d.Distinct)
      ⟨Tidy.new vaultId hids, List.nodup_singleton _⟩ ?_ h
    intro d op d' hd hok hstep
    unfold vaultStep at hstep
    split at hstep
    next hdistinct =>
      obtain rfl := Option.some.inj hstep
      exact ⟨hd.1.after hd.2 op hok, hdistinct⟩
    next => cases hstep
  exact ⟨hd.1.now.files, hd.1.now.directories⟩

/-- The document that some calls leave. -/
def afterCalls (L : Crates) (A : Automerge) (d : Doc) (ops : List VaultOp) : Doc :=
  ops.foldl (fun d op => d.after (op.run L A)) d

theorem reach_afterCalls {guard : Doc → VaultOp → Prop} {ops : List VaultOp}
    (hguard : ∀ d, ∀ op ∈ ops, guard d op)
    (h : ∀ front ∈ ops.inits, (d.afterCalls L A front).Distinct) :
    Machine.Reach (vaultStep L A) guard d (d.afterCalls L A ops) := by
  induction ops using List.reverseRecOn with
  | nil => exact .start
  | append_singleton ops op ih =>
    have hall := h (ops ++ [op]) ((List.mem_inits _ _).mpr (List.prefix_refl _))
    have hconcat : d.afterCalls L A (ops ++ [op]) = (d.afterCalls L A ops).after (op.run L A) :=
      List.foldl_append
    rw [hconcat] at hall ⊢
    refine .step op (ih (fun d op hop => hguard d op (List.mem_append_left _ hop))
      fun front hfront => h front ?_) (hguard _ op (by simp)) (if_pos hall)
    rw [List.mem_inits] at hfront ⊢
    exact hfront.trans (List.prefix_append _ _)

private def vacant : Doc := .new .plain (txt "vault") (.numbered '1' 16)

private def wroteFile (path : Str) : VaultOp := .tree (.file (.writeTextFile path []))

/-- A file is written and deleted, and comes back. -/
private def revived : List VaultOp :=
  [wroteFile (txt "a/x.md"), .tree (.file (.deleteFile (txt "a/x.md"))), .restoreToHeads [.fill 21]]

private theorem reach_revived : Machine.Reach (vaultStep .plain .plain)
    (fun d op => ¬ Collides .plain d op) vacant (vacant.afterCalls .plain .plain revived) :=
  reach_afterCalls (by simp [revived, wroteFile, Collides]) (by decide +kernel)

theorem live_paths_unique_revived :
    (vacant.afterCalls .plain .plain revived).root.UniqueFiles .plain ∧
      (vacant.afterCalls .plain .plain revived).root.UniqueDirectories .plain :=
  live_paths_unique (A := .plain) (Supply.numbered_injective '1' 16) reach_revived

/-- Two directories with a file of one name each, and one is renamed to the other. -/
private def merged : List VaultOp :=
  [wroteFile (txt "a/x.md"), wroteFile (txt "b/x.md"), .tree (.renameDirectory (txt "a") (txt "b"))]

theorem live_paths_unique_merged :
    ¬ ∀ d, Machine.Reach (vaultStep .plain .plain) (fun _ _ => True) vacant d →
      d.root.UniqueFiles .plain ∧ d.root.UniqueDirectories .plain := by
  intro h
  have hunique := (h _ (@reach_afterCalls .plain .plain vacant _ merged (fun _ _ _ => trivial)
    (by decide +kernel))).1
  generalize hd : vacant.afterCalls .plain .plain merged = d at hunique
  have hfirst : (d.root.fileAt .plain (d.supply.id 1)).map LiveFile.path = some (txt "b/x.md") := by
    subst hd
    decide +kernel
  have hsecond : (d.root.fileAt .plain (d.supply.id 7)).map LiveFile.path = some (txt "b/x.md") := by
    subst hd
    decide +kernel
  obtain ⟨f, hf, hpath⟩ := Option.map_eq_some_iff.mp hfirst
  obtain ⟨g, hg, hpath'⟩ := Option.map_eq_some_iff.mp hsecond
  have hsame := hunique _ _ f g hf hg (hpath.trans hpath'.symm)
  have hne : d.supply.id 1 ≠ d.supply.id 7 := by
    subst hd
    decide +kernel
  exact hne hsame

end Doc

end AgentSync
