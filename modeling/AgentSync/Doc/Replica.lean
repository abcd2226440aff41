import AgentSync.Doc.Sound

/-! Documents that replicas reach.

A replica starts from the schema, runs operations on its document, merges what others
have, forks and reloads. Every document reached so is sound (`Reachable.sound`): its
history is ordered, and what it holds is well typed and complete, whoever wrote it. -/
namespace AgentSync

variable {L : Crates} {A : Automerge} {N : Nfc}

/-! ### Histories -/

/-- Changes come after what they depend on. -/
def Ordered (changes : List Change) : Prop :=
  ∀ before c after, changes = before ++ c :: after → c.deps ⊆ before.map Change.hash

theorem headsOf_subset (changes : List Change) : headsOf changes ⊆ changes.map Change.hash := by
  intro h hh
  rw [headsOf, List.mem_insertionSort] at hh
  exact (List.mem_filter.mp hh).1

theorem Ordered.concat {changes : List Change} {c : Change} (h : Ordered changes)
    (hc : c.deps ⊆ changes.map Change.hash) : Ordered (changes ++ [c]) := by
  intro before c' after heq
  obtain rfl | ⟨after, a, rfl⟩ := List.eq_nil_or_concat after
  · obtain ⟨hbefore, hc'⟩ := List.append_inj' heq rfl
    obtain rfl := List.singleton_inj.mp hc'
    rwa [← hbefore]
  · rw [List.concat_eq_append, ← List.cons_append, ← List.append_assoc] at heq
    exact h before c' after (List.append_inj' heq rfl).1

theorem ordered_concat_iff {changes : List Change} {c : Change} :
    Ordered (changes ++ [c]) ↔ Ordered changes ∧ c.deps ⊆ changes.map Change.hash := by
  refine ⟨fun h => ⟨fun before c' after heq => ?_, h changes c [] rfl⟩, fun h => h.1.concat h.2⟩
  exact h before c' (after ++ [c]) (by rw [heq, List.append_assoc, List.cons_append])

/-- Adding the changes of another history that are not here yet. -/
theorem Ordered.merge {changes other : List Change} (h : Ordered changes) (ho : Ordered other) :
    Ordered (changes ++ other.filter fun c => !(changes.any fun c' => c'.hash = c.hash)) := by
  induction other using List.reverseRecOn with
  | nil => simpa using h
  | append_singleton other c ih =>
    obtain ⟨ho, hc⟩ := ordered_concat_iff.mp ho
    rw [List.filter_append, ← List.append_assoc, List.filter_singleton]
    by_cases hnew : (!(changes.any fun c' => c'.hash = c.hash)) = true
    · rw [hnew, cond_true]
      refine (ih ho).concat fun dep hdep => ?_
      obtain ⟨c', hc', rfl⟩ := List.mem_map.mp (hc hdep)
      rw [List.map_append, List.mem_append]
      by_cases hin : (changes.any fun c'' => c''.hash = c'.hash) = true
      · obtain ⟨c'', hc'', heq⟩ := List.any_eq_true.mp hin
        exact .inl (List.mem_map.mpr ⟨c'', hc'', by simpa using heq⟩)
      · exact .inr (List.mem_map.mpr ⟨c', List.mem_filter.mpr ⟨hc', by simpa using hin⟩, rfl⟩)
    · rw [Bool.eq_false_of_not_eq_true hnew, cond_false, List.append_nil]
      exact ih ho

theorem upTo_sublist (changes : List Change) (wanted : List ChangeHash) :
    (upTo changes wanted).Sublist changes := by
  induction changes generalizing wanted with
  | nil => exact .slnil
  | cons c rest ih =>
    rw [upTo]
    split
    · exact (ih _).cons_cons c
    · exact (ih _).cons c

/-- What is wanted and there is kept. -/
theorem mem_upTo {changes : List Change} {wanted : List ChangeHash} {h : ChangeHash}
    (hw : h ∈ wanted) (hc : h ∈ changes.map Change.hash) :
    h ∈ (upTo changes wanted).map Change.hash := by
  induction changes generalizing wanted with
  | nil => exact hc
  | cons c rest ih =>
    rw [upTo]
    obtain rfl | hc := List.mem_cons.mp hc
    · rw [if_pos (by simpa using hw)]
      exact List.mem_cons_self
    · split
      · exact List.mem_cons_of_mem _ (ih (List.mem_append_right _ hw) hc)
      · exact ih hw hc

theorem ordered_upTo {changes : List Change} (h : Ordered changes) (wanted : List ChangeHash) :
    Ordered (upTo changes.reverse wanted).reverse := by
  induction changes using List.reverseRecOn generalizing wanted with
  | nil => simpa [upTo] using h
  | append_singleton changes c ih =>
    obtain ⟨h, hc⟩ := ordered_concat_iff.mp h
    rw [List.reverse_append, List.reverse_singleton, List.singleton_append, upTo]
    split
    · rw [List.reverse_cons]
      refine (ih h _).concat fun dep hdep => ?_
      rw [List.map_reverse, List.mem_reverse]
      exact mem_upTo (List.mem_append_left _ hdep) (by simpa using hc hdep)
    · exact ih h _

/-- Everything is wanted that nothing depends on. -/
theorem upTo_eq_self {changes : List Change} {wanted : List ChangeHash} (h : Ordered changes)
    (hnodup : (changes.map Change.hash).Nodup)
    (hw : ∀ c ∈ changes, c.hash ∈ wanted ∨ ∃ c' ∈ changes, c.hash ∈ c'.deps) :
    upTo changes.reverse wanted = changes.reverse := by
  induction changes using List.reverseRecOn generalizing wanted with
  | nil => rfl
  | append_singleton changes c ih =>
    obtain ⟨ho, hc⟩ := ordered_concat_iff.mp h
    rw [List.map_append, List.map_singleton] at hnodup
    have hlast : c.hash ∉ changes.map Change.hash := fun hin =>
      (List.nodup_append.mp hnodup).2.2 _ hin _ (List.mem_singleton.mpr rfl) rfl
    have hwanted : c.hash ∈ wanted := by
      obtain hin | ⟨c', hc', hdep⟩ := hw c (by simp)
      · exact hin
      · obtain ⟨before, after, heq⟩ := List.append_of_mem hc'
        have hin := h before c' after heq hdep
        have hbefore : before.map Change.hash ⊆ changes.map Change.hash := by
          obtain rfl | ⟨after, a, rfl⟩ := List.eq_nil_or_concat after
          · rw [(List.append_inj' heq rfl).1]
            exact List.Subset.refl _
          · rw [List.concat_eq_append, ← List.cons_append, ← List.append_assoc] at heq
            rw [(List.append_inj' heq rfl).1, List.map_append]
            exact List.subset_append_left _ _
        exact absurd (hbefore hin) hlast
    rw [List.reverse_append, List.reverse_singleton, List.singleton_append, upTo,
      if_pos (by simpa using hwanted), ih ho (List.nodup_append.mp hnodup).1]
    intro c' hc'
    obtain hin | ⟨d, hd, hdep⟩ := hw c' (by simp [hc'])
    · exact .inl (List.mem_append_right _ hin)
    · obtain hd | hd := List.mem_append.mp hd
      · exact .inr ⟨d, hd, hdep⟩
      · obtain rfl := List.mem_singleton.mp hd
        exact .inl (List.mem_append_left _ hdep)

/-- The heads want the whole history. -/
theorem upTo_headsOf {changes : List Change} {wanted : List ChangeHash} (h : Ordered changes)
    (hnodup : (changes.map Change.hash).Nodup) (hw : headsOf changes ⊆ wanted) :
    upTo changes.reverse wanted = changes.reverse := by
  refine upTo_eq_self h hnodup fun c hc => ?_
  by_cases hdep : ∃ c' ∈ changes, c.hash ∈ c'.deps
  · exact .inr hdep
  · refine .inl (hw ?_)
    rw [headsOf, List.mem_insertionSort, List.mem_filter]
    refine ⟨List.mem_map_of_mem hc, ?_⟩
    simpa using fun c' hc' hd => hdep ⟨c', hc', hd⟩

/-! ### Sound documents -/

/-- What holds of every document, with a transaction open or not. -/
structure Doc.Sound (N : Nfc) (A : Automerge) (d : Doc) : Prop where
  root : d.root = applyAll (A.view d.changes) d.pending
  pending : ∀ op ∈ d.pending, op.Sound N
  changes : ∀ c ∈ d.changes, ∀ op ∈ c.ops, op.Sound N
  pendingComplete : (footprint d.pending).Complete
  changesComplete : ∀ c ∈ d.changes, (footprint c.ops).Complete
  rootComplete : d.root.Complete
  ordered : Ordered d.changes

/-- Nothing the code deletes is a path, a kind or a hash. -/
theorem Op.Sound.ne_delete {op : Op} (h : op.Sound N) {a : Addr} (ha : a.erasable = false) :
    op ≠ .delete a := by
  rintro rfl
  exact Bool.false_ne_true (ha.symm.trans h)

/-- Merged content is typed because every change is. -/
theorem view_typed {changes : List Change} (h : ∀ c ∈ changes, ∀ op ∈ c.ops, op.Sound N) :
    (A.view changes).Typed N := by
  intro a v ha hv
  obtain ⟨c, hc, hget, -⟩ := A.origin changes a v ha hv
  exact Root.Typed.empty.applyAll (h c hc) a v ha hget

/-- Merged content is complete because every change is. -/
theorem view_complete {changes : List Change} (h : ∀ c ∈ changes, ∀ op ∈ c.ops, op.Sound N)
    (hcomplete : ∀ c ∈ changes, (footprint c.ops).Complete) : (A.view changes).Complete := by
  have hkeep {a b : Addr} (ha : a.isContent = false) (hb : b.isContent = false)
      (hsub : b.ancestors ⊆ a :: a.ancestors) (herase : b.erasable = false) {v : Val}
      (hv : (A.view changes).get a = some v)
      (hfoot : ∀ c ∈ changes, (footprint c.ops).get a = some v →
        (footprint c.ops).get b ≠ none) : (A.view changes).get b ≠ none := by
    obtain ⟨c, hc, hget, hrest⟩ := A.origin changes a v ha hv
    exact hrest b hb hsub (hfoot c hc hget)
      fun c' hc' hdel => (h c' hc' _ hdel).ne_delete herase rfl
  refine fun fid => ⟨fun hmeta => ?_, fun hmeta => ?_, fun hkind => ?_⟩
  · obtain ⟨v, hv⟩ := Option.ne_none_iff_exists'.mp hmeta
    refine hkeep rfl rfl (by simp [Addr.ancestors]) rfl hv fun c hc hget => ?_
    exact (hcomplete c hc fid).path (by simp [hget])
  · obtain ⟨v, hv⟩ := Option.ne_none_iff_exists'.mp hmeta
    refine hkeep rfl rfl (by simp [Addr.ancestors]) rfl hv fun c hc hget => ?_
    exact (hcomplete c hc fid).kind (by simp [hget])
  · refine hkeep rfl rfl (by simp [Addr.ancestors]) rfl hkind fun c hc hget => ?_
    exact (hcomplete c hc fid).hash hget

namespace Doc.Sound

theorem rootTyped {d : Doc} (h : d.Sound N A) : d.root.Typed N := by
  rw [h.root]
  exact (view_typed h.changes).applyAll h.pending

/-- A document made of sound changes in order. -/
theorem ofChanges {changes : List Change} (supply : Supply) (draws : Nat)
    (h : ∀ c ∈ changes, ∀ op ∈ c.ops, op.Sound N)
    (hcomplete : ∀ c ∈ changes, (footprint c.ops).Complete) (hordered : Ordered changes) :
    (Doc.ofChanges A changes supply draws).Sound N A where
  root := rfl
  pending := by simp [Doc.ofChanges]
  changes := h
  pendingComplete := .empty
  changesComplete := hcomplete
  rootComplete := view_complete h hcomplete
  ordered := hordered

theorem emitted {d : Doc} (h : d.Sound N A) {ops : List Op} (hops : Block N ops) :
    (d.emitted ops).Sound N A where
  root := by
    show applyAll d.root ops = _
    rw [h.root, ← applyAll_append]
    rfl
  pending := fun op hop => (List.mem_append.mp hop).elim (h.pending op) (hops.sound op)
  changes := h.changes
  pendingComplete := by
    show (footprint (d.pending ++ ops)).Complete
    rw [footprint, applyAll_append]
    exact hops.complete _ h.pendingComplete
  changesComplete := h.changesComplete
  rootComplete := hops.complete _ h.rootComplete
  ordered := h.ordered

theorem draw {d : Doc} (h : d.Sound N A) (draws : Nat) : {d with draws := draws}.Sound N A :=
  ⟨h.root, h.pending, h.changes, h.pendingComplete, h.changesComplete, h.rootComplete, h.ordered⟩

theorem committed {d : Doc} (h : d.Sound N A) (time : Int) : (d.committed time).Sound N A := by
  unfold Doc.committed
  split
  next => exact h
  next =>
    refine ⟨?_, by simp, ?_, .empty, ?_, h.rootComplete, h.ordered.concat (headsOf_subset _)⟩
    · show d.root = A.view _
      rw [A.view_commit _ _ rfl, ← h.root]
    · rw [List.forall_mem_append, List.forall_mem_singleton]
      exact ⟨h.changes, h.pending⟩
    · rw [List.forall_mem_append, List.forall_mem_singleton]
      exact ⟨h.changesComplete, h.pendingComplete⟩

end Doc.Sound

/-! ### Operations keep documents sound -/

namespace Doc

/-- The operation keeps documents sound, failing or not, and what it returns satisfies `Q`. -/
def Keeps (N : Nfc) (A : Automerge) {α : Type} (x : DocM α) (Q : α → Prop) : Prop :=
  ∀ d, d.Sound N A → match x d with
    | .ok a d' => d'.Sound N A ∧ Q a
    | .error _ d' => d'.Sound N A

namespace Keeps

variable {α β : Type} {x : DocM α} {Q Q' : α → Prop} {R : β → Prop}

protected theorem pure {a : α} (h : Q a) : Keeps N A (pure a) Q := fun _ hd => ⟨hd, h⟩

protected theorem throw (e : Error) : Keeps N A (throw e : DocM α) Q := fun _ hd => hd

protected theorem bind {f : α → DocM β} (hx : Keeps N A x Q)
    (hf : ∀ a, Q a → Keeps N A (f a) R) : Keeps N A (x >>= f) R := by
  intro d hd
  have h := hx d hd
  show match EStateM.bind x f d with
    | .ok a d' => d'.Sound N A ∧ R a
    | .error _ d' => d'.Sound N A
  unfold EStateM.bind
  split at h
  next a d' hrun =>
    rw [hrun]
    exact hf a h.2 d' h.1
  next e d' hrun =>
    rw [hrun]
    exact h

theorem read {f : Root → Except Error α}
    (h : ∀ r : Root, r.Typed N → ∀ a, f r = .ok a → Q a) : Keeps N A (read f) Q := by
  intro d hd
  unfold Doc.read
  split
  next a d' heq =>
    split at heq
    next a' hf =>
      obtain ⟨rfl, rfl⟩ := EStateM.Result.ok.inj heq
      exact ⟨hd, h _ hd.rootTyped _ hf⟩
    next => cases heq
  next e d' heq =>
    split at heq
    next => cases heq
    next =>
      obtain ⟨-, rfl⟩ := EStateM.Result.error.inj heq
      exact hd

theorem read_any {f : Root → Except Error α} : Keeps N A (Doc.read f) fun _ => True :=
  read fun _ _ _ _ => trivial

theorem ask {f : Root → α} : Keeps N A (ask f) fun _ => True := read_any

theorem lift {r : Except Error α} (h : ∀ a, r = .ok a → Q a) : Keeps N A (lift r) Q :=
  read fun _ _ => h

theorem emit {ops : List Op} (h : Block N ops) : Keeps N A (emit ops) fun _ => True :=
  fun _ hd => ⟨hd.emitted h, trivial⟩

theorem nowMs : Keeps N A nowMs fun _ => True := fun _ hd => ⟨hd.draw _, trivial⟩

theorem newId : Keeps N A newId fun _ => True := fun _ hd => ⟨hd.draw _, trivial⟩

theorem commitNow : Keeps N A commitNow fun _ => True :=
  fun _ hd => ⟨(hd.draw _).committed _, trivial⟩

theorem heads : Keeps N A heads fun _ => True := fun _ hd => ⟨hd.committed _, trivial⟩

theorem forM {γ : Type} {xs : List γ} {f : γ → DocM PUnit}
    (h : ∀ a ∈ xs, Keeps N A (f a) fun _ => True) : Keeps N A (xs.forM f) fun _ => True := by
  induction xs with
  | nil => exact .pure trivial
  | cons a rest ih =>
    show Keeps N A (f a >>= fun _ => rest.forM f) _
    exact (h a List.mem_cons_self).bind
      fun _ _ => ih fun b hb => h b (List.mem_cons_of_mem _ hb)

/-- A conditional write. -/
theorem ite {c : Prop} [Decidable c] {y : DocM α} (hx : c → Keeps N A x Q)
    (hy : ¬ c → Keeps N A y Q) : Keeps N A (if c then x else y) Q := by
  split
  next h => exact hx h
  next h => exact hy h

theorem normalize {p : Str} :
    Keeps L.nfc A (Doc.lift (Path.normalize L.nfc p)) (Path.Normalized L.nfc) :=
  lift fun _ h => Path.normalized_of_normalize h

end Keeps

/-! ### The operations -/

theorem ensureDirectory_keeps {now : Int} {p : Str} (hp : Path.Normalized L.nfc p) :
    Keeps L.nfc A (ensureDirectory L now p) fun _ => True := by
  unfold ensureDirectory
  refine Keeps.read_any.bind fun found _ => ?_
  cases found with
  | some _ => exact .pure trivial
  | none =>
    exact Keeps.read_any.bind fun _ _ => Keeps.newId.bind fun _ _ => Keeps.read_any.bind
      fun _ _ => .emit (block_newDirectory now hp)

theorem ensureAncestorDirectories_keeps {p : Str} (hp : Path.Normalized L.nfc p) :
    Keeps L.nfc A (ensureAncestorDirectories L p) fun _ => True :=
  Keeps.nowMs.bind fun _ _ => .forM fun q hq => ensureDirectory_keeps (hp.ancestors q hq)

theorem createDirectory_keeps (p : Str) :
    Keeps L.nfc A (createDirectory L p) fun _ => True := by
  refine Keeps.normalize.bind fun p hp => Keeps.read_any.bind fun found _ => ?_
  cases found with
  | some _ => exact .pure trivial
  | none =>
    exact Keeps.read_any.bind fun _ _ => Keeps.newId.bind fun _ _ =>
      Keeps.read_any.bind fun _ _ => Keeps.nowMs.bind fun _ _ =>
      (Keeps.emit (block_newDirectory _ hp)).bind fun _ _ =>
      (ensureAncestorDirectories_keeps hp).bind fun _ _ => Keeps.commitNow.bind fun _ _ =>
      .pure trivial

theorem writeTextFile_keeps (p content : Str) :
    Keeps L.nfc A (writeTextFile L p content) fun _ => True := by
  refine Keeps.normalize.bind fun p hp => Keeps.nowMs.bind fun now _ =>
    Keeps.read_any.bind fun found _ => ?_
  cases found with
  | some fid =>
    exact Keeps.ask.bind fun _ _ => (Keeps.emit (block_text ..)).bind fun _ _ =>
      Keeps.commitNow.bind fun _ _ => .pure trivial
  | none =>
    exact Keeps.read_any.bind fun _ _ => Keeps.newId.bind fun _ _ =>
      Keeps.read_any.bind fun _ _ => (Keeps.emit (block_newText _ _ _ hp)).bind fun _ _ =>
      (ensureAncestorDirectories_keeps hp).bind fun _ _ => Keeps.commitNow.bind fun _ _ =>
      .pure trivial

theorem writeAttachment_keeps (p hash : Str) (size : Int) :
    Keeps L.nfc A (writeAttachment L p hash size) fun _ => True := by
  refine Keeps.normalize.bind fun p hp => Keeps.nowMs.bind fun now _ =>
    Keeps.read_any.bind fun found _ => ?_
  cases found with
  | some fid =>
    exact (Keeps.emit (block_attachment ..)).bind fun _ _ =>
      Keeps.commitNow.bind fun _ _ => .pure trivial
  | none =>
    exact Keeps.read_any.bind fun _ _ => Keeps.newId.bind fun _ _ =>
      Keeps.read_any.bind fun _ _ => (Keeps.emit (block_newAttachment _ _ _ hp)).bind fun _ _ =>
      (ensureAncestorDirectories_keeps hp).bind fun _ _ => Keeps.commitNow.bind fun _ _ =>
      .pure trivial

theorem deleteFile_keeps (p : Str) : Keeps L.nfc A (deleteFile L p) fun _ => True := by
  refine Keeps.normalize.bind fun p _ => Keeps.read_any.bind fun found _ => ?_
  cases found with
  | none => exact .throw _
  | some fid =>
    exact Keeps.nowMs.bind fun _ _ => (Keeps.emit (block_deleted fid _)).bind fun _ _ =>
      Keeps.commitNow

theorem renameFile_keeps (src dst : Str) :
    Keeps L.nfc A (renameFile L src dst) fun _ => True := by
  refine Keeps.normalize.bind fun src _ => Keeps.normalize.bind fun dst hdst =>
    .ite (fun _ => .pure trivial) fun _ => Keeps.read_any.bind fun found _ => ?_
  cases found with
  | none => exact .throw _
  | some fid =>
    refine Keeps.read_any.bind fun other _ => ?_
    cases other with
    | some _ => exact .throw _
    | none =>
      exact Keeps.nowMs.bind fun _ _ => (Keeps.emit (block_moved _ hdst)).bind fun _ _ =>
        (ensureAncestorDirectories_keeps hdst).bind fun _ _ => Keeps.commitNow

theorem markDirectory_keeps (now : Int) (did : Str) :
    Keeps N A (markDirectory L now did) fun _ => True :=
  Keeps.ask.bind fun _ _ => .ite (fun _ => Keeps.read_any.bind fun _ _ =>
    .emit (block_markedDirectory did now)) fun _ => .pure trivial

theorem deleteChildren_keeps (now : Int) (files dirs : List Str) (recursive : Bool) :
    Keeps L.nfc A (deleteChildren L now files dirs recursive) fun _ => True :=
  .ite (fun _ => (Keeps.forM fun q _ => deleteFile_keeps q).bind fun _ _ =>
    Keeps.read_any.bind fun _ _ => .forM fun did _ => markDirectory_keeps now did)
    fun _ => .pure trivial

theorem deleteDirectory_keeps (p : Str) (recursive : Bool) :
    Keeps L.nfc A (deleteDirectory L p recursive) fun _ => True := by
  refine Keeps.normalize.bind fun p _ => Keeps.nowMs.bind fun now _ =>
    Keeps.read_any.bind fun files _ => Keeps.read_any.bind fun dirs _ =>
    .ite (fun _ => .throw _) fun _ => (deleteChildren_keeps now files dirs recursive).bind
      fun _ _ => Keeps.read_any.bind fun found _ => ?_
  cases found with
  | none => exact Keeps.commitNow
  | some did => exact (markDirectory_keeps now did).bind fun _ _ => Keeps.commitNow

/-- The paths that are read back are normalized. -/
theorem getStr_path_keeps (a : Addr) (ha : ∀ v, a.Fits L.nfc v →
      ∃ p, v = .scalar (.str p) ∧ Path.Normalized L.nfc p) (hc : a.isContent = false) :
    Keeps L.nfc A (read (Root.getStr L · a)) fun p => ∀ q, p = some q → Path.Normalized L.nfc q := by
  refine .read fun r hr found hfound q hq => ?_
  subst hq
  unfold Root.getStr at hfound
  cases hget : r.get a with
  | none => simp [hget] at hfound
  | some v =>
    obtain ⟨p, rfl, hp⟩ := ha v (hr a v hc hget)
    simp only [hget] at hfound
    obtain rfl : p = q := by simpa using hfound
    exact hp

theorem moveDirectory_keeps {src dst : Str} (hsrc : Path.Normalized L.nfc src)
    (hdst : Path.Normalized L.nfc dst) (did : Str) :
    Keeps L.nfc A (moveDirectory L src dst did) fun _ => True := by
  refine Keeps.ask.bind fun _ _ => .ite (fun _ => .pure trivial) fun _ =>
    Keeps.read_any.bind fun _ _ => .ite (fun _ => .pure trivial) fun _ =>
    (getStr_path_keeps (.dirField did .path) (fun _ h => h) rfl).bind fun found hfound => ?_
  cases found with
  | none => exact .pure trivial
  | some p =>
    refine .ite (fun h => .emit (block_movedDirectory ?_)) fun _ => .pure trivial
    rw [Bool.and_eq_true, bne_iff_ne] at h
    exact hdst.move (hfound p rfl) h.1 hsrc h.2

theorem moveFile_keeps {src dst : Str} (hsrc : Path.Normalized L.nfc src)
    (hdst : Path.Normalized L.nfc dst) (now : Int) (fid : Str) :
    Keeps L.nfc A (moveFile L src dst now fid) fun _ => True := by
  refine Keeps.ask.bind fun _ _ => .ite (fun _ => .pure trivial) fun _ =>
    Keeps.ask.bind fun _ _ => .ite (fun _ => .pure trivial) fun _ =>
    Keeps.read_any.bind fun _ _ => .ite (fun _ => .pure trivial) fun _ =>
    (getStr_path_keeps (.fileField fid .path) (fun _ h => h) rfl).bind fun found hfound => ?_
  cases found with
  | none => exact .pure trivial
  | some p =>
    refine .ite (fun h => .emit (block_moved _ ?_)) fun _ => .pure trivial
    split
    next => exact hdst
    next hne => exact hdst.move (hfound p rfl) h hsrc hne

theorem renameDirectory_keeps (src dst : Str) :
    Keeps L.nfc A (renameDirectory L src dst) fun _ => True := by
  refine Keeps.normalize.bind fun src hsrc => Keeps.normalize.bind fun dst hdst =>
    .ite (fun _ => .pure trivial) fun _ => Keeps.nowMs.bind fun now _ =>
    Keeps.read_any.bind fun found _ => ?_
  have htail : Keeps L.nfc A (do
      read (Root.mapObj · .directories)
      (← ask Root.dirKeys).forM (moveDirectory L src dst)
      read (Root.mapObj · .files)
      (← ask Root.fileKeys).forM (moveFile L src dst now)
      ensureAncestorDirectories L dst
      commitNow) fun _ => True :=
    Keeps.read_any.bind fun _ _ => Keeps.ask.bind fun _ _ =>
      (Keeps.forM fun did _ => moveDirectory_keeps hsrc hdst did).bind fun _ _ =>
      Keeps.read_any.bind fun _ _ => Keeps.ask.bind fun _ _ =>
      (Keeps.forM fun fid _ => moveFile_keeps hsrc hdst now fid).bind fun _ _ =>
      (ensureAncestorDirectories_keeps hdst).bind fun _ _ => Keeps.commitNow
  cases found with
  | none => exact htail
  | some did =>
    refine Keeps.ask.bind fun _ _ => .ite (fun _ => ?_) fun _ => htail
    exact (Keeps.emit (block_movedDirectory hdst)).bind fun _ _ => htail

theorem createLabel_keeps (label : Str) : Keeps N A (createLabel L label) fun _ => True :=
  Keeps.read_any.bind fun _ _ => Keeps.heads.bind fun _ _ => Keeps.read_any.bind fun _ _ =>
    Keeps.nowMs.bind fun _ _ => (Keeps.emit (block_newLabel ..)).bind fun _ _ => Keeps.commitNow

theorem deleteLabel_keeps (label : Str) : Keeps N A (deleteLabel L label) fun _ => True :=
  Keeps.read_any.bind fun _ _ => Keeps.read_any.bind fun _ _ =>
    (Keeps.emit (block_deletedLabel label)).bind fun _ _ => Keeps.commitNow

/-- What an entry of a sound document is restored with. -/
theorem restorable {r : Root} {fid : Str} {m : FileMeta} (hr : r.Typed L.nfc) (hc : r.Complete)
    (h : r.readFileMeta L fid = .ok (some m)) :
    Path.Normalized L.nfc m.path ∧ (m.kind = .attachment → m.binaryHash ≠ none) := by
  obtain ⟨-, -, -, hpath, ⟨k, hk, hparse⟩, -, -, -, -, hhash, -⟩ := Root.readFileMeta_eq_some.mp h
  obtain ⟨p, hp, hnorm⟩ := hr _ _ rfl (Root.getStr_eq_some.mp hpath)
  obtain rfl : m.path = p := by simpa using hp
  refine ⟨hnorm, fun hkind => ?_⟩
  rw [hkind, FileKind.parse_eq_ok] at hparse
  obtain ⟨v, hv⟩ := Option.ne_none_iff_exists'.mp
    ((hc fid).hash (hparse ▸ Root.getStr_eq_some.mp hk))
  obtain ⟨s, rfl⟩ := hr _ _ rfl hv
  rw [Root.getStr_of_get hv] at hhash
  simp [← Except.ok.inj hhash]

theorem forkAt_sound {d past : Doc} {heads : List ChangeHash} (hd : d.Sound N A)
    (h : forkAt A d heads = .ok past) : past.Sound N A := by
  unfold forkAt at h
  split at h
  next =>
    obtain rfl := Except.ok.inj h
    have hsub (c : Change) (hc : c ∈ (upTo d.changes.reverse heads).reverse) : c ∈ d.changes :=
      List.mem_reverse.mp ((upTo_sublist _ _).subset (List.mem_reverse.mp hc))
    exact .ofChanges _ _ (fun c hc => hd.changes c (hsub c hc))
      (fun c hc => hd.changesComplete c (hsub c hc)) (ordered_upTo hd.ordered heads)
  next => cases h

theorem fork_keeps (heads : List ChangeHash) :
    Keeps N A (fork A heads) fun past => past.Sound N A := by
  intro d hd
  unfold fork
  cases h : forkAt A d heads with
  | ok past => exact ⟨hd, forkAt_sound hd h⟩
  | error e => exact hd

theorem killFile_keeps (now : Int) (past : List FileMeta) (fid : Str) :
    Keeps N A (killFile L now past fid) fun _ => True := by
  refine Keeps.read_any.bind fun found _ => ?_
  refine .ite (fun _ => Keeps.read_any.bind fun _ _ => Keeps.ask.bind fun _ _ =>
    .ite (fun _ => Keeps.ask.bind fun _ _ => ?_) fun _ => .pure trivial) fun _ => .pure trivial
  exact .ite (fun _ => .emit (block_deleted fid now)) fun _ => .pure trivial

theorem restoreFile_keeps {m : FileMeta} (now : Int) (text : Str → Str)
    (hp : Path.Normalized N m.path) (hhash : m.kind = .attachment → m.binaryHash ≠ none) :
    Keeps N A (restoreFile L now text m) fun _ => True :=
  .ite (fun _ => .pure trivial) fun _ => Keeps.read_any.bind fun _ _ =>
    Keeps.read_any.bind fun _ _ => Keeps.ask.bind fun _ _ => .emit (block_restoreOps now _ hp hhash)

theorem killDirectory_keeps (now : Int) (past : List DirectoryMeta) (did : Str) :
    Keeps N A (killDirectory L now past did) fun _ => True := by
  refine Keeps.read_any.bind fun _ _ => Keeps.ask.bind fun isThere _ => ?_
  have htail (alive : Bool) : Keeps N A (if (alive && !past.any fun m => m.id = did &&
      m.deletedAt.isNone) = true then markDirectory L now did else pure ()) fun _ => True :=
    .ite (fun _ => markDirectory_keeps now did) fun _ => .pure trivial
  exact .ite (fun _ => Keeps.read_any.bind fun _ _ => htail _) fun _ =>
    (Keeps.pure (Q := fun _ => True) trivial).bind fun alive _ => htail alive

theorem restoreDirectory_keeps {m : DirectoryMeta} (hp : Path.Normalized N m.path) :
    Keeps N A (restoreDirectory L m) fun _ => True :=
  .ite (fun _ => .pure trivial) fun _ => Keeps.read_any.bind fun _ _ =>
    Keeps.read_any.bind fun _ _ => Keeps.ask.bind fun _ _ => .emit (block_restoredDirectory _ hp)

theorem restoreToHeads_keeps (heads : List ChangeHash) :
    Keeps L.nfc A (restoreToHeads L A heads) fun _ => True := by
  refine Keeps.heads.bind fun _ _ => (fork_keeps heads).bind fun past hpast => ?_
  refine (Keeps.lift (fun files h => h)).bind fun files hfiles =>
    (Keeps.lift (fun dirs h => h)).bind fun dirs hdirs => Keeps.nowMs.bind fun now _ => ?_
  refine Keeps.read_any.bind fun _ _ => Keeps.read_any.bind fun _ _ => Keeps.ask.bind fun _ _ =>
    Keeps.ask.bind fun _ _ => (Keeps.forM fun fid _ => killFile_keeps now files fid).bind
    fun _ _ => (Keeps.forM fun m hm => ?_).bind fun _ _ =>
    (Keeps.forM fun did _ => killDirectory_keeps now dirs did).bind fun _ _ =>
    (Keeps.forM fun m hm => ?_).bind fun _ _ => Keeps.commitNow
  · obtain ⟨hp, hhash⟩ := restorable hpast.rootTyped hpast.rootComplete
      ((Root.mem_listFiles hfiles).mp hm).1
    exact restoreFile_keeps now _ hp hhash
  · have hpath := (Root.readDirectoryMeta_eq_some.mp ((Root.mem_listDirectories hdirs).mp hm)).2.1
    obtain ⟨p, hp, hnorm⟩ := hpast.rootTyped _ _ rfl (Root.getStr_eq_some.mp hpath)
    obtain rfl : m.path = p := by simpa using hp
    exact restoreDirectory_keeps hnorm

theorem restoreToTime_keeps (target : Int) :
    Keeps L.nfc A (restoreToTime L A target) fun _ => True := by
  have htime : Keeps L.nfc A (headsAtTime target) fun _ => True :=
    Keeps.heads.bind fun _ _ _ hd => ⟨hd, trivial⟩
  exact htime.bind fun heads _ => restoreToHeads_keeps heads

end Doc

/-! ### Replicas -/

/-- What a replica calls on its document. -/
inductive LocalOp where
  | writeTextFile (path content : Str)
  | writeAttachment (path hash : Str) (size : Int)
  | deleteFile (path : Str)
  | renameFile (src dst : Str)
  | createDirectory (path : Str)
  | deleteDirectory (path : Str) (recursive : Bool)
  | renameDirectory (src dst : Str)
  | createLabel (label : Str)
  | deleteLabel (label : Str)
  | restoreToHeads (heads : List ChangeHash)
  | restoreToTime (target : Int)
  | getHeads

def LocalOp.run (L : Crates) (A : Automerge) : LocalOp → DocM Unit
  | .writeTextFile path content => Doc.writeTextFile L path content >>= fun _ => pure ()
  | .writeAttachment path hash size => Doc.writeAttachment L path hash size >>= fun _ => pure ()
  | .deleteFile path => Doc.deleteFile L path
  | .renameFile src dst => Doc.renameFile L src dst
  | .createDirectory path => Doc.createDirectory L path >>= fun _ => pure ()
  | .deleteDirectory path recursive => Doc.deleteDirectory L path recursive
  | .renameDirectory src dst => Doc.renameDirectory L src dst
  | .createLabel label => Doc.createLabel L label
  | .deleteLabel label => Doc.deleteLabel L label
  | .restoreToHeads heads => Doc.restoreToHeads L A heads
  | .restoreToTime target => Doc.restoreToTime L A target
  | .getHeads => Doc.heads >>= fun _ => pure ()

/-- The document an operation leaves, failed or not. -/
def Doc.after {α : Type} (x : DocM α) (d : Doc) : Doc :=
  match x d with
  | .ok _ d' => d'
  | .error _ d' => d'

/-- No two changes of a history share a hash. -/
def Doc.Distinct (d : Doc) : Prop := (d.changes.map Change.hash).Nodup

instance (d : Doc) : Decidable d.Distinct := inferInstanceAs (Decidable (List.Nodup _))

/-- The documents of replicas. A document is saved, forked and merged with its transaction
closed; what a replica merges is a document some replica had, or its part at some heads. -/
inductive Reachable (L : Crates) (A : Automerge) : Doc → Prop where
  | new (vaultId : Str) (supply : Supply) : Reachable L A (.new A vaultId supply)
  | run {d : Doc} (op : LocalOp) : Reachable L A d → (d.after (op.run L A)).Distinct →
      Reachable L A (d.after (op.run L A))
  | merge {d other : Doc} : Reachable L A d → Reachable L A other → d.pending = [] →
      other.pending = [] → Reachable L A (d.merge A other)
  | forkAt {d past : Doc} (heads : List ChangeHash) : Reachable L A d → d.pending = [] →
      d.forkAt A heads = .ok past → Reachable L A past
  | load {d : Doc} (supply : Supply) (draws : Nat) : Reachable L A d → d.pending = [] →
      Reachable L A (.ofChanges A d.changes supply draws)

theorem Doc.Keeps.unit {α : Type} {x : DocM α} (h : Doc.Keeps N A x fun _ => True) :
    Doc.Keeps N A (x >>= fun _ => pure ()) fun _ => True :=
  h.bind fun _ _ => .pure trivial

theorem LocalOp.run_keeps (op : LocalOp) : Doc.Keeps L.nfc A (op.run L A) fun _ => True := by
  cases op with
  | writeTextFile path content => exact (Doc.writeTextFile_keeps path content).unit
  | writeAttachment path hash size => exact (Doc.writeAttachment_keeps path hash size).unit
  | deleteFile path => exact Doc.deleteFile_keeps path
  | renameFile src dst => exact Doc.renameFile_keeps src dst
  | createDirectory path => exact (Doc.createDirectory_keeps path).unit
  | deleteDirectory path recursive => exact Doc.deleteDirectory_keeps path recursive
  | renameDirectory src dst => exact Doc.renameDirectory_keeps src dst
  | createLabel label => exact Doc.createLabel_keeps label
  | deleteLabel label => exact Doc.deleteLabel_keeps label
  | restoreToHeads heads => exact Doc.restoreToHeads_keeps heads
  | restoreToTime target => exact Doc.restoreToTime_keeps target
  | getHeads => exact Doc.Keeps.heads.unit

theorem Doc.Keeps.after {α : Type} {x : DocM α} {Q : α → Prop} (h : Doc.Keeps N A x Q) {d : Doc}
    (hd : d.Sound N A) : (d.after x).Sound N A := by
  have hrun := h d hd
  unfold Doc.after
  cases hx : x d with
  | ok a d' =>
    rw [hx] at hrun
    exact hrun.1
  | error e d' =>
    rw [hx] at hrun
    exact hrun

theorem Doc.new_sound (vaultId : Str) (supply : Supply) :
    (Doc.new A vaultId supply).Sound N A := by
  have hblock : Block N (genesisOps vaultId) := by
    refine ⟨by simp [genesisOps, Op.Sound, Op.writes, Addr.Fits], fun r hr fid => ?_⟩
    refine ⟨?_, ?_, ?_⟩ <;> simp [genesisOps, Op.apply, Addr.ancestors]
  refine ⟨?_, by simp [Doc.new], ?_, .empty, ?_, hblock.complete _ .empty, ?_⟩
  · show applyAll ∅ (genesisOps vaultId) = A.view [_]
    rw [← A.view_nil]
    exact (A.view_commit [] ⟨A.genesis vaultId, [], 0, genesisOps vaultId⟩ rfl).symm
  · exact List.forall_mem_singleton.mpr hblock.sound
  · exact List.forall_mem_singleton.mpr (hblock.complete _ .empty)
  · exact @Ordered.concat [] _ (by simp [Ordered]) (by simp)

theorem Doc.committed_of_closed {d : Doc} (h : d.pending = []) (time : Int) :
    d.committed time = d := by
  rw [Doc.committed, if_pos h]

theorem Doc.Sound.merge {d other : Doc} (hd : d.Sound N A) (ho : other.Sound N A) :
    (d.merge A other).Sound N A := by
  have hd := hd.committed 0
  have ho := ho.committed 0
  refine .ofChanges _ _ ?_ ?_ (hd.ordered.merge ho.ordered)
  · rw [List.forall_mem_append]
    exact ⟨hd.changes, fun c hc => ho.changes c (List.mem_of_mem_filter hc)⟩
  · rw [List.forall_mem_append]
    exact ⟨hd.changesComplete, fun c hc => ho.changesComplete c (List.mem_of_mem_filter hc)⟩

/-- **Every document a replica reaches is sound.** -/
theorem Reachable.sound {d : Doc} (h : Reachable L A d) : d.Sound L.nfc A := by
  induction h with
  | new vaultId supply => exact Doc.new_sound vaultId supply
  | run op _ _ ih => exact op.run_keeps.after ih
  | merge _ _ _ _ ih ih' => exact ih.merge ih'
  | forkAt heads _ _ hfork ih => exact Doc.forkAt_sound ih hfork
  | load supply draws _ _ ih =>
    exact .ofChanges _ _ ih.changes ih.changesComplete ih.ordered

theorem nodup_merge {changes other : List Change} (h : (changes.map Change.hash).Nodup)
    (ho : (other.map Change.hash).Nodup) :
    ((changes ++ other.filter fun c => !(changes.any fun c' => c'.hash = c.hash)).map
      Change.hash).Nodup := by
  rw [List.map_append, List.nodup_append]
  refine ⟨h, ho.sublist (List.filter_sublist.map _), fun a ha b hb => ?_⟩
  rintro rfl
  obtain ⟨c, hc, rfl⟩ := List.mem_map.mp hb
  obtain ⟨c', hc', heq⟩ := List.mem_map.mp ha
  have hnew := (List.mem_filter.mp hc).2
  have hany : (changes.any fun c' => c'.hash = c.hash) = true :=
    List.any_eq_true.mpr ⟨c', hc', by simpa using heq⟩
  simp [hany] at hnew

theorem forkAt_sublist {d past : Doc} {heads : List ChangeHash}
    (h : d.forkAt A heads = .ok past) : past.changes.Sublist d.changes := by
  unfold Doc.forkAt at h
  split at h
  next =>
    obtain rfl := Except.ok.inj h
    have hsub := (upTo_sublist d.changes.reverse heads).reverse
    rwa [List.reverse_reverse] at hsub
  next => cases h

theorem Reachable.distinct {d : Doc} (h : Reachable L A d) : d.Distinct := by
  induction h with
  | new vaultId supply => exact List.nodup_singleton _
  | run op _ hdistinct _ => exact hdistinct
  | merge _ _ hd ho ih ih' =>
    unfold Doc.merge
    rw [Doc.committed_of_closed hd, Doc.committed_of_closed ho]
    exact nodup_merge ih ih'
  | forkAt heads _ _ hfork ih =>
    exact ih.sublist ((forkAt_sublist hfork).map _)
  | load supply draws _ _ ih => exact ih

end AgentSync
