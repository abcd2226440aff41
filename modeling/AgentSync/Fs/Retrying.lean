import AgentSync.Fs.Adapter
import AgentSync.Fs.Materialize

/-! What a pass leaves for the next one.

A pass gives a path up when the adapter fails, or when the disk has edits that were not taken in.
A write that is given up is not recorded, so the next pass comes back to it. A delete that is
given up is forgotten all the same, as the pass ends by dropping from `materialized` every path
that is not live: no later pass looks at the file again (`missed_retried`). -/
namespace AgentSync

namespace Pass

/-- What a pass has to do at a path: to delete the file, or to write the content of a hash. -/
inductive Task where
  | delete
  | write (hash : Str)
  deriving DecidableEq, Repr

/-- One step of a pass, by what it starts from. -/
structure Turn (σ : Type) where
  before : Bound σ
  pick : Nat
  place : Pass

variable {σ : Type} (V : Setting σ)

namespace Turn

variable (t : Turn σ)

/-- What a step gives up. -/
def misses : Option (Str × Task) :=
  match t.place with
  | .deletes s todo =>
    todo[t.pick]?.bind fun path =>
      if path ∉ s.live ∧ uncommitted V t.before s path then some (path, .delete) else none
  | .deleting _ _ path => if canDelete V t.before path then none else some (path, .delete)
  | .reading s _ path _ hash =>
    if onDisk V t.before path hash then none
    else if uncommitted V t.before s path then some (path, .write hash) else none
  | .writing _ _ path bytes hash =>
    if canWrite V t.before path bytes then none else some (path, .write hash)
  | _ => none

/-- What a step brings about, or finds done. -/
def makes : Option (Str × Task) :=
  match t.place with
  | .deleting _ _ path => if canDelete V t.before path then some (path, .delete) else none
  | .reading _ _ path _ hash =>
    if onDisk V t.before path hash then some (path, .write hash) else none
  | .writing _ _ path bytes hash =>
    if canWrite V t.before path bytes then some (path, .write hash) else none
  | _ => none

/-- The pass has listed what is live. -/
def lists (l : Listing) : Prop := t.place = .ordering l

/-- The loop over what is live comes to a path. -/
def comesTo (path : Str) : Prop :=
  ∃ s todo, t.place = .writes s todo ∧ todo[t.pick]? = some path

/-- It finds that the content of the entry there has the hash. -/
def wants (path hash : Str) : Prop :=
  ∃ s todo m bytes, t.place = .writes s todo ∧ todo[t.pick]? = some path ∧
    s.live.lookup path = some m ∧ target V t.before m = .ok (some (bytes, hash))

end Turn

/-- A pass from `b₀` on, its steps so far, and where it is. Between them anything may change but
what is recorded of `p`, which is for the pass to do. -/
inductive Run (V : Setting σ) (p : Str) (b₀ : Bound σ) : List (Turn σ) → Bound σ → Pass → Prop
  | begin : Run V p b₀ [] b₀ .listing
  | step {log : List (Turn σ)} {b b' : Bound σ} {i i' : Pass} (pick : Nat) : Run V p b₀ log b i →
      Pass.step V b pick i = some (b', i') → Run V p b₀ (⟨b, pick, i⟩ :: log) b' i'
  | between {log : List (Turn σ)} {b : Bound σ} {i : Pass} (b' : Bound σ) : Run V p b₀ log b i →
      b'.materialized.lookup p = b.materialized.lookup p → Run V p b₀ log b' i

variable {V} {p path hash : Str} {bytes : Bytes} {b b' b₀ : Bound σ} {i i' : Pass} {pick : Nat}
  {s : Snapshot} {todo : List Str}

theorem createDir_materialized :
    (createDir V b path).materialized = b.materialized := by
  unfold createDir
  split <;> rfl

theorem removeDir_materialized :
    (removeDir V b path).materialized = b.materialized := by
  unfold removeDir
  split <;> rfl

/-! ### What a pass knows of a path -/

/-- The loop over what is live, where `m` is recorded of `p` until its turn. -/
structure Writing (p : Str) (m : Option Str) (b : Bound σ) (s : Snapshot) (todo : List Str) :
    Prop where
  existing : s.existing.lookup p = m
  nodup : todo.Nodup
  ahead : p ∈ todo ∨ p ∉ s.live → b.materialized.lookup p = m

/-- What is recorded of `p` while a pass is at work, of which `m` was recorded when it began. -/
def Knows (p : Str) (m : Option Str) (b : Bound σ) : Pass → Prop
  | .listing | .ordering _ | .creating _ _ | .cloning _ => b.materialized.lookup p = m
  | .cloned _ existing => existing.lookup p = m ∧ b.materialized.lookup p = m
  | .deletes s todo => (s.existing.lookup p = m ∧ b.materialized.lookup p = m) ∧
      ∀ q ∈ todo, q ∈ s.existing
  | .deleting s todo q | .deleted s todo q =>
    ((s.existing.lookup p = m ∧ b.materialized.lookup p = m) ∧ ∀ q ∈ todo, q ∈ s.existing) ∧
      q ∈ s.existing ∧ q ∉ s.live
  | .writes s todo => Writing p m b s todo
  | .reading s todo q _ hash | .marking s todo q _ hash | .writing s todo q _ hash =>
    Writing p m b s todo ∧ (q ∉ todo ∧ q ∈ s.live) ∧
      (q = p → b.materialized.lookup p = m ∧ m ≠ some hash)
  | .matched s todo q _ | .written s todo q _ _ =>
    Writing p m b s todo ∧ (q ∉ todo ∧ q ∈ s.live)
  | .pruning s => p ∉ s.live → b.materialized.lookup p = m
  | _ => True

variable {m : Option Str}

theorem Writing.congr (h : Writing p m b s todo)
    (hM : b'.materialized.lookup p = b.materialized.lookup p) : Writing p m b' s todo :=
  ⟨h.existing, h.nodup, fun hp => hM.trans (h.ahead hp)⟩

theorem Knows.congr (h : Knows p m b i)
    (hM : b'.materialized.lookup p = b.materialized.lookup p) : Knows p m b' i := by
  cases i with
  | writes s todo => exact Writing.congr h hM
  | reading s todo q bytes hash =>
    exact ⟨h.1.congr hM, h.2.1, fun hq => ⟨hM.trans (h.2.2 hq).1, (h.2.2 hq).2⟩⟩
  | marking s todo q bytes hash =>
    exact ⟨h.1.congr hM, h.2.1, fun hq => ⟨hM.trans (h.2.2 hq).1, (h.2.2 hq).2⟩⟩
  | writing s todo q bytes hash =>
    exact ⟨h.1.congr hM, h.2.1, fun hq => ⟨hM.trans (h.2.2 hq).1, (h.2.2 hq).2⟩⟩
  | matched s todo q hash => exact ⟨h.1.congr hM, h.2⟩
  | written s todo q bytes hash => exact ⟨h.1.congr hM, h.2⟩
  | listing => exact hM.trans h
  | ordering l => exact hM.trans h
  | creating l dirs => exact hM.trans h
  | cloning l => exact hM.trans h
  | cloned l existing => exact ⟨h.1, hM.trans h.2⟩
  | deletes s todo => exact ⟨⟨h.1.1, hM.trans h.1.2⟩, h.2⟩
  | deleting s todo q => exact ⟨⟨⟨h.1.1.1, hM.trans h.1.1.2⟩, h.1.2⟩, h.2⟩
  | deleted s todo q => exact ⟨⟨⟨h.1.1.1, hM.trans h.1.1.2⟩, h.1.2⟩, h.2⟩
  | pruning s => exact fun hp => hM.trans (h hp)
  | _ => trivial

/-- The one that is taken is not taken again. -/
theorem not_mem_eraseIdx (h : todo.Nodup) (hpath : todo[pick]? = some path) :
    path ∉ todo.eraseIdx pick := by
  intro hin
  obtain ⟨k, hk, hget⟩ := List.mem_eraseIdx_iff_getElem?.mp hin
  obtain ⟨hlt, -⟩ := List.getElem?_eq_some_iff.mp hget
  exact hk ((List.getElem?_inj hlt h).mp (hget.trans hpath.symm))

/-- The loop takes one of the paths. -/
theorem Writing.take (h : Writing p m b s todo) : Writing p m b s (todo.eraseIdx pick) :=
  ⟨h.existing, h.nodup.eraseIdx pick,
    fun hp => h.ahead (hp.imp List.mem_of_mem_eraseIdx fun hp => hp)⟩

/-- The loop records the one it has taken. -/
theorem Writing.record (h : Writing p m b s todo) (hq : path ∉ todo ∧ path ∈ s.live)
    (hM : b'.materialized = b.materialized.insert path hash) : Writing p m b' s todo := by
  refine ⟨h.existing, h.nodup, fun hp => ?_⟩
  have hne : p ≠ path := by
    rintro rfl
    exact hp.elim hq.1 fun hlive => hlive hq.2
  rw [hM, AList.lookup_insert_ne hne]
  exact h.ahead hp

theorem knows_step (hk : Knows p m b i) (h : Moves V b pick i b' i') : Knows p m b' i' := by
  cases h with
  | listed _ => exact hk
  | ordered l => exact hk
  | creating l path rest =>
    have hkeep : Knows p m (createDir V b path) (.creating l rest) :=
      Knows.congr (i := .creating l rest) hk (by rw [createDir_materialized])
    exact hkeep
  | created l => exact hk
  | cloning l => exact ⟨hk, hk⟩
  | cloned l existing => exact ⟨hk, fun q hq => AList.mem_keys.mp hq⟩
  | deletesEnd s => exact ⟨hk.1.1, s.live.keys_nodup, fun _ => hk.1.2⟩
  | live hpath hlive => exact ⟨hk.1, fun q hq => hk.2 q (List.mem_of_mem_eraseIdx hq)⟩
  | kept hpath hlive _ => exact ⟨hk.1, fun q hq => hk.2 q (List.mem_of_mem_eraseIdx hq)⟩
  | deleting hpath hlive _ =>
    exact ⟨⟨hk.1, fun q hq => hk.2 q (List.mem_of_mem_eraseIdx hq)⟩,
      hk.2 _ (List.mem_of_getElem? hpath), hlive⟩
  | deleted _ => exact hk
  | undeleted _ => exact hk.1
  | unmarked s todo path => exact hk.1
  | writesEnd s => exact fun hp => hk.ahead (.inr hp)
  | nothing hpath hm _ => exact hk.take
  | same hpath hm _ _ => exact hk.take
  | reading hpath hm _ hsame =>
    refine ⟨hk.take, ⟨not_mem_eraseIdx hk.nodup hpath, AList.lookup_isSome.mp (by rw [hm]; rfl)⟩,
      fun hq => ?_⟩
    subst hq
    exact ⟨hk.ahead (.inl (List.mem_of_getElem? hpath)), hk.existing ▸ hsame⟩
  | matched _ => exact ⟨hk.1, hk.2.1⟩
  | left _ _ => exact hk.1
  | marking _ _ => exact hk
  | recorded s todo path hash => exact hk.1.record hk.2 rfl
  | writing s todo path bytes hash => exact ⟨hk.1.congr rfl, hk.2⟩
  | written _ => exact ⟨hk.1.congr rfl, hk.2.1⟩
  | unwritten _ => exact hk.1.congr rfl
  | rewritten s todo path bytes hash => exact hk.1.record hk.2 rfl
  | _ => trivial

variable {log : List (Turn σ)}

theorem Run.knows (h : Run V p b₀ log b i) : Knows p (b₀.materialized.lookup p) b i := by
  induction h with
  | begin => rfl
  | step pick _ hstep ih => exact knows_step ih (moves_of_step hstep)
  | between b' _ hM ih => exact ih.congr hM

/-! ### After a miss -/

/-- A delete of `p` was given up: the record of `p` stays until the pass prunes. -/
def AfterDelete (p : Str) (m : Option Str) (b : Bound σ) : Pass → Prop
  | .deletes s _ | .deleting s _ _ | .deleted s _ _ | .writes s _ | .reading s _ _ _ _
  | .matched s _ _ _ | .marking s _ _ _ _ | .writing s _ _ _ _ | .written s _ _ _ _
  | .pruning s => p ∉ s.live
  | .pruned _ | .sweeping _ | .removing _ _ | .done (.ok _) => b.materialized.lookup p = none
  | .done (.error _) => b.materialized.lookup p = m
  | _ => False

/-- A write of `p` was given up: nothing says that it was done. -/
def AfterWrite (p hash : Str) (b : Bound σ) : Pass → Prop
  | .writes _ todo => p ∉ todo ∧ b.materialized.lookup p ≠ some hash
  | .reading _ todo q _ _ | .marking _ todo q _ _ | .writing _ todo q _ _ | .matched _ todo q _
  | .written _ todo q _ _ => (p ∉ todo ∧ q ≠ p) ∧ b.materialized.lookup p ≠ some hash
  | .pruning _ | .pruned _ | .sweeping _ | .removing _ _ | .done _ =>
    b.materialized.lookup p ≠ some hash
  | _ => False

theorem AfterDelete.congr (h : AfterDelete p m b i)
    (hM : b'.materialized.lookup p = b.materialized.lookup p) : AfterDelete p m b' i := by
  cases i with
  | done r =>
    cases r with
    | ok _ => exact hM.trans h
    | error _ => exact hM.trans h
  | pruned s => exact hM.trans h
  | sweeping s => exact hM.trans h
  | removing s dirs => exact hM.trans h
  | _ => exact h

theorem AfterWrite.congr (h : AfterWrite p hash b i)
    (hM : b'.materialized.lookup p = b.materialized.lookup p) : AfterWrite p hash b' i := by
  cases i with
  | writes s todo => exact ⟨h.1, hM ▸ h.2⟩
  | reading s todo q bytes hash => exact ⟨h.1, hM ▸ h.2⟩
  | marking s todo q bytes hash => exact ⟨h.1, hM ▸ h.2⟩
  | writing s todo q bytes hash => exact ⟨h.1, hM ▸ h.2⟩
  | matched s todo q hash => exact ⟨h.1, hM ▸ h.2⟩
  | written s todo q bytes hash => exact ⟨h.1, hM ▸ h.2⟩
  | pruning s => exact fun heq => h (hM.symm.trans heq)
  | pruned s => exact fun heq => h (hM.symm.trans heq)
  | sweeping s => exact fun heq => h (hM.symm.trans heq)
  | removing s dirs => exact fun heq => h (hM.symm.trans heq)
  | done r => exact fun heq => h (hM.symm.trans heq)
  | _ => exact h

theorem afterDelete_step (hk : Knows p m b i) (h : AfterDelete p m b i)
    (hmove : Moves V b pick i b' i') : AfterDelete p m b' i' := by
  cases hmove with
  | failed => exact hk.ahead (.inr h)
  | pruned s =>
    show (Hashes.retain b.materialized fun p => p ∈ s.live).lookup p = none
    rw [Hashes.lookup_retain]
    exact if_neg fun hlive => h (of_decide_eq_true hlive)
  | sweeping s => exact h
  | removed => exact AfterDelete.congr h (by rw [removeDir_materialized])
  | listed | unlisted | ordered | creating | created | cloning | cloned => exact h.elim
  | _ => exact h

theorem afterWrite_step (h : AfterWrite p hash b i) (hmove : Moves V b pick i b' i') :
    AfterWrite p hash b' i' := by
  cases hmove with
  | nothing hpath _ _ => exact ⟨fun hp => h.1 (List.mem_of_mem_eraseIdx hp), h.2⟩
  | same hpath _ _ _ => exact ⟨fun hp => h.1 (List.mem_of_mem_eraseIdx hp), h.2⟩
  | reading hpath _ _ _ =>
    refine ⟨⟨fun hp => h.1 (List.mem_of_mem_eraseIdx hp), ?_⟩, h.2⟩
    rintro rfl
    exact h.1 (List.mem_of_getElem? hpath)
  | matched _ => exact h
  | left _ _ => exact ⟨h.1.1, h.2⟩
  | marking _ _ => exact h
  | recorded s todo path hash' | rewritten s todo path bytes hash' =>
    refine ⟨h.1.1, ?_⟩
    rw [AList.lookup_insert_ne (Ne.symm h.1.2)]
    exact h.2
  | writing s todo path bytes hash' => exact h
  | written _ => exact h
  | unwritten _ => exact ⟨h.1.1, h.2⟩
  | pruned s =>
    show (Hashes.retain b.materialized fun p => p ∈ s.live).lookup p ≠ some hash
    rw [Hashes.lookup_retain]
    split
    · exact h
    · simp
  | writesEnd s => exact h.2
  | failed => exact h.2
  | sweeping s => exact h
  | removed => exact AfterWrite.congr h (by rw [removeDir_materialized])
  | removing => exact h
  | done => exact h
  | _ => exact h.elim

/-- A delete of `p` that is given up was of a path that is not live. -/
theorem afterDelete_of_misses (hk : Knows p m b i) (hmove : Moves V b pick i b' i')
    (hmiss : Turn.misses V ⟨b, pick, i⟩ = some (p, .delete)) :
    m ≠ none ∧ AfterDelete p m b' i' := by
  cases i with
  | deletes s todo =>
    obtain ⟨path, hpath, hif⟩ := Option.bind_eq_some_iff.mp hmiss
    split at hif
    next hcond =>
      obtain ⟨rfl, -⟩ := Prod.mk.inj (Option.some.inj hif)
      refine ⟨?_, ?_⟩
      · rw [← hk.1.1]
        exact Option.isSome_iff_ne_none.mp
          (AList.lookup_isSome.mpr (hk.2 _ (List.mem_of_getElem? hpath)))
      · cases hmove with
        | deletesEnd s => cases hpath
        | live => exact hcond.1
        | kept => exact hcond.1
        | deleting => exact hcond.1
    next => cases hif
  | deleting s todo path =>
    simp only [Turn.misses] at hmiss
    split at hmiss
    next => cases hmiss
    next =>
      obtain ⟨rfl, -⟩ := Prod.mk.inj (Option.some.inj hmiss)
      refine ⟨?_, ?_⟩
      · rw [← hk.1.1.1]
        exact Option.isSome_iff_ne_none.mp (AList.lookup_isSome.mpr hk.2.1)
      · cases hmove with
        | deleted => exact hk.2.2
        | undeleted => exact hk.2.2
  | reading s todo path bytes hash =>
    simp only [Turn.misses] at hmiss
    grind
  | writing s todo path bytes hash =>
    simp only [Turn.misses] at hmiss
    grind
  | _ => cases hmiss

/-- A write of `p` that is given up was not recorded before. -/
theorem afterWrite_of_misses (hk : Knows p m b i) (hmove : Moves V b pick i b' i')
    (hmiss : Turn.misses V ⟨b, pick, i⟩ = some (p, .write hash)) : AfterWrite p hash b' i' := by
  cases i with
  | reading s todo path bytes hash' =>
    simp only [Turn.misses] at hmiss
    split at hmiss
    next => cases hmiss
    next hdisk =>
      split at hmiss
      next hkept =>
        obtain ⟨rfl, htask⟩ := Prod.mk.inj (Option.some.inj hmiss)
        obtain rfl := Task.write.inj htask
        cases hmove with
        | matched hdisk' => exact absurd hdisk' hdisk
        | left => exact ⟨hk.2.1.1, (hk.2.2 rfl).1 ▸ (hk.2.2 rfl).2⟩
        | marking _ hkept' =>
          rw [hkept] at hkept'
          cases hkept'
      next => cases hmiss
  | writing s todo path bytes hash' =>
    simp only [Turn.misses] at hmiss
    split at hmiss
    next => cases hmiss
    next hwrites =>
      obtain ⟨rfl, htask⟩ := Prod.mk.inj (Option.some.inj hmiss)
      obtain rfl := Task.write.inj htask
      cases hmove with
      | written hwrites' => exact absurd hwrites' hwrites
      | unwritten _ =>
        refine ⟨hk.2.1.1, ?_⟩
        exact (hk.2.2 rfl).1 ▸ (hk.2.2 rfl).2
  | deletes s todo =>
    obtain ⟨path, -, hif⟩ := Option.bind_eq_some_iff.mp hmiss
    grind
  | deleting s todo path =>
    simp only [Turn.misses] at hmiss
    grind
  | _ => cases hmiss

theorem Run.missed_delete (h : Run V p b₀ log b i) {t : Turn σ} (ht : t ∈ log)
    (hmiss : t.misses V = some (p, .delete)) :
    b₀.materialized.lookup p ≠ none ∧ AfterDelete p (b₀.materialized.lookup p) b i := by
  induction h with
  | begin => cases ht
  | step pick hrun hstep ih =>
    obtain rfl | ht := List.mem_cons.mp ht
    · exact afterDelete_of_misses hrun.knows (moves_of_step hstep) hmiss
    · exact ⟨(ih ht).1, afterDelete_step hrun.knows (ih ht).2 (moves_of_step hstep)⟩
  | between b' _ hM ih => exact ⟨(ih ht).1, (ih ht).2.congr hM⟩

theorem Run.missed_write (h : Run V p b₀ log b i) {t : Turn σ} (ht : t ∈ log)
    (hmiss : t.misses V = some (p, .write hash)) : AfterWrite p hash b i := by
  induction h with
  | begin => cases ht
  | step pick hrun hstep ih =>
    obtain rfl | ht := List.mem_cons.mp ht
    · exact afterWrite_of_misses hrun.knows (moves_of_step hstep) hmiss
    · exact afterWrite_step (ih ht) (moves_of_step hstep)
  | between b' _ hM ih => exact (ih ht).congr hM

/-! ### The next pass -/

/-- The pass gets to the task, and does it or gives it up again. -/
def Attempts (V : Setting σ) (log : List (Turn σ)) (p : Str) (task : Task) : Prop :=
  ∃ t ∈ log, t.misses V = some (p, task) ∨ t.makes V = some (p, task)

/-- The pass, which has listed `l`, has still to come to `p`. -/
def Ahead (p : Str) (l : Listing) : Pass → Prop
  | .creating l' _ | .cloning l' | .cloned l' _ => l' = l
  | .deletes s todo | .deleted s todo _ => s.toListing = l ∧ (p ∉ l.live → p ∈ todo)
  | .deleting s todo q => s.toListing = l ∧ (p ∉ l.live → q = p ∨ p ∈ todo)
  | .writes s todo | .reading s todo _ _ _ | .matched s todo _ _ | .marking s todo _ _ _
  | .writing s todo _ _ _ | .written s todo _ _ _ => s.toListing = l ∧ p ∈ l.live ∧ p ∈ todo
  | _ => False

/-- The pass has come to `p`. -/
def Reached (V : Setting σ) (p : Str) (l : Listing) (log : List (Turn σ)) : Prop :=
  (p ∉ l.live ∧ Attempts V log p .delete) ∨ (p ∈ l.live ∧ ∃ t ∈ log, t.comesTo p)

theorem Attempts.cons {task : Task} (h : Attempts V log p task) (t : Turn σ) :
    Attempts V (t :: log) p task := by
  obtain ⟨t', ht', hattempt⟩ := h
  exact ⟨t', List.mem_cons_of_mem _ ht', hattempt⟩

theorem Reached.cons {l : Listing} (h : Reached V p l log) (t : Turn σ) :
    Reached V p l (t :: log) :=
  h.imp (fun h => ⟨h.1, h.2.cons t⟩)
    fun ⟨hlive, t', ht', hcomes⟩ => ⟨hlive, t', List.mem_cons_of_mem _ ht', hcomes⟩

/-- What is in a list of which one entry is taken is that entry or is left. -/
theorem eq_or_mem_eraseIdx {q : Str} (h : q ∈ todo) (hpath : todo[pick]? = some path) :
    q = path ∨ q ∈ todo.eraseIdx pick := by
  obtain ⟨k, hget⟩ := List.mem_iff_getElem?.mp h
  by_cases hk : k = pick
  · subst hk
    exact .inl (Option.some.inj (hget.symm.trans hpath))
  · exact .inr (List.mem_eraseIdx_iff_getElem?.mpr ⟨k, hk, hget⟩)

/-- The pass comes to a path that it has still to write. -/
theorem reached_or_ahead {l : Listing} (hlive : p ∈ l.live) (hp : p ∈ todo)
    (hpath : todo[pick]? = some path) :
    Reached V p l (⟨b, pick, .writes s todo⟩ :: log) ∨ p ∈ todo.eraseIdx pick := by
  obtain rfl | hp := eq_or_mem_eraseIdx hp hpath
  · exact .inl (.inr ⟨hlive, _, List.mem_cons_self, s, todo, rfl, hpath⟩)
  · exact .inr hp

theorem ahead_step {l : Listing} (hm : p ∉ l.live → m ≠ none) (hk : Knows p m b i)
    (h : Ahead p l i) (hmove : Moves V b pick i b' i') (hok : ∀ e, i' ≠ .done (.error e)) :
    Reached V p l (⟨b, pick, i⟩ :: log) ∨ Ahead p l i' := by
  cases hmove with
  | creating l' path rest => exact .inr h
  | created l' => exact .inr h
  | cloning l' => exact .inr h
  | cloned l' existing =>
    refine .inr ⟨h, fun hp => AList.mem_keys.mpr (AList.lookup_isSome.mp ?_)⟩
    rw [hk.1]
    exact Option.isSome_iff_ne_none.mpr (hm hp)
  | deletesEnd s =>
    obtain ⟨rfl, h⟩ := h
    by_cases hlive : p ∈ s.live
    · exact .inr ⟨rfl, hlive, AList.mem_keys.mpr hlive⟩
    · cases h hlive
  | live hpath hlive =>
    obtain ⟨rfl, h⟩ := h
    refine .inr ⟨rfl, fun hp => ?_⟩
    obtain rfl | hin := eq_or_mem_eraseIdx (h hp) hpath
    · exact absurd hlive hp
    · exact hin
  | kept hpath hlive hkept =>
    by_cases hp : p ∈ l.live
    · exact .inr ⟨h.1, fun hno => absurd hp hno⟩
    · obtain rfl | hin := eq_or_mem_eraseIdx (h.2 hp) hpath
      · refine .inl (.inl ⟨hp, _, List.mem_cons_self, .inl ?_⟩)
        simp [Turn.misses, hpath, hlive, hkept]
      · exact .inr ⟨h.1, fun _ => hin⟩
  | deleting hpath hlive hkept =>
    obtain ⟨rfl, h⟩ := h
    exact .inr ⟨rfl, fun hp => (eq_or_mem_eraseIdx (h hp) hpath).imp_left Eq.symm⟩
  | deleted hdeletes =>
    by_cases hp : p ∈ l.live
    · exact .inr ⟨h.1, fun hno => absurd hp hno⟩
    · obtain rfl | hin := h.2 hp
      · refine .inl (.inl ⟨hp, _, List.mem_cons_self, .inr ?_⟩)
        simp [Turn.makes, hdeletes]
      · exact .inr ⟨h.1, fun _ => hin⟩
  | undeleted hdeletes =>
    by_cases hp : p ∈ l.live
    · exact .inr ⟨h.1, fun hno => absurd hp hno⟩
    · obtain rfl | hin := h.2 hp
      · refine .inl (.inl ⟨hp, _, List.mem_cons_self, .inl ?_⟩)
        simp [Turn.misses, hdeletes]
      · exact .inr ⟨h.1, fun _ => hin⟩
  | unmarked s todo path => exact .inr h
  | writesEnd s => cases h.2.2
  | failed => exact absurd rfl (hok _)
  | nothing hpath hm htarget =>
    exact (reached_or_ahead h.2.1 h.2.2 hpath).imp_right fun hp => ⟨h.1, h.2.1, hp⟩
  | same hpath hm htarget hsame =>
    exact (reached_or_ahead h.2.1 h.2.2 hpath).imp_right fun hp => ⟨h.1, h.2.1, hp⟩
  | reading hpath hm htarget hsame =>
    exact (reached_or_ahead h.2.1 h.2.2 hpath).imp_right fun hp => ⟨h.1, h.2.1, hp⟩
  | listed | unlisted | ordered | pruned | sweeping | removing | removed | done => exact h.elim
  | _ => exact .inr h

/-- A pass that has listed what is live comes to `p`, unless it fails. -/
theorem Run.reached {l : Listing} (h : Run V p b₀ log b i)
    (hm : p ∉ l.live → b₀.materialized.lookup p ≠ none) {t : Turn σ} (ht : t ∈ log)
    (hl : t.lists l) : Reached V p l log ∨ Ahead p l i ∨ ∃ e, i = .done (.error e) := by
  induction h with
  | begin => cases ht
  | @step log b b' i i' pick hrun hstep ih =>
    by_cases herror : ∃ e, i' = .done (.error e)
    · exact .inr (.inr herror)
    · have hok (e : Error) (he : i' = .done (.error e)) : False := herror ⟨e, he⟩
      have hmove := moves_of_step hstep
      obtain rfl | ht := List.mem_cons.mp ht
      · have hi : i = .ordering l := hl
        subst hi
        cases hmove with
        | ordered => exact .inr (.inl rfl)
      · rcases ih ht with hreached | hahead | ⟨e, rfl⟩
        · exact .inl (hreached.cons _)
        · exact (ahead_step hm hrun.knows hahead hmove hok).imp_right .inl
        · cases hmove
  | between b' _ _ ih => exact ih ht

/-- The pass is about to write the content of a hash to `p`. -/
def Heading (p hash : Str) : Pass → Prop
  | .reading _ _ q _ hash' | .marking _ _ q _ hash' | .writing _ _ q _ hash' => q = p ∧ hash' = hash
  | _ => False

theorem heading_step (h : Heading p hash i) (hmove : Moves V b pick i b' i') :
    Attempts V (⟨b, pick, i⟩ :: log) p (.write hash) ∨ Heading p hash i' := by
  cases hmove with
  | matched hdisk =>
    obtain ⟨rfl, rfl⟩ := h
    exact .inl ⟨_, List.mem_cons_self, .inr (by simp [Turn.makes, hdisk])⟩
  | left hdisk hkept =>
    obtain ⟨rfl, rfl⟩ := h
    exact .inl ⟨_, List.mem_cons_self, .inl (by simp [Turn.misses, hdisk, hkept])⟩
  | marking _ _ => exact .inr h
  | writing s todo path bytes hash => exact .inr h
  | written hwrites =>
    obtain ⟨rfl, rfl⟩ := h
    exact .inl ⟨_, List.mem_cons_self, .inr (by simp [Turn.makes, hwrites])⟩
  | unwritten hwrites =>
    obtain ⟨rfl, rfl⟩ := h
    exact .inl ⟨_, List.mem_cons_self, .inl (by simp [Turn.misses, hwrites])⟩
  | _ => exact h.elim

/-- A content whose hash is not recorded is written, or given up. -/
theorem Run.attempted (h : Run V p b₀ log b i) (hm : b₀.materialized.lookup p ≠ some hash)
    {t : Turn σ} (ht : t ∈ log) (hwants : t.wants V p hash) :
    Attempts V log p (.write hash) ∨ Heading p hash i ∨ ∃ e, i = .done (.error e) := by
  induction h with
  | begin => cases ht
  | @step log b b' i i' pick hrun hstep ih =>
    have hmove := moves_of_step hstep
    obtain rfl | ht := List.mem_cons.mp ht
    · obtain ⟨s, todo, m, bytes, hi, hpath, hm', htarget⟩ := hwants
      have hi : i = .writes s todo := hi
      subst hi
      have hk : Writing p _ b s todo := hrun.knows
      cases hmove with
      | writesEnd => cases hpath
      | failed => exact .inr (.inr ⟨_, rfl⟩)
      | nothing hpath' hlookup htarget' =>
        obtain rfl := Option.some.inj (hpath.symm.trans hpath')
        obtain rfl := Option.some.inj (hm'.symm.trans hlookup)
        cases htarget.symm.trans htarget'
      | same hpath' hlookup htarget' hsame =>
        obtain rfl := Option.some.inj (hpath.symm.trans hpath')
        obtain rfl := Option.some.inj (hm'.symm.trans hlookup)
        cases htarget.symm.trans htarget'
        exact absurd (hk.existing.symm.trans hsame) hm
      | reading hpath' hlookup htarget' hsame =>
        obtain rfl := Option.some.inj (hpath.symm.trans hpath')
        obtain rfl := Option.some.inj (hm'.symm.trans hlookup)
        cases htarget.symm.trans htarget'
        exact .inr (.inl ⟨rfl, rfl⟩)
    · rcases ih ht with hattempts | hheading | ⟨e, rfl⟩
      · exact .inl (hattempts.cons _)
      · exact (heading_step hheading hmove).imp_right .inl
      · cases hmove
  | between b' _ _ ih => exact ih ht

/-! ### The law -/

/-- The pass has given a task at the path up. -/
def Missed (V : Setting σ) (log : List (Turn σ)) (p : Str) (task : Task) : Prop :=
  ∃ t ∈ log, t.misses V = some (p, task)

/-- What is recorded makes the next pass attempt the task: a file to be deleted is still
tracked, a content to be written is not recorded as written, and a pass from here on that
returns and that has the task, as the document then has it, either does it or gives it up. -/
def Retried (V : Setting σ) (p : Str) (b : Bound σ) : Task → Prop
  | .delete => p ∈ b.materialized ∧ ∀ log b' l, Run V p b log b' (.done (.ok ())) →
      (∃ t ∈ log, t.lists l) → p ∉ l.live → Attempts V log p .delete
  | .write hash => b.materialized.lookup p ≠ some hash ∧
      ∀ log b' l, Run V p b log b' (.done (.ok ())) → (∃ t ∈ log, t.lists l) → p ∈ l.live →
        (∃ t ∈ log, t.comesTo p) ∧
          ∀ t ∈ log, t.wants V p hash → Attempts V log p (.write hash)

theorem retried_write (hM : b.materialized.lookup p ≠ some hash) : Retried V p b (.write hash) := by
  refine ⟨hM, fun log b' l hrun ⟨t, ht, hl⟩ hlive => ⟨?_, fun t' ht' hwants => ?_⟩⟩
  · rcases hrun.reached (fun hno => absurd hlive hno) ht hl with
      (⟨hno, -⟩ | ⟨-, hcomes⟩) | hahead | ⟨e, he⟩
    · exact absurd hlive hno
    · exact hcomes
    · exact hahead.elim
    · cases he
  · rcases hrun.attempted hM ht' hwants with hattempts | hheading | ⟨e, he⟩
    · exact hattempts
    · exact hheading.elim
    · cases he

theorem retried_delete (hM : b.materialized.lookup p ≠ none) : Retried V p b .delete := by
  refine ⟨AList.lookup_isSome.mp (Option.isSome_iff_ne_none.mpr hM),
    fun log b' l hrun ⟨t, ht, hl⟩ hlive => ?_⟩
  rcases hrun.reached (fun _ => hM) ht hl with (⟨-, hattempts⟩ | ⟨hno, -⟩) | hahead | ⟨e, he⟩
  · exact hattempts
  · exact absurd hno hlive
  · exact hahead.elim
  · cases he

/-- **What a pass gives up at a path the next one attempts again** exactly when it gave up no
delete there; a pass that fails before it prunes leaves everything to the next one. Here `log`
is what the pass did and `b` what it left, from any state on and with anything going on meanwhile
but another recording of the path. -/
theorem missed_retried :
    (Run V p b₀ log b (.done (.ok ())) →
      ((∀ task, Missed V log p task → Retried V p b task) ↔ ¬ Missed V log p .delete)) ∧
    ∀ e, Run V p b₀ log b (.done (.error e)) →
      ∀ task, Missed V log p task → Retried V p b task := by
  have hwrite {r : Except Error Unit} (hrun : Run V p b₀ log b (.done r)) {hash : Str}
      (hmiss : Missed V log p (.write hash)) : Retried V p b (.write hash) := by
    obtain ⟨t, ht, hmiss⟩ := hmiss
    exact retried_write (hrun.missed_write ht hmiss)
  refine ⟨fun hrun => ⟨fun hall hmiss => ?_, fun hno task hmiss => ?_⟩, fun e hrun task hmiss => ?_⟩
  · -- The pass has dropped the path.
    obtain ⟨t, ht, hmisses⟩ := hmiss
    have hnone : b.materialized.lookup p = none := (hrun.missed_delete ht hmisses).2
    have hsome := AList.lookup_isSome.mpr (hall .delete ⟨t, ht, hmisses⟩).1
    rw [hnone] at hsome
    cases hsome
  · cases task with
    | delete => exact absurd hmiss hno
    | write hash => exact hwrite hrun hmiss
  · cases task with
    | delete =>
      obtain ⟨t, ht, hmisses⟩ := hmiss
      obtain ⟨hsome, hsame⟩ := hrun.missed_delete ht hmisses
      have hsame : b.materialized.lookup p = b₀.materialized.lookup p := hsame
      exact retried_delete (hsame ▸ hsome)
    | write hash => exact hwrite hrun hmiss

/-! ### Two passes -/

/-- Taking steps, with what each starts from. -/
def turns (V : Setting σ) : List Nat → List (Turn σ) × Bound σ × Pass →
    Option (List (Turn σ) × Bound σ × Pass)
  | [], x => some x
  | pick :: rest, (log, b, i) =>
    (Pass.step V b pick i).bind fun (b', i') => turns V rest (⟨b, pick, i⟩ :: log, b', i')

theorem run_of_turns {picks : List Nat} {x : List (Turn σ) × Bound σ × Pass}
    (h : Run V p b₀ log b i) (hturns : turns V picks (log, b, i) = some x) :
    Run V p b₀ x.1 x.2.1 x.2.2 := by
  induction picks generalizing log b i with
  | nil =>
    obtain rfl := Option.some.inj hturns
    exact h
  | cons pick rest ih =>
    obtain ⟨⟨b', i'⟩, hstep, hrest⟩ := Option.bind_eq_some_iff.mp hturns
    exact ih (h.step pick hstep) hrest

def returns : Pass → Bool
  | .done (.ok _) => true
  | _ => false

theorem eq_of_returns (h : i.returns = true) : i = .done (.ok ()) := by
  cases i with
  | done r =>
    cases r with
    | ok _ => rfl
    | error _ => cases h
  | _ => cases h

/-- A directory in which the user has just typed `b` into the one file, and what was recorded of
the file. -/
private def editing (ops : List LocalOp) (materialized : Hashes) : Bound Disk :=
  {Bound.fresh (.replica (.numbered '1' 16) ops) ⟨((∅ : AList fun _ : Location => Node).insert
    [txt "vault"] .dir).insert [txt "vault", txt "n.md"] (.file (utf8 (txt "b")))⟩ with
    materialized := materialized}

/-- The document has another text for the file: the write waits for the user's to be taken in. -/
private def contested : Bound Disk := editing [.writeTextFile (txt "n.md") (txt "a")] ∅

theorem missed_retried_contested : ∃ log b,
    Missed .localDisk log (txt "n.md") (.write (letterDigest.hash (utf8 (txt "a")))) ∧
      Retried .localDisk (txt "n.md") b (.write (letterDigest.hash (utf8 (txt "a")))) := by
  have hrun : ((turns .localDisk (List.replicate 13 0) ([], contested, .listing)).any fun x =>
      x.1.any (fun t => decide (t.misses .localDisk =
        some (txt "n.md", .write (letterDigest.hash (utf8 (txt "a")))))) &&
      x.1.all (fun t => decide (t.misses .localDisk ≠ some (txt "n.md", .delete))) &&
      x.2.2.returns) = true := by
    decide +kernel
  obtain ⟨⟨log, b, i⟩, hx, hlaw⟩ := (Option.any_eq_true _ _).mp hrun
  simp only [Bool.and_eq_true, List.any_eq_true, List.all_eq_true, decide_eq_true_eq] at hlaw
  obtain ⟨⟨hmiss, hno⟩, hreturns⟩ := hlaw
  obtain rfl := eq_of_returns hreturns
  have hreach := run_of_turns (.begin (p := txt "n.md")) hx
  exact ⟨log, b, hmiss, (missed_retried.1 hreach).mpr (fun ⟨t, ht, h⟩ => hno t ht h) _ hmiss⟩

/-- A peer deletes the file while the user types: the delete waits, and is forgotten. -/
private def stranding : Bound Disk :=
  editing [.writeTextFile (txt "n.md") (txt "a"), .deleteFile (txt "n.md")]
    ((∅ : Hashes).insert (txt "n.md") (letterDigest.hash (utf8 (txt "a"))))

theorem missed_retried_stranding : ∃ log b,
    Run .localDisk (txt "n.md") stranding log b (.done (.ok ())) ∧
      Missed .localDisk log (txt "n.md") .delete ∧ ¬ Retried .localDisk (txt "n.md") b .delete := by
  have hrun : ((turns .localDisk (List.replicate 12 0) ([], stranding, .listing)).any fun x =>
      x.1.any (fun t => decide (t.misses .localDisk = some (txt "n.md", .delete))) &&
      x.2.2.returns && decide (x.2.1.materialized.lookup (txt "n.md") = none)) = true := by
    decide +kernel
  obtain ⟨⟨log, b, i⟩, hx, hlaw⟩ := (Option.any_eq_true _ _).mp hrun
  simp only [Bool.and_eq_true, List.any_eq_true, decide_eq_true_eq] at hlaw
  obtain ⟨⟨hmiss, hreturns⟩, hnone⟩ := hlaw
  obtain rfl := eq_of_returns hreturns
  refine ⟨log, b, run_of_turns .begin hx, hmiss, fun hretried => ?_⟩
  have hsome := AList.lookup_isSome.mpr hretried.1
  rw [hnone] at hsome
  cases hsome

end Pass

end AgentSync
