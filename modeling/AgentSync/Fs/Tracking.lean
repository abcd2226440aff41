import AgentSync.Fs.Adapter
import AgentSync.Fs.Session

/-! What the two maps of a binding know about the disk.

A path is settled when its file has what a pass has put there or a call of `ingest_file` has
taken in, and nobody has changed it since. The law (`Tracked`) is that the hash of such a file
is in one of the maps, so that a pass may overwrite it.

A pass prunes the maps by the listing it began with, so it forgets a file that was taken in
meanwhile; a call records what it has read, though a pass may have written over it; and a pass
records what it has written or found, though another may have written over that. Where none of
this happens (`orderly`) the law holds in every run. The last cannot happen while passes come
one after the other (`faithful_of_alone`). -/
namespace AgentSync

variable {σ : Type}

/-- What a step of the call puts into the maps. -/
def Ingest.records (V : Setting σ) (path : Str) (b : Bound σ) : Ingest → Option Str
  | .recording hash | .recorded hash => some hash
  | .comparing text hash =>
    if b.doc.root.readFile V.crates path = .ok text then some hash else none
  | _ => none

namespace Pass

/-- What a step of the pass puts into `materialized`. -/
def records : Pass → Option (Str × Str)
  | .matched _ _ path hash | .written _ _ path _ hash => some (path, hash)
  | _ => none

/-- A content to write, with the hash that will stand for it. -/
def content : Pass → Option (Bytes × Str)
  | .reading _ _ _ bytes hash | .marking _ _ _ bytes hash | .writing _ _ _ bytes hash
  | .written _ _ _ bytes hash => some (bytes, hash)
  | _ => none

/-- The path that the adapter is writing for the pass. -/
def writing? : Pass → Option Str
  | .writing _ _ path _ _ => some path
  | _ => none

end Pass

namespace Tracking

open Session (Act)

variable (V : Setting σ) (s : Session σ)

/-- The path whose content a step has finished putting in place or taking in. -/
def settles : Act σ → Option Str
  | .pass i _ =>
    match s.passes[i]? with
    | some (.written _ _ path bytes _) => if s.disk V path = .ok bytes then some path else none
    | _ => none
  | .ingest =>
    match s.call with
    | some (path, .recorded hash) => if s.diskHash V path = some hash then some path else none
    | some (path, .comparing text hash) =>
      if s.bound.doc.root.readFile V.crates path = .ok text ∧ s.diskHash V path = some hash then
        some path
      else none
    | _ => none
  | _ => none

/-- The path a step of a pass writes to. -/
def overwrites : Act σ → Option Str
  | .pass i _ =>
    match s.passes[i]? with
    | some (.writing _ _ path bytes _) =>
      match V.adapter.write s.bound.fs (V.vaultPathToFsPath path) bytes with
      | (_, .ok _) => some path
      | (_, .error _) => none
    | _ => none
  | _ => none

/-- The settled paths after a step. -/
def note (a : Act σ) (s' : Session σ) (settled : List Str) : List Str :=
  (settled.filter fun p => s'.disk V p = s.disk V p ∧ overwrites V s a ≠ some p) ++
    (settles V s a).toList

/-- The blob that an attachment is written from has the content it is named for. -/
def honest (b : Bound σ) (m : FileMeta) : Bool :=
  m.binaryHash.all fun h =>
    match V.blobStore.get b.storage h with
    | .ok bytes => V.crates.sha.hash bytes = h
    | .error _ => true

/-- A pass that prunes has listed every settled file, a call that records a settled file records
what the disk has, and blobs have the content they are named for. -/
def mindful (settled : List Str) : Act σ → Bool
  | .ingest =>
    match s.call with
    | some (path, i) => (i.records V path s.bound).all fun hash =>
        !settled.contains path || (s.diskHash V path).all fun d => d = hash
    | none => true
  | .pass i _ =>
    match s.passes[i]? with
    | some (.pruning snap) | some (.pruned snap) =>
      settled.all fun p => (s.diskHash V p).isNone || p ∈ snap.live
    | some (.writes snap _) => snap.live.entries.all fun e => honest V s.bound e.2
    | _ => true
  | _ => true

/-- What a pass records of a settled file is what the disk has, or a call has recorded that. -/
def faithful (settled : List Str) : Act σ → Bool
  | .pass i _ => ((s.passes[i]?).bind Pass.records).all fun r =>
      !settled.contains r.1 || (s.diskHash V r.1).all fun d =>
        d = r.2 || s.bound.lastIngested.lookup r.1 = some d
  | _ => true

/-- The adapter writes no path for two passes at once, which would share the temporary file. -/
def apart : Act σ → Bool
  | .pass i _ => ((s.passes[i]?).bind Pass.writing?).all fun path =>
      (s.passes.eraseIdx i).all fun q => q.writing? ≠ some path
  | _ => true

/-- What a step needs for the law to survive it. -/
def orderly (settled : List Str) (a : Act σ) : Bool :=
  mindful V s settled a && faithful V s settled a && apart s a

/-- The hash of every live settled file is in one of the maps. -/
def Tracked (x : Session σ × List Str) : Prop :=
  ∀ p, x.1.live V p = true → p ∈ x.2 → ∀ d, x.1.diskHash V p = some d →
    isSafeToOverwrite d (x.1.bound.materialized.lookup p) (x.1.bound.lastIngested.lookup p) = true

/-- The run of a session, with its settled paths. -/
abbrev step : Session σ × List Str → Act σ → Option (Session σ × List Str) :=
  Machine.traced (Session.step V) (note V)

/-! ### The invariant -/

/-- The content that a pass is to write has the hash that will stand for it. -/
def Sound (q : Pass) : Prop := ∀ c, q.content = some c → V.crates.sha.hash c.1 = c.2

structure Inv (settled : List Str) : Prop where
  safe : ∀ p ∈ settled, ∀ d, s.diskHash V p = some d →
    isSafeToOverwrite d (s.bound.materialized.lookup p) (s.bound.lastIngested.lookup p) = true
  sound : ∀ q ∈ s.passes, Sound V q

variable {V s} {s' : Session σ} {settled : List Str}

theorem isSafeToOverwrite_iff {d : Str} {m l : Option Str} :
    isSafeToOverwrite d m l = true ↔ m = some d ∨ l = some d := by
  simp [isSafeToOverwrite]

theorem mem_note {a : Act σ} {p : Str} (h : p ∈ note V s a s' settled) :
    p ∈ settled ∧ s'.disk V p = s.disk V p ∧ overwrites V s a ≠ some p ∨
      settles V s a = some p := by
  rcases List.mem_append.mp h with h | h
  · obtain ⟨hp, hkeep⟩ := List.mem_filter.mp h
    exact .inl ⟨hp, of_decide_eq_true hkeep⟩
  · exact .inr (Option.mem_toList.mp h)

/-- What a step that settles nothing leaves settled. -/
theorem mem_note_of_unsettled {a : Act σ} {p : Str} (hsettles : settles V s a = none)
    (hp : p ∈ note V s a s' settled) : p ∈ settled ∧ s'.disk V p = s.disk V p := by
  rcases mem_note hp with ⟨hp, hdisk, -⟩ | hp
  · exact ⟨hp, hdisk⟩
  · rw [hsettles] at hp
    cases hp

theorem diskHash_congr {p : Str} (h : s'.disk V p = s.disk V p) :
    s'.diskHash V p = s.diskHash V p := by
  rw [Session.diskHash, h, Session.diskHash]

/-- A step that settles nothing and leaves the maps. -/
theorem Inv.quiet (hinv : Inv V s settled) {a : Act σ} (hsettles : settles V s a = none)
    (hM : s'.bound.materialized = s.bound.materialized)
    (hL : s'.bound.lastIngested = s.bound.lastIngested)
    (hpasses : ∀ q ∈ s'.passes, Sound V q) : Inv V s' (note V s a s' settled) := by
  refine ⟨fun p hp => ?_, hpasses⟩
  obtain ⟨hp, hdisk⟩ := mem_note_of_unsettled hsettles hp
  rw [hM, hL, diskHash_congr hdisk]
  exact hinv.safe p hp

/-! ### Steps of a pass -/

section Pass

variable {b : Bound σ} {q q' : Pass} {snap : Snapshot} {todo : List Str} {path hash : Str}
  {bytes : Bytes} {i pick : Nat}

theorem createDir_maps : (Pass.createDir V b path).materialized = b.materialized ∧
    (Pass.createDir V b path).lastIngested = b.lastIngested := by
  unfold Pass.createDir
  split <;> exact ⟨rfl, rfl⟩

theorem removeDir_maps : (Pass.removeDir V b path).materialized = b.materialized ∧
    (Pass.removeDir V b path).lastIngested = b.lastIngested := by
  unfold Pass.removeDir
  split <;> exact ⟨rfl, rfl⟩

/-- A content that is to be written hashes to what will stand for it. -/
theorem target_hash {m : FileMeta} (hm : honest V b m = true)
    (h : Pass.target V b m = .ok (some (bytes, hash))) : V.crates.sha.hash bytes = hash := by
  unfold Pass.target at h
  split at h
  next =>
    obtain ⟨text, -, h⟩ := bind_eq_ok.mp h
    obtain ⟨rfl, rfl⟩ := Prod.mk.inj (Option.some.inj (Except.ok.inj h))
    rfl
  next =>
    split at h
    next => cases h
    next name hname =>
      split at h
      next blob hblob =>
        obtain ⟨rfl, rfl⟩ := Prod.mk.inj (Option.some.inj (Except.ok.inj h))
        simpa [honest, hname, hblob] using hm
      next => cases h

/-- What a step of a pass does to the maps: it leaves them, records, or prunes one. -/
theorem pass_maps {b' : Bound σ} (h : Pass.Moves V b pick q b' q') :
    q.records = none ∧ b'.materialized = b.materialized ∧ b'.lastIngested = b.lastIngested ∨
    (∃ path hash, q.records = some (path, hash) ∧ b'.fs = b.fs ∧
      b'.materialized = b.materialized.insert path hash ∧ b'.lastIngested = b.lastIngested) ∨
    ∃ snap, (q = .pruning snap ∨ q = .pruned snap) ∧ b'.fs = b.fs ∧ ∀ p ∈ snap.live,
      b'.materialized.lookup p = b.materialized.lookup p ∧
      b'.lastIngested.lookup p = b.lastIngested.lookup p := by
  cases h with
  | creating l path rest => exact .inl ⟨rfl, createDir_maps⟩
  | removed hpath hdeepest => exact .inl ⟨rfl, removeDir_maps⟩
  | recorded s todo path hash => exact .inr (.inl ⟨path, hash, rfl, rfl, rfl, rfl⟩)
  | rewritten s todo path bytes hash => exact .inr (.inl ⟨path, hash, rfl, rfl, rfl, rfl⟩)
  | pruned snap =>
    refine .inr (.inr ⟨snap, .inl rfl, rfl, fun p hp => ⟨?_, rfl⟩⟩)
    rw [Hashes.lookup_retain, if_pos (decide_eq_true hp)]
  | sweeping snap =>
    refine .inr (.inr ⟨snap, .inr rfl, rfl, fun p hp => ⟨rfl, ?_⟩⟩)
    rw [Hashes.lookup_retain, if_pos (decide_eq_true hp)]
  | _ => exact .inl ⟨rfl, rfl, rfl⟩

/-- A step of a pass has the content it had, or one that it has just got ready. -/
theorem sound_of_moves {b' : Bound σ} (hq : Sound V q)
    (hhonest : ∀ snap todo path m, q = .writes snap todo → snap.live.lookup path = some m →
      honest V b m = true)
    (h : Pass.Moves V b pick q b' q') : Sound V q' := by
  cases h with
  | reading hpath hm htarget hsame =>
    rintro c ⟨⟩
    exact target_hash (hhonest _ _ _ _ rfl hm) htarget
  | marking | writing | written =>
    rintro c ⟨⟩
    exact hq _ rfl
  | _ =>
    intro c hc
    cases hc

/-- What a pass has put in place is what it records. -/
theorem settles_pass (hq : s.passes[i]? = some q) {p : Str}
    (h : settles V s (.pass i pick) = some p) : ∃ snap todo bytes hash,
      q = .written snap todo p bytes hash ∧ s.disk V p = .ok bytes := by
  simp only [settles, hq] at h
  split at h
  next snap todo path bytes hash heq =>
    split at h
    next hdisk =>
      obtain rfl := Option.some.inj h
      exact ⟨snap, todo, bytes, hash, Option.some.inj heq, hdisk⟩
    next => cases h
  next => cases h

theorem sound_set (hinv : Inv V s settled) (hq' : Sound V q') :
    ∀ x ∈ s.passes.set i q', Sound V x := by
  intro x hx
  rcases List.mem_or_eq_of_mem_set hx with hx | rfl
  · exact hinv.sound x hx
  · exact hq'

theorem faithful_record (hq : s.passes[i]? = some q) (hrecords : q.records = some (path, hash))
    (h : faithful V s settled (.pass i pick) = true) (hpath : path ∈ settled) {d : Str}
    (hd : s.diskHash V path = some d) : d = hash ∨ s.bound.lastIngested.lookup path = some d := by
  simpa [faithful, hq, hrecords, hpath, hd] using h

/-- The pass records the content it is at. -/
theorem Inv.recorded (hinv : Inv V s settled) (hq : s.passes[i]? = some q)
    (hfaithful : faithful V s settled (.pass i pick) = true)
    (hrecords : q.records = some (path, hash)) (hfs : s'.bound.fs = s.bound.fs)
    (hM : s'.bound.materialized = s.bound.materialized.insert path hash)
    (hL : s'.bound.lastIngested = s.bound.lastIngested)
    (hpasses : ∀ q ∈ s'.passes, Sound V q) :
    Inv V s' (note V s (.pass i pick) s' settled) := by
  refine ⟨fun p hp d hd => ?_, hpasses⟩
  rw [diskHash_congr (s := s) (by rw [Session.disk, hfs, Session.disk])] at hd
  rw [isSafeToOverwrite_iff, hM, hL]
  rcases mem_note hp with ⟨hp, -⟩ | hp
  · by_cases hpath : p = path
    · subst hpath
      rw [AList.lookup_insert]
      exact (faithful_record hq hrecords hfaithful hp hd).imp (congrArg some ·.symm) id
    · rw [AList.lookup_insert_ne hpath]
      exact isSafeToOverwrite_iff.mp (hinv.safe p hp d hd)
  · obtain ⟨snap, todo, bytes, hash', rfl, hdisk⟩ := settles_pass hq hp
    obtain ⟨rfl, rfl⟩ := Prod.mk.inj (Option.some.inj hrecords)
    have hhash : V.crates.sha.hash bytes = hash' :=
      hinv.sound _ (List.mem_of_getElem? hq) _ rfl
    rw [Session.diskHash, hdisk] at hd
    exact .inl (by rw [AList.lookup_insert, ← hhash, ← hd])

/-- The pass prunes a map, and every settled file is in its listing. -/
theorem Inv.pruned (hinv : Inv V s settled) {a : Act σ} (hsettles : settles V s a = none)
    (hlisted : ∀ p ∈ settled, s.diskHash V p = none ∨ p ∈ snap.live)
    (hmaps : ∀ p ∈ snap.live, s'.bound.materialized.lookup p = s.bound.materialized.lookup p ∧
      s'.bound.lastIngested.lookup p = s.bound.lastIngested.lookup p)
    (hpasses : ∀ q ∈ s'.passes, Sound V q) : Inv V s' (note V s a s' settled) := by
  refine ⟨fun p hp d hd => ?_, hpasses⟩
  obtain ⟨hp, hdisk⟩ := mem_note_of_unsettled hsettles hp
  rw [diskHash_congr hdisk] at hd
  rcases hlisted p hp with hnone | hlive
  · rw [hnone] at hd
    cases hd
  · rw [(hmaps p hlive).1, (hmaps p hlive).2]
    exact hinv.safe p hp d hd

theorem mindful_pruning
    (hq : s.passes[i]? = some (.pruning snap) ∨ s.passes[i]? = some (.pruned snap))
    (h : mindful V s settled (.pass i pick) = true) :
    ∀ p ∈ settled, s.diskHash V p = none ∨ p ∈ snap.live := by
  intro p hp
  rcases hq with hq | hq <;>
  · simp only [mindful, hq, List.all_eq_true] at h
    simpa using h p hp

theorem mindful_writes {m : FileMeta} (hq : s.passes[i]? = some (.writes snap todo))
    (h : mindful V s settled (.pass i pick) = true) (hm : snap.live.lookup path = some m) :
    honest V s.bound m = true := by
  simp only [mindful, hq, List.all_eq_true] at h
  exact h ⟨path, m⟩ (AList.mem_lookup_iff.mp hm)

theorem inv_pass (hinv : Inv V s settled) (hq : s.passes[i]? = some q)
    (hmindful : mindful V s settled (.pass i pick) = true)
    (hfaithful : faithful V s settled (.pass i pick) = true)
    (h : Pass.Moves V s.bound pick q b q') :
    Inv V {s with bound := b, passes := s.passes.set i q'}
      (note V s (.pass i pick) {s with bound := b, passes := s.passes.set i q'} settled) := by
  have hpasses := sound_set hinv (i := i) (sound_of_moves
    (hinv.sound q (List.mem_of_getElem? hq))
    (fun snap todo path m hwrites hm => mindful_writes (hwrites ▸ hq) hmindful hm) h)
  rcases pass_maps h with ⟨hnone, hM, hL⟩ | ⟨path, hash, hrecords, hfs, hM, hL⟩ |
    ⟨snap, hsnap, hfs, hmaps⟩
  · refine hinv.quiet ?_ hM hL hpasses
    by_contra hne
    obtain ⟨p, hp⟩ := Option.ne_none_iff_exists'.mp hne
    obtain ⟨_, _, _, _, rfl, -⟩ := settles_pass hq hp
    cases hnone
  · exact hinv.recorded hq hfaithful hrecords hfs hM hL hpasses
  · rcases hsnap with rfl | rfl
    · exact hinv.pruned (by rw [settles, hq]) (mindful_pruning (.inl hq) hmindful) hmaps hpasses
    · exact hinv.pruned (by rw [settles, hq]) (mindful_pruning (.inr hq) hmindful) hmaps hpasses

end Pass

/-! ### Steps of the call -/

section Ingest

variable {b b' : Bound σ} {i i' : Ingest} {path hash : Str}

/-- What a step of a call does to the maps. -/
theorem ingest_maps (h : Ingest.step V path b i = some (b', i')) :
    i.records V path b = none ∧ b'.materialized = b.materialized ∧
        b'.lastIngested = b.lastIngested ∨
      ∃ hash, i.records V path b = some hash ∧
        (i = .recording hash ∧ b'.materialized = b.materialized.insert path hash ∧
            b'.lastIngested = b.lastIngested ∨
          b'.lastIngested = b.lastIngested.insert path hash ∧
            (b'.materialized = b.materialized ∨
              b'.materialized = b.materialized.insert path hash)) := by
  cases i with
  | loaded bytes =>
    obtain ⟨dirty, i'', hcheck, -⟩ := Ingest.check_eq (V := V) (b := b) bytes
    rw [Ingest.step, hcheck] at h
    obtain ⟨rfl, -⟩ := Prod.mk.inj (Option.some.inj h)
    exact .inl ⟨rfl, rfl, rfl⟩
  | comparing text hash =>
    simp only [Ingest.step] at h
    split at h
    next hread =>
      obtain ⟨rfl, -⟩ := Prod.mk.inj (Option.some.inj h)
      exact .inr ⟨hash, if_pos hread, .inr ⟨rfl, .inr rfl⟩⟩
    next hread =>
      obtain ⟨rfl, -⟩ := Prod.mk.inj (Option.some.inj h)
      exact .inl ⟨if_neg hread, rfl, rfl⟩
  | recording hash =>
    obtain ⟨rfl, -⟩ := Prod.mk.inj (Option.some.inj h)
    exact .inr ⟨hash, rfl, .inl ⟨rfl, rfl, rfl⟩⟩
  | recorded hash =>
    obtain ⟨rfl, -⟩ := Prod.mk.inj (Option.some.inj h)
    exact .inr ⟨hash, rfl, .inr ⟨rfl, .inl rfl⟩⟩
  | done r => cases h
  | _ =>
    simp only [Ingest.step] at h
    split at h <;> obtain ⟨rfl, -⟩ := Prod.mk.inj (Option.some.inj h) <;> exact .inl ⟨rfl, rfl, rfl⟩

/-- What a call takes in for good is what it records. -/
theorem settles_ingest (hi : s.call = some (path, i)) {p : Str}
    (h : settles V s .ingest = some p) : p = path ∧ ∃ hash, i.records V path s.bound = some hash ∧
      s.diskHash V path = some hash ∧ i ≠ .recording hash := by
  simp only [settles, hi] at h
  split at h
  next hash heq =>
    obtain ⟨rfl, rfl⟩ := Prod.mk.inj (Option.some.inj heq)
    split at h
    next hdisk =>
      exact ⟨(Option.some.inj h).symm, hash, rfl, hdisk, fun hc => by cases hc⟩
    next => cases h
  next text hash heq =>
    obtain ⟨rfl, rfl⟩ := Prod.mk.inj (Option.some.inj heq)
    split at h
    next hdisk =>
      exact ⟨(Option.some.inj h).symm, hash, if_pos hdisk.1, hdisk.2, fun hc => by cases hc⟩
    next => cases h
  next => cases h

/-- A call leaves what has been taken in elsewhere. -/
theorem lastIngested_of_maps {p : Str}
    (hmaps : i = .recording hash ∧ b'.materialized = b.materialized.insert path hash ∧
        b'.lastIngested = b.lastIngested ∨
      b'.lastIngested = b.lastIngested.insert path hash ∧
        (b'.materialized = b.materialized ∨
          b'.materialized = b.materialized.insert path hash)) (hne : p ≠ path) :
    b'.lastIngested.lookup p = b.lastIngested.lookup p := by
  rcases hmaps with ⟨-, -, hL⟩ | ⟨hL, -⟩ <;> rw [hL]
  exact AList.lookup_insert_ne hne

theorem inv_ingest (hinv : Inv V s settled) (hi : s.call = some (path, i))
    (hmindful : mindful V s settled .ingest = true)
    (h : Ingest.step V path s.bound i = some (b', i')) :
    Inv V {s with bound := b', call := some (path, i')}
      (note V s .ingest {s with bound := b', call := some (path, i')} settled) := by
  rcases ingest_maps h with ⟨hnone, hM, hL⟩ | ⟨hash, hrec, hmaps⟩
  · refine hinv.quiet ?_ hM hL hinv.sound
    by_contra hne
    obtain ⟨p, hp⟩ := Option.ne_none_iff_exists'.mp hne
    obtain ⟨-, hash, hrec, -⟩ := settles_ingest hi hp
    rw [hnone] at hrec
    cases hrec
  · refine ⟨fun p hp d hd => ?_, hinv.sound⟩
    rw [diskHash_congr (s := s) (by rw [Session.disk, (Ingest.step_frame h).1, Session.disk])] at hd
    rw [isSafeToOverwrite_iff]
    by_cases hne : p = path
    · subst hne
      -- A settled file that is recorded has what is recorded.
      have hsame : d = hash := by
        rcases mem_note hp with ⟨hp, -⟩ | hp
        · simpa [mindful, hi, hrec, hp, hd] using hmindful
        · obtain ⟨-, hash', hrec', hdisk', -⟩ := settles_ingest hi hp
          obtain rfl := Option.some.inj (hrec.symm.trans hrec')
          exact Option.some.inj (hd.symm.trans hdisk')
      subst hsame
      rcases hmaps with ⟨-, hM, -⟩ | ⟨hL, -⟩
      · exact .inl (by rw [hM, AList.lookup_insert])
      · exact .inr (by rw [hL, AList.lookup_insert])
    · have hp : p ∈ settled := by
        rcases mem_note hp with ⟨hp, -⟩ | hp
        · exact hp
        · exact absurd (settles_ingest hi hp).1 hne
      have hM : b'.materialized.lookup p = s.bound.materialized.lookup p := by
        rcases hmaps with ⟨-, hM, -⟩ | ⟨-, hM | hM⟩ <;> rw [hM]
        · exact AList.lookup_insert_ne hne
        · exact AList.lookup_insert_ne hne
      rw [hM, lastIngested_of_maps hmaps hne]
      exact isSafeToOverwrite_iff.mp (hinv.safe p hp d hd)

end Ingest

/-! ### The law -/

theorem inv_step {a : Act σ} (hinv : Inv V s settled) (hmindful : mindful V s settled a = true)
    (hfaithful : faithful V s settled a = true) (h : s.step V a = some s') :
    Inv V s' (note V s a s' settled) := by
  cases a with
  | begin =>
    obtain rfl := Option.some.inj h
    refine hinv.quiet rfl rfl rfl fun q hq => ?_
    rcases List.mem_append.mp hq with hq | hq
    · exact hinv.sound q hq
    · obtain rfl := List.mem_singleton.mp hq
      intro c hc
      cases hc
  | pass i pick =>
    obtain ⟨q, b, q', hq, hstep, rfl⟩ := Session.step_pass h
    exact inv_pass hinv hq hmindful hfaithful (Pass.moves_of_step hstep)
  | touched path =>
    simp only [Session.step] at h
    split at h
    next =>
      obtain rfl := Option.some.inj h
      exact hinv.quiet rfl rfl rfl hinv.sound
    next => cases h
  | ingest =>
    obtain ⟨path, i, b, i', hi, hstep, rfl⟩ := Session.step_ingest h
    exact inv_ingest hinv hi hmindful hstep
  | _ =>
    obtain rfl := Option.some.inj h
    exact hinv.quiet rfl rfl rfl hinv.sound

theorem inv_start (b : Bound σ) : Inv V (.start b) [] :=
  ⟨fun _ hp => absurd hp List.not_mem_nil, fun _ hq => absurd hq List.not_mem_nil⟩

/-- **In every run whose steps are orderly, the hash of every live file that a pass has put in
place or a call has taken in, and that nobody has changed since, is in one of the maps.** -/
theorem tracked {b : Bound σ} {x : Session σ × List Str}
    (hrun : Machine.Reach (step V) (fun x a => orderly V x.1 x.2 a = true) (.start b, []) x) :
    Tracked V x := by
  have hinv : Inv V x.1 x.2 := by
    refine hrun.invariant (I := fun x => Inv V x.1 x.2) (inv_start b) fun x a y hx hg hstep => ?_
    obtain ⟨hs, hnote⟩ := Machine.traced_eq_some.mp hstep
    simp only [orderly, Bool.and_eq_true] at hg
    rw [hnote]
    exact inv_step hx hg.1.1 hg.1.2 hs
  intro p _ hp d hd
  exact hinv.safe p hp d hd

/-! ### Passes one after the other -/

/-- A pass begins when those before it have returned. -/
def alone (s : Session σ) : Act σ → Bool
  | .begin => s.passes.all Pass.isDone
  | _ => true

/-- What a pass is about to record does not hide what is known. -/
def Recording (V : Setting σ) (s : Session σ) (settled : List Str) (q : Pass) : Prop :=
  ∀ p hash, q.records = some (p, hash) → p ∈ settled → ∀ d, s.diskHash V p = some d →
    d = hash ∨ s.bound.lastIngested.lookup p = some d

structure Alone (V : Setting σ) (s : Session σ) (settled : List Str) : Prop where
  inv : Inv V s settled
  returned : ∀ (i : Nat) (q : Pass), s.passes[i]? = some q → i + 1 < s.passes.length → q.isDone = true
  recording : ∀ (i : Nat) (q : Pass), s.passes[i]? = some q → Recording V s settled q

section Alone

variable {b b' : Bound σ} {q q' : Pass} {i pick : Nat} {path hash : Str}

theorem recording_of_none (h : q.records = none) : Recording V s settled q := by
  intro p hash hrec
  rw [h] at hrec
  cases hrec

theorem recording_of_isDone (h : q.isDone = true) : Recording V s settled q := by
  cases q with
  | done r => exact recording_of_none rfl
  | _ => cases h

theorem Recording.quiet (h : Recording V s settled q) {a : Act σ}
    (hsettles : settles V s a = none) (hL : s'.bound.lastIngested = s.bound.lastIngested) :
    Recording V s' (note V s a s' settled) q := by
  intro p hash hrec hp d hd
  obtain ⟨hp, hdisk⟩ := mem_note_of_unsettled hsettles hp
  rw [diskHash_congr hdisk] at hd
  rw [hL]
  exact h p hash hrec hp d hd

theorem faithful_of_recording
    (h : ∀ (i : Nat) (q : Pass), s.passes[i]? = some q → Recording V s settled q) (a : Act σ) :
    faithful V s settled a = true := by
  cases a with
  | pass i pick =>
    simp only [faithful, Option.all_eq_true, Option.bind_eq_some_iff]
    rintro ⟨p, hash⟩ ⟨q, hq, hrec⟩
    by_cases hp : p ∈ settled
    · simpa [hp, Option.all_eq_true] using h i q hq p hash hrec hp
    · simp [hp]
  | _ => rfl

/-- A step of a pass that is still at work is one of the last pass. -/
theorem Alone.last (halone : Alone V s settled) (hq : s.passes[i]? = some q)
    (h : Pass.Moves V s.bound pick q b q') : s.passes.length ≤ i + 1 := by
  by_contra hlt
  have hdone := halone.returned i q hq (Nat.lt_of_not_le hlt)
  cases q with
  | done r => cases h
  | _ => cases hdone

/-- A pass that is now about to record has found the content, or has just written it. -/
theorem recording_of_moves (hq : s.passes[i]? = some q) (h : Pass.Moves V s.bound pick q b q') :
    Recording V {s with bound := b, passes := s.passes.set i q'}
      (note V s (.pass i pick) {s with bound := b, passes := s.passes.set i q'} settled) q' := by
  cases h with
  | @matched snap todo path hash bytes hdisk =>
    rintro p hash ⟨⟩ hp d hd
    refine .inl (Option.some.inj ?_)
    rw [← hd, Session.diskHash, Session.disk]
    unfold Pass.onDisk at hdisk
    split at hdisk
    next disk hread => rw [hread, ← of_decide_eq_true hdisk]
    next => cases hdisk
  | written hwrites =>
    rintro p hash ⟨⟩ hp d hd
    rcases mem_note hp with ⟨-, -, hover⟩ | hp
    · simp only [overwrites, hq] at hover
      rw [Pass.write_of_canWrite hwrites] at hover
      exact absurd rfl hover
    · obtain ⟨_, _, _, _, hwritten, -⟩ := settles_pass hq hp
      cases hwritten
  | _ => exact recording_of_none rfl

theorem recording_ingest {c c' : Ingest} (hq : Recording V s settled q)
    (hi : s.call = some (path, c)) (hmindful : mindful V s settled .ingest = true)
    (h : Ingest.step V path s.bound c = some (b', c')) :
    Recording V {s with bound := b', call := some (path, c')}
      (note V s .ingest {s with bound := b', call := some (path, c')} settled) q := by
  intro p hash' hrec' hp d hd
  rw [diskHash_congr (s := s) (by rw [Session.disk, (Ingest.step_frame h).1, Session.disk])] at hd
  rcases ingest_maps h with ⟨hnone, -, hL⟩ | ⟨hash, hrec, hmaps⟩
  · rcases mem_note hp with ⟨hp, -⟩ | hp
    · rw [hL]
      exact hq p hash' hrec' hp d hd
    · obtain ⟨-, hash, hrec, -⟩ := settles_ingest hi hp
      rw [hnone] at hrec
      cases hrec
  · by_cases hne : p = path
    · subst hne
      rcases mem_note hp with ⟨hp, -⟩ | hp
      · rcases hmaps with ⟨-, -, hL⟩ | ⟨hL, -⟩
        · rw [hL]
          exact hq p hash' hrec' hp d hd
        · obtain rfl : d = hash := by simpa [mindful, hi, hrec, hp, hd] using hmindful
          exact .inr (by rw [hL, AList.lookup_insert])
      · obtain ⟨-, hash'', hrec'', hdisk, hwhole⟩ := settles_ingest hi hp
        obtain rfl := Option.some.inj (hrec.symm.trans hrec'')
        obtain rfl := Option.some.inj (hd.symm.trans hdisk)
        rcases hmaps with ⟨hc, -⟩ | ⟨hL, -⟩
        · exact absurd hc hwhole
        · exact .inr (by rw [hL, AList.lookup_insert])
    · rw [lastIngested_of_maps hmaps hne]
      rcases mem_note hp with ⟨hp, -⟩ | hp
      · exact hq p hash' hrec' hp d hd
      · exact absurd (settles_ingest hi hp).1 hne

theorem alone_step {a : Act σ} (halone : Alone V s settled)
    (hmindful : mindful V s settled a = true) (ha : alone s a = true)
    (h : s.step V a = some s') : Alone V s' (note V s a s' settled) := by
  have hinv := inv_step halone.inv hmindful (faithful_of_recording halone.recording a) h
  cases a with
  | begin =>
    obtain rfl := Option.some.inj h
    refine ⟨hinv, fun i q hq hlt => ?_, fun i q hq => ?_⟩
    · rw [List.length_append, List.length_singleton, Nat.add_lt_add_iff_right] at hlt
      rw [List.getElem?_append_left hlt] at hq
      exact List.all_eq_true.mp ha q (List.mem_of_getElem? hq)
    · rcases List.mem_append.mp (List.mem_of_getElem? hq) with hmem | hmem
      · exact recording_of_isDone (List.all_eq_true.mp ha q hmem)
      · obtain rfl := List.mem_singleton.mp hmem
        exact recording_of_none rfl
  | pass i pick =>
    obtain ⟨q, b, q', hq, hstep, rfl⟩ := Session.step_pass h
    have hmoves := Pass.moves_of_step hstep
    have hlast := halone.last hq hmoves
    have hothers : ∀ j x, j ≠ i → s.passes[j]? = some x → x.isDone = true := by
      intro j x hne hx
      have hj : j < s.passes.length := (List.getElem?_eq_some_iff.mp hx).1
      have hi : i < s.passes.length := (List.getElem?_eq_some_iff.mp hq).1
      exact halone.returned j x hx (by omega)
    have hget {j : Nat} {x : Pass} (hx : (s.passes.set i q')[j]? = some x) :
        x = q' ∨ x.isDone = true := by
      by_cases hne : i = j
      · subst hne
        rw [List.getElem?_set_self (List.getElem?_eq_some_iff.mp hq).1] at hx
        exact .inl (Option.some.inj hx).symm
      · rw [List.getElem?_set_ne hne] at hx
        exact .inr (hothers j x (Ne.symm hne) hx)
    refine ⟨hinv, fun j x hx hlt => ?_, fun j x hx => ?_⟩
    · have hne : i ≠ j := by
        have hlt : j + 1 < s.passes.length := by simpa using hlt
        omega
      rw [List.getElem?_set_ne hne] at hx
      exact hothers j x (Ne.symm hne) hx
    · rcases hget hx with rfl | hdone
      · exact recording_of_moves hq hmoves
      · exact recording_of_isDone hdone
  | touched path =>
    simp only [Session.step] at h
    split at h
    next =>
      obtain rfl := Option.some.inj h
      exact ⟨hinv, halone.returned, fun i q hq => (halone.recording i q hq).quiet rfl rfl⟩
    next => cases h
  | ingest =>
    obtain ⟨path, i, b, i', hi, hstep, rfl⟩ := Session.step_ingest h
    exact ⟨hinv, halone.returned, fun j q hq =>
      recording_ingest (halone.recording j q hq) hi hmindful hstep⟩
  | _ =>
    obtain rfl := Option.some.inj h
    exact ⟨hinv, halone.returned, fun i q hq => (halone.recording i q hq).quiet rfl rfl⟩

/-- **While passes come one after the other, what they record is faithful by itself.** -/
theorem faithful_of_alone {b : Bound σ} {x : Session σ × List Str}
    (hrun : Machine.Reach (step V) (fun x a => mindful V x.1 x.2 a = true ∧ alone x.1 a = true)
      (.start b, []) x) (a : Act σ) : faithful V x.1 x.2 a = true := by
  have halone : Alone V x.1 x.2 := by
    refine hrun.invariant (I := fun x => Alone V x.1 x.2) ?_ fun x a y hx hg hstep => ?_
    · exact ⟨inv_start b, fun _ _ hq => (by cases hq), fun _ _ hq => (by cases hq)⟩
    · obtain ⟨hs, hnote⟩ := Machine.traced_eq_some.mp hstep
      rw [hnote]
      exact alone_step hx hg.1 hg.2 hs
  exact faithful_of_recording halone.recording a

end Alone

/-- A directory with one file in it. -/
private def saving (text : Str) : Disk :=
  ⟨((∅ : AList fun _ : Location => Node).insert [txt "vault"] .dir).insert
    [txt "vault", txt "n.md"] (.file (utf8 text))⟩

private def empty : Bound Disk := .fresh (.replica (.numbered '1' 16) []) .vaultDir

/-- The user saves a file, and it is taken in. -/
private def takenIn : List (Act Disk) :=
  .user (saving (txt "a")) [txt "n.md"] :: .touched (txt "n.md") :: List.replicate 6 .ingest

/-- A peer changes the file, and a pass goes over the directory. -/
private def brought (i steps : Nat) : List (Act Disk) :=
  .remote (.replica (.numbered '1' 16)
    [.writeTextFile (txt "n.md") (txt "a"), .writeTextFile (txt "n.md") (txt "b")]) ::
      .begin :: List.replicate steps (.pass i 0)

/-- Two passes have both looked at the file, and write it one after the other. -/
private def broughtTwice : List (Act Disk) :=
  takenIn ++ brought 0 9 ++ .begin :: List.replicate 9 (.pass 1 0) ++
    List.replicate 8 (.pass 0 0) ++ List.replicate 8 (.pass 1 0)

theorem tracked_brought : ∃ x : Session Disk × List Str,
    x.1.diskHash .localDisk (txt "n.md") = some (letterDigest.hash (utf8 (txt "b"))) ∧
      txt "n.md" ∈ x.2 ∧ x.1.passes.all Pass.isDone = true ∧ Tracked .localDisk x := by
  have hrun : ((Machine.run (step .localDisk) (.start empty, []) broughtTwice).any
      fun x => x.1.diskHash .localDisk (txt "n.md") = some (letterDigest.hash (utf8 (txt "b"))) ∧
        txt "n.md" ∈ x.2 ∧ x.1.passes.all Pass.isDone = true) = true := by
    decide +kernel
  obtain ⟨x, hx, hend⟩ := (Option.any_eq_true _ _).mp hrun
  have hguard : Machine.allowed (step .localDisk) (fun x a => orderly .localDisk x.1 x.2 a)
      (.start empty, []) broughtTwice = true := by
    decide +kernel
  have hreach := Machine.Reach.of_run (Machine.Guarded.of_allowed (fun _ _ h => h) hguard) hx
  obtain ⟨hdisk, hsettled, hdone⟩ := of_decide_eq_true hend
  exact ⟨x, hdisk, hsettled, hdone, tracked hreach⟩

/-- A pass is about to write, and lets a new file be taken in first. -/
private def overrun : List (Act Disk) := .begin :: List.replicate 6 (.pass 0 0) ++ takenIn ++
  List.replicate 3 (.pass 0 0)

/-- **A file is taken in while a pass is at work**: the pass forgets it, and when a peer then
changes it the next pass leaves the file on the disk as it was. -/
theorem tracked_interrupted : ∃ x y : Session Disk × List Str,
    Machine.Reach (step .localDisk) (fun _ _ => True) (.start empty, []) x ∧
      ¬ Tracked .localDisk x ∧
      Machine.Reach (step .localDisk) (fun _ _ => True) x y ∧
      y.1.bound.doc.root.readFile .letters (txt "n.md") = .ok (txt "b") ∧
      y.1.disk .localDisk (txt "n.md") = .ok (utf8 (txt "a")) ∧
      y.1.passes.all Pass.isDone = true := by
  have hx : ((Machine.run (step .localDisk) (.start empty, []) overrun).any fun x =>
      x.1.live .localDisk (txt "n.md") && decide (txt "n.md" ∈ x.2) &&
        decide (x.1.diskHash .localDisk (txt "n.md") = some (letterDigest.hash (utf8 (txt "a")))) &&
        !isSafeToOverwrite (letterDigest.hash (utf8 (txt "a")))
          (x.1.bound.materialized.lookup (txt "n.md"))
          (x.1.bound.lastIngested.lookup (txt "n.md"))) = true := by
    decide +kernel
  have hy : ((Machine.run (step .localDisk) (.start empty, [])
      (overrun ++ (List.replicate 2 (.pass 0 0) ++ brought 1 13))).any fun y =>
        decide (y.1.bound.doc.root.readFile .letters (txt "n.md") = .ok (txt "b")) &&
          decide (y.1.disk .localDisk (txt "n.md") = .ok (utf8 (txt "a"))) &&
          y.1.passes.all Pass.isDone) = true := by
    decide +kernel
  have htrue {z : Session Disk × List Str} (as : List (Act Disk)) :
      Machine.Guarded (step .localDisk) (fun _ _ => True) z as :=
    .of_forall (fun _ _ => trivial) as
  obtain ⟨x, hrun, hlaw⟩ := (Option.any_eq_true _ _).mp hx
  obtain ⟨y, hrun', hy⟩ := (Option.any_eq_true _ _).mp hy
  rw [Machine.run_append, hrun, Option.bind_some] at hrun'
  simp only [Bool.and_eq_true, decide_eq_true_eq, Bool.not_eq_true'] at hlaw hy
  obtain ⟨⟨⟨hlive, hsettled⟩, hdisk⟩, hrisky⟩ := hlaw
  refine ⟨x, y, .of_run (htrue _) hrun, fun htracked => ?_, .of_run (htrue _) hrun', hy.1.1, hy.1.2,
    hy.2⟩
  have hsafe := htracked _ hlive hsettled _ hdisk
  rw [hrisky] at hsafe
  cases hsafe

end Tracking

end AgentSync
