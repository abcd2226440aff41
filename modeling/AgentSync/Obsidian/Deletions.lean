import AgentSync.Machine
import AgentSync.Obsidian.Reconcile

/-! Remote deletions on their way to Obsidian.

A pass deletes what the last finished pass listed and the document lists no longer. A new bridge
has listed nothing: the reconcile of a session start brings the two sides together without it,
and what is deleted before the first pass has finished is never seen to go. From then on every
deletion arrives (`deletions_arrive`). -/
namespace AgentSync.Obsidian

open Js Program

/-! ### One pass -/

variable {host : Host} {path : Str}

theorem delete_eq_ok {v v' : VaultState} (h : v.delete path = .ok v') :
    v'.files.keys ⊆ v.files.keys ∧ path ∉ v'.files.keys ∧ v'.cold = v.cold := by
  unfold VaultState.delete at h
  split at h
  · cases h
    refine ⟨fun p hp => (JsMap.mem_keys_restrict.mp hp).1, fun hp => ?_, rfl⟩
    simpa using (JsMap.mem_keys_restrict.mp hp).2
  · split at h
    · cases h
      refine ⟨fun p hp => (JsMap.mem_keys_restrict.mp hp).1, fun hp => ?_, rfl⟩
      simpa [Path.under] using (JsMap.mem_keys_restrict.mp hp).2
    · cases h

/-- The document, the snapshot and the cache are as they were. -/
structure Framed (a₀ a : App) : Prop where
  doc : a.doc = a₀.doc
  known : a.knownSdkPaths = a₀.knownSdkPaths
  cold : a.vault.cold = a₀.vault.cold

theorem steady_framed (a₀ : App) : Steady (Framed a₀) where
  counts := fun _ _ _ h => ⟨h.doc, h.known, h.cold⟩
  extends_ := fun _ _ hv h => ⟨h.doc, h.known, hv.cold.trans h.cold⟩

theorem deleteLocal_leads {a₀ a : App} (ha : Framed a₀ a) :
    Leads (deleteLocal host path) a (fun _ a' => Framed a₀ a' ∧
      a'.vault.files.keys ⊆ a.vault.files.keys ∧ ¬ Present path a') (Framed a₀) := by
  have hsuppress : Framed a₀ {a with suppressed := path :: a.suppressed} :=
    ⟨ha.doc, ha.known, ha.cold⟩
  show Leads (vaultWrite host (VaultState.delete · path))
    {a with suppressed := path :: a.suppressed} _ _
  simp only [Leads, vaultWrite, awaitVault]
  cases hrejects : host.rejects a.awaits with
  | some e => exact ⟨ha.doc, ha.known, ha.cold⟩
  | none =>
    cases hdelete : a.vault.delete path with
    | error e =>
      simp only [Except.map]
      exact ⟨ha.doc, ha.known, ha.cold⟩
    | ok v =>
      obtain ⟨hsub, hgone, hcold⟩ := delete_eq_ok hdelete
      simp only [Except.map]
      exact ⟨⟨ha.doc, ha.known, hcold.trans ha.cold⟩, hsub, hgone⟩

theorem getAbstractFileByPath_eq_none {v : VaultState} (hwarm : path ∉ v.cold)
    (h : v.getAbstractFileByPath path = none) : path ∉ v.files.keys := by
  unfold VaultState.getAbstractFileByPath at h
  rw [if_neg (by simpa using hwarm)] at h
  split at h
  · cases h
  next hno => exact fun hin => hno (JsMap.has_iff.mpr hin)

/-- The turn of a path in the second loop: it is gone unless it is listed, not synced or not in
the cache, and no other path comes back. -/
theorem applyTombstone_leads {current : List Str} {a₀ a : App} (ha : Framed a₀ a) :
    Leads (applyTombstone host current path) a (fun _ a' => Framed a₀ a' ∧
      a'.vault.files.keys ⊆ a.vault.files.keys ∧
      (path ∉ current → host.filter path = true → path ∉ a₀.vault.cold → ¬ Present path a'))
      (Framed a₀) := by
  unfold applyTombstone
  by_cases hlisted : current.contains path = true
  · rw [if_pos hlisted]
    exact ⟨ha, fun _ h => h, fun hnot => absurd (by simpa using hlisted) hnot⟩
  · rw [if_neg hlisted]
    cases hfilter : host.filter path with
    | false => exact ⟨ha, fun _ h => h, fun _ h => by cases h⟩
    | true =>
      have hfind : getAbstractFileByPath path a =
          .ok (a.vault.getAbstractFileByPath path) a := rfl
      rw [Leads, if_neg (by simp), bind_ok hfind, ← Leads]
      cases hfound : a.vault.getAbstractFileByPath path with
      | none =>
        refine ⟨ha, fun _ h => h, fun _ _ hwarm => ?_⟩
        exact getAbstractFileByPath_eq_none (ha.cold ▸ hwarm) hfound
      | some f =>
        exact (deleteLocal_leads ha).weaken (fun _ a' h => ⟨h.1, h.2.1, fun _ _ _ => h.2.2⟩)
          fun _ h => h

/-- **A pass that finishes has deleted every path of the snapshot that is no longer listed, and
its own listing is the next snapshot; a pass that throws leaves the snapshot.** -/
theorem applyRemoteState_leads (a : App) :
    Leads (applyRemoteState host) a (fun _ a' => a'.doc = a.doc ∧
      ∃ files, a.doc.root.listFiles host.crates = .ok files ∧
        a'.knownSdkPaths = textPaths host files ∧
        ∀ path ∈ a.knownSdkPaths, path ∉ textPaths host files → host.filter path = true →
          path ∉ a.vault.cold → ¬ Present path a') (Framed a) := by
  have hstart : Framed a a := ⟨rfl, rfl, rfl⟩
  unfold applyRemoteState
  cases hlist : a.doc.root.listFiles host.crates with
  | error e =>
    have hread : sdkRead (Root.listFiles host.crates) a = .error e.text a := by
      simp only [sdkRead, hlist]
    rw [Leads, bind_error hread]
    exact hstart
  | ok files =>
    have hread : sdkRead (Root.listFiles host.crates) a = .ok files a := by
      simp only [sdkRead, hlist]
    rw [Leads, bind_ok hread]
    have hlive : ∀ m ∈ files, m.deletedAt = none := fun m hm =>
      ((Root.mem_listFiles hlist).mp hm).2
    have hfirst := Leads.forM (t := applyOneRemoteFile host)
      (I := fun ys a' => Framed a a' ∧ ∀ m ∈ ys, m.deletedAt = none) (E := Framed a)
      (fun m ms a' h => ?_) ⟨hstart, hlive⟩
    · refine Leads.bind (hfirst.weaken (fun _ a₁ h₁ => ?_) fun _ h => h)
      have hframed := h₁.1
      refine .bind (.get (.bind ?_))
      rw [hframed.known]
      have hsecond := Leads.forM (t := applyTombstone host (textPaths host files))
        (I := fun ys a' => Framed a a' ∧ ∀ path ∈ a.knownSdkPaths, path ∉ textPaths host files →
          host.filter path = true → path ∉ a.vault.cold → path ∈ ys ∨ ¬ Present path a')
        (E := Framed a) (fun q qs a' h => ?_) ⟨hframed, fun path hin _ _ _ => .inl hin⟩
      · refine hsecond.weaken (fun _ a₂ h₂ => ?_) fun _ h => h
        refine ⟨h₂.1.doc, files, rfl, rfl, fun path hin hout hfilter hwarm => ?_⟩
        exact (h₂.2 path hin hout hfilter hwarm).resolve_left List.not_mem_nil
      · refine (applyTombstone_leads h.1).weaken (fun _ a'' h' => ⟨h'.1, ?_⟩) fun _ h => h
        intro path hin hout hfilter hwarm
        rcases h.2 path hin hout hfilter hwarm with hmem | hgone
        · rcases List.mem_cons.mp hmem with rfl | hrest
          · exact .inr (h'.2.2 hout hfilter hwarm)
          · exact .inl hrest
        · exact .inr fun hback => hgone (h'.2.1 hback)
    · exact (keeps_applyOneRemoteFile (steady_framed a) (h.2 m List.mem_cons_self) a' h.1).weaken
        (fun _ a'' h' => ⟨h', fun m' hm' => h.2 m' (List.mem_cons_of_mem _ hm')⟩) fun _ h => h

/-! ### A session -/

/-- The document lists its files, and no text file that the bridge syncs at the path. -/
def gone (host : Host) (d : Doc) (path : Str) : Bool :=
  match d.root.listFiles host.crates with
  | .ok files => !(textPaths host files).contains path
  | .error _ => false

/-- The paths that the bridge syncs and both sides have. -/
def shared (host : Host) (a : App) : List Str :=
  match a.doc.root.listFiles host.crates with
  | .ok files => (textPaths host files).filter fun path => decide (Present path a)
  | .error _ => []

/-- A session between passes, with what its past asks of the next one. -/
structure Session where
  app : App
  /-- What both sides had when the reconcile or the last pass finished, less what the user has
  changed since. -/
  tracked : List Str
  /-- What a pass has finished without deleting, though the document had let go of it. -/
  left : List Str

inductive Event where
  | remote (doc : Doc)
  /-- The user writes or removes a file, and the handlers tell the document. -/
  | edit (path : Str) (text : Option Str) (doc : Doc)
  /-- The metadata cache changes. -/
  | cache (cold : List Str)
  | pass

/-- A new bridge and its reconcile, as `start` has them. -/
def beginSession (host : Host) (a : App) : Option Session :=
  match runReconcile host {a with suppressed := [], knownSdkPaths := []} with
  | .ok _ a => some ⟨a, shared host a, []⟩
  | .error _ _ => none

def writeLocal (v : VaultState) (path : Str) : Option Str → VaultState
  | some text => {v with files := v.files.set path text}
  | none => {v with files := v.files.restrict (· ≠ path)}

/-- A pass that throws has not finished: what it asks of the next one stays. -/
def step (host : Host) (s : Session) : Event → Option Session
  | .remote doc => some {s with app := {s.app with doc := doc}}
  | .edit path text doc => some {s with
      app := {s.app with vault := writeLocal s.app.vault path text, doc := doc}
      tracked := s.tracked.filter (· ≠ path)}
  | .cache cold => some {s with app := {s.app with vault := {s.app.vault with cold := cold}}}
  | .pass =>
    match applyRemoteState host s.app with
    | .error _ a => some {s with app := a}
    | .ok _ a => some ⟨a, shared host a, s.left ++
        s.tracked.filter fun path => gone host a.doc path && decide (Present path a)⟩

/-- The path that a change lets go of was in the snapshot, and the cache has it when the pass
comes. -/
def Timely (host : Host) (s : Session) : Event → Prop
  | .remote doc => ∀ path ∈ s.tracked, gone host doc path = true →
      s.app.knownSdkPaths.contains path = true
  | .edit edited _ doc => ∀ path ∈ s.tracked, path ≠ edited → gone host doc path = true →
      s.app.knownSdkPaths.contains path = true
  | .cache _ => True
  | .pass => ∀ path ∈ s.tracked, gone host s.app.doc path = true →
      s.app.vault.cold.contains path = false

instance (s : Session) (e : Event) : Decidable (Timely host s e) := by
  unfold Timely
  cases e <;> infer_instance

theorem gone_iff {d : Doc} {files : List FileMeta}
    (hfiles : d.root.listFiles host.crates = .ok files) :
    gone host d path = true ↔ path ∉ textPaths host files := by
  simp [gone, hfiles]

theorem mem_shared {a : App} {files : List FileMeta}
    (hfiles : a.doc.root.listFiles host.crates = .ok files) :
    path ∈ shared host a ↔ path ∈ textPaths host files ∧ Present path a := by
  simp [shared, hfiles]

theorem shared_eq_nil {a : App} {e : Error} (h : a.doc.root.listFiles host.crates = .error e) :
    shared host a = [] := by
  simp [shared, h]

/-- What both sides have is not gone, and is synced. -/
theorem not_gone_of_shared {a : App} (h : path ∈ shared host a) :
    gone host a.doc path = false ∧ host.filter path = true := by
  cases hlist : a.doc.root.listFiles host.crates with
  | error e =>
    rw [shared_eq_nil hlist] at h
    cases h
  | ok files =>
    obtain ⟨hin, -⟩ := (mem_shared hlist).mp h
    refine ⟨?_, ?_⟩
    · rw [← Bool.not_eq_true, gone_iff hlist]
      exact not_not.mpr hin
    · obtain ⟨m, hm, rfl⟩ := List.mem_map.mp hin
      simpa using (Bool.and_eq_true_iff.mp (List.mem_filter.mp hm).2).2

/-- Between passes nothing is left behind, and what is gone was in the snapshot. -/
structure Session.Inv (host : Host) (s : Session) : Prop where
  left : s.left = []
  filtered : ∀ path ∈ s.tracked, host.filter path = true
  known : ∀ path ∈ s.tracked, gone host s.app.doc path = true → path ∈ s.app.knownSdkPaths

/-- Where tracking starts over, nothing is gone. -/
theorem inv_shared (a : App) : Session.Inv host ⟨a, shared host a, []⟩ where
  left := rfl
  filtered := fun _ h => (not_gone_of_shared h).2
  known := fun path h hgone => by
    rw [(not_gone_of_shared h).1] at hgone
    cases hgone

theorem Session.Inv.step {s s' : Session} {e : Event} (hs : s.Inv host) (htimely : Timely host s e)
    (h : step host s e = some s') : s'.Inv host := by
  cases e with
  | remote doc =>
    cases h
    exact ⟨hs.left, hs.filtered, fun path hin hgone => by simpa using htimely path hin hgone⟩
  | edit edited text doc =>
    cases h
    refine ⟨hs.left, fun path hin => hs.filtered path (List.mem_filter.mp hin).1, ?_⟩
    intro path hin hgone
    obtain ⟨hmem, hne⟩ := List.mem_filter.mp hin
    simpa using htimely path hmem (by simpa using hne) hgone
  | cache cold =>
    cases h
    exact ⟨hs.left, hs.filtered, hs.known⟩
  | pass =>
    have hlead := @applyRemoteState_leads host s.app
    cases hrun : applyRemoteState host s.app with
    | error e a =>
      simp only [Obsidian.step, hrun, Option.some.injEq] at h
      subst h
      have hframed := hlead.error hrun
      refine ⟨hs.left, hs.filtered, fun path hin hgone => ?_⟩
      rw [hframed.doc] at hgone
      rw [hframed.known]
      exact hs.known path hin hgone
    | ok u a =>
      simp only [Obsidian.step, hrun, Option.some.injEq] at h
      subst h
      obtain ⟨hdoc, files, hfiles, -, hdeleted⟩ := hlead.ok hrun
      have hnone : (s.tracked.filter fun path => gone host a.doc path && decide (Present path a)) =
          [] := by
        rw [List.filter_eq_nil_iff]
        intro path hin hboth
        obtain ⟨hgone, hpresent⟩ := Bool.and_eq_true_iff.mp hboth
        rw [hdoc] at hgone
        exact hdeleted path (hs.known path hin hgone) ((gone_iff hfiles).mp hgone)
          (hs.filtered path hin) (by simpa using htimely path hin hgone) (of_decide_eq_true hpresent)
      rw [hs.left, hnone]
      exact inv_shared a

/-- **Whatever the document lets go of while it is in the snapshot and the cache has it is gone
from Obsidian when the next pass has finished, in every run of a session.** -/
theorem deletions_arrive {a : App} {s₀ s : Session} (hstart : beginSession host a = some s₀)
    (hrun : Machine.Reach (step host) (Timely host) s₀ s) : s.left = [] := by
  have h₀ : s₀.Inv host := by
    unfold beginSession at hstart
    split at hstart
    · cases hstart
      exact inv_shared _
    · cases hstart
  exact (hrun.invariant h₀ fun _ _ _ hs htimely h => hs.step htimely h).left

private abbrev always : Host := ⟨.plain, fun _ => true, fun _ => none⟩

private abbrev written : Doc := .replica (.numbered '1' 16) [.writeTextFile (txt "a.md") (txt "A")]

private abbrev removed : Doc :=
  .replica (.numbered '1' 16) [.writeTextFile (txt "a.md") (txt "A"), .deleteFile (txt "a.md")]

/-- A device whose vault and document both have `a.md`. -/
private abbrev device : App where
  vault := ⟨(∅ : JsMap Str Str).set (txt "a.md") (txt "A"), [], []⟩
  doc := written
  suppressed := []
  knownSdkPaths := []
  awaits := 0

/-- The deletion arrives before the first pass: the file stays. -/
theorem deletions_arrive_early :
    ¬ ∀ (host : Host) (a : App) (s₀ s : Session), beginSession host a = some s₀ →
      Machine.Reach (step host) (fun _ _ => True) s₀ s → s.left = [] := by
  intro harrive
  have hrun : ((beginSession always device).bind fun s₀ =>
      Machine.run (step always) s₀ [.remote removed, .pass]).map Session.left =
      some [txt "a.md"] := by decide +kernel
  obtain ⟨s, hs, hleft⟩ := Option.map_eq_some_iff.mp hrun
  obtain ⟨s₀, hs₀, hs⟩ := Option.bind_eq_some_iff.mp hs
  have hnone := harrive always device s₀ s hs₀
    (.of_run (.of_forall (fun _ _ => trivial) _) hs)
  rw [hleft] at hnone
  cases hnone

/-- It arrives after the first pass, and the file goes. -/
theorem deletions_arrive_listed : ∃ s : Session, s.app.vault.files.keys = [] ∧ s.left = [] := by
  have hrun : ((beginSession always device).bind fun s₀ => (Machine.run (step always) s₀
      [.pass, .remote removed, .pass]).map fun s =>
        (s.app.vault.files.keys, Machine.allowed (step always)
          (fun s e => decide (Timely always s e)) s₀ [.pass, .remote removed, .pass])) =
      some ([], true) := by decide +kernel
  obtain ⟨s₀, hs₀, hrun⟩ := Option.bind_eq_some_iff.mp hrun
  obtain ⟨s, hs, hread⟩ := Option.map_eq_some_iff.mp hrun
  simp only [Prod.mk.injEq] at hread
  exact ⟨s, hread.1, deletions_arrive hs₀
    (.of_run (.of_allowed (fun _ _ => of_decide_eq_true) hread.2) hs)⟩

end AgentSync.Obsidian
