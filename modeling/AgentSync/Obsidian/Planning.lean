import AgentSync.Obsidian.Reconcile

/-! What the planner is for.

Two sides, each a listing that holds still, and a plan that is carried out on them as the lists
of the plan have it. The planner's lists have closed forms over the paths of both sides
(`planReconcile_eq`), so what the plan leaves at a path is a case analysis of what the two sides
have there. On every two sides the plan makes them agree, touches nothing that the filter keeps
out, and leaves nothing to plan (`planReconcile_converges`). -/
namespace AgentSync.Obsidian

open Js Program

/-! ### The two sides -/

/-- The texts of the vault, and those of the document with a `none` for a deleted path. -/
structure Sides where
  obsidian : JsMap Str Str
  sdk : JsMap Str (Option Str)

namespace Sides

variable (s : Sides) (filter : Str → Bool)

/-- The summaries of the two sides. A deleted entry has no text to read. -/
def inputs : ReconcileInputs where
  obsidianFiles := s.obsidian.entries.map fun e => ⟨e.1, pure e.2⟩
  sdkFiles := s.sdk.entries.map fun e =>
    ⟨e.1, e.2.isNone, e.2.elim (throw (txt "file is deleted")) pure⟩
  filter := filter

/-- The text that the document has at the path. -/
def live (path : Str) : Option Str := (s.sdk.get? path).join

/-- A filtered path has one text on both sides, or none. -/
def Agree : Prop := ∀ path, filter path = true → s.obsidian.get? path = s.live path

/-- The paths that the planner takes in turn. -/
def paths : List Str :=
  let obs := byPath ObsidianFileSummary.path filter (s.inputs filter).obsidianFiles
  let sdk := byPath SdkFileSummary.path filter (s.inputs filter).sdkFiles
  obs.keys ++ sdk.keys.filter fun path => !obs.has path

/-- The text to push from the path. -/
def pushed (path : Str) : Option Str :=
  match s.obsidian.get? path, s.sdk.get? path with
  | some o, some (some c) => if o = c then none else some o
  | some o, none => some o
  | _, _ => none

/-- The text to write to the vault at the path. -/
def applied (path : Str) : Option Str :=
  match s.obsidian.get? path, s.sdk.get? path with
  | none, some (some c) => some c
  | _, _ => none

/-- The document has deleted what the vault has at the path. -/
def stale (path : Str) : Bool :=
  match s.obsidian.get? path, s.sdk.get? path with
  | some _, some none => true
  | _, _ => false

/-- The writes of the texts that `f` has for some paths. -/
def writesOf (f : Str → Option Str) (ps : List Str) : List PlannedWrite :=
  ps.filterMap fun p => (f p).map (⟨p, ·⟩)

/-- The plan for some paths. -/
def planFor (ps : List Str) : ReconcilePlan where
  pushToSdk := writesOf s.pushed ps
  applyToObsidian := writesOf s.applied ps
  deleteInObsidian := ps.filter s.stale

end Sides

/-- A plan as its lists have it, one after another. -/
def ReconcilePlan.execute (plan : ReconcilePlan) (s : Sides) : Sides where
  obsidian := plan.deleteInObsidian.foldl (fun m p => m.restrict (· ≠ p))
    (plan.applyToObsidian.foldl (fun m op => m.set op.path op.content) s.obsidian)
  sdk := plan.pushToSdk.foldl (fun m op => m.set op.path (some op.content)) s.sdk

instance : Append ReconcilePlan where
  append plan plan' := ⟨plan.pushToSdk ++ plan'.pushToSdk,
    plan.applyToObsidian ++ plan'.applyToObsidian,
    plan.deleteInObsidian ++ plan'.deleteInObsidian⟩

theorem ReconcilePlan.append_eq (plan plan' : ReconcilePlan) : plan ++ plan' =
    ⟨plan.pushToSdk ++ plan'.pushToSdk, plan.applyToObsidian ++ plan'.applyToObsidian,
      plan.deleteInObsidian ++ plan'.deleteInObsidian⟩ := rfl

/-- The paths of the three lists. -/
def ReconcilePlan.paths (plan : ReconcilePlan) : List Str :=
  plan.pushToSdk.map PlannedWrite.path ++ plan.applyToObsidian.map PlannedWrite.path ++
    plan.deleteInObsidian

/-! ### The plan in closed form -/

/-- Where each path is listed once, a filtered path has the summary of its entry. -/
theorem get?_byPath_map {α β : Type} {pathOf : α → Str} {filter : Str → Bool} {m : JsMap Str β}
    {f : Str × β → α} (hf : ∀ e, pathOf (f e) = e.1) {path : Str} (hpath : filter path = true) :
    (byPath pathOf filter (m.entries.map f)).get? path =
      (m.get? path).map fun v => f (path, v) := by
  cases hget : m.get? path with
  | none =>
    rw [Option.map_none, JsMap.get?_eq_none, mem_keys_byPath, List.map_map]
    intro h
    obtain ⟨e, he, heq⟩ := List.mem_map.mp h.2
    exact JsMap.get?_eq_none.mp hget (List.mem_map.mpr ⟨e, he, (hf e).symm.trans heq⟩)
  | some v =>
    have hmem : f (path, v) ∈ m.entries.map f := List.mem_map_of_mem (JsMap.get?_eq_some.mp hget)
    have hkey : path ∈ (byPath pathOf filter (m.entries.map f)).keys :=
      mem_keys_byPath.mpr ⟨hpath, List.mem_map.mpr ⟨_, hmem, hf _⟩⟩
    obtain ⟨x, hx⟩ := Option.isSome_iff_exists.mp (JsMap.has_iff.mpr hkey)
    obtain ⟨hin, heq⟩ := get?_byPath hx
    obtain ⟨e, he, rfl⟩ := List.mem_map.mp hin
    rw [hf e] at heq
    subst heq
    have hval : m.get? e.1 = some e.2 := JsMap.get?_eq_some.mpr he
    rw [hget] at hval
    cases hval
    exact hx

namespace Sides

variable {s : Sides} {filter : Str → Bool} {path : Str} {a : App}

theorem mem_paths : path ∈ s.paths filter ↔
    filter path = true ∧ (path ∈ s.obsidian.keys ∨ path ∈ s.sdk.keys) := by
  have hobs : (s.inputs filter).obsidianFiles.map ObsidianFileSummary.path = s.obsidian.keys :=
    List.map_map
  have hsdk : (s.inputs filter).sdkFiles.map SdkFileSummary.path = s.sdk.keys := List.map_map
  simp only [paths, List.mem_append, List.mem_filter, mem_keys_byPath, hobs, hsdk,
    Bool.not_eq_eq_eq_not, Bool.not_true, ← Bool.not_eq_true, JsMap.has_iff]
  grind

theorem nodup_paths : (s.paths filter).Nodup := by
  apply List.Nodup.append (JsMap.nodup _) ((JsMap.nodup _).filter _)
  intro path hobs hsdk
  have hnot := (List.mem_filter.mp hsdk).2
  rw [JsMap.has_iff.mpr hobs] at hnot
  cases hnot

theorem planFor_cons (path : Str) (ps : List Str) :
    s.planFor (path :: ps) = s.planFor [path] ++ s.planFor ps := by
  rw [ReconcilePlan.append_eq]
  simp only [planFor, writesOf, ← List.filterMap_append, ← List.filter_append, List.singleton_append]

/-- One turn of the planner adds the plan of its path. -/
theorem planPath_eq (hpath : filter path = true) (plan : ReconcilePlan) :
    planPath (byPath ObsidianFileSummary.path filter (s.inputs filter).obsidianFiles)
      (byPath SdkFileSummary.path filter (s.inputs filter).sdkFiles) plan path a =
      .ok (plan ++ s.planFor [path]) a := by
  have hobs := @get?_byPath_map _ _ ObsidianFileSummary.path filter s.obsidian
    (fun e => ⟨e.1, pure e.2⟩) (fun _ => rfl) path hpath
  have hsdk := @get?_byPath_map _ _ SdkFileSummary.path filter s.sdk
    (fun e => ⟨e.1, e.2.isNone, e.2.elim (throw (txt "file is deleted")) pure⟩)
    (fun _ => rfl) path hpath
  simp only [planPath, inputs, hobs, hsdk, ReconcilePlan.append_eq]
  cases ho : s.obsidian.get? path with
  | none =>
    cases hs : s.sdk.get? path with
    | none =>
      simp [planFor, writesOf, pushed, applied, stale, ho, hs]
      rfl
    | some c =>
      cases c with
      | none | some c =>
        simp [planFor, writesOf, pushed, applied, stale, ho, hs]
        rfl
  | some o =>
    cases hs : s.sdk.get? path with
    | none =>
      simp [planFor, writesOf, pushed, applied, stale, ho, hs]
      rfl
    | some c =>
      cases c with
      | none =>
        simp [planFor, writesOf, pushed, applied, stale, ho, hs]
        rfl
      | some c =>
        by_cases hsame : o = c
        · simp [planFor, writesOf, pushed, applied, stale, ho, hs, hsame]
          rfl
        · simp [planFor, writesOf, pushed, applied, stale, ho, hs, hsame]
          rfl

/-- **The plan is that of the paths of both sides.** -/
theorem planReconcile_eq :
    planReconcile (s.inputs filter) a = .ok (s.planFor (s.paths filter)) a := by
  have hturns (ps : List Str) (hps : ∀ p ∈ ps, filter p = true) (plan : ReconcilePlan) :
      ps.foldlM (planPath (byPath ObsidianFileSummary.path filter (s.inputs filter).obsidianFiles)
        (byPath SdkFileSummary.path filter (s.inputs filter).sdkFiles)) plan a =
        .ok (plan ++ s.planFor ps) a := by
    induction ps generalizing plan with
    | nil =>
      simp [ReconcilePlan.append_eq, planFor, writesOf]
      rfl
    | cons p rest ih =>
      rw [List.foldlM_cons, bind_ok (planPath_eq (hps p List.mem_cons_self) plan),
        ih fun q hq => hps q (List.mem_cons_of_mem _ hq), planFor_cons p rest]
      simp only [ReconcilePlan.append_eq, List.append_assoc]
  exact hturns _ (fun p hp => (mem_paths.mp hp).1) ⟨[], [], []⟩

/-! ### Carrying the plan out -/

section Writes

variable {f : Str → Option Str} {ps : List Str}

theorem mem_writesOf {w : PlannedWrite} :
    w ∈ writesOf f ps ↔ w.path ∈ ps ∧ f w.path = some w.content := by
  rw [writesOf, List.mem_filterMap]
  constructor
  · intro h
    obtain ⟨p, hp, hw⟩ := h
    obtain ⟨c, hc, rfl⟩ := Option.map_eq_some_iff.mp hw
    exact ⟨hp, hc⟩
  · intro h
    exact ⟨w.path, h.1, by rw [h.2]; rfl⟩

theorem path_writesOf :
    (writesOf f ps).map PlannedWrite.path = ps.filter fun p => (f p).isSome := by
  induction ps with
  | nil => rfl
  | cons p rest ih =>
    rw [List.filter_cons, writesOf, List.filterMap_cons]
    cases hf : f p with
    | none => simpa [writesOf] using ih
    | some c => simpa [writesOf] using ih

/-- What the writes leave at a path. -/
theorem get?_writesOf {α : Type} (hps : ps.Nodup) (m : JsMap Str α) (g : Str → α) (path : Str) :
    ((writesOf f ps).foldl (fun m w => m.set w.path (g w.content)) m).get? path =
      if path ∈ ps then ((f path).map g).or (m.get? path) else m.get? path := by
  have hnodup : ((writesOf f ps).map PlannedWrite.path).Nodup := by
    rw [path_writesOf]
    exact hps.filter _
  by_cases hwrite : path ∈ (writesOf f ps).map PlannedWrite.path
  · obtain ⟨w, hw, rfl⟩ := List.mem_map.mp hwrite
    obtain ⟨hin, hf⟩ := mem_writesOf.mp hw
    rw [if_pos hin, hf, JsMap.get?_foldl_set (fun w => g w.content) hnodup hw]
    rfl
  · rw [JsMap.get?_foldl_set_of_notMem (fun w => g w.content) hwrite]
    rw [path_writesOf, List.mem_filter, not_and, Bool.not_eq_true] at hwrite
    split
    next hin =>
      rw [Option.isSome_eq_false_iff, Option.isNone_iff_eq_none] at hwrite
      rw [hwrite hin]
      rfl
    next => rfl

end Writes

/-- What carrying the plan out leaves in the vault. -/
theorem get?_execute_obsidian (path : Str) :
    ((s.planFor (s.paths filter)).execute s).obsidian.get? path =
      if path ∈ s.paths filter then
        if s.stale path then none else (s.applied path).or (s.obsidian.get? path)
      else s.obsidian.get? path := by
  have hwrites := @get?_writesOf s.applied (s.paths filter) _ nodup_paths s.obsidian id path
  rw [Option.map_id, id] at hwrites
  have hdelete : path ∈ (s.planFor (s.paths filter)).deleteInObsidian ↔
      path ∈ s.paths filter ∧ s.stale path = true := List.mem_filter
  refine (JsMap.get?_foldl_restrict _ _).trans ?_
  by_cases hin : path ∈ s.paths filter
  · rw [if_pos hin] at hwrites ⊢
    by_cases hstale : s.stale path = true
    · rw [if_pos (hdelete.mpr ⟨hin, hstale⟩), if_pos hstale]
    · rw [if_neg (fun h => hstale (hdelete.mp h).2), if_neg hstale]
      exact hwrites
  · rw [if_neg hin] at hwrites ⊢
    rw [if_neg fun h => hin (hdelete.mp h).1]
    exact hwrites

/-- What it leaves in the document. -/
theorem get?_execute_sdk (path : Str) :
    ((s.planFor (s.paths filter)).execute s).sdk.get? path =
      if path ∈ s.paths filter then ((s.pushed path).map some).or (s.sdk.get? path)
      else s.sdk.get? path :=
  get?_writesOf nodup_paths s.sdk some path

/-- A path that the planner does not take has nothing on either side, or does not pass. -/
theorem get?_of_notMem_paths (hpath : filter path = true) (hnot : path ∉ s.paths filter) :
    s.obsidian.get? path = none ∧ s.sdk.get? path = none := by
  rw [mem_paths, not_and, not_or] at hnot
  exact ⟨JsMap.get?_eq_none.mpr (hnot hpath).1, JsMap.get?_eq_none.mpr (hnot hpath).2⟩

/-- Each case of the planner makes its path agree. -/
theorem agree_execute : ((s.planFor (s.paths filter)).execute s).Agree filter := by
  intro path hpath
  rw [live, get?_execute_obsidian, get?_execute_sdk]
  by_cases hin : path ∈ s.paths filter
  · rw [if_pos hin, if_pos hin]
    cases ho : s.obsidian.get? path with
    | none =>
      match hs : s.sdk.get? path with
      | none | some none | some (some c) => simp [pushed, applied, stale, ho, hs]
    | some o =>
      match hs : s.sdk.get? path with
      | none | some none => simp [pushed, applied, stale, ho, hs]
      | some (some c) =>
        by_cases hsame : o = c
        · simp [pushed, applied, stale, ho, hs, hsame]
        · simp [pushed, applied, stale, ho, hs, hsame]
  · obtain ⟨ho, hs⟩ := get?_of_notMem_paths hpath hin
    rw [if_neg hin, if_neg hin, ho, hs]
    rfl

/-- Where the sides agree there is nothing to plan. -/
theorem planFor_of_agree (h : s.Agree filter) : s.planFor (s.paths filter) = ⟨[], [], []⟩ := by
  have hnothing (p : Str) (hp : p ∈ s.paths filter) :
      s.pushed p = none ∧ s.applied p = none ∧ s.stale p = false := by
    have hsame := h p (mem_paths.mp hp).1
    rw [live] at hsame
    match hs : s.sdk.get? p with
    | none | some none | some (some c) =>
      rw [hs] at hsame
      simp [pushed, applied, stale, hs, hsame]
  have hpush : writesOf s.pushed (s.paths filter) = [] :=
    List.filterMap_eq_nil_iff.mpr fun p hp => by rw [(hnothing p hp).1]; rfl
  have happly : writesOf s.applied (s.paths filter) = [] :=
    List.filterMap_eq_nil_iff.mpr fun p hp => by rw [(hnothing p hp).2.1]; rfl
  have hdelete : (s.paths filter).filter s.stale = [] :=
    List.filter_eq_nil_iff.mpr fun p hp => by simp [(hnothing p hp).2.2]
  rw [planFor, hpush, happly, hdelete]

theorem paths_planFor (ps : List Str) : (s.planFor ps).paths =
    (ps.filter fun p => (s.pushed p).isSome) ++ (ps.filter fun p => (s.applied p).isSome) ++
      ps.filter s.stale := by
  rw [← path_writesOf, ← path_writesOf]
  rfl

/-- A path is in one list at most. -/
theorem nodup_planFor {ps : List Str} (hps : ps.Nodup) : (s.planFor ps).paths.Nodup := by
  have hkinds (p : Str) : ((s.pushed p).isSome = true → (s.applied p).isSome = false) ∧
      (s.stale p = true → (s.pushed p).isSome = false ∧ (s.applied p).isSome = false) := by
    cases ho : s.obsidian.get? p with
    | none | some o =>
      match hs : s.sdk.get? p with
      | none | some none | some (some c) => simp [pushed, applied, stale, ho, hs]
  rw [paths_planFor]
  apply ((hps.filter _).append (hps.filter _) ?_).append (hps.filter _) ?_
  · intro p hpush happly
    have hnot := (hkinds p).1 (List.mem_filter.mp hpush).2
    rw [(List.mem_filter.mp happly).2] at hnot
    cases hnot
  · intro p hwrite hdelete
    obtain ⟨hpush, happly⟩ := (hkinds p).2 (List.mem_filter.mp hdelete).2
    rw [List.mem_append, List.mem_filter, List.mem_filter, hpush, happly] at hwrite
    rcases hwrite with h | h
    · cases h.2
    · cases h.2

end Sides

/-- **The planner converges.** Each path is in one list at most, and passes the filter; carrying
the plan out makes the sides agree and changes no path that the filter keeps out; and then there
is nothing to plan. -/
theorem planReconcile_converges (s : Sides) (filter : Str → Bool) :
    ∃ plan, (∀ a, planReconcile (s.inputs filter) a = .ok plan a) ∧
      plan.paths.Nodup ∧ (∀ path ∈ plan.paths, filter path = true) ∧
      (plan.execute s).Agree filter ∧
      (∀ path, filter path = false →
        (plan.execute s).obsidian.get? path = s.obsidian.get? path ∧
          (plan.execute s).sdk.get? path = s.sdk.get? path) ∧
      ∀ a, planReconcile ((plan.execute s).inputs filter) a = .ok ⟨[], [], []⟩ a := by
  refine ⟨s.planFor (s.paths filter), fun a => Sides.planReconcile_eq, Sides.nodup_planFor
    Sides.nodup_paths, fun path hpath => ?_, Sides.agree_execute, fun path hpath => ?_, fun a => ?_⟩
  · simp only [Sides.paths_planFor, List.mem_append, List.mem_filter] at hpath
    have hin : path ∈ s.paths filter := by grind
    exact (Sides.mem_paths.mp hin).1
  · have hnot : path ∉ s.paths filter := fun hin => by
      rw [(Sides.mem_paths.mp hin).1] at hpath
      cases hpath
    rw [Sides.get?_execute_obsidian, Sides.get?_execute_sdk, if_neg hnot, if_neg hnot]
    exact ⟨rfl, rfl⟩
  · rw [Sides.planReconcile_eq, Sides.planFor_of_agree Sides.agree_execute]

end AgentSync.Obsidian
