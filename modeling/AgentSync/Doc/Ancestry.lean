import AgentSync.Dag
import AgentSync.Doc.Failure

/-! The heads at a time.

`heads_at_time` takes the changes with a timestamp up to the target and returns those that no
other of them depends on. Clocks may differ, so such a change may depend on one that is not taken;
the heads returned still have all that is taken among their ancestors, and where timestamps never
fall along the dependencies, nothing else. -/
namespace AgentSync

open Relation

/-- The change with the hash `h` depends on the one with the hash `h'`. -/
def Depends (changes : List Change) (h h' : ChangeHash) : Prop :=
  ∃ c ∈ changes, c.hash = h ∧ h' ∈ c.deps

/-- Changes with hashes of their own, with all they depend on, none of them on itself. -/
structure IsHistory (changes : List Change) : Prop where
  nodup : (changes.map Change.hash).Nodup
  closed : ∀ c ∈ changes, ∀ h ∈ c.deps, ∃ c' ∈ changes, c'.hash = h
  acyclic : Dag.Acyclic (Depends changes)

/-- Timestamps never fall along the dependencies. -/
def InOrder (changes : List Change) : Prop :=
  ∀ c ∈ changes, ∀ c' ∈ changes, c'.hash ∈ c.deps → c'.timestamp ≤ c.timestamp

/-- The hashes of the changes up to a time. -/
def takenUntil (changes : List Change) (target : Int) : Set ChangeHash :=
  {h | ∃ c ∈ changes, c.hash = h ∧ c.timestamp ≤ target}

variable {changes : List Change} {target : Int} {h : ChangeHash}

/-- The histories that replicas have. -/
theorem IsHistory.of_ordered (ho : Ordered changes) (hnodup : (changes.map Change.hash).Nodup) :
    IsHistory changes where
  nodup := hnodup
  closed := fun c hc h hh => by
    obtain ⟨before, after, rfl⟩ := List.append_of_mem hc
    obtain ⟨c', hc', heq⟩ := List.mem_map.mp (ho before c after rfl hh)
    exact ⟨c', List.mem_append_left _ hc', heq⟩
  acyclic := by
    refine .of_rank (fun h => (changes.map Change.hash).idxOf h) fun h h' hdep => ?_
    obtain ⟨c, hc, rfl, hh'⟩ := hdep
    obtain ⟨before, after, rfl⟩ := List.append_of_mem hc
    have hin := ho before c after rfl hh'
    rw [List.map_append, List.map_cons] at hnodup ⊢
    have hnot : c.hash ∉ before.map Change.hash := fun hin =>
      (List.nodup_append.mp hnodup).2.2 _ hin _ List.mem_cons_self rfl
    rw [List.idxOf_append_of_mem hin, List.idxOf_append_of_notMem hnot, List.idxOf_cons_self]
    have hlt := List.idxOf_lt_length_of_mem hin
    omega

theorem finite_takenUntil (changes : List Change) (target : Int) :
    (takenUntil changes target).Finite :=
  (changes.map Change.hash).finite_toSet.subset fun _ ⟨_, hc, heq, _⟩ =>
    heq ▸ List.mem_map_of_mem hc

/-- A hash names one change. -/
theorem IsHistory.unique (hist : IsHistory changes) {c c' : Change} (hc : c ∈ changes)
    (hc' : c' ∈ changes) (heq : c.hash = c'.hash) : c = c' :=
  List.inj_on_of_nodup_map hist.nodup hc hc' heq

theorem mem_takenUntil (hist : IsHistory changes) {c : Change} (hc : c ∈ changes) :
    c.hash ∈ takenUntil changes target ↔ c.timestamp ≤ target := by
  refine ⟨fun ⟨c', hc', heq, ht⟩ => ?_, fun ht => ⟨c, hc, rfl, ht⟩⟩
  rwa [← hist.unique hc' hc heq]

/-- Both passes together return the latest of what is taken. -/
theorem mem_headsUntil (hist : IsHistory changes) :
    h ∈ Doc.headsUntil changes target ↔
      h ∈ Dag.latest (Depends changes) (takenUntil changes target) := by
  have htaken : h ∈ (changes.filter fun c => c.timestamp ≤ target).map Change.hash ↔
      h ∈ takenUntil changes target := by
    simp only [List.mem_map, List.mem_filter, decide_eq_true_eq, takenUntil, Set.mem_ofPred_eq]
    exact exists_congr fun c => ⟨fun ⟨⟨hc, ht⟩, heq⟩ => ⟨hc, heq, ht⟩,
      fun ⟨hc, heq, ht⟩ => ⟨⟨hc, ht⟩, heq⟩⟩
  have hkept : (!(changes.filter fun c => c.timestamp ≤ target).any fun c => c.deps.contains h) = true ↔
      ∀ h' ∈ takenUntil changes target, ¬ Depends changes h' h := by
    rw [Bool.not_eq_true', List.any_eq_false]
    constructor
    · rintro hnone h' ⟨c, hc, rfl, ht⟩ ⟨c', hc', heq, hdep⟩
      obtain rfl := hist.unique hc' hc heq
      exact hnone c' (List.mem_filter.mpr ⟨hc, by simpa using ht⟩) (by simpa using hdep)
    · intro hnone c hc hdep
      obtain ⟨hc, ht⟩ := List.mem_filter.mp hc
      exact hnone c.hash ⟨c, hc, rfl, by simpa using ht⟩ ⟨c, hc, rfl, by simpa using hdep⟩
  rw [Doc.headsUntil, List.mem_filter, htaken, hkept]
  exact Iff.rfl

/-- What is taken has its ancestors, where clocks agree with the dependencies. -/
theorem closed_takenUntil (hist : IsHistory changes) (horder : InOrder changes) :
    Dag.Closed (Depends changes) (takenUntil changes target) := by
  rintro h ⟨c, hc, rfl, ht⟩ h' ⟨c₁, hc₁, heq, hdep⟩
  obtain rfl := hist.unique hc₁ hc heq
  obtain ⟨c', hc', rfl⟩ := hist.closed c₁ hc h' hdep
  exact ⟨c', hc', rfl, (horder c₁ hc c' hc' hdep).trans ht⟩

/-- Every change up to the time is a head or an ancestor of one, and every head is up to it. -/
structure CoversPast (changes : List Change) (target : Int) (heads : List ChangeHash) : Prop where
  covered : ∀ c ∈ changes, c.timestamp ≤ target →
    ∃ h ∈ heads, ReflTransGen (Depends changes) h c.hash
  past : ∀ h ∈ heads, ∃ c ∈ changes, c.hash = h ∧ c.timestamp ≤ target

/-- No head is an ancestor of another, and what they reach is just the past. -/
structure ReachesPast (changes : List Change) (target : Int) (heads : List ChangeHash) : Prop where
  incomparable : ∀ h ∈ heads, ∀ h' ∈ heads, ReflTransGen (Depends changes) h h' → h = h'
  reached : ∀ c ∈ changes, (∃ h ∈ heads, ReflTransGen (Depends changes) h c.hash) ↔
    c.timestamp ≤ target

theorem headsUntil_covers (hist : IsHistory changes) (target : Int) :
    CoversPast changes target (Doc.headsUntil changes target) where
  covered := fun c hc ht => by
    obtain ⟨h, hh, hreach⟩ := Dag.exists_latest hist.acyclic (finite_takenUntil changes target)
      ((mem_takenUntil hist hc).mpr ht)
    exact ⟨h, (mem_headsUntil hist).mpr hh, hreach⟩
  past := fun _ hh => ((mem_headsUntil hist).mp hh).1

theorem headsUntil_reaches (hist : IsHistory changes) (horder : InOrder changes) (target : Int) :
    ReachesPast changes target (Doc.headsUntil changes target) where
  incomparable := fun _ hh _ hh' hreach =>
    Dag.eq_of_reaches_latest (closed_takenUntil hist horder) ((mem_headsUntil hist).mp hh).1
      ((mem_headsUntil hist).mp hh') hreach
  reached := fun c hc => by
    rw [← mem_takenUntil hist hc, ← Dag.reaches_latest_iff hist.acyclic
      (finite_takenUntil changes target) (closed_takenUntil hist horder)]
    exact exists_congr fun h => and_congr_left fun _ => mem_headsUntil hist

/-- **The heads at a time cover the past**, and where clocks agree with the dependencies they
reach nothing else and none of them another. The open transaction is closed first. -/
theorem headsAtTime_covers {d : Doc} (hist : IsHistory (d.committed 0).changes) (target : Int) :
    Doc.Ends (Doc.headsAtTime target) d fun heads d' => d' = d.committed 0 ∧
      CoversPast d'.changes target heads ∧
      (InOrder d'.changes → ReachesPast d'.changes target heads) :=
  ⟨_, _, Doc.headsAtTime_eq target d, rfl, headsUntil_covers hist target,
    fun horder => headsUntil_reaches hist horder target⟩

/-- Two changes on one, and one on a change whose clock was ahead. -/
private def skewed : Doc where
  changes := [⟨.fill 1, [], 3, []⟩, ⟨.fill 2, [.fill 1], 9, []⟩, ⟨.fill 3, [.fill 1], 4, []⟩,
    ⟨.fill 4, [.fill 2], 5, []⟩]
  pending := []
  root := ∅
  supply := .numbered '1' 16
  draws := 0

theorem headsAtTime_covers_skewed :
    Doc.Ends (Doc.headsAtTime 5) skewed fun heads d' => d' = skewed.committed 0 ∧
      CoversPast d'.changes 5 heads ∧ (InOrder d'.changes → ReachesPast d'.changes 5 heads) := by
  refine headsAtTime_covers (.of_ordered ?_ (by decide +kernel)) 5
  have hstart : Ordered [] := fun before c after heq => by simp at heq
  exact (((hstart.concat (c := ⟨.fill 1, [], 3, []⟩) (by decide)).concat
    (c := ⟨.fill 2, [.fill 1], 9, []⟩) (by decide)).concat
    (c := ⟨.fill 3, [.fill 1], 4, []⟩) (by decide)).concat
    (c := ⟨.fill 4, [.fill 2], 5, []⟩) (by decide)

end AgentSync
