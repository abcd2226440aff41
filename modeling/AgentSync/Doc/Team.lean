import AgentSync.Machine
import AgentSync.Doc.Converging
import AgentSync.Doc.Labels
import AgentSync.Doc.Restore
import AgentSync.Doc.Alignment

/-! Labels stay restorable.

The peers of a vault run operations and merge each other's histories. A label is a change on top
of the history whose heads it holds, so whoever has the label has all that its heads name; heads
lead to the same part in every history that has it (`mem_upTo_headsOf`), and its content does
not depend on how it arrived (`Automerge.Local`). So on every peer, and however long after, a
label restores the view that its maker had (`Team.label_restorable`). -/
namespace AgentSync

variable (L : Crates) (A : Automerge) (vaultId : Str)

/-- A label that was made: what its maker saw, and the change that holds the heads. -/
structure Creation where
  name : Str
  root : Root
  change : Change

/-- The documents of the peers, and all changes and labels that were made. -/
structure Team where
  peers : List Doc
  made : List Change
  creations : List Creation

namespace Team

inductive Act where
  /-- A peer starts from the schema. -/
  | new (supply : Supply)
  /-- A peer starts, or starts again, from what another one saved. -/
  | load (i : Nat) (supply : Supply) (draws : Nat)
  | run (i : Nat) (op : LocalOp)
  /-- A peer takes in the part of another's history up to some heads, all of it up to its own. -/
  | merge (i j : Nat) (heads : List ChangeHash)

/-- The first change. -/
def firstChange : Change := ⟨A.genesis vaultId, [], 0, Doc.genesisOps vaultId⟩

def start : Team := ⟨[], [firstChange A vaultId], []⟩

/-- The label that an operation makes. -/
def created (op : LocalOp) (d : Doc) : List Creation :=
  match op with
  | .createLabel name =>
    match Doc.createLabel L name d with
    | .ok _ d' => d'.changes.getLast?.toList.map fun c => ⟨name, d.root, c⟩
    | .error .. => []
  | _ => []

/-- Documents are saved and merged with their transactions closed, which `get_heads` does. -/
def step (s : Team) : Act → Option Team
  | .new supply => some {s with peers := s.peers ++ [.new A vaultId supply]}
  | .load i supply draws =>
    match s.peers[i]? with
    | some d =>
      if d.pending = [] then
        some {s with peers := s.peers ++ [.ofChanges A d.changes supply draws]}
      else none
    | none => none
  | .run i op =>
    match s.peers[i]? with
    | some d =>
      let d' := d.after (op.run L A)
      some ⟨s.peers.set i d', s.made ++ d'.changes.drop d.changes.length,
        s.creations ++ created L op d⟩
    | none => none
  | .merge i j heads =>
    match s.peers[i]?, s.peers[j]? with
    | some d, some other =>
      if d.pending = [] ∧ other.pending = [] then
        match other.forkAt A heads with
        | .ok part => some {s with peers := s.peers.set i (d.merge A part)}
        | .error _ => none
      else none
    | _, _ => none

/-- No two changes have one hash. -/
def Fair (s : Team) (a : Act) : Prop :=
  ∀ s' ∈ step L A vaultId s a, (s'.made.map Change.hash).Nodup

/-! ### The invariant -/

variable {L A vaultId} {s s' : Team} {d : Doc} {c : Change} {made : List Change} {k : Creation}

/-- The change is the first one, a label, or what operations on entries and deletions of labels
have recorded. -/
def Known (A : Automerge) (vaultId : Str) (creations : List Creation) (c : Change) : Prop :=
  c = firstChange A vaultId ∨ (∃ k ∈ creations, k.change = c) ∨
    ∀ op ∈ c.ops, op.Filed ∨ ∃ name, op = .delete (.label name)

/-- What holds of the document of a peer. -/
structure Held (L : Crates) (A : Automerge) (vaultId : Str) (made : List Change) (d : Doc) :
    Prop where
  sound : d.Sound L.nfc A
  nodup : (d.changes.map Change.hash).Nodup
  sub : d.changes ⊆ made
  first : firstChange A vaultId ∈ d.changes
  pending : ∀ op ∈ d.pending, op.Filed

/-- A label holds the heads of the history that its maker saw. -/
structure Labelled (A : Automerge) (vaultId : Str) (made : List Change) (k : Creation)
    (S : List Change) : Prop where
  intact : Intact S
  sub : S ⊆ made
  first : firstChange A vaultId ∈ S
  root : ∀ a, k.root.get a = (A.view S).get a
  deps : k.change.deps = headsOf S
  ops : ∃ now, k.change.ops = Doc.labelOps k.name (headsOf S) now

structure Inv (L : Crates) (A : Automerge) (vaultId : Str) (s : Team) : Prop where
  intact : Intact s.made
  first : firstChange A vaultId ∈ s.made
  known : ∀ c ∈ s.made, Known A vaultId s.creations c
  peers : ∀ d ∈ s.peers, Held L A vaultId s.made d
  creations : ∀ k ∈ s.creations, ∃ S, Labelled A vaultId s.made k S

theorem Inv.start : (start A vaultId).Inv L A vaultId where
  intact := ⟨@Ordered.concat [] _ (by simp [Ordered]) (List.nil_subset _), List.nodup_singleton _⟩
  first := List.mem_singleton.mpr rfl
  known := fun c hc => .inl (List.mem_singleton.mp hc)
  peers := fun d hd => by cases hd
  creations := fun k hk => by cases hk

theorem Held.intact (h : Held L A vaultId made d) : Intact d.changes := ⟨h.sound.ordered, h.nodup⟩

theorem Held.mono {made' : List Change} (h : Held L A vaultId made d) (hsub : made ⊆ made') :
    Held L A vaultId made' d :=
  ⟨h.sound, h.nodup, List.Subset.trans h.sub hsub, h.first, h.pending⟩

theorem Labelled.mono {made' S : List Change} (h : Labelled A vaultId made k S)
    (hsub : made ⊆ made') : Labelled A vaultId made' k S :=
  ⟨h.intact, List.Subset.trans h.sub hsub, h.first, h.root, h.deps, h.ops⟩

theorem Known.mono {ks ks' : List Creation} (h : Known A vaultId ks c) (hsub : ks ⊆ ks') :
    Known A vaultId ks' c := by
  rcases h with hfirst | ⟨k, hk, heq⟩ | hops
  · exact .inl hfirst
  · exact .inr (.inl ⟨k, hsub hk, heq⟩)
  · exact .inr (.inr hops)

/-- What was made on top of a part of the history comes after all of it. -/
theorem intact_append {changes new : List Change} (hmade : Ordered made)
    (hordered : Ordered (changes ++ new)) (hsub : changes ⊆ made)
    (hnodup : ((made ++ new).map Change.hash).Nodup) : Intact (made ++ new) := by
  refine ⟨?_, hnodup⟩
  clear hnodup
  induction new using List.reverseRecOn with
  | nil => simpa using hmade
  | append_singleton new c ih =>
    rw [← List.append_assoc, ordered_concat_iff] at hordered ⊢
    refine ⟨ih hordered.1, fun dep hdep => ?_⟩
    have hin := hordered.2 hdep
    rw [List.map_append, List.mem_append] at hin ⊢
    exact hin.imp (fun h => List.map_subset _ hsub h) id

theorem nodup_append_of_subset {changes new : List Change}
    (hchanges : (changes.map Change.hash).Nodup) (hsub : changes ⊆ made)
    (hnodup : ((made ++ new).map Change.hash).Nodup) :
    ((changes ++ new).map Change.hash).Nodup := by
  rw [List.map_append, List.nodup_append] at hnodup ⊢
  exact ⟨hchanges, hnodup.2.1, fun h hh => hnodup.2.2 h (List.map_subset _ hsub hh)⟩

/-! ### Operations -/

/-- What an operation leaves: new changes that are a label or known to be none. -/
structure Ran (L : Crates) (op : LocalOp) (d d' : Doc) (new : List Change) : Prop where
  changes : d'.changes = d.changes ++ new
  pending : ∀ op ∈ d'.pending, op.Filed
  known : ∀ c ∈ new, (∃ k ∈ created L op d, k.change = c) ∨
    ∀ op ∈ c.ops, op.Filed ∨ ∃ name, op = .delete (.label name)

theorem Ran.of_recorded {op : LocalOp} {d' : Doc} {P : Op → Prop}
    (hpending : ∀ op ∈ d.pending, op.Filed) (h : Doc.Recorded P d d')
    (hP : ∀ op, P op → op.Filed ∨ ∃ name, op = .delete (.label name))
    (hpending' : ∀ op ∈ d'.pending, op.Filed) : ∃ new, Ran L op d d' new := by
  obtain ⟨new, hchanges, hnew⟩ := h
  refine ⟨new, hchanges, hpending', fun c hc => .inr fun op hop => ?_⟩
  exact (hnew op (.inr ⟨c, hc, hop⟩)).elim (fun h => .inl (hpending op h)) (hP op)

theorem ran (op : LocalOp) (hpending : ∀ op ∈ d.pending, op.Filed) :
    ∃ new, Ran L op d (d.after (op.run L A)) new := by
  by_cases hentries : op.onEntries = true
  · have hrecorded := LocalOp.records_filed (L := L) (A := A) hentries d
    have hrecorded' := hrecorded
    obtain ⟨new, -, hnew⟩ := hrecorded'
    refine Ran.of_recorded hpending hrecorded (fun op h => .inl h) fun op hop => ?_
    exact (hnew op (.inl hop)).elim (hpending op) id
  · cases op with
    | createLabel name =>
      show ∃ new, Ran L (.createLabel name) d (d.after (Doc.createLabel L name)) new
      have hcommitted : Doc.Recorded Op.Filed d (d.committed 0) := .committed d 0
      cases hrun : Doc.createLabel L name d with
      | error e d' =>
        rw [Doc.after_error hrun]
        have hnone (op : Op) (h : op.Filed) : op.Filed ∨ ∃ name, op = .delete (.label name) := .inl h
        rcases Doc.createLabel_error hrun with rfl | rfl
        · exact Ran.of_recorded hpending (.refl d') hnone hpending
        · exact Ran.of_recorded hpending hcommitted hnone (by simp)
      | ok u d' =>
        rw [Doc.after_ok hrun]
        obtain ⟨hmap, hwritable⟩ := Doc.createLabel_ok hrun
        obtain ⟨_, d'', hrun', c, now, hchanges, hclosed, -, -⟩ :=
          Doc.createLabel_ends name hmap hwritable
        obtain ⟨-, rfl⟩ := EStateM.Result.ok.inj (hrun.symm.trans hrun')
        obtain ⟨closing, hclosing, hops⟩ := hcommitted
        refine ⟨closing ++ [c], by rw [hchanges, hclosing, List.append_assoc], by simp [hclosed],
          fun c' hc' => ?_⟩
        rcases List.mem_append.mp hc' with hc' | hc'
        · exact .inr fun op hop => .inl ((hops op (.inr ⟨c', hc', hop⟩)).elim (hpending op) id)
        · rw [List.mem_singleton.mp hc']
          refine .inl ⟨⟨name, d.root, c⟩, ?_, rfl⟩
          simp [created, hrun, hchanges]
    | deleteLabel name =>
      have hrecords : Doc.Records (fun op => op.Filed ∨ ∃ name, op = .delete (.label name))
          (Doc.deleteLabel L name) := by
        refine Doc.Records.read.bind fun _ => Doc.Records.read.bind fun _ =>
          (Doc.Records.emit ?_).bind fun _ => .commitNow
        exact List.forall_mem_singleton.mpr (.inr ⟨name, rfl⟩)
      refine Ran.of_recorded hpending (hrecords d) (fun _ h => h) fun op hop => ?_
      rcases Doc.after_deleteLabel (L := L) name d with heq | hclosed
      · exact hpending op (heq ▸ hop)
      · have hop' : op ∈ (d.after (Doc.deleteLabel L name)).pending := hop
        rw [hclosed] at hop'
        cases hop'
    | _ => exact absurd rfl hentries

/-- **A label holds the heads of what its maker saw.** -/
theorem created_labelled {op : LocalOp} (hd : Held L A vaultId made d) (hk : k ∈ created L op d)
    {made' : List Change} (hsub : (d.after (op.run L A)).changes ⊆ made')
    (hnodup : ((d.after (op.run L A)).changes.map Change.hash).Nodup) :
    Labelled A vaultId made' k (d.committed 0).changes := by
  cases op with
  | createLabel name =>
    replace hsub : (d.after (Doc.createLabel L name)).changes ⊆ made' := hsub
    replace hnodup : ((d.after (Doc.createLabel L name)).changes.map Change.hash).Nodup := hnodup
    unfold created at hk
    simp only at hk
    split at hk
    next d' hrun =>
      obtain ⟨hmap, hwritable⟩ := Doc.createLabel_ok hrun
      obtain ⟨_, d'', hrun', c, now, hchanges, -, hdeps, hops⟩ :=
        Doc.createLabel_ends name hmap hwritable
      obtain ⟨-, rfl⟩ := EStateM.Result.ok.inj (hrun.symm.trans hrun')
      rw [Doc.after_ok hrun, hchanges] at hsub hnodup
      have hk : k = ⟨name, d.root, c⟩ := by simpa [hchanges] using hk
      subst hk
      have hcommitted := hd.sound.committed 0
      have hprefix := Doc.changes_before_committed d 0
      refine ⟨⟨hcommitted.ordered, ?_⟩, (List.append_subset.mp hsub).1,
        hprefix.subset hd.first, fun a => ?_, hdeps, now, hops⟩
      · rw [List.map_append] at hnodup
        exact (List.nodup_append.mp hnodup).1
      · have hroot := hcommitted.root
        rw [Doc.committed_root, Doc.committed_pending] at hroot
        rw [hroot]
        rfl
    next => cases hk
  | _ => cases hk

/-- Another document takes the place of a peer's, and nothing is made. -/
theorem Inv.put (h : s.Inv L A vaultId) {i : Nat} (hd : Held L A vaultId s.made d) :
    {s with peers := s.peers.set i d}.Inv L A vaultId where
  intact := h.intact
  first := h.first
  known := h.known
  peers := fun d' hd' => by
    rcases List.mem_or_eq_of_mem_set hd' with hd' | rfl
    · exact h.peers d' hd'
    · exact hd
  creations := h.creations

/-- Another peer starts. -/
theorem Inv.join (h : s.Inv L A vaultId) (hd : Held L A vaultId s.made d) :
    {s with peers := s.peers ++ [d]}.Inv L A vaultId where
  intact := h.intact
  first := h.first
  known := h.known
  peers := fun d' hd' => by
    rcases List.mem_append.mp hd' with hd' | hd'
    · exact h.peers d' hd'
    · rwa [List.mem_singleton.mp hd']
  creations := h.creations

theorem Held.new (hfirst : firstChange A vaultId ∈ made) (supply : Supply) :
    Held L A vaultId made (.new A vaultId supply) where
  sound := Doc.new_sound vaultId supply
  nodup := List.nodup_singleton _
  sub := fun c hc => List.mem_singleton.mp hc ▸ hfirst
  first := List.mem_singleton.mpr rfl
  pending := fun op hop => by cases hop

theorem Held.load (h : Held L A vaultId made d) (supply : Supply) (draws : Nat) :
    Held L A vaultId made (.ofChanges A d.changes supply draws) where
  sound := .ofChanges _ _ h.sound.changes h.sound.changesComplete h.sound.ordered
  nodup := h.nodup
  sub := h.sub
  first := h.first
  pending := fun op hop => by cases hop

theorem Held.merge {other part : Doc} {heads : List ChangeHash} (h : Held L A vaultId made d)
    (ho : Held L A vaultId made other) (hclosed : d.pending = [])
    (hpart : other.forkAt A heads = .ok part) :
    Held L A vaultId made (d.merge A part) := by
  have hpartSub := forkAt_sublist hpart
  have hpartClosed : part.pending = [] := by
    unfold Doc.forkAt at hpart
    split at hpart
    next =>
      rw [← Except.ok.inj hpart]
      rfl
    next => cases hpart
  have hchanges : (d.merge A part).changes = d.changes ++
      part.changes.filter fun c => !(d.changes.any fun c' => c'.hash = c.hash) := by
    unfold Doc.merge
    rw [Doc.committed_of_closed hclosed, Doc.committed_of_closed hpartClosed]
    rfl
  refine ⟨h.sound.merge (Doc.forkAt_sound ho.sound hpart), ?_, ?_, ?_, fun op hop => by cases hop⟩
  · rw [hchanges]
    exact nodup_merge h.nodup (ho.nodup.sublist (hpartSub.map _))
  · rw [hchanges]
    exact List.append_subset.mpr ⟨h.sub, fun c hc =>
      ho.sub (hpartSub.subset (List.mem_of_mem_filter hc))⟩
  · rw [hchanges]
    exact List.mem_append_left _ h.first

/-- **A peer runs an operation.** -/
theorem Inv.run (h : s.Inv L A vaultId) {i : Nat} (hi : s.peers[i]? = some d) (op : LocalOp)
    (hnodup : ((s.made ++ (d.after (op.run L A)).changes.drop d.changes.length).map
      Change.hash).Nodup) :
    (Team.mk (s.peers.set i (d.after (op.run L A)))
      (s.made ++ (d.after (op.run L A)).changes.drop d.changes.length)
      (s.creations ++ created L op d)).Inv L A vaultId := by
  have hd := h.peers d (List.mem_of_getElem? hi)
  obtain ⟨new, hchanges, hpending, hknown⟩ := ran (L := L) (A := A) op hd.pending
  have hsound : (d.after (op.run L A)).Sound L.nfc A := op.run_keeps.after hd.sound
  have hordered := hsound.ordered
  have hdrop : (d.after (op.run L A)).changes.drop d.changes.length = new := by
    rw [hchanges, List.drop_left]
  rw [hdrop] at hnodup ⊢
  rw [hchanges] at hordered
  have hsub : s.made ⊆ s.made ++ new := List.subset_append_left _ _
  have hmine : ((d.after (op.run L A)).changes.map Change.hash).Nodup := by
    rw [hchanges]
    exact nodup_append_of_subset hd.nodup hd.sub hnodup
  have hmineSub : (d.after (op.run L A)).changes ⊆ s.made ++ new := by
    rw [hchanges]
    exact List.append_subset.mpr ⟨List.Subset.trans hd.sub hsub, List.subset_append_right _ _⟩
  refine ⟨intact_append h.intact.ordered hordered hd.sub hnodup, hsub h.first, fun c hc => ?_,
    fun d' hd' => ?_, fun k hk => ?_⟩
  · rcases List.mem_append.mp hc with hc | hc
    · exact (h.known c hc).mono (List.subset_append_left _ _)
    · rcases hknown c hc with ⟨k, hk, heq⟩ | hops
      · exact .inr (.inl ⟨k, List.mem_append_right _ hk, heq⟩)
      · exact .inr (.inr hops)
  · rcases List.mem_or_eq_of_mem_set hd' with hd' | rfl
    · exact (h.peers d' hd').mono hsub
    · refine ⟨hsound, hmine, hmineSub, ?_, hpending⟩
      rw [hchanges]
      exact List.mem_append_left _ hd.first
  · rcases List.mem_append.mp hk with hk | hk
    · obtain ⟨S, hS⟩ := h.creations k hk
      exact ⟨S, hS.mono hsub⟩
    · exact ⟨_, created_labelled hd hk hmineSub hmine⟩

/-- **Every step keeps the invariant.** -/
theorem Inv.step {a : Act} (h : s.Inv L A vaultId) (hfair : Fair L A vaultId s a)
    (hs : step L A vaultId s a = some s') : s'.Inv L A vaultId := by
  have hnodup := hfair s' hs
  cases a with
  | new supply =>
    obtain rfl := Option.some.inj hs
    exact h.join (.new h.first supply)
  | load i supply draws =>
    simp only [Team.step] at hs
    split at hs
    next d hi =>
      split at hs
      next =>
        obtain rfl := Option.some.inj hs
        exact h.join ((h.peers d (List.mem_of_getElem? hi)).load supply draws)
      next => cases hs
    next => cases hs
  | run i op =>
    simp only [Team.step] at hs
    split at hs
    next d hi =>
      obtain rfl := Option.some.inj hs
      exact h.run hi op hnodup
    next => cases hs
  | merge i j heads =>
    simp only [Team.step] at hs
    split at hs
    next d other hi hj =>
      split at hs
      next hclosed =>
        split at hs
        next part hpart =>
          obtain rfl := Option.some.inj hs
          exact h.put ((h.peers d (List.mem_of_getElem? hi)).merge
            (h.peers other (List.mem_of_getElem? hj)) hclosed.1 hpart)
        next => cases hs
      next => cases hs
    next => cases hs

theorem Inv.of_reach
    (h : Machine.Reach (Team.step L A vaultId) (Fair L A vaultId) (Team.start A vaultId) s) :
    s.Inv L A vaultId :=
  h.invariant .start fun _ _ _ => .step

theorem subset_after (op : LocalOp) (d : Doc) : d.changes ⊆ (d.after (op.run L A)).changes := by
  obtain ⟨new, hchanges, -⟩ := op.records (L := L) (A := A) d
  rw [hchanges]
  exact List.subset_append_left _ _

theorem subset_merge (d other : Doc) : d.changes ⊆ (d.merge A other).changes :=
  List.Subset.trans (Doc.changes_before_committed d 0).subset (List.subset_append_left _ _)

/-- A peer keeps the changes it has. -/
theorem step_grown {a : Act} {i : Nat} (hs : step L A vaultId s a = some s')
    (hi : s.peers[i]? = some d) : ∃ d', s'.peers[i]? = some d' ∧ d.changes ⊆ d'.changes := by
  have hlt := (List.getElem?_eq_some_iff.mp hi).1
  have hjoin (d' : Doc) : ∃ d₁, (s.peers ++ [d'])[i]? = some d₁ ∧ d.changes ⊆ d₁.changes :=
    ⟨d, by rw [List.getElem?_append_left hlt, hi], List.Subset.refl _⟩
  have hset {j : Nat} {d₁ d' : Doc} (hj : s.peers[j]? = some d₁) (hsub : d₁.changes ⊆ d'.changes) :
      ∃ d₂, (s.peers.set j d')[i]? = some d₂ ∧ d.changes ⊆ d₂.changes := by
    by_cases hne : j = i
    · subst hne
      obtain rfl := Option.some.inj (hi.symm.trans hj)
      exact ⟨d', List.getElem?_set_self hlt, hsub⟩
    · exact ⟨d, by rw [List.getElem?_set_ne hne, hi], List.Subset.refl _⟩
  cases a with
  | new supply =>
    obtain rfl := Option.some.inj hs
    exact hjoin _
  | load j supply draws =>
    simp only [Team.step] at hs
    split at hs
    next =>
      split at hs
      next =>
        obtain rfl := Option.some.inj hs
        exact hjoin _
      next => cases hs
    next => cases hs
  | run j op =>
    simp only [Team.step] at hs
    split at hs
    next d₁ hj =>
      obtain rfl := Option.some.inj hs
      exact hset hj (subset_after op d₁)
    next => cases hs
  | merge j k heads =>
    simp only [Team.step] at hs
    split at hs
    next d₁ other hj _ =>
      split at hs
      next =>
        split at hs
        next part _ =>
          obtain rfl := Option.some.inj hs
          exact hset hj (subset_merge d₁ part)
        next => cases hs
      next => cases hs
    next => cases hs

theorem grown {i : Nat} (h : Machine.Reach (step L A vaultId) (Fair L A vaultId) s s')
    (hi : s.peers[i]? = some d) : ∃ d', s'.peers[i]? = some d' ∧ d.changes ⊆ d'.changes := by
  refine h.invariant (I := fun s' => ∃ d', s'.peers[i]? = some d' ∧ d.changes ⊆ d'.changes)
    ⟨d, hi, List.Subset.refl _⟩ fun s a s' hs _ hstep => ?_
  obtain ⟨d₁, hi₁, hsub⟩ := hs
  obtain ⟨d₂, hi₂, hsub'⟩ := step_grown hstep hi₁
  exact ⟨d₂, hi₂, List.Subset.trans hsub hsub'⟩

/-! ### Reading -/

theorem inEntry_of_mem_ancestors {a b : Addr} (ha : a.inEntry = false) (hb : b ∈ a.ancestors) :
    b.inEntry = false := by
  cases a <;> simp [Addr.inEntry] at ha <;> simp [Addr.ancestors] at hb <;> grind [Addr.inEntry]

/-- Outside the entries the document reads as its history does. -/
theorem Held.root_get (h : Held L A vaultId made d) {a : Addr} (ha : a.inEntry = false) :
    d.root.get a = (A.view d.changes).get a := by
  rw [h.sound.root]
  refine get_applyAll_of_ne fun op hop => ?_
  have hentry := (h.pending op hop).entry
  refine ⟨fun heq => ?_, fun hanc => ?_⟩
  · rw [heq, ha] at hentry
    cases hentry
  · rw [inEntry_of_mem_ancestors ha hanc] at hentry
    cases hentry

/-- A change other than the first writes below the maps of the root. -/
theorem Inv.spares_rootMap (h : s.Inv L A vaultId) (hc : c ∈ s.made) (hne : c ≠ firstChange A vaultId)
    (m : RootMap) : c.Spares (.rootMap m) := by
  intro op hop
  refine ⟨?_, by simp [Addr.ancestors]⟩
  rcases h.known c hc with rfl | ⟨k, hk, rfl⟩ | hknown
  · exact absurd rfl hne
  · obtain ⟨S, hS⟩ := h.creations k hk
    obtain ⟨now, hops⟩ := hS.ops
    rw [hops] at hop
    simp only [Doc.labelOps, List.mem_cons, List.not_mem_nil, or_false] at hop
    rcases hop with rfl | rfl | rfl <;> simp [Op.target]
  · rcases hknown op hop with hfiled | ⟨name, rfl⟩
    · intro heq
      have hentry := hfiled.entry
      rw [heq] at hentry
      cases hentry
    · simp [Op.target]

/-- The maps of the root are there. -/
theorem Inv.get_rootMap (hA : A.Local) (h : s.Inv L A vaultId) {S : List Change} (hS : Intact S)
    (hsub : S ⊆ s.made) (hfirst : firstChange A vaultId ∈ S) (m : RootMap) :
    (A.view S).get (.rootMap m) = some .map := by
  have hone : Intact [firstChange A vaultId] := (Inv.start (L := L)).intact
  have hsame : (A.view S).get (.rootMap m) = (A.view [firstChange A vaultId]).get (.rootMap m) := by
    refine hA _ S hone hS (fun c hc => List.mem_singleton.mp hc ▸ hfirst) _ fun c hc hno => ?_
    exact h.spares_rootMap (hsub hc) (fun heq => hno (List.mem_singleton.mpr heq)) m
  have hview : A.view [firstChange A vaultId] = applyAll ∅ (Doc.genesisOps vaultId) := by
    rw [← A.view_nil]
    exact A.view_commit [] (firstChange A vaultId) rfl
  rw [hsame, hview]
  cases m <;> simp [Doc.genesisOps, Op.apply, Addr.ancestors]

theorem Root.mapObj_of_get {r : Root} {m : RootMap} (h : r.get (.rootMap m) = some .map) :
    r.mapObj m = .ok () := by rw [Root.mapObj, h]

theorem Inv.mapObj (hA : A.Local) (h : s.Inv L A vaultId) (hd : Held L A vaultId s.made d)
    (m : RootMap) : d.root.mapObj m = .ok () := by
  refine Root.mapObj_of_get ?_
  rw [hd.root_get rfl]
  exact h.get_rootMap hA hd.intact hd.sub hd.first m

theorem Inv.ready (hA : A.Local) (h : s.Inv L A vaultId) (hd : Held L A vaultId s.made d) :
    d.root.Ready L :=
  ⟨hd.sound.rootTyped, hd.sound.rootComplete, h.mapObj hA hd .files, h.mapObj hA hd .directories⟩

/-- What operations leave at a register one of them has written. -/
theorem writes_of_footprint {ops : List Op} {a : Addr} {v : Val} (ha : a.isContent = false)
    (h : (footprint ops).get a = some v) : ∃ op ∈ ops, op.writes = some (a, some v) := by
  induction ops using List.reverseRecOn with
  | nil => simp [footprint] at h
  | append_singleton ops op ih =>
    rw [footprint, applyAll_append] at h
    rcases Op.writes_of_get ha h with hold | hnew
    · obtain ⟨op', hop', hwrites⟩ := ih hold
      exact ⟨op', List.mem_append_left _ hop', hwrites⟩
    · exact ⟨op, by simp, hnew⟩

theorem target_of_writes {op : Op} {a : Addr} {v : Option Val} (h : op.writes = some (a, v)) :
    op.target = a := by
  cases op <;> simp [Op.writes] at h <;> exact h.1

/-- Only the change that makes a label writes its fields. -/
theorem Inv.maker (h : s.Inv L A vaultId) (hc : c ∈ s.made) {op : Op} (hop : op ∈ c.ops)
    {name : Str} {f : LabelField} (htarget : op.target = .labelField name f) :
    ∃ k ∈ s.creations, ∃ S now, Labelled A vaultId s.made k S ∧ k.name = name ∧ k.change = c ∧
      c.ops = Doc.labelOps name (headsOf S) now := by
  rcases h.known c hc with rfl | ⟨k, hk, rfl⟩ | hknown
  · simp only [firstChange, Doc.genesisOps, List.mem_cons, List.not_mem_nil, or_false] at hop
    rcases hop with rfl | rfl | rfl | rfl | rfl <;> cases htarget
  · obtain ⟨S, hS⟩ := h.creations k hk
    obtain ⟨now, hops⟩ := hS.ops
    have hname : k.name = name := by
      rw [hops] at hop
      simp only [Doc.labelOps, List.mem_cons, List.not_mem_nil, or_false] at hop
      rcases hop with rfl | rfl | rfl <;> cases htarget <;> rfl
    exact ⟨k, hk, S, now, hS, hname, rfl, hname ▸ hops⟩
  · rcases hknown op hop with hfiled | ⟨name', rfl⟩
    · have hentry := hfiled.entry
      rw [htarget] at hentry
      cases hentry
    · cases htarget

/-- **The heads of a label are in a change that made it.** -/
theorem Inv.creation (h : s.Inv L A vaultId) (hd : Held L A vaultId s.made d) {name : Str}
    {v : Val} (hv : d.root.get (.labelField name .heads) = some v) :
    ∃ k ∈ s.creations, ∃ S, Labelled A vaultId s.made k S ∧ k.name = name ∧
      k.change ∈ d.changes ∧ (footprint k.change.ops).get (.labelField name .heads) = some v ∧
      v = .scalar (.bytes (Doc.encodeHeads (headsOf S))) := by
  rw [hd.root_get rfl] at hv
  obtain ⟨c, hc, hget, -⟩ := A.origin _ _ v rfl hv
  obtain ⟨op, hop, hwrites⟩ := writes_of_footprint rfl hget
  have htarget := target_of_writes hwrites
  obtain ⟨k, hk, S, now, hS, hname, rfl, hops⟩ := h.maker (hd.sub hc) hop htarget
  refine ⟨k, hk, S, hS, hname, hc, hget, ?_⟩
  rw [hops] at hop
  simp only [Doc.labelOps, List.mem_cons, List.not_mem_nil, or_false] at hop
  rcases hop with rfl | rfl | rfl <;> cases htarget
  simpa [Op.writes] using hwrites.symm

/-- Whoever has the label has the history that it is of. -/
theorem Inv.subset_of_label (h : s.Inv L A vaultId) (hd : Held L A vaultId s.made d)
    {S : List Change} (hS : Labelled A vaultId s.made k S) (hk : k.change ∈ d.changes) :
    S ⊆ d.changes := by
  intro c hc
  obtain ⟨head, hhead, hdep⟩ := exists_head hS.intact hc
  obtain ⟨c₁, hc₁, rfl⟩ := hd.intact.history.closed k.change hk head (hS.deps ▸ hhead)
  obtain ⟨c₂, hc₂, heq⟩ := List.mem_map.mp
    (hd.intact.within h.intact hd.sub hc₁ (Depends.mono hS.sub hdep)).2
  rwa [← h.intact.history.unique (hd.sub hc₂) (hS.sub hc) heq]

/-- **The heads of a label fork what its maker saw.** -/
theorem Labelled.fork (hA : A.Local) {S : List Change} (hS : Labelled A vaultId made k S)
    (hd : Intact d.changes) (hsub : S ⊆ d.changes) :
    ∃ past, d.forkAt A (headsOf S) = .ok past ∧ ∀ a, past.root.get a = k.root.get a := by
  have hall : (headsOf S).all (fun h => d.changes.any fun c => c.hash = h) = true := by
    rw [List.all_eq_true]
    intro h hh
    obtain ⟨c, hc, rfl⟩ := List.mem_map.mp (headsOf_subset S hh)
    exact List.any_eq_true.mpr ⟨c, hsub hc, by simp⟩
  refine ⟨_, by rw [Doc.forkAt, if_pos hall], fun a => ?_⟩
  rw [hS.root]
  refine hA.same hS.intact (hd.upTo (headsOf S)) (fun c => ?_) a
  rw [List.mem_reverse, mem_upTo_headsOf hS.intact hd hsub]

theorem restoreToHeads_committed (heads : List ChangeHash) (d : Doc) :
    Doc.restoreToHeads L A heads d = Doc.restoreToHeads L A heads (d.committed 0) := by
  have hheads (d : Doc) : Doc.heads d = .ok (headsOf (d.committed 0).changes) (d.committed 0) := rfl
  have hclosed := Doc.committed_of_closed (Doc.committed_pending d 0) 0
  rw [Doc.restoreToHeads, Program.bind_ok (hheads d), Program.bind_ok (hheads (d.committed 0)),
    hclosed]

/-- **A peer that has the label restores what its maker saw.** -/
theorem Inv.restores (hA : A.Local) (h : s.Inv L A vaultId) {i : Nat} (hi : s.peers[i]? = some d)
    {S : List Change} (hS : Labelled A vaultId s.made k S) (hsub : S ⊆ d.changes)
    (hfair : Fair L A vaultId s (.run i (.restoreToHeads (headsOf S)))) :
    ∃ d', Doc.restoreToHeads L A (headsOf S) d = .ok () d' ∧ SameView L d'.root k.root := by
  have hd := h.peers d (List.mem_of_getElem? hi)
  have hnodup : (((d.committed 0)).changes.map Change.hash).Nodup := by
    obtain ⟨new, hchanges, -⟩ :=
      (LocalOp.restoreToHeads (headsOf S)).records (L := L) (A := A) (d.committed 0)
    have hafter : d.after ((LocalOp.restoreToHeads (headsOf S)).run L A) =
        (d.committed 0).after ((LocalOp.restoreToHeads (headsOf S)).run L A) := by
      show d.after (Doc.restoreToHeads L A (headsOf S)) = _
      rw [Doc.after, restoreToHeads_committed]
      rfl
    obtain ⟨closing, hclosing⟩ := Doc.changes_before_committed d 0
    have hmade := hfair _ (by rw [Team.step, hi]; rfl)
    rw [hafter, hchanges, ← hclosing, List.append_assoc, List.drop_left] at hmade
    have hall := nodup_append_of_subset hd.nodup hd.sub hmade
    rw [← List.append_assoc, hclosing, List.map_append] at hall
    exact (List.nodup_append.mp hall).1
  have hcommitted := hd.sound.committed 0
  have hprefix := (Doc.changes_before_committed d 0).subset
  obtain ⟨past, hfork, hroot⟩ := hS.fork hA (d := d.committed 0) ⟨hcommitted.ordered, hnodup⟩
    (List.Subset.trans hsub hprefix)
  have hpast := Doc.forkAt_sound hcommitted hfork
  have hmap (m : RootMap) : past.root.mapObj m = .ok () := by
    refine Root.mapObj_of_get ?_
    rw [hroot, hS.root]
    exact h.get_rootMap hA hS.intact hS.sub hS.first m
  obtain ⟨files, hfiles⟩ := hpast.rootTyped.listFiles (L := L) hpast.rootComplete (hmap .files)
  obtain ⟨dirs, hdirs⟩ := hpast.rootTyped.listDirectories (L := L) (hmap .directories)
  have hrestorable := Doc.restorable_listed hpast hfiles hdirs
  obtain ⟨_, d', hrun, now, hroot', -⟩ :=
    Doc.restoreToHeads_ends (h.ready hA hd) hfork hfiles hdirs hrestorable
  refine ⟨d', hrun, ?_⟩
  have hview : SameView L d'.root past.root := by
    rw [hroot']
    exact Doc.sameView_restoredRoot (h.ready hA hd) hrestorable hfiles hdirs
  obtain ⟨hviewFiles, hviewDirs⟩ := hview
  rw [Root.liveFiles_congr hroot] at hviewFiles
  rw [Root.liveDirectories_congr hroot] at hviewDirs
  exact ⟨hviewFiles, hviewDirs⟩

/-- Every label that is there can be read. -/
theorem Inv.readLabel (h : s.Inv L A vaultId) (hd : Held L A vaultId s.made d) (name : Str) :
    ∃ l, Doc.readLabel L d.root name = .ok l := by
  unfold Doc.readLabel
  cases hlabel : d.root.get (.label name) with
  | none => exact ⟨none, rfl⟩
  | some v =>
    obtain rfl := hd.sound.rootTyped _ v rfl hlabel
    cases hheads : d.root.get (.labelField name .heads) with
    | none => exact ⟨none, rfl⟩
    | some v =>
      obtain ⟨k, -, S, -, -, -, -, rfl⟩ := h.creation hd hheads
      obtain ⟨createdAt, hcreated⟩ :=
        hd.sound.rootTyped.getInt (L := L) (a := .labelField name .createdAt) rfl fun _ h => h
      simp only [hcreated, Doc.decodeHeads_encodeHeads]
      exact ⟨_, rfl⟩

/-- The fields of a label are written where it is made. -/
theorem Inv.target_label (h : s.Inv L A vaultId) (hc : c ∈ s.made) {op : Op} (hop : op ∈ c.ops)
    {name : Str} {f : LabelField} (htarget : op.target = .labelField name f) :
    ∃ op ∈ c.ops, op.target = .label name := by
  obtain ⟨k, -, S, now, -, -, -, hops⟩ := h.maker hc hop htarget
  exact ⟨.putMap (.label name), by simp [hops, Doc.labelOps], rfl⟩

/-- **A label that no new change deletes or makes again reads as before.** -/
theorem Inv.unchanged (hA : A.Local) (h : s.Inv L A vaultId) {d' : Doc} {name : Str}
    (hd : Held L A vaultId s.made d) (hd' : Held L A vaultId s.made d')
    (hsub : d.changes ⊆ d'.changes)
    (hclean : ∀ c ∈ d'.changes, c ∉ d.changes → ∀ op ∈ c.ops, op.target ≠ .label name)
    {a : Addr} (ha : a = .label name ∨ a = .labelField name .heads) :
    d'.root.get a = d.root.get a := by
  have hentry : a.inEntry = false := by rcases ha with rfl | rfl <;> rfl
  rw [hd.root_get hentry, hd'.root_get hentry]
  refine hA _ _ hd.intact hd'.intact hsub a fun c hc hno op hop => ?_
  have hne := hclean c hc hno
  have hmap : op.target ≠ .rootMap .labels :=
    (h.spares_rootMap (hd'.sub hc) (fun heq => hno (heq ▸ hd.first)) .labels op hop).1
  rcases ha with rfl | rfl
  · exact ⟨hne op hop, by simpa [Addr.ancestors] using hmap⟩
  · refine ⟨fun htarget => ?_, by simpa [Addr.ancestors] using ⟨hne op hop, hmap⟩⟩
    obtain ⟨op', hop', htarget'⟩ := h.target_label (hd'.sub hc) hop htarget
    exact hne op' hop' htarget'

/-- **A label stays restorable.** The heads that `get_label_heads` reads on a peer are those of
what the maker of the label saw. Whatever the peers do from then on, the peer has all they name,
restoring them succeeds and gives the live files and directories that the maker had, and the
label reads the same until a change that deletes it or makes it again arrives. -/
theorem label_restorable (hA : A.Local) {i : Nat} {name : Str} {heads : List ChangeHash}
    (hreach : Machine.Reach (step L A vaultId) (Fair L A vaultId) (start A vaultId) s)
    (hi : s.peers[i]? = some d) (hheads : Doc.getLabelHeads L d.root name = .ok heads) :
    ∃ k ∈ s.creations, k.name = name ∧ k.change ∈ d.changes ∧
      d.root.get (.labelField name .heads) =
        (footprint k.change.ops).get (.labelField name .heads) ∧
      ∀ s', Machine.Reach (step L A vaultId) (Fair L A vaultId) s s' →
        ∃ d', s'.peers[i]? = some d' ∧ (∀ h ∈ heads, ∃ c ∈ d'.changes, c.hash = h) ∧
          (Fair L A vaultId s' (.run i (.restoreToHeads heads)) →
            ∃ d'', Doc.restoreToHeads L A heads d' = .ok () d'' ∧ SameView L d''.root k.root) ∧
          ((∀ c ∈ d'.changes, c ∉ d.changes → ∀ op ∈ c.ops, op.target ≠ .label name) →
            Doc.getLabelHeads L d'.root name = .ok heads) := by
  have hinv := Inv.of_reach hreach
  have hd := hinv.peers d (List.mem_of_getElem? hi)
  obtain ⟨l, hread, rfl⟩ := Doc.getLabelHeads_eq_ok hd.sound.rootTyped hheads
  obtain ⟨hlabel, b, createdAt, hbytes, hdecode, -, hl⟩ :=
    (Doc.readLabel_eq_some hd.sound.rootTyped).mp hread
  obtain ⟨k, hk, S, hS, hname, hchange, hfoot, hv⟩ := hinv.creation hd hbytes
  have hnames : l.heads = headsOf S := by
    have hb : b = Doc.encodeHeads (headsOf S) := by simpa using hv
    rw [hb, Doc.decodeHeads_encodeHeads] at hdecode
    exact (Except.ok.inj hdecode).symm
  have hmine : S ⊆ d.changes := hinv.subset_of_label hd hS hchange
  refine ⟨k, hk, hname, hchange, hbytes.trans hfoot.symm, fun s' hlater => ?_⟩
  obtain ⟨d', hi', hsub⟩ := grown hlater hi
  have hinv' := Inv.of_reach (hreach.trans hlater)
  have hd' := hinv'.peers d' (List.mem_of_getElem? hi')
  have hd₁ : Held L A vaultId s'.made d :=
    ⟨hd.sound, hd.nodup, List.Subset.trans hsub hd'.sub, hd.first, hd.pending⟩
  have hS' : Labelled A vaultId s'.made k S :=
    ⟨hS.intact, List.Subset.trans hmine hd₁.sub, hS.first, hS.root, hS.deps, hS.ops⟩
  refine ⟨d', hi', fun h hh => ?_, fun hfair => ?_, fun hclean => ?_⟩
  · obtain ⟨c, hc, rfl⟩ := List.mem_map.mp (headsOf_subset S (hnames ▸ hh))
    exact ⟨c, hsub (hmine hc), rfl⟩
  · rw [hnames] at hfair ⊢
    exact hinv'.restores hA hi' hS' (List.Subset.trans hmine hsub) hfair
  · have hsame {a : Addr} (ha : a = .label name ∨ a = .labelField name .heads) :
        d'.root.get a = d.root.get a := hinv'.unchanged hA hd₁ hd' hsub hclean ha
    obtain ⟨createdAt', hcreated⟩ :=
      hd'.sound.rootTyped.getInt (L := L) (a := .labelField name .createdAt) rfl fun _ h => h
    have hread' : Doc.readLabel L d'.root name =
        .ok (some ⟨name, l.heads, createdAt'.getD 0⟩) := by
      refine (Doc.readLabel_eq_some hd'.sound.rootTyped).mpr
        ⟨?_, b, createdAt', ?_, hdecode, hcreated, rfl⟩
      · rw [hsame (.inl rfl), hlabel]
      · rw [hsame (.inr rfl), hbytes]
    have hread' := Doc.getLabelHeads_of_read hd'.sound.rootTyped (hinv'.mapObj hA hd' .labels)
      (fun name' _ => hinv'.readLabel hd' name') hread'
    exact hread'

/-- Replaying with the first change under the hash `0`. -/
private def library : Automerge := .arranged (fun _ => .fill 0) []

/-- One peer writes a file and labels it, and another one takes that in. -/
private def labelling : List Act :=
  [.new (.numbered '1' 16), .run 0 (.writeTextFile (txt "x.md") (txt "one")),
    .run 0 (.createLabel (txt "v1")), .new (.numbered '2' 64), .merge 1 0 [.fill 23]]

private def later : List Act := [.run 1 (.deleteFile (txt "x.md"))]

private def fairly (s : Team) (a : Act) : Bool :=
  match step .plain library (txt "vault") s a with
  | some s' => decide (s'.made.map Change.hash).Nodup
  | none => true

private theorem fair_of_fairly (s : Team) (a : Act) (h : fairly s a = true) :
    Fair .plain library (txt "vault") s a := by
  intro s' hs'
  unfold fairly at h
  rw [Option.mem_def.mp hs'] at h
  exact of_decide_eq_true h

/-- What a run leaves. -/
private def seen {α : Type} (acts : List Act) (f : Team → α) : Option α :=
  (Machine.run (step .plain library (txt "vault")) (start library (txt "vault")) acts).map f

private theorem seen_eq {α : Type} {acts : List Act} {f : Team → α} {x : α} {s : Team}
    (hs : Machine.run (step .plain library (txt "vault")) (start library (txt "vault")) acts =
      some s) (h : seen acts f = some x) : f s = x := by
  rw [seen, hs] at h
  exact Option.some.inj h

private theorem ok_of_toOption {α : Type} {x : Except Error α} {a : α}
    (h : x.toOption = some a) : x = .ok a := by
  cases x with
  | error e => cases h
  | ok b => exact congrArg Except.ok (Option.some.inj h)

private theorem reach_of_allowed {acts : List Act} {s : Team}
    (h : Machine.allowed (step .plain library (txt "vault")) fairly
      (start library (txt "vault")) acts = true)
    (hs : Machine.run (step .plain library (txt "vault")) (start library (txt "vault")) acts =
      some s) : Machine.Reach (step .plain library (txt "vault"))
        (Fair .plain library (txt "vault")) (start library (txt "vault")) s :=
  .of_run (.of_allowed fair_of_fairly h) hs

/-- The other peer deletes the file, and gets it back. -/
theorem label_restorable_deleted : ∃ s s' d d' d'' k,
    Machine.run (step .plain library (txt "vault")) (start library (txt "vault")) labelling =
      some s ∧ Machine.run (step .plain library (txt "vault")) s later = some s' ∧
      s.peers[1]? = some d ∧ Doc.getLabelHeads .plain d.root (txt "v1") = .ok [.fill 20] ∧
      s'.peers[1]? = some d' ∧ d'.root.listFilePaths .plain = .ok [] ∧
      k ∈ s.creations ∧ k.root.listFilePaths .plain = .ok [txt "x.md"] ∧
      Doc.restoreToHeads .plain library [.fill 20] d' = .ok () d'' ∧
      SameView .plain d''.root k.root := by
  obtain ⟨s, hs⟩ := Option.isSome_iff_exists.mp (show (Machine.run
    (step .plain library (txt "vault")) (start library (txt "vault")) labelling).isSome = true by
      decide +kernel)
  obtain ⟨s', hs'⟩ := Option.isSome_iff_exists.mp (seen_eq hs (show seen labelling (fun s =>
    (Machine.run (step .plain library (txt "vault")) s later).isSome) = some true by
      decide +kernel))
  have hall : Machine.run (step .plain library (txt "vault")) (start library (txt "vault"))
      (labelling ++ later) = some s' := by rw [Machine.run_append, hs, Option.bind_some, hs']
  have hreach := reach_of_allowed (show Machine.allowed (step .plain library (txt "vault")) fairly
    (start library (txt "vault")) labelling = true by decide +kernel) hs
  have hlater : Machine.Reach (step .plain library (txt "vault"))
      (Fair .plain library (txt "vault")) s s' :=
    .of_run (.of_allowed fair_of_fairly (seen_eq hs (show seen labelling (fun s =>
      Machine.allowed (step .plain library (txt "vault")) fairly s later) = some true by
        decide +kernel))) hs'
  obtain ⟨d, hi, hheads⟩ := Option.map_eq_some_iff.mp (seen_eq hs (show seen labelling (fun s =>
    s.peers[1]?.map fun d => (Doc.getLabelHeads .plain d.root (txt "v1")).toOption) =
      some (some (some [.fill 20])) by decide +kernel))
  obtain ⟨d', hi', hpaths⟩ := Option.map_eq_some_iff.mp (seen_eq hall (show seen
    (labelling ++ later) (fun s => s.peers[1]?.map fun d =>
      (d.root.listFilePaths .plain).toOption) = some (some (some [])) by decide +kernel))
  have hcreated := seen_eq hs (show seen labelling (fun s => s.creations.all fun k =>
    (k.root.listFilePaths .plain).toOption = some [txt "x.md"]) = some true by decide +kernel)
  have hfair := fair_of_fairly _ _ (seen_eq hall (show seen (labelling ++ later) (fun s =>
    fairly s (.run 1 (.restoreToHeads [.fill 20]))) = some true by decide +kernel))
  obtain ⟨k, hk, -, -, -, hrest⟩ := label_restorable (Automerge.local_arranged _ _) hreach hi
    (ok_of_toOption hheads)
  obtain ⟨d₁, hi₁, -, hrestores, -⟩ := hrest s' hlater
  obtain rfl := Option.some.inj (hi'.symm.trans hi₁)
  obtain ⟨d'', hrun, hview⟩ := hrestores hfair
  exact ⟨s, s', d, d', d'', k, hs, hs', hi, ok_of_toOption hheads, hi', ok_of_toOption hpaths,
    hk, ok_of_toOption (of_decide_eq_true (List.all_eq_true.mp hcreated k hk)), hrun, hview⟩

end Team

end AgentSync
