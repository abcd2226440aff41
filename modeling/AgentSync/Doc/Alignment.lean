import Mathlib.Data.List.Flatten
import AgentSync.Doc.Genesis

/-! Merges lose nothing.

Whatever peers of one vault do, the maps of the root stay the objects that the first change made
(`Aligned`), and no two changes share an author's sequence number or the id of a write
(`Replicas.Inv`). So the entries of two peers are in the same maps: a merge has all of both, an
entry that one side left alone is what the other made of it, and peers with the same changes
read the same (`Replicas.merges_lossless`). -/
namespace AgentSync

open Registers (Distinct Forward writesAt)

variable {L : Crates} {A : Automerge} {E : Engine} {vaultId : Str}

/-! ### Histories -/

/-- A change is the first one, or holds what an operation has recorded. -/
def Known (L : Crates) (E : Engine) (vaultId : Str) (c : Authored) : Prop :=
  c = genesis L E vaultId ∨
    (∀ op ∈ c.ops, op.Below) ∧ ∀ w ∈ c.writes, Placed L vaultId c.actor c.ops w

/-- A history of a peer, or one that was saved. -/
structure Kept (L : Crates) (E : Engine) (vaultId : Str) (made log : List Authored) : Prop where
  genesis : genesis L E vaultId ∈ log
  sub : log ⊆ made
  nodup : log.Nodup

theorem mem_writesOf {log : List Authored} {w : Write} :
    w ∈ writesOf log ↔ ∃ c ∈ log, w ∈ c.writes := List.mem_flatMap

theorem writesOf_subset {log log' : List Authored} (h : log ⊆ log') :
    writesOf log ⊆ writesOf log' := fun _ hw => by
  obtain ⟨c, hc, hw⟩ := mem_writesOf.mp hw
  exact mem_writesOf.mpr ⟨c, h hc, hw⟩

theorem writesOf_append (log log' : List Authored) :
    writesOf (log ++ log') = writesOf log ++ writesOf log' := List.flatMap_append

theorem genesis_mem_writes {w : Write} (h : w ∈ (genesis L E vaultId).writes) :
    (ofLex w.id).2 = genesisActor L vaultId ∧ w.obj = none ∧
      ∀ m, w.key = .rootMap m → w = rootWrite L vaultId m := by
  rw [genesis_writes] at h
  simp only [List.mem_cons, List.not_mem_nil, or_false] at h
  rcases h with rfl | rfl | rfl | rfl | rfl <;> refine ⟨rfl, rfl, fun m hm => ?_⟩ <;> cases m <;>
    first | rfl | cases hm

theorem rootWrite_mem (m : RootMap) : rootWrite L vaultId m ∈ (genesis L E vaultId).writes := by
  rw [genesis_writes]
  cases m <;> simp

namespace Known

variable {c : Authored} {w : Write}

theorem actor (h : Known L E vaultId c) (hw : w ∈ c.writes) : (ofLex w.id).2 = c.actor := by
  rcases h with rfl | ⟨-, hplaced⟩
  · exact (genesis_mem_writes hw).1
  · exact (hplaced w hw).actor

theorem rootMap (h : Known L E vaultId c) (hw : w ∈ c.writes) {m : RootMap}
    (hkey : w.key = .rootMap m) : w = rootWrite L vaultId m := by
  rcases h with rfl | ⟨hbelow, hplaced⟩
  · exact (genesis_mem_writes hw).2.2 m hkey
  · have hp := hplaced w hw
    have htarget := (hbelow w.act hp.act).target
    rw [← hp.key, hkey] at htarget
    exact absurd rfl htarget

end Known

theorem Kept.aligned {made log : List Authored} (h : Kept L E vaultId made log)
    (hknown : ∀ c ∈ made, Known L E vaultId c) : Aligned L vaultId (writesOf log) where
  made := fun m => mem_writesOf.mpr ⟨_, h.genesis, rootWrite_mem m⟩
  once := fun w hw m hkey => by
    obtain ⟨c, hc, hw⟩ := mem_writesOf.mp hw
    exact (hknown c (h.sub hc)).rootMap hw hkey

theorem writesOf_singleton (c : Authored) : writesOf [c] = c.writes := List.flatMap_singleton ..

theorem Kept.mono {made made' log : List Authored} (h : Kept L E vaultId made log)
    (hsub : made ⊆ made') : Kept L E vaultId made' log :=
  ⟨h.genesis, List.Subset.trans h.sub hsub, h.nodup⟩

/-- A part of a history without repetitions has each write once. -/
theorem nodup_ids {made log : List Authored} (hmade : ((writesOf made).map (·.id)).Nodup)
    (hsub : log ⊆ made) (hnodup : log.Nodup) : ((writesOf log).map (·.id)).Nodup := by
  obtain ⟨part, hperm, hpart⟩ := List.subperm_of_subset hnodup hsub
  have hwrites : (writesOf part).Sublist (writesOf made) := hpart.flatMap _
  exact ((hperm.flatMap_right Authored.writes).map (·.id)).nodup_iff.mp
    (hmade.sublist (hwrites.map _))

theorem distinct_of_nodup {ws : List Write} (h : (ws.map (·.id)).Nodup) : Distinct ws :=
  fun _ hv _ hw heq => List.inj_on_of_nodup_map h hv hw heq

/-! ### The invariant -/

namespace Replicas

variable {s : Replicas} {p : Replica} {i : Nat}

/-- What holds of a running peer: all the changes of its actor are its own. -/
structure Held (L : Crates) (E : Engine) (vaultId : Str) (made : List Authored) (p : Replica) :
    Prop where
  kept : Kept L E vaultId made p.log
  own : ∀ c ∈ made, c.actor = p.actor → c ∈ p.log ∧ c.seq ≤ countOf p.log p.actor
  pending : ∀ op ∈ p.pending, op.Below

/-- No two peers have one actor. -/
def OwnActors (peers : List Replica) : Prop :=
  ∀ (i j : Nat) (p q : Replica), peers[i]? = some p → peers[j]? = some q →
    p.actor = q.actor → i = j

/-- A peer is replaced by one under its actor or a new one. -/
theorem OwnActors.set {peers : List Replica} (h : OwnActors peers) {p' : Replica}
    (hactor : ∀ j q, peers[j]? = some q → q.actor = p'.actor → j = i) :
    OwnActors (peers.set i p') := by
  intro j k q r hq hr heq
  rw [List.getElem?_set] at hq hr
  split at hq <;> split at hr
  next hj hk => rw [← hj, ← hk]
  next hj hk =>
    split at hq
    next =>
      obtain rfl := Option.some.inj hq
      rw [← hj]
      exact (hactor k r hr heq.symm).symm
    next => cases hq
  next hj hk =>
    split at hr
    next =>
      obtain rfl := Option.some.inj hr
      rw [← hk]
      exact hactor j q hq heq
    next => cases hr
  next => exact h j k q r hq hr heq

structure Inv (L : Crates) (E : Engine) (vaultId : Str) (s : Replicas) : Prop where
  first : genesis L E vaultId ∈ s.made
  known : ∀ c ∈ s.made, Known L E vaultId c
  seqs : ∀ c ∈ s.made, ∀ c' ∈ s.made, c.actor = c'.actor → c.seq = c'.seq → c = c'
  ids : ((writesOf s.made).map (·.id)).Nodup
  inside : ∀ w ∈ writesOf s.made, Inside (writesOf s.made) w
  peers : ∀ p ∈ s.peers, Held L E vaultId s.made p
  saves : ∀ log ∈ s.saves, Kept L E vaultId s.made log
  actors : OwnActors s.peers

theorem Inv.start : (start L E vaultId).Inv L E vaultId where
  first := List.mem_singleton.mpr rfl
  known := fun c hc => .inl (List.mem_singleton.mp hc)
  seqs := fun c hc c' hc' _ _ => by rw [List.mem_singleton.mp hc, List.mem_singleton.mp hc']
  ids := by
    have hwrites : writesOf (Replicas.start L E vaultId).made = (genesis L E vaultId).writes :=
      List.flatMap_singleton ..
    rw [hwrites, genesis_writes]
    simp [rootWrite, rootObject]
  inside := fun w hw i hi => by
    obtain ⟨c, hc, hw⟩ := mem_writesOf.mp hw
    rw [List.mem_singleton.mp hc] at hw
    rw [(genesis_mem_writes hw).2.1] at hi
    cases hi
  peers := fun p hp => by cases hp
  saves := fun log hlog => by cases hlog
  actors := fun i j p q hp => by simp [Replicas.start] at hp

/-- A peer is replaced by one that holds as much. -/
theorem Inv.put (h : s.Inv L E vaultId) {p' : Replica} (hp' : Held L E vaultId s.made p')
    (hactor : ∀ j q, s.peers[j]? = some q → q.actor = p'.actor → j = i) :
    {s with peers := s.peers.set i p'}.Inv L E vaultId where
  first := h.first
  known := h.known
  seqs := h.seqs
  ids := h.ids
  inside := h.inside
  peers := fun q hq => by
    rcases List.mem_or_eq_of_mem_set hq with hq | rfl
    · exact h.peers q hq
    · exact hp'
  saves := h.saves
  actors := h.actors.set hactor

theorem countOf_append (log log' : List Authored) (actor : Actor) :
    countOf (log ++ log') actor = countOf log actor + countOf log' actor := by
  simp [countOf]

section Author

variable {time : Int} {ops : List Op}

/-- The peer's own changes are the only ones of its actor, so its next one is new. -/
theorem Held.seq_lt (hp : Held L E vaultId s.made p) :
    ∀ c ∈ s.made, c.actor = p.actor → c.seq < (author E p.log p.actor time ops).seq :=
  fun c hc hactor => Nat.lt_succ_of_le (hp.own c hc hactor).2

theorem Held.new (hp : Held L E vaultId s.made p) : author E p.log p.actor time ops ∉ s.made :=
  fun hmem => absurd (hp.seq_lt _ hmem rfl) (lt_irrefl _)

theorem Held.committed (hp : Held L E vaultId s.made p) :
    Held L E vaultId (s.made ++ [author E p.log p.actor time ops])
      {p with log := p.log ++ [author E p.log p.actor time ops]} := by
  have hkept := hp.kept.mono (List.subset_append_left s.made [author E p.log p.actor time ops])
  have hcount : countOf [author E p.log p.actor time ops] p.actor = 1 := by
    simp [countOf, author]
  refine ⟨⟨List.mem_append_left _ hp.kept.genesis, ?_, ?_⟩, fun c hc hactor => ?_, hp.pending⟩
  · exact List.append_subset.mpr ⟨hkept.sub, List.subset_append_right _ _⟩
  · refine List.nodup_append.mpr ⟨hp.kept.nodup, List.nodup_singleton _, fun c hc c' hc' => ?_⟩
    rw [List.mem_singleton.mp hc']
    rintro rfl
    exact hp.new (hp.kept.sub hc)
  · rcases List.mem_append.mp hc with hc | hc
    · obtain ⟨hin, hle⟩ := hp.own c hc hactor
      refine ⟨List.mem_append_left _ hin, ?_⟩
      rw [countOf_append]
      exact Nat.le_add_right_of_le hle
    · rw [List.mem_singleton.mp hc]
      refine ⟨List.mem_append_right _ (List.mem_singleton.mpr rfl), ?_⟩
      rw [countOf_append, hcount]
      rfl

theorem Inv.placed (h : s.Inv L E vaultId) (hp : Held L E vaultId s.made p)
    (hops : ∀ op ∈ ops, op.Below) : ∀ w ∈ (author E p.log p.actor time ops).writes,
      Placed L vaultId p.actor ops w :=
  recordAll_placed (hp.kept.aligned h.known) (fun _ hv => Nat.lt_succ_of_le (clockOf_le_maxOp hv))
    hops

/-- The clock of a new write is beyond all that its actor has used. -/
theorem Inv.ids_committed (h : s.Inv L E vaultId) (hp : Held L E vaultId s.made p)
    (hops : ∀ op ∈ ops, op.Below) :
    ((writesOf (s.made ++ [author E p.log p.actor time ops])).map (·.id)).Nodup := by
  have hplaced : ∀ w ∈ (author E p.log p.actor time ops).writes,
      Placed L vaultId p.actor ops w := h.placed hp hops
  rw [writesOf_append, writesOf_singleton, List.map_append, List.nodup_append]
  refine ⟨h.ids, ?_, fun x hx y hy hxy => ?_⟩
  · refine List.pairwise_map.mpr (recordAll_pairwise.1.imp fun hlt heq => ?_)
    rw [clockOf, clockOf, heq] at hlt
    exact lt_irrefl _ hlt
  · obtain ⟨v, hv, rfl⟩ := List.mem_map.mp hx
    obtain ⟨w, hw, rfl⟩ := List.mem_map.mp hy
    obtain ⟨c, hc, hv⟩ := mem_writesOf.mp hv
    have hactor : c.actor = p.actor := by
      rw [← (h.known c hc).actor hv, hxy, (hplaced w hw).actor]
    have hle : clockOf v ≤ maxOp p.log :=
      clockOf_le_maxOp (mem_writesOf.mpr ⟨c, (hp.own c hc hactor).1, hv⟩)
    have hlt : maxOp p.log < clockOf w := recordAll_pairwise.2 w hw
    rw [clockOf] at hle hlt
    rw [hxy] at hle
    omega

theorem Inv.inside_committed (h : s.Inv L E vaultId) (hp : Held L E vaultId s.made p) :
    ∀ w ∈ writesOf (s.made ++ [author E p.log p.actor time ops]),
      Inside (writesOf (s.made ++ [author E p.log p.actor time ops])) w := by
  rw [writesOf_append, writesOf_singleton, List.forall_mem_append]
  refine ⟨fun w hw => (h.inside w hw).mono (List.subset_append_left _ _), fun w hw => ?_⟩
  refine (recordAll_inside w hw).mono (List.append_subset.mpr ⟨fun v hv => ?_, ?_⟩)
  · exact List.mem_append_left _ (writesOf_subset hp.kept.sub hv)
  · exact List.subset_append_right _ _

/-- **One transaction is committed.** -/
theorem Inv.committed (h : s.Inv L E vaultId) (hi : s.peers[i]? = some p)
    (hops : ∀ op ∈ ops, op.Below) :
    (s.recorded i p [author E p.log p.actor time ops] p.pending).Inv L E vaultId := by
  have hp := h.peers p (List.mem_of_getElem? hi)
  have hsub : s.made ⊆ s.made ++ [author E p.log p.actor time ops] :=
    List.subset_append_left _ _
  refine ⟨hsub h.first, ?_, fun c hc c' hc' hactor heq => ?_, h.ids_committed hp hops,
    h.inside_committed hp, fun q hq => ?_, fun log hlog => (h.saves log hlog).mono hsub,
    h.actors.set fun j q hj hactor => h.actors j i q p hj hi hactor⟩
  · show ∀ c ∈ s.made ++ _, _
    rw [List.forall_mem_append, List.forall_mem_singleton]
    exact ⟨h.known, .inr ⟨hops, h.placed hp hops⟩⟩
  · rcases List.mem_append.mp hc with hc | hc <;> rcases List.mem_append.mp hc' with hc' | hc'
    · exact h.seqs c hc c' hc' hactor heq
    · rw [List.mem_singleton.mp hc'] at hactor heq
      exact absurd heq (hp.seq_lt c hc hactor).ne
    · rw [List.mem_singleton.mp hc] at hactor heq
      exact absurd heq (hp.seq_lt c' hc' hactor.symm).ne'
    · rw [List.mem_singleton.mp hc, List.mem_singleton.mp hc']
  · obtain ⟨j, hj⟩ := List.mem_iff_getElem?.mp hq
    rw [recorded, List.getElem?_set] at hj
    split at hj
    next =>
      split at hj
      next =>
        rw [← Option.some.inj hj]
        exact hp.committed
      next => cases hj
    next hne =>
      have hq := h.peers q (List.mem_of_getElem? hj)
      refine ⟨hq.kept.mono hsub, fun c hc hactor => ?_, hq.pending⟩
      rcases List.mem_append.mp hc with hc | hc
      · exact hq.own c hc hactor
      · rw [List.mem_singleton.mp hc] at hactor
        exact absurd (h.actors i j p q hi hj hactor) hne

end Author

/-- What a transaction still holds changes. -/
theorem Inv.pend (h : s.Inv L E vaultId) (hi : s.peers[i]? = some p) {pending : List Op}
    (hpending : ∀ op ∈ pending, op.Below) :
    {s with peers := s.peers.set i {p with pending := pending}}.Inv L E vaultId := by
  have hp := h.peers p (List.mem_of_getElem? hi)
  exact h.put ⟨hp.kept, hp.own, hpending⟩ fun j q hj hactor => h.actors j i q p hj hi hactor

theorem recorded_nil (s : Replicas) (i : Nat) (p : Replica) (pending : List Op) :
    s.recorded i p [] pending =
      {s with peers := s.peers.set i {p with pending := pending}} := by
  simp [recorded]

/-- **Transactions are committed one after the other.** -/
theorem Inv.committedAll (h : s.Inv L E vaultId) (hi : s.peers[i]? = some p) (cs : List Change)
    (hops : ∀ c ∈ cs, ∀ op ∈ c.ops, op.Below) {pending : List Op}
    (hpending : ∀ op ∈ pending, op.Below) :
    (s.recorded i p (authorAll E p.log p.actor cs) pending).Inv L E vaultId := by
  induction cs generalizing s p with
  | nil =>
    rw [authorAll, recorded_nil]
    exact h.pend hi hpending
  | cons c rest ih =>
    have hfirst : (s.recorded i p [author E p.log p.actor c.timestamp c.ops]
        p.pending).Inv L E vaultId := h.committed hi (hops c List.mem_cons_self)
    have hlt := (List.getElem?_eq_some_iff.mp hi).1
    have hrest := ih hfirst (List.getElem?_set_self hlt)
      fun c' hc' => hops c' (List.mem_cons_of_mem _ hc')
    simpa [recorded, authorAll, List.append_assoc] using hrest

theorem Inv.closing (h : s.Inv L E vaultId) (hi : s.peers[i]? = some p) :
    (s.recorded i p (p.closing E) []).Inv L E vaultId := by
  have hp := h.peers p (List.mem_of_getElem? hi)
  unfold Replica.closing
  split
  next =>
    rw [recorded_nil]
    exact h.pend hi (by simp)
  next =>
    have hnone : ∀ op ∈ ([] : List Op), op.Below := by simp
    exact h.committedAll hi [⟨.fill 0, [], 0, p.pending⟩]
      (List.forall_mem_singleton.mpr hp.pending) hnone

/-- A peer takes in changes of others. -/
theorem Inv.take (h : s.Inv L E vaultId) (hi : s.peers[i]? = some p) {part : List Authored}
    (hpart : part ⊆ s.made) (hnodup : part.Nodup) :
    {s with peers := s.peers.set i (p.take E part)}.Inv L E vaultId := by
  have hp := h.peers p (List.mem_of_getElem? hi)
  have hmissing : p.missing E part ⊆ part := fun _ hc => List.mem_of_mem_filter hc
  refine h.put ⟨⟨?_, ?_, ?_⟩, fun c hc hactor => ?_, hp.pending⟩
    fun j q hj hactor => h.actors j i q p hj hi hactor
  · exact List.mem_append_left _ hp.kept.genesis
  · exact List.append_subset.mpr ⟨hp.kept.sub, List.Subset.trans hmissing hpart⟩
  · refine List.nodup_append.mpr ⟨hp.kept.nodup, hnodup.filter _, fun c hc c' hc' heq => ?_⟩
    have hany := (List.mem_filter.mp hc').2
    simp only [Bool.not_eq_true', List.any_eq_false, decide_eq_true_eq] at hany
    exact hany c hc (by rw [heq])
  · obtain ⟨hin, hle⟩ := hp.own c hc hactor
    refine ⟨List.mem_append_left _ hin, ?_⟩
    show c.seq ≤ countOf (p.log ++ _) p.actor
    rw [countOf_append]
    exact Nat.le_add_right_of_le hle

/-- What a peer has after it took in changes. -/
theorem mem_take {c : Authored} {part : List Authored}
    (hhash : ∀ c ∈ s.made, ∀ c' ∈ s.made, E.hash c = E.hash c' → c = c')
    (hlog : p.log ⊆ s.made) (hpart : part ⊆ s.made) :
    c ∈ (p.take E part).log ↔ c ∈ p.log ∨ c ∈ part := by
  rw [Replica.take, List.mem_append, Replica.missing, List.mem_filter]
  refine ⟨fun h => h.imp id And.left, fun h => ?_⟩
  by_cases hin : c ∈ p.log
  · exact .inl hin
  · have hc := h.resolve_left hin
    refine .inr ⟨hc, ?_⟩
    simp only [Bool.not_eq_true', List.any_eq_false, decide_eq_true_eq]
    intro c' hc' heq
    rw [hhash c' (hlog hc') c (hpart hc) heq] at hc'
    exact hin hc'

/-- A peer starts, or starts again, under a new actor. -/
theorem held_start {made log : List Authored} {actor : Actor} (hlog : Kept L E vaultId made log)
    (hnew : ∀ c ∈ made, c.actor ≠ actor) : Held L E vaultId made (Replica.mk actor log []) where
  kept := hlog
  own := fun c hc hactor => absurd hactor (hnew c hc)
  pending := fun op hop => by cases hop

theorem Inv.join (h : s.Inv L E vaultId) {log : List Authored} {actor : Actor}
    (hlog : Kept L E vaultId s.made log) (hpeers : ∀ p ∈ s.peers, p.actor ≠ actor)
    (hmade : ∀ c ∈ s.made, c.actor ≠ actor) :
    {s with peers := s.peers ++ [Replica.mk actor log []]}.Inv L E vaultId where
  first := h.first
  known := h.known
  seqs := h.seqs
  ids := h.ids
  inside := h.inside
  peers := fun q hq => by
    rcases List.mem_append.mp hq with hq | hq
    · exact h.peers q hq
    · rw [List.mem_singleton.mp hq]
      exact held_start hlog hmade
  saves := h.saves
  actors := fun j k q r hq hr heq => by
    rw [List.getElem?_append] at hq hr
    have hlast {n : Nat} {q : Replica}
        (h : [(⟨actor, log, []⟩ : Replica)][n - s.peers.length]? = some q) :
        n - s.peers.length = 0 ∧ q.actor = actor := by
      obtain ⟨hlt, rfl⟩ := List.getElem?_eq_some_iff.mp h
      have hzero : n - s.peers.length = 0 := by simpa using hlt
      exact ⟨hzero, by simp [hzero]⟩
    split at hq <;> split at hr
    next => exact h.actors j k q r hq hr heq
    next =>
      rw [(hlast hr).2] at heq
      exact absurd heq (hpeers q (List.mem_of_getElem? hq))
    next =>
      rw [(hlast hq).2] at heq
      exact absurd heq.symm (hpeers r (List.mem_of_getElem? hr))
    next => have := (hlast hq).1; have := (hlast hr).1; omega

/-- Two peers close their transactions. -/
theorem Inv.closed {j : Nat} {q : Replica} (h : s.Inv L E vaultId) (hi : s.peers[i]? = some p)
    (hj : s.peers[j]? = some q) (hne : i ≠ j) : (s.closed E i j p q).Inv L E vaultId ∧
      (s.closed E i j p q).peers[i]? = some (p.closed E) ∧
      (s.closed E i j p q).peers[j]? = some (q.closed E) := by
  have hlt := (List.getElem?_eq_some_iff.mp hi).1
  have hlt' := (List.getElem?_eq_some_iff.mp hj).1
  have hfirst := h.closing hi
  have hj' : (s.recorded i p (p.closing E) []).peers[j]? = some q := by
    rw [recorded, List.getElem?_set_ne hne, hj]
  refine ⟨hfirst.closing hj', ?_, ?_⟩
  · rw [Replicas.closed, recorded, List.getElem?_set_ne (Ne.symm hne), recorded]
    exact List.getElem?_set_self hlt
  · rw [Replicas.closed, recorded, recorded]
    exact List.getElem?_set_self (by simpa using hlt')

/-- What a merge takes in is there, and each change once. -/
theorem Inv.part (h : s.Inv L E vaultId) {j : Nat} {q : Replica} (hj : s.peers[j]? = some q)
    (wanted : Authored → Bool) :
    q.log.filter wanted ⊆ s.made ∧ (q.log.filter wanted).Nodup := by
  have hq := h.peers q (List.mem_of_getElem? hj)
  exact ⟨fun c hc => hq.kept.sub (List.mem_of_mem_filter hc), hq.kept.nodup.filter _⟩

/-- **Every step keeps the histories aligned.** -/
theorem Inv.step {a : Act} {s' : Replicas} (h : s.Inv L E vaultId)
    (hfair : Fair L A E vaultId s a) (hs : step L A E vaultId s a = some s') :
    s'.Inv L E vaultId := by
  obtain ⟨hfresh, hhash⟩ := hfair
  have hhash := hhash s' hs
  cases a with
  | new actor =>
    obtain rfl := Option.some.inj hs
    obtain ⟨hpeers, hmade⟩ := hfresh actor rfl
    refine h.join ⟨List.mem_singleton.mpr rfl, fun c hc => ?_, List.nodup_singleton _⟩ hpeers hmade
    rw [List.mem_singleton.mp hc]
    exact h.first
  | load bytes actor =>
    simp only [Replicas.step] at hs
    split at hs
    next log hlog =>
      obtain rfl := Option.some.inj hs
      obtain ⟨hpeers, hmade⟩ := hfresh actor rfl
      exact h.join (h.saves log (List.mem_of_getElem? hlog)) hpeers hmade
    next => cases hs
  | reload i bytes actor =>
    simp only [Replicas.step] at hs
    split at hs
    next log hp hlog =>
      obtain rfl := Option.some.inj hs
      obtain ⟨hpeers, hmade⟩ := hfresh actor rfl
      refine h.put (held_start (h.saves log (List.mem_of_getElem? hlog)) hmade)
        fun j q hj hactor => absurd hactor (hpeers q (List.mem_of_getElem? hj))
    next => cases hs
  | run i op supply =>
    simp only [Replicas.step] at hs
    split at hs
    next p hp =>
      split at hs
      next new pending hrun =>
        obtain rfl := Option.some.inj hs
        simp only [Replica.run] at hrun
        split at hrun
        next =>
          obtain ⟨rfl, rfl⟩ := Prod.mk.inj (Option.some.inj hrun)
          obtain ⟨cs, hchanges, hops⟩ := op.records (L := L) (A := A) (p.doc E supply)
          have hdrop : ((p.doc E supply).after (op.run L A)).changes.drop p.log.length = cs := by
            have hlength : (p.doc E supply).changes.length = p.log.length := List.length_map ..
            rw [hchanges, ← hlength, List.drop_left]
          have hpending := (h.peers p (List.mem_of_getElem? hp)).pending
          have hbelow (op : Op) (hop : op ∈ (p.doc E supply).pending ∨ op.Below) : op.Below :=
            hop.elim (hpending op) id
          rw [hdrop]
          exact h.committedAll hp cs (fun c hc op hop => hbelow op (hops op (.inr ⟨c, hc, hop⟩)))
            fun op hop => hbelow op (hops op (.inl hop))
        next => cases hrun
      next => cases hs
    next => cases hs
  | save i =>
    simp only [Replicas.step] at hs
    split at hs
    next p hp =>
      obtain rfl := Option.some.inj hs
      have hclosed := h.closing hp
      have hlt := (List.getElem?_eq_some_iff.mp hp).1
      have hkept := (hclosed.peers _ (List.mem_of_getElem? (List.getElem?_set_self hlt))).kept
      refine ⟨hclosed.first, hclosed.known, hclosed.seqs, hclosed.ids, hclosed.inside,
        hclosed.peers, fun log hlog => ?_, hclosed.actors⟩
      rcases List.mem_append.mp hlog with hlog | hlog
      · exact hclosed.saves log hlog
      · rw [List.mem_singleton.mp hlog]
        exact hkept
    next => cases hs
  | merge i j =>
    simp only [Replicas.step] at hs
    split at hs
    next p q hp hq =>
      split at hs
      next => cases hs
      next hne =>
        obtain rfl := Option.some.inj hs
        obtain ⟨hclosed, hi, hj⟩ := h.closed hp hq hne
        obtain ⟨hpart, hnodup⟩ := hclosed.part hj fun _ => true
        rw [List.filter_true] at hpart hnodup
        exact hclosed.take hi hpart hnodup
    next => cases hs
  | receive i j wanted =>
    simp only [Replicas.step] at hs
    split at hs
    next p q hp hq =>
      split at hs
      next hne =>
        obtain rfl := Option.some.inj hs
        obtain ⟨hclosed, hi, hj⟩ := h.closed hp hq hne.1
        obtain ⟨hpart, hnodup⟩ := hclosed.part hj fun c => wanted.contains (E.hash c)
        exact hclosed.take hi hpart hnodup
      next => cases hs
    next => cases hs

theorem Inv.of_reach
    (h : Machine.Reach (Replicas.step L A E vaultId) (Fair L A E vaultId)
      (Replicas.start L E vaultId) s) : s.Inv L E vaultId :=
  h.invariant .start fun _ _ _ => .step

end Replicas

/-! ### Reading -/

namespace Root

variable {r r' : Root}

theorem keys_perm (h : ∀ a, r.get a = r'.get a) : r.keys.Perm r'.keys := by
  refine (List.perm_ext_iff_of_nodup r.keys_nodup r'.keys_nodup).mpr fun a => ?_
  have hget : (r.get a).isSome = (r'.get a).isSome := by rw [h]
  have hmem (r : Root) : a ∈ r.keys ↔ (r.get a).isSome = true := AList.lookup_isSome.symm
  rw [hmem, hmem, hget]

theorem sort_keys_congr (h : ∀ a, r.get a = r'.get a) (f : Addr → Option Str) :
    (r.keys.filterMap f).insertionSort (· ≤ ·) = (r'.keys.filterMap f).insertionSort (· ≤ ·) := by
  have hperm : (r.keys.filterMap f).Perm (r'.keys.filterMap f) := (keys_perm h).filterMap f
  refine List.Perm.eq_of_pairwise' (r := (· ≤ ·)) (List.pairwise_insertionSort _ _)
    (List.pairwise_insertionSort _ _) ?_
  exact (List.perm_insertionSort _ _).trans (hperm.trans (List.perm_insertionSort _ _).symm)

theorem listFiles_congr (h : ∀ a, r.get a = r'.get a) : r.listFiles L = r'.listFiles L := by
  have hmap : r.mapObj .files = r'.mapObj .files := mapObj_congr (h _)
  have hmeta (fid : Str) : r.readFileMeta L fid = r'.readFileMeta L fid :=
    readFileMeta_congr hmap fun b _ => h b
  have hin (fids : List Str) : r.liveFilesIn L fids = r'.liveFilesIn L fids := by
    induction fids with
    | nil => rfl
    | cons fid rest ih => rw [liveFilesIn, liveFilesIn, hmeta, ih]
  have hkeys : r.fileKeys = r'.fileKeys := sort_keys_congr h _
  rw [listFiles, listFiles, hmap, hkeys, hin]

theorem readFileId_congr (h : ∀ a, r.get a = r'.get a) (fid : Str) :
    r.readFileId fid = r'.readFileId fid := by
  have hmap : r.mapObj .files = r'.mapObj .files := mapObj_congr (h _)
  have hsame : SameFile fid r r' := fun b _ => h b
  simp only [readFileId, hmap, hasObject_congr (h _), getText_congr hsame]

theorem listDirectories_congr (h : ∀ a, r.get a = r'.get a) :
    r.listDirectories L = r'.listDirectories L := by
  have hmap : r.mapObj .directories = r'.mapObj .directories := mapObj_congr (h _)
  have hin (dids : List Str) : r.liveDirectoriesIn L dids = r'.liveDirectoriesIn L dids := by
    induction dids with
    | nil => rfl
    | cons did rest ih =>
      have hmeta : r.readDirectoryMeta L did = r'.readDirectoryMeta L did :=
        readDirectoryMeta_congr fun b _ => h b
      rw [liveDirectoriesIn, liveDirectoriesIn, hmeta, ih]
  have hkeys : r.dirKeys = r'.dirKeys := sort_keys_congr h _
  rw [listDirectories, listDirectories, hmap, hkeys, hin]

/-- **Documents with the same registers show the same entries.** -/
theorem liveFiles_congr (h : ∀ a, r.get a = r'.get a) : r.liveFiles L = r'.liveFiles L := by
  have hfile : r.liveFile = r'.liveFile := by
    funext m
    rw [liveFile, liveFile, Doc.pastText, Doc.pastText, readFileId_congr h]
  rw [liveFiles, liveFiles, listFiles_congr h, hfile]

theorem liveDirectories_congr (h : ∀ a, r.get a = r'.get a) :
    r.liveDirectories L = r'.liveDirectories L := by
  rw [liveDirectories, liveDirectories, listDirectories_congr h]

end Root

theorem mem_of_valueAt {ws : List Write} {a : Addr} (h : valueAt E ws a ≠ none) :
    ∃ w ∈ ws, w.key = a := by
  unfold valueAt at h
  split at h
  next => exact absurd rfl h
  next w hw => exact ⟨w, Registers.mem_of_value hw⟩

/-- The content is what the registers hold. -/
theorem get_contentOf (ws : List Write) (a : Addr) : (contentOf E ws).get a = valueAt E ws a := by
  have hfold (as : List Addr) :
      Root.get (as.foldr (addValue E ws) ∅) a = if a ∈ as then valueAt E ws a else none := by
    induction as with
    | nil => simp
    | cons b rest ih =>
      rw [List.foldr_cons]
      by_cases hab : a = b
      · subst hab
        rw [if_pos List.mem_cons_self, addValue]
        cases hv : valueAt E ws a with
        | some v => exact AList.lookup_insert _
        | none =>
          rw [hv] at ih
          simpa using ih
      · have hmem : (a ∈ b :: rest) = (a ∈ rest) := by simp [hab]
        simp only [hmem]
        rw [← ih, addValue]
        cases valueAt E ws b with
        | some v => exact AList.lookup_insert_ne hab
        | none => rfl
  rw [contentOf, hfold]
  split
  next => rfl
  next hno =>
    by_contra hne
    obtain ⟨w, hw, hkey⟩ := mem_of_valueAt (Ne.symm hne)
    exact hno (List.mem_map.mpr ⟨w, hw, hkey⟩)

/-- **What is read at an address is read off the writes on the way to it**, and a text off the
edits of it. -/
theorem valueAt_congr {ws ws' : List Write} (hws : Distinct ws) (hws' : Distinct ws') {a : Addr}
    (h : ∀ k ∈ a :: a.ancestors, ∀ o w, w ∈ writesAt ws o k ↔ w ∈ writesAt ws' o k)
    (hedits : ∀ v ∈ ws, v.key = a → ∀ fid, v.act = .putText fid →
      ∀ e : Write, e.obj = some v.id → (e ∈ ws ↔ e ∈ ws')) :
    valueAt E ws a = valueAt E ws' a := by
  have hvalue : Registers.value Op.erases Op.makes ws a a.ancestors =
      Registers.value Op.erases Op.makes ws' a a.ancestors := Registers.value_congr hws hws' h
  unfold valueAt
  rw [← hvalue]
  cases hv : Registers.value Op.erases Op.makes ws a a.ancestors with
  | none => rfl
  | some v =>
    obtain ⟨hin, hkey⟩ := Registers.mem_of_value hv
    cases hact : v.act with
    | putText fid =>
      have htext : (ws.filter fun e => e.obj = some v.id).toFinset =
          (ws'.filter fun e => e.obj = some v.id).toFinset := by
        ext e
        simp only [List.mem_toFinset, List.mem_filter, decide_eq_true_eq]
        exact and_congr_left fun hobj => hedits v hin hkey fid hact e hobj
      simp only [hact, htext]
    | _ => simp only [hact]

namespace Replicas

variable {s : Replicas}

/-- A history with all that is known of it. -/
theorem Inv.distinct (h : s.Inv L E vaultId) {log : List Authored}
    (hlog : Kept L E vaultId s.made log) : Distinct (writesOf log) :=
  distinct_of_nodup (nodup_ids h.ids hlog.sub hlog.nodup)

/-- **An entry is there when it was written at all**: it is in the one map of the root, and
nothing takes it out. -/
theorem Inv.entry (h : s.Inv L E vaultId) {log : List Authored}
    (hlog : Kept L E vaultId s.made log) {a : Addr} {m : RootMap} (ha : a.ancestors = [.rootMap m])
    (herase : a.erasable = false) :
    valueAt E (writesOf log) a ≠ none ↔ ∃ w ∈ writesOf log, w.key = a := by
  refine ⟨mem_of_valueAt, fun ⟨w, hw, hkey⟩ => ?_⟩
  have haligned := hlog.aligned h.known
  have hplaced (v : Write) (hv : v ∈ writesOf log) (hvkey : v.key = a) :
      v.act.target = a ∧ v.act.Below ∧ Forward v ∧
        v.obj = some (rootObject L vaultId m) := by
    obtain ⟨c, hc, hv⟩ := mem_writesOf.mp hv
    rcases h.known c (hlog.sub hc) with rfl | ⟨hbelow, hplaced⟩
    · rw [genesis_writes] at hv
      simp only [List.mem_cons, List.not_mem_nil, or_false] at hv
      rcases hv with rfl | rfl | rfl | rfl | rfl <;> subst hvkey <;> cases ha
    · have hp := hplaced v hv
      exact ⟨hp.key ▸ hvkey, hbelow _ hp.act, hp.forward, hp.home m (hvkey ▸ ha)⟩
  have hlocate : Registers.locate Op.erases Op.makes (writesOf log) a.ancestors =
      some (some (rootObject L vaultId m)) := by
    rw [ha]
    exact haligned.locate m
  have hnoErase (v : Write) (hv : v ∈ writesOf log) (hvkey : v.key = a) :
      Op.erases v.act = false := by
    obtain ⟨htarget, hbelow, -⟩ := hplaced v hv hvkey
    cases hact : v.act with
    | delete b =>
      rw [hact] at htarget
      have hdel := hbelow.delete b hact
      rw [show b = a from htarget, herase] at hdel
      cases hdel
    | _ => rfl
  have hat (v : Write) (hv : v ∈ writesAt (writesOf log) (some (rootObject L vaultId m)) a) :
      v ∈ writesOf log ∧ v.key = a :=
    ⟨(Registers.mem_writesAt.mp hv).1, (Registers.mem_writesAt.mp hv).2.2⟩
  obtain ⟨w', hw'⟩ : ∃ w', Registers.winner Op.erases (writesOf log)
      (some (rootObject L vaultId m)) a = some w' :=
    Registers.exists_winner (fun v hv => (hplaced v (hat v hv).1 (hat v hv).2).2.2.1)
      (fun v hv => hnoErase v (hat v hv).1 (hat v hv).2)
      (Registers.mem_writesAt.mpr ⟨hw, (hplaced w hw hkey).2.2.2, hkey⟩)
  have hvalue : Registers.value Op.erases Op.makes (writesOf log) a a.ancestors = some w' := by
    rw [Registers.value, hlocate]
    exact hw'
  have hin := Registers.mem_of_value hvalue
  have htarget := (hplaced w' hin.1 hin.2).1
  have hkeep := hnoErase w' hin.1 hin.2
  simp only [valueAt, hvalue]
  cases hact : w'.act with
  | delete b =>
    rw [hact] at hkeep
    cases hkeep
  | spliceText fid pos del insert =>
    rw [hact] at htarget
    subst htarget
    simp [Op.target, Addr.ancestors] at ha
  | _ => simp

/-- A part of a history that has all writes along a path reads the same there. -/
theorem Inv.valueAt_eq (h : s.Inv L E vaultId) {log more : List Authored}
    (hlog : Kept L E vaultId s.made log) (hmore : Kept L E vaultId s.made more)
    (hsub : log ⊆ more) {a : Addr}
    (hpath : ∀ k ∈ a :: a.ancestors, ∀ w ∈ writesOf more, w.key = k → w ∈ writesOf log) :
    valueAt E (writesOf more) a = valueAt E (writesOf log) a := by
  refine valueAt_congr (h.distinct hmore) (h.distinct hlog) (fun k hk o w => ?_)
    fun v hv hkey fid hact e hobj => ⟨fun he => ?_, fun he => writesOf_subset hsub he⟩
  · rw [Registers.mem_writesAt, Registers.mem_writesAt]
    exact ⟨fun ⟨hw, ho, hwk⟩ => ⟨hpath k hk w hw hwk, ho, hwk⟩,
      fun ⟨hw, hrest⟩ => ⟨writesOf_subset hsub hw, hrest⟩⟩
  · have htext : v.key = .content fid := by
      obtain ⟨c, hc, hv⟩ := mem_writesOf.mp hv
      rcases h.known c (hmore.sub hc) with rfl | ⟨-, hplaced⟩
      · rw [genesis_writes] at hv
        simp only [List.mem_cons, List.not_mem_nil, or_false] at hv
        rcases hv with rfl | rfl | rfl | rfl | rfl <;> cases hact
      · rw [(hplaced v hv).key, hact]
        rfl
    -- There is nothing below a text, so an edit of it is kept under its own address.
    obtain ⟨v', hv', hid, hbelow⟩ := h.inside e (writesOf_subset hmore.sub he) v.id hobj
    obtain rfl : v' = v :=
      distinct_of_nodup h.ids hv' (writesOf_subset hmore.sub hv) hid
    rw [htext] at hbelow
    have hekey : e.key = .content fid := by
      rcases hbelow with hbelow | hbelow
      · exact hbelow.symm
      · cases hkey : e.key <;> simp [hkey, Addr.ancestors] at hbelow
    exact hpath a List.mem_cons_self e he (hekey.trans (htext.symm.trans hkey))

/-- **What only other changes than the new ones have written reads as before.** -/
theorem Inv.untouched (h : s.Inv L E vaultId) {log more : List Authored}
    (hlog : Kept L E vaultId s.made log) (hmore : Kept L E vaultId s.made more)
    (hsub : log ⊆ more) {a : Addr} (hclean : ∀ c ∈ more, c ∉ log → ∀ op ∈ c.ops,
      ∀ k ∈ a :: a.ancestors, k.ancestors ≠ [] → op.target ≠ k) :
    valueAt E (writesOf more) a = valueAt E (writesOf log) a := by
  refine h.valueAt_eq hlog hmore hsub fun k hk w hw hkey => ?_
  obtain ⟨c, hc, hw⟩ := mem_writesOf.mp hw
  by_cases hin : c ∈ log
  · exact mem_writesOf.mpr ⟨c, hin, hw⟩
  · rcases h.known c (hmore.sub hc) with rfl | ⟨hbelow, hplaced⟩
    · exact absurd hlog.genesis hin
    · have hp := hplaced w hw
      have htarget : w.act.target = k := hp.key.symm.trans hkey
      have hanc := (hbelow _ hp.act).target
      rw [htarget] at hanc
      exact absurd htarget (hclean c hc hin _ hp.act k hk hanc)

theorem get_root {p : Replica} (hp : p.pending = []) (a : Addr) :
    (p.root E).get a = valueAt E (writesOf p.log) a := by
  rw [Replica.root, hp]
  exact get_contentOf _ a

/-- The registers of a file are its own, up to the map of the root. -/
theorem fileId_of_path {fid : Str} {a k : Addr} (ha : a.fileId = some fid)
    (hk : k ∈ a :: a.ancestors) (hanc : k.ancestors ≠ []) : k.fileId = some fid := by
  cases a <;> simp [Addr.fileId] at ha <;> subst ha <;> simp [Addr.ancestors] at hk <;>
    (rcases hk with rfl | rfl | rfl | rfl) <;> first | rfl | exact absurd rfl hanc

theorem dirId_of_path {did : Str} {a k : Addr} (ha : a.dirId = some did)
    (hk : k ∈ a :: a.ancestors) (hanc : k.ancestors ≠ []) : k.dirId = some did := by
  cases a <;> simp [Addr.dirId] at ha <;> subst ha <;> simp [Addr.ancestors] at hk <;>
    (rcases hk with rfl | rfl | rfl) <;> first | rfl | exact absurd rfl hanc

/-- An entry is as in a part of the history that has all that was written to it. -/
theorem Inv.sameFile (h : s.Inv L E vaultId) {p m : Replica} (hp : Kept L E vaultId s.made p.log)
    (hm : Kept L E vaultId s.made m.log) (hclosed : p.pending = []) (hclosed' : m.pending = [])
    (hsub : p.log ⊆ m.log) {fid : Str}
    (hclean : ∀ c ∈ m.log, c ∉ p.log → ¬ c.Touches fid) :
    Root.SameFile fid (m.root E) (p.root E) := by
  intro b hb
  rw [get_root hclosed', get_root hclosed]
  refine h.untouched hp hm hsub fun c hc hno op hop k hk hanc htarget => ?_
  exact hclean c hc hno ⟨op, hop, by rw [htarget, fileId_of_path hb hk hanc]⟩

theorem Inv.sameDirectory (h : s.Inv L E vaultId) {p m : Replica}
    (hp : Kept L E vaultId s.made p.log) (hm : Kept L E vaultId s.made m.log)
    (hclosed : p.pending = []) (hclosed' : m.pending = []) (hsub : p.log ⊆ m.log) {did : Str}
    (hclean : ∀ c ∈ m.log, c ∉ p.log → ¬ c.TouchesDirectory did) :
    Root.SameDirectory did (m.root E) (p.root E) := by
  intro b hb
  rw [get_root hclosed', get_root hclosed]
  refine h.untouched hp hm hsub fun c hc hno op hop k hk hanc htarget => ?_
  exact hclean c hc hno ⟨op, hop, by rw [htarget, dirId_of_path hb hk hanc]⟩

/-- **A merge loses nothing.** -/
theorem Inv.merged (h : s.Inv L E vaultId) {p q m : Replica}
    (hp : Kept L E vaultId s.made p.log) (hq : Kept L E vaultId s.made q.log)
    (hm : Kept L E vaultId s.made m.log) (hp' : p.pending = []) (hq' : q.pending = [])
    (hm' : m.pending = []) (hmem : ∀ c, c ∈ m.log ↔ c ∈ p.log ∨ c ∈ q.log) : Merged E p q m := by
  have hwrites (w : Write) : w ∈ writesOf m.log ↔ w ∈ writesOf p.log ∨ w ∈ writesOf q.log := by
    simp only [mem_writesOf, hmem, or_and_right, exists_or]
  have hentry {a : Addr} {r : RootMap} (ha : a.ancestors = [.rootMap r])
      (herase : a.erasable = false) : ((m.root E).get a).isSome = true ↔
        ((p.root E).get a).isSome = true ∨ ((q.root E).get a).isSome = true := by
    simp only [Option.isSome_iff_ne_none, get_root hp', get_root hq', get_root hm',
      h.entry hp ha herase, h.entry hq ha herase, h.entry hm ha herase, hwrites, or_and_right,
      exists_or]
  have hleft : p.log ⊆ m.log := fun c hc => (hmem c).mpr (.inl hc)
  have hright : q.log ⊆ m.log := fun c hc => (hmem c).mpr (.inr hc)
  refine ⟨fun fid => ?_, fun did => ?_, fun fid hclean => ?_, fun fid hclean => ?_,
    fun did hclean => ?_, fun did hclean => ?_⟩
  · rw [Root.mem_fileKeys, Root.mem_fileKeys, Root.mem_fileKeys]
    exact hentry rfl rfl
  · rw [Root.mem_dirKeys, Root.mem_dirKeys, Root.mem_dirKeys]
    exact hentry rfl rfl
  · exact h.sameFile hp hm hp' hm' hleft fun c hc hno =>
      hclean c (((hmem c).mp hc).resolve_left hno) hno
  · exact h.sameFile hq hm hq' hm' hright fun c hc hno =>
      hclean c (((hmem c).mp hc).resolve_right hno) hno
  · exact h.sameDirectory hp hm hp' hm' hleft fun c hc hno =>
      hclean c (((hmem c).mp hc).resolve_left hno) hno
  · exact h.sameDirectory hq hm hq' hm' hright fun c hc hno =>
      hclean c (((hmem c).mp hc).resolve_right hno) hno

/-- The maps of the root have no conflicts. -/
theorem Inv.values_rootMap (h : s.Inv L E vaultId) {log : List Authored}
    (hlog : Kept L E vaultId s.made log) (m : RootMap) :
    Registers.values Op.erases (writesOf log) none (.rootMap m) = [rootWrite L vaultId m] := by
  have haligned := hlog.aligned h.known
  have hnodup : (writesOf log).Nodup := (nodup_ids h.ids hlog.sub hlog.nodup).of_map _
  refine List.perm_singleton.mp ((List.perm_ext_iff_of_nodup ((hnodup.filter _).filter _)
    (List.nodup_singleton _)).mpr fun w => ?_)
  rw [List.mem_singleton]
  refine ⟨fun hw => ?_, ?_⟩
  · exact (haligned.values m w).mp (Registers.mem_values.mp hw).1
  · rintro rfl
    refine Registers.mem_values.mpr ⟨(haligned.values m _).mpr rfl, rfl, fun w' hw' hpred => ?_⟩
    rw [(haligned.values m w').mp hw'] at hpred
    cases hpred

/-- **In every run of the peers of a vault** the maps of the root have one value each, no two
changes share an actor and a sequence number, merges lose nothing, and peers with the same
changes show the same entries. -/
theorem merges_lossless
    (h : Machine.Reach (step L A E vaultId) (Fair L A E vaultId) (start L E vaultId) s) :
    (∀ p ∈ s.peers, (∀ c ∈ p.log, c ∈ s.made) ∧ ∀ m, ∃ w,
      Registers.values Op.erases (writesOf p.log) none (.rootMap m) = [w]) ∧
    (∀ c ∈ s.made, ∀ c' ∈ s.made, c.actor = c'.actor → c.seq = c'.seq → c = c') ∧
    (∀ i j s', Fair L A E vaultId s (.merge i j) → step L A E vaultId s (.merge i j) = some s' →
      ∃ p q m, s.peers[i]? = some p ∧ s.peers[j]? = some q ∧ s'.peers[i]? = some m ∧
        Merged E (p.closed E) (q.closed E) m) ∧
    ∀ p ∈ s.peers, ∀ q ∈ s.peers, p.pending = [] → q.pending = [] →
      (∀ c, c ∈ p.log ↔ c ∈ q.log) →
      (p.root E).liveFiles L = (q.root E).liveFiles L ∧
        (p.root E).liveDirectories L = (q.root E).liveDirectories L := by
  have hinv := Inv.of_reach h
  refine ⟨fun p hp => ?_, hinv.seqs, fun i j s' hfair hs => ?_, fun p hp q hq hp' hq' hsame => ?_⟩
  · have hkept := (hinv.peers p hp).kept
    exact ⟨fun c hc => hkept.sub hc, fun m => ⟨_, hinv.values_rootMap hkept m⟩⟩
  · have hinv' := hinv.step hfair hs
    have hhash := hfair.2 s' hs
    simp only [Replicas.step] at hs
    split at hs
    next p q hp hq =>
      split at hs
      next => cases hs
      next hne =>
        obtain rfl := Option.some.inj hs
        obtain ⟨hclosed, hi, hj⟩ := hinv.closed hp hq hne
        have hlt := (List.getElem?_eq_some_iff.mp hi).1
        have hm := List.getElem?_set_self (a := (p.closed E).take E (q.closed E).log) hlt
        have hkept := (hclosed.peers _ (List.mem_of_getElem? hi)).kept
        have hkept' := (hclosed.peers _ (List.mem_of_getElem? hj)).kept
        have hkeptM := (hinv'.peers _ (List.mem_of_getElem? hm)).kept
        exact ⟨p, q, _, hp, hq, hm, hclosed.merged hkept hkept' hkeptM rfl rfl rfl
          fun c => mem_take hhash hkept.sub hkept'.sub⟩
    next => cases hs
  · have hkept := (hinv.peers p hp).kept
    have hkept' := (hinv.peers q hq).kept
    have hget (a : Addr) : (p.root E).get a = (q.root E).get a := by
      rw [get_root hp', get_root hq']
      refine hinv.valueAt_eq hkept' hkept (fun c hc => (hsame c).mpr hc) fun k _ w hw _ => ?_
      exact writesOf_subset (fun c hc => (hsame c).mp hc) hw
    exact ⟨Root.liveFiles_congr hget, Root.liveDirectories_congr hget⟩

/-- Hashes that tell apart the changes of the run below, whose texts stay empty. -/
private def numbered : Engine where
  hash := fun c => .fill (UInt8.ofNat (16 * c.actor.length + c.seq))
  text := fun _ => []

/-- Ids that begin with `mark`, and the hash of the next change. -/
private def drawing (mark : Char) (byte : UInt8) : Supply where
  now := fun n => n
  id := fun n => mark :: List.replicate n 'i'
  hash := fun _ => .fill byte

/-- One peer writes a file, the other one makes a directory, and then they meet. -/
private def meeting : List Act :=
  [.new (txt "a"), .new (txt "bb"),
    .run 0 (.writeTextFile (txt "x.md") []) (drawing 'f' 17),
    .run 1 (.createDirectory (txt "d")) (drawing 'g' 33), .merge 0 1]

private def fairly (s : Replicas) (a : Act) : Bool :=
  (match a.actor? with
    | some actor => s.peers.all (fun p => p.actor ≠ actor) && s.made.all fun c => c.actor ≠ actor
    | none => true) &&
  match step .plain .plain numbered (txt "vault") s a with
    | some s' => s'.made.all fun c => s'.made.all fun c' =>
      numbered.hash c ≠ numbered.hash c' || c = c'
    | none => true

private theorem fair_of_fairly (s : Replicas) (a : Act) (h : fairly s a = true) :
    Fair .plain .plain numbered (txt "vault") s a := by
  obtain ⟨hactor, hhash⟩ := Bool.and_eq_true_iff.mp h
  refine ⟨fun actor hmem => ?_, fun s' hs' c hc c' hc' heq => ?_⟩
  · rw [Option.mem_def.mp hmem] at hactor
    simpa using hactor
  · rw [Option.mem_def.mp hs'] at hhash
    have hpair := List.all_eq_true.mp (List.all_eq_true.mp hhash c hc) c' hc'
    simpa [heq] using hpair

theorem merges_lossless_met : ∃ s, Machine.run (step .plain .plain numbered (txt "vault"))
    (start .plain numbered (txt "vault")) meeting = some s ∧
      (s.peers.map fun p => ((p.root numbered).fileKeys.length,
        (p.root numbered).dirKeys.length)) = [(1, 1), (0, 1)] ∧
      ∀ p ∈ s.peers, ∀ m, ∃ w,
        Registers.values Op.erases (writesOf p.log) none (.rootMap m) = [w] := by
  obtain ⟨s, hs⟩ := Option.isSome_iff_exists.mp (show (Machine.run
    (step .plain .plain numbered (txt "vault")) (start .plain numbered (txt "vault"))
      meeting).isSome = true by decide +kernel)
  have hkeys : ((Machine.run (step .plain .plain numbered (txt "vault"))
      (start .plain numbered (txt "vault")) meeting).map fun s => s.peers.map fun p =>
        ((p.root numbered).fileKeys.length, (p.root numbered).dirKeys.length)) =
          some [(1, 1), (0, 1)] := by
    decide +kernel
  rw [hs] at hkeys
  have hreach := Machine.Reach.of_run (Machine.Guarded.of_allowed fair_of_fairly
    (show Machine.allowed (step .plain .plain numbered (txt "vault")) fairly
      (start .plain numbered (txt "vault")) meeting = true by decide +kernel)) hs
  exact ⟨s, hs, Option.some.inj hkeys, fun p hp => ((merges_lossless hreach).1 p hp).2⟩

end Replicas

end AgentSync
