import Mathlib.Data.Finset.Dedup
import Mathlib.Data.Prod.Lex
import AgentSync.Machine
import AgentSync.Registers
import AgentSync.Doc.Live
import AgentSync.Doc.Records

/-! Peers of one vault.

Every peer starts from the same first change: its author is a digest of the vault id and its
time is zero, so its hash is the same everywhere and the maps of the root are the same objects.
After it a peer writes under an actor of its own, and a new one each time it loads its document.
Peers run operations, save, crash, load what was saved and merge. The content is what Automerge
makes of the changes they hold: a tree of last-writer-wins registers. -/
namespace AgentSync

open Registers (Distinct Forward writesAt)

/-! ### Changes -/

/-- `ActorId`, in hex. -/
abbrev Actor := Str

/-- The clock of the change an operation is in, and its actor. -/
abbrev OpId := Nat ×ₗ Actor

abbrev Write := Registers.Write OpId Addr Op

namespace Op

def erases : Op → Bool
  | delete _ => true
  | _ => false

/-- The operation makes an object. -/
def makes : Op → Bool
  | putMap _ | putText _ => true
  | _ => false

end Op

/-- A change as Automerge keeps it. -/
structure Authored where
  actor : Actor
  seq : Nat
  deps : List ChangeHash
  time : Int
  ops : List Op
  /-- The operations, in the objects they are in. -/
  writes : List Write
  deriving DecidableEq

namespace Authored

variable (c : Authored)

/-- The change has written to a file. -/
def Touches (fid : Str) : Prop := ∃ op ∈ c.ops, op.target.fileId = some fid

def TouchesDirectory (did : Str) : Prop := ∃ op ∈ c.ops, op.target.dirId = some did

end Authored

/-- What Automerge does apart from its registers. -/
structure Engine where
  /-- The hash of a change: by its actor, sequence number, dependencies, time and operations. -/
  hash : Authored → ChangeHash
  /-- What a text reads, by the edits of it. -/
  text : Finset Write → Str

def Engine.change (E : Engine) (c : Authored) : Change := ⟨E.hash c, c.deps, c.time, c.ops⟩

/-- The objects that operations are in, and what they replace there. -/
def writesOf (log : List Authored) : List Write := log.flatMap Authored.writes

/-- The object that an address leads to. -/
def locate (ws : List Write) (path : List Addr) : Option (Option OpId) :=
  Registers.locate Op.erases Op.makes ws path

/-- An operation as it is kept. A splice is in the text it edits. -/
def recordOp (ws : List Write) (id : OpId) (op : Op) : Option Write :=
  match op with
  | .spliceText fid _ _ _ =>
    match locate ws (.content fid :: (Addr.content fid).ancestors) with
    | some (some text) =>
      some ⟨id, some text, op.target, op, (ws.filter fun w => w.obj = some text).map (·.id)⟩
    | _ => none
  | _ =>
    match locate ws op.target.ancestors with
    | some obj =>
      some ⟨id, obj, op.target, op, (Registers.values Op.erases ws obj op.target).map (·.id)⟩
    | none => none

/-- The operations of one transaction, one after the other. -/
def recordAll (ws : List Write) (actor : Actor) (clock : Nat) : List Op → List Write
  | [] => []
  | op :: rest =>
    match recordOp ws (toLex (clock, actor)) op with
    | some w => w :: recordAll (ws ++ [w]) actor (clock + 1) rest
    | none => recordAll ws actor (clock + 1) rest

def clockOf (w : Write) : Nat := (ofLex w.id).1

/-- The latest clock of a history. -/
def maxOp (log : List Authored) : Nat := ((writesOf log).map clockOf).foldr max 0

/-- How many changes of the actor there are. -/
def countOf (log : List Authored) (actor : Actor) : Nat :=
  (log.filter fun c => c.actor = actor).length

/-- A transaction that is committed. -/
def author (E : Engine) (log : List Authored) (actor : Actor) (time : Int) (ops : List Op) :
    Authored where
  actor := actor
  seq := countOf log actor + 1
  deps := headsOf (log.map E.change)
  time := time
  ops := ops
  writes := recordAll (writesOf log) actor (maxOp log + 1) ops

/-- What was committed, one change after the other. -/
def authorAll (E : Engine) (log : List Authored) (actor : Actor) : List Change → List Authored
  | [] => []
  | c :: rest =>
    let made := author E log actor c.timestamp c.ops
    made :: authorAll E (log ++ [made]) actor rest

/-- `genesis_actor`. -/
def genesisActor (L : Crates) (vaultId : Str) : Actor :=
  L.sha.hash (utf8 (txt "agentsync-genesis-actor-v1" ++ vaultId))

/-- The change that `Doc::new` commits. -/
def genesis (L : Crates) (E : Engine) (vaultId : Str) : Authored :=
  author E [] (genesisActor L vaultId) 0 (Doc.genesisOps vaultId)

/-! ### Content -/

/-- What is read at an address. -/
def valueAt (E : Engine) (ws : List Write) (a : Addr) : Option Val :=
  match Registers.value Op.erases Op.makes ws a a.ancestors with
  | none => none
  | some w =>
    match w.act with
    | .put _ s => some (.scalar s)
    | .putMap _ => some .map
    | .putText _ => some (.text (E.text (ws.filter fun e => e.obj = some w.id).toFinset))
    | .delete _ | .spliceText .. => none

/-- Adding a register that holds something. -/
def addValue (E : Engine) (ws : List Write) (a : Addr) (r : Root) : Root :=
  match valueAt E ws a with
  | some v => r.insert a v
  | none => r

def contentOf (E : Engine) (ws : List Write) : Root := (ws.map (·.key)).foldr (addValue E ws) ∅

/-! ### Peers -/

/-- A running peer. -/
structure Replica where
  actor : Actor
  log : List Authored
  /-- The open transaction. -/
  pending : List Op

namespace Replica

variable (E : Engine) (p : Replica)

def content : Root := contentOf E (writesOf p.log)

def root : Root := applyAll (p.content E) p.pending

/-- The document that operations are run on. -/
def doc (supply : Supply) : Doc := ⟨p.log.map E.change, p.pending, p.root E, supply, 0⟩

/-- The change that closing the transaction makes. -/
def closing : List Authored :=
  if p.pending = [] then [] else [author E p.log p.actor 0 p.pending]

def closed : Replica := {p with log := p.log ++ p.closing E, pending := []}

/-- The changes of another history that are not here yet. -/
def missing (other : List Authored) : List Authored :=
  other.filter fun c => !(p.log.any fun c' => E.hash c' = E.hash c)

def take (other : List Authored) : Replica := {p with log := p.log ++ p.missing E other}

/-- What an operation commits and what it leaves open. The supply knows the hashes of the
changes to come, and `A` what a restore reads of the past. -/
def run (L : Crates) (A : Automerge) (op : LocalOp) (supply : Supply) :
    Option (List Authored × List Op) :=
  let d := (p.doc E supply).after (op.run L A)
  let new := authorAll E p.log p.actor (d.changes.drop p.log.length)
  if d.changes = (p.log ++ new).map E.change then some (new, d.pending) else none

end Replica

/-- The peers of a vault, what they have saved, and every change that was ever made. -/
structure Replicas where
  peers : List Replica
  saves : List (List Authored)
  made : List Authored

namespace Replicas

inductive Act where
  /-- A peer starts from `Doc::new`. -/
  | new (actor : Actor)
  /-- A peer starts from saved bytes. -/
  | load (bytes : Nat) (actor : Actor)
  /-- A peer crashes, and starts again from saved bytes. -/
  | reload (i bytes : Nat) (actor : Actor)
  | run (i : Nat) (op : LocalOp) (supply : Supply)
  | save (i : Nat)
  | merge (i j : Nat)
  /-- A sync message brings some changes of another peer. -/
  | receive (i j : Nat) (wanted : List ChangeHash)

variable (L : Crates) (A : Automerge) (E : Engine) (vaultId : Str)

/-- A peer has committed changes. -/
def recorded (s : Replicas) (i : Nat) (p : Replica) (new : List Authored) (pending : List Op) :
    Replicas :=
  {s with
    peers := s.peers.set i {p with log := p.log ++ new, pending := pending}
    made := s.made ++ new}

/-- Two peers close their transactions. -/
def closed (s : Replicas) (i j : Nat) (p q : Replica) : Replicas :=
  (s.recorded i p (p.closing E) []).recorded j q (q.closing E) []

def step (s : Replicas) : Act → Option Replicas
  | .new actor => some {s with peers := s.peers ++ [⟨actor, [genesis L E vaultId], []⟩]}
  | .load bytes actor =>
    match s.saves[bytes]? with
    | some log => some {s with peers := s.peers ++ [⟨actor, log, []⟩]}
    | none => none
  | .reload i bytes actor =>
    match s.peers[i]?, s.saves[bytes]? with
    | some _, some log => some {s with peers := s.peers.set i ⟨actor, log, []⟩}
    | _, _ => none
  | .run i op supply =>
    match s.peers[i]? with
    | some p =>
      match p.run E L A op supply with
      | some (new, pending) => some (s.recorded i p new pending)
      | none => none
    | none => none
  | .save i =>
    match s.peers[i]? with
    | some p =>
      let s := s.recorded i p (p.closing E) []
      some {s with saves := s.saves ++ [(p.closed E).log]}
    | none => none
  | .merge i j =>
    match s.peers[i]?, s.peers[j]? with
    | some p, some q =>
      if i = j then none
      else
        let s := s.closed E i j p q
        some {s with peers := s.peers.set i ((p.closed E).take E (q.closed E).log)}
    | _, _ => none
  | .receive i j wanted =>
    match s.peers[i]?, s.peers[j]? with
    | some p, some q =>
      let part := (q.closed E).log.filter fun c => wanted.contains (E.hash c)
      let known := ((p.closed E).log ++ part).map E.hash
      if i ≠ j ∧ ∀ c ∈ part, c.deps ⊆ known then
        let s := s.closed E i j p q
        some {s with peers := s.peers.set i ((p.closed E).take E part)}
      else none
    | _, _ => none

def start : Replicas := ⟨[], [], [genesis L E vaultId]⟩

/-- The actor that a peer is given. -/
def Act.actor? : Act → Option Actor
  | .new actor | .load _ actor | .reload _ _ actor => some actor
  | _ => none

/-- Random actors are new, and no two changes share a hash. -/
def Fair (s : Replicas) (a : Act) : Prop :=
  (∀ actor ∈ a.actor?, (∀ p ∈ s.peers, p.actor ≠ actor) ∧ ∀ c ∈ s.made, c.actor ≠ actor) ∧
    ∀ s' ∈ step L A E vaultId s a, ∀ c ∈ s'.made, ∀ c' ∈ s'.made, E.hash c = E.hash c' → c = c'

end Replicas

/-- What a merge of `p` and `q` leaves: all entries of both, and each entry that only one side
has touched as that side has it. -/
structure Merged (E : Engine) (p q m : Replica) : Prop where
  fileKeys : ∀ fid, fid ∈ (m.root E).fileKeys ↔
    fid ∈ (p.root E).fileKeys ∨ fid ∈ (q.root E).fileKeys
  dirKeys : ∀ did, did ∈ (m.root E).dirKeys ↔
    did ∈ (p.root E).dirKeys ∨ did ∈ (q.root E).dirKeys
  file_left : ∀ fid, (∀ c ∈ q.log, c ∉ p.log → ¬ c.Touches fid) →
    Root.SameFile fid (m.root E) (p.root E)
  file_right : ∀ fid, (∀ c ∈ p.log, c ∉ q.log → ¬ c.Touches fid) →
    Root.SameFile fid (m.root E) (q.root E)
  directory_left : ∀ did, (∀ c ∈ q.log, c ∉ p.log → ¬ c.TouchesDirectory did) →
    Root.SameDirectory did (m.root E) (p.root E)
  directory_right : ∀ did, (∀ c ∈ p.log, c ∉ q.log → ¬ c.TouchesDirectory did) →
    Root.SameDirectory did (m.root E) (q.root E)

/-! ### What is recorded -/

section Recording

variable {ws : List Write} {id : OpId} {op : Op} {w : Write} {actor : Actor} {clock : Nat}
  {ops : List Op}

theorem recordOp_spec (h : recordOp ws id op = some w) : w.id = id ∧ w.act = op ∧
    w.key = op.target ∧ (∀ i ∈ w.pred, ∃ v ∈ ws, v.id = i) ∧
    ∀ m, op.target.ancestors = [.rootMap m] → locate ws [.rootMap m] = some w.obj := by
  have hmap : (∃ obj, locate ws op.target.ancestors = some obj ∧
      w = ⟨id, obj, op.target, op, (Registers.values Op.erases ws obj op.target).map (·.id)⟩) →
      w.id = id ∧ w.act = op ∧ w.key = op.target ∧ (∀ i ∈ w.pred, ∃ v ∈ ws, v.id = i) ∧
        ∀ m, op.target.ancestors = [.rootMap m] → locate ws [.rootMap m] = some w.obj := by
    rintro ⟨obj, hobj, rfl⟩
    refine ⟨rfl, rfl, rfl, fun i hi => ?_, fun m hm => by rw [← hm, hobj]⟩
    obtain ⟨v, hv, rfl⟩ := List.mem_map.mp hi
    exact ⟨v, (Registers.mem_writesAt.mp (Registers.mem_values.mp hv).1).1, rfl⟩
  cases op with
  | spliceText fid pos del insert =>
    simp only [recordOp] at h
    split at h
    next text htext =>
      obtain rfl := Option.some.inj h
      refine ⟨rfl, rfl, rfl, fun i hi => ?_, fun m hm => by simp [Op.target, Addr.ancestors] at hm⟩
      obtain ⟨v, hv, rfl⟩ := List.mem_map.mp hi
      exact ⟨v, List.mem_of_mem_filter hv, rfl⟩
    next => cases h
  | _ =>
    simp only [recordOp] at h
    split at h
    next obj hobj => exact hmap ⟨obj, hobj, (Option.some.inj h).symm⟩
    next => cases h

/-- The object of a map of the root, as the first change makes it. -/
def rootObject (L : Crates) (vaultId : Str) (m : RootMap) : OpId :=
  toLex (match m with
    | .directories => 3
    | .files => 4
    | .labels => 5, genesisActor L vaultId)

/-- The write that makes it. -/
def rootWrite (L : Crates) (vaultId : Str) (m : RootMap) : Write :=
  ⟨rootObject L vaultId m, none, .rootMap m, .putMap (.rootMap m), []⟩

theorem genesis_writes (L : Crates) (E : Engine) (vaultId : Str) : (genesis L E vaultId).writes =
    [⟨toLex (1, genesisActor L vaultId), none, .schemaVersion, .put .schemaVersion (.int 1), []⟩,
      ⟨toLex (2, genesisActor L vaultId), none, .vaultId, .put .vaultId (.str vaultId), []⟩,
      rootWrite L vaultId .directories, rootWrite L vaultId .files,
      rootWrite L vaultId .labels] := by
  rfl

variable {L : Crates} {E : Engine} {vaultId : Str}

/-- The maps of the root were made once, by the first change. -/
structure Aligned (L : Crates) (vaultId : Str) (ws : List Write) : Prop where
  made : ∀ m, rootWrite L vaultId m ∈ ws
  once : ∀ w ∈ ws, ∀ m, w.key = .rootMap m → w = rootWrite L vaultId m

/-- What an operation of a change is kept as. -/
structure Placed (L : Crates) (vaultId : Str) (actor : Actor) (ops : List Op) (w : Write) :
    Prop where
  act : w.act ∈ ops
  key : w.key = w.act.target
  actor : (ofLex w.id).2 = actor
  forward : Forward w
  home : ∀ m, w.key.ancestors = [.rootMap m] → w.obj = some (rootObject L vaultId m)

theorem Aligned.values (h : Aligned L vaultId ws) (m : RootMap) :
    ∀ w, w ∈ writesAt ws none (.rootMap m) ↔ w = rootWrite L vaultId m := by
  intro w
  rw [Registers.mem_writesAt]
  refine ⟨fun ⟨hw, _, hkey⟩ => h.once w hw m hkey, ?_⟩
  rintro rfl
  exact ⟨h.made m, rfl, rfl⟩

/-- **Everybody finds the same objects in the root.** -/
theorem Aligned.locate (h : Aligned L vaultId ws) (m : RootMap) :
    AgentSync.locate ws [.rootMap m] = some (some (rootObject L vaultId m)) := by
  have hwinner : Registers.winner Op.erases ws none (.rootMap m) =
      some (rootWrite L vaultId m) :=
    Registers.winner_of_single (fun i hi => by cases hi) rfl (h.values m)
  simp only [AgentSync.locate, Registers.locate, hwinner]
  rfl

theorem Aligned.concat (h : Aligned L vaultId ws) (hw : w.key.ancestors ≠ []) :
    Aligned L vaultId (ws ++ [w]) where
  made := fun m => List.mem_append_left _ (h.made m)
  once := fun v hv m hkey => by
    rcases List.mem_append.mp hv with hv | hv
    · exact h.once v hv m hkey
    · rw [List.mem_singleton.mp hv] at hkey
      exact absurd (by rw [hkey]; rfl) hw

/-- An earlier clock makes an earlier write. -/
theorem lt_of_clock {i j : OpId} (h : (ofLex i).1 < (ofLex j).1) : i < j :=
  Prod.Lex.lt_iff.mpr (.inl h)

theorem recordAll_placed (hws : Aligned L vaultId ws) (hclock : ∀ v ∈ ws, clockOf v < clock)
    (hops : ∀ op ∈ ops, op.Below) :
    ∀ w ∈ recordAll ws actor clock ops, Placed L vaultId actor ops w := by
  induction ops generalizing ws clock with
  | nil => intro w hw; cases hw
  | cons op rest ih =>
    have hbelow := fun op hop => hops op (List.mem_cons_of_mem _ hop)
    have hlater (v : Write) (h : Placed L vaultId actor rest v) :
        Placed L vaultId actor (op :: rest) v :=
      ⟨List.mem_cons_of_mem _ h.act, h.key, h.actor, h.forward, h.home⟩
    intro w hw
    unfold recordAll at hw
    split at hw
    next v hv =>
      obtain ⟨hid, hact, hkey, hpred, hhome⟩ := recordOp_spec hv
      have hclock' : clockOf v = clock := by
        rw [clockOf, hid]
        rfl
      rcases List.mem_cons.mp hw with rfl | hw
      · refine ⟨?_, ?_, ?_, fun i hi => ?_, fun m hm => ?_⟩
        · rw [hact]
          exact List.mem_cons_self
        · rw [hkey, hact]
        · rw [hid]
          rfl
        · obtain ⟨u, hu, rfl⟩ := hpred i hi
          exact lt_of_clock (lt_of_lt_of_eq (hclock u hu) hclock'.symm)
        · rw [hkey] at hm
          exact Option.some.inj ((hhome m hm).symm.trans (hws.locate m))
      · have hv' : v.key.ancestors ≠ [] := by
          rw [hkey]
          exact (hops op List.mem_cons_self).target
        refine hlater w (ih (hws.concat hv') (fun u hu => ?_) hbelow w hw)
        rcases List.mem_append.mp hu with hu | hu
        · exact Nat.lt_succ_of_lt (hclock u hu)
        · rw [List.mem_singleton.mp hu, hclock']
          exact Nat.lt_succ_self clock
    next =>
      exact hlater w (ih hws (fun u hu => Nat.lt_succ_of_lt (hclock u hu)) hbelow w hw)

/-- The object a write is in was made at its key or above it. -/
def Inside (ws : List Write) (w : Write) : Prop :=
  ∀ i, w.obj = some i → ∃ v ∈ ws, v.id = i ∧ (v.key = w.key ∨ v.key ∈ w.key.ancestors)

theorem Inside.mono (h : Inside ws w) {ws' : List Write} (hsub : ws ⊆ ws') : Inside ws' w :=
  fun i hi => (h i hi).imp fun _ hv => ⟨hsub hv.1, hv.2⟩

theorem recordOp_inside (h : recordOp ws id op = some w) : Inside ws w := by
  have hmap (obj : Option OpId) (hobj : locate ws op.target.ancestors = some obj)
      (hw : w.obj = obj) (hkey : w.key = op.target) : Inside ws w := by
    intro i hi
    rw [hi] at hw
    subst hw
    cases hanc : op.target.ancestors with
    | nil =>
      rw [hanc] at hobj
      cases hobj
    | cons k outer =>
      rw [hanc] at hobj
      obtain ⟨v, hv, hid, hvkey⟩ := Registers.exists_of_locate hobj
      refine ⟨v, hv, (Option.some.inj hid).symm, .inr ?_⟩
      rw [hkey, hanc, hvkey]
      exact List.mem_cons_self
  cases op with
  | spliceText fid pos del insert =>
    simp only [recordOp] at h
    split at h
    next text htext =>
      obtain rfl := Option.some.inj h
      intro i hi
      obtain ⟨v, hv, hid, hkey⟩ := Registers.exists_of_locate htext
      exact ⟨v, hv, Option.some.inj (hid.symm.trans hi), .inl hkey⟩
    next => cases h
  | _ =>
    simp only [recordOp] at h
    split at h
    next obj hobj =>
      obtain rfl := Option.some.inj h
      exact hmap obj hobj rfl rfl
    next => cases h

theorem recordAll_inside :
    ∀ w ∈ recordAll ws actor clock ops, Inside (ws ++ recordAll ws actor clock ops) w := by
  induction ops generalizing ws clock with
  | nil => intro w hw; cases hw
  | cons op rest ih =>
    intro w hw
    unfold recordAll at hw ⊢
    split at hw
    next v hv =>
      rcases List.mem_cons.mp hw with rfl | hw
      · exact (recordOp_inside hv).mono (List.subset_append_left _ _)
      · have hin := ih w hw
        rwa [List.append_assoc, List.singleton_append] at hin
    next => exact ih w hw

/-- The clock moves on from each operation to the next. -/
theorem recordAll_pairwise : (recordAll ws actor clock ops).Pairwise
    (fun v w => clockOf v < clockOf w) ∧ ∀ w ∈ recordAll ws actor clock ops, clock ≤ clockOf w := by
  induction ops generalizing ws clock with
  | nil => exact ⟨.nil, fun w hw => by cases hw⟩
  | cons op rest ih =>
    unfold recordAll
    split
    next v hv =>
      obtain ⟨hpairwise, hle⟩ := @ih (ws ++ [v]) (clock + 1)
      have hclock : clockOf v = clock := by
        rw [clockOf, (recordOp_spec hv).1]
        rfl
      refine ⟨List.pairwise_cons.mpr ⟨fun w hw => ?_, hpairwise⟩, fun w hw => ?_⟩
      · have := hle w hw
        omega
      · rcases List.mem_cons.mp hw with rfl | hw
        · omega
        · have := hle w hw
          omega
    next =>
      obtain ⟨hpairwise, hle⟩ := @ih ws (clock + 1)
      exact ⟨hpairwise, fun w hw => by have := hle w hw; omega⟩

theorem clockOf_le_maxOp {log : List Authored} (hw : w ∈ writesOf log) : clockOf w ≤ maxOp log := by
  have hle (ns : List Nat) (n : Nat) (hn : n ∈ ns) : n ≤ ns.foldr max 0 := by
    induction ns with
    | nil => cases hn
    | cons m rest ih =>
      rw [List.foldr_cons]
      rcases List.mem_cons.mp hn with rfl | hn
      · exact le_max_left _ _
      · exact le_max_of_le_right (ih hn)
  exact hle _ _ (List.mem_map_of_mem hw)

end Recording

end AgentSync
