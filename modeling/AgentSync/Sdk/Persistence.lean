import AgentSync.Sdk.Storage

/-! What `doc.bin` holds while saves run at once.

`Vault.create` and `Vault.open` come first, then every flush starts a `saveDoc` of its own.
Each moves one host call at a time, in any order, and the process may end after any of them.

Node's adapter replaces the document in one step, so what is lost is only order: a save that
lands after a later one has landed puts old bytes back, and two saves of one millisecond
share a temporary file. Obsidian's adapter removes the document before it renames, so from
there on nothing is stored until the rename. `Orderly` is what a run must avoid. -/
namespace AgentSync.Sdk
open Async

/-- What `doc.save()` returns. It starts with a header, so it is never empty. -/
abbrev DocBytes := {bytes : Bytes // bytes ≠ []}

/-- A `saveDoc` in flight. -/
structure Save where
  /-- Which `doc.save()` since the start it writes. -/
  number : Nat
  bytes : DocBytes
  prog : Code Unit

/-- The temporary file the save has picked and is about to write or rename. -/
def Save.temporary (u : Save) : Option Str := u.prog.next.bind FsCall.temporary

inductive VaultPhase where
  | closed
  /-- `Vault.create` waits for its `saveDoc`. -/
  | creating
  | live
  deriving DecidableEq, Repr

structure Session where
  disk : HostFs
  phase : VaultPhase
  /-- In the order of the calls. -/
  saves : List Save
  issued : Nat
  /-- The latest `doc.save()` of this process. -/
  latest : Option DocBytes
  /-- Everything passed to `saveDoc` so far. -/
  passed : List DocBytes
  /-- Some `saveDoc` has completed. -/
  completed : Bool

namespace Session

def start : Session := ⟨.empty, .closed, [], 0, none, [], false⟩

inductive Act where
  | create (bytes : DocBytes)
  | open
  | flush (bytes : DocBytes)
  /-- The host answers the call save `i` waits for; `Date.now()` is `now`. -/
  | advance (i now : Nat)
  /-- The process ends. -/
  | crash

variable (A : Adapter) (root : Str) (s : Session)

/-- What `loadDoc` returns. -/
def loadDoc : Option Bytes :=
  match Prog.eval (HostFs.answer A.replaces 0) s.disk (A.loadDoc root) with
  | (.ok bytes, _) => bytes
  | (.error _, _) => none

def save (bytes : DocBytes) (phase : VaultPhase) : Session :=
  {s with
    phase
    saves := s.saves ++ [⟨s.issued + 1, bytes, A.saveDoc root bytes⟩]
    issued := s.issued + 1
    latest := some bytes
    passed := bytes :: s.passed}

/-- Save `i` has its answer and goes on as `prog`. -/
def resume (i : Nat) (u : Save) (disk : HostFs) (prog : Code Unit) : Session :=
  match prog with
  | .pure _ => {s with
      disk
      phase := if s.phase = .creating then .live else s.phase
      saves := splice s.saves i []
      completed := true}
  | .throw _ => {s with
      disk
      phase := if s.phase = .creating then .closed else s.phase
      saves := splice s.saves i []}
  | .call _ _ => {s with disk, saves := splice s.saves i [{u with prog}]}

def step (s : Session) : Act → Option Session
  | .create bytes =>
    if s.phase = .closed ∧ s.saves.isEmpty then some (s.save A root bytes .creating) else none
  | .open =>
    if s.phase = .closed ∧ s.saves.isEmpty ∧ (s.loadDoc A root).isSome then
      some {s with phase := .live}
    else none
  | .flush bytes => if s.phase = .live then some (s.save A root bytes .live) else none
  | .advance i now => (s.saves[i]?).bind fun u =>
    match u.prog with
    | .call o k => some (s.resume i u (s.disk.answer A.replaces now o).2
        (k (s.disk.answer A.replaces now o).1))
    | _ => none
  | .crash => some {s with phase := .closed, saves := [], latest := none}

/-! ### The law and its condition -/

/-- `loadDoc` returns a document that was saved, and the latest one when every save of the
process has settled. -/
structure Persistent : Prop where
  atomic : s.completed → ∃ bytes ∈ s.passed, s.loadDoc A root = some bytes.val
  current : s.saves = [] → ∀ bytes, s.latest = some bytes → s.loadDoc A root = some bytes.val

/-- Over Obsidian no save gets to remove the document. Over Node no save picks a temporary
file that another save in flight has picked, and none lands once the latest has landed. -/
def Orderly : Act → Prop
  | .advance i now => ∀ u, s.saves[i]? = some u →
    match A, u.prog.next with
    | .obsidian _, some (.remove _) => False
    | .node pid, some .now => ∀ v ∈ s.saves,
        v.temporary ≠ some (NodeFs.tmpPath pid now (docPath root))
    | .node _, some (.rename _ _) => ∃ v ∈ s.saves, v.number = s.issued
    | _, _ => True
  | _ => True

variable {A root s} {s' : Session}

theorem step_advance {i now : Nat} (h : step A root s (.advance i now) = some s') :
    ∃ u o k, s.saves[i]? = some u ∧ u.prog = .call o k ∧
      s' = s.resume i u (s.disk.answer A.replaces now o).2
        (k (s.disk.answer A.replaces now o).1) := by
  obtain ⟨u, hu, h⟩ := Option.bind_eq_some_iff.mp h
  split at h
  next o k hprog => exact ⟨u, o, k, hu, hprog, (Option.some.inj h).symm⟩
  next => cases h

/-! ### What is loaded -/

theorem readBytes_eq (path : Str) : NodeFs.readBytes path =
    .call (.readBinary path) fun r => match r with
      | .ok bytes => .pure (some bytes)
      | .error .notFound => .pure none
      | .error e => .throw e := by
  show Prog.call _ _ = _
  congr 1
  funext r
  cases r with
  | ok bytes => rfl
  | error e => cases e <;> rfl

theorem loadDoc_node (pid : Nat) : s.loadDoc (.node pid) root = s.disk.files (docPath root) := by
  cases h : s.disk.files (docPath root) <;>
    simp [loadDoc, Adapter.loadDoc, readBytes_eq, Prog.eval, HostFs.answer, h]

theorem readBinaryOrNull_eq (path : Str) : Obsidian.readBinaryOrNull path =
    .call (.pathExists path) fun r => match r with
      | .ok true => .call (.readBinary path) fun r => match r with
        | .ok bytes => .pure (if bytes.length = 0 then none else some bytes)
        | .error e => .throw e
      | .ok false => .pure none
      | .error e => .throw e := by
  show Prog.call _ _ = _
  congr 1
  funext r
  rcases r with e | found
  · rfl
  · cases found
    · rfl
    · show Prog.call _ _ = _
      congr 1
      funext r
      cases r <;> rfl

theorem loadDoc_obsidian (replaces : Bool) : s.loadDoc (.obsidian replaces) root =
    (s.disk.files (docPath root)).filter (· ≠ []) := by
  simp only [loadDoc, Adapter.loadDoc, readBinaryOrNull_eq, Prog.eval, HostFs.answer]
  cases h : s.disk.files (docPath root) with
  | some bytes => cases bytes <;> simp [h, Prog.eval, HostFs.answer, Option.filter]
  | none => cases s.disk.dirs.contains (docPath root) <;> simp [h, Prog.eval, HostFs.answer]

/-! ### Node -/

section Node

variable {pid : Nat}

theorem tmpPath_ne (pid now : Nat) (path : Str) : NodeFs.tmpPath pid now path ≠ path := by
  intro h
  have hlen := congrArg List.length h
  simp only [NodeFs.tmpPath, List.length_append] at hlen
  have : (txt ".tmp-").length = 5 := rfl
  omega

/-- How far a save has come; a temporary file it is about to rename is whole. -/
inductive NodeStage (pid : Nat) (path : Str) (disk : HostFs) (u : Save) : Prop where
  | start (h : u.prog = NodeFs.writeAtomic pid path u.bytes.val)
  | clock (h : u.prog = Host.now >>= fun now =>
      Host.writeBinary (NodeFs.tmpPath pid now path) u.bytes.val >>= fun _ =>
        NodeFs.land (NodeFs.tmpPath pid now path) path)
  | fill (now : Nat) (h : u.prog = Host.writeBinary (NodeFs.tmpPath pid now path) u.bytes.val >>=
      fun _ => NodeFs.land (NodeFs.tmpPath pid now path) path)
  | land (now : Nat) (h : u.prog = NodeFs.land (NodeFs.tmpPath pid now path) path)
      (whole : disk.files (NodeFs.tmpPath pid now path) = some u.bytes.val)

/-- What an orderly run of saves keeps. -/
structure NodeInv (pid : Nat) (path : Str) (s : Session) : Prop where
  stage : ∀ u ∈ s.saves, NodeStage pid path s.disk u
  /-- No two saves share a temporary file. -/
  apart : s.saves.Pairwise fun u v => ∀ tmp, u.temporary = some tmp → v.temporary ≠ some tmp
  stored : s.completed → ∃ bytes ∈ s.passed, s.disk.files path = some bytes.val
  /-- The document is the latest, unless the latest is still in flight. -/
  landed : (∀ u ∈ s.saves, u.number ≠ s.issued) → ∀ bytes, s.latest = some bytes →
    s.disk.files path = some bytes.val
  newest : ∀ u ∈ s.saves, u.number = s.issued → s.latest = some u.bytes
  number_le : ∀ u ∈ s.saves, u.number ≤ s.issued
  passed : ∀ u ∈ s.saves, u.bytes ∈ s.passed

variable {path : Str} {u u' : Save} {pre post : List Save} {disk : HostFs}

theorem NodeInv.start : NodeInv pid path start := by
  constructor <;> simp [Session.start]

theorem NodeStage.mono (h : NodeStage pid path s.disk u)
    (hdisk : ∀ tmp, u.temporary = some tmp → disk.files tmp = s.disk.files tmp) :
    NodeStage pid path disk u := by
  cases h with
  | start h => exact .start h
  | clock h => exact .clock h
  | fill now h => exact .fill now h
  | land now h whole =>
    refine .land now h ?_
    rw [hdisk _ (by rw [Save.temporary, h]; rfl)]
    exact whole

theorem temporary_ne (h : NodeStage pid path disk u) : u.temporary ≠ some path := by
  cases h with
  | start h =>
    rw [Save.temporary, h]
    simp [NodeFs.writeAtomic, Host.mkdirAll, Prog.await, bind, Prog.bind, Prog.next,
      FsCall.temporary]
  | clock h =>
    rw [Save.temporary, h]
    simp [Host.now, Prog.await, bind, Prog.bind, Prog.next, FsCall.temporary]
  | fill now h =>
    rw [Save.temporary, h]
    exact fun heq => tmpPath_ne pid now path (Option.some.inj heq)
  | land now h whole =>
    rw [Save.temporary, h]
    exact fun heq => tmpPath_ne pid now path (Option.some.inj heq)

/-- A save that has its answer and goes on, without touching the document. -/
theorem NodeInv.goesOn (h : NodeInv pid path s) (hs : s.saves = pre ++ u :: post)
    (hnumber : u'.number = u.number) (hbytes : u'.bytes = u.bytes)
    (hdisk : ∀ v ∈ pre ++ post, ∀ tmp, v.temporary = some tmp →
      disk.files tmp = s.disk.files tmp)
    (hdoc : disk.files path = s.disk.files path) (hstage : NodeStage pid path disk u')
    (hapart : ∀ v ∈ pre ++ post, ∀ tmp, v.temporary = some tmp → u'.temporary ≠ some tmp) :
    NodeInv pid path {s with disk, saves := pre ++ u' :: post} := by
  have hmem : ∀ v ∈ pre ++ u' :: post, v = u' ∨ v ∈ pre ++ post ∧ v ∈ s.saves := by
    intro v hv
    rw [hs]
    simp only [List.mem_append, List.mem_cons] at hv ⊢
    grind
  have hu : u ∈ s.saves := by simp [hs]
  have hnumbers : ∀ n, (∀ v ∈ pre ++ u' :: post, v.number ≠ n) → ∀ v ∈ s.saves, v.number ≠ n := by
    intro n hn v hv
    rw [hs] at hv
    simp only [List.forall_mem_append, List.forall_mem_cons] at hn
    rcases List.mem_append.mp hv with hv | hv
    · exact hn.1 v hv
    · rcases List.mem_cons.mp hv with rfl | hv
      · exact hnumber ▸ hn.2.1
      · exact hn.2.2 v hv
  constructor
  · intro v hv
    rcases hmem v hv with rfl | ⟨hv, hvs⟩
    · exact hstage
    · exact (h.stage v hvs).mono (hdisk v hv)
  · have hold := h.apart
    rw [hs] at hold
    simp only [List.pairwise_append, List.pairwise_cons, List.forall_mem_cons] at hold ⊢
    refine ⟨hold.1, ⟨fun v hv tmp htmp hv' => ?_, hold.2.1.2⟩, fun v hv => ⟨fun tmp htmp => ?_,
      (hold.2.2 v hv).2⟩⟩
    · exact hapart v (List.mem_append_right _ hv) tmp hv' htmp
    · exact hapart v (List.mem_append_left _ hv) tmp htmp
  · intro hcompleted
    rw [hdoc]
    exact h.stored hcompleted
  · intro hn
    rw [hdoc]
    exact h.landed (hnumbers _ hn)
  · intro v hv hn
    rcases hmem v hv with rfl | ⟨-, hv⟩
    · rw [hbytes]
      exact h.newest u hu (hnumber ▸ hn)
    · exact h.newest v hv hn
  · intro v hv
    rcases hmem v hv with rfl | ⟨-, hv⟩
    · rw [hnumber]
      exact h.number_le u hu
    · exact h.number_le v hv
  · intro v hv
    rcases hmem v hv with rfl | ⟨-, hv⟩
    · rw [hbytes]
      exact h.passed u hu
    · exact h.passed v hv

/-- A save that renames its temporary file over the document. -/
theorem NodeInv.lands (h : NodeInv pid path s) (hs : s.saves = pre ++ u :: post) {tmp : Str}
    (htmp : u.temporary = some tmp) (hlatest : ∃ v ∈ s.saves, v.number = s.issued)
    (phase : VaultPhase) :
    NodeInv pid path {s with
      disk := s.disk.move tmp path u.bytes.val
      phase
      saves := pre ++ post
      completed := true} := by
  have hu : u ∈ s.saves := by simp [hs]
  have hmem : ∀ v ∈ pre ++ post, v ∈ s.saves := by
    intro v hv
    rw [hs]
    simp only [List.mem_append, List.mem_cons] at hv ⊢
    grind
  have hold := h.apart
  rw [hs] at hold
  simp only [List.pairwise_append, List.pairwise_cons, List.forall_mem_cons] at hold
  have hfiles : ∀ v ∈ pre ++ post, ∀ t, v.temporary = some t →
      (s.disk.move tmp path u.bytes.val).files t = s.disk.files t := by
    intro v hv t ht
    have hne : t ≠ path := fun heq => temporary_ne (h.stage v (hmem v hv)) (heq ▸ ht)
    have hne' : t ≠ tmp := by
      rintro rfl
      rcases List.mem_append.mp hv with hv | hv
      · exact (hold.2.2 v hv).1 t ht htmp
      · exact hold.2.1.1 v hv t htmp ht
    simp only [HostFs.move, Function.update_of_ne hne, Function.update_of_ne hne']
  constructor
  · exact fun v hv => (h.stage v (hmem v hv)).mono (hfiles v hv)
  · exact List.pairwise_append.mpr ⟨hold.1, hold.2.1.2, fun v hv => (hold.2.2 v hv).2⟩
  · exact fun _ => ⟨u.bytes, h.passed u hu, by simp [HostFs.move]⟩
  · intro hn bytes hbytes
    obtain ⟨v, hv, hnumber⟩ := hlatest
    rw [hs] at hv
    have hvu : v = u := by
      by_contra hne
      refine hn v ?_ hnumber
      simp only [List.mem_append, List.mem_cons] at hv ⊢
      grind
    subst hvu
    obtain rfl := Option.some.inj (hbytes.symm.trans (h.newest v hu hnumber))
    simp [HostFs.move]
  · exact fun v hv => h.newest v (hmem v hv)
  · exact fun v hv => h.number_le v (hmem v hv)
  · exact fun v hv => h.passed v (hmem v hv)

/-- A `saveDoc` that begins. -/
theorem NodeInv.save {root : Str} (h : NodeInv pid (docPath root) s)
    (bytes : DocBytes) (phase : VaultPhase) :
    NodeInv pid (docPath root) (s.save (.node pid) root bytes phase) := by
  have hnew : (⟨s.issued + 1, bytes, (Adapter.node pid).saveDoc root bytes⟩ : Save).temporary =
      none := rfl
  constructor
  · simp only [Session.save, List.forall_mem_append, List.forall_mem_singleton]
    exact ⟨h.stage, .start rfl⟩
  · refine List.pairwise_append.mpr ⟨h.apart, List.pairwise_singleton _ _, fun u _ v hv => ?_⟩
    intro tmp _ htmp
    obtain rfl := List.mem_singleton.mp hv
    cases hnew.symm.trans htmp
  · intro hcompleted
    obtain ⟨old, hold, hfile⟩ := h.stored hcompleted
    exact ⟨old, List.mem_cons_of_mem _ hold, hfile⟩
  · intro hn
    exact absurd rfl (hn _ (List.mem_append_right _ (List.mem_singleton_self _)))
  · simp only [Session.save, List.forall_mem_append, List.forall_mem_singleton]
    refine ⟨fun u hu hn => ?_, fun _ => trivial⟩
    have := h.number_le u hu
    omega
  · simp only [Session.save, List.forall_mem_append, List.forall_mem_singleton]
    exact ⟨fun u hu => Nat.le_succ_of_le (h.number_le u hu), le_refl _⟩
  · simp only [Session.save, List.forall_mem_append, List.forall_mem_singleton]
    exact ⟨fun u hu => List.mem_cons_of_mem _ (h.passed u hu), List.mem_cons_self⟩

theorem NodeInv.advance {root : Str} (h : NodeInv pid (docPath root) s) {i now : Nat}
    (hg : s.Orderly (.node pid) root (.advance i now))
    (hs : step (.node pid) root s (.advance i now) = some s') :
    NodeInv pid (docPath root) s' := by
  obtain ⟨u, o, k, hi, hprog, rfl⟩ := step_advance hs
  obtain ⟨pre, post, hsaves, hsplice⟩ := exists_splice hi
  have hu : u ∈ s.saves := List.mem_of_getElem? hi
  have hmem : ∀ v ∈ pre ++ post, v ∈ s.saves := by
    intro v hv
    rw [hsaves]
    simp only [List.mem_append, List.mem_cons] at hv ⊢
    grind
  have hold := h.apart
  rw [hsaves] at hold
  simp only [List.pairwise_append, List.pairwise_cons, List.forall_mem_cons] at hold
  have hapart : ∀ v ∈ pre ++ post, ∀ tmp, v.temporary = some tmp → u.temporary ≠ some tmp := by
    intro v hv tmp htmp hutmp
    rcases List.mem_append.mp hv with hv | hv
    · exact (hold.2.2 v hv).1 tmp htmp hutmp
    · exact hold.2.1.1 v hv tmp hutmp htmp
  have hguard := hg u hi
  cases h.stage u hu with
  | start hstage =>
    rw [hstage] at hprog
    cases hprog
    show NodeInv pid _ {s with disk := _, saves := splice s.saves i [_]}
    rw [hsplice]
    exact h.goesOn hsaves rfl rfl (fun _ _ _ _ => rfl) rfl (.clock rfl) fun _ _ _ _ hnone => by
      cases hnone
  | clock hstage =>
    rw [hstage] at hprog hguard
    cases hprog
    show NodeInv pid _ {s with disk := _, saves := splice s.saves i [_]}
    rw [hsplice]
    refine h.goesOn hsaves rfl rfl (fun _ _ _ _ => rfl) rfl (.fill now rfl) ?_
    intro v hv tmp htmp hutmp
    obtain rfl := Option.some.inj hutmp
    exact hguard v (hmem v hv) htmp
  | fill t hstage =>
    have htmp : u.temporary = some (NodeFs.tmpPath pid t (docPath root)) := by
      rw [Save.temporary, hstage]
      rfl
    rw [hstage] at hprog
    cases hprog
    show NodeInv pid _ {s with disk := _, saves := splice s.saves i [_]}
    rw [hsplice]
    refine h.goesOn hsaves rfl rfl (fun v hv tmp hv' => ?_) ?_ (.land t rfl ?_) ?_
    · exact Function.update_of_ne (fun heq => hapart v hv tmp hv' (by rw [heq, htmp])) _ _
    · exact Function.update_of_ne (tmpPath_ne pid t _).symm _ _
    · exact Function.update_self _ _ _
    · intro v hv tmp hv' hutmp
      exact hapart v hv tmp hv' (htmp.trans hutmp)
  | land t hstage whole =>
    have htmp : u.temporary = some (NodeFs.tmpPath pid t (docPath root)) := by
      rw [Save.temporary, hstage]
      rfl
    rw [hstage] at hprog hguard
    cases hprog
    have hanswer : s.disk.answer true now (.rename (NodeFs.tmpPath pid t (docPath root))
        (docPath root)) = (.ok (), s.disk.move (NodeFs.tmpPath pid t
          (docPath root)) (docPath root) u.bytes.val) := by
      simp [HostFs.answer, whole]
    simp only [Adapter.replaces, hanswer]
    show NodeInv pid _ {s with disk := _, phase := _, saves := splice s.saves i [], completed := _}
    rw [hsplice]
    exact h.lands hsaves htmp hguard _

theorem NodeInv.step {root : Str} (h : NodeInv pid (docPath root) s) {a : Act}
    (hg : s.Orderly (.node pid) root a) (hs : step (.node pid) root s a = some s') :
    NodeInv pid (docPath root) s' := by
  cases a with
  | create bytes =>
    obtain ⟨-, hs⟩ := Option.ite_none_right_eq_some.mp hs
    obtain rfl := Option.some.inj hs
    exact h.save bytes .creating
  | «open» =>
    obtain ⟨-, hs⟩ := Option.ite_none_right_eq_some.mp hs
    obtain rfl := Option.some.inj hs
    exact ⟨h.stage, h.apart, h.stored, h.landed, h.newest, h.number_le, h.passed⟩
  | flush bytes =>
    obtain ⟨-, hs⟩ := Option.ite_none_right_eq_some.mp hs
    obtain rfl := Option.some.inj hs
    exact h.save bytes .live
  | advance i now => exact h.advance hg hs
  | crash =>
    obtain rfl := Option.some.inj hs
    refine ⟨fun u hu => ?_, .nil, h.stored, fun _ bytes hbytes => ?_, fun u hu => ?_,
      fun u hu => ?_, fun u hu => ?_⟩
    · cases hu
    · cases hbytes
    · cases hu
    · cases hu
    · cases hu

end Node

/-! ### Obsidian -/

section Obsidian

variable {path : Str} {u : Save} {replaces : Bool}

/-- The calls `ensureDir` makes. -/
def DirCall : FsCall → Prop
  | .pathExists _ | .mkdir _ => True
  | _ => False

theorem ensureDirs_leads {Q : Code Unit → Prop} {p : Code Unit} (h : Q p) (cur : Str)
    (segs : List Str) :
    Prog.Leads DirCall Q (Obsidian.ensureDirs cur segs >>= fun _ => p) := by
  induction segs generalizing cur with
  | nil => exact .here h
  | cons seg rest ih =>
    refine .call (k := _) trivial fun found => ?_
    cases found with
    | true => exact ih _
    | false => exact .call (k := _) trivial fun _ => ih _

theorem saveDoc_leads (root : Str) (bytes : Bytes) :
    Prog.Leads DirCall (· = Obsidian.atomicWriteBinary (docPath root) bytes)
      (Obsidian.saveDoc root bytes) :=
  ensureDirs_leads (Q := fun p => p = Obsidian.atomicWriteBinary _ bytes) rfl _ _

theorem exists_call_of_leads {bytes : Bytes} {p : Code Unit}
    (h : Prog.Leads DirCall (· = Obsidian.atomicWriteBinary path bytes) p) :
    ∃ o k, p = .call o k := by
  cases h with
  | here h => exact ⟨_, _, h⟩
  | call _ _ => exact ⟨_, _, rfl⟩

/-- How far a save has come. Only `Vault.create`, which runs alone, gets past the check. -/
inductive ObsidianStage (path : Str) (s : Session) (u : Save) : Prop where
  | dirs (h : Prog.Leads DirCall (· = Obsidian.atomicWriteBinary path u.bytes.val) u.prog)
  | check (h : u.prog = Obsidian.replace (path ++ txt ".tmp") path)
      (whole : s.phase = .creating → s.disk.files (path ++ txt ".tmp") = some u.bytes.val)
  | remove (h : u.prog = Host.remove path >>= fun _ => Host.rename (path ++ txt ".tmp") path)
  | rename (h : u.prog = Host.rename (path ++ txt ".tmp") path)
      (whole : s.disk.files (path ++ txt ".tmp") = some u.bytes.val)
      (fresh : s.disk.files path = none)

/-- What a run keeps in which no save removes the document. -/
structure ObsidianInv (path : Str) (s : Session) : Prop where
  stage : ∀ u ∈ s.saves, ObsidianStage path s u
  stored : ∀ file, s.disk.files path = some file → ∃ bytes ∈ s.passed, file = bytes.val
  completed : s.completed → s.disk.files path ≠ none
  closed : s.phase = .closed → s.saves = []
  creating : s.phase = .creating →
    ∃ u, s.saves = [u] ∧ s.latest = some u.bytes ∧ u.bytes ∈ s.passed
  live : s.phase = .live → s.disk.files path ≠ none
  current : s.saves = [] → ∀ bytes, s.latest = some bytes → s.disk.files path = some bytes.val

theorem ObsidianInv.start : ObsidianInv path start := by
  constructor <;> simp [Session.start, HostFs.empty]

theorem doc_ne_tmp (path : Str) : path ≠ path ++ txt ".tmp" := by
  intro h
  have hlen := congrArg List.length h
  simp only [List.length_append] at hlen
  have : (txt ".tmp").length = 4 := rfl
  omega

/-- While a vault is open, a save's stage survives what other saves do. -/
theorem ObsidianStage.mono (h : ObsidianStage path s u) (hdoc : s.disk.files path ≠ none)
    (hphase : s'.phase = .live) : ObsidianStage path s' u := by
  cases h with
  | dirs h => exact .dirs h
  | check h _ => exact .check h fun hcreating => by simp [hphase] at hcreating
  | remove h => exact .remove h
  | rename h _ fresh => exact absurd fresh hdoc

theorem ObsidianInv.save {root : Str} (h : ObsidianInv (docPath root) s)
    (bytes : DocBytes) {phase : VaultPhase} (hphase : phase = .creating ∧ s.saves = [] ∨
      phase = .live ∧ s.phase = .live) :
    ObsidianInv (docPath root) (s.save (.obsidian replaces) root bytes phase) := by
  have hnew : ∀ s', ObsidianStage (docPath root) s'
      ⟨s.issued + 1, bytes, (Adapter.obsidian replaces).saveDoc root bytes⟩ :=
    fun s' => .dirs (saveDoc_leads root bytes.val)
  constructor
  · simp only [Session.save, List.forall_mem_append, List.forall_mem_singleton]
    refine ⟨fun u hu => ?_, hnew _⟩
    rcases hphase with ⟨-, hnil⟩ | ⟨hlive, hold⟩
    · rw [hnil] at hu
      cases hu
    · exact (h.stage u hu).mono (h.live hold) hlive
  · intro file hfile
    obtain ⟨old, hold, hval⟩ := h.stored file hfile
    exact ⟨old, List.mem_cons_of_mem _ hold, hval⟩
  · exact h.completed
  · rintro rfl
    simp at hphase
  · rintro rfl
    have hnil : s.saves = [] := by simpa using hphase
    exact ⟨_, by simp [Session.save, hnil]; rfl, rfl, List.mem_cons_self⟩
  · rintro rfl
    exact h.live (by simpa using hphase)
  · intro hnil
    simp [Session.save] at hnil

/-- A save that goes on, without touching the document. -/
theorem ObsidianInv.goesOn (h : ObsidianInv path s) {i : Nat} (hi : s.saves[i]? = some u)
    {disk : HostFs} (hdoc : disk.files path = s.disk.files path) {prog : Code Unit}
    (hstage : ObsidianStage path {s with disk, saves := splice s.saves i [{u with prog}]}
      {u with prog}) :
    ObsidianInv path {s with disk, saves := splice s.saves i [{u with prog}]} := by
  obtain ⟨pre, post, hsaves, hsplice⟩ := exists_splice hi
  rw [hsplice] at hstage ⊢
  constructor
  · intro v hv
    cases hphase : s.phase with
    | closed =>
      rw [h.closed hphase] at hi
      cases hi
    | creating =>
      obtain ⟨w, hw, -⟩ := h.creating hphase
      rw [hsaves, List.append_eq_singleton_iff] at hw
      rcases hw with ⟨rfl, hw⟩ | ⟨-, hw⟩
      · obtain ⟨rfl, rfl⟩ := List.cons.inj hw
        obtain rfl := List.mem_singleton.mp hv
        exact hphase ▸ hstage
      · cases hw
    | live =>
      have hv' : v = {u with prog} ∨ v ∈ s.saves := by
        rw [hsaves]
        simp only [List.mem_append, List.mem_cons, List.not_mem_nil, or_false] at hv ⊢
        grind
      rcases hv' with rfl | hv'
      · exact hphase ▸ hstage
      · exact (h.stage v hv').mono (h.live hphase) rfl
  · intro file hfile
    exact h.stored file (hdoc ▸ hfile)
  · exact fun hcompleted => hdoc ▸ h.completed hcompleted
  · intro hclosed
    rw [h.closed hclosed] at hi
    cases hi
  · intro hcreating
    obtain ⟨w, hw, hlatest, hpassed⟩ := h.creating hcreating
    rw [hsaves, List.append_eq_singleton_iff] at hw
    rcases hw with ⟨rfl, hw⟩ | ⟨-, hw⟩
    · obtain ⟨rfl, rfl⟩ := List.cons.inj hw
      exact ⟨_, rfl, hlatest, hpassed⟩
    · cases hw
  · exact fun hlive => hdoc ▸ h.live hlive
  · intro hnil
    simp at hnil

theorem ObsidianInv.advance {root : Str} (h : ObsidianInv (docPath root) s)
    {i now : Nat} (hg : s.Orderly (.obsidian replaces) root (.advance i now))
    (hs : step (.obsidian replaces) root s (.advance i now) = some s') :
    ObsidianInv (docPath root) s' := by
  obtain ⟨u, o, k, hi, hprog, rfl⟩ := step_advance hs
  have hu : u ∈ s.saves := List.mem_of_getElem? hi
  have hguard := hg u hi
  cases h.stage u hu with
  | dirs hstage =>
    rw [hprog] at hstage
    cases hstage with
    | here hwrite =>
      cases hwrite
      refine h.goesOn hi (Function.update_of_ne (doc_ne_tmp _) _ _) ?_
      exact .check rfl fun _ => Function.update_self _ _ _
    | @call o k hok hk =>
      have hfiles : ∀ replaces, (s.disk.answer replaces now o).2.files = s.disk.files ∧
          ∃ a, (s.disk.answer replaces now o).1 = .ok a := by
        intro replaces
        cases o <;> first | exact hok.elim | exact ⟨rfl, _, rfl⟩
      obtain ⟨hfiles, a, ha⟩ := hfiles (Adapter.obsidian replaces).replaces
      obtain ⟨o', k', hcall⟩ := exists_call_of_leads (hk a)
      rw [ha, hcall]
      exact h.goesOn hi (by rw [hfiles]) (.dirs (hcall ▸ hk a))
  | check hstage whole =>
    rw [hstage] at hprog
    cases hprog
    cases hfound : (s.disk.files (docPath root)).isSome ||
      s.disk.dirs.contains (docPath root) with
    | true =>
      simp only [HostFs.answer, hfound]
      exact h.goesOn hi rfl (.remove rfl)
    | false =>
      have hfresh : s.disk.files (docPath root) = none := by
        simpa using (Bool.or_eq_false_iff.mp hfound).1
      have hcreating : s.phase = .creating := by
        rcases hphase : s.phase with _ | _ | _
        · rw [h.closed hphase] at hi
          cases hi
        · rfl
        · exact absurd hfresh (h.live hphase)
      simp only [HostFs.answer, hfound]
      exact h.goesOn hi rfl (.rename rfl (whole hcreating) hfresh)
  | remove hstage =>
    rw [hstage] at hguard
    exact hguard.elim
  | rename hstage whole fresh =>
    have hcreating : s.phase = .creating := by
      rcases hphase : s.phase with _ | _ | _
      · rw [h.closed hphase] at hi
        cases hi
      · rfl
      · exact absurd fresh (h.live hphase)
    obtain ⟨v, hv, hlatest, hpassed⟩ := h.creating hcreating
    have huv : u = v := by simpa [hv] using hu
    subst huv
    rw [hstage] at hprog
    cases hprog
    have hempty : splice s.saves i [] = [] := by
      obtain ⟨pre, post, hsaves, hsplice⟩ := exists_splice hi
      rw [hsaves, List.append_eq_singleton_iff] at hv
      rcases hv with ⟨rfl, hv⟩ | ⟨-, hv⟩
      · obtain ⟨-, rfl⟩ := List.cons.inj hv
        rw [hsplice]
        rfl
      · cases hv
    simp only [HostFs.answer, whole, fresh, Option.isSome_none, Bool.false_and, Bool.false_eq_true,
      if_false]
    show ObsidianInv _ {s with disk := _, phase := _, saves := splice s.saves i [], completed := _}
    rw [hempty, if_pos hcreating]
    constructor
    · exact fun _ hw => by cases hw
    · intro file hfile
      simp only [HostFs.move, Function.update_self, Option.some.injEq] at hfile
      exact ⟨u.bytes, hpassed, hfile.symm⟩
    · simp [HostFs.move]
    · intro hclosed
      cases hclosed
    · intro hcreating
      cases hcreating
    · simp [HostFs.move]
    · intro _ bytes hbytes
      obtain rfl := Option.some.inj (hlatest.symm.trans hbytes)
      simp [HostFs.move]

theorem ObsidianInv.step {root : Str} (h : ObsidianInv (docPath root) s) {a : Act}
    (hg : s.Orderly (.obsidian replaces) root a)
    (hs : step (.obsidian replaces) root s a = some s') :
    ObsidianInv (docPath root) s' := by
  cases a with
  | create bytes =>
    obtain ⟨⟨-, hnil⟩, hs⟩ := Option.ite_none_right_eq_some.mp hs
    obtain rfl := Option.some.inj hs
    exact h.save bytes (.inl ⟨rfl, List.isEmpty_iff.mp hnil⟩)
  | «open» =>
    obtain ⟨⟨-, hnil, hload⟩, hs⟩ := Option.ite_none_right_eq_some.mp hs
    obtain rfl := Option.some.inj hs
    have hdoc : s.disk.files (docPath root) ≠ none := by
      intro hnone
      rw [loadDoc_obsidian, hnone] at hload
      cases hload
    have hnil := List.isEmpty_iff.mp hnil
    refine ⟨fun u hu => ?_, h.stored, h.completed, fun hclosed => ?_, fun hcreating => ?_,
      fun _ => hdoc, h.current⟩
    · rw [hnil] at hu
      cases hu
    · cases hclosed
    · cases hcreating
  | flush bytes =>
    obtain ⟨hlive, hs⟩ := Option.ite_none_right_eq_some.mp hs
    obtain rfl := Option.some.inj hs
    exact h.save bytes (.inr ⟨rfl, hlive⟩)
  | advance i now => exact h.advance hg hs
  | crash =>
    obtain rfl := Option.some.inj hs
    refine ⟨fun u hu => ?_, h.stored, h.completed, fun _ => rfl, fun hcreating => ?_,
      fun hlive => ?_, fun _ bytes hbytes => ?_⟩
    · cases hu
    · cases hcreating
    · cases hlive
    · cases hbytes

end Obsidian

/-! ### Whole runs -/

/-- **Atomic, non-regressing persistence.** In an orderly run, whatever step it has reached,
`loadDoc` returns a document that was saved, and the latest once nothing is in flight. -/
theorem persistent_of_orderly
    (h : Machine.Reach (step A root) (fun s a => s.Orderly A root a) start s) :
    s.Persistent A root := by
  cases A with
  | node pid =>
    have hinv : NodeInv pid (docPath root) s :=
      h.invariant NodeInv.start fun x a x' hx hg hs => hx.step hg hs
    constructor
    · intro hcompleted
      rw [loadDoc_node]
      exact hinv.stored hcompleted
    · intro hnil bytes hbytes
      rw [loadDoc_node]
      refine hinv.landed (fun u hu => ?_) bytes hbytes
      rw [hnil] at hu
      cases hu
  | obsidian replaces =>
    have hinv : ObsidianInv (docPath root) s :=
      h.invariant ObsidianInv.start fun x a x' hx hg hs => hx.step hg hs
    have hload : ∀ bytes : DocBytes, s.disk.files (docPath root) = some bytes.val →
        s.loadDoc (.obsidian replaces) root = some bytes.val := by
      intro bytes hfile
      rw [loadDoc_obsidian, hfile]
      simp [Option.filter, bytes.property]
    constructor
    · intro hcompleted
      obtain ⟨file, hfile⟩ := Option.ne_none_iff_exists'.mp (hinv.completed hcompleted)
      obtain ⟨bytes, hbytes, rfl⟩ := hinv.stored file hfile
      exact ⟨bytes, hbytes, hload bytes hfile⟩
    · intro hnil bytes hbytes
      exact hload bytes (hinv.current hnil bytes hbytes)

/-- A save that nothing overlaps is in order. -/
theorem orderly_of_alone {pid : Nat} {u : Save} (hs : s.saves = [u]) (hn : u.number = s.issued)
    (a : Act) : s.Orderly (.node pid) root a := by
  cases a with
  | advance i now =>
    intro v hv
    obtain rfl : v = u := List.mem_singleton.mp (hs ▸ List.mem_of_getElem? hv)
    cases hnext : v.prog.next with
    | none => trivial
    | some o =>
      cases o with
      | rename oldPath newPath => exact ⟨v, hs ▸ List.mem_singleton_self v, hn⟩
      | now =>
        intro w hw
        obtain rfl := List.mem_singleton.mp (hs ▸ hw)
        rw [Save.temporary, hnext]
        simp [FsCall.temporary]
      | _ => trivial
  | _ => trivial

/-- The condition is needed over Obsidian: a save that removes the document leaves none. -/
theorem remove_unstores (replaces : Bool) {i : Nat} {u : Save} (now : Nat)
    (hi : s.saves[i]? = some u) (hremove : u.prog = Host.remove (docPath root) >>=
      fun _ => Host.rename (docPath root ++ txt ".tmp") (docPath root))
    (hdoc : s.disk.files (docPath root) ≠ none) :
    ∃ s', step (.obsidian replaces) root s (.advance i now) = some s' ∧
      s'.completed = s.completed ∧ s'.loadDoc (.obsidian replaces) root = none := by
  obtain ⟨bytes, hbytes⟩ := Option.ne_none_iff_exists'.mp hdoc
  have hanswer : s.disk.answer (Adapter.obsidian replaces).replaces now (.remove (docPath root)) =
      (.ok (), {s.disk with files := Function.update s.disk.files (docPath root) none}) := by
    simp only [HostFs.answer, hbytes]
  refine ⟨s.resume i u {s.disk with files := Function.update s.disk.files (docPath root) none}
    (Host.rename (docPath root ++ txt ".tmp") (docPath root)), ?_, rfl, ?_⟩
  · show (s.saves[i]?).bind _ = _
    rw [hi, Option.bind_some, hremove]
    show some (s.resume i u (s.disk.answer (Adapter.obsidian replaces).replaces now
      (.remove (docPath root))).2 _) = _
    rw [hanswer]
    rfl
  · rw [loadDoc_obsidian]
    show (Function.update s.disk.files (docPath root) none (docPath root)).filter _ = none
    rw [Function.update_self]
    rfl

/-- The condition is needed over Node: the last save to land leaves its own bytes. -/
theorem late_landing_regresses (pid : Nat) {u : Save} {tmp : Str} {latest : DocBytes} (now : Nat)
    (hs : s.saves = [u]) (hland : u.prog = NodeFs.land tmp (docPath root))
    (whole : s.disk.files tmp = some u.bytes.val) (hlatest : s.latest = some latest)
    (hne : u.bytes ≠ latest) :
    ∃ s', step (.node pid) root s (.advance 0 now) = some s' ∧ ¬ s'.Persistent (.node pid) root := by
  have hanswer : s.disk.answer true now (.rename tmp (docPath root)) = (.ok (),
      s.disk.move tmp (docPath root) u.bytes.val) := by
    simp [HostFs.answer, whole]
  refine ⟨s.resume 0 u (s.disk.move tmp (docPath root) u.bytes.val) (.pure ()), ?_, fun h => ?_⟩
  · show (s.saves[0]?).bind _ = _
    rw [hs]
    show (match u.prog with
      | .call o k => some (s.resume 0 u (s.disk.answer true now o).2 (k (s.disk.answer true now o).1))
      | _ => none) = _
    rw [hland]
    show some (s.resume 0 u (s.disk.answer true now (.rename tmp (docPath root))).2 _) = _
    rw [hanswer]
    rfl
  · have hcurrent := h.current (by simp [resume, hs, splice]) latest hlatest
    rw [loadDoc_node] at hcurrent
    simp only [resume, HostFs.move, Function.update_self, Option.some.injEq] at hcurrent
    exact hne (Subtype.ext hcurrent)

private def first : DocBytes := ⟨[1], by simp⟩

private def second : DocBytes := ⟨[2], by simp⟩

/-- Over Obsidian the second save has removed the document; over Node the first of two flushes
lands after the second. -/
private def removing : List Act :=
  .create first :: List.replicate 5 (.advance 0 0) ++ .flush second :: List.replicate 4 (.advance 0 0)

private def overtaken : List Act :=
  .create first :: List.replicate 4 (.advance 0 0) ++ [.flush first, .flush second] ++
    List.replicate 3 (.advance 0 1) ++ List.replicate 4 (.advance 1 2) ++ [.advance 0 3]

theorem persistent_of_orderly_overlapping :
    (∃ s, Machine.Reach (step (.obsidian true) (txt ".agentsync")) (fun _ _ => True) start s ∧
      ¬ s.Persistent (.obsidian true) (txt ".agentsync")) ∧
    ∃ s, Machine.Reach (step (.node 7) (txt ".agentsync")) (fun _ _ => True) start s ∧
      ¬ s.Persistent (.node 7) (txt ".agentsync") := by
  have hremoving : (Machine.run (step (.obsidian true) (txt ".agentsync")) start removing).map
      (fun s => (s.completed, s.loadDoc (.obsidian true) (txt ".agentsync"))) =
      some (true, none) := by decide +kernel
  have hovertaken : (Machine.run (step (.node 7) (txt ".agentsync")) start overtaken).map
      (fun s => (s.saves.length, s.latest, s.loadDoc (.node 7) (txt ".agentsync"))) =
      some (0, some second, some first.val) := by decide +kernel
  obtain ⟨s, hs, hread⟩ := Option.map_eq_some_iff.mp hremoving
  obtain ⟨t, ht, hread'⟩ := Option.map_eq_some_iff.mp hovertaken
  simp only [Prod.mk.injEq] at hread hread'
  refine ⟨⟨s, .of_run (.of_forall (fun _ _ => trivial) _) hs, fun h => ?_⟩,
    ⟨t, .of_run (.of_forall (fun _ _ => trivial) _) ht, fun h => ?_⟩⟩
  · obtain ⟨bytes, -, hbytes⟩ := h.atomic hread.1
    cases hread.2.symm.trans hbytes
  · have hcurrent := h.current (List.length_eq_zero_iff.mp hread'.1) second hread'.2.1
    rw [hread'.2.2] at hcurrent
    cases hcurrent

/-- Two flushes overlap, each with a temporary file of its own, and land in their order. -/
private def interleaved : List Act :=
  .create first :: List.replicate 4 (.advance 0 0) ++ [.flush first, .flush second,
    .advance 0 1, .advance 1 1, .advance 0 1, .advance 1 2, .advance 0 3, .advance 1 3,
    .advance 0 4, .advance 0 5]

/-- `Orderly` over Node, computed. -/
private def ordered (pid : Nat) (root : Str) (s : Session) : Act → Bool
  | .advance i now => (s.saves[i]?).all fun u =>
    match u.prog.next with
    | some .now => s.saves.all fun v =>
        v.temporary != some (NodeFs.tmpPath pid now (docPath root))
    | some (.rename _ _) => s.saves.any fun v => v.number == s.issued
    | _ => true
  | _ => true

private theorem orderly_of_ordered {pid : Nat} (s : Session) (a : Act)
    (h : ordered pid root s a = true) : s.Orderly (.node pid) root a := by
  cases a with
  | advance i now =>
    intro u hu
    simp only [ordered, hu, Option.all_some] at h
    cases hnext : u.prog.next with
    | none => trivial
    | some o =>
      cases o with
      | rename oldPath newPath => simpa [hnext] using h
      | now => simpa [hnext] using h
      | _ => trivial
  | _ => trivial

theorem persistent_of_orderly_flushes : ∃ s : Session, s.saves = [] ∧
    s.loadDoc (.node 7) (txt ".agentsync") = some second.val ∧
    s.Persistent (.node 7) (txt ".agentsync") := by
  have hrun : (Machine.run (step (.node 7) (txt ".agentsync")) start interleaved).map
      (fun s => (s.saves.length, s.loadDoc (.node 7) (txt ".agentsync"))) =
      some (0, some second.val) := by decide +kernel
  have hordered : Machine.allowed (step (.node 7) (txt ".agentsync"))
      (ordered 7 (txt ".agentsync")) start interleaved = true := by decide +kernel
  obtain ⟨s, hs, hread⟩ := Option.map_eq_some_iff.mp hrun
  simp only [Prod.mk.injEq] at hread
  exact ⟨s, List.length_eq_zero_iff.mp hread.1, hread.2,
    persistent_of_orderly (.of_run (.of_allowed orderly_of_ordered hordered) hs)⟩

end Session

end AgentSync.Sdk
