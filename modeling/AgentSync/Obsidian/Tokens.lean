import AgentSync.Obsidian.Tasks

/-! The tokens of the bridge.

The bridge takes a token for a path right before it writes there, and the handler of the event
that the write brings about gives it back. Whether that keeps the tokens equal to the writes
whose events are still to come is settled call by call: `Pays` says of a program which write it
owes for a token it holds, `slice_pays` that a program runs from one await to the next without
gaining or losing a token, and `step_iff` which steps keep the balance. A write that the
host refuses is not among them. -/
namespace AgentSync.Obsidian

open Js Async Machine

/-! ### The law -/

namespace Running

/-- The writes of the plugin at the path whose events have not been delivered yet. -/
def outstanding (r : Running) (path : Str) : Nat :=
  (r.events.map VaultEvent.path?).count (some path) + (r.tasks.map Waiting.due).count (some path)

/-- A token for every outstanding write. -/
def Balanced (r : Running) : Prop := ∀ path, r.fields.tokens path = r.outstanding path

/-- No write of the plugin is rejected, but for a create that finds the file there and goes on
to modify it; and nobody else's event comes for a path while a write of the plugin is outstanding
there. -/
def Clean (r : Running) : Act → Prop
  | .settle i result view => ∀ t ∈ r.tasks[i]?, ∀ path ∈ t.wait.target, ∀ e,
      result t.wait = .error e → (∃ content, t.wait = .create path content) ∧
        alreadyExists e = true ∧ view.getAbstractFileByPath path = some .file
  | .user event _ => ∀ path ∈ event.path?, r.outstanding path = 0
  | _ => True

end Running

/-! ### Tokens of the fields -/

namespace Fields

variable (f : Fields) (path q : Str)

theorem tokens_suppress :
    (f.suppress path).tokens q = f.tokens q + [some path].count (some q) := by
  by_cases hq : q = path
  · subst hq
    simp [tokens, suppress, JsMap.get?_set_self]
  · simp [tokens, suppress, JsMap.get?_set_of_ne hq, Ne.symm hq]

theorem consumeSuppression_of_zero (h : f.tokens path = 0) :
    f.consumeSuppression path = (false, f) := by
  rw [consumeSuppression, h]

theorem consumeSuppression_of_pos (h : 0 < f.tokens path) :
    (f.consumeSuppression path).1 = true ∧
      (f.consumeSuppression path).2.tokens q + [some path].count (some q) = f.tokens q := by
  obtain ⟨n, hn⟩ := Nat.exists_eq_succ_of_ne_zero h.ne'
  cases n with
  | zero =>
    have hrun : f.consumeSuppression path =
        (true, {f with suppressed := f.suppressed.restrict (· ≠ path)}) := by
      rw [consumeSuppression, hn]
    rw [hrun]
    refine ⟨rfl, ?_⟩
    by_cases hq : q = path
    · subst hq
      simpa [tokens, JsMap.get?_restrict] using hn.symm
    · simp [tokens, JsMap.get?_restrict, hq, Ne.symm hq]
  | succ n =>
    have hrun : f.consumeSuppression path =
        (true, {f with suppressed := f.suppressed.set path (n + 1)}) := by
      rw [consumeSuppression, hn]
    rw [hrun]
    refine ⟨rfl, ?_⟩
    by_cases hq : q = path
    · subst hq
      simpa [tokens, JsMap.get?_set_self] using hn.symm
    · simp [tokens, JsMap.get?_set_of_ne hq, Ne.symm hq]

end Fields

/-! ### What a program owes -/

/-- The token that a write leaves to what comes after it: a create that finds the file there. -/
def Wait.left (v : View) : (w : Wait) → Except Str w.Answer → Option Str
  | .create path _, .error e =>
    if alreadyExists e ∧ v.getAbstractFileByPath path = some .file then some path else none
  | _, _ => none

/-- A program that holds a token for the path in `d`, and owes a write there: every token it
takes it pays at its next await. -/
inductive Pays {α : Type} : View → Option Str → Code α → Prop where
  | pure (v : View) (r : α) : Pays v none (.pure r)
  | throw (v : View) (e : Str) : Pays v none (.throw e)
  | suppress {v : View} {path : Str} {k : Except Str Unit → Code α} :
      Pays v (some path) (k (.ok ())) → Pays v none (.call (.sync (.suppress path)) k)
  | sync {v : View} {d : Option Str} {s : Sync} {k : Except Str s.Answer → Code α} :
      (∀ f, (s.run v f).2.suppressed = f.suppressed) → (∀ f, Pays v d (k (s.run v f).1)) →
      Pays v d (.call (.sync s) k)
  | wait {v : View} {w : Wait} {k : Except Str w.Answer → Code α} :
      (∀ v' r, Pays v' (w.left v' r) (k r)) → Pays v w.target (.call (.wait w) k)

namespace Pays

variable {α β : Type} {v : View} {d : Option Str}

protected theorem bind {p : Code α} {g : α → Code β} (hp : Pays v d p)
    (hg : ∀ v r, Pays v none (g r)) : Pays v d (p >>= g) := by
  induction hp with
  | pure v r => exact hg v r
  | throw v e => exact .throw v e
  | suppress _ ih => exact .suppress ih
  | sync hkeeps _ ih => exact .sync hkeeps ih
  | wait _ ih => exact .wait ih

/-- A question, or a field that is not the tokens. -/
theorem ask {s : Sync} (hs : ∀ v f, (s.run v f).2.suppressed = f.suppressed) :
    Pays v none (Prog.await (HostCall.sync s) : Code s.Answer) :=
  .sync (hs v) fun f => match (s.run v f).1 with
    | .ok r => .pure v r
    | .error e => .throw v e

theorem await (w : Wait) (hw : ∀ v r, w.left v r = none) :
    Pays v w.target (Prog.await (HostCall.wait w) : Code w.Answer) :=
  .wait fun v r => by
    rw [hw]
    exact match r with
      | .ok r => .pure v r
      | .error e => .throw v e

theorem suppress_bind {path : Str} {p : Code α} (hp : Pays v (some path) p) :
    Pays v none (Code.suppress path >>= fun _ => p) := .suppress hp

theorem unlessExists {call recover : Code Unit} (hcall : Pays v d call)
    (hrecover : ∀ v, Pays v none recover) : Pays v d (Code.unlessExists call recover) := by
  induction hcall with
  | pure v r => exact .pure v r
  | throw v e =>
    by_cases he : alreadyExists e = true
    · have heq : Code.unlessExists (.throw e) recover = recover := if_pos he
      rw [heq]
      exact hrecover v
    · have heq : Code.unlessExists (.throw e) recover = .throw e := if_neg he
      rw [heq]
      exact .throw v e
  | suppress _ ih => exact .suppress ih
  | sync hkeeps _ ih => exact .sync hkeeps ih
  | wait _ ih => exact .wait ih

/-! ### The programs of the bridge -/

theorem getAbstractFileByPath (path : Str) : Pays v none (Code.getAbstractFileByPath path) :=
  ask fun _ _ => rfl

theorem ensureFolders (cur : Str) (parts : List Str) :
    Pays v none (Code.ensureFolders cur parts) := by
  induction parts generalizing cur v with
  | nil => exact .pure v ()
  | cons seg rest ih =>
    apply Pays.bind (getAbstractFileByPath _)
    intro v found
    cases found with
    | some _ => exact ih _
    | none =>
      have hcreate (path : Str) : Pays v none (Code.createFolder path) :=
        await (.createFolder path) fun _ _ => rfl
      exact .bind ((hcreate _).unlessExists fun v => .pure v ()) fun _ _ => ih _

theorem ensureFolderFor (path : Str) : Pays v none (Code.ensureFolderFor path) := by
  simp only [Code.ensureFolderFor]
  split
  · exact .pure v ()
  · apply Pays.bind (getAbstractFileByPath _)
    intro v found
    cases found with
    | some _ => exact .pure v ()
    | none => exact ensureFolders _ _

theorem vaultModify (path content : Str) : Pays v (some path) (Code.vaultModify path content) :=
  await (.modify path content) fun _ _ => rfl

theorem vaultDelete (path : Str) : Pays v (some path) (Code.vaultDelete path) :=
  await (.delete path) fun _ _ => rfl

/-- The token of a create that finds the file there is for the modify. -/
theorem createOrModify (path content : Str) : Pays v (some path)
    (Code.unlessExists (Code.vaultCreate path content) (Code.orModify path content)) := by
  show Pays v (Wait.create path content).target (Prog.call (.wait (.create path content)) _)
  apply Pays.wait
  intro v r
  cases r with
  | ok _ => exact .pure v ()
  | error e =>
    by_cases he : alreadyExists e = true
    · show Pays v (Wait.left v (.create path content) (.error e))
        (if alreadyExists e then Code.orModify path content else .throw e)
      rw [if_pos he]
      apply Pays.sync (fun _ => rfl)
      intro f
      match hfound : v.getAbstractFileByPath path with
      | some .file =>
        have hleft : Wait.left v (.create path content) (.error e) = some path :=
          if_pos ⟨he, hfound⟩
        rw [hleft]
        simp only [Sync.run, hfound]
        exact vaultModify path content
      | some .folder | none =>
        have hleft : Wait.left v (.create path content) (.error e) = none :=
          if_neg fun h => by simp [hfound] at h
        rw [hleft]
        simp only [Sync.run, hfound]
        exact .pure v ()
    · have hleft : Wait.left v (.create path content) (.error e) = none :=
        if_neg fun h => he h.1
      rw [hleft]
      show Pays v none (if alreadyExists e then Code.orModify path content else .throw e)
      rw [if_neg he]
      exact .throw v e

theorem createRemote (path content : Str) : Pays v none (Code.createRemote path content) :=
  .bind (ensureFolderFor path) fun _ _ => suppress_bind (createOrModify path content)

theorem modifyRemote (path content : Str) : Pays v none (Code.modifyRemote path content) := by
  have hread : Pays v none (Code.vaultRead path) := await (.read path) fun _ _ => rfl
  apply Pays.bind hread
  intro v cur
  split
  · exact .pure v ()
  · exact suppress_bind (vaultModify path content)

theorem deleteLocal (path : Str) : Pays v none (Code.deleteLocal path) :=
  suppress_bind (vaultDelete path)

theorem applyOneRemoteFile (filter : Str → Bool) (file : FileMeta) :
    Pays v none (Code.applyOneRemoteFile filter file) := by
  unfold Code.applyOneRemoteFile
  split
  · exact .pure v ()
  · split
    · exact .pure v ()
    · apply Pays.bind (getAbstractFileByPath _)
      intro v existing
      split
      · cases existing with
        | some _ => exact deleteLocal _
        | none => exact .pure v ()
      · have hread : Pays v none (Code.readTextFile file.path) :=
          await (.readTextFile file.path) fun _ _ => rfl
        apply Pays.bind hread
        intro v content
        match existing with
        | some .file => exact modifyRemote _ _
        | some .folder | none => exact createRemote _ _

theorem yieldAfter (i : Nat) : Pays v none (Code.yieldAfter i) := by
  have hyield : Pays v none Code.yieldToEventLoop := await .yieldToEventLoop fun _ _ => rfl
  unfold Code.yieldAfter
  split
  · exact hyield
  · exact .pure v ()

theorem applyFiles (filter : Str → Bool) (i : Nat) (files : List FileMeta) :
    Pays v none (Code.applyFiles filter i files) := by
  induction files generalizing i v with
  | nil => exact .pure v ()
  | cons file rest ih =>
    exact .bind (applyOneRemoteFile filter file) fun _ _ => .bind (yieldAfter _) fun _ _ => ih _

theorem applyTombstones (filter : Str → Bool) (currentPaths : List Str) (j : Nat)
    (paths : List Str) : Pays v none (Code.applyTombstones filter currentPaths j paths) := by
  induction paths generalizing j v with
  | nil => exact .pure v ()
  | cons path rest ih =>
    unfold Code.applyTombstones
    split
    · exact ih j
    · split
      · exact ih j
      · apply Pays.bind (getAbstractFileByPath path)
        intro v found
        cases found with
        | none => exact ih j
        | some _ =>
          exact .bind (deleteLocal path) fun _ _ => .bind (yieldAfter _) fun _ _ => ih _

theorem applyRemoteState (filter : Str → Bool) : Pays v none (Code.applyRemoteState filter) := by
  have hlist : Pays v none Code.listFiles := ask fun _ _ => rfl
  have hknown {v : View} : Pays v none Code.knownSdkPaths := ask fun _ _ => rfl
  have hset {v : View} (paths : List Str) : Pays v none (Code.setKnownSdkPaths paths) :=
    ask fun _ _ => rfl
  apply Pays.bind hlist
  intro v files
  apply Pays.bind (applyFiles filter 0 files)
  intro v _
  apply Pays.bind hknown
  intro v known
  exact .bind (applyTombstones filter _ 0 known) fun _ _ => hset _

theorem pushAll (i : Nat) (ops : List PlannedWrite) : Pays v none (Code.pushAll i ops) := by
  induction ops generalizing i v with
  | nil => exact .pure v ()
  | cons op rest ih =>
    have hwrite : Pays v none (Code.writeTextFile op.path op.content) :=
      await (.writeTextFile op.path op.content) fun _ _ => rfl
    exact .bind hwrite fun _ _ => .bind (yieldAfter _) fun _ _ => ih _

theorem deleteAll (k : Nat) (paths : List Str) : Pays v none (Code.deleteAll k paths) := by
  induction paths generalizing k v with
  | nil => exact .pure v ()
  | cons path rest ih =>
    apply Pays.bind (getAbstractFileByPath path)
    intro v found
    cases found with
    | none => exact .bind (yieldAfter _) fun _ _ => ih _
    | some _ => exact .bind (deleteLocal path) fun _ _ => .bind (yieldAfter _) fun _ _ => ih _

theorem runReconcile (filter : Str → Bool) : Pays v none (Code.runReconcile filter) := by
  have hplan : Pays v none Code.planReconcile := await .planReconcile fun _ _ => rfl
  apply Pays.bind hplan
  intro v plan
  apply Pays.bind (pushAll 0 plan.pushToSdk)
  intro v _
  exact .bind (applyFiles filter 0 _) fun _ _ => deleteAll 0 _

theorem pass (filter : Str → Bool) (p : Pass) : Pays v none (p.code filter) := by
  cases p with
  | applyRemoteState => exact applyRemoteState filter
  | applyOneRemoteFile file => exact applyOneRemoteFile filter file
  | runReconcile => exact runReconcile filter

/-! ### The handlers -/

theorem fileExists (path : Str) : Pays v none (Code.fileExists path) := ask fun _ _ => rfl

theorem vaultRead (path : Str) : Pays v none (Code.vaultRead path) :=
  await (.read path) fun _ _ => rfl

theorem writeTextFile (path content : Str) : Pays v none (Code.writeTextFile path content) :=
  await (.writeTextFile path content) fun _ _ => rfl

theorem deleteFile (path : Str) : Pays v none (Code.deleteFile path) :=
  await (.deleteFile path) fun _ _ => rfl

theorem pushFile (path : Str) : Pays v none (Code.pushFile path) :=
  .bind (vaultRead path) fun _ _ => writeTextFile path _

/-- A handler looks at its path's tokens first, and does nothing where it finds one. -/
theorem handler (filter : Str → Bool) {event : VaultEvent} {path : Str}
    (hpath : event.path? = some path) : ∃ k : Bool → Code Unit,
      event.code filter = Code.consumeSuppression path >>= k ∧ k true = .pure () ∧
        ∀ v, Pays v none (k false) := by
  cases event with
  | write p isFile =>
    obtain ⟨rfl, hp⟩ := Option.ite_none_right_eq_some.mp hpath
    cases hp
    refine ⟨_, rfl, rfl, fun v => ?_⟩
    simp only [Bool.false_eq_true, if_false]
    split
    · exact .pure v ()
    · apply Pays.bind (vaultRead path)
      intro v content
      apply Pays.bind (fileExists path)
      intro v found
      split
      · have hread : Pays v none (Code.readTextFile path) :=
          await (.readTextFile path) fun _ _ => rfl
        apply Pays.bind hread
        intro v remote
        split
        · exact .pure v ()
        · exact writeTextFile _ _
      · exact writeTextFile _ _
  | delete p =>
    cases hpath
    refine ⟨_, rfl, rfl, fun v => ?_⟩
    simp only [Bool.false_eq_true, if_false]
    apply Pays.bind (fileExists path)
    intro v found
    split
    · exact .pure v ()
    · exact deleteFile path
  | rename p oldPath isFile =>
    cases hpath
    refine ⟨_, rfl, rfl, fun v => ?_⟩
    simp only [Bool.false_eq_true, if_false]
    split
    · apply Pays.bind (fileExists oldPath)
      intro v found
      split
      · exact await (.renameFile oldPath path) fun _ _ => rfl
      · split
        · exact pushFile path
        · exact .pure v ()
    · split
      · apply Pays.bind (fileExists oldPath)
        intro v found
        split
        · exact deleteFile oldPath
        · exact .pure v ()
      · split
        · exact pushFile path
        · exact .pure v ()

end Pays

/-! ### Slices -/

/-- A task that waits goes on as its program owes. -/
def Waiting.Sound (t : Waiting) : Prop := ∀ v r, Pays v (t.wait.left v r) (t.k r)

variable {filter : Str → Bool}

/-- **To its next await a program takes one token for each write it starts, and gives back what
it held.** -/
theorem slice_pays {v : View} {d : Option Str} {p : Code Unit} (h : Pays v d p) (f : Fields) :
    (∀ path, (slice v f p).1.tokens path + [d].count (some path) =
      f.tokens path + ((slice v f p).2.toList.map Waiting.due).count (some path)) ∧
      ∀ t ∈ (slice v f p).2, t.Sound := by
  induction h generalizing f with
  | pure v r => exact ⟨fun _ => rfl, nofun⟩
  | throw v e => exact ⟨fun _ => rfl, nofun⟩
  | @suppress v q k _ ih =>
    refine ⟨fun path => ?_, (ih (f.suppress q)).2⟩
    have hslice := (ih (f.suppress q)).1 path
    rw [Fields.tokens_suppress] at hslice
    show (slice v (f.suppress q) (k (.ok ()))).1.tokens path + 0 = f.tokens path +
      ((slice v (f.suppress q) (k (.ok ()))).2.toList.map Waiting.due).count (some path)
    omega
  | @sync v d s k hkeeps _ ih =>
    have htokens (path : Str) : (s.run v f).2.tokens path = f.tokens path := by
      rw [Fields.tokens, hkeeps f]
      rfl
    have hslice := ih f (s.run v f).2
    simp only [htokens] at hslice
    exact hslice
  | wait hk ih =>
    refine ⟨fun path => rfl, ?_⟩
    intro t ht
    cases ht
    exact hk

/-- A handler that finds a token. -/
theorem slice_consumed {event : VaultEvent} {path : Str} (hpath : event.path? = some path)
    (v : View) {f : Fields} (hf : 0 < f.tokens path) :
    slice v f (event.code filter) = ((f.consumeSuppression path).2, none) := by
  obtain ⟨k, hcode, htrue, -⟩ := Pays.handler filter hpath
  rw [hcode]
  show slice v (f.consumeSuppression path).2 (k (f.consumeSuppression path).1) = _
  rw [(f.consumeSuppression_of_pos path path hf).1, htrue]
  rfl

/-- A handler that finds none runs as a program that owes nothing. -/
theorem slice_handled {event : VaultEvent} (v : View) {f : Fields}
    (hf : ∀ path ∈ event.path?, f.tokens path = 0) : ∃ p : Code Unit, Pays v none p ∧
      slice v f (event.code filter) = slice v f p := by
  cases hpath : event.path? with
  | none =>
    cases event with
    | write p isFile =>
      cases isFile with
      | false => exact ⟨_, .pure v (), rfl⟩
      | true => cases hpath
    | delete p => cases hpath
    | rename p q isFile => cases hpath
  | some path =>
    obtain ⟨k, hcode, -, hfalse⟩ := Pays.handler filter hpath
    refine ⟨k false, hfalse v, ?_⟩
    rw [hcode]
    show slice v (f.consumeSuppression path).2 (k (f.consumeSuppression path).1) = _
    rw [f.consumeSuppression_of_zero path (hf path hpath)]

/-! ### The law of every run -/

namespace Running

variable {r r' : Running} {a : Act}

/-- Every task goes on as its program owes. -/
def Sound (r : Running) : Prop := ∀ t ∈ r.tasks, t.Sound

/-- What a program that starts leaves under way. -/
theorem outstanding_begin (r : Running) (v : View) (p : Code Unit) (path : Str) :
    (r.begin v p).outstanding path = r.outstanding path +
      ((slice v r.fields p).2.toList.map Waiting.due).count (some path) := by
  simp only [outstanding, begin, List.map_append, List.count_append, Nat.add_assoc]

/-- A program that owes nothing brings its own tokens. -/
theorem begin_pays {v : View} {p : Code Unit} (hp : Pays v none p) (path : Str) :
    (r.begin v p).fields.tokens path + r.outstanding path =
      r.fields.tokens path + (r.begin v p).outstanding path := by
  have hslice : (r.begin v p).fields.tokens path + 0 = r.fields.tokens path +
      ((slice v r.fields p).2.toList.map Waiting.due).count (some path) :=
    (slice_pays hp r.fields).1 path
  rw [outstanding_begin]
  omega

theorem begin_sound {v : View} {p : Code Unit} (hp : Pays v none p) (hsound : r.Sound) :
    (r.begin v p).Sound := by
  intro t ht
  rcases List.mem_append.mp ht with hold | hnew
  · exact hsound t hold
  · exact (slice_pays hp r.fields).2 t (Option.mem_toList.mp hnew)

/-- What a change of one task does to the writes under way. -/
theorem count_splice {ts : List Waiting} {i : Nat} {t : Waiting} (h : ts[i]? = some t)
    (new : List Waiting) (path : Str) : ((splice ts i new).map Waiting.due).count (some path) +
      [t.due].count (some path) = (ts.map Waiting.due).count (some path) +
        (new.map Waiting.due).count (some path) := by
  obtain ⟨pre, post, rfl, hsplice⟩ := exists_splice h
  rw [hsplice]
  simp only [List.map_append, List.map_cons, List.count_append, List.count_cons, List.count_nil]
  omega

/-- A token is left to the program exactly where it has another write to begin with. -/
theorem left_eq_due_iff {t : Waiting} {v : View} {result : Except Str t.wait.Answer}
    (hok : t.wait.event.isSome = true → result.isOk = t.performed) :
    t.wait.left v result = t.due ↔ ∀ path ∈ t.wait.target, ∀ e, result = .error e →
      (∃ content, t.wait = .create path content) ∧ alreadyExists e = true ∧
        v.getAbstractFileByPath path = some .file := by
  obtain ⟨w, k, performed⟩ := t
  cases w with
  | create p content =>
    cases result with
    | ok r =>
      obtain rfl : true = performed := hok rfl
      exact iff_of_true rfl (fun _ _ _ h => nomatch h)
    | error e =>
      obtain rfl : false = performed := hok rfl
      show (if alreadyExists e ∧ v.getAbstractFileByPath p = some .file then some p else none) =
        some p ↔ _
      rw [ite_eq_left_iff]
      constructor
      · intro h path hpath e' he
        cases hpath
        cases he
        exact ⟨⟨content, rfl⟩, by_contra fun hnot => nomatch h hnot⟩
      · intro h hnot
        exact absurd (h p rfl e rfl).2 hnot
  | modify p _ | delete p =>
    cases result with
    | ok r =>
      obtain rfl : true = performed := hok rfl
      exact iff_of_true rfl (fun _ _ _ h => nomatch h)
    | error e =>
      obtain rfl : false = performed := hok rfl
      refine iff_of_false nofun fun h => ?_
      obtain ⟨content', hcreate⟩ := (h p rfl e rfl).1
      cases hcreate
  | _ =>
    refine iff_of_true ?_ fun _ h => nomatch h
    cases performed <;> rfl

theorem count_singleton_inj {x y : Option Str} :
    (∀ path, [x].count (some path) = [y].count (some path)) ↔ x = y := by
  constructor
  · intro h
    have hmem (path : Str) : x = some path ↔ y = some path := by
      have hcount := h path
      rw [List.count_singleton, List.count_singleton] at hcount
      by_cases hx : x = some path
      · by_cases hy : y = some path
        · exact iff_of_true hx hy
        · simp [hx, hy] at hcount
      · by_cases hy : y = some path
        · simp [hx, hy] at hcount
        · exact iff_of_false hx hy
    exact Option.ext hmem
  · intro h path
    rw [h]

theorem settle_iff {i : Nat} {result : (w : Wait) → Except Str w.Answer} {v : View}
    (hsound : r.Sound) (hbalanced : r.Balanced)
    (hstep : r.step filter (.settle i result v) = some r') :
    r'.Sound ∧ (r'.Balanced ↔ r.Clean (.settle i result v)) := by
  obtain ⟨t, ht, hnext⟩ := Option.bind_eq_some_iff.mp hstep
  obtain ⟨hok, hnext⟩ := Option.ite_none_left_eq_some.mp hnext
  cases hnext
  have hpays := hsound t (List.mem_of_getElem? ht) v (result t.wait)
  obtain ⟨htokens, hnew⟩ := slice_pays hpays r.fields
  constructor
  · intro u hu
    rcases mem_splice hu with hin | hold
    · exact hnew u (Option.mem_toList.mp hin)
    · exact hsound u hold
  · have hclean : r.Clean (.settle i result v) ↔ t.wait.left v (result t.wait) = t.due := by
      rw [left_eq_due_iff fun hevent => by_contra fun hne => hok ⟨hevent, hne⟩]
      simp only [Clean, ht, Option.mem_some_iff, forall_eq']
    rw [hclean, ← count_singleton_inj]
    refine forall_congr' fun path => ?_
    have hcount := count_splice ht (slice v r.fields (t.k (result t.wait))).2.toList path
    have hpath := hbalanced path
    have htoken := htokens path
    rw [outstanding] at hpath ⊢
    simp only
    omega

theorem perform_balanced {i : Nat} (hsound : r.Sound) (hbalanced : r.Balanced)
    (hstep : r.step filter (.perform i) = some r') : r'.Sound ∧ r'.Balanced := by
  obtain ⟨t, ht, hnext⟩ := Option.bind_eq_some_iff.mp hstep
  obtain ⟨event, hevent, hnext⟩ := Option.bind_eq_some_iff.mp hnext
  obtain ⟨hperformed, hnext⟩ := Option.ite_none_left_eq_some.mp hnext
  cases hnext
  constructor
  · intro u hu
    rcases mem_splice hu with hin | hold
    · obtain rfl := List.mem_singleton.mp hin
      exact hsound t (List.mem_of_getElem? ht)
    · exact hsound u hold
  · intro path
    have hcount : ((splice r.tasks i [{t with performed := true}]).map Waiting.due).count
        (some path) + [t.due].count (some path) =
          (r.tasks.map Waiting.due).count (some path) + 0 := count_splice ht _ path
    have hdue : t.due = event.path? := by
      rw [Waiting.due, if_neg hperformed, Wait.target, hevent]
      rfl
    have hpath := hbalanced path
    rw [outstanding] at hpath ⊢
    simp only [List.map_append, List.map_cons, List.map_nil, List.count_append]
    rw [hdue] at hcount
    omega

/-- What the delivery of an event takes from the events to come. -/
theorem outstanding_eraseIdx {i : Nat} {event : VaultEvent} (h : r.events[i]? = some event)
    (path : Str) : ({r with events := r.events.eraseIdx i} : Running).outstanding path +
      [event.path?].count (some path) = r.outstanding path := by
  obtain ⟨pre, post, hevents, hsplice⟩ := exists_splice h
  have herase : r.events.eraseIdx i = pre ++ post :=
    (List.eraseIdx_eq_take_drop_succ _ _).trans (hsplice [])
  rw [outstanding, outstanding, herase, hevents]
  simp only [List.map_append, List.map_cons, List.count_append, List.count_cons, List.count_nil]
  omega

/-- A handler that finds a token takes it. -/
theorem begin_consumed {event : VaultEvent} {p : Str} (hp : event.path? = some p) (v : View)
    (hpos : 0 < r.fields.tokens p) : (r.begin v (event.code filter)).tasks = r.tasks ∧
      ∀ path, (r.begin v (event.code filter)).outstanding path = r.outstanding path ∧
        (r.begin v (event.code filter)).fields.tokens path + [event.path?].count (some path) =
          r.fields.tokens path := by
  have hslice := @slice_consumed filter event p hp v r.fields hpos
  refine ⟨by simp [begin, hslice], fun path => ⟨by simp [outstanding, begin, hslice], ?_⟩⟩
  rw [hp]
  simp only [begin, hslice]
  exact (r.fields.consumeSuppression_of_pos p path hpos).2

/-- One that finds none starts a program that owes nothing. -/
theorem begin_handled {event : VaultEvent} (v : View)
    (hzero : ∀ path ∈ event.path?, r.fields.tokens path = 0) (hsound : r.Sound) :
    (r.begin v (event.code filter)).Sound ∧ ∀ path,
      (r.begin v (event.code filter)).fields.tokens path + r.outstanding path =
        r.fields.tokens path + (r.begin v (event.code filter)).outstanding path := by
  obtain ⟨p, hp, hslice⟩ := @slice_handled filter event v r.fields hzero
  have hbegin : r.begin v (event.code filter) = r.begin v p := by simp only [begin, hslice]
  rw [hbegin]
  exact ⟨begin_sound hp hsound, begin_pays hp⟩

theorem deliver_balanced {i : Nat} {v : View} (hsound : r.Sound) (hbalanced : r.Balanced)
    (hstep : r.step filter (.deliver i v) = some r') : r'.Sound ∧ r'.Balanced := by
  obtain ⟨event, hevent, hnext⟩ := Option.bind_eq_some_iff.mp hstep
  cases hnext
  have herase := outstanding_eraseIdx hevent
  set r₁ : Running := {r with events := r.events.eraseIdx i} with hr₁
  cases hp : event.path? with
  | none =>
    obtain ⟨hsound', hbegin⟩ := @begin_handled filter r₁ event v (by simp [hp]) hsound
    refine ⟨hsound', fun path => ?_⟩
    have hout : r₁.outstanding path + 0 = r.outstanding path := by
      have h := herase path
      rwa [hp] at h
    have hpath := hbalanced path
    have hbalance := hbegin path
    have hfields : r₁.fields.tokens path = r.fields.tokens path := rfl
    omega
  | some p =>
    -- The event is one of the outstanding, so its path has a token.
    have hself : [event.path?].count (some p) = 1 := by simp [hp]
    have hpos : 0 < r₁.fields.tokens p := by
      have h := herase p
      have hpath : r₁.fields.tokens p = r.outstanding p := hbalanced p
      omega
    obtain ⟨htasks, hbegin⟩ := @begin_consumed filter r₁ event p hp v hpos
    constructor
    · intro t ht
      rw [htasks] at ht
      exact hsound t ht
    · intro path
      obtain ⟨hout, htoken⟩ := hbegin path
      have h := herase path
      have hpath : r₁.fields.tokens path = r.outstanding path := hbalanced path
      omega

theorem user_iff {event : VaultEvent} {v : View} (hsound : r.Sound) (hbalanced : r.Balanced) :
    (r.begin v (event.code filter)).Sound ∧
      ((r.begin v (event.code filter)).Balanced ↔
        ∀ path ∈ event.path?, r.outstanding path = 0) := by
  by_cases hzero : ∀ path ∈ event.path?, r.outstanding path = 0
  · obtain ⟨hsound', hbegin⟩ := @begin_handled filter r event v
      (fun path hp => (hbalanced path).trans (hzero path hp)) hsound
    refine ⟨hsound', iff_of_true (fun path => ?_) hzero⟩
    have hbalance := hbegin path
    have hpath := hbalanced path
    omega
  · push Not at hzero
    obtain ⟨p, hp, hne⟩ := hzero
    have hpos : 0 < r.fields.tokens p := by
      have hpath := hbalanced p
      omega
    obtain ⟨htasks, hbegin⟩ := @begin_consumed filter r event p hp v hpos
    constructor
    · intro t ht
      rw [htasks] at ht
      exact hsound t ht
    · -- The token of the write goes to the event of somebody else.
      refine iff_of_false (fun h => ?_) fun h => hne (h p hp)
      obtain ⟨hout, htoken⟩ := hbegin p
      have hself : [event.path?].count (some p) = 1 := by simp [Option.mem_def.mp hp]
      have hpath := hbalanced p
      have hafter := h p
      omega

theorem step_iff (hsound : r.Sound) (hbalanced : r.Balanced)
    (hstep : r.step filter a = some r') : r'.Sound ∧ (r'.Balanced ↔ r.Clean a) := by
  cases a with
  | start pass v =>
    cases hstep
    refine ⟨begin_sound (Pays.pass filter pass) hsound, iff_of_true (fun path => ?_) trivial⟩
    have hbegin := @begin_pays r v _ (Pays.pass filter pass) path
    have hpath := hbalanced path
    omega
  | perform i =>
    obtain ⟨hsound', hbalanced'⟩ := perform_balanced hsound hbalanced hstep
    exact ⟨hsound', iff_of_true hbalanced' trivial⟩
  | settle i result v => exact settle_iff hsound hbalanced hstep
  | deliver i v =>
    obtain ⟨hsound', hbalanced'⟩ := deliver_balanced hsound hbalanced hstep
    exact ⟨hsound', iff_of_true hbalanced' trivial⟩
  | user event v =>
    cases hstep
    exact user_iff hsound hbalanced

/-- **In every run of clean steps there is a token for each outstanding write, so no event finds
one where none is outstanding; and the first step that is not clean ends that.** -/
theorem tokens_balance (h : Reach (step filter) Clean new r) : r.Balanced ∧
    (∀ path, r.outstanding path = 0 → (r.fields.consumeSuppression path).1 = false) ∧
    ∀ a r', r.step filter a = some r' → (r'.Balanced ↔ r.Clean a) := by
  have hinv : r.Sound ∧ r.Balanced := by
    refine h.invariant (I := fun r => r.Sound ∧ r.Balanced) ⟨nofun, fun path => rfl⟩ ?_
    intro s a s' hs hclean hstep
    obtain ⟨hsound, hbalanced⟩ := step_iff hs.1 hs.2 hstep
    exact ⟨hsound, hbalanced.mpr hclean⟩
  refine ⟨hinv.2, fun path hzero => ?_, fun a r' hstep => (step_iff hinv.1 hinv.2 hstep).2⟩
  rw [r.fields.consumeSuppression_of_zero path ((hinv.2 path).trans hzero)]

private def notePath : Str := txt "a.md"

private def note : FileMeta := ⟨[], notePath, .text, 3, 0, 0, none, none⟩

/-- A vault that has the note, and a document that has it too. -/
private def view : View := ⟨fun _ => some .file, .ok [note], fun _ => true⟩

/-- The vault has the old text of the note and the document a new one; the answer to a modify
is `modified`. -/
private def answers (modified : Except Str Unit) : (w : Wait) → Except Str w.Answer
  | .read _ => .ok (txt "old")
  | .readTextFile _ => .ok (txt "new")
  | .planReconcile => .ok ⟨[], [], []⟩
  | .modify _ _ => modified
  | .create _ _ | .delete _ | .createFolder _ | .writeTextFile _ _ | .deleteFile _
  | .renameFile _ _ | .yieldToEventLoop => .ok ()

/-- A pass that modifies the note: its token is there until the event comes. -/
theorem tokens_balance_modified : ∃ r, Reach (step fun _ => true) Clean new r ∧ r.Balanced ∧
    r.fields.tokens notePath = 1 ∧ (r.outstanding notePath = 0 →
      (r.fields.consumeSuppression notePath).1 = false) := by
  let ok := answers (.ok ())
  have hstart : Reach (step fun _ => true) Clean new _ :=
    .step (.start (.applyOneRemoteFile note) view) .start trivial rfl
  have hread : Reach (step fun _ => true) Clean new _ :=
    .step (.settle 0 ok view) hstart (fun t ht path hp => by cases ht; cases hp) rfl
  have hcompare : Reach (step fun _ => true) Clean new _ :=
    .step (.settle 0 ok view) hread (fun t ht path hp => by cases ht; cases hp) rfl
  have hperform : Reach (step fun _ => true) Clean new _ :=
    .step (.perform 0) hcompare trivial rfl
  exact ⟨_, hperform, (tokens_balance hperform).1, rfl, (tokens_balance hperform).2.1 notePath⟩

/-- **A modify that the vault refuses leaves its token**, and the next event of the note, which
is the user's own, finds it. -/
theorem tokens_leaked : ¬ ∀ r, Reach (step fun _ => true) (fun _ _ => True) new r →
    r.Balanced ∧ ∀ path, r.outstanding path = 0 →
      (r.fields.consumeSuppression path).1 = false := by
  intro hbalance
  let refused := answers (.error (txt "EACCES"))
  have hrun : run (step fun _ => true) new [.start (.applyOneRemoteFile note) view,
      .settle 0 refused view, .settle 0 refused view, .settle 0 refused view] =
      some ⟨⟨(∅ : JsMap Str Nat).set notePath 1, []⟩, [], []⟩ := rfl
  have hreach := Reach.of_run (.of_forall (fun _ _ => trivial) _) hrun
  have hkept := (hbalance _ hreach).2 notePath rfl
  revert hkept
  decide +kernel

end Running

end AgentSync.Obsidian
