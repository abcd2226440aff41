import Mathlib.Data.Finset.Insert
import AgentSync.Doc.Alignment
import AgentSync.Doc.Grounded

/-! A peer reads what its operations wrote.

A document applies each operation to its content; Automerge keeps it as a write to a register and
reads the content off the writes. What an operation has an object to write into, it leaves the
same both ways: one operation (`valueAt_recordOp`), a transaction, and the changes of a run. So a
peer that has met any others reads, after an operation of its own, what the operation made of its
document (`Replicas.reads_own_writes`). -/
namespace AgentSync

open Registers (Forward Replaces)

variable {L : Crates} {A : Automerge} {E : Engine} {vaultId : Str}

/-- An edit of a text that has seen all the others is made to what they leave. -/
structure Engine.Splices (E : Engine) : Prop where
  empty : E.text ∅ = []
  insert : ∀ (edits : Finset Write) (w : Write) (fid : Str) (pos del : Nat) (new : Str),
    w.act = .spliceText fid pos del new → (∀ e ∈ edits, e.id < w.id ∧ e.id ∈ w.pred) →
      E.text (insert w edits) = (E.text edits).take pos ++ new ++ (E.text edits).drop (pos + del)

/-- What is read there does not hang on how texts are merged. -/
def Engine.Fixes (E : Engine) (a : Addr) : Prop := a.isContent = false ∨ E.Splices

theorem Engine.Splices.fixes (h : E.Splices) (a : Addr) : E.Fixes a := .inr h

/-! ### Addresses -/

theorem ancestors_of_head {a b : Addr} (h : a.ancestors.head? = some b) :
    a.ancestors = b :: b.ancestors := by
  cases a <;> cases h <;> rfl

theorem ancestors_of_mem {a b : Addr} (h : a ∈ b.ancestors) :
    a :: a.ancestors <:+ b.ancestors := by
  cases b <;> simp only [Addr.ancestors, List.mem_cons, List.not_mem_nil, or_false] at h <;>
    (rcases h with rfl | rfl | rfl) <;> simp [Addr.ancestors, List.suffix_cons_iff]

theorem isContent_of_mem_ancestors {a b : Addr} (h : a ∈ b.ancestors) : a.isContent = false := by
  cases a <;> first | rfl | cases b <;> simp [Addr.ancestors] at h

/-! ### Contents that read the same -/

section Congr

variable {r r' : Root} {ops : List Op}

theorem grounded_congr {op : Op} (h : ∀ a, a.isContent = false → r.get a = r'.get a)
    (hop : op.Grounded r) : op.Grounded r' := by
  have hparent (b : Addr) (hb : b ∈ op.target.ancestors.head?) :
      r'.hasObject b = r.hasObject b := by
    rw [Root.hasObject, Root.hasObject, h b (isContent_of_mem_ancestors (List.mem_of_mem_head? hb))]
  cases op with
  | delete a => trivial
  | spliceText fid pos del new => trivial
  | _ => exact fun b hb => (hparent b hb).trans (hop b hb)

theorem groundedAll_congr (h : ∀ a, a.isContent = false → r.get a = r'.get a)
    (hops : GroundedAll r ops) : GroundedAll r' ops := by
  induction ops generalizing r r' with
  | nil => trivial
  | cons op rest ih =>
    refine ⟨grounded_congr h hops.1, ih (fun a ha => ?_) hops.2⟩
    rw [get_apply r op ha, get_apply r' op ha, h a ha]

theorem applyAll_congr (h : ∀ a, E.Fixes a → r.get a = r'.get a) {a : Addr} (ha : E.Fixes a) :
    (applyAll r ops).get a = (applyAll r' ops).get a := by
  rcases ha with ha | hsplices
  · rw [get_applyAll r ops ha, get_applyAll r' ops ha, h a (.inl ha)]
  · exact get_applyAll_congr (P := fun _ => True) (fun _ _ => trivial)
      (fun b _ => h b (hsplices.fixes b)) a trivial

end Congr

/-! ### One operation -/

/-- Writes as they are kept: in the order of their ids, each at the register of its operation. -/
structure Journal (ws : List Write) : Prop extends Registers.Ordered ws where
  key : ∀ w ∈ ws, w.key = w.act.target

section Recording

variable {ws : List Write} {id : OpId} {op : Op} {w : Write} {a : Addr} {actor : Actor}
  {clock : Nat} {ops : List Op}

theorem hasObject_contentOf : (contentOf E ws).hasObject a = true ↔
    ∃ i, locate ws (a :: a.ancestors) = some (some i) := by
  rw [Root.hasObject, get_contentOf, valueAt, locate, Registers.locate_cons]
  cases Registers.value Op.erases Op.makes ws a a.ancestors with
  | none => simp
  | some w => cases hact : w.act <;> simp [Val.isObject, Op.makes, hact]

/-- What is put finds its object among the writes. -/
theorem locate_of_grounded (h : ∀ b ∈ a.ancestors.head?, (contentOf E ws).hasObject b = true) :
    ∃ obj, locate ws a.ancestors = some obj := by
  cases hhead : a.ancestors.head? with
  | none =>
    rw [List.head?_eq_none_iff.mp hhead]
    exact ⟨none, rfl⟩
  | some b =>
    obtain ⟨i, hi⟩ := hasObject_contentOf.mp (h b hhead)
    rw [ancestors_of_head hhead]
    exact ⟨some i, hi⟩

/-- The object that a path ends in was made there. -/
theorem exists_of_locate {k : Addr} {outer : List Addr} {i : OpId}
    (h : locate ws (k :: outer) = some (some i)) : ∃ u ∈ ws, u.id = i ∧ u.key = k := by
  obtain ⟨u, hu, hid, hkey⟩ := Registers.exists_of_locate h
  exact ⟨u, hu, (Option.some.inj hid).symm, hkey⟩

/-- A write elsewhere, which is no edit of the text that is read. -/
theorem valueAt_concat_other (hkey : w.key ∉ a :: a.ancestors)
    (hedit : ∀ v ∈ ws, v.key = a → ∀ fid, v.act = .putText fid → w.obj ≠ some v.id) :
    valueAt E (ws ++ [w]) a = valueAt E ws a := by
  rw [valueAt, Registers.value_concat_other hkey, valueAt]
  cases hv : Registers.value Op.erases Op.makes ws a a.ancestors with
  | none => rfl
  | some v =>
    obtain ⟨hin, hvkey⟩ := Registers.mem_of_value hv
    cases hact : v.act with
    | putText fid =>
      have hno : w.obj ≠ some v.id := hedit v hin hvkey fid hact
      simp only [hact, List.filter_append, List.filter_singleton, decide_eq_false hno, cond_false,
        List.append_nil]
    | _ => simp only [hact]

/-- **A write to a register is read there**; what was below goes, and the rest stays. -/
theorem valueAt_concat {v : Option Val} (hws : Journal ws) (hlater : ∀ u ∈ ws, u.id < w.id)
    (hwrites : w.act.writes = some (w.key, v)) (hobj : locate ws w.key.ancestors = some w.obj)
    (hpred : w.pred = (Registers.values Op.erases ws w.obj w.key).map (·.id)) (ha : E.Fixes a) :
    valueAt E (ws ++ [w]) a = ((contentOf E ws).set w.key v).get a := by
  have hreplaces : Replaces Op.erases ws w := by
    refine hws.replaces hlater (fun u hu => ?_) fun i hi => ?_
    · rw [hpred]
      exact List.mem_map_of_mem hu
    · rw [hpred] at hi
      obtain ⟨u, hu, hid⟩ := List.mem_map.mp hi
      exact ⟨u, (Registers.mem_writesAt.mp (Registers.mem_values.mp hu).1).1, hid⟩
  have hself : w.key ∉ w.key.ancestors := by cases w.key <;> simp [Addr.ancestors]
  have hinside (i : OpId) (hi : w.obj = some i) : ∃ u ∈ ws, u.id = i ∧ u.key ∈ w.key.ancestors := by
    cases hanc : w.key.ancestors with
    | nil =>
      rw [hanc] at hobj
      exact absurd (Option.some.inj hobj) (by simp [hi])
    | cons k outer =>
      rw [hanc, hi] at hobj
      obtain ⟨u, hu, hid, hkey⟩ := exists_of_locate hobj
      exact ⟨u, hu, hid, hkey ▸ List.mem_cons_self⟩
  have hempty : ∀ u ∈ ws ++ [w], u.obj ≠ some w.id := by
    refine List.forall_mem_append.mpr ⟨hws.notMem hlater, List.forall_mem_singleton.mpr fun hi => ?_⟩
    obtain ⟨u, hu, hid, -⟩ := hinside _ hi
    exact (hlater u hu).ne hid
  rw [Root.get_set, get_contentOf]
  by_cases heq : a = w.key
  · rw [if_pos heq, heq, valueAt, hreplaces.value_concat hself hobj]
    have hnone : (ws ++ [w]).filter (fun e => e.obj = some w.id) = [] :=
      List.filter_eq_nil_iff.mpr fun u hu => by simpa using hempty u hu
    cases hact : w.act with
    | putText fid =>
      rw [hact] at hwrites
      obtain ⟨hkey, rfl⟩ := Prod.mk.inj (Option.some.inj hwrites)
      have hsplices : E.Splices := ha.resolve_left (by rw [heq, ← hkey]; exact Bool.noConfusion)
      simp [Op.erases, hact, hnone, hsplices.empty]
    | spliceText fid pos del new =>
      rw [hact] at hwrites
      cases hwrites
    | _ =>
      rw [hact] at hwrites
      obtain ⟨-, rfl⟩ := Prod.mk.inj (Option.some.inj hwrites)
      simp [Op.erases, hact]
  · rw [if_neg heq]
    by_cases hbelow : w.key ∈ a.ancestors
    · obtain ⟨front, hfront⟩ := ancestors_of_mem hbelow
      rw [if_pos hbelow, valueAt, ← hfront, hreplaces.below_concat hself hobj hempty]
    · rw [if_neg hbelow]
      refine valueAt_concat_other (by simp [Ne.symm heq, hbelow]) fun u hu hkey fid hact hi => ?_
      obtain ⟨u', hu', hid, hanc⟩ := hinside _ hi
      -- A text has no registers below it.
      obtain rfl : u' = u := hws.distinct hu' hu hid
      have hcontent := isContent_of_mem_ancestors hanc
      rw [hws.key u' hu, hact] at hcontent
      cases hcontent

/-- **An edit of a text** goes to what the others leave, and nothing else changes. -/
theorem valueAt_edit {fid new : Str} {pos del : Nat} {text : OpId} (hws : Journal ws)
    (hlater : ∀ u ∈ ws, u.id < w.id) (hkey : w.key = .content fid)
    (hact : w.act = .spliceText fid pos del new) (hobj : w.obj = some text)
    (htext : locate ws (.content fid :: (Addr.content fid).ancestors) = some (some text))
    (hpred : w.pred = (ws.filter fun u => u.obj = some text).map (·.id)) (ha : E.Fixes a) :
    valueAt E (ws ++ [w]) a = (w.act.apply (contentOf E ws)).get a := by
  obtain ⟨u, hu, hid, hukey⟩ := exists_of_locate htext
  have hcontent : w.key ∉ a.ancestors := fun hin => by
    have hno := isContent_of_mem_ancestors hin
    rw [hkey] at hno
    cases hno
  by_cases heq : a = .content fid
  · subst heq
    have hsplices : E.Splices := ha.resolve_left Bool.noConfusion
    rw [locate, Registers.locate_cons] at htext
    cases hv : Registers.value Op.erases Op.makes ws (.content fid) (Addr.content fid).ancestors with
    | none =>
      rw [hv] at htext
      cases htext
    | some v =>
      obtain ⟨hin, hvkey⟩ := Registers.mem_of_value hv
      simp only [hv] at htext
      split at htext
      next hmakes =>
        have hvid : v.id = text := Option.some.inj (Option.some.inj htext)
        have hsame : Registers.value Op.erases Op.makes (ws ++ [w]) (.content fid)
            (Addr.content fid).ancestors = some v := by
          rw [← hv, Registers.value, Registers.value, Registers.locate_concat_other hcontent]
          cases hfile : Registers.locate Op.erases Op.makes ws (Addr.content fid).ancestors with
          | none => rfl
          | some obj =>
            refine Registers.winner_concat_other fun hboth => ?_
            -- The text was not made where the file was.
            rw [← hboth.1, hobj] at hfile
            obtain ⟨f, hf, hfid, hfkey⟩ := exists_of_locate hfile
            obtain rfl : f = u := hws.distinct hf hu (hfid.trans hid.symm)
            cases hukey.symm.trans hfkey
        rw [hact, Op.apply, get_contentOf, valueAt, valueAt, hsame, hv]
        cases hvact : v.act with
        | putText fid' =>
          have hedits : ((ws ++ [w]).filter fun e => e.obj = some v.id).toFinset =
              insert w (ws.filter fun e => e.obj = some v.id).toFinset := by
            ext e
            simp only [hvid, List.filter_append, hobj, decide_true, List.filter_cons_of_pos,
              List.filter_nil, List.mem_toFinset, List.mem_append, List.mem_singleton,
              Finset.mem_insert]
            exact or_comm
          have hseen : ∀ e ∈ (ws.filter fun e => e.obj = some v.id).toFinset,
              e.id < w.id ∧ e.id ∈ w.pred := by
            intro e he
            rw [List.mem_toFinset, hvid] at he
            rw [hpred]
            exact ⟨hlater e (List.mem_of_mem_filter he), List.mem_map_of_mem he⟩
          simp only [hvact, hedits, hsplices.insert _ w fid pos del new hact hseen, Root.get_set,
            if_true]
        | putMap b => simp [hvact, get_contentOf, valueAt, hv]
        | _ =>
          rw [hvact] at hmakes
          cases hmakes
      next => cases htext
  · have htarget : w.act.target = .content fid := by rw [hact]; rfl
    rw [get_apply_of_ne _ _ (by rw [htarget]; exact Ne.symm heq) (by rw [htarget, ← hkey]; exact hcontent),
      get_contentOf]
    refine valueAt_concat_other (by simp [hkey, Ne.symm heq, hkey ▸ hcontent])
      fun v hv hvkey fid' _ hi => heq ?_
    obtain rfl : v = u := hws.distinct hv hu ((Option.some.inj (hi.symm.trans hobj)).trans hid.symm)
    exact hvkey.symm.trans hukey

/-- A splice of a text that is not there does nothing. -/
theorem apply_splice_of_none {fid new : Str} {pos del : Nat}
    (h : ∀ i, locate ws (.content fid :: (Addr.content fid).ancestors) ≠ some (some i)) :
    (Op.spliceText fid pos del new).apply (contentOf E ws) = contentOf E ws := by
  rw [Op.apply]
  split
  next text htext =>
    have hobject : (contentOf E ws).hasObject (.content fid) = true := by
      rw [Root.hasObject, htext]
      rfl
    obtain ⟨i, hi⟩ := hasObject_contentOf.mp hobject
    exact absurd hi (h i)
  next => rfl

theorem recordOp_of_writes {v : Option Val} {obj : Option OpId}
    (hwrites : op.writes = some (op.target, v)) (hobj : locate ws op.target.ancestors = some obj) :
    recordOp ws id op = some ⟨id, obj, op.target, op,
      (Registers.values Op.erases ws obj op.target).map (·.id)⟩ := by
  cases op with
  | spliceText fid pos del new => cases hwrites
  | _ => simp only [recordOp, hobj]

/-- **An operation as it is kept reads as it was applied.** -/
theorem valueAt_recordOp (hws : Journal ws) (hlater : ∀ u ∈ ws, u.id < id)
    (hground : op.Grounded (contentOf E ws)) (ha : E.Fixes a) :
    valueAt E (ws ++ (recordOp ws id op).toList) a = (op.apply (contentOf E ws)).get a := by
  have hput (v : Option Val) (hwrites : op.writes = some (op.target, v))
      (hobj : ∃ obj, locate ws op.target.ancestors = some obj) :
      valueAt E (ws ++ (recordOp ws id op).toList) a = ((contentOf E ws).set op.target v).get a := by
    obtain ⟨obj, hobj⟩ := hobj
    rw [recordOp_of_writes hwrites hobj]
    exact valueAt_concat hws hlater hwrites hobj rfl ha
  cases op with
  | put b s => exact hput (some (.scalar s)) rfl (locate_of_grounded hground)
  | putMap b => exact hput (some .map) rfl (locate_of_grounded hground)
  | putText fid => exact hput (some (.text [])) rfl (locate_of_grounded hground)
  | delete b =>
    cases hobj : locate ws b.ancestors with
    | some obj => exact hput none rfl ⟨obj, hobj⟩
    | none =>
      -- Nothing is there to be deleted.
      have hnone : recordOp ws id (.delete b) = none := by simp only [recordOp, Op.target, hobj]
      rw [hnone, Option.toList_none, List.append_nil, Op.apply, Root.get_set, get_contentOf]
      split
      next heq =>
        subst heq
        rw [valueAt, Registers.value, show Registers.locate _ _ ws a.ancestors = none from hobj]
      next =>
        split
        next hin =>
          obtain ⟨front, hfront⟩ := ancestors_of_mem hin
          have hself : Registers.locate Op.erases Op.makes ws (b :: b.ancestors) = none := by
            rw [Registers.locate, show Registers.locate _ _ ws b.ancestors = none from hobj]
          rw [valueAt, Registers.value, ← hfront, Registers.locate_append_none hself]
        next => rfl
  | spliceText fid pos del new =>
    rw [recordOp]
    split
    next text htext => exact valueAt_edit hws hlater rfl rfl rfl htext rfl ha
    next hno =>
      rw [apply_splice_of_none hno, Option.toList_none, List.append_nil, get_contentOf]

/-! ### Transactions -/

theorem Journal.recordOp (hws : Journal ws) (hlater : ∀ u ∈ ws, u.id < id)
    (h : recordOp ws id op = some w) : Journal (ws ++ [w]) := by
  obtain ⟨hid, hact, hkey, hpred, -⟩ := recordOp_spec h
  refine ⟨hws.concat (hid ▸ hlater) hpred fun i hi => ?_, ?_⟩
  · obtain ⟨v, hv, hvid, -⟩ := recordOp_inside h i hi
    exact ⟨v, hv, hvid⟩
  · refine List.forall_mem_append.mpr ⟨hws.key, List.forall_mem_singleton.mpr ?_⟩
    rw [hkey, hact]

theorem later_of_clock (hclock : ∀ u ∈ ws, clockOf u < clock) (actor : Actor) :
    ∀ u ∈ ws, u.id < toLex (clock, actor) := fun u hu => lt_of_clock (hclock u hu)

/-- The clock is beyond the operation that it was taken for. -/
theorem clock_recordOp (hclock : ∀ u ∈ ws, clockOf u < clock)
    (h : AgentSync.recordOp ws (toLex (clock, actor)) op = some w) :
    ∀ u ∈ ws ++ [w], clockOf u < clock + 1 := by
  refine List.forall_mem_append.mpr ⟨fun u hu => Nat.lt_succ_of_lt (hclock u hu),
    List.forall_mem_singleton.mpr ?_⟩
  rw [clockOf, (recordOp_spec h).1]
  exact Nat.lt_succ_self clock

theorem Journal.recordAll (hws : Journal ws) (hclock : ∀ u ∈ ws, clockOf u < clock) :
    Journal (ws ++ recordAll ws actor clock ops) := by
  induction ops generalizing ws clock with
  | nil => simpa [AgentSync.recordAll] using hws
  | cons op rest ih =>
    unfold AgentSync.recordAll
    split
    next w hw =>
      rw [← List.singleton_append, ← List.append_assoc]
      exact ih (hws.recordOp (later_of_clock hclock actor) hw) (clock_recordOp hclock hw)
    next => exact ih hws fun u hu => Nat.lt_succ_of_lt (hclock u hu)

/-- **A transaction as it is kept reads as its operations were applied.** -/
theorem valueAt_recordAll (hws : Journal ws) (hclock : ∀ u ∈ ws, clockOf u < clock)
    (hground : GroundedAll (contentOf E ws) ops) (ha : E.Fixes a) :
    valueAt E (ws ++ recordAll ws actor clock ops) a = (applyAll (contentOf E ws) ops).get a := by
  induction ops generalizing ws clock with
  | nil => rw [AgentSync.recordAll, List.append_nil, applyAll_nil, get_contentOf]
  | cons op rest ih =>
    have hlater := later_of_clock hclock actor
    have hone (b : Addr) (hb : E.Fixes b) := valueAt_recordOp hws hlater hground.1 hb
    unfold AgentSync.recordAll
    split
    next w hw =>
      have hsame (b : Addr) (hb : E.Fixes b) :
          (op.apply (contentOf E ws)).get b = (contentOf E (ws ++ [w])).get b := by
        rw [get_contentOf, ← hone b hb, hw]
        rfl
      rw [← List.singleton_append, ← List.append_assoc,
        ih (hws.recordOp hlater hw) (clock_recordOp hclock hw)
          (groundedAll_congr (fun b hb => hsame b (.inl hb)) hground.2), applyAll_cons]
      exact (applyAll_congr hsame ha).symm
    next hw =>
      have hsame (b : Addr) (hb : E.Fixes b) :
          (op.apply (contentOf E ws)).get b = (contentOf E ws).get b := by
        rw [get_contentOf, ← hone b hb, hw, Option.toList_none, List.append_nil]
      rw [ih hws (fun u hu => Nat.lt_succ_of_lt (hclock u hu))
        (groundedAll_congr (fun b hb => hsame b (.inl hb)) hground.2), applyAll_cons]
      exact (applyAll_congr hsame ha).symm

end Recording

section Histories

variable {log : List Authored} {actor : Actor} {time : Int} {ops : List Op} {cs : List Change}
  {a : Addr}

theorem writesOf_author : writesOf (log ++ [author E log actor time ops]) =
    writesOf log ++ recordAll (writesOf log) actor (maxOp log + 1) ops := by
  rw [writesOf_append, writesOf_singleton]
  rfl

theorem clock_lt_maxOp : ∀ u ∈ writesOf log, clockOf u < maxOp log + 1 := fun _ hu =>
  Nat.lt_succ_of_le (clockOf_le_maxOp hu)

/-- **The changes of a run read as their operations were applied**, one change after the other. -/
theorem valueAt_authorAll (hlog : Journal (writesOf log))
    (hground : GroundedAll (contentOf E (writesOf log)) (cs.flatMap Change.ops))
    (ha : E.Fixes a) : valueAt E (writesOf (log ++ authorAll E log actor cs)) a =
      (applyAll (contentOf E (writesOf log)) (cs.flatMap Change.ops)).get a := by
  induction cs generalizing log with
  | nil => rw [authorAll, List.append_nil, List.flatMap_nil, applyAll_nil, get_contentOf]
  | cons c rest ih =>
    rw [List.flatMap_cons] at hground ⊢
    obtain ⟨hfirst, hrest⟩ := groundedAll_append.mp hground
    have hjournal : Journal (writesOf (log ++ [author E log actor c.timestamp c.ops])) := by
      rw [writesOf_author]
      exact hlog.recordAll clock_lt_maxOp
    have hsame (b : Addr) (hb : E.Fixes b) : (applyAll (contentOf E (writesOf log)) c.ops).get b =
        (contentOf E (writesOf (log ++ [author E log actor c.timestamp c.ops]))).get b := by
      rw [get_contentOf, writesOf_author]
      exact (valueAt_recordAll hlog clock_lt_maxOp hfirst hb).symm
    rw [authorAll, ← List.singleton_append, ← List.append_assoc,
      ih hjournal (groundedAll_congr (fun b hb => hsame b (.inl hb)) hrest), applyAll_append]
    exact (applyAll_congr hsame ha).symm

/-- A write of a change is in an object that was made before it. -/
def Later (c : Authored) : Prop := ∀ w ∈ c.writes, ∀ i, w.obj = some i → i < w.id

theorem later_recordAll {ws : List Write} {clock : Nat} (hclock : ∀ u ∈ ws, clockOf u < clock) :
    ∀ w ∈ recordAll ws actor clock ops, ∀ i, w.obj = some i → i < w.id := by
  induction ops generalizing ws clock with
  | nil => intro w hw; cases hw
  | cons op rest ih =>
    have hskip := fun u hu => Nat.lt_succ_of_lt (hclock u hu)
    unfold recordAll
    split
    next w hw =>
      refine List.forall_mem_cons.mpr ⟨fun i hi => ?_, ih (clock_recordOp hclock hw)⟩
      obtain ⟨v, hv, rfl, -⟩ := recordOp_inside hw i hi
      rw [(recordOp_spec hw).1]
      exact lt_of_clock (hclock v hv)
    next => exact ih hskip

theorem later_author : Later (author E log actor time ops) := later_recordAll clock_lt_maxOp

theorem later_authorAll : ∀ c ∈ authorAll E log actor cs, Later c := by
  induction cs generalizing log with
  | nil => intro c hc; cases hc
  | cons c rest ih => exact List.forall_mem_cons.mpr ⟨later_author, ih⟩

end Histories

/-! ### Peers -/

namespace Replicas

variable {s : Replicas} {p : Replica} {i : Nat}

/-- Every history can be read off: it is in order, and transactions have objects to write into. -/
structure Legible (E : Engine) (s : Replicas) : Prop where
  later : ∀ c ∈ s.made, Later c
  grounded : ∀ p ∈ s.peers, GroundedAll (p.content E) p.pending

/-- What is kept of any write of a history. -/
theorem Inv.write_spec (h : s.Inv L E vaultId) {log : List Authored}
    (hlog : Kept L E vaultId s.made log) {w : Write} (hw : w ∈ writesOf log) :
    Forward w ∧ w.key = w.act.target ∧ (w.key.erasable = false → Op.erases w.act = false) := by
  obtain ⟨c, hc, hw⟩ := mem_writesOf.mp hw
  rcases h.known c (hlog.sub hc) with rfl | ⟨hbelow, hplaced⟩
  · rw [genesis_writes] at hw
    simp only [List.mem_cons, List.not_mem_nil, or_false] at hw
    rcases hw with rfl | rfl | rfl | rfl | rfl <;>
      exact ⟨fun i hi => absurd hi List.not_mem_nil, rfl, fun _ => rfl⟩
  · have hp := hplaced w hw
    refine ⟨hp.forward, hp.key, fun herase => ?_⟩
    cases hact : w.act with
    | delete b =>
      have hdelete := (hbelow _ hp.act).delete b hact
      rw [hp.key, hact] at herase
      exact absurd hdelete (by rw [show b.erasable = false from herase]; exact Bool.false_ne_true)
    | _ => rfl

theorem Legible.journal (h : s.Legible E) (hinv : s.Inv L E vaultId) {log : List Authored}
    (hlog : Kept L E vaultId s.made log) : Journal (writesOf log) where
  distinct := hinv.distinct hlog
  forward := fun w hw => (hinv.write_spec hlog hw).1
  inside := fun w hw => by
    obtain ⟨c, hc, hw⟩ := mem_writesOf.mp hw
    exact h.later c (hlog.sub hc) w hw
  key := fun w hw => (hinv.write_spec hlog hw).2.1

theorem Legible.start : (start L E vaultId).Legible E where
  later := List.forall_mem_singleton.mpr later_author
  grounded := fun p hp => by cases hp

theorem Legible.recorded (h : s.Legible E) {new : List Authored} {pending : List Op}
    (hnew : ∀ c ∈ new, Later c)
    (hpending : GroundedAll (contentOf E (writesOf (p.log ++ new))) pending) :
    (s.recorded i p new pending).Legible E where
  later := List.forall_mem_append.mpr ⟨h.later, hnew⟩
  grounded := fun q hq => by
    rcases List.mem_or_eq_of_mem_set hq with hq | rfl
    · exact h.grounded q hq
    · exact hpending

/-- A peer is put there that has no open transaction. -/
theorem Legible.put (h : s.Legible E) {p' : Replica} (hp' : p'.pending = []) :
    {s with peers := s.peers.set i p'}.Legible E where
  later := h.later
  grounded := fun q hq => by
    rcases List.mem_or_eq_of_mem_set hq with hq | rfl
    · exact h.grounded q hq
    · rw [hp']
      trivial

theorem Legible.join (h : s.Legible E) {p' : Replica} (hp' : p'.pending = []) :
    {s with peers := s.peers ++ [p']}.Legible E where
  later := h.later
  grounded := List.forall_mem_append.mpr ⟨h.grounded, List.forall_mem_singleton.mpr (hp' ▸ trivial)⟩

theorem later_closing : ∀ c ∈ p.closing E, Later c := by
  unfold Replica.closing
  split
  next => intro c hc; cases hc
  next => exact List.forall_mem_singleton.mpr later_author

theorem Legible.closed (h : s.Legible E) {j : Nat} {q : Replica} :
    (s.closed E i j p q).Legible E := by
  have hfirst : (s.recorded i p (p.closing E) []).Legible E := h.recorded later_closing trivial
  have hboth : ((s.recorded i p (p.closing E) []).recorded j q (q.closing E) []).Legible E :=
    hfirst.recorded later_closing trivial
  exact hboth

/-- **What an operation leaves is what its peer reads then.** -/
theorem Legible.run (h : s.Legible E) (hinv : s.Inv L E vaultId) (hi : s.peers[i]? = some p)
    {op : LocalOp} {supply : Supply} {new : List Authored} {pending : List Op}
    (hrun : p.run E L A op supply = some (new, pending)) :
    (∀ c ∈ new, Later c) ∧ GroundedAll (contentOf E (writesOf (p.log ++ new))) pending ∧
      ∀ a, E.Fixes a → (applyAll (contentOf E (writesOf (p.log ++ new))) pending).get a =
        ((p.doc E supply).after (op.run L A)).root.get a := by
  have hp := List.mem_of_getElem? hi
  have hjournal := h.journal hinv (hinv.peers p hp).kept
  obtain ⟨cs, ops, hchanges, hops, hroot, hground⟩ := op.written (L := L) (A := A) (p.doc E supply)
  have hdrop : ((p.doc E supply).after (op.run L A)).changes.drop p.log.length = cs := by
    have hlength : (p.doc E supply).changes.length = p.log.length := List.length_map ..
    rw [hchanges, ← hlength, List.drop_left]
  simp only [Replica.run, hdrop] at hrun
  split at hrun
  next =>
    obtain ⟨rfl, rfl⟩ := Prod.mk.inj (Option.some.inj hrun)
    -- The open transaction came first, and part of it may be open still.
    have hall : GroundedAll (p.content E) (p.pending ++ ops) :=
      groundedAll_append.mpr ⟨h.grounded p hp, hground⟩
    rw [← show _ = p.pending ++ ops from hops] at hall
    obtain ⟨hfirst, hrest⟩ := groundedAll_append.mp hall
    have hsame (a : Addr) (ha : E.Fixes a) :
        (contentOf E (writesOf (p.log ++ authorAll E p.log p.actor cs))).get a =
          (applyAll (p.content E) (cs.flatMap Change.ops)).get a := by
      rw [get_contentOf]
      exact valueAt_authorAll hjournal hfirst ha
    refine ⟨later_authorAll, groundedAll_congr (fun a ha => (hsame a (.inl ha)).symm) hrest,
      fun a ha => ?_⟩
    have hcontent : ((p.doc E supply).after (op.run L A)).root = applyAll (applyAll (p.content E)
        (cs.flatMap Change.ops)) ((p.doc E supply).after (op.run L A)).pending := by
      rw [hroot, ← applyAll_append, hops, applyAll_append]
      rfl
    rw [hcontent]
    exact applyAll_congr hsame ha
  next => cases hrun

theorem Legible.step {a : Act} {s' : Replicas} (h : s.Legible E) (hinv : s.Inv L E vaultId)
    (hs : step L A E vaultId s a = some s') : s'.Legible E := by
  cases a with
  | new actor =>
    obtain rfl := Option.some.inj hs
    exact h.join rfl
  | load bytes actor =>
    simp only [Replicas.step] at hs
    split at hs
    next =>
      obtain rfl := Option.some.inj hs
      exact h.join rfl
    next => cases hs
  | reload i bytes actor =>
    simp only [Replicas.step] at hs
    split at hs
    next =>
      obtain rfl := Option.some.inj hs
      exact h.put rfl
    next => cases hs
  | run i op supply =>
    simp only [Replicas.step] at hs
    split at hs
    next p hp =>
      split at hs
      next new pending hrun =>
        obtain rfl := Option.some.inj hs
        obtain ⟨hnew, hpending, -⟩ := h.run hinv hp hrun
        exact h.recorded hnew hpending
      next => cases hs
    next => cases hs
  | save i =>
    simp only [Replicas.step] at hs
    split at hs
    next p hp =>
      obtain rfl := Option.some.inj hs
      have hclosed : (s.recorded i p (p.closing E) []).Legible E := h.recorded later_closing trivial
      exact ⟨hclosed.later, hclosed.grounded⟩
    next => cases hs
  | merge i j =>
    simp only [Replicas.step] at hs
    split at hs
    next p q hp hq =>
      split at hs
      next => cases hs
      next =>
        obtain rfl := Option.some.inj hs
        exact h.closed.put rfl
    next => cases hs
  | receive i j wanted =>
    simp only [Replicas.step] at hs
    split at hs
    next p q hp hq =>
      split at hs
      next =>
        obtain rfl := Option.some.inj hs
        exact h.closed.put rfl
      next => cases hs
    next => cases hs

theorem Legible.of_reach
    (h : Machine.Reach (Replicas.step L A E vaultId) (Fair L A E vaultId)
      (Replicas.start L E vaultId) s) : s.Inv L E vaultId ∧ s.Legible E :=
  h.invariant (I := fun s => s.Inv L E vaultId ∧ s.Legible E) ⟨.start, .start⟩
    fun _ _ _ hinv hfair hs => ⟨hinv.1.step hfair hs, hinv.2.step hinv.1 hs⟩

/-- Closing the transaction changes nothing that is read. -/
theorem Legible.get_closed (h : s.Legible E) (hinv : s.Inv L E vaultId)
    (hp : p ∈ s.peers) {a : Addr} (ha : E.Fixes a) :
    ((p.closed E).root E).get a = (p.root E).get a := by
  rw [get_root rfl, Replica.closed, Replica.root]
  unfold Replica.closing
  split
  next hnone => rw [hnone, List.append_nil, applyAll_nil, Replica.content, get_contentOf]
  next =>
    have hground : GroundedAll (p.content E) ([⟨.fill 0, [], 0, p.pending⟩].flatMap Change.ops) := by
      simpa using h.grounded p hp
    have hsame : valueAt E (writesOf (p.log ++ authorAll E p.log p.actor
        [⟨.fill 0, [], 0, p.pending⟩])) a = _ :=
      valueAt_authorAll (h.journal hinv (hinv.peers p hp).kept) hground ha
    simpa [authorAll, Replica.content] using hsame

/-- **A peer reads what it wrote**: in every run of the peers of a vault, after any operation at a
peer the registers hold what the operation made of the peer's document, whether it succeeded or
failed, and closing the transaction leaves them as they are. -/
theorem reads_own_writes
    (h : Machine.Reach (step L A E vaultId) (Fair L A E vaultId) (start L E vaultId) s)
    (hi : s.peers[i]? = some p) :
    (∀ a, E.Fixes a → ((p.closed E).root E).get a = (p.root E).get a) ∧
    ∀ op supply s', step L A E vaultId s (.run i op supply) = some s' →
      ∃ p', s'.peers[i]? = some p' ∧
        (∀ a, E.Fixes a → (p'.root E).get a =
          ((p.doc E supply).after (op.run L A)).root.get a) ∧
        (E.Splices → (p'.root E).liveFiles L =
          ((p.doc E supply).after (op.run L A)).root.liveFiles L) := by
  obtain ⟨hinv, hlegible⟩ := Legible.of_reach h
  refine ⟨fun a ha => hlegible.get_closed hinv (List.mem_of_getElem? hi) ha,
    fun op supply s' hs => ?_⟩
  simp only [Replicas.step, hi] at hs
  split at hs
  next new pending hrun =>
    obtain rfl := Option.some.inj hs
    have hread := (hlegible.run hinv hi hrun).2.2
    refine ⟨_, List.getElem?_set_self (List.getElem?_eq_some_iff.mp hi).1, hread,
      fun hsplices => ?_⟩
    exact Root.liveFiles_congr fun a => hread a (hsplices.fixes a)
  next => cases hs

/-! An engine that makes the edits of a text in the order of their ids. -/

private abbrev Stamped := OpId ×ₗ Nat ×ₗ Nat ×ₗ Str

private def editOf (w : Write) : Stamped :=
  match w.act with
  | .spliceText _ pos del new => toLex (w.id, toLex (pos, toLex (del, new)))
  | _ => toLex (w.id, toLex (0, toLex (0, [])))

private def edited (e : Stamped) (text : Str) : Str :=
  let pos := (ofLex (ofLex e).2).1
  let del := (ofLex (ofLex (ofLex e).2).2).1
  text.take pos ++ (ofLex (ofLex (ofLex e).2).2).2 ++ text.drop (pos + del)

/-- The latest edit comes first. -/
private def latestFirst (edits : List Stamped) : List Stamped := edits.insertionSort (· ≥ ·)

private theorem latestFirst_perm {edits edits' : List Stamped} (h : edits.Perm edits') :
    latestFirst edits = latestFirst edits' := by
  refine List.Perm.eq_of_pairwise' (r := (· ≥ ·)) (List.pairwise_insertionSort _ _)
    (List.pairwise_insertionSort _ _) ?_
  exact (List.perm_insertionSort _ _).trans (h.trans (List.perm_insertionSort _ _).symm)

private theorem latestFirst_cons {e : Stamped} {edits : List Stamped} (h : ∀ e' ∈ edits, e' < e) :
    latestFirst (e :: edits) = e :: latestFirst edits := by
  have hsorted : ∀ e' ∈ latestFirst edits, e' < e := fun e' he' =>
    h e' ((List.mem_insertionSort _).mp he')
  rw [latestFirst, List.insertionSort_cons, ← latestFirst]
  cases hrest : latestFirst edits with
  | nil => rfl
  | cons e' rest => exact if_pos (hsorted e' (hrest ▸ List.mem_cons_self)).le

/-- The engine of the concrete runs. -/
def inOrder : Engine where
  hash := fun c => .fill (UInt8.ofNat (16 * c.actor.length + c.seq))
  text := fun edits => Quotient.liftOn edits.val (fun ws => (latestFirst (ws.map editOf)).foldr edited [])
    fun _ _ h => by rw [latestFirst_perm (List.Perm.map editOf h)]

private theorem fst_editOf (w : Write) : (ofLex (editOf w)).1 = w.id := by
  unfold editOf
  cases w.act <;> rfl

private theorem text_inOrder {edits : Finset Write} {ws : List Write} (h : edits.val = ↑ws) :
    inOrder.text edits = (latestFirst (ws.map editOf)).foldr edited [] := by
  show Quotient.liftOn edits.val _ _ = _
  rw [h]
  rfl

theorem splices_inOrder : inOrder.Splices where
  empty := rfl
  insert := fun edits w fid pos del new hact hseen => by
    have hnew : w ∉ edits := fun hin => lt_irrefl _ (hseen w hin).1
    have hval : (insert w edits).val = w ::ₘ edits.val := Finset.insert_val_of_notMem hnew
    obtain ⟨ws, hws⟩ : ∃ ws : List Write, edits.val = ↑ws := ⟨_, (Multiset.coe_toList _).symm⟩
    have hlater : ∀ e ∈ ws, e.id < w.id := fun e he => by
      refine (hseen e ?_).1
      rwa [← Finset.mem_val, hws]
    have hcons : (insert w edits).val = ↑(w :: ws) := by rw [hval, hws, Multiset.cons_coe]
    rw [text_inOrder hcons, text_inOrder hws, List.map_cons,
      latestFirst_cons fun e he => ?_, List.foldr_cons]
    · simp only [edited, editOf, hact]
      rfl
    · obtain ⟨v, hv, rfl⟩ := List.mem_map.mp he
      refine Prod.Lex.lt_iff.mpr (.inl ?_)
      rw [fst_editOf, fst_editOf]
      exact hlater v hv

/-- Ids that begin with `mark`. -/
def marked (mark : Char) (byte : UInt8) : Supply where
  now := fun n => n
  id := fun n => mark :: List.replicate n 'i'
  hash := fun _ => .fill byte

/-- One peer writes a file, and the other one has it. -/
private def handing : List Act :=
  [.new (txt "a"), .new (txt "bb"), .run 0 (.writeTextFile (txt "x.md") (txt "ab")) (marked 'f' 17),
    .merge 1 0]

/-- `Fair`, computed. -/
def allows (s : Replicas) (a : Act) : Bool :=
  (match a.actor? with
    | some actor => s.peers.all (fun p => p.actor ≠ actor) && s.made.all fun c => c.actor ≠ actor
    | none => true) &&
  match step .plain .plain inOrder (txt "vault") s a with
    | some s' => s'.made.all fun c => s'.made.all fun c' =>
      inOrder.hash c ≠ inOrder.hash c' || c = c'
    | none => true

theorem fair_of_allows (s : Replicas) (a : Act) (h : allows s a = true) :
    Fair .plain .plain inOrder (txt "vault") s a := by
  obtain ⟨hactor, hhash⟩ := Bool.and_eq_true_iff.mp h
  refine ⟨fun actor hmem => ?_, fun s' hs' c hc c' hc' heq => ?_⟩
  · rw [Option.mem_def.mp hmem] at hactor
    simpa using hactor
  · rw [Option.mem_def.mp hs'] at hhash
    have hpair := List.all_eq_true.mp (List.all_eq_true.mp hhash c hc) c' hc'
    simpa [heq] using hpair

private def handed : Option Replicas :=
  Machine.run (step .plain .plain inOrder (txt "vault")) (start .plain inOrder (txt "vault")) handing

theorem reads_own_writes_handed : ∃ s p s' p', s.peers[1]? = some p ∧
    step .plain .plain inOrder (txt "vault") s
      (.run 1 (.writeTextFile (txt "x.md") (txt "axb")) (marked 'g' 33)) = some s' ∧
    s'.peers[1]? = some p' ∧
    (p.root inOrder).get (.content (txt "fi")) = some (.text (txt "ab")) ∧
    (p'.root inOrder).get (.content (txt "fi")) = some (.text (txt "axb")) := by
  obtain ⟨s, hs⟩ := Option.isSome_iff_exists.mp (show handed.isSome = true by decide +kernel)
  have hreach := Machine.Reach.of_run (Machine.Guarded.of_allowed fair_of_allows
    (show Machine.allowed (step .plain .plain inOrder (txt "vault")) allows
      (start .plain inOrder (txt "vault")) handing = true by decide +kernel)) hs
  have hread : (handed.bind fun s => s.peers[1]?.map fun p =>
      ((p.root inOrder).get (.content (txt "fi")),
        (step .plain .plain inOrder (txt "vault") s (.run 1 (.writeTextFile (txt "x.md") (txt "axb"))
          (marked 'g' 33))).isSome,
        ((p.doc inOrder (marked 'g' 33)).after (LocalOp.run .plain .plain
          (.writeTextFile (txt "x.md") (txt "axb")))).root.get (.content (txt "fi")))) =
      some (some (.text (txt "ab")), true, some (.text (txt "axb"))) := by
    decide +kernel
  rw [hs, Option.bind_some, Option.map_eq_some_iff] at hread
  obtain ⟨p, hp, hread⟩ := hread
  obtain ⟨hbefore, hread⟩ := Prod.mk.inj hread
  obtain ⟨hsome, hafter⟩ := Prod.mk.inj hread
  obtain ⟨s', hs'⟩ := Option.isSome_iff_exists.mp hsome
  obtain ⟨p', hp', hget, -⟩ := (reads_own_writes hreach hp).2 _ _ s' hs'
  refine ⟨s, p, s', p', hp, hs', hp', hbefore, ?_⟩
  rw [hget _ (splices_inOrder.fixes _), hafter]

end Replicas

end AgentSync
