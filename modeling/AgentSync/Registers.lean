import Mathlib.Data.List.MinMax
import Mathlib.Data.Set.Function

/-! Trees of last-writer-wins registers.

A replicated document is a set of writes. A register is a key of an object, an object is named
by the write that made it, and a write names those whose values it replaces. What a register
holds is the latest of the writes that nothing replaces; two that are left are a conflict. So
what a path of keys leads to depends on the writes to the registers along it and on no others
(`value_congr`), and replicas with the same writes read the same. -/
namespace Registers

/-- A write of `act` at a key. -/
structure Write (ι κ α : Type*) where
  id : ι
  /-- The write that made the object it is in; none for the root. -/
  obj : Option ι
  key : κ
  act : α
  /-- The writes that it replaces. -/
  pred : List ι
  deriving DecidableEq

variable {ι κ α : Type*} [LinearOrder ι] [DecidableEq κ]

/-- The writes to a register. -/
def writesAt (ws : List (Write ι κ α)) (obj : Option ι) (key : κ) : List (Write ι κ α) :=
  ws.filter fun w => w.obj = obj ∧ w.key = key

/-- What a register holds: more than one value when there is a conflict. -/
def values (erases : α → Bool) (ws : List (Write ι κ α)) (obj : Option ι) (key : κ) :
    List (Write ι κ α) :=
  (writesAt ws obj key).filter fun w =>
    !erases w.act && !(writesAt ws obj key).any fun w' => w'.pred.contains w.id

/-- The value that is read. -/
def winner (erases : α → Bool) (ws : List (Write ι κ α)) (obj : Option ι) (key : κ) :
    Option (Write ι κ α) :=
  (values erases ws obj key).argmax Write.id

/-- The object that a path of keys leads to; the key in the root comes last. -/
def locate (erases makes : α → Bool) (ws : List (Write ι κ α)) : List κ → Option (Option ι)
  | [] => some none
  | key :: outer =>
    match locate erases makes ws outer with
    | none => none
    | some obj =>
      match winner erases ws obj key with
      | some w => if makes w.act then some (some w.id) else none
      | none => none

/-- The write that is read at a key of the object a path leads to. -/
def value (erases makes : α → Bool) (ws : List (Write ι κ α)) (key : κ) (outer : List κ) :
    Option (Write ι κ α) :=
  match locate erases makes ws outer with
  | none => none
  | some obj => winner erases ws obj key

variable {erases makes : α → Bool} {ws ws' : List (Write ι κ α)} {obj : Option ι} {key : κ}
  {outer : List κ} {w : Write ι κ α}

theorem mem_writesAt : w ∈ writesAt ws obj key ↔ w ∈ ws ∧ w.obj = obj ∧ w.key = key := by
  simp [writesAt]

theorem mem_values : w ∈ values erases ws obj key ↔ w ∈ writesAt ws obj key ∧
    erases w.act = false ∧ ∀ w' ∈ writesAt ws obj key, w.id ∉ w'.pred := by
  simp [values]

/-- No two writes have one id. -/
def Distinct (ws : List (Write ι κ α)) : Prop := Set.InjOn Write.id {w | w ∈ ws}

/-- A register holds the latest of its values. -/
theorem winner_eq_some (h : Distinct ws) : winner erases ws obj key = some w ↔
    w ∈ values erases ws obj key ∧ ∀ w' ∈ values erases ws obj key, w'.id ≤ w.id := by
  classical
  rw [winner, List.argmax_eq_some_iff]
  refine ⟨fun ⟨hw, hmax, _⟩ => ⟨hw, hmax⟩, fun ⟨hw, hmax⟩ => ⟨hw, hmax, fun w' hw' hle => ?_⟩⟩
  have hin := (mem_writesAt.mp (mem_values.mp hw).1).1
  have hin' := (mem_writesAt.mp (mem_values.mp hw').1).1
  have heq : w' = w := h hin' hin (le_antisymm (hmax w' hw') hle)
  rw [heq]

theorem mem_of_winner (h : winner erases ws obj key = some w) : w ∈ values erases ws obj key :=
  List.argmax_mem h

/-- The object at the end of a path was made at its last key. -/
theorem exists_of_locate {o : Option ι} (h : locate erases makes ws (key :: outer) = some o) :
    ∃ w ∈ ws, o = some w.id ∧ w.key = key := by
  unfold locate at h
  split at h
  next => cases h
  next obj _ =>
    split at h
    next w hw =>
      split at h
      next =>
        obtain ⟨hin, -, hkey⟩ := mem_writesAt.mp (mem_values.mp (mem_of_winner hw)).1
        exact ⟨w, hin, (Option.some.inj h).symm, hkey⟩
      next => cases h
    next => cases h

theorem mem_of_value (h : value erases makes ws key outer = some w) : w ∈ ws ∧ w.key = key := by
  unfold value at h
  split at h
  next => cases h
  next =>
    obtain ⟨hin, -, hkey⟩ := mem_writesAt.mp (mem_values.mp (mem_of_winner h)).1
    exact ⟨hin, hkey⟩

section Congr

variable (hws : Distinct ws) (hws' : Distinct ws')

include hws hws'

/-- **A register is read off the writes to it.** -/
theorem winner_congr (h : ∀ w, w ∈ writesAt ws obj key ↔ w ∈ writesAt ws' obj key) :
    winner erases ws obj key = winner erases ws' obj key := by
  have hvalues (w : Write ι κ α) :
      w ∈ values erases ws obj key ↔ w ∈ values erases ws' obj key := by
    simp only [mem_values, h]
  refine Option.ext fun w => ?_
  rw [winner_eq_some hws, winner_eq_some hws']
  simp only [hvalues]

theorem locate_congr
    (h : ∀ k ∈ outer, ∀ o w, w ∈ writesAt ws o k ↔ w ∈ writesAt ws' o k) :
    locate erases makes ws outer = locate erases makes ws' outer := by
  induction outer with
  | nil => rfl
  | cons k outer ih =>
    have hrest := ih fun k' hk' => h k' (List.mem_cons_of_mem _ hk')
    have hwinner (o : Option ι) : winner erases ws o k = winner erases ws' o k :=
      winner_congr hws hws' (h k List.mem_cons_self o)
    simp only [locate, hrest, hwinner]

/-- **What a path leads to is read off the writes along it.** -/
theorem value_congr
    (h : ∀ k ∈ key :: outer, ∀ o w, w ∈ writesAt ws o k ↔ w ∈ writesAt ws' o k) :
    value erases makes ws key outer = value erases makes ws' key outer := by
  have hlocate : locate erases makes ws outer = locate erases makes ws' outer :=
    locate_congr hws hws' fun k hk => h k (List.mem_cons_of_mem _ hk)
  have hwinner (o : Option ι) : winner erases ws o key = winner erases ws' o key :=
    winner_congr hws hws' (h key List.mem_cons_self o)
  simp only [value, hlocate, hwinner]

end Congr

/-- A write replaces earlier ones. -/
def Forward (w : Write ι κ α) : Prop := ∀ i ∈ w.pred, i < w.id

/-- **A register that is written and never erased holds something.** -/
theorem exists_winner (hforward : ∀ w ∈ writesAt ws obj key, Forward w)
    (herases : ∀ w ∈ writesAt ws obj key, erases w.act = false) (hw : w ∈ writesAt ws obj key) :
    ∃ w', winner erases ws obj key = some w' := by
  cases hlast : (writesAt ws obj key).argmax Write.id with
  | none =>
    rw [List.argmax_eq_none] at hlast
    rw [hlast] at hw
    cases hw
  | some last =>
    have hin : last ∈ writesAt ws obj key := List.argmax_mem hlast
    have hvalue : last ∈ values erases ws obj key := by
      refine mem_values.mpr ⟨hin, herases last hin, fun w' hw' hpred => ?_⟩
      have hlt := hforward w' hw' _ hpred
      exact absurd (List.le_of_mem_argmax hw' hlast) (not_le_of_gt hlt)
    cases hwinner : winner erases ws obj key with
    | none =>
      rw [winner, List.argmax_eq_none] at hwinner
      rw [hwinner] at hvalue
      cases hvalue
    | some w' => exact ⟨w', rfl⟩

/-- A register that is written once holds that. -/
theorem winner_of_single (hforward : Forward w) (herases : erases w.act = false)
    (hw : ∀ w', w' ∈ writesAt ws obj key ↔ w' = w) : winner erases ws obj key = some w := by
  have hvalues (w' : Write ι κ α) : w' ∈ values erases ws obj key ↔ w' = w := by
    rw [mem_values, hw]
    refine ⟨fun h => h.1, fun h => ⟨h, h ▸ herases, fun v hv hpred => ?_⟩⟩
    obtain rfl := (hw v).mp hv
    rw [h] at hpred
    exact absurd (hforward _ hpred) (lt_irrefl _)
  cases hwinner : winner erases ws obj key with
  | none =>
    rw [winner, List.argmax_eq_none] at hwinner
    have hmem := (hvalues w).mpr rfl
    rw [hwinner] at hmem
    cases hmem
  | some w' => rw [(hvalues w').mp (mem_of_winner hwinner)]

/-- The object below a register is the one that its write made. -/
theorem locate_cons : locate erases makes ws (key :: outer) =
    match value erases makes ws key outer with
    | some w => if makes w.act then some (some w.id) else none
    | none => none := by
  rw [locate, value]
  cases locate erases makes ws outer <;> rfl

/-- A register that is never erased holds the latest write to it. -/
theorem winner_eq_latest (hws : Distinct ws) (hforward : ∀ w ∈ writesAt ws obj key, Forward w)
    (herases : ∀ w ∈ writesAt ws obj key, erases w.act = false) :
    winner erases ws obj key = some w ↔
      w ∈ writesAt ws obj key ∧ ∀ w' ∈ writesAt ws obj key, w'.id ≤ w.id := by
  have hlatest (v : Write ι κ α) (hv : v ∈ writesAt ws obj key)
      (hmax : ∀ w' ∈ writesAt ws obj key, w'.id ≤ v.id) : v ∈ values erases ws obj key :=
    mem_values.mpr ⟨hv, herases v hv, fun w' hw' hpred =>
      absurd (hmax w' hw') (not_le_of_gt (hforward w' hw' _ hpred))⟩
  rw [winner_eq_some hws]
  refine ⟨fun ⟨hw, hmax⟩ => ⟨(mem_values.mp hw).1, fun w' hw' => ?_⟩, fun ⟨hw, hmax⟩ =>
    ⟨hlatest w hw hmax, fun w' hw' => hmax w' (mem_values.mp hw').1⟩⟩
  cases hlast : (writesAt ws obj key).argmax Write.id with
  | none =>
    rw [List.argmax_eq_none] at hlast
    rw [hlast] at hw'
    cases hw'
  | some last =>
    have hle (v : Write ι κ α) (hv : v ∈ writesAt ws obj key) : v.id ≤ last.id :=
      List.le_of_mem_argmax hv hlast
    exact (hle w' hw').trans (hmax last (hlatest last (List.argmax_mem hlast) hle))

/-- **Of two concurrent values one is kept**: in a register that is never erased the two sides
meet in what one of them held. -/
theorem winner_union {left right : List (Write ι κ α)} (hws : Distinct ws)
    (hleft : ∀ w ∈ writesAt left obj key, w ∈ ws) (hright : ∀ w ∈ writesAt right obj key, w ∈ ws)
    (hunion : ∀ w ∈ writesAt ws obj key, w ∈ left ∨ w ∈ right)
    (hl : Distinct left) (hr : Distinct right)
    (hforward : ∀ w ∈ writesAt ws obj key, Forward w)
    (herases : ∀ w ∈ writesAt ws obj key, erases w.act = false)
    (hw : winner erases ws obj key = some w) :
    winner erases left obj key = some w ∨ winner erases right obj key = some w := by
  obtain ⟨hin, hmax⟩ := (winner_eq_latest hws hforward herases).mp hw
  obtain ⟨-, hobj, hkey⟩ := mem_writesAt.mp hin
  have hside (side : List (Write ι κ α)) (hs : Distinct side)
      (hsub : ∀ v ∈ writesAt side obj key, v ∈ ws) (hv : w ∈ side) :
      winner erases side obj key = some w := by
    have hat (v : Write ι κ α) (hv : v ∈ writesAt side obj key) : v ∈ writesAt ws obj key :=
      mem_writesAt.mpr ⟨hsub v hv, (mem_writesAt.mp hv).2⟩
    exact (winner_eq_latest hs (fun v hv => hforward v (hat v hv))
      fun v hv => herases v (hat v hv)).mpr
      ⟨mem_writesAt.mpr ⟨hv, hobj, hkey⟩, fun v hv => hmax v (hat v hv)⟩
  exact (hunion w hin).imp (hside left hl hleft) (hside right hr hright)

/-- **An erasure takes away only what it has seen.** -/
theorem winner_idle (hws : Distinct ws) (hws' : Distinct ws')
    (hsub : ∀ w ∈ writesAt ws obj key, w ∈ ws')
    (hidle : ∀ w ∈ writesAt ws' obj key, w ∈ ws ∨
      erases w.act = true ∧ ∀ v ∈ values erases ws obj key, v.id ∉ w.pred) :
    winner erases ws' obj key = winner erases ws obj key := by
  have hvalues (w : Write ι κ α) :
      w ∈ values erases ws' obj key ↔ w ∈ values erases ws obj key := by
    constructor
    · intro hw
      obtain ⟨hin, hkeep, hnone⟩ := mem_values.mp hw
      have hold := (hidle w hin).resolve_right fun h => by simp [hkeep] at h
      refine mem_values.mpr ⟨mem_writesAt.mpr ⟨hold, (mem_writesAt.mp hin).2⟩, hkeep,
        fun v hv => hnone v (mem_writesAt.mpr ⟨hsub v hv, (mem_writesAt.mp hv).2⟩)⟩
    · intro hw
      obtain ⟨hin, hkeep, hnone⟩ := mem_values.mp hw
      refine mem_values.mpr ⟨mem_writesAt.mpr ⟨hsub w hin, (mem_writesAt.mp hin).2⟩, hkeep,
        fun v hv => ?_⟩
      rcases hidle v hv with hold | herase
      · exact hnone v (mem_writesAt.mpr ⟨hold, (mem_writesAt.mp hv).2⟩)
      · exact herase.2 w hw
  refine Option.ext fun w => ?_
  rw [winner_eq_some hws', winner_eq_some hws]
  simp only [hvalues]

/-- Writes refer to earlier ones only. -/
structure Ordered (ws : List (Write ι κ α)) : Prop where
  distinct : Distinct ws
  forward : ∀ w ∈ ws, Forward w
  inside : ∀ w ∈ ws, ∀ i, w.obj = some i → i < w.id

/-! ### One more write -/

section Concat

variable {v : Write ι κ α} {o : Option ι}

theorem writesAt_concat_other (h : ¬ (w.obj = obj ∧ w.key = key)) :
    writesAt (ws ++ [w]) obj key = writesAt ws obj key := by
  rw [writesAt, List.filter_append, List.filter_singleton, decide_eq_false h, cond_false,
    List.append_nil, writesAt]

theorem writesAt_concat_self : writesAt (ws ++ [w]) w.obj w.key = writesAt ws w.obj w.key ++ [w] := by
  rw [writesAt, List.filter_append, List.filter_singleton, decide_eq_true ⟨rfl, rfl⟩, cond_true,
    writesAt]

/-- A write elsewhere. -/
theorem winner_concat_other (h : ¬ (w.obj = obj ∧ w.key = key)) :
    winner erases (ws ++ [w]) obj key = winner erases ws obj key := by
  rw [winner, values, writesAt_concat_other h, winner, values]

theorem locate_concat_other (h : w.key ∉ outer) :
    locate erases makes (ws ++ [w]) outer = locate erases makes ws outer := by
  induction outer with
  | nil => rfl
  | cons k outer ih =>
    have hrest := ih fun hin => h (List.mem_cons_of_mem _ hin)
    have hwinner (o : Option ι) : winner erases (ws ++ [w]) o k = winner erases ws o k :=
      winner_concat_other fun hk => h (hk.2 ▸ List.mem_cons_self)
    simp only [locate, hrest, hwinner]

theorem value_concat_other (h : w.key ∉ key :: outer) :
    value erases makes (ws ++ [w]) key outer = value erases makes ws key outer := by
  have hlocate : locate erases makes (ws ++ [w]) outer = locate erases makes ws outer :=
    locate_concat_other fun hin => h (List.mem_cons_of_mem _ hin)
  have hwinner (o : Option ι) : winner erases (ws ++ [w]) o key = winner erases ws o key :=
    winner_concat_other fun hk => h (hk.2 ▸ List.mem_cons_self)
  simp only [value, hlocate, hwinner]

/-- The write replaces what its register holds, and nobody knows it yet. -/
structure Replaces (erases : α → Bool) (ws : List (Write ι κ α)) (w : Write ι κ α) : Prop where
  pred : ∀ v ∈ values erases ws w.obj w.key, v.id ∈ w.pred
  fresh : ∀ v ∈ writesAt ws w.obj w.key, w.id ∉ v.pred
  forward : w.id ∉ w.pred

/-- The latest write replaces what it sees. -/
theorem Ordered.replaces (h : Ordered ws) (hlater : ∀ v ∈ ws, v.id < w.id)
    (hpred : ∀ v ∈ values erases ws w.obj w.key, v.id ∈ w.pred)
    (hseen : ∀ i ∈ w.pred, ∃ v ∈ ws, v.id = i) : Replaces erases ws w where
  pred := hpred
  fresh := fun v hv hin => by
    have hv := (mem_writesAt.mp hv).1
    exact lt_asymm (h.forward v hv _ hin) (hlater v hv)
  forward := fun hin => by
    obtain ⟨v, hv, hid⟩ := hseen _ hin
    exact (hlater v hv).ne hid

omit [DecidableEq κ] in
theorem Ordered.concat (h : Ordered ws) (hlater : ∀ v ∈ ws, v.id < w.id)
    (hseen : ∀ i ∈ w.pred, ∃ v ∈ ws, v.id = i)
    (hobj : ∀ i, w.obj = some i → ∃ v ∈ ws, v.id = i) : Ordered (ws ++ [w]) where
  distinct := fun u hu v hv heq => by
    rcases List.mem_append.mp hu with hin | hin <;> rcases List.mem_append.mp hv with hin' | hin'
    · exact h.distinct hin hin' heq
    · rw [List.mem_singleton.mp hin'] at heq
      exact absurd heq (hlater u hin).ne
    · rw [List.mem_singleton.mp hin] at heq
      exact absurd heq.symm (hlater v hin').ne
    · rw [List.mem_singleton.mp hin, List.mem_singleton.mp hin']
  forward := List.forall_mem_append.mpr ⟨h.forward, List.forall_mem_singleton.mpr fun i hi => by
    obtain ⟨v, hv, rfl⟩ := hseen i hi
    exact hlater v hv⟩
  inside := List.forall_mem_append.mpr ⟨h.inside, List.forall_mem_singleton.mpr fun i hi => by
    obtain ⟨v, hv, rfl⟩ := hobj i hi
    exact hlater v hv⟩

omit [DecidableEq κ] in
/-- Nothing is in an object that is yet to be made. -/
theorem Ordered.notMem (h : Ordered ws) (hlater : ∀ v ∈ ws, v.id < w.id) :
    ∀ v ∈ ws, v.obj ≠ some w.id := fun v hv hobj =>
  lt_asymm (h.inside v hv _ hobj) (hlater v hv)

theorem Replaces.values_concat (h : Replaces erases ws w) :
    v ∈ values erases (ws ++ [w]) w.obj w.key ↔ v = w ∧ erases w.act = false := by
  rw [mem_values, writesAt_concat_self]
  simp only [List.mem_append, List.mem_singleton]
  refine ⟨fun ⟨hv, hkeep, hnone⟩ => ?_, ?_⟩
  · rcases hv with hv | rfl
    · have hin : v ∈ values erases ws w.obj w.key :=
        mem_values.mpr ⟨hv, hkeep, fun v' hv' => hnone v' (.inl hv')⟩
      exact absurd (h.pred v hin) (hnone w (.inr rfl))
    · exact ⟨rfl, hkeep⟩
  · rintro ⟨rfl, hkeep⟩
    refine ⟨.inr rfl, hkeep, fun v' hv' => ?_⟩
    rcases hv' with hv' | rfl
    · exact h.fresh v' hv'
    · exact h.forward

/-- **A write that replaces all it sees is what is read.** -/
theorem Replaces.winner_concat (h : Replaces erases ws w) :
    winner erases (ws ++ [w]) w.obj w.key = if erases w.act then none else some w := by
  cases hwinner : winner erases (ws ++ [w]) w.obj w.key with
  | none =>
    rw [winner, List.argmax_eq_none] at hwinner
    split
    next => rfl
    next hkeep =>
      have hin : w ∈ values erases (ws ++ [w]) w.obj w.key :=
        h.values_concat.mpr ⟨rfl, Bool.eq_false_of_not_eq_true hkeep⟩
      rw [hwinner] at hin
      cases hin
  | some v =>
    obtain ⟨rfl, hkeep⟩ := h.values_concat.mp (mem_of_winner hwinner)
    rw [if_neg (by simp [hkeep])]

theorem Replaces.value_concat (h : Replaces erases ws w) (hkey : w.key ∉ outer)
    (hlocate : locate erases makes ws outer = some w.obj) :
    value erases makes (ws ++ [w]) w.key outer = if erases w.act then none else some w := by
  rw [value, locate_concat_other hkey, hlocate]
  exact h.winner_concat

/-- There is nothing in an object that no write is in. -/
theorem winner_of_notMem (h : ∀ v ∈ ws, v.obj ≠ obj) : winner erases ws obj key = none := by
  have hnone : writesAt ws obj key = [] := by
    refine List.filter_eq_nil_iff.mpr fun v hv => ?_
    simp [h v hv]
  rw [winner, values, hnone]
  rfl

/-- Nothing is found below what is not there. -/
theorem locate_append_none {front : List κ} (h : locate erases makes ws outer = none) :
    locate erases makes ws (front ++ outer) = none := by
  induction front with
  | nil => exact h
  | cons k front ih => rw [List.cons_append, locate, ih]

/-- A register that is written anew leads to the object that is made, if one is. -/
theorem Replaces.locate_concat (h : Replaces erases ws w) (hkey : w.key ∉ outer)
    (hlocate : locate erases makes ws outer = some w.obj) :
    locate erases makes (ws ++ [w]) (w.key :: outer) =
      if erases w.act = false ∧ makes w.act = true then some (some w.id) else none := by
  rw [locate, locate_concat_other hkey, hlocate]
  simp only [h.winner_concat]
  by_cases hkeep : erases w.act = true
  · simp [hkeep]
  · by_cases hmakes : makes w.act = true <;> simp [hkeep, hmakes]

/-- **Whatever was below a register goes when it is written anew**: what is made there is
empty. -/
theorem Replaces.below_concat (h : Replaces erases ws w) (hkey : w.key ∉ outer)
    (hlocate : locate erases makes ws outer = some w.obj)
    (hnew : ∀ v ∈ ws ++ [w], v.obj ≠ some w.id) {front : List κ} :
    value erases makes (ws ++ [w]) key (front ++ w.key :: outer) = none := by
  have hself : locate erases makes (ws ++ [w]) (w.key :: outer) =
      if erases w.act = false ∧ makes w.act = true then some (some w.id) else none :=
    h.locate_concat hkey hlocate
  have hwinner (k : κ) : winner erases (ws ++ [w]) (some w.id) k = none := winner_of_notMem hnew
  have hfront : locate erases makes (ws ++ [w]) (front ++ w.key :: outer) = none ∨
      locate erases makes (ws ++ [w]) (front ++ w.key :: outer) = some (some w.id) := by
    induction front with
    | nil =>
      rw [List.nil_append, hself]
      split
      next => exact .inr rfl
      next => exact .inl rfl
    | cons k front ih =>
      refine .inl ?_
      rcases ih with hf | hf
      · rw [List.cons_append, locate, hf]
      · rw [List.cons_append, locate, hf]
        simp only [hwinner]
  rcases hfront with hf | hf
  · rw [value, hf]
  · rw [value, hf]
    exact hwinner key

end Concat

end Registers
