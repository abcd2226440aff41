import Mathlib.Data.Set.Insert
import Mathlib.Logic.Function.Basic

/-! Tables that are read by a field of their entries.

A table maps ids to entries, and an entry has a key that may change while its id stays. As
long as keys are unique (`Unique`) the table is a map from keys to entries (`lookup`), and
setting the entry of one id is what setting and clearing keys of that map is. `Extends` is
a table that has only gained entries. -/
namespace Index

variable {ι κ α : Type*} {key : α → κ} {t t' t'' : ι → Option α}

/-- No two ids have entries of one key. -/
def Unique (key : α → κ) (t : ι → Option α) : Prop :=
  ∀ i j a b, t i = some a → t j = some b → key a = key b → i = j

/-- The keys of a table. -/
def keys (key : α → κ) (t : ι → Option α) : Set κ := {k | ∃ i a, t i = some a ∧ key a = k}

theorem mem_keys {k : κ} : k ∈ keys key t ↔ ∃ i a, t i = some a ∧ key a = k := Iff.rfl

theorem mem_keys_of {i : ι} {a : α} (h : t i = some a) : key a ∈ keys key t := ⟨i, a, h, rfl⟩

open Classical in
/-- An entry of a key. -/
noncomputable def lookup (key : α → κ) (t : ι → Option α) (k : κ) : Option α :=
  if h : ∃ a, ∃ i, t i = some a ∧ key a = k then some h.choose else none

theorem lookup_eq_none {k : κ} : lookup key t k = none ↔ k ∉ keys key t := by
  unfold lookup
  split
  next h =>
    obtain ⟨a, i, ha⟩ := h
    simpa using mem_keys.mpr ⟨i, a, ha⟩
  next h =>
    simp only [true_iff]
    intro ⟨i, a, ha⟩
    exact h ⟨a, i, ha⟩

/-- **Keys that are unique look their entries up.** -/
theorem Unique.lookup_eq_some (h : Unique key t) {k : κ} {a : α} :
    lookup key t k = some a ↔ ∃ i, t i = some a ∧ key a = k := by
  unfold lookup
  split
  next hk =>
    obtain ⟨i, hi, hkey⟩ := hk.choose_spec
    rw [Option.some_inj]
    constructor
    · rintro rfl
      exact ⟨i, hi, hkey⟩
    · intro ⟨j, hj, hkey'⟩
      obtain rfl := h i j _ _ hi hj (hkey.trans hkey'.symm)
      exact Option.some.inj (hi.symm.trans hj)
  next hk =>
    simp only [reduceCtorEq, false_iff]
    exact fun ⟨i, hi⟩ => hk ⟨a, i, hi⟩

theorem Unique.lookup_of (h : Unique key t) {i : ι} {a : α} (hi : t i = some a) :
    lookup key t (key a) = some a :=
  h.lookup_eq_some.mpr ⟨i, hi, rfl⟩

/-- Fewer entries, and keys that are as they were. -/
theorem Unique.mono (h : Unique key t)
    (hsub : ∀ i a, t' i = some a → ∃ b, t i = some b ∧ key b = key a) : Unique key t' := by
  intro i j a b hi hj hkey
  obtain ⟨a', ha', hka⟩ := hsub i a hi
  obtain ⟨b', hb', hkb⟩ := hsub j b hj
  exact h i j a' b' ha' hb' (hka.trans (hkey.trans hkb.symm))

/-- Entries are changed one by one, so that no two keys become one. -/
theorem Unique.map {g : α → α} (h : Unique key t)
    (hg : ∀ i j x y, t i = some x → t j = some y → key (g x) = key (g y) → key x = key y) :
    Unique key fun i => (t i).map g := by
  intro i j x y hi hj hkey
  obtain ⟨x, hx, rfl⟩ := Option.map_eq_some_iff.mp hi
  obtain ⟨y, hy, rfl⟩ := Option.map_eq_some_iff.mp hj
  exact h i j x y hx hy (hg i j x y hx hy hkey)

/-- A key that no entry has is free. -/
theorem free_of_notMem {i : ι} {b : α} (hk : key b ∉ keys key t) :
    ∀ j c, j ≠ i → t j = some c → key c ≠ key b :=
  fun _ _ _ hj hkey => hk (hkey ▸ mem_keys_of hj)

/-- The keys other entries leave free are free once the entry of the key itself is set. -/
theorem Unique.free_of_same {i : ι} {a b : α} (h : Unique key t) (hi : t i = some a) (hkey : key b = key a) :
    ∀ j c, j ≠ i → t j = some c → key c ≠ key b :=
  fun j c hj hc heq => hj (h j i c a hc hi (heq.trans hkey))

section Update

variable [DecidableEq ι] {i : ι} {a b : α}

theorem update_eq_some {j : ι} {c : α} {v : Option α} :
    Function.update t i v j = some c ↔ (j = i ∧ v = some c) ∨ (j ≠ i ∧ t j = some c) := by
  by_cases hj : j = i
  · subst hj
    simp
  · simp [hj]

/-- Setting an entry to a key that no other entry has. -/
theorem Unique.update (h : Unique key t) (hfree : ∀ j c, j ≠ i → t j = some c → key c ≠ key b) :
    Unique key (Function.update t i (some b)) := by
  intro j l c d hj hl hkey
  rw [update_eq_some] at hj hl
  obtain ⟨hji, hj⟩ | ⟨hji, hj⟩ := hj
  · obtain ⟨hli, hl⟩ | ⟨hli, hl⟩ := hl
    · exact hji.trans hli.symm
    · obtain rfl := Option.some.inj hj
      exact absurd hkey.symm (hfree l d hli hl)
  · obtain ⟨hli, hl⟩ | ⟨hli, hl⟩ := hl
    · obtain rfl := Option.some.inj hl
      exact absurd hkey (hfree j c hji hj)
    · exact h j l c d hj hl hkey

theorem Unique.erase (h : Unique key t) : Unique key (Function.update t i none) := by
  refine h.mono fun j c hj => ⟨c, ?_, rfl⟩
  rw [update_eq_some] at hj
  obtain ⟨-, hj⟩ | ⟨-, hj⟩ := hj
  · cases hj
  · exact hj

theorem keys_add (hi : t i = none) :
    keys key (Function.update t i (some b)) = insert (key b) (keys key t) := by
  ext k
  simp only [mem_keys, Set.mem_insert_iff, update_eq_some]
  constructor
  · rintro ⟨j, c, ⟨-, hc⟩ | ⟨-, hc⟩, rfl⟩
    · obtain rfl := Option.some.inj hc
      exact .inl rfl
    · exact .inr ⟨j, c, hc, rfl⟩
  · rintro (rfl | ⟨j, c, hc, rfl⟩)
    · exact ⟨i, b, .inl ⟨rfl, rfl⟩, rfl⟩
    · refine ⟨j, c, .inr ⟨?_, hc⟩, rfl⟩
      rintro rfl
      rw [hi] at hc
      cases hc

/-- **An entry is added** under a key that is free. -/
theorem Unique.lookup_add [DecidableEq κ] (h : Unique key t) (hi : t i = none) (hk : key b ∉ keys key t) :
    lookup key (Function.update t i (some b)) =
      Function.update (lookup key t) (key b) (some b) := by
  have h' := h.update (i := i) (free_of_notMem hk)
  funext k
  by_cases hkb : k = key b
  · subst hkb
    rw [Function.update_self]
    exact h'.lookup_of (by rw [Function.update_self])
  · rw [Function.update_of_ne hkb]
    refine Option.ext fun c => ?_
    rw [h'.lookup_eq_some, h.lookup_eq_some]
    constructor
    · intro ⟨j, hj, hkey⟩
      rw [update_eq_some] at hj
      obtain ⟨-, hj⟩ | ⟨-, hj⟩ := hj
      · obtain rfl := Option.some.inj hj
        exact absurd hkey.symm hkb
      · exact ⟨j, hj, hkey⟩
    · intro ⟨j, hj, hkey⟩
      refine ⟨j, update_eq_some.mpr (.inr ⟨?_, hj⟩), hkey⟩
      rintro rfl
      rw [hi] at hj
      cases hj

/-- **An entry is cleared**, and with it its key. -/
theorem Unique.lookup_erase [DecidableEq κ] (h : Unique key t) (hi : t i = some a) :
    lookup key (Function.update t i none) = Function.update (lookup key t) (key a) none := by
  funext k
  refine Option.ext fun c => ?_
  rw [h.erase.lookup_eq_some, update_eq_some (t := lookup key t), h.lookup_eq_some]
  constructor
  · intro ⟨j, hj, hkey⟩
    rw [update_eq_some] at hj
    obtain ⟨-, hj⟩ | ⟨hji, hj⟩ := hj
    · cases hj
    · exact .inr ⟨fun hk => hji (h j i c a hj hi (hkey.trans hk)), j, hj, hkey⟩
  · rintro (⟨-, hc⟩ | ⟨hne, j, hj, hkey⟩)
    · cases hc
    · refine ⟨j, update_eq_some.mpr (.inr ⟨?_, hj⟩), hkey⟩
      rintro rfl
      rw [hi] at hj
      obtain rfl := Option.some.inj hj
      exact hne hkey.symm

/-- **An entry is replaced**, under its key or another one that is free. -/
theorem Unique.lookup_move [DecidableEq κ] (h : Unique key t) (hi : t i = some a)
    (hfree : ∀ j c, j ≠ i → t j = some c → key c ≠ key b) :
    lookup key (Function.update t i (some b)) =
      Function.update (Function.update (lookup key t) (key a) none) (key b) (some b) := by
  have hcleared : Function.update (Function.update t i none) i (some b) =
      Function.update t i (some b) := Function.update_idem ..
  rw [← hcleared, h.erase.lookup_add (by rw [Function.update_self]) ?_, h.lookup_erase hi]
  intro ⟨j, c, hj, hkey⟩
  rw [update_eq_some] at hj
  obtain ⟨-, hj⟩ | ⟨hji, hj⟩ := hj
  · cases hj
  · exact hfree j c hji hj hkey

end Update

/-! ### Growing -/

/-- The table has gained entries for those of the keys `ks` that it lacked. -/
structure Extends (key : α → κ) (t t' : ι → Option α) (ks : List κ) : Prop where
  keep : ∀ i a, t i = some a → t' i = some a
  origin : ∀ i a, t' i = some a → t i = some a ∨ (key a ∈ ks ∧ key a ∉ keys key t)
  keys : keys key t' = keys key t ∪ {k | k ∈ ks}
  unique : Unique key t → Unique key t'

theorem Extends.refl {ks : List κ} (h : ∀ k ∈ ks, k ∈ Index.keys key t) :
    Extends key t t ks where
  keep := fun _ _ h => h
  origin := fun _ _ h => .inl h
  keys := (Set.union_eq_self_of_subset_right h).symm
  unique := id

theorem Extends.add [DecidableEq ι] {i : ι} {b : α} (hi : t i = none)
    (hk : key b ∉ Index.keys key t) : Extends key t (Function.update t i (some b)) [key b] where
  keep := by
    intro j a hj
    rw [Function.update_of_ne ?_, hj]
    rintro rfl
    rw [hi] at hj
    cases hj
  origin := by
    intro j a hj
    rw [update_eq_some] at hj
    obtain ⟨-, hj⟩ | ⟨-, hj⟩ := hj
    · obtain rfl := Option.some.inj hj
      exact .inr ⟨List.mem_singleton_self _, hk⟩
    · exact .inl hj
  keys := by
    rw [keys_add hi, Set.insert_eq, Set.union_comm]
    simp
  unique := fun h => h.update (free_of_notMem hk)

theorem Extends.trans {ks ks' : List κ} (h : Extends key t t' ks) (h' : Extends key t' t'' ks') :
    Extends key t t'' (ks ++ ks') where
  keep := fun i a hi => h'.keep i a (h.keep i a hi)
  origin := by
    intro i a hi
    obtain hi | ⟨hmem, hnew⟩ := h'.origin i a hi
    · exact (h.origin i a hi).imp_right fun ⟨hmem, hnew⟩ => ⟨List.mem_append_left _ hmem, hnew⟩
    · refine .inr ⟨List.mem_append_right _ hmem, fun hold => hnew ?_⟩
      rw [h.keys]
      exact .inl hold
  keys := by
    rw [h'.keys, h.keys, Set.union_assoc]
    congr 1
    ext k
    simp
  unique := fun hu => h'.unique (h.unique hu)

/-- Nothing is gained without keys. -/
theorem Extends.eq_of_nil (h : Extends key t t' []) : t' = t := by
  funext i
  refine Option.ext fun a => ⟨fun hi => ?_, h.keep i a⟩
  exact (h.origin i a hi).resolve_right fun h => List.not_mem_nil h.1

end Index
