import Mathlib.Data.List.FinRange
import Mathlib.Data.List.Nodup

/-! Texts that are edited on two forks.

A replicated text is a list of elements, each with a name of its own, so that two elements of
one character differ. A splice takes elements out and types new ones. Two forks merge to the
elements that neither took out and all that either typed (`Merged`).

What a user did to a text is an `Edit`: which characters were kept, and what was typed between
them. `Merged.once_iff` says when two edits that were each written as a whole, with one splice,
merge without a character twice. -/
namespace Text

variable {α : Type*}

/-- The place an element had in the text that was forked, or the fork that typed it. -/
inductive Name where
  | base (i : Nat)
  | typed (fork : Bool) (n : Nat)
  deriving DecidableEq, Repr

abbrev Element (α : Type*) := Name × α

def chars (t : List (Element α)) : List α := t.map Prod.snd

/-- The text that is forked. -/
def initial (base : List α) : List (Element α) := base.zipIdx.map fun x => (.base x.2, x.1)

/-- What a fork types, its `n`-th character and those after it. -/
def typed (fork : Bool) (n : Nat) (s : List α) : List (Element α) :=
  (s.zipIdx n).map fun x => (.typed fork x.2, x.1)

/-- At `pos`, `del` elements are taken out and new ones typed. -/
structure Splice (α : Type*) where
  pos : Nat
  del : Nat
  insert : List α
  deriving DecidableEq, Repr

def Splice.apply (fork : Bool) (n : Nat) (t : List (Element α)) (s : Splice α) :
    List (Element α) :=
  t.take s.pos ++ typed fork n s.insert ++ t.drop (s.pos + s.del)

/-- What a fork that has typed `n` characters makes of a text. -/
def splices (fork : Bool) : Nat → List (Element α) → List (Splice α) → List (Element α)
  | _, t, [] => t
  | n, t, s :: rest => splices fork (n + s.insert.length) (s.apply fork n t) rest

/-- The splices that make a text read `new` by typing all of it. -/
def wholly [DecidableEq α] (old new : List α) : List (Splice α) :=
  if old = new then [] else [⟨0, old.length, new⟩]

@[simp] theorem chars_typed (fork : Bool) (n : Nat) (s : List α) : chars (typed fork n s) = s := by
  simp [chars, typed, Function.comp_def]

@[simp] theorem chars_initial (base : List α) : chars (initial base) = base := by
  simp [chars, initial, Function.comp_def]

theorem chars_apply (fork : Bool) (n : Nat) (t : List (Element α)) (s : Splice α) :
    chars (s.apply fork n t) =
      (chars t).take s.pos ++ s.insert ++ (chars t).drop (s.pos + s.del) := by
  rw [← chars_typed fork n s.insert]
  simp only [Splice.apply, chars, List.map_append, List.map_take, List.map_drop]

theorem splices_wholly [DecidableEq α] (fork : Bool) (n : Nat) (t : List (Element α))
    (new : List α) : splices fork n t (wholly (chars t) new) =
      if chars t = new then t else typed fork n new := by
  unfold wholly
  split
  next => rfl
  next =>
    simp only [splices, Splice.apply, List.take_zero, List.nil_append, Nat.zero_add]
    rw [chars, List.length_map, List.drop_length, List.append_nil]

theorem getElem?_typed (fork : Bool) (n : Nat) (s : List α) (k : Nat) :
    (typed fork n s)[k]? = s[k]?.map fun c => (.typed fork (n + k), c) := by
  simp [typed, Function.comp_def]

theorem getElem?_initial (base : List α) (k : Nat) :
    (initial base)[k]? = base[k]?.map fun c => (.base k, c) := by
  simp [initial, Function.comp_def]

theorem nodup_typed (fork : Bool) (n : Nat) (s : List α) : (typed fork n s).Nodup := by
  refine List.nodup_iff_getElem?_ne_getElem?.mpr fun i j hij hj => ?_
  have hlen : (typed fork n s).length = s.length := by simp [typed]
  rw [getElem?_typed, getElem?_typed, List.getElem?_eq_getElem (by omega),
    List.getElem?_eq_getElem (by omega)]
  simp only [Option.map_some, ne_eq, Option.some.injEq, Prod.mk.injEq, Name.typed.injEq, not_and]
  intro h
  omega

theorem name_of_mem_typed {fork : Bool} {n : Nat} {s : List α} {x : Element α}
    (h : x ∈ typed fork n s) : ∃ k, x.1 = .typed fork k := by
  obtain ⟨y, -, rfl⟩ := List.mem_map.mp h
  exact ⟨y.2, rfl⟩

theorem name_of_mem_initial {base : List α} {x : Element α} (h : x ∈ initial base) :
    ∃ k, x.1 = .base k := by
  obtain ⟨y, -, rfl⟩ := List.mem_map.mp h
  exact ⟨y.2, rfl⟩

/-! ### Merging -/

/-- The merge of two forks: the union of what they typed, less the union of what they took
out, with the elements of each fork in its order. -/
structure Merged [DecidableEq α] (t t' m : List (Element α)) : Prop where
  nodup : m.Nodup
  mem_base : ∀ i c, (.base i, c) ∈ m ↔ (.base i, c) ∈ t ∧ (.base i, c) ∈ t'
  mem_typed : ∀ fork n c,
    (.typed fork n, c) ∈ m ↔ (.typed fork n, c) ∈ t ∨ (.typed fork n, c) ∈ t'
  left : m.filter (· ∈ t) = t.filter (· ∈ m)
  right : m.filter (· ∈ t') = t'.filter (· ∈ m)

/-- What two forks typed anew, one after the other. -/
theorem merged_typed [DecidableEq α] {fork fork' : Bool} (hfork : fork ≠ fork') (s s' : List α) :
    Merged (typed fork 0 s) (typed fork' 0 s') (typed fork 0 s ++ typed fork' 0 s') := by
  have hapart {x : Element α} (hx : x ∈ typed fork 0 s) : x ∉ typed fork' 0 s' := fun hx' => by
    obtain ⟨n, hn⟩ := name_of_mem_typed hx
    obtain ⟨k, hk⟩ := name_of_mem_typed hx'
    rw [hn] at hk
    exact hfork (Name.typed.inj hk).1
  have hbase (fork : Bool) (s : List α) (i : Nat) (c : α) : (.base i, c) ∉ typed fork 0 s :=
    fun h => by
      obtain ⟨k, hk⟩ := name_of_mem_typed h
      cases hk
  refine ⟨List.nodup_append.mpr ⟨nodup_typed .., nodup_typed .., ?_⟩, fun i c => ?_,
    fun _ _ _ => List.mem_append, ?_, ?_⟩
  · rintro x hx y hy rfl
    exact hapart hx hy
  · simp [hbase]
  · rw [List.filter_append, List.filter_eq_self.mpr (by simp),
      List.filter_eq_nil_iff.mpr fun x hx hx' => hapart (by simpa using hx') hx,
      List.append_nil, List.filter_eq_self.mpr (by simp +contextual)]
  · rw [List.filter_append, List.filter_eq_nil_iff.mpr fun x hx hx' => hapart hx (by simpa using hx'),
      List.nil_append, List.filter_eq_self.mpr (by simp), List.filter_eq_self.mpr (by simp +contextual)]

/-! ### Edits -/

/-- A version of a text: which characters of it are still there, in their order, and what has
been typed between them. A version that reads as the text did has kept it. -/
structure Edit (base : List α) where
  letters : List (Fin base.length ⊕ α)
  ordered : (letters.filterMap Sum.getLeft?).Pairwise (· < ·)
  kept : letters.map (Sum.elim base.get id) = base →
    letters = (List.finRange base.length).map .inl

namespace Edit

variable {base : List α} (e : Edit base)

/-- What the version reads. -/
def text : List α := e.letters.map (Sum.elim base.get id)

/-- The base with something typed before and after it. -/
def around (base front back : List α) : Edit base where
  letters := front.map .inr ++ (List.finRange base.length).map .inl ++ back.map .inr
  ordered := by
    have hnone (s : List α) :
        (s.map .inr : List (Fin base.length ⊕ α)).filterMap Sum.getLeft? = [] := by
      simp [List.filterMap_eq_nil_iff]
    have hall : ((List.finRange base.length).map .inl : List (Fin base.length ⊕ α)).filterMap
        Sum.getLeft? = List.finRange base.length := by
      simp [List.filterMap_map, Function.comp_def]
    rw [List.filterMap_append, List.filterMap_append, hnone, hnone, hall, List.nil_append,
      List.append_nil]
    exact List.pairwise_lt_finRange _
  kept := by
    intro h
    have hlen := congrArg List.length h
    simp only [List.length_map, List.length_append, List.length_finRange] at hlen
    obtain rfl : front = [] := List.eq_nil_of_length_eq_zero (by omega)
    obtain rfl : back = [] := List.eq_nil_of_length_eq_zero (by omega)
    simp

/-- The version still has the character. -/
def Keeps (i : Fin base.length) : Prop := .inl i ∈ e.letters

theorem keeps_around (front back : List α) (i : Fin base.length) :
    (around base front back).Keeps i :=
  List.mem_append_left _ (List.mem_append_right _
    (List.mem_map_of_mem (List.mem_finRange i)))

/-- A character is kept once. -/
theorem index_unique {i : Fin base.length} {j k : Nat} (hj : e.letters[j]? = some (.inl i))
    (hk : e.letters[k]? = some (.inl i)) : j = k := by
  have hpair := List.pairwise_filterMap.mp e.ordered
  have hlt {j k : Nat} (hj : e.letters[j]? = some (.inl i)) (hk : e.letters[k]? = some (.inl i)) :
      ¬ j < k := by
    intro hjk
    obtain ⟨hj', hj⟩ := List.getElem?_eq_some_iff.mp hj
    obtain ⟨hk', hk⟩ := List.getElem?_eq_some_iff.mp hk
    have hrel := List.pairwise_iff_getElem.mp hpair j k hj' hk' hjk i (by rw [hj]; rfl) i
      (by rw [hk]; rfl)
    exact lt_irrefl i hrel
  have h₁ := hlt hj hk
  have h₂ := hlt hk hj
  omega

/-- The element of the text `t`, which reads as the version, that stands for a letter of it. -/
def Stands (t : List (Element α)) (x : Element α) (a : Fin base.length ⊕ α) : Prop :=
  ∃ n : Nat, t[n]? = some x ∧ e.letters[n]? = some a

variable {e}

theorem Stands.mem {t : List (Element α)} {x : Element α} {a : Fin base.length ⊕ α}
    (h : e.Stands t x a) : x ∈ t := by
  obtain ⟨n, hx, -⟩ := h
  exact List.mem_of_getElem? hx

/-- In a text that reads as the version, every letter of it has an element. -/
theorem exists_stands {t : List (Element α)} (ht : chars t = e.text) {a : Fin base.length ⊕ α}
    (h : a ∈ e.letters) : ∃ x, e.Stands t x a := by
  obtain ⟨n, hn, ha⟩ := List.mem_iff_getElem.mp h
  have hlen : t.length = e.letters.length := by
    have hlength := congrArg List.length ht
    simpa [chars, text] using hlength
  exact ⟨t[n], n, List.getElem?_eq_getElem _, by rw [List.getElem?_eq_getElem hn, ha]⟩

theorem Stands.unique {t : List (Element α)} {x y : Element α} {i : Fin base.length}
    (hx : e.Stands t x (.inl i)) (hy : e.Stands t y (.inl i)) : x = y := by
  obtain ⟨n, hx, hn⟩ := hx
  obtain ⟨k, hy, hk⟩ := hy
  obtain rfl := e.index_unique hn hk
  exact Option.some.inj (hx.symm.trans hy)

/-- In a version that reads as the base did, every element stands for itself. -/
theorem stands_initial (h : e.text = base) {x : Element α} {a : Fin base.length ⊕ α}
    (hx : e.Stands (initial base) x a) : ∃ i, a = .inl i ∧ x = (.base i, base[i]) := by
  obtain ⟨n, hx, ha⟩ := hx
  rw [e.kept h, List.getElem?_map] at ha
  obtain ⟨i, hi, rfl⟩ := Option.map_eq_some_iff.mp ha
  obtain ⟨hn, rfl⟩ := List.getElem?_eq_some_iff.mp hi
  rw [getElem?_initial, List.getElem?_eq_getElem (by simpa using hn)] at hx
  refine ⟨_, rfl, ?_⟩
  simpa using (Option.some.inj hx).symm

end Edit

/-! ### Edits over one another -/

section Respected

variable {base : List α}

end Respected

/-! ### Edits that are written wholly -/

section Once

variable [DecidableEq α] {base : List α} (e e' : Edit base) (t t' m : List (Element α))

/-- Every character of the base that both versions keep is in the merge once, and so is every
letter that was typed for either. -/
structure Once : Prop where
  kept : ∀ i, e.Keeps i → e'.Keeps i →
    ∃! x, x ∈ m ∧ (e.Stands t x (.inl i) ∨ e'.Stands t' x (.inl i))
  typed : ∀ x c, e.Stands t x (.inr c) ∨ e'.Stands t' x (.inr c) → m.count x = 1

/-- What a fork has after it wrote its version wholly. -/
def written (fork : Bool) : List (Element α) := splices fork 0 (initial base) (wholly base e.text)

variable {e e' t t' m}

theorem written_eq (fork : Bool) :
    written e fork = if e.text = base then initial base else typed fork 0 e.text := by
  have h := splices_wholly fork 0 (initial base) e.text
  simp only [chars_initial] at h
  rw [written, h]
  simp only [eq_comm]

theorem chars_written (fork : Bool) : chars (written e fork) = e.text := by
  rw [written_eq]
  split
  next h => rw [chars_initial, h]
  next => rw [chars_typed]

variable {fork fork' : Bool}

theorem Merged.symm (hm : Merged t t' m) : Merged t' t m where
  nodup := hm.nodup
  mem_base i c := (hm.mem_base i c).trans and_comm
  mem_typed fork n c := (hm.mem_typed fork n c).trans or_comm
  left := hm.right
  right := hm.left

theorem Once.symm (h : Once e e' t t' m) : Once e' e t' t m where
  kept i hi hi' := by simpa only [or_comm] using h.kept i hi' hi
  typed x c hx := h.typed x c hx.symm

/-- Two versions that are not the base leave no element of it. -/
theorem mem_merged_of_both (hm : Merged (written e fork) (written e' fork') m)
    (he : e.text ≠ base) (he' : e'.text ≠ base) {x : Element α} :
    x ∈ m ↔ x ∈ written e fork ∨ x ∈ written e' fork' := by
  obtain ⟨name, c⟩ := x
  cases name with
  | typed fork n => exact hm.mem_typed fork n c
  | base i =>
    have hno (fork : Bool) (s : List α) : (.base i, c) ∉ typed fork 0 s := fun h => by
      obtain ⟨k, hk⟩ := name_of_mem_typed h
      cases hk
    rw [hm.mem_base, written_eq, written_eq, if_neg he, if_neg he']
    simp [hno]

/-- Where one version is the base, the other is the merge. -/
theorem mem_merged_of_left (hm : Merged (written e fork) (written e' fork') m)
    (he : e.text = base) {x : Element α} : x ∈ m ↔ x ∈ written e' fork' := by
  obtain ⟨name, c⟩ := x
  rw [written_eq, if_pos he] at hm
  cases name with
  | typed fork n =>
    rw [hm.mem_typed, or_iff_right]
    intro h
    obtain ⟨k, hk⟩ := name_of_mem_initial h
    cases hk
  | base i =>
    rw [hm.mem_base, and_iff_right_iff_imp]
    intro h
    rw [written_eq] at h
    split at h
    next => exact h
    next =>
      obtain ⟨k, hk⟩ := name_of_mem_typed h
      cases hk

theorem once_of_left (hm : Merged (written e fork) (written e' fork') m) (he : e.text = base) :
    Once e e' (written e fork) (written e' fork') m := by
  have hleft {x : Element α} {a : Fin base.length ⊕ α} (hx : e.Stands (written e fork) x a) :
      ∃ i, a = .inl i ∧ x = (.base i, base[i]) := by
    rw [written_eq, if_pos he] at hx
    exact Edit.stands_initial he hx
  refine ⟨fun i _ hi => ?_, fun x c hx => ?_⟩
  · obtain ⟨y, hy⟩ := Edit.exists_stands (chars_written fork') hi
    refine ⟨y, ⟨(mem_merged_of_left hm he).mpr hy.mem, .inr hy⟩, ?_⟩
    rintro z ⟨hz, hstands | hstands⟩
    · -- An element of the base is in the merge only if the other fork is the base too.
      obtain ⟨j, hj, rfl⟩ := hleft hstands
      obtain rfl := Sum.inl.inj hj
      have hin := (mem_merged_of_left hm he).mp hz
      rw [written_eq] at hin hy
      split at hin
      next he' =>
        rw [if_pos he'] at hy
        obtain ⟨j, hj, rfl⟩ := Edit.stands_initial he' hy
        obtain rfl := Sum.inl.inj hj
        rfl
      next =>
        obtain ⟨k, hk⟩ := name_of_mem_typed hin
        cases hk
    · exact hstands.unique hy
  · obtain hx | hx := hx
    · obtain ⟨i, hi, -⟩ := hleft hx
      cases hi
    · exact List.count_eq_one_of_mem hm.nodup ((mem_merged_of_left hm he).mpr hx.mem)

/-- **Two versions that are each written wholly merge without a character twice** just when
one of them is the base, or they keep no character in common. -/
theorem Merged.once_iff (hfork : fork ≠ fork')
    (hm : Merged (written e fork) (written e' fork') m) :
    Once e e' (written e fork) (written e' fork') m ↔
      e.text = base ∨ e'.text = base ∨ ∀ i, ¬ (e.Keeps i ∧ e'.Keeps i) := by
  by_cases he : e.text = base
  · exact iff_of_true (once_of_left hm he) (.inl he)
  by_cases he' : e'.text = base
  · exact iff_of_true (once_of_left hm.symm he').symm (.inr (.inl he'))
  have hmem {x : Element α} := mem_merged_of_both hm he he' (x := x)
  rw [or_iff_right he, or_iff_right he']
  constructor
  · rintro h i ⟨hi, hi'⟩
    obtain ⟨x, hx⟩ := Edit.exists_stands (chars_written fork) hi
    obtain ⟨y, hy⟩ := Edit.exists_stands (chars_written fork') hi'
    obtain rfl := (h.kept i hi hi').unique ⟨hmem.mpr (.inl hx.mem), .inl hx⟩
      ⟨hmem.mpr (.inr hy.mem), .inr hy⟩
    have hx := hx.mem
    have hy := hy.mem
    rw [written_eq, if_neg he] at hx
    rw [written_eq, if_neg he'] at hy
    obtain ⟨n, hn⟩ := name_of_mem_typed hx
    obtain ⟨k, hk⟩ := name_of_mem_typed hy
    rw [hn] at hk
    exact hfork (Name.typed.inj hk).1
  · intro h
    refine ⟨fun i hi hi' => absurd ⟨hi, hi'⟩ (h i), fun x c hx => ?_⟩
    exact List.count_eq_one_of_mem hm.nodup (hmem.mpr (hx.imp Edit.Stands.mem Edit.Stands.mem))

end Once

end Text
