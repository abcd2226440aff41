import Mathlib.Data.List.DropRight

/-! What stands between the ends of a list that are trimmed.

`trim` takes from both ends what satisfies `p`. What is left neither begins nor ends so, and a
list is what is trimmed of it around what is left. -/
namespace Trimming

variable {α : Type} {p : α → Bool}

def trim (p : α → Bool) (s : List α) : List α := (s.dropWhile p).rdropWhile p

/-- Neither end would be trimmed. -/
def Bare (p : α → Bool) (s : List α) : Prop :=
  (∀ x ∈ s.head?, p x = false) ∧ ∀ x ∈ s.getLast?, p x = false

theorem dropWhile_of_head? {s : List α} (h : ∀ x ∈ s.head?, p x = false) : s.dropWhile p = s := by
  cases s with
  | nil => rfl
  | cons x rest => exact List.dropWhile_cons_of_neg (by simp [h x rfl])

theorem rdropWhile_of_getLast? {s : List α} (h : ∀ x ∈ s.getLast?, p x = false) :
    s.rdropWhile p = s := by
  rw [List.rdropWhile_eq_self_iff]
  intro hne
  simp [h _ (List.getLast?_eq_getLast_of_ne_nil hne)]

/-- Only the ends are trimmed. -/
theorem trim_append {a s b : List α} (hs : Bare p s) (hne : s ≠ []) (ha : ∀ x ∈ a, p x = true)
    (hb : ∀ x ∈ b, p x = true) : trim p (a ++ s ++ b) = s := by
  have hfront : (a ++ s ++ b).dropWhile p = s ++ b := by
    rw [List.append_assoc, List.dropWhile_append_of_pos ha]
    refine dropWhile_of_head? fun x hx => hs.1 x ?_
    rwa [List.head?_append_of_ne_nil _ hne] at hx
  rw [trim, hfront, List.rdropWhile, List.reverse_append,
    List.dropWhile_append_of_pos (by simpa using hb)]
  exact rdropWhile_of_getLast? hs.2

theorem trim_of_bare {s : List α} (hs : Bare p s) : trim p s = s := by
  rw [trim, dropWhile_of_head? hs.1, rdropWhile_of_getLast? hs.2]

theorem rdropWhile_append_of_forall {t : List α} (h : ∀ x ∈ t, p x = true) (s : List α) :
    (s ++ t).rdropWhile p = s.rdropWhile p := by
  rw [List.rdropWhile, List.reverse_append, List.dropWhile_append_of_pos (by simpa using h)]
  rfl

/-- What is trimmed anyway makes no difference at the end. -/
theorem trim_append_of_forall {t : List α} (h : ∀ x ∈ t, p x = true) (s : List α) :
    trim p (s ++ t) = trim p s := by
  by_cases hs : ∀ x ∈ s, p x = true
  · have hall : ∀ x ∈ s ++ t, p x = true := List.forall_mem_append.mpr ⟨hs, h⟩
    rw [trim, trim, List.dropWhile_eq_nil_iff.mpr hall, List.dropWhile_eq_nil_iff.mpr hs]
  · have hne : s.dropWhile p ≠ [] := fun hnil => hs (List.dropWhile_eq_nil_iff.mp hnil)
    rw [trim, List.dropWhile_append, if_neg (by simpa using hne), rdropWhile_append_of_forall h]
    rfl

theorem bare_trim (p : α → Bool) (s : List α) : Bare p (trim p s) := by
  constructor
  · intro x hx
    obtain ⟨t, ht⟩ : trim p s <+: s.dropWhile p := List.rdropWhile_prefix _ _
    have hhead : (s.dropWhile p).head? = some x := ht ▸ List.mem_head?_append_of_mem_head? hx
    have hnot := List.head?_dropWhile_not p s
    rwa [hhead] at hnot
  · intro x hx
    obtain ⟨hne, rfl⟩ := List.mem_getLast?_eq_getLast hx
    exact eq_false_of_ne_true (List.rdropWhile_last_not p (s.dropWhile p) hne)

theorem trim_trim (s : List α) : trim p (trim p s) = trim p s := trim_of_bare (bare_trim p s)

theorem mem_of_mem_trim {s : List α} {x : α} (h : x ∈ trim p s) : x ∈ s :=
  (List.dropWhile_sublist _).subset ((List.rdropWhile_prefix _ _).subset h)

/-- A list around what is left of it. -/
theorem exists_append_trim (p : α → Bool) (s : List α) :
    ∃ a b, s = a ++ trim p s ++ b ∧ (∀ x ∈ a, p x = true) ∧ ∀ x ∈ b, p x = true := by
  refine ⟨s.takeWhile p, ((s.dropWhile p).reverse.takeWhile p).reverse, ?_, ?_, ?_⟩
  · have hback : trim p s ++ ((s.dropWhile p).reverse.takeWhile p).reverse = s.dropWhile p := by
      rw [trim, List.rdropWhile, ← List.reverse_append, List.takeWhile_append_dropWhile,
        List.reverse_reverse]
    rw [List.append_assoc, hback, List.takeWhile_append_dropWhile]
  · exact fun x hx => List.mem_takeWhile_imp hx
  · exact fun x hx => List.mem_takeWhile_imp (List.mem_reverse.mp hx)

theorem mem_dropWhile {s : List α} {x : α} (hx : x ∈ s) (hp : p x = false) : x ∈ s.dropWhile p := by
  rw [← List.takeWhile_append_dropWhile (p := p) (l := s)] at hx
  obtain hx | hx := List.mem_append.mp hx
  · exact absurd (List.mem_takeWhile_imp hx) (by simp [hp])
  · exact hx

theorem mem_rdropWhile {s : List α} {x : α} (hx : x ∈ s) (hp : p x = false) :
    x ∈ s.rdropWhile p :=
  List.mem_reverse.mpr (mem_dropWhile (List.mem_reverse.mpr hx) hp)

/-- What would not be trimmed stays. -/
theorem mem_trim {s : List α} {x : α} (hx : x ∈ s) (hp : p x = false) : x ∈ trim p s :=
  mem_rdropWhile (mem_dropWhile hx hp) hp

/-- What stands before the first `c`. -/
theorem takeWhile_append_of_head? [DecidableEq α] {c : α} {s t : List α} (hs : c ∉ s)
    (ht : t = [] ∨ t.head? = some c) : (s ++ t).takeWhile (· ≠ c) = s := by
  rw [List.takeWhile_append_of_pos fun x hx => by simpa using fun heq : x = c => hs (heq ▸ hx)]
  obtain rfl | ht := ht
  · simp
  · cases t with
    | nil => cases ht
    | cons x rest =>
      obtain rfl := Option.some.inj ht
      simp

end Trimming
