import Mathlib.Data.Char
import Mathlib.Data.List.Basic

/-! Text as code units.

A character outside the basic plane is two units, a high and a low surrogate. Going over a string
by characters takes such a pair together and any other surrogate by itself, so what was encoded is
taken apart as it was put together (`codePoints_utf16`). -/
namespace AgentSync.Utf16

def isHigh (u : UInt16) : Bool := 0xD800 ≤ u && u ≤ 0xDBFF

def isLow (u : UInt16) : Bool := 0xDC00 ≤ u && u ≤ 0xDFFF

def utf16Char (c : Char) : List UInt16 :=
  if c.toNat < 0x10000 then [UInt16.ofNat c.toNat]
  else [UInt16.ofNat (0xD800 + (c.toNat - 0x10000) / 0x400),
    UInt16.ofNat (0xDC00 + (c.toNat - 0x10000) % 0x400)]

def utf16 (s : List Char) : List UInt16 := s.flatMap utf16Char

/-- The characters of a string, each with its units. -/
def codePoints : List UInt16 → List (List UInt16)
  | [] => []
  | [u] => [[u]]
  | u :: v :: rest =>
    if isHigh u && isLow v then [u, v] :: codePoints rest else [u] :: codePoints (v :: rest)

/-- The character of its units; a surrogate alone is replaced. -/
def scalar : List UInt16 → Char
  | [u, v] => Char.ofNat (0x10000 + (u.toNat - 0xD800) * 0x400 + (v.toNat - 0xDC00))
  | [u] => if isHigh u || isLow u then '\uFFFD' else Char.ofNat u.toNat
  | _ => '\uFFFD'

/-- What a string is when it becomes text again. -/
def scalarValues (s : List UInt16) : List Char := (codePoints s).map scalar

theorem utf16_append (s t : List Char) : utf16 (s ++ t) = utf16 s ++ utf16 t := List.flatMap_append

theorem utf16_cons (c : Char) (s : List Char) : utf16 (c :: s) = utf16Char c ++ utf16 s := rfl

theorem codePoints_cons {u : UInt16} (hu : isHigh u = false) (rest : List UInt16) :
    codePoints (u :: rest) = [u] :: codePoints rest := by
  cases rest with
  | nil => rfl
  | cons v rest => simp [codePoints, hu]

theorem codePoints_pair {u v : UInt16} (hu : isHigh u = true) (hv : isLow v = true)
    (rest : List UInt16) : codePoints (u :: v :: rest) = [u, v] :: codePoints rest := by
  simp [codePoints, hu, hv]

theorem toNat_valid (c : Char) : c.toNat < 0xD800 ∨ 0xDFFF < c.toNat ∧ c.toNat < 0x110000 := by
  have h := c.valid
  simp only [UInt32.isValidChar, Nat.isValidChar] at h
  exact h

/-- A character of the basic plane is no surrogate. -/
theorem not_surrogate {c : Char} (hc : c.toNat < 0x10000) :
    isHigh (UInt16.ofNat c.toNat) = false ∧ isLow (UInt16.ofNat c.toNat) = false := by
  have hvalid := toNat_valid c
  simp only [isHigh, isLow, UInt16.le_iff_toNat_le, Bool.and_eq_false_iff, decide_eq_false_iff_not,
    UInt16.toNat_ofNat', UInt16.reduceToNat]
  omega

theorem surrogates {c : Char} (hc : ¬ c.toNat < 0x10000) :
    isHigh (UInt16.ofNat (0xD800 + (c.toNat - 0x10000) / 0x400)) = true ∧
      isLow (UInt16.ofNat (0xDC00 + (c.toNat - 0x10000) % 0x400)) = true := by
  have hvalid := toNat_valid c
  simp only [isHigh, isLow, UInt16.le_iff_toNat_le, Bool.and_eq_true, decide_eq_true_eq,
    UInt16.toNat_ofNat', UInt16.reduceToNat]
  omega

/-- A unit that is no surrogate is a character. -/
theorem mem_codePoints {s : List UInt16} {u : UInt16} (hu : isHigh u = false ∧ isLow u = false)
    (h : u ∈ s) : [u] ∈ codePoints s := by
  fun_induction codePoints s with
  | case1 => cases h
  | case2 v => rw [List.mem_singleton.mp h]; exact List.mem_cons_self
  | case3 v w rest hpair ih =>
    rw [Bool.and_eq_true] at hpair
    obtain rfl | h := List.mem_cons.mp h
    · rw [hu.1] at hpair
      exact absurd hpair.1 Bool.false_ne_true
    · obtain rfl | h := List.mem_cons.mp h
      · rw [hu.2] at hpair
        exact absurd hpair.2 Bool.false_ne_true
      · exact List.mem_cons_of_mem _ (ih h)
  | case4 v w rest hpair ih =>
    obtain rfl | h := List.mem_cons.mp h
    · exact List.mem_cons_self
    · exact List.mem_cons_of_mem _ (ih h)

theorem codePoints_append (c : Char) (rest : List UInt16) :
    codePoints (utf16Char c ++ rest) = utf16Char c :: codePoints rest := by
  unfold utf16Char
  split
  next hc => exact codePoints_cons (not_surrogate hc).1 rest
  next hc => exact codePoints_pair (surrogates hc).1 (surrogates hc).2 rest

/-- **Encoded text is taken apart by its characters.** -/
theorem codePoints_utf16 (s : List Char) : codePoints (utf16 s) = s.map utf16Char := by
  induction s with
  | nil => rfl
  | cons c s ih => rw [utf16_cons, codePoints_append, ih, List.map_cons]

theorem scalar_utf16Char (c : Char) : scalar (utf16Char c) = c := by
  unfold utf16Char
  split
  next hc =>
    obtain ⟨hhigh, hlow⟩ := not_surrogate hc
    rw [scalar, hhigh, hlow, Bool.or_self, if_neg Bool.false_ne_true, UInt16.toNat_ofNat',
      Nat.mod_eq_of_lt hc, Char.ofNat_toNat]
  next hc =>
    have hvalid := toNat_valid c
    rw [scalar, UInt16.toNat_ofNat', UInt16.toNat_ofNat']
    refine (congrArg Char.ofNat ?_).trans (Char.ofNat_toNat c)
    omega

/-- Text survives its code units. -/
theorem scalarValues_utf16 (s : List Char) : scalarValues (utf16 s) = s := by
  rw [scalarValues, codePoints_utf16, List.map_map]
  exact (List.map_congr_left fun c _ => scalar_utf16Char c).trans (List.map_id s)

/-- A unit below the surrogates stands for its own character. -/
theorem eq_of_mem_utf16Char {c : Char} {u : UInt16} (hu : u < 0xD800) (h : u ∈ utf16Char c) :
    c.toNat = u.toNat ∧ utf16Char c = [u] := by
  have hvalid := toNat_valid c
  unfold utf16Char at h ⊢
  split at h
  next hc =>
    obtain rfl := List.mem_singleton.mp h
    rw [if_pos hc, UInt16.toNat_ofNat', Nat.mod_eq_of_lt hc]
    exact ⟨rfl, rfl⟩
  next hc =>
    simp only [UInt16.lt_iff_toNat_lt, UInt16.reduceToNat] at hu
    simp only [List.mem_cons, List.not_mem_nil, or_false] at h
    obtain rfl | rfl := h
    · rw [UInt16.toNat_ofNat'] at hu
      omega
    · rw [UInt16.toNat_ofNat'] at hu
      omega

theorem exists_of_mem_utf16 {s : List Char} {u : UInt16} (hu : u < 0xD800) (h : u ∈ utf16 s) :
    ∃ c ∈ s, c.toNat = u.toNat := by
  obtain ⟨c, hc, h⟩ := List.mem_flatMap.mp h
  exact ⟨c, hc, (eq_of_mem_utf16Char hu h).1⟩

end AgentSync.Utf16
