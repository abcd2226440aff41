import AgentSync.Fs.Binding
import AgentSync.Net.Ssh

/-! The time to restore to.

`restore-at` takes a time in milliseconds, or a number and a unit, which is to be an offset back
from now. The number may have a sign, and a negative one leads forwards, or to no `i64` at all
(`parseTimestamp_backwards`). -/
namespace AgentSync

open Net (trim TextFormat)

/-! ### Numbers -/

/-- The values of an `i64`. -/
def IsI64 (n : Int) : Prop := -0x8000000000000000 ≤ n ∧ n < 0x8000000000000000

instance (n : Int) : Decidable (IsI64 n) := inferInstanceAs (Decidable (_ ∧ _))

/-- The value of decimal digits. -/
def decimal (digits : Str) : Nat := digits.foldl (fun n c => 10 * n + (c.toNat - '0'.toNat)) 0

/-- Whether there is a minus, and what is behind the sign. -/
def takeSign : Str → Bool × Str
  | '-' :: rest => (true, rest)
  | '+' :: rest => (false, rest)
  | s => (false, s)

/-- `parse::<i64>`. -/
def parseI64 (s : Str) : Option Int :=
  let (negative, digits) := takeSign s
  if digits = [] ∨ !digits.all Char.isDigit then none
  else
    let n : Int := if negative then -decimal digits else decimal digits
    if IsI64 n then some n else none

/-- A difference of two `i64`. -/
inductive Difference where
  | value (n : Int)
  /-- It is none: a build with checks panics, and another one wraps. -/
  | overflow
  deriving DecidableEq, Repr

def subtractI64 (a b : Int) : Difference := if IsI64 (a - b) then .value (a - b) else .overflow

/-! ### Timestamps -/

/-- The milliseconds of a unit. -/
def unitMs (unit : UInt8) : Option Int :=
  if unit = 115 then some 1000
  else if unit = 109 then some (60 * 1000)
  else if unit = 104 then some (60 * 60 * 1000)
  else if unit = 100 then some (24 * 60 * 60 * 1000)
  else if unit = 119 then some (7 * 24 * 60 * 60 * 1000)
  else none

/-- The number in front of the last byte, and the milliseconds of the unit that it is. -/
def relativeParts (s : Str) : Option (Int × Int) := do
  let bytes := utf8 s
  if bytes.length < 2 then none
  else
    let num ← parseI64 (← fromUtf8 bytes.dropLast)
    let unit ← unitMs (← bytes.getLast?)
    some (num, unit)

/-- `parse_relative_ms`. -/
def parseRelativeMs (s : Str) : Option Int := do
  let (num, unit) ← relativeParts s
  if IsI64 (num * unit) then some (num * unit) else none

/-- `parse_timestamp`. -/
def parseTimestamp (T : TextFormat) (s : Str) (now : Int) : Except Error Difference :=
  let s := trim s
  if s = [] then .error (.other (txt "empty timestamp"))
  else
    match parseI64 s with
    | some n => .ok (.value n)
    | none =>
      match parseRelativeMs s with
      | some offset => .ok (subtractI64 now offset)
      | none => .error (.other (txt "unrecognised timestamp " ++ T.debug s ++
          txt ": expected epoch ms (e.g. 1700000000000) or a relative offset like 5m / 2h / 1d / 1w"))

variable {s : Str} {n : Int} {unit : UInt8} {ms now num offset : Int}

theorem unitMs_pos (h : unitMs unit = some ms) : 0 < ms := by
  unfold unitMs at h
  split_ifs at h <;> obtain rfl := Option.some.inj h <;> omega

theorem isI64_of_parseI64 (h : parseI64 s = some n) : IsI64 n := by
  unfold parseI64 at h
  generalize takeSign s = signed at h
  obtain ⟨negative, digits⟩ := signed
  dsimp only at h
  by_cases hdigits : digits = [] ∨ (!digits.all Char.isDigit) = true
  · rw [if_pos hdigits] at h
    cases h
  · rw [if_neg hdigits] at h
    have hinside (m : Int) (hm : (if IsI64 m then some m else none) = some n) : IsI64 n := by
      split at hm
      next hfits => exact Option.some.inj hm ▸ hfits
      next => cases hm
    exact hinside _ h

theorem relativeParts_eq_some (h : relativeParts s = some (num, ms)) : IsI64 num ∧ 0 < ms := by
  unfold relativeParts at h
  dsimp only at h
  split at h
  next => cases h
  next =>
    obtain ⟨text, -, h⟩ := Option.bind_eq_some_iff.mp h
    obtain ⟨n, hn, h⟩ := Option.bind_eq_some_iff.mp h
    obtain ⟨unit, -, h⟩ := Option.bind_eq_some_iff.mp h
    obtain ⟨m, hm, h⟩ := Option.bind_eq_some_iff.mp h
    obtain ⟨rfl, rfl⟩ := Prod.mk.inj (Option.some.inj h)
    exact ⟨isI64_of_parseI64 hn, unitMs_pos hm⟩

theorem parseRelativeMs_eq_some : parseRelativeMs s = some offset ↔
    ∃ num ms, relativeParts s = some (num, ms) ∧ IsI64 (num * ms) ∧ offset = num * ms := by
  unfold parseRelativeMs
  cases h : relativeParts s with
  | none => simp
  | some x =>
    obtain ⟨num, ms⟩ := x
    by_cases hfits : IsI64 (num * ms)
    · simp [hfits, eq_comm]
    · simp [hfits]

/-- An offset is subtracted. -/
theorem subtractI64_backwards (hnow : 0 ≤ now) (hfits : IsI64 now) (hoffset : IsI64 offset) :
    (subtractI64 now offset ≠ .overflow ∧ ∀ t, subtractI64 now offset = .value t → t ≤ now) ↔
      0 ≤ offset := by
  obtain ⟨-, hbound⟩ := hfits
  obtain ⟨hleast, hgreatest⟩ := hoffset
  unfold subtractI64
  constructor
  · intro h
    obtain ⟨hvalue, hback⟩ := h
    split at hback
    next =>
      have h := hback _ rfl
      omega
    next hover => exact absurd (if_neg hover) hvalue
  · intro h
    have hdiff : IsI64 (now - offset) := by
      unfold IsI64
      omega
    rw [if_pos hdiff]
    refine ⟨by simp, fun t ht => ?_⟩
    obtain rfl := Difference.value.inj ht
    omega

/-- **When an offset leads backwards.** -/
theorem parseTimestamp_backwards (T : TextFormat) (s : Str) (now : Int) (hnow : 0 ≤ now)
    (hfits : IsI64 now) :
    (parseTimestamp T s now ≠ .ok .overflow ∧
      (parseI64 (trim s) = none → ∀ t, parseTimestamp T s now = .ok (.value t) → t ≤ now)) ↔
    (parseI64 (trim s) = none → ∀ num ms, relativeParts (trim s) = some (num, ms) →
      IsI64 (num * ms) → 0 ≤ num) := by
  unfold parseTimestamp
  by_cases hempty : trim s = []
  · rw [hempty]
    have hnone : relativeParts [] = none := rfl
    simp [hnone]
  rw [if_neg hempty]
  cases hplain : parseI64 (trim s) with
  | some n => simp
  | none =>
    cases hoffset : parseRelativeMs (trim s) with
    | none =>
      simp only [ne_eq, reduceCtorEq, not_false_eq_true, false_implies, implies_true, and_self,
        true_iff, forall_const]
      intro num ms hparts hprod
      have hsome := parseRelativeMs_eq_some.mpr ⟨num, ms, hparts, hprod, rfl⟩
      rw [hoffset] at hsome
      cases hsome
    | some offset =>
      obtain ⟨num, ms, hparts, hprod, rfl⟩ := parseRelativeMs_eq_some.mp hoffset
      have hms := (relativeParts_eq_some hparts).2
      simp only [ne_eq, Except.ok.injEq, forall_const]
      rw [← ne_eq, subtractI64_backwards hnow hfits hprod, Int.mul_nonneg_iff_of_pos_right hms]
      constructor
      · intro h num' ms' hparts' _
        obtain ⟨rfl, rfl⟩ := Prod.mk.inj (Option.some.inj (hparts.symm.trans hparts'))
        exact h
      · intro h
        exact h num ms hparts hprod

/-- Five minutes from now, and no `i64` at all. -/
theorem parseTimestamp_forwards :
    parseTimestamp Net.standardText (txt "-5m") 0 = .ok (.value 300000) ∧
      parseI64 (trim (txt "-5m")) = none ∧
      parseTimestamp Net.standardText (txt "-9223372036854775s") 1700000000000 = .ok .overflow := by
  decide +kernel

theorem parseTimestamp_backwards_weeks :
    parseTimestamp Net.standardText (txt " 2w\n") 1700000000000 ≠ .ok .overflow ∧
      ∀ t, parseTimestamp Net.standardText (txt " 2w\n") 1700000000000 = .ok (.value t) →
        t ≤ 1700000000000 := by
  have hplain : parseI64 (trim (txt " 2w\n")) = none := by decide
  have h := (parseTimestamp_backwards Net.standardText (txt " 2w\n") 1700000000000 (by decide)
    (by decide)).mpr fun _ num ms hparts _ => ?_
  · exact ⟨h.1, h.2 hplain⟩
  · have htwo : relativeParts (trim (txt " 2w\n")) = some (2, 604800000) := by decide +kernel
    obtain ⟨rfl, -⟩ := Prod.mk.inj (Option.some.inj (hparts.symm.trans htwo))
    decide

end AgentSync
