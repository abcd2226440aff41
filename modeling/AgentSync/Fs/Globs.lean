import AgentSync.Fs.Paths
import AgentSync.Wildcards

/-! What `glob_match` matches.

The loop remembers one star only, and takes up again there when what follows does not fit. A star of
either kind takes slashes then, and a `**/` is only tried where something of the path is left:
`Star.Reaches` is what the stars take in the code, and `Star.Takes` what they should. -/
namespace AgentSync
open Wildcards

/-! ### Patterns -/

inductive Star where
  /-- `*`. -/
  | single
  /-- `**`. -/
  | double
  /-- `**` and the slash behind it. -/
  | deep
  deriving DecidableEq, Repr

/-- A pattern, star by star and byte by byte. -/
def pieces : Bytes → List (Piece UInt8 Star)
  | [] => []
  | 42 :: 42 :: 47 :: rest => .wild .deep :: pieces rest
  | 42 :: 42 :: rest => .wild .double :: pieces rest
  | 42 :: rest => .wild .single :: pieces rest
  | b :: rest => .lit b :: pieces rest

namespace Star

/-- Only two stars match across slashes. -/
def Takes : Star → Bytes → Bytes → Prop
  | .single, x, _ => 47 ∉ x
  | .double, _, _ => True
  | .deep, _, _ => True

/-- Every star does, but a `**/` not at the end of the path. -/
def Reaches : Star → Bytes → Bytes → Prop
  | .single, _, _ => True
  | .double, _, _ => True
  | .deep, x, t => x ++ t ≠ []

instance : ∀ k x t, Decidable (Takes k x t)
  | .single, x, _ => inferInstanceAs (Decidable (47 ∉ x))
  | .double, _, _ => .isTrue trivial
  | .deep, _, _ => .isTrue trivial

instance : ∀ k x t, Decidable (Reaches k x t)
  | .single, _, _ => .isTrue trivial
  | .double, _, _ => .isTrue trivial
  | .deep, x, t => inferInstanceAs (Decidable (x ++ t ≠ []))

theorem growing_reaches : Growing Reaches := by
  intro k x t z h
  cases k with
  | single => trivial
  | double => trivial
  | deep =>
    intro hnil
    rw [List.append_assoc] at hnil
    exact h (List.append_eq_nil_iff.mp hnil).2

theorem reaches_of_ne_nil {k : Star} {x t : Bytes} (h : x ++ t ≠ []) : Reaches k x t := by
  cases k with
  | single => trivial
  | double => trivial
  | deep => exact h

end Star

theorem pieces_cons {b : UInt8} {rest : Bytes} (h : b ≠ 42) :
    pieces (b :: rest) = .lit b :: pieces rest :=
  pieces.eq_5 b rest (fun _ hb => absurd hb h) (fun _ hb => absurd hb h) h

/-- Bytes other than stars stand for themselves. -/
theorem pieces_append {l rest : Bytes} (h : 42 ∉ l) :
    pieces (l ++ rest) = l.map .lit ++ pieces rest := by
  induction l with
  | nil => rfl
  | cons b l ih =>
    rw [List.mem_cons, not_or] at h
    rw [List.cons_append, pieces_cons (Ne.symm h.1), ih h.2]
    rfl

/-- The star at a place of the pattern, and where the pattern goes on. -/
theorem pieces_drop_star {pat : Bytes} {p : Nat} (h : pat[p]? = some 42) :
    ∃ k, pieces (pat.drop p) = .wild k :: pieces (pat.drop (skipStars pat p)) := by
  obtain ⟨hp, hget⟩ := List.getElem?_eq_some_iff.mp h
  have hdrop : pat.drop p = 42 :: pat.drop (p + 1) := by
    rw [List.drop_eq_getElem_cons hp, hget]
  rw [hdrop]
  by_cases h₁ : pat[p + 1]? = some 42
  · obtain ⟨hp₁, hget₁⟩ := List.getElem?_eq_some_iff.mp h₁
    have hdrop₁ : pat.drop (p + 1) = 42 :: pat.drop (p + 2) := by
      rw [List.drop_eq_getElem_cons hp₁, hget₁]
    rw [hdrop₁]
    by_cases h₂ : pat[p + 2]? = some 47
    · obtain ⟨hp₂, hget₂⟩ := List.getElem?_eq_some_iff.mp h₂
      have hdrop₂ : pat.drop (p + 2) = 47 :: pat.drop (p + 3) := by
        rw [List.drop_eq_getElem_cons hp₂, hget₂]
      refine ⟨.deep, ?_⟩
      rw [hdrop₂, skipStars, if_pos ⟨h, h₁⟩, if_pos h₂]
      rfl
    · refine ⟨.double, ?_⟩
      rw [skipStars, if_pos ⟨h, h₁⟩, if_neg h₂]
      refine pieces.eq_3 _ fun rest hrest => h₂ ?_
      rw [← List.head?_drop, hrest, List.head?_cons]
  · refine ⟨.single, ?_⟩
    have hhead : ∀ rest, pat.drop (p + 1) ≠ 42 :: rest := fun rest hrest => h₁ (by
      rw [← List.head?_drop, hrest, List.head?_cons])
    rw [skipStars, if_neg fun hstars => h₁ hstars.2]
    exact pieces.eq_4 _ (fun _ hrest => hhead _ hrest) (fun _ hrest => hhead _ hrest)

/-- At the end of the path only stars may be left. -/
theorem fits_pieces_nil {l : Bytes} :
    Fits Star.Reaches (pieces l) [] ↔ l.all (· = 42) = true := by
  induction l using pieces.induct with
  | case1 => simp [pieces, fits_nil]
  | case2 rest ih => simp [pieces, fits_wild_nil, Star.Reaches]
  | case3 rest hrest ih => simpa [pieces.eq_3 rest hrest, fits_wild_nil, Star.Reaches] using ih
  | case4 rest h₁ h₂ ih => simpa [pieces.eq_4 rest h₁ h₂, fits_wild_nil, Star.Reaches] using ih
  | case5 b rest h₁ h₂ hb ih => simp [pieces_cons hb, not_fits_lit_nil, show b ≠ 42 from hb]

/-! ### The loop, turn by turn -/

/-- Where the loop is, and the star it goes back to. -/
structure Scan where
  pi : Nat
  si : Nat
  starPi : Option Nat
  starSi : Nat
  deriving DecidableEq, Repr

namespace Scan

/-- One turn of the loop, or what it comes to. -/
def turn (pat s : Bytes) (c : Scan) : Scan ⊕ Bool :=
  if c.si < s.length then
    if pat[c.pi]? = some 42 then .inl ⟨skipStars pat c.pi, c.si, some c.pi, c.si⟩
    else if c.pi < pat.length ∧ pat[c.pi]? = s[c.si]? then
      .inl { c with pi := c.pi + 1, si := c.si + 1 }
    else
      match c.starPi with
      | some p => .inl ⟨skipStars pat p, c.starSi + 1, some p, c.starSi + 1⟩
      | none => .inr false
  else .inr ((pat.drop c.pi).all (· = 42))

/-- What the loop comes to in some number of turns, if it does. -/
def run (pat s : Bytes) : Nat → Scan → Option Bool
  | 0, _ => none
  | n + 1, c =>
    match c.turn pat s with
    | .inl c' => run pat s n c'
    | .inr b => some b

def start : Scan := ⟨0, 0, none, 0⟩

/-- The turns that are left at most. -/
def turnsLeft (pat s : Bytes) (c : Scan) : Nat :=
  (s.length - c.starSi) * (pat.length + 1) + (pat.length - c.pi)

/-- Since the star only bytes have been passed that stand for themselves. -/
structure Sound (pat s : Bytes) (c : Scan) : Prop where
  le : c.starSi ≤ c.si
  inside : c.si ≤ s.length
  since : ∀ p, c.starPi = some p → ∃ l, 42 ∉ l ∧
    pat.drop (skipStars pat p) = l ++ pat.drop c.pi ∧ s.drop c.starSi = l ++ s.drop c.si

/-- What is left of the path fits what is left of the pattern, or it will when the star takes more. -/
def Promises (pat s : Bytes) (c : Scan) : Prop :=
  Fits Star.Reaches (pieces (pat.drop c.pi)) (s.drop c.si) ∨
    ∃ p, c.starPi = some p ∧ ∃ i, c.starSi < i ∧ i ≤ s.length ∧
      Fits Star.Reaches (pieces (pat.drop (skipStars pat p))) (s.drop i)

variable {pat s : Bytes} {c c' : Scan} {b : Bool} {n : Nat}

/-- The loop of the source takes these turns. -/
theorem globLoop_succ_eq : globLoop pat s (n + 1) c.pi c.si c.starPi c.starSi =
    match c.turn pat s with
    | .inl c' => globLoop pat s n c'.pi c'.si c'.starPi c'.starSi
    | .inr b => b := by
  rw [globLoop.eq_def, turn]
  dsimp only
  split
  · split
    · rfl
    · split
      · rfl
      · cases c.starPi <;> rfl
  · rfl

theorem globLoop_of_run (h : run pat s n c = some b) :
    globLoop pat s n c.pi c.si c.starPi c.starSi = b := by
  induction n generalizing c with
  | zero => cases h
  | succ n ih =>
    rw [globLoop_succ_eq]
    rw [run] at h
    split at h
    next => exact ih h
    next => exact Option.some.inj h

/-- What a turn does: it passes a star, passes a byte, or goes back to the star. -/
theorem turn_eq_inl (h : c.turn pat s = .inl c') :
    (c.si < s.length ∧ pat[c.pi]? = some 42 ∧
      c' = ⟨skipStars pat c.pi, c.si, some c.pi, c.si⟩) ∨
    (∃ b, b ≠ 42 ∧ pat[c.pi]? = some b ∧ s[c.si]? = some b ∧
      c' = { c with pi := c.pi + 1, si := c.si + 1 }) ∨
    (∃ p, c.si < s.length ∧ pat[c.pi]? ≠ some 42 ∧ pat[c.pi]? ≠ s[c.si]? ∧ c.starPi = some p ∧
      c' = ⟨skipStars pat p, c.starSi + 1, some p, c.starSi + 1⟩) := by
  rw [turn] at h
  split at h
  next hsi =>
    split at h
    next hstar => exact .inl ⟨hsi, hstar, (Sum.inl.inj h).symm⟩
    next hstar =>
      split at h
      next hbyte =>
        have hb : pat[c.pi]? = some pat[c.pi] := List.getElem?_eq_getElem hbyte.1
        refine .inr (.inl ⟨pat[c.pi], fun h42 => hstar (h42 ▸ hb), hb, ?_, (Sum.inl.inj h).symm⟩)
        exact hbyte.2.symm.trans hb
      next hbyte =>
        split at h
        next p hp =>
          refine .inr (.inr ⟨p, hsi, hstar, fun heq => hbyte ⟨?_, heq⟩, hp, (Sum.inl.inj h).symm⟩)
          rw [List.getElem?_eq_getElem hsi] at heq
          exact (List.getElem?_eq_some_iff.mp heq).1
        next => cases h
  next => cases h

/-- The loop ends where the path does, or where nothing fits and no star is remembered. -/
theorem turn_eq_inr (h : c.turn pat s = .inr b) :
    (s.length ≤ c.si ∧ b = (pat.drop c.pi).all (· = 42)) ∨
    (c.si < s.length ∧ pat[c.pi]? ≠ some 42 ∧ pat[c.pi]? ≠ s[c.si]? ∧ c.starPi = none ∧
      b = false) := by
  rw [turn] at h
  split at h
  next hsi =>
    split at h
    next => cases h
    next hstar =>
      split at h
      next => cases h
      next hbyte =>
        split at h
        next => cases h
        next hp =>
          refine .inr ⟨hsi, hstar, fun heq => hbyte ⟨?_, heq⟩, hp, (Sum.inr.inj h).symm⟩
          rw [List.getElem?_eq_getElem hsi] at heq
          exact (List.getElem?_eq_some_iff.mp heq).1
  next hsi => exact .inl ⟨Nat.le_of_not_lt hsi, (Sum.inr.inj h).symm⟩

/-! ### What the loop keeps -/

/-- A byte that is no star and not that of the path fits nothing. -/
theorem not_fits_of_ne (hsi : c.si < s.length) (hstar : pat[c.pi]? ≠ some 42)
    (hbyte : pat[c.pi]? ≠ s[c.si]?) :
    ¬ Fits Star.Reaches (pieces (pat.drop c.pi)) (s.drop c.si) := by
  rw [List.drop_eq_getElem_cons hsi]
  cases hp : pat[c.pi]? with
  | none =>
    rw [List.drop_eq_nil_of_le (List.getElem?_eq_none_iff.mp hp)]
    exact fun h => List.cons_ne_nil _ _ h
  | some b =>
    obtain ⟨hlt, rfl⟩ := List.getElem?_eq_some_iff.mp hp
    rw [List.drop_eq_getElem_cons hlt, pieces_cons fun h42 => hstar (h42 ▸ hp), fits_lit_cons]
    exact fun h => hbyte (by rw [hp, List.getElem?_eq_getElem hsi, h.1])

/-- A star tried before the end of the path takes up to any place. -/
theorem fits_star_iff {k : Star} {ps : List (Piece UInt8 Star)} {si : Nat} (hsi : si < s.length) :
    Fits Star.Reaches (.wild k :: ps) (s.drop si) ↔
      ∃ i, si ≤ i ∧ i ≤ s.length ∧ Fits Star.Reaches ps (s.drop i) := by
  have hleft : s.drop si ≠ [] := fun h => by
    have := List.drop_eq_nil_iff.mp h
    omega
  constructor
  · intro ⟨x, t, hs, _, hfits⟩
    have hlen := congrArg List.length hs
    simp only [List.length_append, List.length_drop] at hlen
    refine ⟨si + x.length, by omega, by omega, ?_⟩
    rwa [← List.drop_drop, hs, List.drop_left]
  · intro ⟨i, hle, _, hfits⟩
    have hsplit : s.drop si = (s.drop si).take (i - si) ++ s.drop i := by
      have h := (List.take_append_drop (i - si) (s.drop si)).symm
      rwa [List.drop_drop, Nat.add_sub_cancel' hle] at h
    exact ⟨_, _, hsplit, Star.reaches_of_ne_nil (hsplit ▸ hleft), hfits⟩

/-- What follows the star begins with the bytes passed since: it fits where the star takes more
only when the rest of the pattern fits further on. -/
theorem Sound.fits_of_later (h : c.Sound pat s) {p i : Nat} (hp : c.starPi = some p)
    (hi : c.starSi < i) (hilen : i ≤ s.length)
    (hfits : Fits Star.Reaches (pieces (pat.drop (skipStars pat p))) (s.drop i)) :
    ∃ j, c.si < j ∧ j ≤ s.length ∧ Fits Star.Reaches (pieces (pat.drop c.pi)) (s.drop j) := by
  obtain ⟨l, hl, hpat, hs⟩ := h.since p hp
  rw [hpat, pieces_append hl, fits_lits] at hfits
  obtain ⟨t, ht, hfits⟩ := hfits
  have hlen := congrArg List.length hs
  have hlater := congrArg List.length ht
  have hle := h.le
  have hinside := h.inside
  simp only [List.length_append, List.length_drop] at hlen hlater
  refine ⟨i + l.length, by omega, by omega, ?_⟩
  rwa [← List.drop_drop, ht, List.drop_left]

/-- **What a turn passes is made up for**: it neither gains a fit nor loses one. -/
theorem Sound.turn (h : c.Sound pat s) (ht : c.turn pat s = .inl c') :
    c'.Sound pat s ∧ (c'.Promises pat s ↔ c.Promises pat s) ∧
      c'.turnsLeft pat s < c.turnsLeft pat s := by
  have hle := h.le
  obtain ⟨hsi, hstar, rfl⟩ | ⟨b, hb, hpat, hs, rfl⟩ | ⟨p, hsi, hstar, hbyte, hp, rfl⟩ :=
    turn_eq_inl ht
  · -- A star is passed: the one before it has nothing to give that this one has not.
    obtain ⟨k, hk⟩ := pieces_drop_star hstar
    refine ⟨⟨Nat.le_refl _, h.inside, ?_⟩, ?_, ?_⟩
    · intro p hp
      obtain rfl := Option.some.inj hp
      exact ⟨[], List.not_mem_nil, rfl, rfl⟩
    · have hfirst : c.Promises pat s ↔
          Fits Star.Reaches (pieces (pat.drop c.pi)) (s.drop c.si) := by
        refine ⟨fun hc => ?_, .inl⟩
        obtain hc | ⟨p, hp, i, hi, hilen, hc⟩ := hc
        · exact hc
        · obtain ⟨j, hj, -, hfits⟩ := h.fits_of_later hp hi hilen hc
          have hsplit := (List.take_append_drop (j - c.si) (s.drop c.si)).symm
          rw [List.drop_drop, Nat.add_sub_cancel' (Nat.le_of_lt hj)] at hsplit
          rw [hsplit, hk]
          exact (hk ▸ hfits).earlier Star.growing_reaches
      rw [hfirst, hk, fits_star_iff hsi]
      constructor
      · intro hc
        obtain hc | ⟨p, hp, i, hi, hilen, hc⟩ := hc
        · exact ⟨c.si, Nat.le_refl _, h.inside, hc⟩
        · obtain rfl := Option.some.inj hp
          exact ⟨i, Nat.le_of_lt hi, hilen, hc⟩
      · intro ⟨i, hi, hilen, hc⟩
        obtain heq | hlt := Nat.eq_or_lt_of_le hi
        · exact .inl (heq ▸ hc)
        · exact .inr ⟨c.pi, rfl, i, hlt, hilen, hc⟩
    · have hlt : c.pi < pat.length := (List.getElem?_eq_some_iff.mp hstar).1
      have hskip := lt_skipStars pat c.pi
      have hless : (s.length - c.si) * (pat.length + 1) ≤ (s.length - c.starSi) * (pat.length + 1) :=
        Nat.mul_le_mul_right _ (by omega)
      simp only [turnsLeft]
      omega
  · -- A byte is passed.
    obtain ⟨hpi, hpget⟩ := List.getElem?_eq_some_iff.mp hpat
    obtain ⟨hsi, hsget⟩ := List.getElem?_eq_some_iff.mp hs
    have hdrop : pat.drop c.pi = b :: pat.drop (c.pi + 1) := by
      rw [List.drop_eq_getElem_cons hpi, hpget]
    have hsdrop : s.drop c.si = b :: s.drop (c.si + 1) := by
      rw [List.drop_eq_getElem_cons hsi, hsget]
    refine ⟨⟨Nat.le_succ_of_le hle, hsi, ?_⟩, ?_, ?_⟩
    · intro p hp
      obtain ⟨l, hl, hlpat, hls⟩ := h.since p hp
      refine ⟨l ++ [b], ?_, ?_, ?_⟩
      · simp [hl, Ne.symm hb]
      · rw [hlpat, hdrop, List.append_assoc, List.singleton_append]
      · rw [hls, hsdrop, List.append_assoc, List.singleton_append]
    · simp only [Promises, hdrop, hsdrop, pieces_cons hb, fits_lit_cons, true_and]
    · simp only [turnsLeft]
      omega
  · -- Nothing fits, and the star takes one byte more.
    have hback : (s.length - c.starSi) * (pat.length + 1) =
        (s.length - (c.starSi + 1)) * (pat.length + 1) + (pat.length + 1) := by
      rw [← Nat.succ_mul]
      congr 1
      omega
    refine ⟨⟨Nat.le_refl _, by simp only []; omega, ?_⟩, ?_, ?_⟩
    · intro q hq
      obtain rfl := Option.some.inj hq
      exact ⟨[], List.not_mem_nil, rfl, rfl⟩
    · have hno := not_fits_of_ne hsi hstar hbyte
      constructor
      · intro hc
        obtain hc | ⟨q, hq, i, hi, hilen, hc⟩ := hc
        · exact .inr ⟨p, hp, c.starSi + 1, Nat.lt_succ_self _, by omega, hc⟩
        · obtain rfl := Option.some.inj hq
          exact .inr ⟨_, hp, i, Nat.lt_of_succ_lt hi, hilen, hc⟩
      · intro hc
        obtain hc | ⟨q, hq, i, hi, hilen, hc⟩ := hc
        · exact absurd hc hno
        · obtain rfl := Option.some.inj (hq.symm.trans hp)
          obtain heq | hlt := Nat.eq_or_lt_of_le (Nat.succ_le_of_lt hi)
          · subst heq
            exact .inl hc
          · exact .inr ⟨_, rfl, i, hlt, hilen, hc⟩
    · simp only [turnsLeft]
      omega

/-- What the loop comes to is what was left to come. -/
theorem Sound.result (h : c.Sound pat s) (ht : c.turn pat s = .inr b) :
    b = true ↔ c.Promises pat s := by
  obtain ⟨hsi, rfl⟩ | ⟨hsi, hstar, hbyte, hp, rfl⟩ := turn_eq_inr ht
  · rw [Promises, List.drop_eq_nil_of_le hsi, fits_pieces_nil]
    refine ⟨.inl, fun hc => ?_⟩
    obtain hc | ⟨p, hp, i, hi, hilen, hc⟩ := hc
    · exact hc
    · -- All that follows the star has been passed, to the end of the path.
      obtain ⟨j, hj, hjlen, -⟩ := h.fits_of_later hp hi hilen hc
      omega
  · simp only [Promises, hp, reduceCtorEq, false_and, exists_false, or_false, Bool.false_eq_true,
      false_iff]
    exact not_fits_of_ne hsi hstar hbyte

/-- **The loop ends**, and with what was left to come. -/
theorem Sound.run (h : c.Sound pat s) (hn : c.turnsLeft pat s < n) :
    ∃ b, run pat s n c = some b ∧ (b = true ↔ c.Promises pat s) := by
  induction n generalizing c with
  | zero => omega
  | succ n ih =>
    rw [Scan.run]
    cases ht : c.turn pat s with
    | inl c' =>
      obtain ⟨hsound, hpromises, hless⟩ := h.turn ht
      obtain ⟨b, hb, hiff⟩ := ih hsound (by omega)
      exact ⟨b, hb, hiff.trans hpromises⟩
    | inr b => exact ⟨b, rfl, h.result ht⟩

theorem sound_start : start.Sound pat s :=
  ⟨Nat.le_refl _, Nat.zero_le _, fun _ hp => nomatch hp⟩

end Scan

/-! ### What is matched -/

/-- The turns that `globMatch` is given are enough. -/
theorem globMatch_run (pattern path : Str) : ∃ n,
    Scan.run (utf8 pattern) (utf8 path) n .start = some (globMatch pattern path) ∧
      (globMatch pattern path = true ↔ Scan.start.Promises (utf8 pattern) (utf8 path)) := by
  have hturns : Scan.start.turnsLeft (utf8 pattern) (utf8 path) <
      ((utf8 path).length + 1) * ((utf8 pattern).length + 1) := by
    simp only [Scan.turnsLeft, Scan.start, Nat.sub_zero, Nat.succ_mul]
    omega
  obtain ⟨b, hrun, hb⟩ := Scan.sound_start.run hturns
  have hmatch : globMatch pattern path = b := Scan.globLoop_of_run hrun
  exact ⟨_, hmatch ▸ hrun, hmatch ▸ hb⟩

/-- **What the code matches.** -/
theorem globMatch_iff {pattern path : Str} :
    globMatch pattern path = true ↔ Fits Star.Reaches (pieces (utf8 pattern)) (utf8 path) := by
  obtain ⟨n, -, h⟩ := globMatch_run pattern path
  rw [h, Scan.Promises]
  simp [Scan.start]

/-- Every `**/` that only stars follow is come to with something of the path left. -/
def Roomy (ps : List (Piece UInt8 Star)) (s : Bytes) : Prop :=
  ∀ front tail, ps = front ++ .wild .deep :: tail → (∀ p ∈ tail, ∃ k, p = .wild k) →
    ∃ x t, s = x ++ t ∧ t ≠ [] ∧ Fits anything front x

section

variable {ps qs : List (Piece UInt8 Star)} {s : Bytes}

/-- Stars alone take whatever is left, when something is. -/
theorem fits_stars (hps : ∀ p ∈ ps, ∃ k, p = .wild k) (hne : ps ≠ []) (hs : s ≠ []) :
    Fits Star.Reaches ps s := by
  induction ps with
  | nil => exact absurd rfl hne
  | cons p ps ih =>
    obtain ⟨k, rfl⟩ := hps p List.mem_cons_self
    by_cases hlast : ps = []
    · subst hlast
      have hall : s ++ [] ≠ [] := by rwa [List.append_nil]
      exact ⟨s, [], (List.append_nil s).symm, Star.reaches_of_ne_nil hall, rfl⟩
    · have hrest := ih (fun q hq => hps q (List.mem_cons_of_mem _ hq)) hlast
      exact ⟨[], s, rfl, Star.reaches_of_ne_nil hs, hrest⟩

/-- Before a byte of the pattern every star has room. -/
theorem fits_append_of_lit {a : UInt8} {t : Bytes} (h : Fits anything (ps ++ [.lit a]) s)
    (ht : Fits Star.Reaches qs t) : Fits Star.Reaches (ps ++ [.lit a] ++ qs) (s ++ t) := by
  induction ps generalizing s with
  | nil =>
    obtain rfl := (fits_map_lit [a]).mp h
    exact ⟨t, rfl, ht⟩
  | cons p ps ih =>
    cases p with
    | lit b =>
      obtain ⟨u, rfl, h⟩ := h
      exact ⟨u ++ t, rfl, ih h⟩
    | wild k =>
      obtain ⟨w, u, rfl, -, h⟩ := h
      have hu : u ≠ [] := h.ne_nil (List.mem_append_right ps List.mem_cons_self)
      refine ⟨w, u ++ t, List.append_assoc w u t, Star.reaches_of_ne_nil ?_, ih h⟩
      simp [hu]

/-- A pattern up to its last byte, and the stars behind it. -/
theorem exists_trailing (ps : List (Piece UInt8 Star)) :
    ∃ front tail, ps = front ++ tail ∧ (∀ p ∈ tail, ∃ k, p = .wild k) ∧
      (front = [] ∨ ∃ ps' a, front = ps' ++ [.lit a]) := by
  induction ps using List.reverseRecOn with
  | nil => exact ⟨[], [], rfl, (fun _ hp => nomatch hp), .inl rfl⟩
  | append_singleton ps p ih =>
    cases p with
    | lit a => exact ⟨ps ++ [.lit a], [], by simp, (fun _ hp => nomatch hp), .inr ⟨ps, a, rfl⟩⟩
    | wild k =>
      obtain ⟨front, tail, rfl, htail, hfront⟩ := ih
      refine ⟨front, tail ++ [.wild k], List.append_assoc front tail _, fun p hp => ?_, hfront⟩
      obtain hp | hp := List.mem_append.mp hp
      · exact htail p hp
      · exact ⟨k, List.mem_singleton.mp hp⟩

/-- Stars of which none has a slash take everything. -/
theorem Fits.reaches_of_no_deep (h : Fits anything ps s) (hno : .wild .deep ∉ ps) :
    Fits Star.Reaches ps s := by
  induction ps generalizing s with
  | nil => exact h
  | cons p ps ih =>
    rw [List.mem_cons, not_or] at hno
    cases p with
    | lit a =>
      obtain ⟨t, rfl, h⟩ := h
      exact ⟨t, rfl, ih h hno.2⟩
    | wild k =>
      obtain ⟨x, t, rfl, -, h⟩ := h
      refine ⟨x, t, rfl, ?_, ih h hno.2⟩
      cases k with
      | single => trivial
      | double => trivial
      | deep => exact absurd rfl hno.1

/-- **What the code matches, star by star**: a star takes anything, but a `**/` at the end of the
pattern wants something to be left. -/
theorem fits_reaches_iff : Fits Star.Reaches ps s ↔ Fits anything ps s ∧ Roomy ps s := by
  constructor
  · intro h
    refine ⟨h.free, fun front tail hps _ => ?_⟩
    subst hps
    obtain ⟨x, t, hs, hx, y, u, ht, hleft, -⟩ := h.split
    exact ⟨x, t, hs, ht ▸ hleft, hx⟩
  · intro ⟨h, hroom⟩
    obtain ⟨front, tail, rfl, htail, hfront⟩ := exists_trailing ps
    have hsplit : ∃ x t, s = x ++ t ∧ Fits anything front x ∧ Fits Star.Reaches tail t := by
      by_cases hdeep : .wild .deep ∈ tail
      · obtain ⟨before, after, rfl⟩ := List.append_of_mem hdeep
        have hafter : ∀ p ∈ after, ∃ k, p = .wild k := fun p hp =>
          htail p (List.mem_append_right _ (List.mem_cons_of_mem _ hp))
        obtain ⟨x, t, rfl, ht, hx⟩ :=
          hroom (front ++ before) after (List.append_assoc ..).symm hafter
        obtain ⟨y, z, rfl, hy, -⟩ := hx.split
        refine ⟨y, z ++ t, List.append_assoc y z t, hy, fits_stars htail ?_ ?_⟩
        · simp
        · simp [ht]
      · obtain ⟨x, t, hs, hx, ht⟩ := h.split
        exact ⟨x, t, hs, hx, Fits.reaches_of_no_deep ht hdeep⟩
    obtain ⟨x, t, rfl, hx, ht⟩ := hsplit
    obtain rfl | ⟨ps', a, rfl⟩ := hfront
    · obtain rfl := fits_nil.mp hx
      exact ht
    · exact fits_append_of_lit hx ht

end

/-- **When the code matches what it should.** -/
theorem globMatch_language (pattern path : Str) :
    ((globMatch pattern path = true ↔ Fits Star.Takes (pieces (utf8 pattern)) (utf8 path)) ∧
      ∃ n, Scan.run (utf8 pattern) (utf8 path) n .start = some (globMatch pattern path)) ↔
    (Fits anything (pieces (utf8 pattern)) (utf8 path) →
      (Fits Star.Takes (pieces (utf8 pattern)) (utf8 path) ↔
        Roomy (pieces (utf8 pattern)) (utf8 path))) := by
  obtain ⟨n, hrun, -⟩ := globMatch_run pattern path
  have hends : ∃ n, Scan.run (utf8 pattern) (utf8 path) n .start =
    some (globMatch pattern path) := ⟨n, hrun⟩
  have hfree : Fits Star.Takes (pieces (utf8 pattern)) (utf8 path) →
    Fits anything (pieces (utf8 pattern)) (utf8 path) := fun h => h.free
  rw [and_iff_left hends, globMatch_iff, fits_reaches_iff]
  grind

/-- One star takes a slash. -/
theorem globMatch_slash :
    ¬ ((globMatch (txt "*.md") (txt "a/b.md") = true ↔
        Fits Star.Takes (pieces (utf8 (txt "*.md"))) (utf8 (txt "a/b.md"))) ∧
      ∃ n, Scan.run (utf8 (txt "*.md")) (utf8 (txt "a/b.md")) n .start =
        some (globMatch (txt "*.md") (txt "a/b.md"))) := by
  intro h
  have hno : ¬ Fits Star.Takes (pieces (utf8 (txt "*.md"))) (utf8 (txt "a/b.md")) := by
    decide +kernel
  exact hno (h.1.mp (by decide +kernel))

end AgentSync
