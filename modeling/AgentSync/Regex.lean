import AgentSync.Wildcards

/-! Regular expressions of ECMAScript, as far as anchors, sets and stars.

A pattern is read one code unit after the other (`parse`); what is read is a pattern of the
language, and what there is besides (groups, alternatives, other quantifiers, ranges, flags) is
refused. The matcher is the backtracking one of the language. Between two anchors it finds a match
where the string splits into one part for each term (`test_anchored`). -/
namespace Regex

open Wildcards

def ch (c : Char) : UInt16 := UInt16.ofNat c.toNat

def isLineTerminator (u : UInt16) : Bool :=
  u = 0x000A || u = 0x000D || u = 0x2028 || u = 0x2029

/-- What one code unit is matched by. -/
inductive CharSet where
  | one (u : UInt16)
  | dot
  /-- A class, and whether it begins with `^`. -/
  | members (negated : Bool) (us : List UInt16)
  deriving DecidableEq, Repr

def CharSet.contains : CharSet → UInt16 → Bool
  | .one u, v => v = u
  | .dot, v => !isLineTerminator v
  | .members negated us, v => us.contains v != negated

inductive Term where
  /-- `^`. -/
  | start
  /-- `$`. -/
  | finish
  /-- A set, and whether a star follows it. -/
  | item (set : CharSet) (star : Bool)
  deriving DecidableEq, Repr

/-! ### Reading a pattern -/

/-- `SyntaxCharacter`. -/
def syntaxCharacters : List UInt16 :=
  ['^', '$', '\\', '.', '*', '+', '?', '(', ')', '[', ']', '{', '}', '|'].map ch

/-- What has been read of a term. -/
inductive Mode where
  | term
  /-- A set, which a star may follow. -/
  | atom (set : CharSet)
  | repeated
  | escape
  | bracket
  | members (negated : Bool) (us : List UInt16)
  deriving DecidableEq, Repr

/-- A term begins. -/
def begins (u : UInt16) : Option (List Term × Mode) :=
  if u = ch '^' then some ([.start], .term)
  else if u = ch '$' then some ([.finish], .term)
  else if u = ch '.' then some ([], .atom .dot)
  else if u = ch '\\' then some ([], .escape)
  else if u = ch '[' then some ([], .bracket)
  else if u ∈ syntaxCharacters then none
  else some ([], .atom (.one u))

/-- A class goes on. -/
def member (negated : Bool) (us : List UInt16) (u : UInt16) : Option (List Term × Mode) :=
  if u = ch ']' then some ([], .atom (.members negated us))
  else if u = ch '\\' ∨ u = ch '-' then none
  else some ([], .members negated (us ++ [u]))

/-- One code unit is read, and terms with it. -/
def next : Mode → UInt16 → Option (List Term × Mode)
  | .term, u => begins u
  | .atom set, u =>
    if u = ch '*' then some ([.item set true], .repeated)
    else (begins u).map fun x => (.item set false :: x.1, x.2)
  | .repeated, u => begins u
  | .escape, u => if u ∈ syntaxCharacters then some ([], .atom (.one u)) else none
  | .bracket, u => if u = ch '^' then some ([], .members true []) else member false [] u
  | .members negated us, u => member negated us u

/-- The pattern ends. -/
def closes : Mode → Option (List Term)
  | .term | .repeated => some []
  | .atom set => some [.item set false]
  | .escape | .bracket | .members _ _ => none

def parse : Mode → List UInt16 → Option (List Term)
  | m, [] => closes m
  | m, u :: rest => (next m u).bind fun x => (parse x.2 rest).map fun ts => x.1 ++ ts

/-! ### Matching -/

/-- As many units of the set as there are, and fewer if what follows wants them. -/
def repeatMatcher (set : CharSet) (c : Bool → List UInt16 → Bool) : Bool → List UInt16 → Bool
  | atStart, [] => c atStart []
  | atStart, u :: rest =>
    (set.contains u && repeatMatcher set c false rest) || c atStart (u :: rest)

/-- A match from here, of a string that begins here or before. -/
def matcher : List Term → Bool → List UInt16 → Bool
  | [], _, _ => true
  | .start :: ts, atStart, s => atStart && matcher ts atStart s
  | .finish :: ts, atStart, s => s.isEmpty && matcher ts atStart s
  | .item set true :: ts, atStart, s => repeatMatcher set (matcher ts) atStart s
  | .item set false :: ts, _, s =>
    match s with
    | [] => false
    | u :: rest => set.contains u && matcher ts false rest

/-- `RegExp.prototype.test`: a match from somewhere. -/
def test (ts : List Term) (s : List UInt16) : Bool :=
  (List.range (s.length + 1)).any fun i => matcher ts (i == 0) (s.drop i)

/-! ### Reading, term by term -/

variable {m m' : Mode} {ts ts' : List Term} {u : UInt16} {rest : List UInt16} {set : CharSet}

theorem parse_cons (h : next m u = some (ts, m')) :
    parse m (u :: rest) = (parse m' rest).map (ts ++ ·) := by
  rw [parse, h, Option.bind_some]

/-- Where a term may end, a term may begin. -/
theorem next_of_closes (hm : closes m = some ts) (hu : u ≠ ch '*') :
    next m u = (begins u).map fun x => (ts ++ x.1, x.2) := by
  cases m with
  | term | repeated =>
    obtain rfl := Option.some.inj hm
    exact (congrFun Option.map_id (begins u)).symm
  | atom set =>
    obtain rfl := Option.some.inj hm
    exact if_neg hu
  | escape | bracket | members => cases hm

theorem parse_cons_nil (h : next m u = some ([], m')) : parse m (u :: rest) = parse m' rest := by
  rw [parse_cons h]
  exact congrFun Option.map_id _

theorem parse_begins (hm : closes m = some ts) (hu : u ≠ ch '*') (hb : begins u = some (ts', m')) :
    parse m (u :: rest) = (parse m' rest).map (ts ++ ts' ++ ·) := by
  refine parse_cons ?_
  rw [next_of_closes hm hu, hb, Option.map_some]

theorem parse_star :
    parse (.atom set) (ch '*' :: rest) = (parse .repeated rest).map ([.item set true] ++ ·) :=
  parse_cons (by rw [next, if_pos rfl])

/-- What means nothing in a pattern stands for itself. -/
theorem begins_of_not_mem (hu : u ∉ syntaxCharacters) : begins u = some ([], .atom (.one u)) := by
  have hne {v : UInt16} (hv : v ∈ syntaxCharacters) : u ≠ v := fun h => hu (h ▸ hv)
  rw [begins, if_neg (hne (by decide)), if_neg (hne (by decide)), if_neg (hne (by decide)),
    if_neg (hne (by decide)), if_neg (hne (by decide)), if_neg hu]

/-- What means something stands for itself behind a backslash. -/
theorem parse_escape (hu : u ∈ syntaxCharacters) :
    parse .escape (u :: rest) = parse (.atom (.one u)) rest :=
  parse_cons_nil (by rw [next, if_pos hu])

/-! ### What is matched -/

/-- What a set takes, with a star or without. -/
def takes (k : CharSet × Bool) (x _ : List UInt16) : Prop :=
  if k.2 then ∀ u ∈ x, k.1.contains u = true else ∃ u, x = [u] ∧ k.1.contains u = true

theorem takes_star {x t : List UInt16} :
    takes (set, true) x t ↔ ∀ u ∈ x, set.contains u = true := Iff.rfl

theorem takes_one {x t : List UInt16} :
    takes (set, false) x t ↔ ∃ u, x = [u] ∧ set.contains u = true := Iff.rfl

theorem repeatMatcher_eq_true {c : Bool → List UInt16 → Bool} {atStart : Bool} {s : List UInt16} :
    repeatMatcher set c atStart s = true ↔
      ∃ x t, s = x ++ t ∧ (∀ u ∈ x, set.contains u = true) ∧ c (atStart && x.isEmpty) t = true := by
  induction s generalizing atStart with
  | nil =>
    rw [repeatMatcher]
    constructor
    · intro h
      exact ⟨[], [], rfl, List.forall_mem_nil _, by simpa using h⟩
    · intro h
      obtain ⟨x, t, hs, -, h⟩ := h
      obtain ⟨rfl, rfl⟩ := List.append_eq_nil_iff.mp hs.symm
      simpa using h
  | cons u rest ih =>
    rw [repeatMatcher, Bool.or_eq_true, Bool.and_eq_true, ih]
    constructor
    · intro h
      rcases h with ⟨hu, x, t, rfl, hx, h⟩ | h
      · exact ⟨u :: x, t, rfl, List.forall_mem_cons.mpr ⟨hu, hx⟩, by simpa using h⟩
      · exact ⟨[], u :: rest, rfl, List.forall_mem_nil _, by simpa using h⟩
    · intro h
      obtain ⟨x, t, hs, hx, h⟩ := h
      cases x with
      | nil =>
        obtain rfl := hs
        exact .inr (by simpa using h)
      | cons v x =>
        obtain ⟨rfl, rfl⟩ := List.cons.inj hs
        obtain ⟨hu, hx⟩ := List.forall_mem_cons.mp hx
        exact .inl ⟨hu, x, t, rfl, hx, by simpa using h⟩

def terms (ks : List (CharSet × Bool)) : List Term := ks.map fun k => .item k.1 k.2

/-- **Sets up to the end take the rest, one part each.** -/
theorem matcher_finish {ks : List (CharSet × Bool)} {atStart : Bool} {s : List UInt16} :
    matcher (terms ks ++ [.finish]) atStart s = true ↔ Fits takes (ks.map .wild) s := by
  induction ks generalizing atStart s with
  | nil => simp [terms, matcher, Fits]
  | cons k ks ih =>
    obtain ⟨set, star⟩ := k
    show matcher (.item set star :: (terms ks ++ [.finish])) atStart s = true ↔ _
    cases star with
    | true =>
      rw [matcher, repeatMatcher_eq_true]
      simp only [ih]
      rfl
    | false =>
      rw [matcher.eq_def]
      cases s with
      | nil =>
        refine iff_of_false (by simp) fun h => ?_
        obtain ⟨x, t, hs, ⟨u, hx, -⟩, -⟩ := h
        rw [hx] at hs
        cases hs
      | cons u rest =>
        dsimp only
        rw [Bool.and_eq_true, ih]
        constructor
        · intro h
          exact ⟨[u], rest, rfl, ⟨u, rfl, h.1⟩, h.2⟩
        · intro h
          obtain ⟨x, t, hs, ⟨v, rfl, hv⟩, hfits⟩ := h
          obtain ⟨rfl, rfl⟩ := List.cons.inj hs
          exact ⟨hv, hfits⟩

/-- **Between two anchors there is a match where the string splits.** -/
theorem test_anchored {ks : List (CharSet × Bool)} {s : List UInt16} :
    test (.start :: (terms ks ++ [.finish])) s = true ↔ Fits takes (ks.map .wild) s := by
  rw [test, List.any_eq_true]
  constructor
  · intro h
    obtain ⟨i, -, h⟩ := h
    rw [matcher, Bool.and_eq_true, matcher_finish, beq_iff_eq] at h
    obtain ⟨rfl, hfits⟩ := h
    exact hfits
  · intro h
    exact ⟨0, List.mem_range.mpr (Nat.succ_pos _), matcher_finish.mpr h⟩

end Regex
