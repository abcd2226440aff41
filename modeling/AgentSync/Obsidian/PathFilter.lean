import Mathlib.Data.Bool.AllAny
import Mathlib.Data.Nat.Init
import AgentSync.Regex

/-! Ignore globs.

`globToRegex` writes a regular expression, character by character, and `RegExp` reads it back. A glob
has its own meaning: it is a row of pieces, and a path matches where it splits into one part for
each. What is written is always read (`parse_globToRegex`), and the terms that are read take what
the pieces of the glob do (`globToRegex_matches`). -/
namespace AgentSync.Obsidian.PathFilter

open Wildcards Regex

/-! ### Globs -/

inductive Wild where
  /-- `*`. -/
  | segment
  /-- `**`. -/
  | any
  /-- `?`. -/
  | single
  deriving DecidableEq, Repr

/-- The pieces of a glob, two stars before one; `*` is 42 and `?` is 63. -/
def pieces : List UInt16 → List (Piece UInt16 Wild)
  | [] => []
  | 42 :: 42 :: rest => .wild .any :: pieces rest
  | 42 :: rest => .wild .segment :: pieces rest
  | 63 :: rest => .wild .single :: pieces rest
  | c :: rest => .lit c :: pieces rest

/-- What a wildcard stands for. -/
def Wild.Takes : Wild → List UInt16 → List UInt16 → Prop
  | .segment, x, _ => ch '/' ∉ x
  | .any, _, _ => True
  | .single, x, _ => ∃ u, x = [u] ∧ u ≠ ch '/'

instance : ∀ k x t, Decidable (Wild.Takes k x t)
  | .segment, x, _ => inferInstanceAs (Decidable (ch '/' ∉ x))
  | .any, _, _ => .isTrue trivial
  | .single, [], _ => .isFalse fun h => by simp [Wild.Takes] at h
  | .single, [u], _ => decidable_of_iff (u ≠ ch '/') (by simp [Wild.Takes])
  | .single, _ :: _ :: _, _ => .isFalse fun h => by simp [Wild.Takes] at h

/-- The path is as the glob says. -/
def Matches (glob path : List UInt16) : Prop := Fits Wild.Takes (pieces glob) path

instance (glob path : List UInt16) : Decidable (Matches glob path) :=
  inferInstanceAs (Decidable (Fits _ _ _))

/-! ### The code -/

/-- What is escaped. -/
def escaped : List UInt16 := ['\\', '^', '$', '+', '.', '(', ')', '|', '{', '}', '[', ']'].map ch

/-- The loop of `globToRegex`. -/
def body : List UInt16 → List UInt16
  | [] => []
  | 42 :: 42 :: rest => [ch '.', ch '*'] ++ body rest
  | 42 :: rest => [ch '[', ch '^', ch '/', ch ']', ch '*'] ++ body rest
  | 63 :: rest => [ch '[', ch '^', ch '/', ch ']'] ++ body rest
  | c :: rest => (if c ∈ escaped then [ch '\\', c] else [c]) ++ body rest

/-- `globToRegex`; `RegExp` throws where there is none. -/
def globToRegex (glob : List UInt16) : Option (List Term) :=
  parse .term ([ch '^'] ++ body glob ++ [ch '$'])

/-- `matchesAnyGlob`. -/
def matchesAnyGlob (path : List UInt16) (globs : List (List UInt16)) : Option Bool :=
  match globs with
  | [] => some false
  | g :: rest =>
    if g = [] then matchesAnyGlob path rest
    else (globToRegex g).bind fun re => if test re path then some true else matchesAnyGlob path rest

/-! ### What is read -/

/-- The set that a piece becomes, and whether a star follows it. -/
def item : Piece UInt16 Wild → CharSet × Bool
  | .lit c => (.one c, false)
  | .wild .segment => (.members true [ch '/'], true)
  | .wild .any => (.dot, true)
  | .wild .single => (.members true [ch '/'], false)

/-- Every character that means something in a pattern is escaped. -/
theorem mem_syntaxCharacters {c : UInt16} :
    c ∈ syntaxCharacters ↔ c ∈ escaped ∨ c = 42 ∨ c = 63 := by
  have hstar : ch '*' = 42 := by decide
  have hquestion : ch '?' = 63 := by decide
  simp only [syntaxCharacters, escaped, List.map_cons, List.map_nil, List.mem_cons, hstar, hquestion]
  grind

/-- `[^/]`. -/
theorem parse_notSlash {rest : List UInt16} :
    parse .bracket (ch '^' :: ch '/' :: ch ']' :: rest) =
      parse (.atom (.members true [ch '/'])) rest := by
  have hnot : next .bracket (ch '^') = some ([], .members true []) := by decide
  have hslash : next (.members true []) (ch '/') = some ([], .members true [ch '/']) := by decide
  have hclose : next (.members true [ch '/']) (ch ']') =
      some ([], .atom (.members true [ch '/'])) := by decide
  rw [parse_cons_nil hnot, parse_cons_nil hslash, parse_cons_nil hclose]

theorem parse_body (glob : List UInt16) {m : Mode} {ts : List Term} (hm : closes m = some ts) :
    parse m (body glob ++ [ch '$']) = some (ts ++ terms ((pieces glob).map item) ++ [.finish]) := by
  induction glob using pieces.induct generalizing m ts with
  | case1 =>
    show parse m [ch '$'] = _
    rw [parse_begins hm (by decide) (by rfl)]
    simp [parse, closes, terms, pieces]
  | case2 rest ih =>
    show parse m (ch '.' :: ch '*' :: (body rest ++ [ch '$'])) = _
    rw [parse_begins hm (by decide) (by rfl), parse_star, ih rfl]
    simp [terms, pieces, item]
  | case3 rest h ih =>
    rw [body.eq_3 rest h, pieces.eq_3 rest h]
    show parse m (ch '[' :: ch '^' :: ch '/' :: ch ']' :: ch '*' :: (body rest ++ [ch '$'])) = _
    rw [parse_begins hm (by decide) (by rfl), parse_notSlash, parse_star, ih rfl]
    simp [terms, item]
  | case4 rest ih =>
    show parse m (ch '[' :: ch '^' :: ch '/' :: ch ']' :: (body rest ++ [ch '$'])) = _
    rw [parse_begins hm (by decide) (by rfl), parse_notSlash, ih rfl]
    simp [terms, pieces, item]
  | case5 c rest h₁ h₂ h₃ ih =>
    rw [body.eq_5 c rest h₁ h₂ h₃, pieces.eq_5 c rest h₁ h₂ h₃]
    split
    next hescaped =>
      show parse m (ch '\\' :: c :: (body rest ++ [ch '$'])) = _
      rw [parse_begins hm (by decide) (by rfl), parse_escape (mem_syntaxCharacters.mpr (.inl hescaped)),
        ih rfl]
      simp [terms, item]
    next hplain =>
      have hsyntax : c ∉ syntaxCharacters := by
        rw [mem_syntaxCharacters]
        exact fun h => h.elim hplain fun h => h.elim h₂ h₃
      show parse m (c :: (body rest ++ [ch '$'])) = _
      rw [parse_begins hm (fun hc => hsyntax (by rw [hc]; decide)) (begins_of_not_mem hsyntax), ih rfl]
      simp [terms, item]

/-- **What is written for a glob is always a regular expression.** -/
theorem parse_globToRegex (glob : List UInt16) :
    globToRegex glob = some (.start :: (terms ((pieces glob).map item) ++ [.finish])) := by
  have hstart : next .term (ch '^') = some ([.start], .term) := by decide
  show parse .term (ch '^' :: (body glob ++ [ch '$'])) = _
  rw [parse_cons hstart, parse_body glob rfl]
  rfl

/-! ### What is matched -/

theorem notSlash_contains {u : UInt16} :
    (CharSet.members true [ch '/']).contains u = true ↔ u ≠ ch '/' := by
  simp [CharSet.contains]

/-- The set of a piece takes what the piece does, where there are no line terminators. -/
theorem takes_item {k : Wild} {x t : List UInt16} (hx : ∀ u ∈ x, isLineTerminator u = false) :
    takes (item (.wild k)) x t ↔ k.Takes x t := by
  cases k with
  | segment =>
    rw [item, takes_star]
    simp only [notSlash_contains]
    exact ⟨fun h hin => h _ hin rfl, fun h u hu hslash => h (hslash ▸ hu)⟩
  | any =>
    rw [item, takes_star]
    exact iff_of_true (fun u hu => by rw [CharSet.contains, hx u hu]; rfl) trivial
  | single =>
    rw [item, takes_one]
    simp only [notSlash_contains]
    rfl

theorem fits_items {ps : List (Piece UInt16 Wild)} {path : List UInt16}
    (hpath : ∀ u ∈ path, isLineTerminator u = false) :
    Fits takes ((ps.map item).map .wild) path ↔ Fits Wild.Takes ps path := by
  induction ps generalizing path with
  | nil => rfl
  | cons p ps ih =>
    show (∃ x t, path = x ++ t ∧ takes (item p) x t ∧ Fits takes ((ps.map item).map .wild) t) ↔ _
    cases p with
    | lit c =>
      constructor
      · intro h
        obtain ⟨x, t, rfl, ⟨u, rfl, hu⟩, hfits⟩ := h
        obtain rfl : u = c := of_decide_eq_true hu
        exact ⟨t, rfl, (ih fun v hv => hpath v (.tail _ hv)).mp hfits⟩
      · intro h
        obtain ⟨t, rfl, hfits⟩ := h
        exact ⟨[c], t, rfl, ⟨c, rfl, decide_eq_true rfl⟩,
          (ih fun v hv => hpath v (.tail _ hv)).mpr hfits⟩
    | wild k =>
      refine exists_congr fun x => exists_congr fun t => and_congr_right fun hs => ?_
      rw [hs] at hpath
      obtain ⟨hx, ht⟩ := List.forall_mem_append.mp hpath
      exact and_congr (takes_item hx) (ih ht)

theorem test_pieces {glob path : List UInt16} (hpath : ∀ u ∈ path, isLineTerminator u = false) :
    test (.start :: (terms ((pieces glob).map item) ++ [.finish])) path = true ↔
      Matches glob path := by
  rw [test_anchored, fits_items hpath]
  rfl

/-! ### Stars -/

/-- A run of stars is read from the left, two at a time. -/
theorem pieces_stars (n : Nat) {rest : List UInt16} (h : rest.head? ≠ some 42) :
    pieces (List.replicate n 42 ++ rest) =
      List.replicate (n / 2) (.wild .any) ++ List.replicate (n % 2) (.wild .segment) ++
        pieces rest := by
  induction n using Nat.twoStepInduction with
  | zero => rfl
  | one => exact pieces.eq_3 rest fun rest' hrest => h (by rw [hrest]; rfl)
  | more n ih _ =>
    have hdiv : (n + 2) / 2 = n / 2 + 1 := Nat.add_div_right n (by decide)
    have hmod : (n + 2) % 2 = n % 2 := Nat.add_mod_right n 2
    show .wild .any :: pieces (List.replicate n 42 ++ rest) = _
    rw [ih, hdiv, hmod, List.replicate_succ]
    rfl

/-- **Globs mean what they say.** -/
theorem globToRegex_matches (glob : List UInt16) :
    (∃ re, globToRegex glob = some re ∧
      ∀ path, (∀ u ∈ path, isLineTerminator u = false) →
        (test re path = true ↔ Matches glob path)) ∧
      ∀ n rest, rest.head? ≠ some 42 → pieces (List.replicate n 42 ++ rest) =
        List.replicate (n / 2) (.wild .any) ++ List.replicate (n % 2) (.wild .segment) ++
          pieces rest :=
  ⟨⟨_, parse_globToRegex glob, fun _ hpath => test_pieces hpath⟩, fun n _ => pieces_stars n⟩

/-- `**/*.(m?` and a path below two directories. -/
theorem globToRegex_matches_path :
    ∃ re, globToRegex ("**/*.(m?".toList.map ch) = some re ∧
      test re ("a/b/c.(md".toList.map ch) = true := by
  obtain ⟨re, hre, htest⟩ := (globToRegex_matches ("**/*.(m?".toList.map ch)).1
  have hline : ∀ u ∈ "a/b/c.(md".toList.map ch, isLineTerminator u = false :=
    List.all_iff_forall_prop.mp (by decide)
  exact ⟨re, hre, (htest _ hline).mpr (by decide)⟩

/-- A path is ignored that a glob matches, and the empty glob is passed over. -/
theorem matchesAnyGlob_eq {path : List UInt16} (hpath : ∀ u ∈ path, isLineTerminator u = false)
    (globs : List (List UInt16)) :
    ∃ ignored, matchesAnyGlob path globs = some ignored ∧
      (ignored = true ↔ ∃ g ∈ globs, g ≠ [] ∧ Matches g path) := by
  induction globs with
  | nil => exact ⟨false, rfl, by simp⟩
  | cons g rest ih =>
    obtain ⟨ignored, hrest, hiff⟩ := ih
    simp only [List.mem_cons, exists_eq_or_imp]
    rw [matchesAnyGlob]
    split
    next hempty => exact ⟨ignored, hrest, by rw [hiff]; simp [hempty]⟩
    next hne =>
      rw [parse_globToRegex, Option.bind_some]
      split
      next hmatch => exact ⟨true, rfl, iff_of_true rfl (.inl ⟨hne, (test_pieces hpath).mp hmatch⟩)⟩
      next hmatch =>
        refine ⟨ignored, hrest, hiff.trans (or_iff_right fun h => ?_).symm⟩
        exact hmatch ((test_pieces hpath).mpr h.2)

end AgentSync.Obsidian.PathFilter
