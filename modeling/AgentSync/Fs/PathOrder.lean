import AgentSync.Fs.Binding

/-! The tree of paths.

`under` compares bytes where `ancestors` works on segments. On the paths that `normalize` leaves
alone they say the same thing, and `under` makes of them a tree: a partial order in which what is
above one path is a chain. -/
namespace AgentSync
namespace Path

variable {N : Nfc}

/-! ### On bytes -/

/-- `under` as it is computed, with `starts_with` and the byte behind the prefix. -/
def underBytes (dir child : Str) : Bool :=
  dir = [] || child = dir ||
    ((utf8 dir).isPrefixOf (utf8 child) && (utf8 child)[(utf8 dir).length]? == some 47)

/-- The prefix and the byte behind it cut the bytes in two. -/
theorem isPrefixOf_and_getElem?_iff {x y : Bytes} {b : UInt8} :
    (x.isPrefixOf y && y[x.length]? == some b) = true ↔ ∃ z, y = x ++ b :: z := by
  rw [Bool.and_eq_true, List.isPrefixOf_iff_prefix, beq_iff_eq]
  constructor
  · intro h
    obtain ⟨⟨tail, rfl⟩, hget⟩ := h
    rw [List.getElem?_append_right (Nat.le_refl _), Nat.sub_self] at hget
    cases tail with
    | nil => cases hget
    | cons c rest =>
      obtain rfl := Option.some.inj hget
      exact ⟨rest, rfl⟩
  · intro h
    obtain ⟨z, rfl⟩ := h
    exact ⟨List.prefix_append _ _, by simp⟩

/-- A slash in the bytes is a slash of the text, whatever characters stand around it. -/
theorem below_iff_utf8 {dir child : Str} :
    Below dir child ↔ ∃ z, utf8 child = utf8 dir ++ 47 :: z := by
  have hslash : String.utf8EncodeChar '/' = [47] := rfl
  constructor
  · intro h
    obtain ⟨t, rfl⟩ := h
    exact ⟨utf8 t, by rw [utf8_append, utf8_cons, hslash]; rfl⟩
  · intro h
    obtain ⟨z, hz⟩ := h
    obtain ⟨before, after, rfl, hbefore, -⟩ := utf8_eq_append_cons hslash hz
    exact ⟨after, by rw [utf8_inj hbefore]⟩

/-- **The bytes and the characters give the same answer**, on any two strings. -/
theorem underBytes_eq_under (dir child : Str) : underBytes dir child = under dir child := by
  by_cases hdir : dir = []
  · simp [underBytes, under, hdir]
  · rw [Bool.eq_iff_iff, under_iff hdir, below_iff_utf8, ← isPrefixOf_and_getElem?_iff]
    simp [underBytes, hdir]

/-- A character of two bytes ends where the other path goes on. -/
example : underBytes (txt "\u00e9") (txt "\u00e9/a") = true ∧
    underBytes (txt "\u00e9") (txt "\u00e9a/b") = false := by decide

/-! ### As an order -/

/-- A path that `normalize` leaves alone. -/
@[ext] structure VaultPath (N : Nfc) where
  path : Str
  normalized : Normalized N path

theorem underBytes_iff {p q : VaultPath N} :
    underBytes p.path q.path = true ↔ p = q ∨ Below p.path q.path := by
  rw [underBytes_eq_under, under_iff p.normalized.ne_nil, VaultPath.ext_iff, eq_comm]

instance : PartialOrder (VaultPath N) where
  le p q := underBytes p.path q.path = true
  le_refl p := underBytes_iff.mpr (.inl rfl)
  le_trans p q r hpq hqr := by
    obtain rfl | hpq := underBytes_iff.mp hpq
    · exact hqr
    · obtain rfl | hqr := underBytes_iff.mp hqr
      · exact underBytes_iff.mpr (.inr hpq)
      · exact underBytes_iff.mpr (.inr (hpq.trans hqr))
  le_antisymm p q hpq hqp := by
    obtain rfl | hpq := underBytes_iff.mp hpq
    · rfl
    · obtain rfl | hqp := underBytes_iff.mp hqp
      · rfl
      · exact absurd (hpq.length_lt.trans hqp.length_lt) (Nat.lt_irrefl _)

theorem VaultPath.le_def {p q : VaultPath N} : p ≤ q ↔ underBytes p.path q.path = true := Iff.rfl

theorem VaultPath.mk_le_mk {p q : Str} (hp : Normalized N p) (hq : Normalized N q) :
    VaultPath.mk p hp ≤ VaultPath.mk q hq ↔ underBytes p q = true := Iff.rfl

theorem VaultPath.lt_iff {p q : VaultPath N} : p < q ↔ Below p.path q.path := by
  rw [lt_iff_le_and_ne, VaultPath.le_def, underBytes_iff]
  constructor
  · intro h
    exact h.1.resolve_left h.2
  · intro h
    exact ⟨.inr h, fun heq => h.ne (congrArg VaultPath.path heq)⟩

theorem VaultPath.le_iff_mem_ancestors {p q : VaultPath N} :
    p ≤ q ↔ p = q ∨ p.path ∈ ancestors q.path := by
  rw [VaultPath.le_def, underBytes_iff, q.normalized.mem_ancestors]

/-- What is above one path is a chain. -/
theorem VaultPath.le_or_le {p q r : VaultPath N} (hp : p ≤ r) (hq : q ≤ r) : p ≤ q ∨ q ≤ p := by
  obtain rfl | hp := hp.eq_or_lt
  · exact .inr hq
  · obtain rfl | hq := hq.eq_or_lt
    · exact .inl hp.le
    · obtain heq | hpq | hqp :=
        (VaultPath.lt_iff.mp hp).comparable (VaultPath.lt_iff.mp hq)
      · exact .inl (VaultPath.ext heq).le
      · exact .inl (VaultPath.lt_iff.mpr hpq).le
      · exact .inr (VaultPath.lt_iff.mpr hqp).le

/-! ### What `normalize` gives -/

/-- A path with nothing in it that a file system would take for more than names. -/
structure Clean (q : Str) : Prop where
  ne_nil : q ≠ []
  relative : q.head? ≠ some '/'
  backslash : '\\' ∉ q
  nul : '\x00' ∉ q
  segments : ∀ seg ∈ q.splitOn '/', seg ≠ [] ∧ seg ≠ ['.'] ∧ seg ≠ ['.', '.']

theorem Normalized.notMem {q : Str} {c : Char} (h : Normalized N q) (hslash : c ≠ '/')
    (hseg : ∀ seg, Segment N seg → c ∉ seg) : c ∉ q := by
  obtain ⟨segs, -, hsegs, rfl⟩ := normalized_iff.mp h
  intro hc
  obtain heq | ⟨seg, hmem, hc⟩ := mem_joinSlash hc
  · exact hslash heq
  · exact hseg seg (hsegs seg hmem) hc

theorem Normalized.clean {q : Str} (h : Normalized N q) : Clean q where
  ne_nil := h.ne_nil
  relative := by
    rw [← joinSlash_splitOn q]
    exact head?_joinSlash h.segments
  backslash := h.notMem (by decide) fun _ hseg => hseg.backslash
  nul := h.notMem (by decide) fun _ hseg => hseg.nul
  segments seg hseg :=
    ⟨(h.segments seg hseg).ne_nil, (h.segments seg hseg).ne_dot, (h.segments seg hseg).ne_dotdot⟩

/-- **The algebra of paths.** What `normalize` accepts is clean and accepted again unchanged. On
such paths `under` is the order that `ancestors` lists: reflexive, antisymmetric and transitive,
with the ancestors of a path the strictly increasing chain of its prefixes before a slash. -/
theorem path_algebra (N : Nfc) :
    (∀ s q, normalize N s = .ok q → Clean q ∧ normalize N q = .ok q) ∧
    (∀ p q, Normalized N p → Normalized N q →
      (underBytes p q = true ↔ p = q ∨ p ∈ ancestors q)) ∧
    (∀ q, Normalized N q →
      (∀ a ∈ ancestors q, Normalized N a) ∧
      (ancestors q).Pairwise (fun a b => underBytes a b = true ∧ a ≠ b) ∧
      ∀ a, a ∈ ancestors q ↔ ∃ rest, q = a ++ '/' :: rest) ∧
    (∀ p, Normalized N p → underBytes p p = true) ∧
    (∀ p q, Normalized N p → Normalized N q →
      underBytes p q = true → underBytes q p = true → p = q) ∧
    (∀ p q r, Normalized N p → Normalized N q → Normalized N r →
      underBytes p q = true → underBytes q r = true → underBytes p r = true) ∧
    ∀ p q r, Normalized N p → Normalized N q → Normalized N r →
      underBytes p r = true → underBytes q r = true →
      underBytes p q = true ∨ underBytes q p = true := by
  refine ⟨?_, ?_, ?_, ?_, ?_, ?_, ?_⟩
  · intro s q h
    have hq := normalized_of_normalize h
    exact ⟨hq.clean, hq⟩
  · intro p q hp hq
    have h := VaultPath.le_iff_mem_ancestors (p := ⟨p, hp⟩) (q := ⟨q, hq⟩)
    rwa [VaultPath.le_def, VaultPath.mk.injEq] at h
  · intro q hq
    refine ⟨hq.ancestors, ?_, fun a => hq.mem_ancestors⟩
    refine hq.pairwise_ancestors.imp_of_mem fun {a b} ha _ hab => ⟨?_, hab.ne⟩
    rw [underBytes_eq_under, under_iff (hq.ancestors a ha).ne_nil]
    exact .inr hab
  · intro p hp
    exact (VaultPath.mk_le_mk hp hp).mp (le_refl _)
  · intro p q hp hq hpq hqp
    rw [← VaultPath.mk_le_mk hp hq] at hpq
    rw [← VaultPath.mk_le_mk hq hp] at hqp
    exact congrArg VaultPath.path (le_antisymm hpq hqp)
  · intro p q r hp hq hr hpq hqr
    rw [← VaultPath.mk_le_mk hp hq] at hpq
    rw [← VaultPath.mk_le_mk hq hr] at hqr
    exact (VaultPath.mk_le_mk hp hr).mp (le_trans hpq hqr)
  · intro p q r hp hq hr hpr hqr
    rw [← VaultPath.mk_le_mk hp hr] at hpr
    rw [← VaultPath.mk_le_mk hq hr] at hqr
    exact VaultPath.le_or_le hpr hqr

/-- Text that is composed already. -/
def composedNfc : Nfc where
  nfc s := s
  idem _ := rfl
  slash _ _ := rfl
  count _ _ _ := rfl

theorem path_algebra_composed :
    Clean (txt "a/\u00e9") ∧
    (underBytes (txt "a") (txt "a/\u00e9") = true ↔
      txt "a" = txt "a/\u00e9" ∨ txt "a" ∈ ancestors (txt "a/\u00e9")) ∧
    (ancestors (txt "a/\u00e9/b")).Pairwise (fun a b => underBytes a b = true ∧ a ≠ b) ∧
    underBytes (txt "\u00e9") (txt "\u00e9") = true ∧
    txt "a" = txt "a" ∧
    underBytes (txt "a") (txt "a/\u00e9/b") = true ∧
    (underBytes (txt "a") (txt "a/\u00e9") = true ∨ underBytes (txt "a/\u00e9") (txt "a") = true) := by
  obtain ⟨hclean, hunder, hancestors, hrefl, hantisymm, htrans, hchain⟩ := path_algebra composedNfc
  have ha : Normalized composedNfc (txt "a") := rfl
  have he : Normalized composedNfc (txt "a/\u00e9") := rfl
  have hb : Normalized composedNfc (txt "a/\u00e9/b") := rfl
  exact ⟨(hclean (txt "./a\\\u00e9") _ rfl).1, hunder _ _ ha he, (hancestors _ hb).2.1,
    hrefl _ rfl, hantisymm _ _ ha ha (by decide) (by decide),
    htrans _ _ _ ha he hb (by decide) (by decide),
    hchain _ _ _ ha he hb (by decide) (by decide)⟩

end Path

end AgentSync
