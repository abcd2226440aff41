import Mathlib.Data.List.TakeWhile
import AgentSync.Fs.Events
import AgentSync.Fs.Globs

/-! Options made of a list of extensions.

What is taken in is what a pattern for one of the extensions matches: anything that ends in a dot
and an extension, of a plain one. What is text has the extension as its own, in letters of either
case. The two part where the name spells the extension in capitals, or where it has
nothing before the dot. -/
namespace AgentSync
open Wildcards

/-! ### The name and its extension -/

/-- A path is a name behind the directories it is in. -/
theorem exists_name (path : Str) : ∃ front name, path = front ++ name ∧ '/' ∉ name ∧
    (path.splitOn '/').getLast? = some name ∧ (front = [] ∨ ∃ dirs, front = dirs ++ ['/']) := by
  obtain hnil | ⟨init, name, hsplit⟩ := List.eq_nil_or_concat' (path.splitOn '/')
  · exact absurd hnil (List.splitOn_ne_nil '/' path)
  have hmem : name ∈ path.splitOn '/' := by simp [hsplit]
  have hslash : '/' ∉ name := Path.notMem_of_mem_splitOn hmem
  have hlast : (path.splitOn '/').getLast? = some name := by rw [hsplit, List.getLast?_concat]
  have hpath := (Path.joinSlash_splitOn path).symm
  rw [hsplit] at hpath
  by_cases hinit : init = []
  · subst hinit
    exact ⟨[], name, by simpa [Path.joinSlash] using hpath, hslash, hlast, .inl rfl⟩
  · refine ⟨Path.joinSlash init ++ ['/'], name, ?_, hslash, hlast, .inr ⟨_, rfl⟩⟩
    rw [hpath, Path.joinSlash_concat hinit, List.append_assoc, List.singleton_append]

/-- A dot that no slash follows is in the name. -/
theorem dot_in_name {path name ext : Str} (hlast : (path.splitOn '/').getLast? = some name)
    (hext : '/' ∉ ext) :
    (∃ before, path = before ++ '.' :: ext) ↔ ∃ stem, name = stem ++ '.' :: ext := by
  obtain ⟨front, name', hpath, -, hlast', hfront⟩ := exists_name path
  obtain rfl := Option.some.inj (hlast.symm.trans hlast')
  constructor
  · intro ⟨before, h⟩
    rw [hpath] at h
    obtain ⟨a, -, ha⟩ | ⟨a, ha, hname⟩ := List.append_eq_append_iff.mp h
    · exact ⟨a, ha⟩
    · -- The dot is not in the directories: they end in a slash.
      cases a with
      | nil => exact ⟨[], hname.symm⟩
      | cons c a =>
        obtain ⟨rfl, hrest⟩ := List.cons.inj hname
        obtain rfl | ⟨dirs, rfl⟩ := hfront
        · exact absurd ha (by simp)
        · have hend := congrArg List.getLast? ha
          rw [List.getLast?_concat, List.getLast?_append_of_ne_nil _ (List.cons_ne_nil _ _)] at hend
          obtain heq | hin := List.mem_cons.mp (List.mem_of_getLast? hend.symm)
          · cases heq
          · exact absurd (hrest ▸ List.mem_append_left _ hin) hext
  · intro ⟨stem, h⟩
    exact ⟨front ++ stem, by rw [hpath, h, List.append_assoc]⟩

/-- The last dot of a name takes it apart in one way. -/
theorem append_dot_inj {a b s t : Str} (hs : '.' ∉ s) (ht : '.' ∉ t)
    (h : a ++ '.' :: s = b ++ '.' :: t) : a = b ∧ s = t := by
  obtain ⟨c, rfl, hc⟩ | ⟨c, rfl, hc⟩ := List.append_eq_append_iff.mp h
  · cases c with
    | nil => exact ⟨(List.append_nil a).symm, (List.cons.inj hc).2⟩
    | cons d c =>
      obtain ⟨-, rfl⟩ := List.cons.inj hc
      exact absurd (List.mem_append_right c List.mem_cons_self) hs
  · cases c with
    | nil => exact ⟨List.append_nil b, (List.cons.inj hc).2.symm⟩
    | cons d c =>
      obtain ⟨-, rfl⟩ := List.cons.inj hc
      exact absurd (List.mem_append_right c List.mem_cons_self) ht

/-- **The extension of a name** is behind its last dot, which is not its first character. -/
theorem extension_eq_some {N : Nfc} {path name ext : Str} (hp : Path.Normalized N path)
    (hlast : (path.splitOn '/').getLast? = some name) :
    extension path = some ext ↔ ∃ stem, stem ≠ [] ∧ '.' ∉ ext ∧ name = stem ++ '.' :: ext := by
  have hdots : name ≠ ['.', '.'] := (hp.segments name (List.mem_of_getLast? hlast)).ne_dotdot
  rw [extension, names_of_normalized hp, hlast]
  dsimp only
  rw [if_neg hdots]
  by_cases hdot : '.' ∈ name
  · obtain ⟨r, q, hrev, hr⟩ := List.eq_append_cons_of_mem (List.mem_reverse.mpr hdot)
    have hname : name = q.reverse ++ '.' :: r.reverse := by
      simpa using congrArg List.reverse hrev
    have hr' : '.' ∉ r.reverse := fun h => hr (List.mem_reverse.mp h)
    have hall : ∀ c ∈ r, (c != '.') = true := by
      intro c hc
      simp only [bne_iff_ne, ne_eq]
      rintro rfl
      exact hr hc
    have htake : name.reverse.takeWhile (· != '.') = r := by
      rw [hrev, List.takeWhile_append_of_pos hall]
      simp
    have hdrop : name.reverse.dropWhile (· != '.') = '.' :: q := by
      rw [hrev, List.dropWhile_append_of_pos hall]
      simp
    rw [htake, hdrop]
    cases q with
    | nil =>
      constructor
      · intro h
        cases h
      · intro ⟨stem, hstem, hext, h⟩
        exact absurd (append_dot_inj hext hr' (h.symm.trans hname)).1 hstem
    | cons c q =>
      constructor
      · intro h
        obtain rfl := Option.some.inj h
        exact ⟨_, by simp, hr', hname⟩
      · intro ⟨stem, _, hext, h⟩
        exact congrArg some (append_dot_inj hext hr' (h.symm.trans hname)).2.symm
  · have hdrop : name.reverse.dropWhile (· != '.') = [] := by
      rw [List.dropWhile_eq_nil_iff]
      intro c hc
      simp only [bne_iff_ne, ne_eq]
      rintro rfl
      exact hdot (List.mem_reverse.mp hc)
    rw [hdrop]
    constructor
    · intro h
      cases h
    · intro ⟨stem, _, _, h⟩
      exact absurd (h ▸ List.mem_append_right stem List.mem_cons_self) hdot

/-! ### The options -/

/-- What is left of an extension as it is given: no dots before it, and no capitals. -/
def listedExtension (s : Str) : Str := (s.dropWhile (· = '.')).map Char.toLower

/-- `**/*.<ext>`. -/
def includePattern (e : Str) : Str := txt "**/*." ++ e

/-- `BindOptions::for_extensions`, but for the patterns. -/
def BindOptions.forExtensions (exts : List Str) : BindOptions where
  textExtensions := exts.map listedExtension
  attachmentMaxBytes := 10 * 1024 * 1024
  textFileMaxBytes := 1 * 1024 * 1024

/-- A vault that is bound with the options for some extensions. -/
def Watching.forExtensions {σ : Type} (V : Watching σ) (exts : List Str) : Watching σ :=
  { V with
    includePatterns := (exts.map listedExtension).map includePattern
    opts := .forExtensions exts }

/-- Some extension of the list fits what is behind a dot of the path. -/
def Dotted (listed : List Str) (path : Str) : Prop :=
  ∃ e ∈ listed, ∃ before after, path = before ++ '.' :: after ∧
    Fits Star.Reaches (pieces (utf8 e)) (utf8 after)

/-- The name has an extension that is on the list, in letters of either case. -/
def HasListed (listed : List Str) (path : Str) : Prop :=
  ∃ ext, extension path = some ext ∧ ∃ e ∈ listed, eqIgnoreAsciiCase e ext = true

/-- An extension that is matched as it is, and within a name. -/
def Plain (e : Str) : Prop := '.' ∉ e ∧ '/' ∉ e ∧ '*' ∉ e

theorem globMatch_includePattern {e path : Str} :
    globMatch (includePattern e) path = true ↔ ∃ before after, path = before ++ '.' :: after ∧
      Fits Star.Reaches (pieces (utf8 e)) (utf8 after) := by
  have hpieces : pieces (utf8 (includePattern e)) =
      .wild .deep :: .wild .single :: .lit 46 :: pieces (utf8 e) := by
    rw [includePattern, utf8_append]
    rfl
  rw [globMatch_iff, hpieces]
  constructor
  · intro ⟨x, t, hpath, _, y, u, ht, _, z, hu, hfits⟩
    have hutf8 : utf8 path = (x ++ y) ++ 46 :: z := by rw [hpath, ht, hu, List.append_assoc]
    obtain ⟨before, after, hsplit, -, hafter⟩ := utf8_eq_append_cons (d := '.') rfl hutf8
    exact ⟨before, after, hsplit, hafter ▸ hfits⟩
  · intro ⟨before, after, hpath, hfits⟩
    have hutf8 : utf8 path = utf8 before ++ 46 :: utf8 after := by
      rw [hpath, utf8_append]
      rfl
    have hne : [] ++ utf8 path ≠ [] := by simp [hutf8]
    exact ⟨[], utf8 path, rfl, hne, utf8 before, _, hutf8, trivial, _, rfl, hfits⟩

/-- A plain extension fits itself only. -/
theorem Plain.fits {e after : Str} (h : Plain e) :
    Fits Star.Reaches (pieces (utf8 e)) (utf8 after) ↔ after = e := by
  have hstar : 42 ∉ utf8 e := fun hin => h.2.2 (mem_of_mem_utf8 rfl hin)
  have hpieces : pieces (utf8 e ++ []) = (utf8 e).map .lit ++ pieces [] := pieces_append hstar
  rw [List.append_nil, pieces, List.append_nil] at hpieces
  rw [hpieces, fits_map_lit]
  exact ⟨utf8_inj, congrArg utf8⟩

section

variable {σ : Type} {V : Watching σ} {exts : List Str} {s : SyncIgnoreSet} {path name : Str}

/-- What the code asks of the path, once nothing excludes it. -/
theorem pathAllowed_forExtensions (hexcluded : alwaysExcluded path = false)
    (hignored : s.matches path false = false) (hkeys : path ≠ authorizedKeysFile)
    (hignore : isSyncignorePath path = false) :
    (V.forExtensions exts).pathAllowed s path = true ↔
      exts = [] ∨ Dotted (exts.map listedExtension) path := by
  have hmatch : globMatchAny ((exts.map listedExtension).map includePattern) path = true ↔
      Dotted (exts.map listedExtension) path := by
    simp only [globMatchAny, List.any_map, List.any_eq_true, Function.comp_apply,
      globMatch_includePattern, Dotted,
      List.mem_map, exists_exists_and_eq_and]
  rw [← hmatch]
  simp only [Watching.pathAllowed, hexcluded, hkeys, hignore, hignored, Watching.forExtensions]
  cases exts with
  | nil => simp
  | cons e exts => simp

theorem isTextExtension_forExtensions (hkeys : path ≠ authorizedKeysFile)
    (hignore : isSyncignorePath path = false) :
    (BindOptions.forExtensions exts).isTextExtension path = true ↔
      HasListed (exts.map listedExtension) path ∨ (exts = [] ∧ extension path = none) := by
  simp only [BindOptions.isTextExtension, hkeys, hignore, HasListed]
  cases extension path with
  | none => simp [BindOptions.forExtensions]
  | some ext => simp [BindOptions.forExtensions]

theorem toLower_toLower (c : Char) : c.toLower.toLower = c.toLower := by
  delta Char.toLower
  split
  next h =>
    refine dif_neg fun h' => ?_
    simp only [UInt32.le_iff_toNat_le, UInt32.toNat_add, seval] at h h'
    omega
  next => rfl

/-- An extension without capitals. -/
theorem map_toLower_listedExtension (e : Str) :
    (listedExtension e).map Char.toLower = listedExtension e := by
  rw [listedExtension, List.map_map]
  exact List.map_congr_left fun c _ => toLower_toLower c

/-- The include filter and the text rule agree about a path. -/
def Agreeing (exts : List Str) (path : Str) : Prop :=
  if path = authorizedKeysFile ∨ isSyncignorePath path = true then True
  else if exts = [] then extension path = none
  else Dotted (exts.map listedExtension) path ↔ HasListed (exts.map listedExtension) path

/-- The name spells a listed extension without capitals, and has something before its dot. -/
def Spelled (listed : List Str) (path : Str) : Prop :=
  (∀ ext, extension path = some ext → (∃ e ∈ listed, eqIgnoreAsciiCase e ext = true) →
      ext.map Char.toLower = ext) ∧
    ∀ e ∈ listed, (path.splitOn '/').getLast? ≠ some ('.' :: e)

/-- Of plain extensions. -/
theorem dotted_iff_hasListed {N : Nfc} (hp : Path.Normalized N path)
    (hplain : ∀ e ∈ exts, Plain (listedExtension e)) :
    (Dotted (exts.map listedExtension) path ↔ HasListed (exts.map listedExtension) path) ↔
      Spelled (exts.map listedExtension) path := by
  obtain ⟨front, name, -, -, hlast, -⟩ := exists_name path
  have hlisted : ∀ e ∈ exts.map listedExtension, Plain e ∧ e.map Char.toLower = e := by
    intro e he
    obtain ⟨x, hx, rfl⟩ := List.mem_map.mp he
    exact ⟨hplain x hx, map_toLower_listedExtension x⟩
  have hdotted : Dotted (exts.map listedExtension) path ↔
      ∃ e ∈ exts.map listedExtension, ∃ stem, name = stem ++ '.' :: e := by
    refine exists_congr fun e => and_congr_right fun he => ?_
    rw [← dot_in_name hlast (hlisted e he).1.2.1]
    constructor
    · intro ⟨before, after, hpath, hfits⟩
      exact ⟨before, (hlisted e he).1.fits.mp hfits ▸ hpath⟩
    · intro ⟨before, hpath⟩
      exact ⟨before, e, hpath, (hlisted e he).1.fits.mpr rfl⟩
  rw [hdotted]
  constructor
  · intro h
    refine ⟨fun ext hext hin => ?_, fun e he hname => ?_⟩
    · obtain ⟨e, he, stem, hname⟩ := h.mpr ⟨ext, hext, hin⟩
      obtain ⟨stem', -, hdot, hname'⟩ := (extension_eq_some hp hlast).mp hext
      obtain rfl := (append_dot_inj (hlisted e he).1.1 hdot (hname.symm.trans hname')).2
      exact (hlisted e he).2
    · obtain rfl := Option.some.inj (hlast.symm.trans hname)
      obtain ⟨ext, hext, -⟩ := h.mp ⟨e, he, [], rfl⟩
      obtain ⟨stem, hstem, hdot, hname'⟩ := (extension_eq_some hp hlast).mp hext
      exact hstem (append_dot_inj (a := []) (hlisted e he).1.1 hdot hname').1.symm
  · intro ⟨hlower, hdotfile⟩
    constructor
    · intro ⟨e, he, stem, hname⟩
      refine ⟨e, (extension_eq_some hp hlast).mpr ⟨stem, ?_, (hlisted e he).1.1, hname⟩, e, he, ?_⟩
      · intro hstem
        subst hstem
        rw [hname] at hlast
        exact hdotfile e he hlast
      · simp [eqIgnoreAsciiCase]
    · intro ⟨ext, hext, e, he, heq⟩
      obtain ⟨stem, -, -, hname⟩ := (extension_eq_some hp hlast).mp hext
      have hsame : e = ext := by
        rw [← (hlisted e he).2, of_decide_eq_true heq]
        exact hlower ext hext ⟨e, he, heq⟩
      exact ⟨e, he, stem, hsame ▸ hname⟩

end

/-- **When the include filter and the text rule agree.** -/
theorem pathAllowed_eq_isTextExtension {σ : Type} (V : Watching σ) (exts : List Str)
    (s : SyncIgnoreSet) (path : Str) (hp : Path.Normalized V.crates.nfc path)
    (hexcluded : alwaysExcluded path = false) (hignored : s.matches path false = false) :
    ((V.forExtensions exts).pathAllowed s path = (V.forExtensions exts).opts.isTextExtension path ↔
      Agreeing exts path) ∧
    (exts ≠ [] → (∀ e ∈ exts, Plain (listedExtension e)) → path ≠ authorizedKeysFile →
      isSyncignorePath path = false →
      (Agreeing exts path ↔ Spelled (exts.map listedExtension) path)) := by
  constructor
  · by_cases hspecial : path = authorizedKeysFile ∨ isSyncignorePath path = true
    · rw [Agreeing, if_pos hspecial, iff_true]
      have hallowed : (V.forExtensions exts).pathAllowed s path = true := by
        simpa [Watching.pathAllowed, hexcluded] using Or.inl hspecial
      have htext : (V.forExtensions exts).opts.isTextExtension path = true := by
        simpa [BindOptions.isTextExtension] using Or.inl hspecial
      rw [hallowed, htext]
    · rw [Agreeing, if_neg hspecial]
      obtain ⟨hkeys, hignore⟩ := not_or.mp hspecial
      rw [Bool.not_eq_true] at hignore
      rw [Bool.eq_iff_iff, pathAllowed_forExtensions hexcluded hignored hkeys hignore]
      rw [show (V.forExtensions exts).opts = .forExtensions exts from rfl,
        isTextExtension_forExtensions hkeys hignore]
      by_cases hexts : exts = []
      · subst hexts
        simp [HasListed]
      · simp [hexts]
  · intro hexts hplain hkeys hignore
    have hspecial : ¬ (path = authorizedKeysFile ∨ isSyncignorePath path = true) := by
      simp [hkeys, hignore]
    rw [Agreeing, if_neg hspecial, if_neg hexts]
    exact dotted_iff_hasListed hp hplain

/-- A note whose extension is in capitals is text, and is not taken in. -/
theorem pathAllowed_capitals :
    Path.Normalized Watching.localDisk.crates.nfc (txt "A.MD") ∧
      alwaysExcluded (txt "A.MD") = false ∧
      SyncIgnoreSet.matches ⟨Watching.localDisk.root, []⟩ (txt "A.MD") false = false ∧
      (Watching.localDisk.forExtensions [txt "md"]).pathAllowed ⟨Watching.localDisk.root, []⟩
        (txt "A.MD") = false ∧
      (Watching.localDisk.forExtensions [txt "md"]).opts.isTextExtension (txt "A.MD") = true := by
  refine ⟨rfl, rfl, rfl, ?_, ?_⟩
  · decide +kernel
  · decide +kernel

theorem pathAllowed_note :
    ((Watching.localDisk.forExtensions [txt ".MD"]).pathAllowed ⟨Watching.localDisk.root, []⟩
        (txt "a/n.md") =
        (Watching.localDisk.forExtensions [txt ".MD"]).opts.isTextExtension (txt "a/n.md") ↔
      Agreeing [txt ".MD"] (txt "a/n.md")) ∧
    (Agreeing [txt ".MD"] (txt "a/n.md") ↔
      Spelled ([txt ".MD"].map listedExtension) (txt "a/n.md")) := by
  have hagree := pathAllowed_eq_isTextExtension .localDisk [txt ".MD"]
    ⟨Watching.localDisk.root, []⟩ (txt "a/n.md") rfl rfl rfl
  have hplain : ∀ e ∈ [txt ".MD"], Plain (listedExtension e) := by
    intro e he
    obtain rfl := List.mem_singleton.mp he
    exact ⟨by decide, by decide, by decide⟩
  exact ⟨hagree.1, hagree.2 (by simp) hplain (by decide) (by decide)⟩

end AgentSync
