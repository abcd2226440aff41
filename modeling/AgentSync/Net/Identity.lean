import AgentSync.Base64
import AgentSync.Trimming
import AgentSync.Fs.Binding
import AgentSync.Net.Ssh

/-! The file of an identity.

A device keeps its key as one line: a tag, and the 32 bytes of the seed as base64 without padding.
`load_from_file` reads the first line of a text and does not mind the space around the base64, so a
file that it takes is that line, up to such space and what follows (`loadIdentity_eq_ok`). -/
namespace AgentSync.Net

open Base64 (encodeNoPad decodeNoPad)

/-- A secret key, as `SigningKey::to_bytes` gives it. -/
abbrev Seed := Array32

def identityTag : Str := txt "agentsync-identity-" ++ txt "v1 "

/-- What `save_to_file` writes. -/
def identityBody (seed : Seed) : Str := identityTag ++ encodeNoPad seed.val ++ ['\n']

/-- What loading fails with. -/
inductive LoadError where
  | io (message : Str)
  | invalidUtf8
  | auth (message : Str)
  deriving DecidableEq, Repr

/-- A line without its line ending, `"\n"` or `"\r\n"`. -/
def stripCarriage (line : Str) : Str := if line.getLast? = some '\r' then line.dropLast else line

/-- `lines().next()`. -/
def firstLine (s : Str) : Option Str :=
  if s = [] then none
  else if '\n' ∈ s then some (stripCarriage (s.takeWhile (· ≠ '\n')))
  else some s

section Load
variable (path : Str) (decodeError : Str → Str)

/-- What `load_from_file` makes of the first line. -/
def loadLine (line : Str) : Except LoadError Seed :=
  if identityTag.isPrefixOf line then
    let rest := trim (line.drop identityTag.length)
    match decodeNoPad rest with
    | none => .error (.auth (txt "identity file base64 decode: " ++ decodeError rest))
    | some seedBytes =>
      match Array32.ofBytes? seedBytes with
      | none => .error (.auth (txt "identity seed wrong length: got " ++
          (toString seedBytes.length).toList ++ txt " bytes, want " ++ txt "32"))
      | some seed => .ok seed
  else .error (.auth (txt "identity file at " ++ path ++
    txt " is not in agentsync-identity-v1 format"))

/-- `load_from_file`, of what is read from `path`; an identity is its seed. -/
def loadIdentity (bytes : Bytes) : Except LoadError Seed :=
  match fromUtf8 bytes with
  | none => .error .invalidUtf8
  | some s =>
    match firstLine s with
    | none => .error (.auth (txt "empty identity file at " ++ path))
    | some line => loadLine path decodeError line

end Load

variable {path : Str} {decodeError : Str → Str} {seed : Seed} {s : Str}

/-! ### What is written -/

theorem length_encode_seed (seed : Seed) : (encodeNoPad seed.val).length = 43 := by
  rw [Base64.length_encodeNoPad, seed.property]

theorem encode_seed_ne_nil (seed : Seed) : encodeNoPad seed.val ≠ [] := fun h => by
  have hlen := length_encode_seed seed
  rw [h] at hlen
  cases hlen

theorem symbol_graphic : ∀ c ∈ Base64.alphabet, isWhitespace c = false := graphic_of_all (by decide)

/-- Base64 has no space in it that could be trimmed. -/
theorem bare_encodeNoPad (b : Bytes) : Trimming.Bare isWhitespace (encodeNoPad b) :=
  ⟨fun c hc => symbol_graphic c (Base64.mem_encodeNoPad (List.mem_of_head? hc)),
    fun c hc => symbol_graphic c (Base64.mem_encodeNoPad (List.mem_of_getLast? hc))⟩

/-! ### What is read -/

/-- The text of a file that is loaded: the line, with space around the base64. -/
def Holds (s : Str) (seed : Seed) : Prop :=
  ∃ front back rest,
    s = identityTag ++ (front ++ encodeNoPad seed.val ++ back) ++ rest ∧
    (∀ c ∈ front, isWhitespace c = true) ∧ (∀ c ∈ back, isWhitespace c = true) ∧
    '\n' ∉ front ∧ '\n' ∉ back ∧ (rest = [] ∨ rest.head? = some '\n')

/-- A line ending that has a carriage return leaves it to the line, or takes it. -/
theorem exists_stripCarriage (line : Str) :
    ∃ cr, line = stripCarriage line ++ cr ∧ ∀ c ∈ cr, c = '\r' := by
  unfold stripCarriage
  split
  next h =>
    refine ⟨['\r'], ?_, by simp⟩
    obtain ⟨front, rfl⟩ := List.getLast?_eq_some_iff.mp h
    rw [List.dropLast_concat]
  next => exact ⟨[], by simp, by simp⟩

/-- The first line, and what comes behind it. -/
theorem exists_of_firstLine {line : Str} (h : firstLine s = some line) :
    ∃ cr rest, s = line ++ cr ++ rest ∧ (∀ c ∈ cr, c = '\r') ∧ '\n' ∉ line ∧
      (rest = [] ∨ rest.head? = some '\n') := by
  unfold firstLine at h
  split at h
  next => cases h
  next =>
    split at h
    next hmem =>
      obtain rfl := Option.some.inj h
      obtain ⟨cr, hline, hcr⟩ := exists_stripCarriage (s.takeWhile (· ≠ '\n'))
      have hnewline : '\n' ∉ s.takeWhile (· ≠ '\n') := fun hc => by
        simpa using List.mem_takeWhile_imp hc
      refine ⟨cr, s.dropWhile (· ≠ '\n'), ?_, hcr, ?_, ?_⟩
      · rw [← hline, List.takeWhile_append_dropWhile]
      · rw [hline] at hnewline
        exact fun hc => hnewline (List.mem_append_left _ hc)
      · right
        have hhead := List.head?_dropWhile_not (p := (· ≠ '\n')) s
        cases hd : s.dropWhile (· ≠ '\n') with
        | nil =>
          rw [List.dropWhile_eq_nil_iff] at hd
          simpa using hd _ hmem
        | cons c rest =>
          rw [hd, List.head?_cons] at hhead
          simpa using hhead
    next hmem =>
      obtain rfl := Option.some.inj h
      exact ⟨[], [], by simp, by simp, hmem, .inl rfl⟩

theorem loadLine_eq_ok {line : Str} : loadLine path decodeError line = .ok seed ↔
    ∃ rest, line = identityTag ++ rest ∧ trim rest = encodeNoPad seed.val := by
  unfold loadLine
  constructor
  · intro h
    split at h
    next hprefix =>
      obtain ⟨rest, rfl⟩ := List.isPrefixOf_iff_prefix.mp hprefix
      refine ⟨rest, rfl, ?_⟩
      rw [List.drop_left] at h
      dsimp only at h
      split at h
      next => cases h
      next seedBytes hdecode =>
        split at h
        next => cases h
        next seed' hseed =>
          obtain rfl := Except.ok.inj h
          obtain rfl := Array32.ofBytes?_eq_some.mp hseed
          exact Base64.decodeNoPad_eq_some.mp hdecode
    next => cases h
  · intro h
    obtain ⟨rest, rfl, htrim⟩ := h
    rw [if_pos (List.isPrefixOf_iff_prefix.mpr (List.prefix_append _ _)), List.drop_left, htrim]
    simp only [Base64.decodeNoPad_encodeNoPad, Array32.ofBytes?_val]

theorem holds_of_loadIdentity {bytes : Bytes}
    (h : loadIdentity path decodeError bytes = .ok seed) :
    ∃ s, bytes = utf8 s ∧ Holds s seed := by
  unfold loadIdentity at h
  split at h
  next => cases h
  next s hs =>
    refine ⟨s, fromUtf8_eq_some.mp hs, ?_⟩
    split at h
    next => cases h
    next line hline =>
      obtain ⟨r, rfl, htrim⟩ := loadLine_eq_ok.mp h
      obtain ⟨cr, rest, hcut, hcr, hnewline, hrest⟩ := exists_of_firstLine hline
      obtain ⟨a, b, hr, ha, hb⟩ := Trimming.exists_append_trim isWhitespace r
      rw [← trim_eq, htrim] at hr
      have hmem : '\n' ∉ a ++ encodeNoPad seed.val ++ b := fun hc =>
        hnewline (List.mem_append_right _ (hr ▸ hc))
      refine ⟨a, b ++ cr, rest, ?_, ha, ?_, ?_, ?_, hrest⟩
      · rw [hcut, hr]
        simp only [List.append_assoc]
      · rw [List.forall_mem_append]
        refine ⟨hb, fun c hc => ?_⟩
        rw [hcr c hc]
        rfl
      · exact fun hc => hmem (List.mem_append_left _ (List.mem_append_left _ hc))
      · intro hc
        obtain hc | hc := List.mem_append.mp hc
        · exact hmem (List.mem_append_right _ hc)
        · exact absurd (hcr _ hc) (by decide)

/-- What stands on the line after its end is taken off: the same, with less space behind it. -/
theorem stripCarriage_append {x back : Str} (hx : ∀ c ∈ x.getLast?, c ≠ '\r') :
    ∃ back', stripCarriage (x ++ back) = x ++ back' ∧ ∀ c ∈ back', c ∈ back := by
  unfold stripCarriage
  split
  next h =>
    cases back with
    | nil =>
      rw [List.append_nil] at h
      exact absurd rfl (hx _ h)
    | cons c rest =>
      refine ⟨(c :: rest).dropLast, List.dropLast_append_of_ne_nil (List.cons_ne_nil c rest), ?_⟩
      exact fun c hc => List.dropLast_subset _ hc
  next => exact ⟨back, rfl, fun c hc => hc⟩

/-- The first line of a text that is cut at its first newline. -/
theorem firstLine_append {x back rest : Str} (hne : x ≠ []) (hx : ∀ c ∈ x.getLast?, c ≠ '\r')
    (hnewline : '\n' ∉ x ++ back) (hrest : rest = [] ∨ rest.head? = some '\n') :
    ∃ back', firstLine (x ++ back ++ rest) = some (x ++ back') ∧ ∀ c ∈ back', c ∈ back := by
  have hnil : x ++ back ++ rest ≠ [] := by simp [hne]
  obtain rfl | hhead := hrest
  · refine ⟨back, ?_, fun c hc => hc⟩
    rw [List.append_nil] at hnil ⊢
    rw [firstLine, if_neg hnil, if_neg hnewline]
  · obtain ⟨back', hstrip, hback'⟩ := @stripCarriage_append _ back hx
    refine ⟨back', ?_, hback'⟩
    have hmem : '\n' ∈ x ++ back ++ rest :=
      List.mem_append_right _ (List.mem_of_head? hhead)
    have htake := Trimming.takeWhile_append_of_head? hnewline (.inr hhead)
    rw [firstLine, if_neg hnil, if_pos hmem, htake, hstrip]

theorem loadIdentity_of_holds (h : Holds s seed) :
    loadIdentity path decodeError (utf8 s) = .ok seed := by
  obtain ⟨front, back, rest, rfl, hfront, hback, hnfront, hnback, hrest⟩ := h
  have hne := encode_seed_ne_nil seed
  have hcut : identityTag ++ (front ++ encodeNoPad seed.val ++ back) ++ rest =
      (identityTag ++ (front ++ encodeNoPad seed.val)) ++ back ++ rest := by
    simp only [List.append_assoc]
  have hlast : ∀ c ∈ (identityTag ++ (front ++ encodeNoPad seed.val)).getLast?, c ≠ '\r' := by
    intro c hc heq
    rw [← List.append_assoc, List.getLast?_append_of_ne_nil _ hne, heq] at hc
    exact absurd ((bare_encodeNoPad seed.val).2 _ hc) (by decide)
  have hnewline : '\n' ∉ (identityTag ++ (front ++ encodeNoPad seed.val)) ++ back := by
    have htag : '\n' ∉ identityTag := by decide
    have hsymbols : '\n' ∉ encodeNoPad seed.val := fun hc =>
      absurd (symbol_graphic _ (Base64.mem_encodeNoPad hc)) (by decide)
    simp [htag, hnfront, hsymbols, hnback]
  have hnil : identityTag ++ (front ++ encodeNoPad seed.val) ≠ [] :=
    List.append_ne_nil_of_left_ne_nil (by decide) _
  obtain ⟨back', hline, hback'⟩ := firstLine_append hnil hlast hnewline hrest
  have htrim : trim (front ++ encodeNoPad seed.val ++ back') = encodeNoPad seed.val := by
    rw [trim_eq]
    exact Trimming.trim_append (bare_encodeNoPad seed.val) hne hfront fun c hc =>
      hback c (hback' c hc)
  simp only [loadIdentity, fromUtf8_utf8]
  rw [hcut, hline]
  refine loadLine_eq_ok.mpr ⟨_, ?_, htrim⟩
  rw [List.append_assoc]

/-- **A file is loaded where its first line is the line of the seed**, with any space around the
base64. -/
theorem loadIdentity_eq_ok {bytes : Bytes} :
    loadIdentity path decodeError bytes = .ok seed ↔ ∃ s, bytes = utf8 s ∧ Holds s seed := by
  constructor
  · exact holds_of_loadIdentity
  · intro h
    obtain ⟨s, rfl, h⟩ := h
    exact loadIdentity_of_holds h

theorem holds_identityBody (seed : Seed) : Holds (identityBody seed) seed :=
  ⟨[], [], ['\n'], by simp [identityBody], by simp, by simp, by simp, by simp, .inr rfl⟩

/-- What is saved is loaded. -/
theorem loadIdentity_identityBody (seed : Seed) :
    loadIdentity path decodeError (utf8 (identityBody seed)) = .ok seed :=
  loadIdentity_of_holds (holds_identityBody seed)

end AgentSync.Net
