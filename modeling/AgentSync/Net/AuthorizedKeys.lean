import Mathlib.Data.List.Forall2
import AgentSync.Net.Ssh

/-! The text of `authorized_keys`.

A line is a key in its SSH form and a label. Comments, blank lines and lines that cannot be
read are skipped, and lines of an older Markdown form are read as well.

A label is written behind its key as it is, so a list of peers is read back exactly when every
label is of one line (`parse_render_iff`). A pasted line is split at single white space where
`from_ssh_string` splits at runs of it, so the two part over lines with more than one between
the type and the key (`parseLine_agrees_iff`). -/
namespace AgentSync.Net

/-! ### Splitting -/

/-- `str::splitn`: the first `n - 1` separators end a piece. -/
def splitn (p : Char → Bool) : Nat → Str → List Str
  | 0, _ => []
  | 1, s => [s]
  | n + 2, s =>
    match s.dropWhile (!p ·) with
    | [] => [s]
    | _ :: rest => s.takeWhile (!p ·) :: splitn p (n + 1) rest

/-- `str::trim_start`. -/
def trimStart (s : Str) : Str := s.dropWhile isWhitespace

/-- `str::trim_matches`, for one character. -/
def trimMatches (c : Char) (s : Str) : Str := (s.dropWhile (· = c)).rdropWhile (· = c)

/-- A line ends in `\n` or `\r\n`. -/
def stripReturn (line : Str) : Str := if line.getLast? = some '\r' then line.dropLast else line

/-- `str::lines`. -/
def lines (s : Str) : List Str :=
  let pieces := s.splitOnP (· = '\n')
  pieces.dropLast.map stripReturn ++ pieces.getLast?.toList.filter fun piece => !piece.isEmpty

/-! ### The parser -/

structure AuthorizedPeer where
  pubkey : Pubkey
  label : Str
  deriving DecidableEq

variable (T : TextFormat)

def stripListMarker (line : Str) : Option Str :=
  [txt "- ", txt "* "].findSome? line.dropPrefix?

def splitKeyAndLabel (s : Str) : Str × Str :=
  match [txt " — ", txt " – ", txt " -- ", txt " - "].findSome? s.dropInfix? with
  | some (key, rest) => (key, trim rest)
  | none => (s, [])

def parseLegacy (body : Str) : Option AuthorizedPeer :=
  let (keyPart, label) := splitKeyAndLabel body
  let keyText := trim (trimMatches '\x60' (trim keyPart))
  (Pubkey.fromSshString T keyText).toOption.map fun pubkey => ⟨pubkey, label⟩

/-- What `parse_line` makes of the three pieces of a line. -/
def parsePieces : List Str → Option AuthorizedPeer
  | kind :: blob :: rest =>
    let label := (rest.head?.map trim).getD []
    let keyText := kind ++ txt " " ++ blob
    (Pubkey.fromSshString T keyText).toOption.map fun pubkey => ⟨pubkey, label⟩
  | _ => none

def parseLine (raw : Str) : Option AuthorizedPeer :=
  let trimmed := trimStart raw
  if trimmed.isEmpty then none
  else if trimmed.head? = some '#' then none
  else
    let body := (stripListMarker trimmed).getD trimmed
    if body.head? = some '\x60' then parseLegacy T body
    else parsePieces T (splitn isWhitespace 3 body)

def parseAuthorizedKeys (content : Str) : List AuthorizedPeer :=
  (lines content).filterMap (parseLine T)

/-! ### The renderer -/

def authorizedKeysHeader : Str :=
  txt "# agentsync authorized_keys\n" ++ txt "#\n" ++
    txt "# One ssh-ed25519 public key per line. Lines starting with '#' are\n" ++
    txt "# comments. Paste `agentsync key show` output from any device you\n" ++
    txt "# want to authorize.\n\n"

def renderPeer (p : AuthorizedPeer) : Str :=
  if p.label.isEmpty then p.pubkey.toSshString T ++ txt "\n"
  else p.pubkey.toSshString T ++ txt " " ++ p.label ++ txt "\n"

def renderAuthorizedKeys (peers : List AuthorizedPeer) : Str :=
  authorizedKeysHeader ++ peers.flatMap (renderPeer T)

/-! ### Pieces -/

section Pieces

variable {p : Char → Bool} {s a b : Str} {c : Char}

theorem splitn_of_forall (h : ∀ c ∈ s, p c = false) (n : Nat) : splitn p (n + 1) s = [s] := by
  cases n with
  | zero => rfl
  | succ n =>
    have hdrop : s.dropWhile (!p ·) = [] := List.dropWhile_eq_nil_iff.mpr (by simpa using h)
    rw [splitn, hdrop]

theorem splitn_append_cons (h : ∀ c ∈ a, p c = false) (hc : p c = true) (n : Nat) :
    splitn p (n + 2) (a ++ c :: b) = a :: splitn p (n + 1) b := by
  have hall : ∀ c ∈ a, (!p c) = true := by simpa using h
  have hdrop : (a ++ c :: b).dropWhile (!p ·) = c :: b := by
    rw [List.dropWhile_append_of_pos hall, List.dropWhile_cons_of_neg (by simp [hc])]
  have htake : (a ++ c :: b).takeWhile (!p ·) = a := by
    rw [List.takeWhile_append_of_pos hall, List.takeWhile_cons_of_neg (by simp [hc]),
      List.append_nil]
  rw [splitn, hdrop, htake]

/-- A string has no separator, or a first one. -/
theorem first_separator (p : Char → Bool) (s : Str) : (∀ c ∈ s, p c = false) ∨
    ∃ a c b, s = a ++ c :: b ∧ (∀ c ∈ a, p c = false) ∧ p c = true := by
  have hfront : ∀ c ∈ s.takeWhile (!p ·), p c = false := fun c hc => by
    simpa using List.mem_takeWhile_imp hc
  have hsplit := List.takeWhile_append_dropWhile (p := (!p ·)) (l := s)
  cases hrest : s.dropWhile (!p ·) with
  | nil =>
    rw [hrest, List.append_nil] at hsplit
    exact .inl (hsplit ▸ hfront)
  | cons c b =>
    refine .inr ⟨s.takeWhile (!p ·), c, b, by rw [← hrest, hsplit], hfront, ?_⟩
    have hne : s.dropWhile (!p ·) ≠ [] := by simp [hrest]
    have hhead := List.head_dropWhile_not (!p ·) hne
    simpa [hrest] using hhead

end Pieces

/-! ### White space -/

section WhiteSpace

variable {s t : Str} {c : Char}

theorem splitWhitespace_append_cons (hc : isWhitespace c = true) (s t : Str) :
    splitWhitespace (s ++ c :: t) = splitWhitespace s ++ splitWhitespace t := by
  rw [splitWhitespace, List.splitOnP_append_cons _ _ hc, List.filter_append]
  rfl

theorem splitWhitespace_nil : splitWhitespace [] = [] := rfl

theorem splitWhitespace_cons (hc : isWhitespace c = true) (s : Str) :
    splitWhitespace (c :: s) = splitWhitespace s := splitWhitespace_append_cons hc [] s

theorem splitWhitespace_word (hne : s ≠ []) (h : ∀ c ∈ s, isWhitespace c = false) :
    splitWhitespace s = [s] := by
  rw [splitWhitespace, List.splitOnP_eq_singleton h]
  simp [hne]

theorem splitWhitespace_of_blank (h : ∀ c ∈ s, isWhitespace c = true) : splitWhitespace s = [] := by
  induction s with
  | nil => rfl
  | cons c s ih =>
    rw [splitWhitespace_cons (h c List.mem_cons_self)]
    exact ih fun c hc => h c (List.mem_cons_of_mem _ hc)

theorem splitWhitespace_trimStart (s : Str) : splitWhitespace (trimStart s) = splitWhitespace s := by
  unfold trimStart
  induction s with
  | nil => rfl
  | cons c s ih =>
    rw [List.dropWhile_cons]
    split
    next hc => rw [ih, splitWhitespace_cons hc]
    next => rfl

theorem splitWhitespace_append_blank (h : ∀ c ∈ t, isWhitespace c = true) (s : Str) :
    splitWhitespace (s ++ t) = splitWhitespace s := by
  cases t with
  | nil => rw [List.append_nil]
  | cons c t =>
    rw [splitWhitespace_append_cons (h c List.mem_cons_self),
      splitWhitespace_of_blank fun c hc => h c (List.mem_cons_of_mem _ hc), List.append_nil]

/-- The end of a string is white space. -/
theorem blank_rtakeWhile (s : Str) : ∀ c ∈ s.rtakeWhile isWhitespace, isWhitespace c = true := by
  intro c hc
  rw [List.rtakeWhile, List.mem_reverse] at hc
  exact List.mem_takeWhile_imp hc

theorem splitWhitespace_trim (s : Str) : splitWhitespace (trim s) = splitWhitespace s := by
  rw [← splitWhitespace_trimStart s, trim,
    ← splitWhitespace_append_blank (blank_rtakeWhile (trimStart s)), trimStart,
    List.rdropWhile_append_rtakeWhile]

end WhiteSpace

/-! ### Two parsers of one line -/

/-- What `from_ssh_string` makes of the words of a string. -/
def Pubkey.ofWords : List Str → Except Error Pubkey
  | [] => .error (.auth (txt "empty ssh pubkey string"))
  | kind :: parts =>
    if kind != sshKeyType then
      .error (.auth (txt "unsupported pubkey type " ++ T.debug kind ++ txt ", want " ++ sshKeyType))
    else
      match parts with
      | [] => .error (.auth (txt "missing base64 portion of ssh pubkey"))
      | b64 :: _ =>
        match T.decode b64 with
        | .error e => .error (.auth (txt "ssh pubkey base64: " ++ e))
        | .ok wire => decodeSshWire T wire

theorem Pubkey.fromSshString_eq (s : Str) :
    Pubkey.fromSshString T s = Pubkey.ofWords T (splitWhitespace s) := by
  rw [← splitWhitespace_trim]
  rfl

/-- The key that a type and a word hold. -/
theorem Pubkey.ofWords_eq_ok {words : List Str} {key : Pubkey} :
    Pubkey.ofWords T words = .ok key ↔ ∃ b64 rest wire, words = sshKeyType :: b64 :: rest ∧
      T.decode b64 = .ok wire ∧ encodeSshWire key <+: wire := by
  constructor
  · intro h
    match words with
    | [] => cases h
    | [kind] =>
      rw [Pubkey.ofWords] at h
      split at h <;> cases h
    | kind :: b64 :: rest =>
      rw [Pubkey.ofWords] at h
      split at h
      next => cases h
      next hkind =>
        cases hwire : T.decode b64 with
        | error e =>
          simp only [hwire] at h
          cases h
        | ok wire =>
          simp only [hwire] at h
          rw [show kind = sshKeyType by simpa using hkind]
          exact ⟨b64, rest, wire, rfl, hwire, (decodeSshWire_eq_ok T).mp h⟩
  · intro ⟨b64, rest, wire, hwords, hwire, hkey⟩
    subst hwords
    simp only [Pubkey.ofWords, bne_self_eq_false, Bool.false_eq_true, if_false, hwire]
    exact (decodeSshWire_eq_ok T).mpr hkey

/-- A line that is not blank, a comment, a bullet or a quoted key. -/
structure KeyLine (raw : Str) : Prop where
  nonblank : trimStart raw ≠ []
  comment : (trimStart raw).head? ≠ some '#'
  quoted : (trimStart raw).head? ≠ some '\x60'
  dash : ¬ txt "- " <+: trimStart raw
  star : ¬ txt "* " <+: trimStart raw

/-- More than one white space stands between a type and a key. -/
def Spaced (raw : Str) : Prop :=
  ∃ a b rest b64 more wire key, isWhitespace a = true ∧ isWhitespace b = true ∧
    trimStart raw = sshKeyType ++ a :: b :: rest ∧ splitWhitespace rest = b64 :: more ∧
    T.decode b64 = .ok wire ∧ encodeSshWire key <+: wire

variable {T}

theorem sshKeyType_graphic : ∀ c ∈ sshKeyType, isWhitespace c = false := graphic_of_all (by decide)

/-- A line that starts with the type of a key. -/
theorem keyLine_of_type (t : Str) : KeyLine (sshKeyType ++ t) := by
  have htrim : trimStart (sshKeyType ++ t) = sshKeyType ++ t :=
    List.dropWhile_cons_of_neg (by decide)
  have hhead : (sshKeyType ++ t).head? = some 's' := rfl
  have hmarker (c : Char) (hc : c ≠ 's') : ¬ [c, ' '] <+: sshKeyType ++ t := by
    intro ⟨rest, hrest⟩
    exact hc (Option.some.inj ((congrArg List.head? hrest).trans hhead))
  constructor
  case nonblank => rw [htrim]; exact List.cons_ne_nil _ _
  case comment => rw [htrim, hhead]; decide
  case quoted => rw [htrim, hhead]; decide
  case dash => rw [htrim]; exact hmarker '-' (by decide)
  case star => rw [htrim]; exact hmarker '*' (by decide)

theorem dropPrefix?_eq_none {s marker : Str} (h : ¬ marker <+: s) : s.dropPrefix? marker = none := by
  cases hdrop : s.dropPrefix? marker with
  | none => rfl
  | some rest =>
    obtain ⟨front, rfl, hfront⟩ := List.dropPrefix?_eq_some_iff.mp hdrop
    exact absurd ⟨rest, by rw [← eq_of_beq hfront]⟩ h

/-- Such a line is split into a type, a key and a label. -/
theorem parseLine_keyLine {raw : Str} (h : KeyLine raw) :
    parseLine T raw = parsePieces T (splitn isWhitespace 3 (trimStart raw)) := by
  have hmarker : stripListMarker (trimStart raw) = none := by
    rw [stripListMarker, List.findSome?_cons, dropPrefix?_eq_none h.dash, List.findSome?_cons,
      dropPrefix?_eq_none h.star]
    rfl
  simp only [parseLine, hmarker, List.isEmpty_iff, h.nonblank, h.comment, Option.getD_none,
    h.quoted, if_false]

theorem KeyLine.word {raw kind rest : Str} {c : Char} (h : KeyLine raw)
    (hraw : trimStart raw = kind ++ c :: rest) (hc : isWhitespace c = true) : kind ≠ [] := by
  rintro rfl
  have hne : raw.dropWhile isWhitespace ≠ [] := h.nonblank
  have hhead := List.head_dropWhile_not isWhitespace hne
  simp only [show raw.dropWhile isWhitespace = c :: rest from hraw, List.head_cons, hc] at hhead
  cases hhead

theorem splitWhitespace_word_cons {kind : Str} {c : Char} (hne : kind ≠ [])
    (hkind : ∀ c ∈ kind, isWhitespace c = false) (hc : isWhitespace c = true) (rest : Str) :
    splitWhitespace (kind ++ c :: rest) = kind :: splitWhitespace rest := by
  rw [splitWhitespace_append_cons hc, splitWhitespace_word hne hkind]
  rfl

/-- The key of a line's pieces is that of the type and the piece behind it. -/
theorem pubkey_parsePieces {kind blob : Str} (hne : kind ≠ [])
    (hkind : ∀ c ∈ kind, isWhitespace c = false) (rest : List Str) :
    (parsePieces T (kind :: blob :: rest)).map AuthorizedPeer.pubkey =
      (Pubkey.ofWords T (kind :: splitWhitespace blob)).toOption := by
  have hwords : splitWhitespace (kind ++ txt " " ++ blob) = kind :: splitWhitespace blob := by
    rw [List.append_assoc]
    exact splitWhitespace_word_cons hne hkind (by decide) blob
  rw [parsePieces, Pubkey.fromSshString_eq, hwords, Option.map_map]
  exact Option.map_id'

/-- Two white spaces behind the type leave nothing for the key. -/
theorem parseLine_spaced {raw kind rest : Str} {a b : Char} (h : KeyLine raw)
    (hraw : trimStart raw = kind ++ a :: b :: rest) (hkind : ∀ c ∈ kind, isWhitespace c = false)
    (ha : isWhitespace a = true) (hb : isWhitespace b = true) : parseLine T raw = none := by
  have hpieces : splitn isWhitespace 3 (kind ++ a :: b :: rest) = [kind, [], rest] := by
    rw [splitn_append_cons hkind ha]
    exact congrArg (kind :: ·) (splitn_append_cons (a := []) (by simp) hb 0)
  have hpubkey := @pubkey_parsePieces T kind [] (h.word hraw ha) hkind [rest]
  rw [parseLine_keyLine h, hraw, hpieces]
  have hnone : (Pubkey.ofWords T [kind]).toOption = none := by
    rw [Pubkey.ofWords]
    split <;> rfl
  rw [splitWhitespace_nil, hnone] at hpubkey
  exact Option.map_eq_none_iff.mp hpubkey

/-- Any other line is read as the key parser reads it. -/
theorem parseLine_cases {raw : Str} (h : KeyLine raw) :
    (parseLine T raw).map AuthorizedPeer.pubkey = (Pubkey.fromSshString T raw).toOption ∨
      ∃ kind a b rest, kind ≠ [] ∧ (∀ c ∈ kind, isWhitespace c = false) ∧
        isWhitespace a = true ∧ isWhitespace b = true ∧ trimStart raw = kind ++ a :: b :: rest := by
  rw [parseLine_keyLine h, Pubkey.fromSshString_eq, ← splitWhitespace_trimStart]
  rcases first_separator isWhitespace (trimStart raw) with hword | ⟨kind, a, rest, hraw, hkind, ha⟩
  · -- A lone word is no key.
    refine .inl ?_
    have hnone : (Pubkey.ofWords T [trimStart raw]).toOption = none := by
      rw [Pubkey.ofWords]
      split <;> rfl
    rw [splitn_of_forall hword, splitWhitespace_word h.nonblank hword, hnone]
    rfl
  · have hne := h.word hraw ha
    rw [hraw, splitn_append_cons hkind ha, splitWhitespace_word_cons hne hkind ha]
    rcases first_separator isWhitespace rest with hblob | ⟨blob, b, more, rfl, hblob, hb⟩
    · rw [splitn_of_forall hblob]
      exact .inl (pubkey_parsePieces hne hkind _)
    · by_cases hnil : blob = []
      · subst hnil
        exact .inr ⟨kind, a, b, more, hne, hkind, ha, hb, rfl⟩
      · refine .inl ?_
        rw [splitn_append_cons hblob hb, pubkey_parsePieces hne hkind,
          splitWhitespace_word hnil hblob, splitWhitespace_word_cons hnil hblob hb]
        rfl

variable (T)

/-- **A line is authorized as the key that the key parser reads in it, unless more than one
white space stands between the type and the key.** -/
theorem parseLine_agrees_iff (raw : Str) (h : KeyLine raw) :
    (∀ key, (∃ peer, parseLine T raw = some peer ∧ peer.pubkey = key) ↔
      Pubkey.fromSshString T raw = .ok key) ↔ ¬ Spaced T raw := by
  have hkey (key : Pubkey) : (∃ peer, parseLine T raw = some peer ∧ peer.pubkey = key) ↔
      (parseLine T raw).map AuthorizedPeer.pubkey = some key := Option.map_eq_some_iff.symm
  have hok (key : Pubkey) : (Pubkey.fromSshString T raw).toOption = some key ↔
      Pubkey.fromSshString T raw = .ok key := by
    cases Pubkey.fromSshString T raw <;> simp [Except.toOption]
  have hwords := Pubkey.fromSshString_eq T raw
  rw [← splitWhitespace_trimStart] at hwords
  constructor
  · intro hagree ⟨a, b, rest, b64, more, wire, key, ha, hb, hraw, hrest, hwire, hbegins⟩
    have htype : ∀ c ∈ sshKeyType, isWhitespace c = false := graphic_of_all (by decide)
    rw [hraw, splitWhitespace_word_cons (by decide) htype ha, splitWhitespace_cons hb, hrest]
      at hwords
    have hread := hwords.trans ((Pubkey.ofWords_eq_ok T).mpr ⟨b64, more, wire, rfl, hwire, hbegins⟩)
    obtain ⟨peer, hpeer, -⟩ := (hagree key).mpr hread
    rw [parseLine_spaced h hraw htype ha hb] at hpeer
    cases hpeer
  · intro hspaced key
    rw [hkey]
    rcases @parseLine_cases T raw h with hsame | ⟨kind, a, b, rest, hne, hkind, ha, hb, hraw⟩
    · rw [hsame, hok]
    · rw [parseLine_spaced h hraw hkind ha hb]
      refine ⟨nofun, fun hread => absurd ?_ hspaced⟩
      rw [hwords, hraw, splitWhitespace_word_cons hne hkind ha, splitWhitespace_cons hb] at hread
      obtain ⟨b64, more, wire, hparts, hwire, hbegins⟩ := (Pubkey.ofWords_eq_ok T).mp hread
      obtain ⟨rfl, hrest⟩ := List.cons.inj hparts
      exact ⟨a, b, rest, b64, more, wire, key, ha, hb, hraw, hrest, hwire, hbegins⟩

private def pasted (gap : Str) : Str :=
  sshKeyType ++ gap ++ standardText.encode (encodeSshWire (.fill 7)) ++ txt "\tphone"

theorem parseLine_agrees_pasted :
    (∀ key, (∃ peer, parseLine standardText (pasted (txt " ")) = some peer ∧ peer.pubkey = key) ↔
      Pubkey.fromSshString standardText (pasted (txt " ")) = .ok key) ↔
      ¬ Spaced standardText (pasted (txt " ")) := by
  refine parseLine_agrees_iff standardText (pasted (txt " ")) ?_
  rw [pasted, List.append_assoc, List.append_assoc]
  exact keyLine_of_type _

/-- A key that is pasted with two blanks before it is read as a key and not authorized. -/
theorem parseLine_twiceSpaced : KeyLine (pasted (txt "  ")) ∧
    Pubkey.fromSshString standardText (pasted (txt "  ")) = .ok (.fill 7) ∧
    parseLine standardText (pasted (txt "  ")) = none := by
  have hline : pasted (txt "  ") = sshKeyType ++ ' ' :: ' ' ::
      (standardText.encode (encodeSshWire (.fill 7)) ++ '\t' :: txt "phone") := by
    rw [pasted, List.append_assoc, List.append_assoc]
    rfl
  have hkey : KeyLine (pasted (txt "  ")) := by
    rw [hline]
    exact keyLine_of_type _
  refine ⟨hkey, ?_, ?_⟩
  · have hne : standardText.encode (encodeSshWire (.fill 7)) ≠ [] :=
      standardText.encode_ne_nil (by simp [encodeSshWire, toBeBytes])
    rw [Pubkey.fromSshString_eq, hline,
      splitWhitespace_word_cons (by decide) sshKeyType_graphic (by decide),
      splitWhitespace_cons (by decide),
      splitWhitespace_word_cons hne (standardText.encode_graphic _) (by decide)]
    exact (Pubkey.ofWords_eq_ok _).mpr
      ⟨_, _, _, rfl, standardText.decode_encode _, List.prefix_refl _⟩
  · have hstart : trimStart (pasted (txt "  ")) = sshKeyType ++ ' ' :: ' ' ::
        (standardText.encode (encodeSshWire (.fill 7)) ++ '\t' :: txt "phone") := by
      rw [hline]
      exact List.dropWhile_cons_of_neg (by decide)
    exact parseLine_spaced hkey hstart sshKeyType_graphic rfl rfl

/-! ### Lines -/

/-- A line that is ended, and what follows it. -/
theorem lines_append_cons {a : Str} (h : '\n' ∉ a) (b : Str) :
    lines (a ++ '\n' :: b) = stripReturn a :: lines b := by
  have hsplit : (a ++ '\n' :: b).splitOnP (· = '\n') = a :: b.splitOnP (· = '\n') :=
    List.splitOnP_append_cons_of_forall_mem (by grind) _ (by decide) b
  have hne := List.splitOnP_ne_nil (fun c => decide (c = '\n')) b
  simp only [lines, hsplit, List.dropLast_cons_of_ne_nil hne, List.map_cons, List.cons_append,
    List.getLast?_cons_of_ne_nil hne]

theorem newline_or (s : Str) : '\n' ∉ s ∨ ∃ a b, s = a ++ '\n' :: b ∧ '\n' ∉ a := by
  rcases first_separator (· = '\n') s with hnone | ⟨a, c, b, rfl, ha, hc⟩
  · exact .inl fun hin => by simpa using hnone _ hin
  · obtain rfl : c = '\n' := by simpa using hc
    exact .inr ⟨a, b, rfl, fun hin => by simpa using ha _ hin⟩

variable {T}

theorem parseAuthorizedKeys_append_cons {a : Str} (h : '\n' ∉ a) (b : Str) :
    parseAuthorizedKeys T (a ++ '\n' :: b) =
      (parseLine T (stripReturn a)).toList ++ parseAuthorizedKeys T b := by
  rw [parseAuthorizedKeys, lines_append_cons h, List.filterMap_cons]
  cases parseLine T (stripReturn a) <;> rfl

/-- A text that ends its last line is read before what follows it. -/
theorem parseAuthorizedKeys_append (s b : Str) :
    parseAuthorizedKeys T (s ++ '\n' :: b) =
      parseAuthorizedKeys T (s ++ ['\n']) ++ parseAuthorizedKeys T b := by
  rcases newline_or s with hs | ⟨a, s', rfl, ha⟩
  · rw [parseAuthorizedKeys_append_cons hs, parseAuthorizedKeys_append_cons hs]
    simp [parseAuthorizedKeys, lines]
  · simp only [List.append_assoc, List.cons_append]
    rw [parseAuthorizedKeys_append_cons ha, parseAuthorizedKeys_append_cons ha,
      parseAuthorizedKeys_append s' b, List.append_assoc]
termination_by s.length
decreasing_by simp_all; omega

theorem mem_stripReturn {s : Str} {c : Char} (h : c ∈ stripReturn s) : c ∈ s := by
  unfold stripReturn at h
  split at h
  · exact (List.dropLast_sublist s).subset h
  · exact h

/-- A line is a part of one line of the text. -/
theorem mem_lines {s line : Str} (h : line ∈ lines s) : '\n' ∉ line ∧ ∀ c ∈ line, c ∈ s := by
  rcases newline_or s with hs | ⟨a, b, rfl, ha⟩
  · have hsplit : s.splitOnP (· = '\n') = [s] := List.splitOnP_eq_singleton (by grind)
    simp only [lines, hsplit, List.dropLast_singleton, List.map_nil, List.nil_append,
      List.getLast?_singleton, Option.toList_some, List.mem_filter, List.mem_singleton] at h
    obtain ⟨rfl, -⟩ := h
    exact ⟨hs, fun _ hc => hc⟩
  · rw [lines_append_cons ha] at h
    cases List.mem_cons.mp h with
    | inl hline =>
      subst hline
      exact ⟨fun hin => ha (mem_stripReturn hin),
        fun c hc => List.mem_append_left _ (mem_stripReturn hc)⟩
    | inr hrest =>
      have hb := mem_lines hrest
      exact ⟨hb.1, fun c hc => List.mem_append_right _ (List.mem_cons_of_mem _ (hb.2 c hc))⟩
termination_by s.length
decreasing_by simp_all; omega

theorem parseLine_blank {s : Str} (h : ∀ c ∈ s, isWhitespace c = true) : parseLine T s = none := by
  have hnil : trimStart s = [] := List.dropWhile_eq_nil_iff.mpr h
  simp [parseLine, hnil]

theorem parseLine_comment (s : Str) : parseLine T ('#' :: s) = none := rfl

/-- White space holds no peers. -/
theorem parseAuthorizedKeys_blank {s : Str} (h : ∀ c ∈ s, isWhitespace c = true) :
    parseAuthorizedKeys T s = [] :=
  List.filterMap_eq_nil_iff.mpr fun _ hline => parseLine_blank fun c hc =>
    h c ((mem_lines hline).2 c hc)

/-! ### Trimming -/

theorem trim_append_blank {t : Str} (h : ∀ c ∈ t, isWhitespace c = true) (s : Str) :
    trim (s ++ t) = trim s := Trimming.trim_append_of_forall h s

theorem trim_trim (s : Str) : trim (trim s) = trim s := Trimming.trim_trim s

theorem blank_of_splitWhitespace {s : Str} (h : splitWhitespace s = []) :
    ∀ c ∈ s, isWhitespace c = true := by
  rcases first_separator isWhitespace s with hs | ⟨a, c, b, rfl, ha, hc⟩
  · by_cases hnil : s = []
    · simp [hnil]
    · rw [splitWhitespace_word hnil hs] at h
      cases h
  · rw [splitWhitespace_append_cons hc] at h
    obtain ⟨hfront, hback⟩ := List.append_eq_nil_iff.mp h
    have hb := blank_of_splitWhitespace hback
    by_cases hnil : a = []
    · subst hnil
      simpa [hc] using hb
    · rw [splitWhitespace_word hnil ha] at hfront
      cases hfront
termination_by s.length
decreasing_by simp_all; omega

/-- `str::trim_end`. -/
def trimEnd (s : Str) : Str := s.rdropWhile isWhitespace

theorem mem_trimEnd {s : Str} {c : Char} (h : c ∈ trimEnd s) : c ∈ s :=
  (List.rdropWhile_prefix _ _).subset h

theorem trim_stripReturn (s : Str) : trim (stripReturn s) = trim s := by
  unfold stripReturn
  split
  next h =>
    obtain ⟨front, rfl⟩ := List.getLast?_eq_some_iff.mp h
    rw [List.dropLast_concat, trim_append_blank (List.forall_mem_singleton.mpr rfl)]
  next => rfl

/-! ### Reading a rendered list -/

theorem not_mem_of_graphic {s : Str} (h : ∀ c ∈ s, isWhitespace c = false) : '\n' ∉ s := by
  intro hin
  cases (h _ hin).symm.trans (show isWhitespace '\n' = true by decide)

theorem toSshString_eq (key : Pubkey) :
    key.toSshString T = sshKeyType ++ ' ' :: T.encode (encodeSshWire key) := by
  rw [Pubkey.toSshString, List.append_assoc]
  rfl

theorem newline_not_mem_toSshString (key : Pubkey) : '\n' ∉ key.toSshString T := by
  rw [toSshString_eq, List.mem_append, List.mem_cons]
  have hkind := not_mem_of_graphic sshKeyType_graphic
  have hblob := not_mem_of_graphic (T.encode_graphic (encodeSshWire key))
  grind

/-- A key with a label behind it is read back, the label trimmed. -/
theorem parseLine_labelled (key : Pubkey) (label : Str) :
    parseLine T (key.toSshString T ++ ' ' :: label) = some ⟨key, trim label⟩ := by
  have hline : key.toSshString T ++ ' ' :: label =
      sshKeyType ++ ' ' :: (T.encode (encodeSshWire key) ++ ' ' :: label) := by
    simp [toSshString_eq]
  have hstart : trimStart (sshKeyType ++ ' ' :: (T.encode (encodeSshWire key) ++ ' ' :: label)) =
      sshKeyType ++ ' ' :: (T.encode (encodeSshWire key) ++ ' ' :: label) :=
    List.dropWhile_cons_of_neg (by decide)
  have hkey : sshKeyType ++ txt " " ++ T.encode (encodeSshWire key) = key.toSshString T := rfl
  rw [hline, parseLine_keyLine (keyLine_of_type _), hstart,
    splitn_append_cons sshKeyType_graphic (by decide),
    splitn_append_cons (T.encode_graphic _) (by decide), parsePieces, hkey,
    Pubkey.fromSshString_toSshString]
  rfl

theorem parseLine_unlabelled (key : Pubkey) :
    parseLine T (key.toSshString T) = some ⟨key, []⟩ := by
  have hstart : trimStart (sshKeyType ++ ' ' :: T.encode (encodeSshWire key)) =
      sshKeyType ++ ' ' :: T.encode (encodeSshWire key) :=
    List.dropWhile_cons_of_neg (by decide)
  have hkey : sshKeyType ++ txt " " ++ T.encode (encodeSshWire key) = key.toSshString T := rfl
  rw [toSshString_eq, parseLine_keyLine (keyLine_of_type _), hstart,
    splitn_append_cons sshKeyType_graphic (by decide),
    splitn_of_forall (T.encode_graphic _), parsePieces, hkey, Pubkey.fromSshString_toSshString]
  rfl

theorem stripReturn_labelled (s label : Str) :
    stripReturn (s ++ ' ' :: label) = s ++ ' ' :: stripReturn label := by
  cases label with
  | nil => simp [stripReturn]
  | cons c rest =>
    have hlast : (s ++ ' ' :: c :: rest).getLast? = (c :: rest).getLast? := by
      rw [List.getLast?_append_of_ne_nil _ (by simp), List.getLast?_cons_of_ne_nil (by simp)]
    unfold stripReturn
    rw [hlast]
    split
    next => rw [List.dropLast_append_cons, List.dropLast_cons_of_ne_nil (by simp)]
    next => rfl

theorem stripReturn_toSshString (key : Pubkey) : stripReturn (key.toSshString T) = key.toSshString T := by
  refine if_neg fun hlast => ?_
  have hne : T.encode (encodeSshWire key) ≠ [] := T.encode_ne_nil (by
    simp [encodeSshWire, toBeBytes])
  rw [toSshString_eq, List.getLast?_append_of_ne_nil _ (by simp),
    List.getLast?_cons_of_ne_nil hne] at hlast
  cases (T.encode_graphic _ _ (List.mem_of_getLast? hlast)).symm.trans
    (show isWhitespace '\r' = true by decide)

theorem renderPeer_unlabelled {p : AuthorizedPeer} (h : p.label = []) :
    renderPeer T p = p.pubkey.toSshString T ++ ['\n'] := by
  simp only [renderPeer, h, List.isEmpty_nil, if_true]
  rfl

theorem renderPeer_labelled {p : AuthorizedPeer} (h : p.label ≠ []) :
    renderPeer T p = p.pubkey.toSshString T ++ ' ' :: p.label ++ ['\n'] := by
  simp only [renderPeer, List.isEmpty_iff, h, if_false, List.append_assoc]
  rfl

/-- A label of one line. -/
theorem parse_renderPeer {p : AuthorizedPeer} (h : '\n' ∉ p.label) (rest : Str) :
    parseAuthorizedKeys T (renderPeer T p ++ rest) =
      ⟨p.pubkey, trim p.label⟩ :: parseAuthorizedKeys T rest := by
  by_cases hlabel : p.label = []
  · have hrow : renderPeer T p ++ rest = p.pubkey.toSshString T ++ '\n' :: rest := by
      simp [renderPeer_unlabelled hlabel]
    rw [hrow, parseAuthorizedKeys_append_cons (newline_not_mem_toSshString _),
      stripReturn_toSshString, parseLine_unlabelled, hlabel]
    rfl
  · have hrow : renderPeer T p ++ rest =
        (p.pubkey.toSshString T ++ ' ' :: p.label) ++ '\n' :: rest := by
      simp [renderPeer_labelled hlabel]
    have hline : '\n' ∉ p.pubkey.toSshString T ++ ' ' :: p.label := by
      have hkey := newline_not_mem_toSshString (T := T) p.pubkey
      grind
    rw [hrow, parseAuthorizedKeys_append_cons hline, stripReturn_labelled, parseLine_labelled,
      trim_stripReturn]
    rfl

/-- Of a label of several lines the first is read, and the others as lines of their own. -/
theorem parse_renderPeer_lines {p : AuthorizedPeer} {a b : Str} (hlabel : p.label = a ++ '\n' :: b)
    (ha : '\n' ∉ a) (rest : Str) : parseAuthorizedKeys T (renderPeer T p ++ rest) =
      ⟨p.pubkey, trim a⟩ :: (parseAuthorizedKeys T (b ++ ['\n']) ++ parseAuthorizedKeys T rest) := by
  have hrow : renderPeer T p ++ rest =
      (p.pubkey.toSshString T ++ ' ' :: a) ++ '\n' :: (b ++ '\n' :: rest) := by
    simp [renderPeer_labelled (p := p) (by simp [hlabel]), hlabel]
  have hline : '\n' ∉ p.pubkey.toSshString T ++ ' ' :: a := by
    have hkey := newline_not_mem_toSshString (T := T) p.pubkey
    grind
  rw [hrow, parseAuthorizedKeys_append_cons hline, stripReturn_labelled, parseLine_labelled,
    trim_stripReturn, parseAuthorizedKeys_append]
  rfl

/-- The header holds no peers. -/
theorem parse_header (s : Str) :
    parseAuthorizedKeys T (authorizedKeysHeader ++ s) = parseAuthorizedKeys T s := by
  have hheader : (authorizedKeysHeader.getLast? == some '\n' &&
      (lines authorizedKeysHeader).all fun line => line.isEmpty || line.head? == some '#') = true := by
    decide +kernel
  obtain ⟨hlast, hlines⟩ := Bool.and_eq_true_iff.mp hheader
  obtain ⟨front, hend⟩ := List.getLast?_eq_some_iff.mp (eq_of_beq hlast)
  have hnone : parseAuthorizedKeys T authorizedKeysHeader = [] := by
    refine List.filterMap_eq_nil_iff.mpr fun line hline => ?_
    have hskip := List.all_eq_true.mp hlines line hline
    cases line with
    | nil => rfl
    | cons c rest =>
      obtain rfl : c = '#' := by simpa using hskip
      exact parseLine_comment rest
  rw [hend, List.append_assoc, List.singleton_append, parseAuthorizedKeys_append, ← hend, hnone]
  rfl

section FirstLine

variable {label a b : Str} (hlabel : label = a ++ '\n' :: b)
include hlabel

/-- The first line of a label says all of it exactly when only white space follows. -/
theorem trim_firstLine : trim a = trim label ↔ ∀ c ∈ b, isWhitespace c = true := by
  subst hlabel
  constructor
  · intro htrim
    have hsplit := congrArg splitWhitespace htrim
    rw [splitWhitespace_trim, splitWhitespace_trim, splitWhitespace_append_cons (by decide)] at hsplit
    exact blank_of_splitWhitespace (List.self_eq_append_right.mp hsplit)
  · intro hb
    exact (trim_append_blank (List.forall_mem_cons.mpr ⟨by decide, hb⟩) a).symm

theorem newline_trimEnd (ha : '\n' ∉ a) :
    '\n' ∉ trimEnd label ↔ ∀ c ∈ b, isWhitespace c = true := by
  constructor
  · intro hend
    have hsplit : trimEnd label ++ label.rtakeWhile isWhitespace = a ++ '\n' :: b :=
      List.rdropWhile_append_rtakeWhile.trans hlabel
    have hblank := blank_rtakeWhile label
    rcases List.append_eq_append_iff.mp hsplit with ⟨mid, -, hrest⟩ | ⟨mid, hmid, hrest⟩
    · rw [hrest] at hblank
      exact fun c hc => hblank c (List.mem_append_right _ (List.mem_cons_of_mem _ hc))
    · cases mid with
      | nil =>
        rw [← show '\n' :: b = label.rtakeWhile isWhitespace from hrest] at hblank
        exact fun c hc => hblank c (List.mem_cons_of_mem _ hc)
      | cons c mid =>
        obtain rfl : '\n' = c := (List.cons.inj hrest).1
        rw [hmid] at hend
        exact absurd (List.mem_append_right _ List.mem_cons_self) hend
  · intro hb hin
    have hblank : ∀ c ∈ '\n' :: b, isWhitespace c = true :=
      List.forall_mem_cons.mpr ⟨by decide, hb⟩
    rw [hlabel, trimEnd, Trimming.rdropWhile_append_of_forall hblank] at hin
    exact ha (mem_trimEnd hin)

end FirstLine

/-- Peers of the same keys and, up to white space around them, the same labels. -/
def AuthorizedPeer.Same (p q : AuthorizedPeer) : Prop :=
  q.pubkey = p.pubkey ∧ trim q.label = trim p.label

variable (T)

/-- **A rendered list is read back exactly when no label goes on after a newline.** -/
theorem parse_render_iff (peers : List AuthorizedPeer) :
    List.Forall₂ AuthorizedPeer.Same peers
        (parseAuthorizedKeys T (renderAuthorizedKeys T peers)) ↔
      ∀ p ∈ peers, '\n' ∉ trimEnd p.label := by
  rw [renderAuthorizedKeys, parse_header]
  induction peers with
  | nil => simp [parseAuthorizedKeys, lines]
  | cons p rest ih =>
    rw [List.flatMap_cons, List.forall_mem_cons, ← ih]
    rcases newline_or p.label with hlabel | ⟨a, b, hlabel, ha⟩
    · have hend : '\n' ∉ trimEnd p.label := fun hin => hlabel (mem_trimEnd hin)
      rw [parse_renderPeer hlabel, List.forall₂_cons]
      simp [AuthorizedPeer.Same, trim_trim, hend]
    · rw [parse_renderPeer_lines hlabel ha, List.forall₂_cons, newline_trimEnd hlabel ha,
        ← trim_firstLine hlabel]
      simp only [AuthorizedPeer.Same, trim_trim, true_and]
      refine and_congr_right fun htrim => ?_
      have hblank : ∀ c ∈ b ++ ['\n'], isWhitespace c = true :=
        List.forall_mem_append.mpr ⟨(trim_firstLine hlabel).mp htrim,
          List.forall_mem_singleton.mpr rfl⟩
      rw [parseAuthorizedKeys_blank hblank, List.nil_append]

private def injected : List AuthorizedPeer :=
  [⟨.fill 1, txt "phone\n" ++ Pubkey.toSshString standardText (.fill 2)⟩]

/-- A label with a key on its second line authorizes that key as well. -/
theorem parse_render_injected :
    ¬ List.Forall₂ AuthorizedPeer.Same injected
        (parseAuthorizedKeys standardText (renderAuthorizedKeys standardText injected)) ∧
      (parseAuthorizedKeys standardText (renderAuthorizedKeys standardText injected)).map
        AuthorizedPeer.pubkey = [.fill 1, .fill 2] := by
  have hread : parseAuthorizedKeys standardText (renderAuthorizedKeys standardText injected) =
      [⟨.fill 1, txt "phone"⟩, ⟨.fill 2, []⟩] := by
    have hsecond := parse_renderPeer (T := standardText) (p := ⟨.fill 2, []⟩) (by simp) []
    rw [renderPeer_unlabelled rfl, List.append_nil] at hsecond
    rw [renderAuthorizedKeys, parse_header, injected, List.flatMap_singleton,
      ← List.append_nil (renderPeer _ _),
      parse_renderPeer_lines (a := txt "phone") (b := Pubkey.toSshString standardText (.fill 2))
        rfl (by decide), hsecond]
    rfl
  have hkeys := congrArg (List.map AuthorizedPeer.pubkey) hread
  refine ⟨fun hsame => ?_, hkeys⟩
  have hlen := congrArg List.length hkeys
  rw [List.length_map, ← hsame.length_eq] at hlen
  cases hlen

/-! ### What is read can be rendered -/

/-- A label as the parser leaves it. -/
structure AuthorizedPeer.Tidy (p : AuthorizedPeer) : Prop where
  trimmed : trim p.label = p.label
  line : '\n' ∉ p.label

variable {T}

/-- A label is a part of its line, trimmed. -/
theorem tidy_of_trim {s : Str} (h : '\n' ∉ s) (key : Pubkey) :
    AuthorizedPeer.Tidy ⟨key, trim s⟩ := ⟨trim_trim s, fun hin => h (Trimming.mem_of_mem_trim hin)⟩

theorem mem_of_mem_splitn {p : Char → Bool} {n : Nat} {s piece : Str} {c : Char}
    (h : piece ∈ splitn p n s) (hc : c ∈ piece) : c ∈ s := by
  fun_induction splitn p n s with
  | case1 => cases h
  | case2 s =>
    obtain rfl := List.mem_singleton.mp h
    exact hc
  | case3 n s hrest =>
    obtain rfl := List.mem_singleton.mp h
    exact hc
  | case4 n s sep rest hrest ih =>
    cases List.mem_cons.mp h with
    | inl hpiece =>
      subst hpiece
      exact (List.takeWhile_sublist _).subset hc
    | inr hpiece =>
      exact (List.dropWhile_sublist _).subset (hrest ▸ List.mem_cons_of_mem _ (ih hpiece))

theorem tidy_of_parsePieces {pieces : List Str} {peer : AuthorizedPeer}
    (h : parsePieces T pieces = some peer) (hpieces : ∀ s ∈ pieces, '\n' ∉ s) : peer.Tidy := by
  match pieces with
  | [] => cases h
  | [_] => cases h
  | kind :: blob :: rest =>
    obtain ⟨key, -, rfl⟩ := Option.map_eq_some_iff.mp h
    cases rest with
    | nil => exact tidy_of_trim (s := []) (by simp) key
    | cons label more => exact tidy_of_trim (hpieces label (by simp)) key

theorem tidy_of_splitKeyAndLabel {s : Str} (h : '\n' ∉ s) (key : Pubkey) :
    AuthorizedPeer.Tidy ⟨key, (splitKeyAndLabel s).2⟩ := by
  unfold splitKeyAndLabel
  split
  next keyPart rest hsplit =>
    obtain ⟨sep, -, hsep⟩ := List.exists_of_findSome?_eq_some hsplit
    obtain ⟨⟨mid, rfl, -⟩, -⟩ := List.dropInfix?_eq_some_iff.mp hsep
    exact tidy_of_trim (fun hin => h (List.mem_append_right _ hin)) key
  next => exact tidy_of_trim (s := []) (by simp) key

theorem tidy_of_parseLegacy {body : Str} {peer : AuthorizedPeer} (h : parseLegacy T body = some peer)
    (hbody : '\n' ∉ body) : peer.Tidy := by
  cases hsplit : splitKeyAndLabel body with
  | mk keyPart label =>
    simp only [parseLegacy, hsplit, Option.map_eq_some_iff] at h
    obtain ⟨key, -, rfl⟩ := h
    have htidy := tidy_of_splitKeyAndLabel hbody key
    rwa [hsplit] at htidy

theorem tidy_of_parseLine {raw : Str} {peer : AuthorizedPeer} (h : parseLine T raw = some peer)
    (hraw : '\n' ∉ raw) : peer.Tidy := by
  have hbody : '\n' ∉ (stripListMarker (trimStart raw)).getD (trimStart raw) := by
    have htrimmed : '\n' ∉ trimStart raw := fun hin => hraw ((List.dropWhile_sublist _).subset hin)
    cases hmarker : stripListMarker (trimStart raw) with
    | none => exact htrimmed
    | some rest =>
      obtain ⟨marker, -, hdrop⟩ := List.exists_of_findSome?_eq_some hmarker
      obtain ⟨front, hfront, -⟩ := List.dropPrefix?_eq_some_iff.mp hdrop
      exact fun hin => htrimmed (hfront ▸ List.mem_append_right _ hin)
  unfold parseLine at h
  dsimp only at h
  split at h
  next => cases h
  next =>
    split at h
    next => cases h
    next =>
      split at h
      next => exact tidy_of_parseLegacy h hbody
      next =>
        exact tidy_of_parsePieces h fun piece hpiece hin => hbody (mem_of_mem_splitn hpiece hin)

theorem tidy_of_parse {content : Str} {peer : AuthorizedPeer}
    (h : peer ∈ parseAuthorizedKeys T content) : peer.Tidy := by
  obtain ⟨line, hline, hpeer⟩ := List.mem_filterMap.mp h
  exact tidy_of_parseLine hpeer (mem_lines hline).1

/-- Peers that were read are read back as they were. -/
theorem parse_render_of_tidy {peers : List AuthorizedPeer} (h : ∀ p ∈ peers, p.Tidy) :
    parseAuthorizedKeys T (renderAuthorizedKeys T peers) = peers := by
  rw [renderAuthorizedKeys, parse_header]
  induction peers with
  | nil => rfl
  | cons p rest ih =>
    obtain ⟨hp, hrest⟩ := List.forall_mem_cons.mp h
    rw [List.flatMap_cons, parse_renderPeer hp.line, ih hrest, hp.trimmed]

end AgentSync.Net
