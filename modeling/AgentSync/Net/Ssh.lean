import Mathlib.Data.List.DropRight
import AgentSync.Base64
import AgentSync.Trimming
import AgentSync.Net.Auth

/-! The SSH text of a public key.

`authorized_keys` and `[vault] hub_pubkey` hold a key as `ssh-ed25519` and the base64 of two
length-prefixed strings, its type again and its bytes. What `to_ssh_string` writes,
`from_ssh_string` reads back (`Pubkey.fromSshString_toSshString`). -/
namespace AgentSync.Net

/-- `char::is_whitespace`: the Unicode property `White_Space`. -/
def isWhitespace (c : Char) : Bool :=
  9 ≤ c.toNat && c.toNat ≤ 13 || 0x2000 ≤ c.toNat && c.toNat ≤ 0x200a ||
    [0x20, 0x85, 0xa0, 0x1680, 0x2028, 0x2029, 0x202f, 0x205f, 0x3000].contains c.toNat

/-- `str::trim`. -/
def trim (s : Str) : Str := (s.dropWhile isWhitespace).rdropWhile isWhitespace

theorem trim_eq (s : Str) : trim s = Trimming.trim isWhitespace s := rfl

/-- `str::split_whitespace`. -/
def splitWhitespace (s : Str) : List Str := (s.splitOnP isWhitespace).filter fun p => !p.isEmpty

theorem graphic_of_all {s : Str} (h : s.all (fun c => !isWhitespace c) = true) :
    ∀ c ∈ s, isWhitespace c = false := by simpa using h

/-- The standard base64 of another crate, and what an error shows of a string. -/
structure TextFormat where
  encode : Bytes → Str
  decode : Str → Except Str Bytes
  /-- `{:?}`. -/
  debug : Str → Str
  fromUtf8Lossy : Bytes → Str
  decode_encode : ∀ b, decode (encode b) = .ok b
  encode_nil : encode [] = []
  encode_graphic : ∀ b, ∀ c ∈ encode b, isWhitespace c = false

/-- The standard alphabet; strings are shown without escapes, bytes as Latin-1. -/
def standardText : TextFormat where
  encode := Base64.encode
  decode := fun s => match Base64.decode s with
    | some b => .ok b
    | none => .error (txt "Invalid padding")
  debug := fun s => txt "\"" ++ s ++ txt "\""
  fromUtf8Lossy := List.map fun b => Char.ofNat b.toNat
  decode_encode := fun b => by rw [Base64.decode_encode]
  encode_nil := rfl
  encode_graphic := fun b c hc => by
    rcases Base64.mem_encode hc with h | rfl
    · exact graphic_of_all (by decide) c h
    · rfl

variable (T : TextFormat)

theorem TextFormat.encode_ne_nil {b : Bytes} (hb : b ≠ []) : T.encode b ≠ [] := by
  intro h
  have hdecode : T.decode (T.encode b) = T.decode (T.encode []) := by rw [h, T.encode_nil]
  rw [T.decode_encode, T.decode_encode] at hdecode
  exact hb (Except.ok.inj hdecode)

def sshKeyType : Str := txt "ssh-ed25519"

def asciiBytes (s : Str) : Bytes := s.map fun c => UInt8.ofNat c.toNat

/-- `u32::to_be_bytes`. -/
def toBeBytes (n : Nat) : Bytes :=
  [UInt8.ofNat (n / 0x1000000), UInt8.ofNat (n / 0x10000), UInt8.ofNat (n / 0x100), UInt8.ofNat n]

/-- `u32::from_be_bytes`. -/
def fromBeBytes (a b c d : UInt8) : Nat :=
  a.toNat * 0x1000000 + b.toNat * 0x10000 + c.toNat * 0x100 + d.toNat

def encodeSshWire (pubkey : Pubkey) : Bytes :=
  toBeBytes sshKeyType.length ++ asciiBytes sshKeyType ++ toBeBytes pubkeyLen ++ pubkey.val

/-- `read_ssh_string`: the string at the cursor, and what follows it. -/
def readSshString : Bytes → Except Error (Bytes × Bytes)
  | a :: b :: c :: d :: buf =>
    if buf.length < fromBeBytes a b c d then
      .error (.auth (txt "truncated ssh wire string body"))
    else .ok (buf.splitAt (fromBeBytes a b c d))
  | _ => .error (.auth (txt "truncated ssh wire string length"))

def decodeSshWire (wire : Bytes) : Except Error Pubkey := do
  let (kind, rest) ← readSshString wire
  if kind != asciiBytes sshKeyType then
    .error (.auth (txt "ssh pubkey type tag mismatch: got " ++ T.debug (T.fromUtf8Lossy kind)))
  else
    let (pubkeyBytes, _) ← readSshString rest
    match Array32.ofBytes? pubkeyBytes with
    | none => .error (.auth (txt "ssh pubkey body wrong length: got " ++
        (toString pubkeyBytes.length).toList ++ txt ", want " ++ (toString pubkeyLen).toList))
    | some out => .ok out

/-- `Pubkey::to_ssh_string`. -/
def Pubkey.toSshString (key : Pubkey) : Str :=
  sshKeyType ++ txt " " ++ T.encode (encodeSshWire key)

/-- `Pubkey::from_ssh_string`. -/
def Pubkey.fromSshString (s : Str) : Except Error Pubkey :=
  match splitWhitespace (trim s) with
  | [] => .error (.auth (txt "empty ssh pubkey string"))
  | kind :: parts =>
    if kind != sshKeyType then
      .error (.auth (txt "unsupported pubkey type " ++ T.debug kind ++ txt ", want " ++ sshKeyType))
    else
      match parts with
      | [] => .error (.auth (txt "missing base64 portion of ssh pubkey"))
      | b64 :: _ =>
        match T.decode b64 with
        | .error e => .error (.auth (txt "ssh pubkey base64: " ++ e))
        | .ok wire => decodeSshWire T wire

/-! ### The wire form of a key -/

/-- What every wire form starts with: the length and the text of the type, and the length of
the key. -/
def sshHeader : Bytes := toBeBytes sshKeyType.length ++ asciiBytes sshKeyType ++ toBeBytes pubkeyLen

theorem encodeSshWire_eq (key : Pubkey) : encodeSshWire key = sshHeader ++ key.val := rfl

theorem sshHeader_length : sshHeader.length = 19 := rfl

theorem encodeSshWire_length (key : Pubkey) : (encodeSshWire key).length = 51 := by
  rw [encodeSshWire_eq, List.length_append, sshHeader_length, key.property]

theorem toBeBytes_fromBeBytes (a b c d : UInt8) : toBeBytes (fromBeBytes a b c d) = [a, b, c, d] := by
  have ha := a.toNat_lt
  have hb := b.toNat_lt
  have hc := c.toNat_lt
  have hd := d.toNat_lt
  simp only [toBeBytes, fromBeBytes, List.cons.injEq, and_true, ← UInt8.toNat_inj,
    UInt8.toNat_ofNat']
  omega

/-- A string that was read stood at the cursor behind its length. -/
theorem eq_of_readSshString {buf s rest : Bytes} (h : readSshString buf = .ok (s, rest)) :
    buf = toBeBytes s.length ++ s ++ rest := by
  unfold readSshString at h
  split at h
  next a b c d buf =>
    split at h
    next => cases h
    next hlen =>
      rw [List.splitAt_eq] at h
      obtain ⟨rfl, rfl⟩ := Prod.mk.inj (Except.ok.inj h)
      rw [List.length_take, Nat.min_eq_left (Nat.le_of_not_lt hlen), toBeBytes_fromBeBytes,
        List.append_assoc, List.take_append_drop]
      rfl
  next => cases h

theorem readSshString_append {s : Bytes} (hs : s.length < 256) (rest : Bytes) :
    readSshString (toBeBytes s.length ++ s ++ rest) = .ok (s, rest) := by
  have hlen : fromBeBytes (UInt8.ofNat (s.length / 0x1000000)) (UInt8.ofNat (s.length / 0x10000))
      (UInt8.ofNat (s.length / 0x100)) (UInt8.ofNat s.length) = s.length := by
    simp only [fromBeBytes, UInt8.toNat_ofNat']
    omega
  rw [List.append_assoc]
  show (if (s ++ rest).length < fromBeBytes _ _ _ _ then _
    else Except.ok ((s ++ rest).splitAt (fromBeBytes _ _ _ _))) = _
  rw [hlen, if_neg (by rw [List.length_append]; omega), List.splitAt_eq, List.take_left,
    List.drop_left]

theorem asciiBytes_length (s : Str) : (asciiBytes s).length = s.length := List.length_map _

/-- **The decoder reads a wire form and ignores what follows it.** -/
theorem decodeSshWire_eq_ok {wire : Bytes} {key : Pubkey} :
    decodeSshWire T wire = .ok key ↔ encodeSshWire key <+: wire := by
  constructor
  · intro h
    obtain ⟨⟨kind, rest⟩, hkind, h⟩ := bind_eq_ok.mp h
    dsimp only at h
    split at h
    next => cases h
    next htag =>
      obtain ⟨⟨body, rest'⟩, hbody, h⟩ := bind_eq_ok.mp h
      dsimp only at h
      split at h
      next => cases h
      next out hout =>
        obtain rfl := Except.ok.inj h
        obtain rfl := Array32.ofBytes?_eq_some.mp hout
        refine ⟨rest', ?_⟩
        rw [eq_of_readSshString hkind, eq_of_readSshString hbody,
          show kind = asciiBytes sshKeyType by simpa using htag, encodeSshWire, out.property,
          asciiBytes_length]
        simp only [List.append_assoc]
        rfl
  · rintro ⟨rest, rfl⟩
    have hkind : readSshString (encodeSshWire key ++ rest) =
        .ok (asciiBytes sshKeyType, toBeBytes pubkeyLen ++ key.val ++ rest) := by
      rw [encodeSshWire, List.append_assoc, List.append_assoc, ← asciiBytes_length]
      simpa only [List.append_assoc] using
        readSshString_append (s := asciiBytes sshKeyType) (by rw [asciiBytes_length]; decide) _
    have hbody : readSshString (toBeBytes pubkeyLen ++ key.val ++ rest) = .ok (key.val, rest) := by
      have h := @readSshString_append key.val (by rw [key.property]; decide) rest
      rwa [key.property] at h
    simp only [decodeSshWire, hkind, hbody, bind, Except.bind, bne_self_eq_false,
      Bool.false_eq_true, if_false, Array32.ofBytes?_val]

theorem decodeSshWire_encodeSshWire (key : Pubkey) :
    decodeSshWire T (encodeSshWire key) = .ok key :=
  (decodeSshWire_eq_ok T).mpr (List.prefix_refl _)

/-- **A key has one wire form, and a string is taken for another only if it goes on after it.** -/
theorem decodeSshWire_canonical (wire : Bytes) :
    (∀ key, decodeSshWire T (encodeSshWire key) = .ok key) ∧
      ((∀ key, decodeSshWire T wire = .ok key → wire = encodeSshWire key) ↔
        wire.length ≤ 51 ∨ ¬ sshHeader <+: wire) := by
  refine ⟨decodeSshWire_encodeSshWire T, fun h => ?_, fun h key hkey => ?_⟩
  · by_contra hlong
    obtain ⟨hlen, hheader⟩ := not_or.mp hlong
    obtain ⟨rest, rfl⟩ := not_not.mp hheader
    rw [List.length_append, sshHeader_length] at hlen
    have hbody : (rest.take 32).length = 32 := by
      rw [List.length_take]
      omega
    have hkey := h ⟨rest.take 32, hbody⟩ ((decodeSshWire_eq_ok T).mpr
      ((List.prefix_append_right_inj _).mpr (List.take_prefix _ _)))
    have hfit := congrArg List.length hkey
    rw [encodeSshWire_length, List.length_append, sshHeader_length] at hfit
    omega
  · have hbegins := (decodeSshWire_eq_ok T).mp hkey
    cases h with
    | inl hlen =>
      exact (hbegins.eq_of_length_le (by rw [encodeSshWire_length]; exact hlen)).symm
    | inr hheader => exact absurd ((List.prefix_append _ _).trans hbegins) hheader

/-- A byte after the wire form goes unnoticed. -/
theorem decodeSshWire_trailing :
    decodeSshWire standardText (encodeSshWire (.fill 7) ++ [0]) = .ok (.fill 7) ∧
      encodeSshWire (.fill 7) ++ [0] ≠ encodeSshWire (.fill 7) :=
  ⟨(decodeSshWire_eq_ok _).mpr (List.prefix_append _ _), by simp⟩

/-! ### Reading back -/

theorem splitWhitespace_pair {a b : Str} (ha : ∀ c ∈ a, isWhitespace c = false)
    (hb : ∀ c ∈ b, isWhitespace c = false) (hna : a ≠ []) (hnb : b ≠ []) :
    splitWhitespace (a ++ ' ' :: b) = [a, b] := by
  rw [splitWhitespace, List.splitOnP_append_cons_of_forall_mem ha _ (by decide),
    List.splitOnP_eq_singleton hb]
  simp [hna, hnb]

/-- **A key survives its SSH text.** -/
theorem Pubkey.fromSshString_toSshString (key : Pubkey) :
    Pubkey.fromSshString T (key.toSshString T) = .ok key := by
  have hne : T.encode (encodeSshWire key) ≠ [] := T.encode_ne_nil (by
    simp [encodeSshWire, toBeBytes])
  have hkind : ∀ c ∈ sshKeyType, isWhitespace c = false := graphic_of_all (by decide)
  have htext : key.toSshString T = sshKeyType ++ ' ' :: T.encode (encodeSshWire key) := by
    rw [Pubkey.toSshString, List.append_assoc]
    rfl
  have htrim : trim (key.toSshString T) = key.toSshString T := by
    refine Trimming.trim_of_bare ⟨?_, ?_⟩
    · intro c hc
      apply hkind c
      rw [htext, List.head?_append_of_ne_nil _ (by decide)] at hc
      exact List.mem_of_head? hc
    · intro c hc
      apply T.encode_graphic (encodeSshWire key) c
      rw [Pubkey.toSshString, List.getLast?_append_of_ne_nil _ hne] at hc
      exact List.mem_of_getLast? hc
  have hparts : splitWhitespace (trim (key.toSshString T)) =
      [sshKeyType, T.encode (encodeSshWire key)] := by
    rw [htrim, htext]
    exact splitWhitespace_pair hkind (T.encode_graphic _) (by decide) hne
  simp only [Pubkey.fromSshString, hparts, bne_self_eq_false, Bool.false_eq_true, if_false,
    T.decode_encode, decodeSshWire_encodeSshWire]

end AgentSync.Net
