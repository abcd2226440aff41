import Mathlib.Data.Bool.AllAny
import AgentSync.Inodes
import AgentSync.Net.Identity

/-! The files of a device's keys, and a crash while they are written.

The hub keeps a certificate and its private key, a device the seed of its identity. All three are
written in place: a file is emptied when it is opened and then filled, the key before the
certificate. What exists is what is loaded, so a certificate that a crash has cut off stays
(`Torn.after`), and an identity that is saved over another is gone until nearly all of it is
written. Apart from that a crash costs nothing (`keys_survive_iff`). -/
namespace AgentSync.Net

/-! ### The certificate of the hub -/

def certFile : Str := txt "tls.crt"
def keyFile : Str := txt "tls.key"

theorem keyFile_ne_certFile : keyFile ≠ certFile := by decide

/-- A certificate and its private key, as DER. -/
structure KeyPair where
  cert : Bytes
  key : Bytes
  deriving DecidableEq, Repr

/-- Certificates, which come from another crate. DER says how long it is, so a certificate that is
cut off is none. -/
structure Certificates where
  /-- The certificate is complete, and its public key belongs to the private key. -/
  Belongs : KeyPair → Prop
  whole : ∀ pair cert, Belongs pair → cert <+: pair.cert → cert ≠ pair.cert →
    ¬ Belongs ⟨cert, pair.key⟩

/-- `load_or_generate_self_signed`: its result, and the files it writes before, one after the
other. `fresh` is what `generate_self_signed` gives. -/
def loadOrGenerate (f : Folder Str UInt8) (fresh : Except Error KeyPair) :
    Except Error KeyPair × List (Str × Bytes) :=
  match f.read certFile, f.read keyFile with
  | some cert, some key => (.ok ⟨cert, key⟩, [])
  | _, _ =>
    match fresh with
    | .error e => (.error e, [])
    | .ok pair => (.ok pair, [(keyFile, pair.key), (certFile, pair.cert)])

/-- A call that is cut off after `steps` of its steps, or is through by then. -/
structure Call where
  fresh : KeyPair
  steps : Nat
  deriving DecidableEq, Repr

def Call.run (f : Folder Str UInt8) (c : Call) : Folder Str UInt8 :=
  f.writesInPlace 0 (loadOrGenerate f (.ok c.fresh)).2 c.steps

/-- What call after call leaves, each of which may have been cut off. -/
def runCalls (f : Folder Str UInt8) (calls : List Call) : Folder Str UInt8 := calls.foldl Call.run f

/-- The pair is what the two files hold. -/
def Stored (f : Folder Str UInt8) (pair : KeyPair) : Prop :=
  f.read certFile = some pair.cert ∧ f.read keyFile = some pair.key

/-- There is nothing yet to be loaded. -/
def Missing (f : Folder Str UInt8) : Prop := f.read certFile = none ∨ f.read keyFile = none

variable (C : Certificates)

/-- The hub can start: the next call loads a certificate that belongs to its key, or stores a new
one. -/
def Survives (f : Folder Str UInt8) : Prop :=
  ∀ fresh, C.Belongs fresh → ∃ pair, (loadOrGenerate f (.ok fresh)).1 = .ok pair ∧ C.Belongs pair ∧
    ∀ steps, pair.key.length + pair.cert.length + 2 ≤ steps → Stored (Call.run f ⟨fresh, steps⟩) pair

/-- The call is cut off when it has created the certificate, and before it has written all of it. -/
def Call.Tears (f : Folder Str UInt8) (c : Call) : Prop :=
  Missing f ∧ c.fresh.key.length + 1 < c.steps ∧
    c.steps < c.fresh.key.length + c.fresh.cert.length + 2

/-- No call of the run is cut off there. -/
def NoneTears : Folder Str UInt8 → List Call → Prop
  | _, [] => True
  | f, c :: rest => ¬ c.Tears f ∧ NoneTears (c.run f) rest

/-- The hub starts with what there is, or finds something missing. -/
def Sound (f : Folder Str UInt8) : Prop :=
  f.read certFile = none ∨ ∃ pair, Stored f pair ∧ C.Belongs pair

/-- A certificate that is cut off stands beside a key that is not. -/
def Torn (f : Folder Str UInt8) : Prop :=
  ∃ pair cert, C.Belongs pair ∧ cert <+: pair.cert ∧ cert ≠ pair.cert ∧ Stored f ⟨cert, pair.key⟩

variable {C} {f : Folder Str UInt8} {c : Call} {pair fresh : KeyPair}

/-! ### One call -/

theorem loadOrGenerate_of_stored (h : Stored f pair) (fresh : Except Error KeyPair) :
    loadOrGenerate f fresh = (.ok pair, []) := by
  simp only [loadOrGenerate, h.1, h.2]

theorem loadOrGenerate_of_missing (h : Missing f) :
    loadOrGenerate f (.ok fresh) = (.ok fresh, [(keyFile, fresh.key), (certFile, fresh.cert)]) := by
  unfold loadOrGenerate
  split
  next cert key hcert hkey =>
    obtain h | h := h
    · rw [h] at hcert
      cases hcert
    · rw [h] at hkey
      cases hkey
  next => rfl

/-- What exists is not written again. -/
theorem Call.run_of_stored (h : Stored f pair) : c.run f = f := by
  rw [Call.run, loadOrGenerate_of_stored h]
  rfl

theorem Call.read_cert (h : Missing f) :
    (c.run f).read certFile =
      if c.fresh.key.length + 1 < c.steps then
        some (c.fresh.cert.take (c.steps - (c.fresh.key.length + 2)))
      else f.read certFile := by
  rw [Call.run, loadOrGenerate_of_missing h,
    Folder.read_writesInPlace_two 0 _ _ keyFile_ne_certFile]
  simp [keyFile_ne_certFile.symm]

theorem Call.read_key (h : Missing f) :
    (c.run f).read keyFile =
      if 0 < c.steps then some (c.fresh.key.take (c.steps - 1)) else f.read keyFile := by
  rw [Call.run, loadOrGenerate_of_missing h,
    Folder.read_writesInPlace_two 0 _ _ keyFile_ne_certFile]
  simp [keyFile_ne_certFile]

/-- Once the certificate is created the key is whole. -/
theorem Call.stored (h : Missing f) (hsteps : c.fresh.key.length + 1 < c.steps) :
    Stored (c.run f) ⟨c.fresh.cert.take (c.steps - (c.fresh.key.length + 2)), c.fresh.key⟩ := by
  refine ⟨?_, ?_⟩
  · rw [Call.read_cert h, if_pos hsteps]
  · rw [Call.read_key h, if_pos (by omega), List.take_of_length_le (by omega)]

theorem Call.stored_fresh (h : Missing f)
    (hsteps : c.fresh.key.length + c.fresh.cert.length + 2 ≤ c.steps) :
    Stored (c.run f) c.fresh := by
  have hstored := Call.stored h (show c.fresh.key.length + 1 < c.steps by omega)
  rwa [List.take_of_length_le (by omega)] at hstored

/-! ### Any number of calls -/

theorem Call.sound (h : Sound C f) (hfresh : C.Belongs c.fresh) (htears : ¬ c.Tears f) :
    Sound C (c.run f) := by
  obtain hnone | ⟨pair, hstored, hbelongs⟩ := h
  · have hmissing : Missing f := .inl hnone
    by_cases hsteps : c.fresh.key.length + 1 < c.steps
    · have hwhole : c.fresh.key.length + c.fresh.cert.length + 2 ≤ c.steps := by
        by_contra hlt
        exact htears ⟨hmissing, hsteps, by omega⟩
      exact .inr ⟨c.fresh, Call.stored_fresh hmissing hwhole, hfresh⟩
    · left
      rw [Call.read_cert hmissing, if_neg hsteps, hnone]
  · rw [Call.run_of_stored hstored]
    exact .inr ⟨pair, hstored, hbelongs⟩

theorem Call.torn (hfresh : C.Belongs c.fresh) (htears : c.Tears f) : Torn C (c.run f) := by
  obtain ⟨hmissing, hkey, hcert⟩ := htears
  refine ⟨c.fresh, _, hfresh, List.take_prefix _ _, ?_, Call.stored hmissing hkey⟩
  intro heq
  have hlen := congrArg List.length heq
  rw [List.length_take] at hlen
  omega

/-- A torn certificate is loaded by every call after. -/
theorem Torn.after (h : Torn C f) (calls : List Call) : Torn C (runCalls f calls) := by
  obtain ⟨pair, cert, hbelongs, hprefix, hne, hstored⟩ := h
  have hrun : runCalls f calls = f := by
    induction calls with
    | nil => rfl
    | cons c rest ih =>
      rw [runCalls, List.foldl_cons, Call.run_of_stored hstored]
      exact ih
  rw [hrun]
  exact ⟨pair, cert, hbelongs, hprefix, hne, hstored⟩

theorem Torn.not_survives (h : Torn C f) : ¬ Survives C f := by
  obtain ⟨pair, cert, hbelongs, hprefix, hne, hstored⟩ := h
  intro hsurvives
  obtain ⟨loaded, hload, hloaded, -⟩ := hsurvives pair hbelongs
  rw [loadOrGenerate_of_stored hstored] at hload
  obtain rfl := Except.ok.inj hload
  exact C.whole pair cert hbelongs hprefix hne hloaded

theorem Sound.survives (h : Sound C f) : Survives C f := by
  intro fresh hfresh
  obtain hnone | ⟨pair, hstored, hbelongs⟩ := h
  · have hmissing : Missing f := .inl hnone
    refine ⟨fresh, by rw [loadOrGenerate_of_missing hmissing], hfresh, fun steps hsteps => ?_⟩
    exact Call.stored_fresh hmissing hsteps
  · refine ⟨pair, by rw [loadOrGenerate_of_stored hstored], hbelongs, fun steps _ => ?_⟩
    rw [Call.run_of_stored hstored]
    exact hstored

theorem runCalls_sound_or_torn {calls : List Call} (h : Sound C f)
    (hcalls : ∀ c ∈ calls, C.Belongs c.fresh) :
    (NoneTears f calls ∧ Sound C (runCalls f calls)) ∨
      (¬ NoneTears f calls ∧ Torn C (runCalls f calls)) := by
  induction calls generalizing f with
  | nil => exact .inl ⟨trivial, h⟩
  | cons c rest ih =>
    have hfresh := hcalls c List.mem_cons_self
    by_cases htears : c.Tears f
    · exact .inr ⟨fun hnone => hnone.1 htears, (Call.torn hfresh htears).after rest⟩
    · obtain ⟨hnone, hsound⟩ | ⟨hnone, htorn⟩ :=
        ih (Call.sound h hfresh htears) fun c' hc' => hcalls c' (List.mem_cons_of_mem _ hc')
      · exact .inl ⟨⟨htears, hnone⟩, hsound⟩
      · exact .inr ⟨fun h => hnone h.2, htorn⟩

/-- **After any run from an empty directory the hub can start where no call has torn the
certificate**, and only there. -/
theorem survives_iff {calls : List Call} (hcalls : ∀ c ∈ calls, C.Belongs c.fresh) :
    Survives C (runCalls .empty calls) ↔ NoneTears .empty calls := by
  have hempty : Sound C .empty := .inl rfl
  obtain ⟨hnone, hsound⟩ | ⟨hnone, htorn⟩ := runCalls_sound_or_torn hempty hcalls
  · exact iff_of_true hsound.survives hnone
  · exact iff_of_false htorn.not_survives hnone

/-! ### The identity of a device -/

/-- An identity: the seed in memory, or a key that an agent holds. -/
inductive Identity where
  | file (seed : Seed)
  | agent (pubkey : Pubkey)
  deriving DecidableEq

/-- `Path::set_extension`, of a file name. -/
def setExtension (name ext : Str) : Str :=
  (match extension name with
    | some old => name.take (name.length - (old.length + 1))
    | none => name) ++ '.' :: ext

def pubkeySidecar (secretPath : Str) : Str :=
  match extension secretPath with
  | some ext => setExtension secretPath (ext ++ txt ".pub")
  | none => setExtension secretPath (txt "pub")

section Save
variable (T : TextFormat) (verifyingKey : Seed → Pubkey)

def Identity.pubkey : Identity → Pubkey
  | .file seed => verifyingKey seed
  | .agent pubkey => pubkey

def Identity.seed : Identity → Except Error Seed
  | .file seed => .ok seed
  | .agent _ => .error (.auth (txt "agent-backed identity has no exportable seed"))

/-- `save_to_file`: the files it writes, one after the other. -/
def Identity.saveToFile (id : Identity) (path : Str) : Except Error (List (Str × Bytes)) := do
  let seed ← id.seed
  return [(path, utf8 (identityBody seed)),
    (pubkeySidecar path, utf8 ((id.pubkey verifyingKey).toSshString T ++ ['\n']))]

end Save

def loadFromFile (decodeError : Str → Str) (f : Folder Str UInt8) (path : Str) :
    Except LoadError Seed :=
  match f.read path with
  | none => .error (.io IoError.notFound.text)
  | some bytes => loadIdentity path decodeError bytes

variable {T : TextFormat} {verifyingKey : Seed → Pubkey} {decodeError : Str → Str} {path : Str}

/-- The two files are never one. -/
theorem pubkeySidecar_ne (path : Str) : path ≠ pubkeySidecar path := by
  intro h
  have hlen := congrArg List.length h
  unfold pubkeySidecar setExtension at hlen
  split at hlen
  next ext =>
    have hpub : (txt ".pub").length = 4 := rfl
    simp only [List.length_append, List.length_cons, List.length_take, hpub] at hlen
    omega
  next =>
    simp only [List.length_append, List.length_cons] at hlen
    omega

theorem utf8Size_symbol : ∀ c ∈ Base64.alphabet, c.utf8Size = 1 :=
  List.all_iff_forall_prop.mp (by decide)

theorem length_utf8_of_ascii {s : Str} (h : ∀ c ∈ s, c.utf8Size = 1) : (utf8 s).length = s.length := by
  induction s with
  | nil => rfl
  | cons c s ih =>
    rw [utf8_cons, List.length_append, String.length_utf8EncodeChar, h c List.mem_cons_self,
      ih fun d hd => h d (List.mem_cons_of_mem _ hd), List.length_cons, Nat.add_comm]

theorem length_le_utf8 (s : Str) : s.length ≤ (utf8 s).length := by
  induction s with
  | nil => exact Nat.le_refl _
  | cons c s ih =>
    have hpos := c.utf8Size_pos
    rw [utf8_cons, List.length_append, String.length_utf8EncodeChar, List.length_cons]
    omega

theorem length_identityBody (seed : Seed) : (utf8 (identityBody seed)).length = 66 := by
  have htag : ∀ c ∈ identityTag, c.utf8Size = 1 := List.all_iff_forall_prop.mp (by decide)
  rw [length_utf8_of_ascii]
  · rw [identityBody, List.length_append, List.length_append, length_encode_seed]
    rfl
  · rw [identityBody, List.forall_mem_append, List.forall_mem_append, List.forall_mem_singleton]
    exact ⟨⟨htag, fun c hc => utf8Size_symbol c (Base64.mem_encodeNoPad hc)⟩, rfl⟩

/-- The line is loaded without its newline too. -/
theorem holds_line (seed : Seed) : Holds (identityTag ++ Base64.encodeNoPad seed.val) seed :=
  ⟨[], [], [], by simp, by simp, by simp, by simp, by simp, .inl rfl⟩

/-- **An identity that is cut off is loaded when nothing but the newline is missing.** -/
theorem loadIdentity_take_iff {seed new : Seed} {k : Nat} :
    loadIdentity path decodeError ((utf8 (identityBody new)).take k) = .ok seed ↔
      seed = new ∧ 65 ≤ k := by
  have hlen := length_identityBody new
  have hbody : utf8 (identityBody new) =
      utf8 (identityTag ++ Base64.encodeNoPad new.val) ++ utf8 ['\n'] := by
    rw [identityBody, utf8_append]
  have hnewline : (utf8 ['\n']).length = 1 := rfl
  have hline : (utf8 (identityTag ++ Base64.encodeNoPad new.val)).length = 65 := by
    rw [hbody, List.length_append, hnewline] at hlen
    omega
  have hload (hk : 65 ≤ k) :
      loadIdentity path decodeError ((utf8 (identityBody new)).take k) = .ok new := by
    obtain hk | hk := Nat.eq_or_lt_of_le hk
    · rw [← hk, hbody, ← hline, List.take_left]
      exact loadIdentity_of_holds (holds_line new)
    · rw [List.take_of_length_le (by omega)]
      exact loadIdentity_identityBody new
  constructor
  · intro h
    obtain ⟨s, hs, front, back, rest, rfl, -⟩ := loadIdentity_eq_ok.mp h
    have hk : 65 ≤ k := by
      have hle := length_le_utf8
        (identityTag ++ (front ++ Base64.encodeNoPad seed.val ++ back) ++ rest)
      have htag : identityTag.length = 22 := rfl
      rw [← hs, List.length_take] at hle
      simp only [List.length_append, length_encode_seed, htag] at hle
      omega
    rw [hload hk] at h
    exact ⟨(Except.ok.inj h).symm, hk⟩
  · intro h
    rw [h.1]
    exact hload h.2

/-- What is loaded while one identity is saved over another. -/
theorem loadFromFile_saving_iff {f : Folder Str UInt8} {old new : Seed} {ws : List (Str × Bytes)}
    {k : Nat} (hold : loadFromFile decodeError f path = .ok old)
    (hws : (Identity.file new).saveToFile T verifyingKey path = .ok ws) :
    (∃ seed, loadFromFile decodeError (f.writesInPlace 0 ws k) path = .ok seed ∧
      (seed = old ∨ seed = new)) ↔ k = 0 ∨ (utf8 (identityBody new)).length ≤ k := by
  obtain rfl := Except.ok.inj hws
  rw [length_identityBody]
  cases k with
  | zero =>
    rw [Folder.writesInPlace_zero]
    exact iff_of_true ⟨old, hold, .inl rfl⟩ (.inl rfl)
  | succ k =>
    rw [loadFromFile, Folder.read_writesInPlace_two 0 _ _ (pubkeySidecar_ne path),
      if_pos ⟨rfl, Nat.succ_pos k⟩, Nat.add_sub_cancel]
    simp only [loadIdentity_take_iff]
    constructor
    · intro h
      obtain ⟨seed, ⟨-, hk⟩, -⟩ := h
      omega
    · intro h
      exact ⟨new, ⟨rfl, by omega⟩, .inr rfl⟩

/-! ### Both -/

/-- **Exactly when key material survives a crash.** The hub can start after a run of calls, each
cut off anywhere, if and only if none of them was cut off between the creation of the certificate
and its last byte. While an identity is saved over another, one of the two can be loaded if and
only if the file is not opened yet, or lacks no more than its newline. -/
theorem keys_survive_iff (C : Certificates) (T : TextFormat) (verifyingKey : Seed → Pubkey)
    (decodeError : Str → Str) :
    (∀ calls : List Call, (∀ c ∈ calls, C.Belongs c.fresh) →
      (Survives C (runCalls .empty calls) ↔ NoneTears .empty calls)) ∧
    ∀ (f : Folder Str UInt8) (path : Str) (old new : Seed) (ws : List (Str × Bytes)) (k : Nat),
      loadFromFile decodeError f path = .ok old →
      (Identity.file new).saveToFile T verifyingKey path = .ok ws →
      ((∃ seed, loadFromFile decodeError (f.writesInPlace 0 ws k) path = .ok seed ∧
        (seed = old ∨ seed = new)) ↔ k = 0 ∨ (utf8 (identityBody new)).length ≤ k) :=
  ⟨fun _ hcalls => survives_iff hcalls, fun _ _ _ _ _ _ hold hws => loadFromFile_saving_iff hold hws⟩

/-- One certificate of two bytes, with its key. -/
def onePair : Certificates where
  Belongs pair := pair = ⟨[1, 2], [3]⟩
  whole pair cert hbelongs _ hne h := hne (by rw [hbelongs, (KeyPair.mk.inj h).1])

/-- A directory with the file of one identity. -/
def savedIdentity (seed : Seed) : Folder Str UInt8 :=
  Folder.empty.writesInPlace 0 [(txt "id", utf8 (identityBody seed))] 67

theorem loadFromFile_savedIdentity (seed : Seed) :
    loadFromFile id (savedIdentity seed) (txt "id") = .ok seed := by
  rw [loadFromFile, savedIdentity, Folder.read_writesInPlace_one, if_pos rfl]
  exact loadIdentity_take_iff.mpr ⟨rfl, by decide⟩

/-- What the save of the second identity writes over the first. -/
private def secondSave : List (Str × Bytes) :=
  [(txt "id", utf8 (identityBody (.fill 2))),
    (pubkeySidecar (txt "id"), utf8 (Pubkey.toSshString standardText (.fill 3) ++ ['\n']))]

/-- A call that is cut off in the middle of the key and one that goes through; a save that lacks
its newline, and one that is cut off half way. -/
theorem keys_survive_iff_onePair :
    Survives onePair (runCalls .empty [⟨⟨[1, 2], [3]⟩, 1⟩, ⟨⟨[1, 2], [3]⟩, 5⟩]) ∧
    (∃ seed, loadFromFile id ((savedIdentity (.fill 1)).writesInPlace 0 secondSave 66)
      (txt "id") = .ok seed ∧ (seed = .fill 1 ∨ seed = .fill 2)) ∧
    ¬ ∃ seed, loadFromFile id ((savedIdentity (.fill 1)).writesInPlace 0 secondSave 40)
      (txt "id") = .ok seed ∧ (seed = .fill 1 ∨ seed = .fill 2) := by
  obtain ⟨hcalls, hsave⟩ := keys_survive_iff onePair standardText (fun _ => .fill 3) id
  have hsaved := fun k => hsave _ _ _ _ secondSave k (loadFromFile_savedIdentity (.fill 1))
    (show (Identity.file (.fill 2)).saveToFile _ _ _ = _ from rfl)
  refine ⟨(hcalls _ (by simp [onePair])).mpr ⟨fun h => ?_, fun h => ?_, trivial⟩,
    (hsaved 66).mpr (.inr (length_identityBody _).le), fun h => ?_⟩
  · exact absurd h.2.1 (by decide)
  · exact absurd h.2.2 (by decide)
  · have hk := (hsaved 40).mp h
    rw [length_identityBody] at hk
    omega

/-- **Key material is lost.** A call that is cut off in the middle of the certificate leaves the
hub with one that is none, and a save that is cut off when it has opened the file leaves no
identity. -/
theorem keys_lost :
    ¬ Survives onePair (runCalls .empty [⟨⟨[1, 2], [3]⟩, 4⟩]) ∧
    (Identity.file (.fill 2)).saveToFile standardText (fun _ => .fill 3) (txt "id") =
      .ok [(txt "id", utf8 (identityBody (.fill 2))),
        (pubkeySidecar (txt "id"), utf8 (Pubkey.toSshString standardText (.fill 3) ++ ['\n']))] ∧
    loadFromFile id (savedIdentity (.fill 1)) (txt "id") = .ok (.fill 1) ∧
    loadFromFile id ((savedIdentity (.fill 1)).writesInPlace 0
        [(txt "id", utf8 (identityBody (.fill 2))),
          (pubkeySidecar (txt "id"), utf8 (Pubkey.toSshString standardText (.fill 3) ++ ['\n']))] 1)
        (txt "id") = .error (.auth (txt "empty identity file at id")) := by
  refine ⟨?_, rfl, loadFromFile_savedIdentity _, ?_⟩
  · rw [survives_iff (by simp [onePair])]
    intro hnone
    exact hnone.1 ⟨.inl rfl, by decide, by decide⟩
  · rw [loadFromFile, Folder.read_writesInPlace_two 0 _ _ (pubkeySidecar_ne _), if_pos ⟨rfl, by decide⟩]
    have hempty : (utf8 (identityBody (.fill 2))).take (1 - 1) = utf8 [] := rfl
    simp only [hempty, loadIdentity, fromUtf8_utf8]
    rfl

end AgentSync.Net
