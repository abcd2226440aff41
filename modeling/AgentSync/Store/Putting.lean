import Mathlib.Data.Set.Function
import AgentSync.Inodes
import AgentSync.Machine
import AgentSync.Fs.Adapter
import AgentSync.Store.Blobs

/-! Puts that run at once.

Every put of a blob writes the same temporary file and renames it to the hash. The file is
emptied when a put opens it and the name moves when a put renames it, whoever else is writing;
what is under the hash is good if the file is whole at that moment, and then the other writers
can only write what is there. It is not looked at again: a later put sees the name and leaves. -/
namespace AgentSync.BlobStore

/-- Where a put is: the file system calls it has still to make. -/
inductive Place where
  | ensuring
  | checking
  | opening
  /-- `fs::write` has the file open, with `rest` to go. -/
  | writing (file : Nat) (rest : Bytes)
  | renaming
  | returned (ok : Bool)
  | killed
  deriving DecidableEq, Repr

/-- One `put` or `put_with_hash`. -/
structure Put where
  hash : Str
  bytes : Bytes
  place : Place
  deriving DecidableEq, Repr

/-- The directory of the blobs and all that was ever put. -/
structure Puts where
  folder : Folder Str UInt8
  puts : List Put

inductive Act where
  | put (bytes : Bytes)
  | putWithHash (hash : Str) (bytes : Bytes)
  /-- The next call of the `i`-th put goes through; a write takes `n` bytes. -/
  | next (i n : Nat)
  | fails (i : Nat)
  | crash

def tmpName (hash : Str) : Str := txt ".tmp." ++ hash

variable (H : ContentHash)

namespace Put

/-- The next call goes through. -/
def next (p : Put) (f : Folder Str UInt8) (n : Nat) : Option (Folder Str UInt8 × Put) :=
  match p.place with
  | .ensuring =>
    some (f, {p with place := if H.hash p.bytes = p.hash then .checking else .returned false})
  | .checking =>
    some (f, {p with place := if (f.entries p.hash).isSome then .returned true else .opening})
  | .opening =>
    let (f', file) := f.create (tmpName p.hash)
    some (f', {p with place := .writing file p.bytes})
  | .writing _ [] => some (f, {p with place := .renaming})
  | .writing file (b :: rest) =>
    let left := b :: rest
    if 0 < n ∧ n ≤ left.length then
      some (f.writeAt 0 file (p.bytes.length - left.length) (left.take n),
        {p with place := .writing file (left.drop n)})
    else none
  | .renaming =>
    match f.rename (tmpName p.hash) p.hash with
    | some f' => some (f', {p with place := .returned true})
    | none => some (f, {p with place := .returned false})
  | .returned _ | .killed => none

/-- The next call fails; that the blob cannot be looked up means that it is not there. -/
def fails (p : Put) : Option Put :=
  match p.place with
  | .checking => some {p with place := .opening}
  | .returned _ | .killed => none
  | _ => some {p with place := .returned false}

/-- The process is gone. -/
def kill (p : Put) : Put :=
  match p.place with
  | .returned _ => p
  | _ => {p with place := .killed}

end Put

namespace Puts

def step (s : Puts) : Act → Option Puts
  | .put bytes => some {s with puts := s.puts ++ [⟨H.hash bytes, bytes, .ensuring⟩]}
  | .putWithHash hash bytes => some {s with puts := s.puts ++ [⟨hash, bytes, .ensuring⟩]}
  | .next i n =>
    (s.puts[i]?).bind fun p => (p.next H s.folder n).map fun (folder, p') =>
      ⟨folder, s.puts.set i p'⟩
  | .fails i =>
    (s.puts[i]?).bind fun p => p.fails.map fun p' => {s with puts := s.puts.set i p'}
  | .crash => some {s with puts := s.puts.map Put.kill}

end Puts

/-! ### The law and its condition -/

/-- What is under a digest has that digest. -/
def Filed (f : Folder Str UInt8) : Prop :=
  ∀ name bytes, IsDigest name → f.read name = some bytes → H.hash bytes = name

namespace Puts

structure Lawful (s : Puts) : Prop where
  filed : Filed H s.folder
  present : ∀ p ∈ s.puts, p.place = .returned true → s.folder.read p.hash ≠ none

/-- What is put is one of the blobs, and what a put renames is all of its own. -/
def Whole (blobs : Set Bytes) (s : Puts) : Act → Prop
  | .put bytes | .putWithHash _ bytes => bytes ∈ blobs
  | .next i _ => ∀ p content, s.puts[i]? = some p → p.place = .renaming →
      s.folder.read (tmpName p.hash) = some content → content = p.bytes
  | _ => True

end Puts

/-! ### What a put can rely on -/

theorem tmpName_inj {h h' : Str} (heq : tmpName h = tmpName h') : h = h' :=
  List.append_cancel_left heq

theorem tmpName_ne {name : Str} (h : IsDigest name) (hash : Str) : tmpName hash ≠ name := by
  rintro rfl
  exact not_isDigest_tmp hash h

variable {H} {f f' : Folder Str UInt8} {p p' q : Put} {blobs : Set Bytes}

/-- What there is to a put, and to the file it has open. -/
structure Put.Fits (H : ContentHash) (blobs : Set Bytes) (f : Folder Str UInt8) (p : Put) :
    Prop where
  blob : p.bytes ∈ blobs
  hashed : p.place = .ensuring ∨ p.place = .returned false ∨ p.place = .killed ∨
    H.hash p.bytes = p.hash
  present : p.place = .returned true → f.entries p.hash ≠ none
  handle : ∀ file rest, p.place = .writing file rest → file < f.next ∧ rest <:+ p.bytes ∧
    ∀ n, f.entries n = some file → n = tmpName p.hash ∨ (n = p.hash ∧ f.data file = p.bytes)

namespace Put.Fits

/-- A put that has nothing open looks at names only. -/
theorem of_place (h : p.Fits H blobs f) (place : Place)
    (hhashed : place = .returned false ∨ place = .killed ∨ H.hash p.bytes = p.hash)
    (hpresent : place = .returned true → f.entries p.hash ≠ none)
    (hshut : ∀ file rest, place ≠ .writing file rest) :
    Put.Fits H blobs f {p with place} :=
  ⟨h.blob, .inr hhashed, hpresent, fun file rest hw => absurd hw (hshut file rest)⟩

theorem hash_eq (h : p.Fits H blobs f) (he : p.place ≠ .ensuring)
    (hr : p.place ≠ .returned false) (hk : p.place ≠ .killed) : H.hash p.bytes = p.hash :=
  ((h.hashed.resolve_left he).resolve_left hr).resolve_left hk

theorem digest_of_writing (h : p.Fits H blobs f) {file : Nat} {rest : Bytes}
    (hw : p.place = .writing file rest) : IsDigest p.hash := by
  have heq : H.hash p.bytes = p.hash := h.hash_eq (by simp [hw]) (by simp [hw]) (by simp [hw])
  exact heq ▸ isDigest_hash p.bytes

theorem digest_of_returned (h : p.Fits H blobs f) (hr : p.place = .returned true) :
    IsDigest p.hash := by
  have heq : H.hash p.bytes = p.hash := h.hash_eq (by simp [hr]) (by simp [hr]) (by simp [hr])
  exact heq ▸ isDigest_hash p.bytes

/-- Another put opens its temporary file. -/
theorem create (h : p.Fits H blobs f) (hash : Str) :
    p.Fits H blobs (f.create (tmpName hash)).1 := by
  have hkept {n : Str} (hn : n ≠ tmpName hash) := f.entries_create_of_ne hn
  refine ⟨h.blob, h.hashed, fun hr => ?_, fun file rest hw => ?_⟩
  · rw [hkept (tmpName_ne (h.digest_of_returned hr) hash).symm]
    exact h.present hr
  · obtain ⟨hlt, hrest, hnames⟩ := h.handle file rest hw
    refine ⟨hlt.trans_le Folder.next_le_create, hrest, fun n hn => ?_⟩
    by_cases htmp : n = tmpName hash
    · subst htmp
      have hold : f.entries (tmpName hash) = some file := by
        by_contra hne
        refine Folder.create_ne hlt hne ?_
        rw [Folder.entries_create_self] at hn
        exact (Option.some.inj hn).symm
      exact (hnames _ hold).imp_right fun ⟨heq, _⟩ =>
        absurd heq (tmpName_ne (h.digest_of_writing hw) hash)
    · rw [hkept htmp] at hn
      refine (hnames n hn).imp_right fun ⟨heq, hdata⟩ => ⟨heq, ?_⟩
      rw [Folder.data_create, if_neg]
      · exact hdata
      · exact Folder.create_ne hlt fun htmp' => htmp (f.single _ _ _ hn htmp')

/-- Another put writes to a file it has open. -/
theorem writeAt (h : p.Fits H blobs f) {file : Nat} (off : Nat) (new : Bytes)
    (hsame : ∀ n, IsDigest n → f.entries n = some file →
      (f.writeAt 0 file off new).data file = f.data file) :
    p.Fits H blobs (f.writeAt 0 file off new) := by
  refine ⟨h.blob, h.hashed, h.present, fun file' rest hw => ?_⟩
  obtain ⟨hlt, hrest, hnames⟩ := h.handle file' rest hw
  refine ⟨hlt, hrest, fun n hn => (hnames n hn).imp_right fun ⟨heq, hdata⟩ => ⟨heq, ?_⟩⟩
  by_cases hfile : file' = file
  · subst hfile
    exact (hsame n (heq ▸ h.digest_of_writing hw) hn).trans hdata
  · rw [Folder.data_writeAt, if_neg hfile]
    exact hdata

/-- Another put renames its temporary file, all of it. -/
theorem rename (h : p.Fits H blobs f) (hinj : Set.InjOn H.hash blobs) (hq : q.Fits H blobs f)
    (hplace : q.place = .renaming) {file : Nat} (hfile : f.entries (tmpName q.hash) = some file)
    (hwhole : f.data file = q.bytes) (hdata : f'.data = f.data) (hnext : f'.next = f.next)
    (hentries : ∀ n, f'.entries n = if n = q.hash then some file
      else if n = tmpName q.hash then none else f.entries n) : p.Fits H blobs f' := by
  have hqhash : H.hash q.bytes = q.hash :=
    hq.hash_eq (by simp [hplace]) (by simp [hplace]) (by simp [hplace])
  refine ⟨h.blob, h.hashed, fun hr => ?_, fun file' rest hw => ?_⟩
  · rw [hentries]
    split
    · simp
    · rw [if_neg (tmpName_ne (h.digest_of_returned hr) _).symm]
      exact h.present hr
  · obtain ⟨hlt, hrest, hnames⟩ := h.handle file' rest hw
    refine ⟨hnext ▸ hlt, hrest, fun n hn => ?_⟩
    rw [hentries] at hn
    split at hn
    next heq =>
      obtain rfl := Option.some.inj hn
      obtain htmp | ⟨htmp, -⟩ := hnames _ hfile
      · have hsame : p.hash = q.hash := (tmpName_inj htmp).symm
        have hbytes : p.bytes = q.bytes := hinj h.blob hq.blob <| by
          rw [hqhash, ← hsame]
          exact h.hash_eq (by simp [hw]) (by simp [hw]) (by simp [hw])
        exact .inr ⟨heq.trans hsame.symm, by rw [hdata, hwhole, hbytes]⟩
      · exact absurd htmp (tmpName_ne (h.digest_of_writing hw) _)
    next =>
      split at hn
      next => cases hn
      next => rw [hdata]; exact hnames n hn

/-- What a put writes to a blob that is there already is what is there. -/
theorem data_writeAt (h : p.Fits H blobs f) {file : Nat} {rest : Bytes}
    (hw : p.place = .writing file rest) (n : Nat) {name : Str} (hname : IsDigest name)
    (hentry : f.entries name = some file) :
    (f.writeAt 0 file (p.bytes.length - rest.length) (rest.take n)).data file = f.data file := by
  obtain ⟨-, hrest, hnames⟩ := h.handle file rest hw
  obtain rfl | ⟨-, hdata⟩ := hnames name hentry
  · exact absurd rfl (tmpName_ne hname _)
  · rw [Folder.data_writeAt_again 0 hdata hrest, hdata]

end Put.Fits

/-! ### What a step does to the directory -/

theorem Filed.create (h : Filed H f) (hash : Str) : Filed H (f.create (tmpName hash)).1 := by
  intro name bytes hname hread
  rw [Folder.read_create_of_ne (tmpName_ne hname hash).symm] at hread
  exact h name bytes hname hread

theorem Filed.writeAt (h : Filed H f) {file : Nat} (off : Nat) (new : Bytes)
    (hsame : ∀ n, IsDigest n → f.entries n = some file →
      (f.writeAt 0 file off new).data file = f.data file) : Filed H (f.writeAt 0 file off new) := by
  intro name bytes hname hread
  obtain ⟨i, hi, rfl⟩ := Folder.read_eq_some.mp hread
  have hdata : (f.writeAt 0 file off new).data i = f.data i := by
    by_cases hfile : i = file
    · subst hfile
      exact hsame name hname hi
    · rw [Folder.data_writeAt, if_neg hfile]
  rw [hdata]
  exact h name _ hname (Folder.read_eq_some.mpr ⟨i, hi, rfl⟩)

/-- A rename files what it renames, and nothing else. -/
theorem Filed.rename_iff (h : Filed H f) {hash : Str} (hhash : IsDigest hash) {file : Nat}
    (hdata : f'.data = f.data) (hentries : ∀ n, f'.entries n = if n = hash then some file
      else if n = tmpName hash then none else f.entries n) :
    Filed H f' ↔ H.hash (f.data file) = hash := by
  constructor
  · intro h'
    refine h' hash _ hhash ?_
    rw [Folder.read, hentries, if_pos rfl, ← hdata]
    rfl
  · intro hfile name bytes hname hread
    obtain ⟨i, hi, rfl⟩ := Folder.read_eq_some.mp hread
    rw [hentries] at hi
    split at hi
    next heq =>
      obtain rfl := Option.some.inj hi
      rw [hdata, heq]
      exact hfile
    next =>
      split at hi
      next => cases hi
      next => exact h name _ hname (Folder.read_eq_some.mpr ⟨i, hi, by rw [hdata]⟩)

namespace Puts

/-- The blobs are filed, and every put can rely on the directory. -/
structure Sound (H : ContentHash) (blobs : Set Bytes) (s : Puts) : Prop where
  filed : Filed H s.folder
  fits : ∀ p ∈ s.puts, p.Fits H blobs s.folder

namespace Sound

variable {s s' : Puts} {i n : Nat}

theorem lawful (h : Sound H blobs s) : Lawful H s := by
  refine ⟨h.filed, fun p hp hr => ?_⟩
  rw [Folder.read, Ne, Option.map_eq_none_iff]
  exact (h.fits p hp).present hr

/-- One put takes a step, and what it does to the directory the others can live with. -/
theorem set (i : Nat) (hfiled : Filed H f')
    (hothers : ∀ q ∈ s.puts, q.Fits H blobs f') (hp : p'.Fits H blobs f') :
    Sound H blobs ⟨f', s.puts.set i p'⟩ := by
  refine ⟨hfiled, fun q hq => ?_⟩
  obtain hq | rfl := List.mem_or_eq_of_mem_set hq
  · exact hothers q hq
  · exact hp

theorem next (h : Sound H blobs s) (hinj : Set.InjOn H.hash blobs) (hp : p ∈ s.puts)
    (hwhole : p.place = .renaming → ∀ content, s.folder.read (tmpName p.hash) = some content →
      content = p.bytes)
    (hs : p.next H s.folder n = some (f', p')) : Sound H blobs ⟨f', s.puts.set i p'⟩ := by
  have hfits := h.fits p hp
  unfold Put.next at hs
  split at hs
  next hplace =>
    obtain ⟨rfl, rfl⟩ := Prod.mk.inj (Option.some.inj hs)
    refine set i h.filed h.fits (hfits.of_place _ ?_ ?_ ?_) <;> split <;> simp_all
  next hplace =>
    obtain ⟨rfl, rfl⟩ := Prod.mk.inj (Option.some.inj hs)
    have hhash := hfits.hash_eq (by simp [hplace]) (by simp [hplace]) (by simp [hplace])
    refine set i h.filed h.fits (hfits.of_place _ (.inr (.inr hhash)) ?_ ?_)
    · split
      next hentry => exact fun _ => Option.isSome_iff_ne_none.mp hentry
      next => exact nofun
    · split <;> simp
  next hplace =>
    obtain ⟨rfl, rfl⟩ := Prod.mk.inj (Option.some.inj hs)
    have hhash := hfits.hash_eq (by simp [hplace]) (by simp [hplace]) (by simp [hplace])
    refine set i (h.filed.create _) (fun q hq => (h.fits q hq).create _)
      ⟨hfits.blob, .inr (.inr (.inr hhash)), nofun, fun file rest hw => ?_⟩
    obtain ⟨rfl, rfl⟩ := Place.writing.inj hw
    have hself := s.folder.entries_create_self (n := tmpName p.hash)
    exact ⟨Folder.fresh _ _ _ hself, List.suffix_rfl, fun n hn =>
      .inl (Folder.single _ _ _ _ hn hself)⟩
  next file hplace =>
    obtain ⟨rfl, rfl⟩ := Prod.mk.inj (Option.some.inj hs)
    have hhash := hfits.hash_eq (by simp [hplace]) (by simp [hplace]) (by simp [hplace])
    exact set i h.filed h.fits (hfits.of_place _ (.inr (.inr hhash)) nofun nofun)
  next file b rest hplace =>
    dsimp only at hs
    split at hs
    next =>
      obtain ⟨rfl, rfl⟩ := Prod.mk.inj (Option.some.inj hs)
      have hsame {name : Str} (hname : IsDigest name) :=
        hfits.data_writeAt hplace n hname
      have hhash := hfits.hash_eq (by simp [hplace]) (by simp [hplace]) (by simp [hplace])
      have hown := hfits.writeAt _ _ fun _ => hsame
      refine set i (h.filed.writeAt _ _ fun _ => hsame)
        (fun q hq => (h.fits q hq).writeAt _ _ fun _ => hsame)
        ⟨hfits.blob, .inr (.inr (.inr hhash)), nofun, fun file' rest' hw => ?_⟩
      obtain ⟨rfl, rfl⟩ := Place.writing.inj hw
      obtain ⟨hlt, hrest, hnames⟩ := hown.handle file _ hplace
      exact ⟨hlt, (List.drop_suffix _ _).trans hrest, hnames⟩
    next => cases hs
  next hplace =>
    have hhash := hfits.hash_eq (by simp [hplace]) (by simp [hplace]) (by simp [hplace])
    split at hs
    next f₁ hrename =>
      obtain ⟨rfl, rfl⟩ := Prod.mk.inj (Option.some.inj hs)
      obtain ⟨file, hfile, hdata, hnext, hentries⟩ := Folder.rename_eq_some hrename
      have hcontent : s.folder.data file = p.bytes :=
        hwhole hplace _ (Folder.read_eq_some.mpr ⟨file, hfile, rfl⟩)
      refine set i ?_ (fun q hq => (h.fits q hq).rename hinj hfits hplace hfile hcontent hdata hnext
        hentries) ⟨hfits.blob, .inr (.inr (.inr hhash)), fun _ => ?_, nofun⟩
      · exact (h.filed.rename_iff (hhash ▸ isDigest_hash _) hdata hentries).mpr
          (hcontent ▸ hhash)
      · rw [hentries, if_pos rfl]
        simp
    next =>
      obtain ⟨rfl, rfl⟩ := Prod.mk.inj (Option.some.inj hs)
      exact set i h.filed h.fits (hfits.of_place _ (.inl rfl) nofun nofun)
  next => cases hs
  next => cases hs

theorem fails (h : Sound H blobs s) (hp : p ∈ s.puts) (hs : p.fails = some p') :
    Sound H blobs {s with puts := s.puts.set i p'} := by
  have hfits := h.fits p hp
  unfold Put.fails at hs
  split at hs
  next hplace =>
    obtain rfl := Option.some.inj hs
    have hhash := hfits.hash_eq (by simp [hplace]) (by simp [hplace]) (by simp [hplace])
    exact set i h.filed h.fits (hfits.of_place _ (.inr (.inr hhash)) nofun nofun)
  next => cases hs
  next => cases hs
  next =>
    obtain rfl := Option.some.inj hs
    exact set i h.filed h.fits (hfits.of_place _ (.inl rfl) nofun nofun)

theorem crash (h : Sound H blobs s) : Sound H blobs {s with puts := s.puts.map Put.kill} := by
  refine ⟨h.filed, fun q hq => ?_⟩
  obtain ⟨p, hp, rfl⟩ := List.mem_map.mp hq
  have hfits := h.fits p hp
  unfold Put.kill
  split
  next => exact hfits
  next => exact hfits.of_place _ (.inr (.inl rfl)) nofun nofun

/-- A put begins. -/
theorem begin (h : Sound H blobs s) (hash : Str) {bytes : Bytes} (hblob : bytes ∈ blobs) :
    Sound H blobs {s with puts := s.puts ++ [⟨hash, bytes, .ensuring⟩]} := by
  refine ⟨h.filed, fun q hq => ?_⟩
  obtain hq | hq := List.mem_append.mp hq
  · exact h.fits q hq
  · obtain rfl := List.mem_singleton.mp hq
    exact ⟨hblob, .inl rfl, nofun, nofun⟩

/-- **One step** that meets the condition. -/
theorem step {a : Act} (h : Sound H blobs s) (hinj : Set.InjOn H.hash blobs)
    (hg : Whole blobs s a) (hs : Puts.step H s a = some s') : Sound H blobs s' := by
  cases a with
  | put bytes => exact Option.some.inj hs ▸ h.begin _ hg
  | putWithHash hash bytes => exact Option.some.inj hs ▸ h.begin hash hg
  | crash => exact Option.some.inj hs ▸ h.crash
  | fails i =>
    obtain ⟨p, hp, hs⟩ := Option.bind_eq_some_iff.mp hs
    obtain ⟨p', hp', rfl⟩ := Option.map_eq_some_iff.mp hs
    exact h.fails (List.mem_of_getElem? hp) hp'
  | next i n =>
    obtain ⟨p, hp, hs⟩ := Option.bind_eq_some_iff.mp hs
    obtain ⟨⟨f', p'⟩, hnext, rfl⟩ := Option.map_eq_some_iff.mp hs
    exact h.next hinj (List.mem_of_getElem? hp) (fun hplace content => hg p content hp hplace) hnext

end Sound

/-- **The store is addressed by content**, in every state that puts, failures and crashes lead to
from a directory where it is, and what was put is there: as long as no put renames the temporary
file while that is not all of its blob, for another has opened it and not filled it again. A
rename keeps the law exactly when what it renames has the hash. -/
theorem content_addressed {s : Puts} (hinj : Set.InjOn H.hash blobs) (hf : Filed H f)
    (h : Machine.Reach (step H) (Whole blobs) ⟨f, []⟩ s) :
    Lawful H s ∧ ∀ i n s' p content, step H s (.next i n) = some s' → s.puts[i]? = some p →
      p.place = .renaming → s.folder.read (tmpName p.hash) = some content →
      (Lawful H s' ↔ H.hash content = p.hash) := by
  have hsound : Sound H blobs s :=
    h.invariant ⟨hf, fun _ hp => absurd hp List.not_mem_nil⟩ fun _ _ _ hx => hx.step hinj
  refine ⟨hsound.lawful, fun i n s' p content hs hp hplace hcontent => ?_⟩
  obtain ⟨p₁, hp₁, hs⟩ := Option.bind_eq_some_iff.mp hs
  obtain rfl := Option.some.inj (hp₁.symm.trans hp)
  have hfits := hsound.fits p₁ (List.mem_of_getElem? hp)
  have hhash := hfits.hash_eq (by simp [hplace]) (by simp [hplace]) (by simp [hplace])
  obtain ⟨file, hfile, rfl⟩ := Folder.read_eq_some.mp hcontent
  obtain ⟨f', hrename⟩ : ∃ f', s.folder.rename (tmpName p₁.hash) p₁.hash = some f' :=
    ⟨_, Option.map_eq_some_iff.mpr ⟨file, hfile, rfl⟩⟩
  simp only [Put.next, hplace, hrename, Option.map_some, Option.some.injEq] at hs
  obtain ⟨file', hfile', hdata, -, hentries⟩ := Folder.rename_eq_some hrename
  obtain rfl := Option.some.inj (hfile'.symm.trans hfile)
  have hfiled := hsound.filed.rename_iff (hhash ▸ isDigest_hash p₁.bytes) hdata hentries
  subst hs
  refine ⟨fun hlaw => hfiled.mp hlaw.filed, fun hgood => ⟨hfiled.mpr hgood, fun q hq hr => ?_⟩⟩
  rw [Folder.read, Ne, Option.map_eq_none_iff, hentries]
  split
  next => simp
  next hne =>
    obtain hq | rfl := List.mem_or_eq_of_mem_set hq
    · have hq := hsound.fits q hq
      rw [if_neg (tmpName_ne (hq.digest_of_returned hr) _).symm]
      exact hq.present hr
    · exact absurd rfl hne

/-! ### Two puts of one blob -/

/-- Both have looked for the blob when the first has written it and the second opens the file;
then the first renames it, everything stops, and the blob is put once more. -/
def racingPuts : List Act :=
  [.put (utf8 ['a']), .putWithHash (letterDigest.hash (utf8 ['a'])) (utf8 ['a']),
    .next 0 0, .next 1 0, .next 0 0, .next 1 0, .next 0 0, .next 0 1, .next 0 0, .next 1 0,
    .next 0 0, .crash, .put (utf8 ['a']), .next 2 0, .next 2 0]

/-- **An empty file is the blob**, for good. -/
theorem content_addressed_emptied :
    ∃ s, Machine.Reach (step letterDigest) (fun _ _ => True) ⟨.empty, []⟩ s ∧
      s.folder.read (letterDigest.hash (utf8 ['a'])) = some [] ∧
      (s.puts[2]?).map Put.place = some (.returned true) ∧ ¬ Lawful letterDigest s := by
  have hrun : ((Machine.run (step letterDigest) ⟨.empty, []⟩ racingPuts).any fun s =>
      s.folder.read (letterDigest.hash (utf8 ['a'])) = some [] ∧
        (s.puts[2]?).map Put.place = some (.returned true)) = true := by
    decide +kernel
  obtain ⟨s, hs, hread⟩ := (Option.any_eq_true _ _).mp hrun
  obtain ⟨hempty, hplace⟩ := of_decide_eq_true hread
  refine ⟨s, .of_run (.of_forall (fun _ _ => trivial) _) hs, hempty, hplace, fun h => ?_⟩
  have hhash := h.filed _ _ (isDigest_hash _) hempty
  revert hhash
  decide +kernel

/-- The condition, for one blob. -/
def unhurried (s : Puts) : Act → Bool
  | .put bytes => bytes = utf8 ['a']
  | .putWithHash _ bytes => bytes = utf8 ['a']
  | .next i _ => (s.puts[i]?).all fun p =>
    p.place ≠ .renaming ∨ s.folder.read (tmpName p.hash) = some p.bytes
  | _ => true

theorem whole_of_unhurried {s : Puts} {a : Act} (ha : unhurried s a = true) :
    Whole {utf8 ['a']} s a := by
  cases a with
  | put bytes =>
    have hbytes : bytes = utf8 ['a'] := of_decide_eq_true ha
    exact hbytes
  | putWithHash hash bytes =>
    have hbytes : bytes = utf8 ['a'] := of_decide_eq_true ha
    exact hbytes
  | next i n =>
    intro p content hp hplace hcontent
    simp only [unhurried, hp, Option.all_some, decide_eq_true_eq, hplace, ne_eq, not_true_eq_false,
      false_or, hcontent] at ha
    exact Option.some.inj ha
  | _ => trivial

/-- A put is killed on its way, and another cleans up after it. -/
theorem content_addressed_again :
    ∃ s, s.folder.read (letterDigest.hash (utf8 ['a'])) = some (utf8 ['a']) ∧
      Lawful letterDigest s := by
  have hrun : ((Machine.run (step letterDigest) ⟨.empty, []⟩
      [.put (utf8 ['a']), .next 0 0, .next 0 0, .next 0 0, .crash, .put (utf8 ['a']), .next 1 0,
        .next 1 0, .next 1 0, .next 1 1, .next 1 0, .next 1 0]).any fun s =>
      s.folder.read (letterDigest.hash (utf8 ['a'])) = some (utf8 ['a'])) = true := by
    decide +kernel
  have hguard : Machine.allowed (step letterDigest) unhurried ⟨.empty, []⟩
      [.put (utf8 ['a']), .next 0 0, .next 0 0, .next 0 0, .crash, .put (utf8 ['a']), .next 1 0,
        .next 1 0, .next 1 0, .next 1 1, .next 1 0, .next 1 0] = true := by
    decide +kernel
  obtain ⟨s, hs, hread⟩ := (Option.any_eq_true _ _).mp hrun
  exact ⟨s, of_decide_eq_true hread, (content_addressed (Set.injOn_singleton _ (utf8 ['a']))
    (fun _ _ _ h => by cases h) (.of_run (.of_allowed (fun _ _ => whole_of_unhurried) hguard) hs)).1⟩

end Puts

end AgentSync.BlobStore
