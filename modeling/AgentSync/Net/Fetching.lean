import AgentSync.Net.Inbound
import AgentSync.Store.Putting

/-! Blobs that are asked for while others are put.

A fetch opens `<root>/blobs` joined with what it was sent, and reads what it has open call by
call. A name that is one component leads to a file of the store's own directory; any other goes
where the system takes it, which may be anywhere. A file that has come to be under its digest is
not changed any more, whoever still writes to it writes what is there, so a fetch by digest gets
what was filed. Nothing looks at what any other fetch gets. -/
namespace AgentSync.Net

open BlobStore Disk

/-- Where a fetch is: the call of `fs::read` that it has still to make. -/
inductive Fetch.Place where
  | opening
  /-- It has a file of the store's directory open, and `got` of it. -/
  | reading (file : Nat) (got : Bytes)
  /-- What `fs::read` came to; the answer is sent. -/
  | answered (r : Except IoError Bytes)
  | killed
  deriving DecidableEq

/-- One `BlobFetch` that has come in. -/
structure Fetch where
  hash : Str
  place : Fetch.Place
  deriving DecidableEq

/-- The store and the fetches that it serves. -/
structure Serving where
  store : Puts
  fetches : List Fetch

namespace Fetch

/-- The frame that goes back. -/
def answer (hash : Str) (r : Except IoError Bytes) : Frame := Node.blobAnswer hash (got hash r)

/-- The next call goes through, with `n` bytes where it reads. -/
def next (q : Fetch) (f : Folder Str UInt8) (n : Nat) : Option Fetch :=
  match q.place with
  | .opening =>
    if PlainName q.hash then
      match f.entries q.hash with
      | some file => some {q with place := .reading file []}
      | none => some {q with place := .answered (.error .notFound)}
    else none
  | .reading file got =>
    let left := (f.data file).drop got.length
    if left = [] then some {q with place := .answered (.ok got)}
    else if 0 < n ∧ n ≤ left.length then
      some {q with place := .reading file (got ++ left.take n)}
    else none
  | .answered _ | .killed => none

/-- A name that is no single component has led back to a file of the directory. -/
def leads (q : Fetch) (file : Nat) : Option Fetch :=
  match q.place with
  | .opening => if PlainName q.hash then none else some {q with place := .reading file []}
  | _ => none

/-- Such a name has led elsewhere, and `bytes` is what there was to read. -/
def elsewhere (q : Fetch) (bytes : Bytes) : Option Fetch :=
  match q.place with
  | .opening => if PlainName q.hash then none else some {q with place := .answered (.ok bytes)}
  | _ => none

/-- The next call fails. -/
def fails (q : Fetch) (e : IoError) : Option Fetch :=
  match q.place with
  | .opening | .reading .. => some {q with place := .answered (.error e)}
  | .answered _ | .killed => none

/-- The process is gone. -/
def kill (q : Fetch) : Fetch :=
  match q.place with
  | .answered _ => q
  | _ => {q with place := .killed}

end Fetch

namespace Serving

inductive Act where
  /-- A put begins or makes its next call. -/
  | store (a : BlobStore.Act)
  /-- A `BlobFetch` comes in. -/
  | fetch (hash : Str)
  | next (i n : Nat)
  | leads (i file : Nat)
  | elsewhere (i : Nat) (bytes : Bytes)
  | fails (i : Nat) (e : IoError)

/-- The `i`-th fetch goes on. -/
def turn (s : Serving) (i : Nat) (go : Fetch → Option Fetch) : Option Serving :=
  (s.fetches[i]?).bind fun q => (go q).map fun q' => {s with fetches := s.fetches.set i q'}

def step (H : ContentHash) (s : Serving) : Act → Option Serving
  | .store .crash =>
    (s.store.step H .crash).map fun store => ⟨store, s.fetches.map Fetch.kill⟩
  | .store a => (s.store.step H a).map fun store => {s with store}
  | .fetch hash => some {s with fetches := s.fetches ++ [⟨hash, .opening⟩]}
  | .next i n => s.turn i fun q => q.next s.store.folder n
  | .leads i file => s.turn i fun q => q.leads file
  | .elsewhere i bytes => s.turn i fun q => q.elsewhere bytes
  | .fails i e => s.turn i fun q => q.fails e

/-! ### The law and its condition -/

/-- A blob goes back only under its own hash. -/
def Sound (H : ContentHash) (hash : Str) (f : Frame) : Prop :=
  ∀ hash' bytes, f = .blobPush hash' bytes → hash' = hash ∧ H.hash bytes = hash

/-- Every put renames all of its blob. -/
def Whole (blobs : Set Bytes) (s : Serving) : Act → Prop
  | .store a => s.store.Whole blobs a
  | _ => True

end Serving

/-! ### What a put does to a file that is open -/

variable {H : ContentHash} {blobs : Set Bytes} {f f' : Folder Str UInt8} {p p' : Put} {n : Nat}

/-- The steps of a put, by what they do to the directory. -/
inductive Moves (f : Folder Str UInt8) (p : Put) : Folder Str UInt8 → Put → Prop where
  | looks (place : BlobStore.Place) (h : ∀ file rest, place ≠ .writing file rest) :
      Moves f p f {p with place}
  | opens : Moves f p (f.create (tmpName p.hash)).1
      {p with place := .writing (f.create (tmpName p.hash)).2 p.bytes}
  | writes {file : Nat} {rest : Bytes} (n : Nat) (h : p.place = .writing file rest) :
      Moves f p (f.writeAt 0 file (p.bytes.length - rest.length) (rest.take n))
        {p with place := .writing file (rest.drop n)}
  | renames {f' : Folder Str UInt8} (h : f.rename (tmpName p.hash) p.hash = some f') :
      Moves f p f' {p with place := .returned true}

theorem moves_of_next (h : p.next H f n = some (f', p')) : Moves f p f' p' := by
  unfold Put.next at h
  split at h
  next =>
    obtain ⟨rfl, rfl⟩ := Prod.mk.inj (Option.some.inj h)
    exact .looks _ (by split <;> simp)
  next =>
    obtain ⟨rfl, rfl⟩ := Prod.mk.inj (Option.some.inj h)
    exact .looks _ (by split <;> simp)
  next =>
    obtain ⟨rfl, rfl⟩ := Prod.mk.inj (Option.some.inj h)
    exact .opens
  next =>
    obtain ⟨rfl, rfl⟩ := Prod.mk.inj (Option.some.inj h)
    exact .looks _ (by simp)
  next file b rest hplace =>
    dsimp only at h
    split at h
    next =>
      obtain ⟨rfl, rfl⟩ := Prod.mk.inj (Option.some.inj h)
      exact .writes n hplace
    next => cases h
  next =>
    split at h
    next f₁ hrename =>
      obtain ⟨rfl, rfl⟩ := Prod.mk.inj (Option.some.inj h)
      exact .renames hrename
    next =>
      obtain ⟨rfl, rfl⟩ := Prod.mk.inj (Option.some.inj h)
      exact .looks _ (by simp)
  next => cases h
  next => cases h

theorem place_of_fails (h : p.fails = some p') (file : Nat) (rest : Bytes) :
    p'.place ≠ .writing file rest := by
  unfold Put.fails at h
  split at h
  next =>
    obtain rfl := Option.some.inj h
    simp
  next => cases h
  next => cases h
  next =>
    obtain rfl := Option.some.inj h
    simp

theorem place_kill (p : Put) (file : Nat) (rest : Bytes) : p.kill.place ≠ .writing file rest := by
  unfold Put.kill
  split
  next h => simp [h]
  next => simp

/-- What a fetch by digest can rely on once it has its file open: the file has the digest, no
put can open it to empty it, and the puts that have it open write what is in it. -/
structure Settled (H : ContentHash) (s : Puts) (hash : Str) (file : Nat) : Prop where
  hashed : H.hash (s.folder.data file) = hash
  known : file < s.folder.next
  named : ∀ hash', s.folder.entries (tmpName hash') ≠ some file
  written : ∀ p ∈ s.puts, ∀ rest, p.place = .writing file rest → p.bytes = s.folder.data file

namespace Settled

variable {s s' : Puts} {hash : Str} {file : Nat}

/-- A file that is found under its digest. -/
theorem of_entry (h : s.Sound H blobs) (hdigest : IsDigest hash)
    (hentry : s.folder.entries hash = some file) : Settled H s hash file := by
  refine ⟨h.filed hash _ hdigest (Folder.read_eq_some.mpr ⟨file, hentry, rfl⟩),
    s.folder.fresh _ _ hentry, fun hash' htmp => ?_, fun p hp rest hw => ?_⟩
  · exact tmpName_ne hdigest hash' (s.folder.single _ _ _ htmp hentry)
  · obtain ⟨-, -, hnames⟩ := (h.fits p hp).handle file rest hw
    obtain htmp | ⟨-, hdata⟩ := hnames hash hentry
    · exact absurd htmp.symm (tmpName_ne hdigest p.hash)
    · exact hdata.symm

/-- The directory is as it was, and no put has come to write to the file. -/
theorem of_looks (h : Settled H s hash file) (hfolder : s'.folder = s.folder)
    (hputs : ∀ p ∈ s'.puts, ∀ rest, p.place = .writing file rest → p ∈ s.puts) :
    Settled H s' hash file := by
  refine ⟨hfolder ▸ h.hashed, hfolder ▸ h.known, hfolder ▸ h.named, fun p hp rest hw => ?_⟩
  rw [hfolder]
  exact h.written p (hputs p hp rest hw) rest hw

/-- One put makes a call that leaves the file as it is. -/
theorem set (h : Settled H s hash file) (i : Nat) (hdata : f'.data file = s.folder.data file)
    (hknown : file < f'.next) (hnamed : ∀ hash', f'.entries (tmpName hash') ≠ some file)
    (hp' : ∀ rest, p'.place = .writing file rest → p'.bytes = f'.data file) :
    Settled H ⟨f', s.puts.set i p'⟩ hash file := by
  refine ⟨hdata ▸ h.hashed, hknown, hnamed, fun q hq rest hw => ?_⟩
  obtain hq | rfl := List.mem_or_eq_of_mem_set hq
  · exact (h.written q hq rest hw).trans hdata.symm
  · exact hp' rest hw

/-- Whatever call a put makes, the file is as it was. -/
theorem moves (h : Settled H s hash file) (hs : s.Sound H blobs) (i : Nat) (hp : p ∈ s.puts)
    (hm : Moves s.folder p f' p') :
    f'.data file = s.folder.data file ∧ Settled H ⟨f', s.puts.set i p'⟩ hash file := by
  cases hm with
  | looks place hplace =>
    exact ⟨rfl, h.set i rfl h.known h.named fun rest hw => absurd hw (hplace file rest)⟩
  | opens =>
    have hne : file ≠ (s.folder.create (tmpName p.hash)).2 :=
      Folder.create_ne h.known (h.named p.hash)
    have hdata : (s.folder.create (tmpName p.hash)).1.data file = s.folder.data file := by
      rw [Folder.data_create, if_neg hne]
    refine ⟨hdata, h.set i hdata (h.known.trans_le Folder.next_le_create) (fun hash' htmp => ?_)
      fun rest hw => ?_⟩
    · by_cases heq : tmpName hash' = tmpName p.hash
      · rw [heq, Folder.entries_create_self] at htmp
        exact hne (Option.some.inj htmp).symm
      · rw [Folder.entries_create_of_ne heq] at htmp
        exact h.named hash' htmp
    · obtain ⟨rfl, -⟩ := Place.writing.inj hw
      exact absurd rfl hne
  | @writes file' rest n hplace =>
    have hdata : (s.folder.writeAt 0 file' (p.bytes.length - rest.length) (rest.take n)).data file =
        s.folder.data file := by
      by_cases hfile : file = file'
      · subst hfile
        obtain ⟨-, hrest, -⟩ := (hs.fits p hp).handle file rest hplace
        have hbytes := h.written p hp rest hplace
        rw [Folder.data_writeAt_again 0 hbytes.symm hrest, hbytes]
      · rw [Folder.data_writeAt, if_neg hfile]
    refine ⟨hdata, h.set i hdata h.known h.named fun rest' hw => ?_⟩
    obtain ⟨rfl, -⟩ := Place.writing.inj hw
    exact (h.written p hp rest hplace).trans hdata.symm
  | renames hrename =>
    obtain ⟨moved, hmoved, hdata, hnext, hentries⟩ := Folder.rename_eq_some hrename
    refine ⟨congrFun hdata file, h.set i (congrFun hdata file) (hnext ▸ h.known)
      (fun hash' htmp => ?_) fun rest hw => by cases hw⟩
    rw [hentries] at htmp
    split at htmp
    next => exact h.named p.hash (Option.some.inj htmp ▸ hmoved)
    next =>
      split at htmp
      next => cases htmp
      next => exact h.named hash' htmp

/-- A step of the store leaves the file as it is. -/
theorem step {a : BlobStore.Act} (h : Settled H s hash file) (hs : s.Sound H blobs)
    (hstep : s.step H a = some s') :
    s'.folder.data file = s.folder.data file ∧ Settled H s' hash file := by
  have hbegin (q : Put) (hq : q.place = .ensuring) :
      Settled H {s with puts := s.puts ++ [q]} hash file := by
    refine h.of_looks rfl fun p hp rest hw => ?_
    obtain hp | hp := List.mem_append.mp hp
    · exact hp
    · obtain rfl := List.mem_singleton.mp hp
      rw [hq] at hw
      cases hw
  cases a with
  | put bytes =>
    obtain rfl := Option.some.inj hstep
    exact ⟨rfl, hbegin _ rfl⟩
  | putWithHash hash' bytes =>
    obtain rfl := Option.some.inj hstep
    exact ⟨rfl, hbegin _ rfl⟩
  | next i n =>
    obtain ⟨p, hp, hstep⟩ := Option.bind_eq_some_iff.mp hstep
    obtain ⟨⟨f', p'⟩, hnext, rfl⟩ := Option.map_eq_some_iff.mp hstep
    exact h.moves hs i (List.mem_of_getElem? hp) (moves_of_next hnext)
  | fails i =>
    obtain ⟨p, hp, hstep⟩ := Option.bind_eq_some_iff.mp hstep
    obtain ⟨p', hfails, rfl⟩ := Option.map_eq_some_iff.mp hstep
    refine ⟨rfl, h.of_looks rfl fun q hq rest hw => ?_⟩
    obtain hq | rfl := List.mem_or_eq_of_mem_set hq
    · exact hq
    · exact absurd hw (place_of_fails hfails file rest)
  | crash =>
    obtain rfl := Option.some.inj hstep
    refine ⟨rfl, h.of_looks rfl fun q hq rest hw => ?_⟩
    obtain ⟨p, -, rfl⟩ := List.mem_map.mp hq
    exact absurd hw (place_kill p file rest)

end Settled

/-! ### Whole runs -/

namespace Fetch

/-- A fetch by digest has the file of that digest open, or has answered with a blob that has it. -/
structure Faithful (H : ContentHash) (s : Puts) (q : Fetch) : Prop where
  reading : ∀ file got, q.place = .reading file got →
    Settled H s q.hash file ∧ got <+: s.folder.data file
  answered : ∀ bytes, q.place = .answered (.ok bytes) → H.hash bytes = q.hash

namespace Faithful

variable {s s' : Puts} {q q' : Fetch}

/-- A fetch that has nothing open and no bytes to show. -/
theorem of_place {place : Place} (hreading : ∀ file got, place ≠ .reading file got)
    (hanswered : ∀ bytes, place ≠ .answered (.ok bytes)) :
    Faithful H s {q with place} :=
  ⟨fun file got h => absurd h (hreading file got), fun bytes h => absurd h (hanswered bytes)⟩

theorem step {a : BlobStore.Act} (h : q.Faithful H s) (hs : s.Sound H blobs)
    (hstep : s.step H a = some s') : q.Faithful H s' := by
  refine ⟨fun file got hplace => ?_, h.answered⟩
  obtain ⟨hsettled, hgot⟩ := h.reading file got hplace
  obtain ⟨hdata, hsettled⟩ := hsettled.step hs hstep
  exact ⟨hsettled, hdata.symm ▸ hgot⟩

theorem next (h : q.Faithful H s) (hs : s.Sound H blobs) (hdigest : IsDigest q.hash)
    (hnext : q.next s.folder n = some q') : q'.Faithful H s := by
  unfold Fetch.next at hnext
  split at hnext
  next =>
    rw [if_pos hdigest.plainName] at hnext
    split at hnext
    next file hentry =>
      obtain rfl := Option.some.inj hnext
      refine ⟨fun file' got' hplace => ?_, fun bytes hplace => by cases hplace⟩
      obtain ⟨rfl, rfl⟩ := Place.reading.inj hplace
      exact ⟨.of_entry hs hdigest hentry, List.nil_prefix⟩
    next =>
      obtain rfl := Option.some.inj hnext
      exact of_place (by simp) (by simp)
  next file got hplace =>
    obtain ⟨hsettled, ⟨left, hleft⟩⟩ := h.reading file got hplace
    have hdrop : (s.folder.data file).drop got.length = left := by
      rw [← hleft, List.drop_left]
    simp only [hdrop] at hnext
    split at hnext
    next hend =>
      obtain rfl := Option.some.inj hnext
      refine ⟨fun _ _ hplace => (by cases hplace), fun bytes hplace => ?_⟩
      obtain rfl := Except.ok.inj (Place.answered.inj hplace)
      rw [← hsettled.hashed, ← hleft, hend, List.append_nil]
    next =>
      split at hnext
      next =>
        obtain rfl := Option.some.inj hnext
        refine ⟨fun file' got' hplace => ?_, fun bytes hplace => by cases hplace⟩
        obtain ⟨rfl, rfl⟩ := Place.reading.inj hplace
        refine ⟨hsettled, ⟨left.drop n, ?_⟩⟩
        rw [List.append_assoc, List.take_append_drop, hleft]
      next => cases hnext
  next => cases hnext
  next => cases hnext

theorem fails {e : IoError} (hfails : q.fails e = some q') : q'.Faithful H s := by
  unfold Fetch.fails at hfails
  split at hfails
  next =>
    obtain rfl := Option.some.inj hfails
    exact of_place (by simp) (by simp)
  next =>
    obtain rfl := Option.some.inj hfails
    exact of_place (by simp) (by simp)
  next => cases hfails
  next => cases hfails

theorem kill (h : q.Faithful H s) : q.kill.Faithful H s := by
  unfold Fetch.kill
  split
  next => exact h
  next => exact of_place (by simp) (by simp)

end Faithful

end Fetch

namespace Serving

/-- The store is sound and every fetch by digest can rely on it. -/
structure Inv (H : ContentHash) (blobs : Set Bytes) (s : Serving) : Prop where
  store : s.store.Sound H blobs
  fetches : ∀ q ∈ s.fetches, IsDigest q.hash → q.Faithful H s.store

variable {s s' : Serving}

/-- One fetch goes on. -/
theorem Inv.turn (h : Inv H blobs s) {i : Nat} {go : Fetch → Option Fetch}
    (hgo : ∀ q q', go q = some q' → q'.hash = q.hash ∧
      (IsDigest q.hash → q.Faithful H s.store → q'.Faithful H s.store))
    (hs : s.turn i go = some s') : Inv H blobs s' := by
  obtain ⟨q, hq, hs⟩ := Option.bind_eq_some_iff.mp hs
  obtain ⟨q', hq', rfl⟩ := Option.map_eq_some_iff.mp hs
  obtain ⟨hhash, hfaithful⟩ := hgo q q' hq'
  refine ⟨h.store, fun r hr hdigest => ?_⟩
  obtain hr | rfl := List.mem_or_eq_of_mem_set hr
  · exact h.fetches r hr hdigest
  · rw [hhash] at hdigest
    exact hfaithful hdigest (h.fetches q (List.mem_of_getElem? hq) hdigest)

/-- What any call of a fetch keeps of it. -/
theorem hash_of_next {q q' : Fetch} {f : Folder Str UInt8} (h : q.next f n = some q') :
    q'.hash = q.hash := by
  unfold Fetch.next at h
  grind

theorem hash_of_fails {q q' : Fetch} {e : IoError} (h : q.fails e = some q') :
    q'.hash = q.hash := by
  unfold Fetch.fails at h
  grind

/-- **One step** that meets the condition. -/
theorem inv_step {a : Act} (h : Inv H blobs s) (hinj : Set.InjOn H.hash blobs)
    (hg : Whole blobs s a) (hs : step H s a = some s') : Inv H blobs s' := by
  have hstore {a : BlobStore.Act} {store : Puts} (hg : s.store.Whole blobs a)
      (hstep : s.store.step H a = some store) :
      store.Sound H blobs ∧ ∀ q ∈ s.fetches, IsDigest q.hash → q.Faithful H store :=
    ⟨h.store.step hinj hg hstep, fun q hq hdigest => (h.fetches q hq hdigest).step h.store hstep⟩
  have hplain {q : Fetch} (hdigest : IsDigest q.hash) : PlainName q.hash := hdigest.plainName
  unfold step at hs
  split at hs
  next =>
    obtain ⟨store, hstep, rfl⟩ := Option.map_eq_some_iff.mp hs
    obtain ⟨hsound, hfetches⟩ := hstore (a := .crash) hg hstep
    refine ⟨hsound, fun q hq hdigest => ?_⟩
    obtain ⟨r, hr, rfl⟩ := List.mem_map.mp hq
    have hhash : r.kill.hash = r.hash := by
      unfold Fetch.kill
      split <;> rfl
    exact (hfetches r hr (hhash ▸ hdigest)).kill
  next =>
    obtain ⟨store, hstep, rfl⟩ := Option.map_eq_some_iff.mp hs
    obtain ⟨hsound, hfetches⟩ := hstore hg hstep
    exact ⟨hsound, hfetches⟩
  next hash =>
    obtain rfl := Option.some.inj hs
    refine ⟨h.store, fun q hq hdigest => ?_⟩
    obtain hq | hq := List.mem_append.mp hq
    · exact h.fetches q hq hdigest
    · obtain rfl := List.mem_singleton.mp hq
      exact Fetch.Faithful.of_place (q := ⟨hash, .opening⟩) (by simp) (by simp)
  next i n =>
    exact h.turn (fun q q' hq => ⟨hash_of_next hq, fun hdigest hfaithful =>
      hfaithful.next h.store hdigest hq⟩) hs
  next i file =>
    refine h.turn (fun q q' hq => ?_) hs
    unfold Fetch.leads at hq
    split at hq
    next =>
      split at hq
      next => cases hq
      next hname =>
        obtain rfl := Option.some.inj hq
        exact ⟨rfl, fun hdigest => absurd (hplain hdigest) hname⟩
    next => cases hq
  next i bytes =>
    refine h.turn (fun q q' hq => ?_) hs
    unfold Fetch.elsewhere at hq
    split at hq
    next =>
      split at hq
      next => cases hq
      next hname =>
        obtain rfl := Option.some.inj hq
        exact ⟨rfl, fun hdigest => absurd (hplain hdigest) hname⟩
    next => cases hq
  next i e =>
    exact h.turn (fun q q' hq => ⟨hash_of_fails hq, fun _ _ => .fails hq⟩) hs

/-- A fetch that nothing else comes between is the one that `handle_inbound` is on a disk. -/
theorem queued_blobFetch {store : BlobStore} {D σ M : Type*} (P : SyncProtocol D σ M)
    (x : Node store D σ) (id : Nat) (hash : Str) :
    (Node.handleInbound P H x id (.blobFetch hash)).queued id =
      x.queued id ++ [Fetch.answer hash (x.disk.read (store.blobPath hash))] :=
  Function.update_self ..

/-! ### What is sent that is no blob -/

/-- And an empty file is sent for a digest when one put has renamed what another has emptied. -/
theorem blob_exchange_emptied :
    ∃ s, Machine.Reach (step letterDigest) (fun _ _ => True) ⟨⟨.empty, []⟩, []⟩ s ∧
      s.fetches = [⟨letterDigest.hash (utf8 ['a']), .answered (.ok [])⟩] ∧
      ¬ Sound letterDigest (letterDigest.hash (utf8 ['a']))
        (Fetch.answer (letterDigest.hash (utf8 ['a'])) (.ok [])) := by
  have hrun : (Option.any (fun s : Serving =>
      s.fetches = [⟨letterDigest.hash (utf8 ['a']), .answered (.ok [])⟩])
      (Machine.run (step letterDigest) ⟨⟨.empty, []⟩, []⟩ (Puts.racingPuts.map .store ++
        [.fetch (letterDigest.hash (utf8 ['a'])), .next 0 0, .next 0 0]))) = true := by
    decide +kernel
  obtain ⟨s, hs, hfetches⟩ := (Option.any_eq_true _ _).mp hrun
  refine ⟨s, .of_run (.of_forall (fun _ _ => trivial) _) hs, of_decide_eq_true hfetches, fun h => ?_⟩
  have hhash := (h _ _ rfl).2
  revert hhash
  decide +kernel

/-- One put has filed its blob and another, which had looked before, opens its temporary file while
a fetch reads. -/
private def busy : List Act :=
  [.store (.put (utf8 ['a'])), .store (.put (utf8 ['a'])), .store (.next 0 0), .store (.next 1 0),
    .store (.next 0 0), .store (.next 1 0), .store (.next 0 0), .store (.next 0 1),
    .store (.next 0 0), .store (.next 0 0), .fetch (letterDigest.hash (utf8 ['a'])), .next 0 0,
    .store (.next 1 0), .next 0 1, .store (.next 1 1), .next 0 0]

/-- The condition, for one blob. -/
private def unhurried (s : Serving) : Act → Bool
  | .store a => s.store.unhurried a
  | _ => true

end Serving

end AgentSync.Net
