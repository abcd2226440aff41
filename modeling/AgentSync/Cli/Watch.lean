import AgentSync.Doc.Closure
import AgentSync.Doc.Staying
import AgentSync.Fs.Bodies
import AgentSync.Net.AuthorizedKeys

/-! Keys from the command line.

`merge_authorized_keys` reads the synced `authorized_keys`, puts the keys it was given and does
not find there behind the others, and writes the list back. The file is rendered anew from what
was parsed, so that nothing is lost rests on what was read being read back as it was
(`parse_render_of_tidy`), and on what was written being what is read (`writeTextFile_reads`). -/
namespace AgentSync

variable {L : Crates} {d : Doc} {path p content fid : Str}

/-! ### What was written is read -/

namespace Doc

theorem lasting_text (fid : Str) (text : Option Str) :
    Lasting fun d : Doc => d.root.getText fid = text where
  draw := fun h _ => h
  commit := fun time h => by rwa [committed_root]
  emit := fun h hops => by
    rw [emitted_root, Root.getText, get_bodily_applyAll hops rfl]
    exact h

/-- The text of an entry that is made anew. -/
theorem getText_newText (r : Root) (fid p content : Str) (size now : Int) :
    (applyAll r (newFileOps fid p .text size now ++ textOps fid content)).getText fid =
      some content := by
  have hnone : (applyAll r (newFileOps fid p .text size now)).getText fid = none := by
    simp [newFileOps, Root.getText, Op.apply, Addr.ancestors]
  have hset := @getText_setTextOps (applyAll r (newFileOps fid p .text size now)) fid content
  rw [hnone] at hset
  rw [applyAll_append]
  exact hset

/-- The entry that is written has the text. -/
theorem writeTextFile_text (path content : Str) (d : Doc) :
    Program.Leads (writeTextFile L path content) d
      (fun fid d' => d'.root.getText fid = some content) fun _ => True := by
  refine .bind (read_leads (fun path _ => .bind (Program.Leads.of_ok rfl (.bind
    (read_leads (fun found _ => ?_) trivial)))) trivial)
  cases found with
  | some fid =>
    refine .bind (.of_ok rfl (.bind (.of_ok rfl (.bind (.of_ok rfl (.of_ok rfl ?_))))))
    rw [committed_root, emitted_root, applyAll_append]
    exact getText_textWritten d.root fid content _
  | none =>
    refine .bind (read_leads (fun _ _ => .bind (.of_ok rfl (.bind (read_leads (fun _ _ =>
      .bind (.of_ok rfl (.bind ?_))) trivial)))) trivial)
    have hkeeps := (lasting_text (d.supply.id (d.draws + 1)) (some content)).ensureAncestorDirectories
      (L := L) path
    refine (hkeeps _ ?_).weaken (fun _ d' hd' => .bind (.of_ok rfl (.of_ok rfl ?_)))
      fun _ _ => trivial
    · exact getText_newText ..
    · rw [committed_root]
      exact hd'

/-- A file that is found is still found when it has been written. -/
theorem findFile_textWritten {r : Root} (h : r.findFileByPathNormalized L p = .ok (some fid))
    (content : Str) (now : Int) :
    (textWritten r fid content now).findFileByPathNormalized L p = .ok (some fid) := by
  have hwritten : textWritten r fid content now = applyAll r
      (setTextOps fid content (r.getText fid) ++ textFields fid (utf8 content).length now) := by
    rw [textWritten, applyAll_append]
  have hstanding : (textWritten r fid content now).Standing L fid p := by
    rw [hwritten]
    exact (Root.standing_of_find h).applyAll (List.forall_mem_append.mpr
      ⟨Stays.setTextOps_spares fid content _, Stays.fields_spare fid
        [.put (.fileField fid .size) _, .put (.fileField fid .updatedAt) _,
          .put (.fileField fid .kind) _] (by simp [Op.Spares, Op.target, Addr.places])⟩)
  have hkeys : (textWritten r fid content now).fileKeys = r.fileKeys := by
    refine Root.fileKeys_congr fun fid' => ?_
    rw [get_textWritten r content now (by simp), get_applyAll_of_ne
      (by simp [textFields, Op.target, Addr.ancestors])]
  have hlook (fid' : Str) : (textWritten r fid content now).lookFile L fid' = r.lookFile L fid' := by
    by_cases hfid : fid' = fid
    · rw [hfid, hstanding.look, (Root.standing_of_find h).look]
    · refine Root.lookFile_congr ?_
      rw [hwritten]
      exact Root.sameFile_applyAll fun op hop =>
        ⟨by rw [fileId_of_mem_textWritten hop]; simpa using Ne.symm hfid,
          Root.ne_rootMap_of_fileId (fileId_of_mem_textWritten hop) _⟩
  obtain ⟨_, -, hscan⟩ := AgentSync.bind_eq_ok.mp h
  rw [Root.findFileIn_eq_scan] at hscan
  rw [Root.findFileByPathNormalized, hstanding.files]
  show Root.findFileIn L _ p _ = _
  rw [Root.findFileIn_eq_scan, hkeys, ← hscan]
  exact Root.scan_congr fun fid' _ => hlook fid'

/-- **A text that is written at a path is what is read there.** -/
theorem writeTextFile_reads (h : d.root.Readable L) (hf : d.Fresh)
    (hp : Path.normalize L.nfc path = .ok p) (content : Str) :
    Ends (writeTextFile L path content) d fun _ d' => d'.root.readFile L path = .ok content := by
  rcases h.findFile p with ⟨fid, -, hfind, -⟩ | ⟨hfind, hnone⟩
  · obtain ⟨fid', d', hrun, -, now, hops, hroot⟩ := writeTextFile_ops hp hfind content
    refine ⟨fid', d', hrun, readFile_eq_ok.mpr ⟨p, fid, hp, ?_, ?_⟩⟩
    all_goals rw [hroot, hops, applyAll_append]
    · exact findFile_textWritten hfind content now
    · exact getText_textWritten d.root fid content now
  · rcases writeTextFile_outcome h hf hp content with ⟨fid, f, hfid, hpath, -⟩ | ⟨-, hends⟩
    · exact absurd ⟨fid, f, hfid, hpath⟩ hnone
    · obtain ⟨fid, d', hrun, hfid, now, hbecomes⟩ := hends
      refine ⟨fid, d', hrun, readFile_eq_ok.mpr ⟨p, fid, hp, ?_,
        (writeTextFile_text path content d).ok hrun⟩⟩
      have hfile := congrFun hbecomes.files
      rcases hbecomes.readable.findFile p with ⟨fid', f, hfind', hf', hpath⟩ | ⟨-, hnone'⟩
      · rw [hfile] at hf'
        by_cases heq : fid' = fid
        · rw [← heq, hfind']
        · rw [Function.update_of_ne heq] at hf'
          exact absurd ⟨fid', f, hf', hpath⟩ hnone
      · exact absurd ⟨fid, _, (hfile fid).trans (Function.update_self ..), rfl⟩ hnone'

end Doc

/-! ### The merge -/

namespace Cli

open Net

variable (L) (T : TextFormat)

/-- The turn of the loop: `merged` and `added`. -/
def mergePeer (s : List AuthorizedPeer × Nat) (peer : AuthorizedPeer) :
    List AuthorizedPeer × Nat :=
  if s.1.any fun p => p.pubkey = peer.pubkey then s else (s.1 ++ [peer], s.2 + 1)

/-- The keys of the argument, with commas read as newlines. -/
def newPeers (raw : Str) : List AuthorizedPeer :=
  parseAuthorizedKeys T (raw.map fun c => if c = ',' then '\n' else c)

def mergeAuthorizedKeys (raw : Str) : DocM Unit := do
  if (newPeers T raw).isEmpty then pure ()
  else
    let existing ← Program.attempt (Doc.read (Root.readFile L · authorizedKeysFile))
    let content := existing.toOption.getD []
    let (merged, added) := (newPeers T raw).foldl mergePeer (parseAuthorizedKeys T content, 0)
    if 0 < added then
      let _ ← Doc.writeTextFile L authorizedKeysFile (renderAuthorizedKeys T merged)
    else pure ()

/-- The peers in the document's file; where there is none that can be read, there are none. -/
def peersIn (d : Doc) : List AuthorizedPeer :=
  parseAuthorizedKeys T ((d.root.readFile L authorizedKeysFile).toOption.getD [])

/-- A peer has the key. -/
def Lists (peers : List AuthorizedPeer) (key : Pubkey) : Prop := ∃ p ∈ peers, p.pubkey = key

/-- What the loop adds are peers of the argument, and what it leaves out is there. -/
theorem foldl_mergePeer (peers merged : List AuthorizedPeer) (n : Nat) :
    ∃ added, peers.foldl mergePeer (merged, n) = (merged ++ added, n + added.length) ∧
      (∀ p ∈ added, p ∈ peers) ∧ (∀ p ∈ peers, Lists (merged ++ added) p.pubkey) ∧
      ((∀ p ∈ peers, Lists merged p.pubkey) → added = []) := by
  induction peers generalizing merged n with
  | nil => exact ⟨[], by simp, by simp, by simp, fun _ => rfl⟩
  | cons peer rest ih =>
    by_cases hin : Lists merged peer.pubkey
    · obtain ⟨added, hfold, hsub, hall, hnone⟩ := ih merged n
      refine ⟨added, ?_, fun p hp => List.mem_cons_of_mem _ (hsub p hp), ?_,
        fun h => hnone fun p hp => h p (List.mem_cons_of_mem _ hp)⟩
      · rw [List.foldl_cons, mergePeer, if_pos (by simpa [Lists] using hin)]
        exact hfold
      · refine List.forall_mem_cons.mpr ⟨?_, hall⟩
        obtain ⟨p, hp, hkey⟩ := hin
        exact ⟨p, List.mem_append_left _ hp, hkey⟩
    · obtain ⟨added, hfold, hsub, hall, -⟩ := ih (merged ++ [peer]) (n + 1)
      rw [List.append_assoc, List.singleton_append] at hfold hall
      refine ⟨peer :: added, ?_, ?_, ?_, fun h => absurd (h peer List.mem_cons_self) hin⟩
      · rw [List.foldl_cons, mergePeer, if_neg (by simpa [Lists] using hin)]
        rw [hfold, List.length_cons]
        congr 1
        omega
      · exact List.forall_mem_cons.mpr ⟨List.mem_cons_self,
          fun p hp => List.mem_cons_of_mem _ (hsub p hp)⟩
      · exact List.forall_mem_cons.mpr ⟨⟨peer, by simp, rfl⟩, hall⟩

theorem attempt_read {α : Type} (f : Root → Except Error α) (d : Doc) :
    Program.attempt (Doc.read f) d = .ok (f d.root) d := by
  unfold Program.attempt Doc.read
  cases f d.root <;> rfl

/-- The loop of a call on a document. -/
def merging (raw : Str) (d : Doc) : List AuthorizedPeer × Nat :=
  (newPeers T raw).foldl mergePeer (peersIn L T d, 0)

theorem mergeAuthorizedKeys_eq (raw : Str) (d : Doc) (hne : newPeers T raw ≠ []) :
    mergeAuthorizedKeys L T raw d =
      if 0 < (merging L T raw d).2 then
        (Doc.writeTextFile L authorizedKeysFile
          (renderAuthorizedKeys T (merging L T raw d).1) >>= fun _ => pure ()) d
      else .ok () d := by
  rw [mergeAuthorizedKeys, if_neg (by simpa using hne), Program.bind_ok (attempt_read _ d)]
  show (if 0 < (merging L T raw d).2 then _ else _ : DocM Unit) d = _
  split <;> rfl

/-- Where every key is listed already, nothing is written. -/
theorem mergeAuthorizedKeys_listed {raw : Str} {d : Doc}
    (h : ∀ p ∈ newPeers T raw, Lists (peersIn L T d) p.pubkey) :
    mergeAuthorizedKeys L T raw d = .ok () d := by
  by_cases hne : newPeers T raw = []
  · rw [mergeAuthorizedKeys, if_pos (by simpa using hne)]
    rfl
  · obtain ⟨added, hfold, -, -, hnone⟩ := foldl_mergePeer (newPeers T raw) (peersIn L T d) 0
    rw [mergeAuthorizedKeys_eq L T raw d hne, merging, hfold, hnone h]
    rfl

/-- What a call leaves: the keys that were there first, as they were, then those of the argument
that are new. -/
structure OnlyAdds (raw : Str) (d d' : Doc) : Prop where
  keys : ∀ key, Lists (peersIn L T d') key ↔ Lists (peersIn L T d) key ∨ Lists (newPeers T raw) key
  first : peersIn L T d <+: peersIn L T d'
  unwritten : (∀ key, Lists (newPeers T raw) key → Lists (peersIn L T d) key) → d' = d
  again : mergeAuthorizedKeys L T raw d' = .ok () d'

/-- **Keys are only ever added, each once.** -/
theorem mergeAuthorizedKeys_onlyAdds {d : Doc} (h : d.root.Readable L) (hf : d.Fresh) {p : Str}
    (hp : Path.normalize L.nfc authorizedKeysFile = .ok p) (raw : Str) :
    Doc.Ends (mergeAuthorizedKeys L T raw) d fun _ d' => OnlyAdds L T raw d d' := by
  by_cases hall : ∀ p ∈ newPeers T raw, Lists (peersIn L T d) p.pubkey
  · have hrun := mergeAuthorizedKeys_listed L T hall
    refine ⟨(), d, hrun, fun key => ⟨.inl, fun hkey => hkey.elim id ?_⟩, List.prefix_refl _,
      fun _ => rfl, hrun⟩
    rintro ⟨p, hp, rfl⟩
    exact hall p hp
  · have hne : newPeers T raw ≠ [] := by
      intro hnil
      rw [hnil] at hall
      exact hall (by simp)
    obtain ⟨added, hfold, hsub, hlists, -⟩ := foldl_mergePeer (newPeers T raw) (peersIn L T d) 0
    have hadded : added ≠ [] := by
      rintro rfl
      rw [List.append_nil] at hlists
      exact hall hlists
    have htidy : ∀ p ∈ peersIn L T d ++ added, p.Tidy := List.forall_mem_append.mpr
      ⟨fun p hp => tidy_of_parse hp, fun p hp => tidy_of_parse (hsub p hp)⟩
    obtain ⟨fid, d', hrun, hread⟩ := Doc.writeTextFile_reads h hf hp
      (renderAuthorizedKeys T (peersIn L T d ++ added))
    have hpeers : peersIn L T d' = peersIn L T d ++ added := by
      rw [peersIn, hread]
      exact parse_render_of_tidy htidy
    refine ⟨(), d', ?_, fun key => ?_, ?_, fun hkeys => ?_, ?_⟩
    · rw [mergeAuthorizedKeys_eq L T raw d hne, merging, hfold,
        if_pos (by simpa using List.length_pos_of_ne_nil hadded)]
      exact Program.bind_ok hrun
    · rw [hpeers]
      constructor
      · rintro ⟨p, hp, rfl⟩
        exact (List.mem_append.mp hp).imp (fun hp => ⟨p, hp, rfl⟩) fun hp => ⟨p, hsub p hp, rfl⟩
      · rintro (⟨p, hp, rfl⟩ | ⟨p, hp, rfl⟩)
        · exact ⟨p, List.mem_append_left _ hp, rfl⟩
        · exact hlists p hp
    · rw [hpeers]
      exact List.prefix_append _ _
    · exact absurd (fun p hp => hkeys _ ⟨p, hp, rfl⟩) hall
    · refine mergeAuthorizedKeys_listed L T ?_
      rw [hpeers]
      exact hlists

private def keyText (n : UInt8) : Str := Pubkey.toSshString standardText (.fill n)

/-- A vault whose file has two keys, one of them with a label, and a remark between them. -/
private def labelled : Doc :=
  (Doc.new .plain (txt "vault") (.numbered '1' 16)).after
    ((FileOp.writeTextFile authorizedKeysFile
      (keyText 1 ++ txt " alice\n# the other machine\n" ++ keyText 2 ++ txt "\n")).run .plain)

/-- One of the two keys is given again, with a label, and one that is new. -/
theorem mergeAuthorizedKeys_labelled :
    let raw := keyText 2 ++ txt " bob," ++ keyText 3 ++ txt " carol"
    (peersIn .plain standardText labelled).map AuthorizedPeer.label = [txt "alice", []] ∧
      Doc.Ends (mergeAuthorizedKeys .plain standardText raw) labelled fun _ d' =>
        OnlyAdds .plain standardText raw labelled d' := by
  intro raw
  have hrooted : labelled.Rooted .plain .plain :=
    (Doc.Rooted.new (txt "vault") (Supply.numbered_injective '1' 16)).file _
  exact ⟨by decide +kernel, mergeAuthorizedKeys_onlyAdds .plain standardText
    hrooted.settled.readable hrooted.settled.fresh (p := authorizedKeysFile) (by decide) raw⟩

end Cli

end AgentSync
