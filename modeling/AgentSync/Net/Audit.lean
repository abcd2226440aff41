import Mathlib.Data.List.AList
import Mathlib.Data.List.Perm.Subperm
import AgentSync.Net.AuthorizedKeys

/-! The audit of `authorized_keys`.

The enforcer keeps the keys it has read last, and logs what has come and what has gone when it
reads them again. It logs nothing where the map is as large as the list and holds all of it; a
list with a duplicate may be as long as the map and lack one of its keys, and is the only one
that is misreported (`logAuthorizedDiff_exact_iff`). -/
namespace AgentSync.Net

inductive AuditEvent where
  | added
  | removed
  deriving DecidableEq

def AuditEvent.message : AuditEvent → Str
  | added => txt "peer added to authorized_keys"
  | removed => txt "peer removed from authorized_keys"

/-- A line of the log. -/
structure Notice where
  event : AuditEvent
  pubkey : Pubkey
  label : Str
  deriving DecidableEq

/-- What the line shows: `fp`, `label` and the message. -/
def Notice.shown (C : Crypto) (n : Notice) : Str × Str × Str :=
  (C.fingerprint n.pubkey, n.label, n.event.message)

def labelOrUnlabeled (s : Str) : Str := if s.isEmpty then txt "(unlabeled)" else s

/-- The keys the enforcer knows, with their labels; of two labels for a key the later stays. -/
abbrev KnownPeers := AList fun _ : Pubkey => Str

def KnownPeers.collect (peers : List AuthorizedPeer) : KnownPeers :=
  peers.foldl (fun known p => known.insert p.pubkey p.label) ∅

/-- Nothing is to be logged, by the check before the loops. -/
def unchanged (prev : KnownPeers) (current : List AuthorizedPeer) : Bool :=
  prev.entries.length = current.length && current.all fun p => p.pubkey ∈ prev

def logAuthorizedDiff (prev : KnownPeers) (current : List AuthorizedPeer) : List Notice :=
  if unchanged prev current then []
  else
    (current.filter fun p => p.pubkey ∉ prev).map
      (fun p => ⟨.added, p.pubkey, labelOrUnlabeled p.label⟩) ++
    (prev.entries.filter fun e => e.1 ∉ current.map AuthorizedPeer.pubkey).map
      fun e => ⟨.removed, e.1, labelOrUnlabeled e.2⟩

/-- The log has a line for the key. -/
def Logged (log : List Notice) (event : AuditEvent) (key : Pubkey) : Prop :=
  ∃ n ∈ log, n.event = event ∧ n.pubkey = key

/-- Just the keys that have come and those that have gone are logged, and the check before the
loops passes only where there are none. -/
structure ExactAudit (prev : KnownPeers) (current : List AuthorizedPeer) : Prop where
  added : ∀ key, Logged (logAuthorizedDiff prev current) .added key ↔
    key ∈ current.map AuthorizedPeer.pubkey ∧ key ∉ prev
  removed : ∀ key, Logged (logAuthorizedDiff prev current) .removed key ↔
    key ∈ prev ∧ key ∉ current.map AuthorizedPeer.pubkey
  early : unchanged prev current = true →
    ∀ key, key ∈ prev ↔ key ∈ current.map AuthorizedPeer.pubkey

variable {prev : KnownPeers} {current : List AuthorizedPeer}

theorem unchanged_iff : unchanged prev current = true ↔
    prev.keys.length = (current.map AuthorizedPeer.pubkey).length ∧
      current.map AuthorizedPeer.pubkey ⊆ prev.keys := by
  simp [unchanged, AList.keys, List.keys, List.subset_def, AList.mem_keys]

/-- Past the check both loops run. -/
theorem exactAudit_of_changed (h : unchanged prev current ≠ true) : ExactAudit prev current := by
  have hlog : logAuthorizedDiff prev current = _ := if_neg h
  refine ⟨fun key => ?_, fun key => ?_, fun hsame => absurd hsame h⟩
  all_goals
    rw [Logged, hlog]
    simp only [List.mem_append, List.mem_map, List.mem_filter, decide_eq_true_eq]
  · constructor
    · intro ⟨n, hn, hevent, hkey⟩
      obtain ⟨p, ⟨hp, hnew⟩, rfl⟩ | ⟨e, -, rfl⟩ := hn
      · subst hkey
        exact ⟨⟨p, hp, rfl⟩, hnew⟩
      · cases hevent
    · intro ⟨⟨p, hp, hkey⟩, hnew⟩
      subst hkey
      exact ⟨_, .inl ⟨p, ⟨hp, hnew⟩, rfl⟩, rfl, rfl⟩
  · constructor
    · intro ⟨n, hn, hevent, hkey⟩
      obtain ⟨p, -, rfl⟩ | ⟨e, ⟨he, hgone⟩, rfl⟩ := hn
      · cases hevent
      · subst hkey
        exact ⟨AList.mem_keys.mpr (List.mem_map_of_mem he), hgone⟩
    · intro ⟨hin, hgone⟩
      obtain ⟨e, he, rfl⟩ := List.mem_map.mp (AList.mem_keys.mp hin)
      exact ⟨_, .inr ⟨e, ⟨he, hgone⟩, rfl⟩, rfl, rfl⟩

/-- Where the check passes, the audit is exact only if the list lacks no key of the map. -/
theorem exactAudit_of_unchanged (h : unchanged prev current = true) :
    ExactAudit prev current ↔ prev.keys ⊆ current.map AuthorizedPeer.pubkey := by
  have hall := (unchanged_iff.mp h).2
  have hlog : logAuthorizedDiff prev current = [] := if_pos h
  have hquiet (event : AuditEvent) (key : Pubkey) :
      ¬ Logged (logAuthorizedDiff prev current) event key := by
    rw [Logged, hlog]
    simp
  constructor
  · intro hexact key hkey
    exact (hexact.early h key).mp (AList.mem_keys.mpr hkey)
  · intro hsub
    have hsame (key : Pubkey) : key ∈ prev ↔ key ∈ current.map AuthorizedPeer.pubkey :=
      ⟨fun hkey => hsub (AList.mem_keys.mp hkey), fun hkey => AList.mem_keys.mpr (hall hkey)⟩
    refine ⟨fun key => iff_of_false (hquiet _ key) ?_, fun key => iff_of_false (hquiet _ key) ?_,
      fun _ => hsame⟩
    · exact fun ⟨hin, hnew⟩ => hnew ((hsame key).mpr hin)
    · exact fun ⟨hin, hgone⟩ => hgone ((hsame key).mp hin)

/-- A list of keys that is as long as the map and from the map lacks none exactly when none
stands in it twice. -/
theorem subset_iff_nodup {keys : List Pubkey} (hlen : prev.keys.length = keys.length)
    (hall : keys ⊆ prev.keys) : prev.keys ⊆ keys ↔ keys.Nodup := by
  constructor
  · intro hsub
    have hperm := (List.subperm_of_subset prev.keys_nodup hsub).perm_of_length_le hlen.ge
    exact hperm.nodup prev.keys_nodup
  · intro hnodup
    exact ((List.subperm_of_subset hnodup hall).perm_of_length_le hlen.le).symm.subset

/-- **The audit is exact unless the list holds a key twice, is as long as the map and adds
nothing to it.** -/
theorem logAuthorizedDiff_exact_iff (prev : KnownPeers) (current : List AuthorizedPeer) :
    ExactAudit prev current ↔ (current.map AuthorizedPeer.pubkey).Nodup ∨
      prev.entries.length ≠ current.length ∨ ∃ p ∈ current, p.pubkey ∉ prev := by
  have hcheck : unchanged prev current = true ↔
      ¬ (prev.entries.length ≠ current.length ∨ ∃ p ∈ current, p.pubkey ∉ prev) := by
    simp [unchanged]
  by_cases h : unchanged prev current = true
  · obtain ⟨hlen, hall⟩ := unchanged_iff.mp h
    rw [exactAudit_of_unchanged h, subset_iff_nodup hlen hall]
    exact ⟨.inl, fun hor => hor.resolve_right (hcheck.mp h)⟩
  · refine iff_of_true (exactAudit_of_changed h) (.inr ?_)
    exact not_not.mp fun hno => h (hcheck.mpr hno)

private def twoKnown : KnownPeers := .collect [⟨.fill 1, txt "laptop"⟩, ⟨.fill 2, txt "phone"⟩]

private def oneTwice : List AuthorizedPeer := [⟨.fill 1, txt "laptop"⟩, ⟨.fill 1, txt "laptop"⟩]

/-- A line that is overwritten with a copy of another: the key that has gone is not logged. -/
theorem logAuthorizedDiff_overwritten :
    ¬ ExactAudit twoKnown oneTwice ∧ logAuthorizedDiff twoKnown oneTwice = [] := by
  have hlog : logAuthorizedDiff twoKnown oneTwice = [] := by decide +kernel
  have hgone : Array32.fill 2 ∈ twoKnown ∧
      Array32.fill 2 ∉ oneTwice.map AuthorizedPeer.pubkey := by decide +kernel
  refine ⟨fun hexact => ?_, hlog⟩
  obtain ⟨n, hn, -⟩ := (hexact.removed (.fill 2)).mpr hgone
  rw [hlog] at hn
  cases hn

end AgentSync.Net
