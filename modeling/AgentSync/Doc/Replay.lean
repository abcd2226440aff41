import Mathlib.Data.List.Infix
import AgentSync.Doc.Replica

/-! Replaying changes in order.

The simplest library that meets the laws of `Automerge`: the content is what the
operations of all changes leave, one after the other, so of two concurrent writes the
one that arrived later wins. Concrete histories are run with it. -/
namespace AgentSync

/-- The content that the changes leave in the order they are in. -/
def replay (changes : List Change) : Root := footprint (changes.flatMap Change.ops)

theorem replay_concat (changes : List Change) (c : Change) :
    replay (changes ++ [c]) = applyAll (replay changes) c.ops := by
  rw [replay, List.flatMap_append, List.flatMap_singleton, footprint, applyAll_append]
  rfl

theorem touches_of_footprint {ops : List Op} {b : Addr} (hb : b.isContent = false)
    (h : (footprint ops).get b ≠ none) : ops.any (Op.touches b) = true := by
  by_contra hno
  rw [footprint, get_applyAll _ _ hb, if_neg hno] at h
  exact h (Root.get_empty b)

/-- A register that is only ever set stays set. -/
theorem footprint_ne_none {ops : List Op} {b : Addr} (hb : b.isContent = false)
    (hops : ∀ op ∈ ops, op.touches b = true → ∃ v, op.writes = some (b, some v))
    (h : ops.any (Op.touches b) = true) : (footprint ops).get b ≠ none := by
  induction ops using List.reverseRecOn with
  | nil => cases h
  | append_singleton ops op ih =>
    rw [footprint_append _ _ hb]
    by_cases hop : op.touches b = true
    · obtain ⟨v, hv⟩ := hops op (by simp) hop
      rw [if_pos (by simpa using hop)]
      cases op <;> simp [Op.writes] at hv
      all_goals
        obtain ⟨rfl, rfl⟩ := hv
        simp [footprint, Op.apply]
    · rw [if_neg (by simpa using hop)]
      refine ih (fun op' hop' => hops op' (List.mem_append_left _ hop')) ?_
      simpa [hop] using h

theorem replay_origin (changes : List Change) (a : Addr) (v : Val) (ha : a.isContent = false)
    (h : (replay changes).get a = some v) :
    ∃ c ∈ changes, (footprint c.ops).get a = some v ∧
      ∀ b, b.isContent = false → b.ancestors ⊆ a :: a.ancestors →
        (footprint c.ops).get b ≠ none → (∀ c' ∈ changes, Op.delete b ∉ c'.ops) →
        (replay changes).get b ≠ none := by
  induction changes using List.reverseRecOn with
  | nil =>
    rw [replay, List.flatMap_nil, footprint, applyAll_nil, Root.get_empty] at h
    cases h
  | append_singleton changes c ih =>
    rw [replay_concat] at h ⊢
    rw [get_applyAll _ _ ha] at h
    split at h
    next htouch =>
      refine ⟨c, by simp, h, fun b hb _ hfoot _ => ?_⟩
      rwa [get_applyAll _ _ hb, if_pos (touches_of_footprint hb hfoot)]
    next hno =>
      obtain ⟨c₀, hc₀, hget, hrest⟩ := ih h
      refine ⟨c₀, List.mem_append_left _ hc₀, hget, fun b hb hsub hfoot hdel => ?_⟩
      have hold := hrest b hb hsub hfoot fun c' hc' => hdel c' (List.mem_append_left _ hc')
      rw [get_applyAll _ _ hb]
      split
      next htouch =>
        refine footprint_ne_none hb (fun op hop hopb => ?_) htouch
        -- An operation above `b` would be on the way to `a` too, and nothing touches `a`.
        have hopa : ¬ op.touches a = true := fun hopa => hno (List.any_eq_true.mpr ⟨op, hop, hopa⟩)
        unfold Op.touches at hopb hopa
        split at hopb
        next x w hw =>
          rw [hw] at hopa
          have hx : x = b := by
            by_contra hne
            have hxb : x ∈ b.ancestors := by simpa [Ne.symm hne] using hopb
            have hxa := hsub hxb
            simp only [List.mem_cons] at hxa
            grind
          subst hx
          cases w with
          | some v => exact ⟨v, hw⟩
          | none =>
            have hopdel : op = .delete x := by
              cases op <;> simp [Op.writes] at hw
              rw [hw]
            exact absurd (hopdel ▸ hop) (hdel c (by simp))
        next => cases hopb
      next => exact hold

/-- Replaying, with the hashes given. -/
def Automerge.replay (genesis : Str → ChangeHash) (missingHash : Str) : Automerge where
  view := AgentSync.replay
  genesis := genesis
  missingHash := missingHash
  view_nil := rfl
  view_commit := fun changes c _ => replay_concat changes c
  origin := replay_origin

/-! ### Concrete replicas -/

/-- Crates that suffice for ASCII paths and empty files. -/
def Crates.plain : Crates where
  nfc := ⟨id, fun _ => rfl, fun _ _ => rfl, fun _ _ _ => rfl⟩
  sha := emptyDigest
  debug := fun _ => []
  invalidOp := fun _ => []

def Automerge.plain : Automerge := .replay (fun _ => .fill 0) []

/-- A replica whose ids begin with `mark` and whose hashes are numbered from `byte`. -/
def Supply.numbered (mark : Char) (byte : UInt8) : Supply where
  now := fun n => n
  id := fun n => mark :: List.replicate n 'i'
  hash := fun n => .fill (byte + UInt8.ofNat n)

theorem Supply.numbered_injective (mark : Char) (byte : UInt8) :
    Function.Injective (Supply.numbered mark byte).id := by
  intro m n h
  simpa using congrArg List.length (List.cons.inj h).2

/-- A vault that one replica has run operations on. -/
def Doc.replica (supply : Supply) (ops : List LocalOp) : Doc :=
  ops.foldl (fun d op => d.after (op.run .plain .plain)) (.new .plain (txt "vault") supply)

theorem reachable_replica {supply : Supply} {ops : List LocalOp}
    (h : ∀ front ∈ ops.inits, (Doc.replica supply front).Distinct) :
    Reachable .plain .plain (Doc.replica supply ops) := by
  induction ops using List.reverseRecOn with
  | nil => exact .new _ _
  | append_singleton ops op ih =>
    have hall := h (ops ++ [op]) ((List.mem_inits _ _).mpr (List.prefix_refl _))
    have hconcat : Doc.replica supply (ops ++ [op]) =
        (Doc.replica supply ops).after (op.run .plain .plain) := List.foldl_append
    rw [hconcat] at hall ⊢
    refine .run op (ih fun front hfront => h front ?_) hall
    rw [List.mem_inits] at hfront ⊢
    exact hfront.trans (List.prefix_append _ _)

end AgentSync
