import Mathlib.Data.Prod.Lex
import AgentSync.Doc.Ancestry

/-! Content that does not depend on how it arrived.

A history has all that its changes depend on, so the heads of a part of it lead to just that
part, in every history that has it (`mem_upTo_headsOf`). What a register holds is made of the
writes to it and above it (`Automerge.Local`): a history with more changes, that arrived in
another order, reads the same wherever the others write nothing. Replaying by the number of
ancestors is one way to get there (`Automerge.arranged`). -/
namespace AgentSync

open Relation

/-- Each change once, after all it depends on. -/
structure Intact (changes : List Change) : Prop where
  ordered : Ordered changes
  nodup : (changes.map Change.hash).Nodup

/-- The change writes neither to the register nor above it. -/
def Change.Spares (a : Addr) (c : Change) : Prop :=
  ∀ op ∈ c.ops, op.target ≠ a ∧ op.target ∉ a.ancestors

/-- **What a register holds is made of the writes to it and above it**, in whatever order they
have arrived. -/
def Automerge.Local (A : Automerge) : Prop :=
  ∀ S T, Intact S → Intact T → S ⊆ T → ∀ a, (∀ c ∈ T, c ∉ S → c.Spares a) →
    (A.view T).get a = (A.view S).get a

variable {A : Automerge} {S T changes : List Change} {c c' : Change} {h h' : ChangeHash}

/-- Histories with the same changes have the same content. -/
theorem Automerge.Local.same (hA : A.Local) (hS : Intact S) (hT : Intact T)
    (hmem : ∀ c, c ∈ S ↔ c ∈ T) (a : Addr) : (A.view T).get a = (A.view S).get a :=
  hA S T hS hT (fun c hc => (hmem c).mp hc) a fun c hc hno => absurd ((hmem c).mpr hc) hno

/-! ### Parts of a history -/

namespace Intact

theorem of_concat (h : Intact (changes ++ [c])) : Intact changes where
  ordered := (ordered_concat_iff.mp h.ordered).1
  nodup := by
    have hnodup := h.nodup
    rw [List.map_append] at hnodup
    exact (List.nodup_append.mp hnodup).1

theorem history (h : Intact changes) : IsHistory changes := .of_ordered h.ordered h.nodup

theorem new_of_concat (h : Intact (changes ++ [c])) : c.hash ∉ changes.map Change.hash := by
  have hnodup := h.nodup
  rw [List.map_append, List.map_singleton] at hnodup
  exact fun hin => (List.nodup_append.mp hnodup).2.2 _ hin _ (List.mem_singleton.mpr rfl) rfl

theorem upTo (h : Intact changes) (wanted : List ChangeHash) :
    Intact (upTo changes.reverse wanted).reverse where
  ordered := ordered_upTo h.ordered wanted
  nodup := by
    rw [List.map_reverse, List.nodup_reverse]
    have hnodup := List.nodup_reverse.mpr h.nodup
    rw [← List.map_reverse] at hnodup
    exact hnodup.sublist ((upTo_sublist changes.reverse wanted).map _)

/-- What a change of a part depends on is in the part. -/
theorem within (hS : Intact S) (hT : Intact T) (hsub : S ⊆ T) (hc : c ∈ S)
    (hdep : ReflTransGen (Depends T) c.hash h) :
    ReflTransGen (Depends S) c.hash h ∧ h ∈ S.map Change.hash := by
  induction hdep with
  | refl => exact ⟨.refl, List.mem_map_of_mem hc⟩
  | tail _ hstep ih =>
    obtain ⟨hreach, hin⟩ := ih
    obtain ⟨c₁, hc₁, rfl⟩ := List.mem_map.mp hin
    obtain ⟨c₂, hc₂, heq, hdep⟩ := hstep
    obtain rfl := hT.history.unique hc₂ (hsub hc₁) heq
    obtain ⟨c₃, hc₃, rfl⟩ := hS.history.closed c₂ hc₁ _ hdep
    exact ⟨hreach.tail ⟨c₂, hc₁, rfl, hdep⟩, List.mem_map_of_mem hc₃⟩

end Intact

theorem Depends.mono (hsub : S ⊆ T) (hdep : ReflTransGen (Depends S) h h') :
    ReflTransGen (Depends T) h h' := by
  induction hdep with
  | refl => exact .refl
  | tail _ hstep ih =>
    obtain ⟨c, hc, heq, hin⟩ := hstep
    exact ih.tail ⟨c, hsub hc, heq, hin⟩

/-- The last change is at most the first on a way to an earlier one. -/
theorem Depends.of_concat (hS : Intact (S ++ [c']))
    (hdep : ReflTransGen (Depends (S ++ [c'])) h c.hash) :
    ReflTransGen (Depends S) h c.hash ∨
      h = c'.hash ∧ ∃ h' ∈ c'.deps, ReflTransGen (Depends S) h' c.hash := by
  have hsub : S ⊆ S ++ [c'] := List.subset_append_left _ _
  rcases ReflTransGen.cases_head hdep with rfl | ⟨h', ⟨c₁, hc₁, rfl, hin⟩, hrest⟩
  · exact .inl .refl
  · rcases List.mem_append.mp hc₁ with hc₁ | hc₁
    · exact .inl (hS.of_concat.within hS hsub hc₁ hdep).1
    · rw [List.mem_singleton.mp hc₁] at hin ⊢
      obtain ⟨c₂, hc₂, rfl⟩ := List.mem_map.mp ((ordered_concat_iff.mp hS.ordered).2 hin)
      exact .inr ⟨rfl, _, hin, (hS.of_concat.within hS hsub hc₂ hrest).1⟩

/-- Nothing depends on the last change. -/
theorem Depends.eq_last (hS : Intact (S ++ [c]))
    (hdep : ReflTransGen (Depends (S ++ [c])) h c.hash) : h = c.hash := by
  rcases ReflTransGen.cases_tail hdep with heq | ⟨h', -, ⟨c₁, hc₁, -, hin⟩⟩
  · exact heq.symm
  · refine absurd ?_ hS.new_of_concat
    rcases List.mem_append.mp hc₁ with hc₁ | hc₁
    · obtain ⟨c₂, hc₂, heq⟩ := hS.of_concat.history.closed c₁ hc₁ _ hin
      exact List.mem_map.mpr ⟨c₂, hc₂, heq⟩
    · rw [List.mem_singleton.mp hc₁] at hin
      exact (ordered_concat_iff.mp hS.ordered).2 hin

/-- **What is up to some hashes is what they lead to.** -/
theorem mem_upTo_iff (hS : Intact S) {wanted : List ChangeHash} :
    c ∈ upTo S.reverse wanted ↔
      c ∈ S ∧ ∃ h ∈ wanted, ReflTransGen (Depends S) h c.hash := by
  induction S using List.reverseRecOn generalizing wanted with
  | nil => simp [upTo]
  | append_singleton S last ih =>
    have hsub : S ⊆ S ++ [last] := List.subset_append_left _ _
    have hlast : last ∈ S ++ [last] := by simp
    rw [List.reverse_append, List.reverse_singleton, List.singleton_append, AgentSync.upTo]
    split
    next hw =>
      rw [List.mem_cons, ih hS.of_concat]
      constructor
      · rintro (rfl | ⟨hc, h, hh, hdep⟩)
        · exact ⟨hlast, _, List.contains_iff_mem.mp hw, .refl⟩
        · rcases List.mem_append.mp hh with hh | hh
          · have hstep : Depends (S ++ [last]) last.hash h := ⟨last, hlast, rfl, hh⟩
            exact ⟨hsub hc, _, List.contains_iff_mem.mp hw, .head hstep (Depends.mono hsub hdep)⟩
          · exact ⟨hsub hc, h, hh, Depends.mono hsub hdep⟩
      · rintro ⟨hc, h, hh, hdep⟩
        rcases List.mem_append.mp hc with hc | hc
        · rcases Depends.of_concat hS hdep with hdep | ⟨-, h', hh', hdep⟩
          · exact .inr ⟨hc, h, List.mem_append_right _ hh, hdep⟩
          · exact .inr ⟨hc, h', List.mem_append_left _ hh', hdep⟩
        · exact .inl (List.mem_singleton.mp hc)
    next hw =>
      rw [ih hS.of_concat]
      constructor
      · rintro ⟨hc, h, hh, hdep⟩
        exact ⟨hsub hc, h, hh, Depends.mono hsub hdep⟩
      · rintro ⟨hc, h, hh, hdep⟩
        have hne : h ≠ last.hash := by
          rintro rfl
          exact hw (List.contains_iff_mem.mpr hh)
        rcases List.mem_append.mp hc with hc | hc
        · rcases Depends.of_concat hS hdep with hdep | ⟨heq, -⟩
          · exact ⟨hc, h, hh, hdep⟩
          · exact absurd heq hne
        · rw [List.mem_singleton.mp hc] at hdep
          exact absurd (Depends.eq_last hS hdep) hne

/-- A history is what its heads lead to. -/
theorem exists_head (hS : Intact S) (hc : c ∈ S) :
    ∃ h ∈ headsOf S, ReflTransGen (Depends S) h c.hash := by
  have hin : c ∈ upTo S.reverse (headsOf S) := by
    rw [upTo_headsOf hS.ordered hS.nodup (List.Subset.refl _)]
    exact List.mem_reverse.mpr hc
  exact ((mem_upTo_iff hS).mp hin).2

/-- **The heads of a part lead to just the part.** -/
theorem mem_upTo_headsOf (hS : Intact S) (hT : Intact T) (hsub : S ⊆ T) :
    c ∈ upTo T.reverse (headsOf S) ↔ c ∈ S := by
  rw [mem_upTo_iff hT]
  constructor
  · rintro ⟨hc, h, hh, hdep⟩
    obtain ⟨c₁, hc₁, rfl⟩ := List.mem_map.mp (headsOf_subset S hh)
    obtain ⟨c₂, hc₂, heq⟩ := List.mem_map.mp (hS.within hT hsub hc₁ hdep).2
    rwa [← hT.history.unique (hsub hc₂) hc heq]
  · intro hc
    obtain ⟨h, hh, hdep⟩ := exists_head hS hc
    exact ⟨hsub hc, h, hh, Depends.mono hsub hdep⟩

/-! ### Replaying by ancestors -/

section SortBy

variable {α κ : Type} [LinearOrder κ] {key key' : α → κ} {xs ys : List α}

def sortBy (key : α → κ) (xs : List α) : List α := xs.insertionSort fun a b => key a ≤ key b

theorem perm_sortBy : (sortBy key xs).Perm xs := List.perm_insertionSort _ xs

theorem pairwise_sortBy : (sortBy key xs).Pairwise fun a b => key a ≤ key b := by
  have htotal : Std.Total fun a b : α => key a ≤ key b := ⟨fun a b => le_total (key a) (key b)⟩
  have htrans : IsTrans α fun a b => key a ≤ key b := ⟨fun _ _ _ => le_trans⟩
  exact List.pairwise_insertionSort _ xs

/-- Where no two have one key there is one way to sort them. -/
theorem eq_sortBy (hkey : Set.InjOn key {a | a ∈ xs}) (hperm : ys.Perm xs)
    (hys : ys.Pairwise fun a b => key a ≤ key b) : ys = sortBy key xs := by
  refine (hperm.trans perm_sortBy.symm).eq_of_pairwise (fun a b ha hb hab hba => ?_) hys
    pairwise_sortBy
  exact hkey (hperm.subset ha) (perm_sortBy.subset hb) (le_antisymm hab hba)

end SortBy

/-- How many changes a change has under it, itself included, and its hash. -/
def standing (S : List Change) (c : Change) : Nat ×ₗ List Nat :=
  toLex ((upTo S.reverse [c.hash]).length, c.hash.val.map UInt8.toNat)

theorem standing_injOn (hS : Intact S) (T : List Change) :
    Set.InjOn (standing T) {c | c ∈ S} := by
  intro c hc c' hc' heq
  have hbytes : c.hash.val.map UInt8.toNat = c'.hash.val.map UInt8.toNat := congrArg (·.2) heq
  have hinj : Function.Injective UInt8.toNat := fun _ _ => UInt8.toNat_inj.mp
  exact hS.history.unique hc hc' (Subtype.ext (List.map_injective_iff.mpr hinj hbytes))

/-- More changes do not change what a change has under it. -/
theorem standing_congr (hS : Intact S) (hT : Intact T) (hsub : S ⊆ T) (hc : c ∈ S) :
    standing T c = standing S c := by
  have hnodup {S : List Change} (hS : Intact S) : (upTo S.reverse [c.hash]).Nodup :=
    (List.nodup_reverse.mp (hS.upTo [c.hash]).nodup.of_map)
  have hperm : (upTo T.reverse [c.hash]).Perm (upTo S.reverse [c.hash]) := by
    refine (List.perm_ext_iff_of_nodup (hnodup hT) (hnodup hS)).mpr fun x => ?_
    rw [mem_upTo_iff hT, mem_upTo_iff hS]
    simp only [List.mem_singleton, exists_eq_left]
    constructor
    · rintro ⟨hx, hdep⟩
      obtain ⟨hreach, hin⟩ := hS.within hT hsub hc hdep
      obtain ⟨x', hx', heq⟩ := List.mem_map.mp hin
      rw [← hT.history.unique (hsub hx') hx heq] at hreach ⊢
      exact ⟨hx', hreach⟩
    · rintro ⟨hx, hdep⟩
      exact ⟨hsub hx, Depends.mono hsub hdep⟩
  rw [standing, standing, hperm.length_eq]

/-- `Intact`, with the latest change first. -/
def intactFrom : List Change → Bool
  | [] => true
  | c :: rest => intactFrom rest && (c.deps.all fun h => rest.any fun c' => c'.hash = h) &&
    !rest.any fun c' => c'.hash = c.hash

theorem intactFrom_reverse : intactFrom S.reverse = true ↔ Intact S := by
  induction S using List.reverseRecOn with
  | nil => exact ⟨fun _ => ⟨fun before c after heq => by simp at heq, List.nodup_nil⟩, fun _ => rfl⟩
  | append_singleton S c ih =>
    have hany (h : ChangeHash) : (S.reverse.any fun c' => c'.hash = h) = true ↔
        h ∈ S.map Change.hash := by
      simp [List.any_eq_true, List.mem_map]
    rw [List.reverse_append, List.reverse_singleton, List.singleton_append, intactFrom,
      Bool.and_eq_true, Bool.and_eq_true, ih, List.all_eq_true, Bool.not_eq_true',
      ← Bool.not_eq_true, hany]
    simp only [hany]
    constructor
    · rintro ⟨⟨hS, hdeps⟩, hnew⟩
      refine ⟨hS.ordered.concat hdeps, ?_⟩
      rw [List.map_append, List.map_singleton]
      exact List.nodup_append.mpr ⟨hS.nodup, List.nodup_singleton _, fun h hh h' hh' heq =>
        hnew (List.mem_singleton.mp hh' ▸ heq ▸ hh)⟩
    · exact fun h => ⟨⟨h.of_concat, (ordered_concat_iff.mp h.ordered).2⟩, h.new_of_concat⟩

/-- Changes in an order that only the changes themselves decide. A history that is not intact
is taken as it comes from where it stops to be. -/
def arrangeFrom : List Change → List Change
  | [] => []
  | c :: rest =>
    if intactFrom (c :: rest) then sortBy (standing (c :: rest).reverse) (c :: rest).reverse
    else arrangeFrom rest ++ [c]

def arrange (S : List Change) : List Change := arrangeFrom S.reverse

theorem arrange_concat_eq (S : List Change) (c : Change) :
    arrange (S ++ [c]) = if intactFrom (S ++ [c]).reverse then
      sortBy (standing (S ++ [c])) (S ++ [c]) else arrange S ++ [c] := by
  have hconcat : (S ++ [c]).reverse = c :: S.reverse := by simp
  rw [arrange, arrange, hconcat, arrangeFrom, ← hconcat, List.reverse_reverse]

theorem arrange_of_intact (hS : Intact S) : arrange S = sortBy (standing S) S := by
  cases S using List.reverseRecOn with
  | nil => rfl
  | append_singleton S c => rw [arrange_concat_eq, if_pos (intactFrom_reverse.mpr hS)]

theorem perm_arrange (S : List Change) : (arrange S).Perm S := by
  induction S using List.reverseRecOn with
  | nil => exact .refl _
  | append_singleton S c ih =>
    rw [arrange_concat_eq]
    split
    next => exact perm_sortBy
    next => exact ih.append_right [c]

theorem standing_le_length (hS : Intact S) (hT : Intact (S ++ [c'])) (hc : c ∈ S) :
    (ofLex (standing (S ++ [c']) c)).1 ≤ S.length := by
  rw [standing_congr hS hT (List.subset_append_left _ _) hc]
  have hlength := (upTo_sublist S.reverse [c.hash]).length_le
  rwa [List.length_reverse] at hlength

/-- A change on top of all others comes last. -/
theorem arrange_concat (hdeps : c.deps = headsOf S) : arrange (S ++ [c]) = arrange S ++ [c] := by
  by_cases hT : Intact (S ++ [c])
  · have hS := hT.of_concat
    have hsub : S ⊆ S ++ [c] := List.subset_append_left _ _
    have hmem {x : Change} (hx : x ∈ arrange S) : x ∈ S := (perm_arrange S).subset hx
    rw [arrange_of_intact hT]
    refine (eq_sortBy (standing_injOn hT _) ((perm_arrange S).append_right [c]) ?_).symm
    refine List.pairwise_append.mpr ⟨?_, List.pairwise_singleton _ _, fun x hx y hy => ?_⟩
    · rw [arrange_of_intact hS]
      refine pairwise_sortBy.imp_of_mem fun {x y} hx hy hle => ?_
      rwa [standing_congr hS hT hsub (perm_sortBy.subset hx),
        standing_congr hS hT hsub (perm_sortBy.subset hy)]
    · rw [List.mem_singleton.mp hy]
      have hall : upTo (S ++ [c]).reverse [c.hash] = c :: S.reverse := by
        rw [List.reverse_append, List.reverse_singleton, List.singleton_append, upTo,
          if_pos (List.contains_iff_mem.mpr (List.mem_singleton.mpr rfl)),
          upTo_headsOf hS.ordered hS.nodup (hdeps ▸ List.subset_append_left _ _)]
      have hlt : (ofLex (standing (S ++ [c]) x)).1 < (ofLex (standing (S ++ [c]) c)).1 := by
        refine (standing_le_length hS hT (hmem hx)).trans_lt ?_
        show S.length < (upTo (S ++ [c]).reverse [c.hash]).length
        rw [hall, List.length_cons, List.length_reverse]
        exact Nat.lt_succ_self _
      exact (Prod.Lex.lt_iff.mpr (.inl hlt)).le
  · rw [arrange_concat_eq, if_neg (mt intactFrom_reverse.mp hT)]

/-- A history with more changes has them in the same order. -/
theorem arrange_part (hS : Intact S) (hT : Intact T) (hsub : S ⊆ T) :
    (arrange T).filter (fun c => c ∈ S) = arrange S := by
  rw [arrange_of_intact hS]
  refine eq_sortBy (standing_injOn hS _) ?_ ?_
  · have hnodup {S : List Change} (hS : Intact S) : S.Nodup := hS.nodup.of_map
    have hperm := perm_arrange T
    refine (List.perm_ext_iff_of_nodup ((hperm.nodup_iff.mpr (hnodup hT)).filter _)
      (hnodup hS)).mpr fun c => ?_
    rw [List.mem_filter, hperm.mem_iff, decide_eq_true_iff]
    exact ⟨fun h => h.2, fun h => ⟨hsub h, h⟩⟩
  · rw [arrange_of_intact hT]
    refine List.Pairwise.imp_of_mem (fun {x y} hx hy hle => ?_) (pairwise_sortBy.filter _)
    have hin {x : Change} (hx : x ∈ (sortBy (standing T) T).filter fun c => c ∈ S) : x ∈ S :=
      of_decide_eq_true (List.mem_filter.mp hx).2
    rwa [standing_congr hS hT hsub (hin hx), standing_congr hS hT hsub (hin hy)] at hle

/-- A register is written as in another content where it is the same. -/
theorem get_apply_congr {r r' : Root} {a : Addr} (op : Op) (h : r.get a = r'.get a) :
    (op.apply r).get a = (op.apply r').get a := by
  cases op with
  | spliceText fid pos del insert =>
    by_cases ha : a = .content fid
    · subst ha
      have hops : ∀ op ∈ [Op.spliceText fid pos del insert], op.target = .content fid := by
        simp [Op.target]
      exact get_applyAll_congr (P := fun b => b = .content fid) hops (fun b hb => hb ▸ h) _ rfl
    · have hne : (Op.spliceText fid pos del insert).target ≠ a := Ne.symm ha
      have hanc : (Op.spliceText fid pos del insert).target ∉ a.ancestors := by
        cases a <;> simp [Op.target, Addr.ancestors]
      rw [get_apply_of_ne r _ hne hanc, get_apply_of_ne r' _ hne hanc, h]
  | _ => rw [Op.apply, Op.apply, Root.get_set, Root.get_set, h]

theorem get_applyAll_same {r r' : Root} {a : Addr} (ops : List Op) (h : r.get a = r'.get a) :
    (applyAll r ops).get a = (applyAll r' ops).get a := by
  induction ops generalizing r r' with
  | nil => exact h
  | cons op rest ih => exact ih (get_apply_congr op h)

/-- What spares a register can be left out. -/
theorem get_replay_filter (p : Change → Bool) {a : Addr}
    (hp : ∀ c ∈ changes, p c = false → c.Spares a) :
    (replay changes).get a = (replay (changes.filter p)).get a := by
  induction changes using List.reverseRecOn with
  | nil => rfl
  | append_singleton changes c ih =>
    have hrest := ih fun c' hc' => hp c' (List.mem_append_left _ hc')
    rw [replay_concat, List.filter_append]
    cases hc : p c with
    | true =>
      rw [List.filter_cons_of_pos hc, List.filter_nil, replay_concat]
      exact get_applyAll_same c.ops hrest
    | false =>
      rw [List.filter_cons_of_neg (by simp [hc]), List.filter_nil, List.append_nil, ← hrest]
      exact get_applyAll_of_ne (hp c (by simp) hc)

/-- Replaying in an order that only the changes themselves decide. -/
def Automerge.arranged (genesis : Str → ChangeHash) (missingHash : Str) : Automerge where
  view := fun S => AgentSync.replay (arrange S)
  genesis := genesis
  missingHash := missingHash
  view_nil := rfl
  view_commit := fun S c hdeps => by rw [arrange_concat hdeps, replay_concat]
  origin := fun S a v ha h => by
    obtain ⟨c, hc, hget, hrest⟩ := replay_origin (arrange S) a v ha h
    refine ⟨c, (perm_arrange S).subset hc, hget, fun b hb hsub hfoot hdel => ?_⟩
    exact hrest b hb hsub hfoot fun c' hc' => hdel c' ((perm_arrange S).subset hc')

theorem Automerge.local_arranged (genesis : Str → ChangeHash) (missingHash : Str) :
    (arranged genesis missingHash).Local := by
  intro S T hS hT hsub a hspared
  show (AgentSync.replay (arrange T)).get a = (AgentSync.replay (arrange S)).get a
  rw [get_replay_filter (fun c => c ∈ S) fun c hc hno => ?_, arrange_part hS hT hsub]
  exact hspared c ((perm_arrange T).subset hc) (of_decide_eq_false hno)

end AgentSync
