import AgentSync.Basic

/-! Vault paths.

`normalize` is what every local operation puts its paths through; a path that came
from another machine has not been. A path is `Normalized` when `normalize` leaves it
alone, which is to say that it is a join of good segments (`normalized_iff`). -/
namespace AgentSync

/-- Unicode NFC, which comes from another crate: it works on each segment by itself and
neither makes nor removes the characters that paths are taken apart by. -/
structure Nfc where
  nfc : Str → Str
  idem : ∀ s, nfc (nfc s) = nfc s
  slash : ∀ s t, nfc (s ++ '/' :: t) = nfc s ++ '/' :: nfc t
  count : ∀ s, ∀ c ∈ ['/', '\\', '.', '\x00'], (nfc s).count c = s.count c

namespace Path

/-- `parts.join("/")`. -/
def joinSlash (parts : List Str) : Str := ['/'].intercalate parts

/-- The segments of a path that are not skipped, or the error for one that is refused. -/
def keepSegments (nfc : Str) : List Str → Except Error (List Str)
  | [] => .ok []
  | seg :: rest =>
    if seg = [] ∨ seg = ['.'] then keepSegments nfc rest
    else if seg = ['.', '.'] then
      .error (.invalidPath (txt "path traversal not allowed: " ++ nfc))
    else if seg.contains '\x00' then .error (.invalidPath (txt "nul byte in path"))
    else do
      let parts ← keepSegments nfc rest
      return seg :: parts

def normalize (N : Nfc) (input : Str) : Except Error Str :=
  if input = [] then .error (.invalidPath (txt "path is empty"))
  else
    let unified := input.map fun c => if c = '\\' then '/' else c
    let nfc := N.nfc unified
    if nfc.head? = some '/' then
      .error (.invalidPath (txt "path must be relative: " ++ nfc))
    else do
      let parts ← keepSegments nfc (nfc.splitOn '/')
      if parts = [] then .error (.invalidPath (txt "path resolves to empty"))
      else return joinSlash parts

/-- The directory part of a path, empty at the root. -/
def parent (path : Str) : Str :=
  match path.reverse.dropWhile (· != '/') with
  | [] => []
  | _ :: rest => rest.reverse

/-- The proper prefixes of a list, shortest first, without the empty one. -/
def ancestorsOf (acc : Str) : List Str → List Str
  | [] => []
  | [_] => []
  | seg :: rest =>
    let acc := if acc = [] then seg else acc ++ '/' :: seg
    acc :: ancestorsOf acc rest

def ancestors (path : Str) : List Str := ancestorsOf [] (path.splitOn '/')

/-- `child` is `prefix` or lies below it. -/
def under (dir child : Str) : Bool :=
  dir = [] || child = dir || (dir.isPrefixOf child && (child.drop dir.length).head? == some '/')

/-! ### Normalized paths -/

variable {N : Nfc}

/-- A segment that `normalize` keeps as it is. -/
structure Segment (N : Nfc) (seg : Str) : Prop where
  ne_nil : seg ≠ []
  ne_dot : seg ≠ ['.']
  ne_dotdot : seg ≠ ['.', '.']
  slash : '/' ∉ seg
  backslash : '\\' ∉ seg
  nul : '\x00' ∉ seg
  nfc : N.nfc seg = seg

def Normalized (N : Nfc) (p : Str) : Prop := normalize N p = .ok p

theorem keepSegments_of_segments {nfc : Str} {segs : List Str} (h : ∀ s ∈ segs, Segment N s) :
    keepSegments nfc segs = .ok segs := by
  induction segs with
  | nil => rfl
  | cons seg rest ih =>
    have hseg := h seg (List.mem_cons_self)
    have hrest := ih fun s hs => h s (List.mem_cons_of_mem _ hs)
    simp [keepSegments, hseg.ne_nil, hseg.ne_dot, hseg.ne_dotdot, hseg.nul, hrest, bind,
      Except.bind, pure, Except.pure]

theorem nfc_joinSlash {segs : List Str} (h : ∀ s ∈ segs, N.nfc s = s) (hne : segs ≠ []) :
    N.nfc (joinSlash segs) = joinSlash segs := by
  induction segs with
  | nil => exact absurd rfl hne
  | cons seg rest ih =>
    cases rest with
    | nil => simpa [joinSlash] using h seg (List.mem_cons_self)
    | cons seg' rest' =>
      have hrest := ih (fun s hs => h s (List.mem_cons_of_mem _ hs)) (by simp)
      unfold joinSlash at hrest ⊢
      rw [List.intercalate_cons_cons, List.append_assoc, List.singleton_append, N.slash, hrest,
        h seg (List.mem_cons_self)]

theorem mem_joinSlash {segs : List Str} {c : Char} (h : c ∈ joinSlash segs) :
    c = '/' ∨ ∃ s ∈ segs, c ∈ s := by
  induction segs with
  | nil => simp [joinSlash] at h
  | cons seg rest ih =>
    cases rest with
    | nil => exact .inr ⟨seg, List.mem_cons_self, by simpa [joinSlash] using h⟩
    | cons seg' rest' =>
      unfold joinSlash at h ih
      rw [List.intercalate_cons_cons, List.append_assoc] at h
      simp only [List.mem_append, List.mem_singleton] at h
      obtain h | h | h := h
      · exact .inr ⟨seg, List.mem_cons_self, h⟩
      · exact .inl h
      · obtain h | ⟨s, hs, hc⟩ := ih h
        · exact .inl h
        · exact .inr ⟨s, List.mem_cons_of_mem _ hs, hc⟩

theorem mem_joinSlash_of_mem {segs : List Str} {seg : Str} {c : Char} (hseg : seg ∈ segs)
    (hc : c ∈ seg) : c ∈ joinSlash segs := by
  induction segs with
  | nil => cases hseg
  | cons s rest ih =>
    cases rest with
    | nil =>
      obtain rfl := List.mem_singleton.mp hseg
      simpa [joinSlash] using hc
    | cons s' rest' =>
      unfold joinSlash at ih ⊢
      rw [List.intercalate_cons_cons, List.append_assoc]
      obtain rfl | hseg := List.mem_cons.mp hseg
      · exact List.mem_append_left _ hc
      · exact List.mem_append_right _ (List.mem_append_right _ (ih hseg))

theorem head?_joinSlash {segs : List Str} (h : ∀ s ∈ segs, Segment N s) :
    (joinSlash segs).head? ≠ some '/' := by
  cases segs with
  | nil => simp [joinSlash]
  | cons seg rest =>
    have hseg := h seg (List.mem_cons_self)
    obtain ⟨c, cs, rfl⟩ := List.exists_cons_of_ne_nil hseg.ne_nil
    have hc : c ≠ '/' := fun hc => hseg.slash (hc ▸ List.mem_cons_self)
    cases rest <;> simp [joinSlash, hc]

theorem joinSlash_ne_nil {segs : List Str} (h : ∀ s ∈ segs, Segment N s) (hne : segs ≠ []) :
    joinSlash segs ≠ [] := by
  obtain ⟨seg, rest, rfl⟩ := List.exists_cons_of_ne_nil hne
  have hseg := (h seg List.mem_cons_self).ne_nil
  cases rest <;> simp [joinSlash, hseg]

/-- A join of good segments is left alone. -/
theorem normalized_joinSlash {segs : List Str} (h : ∀ s ∈ segs, Segment N s) (hne : segs ≠ []) :
    Normalized N (joinSlash segs) := by
  have hnil := joinSlash_ne_nil h hne
  have hunified : (joinSlash segs).map (fun c => if c = '\\' then '/' else c) = joinSlash segs := by
    refine (List.map_congr_left fun c hc => ?_).trans (List.map_id _)
    have hback : c ≠ '\\' := by
      rintro rfl
      obtain hslash | ⟨s, hs, hc⟩ := mem_joinSlash hc
      · cases hslash
      · exact (h s hs).backslash hc
    simp [hback]
  have hsplit : (joinSlash segs).splitOn '/' = segs :=
    List.splitOn_intercalate '/' (fun s hs => (h s hs).slash) hne
  simp only [Normalized, normalize, hnil, if_false, hunified,
    nfc_joinSlash (fun s hs => (h s hs).nfc) hne, head?_joinSlash h, hsplit,
    keepSegments_of_segments h, bind, Except.bind, hne, pure, Except.pure]

theorem keepSegments_eq_ok {nfc : Str} {segs parts : List Str}
    (h : keepSegments nfc segs = .ok parts) :
    ∀ s ∈ parts, s ∈ segs ∧ s ≠ [] ∧ s ≠ ['.'] ∧ s ≠ ['.', '.'] ∧ '\x00' ∉ s := by
  induction segs generalizing parts with
  | nil =>
    obtain rfl := Except.ok.inj h
    simp
  | cons seg rest ih =>
    unfold keepSegments at h
    split at h
    next =>
      intro s hs
      exact ⟨List.mem_cons_of_mem _ (ih h s hs).1, (ih h s hs).2⟩
    next hkeep =>
      split at h
      next => cases h
      next hdots =>
        split at h
        next => cases h
        next hnul =>
          obtain ⟨parts', hparts, h⟩ := bind_eq_ok.mp h
          obtain rfl := Except.ok.inj h
          intro s hs
          obtain rfl | hs := List.mem_cons.mp hs
          · refine ⟨List.mem_cons_self, ?_, ?_, hdots, by simpa using hnul⟩
            · exact fun h => hkeep (.inl h)
            · exact fun h => hkeep (.inr h)
          · exact ⟨List.mem_cons_of_mem _ (ih hparts s hs).1, (ih hparts s hs).2⟩

theorem notMem_of_mem_splitOn {c : Char} {s seg : Str} (h : seg ∈ s.splitOn c) : c ∉ seg := by
  induction s generalizing seg with
  | nil =>
    rw [List.splitOn_nil, List.mem_singleton] at h
    simp [h]
  | cons d rest ih =>
    rw [List.splitOn_cons_eq_if_modifyHead] at h
    split at h
    next =>
      obtain rfl | h := List.mem_cons.mp h
      · exact List.not_mem_nil
      · exact ih h
    next hd =>
      cases hsplit : rest.splitOn c with
      | nil => exact absurd hsplit (List.splitOn_ne_nil c rest)
      | cons seg' rest' =>
        rw [hsplit, List.modifyHead_cons] at h
        obtain rfl | h := List.mem_cons.mp h
        · have hseg' : c ∉ seg' := ih (hsplit ▸ List.mem_cons_self)
          simp only [beq_iff_eq] at hd
          simpa [hseg'] using Ne.symm hd
        · exact ih (hsplit ▸ List.mem_cons_of_mem _ h)

theorem joinSlash_splitOn (s : Str) : joinSlash (s.splitOn '/') = s := List.intercalate_splitOn '/'

/-- The first segment and the rest determine each other. -/
theorem append_slash_inj {a b s t : Str} (ha : '/' ∉ a) (hb : '/' ∉ b)
    (h : a ++ '/' :: s = b ++ '/' :: t) : a = b ∧ s = t := by
  have hsplit := congrArg (List.splitOn '/') h
  rw [List.splitOn_append_cons_self_of_not_mem ha,
    List.splitOn_append_cons_self_of_not_mem hb] at hsplit
  obtain ⟨hab, hst⟩ := List.cons.inj hsplit
  refine ⟨hab, ?_⟩
  rw [← joinSlash_splitOn s, hst, joinSlash_splitOn]

theorem notMem_nfc {s : Str} {c : Char} (hc : c ∈ ['/', '\\', '.', '\x00']) (h : c ∉ s) :
    c ∉ N.nfc s := by
  rw [← List.count_eq_zero] at h ⊢
  rw [N.count s c hc, h]

/-- In a string that NFC leaves alone every segment is left alone. -/
theorem nfc_segments {segs : List Str} (hslash : ∀ s ∈ segs, '/' ∉ s)
    (h : N.nfc (joinSlash segs) = joinSlash segs) : ∀ s ∈ segs, N.nfc s = s := by
  induction segs with
  | nil => simp
  | cons seg rest ih =>
    cases rest with
    | nil =>
      intro s hs
      obtain rfl := List.mem_singleton.mp hs
      simpa [joinSlash] using h
    | cons seg' rest' =>
      have hseg : '/' ∉ seg := hslash seg (List.mem_cons_self)
      unfold joinSlash at h ih
      rw [List.intercalate_cons_cons, List.append_assoc, List.singleton_append, N.slash] at h
      obtain ⟨hhead, htail⟩ := append_slash_inj (notMem_nfc (by simp) hseg) hseg h
      intro s hs
      obtain rfl | hs := List.mem_cons.mp hs
      · exact hhead
      · exact ih (fun s hs => hslash s (List.mem_cons_of_mem _ hs)) htail s hs

/-- What `normalize` accepts is a join of good segments. -/
theorem segments_of_normalize {s q : Str} (h : normalize N s = .ok q) :
    ∃ segs, segs ≠ [] ∧ (∀ t ∈ segs, Segment N t) ∧ q = joinSlash segs := by
  unfold normalize at h
  split at h
  next => cases h
  next =>
    simp only at h
    split at h
    next => cases h
    next =>
      obtain ⟨parts, hparts, h⟩ := bind_eq_ok.mp h
      split at h
      next => cases h
      next hne =>
        obtain rfl := Except.ok.inj h
        refine ⟨parts, hne, fun t ht => ?_, rfl⟩
        generalize hu : s.map (fun c => if c = '\\' then '/' else c) = u at hparts
        obtain ⟨hmem, hnil, hdot, hdotdot, hnul⟩ := keepSegments_eq_ok hparts t ht
        have hback : '\\' ∉ u := by
          rw [← hu]
          intro hc
          obtain ⟨c, -, hc⟩ := List.mem_map.mp hc
          split at hc
          next => cases hc
          next hne => exact hne hc
        have hbacknfc : '\\' ∉ joinSlash ((N.nfc u).splitOn '/') := by
          rw [joinSlash_splitOn]
          exact notMem_nfc (by simp) hback
        refine ⟨hnil, hdot, hdotdot, notMem_of_mem_splitOn hmem, fun hc => ?_, hnul, ?_⟩
        · exact hbacknfc (mem_joinSlash_of_mem hmem hc)
        · refine nfc_segments (fun s hs => notMem_of_mem_splitOn hs) ?_ t hmem
          rw [joinSlash_splitOn, N.idem]

theorem normalized_of_normalize {s q : Str} (h : normalize N s = .ok q) : Normalized N q := by
  obtain ⟨segs, hne, hsegs, rfl⟩ := segments_of_normalize h
  exact normalized_joinSlash hsegs hne

/-- **Normalized paths are the joins of good segments.** -/
theorem normalized_iff {p : Str} :
    Normalized N p ↔ ∃ segs, segs ≠ [] ∧ (∀ t ∈ segs, Segment N t) ∧ p = joinSlash segs := by
  constructor
  · exact segments_of_normalize
  · intro ⟨segs, hne, hsegs, hp⟩
    exact hp ▸ normalized_joinSlash hsegs hne

theorem Normalized.segments {p : Str} (h : Normalized N p) :
    ∀ t ∈ p.splitOn '/', Segment N t := by
  obtain ⟨segs, hne, hsegs, rfl⟩ := normalized_iff.mp h
  rwa [joinSlash, List.splitOn_intercalate '/' (fun s hs => (hsegs s hs).slash) hne]

theorem normalized_of_segments {p : Str} (h : ∀ t ∈ p.splitOn '/', Segment N t) :
    Normalized N p :=
  normalized_iff.mpr ⟨_, List.splitOn_ne_nil '/' p, h, (joinSlash_splitOn p).symm⟩

theorem joinSlash_concat {segs : List Str} (hne : segs ≠ []) (seg : Str) :
    joinSlash (segs ++ [seg]) = joinSlash segs ++ '/' :: seg := by
  induction segs with
  | nil => exact absurd rfl hne
  | cons s rest ih =>
    cases rest with
    | nil => simp [joinSlash]
    | cons s' rest' =>
      have hrest := ih (by simp)
      unfold joinSlash at hrest ⊢
      rw [List.cons_append, List.cons_append, List.intercalate_cons_cons,
        List.intercalate_cons_cons, ← List.cons_append, hrest]
      simp

/-- The prefix that a turn of the loop goes on with. -/
theorem joinSlash_next {acc : List Str} (hacc : ∀ t ∈ acc, Segment N t) (seg : Str) :
    (if joinSlash acc = [] then seg else joinSlash acc ++ '/' :: seg) =
      joinSlash (acc ++ [seg]) := by
  by_cases hnil : acc = []
  · simp [hnil, joinSlash]
  · rw [if_neg (joinSlash_ne_nil hacc hnil), joinSlash_concat hnil]

theorem normalized_of_mem_ancestorsOf {acc segs : List Str} {q : Str}
    (hacc : ∀ t ∈ acc, Segment N t) (hsegs : ∀ t ∈ segs, Segment N t)
    (h : q ∈ ancestorsOf (joinSlash acc) segs) : Normalized N q := by
  induction segs generalizing acc with
  | nil => cases h
  | cons seg rest ih =>
    cases rest with
    | nil => cases h
    | cons seg' rest' =>
      have hseg := hsegs seg List.mem_cons_self
      have hacc' : ∀ t ∈ acc ++ [seg], Segment N t := by
        rw [List.forall_mem_append, List.forall_mem_singleton]
        exact ⟨hacc, hseg⟩
      have hjoin := joinSlash_next hacc seg
      simp only [ancestorsOf, hjoin] at h
      obtain rfl | h := List.mem_cons.mp h
      · exact normalized_joinSlash hacc' (by simp)
      · exact ih hacc' (fun t ht => hsegs t (List.mem_cons_of_mem _ ht)) h

/-- The ancestors of a path are its proper prefixes. -/
theorem Normalized.ancestors {p : Str} (hp : Normalized N p) :
    ∀ q ∈ ancestors p, Normalized N q := fun _ hq =>
  @normalized_of_mem_ancestorsOf N [] _ _ (by simp) hp.segments hq

/-- Moving a path from one directory to another, as `rename_directory` does. -/
theorem Normalized.move {src dst p : Str} (hdst : Normalized N dst) (hp : Normalized N p)
    (hunder : under src p = true) (hsrc : Normalized N src) (hne : p ≠ src) :
    Normalized N (dst ++ p.drop src.length) := by
  have hnil : src ≠ [] := by
    rintro rfl
    cases hsrc
  simp only [under, Bool.or_eq_true, decide_eq_true_eq, hnil, hne, false_or, Bool.and_eq_true,
    List.isPrefixOf_iff_prefix, beq_iff_eq] at hunder
  obtain ⟨⟨tail, rfl⟩, hhead⟩ := hunder
  rw [List.drop_left] at hhead ⊢
  obtain ⟨c, rest, rfl⟩ := List.exists_cons_of_ne_nil (show tail ≠ [] by
    rintro rfl
    cases hhead)
  obtain rfl : c = '/' := by simpa using hhead
  refine normalized_of_segments fun t ht => ?_
  rw [List.splitOn_append_cons_self] at ht
  obtain ht | ht := List.mem_append.mp ht
  · exact hdst.segments t ht
  · refine hp.segments t ?_
    rw [List.splitOn_append_cons_self]
    exact List.mem_append_right _ ht

/-! ### What lies below -/

/-- `child` lies strictly below `dir`. -/
def Below (dir child : Str) : Prop := ∃ t, child = dir ++ '/' :: t

instance (dir child : Str) : Decidable (Below dir child) :=
  decidable_of_iff ((dir ++ ['/']).isPrefixOf child = true) <| by
    rw [List.isPrefixOf_iff_prefix]
    constructor
    · rintro ⟨t, rfl⟩
      exact ⟨t, by simp⟩
    · rintro ⟨t, rfl⟩
      exact ⟨t, by simp⟩

theorem Below.trans {a b c : Str} (h : Below a b) (h' : Below b c) : Below a c := by
  obtain ⟨s, rfl⟩ := h
  obtain ⟨t, rfl⟩ := h'
  exact ⟨s ++ '/' :: t, by simp⟩

theorem Below.length_lt {a b : Str} (h : Below a b) : a.length < b.length := by
  obtain ⟨t, rfl⟩ := h
  simp

theorem Below.ne {a b : Str} (h : Below a b) : a ≠ b := fun heq =>
  absurd h.length_lt (by simp [heq])

/-- Two paths above one path are comparable. -/
theorem Below.comparable {a b c : Str} (ha : Below a c) (hb : Below b c) :
    a = b ∨ Below a b ∨ Below b a := by
  obtain ⟨s, rfl⟩ := ha
  obtain ⟨t, ht⟩ := hb
  rcases List.append_eq_append_iff.mp ht with ⟨u, rfl, hu⟩ | ⟨u, rfl, hu⟩
  · cases u with
    | nil => exact .inl (by simp)
    | cons c rest =>
      obtain rfl := (List.cons.inj hu).1
      exact .inr (.inl ⟨rest, rfl⟩)
  · cases u with
    | nil => exact .inl (by simp)
    | cons c rest =>
      obtain rfl := (List.cons.inj hu).1
      exact .inr (.inr ⟨rest, rfl⟩)

theorem under_iff {dir child : Str} (hdir : dir ≠ []) :
    under dir child = true ↔ child = dir ∨ Below dir child := by
  simp only [under, Bool.or_eq_true, decide_eq_true_eq, hdir, false_or, Bool.and_eq_true,
    List.isPrefixOf_iff_prefix, beq_iff_eq]
  refine or_congr_right ⟨fun h => ?_, fun h => ?_⟩
  · obtain ⟨⟨t, rfl⟩, hhead⟩ := h
    rw [List.drop_left] at hhead
    obtain ⟨c, rest, rfl⟩ := List.exists_cons_of_ne_nil (show t ≠ [] by
      rintro rfl
      cases hhead)
    obtain rfl : c = '/' := by simpa using hhead
    exact ⟨rest, rfl⟩
  · obtain ⟨t, rfl⟩ := h
    exact ⟨List.prefix_append _ _, by simp⟩

theorem Normalized.ne_nil {p : Str} (h : Normalized N p) : p ≠ [] := by
  rintro rfl
  cases h

/-- What `delete_directory` and `rename_directory` take for a child. -/
theorem strictlyUnder_iff {dir child : Str} (hdir : dir ≠ []) :
    (under dir child && child != dir) = true ↔ Below dir child := by
  rw [Bool.and_eq_true, under_iff hdir, bne_iff_ne]
  refine ⟨fun h => h.1.resolve_left h.2, fun h => ⟨.inr h, h.ne.symm⟩⟩

theorem mem_ancestorsOf {acc segs : List Str} {q : Str} (hacc : ∀ t ∈ acc, Segment N t)
    (hsegs : ∀ t ∈ segs, Segment N t) : q ∈ ancestorsOf (joinSlash acc) segs ↔
      ∃ front back, front ≠ [] ∧ back ≠ [] ∧ segs = front ++ back ∧ q = joinSlash (acc ++ front) := by
  induction segs generalizing acc with
  | nil => simp [ancestorsOf]
  | cons seg rest ih =>
    cases rest with
    | nil =>
      simp only [ancestorsOf, List.not_mem_nil, false_iff]
      intro ⟨front, back, hfront, hback, heq, _⟩
      have hlength := congrArg List.length heq
      have := List.length_pos_of_ne_nil hfront
      have := List.length_pos_of_ne_nil hback
      simp only [List.length_singleton, List.length_append] at hlength
      omega
    | cons seg' rest' =>
      have hseg := hsegs seg List.mem_cons_self
      have hacc' : ∀ t ∈ acc ++ [seg], Segment N t := by
        rw [List.forall_mem_append, List.forall_mem_singleton]
        exact ⟨hacc, hseg⟩
      have hjoin := joinSlash_next hacc seg
      simp only [ancestorsOf, hjoin, List.mem_cons]
      rw [ih hacc' fun t ht => hsegs t (List.mem_cons_of_mem _ ht)]
      constructor
      · rintro (rfl | ⟨front, back, -, hback, heq, rfl⟩)
        · exact ⟨[seg], seg' :: rest', by simp, by simp, rfl, rfl⟩
        · exact ⟨seg :: front, back, by simp, hback, by rw [List.cons_append, heq], by simp⟩
      · intro ⟨front, back, hfront, hback, heq, hq⟩
        obtain ⟨c, front', rfl⟩ := List.exists_cons_of_ne_nil hfront
        obtain ⟨rfl, hrest⟩ := List.cons.inj heq
        cases front' with
        | nil => exact .inl hq
        | cons c' front' =>
          exact .inr ⟨c' :: front', back, by simp, hback, hrest, by rw [hq]; simp⟩

theorem joinSlash_append {front back : List Str} (hfront : front ≠ []) (hback : back ≠ []) :
    joinSlash (front ++ back) = joinSlash front ++ '/' :: joinSlash back := by
  induction front with
  | nil => exact absurd rfl hfront
  | cons seg rest ih =>
    cases rest with
    | nil =>
      obtain ⟨seg', rest', rfl⟩ := List.exists_cons_of_ne_nil hback
      simp [joinSlash, List.intercalate_cons_cons]
    | cons seg' rest' =>
      have hrest := ih (by simp)
      unfold joinSlash at hrest ⊢
      rw [List.cons_append, List.cons_append, List.intercalate_cons_cons,
        List.intercalate_cons_cons, ← List.cons_append, hrest]
      simp

/-- **The ancestors of a path are the paths that it lies below.** -/
theorem Normalized.mem_ancestors {p q : Str} (hp : Normalized N p) :
    q ∈ Path.ancestors p ↔ Below q p := by
  have h := @mem_ancestorsOf N [] (p.splitOn '/') q (by simp) hp.segments
  rw [Path.ancestors, show ([] : Str) = joinSlash [] from rfl, h]
  constructor
  · intro ⟨front, back, hfront, hback, heq, hq⟩
    refine ⟨joinSlash back, ?_⟩
    rw [hq, ← joinSlash_splitOn p, heq, List.nil_append, joinSlash_append hfront hback]
  · intro ⟨t, ht⟩
    refine ⟨q.splitOn '/', t.splitOn '/', List.splitOn_ne_nil _ _, List.splitOn_ne_nil _ _, ?_, ?_⟩
    · rw [ht, List.splitOn_append_cons_self]
    · rw [List.nil_append, joinSlash_splitOn]

/-- What the loop still adds lies below what it has. -/
theorem below_of_mem_ancestorsOf {acc : Str} {segs : List Str} (hacc : acc ≠ []) {q : Str}
    (h : q ∈ ancestorsOf acc segs) : Below acc q := by
  induction segs generalizing acc with
  | nil => cases h
  | cons seg rest ih =>
    cases rest with
    | nil => cases h
    | cons seg' rest' =>
      have hnext : Below acc (acc ++ '/' :: seg) := ⟨seg, rfl⟩
      simp only [ancestorsOf, hacc, if_false, List.mem_cons] at h
      obtain rfl | h := h
      · exact hnext
      · exact hnext.trans (ih (by simp) h)

theorem pairwise_ancestorsOf {acc : Str} {segs : List Str} (hsegs : ∀ t ∈ segs, t ≠ []) :
    (ancestorsOf acc segs).Pairwise Below := by
  induction segs generalizing acc with
  | nil => exact List.Pairwise.nil
  | cons seg rest ih =>
    cases rest with
    | nil => exact List.Pairwise.nil
    | cons seg' rest' =>
      have hacc : (if acc = [] then seg else acc ++ '/' :: seg) ≠ [] := by
        split
        next => exact hsegs seg List.mem_cons_self
        next => simp
      simp only [ancestorsOf, List.pairwise_cons]
      exact ⟨fun _ hq => below_of_mem_ancestorsOf hacc hq,
        ih fun t ht => hsegs t (List.mem_cons_of_mem _ ht)⟩

/-- Every ancestor lies below the one before it. -/
theorem Normalized.pairwise_ancestors {p : Str} (hp : Normalized N p) :
    (Path.ancestors p).Pairwise Below :=
  pairwise_ancestorsOf fun t ht => (hp.segments t ht).ne_nil

/-- No ancestor comes twice. -/
theorem Normalized.nodup_ancestors {p : Str} (hp : Normalized N p) :
    (Path.ancestors p).Nodup := hp.pairwise_ancestors.imp Below.ne

/-! ### Moving -/

/-- The path that something at or below `src` gets when `src` becomes `dst`. -/
def moved (src dst p : Str) : Str := dst ++ p.drop src.length

@[simp] theorem moved_self (src dst : Str) : moved src dst src = dst := by
  simp [moved]

theorem moved_below (src dst t : Str) : moved src dst (src ++ '/' :: t) = dst ++ '/' :: t := by
  simp [moved]

theorem Below.moved {src dst p : Str} (h : Below src p) : Below dst (moved src dst p) := by
  obtain ⟨t, rfl⟩ := h
  exact ⟨t, moved_below src dst t⟩

theorem moved_inj {src dst p q : Str} (hp : p = src ∨ Below src p) (hq : q = src ∨ Below src q)
    (h : Path.moved src dst p = Path.moved src dst q) : p = q := by
  have hcut (p : Str) (hp : p = src ∨ Below src p) : p = src ++ p.drop src.length := by
    rcases hp with rfl | ⟨t, rfl⟩ <;> simp
  rw [hcut p hp, hcut q hq, List.append_cancel_left h]

end Path

end AgentSync
