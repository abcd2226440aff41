import Mathlib.Data.List.Basic
import Mathlib.Data.List.Nodup
import Mathlib.Data.List.DropRight
import Mathlib.Data.List.Forall2
import AgentSync.Trimming

/-! Strings and maps of JavaScript.

A string is its UTF-16 code units, so that a lone surrogate is one too. A `Map` keeps its entries
in the order their keys were first set; one that is built anew from its own entries is the same
(`JsMap.foldl_set`). -/
namespace AgentSync.Js

/-! ### Strings -/

abbrev JsStr := List UInt16

/-- The code unit of an ASCII character. -/
def unit (c : Char) : UInt16 := UInt16.ofNat c.toNat

/-- A string literal. -/
def js (s : String) : JsStr := s.toList.map unit

def quote : UInt16 := unit '"'
def backslash : UInt16 := unit '\\'
def newline : UInt16 := unit '\n'

/-- White space and line terminators, as `trim` and `parseInt` skip them. -/
def isSpace (c : UInt16) : Bool :=
  c ∈ [0x09, 0x0A, 0x0B, 0x0C, 0x0D, 0x20, 0xA0, 0x1680, 0x2000, 0x2001, 0x2002, 0x2003, 0x2004,
    0x2005, 0x2006, 0x2007, 0x2008, 0x2009, 0x200A, 0x2028, 0x2029, 0x202F, 0x205F, 0x3000, 0xFEFF]

/-- `trim`. -/
def trim (s : JsStr) : JsStr := (s.dropWhile isSpace).rdropWhile isSpace

/-- What stands before and after the first `c`: `indexOf`, then two slices. -/
def cutAt (c : UInt16) : JsStr → Option (JsStr × JsStr)
  | [] => none
  | x :: rest => if x = c then some ([], rest) else (cutAt c rest).map fun (a, b) => (x :: a, b)

/-- `slice(start, end)` of two positions from the left. -/
def slice (s : JsStr) (a b : Nat) : JsStr := (s.take b).drop a

/-- `lastIndexOf` of a single unit. -/
def lastIndexOf (s : JsStr) (c : UInt16) : Option Nat :=
  (s.reverse.idxOf? c).map fun i => s.length - 1 - i

/-- The value of a hexadecimal digit. -/
def hexValue (c : UInt16) : Option Nat :=
  if unit '0' ≤ c ∧ c ≤ unit '9' then some (c.toNat - (unit '0').toNat)
  else if unit 'a' ≤ c ∧ c ≤ unit 'f' then some (c.toNat - (unit 'a').toNat + 10)
  else if unit 'A' ≤ c ∧ c ≤ unit 'F' then some (c.toNat - (unit 'A').toNat + 10)
  else none

/-- The digits that a string begins with, read after `n`. -/
def readHex (n : Nat) : JsStr → Nat
  | [] => n
  | c :: rest =>
    match hexValue c with
    | some d => readHex (16 * n + d) rest
    | none => n

/-- `parseInt(s, 16)`; `none` is `NaN`. -/
def parseHex (s : JsStr) : Option Int :=
  let s := s.dropWhile isSpace
  let negative := s.head? = some (unit '-')
  let s := if negative ∨ s.head? = some (unit '+') then s.tail else s
  let s := if s.take 2 = js "0x" ∨ s.take 2 = js "0X" then s.drop 2 else s
  if (s.head?.bind hexValue).isSome then
    some (if negative then -(readHex 0 s : Int) else readHex 0 s)
  else none

/-- `String.fromCharCode`, of `NaN` too. -/
def fromCharCode (n : Option Int) : UInt16 := UInt16.ofNat ((n.getD 0) % 65536).toNat

/-- Only the spaces around a text are trimmed. -/
theorem trim_append {a s b : JsStr} {c d : UInt16} (ha : a.all isSpace) (hb : b.all isSpace)
    (hc : s.head? = some c) (hcs : isSpace c = false) (hd : s.getLast? = some d)
    (hds : isSpace d = false) : trim (a ++ s ++ b) = s := by
  have hbare : Trimming.Bare isSpace s := by
    rw [Trimming.Bare, hc, hd]
    exact ⟨fun _ hx => Option.some.inj hx ▸ hcs, fun _ hx => Option.some.inj hx ▸ hds⟩
  have hne : s ≠ [] := fun hnil => by
    rw [hnil] at hc
    cases hc
  exact Trimming.trim_append hbare hne (List.all_eq_true.mp ha) (List.all_eq_true.mp hb)

/-- A text that begins with no space still begins so when it is trimmed. -/
theorem trim_cons {c : UInt16} (hc : isSpace c = false) (s : JsStr) :
    ∃ rest, trim (c :: s) = c :: rest := by
  rw [trim, List.dropWhile_cons_of_neg (by simp [hc]), List.rdropWhile, List.reverse_cons]
  generalize s.reverse = r
  induction r with
  | nil => exact ⟨[], by simp [hc]⟩
  | cons x r ih =>
    rw [List.cons_append, List.dropWhile_cons]
    split
    next => exact ih
    next => exact ⟨(x :: r).reverse, by simp⟩

theorem cutAt_append {c : UInt16} {a : JsStr} (ha : c ∉ a) (b : JsStr) :
    cutAt c (a ++ c :: b) = some (a, b) := by
  induction a with
  | nil => simp [cutAt]
  | cons x rest ih =>
    rw [List.mem_cons, not_or] at ha
    rw [List.cons_append, cutAt, if_neg (Ne.symm ha.1), ih ha.2]
    rfl

/-- What stands before the first `c` begins as the whole does. -/
theorem cutAt_cons {c x : UInt16} (hx : x ≠ c) {s a b : JsStr} (h : cutAt c (x :: s) = some (a, b)) :
    ∃ rest, a = x :: rest := by
  rw [cutAt, if_neg hx] at h
  obtain ⟨⟨a', b'⟩, -, hab⟩ := Option.map_eq_some_iff.mp h
  exact ⟨a', (congrArg Prod.fst hab).symm⟩

/-! ### Maps -/

variable {κ α β : Type} [DecidableEq κ]

/-- `Map.set` on the entries. -/
def setEntry (k : κ) (v : α) : List (κ × α) → List (κ × α)
  | [] => [(k, v)]
  | e :: rest => if e.1 = k then (k, v) :: rest else e :: setEntry k v rest

theorem setEntry_keys (k : κ) (v : α) (es : List (κ × α)) :
    (setEntry k v es).map Prod.fst =
      if k ∈ es.map Prod.fst then es.map Prod.fst else es.map Prod.fst ++ [k] := by
  induction es with
  | nil => rfl
  | cons e rest ih =>
    by_cases he : e.1 = k
    · simp [setEntry, he]
    · simp only [setEntry, if_neg he, List.map_cons, ih, List.mem_cons, Ne.symm he, false_or]
      split <;> rfl

theorem setEntry_of_notMem {k : κ} {v : α} {es : List (κ × α)} (hk : k ∉ es.map Prod.fst) :
    setEntry k v es = es ++ [(k, v)] := by
  induction es with
  | nil => rfl
  | cons e rest ih =>
    rw [List.map_cons, List.mem_cons, not_or] at hk
    rw [setEntry, if_neg (Ne.symm hk.1), ih hk.2, List.cons_append]

/-- A `Map`: its entries, in insertion order. -/
structure JsMap (κ α : Type) where
  entries : List (κ × α)
  nodup : (entries.map Prod.fst).Nodup

namespace JsMap

instance [DecidableEq α] : DecidableEq (JsMap κ α) := fun m m' =>
  decidable_of_iff (m.entries = m'.entries) ⟨fun h => by cases m; cases m'; simpa using h,
    fun h => congrArg _ h⟩

omit [DecidableEq κ] in
@[ext] theorem ext {m m' : JsMap κ α} (h : m.entries = m'.entries) : m = m' := by
  cases m
  cases m'
  simpa using h

instance : EmptyCollection (JsMap κ α) := ⟨⟨[], List.nodup_nil⟩⟩

/-- `Map.get`. -/
def get? (m : JsMap κ α) (k : κ) : Option α := (m.entries.find? fun e => e.1 = k).map Prod.snd

/-- `Map.set`. -/
def set (m : JsMap κ α) (k : κ) (v : α) : JsMap κ α where
  entries := setEntry k v m.entries
  nodup := by
    rw [setEntry_keys]
    split
    next => exact m.nodup
    next h => exact m.nodup.append (List.nodup_singleton k) (by simpa using h)

theorem mem_setEntry {k : κ} {v : α} {es : List (κ × α)} (hes : (es.map Prod.fst).Nodup)
    {e : κ × α} : e ∈ setEntry k v es ↔ e = (k, v) ∨ e.1 ≠ k ∧ e ∈ es := by
  induction es with
  | nil => simp [setEntry]
  | cons x rest ih =>
    rw [List.map_cons, List.nodup_cons] at hes
    by_cases hx : x.1 = k
    · have hrest : e ∈ rest → e.1 ≠ k := fun he h =>
        hes.1 (List.mem_map.mpr ⟨e, he, h.trans hx.symm⟩)
      rw [setEntry, if_pos hx, List.mem_cons, List.mem_cons]
      refine or_congr_right ⟨fun he => ⟨hrest he, .inr he⟩, ?_⟩
      rintro ⟨hek, rfl | he⟩
      · exact absurd hx hek
      · exact he
    · rw [setEntry, if_neg hx, List.mem_cons, ih hes.2, List.mem_cons]
      constructor
      · rintro (rfl | rfl | ⟨hek, he⟩)
        · exact .inr ⟨hx, .inl rfl⟩
        · exact .inl rfl
        · exact .inr ⟨hek, .inr he⟩
      · rintro (rfl | ⟨hek, rfl | he⟩)
        · exact .inr (.inl rfl)
        · exact .inl rfl
        · exact .inr (.inr ⟨hek, he⟩)

theorem mem_set {m : JsMap κ α} {k : κ} {v : α} {e : κ × α} :
    e ∈ (m.set k v).entries ↔ e = (k, v) ∨ e.1 ≠ k ∧ e ∈ m.entries := mem_setEntry m.nodup

/-- `get` finds every entry. -/
theorem get?_eq_some {m : JsMap κ α} {k : κ} {v : α} : m.get? k = some v ↔ (k, v) ∈ m.entries := by
  obtain ⟨es, hes⟩ := m
  show (es.find? fun e => e.1 = k).map Prod.snd = some v ↔ (k, v) ∈ es
  induction es with
  | nil => simp
  | cons x rest ih =>
    rw [List.map_cons, List.nodup_cons] at hes
    rw [List.find?_cons]
    by_cases hx : x.1 = k
    · simp only [hx, decide_true, Option.map_some, Option.some.injEq, List.mem_cons]
      constructor
      · rintro rfl
        exact .inl (by rw [← hx])
      · rintro (h | h)
        · rw [← h]
        · exact absurd (List.mem_map.mpr ⟨_, h, hx.symm⟩) hes.1
    · have hne : (k, v) ≠ x := fun h => hx (by rw [← h])
      simp only [hx, decide_false, ih hes.2, List.mem_cons, hne, false_or]

/-- A key has one entry at most. -/
theorem filter_key (m : JsMap κ α) (k : κ) :
    m.entries.filter (fun e => e.1 = k) = (m.get? k).toList.map (k, ·) := by
  obtain ⟨es, hes⟩ := m
  show es.filter (fun e => e.1 = k) = ((es.find? fun e => e.1 = k).map Prod.snd).toList.map (k, ·)
  induction es with
  | nil => rfl
  | cons x rest ih =>
    rw [List.map_cons, List.nodup_cons] at hes
    by_cases hx : x.1 = k
    · subst hx
      have hrest : rest.filter (fun e => e.1 = x.1) = [] := by
        refine List.filter_eq_nil_iff.mpr fun e he h => hes.1 ?_
        exact List.mem_map.mpr ⟨e, he, of_decide_eq_true h⟩
      simp [hrest]
    · simpa [hx] using ih hes.2

theorem set_of_notMem {m : JsMap κ α} {k : κ} (hk : k ∉ m.entries.map Prod.fst) (v : α) :
    (m.set k v).entries = m.entries ++ [(k, v)] := setEntry_of_notMem hk

/-- A new value for the key that was set last. -/
theorem set_last {m : JsMap κ α} {pre : List (κ × α)} {k : κ} {v : α}
    (hm : m.entries = pre ++ [(k, v)]) (v' : α) : (m.set k v').entries = pre ++ [(k, v')] := by
  have hk : k ∉ pre.map Prod.fst := by
    have hnodup := m.nodup
    rw [hm, List.map_append, List.nodup_append] at hnodup
    intro h
    exact hnodup.2.2 k h k (by simp) rfl
  show setEntry k v' m.entries = _
  rw [hm]
  clear hm
  induction pre with
  | nil => simp [setEntry]
  | cons x pre ih =>
    rw [List.map_cons, List.mem_cons, not_or] at hk
    rw [List.cons_append, setEntry, if_neg (Ne.symm hk.1), ih hk.2]
    rfl

/-- **A `Map` that is built anew has the entries it is built from, in their order.** -/
theorem foldl_set {m : JsMap κ α} {es : List (κ × α)}
    (hes : ((m.entries ++ es).map Prod.fst).Nodup) :
    (es.foldl (fun m e => m.set e.1 e.2) m).entries = m.entries ++ es := by
  induction es generalizing m with
  | nil => simp
  | cons e es ih =>
    have he : e.1 ∉ m.entries.map Prod.fst := by
      rw [List.map_append, List.nodup_append] at hes
      intro h
      exact hes.2.2 _ h e.1 (by simp) rfl
    have hset : (m.set e.1 e.2).entries = m.entries ++ [e] := set_of_notMem he e.2
    rw [List.foldl_cons, ih (by rw [hset, List.append_assoc]; exact hes), hset, List.append_assoc]
    rfl

/-- `Map.keys`. -/
def keys (m : JsMap κ α) : List κ := m.entries.map Prod.fst

/-- `Map.has`. -/
def has (m : JsMap κ α) (k : κ) : Bool := (m.get? k).isSome

omit [DecidableEq κ] in
theorem exists_of_mem_keys {m : JsMap κ α} {k : κ} (h : k ∈ m.keys) : ∃ v, (k, v) ∈ m.entries := by
  obtain ⟨⟨k', v⟩, he, rfl⟩ := List.mem_map.mp h
  exact ⟨v, he⟩

omit [DecidableEq κ] in
theorem mem_keys {m : JsMap κ α} {k : κ} {v : α} (h : (k, v) ∈ m.entries) : k ∈ m.keys :=
  List.mem_map.mpr ⟨_, h, rfl⟩

theorem has_iff {m : JsMap κ α} {k : κ} : m.has k = true ↔ k ∈ m.keys := by
  rw [has, Option.isSome_iff_exists]
  constructor
  · intro h
    obtain ⟨v, hv⟩ := h
    exact mem_keys (get?_eq_some.mp hv)
  · intro h
    obtain ⟨v, hv⟩ := exists_of_mem_keys h
    exact ⟨v, get?_eq_some.mpr hv⟩

theorem mem_keys_set {m : JsMap κ α} {k k' : κ} {v : α} :
    k' ∈ (m.set k v).keys ↔ k' = k ∨ k' ∈ m.keys := by
  constructor
  · intro h
    obtain ⟨v', hv'⟩ := exists_of_mem_keys h
    rcases mem_set.mp hv' with heq | ⟨-, hold⟩
    · exact .inl (congrArg Prod.fst heq)
    · exact .inr (mem_keys hold)
  · intro h
    by_cases heq : k' = k
    · subst heq
      exact mem_keys (mem_set.mpr (.inl rfl))
    · obtain ⟨v', hv'⟩ := exists_of_mem_keys (h.resolve_left heq)
      exact mem_keys (mem_set.mpr (.inr ⟨heq, hv'⟩))

omit [DecidableEq κ] in
/-- The entries with a key that meets `p`. -/
def restrict (m : JsMap κ α) (p : κ → Bool) : JsMap κ α where
  entries := m.entries.filter fun e => p e.1
  nodup := m.nodup.sublist (List.filter_sublist.map _)

omit [DecidableEq κ] in
theorem mem_keys_restrict {m : JsMap κ α} {p : κ → Bool} {k : κ} :
    k ∈ (m.restrict p).keys ↔ k ∈ m.keys ∧ p k = true := by
  constructor
  · intro h
    obtain ⟨v, hv⟩ := exists_of_mem_keys h
    obtain ⟨hm, hp⟩ := List.mem_filter.mp hv
    exact ⟨mem_keys hm, hp⟩
  · intro h
    obtain ⟨v, hv⟩ := exists_of_mem_keys h.1
    exact mem_keys (List.mem_filter.mpr ⟨hv, h.2⟩)

theorem get?_eq_none {m : JsMap κ α} {k : κ} : m.get? k = none ↔ k ∉ m.keys := by
  rw [← has_iff, has, Bool.not_eq_true, Option.isSome_eq_false_iff, Option.isNone_iff_eq_none]

theorem get?_set_self (m : JsMap κ α) (k : κ) (v : α) : (m.set k v).get? k = some v :=
  get?_eq_some.mpr (mem_set.mpr (.inl rfl))

/-- Two maps with the same entries at a key. -/
theorem get?_congr {m m' : JsMap κ α} {k : κ}
    (h : ∀ v, (k, v) ∈ m.entries ↔ (k, v) ∈ m'.entries) : m.get? k = m'.get? k := by
  apply Option.ext
  intro v
  rw [get?_eq_some, get?_eq_some]
  exact h v

theorem get?_set_of_ne {m : JsMap κ α} {k k' : κ} (hne : k' ≠ k) (v : α) :
    (m.set k v).get? k' = m.get? k' :=
  get?_congr fun v' => by simp [mem_set, hne]

theorem get?_restrict (m : JsMap κ α) (p : κ → Bool) (k : κ) :
    (m.restrict p).get? k = if p k then m.get? k else none := by
  by_cases hp : p k = true
  · rw [if_pos hp]
    exact get?_congr fun v => by simp [restrict, hp]
  · rw [if_neg hp, get?_eq_none, mem_keys_restrict]
    exact fun h => hp h.2

section Updates

variable {β : Type} {key : β → κ} (val : β → α) {ops : List β}

/-- Writes at other keys. -/
theorem get?_foldl_set_of_notMem {m : JsMap κ α} {k : κ} (hk : k ∉ ops.map key) :
    (ops.foldl (fun m op => m.set (key op) (val op)) m).get? k = m.get? k := by
  induction ops generalizing m with
  | nil => rfl
  | cons op rest ih =>
    rw [List.map_cons, List.mem_cons, not_or] at hk
    rw [List.foldl_cons, ih hk.2, get?_set_of_ne hk.1]

/-- A write that no later one overwrites. -/
theorem get?_foldl_set {m : JsMap κ α} (hops : (ops.map key).Nodup) {op : β} (hop : op ∈ ops) :
    (ops.foldl (fun m op => m.set (key op) (val op)) m).get? (key op) = some (val op) := by
  induction ops generalizing m with
  | nil => cases hop
  | cons x rest ih =>
    rw [List.map_cons, List.nodup_cons] at hops
    rw [List.foldl_cons]
    cases hop with
    | head => rw [get?_foldl_set_of_notMem val hops.1, get?_set_self]
    | tail _ hrest => exact ih hops.2 hrest

omit val in
/-- Keys that are taken out one by one. -/
theorem get?_foldl_restrict {m : JsMap κ α} (ks : List κ) (k : κ) :
    (ks.foldl (fun m k' => m.restrict (· ≠ k')) m).get? k = if k ∈ ks then none else m.get? k := by
  induction ks generalizing m with
  | nil => rfl
  | cons x rest ih =>
    rw [List.foldl_cons, ih, get?_restrict]
    by_cases hx : k = x
    · simp [hx]
    · simp [hx]

end Updates

/-! ### Maps that are written over -/

theorem keys_set (m : JsMap κ α) (k : κ) (v : α) :
    (m.set k v).keys = if k ∈ m.keys then m.keys else m.keys ++ [k] := setEntry_keys k v m.entries

theorem set_self {m : JsMap κ α} {k : κ} {v : α} (h : m.get? k = some v) : m.set k v = m := by
  have hmem := get?_eq_some.mp h
  obtain ⟨es, hes⟩ := m
  apply JsMap.ext
  show setEntry k v es = es
  clear h
  induction es with
  | nil => cases hmem
  | cons e rest ih =>
    have hnodup := List.nodup_cons.mp hes
    by_cases he : e.1 = k
    · rw [setEntry, if_pos he]
      cases hmem with
      | head => rfl
      | tail _ hrest => exact absurd (he ▸ mem_keys (m := ⟨rest, hnodup.2⟩) hrest) hnodup.1
    · rw [setEntry, if_neg he, ih hnodup.2]
      exact (List.mem_cons.mp hmem).resolve_left fun h => he (congrArg Prod.fst h.symm)

theorem set_set (m : JsMap κ α) (k : κ) (v v' : α) : (m.set k v).set k v' = m.set k v' := by
  apply JsMap.ext
  show setEntry k v' (setEntry k v m.entries) = setEntry k v' m.entries
  induction m.entries with
  | nil => simp [setEntry]
  | cons e rest ih =>
    by_cases he : e.1 = k
    · simp [setEntry, he]
    · simp [setEntry, he, ih]

/-- `Map.set`, or `Map.delete` when there is no value. -/
def put (m : JsMap κ α) (k : κ) : Option α → JsMap κ α
  | none => m.restrict (· ≠ k)
  | some v => m.set k v

theorem get?_put (m : JsMap κ α) (k : κ) (v : Option α) (k' : κ) :
    (m.put k v).get? k' = if k' = k then v else m.get? k' := by
  cases v with
  | none => rw [put, get?_restrict]; by_cases h : k' = k <;> simp [h]
  | some v =>
    by_cases h : k' = k
    · rw [if_pos h, h]
      exact get?_set_self m k v
    · rw [if_neg h]
      exact get?_set_of_ne h v

theorem put_self {m : JsMap κ α} {k : κ} {v : Option α} (h : m.get? k = v) : m.put k v = m := by
  cases v with
  | some v => exact set_self h
  | none =>
    apply JsMap.ext
    refine List.filter_eq_self.mpr fun e he => decide_eq_true fun heq => ?_
    exact get?_eq_none.mp h (heq ▸ mem_keys he)

/-- Several writes. -/
def putAll (m : JsMap κ α) (ps : List (κ × Option α)) : JsMap κ α :=
  ps.foldl (fun m p => m.put p.1 p.2) m

theorem get?_putAll_of_notMem {m : JsMap κ α} {ps : List (κ × Option α)} {k : κ}
    (hk : k ∉ ps.map Prod.fst) : (m.putAll ps).get? k = m.get? k := by
  induction ps generalizing m with
  | nil => rfl
  | cons p rest ih =>
    rw [List.map_cons, List.mem_cons, not_or] at hk
    exact (ih hk.2).trans ((get?_put m p.1 p.2 k).trans (if_neg hk.1))

theorem get?_putAll {m : JsMap κ α} {ps : List (κ × Option α)} (hps : (ps.map Prod.fst).Nodup)
    {k : κ} {v : Option α} (h : (k, v) ∈ ps) : (m.putAll ps).get? k = v := by
  induction ps generalizing m with
  | nil => cases h
  | cons p rest ih =>
    rw [List.map_cons, List.nodup_cons] at hps
    cases h with
    | head => exact (get?_putAll_of_notMem hps.1).trans ((get?_put m k v k).trans (if_pos rfl))
    | tail _ hrest => exact ih hps.2 hrest

theorem keys_put (m : JsMap κ α) (k : κ) (v : Option α) : (m.put k v).keys.Sublist (m.keys ++ [k]) := by
  cases v with
  | none => exact (List.filter_sublist.map _).trans (List.sublist_append_left _ _)
  | some v =>
    rw [put, keys_set]
    split
    next => exact List.sublist_append_left _ _
    next => exact List.Sublist.refl _

/-- Keys come in the order they are written in. -/
theorem keys_putAll (m : JsMap κ α) (ps : List (κ × Option α)) :
    (m.putAll ps).keys.Sublist (m.keys ++ ps.map Prod.fst) := by
  induction ps generalizing m with
  | nil => rw [List.map_nil, List.append_nil]; exact List.Sublist.refl _
  | cons p rest ih =>
    refine (ih (m.put p.1 p.2)).trans ?_
    rw [List.map_cons, ← List.singleton_append, ← List.append_assoc]
    exact (keys_put m p.1 p.2).append_right _

/-- The keys of both stand in the same order. -/
def SameOrder (m m' : JsMap κ α) : Prop :=
  m.keys.filter (· ∈ m'.keys) = m'.keys.filter (· ∈ m.keys)

instance (m m' : JsMap κ α) : Decidable (SameOrder m m') := inferInstanceAs (Decidable (_ = _))

theorem SameOrder.refl (m : JsMap κ α) : SameOrder m m := rfl

/-- A key that has not been taken out stays where it is. -/
theorem SameOrder.put {m m' : JsMap κ α} {k : κ} (h : SameOrder m m')
    (hk : k ∈ m.keys → k ∈ m'.keys) (v : Option α) : SameOrder m (m'.put k v) := by
  cases v with
  | none =>
    have hkeys : (m'.restrict (· ≠ k)).keys = m'.keys.filter (· ≠ k) := by
      simp [keys, restrict, List.filter_map, Function.comp_def]
    have hcomm := congrArg (List.filter (· ≠ k)) h
    simp only [SameOrder, JsMap.put, hkeys, List.filter_filter, List.mem_filter] at hcomm ⊢
    simp only [Bool.decide_and, Bool.and_comm] at hcomm ⊢
    simpa using hcomm
  | some v =>
    rw [SameOrder, JsMap.put, keys_set]
    split
    next => exact h
    next hnew =>
      have hold : k ∉ m.keys := fun hmem => hnew (hk hmem)
      have hnone : [k].filter (· ∈ m.keys) = [] := by simp [hold]
      rw [List.filter_append, hnone, List.append_nil, ← show _ = _ from h]
      refine List.filter_congr fun k' hk' => ?_
      have hne : k' ≠ k := fun heq => hold (heq ▸ hk')
      simp [hne]

theorem SameOrder.putAll {m m' : JsMap κ α} {ps : List (κ × Option α)} (h : SameOrder m m')
    (hps : (ps.map Prod.fst).Nodup) (hkeys : ∀ p ∈ ps, p.1 ∈ m.keys → p.1 ∈ m'.keys) :
    SameOrder m (m'.putAll ps) := by
  induction ps generalizing m' with
  | nil => exact h
  | cons p rest ih =>
    rw [List.map_cons, List.nodup_cons] at hps
    refine ih (h.put (hkeys p (.head _)) p.2) hps.2 fun q hq hmem => ?_
    have hne : q.1 ≠ p.1 := fun heq => hps.1 (heq ▸ List.mem_map_of_mem hq)
    have hget := get?_put m' p.1 p.2 q.1
    rw [if_neg hne] at hget
    rw [← has_iff, has, hget]
    exact has_iff.mpr (hkeys q (.tail _ hq) hmem)

end JsMap

end AgentSync.Js
