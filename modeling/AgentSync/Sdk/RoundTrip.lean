import AgentSync.Basic
import AgentSync.Sdk.Values

/-! The round trip of a configuration.

A value is read back by itself, whatever stands around it, as long as the parser finds the lines
that belong to it. -/
namespace AgentSync.Sdk

open Js

/-! ### Lines -/

/-- A unit of a bare key. -/
def isBareUnit (c : UInt16) : Bool :=
  unit 'a' ≤ c && c ≤ unit 'z' || unit 'A' ≤ c && c ≤ unit 'Z' || unit '0' ≤ c && c ≤ unit '9' ||
    c = unit '_' || c = unit '-'

def isBareKey (k : JsStr) : Bool := !k.isEmpty && k.all isBareUnit

theorem not_bare_of_space {c : UInt16} (h : isSpace c = true) : isBareUnit c = false := by
  have hall : [0x09, 0x0A, 0x0B, 0x0C, 0x0D, 0x20, 0xA0, 0x1680, 0x2000, 0x2001, 0x2002, 0x2003,
      0x2004, 0x2005, 0x2006, 0x2007, 0x2008, 0x2009, 0x200A, 0x2028, 0x2029, 0x202F, 0x205F,
      0x3000, 0xFEFF].all (fun c => !isBareUnit c) = true := by decide
  simpa using List.all_eq_true.mp hall c (of_decide_eq_true h)

/-- Nothing that the parser looks for is in a bare key. -/
theorem bare_ne {c d : UInt16} (hc : isBareUnit c = true) (hd : isBareUnit d = false) : c ≠ d :=
  fun h => by rw [h, hd] at hc; cases hc

/-- No quote and no comment. -/
def isPlainUnit (c : UInt16) : Bool := c ≠ quote && c ≠ unit '#'

theorem stripComment_plain {inStr : Bool} {prev : Option UInt16} {a : JsStr}
    (ha : a.all isPlainUnit = true) (rest : JsStr) :
    stripCommentFrom inStr prev (a ++ rest) =
      a ++ stripCommentFrom inStr (a.getLast?.or prev) rest := by
  induction a generalizing prev with
  | nil => rfl
  | cons c a ih =>
    simp only [List.all_cons, Bool.and_eq_true, isPlainUnit, decide_eq_true_eq] at ha
    have hlast : (c :: a).getLast?.or prev = a.getLast?.or (some c) := by
      cases h : a.getLast? <;> simp [List.getLast?_cons, h]
    rw [List.cons_append, stripCommentFrom, if_neg (fun h => ha.1.1 h.1),
      if_neg (fun h => ha.1.2 h.1), ih ha.2, hlast]
    rfl

theorem stripComment_of_plain {inStr : Bool} {prev : Option UInt16} {a : JsStr}
    (ha : a.all isPlainUnit = true) : stripCommentFrom inStr prev a = a := by
  have h := @stripComment_plain inStr prev a ha []
  simpa [stripCommentFrom] using h

/-- The text of a value is not cut short, nor taken for something else. -/
structure IsValueText (w : JsStr) : Prop where
  strip : stripCommentFrom false (some (unit ' ')) w = w
  head : ∃ c, w.head? = some c ∧ isSpace c = false
  last : ∃ c, w.getLast? = some c ∧ isSpace c = false

theorem bare_plain {k : JsStr} (hk : k.all isBareUnit = true) : k.all isPlainUnit = true := by
  refine List.all_eq_true.mpr fun c hc => ?_
  have hbare := List.all_eq_true.mp hk c hc
  simp [isPlainUnit, bare_ne hbare (show isBareUnit quote = false by decide),
    bare_ne hbare (show isBareUnit (unit '#') = false by decide)]

theorem bare_notMem {k : JsStr} (hk : k.all isBareUnit = true) {d : UInt16}
    (hd : isBareUnit d = false) : d ∉ k :=
  fun hmem => bare_ne (List.all_eq_true.mp hk d hmem) hd rfl

/-- The spaces around a bare key are trimmed, and nothing else. -/
theorem trim_bare {k : JsStr} (hk : isBareKey k = true) {b : JsStr} (hb : b.all isSpace = true) :
    trim (k ++ b) = k := by
  simp only [isBareKey, Bool.and_eq_true, Bool.not_eq_true', List.isEmpty_eq_false_iff] at hk
  have hspace {c : UInt16} (hc : c ∈ k) : isSpace c = false := by
    refine Bool.eq_false_iff.mpr fun h => ?_
    exact bare_ne (List.all_eq_true.mp hk.2 c hc) (not_bare_of_space h) rfl
  exact trim_append (a := []) rfl hb (List.head?_eq_some_head hk.1)
    (hspace (List.head_mem hk.1)) (List.getLast?_eq_some_getLast hk.1)
    (hspace (List.getLast_mem hk.1))

theorem next_value {s : ParseState} (hs : s.array = none) {k w : JsStr} (hk : isBareKey k = true)
    (hw : IsValueText w) : s.next (k ++ js " = " ++ w) =
      if w.head? = some (unit '[') then {s with i := s.i + 1}.readArray k w
      else (parseScalar w).map fun v =>
        {s with i := s.i + 1, doc := setIn s.doc s.table k v} := by
  obtain ⟨hstrip, ⟨c, hc, hcs⟩, ⟨d, hd, hds⟩⟩ := hw
  have hbare := hk
  simp only [isBareKey, Bool.and_eq_true, Bool.not_eq_true', List.isEmpty_eq_false_iff] at hbare
  obtain ⟨hne, hall⟩ := hbare
  obtain ⟨b, rest, hkey⟩ := List.exists_cons_of_ne_nil hne
  have hb : isBareUnit b = true := List.all_eq_true.mp hall b (by rw [hkey]; exact List.mem_cons_self ..)
  have hstripLine : stripComment (k ++ js " = " ++ w) = k ++ js " = " ++ w := by
    have hplain : (k ++ js " = ").all isPlainUnit = true := by
      rw [List.all_append, bare_plain hall]
      decide
    have hlast : (k ++ js " = ").getLast? = some (unit ' ') := by
      rw [List.getLast?_append]
      rfl
    rw [stripComment, stripComment_plain hplain, hlast, Option.some_or, hstrip]
  have htrimLine : trim (k ++ js " = " ++ w) = k ++ js " = " ++ w := by
    have hhead : (k ++ js " = " ++ w).head? = some b := by rw [hkey]; rfl
    have hlast : (k ++ js " = " ++ w).getLast? = some d := by
      rw [List.getLast?_append, hd]
      rfl
    have hbs : isSpace b = false := by
      refine Bool.eq_false_iff.mpr fun h => ?_
      exact bare_ne hb (not_bare_of_space h) rfl
    have htrim := trim_append (a := []) (b := []) rfl rfl hhead hbs hlast hds
    rwa [List.nil_append, List.append_nil] at htrim
  have hheader : headerName (k ++ js " = " ++ w) = none := by
    rw [hkey, List.cons_append, List.cons_append, headerName,
      if_neg (fun h => bare_ne hb (by decide) h.1)]
  have hcut : cutAt (unit '=') (k ++ js " = " ++ w) = some (k ++ [unit ' '], unit ' ' :: w) := by
    have hnot : unit '=' ∉ k ++ [unit ' '] := by
      rw [List.mem_append, not_or]
      exact ⟨bare_notMem hall (by decide), by decide⟩
    have hline : k ++ js " = " ++ w = (k ++ [unit ' ']) ++ unit '=' :: unit ' ' :: w := by
      simp [js]
    rw [hline, cutAt_append hnot]
  have hrhs : trim (unit ' ' :: w) = w := by
    have htrim := trim_append (a := [unit ' ']) (b := []) (by decide) rfl hc hcs hd hds
    rwa [List.append_nil] at htrim
  have hline : k ++ js " = " ++ w ≠ [] := by rw [hkey]; simp
  simp only [ParseState.next, hs, ParseState.readLine, hstripLine, htrimLine, if_neg hline, hheader,
    hcut, trim_bare hk (b := [unit ' ']) (by decide), hrhs]

theorem isValueText_string (s : JsStr) : IsValueText (formatValue (.string s)) where
  strip := by
    obtain ⟨prev, hprev⟩ := stripComment_escape (some quote) s [quote]
    have hend : stripCommentFrom true prev [quote] = [quote] := by
      simp only [stripCommentFrom]
      split
      · rfl
      · simp
    show stripCommentFrom false (some (unit ' ')) (quote :: (escapeTomlString s ++ [quote])) = _
    rw [stripCommentFrom, if_pos ⟨rfl, by decide⟩, Bool.not_false, hprev, hend]
    rfl
  head := ⟨quote, rfl, by decide⟩
  last := ⟨quote, List.getLast?_concat, by decide⟩

theorem isValueText_of_plain {w : JsStr} (hne : w ≠ [])
    (hw : ∀ u ∈ w, isPlainUnit u = true ∧ isSpace u = false) : IsValueText w where
  strip := stripComment_of_plain (List.all_eq_true.mpr fun u hu => (hw u hu).1)
  head := ⟨_, List.head?_eq_some_head hne, (hw _ (List.head_mem hne)).2⟩
  last := ⟨_, List.getLast?_eq_some_getLast hne, (hw _ (List.getLast_mem hne)).2⟩

theorem isValueText_number (n : SafeInt) : IsValueText (formatValue (.number n)) := by
  obtain ⟨c, rest, hdigits, -⟩ := digits_cons n.val.natAbs
  have hdigit : ∀ u ∈ digits n.val.natAbs, isPlainUnit u = true ∧ isSpace u = false := by
    intro u hu
    obtain ⟨d, rfl, hd⟩ := mem_digits hu
    have hne (e : Char) (he : unit e ∈ js "\"_+-tf[#=\n") : unit d ≠ unit e :=
      fun h => hd.other (h ▸ he)
    exact ⟨by simp [isPlainUnit, quote, hne '"' (by decide), hne '#' (by decide)], hd.space⟩
  show IsValueText (js (toString n.val))
  rw [js_toString]
  split
  next =>
    refine isValueText_of_plain (by simp) fun u hu => ?_
    rcases List.mem_cons.mp hu with rfl | hu
    · decide
    · exact hdigit u hu
  next => exact isValueText_of_plain (by simp [hdigits]) hdigit

theorem isValueText_scalar {v : TomlValue} (hv : ∀ es, v ≠ .array es) : IsValueText (formatValue v) := by
  cases v with
  | string s => exact isValueText_string s
  | number n => exact isValueText_number n
  | boolean b => cases b <;> exact ⟨by decide, ⟨_, rfl, by decide⟩, ⟨_, rfl, by decide⟩⟩
  | array es => exact absurd rfl (hv es)

/-! ### Entries -/

/-- The line of an array's string. -/
def formatElement (e : JsStr) : JsStr := js "    \"" ++ escapeTomlString e ++ js "\","

theorem newline_notMem_formatElement (e : JsStr) : newline ∉ formatElement e := by
  simp only [formatElement, List.mem_append, not_or]
  exact ⟨⟨by decide, newline_notMem_escape e⟩, by decide⟩

theorem bracket_mem_formatElement (e : JsStr) : unit ']' ∈ formatElement e ↔ unit ']' ∈ e := by
  have hopen : unit ']' ∉ js "    \"" := by decide
  have hclose : unit ']' ∉ js "\"," := by decide
  simp [formatElement, hopen, hclose, bracket_mem_escape]

/-- The lines of an array. -/
theorem splitOn_array {k : JsStr} (hk : newline ∉ k) (e : JsStr) (es : List JsStr) :
    (k ++ js " = " ++ formatValue (.array (e :: es))).splitOn newline =
      (k ++ js " = [") :: ((e :: es).map formatElement ++ [js "]"]) := by
  have hfirst : newline ∉ k ++ js " = [" := by
    rw [List.mem_append, not_or]
    exact ⟨hk, by decide⟩
  have htext : k ++ js " = " ++ formatValue (.array (e :: es)) = (k ++ js " = [") ++ newline ::
      ([newline].intercalate ((e :: es).map formatElement) ++ newline :: js "]") := by
    rw [formatValue]
    · simp only [List.append_assoc]
      rfl
    · exact fun h => by cases h
  have helements : ([newline].intercalate ((e :: es).map formatElement)).splitOn newline =
      (e :: es).map formatElement := by
    refine List.splitOn_intercalate newline (fun l hl => ?_) (by simp)
    obtain ⟨e', -, rfl⟩ := List.mem_map.mp hl
    exact newline_notMem_formatElement e'
  rw [htext, List.splitOn_append_cons_self_of_not_mem hfirst, List.splitOn_append_cons_self,
    helements]
  rfl

theorem next_open {s : ParseState} {key rhs raw : JsStr} (hs : s.array = some (key, rhs))
    (hopen : unit ']' ∉ rhs) (hraw : unit ']' ∉ raw) :
    s.next raw = .ok {s with i := s.i + 1, array := some (key, rhs ++ newline :: raw)} := by
  have hbracket : hasClosingBracket (rhs ++ newline :: raw) = false := by
    have hnl : unit ']' ≠ newline := by decide
    simpa [hasClosingBracket, hopen, hraw] using hnl
  simp [ParseState.next, hs, ParseState.readArray, hbracket]

theorem run_elements {s : ParseState} {key rhs : JsStr} (es : List JsStr)
    (hs : s.array = some (key, rhs)) (hopen : unit ']' ∉ rhs) (hes : ∀ e ∈ es, unit ']' ∉ e) :
    ∃ i, (es.map formatElement).foldlM ParseState.next s = .ok {s with
      i := i
      array := some (key, rhs ++ es.flatMap fun e => newline :: formatElement e)} := by
  induction es generalizing s rhs with
  | nil => exact ⟨s.i, by simp [← hs, pure, Except.pure]⟩
  | cons e es ih =>
    have he : unit ']' ∉ formatElement e := by
      rw [bracket_mem_formatElement]
      exact hes e (List.mem_cons_self ..)
    have hopen' : unit ']' ∉ rhs ++ newline :: formatElement e := by
      have hnl : unit ']' ≠ newline := by decide
      simp [hopen, he, hnl]
    obtain ⟨i, hi⟩ := ih (s := {s with i := s.i + 1, array := some (key, rhs ++ newline :: formatElement e)})
      rfl hopen' fun e' he' => hes e' (List.mem_cons_of_mem _ he')
    refine ⟨i, ?_⟩
    rw [List.map_cons, List.foldlM_cons, next_open hs hopen he]
    show List.foldlM ParseState.next _ _ = _
    rw [hi]
    simp

/-- The line that opens an array. -/
theorem next_array {s : ParseState} (hs : s.array = none) {k : JsStr} (hk : isBareKey k = true) :
    s.next (k ++ js " = [") = .ok {s with i := s.i + 1, array := some (k, js "[")} := by
  have hline : k ++ js " = [" = k ++ js " = " ++ js "[" := by
    rw [List.append_assoc]
    rfl
  have htext : IsValueText (js "[") := ⟨by decide, ⟨_, rfl, by decide⟩, ⟨_, rfl, by decide⟩⟩
  rw [hline, next_value hs hk htext, if_pos (by decide)]
  rfl

theorem newline_notMem_bare {k : JsStr} (hk : isBareKey k = true) : newline ∉ k := by
  simp only [isBareKey, Bool.and_eq_true] at hk
  exact bare_notMem hk.2 (by decide)

theorem newline_notMem_scalar {v : TomlValue} (hv : ∀ es, v ≠ .array es) :
    newline ∉ formatValue v := by
  cases v with
  | string s =>
    simp only [formatValue, List.mem_append, not_or]
    exact ⟨⟨by decide, newline_notMem_escape s⟩, by decide⟩
  | number n =>
    have hdigit : newline ∉ digits n.val.natAbs := by
      intro h
      obtain ⟨c, hc, hdigit⟩ := mem_digits h
      exact hdigit.other (hc ▸ by decide)
    show newline ∉ js (toString n.val)
    rw [js_toString]
    split
    next => simpa [hdigit] using show newline ≠ unit '-' by decide
    next => exact hdigit
  | boolean b => cases b <;> decide
  | array es => exact absurd rfl (hv es)

theorem head_scalar {v : TomlValue} (hv : ∀ es, v ≠ .array es) :
    (formatValue v).head? ≠ some (unit '[') := by
  cases v with
  | string s => exact fun h => absurd (Option.some.inj h) (by decide)
  | number n =>
    obtain ⟨c, rest, hdigits, hc⟩ := digits_cons n.val.natAbs
    show (js (toString n.val)).head? ≠ _
    rw [js_toString]
    split
    next => exact fun h => absurd (Option.some.inj h) (by decide)
    next =>
      rw [hdigits]
      intro h
      have hbracket : unit c = unit '[' := Option.some.inj h
      exact hc.other (hbracket ▸ by decide)
  | boolean b => cases b <;> decide
  | array es => exact absurd rfl (hv es)

theorem readBack_scalar {v : TomlValue} (hv : ∀ es, v ≠ .array es) :
    readBack v = parseScalar (formatValue v) := by
  cases v with
  | array es => exact absurd rfl (hv es)
  | _ => rfl

/-- The array is closed. -/
theorem readArray_closed {s : ParseState} {k rhs : JsStr} (h : hasClosingBracket rhs = true) :
    s.readArray k rhs = (parseStringArray rhs).map fun es =>
      {s with doc := setIn s.doc s.table k (.array es), array := none} := by
  rw [ParseState.readArray, if_pos h]

/-- The lines of an entry give the parser its value, if they are found. -/
theorem run_entry {s : ParseState} (hs : s.array = none) {k : JsStr} {v : TomlValue}
    (hk : isBareKey k = true) (hv : Unbracketed v) :
    ∃ i, ((k ++ js " = " ++ formatValue v).splitOn newline).foldlM ParseState.next s =
      (readBack v).map fun v' => {s with i := i, doc := setIn s.doc s.table k v'} := by
  have hscalar (hv : ∀ es, v ≠ .array es) :
      ∃ i, ((k ++ js " = " ++ formatValue v).splitOn newline).foldlM ParseState.next s =
        (readBack v).map fun v' => {s with i := i, doc := setIn s.doc s.table k v'} := by
    have hline : newline ∉ k ++ js " = " ++ formatValue v := by
      simp only [List.mem_append, not_or]
      exact ⟨⟨newline_notMem_bare hk, by decide⟩, newline_notMem_scalar hv⟩
    refine ⟨s.i + 1, ?_⟩
    rw [List.splitOn_eq_singleton hline, List.foldlM_cons,
      next_value hs hk (isValueText_scalar hv), if_neg (head_scalar hv), readBack_scalar hv]
    cases parseScalar (formatValue v) <;> rfl
  cases v with
  | array es =>
    cases es with
    | nil =>
      have htext : IsValueText (js "[]") := ⟨by decide, ⟨_, rfl, by decide⟩, ⟨_, rfl, by decide⟩⟩
      have hline : newline ∉ k ++ js " = " ++ js "[]" := by
        simp only [List.mem_append, not_or]
        exact ⟨⟨newline_notMem_bare hk, by decide⟩, by decide⟩
      refine ⟨s.i + 1, ?_⟩
      show List.foldlM _ _ ((k ++ js " = " ++ js "[]").splitOn newline) = _
      rw [List.splitOn_eq_singleton hline, List.foldlM_cons, next_value hs hk htext,
        if_pos (by decide), readArray_closed (by decide)]
      show _ = ((parseStringArray (js "[]")).map TomlValue.array).map _
      cases parseStringArray (js "[]") with
      | error m => rfl
      | ok es => simp [Except.map, bind, Except.bind, pure, Except.pure, hs]
    | cons e es =>
      obtain ⟨i, hi⟩ := run_elements (s := {s with i := s.i + 1, array := some (k, js "[")}) (e :: es)
        rfl (by decide) hv
      have hclose : js "[" ++ ((e :: es).flatMap fun e => newline :: formatElement e) ++
          newline :: js "]" = formatValue (.array (e :: es)) := by
        rw [formatValue_array, elementsText]
        simp only [List.append_assoc]
        rfl
      have hbracket : hasClosingBracket (formatValue (.array (e :: es))) = true := by
        rw [← hclose]
        simp [hasClosingBracket, js]
      refine ⟨i + 1, ?_⟩
      rw [splitOn_array (newline_notMem_bare hk), List.foldlM_cons, next_array hs hk]
      show List.foldlM ParseState.next _ ((e :: es).map formatElement ++ [js "]"]) = _
      rw [List.foldlM_append, hi]
      show List.foldlM ParseState.next _ [js "]"] = _
      rw [List.foldlM_cons]
      simp only [ParseState.next, hclose, readArray_closed hbracket]
      rw [readBack]
      cases parseStringArray (formatValue (.array (e :: es))) with
      | error m => rfl
      | ok es' => simp [Except.map, bind, Except.bind, pure, Except.pure, hs]
  | _ => exact hscalar fun es h => by cases h

/-! ### A closing bracket in a string -/

/-- A key that no document with bare keys has. -/
def HasQuoted (doc : TomlDoc) : Prop :=
  ∃ e ∈ doc.entries, ∃ e' ∈ e.2.entries, e'.1.head? = some quote

/-- The parser has taken a string of an array for a key. -/
def Tainted (s : ParseState) : Prop :=
  HasQuoted s.doc ∨ ∃ key rhs, s.array = some (key, rhs) ∧ key.head? = some quote

theorem HasQuoted.setIn {doc : TomlDoc} (h : HasQuoted doc) (table key : JsStr) (v : TomlValue) :
    HasQuoted (setIn doc table key v) := by
  obtain ⟨⟨name, t⟩, ht, ⟨k, w⟩, hk, hquote⟩ := h
  by_cases hname : name = table
  · subst hname
    refine ⟨_, JsMap.mem_set.mpr (.inl rfl), ?_⟩
    rw [JsMap.get?_eq_some.mpr ht, Option.getD_some]
    by_cases hkey : k = key
    · exact ⟨_, JsMap.mem_set.mpr (.inl rfl), hkey ▸ hquote⟩
    · exact ⟨_, JsMap.mem_set.mpr (.inr ⟨hkey, hk⟩), hquote⟩
  · exact ⟨_, JsMap.mem_set.mpr (.inr ⟨hname, ht⟩), _, hk, hquote⟩

theorem hasQuoted_setIn (doc : TomlDoc) (table : JsStr) {key : JsStr} (v : TomlValue)
    (hkey : key.head? = some quote) : HasQuoted (setIn doc table key v) :=
  ⟨_, JsMap.mem_set.mpr (.inl rfl), _, JsMap.mem_set.mpr (.inl rfl), hkey⟩

theorem HasQuoted.ensureTable {doc : TomlDoc} (h : HasQuoted doc) (name : JsStr) :
    HasQuoted (ensureTable doc name) := by
  unfold Sdk.ensureTable
  split
  next => exact h
  next hnone =>
    obtain ⟨e, he, hquote⟩ := h
    refine ⟨e, JsMap.mem_set.mpr (.inr ⟨?_, he⟩), hquote⟩
    rintro rfl
    exact hnone (by rw [JsMap.get?_eq_some.mpr he]; rfl)

theorem Tainted.readArray {s s' : ParseState} {key rhs : JsStr}
    (h : HasQuoted s.doc ∨ key.head? = some quote) (hs : s.readArray key rhs = .ok s') :
    Tainted s' := by
  unfold ParseState.readArray at hs
  split at hs
  next =>
    cases hparse : parseStringArray rhs with
    | error m => rw [hparse] at hs; cases hs
    | ok es =>
      rw [hparse] at hs
      obtain rfl := Except.ok.inj hs
      rcases h with h | h
      · exact .inl (h.setIn ..)
      · exact .inl (hasQuoted_setIn _ _ _ h)
  next =>
    obtain rfl := Except.ok.inj hs
    rcases h with h | h
    · exact .inl h
    · exact .inr ⟨_, _, rfl, h⟩

/-- No line takes such a key out. -/
theorem Tainted.next {s s' : ParseState} (h : Tainted s) {raw : JsStr} (hs : s.next raw = .ok s') :
    Tainted s' := by
  unfold ParseState.next at hs
  split at hs
  next hnone =>
    have hdoc : HasQuoted s.doc := by
      rcases h with h | ⟨key, rhs, harray, -⟩
      · exact h
      · rw [hnone] at harray
        cases harray
    simp only [ParseState.readLine] at hs
    split at hs
    next => exact Except.ok.inj hs ▸ .inl hdoc
    next =>
      split at hs
      next => exact Except.ok.inj hs ▸ .inl (hdoc.ensureTable _)
      next =>
        split at hs
        next => cases hs
        next key rhs _ =>
          split at hs
          next => exact Tainted.readArray (s := {s with i := s.i + 1}) (.inl hdoc) hs
          next =>
            cases hparse : parseScalar (trim rhs) with
            | error m => rw [hparse] at hs; cases hs
            | ok v =>
              rw [hparse] at hs
              exact Except.ok.inj hs ▸ .inl (hdoc.setIn ..)
  next key rhs harray =>
    refine Tainted.readArray (s := {s with i := s.i + 1}) ?_ hs
    rcases h with h | ⟨key', rhs', harray', hkey⟩
    · exact .inl h
    · rw [harray] at harray'
      obtain ⟨rfl, rfl⟩ := Prod.mk.inj (Option.some.inj harray')
      exact .inr hkey

theorem Tainted.run {s s' : ParseState} (h : Tainted s) {lines : List JsStr}
    (hs : lines.foldlM ParseState.next s = .ok s') : Tainted s' := by
  induction lines generalizing s with
  | nil => exact Except.ok.inj hs ▸ h
  | cons l lines ih =>
    rw [List.foldlM_cons] at hs
    obtain ⟨t, ht, hs⟩ := bind_eq_ok.mp hs
    exact ih (h.next ht) hs

/-- What is left of an array's line when the comment and the spaces are gone. -/
theorem trim_formatElement (e : JsStr) :
    ∃ rest, trim (stripComment (formatElement e)) = quote :: rest := by
  have hstrip : stripComment (formatElement e) =
      js "    " ++ (quote :: escapeTomlString e ++ js "\",") := by
    obtain ⟨prev, hprev⟩ := stripComment_escape (some quote) e (js "\",")
    have hend : stripCommentFrom true prev (js "\",") = js "\"," := by
      show stripCommentFrom true prev [quote, unit ','] = _
      simp only [stripCommentFrom]
      split <;> rfl
    show stripCommentFrom false none (js "    " ++ quote :: (escapeTomlString e ++ js "\",")) = _
    rw [stripComment_plain (by decide), stripCommentFrom, if_pos ⟨rfl, by decide⟩, Bool.not_false,
      hprev, hend]
    rfl
  have hlast : (quote :: escapeTomlString e ++ js "\",").getLast? = some (unit ',') := by
    rw [List.getLast?_append]
    rfl
  have htrim := trim_append (a := js "    ") (b := []) (by decide) rfl
    (show (quote :: escapeTomlString e ++ js "\",").head? = some quote from rfl) (by decide) hlast
    (by decide)
  rw [List.append_nil] at htrim
  exact ⟨_, by rw [hstrip, htrim, List.cons_append]⟩

/-- A line of an array that is read outside of it. -/
theorem next_stray {s s' : ParseState} (hs : s.array = none) (e : JsStr)
    (h : s.next (formatElement e) = .ok s') : Tainted s' := by
  obtain ⟨rest, hline⟩ := trim_formatElement e
  simp only [ParseState.next, hs, ParseState.readLine, hline, reduceCtorEq, if_false] at h
  rw [headerName, if_neg (fun h => absurd h.1 (by decide))] at h
  cases hcut : cutAt (unit '=') (quote :: rest) with
  | none => rw [hcut] at h; cases h
  | some x =>
    obtain ⟨key, rhs⟩ := x
    obtain ⟨k, rfl⟩ := cutAt_cons (by decide) hcut
    obtain ⟨k', hk⟩ := trim_cons (c := quote) (by decide) k
    simp only [hcut, hk] at h
    split at h
    next => exact Tainted.readArray (s := {s with i := s.i + 1}) (.inr rfl) h
    next =>
      cases hparse : parseScalar (trim rhs) with
      | error m => rw [hparse] at h; cases h
      | ok v =>
        rw [hparse] at h
        exact Except.ok.inj h ▸ .inl (hasQuoted_setIn _ _ _ rfl)

theorem next_close {s : ParseState} (hs : s.array = none) : ∃ m, s.next (js "]") = .error m := by
  have hline : trim (stripComment (js "]")) = js "]" := by decide
  exact ⟨_, by simp only [ParseState.next, hs, ParseState.readLine, hline]; rfl⟩

/-- An array whose text is closed before its end. -/
theorem tainted_of_bracket {s s' : ParseState} {key rhs : JsStr} {es : List JsStr}
    (hs : s.array = some (key, rhs)) (hopen : unit ']' ∉ rhs) (hes : ∃ e ∈ es, unit ']' ∈ e)
    (h : (es.map formatElement ++ [js "]"]).foldlM ParseState.next s = .ok s') : Tainted s' := by
  induction es generalizing s rhs with
  | nil =>
    obtain ⟨e, he, -⟩ := hes
    cases he
  | cons e es ih =>
    rw [List.map_cons, List.cons_append, List.foldlM_cons] at h
    obtain ⟨t, ht, h⟩ := bind_eq_ok.mp h
    by_cases he : unit ']' ∈ e
    · have hclosed : t.array = none := by
        have hbracket : hasClosingBracket (rhs ++ newline :: formatElement e) = true := by
          simp [hasClosingBracket, (bracket_mem_formatElement e).mpr he]
        simp only [ParseState.next, hs, readArray_closed hbracket] at ht
        cases hparse : parseStringArray (rhs ++ newline :: formatElement e) with
        | error m => rw [hparse] at ht; cases ht
        | ok v => rw [hparse] at ht; exact Except.ok.inj ht ▸ rfl
      cases es with
      | nil =>
        obtain ⟨m, hm⟩ := next_close hclosed
        rw [List.map_nil, List.nil_append, List.foldlM_cons, hm] at h
        cases h
      | cons e' es =>
        rw [List.map_cons, List.cons_append, List.foldlM_cons] at h
        obtain ⟨u, hu, h⟩ := bind_eq_ok.mp h
        exact (next_stray hclosed e' hu).run h
    · have hraw : unit ']' ∉ formatElement e := fun h => he ((bracket_mem_formatElement e).mp h)
      rw [next_open hs hopen hraw] at ht
      obtain rfl := Except.ok.inj ht
      refine ih rfl ?_ ?_ h
      · have hnl : unit ']' ≠ newline := by decide
        simp [hopen, hraw, hnl]
      · obtain ⟨e', he', hbracket⟩ := hes
        rcases List.mem_cons.mp he' with rfl | he'
        · exact absurd hbracket he
        · exact ⟨e', he', hbracket⟩

/-- The lines of an entry whose end is not found. -/
theorem run_bracketed {s s' : ParseState} (hs : s.array = none) {k : JsStr} {v : TomlValue}
    (hk : isBareKey k = true) (hv : ¬ Unbracketed v)
    (h : ((k ++ js " = " ++ formatValue v).splitOn newline).foldlM ParseState.next s = .ok s') :
    Tainted s' := by
  cases v with
  | array es =>
    simp only [Unbracketed, not_forall, not_not] at hv
    obtain ⟨e, he, hbracket⟩ := hv
    cases es with
    | nil => cases he
    | cons e' es =>
      rw [splitOn_array (newline_notMem_bare hk), List.foldlM_cons, next_array hs hk] at h
      exact tainted_of_bracket (s := {s with i := s.i + 1, array := some (k, js "[")}) rfl (by decide)
        ⟨e, he, hbracket⟩ h
  | _ => exact absurd trivial hv

/-! ### Tables -/

/-- The parser's loop over a piece of the text. -/
def ParseState.run (s : ParseState) (text : JsStr) : Except JsStr ParseState :=
  (text.splitOn newline).foldlM ParseState.next s

theorem run_append (s : ParseState) (a b : JsStr) :
    s.run (a ++ newline :: b) = s.run a >>= fun s => s.run b := by
  simp only [ParseState.run, List.splitOn_append_cons_self, List.foldlM_append]

theorem run_intercalate (s : ParseState) {xs : List JsStr} (hxs : xs ≠ []) :
    s.run ([newline].intercalate xs) = xs.foldlM ParseState.run s := by
  induction xs generalizing s with
  | nil => exact absurd rfl hxs
  | cons x xs ih =>
    cases xs with
    | nil => simp
    | cons y xs =>
      rw [List.intercalate_cons_cons, List.append_assoc, List.singleton_append, run_append,
        List.foldlM_cons]
      congr 1
      funext t
      exact ih t (by simp)

/-- A block and the blank line after it. -/
def ParseState.block (s : ParseState) (text : JsStr) : Except JsStr ParseState :=
  s.run text >>= fun s => s.next []

theorem run_blocks (s : ParseState) {bs : List JsStr} (hbs : bs ≠ []) :
    s.run ((js "\n\n").intercalate bs ++ [newline]) = bs.foldlM ParseState.block s := by
  have hblank (s : ParseState) : s.run [] = s.next [] := by
    simp [ParseState.run]
  induction bs generalizing s with
  | nil => exact absurd rfl hbs
  | cons b bs ih =>
    cases bs with
    | nil =>
      rw [List.intercalate_singleton, run_append, List.foldlM_cons]
      simp only [ParseState.block, hblank, List.foldlM_nil, bind_pure]
    | cons b' bs =>
      have htext : (js "\n\n").intercalate (b :: b' :: bs) ++ [newline] = b ++ newline ::
          ([] ++ newline :: ((js "\n\n").intercalate (b' :: bs) ++ [newline])) := by
        rw [List.intercalate_cons_cons, List.append_assoc, List.append_assoc]
        rfl
      rw [htext, run_append, List.foldlM_cons]
      simp only [run_append, ih _ (List.cons_ne_nil b' bs), hblank, ParseState.block, bind_assoc]

theorem next_blank {s : ParseState} (hs : s.array = none) : s.next [] = .ok {s with i := s.i + 1} := by
  simp [ParseState.next, hs, ParseState.readLine, stripComment, stripCommentFrom, trim]

/-- What the parser makes of entries. -/
def readEntries (es : List (JsStr × TomlValue)) : Except JsStr (List (JsStr × TomlValue)) :=
  es.mapM fun e => (readBack e.2).map (e.1, ·)

/-- The entries of a table that are set one by one. -/
def setEntries (doc : TomlDoc) (table : JsStr) (es : List (JsStr × TomlValue)) : TomlDoc :=
  es.foldl (fun doc e => setIn doc table e.1 e.2) doc

def formatEntry (e : JsStr × TomlValue) : JsStr := e.1 ++ js " = " ++ formatValue e.2

theorem run_entries {s : ParseState} (hs : s.array = none) {es : List (JsStr × TomlValue)}
    (hes : ∀ e ∈ es, isBareKey e.1 = true ∧ Unbracketed e.2) :
    ∃ i, (es.map formatEntry).foldlM ParseState.run s =
      (readEntries es).map fun es' => {s with i := i, doc := setEntries s.doc s.table es'} := by
  induction es generalizing s with
  | nil => exact ⟨s.i, rfl⟩
  | cons e es ih =>
    have he := hes e (List.mem_cons_self ..)
    obtain ⟨i, hi⟩ := run_entry hs he.1 he.2
    rw [List.map_cons, List.foldlM_cons]
    show ∃ j, ((formatEntry e).splitOn newline).foldlM ParseState.next s >>= _ = _
    simp only [formatEntry, hi, readEntries, List.mapM_cons]
    cases readBack e.2 with
    | error m => exact ⟨i, rfl⟩
    | ok v =>
      obtain ⟨j, hj⟩ := ih (s := {s with i := i, doc := setIn s.doc s.table e.1 v}) hs
        fun e' he' => hes e' (List.mem_cons_of_mem _ he')
      refine ⟨j, hj.trans ?_⟩
      unfold readEntries
      cases es.mapM fun e => (readBack e.2).map (e.1, ·) <;> rfl

/-- The line of a table's name. -/
theorem next_header {s : ParseState} (hs : s.array = none) {name : JsStr}
    (hname : isBareKey name = true) : s.next (js "[" ++ name ++ js "]") =
      .ok {s with i := s.i + 1, doc := ensureTable s.doc name, table := name} := by
  have hbare := hname
  simp only [isBareKey, Bool.and_eq_true, Bool.not_eq_true', List.isEmpty_eq_false_iff] at hbare
  have hplain : (js "[" ++ name ++ js "]").all isPlainUnit = true := by
    rw [List.all_append, List.all_append, bare_plain hbare.2]
    decide
  have htrim : trim (js "[" ++ name ++ js "]") = js "[" ++ name ++ js "]" := by
    have h := trim_append (a := []) (b := []) rfl rfl
      (show (js "[" ++ name ++ js "]").head? = some (unit '[') from rfl) (by decide)
      (show (js "[" ++ name ++ js "]").getLast? = some (unit ']') by
        rw [List.getLast?_append]; rfl) (by decide)
    rwa [List.nil_append, List.append_nil] at h
  have hheader : headerName (js "[" ++ name ++ js "]") = some name := by
    have hcons : js "[" ++ name ++ js "]" = unit '[' :: (name ++ [unit ']']) := rfl
    have hbracket : unit ']' ∉ name := bare_notMem hbare.2 (by decide)
    rw [hcons, headerName]
    simp [hbare.1, hbracket]
  have hkey : trim name = name := by
    have h := trim_bare hname (b := []) rfl
    rwa [List.append_nil] at h
  have hne : js "[" ++ name ++ js "]" ≠ [] := fun h => by cases h
  simp only [ParseState.next, hs, ParseState.readLine, stripComment, stripComment_of_plain hplain,
    htrim, if_neg hne, hheader, hkey]

/-- The text of a table. -/
def formatTable (e : JsStr × TomlTable) : JsStr :=
  [newline].intercalate ((js "[" ++ e.1 ++ js "]") :: e.2.entries.map formatEntry)

theorem run_table {s : ParseState} (hs : s.array = none) {e : JsStr × TomlTable}
    (hname : isBareKey e.1 = true) (hes : ∀ x ∈ e.2.entries, isBareKey x.1 = true ∧ Unbracketed x.2) :
    ∃ i, s.block (formatTable e) = (readEntries e.2.entries).map fun es' =>
      {s with i := i, doc := setEntries (ensureTable s.doc e.1) e.1 es', table := e.1} := by
  have hheader : newline ∉ js "[" ++ e.1 ++ js "]" := by
    simp only [List.mem_append, not_or]
    exact ⟨⟨by decide, newline_notMem_bare hname⟩, by decide⟩
  have hrun : s.run (js "[" ++ e.1 ++ js "]") =
      .ok {s with i := s.i + 1, doc := ensureTable s.doc e.1, table := e.1} := by
    rw [ParseState.run, List.splitOn_eq_singleton hheader, List.foldlM_cons, next_header hs hname]
    rfl
  obtain ⟨i, hi⟩ := run_entries
    (s := {s with i := s.i + 1, doc := ensureTable s.doc e.1, table := e.1}) hs hes
  refine ⟨i + 1, ?_⟩
  rw [ParseState.block, formatTable, run_intercalate s (List.cons_ne_nil _ _), List.foldlM_cons, hrun]
  show List.foldlM ParseState.run _ (e.2.entries.map formatEntry) >>= _ = _
  rw [hi]
  cases readEntries e.2.entries with
  | error m => rfl
  | ok es' => exact next_blank hs

/-- What the parser makes of tables. -/
def readTables (ts : List (JsStr × TomlTable)) :
    Except JsStr (List (JsStr × List (JsStr × TomlValue))) :=
  ts.mapM fun e => (readEntries e.2.entries).map (e.1, ·)

/-- The tables that are set one by one. -/
def setTables (doc : TomlDoc) (ts : List (JsStr × List (JsStr × TomlValue))) : TomlDoc :=
  ts.foldl (fun doc e => setEntries (ensureTable doc e.1) e.1 e.2) doc

theorem run_tables {s : ParseState} (hs : s.array = none) {ts : List (JsStr × TomlTable)}
    (hts : ∀ e ∈ ts, isBareKey e.1 = true ∧
      ∀ x ∈ e.2.entries, isBareKey x.1 = true ∧ Unbracketed x.2) :
    ∃ i table, (ts.map formatTable).foldlM ParseState.block s = (readTables ts).map fun ts' =>
      {s with i := i, doc := setTables s.doc ts', table := table} := by
  induction ts generalizing s with
  | nil => exact ⟨s.i, s.table, rfl⟩
  | cons e ts ih =>
    have he := hts e (List.mem_cons_self ..)
    obtain ⟨i, hi⟩ := run_table hs he.1 he.2
    rw [List.map_cons, List.foldlM_cons, hi]
    simp only [readTables, List.mapM_cons]
    cases readEntries e.2.entries with
    | error m => exact ⟨i, [], rfl⟩
    | ok es' =>
      obtain ⟨j, table, hj⟩ := ih
        (s := {s with i := i, doc := setEntries (ensureTable s.doc e.1) e.1 es', table := e.1}) hs
        fun e' he' => hts e' (List.mem_cons_of_mem _ he')
      refine ⟨j, table, hj.trans ?_⟩
      unfold readTables
      cases ts.mapM fun e => (readEntries e.2.entries).map (e.1, ·) <;> rfl

/-- Taint stays in every loop over pieces of the text. -/
theorem Tainted.foldlM {step : ParseState → JsStr → Except JsStr ParseState}
    (hstep : ∀ s x s', Tainted s → step s x = .ok s' → Tainted s') {s s' : ParseState}
    (h : Tainted s) {xs : List JsStr} (hs : xs.foldlM step s = .ok s') : Tainted s' := by
  induction xs generalizing s with
  | nil => exact Except.ok.inj hs ▸ h
  | cons x xs ih =>
    rw [List.foldlM_cons] at hs
    obtain ⟨t, ht, hs⟩ := bind_eq_ok.mp hs
    exact ih (hstep s x t h ht) hs

theorem Tainted.block {s s' : ParseState} (h : Tainted s) {text : JsStr}
    (hs : s.block text = .ok s') : Tainted s' := by
  obtain ⟨t, ht, hs⟩ := bind_eq_ok.mp hs
  exact (Tainted.run h ht).next hs

theorem entries_bracketed {s s' : ParseState} (hs : s.array = none)
    {es : List (JsStr × TomlValue)} (hbare : ∀ e ∈ es, isBareKey e.1 = true)
    (hes : ∃ e ∈ es, ¬ Unbracketed e.2)
    (h : (es.map formatEntry).foldlM ParseState.run s = .ok s') : Tainted s' := by
  induction es generalizing s with
  | nil =>
    obtain ⟨e, he, -⟩ := hes
    cases he
  | cons e es ih =>
    have he := hbare e (List.mem_cons_self ..)
    rw [List.map_cons, List.foldlM_cons] at h
    obtain ⟨t, ht, h⟩ := bind_eq_ok.mp h
    by_cases hv : Unbracketed e.2
    · obtain ⟨i, hi⟩ := run_entry hs he hv
      have hnone : t.array = none := by
        rw [ParseState.run, formatEntry, hi] at ht
        cases hread : readBack e.2 with
        | error m => rw [hread] at ht; cases ht
        | ok v => rw [hread] at ht; exact Except.ok.inj ht ▸ hs
      refine ih hnone (fun e' he' => hbare e' (List.mem_cons_of_mem _ he')) ?_ h
      obtain ⟨e', he', hbracket⟩ := hes
      rcases List.mem_cons.mp he' with rfl | he'
      · exact absurd hv hbracket
      · exact ⟨e', he', hbracket⟩
    · exact (run_bracketed hs he hv ht).foldlM (fun s x s' h hs => Tainted.run h hs) h

theorem table_bracketed {s s' : ParseState} (hs : s.array = none) {e : JsStr × TomlTable}
    (hname : isBareKey e.1 = true) (hbare : ∀ x ∈ e.2.entries, isBareKey x.1 = true)
    (hes : ∃ x ∈ e.2.entries, ¬ Unbracketed x.2) (h : s.block (formatTable e) = .ok s') :
    Tainted s' := by
  obtain ⟨t, ht, h⟩ := bind_eq_ok.mp h
  have hheader : newline ∉ js "[" ++ e.1 ++ js "]" := by
    simp only [List.mem_append, not_or]
    exact ⟨⟨by decide, newline_notMem_bare hname⟩, by decide⟩
  rw [formatTable, run_intercalate s (List.cons_ne_nil _ _), List.foldlM_cons, ParseState.run,
    List.splitOn_eq_singleton hheader, List.foldlM_cons, next_header hs hname] at ht
  exact (entries_bracketed
    (s := {s with i := s.i + 1, doc := ensureTable s.doc e.1, table := e.1}) hs hbare hes ht).next h

theorem tables_bracketed {s s' : ParseState} (hs : s.array = none)
    {ts : List (JsStr × TomlTable)} (hbare : ∀ e ∈ ts, isBareKey e.1 = true ∧
      ∀ x ∈ e.2.entries, isBareKey x.1 = true)
    (hts : ∃ e ∈ ts, ∃ x ∈ e.2.entries, ¬ Unbracketed x.2)
    (h : (ts.map formatTable).foldlM ParseState.block s = .ok s') : Tainted s' := by
  induction ts generalizing s with
  | nil =>
    obtain ⟨e, he, -⟩ := hts
    cases he
  | cons e ts ih =>
    have he := hbare e (List.mem_cons_self ..)
    rw [List.map_cons, List.foldlM_cons] at h
    obtain ⟨t, ht, h⟩ := bind_eq_ok.mp h
    by_cases hv : ∀ x ∈ e.2.entries, Unbracketed x.2
    · obtain ⟨i, hi⟩ := run_table hs he.1 fun x hx => ⟨he.2 x hx, hv x hx⟩
      have hnone : t.array = none := by
        rw [hi] at ht
        cases hread : readEntries e.2.entries with
        | error m => rw [hread] at ht; cases ht
        | ok v => rw [hread] at ht; exact Except.ok.inj ht ▸ hs
      refine ih hnone (fun e' he' => hbare e' (List.mem_cons_of_mem _ he')) ?_ h
      obtain ⟨e', he', x, hx, hbracket⟩ := hts
      rcases List.mem_cons.mp he' with rfl | he'
      · exact absurd (hv x hx) hbracket
      · exact ⟨e', he', x, hx, hbracket⟩
    · obtain ⟨x, hx⟩ := not_forall.mp hv
      exact (table_bracketed hs he.1 he.2 ⟨x, Classical.not_imp.mp hx⟩ ht).foldlM
        (fun s x s' h hs => h.block hs) h

/-! ### Documents -/

/-- Every table and every key has a bare name, the root apart. -/
def Bare (doc : TomlDoc) : Prop :=
  ∀ e ∈ doc.entries, (e.1 = [] ∨ isBareKey e.1 = true) ∧ ∀ x ∈ e.2.entries, isBareKey x.1 = true

/-- The names and entries of tables. -/
def raw (ts : List (JsStr × TomlTable)) : List (JsStr × List (JsStr × TomlValue)) :=
  ts.map fun e => (e.1, e.2.entries)

/-- The tables and keys of a document in their order, but for an empty root. -/
def content (doc : TomlDoc) : List (JsStr × List (JsStr × TomlValue)) :=
  (raw doc.entries).filter fun e => e ≠ ([], [])

/-- The document is read back from its own text. -/
def RoundTrips (doc : TomlDoc) : Prop :=
  ∃ doc', parseTomlDoc (stringifyTomlDoc doc) = .ok doc' ∧ content doc' = content doc

/-- The keys before any table are the first to be kept. -/
def RootFirst (doc : TomlDoc) : Prop :=
  ∀ root, doc.get? [] = some root → root.entries ≠ [] → doc.entries.head? = some ([], root)

def rootEntries (doc : TomlDoc) : List (JsStr × TomlValue) :=
  match doc.get? [] with
  | some root => root.entries
  | none => []

def otherTables (doc : TomlDoc) : List (JsStr × TomlTable) := doc.entries.filter fun e => e.1 ≠ []

/-- The parser's state before the first line. -/
def ParseState.start : ParseState := ⟨0, ensureTable ∅ [], [], none⟩

/-- The texts that are set apart by blank lines. -/
def blocks (doc : TomlDoc) : List JsStr :=
  (if rootEntries doc = [] then [] else
    [[newline].intercalate ((rootEntries doc).map formatEntry)]) ++
    (otherTables doc).map formatTable

theorem stringifyTomlDoc_eq (doc : TomlDoc) : stringifyTomlDoc doc =
    if blocks doc = [] then [] else (js "\n\n").intercalate (blocks doc) ++ [newline] := by
  unfold stringifyTomlDoc blocks rootEntries
  cases doc.get? [] with
  | none => rfl
  | some root => rfl

/-- The parser's way through a text of blocks. -/
theorem parse_stringify (doc : TomlDoc) : parseTomlDoc (stringifyTomlDoc doc) =
    if blocks doc = [] then .ok (ensureTable ∅ [])
    else (blocks doc).foldlM ParseState.block .start >>= ParseState.finish := by
  rw [stringifyTomlDoc_eq]
  split
  next => decide +kernel
  next h =>
    rw [← run_blocks .start h]
    rfl

/-- The root's block, or none. -/
theorem run_root {doc : TomlDoc} (hroot : ∀ x ∈ rootEntries doc, isBareKey x.1 = true ∧ Unbracketed x.2) :
    ∃ i, (if rootEntries doc = [] then [] else
      [[newline].intercalate ((rootEntries doc).map formatEntry)]).foldlM ParseState.block .start =
        (readEntries (rootEntries doc)).map fun es' =>
          {ParseState.start with i := i, doc := setEntries (ensureTable ∅ []) [] es'} := by
  split
  next h => exact ⟨0, by rw [h]; rfl⟩
  next h =>
    obtain ⟨i, hi⟩ := run_entries (s := .start) rfl hroot
    refine ⟨i + 1, ?_⟩
    rw [List.foldlM_cons, ParseState.block, run_intercalate _ (by simpa using h), hi]
    cases readEntries (rootEntries doc) with
    | error m => rfl
    | ok es' =>
      simp only [List.foldlM_nil, bind_pure]
      exact next_blank
        (s := {ParseState.start with i := i, doc := setEntries (ensureTable ∅ []) [] es'}) rfl

theorem mem_rootEntries {doc : TomlDoc} {x : JsStr × TomlValue} (hx : x ∈ rootEntries doc) :
    ∃ root, ([], root) ∈ doc.entries ∧ x ∈ root.entries := by
  unfold rootEntries at hx
  cases hget : doc.get? [] with
  | none => rw [hget] at hx; cases hx
  | some root => exact ⟨root, JsMap.get?_eq_some.mp hget, by rwa [hget] at hx⟩

theorem mem_otherTables {doc : TomlDoc} {e : JsStr × TomlTable} :
    e ∈ otherTables doc ↔ e ∈ doc.entries ∧ e.1 ≠ [] := by
  simp [otherTables]

/-- No string of an array in the document has a closing bracket. -/
def UnbracketedDoc (doc : TomlDoc) : Prop := ∀ e ∈ doc.entries, ∀ x ∈ e.2.entries, Unbracketed x.2

theorem parse_unbracketed {doc : TomlDoc} (hbare : Bare doc) (h : UnbracketedDoc doc) :
    parseTomlDoc (stringifyTomlDoc doc) = readEntries (rootEntries doc) >>= fun root' =>
      (readTables (otherTables doc)).map fun ts' =>
        setTables (setEntries (ensureTable ∅ []) [] root') ts' := by
  have hroot : ∀ x ∈ rootEntries doc, isBareKey x.1 = true ∧ Unbracketed x.2 := by
    intro x hx
    obtain ⟨root, hroot, hx⟩ := mem_rootEntries hx
    exact ⟨(hbare _ hroot).2 x hx, h _ hroot x hx⟩
  have hothers : ∀ e ∈ otherTables doc, isBareKey e.1 = true ∧
      ∀ x ∈ e.2.entries, isBareKey x.1 = true ∧ Unbracketed x.2 := by
    intro e he
    obtain ⟨he, hname⟩ := mem_otherTables.mp he
    exact ⟨(hbare e he).1.resolve_left hname, fun x hx => ⟨(hbare e he).2 x hx, h e he x hx⟩⟩
  rw [parse_stringify]
  split
  next hempty =>
    obtain ⟨hroot, hothers⟩ := List.append_eq_nil_iff.mp hempty
    rw [List.map_eq_nil_iff.mp hothers, show rootEntries doc = [] by by_contra h; simp [h] at hroot]
    rfl
  next =>
    obtain ⟨i, hi⟩ := run_root hroot
    rw [blocks, List.foldlM_append, hi]
    cases readEntries (rootEntries doc) with
    | error m => rfl
    | ok root' =>
      obtain ⟨j, table, hj⟩ := run_tables
        (s := {ParseState.start with i := i, doc := setEntries (ensureTable ∅ []) [] root'}) rfl hothers
      show (List.foldlM ParseState.block _ _ >>= ParseState.finish) = _
      rw [hj]
      cases readTables (otherTables doc) <;> rfl

theorem parse_bracketed {doc doc' : TomlDoc} (hbare : Bare doc) (h : ¬ UnbracketedDoc doc)
    (hparse : parseTomlDoc (stringifyTomlDoc doc) = .ok doc') : HasQuoted doc' := by
  have hothers : ∀ e ∈ otherTables doc, isBareKey e.1 = true ∧
      ∀ x ∈ e.2.entries, isBareKey x.1 = true := by
    intro e he
    obtain ⟨he, hname⟩ := mem_otherTables.mp he
    exact ⟨(hbare e he).1.resolve_left hname, (hbare e he).2⟩
  have hrootBare : ∀ x ∈ rootEntries doc, isBareKey x.1 = true := by
    intro x hx
    obtain ⟨root, hroot, hx⟩ := mem_rootEntries hx
    exact (hbare _ hroot).2 x hx
  have hfinish {s : ParseState} (hs : Tainted s) (h : s.finish = .ok doc') : HasQuoted doc' := by
    unfold ParseState.finish at h
    split at h
    next hnone =>
      rcases hs with hs | ⟨key, rhs, harray, -⟩
      · exact Except.ok.inj h ▸ hs
      · rw [hnone] at harray
        cases harray
    next => cases h
  rw [parse_stringify] at hparse
  by_cases hroot : ∀ x ∈ rootEntries doc, Unbracketed x.2
  · have hbracket : ∃ e ∈ otherTables doc, ∃ x ∈ e.2.entries, ¬ Unbracketed x.2 := by
      simp only [UnbracketedDoc, not_forall] at h
      obtain ⟨e, he, x, hx, hbracket⟩ := h
      refine ⟨e, mem_otherTables.mpr ⟨he, fun hname => hbracket (hroot x ?_)⟩, x, hx, hbracket⟩
      have hget : doc.get? [] = some e.2 := JsMap.get?_eq_some.mpr (by rw [← hname]; exact he)
      rw [rootEntries, hget]
      exact hx
    split at hparse
    next hempty =>
      obtain ⟨e, he, -⟩ := hbracket
      have hnone := List.map_eq_nil_iff.mp (List.append_eq_nil_iff.mp hempty).2
      rw [hnone] at he
      cases he
    next =>
      obtain ⟨s, hs, hparse⟩ := bind_eq_ok.mp hparse
      rw [blocks, List.foldlM_append] at hs
      obtain ⟨t, ht, hs⟩ := bind_eq_ok.mp hs
      obtain ⟨i, hi⟩ := run_root fun x hx => ⟨hrootBare x hx, hroot x hx⟩
      have hnone : t.array = none := by
        rw [hi] at ht
        cases hread : readEntries (rootEntries doc) with
        | error m => rw [hread] at ht; cases ht
        | ok v => rw [hread] at ht; exact Except.ok.inj ht ▸ rfl
      exact hfinish (tables_bracketed hnone hothers hbracket hs) hparse
  · obtain ⟨x, hx⟩ := not_forall.mp hroot
    have hne : rootEntries doc ≠ [] := fun hnil => by
      rw [hnil] at hx
      exact hx fun h => by cases h
    rw [blocks, if_neg hne, List.cons_append, if_neg (List.cons_ne_nil _ _)] at hparse
    obtain ⟨s, hs, hparse⟩ := bind_eq_ok.mp hparse
    rw [List.foldlM_cons] at hs
    obtain ⟨t, ht, hs⟩ := bind_eq_ok.mp hs
    obtain ⟨u, hu, ht⟩ := bind_eq_ok.mp ht
    rw [run_intercalate _ (by simpa using hne)] at hu
    have htainted := entries_bracketed (s := .start) rfl hrootBare ⟨x, Classical.not_imp.mp hx⟩ hu
    exact hfinish ((htainted.next ht).foldlM (fun s x s' h hs => h.block hs) hs) hparse

theorem mapM_pair_cons {α β : Type} {f : JsStr × α → Except JsStr β} {e : JsStr × α}
    {es : List (JsStr × α)} {ys : List (JsStr × β)} :
    ((e :: es).mapM fun e => (f e).map (e.1, ·)) = .ok ys ↔
      ∃ v rest, f e = .ok v ∧ (es.mapM fun e => (f e).map (e.1, ·)) = .ok rest ∧
        ys = (e.1, v) :: rest := by
  rw [mapM_cons_eq_ok]
  cases f e with
  | error m => simp [Except.map]
  | ok v => simp [Except.map]

theorem readEntries_cons {e : JsStr × TomlValue} {es : List (JsStr × TomlValue)}
    {es' : List (JsStr × TomlValue)} : readEntries (e :: es) = .ok es' ↔
      ∃ v rest, readBack e.2 = .ok v ∧ readEntries es = .ok rest ∧ es' = (e.1, v) :: rest := by
  rw [readEntries, mapM_pair_cons]
  rfl

theorem readEntries_eq (es : List (JsStr × TomlValue)) :
    readEntries es = .ok es ↔ ∀ e ∈ es, Separated e.2 := by
  induction es with
  | nil => exact iff_of_true rfl (by simp)
  | cons e es ih =>
    rw [readEntries_cons, List.forall_mem_cons, ← ih, ← readBack_eq]
    constructor
    · rintro ⟨v, rest, hv, hrest, h⟩
      obtain ⟨he, rfl⟩ := List.cons.inj h
      rw [show v = e.2 by rw [he]] at hv
      exact ⟨hv, hrest⟩
    · rintro ⟨hv, hrest⟩
      exact ⟨e.2, es, hv, hrest, rfl⟩

theorem readEntries_keys {es es' : List (JsStr × TomlValue)} (h : readEntries es = .ok es') :
    es'.map Prod.fst = es.map Prod.fst := by
  induction es generalizing es' with
  | nil => exact Except.ok.inj h ▸ rfl
  | cons e es ih =>
    obtain ⟨v, rest, -, hrest, rfl⟩ := readEntries_cons.mp h
    rw [List.map_cons, List.map_cons, ih hrest]

theorem readTables_cons {e : JsStr × TomlTable} {ts : List (JsStr × TomlTable)}
    {ts' : List (JsStr × List (JsStr × TomlValue))} : readTables (e :: ts) = .ok ts' ↔
      ∃ es rest, readEntries e.2.entries = .ok es ∧ readTables ts = .ok rest ∧
        ts' = (e.1, es) :: rest := by
  rw [readTables, mapM_pair_cons]
  rfl

theorem readTables_eq (ts : List (JsStr × TomlTable)) :
    readTables ts = .ok (raw ts) ↔ ∀ e ∈ ts, ∀ x ∈ e.2.entries, Separated x.2 := by
  induction ts with
  | nil => exact iff_of_true rfl (by simp)
  | cons e ts ih =>
    rw [readTables_cons, List.forall_mem_cons, ← ih, ← readEntries_eq]
    constructor
    · rintro ⟨es, rest, hes, hrest, h⟩
      obtain ⟨he, rfl⟩ := List.cons.inj h
      rw [← (Prod.mk.inj he).2] at hes
      exact ⟨hes, hrest⟩
    · rintro ⟨hes, hrest⟩
      exact ⟨_, _, hes, hrest, rfl⟩

/-- What is read has the names that were written, and no key twice. -/
theorem readTables_names {ts : List (JsStr × TomlTable)}
    {ts' : List (JsStr × List (JsStr × TomlValue))} (h : readTables ts = .ok ts') :
    ts'.map Prod.fst = ts.map Prod.fst ∧ ∀ e ∈ ts', (e.2.map Prod.fst).Nodup := by
  induction ts generalizing ts' with
  | nil => exact Except.ok.inj h ▸ ⟨rfl, fun e he => by cases he⟩
  | cons e ts ih =>
    obtain ⟨es, rest, hes, hrest, rfl⟩ := readTables_cons.mp h
    obtain ⟨hnames, hkeys⟩ := ih hrest
    refine ⟨by rw [List.map_cons, List.map_cons, hnames], List.forall_mem_cons.mpr ⟨?_, hkeys⟩⟩
    rw [readEntries_keys hes]
    exact e.2.nodup

theorem setIn_last {doc : TomlDoc} {pre : List (JsStr × TomlTable)} {name : JsStr} {t : TomlTable}
    (h : doc.entries = pre ++ [(name, t)]) (k : JsStr) (v : TomlValue) :
    (setIn doc name k v).entries = pre ++ [(name, t.set k v)] := by
  have hget : doc.get? name = some t := JsMap.get?_eq_some.mpr (by rw [h]; simp)
  rw [setIn, hget, Option.getD_some]
  exact JsMap.set_last h _

theorem setEntries_last {doc : TomlDoc} {pre : List (JsStr × TomlTable)} {name : JsStr}
    {t : TomlTable} (h : doc.entries = pre ++ [(name, t)]) (es : List (JsStr × TomlValue)) :
    (setEntries doc name es).entries = pre ++ [(name, es.foldl (fun t e => t.set e.1 e.2) t)] := by
  induction es generalizing doc t with
  | nil => exact h
  | cons e es ih => exact ih (setIn_last h e.1 e.2)

/-- Tables with new names come after those there are. -/
theorem raw_setTables {doc : TomlDoc} {ts : List (JsStr × List (JsStr × TomlValue))}
    (hnames : ((raw doc.entries ++ ts).map Prod.fst).Nodup)
    (hkeys : ∀ e ∈ ts, (e.2.map Prod.fst).Nodup) :
    raw (setTables doc ts).entries = raw doc.entries ++ ts := by
  induction ts generalizing doc with
  | nil => simp [setTables]
  | cons e ts ih =>
    have hnew : e.1 ∉ doc.entries.map Prod.fst := by
      rw [List.map_append, List.nodup_append] at hnames
      intro h
      refine hnames.2.2 e.1 ?_ e.1 (by simp) rfl
      simpa [raw] using h
    have hensure : (ensureTable doc e.1).entries = doc.entries ++ [(e.1, ∅)] := by
      have hget : ¬ (doc.get? e.1).isSome := by
        rw [Option.isSome_iff_exists]
        rintro ⟨t, ht⟩
        exact hnew (List.mem_map.mpr ⟨_, JsMap.get?_eq_some.mp ht, rfl⟩)
      rw [ensureTable, if_neg hget]
      exact JsMap.set_of_notMem hnew _
    have hset : raw (setEntries (ensureTable doc e.1) e.1 e.2).entries = raw doc.entries ++ [e] := by
      have hfold : (e.2.foldl (fun t x => t.set x.1 x.2) (∅ : TomlTable)).entries = e.2 :=
        JsMap.foldl_set (m := ∅) (hkeys e (List.mem_cons_self ..))
      rw [setEntries_last hensure, raw, List.map_append, List.map_singleton, hfold]
      rfl
    show raw (setTables (setEntries (ensureTable doc e.1) e.1 e.2) ts).entries = _
    rw [ih (by rw [hset, List.append_assoc]; exact hnames)
      (fun e' he' => hkeys e' (List.mem_cons_of_mem _ he')), hset, List.append_assoc]
    rfl

/-- The document that the parser builds, as lists. -/
theorem raw_built {root' : List (JsStr × TomlValue)}
    {ts' : List (JsStr × List (JsStr × TomlValue))} (hroot : (root'.map Prod.fst).Nodup)
    (hnames : (ts'.map Prod.fst).Nodup) (hne : ∀ e ∈ ts', e.1 ≠ [])
    (hkeys : ∀ e ∈ ts', (e.2.map Prod.fst).Nodup) :
    raw (setTables (setEntries (ensureTable ∅ []) [] root') ts').entries = ([], root') :: ts' := by
  have hstart : (ensureTable ∅ [] : TomlDoc).entries = [] ++ [([], ∅)] := rfl
  have hfold : (root'.foldl (fun t x => t.set x.1 x.2) (∅ : TomlTable)).entries = root' :=
    JsMap.foldl_set (m := ∅) hroot
  have hset : raw (setEntries (ensureTable ∅ []) [] root').entries = [([], root')] := by
    rw [setEntries_last hstart, raw, List.map_append, List.map_singleton, hfold]
    rfl
  rw [raw_setTables _ hkeys, hset]
  · rfl
  · rw [hset, List.singleton_append, List.map_cons, List.nodup_cons]
    refine ⟨fun h => ?_, hnames⟩
    obtain ⟨e, he, hnil⟩ := List.mem_map.mp h
    exact hne e he hnil

/-- The entries of the root, apart from the other tables. -/
theorem filter_root (doc : TomlDoc) : (content doc).filter (fun e => e.1 = []) =
    if rootEntries doc = [] then [] else [([], rootEntries doc)] := by
  have hroot : (raw doc.entries).filter (fun e => e.1 = []) =
      raw ((doc.get? []).toList.map ([], ·)) := by
    rw [← JsMap.filter_key, raw, List.filter_map]
    rfl
  rw [content, List.filter_comm, hroot, rootEntries]
  cases doc.get? [] with
  | none => rfl
  | some root =>
    by_cases h : root.entries = [] <;> simp [raw, h]

theorem filter_others (doc : TomlDoc) :
    (content doc).filter (fun e => e.1 ≠ []) = raw (otherTables doc) := by
  rw [content, List.filter_filter, raw, List.filter_map, otherTables, raw]
  congr 1
  refine List.filter_congr fun e _ => ?_
  by_cases h : e.1 = [] <;> simp [h]

/-- A list whose first element is the only one of its kind, if there is one. -/
theorem eq_filter_append {α : Type} {p q : α → Bool} (hq : ∀ x, q x = !p x) {l : List α}
    (hl : l.filter p = [] ∨ ∃ x, l.head? = some x ∧ l.filter p = [x]) :
    l = l.filter p ++ l.filter q := by
  have hself {l : List α} (h : l.filter p = []) : l.filter q = l := by
    rw [List.filter_eq_nil_iff] at h
    exact List.filter_eq_self.mpr fun x hx => by simpa [hq] using h x hx
  rcases hl with h | ⟨x, hx, h⟩
  · rw [h, hself h, List.nil_append]
  · obtain ⟨rest, rfl⟩ : ∃ rest, l = x :: rest := by
      cases l with
      | nil => cases hx
      | cons y rest => exact ⟨rest, by rw [Option.some.inj hx]⟩
    have hpx : p x = true := (List.mem_filter.mp (by rw [h]; exact List.mem_singleton_self x)).2
    rw [List.filter_cons_of_pos hpx] at h ⊢
    have hrest := (List.cons.inj h).2
    rw [hrest, List.filter_cons_of_neg (by simp [hq, hpx]), hself hrest]
    rfl

/-- The content of a document whose root comes first. -/
theorem content_of_rootFirst {doc : TomlDoc} (h : RootFirst doc) : content doc =
    (if rootEntries doc = [] then [] else [([], rootEntries doc)]) ++ raw (otherTables doc) := by
  rw [← filter_root, ← filter_others]
  refine eq_filter_append (fun e => by simp) ?_
  rw [filter_root]
  split
  next => exact .inl rfl
  next hne =>
    cases hget : doc.get? [] with
    | none => exact absurd (by rw [rootEntries, hget]) hne
    | some root =>
      have hroot : rootEntries doc = root.entries := by rw [rootEntries, hget]
      rw [hroot] at hne ⊢
      refine .inr ⟨_, ?_, rfl⟩
      have hhead := h root hget hne
      cases hes : doc.entries with
      | nil => rw [hes] at hhead; cases hhead
      | cons e rest =>
        rw [hes] at hhead
        obtain rfl := Option.some.inj hhead
        simp [content, raw, hes, hne]

/-- A key that begins with a quote is in the content. -/
theorem HasQuoted.not_bare {doc doc' : TomlDoc} (h : HasQuoted doc')
    (hcontent : content doc' = content doc) (hbare : Bare doc) : False := by
  obtain ⟨e, he, x, hx, hquote⟩ := h
  have hmem : (e.1, e.2.entries) ∈ content doc' := by
    refine List.mem_filter.mpr ⟨List.mem_map.mpr ⟨e, he, rfl⟩, ?_⟩
    have hne : e.2.entries ≠ [] := List.ne_nil_of_mem hx
    simp [hne]
  rw [hcontent] at hmem
  obtain ⟨e', he', heq⟩ := List.mem_map.mp (List.mem_filter.mp hmem).1
  have hkey := (hbare e' he').2 x (by rw [(Prod.mk.inj heq).2]; exact hx)
  simp only [isBareKey, Bool.and_eq_true, List.all_eq_true] at hkey
  exact absurd (hkey.2 quote (List.mem_of_mem_head? (by rw [hquote]; rfl))) (by decide)

/-- What the parser has built, when it reads a document without brackets in its strings. -/
theorem built_of_unbracketed {doc doc' : TomlDoc} (hbare : Bare doc) (h : UnbracketedDoc doc)
    (hparse : parseTomlDoc (stringifyTomlDoc doc) = .ok doc') :
    ∃ root' ts', readEntries (rootEntries doc) = .ok root' ∧
      readTables (otherTables doc) = .ok ts' ∧ raw doc'.entries = ([], root') :: ts' ∧
      ∀ e ∈ ts', e.1 ≠ [] := by
  rw [parse_unbracketed hbare h] at hparse
  obtain ⟨root', hroot', hparse⟩ := bind_eq_ok.mp hparse
  cases hts : readTables (otherTables doc) with
  | error m => rw [hts] at hparse; cases hparse
  | ok ts' =>
    rw [hts] at hparse
    obtain rfl := Except.ok.inj hparse
    obtain ⟨hnames, hkeys⟩ := readTables_names hts
    have hne : ∀ e ∈ ts', e.1 ≠ [] := by
      intro e he
      have hname : e.1 ∈ (otherTables doc).map Prod.fst := by
        rw [← hnames]
        exact List.mem_map_of_mem he
      obtain ⟨t, ht, hname⟩ := List.mem_map.mp hname
      exact hname ▸ (mem_otherTables.mp ht).2
    have hrootKeys : (root'.map Prod.fst).Nodup := by
      rw [readEntries_keys hroot', rootEntries]
      cases doc.get? [] with
      | none => exact List.nodup_nil
      | some root => exact root.nodup
    refine ⟨root', ts', hroot', rfl, raw_built hrootKeys ?_ hne hkeys, hne⟩
    rw [hnames]
    exact (List.Sublist.map _ List.filter_sublist).nodup doc.nodup

theorem content_built {doc : TomlDoc} {root : List (JsStr × TomlValue)}
    {ts : List (JsStr × List (JsStr × TomlValue))} (h : raw doc.entries = ([], root) :: ts)
    (hne : ∀ e ∈ ts, e.1 ≠ []) :
    content doc = (if root = [] then [] else [([], root)]) ++ ts := by
  have hts : ts.filter (fun e => e ≠ ([], [])) = ts :=
    List.filter_eq_self.mpr fun e he => decide_eq_true fun heq => hne e he (by rw [heq])
  rw [content, h]
  by_cases hroot : root = []
  · rw [List.filter_cons_of_neg (by simp [hroot]), hts, if_pos hroot, List.nil_append]
  · rw [List.filter_cons_of_pos (by simp [hroot]), hts, if_neg hroot, List.singleton_append]

/-- What is read back as it was has been read value by value. -/
theorem read_of_content {doc doc' : TomlDoc} {root' : List (JsStr × TomlValue)}
    {ts' : List (JsStr × List (JsStr × TomlValue))} (h : raw doc'.entries = ([], root') :: ts')
    (hne : ∀ e ∈ ts', e.1 ≠ []) (hcontent : content doc' = content doc) :
    root' = rootEntries doc ∧ ts' = raw (otherTables doc) := by
  rw [content_built h hne] at hcontent
  have hnone : ts'.filter (fun e => e.1 = []) = [] :=
    List.filter_eq_nil_iff.mpr fun e he => by simpa using hne e he
  have hall : ts'.filter (fun e => e.1 ≠ []) = ts' :=
    List.filter_eq_self.mpr fun e he => by simpa using hne e he
  have hroots := filter_root doc
  have hothers := filter_others doc
  rw [← hcontent, List.filter_append] at hroots hothers
  constructor
  · rw [hnone, List.append_nil] at hroots
    by_cases hr : root' = [] <;> by_cases hd : rootEntries doc = [] <;> simp [hr, hd] at hroots ⊢
    exact hroots
  · rw [hall] at hothers
    by_cases hr : root' = [] <;> simpa [hr] using hothers

/-- The root is the first table of a document that has the content of one built anew. -/
theorem rootFirst_of_content {doc doc' : TomlDoc}
    {ts' : List (JsStr × List (JsStr × TomlValue))}
    (h : raw doc'.entries = ([], rootEntries doc) :: ts') (hne : ∀ e ∈ ts', e.1 ≠ [])
    (hcontent : content doc' = content doc) : RootFirst doc := by
  intro root hget hroot
  have hentries : rootEntries doc = root.entries := by rw [rootEntries, hget]
  rw [content_built h hne, hentries, if_neg hroot, List.singleton_append] at hcontent
  cases hes : doc.entries with
  | nil =>
    rw [content, raw, hes] at hcontent
    cases hcontent
  | cons e rest =>
    by_cases hname : e.1 = []
    · have hmem : doc.get? [] = some e.2 :=
        JsMap.get?_eq_some.mpr (by rw [hes, ← hname]; exact List.mem_cons_self ..)
      rw [hget] at hmem
      rw [List.head?_cons, Option.some.inj hmem, ← hname]
    · rw [content, raw, hes, List.map_cons, List.filter_cons_of_pos (by simp [hname])] at hcontent
      exact absurd (congrArg Prod.fst (List.cons.inj hcontent).1).symm hname

/-- **A document with bare names is read back from its own text exactly when the root comes first,
no string of an array has a closing bracket, and none but the last of its array ends with a
backslash.** -/
theorem round_trip_iff {doc : TomlDoc} (hbare : Bare doc) : RoundTrips doc ↔
    RootFirst doc ∧ ∀ e ∈ doc.entries, ∀ x ∈ e.2.entries, Unbracketed x.2 ∧ Separated x.2 := by
  constructor
  · intro ⟨doc', hparse, hcontent⟩
    have hclean : UnbracketedDoc doc := by
      by_contra h
      exact (parse_bracketed hbare h hparse).not_bare hcontent hbare
    obtain ⟨root', ts', hroot', hts', hraw, hne⟩ := built_of_unbracketed hbare hclean hparse
    obtain ⟨rfl, rfl⟩ := read_of_content hraw hne hcontent
    refine ⟨rootFirst_of_content hraw hne hcontent, fun e he x hx => ⟨hclean e he x hx, ?_⟩⟩
    by_cases hname : e.1 = []
    · have hget : doc.get? [] = some e.2 := JsMap.get?_eq_some.mpr (by rw [← hname]; exact he)
      exact (readEntries_eq _).mp hroot' x (by rw [rootEntries, hget]; exact hx)
    · exact (readTables_eq _).mp hts' e (mem_otherTables.mpr ⟨he, hname⟩) x hx
  · intro ⟨hfirst, hall⟩
    have hclean : UnbracketedDoc doc := fun e he x hx => (hall e he x hx).1
    have hroot : readEntries (rootEntries doc) = .ok (rootEntries doc) := by
      refine (readEntries_eq _).mpr fun x hx => ?_
      obtain ⟨root, hroot, hx⟩ := mem_rootEntries hx
      exact (hall _ hroot x hx).2
    have hothers : readTables (otherTables doc) = .ok (raw (otherTables doc)) :=
      (readTables_eq _).mpr fun e he x hx => (hall e (mem_otherTables.mp he).1 x hx).2
    have hparse := parse_unbracketed hbare hclean
    rw [hroot, hothers] at hparse
    obtain ⟨root', ts', hroot', hts', hraw, hne⟩ := built_of_unbracketed hbare hclean hparse
    rw [hroot] at hroot'
    rw [hothers] at hts'
    obtain rfl := Except.ok.inj hroot'
    obtain rfl := Except.ok.inj hts'
    exact ⟨_, hparse, by rw [content_built hraw hne, content_of_rootFirst hfirst]⟩

/-- A pattern of files in the settings, with brackets in it. -/
private def bracketed : TomlDoc := setIn (ensureTable ∅ []) (js "obsidian") (js "ignore_globs")
  (.array [js "[abc]*.md"])

/-- Such a configuration cannot be read again. -/
theorem round_trip_iff_bracket : ¬ ∀ doc, Bare doc → RoundTrips doc := by
  intro h
  obtain ⟨doc', hparse, -⟩ := h bracketed (by unfold Bare; decide +kernel)
  have hfails : (parseTomlDoc (stringifyTomlDoc bracketed)).toOption = none := by decide +kernel
  rw [hparse] at hfails
  cases hfails

/-- Quotes, backslashes, comment signs and equals signs do no harm. -/
private def quoted : TomlDoc := setIn (setIn (ensureTable ∅ []) (js "sync") (js "include")
  (.array [js "a \"b\" # c", js "= \\x\\"])) (js "sync") (js "log_retention_days")
  (.number ⟨-30, by decide⟩)

theorem round_trip_iff_quoted : RoundTrips quoted := by
  refine (round_trip_iff (by unfold Bare; decide +kernel)).mpr ⟨?_, ?_⟩
  · intro root hroot hne
    have hempty : quoted.get? [] = some ∅ := by decide +kernel
    rw [hempty] at hroot
    exact absurd (Option.some.inj hroot ▸ rfl) hne
  · decide +kernel

end AgentSync.Sdk
