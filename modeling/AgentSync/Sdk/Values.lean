import AgentSync.Sdk.Config
import Mathlib.Tactic.IntervalCases

/-! The text of a value, read back.

Strings, integers and booleans come back as they were. The strings of an array are told apart by
the first quote that no backslash precedes, so that one which ends with a backslash swallows the
quote that opens the next; from there on the parser is inside where it should be outside
(`parseElements_openText`), and never gets back (`parseElements_elementsText`). -/
namespace AgentSync.Sdk

open Js

/-! ### Escapes -/

/-- What a unit is written as. -/
def escapeUnit (c : UInt16) : JsStr :=
  if c = backslash then js "\\\\"
  else if c = quote then js "\\\""
  else if c = newline then js "\\n"
  else if c = unit '\t' then js "\\t"
  else [c]

theorem escapeTomlString_eq (s : JsStr) : escapeTomlString s = s.flatMap escapeUnit := by
  unfold escapeTomlString replaceAll
  rw [List.flatMap_assoc, List.flatMap_assoc, List.flatMap_assoc]
  congr 1
  funext c
  unfold escapeUnit
  by_cases hb : c = backslash
  · subst hb
    decide
  · by_cases hq : c = quote
    · subst hq
      decide
    · by_cases hn : c = newline
      · subst hn
        decide
      · simp [hb, hq, hn]

/-- A unit is written as itself or as a backslash and one more unit. -/
inductive Escaped (c : UInt16) : Prop where
  | plain (h : escapeUnit c = [c]) (hb : c ≠ backslash) (hq : c ≠ quote) (hn : c ≠ newline)
  | pair (e : UInt16) (h : escapeUnit c = [backslash, e]) (hn : e ≠ newline) (hr : e ≠ unit ']')
      (hb : e = backslash ↔ c = backslash) (hq : e = quote ↔ c = quote) (hc : c ≠ unit ']')
      (hread : ∀ rest, readString 0 (backslash :: e :: rest) = (readString 1 (e :: rest)).map (c :: ·))

theorem escaped (c : UInt16) : Escaped c := by
  by_cases hb : c = backslash
  · subst hb
    exact .pair backslash rfl (by decide) (by decide) (by decide) (by decide) (by decide)
      fun rest => rfl
  · by_cases hq : c = quote
    · subst hq
      exact .pair quote rfl (by decide) (by decide) (by decide) (by decide) (by decide)
        fun rest => rfl
    · by_cases hn : c = newline
      · subst hn
        exact .pair (unit 'n') rfl (by decide) (by decide) (by decide) (by decide) (by decide)
          fun rest => rfl
      · by_cases ht : c = unit '\t'
        · subst ht
          exact .pair (unit 't') rfl (by decide) (by decide) (by decide) (by decide) (by decide)
            fun rest => rfl
        · exact .plain (by simp [escapeUnit, hb, hq, hn, ht]) hb hq hn

theorem escape_cons (c : UInt16) (s : JsStr) :
    escapeTomlString (c :: s) = escapeUnit c ++ escapeTomlString s := by
  rw [escapeTomlString_eq, escapeTomlString_eq, List.flatMap_cons]

theorem escape_append (s t : JsStr) :
    escapeTomlString (s ++ t) = escapeTomlString s ++ escapeTomlString t := by
  rw [escapeTomlString_eq, escapeTomlString_eq, escapeTomlString_eq, List.flatMap_append]

/-- An escaped text is read back, and then what follows it. -/
theorem readString_escape (s rest : JsStr) :
    readString 0 (escapeTomlString s ++ rest) = (readString 0 rest).map (s ++ ·) := by
  induction s with
  | nil => simp [escapeTomlString_eq]
  | cons c s ih =>
    have hmap : ((readString 0 rest).map (s ++ ·)).map (c :: ·) =
        (readString 0 rest).map (c :: s ++ ·) := by
      rw [Option.map_map]
      rfl
    rw [escape_cons]
    cases escaped c with
    | plain h hb hq hn =>
      have hread (t : JsStr) : readString 0 (c :: t) = (readString 0 t).map (c :: ·) := by
        simp only [readString, if_neg hq, if_pos hb]
      rw [h, List.append_assoc, List.singleton_append, hread, ih, hmap]
    | pair e h hn hr hb hq hc hread =>
      rw [h, List.append_assoc, List.cons_append, List.cons_append, hread, readString,
        List.nil_append, ih, hmap]

theorem newline_notMem_escape (s : JsStr) : newline ∉ escapeTomlString s := by
  induction s with
  | nil => exact List.not_mem_nil
  | cons c s ih =>
    rw [escape_cons, List.mem_append, not_or]
    refine ⟨?_, ih⟩
    cases escaped c with
    | plain h hb hq hn => simpa [h] using hn.symm
    | pair e h hn hr hb hq hc hread =>
      rw [h]
      simp only [List.mem_cons, List.not_mem_nil, or_false, not_or]
      exact ⟨by decide, hn.symm⟩

/-- A unit that escaping neither puts in nor takes out of another one. -/
theorem mem_escape_iff {u : UInt16} (hu : ∀ c, u ∈ escapeUnit c ↔ u = c) (s : JsStr) :
    u ∈ escapeTomlString s ↔ u ∈ s := by
  induction s with
  | nil => rfl
  | cons c s ih => rw [escape_cons, List.mem_append, List.mem_cons, ih, hu c]

/-- Escaping puts no closing bracket in, and takes none out. -/
theorem bracket_mem_escape (s : JsStr) :
    unit ']' ∈ escapeTomlString s ↔ unit ']' ∈ s := by
  refine mem_escape_iff (fun c => ?_) s
  cases escaped c with
  | plain h hb hq hn => rw [h, List.mem_singleton]
  | pair e h hn hr hb hq hc hread =>
    rw [h]
    simp only [List.mem_cons, List.not_mem_nil, or_false, hr.symm, hc.symm, iff_false]
    decide

/-- The unit before what follows an escaped text. -/
def lastUnit (prev : UInt16) (s : JsStr) : UInt16 := ((escapeTomlString s).getLast?).getD prev

theorem lastUnit_cons (prev c : UInt16) (s : JsStr) :
    ∃ e, lastUnit prev (c :: s) = lastUnit e s ∧ (escapeUnit c).getLast? = some e := by
  unfold lastUnit
  rw [escape_cons]
  cases escaped c with
  | plain h hb hq hn =>
    refine ⟨c, ?_, by rw [h]; rfl⟩
    rw [h, List.getLast?_append]
    cases (escapeTomlString s).getLast? <;> rfl
  | pair e h hn hr hb hq hc hread =>
    refine ⟨e, ?_, by rw [h]; rfl⟩
    rw [h, List.getLast?_append]
    cases (escapeTomlString s).getLast? <;> rfl

/-- The written text ends with a backslash where the text does. -/
theorem lastUnit_eq_backslash (prev : UInt16) (s : JsStr) :
    lastUnit prev s = backslash ↔ s.getLast? = some backslash ∨ s = [] ∧ prev = backslash := by
  induction s generalizing prev with
  | nil => simp [lastUnit, escapeTomlString_eq]
  | cons c s ih =>
    obtain ⟨e, he, hlast⟩ := lastUnit_cons prev c s
    have hec : e = backslash ↔ c = backslash := by
      cases escaped c with
      | plain h hb hq hn =>
        rw [h] at hlast
        have hce : c = e := Option.some.inj hlast
        rw [hce]
      | pair e' h hn hr hb hq hc hread =>
        rw [h] at hlast
        rw [← Option.some.inj hlast]
        exact hb
    rw [he, ih, hec]
    cases s with
    | nil => simp
    | cons d s => simp

/-- The walk to the close quote goes past an escaped text. -/
theorem closeQuote_escape (prev : UInt16) (s rest : JsStr) :
    closeQuote prev (escapeTomlString s ++ rest) =
      (escapeTomlString s ++ (closeQuote (lastUnit prev s) rest).1,
        (closeQuote (lastUnit prev s) rest).2) := by
  induction s generalizing prev with
  | nil => rfl
  | cons c s ih =>
    obtain ⟨e, he, hlast⟩ := lastUnit_cons prev c s
    rw [he, escape_cons]
    cases escaped c with
    | plain h hb hq hn =>
      rw [h] at hlast ⊢
      obtain rfl := Option.some.inj hlast
      rw [List.append_assoc, List.singleton_append, closeQuote, if_neg (fun h => hq h.1), ih]
      rfl
    | pair e' h hn hr hb hq hc hread =>
      rw [h] at hlast ⊢
      obtain rfl := Option.some.inj hlast
      rw [List.append_assoc, List.cons_append, closeQuote, if_neg (fun h => absurd h.1 (by decide)),
        List.cons_append, closeQuote, if_neg (fun h => h.2 rfl), List.nil_append, ih]
      rfl

/-- Inside a string no comment begins. -/
theorem stripComment_escape (prev : Option UInt16) (s rest : JsStr) :
    ∃ prev', stripCommentFrom true prev (escapeTomlString s ++ rest) =
      escapeTomlString s ++ stripCommentFrom true prev' rest := by
  induction s generalizing prev with
  | nil => exact ⟨prev, rfl⟩
  | cons c s ih =>
    rw [escape_cons]
    cases escaped c with
    | plain h hb hq hn =>
      obtain ⟨prev', hprev⟩ := ih (some c)
      refine ⟨prev', ?_⟩
      rw [h, List.append_assoc, List.singleton_append, stripCommentFrom, if_neg (fun h => hq h.1),
        if_neg (fun h => by cases h.2), hprev]
      rfl
    | pair e h hn hr hb hq hc hread =>
      obtain ⟨prev', hprev⟩ := ih (some e)
      refine ⟨prev', ?_⟩
      rw [h, List.append_assoc, List.cons_append, stripCommentFrom,
        if_neg (fun h => absurd h.1 (by decide)), if_neg (fun h => by cases h.2), List.cons_append,
        stripCommentFrom, if_neg (fun h => h.2 rfl), if_neg (fun h => by cases h.2),
        List.nil_append, hprev]
      rfl

theorem quote_mem_escape (s : JsStr) : quote ∈ escapeTomlString s ↔ quote ∈ s := by
  refine mem_escape_iff (fun c => ?_) s
  cases escaped c with
  | plain h hb hq hn => rw [h, List.mem_singleton]
  | pair e h hn hr hb hq hc hread =>
    rw [h]
    have hbq : quote ≠ backslash := by decide
    simp only [List.mem_cons, List.not_mem_nil, or_false, hbq, false_or]
    rw [eq_comm, hq, eq_comm]

/-! ### Arrays -/

/-- What stands between the brackets of an array. -/
def elementsText (es : List JsStr) : JsStr :=
  (es.flatMap fun e => newline :: js "    \"" ++ escapeTomlString e ++ js "\",") ++ [newline]

/-- The rest of the array after the quote that opens `e`. -/
def openText (e : JsStr) (es : List JsStr) : JsStr :=
  escapeTomlString e ++ quote :: unit ',' :: elementsText es

theorem elementsText_cons (e : JsStr) (es : List JsStr) :
    elementsText (e :: es) = js "\n    " ++ quote :: openText e es := by
  unfold elementsText openText elementsText
  rw [List.flatMap_cons, List.append_assoc, List.append_assoc, List.append_assoc]
  rfl

theorem parseTomlString_escape (s rest : JsStr) :
    parseTomlString (quote :: (escapeTomlString s ++ quote :: rest)) = .ok s := by
  simp [parseTomlString, readString_escape, readString]

theorem parseElements_skip {a : JsStr} (ha : quote ∉ a) (rest : JsStr) :
    parseElements (a ++ rest) = parseElements rest := by
  induction a with
  | nil => rfl
  | cons c a ih =>
    rw [List.mem_cons, not_or] at ha
    rw [List.cons_append, parseElements, if_pos (Ne.symm ha.1), ih ha.2]

/-- A quote in front of an escaped text begins an element, wherever its end is found. -/
theorem parseElements_quote (s rest : JsStr) :
    parseElements (quote :: (escapeTomlString s ++ quote :: rest)) =
      (parseElements (closeQuote (lastUnit quote s) (quote :: rest)).2).map (s :: ·) := by
  have hclose : ∃ t, (closeQuote (lastUnit quote s) (quote :: rest)).1 = quote :: t := by
    rw [closeQuote]
    split
    next => exact ⟨_, rfl⟩
    next => exact ⟨_, rfl⟩
  obtain ⟨t, ht⟩ := hclose
  rw [parseElements, if_neg (by simp), closeQuote_escape, ht, parseTomlString_escape]

/-- The close quote is looked for from a comma on. -/
theorem closeQuote_comma (e : JsStr) (es : List JsStr) :
    closeQuote quote (unit ',' :: elementsText (e :: es)) = (js ",\n    \"", openText e es) := by
  rw [elementsText_cons]
  rfl

theorem map_cons_eq_ok {x : Except JsStr (List JsStr)} {e e' : JsStr} {es : List JsStr} :
    x.map (e :: ·) = .ok (e' :: es) ↔ e = e' ∧ x = .ok es := by
  cases x <;> simp [Except.map]

/-- Inside an element with a quote, the parser takes what follows the quote for the element. -/
theorem parseElements_openText_of_mem {e : JsStr} (he : quote ∈ e) (es : List JsStr) :
    parseElements (openText e es) ≠ .ok (e :: es) := by
  obtain ⟨a, b, rfl, ha⟩ := List.eq_append_cons_of_mem he
  have htext : openText (a ++ quote :: b) es = (escapeTomlString a ++ [backslash]) ++
      quote :: (escapeTomlString b ++ quote :: unit ',' :: elementsText es) := by
    rw [openText, escape_append, escape_cons, show escapeUnit quote = [backslash] ++ [quote] by rfl]
    simp only [List.append_assoc, List.cons_append, List.nil_append]
  have hskip : quote ∉ escapeTomlString a ++ [backslash] := by
    rw [List.mem_append, quote_mem_escape, not_or]
    exact ⟨ha, by decide⟩
  rw [htext, parseElements_skip hskip, parseElements_quote, Ne, map_cons_eq_ok]
  intro h
  have hlen := congrArg List.length h.1
  simp only [List.length_append, List.length_cons] at hlen
  omega

/-- Once the parser is inside an element without knowing it, it cannot read the rest back. -/
theorem parseElements_openText (e : JsStr) (es : List JsStr) :
    parseElements (openText e es) ≠ .ok (e :: es) := by
  induction es generalizing e with
  | nil =>
    by_cases he : quote ∈ e
    · exact parseElements_openText_of_mem he []
    · have hopen : parseTomlString (quote :: (closeQuote quote (unit ',' :: elementsText [])).1) =
          .error (js "config.toml: unterminated string: \",\n") := by decide +kernel
      rw [openText, parseElements_skip (fun h => he ((quote_mem_escape e).mp h)), parseElements,
        if_neg (by simp), hopen]
      exact fun h => by cases h
  | cons e' es ih =>
    by_cases he : quote ∈ e
    · exact parseElements_openText_of_mem he (e' :: es)
    · rw [openText, parseElements_skip (fun h => he ((quote_mem_escape e).mp h)), parseElements,
        if_neg (by simp), closeQuote_comma]
      cases parseTomlString (quote :: js ",\n    \"") with
      | error _ => simp
      | ok s =>
        show (parseElements (openText e' es)).map (s :: ·) ≠ _
        rw [Ne, map_cons_eq_ok]
        exact fun h => ih e' h.2

/-- **An array is read back exactly when no element but the last ends with a backslash.** -/
theorem parseElements_elementsText (es : List JsStr) :
    parseElements (elementsText es) = .ok es ↔ ∀ e ∈ es.dropLast, e.getLast? ≠ some backslash := by
  induction es with
  | nil => simp [show parseElements (elementsText []) = .ok [] by decide +kernel]
  | cons e es ih =>
    have hskip : quote ∉ js "\n    " := by decide
    rw [elementsText_cons, parseElements_skip hskip, openText, parseElements_quote, map_cons_eq_ok]
    have hlast : lastUnit quote e = backslash ↔ e.getLast? = some backslash := by
      rw [lastUnit_eq_backslash]
      simp [show quote ≠ backslash by decide]
    by_cases he : e.getLast? = some backslash
    · rw [hlast.mpr he, closeQuote, if_neg (fun h => h.2 rfl)]
      cases es with
      | nil => simp [show (closeQuote quote (unit ',' :: elementsText [])).2 = [] by rfl, parseElements]
      | cons e' es =>
        rw [closeQuote_comma]
        simp [he, parseElements_openText]
    · rw [closeQuote, if_pos ⟨rfl, fun h => he (hlast.mp h)⟩]
      have hcomma : parseElements (unit ',' :: elementsText es) = parseElements (elementsText es) :=
        parseElements_skip (a := [unit ',']) (by decide) _
      rw [hcomma, ih]
      cases es with
      | nil => simp
      | cons e' es => simp [he]

/-! ### Scalars -/

/-- What the code unit of a digit is, and is not. -/
structure DigitUnit (c : Char) : Prop where
  low : unit '0' ≤ unit c
  high : unit c ≤ unit '9'
  back : Char.ofNat (unit c).toNat = c
  space : isSpace (unit c) = false
  other : unit c ∉ js "\"_+-tf[#=\n"

theorem digitUnit {c : Char} (hc : c.isDigit = true) : DigitUnit c := by
  have hdigit : 48 ≤ c.toNat ∧ c.toNat ≤ 57 := by
    simp only [Char.isDigit, Bool.and_eq_true, decide_eq_true_eq] at hc
    exact ⟨UInt32.le_iff_toNat_le.mp hc.1, UInt32.le_iff_toNat_le.mp hc.2⟩
  rw [← Char.ofNat_toNat c]
  generalize c.toNat = n at hdigit
  obtain ⟨hlo, hhi⟩ := hdigit
  interval_cases n <;> exact ⟨by decide, by decide, by decide, by decide, by decide⟩

/-- The decimal digits of a number. -/
def digits (m : Nat) : JsStr := (Nat.toDigits 10 m).map unit

theorem mem_digits {m : Nat} {u : UInt16} (hu : u ∈ digits m) : ∃ c, u = unit c ∧ DigitUnit c := by
  obtain ⟨c, hc, rfl⟩ := List.mem_map.mp hu
  exact ⟨c, rfl, digitUnit (Nat.isDigit_of_mem_toDigits (by decide) (by decide) hc)⟩

theorem digits_cons (m : Nat) : ∃ c rest, digits m = unit c :: rest ∧ DigitUnit c := by
  cases h : digits m with
  | nil => exact absurd (List.map_eq_nil_iff.mp h) Nat.toDigits_ne_nil
  | cons u rest =>
    obtain ⟨c, rfl, hc⟩ := mem_digits (m := m) (u := u) (by rw [h]; exact List.mem_cons_self ..)
    exact ⟨c, rest, rfl, hc⟩

theorem digits_all (m : Nat) :
    ((digits m).all fun c => c = unit '_' || unit '0' ≤ c && c ≤ unit '9') = true := by
  refine List.all_eq_true.mpr fun u hu => ?_
  obtain ⟨c, rfl, hc⟩ := mem_digits hu
  simp [hc.low, hc.high]

theorem ofDigitChars_digits (m : Nat) :
    Nat.ofDigitChars 10 ((digits m).map fun c => Char.ofNat c.toNat) 0 = m := by
  have hback : (digits m).map (fun c => Char.ofNat c.toNat) = Nat.toDigits 10 m := by
    rw [digits, List.map_map]
    refine (List.map_congr_left fun c hc => ?_).trans (List.map_id _)
    exact (digitUnit (Nat.isDigit_of_mem_toDigits (by decide) (by decide) hc)).back
  rw [hback, Nat.ofDigitChars_ten_toDigits]

/-- What `String(n)` is. -/
theorem js_toString (n : Int) : js (toString n) =
    if n < 0 then unit '-' :: digits n.natAbs else digits n.natAbs := by
  cases n with
  | ofNat m =>
    rw [if_neg (by simp), Int.toString_eq_repr]
    show js m.repr = _
    rw [js, Nat.toList_repr]
    rfl
  | negSucc m =>
    rw [if_pos (Int.negSucc_lt_zero m), Int.toString_eq_repr]
    show js ("-" ++ (m + 1).repr) = _
    rw [js, String.toList_append, Nat.toList_repr]
    rfl

theorem parseScalar_number {u : UInt16} {rest : JsStr} {n : Int} (hn : isSafeInteger n = true)
    (hu : u ∉ [quote, unit 't', unit 'f']) (hint : isInteger (u :: rest) = true)
    (hnum : number ((u :: rest).filter (· ≠ unit '_')) = some n) :
    parseScalar (u :: rest) = .ok (.number ⟨n, hn⟩) := by
  simp only [List.mem_cons, List.not_mem_nil, or_false, not_or] at hu
  have htrue : u :: rest ≠ js "true" := fun h => hu.2.1 (List.cons.inj h).1
  have hfalse : u :: rest ≠ js "false" := fun h => hu.2.2 (List.cons.inj h).1
  simp only [parseScalar, List.head?_cons, Option.some.injEq, if_neg hu.1, if_neg htrue,
    if_neg hfalse, hint, hnum, if_true, hn, dite_true]

theorem number_round_trip (n : SafeInt) : parseScalar (formatValue (.number n)) = .ok (.number n) := by
  obtain ⟨n, hn⟩ := n
  obtain ⟨c, rest, hdigits, hc⟩ := digits_cons n.natAbs
  have hall := digits_all n.natAbs
  have hvalue := ofDigitChars_digits n.natAbs
  have hfilter : (digits n.natAbs).filter (· ≠ unit '_') = digits n.natAbs := by
    refine List.filter_eq_self.mpr fun u hu => ?_
    obtain ⟨d, rfl, hd⟩ := mem_digits hu
    exact decide_eq_true fun h => hd.other (h ▸ by decide)
  have hother (d : Char) (hd : unit d ∈ js "\"_+-tf[#=\n") : unit c ≠ unit d :=
    fun h => hc.other (h ▸ hd)
  have hhead : unit c ∉ [quote, unit 't', unit 'f'] := by
    simp [quote, hother '"' (by decide), hother 't' (by decide), hother 'f' (by decide)]
  have hne : digits n.natAbs ≠ [] := by simp [hdigits]
  have hunsigned : ¬ ((digits n.natAbs).head? = some (unit '+') ∨
      (digits n.natAbs).head? = some (unit '-')) := by
    simp [hdigits, hother '+' (by decide), hother '-' (by decide)]
  show parseScalar (js (toString n)) = _
  rw [js_toString]
  split
  next hneg =>
    refine parseScalar_number hn (by decide) ?_ ?_
    · simp only [isInteger, List.head?_cons, or_true, if_true, List.tail_cons, hall, Bool.and_true,
        Bool.not_eq_true', List.isEmpty_eq_false_iff]
      exact hne
    · rw [List.filter_cons_of_pos (by decide), hfilter]
      simp only [number, List.head?_cons, or_true, true_and, if_true, List.tail_cons, if_neg hne,
        hvalue]
      exact congrArg some (by omega)
  next hpos =>
    rw [hdigits]
    refine parseScalar_number hn hhead ?_ ?_
    · rw [← hdigits]
      simp only [isInteger, if_neg hunsigned, hall, Bool.and_true, Bool.not_eq_true',
        List.isEmpty_eq_false_iff]
      exact hne
    · rw [← hdigits, hfilter]
      simp only [number, hunsigned, if_false, false_and, hvalue]
      rw [if_neg (fun h => hunsigned (.inr h))]
      exact congrArg some (by omega)

theorem boolean_round_trip (b : Bool) : parseScalar (formatValue (.boolean b)) = .ok (.boolean b) := by
  cases b <;> rfl

theorem string_round_trip (s : JsStr) : parseScalar (formatValue (.string s)) = .ok (.string s) := by
  have hread := parseTomlString_escape s []
  show parseScalar (quote :: (escapeTomlString s ++ [quote])) = _
  rw [parseScalar, List.head?_cons, if_pos rfl, hread]
  rfl

/-! ### Values -/

/-- What the parser makes of the text of a value. -/
def readBack : TomlValue → Except JsStr TomlValue
  | .array es => (parseStringArray (formatValue (.array es))).map .array
  | v => parseScalar (formatValue v)

/-- The strings before the last do not end with a backslash. -/
def Separated : TomlValue → Prop
  | .array es => ∀ e ∈ es.dropLast, e.getLast? ≠ some backslash
  | _ => True

instance (v : TomlValue) : Decidable (Separated v) := by
  cases v <;> unfold Separated <;> infer_instance

/-- No string of an array has a closing bracket. -/
def Unbracketed : TomlValue → Prop
  | .array es => ∀ e ∈ es, unit ']' ∉ e
  | _ => True

instance (v : TomlValue) : Decidable (Unbracketed v) := by
  cases v <;> unfold Unbracketed <;> infer_instance

theorem intercalate_newline (e : JsStr) (es : List JsStr) (f : JsStr → JsStr) :
    [newline].intercalate ((e :: es).map f) = f e ++ es.flatMap fun e => newline :: f e := by
  induction es generalizing e with
  | nil => simp
  | cons e' es ih =>
    rw [List.map_cons, List.map_cons, List.intercalate_cons_cons, ← List.map_cons, ih]
    simp

theorem formatValue_array (e : JsStr) (es : List JsStr) :
    formatValue (.array (e :: es)) = unit '[' :: (elementsText (e :: es) ++ [unit ']']) := by
  rw [formatValue, intercalate_newline, elementsText, List.flatMap_cons]
  · simp only [List.append_assoc]
    rfl
  · exact fun h => by cases h

theorem parseStringArray_brackets (t : JsStr) :
    parseStringArray (unit '[' :: (t ++ [unit ']'])) = parseElements t := by
  have hlast : lastIndexOf (unit '[' :: (t ++ [unit ']'])) (unit ']') = some (t.length + 1) := by
    simp [lastIndexOf, List.idxOf?_cons]
  have hfirst : (unit '[' :: (t ++ [unit ']'])).idxOf? (unit '[') = some 0 := by
    simp [List.idxOf?_cons]
  rw [parseStringArray, hlast, hfirst]
  simp [slice]

/-- **A value is read back as it was, but for an array whose strings run together.** -/
theorem readBack_eq (v : TomlValue) : readBack v = .ok v ↔ Separated v := by
  cases v with
  | string s => simp [readBack, string_round_trip, Separated]
  | number n => simp [readBack, number_round_trip, Separated]
  | boolean b => simp [readBack, boolean_round_trip, Separated]
  | array es =>
    cases es with
    | nil =>
      have h : parseStringArray (js "[]") = .ok [] := by decide +kernel
      simp [readBack, formatValue, h, Separated, Except.map]
    | cons e es =>
      have h := parseElements_elementsText (e :: es)
      rw [readBack, formatValue_array, parseStringArray_brackets, Separated, ← h]
      cases parseElements (elementsText (e :: es)) <;> simp [Except.map]

end AgentSync.Sdk
