import AgentSync.Js
import Mathlib.Data.Nat.Digits.Defs

/-! The TOML codec of the SDK's `config.ts`.

`parseTomlDoc` goes over the lines of a text with one array open at most; `stringifyTomlDoc` puts
the tables back, the root first. The parser finds the end of an array by its first `]` and the end
of an array's element by the first quote that no backslash precedes. -/
namespace AgentSync.Sdk

open Js

/-! ### Documents -/

/-- The integers that `Number.isSafeInteger` accepts. -/
def isSafeInteger (n : Int) : Bool := n.natAbs ≤ 2 ^ 53 - 1

abbrev SafeInt := {n : Int // isSafeInteger n = true}

inductive TomlValue where
  | string (s : JsStr)
  | number (n : SafeInt)
  | boolean (b : Bool)
  | array (elements : List JsStr)
  deriving DecidableEq

abbrev TomlTable := JsMap JsStr TomlValue

/-- The tables by name; the root is the table of the empty name. -/
abbrev TomlDoc := JsMap JsStr TomlTable

/-- `ensureTable`. -/
def ensureTable (doc : TomlDoc) (name : JsStr) : TomlDoc :=
  if (doc.get? name).isSome then doc else doc.set name ∅

/-- `table.set` on the table of that name in the document. -/
def setIn (doc : TomlDoc) (table key : JsStr) (v : TomlValue) : TomlDoc :=
  doc.set table (((doc.get? table).getD ∅).set key v)

/-! ### Parser -/

/-- `stripComment` from a position on, with the unit before it. -/
def stripCommentFrom (inStr : Bool) (prev : Option UInt16) : JsStr → JsStr
  | [] => []
  | c :: rest =>
    if c = quote ∧ prev ≠ some backslash then c :: stripCommentFrom (!inStr) (some c) rest
    else if c = unit '#' ∧ inStr = false then []
    else c :: stripCommentFrom inStr (some c) rest

def stripComment (line : JsStr) : JsStr := stripCommentFrom false none line

def hasClosingBracket (s : JsStr) : Bool := s.contains (unit ']')

/-- The group of `/^\[([^\]]+)\]$/`. -/
def headerName (line : JsStr) : Option JsStr :=
  match line with
  | [] => none
  | c :: rest =>
    if c = unit '[' ∧ rest.getLast? = some (unit ']') ∧ rest.dropLast ≠ [] ∧
        unit ']' ∉ rest.dropLast then some rest.dropLast
    else none

/-- The loop of `parseTomlString`, after `skip` more units. -/
def readString (skip : Nat) : JsStr → Option JsStr
  | [] => none
  | c :: rest =>
    match skip with
    | skip + 1 => readString skip rest
    | 0 =>
      if c = quote then some []
      else if c ≠ backslash then (readString 0 rest).map (c :: ·)
      else match rest with
        | [] => none
        | e :: _ =>
          if e = unit 'n' then (readString 1 rest).map (newline :: ·)
          else if e = unit 't' then (readString 1 rest).map (unit '\t' :: ·)
          else if e = unit 'r' then (readString 1 rest).map (unit '\r' :: ·)
          else if e = quote then (readString 1 rest).map (quote :: ·)
          else if e = backslash then (readString 1 rest).map (backslash :: ·)
          else if e = unit 'u' then
            (readString 5 rest).map (fromCharCode (parseHex ((rest.drop 1).take 4)) :: ·)
          else (readString 1 rest).map (e :: ·)

def parseTomlString (s : JsStr) : Except JsStr JsStr :=
  if s.head? ≠ some quote then .error (js "config.toml: expected string, got: " ++ s)
  else match readString 0 s.tail with
    | some out => .ok out
    | none => .error (js "config.toml: unterminated string: " ++ s)

/-- `/^[+-]?[0-9_]+$/`. -/
def isInteger (s : JsStr) : Bool :=
  let digits := if s.head? = some (unit '+') ∨ s.head? = some (unit '-') then s.tail else s
  !digits.isEmpty && digits.all fun c => c = unit '_' || unit '0' ≤ c && c ≤ unit '9'

/-- `Number` of a string that `isInteger` accepts, its underscores gone; `none` is `NaN`. -/
def number (s : JsStr) : Option Int :=
  let signed := s.head? = some (unit '+') ∨ s.head? = some (unit '-')
  let digits := if signed then s.tail else s
  if signed ∧ digits = [] then none
  else
    let n : Int := Nat.ofDigitChars 10 (digits.map fun c => Char.ofNat c.toNat) 0
    some (if s.head? = some (unit '-') then -n else n)

def parseScalar (s : JsStr) : Except JsStr TomlValue :=
  if s.head? = some quote then (parseTomlString s).map .string
  else if s = js "true" then .ok (.boolean true)
  else if s = js "false" then .ok (.boolean false)
  else if isInteger s then
    match number (s.filter (· ≠ unit '_')) with
    | none => .error (js "config.toml: integer out of range: " ++ s)
    | some n =>
      if h : isSafeInteger n then .ok (.number ⟨n, h⟩)
      else .error (js "config.toml: integer out of range: " ++ s)
  else .error (js "config.toml: unsupported value: " ++ s)

/-- The walk to the matching close quote: what is walked over, and what is left. -/
def closeQuote (prev : UInt16) : JsStr → JsStr × JsStr
  | [] => ([], [])
  | c :: rest =>
    if c = quote ∧ prev ≠ backslash then ([c], rest)
    else (c :: (closeQuote c rest).1, (closeQuote c rest).2)

theorem closeQuote_length (prev : UInt16) (s : JsStr) : (closeQuote prev s).2.length ≤ s.length := by
  induction s generalizing prev with
  | nil => exact Nat.le_refl _
  | cons c rest ih =>
    rw [closeQuote]
    split
    next => exact Nat.le_succ _
    next => exact (ih c).trans (Nat.le_succ _)

/-- The loop of `parseStringArray`. -/
def parseElements : JsStr → Except JsStr (List JsStr)
  | [] => .ok []
  | c :: rest =>
    if c ≠ quote then parseElements rest
    else
      match parseTomlString (c :: (closeQuote c rest).1) with
      | .error e => .error e
      | .ok s => (parseElements (closeQuote c rest).2).map (s :: ·)
termination_by s => s.length
decreasing_by
  · exact Nat.lt_succ_self _
  · exact Nat.lt_succ_of_le (closeQuote_length c rest)

def parseStringArray (s : JsStr) : Except JsStr (List JsStr) :=
  parseElements (slice s (((s.idxOf? (unit '[')).map (· + 1)).getD 0)
    ((lastIndexOf s (unit ']')).getD (s.length - 1)))

/-- Where the loop of `parseTomlDoc` is: the lines read, the table, and the key and the text of an
array whose closing bracket is still to come. -/
structure ParseState where
  i : Nat
  doc : TomlDoc
  table : JsStr
  array : Option (JsStr × JsStr)
  deriving DecidableEq

namespace ParseState

/-- The text of an array has come this far. -/
def readArray (s : ParseState) (key rhs : JsStr) : Except JsStr ParseState :=
  if hasClosingBracket rhs then
    (parseStringArray rhs).map fun v =>
      {s with doc := setIn s.doc s.table key (.array v), array := none}
  else .ok {s with array := some (key, rhs)}

/-- A line outside of arrays. -/
def readLine (s : ParseState) (raw : JsStr) : Except JsStr ParseState :=
  let line := trim (stripComment raw)
  if line = [] then .ok s
  else match headerName line with
    | some name => .ok {s with doc := ensureTable s.doc (trim name), table := trim name}
    | none =>
      match cutAt (unit '=') line with
      | none => .error (js "config.toml: malformed line " ++ js (toString s.i) ++ js ": " ++ raw)
      | some (key, rhs) =>
        if (trim rhs).head? = some (unit '[') then s.readArray (trim key) (trim rhs)
        else (parseScalar (trim rhs)).map fun v =>
          {s with doc := setIn s.doc s.table (trim key) v}

/-- The next line. -/
def next (s : ParseState) (raw : JsStr) : Except JsStr ParseState :=
  match s.array with
  | none => {s with i := s.i + 1}.readLine raw
  | some (key, rhs) => {s with i := s.i + 1}.readArray key (rhs ++ newline :: raw)

/-- The end of the text. -/
def finish (s : ParseState) : Except JsStr TomlDoc :=
  match s.array with
  | none => .ok s.doc
  | some _ => .error (js "config.toml: unterminated array")

end ParseState

def parseTomlDoc (text : JsStr) : Except JsStr TomlDoc :=
  (text.splitOn newline).foldlM ParseState.next ⟨0, ensureTable ∅ [], [], none⟩ >>= ParseState.finish

/-! ### Serializer -/

/-- `replace(/c/g, w)`. -/
def replaceAll (c : UInt16) (w : JsStr) (s : JsStr) : JsStr :=
  s.flatMap fun x => if x = c then w else [x]

def escapeTomlString (s : JsStr) : JsStr :=
  replaceAll (unit '\t') (js "\\t") (replaceAll newline (js "\\n") (replaceAll quote (js "\\\"")
    (replaceAll backslash (js "\\\\") s)))

def formatValue : TomlValue → JsStr
  | .string s => js "\"" ++ escapeTomlString s ++ js "\""
  | .number n => js (toString n.val)
  | .boolean b => js (toString b)
  | .array [] => js "[]"
  | .array elements => js "[\n" ++ [newline].intercalate (elements.map fun e =>
      js "    \"" ++ escapeTomlString e ++ js "\",") ++ js "\n]"

/-- The lines of a table, one for each key. -/
def formatEntries (table : TomlTable) : List JsStr :=
  table.entries.map fun (k, v) => k ++ js " = " ++ formatValue v

def stringifyTomlDoc (doc : TomlDoc) : JsStr :=
  let root := match doc.get? [] with
    | some root => if root.entries = [] then [] else [[newline].intercalate (formatEntries root)]
    | none => []
  let blocks := root ++ (doc.entries.filter fun e => e.1 ≠ []).map fun (name, table) =>
    [newline].intercalate ((js "[" ++ name ++ js "]") :: formatEntries table)
  if blocks = [] then [] else (js "\n\n").intercalate blocks ++ [newline]

end AgentSync.Sdk
