import Mathlib.Data.Bool.AllAny
import AgentSync.Bits
import AgentSync.Js
import AgentSync.Utf16
import AgentSync.Net.Identity

/-! The identity file, as the SDK reads and writes it.

The SDK has its own base64. Its decoder shifts every digit into one word of 32 bits and never takes
out what it has emitted, so the word overflows after a few digits; what has not been emitted yet
stays in the lowest bits all the same. The lines it writes are those of the hub and the command
line, and it reads theirs (`identity_file_codec`). -/
namespace AgentSync.Sdk.IdentityFile

open Js
open Utf16 (utf16 utf16Char codePoints)
open Net (Seed identityTag identityBody loadIdentity Holds)

/-! ### Base64 -/

/-- `B64`. -/
def b64 : JsStr := js "ABCDEFGHIJKLMNOP" ++ js "QRSTUVWXYZabcdef" ++
  js "ghijklmnopqrstuv" ++ js "wxyz0123456789+/"

/-- `B64.charAt`. -/
def charAt (i : Nat) : JsStr := b64[i]?.toList

/-- A byte as an operand of the bitwise operators. -/
def word (b : UInt8) : BitVec 32 := BitVec.ofNat 32 b.toNat

/-- `(n >> k) & 63`. -/
def sixBits (n : BitVec 32) (k : Nat) : Nat := (n.sshiftRight k &&& 63#32).toNat

/-- A turn of `b64encodeNoPad`, with `chunk` bytes to go. -/
def encodeTurn (b0 b1 b2 : UInt8) (chunk : Nat) : JsStr :=
  let n := word b0 <<< 16 ||| word b1 <<< 8 ||| word b2
  charAt (sixBits n 18) ++ charAt (sixBits n 12) ++
    (if 1 < chunk then charAt (sixBits n 6) else []) ++
    if 2 < chunk then charAt (sixBits n 0) else []

def b64encodeNoPad : Bytes → JsStr
  | [] => []
  | [b0] => encodeTurn b0 0 0 1
  | [b0, b1] => encodeTurn b0 b1 0 2
  | b0 :: b1 :: b2 :: rest => encodeTurn b0 b1 b2 (rest.length + 3) ++ b64encodeNoPad rest

/-- `B64.indexOf`, of a string; `none` is -1. -/
def indexOf (ch : JsStr) : Option Nat :=
  (List.range (b64.length + 1)).find? fun i => ch.isPrefixOf (b64.drop i)

def hexDigit (n : Nat) : UInt16 := (js "0123456789abcdef").getD n 0

/-- `JSON.stringify`, of a string of one character. -/
def jsonStringify : JsStr → JsStr
  | [u] =>
    let text :=
      if u = 0x08 then js "\\b" else if u = 0x09 then js "\\t" else if u = 0x0A then js "\\n"
      else if u = 0x0C then js "\\f" else if u = 0x0D then js "\\r"
      else if u = quote then js "\\\"" else if u = backslash then js "\\\\"
      else if u < 0x20 || Utf16.isHigh u || Utf16.isLow u then
        js "\\u" ++ [hexDigit (u.toNat / 0x1000), hexDigit (u.toNat / 0x100 % 0x10),
          hexDigit (u.toNat / 0x10 % 0x10), hexDigit (u.toNat % 0x10)]
      else [u]
    quote :: text ++ [quote]
  | ch => quote :: ch ++ [quote]

/-- The variables of `b64decode`. -/
structure Decoding where
  acc : BitVec 32
  bits : Nat
  out : Bytes

/-- A digit is shifted in, and a byte pushed when there is one. -/
def Decoding.push (s : Decoding) (v : Nat) : Decoding :=
  let acc := s.acc <<< 6 ||| BitVec.ofNat 32 v
  let bits := s.bits + 6
  if 8 ≤ bits then
    ⟨acc, bits - 8, s.out ++ [UInt8.ofNat (acc.sshiftRight (bits - 8) &&& 0xff#32).toNat]⟩
  else ⟨acc, bits, s.out⟩

/-- The loop of `b64decode`, over the characters. -/
def decodeFrom (s : Decoding) : List JsStr → Except JsStr Bytes
  | [] => .ok s.out
  | ch :: rest =>
    match indexOf ch with
    | none => .error (js "invalid base64 character: " ++ jsonStringify ch)
    | some v => decodeFrom (s.push v) rest

def b64decode (s : JsStr) : Except JsStr Bytes :=
  decodeFrom ⟨0, 0, []⟩ (codePoints (s.rdropWhile (· = unit '=')))

/-! ### The file -/

/-- `PREFIX`. -/
def tagPrefix : JsStr := js "agentsync-identity-" ++ js "v1 "

def seedLen : Nat := 32

def decimal (n : Nat) : JsStr := (toString n).toList.map unit

def wrongLength (n : Nat) : JsStr :=
  js "identity seed wrong length: got " ++ decimal n ++ js ", want " ++ decimal seedLen

def formatAgentsyncIdentity (seed : Bytes) : Except JsStr JsStr :=
  if seed.length ≠ seedLen then .error (wrongLength seed.length)
  else .ok (tagPrefix ++ b64encodeNoPad seed ++ [newline])

def parseAgentsyncIdentity (text : JsStr) : Except JsStr Bytes :=
  -- `split('\n')[0]`.
  let line := text.takeWhile (· ≠ newline)
  if ¬ tagPrefix.isPrefixOf line then
    .error (js "identity file is not in agentsync-identity-" ++ js "v1 format")
  else do
    let seed ← b64decode (trim (line.drop tagPrefix.length))
    if seed.length ≠ seedLen then .error (wrongLength seed.length) else return seed

/-! ### What is encoded -/

theorem b64_eq : b64 = Base64.alphabet.map unit := rfl

theorem charAt_symbol : ∀ i < 64, charAt i = [unit (Base64.symbol i)] := by
  intro i hi
  rw [← Base64.length_alphabet] at hi
  rw [charAt, b64_eq, List.getElem?_map, List.getElem?_eq_getElem hi, Base64.symbol_eq hi]
  rfl

theorem indexOf_symbol : ∀ i < 64, indexOf [unit (Base64.symbol i)] = some i := by decide

theorem toNat_word (b : UInt8) : (word b).toNat = b.toNat := by
  have hb := b.toNat_lt
  rw [word, BitVec.toNat_ofNat, Nat.mod_eq_of_lt (by omega)]

/-- The three bytes in one word. -/
theorem toNat_bytes (b0 b1 b2 : UInt8) :
    (word b0 <<< 16 ||| word b1 <<< 8 ||| word b2).toNat =
      b0.toNat * 2 ^ 16 + b1.toNat * 2 ^ 8 + b2.toNat := by
  have h0 := b0.toNat_lt
  have h1 := b1.toNat_lt
  have h2 := b2.toNat_lt
  have hhigh : (word b0 <<< 16).toNat = b0.toNat * 2 ^ 16 := by
    rw [BitVec.toNat_shiftLeft, toNat_word, Nat.shiftLeft_eq, Nat.mod_eq_of_lt (by omega)]
  have hmid : (word b1 <<< 8).toNat = b1.toNat * 2 ^ 8 := by
    rw [BitVec.toNat_shiftLeft, toNat_word, Nat.shiftLeft_eq, Nat.mod_eq_of_lt (by omega)]
  have htwo : (word b0 <<< 16 ||| word b1 <<< 8).toNat = b0.toNat * 2 ^ 16 + b1.toNat * 2 ^ 8 := by
    rw [Bits.toNat_or_of_lt hhigh (by omega), hhigh, hmid]
  have hshift : (word b0 <<< 16 ||| word b1 <<< 8).toNat = (b0.toNat * 2 ^ 8 + b1.toNat) * 2 ^ 8 := by
    rw [htwo]
    omega
  rw [Bits.toNat_or_of_lt hshift (by rw [toNat_word]; omega), htwo, toNat_word]

theorem sixBits_eq {n : BitVec 32} {k : Nat} (hk : k ≤ 18) :
    sixBits n k = n.toNat / 2 ^ k % 64 :=
  Bits.toNat_sshiftRight_and n (m := 6) (by omega)

/-- The four digits of three bytes. -/
theorem sixBits_bytes (b0 b1 b2 : UInt8) :
    let n := word b0 <<< 16 ||| word b1 <<< 8 ||| word b2
    sixBits n 18 = b0.toNat / 4 ∧ sixBits n 12 = b0.toNat % 4 * 16 + b1.toNat / 16 ∧
      sixBits n 6 = b1.toNat % 16 * 4 + b2.toNat / 64 ∧ sixBits n 0 = b2.toNat % 64 := by
  have h0 := b0.toNat_lt
  have h1 := b1.toNat_lt
  have h2 := b2.toNat_lt
  dsimp only
  rw [sixBits_eq (by decide), sixBits_eq (by decide), sixBits_eq (by decide),
    sixBits_eq (by decide), toNat_bytes]
  omega

/-- The symbols of three bytes, two of them in any case. -/
theorem encodeTurn_eq (b0 b1 b2 : UInt8) (chunk : Nat) :
    encodeTurn b0 b1 b2 chunk =
      ([Base64.symbol (b0.toNat / 4), Base64.symbol (b0.toNat % 4 * 16 + b1.toNat / 16)] ++
        (if 1 < chunk then [Base64.symbol (b1.toNat % 16 * 4 + b2.toNat / 64)] else []) ++
        if 2 < chunk then [Base64.symbol (b2.toNat % 64)] else []).map unit := by
  have h0 := b0.toNat_lt
  have h1 := b1.toNat_lt
  have h2 := b2.toNat_lt
  obtain ⟨hfirst, hsecond, hthird, hfourth⟩ := sixBits_bytes b0 b1 b2
  rw [encodeTurn, hfirst, hsecond, hthird, hfourth, charAt_symbol _ (by omega),
    charAt_symbol _ (by omega), charAt_symbol _ (by omega), charAt_symbol _ (by omega)]
  split <;> split <;> rfl

/-- **The SDK encodes as the core does.** -/
theorem b64encodeNoPad_eq (b : Bytes) :
    b64encodeNoPad b = (Base64.encodeNoPad b).map unit := by
  fun_induction b64encodeNoPad b with
  | case1 => rfl
  | case2 b0 =>
    rw [encodeTurn_eq, Base64.encodeNoPad_one]
    simp
  | case3 b0 b1 =>
    rw [encodeTurn_eq, Base64.encodeNoPad_two]
    simp
  | case4 b0 b1 b2 rest ih =>
    rw [encodeTurn_eq, Base64.encodeNoPad_three, ih, if_pos (by omega), if_pos (by omega)]
    simp

/-! ### What is decoded -/

/-- The loop between two digits: `left` bits are left, the lowest ones of the accumulator. -/
structure Decoding.Pending (s : Decoding) (left low : Nat) (out : Bytes) : Prop where
  bits_eq : s.bits = left
  low_eq : Bits.low s.acc left = low
  out_eq : s.out = out

section
variable {s : Decoding} {left low v : Nat} {out : Bytes}

/-- With less than eight bits nothing is pushed. -/
theorem Decoding.Pending.push_few (h : s.Pending left low out) (hleft : left < 2) (hv : v < 64) :
    (s.push v).Pending (left + 6) (low * 64 + v) out := by
  have hacc := Bits.low_shiftLeft_or s.acc (k := 6) (m := left) (by omega) hv
  rw [h.low_eq] at hacc
  rw [Decoding.push, h.bits_eq, if_neg (by omega)]
  exact ⟨rfl, hacc, h.out_eq⟩

/-- The byte that is pushed is the oldest of what is left, whatever is above it in the word. -/
theorem Decoding.Pending.push_byte (h : s.Pending (left + 2) low out) (hleft : left ≤ 4)
    (hv : v < 64) :
    (s.push v).Pending left ((low * 64 + v) % 2 ^ left)
      (out ++ [UInt8.ofNat ((low * 64 + v) / 2 ^ left)]) := by
  have hacc := Bits.low_shiftLeft_or s.acc (k := 6) (m := left + 2) (by omega) hv
  rw [h.low_eq] at hacc
  have hbyte := Bits.sshiftRight_and_eq_low (s.acc <<< 6 ||| BitVec.ofNat 32 v) (k := left) (m := 8)
    (by omega)
  rw [show left + 8 = left + 2 + 6 from rfl, hacc] at hbyte
  have hbits : left + 2 + 6 - 8 = left := Nat.add_sub_cancel left 8
  rw [Decoding.push, h.bits_eq, if_pos (by omega), hbits]
  refine ⟨rfl, ?_, ?_⟩
  · exact (Bits.low_mod _ (show left ≤ left + 2 + 6 by omega)).symm.trans (congrArg (· % 2 ^ left) hacc)
  · rw [h.out_eq]
    exact congrArg (fun b => out ++ [UInt8.ofNat b]) hbyte

section Group
variable {m n o p : Nat} (h : s.Pending 0 0 out) (hm : m < 64) (hn : n < 64) (ho : o < 64)
  (hp : p < 64)
include h hm hn

theorem Decoding.Pending.push_two :
    ((s.push m).push n).Pending 4 (n % 16) (out ++ [UInt8.ofNat (m * 4 + n / 16)]) := by
  have h2 := (h.push_few (by decide) hm).push_byte (by decide) hn
  have hlow : ((0 * 64 + m) * 64 + n) % 2 ^ 4 = n % 16 := by omega
  have hbyte : ((0 * 64 + m) * 64 + n) / 2 ^ 4 = m * 4 + n / 16 := by omega
  rwa [hlow, hbyte] at h2

include ho

theorem Decoding.Pending.push_three :
    (((s.push m).push n).push o).Pending 2 (o % 4)
      (out ++ [UInt8.ofNat (m * 4 + n / 16), UInt8.ofNat (n % 16 * 16 + o / 4)]) := by
  have h3 := (h.push_two hm hn).push_byte (by decide) ho
  have hlow : (n % 16 * 64 + o) % 2 ^ 2 = o % 4 := by omega
  have hbyte : (n % 16 * 64 + o) / 2 ^ 2 = n % 16 * 16 + o / 4 := by omega
  rwa [hlow, hbyte, List.append_assoc] at h3

include hp

/-- Four digits are three bytes, and nothing is left. -/
theorem Decoding.Pending.push_four :
    ((((s.push m).push n).push o).push p).Pending 0 0
      (out ++ [UInt8.ofNat (m * 4 + n / 16), UInt8.ofNat (n % 16 * 16 + o / 4),
        UInt8.ofNat (o % 4 * 64 + p)]) := by
  have h4 := (h.push_three hm hn ho).push_byte (by decide) hp
  have hlow : (o % 4 * 64 + p) % 2 ^ 0 = 0 := Nat.mod_one _
  have hbyte : (o % 4 * 64 + p) / 2 ^ 0 = o % 4 * 64 + p := Nat.div_one _
  rwa [hlow, hbyte, List.append_assoc] at h4

end Group

theorem decodeFrom_symbol (hv : v < 64) (rest : Str) :
    decodeFrom s ((Base64.symbol v :: rest).map fun c => [unit c]) =
      decodeFrom (s.push v) (rest.map fun c => [unit c]) := by
  rw [List.map_cons, decodeFrom, indexOf_symbol v hv]

/-- The loop gives the bytes back, from any accumulator that has nothing left in it. -/
theorem decodeFrom_encodeNoPad (h : s.Pending 0 0 out) (b : Bytes) :
    decodeFrom s ((Base64.encodeNoPad b).map fun c => [unit c]) = .ok (out ++ b) := by
  fun_induction Base64.encode b generalizing s out with
  | case1 =>
    rw [List.append_nil, ← h.out_eq]
    rfl
  | case2 a =>
    have ha := a.toNat_lt
    have hout := (h.push_two (m := a.toNat / 4) (n := a.toNat % 4 * 16) (by omega) (by omega)).out_eq
    rw [@Base64.ofNat_eq _ a (by omega)] at hout
    rw [Base64.encodeNoPad_one, decodeFrom_symbol (by omega), decodeFrom_symbol (by omega),
      List.map_nil, decodeFrom, hout]
  | case3 a b =>
    have ha := a.toNat_lt
    have hb := b.toNat_lt
    have hout := (h.push_three (m := a.toNat / 4) (n := a.toNat % 4 * 16 + b.toNat / 16)
      (o := b.toNat % 16 * 4) (by omega) (by omega) (by omega)).out_eq
    rw [@Base64.ofNat_eq _ a (by omega), @Base64.ofNat_eq _ b (by omega)] at hout
    rw [Base64.encodeNoPad_two, decodeFrom_symbol (by omega), decodeFrom_symbol (by omega),
      decodeFrom_symbol (by omega), List.map_nil, decodeFrom, hout]
  | case4 a b c rest ih =>
    have ha := a.toNat_lt
    have hb := b.toNat_lt
    have hc := c.toNat_lt
    have hnext := h.push_four (m := a.toNat / 4) (n := a.toNat % 4 * 16 + b.toNat / 16)
      (o := b.toNat % 16 * 4 + c.toNat / 64) (p := c.toNat % 64) (by omega) (by omega) (by omega)
      (by omega)
    rw [@Base64.ofNat_eq _ a (by omega), @Base64.ofNat_eq _ b (by omega),
      @Base64.ofNat_eq _ c (by omega)] at hnext
    rw [Base64.encodeNoPad_three, decodeFrom_symbol (by omega), decodeFrom_symbol (by omega),
      decodeFrom_symbol (by omega), decodeFrom_symbol (by omega), ih hnext, List.append_assoc]
    rfl

end

/-- A character that is no symbol stops the loop. -/
theorem decodeFrom_ne_ok {s : Decoding} {chs : List JsStr} {ch : JsStr} (hmem : ch ∈ chs)
    (hch : indexOf ch = none) (b : Bytes) : decodeFrom s chs ≠ .ok b := by
  induction chs generalizing s with
  | nil => cases hmem
  | cons c rest ih =>
    rw [decodeFrom]
    split
    next => exact fun h => by cases h
    next v hv =>
      obtain rfl | hmem := List.mem_cons.mp hmem
      · rw [hch] at hv
        cases hv
      · exact ih hmem

theorem symbol_ascii : ∀ c ∈ Base64.alphabet, c.toNat < 128 :=
  List.all_iff_forall_prop.mp (by decide)

theorem utf16_of_ascii {s : Str} (h : ∀ c ∈ s, c.toNat < 128) : utf16 s = s.map unit := by
  induction s with
  | nil => rfl
  | cons c s ih =>
    have hc : c.toNat < 0x10000 := (h c List.mem_cons_self).trans (by decide)
    rw [Utf16.utf16_cons, utf16Char, if_pos hc, ih fun d hd => h d (List.mem_cons_of_mem _ hd)]
    rfl

theorem utf16_encodeNoPad (b : Bytes) :
    utf16 (Base64.encodeNoPad b) = (Base64.encodeNoPad b).map unit :=
  utf16_of_ascii fun c hc => symbol_ascii c (Base64.mem_encodeNoPad hc)

theorem unit_symbol : ∀ c ∈ Base64.alphabet, unit c ≠ unit '=' ∧ isSpace (unit c) = false :=
  List.all_iff_forall_prop.mp (by decide)

/-- The units of base64 would not be trimmed, neither as space nor as padding. -/
theorem mem_utf16_encodeNoPad {b : Bytes} {u : UInt16} (h : u ∈ utf16 (Base64.encodeNoPad b)) :
    u ≠ unit '=' ∧ isSpace u = false := by
  rw [utf16_encodeNoPad] at h
  obtain ⟨c, hc, rfl⟩ := List.mem_map.mp h
  exact unit_symbol c (Base64.mem_encodeNoPad hc)

theorem b64decode_utf16 (b : Bytes) : b64decode (utf16 (Base64.encodeNoPad b)) = .ok b := by
  have hpad : (utf16 (Base64.encodeNoPad b)).rdropWhile (· = unit '=') =
      utf16 (Base64.encodeNoPad b) :=
    Trimming.rdropWhile_of_getLast? fun u hu => by
      simpa using (mem_utf16_encodeNoPad (List.mem_of_getLast? hu)).1
  have hchars : (Base64.encodeNoPad b).map utf16Char =
      (Base64.encodeNoPad b).map fun c => [unit c] :=
    List.map_congr_left fun c hc =>
      if_pos ((symbol_ascii c (Base64.mem_encodeNoPad hc)).trans (by decide))
  rw [b64decode, hpad, Utf16.codePoints_utf16, hchars, decodeFrom_encodeNoPad ⟨rfl, rfl, rfl⟩,
    List.nil_append]

/-- **Bytes survive the base64 of the SDK**, of any number. -/
theorem b64decode_b64encodeNoPad (b : Bytes) : b64decode (b64encodeNoPad b) = .ok b := by
  rw [b64encodeNoPad_eq, ← utf16_encodeNoPad, b64decode_utf16]

/-! ### Files of the core -/

theorem tagPrefix_eq : tagPrefix = utf16 identityTag := by decide

/-- The SDK writes the text that the core writes. -/
theorem formatAgentsyncIdentity_eq (seed : Seed) :
    formatAgentsyncIdentity seed.val = .ok (utf16 (identityBody seed)) := by
  have hnewline : utf16 ['\n'] = [newline] := by decide
  have hlen : seed.val.length = seedLen := seed.property
  rw [formatAgentsyncIdentity, if_neg (not_not_intro hlen), b64encodeNoPad_eq,
    ← utf16_encodeNoPad, identityBody, Utf16.utf16_append, Utf16.utf16_append, ← tagPrefix_eq,
    hnewline]

/-- The first line of a text is the first line of its units. -/
theorem takeWhile_utf16 {x rest : Str} (hx : '\n' ∉ x) (hrest : rest = [] ∨ rest.head? = some '\n') :
    (utf16 (x ++ rest)).takeWhile (· ≠ newline) = utf16 x := by
  rw [Utf16.utf16_append]
  refine Trimming.takeWhile_append_of_head? (fun h => ?_) ?_
  · obtain ⟨c, hc, hnat⟩ := Utf16.exists_of_mem_utf16 (by decide) h
    obtain rfl : c = '\n' := Char.toNat_inj.mp hnat
    exact hx hc
  · obtain rfl | hhead := hrest
    · exact .inl rfl
    · cases rest with
      | nil => cases hhead
      | cons c rest =>
        obtain rfl := Option.some.inj hhead
        exact .inr rfl

/-- What `char::is_whitespace` takes for space. -/
def spaces : List Nat := [9, 10, 11, 12, 13, 0x20, 0x85, 0xa0, 0x1680, 0x2000, 0x2001, 0x2002, 0x2003,
  0x2004, 0x2005, 0x2006, 0x2007, 0x2008, 0x2009, 0x200a, 0x2028, 0x2029, 0x202f, 0x205f, 0x3000]

theorem mem_spaces {c : Char} (h : Net.isWhitespace c = true) : c.toNat ∈ spaces := by
  simp only [Net.isWhitespace, Bool.or_eq_true, Bool.and_eq_true, decide_eq_true_eq,
    List.contains_eq_mem, List.mem_cons, List.not_mem_nil, or_false] at h
  simp only [spaces, List.mem_cons, List.not_mem_nil, or_false]
  omega

theorem isSpace_of_mem_spaces : ∀ n ∈ spaces, n ≠ 0x85 → n < 0x10000 ∧ isSpace (UInt16.ofNat n) := by
  decide

/-- Both sides trim the same space but for the next-line character. -/
theorem isSpace_of_isWhitespace {s : Str} (h : ∀ c ∈ s, Net.isWhitespace c = true)
    (hnel : '\u0085' ∉ s) : ∀ u ∈ utf16 s, isSpace u = true := by
  intro u hu
  obtain ⟨c, hc, hu⟩ := List.mem_flatMap.mp hu
  have hne : c.toNat ≠ 0x85 := fun hnat => by
    obtain rfl : c = '\u0085' := Char.toNat_inj.mp hnat
    exact hnel hc
  obtain ⟨hlt, hspace⟩ := isSpace_of_mem_spaces _ (mem_spaces (h c hc)) hne
  rw [utf16Char, if_pos hlt, List.mem_singleton] at hu
  rwa [hu]

/-- Without that character what is left between the space is the base64. -/
theorem trim_utf16 {front back : Str} {seed : Seed}
    (hfront : ∀ c ∈ front, Net.isWhitespace c = true)
    (hback : ∀ c ∈ back, Net.isWhitespace c = true)
    (hnel : '\u0085' ∉ front ++ Base64.encodeNoPad seed.val ++ back) :
    trim (utf16 (front ++ Base64.encodeNoPad seed.val ++ back)) =
      utf16 (Base64.encodeNoPad seed.val) := by
  have hfrontUnits := isSpace_of_isWhitespace hfront fun hc =>
    hnel (List.mem_append_left _ (List.mem_append_left _ hc))
  have hbackUnits := isSpace_of_isWhitespace hback fun hc => hnel (List.mem_append_right _ hc)
  have hbare : Trimming.Bare isSpace (utf16 (Base64.encodeNoPad seed.val)) :=
    ⟨fun u hu => (mem_utf16_encodeNoPad (List.mem_of_head? hu)).2,
      fun u hu => (mem_utf16_encodeNoPad (List.mem_of_getLast? hu)).2⟩
  have hne : utf16 (Base64.encodeNoPad seed.val) ≠ [] := by
    rw [utf16_encodeNoPad]
    simpa using Net.encode_seed_ne_nil seed
  rw [Utf16.utf16_append, Utf16.utf16_append]
  exact Trimming.trim_append hbare hne hfrontUnits hbackUnits

theorem parse_of_line {text rest : JsStr}
    (h : text.takeWhile (· ≠ newline) = tagPrefix ++ rest) :
    parseAgentsyncIdentity text = b64decode (trim rest) >>= fun seed =>
      if seed.length ≠ seedLen then .error (wrongLength seed.length) else return seed := by
  have hprefix : tagPrefix.isPrefixOf (tagPrefix ++ rest) = true :=
    List.isPrefixOf_iff_prefix.mpr (List.prefix_append _ _)
  simp only [parseAgentsyncIdentity, h, hprefix, not_true_eq_false, if_false, List.drop_left]

/-- **The SDK reads a file of the core**, unless its line has a next-line character. -/
theorem parse_iff_of_holds {s : Str} {seed : Seed} (h : Holds s seed) :
    parseAgentsyncIdentity (utf16 s) = .ok seed.val ↔ '\u0085' ∉ s.takeWhile (· ≠ '\n') := by
  obtain ⟨front, back, rest, rfl, hfront, hback, hnfront, hnback, hrest⟩ := h
  have hsymbols (c : Char) (hc : c ∈ Base64.encodeNoPad seed.val) :=
    Net.symbol_graphic c (Base64.mem_encodeNoPad hc)
  have hnewline : '\n' ∉ identityTag ++ (front ++ Base64.encodeNoPad seed.val ++ back) := by
    have htag : '\n' ∉ identityTag := by decide
    have henc : '\n' ∉ Base64.encodeNoPad seed.val := fun hc => absurd (hsymbols _ hc) (by decide)
    simp [htag, hnfront, henc, hnback]
  have hline := takeWhile_utf16 hnewline hrest
  rw [Utf16.utf16_append identityTag, ← tagPrefix_eq] at hline
  rw [parse_of_line hline, Trimming.takeWhile_append_of_head? hnewline hrest]
  constructor
  · intro h hnel
    obtain ⟨b, hb, -⟩ := bind_eq_ok.mp h
    have hmem : '\u0085' ∈ front ++ Base64.encodeNoPad seed.val ++ back := by
      refine (List.mem_append.mp hnel).resolve_left (by decide)
    have hunit : (0x85 : UInt16) ∈ utf16 (front ++ Base64.encodeNoPad seed.val ++ back) :=
      List.mem_flatMap.mpr ⟨_, hmem, by decide⟩
    have hleft := Trimming.mem_rdropWhile (p := (· = unit '='))
      (Trimming.mem_trim (p := isSpace) hunit (by decide)) (by decide)
    exact decodeFrom_ne_ok (Utf16.mem_codePoints (by decide) hleft) (by decide) b hb
  · intro hnel
    have hmem : '\u0085' ∉ front ++ Base64.encodeNoPad seed.val ++ back := fun hc =>
      hnel (List.mem_append_right _ hc)
    have hlen : seed.val.length = seedLen := seed.property
    rw [trim_utf16 hfront hback hmem, b64decode_utf16]
    exact if_neg (not_not_intro hlen)

/-- The form a file is saved in: one line, with no space in it but the one behind the tag. -/
def Canonical (s : Str) : Prop :=
  ∃ t, s = identityTag ++ t ++ ['\n'] ∧ ∀ c ∈ t, Net.isWhitespace c = false

theorem Canonical.notMem {s : Str} (h : Canonical s) : '\u0085' ∉ s.takeWhile (· ≠ '\n') := by
  obtain ⟨t, rfl, ht⟩ := h
  intro hc
  have hmem := List.takeWhile_subset _ hc
  rw [List.mem_append, List.mem_append] at hmem
  obtain (hmem | hmem) | hmem := hmem
  · exact absurd hmem (by decide)
  · exact absurd (ht _ hmem) (by decide)
  · exact absurd hmem (by decide)

theorem canonical_identityBody (seed : Seed) : Canonical (identityBody seed) :=
  ⟨_, rfl, fun c hc => Net.symbol_graphic c (Base64.mem_encodeNoPad hc)⟩

/-- **One identity file.** Bytes survive the base64 of the SDK; what it writes for a seed is, byte
for byte, the file of `save_to_file`, and it reads that seed from it. Of all files that
`load_from_file` takes it reads the canonical ones to the same seed, and so it does any other whose
line has no next-line character, which only the core takes for space. -/
theorem identity_file_codec (path : Str) (decodeError : Str → Str) :
    (∀ b, b64decode (b64encodeNoPad b) = .ok b) ∧
    (∀ seed : Seed, ∃ text, formatAgentsyncIdentity seed.val = .ok text ∧
      parseAgentsyncIdentity text = .ok seed.val ∧
      utf8 (Utf16.scalarValues text) = utf8 (identityBody seed)) ∧
    (∀ bytes seed s, loadIdentity path decodeError bytes = .ok seed → fromUtf8 bytes = some s →
      Canonical s → parseAgentsyncIdentity (utf16 s) = .ok seed.val) ∧
    ∀ bytes seed s, loadIdentity path decodeError bytes = .ok seed → fromUtf8 bytes = some s →
      (parseAgentsyncIdentity (utf16 s) = .ok seed.val ↔ '\u0085' ∉ s.takeWhile (· ≠ '\n')) := by
  have hread (bytes : Bytes) (seed : Seed) (s : Str)
      (h : loadIdentity path decodeError bytes = .ok seed) (hs : fromUtf8 bytes = some s) :
      parseAgentsyncIdentity (utf16 s) = .ok seed.val ↔ '\u0085' ∉ s.takeWhile (· ≠ '\n') := by
    obtain ⟨t, rfl, ht⟩ := Net.loadIdentity_eq_ok.mp h
    rw [fromUtf8_utf8] at hs
    obtain rfl := Option.some.inj hs
    exact parse_iff_of_holds ht
  refine ⟨b64decode_b64encodeNoPad, fun seed => ?_, ?_, hread⟩
  · refine ⟨_, formatAgentsyncIdentity_eq seed, ?_, by rw [Utf16.scalarValues_utf16]⟩
    exact (parse_iff_of_holds (Net.holds_identityBody seed)).mpr
      (canonical_identityBody seed).notMem
  · intro bytes seed s h hs hcanonical
    exact (hread bytes seed s h hs).mpr hcanonical.notMem

theorem identity_file_codec_fill :
    parseAgentsyncIdentity (utf16 (identityBody (.fill 7))) = .ok (Array32.fill 7).val ∧
    (parseAgentsyncIdentity (utf16 (identityBody (.fill 7))) = .ok (Array32.fill 7).val ↔
      '\u0085' ∉ (identityBody (.fill 7)).takeWhile (· ≠ '\n')) := by
  obtain ⟨-, -, hcanonical, hread⟩ := identity_file_codec (txt "id_ed25519") id
  have hload := @Net.loadIdentity_identityBody (txt "id_ed25519") id (.fill 7)
  exact ⟨hcanonical _ _ _ hload (fromUtf8_utf8 _) (canonical_identityBody _),
    hread _ _ _ hload (fromUtf8_utf8 _)⟩

end AgentSync.Sdk.IdentityFile
