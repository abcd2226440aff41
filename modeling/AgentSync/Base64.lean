import Mathlib.Data.List.DropRight
import AgentSync.Basic

/-! The base64 of RFC 4648 with its standard alphabet.

Three bytes are four symbols of six bits; one or two bytes left over are padded with `=`, and
the bits that then mean nothing are zero. Decoding takes nothing else. Without padding the last
symbols stand alone, and a text is what its bytes encode to or it is not decoded
(`decodeNoPad_eq_some`). -/
namespace AgentSync.Base64

def alphabet : Str := txt "ABCDEFGHIJKLMNOP" ++ txt "QRSTUVWXYZabcdef" ++
  txt "ghijklmnopqrstuv" ++ txt "wxyz0123456789+/"

def symbol (n : Nat) : Char := alphabet.getD n '='

/-- The six bits of a symbol. -/
def value (c : Char) : Option Nat := if c ∈ alphabet then some (alphabet.idxOf c) else none

def encode : Bytes → Str
  | [] => []
  | [a] => [symbol (a.toNat / 4), symbol (a.toNat % 4 * 16), '=', '=']
  | [a, b] =>
    [symbol (a.toNat / 4), symbol (a.toNat % 4 * 16 + b.toNat / 16), symbol (b.toNat % 16 * 4), '=']
  | a :: b :: c :: rest =>
    symbol (a.toNat / 4) :: symbol (a.toNat % 4 * 16 + b.toNat / 16) ::
      symbol (b.toNat % 16 * 4 + c.toNat / 64) :: symbol (c.toNat % 64) :: encode rest

def decode : Str → Option Bytes
  | [] => some []
  | s :: t :: u :: v :: rest => do
    let m ← value s
    let n ← value t
    if v ≠ '=' then
      let o ← value u
      let p ← value v
      let bytes ← decode rest
      some (UInt8.ofNat (m * 4 + n / 16) :: UInt8.ofNat (n % 16 * 16 + o / 4) ::
        UInt8.ofNat (o % 4 * 64 + p) :: bytes)
    else if rest ≠ [] then none
    else if u ≠ '=' then
      let o ← value u
      if o % 4 = 0 then some [UInt8.ofNat (m * 4 + n / 16), UInt8.ofNat (n % 16 * 16 + o / 4)]
      else none
    else if n % 16 = 0 then some [UInt8.ofNat (m * 4 + n / 16)]
    else none
  | _ => none

theorem length_alphabet : alphabet.length = 64 := rfl

theorem nodup_alphabet : alphabet.Nodup := by decide

theorem symbol_eq {n : Nat} (hn : n < alphabet.length) : symbol n = alphabet[n] := by
  rw [symbol, List.getD_eq_getElem?_getD, List.getElem?_eq_getElem hn]
  rfl

theorem symbol_mem : ∀ n < 64, symbol n ∈ alphabet := by
  intro n hn
  rw [← length_alphabet] at hn
  exact symbol_eq hn ▸ List.getElem_mem hn

theorem value_symbol : ∀ n < 64, value (symbol n) = some n := by
  intro n hn
  rw [value, if_pos (symbol_mem n hn)]
  rw [← length_alphabet] at hn
  rw [symbol_eq hn, nodup_alphabet.idxOf_getElem]

theorem symbol_ne_pad : ∀ n < 64, symbol n ≠ '=' := fun n hn hpad =>
  absurd (hpad ▸ symbol_mem n hn) (by decide)

theorem ofNat_eq {n : Nat} {a : UInt8} (h : n = a.toNat) : UInt8.ofNat n = a := by
  rw [h, UInt8.ofNat_toNat]

theorem decode_encode (b : Bytes) : decode (encode b) = some b := by
  fun_induction encode b with
  | case1 => rfl
  | case2 a =>
    have ha := a.toNat_lt
    simp only [decode, value_symbol (a.toNat / 4) (by omega),
      value_symbol (a.toNat % 4 * 16) (by omega), Option.bind_eq_bind, Option.bind_some, ne_eq,
      not_true_eq_false, if_false]
    rw [if_pos (by omega), @ofNat_eq _ a (by omega)]
  | case3 a b =>
    have ha := a.toNat_lt
    have hb := b.toNat_lt
    simp only [decode, value_symbol (a.toNat / 4) (by omega),
      value_symbol (a.toNat % 4 * 16 + b.toNat / 16) (by omega),
      value_symbol (b.toNat % 16 * 4) (by omega), symbol_ne_pad (b.toNat % 16 * 4) (by omega),
      Option.bind_eq_bind, Option.bind_some, ne_eq, not_true_eq_false, not_false_eq_true, if_false,
      if_true]
    rw [if_pos (by omega), @ofNat_eq _ a (by omega), @ofNat_eq _ b (by omega)]
  | case4 a b c rest ih =>
    have ha := a.toNat_lt
    have hb := b.toNat_lt
    have hc := c.toNat_lt
    simp only [decode, value_symbol (a.toNat / 4) (by omega),
      value_symbol (a.toNat % 4 * 16 + b.toNat / 16) (by omega),
      value_symbol (b.toNat % 16 * 4 + c.toNat / 64) (by omega),
      value_symbol (c.toNat % 64) (by omega), symbol_ne_pad (c.toNat % 64) (by omega), ih,
      Option.bind_eq_bind, Option.bind_some, ne_eq, not_false_eq_true, if_true]
    rw [@ofNat_eq _ a (by omega), @ofNat_eq _ b (by omega), @ofNat_eq _ c (by omega)]

/-! ### Without padding -/

def decodeNoPad : Str → Option Bytes
  | [] => some []
  | [_] => none
  | [s, t] => do
    let m ← value s
    let n ← value t
    if n % 16 = 0 then some [UInt8.ofNat (m * 4 + n / 16)] else none
  | [s, t, u] => do
    let m ← value s
    let n ← value t
    let o ← value u
    if o % 4 = 0 then some [UInt8.ofNat (m * 4 + n / 16), UInt8.ofNat (n % 16 * 16 + o / 4)]
    else none
  | s :: t :: u :: v :: rest => do
    let m ← value s
    let n ← value t
    let o ← value u
    let p ← value v
    let bytes ← decodeNoPad rest
    some (UInt8.ofNat (m * 4 + n / 16) :: UInt8.ofNat (n % 16 * 16 + o / 4) ::
      UInt8.ofNat (o % 4 * 64 + p) :: bytes)

/-- The encoding without its padding. -/
def encodeNoPad (b : Bytes) : Str := (encode b).rdropWhile (· = '=')

theorem value_eq_some {c : Char} {n : Nat} : value c = some n ↔ n < 64 ∧ c = symbol n := by
  constructor
  · intro h
    unfold value at h
    split at h
    next hc =>
      obtain rfl := Option.some.inj h
      have hlt : alphabet.idxOf c < alphabet.length := List.idxOf_lt_length_iff.mpr hc
      refine ⟨hlt, ?_⟩
      rw [symbol_eq hlt, List.getElem_idxOf]
    next => cases h
  · intro ⟨hlt, hc⟩
    exact hc ▸ value_symbol n hlt

theorem rdropWhile_append {α : Type} (p : α → Bool) {x : α} (hx : p x = false) (xs ys : List α) :
    (xs ++ x :: ys).rdropWhile p = xs ++ x :: ys.rdropWhile p := by
  induction ys using List.reverseRecOn with
  | nil => rw [List.rdropWhile_concat_neg p xs x (by simp [hx]), List.rdropWhile_nil]
  | append_singleton ys y ih =>
    rw [← List.cons_append, ← List.append_assoc]
    by_cases hy : p y = true
    · rw [List.rdropWhile_concat_pos p _ y hy, List.rdropWhile_concat_pos p ys y hy, ih]
    · rw [List.rdropWhile_concat_neg p _ y hy, List.rdropWhile_concat_neg p ys y hy]
      simp

theorem encodeNoPad_one (a : UInt8) :
    encodeNoPad [a] = [symbol (a.toNat / 4), symbol (a.toNat % 4 * 16)] := by
  have ha := a.toNat_lt
  exact rdropWhile_append (· = '=') (by simpa using symbol_ne_pad (a.toNat % 4 * 16) (by omega))
    [symbol (a.toNat / 4)] ['=', '=']

theorem encodeNoPad_two (a b : UInt8) :
    encodeNoPad [a, b] = [symbol (a.toNat / 4), symbol (a.toNat % 4 * 16 + b.toNat / 16),
      symbol (b.toNat % 16 * 4)] := by
  exact rdropWhile_append (· = '=') (by simpa using symbol_ne_pad (b.toNat % 16 * 4) (by omega))
    [symbol (a.toNat / 4), symbol (a.toNat % 4 * 16 + b.toNat / 16)] ['=']

theorem encodeNoPad_three (a b c : UInt8) (rest : Bytes) :
    encodeNoPad (a :: b :: c :: rest) =
      symbol (a.toNat / 4) :: symbol (a.toNat % 4 * 16 + b.toNat / 16) ::
        symbol (b.toNat % 16 * 4 + c.toNat / 64) :: symbol (c.toNat % 64) :: encodeNoPad rest :=
  rdropWhile_append (· = '=') (by simpa using symbol_ne_pad (c.toNat % 64) (by omega))
    [symbol (a.toNat / 4), symbol (a.toNat % 4 * 16 + b.toNat / 16),
      symbol (b.toNat % 16 * 4 + c.toNat / 64)] (encode rest)

theorem length_encodeNoPad (b : Bytes) : (encodeNoPad b).length = (4 * b.length + 2) / 3 := by
  fun_induction encode b with
  | case1 => rfl
  | case2 a => simp only [encodeNoPad_one, List.length_cons, List.length_nil]
  | case3 a b => simp only [encodeNoPad_two, List.length_cons, List.length_nil]
  | case4 a b c rest ih =>
    rw [encodeNoPad_three]
    simp only [List.length_cons, ih]
    omega

/-- Without padding there are only symbols. -/
theorem mem_encodeNoPad {b : Bytes} {x : Char} (hx : x ∈ encodeNoPad b) : x ∈ alphabet := by
  fun_induction encode b with
  | case1 => cases hx
  | case2 a =>
    have ha := a.toNat_lt
    rw [encodeNoPad_one] at hx
    simp only [List.mem_cons, List.not_mem_nil, or_false] at hx
    obtain rfl | rfl := hx <;> exact symbol_mem _ (by omega)
  | case3 a b =>
    have ha := a.toNat_lt
    have hb := b.toNat_lt
    rw [encodeNoPad_two] at hx
    simp only [List.mem_cons, List.not_mem_nil, or_false] at hx
    obtain rfl | rfl | rfl := hx <;> exact symbol_mem _ (by omega)
  | case4 a b c rest ih =>
    have ha := a.toNat_lt
    have hb := b.toNat_lt
    have hc := c.toNat_lt
    rw [encodeNoPad_three] at hx
    simp only [List.mem_cons] at hx
    obtain rfl | rfl | rfl | rfl | hx := hx
    · exact symbol_mem _ (by omega)
    · exact symbol_mem _ (by omega)
    · exact symbol_mem _ (by omega)
    · exact symbol_mem _ (by omega)
    · exact ih hx

/-- Only symbols and padding are written. -/
theorem mem_encode {b : Bytes} {c : Char} (hc : c ∈ encode b) : c ∈ alphabet ∨ c = '=' := by
  rw [← List.rdropWhile_append_rtakeWhile (p := (· = '=')) (l := encode b)] at hc
  obtain hfront | hpad := List.mem_append.mp hc
  · exact .inl (mem_encodeNoPad hfront)
  · have hc := List.mem_rtakeWhile_imp hpad
    exact .inr (of_decide_eq_true hc)

theorem decodeNoPad_encodeNoPad (b : Bytes) : decodeNoPad (encodeNoPad b) = some b := by
  fun_induction encode b with
  | case1 => rfl
  | case2 a =>
    have ha := a.toNat_lt
    simp only [encodeNoPad_one, decodeNoPad, value_symbol (a.toNat / 4) (by omega),
      value_symbol (a.toNat % 4 * 16) (by omega), Option.bind_eq_bind, Option.bind_some]
    rw [if_pos (by omega), @ofNat_eq _ a (by omega)]
  | case3 a b =>
    have ha := a.toNat_lt
    have hb := b.toNat_lt
    simp only [encodeNoPad_two, decodeNoPad, value_symbol (a.toNat / 4) (by omega),
      value_symbol (a.toNat % 4 * 16 + b.toNat / 16) (by omega),
      value_symbol (b.toNat % 16 * 4) (by omega), Option.bind_eq_bind, Option.bind_some]
    rw [if_pos (by omega), @ofNat_eq _ a (by omega), @ofNat_eq _ b (by omega)]
  | case4 a b c rest ih =>
    have ha := a.toNat_lt
    have hb := b.toNat_lt
    have hc := c.toNat_lt
    simp only [encodeNoPad_three, decodeNoPad, value_symbol (a.toNat / 4) (by omega),
      value_symbol (a.toNat % 4 * 16 + b.toNat / 16) (by omega),
      value_symbol (b.toNat % 16 * 4 + c.toNat / 64) (by omega),
      value_symbol (c.toNat % 64) (by omega), ih, Option.bind_eq_bind, Option.bind_some]
    rw [@ofNat_eq _ a (by omega), @ofNat_eq _ b (by omega), @ofNat_eq _ c (by omega)]

/-- **What decodes is an encoding.** -/
theorem decodeNoPad_eq_some {s : Str} {b : Bytes} : decodeNoPad s = some b ↔ s = encodeNoPad b := by
  refine ⟨fun h => ?_, fun h => h ▸ decodeNoPad_encodeNoPad b⟩
  fun_induction decodeNoPad s generalizing b with
  | case1 =>
    obtain rfl := Option.some.inj h
    rfl
  | case2 => cases h
  | case3 s t =>
    simp only [Option.bind_eq_bind, Option.bind_eq_some_iff, value_eq_some] at h
    obtain ⟨m, ⟨hm, rfl⟩, n, ⟨hn, rfl⟩, h⟩ := h
    split at h
    next hlow =>
      obtain rfl := Option.some.inj h
      have hfirst : (m * 4 + n / 16) % 2 ^ 8 / 4 = m := by omega
      have hsecond : (m * 4 + n / 16) % 2 ^ 8 % 4 * 16 = n := by omega
      rw [encodeNoPad_one, UInt8.toNat_ofNat', hfirst, hsecond]
    next => cases h
  | case4 s t u =>
    simp only [Option.bind_eq_bind, Option.bind_eq_some_iff, value_eq_some] at h
    obtain ⟨m, ⟨hm, rfl⟩, n, ⟨hn, rfl⟩, o, ⟨ho, rfl⟩, h⟩ := h
    split at h
    next hlow =>
      obtain rfl := Option.some.inj h
      have hfirst : (m * 4 + n / 16) % 2 ^ 8 / 4 = m := by omega
      have hsecond : (m * 4 + n / 16) % 2 ^ 8 % 4 * 16 + (n % 16 * 16 + o / 4) % 2 ^ 8 / 16 = n := by
        omega
      have hthird : (n % 16 * 16 + o / 4) % 2 ^ 8 % 16 * 4 = o := by omega
      rw [encodeNoPad_two, UInt8.toNat_ofNat', UInt8.toNat_ofNat', hfirst, hsecond, hthird]
    next => cases h
  | case5 s t u v rest ih =>
    simp only [Option.bind_eq_bind, Option.bind_eq_some_iff, value_eq_some, Option.some.injEq] at h
    obtain ⟨m, ⟨hm, rfl⟩, n, ⟨hn, rfl⟩, o, ⟨ho, rfl⟩, p, ⟨hp, rfl⟩, bytes, hbytes, rfl⟩ := h
    have hfirst : (m * 4 + n / 16) % 2 ^ 8 / 4 = m := by omega
    have hsecond : (m * 4 + n / 16) % 2 ^ 8 % 4 * 16 + (n % 16 * 16 + o / 4) % 2 ^ 8 / 16 = n := by
      omega
    have hthird : (n % 16 * 16 + o / 4) % 2 ^ 8 % 16 * 4 + (o % 4 * 64 + p) % 2 ^ 8 / 64 = o := by
      omega
    have hfourth : (o % 4 * 64 + p) % 2 ^ 8 % 64 = p := by omega
    rw [encodeNoPad_three, UInt8.toNat_ofNat', UInt8.toNat_ofNat', UInt8.toNat_ofNat', hfirst,
      hsecond, hthird, hfourth, ih hbytes]

end AgentSync.Base64
