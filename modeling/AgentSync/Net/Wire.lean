import AgentSync.Usize
import AgentSync.Net.Ssh

/-! Strings in a buffer, on a machine.

The decoders of keys and of what an agent answers read strings from a buffer, each at the cursor
where the last one ended. A string's length is up to whoever wrote the buffer, and the comparison
that guards the slice adds it to the cursor. With 64 bits that sum always fits. With 32 it may not,
and then the read panics, whether sums are checked or wrap (`readSshString_eq`). -/
namespace AgentSync.Net.Wire

open Usize

/-- What is read is a buffer, from a cursor on. -/
abbrev Read (α : Type) := Exec (Bytes × Nat) Error α

def truncatedLength : Error := .auth (txt "truncated ssh wire string length")
def truncatedBody : Error := .auth (txt "truncated ssh wire string body")

section Code
variable (t : Target) (T : TextFormat)

/-- `read_ssh_string`: the string, and the cursor behind it. -/
def readSshString (buf : Bytes) (cursor : Nat) : Read (Bytes × Nat) :=
  .call (buf, cursor) do
    let header ← t.add cursor 4
    if buf.length < header then .err truncatedLength
    else
      let a ← index buf cursor
      let b ← index buf (← t.add cursor 1)
      let c ← index buf (← t.add cursor 2)
      let d ← index buf (← t.add cursor 3)
      let len := fromBeBytes a b c d
      let cursor ← t.add cursor 4
      let bound ← t.add cursor len
      if buf.length < bound then .err truncatedBody
      else
        let s ← slice buf cursor (← t.add cursor len)
        return (s, ← t.add cursor len)

def decodeSshWire (wire : Bytes) : Read Pubkey := do
  let (kind, cursor) ← readSshString t wire 0
  if kind != asciiBytes sshKeyType then
    .err (.auth (txt "ssh pubkey type tag mismatch: got " ++ T.debug (T.fromUtf8Lossy kind)))
  else
    let (pubkeyBytes, _) ← readSshString t wire cursor
    match Array32.ofBytes? pubkeyBytes with
    | none => .err (.auth (txt "ssh pubkey body wrong length: got " ++
        (toString pubkeyBytes.length).toList ++ txt ", want " ++ (toString pubkeyLen).toList))
    | some out => return out

/-- The loop of `agent_list_identities`, with `n` keys to go. -/
def readKeys (resp : Bytes) : Nat → Nat → Read (List Pubkey)
  | 0, _ => return []
  | n + 1, cursor => do
    let (blob, cursor) ← readSshString t resp cursor
    let (_, cursor) ← readSshString t resp cursor
    let raw ← (decodeSshWire t T blob).ok?
    let keys ← readKeys resp n cursor
    return raw.toList ++ keys

def sshAgentIdentitiesAnswer : UInt8 := 12
def sshAgentSignResponse : UInt8 := 14
def sshAgentFailure : UInt8 := 5

/-- `agent_list_identities`, of what the agent answers. -/
def agentListIdentities (resp : Bytes) : Read (List Pubkey) := do
  if resp.head? ≠ some sshAgentIdentitiesAnswer then
    .err (.auth (txt "ssh-agent did not return identities"))
  else
    let header ← t.add 1 4
    if resp.length < header then
      .err (.auth (txt "ssh-agent identities response truncated"))
    else
      let a ← index resp 1
      let b ← index resp (← t.add 1 1)
      let c ← index resp (← t.add 1 2)
      let d ← index resp (← t.add 1 3)
      let cursor ← t.add 1 4
      readKeys t T resp (fromBeBytes a b c d) cursor

/-- `agent_sign`, of what the agent answers to the request. -/
def agentSign (resp : Bytes) : Read Bytes := do
  match resp with
  | [] => .err (.auth (txt "ssh-agent empty response"))
  | tag :: _ =>
    if tag = sshAgentSignResponse then
      let (sigBlob, _) ← readSshString t resp 1
      let (kind, inner) ← readSshString t sigBlob 0
      if kind != asciiBytes sshKeyType then
        .err (.auth (txt "ssh-agent returned unexpected key type " ++ T.debug (T.fromUtf8Lossy kind)))
      else
        let (sigBytes, _) ← readSshString t sigBlob inner
        if sigBytes.length != signatureLen then
          .err (.auth (txt "ssh-agent returned signature of wrong length: " ++
            (toString sigBytes.length).toList))
        else return sigBytes
    else if tag = sshAgentFailure then
      .err (.auth (txt "ssh-agent refused to sign (user cancelled, key locked, or wrong key)"))
    else
      .err (.auth (txt "ssh-agent returned unexpected response type " ++
        (toString tag.toNat).toList))

end Code

/-- The length at a cursor, where there are four bytes for one. -/
def lengthAt (buf : Bytes) (cursor : Nat) : Option Nat :=
  match buf.drop cursor with
  | a :: b :: c :: d :: _ => some (fromBeBytes a b c d)
  | _ => none

/-- A buffer and a cursor as there are: no buffer is longer than `isize::MAX`. -/
structure Within (t : Target) (call : Bytes × Nat) : Prop where
  cursor : call.2 ≤ call.1.length
  length : call.1.length < 2 ^ (t.width - 1)

theorem fromBeBytes_lt (a b c d : UInt8) : fromBeBytes a b c d < 2 ^ 32 := by
  have ha := a.toNat_lt
  have hb := b.toNat_lt
  have hc := c.toNat_lt
  have hd := d.toNat_lt
  rw [fromBeBytes]
  omega

theorem lengthAt_eq_none {buf : Bytes} {cursor : Nat} :
    lengthAt buf cursor = none ↔ (buf.drop cursor).length < 4 := by
  unfold lengthAt
  split
  next hdrop =>
    rw [hdrop]
    simp
  next hdrop =>
    refine iff_of_true rfl ?_
    match hrest : buf.drop cursor with
    | [] | [_] | [_, _] | [_, _, _] => simp
    | a :: b :: c :: d :: rest => exact absurd hrest (hdrop a b c d rest)

section
variable {t : Target} {buf : Bytes} {cursor : Nat}

theorem Within.two_pow (h : Within t (buf, cursor)) (ht : 32 ≤ t.width) :
    cursor ≤ buf.length ∧ buf.length < 2 ^ (t.width - 1) ∧ 2 ^ t.width = 2 * 2 ^ (t.width - 1) ∧
      2 ^ 31 ≤ 2 ^ (t.width - 1) := by
  refine ⟨h.cursor, h.length, ?_, Nat.pow_le_pow_right (by decide) (by omega)⟩
  rw [← Nat.pow_succ', Nat.succ_eq_add_one, Nat.sub_add_cancel (by omega)]

/-- A read without enough bytes for a length. -/
theorem readSshString_short (ht : 32 ≤ t.width) (h : Within t (buf, cursor))
    (hlen : lengthAt buf cursor = none) :
    readSshString t buf cursor = ⟨[(buf, cursor)], .err truncatedLength⟩ := by
  obtain ⟨hcursor, hlength, hwidth, hhalf⟩ := h.two_pow ht
  rw [lengthAt_eq_none, List.length_drop] at hlen
  rw [readSshString, Target.add_of_lt (by omega), Exec.pure_bind, if_pos (by omega)]
  rfl

/-- A read that has its length goes on with the sum that guards the slice. -/
theorem readSshString_long (ht : 32 ≤ t.width) (h : Within t (buf, cursor)) {len : Nat}
    (hlen : lengthAt buf cursor = some len) :
    readSshString t buf cursor = .call (buf, cursor) do
      let bound ← t.add (cursor + 4) len
      if buf.length < bound then .err truncatedBody
      else
        let s ← slice buf (cursor + 4) (← t.add (cursor + 4) len)
        return (s, ← t.add (cursor + 4) len) := by
  obtain ⟨hcursor, hlength, hwidth, hhalf⟩ := h.two_pow ht
  unfold lengthAt at hlen
  split at hlen
  next a b c d rest hdrop =>
    obtain rfl := Option.some.inj hlen
    have hget (k : Nat) : buf[cursor + k]? = (a :: b :: c :: d :: rest)[k]? := by
      rw [← hdrop, List.getElem?_drop]
    have hsize := congrArg List.length hdrop
    simp only [List.length_drop, List.length_cons] at hsize
    rw [readSshString, Target.add_of_lt (by omega), Target.add_of_lt (by omega),
      Target.add_of_lt (by omega), Target.add_of_lt (by omega), Exec.pure_bind, if_neg (by omega)]
    have hfirst : buf[cursor]? = some a := hget 0
    simp only [Exec.pure_bind, index_of_getElem? hfirst, index_of_getElem? (hget 1),
      index_of_getElem? (hget 2), index_of_getElem? (hget 3)]
  next => cases hlen

theorem lengthAt_lt {len : Nat} (hlen : lengthAt buf cursor = some len) :
    len < 2 ^ 32 ∧ cursor + 4 ≤ buf.length := by
  constructor
  · unfold lengthAt at hlen
    split at hlen
    next =>
      obtain rfl := Option.some.inj hlen
      exact fromBeBytes_lt _ _ _ _
    next => cases hlen
  · have hsome : lengthAt buf cursor ≠ none := by simp [hlen]
    rw [Ne, lengthAt_eq_none, List.length_drop] at hsome
    omega

/-- **What a read does.** A length that reaches past the end of the word makes it panic, with checks
at the sum and without them at the slice, whose end has become smaller than its start. -/
theorem readSshString_eq (ht : 32 ≤ t.width) (h : Within t (buf, cursor)) :
    readSshString t buf cursor = ⟨[(buf, cursor)],
      match lengthAt buf cursor with
      | none => .err truncatedLength
      | some len =>
        if 2 ^ t.width ≤ cursor + 4 + len then .panic
        else if buf.length < cursor + 4 + len then .err truncatedBody
        else .ok ((buf.drop (cursor + 4)).take len, cursor + 4 + len)⟩ := by
  obtain ⟨hcursor, hlength, hwidth, hhalf⟩ := h.two_pow ht
  cases hlen : lengthAt buf cursor with
  | none => exact readSshString_short ht h hlen
  | some len =>
    have hpow : 2 ^ 32 ≤ 2 ^ t.width := Nat.pow_le_pow_right (by decide) ht
    obtain ⟨hlt, hheader⟩ := lengthAt_lt hlen
    rw [readSshString_long ht h hlen]
    dsimp only
    split
    next hover =>
      rw [Target.add_of_le hover (by omega) (by omega)]
      split
      next => rfl
      next =>
        -- The sum is short by a whole word, so the guard lets it pass.
        rw [Exec.pure_bind, if_neg (by omega), Exec.pure_bind, slice_of_lt (by omega)]
        rfl
    next hfits =>
      rw [Target.add_of_lt (by omega), Exec.pure_bind]
      split
      next => rfl
      next hbody =>
        rw [Exec.pure_bind, slice_of_le (by omega) (by omega), Exec.pure_bind, Exec.pure_bind,
          List.drop_take, Nat.add_sub_cancel_left]
        rfl

/-! ### In bounds -/

/-- A length, and that many bytes after it. -/
def Available (buf : Bytes) (cursor : Nat) : Prop :=
  ∃ len, lengthAt buf cursor = some len ∧ cursor + 4 + len ≤ buf.length

/-- The end of the string is no word any more. -/
def Overflows (width : Nat) (buf : Bytes) (cursor : Nat) : Prop :=
  ∃ len, lengthAt buf cursor = some len ∧ 2 ^ width ≤ cursor + 4 + len

/-- What a read should be. -/
structure InBounds (t : Target) (buf : Bytes) (cursor : Nat) : Prop where
  no_panic : (readSshString t buf cursor).outcome ≠ .panic
  ok_iff : (∃ s cursor', (readSshString t buf cursor).outcome = .ok (s, cursor')) ↔
    Available buf cursor
  advance : ∀ s cursor', (readSshString t buf cursor).outcome = .ok (s, cursor') →
    cursor + 4 ≤ cursor' ∧ cursor' ≤ buf.length

theorem readSshString_of_overflows (ht : 32 ≤ t.width) (h : Within t (buf, cursor))
    (hover : Overflows t.width buf cursor) :
    (readSshString t buf cursor).outcome = .panic := by
  obtain ⟨len, hlen, hover⟩ := hover
  rw [readSshString_eq ht h, hlen]
  exact if_pos hover

theorem readSshString_eq_ok (ht : 32 ≤ t.width) (h : Within t (buf, cursor)) {s : Bytes}
    {cursor' : Nat} : (readSshString t buf cursor).outcome = .ok (s, cursor') ↔
      ∃ len, lengthAt buf cursor = some len ∧ cursor + 4 + len ≤ buf.length ∧
        s = (buf.drop (cursor + 4)).take len ∧ cursor' = cursor + 4 + len := by
  obtain ⟨hcursor, hlength, hwidth, hhalf⟩ := h.two_pow ht
  rw [readSshString_eq ht h]
  cases hlen : lengthAt buf cursor with
  | none => simp
  | some len =>
    simp only [Option.some.injEq, exists_eq_left']
    split
    next => exact iff_of_false (fun h => by cases h) fun h => by omega
    next =>
      split
      next => exact iff_of_false (fun h => by cases h) fun h => by omega
      next hbody =>
        simp only [Outcome.ok.injEq, Prod.mk.injEq, Nat.not_lt.mp hbody, true_and]
        rw [eq_comm, @eq_comm _ _ cursor']

/-- **A read is in bounds where the end of its string is a word.** -/
theorem inBounds_iff (ht : 32 ≤ t.width) (h : Within t (buf, cursor)) :
    InBounds t buf cursor ↔ ¬ Overflows t.width buf cursor := by
  constructor
  · intro hin hover
    exact hin.no_panic (readSshString_of_overflows ht h hover)
  · intro hover
    refine ⟨fun hpanic => ?_, ?_, fun s cursor' hok => ?_⟩
    · rw [readSshString_eq ht h] at hpanic
      dsimp only at hpanic
      split at hpanic
      next => cases hpanic
      next len hlen =>
        rw [if_neg fun hle => hover ⟨len, hlen, hle⟩] at hpanic
        split at hpanic <;> cases hpanic
    · simp only [readSshString_eq_ok ht h]
      constructor
      · intro hread
        obtain ⟨-, -, len, hlen, hbody, -, -⟩ := hread
        exact ⟨len, hlen, hbody⟩
      · intro havailable
        obtain ⟨len, hlen, hbody⟩ := havailable
        exact ⟨_, _, len, hlen, hbody, rfl, rfl⟩
    · obtain ⟨len, -, hbody, -, rfl⟩ := (readSshString_eq_ok ht h).mp hok
      exact ⟨Nat.le_add_right _ _, hbody⟩

/-- With 64 bits the end of a string is a word. -/
theorem not_overflows (ht : t.width = 64) (h : Within t (buf, cursor)) :
    ¬ Overflows t.width buf cursor := by
  intro hover
  obtain ⟨len, hlen, hover⟩ := hover
  obtain ⟨hcursor, hlength⟩ := h
  have hlt := (lengthAt_lt hlen).1
  rw [ht] at hover hlength
  dsimp only at hcursor hlength
  omega

/-! ### The callers -/

/-- The next string of a buffer begins in it, and a string that was read is a buffer again. -/
theorem Within.next (ht : 32 ≤ t.width) (h : Within t (buf, cursor)) {s : Bytes} {cursor' : Nat}
    (hok : (readSshString t buf cursor).outcome = .ok (s, cursor')) :
    Within t (buf, cursor') ∧ Within t (s, 0) := by
  obtain ⟨len, -, hbody, rfl, rfl⟩ := (readSshString_eq_ok ht h).mp hok
  refine ⟨⟨hbody, h.length⟩, Nat.zero_le _, ?_⟩
  refine Nat.lt_of_le_of_lt ?_ h.length
  dsimp only
  rw [List.length_take, List.length_drop]
  omega

theorem mem_calls_read (ht : 32 ≤ t.width) (h : Within t (buf, cursor)) :
    (buf, cursor) ∈ (readSshString t buf cursor).calls := by
  rw [readSshString_eq ht h]
  exact .head _

theorem always_read (ht : 32 ≤ t.width) (h : Within t (buf, cursor)) :
    Exec.Always (Within t) (readSshString t buf cursor) := by
  rw [readSshString_eq ht h]
  exact List.forall_mem_singleton.mpr h

variable {T : TextFormat}

theorem always_decodeSshWire (ht : 32 ≤ t.width) {wire : Bytes} (h : Within t (wire, 0)) :
    Exec.Always (Within t) (decodeSshWire t T wire) := by
  refine (always_read ht h).bind fun x hx => ?_
  obtain ⟨kind, cursor⟩ := x
  dsimp only
  split
  next => exact .err _
  next =>
    refine (always_read ht (h.next ht hx).1).bind fun y _ => ?_
    obtain ⟨pubkeyBytes, -⟩ := y
    dsimp only
    split
    next => exact .err _
    next => exact .pure _

theorem always_readKeys (ht : 32 ≤ t.width) {resp : Bytes} (n : Nat) (h : Within t (resp, cursor)) :
    Exec.Always (Within t) (readKeys t T resp n cursor) := by
  induction n generalizing cursor with
  | zero => exact .pure _
  | succ n ih =>
    refine (always_read ht h).bind fun x hx => ?_
    obtain ⟨blob, cursor₁⟩ := x
    obtain ⟨hresp, hblob⟩ := h.next ht hx
    refine (always_read ht hresp).bind fun y hy => ?_
    obtain ⟨comment, cursor₂⟩ := y
    refine Exec.Always.bind (always_decodeSshWire ht hblob) fun raw _ => ?_
    exact (ih (hresp.next ht hy).1).bind fun _ _ => .pure _

theorem always_agentListIdentities (ht : 32 ≤ t.width) {resp : Bytes} (h : Within t (resp, 0)) :
    Exec.Always (Within t) (agentListIdentities t T resp) := by
  obtain ⟨-, hlength, hwidth, hhalf⟩ := h.two_pow ht
  rw [agentListIdentities, Target.add_of_lt (by omega), Target.add_of_lt (by omega),
    Target.add_of_lt (by omega), Target.add_of_lt (by omega)]
  simp only [Exec.pure_bind]
  split
  next => exact .err _
  next =>
    split
    next => exact .err _
    next hheader =>
      refine (always_index resp 1).bind fun a _ => ?_
      refine (always_index resp (1 + 1)).bind fun b _ => ?_
      refine (always_index resp (1 + 2)).bind fun c _ => ?_
      refine (always_index resp (1 + 3)).bind fun d _ => ?_
      exact always_readKeys ht _ ⟨Nat.not_lt.mp hheader, h.length⟩

theorem always_agentSign (ht : 32 ≤ t.width) {resp : Bytes} (h : Within t (resp, 0)) :
    Exec.Always (Within t) (agentSign t T resp) := by
  unfold agentSign
  split
  next => exact .err _
  next tag rest =>
    have hone : Within t (tag :: rest, 1) := ⟨Nat.succ_le_succ (Nat.zero_le _), h.length⟩
    split
    next =>
      refine (always_read ht hone).bind fun x hx => ?_
      obtain ⟨sigBlob, cursor⟩ := x
      have hblob := (hone.next ht hx).2
      refine (always_read ht hblob).bind fun y hy => ?_
      obtain ⟨kind, inner⟩ := y
      dsimp only
      split
      next => exact .err _
      next =>
        refine (always_read ht (hblob.next ht hy).1).bind fun z _ => ?_
        obtain ⟨sigBytes, -⟩ := z
        dsimp only
        split
        next => exact .err _
        next => exact .pure _
    next =>
      split
      next => exact .err _
      next => exact .err _

/-! ### The decoder of keys -/

/-- What a function returns, as a program. -/
def ofExcept {α : Type} : Except Error α → Outcome Error α
  | .ok a => .ok a
  | .error e => .err e

/-- The read without a machine, of what the buffer has from the cursor on. -/
theorem net_readSshString_eq (buf : Bytes) (cursor : Nat) :
    Net.readSshString (buf.drop cursor) =
      match lengthAt buf cursor with
      | none => .error truncatedLength
      | some len =>
        if buf.length < cursor + 4 + len then .error truncatedBody
        else .ok ((buf.drop (cursor + 4)).take len, buf.drop (cursor + 4 + len)) := by
  cases hlen : lengthAt buf cursor with
  | none =>
    rw [lengthAt_eq_none] at hlen
    unfold Net.readSshString
    split
    next hdrop =>
      simp only [hdrop, List.length_cons] at hlen
      omega
    next => rfl
  | some len =>
    unfold lengthAt at hlen
    split at hlen
    next a b c d rest hdrop =>
      obtain rfl := Option.some.inj hlen
      have hsize := congrArg List.length hdrop
      simp only [List.length_drop, List.length_cons] at hsize
      have hrest : buf.drop (cursor + 4) = rest := by
        rw [← List.drop_drop, hdrop]
        rfl
      have hafter : buf.drop (cursor + 4 + fromBeBytes a b c d) = rest.drop (fromBeBytes a b c d) := by
        rw [← List.drop_drop, hrest]
      rw [hdrop, Net.readSshString, List.splitAt_eq]
      dsimp only
      rw [hrest, hafter]
      by_cases hbody : rest.length < fromBeBytes a b c d
      · rw [if_pos hbody, if_pos (by omega), truncatedBody]
      · rw [if_neg hbody, if_neg (by omega)]
    next => cases hlen

/-- A read that is in bounds is that read. -/
theorem readSshString_refines (ht : 32 ≤ t.width) (h : Within t (buf, cursor))
    (hover : ¬ Overflows t.width buf cursor) :
    match Net.readSshString (buf.drop cursor) with
    | .error e => (readSshString t buf cursor).outcome = .err e
    | .ok (s, rest) => ∃ cursor', (readSshString t buf cursor).outcome = .ok (s, cursor') ∧
        rest = buf.drop cursor' := by
  rw [readSshString_eq ht h, net_readSshString_eq]
  cases hlen : lengthAt buf cursor with
  | none => rfl
  | some len =>
    have hfits : ¬ 2 ^ t.width ≤ cursor + 4 + len := fun hle => hover ⟨len, hlen, hle⟩
    simp only [if_neg hfits]
    by_cases hbody : buf.length < cursor + 4 + len
    · simp only [if_pos hbody]
    · simp only [if_neg hbody]
      exact ⟨_, rfl, rfl⟩

/-- **Where every read is in bounds the decoder of keys is the one without a machine.** -/
theorem decodeSshWire_refines (ht : 32 ≤ t.width) {wire : Bytes} (h : Within t (wire, 0))
    (hover : Exec.Always (fun call => ¬ Overflows t.width call.1 call.2)
      (decodeSshWire t T wire)) :
    (decodeSshWire t T wire).outcome = ofExcept (Net.decodeSshWire T wire) := by
  obtain ⟨hfirst, hsecond⟩ := hover.of_bind
  have hread := readSshString_refines ht h (hfirst _ (mem_calls_read ht h))
  rw [List.drop_zero] at hread
  unfold Net.decodeSshWire
  cases hnet : Net.readSshString wire with
  | error e =>
    simp only [hnet] at hread
    rw [decodeSshWire, Exec.bind_of_err hread]
    rfl
  | ok x =>
    obtain ⟨kind, rest⟩ := x
    simp only [hnet] at hread
    obtain ⟨cursor', hok, rfl⟩ := hread
    have hwithin := (h.next ht hok).1
    replace hsecond := hsecond _ hok
    rw [decodeSshWire, Exec.bind_of_ok hok]
    dsimp only [Bind.bind, Except.bind] at hsecond ⊢
    split
    next => rfl
    next hkind =>
      rw [if_neg hkind] at hsecond
      have hbody := readSshString_refines ht hwithin
        (hsecond.of_bind.1 _ (mem_calls_read ht hwithin))
      cases hnext : Net.readSshString (wire.drop cursor') with
      | error e =>
        simp only [hnext] at hbody
        simp only [hbody, ofExcept]
      | ok y =>
        obtain ⟨pubkeyBytes, rest'⟩ := y
        simp only [hnext] at hbody
        obtain ⟨cursor'', hok', -⟩ := hbody
        simp only [hok']
        cases Array32.ofBytes? pubkeyBytes <;> rfl

/-! ### Every read -/

/-- The reads of what comes in, as a key or as an agent's answer. -/
def reads (t : Target) (T : TextFormat) (input : Bytes) : List (Bytes × Nat) :=
  (decodeSshWire t T input).calls ++ (agentListIdentities t T input).calls ++
    (agentSign t T input).calls

theorem within_of_mem_reads (ht : 32 ≤ t.width) {input : Bytes} (h : Within t (input, 0))
    {call : Bytes × Nat} (hcall : call ∈ reads t T input) : Within t call := by
  rw [reads, List.mem_append, List.mem_append] at hcall
  rcases hcall with (hkey | hlist) | hsign
  · exact always_decodeSshWire ht h call hkey
  · exact always_agentListIdentities ht h call hlist
  · exact always_agentSign ht h call hsign

/-- **Strings are read in bounds with 64 bits, and with 32 where their end is a word.** -/
theorem reads_inBounds_iff (T : TextFormat) (ht : t.width = 32 ∨ t.width = 64) {input : Bytes}
    (hinput : input.length < 2 ^ (t.width - 1)) {call : Bytes × Nat}
    (hcall : call ∈ reads t T input) :
    (InBounds t call.1 call.2 ↔ ¬ Overflows t.width call.1 call.2) ∧
      (t.width = 64 → InBounds t call.1 call.2) := by
  have hwidth : 32 ≤ t.width := by omega
  have hwithin := within_of_mem_reads hwidth ⟨Nat.zero_le _, hinput⟩ hcall
  refine ⟨inBounds_iff hwidth hwithin, fun h64 => ?_⟩
  exact (inBounds_iff hwidth hwithin).mpr (not_overflows h64 hwithin)

/-- A length of four bytes, all ones. -/
def allOnes : Bytes := [0xff, 0xff, 0xff, 0xff]

theorem reads_inBounds_iff_allOnes :
    (InBounds ⟨64, true⟩ allOnes 0 ↔ ¬ Overflows 64 allOnes 0) ∧
      ((64 : Nat) = 64 → InBounds ⟨64, true⟩ allOnes 0) := by
  have hlength : allOnes.length < 2 ^ (64 - 1) := by decide
  have hcall : (allOnes, 0) ∈ reads ⟨64, true⟩ standardText allOnes := by decide
  exact reads_inBounds_iff standardText (.inr rfl) hlength hcall

/-- A key in `authorized_keys` can be these four bytes, and with 32 bits reading it panics. -/
theorem reads_panic :
    Base64.decode (txt "/////w==") = some allOnes ∧
      ∀ checks : Bool, (allOnes, 0) ∈ reads ⟨32, checks⟩ standardText allOnes ∧
        ¬ InBounds ⟨32, checks⟩ allOnes 0 ∧
        (decodeSshWire ⟨32, checks⟩ standardText allOnes).outcome = .panic := by
  refine ⟨by decide, fun checks => ?_⟩
  cases checks with
  | false => exact ⟨by decide, fun h => h.no_panic (by decide), by decide⟩
  | true => exact ⟨by decide, fun h => h.no_panic (by decide), by decide⟩

end

end AgentSync.Net.Wire
