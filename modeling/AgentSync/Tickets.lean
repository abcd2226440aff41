import Mathlib.Data.List.Basic

/-! Tickets that are good for a while, and once.

The book has every ticket that was ever issued, in order. A ticket is redeemed by its key: the
oldest that is good is spent, and nothing else changes. What is accepted for a key does not depend
on what happens to other keys (`accepts_filter`), and is never more than was issued for it
(`accepted_le_issued`). -/
namespace Tickets

structure Ticket (κ : Type) where
  key : κ
  time : Nat
  spent : Bool
  deriving DecidableEq, Repr

inductive Event (κ : Type) where
  | issue (key : κ) (time : Nat)
  | redeem (key : κ) (time : Nat)
  deriving DecidableEq, Repr

def Event.key {κ : Type} : Event κ → κ
  | .issue key _ | .redeem key _ => key

def Event.time {κ : Type} : Event κ → Nat
  | .issue _ time | .redeem _ time => time

abbrev Book (κ : Type) := List (Ticket κ)

variable {κ : Type}

/-- The ticket, redeemed. -/
def Ticket.used (m : Ticket κ) : Ticket κ := {m with spent := true}

@[simp] theorem Ticket.used_key (m : Ticket κ) : m.used.key = m.key := rfl
@[simp] theorem Ticket.used_time (m : Ticket κ) : m.used.time = m.time := rfl
@[simp] theorem Ticket.used_spent (m : Ticket κ) : m.used.spent = true := rfl

/-! ### The first ticket -/

/-- The first ticket that is as `p` says is used. -/
def spend (p : Ticket κ → Bool) : Book κ → Book κ
  | [] => []
  | m :: rest => if p m then m.used :: rest else m :: spend p rest

section
variable {b : Book κ} {p q : Ticket κ → Bool}

theorem spend_of_forall_not (h : ∀ m ∈ b, p m = false) : spend p b = b := by
  induction b with
  | nil => rfl
  | cons m rest ih =>
    rw [spend, if_neg (by simp [h m]), ih fun m' hm => h m' (.tail _ hm)]

theorem exists_spend (h : ∃ m ∈ b, p m = true) :
    ∃ older m newer, b = older ++ m :: newer ∧ p m = true ∧ (∀ m' ∈ older, p m' = false) ∧
      spend p b = older ++ m.used :: newer := by
  induction b with
  | nil =>
    obtain ⟨m, hm, -⟩ := h
    cases hm
  | cons m rest ih =>
    by_cases hp : p m = true
    · exact ⟨[], m, rest, rfl, hp, List.forall_mem_nil _, if_pos hp⟩
    · have hrest : ∃ m' ∈ rest, p m' = true := by
        obtain ⟨m', hm', hp'⟩ := h
        cases hm' with
        | head => exact absurd hp' hp
        | tail _ hm' => exact ⟨m', hm', hp'⟩
      obtain ⟨older, m', newer, hsplit, hp', holder, hspend⟩ := ih hrest
      refine ⟨m :: older, m', newer, by rw [hsplit]; rfl, hp', ?_, ?_⟩
      · exact List.forall_mem_cons.mpr ⟨Bool.not_eq_true _ ▸ hp, holder⟩
      · rw [spend, if_neg hp, hspend]
        rfl

theorem map_time_spend : (spend p b).map Ticket.time = b.map Ticket.time := by
  induction b with
  | nil => rfl
  | cons m rest ih =>
    rw [spend]
    split
    next => rfl
    next => rw [List.map_cons, ih, List.map_cons]

/-- Among tickets that are not spent, the one that is spent goes away. -/
theorem filter_spend {r : Ticket κ → Bool} (hp : ∀ m, p m = (q m && r m))
    (hspent : ∀ m : Ticket κ, q m.used = false) :
    (spend p b).filter q = (b.filter q).eraseP r := by
  induction b with
  | nil => rfl
  | cons m rest ih =>
    rw [spend, hp]
    cases hq : q m with
    | false =>
      rw [List.filter_cons_of_neg (by simp [hq]), if_neg (by simp),
        List.filter_cons_of_neg (by simp [hq]), ih]
    | true =>
      rw [List.filter_cons_of_pos hq]
      cases hr : r m with
      | false =>
        rw [if_neg (by simp), List.filter_cons_of_pos hq, List.eraseP_cons_of_neg (by simp [hr]), ih]
      | true =>
        rw [if_pos (by simp), List.filter_cons_of_neg (by simp [hspent]), List.eraseP_cons_of_pos hr]

/-- Among tickets that have to do with it spent or not, it is the same ticket. -/
theorem filter_spend_comm (hpq : ∀ m, p m = true → q m = true)
    (hspent : ∀ m : Ticket κ, q m.used = q m) :
    (spend p b).filter q = spend p (b.filter q) := by
  induction b with
  | nil => rfl
  | cons m rest ih =>
    by_cases hp : p m = true
    · rw [spend, if_pos hp, List.filter_cons_of_pos (by rw [hspent, hpq m hp]),
        List.filter_cons_of_pos (hpq m hp), spend, if_pos hp]
    · rw [spend, if_neg hp]
      by_cases hq : q m = true
      · rw [List.filter_cons_of_pos hq, List.filter_cons_of_pos hq, spend, if_neg hp, ih]
      · rw [List.filter_cons_of_neg hq, List.filter_cons_of_neg hq, ih]

/-- Among tickets that have nothing to do with it nothing changes. -/
theorem filter_spend_of_disjoint (hpq : ∀ m, p m = true → q m = false ∧ q m.used = false) :
    (spend p b).filter q = b.filter q := by
  induction b with
  | nil => rfl
  | cons m rest ih =>
    rw [spend]
    split
    next hp =>
      obtain ⟨hq, hused⟩ := hpq m hp
      rw [List.filter_cons_of_neg (by simp [hused]), List.filter_cons_of_neg (by simp [hq])]
    next => rw [List.filter_cons, List.filter_cons, ih]

end

/-! ### The book -/

variable [DecidableEq κ] (life : Nat)

/-- The ticket can be redeemed now. -/
def Good (key : κ) (now : Nat) (m : Ticket κ) : Prop :=
  m.key = key ∧ m.spent = false ∧ now - m.time < life

instance (key : κ) (now : Nat) : DecidablePred (Good life key now) :=
  fun m => inferInstanceAs (Decidable (m.key = key ∧ m.spent = false ∧ now - m.time < life))

def record (b : Book κ) : Event κ → Book κ
  | .issue key time => b ++ [⟨key, time, false⟩]
  | .redeem key time => spend (fun m => Good life key time m) b

/-- The ticket is redeemed. -/
def accepts (b : Book κ) : Event κ → Bool
  | .issue _ _ => false
  | .redeem key time => b.any fun m => Good life key time m

def recordEvents (b : Book κ) (es : List (Event κ)) : Book κ := es.foldl (record life) b

/-- How often a ticket of the key is redeemed. -/
def accepted (key : κ) : Book κ → List (Event κ) → Nat
  | _, [] => 0
  | b, e :: es => (if e.key = key ∧ accepts life b e then 1 else 0) + accepted key (record life b e) es

/-- How many tickets of the key are issued. -/
def issued (key : κ) (es : List (Event κ)) : Nat :=
  es.countP fun
    | .issue k _ => k = key
    | .redeem _ _ => false

variable {life} {key : κ} {now : Nat} {b : Book κ} {e : Event κ} {es : List (Event κ)}

theorem accepts_redeem :
    accepts life b (.redeem key now) = true ↔ ∃ m ∈ b, Good life key now m := by
  simp [accepts]

/-- A ticket is used that is good, and that none before it is. -/
theorem record_of_accepts (h : accepts life b (.redeem key now) = true) :
    ∃ older m newer, b = older ++ m :: newer ∧ Good life key now m ∧
      (∀ m' ∈ older, ¬ Good life key now m') ∧
      record life b (.redeem key now) = older ++ m.used :: newer := by
  obtain ⟨older, m, newer, hsplit, hm, holder, hspend⟩ := exists_spend (List.any_eq_true.mp h)
  refine ⟨older, m, newer, hsplit, of_decide_eq_true hm, fun m' hm' => ?_, hspend⟩
  exact of_decide_eq_false (holder m' hm')

theorem record_of_not_accepts (h : accepts life b (.redeem key now) = false) :
    record life b (.redeem key now) = b :=
  spend_of_forall_not fun m hm => Bool.eq_false_iff.mpr (List.any_eq_false.mp h m hm)

/-! ### Other keys -/

/-- The tickets of a key are a book of their own. -/
theorem filter_record : (record life b e).filter (·.key = key) =
    if e.key = key then record life (b.filter (·.key = key)) e else b.filter (·.key = key) := by
  split
  next hkey =>
    cases e with
    | issue k t =>
      have hone : decide (k = key) = true := decide_eq_true hkey
      rw [record, record, List.filter_append, List.filter_singleton, hone]
      rfl
    | redeem k t =>
      refine filter_spend_comm (fun m hm => ?_) fun m => rfl
      exact decide_eq_true ((of_decide_eq_true hm).1.trans hkey)
  next hkey =>
    cases e with
    | issue k t =>
      have hone : decide (k = key) = false := decide_eq_false hkey
      rw [record, List.filter_append, List.filter_singleton, hone]
      exact List.append_nil _
    | redeem k t =>
      refine filter_spend_of_disjoint fun m hm => ?_
      have hne : m.key ≠ key := fun hm' => hkey ((of_decide_eq_true hm).1.symm.trans hm')
      exact ⟨decide_eq_false hne, decide_eq_false hne⟩

theorem accepts_filter (hkey : e.key = key) :
    accepts life (b.filter (·.key = key)) e = accepts life b e := by
  cases e with
  | issue k t => rfl
  | redeem k t =>
    rw [Bool.eq_iff_iff, accepts_redeem, accepts_redeem]
    constructor
    · intro h
      obtain ⟨m, hm, hgood⟩ := h
      exact ⟨m, (List.mem_filter.mp hm).1, hgood⟩
    · intro h
      obtain ⟨m, hm, hgood⟩ := h
      exact ⟨m, List.mem_filter.mpr ⟨hm, decide_eq_true (hgood.1.trans hkey)⟩, hgood⟩

theorem filter_recordEvents : (recordEvents life b es).filter (·.key = key) =
    recordEvents life (b.filter (·.key = key)) (es.filter (·.key = key)) := by
  induction es generalizing b with
  | nil => rfl
  | cons e es ih =>
    show (recordEvents life (record life b e) es).filter (·.key = key) = _
    rw [ih, filter_record]
    rw [List.filter_cons]
    by_cases hkey : e.key = key
    · rw [if_pos hkey, if_pos (decide_eq_true hkey)]
      rfl
    · rw [if_neg hkey, if_neg (by simpa using hkey)]

/-! ### Counting -/

/-- What is accepted has been spent. -/
theorem countP_spent_record : (record life b e).countP (fun m => m.key = key ∧ m.spent) =
    b.countP (fun m => m.key = key ∧ m.spent) +
      if e.key = key ∧ accepts life b e then 1 else 0 := by
  cases e with
  | issue k t => simp [record, accepts]
  | redeem k t =>
    cases hacc : accepts life b (.redeem k t) with
    | false =>
      rw [record_of_not_accepts hacc]
      simp
    | true =>
      obtain ⟨older, m, newer, rfl, hgood, -, hrecord⟩ := record_of_accepts hacc
      obtain ⟨rfl, hspent, -⟩ := hgood
      rw [hrecord]
      by_cases hkey : m.key = key
      · simp [List.countP_append, Event.key, hkey, hspent]
        omega
      · simp [List.countP_append, Event.key, hkey]

theorem countP_spent_recordEvents : (recordEvents life b es).countP (fun m => m.key = key ∧ m.spent) =
    b.countP (fun m => m.key = key ∧ m.spent) + accepted life key b es := by
  induction es generalizing b with
  | nil => rfl
  | cons e es ih =>
    show (recordEvents life (record life b e) es).countP _ = _
    rw [ih, countP_spent_record, accepted, Nat.add_assoc]

theorem countP_key_record : (record life b e).countP (fun m => m.key = key) =
    b.countP (fun m => m.key = key) + issued key [e] := by
  cases e with
  | issue k t => simp [record, issued, List.countP_cons]
  | redeem k t =>
    cases hacc : accepts life b (.redeem k t) with
    | false =>
      rw [record_of_not_accepts hacc]
      rfl
    | true =>
      obtain ⟨older, m, newer, rfl, -, -, hrecord⟩ := record_of_accepts hacc
      simp only [hrecord, List.countP_append, List.countP_cons, m.used_key]
      rfl

theorem countP_key_recordEvents : (recordEvents life b es).countP (fun m => m.key = key) =
    b.countP (fun m => m.key = key) + issued key es := by
  induction es generalizing b with
  | nil => rfl
  | cons e es ih =>
    show (recordEvents life (record life b e) es).countP _ = _
    rw [ih, countP_key_record, Nat.add_assoc, issued, issued, issued, ← List.countP_append]
    rfl

/-- **No more tickets are accepted than there were.** -/
theorem accepted_le_issued (key : κ) (es : List (Event κ)) :
    accepted life key [] es ≤ issued key es := by
  have hspent := @countP_spent_recordEvents _ _ life key [] es
  have hkey := @countP_key_recordEvents _ _ life key [] es
  rw [List.countP_nil, Nat.zero_add] at hspent hkey
  rw [← hspent, ← hkey]
  exact List.countP_mono_left fun m _ hm => decide_eq_true (of_decide_eq_true hm).1

/-! ### Order -/

/-- Tickets stand in the book in the order of their times. -/
theorem pairwise_recordEvents (h : (b.map Ticket.time ++ es.map Event.time).Pairwise (· ≤ ·)) :
    ((recordEvents life b es).map Ticket.time).Pairwise (· ≤ ·) := by
  induction es generalizing b with
  | nil => simpa [recordEvents] using h
  | cons e es ih =>
    refine @ih (record life b e) ?_
    cases e with
    | issue k t => simpa [record, Event.time] using h
    | redeem k t =>
      rw [record, map_time_spend]
      exact h.sublist (List.Sublist.append_left (List.sublist_cons_self _ _) _)

end Tickets
