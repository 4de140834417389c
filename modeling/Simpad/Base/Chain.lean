import Mathlib.Tactic

/-!
# Null-terminated chains

A singly linked list in memory: `next` gives the link stored at an address,
`none` is the null pointer.
-/

namespace Chains
variable {α : Type*} {next : α → Option α} {p : Option α} {a : α} {l l' : List α}

/-- From `p`, the links pass through `l` and end in the null pointer. -/
def Chain (next : α → Option α) : Option α → List α → Prop
  | p, [] => p = none
  | p, a :: l => p = some a ∧ Chain next (next a) l

theorem Chain.unique (h : Chain next p l) (h' : Chain next p l') : l = l' := by
  induction l generalizing p l' with
  | nil =>
    cases l' with
    | nil => rfl
    | cons a l' => cases h.symm.trans h'.1
  | cons a l ih =>
    cases l' with
    | nil => cases h'.symm.trans h.1
    | cons b l' =>
      obtain rfl : a = b := Option.some.inj (h.1.symm.trans h'.1)
      rw [ih h.2 h'.2]

/-- What follows an element of a chain is a shorter chain. -/
theorem Chain.suffix (h : Chain next p l) (ha : a ∈ l) :
    ∃ t, Chain next (next a) t ∧ t.length < l.length := by
  induction l generalizing p with
  | nil => cases ha
  | cons b l ih =>
    rcases List.mem_cons.mp ha with rfl | ha
    · exact ⟨l,h.2,Nat.lt_succ_self _⟩
    · obtain ⟨t,ht,hlt⟩ := ih h.2 ha
      exact ⟨t,ht,Nat.lt_succ_of_lt hlt⟩

/-- No element of a chain leads back to its start. -/
theorem Chain.no_return (h : Chain next p l) (ha : a ∈ l) : next a ≠ p := by
  intro heq
  obtain ⟨t,ht,hlt⟩ := h.suffix ha
  rw [heq] at ht
  exact absurd (congrArg List.length (ht.unique h)) (Nat.ne_of_lt hlt)

variable [DecidableEq α] {q : Option α}

/-- A link that the chain does not pass may change. -/
theorem Chain.update (ha : a ∉ l) : Chain (Function.update next a q) p l ↔ Chain next p l := by
  induction l generalizing p with
  | nil => rfl
  | cons b l ih =>
    rw [List.mem_cons,not_or] at ha
    rw [Chain,Chain,Function.update_of_ne (Ne.symm ha.1),ih ha.2]

end Chains
