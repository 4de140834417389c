import Mathlib.Tactic

/-!
# Hexadecimal texts

Numbers printed in base 16, and the digit loop that reads them back into an
accumulator of any type.
-/

namespace Hex

open List

/-- The digits of `n`, the most significant first; at most `k + 1` of them. -/
def digits : ℕ → ℕ → List ℕ
  | 0, n => [n]
  | k + 1, n => if n < 16 then [n] else digits k (n / 16) ++ [n % 16]

theorem digits_lt {k n : ℕ} (h : n < 16 ^ (k + 1)) : ∀ d ∈ digits k n, d < 16 := by
  induction k generalizing n with
  | zero =>
    intro d hd
    rw [mem_singleton.mp hd]
    exact h
  | succ k ih =>
    intro d hd
    unfold digits at hd
    split_ifs at hd with hn
    · rw [mem_singleton.mp hd]
      exact hn
    · grind

theorem digits_ne_nil (k n : ℕ) : digits k n ≠ [] := by
  cases k with
  | zero => simp [digits]
  | succ k => unfold digits; split_ifs <;> simp

theorem length_digits (k n : ℕ) : (digits k n).length ≤ k + 1 := by
  induction k generalizing n with
  | zero => exact le_rfl
  | succ k ih =>
    unfold digits
    grind

theorem foldl_digits (k n : ℕ) : (digits k n).foldl (fun a d => a * 16 + d) 0 = n := by
  induction k generalizing n with
  | zero => simp [digits]
  | succ k ih =>
    unfold digits
    grind

def char (d : ℕ) : Char := Char.ofNat (if d < 10 then 48 + d else 87 + d)

def value (c : Char) : Option ℕ :=
  if 48 ≤ c.toNat ∧ c.toNat ≤ 57 then some (c.toNat - 48)
  else if 97 ≤ c.toNat ∧ c.toNat ≤ 102 then some (c.toNat - 87)
  else if 65 ≤ c.toNat ∧ c.toNat ≤ 70 then some (c.toNat - 55)
  else none

theorem value_char {d : ℕ} (h : d < 16) : value (char d) = some d := by
  interval_cases d <;> rfl

theorem toNat_of_value {c : Char} {d : ℕ} (h : value c = some d) : 48 ≤ c.toNat := by
  unfold value at h
  split_ifs at h <;> omega

/-- `%x` for a number of at most `k + 1` digits. -/
def text (k n : ℕ) : List Char := (digits k n).map char

/-- A character of such a text is a digit. -/
theorem value_of_mem_text {k n : ℕ} (h : n < 16 ^ (k + 1)) {c : Char} (hc : c ∈ text k n) :
    ∃ d, value c = some d := by
  obtain ⟨d,hd,rfl⟩ := mem_map.mp hc
  exact ⟨d,value_char (digits_lt h d hd)⟩

section
variable {α : Type*} (f : α → ℕ → α) (base : ℕ)

/-- The loop of `strtoul`: take digits below `base` as long as there are any. -/
def read : α → List Char → α
  | a, [] => a
  | a, c :: cs =>
    match value c with
    | none => a
    | some v => if v < base then read (f a v) cs else a

theorem read_map_char {base : ℕ} (hb : base ≤ 16) {ds : List ℕ} (h : ∀ d ∈ ds, d < base) (a : α)
    {rest : List Char} (hrest : ∀ c ∈ rest.head?, value c = none) :
    read f base a (ds.map char ++ rest) = ds.foldl f a := by
  induction ds generalizing a with
  | nil =>
    cases rest with
    | nil => rfl
    | cons c cs => simp [read,hrest c rfl]
  | cons d ds ih =>
    have hd := h d mem_cons_self
    simp only [map_cons,cons_append,read,value_char (hd.trans_le hb),if_pos hd,foldl_cons]
    exact ih (fun e he => h e (mem_cons_of_mem d he)) (f a d)

theorem read_text {k n : ℕ} (h : n < 16 ^ (k + 1)) {rest : List Char}
    (hrest : ∀ c ∈ rest.head?, value c = none) :
    read (fun a d => a * 16 + d) 16 0 (text k n ++ rest) = n := by
  rw [text,read_map_char _ le_rfl (digits_lt h) 0 hrest,foldl_digits]

end
end Hex
