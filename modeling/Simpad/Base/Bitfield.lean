import Mathlib.Tactic

/-!
# Fields of a machine word

A field of `k` bits at position `pos`, replaced by mask and shift as C macros
do it.  The new value is not masked, so a value that is too wide spills over.
-/

namespace Bitfield
variable {n : ℕ}

def mask (n k : ℕ) : BitVec n := BitVec.ofNat n (2 ^ k - 1)

def set (w : BitVec n) (pos k : ℕ) (v : BitVec n) : BitVec n :=
  (w &&& ~~~(mask n k <<< pos)) ||| (v <<< pos)

def get (w : BitVec n) (pos k : ℕ) : BitVec n := (w >>> pos) &&& mask n k

theorem getLsbD_mask (k i : ℕ) : (mask n k).getLsbD i = (decide (i < n) && decide (i < k)) := by
  rw [mask,BitVec.getLsbD_ofNat,Nat.testBit_two_pow_sub_one]

variable {k i pos : ℕ} {v w : BitVec n}

theorem getLsbD_of_lt (hv : v.toNat < 2 ^ k) (hi : k ≤ i) : v.getLsbD i = false :=
  Nat.testBit_lt_two_pow (lt_of_lt_of_le hv (Nat.pow_le_pow_right (by decide) hi))

/-- The bits after a replacement: a value that is too wide is or'ed to what is above the field. -/
theorem getLsbD_set (w v : BitVec n) (pos k : ℕ) (hi : i < n) :
    (set w pos k v).getLsbD i =
      (w.getLsbD i && !(decide (pos ≤ i) && decide (i < pos + k)) ||
        decide (pos ≤ i) && v.getLsbD (i - pos)) := by
  rw [set,BitVec.getLsbD_or,BitVec.getLsbD_and,BitVec.getLsbD_not,BitVec.getLsbD_shiftLeft,
    BitVec.getLsbD_shiftLeft,getLsbD_mask]
  by_cases hp : i < pos
  · simp [hi,hp,not_le.mpr hp]
  · have hle : pos ≤ i := not_lt.mp hp
    have hn : i - pos < n := by omega
    have hk : i - pos < k ↔ i < pos + k := by omega
    simp [hi,hp,hle,hn,hk]

theorem getLsbD_get (w : BitVec n) (pos k i : ℕ) :
    (get w pos k).getLsbD i = (w.getLsbD (pos + i) && (decide (i < n) && decide (i < k))) := by
  rw [get,BitVec.getLsbD_and,BitVec.getLsbD_ushiftRight,getLsbD_mask]

theorem get_congr {w' : BitVec n}
    (h : ∀ i < k, pos + i < n → w.getLsbD (pos + i) = w'.getLsbD (pos + i)) :
    get w pos k = get w' pos k := by
  apply BitVec.eq_of_getLsbD_eq
  intro i hi
  rw [getLsbD_get,getLsbD_get]
  by_cases hik : i < k
  · grind
  · simp [hik]

/-- Of a value that is too wide the low bits are read back. -/
theorem toNat_get_set (w v : BitVec n) (hk : pos + k ≤ n) :
    (get (set w pos k v) pos k).toNat = v.toNat % 2 ^ k := by
  apply Nat.eq_of_testBit_eq
  intro i
  rw [Nat.testBit_mod_two_pow,← BitVec.getLsbD,← BitVec.getLsbD,getLsbD_get]
  by_cases hi : i < k
  · rw [getLsbD_set w v pos k (by omega : pos + i < n)]
    have h1 : i < n := by omega
    simp [hi,h1]
  · simp [hi]

theorem get_set_of_le (w v : BitVec n) {pos' k' : ℕ} (h : pos' + k' ≤ pos) :
    get (set w pos k v) pos' k' = get w pos' k' := by
  apply get_congr
  intro i hi hn
  have hlt : ¬pos ≤ pos' + i := by omega
  rw [getLsbD_set w v pos k hn]
  simp [hlt]

theorem get_set (hv : v.toNat < 2 ^ k) (hk : pos + k ≤ n) : get (set w pos k v) pos k = v := by
  apply BitVec.eq_of_toNat_eq
  rw [toNat_get_set w v hk,Nat.mod_eq_of_lt hv]

theorem get_set_of_disjoint {pos' k' : ℕ} (hv : v.toNat < 2 ^ k)
    (hd : pos + k ≤ pos' ∨ pos' + k' ≤ pos) : get (set w pos k v) pos' k' = get w pos' k' := by
  rcases hd with hd | hd
  · apply get_congr
    intro i hi hn
    -- the bits of the value end below this one
    have hz : v.getLsbD (pos' + i - pos) = false := getLsbD_of_lt hv (by omega)
    have hge : ¬pos' + i < pos + k := by omega
    rw [getLsbD_set w v pos k hn,hz]
    simp [hge]
  · exact get_set_of_le w v hd

end Bitfield
