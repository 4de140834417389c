import Mathlib.Tactic

namespace Word

/-- The value a 32-bit unsigned register keeps of `n`. -/
def u32 (n : ℕ) : ℕ := n % 4294967296

theorem u32_of_lt {n : ℕ} (h : n < 4294967296) : u32 n = n := Nat.mod_eq_of_lt h

theorem u32_lt (n : ℕ) : u32 n < 4294967296 := Nat.mod_lt _ (by decide)

@[simp] theorem u32_u32 (n : ℕ) : u32 (u32 n) = u32 n := Nat.mod_mod _ _

def sub32 (a b : ℕ) : ℕ := u32 (a + 4294967296 - u32 b)

theorem sub32_of_le {a b : ℕ} (hba : b ≤ a) (ha : a < 4294967296) : sub32 a b = a - b := by
  have hb : u32 b = b := u32_of_lt (by omega)
  have he : a + 4294967296 - b = a - b + 4294967296 := by omega
  rw [sub32,hb,he,u32,Nat.add_mod_right]
  omega

/-- The value a 32-bit signed register keeps of `x`. -/
def s32 (x : ℤ) : ℤ := Int.bmod x 4294967296

theorem s32_of_lt {x : ℤ} (h : -2147483648 ≤ x) (h' : x < 2147483648) : s32 x = x :=
  Int.bmod_eq_of_le_mul_two (by omega) (by omega)

/-- Round up to the next word boundary, in 32 bits: `((x)+3)&~3`. -/
def pad4 (n : ℕ) : ℕ := u32 (n + 3) / 4 * 4

theorem pad4_dvd (n : ℕ) : 4 ∣ pad4 n := Dvd.intro_left _ rfl

end Word
