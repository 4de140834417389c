import Mathlib.Tactic

/-!
# Copying to and from a memory

A memory is a function of the address; `blit` is `memcpy` to it and `slice`
reads a range.
-/

namespace Memory

open List
variable {α : Type*} {mem mem' : ℕ → α} {pos i : ℕ} {l l' : List α}

/-- `memcpy` of `l` to position `pos`. -/
def blit (mem : ℕ → α) (pos : ℕ) (l : List α) : ℕ → α :=
  fun i => if pos ≤ i then l[i - pos]?.getD (mem i) else mem i

/-- The `len` elements from `pos` on. -/
def slice (mem : ℕ → α) (pos len : ℕ) : List α := (List.range len).map fun k => mem (pos + k)

theorem blit_of_lt {k : ℕ} (hk : k < l.length) : blit mem pos l (pos + k) = l[k] := by
  unfold blit
  grind

theorem blit_of_not_mem (h : i < pos ∨ pos + l.length ≤ i) : blit mem pos l i = mem i := by
  unfold blit
  grind

@[simp] theorem blit_nil : blit mem pos [] = mem :=
  funext fun _ => blit_of_not_mem (lt_or_ge _ _)

/-- The memory under the copy does not matter. -/
theorem blit_congr (h : i < pos ∨ pos + l.length ≤ i → mem i = mem' i) :
    blit mem pos l i = blit mem' pos l i := by
  by_cases hi : i < pos ∨ pos + l.length ≤ i
  · rw [blit_of_not_mem hi,blit_of_not_mem hi,h hi]
  · obtain ⟨k,rfl⟩ : ∃ k, i = pos + k := ⟨i - pos,by omega⟩
    rw [blit_of_lt (by omega),blit_of_lt (by omega)]

theorem blit_append : blit mem pos (l ++ l') = blit (blit mem pos l) (pos + l.length) l' := by
  funext i
  rcases lt_or_ge i pos with hi | hi
  · rw [blit_of_not_mem (Or.inl hi),blit_of_not_mem (Or.inl (by omega)),blit_of_not_mem (Or.inl hi)]
  · obtain ⟨k,rfl⟩ := Nat.exists_eq_add_of_le hi
    unfold blit
    rw [if_pos hi,if_pos hi,Nat.add_sub_cancel_left]
    rcases lt_or_ge k l.length with hk | hk
    · grind
    · grind

theorem blit_comm {pos' : ℕ} (h : pos + l.length ≤ pos' ∨ pos' + l'.length ≤ pos) :
    blit (blit mem pos l) pos' l' = blit (blit mem pos' l') pos l := by
  funext i
  by_cases hi : i < pos ∨ pos + l.length ≤ i
  · rw [blit_of_not_mem hi]
    exact blit_congr fun _ => blit_of_not_mem hi
  · rw [blit_of_not_mem (by omega)]
    exact blit_congr fun h => absurd h hi

theorem length_slice (mem : ℕ → α) (pos len : ℕ) : (slice mem pos len).length = len := by
  rw [slice,length_map,length_range]

theorem getElem_slice {len k : ℕ} (hk : k < (slice mem pos len).length) :
    (slice mem pos len)[k] = mem (pos + k) := by
  simp only [slice,getElem_map,getElem_range]

theorem slice_congr {len : ℕ} (h : ∀ k < len, mem (pos + k) = mem' (i + k)) :
    slice mem pos len = slice mem' i len :=
  map_congr_left fun k hk => h k (mem_range.mp hk)

theorem blit_slice {len : ℕ} (h : ∀ k < len, mem (pos + k) = mem' k) :
    blit mem pos (slice mem' 0 len) = mem := by
  funext i
  by_cases hi : i < pos ∨ pos + len ≤ i
  · rw [blit_of_not_mem (by rwa [length_slice])]
  · obtain ⟨k,rfl⟩ : ∃ k, i = pos + k := ⟨i - pos,by omega⟩
    rw [blit_of_lt (by rw [length_slice]; omega),h k (by omega),getElem_slice,zero_add]

theorem blit_slice_blit {off len : ℕ} (h : off + l.length ≤ len) :
    blit mem pos (slice (blit mem' off l) 0 len) =
      blit (blit mem pos (slice mem' 0 len)) (pos + off) l := by
  funext i
  by_cases hi : i < pos ∨ pos + len ≤ i
  · rw [blit_of_not_mem (by rwa [length_slice]),blit_of_not_mem (by omega),
      blit_of_not_mem (by rwa [length_slice])]
  · obtain ⟨k,rfl⟩ : ∃ k, i = pos + k := ⟨i - pos,by omega⟩
    rw [blit_of_lt (by rw [length_slice]; omega),getElem_slice,zero_add]
    by_cases hk : k < off ∨ off + l.length ≤ k
    · rw [blit_of_not_mem hk,blit_of_not_mem (by omega),blit_of_lt (by rw [length_slice]; omega),
        getElem_slice,zero_add]
    · obtain ⟨j,rfl⟩ : ∃ j, k = off + j := ⟨k - off,by omega⟩
      rw [blit_of_lt (by omega),← add_assoc,blit_of_lt (by omega)]

theorem slice_add (mem : ℕ → α) (pos m n : ℕ) :
    slice mem pos (m + n) = slice mem pos m ++ slice mem (pos + m) n := by
  rw [slice,range_add,map_append,map_map]
  congr 1
  exact map_congr_left fun k _ => congrArg mem (add_assoc ..).symm

end Memory
