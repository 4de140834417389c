import Simpad.Base.Memory

/-!
# Circular buffers

A ring of `N` cells with two indices: `head` is where the next element goes,
`tail` where the oldest one is.  One cell always stays free.  The counts are
those of the kernel's `CIRC_` macros.
-/

namespace CircBuf
open Memory List
variable {α : Type*} {N head tail : ℕ} {buf : ℕ → α} {l : List α}

/-- `CIRC_CNT`. -/
def cnt (N head tail : ℕ) : ℕ := (head + N - tail) % N

def space (N head tail : ℕ) : ℕ := cnt N tail (head + 1)

def cntToEnd (N head tail : ℕ) : ℕ :=
  if (head + (N - tail)) % N < N - tail then (head + (N - tail)) % N else N - tail

def spaceToEnd (N head tail : ℕ) : ℕ :=
  if (N - 1 - head + tail) % N ≤ N - 1 - head then (N - 1 - head + tail) % N else N - 1 - head + 1

/-- The elements, the oldest first. -/
def contents (N : ℕ) (buf : ℕ → α) (head tail : ℕ) : List α :=
  (List.range (cnt N head tail)).map fun k => buf ((tail + k) % N)

theorem mod_of_lt_two {x : ℕ} (hx : x < 2 * N) : x % N = if x < N then x else x - N := by
  split
  · next h => exact Nat.mod_eq_of_lt h
  · next h =>
    rw [Nat.mod_eq_sub_mod (by omega)]
    exact Nat.mod_eq_of_lt (by omega)

section
variable (hh : head < N) (ht : tail < N)
include hh ht

theorem cnt_eq : cnt N head tail = if tail ≤ head then head - tail else head + N - tail := by
  rw [cnt,mod_of_lt_two (by omega)]
  split <;> split <;> omega

omit hh in
theorem cnt_lt : cnt N head tail < N := Nat.mod_lt _ (by omega)

theorem space_eq : space N head tail = N - 1 - cnt N head tail := by
  have hc := cnt_eq hh ht
  rw [space,cnt,mod_of_lt_two (by omega)]
  split at hc <;> split <;> omega

theorem cntToEnd_eq : cntToEnd N head tail = min (cnt N head tail) (N - tail) := by
  have hc := cnt_eq hh ht
  rw [cntToEnd,mod_of_lt_two (by omega)]
  grind

theorem spaceToEnd_eq : spaceToEnd N head tail = min (space N head tail) (N - head) := by
  have hc := cnt_eq hh ht
  rw [space_eq hh ht,spaceToEnd,mod_of_lt_two (by omega)]
  grind

end

theorem length_contents : (contents N buf head tail).length = cnt N head tail := by
  rw [contents,length_map,length_range]

theorem getElem?_contents {k : ℕ} (hk : k < cnt N head tail) :
    (contents N buf head tail)[k]? = some (buf ((tail + k) % N)) := by
  rw [contents,getElem?_map,getElem?_range hk]
  rfl

section
variable (hh : head < N)
include hh

section
variable (ht : tail < N)
include ht

theorem cnt_add {n : ℕ} (hn : n ≤ space N head tail) :
    cnt N ((head + n) % N) tail = cnt N head tail + n := by
  rw [space_eq hh ht] at hn
  have hc := cnt_eq hh ht
  have hm : (head + n) % N = if head + n < N then head + n else head + n - N :=
    mod_of_lt_two (by omega)
  rw [cnt_eq (Nat.mod_lt _ (by omega)) ht]
  split at hc <;> split at hm <;> split <;> omega

theorem cnt_drop {n : ℕ} (hn : n ≤ cnt N head tail) :
    cnt N head ((tail + n) % N) = cnt N head tail - n := by
  have hlt : cnt N head tail < N := cnt_lt ht
  have hc := cnt_eq hh ht
  have hm : (tail + n) % N = if tail + n < N then tail + n else tail + n - N :=
    mod_of_lt_two (by omega)
  rw [cnt_eq hh (Nat.mod_lt _ (by omega))]
  split at hc <;> split at hm <;> split <;> omega

theorem contents_drop {n : ℕ} (hn : n ≤ cnt N head tail) :
    contents N buf head ((tail + n) % N) = (contents N buf head tail).drop n := by
  refine ext_getElem ?_ fun k hk hk' => ?_
  · simp [length_drop,length_contents,cnt_drop hh ht hn]
  · simp [contents,getElem_drop,getElem_map,getElem_range,Nat.mod_add_mod,add_assoc]

section
variable (hn : l.length ≤ space N head tail)
include hn

/-- Cells that hold an element are not among the next `n` ones. -/
theorem blit_of_used {k : ℕ}
    (hk : k < cnt N head tail) :
    blit buf head l ((tail + k) % N) = buf ((tail + k) % N) := by
  have hlt : cnt N head tail < N := cnt_lt ht
  have hc := cnt_eq hh ht
  rw [space_eq hh ht] at hn
  have hm : (tail + k) % N = if tail + k < N then tail + k else tail + k - N :=
    mod_of_lt_two (by omega)
  refine blit_of_not_mem ?_
  split at hc <;> split at hm <;> omega

theorem contents_blit
    (hend : head + l.length ≤ N) :
    contents N (blit buf head l) ((head + l.length) % N) tail = contents N buf head tail ++ l := by
  have hs := space_eq hh ht
  have hc := cnt_eq hh ht
  rw [contents,cnt_add hh ht hn,range_add,map_append,contents]
  congr 1
  · exact map_congr_left fun k hk => blit_of_used hh ht hn (mem_range.mp hk)
  · rw [map_map]
    refine ext_getElem ?_ fun k hk hk' => ?_
    · simp
    · rw [getElem_map,getElem_range]
      -- the cell behind the elements is `head`
      have hm : (tail + (cnt N head tail + k)) % N = head + k := by
        rw [mod_of_lt_two (by omega)]
        split at hc <;> split <;> omega
      simp [hm,blit_of_lt hk']

/-- Elements put in two pieces, up to the end of the buffer and from its start on. -/
theorem contents_blit_blit
    {n : ℕ} (hmin : n = min (spaceToEnd N head tail) l.length) :
    contents N (blit (blit buf head (l.take n)) ((head + n) % N) (l.drop n))
        (((head + n) % N + (l.length - n)) % N) tail = contents N buf head tail ++ l ∧
      (head + n) % N + (l.length - n) ≤ N := by
  have hto := spaceToEnd_eq hh ht
  have hs := space_eq hh ht
  have htake : (l.take n).length = n := by
    rw [length_take]
    omega
  have hdrop : (l.drop n).length = l.length - n := length_drop
  have hh' : (head + n) % N < N := Nat.mod_lt _ (by omega)
  have hfirst := @contents_blit α N head tail buf (l.take n) hh ht (by omega) (by omega)
  rw [htake] at hfirst
  have hcnt : cnt N ((head + n) % N) tail = cnt N head tail + n := cnt_add hh ht (by omega)
  have hroom : (head + n) % N + (l.length - n) ≤ N := by
    rcases lt_or_ge (spaceToEnd N head tail) l.length with hlt | hge
    · -- the first piece has reached the end
      have hz : head + n = N := by omega
      rw [hz,Nat.mod_self]
      omega
    · omega
  have hsecond := @contents_blit α N ((head + n) % N) tail (blit buf head (l.take n)) (l.drop n) hh' ht
    (by rw [space_eq hh' ht,hcnt,hdrop]; omega) (by rw [hdrop]; exact hroom)
  rw [hdrop] at hsecond
  refine ⟨?_,hroom⟩
  rw [hsecond,hfirst,append_assoc,take_append_drop]

end

end

end

end CircBuf
