import Mathlib.Tactic

/-!
# Ring buffers

A ring of `n + 1` slots that holds at most `n` elements: `head` is where the
next element goes, `tail` where the oldest one is.
-/

structure RingBuffer (α : Type*) (n : ℕ) where
  head : Fin (n + 1)
  tail : Fin (n + 1)
  slots : Fin (n + 1) → α

namespace RingBuffer

open List Function
open scoped Fin.NatCast Fin.CommRing
variable {α : Type*} {n : ℕ} (r : RingBuffer α n) {a : α}

/-- A ring without elements; `a` fills the slots. -/
def empty (a : α) : RingBuffer α n := ⟨0,0,fun _ => a⟩

/-- The elements, the oldest first. -/
def contents : List α :=
  (List.range (r.head - r.tail).val).map fun k : ℕ => r.slots (r.tail + (k : Fin (n + 1)))

def Full : Prop := r.head + 1 = r.tail

instance : Decidable r.Full := inferInstanceAs (Decidable (_ = _))

/-- Add an element; a full ring stays as it is. -/
def push (a : α) : RingBuffer α n :=
  if r.Full then r else { r with slots := update r.slots r.head a, head := r.head + 1 }

/-- Take the oldest element off. -/
def pull : RingBuffer α n := { r with tail := r.tail + 1 }

theorem push_full (h : r.Full) : r.push a = r := if_pos h

theorem val_add_one_of_ne {d : Fin (n + 1)} (h : d + 1 ≠ 0) : (d + 1).val = d.val + 1 := by
  rw [Fin.val_add_one,if_neg]
  rintro rfl
  exact h (Fin.last_add_one n)

theorem tail_add_sub : r.tail + ((r.head - r.tail).val : Fin (n + 1)) = r.head := by
  simp

/-- The slot at `head` is not one of those in use. -/
theorem tail_add_ne {k : ℕ} (hk : k < (r.head - r.tail).val) : r.tail + (k : Fin (n + 1)) ≠ r.head := by
  intro h
  have hd : r.head - r.tail = (k : Fin (n + 1)) := by rw [← h,add_sub_cancel_left]
  have hlt : k < n + 1 := lt_trans hk (r.head - r.tail).isLt
  rw [hd,Fin.val_natCast,Nat.mod_eq_of_lt hlt] at hk
  exact lt_irrefl _ hk

theorem contents_push (h : ¬r.Full) : (r.push a).contents = r.contents ++ [a] := by
  have hsub : r.head + 1 - r.tail = (r.head - r.tail) + 1 := by ring
  have hval : (r.head + 1 - r.tail).val = (r.head - r.tail).val + 1 := by
    rw [hsub]
    refine val_add_one_of_ne ?_
    rw [← hsub]
    exact fun h₀ => h (sub_eq_zero.mp h₀)
  rw [push,if_neg h,contents,contents]
  simp only [hval,range_succ,map_append,map_singleton,tail_add_sub,
    update_self]
  congr 1
  refine map_congr_left fun k hk => ?_
  exact update_of_ne (r.tail_add_ne (mem_range.mp hk)) a r.slots

theorem length_contents : r.contents.length = (r.head - r.tail).val := by
  rw [contents,length_map,length_range]

theorem length_contents_le : r.contents.length ≤ n := by
  rw [length_contents]
  omega

theorem full_iff : r.Full ↔ r.contents.length = n := by
  have hsub : r.head + 1 - r.tail = (r.head - r.tail) + 1 := by ring
  rw [Full,← sub_eq_zero,hsub,length_contents,← Fin.val_eq_zero_iff,Fin.val_add_one]
  by_cases h : r.head - r.tail = Fin.last n
  · grind
  · grind

theorem contents_eq_nil : r.contents = [] ↔ r.head = r.tail := by
  rw [contents,map_eq_nil_iff,range_eq_nil,Fin.val_eq_zero_iff,sub_eq_zero]

theorem contents_empty (a : α) : (empty a : RingBuffer α n).contents = [] :=
  (contents_eq_nil _).mpr rfl

theorem contents_pull (h : r.head ≠ r.tail) : r.contents = r.slots r.tail :: r.pull.contents := by
  have hsub : r.head - r.tail = (r.head - (r.tail + 1)) + 1 := by ring
  have hval : (r.head - r.tail).val = (r.head - (r.tail + 1)).val + 1 := by
    rw [hsub]
    refine val_add_one_of_ne ?_
    grind
  rw [contents,contents,hval,range_succ_eq_map,map_cons,map_map]
  simp only [pull,Nat.cast_zero,add_zero]
  congr 1
  refine map_congr_left fun k _ => ?_
  show r.slots (r.tail + ((k + 1 : ℕ) : Fin (n + 1))) = r.slots (r.tail + 1 + (k : Fin (n + 1)))
  rw [Nat.cast_succ,add_comm (k : Fin (n + 1)),add_assoc]

end RingBuffer
