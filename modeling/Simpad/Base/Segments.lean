import Mathlib.Tactic

/-!
# Lists of adjacent segments

A map from positions to values, stored as a list of segments that follow each
other without gap.  `Tiles a l b` says that `l` covers exactly `[a,b)`;
`valueAt` reads the map.
-/

namespace Segments

open List

structure Segment (α : Type*) where
  ofs : ℕ
  size : ℕ
  val : α
deriving DecidableEq, Repr

variable {α : Type*} {a b m p x : ℕ} {l l₁ l₂ : List (Segment α)} {s : Segment α} {v : α}

def Segment.stop (s : Segment α) : ℕ := s.ofs + s.size

/-- The value of the segment that holds position `p`. -/
def valueAt : List (Segment α) → ℕ → Option α
  | [], _ => none
  | s :: l, p => if s.ofs ≤ p ∧ p < s.stop then some s.val else valueAt l p

/-- The segments cover `[a,b)` from left to right, none of them empty. -/
def Tiles : ℕ → List (Segment α) → ℕ → Prop
  | a, [], b => a = b
  | a, s :: l, b => s.ofs = a ∧ 0 < s.size ∧ Tiles s.stop l b

@[simp] theorem valueAt_nil : valueAt ([] : List (Segment α)) p = none := rfl

@[simp] theorem stop_mk (o n : ℕ) (v : α) : (⟨o,n,v⟩ : Segment α).stop = o + n := rfl

theorem valueAt_cons_pos (ho : s.ofs ≤ p) (hp : p < s.stop) :
    valueAt (s :: l) p = some s.val := if_pos ⟨ho,hp⟩

theorem valueAt_cons_neg (h : ¬(s.ofs ≤ p ∧ p < s.stop)) : valueAt (s :: l) p = valueAt l p :=
  if_neg h

theorem valueAt_append : valueAt (l₁ ++ l₂) p = (valueAt l₁ p).or (valueAt l₂ p) := by
  induction l₁ with
  | nil => rfl
  | cons s l ih =>
    simp only [cons_append,valueAt]
    split
    · rfl
    · exact ih

theorem valueAt_map {β : Type*} (f : α → β) :
    valueAt (l.map fun s => (⟨s.ofs,s.size,f s.val⟩ : Segment β)) p = (valueAt l p).map f := by
  induction l with
  | nil => rfl
  | cons s l ih =>
    by_cases hp : s.ofs ≤ p ∧ p < s.stop
    · rw [valueAt_cons_pos hp.1 hp.2]
      exact valueAt_cons_pos hp.1 hp.2
    · rw [valueAt_cons_neg hp,← ih]
      exact valueAt_cons_neg hp

theorem exists_mem_of_valueAt (h : valueAt l p = some v) :
    ∃ s ∈ l, s.val = v ∧ s.ofs ≤ p ∧ p < s.stop := by
  induction l with
  | nil => cases h
  | cons s l ih =>
    simp only [valueAt] at h
    split at h
    · grind
    · obtain ⟨t,ht,hv⟩ := ih h
      exact ⟨t,mem_cons_of_mem _ ht,hv⟩

namespace Tiles

theorem le (h : Tiles a l b) : a ≤ b := by
  induction l generalizing a with
  | nil => exact Nat.le_of_eq h
  | cons s l ih =>
    have := ih h.2.2
    have := h.1
    unfold Segment.stop at *
    omega

theorem append_iff : Tiles a (l₁ ++ l₂) b ↔ ∃ m, Tiles a l₁ m ∧ Tiles m l₂ b := by
  induction l₁ generalizing a with
  | nil => exact ⟨fun h => ⟨a,rfl,h⟩,fun ⟨m,hm,h⟩ => by cases hm; exact h⟩
  | cons s l ih =>
    simp only [cons_append,Tiles,ih]
    constructor
    · grind
    · grind

theorem append (h₁ : Tiles a l₁ m) (h₂ : Tiles m l₂ b) : Tiles a (l₁ ++ l₂) b :=
  append_iff.mpr ⟨m,h₁,h₂⟩

section
variable (h : Tiles a l b)
include h

theorem valueAt_lt (hp : p < a) : valueAt l p = none := by
  induction l generalizing a with
  | nil => rfl
  | cons s l ih =>
    have hs := h.1
    have hi := ih (a := s.stop) h.2.2 (by unfold Segment.stop; omega)
    rw [valueAt,if_neg (by omega),hi]

theorem valueAt_ge (hp : b ≤ p) : valueAt l p = none := by
  induction l generalizing a with
  | nil => rfl
  | cons s l ih =>
    have hle := h.2.2.le
    rw [valueAt,if_neg (by omega),ih h.2.2]

omit h in
theorem valueAt_append_lt (h : Tiles m l₂ b) (hp : p < m) :
    valueAt (l₁ ++ l₂) p = valueAt l₁ p := by
  rw [valueAt_append,h.valueAt_lt hp,Option.or_none]

omit h in
theorem valueAt_append_ge (h : Tiles a l₁ m) (hp : m ≤ p) :
    valueAt (l₁ ++ l₂) p = valueAt l₂ p := by
  rw [valueAt_append,h.valueAt_ge hp,Option.none_or]

theorem mem_bounds (hs : s ∈ l) : a ≤ s.ofs ∧ 0 < s.size ∧ s.stop ≤ b := by
  induction l generalizing a with
  | nil => cases hs
  | cons t l ih =>
    have ho := h.1
    have hle := h.2.2.le
    rcases mem_cons.mp hs with rfl | hs
    · exact ⟨by omega,h.2.1,hle⟩
    · obtain ⟨h₁,h₂,h₃⟩ := ih h.2.2 hs
      exact ⟨by unfold Segment.stop at h₁; omega,h₂,h₃⟩

theorem valueAt_of_mem (hs : s ∈ l) (ho : s.ofs ≤ p) (hp : p < s.stop) :
    valueAt l p = some s.val := by
  induction l generalizing a with
  | nil => cases hs
  | cons t l ih =>
    rcases mem_cons.mp hs with rfl | hs
    · rw [valueAt,if_pos ⟨ho,hp⟩]
    · have := (h.2.2.mem_bounds hs).1
      rw [valueAt,if_neg (by omega),ih h.2.2 hs]

theorem pairwise : l.Pairwise fun s t => s.stop ≤ t.ofs := by
  induction l generalizing a with
  | nil => exact List.Pairwise.nil
  | cons s l ih =>
    exact pairwise_cons.mpr ⟨fun t ht => (h.2.2.mem_bounds ht).1,ih h.2.2⟩

theorem stop_le (hs : s ∈ l) {t : Segment α} (ht : t ∈ l) (hlt : s.ofs < t.ofs) :
    s.stop ≤ t.ofs := by
  induction l generalizing a with
  | nil => cases hs
  | cons u l ih =>
    rcases mem_cons.mp hs with rfl | hs'
    · rcases mem_cons.mp ht with rfl | ht'
      · omega
      · exact (h.2.2.mem_bounds ht').1
    · rcases mem_cons.mp ht with rfl | ht'
      · have hu : t.stop = t.ofs + t.size := rfl
        have := (h.2.2.mem_bounds hs').1
        omega
      · exact ih h.2.2 hs' ht'

theorem map {β : Type*} (f : α → β) :
    Tiles a (l.map fun s => (⟨s.ofs,s.size,f s.val⟩ : Segment β)) b := by
  induction l generalizing a with
  | nil => exact h
  | cons s l ih => exact ⟨h.1,h.2.1,ih h.2.2⟩

/-- Cutting the list where segments stop ending at or before `x`. -/
theorem cut (x : ℕ) : ∃ m,
    Tiles a (l.takeWhile fun s => s.stop ≤ x) m ∧
    Tiles m (l.dropWhile fun s => s.stop ≤ x) b ∧ m ≤ max a x ∧
    (∀ s t, (l.dropWhile fun s => s.stop ≤ x) = s :: t → s.ofs = m ∧ x < s.stop) := by
  induction l generalizing a with
  | nil => exact ⟨a,rfl,h,le_max_left _ _,by simp⟩
  | cons s l ih =>
    by_cases hs : s.stop ≤ x
    · obtain ⟨m,h₁,h₂,h₃,h₄⟩ := ih h.2.2
      simp only [takeWhile_cons,dropWhile_cons,hs,decide_true,if_true]
      exact ⟨m,⟨h.1,h.2.1,h₁⟩,h₂,by omega,h₄⟩
    · simp only [takeWhile_cons,dropWhile_cons,hs,decide_false]
      refine ⟨a,rfl,h,le_max_left _ _,?_⟩
      rintro t u ht
      obtain ⟨rfl,rfl⟩ := List.cons.inj ht
      exact ⟨h.1,by omega⟩

theorem length_le : a + l.length ≤ b := by
  induction l generalizing a with
  | nil => exact Nat.le_of_eq h
  | cons s l ih =>
    have hs := ih h.2.2
    have ho := h.1
    have hpos := h.2.1
    unfold Segment.stop at hs
    rw [length_cons]
    omega

theorem exists_split (hx : x = b ∨ ∃ s ∈ l, s.ofs = x) :
    ∃ l₁ l₂, l = l₁ ++ l₂ ∧ Tiles a l₁ x ∧ Tiles x l₂ b := by
  induction l generalizing a with
  | nil =>
    obtain rfl | ⟨s,hs,-⟩ := hx
    · exact ⟨[],[],rfl,h,rfl⟩
    · cases hs
  | cons s l ih =>
    by_cases hs : s.ofs = x
    · exact ⟨[],s :: l,rfl,by rw [← hs]; exact h.1.symm,hs,h.2⟩
    · have hx' : x = b ∨ ∃ t ∈ l, t.ofs = x := by
        refine hx.imp_right ?_
        grind
      obtain ⟨l₁,l₂,rfl,h₁,h₂⟩ := ih h.2.2 hx'
      exact ⟨s :: l₁,l₂,rfl,⟨h.1,h.2.1,h₁⟩,h₂⟩

end

/-- The segments inside a range that starts and ends where segments do. -/
theorem filter_inside {l₃ : List (Segment α)} (h₁ : Tiles a l₁ x) (h₂ : Tiles x l₂ m)
    (h₃ : Tiles m l₃ b) :
    (l₁ ++ (l₂ ++ l₃)).filter (fun s => x ≤ s.ofs ∧ s.stop ≤ m) = l₂ := by
  have e₁ : l₁.filter (fun s => x ≤ s.ofs ∧ s.stop ≤ m) = [] := by
    apply filter_eq_nil_iff.mpr
    intro s hs hin
    obtain ⟨-,hpos,hle⟩ := h₁.mem_bounds hs
    have hin := of_decide_eq_true hin
    unfold Segment.stop at hle
    omega
  have e₂ : l₂.filter (fun s => x ≤ s.ofs ∧ s.stop ≤ m) = l₂ := by
    apply filter_eq_self.mpr
    intro s hs
    obtain ⟨hge,-,hle⟩ := h₂.mem_bounds hs
    exact decide_eq_true ⟨hge,hle⟩
  have e₃ : l₃.filter (fun s => x ≤ s.ofs ∧ s.stop ≤ m) = [] := by
    apply filter_eq_nil_iff.mpr
    intro s hs hin
    obtain ⟨hge,hpos,-⟩ := h₃.mem_bounds hs
    have hin := of_decide_eq_true hin
    unfold Segment.stop at hin
    omega
  grind

end Tiles

end Segments
