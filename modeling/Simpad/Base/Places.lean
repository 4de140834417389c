import Simpad.Base.Word

/-!
# Things in places, and what they weigh

`Located` ties lists of things, one list for each place, to a function that says
where each thing is.  `weighs_update` changes one thing and its weight in a sum
that a 32-bit counter keeps.
-/

namespace Places

open Function
variable {ι P : Type*}

/-- Each thing is where `loc` says, once, and nowhere else. -/
structure Located (cells : P → List ι) (loc : ι → Option P) : Prop where
  nodup : ∀ p, (cells p).Nodup
  mem : ∀ p i, i ∈ cells p ↔ loc i = some p

variable {cells : P → List ι} {loc : ι → Option P} {p q : P} {i : ι}

theorem Located.not_mem (h : Located cells loc) (hi : loc i = some p) (hq : q ≠ p) :
    i ∉ cells q := by
  intro hm
  have := hi.symm.trans ((h.mem q i).mp hm)
  exact hq (Option.some.inj this).symm

theorem Located.existsUnique (h : Located cells loc) (hi : loc i ≠ none) : ∃! p, i ∈ cells p := by
  obtain ⟨p,hp⟩ := Option.ne_none_iff_exists'.mp hi
  refine ⟨p,(h.mem p i).mpr hp,fun q hq => ?_⟩
  exact Option.some.inj (((h.mem q i).mp hq).symm.trans hp)

variable [DecidableEq ι] [DecidableEq P]

theorem Located.take (h : Located cells loc) (hi : loc i = some p) :
    Located (update cells p ((cells p).erase i)) (update loc i none) := by
  refine ⟨fun q => ?_,fun q j => ?_⟩
  · by_cases hq : q = p
    · subst hq
      rw [update_self]
      exact (h.nodup q).erase i
    · rw [update_of_ne hq]
      exact h.nodup q
  · by_cases hj : j = i
    · subst hj
      refine iff_of_false (fun hm => ?_) (by simp)
      by_cases hq : q = p
      · subst hq
        rw [update_self] at hm
        exact (h.nodup q).not_mem_erase hm
      · rw [update_of_ne hq] at hm
        exact h.not_mem hi hq hm
    · rw [update_of_ne hj,← h.mem q j]
      grind

theorem Located.put {l : List ι} (h : Located cells loc) (hi : loc i = none)
    (hl : l.Perm (i :: cells p)) :
    Located (update cells p l) (update loc i (some p)) := by
  have hnot (q : P) : i ∉ cells q := fun hm => by
    rw [(h.mem q i).mp hm] at hi
    cases hi
  refine ⟨fun q => ?_,fun q j => ?_⟩
  · by_cases hq : q = p
    · subst hq
      rw [update_self,hl.nodup_iff,List.nodup_cons]
      exact ⟨hnot q,h.nodup q⟩
    · rw [update_of_ne hq]
      exact h.nodup q
  · by_cases hq : q = p
    · subst hq
      rw [update_self,hl.mem_iff,List.mem_cons,h.mem q j]
      grind
    · rw [update_of_ne hq,h.mem q j]
      grind

theorem Located.move {l : List ι} (h : Located cells loc) (hi : loc i = some p)
    (hl : l.Perm (i :: update cells p ((cells p).erase i) q)) :
    Located (update (update cells p ((cells p).erase i)) q l)
      (update loc i (some q)) := by
  have := (h.take hi).put (update_self _ _ _) hl
  rwa [update_idem] at this

section
open Word

theorem sum_update {n b : ℕ} (hb : b < n) {f g : ℕ → ℕ} (h : ∀ i, i ≠ b → f i = g i) :
    (∑ i ∈ Finset.range n, f i) + g b = (∑ i ∈ Finset.range n, g i) + f b := by
  have hm : b ∈ Finset.range n := Finset.mem_range.mpr hb
  rw [← Finset.add_sum_erase _ f hm,← Finset.add_sum_erase _ g hm]
  have : ∑ i ∈ (Finset.range n).erase b, f i = ∑ i ∈ (Finset.range n).erase b, g i :=
    Finset.sum_congr rfl fun i hi => h i (Finset.ne_of_mem_erase hi)
  omega

/-- A 32-bit counter that follows the change of one weight keeps the sum. -/
theorem counter_update {n b size : ℕ} (hb : b < n) {f g : ℕ → ℕ} (h : ∀ i, i ≠ b → f i = g i)
    (hlt : ∑ i ∈ Finset.range n, f i < 4294967296) (hsize : size < 4294967296)
    (hmod : u32 (size + g b) = u32 ((∑ i ∈ Finset.range n, g i) + f b)) :
    size = ∑ i ∈ Finset.range n, f i := by
  rw [← sum_update hb h] at hmod
  simp only [u32] at hmod
  omega

end
end Places
