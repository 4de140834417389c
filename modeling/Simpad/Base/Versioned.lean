import Mathlib.Tactic

/-!
# Maps given by versioned writes

A set of writes, each covering some positions under a version.  At a position
the write of the highest version shows.
-/

namespace Versioned
variable {ι : Type*} {ver ver' : ι → ℕ} {cov cov' : ι → ℕ → Prop} {S T : Set ι} {p : ℕ}
  {u v : Option ι} {n : ι}

/-- What shows at `p` when the writes in `S` are there. -/
def Shows (ver : ι → ℕ) (cov : ι → ℕ → Prop) (S : Set ι) (p : ℕ) : Option ι → Prop
  | none => ∀ j ∈ S, ¬cov j p
  | some i => i ∈ S ∧ cov i p ∧ ∀ j ∈ S, cov j p → ver j ≤ ver i

theorem Shows.unique (hu : Shows ver cov S p u) (hv : Shows ver cov S p v)
    (hinj : Set.InjOn ver S) : u = v := by
  cases u with
  | none =>
    cases v with
    | none => rfl
    | some j => exact absurd hv.2.1 (hu j hv.1)
  | some i =>
    cases v with
    | none => exact absurd hu.2.1 (hv i hu.1)
    | some j =>
      have h₁ := hu.2.2 j hv.1 hv.2.1
      have h₂ := hv.2.2 i hu.1 hu.2.1
      rw [hinj hu.1 hv.1 (le_antisymm h₂ h₁)]

section
variable (h : Shows ver cov S p v)
include h

theorem Shows.subset (hT : T ⊆ S) (hv : ∀ i, v = some i → i ∈ T) :
    Shows ver cov T p v := by
  cases v with
  | none => exact fun j hj => h j (hT hj)
  | some i => exact ⟨hv i rfl,h.2.1,fun j hj => h.2.2 j (hT hj)⟩

theorem Shows.congr (hver : ∀ i ∈ S, ver' i = ver i)
    (hcov : ∀ i ∈ S, cov' i p ↔ cov i p) : Shows ver' cov' S p v := by
  cases v with
  | none => exact fun j hj hc => h j hj ((hcov j hj).mp hc)
  | some i =>
    refine ⟨h.1,(hcov i h.1).mpr h.2.1,fun j hj hc => ?_⟩
    rw [hver j hj,hver i h.1]
    exact h.2.2 j hj ((hcov j hj).mp hc)

/-- Writes under other names show where they did, and so do their copies. -/
theorem Shows.relabel {κ : Type*} {r : ι → κ} {ver' : κ → ℕ} {cov' : κ → ℕ → Prop}
 (hver : ∀ i ∈ S, ver' (r i) = ver i)
    (hcov : ∀ i ∈ S, cov' (r i) p ↔ cov i p) : Shows ver' cov' (r '' S) p (v.map r) := by
  cases v with
  | none =>
    rintro _ ⟨j,hj,rfl⟩ hc
    exact h j hj ((hcov j hj).mp hc)
  | some i =>
    refine ⟨Set.mem_image_of_mem r h.1,(hcov i h.1).mpr h.2.1,?_⟩
    rintro _ ⟨j,hj,rfl⟩ hc
    rw [hver j hj,hver i h.1]
    exact h.2.2 j hj ((hcov j hj).mp hc)

/-- A write newer than all others shows wherever it covers. -/
theorem Shows.insert_newest (hn : ∀ j ∈ S, ver j ≤ ver n) :
    (cov n p → Shows ver cov (insert n S) p (some n)) ∧
    (¬cov n p → Shows ver cov (insert n S) p v) := by
  constructor
  · intro hc
    refine ⟨Set.mem_insert n S,hc,fun j hj _ => ?_⟩
    grind
  · intro hc
    cases v with
    | none =>
      rintro j (rfl | hj)
      · exact hc
      · exact h j hj
    | some i =>
      refine ⟨Set.mem_insert_of_mem n h.1,h.2.1,?_⟩
      rintro j (rfl | hj) hj'
      · exact absurd hj' hc
      · exact h.2.2 j hj hj'

end

end Versioned
