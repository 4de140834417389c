import Simpad.Jffs2.Fraglist

namespace Simpad.Jffs2
open Word Segments

structure Truncated (st : Store) (size : ℕ) (l : List Frag) (c : ℕ → ℕ)
    (r : List Frag × Store) : Prop extends Dropped st l c r where
  value : ∀ p, valueAt r.1 p = if p < size then valueAt l p else none
  start : ∀ p, IsStart r.1 p ↔ IsStart l p ∧ p < size

variable {a b size : ℕ} {st : Store} {l : List Frag}

theorem truncateFraglist_behind (ht : Tiles a l b) (hs : size ≤ a) :
    truncateFraglist st size l = ([],l.foldl obsoleteNodeFrag st) := by
  induction l generalizing st a with
  | nil => rfl
  | cons this next ih =>
    have h₁ := ht.1
    have hstop : this.stop = this.ofs + this.size := rfl
    rw [truncateFraglist,if_pos (by omega),ih ht.2.2 (by omega),List.foldl_cons]

theorem truncateFraglist_cons {this : Frag} {next : List Frag} (hs : ¬size ≤ this.ofs) :
    truncateFraglist st size (this :: next) =
      (⟨this.ofs,if size < fend this then sub32 size this.ofs else this.size,this.val⟩ ::
        (truncateFraglist st size next).1,(truncateFraglist st size next).2) := by
  rw [truncateFraglist,if_neg hs]

theorem truncateFraglist_tiles (ht : Tiles a l b) (hb : b < 4294967296) (ha : a ≤ size) :
    Tiles a (truncateFraglist st size l).1 (min b size) := by
  induction l generalizing st a with
  | nil =>
    have hab : a = b := ht
    change a = min b size
    omega
  | cons this next ih =>
    have h₁ := ht.1
    have hend : fend this = this.stop := fend_eq_stop ht hb List.mem_cons_self
    have hstop : this.stop = this.ofs + this.size := rfl
    have hle := ht.2.2.le
    have hpos := ht.2.1
    by_cases hs : size ≤ a
    · rw [truncateFraglist_behind ht hs]
      change a = min b size
      omega
    · rw [truncateFraglist_cons (by omega),hend]
      by_cases hc : size < this.stop
      · rw [if_pos hc,truncateFraglist_behind ht.2.2 (by omega)]
        have hsub : sub32 size this.ofs = size - this.ofs := sub32_of_le (by omega) (by omega)
        refine ⟨h₁,by simp only; omega,?_⟩
        change this.ofs + sub32 size this.ofs = min b size
        omega
      · rw [if_neg hc]
        have hrest : this.stop ≤ size := by omega
        exact ⟨h₁,hpos,ih ht.2.2 hrest⟩

theorem truncateFraglist_spec {c : ℕ → ℕ} (ht : Tiles a l b) (hb : b < 4294967296)
    (hc : CountedBy st fun i => c i + fragsOf l i) (hlt : ∀ i, c i + fragsOf l i < 4294967296) :
    Truncated st size l c (truncateFraglist st size l) := by
  induction l generalizing st a c with
  | nil =>
    rw [truncateFraglist]
    exact ⟨⟨.refl st,hc,by simp,by simp⟩,by simp,by simp⟩
  | cons this next ih =>
    have h₁ := ht.1
    have hend : fend this = this.stop := fend_eq_stop ht hb List.mem_cons_self
    by_cases hs : size ≤ this.ofs
    · -- every fragment goes
      rw [truncateFraglist_behind ht (by omega)]
      rw [← List.append_nil (this :: next)] at hc hlt
      have hdrop := dropped_foldl (r := []) hc hlt fun _ => rfl
      rw [List.append_nil] at hdrop
      refine ⟨hdrop,?_,?_⟩
      · intro p
        by_cases hp : p < size
        · rw [if_pos hp,ht.valueAt_lt (by omega)]
          rfl
        · rw [if_neg hp]
          rfl
      · intro p
        simp only [not_isStart_nil,false_iff]
        rintro ⟨h,hp⟩
        have := h.bounds ht
        omega
    · have hnext : CountedBy st fun i => (c i + if this.val = some i then 1 else 0) + fragsOf next i := by
        simpa [add_assoc,add_comm (fragsOf next _)] using hc
      have ih := ih ht.2.2 hnext
        (by
          intro i
          have := hlt i
          simp only [fragsOf_cons] at this
          omega)
      rw [truncateFraglist_cons hs,hend]
      refine ⟨⟨ih.same,?_,?_,?_⟩,?_,?_⟩
      · intro i hi
        have := ih.counted i
        simp only [fragsOf_cons] at this hi ⊢
        omega
      · intro i
        have := ih.frags i
        simp only [fragsOf_cons]
        omega
      · intro i
        rw [ih.obsolete i]
        congr 2
        apply propext
        simp only [fragsOf_cons]
        split <;> omega
      · intro p
        by_cases hcut : size < this.stop
        · -- nothing is left of `next`
          have hsub : this.ofs + sub32 size this.ofs = size := by
            rw [sub32_of_le (by omega) (by have := ht.2.2.le; omega)]
            omega
          rw [if_pos hcut,truncateFraglist_behind ht.2.2 (by omega)]
          by_cases hp : this.ofs ≤ p ∧ p < size
          · have hp' : p < this.stop := by omega
            rw [if_pos hp.2,valueAt_cons_pos hp.1 hp']
            exact valueAt_cons_pos hp.1 (by rw [stop_mk,hsub]; exact hp.2)
          · rw [valueAt_cons_neg (by rw [stop_mk,hsub]; exact hp),valueAt_nil]
            by_cases hps : p < size
            · rw [if_pos hps,ht.valueAt_lt (by omega)]
            · rw [if_neg hps]
        · rw [if_neg hcut]
          by_cases hp : this.ofs ≤ p ∧ p < this.stop
          · rw [if_pos (by omega),valueAt_cons_pos hp.1 hp.2,valueAt_cons_pos hp.1 hp.2]
          · rw [valueAt_cons_neg hp,valueAt_cons_neg hp,ih.value p]
      · intro p
        simp only [isStart_cons,ih.start]
        constructor
        · grind
        · grind

end Simpad.Jffs2
