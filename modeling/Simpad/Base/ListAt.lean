import Mathlib.Tactic

/-!
# Entries of a list

A list around one of its entries, and what modifying the entry leaves as it is.
-/

namespace ListAt

open List

variable {α β : Type*} {l : List α} {f : α → α} {i j : ℕ} {b : α}

/-- The entry at `j` with what is before and behind it. -/
theorem split_at (h : l[j]? = some b) :
    ∃ pre post, l = pre ++ b :: post ∧ pre.length = j ∧ ∀ f, l.modify j f = pre ++ f b :: post := by
  induction l generalizing j with
  | nil => cases h
  | cons x l ih =>
    cases j with
    | zero =>
      cases h
      simp
    | succ j =>
      obtain ⟨pre,post,hl,hj,hm⟩ := ih h
      grind

theorem getElem?_modify_some (h : (l.modify i f)[j]? = some b) :
    ∃ b₀, l[j]? = some b₀ ∧ b = if i = j then f b₀ else b₀ := by
  rw [getElem?_modify] at h
  obtain ⟨b₀,hb₀,rfl⟩ := Option.map_eq_some_iff.mp h
  exact ⟨b₀,hb₀,rfl⟩

theorem getElem?_modify_of_ne (hij : j ≠ i) (h : (l.modify i f)[j]? = some b) : l[j]? = some b := by
  grind

theorem map_modify {g : α → β} (hg : ∀ x, g (f x) = g x) (l : List α) (i : ℕ) :
    (l.modify i f).map g = l.map g := by
  induction l generalizing i with
  | nil => simp
  | cons x l ih =>
    grind

variable {post pre : List α} {g : α → List β}

theorem flatMap_modify (hg : ∀ x, g (f x) = g x) (l : List α) (i : ℕ) :
    (l.modify i f).flatMap g = l.flatMap g := by
  rw [flatMap_def,flatMap_def,map_modify hg]

theorem getElem?_behind (pre : List α) (b : α) {x : α} (h : x ∈ post) :
    ∃ j, pre.length < j ∧ (pre ++ b :: post)[j]? = some x := by
  obtain ⟨k,hk⟩ := mem_iff_getElem?.mp h
  refine ⟨pre.length + (k + 1),by omega,?_⟩
  grind

theorem getElem?_front (b : α) (post : List α) {x : α} (h : x ∈ pre) :
    ∃ j, j < pre.length ∧ (pre ++ b :: post)[j]? = some x := by
  obtain ⟨k,hk⟩ := mem_iff_getElem?.mp h
  have hlt := (List.getElem?_eq_some_iff.mp hk).1
  grind

theorem flatMap_front_eq_nil
    (h : ∀ j x, (pre ++ b :: post)[j]? = some x → j < pre.length → g x = []) :
    pre.flatMap g = [] := by
  refine flatMap_eq_nil_iff.mpr fun x hx => ?_
  obtain ⟨j,hj,hget⟩ := getElem?_front b post hx
  exact h j x hget hj

theorem flatMap_behind_eq_nil
    (h : ∀ j x, (pre ++ b :: post)[j]? = some x → pre.length < j → g x = []) :
    post.flatMap g = [] := by
  refine flatMap_eq_nil_iff.mpr fun x hx => ?_
  obtain ⟨j,hj,hget⟩ := getElem?_behind pre b hx
  exact h j x hget hj

/-- One of the lists of a family has one entry more. -/
theorem flatMap_range_perm {f g : ℕ → List α} {n o : ℕ} (ho : o < n) (hf : (f o).Perm (b :: g o))
    (hne : ∀ j < n, j ≠ o → f j = g j) :
    ((range n).flatMap f).Perm (b :: (range n).flatMap g) := by
  induction n with
  | zero => omega
  | succ n ih =>
    rw [range_succ,flatMap_append,flatMap_append,flatMap_singleton,
      flatMap_singleton]
    rcases Nat.lt_succ_iff_lt_or_eq.mp ho with hlt | rfl
    · rw [hne n n.lt_succ_self hlt.ne']
      exact (ih hlt fun j hj => hne j (hj.trans n.lt_succ_self)).append_right _
    · -- the lists in front are the same
      have hpre : (range o).flatMap f = (range o).flatMap g :=
        flatMap_congr fun j hj =>
          hne j ((mem_range.mp hj).trans o.lt_succ_self) (mem_range.mp hj).ne
      rw [hpre]
      exact (hf.append_left _).trans perm_middle

end ListAt
