import Simpad.Jffs2.FraglistInsert
import Simpad.Jffs2.FraglistTruncate

namespace Simpad.Jffs2
open Word Segments

/-- The node that byte `x` belongs to. -/
def ownerAt (l : List Frag) (x : ℕ) : Option ℕ := (valueAt l x).join

/-- The list is sorted and without gaps from 0 to `e`, no fragment is empty, and the reference
counts of its nodes are right. -/
structure IsFraglist (st : Store) (l : List Frag) (e : ℕ) : Prop where
  tiles : Tiles 0 l e
  counted : CountedBy st (fragsOf l)

/-- The nodes that have lost their last fragment, and no others, are marked. -/
def Obsoleted (st : Store) (l : List Frag) (st' : Store) (l' : List Frag) : Prop :=
  ∀ i, (st'.node i).obsolete = ((st.node i).obsolete || decide (fragsOf l i ≠ 0 ∧ fragsOf l' i = 0))

theorem addFullDnodeToFraglist_ok {alloc : ℕ → Bool} {st st' : Store} {l l' : List Frag} {fn : ℕ}
    (h : addFullDnodeToFraglist alloc st l fn = (.ok l',st')) :
    addFullDnodeToFraglist (fun _ => true) st l fn = (.ok l',st') := by
  unfold addFullDnodeToFraglist at h ⊢
  cases h0 : alloc 0 with
  | false =>
    grind
  | true =>
    cases h1 : alloc 1 with
    | true =>
      simp only [h0,h1] at h
      exact h
    | false =>
      simp only [h0,h1,Bool.not_true,Bool.not_false,Bool.false_eq_true,if_false,if_true] at h ⊢
      by_cases hs : (st.node fn).fn.size = 0
      · grind
      · simp only [hs,if_false] at h ⊢
        split at h
        · grind
        · split_ifs at h with hl hin
          · cases (Prod.mk.inj h).1
          · grind
          · grind

theorem Inserted.owner {st st' : Store} {l l' : List Frag} {e fn ofs stop : ℕ}
    (h : Inserted st l e fn ofs stop st' l') (ht : Tiles 0 l e) (x : ℕ) :
    ownerAt l' x = if ofs ≤ x ∧ x < stop then some fn else ownerAt l x := by
  unfold ownerAt
  rw [h.value x]
  by_cases hx : ofs ≤ x ∧ x < stop
  · rw [if_pos hx,if_pos hx]
    rfl
  · rw [if_neg hx,if_neg hx]
    by_cases hgap : e ≤ x ∧ x < ofs
    · -- the new hole had no owner before
      rw [if_pos hgap,ht.valueAt_ge hgap.1]
      rfl
    · rw [if_neg hgap]

/-- A node that is laid over the list takes its bytes and nothing else; a truncation keeps the
bytes below the size.  Both mark the nodes that have no fragment left. -/
theorem fraglist_edits {st : Store} {l : List Frag} {e : ℕ} (hl : IsFraglist st l e)
    (he : e < 4294967296) :
    (∀ alloc fn l' st', 0 < (st.node fn).fn.size → fragsOf l fn = 0 →
      (st.node fn).fn.ofs + (st.node fn).fn.size < 4294967296 →
      addFullDnodeToFraglist alloc st l fn = (.ok l',st') →
      IsFraglist st' l' (max e ((st.node fn).fn.ofs + (st.node fn).fn.size)) ∧
      (∀ x, ownerAt l' x =
        if (st.node fn).fn.ofs ≤ x ∧ x < (st.node fn).fn.ofs + (st.node fn).fn.size then some fn
        else ownerAt l x) ∧
      Obsoleted st l st' l') ∧
    ∀ size, IsFraglist (truncateFraglist st size l).2 (truncateFraglist st size l).1 (min e size) ∧
      (∀ x, ownerAt (truncateFraglist st size l).1 x = if x < size then ownerAt l x else none) ∧
      Obsoleted st l (truncateFraglist st size l).2 (truncateFraglist st size l).1 := by
  constructor
  · intro alloc fn l' st' hsize hfn hfit h
    obtain ⟨l'',st'',hadd,hins⟩ := addFullDnodeToFraglist_spec hl.tiles he hsize hfit hl.counted hfn
    obtain ⟨h₁,rfl⟩ := Prod.mk.inj ((addFullDnodeToFraglist_ok h).symm.trans hadd)
    obtain rfl := Except.ok.inj h₁
    exact ⟨⟨hins.tiles,hins.counted⟩,hins.owner hl.tiles,hins.obsolete⟩
  · intro size
    have hlt : ∀ i, 0 + fragsOf l i < 4294967296 := by
      intro i
      have := fragsOf_le_length l i
      have := length_le_of_tiles hl.tiles
      omega
    have hc : CountedBy st fun i => 0 + fragsOf l i := by simpa only [zero_add] using hl.counted
    have ht : Truncated st size l (fun _ => 0) (truncateFraglist st size l) :=
      truncateFraglist_spec hl.tiles he hc hlt
    refine ⟨⟨truncateFraglist_tiles hl.tiles he (Nat.zero_le _),?_⟩,fun x => ?_,fun i => ?_⟩
    · simpa only [zero_add] using ht.counted
    · unfold ownerAt
      rw [ht.value x]
      split <;> rfl
    · simpa only [zero_add] using ht.obsolete i

/-- A store with the references `fn`. -/
def storeOf (fn : ℕ → FullDnode) : Store :=
  ⟨3,fun i => ⟨.inode ⟨68,i,.reg,0,(fn i).ofs,0,(fn i).size,.zero⟩ [],false,fn i⟩⟩

theorem fraglist_edits_split : ∃ l' st', addFullDnodeToFraglist (fun _ => true)
      (storeOf fun i => if i = 0 then ⟨0,10,1⟩ else ⟨4,3,0⟩) [⟨0,10,some 0⟩] 1 = (.ok l',st') ∧
    IsFraglist st' l' 10 ∧ ownerAt l' 5 = some 1 ∧ ownerAt l' 8 = some 0 := by
  have hl : IsFraglist (storeOf fun i => if i = 0 then ⟨0,10,1⟩ else ⟨4,3,0⟩) [⟨0,10,some 0⟩] 10 := by
    refine ⟨⟨rfl,by decide,rfl⟩,fun i hi => ?_⟩
    obtain ⟨f,hf,hv⟩ := fragsOf_ne_zero.mp hi
    rw [List.mem_singleton.mp hf] at hv
    cases hv
    rfl
  obtain ⟨hi,ho,-⟩ := (fraglist_edits hl (by decide)).1 (fun _ => true) 1 _ _ (by decide) (by decide)
    (by decide) rfl
  exact ⟨_,_,rfl,hi,(ho 5).trans (by decide),(ho 8).trans (by decide)⟩

/-- Where the list ends at 2^32, the end of its last fragment is taken for 0. -/
theorem fraglist_end_wraps : ∃ l' st', addFullDnodeToFraglist (fun _ => true)
      (storeOf fun i => if i = 0 then ⟨0,2147483648,1⟩ else if i = 1 then ⟨2147483648,2147483648,1⟩
        else ⟨2147483658,10,0⟩) [⟨0,2147483648,some 0⟩,⟨2147483648,2147483648,some 1⟩] 2 =
      (.ok l',st') ∧
    IsFraglist (storeOf fun i => if i = 0 then ⟨0,2147483648,1⟩
      else if i = 1 then ⟨2147483648,2147483648,1⟩ else ⟨2147483658,10,0⟩)
      [⟨0,2147483648,some 0⟩,⟨2147483648,2147483648,some 1⟩] 4294967296 ∧
    ownerAt l' 2147483658 ≠ some 2 := by
  refine ⟨_,_,rfl,⟨⟨rfl,by decide,rfl,by decide,rfl⟩,fun i hi => ?_⟩,by decide⟩
  obtain ⟨f,hf,hv⟩ := fragsOf_ne_zero.mp hi
  rcases List.mem_cons.mp hf with rfl | hf
  · cases hv
    rfl
  · rw [List.mem_singleton.mp hf] at hv
    cases hv
    rfl

end Simpad.Jffs2
