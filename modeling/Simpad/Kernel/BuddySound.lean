import Simpad.Kernel.Buddy

namespace Simpad.Buddy
open Dyadic Word Runs
open List hiding count

variable {fuel page order currOrder n : ℕ} {held' : List Block}

namespace Zone
variable {z z' : Zone} {b c : Block} {held : List Block} {o i : ℕ}

def Free (z : Zone) (b : Block) : Prop := b.index ∈ z.freeList b.order

instance (z : Zone) (b : Block) : Decidable (z.Free b) := inferInstanceAs (Decidable (_ ∈ _))

theorem mem_freeBlocks : b ∈ z.freeBlocks ↔ b.order < maxOrder ∧ z.Free b := by
  rw [freeBlocks,mem_flatMap]
  constructor
  · rintro ⟨o,ho,hb⟩
    obtain ⟨i,hi,rfl⟩ := mem_map.mp hb
    exact ⟨mem_range.mp ho,hi⟩
  · rintro ⟨ho,hi⟩
    exact ⟨b.order,mem_range.mpr ho,mem_map.mpr ⟨b.index,hi,rfl⟩⟩

theorem freeList_listAdd (z : Zone) (o i j : ℕ) :
    (z.listAdd o i).freeList j = if j = o then i :: z.freeList o else z.freeList j :=
  Function.update_apply ..

theorem freeBlocks_listAdd (ho : b.order < maxOrder) :
    (z.listAdd b.order b.index).freeBlocks.Perm (b :: z.freeBlocks) := by
  refine ListAt.flatMap_range_perm ho ?_ fun j _ hj => ?_
  · rw [freeList_listAdd,if_pos rfl]
    exact .refl _
  · rw [freeList_listAdd,if_neg hj]

theorem free_listAdd : (z.listAdd b.order b.index).Free c ↔ c = b ∨ z.Free c := by
  rw [Free,freeList_listAdd]
  split
  · next ho =>
    rw [mem_cons,Free,ho]
    refine or_congr_left ⟨fun hi => ?_,fun hc => congrArg Block.index hc⟩
    cases c
    cases b
    simp only at ho hi
    rw [ho,hi]
  · next ho =>
    refine (or_iff_right fun hc => ho ?_).symm
    rw [hc]

/-- Every page is in just one of the blocks, and the blocks are aligned. -/
structure Cover (z : Zone) (held : List Block) : Prop where
  count : ∀ p, count (z.freeBlocks ++ held) p = if p < z.size then 1 else 0
  fits : ∀ b ∈ z.freeBlocks ++ held, b.Aligned ∧ b.order < maxOrder

theorem Cover.count_le (h : z.Cover held) (p : ℕ) : Dyadic.count (z.freeBlocks ++ held) p ≤ 1 := by
  rw [h.count]
  split <;> decide

theorem Cover.free_le (h : z.Cover held) (p : ℕ) : Dyadic.count z.freeBlocks p ≤ 1 := by
  have := h.count_le p
  rw [count_append] at this
  omega

theorem Cover.not_free (h : z.Cover held) (hb : b ∈ held) {p : ℕ} (hbp : b.Contains p)
    (hcp : c.Contains p) : c ∉ z.freeBlocks := by
  intro hc
  have hle := h.count_le p
  have := count_pos hb hbp
  have := count_pos hc hcp
  rw [count_append] at hle
  omega

theorem Cover.freeBlocks_listDel (h : z.Cover held) (hb : b ∈ z.freeBlocks) :
    z.freeBlocks.Perm (b :: (z.listDel b.index).freeBlocks) := by
  obtain ⟨ho,hfree⟩ := mem_freeBlocks.mp hb
  refine ListAt.flatMap_range_perm ho ?_ fun j hj hne => ?_
  · exact (perm_cons_erase hfree).map (Block.mk b.order)
  · -- a block of another order that begins at the same page would share it
    have hnot : b.index ∉ z.freeList j := fun hi =>
      hne (congrArg Block.order (eq_of_count (h.free_le b.index)
        (mem_freeBlocks.mpr ⟨hj,hi⟩ : Block.mk j b.index ∈ z.freeBlocks) hb
        (Block.contains_index _) b.contains_index))
    show _ = List.map (Block.mk j) ((z.freeList j).erase b.index)
    rw [erase_of_not_mem hnot]

theorem Cover.free_listDel (h : z.Cover held) (hb : b ∈ z.freeBlocks) (hc : c.order < maxOrder) :
    (z.listDel b.index).Free c ↔ c ≠ b ∧ z.Free c := by
  have hperm := h.freeBlocks_listDel hb
  have hnodup := hperm.nodup_iff.mp (nodup_of_count h.free_le)
  have hmem : ∀ z : Zone, z.Free c ↔ c ∈ z.freeBlocks := fun z =>
    (mem_freeBlocks.trans (and_iff_right hc)).symm
  rw [hmem,hmem,hperm.mem_iff,mem_cons]
  constructor
  · intro hd
    refine ⟨fun hcb => ?_,Or.inr hd⟩
    rw [hcb] at hd
    exact (nodup_cons.mp hnodup).1 hd
  · rintro ⟨hne,heq | hd⟩
    · exact absurd heq hne
    · exact hd

theorem Cover.of_perm (h : z.Cover held) (hs : z'.size = z.size)
    (hperm : (z'.freeBlocks ++ held').Perm (z.freeBlocks ++ held)) : z'.Cover held' :=
  ⟨fun p => (count_perm hperm p).trans (hs ▸ h.count p),fun c hc => h.fits c (hperm.mem_iff.mp hc)⟩

theorem Cover.held_fits (h : z.Cover held) (hb : b ∈ held) : b.Aligned ∧ b.order < maxOrder :=
  h.fits b (mem_append_right _ hb)

theorem Cover.put (h : z.Cover (b :: held)) : (z.listAdd b.order b.index).Cover held :=
  h.of_perm rfl (((freeBlocks_listAdd (h.held_fits mem_cons_self).2).append_right held).trans
    perm_middle.symm)

theorem Cover.remove (h : z.Cover held) (hb : b ∈ z.freeBlocks) :
    (z.listDel b.index).Cover (b :: held) :=
  h.of_perm rfl (perm_middle.trans ((h.freeBlocks_listDel hb).symm.append_right held))

theorem Cover.recut (h : z.Cover held) (hc : ∀ p, Dyadic.count held' p = Dyadic.count held p)
    (hf : ∀ b ∈ held', b.Aligned ∧ b.order < maxOrder) : z.Cover held' := by
  refine ⟨fun p => ?_,fun c hm => ?_⟩
  · rw [← h.count p,count_append,count_append,hc]
  · rcases mem_append.mp hm with hm | hm
    · exact h.fits c (mem_append_left _ hm)
    · exact hf c hm

theorem Cover.merge (h : z.Cover (b.buddy :: b :: held)) (ho : b.order + 1 < maxOrder) :
    z.Cover (b.parent :: held) := by
  have ha := (h.held_fits (mem_cons_of_mem _ mem_cons_self)).1
  refine h.recut (fun p => ?_) fun c hc => ?_
  · rw [count_parent ha,count_perm (List.Perm.swap _ _ held)]
  · rcases mem_cons.mp hc with rfl | hc
    · exact ⟨b.aligned_parent,ho⟩
    · exact h.held_fits (mem_cons_of_mem _ (mem_cons_of_mem _ hc))

theorem Cover.split (h : z.Cover (⟨o + 1,i⟩ :: held)) : z.Cover (⟨o,i⟩ :: ⟨o,i + 2 ^ o⟩ :: held) := by
  obtain ⟨hal,ho⟩ := h.held_fits mem_cons_self
  have ho : o < maxOrder := (Nat.lt_succ_self o).trans ho
  obtain ⟨ha,hbuddy,hparent⟩ := Block.halves hal
  refine h.recut (fun p => ?_) fun c hc => ?_
  · rw [← hparent,count_parent ha,hbuddy]
  · rcases mem_cons.mp hc with rfl | hc
    · exact ⟨ha,ho⟩
    · rcases mem_cons.mp hc with rfl | hc
      · exact ⟨hbuddy ▸ Block.buddy_aligned ha,ho⟩
      · exact h.held_fits (mem_cons_of_mem _ hc)

theorem Cover.changeBit (h : z.Cover held) (o i : ℕ) : (z.changeBit o i).Cover held :=
  ⟨h.count,h.fits⟩

/-- The bit of the pair of `b` says whether just one of the two is free, and not both are. -/
def Pair (z : Zone) (b : Block) : Prop :=
  (z.map b.order b.pair = true ↔ Xor (z.Free b) (z.Free b.buddy)) ∧ ¬(z.Free b ∧ z.Free b.buddy)

/-- The bits of all pairs below the last order. -/
def Pairs (z : Zone) : Prop := ∀ b : Block, b.Aligned → b.order + 1 < maxOrder → z.Pair b

theorem map_changeBit (z : Zone) (o i o' i' : ℕ) :
    (z.changeBit o i).map o' i' = if o' = o ∧ i' = i then !z.map o i else z.map o' i' := by
  show Function.update z.map o (Function.update (z.map o) i (!z.map o i)) o' i' = _
  by_cases ho : o' = o
  · rw [ho,Function.update_self,Function.update_apply]
    split
    · next hi => rw [if_pos ⟨rfl,hi⟩]
    · next hi => rw [if_neg fun h => hi h.2]
  · rw [Function.update_of_ne ho,if_neg fun h => ho h.1]

theorem xor_of_not {f g : Prop} (hg : ¬g) : Xor f g ↔ f := by
  constructor
  · rintro (⟨hf,-⟩ | ⟨hg',-⟩)
    · exact hf
    · exact absurd hg' hg
  · exact fun hf => Or.inl ⟨hf,hg⟩

theorem Pair.bit_of_buddy (h : z.Pair b) (hbuddy : ¬z.Free b.buddy) :
    z.map b.order b.pair = true ↔ z.Free b :=
  h.1.trans (xor_of_not hbuddy)

theorem Pairs.toggle (h : z.Pairs) (ha : b.Aligned) (ho : b.order + 1 < maxOrder)
    (hbuddy : ¬z.Free b.buddy) (hmap : z'.map = (z.changeBit b.order b.pair).map)
    (hfree : ∀ c : Block, c.order < maxOrder → (z'.Free c ↔ if c = b then ¬z.Free b else z.Free c)) :
    z'.Pairs := by
  have hne := Block.buddy_ne ha
  have hold := (h b ha ho).bit_of_buddy hbuddy
  have hnew : (!z.map b.order b.pair) = true ↔ ¬z.Free b := by
    rw [← hold,Bool.not_eq_true',Bool.not_eq_true]
  intro c hc hco
  have hlt : c.order < maxOrder := (Nat.lt_succ_self _).trans hco
  unfold Pair
  rw [hmap,map_changeBit,hfree c hlt,hfree c.buddy hlt]
  by_cases hpair : c.order = b.order ∧ c.pair = b.pair
  · rw [if_pos hpair,hnew]
    -- the block itself, or its buddy
    rcases (Block.pair_eq_iff ha hc hpair.1).mp hpair.2 with rfl | rfl
    · rw [if_pos rfl,if_neg hne,xor_of_not hbuddy]
      exact ⟨Iff.rfl,fun hboth => hbuddy hboth.2⟩
    · rw [Block.buddy_buddy,if_pos rfl,if_neg hne,xor_comm,xor_of_not hbuddy]
      exact ⟨Iff.rfl,fun hboth => hbuddy hboth.1⟩
  · have hcb : c ≠ b := fun he => hpair (he ▸ ⟨rfl,rfl⟩)
    have hcb' : c.buddy ≠ b := fun he => hpair (he ▸ ⟨rfl,(Block.buddy_pair hc).symm⟩)
    rw [if_neg hpair,if_neg hcb,if_neg hcb']
    exact h c hc hco

theorem Pairs.of_top (h : z.Pairs) (ho : b.order = maxOrder - 1) (hmap : z'.map = z.map)
    (hfree : ∀ c : Block, c.order + 1 < maxOrder → c ≠ b → (z'.Free c ↔ z.Free c)) : z'.Pairs := by
  intro c hc hco
  have hcb : ∀ d : Block, d.order = c.order → d ≠ b := by
    rintro d hd rfl
    omega
  unfold Pair
  rw [hmap,hfree c hco (hcb c rfl),hfree c.buddy hco (hcb c.buddy rfl)]
  exact h c hc hco

theorem Pairs.add (h : z.Pairs) (ha : b.Aligned) (ho : b.order + 1 < maxOrder) (hb : ¬z.Free b)
    (hbuddy : ¬z.Free b.buddy) : ((z.changeBit b.order b.pair).listAdd b.order b.index).Pairs := by
  refine h.toggle ha ho hbuddy rfl fun c _ => free_listAdd.trans ?_
  split
  · next hc => exact iff_of_true (Or.inl hc) hb
  · next hc => exact or_iff_right hc

theorem Pairs.add_top (h : z.Pairs) (ho : b.order = maxOrder - 1) :
    (z.listAdd b.order b.index).Pairs :=
  h.of_top ho rfl fun _ _ hc => free_listAdd.trans (or_iff_right hc)

theorem Pairs.del (h : z.Pairs) (hcov : z.Cover held) (hb : b ∈ z.freeBlocks)
    (ho : b.order + 1 < maxOrder) : ((z.changeBit b.order b.pair).listDel b.index).Pairs := by
  have ha := (hcov.fits b (mem_append_left _ hb)).1
  have hfree := (mem_freeBlocks.mp hb).2
  refine h.toggle ha ho (fun hbuddy => (h b ha ho).2 ⟨hfree,hbuddy⟩) rfl fun c hc => ?_
  refine ((hcov.changeBit b.order b.pair).free_listDel hb hc).trans ?_
  split
  · next hcb => exact iff_of_false (fun hn => hn.1 hcb) (not_not.mpr hfree)
  · next hcb => exact and_iff_right hcb

theorem Pairs.del_top (h : z.Pairs) (hcov : z.Cover held) (hb : b ∈ z.freeBlocks)
    (ho : b.order = maxOrder - 1) : (z.listDel b.index).Pairs :=
  h.of_top ho rfl fun _ hco hc =>
    (hcov.free_listDel hb ((Nat.lt_succ_self _).trans hco)).trans (and_iff_right hc)

def freeSum (z : Zone) : ℕ := (z.freeBlocks.map fun b => 2 ^ b.order).sum

theorem freeSum_listAdd (ho : b.order < maxOrder) :
    (z.listAdd b.order b.index).freeSum = z.freeSum + 2 ^ b.order := by
  rw [freeSum,((freeBlocks_listAdd ho).map _).sum_eq,map_cons,sum_cons,Nat.add_comm]
  rfl

theorem Cover.freeSum_listDel (h : z.Cover held) (hb : b ∈ z.freeBlocks) :
    z.freeSum = (z.listDel b.index).freeSum + 2 ^ b.order := by
  rw [freeSum,((h.freeBlocks_listDel hb).map _).sum_eq,map_cons,sum_cons,Nat.add_comm]
  rfl

theorem Cover.inside (h : z.Cover held) (hb : b ∈ z.freeBlocks ++ held) :
    b.index + 2 ^ b.order ≤ z.size := by
  have hpos : 0 < 2 ^ b.order := by positivity
  -- its last page is in a block
  have hlast : b.Contains (b.index + (2 ^ b.order - 1)) := ⟨Nat.le_add_right _ _,by omega⟩
  have hcount := count_pos hb hlast
  rw [h.count] at hcount
  split at hcount
  · omega
  · exact absurd hcount (lt_irrefl 0)

theorem Cover.not_badRange (h : z.Cover held) (hb : b ∈ z.freeBlocks ++ held) :
    z.badRange b.index = false := by
  have hin := h.inside hb
  have hpos : 0 < 2 ^ b.order := by positivity
  exact decide_eq_false (by omega)

theorem Cover.freeSum_le (h : z.Cover held) : z.freeSum ≤ z.size := by
  rw [freeSum,← card_pages (fun b hb => h.inside (mem_append_left _ hb)) h.free_le]
  exact (Finset.card_filter_le _ _).trans (Finset.card_range _).le

theorem Cover.held_not_free (h : z.Cover held) (hb : b ∈ held) : ¬z.Free b := fun hf =>
  h.not_free hb b.contains_index b.contains_index (mem_freeBlocks.mpr ⟨(h.held_fits hb).2,hf⟩)

theorem freeLoop_spec (hcov : z.Cover (b :: held)) (hp : z.Pairs) (hf : maxOrder ≤ fuel + b.order) :
    ∃ z', freeLoop fuel z b.order b.index b.pair = some z' ∧ z'.Cover held ∧ z'.Pairs ∧
      z'.freeSum = z.freeSum + 2 ^ b.order ∧ z'.freePages = z.freePages ∧ z'.size = z.size := by
  induction fuel generalizing z b with
  | zero =>
    have := (hcov.held_fits mem_cons_self).2
    omega
  | succ fuel ih =>
    obtain ⟨ha,ho⟩ := hcov.held_fits mem_cons_self
    have hb := hcov.held_not_free mem_cons_self
    rw [freeLoop]
    by_cases htop : b.order = maxOrder - 1
    · rw [if_pos htop]
      exact ⟨_,rfl,hcov.put,hp.add_top htop,freeSum_listAdd ho,rfl,rfl⟩
    have ho' : b.order + 1 < maxOrder := by omega
    obtain ⟨hbit,-⟩ := hp b ha ho'
    rw [if_neg htop,if_neg (by omega)]
    cases hm : z.map b.order b.pair with
    | false =>
      -- the buddy is allocated
      have hbuddy : ¬z.Free b.buddy := fun hf =>
        Bool.false_ne_true (hm.symm.trans (hbit.mpr (Or.inr ⟨hf,hb⟩)))
      rw [Bool.not_false,if_pos rfl]
      exact ⟨_,rfl,(hcov.changeBit _ _).put,hp.add ha ho' hb hbuddy,freeSum_listAdd ho,rfl,rfl⟩
    | true =>
      have hbuddy : z.Free b.buddy := (hbit.mp hm).elim (fun h => absurd h.1 hb) And.left
      have hmem : b.buddy ∈ z.freeBlocks := mem_freeBlocks.mpr ⟨ho,hbuddy⟩
      have hrange : (z.badRange (b.index ^^^ 2 ^ b.order) || z.badRange b.index) = false := by
        rw [hcov.not_badRange (mem_append_right _ mem_cons_self)]
        exact (Bool.or_false _).trans (hcov.not_badRange (mem_append_left _ hmem))
      have hdel := hp.del hcov hmem ho'
      rw [Block.buddy_pair ha] at hdel
      have hcov' := ((hcov.changeBit b.order b.pair).remove hmem).merge ho'
      have hsum := (hcov.changeBit b.order b.pair).freeSum_listDel hmem
      obtain ⟨z',hz',hc,hpr,hs,hfp,hsz⟩ := ih hcov' hdel (by
        show maxOrder ≤ fuel + (b.order + 1)
        omega)
      rw [Bool.not_true,if_neg Bool.false_ne_true,hrange,if_neg Bool.false_ne_true]
      rw [Block.parent_pair] at hz'
      refine ⟨z',hz',hc,hpr,?_,hfp,hsz⟩
      have hs' : z'.freeSum = ((z.changeBit b.order b.pair).listDel b.buddy.index).freeSum +
          2 ^ (b.order + 1) := hs
      have hsum' : z.freeSum = ((z.changeBit b.order b.pair).listDel b.buddy.index).freeSum +
          2 ^ b.order := hsum
      rw [pow_succ] at hs'
      omega

theorem Cover.recount (h : z.Cover held) (n : ℕ) : Cover { z with freePages := n } held :=
  ⟨h.count,h.fits⟩

theorem Pairs.recount (h : z.Pairs) (n : ℕ) : Pairs { z with freePages := n } := h

theorem freeSum_recount (z : Zone) (n : ℕ) : freeSum { z with freePages := n } = z.freeSum := rfl

theorem Cover.subPages (h : z.Cover held) (n : ℕ) : (z.subPages n).Cover held := h.recount _

theorem Pairs.subPages (h : z.Pairs) (n : ℕ) : (z.subPages n).Pairs := h.recount _

theorem freeSum_subPages (z : Zone) (n : ℕ) : (z.subPages n).freeSum = z.freeSum := freeSum_recount ..

theorem Cover.addPages (h : z.Cover held) (n : ℕ) : (z.addPages n).Cover held := h.recount _

theorem Pairs.addPages (h : z.Pairs) (n : ℕ) : (z.addPages n).Pairs := h.recount _

theorem freeSum_addPages (z : Zone) (n : ℕ) : (z.addPages n).freeSum = z.freeSum := freeSum_recount ..

theorem expand_spec {high low : ℕ} (hle : low ≤ high) (hcov : z.Cover (⟨high,page⟩ :: held))
    (hp : z.Pairs) :
    ∃ z' page', expand high z low page = some (z',page') ∧ z'.Cover (⟨low,page'⟩ :: held) ∧ z'.Pairs ∧
      z'.freeSum + 2 ^ low = z.freeSum + 2 ^ high ∧ z'.freePages = z.freePages ∧ z'.size = z.size := by
  induction high generalizing z page with
  | zero =>
    obtain rfl := Nat.le_zero.mp hle
    have hrange := hcov.not_badRange (mem_append_right _ mem_cons_self)
    refine ⟨z,page,?_,hcov,hp,rfl,rfl,rfl⟩
    rw [expand,hrange,if_neg Bool.false_ne_true,if_pos le_rfl]
  | succ high ih =>
    have hrange := hcov.not_badRange (mem_append_right _ mem_cons_self)
    rw [expand,hrange,if_neg Bool.false_ne_true]
    by_cases hend : high + 1 ≤ low
    · obtain rfl := Nat.le_antisymm hle hend
      rw [if_pos le_rfl]
      exact ⟨z,page,rfl,hcov,hp,rfl,rfl,rfl⟩
    · rw [if_neg hend]
      obtain ⟨hal,ho⟩ := hcov.held_fits mem_cons_self
      have ho : high + 1 < maxOrder := ho
      obtain ⟨ha,hbuddy,-⟩ := Block.halves hal
      have hcut := hcov.split
      have hfirst : ¬z.Free ⟨high,page⟩ := hcut.held_not_free mem_cons_self
      have hsecond : ¬z.Free (Block.mk high page).buddy := by
        rw [hbuddy]
        exact hcut.held_not_free (mem_cons_of_mem _ mem_cons_self)
      have hsum : ((z.listAdd high page).markUsed page high).freeSum = z.freeSum + 2 ^ high :=
        @freeSum_listAdd z ⟨high,page⟩ ((Nat.lt_succ_self high).trans ho)
      obtain ⟨z',page',hz',hc,hpr,hs,hfp,hsz⟩ := ih (by omega) (hcut.put.changeBit _ _)
        (hp.add ha ho hfirst hsecond)
      refine ⟨z',page',hz',hc,hpr,?_,hfp,hsz⟩
      have hs : z'.freeSum + 2 ^ low = ((z.listAdd high page).markUsed page high).freeSum + 2 ^ high := hs
      rw [pow_succ]
      omega

theorem take_spec (hle : order ≤ currOrder) (hcov : z.Cover held) (hp : z.Pairs)
    (hmem : ⟨currOrder,page⟩ ∈ z.freeBlocks) :
    ∃ z' page', z.take order currOrder page = some (z',page') ∧ z'.Cover (⟨order,page'⟩ :: held) ∧
      z'.Pairs ∧ z'.freeSum + 2 ^ order = z.freeSum ∧
      z'.freePages = sub32 z.freePages (2 ^ order) ∧ z'.size = z.size := by
  have ho : currOrder < maxOrder := (mem_freeBlocks.mp hmem).1
  have hsum := hcov.freeSum_listDel hmem
  have hrange := hcov.not_badRange (mem_append_left _ hmem)
  rw [take,hrange,if_neg Bool.false_ne_true]
  dsimp only
  by_cases htop : currOrder = maxOrder - 1
  · rw [if_neg (not_not.mpr htop)]
    obtain ⟨z',page',hz',hc,hpr,hs,hfp,hsz⟩ := expand_spec hle
      ((hcov.remove hmem).subPages (2 ^ order)) ((hp.del_top hcov hmem htop).subPages (2 ^ order))
    rw [freeSum_subPages] at hs
    exact ⟨z',page',hz',hc,hpr,hs.trans hsum.symm,hfp,hsz⟩
  · rw [if_pos htop]
    have hdel := hp.del hcov hmem (by
      show currOrder + 1 < maxOrder
      omega)
    have hdel : ((z.listDel page).markUsed page currOrder).Pairs := hdel
    have hcov' : ((z.listDel page).markUsed page currOrder).Cover (⟨currOrder,page⟩ :: held) :=
      (hcov.remove hmem).changeBit _ _
    have hsum : z.freeSum = ((z.listDel page).markUsed page currOrder).freeSum + 2 ^ currOrder := hsum
    obtain ⟨z',page',hz',hc,hpr,hs,hfp,hsz⟩ := expand_spec hle (hcov'.subPages (2 ^ order))
      (hdel.subPages (2 ^ order))
    rw [freeSum_subPages] at hs
    exact ⟨z',page',hz',hc,hpr,hs.trans hsum.symm,hfp,hsz⟩

/-- `rmqueue` gives a block of the order, or there is no free block of that order or a higher one. -/
theorem rmqueueLoop_spec (hle : order ≤ currOrder) (hlt : currOrder < maxOrder)
    (hf : maxOrder ≤ fuel + currOrder) (hcov : z.Cover held) (hp : z.Pairs) :
    (∃ z' page, z.rmqueueLoop order fuel currOrder = some (z',some page) ∧
      z'.Cover (⟨order,page⟩ :: held) ∧ z'.Pairs ∧ z'.freeSum + 2 ^ order = z.freeSum ∧
      z'.freePages = sub32 z.freePages (2 ^ order) ∧ z'.size = z.size) ∨
    (z.rmqueueLoop order fuel currOrder = some (z,none) ∧
      ∀ o, currOrder ≤ o → o < maxOrder → z.freeList o = []) := by
  induction fuel generalizing currOrder with
  | zero => omega
  | succ fuel ih =>
    rw [rmqueueLoop]
    cases hl : z.freeList currOrder with
    | cons page l =>
      have hmem : ⟨currOrder,page⟩ ∈ z.freeBlocks := by
        refine mem_freeBlocks.mpr ⟨hlt,?_⟩
        show page ∈ z.freeList currOrder
        rw [hl]
        exact mem_cons_self
      obtain ⟨z',page',hz',hrest⟩ := take_spec hle hcov hp hmem
      refine Or.inl ⟨z',page',?_,hrest⟩
      dsimp only
      rw [hz']
      rfl
    | nil =>
      dsimp only
      by_cases hnext : currOrder + 1 < maxOrder
      · rw [if_pos hnext]
        refine (ih (by omega) hnext (by omega)).imp id fun h => ⟨h.1,fun o ho hom => ?_⟩
        rcases Nat.eq_or_lt_of_le ho with rfl | ho
        · exact hl
        · exact h.2 o ho hom
      · rw [if_neg hnext]
        refine Or.inr ⟨rfl,fun o ho hom => ?_⟩
        obtain rfl : o = currOrder := by omega
        exact hl

theorem Cover.exists_free (h : z.Cover held) (hp : z.Pairs) (hb : b.Aligned)
    (ho : b.order < maxOrder) (hall : ∀ p, b.Contains p → ∃ c ∈ z.freeBlocks, c.Contains p) :
    ∃ c ∈ z.freeBlocks, b.order ≤ c.order := by
  by_contra! hno
  have ha {c} (hc : c ∈ z.freeBlocks) : c.Aligned := (h.fits c (mem_append_left _ hc)).1
  -- the buddy of a smallest free block in `b` would be free as well
  have hmeet : ∀ c ∈ z.freeBlocks, ∀ p, b.Contains p → ¬c.Contains p := by
    intro c
    induction hco : c.order using Nat.strong_induction_on generalizing c with
    | _ o ih =>
      subst hco
      intro hc p hbp hcp
      have hin := Block.contains_parent (ha hc)
      have hbuddy := (hin _).mpr (.inr c.buddy.contains_index)
      have hbb := Block.nested hb c.aligned_parent (hno c hc) hbp ((hin p).mpr (.inl hcp)) hbuddy
      obtain ⟨g,hg,hgp⟩ := hall _ hbb
      rcases Nat.lt_trichotomy g.order c.order with hgo | hgo | hgo
      · exact ih _ hgo g rfl hg _ hbb hgp
      · have hle := (Block.nested (Block.buddy_aligned (ha hc)) (ha hg) hgo.le
          c.buddy.contains_index hgp g.contains_index).1
        have hfree := (mem_freeBlocks.mp hg).2
        rw [Free,hgo,le_antisymm hgp.1 hle] at hfree
        exact (hp c (ha hc) (Nat.lt_of_le_of_lt (hno c hc) ho)).2 ⟨(mem_freeBlocks.mp hc).2,hfree⟩
      · have hgc := Block.nested (ha hg) c.aligned_parent hgo hgp hbuddy
          ((hin _).mpr (.inl c.contains_index))
        have heq := eq_of_count (h.free_le _) hg hc hgc c.contains_index
        exact hgo.ne' (congrArg Block.order heq)
  obtain ⟨c,hc,hcp⟩ := hall _ b.contains_index
  exact hmeet c hc _ b.contains_index hcp

end Zone

/-- What holds between calls, in a zone of `n` pages. -/
structure State.Sound (n : ℕ) (s : State) : Prop where
  cover : s.zone.Cover s.allocated
  pairs : s.zone.Pairs
  pages : s.zone.freePages = s.zone.freeSum
  size : s.zone.size = n

structure Tiling (n : ℕ) (blocks : List Block) : Prop where
  count : ∀ p, count blocks p = if p < n then 1 else 0
  fits : ∀ b ∈ blocks, b.Aligned ∧ b.order < maxOrder

theorem singlePages_tiling (n : ℕ) : Tiling n (singlePages n) := by
  refine ⟨fun p => ?_,fun b hb => ?_⟩
  · have hcount : count (singlePages n) p = (range n).count p := by
      rw [singlePages,count,countP_map,List.count]
      refine countP_congr fun i _ => ?_
      show decide ((Block.mk 0 i).Contains p) = true ↔ (i == p) = true
      rw [decide_eq_true_iff,beq_iff_eq]
      show i ≤ p ∧ p < i + 2 ^ 0 ↔ i = p
      omega
    rw [hcount,nodup_range.count]
    simp only [mem_range]
  · obtain ⟨i,-,rfl⟩ := mem_map.mp hb
    exact ⟨one_dvd i,(by decide : 0 < maxOrder)⟩

theorem Tiling.sound {blocks : List Block} (h : Tiling n blocks) : (initial n blocks).Sound n := by
  have hfree : (initial n blocks).zone.freeBlocks = [] :=
    flatMap_eq_nil_iff.mpr fun o _ => map_nil
  refine ⟨⟨fun p => ?_,fun b hb => ?_⟩,fun b _ _ => ?_,?_,rfl⟩
  · rw [hfree,nil_append]
    exact h.count p
  · rw [hfree,nil_append] at hb
    exact h.fits b hb
  · exact ⟨iff_of_false Bool.false_ne_true fun hx => hx.elim (fun h => not_mem_nil h.1)
      fun h => not_mem_nil h.1,fun h => not_mem_nil h.1⟩
  · show 0 = ((initial n blocks).zone.freeBlocks.map fun b => 2 ^ b.order).sum
    rw [hfree]
    rfl

theorem State.Sound.step (hn : n < 4294967296) {s : State} (h : s.Sound n) {c : Call}
    (hl : Legal s c) : ∃ t, step s c = some t ∧ t.Sound n := by
  have hle := h.cover.freeSum_le
  rw [h.size] at hle
  cases c with
  | rmqueue order =>
    have hl : order < maxOrder := hl
    rcases Zone.rmqueueLoop_spec le_rfl hl (Nat.le_add_right _ _) h.cover h.pairs with
      ⟨z,page,hz,hc,hp,hs,hfp,hsz⟩ | ⟨hz,-⟩
    · refine ⟨⟨z,⟨order,page⟩ :: s.allocated⟩,?_,hc,hp,?_,hsz.trans h.size⟩
      · rw [Buddy.step,Zone.rmqueue,hz]
        rfl
      · show z.freePages = z.freeSum
        rw [hfp,h.pages,sub32_of_le (by omega) (by omega)]
        omega
    · refine ⟨s,?_,h⟩
      rw [Buddy.step,Zone.rmqueue,hz]
      rfl
  | free b =>
    have hl : b ∈ s.allocated := hl
    have hperm := perm_cons_erase hl
    have hcov : s.zone.Cover (b :: s.allocated.erase b) :=
      h.cover.of_perm rfl (hperm.symm.append_left _)
    have ha := (h.cover.held_fits hl).1
    obtain ⟨z,hz,hc,hp,hs,hfp,hsz⟩ := Zone.freeLoop_spec (hcov.addPages (2 ^ b.order))
      (h.pairs.addPages (2 ^ b.order)) (Nat.le_add_right maxOrder b.order)
    rw [Zone.freeSum_addPages] at hs
    have hle' := hc.freeSum_le
    refine ⟨⟨z,s.allocated.erase b⟩,?_,hc,hp,?_,hsz.trans h.size⟩
    · rw [Buddy.step,Zone.freePagesOk,if_neg (not_not.mpr (Nat.mod_eq_zero_of_dvd ha))]
      exact congrArg (Option.map fun z => State.mk z (s.allocated.erase b)) hz
    · have hz' : z.freePages = u32 (s.zone.freePages + 2 ^ b.order) := hfp
      have hsz : z.size = n := hsz.trans h.size
      show z.freePages = z.freeSum
      rw [hz',h.pages,← hs]
      exact u32_of_lt (by omega)

/-- What the allocator keeps to in a zone of `n` pages. -/
structure State.Correct (n : ℕ) (s : State) : Prop where
  disjoint : (s.zone.freeBlocks ++ s.allocated).Pairwise fun b c => ∀ p, b.Contains p → ¬c.Contains p
  aligned : ∀ b ∈ s.zone.freeBlocks ++ s.allocated, b.Aligned
  covers : ∀ p, (∃ b ∈ s.zone.freeBlocks ++ s.allocated, b.Contains p) ↔ p < n
  freePages : s.zone.freePages =
    ((Finset.range n).filter fun p => ∃ b ∈ s.zone.freeBlocks, b.Contains p).card
  pairs : ∀ b : Block, b.Aligned → b.order + 1 < maxOrder → s.zone.Pair b
  fails : ∀ order < maxOrder, ∀ z, s.zone.rmqueue order = some (z,none) →
    ∀ b ∈ s.zone.freeBlocks, b.order < order

theorem State.Sound.correct {s : State} (h : s.Sound n) : s.Correct n where
  disjoint := pairwise_of_count h.cover.count_le
  aligned b hb := (h.cover.fits b hb).1
  covers p := by
    have hc := h.cover.count p
    rw [h.size] at hc
    constructor
    · rintro ⟨b,hb,hp⟩
      have := count_pos hb hp
      by_contra hlt
      rw [if_neg hlt] at hc
      omega
    · intro hlt
      rw [if_pos hlt] at hc
      exact exists_of_count_pos (by omega)
  freePages := by
    rw [h.pages,← h.size]
    exact (card_pages (fun b hb => h.cover.inside (mem_append_left _ hb)) h.cover.free_le).symm
  pairs := h.pairs
  fails order ho z hz b hb := by
    obtain ⟨hbo,hbf⟩ := Zone.mem_freeBlocks.mp hb
    rcases Zone.rmqueueLoop_spec le_rfl ho (Nat.le_add_right _ _) h.cover h.pairs with
      ⟨z',page,hz',-⟩ | ⟨-,hempty⟩
    · cases (Prod.mk.inj (Option.some.inj (hz'.symm.trans hz))).2
    · by_contra hle
      have hbf : b.index ∈ s.zone.freeList b.order := hbf
      rw [hempty b.order (not_lt.mp hle) hbo] at hbf
      exact not_mem_nil hbf

/-- Whatever is allocated and freed, the allocator runs into no `BUG()`, and the blocks, the count of
free pages and the bits are right. -/
theorem buddy_correct {n : ℕ} (hn : n < 4294967296) {blocks : List Block} (ht : Tiling n blocks)
    {calls : List Call} (hm : Meets step Legal (initial n blocks) calls) :
    ∃ s, run step (initial n blocks) calls = some s ∧ s.Correct n := by
  obtain ⟨s,hs,hsound⟩ := @run_fold _ _ step Unit (fun u _ => u) (fun _ s => s.Sound n) _
    (fun _ _ _ h hl => h.step hn hl) () _ _ ht.sound hm
  exact ⟨s,hs,hsound.correct⟩

/-- Three pages: two of them are freed and merged, and one is allocated again. -/
theorem buddy_correct_three : ∃ s, run step (initial 3 (singlePages 3))
    [.free ⟨0,1⟩,.free ⟨0,0⟩,.rmqueue 0] = some s ∧ s.Correct 3 := by
  have hone : Block.mk 0 1 ∈ singlePages 3 := by decide
  have hzero : Block.mk 0 0 ∈ (singlePages 3).erase ⟨0,1⟩ := by decide
  refine buddy_correct (by decide) (singlePages_tiling 3) ⟨hone,fun s hs => ?_⟩
  cases hs
  refine ⟨hzero,fun s hs => ?_⟩
  cases hs
  exact ⟨(by decide : 0 < maxOrder),fun _ _ => trivial⟩

/-- An allocation fails only if no aligned block of its size is free as a whole. -/
theorem rmqueue_complete (hn : n < 4294967296) {blocks : List Block} (ht : Tiling n blocks)
    {calls : List Call} (hm : Meets step Legal (initial n blocks) calls) :
    ∃ s, run step (initial n blocks) calls = some s ∧ ∀ b : Block, b.Aligned →
      b.order < maxOrder → (∀ p, b.Contains p → ∃ c ∈ s.zone.freeBlocks, c.Contains p) →
        ∃ z page, s.zone.rmqueue b.order = some (z,some page) := by
  obtain ⟨s,hs,h⟩ := exists_run step (fun _ _ h hl => State.Sound.step hn h hl) ht.sound hm
  refine ⟨s,hs,fun b hb ho hall => ?_⟩
  rcases Zone.rmqueueLoop_spec le_rfl ho (Nat.le_add_right _ _) h.cover h.pairs with
    ⟨z,page,hz,-⟩ | ⟨-,hempty⟩
  · exact ⟨z,page,hz⟩
  · obtain ⟨c,hc,hle⟩ := h.cover.exists_free h.pairs hb ho hall
    obtain ⟨hco,hfree⟩ := Zone.mem_freeBlocks.mp hc
    rw [Zone.Free,hempty _ hle hco] at hfree
    cases hfree

theorem rmqueue_complete_one : ∃ s, run step (initial 3 (singlePages 3)) [.free ⟨0,1⟩] =
    some s ∧ ∃ z page, s.zone.rmqueue 0 = some (z,some page) := by
  have hone : Block.mk 0 1 ∈ singlePages 3 := by decide
  obtain ⟨s,hs,h⟩ := @rmqueue_complete 3 (by decide) _ (singlePages_tiling 3) [.free ⟨0,1⟩]
    ⟨hone,fun _ _ => trivial⟩
  refine ⟨s,hs,h ⟨0,1⟩ (one_dvd 1) (by decide) fun p hp => ⟨_,?_,hp⟩⟩
  cases hs
  decide

end Simpad.Buddy
