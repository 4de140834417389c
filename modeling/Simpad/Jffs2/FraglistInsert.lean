import Simpad.Jffs2.Fraglist

namespace Simpad.Jffs2
open Word Segments List

/-- Laying `newfrag` over the fragments behind its start. -/
structure Overlaid (st : Store) (stop : ℕ) (l : List Frag) (b : ℕ) (c : ℕ → ℕ)
    (r : List Frag × Store) : Prop extends Dropped st l c r where
  tiles : Tiles stop r.1 (max stop b)
  value : ∀ p, stop ≤ p → valueAt r.1 p = valueAt l p
  start : ∀ p, IsStart r.1 p ↔ (p = stop ∧ stop < b) ∨ (stop < p ∧ IsStart l p)

variable {m e fn ofs size : ℕ} {this : Frag} {st : Store} {next l before rest mid : List Frag}

/-- Behind a cut at `stop`, inside or at the start of `this`, a new fragment starts at `stop` and
the others start where they did. -/
theorem isStart_cut {rm : List Frag} {head : Frag} {stop b : ℕ} (hhead : head.ofs = stop)
    (hthis : this.ofs ≤ stop) (hb : stop < b) (hrm : ∀ p, stop ≤ p → ¬IsStart rm p)
    (hnext : ∀ p, IsStart next p → stop < p) (p : ℕ) : IsStart (head :: next) p ↔
      (p = stop ∧ stop < b) ∨ (stop < p ∧ IsStart (rm ++ this :: next) p) := by
  rw [isStart_append,isStart_cons,isStart_cons,hhead]
  constructor
  · grind
  · rintro (⟨rfl,-⟩ | ⟨hp,h | h | h⟩)
    · exact Or.inl rfl
    · exact absurd h (hrm p hp.le)
    · omega
    · exact Or.inr h

theorem overlay_spec {newfrag : Frag} {b : ℕ} {c : ℕ → ℕ} (ht : Tiles m l b) (hb : b < 4294967296)
    (hm : m ≤ newfrag.stop) (hn : newfrag.stop < 4294967296)
    (hc : CountedBy st fun i => c i + fragsOf l i) (hlt : ∀ i, c i + fragsOf l i < 4294967296) :
    Overlaid st newfrag.stop l b c (overlay st newfrag l) := by
  have hN : fend newfrag = newfrag.stop := u32_of_lt hn
  obtain ⟨m',ht₁,ht₂,hm',hhead⟩ := ht.cut newfrag.stop
  have hsplit := takeWhile_append_dropWhile (p := fun f : Frag => decide (f.stop ≤ newfrag.stop)) (l := l)
  unfold overlay
  rw [hN,takeWhile_fend ht hb,dropWhile_fend ht hb]
  generalize (l.takeWhile fun f => f.stop ≤ newfrag.stop) = rm at *
  generalize (l.dropWhile fun f => f.stop ≤ newfrag.stop) = keep at *
  subst hsplit
  have hrm : ∀ p, newfrag.stop ≤ p → ¬IsStart rm p := by
    intro p hp h
    have := h.bounds ht₁
    omega
  cases keep with
  | nil =>
    have hmb : m' = b := ht₂
    refine ⟨dropped_foldl hc hlt fun _ => rfl,?_,?_,?_⟩
    · change newfrag.stop = max newfrag.stop b
      omega
    · intro p hp
      rw [ht.valueAt_ge (by omega)]
      rfl
    · intro p
      constructor
      · intro h; simp at h
      · grind
  | cons this next =>
    obtain ⟨hofs,hstop⟩ := hhead this next rfl
    have hle := ht₂.2.2.le
    have hthis : fend this = this.stop := fend_eq_stop ht₂ hb mem_cons_self
    have hnext : ∀ p, IsStart next p → newfrag.stop < p := by
      intro p h
      have := h.bounds ht₂.2.2
      omega
    by_cases he : newfrag.stop = this.ofs
    · simp only [he,if_true]
      rw [← he]
      have hmm : m' = newfrag.stop := by omega
      refine ⟨dropped_foldl hc hlt fun _ => rfl,?_,?_,?_⟩
      · have hmax : max newfrag.stop b = b := by omega
        rw [hmax,← hmm]
        exact ht₂
      · intro p hp
        rw [ht₁.valueAt_append_ge (by omega)]
      · exact isStart_cut he.symm he.symm.le (by omega) hrm hnext
    · simp only [he,if_false]
      have hsub : sub32 (fend this) newfrag.stop = this.stop - newfrag.stop := by
        rw [hthis,sub32_of_le (by omega) (by omega)]
      have hnew : (⟨newfrag.stop,sub32 (fend this) newfrag.stop,this.val⟩ : Frag).stop = this.stop := by
        simp only [Segment.stop] at *
        omega
      refine ⟨dropped_foldl hc hlt fun i => by simp,?_,?_,?_⟩
      · have hmax : max newfrag.stop b = b := by omega
        rw [hmax]
        refine ⟨rfl,?_,by rw [hnew]; exact ht₂.2.2⟩
        grind
      · intro p hp
        rw [ht₁.valueAt_append_ge (by omega),valueAt,valueAt,hnew]
        grind
      · exact isStart_cut rfl (by omega) (by omega) hrm hnext

/-- The counts of fragments are right for `l'`, in which `fn` has one, and the nodes that have lost
all of theirs are obsolete. -/
structure Recounted (st : Store) (l : List Frag) (fn : ℕ) (st' : Store) (l' : List Frag) : Prop where
  same : SameNodes st st'
  counted : CountedBy st' (fragsOf l')
  single : fragsOf l' fn = 1
  obsolete : ∀ i, (st'.node i).obsolete =
    ((st.node i).obsolete || decide (fragsOf l i ≠ 0 ∧ fragsOf l' i = 0))

/-- Node `fn` has been laid over `[ofs,stop)` of a list that ended at `e`. -/
structure Inserted (st : Store) (l : List Frag) (e fn ofs stop : ℕ) (st' : Store)
    (l' : List Frag) : Prop extends Recounted st l fn st' l' where
  tiles : Tiles 0 l' (max e stop)
  value : ∀ p, valueAt l' p = if ofs ≤ p ∧ p < stop then some (some fn)
    else if e ≤ p ∧ p < ofs then some none else valueAt l p
  start : ∀ p, IsStart l' p ↔ p = ofs ∨ (p = stop ∧ stop < e) ∨ (p = e ∧ e < ofs) ∨
    (IsStart l p ∧ ¬(ofs ≤ p ∧ p ≤ stop))

theorem lastend_eq (ht : Tiles 0 l m) (hm : m < 4294967296) : (l.getLast?.map fend).getD 0 = m := by
  cases hl : l.getLast? with
  | none =>
    rw [getLast?_eq_none_iff] at hl
    subst hl
    exact ht
  | some f =>
    obtain ⟨ys,rfl⟩ := getLast?_eq_some_iff.mp hl
    obtain ⟨k,-,hf⟩ := Tiles.append_iff.mp ht
    have hs : f.stop = m := hf.2.2
    simp [fend_eq_stop hf hm mem_cons_self,hs]

/-- `mid` is what stays of `rest`, which tiles `[m,e)`, in front of a node at `ofs`, or a hole. -/
structure Front (m e ofs : ℕ) (rest mid : List Frag) : Prop where
  tiles : Tiles m mid ofs
  value : ∀ p, m ≤ p → p < ofs → valueAt mid p = if e ≤ p then some none else valueAt rest p
  start : ∀ p, IsStart mid p ↔ (p = e ∧ e < ofs) ∨ (IsStart rest p ∧ p < ofs)

/-- The new list is the skipped part, what is left of the fragment under the start of the new
node (or a hole), the new node, and what is left behind it. -/
theorem Inserted.of_parts {st' : Store} {tail : List Frag} (hb : Tiles 0 before m)
    (hr : Tiles m rest e) (hsize : 0 < size) (hmid : Front m e ofs rest mid)
    (htail : Tiles (ofs + size) tail (max e (ofs + size)))
    (hvtail : ∀ p, ofs + size ≤ p → valueAt tail p = valueAt rest p)
    (hstail : ∀ p, IsStart tail p ↔
      (p = ofs + size ∧ ofs + size < e) ∨ (ofs + size < p ∧ IsStart rest p))
    (hcount : Recounted st (before ++ rest) fn st' (before ++ (mid ++ ⟨ofs,size,some fn⟩ :: tail))) :
    Inserted st (before ++ rest) e fn ofs (ofs + size) st'
      (before ++ (mid ++ ⟨ofs,size,some fn⟩ :: tail)) := by
  have hnew : Tiles ofs (⟨ofs,size,some fn⟩ :: tail) (max e (ofs + size)) := ⟨rfl,hsize,htail⟩
  obtain ⟨hmid,hvmid,hsmid⟩ := hmid
  have hmo := hmid.le
  have hme := hr.le
  refine ⟨hcount,hb.append (hmid.append hnew),?_,?_⟩
  · intro p
    by_cases hpm : p < m
    · rw [(hmid.append hnew).valueAt_append_lt hpm,hr.valueAt_append_lt hpm,
        if_neg (by omega),if_neg (by omega)]
    · rw [hb.valueAt_append_ge (by omega),hb.valueAt_append_ge (by omega)]
      by_cases hpo : p < ofs
      · rw [hnew.valueAt_append_lt hpo,hvmid p (by omega) hpo]
        grind
      · rw [hmid.valueAt_append_ge (by omega),valueAt]
        by_cases hps : p < ofs + size
        · rw [if_pos ⟨by simpa using hpo,hps⟩,if_pos (by omega)]
        · rw [if_neg (by simp only [Segment.stop]; omega),if_neg (by omega),if_neg (by omega),
            hvtail p (by omega)]
  · intro p
    have hbefore : IsStart before p → p < m := fun h => (h.bounds hb).2
    rw [isStart_append,isStart_append,isStart_append,isStart_cons,hsmid,hstail]
    constructor
    · rintro (h | (h | ⟨h,hp⟩) | h | h | ⟨hp,h⟩)
      · exact Or.inr (Or.inr (Or.inr ⟨Or.inl h,by have := hbefore h; omega⟩))
      · omega
      · grind
      · exact Or.inl h.symm
      · exact Or.inr (Or.inl h)
      · grind
    · rintro (h | h | h | ⟨h | h,hp⟩)
      · exact Or.inr (Or.inr (Or.inl h.symm))
      · omega
      · omega
      · exact Or.inl h
      · grind

/-- What stays of `this` in front of a node that starts inside it. -/
theorem front_spec (ht : Tiles m (this :: next) e) (he : e < 4294967296) (hlt : this.ofs < ofs)
    (hstop : ofs < this.stop) :
    Front m e ofs (this :: next) [⟨this.ofs,sub32 ofs this.ofs,this.val⟩] := by
  have hofs := ht.1
  have hle := ht.2.2.le
  have hsub : sub32 ofs this.ofs = ofs - this.ofs := sub32_of_le (by omega) (by omega)
  rw [hsub]
  refine ⟨⟨hofs,by simp only; omega,by change this.ofs + (ofs - this.ofs) = ofs; omega⟩,?_,?_⟩
  · intro p h₁ h₂
    rw [if_neg (by omega),valueAt_cons_pos (by simp only; omega) (by simp only [stop_mk]; omega),
      valueAt_cons_pos (by omega) (by omega)]
  · intro p
    have hnx : IsStart next p → this.stop ≤ p := fun h => (h.bounds ht.2.2).1
    simp only [isStart_cons,not_isStart_nil,or_false]
    constructor
    · omega
    · rintro (⟨h,h'⟩ | ⟨h | h,h'⟩)
      · omega
      · exact h
      · have := hnx h; omega

theorem inserted_past_end (ht : Tiles 0 l e) (hsize : 0 < size) (hfit : ofs + size < 4294967296)
    (heo : e ≤ ofs) (hfn : fragsOf l fn = 0)
    (hcount : CountedBy (st.setFrags fn 1) fun i => fragsOf l i + if fn = i then 1 else 0) :
    Inserted st l e fn ofs (ofs + size) (st.setFrags fn 1)
      (if e < ofs then l ++ [⟨e,sub32 ofs e,none⟩,⟨ofs,size,some fn⟩]
        else l ++ [⟨ofs,size,some fn⟩]) := by
  have hbooks : ∀ mid : List Frag, (∀ i, fragsOf mid i = 0) → Recounted st (l ++ []) fn
      (st.setFrags fn 1) (l ++ (mid ++ [⟨ofs,size,some fn⟩])) := by
    intro mid hmid
    refine ⟨.setFrags ..,fun i hi => ?_,by simp [hfn,hmid],fun i => ?_⟩
    · have := hcount i
      simp only [fragsOf_append,fragsOf_cons,fragsOf_nil,zero_add,hmid,
        Option.some.injEq] at this hi ⊢
      exact this hi
    · rw [Store.setFrags_obsolete,decide_eq_false,Bool.or_false]
      simp only [append_nil,fragsOf_append]
      omega
  have htail : ∀ p, IsStart [] p ↔ (p = ofs + size ∧ ofs + size < e) ∨
      (ofs + size < p ∧ IsStart [] p) := by
    simp only [not_isStart_nil,and_false,or_false,false_iff]
    omega
  have hmax : Tiles (ofs + size) ([] : List Frag) (max e (ofs + size)) := by
    change ofs + size = max e (ofs + size)
    omega
  by_cases hlt : e < ofs
  · have hsub : sub32 ofs e = ofs - e := sub32_of_le heo (by omega)
    have h : Inserted st (l ++ []) e fn ofs (ofs + size) (st.setFrags fn 1)
        (l ++ ([⟨e,sub32 ofs e,none⟩] ++ [⟨ofs,size,some fn⟩])) := Inserted.of_parts ht rfl hsize
      ⟨⟨rfl,by simp only; omega,by change e + sub32 ofs e = ofs; omega⟩,by
        intro p h₁ h₂
        rw [if_pos h₁,valueAt_cons_pos h₁ (by simp only [stop_mk]; omega)],by simp [eq_comm,hlt]⟩
      hmax (fun _ _ => rfl) htail (hbooks _ (by simp))
    simpa [hlt] using h
  · have heq : e = ofs := by omega
    subst heq
    have h : Inserted st (l ++ []) e fn e (e + size) (st.setFrags fn 1)
        (l ++ ([] ++ [⟨e,size,some fn⟩])) := Inserted.of_parts ht rfl hsize ⟨rfl,by omega,by simp⟩
        hmax (fun _ _ => rfl) htail (hbooks [] (by simp))
    simpa using h

theorem incFrags_spec {c : ℕ → ℕ} (hc : CountedBy st c)
    (h : ∀ j, this.val = some j → c j ≠ 0 ∧ c j + 1 < 4294967296) :
    SameNodes st (incFrags st this) ∧
    (∀ i, ((incFrags st this).node i).obsolete = (st.node i).obsolete) ∧
    CountedBy (incFrags st this) fun i => c i + if this.val = some i then 1 else 0 := by
  cases hv : this.val with
  | none =>
    have hst : incFrags st this = st := by simp only [incFrags,hv]
    rw [hst]
    exact ⟨.refl st,fun _ => rfl,by simpa using hc⟩
  | some j =>
    have hst : incFrags st this = st.setFrags j (u32 ((st.node j).fn.frags + 1)) := by
      simp only [incFrags,hv]
    rw [hst]
    refine ⟨.setFrags ..,by simp,fun i hi => ?_⟩
    obtain ⟨hj,hlt⟩ := h j hv
    rw [Store.setFrags_fn]
    by_cases he : i = j
    · subst he
      simp [hc i hj,u32_of_lt hlt]
    · have he' : ¬some j = some i := by simpa using fun h => he h.symm
      simp only [he,he',if_false,add_zero] at hi ⊢
      exact hc i hi

theorem inserted_split (ht₁ : Tiles 0 before m) (ht₂ : Tiles m (this :: next) e)
    (he : e < 4294967296) (hsize : 0 < size) (hlt : this.ofs < ofs) (hin : ofs + size < this.stop)
    (hfn : fragsOf (before ++ this :: next) fn = 0)
    (hcount : CountedBy (st.setFrags fn 1) fun i =>
      fragsOf (before ++ this :: next) i + if fn = i then 1 else 0) :
    Inserted st (before ++ this :: next) e fn ofs (ofs + size) (incFrags (st.setFrags fn 1) this)
      (before ++ ⟨this.ofs,sub32 ofs this.ofs,this.val⟩ :: ⟨ofs,size,some fn⟩ ::
        ⟨ofs + size,sub32 this.stop (ofs + size),this.val⟩ :: next) := by
  have hmid := front_spec ht₂ he hlt (by omega)
  have hle := ht₂.2.2.le
  have hsub : sub32 this.stop (ofs + size) = this.stop - (ofs + size) :=
    sub32_of_le (by omega) (by omega)
  have hstop : ofs + size + sub32 this.stop (ofs + size) = this.stop := by omega
  have hstop₂ : Segment.stop (⟨ofs + size,sub32 this.stop (ofs + size),this.val⟩ : Frag) =
      this.stop := hstop
  have htail : Tiles (ofs + size) (⟨ofs + size,sub32 this.stop (ofs + size),this.val⟩ :: next)
      (max e (ofs + size)) := by
    have hmax : max e (ofs + size) = e := by omega
    rw [hmax]
    refine ⟨rfl,by simp only; omega,?_⟩
    rw [hstop₂]
    exact ht₂.2.2
  -- the list is no longer than the file, so the count of `this` cannot wrap
  have hnew : Tiles ofs (⟨ofs,size,some fn⟩ :: ⟨ofs + size,sub32 this.stop (ofs + size),this.val⟩ ::
      next) (max e (ofs + size)) := ⟨rfl,hsize,htail⟩
  have hlen := length_le_of_tiles (ht₁.append (hmid.tiles.append hnew))
  have hwrap : ∀ j, this.val = some j →
      (fragsOf (before ++ this :: next) j + if fn = j then 1 else 0) ≠ 0 ∧
      (fragsOf (before ++ this :: next) j + if fn = j then 1 else 0) + 1 < 4294967296 := by
    intro j hj
    have hne : fn ≠ j := by
      rintro rfl
      simp [hj] at hfn
    have h₁ := fragsOf_le_length before j
    have h₂ := fragsOf_le_length next j
    simp only [length_append,length_cons,length_nil] at hlen
    simp only [fragsOf_append,fragsOf_cons,hj,hne,if_true,if_false]
    omega
  obtain ⟨hsame,hobs,hcount'⟩ := incFrags_spec hcount hwrap
  refine Inserted.of_parts ht₁ ht₂ hsize hmid htail ?_ ?_
    ⟨(SameNodes.setFrags st fn 1).trans hsame,?_,?_,?_⟩
  · intro p hp
    by_cases hps : p < this.stop
    · rw [valueAt_cons_pos hp (by rw [hstop₂]; exact hps),valueAt_cons_pos (by omega) hps]
    · rw [valueAt_cons_neg (by omega),
        valueAt_cons_neg fun h => hps h.2]
  · intro p
    have hnx : IsStart next p → this.stop ≤ p := fun h => (h.bounds ht₂.2.2).1
    simp only [isStart_cons]
    constructor
    · rintro (h | h)
      · omega
      · exact Or.inr ⟨by have := hnx h; omega,Or.inr h⟩
    · grind
  · intro i hi
    have := hcount' i
    simp only [fragsOf_append,fragsOf_cons,fragsOf_nil,Option.some.injEq] at this hi ⊢
    omega
  · simp only [fragsOf_append,fragsOf_cons,fragsOf_nil,if_true] at hfn ⊢
    omega
  · intro i
    rw [hobs,Store.setFrags_obsolete,decide_eq_false,Bool.or_false]
    simp only [fragsOf_append,fragsOf_cons,fragsOf_nil]
    omega

theorem inserted_overlay {behind : List Frag} {k : ℕ} (ht₁ : Tiles 0 before m)
    (ht₂ : Tiles m rest e) (hover : Tiles k behind e) (he : e < 4294967296) (hsize : 0 < size)
    (hfit : ofs + size < 4294967296) (hmid : Front m e ofs rest mid) (hk : k ≤ ofs + size)
    (hvover : ∀ p, ofs + size ≤ p → valueAt behind p = valueAt rest p)
    (hsover : ∀ p, ofs + size < p → (IsStart behind p ↔ IsStart rest p))
    (hfrags : ∀ i, fragsOf rest i = fragsOf mid i + fragsOf behind i)
    (hbound : ∀ i, fragsOf (before ++ rest) i + (if fn = i then 1 else 0) < 4294967296)
    (hfn : fragsOf (before ++ rest) fn = 0)
    (hcount : CountedBy (st.setFrags fn 1) fun i =>
      fragsOf (before ++ rest) i + if fn = i then 1 else 0) :
    let r := overlay (st.setFrags fn 1) ⟨ofs,size,some fn⟩ behind
    Inserted st (before ++ rest) e fn ofs (ofs + size) r.2
      (before ++ (mid ++ ⟨ofs,size,some fn⟩ :: r.1)) := by
  intro r
  have hk' : k ≤ Segment.stop (⟨ofs,size,some fn⟩ : Frag) := hk
  have hr : Overlaid (st.setFrags fn 1) (ofs + size) behind e
      (fun i => fragsOf before i + fragsOf mid i + if fn = i then 1 else 0) r :=
    overlay_spec hover he hk' hfit
      (by
        intro i hi
        have := hcount i
        have := hfrags i
        simp only [fragsOf_append] at *
        omega)
      (by
        intro i
        have := hbound i
        have := hfrags i
        simp only [fragsOf_append] at *
        omega)
  refine Inserted.of_parts ht₁ ht₂ hsize hmid (by rw [max_comm]; exact hr.tiles)
    (fun p hp => (hr.value p hp).trans (hvover p hp)) ?_
    ⟨(SameNodes.setFrags st fn 1).trans hr.same,?_,?_,?_⟩
  · intro p
    rw [hr.start p]
    constructor
    · grind
    · grind
  · intro i hi
    have := hr.counted i
    simp only [fragsOf_append,fragsOf_cons,Option.some.injEq] at this hi ⊢
    omega
  · have := hfrags fn
    have := hr.frags fn
    simp only [fragsOf_append,fragsOf_cons,if_true] at hfn ⊢
    omega
  · intro i
    rw [hr.obsolete i,Store.setFrags_obsolete]
    congr 2
    have := hfrags i
    simp only [fragsOf_append,fragsOf_cons,Option.some.injEq] at *
    apply propext
    by_cases h : fn = i
    · omega
    · omega

theorem addFullDnodeToFraglist_spec (ht : Tiles 0 l e) (he : e < 4294967296)
    (hsize : 0 < (st.node fn).fn.size)
    (hfit : (st.node fn).fn.ofs + (st.node fn).fn.size < 4294967296) (hc : CountedBy st (fragsOf l))
    (hfn : fragsOf l fn = 0) :
    ∃ l' st', addFullDnodeToFraglist (fun _ => true) st l fn = (.ok l',st') ∧
      Inserted st l e fn (st.node fn).fn.ofs ((st.node fn).fn.ofs + (st.node fn).fn.size) st' l' := by
  unfold addFullDnodeToFraglist
  simp only [Bool.not_true,Bool.false_eq_true,if_false,Nat.pos_iff_ne_zero.mp hsize]
  generalize (st.node fn).fn.ofs = ofs at *
  generalize (st.node fn).fn.size = size at *
  obtain ⟨m,ht₁,ht₂,hm,hhead⟩ := ht.cut ofs
  have hsplit := takeWhile_append_dropWhile (p := fun f : Frag => decide (f.stop ≤ ofs)) (l := l)
  have hcount : CountedBy (st.setFrags fn 1) fun i => fragsOf l i + if fn = i then 1 else 0 := by
    intro i hi
    rw [Store.setFrags_fn]
    by_cases h : i = fn
    · subst h; simp [hfn]
    · have h' : ¬fn = i := fun h' => h h'.symm
      simp only [h,h',if_false,add_zero] at hi ⊢
      exact hc i hi
  have hbound : ∀ i, fragsOf l i + (if fn = i then 1 else 0) < 4294967296 := by
    intro i
    have := fragsOf_le_length l i
    have := length_le_of_tiles ht
    grind
  rw [takeWhile_fend ht he,dropWhile_fend ht he]
  generalize (l.takeWhile fun f => f.stop ≤ ofs) = before at *
  generalize (l.dropWhile fun f => f.stop ≤ ofs) = rest at *
  subst hsplit
  have hN : fend ⟨ofs,size,some fn⟩ = ofs + size := u32_of_lt hfit
  cases rest with
  | nil =>
    have hme : m = e := ht₂
    subst hme
    rw [append_nil] at hcount ⊢
    have h := inserted_past_end ht₁ hsize hfit (by omega) (by simpa using hfn) hcount
    rw [lastend_eq ht₁ he]
    by_cases hlt : m < ofs
    · grind
    · grind
  | cons this next =>
    obtain ⟨hofs,hstop⟩ := hhead this next rfl
    have hthis : fend this = this.stop := fend_eq_stop ht₂ he mem_cons_self
    simp only [hN,hthis]
    by_cases hlt : this.ofs < ofs
    · simp only [hlt,if_true]
      by_cases hin : ofs + size < this.stop
      · simp only [hin,if_true]
        exact ⟨_,_,rfl,inserted_split ht₁ ht₂ he hsize hlt hin hfn hcount⟩
      · simp only [hin,if_false]
        refine ⟨_,_,rfl,inserted_overlay ht₁ ht₂ ht₂.2.2 he hsize hfit
          (front_spec ht₂ he hlt hstop) (by omega) ?_ ?_ ?_ hbound hfn hcount⟩
        · intro p hp
          rw [valueAt_cons_neg (by omega)]
        · intro p hp
          simp only [isStart_cons]
          constructor
          · exact Or.inr
          · grind
        · simp only [fragsOf_cons,fragsOf_nil]
          omega
    · simp only [hlt,if_false]
      have hmo : m = ofs := by omega
      subst hmo
      have hnil : Front m e m (this :: next) [] := by
        refine ⟨rfl,by omega,fun p => ?_⟩
        have := ht₂.le
        simp only [not_isStart_nil,false_iff]
        rintro (h | ⟨h,h'⟩)
        · omega
        · have := h.bounds ht₂; omega
      exact ⟨_,_,rfl,inserted_overlay ht₁ ht₂ ht₂ he hsize hfit hnil (by omega) (fun _ _ => rfl)
        (fun _ _ => Iff.rfl) (by simp) hbound hfn hcount⟩

end Simpad.Jffs2
