import Simpad.Jffs2.Inode

namespace Simpad.Jffs2
open Word Segments List

theorem obsoleteNodeFrag_same (st : Store) (frag : Frag) :
    SameNodes st (obsoleteNodeFrag st frag) := by
  unfold obsoleteNodeFrag
  cases frag.val with
  | none => exact .refl st
  | some i =>
    simp only
    split
    · exact (SameNodes.setFrags _ _ _).trans (.markNodeObsolete _ _)
    · exact .setFrags _ _ _

theorem obsoleteNodeFrag_next (st : Store) (frag : Frag) :
    (obsoleteNodeFrag st frag).next = st.next := (obsoleteNodeFrag_same st frag).next

theorem incFrags_same (st : Store) (frag : Frag) : SameNodes st (incFrags st frag) := by
  unfold incFrags
  cases frag.val with
  | none => exact .refl st
  | some i => exact .setFrags _ _ _

theorem overlay_same (st : Store) (newfrag : Frag) (l : List Frag) :
    SameNodes st (overlay st newfrag l).2 := by
  have hfold : ∀ (rm : List Frag) (st : Store), SameNodes st (rm.foldl obsoleteNodeFrag st) := by
    intro rm
    induction rm with
    | nil => exact .refl
    | cons frag rm ih => exact fun st => (obsoleteNodeFrag_same st frag).trans (ih _)
  unfold overlay
  grind

theorem addFullDnodeToFraglist_same (alloc : ℕ → Bool) (st : Store) (list : List Frag) (fn : ℕ) :
    SameNodes st (addFullDnodeToFraglist alloc st list fn).2 := by
  have hone : SameNodes st (st.setFrags fn 1) := .setFrags _ _ _
  unfold addFullDnodeToFraglist
  simp only
  split
  · exact .refl st
  · split
    · exact .refl st
    · split
      · grind
      · split
        · split
          · split
            · exact hone
            · exact hone.trans (incFrags_same _ _)
          · exact hone.trans (overlay_same _ _ _)
        · exact hone.trans (overlay_same _ _ _)

theorem addFullDnodeToFraglist_next (alloc : ℕ → Bool) (st : Store) (list : List Frag) (fn : ℕ) :
    (addFullDnodeToFraglist alloc st list fn).2.next = st.next :=
  (addFullDnodeToFraglist_same alloc st list fn).next

variable {fn e size : ℕ} {st : Store} {f : Inode} {l : List Frag}

theorem overlay_val {newfrag frag : Frag} (h : frag ∈ (overlay st newfrag l).1) :
    ∃ g ∈ l, g.val = frag.val := by
  unfold overlay at h
  split at h
  · exact absurd h not_mem_nil
  · next this next hd =>
    have hsub : ∀ g ∈ this :: next, g ∈ l := fun g hg => dropWhile_subset _ (hd ▸ hg)
    split at h
    · exact ⟨frag,hsub frag h,rfl⟩
    · grind

theorem addFullDnodeToFraglist_val {alloc : ℕ → Bool} {list : List Frag}
    (h : (addFullDnodeToFraglist alloc st list fn).1 = .ok l) {frag : Frag} (hf : frag ∈ l) :
    frag.val = none ∨ frag.val = some fn ∨ ∃ g ∈ list, g.val = frag.val := by
  have hold : ∀ g ∈ list, g.val = frag.val →
      frag.val = none ∨ frag.val = some fn ∨ ∃ g ∈ list, g.val = frag.val :=
    fun g hg hv => Or.inr (Or.inr ⟨g,hg,hv⟩)
  have hbefore : ∀ g ∈ list.takeWhile fun this => fend this ≤ (st.node fn).fn.ofs, g ∈ list :=
    fun g hg => takeWhile_subset _ hg
  unfold addFullDnodeToFraglist at h
  simp only at h
  split at h
  · cases h
  · split at h
    · cases h
      exact hold frag hf rfl
    · split at h
      · split at h
        · grind
        · grind
      · next this next hd =>
        have hrest : ∀ g ∈ this :: next, g ∈ list := fun g hg => dropWhile_subset _ (hd ▸ hg)
        have hover := @overlay_val (st.setFrags fn 1)
        split at h
        · split at h
          · split at h
            · cases h
            · cases h
              grind
          · cases h
            simp only [mem_append,mem_cons] at hf
            grind
        · cases h
          simp only [mem_append,mem_cons] at hf
          grind

/-- The node is on flash and not marked obsolete. -/
def Store.Alive (st : Store) (i : ℕ) : Prop := i < st.next ∧ (st.node i).obsolete = false

structure NewNode (st : Store) (raw : RawNode) (ofs : ℕ) (st' : Store) : Prop where
  next : st'.next = st.next + 1
  raw : ∀ i, (st'.node i).raw = if i = st.next then raw else (st.node i).raw
  ofs : ∀ i, (st'.node i).fn.ofs = if i = st.next then ofs else (st.node i).fn.ofs

theorem NewNode.append (st : Store) (x : Node) : NewNode st x.raw x.fn.ofs (st.append x) :=
  ⟨rfl,fun i => by rw [Store.append_node]; split <;> rfl,
    fun i => by rw [Store.append_node]; split <;> rfl⟩

theorem NewNode.trans_same {st' st'' : Store} {raw : RawNode} {ofs : ℕ} (h : NewNode st raw ofs st')
    (hs : SameNodes st' st'') : NewNode st raw ofs st'' :=
  ⟨hs.next.trans h.next,fun i => (hs.raw i).trans (h.raw i),fun i => (hs.ofs i).trans (h.ofs i)⟩

/-- The inode after a node for `[ri.offset,ri.offset + ri.dsize)` went into a list that tiled
`[0,e)`. -/
structure Added (f : Inode) (ri : RawInode) (data : List Byte) (e : ℕ) (f' : Inode) : Prop where
  rest : f' =
    { f with st := f'.st, fraglist := f'.fraglist, metadata := none, highestVersion := ri.version }
  node : NewNode f.st (.inode ri data) ri.offset f'.st
  tiles : Tiles 0 f'.fraglist (max e (ri.offset + ri.dsize))
  value : ∀ p, valueAt f'.fraglist p =
    if ri.offset ≤ p ∧ p < ri.offset + ri.dsize then some (some f.st.next)
    else if e ≤ p ∧ p < ri.offset then some none else valueAt f.fraglist p
  start : ∀ p, IsStart f'.fraglist p ↔ p = ri.offset ∨
    (p = ri.offset + ri.dsize ∧ ri.offset + ri.dsize < e) ∨ (p = e ∧ e < ri.offset) ∨
    (IsStart f.fraglist p ∧ ¬(ri.offset ≤ p ∧ p ≤ ri.offset + ri.dsize))
  counted : CountedBy f'.st (fragsOf f'.fraglist)
  single : fragsOf f'.fraglist f.st.next = 1
  obsolete : ∀ i, (f'.st.node i).obsolete = if i = f.st.next then false else
    ((f.st.node i).obsolete || decide (f.metadata = some i) ||
      decide (fragsOf f.fraglist i ≠ 0 ∧ fragsOf f'.fraglist i = 0))

theorem Inode.dropMetadata_obsolete (f : Inode) (i : ℕ) : (f.dropMetadata.st.node i).obsolete =
    ((f.st.node i).obsolete || decide (f.metadata = some i)) := by
  unfold Inode.dropMetadata
  cases hm : f.metadata with
  | none => simp
  | some m =>
    simp only [Store.markNodeObsolete_obsolete]
    by_cases h : i = m
    · subst h; simp
    · have h' : ¬m = i := fun h' => h h'.symm
      simp [h,h']

theorem Inode.dropMetadata_eq (f : Inode) :
    f.dropMetadata = { f with st := f.dropMetadata.st, metadata := none } ∧
    SameNodes f.st f.dropMetadata.st ∧
    ∀ i, (f.dropMetadata.st.node i).fn = (f.st.node i).fn := by
  obtain ⟨st,mode,isize,rdev,hv,l,md,dents,mapping⟩ := f
  cases md with
  | none => exact ⟨rfl,.refl _,fun _ => rfl⟩
  | some m => exact ⟨rfl,.markNodeObsolete _ _,fun i => by simp [Inode.dropMetadata]⟩

theorem Inode.dropMetadata_next (f : Inode) : f.dropMetadata.st.next = f.st.next :=
  (Inode.dropMetadata_eq f).2.1.next

theorem Inode.addFullDnodeToInode_next (f : Inode) (fn : ℕ) :
    (f.addFullDnodeToInode fn).st.next = f.st.next := by
  have h := addFullDnodeToFraglist_next (fun _ => true) f.st f.fraglist fn
  unfold Inode.addFullDnodeToInode
  grind

theorem Inode.addNode_next (f : Inode) (ri : RawInode) (data : List Byte) :
    (f.addNode ri data).st.next = f.st.next + 1 := by
  rw [Inode.addNode,Inode.dropMetadata_next,Inode.addFullDnodeToInode_next]
  rfl

theorem Inode.addNode_mapping (f : Inode) (ri : RawInode) (data : List Byte) :
    (f.addNode ri data).mapping = f.mapping := by
  have hrest := (Inode.dropMetadata_eq ((({ f with highestVersion := ri.version }).writeDnode ri
    data).addFullDnodeToInode f.st.next)).1
  rw [Inode.addNode,hrest]
  unfold Inode.addFullDnodeToInode
  split <;> rfl

theorem Inode.addFullDnodeToInode_ok
    (h : addFullDnodeToFraglist (fun _ => true) f.st f.fraglist fn = (.ok l,st)) :
    f.addFullDnodeToInode fn = { f with st := st, fraglist := l } := by
  unfold Inode.addFullDnodeToInode
  rw [h]

theorem Inode.addNode_spec {ri : RawInode} (data : List Byte) (ht : Tiles 0 f.fraglist e)
    (he : e < 4294967296) (hc : CountedBy f.st (fragsOf f.fraglist))
    (hnew : fragsOf f.fraglist f.st.next = 0) (hmeta : f.metadata ≠ some f.st.next)
    (hpos : 0 < ri.dsize) (hfit : ri.offset + ri.dsize < 4294967296) :
    Added f ri data e (f.addNode ri data) := by
  let st := f.st.append ⟨.inode ri data,false,⟨ri.offset,ri.dsize,0⟩⟩
  have hnode : ∀ i, st.node i = if i = f.st.next then
      ⟨.inode ri data,false,⟨ri.offset,ri.dsize,0⟩⟩ else f.st.node i :=
    fun i => Store.append_node f.st i _
  have hfn : (st.node f.st.next).fn = ⟨ri.offset,ri.dsize,0⟩ := by rw [hnode,if_pos rfl]
  have hcount : CountedBy st (fragsOf f.fraglist) := by
    intro i hi
    have hne : i ≠ f.st.next := fun h => hi (h ▸ hnew)
    rw [hnode,if_neg hne]
    exact hc i hi
  have hins := addFullDnodeToFraglist_spec ht he (by rw [hfn]; exact hpos) (by rw [hfn]; exact hfit)
    hcount hnew
  rw [hfn] at hins
  obtain ⟨l,st',heq,hins⟩ := hins
  have hadd : (({ f with highestVersion := ri.version }).writeDnode ri data).addFullDnodeToInode
      f.st.next = { f with st := st', fraglist := l, highestVersion := ri.version } :=
    Inode.addFullDnodeToInode_ok heq
  unfold Inode.addNode
  rw [hadd]
  generalize hcut : ({ f with st := st', fraglist := l, highestVersion := ri.version } : Inode) = cut
  obtain ⟨hrest,hsame,hfns⟩ := Inode.dropMetadata_eq cut
  have hobs := Inode.dropMetadata_obsolete cut
  subst hcut
  generalize Inode.dropMetadata _ = f' at hrest hsame hfns hobs
  have hl : f'.fraglist = l := by rw [hrest]
  refine ⟨?_,?_,?_,?_,?_,?_,?_,?_⟩
  · rw [hl]
    exact hrest
  · exact (NewNode.append f.st _).trans_same (hins.same.trans hsame)
  · rw [hl]
    exact hins.tiles
  · rw [hl]
    exact hins.value
  · rw [hl]
    exact hins.start
  · rw [hl]
    intro i hi
    rw [hfns]
    exact hins.counted i hi
  · rw [hl]
    exact hins.single
  · intro i
    rw [hl,hobs i]
    rw [hins.obsolete i,hnode]
    by_cases h : i = f.st.next
    · subst h
      simp [hnew,hmeta]
    · grind

/-- The inode after a node without text became its metadata and the file was cut to `size`. -/
structure Tagged (f : Inode) (ri : RawInode) (e size : ℕ) (f' : Inode) : Prop where
  rest : f' = { f with
    st := f'.st, fraglist := f'.fraglist, isize := size, metadata := some f.st.next
    highestVersion := ri.version, mapping := f'.mapping }
  node : NewNode f.st (.inode ri []) ri.offset f'.st
  tiles : Tiles 0 f'.fraglist (min e size)
  value : ∀ p, valueAt f'.fraglist p = if p < size then valueAt f.fraglist p else none
  start : ∀ p, IsStart f'.fraglist p ↔ IsStart f.fraglist p ∧ p < size
  counted : CountedBy f'.st (fragsOf f'.fraglist)
  obsolete : ∀ i, (f'.st.node i).obsolete = if i = f.st.next then false else
    ((f.st.node i).obsolete || decide (f.metadata = some i) ||
      decide (fragsOf f.fraglist i ≠ 0 ∧ fragsOf f'.fraglist i = 0))

theorem Inode.tag_spec {ri : RawInode} {r : List Frag × Store} (mapping : ℕ → Option Page)
    (hnew : fragsOf f.fraglist f.st.next = 0) (hmeta : f.metadata ≠ some f.st.next)
    (ht : Tiles 0 r.1 (min e size)) (hr : Truncated (f.st.append
      ⟨.inode ri [],false,⟨ri.offset,ri.dsize,0⟩⟩) size f.fraglist (fun _ => 0) r) :
    Tagged f ri e size { ({ f with
      st := r.2, fraglist := r.1, isize := size, highestVersion := ri.version
      mapping := mapping } : Inode).dropMetadata with metadata := some f.st.next } := by
  have hnode := fun i => Store.append_node f.st i ⟨.inode ri [],false,⟨ri.offset,ri.dsize,0⟩⟩
  generalize hcut : ({ f with
    st := r.2, fraglist := r.1, isize := size, highestVersion := ri.version
    mapping := mapping } : Inode) = cut
  obtain ⟨hrest,hsame,hfns⟩ := Inode.dropMetadata_eq cut
  have hobs := Inode.dropMetadata_obsolete cut
  subst hcut
  generalize Inode.dropMetadata _ = g at hrest hsame hfns hobs
  have hl : g.fraglist = r.1 := by rw [hrest]
  refine ⟨?_,?_,?_,?_,?_,?_,?_⟩
  · rw [hrest]
  · exact (NewNode.append f.st _).trans_same (hr.same.trans hsame)
  · simp only [hl]
    exact ht
  · simp only [hl]
    exact hr.value
  · simp only [hl]
    exact hr.start
  · intro i hi
    simp only [hl] at hi ⊢
    rw [hfns]
    simpa using hr.counted i (by simpa using hi)
  · intro i
    simp only [hl]
    rw [hobs i]
    rw [hr.obsolete i,hnode]
    by_cases h : i = f.st.next
    · subst h
      simp [hnew,hmeta]
    · grind

theorem truncated_of_le (ht : Tiles 0 l e) (he : e ≤ size) (hc : CountedBy st (fragsOf l)) :
    Truncated st size l (fun _ => 0) (l,st) := by
  refine ⟨⟨.refl st,by simpa using hc,fun _ => le_rfl,by simp⟩,?_,?_⟩
  · intro p
    split
    · rfl
    · exact ht.valueAt_ge (by omega)
  · intro p
    constructor
    · intro h
      exact ⟨h,by have := h.bounds ht; omega⟩
    · exact fun h => h.1

namespace Inode
variable {c : Codecs} {f : Inode} {e size : ℕ}

theorem setattrData_reg (hmode : f.mode = .reg) : f.setattrData c = .ok [] := by
  simp only [setattrData,hmode]

theorem setattrNode_grow (hlt : f.isize < size) (hsize : size < 4294967296) :
    (f.setattrNode size []).offset = f.isize ∧ (f.setattrNode size []).dsize = size - f.isize ∧
    (f.setattrNode size []).fnSize = size - f.isize := by
  have hds : (f.setattrNode size []).dsize = size - f.isize :=
    (if_pos hlt).trans (sub32_of_le hlt.le hsize)
  refine ⟨if_pos hlt,hds,?_⟩
  rw [RawInode.fnSize,if_neg]
  · exact hds
  · omega

theorem setattr_grow (hmode : f.mode = .reg) (hlt : f.isize < size) :
    f.setattr c size = .ok { f.addNode (f.setattrNode size []) [] with isize := size } := by
  simp only [setattr,setattrData_reg hmode,hlt,if_true]
  generalize hg : Inode.addFullDnodeToInode _ f.st.next = g
  unfold addNode
  rw [hg]
  obtain ⟨st,mode,isize,rdev,hv,l,md,dents,mapping⟩ := g
  cases md <;> rfl

theorem setattr_cut (hmode : f.mode = .reg) (hle : size ≤ f.isize) (ht : Tiles 0 f.fraglist e)
    (he : e ≤ f.isize) (hsmall : f.isize < 4294967296)
    (hc : CountedBy f.st (fragsOf f.fraglist)) (hnew : fragsOf f.fraglist f.st.next = 0)
    (hmeta : f.metadata ≠ some f.st.next) :
    ∃ f', f.setattr c size = .ok f' ∧ Tagged f (f.setattrNode size []) e size f' ∧
      f'.mapping = if size < f.isize then (f.vmtruncate size).mapping else f.mapping := by
  let ri := f.setattrNode size []
  let st := f.st.append ⟨.inode ri [],false,⟨ri.offset,ri.dsize,0⟩⟩
  have hcount : CountedBy st (fragsOf f.fraglist) := by
    intro i hi
    have hne : i ≠ f.st.next := fun h => hi (h ▸ hnew)
    rw [Store.append_node,if_neg hne]
    exact hc i hi
  have hnlt : ¬f.isize < size := by omega
  simp only [setattr,setattrData_reg hmode,hnlt,if_false]
  refine ⟨_,rfl,?_,?_⟩
  · by_cases hcut : size < f.isize
    · simp only [hcut,if_true]
      exact tag_spec _ hnew hmeta (truncateFraglist_tiles ht (by omega) (Nat.zero_le _))
        (truncateFraglist_spec ht (by omega) (by simpa using hcount) (by
          intro i
          have := fragsOf_le_length f.fraglist i
          have := length_le_of_tiles ht
          omega))
    · obtain rfl : size = f.isize := by omega
      simp only [hcut,if_false]
      have hmin : min e f.isize = e := by omega
      exact tag_spec f.mapping hnew hmeta (by rw [hmin]; exact ht) (truncated_of_le ht he hcount)
  · by_cases hcut : size < f.isize
    · simp only [hcut,if_true]
      rw [(dropMetadata_eq _).1]
      rfl
    · simp only [hcut,if_false]
      rw [(dropMetadata_eq _).1]
      rfl

end Inode

end Simpad.Jffs2
