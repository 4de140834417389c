import Simpad.Jffs2.Coherent
import Simpad.Jffs2.Direntlist

namespace Simpad.Jffs2
open Word Segments Versioned List

variable {st st' : Store}

theorem addTnToList_perm (st : Store) (tn : ℕ) (l : List ℕ) :
    (addTnToList st tn l).Perm (tn :: l) := by
  induction l with
  | nil => exact List.Perm.refl _
  | cons prev rest ih =>
    rw [addTnToList]
    grind

theorem addTnToList_sorted (tn : ℕ) {l : List ℕ} (h : l.Pairwise fun a b => st.ver a ≤ st.ver b) :
    (addTnToList st tn l).Pairwise fun a b => st.ver a ≤ st.ver b := by
  induction l with
  | nil => exact pairwise_singleton _ _
  | cons prev rest ih =>
    obtain ⟨hprev,hrest⟩ := pairwise_cons.mp h
    rw [addTnToList]
    split
    · next hlt =>
      refine pairwise_cons.mpr ⟨fun x hx => ?_,ih hrest⟩
      rcases mem_cons.mp ((addTnToList_perm st tn rest).subset hx) with rfl | hx
      · exact hlt.le
      · exact hprev x hx
    · next hge =>
      refine pairwise_cons.mpr ⟨fun x hx => ?_,h⟩
      rcases mem_cons.mp hx with rfl | hx
      · omega
      · have := hprev x hx
        omega

theorem addTnToList_congr (h : ∀ i, st'.ver i = st.ver i) (tn : ℕ) (l : List ℕ) :
    addTnToList st' tn l = addTnToList st tn l := by
  induction l with
  | nil => rfl
  | cons prev rest ih => simp only [addTnToList,h,ih]

theorem setFullDnode_node (st : Store) (i j : ℕ) (ri : RawInode) :
    (st.setFullDnode i ri).node j = if j = i then
      { st.node i with fn := { (st.node i).fn with ofs := ri.offset, size := ri.fnSize } }
      else st.node j :=
  Store.modify_node st i j _

/-- What `jffs2_get_inode_nodes` has gathered from the references in `seen`. -/
structure Gathered (st : Store) (seen : List ℕ) (a : InodeNodes) : Prop where
  next : a.st.next = st.next
  raw : ∀ i, (a.st.node i).raw = (st.node i).raw
  gone : ∀ i, (st.node i).obsolete = true → (a.st.node i).obsolete = true
  tns : ∀ i ∈ a.tns, i ∈ seen ∧ (st.node i).obsolete = false ∧
    ∃ ri data, (st.node i).raw = .inode ri data ∧
      (a.st.node i).fn.ofs = ri.offset ∧ (a.st.node i).fn.size = ri.fnSize
  nodup : seen.Nodup → a.tns.Nodup
  filed : Filed a.fds

namespace Gathered
variable {seen : List ℕ} {a : InodeNodes} {ref : ℕ} (h : Gathered st seen a)
include h

theorem ver (i : ℕ) : a.st.ver i = st.ver i := by rw [Store.ver,h.raw,Store.ver]

theorem skip : Gathered st (seen ++ [ref]) a := by
  refine ⟨h.next,h.raw,h.gone,fun i hi => ?_,fun hnd => h.nodup hnd.of_append_left,h.filed⟩
  obtain ⟨hseen,hrest⟩ := h.tns i hi
  grind

theorem dirent (fd : FullDirent) (highestVersion : ℕ) : Gathered st (seen ++ [ref])
    { a with
      st := match (addFdToList fd a.fds).2 with
        | none => a.st
        | some raw => a.st.markNodeObsolete raw
      fds := (addFdToList fd a.fds).1
      highestVersion := highestVersion } := by
  have hs : Gathered st (seen ++ [ref]) a := h.skip
  have hfiled : Filed (addFdToList fd a.fds).1 := filed_addFd h.filed
  cases (addFdToList fd a.fds).2 with
  | none => exact ⟨hs.next,hs.raw,hs.gone,hs.tns,hs.nodup,hfiled⟩
  | some raw =>
    refine ⟨hs.next,fun i => ?_,fun i hi => ?_,fun i hi => ?_,hs.nodup,hfiled⟩
    · simp only [Store.markNodeObsolete_raw,hs.raw]
    · simp only [Store.markNodeObsolete_obsolete]
      split
      · rfl
      · exact hs.gone i hi
    · simp only [Store.markNodeObsolete_fn]
      exact hs.tns i hi

theorem dnode {ri : RawInode} {data : List Byte} (hobs : (st.node ref).obsolete = false)
    (hraw : (st.node ref).raw = .inode ri data) (highestVersion : ℕ) :
    Gathered st (seen ++ [ref])
      { a with
        st := a.st.setFullDnode ref ri
        tns := addTnToList a.st ref a.tns
        highestVersion := highestVersion } := by
  have hperm := addTnToList_perm a.st ref a.tns
  refine ⟨h.next,fun i => ?_,fun i hi => ?_,fun i hi => ?_,fun hnd => ?_,h.filed⟩
  · grind [setFullDnode_node,h.raw i]
  · grind [setFullDnode_node,h.gone i]
  · simp only [setFullDnode_node]
    by_cases hir : i = ref
    · grind
    · rw [if_neg hir]
      have hs : Gathered st (seen ++ [ref]) a := h.skip
      exact hs.tns i ((mem_cons.mp (hperm.subset hi)).resolve_left hir)
  · refine hperm.nodup_iff.mpr (nodup_cons.mpr ⟨fun hmem => ?_,h.nodup hnd.of_append_left⟩)
    -- a reference comes only once, so it is not among those seen before
    exact (nodup_append.mp hnd).2.2 ref (h.tns ref hmem).1 ref (by simp) rfl

theorem step : Gathered st (seen ++ [ref]) (getInodeNode a ref) := by
  unfold getInodeNode
  split
  · exact h.skip
  · next hobs =>
    have hobs' : (st.node ref).obsolete = false := by
      by_contra hno
      exact hobs (h.gone ref (by simpa using hno))
    split
    · exact h.dirent _ _
    · next ri data hraw => exact h.dnode hobs' ((h.raw ref).symm.trans hraw) _

end Gathered

theorem getInodeNodes_gathered (st : Store) (refs : List ℕ) :
    Gathered st refs (getInodeNodes st refs) := by
  induction refs using reverseRecOn with
  | nil => exact ⟨rfl,fun _ => rfl,fun _ => id,by simp [getInodeNodes],fun _ => .nil,.nil⟩
  | append_singleton refs ref ih =>
    rw [getInodeNodes,foldl_append]
    exact ih.step

/-- What it knows when they are data nodes. -/
structure Found (st : Store) (seen : List ℕ) (a : InodeNodes) : Prop extends
    Gathered st seen a where
  obsolete : ∀ i, (a.st.node i).obsolete = (st.node i).obsolete
  fds : a.fds = []
  perm : a.tns.Perm (seen.filter fun i => !(st.node i).obsolete)
  sorted : a.tns.Pairwise fun i j => st.ver i ≤ st.ver j
  bound : ∀ i ∈ a.tns, st.ver i ≤ a.highestVersion
  reached : a.highestVersion = 0 ∨ ∃ i ∈ a.tns, st.ver i = a.highestVersion

theorem Found.fn {seen : List ℕ} {a : InodeNodes} (h : Found st seen a) {i : ℕ} (hi : i ∈ a.tns)
    {ri : RawInode} {data : List Byte} (hraw : (st.node i).raw = .inode ri data) :
    (a.st.node i).fn.ofs = ri.offset ∧ (a.st.node i).fn.size = ri.fnSize := by
  obtain ⟨-,-,ri',data',hraw',hfn⟩ := h.tns i hi
  cases hraw.symm.trans hraw'
  exact hfn

theorem Found.step {seen : List ℕ} {a : InodeNodes} {ref : ℕ} (h : Found st seen a)
    (hdata : (st.node ref).obsolete = false → ∃ ri data, (st.node ref).raw = .inode ri data) :
    Found st (seen ++ [ref]) (getInodeNode a ref) := by
  have hg : Gathered st (seen ++ [ref]) (getInodeNode a ref) := h.toGathered.step
  unfold getInodeNode at hg ⊢
  rw [h.obsolete] at hg ⊢
  by_cases hobs : (st.node ref).obsolete = true
  · rw [if_pos hobs] at hg ⊢
    refine ⟨hg,h.obsolete,h.fds,?_,h.sorted,h.bound,h.reached⟩
    simpa [hobs] using h.perm
  · have hobs' : (st.node ref).obsolete = false := by simpa using hobs
    obtain ⟨ri,data,hraw⟩ := hdata hobs'
    have hver : st.ver ref = ri.version := by rw [Store.ver,hraw]; rfl
    have hperm := addTnToList_perm a.st ref a.tns
    rw [if_neg hobs] at hg ⊢
    simp only [h.raw,hraw] at hg ⊢
    refine ⟨hg,fun i => ?_,h.fds,?_,?_,?_,Or.inr ?_⟩
    · grind [setFullDnode_node,h.obsolete i]
    · rw [filter_append]
      simp only [filter_singleton,hobs',Bool.not_false,cond_true]
      exact (hperm.trans (h.perm.cons ref)).trans (perm_append_singleton ref _).symm
    · rw [addTnToList_congr h.ver]
      exact addTnToList_sorted ref h.sorted
    · intro i hi
      simp only
      rcases mem_cons.mp (hperm.subset hi) with rfl | hi
      · omega
      · have := h.bound i hi
        omega
    · simp only
      by_cases hmax : a.highestVersion ≤ ri.version
      · grind
      · rcases h.reached with hz | ⟨i,hi,hv⟩
        · omega
        · grind

theorem getInodeNodes_found {refs : List ℕ} (hdata : ∀ i ∈ refs, (st.node i).obsolete = false →
    ∃ ri data, (st.node i).raw = .inode ri data) : Found st refs (getInodeNodes st refs) := by
  have hg := getInodeNodes_gathered st refs
  induction refs using reverseRecOn with
  | nil => exact ⟨hg,fun _ => rfl,rfl,.refl _,.nil,by simp [getInodeNodes],Or.inl rfl⟩
  | append_singleton refs ref ih =>
    rw [getInodeNodes,foldl_append]
    exact (ih (fun i hi => hdata i (mem_append_left _ hi)) (getInodeNodes_gathered st refs)).step
      (hdata ref (by simp))

/-- The inode when the nodes in `done` have been read into `init`. -/
structure Loaded (init : Inode) (done : List ℕ) (f : Inode) : Prop where
  rest : f = { init with st := f.st, fraglist := f.fraglist, metadata := f.metadata }
  same : SameNodes init.st f.st
  vals : ∀ frag ∈ f.fraglist, ∀ i, frag.val = some i → i ∈ done
  kept : ∀ m, f.metadata = some m → m ∈ done

namespace Loaded
variable {init f : Inode} {done : List ℕ} {tn : ℕ} (h : Loaded init done f)
include h

theorem drop : Loaded init done f.dropMetadata := by
  obtain ⟨hrest,hsame,-⟩ := Inode.dropMetadata_eq f
  have hl : f.dropMetadata.fraglist = f.fraglist := by rw [hrest]
  have hm : f.dropMetadata.metadata = none := by rw [hrest]
  have hf := h.rest
  refine ⟨?_,h.same.trans hsame,?_,?_⟩
  · rw [hrest,hf]
  · rw [hl]
    exact h.vals
  · grind

theorem frags_notMem (htn : tn ∉ done) : fragsOf f.fraglist tn = 0 := by
  by_contra hz
  obtain ⟨frag,hf,hv⟩ := fragsOf_ne_zero.mp hz
  exact htn (h.vals frag hf tn hv)

theorem weaken : Loaded init (done ++ [tn]) f :=
  ⟨h.rest,h.same,fun frag hf i hi => mem_append_left _ (h.vals frag hf i hi),
    fun m hm => mem_append_left _ (h.kept m hm)⟩

theorem add : Loaded init (done ++ [tn]) (f.addFullDnodeToInode tn) := by
  have hsame := addFullDnodeToFraglist_same (fun _ => true) f.st f.fraglist tn
  unfold Inode.addFullDnodeToInode
  split
  · next list st heq =>
    rw [heq] at hsame
    refine ⟨?_,h.same.trans hsame,fun frag hf i hi => ?_,fun m hm => mem_append_left _ (h.kept m hm)⟩
    · conv_lhs => rw [h.rest]
    · have hval := addFullDnodeToFraglist_val (by rw [heq]) hf
      rw [hi] at hval
      rcases hval with hval | hval | ⟨g,hg,hval⟩
      · cases hval
      · simp [Option.some.inj hval]
      · exact mem_append_left _ (h.vals g hg i hval)
  · next err st heq =>
    rw [heq] at hsame
    refine ⟨?_,h.same.trans hsame,h.weaken.vals,h.weaken.kept⟩
    conv_lhs => rw [h.rest]

theorem tag : Loaded init (done ++ [tn]) { f with metadata := some tn } := by
  refine ⟨?_,h.same,h.weaken.vals,fun m hm => ?_⟩
  · conv_lhs => rw [h.rest]
  · simp [Option.some.inj hm]

end Loaded

/-- One round of the loop: an older metadata node goes, then the node is laid over the list or
becomes the metadata. -/
theorem readTn_cases (a : Inode × ℕ) (tn : ℕ) : ∃ g, (g = a.1 ∨ g = a.1.dropMetadata) ∧
    (((g.st.node tn).fn.size ≠ 0 ∧ (readTn a tn).1 = g.addFullDnodeToInode tn) ∨
      ((g.st.node tn).fn.size = 0 ∧ (readTn a tn).1 = { g with metadata := some tn })) := by
  unfold readTn
  simp only
  split
  · grind
  · grind

theorem Loaded.readTn {init : Inode} {done : List ℕ} {a : Inode × ℕ} {tn : ℕ}
    (h : Loaded init done a.1) : Loaded init (done ++ [tn]) (readTn a tn).1 := by
  obtain ⟨g,hg,hstep⟩ := readTn_cases a tn
  have hload : Loaded init done g := by
    rcases hg with rfl | rfl
    · exact h
    · exact h.drop
  rcases hstep with ⟨-,heq⟩ | ⟨-,heq⟩
  · rw [heq]
    exact hload.add
  · rw [heq]
    exact hload.tag

/-- The fragments tile a range, each inside what its node was written for. -/
structure Spread (init f : Inode) : Prop where
  tiles : ∃ e < 4294967296, Tiles 0 f.fraglist e
  counted : CountedBy f.st (fragsOf f.fraglist)
  inside : ∀ p i, valueAt f.fraglist p = some (some i) → (init.st.node i).fn.ofs ≤ p ∧
    p < (init.st.node i).fn.ofs + (init.st.node i).fn.size

namespace Spread
variable {init f : Inode} {done : List ℕ} {tn : ℕ} (h : Spread init f)
include h

theorem drop : Spread init f.dropMetadata := by
  obtain ⟨hrest,-,hfn⟩ := Inode.dropMetadata_eq f
  have hl : f.dropMetadata.fraglist = f.fraglist := by rw [hrest]
  refine ⟨hl ▸ h.tiles,fun i hi => ?_,hl ▸ h.inside⟩
  rw [hl] at hi ⊢
  rw [hfn]
  exact h.counted i hi

theorem add (hload : Loaded init done f) (htn : tn ∉ done) (hpos : (f.st.node tn).fn.size ≠ 0)
    (hfit : (init.st.node tn).fn.ofs + (init.st.node tn).fn.size < 4294967296) :
    Spread init (f.addFullDnodeToInode tn) := by
  obtain ⟨e,he,ht⟩ := h.tiles
  rw [← hload.same.ofs,← hload.same.size] at hfit
  obtain ⟨l,st,heq,hins⟩ := addFullDnodeToFraglist_spec ht he (Nat.pos_of_ne_zero hpos) hfit
    h.counted (hload.frags_notMem htn)
  rw [Inode.addFullDnodeToInode_ok heq]
  refine ⟨⟨_,by omega,hins.tiles⟩,hins.counted,fun p i hp => ?_⟩
  rw [hins.value,hload.same.ofs,hload.same.size] at hp
  split at hp
  · next hin =>
    obtain rfl : tn = i := by simpa using hp
    exact hin
  · split at hp
    · simp at hp
    · exact h.inside p i hp

end Spread

theorem Spread.readTn {init : Inode} {done : List ℕ} {tn : ℕ} {a : Inode × ℕ}
    (hs : Spread init a.1) (hload : Loaded init done a.1) (htn : tn ∉ done)
    (hfit : (init.st.node tn).fn.ofs + (init.st.node tn).fn.size < 4294967296) :
    Spread init (readTn a tn).1 := by
  obtain ⟨g,hg,hstep⟩ := readTn_cases a tn
  obtain ⟨hload',hs'⟩ : Loaded init done g ∧ Spread init g := by
    rcases hg with rfl | rfl
    · exact ⟨hload,hs⟩
    · exact ⟨hload.drop,hs.drop⟩
  rcases hstep with ⟨hpos,heq⟩ | ⟨-,heq⟩
  · rw [heq]
    exact hs'.add hload' htn hpos hfit
  · rw [heq]
    exact ⟨hs'.tiles,hs'.counted,hs'.inside⟩

/-- The inode after the nodes in `done` have been replayed onto `init`, each newer than those
before it. -/
structure Replayed (init : Inode) (done : List ℕ) (r : Inode × ℕ) : Prop extends
    Loaded init done r.1, Spread init r.1 where
  shows : ∀ p, Shows init.st.ver init.st.Cov {i | i ∈ done} p (visible r.1.fraglist p)
  obsolete : ∀ i, (r.1.st.node i).obsolete = ((init.st.node i).obsolete ||
    decide (i ∈ done ∧ fragsOf r.1.fraglist i = 0 ∧ r.1.metadata ≠ some i))
  bare : ∀ m, r.1.metadata = some m → fragsOf r.1.fraglist m = 0 ∧
    (init.st.node m).fn.size = 0 ∧ r.2 = init.st.ver m
  whole : ∀ i ∈ done, (∀ j ∈ done, init.st.ver j ≤ init.st.ver i) → fragsOf r.1.fraglist i ≤ 1

namespace Replayed
variable {init : Inode} {done : List ℕ} {f : Inode} {v : ℕ}

theorem drop (h : Replayed init done (f,v)) : Replayed init done (f.dropMetadata,0) := by
  have hrest := (Inode.dropMetadata_eq f).1
  have hl : f.dropMetadata.fraglist = f.fraglist := by rw [hrest]
  have hm : f.dropMetadata.metadata = none := by rw [hrest]
  refine ⟨h.toLoaded.drop,h.toSpread.drop,?_,?_,?_,?_⟩
  · simp only [hl]
    exact h.shows
  · intro i
    simp only [Inode.dropMetadata_obsolete f,hl,hm]
    rw [h.obsolete i,Bool.or_assoc,← Bool.decide_or]
    congr 2
    apply propext
    constructor
    · rintro (⟨h₁,h₂,-⟩ | hi)
      · exact ⟨h₁,h₂,by simp⟩
      · exact ⟨h.kept i hi,(h.bare i hi).1,by simp⟩
    · grind
  · intro m hm'
    simp [hm] at hm'
  · simp only [hl]
    exact h.whole

section
variable {tn : ℕ} (h : Replayed init done (f,v)) (hmeta : f.metadata = none) (htn : tn ∉ done)
  (hver : ∀ j ∈ done, init.st.ver j < init.st.ver tn)
include h hver

theorem shows_next (p : ℕ) :
    (init.st.Cov tn p → Shows init.st.ver init.st.Cov {i | i ∈ done ++ [tn]} p (some tn)) ∧
    (¬init.st.Cov tn p →
      Shows init.st.ver init.st.Cov {i | i ∈ done ++ [tn]} p (visible f.fraglist p)) := by
  have hset : {i | i ∈ done ++ [tn]} = insert tn {i | i ∈ done} := by
    ext i
    simp [or_comm]
  rw [hset]
  exact (h.shows p).insert_newest fun j hj => Nat.le_of_lt (hver j hj)

include hmeta htn

theorem addData (hpos : (init.st.node tn).fn.size ≠ 0)
    (hcov : ∀ p, init.st.Cov tn p ↔ (init.st.node tn).fn.ofs ≤ p ∧
      p < (init.st.node tn).fn.ofs + (init.st.node tn).fn.size)
    (hfit : (init.st.node tn).fn.ofs + (init.st.node tn).fn.size < 4294967296) :
    Replayed init (done ++ [tn]) (f.addFullDnodeToInode tn,v) := by
  obtain ⟨e,he,ht⟩ := h.tiles
  have hpos' : (f.st.node tn).fn.size ≠ 0 := by rwa [h.same.size]
  have hload : Loaded init (done ++ [tn]) (f.addFullDnodeToInode tn) := h.toLoaded.add
  have hspread := h.toSpread.add h.toLoaded htn hpos' hfit
  have hins := addFullDnodeToFraglist_spec ht he (Nat.pos_of_ne_zero hpos')
    (by rw [h.same.size,h.same.ofs]; exact hfit) h.counted (h.frags_notMem htn)
  rw [h.same.size,h.same.ofs] at hins
  obtain ⟨l,st,heq,hins⟩ := hins
  rw [Inode.addFullDnodeToInode_ok heq] at hload hspread ⊢
  have hval : ∀ {p i : ℕ}, i ≠ tn → valueAt l p = some (some i) →
      valueAt f.fraglist p = some (some i) := by
    intro p i hi hp
    rw [hins.value] at hp
    grind
  have hfr : ∀ i, i ≠ tn → fragsOf l i ≠ 0 → fragsOf f.fraglist i ≠ 0 := by
    intro i hi hz
    obtain ⟨p,hp⟩ := (fragsOf_ne_zero_iff_valueAt hins.tiles).mp hz
    exact (fragsOf_ne_zero_iff_valueAt ht).mpr ⟨p,hval hi hp⟩
  refine ⟨hload,hspread,?_,?_,?_,?_⟩
  · intro p
    by_cases hc : init.st.Cov tn p
    · have hvis : visible l p = some tn := by
        rw [visible_eq_some,hins.value,if_pos ((hcov p).mp hc)]
      simp only [hvis]
      exact (shows_next h hver p).1 hc
    · have hvis : visible l p = visible f.fraglist p := by
        unfold visible
        rw [hins.value,if_neg (fun h' => hc ((hcov p).mpr h'))]
        split
        · next hgap => rw [ht.valueAt_ge hgap.1]; rfl
        · rfl
      simp only [hvis]
      exact (shows_next h hver p).2 hc
  · intro i
    rw [hins.obsolete i,h.obsolete i,Bool.or_assoc,← Bool.decide_or]
    congr 2
    apply propext
    simp only [hmeta,mem_append,mem_singleton]
    by_cases hit : i = tn
    · subst hit
      have hone := hins.single
      constructor
      · grind
      · omega
    · constructor
      · rintro (⟨h₁,h₂,-⟩ | ⟨h₁,h₂⟩)
        · grind
        · exact ⟨Or.inl (by_contra fun hno => h₁ (h.frags_notMem hno)),h₂,by simp⟩
      · grind
  · intro m hm
    simp [hmeta] at hm
  · intro i hi hmax
    have hmaxtn := hmax tn (by simp)
    rcases mem_append.mp hi with hi | hi
    · have := hver i hi
      omega
    · obtain rfl : i = tn := by simpa using hi
      exact Nat.le_of_eq hins.single

theorem addMetadata (hzero : (init.st.node tn).fn.size = 0) (hcov : ∀ p, ¬init.st.Cov tn p) :
    Replayed init (done ++ [tn]) ({ f with metadata := some tn },init.st.ver tn) := by
  have hnew : fragsOf f.fraglist tn = 0 := h.frags_notMem htn
  refine ⟨h.toLoaded.tag,⟨h.tiles,h.counted,h.inside⟩,?_,?_,?_,?_⟩
  · exact fun p => (shows_next h hver p).2 (hcov p)
  · intro i
    rw [h.obsolete i]
    congr 2
    simp only [hmeta,mem_append,mem_singleton]
    by_cases hit : i = tn
    · subst hit
      simp [htn]
    · have hit' : ¬tn = i := fun h' => hit h'.symm
      simp [hit,hit']
  · intro m hm
    obtain rfl : tn = m := by simpa using hm
    exact ⟨hnew,hzero,rfl⟩
  · intro i hi hmax
    have hmaxtn := hmax tn (by simp)
    rcases mem_append.mp hi with hi | hi
    · have := hver i hi
      omega
    · obtain rfl : i = tn := by simpa using hi
      simp only [hnew]
      omega

end

/-- The text range of the node as set up by `jffs2_get_inode_nodes`. -/
def Ready (st : Store) (i : ℕ) : Prop :=
  (∀ p, st.Cov i p ↔ (st.node i).fn.ofs ≤ p ∧ p < (st.node i).fn.ofs + (st.node i).fn.size) ∧
  (st.node i).fn.ofs + (st.node i).fn.size < 4294967296

theorem readTn {tn : ℕ} (h : Replayed init done (f,v)) (htn : tn ∉ done)
    (hver : ∀ j ∈ done, init.st.ver j < init.st.ver tn) (hready : Ready init.st tn) :
    Replayed init (done ++ [tn]) (readTn (f,v) tn) := by
  have hv : f.st.ver tn = init.st.ver tn := by rw [Store.ver,h.same.raw,Store.ver]
  -- an older metadata node goes first
  obtain ⟨g,w,hg,hgm,hstep⟩ : ∃ g w, Replayed init done (g,w) ∧ g.metadata = none ∧
      (if f.metadata.isSome ∧ v < f.st.ver tn then (f.dropMetadata,0) else (f,v)) = (g,w) := by
    cases hm : f.metadata with
    | none => exact ⟨f,v,h,hm,by simp⟩
    | some m =>
      obtain ⟨-,-,hmv⟩ := h.bare m hm
      have hmd := h.kept m hm
      have hlt : v < f.st.ver tn := by
        grind
      refine ⟨f.dropMetadata,0,h.drop,by rw [(Inode.dropMetadata_eq f).1],?_⟩
      simp [hlt]
  unfold Simpad.Jffs2.readTn
  simp only [hstep]
  rw [show (g.st.node tn).fn.size = (init.st.node tn).fn.size from hg.same.size tn]
  by_cases hz : (init.st.node tn).fn.size ≠ 0
  · rw [if_pos hz]
    exact addData hg hgm htn hver hz hready.1 hready.2
  · rw [if_neg hz,hv]
    have hz' : (init.st.node tn).fn.size = 0 := not_not.mp hz
    exact addMetadata hg hgm htn hver hz' fun p => by rw [hready.1]; omega

theorem foldl_readTn {tns : List ℕ} (h : Replayed init done (f,v))
    (hsorted : (done ++ tns).Pairwise fun i j => init.st.ver i < init.st.ver j)
    (hready : ∀ i ∈ tns, Ready init.st i) :
    Replayed init (done ++ tns) (tns.foldl Simpad.Jffs2.readTn (f,v)) := by
  induction tns generalizing done f v with
  | nil =>
    rw [append_nil]
    exact h
  | cons tn tns ih =>
    have hlt : ∀ j ∈ done, init.st.ver j < init.st.ver tn := fun j hj =>
      (pairwise_append.mp hsorted).2.2 j hj tn mem_cons_self
    have htn : tn ∉ done := fun hmem => lt_irrefl _ (hlt tn hmem)
    have hstep := h.readTn htn hlt (hready tn mem_cons_self)
    rw [append_cons] at hsorted ⊢
    exact ih hstep hsorted fun i hi => hready i (mem_cons_of_mem _ hi)

end Replayed

end Simpad.Jffs2
