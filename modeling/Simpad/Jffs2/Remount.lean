import Simpad.Jffs2.FileCoherent
import Simpad.Jffs2.Replay

namespace Simpad.Jffs2
open Word Segments Versioned List Runs

structure RegFlash (st : Store) : Prop where
  data : ∀ i, st.Alive i → ∃ ri data, (st.node i).raw = .inode ri data ∧
    ri.offset + ri.fnSize < 4294967296
  distinct : Set.InjOn st.ver st.alive
  latest : ∃ i ri data, st.Alive i ∧ (∀ j, st.Alive j → st.ver j ≤ st.ver i) ∧
    (st.node i).raw = .inode ri data ∧ ri.isize < 4294967296 ∧ ri.mode = .reg

/-- The references of the inode, in some order. -/
structure Lists (st : Store) (refs : List ℕ) : Prop where
  nodup : refs.Nodup
  known : ∀ i ∈ refs, i < st.next
  all : ∀ i, st.Alive i → i ∈ refs

/-- `g` has been opened from the flash `st`. -/
structure Reopened (st : Store) (g : Inode) : Prop where
  next : g.st.next = st.next
  raw : ∀ i, (g.st.node i).raw = (st.node i).raw
  mode : g.mode = .reg
  dents : g.dents = []
  tiles : ∃ e ≤ g.isize, Tiles 0 g.fraglist e
  counted : CountedBy g.st (fragsOf g.fraglist)
  shows : ∀ p < g.isize, Shows st.ver st.Cov st.alive p (visible g.fraglist p)
  frags : ∀ i, fragsOf g.fraglist i ≠ 0 → st.Alive i
  bare : ∀ m, g.metadata = some m → st.Alive m ∧ fragsOf g.fraglist m = 0 ∧ ∀ p, ¬st.Cov m p
  obsolete : ∀ i, st.Alive i → ((g.st.node i).obsolete = true ↔
    fragsOf g.fraglist i = 0 ∧ g.metadata ≠ some i)
  gone : ∀ i, (st.node i).obsolete = true → (g.st.node i).obsolete = true
  ofs : ∀ i, st.Alive i → ∀ ri data, (st.node i).raw = .inode ri data →
    (g.st.node i).fn.ofs = ri.offset
  bound : ∀ i, st.Alive i → st.ver i ≤ g.highestVersion
  whole : ∀ i, st.Alive i → st.ver i = g.highestVersion → fragsOf g.fraglist i ≤ 1
  latest : ∃ i ri data, st.Alive i ∧ (∀ j, st.Alive j → st.ver j ≤ st.ver i) ∧
    (st.node i).raw = .inode ri data ∧ ri.isize = g.isize ∧ ri.isize < 4294967296 ∧
    ri.mode = .reg ∧ (ri.fnSize = 0 → g.metadata = some i)

variable {f : Inode}

theorem Coherent.regFlash (h : Coherent f) (hreg : f.mode = .reg) : RegFlash f.st := by
  refine ⟨fun i hi => ?_,h.distinct,?_⟩
  · obtain ⟨ri,data,hraw,-,hfit,-⟩ := h.data i hi
    exact ⟨ri,data,hraw,hfit⟩
  · obtain ⟨i,ri,data,hi,hmax,hraw,hsize,hmode⟩ := h.latest
    exact ⟨i,ri,data,hi,hmax,hraw,hsize ▸ h.small,hmode.trans hreg⟩

/-- The inode when the loop of `jffs2_read_inode` starts. -/
def blankInode (a : InodeNodes) : Inode where
  st := a.st
  mode := .reg
  isize := 0
  rdev := 0
  highestVersion := a.highestVersion
  fraglist := []
  metadata := none
  dents := a.fds
  mapping := fun _ => none

theorem readTn_metadata {a : Inode × ℕ} {tn : ℕ} (hz : (a.1.st.node tn).fn.size = 0) :
    (readTn a tn).1.metadata = some tn := by
  obtain ⟨hrest,-,hfn⟩ := Inode.dropMetadata_eq a.1
  unfold readTn
  grind

section
variable {st : Store} {refs : List ℕ} (h : RegFlash st) (hr : Lists st refs)
include h hr

theorem Lists.found : Found st refs (getInodeNodes st refs) :=
  getInodeNodes_found fun i hi hobs =>
    have ⟨ri,data,hraw,_⟩ := h.data i ⟨hr.known i hi,hobs⟩
    ⟨ri,data,hraw⟩

theorem Lists.mem_tns (i : ℕ) : i ∈ (getInodeNodes st refs).tns ↔ st.Alive i := by
  rw [(hr.found h).perm.mem_iff,mem_filter]
  constructor
  · rintro ⟨hi,hobs⟩
    exact ⟨hr.known i hi,by simpa using hobs⟩
  · intro hi
    exact ⟨hr.all i hi,by simpa using hi.2⟩

theorem Lists.tns_sorted :
    (getInodeNodes st refs).tns.Pairwise fun i j => st.ver i < st.ver j := by
  have hf := hr.found h
  have hnd : (getInodeNodes st refs).tns.Nodup := hf.perm.nodup_iff.mpr (hr.nodup.filter _)
  refine (hf.sorted.and hnd).imp_of_mem fun {i j} hi hj hij => ?_
  refine Nat.lt_of_le_of_ne hij.1 fun heq => hij.2 ?_
  exact h.distinct ((hr.mem_tns h i).mp hi) ((hr.mem_tns h j).mp hj) heq

theorem Lists.replayed {l l' : List ℕ} (hl : (getInodeNodes st refs).tns = l ++ l') :
    Replayed (blankInode (getInodeNodes st refs)) l
      (l.foldl readTn (blankInode (getInodeNodes st refs),0)) := by
  have hf := hr.found h
  have hstart : Replayed (blankInode (getInodeNodes st refs)) []
      (blankInode (getInodeNodes st refs),0) := by
    refine ⟨⟨rfl,.refl _,nofun,nofun⟩,⟨⟨0,by decide,rfl⟩,fun i hi => absurd rfl hi,nofun⟩,?_,?_,?_,?_⟩
    · exact fun p j hj => absurd hj not_mem_nil
    · simp
    · exact fun m hm => absurd hm (by simp [blankInode])
    · simp
  refine hstart.foldl_readTn ?_ ?_
  · have hsorted := hr.tns_sorted h
    rw [hl] at hsorted
    refine (pairwise_append.mp hsorted).1.imp fun hij => ?_
    simpa only [blankInode,hf.ver] using hij
  · intro i hi
    have hi : i ∈ (getInodeNodes st refs).tns := hl ▸ mem_append_left l' hi
    obtain ⟨ri,data,hraw,hfit⟩ := h.data i ((hr.mem_tns h i).mp hi)
    obtain ⟨hofs,hsize⟩ := hf.fn hi hraw
    refine ⟨fun p => ?_,?_⟩
    · simp only [blankInode,Store.Cov,hf.raw,hraw,RawNode.Covers,hofs,hsize]
    · simpa only [blankInode,hofs,hsize] using hfit

theorem Lists.newest : ∃ l i ri data, (getInodeNodes st refs).tns = l ++ [i] ∧ st.Alive i ∧
    (∀ j, st.Alive j → st.ver j ≤ st.ver i) ∧ (st.node i).raw = .inode ri data ∧
    ri.isize < 4294967296 ∧ ri.mode = .reg ∧ (ri.fnSize = 0 →
      ((getInodeNodes st refs).tns.foldl readTn
        (blankInode (getInodeNodes st refs),0)).1.metadata = some i) := by
  have hf := hr.found h
  obtain ⟨m,ri,data,hm,hmax,hraw,hsize,hmode⟩ := h.latest
  have hsorted := hr.tns_sorted h
  have hmem := hr.mem_tns h
  have hfn := hf.fn ((hmem m).mpr hm) hraw
  rcases eq_nil_or_concat (getInodeNodes st refs).tns with hnil | ⟨l,i,hl⟩
  · grind
  rw [concat_eq_append] at hl
  have hi : st.Alive i := (hmem i).mp (by simp [hl])
  have hmi : m = i := by
    rcases mem_append.mp (hl ▸ (hmem m).mpr hm) with hml | hml
    · rw [hl] at hsorted
      have hlt := (pairwise_append.mp hsorted).2.2 m hml i (mem_singleton_self i)
      grind
    · exact mem_singleton.mp hml
  subst hmi
  refine ⟨l,m,ri,data,hl,hm,hmax,hraw,hsize,hmode,fun hz => ?_⟩
  rw [hl,foldl_append,foldl_cons,foldl_nil]
  refine readTn_metadata ?_
  rw [(hr.replayed h hl).same.size]
  exact hfn.2.trans hz

end

theorem Replayed.reopened {st st' : Store} {refs : List ℕ} {a : InodeNodes} {l : List Frag}
    {v e m : ℕ} {ri : RawInode} {data : List Byte} (h : Replayed (blankInode a) a.tns (f,v))
    (hreg : RegFlash st) (hf : Found st refs a) (hmem : ∀ i, i ∈ a.tns ↔ st.Alive i)
    (hm : st.Alive m) (hmax : ∀ j, st.Alive j → st.ver j ≤ st.ver m)
    (hraw : (st.node m).raw = .inode ri data) (hsize : ri.isize < 4294967296)
    (hmode : ri.mode = .reg) (hmeta : ri.fnSize = 0 → f.metadata = some m)
    (htiles : Tiles 0 l (min e ri.isize))
    (htr : Truncated f.st ri.isize f.fraglist (fun _ => 0) (l,st')) :
    Reopened st { f with mode := .reg, isize := ri.isize, fraglist := l, st := st' } := by
  have hver : ∀ i, (blankInode a).st.ver i = st.ver i := hf.ver
  have hcov : ∀ i p, (blankInode a).st.Cov i p ↔ st.Cov i p := fun i p => by
    rw [Store.Cov,Store.Cov,blankInode,hf.raw]
  have hset : {i | i ∈ a.tns} = st.alive := Set.ext hmem
  have hfrags : ∀ i, fragsOf l i ≠ 0 → fragsOf f.fraglist i ≠ 0 := fun i hi =>
    Nat.ne_of_gt (lt_of_lt_of_le (Nat.pos_of_ne_zero hi) (htr.frags i))
  have hhv : f.highestVersion = a.highestVersion := congrArg Inode.highestVersion h.rest
  have hmeta' : ∀ i, f.metadata = some i → fragsOf f.fraglist i = 0 := fun i hi => (h.bare i hi).1
  have hobs : ∀ i, (st'.node i).obsolete = (((st.node i).obsolete ||
      decide (i ∈ a.tns ∧ fragsOf f.fraglist i = 0 ∧ f.metadata ≠ some i)) ||
      decide (fragsOf f.fraglist i ≠ 0 ∧ 0 + fragsOf l i = 0)) := fun i => by
    rw [htr.obsolete i,h.obsolete i,blankInode,hf.obsolete]
  refine ⟨?_,?_,rfl,?_,⟨_,min_le_right _ _,htiles⟩,?_,?_,?_,?_,?_,?_,?_,?_,?_,?_⟩
  · exact htr.same.next.trans (h.same.next.trans hf.next)
  · exact fun i => (htr.same.raw i).trans ((h.same.raw i).trans (hf.raw i))
  · have hd : f.dents = a.fds := congrArg Inode.dents h.rest
    exact hd.trans hf.fds
  · simpa using htr.counted
  · intro p hp
    have hs := h.shows p
    rw [hset] at hs
    have hvis : visible l p = visible f.fraglist p := by
      rw [visible,htr.value,if_pos hp,visible]
    simp only [hvis]
    exact hs.congr (fun i _ => (hver i).symm) fun i _ => (hcov i p).symm
  · exact fun i hi => (hmem i).mp (by_contra fun hno => hfrags i hi (h.frags_notMem hno))
  · intro i hi
    obtain ⟨hz,hbare,-⟩ := h.bare i hi
    have hdone := h.kept i hi
    obtain ⟨ri,data,hraw,-⟩ := hreg.data i ((hmem i).mp hdone)
    have hfn : ri.fnSize = 0 := (hf.fn hdone hraw).2.symm.trans hbare
    refine ⟨(hmem i).mp hdone,Nat.le_zero.mp (hz ▸ htr.frags i),fun p => ?_⟩
    rw [Store.Cov,hraw,RawNode.Covers,hfn]
    omega
  · intro i hi
    have hobs := hobs i
    rw [hi.2] at hobs
    simp only [hobs,Bool.false_or,Bool.or_eq_true,decide_eq_true_eq,zero_add,hmem,hi,true_and]
    constructor
    · grind
    · grind
  · grind
  · intro i hi ri data hraw
    exact (htr.same.ofs i).trans ((h.same.ofs i).trans (hf.fn ((hmem i).mpr hi) hraw).1)
  · intro i hi
    simp only [hhv]
    exact hf.bound i ((hmem i).mpr hi)
  · intro i hi hv
    simp only [hhv] at hv
    refine (htr.frags i).trans (h.whole i ((hmem i).mpr hi) fun j hj => ?_)
    rw [hver,hver,hv]
    exact hf.bound j hj
  · grind

theorem readInode_reopened {st : Store} {refs : List ℕ} (c : Codecs) (ino : ℕ) (h : RegFlash st)
    (hr : Lists st refs) : ∃ g, readInode c ino st refs = some g ∧ Reopened st g := by
  obtain ⟨l,m,ri,data,hl,hm,hmax,hraw,hsize,hmode,hmeta⟩ := hr.newest h
  have hrep := hr.replayed h (append_nil _).symm
  obtain ⟨e,he,ht⟩ := hrep.tiles
  have hcount : ∀ i, 0 + fragsOf ((getInodeNodes st refs).tns.foldl readTn
      (blankInode (getInodeNodes st refs),0)).1.fraglist i < 4294967296 := fun i => by
    have := (fragsOf_le_length _ i).trans (le_trans (Nat.le_add_left _ 0) (length_le_of_tiles ht))
    omega
  refine ⟨_,?_,hrep.reopened h (hr.found h) (hr.mem_tns h) hm hmax hraw hsize hmode hmeta
    (truncateFraglist_tiles ht he (Nat.zero_le _))
    (truncateFraglist_spec ht he (by simpa using hrep.counted) hcount)⟩
  unfold readInode
  simp only [hl,getLast?_append,getLast?_singleton,Option.some_or,hraw,hmode]
  rfl

/-- The newest node ends where the file ends, or before. -/
def EndsInside (st : Store) : Prop := ∀ i ri data, st.Alive i → (∀ j, st.Alive j → st.ver j ≤ st.ver i) →
  (st.node i).raw = .inode ri data → ri.fnSize = 0 ∨ ri.offset + ri.fnSize ≤ ri.isize

namespace Reopened
variable {st : Store} {f g : Inode}

theorem ver (h : Reopened st g) (i : ℕ) : g.st.ver i = st.ver i := by
  rw [Store.ver,h.raw,Store.ver]

theorem alive_iff (h : Reopened st g) (i : ℕ) :
    g.st.Alive i ↔ st.Alive i ∧ (fragsOf g.fraglist i ≠ 0 ∨ g.metadata = some i) := by
  constructor
  · intro hi
    have hst : st.Alive i := by
      refine ⟨h.next ▸ hi.1,?_⟩
      by_contra hobs
      exact absurd (h.gone i (by simpa using hobs)) (by simp [hi.2])
    refine ⟨hst,?_⟩
    by_contra hno
    rw [not_or] at hno
    exact absurd ((h.obsolete i hst).mpr ⟨not_not.mp hno.1,hno.2⟩) (by simp [hi.2])
  · rintro ⟨hst,hor⟩
    refine ⟨h.next.symm ▸ hst.1,?_⟩
    by_contra hobs
    have := (h.obsolete i hst).mp (by simpa using hobs)
    exact hor.elim (fun hz => hz this.1) this.2

theorem same (hg : Reopened f.st g) (h : Coherent f) :
    g.isize = f.isize ∧ ∀ p < f.isize, visible g.fraglist p = visible f.fraglist p := by
  obtain ⟨i,ri,data,hi,hmax,hraw,hsize,-⟩ := hg.latest
  obtain ⟨j,rj,data',hj,hmaxj,hrawj,hsizej,-⟩ := h.latest
  obtain rfl : i = j := h.distinct hi hj (le_antisymm (hmaxj i hi) (hmax j hj))
  obtain ⟨rfl,-⟩ : ri = rj ∧ data = data' := by simpa using hraw.symm.trans hrawj
  have heq : g.isize = f.isize := hsize.symm.trans hsizej
  refine ⟨heq,fun p hp => ?_⟩
  exact (hg.shows p (heq.symm ▸ hp)).unique (h.top p hp) h.distinct

theorem newest_alive (h : Reopened st g) (hreg : RegFlash st) (hin : EndsInside st) :
    ∃ i ri data, g.st.Alive i ∧ (∀ j, st.Alive j → st.ver j ≤ st.ver i) ∧
      (st.node i).raw = .inode ri data ∧ ri.isize = g.isize ∧ ri.isize < 4294967296 ∧
      ri.mode = .reg := by
  obtain ⟨i,ri,data,hi,hmax,hraw,hsize,hsmall,hmode,hmeta⟩ := h.latest
  refine ⟨i,ri,data,(h.alive_iff i).mpr ⟨hi,?_⟩,hmax,hraw,hsize,hsmall,hmode⟩
  by_cases hz : ri.fnSize = 0
  · exact Or.inr (hmeta hz)
  · -- nothing lies over the newest node
    have hend := (hin i ri data hi hmax hraw).resolve_left hz
    have hcov : st.Cov i ri.offset := by
      rw [Store.Cov,hraw,RawNode.Covers]
      omega
    have hshow : Shows st.ver st.Cov st.alive ri.offset (some i) :=
      ⟨hi,hcov,fun j hj _ => hmax j hj⟩
    have hvis := (h.shows ri.offset (by omega)).unique hshow hreg.distinct
    obtain ⟨e,-,ht⟩ := h.tiles
    exact Or.inl ((fragsOf_ne_zero_iff_valueAt ht).mpr ⟨_,visible_eq_some.mp hvis⟩)

theorem coherent (h : Reopened st g) (hreg : RegFlash st) (hin : EndsInside st) : Coherent g := by
  have hal : ∀ {i}, g.st.Alive i → st.Alive i := fun hi => ((h.alive_iff _).mp hi).1
  have hcov : ∀ i p, g.st.Cov i p ↔ st.Cov i p := fun i p => by
    rw [Store.Cov,Store.Cov,h.raw]
  obtain ⟨m,ri,data,hm,hmax,hraw,hsize,hsmall,hmode⟩ := h.newest_alive hreg hin
  obtain ⟨e,he,ht⟩ := h.tiles
  refine ⟨hsize ▸ hsmall,h.tiles,h.counted,fun i => ?_,?_,?_,?_,?_,?_,?_⟩
  · rw [h.alive_iff]
    exact ⟨fun hi => hi.2,fun hi => ⟨hi.elim (h.frags i) fun hm => (h.bare i hm).1,hi⟩⟩
  · intro m hm
    obtain ⟨-,h₁,h₂⟩ := h.bare m hm
    grind
  · intro i hi
    obtain ⟨ri,data,hraw,hfit⟩ := hreg.data i (hal hi)
    have hle := h.bound i (hal hi)
    rw [Store.ver,hraw] at hle
    exact ⟨ri,data,(h.raw i).trans hraw,h.ofs i (hal hi) ri data hraw,hfit,hle⟩
  · intro i hi j hj hij
    rw [h.ver,h.ver] at hij
    exact hreg.distinct (hal hi) (hal hj) hij
  · intro p hp
    refine ((h.shows p hp).congr (fun i _ => h.ver i) fun i _ => hcov i p).subset (fun i hi => hal hi) ?_
    intro i hi
    have hfr := (fragsOf_ne_zero_iff_valueAt ht).mpr ⟨p,visible_eq_some.mp hi⟩
    exact (h.alive_iff i).mpr ⟨h.frags i hfr,Or.inl hfr⟩
  · refine ⟨m,ri,data,hm,fun j hj => ?_,(h.raw m).trans hraw,hsize,?_⟩
    · rw [h.ver,h.ver]
      exact hmax j (hal hj)
    · exact hmode.trans h.mode.symm
  · intro i hi hv
    rw [h.ver] at hv
    exact h.whole i (hal hi) hv

theorem byteAt_eq (hg : Reopened f.st g) (h : Coherent f) (c : Codecs) {p : ℕ} (hp : p < f.isize) :
    g.byteAt c p = f.byteAt c p := by
  unfold Inode.byteAt fragByte
  rw [(hg.same h).2 p hp]
  cases hv : visible f.fraglist p with
  | none => rfl
  | some i =>
    obtain ⟨e,-,ht⟩ := h.tiles
    have hi : f.st.Alive i := (h.listed i).mpr
      (Or.inl ((fragsOf_ne_zero_iff_valueAt ht).mpr ⟨p,visible_eq_some.mp hv⟩))
    obtain ⟨ri,data,hraw,hofs,-,-⟩ := h.data i hi
    simp only [hg.raw,hg.ofs i hi ri data hraw,hofs]

end Reopened

inductive Opens (c : Codecs) : Inode → Prop
  | created : Opens c createdInode
  | read {st : Store} {refs : List ℕ} {ino : ℕ} {f : Inode} (hreg : RegFlash st)
    (hin : EndsInside st) (hr : Lists st refs) (hf : readInode c ino st refs = some f) : Opens c f

theorem Opens.tracked {c : Codecs} (h : Opens c f) :
    Tracked (f.highestVersion - f.st.next : ℤ) f := by
  cases h with
  | created => exact createdInode_tracked
  | read hreg hin hr hf =>
    obtain ⟨g,hg,hopen⟩ := readInode_reopened c _ hreg hr
    obtain rfl : g = f := Option.some.inj (hg.symm.trans hf)
    exact ⟨hopen.coherent hreg hin,hopen.mode,hopen.dents,by omega⟩

/-- As long as the 32-bit version numbers do not wrap, a file is after a remount what it was
before, whatever the order of its references. -/
theorem remount_same {c : Codecs} (hc : c.Lawful) {f₀ : Inode} (h₀ : Opens c f₀)
    {ops : List FileOp} {s : FileState} (hrun : run (fileStep c) ⟨f₀,none⟩ ops = some s)
    (hw : f₀.highestVersion + (s.ino.st.next - f₀.st.next) < 4294967296) {refs : List ℕ}
    (hr : Lists s.ino.st refs) (ino : ℕ) :
    ∃ g, readInode c ino s.ino.st refs = some g ∧ g.isize = s.ino.isize ∧
      (∀ p < s.ino.isize, visible g.fraglist p = visible s.ino.fraglist p ∧
        g.byteAt c p = s.ino.byteAt c p) ∧
      ∀ p, s.ino.isize ≤ p → valueAt g.fraglist p = none := by
  have hinv : FileInv (f₀.highestVersion - f₀.st.next : ℤ) s :=
    FileInv.run hc ⟨h₀.tracked,fun w hw => absurd hw (by simp)⟩ hrun (by omega)
  have hcoh := hinv.tracked.coherent
  obtain ⟨g,hg,hopen⟩ := readInode_reopened c ino (hcoh.regFlash hinv.tracked.reg) hr
  obtain ⟨hsize,hsame⟩ := hopen.same hcoh
  refine ⟨g,hg,hsize,fun p hp => ⟨hsame p hp,hopen.byteAt_eq hcoh c hp⟩,fun p hp => ?_⟩
  obtain ⟨e,he,ht⟩ := hopen.tiles
  exact ht.valueAt_ge (by omega)

/-- Ten bytes are written, and the node is collected. -/
theorem remount_same_written : ∃ s, run (fileStep .idle) ⟨createdInode,none⟩ writeAndPass =
    some s ∧ s.ino.isize = 10 ∧ ∃ g, readInode .idle 2 s.ino.st [1,2,0] = some g ∧ g.isize = 10 ∧
    g.byteAt .idle 7 = s.ino.byteAt .idle 7 := by
  obtain ⟨s,hrun,hsize,hnext⟩ := writeAndPass_run
  have hlist : Lists s.ino.st [1,2,0] := by
    refine ⟨by decide,fun i hi => ?_,fun i hi => ?_⟩
    · grind
    · have := hi.1
      grind
  obtain ⟨g,hg,hgsize,hsame,-⟩ :=
    remount_same Codecs.idle_lawful .created hrun (by rw [hnext]; decide) hlist 2
  exact ⟨s,hrun,hsize,g,hg,hgsize.trans hsize,(hsame 7 (by omega)).2⟩

/-- A node without data for a range of a file. -/
def holeAt (version isize offset size : ℕ) : Node :=
  ⟨.inode ⟨68,version,.reg,isize,offset,0,size,.zero⟩ [],false,⟨0,0,0⟩⟩

def flashOf (nodes : List Node) : Store := ⟨nodes.length,fun i => nodes.getD i (holeAt 0 0 0 0)⟩

/-- The file is not what it was if the version wraps, if two nodes have one version, if the newest
node ends behind the file, or if a node ends over `2 ^ 32`. -/
theorem remount_differs :
    (∃ f s g, readInode .idle 2 (flashOf [holeAt 0xffffffff 10 0 10]) [0] = some f ∧
      run (fileStep .idle) ⟨f,none⟩ [.setattr 20] = some s ∧ s.ino.isize = 20 ∧
      readInode .idle 2 s.ino.st [0,1] = some g ∧ g.isize = 10) ∧
    (∃ f g, readInode .idle 2 (flashOf [holeAt 1 10 0 5,holeAt 1 20 5 5]) [0,1] = some f ∧
      f.isize = 10 ∧ readInode .idle 2 f.st [1,0] = some g ∧ g.isize = 20) ∧
    (∃ f g, readInode .idle 2 (flashOf [holeAt 1 10 0 5,holeAt 2 5 10 5]) [0,1] = some f ∧
      f.isize = 5 ∧ readInode .idle 2 f.st [0,1] = some g ∧ g.isize = 10) ∧
    ∃ f g, readInode .idle 2 (flashOf [holeAt 1 0 0xfffffffe 100,holeAt 2 0xffffffff 0 0]) [0,1] =
        some f ∧ f.isize = 0xffffffff ∧ readInode .idle 2 f.st [0,1] = some g ∧
      valueAt g.fraglist 0xffffffff ≠ none := by
  refine ⟨⟨_,_,_,rfl,rfl,rfl,rfl,rfl⟩,⟨_,_,rfl,rfl,rfl,rfl⟩,⟨_,_,rfl,rfl,rfl,rfl⟩,_,_,rfl,rfl,rfl,?_⟩
  decide

end Simpad.Jffs2
