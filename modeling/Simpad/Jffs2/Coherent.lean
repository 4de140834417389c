import Simpad.Base.Versioned
import Simpad.Jffs2.NodeWrites
import Simpad.Jffs2.ReadInode

namespace Simpad.Jffs2
open Word Segments Versioned

/-- The range of the file the node was written for. -/
def RawNode.Covers : RawNode → ℕ → Prop
  | .inode ri _, p => ri.offset ≤ p ∧ p < ri.offset + ri.fnSize
  | .dirent _ _, _ => False

namespace Store
variable (st : Store)

def Cov (i p : ℕ) : Prop := (st.node i).raw.Covers p

def alive : Set ℕ := {i | st.Alive i}

end Store

/-- The node in which position `p` of the file is found. -/
def visible (l : List Frag) (p : ℕ) : Option ℕ := (valueAt l p).join

/-- The byte that a fragment list gives for position `p`. -/
def fragByte (c : Codecs) (st : Store) (l : List Frag) (p : ℕ) : Byte :=
  match visible l p with
  | none => 0
  | some i => (st.node i).raw.byte c (p - (st.node i).fn.ofs)

def Inode.byteAt (c : Codecs) (f : Inode) (p : ℕ) : Byte := fragByte c f.st f.fraglist p

structure Coherent (f : Inode) : Prop where
  small : f.isize < 4294967296
  tiles : ∃ e ≤ f.isize, Tiles 0 f.fraglist e
  counted : CountedBy f.st (fragsOf f.fraglist)
  listed : ∀ i, f.st.Alive i ↔ fragsOf f.fraglist i ≠ 0 ∨ f.metadata = some i
  bare : ∀ m, f.metadata = some m → fragsOf f.fraglist m = 0 ∧ ∀ p, ¬f.st.Cov m p
  data : ∀ i, f.st.Alive i → ∃ ri data, (f.st.node i).raw = .inode ri data ∧
    (f.st.node i).fn.ofs = ri.offset ∧ ri.offset + ri.fnSize < 4294967296 ∧
    ri.version ≤ f.highestVersion
  distinct : Set.InjOn f.st.ver f.st.alive
  top : ∀ p < f.isize, Shows f.st.ver f.st.Cov f.st.alive p (visible f.fraglist p)
  latest : ∃ i ri data, f.st.Alive i ∧ (∀ j, f.st.Alive j → f.st.ver j ≤ f.st.ver i) ∧
    (f.st.node i).raw = .inode ri data ∧ ri.isize = f.isize ∧ ri.mode = f.mode
  whole : ∀ i, f.st.Alive i → f.st.ver i = f.highestVersion → fragsOf f.fraglist i ≤ 1

variable {i p size : ℕ} {d : ℤ}

theorem Store.Alive.ne_next {st : Store} (h : st.Alive i) : i ≠ st.next := Nat.ne_of_lt h.1

namespace NewNode
variable {st st' : Store} {raw : RawNode} {ofs i : ℕ}

section
variable (h : NewNode st raw ofs st')
include h

theorem ver_next : st'.ver st.next = raw.version := by
  rw [Store.ver,h.raw,if_pos rfl]

theorem cov_next (p : ℕ) : st'.Cov st.next p ↔ raw.Covers p := by
  rw [Store.Cov,h.raw,if_pos rfl]

theorem ver_of_ne (hi : i ≠ st.next) : st'.ver i = st.ver i := by
  rw [Store.ver,h.raw,if_neg hi,Store.ver]

theorem cov_of_ne (hi : i ≠ st.next) (p : ℕ) :
    st'.Cov i p ↔ st.Cov i p := by
  rw [Store.Cov,h.raw,if_neg hi,Store.Cov]

end

end NewNode

variable {f f' : Inode} {ri : RawInode} {data : List Byte} {e : ℕ}

theorem visible_eq_some {l : List Frag} : visible l p = some i ↔ valueAt l p = some (some i) := by
  unfold visible
  cases valueAt l p with
  | none => simp
  | some v => simp

theorem Coherent.ver_le (h : Coherent f) (hi : f.st.Alive i) : f.st.ver i ≤ f.highestVersion := by
  obtain ⟨ri,data,hraw,-,-,hle⟩ := h.data i hi
  rw [Store.ver,hraw]
  exact hle

theorem Coherent.next_free (h : Coherent f) :
    fragsOf f.fraglist f.st.next = 0 ∧ f.metadata ≠ some f.st.next := by
  have hn : ¬f.st.Alive f.st.next := fun hn => lt_irrefl _ hn.1
  rw [h.listed] at hn
  grind

theorem Coherent.addNode_spec (h : Coherent f) (ht : Tiles 0 f.fraglist e) (he : e ≤ f.isize)
    (hpos : 0 < ri.dsize) (hfit : ri.offset + ri.dsize < 4294967296) :
    Added f ri data e (f.addNode ri data) :=
  Inode.addNode_spec data ht (lt_of_le_of_lt he h.small) h.counted h.next_free.1 h.next_free.2
    hpos hfit

theorem Added.valueAt_iff (ha : Added f ri data e f') (hi : i ≠ f.st.next) :
    valueAt f'.fraglist p = some (some i) ↔
      valueAt f.fraglist p = some (some i) ∧
      ¬(ri.offset ≤ p ∧ p < ri.offset + ri.dsize) ∧ ¬(e ≤ p ∧ p < ri.offset) := by
  rw [ha.value]
  split
  · next hc =>
    grind
  · next hc =>
    split
    · grind
    · grind

theorem Added.alive_iff (ha : Added f ri data e f') (h : Coherent f) (hpos : 0 < ri.dsize)
    (ht : Tiles 0 f.fraglist e) (i : ℕ) : f'.st.Alive i ↔ fragsOf f'.fraglist i ≠ 0 := by
  have hmem : ∀ {i}, fragsOf f'.fraglist i ≠ 0 ↔ ∃ p, valueAt f'.fraglist p = some (some i) :=
    fragsOf_ne_zero_iff_valueAt ha.tiles
  by_cases hi : i = f.st.next
  · subst hi
    refine iff_of_true ⟨by rw [ha.node.next]; omega,by rw [ha.obsolete,if_pos rfl]⟩ (hmem.mpr ?_)
    exact ⟨ri.offset,by rw [ha.value,if_pos (by omega)]⟩
  · have hold := h.listed i
    rw [Store.Alive,ha.node.next,ha.obsolete,if_neg hi]
    simp only [Bool.or_eq_false_iff,decide_eq_false_iff_not]
    constructor
    · rintro ⟨hlt,⟨ho,hm⟩,hf⟩
      have hfrag := (hold.mp ⟨by omega,ho⟩).resolve_right hm
      omega
    · intro hf
      obtain ⟨p,hp⟩ := hmem.mp hf
      have hp' := ((ha.valueAt_iff hi).mp hp).1
      have hfrag : fragsOf f.fraglist i ≠ 0 := (fragsOf_ne_zero_iff_valueAt ht).mpr ⟨p,hp'⟩
      have halive := hold.mpr (Or.inl hfrag)
      exact ⟨by have := halive.1; omega,⟨halive.2,fun hm => hfrag (h.bare i hm).1⟩,fun hc => hf hc.2⟩

theorem Added.alive_old (ha : Added f ri data e f') (h : Coherent f) (hpos : 0 < ri.dsize)
    (ht : Tiles 0 f.fraglist e) (hi : f'.st.Alive i) (hne : i ≠ f.st.next) : f.st.Alive i := by
  rw [ha.alive_iff h hpos ht,fragsOf_ne_zero_iff_valueAt ha.tiles] at hi
  obtain ⟨p,hp⟩ := hi
  have hp' := ((ha.valueAt_iff hne).mp hp).1
  exact (h.listed i).mpr (Or.inl ((fragsOf_ne_zero_iff_valueAt ht).mpr ⟨p,hp'⟩))

section
variable {st' : Store} (h : Coherent f) (hn : NewNode f.st (.inode ri data) ri.offset st')
  (hsub : ∀ i, st'.Alive i → i = f.st.next ∨ f.st.Alive i)
include h hn

theorem Coherent.shows_insert (hver : f.highestVersion < ri.version) (hp : p < f.isize) :
    ((RawNode.inode ri data).Covers p →
      Shows st'.ver st'.Cov (insert f.st.next f.st.alive) p (some f.st.next)) ∧
    (¬(RawNode.inode ri data).Covers p →
      Shows st'.ver st'.Cov (insert f.st.next f.st.alive) p (visible f.fraglist p)) := by
  have hold : Shows st'.ver st'.Cov f.st.alive p (visible f.fraglist p) :=
    (h.top p hp).congr (fun i hi => hn.ver_of_ne (Store.Alive.ne_next hi))
      (fun i hi => hn.cov_of_ne (Store.Alive.ne_next hi) p)
  have hnew : ∀ j ∈ f.st.alive, st'.ver j ≤ st'.ver f.st.next := by
    intro j hj
    rw [hn.ver_of_ne (Store.Alive.ne_next hj),hn.ver_next]
    exact (h.ver_le hj).trans hver.le
  rw [← hn.cov_next p]
  exact hold.insert_newest hnew

include hsub

theorem Coherent.distinct_new (hver : f.highestVersion < ri.version) :
    Set.InjOn st'.ver st'.alive := by
  have hold : ∀ i, f.st.Alive i → st'.ver i < st'.ver f.st.next := by
    intro i hi
    rw [hn.ver_of_ne (Store.Alive.ne_next hi),hn.ver_next]
    exact lt_of_le_of_lt (h.ver_le hi) hver
  intro i hi j hj hij
  rcases hsub i hi with rfl | hi'
  · rcases hsub j hj with rfl | hj'
    · rfl
    · have := hold j hj'
      omega
  · rcases hsub j hj with rfl | hj'
    · have := hold i hi'
      omega
    · rw [hn.ver_of_ne (Store.Alive.ne_next hi'),hn.ver_of_ne (Store.Alive.ne_next hj')] at hij
      exact h.distinct hi' hj' hij

theorem Coherent.data_new (hfit : ri.offset + ri.fnSize < 4294967296)
    (hver : f.highestVersion ≤ ri.version) (hi : st'.Alive i) :
    ∃ ri' data, (st'.node i).raw = .inode ri' data ∧ (st'.node i).fn.ofs = ri'.offset ∧
      ri'.offset + ri'.fnSize < 4294967296 ∧ ri'.version ≤ ri.version := by
  rcases hsub i hi with rfl | hi'
  · exact ⟨ri,data,by rw [hn.raw,if_pos rfl],by rw [hn.ofs,if_pos rfl],hfit,le_rfl⟩
  · obtain ⟨ri',data',hraw,hofs,hfit',hle⟩ := h.data i hi'
    have hne := hi'.ne_next
    exact ⟨ri',data',by rw [hn.raw,if_neg hne,hraw],by rw [hn.ofs,if_neg hne,hofs],hfit',
      hle.trans hver⟩

theorem Coherent.eq_next (hver : f.highestVersion < ri.version) (hi : st'.Alive i)
    (hv : st'.ver i = ri.version) : i = f.st.next := by
  rcases hsub i hi with rfl | hi'
  · rfl
  · have := h.ver_le hi'
    rw [hn.ver_of_ne (Store.Alive.ne_next hi')] at hv
    omega

theorem Coherent.latest_new (hver : f.highestVersion ≤ ri.version) {j : ℕ} (hj : st'.Alive j) :
    st'.ver j ≤ st'.ver f.st.next := by
  rcases hsub j hj with rfl | hj'
  · exact le_rfl
  · rw [hn.ver_of_ne (Store.Alive.ne_next hj'),hn.ver_next]
    exact (h.ver_le hj').trans hver

end

theorem Coherent.addNode (h : Coherent f) (hver : ri.version = f.highestVersion + 1)
    (hsize : ri.fnSize = ri.dsize) (hpos : 0 < ri.dsize) (hofs : ri.offset ≤ f.isize)
    (hfit : ri.offset + ri.dsize < 4294967296)
    (hisize : ri.isize = max f.isize (ri.offset + ri.dsize)) (hmode : ri.mode = f.mode) :
    Coherent { f.addNode ri data with isize := ri.isize } := by
  obtain ⟨e,he,ht⟩ := h.tiles
  have ha : Added f ri data e (f.addNode ri data) := h.addNode_spec ht he hpos hfit
  have halive := ha.alive_iff h hpos ht
  have hmeta : (f.addNode ri data).metadata = none := by rw [ha.rest]
  have hhv : (f.addNode ri data).highestVersion = ri.version := by rw [ha.rest]
  have hm : (f.addNode ri data).mode = f.mode := by rw [ha.rest]
  generalize f.addNode ri data = g at *
  have hn := ha.node
  have hsub : ∀ i, g.st.Alive i → i = f.st.next ∨ f.st.Alive i := fun i hi =>
    or_iff_not_imp_left.mpr fun hne => ha.alive_old h hpos ht hi hne
  have hnext : g.st.Alive f.st.next := by
    rw [halive,fragsOf_ne_zero_iff_valueAt ha.tiles]
    exact ⟨ri.offset,by rw [ha.value,if_pos (by omega)]⟩
  have hcov : ∀ p, (RawNode.inode ri data).Covers p ↔ ri.offset ≤ p ∧ p < ri.offset + ri.dsize := by
    intro p
    rw [RawNode.Covers,hsize]
  have hlt : f.highestVersion < ri.version := by omega
  refine ⟨?_,⟨_,?_,ha.tiles⟩,ha.counted,?_,?_,?_,h.distinct_new hn hsub hlt,?_,?_,?_⟩
  · simp only [hisize]
    have := h.small
    omega
  · simp only [hisize]
    omega
  · grind
  · grind
  · intro i hi
    simp only [hhv]
    exact h.data_new hn hsub (by rw [hsize]; exact hfit) hlt.le hi
  · intro p hp
    simp only at hp ⊢
    by_cases hc : ri.offset ≤ p ∧ p < ri.offset + ri.dsize
    · have hvis : visible g.fraglist p = some f.st.next := by
        rw [visible_eq_some,ha.value,if_pos hc]
      rw [hvis]
      exact ⟨hnext,(hn.cov_next p).mpr ((hcov p).mpr hc),
        fun j hj _ => h.latest_new hn hsub hlt.le hj⟩
    · have hp' : p < f.isize := by omega
      have hvis : visible g.fraglist p = visible f.fraglist p := by
        unfold visible
        rw [ha.value,if_neg hc]
        split
        · next hgap => rw [ht.valueAt_ge hgap.1]; rfl
        · rfl
      rw [hvis]
      refine ((h.shows_insert hn hlt hp').2 (by rw [hcov]; exact hc)).subset hsub ?_
      intro i hi
      rw [← hvis,visible_eq_some] at hi
      exact (halive i).mpr ((fragsOf_ne_zero_iff_valueAt ha.tiles).mpr ⟨p,hi⟩)
  · refine ⟨f.st.next,ri,data,hnext,fun j hj => h.latest_new hn hsub hlt.le hj,
      by simp only [hn.raw,if_true],rfl,?_⟩
    simp only [hm]
    exact hmode
  · intro i hi hv
    simp only [hhv] at hi hv ⊢
    rw [h.eq_next hn hsub hlt hi hv,ha.single]

theorem Tagged.frags_old (ha : Tagged f ri e size f') (ht : Tiles 0 f.fraglist e)
    (hi : fragsOf f'.fraglist i ≠ 0) : fragsOf f.fraglist i ≠ 0 := by
  obtain ⟨p,hp⟩ := (fragsOf_ne_zero_iff_valueAt ha.tiles).mp hi
  rw [ha.value] at hp
  split at hp
  · exact (fragsOf_ne_zero_iff_valueAt ht).mpr ⟨p,hp⟩
  · cases hp

theorem Tagged.alive_iff (ha : Tagged f ri e size f') (h : Coherent f) (ht : Tiles 0 f.fraglist e)
    (i : ℕ) : f'.st.Alive i ↔ fragsOf f'.fraglist i ≠ 0 ∨ i = f.st.next := by
  by_cases hi : i = f.st.next
  · subst hi
    exact iff_of_true ⟨by rw [ha.node.next]; omega,by rw [ha.obsolete,if_pos rfl]⟩ (Or.inr rfl)
  · have hold := h.listed i
    rw [Store.Alive,ha.node.next,ha.obsolete,if_neg hi]
    simp only [Bool.or_eq_false_iff,decide_eq_false_iff_not,hi,or_false]
    constructor
    · rintro ⟨hlt,⟨ho,hm⟩,hf⟩
      have hfrag := (hold.mp ⟨by omega,ho⟩).resolve_right hm
      omega
    · intro hf
      have hfrag := ha.frags_old ht hf
      have halive := hold.mpr (Or.inl hfrag)
      exact ⟨by have := halive.1; omega,⟨halive.2,fun hm => hfrag (h.bare i hm).1⟩,fun hc => hf hc.2⟩

theorem Coherent.tag (h : Coherent f) (ha : Tagged f ri e size f') (ht : Tiles 0 f.fraglist e)
    (hver : ri.version = f.highestVersion + 1) (hofs : ri.offset = 0) (hsize : ri.fnSize = 0)
    (hisize : ri.isize = size) (hle : size ≤ f.isize) (hmode : ri.mode = f.mode) : Coherent f' := by
  have halive := ha.alive_iff h ht
  have hmeta : f'.metadata = some f.st.next := by rw [ha.rest]
  have hhv : f'.highestVersion = ri.version := by rw [ha.rest]
  have hsz : f'.isize = size := by rw [ha.rest]
  have hn := ha.node
  have hcov : ∀ p, ¬(RawNode.inode ri []).Covers p := by
    simp [RawNode.Covers,hsize]
  have hsub : ∀ i, f'.st.Alive i → i = f.st.next ∨ f.st.Alive i := by
    intro i hi
    rcases (halive i).mp hi with hf | rfl
    · exact Or.inr ((h.listed i).mpr (Or.inl (ha.frags_old ht hf)))
    · exact Or.inl rfl
  have hlt : f.highestVersion < ri.version := by omega
  have hsmall := h.small
  refine ⟨by omega,⟨_,by omega,ha.tiles⟩,ha.counted,?_,?_,?_,h.distinct_new hn hsub hlt,?_,?_,?_⟩
  · grind
  · intro m hm
    obtain rfl : f.st.next = m := by simpa [hmeta] using hm
    refine ⟨by_contra fun hz => ha.frags_old ht hz h.next_free.1,fun p => ?_⟩
    rw [hn.cov_next]
    exact hcov p
  · intro i hi
    rw [hhv]
    exact h.data_new hn hsub (by omega) hlt.le hi
  · intro p hp
    rw [hsz] at hp
    have hvis : visible f'.fraglist p = visible f.fraglist p := by
      unfold visible
      rw [ha.value,if_pos hp]
    rw [hvis]
    refine ((h.shows_insert hn hlt (by omega)).2 (hcov p)).subset hsub ?_
    intro i hi
    rw [← hvis,visible_eq_some] at hi
    exact (halive i).mpr (Or.inl ((fragsOf_ne_zero_iff_valueAt ha.tiles).mpr ⟨p,hi⟩))
  · refine ⟨f.st.next,ri,[],(halive _).mpr (Or.inr rfl),
      fun j hj => h.latest_new hn hsub hlt.le hj,by rw [hn.raw,if_pos rfl],
      by rw [hsz,hisize],?_⟩
    rw [ha.rest]
    exact hmode
  · intro i hi hv
    rw [hhv] at hv
    rw [h.eq_next hn hsub hlt hi hv]
    by_contra hz
    exact ha.frags_old ht (i := f.st.next) (by omega) h.next_free.1

/-- A regular file whose versions have not run ahead of its nodes; `d` is the lead they had. -/
structure Tracked (d : ℤ) (f : Inode) : Prop where
  coherent : Coherent f
  reg : f.mode = .reg
  dents : f.dents = []
  young : (f.highestVersion : ℤ) ≤ f.st.next + d

section
variable (h : Tracked d f)
include h

section
variable (hw : ((f.st.next + 1 : ℕ) : ℤ) + d < 4294967296)
include hw

theorem Tracked.nextVersion :
    f.nextVersion = f.highestVersion + 1 :=
  u32_of_lt (by have := h.young; omega)

theorem Tracked.addNode
    (hver : ri.version = f.nextVersion) (hsize : ri.fnSize = ri.dsize) (hpos : 0 < ri.dsize)
    (hofs : ri.offset ≤ f.isize) (hfit : ri.offset + ri.dsize < 4294967296)
    (hisize : ri.isize = max f.isize (ri.offset + ri.dsize)) (hmode : ri.mode = f.mode) :
    Tracked d { f.addNode ri data with isize := ri.isize } := by
  rw [h.nextVersion hw] at hver
  obtain ⟨e,he,ht⟩ := h.coherent.tiles
  have ha : Added f ri data e (f.addNode ri data) := h.coherent.addNode_spec ht he hpos hfit
  refine ⟨h.coherent.addNode hver hsize hpos hofs hfit hisize hmode,?_,?_,?_⟩
  · rw [ha.rest]
    exact h.reg
  · rw [ha.rest]
    exact h.dents
  · have hhv : (f.addNode ri data).highestVersion = ri.version := by rw [ha.rest]
    have := h.young
    simp only [hhv,ha.node.next,hver]
    omega

theorem Tracked.addNode_inside
    (hver : ri.version = f.nextVersion) (hsize : ri.fnSize = ri.dsize) (hpos : 0 < ri.dsize)
    (hend : ri.offset + ri.dsize ≤ f.isize) (hisize : ri.isize = f.isize)
    (hmode : ri.mode = f.mode) : Tracked d (f.addNode ri data) ∧ (f.addNode ri data).isize = f.isize := by
  have hsmall := h.coherent.small
  obtain ⟨e,he,ht⟩ := h.coherent.tiles
  have ha : Added f ri data e (f.addNode ri data) :=
    h.coherent.addNode_spec ht he hpos (by omega)
  have hsz : (f.addNode ri data).isize = f.isize := by rw [ha.rest]
  have h' : Tracked d { f.addNode ri data with isize := ri.isize } :=
    h.addNode hw hver hsize hpos (by omega) (by omega) (by omega) hmode
  rw [hisize,← hsz] at h'
  exact ⟨h',hsz⟩

theorem Tracked.tag
    (ha : Tagged f ri e size f') (ht : Tiles 0 f.fraglist e) (hver : ri.version = f.nextVersion)
    (hofs : ri.offset = 0) (hsize : ri.fnSize = 0) (hisize : ri.isize = size) (hle : size ≤ f.isize)
    (hmode : ri.mode = f.mode) : Tracked d f' := by
  rw [h.nextVersion hw] at hver
  refine ⟨h.coherent.tag ha ht hver hofs hsize hisize hle hmode,?_,?_,?_⟩
  · rw [ha.rest]
    exact h.reg
  · rw [ha.rest]
    exact h.dents
  · have hhv : f'.highestVersion = ri.version := by rw [ha.rest]
    have := h.young
    rw [hhv,ha.node.next,hver]
    omega

end

theorem Tracked.mapping (mapping : ℕ → Option Page) :
    Tracked d { f with mapping := mapping } :=
  ⟨⟨h.coherent.small,h.coherent.tiles,h.coherent.counted,h.coherent.listed,h.coherent.bare,
    h.coherent.data,h.coherent.distinct,h.coherent.top,h.coherent.latest,h.coherent.whole⟩,
    h.reg,h.dents,h.young⟩

end

end Simpad.Jffs2
