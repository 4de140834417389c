import Mathlib.Data.List.GetD
import Simpad.Jffs2.GcCoherent
import Simpad.Jffs2.ReadPage

namespace Simpad.Jffs2
open Word Segments Versioned

/-- A hole node, or a sound one with its text in one page. -/
def InPage (c : Codecs) (ri : RawInode) (data : List Byte) : Prop :=
  ri.Sound c data ∧ (ri.compr = .zero ∨ ri.offset % 4096 + ri.dsize ≤ 4096)

structure Laid (c : Codecs) (f : Inode) : Prop where
  tiles : Tiles 0 f.fraglist f.isize
  filled : ∀ p, valueAt f.fraglist p ≠ some none
  nodes : ∀ i, f.st.Alive i → ∀ ri data, (f.st.node i).raw = .inode ri data → InPage c ri data

variable {c : Codecs} {f f' : Inode} {frag : Frag} {ri : RawInode} {data : List Byte}
  {index e p : ℕ}

section
variable (hcoh : Coherent f) (h : Laid c f)
include hcoh h

theorem Laid.nodeOf (hf : frag ∈ f.fraglist) : ∃ i ri data, frag.val = some i ∧
    (f.st.node i).raw = .inode ri data ∧ (f.st.node i).fn.ofs = ri.offset ∧ ri.Sound c data ∧
    ri.offset ≤ frag.ofs ∧ (ri.compr = .zero ∨
      frag.stop ≤ ri.offset + ri.dsize ∧ frag.stop ≤ frag.ofs / 4096 * 4096 + 4096) := by
  obtain ⟨-,hpos,hle⟩ := h.tiles.mem_bounds hf
  have hstop : frag.stop = frag.ofs + frag.size := rfl
  have hval : ∀ p, frag.ofs ≤ p → p < frag.stop → valueAt f.fraglist p = some frag.val := fun p h₁ h₂ =>
    h.tiles.valueAt_of_mem hf h₁ h₂
  cases hv : frag.val with
  | none => exact absurd (hv ▸ hval frag.ofs le_rfl (by omega)) (h.filled _)
  | some i =>
    have hi : f.st.Alive i := (hcoh.listed i).mpr (Or.inl (fragsOf_ne_zero.mpr ⟨frag,hf,hv⟩))
    obtain ⟨ri,data,hraw,hofs,-,-⟩ := hcoh.data i hi
    have hcov : ∀ p, frag.ofs ≤ p → p < frag.stop → ri.offset ≤ p ∧ p < ri.offset + ri.fnSize := by
      intro p h₁ h₂
      have hshow := hcoh.top p (by omega)
      rw [visible_eq_some.mpr (hv ▸ hval p h₁ h₂)] at hshow
      have := hshow.2.1
      rwa [Store.Cov,hraw] at this
    obtain ⟨hsound,hpage⟩ := h.nodes i hi ri data hraw
    have hfirst := hcov frag.ofs le_rfl (by omega)
    have hlast := hcov (frag.stop - 1) (by omega) (by omega)
    refine ⟨i,ri,data,rfl,hraw,hofs,hsound,hfirst.1,?_⟩
    by_cases hz : ri.compr = .zero
    · exact Or.inl hz
    · have hsize : ri.fnSize = ri.dsize := if_neg fun hc => hz hc.1
      have := hpage.resolve_left hz
      omega

theorem Laid.backed (hf : frag ∈ f.fraglist) : Backed c f.st frag := by
  obtain ⟨i,ri,data,hv,hraw,hofs,hsound,hle,hor⟩ := h.nodeOf hcoh hf
  intro j hj
  obtain rfl : i = j := Option.some.inj (hv.symm.trans hj)
  grind

theorem Laid.isZero (hf : frag ∈ f.fraglist) (hlt : frag.ofs < index * 4096)
    (hstop : index * 4096 < frag.stop) : IsZero f.st frag := by
  obtain ⟨i,ri,data,hv,hraw,-,-,-,hz | ⟨-,hend⟩⟩ := h.nodeOf hcoh hf
  · exact ⟨i,ri,data,hv,hraw,hz⟩
  · omega

end

def ZeroPage (c : Codecs) (f : Inode) (index : ℕ) : Prop :=
  ∀ k < 4096, f.byteAt c (index * 4096 + k) = 0

theorem Laid.readpage (hcoh : Coherent f) (h : Laid c f) (pg : Page) (hP : index + 1 < 1048576)
    (hstart : index * 4096 < f.isize → IsStart f.fraglist (index * 4096) ∨ ZeroPage c f index) :
    (Readable f.fraglist index → ∃ pg', doReadpageNolock c f index pg = .ok pg' ∧
      ∀ k < 4096, pg' k = f.byteAt c (index * 4096 + k)) ∧
    (¬Readable f.fraglist index → ∃ err, doReadpageNolock c f index pg = .error err) := by
  obtain ⟨m,-,-,hmem,hhead,-⟩ := pageFrags_spec h.tiles hcoh.small index
  by_cases hal : ∀ frag next, pageFrags f.fraglist index = frag :: next → index * 4096 ≤ frag.ofs
  · refine ⟨fun _ => readpage_aligned pg h.tiles hcoh.small
      (fun frag hf _ => h.backed hcoh (hmem frag hf)) hP fun frag next hfrags =>
        Or.inl (hal frag next hfrags),fun hno => absurd ?_ hno⟩
    refine ⟨hP,?_⟩
    grind
  · simp only [not_forall,not_le] at hal
    obtain ⟨frag,next,hfrags,hlt⟩ := hal
    have hf : frag ∈ f.fraglist := hmem frag (by rw [hfrags]; exact List.mem_cons_self)
    obtain ⟨-,hstop⟩ := hhead frag next hfrags
    have hsize := (h.tiles.mem_bounds hf).2.2
    -- the fragment lies across the start of the page, so nothing starts there
    have hzero : ZeroPage c f index := by
      refine (hstart (by omega)).resolve_left ?_
      rintro ⟨g,hg,hofs⟩
      have := h.tiles.stop_le hf hg (by omega)
      omega
    obtain ⟨i,hv,hread⟩ := (h.isZero hcoh hf hlt hstop).read (c := c)
    obtain ⟨hok,herr⟩ := readpage_straddle pg h.tiles hcoh.small hP hfrags hlt hv (hread _ _)
      List.length_replicate
    refine ⟨fun hread => ?_,herr⟩
    obtain ⟨pg',hpg,hval⟩ := hok hread
    exact ⟨pg',hpg,fun k hk => by
      rw [hval k hk,hzero k hk,List.getD_eq_getElem?_getD,List.getElem?_getD_replicate_default_eq]⟩

theorem fragByte_newNode {st st' : Store} {raw : RawNode} {ofs : ℕ} {l : List Frag} {a b : ℕ}
    (hn : NewNode st raw ofs st') (ht : Tiles a l b) (hfree : fragsOf l st.next = 0) (p : ℕ) :
    fragByte c st' l p = fragByte c st l p := by
  unfold fragByte
  cases hv : visible l p with
  | none => rfl
  | some i =>
    have hne : i ≠ st.next := by
      rintro rfl
      exact (fragsOf_ne_zero_iff_valueAt ht).mpr ⟨p,visible_eq_some.mp hv⟩ hfree
    simp only [hn.raw,hn.ofs,hne,if_false]

theorem Added.byteAt (ha : Added f ri data e f') (ht : Tiles 0 f.fraglist e)
    (hfree : fragsOf f.fraglist f.st.next = 0) (c : Codecs) (p : ℕ) :
    f'.byteAt c p = if ri.offset ≤ p ∧ p < ri.offset + ri.dsize then
      (RawNode.inode ri data).byte c (p - ri.offset) else f.byteAt c p := by
  have hval := ha.value p
  by_cases hin : ri.offset ≤ p ∧ p < ri.offset + ri.dsize
  · rw [if_pos hin] at hval ⊢
    simp [Inode.byteAt,fragByte,visible_eq_some.mpr hval,ha.node.raw,ha.node.ofs]
  · rw [if_neg hin] at hval ⊢
    rw [Inode.byteAt,Inode.byteAt,← fragByte_newNode ha.node ht hfree p,fragByte,fragByte,
      visible,visible,hval]
    split_ifs with hgap
    -- a hole is put in where there was nothing
    · rw [ht.valueAt_ge hgap.1]
      rfl
    · rfl

theorem Tagged.byteAt {size : ℕ} (ha : Tagged f ri e size f') (ht : Tiles 0 f.fraglist e)
    (hfree : fragsOf f.fraglist f.st.next = 0) (c : Codecs) (p : ℕ) :
    f'.byteAt c p = if p < size then f.byteAt c p else 0 := by
  have hval := ha.value p
  by_cases hin : p < size
  · rw [if_pos hin] at hval ⊢
    rw [Inode.byteAt,Inode.byteAt,← fragByte_newNode ha.node ht hfree p,fragByte,fragByte,
      visible,visible,hval]
  · simp [if_neg hin,Inode.byteAt,fragByte,visible,hval]

theorem Replaced.byteAt {fn : ℕ} {ri₀ : RawInode} {data₀ : List Byte} (hr : Replaced f fn ri f')
    (ht : Tiles 0 f.fraglist e) (hfree : fragsOf f.fraglist f.st.next = 0)
    (hraw : (f.st.node fn).raw = .inode ri₀ data₀) (hz₀ : ri₀.compr = .zero)
    (hz : ri.compr = .zero) (c : Codecs) (p : ℕ) : f'.byteAt c p = f.byteAt c p := by
  rw [Inode.byteAt,Inode.byteAt,← fragByte_newNode hr.node ht hfree p,fragByte,fragByte,
    Jffs2.visible,Jffs2.visible,hr.valueAt]
  cases hv : Segments.valueAt f.fraglist p with
  | none => rfl
  | some v =>
    cases v with
    | none => rfl
    | some i =>
      by_cases hi : i = fn
      · subst hi
        have hne : i ≠ f.st.next := by
          rintro rfl
          exact (fragsOf_ne_zero_iff_valueAt ht).mpr ⟨p,hv⟩ hfree
        simp only [Option.map_some,takeOver,if_true,Option.join_some,hr.node.raw,hne,if_false,hraw,
          RawNode.byte,hz,hz₀]
      · simp [takeOver,hi]

theorem Added.isStart (ha : Added f ri data e f') {x : ℕ} (hs : IsStart f.fraglist x)
    (hno : ¬(ri.offset < x ∧ x < ri.offset + ri.dsize)) (hx : x < max e (ri.offset + ri.dsize)) :
    IsStart f'.fraglist x := by
  rw [ha.start]
  by_cases h₁ : x = ri.offset
  · exact Or.inl h₁
  · grind

theorem Laid.nodes_new (h : Laid c f) {st' : Store} {raw : RawNode} {ofs : ℕ}
    (hn : NewNode f.st raw ofs st') (hsub : ∀ i, st'.Alive i → i = f.st.next ∨ f.st.Alive i)
    (hin : ∀ ri data, raw = .inode ri data → InPage c ri data) (i : ℕ) (hi : st'.Alive i)
    (ri : RawInode) (data : List Byte) (hraw : (st'.node i).raw = .inode ri data) :
    InPage c ri data := by
  rcases hsub i hi with rfl | hold
  · rw [hn.raw,if_pos rfl] at hraw
    exact hin ri data hraw
  · rw [hn.raw,if_neg hold.ne_next] at hraw
    exact h.nodes i hold ri data hraw

section
variable (hcoh : Coherent f) (h : Laid c f)
include hcoh h

theorem Laid.added (ha : Added f ri data f.isize f') (hofs : ri.offset ≤ f.isize)
    (hpos : 0 < ri.dsize) (hin : InPage c ri data) :
    Laid c { f' with isize := max f.isize (ri.offset + ri.dsize) } := by
  refine ⟨ha.tiles,fun p hp => ?_,?_⟩
  · rw [ha.value] at hp
    split at hp
    · simp at hp
    · rw [if_neg (by omega)] at hp
      exact h.filled p hp
  · refine h.nodes_new ha.node (fun i hi => ?_) fun ri' data' heq => ?_
    · by_cases hne : i = f.st.next
      · exact Or.inl hne
      · exact Or.inr (ha.alive_old hcoh hpos h.tiles hi hne)
    · obtain ⟨rfl,rfl⟩ : ri = ri' ∧ data = data' := by simpa using heq
      exact hin

theorem Laid.tagged {size : ℕ} (ha : Tagged f ri f.isize size f') (hle : size ≤ f.isize)
    (hin : InPage c ri []) : Laid c f' := by
  have hsize : f'.isize = size := congrArg Inode.isize ha.rest
  refine ⟨?_,fun p hp => ?_,?_⟩
  · have ht := ha.tiles
    grind
  · rw [ha.value] at hp
    split at hp
    · exact h.filled p hp
    · cases hp
  · refine h.nodes_new ha.node (fun i hi => ?_) fun ri' data' heq => ?_
    · rcases (ha.alive_iff hcoh h.tiles i).mp hi with hf | rfl
      · exact Or.inr ((hcoh.listed i).mpr (Or.inl (ha.frags_old h.tiles hf)))
      · exact Or.inl rfl
    · obtain ⟨rfl,rfl⟩ : ri = ri' ∧ [] = data' := by simpa using heq
      exact hin

end

theorem Laid.replaced (h : Laid c f) {fn : ℕ} (hr : Replaced f fn ri f')
    (hz : ri.compr = .zero) : Laid c f' := by
  have hsize : f'.isize = f.isize := by rw [hr.rest]
  refine ⟨?_,fun p hp => ?_,?_⟩
  · rw [hsize,hr.list]
    exact h.tiles.map _
  · rw [hr.valueAt,Option.map_eq_some_iff] at hp
    obtain ⟨v,hv,hto⟩ := hp
    cases v with
    | none => exact h.filled p hv
    | some i =>
      unfold takeOver at hto
      split at hto <;> simp at hto
  · refine h.nodes_new hr.node (fun i hi => ?_) fun ri' data' heq => ?_
    · exact ((hr.alive_iff i).mp hi).imp id And.left
    · obtain ⟨rfl,rfl⟩ : ri = ri' ∧ [] = data' := by simpa using heq
      exact ⟨Or.inl hz,Or.inl hz⟩

end Simpad.Jffs2
