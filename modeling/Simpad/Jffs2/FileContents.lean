import Simpad.Jffs2.Contents
import Simpad.Jffs2.FileCoherent

namespace Simpad.Jffs2
open Word Segments

namespace FileState
variable (s : FileState)

/-- The position is in the page of the writer, but not yet on flash. -/
def Pending (p : ℕ) : Prop := ∃ w, s.writer = some w ∧ w.fileOfs ≤ p ∧ p < w.fileOfs + w.writelen

/-- The writer has the page, and nothing of it is on flash yet. -/
def Fresh (index : ℕ) : Prop :=
  ∃ w, s.writer = some w ∧ w.index = index ∧ w.fileOfs = index * 4096

variable {s}

theorem not_pending (h : s.writer = none) (p : ℕ) : ¬s.Pending p := by
  rintro ⟨w,hw,-⟩
  rw [h] at hw
  cases hw

theorem not_locked (h : s.writer = none) (index : ℕ) : ¬s.locked index := by
  rintro ⟨w,hw,-⟩
  rw [h] at hw
  cases hw

end FileState

structure WriterHolds (spec : ℕ → Byte) (f : Inode) (w : Writer) : Prop where
  buf : ∀ k < 4096, w.buf k = spec (w.index * 4096 + k)
  begun : w.fileOfs = w.index * 4096 ∨ IsStart f.fraglist (w.index * 4096)
  tail : f.isize ≤ w.fileOfs + w.writelen ∨ w.fileOfs + w.writelen = w.index * 4096 + 4096

structure Holds (c : Codecs) (d : ℤ) (spec : ℕ → Byte) (s : FileState) : Prop where
  inv : FileInv d s
  laid : Laid c s.ino
  shown : ∀ p, ¬s.Pending p → s.ino.byteAt c p = spec p
  cached : ∀ index pg, s.ino.mapping index = some pg → ∀ k < 4096, pg k = spec (index * 4096 + k)
  writer : ∀ w, s.writer = some w → WriterHolds spec s.ino w
  starts : ∀ index, index * 4096 < s.ino.isize → IsStart s.ino.fraglist (index * 4096) ∨
    ZeroPage c s.ino index ∨ s.Fresh index

variable {c : Codecs} {d : ℤ} {spec : ℕ → Byte} {s : FileState} {f f' g : Inode} {w : Writer}
  {ri : RawInode} {data : List Byte} {index p : ℕ}

theorem Laid.byteAt_ge (h : Laid c f) (hp : f.isize ≤ p) : f.byteAt c p = 0 := by
  rw [Inode.byteAt,fragByte,visible,h.tiles.valueAt_ge hp]
  rfl

namespace Holds
variable (h : Holds c d spec s)
include h

theorem pending_page (hp : s.Pending p) : ∃ w, s.writer = some w ∧ p / 4096 = w.index := by
  obtain ⟨w,hw,hle,hlt⟩ := hp
  obtain ⟨-,hfirst,hlast,-⟩ := h.inv.writer w hw
  exact ⟨w,hw,by omega⟩

/-- Unless its writer has just got it, a page starts with a fragment or shows its zeros. -/
theorem start_or_zero (hx : index * 4096 < s.ino.isize) (hfresh : ¬s.Fresh index) :
    IsStart s.ino.fraglist (index * 4096) ∨
      (ZeroPage c s.ino index ∧ ∀ k < 4096, spec (index * 4096 + k) = 0) := by
  rcases h.starts index hx with hs | hz | hf
  · exact Or.inl hs
  · by_cases hw : ∃ w, s.writer = some w ∧ w.index = index
    · obtain ⟨w,hw,rfl⟩ := hw
      exact Or.inl ((h.writer w hw).begun.resolve_left fun heq => hfresh ⟨w,hw,rfl,heq⟩)
    · refine Or.inr ⟨hz,fun k hk => ?_⟩
      rw [← h.shown,hz k hk]
      intro hp
      obtain ⟨w,hwr,hpage⟩ := h.pending_page hp
      exact hw ⟨w,hwr,by omega⟩
  · exact absurd hf hfresh

theorem readpage (hfree : ¬s.locked index) (pg : Page) (hP : index + 1 < 1048576) :
    (Readable s.ino.fraglist index → ∃ pg', doReadpageNolock c s.ino index pg = .ok pg' ∧
      ∀ k < 4096, pg' k = spec (index * 4096 + k)) ∧
    (¬Readable s.ino.fraglist index → ∃ err, doReadpageNolock c s.ino index pg = .error err) := by
  have hfresh : ¬s.Fresh index := fun ⟨w,hw,hi,_⟩ => hfree ⟨w,hw,hi⟩
  obtain ⟨hok,herr⟩ := h.laid.readpage h.inv.tracked.coherent pg hP fun hx =>
    (h.start_or_zero hx hfresh).imp_right And.left
  refine ⟨fun hr => ?_,herr⟩
  obtain ⟨pg',hpg,hval⟩ := hok hr
  refine ⟨pg',hpg,fun k hk => ?_⟩
  rw [hval k hk,h.shown]
  intro hp
  obtain ⟨w,hw,hpage⟩ := h.pending_page hp
  exact hfree ⟨w,hw,by omega⟩

theorem mapping {m : ℕ → Option Page}
    (hm : ∀ index pg, m index = some pg → ∀ k < 4096, pg k = spec (index * 4096 + k)) :
    Holds c d spec ⟨{ s.ino with mapping := m },s.writer⟩ :=
  ⟨⟨h.inv.tracked.mapping m,h.inv.writer⟩,⟨h.laid.tiles,h.laid.filled,h.laid.nodes⟩,h.shown,hm,
    fun w hw => ⟨(h.writer w hw).buf,(h.writer w hw).begun,(h.writer w hw).tail⟩,h.starts⟩

theorem cached_update {pg : Page} (hpg : ∀ k < 4096, pg k = spec (index * 4096 + k)) (j : ℕ)
    (pg' : Page) (hj : Function.update s.ino.mapping index (some pg) j = some pg') (k : ℕ)
    (hk : k < 4096) : pg' k = spec (j * 4096 + k) := by
  rw [Function.update_apply] at hj
  split at hj
  · next heq =>
    obtain rfl := Option.some.inj hj
    rw [heq]
    exact hpg k hk
  · exact h.cached j pg' hj k hk

theorem readCachePage {fresh pg : Page} (hok : readCachePage c s.ino index fresh = .ok (pg,f))
    (hread : s.ino.mapping index = none → Readable s.ino.fraglist index ∧ ¬s.locked index) :
    (∀ k < 4096, pg k = spec (index * 4096 + k)) ∧ Holds c d spec ⟨f,s.writer⟩ := by
  unfold Simpad.Jffs2.readCachePage at hok
  split at hok
  · next hmap =>
    cases hok
    exact ⟨h.cached index pg hmap,h⟩
  · next hmap =>
    obtain ⟨hr,hfree⟩ := hread hmap
    obtain ⟨pg',hpg,hval⟩ := (h.readpage hfree fresh hr.1).1 hr
    rw [hpg] at hok
    cases hok
    exact ⟨hval,h.mapping (h.cached_update hval)⟩

theorem readCachePage_succeeds (fresh : Page)
    (hread : s.ino.mapping index = none → Readable s.ino.fraglist index ∧ ¬s.locked index) :
    ∃ pg f, Simpad.Jffs2.readCachePage c s.ino index fresh = .ok (pg,f) := by
  unfold Simpad.Jffs2.readCachePage
  split
  · exact ⟨_,_,rfl⟩
  · next hmap =>
    obtain ⟨hr,hfree⟩ := hread hmap
    obtain ⟨pg',hpg,-⟩ := (h.readpage hfree fresh hr.1).1 hr
    simp [hpg]

end Holds

theorem RawInode.byte_of_text {out : List Byte} (hz : ri.compr ≠ .zero)
    (ht : ri.text c data = .ok out) (k : ℕ) : (RawNode.inode ri data).byte c k = out.getD k 0 := by
  simp only [RawNode.byte,hz,if_false,ht]

theorem byte_of_pageText {pg : Page} {ofs len n : ℕ} (hz : ri.compr ≠ .zero)
    (ht : ri.text c data = .ok ((pg.text (ofs % 4096) len).take n)) (hn : n ≤ len)
    (hp : ofs ≤ p) (hlt : p < ofs + n) :
    (RawNode.inode ri data).byte c (p - ofs) = pg (ofs % 4096 + (p - ofs)) := by
  rw [RawInode.byte_of_text hz ht,List.getD_eq_getElem?_getD,List.getElem?_take_of_lt (by omega),
    Page.text,List.getElem?_map,List.getElem?_range (by omega)]
  rfl

theorem sound_of_pageText {pg : Page} {ofs len n : ℕ}
    (ht : ri.text c data = .ok ((pg.text (ofs % 4096) len).take n)) (hn : n ≤ len)
    (hsize : ri.dsize = n) : ri.Sound c data := by
  refine Or.inr ⟨_,ht,?_⟩
  rw [List.length_take,Page.text,List.length_map,List.length_range]
  omega

theorem Added.zeroPage {e : ℕ} (ha : Added f ri data e f') (ht : Tiles 0 f.fraglist e)
    (hfree : fragsOf f.fraglist f.st.next = 0) (hz : ZeroPage c f index)
    (hzero : ∀ p, ri.offset ≤ p → p < ri.offset + ri.dsize → p / 4096 = index →
      (RawNode.inode ri data).byte c (p - ri.offset) = 0) : ZeroPage c f' index := by
  intro k hk
  rw [ha.byteAt ht hfree]
  split
  · grind
  · exact hz k hk

theorem Holds.put {w' : Option Writer} (h : Holds c d spec s)
    (ha : Added s.ino ri data s.ino.isize g)
    (hf' : f' = { g with isize := max s.ino.isize (ri.offset + ri.dsize) })
    (hofs : ri.offset ≤ s.ino.isize) (hpos : 0 < ri.dsize) (hsound : ri.Sound c data)
    (hpage : ri.offset % 4096 + ri.dsize ≤ 4096)
    (hbyte : ∀ p, ri.offset ≤ p → p < ri.offset + ri.dsize →
      (RawNode.inode ri data).byte c (p - ri.offset) = spec p)
    (hinv : FileInv d ⟨f',w'⟩)
    (hpend : ∀ p, s.Pending p → (ri.offset ≤ p ∧ p < ri.offset + ri.dsize) ∨
      FileState.Pending ⟨f',w'⟩ p)
    (hwr : ∀ w, w' = some w → WriterHolds spec f' w)
    (hfresh : ∀ index, s.Fresh index → IsStart f'.fraglist (index * 4096) ∨
      FileState.Fresh ⟨f',w'⟩ index) : Holds c d spec ⟨f',w'⟩ := by
  have hcoh := h.inv.tracked.coherent
  have hfree := hcoh.next_free.1
  have hbytes : ∀ p, f'.byteAt c p = if ri.offset ≤ p ∧ p < ri.offset + ri.dsize then
      (RawNode.inode ri data).byte c (p - ri.offset) else s.ino.byteAt c p := by
    rw [hf']
    exact ha.byteAt h.laid.tiles hfree c
  have hlist : f'.fraglist = g.fraglist := by rw [hf']
  refine ⟨hinv,?_,fun p hp => ?_,?_,hwr,fun index hx => ?_⟩
  · rw [hf']
    exact h.laid.added hcoh ha hofs hpos ⟨hsound,Or.inr hpage⟩
  · rw [hbytes]
    split
    · next hin => exact hbyte p hin.1 hin.2
    · next hin => exact h.shown p fun hpd => (hpend p hpd).elim hin hp
  · have hg : g.mapping = s.ino.mapping := by rw [ha.rest]
    have hmap : f'.mapping = s.ino.mapping := by
      rw [hf']
      exact hg
    simp only [hmap]
    exact h.cached
  · have hsize : f'.isize = max s.ino.isize (ri.offset + ri.dsize) := by rw [hf']
    simp only [hsize] at hx
    by_cases hin : index * 4096 < s.ino.isize
    · by_cases hfr : s.Fresh index
      · exact (hfresh index hfr).imp_right Or.inr
      · rcases h.start_or_zero hin hfr with hs | ⟨hz,hspec⟩
        · refine Or.inl ?_
          simp only [hlist]
          exact ha.isStart hs (by omega) hx
        · refine Or.inr (Or.inl ?_)
          have hzero : ZeroPage c g index := by
            refine ha.zeroPage h.laid.tiles hfree hz fun p h₁ h₂ hp => ?_
            have hk := hspec (p % 4096) (Nat.mod_lt _ (by decide))
            rw [hbyte p h₁ h₂,← hk]
            congr 1
            omega
          intro k hk
          simp only [hf']
          exact hzero k hk
    · refine Or.inl ?_
      simp only [hlist]
      exact (ha.start _).mpr (Or.inl (by omega))

theorem WriterHolds.keep (h : WriterHolds spec f w) (hsize : f'.isize = f.isize)
    (hstart : IsStart f.fraglist (w.index * 4096) → IsStart f'.fraglist (w.index * 4096)) :
    WriterHolds spec f' w :=
  ⟨h.buf,h.begun.imp_right hstart,hsize ▸ h.tail⟩

theorem Holds.gcDnodeRound {pg : Page} {offset n stop : ℕ} {t : Compr} {cdata : List Byte}
    (h : Holds c d spec s) (hpg : ∀ k < 4096, pg k = spec (index * 4096 + k))
    (hw : ((s.ino.st.next + 1 : ℕ) : ℤ) + d < 4294967296) (hpos : 0 < n) (hend : offset + n ≤ stop)
    (hstop : stop ≤ s.ino.isize) (hpage : offset / 4096 = index)
    (hpage' : stop ≤ index * 4096 + 4096) (ht : t ≠ .zero)
    (htext : (gcDnodeNode s.ino offset t n cdata).text c cdata =
      .ok ((pg.text (offset % 4096) (stop - offset)).take n)) :
    Holds c d spec ⟨s.ino.addNode (gcDnodeNode s.ino offset t n cdata) cdata,s.writer⟩ ∧
      (s.ino.addNode (gcDnodeNode s.ino offset t n cdata) cdata).isize = s.ino.isize := by
  have hcoh := h.inv.tracked.coherent
  have hsmall := hcoh.small
  let ri := gcDnodeNode s.ino offset t n cdata
  obtain ⟨htr,hsize⟩ : Tracked d (s.ino.addNode ri cdata) ∧
      (s.ino.addNode ri cdata).isize = s.ino.isize :=
    h.inv.tracked.gcDnodeRound hw hpos (by omega) ht
  have ha : Added s.ino ri cdata s.ino.isize (s.ino.addNode ri cdata) :=
    hcoh.addNode_spec h.laid.tiles le_rfl hpos (show offset + n < 4294967296 by omega)
  have hstart : ∀ P, IsStart s.ino.fraglist (P * 4096) →
      IsStart (s.ino.addNode ri cdata).fraglist (P * 4096) := fun P hs =>
    ha.isStart hs (show ¬(offset < P * 4096 ∧ P * 4096 < offset + n) by omega)
      (lt_of_lt_of_le (hs.bounds h.laid.tiles).2 (le_max_left _ _))
  refine ⟨h.put ha ?_ (show offset ≤ s.ino.isize by omega) hpos
    (sound_of_pageText htext (by omega) rfl) (show offset % 4096 + n ≤ 4096 by omega)
    (fun p h₁ h₂ => ?_) ⟨htr,fun w hw => hsize ▸ h.inv.writer w hw⟩ (fun p hp => Or.inr hp)
    (fun w hw => (h.writer w hw).keep hsize (hstart w.index)) (fun P hf => Or.inr hf),hsize⟩
  · have hmax : max s.ino.isize (ri.offset + ri.dsize) = (s.ino.addNode ri cdata).isize := by
      rw [hsize]
      exact max_eq_left (show offset + n ≤ s.ino.isize by omega)
    rw [hmax]
  · have hp : p < offset + n := h₂
    have hle : offset ≤ p := h₁
    refine (byte_of_pageText ht htext (by omega) hle hp).trans ?_
    grind

end Simpad.Jffs2
