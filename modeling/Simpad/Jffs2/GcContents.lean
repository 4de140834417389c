import Simpad.Jffs2.FileContents

namespace Simpad.Jffs2
open Word Segments

variable {c : Codecs} {d : ℤ} {spec : ℕ → Byte} {s : FileState} {f' : Inode}

variable {start stop victim : ℕ} {alloc : ℕ → ℕ} {merge : Bool} {fresh : Page}

namespace Holds
variable (h : Holds c d spec s)
include h

theorem keep (htr : Tracked d f') (hsize : f'.isize = s.ino.isize) (hlaid : Laid c f')
    (hbyte : ∀ p, f'.byteAt c p = s.ino.byteAt c p) (hmap : f'.mapping = s.ino.mapping)
    (hstart : ∀ x, IsStart s.ino.fraglist x → IsStart f'.fraglist x) :
    Holds c d spec ⟨f',s.writer⟩ := by
  refine ⟨⟨htr,fun w hw => hsize ▸ h.inv.writer w hw⟩,hlaid,fun p hp => ?_,?_,fun w hw => ?_,
    fun index hx => ?_⟩
  · exact (hbyte p).trans (h.shown p hp)
  · simp only [hmap]
    exact h.cached
  · exact (h.writer w hw).keep hsize (hstart _)
  · rcases h.starts index (hsize ▸ hx) with hs | hz | hf
    · exact Or.inl (hstart _ hs)
    · exact Or.inr (Or.inl fun k hk => (hbyte _).trans (hz k hk))
    · exact Or.inr (Or.inr hf)

section
variable (hw : (f'.st.next : ℤ) + d < 4294967296)
include hw

theorem gcDnode (hc : c.Lawful)
    (halloc : Roomy alloc) (hstop : stop ≤ s.ino.isize)
    (hpage : (stop - 1) / 4096 = start / 4096)
    (hread : s.ino.mapping (start / 4096) = none →
      Readable s.ino.fraglist (start / 4096) ∧ ¬s.locked (start / 4096))
    (hok : Simpad.Jffs2.gcDnode c s.ino merge alloc fresh start stop = .ok f') :
    Holds c d spec ⟨f',s.writer⟩ := by
  have hsmall := h.inv.tracked.coherent.small
  obtain ⟨h₁,h₂,h₃,h₄,h₅⟩ := gcDnodeRange_spec merge hstop hpage
  obtain ⟨pg,m,hg,hok⟩ := gcDnode_ok hok
  generalize gcDnodeRange s.ino merge start stop = r at *
  rw [h₄] at hg
  obtain ⟨hpg,hholds⟩ := h.readCachePage hg hread
  -- the pages of a round are the page that was read, whatever the round before has written
  obtain ⟨f₁,offset',hloop,hP,-⟩ := gcDnodeLoop_rule hc halloc h₂ (by omega)
    (P := fun g offset => r.1 ≤ offset ∧ ((g.st.next : ℤ) + d < 4294967296 →
      Holds c d spec ⟨g,s.writer⟩ ∧ g.isize = s.ino.isize))
    (by
      rintro g offset t n cdata ⟨hle,hP⟩ hlt hpos hend ht htext
      refine ⟨by omega,fun hw => ?_⟩
      rw [Inode.addNode_next] at hw
      obtain ⟨hg,hsz⟩ := hP (by omega)
      obtain ⟨hg',hsz'⟩ := hg.gcDnodeRound hpg hw hpos hend (by simp only [hsz]; omega)
        (by omega) (by omega) ht htext
      exact ⟨hg',hsz'.trans hsz⟩)
    (stop - r.1) 0 r.1 (by omega) ⟨le_rfl,fun _ => ⟨hholds,rfl⟩⟩
  grind

theorem gcMetadata {m : ℕ} (hm : s.ino.metadata = some m)
    (hok : Simpad.Jffs2.gcMetadata c s.ino m = .ok f') : Holds c d spec ⟨f',s.writer⟩ := by
  have hcoh := h.inv.tracked.coherent
  obtain ⟨htr,hsize⟩ := h.inv.tracked.gcMetadata hm hok hw
  obtain ⟨ha,hmap⟩ := h.inv.tracked.gcMetadata_tagged hm h.laid.tiles le_rfl hok
  refine h.keep htr hsize (h.laid.tagged hcoh ha le_rfl ?_) (fun p => ?_) hmap fun x hx => ?_
  · exact ⟨Or.inr ⟨[],rfl,rfl⟩,Or.inr (show 0 % 4096 + 0 ≤ 4096 by decide)⟩
  · rw [ha.byteAt h.laid.tiles hcoh.next_free.1]
    split
    · rfl
    · next hp => exact (h.laid.byteAt_ge (Nat.le_of_not_lt hp)).symm
  · exact (ha.start x).mpr ⟨hx,(hx.bounds h.laid.tiles).2⟩

end

end Holds

theorem IsZero.byteAt {f : Inode} {frag : Frag} {a b p : ℕ} (hz : IsZero f.st frag)
    (ht : Tiles a f.fraglist b) (hf : frag ∈ f.fraglist) (hp : frag.ofs ≤ p) (hlt : p < frag.stop) :
    f.byteAt c p = 0 := by
  obtain ⟨i,ri,data,hv,hraw,hzero⟩ := hz
  rw [Inode.byteAt,fragByte,visible_eq_some.mpr (hv ▸ ht.valueAt_of_mem hf hp hlt)]
  simp only [hraw,RawNode.byte,hzero,if_true]

namespace Holds
variable (h : Holds c d spec s)
include h

theorem victim_zero {ri : RawInode} {data : List Byte} {a b : Frag}
    (ha : a ∈ s.ino.fraglist) (hb : b ∈ s.ino.fraglist) (hav : a.val = some victim)
    (hbv : b.val = some victim) (hofs : a.ofs = start) (hstop : b.stop = stop) (hlt : start < stop)
    (hcross : start / 4096 < (stop - 1) / 4096)
    (hraw : (s.ino.st.node victim).raw = .inode ri data) : ri.compr = .zero := by
  have hcoh := h.inv.tracked.coherent
  obtain ⟨i,ri',data',hi,hraw',-,-,hle,hor⟩ := h.laid.nodeOf hcoh ha
  obtain ⟨j,rj,dataj,hj,hrawj,-,-,-,hor'⟩ := h.laid.nodeOf hcoh hb
  obtain rfl : victim = i := Option.some.inj (hav.symm.trans hi)
  obtain rfl : victim = j := Option.some.inj (hbv.symm.trans hj)
  obtain ⟨rfl,rfl⟩ : ri = ri' ∧ data = data' := by simpa using hraw.symm.trans hraw'
  obtain ⟨rfl,rfl⟩ : ri = rj ∧ data = dataj := by simpa using hraw.symm.trans hrawj
  by_contra hz
  have hend := (hor'.resolve_left hz).1
  have hal : s.ino.st.Alive victim := (hcoh.listed victim).mpr (Or.inl (fragsOf_ne_zero.mpr ⟨a,ha,hav⟩))
  have hpage := (h.laid.nodes victim hal ri data hraw).2.resolve_left hz
  omega

variable (hw : (f'.st.next : ℤ) + d < 4294967296)
include hw

theorem gcHole (hr : victimRange s.ino victim = some (start,stop))
    (hcross : start / 4096 < (stop - 1) / 4096)
    (hok : Simpad.Jffs2.gcHole s.ino victim start stop = .ok f') :
    Holds c d spec ⟨f',s.writer⟩ := by
  have hcoh := h.inv.tracked.coherent
  have hsmall := hcoh.small
  obtain ⟨a,ha,b,hb,hav,hbv,hofs,hstop,hlt,hle,hone,-⟩ :=
    victimRange_spec h.laid.tiles hsmall hcoh.counted hr
  have hfn : fragsOf s.ino.fraglist victim ≠ 0 := fragsOf_ne_zero.mpr ⟨a,ha,hav⟩
  obtain ⟨htr,hsize⟩ := h.inv.tracked.gcHole hfn hlt hle hok hw
  obtain ⟨ri,data,hraw,-⟩ := hcoh.data victim ((hcoh.listed victim).mpr (Or.inl hfn))
  have hz := h.victim_zero ha hb hav hbv hofs hstop hlt hcross hraw
  rcases gcHole_ok hcoh hfn hok with ⟨rfl,hmany⟩ | ⟨ri',data',hraw',hz',-,hrep⟩
  · -- the hole is in one piece, a new one of the same extent takes its place
    have hsingle : ¬1 < fragsOf s.ino.fraglist victim := fun hm => hmany hm ri data hraw hz
    obtain rfl := hone (by omega)
    let hole := s.ino.holeNode start stop s.ino.isize
    have hds : hole.dsize = stop - start := (holeNode_fnSize s.ino s.ino.isize hlt (by omega)).2
    have hend : hole.offset + hole.dsize = stop := by
      change start + hole.dsize = stop
      omega
    have hadd : Added s.ino hole [] s.ino.isize (s.ino.addNode hole []) :=
      hcoh.addNode_spec h.laid.tiles le_rfl (show 0 < hole.dsize by omega) (by omega)
    refine h.keep htr hsize ?_ (fun p => ?_) (by rw [hadd.rest]) fun x hx => ?_
    · have hlaid := h.laid.added hcoh hadd (show start ≤ s.ino.isize by omega)
        (show 0 < hole.dsize by omega) ⟨Or.inl rfl,Or.inl rfl⟩
      rw [max_eq_left (by omega),← hsize] at hlaid
      exact hlaid
    · rw [hadd.byteAt h.laid.tiles hcoh.next_free.1,hend]
      split
      · next hin =>
        have hzero : IsZero s.ino.st a := ⟨victim,ri,data,hav,hraw,hz⟩
        rw [hzero.byteAt h.laid.tiles ha (hofs ▸ hin.1) (hstop ▸ hin.2)]
        rfl
      · rfl
    · refine hadd.isStart hx (fun hin => ?_) (lt_of_lt_of_le (hx.bounds h.laid.tiles).2
        (le_max_left _ _))
      obtain ⟨g,hg,rfl⟩ := hx
      have := h.laid.tiles.stop_le ha hg (by omega)
      omega
  · have hrest := hrep.rest
    refine h.keep htr hsize (h.laid.replaced hrep hz') (hrep.byteAt h.laid.tiles hcoh.next_free.1 hraw'
      hz' hz' c) (by rw [hrest]) fun x hx => ?_
    obtain ⟨g,hg,rfl⟩ := hx
    rw [hrep.list]
    exact ⟨_,List.mem_map_of_mem hg,rfl⟩

theorem gcPass (hc : c.Lawful)
    (halloc : Roomy alloc)
    (hread : ∀ index, gcPage s.ino victim = some index → s.ino.mapping index = none →
      Readable s.ino.fraglist index ∧ ¬s.locked index)
    (hok : Simpad.Jffs2.gcPass c s.ino victim merge alloc fresh = .ok f') :
    Holds c d spec ⟨f',s.writer⟩ := by
  have hcoh := h.inv.tracked.coherent
  have hsmall := hcoh.small
  cases hobs : (s.ino.st.node victim).obsolete with
  | true =>
    rw [Simpad.Jffs2.gcPass,if_pos hobs] at hok
    cases hok
    exact h
  | false =>
    rcases gcPass_cases hobs hok with ⟨hm,hok⟩ | ⟨hm,start,stop,hr,hroute⟩ | ⟨-,-,fd,hfd,-⟩
    · exact h.gcMetadata hw hm hok
    · obtain ⟨-,-,-,-,-,-,-,-,hlt,hle,-⟩ := victimRange_spec h.laid.tiles hsmall hcoh.counted hr
      have hsub : sub32 stop 1 = stop - 1 := sub32_of_le (by omega) (by omega)
      rw [hsub] at hroute
      rcases hroute with ⟨hcross,hok⟩ | ⟨hno,hok⟩
      · exact h.gcHole hw hr hcross hok
      · have hpage : gcPage s.ino victim = some (start / 4096) := by
          simp [gcPage,hobs,hm,hr,hsub,hno]
        exact h.gcDnode hw hc halloc hle (by omega) (hread _ hpage) hok
    · rw [h.inv.tracked.dents] at hfd
      cases hfd

end Holds

end Simpad.Jffs2
