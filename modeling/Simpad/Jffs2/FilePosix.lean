import Simpad.Jffs2.GcContents

namespace Simpad.Jffs2
open Word Segments Function Runs

variable {c : Codecs} {d : ℤ} {spec : ℕ → Byte} {s s' : FileState} {f f' g : Inode} {w : Writer}
  {ri : RawInode} {index : ℕ}

theorem Holds.idle (htr : Tracked d f) (hlaid : Laid c f) (hshown : ∀ p, f.byteAt c p = spec p)
    (hcached : ∀ index pg, f.mapping index = some pg → ∀ k < 4096, pg k = spec (index * 4096 + k))
    (hstarts : ∀ index, index * 4096 < f.isize →
      IsStart f.fraglist (index * 4096) ∨ ZeroPage c f index) : Holds c d spec ⟨f,none⟩ := by
  refine ⟨.idle htr,hlaid,fun p _ => hshown p,hcached,fun w hw => ?_,fun index hx => ?_⟩
  · cases hw
  · exact (hstarts index hx).imp_right Or.inl

theorem Holds.commit (hc : c.Lawful) (h : Holds c d spec s) (hwriter : s.writer = some w)
    (hpos : w.writelen ≠ 0) (alloclen : Reservation)
    (hw : ((stepCommit c s.ino w alloclen.1).ino.st.next : ℤ) + d < 4294967296) :
    Holds c d spec (stepCommit c s.ino w alloclen.1) := by
  have hcoh := h.inv.tracked.coherent
  have hinv := h.inv.commit hc hwriter hpos alloclen hw
  obtain ⟨t,n,cdata,hround,hn,hnl,ht,htext⟩ :=
    commitRound_spec hc s.ino w.buf w.fileOfs alloclen (Nat.pos_of_ne_zero hpos)
  obtain ⟨h₁,h₂,h₃,h₄⟩ := h.inv.writer w hwriter
  obtain ⟨hbuf,hbegun,htail⟩ := h.writer w hwriter
  have hu : u32 (w.fileOfs + n) = w.fileOfs + n := u32_of_lt (by omega)
  have hz : ¬n = 0 := by omega
  have hsub : sub32 w.writelen n = w.writelen - n := sub32_of_le hnl (by omega)
  simp only [stepCommit,hround,hz,if_false,hu,hsub] at hinv ⊢
  let ri := commitNode s.ino w.fileOfs t n cdata
  have hisize : ri.isize = max s.ino.isize (w.fileOfs + n) := by
    change max s.ino.isize (u32 (w.fileOfs + n)) = _
    rw [hu]
  have ha : Added s.ino ri cdata s.ino.isize (s.ino.addNode ri cdata) :=
    hcoh.addNode_spec h.laid.tiles le_rfl hn (show w.fileOfs + n < 4294967296 by omega)
  have hstart : IsStart (s.ino.addNode ri cdata).fraglist (w.index * 4096) := by
    rcases hbegun with heq | hs
    · exact (ha.start _).mpr (Or.inl heq.symm)
    · exact ha.isStart hs (show ¬(w.fileOfs < w.index * 4096 ∧ w.index * 4096 < w.fileOfs + n) by omega)
        (lt_of_lt_of_le (hs.bounds h.laid.tiles).2 (le_max_left _ _))
  refine h.put ha (by rw [← show ri.isize = max s.ino.isize (ri.offset + ri.dsize) from hisize]) h₁ hn
    (sound_of_pageText htext hnl rfl) (show w.fileOfs % 4096 + n ≤ 4096 by omega)
    (fun p hp₁ hp₂ => ?_) hinv (fun p hp => ?_) (fun w' hw' => ?_) (fun index hf => ?_)
  · have hle : w.fileOfs ≤ p := hp₁
    have hlt : p < w.fileOfs + n := hp₂
    refine (byte_of_pageText ht htext hnl hle hlt).trans ?_
    grind
  · obtain ⟨w',hw',hle,hlt⟩ := hp
    obtain rfl := Option.some.inj (hwriter.symm.trans hw')
    by_cases hin : p < w.fileOfs + n
    · exact Or.inl ⟨hle,hin⟩
    · exact Or.inr ⟨_,rfl,by simp only; omega,by simp only; omega⟩
  · cases hw'
    refine ⟨hbuf,Or.inr hstart,?_⟩
    grind
  · obtain ⟨w',hw',rfl,-⟩ := hf
    obtain rfl := Option.some.inj (hwriter.symm.trans hw')
    exact Or.inl hstart

variable {size start stop : ℕ}

section
variable (h : Holds c d spec s)
include h

theorem Holds.extend (hidle : s.writer = none)
    (ha : Added s.ino ri [] s.ino.isize g) (hf' : f' = { g with isize := size })
    (hofs : ri.offset = s.ino.isize) (hds : ri.dsize = size - s.ino.isize)
    (hlt : s.ino.isize < size) (hz : ri.compr = .zero) (htr : Tracked d f') :
    Holds c d spec ⟨f',none⟩ := by
  have hcoh := h.inv.tracked.coherent
  have hmax : max s.ino.isize (ri.offset + ri.dsize) = size := by omega
  have hlaid := h.laid.added hcoh ha (Nat.le_of_eq hofs) (by omega) ⟨Or.inl hz,Or.inl hz⟩
  rw [hmax,← hf'] at hlaid
  have hbyte : ∀ p, f'.byteAt c p = s.ino.byteAt c p := by
    intro p
    have hb := ha.byteAt h.laid.tiles hcoh.next_free.1 c p
    rw [hf']
    refine hb.trans ?_
    split
    · rw [h.laid.byteAt_ge (by omega)]
      simp only [RawNode.byte,hz,if_true]
    · rfl
  have hnone := FileState.not_pending hidle
  have hmap : f'.mapping = s.ino.mapping := by rw [hf',ha.rest]
  refine .idle htr hlaid (fun p => (hbyte p).trans (h.shown p (hnone p))) ?_ fun index hx => ?_
  · simp only [hmap]
    exact h.cached
  · have hlist : f'.fraglist = g.fraglist := by rw [hf']
    simp only [hlist]
    by_cases hin : index * 4096 < s.ino.isize
    · rcases h.starts index hin with hs | hzero | ⟨w,hw,-⟩
      · exact Or.inl (ha.isStart hs (by omega) (by omega))
      · exact Or.inr fun k hk => (hbyte _).trans (hzero k hk)
      · simp [hidle] at hw
    · exact Or.inr fun k hk => (hbyte _).trans (h.laid.byteAt_ge (by omega))

theorem Holds.cut (hidle : s.writer = none)
    (ha : Tagged s.ino ri s.ino.isize size f') (hle : size ≤ s.ino.isize) (hin : InPage c ri [])
    (hmap : f'.mapping = if size < s.ino.isize then (s.ino.vmtruncate size).mapping else s.ino.mapping)
    (htr : Tracked d f') : Holds c d (fun p => if p < size then spec p else 0) ⟨f',none⟩ := by
  have hcoh := h.inv.tracked.coherent
  have hsize : f'.isize = size := congrArg Inode.isize ha.rest
  have hnone := FileState.not_pending hidle
  have hbyte := ha.byteAt h.laid.tiles hcoh.next_free.1 c
  have hspec : ∀ p, s.ino.byteAt c p = spec p := fun p => h.shown p (hnone p)
  refine .idle htr (h.laid.tagged hcoh ha hle hin) (fun p => ?_) (fun index pg hpg k hk => ?_)
    fun index hx => ?_
  · simp only [hbyte,hspec]
  · simp only [hmap] at hpg
    by_cases hlt : size < s.ino.isize
    · rw [if_pos hlt] at hpg
      simp only [Inode.vmtruncate] at hpg
      split at hpg
      · cases hpg
      · obtain ⟨pg₀,hpg₀,rfl⟩ := Option.map_eq_some_iff.mp hpg
        simp only [h.cached index pg₀ hpg₀ k hk]
    · rw [if_neg hlt] at hpg
      rw [h.cached index pg hpg k hk]
      split
      · rfl
      · rw [← hspec,h.laid.byteAt_ge (by omega)]
  · rw [hsize] at hx
    rcases h.starts index (by omega) with hs | hz | ⟨w,hw,-⟩
    · exact Or.inl ((ha.start _).mpr ⟨hs,hx⟩)
    · refine Or.inr fun k hk => ?_
      simp only [hbyte,hz k hk,ite_self]
    · simp [hidle] at hw

omit h in
theorem setattrNode_inPage (hle : size ≤ f.isize) : InPage c (f.setattrNode size []) [] := by
  have hno : ¬f.isize < size := not_lt.mpr hle
  have hcompr : (f.setattrNode size []).compr = .none := if_neg hno
  have hds : (f.setattrNode size []).dsize = 0 := if_neg hno
  refine ⟨Or.inr ⟨[],?_,hds.symm⟩,Or.inr (by omega)⟩
  rw [RawInode.text,if_pos hcompr]
  rfl

theorem Holds.setattr (hidle : s.writer = none) (hsize : size < 4294967296)
    (hok : s.ino.setattr c size = .ok f') (hw : (f'.st.next : ℤ) + d < 4294967296) :
    Holds c d (fun p => if p < size then spec p else 0) ⟨f',none⟩ := by
  have hcoh := h.inv.tracked.coherent
  have htr := h.inv.tracked.setattr hsize hok hw
  by_cases hlt : s.ino.isize < size
  · rw [Inode.setattr_grow h.inv.tracked.reg hlt,Except.ok.injEq] at hok
    obtain ⟨hofs,hds,-⟩ := Inode.setattrNode_grow hlt hsize
    have ha : Added s.ino (s.ino.setattrNode size []) [] s.ino.isize
        (s.ino.addNode (s.ino.setattrNode size []) []) :=
      hcoh.addNode_spec h.laid.tiles le_rfl (by omega) (by omega)
    have hspec : (fun p => if p < size then spec p else 0) = spec := by
      funext p
      split
      · rfl
      · rw [← h.shown p (FileState.not_pending hidle p),h.laid.byteAt_ge (by omega)]
    rw [hspec]
    exact h.extend hidle ha hok.symm hofs hds hlt (if_pos hlt) htr
  · have hle := Nat.le_of_not_lt hlt
    obtain ⟨f₁,hok₁,ha,hmap⟩ := Inode.setattr_cut (c := c) h.inv.tracked.reg hle h.laid.tiles
      le_rfl hcoh.small hcoh.counted hcoh.next_free.1 hcoh.next_free.2
    rw [hok,Except.ok.injEq] at hok₁
    subst hok₁
    exact h.cut hidle ha hle (setattrNode_inPage hle) hmap htr

theorem Holds.setattr_ok (size : ℕ) : ∃ f, s.ino.setattr c size = .ok f := by
  have hcoh := h.inv.tracked.coherent
  by_cases hlt : s.ino.isize < size
  · exact ⟨_,Inode.setattr_grow h.inv.tracked.reg hlt⟩
  · obtain ⟨f,hok,-⟩ := Inode.setattr_cut (c := c) h.inv.tracked.reg (Nat.le_of_not_lt hlt) h.laid.tiles
      le_rfl hcoh.small hcoh.counted hcoh.next_free.1 hcoh.next_free.2
    exact ⟨f,hok⟩

theorem Holds.hole {pageofs : ℕ} (hidle : s.writer = none)
    (hp : pageofs < 4294967296)
    (hw : ((prepareHole s.ino pageofs).st.next : ℤ) + d < 4294967296) :
    Holds c d spec ⟨prepareHole s.ino pageofs,none⟩ := by
  have htr := (h.inv.tracked.prepareHole hp hw).1
  unfold prepareHole at *
  by_cases hlt : s.ino.isize < pageofs
  · rw [if_pos hlt] at htr ⊢
    have hmax : max s.ino.isize pageofs = pageofs := by omega
    rw [hmax] at htr ⊢
    have hds := (holeNode_fnSize s.ino pageofs hlt hp).2
    have hofs : (s.ino.holeNode s.ino.isize pageofs pageofs).offset = s.ino.isize := rfl
    have ha : Added s.ino (s.ino.holeNode s.ino.isize pageofs pageofs) [] s.ino.isize
        (s.ino.addNode (s.ino.holeNode s.ino.isize pageofs pageofs) []) :=
      h.inv.tracked.coherent.addNode_spec h.laid.tiles le_rfl (by omega) (by omega)
    exact h.extend hidle ha rfl hofs hds hlt rfl htr
  · rw [if_neg hlt] at htr ⊢
    rw [← hidle]
    exact h

end

def posixStep (spec : ℕ → Byte) : FileOp → ℕ → Byte
  | .prepare index start stop data _ => fun p =>
    if index * 4096 + start ≤ p ∧ p < index * 4096 + stop then data (p - index * 4096) else spec p
  | .setattr size => fun p => if p < size then spec p else 0
  | _ => spec

theorem Holds.startWriter {data fresh pg : Page} (h : Holds c d spec ⟨f,none⟩)
    (hx : index * 4096 ≤ f.isize) (hstop : stop ≤ 4096) (hfit : index * 4096 + stop < 4294967296)
    (hpg : ∀ k < 4096, start ≤ k ∧ k < stop ∨ pg k = spec (index * 4096 + k)) :
    Holds c d (posixStep spec (.prepare index start stop data fresh))
      ⟨{ f with mapping := putBuf f.mapping (startWriter f index start stop data pg) },
        some (startWriter f index start stop data pg)⟩ := by
  have hsmall : f.isize < 4294967296 := h.inv.tracked.coherent.small
  have hother : ∀ p, ¬(index * 4096 ≤ p ∧ p < index * 4096 + stop) →
      posixStep spec (.prepare index start stop data fresh) p = spec p := by
    intro p hp
    exact if_neg fun hin => hp ⟨le_trans (Nat.le_add_right _ _) hin.1,hin.2⟩
  obtain ⟨hofs,hlen⟩ := startWriter_extent f index start stop data pg hsmall hfit
  have hok := writerOk_start f index start stop data pg hx hsmall hstop hfit
  have hbuf : ∀ k < 4096, (Simpad.Jffs2.startWriter f index start stop data pg).buf k =
      posixStep spec (.prepare index start stop data fresh) (index * 4096 + k) := by
    intro k hk
    simp only [Simpad.Jffs2.startWriter,posixStep,Nat.add_le_add_iff_left,Nat.add_lt_add_iff_left,
      Nat.add_sub_cancel_left]
    grind
  have hindex : (Simpad.Jffs2.startWriter f index start stop data pg).index = index := rfl
  generalize Simpad.Jffs2.startWriter f index start stop data pg = w at *
  have htail : f.isize ≤ w.fileOfs + w.writelen ∨
      w.fileOfs + w.writelen = w.index * 4096 + 4096 := by
    omega
  refine ⟨⟨h.inv.tracked.mapping _,fun w' hw' => ?_⟩,⟨h.laid.tiles,h.laid.filled,h.laid.nodes⟩,
    fun p hp => ?_,fun j pg' hj k hk => ?_,fun w' hw' => ?_,fun j hj => ?_⟩
  · cases hw'
    exact hok
  · have hp' : ¬(index * 4096 ≤ p ∧ p < index * 4096 + stop) := fun hin =>
      hp ⟨w,rfl,by omega,by omega⟩
    rw [hother p hp']
    exact h.shown p (FileState.not_pending rfl p)
  · simp only [putBuf,hindex] at hj
    by_cases hjx : j = index
    · subst hjx
      split at hj
      · grind
      · grind
    · have hmap : f.mapping j = some pg' := by
        grind
      rw [hother _ (by omega)]
      exact h.cached j pg' hmap k hk
  · cases hw'
    refine ⟨?_,Or.inl (by rw [hofs,hindex]),htail⟩
    rw [hindex]
    exact hbuf
  · rcases h.starts j hj with hs | hz | ⟨_,hw',-⟩
    · exact Or.inl hs
    · exact Or.inr (Or.inl hz)
    · cases hw'

theorem prepareHole_mapping (f : Inode) (pageofs : ℕ) :
    (prepareHole f pageofs).mapping = f.mapping := by
  unfold prepareHole
  split
  · exact Inode.addNode_mapping _ _ _
  · rfl

/-- The page that a step may have to read. -/
def pageRead (s : FileState) : FileOp → Option ℕ
  | .prepare index start stop _ _ => if start ≠ 0 ∨ stop < 4096 then some index else none
  | .gc victim _ _ _ => gcPage s.ino victim
  | .read index _ => some index
  | _ => none

/-- The page the step reads, if it is not in the cache, can be read. -/
def ReadsReadable (s : FileState) (op : FileOp) : Prop :=
  ∀ index ∈ pageRead s op, s.ino.mapping index = none → Readable s.ino.fraglist index

instance (s : FileState) (op : FileOp) : Decidable (ReadsReadable s op) :=
  inferInstanceAs (Decidable (∀ index ∈ pageRead s op, _ → _))

theorem readable_behind {l : List Frag} {e : ℕ} (ht : Tiles 0 l e) (he : e < 4294967296)
    (hx : e ≤ index * 4096) (hP : index + 1 < 1048576) : Readable l index := by
  obtain ⟨m,-,ht',-,hhead,-⟩ := pageFrags_spec ht he index
  refine ⟨hP,?_⟩
  split
  · trivial
  · next frag next hfrags =>
    have hstop := (hhead frag next hfrags).2
    rw [hfrags] at ht'
    have := ht'.2.2.le
    omega

theorem Holds.prepare {data fresh : Page} (h : Holds c d spec s) (hidle : s.writer = none)
    (hstop : stop ≤ 4096) (hfit : index * 4096 + stop < 4294967296)
    (hread : ReadsReadable s (.prepare index start stop data fresh))
    (hp : stepPrepare c s.ino index start stop data fresh = some s')
    (hw : (s'.ino.st.next : ℤ) + d < 4294967296) :
    Holds c d (posixStep spec (.prepare index start stop data fresh)) s' := by
  have hofs : u32 (index * 4096) = index * 4096 :=
    u32_of_lt ((Nat.le_add_right _ _).trans_lt hfit)
  have hcases := stepPrepare_cases hp
  rw [hofs] at hcases
  have hnext : ((prepareHole s.ino (index * 4096)).st.next : ℤ) + d < 4294967296 := by
    grind
  have hhole := h.hole hidle ((Nat.le_add_right _ _).trans_lt hfit) hnext
  have hisize := (h.inv.tracked.prepareHole ((Nat.le_add_right _ _).trans_lt hfit) hnext).2
  -- the hole up to the page does not change whether the page can be read
  have hready : start ≠ 0 ∨ stop < 4096 → (prepareHole s.ino (index * 4096)).mapping index = none →
      Readable (prepareHole s.ino (index * 4096)).fraglist index := by
    intro hpart hmap
    rw [prepareHole_mapping] at hmap
    have hr := hread index (if_pos hpart) hmap
    by_cases hlt : s.ino.isize < index * 4096
    · refine readable_behind hhole.laid.tiles hhole.inv.tracked.coherent.small ?_ hr.1
      simp only [hisize]
      omega
    · rw [prepareHole,if_neg hlt]
      exact hr
  generalize prepareHole s.ino (index * 4096) = f at *
  have hx : index * 4096 ≤ f.isize := hisize ▸ le_max_right _ _
  have hfree : ¬FileState.locked ⟨f,none⟩ index := FileState.not_locked rfl index
  rcases hcases with ⟨e,hpart,herr,rfl⟩ | ⟨pg,m,⟨hpart,hok⟩ | ⟨hfull,rfl,rfl⟩,rfl⟩
  · obtain ⟨pg,g,hok⟩ := hhole.readCachePage_succeeds fresh fun hm => ⟨hready hpart hm,hfree⟩
    rw [herr] at hok
    cases hok
  · obtain ⟨hpg,hholds⟩ := hhole.readCachePage hok fun hm => ⟨hready hpart hm,hfree⟩
    exact hholds.startWriter hx hstop hfit fun k hk => Or.inr (hpg k hk)
  · exact hhole.startWriter hx hstop hfit fun k hk => Or.inl (by omega)

theorem Holds.finish (h : Holds c d spec s) (hwriter : s.writer = some w) (hdone : w.writelen = 0) :
    Holds c d spec ⟨s.ino,none⟩ := by
  obtain ⟨-,-,htail⟩ := h.writer w hwriter
  refine .idle h.inv.tracked h.laid (fun p => h.shown p ?_) h.cached fun index hx => ?_
  · rintro ⟨w',hw',hle,hlt⟩
    obtain rfl := Option.some.inj (hwriter.symm.trans hw')
    omega
  · rcases h.starts index hx with hs | hz | ⟨w',hw',hi,hofs⟩
    · exact Or.inl hs
    · exact Or.inr hz
    -- the page was written from its start, so the file ends before it
    · obtain rfl := Option.some.inj (hwriter.symm.trans hw')
      omega

theorem Holds.step {op : FileOp} (hc : c.Lawful) (h : Holds c d spec s)
    (hread : ReadsReadable s op) (hs : fileStep c s op = some s')
    (hw : (s'.ino.st.next : ℤ) + d < 4294967296) : Holds c d (posixStep spec op) s' := by
  rcases fileStep_cases hs with ⟨index,start,stop,data,fresh,rfl,hidle,-,hstop,hfit,hp⟩ |
    ⟨alloclen,w,rfl,hwr,hpos,rfl⟩ | ⟨w,rfl,hwr,hdone,rfl⟩ | ⟨size,rfl,hidle,hsize,hset⟩ |
    ⟨victim,merge,alloc,fresh,rfl,hlock,hgc⟩ | ⟨index,fresh,rfl,hfree,hrd⟩ | ⟨index,rfl,hfree,rfl⟩
  · exact h.prepare hidle hstop hfit hread hp hw
  · exact h.commit hc hwr hpos alloclen hw
  · exact h.finish hwr hdone
  · rcases hset with ⟨f,hok,rfl⟩ | ⟨e,herr,rfl⟩
    · exact h.setattr hidle hsize hok hw
    · obtain ⟨f,hok⟩ := h.setattr_ok size
      rw [herr] at hok
      cases hok
  · rcases hgc with ⟨f,hok,rfl⟩ | ⟨e,-,rfl⟩
    · refine h.gcPass hw hc (fun k => ?_) (fun index hi hm => ?_) hok
      · grind
      · exact ⟨hread index hi hm,fun hl => hlock index hi hl hm⟩
    · exact h
  · rcases hrd with ⟨pg,f,hok,rfl⟩ | ⟨e,-,rfl⟩
    · exact (h.readCachePage hok fun hm => ⟨hread index rfl hm,hfree⟩).2
    · exact h
  · refine h.mapping fun j pg hj => h.cached j pg ?_
    grind

/-- The bytes that the steps should leave in a new file. -/
def posix (ops : List FileOp) : ℕ → Byte := ops.foldl posixStep fun _ => 0

theorem createdInode_holds (c : Codecs) : Holds c 0 (fun _ => 0) ⟨createdInode,none⟩ := by
  refine .idle createdInode_tracked ⟨rfl,fun p hp => ?_,?_⟩ (fun _ => rfl) (fun _ _ hm => ?_)
    fun index hx => absurd hx (Nat.not_lt_zero _)
  · cases hp
  · intro i _ ri data hraw
    obtain ⟨rfl,rfl⟩ := RawNode.inode.inj hraw
    exact ⟨Or.inr ⟨[],rfl,rfl⟩,Or.inr (by decide)⟩
  · cases hm

theorem Holds.run {ops : List FileOp} (hc : c.Lawful) (hm : Meets (fileStep c) ReadsReadable
    ⟨createdInode,none⟩ ops) (hr : run (fileStep c) ⟨createdInode,none⟩ ops = some s)
    (hw : s.ino.st.next < 4294967296) : Holds c 0 (posix ops) s := by
  have hstep : ∀ spec s op s', (s.ino.st.next < 4294967296 → Holds c 0 spec s) →
      ReadsReadable s op → fileStep c s op = some s' →
      s'.ino.st.next < 4294967296 → Holds c 0 (posixStep spec op) s' := by
    intro spec s op s' h hread hs hw
    have := (fileStep_grown hs).next
    exact (h (by omega)).step hc hread hs (by omega)
  exact invariant_fold (fileStep c) hstep (fun _ => createdInode_holds c) hm hr hw

/-- In the last page of a 32-bit file the end of the page wraps to zero, and nothing is filled in. -/
theorem doReadpageNolock_last (c : Codecs) (f : Inode) (pg : Page) :
    doReadpageNolock c f 1048575 pg = .ok pg :=
  readFrags_done (Nat.zero_le _)

/-- Reading a page gives the bytes of the POSIX model exactly when the fragment list allows it. -/
theorem readpage_posix_iff {ops : List FileOp} (hc : c.Lawful)
    (hm : Meets (fileStep c) ReadsReadable ⟨createdInode,none⟩ ops)
    (hr : run (fileStep c) ⟨createdInode,none⟩ ops = some s)
    (hw : s.ino.st.next < 4294967296) (hidle : s.writer = none) (hx : index < 1048576) :
    (∀ pg, ∃ pg', doReadpageNolock c s.ino index pg = .ok pg' ∧
      ∀ k < 4096, pg' k = posix ops (index * 4096 + k)) ↔ Readable s.ino.fraglist index := by
  have h := Holds.run hc hm hr hw
  have hfree : ¬s.locked index := FileState.not_locked hidle index
  by_cases hP : index + 1 < 1048576
  · constructor
    · intro hread
      by_contra hno
      obtain ⟨e,herr⟩ := (h.readpage hfree (fun _ => 0) hP).2 hno
      obtain ⟨pg',hok,-⟩ := hread fun _ => 0
      rw [herr] at hok
      cases hok
    · exact fun hread pg => (h.readpage hfree pg hP).1 hread
  · obtain rfl : index = 1048575 := by omega
    refine iff_of_false (fun hread => ?_) fun hread => hP hread.1
    -- a page full of a byte the file does not start with stays as it is
    obtain ⟨pg',hok,hpg⟩ := hread fun _ => posix ops (1048575 * 4096) + 1
    rw [doReadpageNolock_last,Except.ok.injEq] at hok
    have hfirst := hpg 0 (by decide)
    grind

theorem readpage_posix_written : ∃ s, run (fileStep .idle) ⟨createdInode,none⟩ writeAndPass = some s ∧
    ∀ pg, ∃ pg', doReadpageNolock .idle s.ino 0 pg = .ok pg' ∧
      ∀ k < 4096, pg' k = posix writeAndPass (0 * 4096 + k) := by
  have hm : Meets (fileStep .idle) ReadsReadable ⟨createdInode,none⟩ writeAndPass := by
    decide +kernel
  have hs : (run (fileStep .idle) ⟨createdInode,none⟩ writeAndPass).any (fun s =>
      s.writer.isNone && decide (s.ino.st.next < 4294967296 ∧ Readable s.ino.fraglist 0)) := by
    decide +kernel
  obtain ⟨s,hr,hs⟩ := Option.any_eq_true _ _ |>.mp hs
  obtain ⟨hidle,hs⟩ := Bool.and_eq_true_iff.mp hs
  obtain ⟨hw,hread⟩ := of_decide_eq_true hs
  exact ⟨s,hr,(readpage_posix_iff Codecs.idle_lawful hm hr hw (Option.isNone_iff_eq_none.mp hidle)
    (by decide)).mpr hread⟩

/-- A short hole that reaches into the page, with another fragment behind it, stops the reader. -/
theorem readpage_holes_eio : ∃ s, run (fileStep .idle) ⟨createdInode,none⟩
      [.setattr 4000,.setattr 4200,.setattr 5000] = some s ∧ s.writer = none ∧ s.ino.st.next = 4 ∧
    ∀ pg, doReadpageNolock .idle s.ino 1 pg = .error (.errno .eio) := by
  refine ⟨_,rfl,rfl,rfl,fun pg => ?_⟩
  have hx : 1 * 4096 % 4096 = 0 := rfl
  have ht : Tiles 4000 [⟨4000,200,some 2⟩,⟨4200,800,some 3⟩] 5000 := by
    simp [Tiles]
  exact readFrags_straddle_overlap hx (by decide) ht (by decide) (by decide) rfl rfl
    List.length_replicate pg rfl (by decide)

end Simpad.Jffs2
