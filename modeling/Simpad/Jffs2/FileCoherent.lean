import Simpad.Jffs2.GcCoherent

namespace Simpad.Jffs2
open Word Segments Runs

variable {c : Codecs} {f f' : Inode} {d : ℤ}

/-- What is left of a page write lies in its page, and starts inside the file. -/
structure WriterOk (isize : ℕ) (w : Writer) : Prop where
  inside : w.fileOfs ≤ isize
  first : w.index * 4096 ≤ w.fileOfs
  last : w.fileOfs + w.writelen ≤ w.index * 4096 + 4096
  small : w.fileOfs + w.writelen < 4294967296

structure FileInv (d : ℤ) (s : FileState) : Prop where
  tracked : Tracked d s.ino
  writer : ∀ w, s.writer = some w → WriterOk s.ino.isize w

theorem FileInv.idle (h : Tracked d f) : FileInv d ⟨f,none⟩ := by
  refine ⟨h,fun w hw => ?_⟩
  cases hw

theorem Tracked.prepareHole {pageofs : ℕ} (h : Tracked d f) (hp : pageofs < 4294967296)
    (hw : ((prepareHole f pageofs).st.next : ℤ) + d < 4294967296) :
    Tracked d (prepareHole f pageofs) ∧ (prepareHole f pageofs).isize = max f.isize pageofs := by
  unfold Simpad.Jffs2.prepareHole at *
  by_cases hlt : f.isize < pageofs
  · rw [if_pos hlt] at hw ⊢
    have hmax : max f.isize pageofs = pageofs := by omega
    rw [hmax] at hw ⊢
    simp only [Inode.addNode_next] at hw
    obtain ⟨hfs,hds⟩ := holeNode_fnSize f pageofs hlt hp
    have hofs : (f.holeNode f.isize pageofs pageofs).offset = f.isize := rfl
    have h' : Tracked d { f.addNode (f.holeNode f.isize pageofs pageofs) [] with
        isize := (f.holeNode f.isize pageofs pageofs).isize } :=
      h.addNode hw rfl hfs (by omega) (Nat.le_of_eq hofs) (by omega) (by
        change pageofs = _
        omega) rfl
    exact ⟨h',rfl⟩
  · grind

theorem commitNode_fnSize {fileOfs n : ℕ} {t : Compr} {cdata : List Byte} (ht : t ≠ .zero) :
    (commitNode f fileOfs t n cdata).fnSize = n := by
  rw [RawInode.fnSize,if_neg]
  · rfl
  · exact fun h => ht h.1

theorem commitRound_spec (hc : c.Lawful) (f : Inode) (pg : Page) (fileOfs : ℕ) {writelen : ℕ}
    (alloclen : Reservation) (hpos : 0 < writelen) :
    ∃ t n cdata, commitRound c f pg fileOfs writelen alloclen.1 =
        ({ f.addNode (commitNode f fileOfs t n cdata) cdata with
          isize := (commitNode f fileOfs t n cdata).isize },n) ∧
      0 < n ∧ n ≤ writelen ∧ t ≠ .zero ∧ (commitNode f fileOfs t n cdata).text c cdata =
        .ok ((pg.text (fileOfs % 4096) writelen).take n) := by
  obtain ⟨alloclen,hmin,hmax⟩ := alloclen
  have hroom : sub32 alloclen sizeofRawInode = alloclen - sizeofRawInode :=
    sub32_of_le (by omega) hmax
  have hlen : (pg.text (fileOfs % 4096) writelen).length = writelen := by
    rw [Page.text,List.length_map,List.length_range]
  have hd : 0 < min (alloclen - sizeofRawInode) writelen := by omega
  have hle : min (alloclen - sizeofRawInode) writelen ≤
      (pg.text (fileOfs % 4096) writelen).length := by omega
  obtain ⟨t,n,cdata,hpack,hn,hnl,ht,htext⟩ := packData_spec hc hd hle
  refine ⟨t,n,cdata,?_,hn,by omega,ht,htext _ rfl rfl rfl⟩
  simp only [commitRound,hroom,hpack]

variable {alloc : ℕ → ℕ} {s s' : FileState}

theorem FileInv.commit {w : Writer} (hc : c.Lawful) (h : FileInv d s) (hwriter : s.writer = some w)
    (hpos : w.writelen ≠ 0) (alloclen : Reservation)
    (hw : ((stepCommit c s.ino w alloclen.1).ino.st.next : ℤ) + d < 4294967296) :
    FileInv d (stepCommit c s.ino w alloclen.1) := by
  obtain ⟨t,n,cdata,hround,hn,hnl,ht,-⟩ :=
    commitRound_spec hc s.ino w.buf w.fileOfs alloclen (Nat.pos_of_ne_zero hpos)
  obtain ⟨h₁,h₂,h₃,h₄⟩ := h.writer w hwriter
  have hu : u32 (w.fileOfs + n) = w.fileOfs + n := u32_of_lt (by omega)
  have hisize : (commitNode s.ino w.fileOfs t n cdata).isize =
      max s.ino.isize (w.fileOfs + n) := by
    change max s.ino.isize (u32 (w.fileOfs + n)) = _
    rw [hu]
  have hz : ¬n = 0 := by omega
  have hsub : sub32 w.writelen n = w.writelen - n := sub32_of_le hnl (by omega)
  simp only [stepCommit,hround,hz,if_false,Inode.addNode_next] at hw ⊢
  refine ⟨h.tracked.addNode hw rfl (commitNode_fnSize ht) hn h₁
    (show w.fileOfs + n < 4294967296 by omega) hisize rfl,?_⟩
  rintro w' hw'
  cases hw'
  exact ⟨by simp only; omega,by simp only; omega,by simp only; omega,by simp only; omega⟩

theorem Tracked.setattr {size : ℕ} (h : Tracked d f) (hsize : size < 4294967296)
    (hok : f.setattr c size = .ok f') (hw : (f'.st.next : ℤ) + d < 4294967296) : Tracked d f' := by
  obtain ⟨e,he,ht⟩ := h.coherent.tiles
  have hfree := h.coherent.next_free
  by_cases hlt : f.isize < size
  · rw [Inode.setattr_grow h.reg hlt,Except.ok.injEq] at hok
    subst hok
    simp only [Inode.addNode_next] at hw
    obtain ⟨hofs,hds,hfs⟩ := Inode.setattrNode_grow hlt hsize
    have h' : Tracked d { f.addNode (f.setattrNode size []) [] with
        isize := (f.setattrNode size []).isize } :=
      h.addNode hw rfl (hfs.trans hds.symm) (by omega) (by omega) (by omega) (by
        change size = _
        omega) rfl
    exact h'
  · obtain ⟨f₁,hok₁,ha,-⟩ := Inode.setattr_cut (c := c) h.reg (Nat.le_of_not_lt hlt) ht he h.coherent.small
      h.coherent.counted hfree.1 hfree.2
    rw [hok,Except.ok.injEq] at hok₁
    subst hok₁
    rw [ha.node.next] at hw
    refine h.tag hw ha ht rfl (if_neg hlt) ?_ rfl (by omega) rfl
    rw [RawInode.fnSize,if_neg]
    · exact if_neg hlt
    · rintro ⟨-,-,hcs⟩
      exact hcs rfl

/-- The node that holds the metadata counts no fragments. -/
def Inode.Clean (f : Inode) : Prop := ∀ m, f.metadata = some m → (f.st.node m).fn.frags = 0

/-- What every step does to the nodes: none goes away, and the one that holds the metadata is not
counted. -/
structure Inode.Grown (f f' : Inode) : Prop where
  next : f.st.next ≤ f'.st.next
  clean : f.Clean → fragsOf f.fraglist f.st.next = 0 → f.metadata ≠ some f.st.next → f'.Clean

theorem Inode.Grown.of_none (hn : f.st.next ≤ f'.st.next) (hm : f'.metadata = none) :
    Grown f f' := by
  refine ⟨hn,fun _ _ _ m h => ?_⟩
  rw [hm] at h
  cases h

theorem Inode.dropMetadata_metadata (f : Inode) : f.dropMetadata.metadata = none :=
  congrArg Inode.metadata (Inode.dropMetadata_eq f).1

theorem Inode.Grown.addNode {g : Inode} (h : Grown f g) (ri : RawInode) (data : List Byte) :
    Grown f (g.addNode ri data) := by
  refine .of_none ?_ (Inode.dropMetadata_metadata _)
  exact Inode.addNode_next g ri data ▸ Nat.le_succ_of_le h.next

theorem Inode.Grown.refl (f : Inode) : Grown f f := ⟨le_rfl,fun h _ _ => h⟩

theorem prepareHole_grown (f : Inode) (pageofs : ℕ) : f.Grown (prepareHole f pageofs) := by
  unfold prepareHole
  split
  · exact .of_none (Inode.addNode_next .. ▸ Nat.le_succ _) (Inode.dropMetadata_metadata _)
  · exact .refl f

theorem truncateFraglist_next (st : Store) (size : ℕ) (l : List Frag) :
    (truncateFraglist st size l).2.next = st.next := by
  induction l generalizing st with
  | nil => rfl
  | cons frag l ih =>
    rw [truncateFraglist]
    split
    · rw [ih,obsoleteNodeFrag_next]
    · exact ih st

theorem obsoleteNodeFrag_fn {st : Store} {frag : Frag} {i : ℕ} (h : frag.val ≠ some i) :
    ((obsoleteNodeFrag st frag).node i).fn = (st.node i).fn := by
  fun_cases obsoleteNodeFrag st frag <;> grind [Store.setFrags_fn,Store.markNodeObsolete_fn]

theorem truncateFraglist_fn {st : Store} {size i : ℕ} {l : List Frag} (h : fragsOf l i = 0) :
    ((truncateFraglist st size l).2.node i).fn = (st.node i).fn := by
  induction l generalizing st with
  | nil => rfl
  | cons frag l ih =>
    rw [fragsOf_cons] at h
    rw [truncateFraglist]
    split
    · rw [ih (by omega),obsoleteNodeFrag_fn (by grind)]
    · exact ih (by omega)

theorem setattr_grown {size : ℕ} (hok : f.setattr c size = .ok f') : f.Grown f' := by
  unfold Inode.setattr at hok
  split at hok
  · cases hok
  · split at hok
    · cases hok
      refine .of_none ?_ (Inode.dropMetadata_metadata _)
      rw [Inode.dropMetadata_next]
      simp only [Inode.addFullDnodeToInode_next]
      exact Nat.le_succ _
    · cases hok
      constructor
      · simp only [Inode.dropMetadata_next]
        split
        · simp only [truncateFraglist_next]
          exact Nat.le_succ _
        · exact Nat.le_succ _
      · rintro - hnew - _ ⟨⟩
        simp only [(Inode.dropMetadata_eq _).2.2]
        split
        · simp [truncateFraglist_fn hnew,Inode.writeDnode,Store.append_node]
        · simp [Inode.writeDnode,Store.append_node]

theorem gcHole_grown {fn start stop : ℕ} (hv : f.metadata ≠ some fn)
    (hok : gcHole f fn start stop = .ok f') : f.Grown f' := by
  unfold gcHole at hok
  split at hok
  · cases hok
  · split at hok
    · cases hok
      exact (Inode.Grown.refl f).addNode _ _
    · simp only at hok
      split at hok <;> cases hok
      refine ⟨Nat.le_succ _,fun h _ hnew m hm => ?_⟩
      have hmv : m ≠ fn := fun he => hv (he ▸ hm)
      have hmn : m ≠ f.st.next := fun he => hnew (he ▸ hm)
      simpa [Store.setFrags_fn,Inode.writeDnode,Store.append_node,hmv,hmn] using h m hm

theorem gcPass_grown {victim : ℕ} {merge : Bool} {alloc : ℕ → ℕ} {fresh : Page}
    (hok : gcPass c f victim merge alloc fresh = .ok f') : f.Grown f' := by
  cases hobs : (f.st.node victim).obsolete with
  | true =>
    rw [gcPass,if_pos hobs] at hok
    cases hok
    exact .refl f
  | false =>
    rcases gcPass_cases hobs hok with ⟨-,hok⟩ | ⟨hv,start,stop,-,⟨-,hok⟩ | ⟨-,hok⟩⟩ |
      ⟨-,-,fd,-,⟨-,hok⟩ | ⟨-,hok⟩⟩
    · unfold gcMetadata at hok
      split at hok <;> cases hok
      refine ⟨Nat.le_succ _,?_⟩
      rintro - - - _ ⟨⟩
      simp [Inode.writeDnode,Store.append_node]
    · exact gcHole_grown hv hok
    · obtain ⟨pg,m,-,hloop⟩ := gcDnode_ok hok
      exact gcDnodeLoop_keeps (fun g ri data hg => hg.addNode ri data) hloop ⟨le_rfl,fun h _ _ => h⟩
    · cases hok
      constructor
      · split <;> exact Nat.le_succ _
      · intro h _ hnew m hm
        have hmn : m ≠ f.st.next := fun he => hnew (he ▸ hm)
        split <;> simpa [Store.append_node,hmn] using h m hm
    · cases hok
      exact ⟨le_rfl,fun h _ _ m hm => by simpa using h m hm⟩

theorem fileStep_grown {op : FileOp} (h : fileStep c s op = some s') : s.ino.Grown s'.ino := by
  rcases fileStep_cases h with ⟨index,start,stop,data,fresh,-,-,-,-,-,hp⟩ | ⟨a,w,-,-,-,rfl⟩ |
    ⟨w,-,-,-,rfl⟩ | ⟨size,-,-,-,⟨f,hf,rfl⟩ | ⟨e,-,rfl⟩⟩ |
    ⟨v,m,a,fresh,-,-,⟨f,hf,rfl⟩ | ⟨e,-,rfl⟩⟩ | ⟨index,fresh,-,-,⟨pg,f,hf,rfl⟩ | ⟨e,-,rfl⟩⟩ |
    ⟨index,-,-,rfl⟩
  · obtain ⟨hn,hc⟩ := prepareHole_grown s.ino (u32 (index * 4096))
    rcases stepPrepare_cases hp with ⟨e,-,-,rfl⟩ | ⟨pg,mapping,-,rfl⟩ <;> exact ⟨hn,hc⟩
  · unfold stepCommit
    dsimp only
    split <;> exact .of_none (Inode.addNode_next .. ▸ Nat.le_succ _) (Inode.dropMetadata_metadata _)
  · exact .refl _
  · exact setattr_grown hf
  · exact .refl _
  · exact gcPass_grown hf
  · exact .refl _
  · obtain ⟨mapping,rfl⟩ := readCachePage_ok hf
    exact ⟨le_rfl,fun h _ _ => h⟩
  · exact .refl _
  · exact ⟨le_rfl,fun h _ _ => h⟩

theorem startWriter_extent (f : Inode) (index start stop : ℕ) (data pg : Page)
    (hsmall : f.isize < 4294967296) (hfit : index * 4096 + stop < 4294967296) :
    (startWriter f index start stop data pg).fileOfs = index * 4096 ∧
    (startWriter f index start stop data pg).writelen =
      min 4096 (max f.isize (index * 4096 + stop) - index * 4096) := by
  have hofs : u32 (index * 4096) = index * 4096 := u32_of_lt ((Nat.le_add_right _ _).trans_lt hfit)
  have hend : u32 (index * 4096 + stop) = index * 4096 + stop := u32_of_lt hfit
  have hlen : sub32 (max f.isize (index * 4096 + stop)) (index * 4096) =
      max f.isize (index * 4096 + stop) - index * 4096 := sub32_of_le (by omega) (by omega)
  unfold startWriter
  simp [hofs,hend,hlen]

theorem writerOk_start (f : Inode) (index start stop : ℕ) (data pg : Page)
    (hx : index * 4096 ≤ f.isize) (hsmall : f.isize < 4294967296)
    (hstop : stop ≤ 4096) (hfit : index * 4096 + stop < 4294967296) :
    WriterOk f.isize (startWriter f index start stop data pg) := by
  obtain ⟨hofs,hlen⟩ := startWriter_extent f index start stop data pg hsmall hfit
  have hindex : (startWriter f index start stop data pg).index = index := rfl
  refine ⟨?_,?_,?_,?_⟩
  · rw [hofs]
    exact hx
  · rw [hofs,hindex]
  · omega
  · omega

theorem FileInv.step {op : FileOp} (hc : c.Lawful) (h : FileInv d s)
    (hs : fileStep c s op = some s') (hw : (s'.ino.st.next : ℤ) + d < 4294967296) :
    FileInv d s' := by
  rcases fileStep_cases hs with ⟨index,start,stop,data,fresh,-,-,hle,hpage,hfit,hp⟩ |
    ⟨a,w,-,hwr,hne,rfl⟩ | ⟨w,-,-,-,rfl⟩ | ⟨size,-,-,hsize,⟨f,hf,rfl⟩ | ⟨e,-,rfl⟩⟩ |
    ⟨v,m,a,fresh,-,-,⟨f,hf,rfl⟩ | ⟨e,-,rfl⟩⟩ | ⟨index,fresh,-,-,⟨pg,f,hf,rfl⟩ | ⟨e,-,rfl⟩⟩ |
    ⟨index,-,-,rfl⟩
  · have hofs : u32 (index * 4096) = index * 4096 := u32_of_lt ((Nat.le_add_right _ _).trans_lt hfit)
    rcases stepPrepare_cases hp with ⟨e,-,-,rfl⟩ | ⟨pg,mapping,-,rfl⟩
    · exact .idle (h.tracked.prepareHole (u32_lt _) hw).1
    · obtain ⟨ht,hsz⟩ := h.tracked.prepareHole (u32_lt _) hw
      refine ⟨ht.mapping _,?_⟩
      rintro w hw
      cases hw
      rw [hofs] at hsz ht ⊢
      exact writerOk_start _ index _ _ _ _ (hsz ▸ le_max_right _ _) ht.coherent.small hpage hfit
  · exact h.commit hc hwr hne a hw
  · exact .idle h.tracked
  · exact .idle (h.tracked.setattr hsize hf hw)
  · exact h
  · obtain ⟨ht,hsz⟩ := h.tracked.gcPass hc (fun k => ⟨by have := (a k).2.1; omega,(a k).2.2⟩) hw hf
    refine ⟨ht,fun w hw => ?_⟩
    rw [hsz]
    exact h.writer w hw
  · exact h
  · obtain ⟨mapping,rfl⟩ := readCachePage_ok hf
    exact ⟨h.tracked.mapping mapping,h.writer⟩
  · exact h
  · exact ⟨h.tracked.mapping _,h.writer⟩

theorem FileInv.run {ops : List FileOp} (hc : c.Lawful) (h : FileInv d s)
    (hrun : run (fileStep c) s ops = some s') (hw : (s'.ino.st.next : ℤ) + d < 4294967296) :
    FileInv d s' := by
  have hstep : ∀ s op t, ((s.ino.st.next : ℤ) + d < 4294967296 → FileInv d s) →
      fileStep c s op = some t → (t.ino.st.next : ℤ) + d < 4294967296 → FileInv d t := by
    intro s op t hs hstep hw
    have := (fileStep_grown hstep).next
    exact (hs (by omega)).step hc hstep hw
  exact invariant_of_step (fileStep c) hstep (fun _ => h) hrun hw

theorem createdInode_tracked : Tracked 0 createdInode := by
  have halive : ∀ i, createdInode.st.Alive i ↔ i = 0 := by
    simp [Store.Alive,createdInode]
  refine ⟨⟨by decide,⟨0,Nat.le_refl 0,rfl⟩,?_,?_,?_,?_,?_,?_,?_,?_⟩,rfl,rfl,by decide⟩
  · intro i hi
    exact absurd rfl hi
  · intro i
    rw [halive]
    simp [createdInode,eq_comm]
  · rintro m hm
    simp [Store.Cov,RawNode.Covers,createdInode,RawInode.fnSize]
  · intro i hi
    exact ⟨_,_,rfl,rfl,by decide,Nat.le_refl 1⟩
  · intro i hi j hj _
    rw [(halive i).mp hi,(halive j).mp hj]
  · intro p hp
    exact absurd hp (Nat.not_lt_zero p)
  · exact ⟨0,_,_,(halive 0).mpr rfl,fun j _ => Nat.le_refl 1,rfl,rfl,rfl⟩
  · intro i _ _
    exact Nat.zero_le 1

/-- However a file is written, cut, read and collected without errors, its fragments show the newest
live node at every byte, a node is live just if it has fragments or holds the metadata, and a live
node counts its fragments. -/
theorem log_coherent {ops : List FileOp} (hc : c.Lawful)
    (hr : run (fileStep c) ⟨createdInode,none⟩ ops = some s) (hw : s.ino.st.next < 4294967296) :
    Coherent s.ino ∧
      ∀ i, s.ino.st.Alive i → (s.ino.st.node i).fn.frags = fragsOf s.ino.fraglist i := by
  let Inv : FileState → Prop := fun s => s.ino.st.next < 4294967296 → FileInv 0 s ∧ s.ino.Clean
  have hstep : ∀ s op t, Inv s → fileStep c s op = some t → Inv t := by
    intro s op t hs hstep hw
    obtain ⟨hle,hkeep⟩ := fileStep_grown hstep
    obtain ⟨hinv,hclean⟩ := hs (by omega)
    obtain ⟨hfrag,hmeta⟩ := hinv.tracked.coherent.next_free
    exact ⟨hinv.step hc hstep (by omega),hkeep hclean hfrag hmeta⟩
  have hstart : Inv ⟨createdInode,none⟩ := by
    refine fun _ => ⟨.idle createdInode_tracked,fun m hm => ?_⟩
    cases hm
    rfl
  obtain ⟨hinv,hclean⟩ := invariant_of_step (fileStep c) hstep hstart hr hw
  have hcoh := hinv.tracked.coherent
  refine ⟨hcoh,fun i hi => ?_⟩
  rcases (hcoh.listed i).mp hi with hz | hm
  · exact hcoh.counted i hz
  · rw [hclean i hm,(hcoh.bare i hm).1]

def room : Reservation := ⟨512,by decide,by decide⟩

def writeAndPass : List FileOp :=
  [.prepare 0 0 10 (fun k => k.toUInt8 + 65) fun _ => 0,.commit room,.finish,
    .gc 1 false (fun _ => room) fun _ => 0]

theorem writeAndPass_run : ∃ s, run (fileStep .idle) ⟨createdInode,none⟩ writeAndPass = some s ∧
    s.ino.isize = 10 ∧ s.ino.st.next = 3 := by
  have hs : (run (fileStep .idle) ⟨createdInode,none⟩ writeAndPass).map
      (fun s => (s.ino.isize,s.ino.st.next)) = some (10,3) := by decide +kernel
  obtain ⟨s,hrun,heq⟩ := Option.map_eq_some_iff.mp hs
  obtain ⟨hsize,hnext⟩ := Prod.mk.inj heq
  exact ⟨s,hrun,hsize,hnext⟩

theorem log_coherent_written : ∃ s,
    run (fileStep .idle) ⟨createdInode,none⟩ writeAndPass = some s ∧ Coherent s.ino := by
  obtain ⟨s,hrun,-,hnext⟩ := writeAndPass_run
  exact ⟨s,hrun,(log_coherent Codecs.idle_lawful hrun (hnext ▸ by decide)).1⟩

end Simpad.Jffs2
