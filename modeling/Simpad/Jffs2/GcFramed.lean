import Simpad.Jffs2.FileContents
import Simpad.Jffs2.Opened

namespace Simpad.Jffs2
open Word Segments

/-- The parts of an inode that the collection of a data node leaves alone. -/
structure SameHead (f f' : Inode) : Prop where
  mode : f'.mode = f.mode
  isize : f'.isize = f.isize
  rdev : f'.rdev = f.rdev
  dents : f'.dents = f.dents

theorem SameHead.refl (f : Inode) : SameHead f f := ⟨rfl,rfl,rfl,rfl⟩

theorem SameHead.trans {f g f' : Inode} (h₁ : SameHead f g) (h₂ : SameHead g f') : SameHead f f' :=
  ⟨h₂.mode.trans h₁.mode,h₂.isize.trans h₁.isize,h₂.rdev.trans h₁.rdev,h₂.dents.trans h₁.dents⟩

def Keeps (st st' : Store) : Prop :=
  ∀ i < st.next, (st'.node i).raw = (st.node i).raw ∧
    (st'.node i).fn.ofs = (st.node i).fn.ofs ∧ (st'.node i).fn.size = (st.node i).fn.size

theorem Keeps.append (st : Store) (x : Node) : Keeps st (st.append x) := by
  intro i hi
  simp [Store.append_node,if_neg (Nat.ne_of_lt hi)]

theorem SameNodes.keeps {st st' : Store} (h : SameNodes st st') : Keeps st st' :=
  fun i _ => ⟨h.raw i,h.ofs i,h.size i⟩

theorem Keeps.trans_same {st st' st'' : Store} (h : Keeps st st') (hs : SameNodes st' st'') :
    Keeps st st'' := fun i hi =>
  ⟨(hs.raw i).trans (h i hi).1,(hs.ofs i).trans (h i hi).2.1,(hs.size i).trans (h i hi).2.2⟩

variable {c : Codecs} {f f' g : Inode} {ri : RawInode} {data : List Byte} {e : ℕ}

theorem byteAt_keeps (hused : ∀ frag ∈ f.fraglist, ∀ i, frag.val = some i → i < f.st.next)
    (hl : f'.fraglist = f.fraglist) (hk : Keeps f.st f'.st) (p : ℕ) :
    f'.byteAt c p = f.byteAt c p := by
  rw [Inode.byteAt,Inode.byteAt,hl,fragByte,fragByte]
  cases hv : visible f.fraglist p with
  | none => rfl
  | some i =>
    obtain ⟨frag,hf,hi,-⟩ := exists_mem_of_valueAt (visible_eq_some.mp hv)
    obtain ⟨hraw,hofs,-⟩ := hk i (hused frag hf i hi)
    simp only [hraw,hofs]

theorem SameHead.addFullDnodeToInode (f : Inode) (fn : ℕ) : SameHead f (f.addFullDnodeToInode fn) := by
  rw [Inode.addFullDnodeToInode]
  split
  · exact ⟨rfl,rfl,rfl,rfl⟩
  · exact ⟨rfl,rfl,rfl,rfl⟩

theorem SameHead.dropMetadata (f : Inode) : SameHead f f.dropMetadata := by
  rw [(Inode.dropMetadata_eq f).1]
  exact ⟨rfl,rfl,rfl,rfl⟩

theorem SameHead.addNode (f : Inode) (ri : RawInode) (data : List Byte) :
    SameHead f (f.addNode ri data) := by
  have hwrite : SameHead f (({ f with highestVersion := ri.version }).writeDnode ri data) :=
    ⟨rfl,rfl,rfl,rfl⟩
  exact (hwrite.trans (.addFullDnodeToInode _ _)).trans (.dropMetadata _)

variable {start stop offset index : ℕ} {pg fresh : Page} {alloc : ℕ → ℕ}

theorem gcDnode_head {merge : Bool} (hok : gcDnode c f merge alloc fresh start stop = .ok f') :
    SameHead f f' ∧ ∃ pg m, readCachePage c f ((gcDnodeRange f merge start stop).1 / 4096) fresh =
      .ok (pg,{ f with mapping := m }) ∧ f'.mapping = m := by
  obtain ⟨pg,m,hread,hloop⟩ := gcDnode_ok hok
  obtain ⟨hhead,hmap⟩ := gcDnodeLoop_keeps (P := fun g => SameHead f g ∧ g.mapping = m)
    (fun g ri data hg => ⟨hg.1.trans (.addNode _ _ _),(Inode.addNode_mapping _ _ _).trans hg.2⟩)
    hloop ⟨⟨rfl,rfl,rfl,rfl⟩,rfl⟩
  exact ⟨hhead,pg,m,hread,hmap⟩

namespace Framed
variable (h : Framed f e)
include h

theorem free : fragsOf f.fraglist f.st.next = 0 := by
  by_contra hz
  obtain ⟨frag,hf,hv⟩ := fragsOf_ne_zero.mp hz
  exact lt_irrefl _ (h.known frag hf _ hv)

theorem bare_ne : f.metadata ≠ some f.st.next := fun hm => lt_irrefl _ (h.bare _ hm)

theorem added (hpos : 0 < ri.dsize) (hfit : ri.offset + ri.dsize < 4294967296) :
    Added f ri data e (f.addNode ri data) :=
  Inode.addNode_spec data h.tiles h.small h.counted h.free h.bare_ne hpos hfit

theorem addNode (hpos : 0 < ri.dsize) (hfit : ri.offset + ri.dsize < 4294967296) :
    Framed (f.addNode ri data) (max e (ri.offset + ri.dsize)) := by
  have ha : Added f ri data e (f.addNode ri data) := h.added hpos hfit
  have hsmall := h.small
  have hmeta : (f.addNode ri data).metadata = none := by rw [ha.rest]
  refine ⟨ha.tiles,by omega,ha.counted,fun frag hf i hi => ?_,fun m hm => ?_⟩
  · have hb := ha.tiles.mem_bounds hf
    have hval := ha.tiles.valueAt_of_mem hf le_rfl (Nat.lt_add_of_pos_right hb.2.1)
    rw [ha.node.next]
    by_cases hne : i = f.st.next
    · omega
    · rw [hi,ha.valueAt_iff hne] at hval
      obtain ⟨g,hg,hv,-⟩ := exists_mem_of_valueAt hval.1
      have := h.known g hg i hv
      omega
  · rw [hmeta] at hm
    cases hm

end Framed

/-- The positions that `jffs2_garbage_collect_hole` clears.  A split hole node is written again as it
is; under the version of the newest node it covers its whole range once more. -/
def holeRange (f : Inode) (fn start stop : ℕ) : ℕ × ℕ :=
  match (f.st.node fn).raw with
  | .dirent _ _ => (start,stop)
  | .inode ri _ =>
    if 1 < (f.st.node fn).fn.frags ∧ ri.compr = .zero then
      if ri.version = f.highestVersion then (ri.offset,ri.offset + ri.dsize) else (0,0)
    else (start,stop)

theorem Inode.addNode_empty (f : Inode) (data : List Byte) (hz : ri.dsize = 0) :
    (f.addNode ri data).fraglist = f.fraglist ∧ Keeps f.st (f.addNode ri data).st := by
  have hadd : (({ f with highestVersion := ri.version }).writeDnode ri data).addFullDnodeToInode
      f.st.next = ({ f with highestVersion := ri.version }).writeDnode ri data := by
    refine Inode.addFullDnodeToInode_ok ?_
    simp [addFullDnodeToFraglist,Inode.writeDnode,Store.append_node,hz]
  obtain ⟨hrest,hsame,-⟩ := Inode.dropMetadata_eq
    (({ f with highestVersion := ri.version }).writeDnode ri data)
  rw [Inode.addNode,hadd]
  refine ⟨by rw [hrest]; rfl,Keeps.trans_same ?_ hsame⟩
  exact .append _ _

theorem Framed.byteAt_hole (h : Framed f e) (hz : ri.compr = .zero)
    (hfit : 0 < ri.dsize → ri.offset + ri.dsize < 4294967296) (p : ℕ) :
    (f.addNode ri []).byteAt c p =
      if ri.offset ≤ p ∧ p < ri.offset + ri.dsize then 0 else f.byteAt c p := by
  by_cases hpos : 0 < ri.dsize
  · simp [(h.added hpos (hfit hpos)).byteAt h.tiles h.free,RawNode.byte,hz]
  · have hempty : ri.dsize = 0 := by omega
    obtain ⟨hl,hk⟩ := Inode.addNode_empty f [] hempty
    rw [if_neg (by omega),byteAt_keeps h.known hl hk]

theorem Framed.gcHole {victim : ℕ} (h : Framed f e) (hpl : Placed f)
    (hr : victimRange f victim = some (start,stop)) (hok : gcHole f victim start stop = .ok f')
    (p : ℕ) : f'.byteAt c p =
      if (holeRange f victim start stop).1 ≤ p ∧ p < (holeRange f victim start stop).2 then 0
      else f.byteAt c p := by
  have hsmall := h.small
  obtain ⟨a,ha,-,-,hav,-,-,-,hlt,hle,-⟩ := victimRange_spec h.tiles h.small h.counted hr
  have hfn : fragsOf f.fraglist victim ≠ 0 := fragsOf_ne_zero.mpr ⟨a,ha,hav⟩
  have hb := h.tiles.mem_bounds ha
  have hval := h.tiles.valueAt_of_mem ha le_rfl (Nat.lt_add_of_pos_right hb.2.1)
  obtain ⟨ri,data,hraw,-,hend,hofs,hin⟩ := hpl _ _ (hav ▸ hval)
  have hcount := h.counted victim hfn
  rw [holeRange,hraw,hcount]
  rcases gcHole_cases h.tiles h.small h.counted h.free hfn hok with
    ⟨rfl,hmany⟩ | ⟨ri',data',hraw',hz,hmany,hver⟩
  · have hno : ¬(1 < fragsOf f.fraglist victim ∧ ri.compr = .zero) := fun hc =>
      hmany hc.1 ri data hraw hc.2
    have hds := (holeNode_fnSize f f.isize hlt (by omega)).2
    rw [h.byteAt_hole rfl (fun _ => by
      rw [hds]
      change start + (stop - start) < _
      omega),hds]
    simp only [hno,if_false]
    rw [show (f.holeNode start stop f.isize).offset + (stop - start) = stop by
      change start + (stop - start) = stop
      omega]
    rfl
  · obtain ⟨rfl,rfl⟩ : ri = ri' ∧ data = data' := by simpa using hraw.symm.trans hraw'
    simp only [hmany,hz,and_self,if_true]
    rcases hver with ⟨hv,rfl⟩ | ⟨hv,hrep⟩
    · rw [if_pos hv]
      have hstop : a.stop = a.ofs + a.size := rfl
      have hz' : ({ ri with mode := f.mode, isize := f.isize } : RawInode).compr = .zero := hz
      refine h.byteAt_hole hz' (fun hpos => ?_) p
      have hsize : ri.fnSize = ri.dsize := if_neg fun hc => Nat.ne_of_gt hpos hc.2.1
      grind
    · rw [if_neg hv,if_neg (by omega)]
      exact hrep.byteAt h.tiles h.free hraw hz hz c p

def PageShows (c : Codecs) (f : Inode) (index : ℕ) (pg : Page) : Prop :=
  ∀ k < 4096, index * 4096 + k < f.isize → pg k = f.byteAt c (index * 4096 + k)

/-- So do the pages in the cache. -/
def Cached (c : Codecs) (f : Inode) : Prop :=
  ∀ index pg, f.mapping index = some pg → PageShows c f index pg

/-- `jffs2_do_readpage_nolock` gets the page right, if it has to be read and is read at all. -/
def ReadsRight (c : Codecs) (f : Inode) (index : ℕ) (fresh : Page) : Prop :=
  f.mapping index = none → ∀ pg, doReadpageNolock c f index fresh = .ok pg → PageShows c f index pg

theorem readCachePage_shows (hc : Cached c f) (hok : readCachePage c f index fresh = .ok (pg,g)) :
    (ReadsRight c f index fresh ↔ PageShows c f index pg) ∧ g.mapping index = some pg ∧
      (PageShows c f index pg → Cached c g) := by
  rw [readCachePage] at hok
  split at hok
  · next hm =>
    cases hok
    refine ⟨iff_of_true (fun hn => ?_) (hc index pg hm),hm,fun _ => hc⟩
    rw [hm] at hn
    cases hn
  · next hm =>
    split at hok
    · cases hok
    · next hread =>
      cases hok
      refine ⟨⟨fun h => h hm _ hread,fun h _ pg hread' => ?_⟩,Function.update_self _ _ _,
        fun hpg j pg hj => ?_⟩
      · rw [hread] at hread'
        cases hread'
        exact h
      · simp only [Function.update_apply] at hj
        split at hj
        · next heq =>
          cases hj
          rw [heq]
          exact hpg
        · exact hc j pg hj

theorem Cached.keep (hc : Cached c f) (hsize : f'.isize = f.isize) (hmap : f'.mapping = f.mapping)
    (hbyte : ∀ p < f.isize, f'.byteAt c p = f.byteAt c p) : Cached c f' := by
  intro index pg hpg k hk hin
  rw [hsize] at hin
  rw [hbyte _ hin]
  exact hc index pg (hmap ▸ hpg) k hk hin

theorem gcDnodeRange_lt (merge : Bool) (hstop : stop < 4294967296) :
    (gcDnodeRange f merge start stop).2 < 4294967296 := by
  rw [gcDnodeRange]
  cases merge with
  | false => exact hstop
  | true =>
    have hu : u32 (start - start % 4096 + 4096) < 4294967296 := Nat.mod_lt _ (by decide)
    simp only [if_true]
    omega

structure Carried (c : Codecs) (f g : Inode) : Prop where
  framed : ∃ e, Framed g e
  head : SameHead f g
  mapping : g.mapping = f.mapping
  bytes : ∀ p < f.isize, g.byteAt c p = f.byteAt c p

theorem Carried.round {n : ℕ} {t : Compr} {cdata : List Byte} (h : Carried c f g)
    (hpg : PageShows c f index pg) (hpos : 0 < n) (hn : offset + n ≤ stop)
    (hsmall : stop < 4294967296) (hlow : index * 4096 ≤ offset) (hhigh : stop ≤ index * 4096 + 4096)
    (ht : t ≠ .zero) (htext : (gcDnodeNode g offset t n cdata).text c cdata =
      .ok ((pg.text (offset % 4096) (stop - offset)).take n)) :
    Carried c f (g.addNode (gcDnodeNode g offset t n cdata) cdata) := by
  obtain ⟨e,hg⟩ := h.framed
  have hfit : offset + n < 4294967296 := by omega
  refine ⟨⟨_,hg.addNode hpos hfit⟩,h.head.trans (.addNode _ _ _),?_,fun p hp => ?_⟩
  · rw [Inode.addNode_mapping,h.mapping]
  · have hadd : Added g (gcDnodeNode g offset t n cdata) cdata e _ := hg.added hpos hfit
    rw [hadd.byteAt hg.tiles hg.free]
    split
    · next hin =>
      have hin₁ : offset ≤ p := hin.1
      have hin₂ : p < offset + n := hin.2
      -- the node holds what the page has, and the page what the file shows
      refine (byte_of_pageText ht htext (by omega) hin₁ hin₂).trans ?_
      rw [show offset % 4096 + (p - offset) = p - index * 4096 by omega,
        hpg (p - index * 4096) (by omega) (by omega),Nat.add_sub_cancel' (by omega)]
    · exact h.bytes p hp

/-- The pass keeps the file just if the page is read right: it is written again from the page, and
the page stays in the cache. -/
theorem Framed.gcDnode {merge : Bool} (hc : c.Lawful)
    (halloc : Roomy alloc) (h : Framed f e)
    (he : e ≤ f.isize) (hstop : stop ≤ e) (hpage : (stop - 1) / 4096 = start / 4096)
    (hcached : Cached c f) (hok : gcDnode c f merge alloc fresh start stop = .ok f') :
    (∀ p < f.isize, f'.byteAt c p = f.byteAt c p) ∧ Cached c f' ↔
      ReadsRight c f (start / 4096) fresh := by
  have hsmall := h.small
  obtain ⟨h₁,h₂,-,h₄,h₅⟩ := gcDnodeRange_spec merge (hstop.trans he) hpage
  have h₆ : (gcDnodeRange f merge start stop).2 < 4294967296 := gcDnodeRange_lt merge (by omega)
  obtain ⟨hhead,pg,m,hread,hmap⟩ := gcDnode_head hok
  obtain ⟨pg',m',hread',hloop⟩ := gcDnode_ok hok
  obtain ⟨rfl,rfl⟩ : pg = pg' ∧ m = m' := by simpa using hread.symm.trans hread'
  generalize gcDnodeRange f merge start stop = r at *
  rw [h₄] at hread
  obtain ⟨hright,hcache,hm⟩ := readCachePage_shows hcached hread
  rw [hright]
  constructor
  · rintro ⟨hbytes,hcached'⟩ k hk hin
    rw [← hbytes _ hin]
    exact hcached' _ pg (hmap ▸ hcache) k hk (hhead.isize.symm ▸ hin)
  · intro hpg
    have hinit : Carried c { f with mapping := m } { f with mapping := m } :=
      ⟨⟨e,⟨h.tiles,h.small,h.counted,h.known,h.bare⟩⟩,.refl _,rfl,fun _ _ => rfl⟩
    obtain ⟨f₂,offset',hloop',⟨-,hP⟩,-⟩ := gcDnodeLoop_rule hc halloc h₂ h₆
      (P := fun g offset => r.1 ≤ offset ∧ Carried c { f with mapping := m } g)
      (by
        rintro g offset t n cdata ⟨hle,hP⟩ hlt hpos hend ht htext
        refine ⟨by omega,hP.round hpg hpos hend h₆ (by omega) h₅ ht htext⟩)
      (stop - r.1) 0 r.1 (by omega) ⟨le_rfl,hinit⟩
    rw [hloop] at hloop'
    cases hloop'
    exact ⟨hP.bytes,(hm hpg).keep hP.head.isize hP.mapping hP.bytes⟩

end Simpad.Jffs2
