import Simpad.Jffs2.FraglistMap
import Simpad.Jffs2.GcFramed

namespace Simpad.Jffs2
open Word Segments List

/-- How one round goes: the reservation, the buffer for the compressed text, the write to the
flash, and the allocations for the fragment list. -/
structure Round where
  reserve : Except Errno Reservation
  comprbuf : Bool
  write : Option Errno
  frag : ℕ → Bool

/-- Write the node and put it into the fragment list; if that fails it becomes obsolete. -/
def commitAdd (frag : ℕ → Bool) (f : Inode) (ri : RawInode) (cdata : List Byte) :
    Inode × Option Errno :=
  let g := Inode.writeDnode { f with highestVersion := ri.version } ri cdata
  match addFullDnodeToFraglist frag g.st g.fraglist f.st.next with
  | (.error e,st) =>
    let g := Inode.dropMetadata { g with st := st }
    ({ g with st := g.st.markNodeObsolete f.st.next },some e)
  | (.ok list,st) =>
    let g := Inode.dropMetadata { g with st := st, fraglist := list }
    ({ g with isize := ri.isize },none)

/-- Without the buffer the text is written as it is. -/
def Round.pack (c : Codecs) (r : Round) (text : List Byte) (cdatalen : ℕ) : Compr × ℕ × List Byte :=
  if r.comprbuf then packData c text cdatalen else (.none,cdatalen,text.take cdatalen)

/-- One round: the inode, and how many bytes it has stored. -/
def commitAttempt (c : Codecs) (pg : Page) (r : Round) (f : Inode) (fileOfs writelen : ℕ) :
    Inode × Except Errno ℕ :=
  match r.reserve with
  | .error e => (f,.error e)
  | .ok alloclen =>
    let pack := r.pack c (pg.text (fileOfs % 4096) writelen)
      (min (sub32 alloclen.1 sizeofRawInode) writelen)
    let ri := commitNode f fileOfs pack.1 pack.2.1 pack.2.2
    match r.write with
    | some e => ({ f with highestVersion := ri.version },.error e)
    | none =>
      match commitAdd r.frag f ri pack.2.2 with
      | (g,some e) => (g,.error e)
      | (g,none) => (g,if pack.2.1 = 0 then .error .eio else .ok pack.2.1)

/-- The variables of the loop. -/
structure Loop where
  ino : Inode
  fileOfs : ℕ
  writelen : ℕ
  writtenlen : ℕ
  ret : Option Errno

/-- The variables after a round that has stored `n` bytes. -/
def Loop.advance (l : Loop) (f : Inode) (n : ℕ) : Loop where
  ino := f
  fileOfs := u32 (l.fileOfs + n)
  writelen := sub32 l.writelen n
  writtenlen := l.writtenlen + n
  ret := none

/-- The loop; `none` if it takes more than `fuel` rounds. -/
def commitLoop (c : Codecs) (pg : Page) (rounds : ℕ → Round) : ℕ → ℕ → Loop → Option Loop
  | fuel, k, l =>
    if l.writelen = 0 then some l
    else
      match fuel with
      | 0 => none
      | fuel + 1 =>
        match commitAttempt c pg (rounds k) l.ino l.fileOfs l.writelen with
        | (f,.error e) => some { l with ino := f, ret := some e }
        | (f,.ok n) => commitLoop c pg rounds fuel (k + 1) (l.advance f n)

def commitInit (f : Inode) (index stop : ℕ) : Loop where
  ino := f
  fileOfs := u32 (index * 4096)
  writelen := min 4096 (sub32 (max (u32 f.isize) (u32 (u32 (index * 4096) + stop))) (u32 (index * 4096)))
  writtenlen := 0
  ret := none

/-- The value that is made of how far the loop got; a negative one is an error. -/
def commitRet (start stop : ℕ) (l : Loop) : Except Errno ℕ :=
  let ret := if l.writtenlen ≤ start then some (l.ret.getD .enospc) else l.ret
  -- both differences are unsigned
  let writtenlen := min (sub32 stop start) (sub32 l.writtenlen start)
  if writtenlen ≠ 0 then .ok writtenlen
  else
    match ret with
    | some e => .error e
    | none => .ok 0

/-- `jffs2_commit_write`: what it returns, and the inode; `ri` says whether the raw inode can be
allocated. -/
def commitWrite (c : Codecs) (pg : Page) (ri : Bool) (rounds : ℕ → Round) (f : Inode)
    (index start stop : ℕ) : Option (Except Errno ℕ × Inode) :=
  if !ri then some (.error .enomem,f)
  else (commitLoop c pg rounds 4096 0 (commitInit f index stop)).map fun l =>
    (commitRet start stop l,l.ino)

/-- How many allocations `jffs2_add_full_dnode_to_fraglist` makes for a node that is not empty: a
second one for a hole before it, or for the rear part of the fragment that it splits. -/
def fragAllocs (l : List Frag) (ofs size : ℕ) : ℕ :=
  match l.dropWhile fun this => fend this ≤ ofs with
  | [] => if (l.getLast?.map fend).getD 0 < ofs then 2 else 1
  | this :: _ => if this.ofs < ofs ∧ u32 (ofs + size) < fend this then 2 else 1

/-- How many bytes of the page a round stores, from what it is given alone; `need n` is the number of
allocations for `n` bytes. -/
def Round.stores (c : Codecs) (pg : Page) (need : ℕ → ℕ) (r : Round) (pos writelen : ℕ) : Option ℕ :=
  match r.reserve, r.write with
  | .ok alloclen, none =>
    let n := (r.pack c (pg.text pos writelen) (min (alloclen.1 - sizeofRawInode) writelen)).2.1
    if ∀ k < need n, r.frag k = true then some n else none
  | _, _ => none

theorem addFullDnodeToFraglist_allocs (alloc : ℕ → Bool) {st : Store} (l : List Frag) {fn : ℕ}
    (hsize : (st.node fn).fn.size ≠ 0) :
    if ∀ k < fragAllocs l (st.node fn).fn.ofs (st.node fn).fn.size, alloc k = true then
      ∃ l' st', addFullDnodeToFraglist alloc st l fn = (.ok l',st')
    else ∃ st', addFullDnodeToFraglist alloc st l fn = (.error .enomem,st') ∧
      ∀ i, (st'.node i).obsolete = (st.node i).obsolete := by
  have hneed : ∀ (p : Prop) [Decidable p], (∀ k < if p then 2 else 1, alloc k = true) ↔
      alloc 0 = true ∧ (p → alloc 1 = true) := by
    intro p _
    split_ifs with hp
    · refine ⟨fun h => ⟨h 0 (by decide),fun _ => h 1 (by decide)⟩,fun h k hk => ?_⟩
      obtain rfl | rfl : k = 0 ∨ k = 1 := by omega
      exacts [h.1,h.2 hp]
    · simp [hp]
  have hN : fend ⟨(st.node fn).fn.ofs,(st.node fn).fn.size,some fn⟩ =
      u32 ((st.node fn).fn.ofs + (st.node fn).fn.size) := rfl
  have hset : ∀ i, ((st.setFrags fn 1).node i).obsolete = (st.node i).obsolete :=
    fun _ => Store.setFrags_obsolete _ _ _ _
  have hsplit := takeWhile_append_dropWhile (p := fun f : Frag => decide (fend f ≤ (st.node fn).fn.ofs))
    (l := l)
  unfold fragAllocs addFullDnodeToFraglist
  cases hd : l.dropWhile fun this => fend this ≤ (st.node fn).fn.ofs with
  | nil =>
    rw [hd,append_nil] at hsplit
    simp only [hsize,if_false,hd,hsplit,hneed]
    split_ifs
    all_goals grind
  | cons this next =>
    simp only [hsize,if_false,hd,hneed,hN]
    split_ifs
    all_goals grind

/-- A round that stores nothing leaves the list as it is; only the metadata may be given up. -/
structure Lost (f f' : Inode) : Prop where
  list : f'.fraglist = f.fraglist
  next : f.st.next ≤ f'.st.next
  keeps : Keeps f.st f'.st
  obsolete : ∀ i < f.st.next, f.metadata ≠ some i →
    (f'.st.node i).obsolete = (f.st.node i).obsolete

variable {c : Codecs} {pg : Page} {r : Round} {f g : Inode} {e fileOfs writelen : ℕ}

theorem commitAdd_spec (frag : ℕ → Bool) (f : Inode) {ri : RawInode} (cdata : List Byte)
    (hpos : ri.dsize ≠ 0) :
    if ∀ k < fragAllocs f.fraglist ri.offset ri.dsize, frag k = true then
      commitAdd frag f ri cdata = ({ f.addNode ri cdata with isize := ri.isize },none)
    else ∃ f', commitAdd frag f ri cdata = (f',some .enomem) ∧ Lost f f' := by
  let st := f.st.append ⟨.inode ri cdata,false,⟨ri.offset,ri.dsize,0⟩⟩
  have hfn : (st.node f.st.next).fn = ⟨ri.offset,ri.dsize,0⟩ := by
    rw [Store.append_node,if_pos rfl]
  have hadd := addFullDnodeToFraglist_allocs frag f.fraglist (by rwa [hfn])
  rw [hfn] at hadd
  unfold commitAdd
  split at hadd
  · next hall =>
    obtain ⟨l,st',heq⟩ := hadd
    rw [if_pos hall,Inode.addNode,Inode.addFullDnodeToInode_ok (addFullDnodeToFraglist_ok heq)]
    simp only [Inode.writeDnode]
    rw [heq]
  · next hno =>
    obtain ⟨st',heq,hobs⟩ := hadd
    have hsame := addFullDnodeToFraglist_same frag st f.fraglist f.st.next
    rw [heq] at hsame
    rw [if_neg hno]
    simp only [Inode.writeDnode]
    rw [heq]
    let d : Inode := { f with highestVersion := ri.version, st := st' }
    obtain ⟨hdrop,hmeta,-⟩ := Inode.dropMetadata_eq d
    have hall : SameNodes st (d.dropMetadata.st.markNodeObsolete f.st.next) :=
      hsame.trans (hmeta.trans (.markNodeObsolete _ _))
    refine ⟨_,rfl,by rw [hdrop],?_,(Keeps.append _ _).trans_same hall,fun i hi hm => ?_⟩
    · rw [hall.next]
      exact Nat.le_succ _
    · have hold : (st.node i).obsolete = (f.st.node i).obsolete := by
        rw [Store.append_node,if_neg hi.ne]
      have hdm := Inode.dropMetadata_obsolete d i
      simp only [Store.markNodeObsolete_obsolete]
      grind

theorem Round.pack_spec (hc : c.Lawful) (r : Round) {text : List Byte} {cdatalen : ℕ}
    (hd : 0 < cdatalen) (hle : cdatalen ≤ text.length) :
    ∃ t n out, r.pack c text cdatalen = (t,n,out) ∧ 0 < n ∧ n ≤ text.length ∧ t ≠ .zero ∧
      ∀ ri : RawInode, ri.compr = t → ri.csize = out.length → ri.dsize = n →
        ri.text c out = .ok (text.take n) := by
  unfold Round.pack
  cases r.comprbuf with
  | true => exact packData_spec hc hd hle
  | false =>
    refine ⟨.none,cdatalen,text.take cdatalen,rfl,hd,hle,by decide,fun ri ht hcs _ => ?_⟩
    rw [RawInode.text,ht,if_pos rfl,hcs,take_length]

/-- One round adds a node with the next bytes of the page, or the inode has lost at most its
metadata. -/
theorem commitAttempt_spec (hc : c.Lawful) (pg : Page) (r : Round) (f : Inode) (fileOfs : ℕ)
    (hw : 0 < writelen) :
    match r.stores c pg (fragAllocs f.fraglist fileOfs) (fileOfs % 4096) writelen with
    | some n => 0 < n ∧ n ≤ writelen ∧ ∃ ri cdata, ri.offset = fileOfs ∧ ri.dsize = n ∧
        (∀ x < n, (RawNode.inode ri cdata).byte c x = pg (fileOfs % 4096 + x)) ∧
        commitAttempt c pg r f fileOfs writelen =
          ({ f.addNode ri cdata with isize := ri.isize },.ok n)
    | none => ∃ f' e, commitAttempt c pg r f fileOfs writelen = (f',.error e) ∧ Lost f f' := by
  have hsame : ∀ v, Lost f { f with highestVersion := v } := fun v =>
    ⟨rfl,le_rfl,(SameNodes.refl _).keeps,fun _ _ _ => rfl⟩
  unfold Round.stores commitAttempt
  cases r.reserve with
  | error e => exact ⟨f,e,rfl,hsame f.highestVersion⟩
  | ok alloclen =>
    cases r.write with
    | some e => exact ⟨_,e,rfl,hsame _⟩
    | none =>
      have hlen : (pg.text (fileOfs % 4096) writelen).length = writelen := by
        rw [Page.text,length_map,length_range]
      have hsub : sub32 alloclen.1 sizeofRawInode = alloclen.1 - sizeofRawInode :=
        sub32_of_le (by omega) (by omega)
      obtain ⟨t,n,out,hpack,hn,hnle,ht,htext⟩ := r.pack_spec hc
        (by omega : 0 < min (alloclen.1 - sizeofRawInode) writelen)
        (by omega : _ ≤ (pg.text (fileOfs % 4096) writelen).length)
      rw [hlen] at hnle
      obtain ⟨ri,hri,hofs,hds,hz,htext⟩ : ∃ ri, commitNode f fileOfs t n out = ri ∧
          ri.offset = fileOfs ∧ ri.dsize = n ∧ ri.compr ≠ .zero ∧
          ri.text c out = .ok ((pg.text (fileOfs % 4096) writelen).take n) :=
        ⟨_,rfl,rfl,rfl,ht,htext _ rfl rfl rfl⟩
      have hadd := commitAdd_spec r.frag f out (hds.trans_ne hn.ne')
      rw [hofs,hds] at hadd
      simp only [hsub,hpack,hri]
      split at hadd
      · next hall =>
        rw [if_pos hall]
        refine ⟨hn,hnle,ri,out,hofs,hds,fun x hx => ?_,?_⟩
        · have hb := byte_of_pageText (p := fileOfs + x) hz htext hnle (Nat.le_add_right _ _)
            (by omega)
          rwa [Nat.add_sub_cancel_left] at hb
        · rw [hadd]
          simp only [hn.ne',if_false]
      · next hno =>
        obtain ⟨f',hadd,hlost⟩ := hadd
        rw [if_neg hno]
        exact ⟨f',.enomem,by rw [hadd],hlost⟩

/-- A node put in where a fragment starts, or at the end of the list, takes one allocation. -/
theorem fragAllocs_start {l : List Frag} {p : ℕ} (ht : Tiles 0 l e) (he : e < 4294967296)
    (hp : IsStart l p ∨ e = p) (n : ℕ) : fragAllocs l p n = 1 := by
  obtain ⟨m,ht₁,ht₂,hm,hhead⟩ := ht.cut p
  have hsplit := takeWhile_append_dropWhile (p := fun f : Frag => decide (f.stop ≤ p)) (l := l)
  unfold fragAllocs
  rw [dropWhile_fend ht he,lastend_eq ht he]
  cases hd : l.dropWhile fun f => f.stop ≤ p with
  | nil =>
    refine if_neg fun hlt => ?_
    rcases hp with hp | rfl
    · exact absurd (hp.bounds ht).2 (by omega)
    · omega
  | cons this next =>
    obtain ⟨-,hstop⟩ := hhead this next hd
    have hmem : this ∈ l := dropWhile_subset _ (hd ▸ mem_cons_self)
    refine if_neg fun hlt => ?_
    rcases hp with ⟨s,hs,rfl⟩ | rfl
    · have := ht.stop_le hmem hs hlt.1
      omega
    · have := (ht.mem_bounds hmem).2.2
      omega

/-- Byte `x` of the page is in a node that has been written since `f`, is live, and is what the file
shows there. -/
def StoredAt (c : Codecs) (pg : Page) (pageofs : ℕ) (f f' : Inode) (x : ℕ) : Prop :=
  ∃ i, f.st.next ≤ i ∧ f'.st.Alive i ∧ valueAt f'.fraglist (pageofs + x) = some (some i) ∧
    f'.byteAt c (pageofs + x) = pg x

/-- The allocations for `n` bytes at `pos` of the page.  Behind the first round a fragment starts. -/
def pageAllocs (l : List Frag) (pageofs pos n : ℕ) : ℕ :=
  if pos = 0 then fragAllocs l pageofs n else 1

/-- The rounds from `k` on, the first of them at `pos`, go well until `start` bytes of the page are
stored. -/
inductive Reaches (c : Codecs) (pg : Page) (rounds : ℕ → Round) (l : List Frag) (pageofs start : ℕ) :
    ℕ → ℕ → ℕ → Prop
  | here {k pos writelen : ℕ} (h : start ≤ pos) : Reaches c pg rounds l pageofs start k pos writelen
  | next {k pos writelen n : ℕ} (hw : writelen ≠ 0)
    (h : (rounds k).stores c pg (pageAllocs l pageofs pos) pos writelen = some n)
    (hn : Reaches c pg rounds l pageofs start (k + 1) (pos + n) (writelen - n)) :
    Reaches c pg rounds l pageofs start k pos writelen

/-- What holds between the rounds: the page is stored up to `writtenlen` and not behind it. -/
structure Loop.Good (c : Codecs) (pg : Page) (pageofs : ℕ) (f : Inode) (l : Loop) : Prop where
  ofs : l.fileOfs = pageofs + l.writtenlen
  room : l.writtenlen + l.writelen ≤ 4096
  small : l.fileOfs + l.writelen < 4294967296
  stored : ∀ x < l.writtenlen, StoredAt c pg pageofs f l.ino x
  behind : ∀ p i, l.fileOfs ≤ p → valueAt l.ino.fraglist p = some (some i) → i < f.st.next
  bare : ∀ m, l.ino.metadata = some m → m < f.st.next
  next : f.st.next ≤ l.ino.st.next
  framed : ∃ e, Framed l.ino e ∧ if l.writtenlen = 0 then l.ino.fraglist = f.fraglist
    else IsStart l.ino.fraglist l.fileOfs ∨ e = l.fileOfs

section
variable {pageofs start stop n : ℕ} {l : Loop} {ri : RawInode} {cdata : List Byte}

theorem Loop.Good.storedAt_iff (h : l.Good c pg pageofs f) {x : ℕ} :
    StoredAt c pg pageofs f l.ino x ↔ x < l.writtenlen := by
  refine ⟨fun ⟨i,hi,_,hv,_⟩ => ?_,h.stored x⟩
  by_contra hx
  have := h.behind _ i (by rw [h.ofs]; omega) hv
  omega

theorem Loop.Good.lost (h : l.Good c pg pageofs f) (hl : Lost l.ino g) {x : ℕ} :
    StoredAt c pg pageofs f g x ↔ x < l.writtenlen := by
  obtain ⟨e,hframed,-⟩ := h.framed
  have hbyte := byteAt_keeps (c := c) hframed.known hl.list hl.keeps (pageofs + x)
  rw [← h.storedAt_iff,StoredAt,StoredAt,hl.list,hbyte]
  refine exists_congr fun i => and_congr_right fun hi => and_congr_left fun hv => ?_
  obtain ⟨frag,hf,hfv,-⟩ := exists_mem_of_valueAt hv.1
  have hlt := hframed.known frag hf i hfv
  have hobs := hl.obsolete i hlt fun hm => absurd (h.bare i hm) (by omega)
  rw [Store.Alive,Store.Alive,hobs]
  exact and_congr_left fun _ => iff_of_true (hlt.trans_le hl.next) hlt

theorem Loop.Good.allocs (h : l.Good c pg pageofs f) (n : ℕ) :
    fragAllocs l.ino.fraglist l.fileOfs n = pageAllocs f.fraglist pageofs l.writtenlen n := by
  obtain ⟨e,hframed,hstart⟩ := h.framed
  rw [pageAllocs]
  split_ifs at hstart ⊢ with hw
  · rw [hstart,h.ofs,hw,add_zero]
  · exact fragAllocs_start hframed.tiles hframed.small hstart n

theorem Loop.Good.advanced (h : l.Good c pg pageofs f) (h4 : pageofs % 4096 = 0) (hn : 0 < n)
    (hnle : n ≤ l.writelen) (hofs : ri.offset = l.fileOfs) (hds : ri.dsize = n)
    (hbyte : ∀ x < n, (RawNode.inode ri cdata).byte c x = pg (l.fileOfs % 4096 + x)) :
    (l.advance { l.ino.addNode ri cdata with isize := ri.isize } n).Good c pg pageofs f := by
  have hroom := h.room
  have hsmall := h.small
  have hlofs := h.ofs
  obtain ⟨e,hframed,-⟩ := h.framed
  have hpos : 0 < ri.dsize := hds ▸ hn
  have hfit : ri.offset + ri.dsize < 4294967296 := by omega
  have ha : Added l.ino ri cdata e (l.ino.addNode ri cdata) := hframed.added hpos hfit
  have hg : Framed (l.ino.addNode ri cdata) _ := hframed.addNode hpos hfit
  have hbytes := ha.byteAt hframed.tiles hframed.free c
  have hmeta : (l.ino.addNode ri cdata).metadata = none := by rw [ha.rest]
  have hu : u32 (l.fileOfs + n) = l.fileOfs + n := u32_of_lt (by omega)
  have hsub : sub32 l.writelen n = l.writelen - n := sub32_of_le hnle (by omega)
  generalize l.ino.addNode ri cdata = g at *
  refine ⟨?_,?_,?_,fun x hx => ?_,fun p i hp hv => ?_,fun m hm => ?_,?_,_,
    ⟨hg.tiles,hg.small,hg.counted,hg.known,hg.bare⟩,?_⟩
  · show u32 (l.fileOfs + n) = pageofs + (l.writtenlen + n)
    omega
  · show l.writtenlen + n + sub32 l.writelen n ≤ 4096
    omega
  · show u32 (l.fileOfs + n) + sub32 l.writelen n < 4294967296
    omega
  · show StoredAt c pg pageofs f { g with isize := ri.isize } x
    change x < l.writtenlen + n at hx
    by_cases hxl : x < l.writtenlen
    · obtain ⟨i,hi,halive,hv,hb⟩ := h.stored x hxl
      have hold : ¬(ri.offset ≤ pageofs + x ∧ pageofs + x < ri.offset + ri.dsize) := by omega
      have hv' : valueAt g.fraglist (pageofs + x) = some (some i) := by
        rw [ha.value,if_neg hold,if_neg,hv]
        intro hgap
        rw [hframed.tiles.valueAt_ge hgap.1] at hv
        cases hv
      refine ⟨i,hi,⟨?_,?_⟩,hv',(hbytes _).trans ((if_neg hold).trans hb)⟩
      · rw [ha.node.next]
        exact Nat.lt_succ_of_lt halive.1
      · have hm : l.ino.metadata ≠ some i := fun hm => absurd (h.bare i hm) (by omega)
        have hfr : fragsOf g.fraglist i ≠ 0 := (fragsOf_ne_zero_iff_valueAt hg.tiles).mpr ⟨_,hv'⟩
        rw [ha.obsolete,if_neg halive.1.ne]
        simp [halive.2,hm,hfr]
    · have hin : ri.offset ≤ pageofs + x ∧ pageofs + x < ri.offset + ri.dsize := by omega
      refine ⟨l.ino.st.next,h.next,⟨?_,?_⟩,(ha.value _).trans (if_pos hin),
        (hbytes _).trans ((if_pos hin).trans ?_)⟩
      · rw [ha.node.next]
        exact Nat.lt_succ_self _
      · rw [ha.obsolete,if_pos rfl]
      · rw [hbyte _ (by omega)]
        congr 1
        omega
  · change u32 (l.fileOfs + n) ≤ p at hp
    change valueAt g.fraglist p = some (some i) at hv
    rw [ha.value,if_neg (by omega),if_neg (by omega)] at hv
    exact h.behind p i (by omega) hv
  · change g.metadata = some m at hm
    rw [hmeta] at hm
    cases hm
  · show f.st.next ≤ g.st.next
    rw [ha.node.next]
    exact Nat.le_succ_of_le h.next
  · show if l.writtenlen + n = 0 then g.fraglist = f.fraglist
      else IsStart g.fraglist (u32 (l.fileOfs + n)) ∨ max e (ri.offset + ri.dsize) = u32 (l.fileOfs + n)
    rw [if_neg (by omega),ha.start]
    omega

/-- How the loop ends. -/
structure Loop.Ends (c : Codecs) (pg : Page) (rounds : ℕ → Round) (pageofs start : ℕ) (f : Inode)
    (k : ℕ) (l l' : Loop) : Prop where
  full : l'.writtenlen ≤ 4096
  stored : ∀ x, StoredAt c pg pageofs f l'.ino x ↔ x < l'.writtenlen
  le : l.writtenlen ≤ l'.writtenlen
  reaches : Reaches c pg rounds f.fraglist pageofs start k l.writtenlen l.writelen ↔
    start ≤ l'.writtenlen

/-- Without another round that stores something the loop has got as far as it gets. -/
theorem Loop.Good.ends {l' : Loop} {rounds : ℕ → Round} {k : ℕ} (h : l.Good c pg pageofs f)
    (hlen : l'.writtenlen = l.writtenlen)
    (hs : ∀ x, StoredAt c pg pageofs f l'.ino x ↔ x < l.writtenlen)
    (hno : ∀ n, l.writelen ≠ 0 → (rounds k).stores c pg
      (pageAllocs f.fraglist pageofs l.writtenlen) l.writtenlen l.writelen ≠ some n) :
    Loop.Ends c pg rounds pageofs start f k l l' := by
  have hroom := h.room
  refine ⟨by omega,fun x => hlen ▸ hs x,hlen.ge,fun hr => ?_,fun hs => .here (hlen ▸ hs)⟩
  cases hr with
  | here hs => exact hlen ▸ hs
  | next hw hn => exact absurd hn (hno _ hw)

theorem commitLoop_spec (rounds : ℕ → Round) (start k : ℕ) (hc : c.Lawful)
    (h4 : pageofs % 4096 = 0) {fuel : ℕ} (h : l.Good c pg pageofs f) (hf : l.writelen ≤ fuel) :
    ∃ l', commitLoop c pg rounds fuel k l = some l' ∧
      Loop.Ends c pg rounds pageofs start f k l l' := by
  induction fuel generalizing k l with
  | zero =>
    have hw : l.writelen = 0 := Nat.le_zero.mp hf
    exact ⟨l,by rw [commitLoop,if_pos hw],h.ends rfl (fun x => h.storedAt_iff) fun _ hn => absurd hw hn⟩
  | succ fuel ih =>
    by_cases hw : l.writelen = 0
    · exact ⟨l,by rw [commitLoop,if_pos hw],h.ends rfl (fun x => h.storedAt_iff) fun _ hn => absurd hw hn⟩
    · have hroom := h.room
      have hpos : l.fileOfs % 4096 = l.writtenlen := by
        rw [h.ofs]
        omega
      have hround := commitAttempt_spec hc pg (rounds k) l.ino l.fileOfs (Nat.pos_of_ne_zero hw)
      rw [hpos,funext h.allocs] at hround
      rw [commitLoop,if_neg hw]
      split at hround
      · next n hn =>
        obtain ⟨hn0,hnle,ri,cdata,hofs,hds,hbyte,heq⟩ := hround
        have hg := h.advanced h4 hn0 hnle hofs hds (hpos ▸ hbyte)
        have hsub : sub32 l.writelen n = l.writelen - n := sub32_of_le hnle (by omega)
        obtain ⟨l',hl',hends⟩ := ih (k + 1) hg (show sub32 l.writelen n ≤ fuel by omega)
        have hreach : Reaches c pg rounds f.fraglist pageofs start (k + 1) (l.writtenlen + n)
            (sub32 l.writelen n) ↔ start ≤ l'.writtenlen := hends.reaches
        have hle : l.writtenlen + n ≤ l'.writtenlen := hends.le
        rw [hsub] at hreach
        rw [heq]
        refine ⟨l',hl',hends.full,hends.stored,by omega,fun hr => ?_,fun hs =>
          .next hw hn (hreach.mpr hs)⟩
        cases hr with
        | here hs => omega
        | next _ hn' hr =>
          rw [hn] at hn'
          cases hn'
          exact hreach.mp hr
      · next hn =>
        obtain ⟨g,e,heq,hlost⟩ := hround
        rw [heq]
        refine ⟨_,rfl,h.ends rfl (fun x => h.lost hlost) fun n _ hn' => ?_⟩
        rw [hn] at hn'
        cases hn'

end

/-- A positive result counts bytes from `start` on that have been stored; if there are none the
result is an error. -/
structure CommitResult (c : Codecs) (pg : Page) (pageofs start stop : ℕ) (r : Except Errno ℕ)
    (f f' : Inode) : Prop where
  stored : ∀ n, r = .ok n → 0 < n → n ≤ stop - start ∧
    ∀ x, start ≤ x → x < start + n → StoredAt c pg pageofs f f' x
  failed : (∀ x, start ≤ x → ¬StoredAt c pg pageofs f f' x) → ∃ e, r = .error e

section
variable {pageofs start stop k : ℕ} {l l' : Loop} {rounds : ℕ → Round}

theorem commitRet_of_lt (hs : start < stop) (hp : stop ≤ 4096) (h : start < l.writtenlen)
    (hw : l.writtenlen ≤ 4096) :
    commitRet start stop l = .ok (min (stop - start) (l.writtenlen - start)) := by
  have h₁ : sub32 stop start = stop - start := sub32_of_le hs.le (by omega)
  have h₂ : sub32 l.writtenlen start = l.writtenlen - start := sub32_of_le h.le (by omega)
  rw [commitRet,h₁,h₂]
  exact if_pos (by omega)

theorem commitRet_of_eq (stop : ℕ) (h : l.writtenlen = start) (hw : start ≤ 4096) :
    commitRet start stop l = .error (l.ret.getD .enospc) := by
  have h₁ : sub32 l.writtenlen start = 0 := by
    rw [h,sub32_of_le le_rfl (by omega),Nat.sub_self]
  simp [commitRet,h₁,if_pos h.le]

/-- Short of `start` the difference wraps, and the whole range is reported as written. -/
theorem commitRet_of_gt (hs : start < stop) (hp : stop ≤ 4096) (h : l.writtenlen < start) :
    commitRet start stop l = .ok (stop - start) := by
  have h₁ : sub32 stop start = stop - start := sub32_of_le hs.le (by omega)
  have h₂ : stop - start ≤ sub32 l.writtenlen start := by
    rw [sub32,u32_of_lt (by omega : start < 4294967296),u32_of_lt (by omega)]
    omega
  rw [commitRet,h₁,min_eq_left h₂]
  exact if_pos (by omega)

theorem Loop.Ends.result_iff (h : Loop.Ends c pg rounds pageofs start f k l l') (hs : start < stop)
    (hp : stop ≤ 4096) : CommitResult c pg pageofs start stop (commitRet start stop l') f l'.ino ↔
      start ≤ l'.writtenlen := by
  have hfull := h.full
  constructor
  · intro hr
    by_contra hlt
    rw [not_le] at hlt
    obtain ⟨-,hx⟩ := hr.stored _ (commitRet_of_gt hs hp hlt) (by omega)
    have := (h.stored _).mp (hx start le_rfl (by omega))
    omega
  · intro hle
    rcases hle.lt_or_eq with hlt | heq
    · refine ⟨fun n hn hpos => ?_,fun hno => ?_⟩
      · rw [commitRet_of_lt hs hp hlt hfull] at hn
        cases hn
        exact ⟨min_le_left _ _,fun x hx hxn => (h.stored _).mpr (by omega)⟩
      · exact absurd ((h.stored _).mpr hlt) (hno start le_rfl)
    · have hret := commitRet_of_eq stop heq.symm (by omega)
      refine ⟨fun n hn => ?_,fun _ => ⟨_,hret⟩⟩
      rw [hret] at hn
      cases hn

end

section
variable {index stop : ℕ} (hsize : f.isize < 4294967296) (hstop : index * 4096 + stop < 4294967296)
include hsize hstop

theorem commitInit_writelen : (commitInit f index stop).writelen =
    min 4096 (max f.isize (index * 4096 + stop) - index * 4096) := by
  have hu := u32_of_lt ((Nat.le_add_right _ _).trans_lt hstop)
  have hsub := sub32_of_le (le_trans (Nat.le_add_right _ stop) (le_max_right f.isize _))
    (Nat.max_lt.mpr ⟨hsize,hstop⟩)
  unfold commitInit
  rw [hu,u32_of_lt hsize,u32_of_lt hstop,hsub]

theorem commitInit_good (c : Codecs) (pg : Page) (hf : Framed f e) :
    (commitInit f index stop).Good c pg (index * 4096) f := by
  have hu := u32_of_lt ((Nat.le_add_right _ _).trans_lt hstop)
  have hlen := commitInit_writelen hsize hstop
  have hfree : ∀ p i, valueAt f.fraglist p = some (some i) → i < f.st.next := by
    intro p i hv
    obtain ⟨frag,hmem,hfv,-⟩ := exists_mem_of_valueAt hv
    exact hf.known frag hmem i hfv
  refine ⟨hu.trans (add_zero _).symm,?_,?_,fun x hx => absurd hx x.not_lt_zero,fun p i _ => hfree p i,
    hf.bare,le_rfl,e,hf,?_⟩
  · show 0 + (commitInit f index stop).writelen ≤ 4096
    omega
  · show u32 (index * 4096) + (commitInit f index stop).writelen < 4294967296
    omega
  · rw [if_pos (show (commitInit f index stop).writtenlen = 0 from rfl)]
    rfl

end

/-- What `jffs2_commit_write` returns agrees with what it has stored just if the rounds go well
until `start` is reached, or there is no memory at all. -/
theorem commitWrite_result {c : Codecs} (hc : c.Lawful) (pg : Page) (ri : Bool) (rounds : ℕ → Round)
    {f : Inode} {e : ℕ} (hf : Framed f e) (hsize : f.isize < 4294967296) {index start stop : ℕ}
    (hs : start < stop) (hp : stop ≤ 4096) (hstop : index * 4096 + stop < 4294967296) :
    ∃ r f', commitWrite c pg ri rounds f index start stop = some (r,f') ∧
      (CommitResult c pg (index * 4096) start stop r f f' ↔ ri = false ∨
        Reaches c pg rounds f.fraglist (index * 4096) start 0 0
          (min 4096 (max f.isize (index * 4096 + stop) - index * 4096))) := by
  cases ri with
  | false =>
    refine ⟨.error .enomem,f,rfl,iff_of_true ⟨fun n hn => ?_,fun _ => ⟨_,rfl⟩⟩ (Or.inl rfl)⟩
    cases hn
  | true =>
    have hg := commitInit_good hsize hstop c pg hf
    obtain ⟨l,hl,hends⟩ := commitLoop_spec rounds start 0 hc (by omega) hg
      (min_le_left _ _ : (commitInit f index stop).writelen ≤ 4096)
    refine ⟨_,_,?_,(hends.result_iff hs hp).trans (hends.reaches.symm.trans ?_)⟩
    · rw [commitWrite,hl]
      rfl
    · rw [commitInit_writelen hsize hstop]
      exact (or_iff_right Bool.false_ne_true.symm).symm

def plainRound : Round := ⟨.ok ⟨4096,by decide⟩,false,none,fun _ => true⟩

theorem createdInode_framed : Framed createdInode 0 :=
  ⟨rfl,by decide,fun i hi => absurd rfl hi,fun _ hf => absurd hf not_mem_nil,fun m hm => by
    cases hm
    decide⟩

theorem commitWrite_result_new : ∃ r f',
    commitWrite Codecs.idle (fun _ => 7) true (fun _ => plainRound) createdInode 0 3 8 =
      some (r,f') ∧ CommitResult Codecs.idle (fun _ => 7) 0 3 8 r createdInode f' := by
  obtain ⟨r,f',h,hiff⟩ := commitWrite_result Codecs.idle_lawful (fun _ => 7) true
    (fun _ => plainRound) createdInode_framed (by decide) (by decide : 3 < 8) (by decide)
    (by decide : 0 * 4096 + 8 < 4294967296)
  exact ⟨r,f',h,hiff.mpr (Or.inr (.next (n := 8) (by decide) (by decide +kernel) (.here (by decide))))⟩

/-- No space for the first piece, and 100 bytes are reported as written. -/
theorem commitWrite_short : ∃ f', commitWrite Codecs.idle (fun _ => 7) true
      (fun _ => ⟨.error .enospc,true,none,fun _ => true⟩) createdInode 0 100 200 = some (.ok 100,f') ∧
    ¬CommitResult Codecs.idle (fun _ => 7) 0 100 200 (.ok 100) createdInode f' := by
  have hret : commitRet 100 200 { commitInit createdInode 0 200 with ret := some .enospc } =
      .ok 100 := by
    decide +kernel
  refine ⟨createdInode,?_,fun h => ?_⟩
  · exact congrArg (fun r => some (r,createdInode)) hret
  obtain ⟨-,hx⟩ := h.stored 100 rfl (by decide)
  obtain ⟨i,-,-,hv,-⟩ := hx 100 le_rfl (by decide)
  cases hv

end Simpad.Jffs2
