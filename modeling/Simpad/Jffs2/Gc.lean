import Simpad.Jffs2.File

namespace Simpad.Jffs2
open Word Segments

/-- What a routine returns, or that it runs into a `BUG()` or stores outside a page. -/
inductive GcResult
  | ok (f : Inode)
  | error (e : Errno) (f : Inode)
  | bug

/-- `mdatalen` is a `char` in `jffs2_garbage_collect_metadata`. -/
def u8 (n : ℕ) : ℕ := n % 256

def gcMetadataData (c : Codecs) (f : Inode) (fn : ℕ) : Except Errno (List Byte) :=
  match f.mode with
  | .blk | .chr => .ok f.devBytes
  | .lnk => readDnode c (f.st.node fn).raw 0 (u8 (f.st.node fn).fn.size)
  | _ => .ok []

def gcMetadataNode (f : Inode) (mdata : List Byte) : RawInode where
  totlen := sizeofRawInode + mdata.length
  version := f.nextVersion
  mode := f.mode
  isize := f.isize
  offset := 0
  csize := mdata.length
  dsize := mdata.length
  compr := .none

/-- `jffs2_garbage_collect_metadata`. -/
def gcMetadata (c : Codecs) (f : Inode) (fn : ℕ) : GcResult :=
  match gcMetadataData c f fn with
  | .error e => .error e f
  | .ok mdata =>
    let ri := gcMetadataNode f mdata
    let new := ({ f with highestVersion := ri.version }).writeDnode ri mdata
    .ok { new with st := new.st.markNodeObsolete fn, metadata := some f.st.next }

/-- `jffs2_garbage_collect_dirent`. -/
def gcDirent (f : Inode) (fd : FullDirent) : GcResult :=
  let name := cstring fd.name
  let version := f.nextVersion
  let st := f.st.append ⟨.dirent ⟨version,fd.ino,fd.type⟩ name,false,⟨0,0,0⟩⟩
  let r := addFdToList ⟨f.st.next,version,fd.ino,fd.type,fullNameHash name,name⟩ f.dents
  .ok { f with
    highestVersion := version
    dents := r.1
    st := match r.2 with
      | none => st
      | some raw => st.markNodeObsolete raw }

/-- `jffs2_garbage_collect_deletion_dirent`. -/
def gcDeletionDirent (f : Inode) (fd : FullDirent) : GcResult :=
  .ok { f with dents := f.dents.erase fd, st := f.st.markNodeObsolete fd.raw }

/-- Turn the fragments of `fn` into fragments of `new`, up to the first that starts behind
`limit`; the second component counts them. -/
def repoint (fn new limit : ℕ) : List Frag → List Frag × ℕ
  | [] => ([],0)
  | frag :: next =>
    if limit < frag.ofs then (frag :: next,0)
    else
      let r := repoint fn new limit next
      if frag.val = some fn then (⟨frag.ofs,frag.size,some new⟩ :: r.1,r.2 + 1)
      else (frag :: r.1,r.2)

/-- The node `jffs2_garbage_collect_hole` writes, and `f->highest_version` then.  A hole that
later writes have split keeps its version; a node that is no hole is filled with one. -/
def gcHoleNode (f : Inode) (fn start stop : ℕ) : Except Errno (RawInode × ℕ) :=
  let fill := (f.holeNode start stop f.isize,f.nextVersion)
  if 1 < (f.st.node fn).fn.frags then
    match (f.st.node fn).raw with
    | .dirent _ _ => .error .eio
    | .inode ri _ =>
      if ri.totlen ≠ sizeofRawInode then .error .eio
      else if ri.compr ≠ .zero then .ok fill
      else .ok ({ ri with mode := f.mode, isize := f.isize },f.highestVersion)
  else .ok fill

/-- `jffs2_garbage_collect_hole`. -/
def gcHole (f : Inode) (fn start stop : ℕ) : GcResult :=
  match gcHoleNode f fn start stop with
  | .error e => .error e f
  | .ok (ri,highestVersion) =>
    if ri.version = highestVersion then .ok (f.addNode ri [])
    else
      let d := (f.st.node fn).fn
      let new := ({ f with highestVersion := highestVersion }).writeDnode ri []
      let r := repoint fn f.st.next (u32 (d.size + d.ofs)) f.fraglist
      if sub32 d.frags r.2 ≠ 0 ∨ r.2 = 0 then .bug
      else .ok { new with
        fraglist := r.1
        st := ((new.st.setFrags f.st.next r.2).setFrags fn 0).markNodeObsolete fn }

/-- The node one round of `jffs2_garbage_collect_dnode` writes. -/
def gcDnodeNode (f : Inode) (offset : ℕ) (t : Compr) (datalen : ℕ) (cdata : List Byte) :
    RawInode where
  totlen := sizeofRawInode + cdata.length
  version := f.nextVersion
  mode := f.mode
  isize := f.isize
  offset := offset
  csize := cdata.length
  dsize := datalen
  compr := t

/-- The loop of `jffs2_garbage_collect_dnode`; the `k`-th reservation gives `alloc k` bytes.
Each round writes at least one byte, so `fuel` need not exceed the distance to `origEnd`. -/
def gcDnodeLoop (c : Codecs) (pg : Page) (alloc : ℕ → ℕ) (stop origEnd : ℕ) :
    ℕ → ℕ → Inode → ℕ → Option Inode
  | 0, _, f, offset => if offset < origEnd then none else some f
  | fuel + 1, k, f, offset =>
    if offset < origEnd then
      let cdatalen := min (sub32 (alloc k) sizeofRawInode) (sub32 stop offset)
      let (t,datalen,cdata) := packData c (pg.text (offset % 4096) (sub32 stop offset)) cdatalen
      gcDnodeLoop c pg alloc stop origEnd fuel (k + 1)
        (f.addNode (gcDnodeNode f offset t datalen cdata) cdata) (u32 (offset + datalen))
    else some f

/-- With plenty of space the whole page is written again. -/
def gcDnodeRange (f : Inode) (merge : Bool) (start stop : ℕ) : ℕ × ℕ :=
  if merge then
    let start := start - start % 4096
    (start,max (min (u32 (start + 4096)) f.isize) stop)
  else (start,stop)

/-- `jffs2_garbage_collect_dnode`. -/
def gcDnode (c : Codecs) (f : Inode) (merge : Bool) (alloc : ℕ → ℕ) (fresh : Page)
    (start stop : ℕ) : GcResult :=
  let r := gcDnodeRange f merge start stop
  match readCachePage c f (r.1 / 4096) fresh with
  | .error (.errno e) => .error e f
  | .error .overrun => .bug
  | .ok (pg,f) =>
    match gcDnodeLoop c pg alloc r.2 stop (stop - r.1) 0 f r.1 with
    | none => .bug
    | some f => .ok f

/-- The fragments of the victim that the search of `jffs2_garbage_collect_pass` meets. -/
def victimFrags (f : Inode) (victim : ℕ) : List Frag :=
  let fs := f.fraglist.filter fun frag => frag.val = some victim
  let frags := (f.st.node victim).fn.frags
  if frags = 0 then fs else fs.take frags

def victimRange (f : Inode) (victim : ℕ) : Option (ℕ × ℕ) :=
  match (victimFrags f victim).head?, (victimFrags f victim).getLast? with
  | some a, some b => some (a.ofs,fend b)
  | _, _ => none

/-- `jffs2_garbage_collect_pass` with the inode's semaphore held. -/
def gcPass (c : Codecs) (f : Inode) (victim : ℕ) (merge : Bool) (alloc : ℕ → ℕ)
    (fresh : Page) : GcResult :=
  if (f.st.node victim).obsolete then .ok f
  else if f.metadata = some victim then gcMetadata c f victim
  else
    match victimRange f victim with
    | some (start,stop) =>
      if start / 4096 < sub32 stop 1 / 4096 then gcHole f victim start stop
      else gcDnode c f merge alloc fresh start stop
    | none =>
      match f.dents.find? fun fd => fd.raw = victim with
      | some fd => if fd.ino ≠ 0 then gcDirent f fd else gcDeletionDirent f fd
      | none => .error .eio f

end Simpad.Jffs2
