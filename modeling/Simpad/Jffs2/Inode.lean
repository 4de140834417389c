import Simpad.Jffs2.FraglistInsert
import Simpad.Jffs2.FraglistTruncate
import Simpad.Jffs2.Compr
import Simpad.Jffs2.Dirent

namespace Simpad.Jffs2
open Word Segments

abbrev Page := ℕ → Byte

/-- `struct inode` with its `struct jffs2_inode_info`; `mapping` holds the up-to-date pages. -/
structure Inode where
  st : Store
  mode : FileType
  isize : ℕ
  rdev : ℕ
  highestVersion : ℕ
  fraglist : List Frag
  metadata : Option ℕ
  dents : List FullDirent
  mapping : ℕ → Option Page

namespace Inode
variable (c : Codecs) (f : Inode)

/-- `++f->highest_version`. -/
def nextVersion : ℕ := u32 (f.highestVersion + 1)

/-- `jffs2_write_dnode`; the new node is called `f.st.next`. -/
def writeDnode (ri : RawInode) (data : List Byte) : Inode :=
  { f with st := f.st.append ⟨.inode ri data,false,⟨ri.offset,ri.dsize,0⟩⟩ }

def addFullDnodeToInode (fn : ℕ) : Inode :=
  match addFullDnodeToFraglist (fun _ => true) f.st f.fraglist fn with
  | (.ok list,st) => { f with st := st, fraglist := list }
  | (.error _,st) => { f with st := st }

def dropMetadata : Inode :=
  match f.metadata with
  | none => f
  | some m => { f with st := f.st.markNodeObsolete m, metadata := none }

def addNode (ri : RawInode) (data : List Byte) : Inode :=
  ((({ f with highestVersion := ri.version }).writeDnode ri data).addFullDnodeToInode
    f.st.next).dropMetadata

/-- The hole node that `jffs2_prepare_write` and `jffs2_garbage_collect_hole` write. -/
def holeNode (start stop isize : ℕ) : RawInode where
  totlen := sizeofRawInode
  version := f.nextVersion
  mode := f.mode
  isize := isize
  offset := start
  csize := 0
  dsize := sub32 stop start
  compr := .zero

/-- `MAJOR << 8 | MINOR` in memory order. -/
def devBytes : List Byte := [UInt8.ofNat f.rdev,UInt8.ofNat (f.rdev / 256)]

/-- `vmtruncate`: pages behind the new end go, the tail of the last page becomes zero. -/
def vmtruncate (size : ℕ) : Inode :=
  { f with
    isize := size
    mapping := fun idx =>
      if size ≤ idx * 4096 then none
      else (f.mapping idx).map fun pg k => if idx * 4096 + k < size then pg k else 0 }

/-- The data that goes with the one node of a device or a symbolic link. -/
def setattrData : Except Errno (List Byte) :=
  match f.mode with
  | .blk | .chr => .ok f.devBytes
  | .lnk =>
    match f.metadata with
    | none => .error .eio
    | some m => readDnode c (f.st.node m).raw 0 (f.st.node m).fn.size
  | _ => .ok []

/-- The node `jffs2_setattr` writes; an extension is made a hole node. -/
def setattrNode (isize : ℕ) (mdata : List Byte) : RawInode where
  totlen := sizeofRawInode + mdata.length
  version := f.nextVersion
  mode := f.mode
  isize := isize
  offset := if f.isize < isize then f.isize else 0
  csize := mdata.length
  dsize := if f.isize < isize then sub32 isize f.isize else mdata.length
  compr := if f.isize < isize then .zero else .none

/-- `jffs2_setattr` with a new size. -/
def setattr (isize : ℕ) : Except Errno Inode :=
  match f.setattrData c with
  | .error e => .error e
  | .ok mdata =>
    let ri := f.setattrNode isize mdata
    let new := ({ f with highestVersion := ri.version }).writeDnode ri mdata
    if f.isize < isize then
      .ok ({ new.addFullDnodeToInode f.st.next with isize := isize }).dropMetadata
    else
      let cut :=
        if isize < f.isize then
          let r := truncateFraglist new.st isize f.fraglist
          { new.vmtruncate isize with fraglist := r.1, st := r.2 }
        else new
      .ok { cut.dropMetadata with metadata := some f.st.next }

end Inode

end Simpad.Jffs2
