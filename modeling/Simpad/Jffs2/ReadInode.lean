import Simpad.Jffs2.Inode

namespace Simpad.Jffs2
open Word Segments

def RawNode.version : RawNode → ℕ
  | .inode ri _ => ri.version
  | .dirent rd _ => rd.version

def Store.ver (st : Store) (i : ℕ) : ℕ := (st.node i).raw.version

/-- `jffs2_add_tn_to_list`: in order of increasing version. -/
def addTnToList (st : Store) (tn : ℕ) : List ℕ → List ℕ
  | [] => [tn]
  | prev :: rest =>
    if st.ver prev < st.ver tn then prev :: addTnToList st tn rest else tn :: prev :: rest

/-- What `jffs2_get_inode_nodes` has found so far. -/
structure InodeNodes where
  st : Store
  tns : List ℕ
  fds : List FullDirent
  highestVersion : ℕ

def Store.setFullDnode (st : Store) (i : ℕ) (ri : RawInode) : Store :=
  st.modify i fun x => { x with fn := { x.fn with ofs := ri.offset, size := ri.fnSize } }

def getInodeNode (a : InodeNodes) (ref : ℕ) : InodeNodes :=
  if (a.st.node ref).obsolete then a
  else
    match (a.st.node ref).raw with
    | .dirent rd name =>
      let r := addFdToList ⟨ref,rd.version,rd.ino,rd.type,fullNameHash name,name⟩ a.fds
      { a with
        st := match r.2 with
          | none => a.st
          | some raw => a.st.markNodeObsolete raw
        fds := r.1
        highestVersion := max a.highestVersion rd.version }
    | .inode ri _ =>
      { a with
        st := a.st.setFullDnode ref ri
        tns := addTnToList a.st ref a.tns
        highestVersion := max a.highestVersion ri.version }

def getInodeNodes (st : Store) (refs : List ℕ) : InodeNodes :=
  refs.foldl getInodeNode ⟨st,[],[],0⟩

/-- One round of the loop of `jffs2_read_inode`; the number is `mdata_ver`. -/
def readTn (a : Inode × ℕ) (tn : ℕ) : Inode × ℕ :=
  let version := a.1.st.ver tn
  let a := if a.1.metadata.isSome ∧ a.2 < version then (a.1.dropMetadata,0) else a
  if (a.1.st.node tn).fn.size ≠ 0 then (a.1.addFullDnodeToInode tn,a.2)
  else ({ a.1 with metadata := some tn },version)

/-- Devices and symbolic links keep their one node as metadata. -/
def readSpecial (c : Codecs) (f : Inode) (latest : RawInode) : Option Inode :=
  if f.metadata.isSome then none
  else
    match f.fraglist with
    | [frag] =>
      let f := { f with metadata := frag.val, fraglist := [] }
      match f.mode, frag.val with
      | .lnk, _ => some { f with isize := if f.isize = 0 then latest.dsize else f.isize }
      | _, some i =>
        match readDnode c (f.st.node i).raw 0 2 with
        | .error _ => none
        | .ok bytes => some { f with rdev := (bytes.getD 0 0).toNat + (bytes.getD 1 0).toNat * 256 }
      | _, none => none
    | _ => none

/-- `jffs2_read_inode`; `none` is a bad inode. -/
def readInode (c : Codecs) (ino : ℕ) (st : Store) (refs : List ℕ) : Option Inode :=
  let a := getInodeNodes st refs
  let f : Inode :=
    { st := a.st, mode := .reg, isize := 0, rdev := 0, highestVersion := a.highestVersion
      fraglist := [], metadata := none, dents := a.fds, mapping := fun _ => none }
  let f := (a.tns.foldl readTn (f,0)).1
  match a.tns.getLast? with
  | none => if ino ≠ 1 ∧ a.fds = [] then none else some { f with mode := .dir, isize := 0 }
  | some fn =>
    match (st.node fn).raw with
    | .dirent _ _ => none
    | .inode ri _ =>
      let f := { f with mode := ri.mode, isize := ri.isize }
      match ri.mode with
      | .reg =>
        let r := truncateFraglist f.st ri.isize f.fraglist
        some { f with fraglist := r.1, st := r.2 }
      | .blk | .chr | .lnk => readSpecial c f ri
      | _ => some f

end Simpad.Jffs2
