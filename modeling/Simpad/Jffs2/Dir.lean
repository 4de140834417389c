import Simpad.Jffs2.Direntlist

/-! The directory operations on inodes that are not directories, as the VFS calls them: a dentry is positive
exactly when its directory has an entry with an inode number. -/

namespace Simpad.Jffs2.Links
open Word Function

structure Dir where
  dents : List FullDirent
  highestVersion : ℕ

/-- An inode in core; `nlink` is that of its `inocache`, none when it has none. -/
structure VfsInode where
  mode : ℕ
  iNlink : BitVec 16
  nlink : Option ℤ

structure Fs where
  dirs : List Dir
  inodes : ℕ → Option VfsInode
  highestIno : ℕ

/-- How the writing of an entry goes: its node is written at an offset, memory or space is
refused, or `jffs2_write_dirent` fails. -/
inductive Outcome
  | ok (raw : ℕ)
  | refused
  | failed

def sIsdir (mode : ℕ) : Bool := mode &&& 0o170000 == 0o040000

def dtUnknown : ℕ := 0

def dtReg : ℕ := 8

/-- The `type` that `jffs2_do_link` gives to an entry. -/
def linkType (mode : ℕ) : ℕ :=
  let type := (mode &&& 0o170000) >>> 12
  if type = 0 then dtReg else type

/-- Write an entry and file it, and whether this went well. -/
def Dir.write (dir : Dir) (ino type : ℕ) (name : List Byte) : Outcome → Dir × Bool
  | .refused => (dir,false)
  | .failed => (⟨dir.dents,u32 (dir.highestVersion + 1)⟩,false)
  | .ok raw =>
    let version := u32 (dir.highestVersion + 1)
    (⟨(addFdToList ⟨raw,version,ino,type,fullNameHash (cstring name),name⟩ dir.dents).1,version⟩,true)

def Fs.write (s : Fs) (d ino type : ℕ) (name : List Byte) (o : Outcome) : Fs × Bool :=
  match s.dirs[d]? with
  | none => (s,false)
  | some dir =>
    ({ s with dirs := s.dirs.modify d fun dir => (dir.write ino type name o).1 },
      (dir.write ino type name o).2)

/-- Set `i_nlink` and `inocache->nlink`; none when `inocache` is `NULL`. -/
def Fs.setNlink (s : Fs) (ino : ℕ) (f : BitVec 16 → ℤ → BitVec 16 × ℤ) : Option Fs :=
  (s.inodes ino).bind fun i => i.nlink.map fun n =>
    { s with
      inodes := update s.inodes ino
        (some ⟨i.mode,(f i.iNlink n).1,some (f i.iNlink n).2⟩) }

/-- `jffs2_do_unlink` of an inode that has no entries of its own. -/
def Fs.doUnlink (s : Fs) (d : ℕ) (name : List Byte) (ino : ℕ) (rename : Bool) (o : Outcome) :
    Option (Fs × Bool) :=
  let r := s.write d 0 dtUnknown name o
  if r.2 ∧ !rename then (r.1.setNlink ino fun i n => (i - 1,n - 1)).map fun t => (t,true)
  else some r

def Fs.doLink (s : Fs) (ino d : ℕ) (name : List Byte) (rename : Bool) (o : Outcome) :
    Option (Fs × Bool) :=
  (s.inodes ino).bind fun i =>
    let r := s.write d ino (linkType i.mode) name o
    if r.2 ∧ !rename then
      (r.1.setNlink ino fun _ n => (BitVec.ofInt 16 (n + 1),n + 1)).map fun t => (t,true)
    else some r

/-- `jffs2_link`. -/
def Fs.link (s : Fs) (ino d : ℕ) (name : List Byte) (o : Outcome) : Option (Fs × Bool) :=
  (s.inodes ino).bind fun i => if sIsdir i.mode then some (s,false) else s.doLink ino d name false o

/-- Take a link from the inode that a rename replaces. -/
def Fs.killVictim (s : Fs) (v : ℕ) : Fs :=
  { s with
    inodes := update s.inodes v
      ((s.inodes v).map fun i => ⟨i.mode,i.iNlink - 1,i.nlink.map fun n => n - 1⟩) }

/-- `jffs2_rename` of an inode that is not a directory; `victim` is the inode of the new name. -/
def Fs.rename (s : Fs) (ino : ℕ) (victim : Option ℕ) (oldDir : ℕ) (oldName : List Byte)
    (newDir : ℕ) (newName : List Byte) (o₁ o₂ : Outcome) : Option (Fs × Bool) :=
  (s.doLink ino newDir newName true o₁).bind fun r =>
    if !r.2 then some r
    else
      let t := victim.elim r.1 r.1.killVictim
      (t.doUnlink oldDir oldName ino true o₂).bind fun u =>
        if u.2 then some u
        else (u.1.setNlink ino fun _ n => (BitVec.ofInt 16 n,n + 1)).map fun v => (v,false)

/-- How far `jffs2_create` gets: not to an inode, to one whose node is not written, or to
the entry. -/
inductive Creation
  | refused
  | inodeFailed
  | dirent (o : Outcome)

/-- The inode of `jffs2_new_inode`. -/
def Fs.newInode (s : Fs) (mode : ℕ) : Fs :=
  { s with
    inodes := update s.inodes (u32 (s.highestIno + 1)) (some ⟨mode,1,some 1⟩)
    highestIno := u32 (s.highestIno + 1) }

def Fs.create (s : Fs) (d : ℕ) (name : List Byte) (mode : ℕ) : Creation → Fs × Bool
  | .refused => (s,false)
  | .inodeFailed => (s.newInode mode,false)
  | .dirent o => (s.newInode mode).write d (s.newInode mode).highestIno dtReg name o

def Fs.find (s : Fs) (d : ℕ) (name : List Byte) : Option ℕ :=
  s.dirs[d]?.bind fun dir => (lookup dir.dents name).bind fun fd =>
    if fd.ino = 0 then none else some fd.ino

inductive Op
  | create (d : ℕ) (name : List Byte) (mode : ℕ) (o : Creation)
  | link (oldDir : ℕ) (oldName : List Byte) (d : ℕ) (name : List Byte) (o : Outcome)
  | unlink (d : ℕ) (name : List Byte) (o : Outcome)
  | rename (oldDir : ℕ) (oldName : List Byte) (d : ℕ) (name : List Byte) (o₁ o₂ : Outcome)

def Fs.isDir (s : Fs) (ino : ℕ) : Bool := (s.inodes ino).any fun i => sIsdir i.mode

/-- One call, with the checks of the VFS before it: a name has no zero byte, a new one is not
in use, and a rename to a link of the same inode does nothing. -/
def step (s : Fs) : Op → Option Fs
  | .create d name mode o =>
    if 0 ∉ name ∧ s.find d name = none then some (s.create d name mode o).1 else none
  | .link oldDir oldName d name o =>
    (s.find oldDir oldName).bind fun ino =>
      if 0 ∉ name ∧ s.find d name = none then (s.link ino d name o).map Prod.fst else none
  | .unlink d name o =>
    (s.find d name).bind fun ino =>
      if 0 ∉ name ∧ s.isDir ino = false then (s.doUnlink d name ino false o).map Prod.fst else none
  | .rename oldDir oldName d name o₁ o₂ =>
    (s.find oldDir oldName).bind fun ino =>
      if s.find d name = some ino then some s
      else if 0 ∉ oldName ∧ 0 ∉ name ∧ s.isDir ino = false ∧
          (∀ v ∈ s.find d name, s.isDir v = false) then
        (s.rename ino (s.find d name) oldDir oldName d name o₁ o₂).map Prod.fst
      else none

def Fs.links (s : Fs) (k : ℕ) : ℕ := (s.dirs.map fun dir => count k dir.dents).sum

end Simpad.Jffs2.Links
