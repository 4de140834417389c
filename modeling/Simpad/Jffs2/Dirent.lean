import Simpad.Jffs2.Node

namespace Simpad.Jffs2
open Word

/-- `struct jffs2_full_dirent`. -/
structure FullDirent where
  raw : ℕ
  version : ℕ
  ino : ℕ
  type : ℕ
  nhash : ℕ
  name : List Byte
deriving DecidableEq, Repr

def cstring (name : List Byte) : List Byte := name.takeWhile fun b => b ≠ 0

def fullNameHash (name : List Byte) : ℕ :=
  name.foldl (fun hash b => u32 ((hash + b.toNat * 16 + b.toNat / 16) * 11)) 0

/-- `jffs2_add_fd_to_list`: the list, and the node that becomes obsolete. -/
def addFdToList (new : FullDirent) : List FullDirent → List FullDirent × Option ℕ
  | [] => ([new],none)
  | prev :: rest =>
    if prev.nhash ≤ new.nhash then
      if prev.nhash = new.nhash ∧ cstring prev.name = cstring new.name then
        if new.version < prev.version then (prev :: rest,some new.raw)
        else (new :: rest,some prev.raw)
      else
        let r := addFdToList new rest
        (prev :: r.1,r.2)
    else (new :: prev :: rest,none)

end Simpad.Jffs2
