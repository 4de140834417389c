import Simpad.Jffs2.Dirent

/-! Scanning an eraseblock. The counters of the superblock move along with those of the block and are left
out. -/

namespace Simpad.Jffs2.Scan
open Word

/-- An entry of `crc32_table`. -/
def crc32Table (i : UInt32) : UInt32 :=
  Nat.repeat (fun c => if c &&& 1 = 1 then (c >>> 1) ^^^ 0xedb88320 else c >>> 1) 8 i

def crc32 (val : UInt32) (s : List Byte) : UInt32 :=
  s.foldl (fun val b => crc32Table ((val ^^^ b.toUInt32) &&& 0xff) ^^^ (val >>> 8)) val

structure Flash where
  size : ℕ
  byte : ℕ → Byte

/-- `mtd->read`; none if it fails or comes short. -/
def Flash.read (f : Flash) (ofs len : ℕ) : Option (List Byte) :=
  if ofs + len ≤ f.size then some ((List.range' ofs len).map f.byte) else none

/-- What `mtd->read` puts into the buffer, whatever it returns: a partition ends where its last
block ends. -/
def Flash.delivered (f : Flash) (ofs len : ℕ) : ℕ := min len (f.size - ofs)

/-- The block that is scanned, and whether the mount is read-only. -/
structure Block where
  offset : ℕ
  sectorSize : ℕ
  flash : Flash
  rdonly : Bool

/-- `jeb->offset + c->sector_size`. -/
def Block.stop (b : Block) : ℕ := b.offset + b.sectorSize

/-- The little-endian field of `n` bytes at `i`. -/
def field (l : List Byte) (i n : ℕ) : ℕ :=
  ((l.drop i).take n).foldr (fun b k => b.toNat + 256 * k) 0

/-- `nodetype |= JFFS2_NODE_ACCURATE` in a node. -/
def setAccurate (l : List Byte) : List Byte := l.modify 3 fun b => b ||| 0x20

/-- A `jffs2_raw_node_ref` of the block. -/
structure Ref where
  ofs : ℕ
  totlen : ℕ
  obsolete : Bool
deriving DecidableEq

/-- The variables of the scan.  An entry of `dents` has as `raw` one more than the number of its
reference in `refs`, or zero if it was found in another block; of the data nodes of an inode
`tmpnodes` has the versions. -/
structure State where
  ofs : ℕ
  prevofs : ℕ
  used : ℕ
  dirty : ℕ
  free : ℕ
  refs : List Ref
  tmpnodes : ℕ → List ℕ
  dents : ℕ → List FullDirent

/-- How the scan ends: it returns 0 or 1 with its variables, or an error, it stops at a `BUG()`,
or it writes behind the end of a buffer. -/
inductive Stop
  | done (ret : ℕ) (s : State)
  | err (e : Errno)
  | bug
  | overrun

def State.dirtySpace (s : State) (x : ℕ) : State :=
  { s with free := sub32 s.free x, dirty := u32 (s.dirty + x) }

def State.usedSpace (s : State) (x : ℕ) : State :=
  { s with free := sub32 s.free x, used := u32 (s.used + x) }

/-- `ofs += x`. -/
def State.advance (s : State) (x : ℕ) : State := { s with ofs := u32 (s.ofs + x) }

def usedOf (refs : List Ref) : ℕ := ((refs.filter fun r => !r.obsolete).map Ref.totlen).sum

/-- `ACCT_PARANOIA_CHECK`. -/
def State.paranoia (s : State) : Bool := u32 (usedOf s.refs) = s.used

/-- `jffs2_mark_node_obsolete` for a reference of the scan, while mounting; the counters of
another block are not looked at. -/
def State.markNodeObsolete (b : Block) (s : State) (i : ℕ) : Except Stop State :=
  match s.refs[i]? with
  | none => .ok s
  | some ref =>
    let refs : List Ref := s.refs.modify i fun r => { r with obsolete := true }
    if ref.obsolete then .ok s
    else if ref.ofs < b.offset ∨ b.stop ≤ ref.ofs then .ok { s with refs := refs }
    else if s.used < ref.totlen then .error .bug
    else
      let t : State := { s with
        used := sub32 s.used ref.totlen
        dirty := u32 (s.dirty + ref.totlen)
        refs := refs }
      if t.paranoia then .ok t else .error .bug

/-- The word at `p` is erased. -/
def Block.erased (b : Block) (p : ℕ) : Bool := (List.range' p 4).all fun i => b.flash.byte i = 0xff

/-- The first of `n` words that is not erased. -/
def Block.emptyFrom (b : Block) : ℕ → ℕ → ℕ
  | 0, p => p
  | n + 1, p => if b.erased p then b.emptyFrom n (p + 4) else p

/-- `jffs2_scan_empty`; `ok` says whether memory is to be had. -/
def scanEmpty (b : Block) (ok : Bool) (s : State) : Except Stop State :=
  if !ok then .error (.err .enomem)
  else
    let curofs := b.emptyFrom ((b.stop - s.ofs) / 4) s.ofs
    if curofs = b.stop then .ok { s with ofs := curofs }
    else .ok { s.dirtySpace (curofs - s.ofs) with ofs := curofs }

/-- File a data node: the tail of `jffs2_scan_inode_node`. -/
def fileInode (s : State) (totlen ino version : ℕ) (accurate : Bool) : State :=
  let dup := (s.tmpnodes ino).any fun v => v = version
  let accurate := accurate && !(dup && s.used = 0)
  let t : State := { s with refs := s.refs ++ [⟨s.ofs,pad4 totlen,!accurate⟩] }
  if accurate then
    ({ t.usedSpace (pad4 totlen) with
      tmpnodes := Function.update s.tmpnodes ino (version :: s.tmpnodes ino) } : State).advance
      (pad4 totlen)
  else (t.dirtySpace (pad4 totlen)).advance (pad4 totlen)

def scanInodeNode (b : Block) (ok : Bool) (s : State) : Except Stop State :=
  match b.flash.read s.ofs sizeofRawInode with
  | none => .error (.err .eio)
  | some ri =>
    let totlen := field ri 4 4
    if (crc32 0 ((setAccurate ri).take 60)).toNat ≠ field ri 64 4 then
      .ok ((s.dirtySpace 4).advance 4)
    else
      -- hole nodes were once written with csize and dsize swapped
      let csize := if field ri 56 1 = 1 ∧ field ri 52 4 = 0 then 0 else field ri 48 4
      let file : Except Stop State :=
        if !ok then .error (.err .enomem)
        else .ok (fileInode s totlen (field ri 12 4) (field ri 16 4) (field ri 2 2 &&& 0x2000 != 0))
      if csize = 0 then file
      else if !ok then .error (.err .enomem)
      else if 4096 < b.flash.delivered (u32 (s.ofs + sizeofRawInode)) csize then .error .overrun
      else
        match b.flash.read (u32 (s.ofs + sizeofRawInode)) csize with
        | none => .error (.err .eio)
        | some data =>
          if (crc32 0 data).toNat ≠ field ri 60 4 then
            .ok ((s.dirtySpace (pad4 totlen)).advance (pad4 totlen))
          else file

/-- File an entry: the tail of `jffs2_scan_dirent_node`. -/
def fileDirent (b : Block) (s : State) (totlen pino version ino type : ℕ) (name : List Byte)
    (accurate : Bool) : Except Stop State :=
  let t : State := { s with refs := s.refs ++ [⟨s.ofs,pad4 totlen,!accurate⟩] }
  if accurate then
    let r := addFdToList ⟨s.refs.length + 1,version,ino,type,fullNameHash name,name⟩ (s.dents pino)
    let t : State := { t.usedSpace (pad4 totlen) with dents := Function.update s.dents pino r.1 }
    match r.2 with
    | some (i + 1) => (t.markNodeObsolete b i).map fun t => t.advance (pad4 totlen)
    | _ => .ok (t.advance (pad4 totlen))
  else .ok ((t.dirtySpace (pad4 totlen)).advance (pad4 totlen))

def scanDirentNode (b : Block) (ok : Bool) (s : State) : Except Stop State :=
  match b.flash.read s.ofs sizeofRawDirent with
  | none => .error (.err .eio)
  | some rd =>
    let totlen := field rd 4 4
    if (crc32 0 ((setAccurate rd).take 32)).toNat ≠ field rd 32 4 then
      .ok ((s.dirtySpace 4).advance 4)
    else if !ok then .error (.err .enomem)
    else
      match b.flash.read (u32 (s.ofs + sizeofRawDirent)) (field rd 28 1) with
      | none => .error (.err .eio)
      | some name =>
        if (crc32 0 name).toNat ≠ field rd 36 4 then
          .ok ((s.dirtySpace (pad4 totlen)).advance (pad4 totlen))
        else
          fileDirent b s totlen (field rd 12 4) (field rd 16 4) (field rd 20 4) (field rd 29 1) name
            (field rd 2 2 &&& 0x2000 != 0)

def scanCleanmarker (ok : Bool) (s : State) (totlen : ℕ) : Except Stop State :=
  if totlen ≠ sizeofUnknownNode ∨ s.refs ≠ [] then
    .ok ((s.dirtySpace (pad4 sizeofUnknownNode)).advance (pad4 sizeofUnknownNode))
  else if !ok then .error (.err .enomem)
  else
    .ok ((({ s with refs := [⟨s.ofs,sizeofUnknownNode,false⟩] } : State).usedSpace
      (pad4 sizeofUnknownNode)).advance (pad4 sizeofUnknownNode))

inductive NodeKind
  | inode | dirent | cleanmarker | rocompat | incompat | rwcompatDelete | rwcompatCopy
deriving DecidableEq

def nodeKind (nodetype : ℕ) : NodeKind :=
  if nodetype ||| 0x2000 = 0xe002 then .inode
  else if nodetype ||| 0x2000 = 0xe001 then .dirent
  else if nodetype ||| 0x2000 = 0x2003 then .cleanmarker
  else if nodetype &&& 0xc000 = 0x8000 then .rocompat
  else if nodetype &&& 0xc000 = 0xc000 then .incompat
  else if nodetype &&& 0xc000 = 0x0000 then .rwcompatDelete
  else .rwcompatCopy

def scanNode (b : Block) (ok : Bool) (s : State) (node : List Byte) : Except Stop State :=
  let totlen := field node 4 4
  if (crc32 0 ((setAccurate node).take 8)).toNat ≠ field node 8 4 then
    .ok ((s.dirtySpace 4).advance 4)
  else
    match nodeKind (field node 2 2) with
    | .inode => scanInodeNode b ok s
    | .dirent => scanDirentNode b ok s
    | .cleanmarker => scanCleanmarker ok s totlen
    | .rocompat =>
      if !b.rdonly then .error (.err .erofs)
      else .ok ((s.dirtySpace (pad4 totlen)).advance (pad4 totlen))
    | .incompat => .error (.err .einval)
    | .rwcompatDelete => .ok ((s.dirtySpace (pad4 totlen)).advance (pad4 totlen))
    | .rwcompatCopy => .ok ((s.usedSpace (pad4 totlen)).advance (pad4 totlen))

/-- One round of the loop of `jffs2_scan_eraseblock`. -/
def step (b : Block) (ok : Bool) (s : State) : Except Stop State :=
  if b.stop ≤ s.ofs then .error (.done 0 s)
  else if !s.paranoia then .error .bug
  else if s.ofs % 4 ≠ 0 then .ok { s with ofs := pad4 s.ofs }
  else if s.ofs = s.prevofs then .ok ((s.dirtySpace 4).advance 4)
  else
    let s : State := { s with prevofs := s.ofs }
    if b.stop < u32 (s.ofs + sizeofUnknownNode) then
      .error (.done 0 (s.dirtySpace (b.stop - s.ofs)))
    else
      match b.flash.read s.ofs sizeofUnknownNode with
      | none => .error (.err .eio)
      | some node =>
        if field node 0 2 = 0xffff ∧ field node 2 2 = 0xffff then scanEmpty b ok s
        -- a dirty, old, reversed or any other magic
        else if field node 0 2 ≠ 0x1985 then .ok ((s.dirtySpace 4).advance 4)
        else scanNode b ok s node

/-- The variables when the scan of a block starts, with what the blocks before have left. -/
def Block.init (b : Block) (tmpnodes : ℕ → List ℕ) (dents : ℕ → List FullDirent) : State :=
  ⟨b.offset,sub32 b.offset 1,0,0,b.sectorSize,[],tmpnodes,dents⟩

/-- Up to the loop: an empty block is left with 1. -/
def start (b : Block) (ok : Bool) (s : State) : Except Stop State :=
  (scanEmpty b ok s).bind fun t => if t.ofs = b.stop then .error (.done 1 t) else .ok t

/-- `jffs2_scan_eraseblock` after `n` rounds; `mem k` says whether memory is to be had the `k`-th
time. -/
def scanEraseblock (b : Block) (mem : ℕ → Bool) (s : State) : ℕ → Except Stop State
  | 0 => start b (mem 0) s
  | n + 1 => (scanEraseblock b mem s n).bind (step b (mem (n + 1)))

end Simpad.Jffs2.Scan
