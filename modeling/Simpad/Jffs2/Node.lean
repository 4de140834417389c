import Simpad.Base.Word
import Simpad.Base.Segments

/-! Nodes on flash and the references to them. A reference is named by the order in which its node was
written. -/

namespace Simpad.Jffs2
open Word Function

abbrev Byte := UInt8

inductive Errno
  | eintr | eio | eagain | enomem | einval | enospc | erofs
deriving DecidableEq, Repr

/-- The `JFFS2_COMPR_*` byte of a data node. -/
inductive Compr
  | none | zero | rtime | rubinmips | copy | dynrubin | zlib
deriving DecidableEq, Repr

/-- The `S_IFMT` part of an inode's mode. -/
inductive FileType
  | fifo | chr | dir | blk | reg | lnk | sock
deriving DecidableEq, Repr

/-- `struct jffs2_raw_inode`. -/
structure RawInode where
  totlen : ℕ
  version : ℕ
  mode : FileType
  isize : ℕ
  offset : ℕ
  csize : ℕ
  dsize : ℕ
  compr : Compr
deriving DecidableEq, Repr

/-- `struct jffs2_raw_dirent`. -/
structure RawDirent where
  version : ℕ
  ino : ℕ
  type : ℕ
deriving DecidableEq, Repr

inductive RawNode
  | inode (ri : RawInode) (data : List Byte)
  | dirent (rd : RawDirent) (name : List Byte)
deriving DecidableEq, Repr

/-- `sizeof(struct jffs2_raw_inode)`. -/
def sizeofRawInode : ℕ := 68

/-- `sizeof(struct jffs2_raw_dirent)`. -/
def sizeofRawDirent : ℕ := 40

/-- `sizeof(struct jffs2_unknown_node)`. -/
def sizeofUnknownNode : ℕ := 12

/-- `struct jffs2_full_dnode`; the raw reference is the name it is stored under. -/
structure FullDnode where
  ofs : ℕ
  size : ℕ
  frags : ℕ
deriving DecidableEq, Repr

structure Node where
  raw : RawNode
  obsolete : Bool
  fn : FullDnode
deriving DecidableEq, Repr

structure Store where
  next : ℕ
  node : ℕ → Node

namespace Store
variable (st : Store) (i j n : ℕ)

def modify (f : Node → Node) : Store :=
  { st with node := update st.node i (f (st.node i)) }

/-- Assign `fn->frags`. -/
def setFrags : Store := st.modify i fun x => { x with fn := { x.fn with frags := n } }

/-- The mark `flash_offset |= 1` of `jffs2_mark_node_obsolete`. -/
def markNodeObsolete : Store := st.modify i fun x => { x with obsolete := true }

def append (x : Node) : Store :=
  { next := st.next + 1, node := update st.node st.next x }

@[simp] theorem modify_next (f : Node → Node) : (st.modify i f).next = st.next := rfl
@[simp] theorem setFrags_next : (st.setFrags i n).next = st.next := rfl
@[simp] theorem markNodeObsolete_next : (st.markNodeObsolete i).next = st.next := rfl
@[simp] theorem append_next (x : Node) : (st.append x).next = st.next + 1 := rfl

theorem modify_node (f : Node → Node) :
    (st.modify i f).node j = if j = i then f (st.node i) else st.node j := by
  simp only [modify,update_apply]

@[simp] theorem setFrags_raw : ((st.setFrags i n).node j).raw = (st.node j).raw := by
  rw [setFrags,modify_node]
  split <;> simp_all

@[simp] theorem setFrags_obsolete :
    ((st.setFrags i n).node j).obsolete = (st.node j).obsolete := by
  rw [setFrags,modify_node]
  split <;> simp_all

theorem setFrags_fn : ((st.setFrags i n).node j).fn =
    if j = i then { (st.node i).fn with frags := n } else (st.node j).fn := by
  rw [setFrags,modify_node]
  split <;> rfl

@[simp] theorem setFrags_ofs : ((st.setFrags i n).node j).fn.ofs = (st.node j).fn.ofs := by
  rw [setFrags_fn]
  split <;> simp_all

@[simp] theorem setFrags_size : ((st.setFrags i n).node j).fn.size = (st.node j).fn.size := by
  rw [setFrags_fn]
  split <;> simp_all

@[simp] theorem markNodeObsolete_raw :
    ((st.markNodeObsolete i).node j).raw = (st.node j).raw := by
  rw [markNodeObsolete,modify_node]
  split <;> simp_all

@[simp] theorem markNodeObsolete_fn :
    ((st.markNodeObsolete i).node j).fn = (st.node j).fn := by
  rw [markNodeObsolete,modify_node]
  split <;> simp_all

theorem markNodeObsolete_obsolete : ((st.markNodeObsolete i).node j).obsolete =
    if j = i then true else (st.node j).obsolete := by
  rw [markNodeObsolete,modify_node]
  split <;> rfl

theorem append_node (x : Node) :
    (st.append x).node j = if j = st.next then x else st.node j := by
  simp only [append,update_apply]

end Store

end Simpad.Jffs2
