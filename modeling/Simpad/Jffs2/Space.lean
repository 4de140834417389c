import Simpad.Base.Places
import Simpad.Base.Runs
import Simpad.Jffs2.Node

/-! The space of the flash. An action is what is done without a break, under `erase_completion_lock` or
between two points where the thread may sleep. -/

namespace Simpad.Jffs2.Space
open Word Function

/-- A `jffs2_raw_node_ref`; `inode` says whether `next_in_ino` is set. -/
structure Ref where
  totlen : ℕ
  obsolete : Bool
  inode : Bool
deriving DecidableEq

/-- What `jffs2_eraseblock` counts, and its nodes. -/
structure Eraseblock where
  used : ℕ
  dirty : ℕ
  free : ℕ
  refs : List Ref
deriving DecidableEq

inductive BlockList
  | clean | dirty | erasing | erasePending | eraseComplete | free | bad | badUsed
deriving DecidableEq

instance : Fintype BlockList where
  elems := {.clean,.dirty,.erasing,.erasePending,.eraseComplete,.free,.bad,.badUsed}
  complete k := by cases k <;> decide

inductive Counter
  | used | dirty | free | erasing | bad
deriving DecidableEq

instance : Fintype Counter where
  elems := {.used,.dirty,.free,.erasing,.bad}
  complete k := by cases k <;> decide

/-- `marking` is the block that `jffs2_mark_erased_blocks` has taken off `erase_complete_list`;
`bug` says that a `BUG()` has been hit. -/
structure Sb where
  sectorSize : ℕ
  flashSize : ℕ
  blocks : ℕ → Eraseblock
  size : Counter → ℕ
  nrFree : ℕ
  nrErasing : ℕ
  lists : BlockList → List ℕ
  nextblock : Option ℕ
  gcblock : Option ℕ
  marking : Option ℕ
  bug : Bool

namespace Sb

/-- `list_del`: off the list it is on. -/
def listDel (c : Sb) (b : ℕ) : Sb := { c with lists := fun k => (c.lists k).erase b }

def listAdd (c : Sb) (k : BlockList) (b : ℕ) : Sb :=
  { c with lists := update c.lists k (b :: c.lists k) }

def listAddTail (c : Sb) (k : BlockList) (b : ℕ) : Sb :=
  { c with lists := update c.lists k (c.lists k ++ [b]) }

def listPop (c : Sb) (k : BlockList) : Sb :=
  { c with lists := update c.lists k (c.lists k).tail }

/-- `+=` on a counter. -/
def grow (c : Sb) (k : Counter) (x : ℕ) : Sb :=
  { c with size := update c.size k (u32 (c.size k + x)) }

/-- `-=` on a counter. -/
def shrink (c : Sb) (k : Counter) (x : ℕ) : Sb :=
  { c with size := update c.size k (sub32 (c.size k) x) }

def setBlock (c : Sb) (b : ℕ) (x : Eraseblock) : Sb :=
  { c with blocks := update c.blocks b x }

/-- `ACCT_SANITY_CHECK` passes. -/
def sane (c : Sb) (x : Eraseblock) : Bool :=
  u32 (x.used + x.dirty + x.free) = c.sectorSize ∧
  u32 (c.size .used + c.size .dirty + c.size .free + c.size .erasing + c.size .bad) = c.flashSize

end Sb

def usedOf (refs : List Ref) : ℕ := ((refs.filter fun r => !r.obsolete).map Ref.totlen).sum

/-- `ACCT_PARANOIA_CHECK` passes. -/
def Eraseblock.paranoia (x : Eraseblock) : Bool := u32 (usedOf x.refs) = x.used

def Eraseblock.addNode (x : Eraseblock) (len : ℕ) (dirty : Bool) : Eraseblock where
  used := if dirty then x.used else u32 (x.used + len)
  dirty := if dirty then u32 (x.dirty + len) else x.dirty
  free := sub32 x.free len
  refs := x.refs ++ [⟨len,dirty,!dirty⟩]

/-- The node `i` of a block becomes obsolete. -/
def Eraseblock.markObsolete (x : Eraseblock) (i totlen : ℕ) : Eraseblock where
  used := sub32 x.used totlen
  dirty := u32 (x.dirty + totlen)
  free := x.free
  refs := x.refs.modify i fun r => { r with obsolete := true }

def Eraseblock.marked (sector : ℕ) : Eraseblock :=
  let totlen := pad4 sizeofUnknownNode
  ⟨totlen,0,sub32 sector totlen,[⟨totlen,false,false⟩]⟩

section
variable (x : Eraseblock) (i len totlen : ℕ)

theorem Eraseblock.addNode_used (dirty : Bool) :
    (x.addNode len dirty).used = if dirty then x.used else u32 (x.used + len) := by
  rw [Eraseblock.addNode]

theorem Eraseblock.addNode_dirty (dirty : Bool) :
    (x.addNode len dirty).dirty = if dirty then u32 (x.dirty + len) else x.dirty := by
  rw [Eraseblock.addNode]

theorem Eraseblock.addNode_free (dirty : Bool) :
    (x.addNode len dirty).free = sub32 x.free len := by
  rw [Eraseblock.addNode]

theorem Eraseblock.markObsolete_used :
    (x.markObsolete i totlen).used = sub32 x.used totlen := by
  rw [Eraseblock.markObsolete]

theorem Eraseblock.markObsolete_dirty :
    (x.markObsolete i totlen).dirty = u32 (x.dirty + totlen) := by
  rw [Eraseblock.markObsolete]

theorem Eraseblock.markObsolete_free : (x.markObsolete i totlen).free = x.free := by
  rw [Eraseblock.markObsolete]

end

namespace Sb

/-- Skip the end of `nextblock` and file it as having some dirty space. -/
def closeNext (c : Sb) (b : ℕ) : Sb :=
  let x := c.blocks b
  { (((c.grow .dirty x.free).shrink .free x.free).setBlock b
      { x with dirty := u32 (x.dirty + x.free), free := 0 }).listAddTail .dirty b with
    nextblock := none }

def openNext (c : Sb) (b : ℕ) : Sb :=
  { c.listPop .free with nextblock := some b, nrFree := c.nrFree - 1 }

/-- `jffs2_do_reserve_space` when there is no `nextblock`; the list is `free_list`.  A block that is
not empty is tried as it is, and filed if it is too small. -/
def refill (minsize : ℕ) (c : Sb) : List ℕ → Sb
  | [] => c
  | b :: rest =>
    let x := c.blocks b
    if x.free ≠ c.sectorSize - sizeofUnknownNode ∧ x.free < minsize then
      refill minsize ((c.openNext b).closeNext b) rest
    else c.openNext b

/-- `jffs2_do_reserve_space`: afterwards `nextblock` has the place that was asked for, or the free
list is empty and the caller waits or fails. -/
def doReserveSpace (minsize : ℕ) (c : Sb) : Sb :=
  match c.nextblock with
  | some b =>
    if (c.blocks b).free < minsize then refill minsize (c.closeNext b) (c.lists .free) else c
  | none => refill minsize c (c.lists .free)

/-- `jffs2_add_physical_node_ref` for a node at `ofs`. -/
def addPhysicalNodeRef (c : Sb) (ofs len : ℕ) (dirty : Bool) : Sb :=
  let len := pad4 len
  let b := ofs / c.sectorSize
  let x := c.blocks b
  -- "argh. node added in wrong place"
  if c.nextblock ≠ some b ∨ ofs ≠ b * c.sectorSize + (c.sectorSize - x.free) then c
  else
    let y := x.addNode len dirty
    let c := ((c.shrink .free len).grow (if dirty then .dirty else .used) len).setBlock b y
    let c := if y.free = 0 ∧ y.dirty = 0 then { c.listAddTail .clean b with nextblock := none } else c
    if c.sane y && y.paranoia then c else { c with bug := true }

/-- `jffs2_mark_node_obsolete` for the node `i` of a block. -/
def markNodeObsolete (c : Sb) (b i : ℕ) : Sb :=
  let x := c.blocks b
  match x.refs[i]? with
  | none => c
  | some ref =>
    if ref.obsolete then c
    else if x.used < ref.totlen then { c with bug := true }
    else
      let y := x.markObsolete i ref.totlen
      let c := ((c.shrink .used ref.totlen).grow .dirty ref.totlen).setBlock b y
      if !(c.sane y && y.paranoia) then { c with bug := true }
      else if c.nextblock = some b ∨ c.gcblock = some b then c
      -- freshly dirtied
      else if y.dirty = ref.totlen then (c.listDel b).listAddTail .dirty b
      else c

/-- The list that `jffs2_find_gc_block` looks into. -/
def gcList (c : Sb) (jiffies : ℕ) : Option BlockList :=
  if c.lists .badUsed ≠ [] ∧ 4 < c.nrFree then some .badUsed
  else if jiffies % 100 ≠ 0 ∧ c.lists .dirty ≠ [] then some .dirty
  else if c.lists .clean ≠ [] then some .clean
  else if c.lists .dirty ≠ [] then some .dirty
  else none

def findGcBlock (c : Sb) (jiffies : ℕ) : Sb :=
  match c.gcList jiffies with
  | some k => { c.listPop k with gcblock := (c.lists k).head? }
  | none => c

/-- `eraseit` of `jffs2_garbage_collect_pass`. -/
def eraseit (c : Sb) : Sb :=
  match c.gcblock with
  | some b =>
    if (c.blocks b).used = 0 then
      { c.listAddTail .erasePending b with gcblock := none, nrErasing := c.nrErasing + 1 }
    else c
  | none => c

/-- A round of `jffs2_erase_pending_blocks`, up to `jffs2_erase_block`. -/
def startErase (c : Sb) (b : ℕ) : Sb :=
  let x := c.blocks b
  (((((c.listPop .erasePending).grow .erasing c.sectorSize).shrink .free x.free).shrink .used
    x.used).shrink .dirty x.dirty).setBlock b ⟨0,0,0,[]⟩ |>.listAdd .erasing b

theorem startErase_frame (c : Sb) (b : ℕ) : (c.startErase b).sectorSize = c.sectorSize ∧
    (c.startErase b).flashSize = c.flashSize ∧ (c.startErase b).bug = c.bug ∧
    (c.startErase b).nextblock = c.nextblock ∧
    (c.startErase b).blocks = update c.blocks b ⟨0,0,0,[]⟩ := by
  simp only [startErase,listAdd,setBlock,shrink,grow,listPop,and_self]

theorem free_startErase (c : Sb) (b : ℕ) : (c.startErase b).nrFree = c.nrFree ∧
    (c.startErase b).lists .free = c.lists .free := by
  simp only [startErase,listAdd,setBlock,shrink,grow,listPop,update_apply,reduceCtorEq,
    if_false,and_self]

theorem size_startErase (c : Sb) (b : ℕ) : (c.startErase b).size =
    ((((c.grow .erasing c.sectorSize).shrink .free (c.blocks b).free).shrink .used
      (c.blocks b).used).shrink .dirty (c.blocks b).dirty).size := by
  simp only [startErase,listAdd,setBlock,shrink,grow,listPop]

/-- `jffs2_erase_block` cannot start the erase now (no memory, or the driver says `-ENOMEM` or
`-EAGAIN`). -/
def refile (c : Sb) (b : ℕ) : Sb :=
  ((c.listDel b).listAdd .erasePending b).shrink .erasing c.sectorSize

/-- The erase fails, at once or later. -/
def eraseFailed (c : Sb) (b : ℕ) : Sb :=
  { (((c.listDel b).listAdd .bad b).grow .bad c.sectorSize).shrink .erasing c.sectorSize with
    nrErasing := c.nrErasing - 1 }

/-- `jffs2_erase_callback` for an erase that is done. -/
def eraseDone (c : Sb) (b : ℕ) : Sb := (c.listDel b).listAddTail .eraseComplete b

/-- `bad2` of `jffs2_mark_erased_blocks`. -/
def markBad (c : Sb) (b : ℕ) : Sb :=
  { ((c.shrink .erasing c.sectorSize).grow .bad c.sectorSize).listAddTail .bad b with
    marking := none
    nrErasing := c.nrErasing - 1 }

/-- The clean marker has been written. -/
def markFree (c : Sb) (b : ℕ) : Sb :=
  let y := Eraseblock.marked c.sectorSize
  let c := (((c.setBlock b y).shrink .erasing c.sectorSize).grow .free y.free).grow .used y.used
  if c.sane y && y.paranoia then
    { c.listAddTail .free b with
      marking := none
      nrErasing := c.nrErasing - 1
      nrFree := c.nrFree + 1 }
  else { c with bug := true }

end Sb

inductive Action
  | reserve (minsize : ℕ)
  | addRef (ofs len : ℕ) (dirty : Bool)
  | obsolete (b i : ℕ)
  | findGcBlock (jiffies : ℕ)
  | eraseit
  | startErase
  | refile (b : ℕ)
  | eraseFailed (b : ℕ)
  | eraseDone (b : ℕ)
  /-- a round of `jffs2_mark_erased_blocks` takes a block -/
  | markErased
  | markNoRef
  | markBad
  | markFree
deriving DecidableEq

/-- One action; `none` if the code would not take it. -/
def step (c : Sb) (a : Action) : Option Sb :=
  if c.bug then none
  else match a with
  | .reserve minsize => some (c.doReserveSpace minsize)
  | .addRef ofs len dirty => some (c.addPhysicalNodeRef ofs len dirty)
  | .obsolete b i => some (c.markNodeObsolete b i)
  | .findGcBlock jiffies => if c.gcblock = none then some (c.findGcBlock jiffies) else none
  | .eraseit => some c.eraseit
  | .startErase => (c.lists .erasePending).head?.map c.startErase
  | .refile b => if b ∈ c.lists .erasing then some (c.refile b) else none
  | .eraseFailed b => if b ∈ c.lists .erasing then some (c.eraseFailed b) else none
  | .eraseDone b => if b ∈ c.lists .erasing then some (c.eraseDone b) else none
  | .markErased =>
    if c.marking = none then
      (c.lists .eraseComplete).head?.map fun b =>
        { c.listPop .eraseComplete with marking := some b }
    else none
  -- "Come back later"
  | .markNoRef => c.marking.map fun _ => { c with marking := none }
  | .markBad => c.marking.map c.markBad
  | .markFree => c.marking.map c.markFree

/-- The callers' part: a node is not longer than what was reserved for it, and nodes without an
inode are made obsolete in the block that is collected only. -/
def Legal (c : Sb) : Action → Prop
  | .addRef ofs len _ => len ≤ (c.blocks (ofs / c.sectorSize)).free
  | .obsolete b i => c.gcblock = some b ∨ ∀ ref ∈ (c.blocks b).refs[i]?, ref.inode = true
  | _ => True

end Simpad.Jffs2.Space
