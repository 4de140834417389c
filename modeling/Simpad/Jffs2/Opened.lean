import Simpad.Jffs2.DirentMoves
import Simpad.Jffs2.Remount

namespace Simpad.Jffs2
open Word Segments List

/-- The fragment list tiles `[0,e)`, and every node that is in use has been written. -/
structure Framed (f : Inode) (e : ℕ) : Prop where
  tiles : Tiles 0 f.fraglist e
  small : e < 4294967296
  counted : CountedBy f.st (fragsOf f.fraglist)
  known : ∀ frag ∈ f.fraglist, ∀ i, frag.val = some i → i < f.st.next
  bare : ∀ m, f.metadata = some m → m < f.st.next

/-- A position is shown by a data node that was written for it. -/
def Placed (f : Inode) : Prop :=
  ∀ p i, valueAt f.fraglist p = some (some i) → ∃ ri data,
    (f.st.node i).raw = .inode ri data ∧ (f.st.node i).fn.ofs = ri.offset ∧
    ri.offset + ri.fnSize < 4294967296 ∧ ri.offset ≤ p ∧ p < ri.offset + ri.fnSize

section
variable {c : Codecs} {ino : ℕ} {st : Store} {refs : List ℕ} {f : Inode}

/-- The number of the device is that of its node. -/
def Inode.DevRead (c : Codecs) (f : Inode) : Prop :=
  ∃ m bytes, f.metadata = some m ∧ readDnode c (f.st.node m).raw 0 2 = .ok bytes ∧
    f.rdev = (bytes.getD 0 0).toNat + (bytes.getD 1 0).toNat * 256

/-- What is known of a symlink or a device. -/
structure Special (c : Codecs) (f : Inode) : Prop where
  empty : f.fraglist = []
  node : ∀ m, f.metadata = some m → ∃ ri data, (f.st.node m).raw = .inode ri data ∧
    (f.st.node m).fn.size = ri.fnSize
  dev : f.mode ≠ .lnk → f.DevRead c

def NodesFit (st : Store) (refs : List ℕ) : Prop :=
  ∀ i ∈ refs, ∀ ri data, (st.node i).obsolete = false → (st.node i).raw = .inode ri data →
    ri.offset + ri.fnSize < 4294967296

theorem NodesFit.tns (hfit : NodesFit st refs) {i : ℕ} (hi : i ∈ (getInodeNodes st refs).tns) :
    ∃ ri data, (st.node i).raw = .inode ri data ∧
      ((getInodeNodes st refs).st.node i).fn.ofs = ri.offset ∧
      ((getInodeNodes st refs).st.node i).fn.size = ri.fnSize ∧
      ri.offset + ri.fnSize < 4294967296 := by
  obtain ⟨hseen,hobs,ri,data,hraw,hofs,hsize⟩ := (getInodeNodes_gathered st refs).tns i hi
  exact ⟨ri,data,hraw,hofs,hsize,hfit i hseen ri data hobs hraw⟩

variable (h : readInode c ino st refs = some f)
include h

variable (hknown : ∀ i ∈ refs, i < st.next)
include hknown

end

end Simpad.Jffs2
