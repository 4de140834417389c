import Simpad.Jffs2.GcFramed

namespace Simpad.Jffs2
open Word Segments List

def Inode.getlink (c : Codecs) (f : Inode) : Except Errno (List Byte) :=
  match f.metadata with
  | none => .error .einval
  | some m => readDnode c (f.st.node m).raw 0 (f.st.node m).fn.size

variable {c : Codecs} {f f' : Inode} {victim : ℕ}

structure SameData (f f' : Inode) : Prop where
  mode : f'.mode = f.mode
  isize : f'.isize = f.isize
  rdev : f'.rdev = f.rdev
  fraglist : f'.fraglist = f.fraglist
  mapping : f'.mapping = f.mapping
  metadata : f'.metadata = f.metadata
  keeps : Keeps f.st f'.st

variable {mdata data : List Byte} {fd : FullDirent}

structure Moved (f : Inode) (mdata : List Byte) (f' : Inode) : Prop where
  head : SameHead f f'
  fraglist : f'.fraglist = f.fraglist
  mapping : f'.mapping = f.mapping
  metadata : f'.metadata = some f.st.next
  keeps : Keeps f.st f'.st
  raw : (f'.st.node f.st.next).raw = .inode (gcMetadataNode f mdata) mdata
  size : (f'.st.node f.st.next).fn.size = mdata.length

theorem readDnode_metadata (mdata : List Byte) :
    readDnode c (.inode (gcMetadataNode f mdata) mdata) 0 mdata.length = .ok mdata := by
  simp [readDnode,RawInode.text,gcMetadataNode]

theorem SameData.getlink (h : SameData f f') (hbare : ∀ m, f.metadata = some m → m < f.st.next) :
    f'.getlink c = f.getlink c := by
  rw [Inode.getlink,Inode.getlink,h.metadata]
  cases hm : f.metadata with
  | none => rfl
  | some m =>
    obtain ⟨hraw,-,hsize⟩ := h.keeps m (hbare m hm)
    simp only [hraw,hsize]

theorem Moved.getlink (h : Moved f mdata f') : f'.getlink c = .ok mdata := by
  rw [Inode.getlink,h.metadata]
  simp only [h.raw,h.size]
  exact readDnode_metadata mdata

/-- The victim is a data node of a regular file: what is done with it depends on the fragment list. -/
def InList (f : Inode) (victim : ℕ) : Prop :=
  f.mode = .reg ∧ f.metadata ≠ some victim ∧ victimRange f victim ≠ none

/-- What is known of an inode that `jffs2_read_inode` has opened. -/
structure Ready (c : Codecs) (f : Inode) (victim : ℕ) : Prop where
  filed : Filed f.dents
  bare : ∀ m, f.metadata = some m → m < f.st.next
  used : ∀ frag ∈ f.fraglist, ∀ i, frag.val = some i → i < f.st.next
  special : f.mode = .lnk ∨ f.mode = .blk ∨ f.mode = .chr → Special c f
  framed : InList f victim → ∃ e ≤ f.isize, Framed f e ∧ Placed f
  cached : f.mode = .reg → Cached c f

section
variable {merge : Bool} {alloc : ℕ → ℕ} {fresh : Page}
  (hlive : (f.st.node victim).obsolete = false)
  (hok : gcPass c f victim merge alloc fresh = .ok f')
include hlive hok

variable (h : Ready c f victim)
include h

end

section
variable {ino : ℕ} {st : Store} {refs : List ℕ} {mapping : ℕ → Option Page}
  (hopen : readInode c ino st refs = some f) (hnd : refs.Nodup) (hknown : ∀ i ∈ refs, i < st.next)
  (hcached : f.mode = .reg → Cached c { f with mapping := mapping })
  (hfit : InList f victim → NodesFit st refs)
include hopen hnd hknown hcached hfit

end

end Simpad.Jffs2
