import Simpad.Jffs2.Dirent
import Simpad.Jffs2.Space

/-! Writing a node. The pieces go to the flash driver one by one; references are named by their address. -/

namespace Simpad.Jffs2.WriteNode
open Word List Function

/-- A piece of the iovec list and what `mtd->write` answers when it is asked to write it. -/
structure Piece where
  len : ℕ
  ret : ℤ
  thislen : ℕ
  le : thislen ≤ len
deriving DecidableEq

/-- The driver fails, or writes less than the piece. -/
def Piece.Fails (p : Piece) : Prop := p.ret ≠ 0 ∨ p.thislen ≠ p.len

instance : DecidablePred Piece.Fails := fun _ => inferInstanceAs (Decidable (_ ∨ _))

structure Written where
  ret : ℤ
  retlen : ℕ
  ranges : List (ℕ × ℕ)
deriving DecidableEq

/-- The loop of `mtd_fake_writev`.  The result of `mtd->write` is not assigned to `ret`. -/
def fakeWritevLoop (ret : ℤ) (totlen : ℕ) (ranges : List (ℕ × ℕ)) (ofs : ℕ) :
    List Piece → Written
  | [] => ⟨ret,totlen,ranges⟩
  | p :: vecs =>
    let totlen := u32 (totlen + p.thislen)
    let ranges := ranges ++ [(ofs,p.thislen)]
    if ret ≠ 0 ∨ p.thislen ≠ p.len then ⟨ret,totlen,ranges⟩
    else fakeWritevLoop ret totlen ranges (ofs + p.len) vecs

def fakeWritev (vecs : List Piece) (ofs : ℕ) : Written := fakeWritevLoop 0 0 [] ofs vecs

/-- The ranges follow one another from `ofs` on. -/
def Contiguous (ofs : ℕ) : List (ℕ × ℕ) → Prop
  | [] => True
  | r :: rs => r.1 = ofs ∧ Contiguous (ofs + r.2) rs

def bytes (ranges : List (ℕ × ℕ)) : ℕ := (ranges.map Prod.snd).sum

def total (vecs : List Piece) : ℕ := (vecs.map Piece.len).sum

/-- What reaches the medium: the pieces up to the first one that is cut short. -/
def written : List Piece → ℕ
  | [] => 0
  | p :: vecs => p.thislen + if p.thislen ≠ p.len then 0 else written vecs

structure Truthful (vecs : List Piece) (ofs : ℕ) (w : Written) : Prop where
  complete : w.ret = 0 ∧ w.retlen = total vecs ↔ ∀ p ∈ vecs, ¬p.Fails
  error : ∀ p ∈ vecs.find? (fun p => p.Fails), w.ret = p.ret
  contiguous : Contiguous ofs w.ranges
  retlen : w.retlen = bytes w.ranges

theorem fakeWritevLoop_spec (totlen : ℕ) (ranges : List (ℕ × ℕ)) (ofs : ℕ) (vecs : List Piece) :
    ∃ more, fakeWritevLoop 0 (u32 totlen) ranges ofs vecs =
        ⟨0,u32 (totlen + written vecs),ranges ++ more⟩ ∧
      Contiguous ofs more ∧ bytes more = written vecs := by
  induction vecs generalizing totlen ranges ofs with
  | nil => exact ⟨[],by simp [fakeWritevLoop,written],trivial,rfl⟩
  | cons p vecs ih =>
    have hmod : u32 (u32 totlen + p.thislen) = u32 (totlen + p.thislen) := Nat.mod_add_mod _ _ _
    rw [fakeWritevLoop,written]
    by_cases hp : p.thislen = p.len
    · obtain ⟨more,hloop,hcont,hbytes⟩ :=
        ih (totlen + p.thislen) (ranges ++ [(ofs,p.thislen)]) (ofs + p.len)
      refine ⟨(ofs,p.thislen) :: more,?_,⟨rfl,hp ▸ hcont⟩,?_⟩
      · grind
      · simpa [bytes,hp] using hbytes
    · exact ⟨[(ofs,p.thislen)],by simp [hp,hmod],⟨rfl,trivial⟩,by simp [bytes,hp]⟩

theorem fakeWritev_spec (vecs : List Piece) (ofs : ℕ) :
    (fakeWritev vecs ofs).ret = 0 ∧ (fakeWritev vecs ofs).retlen = u32 (written vecs) ∧
      Contiguous ofs (fakeWritev vecs ofs).ranges ∧
      bytes (fakeWritev vecs ofs).ranges = written vecs := by
  obtain ⟨more,hloop,hcont,hbytes⟩ := fakeWritevLoop_spec 0 [] ofs vecs
  have h : fakeWritev vecs ofs = ⟨0,u32 (0 + written vecs),[] ++ more⟩ := hloop
  grind

theorem written_eq_total {vecs : List Piece} :
    written vecs = total vecs ↔ ∀ p ∈ vecs, p.thislen = p.len := by
  induction vecs with
  | nil => simp [written,total]
  | cons p vecs ih =>
    have hp := p.le
    have ht : total (p :: vecs) = p.len + total vecs := sum_cons
    rw [forall_mem_cons,← ih,written,ht]
    split <;> omega

theorem fakeWritev_truthful (vecs : List Piece) (ofs : ℕ) :
    Truthful vecs ofs (fakeWritev vecs ofs) ↔
      (∀ p ∈ vecs.find? (fun p => p.Fails), p.ret = 0) ∧ written vecs < 4294967296 := by
  obtain ⟨hret,hlen,hcont,hbytes⟩ := fakeWritev_spec vecs ofs
  constructor
  · intro h
    refine ⟨fun p hp => (h.error p hp).symm.trans hret,?_⟩
    rw [← hbytes,← h.retlen,hlen]
    exact u32_lt _
  · rintro ⟨hfirst,hlt⟩
    rw [u32_of_lt hlt] at hlen
    refine ⟨?_,fun p hp => hret.trans (hfirst p hp).symm,hcont,hlen.trans hbytes.symm⟩
    rw [hret,hlen,eq_self,true_and,written_eq_total]
    refine ⟨fun hfull p hp hfails => ?_,fun h p hp => not_not.mp fun hs => h p hp (Or.inr hs)⟩
    -- the first piece that fails would be a full one with result 0
    cases hq : vecs.find? (fun p => p.Fails) with
    | none =>
      have hno := find?_eq_none.mp hq p hp
      exact hno (decide_eq_true hfails)
    | some q =>
      have hqf := @List.find?_some _ (fun p : Piece => p.Fails) _ _ hq
      have hqfull := hfull q (mem_of_find?_eq_some hq)
      exact (of_decide_eq_true hqf).elim (fun h => h (hfirst q hq)) (fun h => h hqfull)

/-- The header of a directory entry is written, its name is not: the error is lost. -/
theorem fakeWritev_error_lost :
    fakeWritev [⟨40,0,40,le_rfl⟩,⟨5,-5,0,Nat.zero_le _⟩] 0 = ⟨0,40,[(0,40),(40,0)]⟩ ∧
      ¬Truthful [⟨40,0,40,le_rfl⟩,⟨5,-5,0,Nat.zero_le _⟩] 0
        (fakeWritev [⟨40,0,40,le_rfl⟩,⟨5,-5,0,Nat.zero_le _⟩] 0) := by
  refine ⟨by decide,fun h => ?_⟩
  have he := h.error ⟨5,-5,0,Nat.zero_le _⟩ (by decide)
  exact absurd he (by decide)

/-- A `jffs2_raw_node_ref`; bit 0 of `flashOffset` marks an obsolete node. -/
structure RawRef where
  flashOffset : ℕ
  totlen : ℕ
deriving DecidableEq

/-- `flash_offset & ~3`. -/
def RawRef.offset (r : RawRef) : ℕ := r.flashOffset / 4 * 4

def RawRef.obsolete (r : RawRef) : Bool := r.flashOffset % 2 = 1

/-- `flash_offset |= 1`. -/
def RawRef.mark (r : RawRef) : RawRef := { r with flashOffset := r.flashOffset / 2 * 2 + 1 }

@[simp] theorem RawRef.mark_offset (r : RawRef) : r.mark.offset = r.offset := by
  show (r.flashOffset / 2 * 2 + 1) / 4 * 4 = r.flashOffset / 4 * 4
  omega

@[simp] theorem RawRef.mark_obsolete (r : RawRef) : r.mark.obsolete = true := by
  show decide ((r.flashOffset / 2 * 2 + 1) % 2 = 1) = true
  exact decide_eq_true (by omega)

/-- The references in memory, those on `inocache->nodes` of one inode and those of each eraseblock
from `first_node` to `last_node`. -/
structure Nodes where
  sb : Space.Sb
  ref : ℕ → Option RawRef
  chain : List ℕ
  phys : ℕ → List ℕ

namespace Nodes
variable (s : Nodes) (raw : ℕ)

def blockOf (r : RawRef) : ℕ := r.offset / s.sb.sectorSize

/-- Where the next node is expected: at the free end of `nextblock`. -/
def AtTail (ofs : ℕ) : Prop :=
  s.sb.nextblock = some (ofs / s.sb.sectorSize) ∧
    ofs = ofs / s.sb.sectorSize * s.sb.sectorSize +
      (s.sb.sectorSize - (s.sb.blocks (ofs / s.sb.sectorSize)).free)

instance (ofs : ℕ) : Decidable (s.AtTail ofs) := inferInstanceAs (Decidable (_ ∧ _))

/-- `jffs2_free_raw_node_ref`. -/
def freeRef : Nodes := { s with ref := update s.ref raw none }

def newRef (r : RawRef) : Nodes := { s with ref := update s.ref raw (some r) }

/-- `raw->next_in_ino = f->inocache->nodes; f->inocache->nodes = raw`. -/
def link : Nodes := { s with chain := raw :: s.chain }

def addPhysicalNodeRef (len : ℕ) (dirty : Bool) : Nodes :=
  match s.ref raw with
  | none => s
  | some r =>
    -- "argh. node added in wrong place"
    if ¬s.AtTail r.offset then s.freeRef raw
    else
      { s with
        sb := s.sb.addPhysicalNodeRef r.offset len dirty
        ref := update s.ref raw (some (if dirty then r.mark else r))
        phys := update s.phys (s.blockOf r) (s.phys (s.blockOf r) ++ [raw]) }

def markNodeObsolete : Nodes :=
  match s.ref raw with
  | none => s
  | some r =>
    if r.obsolete then s
    else
      { s with
        sb := s.sb.markNodeObsolete (s.blockOf r) ((s.phys (s.blockOf r)).idxOf raw)
        ref := update s.ref raw (some r.mark) }

/-- A write has failed: the space is dirty, unless the driver says that nothing was written. -/
def discard (len retlen : ℕ) : Nodes :=
  if retlen ≠ 0 then (s.addPhysicalNodeRef raw len true).markNodeObsolete raw else s.freeRef raw

/-- Every reference of the inode is allocated, and on the list of its eraseblock. -/
def Linked : Prop := ∀ a ∈ s.chain, ∃ r, s.ref a = some r ∧ a ∈ s.phys (s.blockOf r)

end Nodes

/-- How the allocators and the driver answer: the address of the new reference, whether there is
memory for the in-core node, and the result of `mtd_writev`. -/
structure Answers where
  raw : Option ℕ
  full : Bool
  ret : ℤ
  retlen : ℕ
deriving DecidableEq

def enomem : ℤ := -12

/-- `ERR_PTR(ret?ret:-EIO)`. -/
def writeError (ret : ℤ) : ℤ := if ret ≠ 0 then ret else -5

/-- `jffs2_write_dirent`; the dirent's `raw` is the address of its reference. -/
def writeDirent (s : Nodes) (rd : RawDirent) (totlen : ℕ) (name : List Byte) (flashOfs : ℕ)
    (e : Answers) : Nodes × Except ℤ FullDirent :=
  match e.raw with
  | none => (s,.error enomem)
  | some raw =>
    if ¬e.full then (s,.error enomem)
    else
      -- linked before it is written
      let s := (s.newRef raw ⟨flashOfs,pad4 totlen⟩).link raw
      let fd : FullDirent :=
        ⟨raw,rd.version,rd.ino,rd.type,fullNameHash (cstring name),name⟩
      if e.ret ≠ 0 ∨ e.retlen ≠ sizeofRawDirent + name.length then
        (s.discard raw (sizeofRawDirent + name.length) e.retlen,.error (writeError e.ret))
      else (s.addPhysicalNodeRef raw e.retlen false,.ok fd)

theorem sectorSize_addPhysicalNodeRef (c : Space.Sb) (ofs len : ℕ) (dirty : Bool) :
    (c.addPhysicalNodeRef ofs len dirty).sectorSize = c.sectorSize := by
  simp only [Space.Sb.addPhysicalNodeRef]
  split_ifs <;> rfl

namespace Nodes
variable {s : Nodes} {raw len retlen : ℕ} {dirty : Bool} {r : RawRef}

theorem addPhysicalNodeRef_atTail (hr : s.ref raw = some r) (ht : s.AtTail r.offset) :
    s.addPhysicalNodeRef raw len dirty =
      { s with
        sb := s.sb.addPhysicalNodeRef r.offset len dirty
        ref := update s.ref raw (some (if dirty then r.mark else r))
        phys := update s.phys (s.blockOf r) (s.phys (s.blockOf r) ++ [raw]) } := by
  rw [addPhysicalNodeRef,hr]
  exact if_neg (not_not.mpr ht)

theorem addPhysicalNodeRef_misplaced (hr : s.ref raw = some r) (ht : ¬s.AtTail r.offset) :
    s.addPhysicalNodeRef raw len dirty = s.freeRef raw := by
  rw [addPhysicalNodeRef,hr]
  exact if_pos ht

theorem discard_atTail (hr : s.ref raw = some r) (ht : s.AtTail r.offset) (hn : retlen ≠ 0) :
    s.discard raw len retlen = s.addPhysicalNodeRef raw len true := by
  have hadd := @addPhysicalNodeRef_atTail s raw len true r hr ht
  have href : (s.addPhysicalNodeRef raw len true).ref raw = some r.mark := by
    simp [hadd]
  simp [discard,if_pos hn,markNodeObsolete,href]

theorem discard_freed (hr : s.ref raw = some r) (h : retlen = 0 ∨ ¬s.AtTail r.offset) :
    s.discard raw len retlen = s.freeRef raw := by
  have hnone : (s.freeRef raw).ref raw = none := update_self _ _ _
  by_cases hn : retlen = 0
  · rw [discard,if_neg (not_not.mpr hn)]
  · rw [discard,if_pos hn,addPhysicalNodeRef_misplaced hr (h.resolve_left hn),markNodeObsolete,
      hnone]

theorem Linked.newRef (h : s.Linked) (hraw : s.ref raw = none) : (s.newRef raw r).Linked := by
  intro a ha
  obtain ⟨x,hx,hp⟩ := h a ha
  have hne : a ≠ raw := by
    grind
  exact ⟨x,(update_of_ne hne _ _).trans hx,hp⟩

theorem not_linked_freeRef (hraw : raw ∈ s.chain) : ¬(s.freeRef raw).Linked := by
  intro h
  obtain ⟨x,hx,-⟩ := h raw hraw
  have hnone : (s.freeRef raw).ref raw = none := update_self _ _ _
  rw [hnone] at hx
  cases hx

/-- Added in its place, a reference is on the list of its eraseblock; the others stay where they
are. -/
theorem linked_addPhysicalNodeRef (hr : s.ref raw = some r) (ht : s.AtTail r.offset)
    (h : ∀ a ∈ s.chain, a ≠ raw → ∃ x, s.ref a = some x ∧ a ∈ s.phys (s.blockOf x)) :
    (s.addPhysicalNodeRef raw len dirty).Linked := by
  rw [addPhysicalNodeRef_atTail hr ht]
  intro a ha
  simp only [blockOf,sectorSize_addPhysicalNodeRef]
  by_cases he : a = raw
  · refine ⟨if dirty then r.mark else r,?_,?_⟩
    · rw [he]
      exact update_self _ _ _
    · have hofs : (if dirty then r.mark else r).offset = r.offset := by
        split
        · exact r.mark_offset
        · rfl
      grind
  · obtain ⟨x,hx,hp⟩ := h a ha he
    refine ⟨x,(update_of_ne he _ _).trans hx,?_⟩
    rw [update_apply]
    split_ifs with hb
    · rw [blockOf,hb] at hp
      exact mem_append_left _ hp
    · exact hp

theorem linked_discard_iff (hr : s.ref raw = some r) (hraw : raw ∈ s.chain)
    (h : ∀ a ∈ s.chain, a ≠ raw → ∃ x, s.ref a = some x ∧ a ∈ s.phys (s.blockOf x)) :
    (s.discard raw len retlen).Linked ↔ retlen ≠ 0 ∧ s.AtTail r.offset := by
  by_cases hc : retlen ≠ 0 ∧ s.AtTail r.offset
  · rw [discard_atTail hr hc.2 hc.1]
    exact iff_of_true (linked_addPhysicalNodeRef hr hc.2 h) hc
  · rw [discard_freed hr (by tauto)]
    exact iff_of_false (not_linked_freeRef hraw) hc

end Nodes

/-- The reference is linked to the directory before the write, so what a failed write leaves depends
on `retlen`. -/
theorem writeDirent_linked {s : Nodes} {rd : RawDirent} {totlen flashOfs : ℕ} {name : List Byte}
    {e : Answers} {err : ℤ} (h : s.Linked) (hraw : ∀ raw ∈ e.raw, s.ref raw = none)
    (herr : (writeDirent s rd totlen name flashOfs e).2 = .error err) :
    (writeDirent s rd totlen name flashOfs e).1.Linked ↔
      (e.raw ≠ none ∧ e.full = true → e.retlen ≠ 0 ∧ s.AtTail (flashOfs / 4 * 4)) := by
  rw [writeDirent] at herr ⊢
  cases he : e.raw with
  | none =>
    grind
  | some raw =>
    simp only [he] at herr ⊢
    by_cases hf : e.full = true
    · rw [if_neg (not_not.mpr hf)] at herr ⊢
      by_cases hw : e.ret ≠ 0 ∨ e.retlen ≠ sizeofRawDirent + name.length
      · rw [if_pos hw]
        have hnew := hraw raw (he ▸ rfl)
        have hr : ((s.newRef raw ⟨flashOfs,pad4 totlen⟩).link raw).ref raw =
            some ⟨flashOfs,pad4 totlen⟩ := update_self _ _ _
        rw [Nodes.linked_discard_iff hr mem_cons_self fun a ha hne =>
          h.newRef hnew a ((mem_cons.mp ha).resolve_left hne)]
        exact ⟨fun hc _ => hc,fun hc => hc ⟨Option.some_ne_none raw,hf⟩⟩
      · grind
    · grind

def emptyDir : Nodes where
  sb :=
    { sectorSize := 65536
      flashSize := 131072
      blocks := fun _ => .marked 65536
      size := fun k => if k = .free then 131048 else if k = .used then 24 else 0
      nrFree := 1
      nrErasing := 0
      lists := fun k => if k = .free then [1] else []
      nextblock := some 0
      gcblock := none
      marking := none
      bug := false }
  ref := fun _ => none
  chain := []
  phys := fun _ => []

/-- A write of the name `a` that fails after the header. -/
theorem writeDirent_linked_header :
    (writeDirent emptyDir ⟨1,2,8⟩ 41 [97] 12 ⟨some 7,true,0,40⟩).1.Linked :=
  (writeDirent_linked (fun _ ha => absurd ha not_mem_nil) (fun _ _ => rfl)
    (show _ = Except.error (-5) from rfl)).mpr fun _ => ⟨by decide,by decide⟩

/-- The driver writes nothing: the directory refers to memory that has been freed. -/
theorem dirent_dangling :
    let r := writeDirent emptyDir ⟨1,2,8⟩ 41 [97] 12 ⟨some 7,true,-5,0⟩
    r.2 = .error (-5) ∧ r.1.chain = [7] ∧ r.1.ref 7 = none ∧ ¬r.1.Linked := by
  intro r
  have hchain : r.1.chain = [7] := rfl
  have hnone : r.1.ref 7 = none := rfl
  refine ⟨rfl,hchain,hnone,fun h => ?_⟩
  obtain ⟨x,hx,-⟩ := h 7 (hchain ▸ mem_cons_self)
  cases hx

end Simpad.Jffs2.WriteNode
