import Simpad.Jffs2.ScanEnds

namespace Simpad.Jffs2.Scan
open Word

/-- The bytes that `jffs2_scan_inode_node` has read into `dbuf`. -/
def Block.dbufBytes (b : Block) (ok : Bool) (ofs : ℕ) : ℕ :=
  match b.flash.read ofs sizeofRawInode with
  | none => 0
  | some ri =>
    if (crc32 0 ((setAccurate ri).take 60)).toNat ≠ field ri 64 4 then 0
    else
      let csize := if field ri 56 1 = 1 ∧ field ri 52 4 = 0 then 0 else field ri 48 4
      if csize = 0 then 0
      else if !ok then 0
      else b.flash.delivered (u32 (ofs + sizeofRawInode)) csize

/-- `jffs2_scan_inode_node` runs over the buffer just if this is more than a page. -/
theorem scanInodeNode_overrun (b : Block) (ok : Bool) (s : State) :
    scanInodeNode b ok s = .error .overrun ↔ 4096 < b.dbufBytes ok s.ofs := by
  unfold scanInodeNode Block.dbufBytes
  cases b.flash.read s.ofs sizeofRawInode with
  | none => simp
  | some ri =>
    dsimp only
    split_ifs
    all_goals grind

section
variable {b : Block} {ok : Bool} {ofs csize : ℕ}

theorem Block.dataKind_of_dataSize (h : b.dataSize ofs = some csize) :
    b.dataKind ofs .inode = some csize := by
  obtain ⟨node,-,hnode⟩ := Option.bind_eq_some_iff.mp h
  split at hnode
  · cases hk : nodeKind (field node 2 2) with
    | inode => rwa [hk] at hnode
    | _ =>
      rw [hk] at hnode
      cases hnode
  · cases hnode

theorem Block.dbufBytes_eq (h : b.dataSize ofs = some csize) :
    b.dbufBytes ok ofs =
      if ok then b.flash.delivered (u32 (ofs + sizeofRawInode)) csize else 0 := by
  obtain ⟨ri,hri,hc⟩ := Option.bind_eq_some_iff.mp (Block.dataKind_of_dataSize h)
  rw [dbufBytes,hri]
  dsimp only
  split at hc
  · next hcrc =>
    rw [if_neg (not_not.mpr hcrc),Option.some.inj hc]
    by_cases h0 : csize = 0
    · rw [if_pos h0,h0]
      split
      · exact (Nat.zero_min _).symm
      · rfl
    · rw [if_neg h0]
      cases ok <;> rfl
  · cases hc

end

/-- For a node with right CRCs no check bounds what goes into the buffer: it is at most a page just
if the node says so, or the flash ends, or there is no buffer. -/
theorem scan_buffer {b : Block} {ofs csize : ℕ} (h : b.dataSize ofs = some csize) (ok : Bool) :
    b.dbufBytes ok ofs ≤ 4096 ↔
      (ok = true → csize ≤ 4096 ∨ b.flash.size ≤ u32 (ofs + sizeofRawInode) + 4096) := by
  rw [Block.dbufBytes_eq h]
  cases ok with
  | false => simp
  | true =>
    rw [if_pos rfl,Flash.delivered,min_le_iff,Nat.sub_le_iff_le_add']
    simp

/-- A data node with `csize` and `dsize` one more than a page, and right CRCs. -/
def longNode : List Byte :=
  [0x85,0x19,0x02,0xe0,0x45,0x10,0,0,0x08,0x3f,0x6d,0x3c,2,0,0,0,1,0,0,0,0xa4,0x81,0,0,0,0,0,0,
    0x01,0x10,0,0,0,0,0,0,0,0,0,0,0,0,0,0,0,0,0,0,0x01,0x10,0,0,0x01,0x10,0,0,0,0,0,0,0,0,0,0,
    0x5a,0x4c,0x47,0xf0]

def longBlock (size : ℕ) : Block := ⟨0,size,⟨size,fun i => longNode.getD i 0xff⟩,false⟩

theorem scan_buffer_end :
    (longBlock 4164).dataSize 0 = some 4097 ∧ (longBlock 4164).dbufBytes true 0 ≤ 4096 := by
  have h : (longBlock 4164).dataSize 0 = some 4097 := by decide +kernel
  exact ⟨h,(scan_buffer h true).mpr fun _ => Or.inr (by decide)⟩

theorem scan_overrun :
    (longBlock 65536).dataSize 0 = some 4097 ∧ (longBlock 65536).dbufBytes true 0 = 4097 := by
  decide +kernel

end Simpad.Jffs2.Scan
