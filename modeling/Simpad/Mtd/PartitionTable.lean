import Mathlib.Data.List.TakeWhile
import Mathlib.Tactic

namespace Simpad.Mtd

open List

/-- `struct mtd_erase_region_info`. -/
structure EraseRegion where
  offset : BitVec 32
  erasesize : BitVec 32
  numblocks : BitVec 32

/-- The regions follow each other from `start` to `stop`. -/
def Covers : ℕ → ℕ → List EraseRegion → Prop
  | start, stop, [] => start = stop
  | start, stop, r :: rs =>
    r.offset.toNat = start ∧ Covers (start + r.erasesize.toNat * r.numblocks.toNat) stop rs

/-- The part of the master's `struct mtd_info` that is looked at. -/
structure Master where
  size : BitVec 32
  erasesize : BitVec 32
  flags : BitVec 32
  eraseregions : List EraseRegion
  erasesize_pos : 0 < erasesize.toNat
  regions_pos : ∀ r ∈ eraseregions, 0 < r.erasesize.toNat
  regions_cover : eraseregions ≠ [] → Covers 0 size.toNat eraseregions

/-- `struct mtd_partition`; `mtdp` says whether the caller wants the object. -/
structure MtdPartition where
  size : BitVec 32
  offset : BitVec 32
  maskFlags : BitVec 32
  mtdp : Bool

/-- The part of `struct mtd_part` that is computed. -/
structure Slave where
  index : ℕ
  offset : BitVec 32
  size : BitVec 32
  erasesize : BitVec 32
  flags : BitVec 32
  registered : Bool

def ofsAppend : BitVec 32 := -1

def ofsNxtblk : BitVec 32 := -2

def mtdWriteable : BitVec 32 := 3

variable {offset size flags curOffset : BitVec 32} {part : MtdPartition}

namespace Master
variable (m : Master)

def place (curOffset : BitVec 32) (part : MtdPartition) : BitVec 32 :=
  let offset := if part.offset = ofsAppend then curOffset else part.offset
  if offset = ofsNxtblk then
    let emask := m.erasesize - 1
    (curOffset + emask) &&& ~~~emask
  else offset

/-- The size of an entry; 0 is `MTDPART_SIZ_FULL`. -/
def extent (offset : BitVec 32) (part : MtdPartition) : BitVec 32 :=
  if part.size = 0 then m.size - offset else part.size

/-- `cur_offset` behind an entry. -/
def nextOffset (curOffset : BitVec 32) (part : MtdPartition) : BitVec 32 :=
  m.place curOffset part + m.extent (m.place curOffset part) part

/-- The sanity checks: the offset and the size that are left. -/
def trim (offset size : BitVec 32) : BitVec 32 × BitVec 32 :=
  let r := if m.size.toNat ≤ offset.toNat then (0,0) else (offset,size)
  if m.size.toNat < (r.1 + r.2).toNat then (r.1,m.size - r.1) else r

def largestErasesize (offset size : BitVec 32) : BitVec 32 :=
  -- the first loop stops behind the region in which the partition starts
  let first := (m.eraseregions.takeWhile fun r => r.offset.toNat ≤ offset.toNat).length - 1
  let regions := (m.eraseregions.drop first).takeWhile fun r => r.offset.toNat < (offset + size).toNat
  regions.foldl (fun e r => if e.toNat < r.erasesize.toNat then r.erasesize else e) 0

def erasesizeOf (offset size : BitVec 32) : BitVec 32 :=
  if 1 < m.eraseregions.length then m.largestErasesize offset size else m.erasesize

/-- A flag test that divides: a partition that is not aligned is made read-only; none when it divides
by zero. -/
def forceReadOnly (flags x erasesize : BitVec 32) : Option (BitVec 32) :=
  if flags &&& mtdWriteable = 0 then some flags
  else if erasesize = 0 then none
  else if x % erasesize = 0 then some flags else some (flags &&& ~~~mtdWriteable)

/-- One round of `add_mtd_partitions`; none when it divides by zero. -/
def addPartition (index : ℕ) (curOffset : BitVec 32) (part : MtdPartition) : Option Slave := do
  let offset := m.place curOffset part
  let r := m.trim offset (m.extent offset part)
  let erasesize := m.erasesizeOf r.1 r.2
  let flags ← forceReadOnly (m.flags &&& ~~~part.maskFlags) r.1 erasesize
  let flags ← forceReadOnly flags r.2 erasesize
  return ⟨index,r.1,r.2,erasesize,flags,!part.mtdp⟩

/-- The loop of `add_mtd_partitions` from an entry on. -/
def addFrom : ℕ → BitVec 32 → List MtdPartition → Option (List Slave)
  | _, _, [] => some []
  | i, curOffset, part :: parts => do
    let slave ← m.addPartition i curOffset part
    let slaves ← addFrom (i + 1) (m.nextOffset curOffset part) parts
    return slave :: slaves

def addMtdPartitions (parts : List MtdPartition) : Option (List Slave) := m.addFrom 0 0 parts

/-- A slave is inside of the master, and aligned if it can be written. -/
structure Sound (s : Slave) : Prop where
  fits : s.offset.toNat + s.size.toNat ≤ m.size.toNat
  aligned : s.flags &&& mtdWriteable ≠ 0 →
    s.erasesize.toNat ∣ s.offset.toNat ∧ s.erasesize.toNat ∣ s.size.toNat

/-- An entry that comes out right: it starts on the master and its end is a 32-bit number, or it is
out of reach and its erase size does not matter. -/
def Placeable (curOffset : BitVec 32) (part : MtdPartition) : Prop :=
  let offset := m.place curOffset part
  if offset.toNat < m.size.toNat then
    offset.toNat + (m.extent offset part).toNat < 4294967296
  else m.eraseregions.length ≤ 1 ∨ m.flags &&& ~~~part.maskFlags &&& mtdWriteable = 0

def AllPlaceable : BitVec 32 → List MtdPartition → Prop
  | _, [] => True
  | curOffset, part :: parts =>
    m.Placeable curOffset part ∧ AllPlaceable (m.nextOffset curOffset part) parts

theorem le_foldl_erasesize (rs : List EraseRegion) (e : BitVec 32) :
    e.toNat ≤ (rs.foldl (fun e r => if e.toNat < r.erasesize.toNat then r.erasesize else e) e).toNat := by
  induction rs generalizing e with
  | nil => exact le_rfl
  | cons r rs ih =>
    refine le_trans ?_ (ih _)
    grind

theorem largestErasesize_pos (hn : m.eraseregions ≠ []) (hlt : offset.toNat < (offset + size).toNat) :
    0 < (m.largestErasesize offset size).toNat := by
  have hcover := m.regions_cover hn
  have hpos := m.regions_pos
  rw [largestErasesize]
  generalize m.eraseregions = rs at hn hcover hpos ⊢
  -- the region in which the partition starts is the last that the first loop passes
  have hne : (rs.takeWhile fun r => r.offset.toNat ≤ offset.toNat) ≠ [] := by
    cases rs with
    | nil => exact absurd rfl hn
    | cons r rs =>
      rw [takeWhile_cons_of_pos (by simp [hcover.1])]
      exact cons_ne_nil _ _
  obtain ⟨init,r,hsplit⟩ := (eq_nil_or_concat' _).resolve_left hne
  have hr : r ∈ rs.takeWhile fun r => r.offset.toNat ≤ offset.toNat := by simp [hsplit]
  have hmem : r ∈ rs := (takeWhile_sublist _).subset hr
  have hle : r.offset.toNat ≤ offset.toNat := by
    simpa using mem_takeWhile_imp hr
  have hdrop : rs.drop ((init ++ [r]).length - 1) =
      r :: rs.dropWhile fun r => r.offset.toNat ≤ offset.toNat := by
    conv_lhs => rw [← takeWhile_append_dropWhile (p := fun r : EraseRegion =>
      decide (r.offset.toNat ≤ offset.toNat)) (l := rs),hsplit]
    simp
  rw [hsplit,hdrop,takeWhile_cons_of_pos (by simpa using hle.trans_lt hlt),foldl_cons]
  refine lt_of_lt_of_le (hpos r hmem) (le_trans ?_ (le_foldl_erasesize _ _))
  exact (congrArg BitVec.toNat (if_pos (hpos r hmem))).ge

theorem largestErasesize_zero : m.largestErasesize 0 0 = 0 := by
  have hnil : ∀ rs : List EraseRegion,
      (rs.takeWhile fun r => r.offset.toNat < ((0 : BitVec 32) + 0).toNat) = [] := by
    simp
  rw [largestErasesize,hnil]
  rfl

theorem forceReadOnly_spec {e : BitVec 32} (x : BitVec 32) (h : flags &&& mtdWriteable = 0 ∨ e ≠ 0) :
    ∃ f, forceReadOnly flags x e = some f ∧ (flags &&& mtdWriteable = 0 → f &&& mtdWriteable = 0) ∧
      (f &&& mtdWriteable ≠ 0 → f = flags ∧ e.toNat ∣ x.toNat) := by
  rw [forceReadOnly]
  by_cases hw : flags &&& mtdWriteable = 0
  · grind
  · rw [if_neg hw,if_neg (h.resolve_left hw)]
    by_cases hx : x % e = 0
    · rw [if_pos hx]
      refine ⟨flags,rfl,fun hz => hz,fun _ => ⟨rfl,Nat.dvd_of_mod_eq_zero ?_⟩⟩
      rw [← BitVec.toNat_umod,hx]
      rfl
    · rw [if_neg hx]
      have hclear : flags &&& ~~~mtdWriteable &&& mtdWriteable = 0 := by
        rw [BitVec.and_assoc]
        have hz : ~~~mtdWriteable &&& mtdWriteable = 0 := by decide
        simp
      grind

theorem forceReadOnly_zero (x : BitVec 32) (h : flags &&& mtdWriteable ≠ 0) :
    forceReadOnly flags x 0 = none := by
  rw [forceReadOnly,if_neg h,if_pos rfl]

theorem extent_pos (h : offset.toNat < m.size.toNat) (part : MtdPartition) :
    0 < (m.extent offset part).toNat := by
  rw [extent]
  split
  · rw [BitVec.toNat_sub]
    omega
  · next hne => exact Nat.pos_of_ne_zero fun hz => hne (BitVec.eq_of_toNat_eq hz)

theorem trim_of_lt (h : offset.toNat < m.size.toNat) (hpos : 0 < size.toNat)
    (hend : offset.toNat + size.toNat < 4294967296) :
    ∃ s, m.trim offset size = (offset,s) ∧ 0 < s.toNat ∧ offset.toNat + s.toNat ≤ m.size.toNat := by
  rw [trim,if_neg (not_le.mpr h)]
  dsimp only
  split
  · refine ⟨_,rfl,?_⟩
    rw [BitVec.toNat_sub]
    omega
  · grind

theorem trim_of_wrap (h : offset.toNat < m.size.toNat)
    (hend : 4294967296 ≤ offset.toNat + size.toNat) : m.trim offset size = (offset,size) := by
  rw [trim,if_neg (not_le.mpr h)]
  refine if_neg ?_
  dsimp only
  rw [BitVec.toNat_add]
  omega

theorem trim_of_ge (h : m.size.toNat ≤ offset.toNat) (size : BitVec 32) :
    m.trim offset size = (0,0) := by
  simp [trim,if_pos h]

theorem addPartition_of {index : ℕ}
    (htrim : m.trim (m.place curOffset part) (m.extent (m.place curOffset part) part) = (offset,size))
    (hfits : offset.toNat + size.toNat ≤ m.size.toNat)
    (h : m.flags &&& ~~~part.maskFlags &&& mtdWriteable = 0 ∨ m.erasesizeOf offset size ≠ 0) :
    ∃ s, m.addPartition index curOffset part = some s ∧ m.Sound s := by
  obtain ⟨f,hf,hkeep,hof⟩ := forceReadOnly_spec offset h
  obtain ⟨f',hf',-,hof'⟩ := forceReadOnly_spec size (h.imp_left hkeep)
  refine ⟨⟨index,offset,size,m.erasesizeOf offset size,f',!part.mtdp⟩,?_,hfits,fun hw => ?_⟩
  · rw [addPartition,htrim]
    grind
  · obtain ⟨rfl,hsize⟩ := hof' hw
    exact ⟨(hof hw).2,hsize⟩

theorem addPartition_cases {index : ℕ} {s : Slave}
    (htrim : m.trim (m.place curOffset part) (m.extent (m.place curOffset part) part) = (offset,size))
    (hs : m.addPartition index curOffset part = some s) :
    s.offset = offset ∧ s.size = size ∧
      (m.flags &&& ~~~part.maskFlags &&& mtdWriteable = 0 ∨ m.erasesizeOf offset size ≠ 0) := by
  rw [addPartition,htrim] at hs
  obtain ⟨f,hf,hs⟩ := Option.bind_eq_some_iff.mp hs
  obtain ⟨f',hf',hs⟩ := Option.bind_eq_some_iff.mp hs
  cases hs
  refine ⟨rfl,rfl,or_iff_not_imp_left.mpr fun hw he => ?_⟩
  rw [he,forceReadOnly_zero offset hw] at hf
  cases hf

theorem erasesizeOf_ne_zero (hpos : 0 < size.toNat)
    (hend : offset.toNat + size.toNat < 4294967296) : m.erasesizeOf offset size ≠ 0 := by
  intro hz
  have hlt : offset.toNat < (offset + size).toNat := by
    rw [BitVec.toNat_add]
    omega
  rw [erasesizeOf] at hz
  split at hz
  · next hn =>
    have hne : m.eraseregions ≠ [] := fun hnil => by
      grind
    have hp := m.largestErasesize_pos hne hlt
    grind
  · have hp := m.erasesize_pos
    grind

theorem erasesizeOf_zero : m.erasesizeOf 0 0 ≠ 0 ↔ m.eraseregions.length ≤ 1 := by
  rw [erasesizeOf]
  split
  · next hn =>
    rw [largestErasesize_zero]
    grind
  · next hn =>
    refine iff_of_true (fun hz => ?_) (not_lt.mp hn)
    have hp := m.erasesize_pos
    grind

theorem addPartition_iff (index : ℕ) (curOffset : BitVec 32) (part : MtdPartition) :
    (∃ s, m.addPartition index curOffset part = some s ∧ m.Sound s) ↔
      m.Placeable curOffset part := by
  rw [Placeable]
  by_cases hin : (m.place curOffset part).toNat < m.size.toNat
  · rw [if_pos hin]
    constructor
    · rintro ⟨s,hs,hsound⟩
      by_contra hwrap
      obtain ⟨ho,hsz,-⟩ := m.addPartition_cases (m.trim_of_wrap hin (not_lt.mp hwrap)) hs
      have hfits := hsound.fits
      rw [ho,hsz] at hfits
      omega
    · intro hend
      obtain ⟨size,htrim,hpos,hfits⟩ := m.trim_of_lt hin (m.extent_pos hin part) hend
      exact m.addPartition_of htrim hfits (Or.inr (m.erasesizeOf_ne_zero hpos (by omega)))
  · rw [if_neg hin,← erasesizeOf_zero,or_comm]
    have htrim := m.trim_of_ge (not_lt.mp hin) (m.extent (m.place curOffset part) part)
    constructor
    · rintro ⟨s,hs,-⟩
      exact (m.addPartition_cases htrim hs).2.2
    · exact m.addPartition_of htrim (Nat.zero_le _)

theorem addFrom_iff (index : ℕ) (curOffset : BitVec 32) (parts : List MtdPartition) :
    (∃ slaves, m.addFrom index curOffset parts = some slaves ∧ ∀ s ∈ slaves, m.Sound s) ↔
      m.AllPlaceable curOffset parts := by
  induction parts generalizing index curOffset with
  | nil => exact iff_of_true ⟨[],rfl,fun _ hs => absurd hs not_mem_nil⟩ trivial
  | cons part parts ih =>
    rw [AllPlaceable,← m.addPartition_iff index,← ih (index + 1),addFrom]
    constructor
    · rintro ⟨slaves,hs,hsound⟩
      obtain ⟨s,hs₁,hs⟩ := Option.bind_eq_some_iff.mp hs
      obtain ⟨rest,hs₂,hs⟩ := Option.bind_eq_some_iff.mp hs
      grind
    · rintro ⟨⟨s,hs₁,h₁⟩,rest,hs₂,h₂⟩
      refine ⟨s :: rest,?_,forall_mem_cons.mpr ⟨h₁,h₂⟩⟩
      rw [hs₁,hs₂]
      rfl

end Master

/-- A table is turned into slaves on the master, with no division by zero, just if all of its entries
are placeable. -/
theorem partitions_sound (m : Master) (parts : List MtdPartition) :
    (∃ slaves, m.addMtdPartitions parts = some slaves ∧ ∀ s ∈ slaves, m.Sound s) ↔
      m.AllPlaceable 0 parts :=
  m.addFrom_iff 0 0 parts

def bootFlash : Master where
  size := 0x100000
  erasesize := 0x10000
  flags := 5
  eraseregions := [⟨0,0x2000,8⟩,⟨0x10000,0x10000,15⟩]
  erasesize_pos := by decide
  regions_pos := by decide
  regions_cover := fun _ => by simp [Covers]

/-- An entry behind the end divides by zero; an entry whose end wraps is not cut off. -/
theorem partitions_unsound :
    (bootFlash.addMtdPartitions [⟨0x10000,0x100000,0,false⟩]).isNone = true ∧
    (bootFlash.addMtdPartitions [⟨0xffff0000,0x30000,0,false⟩]).map
      (·.map fun s => (s.offset,s.size,s.flags)) = some [(0x30000,0xffff0000,5)] := by
  decide

end Simpad.Mtd
