import Simpad.Base.Word

namespace Simpad.Mtd
open Word

/-- `struct mtd_part`: a range of the master. -/
structure MtdPart where
  masterSize : ℕ
  offset : ℕ
  size : ℕ
  writeable : Bool
  small : masterSize < 4294967296
  fits : offset + size ≤ masterSize

inductive PartErrno
  | erofs | einval
deriving DecidableEq

/-- What the master is asked for; `vecs` are the lengths of the vectors. -/
inductive Forward
  | read (ofs len : ℕ)
  | write (ofs len : ℕ)
  | readv (vecs : List ℕ) (ofs : ℕ)
  | writev (vecs : List ℕ) (ofs : ℕ)
  | erase (addr len : ℕ)
  | lock (ofs len : ℕ)
  | unlock (ofs len : ℕ)

def Forward.range : Forward → ℕ × ℕ
  | .read ofs len | .write ofs len | .erase ofs len | .lock ofs len | .unlock ofs len => (ofs,len)
  | .readv vecs ofs | .writev vecs ofs => (ofs,vecs.sum)

namespace MtdPart

/-- The length that `part_read` and `part_write` leave of `len`. -/
def clamp (p : MtdPart) (ofs len : ℕ) : ℕ :=
  if p.size ≤ ofs then 0
  else if p.size < ofs + len then p.size - ofs
  else len

def read (p : MtdPart) (ofs len : ℕ) : Except PartErrno Forward :=
  .ok (.read (ofs + p.offset) (p.clamp ofs len))

/-- A partition that is not `MTD_WRITEABLE` refuses the request. -/
def guarded (p : MtdPart) (f : Except PartErrno Forward) : Except PartErrno Forward :=
  if !p.writeable then .error .erofs else f

def write (p : MtdPart) (ofs len : ℕ) : Except PartErrno Forward :=
  p.guarded (.ok (.write (ofs + p.offset) (p.clamp ofs len)))

def writev (p : MtdPart) (vecs : List ℕ) (ofs : ℕ) : Except PartErrno Forward :=
  p.guarded (.ok (.writev vecs (ofs + p.offset)))

def readv (p : MtdPart) (vecs : List ℕ) (ofs : ℕ) : Except PartErrno Forward :=
  .ok (.readv vecs (ofs + p.offset))

/-- `part_erase`; the address is a 32-bit field of the request. -/
def erase (p : MtdPart) (addr len : ℕ) : Except PartErrno Forward :=
  p.guarded (if p.size ≤ addr then .error .einval else .ok (.erase (u32 (addr + p.offset)) len))

/-- The request of `part_lock` and `part_unlock`. -/
def checked (p : MtdPart) (ofs len : ℕ) (f : Forward) : Except PartErrno Forward :=
  if p.size < len + ofs then .error .einval else .ok f

def lock (p : MtdPart) (ofs len : ℕ) : Except PartErrno Forward :=
  p.checked ofs len (.lock (ofs + p.offset) len)

def unlock (p : MtdPart) (ofs len : ℕ) : Except PartErrno Forward :=
  p.checked ofs len (.unlock (ofs + p.offset) len)

end MtdPart

inductive PartCall
  | read (ofs len : ℕ)
  | write (ofs len : ℕ)
  | readv (vecs : List ℕ) (ofs : ℕ)
  | writev (vecs : List ℕ) (ofs : ℕ)
  | erase (addr len : ℕ)
  | lock (ofs len : ℕ)
  | unlock (ofs len : ℕ)

def MtdPart.call (p : MtdPart) : PartCall → Except PartErrno Forward
  | .read ofs len => p.read ofs len
  | .write ofs len => p.write ofs len
  | .readv vecs ofs => p.readv vecs ofs
  | .writev vecs ofs => p.writev vecs ofs
  | .erase addr len => p.erase addr len
  | .lock ofs len => p.lock ofs len
  | .unlock ofs len => p.unlock ofs len

/-- The request is about byte `x` of the master. -/
def Forward.Touches (masterSize : ℕ) (f : Forward) (x : ℕ) : Prop :=
  f.range.1 ≤ x ∧ x < f.range.1 + f.range.2 ∧ x < masterSize

def MtdPart.Stays (p : MtdPart) (r : Except PartErrno Forward) : Prop :=
  ∀ f, r = .ok f → ∀ x, f.Touches p.masterSize x → p.offset ≤ x ∧ x < p.offset + p.size

def MtdPart.Confined (p : MtdPart) (c : PartCall) : Prop := p.Stays (p.call c)

/-- The range ends in the partition, or there is no byte of the master behind it. -/
def MtdPart.Ends (p : MtdPart) (ofs len : ℕ) : Prop :=
  len = 0 ∨ ofs + len ≤ p.size ∨ p.offset + p.size = p.masterSize ∨ p.masterSize ≤ p.offset + ofs

/-- The operations that do not look at the end of the range are given one that is in order. -/
def MtdPart.InRange (p : MtdPart) : PartCall → Prop
  | .readv vecs ofs => p.Ends ofs vecs.sum
  | .writev vecs ofs => p.writeable = false ∨ p.Ends ofs vecs.sum
  | .erase addr len => p.writeable = false ∨ p.size ≤ addr ∨ p.Ends addr len
  | _ => True

namespace MtdPart
variable {p : MtdPart} {ofs len : ℕ}

theorem stays_error (p : MtdPart) (e : PartErrno) : p.Stays (.error e) := by
  intro f hf
  cases hf

theorem stays_ok {f : Forward} (hf : f.range = (ofs + p.offset,len)) :
    p.Stays (.ok f) ↔ p.Ends ofs len := by
  have hfits := p.fits
  unfold Ends
  constructor
  · intro h
    by_contra hne
    -- the first byte behind the partition that the request names
    have := h f rfl (max (ofs + p.offset) (p.offset + p.size))
      ⟨by rw [hf]; omega,by rw [hf]; omega,by omega⟩
    omega
  · rintro h g hg x ⟨hlo,hhi,hx⟩
    grind

theorem stays_guarded {r : Except PartErrno Forward} :
    p.Stays (p.guarded r) ↔ p.writeable = false ∨ p.Stays r := by
  unfold guarded
  cases hw : p.writeable with
  | false => exact iff_of_true (p.stays_error _) (Or.inl rfl)
  | true => exact (or_iff_right Bool.true_eq_false.mp).symm

theorem ends_clamp (p : MtdPart) (ofs len : ℕ) : p.Ends ofs (p.clamp ofs len) := by
  unfold clamp Ends
  grind

theorem stays_checked {f : Forward} (hf : f.range = (ofs + p.offset,len)) :
    p.Stays (p.checked ofs len f) := by
  unfold checked
  split
  · exact p.stays_error _
  · exact (stays_ok hf).mpr (Or.inr (Or.inl (by omega)))

theorem stays_erase (p : MtdPart) (addr len : ℕ) :
    p.Stays (p.erase addr len) ↔ p.writeable = false ∨ p.size ≤ addr ∨ p.Ends addr len := by
  have hsmall := p.small
  have hfits := p.fits
  rw [erase,stays_guarded]
  refine or_congr_right ?_
  split
  · next ha => exact iff_of_true (p.stays_error _) (Or.inl ha)
  · next ha =>
    -- the address is in the partition, the sum in 32 bits
    rw [u32_of_lt (by omega),stays_ok rfl,or_iff_right ha]

end MtdPart

/-- A call is confined just if it checks the end of its range, is refused, or has a range that ends
in the partition or names no byte of the master behind it. -/
theorem confined_iff_inRange (p : MtdPart) (c : PartCall) : p.Confined c ↔ p.InRange c := by
  cases c with
  | read ofs len => exact iff_of_true ((MtdPart.stays_ok rfl).mpr (p.ends_clamp ofs len)) trivial
  | write ofs len =>
    refine iff_of_true (MtdPart.stays_guarded.mpr (Or.inr ?_)) trivial
    exact (MtdPart.stays_ok rfl).mpr (p.ends_clamp ofs len)
  | readv vecs ofs => exact MtdPart.stays_ok rfl
  | writev vecs ofs => exact MtdPart.stays_guarded.trans (or_congr_right (MtdPart.stays_ok rfl))
  | erase addr len => exact p.stays_erase addr len
  | lock | unlock => exact iff_of_true (MtdPart.stays_checked rfl) trivial

def lowerHalf : MtdPart := ⟨131072,0,65536,true,by decide,by decide⟩

/-- Erasing from the start of the partition over its end, and writing a vector that is too long. -/
theorem lowerHalf_leaves :
    ¬lowerHalf.Confined (.erase 0 131072) ∧ ¬lowerHalf.Confined (.writev [65536,1] 0) := by
  refine ⟨fun h => ?_,fun h => ?_⟩
  · have := h (.erase 0 131072) rfl 65536 ⟨by decide,by decide,by decide⟩
    exact absurd this.2 (by decide)
  · have := h (.writev [65536,1] 0) rfl 65536 ⟨by decide,by decide,by decide⟩
    exact absurd this.2 (by decide)

end Simpad.Mtd
