import Simpad.Base.Memory
import Simpad.Base.Runs

/-! The MTD block device. Every operation of the device below succeeds, and positions are inside it, so that
sums of them fit 32 bits. -/

namespace Simpad.Mtd
open Memory List Runs

abbrev Byte := UInt8

inductive CacheState
  | empty | clean | dirty
deriving DecidableEq

/-- `struct mtdblk_dev` and what is in the flash.  `cacheSize` is the size of a sector, 0 if the
device is RAM. -/
structure Mtdblk where
  cacheSize : ℕ
  flash : ℕ → Byte
  cacheData : ℕ → Byte
  cacheOffset : ℕ
  cacheState : CacheState

def mtdErase (flash : ℕ → Byte) (pos len : ℕ) : ℕ → Byte := blit flash pos (replicate len 255)

/-- `MTD_WRITE` to flash, where bits can only be cleared. -/
def mtdWrite (flash : ℕ → Byte) (pos : ℕ) (buf : List Byte) : ℕ → Byte :=
  blit flash pos (zipWith (· &&& ·) (slice flash pos buf.length) buf)

def eraseWrite (flash : ℕ → Byte) (pos : ℕ) (buf : List Byte) : ℕ → Byte :=
  mtdWrite (mtdErase flash pos buf.length) pos buf

namespace Mtdblk

def writeCachedData (d : Mtdblk) : Mtdblk :=
  if d.cacheState = .dirty then
    { d with
      flash := eraseWrite d.flash d.cacheOffset (slice d.cacheData 0 d.cacheSize)
      cacheState := .empty }
  else d

/-- Fill the cache with the sector at `sectStart` unless it is there. -/
def fillCache (d : Mtdblk) (sectStart : ℕ) : Mtdblk :=
  if d.cacheState = .empty ∨ d.cacheOffset ≠ sectStart then
    { d with
      cacheData := blit d.cacheData 0 (slice d.flash sectStart d.cacheSize)
      cacheOffset := sectStart
      cacheState := .clean }
  else d

/-- Get the sector at `sectStart` into the cache: another one that is dirty is written back first. -/
def load (d : Mtdblk) (sectStart : ℕ) : Mtdblk :=
  fillCache (if d.cacheState = .dirty ∧ d.cacheOffset ≠ sectStart then d.writeCachedData else d)
    sectStart

/-- How much of `len` bytes from `pos` on is in the first sector. -/
def chunkSize (d : Mtdblk) (pos len : ℕ) : ℕ :=
  min (d.cacheSize - (pos - pos / d.cacheSize * d.cacheSize)) len

/-- One round of `do_cached_write`. -/
def writeChunk (d : Mtdblk) (pos : ℕ) (buf : List Byte) : Mtdblk :=
  let sectStart := pos / d.cacheSize * d.cacheSize
  if buf.length = d.cacheSize then { d with flash := eraseWrite d.flash pos buf }
  else
    let d := d.load sectStart
    { d with cacheData := blit d.cacheData (pos - sectStart) buf, cacheState := .dirty }

/-- The loop of `do_cached_write`; `none` if it takes more than `fuel` rounds. -/
def writeLoop : ℕ → Mtdblk → ℕ → List Byte → Option Mtdblk
  | fuel, d, pos, buf =>
    if buf.length = 0 then some d
    else
      match fuel with
      | 0 => none
      | fuel + 1 =>
        let size := d.chunkSize pos buf.length
        writeLoop fuel (d.writeChunk pos (buf.take size)) (pos + size) (buf.drop size)

def doCachedWrite (d : Mtdblk) (pos : ℕ) (buf : List Byte) : Option Mtdblk :=
  if d.cacheSize = 0 then some { d with flash := blit d.flash pos buf }
  else d.writeLoop buf.length pos buf

/-- One round of `do_cached_read`. -/
def readChunk (d : Mtdblk) (pos size : ℕ) : List Byte :=
  let sectStart := pos / d.cacheSize * d.cacheSize
  if d.cacheState ≠ .empty ∧ d.cacheOffset = sectStart then slice d.cacheData (pos - sectStart) size
  else slice d.flash pos size

/-- The loop of `do_cached_read`; `none` if it takes more than `fuel` rounds. -/
def readLoop (d : Mtdblk) : ℕ → ℕ → ℕ → Option (List Byte)
  | fuel, pos, len =>
    if len = 0 then some []
    else
      match fuel with
      | 0 => none
      | fuel + 1 =>
        let size := d.chunkSize pos len
        (readLoop d fuel (pos + size) (len - size)).map (d.readChunk pos size ++ ·)

def doCachedRead (d : Mtdblk) (pos len : ℕ) : Option (List Byte) :=
  if d.cacheSize = 0 then some (slice d.flash pos len) else d.readLoop len pos len

end Mtdblk

inductive Call
  | write (pos : ℕ) (buf : List Byte)
  | read (pos len : ℕ)
  | flush

/-- One call; `none` if it does not return. -/
def step (d : Mtdblk) : Call → Option Mtdblk
  | .write pos buf => d.doCachedWrite pos buf
  | .read pos len => (d.doCachedRead pos len).map fun _ => d
  | .flush => some d.writeCachedData

def lastWritten (mem : ℕ → Byte) : Call → ℕ → Byte
  | .write pos buf => blit mem pos buf
  | _ => mem

/-- The write does not start at a sector boundary and cover the sector in the cache. -/
def Safe (d : Mtdblk) : Call → Prop
  | .write pos buf => ¬(d.cacheState ≠ .empty ∧ pos % d.cacheSize = 0 ∧ pos ≤ d.cacheOffset ∧
      d.cacheOffset + d.cacheSize ≤ pos + buf.length)
  | _ => True

theorem eraseWrite_eq (flash : ℕ → Byte) (pos : ℕ) (buf : List Byte) :
    eraseWrite flash pos buf = blit flash pos buf := by
  have hlen : (zipWith (· &&& ·) (slice (mtdErase flash pos buf.length) pos buf.length) buf).length =
      buf.length := by
    rw [length_zipWith,length_slice,Nat.min_self]
  have hbuf : zipWith (· &&& ·) (slice (mtdErase flash pos buf.length) pos buf.length) buf = buf := by
    refine ext_getElem hlen fun k hk hk' => ?_
    -- an erased byte has all bits set
    have hff : mtdErase flash pos buf.length (pos + k) = 255 :=
      (blit_of_lt (by rwa [length_replicate])).trans (getElem_replicate ..)
    rw [getElem_zipWith,getElem_slice,hff]
    exact UInt8.neg_one_and
  rw [eraseWrite,mtdWrite,hbuf]
  funext i
  refine blit_congr fun hi => blit_of_not_mem ?_
  rwa [length_replicate]

variable {sectStart pos len fuel : ℕ} {buf : List Byte}

namespace Mtdblk

/-- What the device holds: the flash, with the sector in the cache over it. -/
def contents (d : Mtdblk) : ℕ → Byte :=
  if d.cacheState = .empty then d.flash
  else blit d.flash d.cacheOffset (slice d.cacheData 0 d.cacheSize)

structure Good (d : Mtdblk) : Prop where
  pos : d.cacheState ≠ .empty → 0 < d.cacheSize
  sector : d.cacheState ≠ .empty → d.cacheSize ∣ d.cacheOffset
  clean : d.cacheState = .clean → ∀ k < d.cacheSize, d.flash (d.cacheOffset + k) = d.cacheData k

variable {d : Mtdblk}

theorem Good.empty_of_zero (h : d.Good) (hz : d.cacheSize = 0) : d.cacheState = .empty :=
  by_contra fun hs => absurd (h.pos hs) (by omega)

theorem Good.flush (h : d.Good) : d.writeCachedData.Good := by
  unfold writeCachedData
  split
  · refine ⟨fun hne => absurd rfl hne,fun hne => absurd rfl hne,fun hc => ?_⟩
    cases hc
  · exact h

theorem writeCachedData_contents (d : Mtdblk) : d.writeCachedData.contents = d.contents := by
  unfold writeCachedData
  split
  · next hd =>
    rw [contents,if_pos rfl,contents,if_neg (by rw [hd]; decide),eraseWrite_eq]
  · rfl

/-- After `write_cached_data` the flash holds what the device holds. -/
theorem Good.flash_flush (h : d.Good) : d.writeCachedData.flash = d.contents := by
  unfold writeCachedData contents
  cases hs : d.cacheState with
  | empty => rfl
  | clean => exact (blit_slice (h.clean hs)).symm
  | dirty => exact eraseWrite_eq ..

theorem Good.contents_eq_flash (h : d.Good) (hd : d.cacheState ≠ .dirty) : d.contents = d.flash := by
  unfold contents
  cases hs : d.cacheState with
  | empty => rfl
  | clean => exact blit_slice (h.clean hs)
  | dirty => exact absurd hs hd

theorem Good.fill (h : d.Good) (hd : d.cacheState = .dirty → d.cacheOffset = sectStart)
    (hS : 0 < d.cacheSize) (hdvd : d.cacheSize ∣ sectStart) :
    (d.fillCache sectStart).Good ∧ (d.fillCache sectStart).contents = d.contents := by
  unfold fillCache
  split
  · next hne =>
    have hflash : d.contents = d.flash := by
      refine h.contents_eq_flash fun hs => ?_
      grind
    have hread : ∀ k < d.cacheSize, d.flash (sectStart + k) =
        blit d.cacheData 0 (slice d.flash sectStart d.cacheSize) k := by
      intro k hk
      have hk' : k < (slice d.flash sectStart d.cacheSize).length := by rwa [length_slice]
      have hb := @blit_of_lt _ d.cacheData 0 _ k hk'
      rw [zero_add,getElem_slice] at hb
      exact hb.symm
    exact ⟨⟨fun _ => hS,fun _ => hdvd,fun _ => hread⟩,(blit_slice hread).trans hflash.symm⟩
  · exact ⟨h,rfl⟩

theorem fillCache_frame (d : Mtdblk) (sectStart : ℕ) :
    (d.fillCache sectStart).cacheState ≠ .empty ∧ (d.fillCache sectStart).cacheOffset = sectStart ∧
      (d.fillCache sectStart).cacheSize = d.cacheSize := by
  unfold fillCache
  split
  · simp
  · next hne =>
    obtain ⟨hs,ho⟩ := not_or.mp hne
    exact ⟨hs,not_not.mp ho,rfl⟩

theorem writeCachedData_frame (d : Mtdblk) :
    d.writeCachedData.cacheState ≠ .dirty ∧ d.writeCachedData.cacheSize = d.cacheSize := by
  unfold writeCachedData
  grind

theorem contents_cache (hs : d.cacheState ≠ .empty) {off : ℕ}
    (hfit : off + buf.length ≤ d.cacheSize) :
    contents { d with cacheData := blit d.cacheData off buf, cacheState := .dirty } =
      blit d.contents (d.cacheOffset + off) buf := by
  rw [contents,if_neg CacheState.noConfusion,contents,if_neg hs]
  exact blit_slice_blit hfit

theorem Good.cached (h : d.Good) (hS : 0 < d.cacheSize) (hdvd : d.cacheSize ∣ sectStart)
    {e : Mtdblk} (he : e = d.load sectStart) :
    e.Good ∧ e.contents = d.contents ∧ e.cacheState ≠ .empty ∧ e.cacheOffset = sectStart ∧
      e.cacheSize = d.cacheSize := by
  subst he
  unfold load
  split
  · obtain ⟨hnd,hcs⟩ := d.writeCachedData_frame
    obtain ⟨hs,ho,hcs'⟩ := d.writeCachedData.fillCache_frame sectStart
    obtain ⟨hg,hc⟩ := h.flush.fill (fun hd => absurd hd hnd) (hcs ▸ hS) (hcs ▸ hdvd)
    exact ⟨hg,hc.trans d.writeCachedData_contents,hs,ho,hcs'.trans hcs⟩
  · next hne =>
    obtain ⟨hg,hc⟩ := h.fill (fun hd => not_not.mp fun ho => hne ⟨hd,ho⟩) hS hdvd
    exact ⟨hg,hc,d.fillCache_frame sectStart⟩

theorem sectors_apart {S a b : ℕ} (ha : S ∣ a) (hb : S ∣ b) (hne : a ≠ b) : a + S ≤ b ∨ b + S ≤ a := by
  obtain ⟨p,rfl⟩ := ha
  obtain ⟨q,rfl⟩ := hb
  rcases Nat.lt_trichotomy p q with hlt | rfl | hlt
  · exact Or.inl (by exact Nat.mul_le_mul_left _ hlt)
  · exact absurd rfl hne
  · exact Or.inr (by exact Nat.mul_le_mul_left _ hlt)

theorem Good.writeSector (h : d.Good) (hlen : buf.length = d.cacheSize) (hdvd : d.cacheSize ∣ pos)
    (hne : d.cacheState ≠ .empty → d.cacheOffset ≠ pos) :
    Good { d with flash := eraseWrite d.flash pos buf } ∧
      contents { d with flash := eraseWrite d.flash pos buf } = blit d.contents pos buf := by
  rw [eraseWrite_eq]
  have happ : d.cacheState ≠ .empty →
      pos + d.cacheSize ≤ d.cacheOffset ∨ d.cacheOffset + d.cacheSize ≤ pos := fun hs =>
    sectors_apart hdvd (h.sector hs) (hne hs).symm
  refine ⟨⟨h.pos,h.sector,fun hc k hk => ?_⟩,?_⟩
  · have hs : d.cacheState ≠ .empty := fun he => by cases he.symm.trans hc
    have hout : d.cacheOffset + k < pos ∨ pos + buf.length ≤ d.cacheOffset + k := by
      have hk : k < d.cacheSize := hk
      grind
    exact (blit_of_not_mem hout).trans (h.clean hc k hk)
  · unfold contents
    split
    · rfl
    · next hs =>
      refine blit_comm ?_
      rw [length_slice,hlen]
      exact happ hs

theorem writeChunk_cases (h : d.Good) (hS : 0 < d.cacheSize) (pos : ℕ) (buf : List Byte) :
    (buf.length = d.cacheSize ∧ d.writeChunk pos buf = { d with flash := eraseWrite d.flash pos buf }) ∨
    (buf.length ≠ d.cacheSize ∧ ∃ e : Mtdblk, e.Good ∧ e.contents = d.contents ∧
      e.cacheState ≠ .empty ∧ e.cacheOffset = pos / d.cacheSize * d.cacheSize ∧
      e.cacheSize = d.cacheSize ∧ d.writeChunk pos buf = { e with
        cacheData := blit e.cacheData (pos - pos / d.cacheSize * d.cacheSize) buf
        cacheState := .dirty }) := by
  by_cases hlen : buf.length = d.cacheSize
  · exact Or.inl ⟨hlen,if_pos hlen⟩
  · obtain ⟨hg,hc,hs,ho,hcs⟩ := h.cached hS (Nat.dvd_mul_left d.cacheSize (pos / d.cacheSize)) rfl
    exact Or.inr ⟨hlen,_,hg,hc,hs,ho,hcs,if_neg hlen⟩

theorem writeChunk_frame (h : d.Good) (hS : 0 < d.cacheSize) (pos : ℕ) (buf : List Byte) :
    (d.writeChunk pos buf).cacheSize = d.cacheSize := by
  obtain ⟨-,he⟩ | ⟨-,e,-,-,-,-,hcs,he⟩ := writeChunk_cases h hS pos buf
  · rw [he]
  · rw [he]
    exact hcs

theorem Good.writeChunk (h : d.Good) (hS : 0 < d.cacheSize)
    (hfit : pos % d.cacheSize + buf.length ≤ d.cacheSize)
    (hsafe : buf.length = d.cacheSize → d.cacheState ≠ .empty → d.cacheOffset ≠ pos) :
    (d.writeChunk pos buf).Good ∧ (d.writeChunk pos buf).contents = blit d.contents pos buf := by
  have hstart : pos / d.cacheSize * d.cacheSize + pos % d.cacheSize = pos := Nat.div_add_mod' ..
  obtain ⟨hlen,he⟩ | ⟨-,e,hg,hc,hs,ho,hcs,he⟩ := writeChunk_cases h hS pos buf
  · rw [he]
    exact h.writeSector hlen (Nat.dvd_of_mod_eq_zero (by omega)) (hsafe hlen)
  · rw [he]
    refine ⟨⟨fun _ => hg.pos hs,fun _ => hg.sector hs,fun hd => ?_⟩,?_⟩
    · cases hd
    · rw [contents_cache hs (by omega),ho,hc]
      congr 1
      omega

theorem chunkSize_eq (d : Mtdblk) (pos len : ℕ) :
    d.chunkSize pos len = min (d.cacheSize - pos % d.cacheSize) len := by
  have hstart : pos / d.cacheSize * d.cacheSize + pos % d.cacheSize = pos := Nat.div_add_mod' ..
  rw [chunkSize]
  omega

theorem chunkSize_spec (hS : 0 < d.cacheSize) (pos : ℕ) (hlen : len ≠ 0) :
    0 < d.chunkSize pos len ∧ d.chunkSize pos len ≤ len ∧
      pos % d.cacheSize + d.chunkSize pos len ≤ d.cacheSize := by
  have := Nat.mod_lt pos hS
  rw [chunkSize_eq]
  omega

theorem safe_drop (h : d.Good) (hS : 0 < d.cacheSize) (hne : buf.length ≠ 0)
    (hsafe : Safe d (.write pos buf)) :
    Safe (d.writeChunk pos (buf.take (d.chunkSize pos buf.length)))
      (.write (pos + d.chunkSize pos buf.length) (buf.drop (d.chunkSize pos buf.length))) := by
  obtain ⟨hpos,hle,hfit⟩ := chunkSize_spec hS pos hne
  generalize d.chunkSize pos buf.length = size at hpos hle hfit ⊢
  have htake : (buf.take size).length = size := length_take_of_le hle
  have hdrop : (buf.drop size).length = buf.length - size := length_drop
  obtain ⟨hlen,he⟩ | ⟨-,e,-,-,-,ho,-,he⟩ := writeChunk_cases h hS pos (buf.take size)
  · rw [he]
    rintro ⟨hs,-,hlo,hhi⟩
    have hlo : pos + size ≤ d.cacheOffset := hlo
    have hhi : d.cacheOffset + d.cacheSize ≤ pos + size + (buf.drop size).length := hhi
    exact hsafe ⟨hs,by omega,by omega,by omega⟩
  · -- the sector in the cache is behind
    rw [he]
    rintro ⟨-,-,hlo,-⟩
    have hlo : pos + size ≤ e.cacheOffset := hlo
    have hstart : pos / d.cacheSize * d.cacheSize ≤ pos := Nat.div_mul_le_self ..
    omega

theorem Good.writeLoop (h : d.Good) (hS : 0 < d.cacheSize) (hf : buf.length ≤ fuel)
    (hsafe : Safe d (.write pos buf)) :
    ∃ e, d.writeLoop fuel pos buf = some e ∧ e.Good ∧ e.contents = blit d.contents pos buf := by
  induction fuel generalizing d pos buf with
  | zero =>
    obtain rfl : buf = [] := eq_nil_of_length_eq_zero (Nat.le_zero.mp hf)
    exact ⟨d,rfl,h,blit_nil.symm⟩
  | succ fuel ih =>
    rw [Mtdblk.writeLoop]
    by_cases hne : buf.length = 0
    · obtain rfl : buf = [] := eq_nil_of_length_eq_zero hne
      exact ⟨d,rfl,h,blit_nil.symm⟩
    · rw [if_neg hne]
      have hnext := safe_drop h hS hne hsafe
      obtain ⟨hpos,hle,hfit⟩ := chunkSize_spec hS pos hne
      generalize d.chunkSize pos buf.length = size at hpos hle hfit hnext ⊢
      have htake : (buf.take size).length = size := length_take_of_le hle
      obtain ⟨hg,hc⟩ := h.writeChunk hS (htake.symm ▸ hfit) fun hlen hs ho =>
        hsafe ⟨hs,by omega,by omega,by omega⟩
      have hcs := writeChunk_frame h hS pos (buf.take size)
      obtain ⟨e,he,hg',hc'⟩ := ih hg (hcs ▸ hS) (by rw [length_drop]; omega) hnext
      refine ⟨e,he,hg',?_⟩
      have happ := @blit_append _ d.contents pos (buf.take size) (buf.drop size)
      rw [take_append_drop,htake] at happ
      rw [hc',hc,happ]

theorem Good.doCachedWrite (h : d.Good) (hsafe : Safe d (.write pos buf)) :
    ∃ e, d.doCachedWrite pos buf = some e ∧ e.Good ∧ e.contents = blit d.contents pos buf := by
  unfold Mtdblk.doCachedWrite
  rcases Nat.eq_zero_or_pos d.cacheSize with hz | hS
  · have hs := h.empty_of_zero hz
    rw [if_pos hz]
    refine ⟨_,rfl,⟨h.pos,h.sector,fun hc => ?_⟩,?_⟩
    · cases hs.symm.trans hc
    · rw [contents,if_pos hs,contents,if_pos hs]
  · rw [if_neg hS.ne']
    exact h.writeLoop hS le_rfl hsafe

theorem Good.readChunk (h : d.Good) {size : ℕ} (hfit : pos % d.cacheSize + size ≤ d.cacheSize) :
    d.readChunk pos size = slice d.contents pos size := by
  have hstart : pos / d.cacheSize * d.cacheSize + pos % d.cacheSize = pos := Nat.div_add_mod' ..
  unfold Mtdblk.readChunk contents
  by_cases hs : d.cacheState = .empty
  · grind
  dsimp only
  split
  · next hc =>
    refine slice_congr fun k hk => ?_
    have hin : pos - pos / d.cacheSize * d.cacheSize + k <
        (slice d.cacheData 0 d.cacheSize).length := by
      rw [length_slice]
      omega
    have hb := @blit_of_lt _ d.flash d.cacheOffset _ _ hin
    rw [getElem_slice,zero_add] at hb
    rw [← hb]
    congr 1
    omega
  · next hc =>
    have ho : d.cacheOffset ≠ pos / d.cacheSize * d.cacheSize := fun ho => hc ⟨hs,ho⟩
    have happ := sectors_apart (h.sector hs) (Nat.dvd_mul_left d.cacheSize (pos / d.cacheSize)) ho
    refine slice_congr fun k hk => (blit_of_not_mem ?_).symm
    rw [length_slice]
    omega

theorem Good.readLoop (h : d.Good) (hS : 0 < d.cacheSize) (hf : len ≤ fuel) :
    d.readLoop fuel pos len = some (slice d.contents pos len) := by
  induction fuel generalizing pos len with
  | zero =>
    obtain rfl := Nat.le_zero.mp hf
    rfl
  | succ fuel ih =>
    rw [Mtdblk.readLoop]
    split_ifs with hne
    · rw [hne]
      rfl
    · dsimp only
      obtain ⟨hpos,hle,hfit⟩ := chunkSize_spec hS pos hne
      rw [ih (by omega),h.readChunk hfit,Option.map_some,← slice_add,Nat.add_sub_cancel' hle]

theorem Good.doCachedRead (h : d.Good) (pos len : ℕ) :
    d.doCachedRead pos len = some (slice d.contents pos len) := by
  unfold Mtdblk.doCachedRead
  rcases Nat.eq_zero_or_pos d.cacheSize with hz | hS
  · have hs := h.empty_of_zero hz
    rw [if_pos hz,contents,if_pos hs]
  · rw [if_neg hS.ne']
    exact h.readLoop hS le_rfl

end Mtdblk

/-- The device holds the bytes last written. -/
structure Coherent (mem : ℕ → Byte) (d : Mtdblk) : Prop where
  good : d.Good
  contents : d.contents = mem

theorem Coherent.step {mem : ℕ → Byte} {d : Mtdblk} {c : Call} (h : Coherent mem d) (hsafe : Safe d c) :
    ∃ e, step d c = some e ∧ Coherent (lastWritten mem c) e := by
  cases c with
  | write pos buf =>
    obtain ⟨e,he,hg,hc⟩ := h.good.doCachedWrite hsafe
    exact ⟨e,he,hg,hc.trans (congrArg (blit · pos buf) h.contents)⟩
  | read pos len =>
    exact ⟨d,by rw [Mtd.step,h.good.doCachedRead]; rfl,h⟩
  | flush => exact ⟨_,rfl,h.good.flush,d.writeCachedData_contents.trans h.contents⟩

/-- As long as no write covers the sector in the cache from a boundary on, every call returns, reads
return the bytes last written, and `write_cached_data` brings them to the flash. -/
theorem cache_coherent {d : Mtdblk} {calls : List Call} (hd : d.cacheState = .empty)
    (hm : Meets step Safe d calls) :
    ∃ e, run step d calls = some e ∧
      (∀ pos len, e.doCachedRead pos len = some (slice (calls.foldl lastWritten d.flash) pos len)) ∧
      e.writeCachedData.flash = calls.foldl lastWritten d.flash := by
  have hg : d.Good := ⟨fun hs => absurd hd hs,fun hs => absurd hd hs,fun hc => by cases hd.symm.trans hc⟩
  obtain ⟨e,he,h⟩ := run_fold step (fun _ _ _ hi hs => hi.step hs)
    (⟨hg,if_pos hd⟩ : Coherent d.flash d) hm
  refine ⟨e,he,fun pos len => ?_,h.good.flash_flush.trans h.contents⟩
  rw [h.good.doCachedRead,h.contents]

def blank : Mtdblk := ⟨4,fun _ => 255,fun _ => 0,0,.empty⟩

theorem cache_coherent_parts : ∃ e, run step blank [.write 1 [5],.write 3 [6,7],.read 0 8] = some e ∧
    e.doCachedRead 0 8 = some [255,5,255,6,7,255,255,255] := by
  have hm : Meets step Safe blank [.write 1 [5],.write 3 [6,7],.read 0 8] := by
    refine ⟨fun h => absurd h.2.1 (by decide),fun t ht => ?_⟩
    cases ht
    exact ⟨fun h => absurd h.2.1 (by decide),fun t ht => ⟨trivial,fun _ _ => trivial⟩⟩
  obtain ⟨e,he,hread,-⟩ := cache_coherent rfl hm
  exact ⟨e,he,(hread 0 8).trans (by decide)⟩

/-- A byte is written to a sector, then the sector as a whole: the byte and the old sector come
back, and go to the flash. -/
theorem cache_stale :
    ((run step blank [.write 1 [5],.write 0 [1,2,3,4]]).map fun e =>
      (e.doCachedRead 0 4,slice e.writeCachedData.flash 0 4)) =
        some (some [255,5,255,255],[255,5,255,255]) ∧
    slice ([Call.write 1 [5],.write 0 [1,2,3,4]].foldl lastWritten blank.flash) 0 4 = [1,2,3,4] := by
  decide +kernel

end Simpad.Mtd
