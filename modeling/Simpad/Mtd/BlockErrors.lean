import Simpad.Mtd.Block

namespace Simpad.Mtd
open Memory List Runs

/-- How an operation of the device below ends.  One that fails leaves anything in its range. -/
structure Outcome where
  ret : ℤ
  retlen : ℕ
  content : ℕ → Byte

def eio : ℤ := -5

def spoil (mem content : ℕ → Byte) (pos len : ℕ) : ℕ → Byte := blit mem pos (slice content pos len)

/-- Whether a read or a write got through as a whole. -/
def Outcome.full (o : Outcome) (len : ℕ) : Bool := decide (o.ret = 0 ∧ o.retlen = len)

/-- The result of a read or a write whose length is looked at. -/
def Outcome.checked (o : Outcome) (len : ℕ) : ℤ :=
  if o.ret ≠ 0 then o.ret else if o.retlen ≠ len then eio else 0

/-- A result, the device and the number of operations below so far. -/
structure Result where
  ret : ℤ
  dev : Mtdblk
  ops : ℕ

variable {pos len n : ℕ} {buf : List Byte}

section
variable (o : ℕ → Outcome)

/-- `erase_write` with the outcomes from number `n` on: its result, the flash and the next number. -/
def eraseWriteE (n : ℕ) (flash : ℕ → Byte) (pos : ℕ) (buf : List Byte) : ℤ × (ℕ → Byte) × ℕ :=
  if (o n).ret ≠ 0 then ((o n).ret,spoil flash (o n).content pos buf.length,n + 1)
  else
    let flash := mtdErase flash pos buf.length
    let w := o (n + 1)
    (w.checked buf.length,
      if w.full buf.length then mtdWrite flash pos buf else spoil flash w.content pos buf.length,n + 2)

namespace Mtdblk

/-- `write_cached_data`. -/
def writeCachedDataE (d : Mtdblk) (n : ℕ) : Result :=
  if d.cacheState = .dirty then
    let r := eraseWriteE o n d.flash d.cacheOffset (slice d.cacheData 0 d.cacheSize)
    let d := { d with flash := r.2.1 }
    ⟨r.1,if r.1 = 0 then { d with cacheState := .empty } else d,r.2.2⟩
  else ⟨0,d,n⟩

/-- Fill the cache with the sector at `sectStart` unless it is there. -/
def fillCacheE (d : Mtdblk) (n sectStart : ℕ) : Result :=
  if d.cacheState = .empty ∨ d.cacheOffset ≠ sectStart then
    let r := o n
    if r.full d.cacheSize then ⟨0,d.fillCache sectStart,n + 1⟩
    else ⟨r.checked d.cacheSize,
      { d with cacheData := spoil d.cacheData r.content 0 d.cacheSize, cacheState := .empty },n + 1⟩
  else ⟨0,d,n⟩

/-- `load` with the outcomes. -/
def loadE (d : Mtdblk) (n sectStart : ℕ) : Result :=
  let r := if d.cacheState = .dirty ∧ d.cacheOffset ≠ sectStart then d.writeCachedDataE o n
    else ⟨0,d,n⟩
  if r.ret ≠ 0 then r else r.dev.fillCacheE o r.ops sectStart

/-- One round of `do_cached_write`. -/
def writeChunkE (d : Mtdblk) (n pos : ℕ) (buf : List Byte) : Result :=
  let sectStart := pos / d.cacheSize * d.cacheSize
  if buf.length = d.cacheSize then
    let r := eraseWriteE o n d.flash pos buf
    ⟨r.1,{ d with flash := r.2.1 },r.2.2⟩
  else
    let r := d.loadE o n sectStart
    if r.ret ≠ 0 then r
    else
      let d := r.dev
      ⟨0,{ d with cacheData := blit d.cacheData (pos - sectStart) buf, cacheState := .dirty },r.ops⟩

/-- The loop of `do_cached_write`; `none` if it takes more than `fuel` rounds. -/
def writeLoopE : ℕ → Mtdblk → ℕ → ℕ → List Byte → Option Result
  | fuel, d, n, pos, buf =>
    if buf.length = 0 then some ⟨0,d,n⟩
    else
      match fuel with
      | 0 => none
      | fuel + 1 =>
        let size := d.chunkSize pos buf.length
        let r := d.writeChunkE o n pos (buf.take size)
        if r.ret ≠ 0 then some r
        else writeLoopE fuel r.dev r.ops (pos + size) (buf.drop size)

/-- `do_cached_write`.  Without a cache the length that was written is not looked at. -/
def doCachedWriteE (d : Mtdblk) (n pos : ℕ) (buf : List Byte) : Option Result :=
  if d.cacheSize = 0 then
    let w := o n
    some ⟨w.ret,{ d with
      flash := if w.full buf.length then blit d.flash pos buf
        else spoil d.flash w.content pos buf.length },n + 1⟩
  else d.writeLoopE o buf.length n pos buf

/-- `mtdblock_ioctl` with `BLKFLSBUF`. -/
def flsbuf (d : Mtdblk) (n : ℕ) (capable : Bool) : Result :=
  if capable then
    -- the result of `write_cached_data` is dropped
    let r := d.writeCachedDataE o n
    ⟨0,r.dev,r.ops⟩
  else ⟨-13,d,n⟩

end Mtdblk

theorem spoil_of_not_mem {mem content : ℕ → Byte} {i : ℕ} (h : i < pos ∨ pos + len ≤ i) :
    spoil mem content pos len i = mem i :=
  blit_of_not_mem (by rwa [length_slice])

theorem checked_eq_zero {r : Outcome} : r.checked len = 0 ↔ r.full len = true := by
  rw [Outcome.checked,Outcome.full,decide_eq_true_iff]
  split
  · omega
  · next h =>
    split
    · next h' => exact iff_of_false (by decide) fun hf => h' hf.2
    · omega

/-- `erase_write` does its work or fails, and leaves the rest of the flash. -/
theorem eraseWriteE_cases (n : ℕ) (flash : ℕ → Byte) (pos : ℕ) (buf : List Byte) :
    ((eraseWriteE o n flash pos buf).1 = 0 →
      (eraseWriteE o n flash pos buf).2.1 = eraseWrite flash pos buf) ∧
    ∀ i, i < pos ∨ pos + buf.length ≤ i → (eraseWriteE o n flash pos buf).2.1 i = flash i := by
  rw [eraseWriteE]
  split
  · next h => exact ⟨fun h' => absurd h' h,fun i hi => spoil_of_not_mem hi⟩
  · dsimp only
    have herase : ∀ i, i < pos ∨ pos + buf.length ≤ i → mtdErase flash pos buf.length i = flash i :=
      fun i hi => blit_of_not_mem (by rwa [length_replicate])
    refine ⟨fun h => ?_,fun i hi => ?_⟩
    · rw [if_pos (checked_eq_zero.mp h)]
      rfl
    · split
      · have hlen : (zipWith (· &&& ·) (slice (mtdErase flash pos buf.length) pos buf.length)
            buf).length = buf.length := by
          rw [length_zipWith,length_slice,Nat.min_self]
        exact (blit_of_not_mem (by rwa [hlen])).trans (herase i hi)
      · exact (spoil_of_not_mem hi).trans (herase i hi)

namespace Mtdblk
variable {d : Mtdblk}

/-- What has gone through gives `ok`; a failure leaves the device good, and the bytes of `s`. -/
structure Tried (d ok : Mtdblk) (s : Set ℕ) (r : Result) : Prop where
  done : r.ret = 0 → r.dev = ok
  failed : r.ret ≠ 0 → r.dev.Good ∧ ∀ i ∈ s, r.dev.contents i = d.contents i

theorem Good.writeCachedDataE (h : d.Good) (n : ℕ) :
    d.Tried d.writeCachedData Set.univ (d.writeCachedDataE o n) := by
  rw [Mtdblk.writeCachedDataE,writeCachedData]
  by_cases hd : d.cacheState = .dirty
  · rw [if_pos hd,if_pos hd]
    dsimp only
    obtain ⟨hdone,hframe⟩ :=
      eraseWriteE_cases o n d.flash d.cacheOffset (slice d.cacheData 0 d.cacheSize)
    refine ⟨fun hz => ?_,fun hz => ?_⟩
    · rw [if_pos hz,hdone hz]
    · rw [if_neg hz]
      refine ⟨⟨h.pos,h.sector,fun hc => ?_⟩,fun i _ => ?_⟩
      · cases hd.symm.trans hc
      · have hne : d.cacheState ≠ .empty := fun he => by cases hd.symm.trans he
        rw [contents,if_neg hne,contents,if_neg hne]
        exact blit_congr (hframe i)
  · rw [if_neg hd,if_neg hd]
    exact ⟨fun _ => rfl,fun hz => absurd rfl hz⟩

theorem Good.fillCacheE (h : d.Good) (n : ℕ) {sectStart : ℕ}
    (hd : d.cacheState = .dirty → d.cacheOffset = sectStart) :
    d.Tried (d.fillCache sectStart) Set.univ (d.fillCacheE o n sectStart) := by
  rw [Mtdblk.fillCacheE]
  by_cases hfill : d.cacheState = .empty ∨ d.cacheOffset ≠ sectStart
  · rw [if_pos hfill]
    by_cases hfull : (o n).full d.cacheSize = true
    · rw [if_pos hfull]
      exact ⟨fun _ => rfl,fun hz => absurd rfl hz⟩
    · rw [if_neg hfull]
      refine ⟨fun hz => absurd (checked_eq_zero.mp hz) hfull,fun _ => ⟨⟨?_,?_,?_⟩,fun i _ => ?_⟩⟩
      · simp
      · simp
      · simp
      · have hnd : d.cacheState ≠ .dirty := fun hs => by
          grind
        rw [h.contents_eq_flash hnd]
        exact congrFun (if_pos rfl) i
  · rw [if_neg hfill,fillCache,if_neg hfill]
    exact ⟨fun _ => rfl,fun hz => absurd rfl hz⟩

theorem Good.loadE (h : d.Good) (n sectStart : ℕ) :
    d.Tried (d.load sectStart) Set.univ (d.loadE o n sectStart) := by
  rw [Mtdblk.loadE,load]
  by_cases hd : d.cacheState = .dirty ∧ d.cacheOffset ≠ sectStart
  · rw [if_pos hd,if_pos hd]
    obtain ⟨hdone,hfail⟩ := h.writeCachedDataE o n
    by_cases hz : (d.writeCachedDataE o n).ret = 0
    · rw [if_neg (not_not.mpr hz),hdone hz]
      obtain ⟨hfill,hfail'⟩ := h.flush.fillCacheE o (d.writeCachedDataE o n).ops
        fun hs => absurd hs d.writeCachedData_frame.1
      exact ⟨hfill,d.writeCachedData_contents ▸ hfail'⟩
    · rw [if_pos hz]
      exact ⟨fun hz' => absurd hz' hz,hfail⟩
  · rw [if_neg hd,if_neg hd]
    exact h.fillCacheE o n fun hs => not_not.mp fun hne => hd ⟨hs,hne⟩

theorem Good.elsewhere (h : d.Good) {flash : ℕ → Byte} (hdvd : d.cacheSize ∣ pos)
    (hne : d.cacheState ≠ .empty → d.cacheOffset ≠ pos)
    (hframe : ∀ i, i < pos ∨ pos + d.cacheSize ≤ i → flash i = d.flash i) :
    Good { d with flash := flash } ∧ ∀ i, i < pos ∨ pos + d.cacheSize ≤ i →
      contents { d with flash := flash } i = d.contents i := by
  refine ⟨⟨h.pos,h.sector,fun hc k hk => ?_⟩,fun i hi => ?_⟩
  · have hs : d.cacheState ≠ .empty := fun he => by cases he.symm.trans hc
    refine (hframe _ ?_).trans (h.clean hc k hk)
    have hk : k < d.cacheSize := hk
    have happ := sectors_apart hdvd (h.sector hs) (hne hs).symm
    grind
  · unfold contents
    split
    · exact hframe i hi
    · exact blit_congr fun _ => hframe i hi

theorem Good.writeChunkE (h : d.Good) (n : ℕ) (hfit : pos % d.cacheSize + buf.length ≤ d.cacheSize)
    (hsafe : buf.length = d.cacheSize → d.cacheState ≠ .empty → d.cacheOffset ≠ pos) :
    d.Tried (d.writeChunk pos buf) {i | i < pos ∨ pos + buf.length ≤ i}
      (d.writeChunkE o n pos buf) := by
  rw [Mtdblk.writeChunkE,Mtdblk.writeChunk]
  by_cases hlen : buf.length = d.cacheSize
  · -- a whole sector
    rw [if_pos hlen,if_pos hlen]
    obtain ⟨hdone,hframe⟩ := eraseWriteE_cases o n d.flash pos buf
    refine ⟨fun hz => ?_,fun _ => ?_⟩
    · dsimp only at hz ⊢
      rw [hdone hz]
    · rw [hlen] at hframe ⊢
      exact h.elsewhere (Nat.dvd_of_mod_eq_zero (by omega)) (hsafe hlen) hframe
  · rw [if_neg hlen,if_neg hlen]
    obtain ⟨hdone,hfail⟩ := h.loadE o n (pos / d.cacheSize * d.cacheSize)
    by_cases hz : (d.loadE o n (pos / d.cacheSize * d.cacheSize)).ret = 0
    · rw [if_neg (not_not.mpr hz),hdone hz]
      exact ⟨fun _ => rfl,fun hz' => absurd rfl hz'⟩
    · rw [if_pos hz]
      obtain ⟨hg,hc⟩ := hfail hz
      exact ⟨fun hz' => absurd hz' hz,fun _ => ⟨hg,fun i _ => hc i trivial⟩⟩

theorem Good.writeLoopE (h : d.Good) (hS : 0 < d.cacheSize) {fuel : ℕ} (hf : buf.length ≤ fuel)
    (hsafe : Safe d (.write pos buf)) :
    ∃ r, d.writeLoopE o fuel n pos buf = some r ∧ r.dev.Good ∧
      (r.ret = 0 → r.dev.contents = blit d.contents pos buf) ∧
      ∀ i, i < pos ∨ pos + buf.length ≤ i → r.dev.contents i = d.contents i := by
  induction fuel generalizing d n pos buf with
  | zero =>
    obtain rfl : buf = [] := eq_nil_of_length_eq_zero (Nat.le_zero.mp hf)
    exact ⟨⟨0,d,n⟩,rfl,h,fun _ => blit_nil.symm,fun _ _ => rfl⟩
  | succ fuel ih =>
    rw [Mtdblk.writeLoopE]
    by_cases hne : buf.length = 0
    · obtain rfl : buf = [] := eq_nil_of_length_eq_zero hne
      exact ⟨⟨0,d,n⟩,rfl,h,fun _ => blit_nil.symm,fun _ _ => rfl⟩
    · rw [if_neg hne]
      have hnext := safe_drop h hS hne hsafe
      obtain ⟨hpos,hle,hfit⟩ := chunkSize_spec hS pos hne
      generalize d.chunkSize pos buf.length = size at hpos hle hfit hnext ⊢
      have htake : (buf.take size).length = size := length_take_of_le hle
      have hsafe' : (buf.take size).length = d.cacheSize → d.cacheState ≠ .empty →
          d.cacheOffset ≠ pos := fun hlen hs ho => hsafe ⟨hs,by omega,by omega,by omega⟩
      obtain ⟨hdone,hfail⟩ := h.writeChunkE o n (htake.symm ▸ hfit) hsafe'
      by_cases hz : (d.writeChunkE o n pos (buf.take size)).ret = 0
      · rw [if_neg (not_not.mpr hz)]
        obtain ⟨hg,hc⟩ := h.writeChunk hS (htake.symm ▸ hfit) hsafe'
        have hcs := writeChunk_frame h hS pos (buf.take size)
        rw [hdone hz]
        obtain ⟨r,hr,hg',hret,hout⟩ := ih (n := (d.writeChunkE o n pos (buf.take size)).ops) hg
          (hcs ▸ hS) (by rw [length_drop]; omega) hnext
        refine ⟨r,hr,hg',fun hz' => ?_,fun i hi => ?_⟩
        · have happ := @blit_append _ d.contents pos (buf.take size) (buf.drop size)
          rw [take_append_drop,htake] at happ
          rw [hret hz',hc,happ]
        · rw [hout i (by rw [length_drop]; omega),hc]
          exact blit_of_not_mem (by omega)
      · rw [if_pos hz]
        obtain ⟨hg,hout⟩ := hfail hz
        refine ⟨_,rfl,hg,fun hz' => absurd hz' hz,fun i hi => hout i ?_⟩
        grind

/-- Without a cache a short write that does not fail is not noticed. -/
def Noticed (d : Mtdblk) (n : ℕ) (buf : List Byte) : Prop :=
  d.cacheSize = 0 → (o n).ret = 0 → (o n).retlen = buf.length

theorem Good.doCachedWriteE (h : d.Good) (hsafe : Safe d (.write pos buf))
    (hnote : d.Noticed o n buf) :
    ∃ r, d.doCachedWriteE o n pos buf = some r ∧ r.dev.Good ∧
      (r.ret = 0 → r.dev.contents = blit d.contents pos buf) ∧
      ∀ i, i < pos ∨ pos + buf.length ≤ i → r.dev.contents i = d.contents i := by
  rw [Mtdblk.doCachedWriteE]
  rcases Nat.eq_zero_or_pos d.cacheSize with hz | hS
  · have hs := h.empty_of_zero hz
    rw [if_pos hz]
    refine ⟨_,rfl,⟨h.pos,h.sector,fun hc => ?_⟩,fun hret => ?_,fun i hi => ?_⟩
    · cases hs.symm.trans hc
    · have hfull : (o n).full buf.length = true := decide_eq_true ⟨hret,hnote hz hret⟩
      rw [contents,if_pos hs,contents,if_pos hs]
      exact if_pos hfull
    · rw [contents,if_pos hs,contents,if_pos hs]
      split
      · exact blit_of_not_mem hi
      · exact spoil_of_not_mem hi
  · rw [if_neg hS.ne']
    exact h.writeLoopE o hS le_rfl hsafe

/-- The write back of `BLKFLSBUF` succeeds, if there is something to write back. -/
def FlushSucceeds (d : Mtdblk) (n : ℕ) : Prop :=
  d.cacheState = .dirty → (o n).ret = 0 ∧ (o (n + 1)).full d.cacheSize = true

theorem Good.flsbuf (h : d.Good) {capable : Bool} (hok : d.FlushSucceeds o n)
    (hret : (d.flsbuf o n capable).ret = 0) : (d.flsbuf o n capable).dev.flash = d.contents := by
  cases capable with
  | false =>
    have hne : (-13 : ℤ) ≠ 0 := by decide
    exact absurd hret hne
  | true =>
    have hz : (d.writeCachedDataE o n).ret = 0 := by
      rw [Mtdblk.writeCachedDataE]
      split
      · next hd =>
        obtain ⟨he,hw⟩ := hok hd
        rw [← length_slice d.cacheData 0 d.cacheSize] at hw
        rw [eraseWriteE,if_neg (not_not.mpr he)]
        exact checked_eq_zero.mpr hw
      · rfl
    have hdev : (d.flsbuf o n true).dev = d.writeCachedData := (h.writeCachedDataE o n).done hz
    rw [hdev]
    exact h.flash_flush

end Mtdblk

/-- A device in use, with the bytes whose write has returned 0 and that no failed write has touched
since. -/
structure Session where
  dev : Mtdblk
  ops : ℕ
  stored : ℕ → Option Byte

/-- A call of `do_cached_write`; `none` if it does not return. -/
def Session.write (s : Session) (w : ℕ × List Byte) : Option Session :=
  (s.dev.doCachedWriteE o s.ops w.1 w.2).map fun r =>
    ⟨r.dev,r.ops,blit s.stored w.1
      (if r.ret = 0 then w.2.map some else replicate w.2.length none)⟩

def Session.opened (cacheSize : ℕ) (flash cacheData : ℕ → Byte) : Session :=
  ⟨⟨cacheSize,flash,cacheData,0,.empty⟩,0,fun _ => none⟩

/-- The write does not cover the sector in the cache from a boundary on, and without a cache it is
not cut short without an error. -/
def Session.Careful (s : Session) (w : ℕ × List Byte) : Prop :=
  Safe s.dev (.write w.1 w.2) ∧ s.dev.Noticed o s.ops w.2

structure Session.Holds (s : Session) : Prop where
  good : s.dev.Good
  holds : ∀ i b, s.stored i = some b → s.dev.contents i = b

theorem Session.Holds.write {s : Session} {w : ℕ × List Byte} (h : s.Holds) (hc : s.Careful o w) :
    ∃ t, s.write o w = some t ∧ t.Holds := by
  obtain ⟨r,hr,hg,hret,hout⟩ := h.good.doCachedWriteE o hc.1 hc.2
  refine ⟨_,congrArg (Option.map _) hr,hg,fun i b hb => ?_⟩
  dsimp only at hb ⊢
  have hlen : (if r.ret = 0 then w.2.map some else replicate w.2.length none).length =
      w.2.length := by
    grind
  by_cases hi : i < w.1 ∨ w.1 + w.2.length ≤ i
  · rw [blit_of_not_mem (by rwa [hlen])] at hb
    exact (hout i hi).trans (h.holds i b hb)
  · -- a byte of this write: known just if the write returned 0
    obtain ⟨k,hk,rfl⟩ : ∃ k, k < w.2.length ∧ i = w.1 + k := ⟨i - w.1,by omega,by omega⟩
    split at hb
    · next hz =>
      rw [blit_of_lt (by rwa [length_map]),getElem_map] at hb
      rw [hret hz,blit_of_lt hk]
      exact Option.some.inj hb
    · rw [blit_of_lt (by rwa [length_replicate]),getElem_replicate] at hb
      cases hb

/-- After careful writes with any outcomes below, a `BLKFLSBUF` that returns 0 and whose write back
succeeds leaves all bytes that count as stored in the flash. -/
theorem flush_honest (cacheSize : ℕ) (flash cacheData : ℕ → Byte) (writes : List (ℕ × List Byte))
    (hm : Meets (Session.write o) (Session.Careful o)
      (Session.opened cacheSize flash cacheData) writes) :
    ∃ s, run (Session.write o) (Session.opened cacheSize flash cacheData) writes = some s ∧
      ∀ capable, s.dev.FlushSucceeds o s.ops → (s.dev.flsbuf o s.ops capable).ret = 0 →
        ∀ i b, s.stored i = some b → (s.dev.flsbuf o s.ops capable).dev.flash i = b := by
  have hstart : (Session.opened cacheSize flash cacheData).Holds :=
    ⟨⟨fun he => absurd rfl he,fun he => absurd rfl he,fun hc => CacheState.noConfusion hc⟩,
      fun i b hb => absurd hb.symm (Option.some_ne_none b)⟩
  obtain ⟨s,hs,hold⟩ := exists_run (Session.write o) (fun _ _ h hc => h.write o hc) hstart hm
  refine ⟨s,hs,fun capable hok hret i b hb => ?_⟩
  rw [hold.good.flsbuf o hok hret]
  exact hold.holds i b hb

end

def faultless (_ : ℕ) : Outcome := ⟨0,4,fun _ => 0⟩

theorem flush_honest_parts : ∃ s,
    run (Session.write faultless) (Session.opened 4 (fun _ => 255) fun _ => 0)
      [(1,[5]),(3,[6,7])] = some s ∧ (s.dev.flsbuf faultless s.ops true).dev.flash 3 = 6 := by
  have hm : Meets (Session.write faultless) (Session.Careful faultless)
      (Session.opened 4 (fun _ => 255) fun _ => 0) [(1,[5]),(3,[6,7])] := by
    refine ⟨⟨fun h => absurd h.2.1 (by decide),fun h => absurd h (by decide)⟩,fun t ht => ?_⟩
    cases ht
    exact ⟨⟨fun h => absurd h.2.1 (by decide),fun h => absurd h (by decide)⟩,fun _ _ => trivial⟩
  obtain ⟨s,hs,h⟩ := flush_honest faultless 4 (fun _ => 255) (fun _ => 0) _ hm
  refine ⟨s,hs,?_⟩
  cases hs
  exact h true (fun _ => ⟨rfl,rfl⟩) rfl 3 6 (by decide)

/-- The erase of the write back fails: `BLKFLSBUF` returns 0, and the byte is not in the flash. -/
theorem flush_lost :
    ((run (Session.write fun n => ⟨if n = 0 then 0 else -5,4,fun _ => 255⟩)
        (Session.opened 4 (fun _ => 255) fun _ => 0) [(1,[5])]).map fun s =>
      let r := s.dev.flsbuf (fun n => ⟨if n = 0 then 0 else -5,4,fun _ => 255⟩) s.ops true
      (s.stored 1,r.ret,r.dev.flash 1)) = some (some 5,0,255) := by
  decide +kernel

end Simpad.Mtd
