import Mathlib.Tactic

/-! Interleaved flash chips share the bus, each in a lane of its own, and a command or a status word holds
one byte for every lane. -/

namespace Simpad.Mtd

open List

/-- `cfi_word`. -/
abbrev Word := BitVec 64

/-- The geometry: the width of the bus in bytes, the number of chips on it and the `device_type` of
the chips. -/
structure Cfi where
  buswidth : ℕ
  interleave : ℕ
  deviceType : ℕ

inductive Errno
  | ok | eio | erofs | einval
deriving DecidableEq

variable {status : Word}

namespace Cfi

def laneWidth (c : Cfi) : ℕ := c.buswidth / c.interleave

/-- The geometries `cfi_build_cmd` knows with up to four chips; a chip is at least as wide as its
lane. -/
structure Supported (c : Cfi) : Prop where
  bus : (c.buswidth,c.interleave) ∈
    [(1,1),(2,1),(2,2),(4,1),(4,2),(4,4),(8,1),(8,2),(8,4)]
  type : c.laneWidth ∣ c.deviceType
  pos : 0 < c.deviceType

/-- `cfi_build_cmd`, the macro `CMD`. -/
def cmd (c : Cfi) (x : BitVec 8) : Word :=
  let x : Word := x.setWidth 64
  if c.buswidth = 1 then x
  else if c.buswidth = 2 then
    if c.interleave = 1 then x
    else if c.interleave = 2 then (x <<< 8) ||| x
    else 0
  else if c.buswidth = 4 then
    if c.interleave = 1 then x
    else if c.interleave = 2 then (x <<< 16) ||| x
    else if c.interleave = 4 then
      let val := (x <<< 16) ||| x
      (val <<< 8) ||| val
    else 0
  else if c.buswidth = 8 then
    if c.interleave = 1 then x
    else if c.interleave = 2 then (x <<< 32) ||| x
    else if c.interleave = 4 then
      let val := (x <<< 16) ||| x
      (val <<< 32) ||| val
    else if c.interleave = 8 then
      let val := (x <<< 8) ||| x
      let val := (val <<< 16) ||| val
      (val <<< 32) ||| val
    else 0
  else 0

/-- `(status & status_OK) == status_OK`. -/
def ready (c : Cfi) (status : Word) : Bool := status &&& c.cmd 0x80 = c.cmd 0x80

/-- The status register of chip `l`. -/
def lane (c : Cfi) (l : ℕ) (status : Word) : BitVec 8 :=
  (status >>> (8 * c.laneWidth * l)).setWidth 8

/-- The end of `do_write_oneword`: only the lock bit is looked at. -/
def doWriteOneword (c : Cfi) (status : Word) : Errno :=
  if status &&& c.cmd 0x02 ≠ 0 then .erofs else .ok

/-- The end of `do_write_buffer`. -/
def doWriteBuffer (c : Cfi) (status : Word) : Errno :=
  if status &&& c.cmd 0x02 ≠ 0 then .erofs else .ok

/-- `chipstatus`: the same byte is taken in for every further chip. -/
def chipstatus (c : Cfi) (status : Word) : BitVec 8 :=
  if status ≠ c.cmd (status.setWidth 8) then
    (range (c.interleave - 1)).foldl
      (fun m _ => m ||| (status >>> (c.deviceType * 8)).setWidth 8) (status.setWidth 8)
  else status.setWidth 8

/-- What an attempt to erase comes to; `retry` is the branch for a failed erase. -/
inductive Attempt
  | ret (e : Errno)
  | retry
deriving DecidableEq

/-- The branches on `chipstatus`. -/
def judge (m : BitVec 8) : Attempt :=
  if m &&& 0x30 = 0x30 then .ret .eio
  else if m &&& 0x02 ≠ 0 then .ret .erofs
  else if m &&& 0x08 ≠ 0 then .ret .eio
  else if m &&& 0x20 ≠ 0 then .retry
  else .ret .ok

def eraseAttempt (c : Cfi) (status : Word) : Attempt :=
  if status &&& c.cmd 0x3a ≠ 0 then judge (c.chipstatus status) else .ret .ok

/-- `do_erase_oneblock` on the status words of its attempts: the result, and the word it is from. -/
def eraseAttempts (c : Cfi) : (retries : ℕ) → (status : ℕ → Word) → Errno × Word
  | 0, status =>
    match c.eraseAttempt (status 0) with
    | .ret e => (e,status 0)
    | .retry => (.eio,status 0)
  | retries + 1, status =>
    match c.eraseAttempt (status 0) with
    | .ret e => (e,status 0)
    | .retry => c.eraseAttempts retries fun k => status (k + 1)

def doEraseOneblock (c : Cfi) (status : ℕ → Word) : Errno × Word := c.eraseAttempts 3 status

/-- The end of `cfi_intelext_erase_varsize`: the result and whether `MTD_ERASE_DONE` is signalled. -/
def eraseVarsize (ret : Errno) : Errno × Bool := if ret ≠ .ok then (ret,false) else (.ok,true)

/-- No chip has one of the error bits SR.5, SR.4, SR.3 and SR.1. -/
def NoError (c : Cfi) (status : Word) : Prop :=
  ∀ l < c.interleave, c.lane l status &&& 0x3a = 0

instance (c : Cfi) (status : Word) : Decidable (c.NoError status) :=
  inferInstanceAs (Decidable (∀ l < c.interleave, _))

/-- The bytes `do_erase_oneblock` merges. -/
def looked (c : Cfi) (status : Word) : BitVec 8 :=
  if c.interleave = 1 then status.setWidth 8
  else status.setWidth 8 ||| (status >>> (c.deviceType * 8)).setWidth 8

theorem ne_zero_iff {w : ℕ} {x : BitVec w} : x ≠ 0 ↔ ∃ k < w, x.getLsbD k = true := by
  constructor
  · intro h
    by_contra hn
    push Not at hn
    exact h (BitVec.eq_of_getLsbD_eq fun k hk => by simpa using hn k hk)
  · rintro ⟨k,-,hk⟩ rfl
    simp at hk

theorem or_ne_zero {w : ℕ} {x y : BitVec w} : x ||| y ≠ 0 ↔ x ≠ 0 ∨ y ≠ 0 := by
  simp only [ne_zero_iff,BitVec.getLsbD_or,Bool.or_eq_true]
  constructor
  · grind
  · grind

theorem and_shiftLeft_ne_zero (status : Word) (x : BitVec 8) {s : ℕ} (hs : s + 8 ≤ 64) :
    status &&& (x.setWidth 64 <<< s) ≠ 0 ↔ (status >>> s).setWidth 8 &&& x ≠ 0 := by
  simp only [ne_zero_iff,BitVec.getLsbD_and,BitVec.getLsbD_shiftLeft,BitVec.getLsbD_setWidth,
    BitVec.getLsbD_ushiftRight,Bool.and_eq_true,decide_eq_true_eq,Bool.not_eq_true']
  constructor
  · rintro ⟨k,hk,hst,⟨-,hsk⟩,-,hx⟩
    have hlt : k - s < 8 := by
      grind
    grind
  · rintro ⟨j,hj,⟨-,hst⟩,hx⟩
    refine ⟨s + j,by omega,hst,⟨by omega,by simp⟩,by omega,?_⟩
    rwa [Nat.add_sub_cancel_left]

variable {c : Cfi}

theorem Supported.forall {P : ℕ → ℕ → Prop} (hc : c.Supported)
    (h : ∀ g ∈ [(1,1),(2,1),(2,2),(4,1),(4,2),(4,4),(8,1),(8,2),(8,4)], P g.1 g.2) :
    P c.buswidth c.interleave := h _ hc.bus

theorem cmd_eq (hc : c.Supported) (x : BitVec 8) :
    c.cmd x = (range c.interleave).foldr
      (fun l acc => x.setWidth 64 <<< (8 * c.laneWidth * l) ||| acc) 0 :=
  hc.forall (P := fun b i => ∀ x : BitVec 8, (Cfi.mk b i 1).cmd x = (range i).foldr
    (fun l acc => x.setWidth 64 <<< (8 * (b / i) * l) ||| acc) 0) (by decide +kernel) x

theorem lanes_fit (hc : c.Supported) :
    c.laneWidth * c.interleave = c.buswidth ∧ c.buswidth ≤ 8 ∧ 0 < c.interleave :=
  hc.forall (P := fun b i => b / i * i = b ∧ b ≤ 8 ∧ 0 < i) (by decide)

theorem laneWidth_pos (hc : c.Supported) : 0 < c.laneWidth :=
  hc.forall (P := fun b i => 0 < b / i) (by decide)

theorem lane_cmd (hc : c.Supported) (x : BitVec 8) {l : ℕ} (hl : l < c.interleave) :
    c.lane l (c.cmd x) = x :=
  hc.forall (P := fun b i => ∀ l ∈ range i, ∀ x : BitVec 8,
    (Cfi.mk b i 1).lane l ((Cfi.mk b i 1).cmd x) = x) (by decide +kernel) l (mem_range.mpr hl) x

theorem and_cmd_ne_zero (hc : c.Supported) (status : Word) (x : BitVec 8) :
    status &&& c.cmd x ≠ 0 ↔ ∃ l < c.interleave, c.lane l status &&& x ≠ 0 := by
  obtain ⟨hmul,hle,-⟩ := lanes_fit hc
  have hw := laneWidth_pos hc
  have hfold : ∀ ls : List ℕ, (∀ l ∈ ls, l < c.interleave) →
      (status &&& ls.foldr (fun l acc => x.setWidth 64 <<< (8 * c.laneWidth * l) ||| acc) 0 ≠ 0 ↔
        ∃ l ∈ ls, c.lane l status &&& x ≠ 0) := by
    intro ls
    induction ls with
    | nil => simp
    | cons l ls ih =>
      intro hls
      have hl : l + 1 ≤ c.interleave := hls l mem_cons_self
      have hfit : 8 * c.laneWidth * l + 8 ≤ 64 := by
        nlinarith
      rw [foldr_cons,BitVec.and_or_distrib_left,or_ne_zero,
        and_shiftLeft_ne_zero status x hfit,ih fun m hm => hls m (mem_cons_of_mem l hm)]
      simp only [mem_cons,exists_eq_or_imp]
      rfl
  rw [cmd_eq hc,hfold _ fun l hl => mem_range.mp hl]
  simp only [mem_range]

/-- The byte at `device_type * 8` is that of a chip, or there is nothing on the bus. -/
theorem byte_deviceType (hc : c.Supported) (hs : status.toNat < 256 ^ c.buswidth) :
    (∃ l < c.interleave, (status >>> (c.deviceType * 8)).setWidth 8 = c.lane l status) ∨
      (status >>> (c.deviceType * 8)).setWidth 8 = (0 : BitVec 8) := by
  obtain ⟨q,hq⟩ := hc.type
  obtain ⟨hmul,-,-⟩ := lanes_fit hc
  have hshift : c.deviceType * 8 = 8 * c.laneWidth * q := by
    rw [hq]
    ring
  by_cases hlt : q < c.interleave
  · exact .inl ⟨q,hlt,by rw [hshift,lane]⟩
  · right
    have hbeyond : 8 * c.buswidth ≤ c.deviceType * 8 := by
      nlinarith [Nat.mul_le_mul_left c.laneWidth (not_lt.mp hlt)]
    have hzero : status >>> (c.deviceType * 8) = 0 := by
      apply BitVec.eq_of_toNat_eq
      rw [BitVec.toNat_ushiftRight,Nat.shiftRight_eq_div_pow]
      refine Nat.div_eq_of_lt (lt_of_lt_of_le hs ?_)
      rw [show (256 : ℕ) = 2 ^ 8 from rfl,← pow_mul]
      exact Nat.pow_le_pow_right (by decide) hbeyond
    rw [hzero]
    rfl

theorem foldl_or_const (m y : BitVec 8) (n : ℕ) :
    (range (n + 1)).foldl (fun m _ => m ||| y) m = m ||| y := by
  induction n with
  | zero => rfl
  | succ n ih =>
    rw [range_succ,foldl_append,ih]
    simp [BitVec.or_assoc]

theorem chipstatus_eq (hc : c.Supported) (hs : status.toNat < 256 ^ c.buswidth) :
    c.chipstatus status = c.looked status := by
  obtain ⟨-,-,hpos⟩ := lanes_fit hc
  rw [chipstatus,looked]
  by_cases hone : c.interleave = 1
  · simp [hone]
  · obtain ⟨n,hn⟩ : ∃ n, c.interleave - 1 = n + 1 := ⟨c.interleave - 2,by omega⟩
    rw [if_neg hone,hn,foldl_or_const]
    split_ifs with hdiff
    · rfl
    · have hsame : status = c.cmd (status.setWidth 8) := not_not.mp hdiff
      obtain ⟨l,hl,hbyte⟩ | hbyte := byte_deviceType hc hs
      · rw [hbyte]
        conv_rhs => rw [hsame,lane_cmd hc _ hl]
        grind
      · grind

theorem judge_eq_ok : ∀ m : BitVec 8, judge m = .ret .ok ↔ m &&& 0x2a = 0 := by
  decide +kernel

theorem and_mono : ∀ m : BitVec 8, m &&& 0x2a ≠ 0 → m &&& 0x3a ≠ 0 := by
  decide +kernel

theorem looked_found (hc : c.Supported) (hs : status.toNat < 256 ^ c.buswidth)
    (h : c.looked status &&& 0x2a ≠ 0) : status &&& c.cmd 0x3a ≠ 0 := by
  obtain ⟨-,-,hpos⟩ := lanes_fit hc
  have hfirst : status.setWidth 8 &&& (0x2a : BitVec 8) ≠ 0 → status &&& c.cmd 0x3a ≠ 0 := by
    intro h0
    refine (and_cmd_ne_zero hc status 0x3a).mpr ⟨0,hpos,?_⟩
    exact and_mono _ h0
  rw [looked] at h
  split_ifs at h with hone
  · exact hfirst h
  · rw [BitVec.and_comm,BitVec.and_or_distrib_left,or_ne_zero,BitVec.and_comm,
      BitVec.and_comm 0x2a] at h
    obtain h | h := h
    · exact hfirst h
    · obtain ⟨l,hl,hbyte⟩ | hbyte := byte_deviceType hc hs
      · exact (and_cmd_ne_zero hc status 0x3a).mpr ⟨l,hl,and_mono _ (hbyte ▸ h)⟩
      · grind

theorem eraseAttempt_ok (hc : c.Supported) (hs : status.toNat < 256 ^ c.buswidth) :
    c.eraseAttempt status = .ret .ok ↔ c.looked status &&& 0x2a = 0 := by
  rw [eraseAttempt,chipstatus_eq hc hs]
  split_ifs with hfound
  · exact judge_eq_ok _
  · refine iff_of_true rfl ?_
    by_contra h
    exact hfound (looked_found hc hs h)

theorem eraseAttempts_ok (hc : c.Supported) (retries : ℕ) {status : ℕ → Word}
    (hs : ∀ k, (status k).toNat < 256 ^ c.buswidth) :
    (c.eraseAttempts retries status).1 = .ok ↔
      c.looked (c.eraseAttempts retries status).2 &&& 0x2a = 0 := by
  have hzero := eraseAttempt_ok hc (hs 0)
  induction retries generalizing status with
  | zero =>
    cases ha : c.eraseAttempt (status 0) <;> simp only [ha,eraseAttempts] at hzero ⊢ <;>
      simpa using hzero
  | succ retries ih =>
    cases ha : c.eraseAttempt (status 0) with
    | ret e =>
      simp only [ha,eraseAttempts] at hzero ⊢
      simpa using hzero
    | retry =>
      simp only [ha,eraseAttempts]
      exact ih (fun k => hs (k + 1)) (eraseAttempt_ok hc (hs 1))

theorem doWrite_ok (hc : c.Supported) (status : Word) :
    (status &&& c.cmd 0x02 = 0) ↔ ¬∃ l < c.interleave, c.lane l status &&& 0x02 ≠ 0 := by
  rw [← and_cmd_ne_zero hc,ne_eq,not_not]

theorem eraseVarsize_done (e : Errno) : (eraseVarsize e).2 = true ↔ e = .ok := by
  cases e <;> decide

/-- The final status words for which an operation returns 0, or an erase is signalled as done, only
if no chip reports an error. -/
theorem errors_reported_iff (hc : c.Supported) {status : ℕ → Word}
    (hs : ∀ k, (status k).toNat < 256 ^ c.buswidth) :
    ((c.doWriteOneword (status 0) = .ok → c.NoError (status 0)) ↔
      c.NoError (status 0) ∨ ∃ l < c.interleave, c.lane l (status 0) &&& 0x02 ≠ 0) ∧
    ((c.doWriteBuffer (status 0) = .ok → c.NoError (status 0)) ↔
      c.NoError (status 0) ∨ ∃ l < c.interleave, c.lane l (status 0) &&& 0x02 ≠ 0) ∧
    (((c.doEraseOneblock status).1 = .ok ∨ (eraseVarsize (c.doEraseOneblock status).1).2 = true →
        c.NoError (c.doEraseOneblock status).2) ↔
      c.NoError (c.doEraseOneblock status).2 ∨
        c.looked (c.doEraseOneblock status).2 &&& 0x2a ≠ 0) := by
  have hword : ∀ e : Errno, (e = .ok ↔ ¬∃ l < c.interleave, c.lane l (status 0) &&& 0x02 ≠ 0) →
      ((e = .ok → c.NoError (status 0)) ↔
        c.NoError (status 0) ∨ ∃ l < c.interleave, c.lane l (status 0) &&& 0x02 ≠ 0) := by
    grind
  have hok : ∀ w : Word, (if w &&& c.cmd 0x02 ≠ 0 then Errno.erofs else .ok) = .ok ↔
      ¬∃ l < c.interleave, c.lane l w &&& 0x02 ≠ 0 := by
    intro w
    rw [← doWrite_ok hc]
    simp
  refine ⟨hword _ (hok _),hword _ (hok _),?_⟩
  rw [eraseVarsize_done,or_self,doEraseOneblock,eraseAttempts_ok hc 3 hs,imp_iff_not_or,or_comm]

theorem errors_reported_locked :
    (Cfi.mk 4 2 2).Supported ∧
      ((Cfi.mk 4 2 2).doWriteOneword 0x00800082 = .ok → (Cfi.mk 4 2 2).NoError 0x00800082) := by
  have hc : (Cfi.mk 4 2 2).Supported := ⟨by decide,by decide,by decide⟩
  have hs : ∀ k : ℕ, ((fun _ => 0x00800082 : ℕ → Word) k).toNat < 256 ^ (Cfi.mk 4 2 2).buswidth :=
    fun _ => (by decide : (0x00800082 : Word).toNat < 256 ^ 4)
  exact ⟨hc,(errors_reported_iff hc hs).1.mpr (.inr ⟨0,by decide,by decide⟩)⟩

/-- SR.4 after a word write is passed over, and so is a failed erase of the third of four chips. -/
theorem errors_passed_over :
    ((Cfi.mk 2 1 2).doWriteOneword 0x0090 = .ok ∧ ¬(Cfi.mk 2 1 2).NoError 0x0090) ∧
    ((Cfi.mk 2 1 2).doWriteBuffer 0x0090 = .ok ∧ ¬(Cfi.mk 2 1 2).NoError 0x0090) ∧
    ((Cfi.mk 4 4 1).doEraseOneblock (fun _ => 0x80a08080) = (.ok,0x80a08080) ∧
      ¬(Cfi.mk 4 4 1).NoError 0x80a08080) := by
  decide

end Cfi

end Simpad.Mtd
