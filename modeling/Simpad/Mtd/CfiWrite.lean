import Simpad.Base.Word
import Simpad.Mtd.Cfi

namespace Simpad.Mtd.Write
open Word List

abbrev Byte := BitVec 8

structure Nor where
  buswidth : ℕ
  interleave : ℕ
  maxBufWriteSize : ℕ
  chipshift : ℕ
  numchips : ℕ

/-- The bytes `l` programmed from `pos` on. -/
def burn (mem : ℕ → Byte) (pos : ℕ) (l : List Byte) : ℕ → Byte := fun i =>
  if pos ≤ i then mem i &&& l[i - pos]?.getD 0xff else mem i

/-- A program of one word or of a buffer, at an address of a chip. -/
structure Program where
  buffered : Bool
  chip : ℕ
  adr : ℕ
  data : List Byte

/-- What the chips do with a program: if it fails, the call returns anything and leaves anything. -/
structure Outcome where
  success : Bool
  ret : Errno
  mem : ℕ → Byte

/-- The bytes of the device, whether all programs have succeeded, and the programs; `env` is what
will become of the next ones. -/
structure Cells where
  mem : ℕ → Byte
  good : Bool
  log : List Program
  env : ℕ → Outcome

/-- What a call returns, `*retlen` and the cells. -/
structure Ret where
  errno : Errno
  retlen : ℕ
  s : Cells

/-- The local variables of the two functions; `len` is the length of `buf`. -/
structure Cursor where
  chipnum : ℕ
  ofs : ℕ
  buf : List Byte
  retlen : ℕ
  s : Cells

inductive Flow
  | ret (r : Ret)
  | go (c : Cursor)

def Flow.andThen : Option Flow → (Cursor → Option Ret) → Option Ret
  | none, _ => none
  | some (.ret r), _ => some r
  | some (.go c), f => f c

namespace Nor
variable (d : Nor)

/-- `1 << chipshift`. -/
def chipsize : ℕ := 2 ^ d.chipshift

/-- `CFIDEV_INTERLEAVE << MaxBufWriteSize`. -/
def wbufsize : ℕ := d.interleave <<< d.maxBufWriteSize

/-- One program; `accepted` if the chip was told as many words as it gets. -/
def program (s : Cells) (p : Program) (accepted : Bool) : Errno × Cells :=
  let o := s.env 0
  let s := { s with log := s.log ++ [p], env := fun n => s.env (n + 1) }
  if o.success && accepted then
    (.ok,{ s with mem := burn s.mem (p.chip * d.chipsize + p.adr) p.data })
  else (o.ret,{ s with mem := o.mem, good := false })

def doWriteOneword (s : Cells) (chip adr : ℕ) (datum : List Byte) : Errno × Cells :=
  d.program s ⟨false,chip,adr,datum⟩ true

/-- The number of words goes to the chip as a byte of a command. -/
def doWriteBuffer (s : Cells) (chip adr : ℕ) (buf : List Byte) : Errno × Cells :=
  let words := buf.length / d.buswidth
  let count : Byte := BitVec.ofNat 8 (words - 1)
  if d.buswidth ∉ [1,2,4,8] then (.einval,s)
  else d.program s ⟨true,chip,adr,buf⟩ (count.toNat + 1 = words)

/-- Behind `n` bytes: to the next chip if this one ends, and back to the caller behind the last
chip. -/
def advance (c : Cursor) (n retlen : ℕ) (s : Cells) : Flow :=
  let ofs := c.ofs + n
  let buf := c.buf.drop n
  if ofs / d.chipsize ≠ 0 then
    if c.chipnum + 1 = d.numchips then .ret ⟨.ok,retlen,s⟩
    else .go ⟨c.chipnum + 1,0,buf,retlen,s⟩
  else .go ⟨c.chipnum,ofs,buf,retlen,s⟩

/-- Behind a program of `n` bytes. -/
def afterProgram (c : Cursor) (n : ℕ) (r : Errno × Cells) : Flow :=
  if r.1 ≠ .ok then .ret ⟨r.1,c.retlen,r.2⟩ else d.advance c n (c.retlen + n) r.2

/-- The word that the range starts inside of. -/
def headWord (c : Cursor) : Flow :=
  let gap := c.ofs &&& (d.buswidth - 1)
  if gap ≠ 0 then
    let n := min c.buf.length (d.buswidth - gap)
    let tmpBuf := replicate gap 0xff ++
      (c.buf.take n ++ replicate (d.buswidth - gap - n) 0xff)
    if d.buswidth ∉ [2,4,8] then .ret ⟨.einval,c.retlen,c.s⟩
    else d.afterProgram c n (d.doWriteOneword c.s c.chipnum (c.ofs - gap) tmpBuf)
  else .go c

def wordLoop : (fuel : ℕ) → Cursor → Option Flow
  | 0, _ => none
  | fuel + 1, c =>
    if c.buf.length < d.buswidth then some (.go c)
    else if d.buswidth ∉ [1,2,4,8] then some (.ret ⟨.einval,c.retlen,c.s⟩)
    else
      match d.afterProgram c d.buswidth
          (d.doWriteOneword c.s c.chipnum c.ofs (c.buf.take d.buswidth)) with
      | .ret r => some (.ret r)
      | .go c => wordLoop fuel c

/-- The word that the range ends inside of. -/
def tailWord (c : Cursor) : Ret :=
  if c.buf.length &&& (d.buswidth - 1) ≠ 0 then
    let tmpBuf := c.buf ++ replicate (d.buswidth - c.buf.length) 0xff
    if d.buswidth ∉ [2,4,8] then ⟨.einval,c.retlen,c.s⟩
    else
      let r := d.doWriteOneword c.s c.chipnum c.ofs tmpBuf
      if r.1 ≠ .ok then ⟨r.1,c.retlen,r.2⟩ else ⟨.ok,c.retlen + c.buf.length,r.2⟩
  else ⟨.ok,c.retlen,c.s⟩

/-- The place `dst` as chip and address. -/
def start (s : Cells) (dst : ℕ) (buf : List Byte) : Cursor :=
  ⟨dst / d.chipsize,dst - dst / d.chipsize * d.chipsize,buf,0,s⟩

def writeWords (s : Cells) (dst : ℕ) (buf : List Byte) : Option Ret :=
  if buf.length = 0 then some ⟨.ok,0,s⟩
  else
    Flow.andThen (some (d.headWord (d.start s dst buf))) fun c =>
      Flow.andThen (d.wordLoop (c.buf.length + 1) c) fun c =>
        some (d.tailWord c)

/-- The bytes up to the next word boundary, with `cfi_intelext_write_words`. -/
def headWords (dst : ℕ) (c : Cursor) : Option Flow :=
  if c.ofs &&& (d.buswidth - 1) ≠ 0 then
    let localLen := sub32 0 c.ofs &&& (d.buswidth - 1)
    let localLen := if c.buf.length < localLen then c.buf.length else localLen
    match d.writeWords c.s dst (c.buf.take localLen) with
    | none => none
    | some r =>
      if r.errno ≠ .ok then some (.ret r) else some (d.advance c localLen r.retlen r.s)
  else some (.go c)

/-- The size of the next buffer: up to the end of the write block. -/
def bufSize (c : Cursor) : ℕ :=
  let size := d.wbufsize - (c.ofs &&& (d.wbufsize - 1))
  if c.buf.length < size then c.buf.length - (c.buf.length &&& (d.buswidth - 1)) else size

def bufLoop : (fuel : ℕ) → Cursor → Option Flow
  | 0, _ => none
  | fuel + 1, c =>
    if c.buf.length ≤ d.buswidth then some (.go c)
    else
      match d.afterProgram c (d.bufSize c)
          (d.doWriteBuffer c.s c.chipnum c.ofs (c.buf.take (d.bufSize c))) with
      | .ret r => some (.ret r)
      | .go c => bufLoop fuel c

def restWords (c : Cursor) : Option Ret :=
  if 0 < c.buf.length then
    match d.writeWords c.s (c.ofs + c.chipnum * d.chipsize) c.buf with
    | none => none
    | some r =>
      if r.errno ≠ .ok then some ⟨r.errno,c.retlen,r.s⟩
      else some ⟨.ok,c.retlen + r.retlen,r.s⟩
  else some ⟨.ok,c.retlen,c.s⟩

def writeBuffers (s : Cells) (dst : ℕ) (buf : List Byte) : Option Ret :=
  if buf.length = 0 then some ⟨.ok,0,s⟩
  else
    Flow.andThen (d.headWords dst (d.start s dst buf)) fun c =>
      Flow.andThen (d.bufLoop (c.buf.length + 1) c) fun c =>
        d.restWords c

end Nor

section
variable {mem : ℕ → Byte} {pos i : ℕ} {l l' : List Byte}

theorem and_ones (b : Byte) : b &&& 0xff = b := BitVec.and_allOnes

theorem burn_of_lt {k : ℕ} (hk : k < l.length) :
    burn mem pos l (pos + k) = mem (pos + k) &&& l[k] := by
  rw [burn,if_pos (Nat.le_add_right _ _),Nat.add_sub_cancel_left,getElem?_eq_getElem hk]
  rfl

theorem burn_of_not_mem (h : i < pos ∨ pos + l.length ≤ i) : burn mem pos l i = mem i := by
  rw [burn]
  split
  · rw [getElem?_eq_none (by omega),Option.getD_none,and_ones]
  · rfl

theorem burn_append : burn mem pos (l ++ l') = burn (burn mem pos l) (pos + l.length) l' := by
  funext i
  by_cases hi : i < pos + l.length
  · rw [burn_of_not_mem (.inl hi),burn,burn]
    grind
  · rw [burn,burn,if_pos (by omega),if_pos (by omega),getElem?_append_right (by omega),
      burn_of_not_mem (.inr (by omega))]
    congr 3
    omega

theorem burn_nil : burn mem pos [] = mem := funext fun _ => burn_of_not_mem (lt_or_ge _ _)

theorem burn_replicate (n : ℕ) : burn mem pos (replicate n 0xff) = mem := by
  funext i
  rw [burn]
  split
  · rw [getElem?_replicate]
    split <;> exact and_ones _
  · rfl

theorem burn_padded (a b : ℕ) :
    burn mem pos (replicate a 0xff ++ (l ++ replicate b 0xff)) =
      burn mem (pos + a) l := by
  rw [burn_append,burn_replicate,length_replicate,burn_append,burn_replicate]

end

def Program.Inside (d : Nor) (p : Program) : Prop :=
  p.buffered = true → p.adr / d.wbufsize = (p.adr + p.data.length - 1) / d.wbufsize ∧
    p.adr + p.data.length ≤ d.chipsize

variable {dst x fuel : ℕ} {d : Nor}

theorem Program.inside_word {chip adr : ℕ} {data : List Byte} :
    (⟨false,chip,adr,data⟩ : Program).Inside d := nofun

/-- From `s₀` on the bytes `l` have been programmed at `dst`. -/
structure Wrote (d : Nor) (s₀ : Cells) (dst : ℕ) (l : List Byte) (s : Cells) : Prop where
  inside : (∀ p ∈ s₀.log, p.Inside d) → ∀ p ∈ s.log, p.Inside d
  good : s.good = true → s₀.good = true ∧ s.mem = burn s₀.mem dst l

section
variable {d : Nor} {s₀ s s' : Cells} {dst : ℕ} {l l' : List Byte}

theorem Wrote.refl (d : Nor) (s : Cells) (dst : ℕ) : Wrote d s dst [] s :=
  ⟨id,fun h => ⟨h,burn_nil.symm⟩⟩

theorem Wrote.append (h : Wrote d s₀ dst l s) (h' : Wrote d s (dst + l.length) l' s') :
    Wrote d s₀ dst (l ++ l') s' := by
  refine ⟨fun hs => h'.inside (h.inside hs),fun hg => ?_⟩
  obtain ⟨hg,hm'⟩ := h'.good hg
  obtain ⟨hg,hm⟩ := h.good hg
  exact ⟨hg,by rw [hm',hm,burn_append]⟩

/-- A program with the bytes `l` between bytes to fill up with. -/
theorem Nor.program_wrote {p : Program} {accepted : Bool} {a b : ℕ} (hp : p.Inside d)
    (hdata : p.data = replicate a 0xff ++ (l ++ replicate b 0xff))
    (hdst : p.chip * d.chipsize + p.adr + a = dst) :
    Wrote d s dst l (d.program s p accepted).2 := by
  have hlog : (∀ q ∈ s.log, q.Inside d) → ∀ q ∈ s.log ++ [p], q.Inside d := by
    intro hs q hq
    obtain hq | hq := mem_append.mp hq
    · exact hs q hq
    · grind
  rw [Nor.program]
  split
  · refine ⟨hlog,fun hg => ⟨hg,?_⟩⟩
    rw [hdata,← hdst]
    exact burn_padded a b
  · exact ⟨hlog,fun hg => by cases hg⟩

end

/-- What a call has to have done when it returns 0. -/
def Ret.Final (d : Nor) (s₀ : Cells) (dst : ℕ) (buf : List Byte) (r : Ret) : Prop :=
  r.errno = .ok → r.retlen = buf.length ∧ Wrote d s₀ dst buf r.s

/-- The state of the functions on the way: `retlen` bytes are done, and either write blocks of
size `w` fit the chips or all that is left is on the chip. -/
structure Cursor.Inv (d : Nor) (w : ℕ) (s₀ : Cells) (dst : ℕ) (buf : List Byte) (c : Cursor) :
    Prop where
  rest : c.buf = buf.drop c.retlen
  le : c.retlen ≤ buf.length
  pos : c.chipnum * d.chipsize + c.ofs = dst + c.retlen
  lt : c.ofs < d.chipsize
  fits : w ≤ d.chipsize ∨ c.ofs + c.buf.length ≤ d.chipsize
  wrote : Wrote d s₀ dst (buf.take c.retlen) c.s

def Flow.Post (d : Nor) (s₀ : Cells) (dst : ℕ) (buf : List Byte) (P : Cursor → Prop) : Flow → Prop
  | .ret r => r.Final d s₀ dst buf
  | .go c => P c

theorem Flow.Post.imp {s₀ : Cells} {buf : List Byte} {P Q : Cursor → Prop} {f : Flow}
    (h : f.Post d s₀ dst buf P) (hpq : ∀ c, P c → Q c) : f.Post d s₀ dst buf Q := by
  cases f with
  | ret r => exact h
  | go c => exact hpq c h

theorem Flow.Post.andThen {s₀ : Cells} {buf : List Byte} {P : Cursor → Prop} {f : Option Flow}
    {g : Cursor → Option Ret} (h : ∃ x, f = some x ∧ x.Post d s₀ dst buf P)
    (hg : ∀ c, P c → ∃ r, g c = some r ∧ r.Final d s₀ dst buf) :
    ∃ r, Flow.andThen f g = some r ∧ r.Final d s₀ dst buf := by
  obtain ⟨r | c,rfl,hx⟩ := h
  · exact ⟨r,rfl,hx⟩
  · exact hg c hx

section
variable {d : Nor} {w n : ℕ} {s₀ s : Cells} {dst : ℕ} {buf : List Byte} {c : Cursor}

theorem Cursor.Inv.finish (h : c.Inv d w s₀ dst buf)
    (hw : Wrote d c.s (dst + c.retlen) c.buf s) : Wrote d s₀ dst buf s := by
  have hpre := length_take_of_le h.le
  have happ : buf.take c.retlen ++ c.buf = buf := by rw [h.rest,take_append_drop]
  have hall := h.wrote.append (by rw [hpre]; exact hw)
  rwa [happ] at hall

theorem Cursor.Inv.length_eq (h : c.Inv d w s₀ dst buf) : c.retlen + c.buf.length = buf.length := by
  have hle := h.le
  rw [h.rest,length_drop]
  omega

theorem Cursor.Inv.finish_nil (h : c.Inv d w s₀ dst buf) (hnil : c.buf = []) :
    Ret.Final d s₀ dst buf ⟨.ok,c.retlen,c.s⟩ := by
  have hlen := h.length_eq
  rw [hnil,length_nil] at hlen
  refine fun _ => ⟨hlen,h.finish ?_⟩
  rw [hnil]
  exact Wrote.refl ..

theorem Nor.chipsize_pos (d : Nor) : 0 < d.chipsize := Nat.two_pow_pos _

theorem Nor.advance_post (hin : dst + buf.length ≤ d.numchips * d.chipsize)
    (h : c.Inv d w s₀ dst buf) (hn : n ≤ c.buf.length) (hofs : c.ofs + n ≤ d.chipsize)
    (hw : Wrote d c.s (dst + c.retlen) (c.buf.take n) s) :
    (d.advance c n (c.retlen + n) s).Post d s₀ dst buf fun c' =>
      c'.Inv d w s₀ dst buf ∧ c'.buf = c.buf.drop n ∧ (c'.ofs = c.ofs + n ∨ c'.ofs = 0) := by
  have hlen : c.buf.length = buf.length - c.retlen := by rw [h.rest,length_drop]
  have hle := h.le
  have hpos := h.pos
  have hrest : c.buf.drop n = buf.drop (c.retlen + n) := by rw [h.rest,drop_drop]
  have hwrote : Wrote d s₀ dst (buf.take (c.retlen + n)) s := by
    have hpre : (buf.take c.retlen).length = c.retlen := length_take_of_le hle
    rw [take_add,← h.rest]
    refine h.wrote.append ?_
    rwa [hpre]
  have hleft : (c.buf.drop n).length = c.buf.length - n := length_drop
  rw [Nor.advance]
  split
  · next hcross =>
    -- the chip ends exactly here
    have hend : c.ofs + n = d.chipsize := by
      by_contra hne
      exact hcross (Nat.div_eq_of_lt (by omega))
    have hsucc : (c.chipnum + 1) * d.chipsize = dst + (c.retlen + n) := by
      rw [Nat.succ_mul]
      omega
    split
    · next hlast =>
      intro _
      rw [hlast] at hsucc
      have hall : c.retlen + n = buf.length := by omega
      rw [hall,take_length] at hwrote
      exact ⟨hall,hwrote⟩
    · refine ⟨⟨hrest,by dsimp only; omega,hsucc,d.chipsize_pos,?_,hwrote⟩,rfl,.inr rfl⟩
      dsimp only
      refine h.fits.imp_right ?_
      omega
  · next hcross =>
    have hlt : c.ofs + n < d.chipsize := by
      by_contra hge
      have heq : c.ofs + n = d.chipsize := by omega
      rw [heq,Nat.div_self d.chipsize_pos] at hcross
      exact hcross Nat.one_ne_zero
    refine ⟨⟨hrest,by dsimp only; omega,by dsimp only; omega,hlt,?_,hwrote⟩,rfl,.inl rfl⟩
    dsimp only
    refine h.fits.imp_right ?_
    omega

theorem Nor.afterProgram_post (hin : dst + buf.length ≤ d.numchips * d.chipsize)
    (h : c.Inv d w s₀ dst buf) (hn : n ≤ c.buf.length) (hofs : c.ofs + n ≤ d.chipsize)
    {r : Errno × Cells} (hw : Wrote d c.s (dst + c.retlen) (c.buf.take n) r.2) :
    (d.afterProgram c n r).Post d s₀ dst buf fun c' =>
      c'.Inv d w s₀ dst buf ∧ c'.buf = c.buf.drop n ∧ (c'.ofs = c.ofs + n ∨ c'.ofs = 0) := by
  rw [Nor.afterProgram]
  split
  · next he => exact fun h => absurd h he
  · exact d.advance_post hin h hn hofs hw

theorem and_pred (hw : ∃ m, w = 2 ^ m) (x : ℕ) : x &&& (w - 1) = x % w := by
  obtain ⟨m,rfl⟩ := hw
  simp

theorem Nor.block_le (hw : ∃ m, w = 2 ^ m) (hle : w ≤ d.chipsize) (hx : x < d.chipsize) :
    x - x % w + w ≤ d.chipsize := by
  obtain ⟨k,hk⟩ : w ∣ d.chipsize := by
    obtain ⟨m,rfl⟩ := hw
    exact Nat.pow_dvd_pow 2 ((Nat.pow_le_pow_iff_right (by decide)).mp hle)
  have hdiv := Nat.div_add_mod x w
  have hlt : x / w < k := by
    refine Nat.div_lt_of_lt_mul ?_
    rwa [← hk]
  have hmul := Nat.mul_le_mul_left w hlt
  grind

/-- Nothing is left of the word that the range starts inside of. -/
def Cursor.Aligned (d : Nor) (c : Cursor) : Prop := d.buswidth ∣ c.ofs ∨ c.buf = []

section
variable (hbus : d.buswidth ∈ [1,2,4,8])
include hbus

theorem Nor.bus_pow : ∃ m, d.buswidth = 2 ^ m := by
  simp only [mem_cons,not_mem_nil,or_false] at hbus
  obtain h | h | h | h := hbus
  · exact ⟨0,h⟩
  · exact ⟨1,h⟩
  · exact ⟨2,h⟩
  · exact ⟨3,h⟩

theorem Nor.bus_pos : 0 < d.buswidth := by
  obtain ⟨m,hm⟩ := d.bus_pow hbus
  grind

theorem Nor.bus_wide (h : x % d.buswidth ≠ 0) : d.buswidth ∈ [2,4,8] := by
  obtain h1 | h1 := mem_cons.mp hbus
  · grind
  · exact h1

theorem Nor.word_le (h : c.Inv d d.buswidth s₀ dst buf) (hn : n ≤ c.buf.length)
    (hnw : c.ofs % d.buswidth + n ≤ d.buswidth) : c.ofs + n ≤ d.chipsize := by
  obtain hle | hle := h.fits
  · have hb := Nor.block_le (d.bus_pow hbus) hle h.lt
    omega
  · omega

theorem Cursor.aligned_head {c' : Cursor}
    (hbuf : c'.buf = c.buf.drop (min c.buf.length (d.buswidth - c.ofs % d.buswidth)))
    (hofs : c'.ofs = c.ofs + min c.buf.length (d.buswidth - c.ofs % d.buswidth) ∨ c'.ofs = 0) :
    c'.Aligned d := by
  obtain hofs | hofs := hofs
  · rw [Cursor.Aligned,hofs,hbuf]
    obtain hmin | hmin := le_total c.buf.length (d.buswidth - c.ofs % d.buswidth)
    · grind
    · left
      have hdiv := Nat.div_add_mod c.ofs d.buswidth
      have hlt := Nat.mod_lt c.ofs (d.bus_pos hbus)
      refine ⟨c.ofs / d.buswidth + 1,?_⟩
      grind
  · left
    simp [hofs]

theorem Nor.headWord_post (hin : dst + buf.length ≤ d.numchips * d.chipsize)
    (h : c.Inv d d.buswidth s₀ dst buf) :
    (d.headWord c).Post d s₀ dst buf fun c' =>
      c'.Inv d d.buswidth s₀ dst buf ∧ c'.Aligned d := by
  have hpos := d.bus_pos hbus
  rw [Nor.headWord,and_pred (d.bus_pow hbus)]
  dsimp only
  split
  · next hgap =>
    have hmod := Nat.mod_lt c.ofs hpos
    have hle := Nat.mod_le c.ofs d.buswidth
    have hn : min c.buf.length (d.buswidth - c.ofs % d.buswidth) ≤ c.buf.length :=
      min_le_left _ _
    rw [if_neg (not_not_intro (d.bus_wide hbus hgap))]
    have hofs := d.word_le hbus h hn (by omega)
    refine (d.afterProgram_post hin h hn hofs (d.program_wrote Program.inside_word rfl ?_)).imp ?_
    · have hp := h.pos
      dsimp only
      omega
    · rintro c' ⟨hc',hbuf,hofs'⟩
      exact ⟨hc',Cursor.aligned_head hbus hbuf hofs'⟩
  · next hgap =>
    exact ⟨h,.inl (Nat.dvd_of_mod_eq_zero (not_not.mp hgap))⟩

theorem Nor.wordLoop_post (hin : dst + buf.length ≤ d.numchips * d.chipsize)
    (hfuel : c.buf.length < fuel) (h : c.Inv d d.buswidth s₀ dst buf) (ha : c.Aligned d) :
    ∃ f, d.wordLoop fuel c = some f ∧ f.Post d s₀ dst buf fun c' =>
      c'.Inv d d.buswidth s₀ dst buf ∧ c'.buf.length < d.buswidth := by
  have hpos := d.bus_pos hbus
  induction fuel generalizing c with
  | zero => omega
  | succ fuel ih =>
    rw [Nor.wordLoop]
    split
    · next hlt => exact ⟨.go c,rfl,h,hlt⟩
    · next hge =>
      have hge := Nat.le_of_not_lt hge
      have hdvd : d.buswidth ∣ c.ofs := by
        refine ha.resolve_right fun hnil => ?_
        grind
      have hofs := d.word_le hbus h hge (by rw [Nat.mod_eq_zero_of_dvd hdvd,zero_add])
      have hw : Wrote d c.s (dst + c.retlen) (c.buf.take d.buswidth)
          (d.doWriteOneword c.s c.chipnum c.ofs (c.buf.take d.buswidth)).2 :=
        d.program_wrote (a := 0) (b := 0) Program.inside_word (append_nil _).symm h.pos
      have hstep := d.afterProgram_post hin h hge hofs hw
      split
      · next r hr =>
        rw [hr] at hstep
        exact ⟨.ret r,rfl,hstep⟩
      · next c' hc' =>
        rw [hc'] at hstep
        obtain ⟨hinv,hbuf,hofs'⟩ := hstep
        have hlen : c'.buf.length = c.buf.length - d.buswidth := by rw [hbuf,length_drop]
        refine ih (by omega) hinv (.inl ?_)
        obtain ho | ho := hofs'
        · rw [ho]
          exact Nat.dvd_add hdvd (Nat.dvd_refl _)
        · simp [ho]

theorem Nor.tailWord_final (h : c.Inv d w s₀ dst buf) (hlen : c.buf.length < d.buswidth) :
    (d.tailWord c).Final d s₀ dst buf := by
  rw [Nor.tailWord,and_pred (d.bus_pow hbus)]
  split
  · next hne =>
    rw [if_neg (not_not_intro (d.bus_wide hbus hne))]
    have hw : Wrote d c.s (dst + c.retlen) c.buf (d.doWriteOneword c.s c.chipnum c.ofs
        (c.buf ++ replicate (d.buswidth - c.buf.length) 0xff)).2 :=
      d.program_wrote (a := 0) Program.inside_word rfl h.pos
    dsimp only
    split
    · next he => exact fun hok => absurd hok he
    · exact fun _ => ⟨h.length_eq,h.finish hw⟩
  · next heq =>
    rw [Nat.mod_eq_of_lt hlen,not_not] at heq
    exact h.finish_nil (length_eq_zero_iff.mp heq)

omit hbus in
theorem Nor.start_inv (d : Nor) (w : ℕ) (s : Cells) (dst : ℕ) (buf : List Byte)
    (hfit : w ≤ d.chipsize ∨ dst % d.chipsize + buf.length ≤ d.chipsize) :
    (d.start s dst buf).Inv d w s dst buf := by
  have hdiv := Nat.div_add_mod dst d.chipsize
  have hofs : dst - dst / d.chipsize * d.chipsize = dst % d.chipsize := by
    rw [mul_comm]
    omega
  refine ⟨rfl,Nat.zero_le _,?_,?_,?_,Wrote.refl d s dst⟩
  · rw [Nor.start,hofs,mul_comm]
    exact hdiv
  · rw [Nor.start,hofs]
    exact Nat.mod_lt _ d.chipsize_pos
  · rw [Nor.start,hofs]
    exact hfit

theorem Nor.writeWords_final (hin : dst + buf.length ≤ d.numchips * d.chipsize)
    (hfit : d.buswidth ≤ d.chipsize ∨ dst % d.chipsize + buf.length ≤ d.chipsize) :
    ∃ r, d.writeWords s dst buf = some r ∧ r.Final d s dst buf := by
  rw [Nor.writeWords]
  split
  · next hnil =>
    obtain rfl := length_eq_zero_iff.mp hnil
    exact ⟨_,rfl,fun _ => ⟨rfl,Wrote.refl d s dst⟩⟩
  · refine Flow.Post.andThen ⟨_,rfl,d.headWord_post hbus hin (d.start_inv _ s dst buf hfit)⟩ fun c hc => ?_
    refine Flow.Post.andThen (d.wordLoop_post hbus hin (Nat.lt_succ_self _) hc.1 hc.2) fun c hc => ?_
    exact ⟨_,rfl,d.tailWord_final hbus hc.1 hc.2⟩

omit hbus in
theorem Cursor.Inv.mono {w' : ℕ} (h : c.Inv d w s₀ dst buf) (hw : w' ≤ w) :
    c.Inv d w' s₀ dst buf := { h with fits := h.fits.imp_left (le_trans hw) }

theorem Nor.neg_and (hx : x % d.buswidth ≠ 0) :
    sub32 0 x &&& (d.buswidth - 1) = d.buswidth - x % d.buswidth := by
  rw [and_pred (d.bus_pow hbus)]
  have hwide := d.bus_wide hbus hx
  simp only [mem_cons,not_mem_nil,or_false] at hwide
  unfold sub32 u32
  obtain h | h | h := hwide
  · rw [h] at hx ⊢
    omega
  · rw [h] at hx ⊢
    omega
  · rw [h] at hx ⊢
    omega

variable (hle : d.buswidth ≤ d.wbufsize)
include hle

theorem Cursor.Inv.writeWords (hin : dst + buf.length ≤ d.numchips * d.chipsize)
    (h : c.Inv d d.wbufsize s₀ dst buf) (hn : n ≤ c.buf.length) :
    ∃ r, d.writeWords c.s (dst + c.retlen) (c.buf.take n) = some r ∧
      r.Final d c.s (dst + c.retlen) (c.buf.take n) := by
  have hlen := h.length_eq
  have hmod : (dst + c.retlen) % d.chipsize = c.ofs := by
    rw [← h.pos,mul_comm,Nat.mul_add_mod,Nat.mod_eq_of_lt h.lt]
  refine d.writeWords_final hbus ?_ ?_
  · grind
  · rw [hmod,length_take_of_le hn]
    refine h.fits.imp (le_trans hle) ?_
    omega

theorem Nor.headWords_post (hin : dst + buf.length ≤ d.numchips * d.chipsize)
    (h : c.Inv d d.wbufsize s₀ dst buf) (hstart : c.retlen = 0) :
    ∃ f, d.headWords dst c = some f ∧ f.Post d s₀ dst buf fun c' =>
      c'.Inv d d.wbufsize s₀ dst buf ∧ c'.Aligned d := by
  rw [Nor.headWords,and_pred (d.bus_pow hbus)]
  split
  · next hgap =>
    have hmod := Nat.mod_lt c.ofs (d.bus_pos hbus)
    have hlim : (if c.buf.length < d.buswidth - c.ofs % d.buswidth then c.buf.length
        else d.buswidth - c.ofs % d.buswidth) =
        min c.buf.length (d.buswidth - c.ofs % d.buswidth) := by
      split <;> omega
    rw [d.neg_and hbus hgap]
    dsimp only
    rw [hlim]
    have hn : min c.buf.length (d.buswidth - c.ofs % d.buswidth) ≤ c.buf.length :=
      min_le_left _ _
    have hofs := d.word_le hbus (h.mono hle) hn (by omega)
    obtain ⟨r,hr,hfinal⟩ := h.writeWords hbus hle hin hn
    rw [hstart,add_zero] at hr
    rw [hr]
    dsimp only
    split
    · next he => exact ⟨.ret r,rfl,fun hok => absurd hok he⟩
    · next hok =>
      obtain ⟨hretlen,hw⟩ := hfinal (not_not.mp hok)
      rw [length_take_of_le hn] at hretlen
      have hret : r.retlen = c.retlen + min c.buf.length (d.buswidth - c.ofs % d.buswidth) := by
        omega
      rw [hret]
      refine ⟨_,rfl,(d.advance_post hin h hn hofs hw).imp ?_⟩
      rintro c' ⟨hc',hbuf,hofs'⟩
      exact ⟨hc',Cursor.aligned_head hbus hbuf hofs'⟩
  · next hgap =>
    exact ⟨_,rfl,h,.inl (Nat.dvd_of_mod_eq_zero (not_not.mp hgap))⟩

variable (hw : ∃ m, d.wbufsize = 2 ^ m)
include hw

theorem Nor.bufSize_spec (hdvd : d.buswidth ∣ c.ofs) (hlen : d.buswidth < c.buf.length) :
    0 < d.bufSize c ∧ d.bufSize c ≤ c.buf.length ∧ d.buswidth ∣ d.bufSize c ∧
      c.ofs % d.wbufsize + d.bufSize c ≤ d.wbufsize := by
  have hbw : d.buswidth ∣ d.wbufsize := by
    obtain ⟨a,ha⟩ := d.bus_pow hbus
    obtain ⟨b,hb⟩ := hw
    rw [ha,hb] at hle ⊢
    exact Nat.pow_dvd_pow 2 ((Nat.pow_le_pow_iff_right (by decide)).mp hle)
  have hpos := d.bus_pos hbus
  have hmod := Nat.mod_lt c.ofs (lt_of_lt_of_le hpos hle)
  have hofs := (Nat.dvd_mod_iff hbw).mpr hdvd
  rw [Nor.bufSize,and_pred hw,and_pred (d.bus_pow hbus)]
  split
  · have hrest := Nat.mod_lt c.buf.length hpos
    exact ⟨by omega,by omega,Nat.dvd_sub_mod _,by omega⟩
  · exact ⟨by omega,by omega,Nat.dvd_sub hbw hofs,by omega⟩

theorem Nor.bufLoop_post (hin : dst + buf.length ≤ d.numchips * d.chipsize)
    (hfuel : c.buf.length < fuel) (h : c.Inv d d.wbufsize s₀ dst buf) (ha : c.Aligned d) :
    ∃ f, d.bufLoop fuel c = some f ∧ f.Post d s₀ dst buf fun c' =>
      c'.Inv d d.wbufsize s₀ dst buf := by
  induction fuel generalizing c with
  | zero => omega
  | succ fuel ih =>
    rw [Nor.bufLoop]
    split
    · exact ⟨.go c,rfl,h⟩
    · next hlt =>
      have hlt := Nat.lt_of_not_le hlt
      have hdvd : d.buswidth ∣ c.ofs := by
        refine ha.resolve_right fun hnil => ?_
        grind
      obtain ⟨hpos,hsize,hwords,hblock⟩ := d.bufSize_spec hbus hle hw hdvd hlt
      have hlen := length_take_of_le hsize
      have hofs : c.ofs + d.bufSize c ≤ d.chipsize := by
        obtain hfit | hfit := h.fits
        · have hb := Nor.block_le hw hfit h.lt
          omega
        · omega
      have hinside : (⟨true,c.chipnum,c.ofs,c.buf.take (d.bufSize c)⟩ : Program).Inside d := by
        intro _
        rw [hlen]
        refine ⟨?_,hofs⟩
        have hdiv := Nat.div_add_mod c.ofs d.wbufsize
        have hlast : c.ofs + d.bufSize c - 1 =
            d.wbufsize * (c.ofs / d.wbufsize) + (c.ofs % d.wbufsize + d.bufSize c - 1) := by omega
        have hin : c.ofs % d.wbufsize + d.bufSize c - 1 < d.wbufsize := by omega
        rw [hlast,Nat.mul_add_div (by omega),Nat.div_eq_of_lt hin,add_zero]
      have hwrote : Wrote d c.s (dst + c.retlen) (c.buf.take (d.bufSize c))
          (d.doWriteBuffer c.s c.chipnum c.ofs (c.buf.take (d.bufSize c))).2 := by
        rw [Nor.doWriteBuffer,if_neg (not_not_intro hbus)]
        exact d.program_wrote (a := 0) (b := 0) hinside (append_nil _).symm h.pos
      have hstep := d.afterProgram_post hin h hsize hofs hwrote
      split
      · next r hr =>
        rw [hr] at hstep
        exact ⟨.ret r,rfl,hstep⟩
      · next c' hc' =>
        rw [hc'] at hstep
        obtain ⟨hinv,hbuf,hofs'⟩ := hstep
        have hlen : c'.buf.length = c.buf.length - d.bufSize c := by rw [hbuf,length_drop]
        refine ih (by omega) hinv (.inl ?_)
        obtain ho | ho := hofs'
        · rw [ho]
          exact Nat.dvd_add hdvd hwords
        · simp [ho]

omit hw in
theorem Nor.restWords_final (hin : dst + buf.length ≤ d.numchips * d.chipsize)
    (h : c.Inv d d.wbufsize s₀ dst buf) :
    ∃ r, d.restWords c = some r ∧ r.Final d s₀ dst buf := by
  rw [Nor.restWords]
  split
  · obtain ⟨r,hr,hfinal⟩ := h.writeWords hbus hle hin le_rfl
    rw [take_length] at hr hfinal
    rw [add_comm c.ofs,h.pos,hr]
    dsimp only
    split
    · next he => exact ⟨_,rfl,fun hok => absurd hok he⟩
    · next hok =>
      obtain ⟨hretlen,hwrote⟩ := hfinal (not_not.mp hok)
      refine ⟨_,rfl,fun _ => ⟨?_,h.finish hwrote⟩⟩
      rw [hretlen]
      exact h.length_eq
  · next hnil =>
    exact ⟨_,rfl,h.finish_nil (length_eq_zero_iff.mp (Nat.eq_zero_of_not_pos hnil))⟩

theorem Nor.writeBuffers_final (hin : dst + buf.length ≤ d.numchips * d.chipsize)
    (hfit : d.wbufsize ≤ d.chipsize ∨ dst % d.chipsize + buf.length ≤ d.chipsize) :
    ∃ r, d.writeBuffers s dst buf = some r ∧ r.Final d s dst buf := by
  rw [Nor.writeBuffers]
  split
  · next hnil =>
    obtain rfl := length_eq_zero_iff.mp hnil
    exact ⟨_,rfl,fun _ => ⟨rfl,Wrote.refl d s dst⟩⟩
  · refine Flow.Post.andThen (d.headWords_post hbus hle hin (d.start_inv _ s dst buf hfit) rfl)
      fun c hc => ?_
    refine Flow.Post.andThen (d.bufLoop_post hbus hle hw hin (Nat.lt_succ_self _) hc.1 hc.2) fun c hc => ?_
    exact d.restWords_final hbus hle hin hc

end

end

def Cells.start (mem : ℕ → Byte) (env : ℕ → Outcome) : Cells := ⟨mem,true,[],env⟩

/-- Returned 0, with every program a success, a write has ANDed the buffer into its range, left
the rest alone and reported its length, with no buffer over the end of a write block or chip. -/
def Ret.Covers (d : Nor) (mem : ℕ → Byte) (dst : ℕ) (buf : List Byte) (r : Ret) : Prop :=
  r.errno = .ok → r.s.good = true →
    (∀ (k : ℕ) (h : k < buf.length), r.s.mem (dst + k) = mem (dst + k) &&& buf[k]) ∧
    (∀ i, i < dst ∨ dst + buf.length ≤ i → r.s.mem i = mem i) ∧
    r.retlen = buf.length ∧ ∀ p ∈ r.s.log, p.Inside d

theorem Ret.Final.covers {mem : ℕ → Byte} {env : ℕ → Outcome} {buf : List Byte} {r : Ret}
    (h : r.Final d (Cells.start mem env) dst buf) : r.Covers d mem dst buf := by
  intro hok hgood
  obtain ⟨hretlen,hw⟩ := h hok
  obtain ⟨-,hmem⟩ := hw.good hgood
  rw [hmem]
  exact ⟨fun k hk => burn_of_lt hk,fun i hi => burn_of_not_mem hi,hretlen,hw.inside nofun⟩

theorem writes_cover {d : Nor} (hbus : d.buswidth ∈ [1,2,4,8]) (hw : ∃ m, d.wbufsize = 2 ^ m)
    (hle : d.buswidth ≤ d.wbufsize) (mem : ℕ → Byte) (env : ℕ → Outcome) {dst : ℕ}
    {buf : List Byte} (hin : dst + buf.length ≤ d.numchips * d.chipsize)
    (hfit : d.wbufsize ≤ d.chipsize ∨ dst % d.chipsize + buf.length ≤ d.chipsize) :
    (∃ r, d.writeWords (Cells.start mem env) dst buf = some r ∧ r.Covers d mem dst buf) ∧
    (∃ r, d.writeBuffers (Cells.start mem env) dst buf = some r ∧ r.Covers d mem dst buf) := by
  obtain ⟨r,hr,hfinal⟩ := d.writeWords_final (s := Cells.start mem env) hbus hin
    (hfit.imp_left (le_trans hle))
  obtain ⟨r',hr',hfinal'⟩ := d.writeBuffers_final (s := Cells.start mem env) hbus hle hw hin hfit
  exact ⟨⟨r,hr,hfinal.covers⟩,⟨r',hr',hfinal'.covers⟩⟩

/-- Two chips of 32 bytes on a bus of two bytes, write blocks of 8: three bytes of the first chip
and four of the second. -/
theorem writes_cover_two_chips :
    ∃ r, (⟨2,1,3,5,2⟩ : Nor).writeBuffers
        (Cells.start (fun _ => 0xff) fun _ => ⟨true,.ok,fun _ => 0⟩) 29
        [1,2,3,4,5,6,7] = some r ∧
      Ret.Covers ⟨2,1,3,5,2⟩ (fun _ => 0xff) 29 [1,2,3,4,5,6,7] r :=
  (writes_cover (d := ⟨2,1,3,5,2⟩) (by decide) ⟨3,rfl⟩ (by decide) _ _ (by decide)
    (.inl (by decide))).2

/-- Three chips of 16 bytes with write blocks of 32: the first buffer reaches over the end of its
chip, the second is programmed over it and the last 16 bytes are never written. -/
theorem large_buffer_lost :
    ∃ r, (⟨1,1,5,4,3⟩ : Nor).writeBuffers
        (Cells.start (fun _ => 0xff) fun _ => ⟨true,.ok,fun _ => 0⟩) 0
        (replicate 48 0) = some r ∧ r.errno = .ok ∧ r.s.good = true ∧
      ¬r.Covers ⟨1,1,5,4,3⟩ (fun _ => 0xff) 0 (replicate 48 0) := by
  refine ⟨_,rfl,by decide,by decide,fun h => ?_⟩
  have hbyte := (h (by decide) (by decide)).1 32 (by decide)
  exact absurd hbyte (by decide)

end Simpad.Mtd.Write
