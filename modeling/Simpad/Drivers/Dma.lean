import Simpad.Base.Runs

/-! The SA1100 DMA channel. Buffers are numbered in the order in which they are queued, and a pointer is
the number of a buffer; the channel has no spin buffer. -/

namespace Simpad.Dma

open Function

def maxDmaSize : ℕ := 0x1fff

/-- `1 << MAX_DMA_ORDER`. -/
def dmaChunk : ℕ := 4096

abbrev Chunk := ℕ × ℕ

/-- A `dma_buf_t`. -/
structure Buf where
  id : ℕ
  dmaStart : ℕ
  dmaPtr : ℕ
  size : ℕ
  ref : ℤ
  /-- the size it was queued with -/
  total : ℕ
  /-- its chunks that were started and are not accounted for, the oldest first -/
  flight : List Chunk

/-- One half of the controller: its start and done bits, the chunk it was loaded with and the
number of bytes it still has to transfer. -/
structure Toggle where
  strt : Bool
  done : Bool
  chunk : Chunk
  left : ℕ
  deriving DecidableEq

def Toggle.dbs (t : Toggle) : ℕ := t.chunk.1 + (t.chunk.2 - t.left)

def Toggle.idle : Toggle := ⟨false,false,(0,0),0⟩

/-- The controller; toggle A is `false`, toggle B is `true`. -/
structure Regs where
  toggle : Bool → Toggle
  biu : Bool
  run : Bool

def Regs.cur (r : Regs) : Toggle := r.toggle r.biu

def Regs.oth (r : Regs) : Toggle := r.toggle !r.biu

structure Chan where
  bufs : List Buf
  head : Option ℕ
  tail : Option ℕ
  curr : Option ℕ
  stopped : Bool
  regs : Regs
  /-- the addresses of the bytes transferred, in order -/
  moved : List ℕ
  /-- the calls of the callback, with their `id` and `size`, in order -/
  called : List (ℕ × ℕ)

def Chan.init : Chan := ⟨[],none,none,none,false,⟨fun _ => .idle,false,false⟩,[],[]⟩

def Chan.next (s : Chan) (i : ℕ) : Option ℕ := if i + 1 < s.bufs.length then some (i + 1) else none

/-- Load a toggle and set its `STRT` and `RUN`. -/
def Regs.load (r : Regs) (side : Bool) (ptr size : ℕ) : Regs :=
  { r with toggle := update r.toggle side ⟨true,false,(ptr,size),size⟩, run := true }

/-- `start_sa1100_dma`; none for `-EBUSY` and `-EAGAIN`. -/
def Regs.startDma (r : Regs) (ptr size : ℕ) : Option Regs :=
  if (r.toggle false).strt && (r.toggle true).strt then none
  else if r.biu && (r.toggle true).strt || !r.biu && !(r.toggle false).strt then
    if (r.toggle false).done then none else some (r.load false ptr size)
  else if (r.toggle true).done then none
  else some (r.load true ptr size)

def Buf.chunksize (b : Buf) : ℕ := if maxDmaSize < b.size then dmaChunk else b.size

def Buf.started (b : Buf) : Buf :=
  { b with
    ref := b.ref + 1
    dmaPtr := b.dmaPtr + b.chunksize
    size := b.size - b.chunksize
    flight := b.flight ++ [(b.dmaPtr,b.chunksize)] }

/-- One round of the loop of `process_dma`; none where it breaks. -/
def Chan.processOnce (s : Chan) : Option Chan :=
  s.tail.bind fun i => s.bufs[i]?.bind fun buf =>
    if s.stopped then none
    else
      (s.regs.startDma buf.dmaPtr buf.chunksize).map fun regs =>
        { s with
          regs := regs
          curr := s.curr.or (some i)
          bufs := s.bufs.modify i Buf.started
          tail := if buf.size - buf.chunksize = 0 then s.next i else some i }

/-- `process_dma`, at most `n` rounds. -/
def Chan.processLoop : ℕ → Chan → Chan
  | 0, s => s
  | n + 1, s => (s.processOnce.map (Chan.processLoop n)).getD s

/-- `process_dma`: no more than two chunks can be started. -/
def Chan.processDma (s : Chan) : Chan := s.processLoop 3

def Buf.accounted (b : Buf) : Buf := { b with ref := b.ref - 1, flight := b.flight.tail }

/-- The first half of `sa1100_dma_done`. -/
def Chan.account (s : Chan) : Chan :=
  match s.curr with
  | none => s
  | some i =>
    match s.bufs[i]? with
    | none => s
    | some buf =>
      if buf.ref - 1 = 0 ∧ buf.size = 0 then
        { s with
          bufs := s.bufs.modify i Buf.accounted
          curr := s.next i
          head := if s.head = some i then none else s.head
          called := s.called ++ [(buf.id,buf.dmaPtr - buf.dmaStart)] }
      else { s with bufs := s.bufs.modify i Buf.accounted }

def Chan.dmaDone (s : Chan) : Chan := s.account.processDma

/-- Clear `DONEA` and `DONEB`. -/
def Regs.clearDone (r : Regs) : Regs :=
  { r with toggle := fun side => { r.toggle side with done := false } }

/-- Clear `STRTA`, `STRTB`, `DONEA` and `DONEB`. -/
def Regs.clearAll (r : Regs) : Regs :=
  { r with toggle := fun side => { r.toggle side with strt := false, done := false } }

def Chan.irqHandler (s : Chan) : Chan :=
  let t := { s with regs := s.regs.clearDone }
  let t := if (s.regs.toggle false).done then t.dmaDone else t
  if (s.regs.toggle true).done then t.dmaDone else t

def Chan.queueBuffer (s : Chan) (id data size : ℕ) : Chan :=
  let n := s.bufs.length
  { s with
    bufs := s.bufs ++ [⟨id,data,data,size,0,size,[]⟩]
    head := some n
    tail := s.tail.or (some n) : Chan }.processDma

/-- The address `sa1100_dma_get_current` finds for the current buffer. -/
def Regs.getCurrent (r : Regs) (buf : Buf) : ℕ :=
  let usingBufa := !r.biu && (r.toggle false).strt || r.biu && !(r.toggle true).strt
  let addr := if usingBufa then (r.toggle false).dbs else (r.toggle true).dbs
  if addr < buf.dmaStart ∨ buf.dmaPtr < addr then buf.dmaPtr else addr

/-- The current buffer as `sa1100_dma_stop` puts it back. -/
def Buf.rollback (b : Buf) (curpos : ℕ) : Buf :=
  { b with size := b.size + (b.dmaPtr - curpos), dmaPtr := curpos, ref := 0, flight := [] }

/-- Put the current buffer back in `sa1100_dma_stop`. -/
def Chan.putBack (s : Chan) : Chan :=
  match s.curr with
  | none => s
  | some i =>
    match s.bufs[i]? with
    | none => s
    | some buf =>
      { s with
        bufs := s.bufs.modify i fun b => b.rollback (s.regs.getCurrent buf)
        tail := some i
        curr := none }

/-- `sa1100_dma_stop`. -/
def Chan.stop (s : Chan) : Chan :=
  if s.stopped then s
  else
    { s.putBack with
      stopped := true
      regs := { s.regs.clearAll with run := false } : Chan }.processDma

def Chan.resume (s : Chan) : Chan :=
  if s.stopped then { s with stopped := false : Chan }.processDma else s

def Regs.move (r : Regs) : Regs :=
  { r with toggle := update r.toggle r.biu { r.cur with left := r.cur.left - 1 } }

def Regs.complete (r : Regs) : Regs :=
  { r with
    toggle := update r.toggle r.biu { r.cur with strt := false, done := true }
    biu := !r.biu }

inductive Op
  | queueBuffer (id data size : ℕ)
  | irq
  | stop
  | resume
  | move
  | complete

def step (s : Chan) : Op → Option Chan
  | .queueBuffer id data size => some (s.queueBuffer id data size)
  | .irq => some s.irqHandler
  | .stop => some s.stop
  | .resume => some s.resume
  | .move =>
    if s.regs.run ∧ s.regs.cur.strt ∧ s.regs.cur.left ≠ 0 then
      some { s with regs := s.regs.move, moved := s.moved ++ [s.regs.cur.dbs] }
    else none
  | .complete =>
    if s.regs.run ∧ s.regs.cur.strt ∧ s.regs.cur.left = 0 then
      some { s with regs := s.regs.complete }
    else none

end Simpad.Dma
