import Simpad.Base.CircBuf
import Simpad.Base.Runs

/-! Receiving on the USB character device. An interrupt may come between any two steps of `usbc_read`. The
device is open, with one reader, and copying to the user succeeds. -/

namespace Simpad.UsbChar
open CircBuf Memory

abbrev Byte := UInt8

def rxPacketSize : ℕ := 64

def rbufSize : ℕ := 4 * 4096

inductive Flag
  | ok | epipe | eagain | eintr | eio
deriving DecidableEq

/-- What `usbc_read` does once `kick_start_rx` is done. -/
inductive After
  | wait (count : ℕ)
  | ret (got : List Byte)

/-- Where the reader is.  In `first` and `second` it copies up to `n` bytes, `got` are those it has
copied; in `request` it has found out whether there is room for a packet. -/
inductive Reader
  | idle
  | waiting (count : ℕ)
  | first (n rest : ℕ) (got : List Byte)
  | second (n : ℕ) (before got : List Byte)
  | kick (after : After)
  | request (after : After) (room : Bool)

/-- The ring, whether a receive is outstanding, `last_rx_result` and the reader; `received` are the
bytes of all packets and `returned` those that reads have returned. -/
structure State where
  buf : ℕ → Byte
  inPos : ℕ
  outPos : ℕ
  outstanding : Bool
  lastRxResult : Option Flag
  reader : Reader
  received : List Byte
  returned : List Byte

/-- `CIRC_SPACE` of the ring. -/
def State.space (s : State) : ℕ := CircBuf.space rbufSize s.inPos s.outPos

def State.contents (s : State) : List Byte := CircBuf.contents rbufSize s.buf s.inPos s.outPos

/-- `sa1100_usb_recv`; it does nothing while a receive is outstanding. -/
def State.usbRecv (s : State) : State := { s with outstanding := true }

/-- `kick_start_rx` where nothing comes in between. -/
def State.kickStartRx (s : State) : State :=
  if rxPacketSize ≤ s.space then s.usbRecv else s

/-- `rx_done_callback_packet_buffer`. -/
def State.rxDone (s : State) (flag : Flag) (packet : List Byte) : State :=
  match flag with
  | .ok | .epipe =>
    let n := min (spaceToEnd rbufSize s.inPos s.outPos) packet.length
    let buf := blit s.buf s.inPos (packet.take n)
    let inPos := (s.inPos + n) % rbufSize
    State.kickStartRx { s with
      buf := blit buf inPos (packet.drop n)
      inPos := (inPos + (packet.length - n)) % rbufSize
      lastRxResult := none }
  | .eagain => s.kickStartRx
  | .eintr | .eio => { s with lastRxResult := some flag }

inductive Action
  | rx (flag : Flag) (packet : List Byte)
  /-- `usbc_read` is called -/
  | read (count : ℕ)
  /-- the reader goes on; without data it gives up or sleeps -/
  | go (giveUp : Bool)

/-- The snapshot of the ring in `usbc_read`. -/
def State.snapshot (s : State) (count : ℕ) (giveUp : Bool) : State :=
  let avail := cnt rbufSize s.inPos s.outPos
  if avail ≠ 0 then
    let move := min count avail
    if move ≠ 0 then
      let n := min (cntToEnd rbufSize s.inPos s.outPos) move
      { s with reader := .first n (move - n) [] }
    else { s with reader := .idle }
  else if s.lastRxResult ≠ none ∨ giveUp then { s with reader := .idle }
  else s

/-- The next step of `usbc_read`. -/
def State.go (s : State) (giveUp : Bool) : State :=
  match s.reader with
  | .idle => s
  | .waiting count => s.snapshot count giveUp
  | .first n rest got =>
    if got.length < n then { s with reader := .first n rest (got ++ [s.buf (s.outPos + got.length)]) }
    else { s with outPos := (s.outPos + n) % rbufSize, reader := .second rest got [] }
  | .second n before got =>
    if got.length < n then
      { s with reader := .second n before (got ++ [s.buf (s.outPos + got.length)]) }
    else { s with outPos := s.outPos + n, reader := .kick (.ret (before ++ got)) }
  | .kick after => { s with reader := .request after (rxPacketSize ≤ s.space) }
  | .request after room =>
    let s := if room then s.usbRecv else s
    match after with
    | .wait count => { s with reader := .waiting count }
    | .ret got => { s with reader := .idle, returned := s.returned ++ got }

/-- One step.  A receive is completed only while one is outstanding, which ends it. -/
def step (s : State) : Action → Option State
  | .rx flag packet =>
    if s.outstanding ∧ (flag = .ok ∨ flag = .epipe) ∧ packet.length ≤ rxPacketSize then
      some (State.rxDone { s with outstanding := false, received := s.received ++ packet } flag packet)
    else none
  | .read count =>
    match s.reader with
    | .idle =>
      if s.lastRxResult = none then some { s with reader := .waiting count }
      else some { s with lastRxResult := none, reader := .kick (.wait count) }
    | _ => none
  | .go giveUp => some (s.go giveUp)

def opened : State where
  buf := fun _ => 0
  inPos := 0
  outPos := 0
  outstanding := true
  lastRxResult := none
  reader := .idle
  received := []
  returned := []

end Simpad.UsbChar
