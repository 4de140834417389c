import Simpad.Drivers.UsbChar

/-! The USB device core. Writes to the UDC take effect at once, except that serviced-out may fail to clear
OPR. What the UDC shows next is up to the bus, and any interrupt may come at any time. -/

namespace Simpad.UsbDevice
open UsbChar (Flag)

abbrev Byte := BitVec 8

/-- `kState…`. -/
inductive SmState
  | zombie | zombieSuspend | default | defaultSuspend | addr | addrSuspend | config | configSuspend
deriving DecidableEq

/-- `USB_STATE_…`. -/
inductive DeviceState
  | notAttached | attached | powered | default | address | configured | suspended
deriving DecidableEq

/-- `kEv…`. -/
inductive BusEvent
  | suspend | reset | resume | address | config | deConfig
deriving DecidableEq

/-- `device_state_machine`; `none` is `kError`. -/
def deviceStateMachine : SmState → BusEvent → Option SmState
  | .zombie, .suspend => some .zombieSuspend
  | .zombie, .reset => some .default
  | .zombieSuspend, .reset => some .default
  | .zombieSuspend, .resume => some .zombie
  | .default, .suspend => some .defaultSuspend
  | .default, .reset => none
  | .default, .resume => some .default
  | .default, .address => some .addr
  | .defaultSuspend, .reset => some .default
  | .defaultSuspend, .resume => some .default
  | .addr, .suspend => some .addrSuspend
  | .addr, .reset => some .default
  | .addr, .config => some .config
  | .addrSuspend, .reset => some .default
  | .addrSuspend, .resume => some .addr
  | .config, .suspend => some .configSuspend
  | .config, .reset => some .default
  | .config, .deConfig => some .addr
  | .configSuspend, .reset => some .default
  | .configSuspend, .resume => some .config
  | _, _ => none

def smStateToDeviceState : SmState → DeviceState
  | .zombie => .powered
  | .default => .default
  | .addr => .address
  | .config => .configured
  | .zombieSuspend | .defaultSuspend | .addrSuspend | .configSuspend => .suspended

/-- The bits `UDCCS0` shows. -/
structure Cs0 where
  opr : Bool
  ipr : Bool
  sst : Bool
  fst : Bool
  de : Bool
  se : Bool
deriving DecidableEq

/-- The bits that can be written to `UDCCS0`. -/
structure Cs0Bits where
  ipr : Bool := false
  sst : Bool := false
  fst : Bool := false
  de : Bool := false
  so : Bool := false
  sse : Bool := false
deriving DecidableEq

/-- What endpoint 0 tells the host: a packet is ready, or the data ends. -/
inductive Signal
  | packet (bytes : List Byte)
  | dataEnd
deriving DecidableEq

/-- `fst1` and `fst2` are the force-stall bits of `UDCCS1` and `UDCCS2`; with `oprStuck` serviced-out
does not clear OPR.  `signals` is a history. -/
structure Udc where
  cs0 : Cs0
  fifo : List Byte
  fst1 : Bool
  fst2 : Bool
  car : Byte
  omp : Byte
  imp : Byte
  oprStuck : Bool
  signals : List Signal
deriving DecidableEq

def Udc.idle : Udc where
  cs0 := ⟨false,false,false,false,false,false⟩
  fifo := []
  fst1 := false
  fst2 := false
  car := 0
  omp := 0
  imp := 0
  oprStuck := false
  signals := []

/-- `Ser0UDCCS0 = v`.  IPR, FST and DE are set by a one; SST, SE and OPR are cleared by a one in
SST, SSE and SO. -/
def Udc.writeCs0 (u : Udc) (v : Cs0Bits) : Udc :=
  { u with
    cs0 :=
      { opr := u.cs0.opr && (!v.so || u.oprStuck)
        ipr := u.cs0.ipr || v.ipr
        sst := u.cs0.sst && !v.sst
        fst := u.cs0.fst || v.fst
        de := u.cs0.de || v.de
        se := u.cs0.se && !v.sse }
    signals := u.signals ++ (if v.ipr then [.packet u.fifo] else []) ++
      (if v.de then [.dataEnd] else []) }

/-- What `Ser0UDCCS0 |= …` writes besides. -/
def Cs0.bits (r : Cs0) : Cs0Bits := { ipr := r.ipr, sst := r.sst, fst := r.fst, de := r.de }

def Udc.okToWrite (u : Udc) : Bool := !(u.cs0.sst || u.cs0.se)

def Udc.setDe (u : Udc) : Udc :=
  if u.okToWrite then u.writeCs0 { u.cs0.bits with de := true } else u

def Udc.setIpr (u : Udc) : Udc :=
  if u.okToWrite then u.writeCs0 { u.cs0.bits with ipr := true } else u

def Udc.setIprAndDe (u : Udc) : Udc :=
  if u.okToWrite then u.writeCs0 { u.cs0.bits with ipr := true, de := true } else u

/-- `set_cs_bits`.  No branch is for SST alone. -/
def Udc.setCsBits (u : Udc) (v : Cs0Bits) : Udc :=
  if v.so || v.sse || v.fst then u.writeCs0 v
  else if v.ipr && v.de then u.setIprAndDe
  else if v.ipr then u.setIpr
  else if v.de then u.setDe
  else u

def Udc.clearOpr (u : Udc) : Udc × Bool :=
  let u := u.writeCs0 { so := true }
  (u,!u.cs0.opr)

/-- `UDC_clear( Ser0UDCCS0, UDCCS0_IPR )`. -/
def Udc.clearIpr (u : Udc) : Udc := { u with cs0 := { u.cs0 with ipr := false } }

/-- `UDC_flip` on `UDCCS1`; the force-stall bit is written as zero. -/
def Udc.flipCs1 (u : Udc) : Udc := { u with fst1 := false }

/-- `UDC_flip` on `UDCCS2`. -/
def Udc.flipCs2 (u : Udc) : Udc := { u with fst2 := false }

inductive Handler
  | shSetupBegin | shWrite | shWriteWithEmptyPacket
deriving DecidableEq

/-- `wr`; `p` are the bytes from the pointer on. -/
structure Wr where
  p : List Byte
  bytesLeft : ℕ
deriving DecidableEq

/-- The transfer of an endpoint, `ep1_…` or `ep2_…`; `id` numbers the transfers. -/
structure Pipe where
  len : ℤ
  remain : ℤ
  curdmalen : ℤ
  callback : Bool
  pktsize : ℤ
  id : ℕ
deriving DecidableEq

structure Report where
  id : ℕ
  flag : Flag
  size : ℤ
deriving DecidableEq

structure StringDesc where
  bLength : Byte
  bDescriptorType : Byte
  bString : List (BitVec 16)
deriving DecidableEq

def lowHigh (w : BitVec 16) : List Byte := [w.setWidth 8,(w >>> 8).setWidth 8]

def StringDesc.bytes (d : StringDesc) : List Byte :=
  d.bLength :: d.bDescriptorType :: d.bString.flatMap lowHigh

/-- The globals of the four files.  `desc` are the fifty bytes of `desc_t`. -/
structure State where
  udc : Udc
  smState : SmState
  clientName : Option String
  deviceState : DeviceState
  address : Byte
  configuredCallback : Bool
  desc : List Byte
  strings : ℕ → Option StringDesc
  handler : Handler
  wr : Wr
  rx : Pipe
  tx : Pipe
  naking : Bool
  nextId : ℕ
  reports : List Report

inductive Call
  | recv (len : ℤ) (callback : Bool)
  | send (len : ℤ) (callback : Bool)

structure Client where
  done : Report → List Call
  configured : List Call

def Client.silent : Client := ⟨fun _ => [],[]⟩

/-- What `sa1100_usb_recv` and the other entries return. -/
inductive Result
  | ok | ebusy | enodev | eperm
deriving DecidableEq

def State.descByte (s : State) (i : ℕ) : Byte := s.desc.getD i 0

def State.descWord (s : State) (i : ℕ) : ℕ := (s.descByte i).toNat + 256 * (s.descByte (i + 1)).toNat

/-- `b.ep1.wMaxPacketSize` and `b.ep2.wMaxPacketSize`. -/
def State.ep1MaxPacketSize (s : State) : ℕ := s.descWord 40

def State.ep2MaxPacketSize (s : State) : ℕ := s.descWord 47

def maxStringDesc : ℕ := 8

def State.getStringDescriptor (s : State) (i : ℕ) : Option StringDesc :=
  if i < maxStringDesc then s.strings i else none

/-- `initialize_descriptors`. -/
def initialDesc : List Byte :=
  [18,1,0,1,0xff,0,0,8,0,0,0,0,0,0,0,0,0,1] ++
    [9,2,32,0,1,1,0,0x80,250] ++
    [9,4,0,0,2,0xff,0,0,0] ++
    [7,5,0x01,2,64,0,0] ++
    [7,5,0x82,2,64,0,0]

def initialStrings : ℕ → Option StringDesc
  | 0 => some { bLength := 4, bDescriptorType := 3, bString := [0x409] }
  | _ => none

def ep1Start (s : State) : State :=
  let cur := if s.rx.curdmalen = 0 then min s.rx.pktsize s.rx.remain else s.rx.curdmalen
  { s with
    rx := { s.rx with curdmalen := cur }
    udc := if s.naking then s.udc.flipCs1 else s.udc
    naking := false }

def sa1100UsbRecv (s : State) (len : ℤ) (callback : Bool) : Result × State :=
  if s.rx.len ≠ 0 then (.ebusy,s)
  else (.ok,ep1Start { s with
    rx := { s.rx with len, remain := len, curdmalen := 0, callback, id := s.nextId }
    nextId := s.nextId + 1 })

def ep2Start (s : State) : State :=
  if s.tx.len = 0 then s else
    let cur := min s.tx.pktsize s.tx.remain
    { s with
      tx := { s.tx with curdmalen := cur }
      udc := { s.udc.flipCs2 with imp := BitVec.ofInt 8 (cur - 1), car := s.address } }

def sa1100UsbSend (s : State) (len : ℤ) (callback : Bool) : Result × State :=
  if s.deviceState ≠ .configured then (.enodev,s)
  else if s.tx.len ≠ 0 then (.ebusy,s)
  else (.ok,ep2Start { s with
    tx := { s.tx with len, remain := len, callback, id := s.nextId }
    nextId := s.nextId + 1 })

def State.call (s : State) : Call → State
  | .recv len callback => (sa1100UsbRecv s len callback).2
  | .send len callback => (sa1100UsbSend s len callback).2

def State.calls (s : State) (cs : List Call) : State := cs.foldl State.call s

section
variable (c : Client)

def State.report (s : State) (r : Report) : State :=
  { s with reports := s.reports ++ [r] }.calls (c.done r)

def ep1Done (flag : Flag) (s : State) : State :=
  if s.rx.len = 0 then s else
    let size := s.rx.len - s.rx.remain
    let t := { s with rx := { s.rx with len := 0, curdmalen := 0 } }
    if s.rx.callback then t.report c ⟨s.rx.id,flag,size⟩ else t

def ep2Done (flag : Flag) (s : State) : State :=
  if s.tx.len = 0 then s else
    let size := s.tx.len - s.tx.remain
    let t := { s with tx := { s.tx with len := 0 } }
    if s.tx.callback then t.report c ⟨s.tx.id,flag,size⟩ else t

def ep1Stall (s : State) : State := { s with udc := { s.udc with fst1 := true } }

def ep2Stall (s : State) : State := { s with udc := { s.udc with fst2 := true } }

def ep1Init (s : State) : State :=
  ep1Done c .eagain { s with rx := { s.rx with pktsize := s.ep1MaxPacketSize } }

def ep2Init (s : State) : State :=
  ep2Done c .eagain { s with tx := { s.tx with pktsize := s.ep2MaxPacketSize } }

/-- `ep1_reset`; `UDC_clear` takes the force-stall bit away. -/
def ep1Reset (s : State) : State :=
  ep1Done c .eintr { s with
    rx := { s.rx with pktsize := s.ep1MaxPacketSize }
    udc := { s.udc with fst1 := false } }

def ep2Reset (s : State) : State :=
  ep2Done c .eintr { s with
    tx := { s.tx with pktsize := s.ep2MaxPacketSize }
    udc := { s.udc with fst2 := false } }

/-- What `UDCCS1` and the DMA channel show in a receive interrupt: `dma` bytes have been moved and
`left` are in the FIFO. -/
structure RxStatus where
  rpc : Bool
  sst : Bool
  rpe : Bool
  dma : ℕ
  left : ℕ

def ep1IntHndlr (i : RxStatus) (s : State) : State :=
  if !i.rpc then s
  else if s.rx.curdmalen = 0 then { s with naking := true }
  else if i.sst then ep1Done c .eio { s with udc := s.udc.flipCs1 }
  else if i.rpe then ep1Done c .eio { s with udc := s.udc.flipCs1 }
  else
    let len : ℤ :=
      if i.dma < s.rx.curdmalen then min s.rx.curdmalen (i.dma + i.left)
      else if 0 < i.left then 0 else i.dma
    ep1Done c (if len ≠ 0 then .ok else .epipe) { s with
      rx := { s.rx with curdmalen := 0, remain := s.rx.remain - len }
      naking := true }

/-- What `UDCCS2` shows in a transmit interrupt. -/
structure TxStatus where
  tpc : Bool
  tpe : Bool
  tur : Bool

def ep2IntHndlr (i : TxStatus) (s : State) : State :=
  let s := { s with udc := { s.udc.flipCs2 with car := s.address } }
  if !i.tpc then s
  else if i.tpe || i.tur then ep2Done c .eio s
  else
    let s := { s with tx := { s.tx with remain := s.tx.remain - s.tx.curdmalen } }
    if s.tx.remain ≠ 0 then ep2Start s else ep2Done c .ok s

def usbctlNextStateOnEvent (e : BusEvent) (s : State) : Option SmState × State :=
  match deviceStateMachine s.smState e with
  | none => (none,s)
  | some next =>
    let dev := smStateToDeviceState next
    let t := { s with smState := next }
    if s.deviceState = dev then (some next,t)
    else
      let t :=
        if s.configuredCallback ∧ dev = .configured ∧ s.deviceState ≠ .suspended
        then t.calls c.configured else t
      (some next,{ t with deviceState := dev })

end

structure Request where
  bmRequestType : Byte
  bRequest : Byte
  wValue : BitVec 16
  wIndex : BitVec 16
  wLength : BitVec 16
deriving DecidableEq

def Request.bytes (r : Request) : List Byte :=
  [r.bmRequestType,r.bRequest] ++ lowHigh r.wValue ++ lowHigh r.wIndex ++ lowHigh r.wLength

def word (low high : Byte) : BitVec 16 := high ++ low

/-- The request `read_fifo` gets; `none` if there are not eight bytes. -/
def Request.ofBytes : List Byte → Option Request
  | [a,b,c,d,e,f,g,h] => some ⟨a,b,word c d,word e f,word g h⟩
  | _ => none

/-- The cases of the switch in `sh_setup_begin`. -/
inductive RequestCode
  | getStatus | clearFeature | setFeature | setAddress | getDescriptor | getConfiguration
  | setConfiguration | getInterface | setInterface | unknown
deriving DecidableEq

def requestCode (b : Byte) : RequestCode :=
  if b = 0 then .getStatus
  else if b = 1 then .clearFeature
  else if b = 3 then .setFeature
  else if b = 5 then .setAddress
  else if b = 6 then .getDescriptor
  else if b = 8 then .getConfiguration
  else if b = 9 then .setConfiguration
  else if b = 10 then .getInterface
  else if b = 11 then .setInterface
  else .unknown

def requestTarget (b : Byte) : Byte := b &&& 0x0f

def windexToEpNum (w : BitVec 16) : BitVec 16 := w &&& 0x000f

def typeCodeFromRequest (b : Byte) : Byte := (b >>> (4 : ℕ)) &&& 3

def selfPoweredHook : Bool := true

def ep0Reset (s : State) : State :=
  { s with handler := .shSetupBegin, wr := ⟨[],0⟩, address := 0 }

def State.setCsBits (s : State) (v : Cs0Bits) : State := { s with udc := s.udc.setCsBits v }

def writeFifo (s : State) : State :=
  let n := min s.wr.bytesLeft 8
  { s with
    udc := { s.udc with fifo := s.udc.fifo ++ s.wr.p.take n }
    wr := ⟨s.wr.p.drop n,s.wr.bytesLeft - n⟩ }

def queueAndStartWrite (p : List Byte) (req act : ℕ) (s : State) : Cs0Bits × State :=
  let (u,isClear) := s.udc.clearOpr
  if !isClear then ({ de := true, so := true },{ s with udc := u })
  else
    let s := writeFifo { s with udc := u, wr := ⟨p,min act req⟩ }
    if s.wr.bytesLeft = 0 then ({ ipr := true, de := true },{ s with wr := ⟨[],s.wr.bytesLeft⟩ })
    else if act < req then ({ ipr := true },{ s with handler := .shWriteWithEmptyPacket })
    else ({ ipr := true },{ s with handler := .shWrite })

/-- A data stage of `act` bytes from `p`, with the bits it asks for set. -/
def State.reply (s : State) (p : List Byte) (req act : ℕ) : State :=
  let (bits,s) := queueAndStartWrite p req act s
  s.setCsBits bits

/-- The cases of `get_descriptor`. -/
inductive DescType
  | device | config | string | interface | endpoint | unknown
deriving DecidableEq

/-- `wValue >> 8`, as a type of descriptor. -/
def Request.descType (r : Request) : DescType :=
  let type := r.wValue >>> (8 : ℕ)
  if type = 1 then .device
  else if type = 2 then .config
  else if type = 3 then .string
  else if type = 4 then .interface
  else if type = 5 then .endpoint
  else .unknown

def Request.descIndex (r : Request) : ℕ := (r.wValue &&& 0xff).toNat

def getDescriptor (r : Request) (s : State) : State :=
  let idx := r.descIndex
  let req := r.wLength.toNat
  let stall := s.setCsBits { de := true, so := true, fst := true }
  match r.descType with
  | .device => s.reply s.desc req (s.descByte 0).toNat
  | .config => s.reply (s.desc.drop 18) req 32
  | .string =>
    match s.getStringDescriptor idx with
    | some d => s.reply d.bytes req d.bLength.toNat
    | none => stall
  | .interface =>
    if idx = (s.descByte 29).toNat then s.reply (s.desc.drop 27) req (s.descByte 27).toNat
    else s.setCsBits {}
  | .endpoint =>
    if idx = 1 then s.reply (s.desc.drop 36) req (s.descByte 36).toNat
    else if idx = 2 then s.reply (s.desc.drop 43) req (s.descByte 43).toNat
    else stall
  | .unknown => stall

/-- `status_buf` of GET_STATUS. -/
def statusBuf (r : Request) (u : Udc) : List Byte :=
  let low : Byte :=
    if requestTarget r.bmRequestType = 0 then if selfPoweredHook then 1 else 0
    else if requestTarget r.bmRequestType = 2 then
      if windexToEpNum r.wIndex = 1 then if u.fst1 then 1 else 0
      else if windexToEpNum r.wIndex = 2 then if u.fst2 then 1 else 0
      else 0
    else 0
  [low,0]

section
variable (c : Client)

def setAddress (r : Request) (s : State) : State :=
  let address := r.wValue.setWidth 8 &&& 0x7f
  let s := { s with udc := { s.udc with car := address }, address := address }
  (usbctlNextStateOnEvent c .address s).2

def setConfiguration (r : Request) (s : State) : State :=
  if r.wValue = 1 then
    match usbctlNextStateOnEvent c .config s with
    | (none,s) => s
    | (some _,s) =>
      { s with udc := { s.udc with
        omp := BitVec.ofNat 8 (s.ep1MaxPacketSize + 255)
        imp := BitVec.ofNat 8 (s.ep2MaxPacketSize + 255) } }
  else if r.wValue = 0 then (usbctlNextStateOnEvent c .deConfig s).2
  else s

def clearFeature (r : Request) (s : State) : State :=
  if r.wValue = 0 then
    if windexToEpNum r.wIndex = 1 then ep1Reset c s
    else if windexToEpNum r.wIndex = 2 then ep2Reset c s
    else s
  else s

/-- SET_FEATURE takes the number of the endpoint from `wValue`. -/
def setFeature (r : Request) (s : State) : State :=
  if r.wValue = 0 then
    if windexToEpNum r.wValue = 1 then ep1Stall s
    else if windexToEpNum r.wValue = 2 then ep2Stall s
    else s
  else s

/-- The switch of `sh_setup_begin`. -/
def dispatch (r : Request) (s : State) : State :=
  let noData (s : State) := s.setCsBits { so := true, de := true }
  match requestCode r.bRequest with
  | .setAddress => noData (setAddress c r s)
  | .setConfiguration => noData (setConfiguration c r s)
  | .clearFeature => noData (clearFeature c r s)
  | .setFeature => noData (setFeature r s)
  | .getStatus => s.reply (statusBuf r s.udc) r.wLength.toNat 2
  | .getDescriptor => getDescriptor r s
  | .getConfiguration =>
    s.reply [if s.deviceState = .configured then 1 else 0] r.wLength.toNat 1
  | .getInterface => s.reply [] r.wLength.toNat 0
  | .setInterface => noData s
  | .unknown => s

/-- What `sh_setup_begin` has before it. -/
inductive Setup
  | noPacket
  | readError
  | unsupported (type : Byte)
  | standard (r : Request)
deriving DecidableEq

def State.setup (s : State) : Setup :=
  if !s.udc.cs0.opr then .noPacket
  else
    match Request.ofBytes s.udc.fifo with
    | none => .readError
    | some r =>
      if typeCodeFromRequest r.bmRequestType ≠ 0 then .unsupported (typeCodeFromRequest r.bmRequestType)
      else .standard r

/-- SST and SE are looked at first, as they are on entry. -/
def State.acknowledge (s : State) : State :=
  let t := if s.udc.cs0.sst then s.setCsBits { sst := true } else s
  if s.udc.cs0.se then t.setCsBits { sse := true } else t

def State.readFifo (s : State) : State := { s with udc := { s.udc with fifo := [] } }

def shSetupBegin (s : State) : State :=
  match s.setup with
  | .noPacket => s.acknowledge
  | .readError => s.acknowledge.readFifo.setCsBits { fst := true, so := true }
  | .unsupported _ => s.acknowledge.readFifo.setCsBits { de := true, so := true }
  | .standard r => dispatch c r s.acknowledge.readFifo

def commonWritePreamble (s : State) : State :=
  let r := s.udc.cs0
  let s := if r.se then { s with udc := s.udc.writeCs0 { sse := true }, handler := .shSetupBegin } else s
  let s := if r.sst then { s with udc := s.udc.writeCs0 { sst := true }, handler := .shSetupBegin } else s
  if r.opr then { s with udc := s.udc.clearIpr, handler := .shSetupBegin } else s

def shWrite (s : State) : State :=
  if s.udc.cs0.ipr then s
  else if s.wr.bytesLeft = 0 then
    { s with udc := s.udc.setDe, wr := ⟨[],s.wr.bytesLeft⟩, handler := .shSetupBegin }
  else
    let s := writeFifo s
    { s with udc := s.udc.setIpr }

def shWriteWithEmptyPacket (s : State) : State :=
  if s.udc.cs0.ipr then s
  else
    let s :=
      if s.wr.bytesLeft = 0 then
        { s with udc := s.udc.setIprAndDe, wr := ⟨[],s.wr.bytesLeft⟩, handler := .shSetupBegin }
      else
        let s := writeFifo s
        { s with udc := s.udc.setIpr }
    { s with udc := s.udc.writeCs0 {} }

/-- `(*current_handler)()`. -/
def Handler.call : Handler → State → State
  | .shSetupBegin => UsbDevice.shSetupBegin c
  | .shWrite => UsbDevice.shWrite
  | .shWriteWithEmptyPacket => UsbDevice.shWriteWithEmptyPacket

def ep0IntHndlr (s : State) : State :=
  let s := if s.handler = .shSetupBegin then s else commonWritePreamble s
  s.handler.call c s

/-- `UDCSR` with what the endpoints' own registers show. -/
structure Interrupt where
  rstir : Bool := false
  resir : Bool := false
  susir : Bool := false
  eir : Bool := false
  rir : Option RxStatus := none
  tir : Option TxStatus := none

/-- The part of `udc_int_hndlr` for a bus reset. -/
def busReset (s : State) : State :=
  match usbctlNextStateOnEvent c .reset s with
  | (none,s) => s
  | (some _,s) => ep2Reset c (ep1Reset c (ep0Reset s))

def udcIntHndlr (i : Interrupt) (s : State) : State :=
  if i.rstir then busReset c s
  else
    let s := if i.resir then (usbctlNextStateOnEvent c .resume s).2 else s
    let s := if i.susir then (usbctlNextStateOnEvent c .suspend s).2 else s
    let s := if i.eir then ep0IntHndlr c s else s
    let s := match i.rir with
      | some st => ep1IntHndlr c st s
      | none => s
    match i.tir with
    | some st => ep2IntHndlr c st s
    | none => s

def sa1100UsbOpen (client : String) (s : State) : Result × State :=
  if s.clientName.isSome then (.ebusy,s)
  else (.ok,{ s with
    clientName := some client
    smState := .zombieSuspend
    deviceState := .suspended
    desc := initialDesc
    strings := initialStrings })

def sa1100UsbStart (s : State) : Result × State :=
  if s.clientName.isNone then (.eperm,s)
  else (.ok,ep2Init c (ep1Init c { s with udc := { s.udc with fst1 := false, fst2 := false } }))

def sa1100UsbStop (s : State) : Result × State :=
  if s.clientName.isNone then (.eperm,s) else (.ok,ep2Reset c (ep1Reset c s))

def sa1100UsbClose (s : State) : Result × State :=
  if s.clientName.isNone then (.eperm,s) else (.ok,{ s with clientName := none })

/-- What can happen to the driver: the client's calls, a change of `UDCCS0` and the FIFO by the bus,
an interrupt. -/
inductive Event
  | openClient (client : String)
  | start
  | stop
  | close
  | setConfiguredCallback (present : Bool)
  | setDescriptors (bytes : List Byte)
  | setStringDescriptor (i : ℕ) (d : Option StringDesc)
  | call (a : Call)
  | recvReset
  | sendReset
  | recvStall
  | bus (cs0 : Cs0) (fifo : List Byte) (oprStuck : Bool)
  | interrupt (i : Interrupt)

def State.step (s : State) : Event → State
  | .openClient client => (sa1100UsbOpen client s).2
  | .start => (sa1100UsbStart c s).2
  | .stop => (sa1100UsbStop c s).2
  | .close => (sa1100UsbClose s).2
  | .setConfiguredCallback present => { s with configuredCallback := present }
  | .setDescriptors bytes => { s with desc := bytes }
  | .setStringDescriptor i d =>
    if i < maxStringDesc then { s with strings := Function.update s.strings i d } else s
  | .call a => s.call a
  | .recvReset => ep1Reset c s
  | .sendReset => ep2Reset c s
  | .recvStall => ep1Stall s
  | .bus cs0 fifo oprStuck => { s with udc := { s.udc with cs0, fifo, oprStuck } }
  | .interrupt i => udcIntHndlr c i s

end

/-- The driver as it is loaded, with the UDC in any state. -/
def State.boot (u : Udc) : State where
  udc := u
  smState := .zombie
  clientName := none
  deviceState := .notAttached
  address := 0
  configuredCallback := false
  desc := List.replicate 50 0
  strings := fun _ => none
  handler := .shSetupBegin
  wr := ⟨[],0⟩
  rx := ⟨0,0,0,false,0,0⟩
  tx := ⟨0,0,0,false,0,0⟩
  naking := false
  nextId := 0
  reports := []

/-- A run takes the events in turn, each with the client's answers to the callbacks it causes. -/
def State.run (s : State) (es : List (Event × Client)) : State :=
  es.foldl (fun t e => t.step e.2 e.1) s

end Simpad.UsbDevice
