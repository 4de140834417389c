import Simpad.Irda.Crc

namespace Simpad.Irda

def bof : Byte := 0xc0

def xbof : Byte := 0xff

def eof : Byte := 0xc1

def ce : Byte := 0x7d

def irdaTrans : Byte := 0x20

/-- What `async_wrap_skb` reads of the control block: whether the magic number is right, and the
numbers of extra BOFs. -/
structure SkbCb where
  lapMagic : Bool
  xbofs : ℕ
  xbofsDelay : ℕ

def SkbCb.numXbofs (cb : SkbCb) : ℕ := min (if cb.lapMagic then cb.xbofs + cb.xbofsDelay else 10) 163

def stuffByte (byte : Byte) : List Byte :=
  if byte = bof ∨ byte = eof ∨ byte = ce then [ce,byte ^^^ irdaTrans] else [byte]

/-- The loop over the data and what follows it; `tx` is in the buffer.  If the check for the size
of the buffer fails, that is all. -/
def wrapData (buffsize : ℕ) : List Byte → BitVec 16 → List Byte → List Byte
  | tx, fcs, [] => tx ++ (lsbFirst (~~~fcs)).flatMap stuffByte ++ [eof]
  | tx, fcs, byte :: data =>
    if tx.length + 5 < buffsize then wrapData buffsize (tx ++ stuffByte byte) (irdaFcs fcs byte) data
    else tx

/-- `async_wrap_skb`: what is put in the buffer, `none` if it goes over its end. -/
def asyncWrapSkb (cb : SkbCb) (data : List Byte) (buffsize : ℕ) : Option (List Byte) :=
  let tx := wrapData buffsize (List.replicate cb.numXbofs xbof ++ [bof]) initFcs data
  if tx.length ≤ buffsize then some tx else none

inductive RxState
  | outsideFrame | beginFrame | linkEscape | insideFrame
deriving DecidableEq

/-- The receive part of `struct net_device_stats`. -/
structure Stats where
  rxPackets : ℕ
  rxBytes : ℕ
  rxDropped : ℕ
  rxErrors : ℕ
  rxFrameErrors : ℕ
  rxCrcErrors : ℕ
deriving DecidableEq

/-- `iobuff_t` (its `len` is the length of `data`), the statistics, and what has been passed up. -/
structure Receiver where
  state : RxState
  inFrame : Bool
  data : List Byte
  truesize : ℕ
  fcs : BitVec 16
  mediaBusy : Bool
  stats : Stats
  delivered : List (List Byte)

namespace Receiver

/-- `async_bump`; `alloc` says whether there is memory for the skb. -/
def asyncBump (r : Receiver) (alloc : Bool) : Receiver :=
  if !alloc then { r with stats := { r.stats with rxDropped := r.stats.rxDropped + 1 } }
  else { r with
    delivered := r.delivered ++ [r.data.take (r.data.length - 2)]
    stats := { r.stats with
      rxPackets := r.stats.rxPackets + 1
      rxBytes := r.stats.rxBytes + r.data.length } }

def store (r : Receiver) (byte : Byte) : Receiver :=
  { r with data := r.data ++ [byte], fcs := irdaFcs r.fcs byte }

def outsideFrame (r : Receiver) (byte : Byte) : Receiver :=
  if byte = bof then { r with state := .beginFrame, inFrame := true }
  else if byte = xbof then r
  else { r with mediaBusy := true }

def beginFrame (r : Receiver) (byte : Byte) : Receiver :=
  let r := { r with data := [], fcs := initFcs }
  if byte = bof then r
  else if byte = ce then { r with state := .linkEscape }
  else if byte = eof then { r with
    state := .outsideFrame
    stats := { r.stats with
      rxErrors := r.stats.rxErrors + 1
      rxFrameErrors := r.stats.rxFrameErrors + 1 } }
  else { r.store byte with state := .insideFrame }

def linkEscape (r : Receiver) (byte : Byte) : Receiver :=
  if byte = bof then { r with state := .beginFrame, mediaBusy := true }
  else if byte = ce then r
  else if byte = eof then { r with state := .outsideFrame }
  else if r.data.length < r.truesize then
    { r.store (byte ^^^ irdaTrans) with state := .insideFrame }
  else { r with state := .outsideFrame }

def insideFrame (r : Receiver) (alloc : Bool) (byte : Byte) : Receiver :=
  if byte = bof then { r with state := .beginFrame, mediaBusy := true }
  else if byte = ce then { r with state := .linkEscape }
  else if byte = eof then
    let r := { r with state := .outsideFrame, inFrame := false }
    if r.fcs = goodFcs then r.asyncBump alloc
    else { r with
      mediaBusy := true
      stats := { r.stats with
        rxErrors := r.stats.rxErrors + 1
        rxCrcErrors := r.stats.rxCrcErrors + 1 } }
  else if r.data.length < r.truesize then r.store byte
  else { r with state := .outsideFrame }

def asyncUnwrapChar (alloc : Bool) (r : Receiver) (byte : Byte) : Receiver :=
  match r.state with
  | .outsideFrame => r.outsideFrame byte
  | .beginFrame => r.beginFrame byte
  | .linkEscape => r.linkEscape byte
  | .insideFrame => r.insideFrame alloc byte

def unwrap (r : Receiver) (bytes : List Byte) : Receiver := bytes.foldl (asyncUnwrapChar true) r

end Receiver

end Simpad.Irda
