import Simpad.Base.RangeCoder
import Simpad.Jffs2.Node

namespace Simpad.Jffs2.Rubin
open Word RangeCoder

/-- A bit of memory, the highest of a byte first. -/
def bitAt (buf : ℕ → Byte) (i : ℕ) : Bool := (buf (i / 8)).toBitVec.getLsbD (7 - i % 8)

def setBit (buf : ℕ → Byte) (i : ℕ) (bit : Bool) : ℕ → Byte := fun j =>
  let mask := BitVec.twoPow 8 (7 - i % 8)
  if j = i / 8 then
    .ofBitVec (if bit then (buf j).toBitVec ||| mask else (buf j).toBitVec &&& ~~~mask)
  else buf j

/-- `struct pushpull`. -/
structure PushPull where
  buf : ℕ → Byte
  buflen : ℕ
  ofs : ℕ
  reserve : ℕ

/-- `pushbit`: whether there was room. -/
def pushbit (pp : PushPull) (bit useReserved : Bool) : Bool × PushPull :=
  let ok := decide (pp.ofs < sub32 pp.buflen (if useReserved then 0 else pp.reserve))
  (ok,{ pp with
    buf := if ok then setBit pp.buf pp.ofs bit else pp.buf
    ofs := if ok then u32 (pp.ofs + 1) else pp.ofs })

/-- `struct rubin_state` of the encoder. -/
structure State where
  iv : Iv
  pp : PushPull

/-- The interval that `init_rubin` starts from. -/
def initRubin : Iv := ⟨0,2 ^ 16⟩

/-- The loop at the start of `encode`; `p` doubles, so 17 rounds are more than enough. -/
def encodeLoop : ℕ → State → Bool × State
  | 0, rs => (true,rs)
  | n + 1, rs =>
    if rs.iv.Half 15 then
      let r := pushbit rs.pp (rs.iv.q.testBit 15) false
      if r.1 then encodeLoop n ⟨rs.iv.shift 15,r.2⟩ else (false,{ rs with pp := r.2 })
    else (true,rs)

/-- `i0` of `encode` and `decode`. -/
def cut (A B p : ℕ) : ℕ :=
  let i0 := A * p / (A + B)
  let i0 := if i0 = 0 then 1 else i0
  if p ≤ i0 then p - 1 else i0

def encode (rs : State) (A B : ℕ) (symbol : Bool) : Bool × State :=
  let r := encodeLoop 17 rs
  if r.1 then (true,{ r.2 with iv := r.2.iv.part (cut A B r.2.iv.p) symbol }) else r

/-- The loop of `out_byte` over the probabilities. -/
def outByteLoop : List ℕ → ℕ → State → Bool × State
  | [], _, rs => (true,rs)
  | b :: bits, byte, rs =>
    let r := encode rs (256 - b) b (byte % 2 = 1)
    if r.1 then outByteLoop bits (byte / 2) r.2 else r

/-- `out_byte`; the state is restored after a failure, the memory is not. -/
def outByte (bits : List ℕ) (rs : State) (byte : Byte) : Bool × State :=
  let r := outByteLoop bits byte.toNat rs
  if r.1 then r else (false,{ rs with pp := { rs.pp with buf := r.2.pp.buf } })

/-- The loop of `rubin_do_compress`: how many bytes are taken. -/
def compressLoop (bits : List ℕ) : List Byte → State → ℕ × State
  | [], rs => (0,rs)
  | byte :: data, rs =>
    let r := outByte bits rs byte
    if r.1 then
      let t := compressLoop bits data r.2
      (t.1 + 1,t.2)
    else (0,r.2)

def shl (q : ℕ) : ℕ := q % 2 ^ 15 * 2

/-- One round of `end_rubin`. -/
def endRound (r : ℕ × PushPull) : ℕ × PushPull :=
  (shl r.1,(pushbit r.2 (r.1.testBit 15) true).2)

def endRubin (q : ℕ) (pp : PushPull) : PushPull := (endRound^[16] (q,pp)).2

/-- `rubin_do_compress` into `buf`: the memory, and the lengths if it returns 0. -/
def rubinDoCompress (bits : List ℕ) (data : List Byte) (buf : ℕ → Byte) (dstlen : ℕ) :
    (ℕ → Byte) × Option (ℕ × ℕ) :=
  let r := compressLoop bits data ⟨initRubin,⟨buf,u32 (dstlen * 8),0,32⟩⟩
  let pp := endRubin r.2.iv.q r.2.pp
  -- `pushedbits` and `outpos` are signed
  let outpos := (s32 pp.ofs + 7).tdiv 8
  (pp.buf,if r.1 ≤ outpos then none else some (r.1,(outpos % 2 ^ 32).toNat))

/-- `histo`, an array of bytes. -/
def histo (data : List Byte) (v : ℕ) : ℕ := (data.countP fun b => b.toNat = v) % 256

/-- `bits[i]` as `dynrubin_compress` has it in the end. -/
def probability (data : List Byte) (i : ℕ) : ℕ :=
  let sum := (((List.range 256).filter fun v => v.testBit i).map (histo data)).sum
  let b := sum * 256 / data.length
  let b := if b = 0 then 1 else b
  if 255 < b then 255 else b

/-- `dynrubin_compress`: the length of the part that was taken, and what it became. -/
def dynrubinCompress (data : List Byte) (buf : ℕ → Byte) (dstlen : ℕ) : Option (ℕ × List Byte) :=
  if dstlen ≤ 12 then none
  else
    let bits := (List.range 8).map (probability data)
    let r := rubinDoCompress bits data buf (sub32 dstlen 8)
    r.2.bind fun (pos,outpos) =>
      let mydstlen := u32 (outpos + 8)
      if pos ≤ mydstlen then none
      else some (pos,(bits.map UInt8.ofNat ++ (List.range outpos).map r.1).take mydstlen)

/-- `struct rubin_state` of the decoder. -/
structure Decoder where
  iv : Iv
  recq : ℕ
  ofs : ℕ

/-- The first loop of `__do_decode`: how many bits are needed. -/
def shiftLoop : ℕ → Iv → ℕ × Iv
  | 0, s => (0,s)
  | n + 1, s =>
    if s.Half 15 then
      let r := shiftLoop n (s.shift 15)
      (r.1 + 1,r.2)
    else (0,s)

/-- The second loop of `__do_decode`. -/
def pullLoop (data : ℕ → Byte) : ℕ → ℕ → ℕ → ℕ
  | 0, _, recq => recq
  | n + 1, ofs, recq => pullLoop data n (ofs + 1) (shl recq + (bitAt data ofs).toNat)

def decode (data : ℕ → Byte) (A B : ℕ) (rs : Decoder) : Bool × Decoder :=
  let r := shiftLoop 17 rs.iv
  let recq := pullLoop data r.1 rs.ofs rs.recq
  let i0 := cut A B r.2.p
  let symbol := decide (r.2.q + i0 ≤ recq)
  (symbol,⟨r.2.part i0 symbol,recq,rs.ofs + r.1⟩)

/-- `in_byte` from bit `i` on. -/
def inByteLoop (data : ℕ → Byte) : List ℕ → ℕ → ℕ → Decoder → ℕ × Decoder
  | [], _, result, rs => (result,rs)
  | b :: bits, i, result, rs =>
    let r := decode data (256 - b) b rs
    inByteLoop data bits (i + 1) (result ||| r.1.toNat <<< i) r.2

/-- `init_decode`: the first 16 bits. -/
def initDecode (data : ℕ → Byte) : Decoder where
  iv := initRubin
  recq := (List.range 16).foldl (fun recq i => recq * 2 + (bitAt data i).toNat) 0
  ofs := 16

/-- The loop of `rubin_do_decompress`. -/
def decompressLoop (data : ℕ → Byte) (bits : List ℕ) : ℕ → Decoder → List Byte
  | 0, _ => []
  | n + 1, rs =>
    let r := inByteLoop data bits 0 0 rs
    UInt8.ofNat r.1 :: decompressLoop data bits n r.2

def dynrubinDecompress (src : List Byte) (destlen : ℕ) : List Byte :=
  let data : ℕ → Byte := fun i => src.getD (8 + i) 0
  decompressLoop data ((src.take 8).map UInt8.toNat) destlen (initDecode data)

end Simpad.Jffs2.Rubin
