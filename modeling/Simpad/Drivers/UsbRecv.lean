import Simpad.Drivers.DmaPosition
import Simpad.Drivers.UsbChar

namespace Simpad.UsbRecv
open Dma Memory Word List
open UsbChar (Byte Flag)

/-- The request on the endpoint, the variables `ep1_*`. -/
structure Ep1 where
  len : ℕ
  remain : ℤ
  curdmapos : ℕ
  curdmalen : ℕ

/-- `sa1100_usb_recv` with `ep1_start`; a second request gets `-EBUSY`. -/
def usbRecv (e : Ep1) (rxPktsize buf len : ℕ) : Option Ep1 :=
  if e.len ≠ 0 then none else some ⟨len,len,buf,min rxPktsize len⟩

/-- `ep1_done`: the callback gets the flag and the size. -/
def Ep1.done (e : Ep1) (flag : Flag) : Ep1 × Option (Flag × ℤ) :=
  if e.len = 0 then (e,none)
  else ({ e with len := 0, curdmalen := 0 },some (flag,s32 (e.len - e.remain)))

/-- The bits of `Ser0UDCCS1` that the handler reads. -/
structure Status where
  rpc : Bool
  sst : Bool
  rpe : Bool

/-- The loop that empties the FIFO. -/
def drain (curdmalen : ℕ) : ℕ → List Byte → List Byte
  | _, [] => []
  | len, byte :: fifo => if curdmalen ≤ len then [] else byte :: drain curdmalen (len + 1) fifo

structure Outcome where
  ep : Ep1
  mem : ℕ → Byte
  call : Option (Flag × ℤ)

def Ep1.intHndlr (e : Ep1) (status : Status) (dma : Chan) (mem : ℕ → Byte) (fifo : List Byte) :
    Outcome :=
  if status.rpc = false ∨ e.curdmalen = 0 then ⟨e,mem,none⟩
  else if status.sst = true ∨ status.rpe = true then ⟨(e.done .eio).1,mem,(e.done .eio).2⟩
  else
    let pos := sub32 dma.stop.getCurrent e.curdmapos
    let bytes := if pos < e.curdmalen then drain e.curdmalen pos fifo else []
    -- a FIFO that should be empty makes the packet empty
    let len := if pos < e.curdmalen then pos + bytes.length else if fifo = [] then pos else 0
    let r := { e with curdmalen := 0, remain := s32 (e.remain - len) : Ep1 }.done
      (if len = 0 then .epipe else .ok)
    ⟨r.1,blit mem (e.curdmapos + pos) bytes,r.2⟩

theorem drain_eq {curdmalen len : ℕ} {fifo : List Byte} (h : len + fifo.length ≤ curdmalen) :
    drain curdmalen len fifo = fifo := by
  induction fifo generalizing len with
  | nil => rfl
  | cons byte fifo ih =>
    rw [length_cons] at h
    rw [drain,if_neg (by omega),ih (by omega)]

theorem slice_blit (mem : ℕ → Byte) (pos : ℕ) (l : List Byte) :
    slice (blit mem pos l) pos l.length = l := by
  apply ext_getElem (length_slice ..)
  intro k hk hk'
  rw [getElem_slice,blit_of_lt hk']

variable {rxPktsize buf len : ℕ} {s : Chan} {packet : List Byte} {mem : ℕ → Byte} {e e' : Ep1}

/-- What the handler does from the position `pos`, where the first `k` bytes of the packet are in the
buffer and the rest is in the FIFO. -/
theorem intHndlr_eq {pos k : ℕ} (mem : ℕ → Byte) (hcur : sub32 s.stop.getCurrent buf = pos)
    (hn : min rxPktsize len ≠ 0) (hp : packet.length ≤ min rxPktsize len)
    (hk : pos = k ∨ packet.drop k = []) (hkp : k ≤ packet.length) :
    ∃ ep flag, Ep1.intHndlr ⟨len,len,buf,min rxPktsize len⟩ ⟨true,false,false⟩ s
        (blit mem buf (packet.take k)) (packet.drop k) =
      ⟨ep,blit mem buf packet,some (flag,s32 (pos + (packet.length - k) : ℕ))⟩ := by
  have hlen := length_drop (i := k) (l := packet)
  have hbytes : (if pos < min rxPktsize len then drain (min rxPktsize len) pos (packet.drop k)
      else []) = packet.drop k := by
    rcases hk with rfl | hnil
    · split_ifs
      · exact drain_eq (by omega)
      · exact (drop_eq_nil_of_le (by omega)).symm
    · rw [hnil]
      exact ite_self _
  have hsize : (if pos < min rxPktsize len then pos + (packet.drop k).length
      else if packet.drop k = [] then pos else 0) = pos + (packet.length - k) := by
    split_ifs with h h'
    · rw [hlen]
    · rw [← hlen,h']
      rfl
    · have hpos := hk.resolve_right h'
      grind
  have hmem : blit (blit mem buf (packet.take k)) (buf + pos) (packet.drop k) =
      blit mem buf packet := by
    rcases hk with rfl | hnil
    · have happ : blit mem buf (packet.take pos ++ packet.drop pos) = _ := blit_append
      rwa [take_append_drop,length_take,min_eq_left hkp,eq_comm] at happ
    · rw [hnil,blit_nil,take_of_length_le (drop_eq_nil_iff.mp hnil)]
  have hl : len ≠ 0 := by omega
  unfold Ep1.intHndlr
  rw [if_neg (by simpa using hn),if_neg (by decide)]
  simp only [hcur,hbytes,hsize,hmem,Ep1.done,if_neg hl]
  simp [s32,Int.sub_bmod_bmod,sub_sub_cancel]

theorem s32_eq_iff {k n : ℕ} (hk : k < 4294967296) (hn : n < 2147483648) :
    s32 k = n ↔ k = n := by
  unfold s32
  rw [Int.bmod_def]
  split_ifs <;> omega

/-- The callback gets the size of the packet, which is in the buffer, and no byte is written outside
of the request. -/
def Outcome.Exact (r : Outcome) (mem : ℕ → Byte) (buf len : ℕ) (packet : List Byte) : Prop :=
  (∀ flag size, r.call = some (flag,size) →
      size = packet.length ∧ slice r.mem buf packet.length = packet) ∧
    ∀ i, i < buf ∨ buf + len ≤ i → r.mem i = mem i

theorem exact_iff {ep : Ep1} {flag : Flag} {k : ℕ} (hk : k < 4294967296) (hlen : len < 2147483648)
    (hp : packet.length ≤ len) :
    Outcome.Exact ⟨ep,blit mem buf packet,some (flag,s32 k)⟩ mem buf len packet ↔
      k = packet.length := by
  rw [← s32_eq_iff hk (by omega)]
  constructor
  · intro h
    exact (h.1 flag (s32 k) rfl).1
  · intro h
    refine ⟨fun flag size hc => ?_,fun i hi => blit_of_not_mem (by omega)⟩
    cases hc
    exact ⟨h,slice_blit mem buf packet⟩

/-- Where the interrupt of a full buffer was handled before that of the packet, `dma_addr` is 0, and
the size is the distance of the buffer to the end of the address space. -/
theorem intHndlr_exact_iff (he : usbRecv e rxPktsize buf len = some e') (hlen : len < 2147483648)
    (hbuf : buf + len ≤ 4294967296) (hs : Filling buf (min rxPktsize len) s)
    (hp : packet.length ≤ min rxPktsize len) (hm : s.moved.length ≤ packet.length) :
    (e'.intHndlr ⟨true,false,false⟩ s (blit mem buf (packet.take s.moved.length))
        (packet.drop s.moved.length)).Exact mem buf len packet ↔
      s.called = [] ∨ min rxPktsize len = 0 ∨ buf + min rxPktsize len = 4294967296 := by
  obtain ⟨-,he⟩ := Option.ite_none_left_eq_some.mp he
  cases he
  by_cases hn : min rxPktsize len = 0
  · have hnil : packet = [] := length_eq_zero_iff.mp (by omega)
    rw [Ep1.intHndlr,if_pos (Or.inr hn),hnil,take_nil,blit_nil]
    exact iff_of_true ⟨fun _ _ hc => (nomatch hc),fun _ _ => rfl⟩ (Or.inr (Or.inl hn))
  obtain ⟨-,hknown,hlost⟩ := hs.distance (by omega) (by omega)
  by_cases hc : s.called = []
  · obtain ⟨ep,flag,hr⟩ := intHndlr_eq mem (hknown hc) hn hp (Or.inl rfl) hm
    rw [hr,exact_iff (by omega) hlen (by omega)]
    exact iff_of_true (by omega) (Or.inl hc)
  · obtain ⟨hfull,hcur⟩ := hlost hc
    have hnil : packet.drop s.moved.length = [] := drop_eq_nil_of_le (by omega)
    obtain ⟨ep,flag,hr⟩ := intHndlr_eq mem hcur hn hp (Or.inr hnil) hm
    rw [hr,exact_iff (by omega) hlen (by omega)]
    simp only [hc,hn,false_or]
    omega

theorem intHndlr_exact_split :
    ∃ e' s, usbRecv ⟨0,0,0,0⟩ 64 4096 2 = some e' ∧ Filling 4096 2 s ∧ s.moved.length = 1 ∧
      (e'.intHndlr ⟨true,false,false⟩ s (blit (fun _ => 0) 4096 (take s.moved.length [7,8]))
        (drop s.moved.length [7,8])).Exact (fun _ => 0) 4096 2 [7,8] := by
  have hs : Filling 4096 (min 64 2) _ := ⟨false,[.move],by simp [Op.Hardware],rfl⟩
  exact ⟨_,_,rfl,hs,rfl,(intHndlr_exact_iff (e := ⟨0,0,0,0⟩) rfl (by decide) (by decide) hs
    (by decide) (by decide)).mpr (Or.inl rfl)⟩

/-- The controller has moved both bytes and its interrupt was handled. -/
theorem intHndlr_inexact :
    ∃ e' s, usbRecv ⟨0,0,0,0⟩ 64 4096 2 = some e' ∧ Filling 4096 2 s ∧ s.moved.length = 2 ∧
      ¬(e'.intHndlr ⟨true,false,false⟩ s (blit (fun _ => 0) 4096 [7,8]) []).Exact
        (fun _ => 0) 4096 2 [7,8] := by
  have hs : Filling 4096 (min 64 2) _ := ⟨false,[.move,.move,.complete,.irq],by simp [Op.Hardware],rfl⟩
  refine ⟨_,_,rfl,hs,rfl,fun h => ?_⟩
  exact absurd (h.1 _ _ rfl).1 (by decide)

end Simpad.UsbRecv
