import Simpad.Drivers.UsbChar

namespace Simpad.UsbEth
open List
open UsbChar (Byte Flag)

/-- `usb_rsize`, the room in a new skb and the address of the device. -/
structure Device where
  rsize : ℕ
  room : ℕ
  devAddr : List Byte

/-- The contents of `cur_rx_skb` and `next_rx_skb`, and what was passed to `netif_rx`. -/
structure Rx where
  cur : List Byte
  next : List Byte
  passed : List (List Byte)

/-- The frame is for the device or a broadcast, or too short to tell. -/
def forUs (d : Device) (skb : List Byte) : Bool :=
  skb.length < 14 || skb.take 6 == d.devAddr || skb.take 6 == replicate 6 255

/-- `usb_recv_callback`, where `usb_new_recv_skb` succeeds or not. -/
def Rx.recvCallback (d : Device) (s : Rx) (flag : Flag) (packet : List Byte) (alloc : Bool) : Rx :=
  if flag ≠ .ok ∨ d.room - s.cur.length < packet.length then { s with cur := [] }
  else if packet.length = d.rsize then { s with cur := s.cur ++ packet }
  -- the frame is complete, and the next one goes to the other skb
  else if alloc = false then { s with cur := s.next, next := [] }
  else if forUs d (s.cur ++ packet) = false ∨ s.cur ++ packet = [] then ⟨[],[],s.passed⟩
  else ⟨s.next,[],s.passed ++ [s.cur ++ packet]⟩

structure Packet where
  data : List Byte
  flag : Flag

/-- A frame of the host, and whether an skb can be allocated after it. -/
structure Frame where
  full : List Packet
  last : Packet
  alloc : Bool

def Frame.bytes (f : Frame) : List Byte := f.full.flatMap Packet.data ++ f.last.data

/-- The packets are those that the host makes of a frame that fits. -/
structure Frame.Legal (d : Device) (f : Frame) : Prop where
  full : ∀ p ∈ f.full, p.data.length = d.rsize
  pos : 0 < f.last.data.length
  short : f.last.data.length < d.rsize
  fits : f.bytes.length ≤ d.room

def Rx.frame (d : Device) (s : Rx) (f : Frame) : Rx :=
  (f.full.foldl (fun s p => s.recvCallback d p.flag p.data f.alloc) s).recvCallback d f.last.flag
    f.last.data f.alloc

def received (d : Device) (frames : List Frame) : Rx := frames.foldl (Rx.frame d) ⟨[],[],[]⟩

/-- What is collected after the packets, from the last one on that failed. -/
def kept (skb : List Byte) (packets : List Packet) : List Byte :=
  packets.foldl (fun skb p => if p.flag = .ok then skb ++ p.data else []) skb

def delivered (d : Device) (f : Frame) : List (List Byte) :=
  let skb := kept [] f.full ++ f.last.data
  if f.last.flag ≠ .ok ∨ f.alloc = false ∨ forUs d skb = false then [] else [skb]

variable {d : Device} {f : Frame} {s : Rx} {packets : List Packet}

theorem length_full (h : ∀ p ∈ packets, p.data.length = d.rsize) :
    (packets.flatMap Packet.data).length = packets.length * d.rsize := by
  rw [length_flatMap,map_congr_left h,map_const',sum_replicate,smul_eq_mul]

theorem kept_cases (skb : List Byte) (h : ∀ p ∈ packets, p.data.length = d.rsize) :
    ((∀ p ∈ packets, p.flag = .ok) ∧ kept skb packets = skb ++ packets.flatMap Packet.data) ∨
      (¬(∀ p ∈ packets, p.flag = .ok) ∧
        (kept skb packets).length + d.rsize ≤ packets.length * d.rsize) := by
  induction packets generalizing skb with
  | nil => exact Or.inl ⟨fun p hp => absurd hp not_mem_nil,(append_nil _).symm⟩
  | cons p packets ih =>
    have hrest : ∀ q ∈ packets, q.data.length = d.rsize := fun q hq => h q (mem_cons_of_mem p hq)
    have hstep : kept skb (p :: packets) =
        kept (if p.flag = .ok then skb ++ p.data else []) packets := rfl
    rw [hstep,forall_mem_cons,flatMap_cons,length_cons,add_mul,one_mul]
    by_cases hp : p.flag = .ok
    · grind
    · rw [if_neg hp]
      refine Or.inr ⟨fun hall => hp hall.1,Nat.add_le_add_right ?_ _⟩
      rcases ih [] hrest with ⟨-,hk⟩ | ⟨-,hk⟩
      · rw [hk,nil_append,length_full hrest]
      · omega

theorem foldl_full (h : ∀ p ∈ packets, p.data.length = d.rsize) (alloc : Bool)
    (hroom : s.cur.length + packets.length * d.rsize ≤ d.room) :
    packets.foldl (fun s p => s.recvCallback d p.flag p.data alloc) s =
      { s with cur := kept s.cur packets } := by
  induction packets generalizing s with
  | nil => rfl
  | cons p packets ih =>
    have hp := h p mem_cons_self
    rw [length_cons,add_mul,one_mul] at hroom
    have hstep : s.recvCallback d p.flag p.data alloc =
        { s with cur := if p.flag = .ok then s.cur ++ p.data else [] } := by
      unfold Rx.recvCallback
      grind
    rw [foldl_cons,hstep,ih (fun q hq => h q (mem_cons_of_mem p hq))]
    · rfl
    · grind

theorem frame_eq (h : f.Legal d) (passed : List (List Byte)) :
    Rx.frame d ⟨[],[],passed⟩ f = ⟨[],[],passed ++ delivered d f⟩ := by
  have hfits := h.fits
  have hpos := h.pos
  rw [Frame.bytes,length_append,length_full h.full] at hfits
  have hkept : (kept [] f.full).length ≤ f.full.length * d.rsize := by
    rcases kept_cases [] h.full with ⟨-,hk⟩ | ⟨-,hk⟩
    · rw [hk,nil_append,length_full h.full]
    · omega
  have hne : kept [] f.full ++ f.last.data ≠ [] := by
    rw [← length_pos_iff,length_append]
    omega
  rw [Rx.frame,foldl_full h.full f.alloc (by rw [length_nil]; omega)]
  unfold Rx.recvCallback delivered
  by_cases hf : f.last.flag = .ok
  · rw [if_neg (by grind),
      if_neg h.short.ne]
    grind
  · simp [hf]

theorem received_concat {frames : List Frame} (h : ∀ f ∈ frames, f.Legal d) :
    received d frames = ⟨[],[],frames.flatMap (delivered d)⟩ := by
  suffices hp : ∀ passed, frames.foldl (Rx.frame d) ⟨[],[],passed⟩ =
      ⟨[],[],passed ++ frames.flatMap (delivered d)⟩ from hp []
  induction frames with
  | nil => simp
  | cons f frames ih =>
    simp [foldl_cons,frame_eq (h f mem_cons_self),ih fun g hg => h g (mem_cons_of_mem f hg),
      flatMap_cons,append_assoc]

/-- The frame is not passed up in part: its last packet fails, or no packet does, or what is left of it
is dropped at the end. -/
def Frame.Whole (d : Device) (f : Frame) : Prop :=
  f.last.flag ≠ .ok ∨ (∀ p ∈ f.full, p.flag = .ok) ∨ f.alloc = false ∨
    forUs d (kept [] f.full ++ f.last.data) = false

theorem delivered_iff (h : f.Legal d) :
    delivered d f = [] ∨ delivered d f = [f.bytes] ↔ f.Whole d := by
  unfold delivered Frame.Whole
  dsimp only
  split_ifs with hdrop
  · grind
  · have hshort := h.short
    obtain ⟨hlast,halloc,hus⟩ := not_or.mp hdrop |>.imp_right not_or.mp
    simp only [hlast,halloc,hus,Bool.true_eq_false,false_or,or_false,cons.injEq,and_true]
    rcases kept_cases [] h.full with ⟨hall,hk⟩ | ⟨hall,hk⟩
    · exact iff_of_true (by rw [hk]; rfl) hall
    · refine iff_of_false (fun he => ?_) hall
      have hlen := congrArg length he
      rw [Frame.bytes,length_append,length_append,length_full h.full] at hlen
      omega

/-- What is passed up while a frame comes is this frame, if anything. -/
theorem received_whole_iff {frames : List Frame} (h : ∀ f ∈ frames, f.Legal d) :
    (∀ fs f, fs ++ [f] <+: frames → (received d (fs ++ [f])).passed = (received d fs).passed ∨
        (received d (fs ++ [f])).passed = (received d fs).passed ++ [f.bytes]) ↔
      ∀ f ∈ frames, f.Whole d := by
  have hone : ∀ fs f, fs ++ [f] <+: frames →
      (((received d (fs ++ [f])).passed = (received d fs).passed ∨
        (received d (fs ++ [f])).passed = (received d fs).passed ++ [f.bytes]) ↔ f.Whole d) := by
    intro fs f hpre
    have hlegal : ∀ g ∈ fs ++ [f], g.Legal d := fun g hg => h g (hpre.subset hg)
    rw [received_concat hlegal,received_concat fun g hg => hlegal g (mem_append_left _ hg),
      flatMap_append,flatMap_singleton,← delivered_iff (hlegal f mem_concat_self)]
    simp
  constructor
  · intro hall f hf
    obtain ⟨fs,gs,rfl⟩ := append_of_mem hf
    have hpre : fs ++ [f] <+: fs ++ f :: gs := ⟨gs,by simp⟩
    exact (hone fs f hpre).mp (hall fs f hpre)
  · intro hall fs f hpre
    exact (hone fs f hpre).mpr (hall f (hpre.subset mem_concat_self))

theorem received_whole_lost :
    Frame.Legal ⟨2,16,[]⟩ ⟨[⟨[1,2],.ok⟩,⟨[3,4],.eio⟩],⟨[5],.eio⟩,true⟩ ∧
      ∀ fs f, fs ++ [f] <+: [⟨[⟨[1,2],.ok⟩,⟨[3,4],.eio⟩],⟨[5],.eio⟩,true⟩] →
        (received ⟨2,16,[]⟩ (fs ++ [f])).passed = (received ⟨2,16,[]⟩ fs).passed ∨
          (received ⟨2,16,[]⟩ (fs ++ [f])).passed = (received ⟨2,16,[]⟩ fs).passed ++ [f.bytes] := by
  have hlegal : Frame.Legal ⟨2,16,[]⟩ ⟨[⟨[1,2],.ok⟩,⟨[3,4],.eio⟩],⟨[5],.eio⟩,true⟩ :=
    ⟨by decide,by decide,by decide,by decide⟩
  exact ⟨hlegal,(received_whole_iff (forall_mem_singleton.mpr hlegal)).mpr
    (forall_mem_singleton.mpr (Or.inl (by decide)))⟩

/-- The first of two packets fails, and the second is passed up as a frame. -/
theorem received_part :
    Frame.Legal ⟨2,16,[]⟩ ⟨[⟨[1,2],.eio⟩],⟨[3],.ok⟩,true⟩ ∧
      (received ⟨2,16,[]⟩ [⟨[⟨[1,2],.eio⟩],⟨[3],.ok⟩,true⟩]).passed = [[3]] :=
  ⟨⟨by decide,by decide,by decide,by decide⟩,rfl⟩

end Simpad.UsbEth
