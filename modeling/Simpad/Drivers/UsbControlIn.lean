import Simpad.Drivers.UsbDevice

namespace Simpad.UsbDevice

open List

def Udc.fetched (u : Udc) : Udc := { u with fifo := [], cs0 := { u.cs0 with ipr := false } }

/-- The host fetches a packet if one is ready, and endpoint 0 is interrupted. -/
def State.fetch (c : Client) (s : State) : State :=
  if s.udc.cs0.ipr then ep0IntHndlr c { s with udc := s.udc.fetched } else s

/-- Where `sh_setup_begin` queues a reply: the request is read, and the UDC has nothing to send. -/
structure Asked (s : State) : Prop where
  handler : s.handler = .shSetupBegin
  fifo : s.udc.fifo = []
  stuck : s.udc.oprStuck = false
  ipr : s.udc.cs0.ipr = false
  sst : s.udc.cs0.sst = false
  de : s.udc.cs0.de = false
  se : s.udc.cs0.se = false

/-- What the host is to be shown: packets of at most eight bytes, an empty one if the reply is short
and ends on a full packet, and then the end. -/
def Delivered (data : List Byte) (req act : ℕ) (before : List Signal) (s : State) : Prop :=
  ∃ ps : List (List Byte), (∀ p ∈ ps, p ≠ [] ∧ p.length ≤ 8) ∧
    ps.flatten = data.take (min act req) ∧
    s.udc.signals = before ++ (ps.map .packet ++
      (if act < req ∧ 8 ∣ act then [.packet []] else []) ++ [.dataEnd]) ∧
    s.handler = .shSetupBegin

/-- A packet is ready and the handler `h` will be called when it is gone. -/
structure Sending (h : Handler) (s : State) : Prop where
  handler : s.handler = h
  writes : h ≠ .shSetupBegin
  opr : s.udc.cs0.opr = false
  ipr : s.udc.cs0.ipr = true
  sst : s.udc.cs0.sst = false
  de : s.udc.cs0.de = false
  se : s.udc.cs0.se = false

structure Settled (s : State) : Prop where
  handler : s.handler = .shSetupBegin
  opr : s.udc.cs0.opr = false
  sst : s.udc.cs0.sst = false
  se : s.udc.cs0.se = false

/-- What a write handler signals when all bytes are gone. -/
def Handler.last : Handler → List Signal
  | .shWriteWithEmptyPacket => [.packet [],.dataEnd]
  | _ => [.dataEnd]

variable {s : State} {c : Client} {h : Handler}

theorem commonWritePreamble_quiet (hopr : s.udc.cs0.opr = false) (hsst : s.udc.cs0.sst = false)
    (hse : s.udc.cs0.se = false) : commonWritePreamble s = s := by
  simp [commonWritePreamble,hopr,hsst,hse]

theorem Sending.fetch_eq (hs : Sending h s) :
    s.fetch c = h.call c { s with udc := s.udc.fetched } := by
  have hne : s.handler ≠ .shSetupBegin := hs.handler ▸ hs.writes
  have hquiet : commonWritePreamble { s with udc := s.udc.fetched } =
      { s with udc := s.udc.fetched } := commonWritePreamble_quiet hs.opr hs.sst hs.se
  rw [State.fetch,if_pos hs.ipr,ep0IntHndlr,if_neg hne,hquiet]
  exact congrArg (Handler.call c · _) hs.handler

theorem Sending.fetch_more (hs : Sending h s) (hleft : s.wr.bytesLeft ≠ 0) :
    Sending h (s.fetch c) ∧
      (s.fetch c).wr = ⟨s.wr.p.drop (min s.wr.bytesLeft 8),s.wr.bytesLeft - min s.wr.bytesLeft 8⟩ ∧
      (s.fetch c).udc.signals =
        s.udc.signals ++ [.packet (s.wr.p.take (min s.wr.bytesLeft 8))] := by
  rw [hs.fetch_eq]
  obtain ⟨hh,hw,hopr,-,hsst,hde,hse⟩ := hs
  cases h with
  | shSetupBegin => exact absurd rfl hw
  | shWrite =>
    refine ⟨⟨?_,hw,?_,?_,?_,?_,?_⟩,?_,?_⟩ <;>
      simp [Handler.call,shWrite,writeFifo,Udc.fetched,Udc.setIpr,Udc.okToWrite,Udc.writeCs0,Cs0.bits,
        hleft,hh,hopr,hsst,hde,hse]
  | shWriteWithEmptyPacket =>
    -- the handler's closing write of zero changes nothing
    refine ⟨⟨?_,hw,?_,?_,?_,?_,?_⟩,?_,?_⟩ <;>
      simp [Handler.call,shWriteWithEmptyPacket,writeFifo,Udc.fetched,Udc.setIpr,Udc.okToWrite,
        Udc.writeCs0,Cs0.bits,hleft,hh,hopr,hsst,hde,hse]

theorem Sending.fetch_last (hs : Sending h s) (hleft : s.wr.bytesLeft = 0) :
    Settled (s.fetch c) ∧ (s.fetch c).udc.signals = s.udc.signals ++ h.last := by
  rw [hs.fetch_eq]
  obtain ⟨hh,hw,hopr,-,hsst,hde,hse⟩ := hs
  cases h with
  | shSetupBegin => exact absurd rfl hw
  | shWrite =>
    refine ⟨⟨?_,?_,?_,?_⟩,?_⟩ <;>
      simp [Handler.call,shWrite,Udc.fetched,Udc.setDe,Udc.okToWrite,Udc.writeCs0,Cs0.bits,
        Handler.last,hleft,hopr,hsst,hse]
  | shWriteWithEmptyPacket =>
    refine ⟨⟨?_,?_,?_,?_⟩,?_⟩ <;>
      simp [Handler.call,shWriteWithEmptyPacket,Udc.fetched,Udc.setIprAndDe,Udc.okToWrite,
        Udc.writeCs0,Cs0.bits,Handler.last,hleft,hopr,hsst,hse]

theorem Settled.fetch (hs : Settled s) :
    Settled (s.fetch c) ∧ (s.fetch c).udc.signals = s.udc.signals := by
  by_cases hipr : s.udc.cs0.ipr
  · -- the last packet went out with DE: the interrupt finds no request
    have hfetch : s.fetch c = { s with udc := s.udc.fetched } := by
      simp [State.fetch,hipr,ep0IntHndlr,Handler.call,hs.handler,shSetupBegin,State.setup,
        State.acknowledge,Udc.fetched,hs.opr,hs.sst,hs.se]
    rw [hfetch]
    exact ⟨⟨hs.handler,hs.opr,hs.sst,hs.se⟩,rfl⟩
  · rw [State.fetch,if_neg hipr]
    exact ⟨hs,rfl⟩

theorem Settled.fetches (hs : Settled s) (n : ℕ) :
    Settled ((State.fetch c)^[n] s) ∧ ((State.fetch c)^[n] s).udc.signals = s.udc.signals := by
  induction n generalizing s with
  | zero => exact ⟨hs,rfl⟩
  | succ n ih =>
    obtain ⟨hset,hsig⟩ := ih (hs.fetch (c := c)).1
    exact ⟨hset,hsig.trans hs.fetch.2⟩

/-- From some fetch on endpoint 0 is settled and has signalled `out`. -/
def Ends (c : Client) (s : State) (out : List Signal) : Prop :=
  ∃ N, ∀ n, N ≤ n →
    Settled ((State.fetch c)^[n] s) ∧ ((State.fetch c)^[n] s).udc.signals = s.udc.signals ++ out

theorem Settled.ends (hs : Settled s) : Ends c s [] :=
  ⟨0,fun n _ => ⟨(hs.fetches n).1,by rw [(hs.fetches n).2,append_nil]⟩⟩

theorem Ends.of_fetch {out rest : List Signal}
    (hsig : (s.fetch c).udc.signals = s.udc.signals ++ out) (h : Ends c (s.fetch c) rest) :
    Ends c s (out ++ rest) := by
  obtain ⟨N,h⟩ := h
  refine ⟨N + 1,fun n hn => ?_⟩
  obtain ⟨m,rfl⟩ : ∃ m, n = m + 1 := ⟨n - 1,by omega⟩
  rw [Function.iterate_succ_apply,← append_assoc,← hsig]
  exact h m (by omega)

theorem Sending.ends (b : ℕ) :
    ∀ {s : State}, Sending h s → s.wr.bytesLeft = b → b ≤ s.wr.p.length →
      ∃ ps : List (List Byte), (∀ p ∈ ps, p ≠ [] ∧ p.length ≤ 8) ∧ ps.flatten = s.wr.p.take b ∧
        Ends c s (ps.map .packet ++ h.last) := by
  -- each packet takes at least one of the bytes left
  induction b using Nat.strong_induction_on with
  | _ b ih =>
    intro s hs hb hlen
    by_cases hzero : b = 0
    · subst hzero
      obtain ⟨hset,hsig⟩ := hs.fetch_last (c := c) hb
      refine ⟨[],fun p hp => absurd hp not_mem_nil,by simp,?_⟩
      have := Ends.of_fetch hsig hset.ends
      simpa using this
    · obtain ⟨hsend,hwr,hsig⟩ := hs.fetch_more (c := c) (by omega)
      rw [hb] at hwr hsig
      have hleft : (s.fetch c).wr.bytesLeft = b - min b 8 := by rw [hwr]
      have hrest : (s.fetch c).wr.p = s.wr.p.drop (min b 8) := by rw [hwr]
      obtain ⟨ps,hps,hflat,hends⟩ := ih (b - min b 8) (by omega) hsend hleft (by
        rw [hrest,length_drop]
        omega)
      have hall : Ends c s ([.packet (s.wr.p.take (min b 8))] ++ (ps.map .packet ++ h.last)) :=
        Ends.of_fetch hsig hends
      refine ⟨s.wr.p.take (min b 8) :: ps,?_,?_,hall⟩
      · intro p hp
        obtain rfl | hp := mem_cons.mp hp
        · have : (s.wr.p.take (min b 8)).length = min b 8 := by
            rw [length_take]
            omega
          grind
        · exact hps p hp
      · rw [flatten_cons,hflat,hrest]
        conv_rhs => rw [show b = min b 8 + (b - min b 8) by omega,take_add]

def closing (req act : ℕ) : List Signal :=
  if 8 < act ∧ act < req then [.packet [],.dataEnd] else [.dataEnd]

theorem Asked.queue (hs : Asked s) (data : List Byte) (req act : ℕ) : let t := s.reply data req act
    (min act req ≤ 8 →
      Settled t ∧ t.udc.signals = s.udc.signals ++ [.packet (data.take (min act req)),.dataEnd]) ∧
    (8 < min act req →
      Sending (if act < req then .shWriteWithEmptyPacket else .shWrite) t ∧
        t.wr = ⟨data.drop 8,min act req - 8⟩ ∧
        t.udc.signals = s.udc.signals ++ [.packet (data.take 8)]) := by
  obtain ⟨hh,hfifo,hstuck,hipr,hsst,hde,hse⟩ := hs
  constructor
  · intro hle
    have hmin : min (min act req) 8 = min act req := min_eq_left hle
    refine ⟨⟨?_,?_,?_,?_⟩,?_⟩ <;>
      simp [State.reply,queueAndStartWrite,Udc.clearOpr,Udc.writeCs0,writeFifo,State.setCsBits,
        Udc.setCsBits,Udc.setIprAndDe,Udc.okToWrite,Cs0.bits,hmin,hh,hfifo,hstuck,hipr,hsst,hde,hse]
  · intro hlt
    have hmin : min (min act req) 8 = 8 := min_eq_right (by omega)
    have hleft : min act req - 8 ≠ 0 := by omega
    by_cases hshort : act < req
    all_goals
      refine ⟨⟨?_,?_,?_,?_,?_,?_,?_⟩,?_,?_⟩ <;>
        simp [State.reply,queueAndStartWrite,Udc.clearOpr,Udc.writeCs0,writeFifo,State.setCsBits,
          Udc.setCsBits,Udc.setIpr,Udc.okToWrite,Cs0.bits,hmin,hleft,hshort,hfifo,hstuck,hipr,
          hsst,hde,hse]

/-- Every reply comes to an end, with its packets and then `closing`. -/
theorem Asked.reply_ends (c : Client) (hs : Asked s) {data : List Byte} {req act : ℕ}
    (hact : act ≤ data.length) (hpos : 1 ≤ act) (hreq : 1 ≤ req) :
    ∃ ps : List (List Byte), (∀ p ∈ ps, p ≠ [] ∧ p.length ≤ 8) ∧
      ps.flatten = data.take (min act req) ∧ ∃ N, ∀ n, N ≤ n →
        Settled ((State.fetch c)^[n] (s.reply data req act)) ∧
          ((State.fetch c)^[n] (s.reply data req act)).udc.signals =
            s.udc.signals ++ (ps.map .packet ++ closing req act) := by
  obtain ⟨hone,hmany⟩ := hs.queue data req act
  by_cases hle : min act req ≤ 8
  · obtain ⟨hset,hsig⟩ := hone hle
    have hclose : closing req act = [.dataEnd] := if_neg (by omega)
    refine ⟨[data.take (min act req)],?_,by simp,0,fun n _ => ⟨(hset.fetches n).1,?_⟩⟩
    · intro p hp
      obtain rfl := mem_singleton.mp hp
      have hlen : (data.take (min act req)).length = min act req := by
        rw [length_take]
        omega
      grind
    · rw [(hset.fetches n).2,hsig,hclose]
      rfl
  · obtain ⟨hsend,hwr,hsig⟩ := hmany (by omega)
    have hlast : (if act < req then Handler.shWriteWithEmptyPacket else .shWrite).last =
        closing req act := by
      rw [closing]
      split_ifs <;> first | rfl | omega
    have hlen : min act req - 8 ≤ (s.reply data req act).wr.p.length := by
      rw [hwr,length_drop]
      omega
    obtain ⟨ps,hps,hflat,N,hends⟩ := hsend.ends (c := c) _ (by rw [hwr]) hlen
    refine ⟨data.take 8 :: ps,?_,?_,N,fun n hn => ⟨(hends n hn).1,?_⟩⟩
    · intro p hp
      obtain rfl | hp := mem_cons.mp hp
      · have hlen : (data.take 8).length = 8 := by
          rw [length_take]
          omega
        grind
      · exact hps p hp
    · rw [flatten_cons,hflat,hwr]
      conv_rhs => rw [show min act req = 8 + (min act req - 8) by omega,take_add]
    · grind

theorem count_packets {ps : List (List Byte)} (h : ∀ p ∈ ps, p ≠ []) :
    (ps.map Signal.packet).count (.packet []) = 0 := by
  rw [count_eq_zero]
  intro hmem
  obtain ⟨p,hp,he⟩ := mem_map.mp hmem
  exact h p hp (Signal.packet.inj he)

theorem Asked.delivered_iff (c : Client) (hs : Asked s) {data : List Byte} {req act : ℕ}
    (hact : act ≤ data.length) (hpos : 1 ≤ act) (hreq : 1 ≤ req) :
    (∃ N, ∀ n, N ≤ n → Delivered data req act s.udc.signals
        ((State.fetch c)^[n] (s.reply data req act))) ↔
      ((act < req ∧ 8 ∣ act) ↔ (8 < act ∧ act < req)) := by
  obtain ⟨ps,hps,hflat,N,hends⟩ := hs.reply_ends c hact hpos hreq
  constructor
  · rintro ⟨M,h⟩
    obtain ⟨qs,hqs,-,hsig,-⟩ := h (max N M) (le_max_right N M)
    rw [(hends (max N M) (le_max_left N M)).2,append_cancel_left_eq] at hsig
    -- the packets of the data are not empty, so both sides have as many empty ones
    have hcount := congrArg (count (Signal.packet [])) hsig
    simp only [count_append,count_packets fun p hp => (hps p hp).1,
      count_packets fun p hp => (hqs p hp).1,closing] at hcount
    grind
  · intro hiff
    refine ⟨N,fun n hn => ⟨ps,hps,hflat,?_,(hends n hn).1.handler⟩⟩
    rw [(hends n hn).2,closing]
    simp only [hiff]
    split_ifs <;> simp

/-- The host is shown what USB asks for just when the reply is not short, fits in one packet that is
not full, or ends on a full packet that is not the first. -/
theorem data_stage_delivered_iff (c : Client) {s : State} (hs : Asked s) {data : List Byte}
    {req act : ℕ} (hact : act ≤ data.length) (hpos : 1 ≤ act) (hreq : 1 ≤ req) :
    (∃ N, ∀ n, N ≤ n → Delivered data req act s.udc.signals
        ((State.fetch c)^[n] (s.reply data req act))) ↔
      req ≤ act ∨ act < 8 ∨ (8 < act ∧ 8 ∣ act) := by
  rw [hs.delivered_iff c hact hpos hreq]
  omega

theorem asked_boot : Asked (State.boot Udc.idle) := ⟨rfl,rfl,rfl,rfl,rfl,rfl,rfl⟩

/-- Two full packets of a short reply are followed by an empty one. -/
theorem data_stage_delivered_sixteen :
    ∃ N, ∀ n, N ≤ n → Delivered (replicate 16 0) 64 16 []
      ((State.fetch .silent)^[n] ((State.boot Udc.idle).reply (replicate 16 0) 64 16)) :=
  (data_stage_delivered_iff .silent asked_boot (by simp) (by decide) (by decide)).mpr (by decide)

/-- The host asks for 64 bytes and there are 8: no empty packet follows the full one. -/
theorem full_packet_not_delivered :
    ¬∃ N, ∀ n, N ≤ n → Delivered (replicate 8 0) 64 8 []
      ((State.fetch .silent)^[n] ((State.boot Udc.idle).reply (replicate 8 0) 64 8)) := by
  intro h
  have := (asked_boot.delivered_iff .silent (by simp) (by decide) (by decide)).mp h
  omega

end Simpad.UsbDevice
