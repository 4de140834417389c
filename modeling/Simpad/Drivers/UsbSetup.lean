import Simpad.Drivers.UsbControlIn

namespace Simpad.UsbDevice

/-- Transfers are started and ended; a stall bit can only be taken away. -/
structure Keeps (s t : State) : Prop where
  cs0 : t.udc.cs0 = s.udc.cs0
  fifo : t.udc.fifo = s.udc.fifo
  oprStuck : t.udc.oprStuck = s.udc.oprStuck
  signals : t.udc.signals = s.udc.signals
  fst1 : s.udc.fst1 = false → t.udc.fst1 = false
  fst2 : s.udc.fst2 = false → t.udc.fst2 = false
  smState : t.smState = s.smState
  deviceState : t.deviceState = s.deviceState
  address : t.address = s.address
  handler : t.handler = s.handler
  wr : t.wr = s.wr

namespace Keeps
variable {s t u : State}

theorem pipes (s : State) (rx tx : Pipe) (nextId : ℕ) (reports : List Report) :
    Keeps s { s with rx, tx, nextId, reports } :=
  ⟨rfl,rfl,rfl,rfl,id,id,rfl,rfl,rfl,rfl,rfl⟩

theorem refl (s : State) : Keeps s s := pipes s _ _ _ _

theorem trans (h : Keeps s t) (h' : Keeps t u) : Keeps s u where
  cs0 := h'.cs0.trans h.cs0
  fifo := h'.fifo.trans h.fifo
  oprStuck := h'.oprStuck.trans h.oprStuck
  signals := h'.signals.trans h.signals
  fst1 hs := h'.fst1 (h.fst1 hs)
  fst2 hs := h'.fst2 (h.fst2 hs)
  smState := h'.smState.trans h.smState
  deviceState := h'.deviceState.trans h.deviceState
  address := h'.address.trans h.address
  handler := h'.handler.trans h.handler
  wr := h'.wr.trans h.wr

theorem ep1Start (s : State) : Keeps s (ep1Start s) := by
  cases hn : s.naking <;> constructor <;> simp [UsbDevice.ep1Start,Udc.flipCs1,hn]

theorem ep2Start (s : State) : Keeps s (ep2Start s) := by
  by_cases hlen : s.tx.len = 0
  · rw [UsbDevice.ep2Start,if_pos hlen]
    exact refl s
  · constructor <;> simp [UsbDevice.ep2Start,Udc.flipCs2,hlen]

theorem call (s : State) (a : Call) : Keeps s (s.call a) := by
  cases a with
  | recv len callback =>
    rw [State.call,sa1100UsbRecv]
    split_ifs
    · exact refl s
    · exact (pipes s _ _ _ _).trans (ep1Start _)
  | send len callback =>
    rw [State.call,sa1100UsbSend]
    split_ifs
    · exact refl s
    · exact refl s
    · exact (pipes s _ _ _ _).trans (ep2Start _)

theorem calls (s : State) (cs : List Call) : Keeps s (s.calls cs) := by
  induction cs generalizing s with
  | nil => exact refl s
  | cons a cs ih => exact (call s a).trans (ih (s.call a))

theorem report (c : Client) (s : State) (r : Report) : Keeps s (s.report c r) :=
  (pipes s _ _ _ _).trans (calls _ _)

theorem ep1Done (c : Client) (flag : UsbChar.Flag) (s : State) : Keeps s (ep1Done c flag s) := by
  rw [UsbDevice.ep1Done]
  split_ifs
  · exact refl s
  · exact (pipes s _ _ _ _).trans (report c _ _)
  · exact pipes s _ _ _ _

theorem ep2Done (c : Client) (flag : UsbChar.Flag) (s : State) : Keeps s (ep2Done c flag s) := by
  rw [UsbDevice.ep2Done]
  split_ifs
  · exact refl s
  · exact (pipes s _ _ _ _).trans (report c _ _)
  · exact pipes s _ _ _ _

theorem ep1Reset (c : Client) (s : State) : Keeps s (ep1Reset c s) := by
  have hkeep : Keeps s { s with
      rx := { s.rx with pktsize := s.ep1MaxPacketSize }
      udc := { s.udc with fst1 := false } } :=
    ⟨rfl,rfl,rfl,rfl,fun _ => rfl,id,rfl,rfl,rfl,rfl,rfl⟩
  exact hkeep.trans (ep1Done c _ _)

theorem ep2Reset (c : Client) (s : State) : Keeps s (ep2Reset c s) := by
  have hkeep : Keeps s { s with
      tx := { s.tx with pktsize := s.ep2MaxPacketSize }
      udc := { s.udc with fst2 := false } } :=
    ⟨rfl,rfl,rfl,rfl,id,fun _ => rfl,rfl,rfl,rfl,rfl,rfl⟩
  exact hkeep.trans (ep2Done c _ _)

end Keeps

theorem ep1Reset_fst1 (c : Client) (s : State) : (ep1Reset c s).udc.fst1 = false :=
  (Keeps.ep1Done c _ _).fst1 rfl

theorem ep2Reset_fst2 (c : Client) (s : State) : (ep2Reset c s).udc.fst2 = false :=
  (Keeps.ep2Done c _ _).fst2 rfl

theorem next_smState (c : Client) {e : BusEvent} {n : SmState} {s : State}
    (h : deviceStateMachine s.smState e = some n) :
    (usbctlNextStateOnEvent c e s).2.smState = n := by
  simp only [usbctlNextStateOnEvent,h]
  split_ifs
  · rfl
  · exact (Keeps.calls { s with smState := n } c.configured).smState
  · rfl

theorem setConfiguration_zero (c : Client) {r : Request} (hr : r.wValue = 0) {s : State}
    (h : s.smState = .config) : (setConfiguration c r s).smState = .addr := by
  rw [setConfiguration,hr,if_neg (by decide),if_pos rfl]
  exact next_smState c (by rw [h]; rfl)

theorem setConfiguration_one (c : Client) {r : Request} (hr : r.wValue = 1) {s : State}
    (h : s.smState = .addr) : (setConfiguration c r s).smState = .config := by
  have hnext : (usbctlNextStateOnEvent c .config s).2.smState = .config :=
    next_smState c (by rw [h]; rfl)
  rw [setConfiguration,if_pos hr]
  generalize usbctlNextStateOnEvent c .config s = next at hnext ⊢
  obtain ⟨n,t⟩ := next
  cases n <;> exact hnext

theorem setAddress_smState (c : Client) (r : Request) {s : State} (h : s.smState = .default) :
    (setAddress c r s).smState = .addr :=
  next_smState c (by
    rw [h]
    rfl)

theorem word_lowHigh (w : BitVec 16) : word (w.setWidth 8) ((w >>> 8).setWidth 8) = w := by
  apply BitVec.eq_of_getLsbD_eq
  intro i hi
  rw [word,BitVec.getLsbD_append]
  by_cases h : i < 8
  · simp [h]
  · grind

@[simp] theorem ofBytes_bytes (r : Request) : Request.ofBytes r.bytes = some r := by
  simp [Request.bytes,lowHigh,Request.ofBytes,word_lowHigh]

theorem setup_eq {s : State} {r : Request} (hopr : s.udc.cs0.opr = true)
    (hfifo : s.udc.fifo = r.bytes) :
    s.setup = if typeCodeFromRequest r.bmRequestType ≠ 0
      then .unsupported (typeCodeFromRequest r.bmRequestType) else .standard r := by
  simp only [State.setup,hopr,hfifo,ofBytes_bytes,Bool.not_true,Bool.false_eq_true,if_false]

theorem acknowledge_eq (s : State) :
    s.acknowledge = if s.udc.cs0.se then s.setCsBits { sse := true } else s := by
  rw [State.acknowledge]
  split_ifs <;> rfl

def Request.endpoint (r : Request) : BitVec 16 := windexToEpNum r.wIndex

def Request.code (r : Request) : RequestCode := requestCode r.bRequest

/-- A feature or status request for endpoint 1 or 2; `wValue` 0 is ENDPOINT_HALT. -/
structure HaltRequest (r : Request) : Prop where
  type : r.bmRequestType &&& 0x7f = 2
  code : (r.code = .setFeature ∨ r.code = .clearFeature) ∧ r.wValue = 0 ∨
    r.code = .getStatus ∧ 1 ≤ r.wLength.toNat
  endpoint : r.endpoint = 1 ∨ r.endpoint = 2

/-- A setup packet with what the UDC shows when it comes, and the client's answers. -/
structure Arrival where
  request : Request
  ipr : Bool
  de : Bool
  se : Bool
  client : Client

def State.arrive (s : State) (a : Arrival) : State :=
  { s with udc := { s.udc with
    fifo := a.request.bytes
    cs0 := { s.udc.cs0 with opr := true, ipr := a.ipr, de := a.de, se := a.se } } }

def State.serve (s : State) (a : Arrival) : State := ep0IntHndlr a.client (s.arrive a)

def State.reported (s : State) (a : Arrival) : Option Bool :=
  match (s.serve a).udc.signals.drop s.udc.signals.length with
  | .packet (b :: _) :: _ => some (b.getLsbD 0)
  | _ => none

def lastIsSet (as : List Arrival) (ep : BitVec 16) : Bool :=
  match (as.filter fun a => a.request.endpoint = ep ∧
      (a.request.code = .setFeature ∨ a.request.code = .clearFeature)).getLast? with
  | some a => a.request.code = .setFeature
  | none => false

structure Running (u : Udc) : Prop where
  fst1 : u.fst1 = false
  fst2 : u.fst2 = false
  sst : u.cs0.sst = false
  stuck : u.oprStuck = false

/-- What is there when `sh_setup_begin` comes to the switch. -/
structure Before (n : List Signal) (s : State) : Prop extends Running s.udc where
  fifo : s.udc.fifo = []
  se : s.udc.cs0.se = false
  signals : s.udc.signals = n

theorem typeCode_of_endpoint : ∀ b : Byte, b &&& 0x7f = 2 → typeCodeFromRequest b = 0 := by
  decide +kernel

theorem commonWritePreamble_keeps (s : State) :
    let t := commonWritePreamble s
    t.udc.cs0.opr = s.udc.cs0.opr ∧ t.udc.fifo = s.udc.fifo ∧ t.udc.signals = s.udc.signals ∧
      (Running s.udc → Running t.udc) := by
  cases hse : s.udc.cs0.se <;> cases hsst : s.udc.cs0.sst <;> cases hopr : s.udc.cs0.opr <;>
    refine ⟨?_,?_,?_,fun ⟨h1,h2,h3,h4⟩ => ⟨?_,?_,?_,?_⟩⟩ <;>
    simp_all [commonWritePreamble,Udc.writeCs0,Udc.clearIpr]

theorem commonWritePreamble_handler {s : State} (hopr : s.udc.cs0.opr = true) :
    (commonWritePreamble s).handler = .shSetupBegin := by
  simp only [commonWritePreamble,hopr,if_true]

theorem ep0IntHndlr_of_opr (c : Client) {s : State} (hopr : s.udc.cs0.opr = true) :
    ep0IntHndlr c s = shSetupBegin c s ∨
      ep0IntHndlr c s = shSetupBegin c (commonWritePreamble s) := by
  by_cases hh : s.handler = .shSetupBegin
  · left
    rw [ep0IntHndlr,if_pos hh,hh]
    rfl
  · right
    rw [ep0IntHndlr,if_neg hh,commonWritePreamble_handler hopr]
    rfl

theorem shSetupBegin_eq (c : Client) {s : State} {r : Request} (hopr : s.udc.cs0.opr = true)
    (hfifo : s.udc.fifo = r.bytes) (htype : typeCodeFromRequest r.bmRequestType = 0) :
    shSetupBegin c s = dispatch c r s.acknowledge.readFifo := by
  rw [shSetupBegin,setup_eq hopr hfifo,if_neg (not_not.mpr htype)]

theorem Running.before {s : State} (hs : Running s.udc) :
    Before s.udc.signals s.acknowledge.readFifo := by
  obtain ⟨h1,h2,h3,h4⟩ := hs
  cases hse : s.udc.cs0.se <;> refine ⟨⟨?_,?_,?_,?_⟩,?_,?_,?_⟩ <;>
    simp [acknowledge_eq,State.readFifo,State.setCsBits,Udc.setCsBits,Udc.writeCs0,hse,h1,h2,h3,h4]

theorem serve_eq {s : State} (hs : Running s.udc) {a : Arrival}
    (htype : a.request.bmRequestType &&& 0x7f = 2) :
    ∃ t, s.serve a = dispatch a.client a.request t ∧ Before s.udc.signals t := by
  have hcode := typeCode_of_endpoint _ htype
  have hrun : Running (s.arrive a).udc := ⟨hs.fst1,hs.fst2,hs.sst,hs.stuck⟩
  obtain he | he := ep0IntHndlr_of_opr a.client (s := s.arrive a) rfl
  · exact ⟨_,he.trans (shSetupBegin_eq _ rfl rfl hcode),hrun.before⟩
  · obtain ⟨hopr,hfifo,hsig,hkeep⟩ := commonWritePreamble_keeps (s.arrive a)
    refine ⟨_,he.trans (shSetupBegin_eq _ hopr hfifo hcode),?_⟩
    rw [show s.udc.signals = (commonWritePreamble (s.arrive a)).udc.signals from hsig.symm]
    exact (hkeep hrun).before

theorem Before.setCsBits {n : List Signal} {s : State} (h : Before n s) :
    Running (s.setCsBits { so := true, de := true }).udc :=
  ⟨h.fst1,h.fst2,by simp [State.setCsBits,Udc.setCsBits,Udc.writeCs0,h.sst],h.stuck⟩

theorem Before.of_keeps {n : List Signal} {s t : State} (h : Before n s) (hk : Keeps s t) :
    Before n t where
  fst1 := hk.fst1 h.fst1
  fst2 := hk.fst2 h.fst2
  sst := hk.cs0 ▸ h.sst
  stuck := hk.oprStuck.trans h.stuck
  fifo := hk.fifo.trans h.fifo
  se := hk.cs0 ▸ h.se
  signals := hk.signals.trans h.signals

/-- SET_FEATURE stalls nothing: `wValue` is zero, and so is the number taken from it. -/
theorem setFeature_eq {r : Request} (s : State) : setFeature r s = s := by
  rw [setFeature]
  split_ifs with h0 h1 h2
  · rw [h0] at h1
    exact absurd h1 (by decide)
  · rw [h0] at h2
    exact absurd h2 (by decide)
  · rfl
  · rfl

theorem clearFeature_keeps (c : Client) (r : Request) (s : State) :
    Keeps s (clearFeature c r s) := by
  rw [clearFeature]
  split_ifs
  · exact Keeps.ep1Reset c s
  · exact Keeps.ep2Reset c s
  · exact Keeps.refl s
  · exact Keeps.refl s

theorem statusBuf_eq {r : Request} {u : Udc} (htype : r.bmRequestType &&& 0x7f = 2)
    (hu : Running u) : statusBuf r u = [0,0] := by
  have htarget : ∀ b : Byte, b &&& 0x7f = 2 → requestTarget b = 2 := by decide +kernel
  have h2 := htarget _ htype
  simp [statusBuf,h2,hu.fst1,hu.fst2]

theorem Before.reply {n : List Signal} {s : State} (h : Before n s) {p : List Byte} {req act : ℕ}
    (hact : act ≤ 8) :
    Running (s.reply p req act).udc ∧
      ∃ more, (s.reply p req act).udc.signals =
        n ++ .packet (p.take (min act req)) :: more := by
  obtain ⟨⟨h1,h2,h3,h4⟩,hfifo,hse,hsig⟩ := h
  have hmin : min (min act req) 8 = min act req := min_eq_left (by omega)
  refine ⟨⟨?_,?_,?_,?_⟩,[.dataEnd],?_⟩ <;>
    simp [State.reply,queueAndStartWrite,Udc.clearOpr,Udc.writeCs0,writeFifo,State.setCsBits,
      Udc.setCsBits,Udc.setIprAndDe,Udc.okToWrite,Cs0.bits,hmin,h1,h2,h3,h4,hfifo,hse,hsig]

/-- A request for endpoint 1 or 2 leaves both running, and a status request is answered with
zero. -/
theorem HaltRequest.serve {s : State} (hs : Running s.udc) {a : Arrival} (ha : HaltRequest a.request) :
    Running (s.serve a).udc ∧ (a.request.code = .getStatus → s.reported a = some false) := by
  obtain ⟨t,he,ht⟩ := serve_eq hs ha.type
  obtain ⟨hf,-⟩ | ⟨hcode,hlen⟩ := ha.code
  · have hrun : Running (dispatch a.client a.request t).udc := by
      obtain hcode | hcode := hf
      · rw [Request.code] at hcode
        simp only [dispatch,hcode,setFeature_eq]
        exact ht.setCsBits
      · rw [Request.code] at hcode
        simp only [dispatch,hcode]
        exact (ht.of_keeps (clearFeature_keeps _ _ _)).setCsBits
    grind
  · have hd : dispatch a.client a.request t = t.reply [0,0] a.request.wLength.toNat 2 := by
      rw [Request.code] at hcode
      simp only [dispatch,hcode,statusBuf_eq ha.type ht.toRunning]
    obtain ⟨hrun,more,hsig⟩ :=
      @Before.reply s.udc.signals t ht [0,0] a.request.wLength.toNat 2 (by decide)
    rw [← hd,← he] at hrun hsig
    refine ⟨hrun,fun _ => ?_⟩
    obtain ⟨k,hk⟩ : ∃ k, min 2 a.request.wLength.toNat = k + 1 := ⟨_,by
      rw [Nat.sub_add_cancel]
      omega⟩
    simp [State.reported,hsig,hk]

theorem serve_all {s : State} (hs : Running s.udc) {as : List Arrival}
    (has : ∀ a ∈ as, HaltRequest a.request) : Running (as.foldl State.serve s).udc := by
  induction as generalizing s with
  | nil => exact hs
  | cons a as ih =>
    exact ih (HaltRequest.serve hs (has a List.mem_cons_self)).1
      fun b hb => has b (List.mem_cons_of_mem a hb)

/-- The status of an endpoint is right in a sequence of requests just when none asks about an
endpoint that was last told to halt. -/
theorem halt_status_iff {s : State} (hs : Running s.udc) {as : List Arrival}
    (has : ∀ a ∈ as, HaltRequest a.request) :
    (∀ pre a post, as = pre ++ a :: post → a.request.code = .getStatus →
        (pre.foldl State.serve s).reported a = some (lastIsSet pre a.request.endpoint)) ↔
      ∀ pre a post, as = pre ++ a :: post → a.request.code = .getStatus →
        lastIsSet pre a.request.endpoint = false := by
  have hzero : ∀ pre a post, as = pre ++ a :: post → a.request.code = .getStatus →
      (pre.foldl State.serve s).reported a = some false := by
    rintro pre a post rfl hget
    have hpre := serve_all hs fun b hb => has b (List.mem_append_left _ hb)
    exact (HaltRequest.serve hpre (has a (by simp))).2 hget
  grind

def Arrival.plain (bmRequestType bRequest : Byte) (wIndex wLength : BitVec 16) : Arrival where
  request := ⟨bmRequestType,bRequest,0,wIndex,wLength⟩
  ipr := false
  de := false
  se := false
  client := .silent

theorem halt_status_cleared :
    ((State.boot Udc.idle).serve (.plain 0x02 1 1 0)).reported (.plain 0x82 0 1 2) = some false := by
  have hreq : ∀ a ∈ [Arrival.plain 0x02 1 1 0,.plain 0x82 0 1 2], HaltRequest a.request := by
    simp only [List.forall_mem_cons,List.not_mem_nil,false_implies,implies_true,and_true]
    exact ⟨⟨by decide,by decide,by decide⟩,⟨by decide,by decide,by decide⟩⟩
  have hrun : Running (State.boot Udc.idle).udc := ⟨rfl,rfl,rfl,rfl⟩
  refine (halt_status_iff hrun hreq).mpr ?_ [.plain 0x02 1 1 0] (.plain 0x82 0 1 2) [] rfl
    (by decide)
  rintro (_ | ⟨x,_ | ⟨y,pre⟩⟩) a post he hget
  · rfl
  · cases he
    decide
  · simp at he

/-- Endpoint 1 is told to halt, and its status is asked for. -/
theorem halt_status_lost :
    HaltRequest (Arrival.plain 0x02 3 1 0).request ∧ HaltRequest (Arrival.plain 0x82 0 1 2).request ∧
      ((State.boot Udc.idle).serve (.plain 0x02 3 1 0)).reported (.plain 0x82 0 1 2) = some false ∧
      lastIsSet [.plain 0x02 3 1 0] 1 = true := by
  refine ⟨⟨by decide,by decide,by decide⟩,⟨by decide,by decide,by decide⟩,by decide,by decide⟩

/-- Bits 6 and 5 of `bmRequestType`. -/
def Request.typeField (r : Request) : Byte := (r.bmRequestType >>> (5 : ℕ)) &&& 3

def Udc.packets (u : Udc) : List (List Byte) :=
  u.signals.filterMap fun x => match x with
    | .packet bytes => some bytes
    | .dataEnd => none

/-- Address, configuration and stall bits are as they were, and no data stage has begun. -/
structure Inert (s t : State) : Prop where
  address : t.address = s.address
  car : t.udc.car = s.udc.car
  smState : t.smState = s.smState
  deviceState : t.deviceState = s.deviceState
  fst1 : t.udc.fst1 = s.udc.fst1
  fst2 : t.udc.fst2 = s.udc.fst2
  packets : t.udc.packets = s.udc.packets
  handler : t.handler = s.handler
  wr : t.wr = s.wr

/-- Requests whose standard meaning would do nothing either. -/
def Request.Harmless (r : Request) : Prop :=
  match r.code with
  | .setFeature | .setInterface | .unknown => True
  | .setAddress | .getStatus | .getConfiguration | .getInterface => False
  | .setConfiguration => r.wValue ≠ 0 ∧ r.wValue ≠ 1
  | .clearFeature => r.wValue = 0 → r.endpoint ≠ 1 ∧ r.endpoint ≠ 2
  | .getDescriptor =>
    match r.descType with
    | .device | .config | .interface => False
    | .string => maxStringDesc ≤ r.descIndex
    | .endpoint => r.descIndex ≠ 1 ∧ r.descIndex ≠ 2
    | .unknown => True

namespace Inert
variable {s t u : State}

theorem refl (s : State) : Inert s s := ⟨rfl,rfl,rfl,rfl,rfl,rfl,rfl,rfl,rfl⟩

theorem trans (h : Inert s t) (h' : Inert t u) : Inert s u where
  address := h'.address.trans h.address
  car := h'.car.trans h.car
  smState := h'.smState.trans h.smState
  deviceState := h'.deviceState.trans h.deviceState
  fst1 := h'.fst1.trans h.fst1
  fst2 := h'.fst2.trans h.fst2
  packets := h'.packets.trans h.packets
  handler := h'.handler.trans h.handler
  wr := h'.wr.trans h.wr

theorem symm (h : Inert s t) : Inert t s :=
  ⟨h.address.symm,h.car.symm,h.smState.symm,h.deviceState.symm,h.fst1.symm,h.fst2.symm,
    h.packets.symm,h.handler.symm,h.wr.symm⟩

/-- A write to `UDCCS0` is inert if it does not make a packet ready. -/
theorem setCsBits (s : State) {v : Cs0Bits} (hv : v.ipr = false) (hd : v.so || v.sse || v.fst) :
    Inert s (s.setCsBits v) := by
  constructor <;> simp [State.setCsBits,Udc.setCsBits,Udc.writeCs0,Udc.packets,hv,hd]

theorem acknowledge (s : State) : Inert s s.acknowledge := by
  rw [acknowledge_eq]
  split_ifs
  · exact setCsBits s rfl rfl
  · exact refl s

theorem readFifo (s : State) : Inert s s.readFifo := ⟨rfl,rfl,rfl,rfl,rfl,rfl,rfl,rfl,rfl⟩

end Inert

theorem Request.Harmless.getDescriptor {r : Request} (hcode : r.code = .getDescriptor)
    (h : r.Harmless) (s : State) : Inert s (getDescriptor r s) := by
  have hstall : Inert s (s.setCsBits { de := true, so := true, fst := true }) :=
    Inert.setCsBits s rfl rfl
  cases htype : r.descType <;>
    simp only [Request.Harmless,hcode,htype] at h <;> simp only [UsbDevice.getDescriptor,htype]
  case string =>
    rw [State.getStringDescriptor,if_neg (not_lt.mpr h)]
    exact hstall
  case endpoint =>
    grind
  assumption

theorem Request.Harmless.dispatch {r : Request} (h : r.Harmless) (c : Client) (s : State) :
    Inert s (dispatch c r s) := by
  have hno : Inert s (s.setCsBits { so := true, de := true }) := Inert.setCsBits s rfl rfl
  cases hcode : requestCode r.bRequest with
  | getDescriptor =>
    simp only [UsbDevice.dispatch,hcode]
    exact h.getDescriptor hcode s
  | setConfiguration =>
    simp only [Request.Harmless,Request.code,hcode] at h
    simp only [UsbDevice.dispatch,hcode,setConfiguration,h.1,h.2,if_false]
    exact hno
  | clearFeature =>
    simp only [Request.Harmless,Request.code,hcode,Request.endpoint] at h
    have hclear : clearFeature c r s = s := by
      rw [clearFeature]
      grind
    simp only [UsbDevice.dispatch,hcode,hclear]
    exact hno
  | setFeature =>
    simp only [UsbDevice.dispatch,hcode,setFeature_eq]
    exact hno
  | setInterface =>
    simp only [UsbDevice.dispatch,hcode]
    exact hno
  | unknown =>
    simp only [UsbDevice.dispatch,hcode]
    exact Inert.refl s
  | setAddress | getStatus | getConfiguration | getInterface =>
    simp only [Request.Harmless,Request.code,hcode] at h

theorem shSetupBegin_unsupported (c : Client) {s : State} {r : Request}
    (hopr : s.udc.cs0.opr = true) (hfifo : s.udc.fifo = r.bytes)
    (htype : typeCodeFromRequest r.bmRequestType ≠ 0) : Inert s (shSetupBegin c s) := by
  rw [shSetupBegin,setup_eq hopr hfifo,if_pos htype]
  exact (Inert.acknowledge s).trans ((Inert.readFifo _).trans (Inert.setCsBits _ rfl rfl))

theorem Asked.not_inert {s : State} (hs : Asked s) (p : List Byte) (req act : ℕ) :
    ¬Inert s (s.reply p req act) := by
  intro h
  obtain ⟨hone,hmany⟩ := hs.queue p req act
  have hpackets := congrArg List.length h.packets
  obtain hle | hlt := le_or_gt (min act req) 8
  · simp [Udc.packets,(hone hle).2] at hpackets
  · simp [Udc.packets,(hmany hlt).2.2] at hpackets

/-- A state with `r` in the FIFO and both endpoints halted, its strings and descriptors all the
same. -/
def probe (r : Request) (sm : SmState) (number : Byte) : State :=
  { State.boot { Udc.idle with
      cs0 := ⟨true,false,false,false,false,false⟩, fifo := r.bytes, fst1 := true, fst2 := true } with
    smState := sm
    desc := List.replicate 50 number
    strings := fun _ => some ⟨2,3,[]⟩ }

theorem asked_probe (r : Request) (sm : SmState) (number : Byte) :
    Asked (probe r sm number).acknowledge.readFifo := ⟨rfl,rfl,rfl,rfl,rfl,rfl,rfl⟩

theorem getDescriptor_not_inert {r : Request} (hcode : r.code = .getDescriptor)
    (h : ¬r.Harmless) :
    ∃ number, ¬Inert (probe r .default number).acknowledge.readFifo
      (getDescriptor r (probe r .default number).acknowledge.readFifo) := by
  -- the interface has the number that is asked for
  refine ⟨(r.wValue &&& 0xff).setWidth 8,?_⟩
  have hasked := asked_probe r .default ((r.wValue &&& 0xff).setWidth 8)
  cases htype : r.descType <;>
    simp only [Request.Harmless,hcode,htype] at h <;> simp only [UsbDevice.getDescriptor,htype]
  case device => exact hasked.not_inert _ _ _
  case config => exact hasked.not_inert _ _ _
  case string =>
    rw [State.getStringDescriptor,if_pos (not_le.mp h)]
    exact hasked.not_inert _ _ _
  case interface =>
    have hbyte : r.descIndex = ((r.wValue &&& 0xff).setWidth 8).toNat := by
      rw [BitVec.toNat_setWidth,Request.descIndex,BitVec.toNat_and,Nat.mod_eq_of_lt]
      exact lt_of_le_of_lt Nat.and_le_right (by decide)
    rw [if_pos (by exact hbyte)]
    exact hasked.not_inert _ _ _
  case endpoint =>
    split_ifs with h1 h2
    · exact hasked.not_inert _ _ _
    · exact hasked.not_inert _ _ _
    · exact absurd ⟨h1,h2⟩ h
  case unknown => exact absurd trivial h

theorem dispatch_not_inert {r : Request} (h : ¬r.Harmless) :
    ∃ sm number, ¬Inert (probe r sm number).acknowledge.readFifo
      (dispatch .silent r (probe r sm number).acknowledge.readFifo) := by
  cases hcode : requestCode r.bRequest with
  | getDescriptor =>
    obtain ⟨number,hn⟩ := getDescriptor_not_inert hcode h
    refine ⟨.default,number,?_⟩
    simp only [dispatch,hcode]
    exact hn
  | setAddress =>
    refine ⟨.default,0,fun hi => ?_⟩
    simp only [dispatch,hcode] at hi
    have hnext : SmState.default = .addr := hi.smState.symm.trans (setAddress_smState .silent r rfl)
    exact absurd hnext (by decide)
  | setConfiguration =>
    simp only [Request.Harmless,Request.code,hcode,not_and_or,not_not] at h
    obtain h | h := h
    · refine ⟨.config,0,fun hi => ?_⟩
      simp only [dispatch,hcode] at hi
      have hnext : SmState.config = .addr :=
        hi.smState.symm.trans (setConfiguration_zero .silent h rfl)
      exact absurd hnext (by decide)
    · refine ⟨.addr,0,fun hi => ?_⟩
      simp only [dispatch,hcode] at hi
      have hnext : SmState.addr = .config :=
        hi.smState.symm.trans (setConfiguration_one .silent h rfl)
      exact absurd hnext (by decide)
  | clearFeature =>
    simp only [Request.Harmless,Request.code,hcode,Request.endpoint] at h
    push Not at h
    obtain ⟨h0,h⟩ := h
    refine ⟨.default,0,fun hi => ?_⟩
    simp only [dispatch,hcode,clearFeature,h0,if_true] at hi
    by_cases h1 : windexToEpNum r.wIndex = 1
    · rw [if_pos h1] at hi
      exact Bool.false_ne_true ((ep1Reset_fst1 _ _).symm.trans hi.fst1)
    · rw [if_neg h1,if_pos (h h1)] at hi
      exact Bool.false_ne_true ((ep2Reset_fst2 _ _).symm.trans hi.fst2)
  | getStatus | getConfiguration | getInterface =>
    refine ⟨.default,0,?_⟩
    simp only [dispatch,hcode]
    exact (asked_probe r .default 0).not_inert _ _ _
  | setFeature | setInterface | unknown =>
    simp only [Request.Harmless,Request.code,hcode,not_true_eq_false] at h

theorem typeCode_eq_zero : ∀ b : Byte,
    typeCodeFromRequest b = 0 ↔ b.getLsbD 5 = false ∧ b.getLsbD 4 = false := by
  decide +kernel

theorem typeField_five : ∀ b : Byte, (b >>> (5 : ℕ)) &&& 3 = 0 → b.getLsbD 5 = false := by
  decide +kernel

/-- For a packet and every state that finds it in the FIFO: a request that is not standard is inert,
and a standard one gets to the switch. -/
def TypeRespected (r : Request) : Prop :=
  ∀ (c : Client) (s : State), s.udc.cs0.opr = true → s.udc.fifo = r.bytes →
    s.handler = .shSetupBegin →
    (r.typeField ≠ 0 → Inert s (shSetupBegin c s)) ∧ (r.typeField = 0 → s.setup = .standard r)

/-- The type is taken from bits 5 and 4 and not from bits 6 and 5. -/
theorem type_respected_iff (r : Request) :
    TypeRespected r ↔
      (r.typeField ≠ 0 →
        r.bmRequestType.getLsbD 5 = true ∨ r.bmRequestType.getLsbD 4 = true ∨ r.Harmless) ∧
      (r.typeField = 0 → r.bmRequestType.getLsbD 4 = false) := by
  have hcode := typeCode_eq_zero r.bmRequestType
  have hfive : r.typeField = 0 → r.bmRequestType.getLsbD 5 = false := typeField_five _
  constructor
  · intro h
    refine ⟨fun htype => ?_,fun htype => ?_⟩
    · by_contra hn
      push Not at hn
      obtain ⟨h5,h4,hharm⟩ := hn
      have hzero : typeCodeFromRequest r.bmRequestType = 0 :=
        hcode.mpr ⟨Bool.eq_false_of_not_eq_true h5,Bool.eq_false_of_not_eq_true h4⟩
      obtain ⟨sm,number,hnot⟩ := dispatch_not_inert hharm
      have hi := (h .silent (probe r sm number) rfl rfl rfl).1 htype
      rw [shSetupBegin_eq _ rfl rfl hzero] at hi
      exact hnot (((Inert.acknowledge _).trans (Inert.readFifo _)).symm.trans hi)
    · have hsetup := (h .silent (probe r .default 0) rfl rfl rfl).2 htype
      rw [setup_eq rfl rfl] at hsetup
      grind
  · rintro ⟨hother,hstd⟩ c s hopr hfifo -
    refine ⟨fun htype => ?_,fun htype => ?_⟩
    · by_cases hzero : typeCodeFromRequest r.bmRequestType = 0
      · obtain ⟨h5,h4⟩ := hcode.mp hzero
        have hharm : r.Harmless := by grind
        rw [shSetupBegin_eq c hopr hfifo hzero]
        exact ((Inert.acknowledge s).trans (Inert.readFifo _)).trans (hharm.dispatch c _)
      · exact shSetupBegin_unsupported c hopr hfifo hzero
    · rw [setup_eq hopr hfifo,if_neg (not_not.mpr (hcode.mpr ⟨hfive htype,hstd htype⟩))]

/-- A vendor request with the code of SET_ADDRESS, just after a bus reset. -/
theorem vendor_request_sets_address : ¬TypeRespected ⟨0x40,5,9,0,0⟩ := by
  intro h
  have hi := (h .silent (probe ⟨0x40,5,9,0,0⟩ .default 0) rfl rfl rfl).1 (by decide)
  exact absurd hi.address (by decide)

end Simpad.UsbDevice
