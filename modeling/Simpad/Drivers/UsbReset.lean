import Simpad.Drivers.UsbSetup

namespace Simpad.UsbDevice

/-- From a pipe to a pipe, while the numbers `n` to `m` are given out: nothing is outstanding, or
what was, or a new transfer. -/
def Pipe.Moves (n m : ℕ) (p q : Pipe) : Prop :=
  q.len = 0 ∨ (p.len ≠ 0 ∧ q.id = p.id) ∨ (n ≤ q.id ∧ q.id < m)

structure Moves (s t : State) : Prop where
  nextId : s.nextId ≤ t.nextId
  rx : s.rx.Moves s.nextId t.nextId t.rx
  tx : s.tx.Moves s.nextId t.nextId t.tx

/-- The pipe holds no transfer from before `n`. -/
def Pipe.Fresh (n : ℕ) (p : Pipe) : Prop := p.len = 0 ∨ n ≤ p.id

structure Numbered (s : State) : Prop where
  rx : s.rx.len ≠ 0 → s.rx.id < s.nextId
  tx : s.tx.len ≠ 0 → s.tx.id < s.nextId

namespace Pipe.Moves
variable {n m k : ℕ} {p q r : Pipe}

theorem refl (n : ℕ) (p : Pipe) : p.Moves n n p := by
  by_cases h : p.len = 0
  · exact .inl h
  · exact .inr (.inl ⟨h,rfl⟩)

theorem trans (h : p.Moves n m q) (h' : q.Moves m k r) (hnm : n ≤ m) (hmk : m ≤ k) :
    p.Moves n k r := by
  obtain h' | ⟨hq,hid⟩ | ⟨hlo,hhi⟩ := h'
  · exact .inl h'
  · obtain h | ⟨hp,hpid⟩ | ⟨hlo,hhi⟩ := h
    · exact absurd h hq
    · exact .inr (.inl ⟨hp,hid.trans hpid⟩)
    · exact .inr (.inr ⟨hid ▸ hlo,hid ▸ lt_of_lt_of_le hhi hmk⟩)
  · exact .inr (.inr ⟨hnm.trans hlo,hhi⟩)

theorem fresh (h : p.Moves n m q) (hk : k ≤ n) (hp : p.Fresh k) : q.Fresh k := by
  obtain h | ⟨hne,hid⟩ | ⟨hlo,-⟩ := h
  · exact .inl h
  · exact .inr (hid ▸ hp.resolve_left hne)
  · exact .inr (hk.trans hlo)

theorem lt (h : p.Moves n m q) (hnm : n ≤ m) (hp : p.len ≠ 0 → p.id < n) (hq : q.len ≠ 0) :
    q.id < m := by
  obtain h | ⟨hne,hid⟩ | ⟨-,hhi⟩ := h
  · exact absurd h hq
  · exact hid ▸ lt_of_lt_of_le (hp hne) hnm
  · exact hhi

end Pipe.Moves

namespace Moves
variable {s t u : State}

theorem refl (s : State) : Moves s s := ⟨le_rfl,.refl _ _,.refl _ _⟩

theorem trans (h : Moves s t) (h' : Moves t u) : Moves s u :=
  ⟨h.nextId.trans h'.nextId,h.rx.trans h'.rx h.nextId h'.nextId,
    h.tx.trans h'.tx h.nextId h'.nextId⟩

theorem numbered (h : Moves s t) (hs : Numbered s) : Numbered t :=
  ⟨h.rx.lt h.nextId hs.rx,h.tx.lt h.nextId hs.tx⟩

theorem of_eq (hn : t.nextId = s.nextId) (hrx : t.rx.len = s.rx.len) (hrid : t.rx.id = s.rx.id)
    (htx : t.tx.len = s.tx.len) (htid : t.tx.id = s.tx.id) : Moves s t := by
  refine ⟨hn.ge,?_,?_⟩
  · by_cases h : s.rx.len = 0
    · exact .inl (hrx.trans h)
    · exact .inr (.inl ⟨h,hrid⟩)
  · by_cases h : s.tx.len = 0
    · exact .inl (htx.trans h)
    · exact .inr (.inl ⟨h,htid⟩)

theorem ite {b : Bool} (h : Moves s t) : Moves s (if b then t else s) := by
  cases b
  · exact refl s
  · exact h

theorem call (s : State) (a : Call) : Moves s (s.call a) := by
  cases a with
  | recv len callback =>
    rw [State.call,sa1100UsbRecv]
    split_ifs
    · exact refl s
    · refine ⟨Nat.le_succ _,.inr (.inr ⟨le_rfl,Nat.lt_succ_self _⟩),?_⟩
      exact (Pipe.Moves.refl s.nextId s.tx).imp_right
        (Or.imp_right fun h => ⟨h.1,Nat.lt_succ_of_lt h.2⟩)
  | send len callback =>
    rw [State.call,sa1100UsbSend]
    split_ifs
    · exact refl s
    · exact refl s
    · rw [ep2Start]
      split_ifs <;>
        exact ⟨Nat.le_succ _,(Pipe.Moves.refl s.nextId s.rx).imp_right
          (Or.imp_right fun h => ⟨h.1,Nat.lt_succ_of_lt h.2⟩),
          .inr (.inr ⟨le_rfl,Nat.lt_succ_self _⟩)⟩

theorem calls (s : State) (cs : List Call) : Moves s (s.calls cs) := by
  induction cs generalizing s with
  | nil => exact refl s
  | cons a cs ih => exact (call s a).trans (ih (s.call a))

theorem report (c : Client) (s : State) (r : Report) : Moves s (s.report c r) := by
  have htold : Moves s { s with reports := s.reports ++ [r] } := of_eq rfl rfl rfl rfl rfl
  exact htold.trans (calls _ (c.done r))

theorem ep1Done (c : Client) (flag : UsbChar.Flag) (s : State) : Moves s (ep1Done c flag s) := by
  have hend : Moves s { s with rx := { s.rx with len := 0, curdmalen := 0 } } :=
    ⟨le_rfl,.inl rfl,.refl _ _⟩
  rw [UsbDevice.ep1Done]
  split_ifs
  · exact refl s
  · exact hend.trans (report c _ _)
  · exact hend

theorem ep2Done (c : Client) (flag : UsbChar.Flag) (s : State) : Moves s (ep2Done c flag s) := by
  have hend : Moves s { s with tx := { s.tx with len := 0 } } := ⟨le_rfl,.refl _ _,.inl rfl⟩
  rw [UsbDevice.ep2Done]
  split_ifs
  · exact refl s
  · exact hend.trans (report c _ _)
  · exact hend

theorem ep1Reset (c : Client) (s : State) : Moves s (ep1Reset c s) := by
  have hsize : Moves s { s with
      rx := { s.rx with pktsize := s.ep1MaxPacketSize }
      udc := { s.udc with fst1 := false } } := of_eq rfl rfl rfl rfl rfl
  exact hsize.trans (ep1Done c _ _)

theorem ep2Reset (c : Client) (s : State) : Moves s (ep2Reset c s) := by
  have hsize : Moves s { s with
      tx := { s.tx with pktsize := s.ep2MaxPacketSize }
      udc := { s.udc with fst2 := false } } := of_eq rfl rfl rfl rfl rfl
  exact hsize.trans (ep2Done c _ _)

theorem ep1Init (c : Client) (s : State) : Moves s (ep1Init c s) := by
  have hsize : Moves s { s with rx := { s.rx with pktsize := s.ep1MaxPacketSize } } :=
    of_eq rfl rfl rfl rfl rfl
  exact hsize.trans (ep1Done c _ _)

theorem ep2Init (c : Client) (s : State) : Moves s (ep2Init c s) := by
  have hsize : Moves s { s with tx := { s.tx with pktsize := s.ep2MaxPacketSize } } :=
    of_eq rfl rfl rfl rfl rfl
  exact hsize.trans (ep2Done c _ _)

theorem ep1IntHndlr (c : Client) (i : RxStatus) (s : State) : Moves s (ep1IntHndlr c i s) := by
  have hflip : Moves s { s with udc := s.udc.flipCs1 } := of_eq rfl rfl rfl rfl rfl
  rw [UsbDevice.ep1IntHndlr]
  split_ifs
  · exact refl s
  · exact of_eq rfl rfl rfl rfl rfl
  · exact hflip.trans (ep1Done c _ _)
  · exact hflip.trans (ep1Done c _ _)
  all_goals
    refine trans ?_ (ep1Done c _ _)
    exact of_eq rfl rfl rfl rfl rfl

theorem ep2Start (s : State) : Moves s (ep2Start s) := by
  rw [UsbDevice.ep2Start]
  split_ifs
  · exact refl s
  · exact of_eq rfl rfl rfl rfl rfl

theorem ep2IntHndlr (c : Client) (i : TxStatus) (s : State) : Moves s (ep2IntHndlr c i s) := by
  have hflip : Moves s { s with udc := { s.udc.flipCs2 with car := s.address } } :=
    of_eq rfl rfl rfl rfl rfl
  simp only [UsbDevice.ep2IntHndlr]
  split_ifs
  · exact hflip
  · exact hflip.trans (ep2Done c _ _)
  · refine trans ?_ (ep2Start _)
    exact of_eq rfl rfl rfl rfl rfl
  · refine trans ?_ (ep2Done c _ _)
    exact of_eq rfl rfl rfl rfl rfl

theorem next (c : Client) (e : BusEvent) (s : State) : Moves s (usbctlNextStateOnEvent c e s).2 := by
  cases h : deviceStateMachine s.smState e with
  | none =>
    simp only [usbctlNextStateOnEvent,h]
    exact refl s
  | some n =>
    have hsm : Moves s { s with smState := n } := of_eq rfl rfl rfl rfl rfl
    simp only [usbctlNextStateOnEvent,h]
    split_ifs
    · exact hsm
    · exact (hsm.trans (calls _ c.configured)).trans (of_eq rfl rfl rfl rfl rfl)
    · exact of_eq rfl rfl rfl rfl rfl

theorem reply (s : State) (p : List Byte) (req act : ℕ) : Moves s (s.reply p req act) := by
  have hqueue : Moves s (queueAndStartWrite p req act s).2 := by
    simp only [queueAndStartWrite]
    split_ifs <;> exact of_eq rfl rfl rfl rfl rfl
  exact hqueue.trans (of_eq rfl rfl rfl rfl rfl)

theorem getDescriptor (r : Request) (s : State) : Moves s (getDescriptor r s) := by
  have hset : ∀ v, Moves s (s.setCsBits v) := fun v => of_eq rfl rfl rfl rfl rfl
  cases htype : r.descType <;> simp only [UsbDevice.getDescriptor,htype]
  case string =>
    cases s.getStringDescriptor r.descIndex with
    | some d => exact reply _ _ _ _
    | none => exact hset _
  case interface =>
    split_ifs
    · exact reply _ _ _ _
    · exact hset _
  case endpoint =>
    split_ifs
    · exact reply _ _ _ _
    · exact reply _ _ _ _
    · exact hset _
  case unknown => exact hset _
  all_goals exact reply _ _ _ _

theorem setConfiguration (c : Client) (r : Request) (s : State) :
    Moves s (setConfiguration c r s) := by
  rw [UsbDevice.setConfiguration]
  split_ifs
  · have hnext := next c .config s
    generalize usbctlNextStateOnEvent c .config s = q at hnext ⊢
    obtain ⟨n,t⟩ := q
    cases n with
    | none => exact hnext
    | some n => exact hnext.trans (of_eq rfl rfl rfl rfl rfl)
  · exact next c .deConfig s
  · exact refl s

theorem clearFeature (c : Client) (r : Request) (s : State) : Moves s (clearFeature c r s) := by
  rw [UsbDevice.clearFeature]
  split_ifs
  · exact ep1Reset c s
  · exact ep2Reset c s
  · exact refl s
  · exact refl s

theorem dispatch (c : Client) (r : Request) (s : State) : Moves s (dispatch c r s) := by
  have hset : ∀ (t : State) v, Moves t (t.setCsBits v) := fun t v => of_eq rfl rfl rfl rfl rfl
  cases hcode : requestCode r.bRequest <;> simp only [UsbDevice.dispatch,hcode]
  case setAddress =>
    refine trans ?_ (hset _ _)
    refine trans ?_ (next c .address _)
    exact of_eq rfl rfl rfl rfl rfl
  case setConfiguration => exact (setConfiguration c r s).trans (hset _ _)
  case clearFeature => exact (clearFeature c r s).trans (hset _ _)
  case setFeature =>
    rw [setFeature_eq]
    exact hset _ _
  case getDescriptor => exact getDescriptor r s
  case setInterface => exact hset _ _
  case unknown => exact refl s
  all_goals exact reply _ _ _ _

theorem shSetupBegin (c : Client) (s : State) : Moves s (shSetupBegin c s) := by
  have hack : Moves s s.acknowledge := by
    rw [acknowledge_eq]
    split_ifs
    · exact of_eq rfl rfl rfl rfl rfl
    · exact refl s
  have hread : Moves s s.acknowledge.readFifo := hack.trans (of_eq rfl rfl rfl rfl rfl)
  cases hsetup : s.setup <;> simp only [UsbDevice.shSetupBegin,hsetup]
  case noPacket => exact hack
  case readError => exact hread.trans (of_eq rfl rfl rfl rfl rfl)
  case unsupported => exact hread.trans (of_eq rfl rfl rfl rfl rfl)
  case standard r => exact hread.trans (dispatch c r _)

theorem ep0IntHndlr (c : Client) (s : State) : Moves s (ep0IntHndlr c s) := by
  have hpre : Moves s (if s.handler = .shSetupBegin then s else commonWritePreamble s) := by
    apply of_eq <;>
      · simp only [commonWritePreamble]
        split_ifs <;> rfl
  refine hpre.trans ?_
  rw [UsbDevice.ep0IntHndlr]
  generalize (if s.handler = .shSetupBegin then s else commonWritePreamble s) = t
  cases t.handler with
  | shSetupBegin => exact shSetupBegin c t
  | shWrite =>
    apply of_eq <;>
      · simp only [Handler.call,shWrite,writeFifo]
        split_ifs <;> rfl
  | shWriteWithEmptyPacket =>
    apply of_eq <;>
      · simp only [Handler.call,shWriteWithEmptyPacket,writeFifo]
        split_ifs <;> rfl

theorem busReset (c : Client) (s : State) : Moves s (busReset c s) := by
  have hnext := next c .reset s
  rw [UsbDevice.busReset]
  generalize usbctlNextStateOnEvent c .reset s = q at hnext ⊢
  obtain ⟨n,t⟩ := q
  cases n with
  | none => exact hnext
  | some n =>
    have hzero : Moves t (ep0Reset t) := of_eq rfl rfl rfl rfl rfl
    exact hnext.trans (hzero.trans ((ep1Reset c _).trans (ep2Reset c _)))

theorem udcIntHndlr (c : Client) (i : Interrupt) (s : State) : Moves s (udcIntHndlr c i s) := by
  simp only [UsbDevice.udcIntHndlr]
  by_cases hrst : i.rstir = true
  · rw [if_pos hrst]
    exact busReset c s
  rw [if_neg hrst]
  -- the sources are served one after another
  refine (ite (b := i.resir) (next c .resume s)).trans ?_
  generalize (if i.resir = true then (usbctlNextStateOnEvent c .resume s).2 else s) = s1
  refine (ite (b := i.susir) (next c .suspend s1)).trans ?_
  generalize (if i.susir = true then (usbctlNextStateOnEvent c .suspend s1).2 else s1) = s2
  refine (ite (b := i.eir) (ep0IntHndlr c s2)).trans ?_
  generalize (if i.eir = true then UsbDevice.ep0IntHndlr c s2 else s2) = s3
  cases i.rir with
  | none =>
    cases i.tir with
    | none => exact refl s3
    | some st => exact ep2IntHndlr c st s3
  | some sr =>
    refine (ep1IntHndlr c sr s3).trans ?_
    cases i.tir with
    | none => exact refl _
    | some st => exact ep2IntHndlr c st _

theorem step (c : Client) (s : State) (e : Event) : Moves s (s.step c e) := by
  cases e with
  | openClient client =>
    simp only [State.step,sa1100UsbOpen]
    split_ifs
    · exact refl s
    · exact of_eq rfl rfl rfl rfl rfl
  | start =>
    simp only [State.step,sa1100UsbStart]
    split_ifs
    · exact refl s
    · refine trans ?_ ((ep1Init c _).trans (ep2Init c _))
      exact of_eq rfl rfl rfl rfl rfl
  | stop =>
    simp only [State.step,sa1100UsbStop]
    split_ifs
    · exact refl s
    · exact (ep1Reset c s).trans (ep2Reset c _)
  | close =>
    simp only [State.step,sa1100UsbClose]
    split_ifs
    · exact refl s
    · exact of_eq rfl rfl rfl rfl rfl
  | setStringDescriptor i d =>
    simp only [State.step]
    split_ifs
    · exact of_eq rfl rfl rfl rfl rfl
    · exact refl s
  | call a => exact call s a
  | recvReset => exact ep1Reset c s
  | sendReset => exact ep2Reset c s
  | interrupt i => exact udcIntHndlr c i s
  | setConfiguredCallback | setDescriptors | recvStall | bus => exact of_eq rfl rfl rfl rfl rfl

theorem run (s : State) (es : List (Event × Client)) : Moves s (s.run es) := by
  induction es generalizing s with
  | nil => exact refl s
  | cons e es ih => exact (step e.2 s e.1).trans (ih _)

end Moves

theorem numbered_run (u : Udc) (es : List (Event × Client)) : Numbered ((State.boot u).run es) :=
  (Moves.run (State.boot u) es).numbered ⟨fun h => absurd rfl h,fun h => absurd rfl h⟩

/-- Endpoint 0 is idle at address 0, and no transfer from before number `n` is outstanding. -/
structure Clean (n : ℕ) (s : State) : Prop where
  handler : s.handler = .shSetupBegin
  bytesLeft : s.wr.bytesLeft = 0
  address : s.address = 0
  rx : s.rx.Fresh n
  tx : s.tx.Fresh n

/-- There is nothing for a reset to do. -/
structure Untouched (s : State) : Prop where
  handler : s.handler = .shSetupBegin
  bytesLeft : s.wr.bytesLeft = 0
  address : s.address = 0
  rx : s.rx.len = 0
  tx : s.tx.len = 0

variable {n : ℕ} {s : State}

theorem ep1Reset_fresh (c : Client) (hn : n ≤ s.nextId) : (ep1Reset c s).rx.Fresh n := by
  rw [ep1Reset,ep1Done]
  split_ifs with h0 hcb
  · exact .inl h0
  · exact (Moves.report c _ _).rx.fresh hn (.inl rfl)
  · exact .inl rfl

theorem ep2Reset_fresh (c : Client) (hn : n ≤ s.nextId) : (ep2Reset c s).tx.Fresh n := by
  rw [ep2Reset,ep2Done]
  split_ifs with h0 hcb
  · exact .inl h0
  · exact (Moves.report c _ _).tx.fresh hn (.inl rfl)
  · exact .inl rfl

theorem deviceStateMachine_reset {sm : SmState} (h : sm ≠ .default) :
    deviceStateMachine sm .reset = some .default := by
  cases sm <;> first | rfl | exact absurd rfl h

theorem resets_clean (c : Client) (hn : n ≤ s.nextId) :
    Clean n (ep2Reset c (ep1Reset c (ep0Reset s))) := by
  have hkeep := (Keeps.ep1Reset c (ep0Reset s)).trans (Keeps.ep2Reset c _)
  have hn0 : n ≤ (ep0Reset s).nextId := hn
  have hn1 : n ≤ (ep1Reset c (ep0Reset s)).nextId := hn0.trans (Moves.ep1Reset c _).nextId
  exact ⟨hkeep.handler,congrArg Wr.bytesLeft hkeep.wr,hkeep.address,
    (Moves.ep2Reset c _).rx.fresh hn1 (ep1Reset_fresh c hn0),ep2Reset_fresh c hn1⟩

theorem busReset_default (c : Client) (h : s.smState = .default) : busReset c s = s := by
  simp only [busReset,usbctlNextStateOnEvent,h,deviceStateMachine]

theorem busReset_clean (c : Client) (h : s.smState ≠ .default) : Clean s.nextId (busReset c s) := by
  have hnext : (usbctlNextStateOnEvent c .reset s).1 = some .default := by
    simp only [usbctlNextStateOnEvent,deviceStateMachine_reset h]
    split_ifs <;> rfl
  have hmoves := Moves.next c .reset s
  rw [busReset]
  generalize usbctlNextStateOnEvent c .reset s = q at hnext hmoves ⊢
  obtain ⟨n,t⟩ := q
  cases hnext
  exact resets_clean c hmoves.nextId

theorem Numbered.clean_iff (hs : Numbered s) : Clean s.nextId s ↔ Untouched s := by
  constructor
  · rintro ⟨h1,h2,h3,hrx,htx⟩
    refine ⟨h1,h2,h3,?_,?_⟩
    · by_contra hne
      exact absurd (hs.rx hne) (not_lt.mpr (hrx.resolve_left hne))
    · by_contra hne
      exact absurd (hs.tx hne) (not_lt.mpr (htx.resolve_left hne))
  · rintro ⟨h1,h2,h3,hrx,htx⟩
    exact ⟨h1,h2,h3,.inl hrx,.inl htx⟩

/-- In every state a run gets to, a bus reset leaves the device clean just when the state machine is
not in the default state, where the reset is passed over, or there is nothing to reset. -/
theorem bus_reset_clean_iff (u : Udc) (es : List (Event × Client)) (c : Client) (i : Interrupt)
    (hi : i.rstir = true) :
    Clean ((State.boot u).run es).nextId (udcIntHndlr c i ((State.boot u).run es)) ↔
      ((State.boot u).run es).smState ≠ .default ∨ Untouched ((State.boot u).run es) := by
  have hnum := numbered_run u es
  generalize (State.boot u).run es = s at hnum ⊢
  rw [udcIntHndlr,if_pos hi]
  by_cases h : s.smState = .default
  · rw [busReset_default c h,hnum.clean_iff]
    grind
  · exact iff_of_true (busReset_clean c h) (.inl h)

theorem bus_reset_clean_opened :
    Clean 0 (udcIntHndlr .silent { rstir := true }
      ((State.boot Udc.idle).run [(.openClient "usb-char",.silent),(.start,.silent)])) :=
  (bus_reset_clean_iff Udc.idle [(.openClient "usb-char",.silent),(.start,.silent)] .silent
    { rstir := true } rfl).mpr (.inl (by decide))

def resetTwice : List (Event × Client) :=
  [(.openClient "usb-char",.silent),(.start,.silent),(.interrupt { rstir := true },.silent),
    (.bus ⟨true,false,false,false,false,false⟩ [0x80,6,0,1,0,0,64,0] false,.silent),
    (.interrupt { eir := true },.silent)]

/-- The second reset is passed over: ten bytes of the descriptor are still to be written. -/
theorem second_reset_not_clean :
    ¬Clean ((State.boot Udc.idle).run resetTwice).nextId
      (udcIntHndlr .silent { rstir := true } ((State.boot Udc.idle).run resetTwice)) :=
  fun h => absurd h.bytesLeft (by decide +kernel)

end Simpad.UsbDevice
