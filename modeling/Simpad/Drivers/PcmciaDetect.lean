import Simpad.Base.Runs

/-! Card detect events. The kernel is not preemptive: the handler can be left in a callback, and not
between a sample and the comparison that follows it. -/

namespace Simpad.PcmciaDetect

open Function Runs

/-- `struct pcmcia_state`. -/
structure PcmciaState where
  detect : Bool
  ready : Bool
  bvd1 : Bool
  bvd2 : Bool
  wrprot : Bool
  vs3v : Bool
  vsXv : Bool
  deriving DecidableEq

/-- What `memset` leaves. -/
def PcmciaState.zero : PcmciaState := ⟨false,false,false,false,false,false,false⟩

def SS_BATDEAD : BitVec 32 := 0x0010
def SS_BATWARN : BitVec 32 := 0x0020
def SS_READY : BitVec 32 := 0x0040
def SS_DETECT : BitVec 32 := 0x0080
def SS_POWERON : BitVec 32 := 0x0100
def SS_STSCHG : BitVec 32 := 0x0400
def SS_3VCARD : BitVec 32 := 0x1000
def SS_XVCARD : BitVec 32 := 0x2000
def SS_IOCARD : BitVec 32 := 0x0020

/-- The registers that `simpad_pcmcia_socket_state` reads. -/
structure Levels where
  gplr : BitVec 32
  cs3 : BitVec 32
  deriving DecidableEq

inductive Sock
  | zero | one
  deriving DecidableEq

/-- `simpad_pcmcia_socket_state`: there is only one slot, and it is slot 1. -/
def socketState (hw : Levels) (sock : Sock) : PcmciaState :=
  if sock = .one then
    { detect := !hw.gplr.getLsbD 24
      ready := hw.gplr.getLsbD 1
      bvd1 := true
      bvd2 := true
      wrprot := false
      vs3v := decide (hw.cs3 &&& 0x0c ≠ 0x0c)
      vsXv := false }
  else .zero

/-- The part of `cs_state` that is read here, and whether a handler is registered. -/
structure Config where
  cscMask : BitVec 32
  flags : BitVec 32
  vcc : BitVec 8
  handler : Bool

def Config.ioCard (c : Config) : Bool := decide (c.flags &&& SS_IOCARD ≠ 0)

/-- `sa1100_pcmcia_events`, which then saves the state. -/
def events (state prev : PcmciaState) (c : Config) : BitVec 32 :=
  ((if state.detect ≠ prev.detect then SS_DETECT else 0) |||
    (if state.ready ≠ prev.ready then if c.ioCard then 0 else SS_READY else 0) |||
    (if state.bvd1 ≠ prev.bvd1 then if c.ioCard then SS_STSCHG else SS_BATDEAD else 0) |||
    (if state.bvd2 ≠ prev.bvd2 then if c.ioCard then 0 else SS_BATWARN else 0)) &&& c.cscMask

/-- The status that `sa1100_pcmcia_get_status` returns. -/
def status (state : PcmciaState) (c : Config) : BitVec 32 :=
  (if state.detect then SS_DETECT else 0) ||| (if state.ready then SS_READY else 0) |||
    (if state.vs3v then SS_3VCARD else 0) ||| (if state.vsXv then SS_XVCARD else 0) |||
    (if c.vcc ≠ 0 then SS_POWERON else 0) |||
    (if c.ioCard then if state.bvd1 then SS_STSCHG else 0
      else if state.bvd1 = false then SS_BATDEAD
      else if state.bvd2 = false then SS_BATWARN else 0)

/-- What happens to a socket: a sample with its detect value, a call of the handler. -/
inductive Entry
  | sample (detect : Bool)
  | report (events : BitVec 32)
  deriving DecidableEq

/-- Where `sa1100_pcmcia_task_handler` is: not running, about to sample, about to compare socket
`i`, or in the callback of socket `i`. -/
inductive Phase
  | idle
  | sample
  | compare (state : Sock → PcmciaState) (i : Sock) (allEvents : BitVec 32)
  | callback (state : Sock → PcmciaState) (i : Sock) (allEvents : BitVec 32)

structure State where
  hw : Levels
  scheduled : Bool
  phase : Phase
  kState : Sock → PcmciaState
  /-- what happened to each socket, the latest first -/
  log : Sock → List Entry

/-- `sa1100_pcmcia_driver_init` saves a first sample. -/
def State.init (hw : Levels) : State := ⟨hw,false,.idle,socketState hw,fun _ => []⟩

/-- The rest of the loop after socket `i`. -/
def afterSocket (state : Sock → PcmciaState) (i : Sock) (allEvents : BitVec 32) : Phase :=
  if i = .zero then .compare state .one allEvents else if allEvents ≠ 0 then .sample else .idle

inductive Op
  | levels (hw : Levels)
  /-- `sa1100_pcmcia_interrupt` -/
  | interrupt
  /-- `sa1100_pcmcia_poll_event` -/
  | pollEvent
  | task
  /-- `sa1100_pcmcia_get_status` -/
  | getStatus (sock : Sock)
  deriving DecidableEq

variable (cfg : Sock → Config)

def State.task (s : State) : Option State :=
  match s.phase with
  | .idle => if s.scheduled then some { s with scheduled := false, phase := .sample } else none
  | .sample =>
    some
      { s with
        phase := .compare (socketState s.hw) .zero 0
        log := fun i => .sample (socketState s.hw i).detect :: s.log i }
  | .compare state i allEvents =>
    let ev := events (state i) (s.kState i) (cfg i)
    let saved := update s.kState i (state i)
    if ev ≠ 0 ∧ (cfg i).handler then
      some
        { s with
          phase := .callback state i (allEvents ||| ev)
          kState := saved
          log := update s.log i (.report ev :: s.log i) }
    else some { s with phase := afterSocket state i (allEvents ||| ev), kState := saved }
  | .callback state i allEvents => some { s with phase := afterSocket state i allEvents }

/-- `sa1100_pcmcia_get_status`; the status goes to the caller. -/
def State.getStatus (s : State) (sock : Sock) : State × BitVec 32 :=
  ({ s with
      kState := update s.kState sock (socketState s.hw sock)
      log := update s.log sock (.sample (socketState s.hw sock).detect :: s.log sock) },
    status (socketState s.hw sock) (cfg sock))

/-- Nothing else runs between a sample and the comparisons. -/
def Phase.comparing : Phase → Bool
  | .compare _ _ _ => true
  | _ => false

def step (s : State) : Op → Option State
  | .levels hw => some { s with hw := hw }
  | .interrupt => some { s with scheduled := true }
  | .pollEvent => some { s with scheduled := true }
  | .task => s.task cfg
  | .getStatus sock => if s.phase.comparing then none else some (s.getStatus cfg sock).1

/-- The last sample, `first` if there is none. -/
def lastSample (first : Bool) : List Entry → Bool
  | [] => first
  | .sample detect :: _ => detect
  | .report _ :: log => lastSample first log

/-- The log ends with a change. -/
def Owed (first : Bool) : List Entry → Prop
  | .sample detect :: log => detect ≠ lastSample first log
  | _ => False

/-- Every change but one at the very end was reported as a change of the detect state. -/
def AllReported (first : Bool) : List Entry → Prop
  | [] => True
  | .sample _ :: log => ¬Owed first log ∧ AllReported first log
  | .report ev :: log => (Owed first log → ev &&& SS_DETECT ≠ 0) ∧ AllReported first log

/-- The handler has sampled the socket and is still to compare. -/
def Phase.Awaits : Phase → Sock → Prop
  | .compare _ .zero _, _ => True
  | .compare _ .one _, sock => sock = .one
  | .callback _ .zero _, sock => sock = .one
  | _, _ => False

/-- Every change between two samples of the socket was reported, or is about to be. -/
def State.Good (first : Bool) (sock : Sock) (s : State) : Prop :=
  AllReported first (s.log sock) ∧ (Owed first (s.log sock) → s.phase.Awaits sock)

/-- `get_status` on the socket does not come before the task handler with a change. -/
def Unchanged (sock : Sock) (s : State) (op : Op) : Prop :=
  op = .getStatus sock → s.phase.comparing = false →
    (socketState s.hw sock).detect = (s.kState sock).detect

instance (sock : Sock) (s : State) (op : Op) : Decidable (Unchanged sock s op) :=
  inferInstanceAs (Decidable (_ → _ → _))

theorem and_detect (x : BitVec 32) : x &&& SS_DETECT ≠ 0 ↔ x.getLsbD 7 = true := by
  have hbit : SS_DETECT = BitVec.twoPow 32 7 := by decide
  rw [hbit,BitVec.and_twoPow]
  split_ifs with h
  · exact iff_of_true (by decide) h
  · exact iff_of_false (fun hn => hn rfl) h

theorem events_detect {state prev : PcmciaState} {c : Config} (hmask : c.cscMask &&& SS_DETECT ≠ 0)
    (h : state.detect ≠ prev.detect) : events state prev c &&& SS_DETECT ≠ 0 := by
  rw [and_detect] at hmask ⊢
  have hbit : SS_DETECT.getLsbD 7 = true := by decide
  simp only [events,if_pos h,BitVec.getLsbD_and,BitVec.getLsbD_or,hbit,hmask,Bool.true_or,Bool.and_self]

theorem socketState_zero (hw : Levels) : socketState hw .zero = .zero := rfl

theorem events_self (state : PcmciaState) (c : Config) : events state state c = 0 := by
  simp [events]

structure State.Inv (first : Bool) (sock : Sock) (s : State) : Prop where
  empty : s.kState .zero = .zero
  compare : ∀ state i allEvents, s.phase = .compare state i allEvents →
    state .zero = .zero ∧ (s.phase.Awaits sock → lastSample first (s.log sock) = (state sock).detect ∧
      (Owed first (s.log sock) → (state sock).detect ≠ (s.kState sock).detect))
  callback : ∀ state i allEvents, s.phase = .callback state i allEvents → i = .one
  reported : AllReported first (s.log sock)
  settled : ¬s.phase.Awaits sock →
    ¬Owed first (s.log sock) ∧ lastSample first (s.log sock) = (s.kState sock).detect

theorem State.inv_init (hw : Levels) (sock : Sock) :
    (State.init hw).Inv (socketState hw sock).detect sock :=
  ⟨rfl,fun _ _ _ h => Phase.noConfusion h,fun _ _ _ h => Phase.noConfusion h,trivial,
    fun _ => ⟨id,rfl⟩⟩

def Phase.Outside (p : Phase) : Prop :=
  p = .idle ∨ p = .sample ∨ ∃ state allEvents, p = .callback state .one allEvents

section
variable {cfg : Sock → Config} {first : Bool} {sock : Sock} {s t : State}

section
variable (h : s.Inv first sock)
include h

theorem State.Inv.good : s.Good first sock := by
  refine ⟨h.reported,fun howed => ?_⟩
  by_contra hn
  exact (h.settled hn).1 howed

theorem State.Inv.outside (hc : s.phase.comparing = false) :
    s.phase.Outside := by
  cases hp : s.phase with
  | idle => exact .inl rfl
  | sample => exact .inr (.inl rfl)
  | compare state i all =>
    rw [hp] at hc
    cases hc
  | callback state i all =>
    obtain rfl := h.callback state i all hp
    exact .inr (.inr ⟨state,all,rfl⟩)

omit h in
theorem Phase.Outside.not_awaits {p : Phase} (h : p.Outside) (sock : Sock) : ¬p.Awaits sock := by
  obtain rfl | rfl | ⟨state,all,rfl⟩ := h
  · exact id
  · exact id
  · exact id

omit h in
theorem State.Inv.leave (hempty : s.kState .zero = .zero) (hreported : AllReported first (s.log sock))
    (howed : ¬Owed first (s.log sock))
    (hlast : lastSample first (s.log sock) = (s.kState sock).detect)
    (hphase : s.phase.Outside) : s.Inv first sock := by
  refine ⟨hempty,fun state i all hp => ?_,fun state i all hp => ?_,hreported,fun _ => ⟨howed,hlast⟩⟩
  · rw [hp] at hphase
    obtain h | h | ⟨_,_,h⟩ := hphase <;> cases h
  · rw [hp] at hphase
    obtain h | h | ⟨_,_,h⟩ := hphase <;> cases h
    rfl

theorem State.Inv.getStatus {p : Sock} (hc : s.phase.comparing = false)
    (hun : p = sock → (socketState s.hw sock).detect = (s.kState sock).detect) :
    (s.getStatus cfg p).1.Inv first sock := by
  have hphase := h.outside hc
  obtain ⟨howed,hlast⟩ := h.settled (hphase.not_awaits sock)
  have hempty : update s.kState p (socketState s.hw p) .zero = .zero := by
    by_cases hp : p = .zero
    · rw [hp,update_self,socketState_zero]
    · rw [update_of_ne (Ne.symm hp),h.empty]
  by_cases hp : p = sock
  · subst hp
    have hd := hun rfl
    refine State.Inv.leave hempty ?_ ?_ ?_ hphase
    · simp only [State.getStatus,update_self]
      exact ⟨howed,h.reported⟩
    · simp only [State.getStatus,update_self]
      exact fun hne => hne (hd.trans hlast.symm)
    · simp only [State.getStatus,update_self]
      rfl
  · have hne : sock ≠ p := Ne.symm hp
    refine State.Inv.leave hempty ?_ ?_ ?_ hphase
    · simpa only [State.getStatus,update_of_ne hne] using h.reported
    · simpa only [State.getStatus,update_of_ne hne] using howed
    · simpa only [State.getStatus,update_of_ne hne] using hlast

omit h in
theorem afterSocket_one (state : Sock → PcmciaState) (all : BitVec 32) :
    (afterSocket state .one all).Outside := by
  rw [afterSocket,if_neg (by decide)]
  split_ifs
  · exact .inr (.inl rfl)
  · exact .inl rfl

theorem State.Inv.task_zero {state : Sock → PcmciaState} {all : BitVec 32}
    (hp : s.phase = .compare state .zero all) :
    ∃ all', s.task cfg =
      some { s with
        phase := .compare state .one all', kState := update s.kState .zero (state .zero) } := by
  have hev : events (state .zero) (s.kState .zero) (cfg .zero) = 0 := by
    rw [(h.compare state .zero all hp).1,h.empty,events_self]
  rw [State.task,hp]
  dsimp only
  rw [hev,if_neg (fun hn => hn.1 rfl),afterSocket,if_pos rfl]
  exact ⟨_,rfl⟩

theorem State.Inv.compare_zero {state : Sock → PcmciaState} {all : BitVec 32}
    (hp : s.phase = .compare state .zero all) (ht : s.task cfg = some t) : t.Inv first sock := by
  obtain ⟨all',he⟩ := @State.Inv.task_zero cfg first sock s h state all hp
  cases he.symm.trans ht
  obtain ⟨hzero,hin⟩ := h.compare state .zero all hp
  obtain ⟨hlast,howed⟩ := hin (hp ▸ trivial)
  refine ⟨(update_self .zero (state .zero) s.kState).trans hzero,fun state' i all'' hc => ?_,
    fun state' i all'' hc => Phase.noConfusion hc,h.reported,fun hn => ?_⟩
  · cases hc
    refine ⟨hzero,fun hone => ?_⟩
    have hne : sock ≠ .zero := fun h0 => Sock.noConfusion (h0.symm.trans hone)
    grind
  · -- only slot 0 is no longer awaited
    have h0 : sock = .zero := by
      cases sock with
      | zero => rfl
      | one => exact absurd rfl hn
    subst h0
    refine ⟨fun ho => howed ho ?_,?_⟩
    · rw [hzero,h.empty]
    · assumption

section
variable (hmask : (cfg sock).cscMask &&& SS_DETECT ≠ 0) (hhandler : (cfg sock).handler = true)
include hmask hhandler

theorem State.Inv.compare_one {state : Sock → PcmciaState} {all : BitVec 32}
    (hp : s.phase = .compare state .one all) (ht : s.task cfg = some t) : t.Inv first sock := by
  have hempty : update s.kState .one (state .one) .zero = .zero := by
    rw [update_of_ne (by decide),h.empty]
  obtain ⟨-,hin⟩ := h.compare state .one all hp
  rw [State.task,hp] at ht
  dsimp only at ht
  by_cases hs : sock = .one
  · subst hs
    obtain ⟨hlast,howed⟩ := hin (hp ▸ rfl)
    split_ifs at ht with hc
    · cases ht
      refine State.Inv.leave hempty ?_ ?_ ?_ (.inr (.inr ⟨_,_,rfl⟩))
      · dsimp only
        exact ⟨fun ho => events_detect hmask (howed ho),h.reported⟩
      · dsimp only
        exact id
      · assumption
    · cases ht
      refine State.Inv.leave hempty h.reported (fun ho => ?_) ?_ (afterSocket_one state _)
      · refine hc ⟨fun hz => events_detect hmask (howed ho) ?_,hhandler⟩
        rw [hz]
        rfl
      · assumption
  · have hn : ¬s.phase.Awaits sock := by
      rw [hp]
      exact hs
    obtain ⟨howed,hlast⟩ := h.settled hn
    split_ifs at ht with hc
    · cases ht
      refine State.Inv.leave hempty ?_ ?_ ?_ (.inr (.inr ⟨_,_,rfl⟩))
      · simpa only [update_of_ne hs] using h.reported
      · simpa only [update_of_ne hs] using howed
      · simpa only [update_of_ne hs] using hlast
    · cases ht
      refine State.Inv.leave hempty h.reported howed ?_ (afterSocket_one state _)
      simpa only [update_of_ne hs] using hlast

theorem State.Inv.task (ht : s.task cfg = some t) : t.Inv first sock := by
  cases hp : s.phase with
  | idle =>
    obtain ⟨howed,hlast⟩ := h.settled (by rw [hp]; exact id)
    rw [State.task,hp] at ht
    split_ifs at ht
    cases ht
    exact State.Inv.leave h.empty h.reported howed hlast (.inr (.inl rfl))
  | sample =>
    obtain ⟨howed,hlast⟩ := h.settled (by rw [hp]; exact id)
    rw [State.task,hp] at ht
    cases ht
    refine ⟨h.empty,fun state i all hc => ?_,fun state i all hc => Phase.noConfusion hc,
      ⟨howed,h.reported⟩,fun hn => absurd trivial hn⟩
    cases hc
    exact ⟨rfl,fun _ => ⟨rfl,fun hne => hlast ▸ hne⟩⟩
  | compare state i all =>
    cases i with
    | zero => exact h.compare_zero hp ht
    | one => exact h.compare_one hmask hhandler hp ht
  | callback state i all =>
    obtain rfl := h.callback state i all hp
    have hn : ¬s.phase.Awaits sock := by
      rw [hp]
      exact id
    obtain ⟨howed,hlast⟩ := h.settled hn
    rw [State.task,hp] at ht
    cases ht
    exact State.Inv.leave h.empty h.reported howed hlast (afterSocket_one state all)

omit h in
theorem State.Inv.step {op : Op} (h : s.Inv first sock)
    (hun : Unchanged sock s op) (ht : PcmciaDetect.step cfg s op = some t) : t.Inv first sock := by
  cases op with
  | levels | interrupt | pollEvent =>
    cases ht
    exact ⟨h.empty,h.compare,h.callback,h.reported,h.settled⟩
  | task => exact h.task hmask hhandler ht
  | getStatus p =>
    rw [PcmciaDetect.step] at ht
    split_ifs at ht with hc
    cases ht
    rw [Bool.not_eq_true] at hc
    exact h.getStatus hc fun hp => hun (by rw [hp]) hc

end

theorem State.Inv.bad {op : Op} (hn : ¬Unchanged sock s op) :
    ∃ t, PcmciaDetect.step cfg s op = some t ∧ ¬t.Good first sock := by
  rw [Unchanged] at hn
  push Not at hn
  obtain ⟨rfl,hc,hd⟩ := hn
  obtain ⟨howed,hlast⟩ := h.settled ((h.outside hc).not_awaits sock)
  refine ⟨(s.getStatus cfg sock).1,by rw [PcmciaDetect.step,hc]; rfl,fun hg => ?_⟩
  refine (h.outside hc).not_awaits sock (hg.2 ?_)
  rw [State.getStatus]
  dsimp only
  rw [update_self,Owed,hlast]
  exact hd

end

end

/-- On a socket that is to be told, every change between two samples is reported all along a run,
just if no `get_status` of the run finds the detect state changed. -/
theorem card_detect_reported (cfg : Sock → Config) (hw : Levels) (sock : Sock)
    (hmask : (cfg sock).cscMask &&& SS_DETECT ≠ 0) (hhandler : (cfg sock).handler = true)
    (ops : List Op) :
    (∀ bs t, bs <+: ops → run (step cfg) (.init hw) bs = some t →
      t.Good (socketState hw sock).detect sock) ↔
      Meets (step cfg) (Unchanged sock) (.init hw) ops :=
  always_iff (step cfg) (fun _ h => h.good)
    (fun _ _ _ h hun ht => State.Inv.step hmask hhandler h hun ht) (fun _ _ h hn => h.bad hn)
    (State.inv_init hw sock)

def listening (_ : Sock) : Config := ⟨0x00f0,0,0,true⟩

def noCard : Levels := ⟨0x01000000,0⟩

def cardIn : Levels := ⟨0,0⟩

def insertion : List Op :=
  [.levels cardIn,.interrupt,.task,.task,.task,.task,.task,.task,.task,.task,.getStatus .one]

theorem card_detect_reported_insertion :
    (listening .one).cscMask &&& SS_DETECT ≠ 0 ∧
      ((run (step listening) (.init noCard) insertion).map fun t => t.log .one) =
        some [.sample true,.sample true,.report SS_DETECT,.sample true] ∧
      ∀ bs t, bs <+: insertion → run (step listening) (.init noCard) bs = some t →
        t.Good (socketState noCard .one).detect .one :=
  ⟨by decide,by decide,
    (card_detect_reported listening noCard .one (by decide) rfl insertion).mpr (by decide)⟩

/-- `get_status` is called between the interrupt and the task: both samples show the card, none is
reported, and the handler is idle again. -/
theorem card_detect_missed :
    (socketState noCard .one).detect = false ∧
      ((run (step listening) (.init noCard)
        [.levels cardIn,.interrupt,.getStatus .one,.task,.task,.task,.task]).map fun t =>
          (t.log .one,t.phase.comparing,t.scheduled)) =
        some ([.sample true,.sample true],false,false) := by
  decide

end Simpad.PcmciaDetect
