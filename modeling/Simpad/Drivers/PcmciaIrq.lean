import Simpad.Kernel.Irq
import Simpad.Drivers.PcmciaSocket

namespace Simpad.PcmciaIrq
open PcmciaSocket Runs

/-- `IRQ_GPIO_CF_IRQ`. -/
def cfIrq : ℕ := 1

/-- `struct irqaction`; `shirq` is the flag `SA_SHIRQ`. -/
structure Irqaction where
  shirq : Bool
  devId : ℕ
  deriving DecidableEq

structure State where
  irqs : Irq.State ℕ
  /-- the handlers of the CF interrupt -/
  action : List Irqaction
  /-- `irq_disabled` of `configure_socket` -/
  irqDisabled : Bool
  /-- a call without interrupt has returned 0, and no later one has asked for it -/
  off : Bool
  /-- `enable_irq` has been called at depth 0 -/
  unbalanced : Bool

def State.boot : State := ⟨.init,[],false,false,false⟩

def State.depth (s : State) : ℕ := (s.irqs.desc cfIrq).disableDepth

/-- A step of `simpad_pcmcia_configure_socket`. -/
def State.act (s : State) : Act → State
  | .cs3 _ => s
  | .cardIrq true =>
    { s with
      irqs := s.irqs.enableIrq cfIrq
      irqDisabled := false
      unbalanced := s.unbalanced || decide (s.depth = 0) }
  | .cardIrq false =>
    if s.irqDisabled then s else { s with irqs := s.irqs.disableIrq cfIrq, irqDisabled := true }

def State.configure (s : State) (conf : Configure) : State :=
  let r := configureSocket conf
  let t := r.1.foldl State.act s
  { t with off := !conf.irq && (t.off || decide (r.2 = 0)) }

/-- `request_irq`; `ok` says whether its arguments are good and there is memory. -/
def State.requestIrq (s : State) (ok : Bool) (new : Irqaction) : State :=
  if ok then
    match s.action with
    | [] =>
      { s with
        action := [new]
        irqs := s.irqs.modify cfIrq fun _ => ⟨false,false,0⟩ }
    | old :: rest => if old.shirq && new.shirq then { s with action := old :: rest ++ [new] } else s
  else s

def State.freeIrq (s : State) (devId : ℕ) : State :=
  { s with action := s.action.eraseP fun action => action.devId = devId }

inductive Action
  | configure (conf : Configure)
  | requestIrq (ok : Bool) (new : Irqaction)
  | freeIrq (devId : ℕ)

def step (s : State) : Action → Option State
  | .configure conf => some (s.configure conf)
  | .requestIrq ok new => some (s.requestIrq ok new)
  | .freeIrq devId => some (s.freeIrq devId)

/-- The interrupt is disabled when it is not wanted, and `enable_irq` was only called when it was
disabled. -/
def State.Good (s : State) : Prop := (s.off = true → 0 < s.depth) ∧ s.unbalanced = false

def Reaches (conf : Configure) : Prop :=
  conf.sock = 1 ∧ (conf.vcc = 0 ∨ conf.vcc = 33 ∨ conf.vcc = 50)

instance (conf : Configure) : Decidable (Reaches conf) := inferInstanceAs (Decidable (_ ∧ _))

theorem configureSocket_cases (conf : Configure) :
    (Reaches conf ∧ (configureSocket conf).2 = 0 ∧
      ∀ s : State, (configureSocket conf).1.foldl State.act s = s.act (.cardIrq conf.irq)) ∨
    (¬Reaches conf ∧ ((configureSocket conf).2 = 0 ↔ conf.sock = 0) ∧
      ∀ s : State, (configureSocket conf).1.foldl State.act s = s) := by
  by_cases h1 : conf.sock = 1
  · by_cases hvcc : conf.vcc = 0 ∨ conf.vcc = 33 ∨ conf.vcc = 50
    · refine .inl ⟨⟨h1,hvcc⟩,?_⟩
      obtain hv | hv | hv := hvcc <;>
        simp [configureSocket,configureFlags,h1,hv,State.act]
    · refine .inr ⟨fun h => hvcc h.2,?_⟩
      obtain ⟨h0,h33,h50⟩ : conf.vcc ≠ 0 ∧ conf.vcc ≠ 33 ∧ conf.vcc ≠ 50 := by
        simpa only [not_or] using hvcc
      rw [configureSocket,if_neg (by rw [h1]; decide),if_neg (by rw [h1]; decide),if_neg h0,
        if_neg h33,if_neg h50,h1]
      exact ⟨by decide,fun s => rfl⟩
  · refine .inr ⟨fun h => h1 h.1,?_⟩
    by_cases h0 : conf.sock = 0
    · simp [configureSocket,h0]
    · have hlt : 1 < conf.sock := by bv_omega
      rw [configureSocket,if_pos hlt]
      grind

@[simp] theorem act_off (s : State) (a : Act) : (s.act a).off = s.off := by
  obtain _ | (_ | _) := a
  · rfl
  · rw [State.act]
    split <;> rfl
  · rfl

theorem enableIrq_depth (irqs : Irq.State ℕ) (irq : ℕ) :
    ((irqs.enableIrq irq).desc irq).disableDepth = (irqs.desc irq).disableDepth - 1 := by
  rw [Irq.State.enableIrq]
  by_cases h0 : (irqs.desc irq).disableDepth = 0
  · rw [if_pos h0,h0]
  · rw [if_neg h0]
    dsimp only
    split
    · split <;> simp [Irq.Desc.setPending]
    · simp

theorem act_cardIrq (s : State) (on : Bool) :
    ((s.act (.cardIrq on)).depth = if on then s.depth - 1 else
        if s.irqDisabled then s.depth else s.depth + 1) ∧
      ((s.act (.cardIrq on)).unbalanced = (s.unbalanced || on && decide (s.depth = 0))) := by
  cases on with
  | true => exact ⟨enableIrq_depth s.irqs cfIrq,by simp [State.act]⟩
  | false =>
    rw [State.act]
    by_cases hd : s.irqDisabled = true
    · simp [hd]
    · simp [hd,State.depth,Irq.State.disableIrq]

def Safe (s : State) : Action → Prop
  | .configure conf =>
    if conf.irq then Reaches conf → 0 < s.depth
    else conf.sock = 0 ∨ Reaches conf ∧ s.irqDisabled = true → 0 < s.depth
  | .requestIrq ok _ => ok = true → s.action = [] → s.off = false
  | .freeIrq _ => True

theorem configure_good {s : State} (hs : s.Good) (conf : Configure) :
    (s.configure conf).Good ↔ Safe s (.configure conf) := by
  obtain ⟨hoff,hbal⟩ := hs
  obtain ⟨hr,h0,hfold⟩ | ⟨hr,h0,hfold⟩ := configureSocket_cases conf
  · obtain ⟨hdepth,hunb⟩ := act_cardIrq s conf.irq
    rw [State.configure,hfold,h0]
    show (_ → 0 < (s.act (.cardIrq conf.irq)).depth) ∧
      (s.act (.cardIrq conf.irq)).unbalanced = false ↔ _
    rw [hdepth,hunb,hbal,Safe]
    cases conf.irq with
    | true => simp [hr,Nat.pos_iff_ne_zero]
    | false =>
      by_cases hd : s.irqDisabled = true
      · simp [hr,hd]
      · simp [hr,hd,hr.1]
  · rw [State.configure,hfold]
    show (_ → 0 < s.depth) ∧ s.unbalanced = false ↔ _
    rw [hbal,Safe]
    cases conf.irq with
    | true => simp [hr]
    | false =>
      have hiff : (s.off = true ∨ conf.sock = 0 → 0 < s.depth) ↔ (conf.sock = 0 → 0 < s.depth) :=
        ⟨fun h hsock => h (.inr hsock),fun h => Or.rec hoff h⟩
      simpa [hr,h0] using hiff

theorem requestIrq_good {s : State} (hs : s.Good) (ok : Bool) (new : Irqaction) :
    (s.requestIrq ok new).Good ↔ Safe s (.requestIrq ok new) := by
  obtain ⟨hoff,hbal⟩ := hs
  rw [State.requestIrq,Safe]
  cases ok with
  | false => simpa [State.Good,hbal] using hoff
  | true =>
    cases haction : s.action with
    | nil => simp [State.Good,State.depth,hbal]
    | cons old rest =>
      simp only [if_true,reduceCtorEq,false_implies,implies_true,iff_true]
      split
      · exact ⟨hoff,hbal⟩
      · exact ⟨hoff,hbal⟩

theorem step_good (s : State) (a : Action) (hs : s.Good) :
    ∃ t, step s a = some t ∧ (t.Good ↔ Safe s a) := by
  cases a with
  | configure conf => exact ⟨_,rfl,configure_good hs conf⟩
  | requestIrq ok new => exact ⟨_,rfl,requestIrq_good hs ok new⟩
  | freeIrq devId => exact ⟨_,rfl,⟨fun _ => trivial,fun _ => hs⟩⟩

/-- The interrupt's state is right all along a run just if every call observes the rules. -/
theorem cf_irq_state (as : List Action) :
    (∀ bs t, bs <+: as → run step .boot bs = some t → t.Good) ↔
      Meets step Safe .boot as :=
  meets_iff step step_good ⟨fun h => (by cases h),rfl⟩

def quietCard : Configure := ⟨1,33,0,true,false,false,false⟩

/-- The socket is configured without interrupt, and the card's driver opens the line; the second
call without interrupt does nothing, and one with it enables what is not disabled. -/
theorem cf_irq_open :
    ((run step .boot [.configure quietCard,.requestIrq true ⟨true,5⟩,
        .configure quietCard]).map fun s => (s.off,s.depth)) = some (true,0) ∧
      ((run step .boot [.configure { quietCard with irq := true }]).map
        fun s => s.unbalanced) = some true := by
  decide

end Simpad.PcmciaIrq
