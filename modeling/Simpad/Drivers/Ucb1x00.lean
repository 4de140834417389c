import Simpad.Base.Runs

/-! The UCB1x00 core. Each primitive operation is recorded with the state of `ucb->lock` and of the
interrupt enable flag after it; the spinlocks are those of one processor. -/

namespace Simpad.Ucb1x00
open Function (update update_of_ne update_self)
open List

inductive Reg
  | ioData | ioDir | ieRis | ieFal
  /-- `UCB_IE_STATUS` to read and `UCB_IE_CLEAR` to write -/
  | ieStatus
  deriving DecidableEq

/-- An entry of `irq_handler`; 0 is `NULL`. -/
structure Handler where
  devid : ℕ
  fn : ℕ
  deriving DecidableEq

/-- `struct ucb1x00`. -/
structure Ucb where
  ioDir : BitVec 16
  ioOut : BitVec 16
  irqFalEnbl : BitVec 16
  irqRisEnbl : BitVec 16
  irqHandler : Fin 16 → Handler

structure State where
  /-- interrupts are enabled -/
  irqs : Bool
  /-- `ucb->lock` is held -/
  locked : Bool
  /-- `locked` and `irqs` after each operation, the latest first -/
  trace : List (Bool × Bool)
  /-- `mcp->use_count` -/
  useCount : ℤ
  /-- `MCCR0_MCE`: the chip can be talked to -/
  mce : Bool
  ucb : Ucb
  chip : Reg → BitVec 16

def State.tick (s : State) : State := { s with trace := (s.locked,s.irqs) :: s.trace }

/-- `local_irq_disable`, `local_irq_enable` and `local_irq_restore`, with a lock other than
`ucb->lock`. -/
def State.setIrqs (s : State) (on : Bool) : State := { s with irqs := on }.tick

/-- `spin_lock_irq(&ucb->lock)`; the caller of `spin_lock_irqsave` has read the flag before. -/
def State.lockIrq (s : State) : State := { s with irqs := false, locked := true }.tick

/-- `spin_unlock_irqrestore(&ucb->lock)`, and `spin_unlock_irq` with `true`. -/
def State.unlockIrq (s : State) (flags : Bool) : State :=
  { s with irqs := flags, locked := false }.tick

def State.enable (s : State) : State :=
  let t := s.setIrqs false
  let t := { t with useCount := t.useCount + 1, mce := if t.useCount = 0 then true else t.mce }.tick
  t.setIrqs true

def State.disable (s : State) : State :=
  let t := s.setIrqs false
  let t := { t with
    useCount := t.useCount - 1
    mce := if t.useCount - 1 = 0 then false else t.mce }.tick
  t.setIrqs s.irqs

def written (chip : Reg → BitVec 16) (reg : Reg) (val : BitVec 16) : Reg → BitVec 16 :=
  update chip reg (if reg = .ieStatus then chip reg &&& ~~~val else val)

/-- `mcp_reg_write`; without the SIB clock it times out. -/
def State.regWrite (s : State) (reg : Reg) (val : BitVec 16) : State :=
  let t := s.setIrqs false
  let t := { t with chip := if t.mce then written t.chip reg val else t.chip }.tick
  t.setIrqs s.irqs

/-- What `mcp_reg_read` returns; without the SIB clock it times out with `-ETIME`. -/
def State.regValue (s : State) (reg : Reg) : BitVec 16 := if s.mce then s.chip reg else 0xffc2

/-- `mcp_reg_read` apart from its value. -/
def State.regRead (s : State) : State := ((s.setIrqs false).tick).setIrqs s.irqs

def State.ioSetDir (s : State) (input output : BitVec 16) : State :=
  let t := s.setIrqs false
  let t := { t with ucb := { t.ucb with ioDir := (t.ucb.ioDir ||| output) &&& ~~~input } }.tick
  (t.regWrite .ioDir t.ucb.ioDir).setIrqs s.irqs

/-- Change `irq_ris_enbl` and write it out. -/
def State.setRis (s : State) (f : BitVec 16 → BitVec 16) : State :=
  let t := { s with ucb := { s.ucb with irqRisEnbl := f s.ucb.irqRisEnbl } }.tick
  t.regWrite .ieRis t.ucb.irqRisEnbl

/-- Change `irq_fal_enbl` and write it out. -/
def State.setFal (s : State) (f : BitVec 16 → BitVec 16) : State :=
  let t := { s with ucb := { s.ucb with irqFalEnbl := f s.ucb.irqFalEnbl } }.tick
  t.regWrite .ieFal t.ucb.irqFalEnbl

/-- `UCB_RISING` and `UCB_FALLING`. -/
def rising (edges : BitVec 32) : Bool := edges.getLsbD 0

def falling (edges : BitVec 32) : Bool := edges.getLsbD 1

/-- The two functions that follow differ in what they make of the shadows. -/
def State.changeIrq (s : State) (edges : BitVec 32) (f : BitVec 16 → BitVec 16) : State :=
  let t := s.lockIrq.enable
  let t := if rising edges then t.setRis f else t
  let t := if falling edges then t.setFal f else t
  t.disable.unlockIrq s.irqs

def State.enableIrq (s : State) (idx : ℕ) (edges : BitVec 32) : State :=
  if idx < 16 then s.changeIrq edges (· ||| BitVec.twoPow 16 idx) else s

def State.disableIrq (s : State) (idx : ℕ) (edges : BitVec 32) : State :=
  if idx < 16 then s.changeIrq edges (· &&& ~~~BitVec.twoPow 16 idx) else s

def State.setHandler (s : State) (idx : Fin 16) (h : Handler) : State :=
  { s with ucb := { s.ucb with irqHandler := update s.ucb.irqHandler idx h } }.tick

def eBusy : ℤ := 16

def eInval : ℤ := 22

def eNoent : ℤ := 2

/-- `ucb1x00_hook_irq`, with what it returns. -/
def State.hookIrq (s : State) (idx fn devid : ℕ) : State × ℤ :=
  if h : idx < 16 then
    let t := s.lockIrq
    if (t.ucb.irqHandler ⟨idx,h⟩).fn = 0 then
      ((t.setHandler ⟨idx,h⟩ ⟨devid,fn⟩).unlockIrq true,0)
    else (t.unlockIrq true,-eBusy)
  else (s,-eInval)

def State.dropIrq (s : State) (idx : Fin 16) : State :=
  { s with
    ucb := { s.ucb with
      irqRisEnbl := s.ucb.irqRisEnbl &&& ~~~BitVec.twoPow 16 idx
      irqFalEnbl := s.ucb.irqFalEnbl &&& ~~~BitVec.twoPow 16 idx } }.tick

/-- What `ucb1x00_free_irq` does with a handler that is its caller's. -/
def State.unhook (s : State) (idx : Fin 16) : State :=
  let t := (s.dropIrq idx).enable
  let t := t.regWrite .ieRis t.ucb.irqRisEnbl
  let t := t.regWrite .ieFal t.ucb.irqFalEnbl
  t.disable.setHandler idx ⟨0,0⟩

/-- `ucb1x00_free_irq`, with what it returns. -/
def State.freeIrq (s : State) (idx devid : ℕ) : State × ℤ :=
  if h : idx < 16 then
    let t := s.lockIrq
    if (t.ucb.irqHandler ⟨idx,h⟩).devid = devid then ((t.unhook ⟨idx,h⟩).unlockIrq true,0)
    else (t.unlockIrq true,-eNoent)
  else (s,-eInval)

/-- `simpad_switches_ucb1x00_reinit`. -/
def State.switchesReinit (s : State) : State :=
  let t := (s.enable.ioSetDir 0x003f 0x0300).disable
  (range 6).foldl (fun t i => t.enableIrq i 3) t

/-- `ucb1x00_pm` with `PM_RESUME`. -/
def State.resume (s : State) : State :=
  let t := s.enable
  let isr := t.regValue .ieStatus
  let t := t.regRead
  let t := t.regWrite .ieStatus isr
  let t := t.regWrite .ieStatus 0
  t.disable.switchesReinit

inductive Call
  | enableIrq (idx : ℕ) (edges : BitVec 32)
  | disableIrq (idx : ℕ) (edges : BitVec 32)
  | hookIrq (idx fn devid : ℕ)
  | freeIrq (idx devid : ℕ)

def State.call (s : State) : Call → State
  | .enableIrq idx edges => s.enableIrq idx edges
  | .disableIrq idx edges => s.disableIrq idx edges
  | .hookIrq idx fn devid => (s.hookIrq idx fn devid).1
  | .freeIrq idx devid => (s.freeIrq idx devid).1

def State.enter (s : State) : State := { s with locked := false, trace := [] }

/-- Interrupts were disabled whenever `ucb->lock` was held. -/
def State.Held (s : State) : Prop := ∀ e ∈ s.trace, e.1 = true → e.2 = false

/-- The calls that do not enable interrupts where they should not. -/
def Call.Safe (s : State) : Call → Prop
  | .enableIrq idx _ => 16 ≤ idx
  | .disableIrq idx _ => 16 ≤ idx
  | .hookIrq idx _ _ => 16 ≤ idx ∨ s.irqs = true
  | .freeIrq idx devid =>
    if h : idx < 16 then s.irqs = true ∧ (s.ucb.irqHandler ⟨idx,h⟩).devid ≠ devid else True

theorem trace_enable (s : State) :
    s.enable.trace = (s.locked,true) :: (s.locked,false) :: (s.locked,false) :: s.trace := rfl

theorem suffix_regWrite (s : State) (reg : Reg) (val : BitVec 16) :
    s.trace <:+ (s.regWrite reg val).trace := ⟨[_,_,_],rfl⟩

theorem suffix_disable (s : State) : s.trace <:+ s.disable.trace := ⟨[_,_,_],rfl⟩

theorem suffix_setRis (s : State) (f : BitVec 16 → BitVec 16) : s.trace <:+ (s.setRis f).trace :=
  ⟨[_,_,_,_],rfl⟩

theorem suffix_setFal (s : State) (f : BitVec 16 → BitVec 16) : s.trace <:+ (s.setFal f).trace :=
  ⟨[_,_,_,_],rfl⟩

/-- `mcp_enable` leaves the interrupts enabled in the section that calls it. -/
theorem not_held_of_enable {s t : State} (hl : s.locked = true) (ht : s.enable.trace <:+ t.trace) :
    ¬t.Held := by
  intro h
  have hmem : (true,true) ∈ t.trace := ht.subset (by simp [trace_enable,hl])
  exact Bool.noConfusion (h _ hmem rfl)

theorem not_held_changeIrq (s : State) (edges : BitVec 32) (f : BitVec 16 → BitVec 16) :
    ¬(s.changeIrq edges f).Held := by
  refine @not_held_of_enable s.lockIrq _ rfl ?_
  refine List.IsSuffix.trans ?_ ((suffix_disable _).trans (suffix_cons _ _))
  split_ifs
  · exact (suffix_setRis _ f).trans (suffix_setFal _ f)
  · exact suffix_setFal _ f
  · exact suffix_setRis _ f
  · exact suffix_refl _

theorem suffix_unhook (s : State) (idx : Fin 16) :
    (s.dropIrq idx).enable.trace <:+ (s.unhook idx).trace := by
  rw [State.unhook]
  generalize (s.dropIrq idx).enable = t
  have hris := suffix_regWrite t .ieRis t.ucb.irqRisEnbl
  generalize t.regWrite .ieRis t.ucb.irqRisEnbl = u at hris ⊢
  exact hris.trans ((suffix_regWrite u _ _).trans ((suffix_disable _).trans (suffix_cons _ _)))

theorem not_held_unhook {s : State} (idx : Fin 16) (flags : Bool) (hl : s.locked = true) :
    ¬((s.unhook idx).unlockIrq flags).Held :=
  @not_held_of_enable (s.dropIrq idx) _ hl ((suffix_unhook s idx).trans (suffix_cons _ _))

theorem held_hook {s t : State}
    (ht : t.trace = [(true,false)] ∨ t.trace = [(true,false),(true,false)]) :
    (t.unlockIrq true).Held ∧ ((t.unlockIrq true).irqs = s.irqs ↔ s.irqs = true) := by
  refine ⟨fun e he hl => ?_,eq_comm⟩
  obtain rfl | he := mem_cons.mp he
  · cases hl
  · obtain ht | ht := ht <;> rw [ht] at he <;> simp at he <;> rw [he]

/-- From locking `ucb->lock` to unlocking it interrupts are disabled, and they are on return as they
were on entry, just for the safe calls. -/
theorem ucb_critical_sections (s : State) (c : Call) :
    ((s.enter.call c).Held ∧ (s.enter.call c).irqs = s.irqs) ↔ c.Safe s := by
  have hquiet : s.enter.Held ∧ s.enter.irqs = s.irqs := ⟨fun e he => absurd he not_mem_nil,rfl⟩
  cases c with
  | enableIrq idx edges =>
    rw [State.call,State.enableIrq,Call.Safe]
    split_ifs with h
    · exact iff_of_false (fun hh => not_held_changeIrq _ _ _ hh.1) (not_le.mpr h)
    · exact iff_of_true hquiet (not_lt.mp h)
  | disableIrq idx edges =>
    rw [State.call,State.disableIrq,Call.Safe]
    split_ifs with h
    · exact iff_of_false (fun hh => not_held_changeIrq _ _ _ hh.1) (not_le.mpr h)
    · exact iff_of_true hquiet (not_lt.mp h)
  | hookIrq idx fn devid =>
    rw [State.call,State.hookIrq,Call.Safe]
    by_cases h : idx < 16
    · rw [dif_pos h,or_iff_right (not_le.mpr h)]
      dsimp only
      split_ifs
      · obtain ⟨hheld,hirqs⟩ := @held_hook s (s.enter.lockIrq.setHandler ⟨idx,h⟩ ⟨devid,fn⟩) (.inr rfl)
        exact (and_iff_right hheld).trans hirqs
      · obtain ⟨hheld,hirqs⟩ := @held_hook s s.enter.lockIrq (.inl rfl)
        exact (and_iff_right hheld).trans hirqs
    · grind
  | freeIrq idx devid =>
    rw [State.call,State.freeIrq,Call.Safe]
    by_cases h : idx < 16
    · rw [dif_pos h,dif_pos h]
      by_cases hd : (s.ucb.irqHandler ⟨idx,h⟩).devid = devid
      · have hd' : (s.enter.lockIrq.ucb.irqHandler ⟨idx,h⟩).devid = devid := hd
        rw [if_pos hd']
        exact iff_of_false (fun hh => not_held_unhook _ _ rfl hh.1) fun hs => hs.2 hd
      · have hd' : ¬(s.enter.lockIrq.ucb.irqHandler ⟨idx,h⟩).devid = devid := hd
        rw [if_neg hd',and_iff_left hd]
        obtain ⟨hheld,hirqs⟩ := @held_hook s s.enter.lockIrq (.inl rfl)
        exact (and_iff_right hheld).trans hirqs
    · grind

def blank (ucb : Ucb) : State := ⟨false,false,[],0,false,ucb,fun _ => 0⟩

/-- Interrupts are enabled in the section of `ucb1x00_enable_irq`, and after `ucb1x00_hook_irq`
though they were disabled before. -/
theorem ucb_section_opened :
    (true,true) ∈ ((blank ⟨0,0,0,0,fun _ => ⟨0,0⟩⟩).enter.call (.enableIrq 0 3)).trace ∧
      ((blank ⟨0,0,0,0,fun _ => ⟨0,0⟩⟩).enter.call (.hookIrq 0 1 1)).irqs = true := by
  decide

def State.Running (s : State) : Prop := s.useCount = 0 ∨ s.mce = true

instance (s : State) : Decidable s.Running :=
  inferInstanceAs (Decidable (s.useCount = 0 ∨ s.mce = true))

/-- The registers are those of the shadows; only the outputs are compared. -/
structure State.Restored (s : State) : Prop where
  ioDir : s.chip .ioDir = s.ucb.ioDir
  ioData : s.chip .ioData &&& s.ucb.ioDir = s.ucb.ioOut &&& s.ucb.ioDir
  ieRis : s.chip .ieRis = s.ucb.irqRisEnbl
  ieFal : s.chip .ieFal = s.ucb.irqFalEnbl

theorem mce_enable (s : State) : s.enable.mce = decide s.Running := by
  change (if s.useCount = 0 then true else s.mce) = _
  by_cases h : s.useCount = 0 <;> simp [State.Running,h]

/-- `mcp_enable` and `mcp_disable` around something that calls neither. -/
theorem running_disable {s t : State} (hcount : t.useCount = s.enable.useCount)
    (hmce : t.mce = s.enable.mce) : t.disable.useCount = s.useCount ∧ (t.disable.Running ↔ s.Running) := by
  have hc : t.disable.useCount = s.useCount := by
    change t.useCount - 1 = s.useCount
    rw [hcount]
    exact add_sub_cancel_right _ _
  have hm : t.disable.mce = if t.disable.useCount = 0 then false else s.enable.mce := by
    rw [← hmce]
    rfl
  rw [State.Running,hm,hc,mce_enable]
  by_cases h : s.useCount = 0 <;> simp [State.Running,h]

theorem written_of_ne {reg : Reg} (h : reg ≠ .ieStatus) (chip : Reg → BitVec 16) (val : BitVec 16) :
    written chip reg val = update chip reg val := by
  rw [written,if_neg h]

/-- `ucb1x00_enable_irq` for both edges. -/
structure State.BothEdges (s t : State) (f : BitVec 16 → BitVec 16) : Prop where
  useCount : t.useCount = s.useCount
  running : t.Running ↔ s.Running
  ucb : t.ucb = { s.ucb with irqRisEnbl := f s.ucb.irqRisEnbl, irqFalEnbl := f s.ucb.irqFalEnbl }
  chip : t.chip = if s.Running then
    update (update s.chip .ieRis (f s.ucb.irqRisEnbl)) .ieFal (f s.ucb.irqFalEnbl)
    else s.chip

theorem changeIrq_both (s : State) (f : BitVec 16 → BitVec 16) :
    s.BothEdges (s.changeIrq 3 f) f := by
  have hr : rising 3 = true := by decide
  have hf : falling 3 = true := by decide
  have he : s.changeIrq 3 f = ((s.lockIrq.enable.setRis f).setFal f).disable.unlockIrq s.irqs := by
    rfl
  have hm : s.lockIrq.enable.mce = decide s.Running := mce_enable s.lockIrq
  obtain ⟨hcount,hrun⟩ := @running_disable s.lockIrq ((s.lockIrq.enable.setRis f).setFal f) rfl rfl
  refine ⟨hcount,hrun,rfl,?_⟩
  change (if s.lockIrq.enable.mce then written (if s.lockIrq.enable.mce then
    written s.chip .ieRis (f s.ucb.irqRisEnbl) else s.chip) .ieFal (f s.ucb.irqFalEnbl) else
    (if s.lockIrq.enable.mce then written s.chip .ieRis (f s.ucb.irqRisEnbl) else s.chip)) = _
  rw [hm,written_of_ne (by decide),written_of_ne (by decide)]
  by_cases h : s.Running <;> simp [h]

def withBits (l : List ℕ) (v : BitVec 16) : BitVec 16 := l.foldl (· ||| BitVec.twoPow 16 ·) v

structure State.Enabled (s t : State) (l : List ℕ) : Prop where
  running : t.Running ↔ s.Running
  ucb : t.ucb = { s.ucb with
    irqRisEnbl := withBits l s.ucb.irqRisEnbl, irqFalEnbl := withBits l s.ucb.irqFalEnbl }
  ioDir : t.chip .ioDir = s.chip .ioDir
  ioData : t.chip .ioData = s.chip .ioData
  stopped : ¬s.Running → t.chip = s.chip

theorem foldl_enableIrq (s : State) (l : List ℕ) (hl : ∀ i ∈ l, i < 16) :
    s.Enabled (l.foldl (fun t i => t.enableIrq i 3) s) l := by
  induction l generalizing s with
  | nil => exact ⟨Iff.rfl,rfl,rfl,rfl,fun _ => rfl⟩
  | cons i l ih =>
    have hi : s.enableIrq i 3 = s.changeIrq 3 (· ||| BitVec.twoPow 16 i) :=
      if_pos (hl i mem_cons_self)
    have hboth := changeIrq_both s (· ||| BitVec.twoPow 16 i)
    rw [foldl_cons,hi]
    generalize s.changeIrq 3 (· ||| BitVec.twoPow 16 i) = t at hboth
    obtain ⟨hrun,hucb,hdir,hdata,hstop⟩ := ih t fun j hj => hl j (mem_cons_of_mem i hj)
    refine ⟨hrun.trans hboth.running,?_,hdir.trans ?_,hdata.trans ?_,fun hn => ?_⟩
    · rw [hucb,hboth.ucb]
      rfl
    · rw [hboth.chip]
      split_ifs <;> simp
    · rw [hboth.chip]
      split_ifs <;> simp
    · rw [hstop fun ht => hn (hboth.running.mp ht),hboth.chip,if_neg hn]

theorem withBits_range (v : BitVec 16) : withBits (range 6) v = v ||| 0x003f := by
  have hr : range 6 = [0,1,2,3,4,5] := rfl
  have hb : BitVec.twoPow 16 0 ||| (BitVec.twoPow 16 1 ||| (BitVec.twoPow 16 2 |||
      (BitVec.twoPow 16 3 ||| (BitVec.twoPow 16 4 ||| BitVec.twoPow 16 5)))) = 0x003f := by decide
  rw [withBits,hr,← hb]
  grind

theorem enabled_range (s : State) (h : s.Running) :
    let t := (range 6).foldl (fun t i => t.enableIrq i 3) s
    t.chip .ieRis = t.ucb.irqRisEnbl ∧ t.chip .ieFal = t.ucb.irqFalEnbl := by
  have hl : ∀ i ∈ range 5, i < 16 := fun i hi => by
    have := mem_range.mp hi
    omega
  have hen := foldl_enableIrq s (range 5) hl
  intro t
  have ht : t = ((range 5).foldl (fun t i => t.enableIrq i 3) s).enableIrq 5 3 := rfl
  generalize (range 5).foldl (fun t i => t.enableIrq i 3) s = u at hen ht
  have hboth := changeIrq_both u (· ||| BitVec.twoPow 16 5)
  have h5 : u.enableIrq 5 3 = u.changeIrq 3 (· ||| BitVec.twoPow 16 5) := if_pos (by decide)
  rw [h5] at ht
  rw [← ht] at hboth
  simp [hboth.chip,hboth.ucb,if_pos (hen.running.mpr h)]

theorem enabled_ioSetDir (s : State) (input output : BitVec 16) :
    let t := (s.enable.ioSetDir input output).disable
    (t.Running ↔ s.Running) ∧
      t.ucb = { s.ucb with ioDir := (s.ucb.ioDir ||| output) &&& ~~~input } ∧
      t.chip = if s.Running then
        update s.chip .ioDir ((s.ucb.ioDir ||| output) &&& ~~~input) else s.chip := by
  obtain ⟨-,hrun⟩ := @running_disable s (s.enable.ioSetDir input output) rfl rfl
  refine ⟨hrun,rfl,?_⟩
  change (if s.enable.mce then
    written s.chip .ioDir ((s.ucb.ioDir ||| output) &&& ~~~input) else s.chip) = _
  rw [mce_enable,written_of_ne (by decide)]
  simp

theorem chip_regWrite_of_ne {s : State} {reg r : Reg} (h : r ≠ reg) (val : BitVec 16) :
    (s.regWrite reg val).chip r = s.chip r := by
  change (if s.mce then written s.chip reg val else s.chip) r = s.chip r
  split_ifs
  · rw [written,update_of_ne h]
  · rfl

theorem enabled_clear (s : State) (isr : BitVec 16) :
    let t := ((s.enable.regRead.regWrite .ieStatus isr).regWrite .ieStatus 0).disable
    (t.Running ↔ s.Running) ∧ t.ucb = s.ucb ∧ ∀ r, r ≠ .ieStatus → t.chip r = s.chip r := by
  intro t
  obtain ⟨-,hrun⟩ :=
    @running_disable s ((s.enable.regRead.regWrite .ieStatus isr).regWrite .ieStatus 0) rfl rfl
  refine ⟨hrun,rfl,fun r hr => ?_⟩
  calc t.chip r
      = ((s.enable.regRead.regWrite .ieStatus isr).regWrite .ieStatus 0).chip r := rfl
    _ = (s.enable.regRead.regWrite .ieStatus isr).chip r := chip_regWrite_of_ne hr 0
    _ = s.chip r := chip_regWrite_of_ne hr isr

def Ucb.resumed (u : Ucb) : BitVec 16 := (u.ioDir ||| 0x0300) &&& ~~~0x003f

theorem switchesReinit_spec (s : State) :
    s.switchesReinit.ucb = { s.ucb with
      ioDir := s.ucb.resumed
      irqRisEnbl := s.ucb.irqRisEnbl ||| 0x003f
      irqFalEnbl := s.ucb.irqFalEnbl ||| 0x003f } ∧
      s.switchesReinit.chip .ioData = s.chip .ioData ∧
      (s.Running → s.switchesReinit.chip .ioDir = s.ucb.resumed ∧
        s.switchesReinit.chip .ieRis = s.switchesReinit.ucb.irqRisEnbl ∧
        s.switchesReinit.chip .ieFal = s.switchesReinit.ucb.irqFalEnbl) ∧
      (¬s.Running → s.switchesReinit.chip = s.chip) := by
  rw [State.switchesReinit]
  obtain ⟨hrun,hucb,hchip⟩ := enabled_ioSetDir s 0x003f 0x0300
  generalize (s.enable.ioSetDir 0x003f 0x0300).disable = t at hrun hucb hchip
  have hen := foldl_enableIrq t (range 6) fun i hi => by
    have := mem_range.mp hi
    omega
  have hlast := enabled_range t
  refine ⟨?_,?_,fun h => ⟨?_,hlast (hrun.mpr h)⟩,fun h => ?_⟩
  · rw [hen.ucb,hucb,withBits_range,withBits_range]
    rfl
  · rw [hen.ioData,hchip]
    grind
  · rw [hen.ioDir,hchip,if_pos h,update_self]
    rfl
  · rw [hen.stopped fun ht => h (hrun.mp ht),hchip,if_neg h]

/-- After a resume the registers are those of the shadows, just if the outputs kept their values,
which are not written, and the MCP was not in use before, in which case it is enabled again. -/
theorem resume_restores (s : State) :
    s.resume.Restored ↔
      s.chip .ioData &&& s.ucb.resumed = s.ucb.ioOut &&& s.ucb.resumed ∧
      (s.Running ∨ (s.chip .ioDir = s.ucb.resumed ∧ s.chip .ieRis = s.ucb.irqRisEnbl ||| 0x003f ∧
        s.chip .ieFal = s.ucb.irqFalEnbl ||| 0x003f)) := by
  rw [State.resume]
  obtain ⟨hrun,hucb,hchip⟩ := enabled_clear s (s.enable.regValue .ieStatus)
  generalize ((s.enable.regRead.regWrite .ieStatus (s.enable.regValue .ieStatus)).regWrite
    .ieStatus 0).disable = t at hrun hucb hchip
  obtain ⟨hu,hdata,hon,hoff⟩ := switchesReinit_spec t
  have hioData : t.chip .ioData = s.chip .ioData := hchip .ioData (by decide)
  rw [hucb] at hu hon
  constructor
  · intro h
    have hout := h.ioData
    rw [hu,hdata,hioData] at hout
    refine ⟨hout,?_⟩
    by_cases hs : s.Running
    · exact .inl hs
    · have hdir := h.ioDir
      have hris := h.ieRis
      have hfal := h.ieFal
      grind
  · rintro ⟨hout,hs⟩
    by_cases hr : t.Running
    · obtain ⟨hdir,hris,hfal⟩ := hon hr
      refine ⟨by rw [hdir,hu],?_,hris,hfal⟩
      rw [hu,hdata,hioData]
      exact hout
    · obtain hs | ⟨hdir,hris,hfal⟩ := hs
      · exact absurd (hrun.mpr hs) hr
      · have hc := hoff hr
        refine ⟨?_,?_,?_,?_⟩
        · grind
        · grind
        · grind
        · grind

/-- IO_8 was high before the chip lost its power. -/
theorem resume_loses_outputs :
    (blank ⟨0x0300,0x0100,0x003f,0x003f,fun _ => ⟨0,0⟩⟩).resume.chip .ioDir = 0x0300 ∧
      (blank ⟨0x0300,0x0100,0x003f,0x003f,fun _ => ⟨0,0⟩⟩).resume.chip .ioData = 0 ∧
      (blank ⟨0x0300,0x0100,0x003f,0x003f,fun _ => ⟨0,0⟩⟩).resume.ucb.ioOut = 0x0100 := by
  decide

end Simpad.Ucb1x00
