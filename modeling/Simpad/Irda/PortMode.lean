import Simpad.Base.Runs

namespace Simpad.Irda.Port
open Runs

/-- The fields of `struct sa1100_irda`, whether `HSCR0` selects the HSSP and `UTCR3` enables the UART.
`txdma` and `txStopped` are the transmit channel; `txLen` tells whether `tx_buff` has bytes left. -/
structure Si where
  speed : ℤ
  newspeed : ℤ
  rxskb : Bool
  txskb : Bool
  txLen : Bool
  hssp : Bool
  uart : Bool
  txdma : Bool
  txStopped : Bool
  suspended : Bool

/-- `IS_FIR`. -/
def Si.IsFir (s : Si) : Prop := 4000000 ≤ s.speed

instance (s : Si) : Decidable s.IsFir := inferInstanceAs (Decidable (_ ≤ _))

def Si.rxAlloc (s : Si) (alloc : Bool) : Si := { s with rxskb := s.rxskb || alloc }

def Si.rxDmaStart (s : Si) : Si := { s with hssp := s.hssp || s.rxskb }

def Si.setSpeed (s : Si) (speed : ℤ) (alloc : Bool) : Si :=
  if speed ∈ [9600,19200,38400,57600,115200] then
    { s with hssp := false, uart := true, speed := speed }
  else if speed = 4000000 then
    Si.rxDmaStart (Si.rxAlloc { s with hssp := true, uart := false, speed := speed } alloc)
  else s

/-- The speed change that waits for the end of a transmission. -/
def Si.changeSpeed (s : Si) (alloc : Bool) : Si :=
  if s.newspeed ≠ 0 then { s.setSpeed s.newspeed alloc with newspeed := 0 } else s

/-- `sa1100_irda_hard_xmit` with the result of `irda_get_next_speed`; `none` is `BUG()`. -/
def Si.hardXmit (s : Si) (empty : Bool) (speed : ℤ) (alloc : Bool) : Option Si :=
  let s := if speed ≠ s.speed ∧ speed ≠ -1 then { s with newspeed := speed } else s
  if empty then
    if s.newspeed ≠ 0 then some ({ s with newspeed := 0 : Si }.setSpeed speed alloc) else some s
  else if ¬s.IsFir then some { s with txLen := true, uart := true }
  else if s.txskb then none
  else some { s with txskb := true, txdma := !s.txStopped, hssp := true }

/-- `sa1100_irda_txdma_irq` before it starts reception. -/
def Si.sent (s : Si) (alloc : Bool) : Si :=
  { s with txskb := false, txdma := false : Si }.changeSpeed alloc

def Si.txdmaIrq (s : Si) (alloc : Bool) : Si := (s.sent alloc).rxDmaStart

/-- `sa1100_irda_hpsir_irq`; `finished` if it sends the last byte of `tx_buff`. -/
def Si.hpsirIrq (s : Si) (finished alloc : Bool) : Si :=
  if s.txLen && finished then { s with txLen := false, uart := true : Si }.changeSpeed alloc else s

/-- `sa1100_irda_fir_irq`; `broken` on a framing error or an abort, `passed` if a frame is passed up. -/
def Si.firIrq (s : Si) (broken passed alloc : Bool) : Si :=
  let s := { s with hssp := s.hssp || broken }
  (if s.rxskb && passed then { s with rxskb := false : Si }.rxAlloc alloc else s).rxDmaStart

/-- `sa1100_irda_shutdown` in `sa1100_irda_suspend`. -/
def Si.suspend (s : Si) : Si :=
  { s with hssp := false, uart := false, txdma := false, txStopped := true, suspended := true }

/-- `sa1100_irda_resume` with `sa1100_irda_startup`. -/
def Si.resume (s : Si) : Si :=
  let s := if s.newspeed ≠ 0 then { s with speed := s.newspeed, newspeed := 0 } else s
  Si.setSpeed { s with uart := false, hssp := false, speed := 9600, suspended := false } 9600 false

inductive Op
  | setSpeed (speed : ℤ) (alloc : Bool)
  | hardXmit (empty : Bool) (speed : ℤ) (alloc : Bool)
  | txdmaIrq (alloc : Bool)
  | irq (finished broken passed alloc : Bool)
  | suspend
  | resume

/-- A suspended device is only resumed; a transmission ends where one is under way. -/
def step (s : Si) : Op → Option Si
  | .setSpeed speed alloc => if s.suspended then none else some (s.setSpeed speed alloc)
  | .hardXmit empty speed alloc => if s.suspended then none else s.hardXmit empty speed alloc
  | .txdmaIrq alloc => if s.suspended || !s.txdma then none else some (s.txdmaIrq alloc)
  | .irq finished broken passed alloc =>
    if s.suspended then none
    else if s.IsFir then some (s.firIrq broken passed alloc) else some (s.hpsirIrq finished alloc)
  | .suspend => if s.suspended then none else some s.suspend
  | .resume => if s.suspended then some s.resume else none

/-- The device after `sa1100_irda_start`. -/
def opened : Si := ⟨9600,0,false,false,false,false,true,false,false,false⟩

/-- The mode of the port is that of the speed. -/
structure Si.Matches (s : Si) : Prop where
  fir : s.hssp = true ∧ s.uart = false ↔ s.IsFir
  sir : ¬s.IsFir → s.hssp = false

/-- A fast transmission ends without a receive buffer, before a change to the fast speed, or at the
fast speed and not before a change to a slow one, and the device is suspended at a slow speed. -/
def Allowed (s : Si) : Op → Prop
  | .txdmaIrq _ => s.suspended = false → s.txdma = true → s.rxskb = true →
    s.newspeed = 4000000 ∨ s.IsFir ∧ s.newspeed ∉ [9600,19200,38400,57600,115200]
  | .suspend => s.suspended = false → ¬s.IsFir
  | _ => True

variable {s t : Si} {speed : ℤ} {alloc : Bool}

theorem matches_of_fir (hf : s.IsFir) (hh : s.hssp = true) (hu : s.uart = false) : s.Matches :=
  ⟨iff_of_true ⟨hh,hu⟩ hf,fun hn => absurd hf hn⟩

theorem matches_of_sir (hf : ¬s.IsFir) (hh : s.hssp = false) : s.Matches :=
  ⟨iff_of_false (fun h => Bool.false_ne_true (hh.symm.trans h.1)) hf,fun _ => hh⟩

theorem Si.sent_iff (s : Si) (alloc : Bool) :
    ((s.sent alloc).rxskb = true → (s.sent alloc).IsFir) ↔ (s.rxskb = true →
      s.newspeed = 4000000 ∨ s.IsFir ∧ s.newspeed ∉ [9600,19200,38400,57600,115200]) := by
  unfold Si.sent Si.changeSpeed Si.setSpeed
  split_ifs with hn hs hf
  · have hslow : ¬(4000000 ≤ s.newspeed) ∧ s.newspeed ≠ 4000000 := by
      simp only [List.mem_cons,List.not_mem_nil,or_false] at hs
      omega
    simp [Si.IsFir,hs,hslow]
  · dsimp only at hf
    simp [Si.IsFir,Si.rxDmaStart,Si.rxAlloc,hf]
  · simp [Si.IsFir,hs,hf]
  · simp_all [Si.IsFir]

section
variable (h : s.Matches)
include h

theorem Si.Matches.setSpeed (speed : ℤ) (alloc : Bool) :
    (s.setSpeed speed alloc).Matches := by
  unfold Si.setSpeed
  split_ifs with hs hf
  · refine matches_of_sir ?_ rfl
    simp only [List.mem_cons,List.not_mem_nil,or_false] at hs
    simp only [Si.IsFir]
    omega
  · exact matches_of_fir hf.ge rfl rfl
  · exact h

theorem Si.Matches.changeSpeed (alloc : Bool) : (s.changeSpeed alloc).Matches := by
  unfold Si.changeSpeed
  split_ifs
  · exact ⟨(h.setSpeed s.newspeed alloc).fir,(h.setSpeed s.newspeed alloc).sir⟩
  · exact h

theorem Si.Matches.rxDmaStart : s.rxDmaStart.Matches ↔ (s.rxskb = true → s.IsFir) := by
  by_cases hf : s.IsFir
  · obtain ⟨hh,hu⟩ := h.fir.mpr hf
    exact iff_of_true (matches_of_fir hf (by rw [Si.rxDmaStart,hh]; rfl) hu) fun _ => hf
  · have hh := h.sir hf
    have hstart : s.rxDmaStart.hssp = s.rxskb := by rw [Si.rxDmaStart,hh]; rfl
    constructor
    · intro hm hr
      exact absurd (hr.symm.trans (hstart.symm.trans (hm.sir hf))) (by decide)
    · intro hr
      exact matches_of_sir hf (hstart.trans (Bool.eq_false_iff.mpr fun hx => hf (hr hx)))

theorem Si.Matches.hardXmit {empty : Bool}
    (hx : s.hardXmit empty speed alloc = some t) : t.Matches := by
  unfold Si.hardXmit at hx
  dsimp only at hx
  generalize hu : (if speed ≠ s.speed ∧ speed ≠ -1 then { s with newspeed := speed } else s) = u at hx
  have hum : u.Matches := by
    rw [← hu]
    split_ifs
    · exact ⟨h.fir,h.sir⟩
    · exact h
  have hzero : ({ u with newspeed := 0 } : Si).Matches := ⟨hum.fir,hum.sir⟩
  split_ifs at hx with he hn hf ht <;> cases hx
  · exact hzero.setSpeed speed alloc
  · exact hum
  · exact matches_of_fir hf rfl (hum.fir.mpr hf).2
  · exact matches_of_sir hf (hum.sir hf)

theorem Si.Matches.firIrq (hf : s.IsFir) (broken passed alloc : Bool) :
    (s.firIrq broken passed alloc).Matches := by
  obtain ⟨hh,hu⟩ := h.fir.mpr hf
  unfold Si.firIrq
  dsimp only
  split_ifs <;> exact matches_of_fir hf (by simp [Si.rxDmaStart,Si.rxAlloc,hh]) hu

/-- A step keeps the mode right just when it is allowed. -/
theorem Si.Matches.step_iff {o : Op} (hst : step s o = some t) :
    t.Matches ↔ Allowed s o := by
  cases o with
  | setSpeed speed alloc =>
    obtain ⟨-,hst⟩ := Option.ite_none_left_eq_some.mp hst
    cases hst
    exact iff_of_true (h.setSpeed speed alloc) trivial
  | hardXmit empty speed alloc =>
    obtain ⟨-,hst⟩ := Option.ite_none_left_eq_some.mp hst
    exact iff_of_true (h.hardXmit hst) trivial
  | txdmaIrq alloc =>
    obtain ⟨hg,hst⟩ := Option.ite_none_left_eq_some.mp hst
    cases hst
    rw [Bool.not_eq_true,Bool.or_eq_false_iff,Bool.not_eq_false'] at hg
    have hm : ({ s with txskb := false, txdma := false } : Si).Matches := ⟨h.fir,h.sir⟩
    refine ((hm.changeSpeed alloc).rxDmaStart.trans (s.sent_iff alloc)).trans ?_
    exact ⟨fun ha _ _ => ha,fun ha => ha hg.1 hg.2⟩
  | irq finished broken passed alloc =>
    obtain ⟨-,hst⟩ := Option.ite_none_left_eq_some.mp hst
    refine iff_of_true ?_ trivial
    split_ifs at hst with hf <;> cases hst
    · exact h.firIrq hf broken passed alloc
    · unfold Si.hpsirIrq
      split_ifs
      · have hm : ({ s with txLen := false, uart := true } : Si).Matches :=
          matches_of_sir hf (h.sir hf)
        exact hm.changeSpeed alloc
      · exact h
  | suspend =>
    obtain ⟨hg,hst⟩ := Option.ite_none_left_eq_some.mp hst
    cases hst
    refine ⟨fun hm _ hf => ?_,fun ha => matches_of_sir (ha (Bool.eq_false_iff.mpr hg)) rfl⟩
    exact absurd (hm.fir.mpr hf).1 Bool.false_ne_true
  | resume =>
    obtain ⟨-,hst⟩ := Option.ite_none_right_eq_some.mp hst
    cases hst
    exact iff_of_true (matches_of_sir (show ¬(4000000 : ℤ) ≤ 9600 by decide) rfl) trivial

end

theorem step_of_not_allowed {o : Op} (ha : ¬Allowed s o) : ∃ t, step s o = some t := by
  cases o with
  | txdmaIrq alloc =>
    simp only [Allowed,Classical.not_imp] at ha
    exact ⟨s.txdmaIrq alloc,by simp [step,ha.1,ha.2.1]⟩
  | suspend =>
    simp only [Allowed,Classical.not_imp] at ha
    exact ⟨s.suspend,by simp [step,ha.1]⟩
  | setSpeed | hardXmit | irq | resume => exact absurd trivial ha

theorem opened_matches : opened.Matches := matches_of_sir (by decide) rfl

/-- The mode of the port is that of the speed all along a run, just when each of its steps is allowed. -/
theorem mode_iff {ops : List Op} :
    (∀ bs t, bs <+: ops → run step opened bs = some t → t.Matches) ↔
      Meets step Allowed opened ops := by
  refine always_iff step (fun _ h => h) (fun s o t h ha hst => (h.step_iff hst).mpr ha)
    (fun s o h ha => ?_) opened_matches
  obtain ⟨t,hst⟩ := step_of_not_allowed ha
  exact ⟨t,hst,fun hm => ha ((h.step_iff hst).mp hm)⟩

/-- A fast frame that asks for 9600 afterwards, and a device that is suspended at the fast speed. -/
theorem mode_wrong :
    (∃ t, run step opened [.setSpeed 4000000 true,.hardXmit false 9600 true,.txdmaIrq true] = some t ∧
      t.speed = 9600 ∧ t.hssp = true ∧ t.uart = true) ∧
      ∃ t, run step opened [.setSpeed 4000000 true,.suspend] = some t ∧
        t.speed = 4000000 ∧ t.hssp = false :=
  ⟨⟨_,rfl,rfl,rfl,rfl⟩,_,rfl,rfl,rfl⟩

end Simpad.Irda.Port
