import Simpad.Irda.PortMode

namespace Simpad.Irda.Port

def slow : List ℤ := [9600,19200,38400,57600,115200]

/-- A speed that `sa1100_irda_set_speed` knows. -/
abbrev Supported : Type := { speed : ℤ // speed ∈ 4000000 :: slow }

/-- The port with the divisor of its UART. -/
structure Uart where
  si : Si
  utcr1 : ℕ
  utcr2 : ℕ

def brd (speed : ℤ) : ℕ := (3686400 / (16 * speed) - 1).toNat

/-- `sa1100_irda_set_speed` with what it returns. -/
def Uart.setSpeed (p : Uart) (speed : ℤ) (alloc : Bool) : ℤ × Uart :=
  if speed ∈ slow then (0,⟨p.si.setSpeed speed alloc,brd speed / 256,brd speed % 256⟩)
  else if speed = 4000000 then (-22,{ p with si := p.si.setSpeed speed alloc })
  else (-22,p)

def Uart.suspend (p : Uart) : Uart := { p with si := p.si.suspend }

/-- `sa1100_irda_startup` takes 9600 for the speed, whatever `sa1100_irda_resume` has set. -/
def Uart.resume (p : Uart) : Uart := ⟨p.si.resume,brd 9600 / 256,brd 9600 % 256⟩

/-- The bit rate of the UART is the speed, or the HSSP is selected. -/
def Uart.ConfiguredFor (p : Uart) (speed : ℤ) : Prop :=
  speed = 4000000 ∧ p.si.hssp = true ∧ p.si.uart = false ∨
    p.si.hssp = false ∧ p.si.uart = true ∧ 16 * speed * (256 * p.utcr1 + p.utcr2 + 1) = 3686400

def Uart.pending (p : Uart) : ℤ := if p.si.newspeed ≠ 0 then p.si.newspeed else p.si.speed

theorem brd_slow : ∀ speed ∈ slow,
    16 * speed * (256 * (brd speed / 256 : ℕ) + (brd speed % 256 : ℕ) + 1) = 3686400 := by
  decide

theorem setSpeed_slow (p : Uart) {speed : ℤ} (h : speed ∈ slow) (alloc : Bool) :
    (p.setSpeed speed alloc).1 = 0 ∧ (p.setSpeed speed alloc).2.ConfiguredFor speed ∧
      (p.setSpeed speed alloc).2.si.speed = speed := by
  have hsi : p.si.setSpeed speed alloc = { p.si with hssp := false, uart := true, speed := speed } :=
    if_pos h
  rw [Uart.setSpeed,if_pos h,hsi]
  exact ⟨rfl,.inr ⟨rfl,rfl,brd_slow speed h⟩,rfl⟩

theorem setSpeed_fast (p : Uart) (alloc : Bool) :
    (p.setSpeed 4000000 alloc).1 = -22 ∧ (p.setSpeed 4000000 alloc).2.ConfiguredFor 4000000 ∧
      (p.setSpeed 4000000 alloc).2.si.speed = 4000000 := by
  refine ⟨rfl,.inl ⟨rfl,?_,rfl⟩,rfl⟩
  simp [Uart.setSpeed,slow,Si.setSpeed,Si.rxDmaStart,Si.rxAlloc]

theorem resume_configured (p : Uart) (speed : ℤ) :
    p.suspend.resume.ConfiguredFor speed ↔ speed = 9600 := by
  have hsi : p.suspend.resume.si.hssp = false ∧ p.suspend.resume.si.uart = true := ⟨rfl,rfl⟩
  have hbrd : p.suspend.resume.utcr1 = 0 ∧ p.suspend.resume.utcr2 = 23 := ⟨rfl,rfl⟩
  rw [Uart.ConfiguredFor,hsi.1,hsi.2,hbrd.1,hbrd.2]
  simp
  omega

/-- A speed is set and reported as the caller expects just if it is a slow one, and it survives a
suspend just if it is 9600. -/
theorem speed_honoured_iff (p : Uart) (speed : Supported) (alloc : Bool) :
    (((p.setSpeed speed alloc).1 = 0 ↔ (p.setSpeed speed alloc).2.ConfiguredFor speed ∧
        (p.setSpeed speed alloc).2.si.speed = speed) ∧ p.suspend.resume.ConfiguredFor p.pending) ↔
      speed.1 ≠ 4000000 ∧ p.pending = 9600 := by
  obtain ⟨speed,hs⟩ := speed
  rw [resume_configured]
  refine and_congr_left' ?_
  rcases List.mem_cons.mp hs with rfl | hslow
  · obtain ⟨hret,hconf⟩ := setSpeed_fast p alloc
    exact iff_of_false (fun h => absurd (hret.symm.trans (h.mpr hconf)) (by decide)) (fun h => h rfl)
  · obtain ⟨hret,hconf⟩ := setSpeed_slow p hslow alloc
    refine iff_of_true (iff_of_true hret hconf) ?_
    rintro rfl
    exact absurd hslow (by decide)

/-- 4 Mbit/s is set and refused, and 115200 is 9600 after a suspend. -/
theorem speed_not_honoured :
    ((Uart.mk opened 0 23).setSpeed 4000000 true).1 = -22 ∧
      ((Uart.mk opened 0 23).setSpeed 4000000 true).2.si.hssp = true ∧
      ((Uart.mk opened 0 23).setSpeed 115200 true).2.suspend.resume.si.speed = 9600 := by
  decide

end Simpad.Irda.Port
