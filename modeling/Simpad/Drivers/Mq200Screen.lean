import Simpad.Base.Runs
import Simpad.Drivers.Mq200

namespace Simpad.Mq200

open Function Runs

/-- The part of `DISPLAY_CONFIG` that `setupgcmem` uses. -/
structure Config where
  x : BitVec 32
  y : BitVec 32
  bpp : BitVec 32
  flag : BitVec 32

/-- `IW1_START_ADDR`, `IW2_START_ADDR` and the strides. -/
structure Windows where
  start1 : BitVec 32
  start2 : BitVec 32
  stride : BitVec 32
  deriving DecidableEq

def largeDesktop : BitVec 32 := 0x40000

def lcdcrtPosMask : BitVec 32 := 0x30000000

def setupgcmem (dc : Config) (startaddr : BitVec 32) : Windows :=
  if dc.flag &&& largeDesktop ≠ 0 then
    match (dc.flag &&& lcdcrtPosMask).toNat with
    | 0x10000000 =>
      let stride := (dc.x.sdiv 2 * dc.bpp).sdiv 8
      ⟨startaddr,startaddr + stride,stride⟩
    | 0 =>
      let stride := (dc.x.sdiv 2 * dc.bpp).sdiv 8
      ⟨startaddr + stride,startaddr,stride⟩
    | 0x20000000 =>
      let stride := (dc.x * dc.bpp).sdiv 8
      ⟨startaddr,startaddr + (stride * dc.y) / 2,stride⟩
    | _ =>
      let stride := (dc.x * dc.bpp).sdiv 8
      ⟨startaddr + (stride * dc.y) / 2,startaddr,stride⟩
  else
    let stride := (dc.x * dc.bpp).sdiv 8
    ⟨startaddr,startaddr,stride⟩

/-- The global `dc`. -/
def dc : Config := ⟨800,600,16,0x00130004⟩

structure Screen where
  display : Display
  windows : Windows

/-- The bounds test of `mq200fb_pan_display`. -/
def panRefused (mode var : Var) : Bool :=
  if var.vmode &&& vmodeYwrap ≠ 0 then
    decide (mode.yresVirtual.toNat ≤ var.yoffset.toNat ∨ var.xoffset ≠ 0)
  else
    decide (mode.xresVirtual.toNat < (var.xoffset + mode.xres).toNat ∨
      mode.yresVirtual.toNat < (var.yoffset + mode.yres).toNat)

/-- `mq200fb_pan_display`; none for `-EINVAL`. -/
def Screen.panDisplay (s : Screen) (var : Var) : Option Screen :=
  let mode := s.display.var
  if panRefused mode var then none
  else
    let mode := { mode with xoffset := var.xoffset, yoffset := var.yoffset }
    let mode :=
      if var.vmode &&& vmodeYwrap ≠ 0 then { mode with vmode := mode.vmode ||| vmodeYwrap }
      else { mode with vmode := mode.vmode &&& ~~~vmodeYwrap }
    some { s with display := { s.display with var := mode } }

inductive Call
  | setVar (var : Var) (cmap : ℤ)
  | panDisplay (var : Var)

/-- One call; none when it divides by zero.  A refused call changes nothing. -/
def Screen.step (p : Info) (s : Screen) : Call → Option Screen
  | .setVar var cmap =>
    match Mq200.setVar p s.display var cmap with
    | .divideByZero => none
    | .noMemory _ => some s
    | .taken _ display _ => some { s with display := display }
  | .panDisplay var => some ((s.panDisplay var).getD s)

/-- The mode of `mq200fb_init`. -/
def bootVar : Var where
  xres := dc.x
  yres := dc.y
  xresVirtual := dc.x
  yresVirtual := dc.y
  xoffset := 0
  yoffset := 0
  bitsPerPixel := dc.bpp
  red := ⟨11,5,0⟩
  green := ⟨5,6,0⟩
  blue := ⟨0,5,0⟩
  transp := ⟨0,0,0⟩
  activate := 0
  vmode := 0

/-- The `fb_info_mq200` of `mq200fb_init`. -/
def bootInfo : Info := ⟨⟨4,0,0,0,0,1600⟩,0xf2800000⟩

/-- The screen after `mq200fb_init`. -/
def Screen.boot (p : Info) : Screen :=
  ⟨⟨bootVar,p.fix,p.mqFbAddrVirt,true,false,.cfb16⟩,setupgcmem dc 0⟩

/-- The part of the frame that is shown lies inside of it, and both windows start in the video
memory. -/
def Screen.Inside (s : Screen) : Prop :=
  s.display.var.xoffset.toNat + s.display.var.xres.toNat ≤ s.display.var.xresVirtual.toNat ∧
    s.display.var.yoffset.toNat + s.display.var.yres.toNat ≤ s.display.var.yresVirtual.toNat ∧
    s.windows.start1.toNat < fbSize ∧ s.windows.start2.toNat < fbSize

theorem step_windows {p : Info} {s t : Screen} {c : Call} (h : s.step p c = some t) :
    t.windows = s.windows := by
  cases c with
  | setVar var cmap =>
    rw [Screen.step] at h
    split at h <;> cases h <;> rfl
  | panDisplay var =>
    cases h
    rw [Screen.panDisplay]
    split <;> rfl

theorem run_windows {p : Info} {t : Screen} {cs : List Call}
    (h : run (Screen.step p) (Screen.boot p) cs = some t) :
    t.windows = setupgcmem dc 0 :=
  invariant_of_step (Screen.step p) (fun _ _ _ hs ht => (step_windows ht).trans hs) rfl h

theorem panDisplay_eq_some {s t : Screen} {var : Var} (h : s.panDisplay var = some t) :
    panRefused s.display.var var = false ∧ t.windows = s.windows ∧
      t.display.var.xoffset = var.xoffset ∧ t.display.var.yoffset = var.yoffset ∧
      t.display.var.xres = s.display.var.xres ∧ t.display.var.yres = s.display.var.yres ∧
      t.display.var.xresVirtual = s.display.var.xresVirtual ∧
      t.display.var.yresVirtual = s.display.var.yresVirtual := by
  rw [Screen.panDisplay] at h
  split at h
  · cases h
  · next hr =>
    grind

/-- When a request for offsets is harmless in a mode: with `FB_VMODE_YWRAP` it is refused or the
screen fits behind the offset, without it is refused or no sum wraps. -/
def PanSafe (mode var : Var) : Prop :=
  if var.vmode &&& vmodeYwrap ≠ 0 then
    var.xoffset ≠ 0 ∨ mode.yresVirtual.toNat ≤ var.yoffset.toNat ∨
      (mode.xres.toNat ≤ mode.xresVirtual.toNat ∧
        var.yoffset.toNat + mode.yres.toNat ≤ mode.yresVirtual.toNat)
  else
    (var.xoffset.toNat + mode.xres.toNat < 4294967296 ∧
        var.yoffset.toNat + mode.yres.toNat < 4294967296) ∨
      mode.xresVirtual.toNat < (var.xoffset.toNat + mode.xres.toNat) % 4294967296 ∨
      mode.yresVirtual.toNat < (var.yoffset.toNat + mode.yres.toNat) % 4294967296

theorem panSafe_iff (mode var : Var) :
    PanSafe mode var ↔ (panRefused mode var = false →
      var.xoffset.toNat + mode.xres.toNat ≤ mode.xresVirtual.toNat ∧
        var.yoffset.toNat + mode.yres.toNat ≤ mode.yresVirtual.toNat) := by
  rw [PanSafe,panRefused]
  by_cases hw : var.vmode &&& vmodeYwrap ≠ 0
  · rw [if_pos hw,if_pos hw,decide_eq_false_iff_not,not_or,not_le,not_not]
    constructor
    · rintro h ⟨hlt,hzero⟩
      have hzero' : var.xoffset.toNat = 0 := by rw [hzero]; rfl
      obtain h | h | h := h
      · exact absurd hzero h
      · omega
      · omega
    · intro h
      by_cases hzero : var.xoffset = 0
      · by_cases hlt : var.yoffset.toNat < mode.yresVirtual.toNat
        · have hin := h ⟨hlt,hzero⟩
          omega
        · omega
      · exact Or.inl hzero
  · rw [if_neg hw,if_neg hw,decide_eq_false_iff_not,not_or,not_lt,not_lt,BitVec.toNat_add,
      BitVec.toNat_add]
    omega

/-- From every mode that the driver can get into, a request leaves the screen inside of the frame
just if it is one of the harmless ones. -/
theorem pan_inside (p : Info) (cs : List Call) (s : Screen)
    (h : run (Screen.step p) (Screen.boot p) cs = some s) (var : Var) :
    (∀ t, s.panDisplay var = some t → t.Inside) ↔ PanSafe s.display.var var := by
  have hwin := run_windows h
  rw [panSafe_iff]
  constructor
  · intro hin hr
    obtain ⟨t,ht⟩ : ∃ t, s.panDisplay var = some t := ⟨_,if_neg (Bool.eq_false_iff.mp hr)⟩
    obtain ⟨-,-,hxo,hyo,hx,hy,hxv,hyv⟩ := panDisplay_eq_some ht
    obtain ⟨h₁,h₂,-⟩ := hin t ht
    grind
  · intro hsafe t ht
    obtain ⟨hr,ht',hxo,hyo,hx,hy,hxv,hyv⟩ := panDisplay_eq_some ht
    obtain ⟨h₁,h₂⟩ := hsafe hr
    rw [Screen.Inside,hxo,hyo,hx,hy,hxv,hyv,ht',hwin]
    exact ⟨h₁,h₂,by decide,by decide⟩

/-- The lower half of a frame of two screens. -/
theorem pan_inside_lower :
    ∃ s t, run (Screen.step bootInfo) (Screen.boot bootInfo)
        [.setVar { bootVar with yresVirtual := 1200 } 0] = some s ∧
      s.panDisplay { bootVar with yoffset := 600 } = some t ∧ t.Inside := by
  refine ⟨_,_,rfl,rfl,?_⟩
  apply (pan_inside bootInfo [.setVar { bootVar with yresVirtual := 1200 } 0] _ rfl
    { bootVar with yoffset := 600 }).mpr
  · exact (panSafe_iff _ _).mpr fun _ => by decide
  · rfl

/-- In the mode of the start the offset 4294967295 is taken, since its sum with the height wraps. -/
theorem pan_outside :
    ∃ t, (Screen.boot bootInfo).panDisplay { bootVar with yoffset := 0xffffffff } = some t ∧
      t.display.var.yoffset.toNat = 4294967295 ∧ t.display.var.yresVirtual.toNat = 600 :=
  ⟨_,rfl,by decide,by decide⟩

/-- An entry of `palette`. -/
structure Color where
  red : BitVec 8
  green : BitVec 8
  blue : BitVec 8
  deriving DecidableEq

structure Clut where
  /-- `p->var.bits_per_pixel` -/
  bitsPerPixel : BitVec 32
  palette : ℕ → Color
  /-- `fbcon_cmap.cfb16` -/
  cfb16 : ℕ → BitVec 16
  /-- the words at `C1_BASE` -/
  chip : ℕ → BitVec 32

def cmapSize : ℕ := 32

def cfb16Color (red green blue : BitVec 32) : BitVec 16 :=
  ((red &&& 0xf800) ||| ((green &&& 0xf800) >>> 5) ||| ((blue &&& 0xf800) >>> 11)).setWidth 16

/-- `mq200fb_setcolreg`; none when it returns 1. -/
def Clut.setcolreg (c : Clut) (regno : ℕ) (red green blue : BitVec 32) : Option Clut :=
  if 255 < regno then none
  else
    let cfb16 :=
      if c.bitsPerPixel = 16 ∧ regno < cmapSize then
        update c.cfb16 regno (cfb16Color red green blue)
      else c.cfb16
    let red := red &&& 0xff
    let green := green &&& 0xff
    let blue := blue &&& 0xff
    some
      { c with
        cfb16 := cfb16
        palette := update c.palette regno
          ⟨red.setWidth 8,green.setWidth 8,blue.setWidth 8⟩
        chip := update c.chip regno (red ||| (green <<< 8) ||| (blue <<< 16)) }

/-- A component of `mq200fb_getcolreg`. -/
def twice (v : BitVec 8) : BitVec 32 := (v.setWidth 32 <<< 8) ||| v.setWidth 32

/-- `mq200fb_getcolreg`: red, green, blue and transp; none when it returns 1. -/
def Clut.getcolreg (c : Clut) (regno : ℕ) :
    Option (BitVec 32 × BitVec 32 × BitVec 32 × BitVec 32) :=
  if 255 < regno then none
  else
    let e := c.palette regno
    some (twice e.red,twice e.green,twice e.blue,0)

def high {w : ℕ} (v : BitVec w) : BitVec 8 := v.extractLsb' 8 8

def low {w : ℕ} (v : BitVec w) : BitVec 8 := v.setWidth 8

theorem high_twice (v : BitVec 8) : high (twice v) = v := by
  refine BitVec.eq_of_getLsbD_eq fun i hi => ?_
  have hout : v.getLsbD (8 + i) = false := BitVec.getLsbD_of_ge v _ (Nat.le_add_right _ _)
  have hlt : 8 + i < 32 := by omega
  rw [high,BitVec.getLsbD_extractLsb',twice,BitVec.getLsbD_or,BitVec.getLsbD_shiftLeft,
    BitVec.getLsbD_setWidth,BitVec.getLsbD_setWidth,hout,Nat.add_sub_cancel_left]
  grind

theorem setWidth_mask (v : BitVec 16) :
    ((v.setWidth 32 : BitVec 32) &&& 0xff).setWidth 8 = low v := by
  refine BitVec.eq_of_getLsbD_eq fun i hi => ?_
  have hbit : (0xff : BitVec 32).getLsbD i = true := by
    interval_cases i <;> rfl
  rw [low,BitVec.getLsbD_setWidth,BitVec.getLsbD_setWidth,BitVec.getLsbD_and,
    BitVec.getLsbD_setWidth,hbit]
  grind

theorem getcolreg_setcolreg (c : Clut) {regno : ℕ} (h : regno < 256) (red green blue : BitVec 16) :
    (c.setcolreg regno (red.setWidth 32) (green.setWidth 32) (blue.setWidth 32)).bind
        (·.getcolreg regno) =
      some (twice (low red),twice (low green),twice (low blue),0) := by
  have hreg : ¬255 < regno := by omega
  rw [Clut.setcolreg,if_neg hreg,Option.bind_some,Clut.getcolreg,if_neg hreg]
  dsimp only
  rw [update_self,setWidth_mask,setWidth_mask,setWidth_mask]

/-- The upper bytes of the components come back just if they are equal to the lower ones. -/
theorem palette_round_trip (c : Clut) (regno : Fin 256) (red green blue : BitVec 16) :
    (∃ red' green' blue' transp,
      (c.setcolreg regno (red.setWidth 32) (green.setWidth 32) (blue.setWidth 32)).bind
          (·.getcolreg regno) = some (red',green',blue',transp) ∧
        high red' = high red ∧ high green' = high green ∧ high blue' = high blue) ↔
      low red = high red ∧ low green = high green ∧ low blue = high blue := by
  rw [getcolreg_setcolreg c regno.isLt]
  constructor
  · simp [high_twice]
  · simp [high_twice]

/-- Full red of the lower byte zero comes back as black. -/
theorem palette_lost :
    ((Clut.mk 16 (fun _ => ⟨0,0,0⟩) (fun _ => 0) fun _ => 0).setcolreg 1 0xff00 0 0).bind
      (·.getcolreg 1) = some (0,0,0,0) := by
  decide

end Simpad.Mq200
