import Mathlib.Tactic

namespace Simpad.Mq200

def fbSize : ℕ := 0x200000

/-- `struct fb_bitfield`. -/
structure Field where
  offset : BitVec 32
  length : BitVec 32
  msbRight : BitVec 32
  deriving DecidableEq

/-- The part of `struct fb_var_screeninfo` that the driver looks at. -/
structure Var where
  xres : BitVec 32
  yres : BitVec 32
  xresVirtual : BitVec 32
  yresVirtual : BitVec 32
  xoffset : BitVec 32
  yoffset : BitVec 32
  bitsPerPixel : BitVec 32
  red : Field
  green : Field
  blue : Field
  transp : Field
  activate : BitVec 32
  vmode : BitVec 32
  deriving DecidableEq

/-- The part of `struct fb_fix_screeninfo` that goes to the display. -/
structure Fix where
  visual : BitVec 32
  type : BitVec 32
  typeAux : BitVec 32
  ypanstep : BitVec 16
  ywrapstep : BitVec 16
  lineLength : BitVec 32
  deriving DecidableEq

inductive Dispsw
  | cfb4 | cfb8 | cfb16 | dummy
  deriving DecidableEq

structure Display where
  var : Var
  fix : Fix
  screenBase : BitVec 32
  canSoftBlank : Bool
  inverse : Bool
  dispsw : Dispsw
  deriving DecidableEq

/-- `struct fb_info_mq200`. -/
structure Info where
  fix : Fix
  mqFbAddrVirt : BitVec 32

/-- `get_line_length`; none when it divides by zero. -/
def getLineLength (xresVirtual bpp : BitVec 32) : Option (BitVec 32) :=
  if bpp = 0 then none else some ((((xresVirtual + bpp - 1).sdiv bpp + 31) &&& 0xffffffe0#32) >>> 3)

/-- The switch of `set_color_bitfields`. -/
def colorFields (var : Var) : Var :=
  match var.bitsPerPixel.toNat with
  | 1 | 8 =>
    { var with
      red := ⟨0,8,0⟩
      green := ⟨0,8,0⟩
      blue := ⟨0,8,0⟩
      transp := ⟨0,0,0⟩ }
  | 16 =>
    { var with
      red := ⟨11,5,0⟩
      green := ⟨5,6,0⟩
      blue := ⟨0,5,0⟩
      transp := ⟨0,0,0⟩ }
  | 24 =>
    { var with
      red := ⟨16,8,0⟩
      green := ⟨8,8,0⟩
      blue := ⟨0,8,0⟩ }
  | 32 =>
    { var with
      red := ⟨0,8,0⟩
      green := ⟨8,8,0⟩
      blue := ⟨16,8,0⟩
      transp := ⟨24,8,0⟩ }
  | _ => var

def setColorBitfields (var : Var) : Var :=
  let var := colorFields var
  { var with
    red := { var.red with msbRight := 0 }
    green := { var.green with msbRight := 0 }
    blue := { var.blue with msbRight := 0 }
    transp := { var.transp with msbRight := 0 } }

def vmodeYwrap : BitVec 32 := 256

def vmodeConupdate : BitVec 32 := 512

def conupdate (display : Display) (var : Var) : Var :=
  if var.vmode &&& vmodeConupdate ≠ 0 then
    { var with
      vmode := var.vmode ||| vmodeYwrap
      xoffset := display.var.xoffset
      yoffset := display.var.yoffset }
  else var

def dispswFor (bpp : BitVec 32) : Dispsw :=
  match bpp.toNat with
  | 4 => .cfb4
  | 8 => .cfb8
  | 16 => .cfb16
  | _ => .dummy

def Display.reshape (display : Display) (p : Info) (bpp : BitVec 32) : Display :=
  { display with
    fix := p.fix
    screenBase := p.mqFbAddrVirt
    canSoftBlank := true
    inverse := false
    dispsw := dispswFor bpp }

def sameShape (v w : Var) : Bool :=
  decide (v.xres = w.xres ∧ v.yres = w.yres ∧ v.xresVirtual = w.xresVirtual ∧
    v.yresVirtual = w.yresVirtual ∧ v.bitsPerPixel = w.bitsPerPixel)

/-- How `mq200fb_set_var` ends. -/
inductive Outcome
  | divideByZero
  /-- `-ENOMEM` from the memory limit -/
  | noMemory (var : Var)
  /-- the mode was taken; `ret` is 0 or the error of `fb_alloc_cmap` -/
  | taken (ret : ℤ) (display : Display) (var : Var)
  deriving DecidableEq

/-- `mq200fb_set_var` after the memory limit; `cmap` is what `fb_alloc_cmap` returns. -/
def install (p : Info) (display : Display) (var : Var) (cmap : ℤ) : Outcome :=
  let var := setColorBitfields var
  if var.activate &&& 15 = 0 then
    let shown := { display with var := var }
    let shown := if sameShape display.var var then shown else shown.reshape p var.bitsPerPixel
    .taken (if display.var.bitsPerPixel ≠ var.bitsPerPixel then cmap else 0) shown var
  else .taken 0 display var

def setVar (p : Info) (display : Display) (var : Var) (cmap : ℤ) : Outcome :=
  let var := conupdate display var
  match getLineLength var.xresVirtual var.bitsPerPixel with
  | none => .divideByZero
  | some lineLength =>
    if fbSize < (lineLength * var.yresVirtual).toNat then .noMemory var
    else install p display var cmap

def Var.frameSize (var : Var) : ℕ :=
  var.xresVirtual.toNat * var.yresVirtual.toNat * var.bitsPerPixel.toNat / 8

/-- No division by zero, and no mode is taken that does not fit into the video memory. -/
def Outcome.Safe (size : ℕ) : Outcome → Prop
  | .divideByZero => False
  | .noMemory _ => True
  | .taken _ _ _ => size ≤ fbSize

theorem toNat_round (v : BitVec 32) : ((v &&& 0xffffffe0#32) >>> 3).toNat = v.toNat / 32 * 4 := by
  have hmask : v &&& 0xffffffe0#32 = (v >>> 5) <<< 5 := by
    refine BitVec.eq_of_getLsbD_eq fun i hi => ?_
    rw [BitVec.getLsbD_and,BitVec.getLsbD_shiftLeft,BitVec.getLsbD_ushiftRight]
    have hbit : (0xffffffe0#32).getLsbD i = !decide (i < 5) := by
      interval_cases i <;> decide
    rw [hbit]
    by_cases h5 : i < 5
    · simp [h5]
    · have hsum : 5 + (i - 5) = i := by omega
      simp [h5,hi,hsum]
  rw [hmask,BitVec.toNat_ushiftRight,BitVec.toNat_shiftLeft,BitVec.toNat_ushiftRight,
    Nat.shiftRight_eq_div_pow,Nat.shiftRight_eq_div_pow,Nat.shiftLeft_eq]
  omega

/-- What the line length comes to: as many bits as there are pixels for each bit of the depth. -/
def lineBytes (xresVirtual bpp : BitVec 32) : ℕ :=
  ((xresVirtual + bpp - 1).sdiv bpp + 31).toNat / 32 * 4

theorem getLineLength_eq (xresVirtual : BitVec 32) {bpp : BitVec 32} (h : bpp ≠ 0) :
    ∃ l, getLineLength xresVirtual bpp = some l ∧ l.toNat = lineBytes xresVirtual bpp :=
  ⟨_,if_neg h,toNat_round _⟩

theorem conupdate_shape (display : Display) (var : Var) :
    (conupdate display var).xresVirtual = var.xresVirtual ∧
      (conupdate display var).yresVirtual = var.yresVirtual ∧
      (conupdate display var).bitsPerPixel = var.bitsPerPixel := by
  rw [conupdate]
  split_ifs <;> exact ⟨rfl,rfl,rfl⟩

theorem install_safe (p : Info) (display : Display) (var : Var) (cmap : ℤ) (size : ℕ) :
    (install p display var cmap).Safe size ↔ size ≤ fbSize := by
  rw [install]
  split_ifs <;> exact Iff.rfl

/-- Every call is safe just for the modes with a depth that fit or that the limit refuses. -/
theorem mq200_mode_acceptance (p : Info) (display : Display) (var : Var) (cmap : ℤ) :
    (setVar p display var cmap).Safe var.frameSize ↔
      var.bitsPerPixel ≠ 0 ∧ (var.frameSize ≤ fbSize ∨
        fbSize < lineBytes var.xresVirtual var.bitsPerPixel * var.yresVirtual.toNat % 4294967296) := by
  obtain ⟨hx,hy,hb⟩ := conupdate_shape display var
  rw [setVar,hx,hy,hb]
  by_cases hz : var.bitsPerPixel = 0
  · rw [getLineLength,if_pos hz]
    exact iff_of_false id fun h => h.1 hz
  · obtain ⟨l,hl,hbytes⟩ := getLineLength_eq var.xresVirtual hz
    rw [hl,and_iff_right hz]
    dsimp only
    rw [BitVec.toNat_mul,hbytes]
    split_ifs with hlim
    · exact iff_of_true trivial (.inr hlim)
    · rw [install_safe,or_iff_left hlim]

def trueColor : Var where
  xres := 1024
  yres := 768
  xresVirtual := 1024
  yresVirtual := 768
  xoffset := 0
  yoffset := 0
  bitsPerPixel := 32
  red := ⟨0,0,0⟩
  green := ⟨0,0,0⟩
  blue := ⟨0,0,0⟩
  transp := ⟨0,0,0⟩
  activate := 0
  vmode := 0

/-- The mode of three megabytes is taken, and one without a depth divides by zero. -/
theorem mq200_mode_too_large :
    (trueColor.frameSize = 3145728 ∧ fbSize = 2097152) ∧
      (∃ display var, setVar ⟨⟨0,0,0,0,0,0⟩,0⟩
        ⟨trueColor,⟨0,0,0,0,0,0⟩,0,false,false,.dummy⟩ trueColor 0 = .taken 0 display var) ∧
      setVar ⟨⟨0,0,0,0,0,0⟩,0⟩ ⟨trueColor,⟨0,0,0,0,0,0⟩,0,false,false,.dummy⟩
        { trueColor with bitsPerPixel := 0 } 0 = .divideByZero :=
  ⟨by decide,⟨_,_,rfl⟩,by decide⟩

end Simpad.Mq200
