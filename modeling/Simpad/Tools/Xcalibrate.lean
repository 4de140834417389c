import Simpad.Base.Runs
import Simpad.Base.Word

namespace Simpad.Xcalibrate
open Word Function Runs

def screenCalPos : ℕ → ℤ × ℤ
  | 0 => (30,30)
  | 1 => (769,30)
  | 2 => (30,569)
  | 3 => (769,569)
  | _ => (400,300)

/-- `TS_CAL`. -/
structure TsCal where
  xscale : ℤ
  xtrans : ℤ
  yscale : ℤ
  ytrans : ℤ
  xyswap : Bool
  deriving DecidableEq

/-- A division of the program; none when it divides by zero. -/
def divide (a b : ℤ) : Option ℤ := if b = 0 then none else some (s32 (a.tdiv b))

/-- `(scale*raw) >> SHIFT`. -/
def scaled (scale raw : ℤ) : ℤ := s32 (scale * raw) >>> (10 : ℕ)

/-- A scale: the targets `c` and `c'` were touched at `r` and `r'`. -/
def scaleFor (c c' r r' : ℤ) : Option ℤ := divide (s32 ((c - c') * 1024)) (s32 (r - r'))

def transFor (c c' r r' scale : ℤ) : ℤ :=
  (s32 (s32 (c - scaled scale r) + s32 (c' - scaled scale r'))).tdiv 2

/-- The calibration from the readings `xp` across the screen and `yp` down the screen. -/
def fit (xp yp : ℕ → ℤ) (xyswap : Bool) : Option TsCal := do
  let c := screenCalPos
  let xscale0 ← scaleFor (c 0).1 (c 3).1 (xp 0) (xp 3)
  let xtrans0 := transFor (c 0).1 (c 3).1 (xp 0) (xp 3) xscale0
  let yscale0 ← scaleFor (c 0).2 (c 3).2 (yp 0) (yp 3)
  let ytrans0 := transFor (c 0).2 (c 3).2 (yp 0) (yp 3) yscale0
  let xscale1 ← scaleFor (c 1).1 (c 2).1 (xp 1) (xp 2)
  let xtrans1 := transFor (c 1).1 (c 2).1 (xp 1) (xp 2) xscale1
  let yscale1 ← scaleFor (c 1).2 (c 2).2 (yp 1) (yp 2)
  let ytrans1 := transFor (c 1).2 (c 2).2 (yp 1) (yp 2) yscale1
  return {
    xscale := (s32 (xscale0 + xscale1)).tdiv 2
    xtrans := (s32 (xtrans0 + xtrans1)).tdiv 2
    yscale := (s32 (yscale0 + yscale1)).tdiv 2
    ytrans := (s32 (ytrans0 + ytrans1)).tdiv 2
    xyswap := xyswap }

/-- Whether the axes are swapped: from the first cross to the second the second reading changes
more. -/
def swapped (xa ya : ℕ → ℤ) : Bool :=
  let dx := s32 |s32 (xa 1 - xa 0)|
  let dy := s32 |s32 (ya 1 - ya 0)|
  decide (dx < dy)

def calibrate (xa ya : ℕ → ℤ) : Option TsCal :=
  if swapped xa ya then fit ya xa true else fit xa ya false

def TsCal.column (cal : TsCal) (raw : ℤ) : ℤ := s32 (scaled cal.xscale raw + cal.xtrans)

/-- The row of a reading on the axis that runs down the screen. -/
def TsCal.row (cal : TsCal) (raw : ℤ) : ℤ := s32 (scaled cal.yscale raw + cal.ytrans)

variable {b x c' r' : ℤ}

theorem abs_sub_tdiv_mul_lt (a : ℤ) (hb : b ≠ 0) : |a - a.tdiv b * b| < |b| := by
  have hmod : a - a.tdiv b * b = a.tmod b := by
    have h := Int.mul_tdiv_add_tmod a b
    rw [mul_comm] at h
    omega
  rw [hmod,Int.abs_eq_natAbs,Int.abs_eq_natAbs,Int.natAbs_tmod]
  exact_mod_cast Nat.mod_lt _ (Int.natAbs_pos.mpr hb)

theorem abs_sub_tdiv_two (a : ℤ) : |a - a.tdiv 2 * 2| < 2 :=
  abs_sub_tdiv_mul_lt a (by decide)

theorem s32_of_abs_le (h : |x| ≤ 2147483647) : s32 x = x := by
  rw [abs_le] at h
  exact s32_of_lt (by omega) (by omega)

theorem scaled_of_abs_le {scale raw : ℤ} (h : |scale * raw| ≤ 2147483647) :
    scaled scale raw = scale * raw / 1024 := by
  rw [scaled,s32_of_abs_le h,Int.shiftRight_eq_div_pow]
  rfl

section
variable {c c' r r' : ℤ}

/-- Two targets on the screen and two different readings of ten bits. -/
structure Readings (c c' r r' : ℤ) : Prop where
  target : 0 ≤ c ∧ c < 1000
  target' : 0 ≤ c' ∧ c' < 1000
  raw : 0 ≤ r ∧ r ≤ 1023
  raw' : 0 ≤ r' ∧ r' ≤ 1023
  ne : r ≠ r'

def quotient (c c' r r' : ℤ) : ℤ := ((c - c') * 1024).tdiv (r - r')

theorem Readings.swap (h : Readings c c' r r') : Readings c' c r' r :=
  ⟨h.target',h.target,h.raw',h.raw,h.ne.symm⟩

theorem quotient_swap (c c' r r' : ℤ) : quotient c' c r' r = quotient c c' r r' := by
  rw [quotient,quotient,← Int.neg_tdiv_neg]
  congr 1 <;> ring

theorem Readings.abs_quotient (h : Readings c c' r r') : |quotient c c' r r'| ≤ 1023000 := by
  have hle := Int.natAbs_tdiv_le_natAbs ((c - c') * 1024) (r - r')
  obtain ⟨h₁,h₂⟩ := h.target
  obtain ⟨h₃,h₄⟩ := h.target'
  rw [Int.abs_eq_natAbs,quotient]
  omega

theorem Readings.abs_product (h : Readings c c' r r') : |quotient c c' r r' * r| ≤ 1046529000 := by
  have hr : |r| ≤ 1023 := abs_le.mpr ⟨by have := h.raw.1; omega,h.raw.2⟩
  rw [abs_mul]
  exact mul_le_mul h.abs_quotient hr (abs_nonneg _) (by decide)

theorem Readings.scaleFor (h : Readings c c' r r') :
    scaleFor c c' r r' = some (quotient c c' r r') := by
  obtain ⟨h₁,h₂⟩ := h.target
  obtain ⟨h₃,h₄⟩ := h.target'
  obtain ⟨h₅,h₆⟩ := h.raw
  obtain ⟨h₇,h₈⟩ := h.raw'
  have hq := h.abs_quotient
  rw [Xcalibrate.scaleFor,s32_of_lt (by omega) (by omega),s32_of_lt (by omega) (by omega),divide,
    if_neg (sub_ne_zero.mpr h.ne),← quotient,s32_of_abs_le (hq.trans (by decide))]

theorem Readings.scaled (h : Readings c c' r r') :
    scaled (quotient c c' r r') r = quotient c c' r r' * r / 1024 :=
  scaled_of_abs_le (h.abs_product.trans (by decide))

def offset (c c' r r' : ℤ) : ℤ :=
  (c - quotient c c' r r' * r / 1024 + (c' - quotient c c' r r' * r' / 1024)).tdiv 2

theorem offset_swap (c c' r r' : ℤ) : offset c' c r' r = offset c c' r r' := by
  rw [offset,offset,quotient_swap,add_comm]

theorem Readings.transFor (h : Readings c c' r r') :
    transFor c c' r r' (quotient c c' r r') = offset c c' r r' := by
  obtain ⟨h₁,h₂⟩ := h.target
  obtain ⟨h₃,h₄⟩ := h.target'
  have hm := abs_le.mp h.abs_product
  have hm' := abs_le.mp h.swap.abs_product
  have hs := h.swap.scaled
  rw [quotient_swap] at hm' hs
  rw [Xcalibrate.transFor,h.scaled,hs,offset]
  generalize quotient c c' r r' * r = x at hm ⊢
  generalize quotient c c' r r' * r' = x' at hm' ⊢
  rw [s32_of_lt (x := c - x / 1024) (by omega) (by omega),
    s32_of_lt (x := c' - x' / 1024) (by omega) (by omega),s32_of_lt (by omega) (by omega)]

theorem Readings.near (h : Readings c c' r r') :
    |quotient c c' r r' * r / 1024 + offset c c' r r' - c| ≤ 1 := by
  have hrem := abs_lt.mp (abs_sub_tdiv_mul_lt ((c - c') * 1024) (sub_ne_zero.mpr h.ne))
  have hwidth : |r - r'| ≤ 1023 := by
    obtain ⟨h₁,h₂⟩ := h.raw
    obtain ⟨h₃,h₄⟩ := h.raw'
    rw [abs_le]
    omega
  have hhalf := abs_lt.mp (abs_sub_tdiv_two
    (c - quotient c c' r r' * r / 1024 + (c' - quotient c c' r r' * r' / 1024)))
  rw [← offset] at hhalf
  rw [← quotient,mul_sub] at hrem
  -- the two products are off by less than the width, so their quotients by 1024 by one
  rw [abs_le]
  omega

theorem Readings.abs_offset (h : Readings c c' r r') : |offset c c' r r'| ≤ 1100000 := by
  have hn := abs_le.mp h.near
  have hm := abs_le.mp h.abs_product
  obtain ⟨h₁,h₂⟩ := h.target
  rw [abs_le]
  omega

end

/-- The readings of a panel whose axes are parallel to those of the screen: `h` across the screen and
`v` down the screen, at the crosses of the corners. -/
structure Separable (h v : ℕ → ℤ) : Prop where
  range : ∀ k < 4, (0 ≤ h k ∧ h k ≤ 1023) ∧ 0 ≤ v k ∧ v k ≤ 1023
  left : h 2 = h 0
  right : h 3 = h 1
  top : v 1 = v 0
  bottom : v 3 = v 2
  left_ne_right : h 0 ≠ h 1
  top_ne_bottom : v 0 ≠ v 2

section
variable {h v : ℕ → ℤ}

theorem Separable.across (hs : Separable h v) : Readings 30 769 (h 0) (h 1) :=
  ⟨by decide,by decide,(hs.range 0 (by decide)).1,(hs.range 1 (by decide)).1,hs.left_ne_right⟩

theorem Separable.down (hs : Separable h v) : Readings 30 569 (v 0) (v 2) :=
  ⟨by decide,by decide,(hs.range 0 (by decide)).2,(hs.range 2 (by decide)).2,hs.top_ne_bottom⟩

theorem mean_self (hx : |x| ≤ 1100000) : (s32 (x + x)).tdiv 2 = x := by
  rw [abs_le] at hx
  rw [s32_of_lt (by omega) (by omega),← mul_two]
  exact Int.mul_tdiv_cancel x (by decide)

theorem Separable.fit (hs : Separable h v) (xyswap : Bool) :
    fit h v xyswap = some
      ⟨quotient 30 769 (h 0) (h 1),offset 30 769 (h 0) (h 1),
        quotient 30 569 (v 0) (v 2),offset 30 569 (v 0) (v 2),xyswap⟩ := by
  have hx := hs.across
  have hy := hs.down
  have hx₁ := hx.swap.scaleFor
  have hx₂ := hx.swap.transFor
  rw [quotient_swap] at hx₁ hx₂
  rw [offset_swap] at hx₂
  simp only [Xcalibrate.fit,screenCalPos,hs.left,hs.right,hs.top,hs.bottom,hx.scaleFor,hy.scaleFor,
    hx₁,hx₂,hx.transFor,hy.transFor,Option.bind_eq_bind,Option.bind_some]
  rw [mean_self (hx.abs_quotient.trans (by decide)),mean_self (hy.abs_quotient.trans (by decide)),
    mean_self hx.abs_offset,mean_self hy.abs_offset]
  rfl

theorem Separable.swapped (hs : Separable h v) : swapped h v = false ∧ swapped v h = true := by
  obtain ⟨⟨h₁,h₂⟩,-⟩ := hs.range 0 (by decide)
  obtain ⟨⟨h₃,h₄⟩,-⟩ := hs.range 1 (by decide)
  have hne := hs.left_ne_right
  have htop : s32 |s32 (v 1 - v 0)| = 0 := by
    rw [hs.top,sub_self]
    rfl
  have hwide : s32 |s32 (h 1 - h 0)| = |h 1 - h 0| := by
    have hle : |h 1 - h 0| ≤ 2147483647 := by
      rw [abs_le]
      omega
    rw [s32_of_abs_le hle,s32_of_abs_le ((abs_abs _).trans_le hle)]
  have hpos : 0 < |h 1 - h 0| := abs_pos.mpr (sub_ne_zero.mpr hne.symm)
  rw [Xcalibrate.swapped,Xcalibrate.swapped,htop,hwide]
  grind

theorem Readings.column {c r : ℤ} (hr : Readings c c' r r') :
    |s32 (Xcalibrate.scaled (quotient c c' r r') r + offset c c' r r') - c| ≤ 1 := by
  have hn := hr.near
  obtain ⟨h₁,h₂⟩ := hr.target
  have hs : s32 (quotient c c' r r' * r / 1024 + offset c c' r r') =
      quotient c c' r r' * r / 1024 + offset c c' r r' := by
    rw [abs_le] at hn
    exact s32_of_lt (by omega) (by omega)
  rw [hr.scaled,hs]
  exact hn

theorem Readings.column_swap {c r : ℤ} (hr : Readings c c' r r') :
    |s32 (Xcalibrate.scaled (quotient c c' r r') r' + offset c c' r r') - c'| ≤ 1 := by
  have hn := hr.swap.column
  rwa [quotient_swap,offset_swap] at hn

/-- The calibration of a panel with parallel axes, swapped or not, takes the readings of each corner
to within a pixel of its cross. -/
theorem corners_mapped (h v : ℕ → ℤ) (hs : Separable h v) (turned : Bool) :
    ∃ cal, calibrate (if turned then v else h) (if turned then h else v) = some cal ∧
      cal.xyswap = turned ∧
      ∀ k < 4, |cal.column (h k) - (screenCalPos k).1| ≤ 1 ∧
        |cal.row (v k) - (screenCalPos k).2| ≤ 1 := by
  refine ⟨⟨quotient 30 769 (h 0) (h 1),offset 30 769 (h 0) (h 1),
    quotient 30 569 (v 0) (v 2),offset 30 569 (v 0) (v 2),turned⟩,?_,rfl,?_⟩
  · rw [calibrate]
    cases turned with
    | false =>
      rw [if_neg Bool.false_ne_true,if_neg Bool.false_ne_true,hs.swapped.1]
      exact hs.fit false
    | true =>
      rw [if_pos rfl,if_pos rfl,hs.swapped.2]
      exact hs.fit true
  · intro k hk
    have hx := hs.across
    have hy := hs.down
    interval_cases k
    · exact ⟨hx.column,hy.column⟩
    · rw [hs.top]
      exact ⟨hx.column_swap,hy.column⟩
    · rw [hs.left]
      exact ⟨hx.column,hy.column_swap⟩
    · rw [hs.right,hs.bottom]
      exact ⟨hx.column_swap,hy.column_swap⟩

/-- The readings of a panel whose rows run upwards. -/
def samplePanel : (ℕ → ℤ) × (ℕ → ℤ) :=
  (fun k => if k = 0 ∨ k = 2 then 75 else 950,fun k => if k = 0 ∨ k = 1 then 900 else 110)

theorem corners_mapped_sample :
    ∃ cal, calibrate samplePanel.1 samplePanel.2 = some cal ∧ cal.xyswap = false ∧
      ∀ k < 4, |cal.column (samplePanel.1 k) - (screenCalPos k).1| ≤ 1 ∧
        |cal.row (samplePanel.2 k) - (screenCalPos k).2| ≤ 1 :=
  corners_mapped samplePanel.1 samplePanel.2
    ⟨by decide,by decide,by decide,by decide,by decide,by decide,by decide⟩ false

end

/-- `TS_EVENT`, without the time stamp. -/
structure TsEvent where
  pressure : BitVec 16
  x : BitVec 16
  y : BitVec 16

/-- The variables of `do_calibration` between two reads. -/
structure State where
  k : ℕ
  cnt : ℤ
  xsum : ℤ
  ysum : ℤ
  xa : ℕ → ℤ
  ya : ℕ → ℤ
  /-- `new_cal` -/
  cal : TsCal
  /-- the function has returned -/
  done : Bool

def State.cross (s : State) (k : ℕ) : State :=
  { s with
    k := k
    cnt := 0
    xsum := 0
    ysum := 0
    xa := update s.xa k 0
    ya := update s.ya k 0 }

/-- How far the cross in the middle is missed, squared. -/
def badness (cal : TsCal) (xraw yraw : ℤ) : ℤ :=
  let x := s32 (cal.column xraw - 400)
  let y := s32 (cal.row yraw - 300)
  s32 (s32 (x * x) + s32 (y * y))

/-- After the last cross: the calibration and its check; none when it divides by zero. -/
def State.finish (s : State) : Option State :=
  (calibrate s.xa s.ya).map fun cal =>
    let xraw := (if cal.xyswap then s.ya 4 else s.xa 4) % 65536
    let yraw := (if cal.xyswap then s.xa 4 else s.ya 4) % 65536
    let s := { s with cal := cal }
    if 50 < badness cal xraw yraw then s.cross 0 else { s with done := true }

/-- The averages of a cross; none when it divides by zero. -/
def State.average (s : State) : Option State := do
  let x ← divide s.xsum s.cnt
  let y ← divide s.ysum s.cnt
  return { s with xa := update s.xa s.k x, ya := update s.ya s.k y }

/-- One `read`; none stands for an error or a short read. -/
def State.step (s : State) : Option TsEvent → Option State
  | none => some s
  | some ev =>
    if s.done then some s
    else if ev.pressure.toNat < 200 ∧ 20 < s.cnt then
      s.average.bind fun s => if s.k + 1 < 5 then some (s.cross (s.k + 1)) else s.finish
    else some
      { s with
        xsum := s32 (s.xsum + ev.x.toNat)
        ysum := s32 (s.ysum + ev.y.toNat)
        cnt := s32 (s.cnt + 1) }

/-- The program at its start; the arrays and `new_cal` hold whatever they held. -/
def State.start (xa ya : ℕ → BitVec 32) (cal : TsCal) : State :=
  State.cross ⟨0,0,0,0,fun i => (xa i).toInt,fun i => (ya i).toInt,cal,false⟩ 0

/-- The values of an `int`. -/
def IsInt (x : ℤ) : Prop := -2147483648 ≤ x ∧ x < 2147483648

theorem isInt_s32 (x : ℤ) : IsInt (s32 x) :=
  ⟨Int.le_bmod (by decide),Int.bmod_lt (by decide)⟩

theorem isInt_zero : IsInt 0 := ⟨by decide,by decide⟩

theorem s32_sub_eq_zero {y : ℤ} (hx : IsInt x) (hy : IsInt y) : s32 (x - y) = 0 ↔ x = y := by
  obtain ⟨h₁,h₂⟩ := hx
  obtain ⟨h₃,h₄⟩ := hy
  rw [s32,Int.bmod_def]
  omega

theorem isSome_divide {a : ℤ} : (divide a b).isSome ↔ b ≠ 0 := by
  simp [divide]

theorem isSome_scaleFor {c r : ℤ} (hr : IsInt r) (hr' : IsInt r') :
    (scaleFor c c' r r').isSome ↔ r ≠ r' := by
  rw [scaleFor,isSome_divide,Ne,s32_sub_eq_zero hr hr']

theorem isSome_bind_iff {α β : Type} {o : Option α} {f : α → Option β} {P : Prop}
    (h : ∀ a, (f a).isSome ↔ P) : (o >>= f).isSome ↔ o.isSome ∧ P := by
  cases o with
  | none => simp
  | some a => simpa using h a

def Apart (xp : ℕ → ℤ) : Prop := xp 0 ≠ xp 3 ∧ xp 1 ≠ xp 2

theorem isSome_fit {xp yp : ℕ → ℤ} (hx : ∀ i, IsInt (xp i)) (hy : ∀ i, IsInt (yp i))
    (xyswap : Bool) : (fit xp yp xyswap).isSome ↔ Apart xp ∧ Apart yp := by
  refine (isSome_bind_iff fun _ => isSome_bind_iff fun _ => isSome_bind_iff fun _ =>
    isSome_bind_iff fun _ => iff_true_intro rfl).trans ?_
  rw [isSome_scaleFor (hx 0) (hx 3),isSome_scaleFor (hy 0) (hy 3),isSome_scaleFor (hx 1) (hx 2),
    isSome_scaleFor (hy 1) (hy 2),and_true]
  constructor
  · rintro ⟨h₀,h₁,h₂,h₃⟩
    exact ⟨⟨h₀,h₂⟩,h₁,h₃⟩
  · rintro ⟨⟨h₀,h₂⟩,h₁,h₃⟩
    exact ⟨h₀,h₁,h₂,h₃⟩

theorem isSome_calibrate {xa ya : ℕ → ℤ} (hx : ∀ i, IsInt (xa i)) (hy : ∀ i, IsInt (ya i)) :
    (calibrate xa ya).isSome ↔ Apart xa ∧ Apart ya := by
  rw [calibrate]
  split
  · rw [isSome_fit hy hx,and_comm]
  · exact isSome_fit hx hy false

def State.Ints (s : State) : Prop := (∀ i, IsInt (s.xa i)) ∧ ∀ i, IsInt (s.ya i)

theorem isInt_update {f : ℕ → ℤ} (hf : ∀ i, IsInt (f i)) (k : ℕ) (hx : IsInt x) (i : ℕ) :
    IsInt (update f k x i) := by
  by_cases h : i = k
  · rw [h,update_self]
    exact hx
  · rw [update_of_ne h]
    exact hf i

variable {s t : State}

theorem State.Ints.cross (hs : s.Ints) (k : ℕ) : (s.cross k).Ints :=
  ⟨isInt_update hs.1 k isInt_zero,isInt_update hs.2 k isInt_zero⟩

theorem ints_start (xa ya : ℕ → BitVec 32) (cal : TsCal) : (State.start xa ya cal).Ints := by
  apply State.Ints.cross
  refine ⟨fun i => ⟨?_,?_⟩,fun i => ⟨?_,?_⟩⟩
  · exact (xa i).le_toInt
  · exact (xa i).toInt_lt
  · exact (ya i).le_toInt
  · exact (ya i).toInt_lt

theorem divide_cases {a q : ℤ} (h : divide a b = some q) : b ≠ 0 ∧ IsInt q := by
  rw [divide] at h
  split at h
  · cases h
  · next hb =>
    cases h
    exact ⟨hb,isInt_s32 _⟩

theorem average_cases (h : s.average = some t) :
    ∃ x y, IsInt x ∧ IsInt y ∧ t =
      { s with xa := update s.xa s.k x, ya := update s.ya s.k y } := by
  obtain ⟨x,hx,h⟩ := Option.bind_eq_some_iff.mp h
  obtain ⟨y,hy,h⟩ := Option.bind_eq_some_iff.mp h
  cases h
  exact ⟨x,y,(divide_cases hx).2,(divide_cases hy).2,rfl⟩

theorem exists_average (h : 20 < s.cnt) : ∃ t, s.average = some t := by
  have hne : s.cnt ≠ 0 := by omega
  simp [State.average,divide,if_neg hne]

theorem State.Ints.average (hs : s.Ints) (h : s.average = some t) : t.Ints := by
  obtain ⟨x,y,hx,hy,rfl⟩ := average_cases h
  exact ⟨isInt_update hs.1 _ hx,isInt_update hs.2 _ hy⟩

theorem State.Ints.finish (hs : s.Ints) (h : s.finish = some t) : t.Ints := by
  obtain ⟨cal,-,rfl⟩ := Option.map_eq_some_iff.mp h
  dsimp only
  generalize badness cal _ _ = b
  split
  · exact State.Ints.cross (s := { s with cal := cal }) hs 0
  · exact hs

theorem step_cases (s : State) (r : Option TsEvent) :
    (∃ ev, r = some ev ∧ s.done = false ∧ ev.pressure.toNat < 200 ∧ 20 < s.cnt ∧
      s.step r = s.average.bind fun s =>
        if s.k + 1 < 5 then some (s.cross (s.k + 1)) else s.finish) ∨
    (¬(∃ ev, r = some ev ∧ s.done = false ∧ ev.pressure.toNat < 200 ∧ 20 < s.cnt) ∧
      ∃ cnt xsum ysum, s.step r = some { s with cnt := cnt, xsum := xsum, ysum := ysum }) := by
  cases r with
  | none => exact Or.inr ⟨fun ⟨_,h,_⟩ => Option.some_ne_none _ h.symm,s.cnt,s.xsum,s.ysum,rfl⟩
  | some ev =>
    rw [State.step]
    by_cases hd : s.done = true
    · rw [if_pos hd]
      grind
    · rw [if_neg hd]
      by_cases hup : ev.pressure.toNat < 200 ∧ 20 < s.cnt
      · grind
      · rw [if_neg hup]
        grind

theorem State.Ints.step {r : Option TsEvent} (hs : s.Ints) (h : s.step r = some t) : t.Ints := by
  obtain ⟨ev,-,-,-,-,heq⟩ | ⟨-,cnt,xsum,ysum,heq⟩ := step_cases s r
  · rw [heq] at h
    obtain ⟨u,hu,h⟩ := Option.bind_eq_some_iff.mp h
    have hui := hs.average hu
    split at h
    · cases h
      exact hui.cross _
    · exact hui.finish h
  · rw [heq] at h
    cases h
    exact hs

/-- When the last cross is left, the averages of opposite corners differ in both coordinates. -/
def CornersApart (s : State) (r : Option TsEvent) : Prop :=
  (∃ ev, r = some ev ∧ s.done = false ∧ ev.pressure.toNat < 200 ∧ 20 < s.cnt) → 4 ≤ s.k →
    Apart s.xa ∧ Apart s.ya

theorem isSome_step (r : Option TsEvent) (hs : s.Ints) : (s.step r).isSome ↔ CornersApart s r := by
  obtain ⟨ev,rfl,hd,hp,hc,heq⟩ | ⟨hn,cnt,xsum,ysum,heq⟩ := step_cases s r
  · rw [heq]
    obtain ⟨t,ht⟩ := exists_average hc
    obtain ⟨x,y,-,-,hxy⟩ := average_cases ht
    have hk : t.k = s.k := by rw [hxy]
    rw [ht,Option.bind_some,hk]
    split
    · next hlt => exact iff_of_true rfl fun _ hge => absurd hge (by omega)
    · next hge =>
      -- the slot of the last cross is none of the corners
      have hcorner : ∀ i < 4, t.xa i = s.xa i ∧ t.ya i = s.ya i := by
        intro i hi
        rw [hxy]
        grind
      have hap : Apart t.xa ∧ Apart t.ya ↔ Apart s.xa ∧ Apart s.ya := by
        rw [Apart,Apart,(hcorner 0 (by decide)).1,(hcorner 1 (by decide)).1,
          (hcorner 2 (by decide)).1,(hcorner 3 (by decide)).1,(hcorner 0 (by decide)).2,
          (hcorner 1 (by decide)).2,(hcorner 2 (by decide)).2,(hcorner 3 (by decide)).2]
        rfl
      have hti := hs.average ht
      rw [State.finish,Option.isSome_map,isSome_calibrate hti.1 hti.2,hap]
      exact ⟨fun h _ _ => h,fun h => h ⟨ev,rfl,hd,hp,hc⟩ (by omega)⟩
  · rw [heq]
    exact iff_of_true rfl fun h => absurd h hn

/-- No division by zero in a run just if, whenever the last cross is left, the averages of the
opposite corners differ in both coordinates. -/
theorem calibration_divides (xa ya : ℕ → BitVec 32) (cal : TsCal) (reads : List (Option TsEvent)) :
    (run State.step (State.start xa ya cal) reads).isSome ↔
      Meets State.step CornersApart (State.start xa ya cal) reads :=
  isSome_run_iff State.step (fun _ _ _ hs => hs.step) (fun _ r hs => isSome_step r hs)
    (ints_start xa ya cal)

/-- The pen on one spot for all five crosses. -/
theorem calibration_divides_by_zero :
    (run State.step (State.start (fun _ => 0) (fun _ => 0) ⟨0,0,0,0,false⟩)
      (List.replicate 5 (List.replicate 21 (some ⟨300,500,500⟩) ++ [some ⟨0,500,500⟩])).flatten).isNone =
      true := by
  decide +kernel

end Simpad.Xcalibrate
