import Simpad.Base.Word
import Simpad.Base.Runs
import Simpad.Board.Cs3

namespace Simpad.ControlPanel
open Cs3 Word List Runs
open Function (update update_of_ne)

/-- `string::npos`. -/
def npos : ℕ := 2 ^ 32 - 1

/-- The first place where `pat` begins. -/
def findFrom (pat : List Char) : List Char → Option ℕ
  | [] => if pat = [] then some 0 else none
  | c :: cs => if pat.isPrefixOf (c :: cs) then some 0 else (findFrom pat cs).map (· + 1)

/-- `string::find`. -/
def find (s pat : List Char) (start : ℕ) : ℕ :=
  if s.length < start then npos else ((findFrom pat (s.drop start)).map (start + ·)).getD npos

/-- `string::substr`, which throws when `pos` lies behind the end. -/
def substr (s : List Char) (pos n : ℕ) : Option (List Char) :=
  if s.length < pos then none else some ((s.drop pos).take n)

/-- `getValueFromString`.  The test of `startPos` before the search always passes, so a missing
keyword goes on with `npos`. -/
def getValueFromString (s keyword : List Char) (mode : ℕ) : Option (List Char) :=
  let pos := find s keyword 0
  if mode = 1 then
    let startPos := u32 (pos + keyword.length + 1)
    let endPos := find s [' '] startPos
    substr s startPos (sub32 endPos startPos)
  else
    let startPos := find s [':',' '] (u32 (pos + keyword.length))
    let endPos := find s ['\n'] (u32 (startPos + 2))
    substr s (u32 (startPos + 2)) (sub32 (sub32 endPos startPos) 2)

/-- The white space that `strtol` skips. -/
def isSpace (c : Char) : Bool := c.toNat = 32 || (9 ≤ c.toNat && c.toNat ≤ 13)

/-- The digits of a number in base 16, after an optional `0x` or `0X`. -/
def magnitude : List Char → ℕ
  | '0' :: 'x' :: cs | '0' :: 'X' :: cs => Hex.read (fun a d => a * 16 + d) 16 0 cs
  | cs => Hex.read (fun a d => a * 16 + d) 16 0 cs

/-- `strtol` with base 16 into a `long` of 32 bits. -/
def strtol (s : List Char) : BitVec 32 :=
  match s.dropWhile isSpace with
  | '-' :: cs => -BitVec.ofNat 32 (min (magnitude cs) (2 ^ 31))
  | '+' :: cs => BitVec.ofNat 32 (min (magnitude cs) (2 ^ 31 - 1))
  | cs => BitVec.ofNat 32 (min (magnitude cs) (2 ^ 31 - 1))

inductive Box
  | dect | enIrda | rs232 | greenLed | irdaMode
  deriving DecidableEq

def Box.bit : Box → ℕ
  | .dect => 8
  | .enIrda => 9
  | .rs232 => 10
  | .greenLed => 12
  | .irdaMode => 13

/-- The mark of a box for a register value; `IRDA_SD` switches IrDA off. -/
def Box.shows (cs3Value : BitVec 32) : Box → Bool
  | .dect => Has cs3Value DECT_POWER_ON
  | .enIrda => ¬Has cs3Value IRDA_SD
  | .rs232 => Has cs3Value RS232_ON
  | .greenLed => Has cs3Value LED2_ON
  | .irdaMode => Has cs3Value IRDA_MODE

structure State where
  latch : Latch
  /-- the panel's `cs3Value`, once the tab has been shown -/
  cs3Value : Option (BitVec 32)
  boxes : Box → Bool
  /-- the boxes the user has toggled since the tab was last read -/
  toggled : Box → Bool
  /-- the register when the tab was last read -/
  atRead : BitVec 32
  /-- the value each bit was last given, by the kernel or by the user's own toggle -/
  given : ℕ → Bool

/-- `updateCS3Tab`; none if the text has no such line. -/
def State.updateCS3Tab (s : State) : Option State :=
  (getValueFromString (procCs3Read s.latch.shadow) "Chipselect3".toList 2).map fun cs3String =>
    { s with
      cs3Value := some (strtol cs3String)
      boxes := Box.shows (strtol cs3String)
      toggled := fun _ => false
      atRead := s.latch.shadow }

/-- `if (on) value |= mask; else value &= ~mask`. -/
def put (value mask : BitVec 32) (on : Bool) : BitVec 32 :=
  if on then value ||| mask else value &&& ~~~mask

/-- The value `setCS3Value` makes of `cs3Value` and the boxes.  It has no line for the LED. -/
def newValue (cs3Value : BitVec 32) (boxes : Box → Bool) : BitVec 32 :=
  let cs3Value := put cs3Value DECT_POWER_ON (boxes .dect)
  let cs3Value := put cs3Value IRDA_SD (!boxes .enIrda)
  let cs3Value := put cs3Value RS232_ON (boxes .rs232)
  put cs3Value IRDA_MODE (boxes .irdaMode)

def State.toggledBit (s : State) (i : ℕ) : Bool :=
  [Box.dect,.enIrda,.rs232,.greenLed,.irdaMode].any fun b => s.toggled b && b.bit = i

/-- `setCS3Value`: the text is written by `echo`. -/
def State.setCS3Value (s : State) : Option State :=
  s.cs3Value.map fun cs3Value =>
    let value := newValue cs3Value s.boxes
    { s with
      latch := s.latch.procCs3Write ('0' :: 'x' :: (Hex.text 7 value.toNat ++ ['\n']))
      cs3Value := some value
      given := fun i => if s.toggledBit i then value.getLsbD i else s.given i }

/-- The value a bit has been given after a call of the kernel. -/
def gives (old : ℕ → Bool) (i : ℕ) : Call → Bool
  | .set value => value.getLsbD i || old i
  | .clear value => !value.getLsbD i && old i

inductive Action
  | updateCS3Tab
  | toggle (b : Box)
  | setCS3Value
  | kernel (c : Call)

/-- One action; the panel can only be used once it shows the tab, and CS3 has sixteen bits. -/
def step (s : State) : Action → Option State
  | .updateCS3Tab => s.updateCS3Tab
  | .toggle b =>
    if s.cs3Value.isSome then
      some { s with
        boxes := update s.boxes b (!s.boxes b)
        toggled := update s.toggled b true }
    else none
  | .setCS3Value => s.setCS3Value
  | .kernel c =>
    if c.value.toNat < 2 ^ 16 then
      some { s with latch := s.latch.call c, given := fun i => gives s.given i c }
    else none

def State.boot : State :=
  ⟨.mapIo,none,fun _ => false,fun _ => false,0#32,Latch.mapIo.shadow.getLsbD⟩

/-- No bit whose box was left alone is changed by the panel. -/
def State.Kept (s t : State) : Prop :=
  ∀ i, s.toggledBit i = false → t.latch.shadow.getLsbD i = s.given i

variable {s : State} {w v : BitVec 32}

section

theorem findFrom_newline {cs : List Char} (h : ∀ c ∈ cs, c ≠ '\n') (rest : List Char) :
    findFrom ['\n'] (cs ++ '\n' :: rest) = some cs.length := by
  induction cs with
  | nil => simp [findFrom]
  | cons c cs ih =>
    have hc : ('\n' == c) = false := by
      grind
    simp only [cons_append,findFrom,List.isPrefixOf,hc,Bool.false_and,
      ih (fun d hd => h d (mem_cons_of_mem c hd)),length_cons]
    rfl

theorem text_ne_newline (w : BitVec 32) : ∀ c ∈ Hex.text 7 w.toNat, c ≠ '\n' := by
  intro c hc hn
  obtain ⟨d,hd⟩ := Hex.value_of_mem_text (k := 7) w.isLt hc
  subst hn
  simp [Hex.value] at hd

theorem find_keyword (cs : List Char) :
    find ("Chipselect3 : ".toList ++ cs) "Chipselect3".toList 0 = 0 := by
  rfl

theorem find_colon (cs : List Char) : find ("Chipselect3 : ".toList ++ cs) [':',' '] 11 = 12 := by
  rfl

/-- The panel finds the number in the first line of `/proc/cs3`. -/
theorem getValueFromString_read (w : BitVec 32) :
    getValueFromString (procCs3Read w) "Chipselect3".toList 2 = some (Hex.text 7 w.toNat) := by
  have hlen : (Hex.text 7 w.toNat).length ≤ 8 := by
    simpa [Hex.text] using Hex.length_digits 7 w.toNat
  obtain ⟨rest,hrest⟩ : ∃ rest, procCs3Read w =
      "Chipselect3 : ".toList ++ (Hex.text 7 w.toNat ++ '\n' :: rest) := ⟨_,rfl⟩
  have hend : find (procCs3Read w) ['\n'] 14 = 14 + (Hex.text 7 w.toNat).length := by
    rw [hrest,find,if_neg (by simp)]
    simp [findFrom_newline (text_ne_newline w)]
  have hpos : find (procCs3Read w) "Chipselect3".toList 0 = 0 := hrest ▸ find_keyword _
  have hstart : find (procCs3Read w) [':',' '] 11 = 12 := hrest ▸ find_colon _
  have h11 : u32 (0 + "Chipselect3".toList.length) = 11 := rfl
  have h14 : u32 (12 + 2) = 14 := rfl
  simp only [getValueFromString,hpos,h11,hstart,h14,hend]
  have hn : sub32 (sub32 (14 + (Hex.text 7 w.toNat).length) 12) 2 =
      (Hex.text 7 w.toNat).length := by
    rw [sub32_of_le (b := 12) (by omega) (by omega),sub32_of_le (by omega) (by omega)]
    omega
  rw [if_neg (by decide),hn,substr,if_neg (by rw [hrest]; simp),hrest]
  simp

theorem magnitude_text (w : BitVec 32) : magnitude (Hex.text 7 w.toNat) = w.toNat := by
  have hr : Hex.read _ 16 0 (Hex.text 7 w.toNat ++ []) = w.toNat :=
    Hex.read_text (k := 7) w.isLt (by simp)
  rw [append_nil] at hr
  have hx : ∀ x ∈ Hex.text 7 w.toNat, x ≠ 'x' ∧ x ≠ 'X' := by
    intro x hmem
    obtain ⟨d,hd⟩ := Hex.value_of_mem_text (k := 7) w.isLt hmem
    constructor <;> rintro rfl <;> simp [Hex.value] at hd
  unfold magnitude
  split
  · simp_all
  · simp_all
  · exact hr

/-- A register value below `LONG_MAX` comes through `%x` and `strtol` unchanged. -/
theorem strtol_text (hw : w.toNat < 2 ^ 31) : strtol (Hex.text 7 w.toNat) = w := by
  obtain ⟨c,cs,hcs⟩ : ∃ c cs, Hex.text 7 w.toNat = c :: cs :=
    exists_cons_of_ne_nil (by simpa [Hex.text] using Hex.digits_ne_nil 7 w.toNat)
  have hmem : c ∈ Hex.text 7 w.toNat := by simp [hcs]
  obtain ⟨d,hd⟩ := Hex.value_of_mem_text (k := 7) w.isLt hmem
  have h48 := Hex.toNat_of_value hd
  have hspace : isSpace c = false := by
    simp only [isSpace,Bool.or_eq_false_iff,Bool.and_eq_false_iff,decide_eq_false_iff_not]
    omega
  have hdrop : (Hex.text 7 w.toNat).dropWhile isSpace = Hex.text 7 w.toNat := by
    rw [hcs,dropWhile_cons_of_neg (by simp [hspace])]
  unfold strtol
  rw [hdrop]
  -- a digit is neither a minus nor a plus sign
  split
  · next cs' hm =>
    rw [hcs] at hm
    cases hm
    exact absurd h48 (by decide)
  · next cs' hp =>
    rw [hcs] at hp
    cases hp
    exact absurd h48 (by decide)
  · rw [magnitude_text,min_eq_left (by omega),BitVec.ofNat_toNat,BitVec.setWidth_eq]

end

section

theorem getLsbD_put {j : ℕ} (hj : j < 32) (value : BitVec 32) (on : Bool) (i : ℕ) :
    (put value (BitVec.twoPow 32 j) on).getLsbD i = if i = j then on else value.getLsbD i := by
  unfold put
  by_cases hij : i = j
  · subst hij
    cases on <;> simp [hj]
  · have hji : ¬j = i := fun h => hij h.symm
    grind

theorem getLsbD_newValue (cs3Value : BitVec 32) (boxes : Box → Bool) (i : ℕ) :
    (newValue cs3Value boxes).getLsbD i =
      if i = 13 then boxes .irdaMode else if i = 10 then boxes .rs232
      else if i = 9 then !boxes .enIrda else if i = 8 then boxes .dect
      else cs3Value.getLsbD i := by
  have hd : DECT_POWER_ON = BitVec.twoPow 32 8 := rfl
  have hs : IRDA_SD = BitVec.twoPow 32 9 := rfl
  have hr : RS232_ON = BitVec.twoPow 32 10 := rfl
  have hm : IRDA_MODE = BitVec.twoPow 32 13 := rfl
  simp only [newValue,hd,hs,hr,hm]
  rw [getLsbD_put (by decide),getLsbD_put (by decide),getLsbD_put (by decide),
    getLsbD_put (by decide)]

def Box.mark : Box → Bool → Bool
  | .enIrda, on => !on
  | _, on => on

theorem shows_eq (v : BitVec 32) (b : Box) : b.shows v = b.mark (v.getLsbD b.bit) := by
  have hb : ∀ i, i < 32 → decide (Has v (BitVec.twoPow 32 i)) = v.getLsbD i := by
    intro i hi
    rw [Bool.eq_iff_iff,decide_eq_true_iff,has_twoPow hi]
  cases b with
  | dect => exact hb 8 (by decide)
  | enIrda =>
    show decide (¬Has v IRDA_SD) = !v.getLsbD 9
    rw [decide_not]
    exact congrArg _ (hb 9 (by decide))
  | rs232 => exact hb 10 (by decide)
  | greenLed => exact hb 12 (by decide)
  | irdaMode => exact hb 13 (by decide)

def Sixteen (w : BitVec 32) : Prop := ∀ i, 16 ≤ i → w.getLsbD i = false

theorem Sixteen.toNat_lt (h : Sixteen w) : w.toNat < 2 ^ 31 :=
  lt_of_lt_of_le (Nat.lt_pow_two_of_testBit w.toNat h) (by decide)

theorem sixteen_of_lt (h : w.toNat < 2 ^ 16) : Sixteen w := by
  intro i hi
  exact Nat.testBit_lt_two_pow (lt_of_lt_of_le h (Nat.pow_le_pow_right (by decide) hi))

theorem Sixteen.call {l : Latch} {c : Call} (h : Sixteen l.shadow) (hc : c.value.toNat < 2 ^ 16) :
    Sixteen (l.call c).shadow := by
  intro i hi
  have hl := h i hi
  have hv := sixteen_of_lt hc i hi
  cases c with
  | set value =>
    show (l.shadow ||| value).getLsbD i = false
    rw [BitVec.getLsbD_or,hl,show value.getLsbD i = false from hv]
    rfl
  | clear value =>
    show (l.shadow &&& ~~~value).getLsbD i = false
    rw [BitVec.getLsbD_and,hl]
    rfl

theorem Sixteen.newValue (h : Sixteen v) (boxes : Box → Bool) : Sixteen (newValue v boxes) := by
  intro i hi
  rw [getLsbD_newValue,if_neg (by omega),if_neg (by omega),if_neg (by omega),if_neg (by omega)]
  exact h i hi

end

structure State.Inv (s : State) : Prop where
  shadow : Sixteen s.latch.shadow
  sixteen : ∀ v ∈ s.cs3Value, Sixteen v
  value : ∀ v ∈ s.cs3Value, ∀ i, s.toggledBit i = false → v.getLsbD i = s.atRead.getLsbD i
  boxes : s.cs3Value.isSome → ∀ b, s.toggled b = false →
    s.boxes b = b.mark (s.atRead.getLsbD b.bit)

theorem toggledBit_bit (s : State) (b : Box) : s.toggledBit b.bit = s.toggled b := by
  cases b <;> simp [State.toggledBit,Box.bit]

theorem State.Inv.newValue (h : s.Inv) (hv : s.cs3Value = some v) {i : ℕ}
    (hi : s.toggledBit i = false) : (newValue v s.boxes).getLsbD i = s.atRead.getLsbD i := by
  have hbox : ∀ b : Box, i = b.bit → s.boxes b = b.mark (s.atRead.getLsbD i) := by
    intro b hb
    subst hb
    exact h.boxes (by rw [hv]; rfl) b (by rw [← toggledBit_bit]; exact hi)
  rw [getLsbD_newValue]
  split_ifs with h13 h10 h9 h8
  · exact hbox .irdaMode h13
  · exact hbox .rs232 h10
  · rw [hbox .enIrda h9]
    exact Bool.not_not _
  · exact hbox .dect h8
  · exact h.value v hv i hi

theorem inv_boot : State.boot.Inv where
  shadow := sixteen_of_lt (by decide)
  sixteen := by intro v hv; cases hv
  value := by intro v hv; cases hv
  boxes := by intro h; cases h

theorem updateCS3Tab_eq (h : Sixteen s.latch.shadow) :
    s.updateCS3Tab = some { s with
      cs3Value := some s.latch.shadow
      boxes := Box.shows s.latch.shadow
      toggled := fun _ => false
      atRead := s.latch.shadow } := by
  rw [State.updateCS3Tab,getValueFromString_read,Option.map_some,strtol_text h.toNat_lt]

theorem setCS3Value_shadow {t : State} (h : s.setCS3Value = some t) :
    ∃ v, s.cs3Value = some v ∧ t.latch.shadow = newValue v s.boxes ∧
      t.cs3Value = some (newValue v s.boxes) ∧ t.boxes = s.boxes ∧ t.toggled = s.toggled ∧
      t.atRead = s.atRead := by
  obtain ⟨v,hv,rfl⟩ := Option.map_eq_some_iff.mp h
  exact ⟨v,hv,simpleStrtoul_text _ (by simp [Hex.value]),rfl,rfl,rfl,rfl⟩

theorem toggledBit_update {b : Box} {f : Box → Bool} {i : ℕ}
    (h : ({ s with boxes := f, toggled := update s.toggled b true } : State).toggledBit i =
      false) : s.toggledBit i = false := by
  simp only [State.toggledBit,any_eq_false,Bool.not_eq_true] at h ⊢
  intro c hc
  have := h c hc
  grind

theorem State.Inv.step {t : State} {a : Action} (h : s.Inv) (hs : step s a = some t) : t.Inv := by
  cases a with
  | updateCS3Tab =>
    simp only [ControlPanel.step,updateCS3Tab_eq h.shadow] at hs
    cases hs
    refine ⟨h.shadow,?_,?_,?_⟩
    · rintro v ⟨⟩
      exact h.shadow
    · rintro v ⟨⟩ i -
      rfl
    · intro _ b _
      exact shows_eq _ b
  | toggle b =>
    simp only [ControlPanel.step,Option.ite_none_right_eq_some,Option.some.injEq] at hs
    obtain ⟨hsome,rfl⟩ := hs
    refine ⟨h.shadow,h.sixteen,fun v hv i hi => h.value v hv i (toggledBit_update hi),?_⟩
    intro _ c hc
    have hcb : c ≠ b := by
      grind
    simp only [update_of_ne hcb] at hc ⊢
    exact h.boxes hsome c hc
  | setCS3Value =>
    obtain ⟨v,hv,hsh,hcs,hb,ht,hat⟩ := setCS3Value_shadow hs
    have hnew := (h.sixteen v hv).newValue s.boxes
    have htb : ∀ i, t.toggledBit i = s.toggledBit i := fun i => by
      simp only [State.toggledBit,ht]
    constructor
    · rw [hsh]
      exact hnew
    · grind
    · intro w hw i hi
      rw [hcs] at hw
      cases hw
      rw [hat]
      exact h.newValue hv (htb i ▸ hi)
    · intro _ b hb'
      rw [hb,hat]
      exact h.boxes (by rw [hv]; rfl) b (ht ▸ hb')
  | kernel c =>
    simp only [ControlPanel.step,Option.ite_none_right_eq_some,Option.some.injEq] at hs
    obtain ⟨hc,rfl⟩ := hs
    exact ⟨h.shadow.call hc,h.sixteen,h.value,h.boxes⟩

/-- A write leaves every bit whose box was not toggled as the kernel last gave it exactly if each of
them had that value when the tab was read. -/
theorem write_kept_iff {as : List Action} {s t : State} (hr : run step .boot as = some s)
    (hw : step s .setCS3Value = some t) :
    s.Kept t ↔ ∀ i, s.toggledBit i = false → s.atRead.getLsbD i = s.given i := by
  have hinv : s.Inv := invariant_of_step step (fun _ _ _ => State.Inv.step) inv_boot hr
  obtain ⟨v,hv,hsh,-⟩ := setCS3Value_shadow hw
  refine forall₂_congr fun i hi => ?_
  rw [hsh,hinv.newValue hv hi]

def State.shown : State :=
  ⟨.mapIo,some Latch.mapIo.shadow,Box.shows Latch.mapIo.shadow,fun _ => false,
    Latch.mapIo.shadow,Latch.mapIo.shadow.getLsbD⟩

theorem step_shown : step .boot .updateCS3Tab = some .shown := updateCS3Tab_eq inv_boot.shadow

/-- The user switches DECT on and nothing else happens to the register. -/
theorem write_kept_dect :
    ∃ s t, run step .boot [.updateCS3Tab,.toggle .dect] = some s ∧
      step s .setCS3Value = some t ∧ s.Kept t := by
  have hr : run step .boot [.updateCS3Tab,.toggle .dect] =
      some { State.shown with
        boxes := update (Box.shows Latch.mapIo.shadow) .dect
          (!Box.shows Latch.mapIo.shadow .dect)
        toggled := update (fun _ => false) .dect true } := by
    rw [run,step_shown]
    rfl
  exact ⟨_,_,hr,rfl,(write_kept_iff hr rfl).mpr fun _ _ => rfl⟩

/-- The kernel switches RS232 off between the read and the write; the write switches it back on,
although the user only toggled DECT. -/
theorem write_reverts_rs232 :
    ∃ s t, run step .boot [.updateCS3Tab,.kernel (.clear RS232_ON),.toggle .dect] = some s ∧
      step s .setCS3Value = some t ∧ s.toggledBit 10 = false ∧ s.given 10 = false ∧
      t.latch.shadow.getLsbD 10 = true := by
  obtain ⟨s,hs,htog,hgiven,hat,hsome⟩ :
      ∃ s, run step .shown [.kernel (.clear RS232_ON),.toggle .dect] = some s ∧
        s.toggledBit 10 = false ∧ s.given 10 = false ∧ s.atRead = Latch.mapIo.shadow ∧
        s.cs3Value.isSome := ⟨_,rfl,by decide,by decide,rfl,rfl⟩
  have hr : run step .boot [.updateCS3Tab,.kernel (.clear RS232_ON),.toggle .dect] =
      some s := by
    rw [run,step_shown]
    exact hs
  have hinv : s.Inv := invariant_of_step step (fun _ _ _ => State.Inv.step) inv_boot hr
  obtain ⟨v,hv⟩ := Option.isSome_iff_exists.mp hsome
  obtain ⟨t,ht⟩ : ∃ t, s.setCS3Value = some t := ⟨_,by rw [State.setCS3Value,hv]; rfl⟩
  obtain ⟨w,hw,hsh,-⟩ := setCS3Value_shadow ht
  refine ⟨s,t,hr,ht,htog,hgiven,?_⟩
  rw [hsh,hinv.newValue hw htog,hat]
  decide

end Simpad.ControlPanel
