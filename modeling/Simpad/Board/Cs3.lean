import Simpad.Base.Hex

namespace Simpad.Cs3

def VCC_5V_EN : BitVec 32 := 0x0001#32
def VCC_3V_EN : BitVec 32 := 0x0002#32
def EN1 : BitVec 32 := 0x0004#32
def EN0 : BitVec 32 := 0x0008#32
def DISPLAY_ON : BitVec 32 := 0x0010#32
def PCMCIA_BUFF_DIS : BitVec 32 := 0x0020#32
def PCMCIA_RESET : BitVec 32 := 0x0080#32
def DECT_POWER_ON : BitVec 32 := 0x0100#32
def IRDA_SD : BitVec 32 := 0x0200#32
def RS232_ON : BitVec 32 := 0x0400#32
def LED2_ON : BitVec 32 := 0x1000#32
def IRDA_MODE : BitVec 32 := 0x2000#32
def ENABLE_5V : BitVec 32 := 0x4000#32
def nRESET_SIMCARD : BitVec 32 := 0x8000#32

/-- `cs3_shadow`, and the values written to the register, the latest first. -/
structure Latch where
  shadow : BitVec 32
  writes : List (BitVec 32)
  deriving DecidableEq

def Latch.setCs3 (l : Latch) (value : BitVec 32) : Latch := ⟨value,value :: l.writes⟩

def Latch.setCs3Bit (l : Latch) (value : BitVec 32) : Latch :=
  ⟨l.shadow ||| value,(l.shadow ||| value) :: l.writes⟩

def Latch.clearCs3Bit (l : Latch) (value : BitVec 32) : Latch :=
  ⟨l.shadow &&& ~~~value,(l.shadow &&& ~~~value) :: l.writes⟩

/-- A call of `set_cs3_bit` or `clear_cs3_bit`. -/
inductive Call
  | set (value : BitVec 32)
  | clear (value : BitVec 32)
  deriving DecidableEq

def Call.value : Call → BitVec 32
  | .set value => value
  | .clear value => value

def Latch.call (l : Latch) : Call → Latch
  | .set value => l.setCs3Bit value
  | .clear value => l.clearCs3Bit value

/-- The latch as `simpad_map_io` leaves it at boot. -/
def Latch.mapIo : Latch :=
  Latch.setCs3Bit ⟨0#32,[]⟩
    (EN1 ||| EN0 ||| LED2_ON ||| DISPLAY_ON ||| RS232_ON ||| ENABLE_5V ||| nRESET_SIMCARD)

inductive LedEvent
  | start | stop | claim | release | timer | idleStart | idleEnd | halted
  | greenOn | greenOff | amberOn | amberOff | redOn | redOff
  deriving DecidableEq

/-- What `simpad_leds_event` makes of `LED_STATE_ENABLED`. -/
def LedEvent.enabled (enabled : Bool) : LedEvent → Bool
  | .start => true
  | .stop => false
  | _ => enabled

inductive User
  /-- `simpad_uart_pm`; `ser1` says whether the port is `Ser1UTCR0` -/
  | uartPm (ser1 : Bool) (state : ℕ)
  /-- `mq200_backlight` -/
  | backlight (flag : Bool)
  /-- `simpad_leds_event` -/
  | ledsEvent (evt : LedEvent)
  deriving DecidableEq

/-- `LED_STATE_ENABLED` after the user's call. -/
def User.led (led : Bool) : User → Bool
  | .ledsEvent evt => evt.enabled led
  | _ => led

def User.call (led : Bool) : User → Option Call
  | .uartPm ser1 state =>
    if ser1 then some (if state ≠ 0 then .clear RS232_ON else .set RS232_ON) else none
  | .backlight flag => some (if flag then .set DISPLAY_ON else .clear DISPLAY_ON)
  | .ledsEvent evt => some (if evt.enabled led then .set LED2_ON else .clear LED2_ON)

def userBits : BitVec 32 := DISPLAY_ON ||| RS232_ON ||| LED2_ON

theorem User.call_value {u : User} {led : Bool} {c : Call} (h : u.call led = some c) :
    c.value &&& userBits = c.value := by
  cases u <;> simp only [User.call,Option.some.injEq] at h <;> split_ifs at h <;> cases h <;> rfl

/-- The part of the shadow under `k` after a call comes from the part under `k` before. -/
theorem call_and_congr {l l' : Latch} {k : BitVec 32} (h : l.shadow &&& k = l'.shadow &&& k)
    (c : Call) : (l.call c).shadow &&& k = (l'.call c).shadow &&& k := by
  cases c with
  | set value =>
    show (l.shadow ||| value) &&& k = (l'.shadow ||| value) &&& k
    simp [BitVec.and_or_distrib_right,h]
  | clear value =>
    show (l.shadow &&& ~~~value) &&& k = (l'.shadow &&& ~~~value) &&& k
    grind

theorem call_and_of_disjoint {c : Call} {k : BitVec 32} (h : c.value &&& k = 0#32) (l : Latch) :
    (l.call c).shadow &&& k = l.shadow &&& k := by
  cases c with
  | set value =>
    show (l.shadow ||| value) &&& k = l.shadow &&& k
    rw [BitVec.and_or_distrib_right,show value &&& k = 0#32 from h,BitVec.or_zero]
  | clear value =>
    have hk : ~~~value &&& k = k := by
      ext i hi
      have hi' : (value &&& k)[i] = false := by rw [show value &&& k = 0#32 from h]; simp
      grind
    show (l.shadow &&& ~~~value) &&& k = l.shadow &&& k
    rw [BitVec.and_assoc,hk]

def Has (w bit : BitVec 32) : Prop := w &&& bit ≠ 0#32

instance (w bit : BitVec 32) : Decidable (Has w bit) := inferInstanceAs (Decidable (_ ≠ _))

theorem has_or {w m bit : BitVec 32} : Has (w ||| m) bit ↔ Has w bit ∨ Has m bit := by
  unfold Has
  grind

theorem has_twoPow {i : ℕ} (hi : i < 32) (w : BitVec 32) :
    Has w (BitVec.twoPow 32 i) ↔ w.getLsbD i = true := by
  unfold Has
  rw [BitVec.and_twoPow]
  split_ifs with h
  · refine iff_of_true (fun hz => ?_) h
    have hb := congrArg (fun v => v.getLsbD i) hz
    simp [hi] at hb
  · exact iff_of_false (fun hn => hn rfl) h

theorem not_has_clear {m bit : BitVec 32} (h : ~~~m &&& bit = 0#32) (w : BitVec 32) :
    ¬Has (w &&& ~~~m) bit := by
  unfold Has
  grind

theorem has_congr {w w' k bit : BitVec 32} (h : w &&& k = w' &&& k) (hk : k &&& bit = bit) :
    Has w bit ↔ Has w' bit := by
  unfold Has
  grind

@[simp] theorem call_writes (l : Latch) (c : Call) :
    (l.call c).writes = (l.call c).shadow :: l.writes := by
  cases c <;> rfl

/-- `name`, the bits of CS3 from the lowest. -/
def names : List String :=
  ["VCC_5V_EN","VCC_3V_EN","EN1","EN0","DISPLAY_ON","PCMCIA_BUFF_DIS","MQ_RESET","PCMCIA_RESET",
    "DECT_POWER_ON","IRDA_SD","RS232_ON","SD_MEDIAQ","LED2_ON","IRDA_MODE","ENABLE_5V",
    "RESET_SIMCARD"]

/-- The line of bit `i` in `/proc/cs3`. -/
def bitLine (shadow : BitVec 32) (name : String) (i : ℕ) : List Char :=
  name.toList ++ if shadow.getLsbD i then "\t: TRUE \n".toList else "\t: FALSE \n".toList

/-- `proc_cs3_read`, the text of the whole file. -/
def procCs3Read (shadow : BitVec 32) : List Char :=
  "Chipselect3 : ".toList ++ (Hex.text 7 shadow.toNat ++
    '\n' :: ((names.zipIdx.map fun p => bitLine shadow p.1 p.2).flatten))

/-- The accumulator of `simple_strtoul`. -/
def accumulate (base : ℕ) (result : BitVec 32) (value : ℕ) : BitVec 32 :=
  result * BitVec.ofNat 32 base + BitVec.ofNat 32 value

/-- `simple_strtoul` with base 0. -/
def simpleStrtoul : List Char → BitVec 32
  | '0' :: 'x' :: c :: cs =>
    if (Hex.value c).isSome then Hex.read (accumulate 16) 16 0#32 (c :: cs)
    else Hex.read (accumulate 8) 8 0#32 ('x' :: c :: cs)
  | '0' :: cs => Hex.read (accumulate 8) 8 0#32 cs
  | cs => Hex.read (accumulate 10) 10 0#32 cs

def Latch.procCs3Write (l : Latch) (buffer : List Char) : Latch := l.setCs3 (simpleStrtoul buffer)

theorem foldl_accumulate (ds : List ℕ) :
    ds.foldl (accumulate 16) 0#32 = BitVec.ofNat 32 (ds.foldl (fun a d => a * 16 + d) 0) := by
  refine List.foldl_hom (BitVec.ofNat 32) (fun a d => ?_)
  rw [accumulate,BitVec.ofNat_add,BitVec.ofNat_mul]

/-- A value echoed into `/proc/cs3` with `0x%x` is the value set. -/
theorem simpleStrtoul_text (w : BitVec 32) {rest : List Char}
    (hrest : ∀ c ∈ rest.head?, Hex.value c = none) :
    simpleStrtoul ('0' :: 'x' :: (Hex.text 7 w.toNat ++ rest)) = w := by
  have hw : w.toNat < 16 ^ (7 + 1) := w.isLt
  have hread := Hex.read_map_char (accumulate 16) le_rfl (Hex.digits_lt hw) 0#32 hrest
  rw [foldl_accumulate,Hex.foldl_digits,BitVec.ofNat_toNat,BitVec.setWidth_eq] at hread
  obtain ⟨d,ds,hd⟩ := List.exists_cons_of_ne_nil (Hex.digits_ne_nil 7 w.toNat)
  have hlt : d < 16 := Hex.digits_lt hw d (hd ▸ List.mem_cons_self)
  simp only [Hex.text,hd,List.map_cons,List.cons_append,simpleStrtoul,Hex.value_char hlt,
    Option.isSome_some,if_true] at hread ⊢
  exact hread

end Simpad.Cs3
