import Simpad.Drivers.PcmciaTiming

namespace Simpad.PcmciaTiming
open Word List

def fieldPos (p : Fin 2 × Kind) : ℕ := p.2.shift + socketShift p.1

def InField (p : Fin 2 × Kind) (i : ℕ) : Prop := fieldPos p ≤ i ∧ i < fieldPos p + 5

def topField : Fin 2 × Kind := (Fin.last 1,.mem)

/-- Only the fields of the list are changed, and each gives a command of the width asked for. -/
structure Encodes (l : List (Fin 2 × Kind)) (speed : Fin 2 × Kind → ℕ) (clock : ℕ)
    (mecr mecr' : BitVec 32) : Prop where
  only : ∀ i, (∀ p ∈ l, ¬InField p i) → mecr'.getLsbD i = mecr.getLsbD i
  wide : ∀ p ∈ l, WideEnough (mecrGet mecr' p.1 p.2).toNat (speed p) clock

inductive Call
  | setIoMap (sock : Fin 2) (map : ℕ) (flags : BitVec 8) (speed : BitVec 16)
  | setMemMap (sock : Fin 2) (map : ℕ) (flags : BitVec 8) (speed : BitVec 16)
  | updateMecr (clock : ℕ)

def State.call (s : State) : Call → State
  | .setIoMap sock map flags speed => s.setIoMap sock map flags speed
  | .setMemMap sock map flags speed => s.setMemMap sock map flags speed
  | .updateMecr clock => s.updateMecr clock

/-- The fields that a call is to set; a window that is not active or out of range has none. -/
def Call.fields : Call → List (Fin 2 × Kind)
  | .setIoMap sock map flags _ => if flags.getLsbD 0 ∧ map < 2 then [(sock,.io)] else []
  | .setMemMap sock map flags speed =>
    if flags.getLsbD 0 ∧ map < 4 then [(sock,(Window.mk flags speed 0).kind)] else []
  | .updateMecr _ => PcmciaTiming.fields

def State.request (s : State) : Call → Fin 2 × Kind → ℕ
  | .setIoMap _ _ _ speed, _ => ioSpeed speed
  | .setMemMap sock _ _ speed, _ => memSpeed (s.socket sock).vcc speed
  | .updateMecr _, p => (s.socket p.1).speed p.2

def State.clockOf (s : State) : Call → ℕ
  | .updateMecr clock => clock
  | _ => s.clock

theorem mecrBs_le (speed clock : ℕ) : mecrBs speed clock ≤ 4295 := by
  rw [mecrBs]
  have ht : sub32 (u32 (speed * clock) / 6) 1000000 < 4294967296 := Nat.mod_lt _ (by decide)
  generalize sub32 (u32 (speed * clock) / 6) 1000000 = t at ht ⊢
  split_ifs <;> omega

theorem mecrBs_of_lt {speed clock : ℕ} (h : speed * clock < 6000000) :
    mecrBs speed clock = 4294 ∨ mecrBs speed clock = 4295 := by
  rw [mecrBs]
  generalize speed * clock = p at h ⊢
  have hone : u32 1000000 = 1000000 := u32_of_lt (by decide)
  have hsub : u32 (p / 6 + 4294967296 - 1000000) = p / 6 + 4294967296 - 1000000 :=
    u32_of_lt (by omega)
  rw [u32_of_lt (by omega),sub32,hone,hsub]
  split_ifs <;> omega

theorem wide_iff (speed clock : ℕ) :
    WideEnough (mecrBs speed clock % 32) speed clock ↔ Fits speed clock ∨ speed * clock < 6000000 := by
  by_cases hlt : speed * clock < 6000000
  · refine iff_of_true ?_ (.inr hlt)
    rw [WideEnough]
    obtain hb | hb := mecrBs_of_lt hlt <;> rw [hb] <;> omega
  · by_cases hhi : speed * clock ≤ 192000000
    · rw [or_iff_left hlt,Fits,WideEnough,mecrBs]
      generalize speed * clock = p at hlt hhi ⊢
      rw [u32_of_lt (by omega),sub32_of_le (by omega) (by omega)]
      split_ifs <;> omega
    · refine iff_of_false (fun h => ?_) ?_
      · rw [WideEnough] at h
        have := Nat.mod_lt (mecrBs speed clock) (show 32 > 0 by decide)
        omega
      · rintro (⟨-,h,-⟩ | h)
        · exact hhi h
        · exact hlt h

theorem mecrTime_eq (mecr : BitVec 32) (p : Fin 2 × Kind) (speed clock : ℕ) :
    mecrTime mecr p.1 p.2 speed clock =
      Bitfield.set mecr (fieldPos p) 5 (BitVec.ofNat 32 (mecrBs speed clock)) := rfl

theorem mecrGet_eq (mecr : BitVec 32) (p : Fin 2 × Kind) :
    mecrGet mecr p.1 p.2 = Bitfield.get mecr (fieldPos p) 5 := rfl

theorem toNat_ofNat_mecrBs (speed clock : ℕ) :
    (BitVec.ofNat 32 (mecrBs speed clock)).toNat = mecrBs speed clock := by
  rw [BitVec.toNat_ofNat]
  exact Nat.mod_eq_of_lt (lt_of_le_of_lt (mecrBs_le speed clock) (by decide))

theorem fieldPos_le (p : Fin 2 × Kind) : fieldPos p + 5 ≤ 32 := by
  obtain ⟨sock,k⟩ := p
  cases k <;> revert sock <;> decide

theorem fieldPos_lt {p : Fin 2 × Kind} (hp : p ≠ topField) : fieldPos p + 6 < 32 := by
  revert hp
  obtain ⟨sock,k⟩ := p
  cases k <;> revert sock <;> decide

theorem toNat_mecrTime (mecr : BitVec 32) (p : Fin 2 × Kind) (speed clock : ℕ) :
    (mecrGet (mecrTime mecr p.1 p.2 speed clock) p.1 p.2).toNat = mecrBs speed clock % 32 := by
  rw [mecrGet_eq,mecrTime_eq,Bitfield.toNat_get_set _ _ (fieldPos_le p),toNat_ofNat_mecrBs]
  rfl

theorem getLsbD_mecrTime (mecr : BitVec 32) {p : Fin 2 × Kind} (speed clock : ℕ) {i : ℕ} (hi : i < 32)
    (hp : ¬InField p i) :
    (mecrTime mecr p.1 p.2 speed clock).getLsbD i =
      (mecr.getLsbD i || decide (fieldPos p ≤ i) && (mecrBs speed clock).testBit (i - fieldPos p)) := by
  have hv : ∀ j, (BitVec.ofNat 32 (mecrBs speed clock)).getLsbD j = (mecrBs speed clock).testBit j :=
    fun j => congrArg (Nat.testBit · j) (toNat_ofNat_mecrBs speed clock)
  have hf : (decide (fieldPos p ≤ i) && decide (i < fieldPos p + 5)) = false := by
    rw [← Bool.decide_and]
    exact decide_eq_false hp
  rw [mecrTime_eq,Bitfield.getLsbD_set _ _ _ _ hi,hv,hf,Bool.not_false,Bool.and_true]

theorem testBit_of_fits {speed clock : ℕ} (h : Fits speed clock) {i : ℕ} (hi : 5 ≤ i) :
    (mecrBs speed clock).testBit i = false :=
  Nat.testBit_lt_two_pow
    (lt_of_lt_of_le h.mecrBs.1 (Nat.pow_le_pow_right (show 0 < 2 by decide) hi))

theorem testBit_of_lt {speed clock : ℕ} (h : speed * clock < 6000000) {i : ℕ} (hi : 5 ≤ i) :
    (mecrBs speed clock).testBit i = decide (i = 6 ∨ i = 7 ∨ i = 12) := by
  by_cases h13 : 13 ≤ i
  · rw [decide_eq_false (by omega)]
    exact Nat.testBit_lt_two_pow (lt_of_le_of_lt (mecrBs_le speed clock)
      (lt_of_lt_of_le (by decide : 4295 < 2 ^ 13)
        (Nat.pow_le_pow_right (show 0 < 2 by decide) h13)))
  · obtain hb | hb := mecrBs_of_lt h <;> rw [hb] <;> interval_cases i <;> decide

/-- One field is set as it should be, whatever the register held, just if the value fits; a wrapped
value also does where what spills is shifted out of the register. -/
theorem encodes_one (p : Fin 2 × Kind) (speed clock : ℕ) :
    (∀ mecr, Encodes [p] (fun _ => speed) clock mecr (mecrTime mecr p.1 p.2 speed clock)) ↔
      Fits speed clock ∨ (p = topField ∧ speed * clock < 6000000) := by
  constructor
  · intro h
    have hwide := (h 0).wide p (mem_singleton_self p)
    rw [toNat_mecrTime,wide_iff] at hwide
    refine hwide.imp_right fun hlt => ⟨?_,hlt⟩
    -- bit 6 of the wrapped value is above the field
    by_contra hp
    have hpos := fieldPos_lt hp
    have hout : ¬InField p (fieldPos p + 6) := fun hin => by
      have := hin.2
      omega
    have hbit := (h 0).only (fieldPos p + 6) (by simpa using hout)
    rw [getLsbD_mecrTime 0 speed clock hpos hout,Nat.add_sub_cancel_left,
      testBit_of_lt hlt (by decide)] at hbit
    simp at hbit
  · intro h mecr
    refine ⟨fun i hi => ?_,fun q hq => ?_⟩
    · have hout := hi p (mem_singleton_self p)
      by_cases h32 : i < 32
      · rw [getLsbD_mecrTime mecr speed clock h32 hout]
        by_cases hle : fieldPos p ≤ i
        · have h5 : 5 ≤ i - fieldPos p := by
            have : ¬i < fieldPos p + 5 := fun hlt => hout ⟨hle,hlt⟩
            omega
          obtain hfit | ⟨rfl,hlt⟩ := h
          · rw [testBit_of_fits hfit h5,Bool.and_false,Bool.or_false]
          · have hpos : fieldPos topField = 26 := rfl
            have hno : ¬(i - fieldPos topField = 6 ∨ i - fieldPos topField = 7 ∨
                i - fieldPos topField = 12) := by omega
            rw [testBit_of_lt hlt h5,decide_eq_false hno,Bool.and_false,Bool.or_false]
        · rw [decide_eq_false hle,Bool.false_and,Bool.or_false]
      · rw [BitVec.getLsbD_of_ge _ i (by omega),BitVec.getLsbD_of_ge _ i (by omega)]
    · obtain rfl := mem_singleton.mp hq
      rw [toNat_mecrTime,wide_iff]
      exact h.imp_right And.right

section
variable (f : Fin 2 × Kind → ℕ) (clock : ℕ)

/-- `sa1100_pcmcia_update_mecr` over the fields of a list. -/
def timeAll (l : List (Fin 2 × Kind)) (mecr : BitVec 32) : BitVec 32 :=
  l.foldl (fun m p => mecrTime m p.1 p.2 (f p) clock) mecr

theorem get_timeAll_of_le {l : List (Fin 2 × Kind)} {q : Fin 2 × Kind}
    (h : ∀ p ∈ l, fieldPos q + 5 ≤ fieldPos p) (mecr : BitVec 32) :
    mecrGet (timeAll f clock l mecr) q.1 q.2 = mecrGet mecr q.1 q.2 := by
  induction l generalizing mecr with
  | nil => rfl
  | cons p l ih =>
    rw [timeAll,foldl_cons,← timeAll,ih fun p' hp' => h p' (mem_cons_of_mem p hp'),
      mecrGet_eq,mecrGet_eq,mecrTime_eq,
      Bitfield.get_set_of_le _ _ (h p mem_cons_self)]

theorem toNat_timeAll {l : List (Fin 2 × Kind)}
    (hl : l.Pairwise fun p q => fieldPos p + 5 ≤ fieldPos q) {q : Fin 2 × Kind} (hq : q ∈ l)
    (mecr : BitVec 32) :
    (mecrGet (timeAll f clock l mecr) q.1 q.2).toNat = mecrBs (f q) clock % 32 := by
  induction l generalizing mecr with
  | nil => cases hq
  | cons p l ih =>
    obtain ⟨hp,hl⟩ := pairwise_cons.mp hl
    rw [timeAll,foldl_cons,← timeAll]
    obtain rfl | hq := mem_cons.mp hq
    · rw [get_timeAll_of_le f clock hp,toNat_mecrTime]
    · exact ih hl hq _

theorem getLsbD_timeAll {l : List (Fin 2 × Kind)} {i : ℕ} (hi : i < 32)
    (h : ∀ p ∈ l, ¬InField p i ∧
      (fieldPos p ≤ i → (mecrBs (f p) clock).testBit (i - fieldPos p) = false))
    (mecr : BitVec 32) : (timeAll f clock l mecr).getLsbD i = mecr.getLsbD i := by
  induction l generalizing mecr with
  | nil => rfl
  | cons p l ih =>
    obtain ⟨hout,hbit⟩ := h p mem_cons_self
    rw [timeAll,foldl_cons,← timeAll,ih fun p' hp' => h p' (mem_cons_of_mem p hp'),
      getLsbD_mecrTime mecr (f p) clock hi hout]
    by_cases hle : fieldPos p ≤ i
    · rw [hbit hle,Bool.and_false,Bool.or_false]
    · rw [decide_eq_false hle,Bool.false_and,Bool.or_false]

theorem outside_fields {i : ℕ} (hi : i < 32) (h : ∀ p ∈ fields, ¬InField p i) : i = 15 ∨ i = 31 := by
  have h' : ∀ p ∈ fields, ¬(fieldPos p ≤ i ∧ i < fieldPos p + 5) := h
  revert h'
  interval_cases i <;> decide

/-- What spills is cleared with the next field, and the FAST bits are not met. -/
theorem encodes_fields :
    (∀ mecr, Encodes fields f clock mecr (timeAll f clock fields mecr)) ↔
      ∀ p ∈ fields, Fits (f p) clock ∨ f p * clock < 6000000 := by
  have hsorted : fields.Pairwise fun p q => fieldPos p + 5 ≤ fieldPos q := by decide
  constructor
  · intro h p hp
    have hwide := (h 0).wide p hp
    rwa [toNat_timeAll f clock hsorted hp,wide_iff] at hwide
  · intro h mecr
    refine ⟨fun i hi => ?_,fun p hp => ?_⟩
    · by_cases h32 : i < 32
      · refine getLsbD_timeAll f clock h32 (fun p hp => ⟨hi p hp,fun hle => ?_⟩) mecr
        have h5 : 5 ≤ i - fieldPos p := by
          have : ¬i < fieldPos p + 5 := fun hlt => hi p hp ⟨hle,hlt⟩
          omega
        obtain hfit | hlt := h p hp
        · exact testBit_of_fits hfit h5
        · rw [testBit_of_lt hlt h5]
          have hfast : ∀ p ∈ fields, ∀ i ∈ [15,31], ¬(i - fieldPos p = 6 ∨ i - fieldPos p = 7 ∨
              i - fieldPos p = 12) := by decide
          exact decide_eq_false (hfast p hp i (by simpa using outside_fields h32 hi))
      · rw [BitVec.getLsbD_of_ge _ i (by omega),BitVec.getLsbD_of_ge _ i (by omega)]
    · rw [toNat_timeAll f clock hsorted hp,wide_iff]
      exact h p hp

end

/-- The fields that are set in a register of any contents are those with a value that fits.  Where
what spills is lost, a value that has wrapped also does. -/
def State.Encodable (s : State) (c : Call) : Prop :=
  ∀ p ∈ c.fields, Fits (s.request c p) (s.clockOf c) ∨
    ((p = topField ∨ ∃ clock, c = .updateMecr clock) ∧ s.request c p * s.clockOf c < 6000000)

/-- A call does what it should, whatever MECR held. -/
def State.EncodesAll (s : State) (c : Call) : Prop :=
  ∀ mecr, Encodes c.fields (s.request c) (s.clockOf c) mecr ({ s with mecr := mecr }.call c).mecr

theorem encodesAll_one {s : State} {c : Call} {p : Fin 2 × Kind} {speed : ℕ} (hfields : c.fields = [p])
    (hrequest : s.request c = fun _ => speed) (hclock : s.clockOf c = s.clock)
    (hset : ∀ clock, c ≠ .updateMecr clock)
    (hcall : ∀ mecr, ({ s with mecr := mecr }.call c).mecr = mecrTime mecr p.1 p.2 speed s.clock) :
    s.EncodesAll c ↔ s.Encodable c := by
  have hno : ¬∃ clock, c = .updateMecr clock := fun ⟨clock,hc⟩ => hset clock hc
  rw [State.EncodesAll,State.Encodable,hfields,hrequest,hclock,forall_mem_singleton,
    or_iff_left hno,← encodes_one]
  exact forall_congr' fun mecr => by rw [hcall]

theorem encodesAll_none {s : State} {c : Call} (hfields : c.fields = [])
    (hcall : ∀ mecr, ({ s with mecr := mecr }.call c).mecr = mecr) :
    s.EncodesAll c ↔ s.Encodable c := by
  rw [State.EncodesAll,State.Encodable,hfields]
  refine iff_of_true (fun mecr => ?_) fun p hp => absurd hp not_mem_nil
  rw [hcall]
  exact ⟨fun _ _ => rfl,fun _ hp => absurd hp not_mem_nil⟩

/-- Whatever MECR held, an update changes only the fields it is to set and leaves each wide enough,
just if the values fit. -/
theorem mecr_encoding (s : State) (c : Call) : s.EncodesAll c ↔ s.Encodable c := by
  cases c with
  | setIoMap sock map flags speed =>
    by_cases hc : flags.getLsbD 0 ∧ map < 2
    · refine @encodesAll_one s _ (sock,.io) (ioSpeed speed) (if_pos hc) rfl rfl
        (fun _ => Call.noConfusion) fun mecr => ?_
      simp [State.call,State.setIoMap,hc.1,hc.2,Window.active,State.time]
    · refine encodesAll_none (if_neg hc) fun mecr => ?_
      rw [State.call,State.setIoMap]
      split_ifs with hmap
      · have hoff : flags.getLsbD 0 = false := by simpa [hmap] using hc
        simp only [Window.active,hoff,Bool.false_eq_true,if_false]
      · rfl
  | setMemMap sock map flags speed =>
    by_cases hc : flags.getLsbD 0 ∧ map < 4
    · refine @encodesAll_one s _ (sock,(Window.mk flags speed 0).kind)
        (memSpeed (s.socket sock).vcc speed) (if_pos hc) rfl rfl (fun _ => Call.noConfusion)
        fun mecr => ?_
      simp [State.call,State.setMemMap,hc.1,hc.2,Window.active,State.time,Window.kind,Window.attrib]
    · refine encodesAll_none (if_neg hc) fun mecr => ?_
      rw [State.call,State.setMemMap]
      split_ifs with hmap
      · have hoff : flags.getLsbD 0 = false := by simpa [hmap] using hc
        simp only [Window.active,hoff,Bool.false_eq_true,if_false]
      · rfl
  | updateMecr clock =>
    refine (encodes_fields (fun p => (s.socket p.1).speed p.2) clock).trans ?_
    refine forall₂_congr fun p _ => or_congr_right ?_
    exact (and_iff_right (.inr ⟨clock,rfl⟩)).symm

instance (bs speed clock : ℕ) : Decidable (WideEnough bs speed clock) :=
  inferInstanceAs (Decidable (speed * clock ≤ 6000000 * (bs + 1)))

/-- The clocks of `cclk_frequency_100khz` in kHz. -/
def cclkFrequency : List ℕ :=
  [59000,73700,88500,103200,118000,132700,147500,162200,176900,191700,206400,221200,235900,250700,
    265400,280200]

/-- The I/O window of a slow card at 206.4 MHz: the value 68 sets a bit of the attribute field and
leaves 4 in its own, fifteen bus cycles for 2000 ns. -/
theorem mecr_spills :
    206400 ∈ cclkFrequency ∧
      ((State.init 0#32 206400).setIoMap 0 0 1#8 2000#16).mecr =
        (State.init 0#32 206400).mecr &&& ~~~0x1f#32 ||| 68#32 ∧
      mecrGet ((State.init 0#32 206400).setIoMap 0 0 1#8 2000#16).mecr 0 .attr ≠
        mecrGet (State.init 0#32 206400).mecr 0 .attr ∧
      mecrGet ((State.init 0#32 206400).setIoMap 0 0 1#8 2000#16).mecr 0 .io = 4 ∧
      ¬WideEnough 4 2000 206400 := by
  decide +kernel

end Simpad.PcmciaTiming
