import Simpad.Base.Runs
import Simpad.Board.Cs3

namespace Simpad.PcmciaSocket
open Cs3 List Runs

/-- `struct pcmcia_configure`. -/
structure Configure where
  sock : BitVec 8
  vcc : BitVec 8
  vpp : BitVec 8
  output : Bool
  speaker : Bool
  reset : Bool
  irq : Bool
  deriving DecidableEq

inductive Act
  | cs3 (c : Call)
  /-- the last branch of `configure_socket`, with `configure->irq` -/
  | cardIrq (on : Bool)
  deriving DecidableEq

/-- The end of `simpad_pcmcia_configure_socket`, for a recognized Vcc. -/
def configureFlags (conf : Configure) : List Act :=
  [.cs3 (if conf.reset then .set PCMCIA_RESET else .clear PCMCIA_RESET),
   .cs3 (if conf.output then .clear PCMCIA_BUFF_DIS else .set PCMCIA_BUFF_DIS),
   .cardIrq conf.irq]

/-- `simpad_pcmcia_configure_socket`: its steps and its result. -/
def configureSocket (conf : Configure) : List Act × ℤ :=
  if 1 < conf.sock then ([],-1)
  else if conf.sock = 0 then ([],0)
  else if conf.vcc = 0 then
    (.cs3 (.clear (VCC_3V_EN ||| VCC_5V_EN ||| EN0 ||| EN1)) :: configureFlags conf,0)
  else if conf.vcc = 33 then
    (.cs3 (.clear (VCC_3V_EN ||| EN1)) :: .cs3 (.set (VCC_5V_EN ||| EN0)) ::
      configureFlags conf,0)
  else if conf.vcc = 50 then
    (.cs3 (.clear (VCC_5V_EN ||| EN1)) :: .cs3 (.set (VCC_3V_EN ||| EN0)) ::
      configureFlags conf,0)
  else ([.cs3 (.clear (VCC_3V_EN ||| VCC_5V_EN ||| EN0 ||| EN1))],-1)

/-- The operations of `simpad_pcmcia_ops` that touch CS3. -/
inductive Op
  | init
  | configure (conf : Configure)
  | suspend (sock : ℕ)
  | shutdown
  deriving DecidableEq

def Op.acts : Op → List Act
  | .init => [.cs3 (.clear (VCC_3V_EN ||| VCC_5V_EN ||| EN0 ||| EN1))]
  | .configure conf => (configureSocket conf).1
  | .suspend sock => if sock = 1 then [.cs3 (.set PCMCIA_RESET)] else []
  | .shutdown => [.cs3 (.clear PCMCIA_RESET)]

structure State where
  latch : Latch
  /-- `LED_STATE_ENABLED` -/
  led : Bool
  /-- `irq_disabled` of `configure_socket` -/
  irqDisabled : Bool
  /-- the disable depth of `IRQ_GPIO_CF_IRQ` -/
  irqDepth : ℕ
  /-- the operation begun last -/
  op : Option Op
  /-- what is left of it -/
  todo : List Act
  deriving DecidableEq

def State.boot : State := ⟨.mapIo,false,false,0,none,[]⟩

/-- `enable_irq` at depth zero only complains. -/
def State.act (s : State) : Act → State
  | .cs3 c => { s with latch := s.latch.call c }
  | .cardIrq true => { s with irqDepth := s.irqDepth - 1, irqDisabled := false }
  | .cardIrq false =>
    if s.irqDisabled then s else { s with irqDepth := s.irqDepth + 1, irqDisabled := true }

def State.user (s : State) (u : User) : State :=
  { s with latch := ((u.call s.led).elim s.latch s.latch.call), led := u.led s.led }

inductive Action
  | begin (op : Op)
  | next
  | user (u : User)
  deriving DecidableEq

/-- An operation begins when the one before it has returned. -/
def step (s : State) : Action → Option State
  | .begin op => if s.todo = [] then some { s with op := some op, todo := op.acts } else none
  | .next =>
    match s.todo with
    | [] => none
    | a :: todo => some ({ s with todo := todo }.act a)
  | .user u => some (s.user u)

def pcmciaBits : BitVec 32 :=
  VCC_5V_EN ||| VCC_3V_EN ||| EN1 ||| EN0 ||| PCMCIA_BUFF_DIS ||| PCMCIA_RESET

def OneSupply (w : BitVec 32) : Prop := ¬(Has w VCC_3V_EN ∧ Has w VCC_5V_EN)

instance (w : BitVec 32) : Decidable (OneSupply w) := inferInstanceAs (Decidable (¬_))

def State.onlyUsers (s : State) : Action → State
  | .user u => s.user u
  | _ => s

def Act.on (l : Latch) : Act → Latch
  | .cs3 c => l.call c
  | .cardIrq _ => l

theorem act_latch (s : State) (a : Act) : (s.act a).latch = a.on s.latch := by
  cases a with
  | cs3 c => rfl
  | cardIrq on =>
    cases on with
    | true => rfl
    | false => simp only [State.act,Act.on]; split_ifs <;> rfl

def supplyBits : BitVec 32 := VCC_3V_EN ||| VCC_5V_EN

/-- Every value still to be written switches at most one supply on. -/
def Safe : Latch → List Act → Prop
  | l, [] => OneSupply l.shadow
  | l, a :: as => OneSupply l.shadow ∧ Safe (a.on l) as

variable {a : Act} {l : Latch} {s : State} {as : List Act}

section
variable {l l' : Latch} (h : l.shadow &&& supplyBits = l'.shadow &&& supplyBits)
include h

theorem OneSupply.congr (ho : OneSupply l.shadow) : OneSupply l'.shadow := by
  rintro ⟨h3,h5⟩
  exact ho ⟨(has_congr h rfl).mpr h3,(has_congr h rfl).mpr h5⟩

theorem Act.on_congr (a : Act) :
    (a.on l).shadow &&& supplyBits = (a.on l').shadow &&& supplyBits := by
  cases a with
  | cs3 c => exact call_and_congr h c
  | cardIrq => exact h

theorem foldl_on_congr (as : List Act) :
    (as.foldl Act.on l).shadow &&& supplyBits = (as.foldl Act.on l').shadow &&& supplyBits := by
  induction as generalizing l l' with
  | nil => exact h
  | cons a as ih => exact ih (a.on_congr h)

theorem Safe.congr (hs : Safe l as) : Safe l' as := by
  induction as generalizing l l' with
  | nil => exact OneSupply.congr h hs
  | cons a as ih => exact ⟨OneSupply.congr h hs.1,ih (a.on_congr h) hs.2⟩

end

theorem Safe.now (h : Safe l as) : OneSupply l.shadow := by
  cases as with
  | nil => exact h
  | cons => exact h.1

def Act.Quiet (a : Act) : Prop := ∀ l, (a.on l).shadow &&& supplyBits = l.shadow &&& supplyBits

theorem quiet_cs3 {c : Call} (h : c.value &&& supplyBits = 0#32) : (Act.cs3 c).Quiet :=
  fun l => call_and_of_disjoint h l

theorem quiet_cardIrq (on : Bool) : (Act.cardIrq on).Quiet := fun _ => rfl

theorem configureFlags_quiet (conf : Configure) : ∀ a ∈ configureFlags conf, a.Quiet := by
  intro a ha
  simp only [configureFlags,mem_cons,not_mem_nil,or_false] at ha
  rcases ha with rfl|rfl|rfl
  · exact quiet_cs3 (by split_ifs <;> rfl)
  · exact quiet_cs3 (by split_ifs <;> rfl)
  · exact quiet_cardIrq _

theorem foldl_on_quiet (h : ∀ a ∈ as, a.Quiet) (l : Latch) :
    (as.foldl Act.on l).shadow &&& supplyBits = l.shadow &&& supplyBits := by
  induction as generalizing l with
  | nil => rfl
  | cons a as ih =>
    exact (ih (fun b hb => h b (mem_cons_of_mem a hb)) (a.on l)).trans (h a mem_cons_self l)

theorem safe_of_quiet (h : ∀ a ∈ as, a.Quiet) (ho : OneSupply l.shadow) : Safe l as := by
  induction as generalizing l with
  | nil => exact ho
  | cons a as ih =>
    exact ⟨ho,ih (fun b hb => h b (mem_cons_of_mem a hb))
      (OneSupply.congr (h a mem_cons_self l).symm ho)⟩

theorem oneSupply_clear_3v {m : BitVec 32} (h : ~~~m &&& VCC_3V_EN = 0#32) (l : Latch) :
    OneSupply (l.clearCs3Bit m).shadow :=
  fun hb => not_has_clear h l.shadow hb.1

theorem oneSupply_clear_5v {m : BitVec 32} (h : ~~~m &&& VCC_5V_EN = 0#32) (l : Latch) :
    OneSupply (l.clearCs3Bit m).shadow :=
  fun hb => not_has_clear h l.shadow hb.2

/-- The latch between the supply calls and the flag calls of `configure_socket`. -/
def supplied (l : Latch) (vcc : BitVec 8) : Latch :=
  if vcc = 33 then (l.clearCs3Bit (VCC_3V_EN ||| EN1)).setCs3Bit (VCC_5V_EN ||| EN0)
  else if vcc = 50 then (l.clearCs3Bit (VCC_5V_EN ||| EN1)).setCs3Bit (VCC_3V_EN ||| EN0)
  else l.clearCs3Bit (VCC_3V_EN ||| VCC_5V_EN ||| EN0 ||| EN1)

theorem supplied_5v (l : Latch) (vcc : BitVec 8) :
    Has (supplied l vcc).shadow VCC_5V_EN ↔ vcc = 33 := by
  unfold supplied
  split_ifs with h33 h50
  · exact iff_of_true (has_or.mpr (Or.inr (by decide))) h33
  · refine iff_of_false (fun h => ?_) h33
    exact (has_or.mp h).elim (not_has_clear rfl l.shadow) (by decide)
  · exact iff_of_false (not_has_clear rfl l.shadow) h33

theorem supplied_3v (l : Latch) (vcc : BitVec 8) :
    Has (supplied l vcc).shadow VCC_3V_EN ↔ vcc = 50 := by
  unfold supplied
  split_ifs with h33 h50
  · refine iff_of_false (fun h => ?_) (by rw [h33]; decide)
    exact (has_or.mp h).elim (not_has_clear rfl l.shadow) (by decide)
  · exact iff_of_true (has_or.mpr (Or.inr (by decide))) h50
  · exact iff_of_false (not_has_clear rfl l.shadow) h50

theorem oneSupply_supplied (l : Latch) (vcc : BitVec 8) : OneSupply (supplied l vcc).shadow := by
  rintro ⟨h3,h5⟩
  have h33 := (supplied_5v l vcc).mp h5
  rw [(supplied_3v l vcc).mp h3] at h33
  exact absurd h33 (by decide)

theorem acts_safe (op : Op) (ho : OneSupply l.shadow) : Safe l op.acts := by
  cases op with
  | init => exact ⟨ho,oneSupply_clear_3v rfl l⟩
  | suspend sock =>
    refine safe_of_quiet (fun a ha => ?_) ho
    simp only [Op.acts] at ha
    split_ifs at ha
    · exact mem_singleton.mp ha ▸ quiet_cs3 rfl
    · exact absurd ha not_mem_nil
  | shutdown => exact safe_of_quiet (fun a ha => mem_singleton.mp ha ▸ quiet_cs3 rfl) ho
  | configure conf =>
    have hq := configureFlags_quiet conf
    have hs := oneSupply_supplied l conf.vcc
    unfold supplied at hs
    show Safe l (configureSocket conf).1
    unfold configureSocket
    split_ifs with h1 h0 hz h33 h50
    · exact ho
    · exact ho
    · exact ⟨ho,safe_of_quiet hq (oneSupply_clear_3v rfl l)⟩
    · rw [if_pos h33] at hs
      exact ⟨ho,oneSupply_clear_3v rfl l,safe_of_quiet hq hs⟩
    · rw [if_neg h33,if_pos h50] at hs
      exact ⟨ho,oneSupply_clear_5v rfl l,safe_of_quiet hq hs⟩
    · exact ⟨ho,oneSupply_clear_3v rfl l⟩

/-- The supplies an accepted `configure_socket` of socket 1 switches on.  The two enables cross
over to the switch of the socket, so Vcc 33 turns on `VCC_5V_EN`. -/
def Supplies (vcc : BitVec 8) (w : BitVec 32) : Prop :=
  (Has w VCC_5V_EN ↔ vcc = 33) ∧ (Has w VCC_3V_EN ↔ vcc = 50)

theorem Supplies.congr {vcc : BitVec 8} {w w' : BitVec 32}
    (h : w &&& supplyBits = w' &&& supplyBits) (hs : Supplies vcc w) : Supplies vcc w' :=
  ⟨(has_congr h rfl).symm.trans hs.1,(has_congr h rfl).symm.trans hs.2⟩

theorem configure_supplies {conf : Configure} (h1 : conf.sock = 1)
    (hok : (configureSocket conf).2 = 0) (l : Latch) :
    Supplies conf.vcc ((configureSocket conf).1.foldl Act.on l).shadow := by
  have hs : Supplies conf.vcc (supplied l conf.vcc).shadow :=
    ⟨supplied_5v l conf.vcc,supplied_3v l conf.vcc⟩
  refine Supplies.congr ?_ hs
  have hq := foldl_on_quiet (configureFlags_quiet conf) (supplied l conf.vcc)
  refine hq.symm.trans ?_
  have hgt : ¬1 < conf.sock := by rw [h1]; decide
  have hne : ¬conf.sock = 0 := by rw [h1]; decide
  simp only [configureSocket,if_neg hgt,if_neg hne] at hok ⊢
  by_cases hz : conf.vcc = 0
  · rw [if_pos hz,hz]
    rfl
  · unfold supplied
    split_ifs at hok ⊢ with h33 h50
    · rfl
    · rfl
    · omega

/-- The register has the value of the shadow, and it never had both supplies on. -/
structure Recorded (l : Latch) : Prop where
  last : l.writes.head? = some l.shadow
  one : ∀ w ∈ l.writes, OneSupply w

theorem Recorded.call (h : Recorded l) {c : Call} (ho : OneSupply (l.call c).shadow) :
    Recorded (l.call c) where
  last := by rw [call_writes]; rfl
  one := by
    intro w hw
    rw [call_writes] at hw
    cases hw with
    | head => exact ho
    | tail _ hw => exact h.one w hw

structure State.Sound (s : State) : Prop where
  recorded : Recorded s.latch
  ahead : Safe s.latch s.todo
  supplies : ∀ conf, s.op = some (.configure conf) → conf.sock = 1 →
    (configureSocket conf).2 = 0 → Supplies conf.vcc (s.todo.foldl Act.on s.latch).shadow

theorem sound_boot : State.boot.Sound where
  recorded := ⟨rfl,fun w hw => mem_singleton.mp hw ▸ by decide⟩
  ahead := show OneSupply _ by decide
  supplies := by intro conf h; cases h

theorem act_rest (s : State) (a : Act) :
    (s.act a).todo = s.todo ∧ (s.act a).op = s.op ∧ (s.act a).led = s.led := by
  cases a with
  | cs3 c => exact ⟨rfl,rfl,rfl⟩
  | cardIrq on =>
    cases on with
    | true => exact ⟨rfl,rfl,rfl⟩
    | false => simp only [State.act]; split_ifs <;> exact ⟨rfl,rfl,rfl⟩

theorem Recorded.on (h : Recorded l) (ho : OneSupply (a.on l).shadow) : Recorded (a.on l) := by
  cases a with
  | cs3 c => exact h.call ho
  | cardIrq => exact h

theorem State.Sound.next {todo : List Act} (h : s.Sound) (ht : s.todo = a :: todo) :
    ({ s with todo := todo }.act a).Sound := by
  obtain ⟨htodo,hop,-⟩ := act_rest { s with todo := todo } a
  have hl := act_latch { s with todo := todo } a
  have hsafe := h.ahead
  rw [ht] at hsafe
  constructor
  · rw [hl]
    exact h.recorded.on hsafe.2.now
  · rw [hl,htodo]
    exact hsafe.2
  · intro conf hc h1 hok
    have hs := h.supplies conf (hop ▸ hc) h1 hok
    grind

theorem user_and (s : State) (u : User) :
    (s.user u).latch.shadow &&& pcmciaBits = s.latch.shadow &&& pcmciaBits := by
  show ((u.call s.led).elim s.latch s.latch.call).shadow &&& _ = _
  cases hc : u.call s.led with
  | none => rfl
  | some c =>
    refine call_and_of_disjoint ?_ s.latch
    rw [← User.call_value hc,BitVec.and_assoc,show userBits &&& pcmciaBits = 0#32 from rfl,
      BitVec.and_zero]

theorem State.Sound.user (h : s.Sound) (u : User) : (s.user u).Sound := by
  have hsup : s.latch.shadow &&& supplyBits = (s.user u).latch.shadow &&& supplyBits := by
    rw [show supplyBits = pcmciaBits &&& supplyBits from rfl,← BitVec.and_assoc,
      ← BitVec.and_assoc,user_and]
  constructor
  · have ho := OneSupply.congr hsup h.ahead.now
    simp only [State.user] at ho ⊢
    cases hc : u.call s.led with
    | none => exact h.recorded
    | some c => exact h.recorded.call (by rw [hc] at ho; exact ho)
  · exact h.ahead.congr hsup
  · intro conf hc h1 hok
    exact (h.supplies conf hc h1 hok).congr (foldl_on_congr hsup s.todo)

theorem State.Sound.step {t : State} {a : Action} (h : s.Sound) (hs : step s a = some t) :
    t.Sound := by
  cases a with
  | begin op =>
    simp only [PcmciaSocket.step,Option.ite_none_right_eq_some,Option.some.injEq] at hs
    obtain ⟨-,rfl⟩ := hs
    refine ⟨h.recorded,acts_safe op h.ahead.now,?_⟩
    intro conf hc h1 hok
    cases hc
    exact configure_supplies h1 hok s.latch
  | next =>
    simp only [PcmciaSocket.step] at hs
    split at hs
    · cases hs
    · next a todo ht =>
      cases hs
      exact h.next ht
  | user u =>
    cases hs
    exact h.user u

def Act.Inside : Act → Prop
  | .cs3 c => c.value &&& ~~~pcmciaBits = 0#32
  | .cardIrq _ => True

instance (a : Act) : Decidable a.Inside := by
  cases a with
  | cs3 c => exact inferInstanceAs (Decidable (_ = _))
  | cardIrq => exact inferInstanceAs (Decidable True)

theorem configureFlags_inside (conf : Configure) : ∀ a ∈ configureFlags conf, a.Inside := by
  cases hr : conf.reset <;> cases ho : conf.output <;> simp [configureFlags,hr,ho,Act.Inside] <;>
    decide

theorem acts_inside (op : Op) : ∀ a ∈ op.acts, a.Inside := by
  cases op with
  | init => decide
  | suspend sock =>
    show ∀ a ∈ (if sock = 1 then _ else _), _
    split_ifs <;> decide
  | shutdown => decide
  | configure conf =>
    have hf := configureFlags_inside conf
    show ∀ a ∈ (configureSocket conf).1, _
    unfold configureSocket
    split_ifs
    · simp
    · simp
    · exact forall_mem_cons.mpr ⟨by decide,hf⟩
    · exact forall_mem_cons.mpr ⟨by decide,forall_mem_cons.mpr ⟨by decide,hf⟩⟩
    · exact forall_mem_cons.mpr ⟨by decide,forall_mem_cons.mpr ⟨by decide,hf⟩⟩
    · decide

theorem Act.Inside.outside (h : a.Inside) (l : Latch) :
    (a.on l).shadow &&& ~~~pcmciaBits = l.shadow &&& ~~~pcmciaBits := by
  cases a with
  | cs3 c => exact call_and_of_disjoint h l
  | cardIrq => rfl

/-- `b` is the state of a run in which only the users of `s` moved. -/
structure Shadows (b s : State) : Prop where
  led : b.led = s.led
  outside : b.latch.shadow &&& ~~~pcmciaBits = s.latch.shadow &&& ~~~pcmciaBits
  inside : ∀ a ∈ s.todo, a.Inside

theorem Shadows.step {b t : State} {a : Action} (h : Shadows b s) (hs : step s a = some t) :
    Shadows (b.onlyUsers a) t := by
  cases a with
  | begin op =>
    simp only [PcmciaSocket.step,Option.ite_none_right_eq_some,Option.some.injEq] at hs
    obtain ⟨-,rfl⟩ := hs
    exact ⟨h.led,h.outside,acts_inside op⟩
  | next =>
    simp only [PcmciaSocket.step] at hs
    split at hs
    · cases hs
    · next a todo ht =>
      cases hs
      obtain ⟨htodo,-,hled⟩ := act_rest { s with todo := todo } a
      have hin := h.inside
      rw [ht] at hin
      refine ⟨h.led.trans hled.symm,?_,?_⟩
      · rw [act_latch,(hin a mem_cons_self).outside]
        exact h.outside
      · grind
  | user u =>
    cases hs
    refine ⟨?_,?_,h.inside⟩
    · show u.led b.led = u.led s.led
      rw [h.led]
    · show ((u.call b.led).elim b.latch b.latch.call).shadow &&& _ =
        ((u.call s.led).elim s.latch s.latch.call).shadow &&& _
      rw [h.led]
      cases u.call s.led with
      | none => exact h.outside
      | some c => exact call_and_congr h.outside c

/-- In every interleaving from boot the register follows the shadow, at most one supply is on in
any value written, an accepted configuration of socket 1 has its own supply on when it returns,
and the bits outside PCMCIA are those the users alone would have left. -/
theorem supply_safety {as : List Action} {s : State} (hr : run step .boot as = some s) :
    s.latch.writes.head? = some s.latch.shadow ∧
      (∀ w ∈ s.latch.writes, OneSupply w) ∧
      (∀ conf, s.op = some (.configure conf) → s.todo = [] → conf.sock = 1 →
        (configureSocket conf).2 = 0 → Supplies conf.vcc s.latch.shadow) ∧
      s.latch.shadow &&& ~~~pcmciaBits =
        (as.foldl State.onlyUsers .boot).latch.shadow &&& ~~~pcmciaBits := by
  have hs : s.Sound := invariant_of_step step (fun _ _ _ => State.Sound.step) sound_boot hr
  have hb : Shadows .boot .boot := ⟨rfl,rfl,fun a ha => absurd ha not_mem_nil⟩
  have hm : Meets step (fun _ _ => True) .boot as := Meets.of_mem step fun _ _ _ => trivial
  have hsh := invariant_fold step (fun _ _ _ _ h _ => h.step) hb hm hr
  refine ⟨hs.recorded.last,hs.recorded.one,?_,hsh.outside.symm⟩
  intro conf hop htodo h1 hok
  have hsup := hs.supplies conf hop h1 hok
  rw [htodo] at hsup
  exact hsup

/-- Socket 1 at 3.3 V while the LED is switched off in between. -/
def interleaved : List Action :=
  [.begin (.configure ⟨1,33,33,true,false,false,true⟩),.next,.user (.ledsEvent .stop),.next,.next,
    .next,.next]

theorem supply_safety_interleaved :
    ∃ s, run step .boot interleaved = some s ∧ s.todo = [] ∧
      Supplies 33 s.latch.shadow ∧ ∀ w ∈ s.latch.writes, OneSupply w := by
  obtain ⟨s,hs⟩ : ∃ s, run step .boot interleaved = some s := ⟨_,rfl⟩
  have h := supply_safety hs
  cases hs
  exact ⟨_,rfl,rfl,h.2.2.1 _ rfl rfl rfl rfl,h.2.1⟩

/-- Vcc 33 switches `VCC_5V_EN` on and not `VCC_3V_EN`, and socket 0 is accepted with any Vcc and
switches nothing. -/
theorem supplies_cross :
    (∃ s, run step .boot interleaved = some s ∧ s.todo = [] ∧
      Has s.latch.shadow VCC_5V_EN ∧ ¬Has s.latch.shadow VCC_3V_EN) ∧
    ∃ s, run step .boot [.begin (.configure ⟨0,33,33,true,false,false,true⟩)] = some s ∧
      (configureSocket ⟨0,33,33,true,false,false,true⟩).2 = 0 ∧ s.todo = [] ∧
      ¬Has s.latch.shadow VCC_3V_EN ∧ ¬Has s.latch.shadow VCC_5V_EN :=
  ⟨⟨_,rfl,rfl,by decide,by decide⟩,⟨_,rfl,rfl,rfl,by decide,by decide⟩⟩

end Simpad.PcmciaSocket
