import Simpad.Base.Word
import Simpad.Base.Runs
import Simpad.Base.Bitfield

namespace Simpad.PcmciaTiming
open Word Function Runs

inductive Kind
  | io | attr | mem
  deriving DecidableEq

/-- `MECR_BSIO_SHIFT`, `MECR_BSA_SHIFT` and `MECR_BSM_SHIFT`. -/
def Kind.shift : Kind → ℕ
  | .io => 0
  | .attr => 5
  | .mem => 10

/-- `MECR_SOCKET_0_SHIFT` and `MECR_SOCKET_1_SHIFT`. -/
def socketShift (sock : Fin 2) : ℕ := if sock = 0 then 0 else 16

/-- `MECR_SET` for a field of `width` bits. -/
def mecrSet (mecr : BitVec 32) (sock : Fin 2) (shift width : ℕ) (bs : BitVec 32) : BitVec 32 :=
  Bitfield.set mecr (shift + socketShift sock) width bs

/-- `MECR_GET` of a BS field. -/
def mecrGet (mecr : BitVec 32) (sock : Fin 2) (k : Kind) : BitVec 32 :=
  Bitfield.get mecr (k.shift + socketShift sock) 5

def mecrBs (pcmciaCycleNs cpuClockKhz : ℕ) : ℕ :=
  let t := sub32 (u32 (pcmciaCycleNs * cpuClockKhz) / 6) 1000000
  t / 1000000 + if t % 1000000 = 0 then 0 else 1

/-- `MECR_BSIO_SET`, `MECR_BSA_SET` and `MECR_BSM_SET` with the computed value. -/
def mecrTime (mecr : BitVec 32) (sock : Fin 2) (k : Kind) (speed clock : ℕ) : BitVec 32 :=
  mecrSet mecr sock k.shift 5 (BitVec.ofNat 32 (mecrBs speed clock))

def SA1100_PCMCIA_IO_ACCESS : ℕ := 165
def SA1100_PCMCIA_5V_MEM_ACCESS : ℕ := 150
def SA1100_PCMCIA_3V_MEM_ACCESS : ℕ := 300

/-- A window: the flags and the speed it was set with, and the speed it was given. -/
structure Window where
  flags : BitVec 8
  speed : BitVec 16
  need : ℕ

def Window.active (m : Window) : Bool := m.flags.getLsbD 0

def Window.attrib (m : Window) : Bool := m.flags.getLsbD 5

structure Socket where
  vcc : ℕ
  /-- `speed_io`, `speed_attr` and `speed_mem` -/
  speed : Kind → ℕ
  ioMap : Fin 2 → Window
  memMap : Fin 4 → Window

structure Change where
  oldFreq : ℕ
  newFreq : ℕ
  switched : Bool

structure State where
  mecr : BitVec 32
  clock : ℕ
  change : Option Change
  socket : Fin 2 → Socket

def Window.kind (m : Window) : Kind := if m.attrib then .attr else .mem

def State.time (s : State) (sock : Fin 2) (k : Kind) (speed : ℕ) : State :=
  { s with
    mecr := mecrTime s.mecr sock k speed s.clock
    socket := update s.socket sock
      { s.socket sock with speed := update (s.socket sock).speed k speed } }

/-- The speed `set_io_map` takes for a window. -/
def ioSpeed (speed : BitVec 16) : ℕ :=
  if speed = 0 then SA1100_PCMCIA_IO_ACCESS else speed.toNat

/-- The speed `set_mem_map` takes for a window. -/
def memSpeed (vcc : ℕ) (speed : BitVec 16) : ℕ :=
  if speed = 0 then
    if vcc = 33 then SA1100_PCMCIA_3V_MEM_ACCESS else SA1100_PCMCIA_5V_MEM_ACCESS
  else speed.toNat

def State.setIoMap (s : State) (sock : Fin 2) (map : ℕ) (flags : BitVec 8) (speed : BitVec 16) :
    State :=
  if h : map < 2 then
    let m : Window := ⟨flags,speed,ioSpeed speed⟩
    let t := if m.active then s.time sock .io m.need else s
    { t with
      socket := update t.socket sock
        { t.socket sock with ioMap := update (t.socket sock).ioMap ⟨map,h⟩ m } }
  else s

def State.setMemMap (s : State) (sock : Fin 2) (map : ℕ) (flags : BitVec 8) (speed : BitVec 16) :
    State :=
  if h : map < 4 then
    let m : Window := ⟨flags,speed,memSpeed (s.socket sock).vcc speed⟩
    let t := if m.active then s.time sock m.kind m.need else s
    { t with
      socket := update t.socket sock
        { t.socket sock with memMap := update (t.socket sock).memMap ⟨map,h⟩ m } }
  else s

/-- One round of the loop of `sa1100_pcmcia_update_mecr`. -/
def updateSocket (skt : Socket) (clock : ℕ) (mecr : BitVec 32) (sock : Fin 2) : BitVec 32 :=
  let mecr := mecrTime mecr sock .io (skt.speed .io) clock
  let mecr := mecrTime mecr sock .attr (skt.speed .attr) clock
  mecrTime mecr sock .mem (skt.speed .mem) clock

def State.updateMecr (s : State) (clock : ℕ) : State :=
  { s with mecr := [0,1].foldl (fun mecr sock => updateSocket (s.socket sock) clock mecr sock) s.mecr }

/-- `sa1100_pcmcia_notifier` before the change. -/
def State.prechange (s : State) (c : Change) : State :=
  if c.oldFreq < c.newFreq then s.updateMecr c.newFreq else s

/-- `sa1100_pcmcia_notifier` after the change. -/
def State.postchange (s : State) (c : Change) : State :=
  if c.newFreq < c.oldFreq then s.updateMecr c.newFreq else s

/-- A socket after `sa1100_pcmcia_driver_init`; the maps are zero. -/
def Socket.init : Socket where
  vcc := 0
  speed := fun
    | .io => SA1100_PCMCIA_IO_ACCESS
    | .attr => SA1100_PCMCIA_5V_MEM_ACCESS
    | .mem => SA1100_PCMCIA_5V_MEM_ACCESS
  ioMap _ := ⟨0#8,0#16,0⟩
  memMap _ := ⟨0#8,0#16,0⟩

/-- `MECR_FAST_SET` and the three default fields of a socket. -/
def initSocket (clock : ℕ) (mecr : BitVec 32) (sock : Fin 2) : BitVec 32 :=
  updateSocket .init clock (mecrSet mecr sock 15 1 0#32) sock

/-- `sa1100_pcmcia_driver_init` with whatever MECR held before. -/
def State.init (mecr : BitVec 32) (clock : ℕ) : State :=
  ⟨[0,1].foldl (initSocket clock) mecr,clock,none,fun _ => .init⟩

inductive Op
  | setIoMap (sock : Fin 2) (map : ℕ) (flags : BitVec 8) (speed : BitVec 16)
  | setMemMap (sock : Fin 2) (map : ℕ) (flags : BitVec 8) (speed : BitVec 16)
  /-- `set_socket`, of which only `Vcc` matters here -/
  | setSocket (sock : Fin 2) (vcc : ℕ)
  | prechange (newFreq : ℕ)
  | switch
  | postchange

/-- One call, or one part of `cpufreq_set`, which nothing interrupts. -/
def step (s : State) : Op → Option State
  | .setIoMap sock map flags speed =>
    if s.change.isNone then some (s.setIoMap sock map flags speed) else none
  | .setMemMap sock map flags speed =>
    if s.change.isNone then some (s.setMemMap sock map flags speed) else none
  | .setSocket sock vcc =>
    if s.change.isNone then
      some { s with socket := update s.socket sock { s.socket sock with vcc := vcc } }
    else none
  | .prechange newFreq =>
    match s.change with
    | none => some { s.prechange ⟨s.clock,newFreq,false⟩ with change := some ⟨s.clock,newFreq,false⟩ }
    | some _ => none
  | .switch =>
    match s.change with
    | some ⟨oldFreq,newFreq,false⟩ =>
      some { s with clock := newFreq, change := some ⟨oldFreq,newFreq,true⟩ }
    | _ => none
  | .postchange =>
    match s.change with
    | some ⟨oldFreq,newFreq,true⟩ => some { s.postchange ⟨oldFreq,newFreq,true⟩ with change := none }
    | _ => none

/-- `need` is the speed of an active window that uses the field. -/
def Socket.Needs (skt : Socket) (k : Kind) (need : ℕ) : Prop :=
  match k with
  | .io => ∃ i, (skt.ioMap i).active ∧ (skt.ioMap i).need = need
  | k => ∃ i, (skt.memMap i).active ∧ (skt.memMap i).kind = k ∧ (skt.memMap i).need = need

/-- A command of `bs + 1` times three bus clocks of two CPU cycles takes at least `speed` ns. -/
def WideEnough (bs speed clock : ℕ) : Prop := speed * clock ≤ 6000000 * (bs + 1)

/-- Every active window of every socket has a command wide enough for it. -/
def State.Timed (s : State) : Prop :=
  ∀ sock k need, (s.socket sock).Needs k need →
    WideEnough (mecrGet s.mecr sock k).toNat need s.clock

/-- The computation neither underflows nor overflows the field, and its two divisions round up
together. -/
def Fits (speed clock : ℕ) : Prop :=
  6000000 ≤ speed * clock ∧ speed * clock ≤ 192000000 ∧
    (speed * clock % 6000000 = 0 ∨ 6 ≤ speed * clock % 6000000)

instance (speed clock : ℕ) : Decidable (Fits speed clock) := inferInstanceAs (Decidable (_ ∧ _))

variable {clock need map : ℕ} {k : Kind} {s t : State} {skt : Socket} {speed : BitVec 16}
  {q : Fin 2 × Kind} {l : List (Fin 2 × Kind)}

theorem Fits.mecrBs {speed : ℕ} (h : Fits speed clock) :
    mecrBs speed clock < 32 ∧ WideEnough (mecrBs speed clock) speed clock := by
  obtain ⟨hlo,hhi,hgap⟩ := h
  simp only [PcmciaTiming.mecrBs,WideEnough]
  rw [u32_of_lt (by omega),sub32_of_le (by omega) (by omega)]
  split_ifs with h0
  · omega
  · omega

section
variable {mecr : BitVec 32} {speed clock : ℕ} (h : Fits speed clock)
include h

theorem toNat_mecrBs : (BitVec.ofNat 32 (mecrBs speed clock)).toNat = mecrBs speed clock := by
  rw [BitVec.toNat_ofNat,Nat.mod_eq_of_lt (lt_trans h.mecrBs.1 (by decide))]

theorem mecrTime_same (sock : Fin 2) (k : Kind) :
    (mecrGet (mecrTime mecr sock k speed clock) sock k).toNat = mecrBs speed clock := by
  have hpos : k.shift + socketShift sock + 5 ≤ 32 := by
    cases k <;> revert sock <;> decide
  rw [mecrGet,mecrTime,mecrSet,Bitfield.get_set (by rw [toNat_mecrBs h]; exact h.mecrBs.1) hpos,
    toNat_mecrBs h]

theorem mecrTime_other {p : Fin 2 × Kind} (hpq : p ≠ q) :
    mecrGet (mecrTime mecr p.1 p.2 speed clock) q.1 q.2 = mecrGet mecr q.1 q.2 := by
  obtain ⟨sock,k⟩ := p
  obtain ⟨sock',k'⟩ := q
  refine Bitfield.get_set_of_disjoint (by rw [toNat_mecrBs h]; exact h.mecrBs.1) ?_
  cases k <;> cases k' <;> revert sock sock' <;> decide

end

/-- The fields of both sockets in the order in which `update_mecr` takes them. -/
def fields : List (Fin 2 × Kind) := [(0,.io),(0,.attr),(0,.mem),(1,.io),(1,.attr),(1,.mem)]

theorem mem_fields (p : Fin 2 × Kind) : p ∈ fields := by
  obtain ⟨sock,k⟩ := p
  cases k <;> revert sock <;> decide

section
variable {f : Fin 2 × Kind → ℕ} {clock : ℕ} (h : ∀ p, Fits (f p) clock)
include h

theorem foldl_mecrTime_other (hq : q ∉ l) (mecr : BitVec 32) :
    mecrGet (l.foldl (fun m p => mecrTime m p.1 p.2 (f p) clock) mecr) q.1 q.2 =
      mecrGet mecr q.1 q.2 := by
  induction l generalizing mecr with
  | nil => rfl
  | cons p l ih =>
    rw [List.mem_cons,not_or] at hq
    rw [List.foldl_cons,ih hq.2,mecrTime_other (h p) (Ne.symm hq.1)]

theorem foldl_mecrTime_mem (hq : q ∈ l) (mecr : BitVec 32) :
    (mecrGet (l.foldl (fun m p => mecrTime m p.1 p.2 (f p) clock) mecr) q.1 q.2).toNat =
      mecrBs (f q) clock := by
  induction l generalizing mecr with
  | nil => cases hq
  | cons p l ih =>
    by_cases hl : q ∈ l
    · exact ih hl _
    · obtain rfl : q = p := (List.mem_cons.mp hq).resolve_right hl
      rw [List.foldl_cons,foldl_mecrTime_other h hl,mecrTime_same (h q)]

end

theorem updateMecr_get (h : ∀ sock k, Fits ((s.socket sock).speed k) clock) (sock : Fin 2)
    (k : Kind) :
    (mecrGet (s.updateMecr clock).mecr sock k).toNat = mecrBs ((s.socket sock).speed k) clock := by
  exact foldl_mecrTime_mem (f := fun p => (s.socket p.1).speed p.2) (fun p => h p.1 p.2)
    (mem_fields (sock,k)) s.mecr

/-- The fastest clock until the next recomputation. -/
def State.bound (s : State) : ℕ :=
  match s.change with
  | some ⟨_,newFreq,false⟩ => max s.clock newFreq
  | _ => s.clock

/-- Every active window is covered by the remembered speed of its field, and the field by the
clock. -/
def State.Covered (s : State) : Prop :=
  ∀ sock k need, (s.socket sock).Needs k need →
    need ≤ (s.socket sock).speed k ∧
      WideEnough (mecrGet s.mecr sock k).toNat ((s.socket sock).speed k) s.bound

structure State.Inv (s : State) : Prop where
  covered : s.Covered
  before : ∀ o n, s.change = some ⟨o,n,false⟩ → o = s.clock
  after : ∀ o n, s.change = some ⟨o,n,true⟩ → n = s.clock

theorem clock_le_bound (s : State) : s.clock ≤ s.bound := by
  unfold State.bound
  grind

theorem State.Inv.timed (h : s.Inv) : s.Timed := by
  intro sock k need hn
  obtain ⟨hle,hw⟩ := h.covered sock k need hn
  exact le_trans (Nat.mul_le_mul hle (clock_le_bound s)) hw

/-- The windows before the call that this one joins are no slower, and its own speed fits. -/
def Allowed (s : State) : Op → Prop
  | .setIoMap sock map flags speed =>
    flags.getLsbD 0 = true → map < 2 → Fits (ioSpeed speed) s.clock ∧
      ∀ i : Fin 2, i.val ≠ map → ((s.socket sock).ioMap i).active →
        ((s.socket sock).ioMap i).need ≤ ioSpeed speed
  | .setMemMap sock map flags speed =>
    flags.getLsbD 0 = true → map < 4 → Fits (memSpeed (s.socket sock).vcc speed) s.clock ∧
      ∀ i : Fin 4, i.val ≠ map → ((s.socket sock).memMap i).active →
        ((s.socket sock).memMap i).attrib = flags.getLsbD 5 →
        ((s.socket sock).memMap i).need ≤ memSpeed (s.socket sock).vcc speed
  | .prechange newFreq =>
    s.clock < newFreq → ∀ sock k, Fits ((s.socket sock).speed k) newFreq
  | .postchange =>
    ∀ c, s.change = some c → c.newFreq < c.oldFreq →
      ∀ sock k, Fits ((s.socket sock).speed k) c.newFreq
  | _ => True

theorem bound_of_none (h : s.change = none) : s.bound = s.clock := by
  rw [State.bound,h]

section
variable {s : State} {sock : Fin 2} {skt : Socket} (h : s.Covered)
include h

theorem State.Covered.replace (hs : skt.speed = (s.socket sock).speed)
    (hn : ∀ k need, skt.Needs k need → (s.socket sock).Needs k need) :
    ({ s with socket := update s.socket sock skt } : State).Covered := by
  intro sock' k need hneed
  show need ≤ (update s.socket sock skt sock').speed k ∧
    WideEnough _ ((update s.socket sock skt sock').speed k) s.bound
  replace hneed : (update s.socket sock skt sock').Needs k need := hneed
  by_cases he : sock' = sock
  · subst he
    rw [update_self] at hneed ⊢
    rw [hs]
    exact h sock' k need (hn k need hneed)
  · rw [update_of_ne he] at hneed ⊢
    exact h sock' k need hneed

theorem State.Covered.time {speed : ℕ} (hc : s.change = none) (hfit : Fits speed s.clock)
    (hs : skt.speed = update (s.socket sock).speed k speed)
    (hsame : ∀ need, skt.Needs k need → need ≤ speed)
    (hother : ∀ k' need, k' ≠ k → skt.Needs k' need → (s.socket sock).Needs k' need) :
    ({ s with
      mecr := mecrTime s.mecr sock k speed s.clock
      socket := update s.socket sock skt } : State).Covered := by
  intro sock' k' need hneed
  have hb : s.bound = s.clock := bound_of_none hc
  show need ≤ (update s.socket sock skt sock').speed k' ∧
    WideEnough (mecrGet (mecrTime s.mecr sock k speed s.clock) sock' k').toNat
      ((update s.socket sock skt sock').speed k') s.bound
  replace hneed : (update s.socket sock skt sock').Needs k' need := hneed
  by_cases he : (sock',k') = (sock,k)
  · obtain ⟨rfl,rfl⟩ := Prod.mk.inj he
    rw [update_self] at hneed ⊢
    rw [hs,update_self,hb,mecrTime_same hfit]
    exact ⟨hsame need hneed,hfit.mecrBs.2⟩
  · rw [mecrTime_other (p := (sock,k)) (q := (sock',k')) hfit (Ne.symm he)]
    by_cases hsock : sock' = sock
    · subst hsock
      have hk : k' ≠ k := fun hk => he (by rw [hk])
      rw [update_self] at hneed ⊢
      rw [hs,update_of_ne hk]
      exact h sock' k' need (hother k' need hk hneed)
    · rw [update_of_ne hsock] at hneed ⊢
      exact h sock' k' need hneed

/-- A map call: only window `m`, of the field `k`, is new. -/
theorem State.Covered.setMap {m : Window} {g : Socket → Socket} (hc : s.change = none)
    (hfit : m.active = true → Fits m.need s.clock) (hg : ∀ skt, (g skt).speed = skt.speed)
    (hn : ∀ f k' need, (g { s.socket sock with speed := f }).Needs k' need →
      (k' = k ∧ m.active = true ∧ m.need = need) ∨
        (s.socket sock).Needs k' need ∧ (k' = k → m.active = true → need ≤ m.need)) :
    let t := if m.active then s.time sock k m.need else s
    ({ t with socket := update t.socket sock (g (t.socket sock)) } : State).Covered := by
  dsimp only
  split_ifs with hact
  · simp only [State.time,update_self,update_idem]
    refine h.time hc (hfit hact) (hg _) (fun need hneed => ?_) fun k' need hk hneed => ?_
    · obtain ⟨-,-,rfl⟩ | ⟨-,hle⟩ := hn _ k need hneed
      · exact le_rfl
      · exact hle rfl hact
    · exact ((hn _ k' need hneed).resolve_left fun hm => hk hm.1).1
  · exact h.replace (hg _) fun k' need hneed =>
      ((hn _ k' need hneed).resolve_left fun hm => hact hm.2.1).1

end

theorem kind_ne_io (m : Window) : m.kind ≠ .io := by
  unfold Window.kind
  split_ifs <;> decide

theorem attrib_of_kind {m m' : Window} (h : m.kind = m'.kind) : m.attrib = m'.attrib := by
  unfold Window.kind at h
  grind

theorem State.Inv.setIoMap {sock : Fin 2} {flags : BitVec 8} (h : s.Inv) (hc : s.change = none)
    (ha : Allowed s (.setIoMap sock map flags speed)) :
    (s.setIoMap sock map flags speed).Covered := by
  unfold State.setIoMap
  split_ifs with hmap
  swap
  · exact h.covered
  refine h.covered.setMap (g := fun skt => { skt with ioMap := update skt.ioMap ⟨map,hmap⟩ _ }) hc
    (fun hact => (ha hact hmap).1) (fun _ => rfl) fun f k' need hn => ?_
  cases k' with
  | io =>
    obtain ⟨j,hj,rfl⟩ := hn
    by_cases hji : j = ⟨map,hmap⟩
    · subst hji
      simp only [update_self] at hj
      exact Or.inl ⟨rfl,hj,by simp⟩
    · simp only [update_of_ne hji] at hj ⊢
      exact Or.inr ⟨⟨j,hj,rfl⟩,fun _ hact =>
        (ha hact hmap).2 j (fun he => hji (Fin.ext he)) hj⟩
  | attr | mem => exact Or.inr ⟨hn,nofun⟩

theorem State.Inv.setMemMap {sock : Fin 2} {flags : BitVec 8} (h : s.Inv) (hc : s.change = none)
    (ha : Allowed s (.setMemMap sock map flags speed)) :
    (s.setMemMap sock map flags speed).Covered := by
  unfold State.setMemMap
  split_ifs with hmap
  swap
  · exact h.covered
  refine h.covered.setMap (g := fun skt => { skt with memMap := update skt.memMap ⟨map,hmap⟩ _ }) hc
    (fun hact => (ha hact hmap).1) (fun _ => rfl) fun f k' need hn => ?_
  cases k' with
  | io => exact Or.inr ⟨hn,fun hk => absurd hk.symm (kind_ne_io _)⟩
  | attr | mem =>
    obtain ⟨j,hj,hkj,rfl⟩ := hn
    by_cases hji : j = ⟨map,hmap⟩
    · subst hji
      simp only [update_self] at hj hkj
      exact Or.inl ⟨hkj.symm,hj,by simp⟩
    · simp only [update_of_ne hji] at hj hkj ⊢
      exact Or.inr ⟨⟨j,hj,hkj,rfl⟩,fun hk hact =>
        (ha hact hmap).2 j (fun he => hji (Fin.ext he)) hj (attrib_of_kind (hkj.trans hk))⟩

theorem State.Covered.updateMecr (h : s.Covered)
    (hfit : ∀ sock k, Fits ((s.socket sock).speed k) clock)
    (hm : t.mecr = (s.updateMecr clock).mecr) (hs : t.socket = s.socket) (hb : t.bound ≤ clock) :
    t.Covered := by
  intro sock k need hn
  rw [hs] at hn ⊢
  refine ⟨(h sock k need hn).1,?_⟩
  rw [hm,updateMecr_get hfit]
  exact le_trans (Nat.mul_le_mul_left _ hb) (hfit sock k).mecrBs.2

theorem State.Covered.of_bound_le (h : s.Covered) (hm : t.mecr = s.mecr) (hs : t.socket = s.socket)
    (hb : t.bound ≤ s.bound) : t.Covered := by
  intro sock k need hn
  rw [hs] at hn ⊢
  rw [hm]
  obtain ⟨hle,hw⟩ := h sock k need hn
  exact ⟨hle,le_trans (Nat.mul_le_mul_left _ hb) hw⟩

theorem prechange_clock (s : State) (c : Change) : (s.prechange c).clock = s.clock := by
  unfold State.prechange
  split_ifs <;> rfl

theorem State.Inv.step {op : Op} (h : s.Inv) (ha : Allowed s op) (hs : step s op = some t) :
    t.Inv := by
  cases op with
  | setIoMap sock map flags speed =>
    simp only [PcmciaTiming.step,Option.ite_none_right_eq_some,Option.some.injEq,
      Option.isNone_iff_eq_none] at hs
    obtain ⟨hc,rfl⟩ := hs
    have ht : (s.setIoMap sock map flags speed).change = none := by
      simp only [State.setIoMap,State.time]
      split_ifs <;> exact hc
    exact ⟨h.setIoMap hc ha,by simp [ht],by simp [ht]⟩
  | setMemMap sock map flags speed =>
    simp only [PcmciaTiming.step,Option.ite_none_right_eq_some,Option.some.injEq,
      Option.isNone_iff_eq_none] at hs
    obtain ⟨hc,rfl⟩ := hs
    have ht : (s.setMemMap sock map flags speed).change = none := by
      simp only [State.setMemMap,State.time]
      split_ifs <;> exact hc
    exact ⟨h.setMemMap hc ha,by simp [ht],by simp [ht]⟩
  | setSocket sock vcc =>
    simp only [PcmciaTiming.step,Option.ite_none_right_eq_some,Option.some.injEq] at hs
    obtain ⟨-,rfl⟩ := hs
    exact ⟨h.covered.replace rfl fun k need hn => by cases k <;> exact hn,h.before,h.after⟩
  | prechange newFreq =>
    simp only [PcmciaTiming.step] at hs
    split at hs
    · next hc =>
      cases hs
      refine ⟨?_,?_,by simp⟩
      · unfold State.prechange
        split_ifs with hlt
        · exact h.covered.updateMecr (ha hlt) rfl rfl (max_le hlt.le le_rfl)
        · refine h.covered.of_bound_le rfl rfl ?_
          rw [bound_of_none hc]
          exact max_le le_rfl (not_lt.mp hlt)
      · rintro o n ⟨⟩
        exact (prechange_clock s _).symm
    · cases hs
  | switch =>
    simp only [PcmciaTiming.step] at hs
    split at hs
    · next oldFreq newFreq hc =>
      cases hs
      refine ⟨h.covered.of_bound_le rfl rfl ?_,by simp,by simp⟩
      simp [State.bound,hc]
    · cases hs
  | postchange =>
    simp only [PcmciaTiming.step] at hs
    split at hs
    · next oldFreq newFreq hc =>
      cases hs
      refine ⟨?_,by simp,by simp⟩
      have hn := h.after oldFreq newFreq hc
      unfold State.postchange
      split_ifs with hlt
      · exact h.covered.updateMecr (ha _ hc hlt) rfl rfl hn.ge
      · refine h.covered.of_bound_le rfl rfl ?_
        exact clock_le_bound s
    · cases hs

theorem inactive_zero : (⟨0#8,0#16,0⟩ : Window).active = false := by decide

theorem inv_init (mecr : BitVec 32) (clock : ℕ) : (State.init mecr clock).Inv where
  covered := by
    intro sock k need hn
    cases k with
    | io | attr | mem =>
      obtain ⟨i,hi,-⟩ := hn
      exact absurd (inactive_zero.symm.trans hi) Bool.false_ne_true
  before := by intro o n h; cases h
  after := by intro o n h; cases h

/-- As long as every window set active fits and is no faster than the active windows of its field,
and the remembered speeds fit every new clock, all active windows are timed. -/
theorem windows_timed {mecr : BitVec 32} {clock : ℕ} {ops : List Op} {s : State}
    (hm : Meets step Allowed (.init mecr clock) ops)
    (hr : run step (.init mecr clock) ops = some s) : s.Timed :=
  (invariant step (fun _ _ _ => State.Inv.step) (inv_init mecr clock) hm hr).timed

/-- One I/O window at 250 ns, and the clock goes from 206.4 to 221.2 MHz. -/
theorem windows_timed_faster :
    ∃ s, run step (.init 0#32 206400) [.setIoMap 1 0 1#8 250#16,.prechange 221200,.switch] =
      some s ∧ s.clock = 221200 ∧ (s.socket 1).Needs .io 250 ∧ s.Timed := by
  have hm : Meets step Allowed (.init 0#32 206400)
      [.setIoMap 1 0 1#8 250#16,.prechange 221200,.switch] := by
    refine ⟨fun _ _ => ⟨by decide,fun i _ hact =>
      absurd (inactive_zero.symm.trans hact) Bool.false_ne_true⟩,?_⟩
    rintro t ⟨⟩
    refine ⟨fun _ sock k => ?_,?_⟩
    · revert sock
      cases k <;> decide
    · rintro t ⟨⟩
      exact ⟨trivial,fun _ _ => trivial⟩
  exact ⟨_,rfl,rfl,⟨0,rfl,rfl⟩,windows_timed hm rfl⟩

/-- A second I/O window of 100 ns shortens the command of the first one; and a window of 1000 ns
overflows its field. -/
theorem windows_untimed :
    (∃ s, run step (.init 0#32 206400) [.setIoMap 1 0 1#8 250#16,.setIoMap 1 1 1#8 100#16] =
      some s ∧ ¬s.Timed) ∧
    ∃ s, run step (.init 0#32 206400) [.setIoMap 1 0 1#8 1000#16] = some s ∧ ¬s.Timed := by
  refine ⟨⟨_,rfl,fun h => ?_⟩,⟨_,rfl,fun h => ?_⟩⟩
  · have hw := h 1 .io 250 ⟨0,rfl,rfl⟩
    revert hw
    unfold WideEnough
    decide
  · have hw := h 1 .io 1000 ⟨0,rfl,rfl⟩
    revert hw
    unfold WideEnough
    decide

end Simpad.PcmciaTiming
