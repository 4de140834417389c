import Mathlib.Tactic

namespace Simpad.Audio

/-- `f_mode`. -/
structure Mode where
  read : Bool
  write : Bool
  deriving DecidableEq

/-- The flag `need_tx_for_rx`, and which streams there are. -/
structure Device where
  needTxForRx : Bool
  output : Bool
  input : Bool

/-- `clean` until a channel is requested while held or freed while not held. -/
structure State where
  wrRef : Bool
  rdRef : Bool
  tx : Bool
  rx : Bool
  clean : Bool
  files : List Mode

namespace State

def requestTx (err : ℤ) (s : State) : State :=
  { s with tx := s.tx || err = 0, clean := s.clean && !s.tx }

def requestRx (err : ℤ) (s : State) : State :=
  { s with rx := s.rx || err = 0, clean := s.clean && !s.rx }

def freeTx (s : State) : State := { s with tx := false, clean := s.clean && s.tx }

def freeRx (s : State) : State := { s with rx := false, clean := s.clean && s.rx }

variable (d : Device)

/-- The access control of `sa1100_audio_attach`. -/
def refused (m : Mode) (s : State) : Option ℤ :=
  if m.write && !d.output || m.read && !d.input then some (-19)
  else if m.write && s.wrRef || m.read && s.rdRef then some (-16)
  else if m.read && d.needTxForRx && !d.output then some (-22)
  else none

/-- The requests and the rest of `sa1100_audio_attach`, told what the requests return. -/
def request (needTx : Bool) (m : Mode) (txErr rxErr : ℤ) (s : State) : ℤ × State :=
  let s₁ := if needTx then s.requestTx txErr else s
  if needTx && txErr ≠ 0 then (txErr,s₁)
  else
    let s₂ := if m.read then s₁.requestRx rxErr else s₁
    if m.read && rxErr ≠ 0 then (rxErr,if needTx then s₂.freeTx else s₂)
    else (0,{ s₂ with wrRef := s₂.wrRef || m.write, rdRef := s₂.rdRef || m.read,
                      files := m :: s₂.files })

def attach (m : Mode) (txErr rxErr : ℤ) (s : State) : ℤ × State :=
  match s.refused d m with
  | some err => (err,s)
  | none =>
    s.request ((m.write || m.read && d.needTxForRx) && !(s.wrRef || s.rdRef && d.needTxForRx))
      m txErr rxErr

/-- The reading half of `audio_release`. -/
def releaseRead (s : State) : State :=
  let s := s.freeRx
  { if d.needTxForRx && !s.wrRef then s.freeTx else s with rdRef := false }

def releaseWrite (s : State) : State :=
  { if !d.needTxForRx || !s.rdRef then s.freeTx else s with wrRef := false }

def audioRelease (m : Mode) (s : State) : State :=
  let s := if m.read then s.releaseRead d else s
  let s := if m.write then s.releaseWrite d else s
  { s with files := s.files.erase m }

end State

inductive Action
  | attach (m : Mode) (txErr rxErr : ℤ)
  | release (m : Mode)

def init : State := ⟨false,false,false,false,true,[]⟩

variable (d : Device)

/-- Only a file that is attached is released. -/
def step (s : State) : Action → State
  | .attach m txErr rxErr => (s.attach d m txErr rxErr).2
  | .release m => if m ∈ s.files then s.audioRelease d m else s

/-- Who holds what. -/
structure Owned (s : State) : Prop where
  tx : s.tx = (s.wrRef || s.rdRef && d.needTxForRx)
  rx : s.rx = s.rdRef
  clean : s.clean = true
  writers : s.files.countP (·.write) = s.wrRef.toNat
  readers : s.files.countP (·.read) = s.rdRef.toNat

variable {d : Device} {s : State}

theorem not_refused {m : Mode} (h : s.refused d m = none) :
    (m.write = true → s.wrRef = false) ∧ (m.read = true → s.rdRef = false) := by
  grind [State.refused]

/-- The sending channel is requested just where it is needed and not held. -/
theorem owned_attach (h : Owned d s) (m : Mode) (txErr rxErr : ℤ) :
    Owned d (s.attach d m txErr rxErr).2 := by
  rw [State.attach]
  cases hm : s.refused d m with
  | some err => exact h
  | none =>
    obtain ⟨hwr,hrd⟩ := not_refused hm
    obtain ⟨htx,hrx,hclean,hw,hr⟩ := h
    dsimp only
    generalize hneed : ((m.write || m.read && d.needTxForRx) &&
      !(s.wrRef || s.rdRef && d.needTxForRx)) = needTx
    rw [State.request]
    by_cases ht : txErr = 0 <;> by_cases hrx' : rxErr = 0 <;> cases needTx <;> cases hread : m.read <;>
      cases hwrite : m.write <;> constructor <;>
      simp_all [State.requestTx,State.requestRx,State.freeTx]

theorem owned_release (h : Owned d s) {m : Mode} (hm : m ∈ s.files) : Owned d (s.audioRelease d m) := by
  obtain ⟨htx,hrx,hclean,hw,hr⟩ := h
  have hwr : m.write = true → s.wrRef = true := by
    intro hm'
    have := List.countP_pos_iff.mpr ⟨m,hm,hm'⟩
    cases hs : s.wrRef <;> simp_all
  have hrd : m.read = true → s.rdRef = true := by
    intro hm'
    have := List.countP_pos_iff.mpr ⟨m,hm,hm'⟩
    cases hs : s.rdRef <;> simp_all
  cases hread : m.read <;> cases hwrite : m.write <;> constructor <;>
    simp_all [State.audioRelease,State.releaseRead,State.releaseWrite,State.freeTx,State.freeRx,
      List.countP_erase] <;> grind

theorem owned_run (actions : List Action) : Owned d (actions.foldl (step d) init) := by
  induction actions using List.reverseRecOn with
  | nil => exact ⟨rfl,rfl,rfl,rfl,rfl⟩
  | append_singleton actions a ih =>
    rw [List.foldl_append,List.foldl_cons,List.foldl_nil]
    cases a with
    | attach m txErr rxErr => exact owned_attach ih m txErr rxErr
    | release m =>
      rw [step]
      split
      · next hm => exact owned_release ih hm
      · exact ih

/-- The channels are held for just the files that need them. -/
theorem channels_owned (d : Device) (actions : List Action) :
    let s := actions.foldl (step d) init
    (s.tx = true ↔ s.wrRef = true ∨ s.rdRef = true ∧ d.needTxForRx = true) ∧
      (s.rx = true ↔ s.rdRef = true) ∧ s.clean = true := by
  obtain ⟨htx,hrx,hclean,-,-⟩ := @owned_run d actions
  simp [htx,hrx,hclean]

end Simpad.Audio
