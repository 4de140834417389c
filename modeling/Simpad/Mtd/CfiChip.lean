import Simpad.Base.Runs
import Simpad.Mtd.Cfi

/-! Sharing a flash chip. A step is what a thread does between taking `chip->mutex` and giving it back; it
reads at most two status words, and `late` is what `time_after` says. -/

namespace Simpad.Mtd

open Function Runs

inductive FlState
  | ready | status | cfiQuery | jedecQuery | erasing | eraseSuspending | writing | writingToBuffer
deriving DecidableEq

/-- The functions; `tried` is how many of its three retries `do_erase_oneblock` has used. -/
inductive Op
  | doReadOnechip
  | doWriteOneword
  | doWriteBuffer
  | doEraseOneblock (tried : ℕ)
deriving DecidableEq

def Op.called : Op → Op
  | .doEraseOneblock _ => .doEraseOneblock 0
  | op => op

inductive Place
  /-- Not in one of the functions; the result of the last. -/
  | idle (ret : Errno)
  /-- Before the lock at `retry`. -/
  | entry (op : Op)
  | asleep (op : Op)
  /-- `do_read_onechip` waiting for the erase to be suspended. -/
  | suspending
  /-- `do_write_buffer` waiting for the buffer. -/
  | filling (z : ℕ)
  | polling (op : Op)
  | pollAsleep (op : Op)
deriving DecidableEq

structure Chip where
  state : FlState
  oldstate : FlState
  /-- Whether a function has returned with the lock. -/
  mutex : Bool
  place : ℕ → Place

structure Input where
  call : Op
  status : Word
  status2 : Word
  late : Bool

/-- The widths `do_write_buffer` has a branch for. -/
abbrev Cfi.WidthKnown (c : Cfi) : Prop :=
  c.buswidth = 1 ∨ c.buswidth = 2 ∨ c.buswidth = 4 ∨ c.buswidth = 8

namespace Chip

def goto (s : Chip) (t : ℕ) (p : Place) : Chip := { s with place := update s.place t p }

/-- `wake_up(&chip->wq)`. -/
def wake (s : Chip) : Chip :=
  { s with place := fun u => match s.place u with
      | .asleep op => .entry op
      | .pollAsleep op => .polling op
      | p => p }

section
variable (c : Cfi) (suspend : Bool) (i : Input) (t : ℕ)

/-- The case `FL_STATUS` of the switch. -/
def whenReady (op : Op) (go : Chip → Chip) (s : Chip) : Chip :=
  let s := { s with state := .status }
  if c.ready i.status then go s
  else if i.late then s.goto t (.idle .eio)
  else s.goto t (.entry op)

/-- The loop after the erase has been told to suspend, and the read. -/
def suspendPoll (s : Chip) : Chip :=
  if c.ready i.status then { s with state := s.oldstate }.wake.goto t (.idle .ok)
  else if i.late then { s with state := .erasing }.goto t (.idle .eio)
  else s.goto t .suspending

def readEntry (s : Chip) : Chip :=
  match s.state with
  | .erasing =>
    if suspend then suspendPoll c i t { s with oldstate := .erasing, state := .eraseSuspending }
    else s.goto t (.asleep .doReadOnechip)
  | .ready => s.wake.goto t (.idle .ok)
  | .cfiQuery | .jedecQuery | .status =>
    whenReady c i t .doReadOnechip
      (fun s => { s with state := .ready }.wake.goto t (.idle .ok)) s
  | .eraseSuspending | .writing | .writingToBuffer => s.goto t (.asleep .doReadOnechip)

def startWrite (op : Op) (s : Chip) : Chip := { s with state := .writing }.goto t (.polling op)

def writeEntry (s : Chip) : Chip :=
  match s.state with
  | .ready => startWrite t .doWriteOneword s
  | .cfiQuery | .jedecQuery | .status =>
    whenReady c i t .doWriteOneword (startWrite t .doWriteOneword) s
  | .erasing | .eraseSuspending | .writing | .writingToBuffer => s.goto t (.asleep .doWriteOneword)

/-- One turn of the loop for the buffer; on a bus of another width the function returns with the
lock. -/
def fill (z : ℕ) (status : Word) (s : Chip) : Chip :=
  if c.ready status then
    if c.WidthKnown then startWrite t .doWriteBuffer s
    else { s with mutex := true }.goto t (.idle .einval)
  else s.goto t (.filling z)

def bufferEntry (s : Chip) : Chip :=
  match s.state with
  | .ready | .cfiQuery | .jedecQuery | .status =>
    whenReady c i t .doWriteBuffer
      (fun s => fill c t 0 i.status2 { s with state := .writingToBuffer }) s
  | .erasing | .eraseSuspending | .writing | .writingToBuffer => s.goto t (.asleep .doWriteBuffer)

def bufferFilling (z : ℕ) (s : Chip) : Chip :=
  if 20 < z + 1 then { s with state := .status }.goto t (.idle .eio)
  else fill c t (z + 1) i.status s

def eraseEntry (tried : ℕ) (s : Chip) : Chip :=
  match s.state with
  | .ready | .cfiQuery | .jedecQuery | .status =>
    whenReady c i t (.doEraseOneblock tried) (fun s =>
      { s with state := .erasing, oldstate := .ready }.goto t (.polling (.doEraseOneblock tried))) s
  | .erasing | .eraseSuspending | .writing | .writingToBuffer =>
    s.goto t (.asleep (.doEraseOneblock tried))

/-- The loop of a write; `ret` is what the final status comes to. -/
def writePoll (op : Op) (ret : Errno) (s : Chip) : Chip :=
  if s.state ≠ .writing then s.goto t (.pollAsleep op)
  else if c.ready i.status then { s with state := .status }.wake.goto t (.idle ret)
  else if i.late then { s with state := .status }.goto t (.idle .eio)
  else s

/-- The loop of an erase once it knows that it has the chip, up to the merging of the status. -/
def eraseCheck (tried : ℕ) (s : Chip) : Chip :=
  if c.ready i.status then
    let s := { s with state := .status }
    match c.eraseAttempt i.status2 with
    | .ret e => s.wake.goto t (.idle e)
    | .retry =>
      if tried < 3 then s.goto t (.entry (.doEraseOneblock (tried + 1)))
      else s.wake.goto t (.idle .eio)
  else if i.late then { s with state := .status }.goto t (.idle .eio)
  else s

def erasePoll (tried : ℕ) (s : Chip) : Chip :=
  if s.state ≠ .erasing then s.goto t (.pollAsleep (.doEraseOneblock tried))
  else eraseCheck c i t tried (if s.oldstate ≠ .ready then { s with oldstate := .ready } else s)

/-- A step of thread `t`; one that sleeps cannot take it, nor anyone once the lock is lost. -/
def step (s : Chip) (a : ℕ × Input) : Option Chip :=
  let (t,i) := a
  if s.mutex then none
  else match s.place t with
    | .idle _ => some (s.goto t (.entry i.call.called))
    | .entry .doReadOnechip => some (readEntry c suspend i t s)
    | .entry .doWriteOneword => some (writeEntry c i t s)
    | .entry .doWriteBuffer => some (bufferEntry c i t s)
    | .entry (.doEraseOneblock r) => some (eraseEntry c i t r s)
    | .suspending => some (suspendPoll c i t s)
    | .filling z => some (bufferFilling c i t z s)
    | .polling .doWriteOneword => some (writePoll c i t .doWriteOneword (c.doWriteOneword i.status) s)
    | .polling .doWriteBuffer => some (writePoll c i t .doWriteBuffer (c.doWriteBuffer i.status) s)
    | .polling (.doEraseOneblock r) => some (erasePoll c i t r s)
    | .polling .doReadOnechip | .asleep _ | .pollAsleep _ => none

end

def fresh : Chip := ⟨.ready,.ready,false,fun _ => .idle .ok⟩

end Chip

/-- On the queue. -/
def Place.sleeps : Place → Prop
  | .asleep _ | .pollAsleep _ => True
  | _ => False

/-- The thread is awake and has an operation under way on the chip: `do_erase_oneblock` also while
it tries again. -/
def Place.operates : Place → Prop
  | .suspending | .filling _ | .polling _ => True
  | .entry (.doEraseOneblock tried) => 0 < tried
  | _ => False

/-- No function has kept the lock, and nobody sleeps on the queue of an idle chip. -/
structure Chip.Good (s : Chip) : Prop where
  mutex : s.mutex = false
  served : ∀ t, (s.place t).sleeps → ∃ u, (s.place u).operates

/-- The thread has begun a write or an erase and has not come to its end. -/
def Place.main : Place → Prop
  | .filling _ | .polling _ | .pollAsleep _ => True
  | _ => False

def Place.retries : Place → Prop
  | .entry (.doEraseOneblock tried) => 0 < tried
  | _ => False

def FlState.idle : FlState → Prop
  | .ready | .status | .cfiQuery | .jedecQuery => True
  | _ => False

/-- The state the chip is in while a thread is at the place. -/
def Place.fits (state oldstate : FlState) : Place → Prop
  | .filling _ => state = .writingToBuffer
  | .polling .doWriteOneword | .polling .doWriteBuffer => state = .writing
  | .polling (.doEraseOneblock _) => state = .erasing ∨ state = .eraseSuspending
  | .pollAsleep (.doEraseOneblock _) => state = .eraseSuspending
  | .polling .doReadOnechip | .pollAsleep _ => False
  | .suspending => state = .eraseSuspending ∧ oldstate = .erasing
  | .idle _ | .entry _ | .asleep _ => True

namespace Chip

/-- At most one thread has the chip, and one has it while it is busy; an erase sleeps only while it
is suspended. -/
structure Inv (s : Chip) : Prop where
  mutex : s.mutex = false
  fits : ∀ t, (s.place t).fits s.state s.oldstate
  main : ∀ t u, (s.place t).main → (s.place u).main → t = u
  suspending : ∀ t u, s.place t = .suspending → s.place u = .suspending → t = u
  busy : ¬s.state.idle → ∃ t, (s.place t).main
  reader : s.state = .eraseSuspending → ∃ t, s.place t = .suspending
  sleep : s.state.idle → ∀ t, (s.place t).sleeps → ∃ u, (s.place u).retries

theorem Inv.fresh : Inv fresh where
  mutex := rfl
  fits _ := trivial
  main _ _ h := h.elim
  suspending _ _ h := nomatch h
  busy h := absurd trivial h
  reader h := nomatch h
  sleep _ _ h := h.elim

theorem Inv.good {s : Chip} (h : Inv s) : Good s := by
  refine ⟨h.mutex,fun t ht => ?_⟩
  by_cases hidle : s.state.idle
  · obtain ⟨u,hu⟩ := h.sleep hidle t ht
    refine ⟨u,?_⟩
    unfold Place.retries at hu
    unfold Place.operates
    split at hu <;> simp_all
  · obtain ⟨u,hu⟩ := h.busy hidle
    have hfit := h.fits u
    cases hp : s.place u with
    | pollAsleep op =>
      -- the erase has been suspended, and the reader is awake
      rw [hp] at hfit
      cases op with
      | doEraseOneblock r =>
        obtain ⟨v,hv⟩ := h.reader hfit
        exact ⟨v,by rw [hv]; trivial⟩
      | _ => exact hfit.elim
    | filling | polling => exact ⟨u,by rw [hp]; trivial⟩
    | _ =>
      rw [hp] at hu
      exact hu.elim

variable {s : Chip} {t : ℕ} {p : Place} {σ o : FlState}

theorem fits_of_bystander (hm : ¬p.main) (hs : p ≠ .suspending) : p.fits σ o := by
  cases p with
  | idle | entry | asleep => trivial
  | suspending => exact absurd rfl hs
  | filling | polling | pollAsleep => exact absurd trivial hm

theorem idle_bystander (hidle : σ.idle) (h : p.fits σ o) : ¬p.main ∧ p ≠ .suspending := by
  cases p with
  | idle | entry | asleep => exact ⟨id,nofun⟩
  | suspending =>
    rw [h.1] at hidle
    exact hidle.elim
  | filling =>
    rw [show σ = .writingToBuffer from h] at hidle
    exact hidle.elim
  | polling op =>
    cases op with
    | doReadOnechip => exact h.elim
    | doEraseOneblock =>
      obtain h | h := h <;> rw [h] at hidle <;> exact hidle.elim
    | doWriteOneword | doWriteBuffer =>
      rw [show σ = .writing from h] at hidle
      exact hidle.elim
  | pollAsleep op =>
    cases op with
    | doEraseOneblock =>
      rw [show σ = .eraseSuspending from h] at hidle
      exact hidle.elim
    | _ => exact h.elim

@[simp] theorem goto_self (s : Chip) (t : ℕ) (p : Place) : (s.goto t p).place t = p := by
  simp [goto]

theorem goto_of_ne (s : Chip) (p : Place) {t u : ℕ} (h : u ≠ t) :
    (s.goto t p).place u = s.place u := by
  simp [goto,h]

theorem forall_goto {P : ℕ → Place → Prop} (ht : P t p) (hu : ∀ u, u ≠ t → P u (s.place u)) (u : ℕ) :
    P u ((s.goto t p).place u) := by
  by_cases h : u = t
  · subst h
    rw [goto_self]
    exact ht
  · rw [goto_of_ne s p h]
    exact hu u h

/-- The thread with some mark, if it is unique and `t` loses or keeps the mark, stays unique. -/
theorem unique_goto {P : Place → Prop} (h : ∀ u v, P (s.place u) → P (s.place v) → u = v)
    (hp : P p → P (s.place t) ∨ ∀ u, ¬P (s.place u)) (u v : ℕ)
    (hu : P ((s.goto t p).place u)) (hv : P ((s.goto t p).place v)) : u = v := by
  by_cases hut : u = t <;> by_cases hvt : v = t
  · exact hut.trans hvt.symm
  · rw [hut,goto_self] at hu
    rw [goto_of_ne s p hvt] at hv
    obtain ht | hno := hp hu
    · exact hut.trans (h t v ht hv)
    · exact absurd hv (hno v)
  · rw [goto_of_ne s p hut] at hu
    rw [hvt,goto_self] at hv
    obtain ht | hno := hp hv
    · exact (h u t hu ht).trans hvt.symm
    · exact absurd hu (hno u)
  · rw [goto_of_ne s p hut] at hu
    rw [goto_of_ne s p hvt] at hv
    exact h u v hu hv

theorem exists_goto {P : Place → Prop} (h : P p ∨ ∃ u, u ≠ t ∧ P (s.place u)) :
    ∃ u, P ((s.goto t p).place u) := by
  obtain hp | ⟨u,hne,hu⟩ := h
  · exact ⟨t,by rwa [goto_self]⟩
  · exact ⟨u,by rwa [goto_of_ne s p hne]⟩

/-- Nobody else sleeps, or another erase is going to try again. -/
def Heard (s : Chip) (t : ℕ) : Prop :=
  ∀ u, (s.place u).sleeps → ∃ v, v ≠ t ∧ (s.place v).retries

theorem Inv.move (h : Inv s) (hfit : p.fits σ o) (hother : ∀ u, u ≠ t → (s.place u).fits σ o)
    (hmain : p.main → (s.place t).main ∨ ∀ u, ¬(s.place u).main)
    (hsusp : p = .suspending → ∀ u, s.place u ≠ .suspending)
    (hbusy : ¬σ.idle → p.main ∨ ∃ u, u ≠ t ∧ (s.place u).main)
    (hreader : σ = .eraseSuspending → p = .suspending ∨ ∃ u, u ≠ t ∧ s.place u = .suspending)
    (hsleep : σ.idle → ¬p.sleeps ∧ (p.retries ∨ s.Heard t)) :
    Inv ({ s with state := σ, oldstate := o }.goto t p) where
  mutex := h.mutex
  fits := forall_goto (P := fun _ q => q.fits σ o) hfit hother
  main := unique_goto (s := { s with state := σ, oldstate := o }) h.main hmain
  suspending := unique_goto (s := { s with state := σ, oldstate := o }) (P := (· = .suspending))
    h.suspending fun he => .inr (hsusp he)
  busy hb := exists_goto (hbusy hb)
  reader he := exists_goto (P := (· = .suspending)) (hreader he)
  sleep hi u hu := by
    obtain ⟨hp,hret⟩ := hsleep hi
    have hne : u ≠ t := by
      rintro rfl
      rw [goto_self] at hu
      exact hp hu
    rw [goto_of_ne _ p hne] at hu
    exact exists_goto (hret.imp_right fun hheard => hheard u hu)

theorem Inv.not_suspending (h : Inv s) (hstate : s.state ≠ .eraseSuspending) (u : ℕ) :
    s.place u ≠ .suspending := by
  intro hu
  have hfit := h.fits u
  rw [hu] at hfit
  exact hstate hfit.1

theorem ne_of_idle (hσ : σ.idle) : σ ≠ .eraseSuspending := by
  rintro rfl
  exact hσ

theorem Inv.still (h : Inv s) (hm : ¬(s.place t).main) (hs : s.place t ≠ .suspending)
    (hp : ¬p.main) (hps : p ≠ .suspending) (hσ : σ = s.state ∨ σ.idle ∧ s.state.idle)
    (hsleep : σ.idle → ¬p.sleeps)
    (hret : (s.place t).retries → σ.idle → p.retries ∨ s.Heard t) :
    Inv ({ s with state := σ }.goto t p) := by
  refine h.move (fits_of_bystander hp hps) (fun u _ => ?_) (fun hmain => absurd hmain hp)
    (fun he => absurd he hps) (fun hb => .inr ?_) (fun he => .inr ?_) fun hi => ⟨hsleep hi,?_⟩
  · obtain rfl | ⟨-,hi⟩ := hσ
    · exact h.fits u
    · obtain ⟨hm,hs⟩ := idle_bystander hi (h.fits u)
      exact fits_of_bystander hm hs
  · obtain rfl | ⟨hi,-⟩ := hσ
    · obtain ⟨u,hu⟩ := h.busy hb
      grind
    · exact absurd hi hb
  · obtain rfl | ⟨hi,-⟩ := hσ
    · obtain ⟨u,hu⟩ := h.reader he
      grind
    · exact absurd he (ne_of_idle hi)
  · have hi' : s.state.idle := hσ.elim (fun he => he ▸ hi) And.right
    by_cases ht : (s.place t).retries
    · exact hret ht hi
    · refine .inr fun u hu => ?_
      obtain ⟨v,hv⟩ := h.sleep hi' u hu
      grind

theorem Inv.enter (h : Inv s) (hidle : s.state.idle) (hp : p.main) (hσ : ¬σ.idle)
    (hσ' : σ ≠ .eraseSuspending) (hfit : p.fits σ o) :
    Inv ({ s with state := σ, oldstate := o }.goto t p) := by
  have hby := fun u => idle_bystander hidle (h.fits u)
  exact h.move hfit (fun u _ => fits_of_bystander (hby u).1 (hby u).2)
    (fun _ => .inr fun u => (hby u).1) (fun _ u => (hby u).2) (fun _ => .inl hp)
    (fun he => absurd he hσ') fun hi => absurd hi hσ

theorem Inv.leave (h : Inv s) (hm : (s.place t).main) (hstate : s.state ≠ .eraseSuspending)
    (hp : ¬p.main) (hps : p ≠ .suspending) (hsleep : ¬p.sleeps) (hσ : σ.idle)
    (hret : p.retries ∨ s.Heard t) : Inv ({ s with state := σ, oldstate := o }.goto t p) :=
  h.move (fits_of_bystander hp hps)
    (fun u hne => fits_of_bystander (fun hu => hne (h.main u t hu hm)) (h.not_suspending hstate u))
    (fun hmain => absurd hmain hp) (fun he => absurd he hps) (fun hb => absurd hσ hb)
    (fun he => absurd he (ne_of_idle hσ)) fun _ => ⟨hsleep,hret⟩

theorem Inv.keep (h : Inv s) (hm : (s.place t).main) (hp : p.main) (hσ : ¬σ.idle)
    (hsame : σ = s.state ∧ o = s.oldstate ∨ s.state ≠ .eraseSuspending ∧ σ ≠ .eraseSuspending)
    (hfit : p.fits σ o) : Inv ({ s with state := σ, oldstate := o }.goto t p) := by
  refine h.move hfit (fun u hne => ?_) (fun _ => .inl hm) (fun he => ?_) (fun _ => .inl hp)
    (fun he => .inr ?_) fun hi => absurd hi hσ
  · have hu : ¬(s.place u).main := fun hu => hne (h.main u t hu hm)
    obtain ⟨rfl,rfl⟩ | ⟨hstate,-⟩ := hsame
    · exact h.fits u
    · exact fits_of_bystander hu (h.not_suspending hstate u)
  · rw [he] at hp
    exact hp.elim
  · obtain ⟨rfl,rfl⟩ | ⟨-,hne⟩ := hsame
    · obtain ⟨u,hu⟩ := h.reader he
      refine ⟨u,?_,hu⟩
      rintro rfl
      rw [hu] at hm
      exact hm.elim
    · exact absurd he hne

theorem Inv.suspend (h : Inv s) (hm : ¬(s.place t).main) (hstate : s.state = .erasing) :
    Inv ({ s with oldstate := .erasing, state := .eraseSuspending }.goto t .suspending) := by
  have hnone := h.not_suspending (by rw [hstate]; decide)
  refine h.move ⟨rfl,rfl⟩ (fun u _ => ?_) (fun hmain => hmain.elim) (fun _ => hnone)
    (fun _ => .inr ?_) (fun _ => .inl rfl) fun hi => hi.elim
  · have hfit := h.fits u
    have hu := hnone u
    rw [hstate] at hfit
    generalize s.place u = q at hfit hu
    cases q with
    | idle | entry | asleep => trivial
    | suspending => exact absurd rfl hu
    | filling => exact nomatch hfit
    | polling op =>
      cases op with
      | doReadOnechip => exact hfit.elim
      | doEraseOneblock => exact .inr rfl
      | doWriteOneword | doWriteBuffer => exact nomatch hfit
    | pollAsleep op =>
      cases op with
      | doEraseOneblock => rfl
      | _ => exact hfit.elim
  · obtain ⟨u,hu⟩ := h.busy (by rw [hstate]; exact id)
    grind

theorem Inv.resume (h : Inv s) (ht : s.place t = .suspending)
    (hawake : ∀ u op, s.place u ≠ .pollAsleep op) (e : Errno) :
    Inv ({ s with state := .erasing }.goto t (.idle e)) := by
  have hstate : s.state = .eraseSuspending := by
    have hfit := h.fits t
    rw [ht] at hfit
    exact hfit.1
  refine h.move trivial (fun u hne => ?_) (fun hmain => hmain.elim) nofun (fun _ => .inr ?_) nofun
    fun hi => hi.elim
  · have hfit := h.fits u
    rw [hstate] at hfit
    have hsusp : s.place u ≠ .suspending := fun hu => hne (h.suspending u t hu ht)
    have hasleep := hawake u
    generalize s.place u = q at hfit hsusp hasleep
    cases q with
    | idle | entry | asleep => trivial
    | suspending => exact absurd rfl hsusp
    | filling => exact nomatch hfit
    | polling op =>
      cases op with
      | doReadOnechip => exact hfit.elim
      | doEraseOneblock => exact .inl rfl
      | doWriteOneword | doWriteBuffer => exact nomatch hfit
    | pollAsleep op => exact absurd rfl (hasleep op)
  · obtain ⟨u,hu⟩ := h.busy (by rw [hstate]; exact id)
    refine ⟨u,?_,hu⟩
    rintro rfl
    rw [ht] at hu
    exact hu.elim

theorem wake_place (s : Chip) (u : ℕ) :
    (s.wake.place u).main = (s.place u).main ∧ ¬(s.wake.place u).sleeps ∧
      (s.wake.place u = .suspending ↔ s.place u = .suspending) := by
  simp only [wake]
  cases s.place u <;> simp [Place.main,Place.sleeps]

theorem wake_awake (s : Chip) (u : ℕ) (op : Op) : s.wake.place u ≠ .pollAsleep op := by
  intro h
  have := (wake_place s u).2.1
  rw [h] at this
  exact this trivial

theorem wake_fits (s : Chip) (u : ℕ) (h : (s.place u).fits σ o) : (s.wake.place u).fits σ o := by
  simp only [wake]
  cases hp : s.place u with
  | pollAsleep op =>
    rw [hp] at h
    cases op with
    | doEraseOneblock => exact .inr h
    | _ => exact h.elim
  | asleep => trivial
  | idle | entry | suspending | filling | polling =>
    rw [hp] at h
    exact h

theorem wake_of_awake (s : Chip) {u : ℕ} (h : ¬(s.place u).sleeps) : s.wake.place u = s.place u := by
  simp only [wake]
  cases hp : s.place u <;> first | rfl | (rw [hp] at h; exact absurd trivial h)

theorem Inv.wake (h : Inv s) : Inv s.wake where
  mutex := h.mutex
  fits u := wake_fits s u (h.fits u)
  main u v hu hv := h.main u v ((wake_place s u).1 ▸ hu) ((wake_place s v).1 ▸ hv)
  suspending u v hu hv := h.suspending u v ((wake_place s u).2.2.mp hu) ((wake_place s v).2.2.mp hv)
  busy hb := by
    obtain ⟨u,hu⟩ := h.busy hb
    exact ⟨u,(wake_place s u).1 ▸ hu⟩
  reader he := by
    obtain ⟨u,hu⟩ := h.reader he
    exact ⟨u,(wake_place s u).2.2.mpr hu⟩
  sleep _ u hu := absurd hu (wake_place s u).2.1

/-- The exits without a wake-up are taken only where nobody waits for one, and `do_write_buffer`
knows the width of the bus. -/
def Allowed (c : Cfi) (s : Chip) (a : ℕ × Input) : Prop :=
  match s.place a.1 with
  | .suspending => c.ready a.2.status = false → a.2.late = true → ∀ u op, s.place u ≠ .pollAsleep op
  | .filling z => c.WidthKnown ∧ (20 < z + 1 → s.Heard a.1)
  | .polling _ =>
    s.state ≠ .eraseSuspending → c.ready a.2.status = false → a.2.late = true → s.Heard a.1
  | .entry (.doEraseOneblock tried) =>
    0 < tried → s.state.idle → c.ready a.2.status = false → a.2.late = true → s.Heard a.1
  | .entry .doWriteBuffer => c.WidthKnown
  | _ => True

variable {c : Cfi} {suspend : Bool} {i : Input} {op : Op}

theorem Inv.relabel (h : Inv s) (hidle : s.state.idle) (hσ : σ.idle) :
    Inv { s with state := σ } where
  mutex := h.mutex
  fits u := by
    obtain ⟨hm,hs⟩ := idle_bystander hidle (h.fits u)
    exact fits_of_bystander hm hs
  main := h.main
  suspending := h.suspending
  busy hb := absurd hσ hb
  reader he := by
    rw [show σ = .eraseSuspending from he] at hσ
    exact hσ.elim
  sleep _ := h.sleep hidle

theorem Inv.moveOn (h : Inv s) (ht : s.place t = .entry op) (hp : ¬p.main) (hps : p ≠ .suspending)
    (hσ : σ = s.state ∨ σ.idle ∧ s.state.idle) (hsleep : σ.idle → ¬p.sleeps)
    (hret : (Place.entry op).retries → σ.idle → p.retries ∨ s.Heard t) :
    Inv ({ s with state := σ }.goto t p) :=
  h.still (by rw [ht]; exact id) (by rw [ht]; exact nofun) hp hps hσ hsleep (by rwa [ht])

theorem Inv.whenReady {go : Chip → Chip} (h : Inv s) (hidle : s.state.idle)
    (ht : s.place t = .entry op)
    (hgo : ∀ s', Inv s' → s'.state = .status → s'.place t = .entry op → Inv (go s'))
    (hheard : (Place.entry op).retries → c.ready i.status = false → i.late = true → s.Heard t) :
    Inv (whenReady c i t op go s) := by
  simp only [Chip.whenReady]
  split_ifs with hr hl
  · exact hgo _ (h.relabel hidle trivial) rfl ht
  · exact h.moveOn ht id nofun (.inr ⟨trivial,hidle⟩) (fun _ => id) fun hret _ =>
      .inr (hheard hret (Bool.eq_false_of_not_eq_true hr) hl)
  · exact h.moveOn ht id nofun (.inr ⟨trivial,hidle⟩) (fun _ => id) fun hret _ => .inl hret

theorem Inv.fallAsleep (h : Inv s) (hbusy : ¬s.state.idle) (ht : s.place t = .entry op) :
    Inv (s.goto t (.asleep op)) :=
  h.moveOn ht id nofun (.inl rfl) (fun hi => absurd hi hbusy) fun _ hi => absurd hi hbusy

theorem Inv.done (h : Inv s) (ht : s.place t = .entry op) (hop : ¬(Place.entry op).retries)
    (e : Errno) : Inv (s.wake.goto t (.idle e)) :=
  h.wake.moveOn ((wake_of_awake s (by rw [ht]; exact id)).trans ht) id nofun (.inl rfl)
    (fun _ => id) fun hret => absurd hret hop

theorem Inv.finish (h : Inv s) (hm : (s.place t).main) (hstate : s.state ≠ .eraseSuspending)
    (hσ : σ.idle) (e : Errno) : Inv ({ s with state := σ, oldstate := o }.wake.goto t (.idle e)) :=
  h.wake.leave ((wake_place s t).1 ▸ hm) hstate id nofun id hσ
    (.inr fun u hu => absurd hu (wake_place s u).2.1)

theorem Inv.suspendPoll (h : Inv s) (ht : s.place t = .suspending)
    (hallow : c.ready i.status = false → i.late = true → ∀ u op, s.place u ≠ .pollAsleep op) :
    Inv (suspendPoll c i t s) := by
  have hfit := h.fits t
  rw [ht] at hfit
  rw [Chip.suspendPoll]
  split_ifs with hr hl
  · have hres : Inv ({ s.wake with state := .erasing }.goto t (.idle .ok)) :=
      h.wake.resume ((wake_place s t).2.2.mpr ht) (wake_awake s) .ok
    rw [← hfit.2] at hres
    exact hres
  · exact h.resume ht (hallow (Bool.eq_false_of_not_eq_true hr) hl) .eio
  · have : s.goto t .suspending = s := by
      rw [goto,← ht,update_eq_self]
    rw [this]
    exact h

theorem suspendPoll_goto (c : Cfi) (i : Input) (t : ℕ) (s : Chip) :
    Chip.suspendPoll c i t (s.goto t .suspending) = Chip.suspendPoll c i t s := by
  have hwake : ∀ (s : Chip) p q, (s.goto t p).wake.goto t q = s.wake.goto t q := by
    intro s p q
    simp only [goto,wake,Chip.mk.injEq,true_and]
    grind
  simp only [Chip.suspendPoll]
  split_ifs
  · exact hwake { s with state := s.oldstate } _ _
  · simp only [goto,update_idem]
  · simp only [goto,update_idem]

theorem Inv.readEntry (h : Inv s) (ht : s.place t = .entry .doReadOnechip) :
    Inv (readEntry c suspend i t s) := by
  have hdone : ∀ s', Inv s' → s'.state = .status → s'.place t = .entry .doReadOnechip →
      Inv ({ s' with state := .ready }.wake.goto t (.idle .ok)) := by
    intro s' h' hs' ht'
    have hready : Inv { s' with state := .ready } := h'.relabel (by rw [hs']; trivial) trivial
    exact hready.done ht' id .ok
  cases hstate : s.state <;> simp only [Chip.readEntry,hstate]
  case ready => exact h.done ht id .ok
  case status | cfiQuery | jedecQuery =>
    exact h.whenReady (by rw [hstate]; trivial) ht hdone fun hr => hr.elim
  case erasing =>
    split_ifs
    · rw [← suspendPoll_goto]
      refine (h.suspend (by rw [ht]; exact id) hstate).suspendPoll (goto_self _ t _) fun _ _ => ?_
      -- while it is not suspended the erase is awake
      refine forall_goto (P := fun _ q => ∀ op, q ≠ .pollAsleep op) nofun fun u _ op hu => ?_
      have hfit := h.fits u
      rw [show s.place u = .pollAsleep op from hu,hstate] at hfit
      cases op <;> exact nomatch hfit
    · exact h.fallAsleep (by rw [hstate]; exact id) ht
  all_goals exact h.fallAsleep (by rw [hstate]; exact id) ht

theorem Inv.startWrite (h : Inv s) (hidle : s.state.idle)
    (hfit : (Place.polling op).fits .writing s.oldstate) : Inv (startWrite t op s) :=
  h.enter hidle trivial id (by decide) hfit

theorem Inv.writeEntry (h : Inv s) (ht : s.place t = .entry .doWriteOneword) :
    Inv (writeEntry c i t s) := by
  have hgo : ∀ s', Inv s' → s'.state = .status → s'.place t = .entry .doWriteOneword →
      Inv (Chip.startWrite t .doWriteOneword s') := fun s' h' hs' _ =>
    h'.startWrite (by rw [hs']; trivial) rfl
  cases hstate : s.state <;> simp only [Chip.writeEntry,hstate]
  case ready => exact h.startWrite (by rw [hstate]; trivial) rfl
  case status | cfiQuery | jedecQuery =>
    exact h.whenReady (by rw [hstate]; trivial) ht hgo fun hr => hr.elim
  all_goals exact h.fallAsleep (by rw [hstate]; exact id) ht

theorem Inv.fill (h : Inv s) {y z : ℕ} {w : Word} (ht : s.place t = .filling y)
    (hwidth : c.WidthKnown) : Inv (fill c t z w s) := by
  have hm : (s.place t).main := by rw [ht]; trivial
  have hstate : s.state = .writingToBuffer := by
    have hfit := h.fits t
    rwa [ht] at hfit
  rw [Chip.fill]
  split_ifs
  · exact h.keep hm trivial id (.inr ⟨by rw [hstate]; decide,by decide⟩) rfl
  · exact h.keep hm trivial (by rw [hstate]; exact id) (.inl ⟨rfl,rfl⟩) hstate

theorem fill_goto (c : Cfi) (t z z' : ℕ) (w : Word) (hwidth : c.WidthKnown) (s : Chip) :
    Chip.fill c t z w (s.goto t (.filling z')) = Chip.fill c t z w s := by
  simp only [Chip.fill,hwidth,if_true,Chip.startWrite,goto,update_idem]

theorem Inv.bufferEntry (h : Inv s) (ht : s.place t = .entry .doWriteBuffer)
    (hwidth : c.WidthKnown) : Inv (bufferEntry c i t s) := by
  have hgo : ∀ s', Inv s' → s'.state = .status → s'.place t = .entry .doWriteBuffer →
      Inv (Chip.fill c t 0 i.status2 { s' with state := .writingToBuffer }) := by
    intro s' h' hs' _
    rw [← fill_goto c t 0 0 _ hwidth]
    refine Inv.fill (y := 0) ?_ (goto_self _ t _) hwidth
    exact h'.enter (by rw [hs']; trivial) trivial id (by decide) rfl
  cases hstate : s.state <;> simp only [Chip.bufferEntry,hstate]
  case ready | status | cfiQuery | jedecQuery =>
    exact h.whenReady (by rw [hstate]; trivial) ht hgo fun hr => hr.elim
  all_goals exact h.fallAsleep (by rw [hstate]; exact id) ht

theorem Inv.bufferFilling (h : Inv s) {z : ℕ} (ht : s.place t = .filling z)
    (hwidth : c.WidthKnown) (hheard : 20 < z + 1 → s.Heard t) : Inv (bufferFilling c i t z s) := by
  rw [Chip.bufferFilling]
  split_ifs with hz
  · have hfit := h.fits t
    rw [ht] at hfit
    have hstate : s.state = .writingToBuffer := hfit
    exact h.leave (by rw [ht]; trivial) (by rw [hstate]; decide) id nofun id trivial
      (.inr (hheard hz))
  · exact h.fill ht hwidth

theorem Inv.eraseEntry (h : Inv s) {r : ℕ} (ht : s.place t = .entry (.doEraseOneblock r))
    (hheard : 0 < r → s.state.idle → c.ready i.status = false → i.late = true → s.Heard t) :
    Inv (eraseEntry c i t r s) := by
  have hgo : ∀ s', Inv s' → s'.state = .status → s'.place t = .entry (.doEraseOneblock r) →
      Inv ({ s' with state := .erasing, oldstate := .ready }.goto t
        (.polling (.doEraseOneblock r))) := fun s' h' hs' _ =>
    h'.enter (by rw [hs']; trivial) trivial id (by decide) (.inl rfl)
  cases hstate : s.state <;> simp only [Chip.eraseEntry,hstate]
  case ready | status | cfiQuery | jedecQuery =>
    have hidle : s.state.idle := by rw [hstate]; trivial
    exact h.whenReady hidle ht hgo fun hr => hheard hr hidle
  all_goals exact h.fallAsleep (by rw [hstate]; exact id) ht

theorem Inv.writePoll (h : Inv s) (ht : s.place t = .polling op)
    (hop : op = .doWriteOneword ∨ op = .doWriteBuffer) (ret : Errno)
    (hheard : s.state ≠ .eraseSuspending → c.ready i.status = false → i.late = true → s.Heard t) :
    Inv (writePoll c i t op ret s) := by
  have hm : (s.place t).main := by rw [ht]; trivial
  have hstate : s.state = .writing := by
    have hfit := h.fits t
    rw [ht] at hfit
    obtain rfl | rfl := hop <;> exact hfit
  have hne : s.state ≠ .eraseSuspending := by rw [hstate]; decide
  rw [Chip.writePoll,if_neg (not_not.mpr hstate)]
  split_ifs with hr hl
  · refine h.finish hm hne ?_ ret
    trivial
  · exact h.leave hm hne id nofun id trivial
      (.inr (hheard hne (Bool.eq_false_of_not_eq_true hr) hl))
  · exact h

theorem Inv.setOldstate (h : Inv s) (hstate : s.state ≠ .eraseSuspending) :
    Inv { s with oldstate := o } where
  mutex := h.mutex
  fits u := by
    have hfit := h.fits u
    cases hp : s.place u with
    | suspending =>
      rw [hp] at hfit
      exact absurd hfit.1 hstate
    | idle | entry | asleep => trivial
    | filling =>
      rw [hp] at hfit
      exact hfit
    | polling op | pollAsleep op =>
      rw [hp] at hfit
      cases op <;> exact hfit
  main := h.main
  suspending := h.suspending
  busy := h.busy
  reader he := absurd he hstate
  sleep := h.sleep

theorem Inv.eraseCheck (h : Inv s) {r : ℕ} (ht : s.place t = .polling (.doEraseOneblock r))
    (hstate : s.state = .erasing)
    (hheard : c.ready i.status = false → i.late = true → s.Heard t) :
    Inv (eraseCheck c i t r s) := by
  have hm : (s.place t).main := by rw [ht]; trivial
  have hne : s.state ≠ .eraseSuspending := by rw [hstate]; decide
  have hdone : ∀ e, Inv ({ s with state := .status }.wake.goto t (.idle e)) := by
    intro e
    refine h.finish hm hne ?_ e
    trivial
  rw [Chip.eraseCheck]
  by_cases hr : c.ready i.status = true
  · rw [if_pos hr]
    cases c.eraseAttempt i.status2 with
    | ret e => exact hdone e
    | retry =>
      split_ifs
      · exact h.leave hm hne id nofun id trivial (.inl (Nat.succ_pos r))
      · exact hdone .eio
  · split_ifs with hl
    · exact h.leave hm hne id nofun id trivial
        (.inr (hheard (Bool.eq_false_of_not_eq_true hr) hl))
    · exact h

theorem Inv.erasePoll (h : Inv s) {r : ℕ} (ht : s.place t = .polling (.doEraseOneblock r))
    (hheard : s.state ≠ .eraseSuspending → c.ready i.status = false → i.late = true → s.Heard t) :
    Inv (erasePoll c i t r s) := by
  have hm : (s.place t).main := by rw [ht]; trivial
  have hfit := h.fits t
  rw [ht] at hfit
  rw [Chip.erasePoll]
  obtain hstate | hstate := hfit
  · have hne : s.state ≠ .eraseSuspending := by rw [hstate]; decide
    rw [if_neg (not_not.mpr hstate)]
    split_ifs
    · exact (h.setOldstate hne).eraseCheck ht hstate (hheard hne)
    · exact h.eraseCheck ht hstate (hheard hne)
  · rw [if_pos (by rw [hstate]; decide)]
    exact h.keep hm trivial (by rw [hstate]; exact id) (.inl ⟨rfl,rfl⟩) hstate

theorem Inv.step {a : ℕ × Input} {s' : Chip} (h : Inv s) (ha : Allowed c s a)
    (hstep : Chip.step c suspend s a = some s') : Inv s' := by
  obtain ⟨t,i⟩ := a
  simp only [Chip.step,h.mutex,Bool.false_eq_true,if_false] at hstep
  simp only [Allowed] at ha
  cases hp : s.place t with
  | idle e =>
    simp only [hp,Option.some.injEq] at hstep
    subst hstep
    exact h.still (by rw [hp]; exact id) (by rw [hp]; exact nofun) id nofun (.inl rfl) (fun _ => id)
      fun hr => by
        rw [hp] at hr
        exact hr.elim
  | entry op =>
    cases op <;> simp only [hp,Option.some.injEq] at hstep ha <;> subst hstep
    case doReadOnechip => exact h.readEntry hp
    case doWriteOneword => exact h.writeEntry hp
    case doWriteBuffer => exact h.bufferEntry hp ha
    case doEraseOneblock r => exact h.eraseEntry hp ha
  | suspending =>
    simp only [hp,Option.some.injEq] at hstep ha
    subst hstep
    exact h.suspendPoll hp ha
  | filling z =>
    simp only [hp,Option.some.injEq] at hstep ha
    subst hstep
    exact h.bufferFilling hp ha.1 ha.2
  | polling op =>
    cases op <;> simp only [hp,Option.some.injEq,reduceCtorEq] at hstep ha <;> subst hstep
    case doWriteOneword => exact h.writePoll hp (.inl rfl) _ ha
    case doWriteBuffer => exact h.writePoll hp (.inr rfl) _ ha
    case doEraseOneblock r => exact h.erasePoll hp ha
  | asleep | pollAsleep => simp [hp] at hstep

/-- In every interleaving whose steps are all allowed, nobody is left asleep on an idle chip and the
lock is given back, in every state that is reached. -/
theorem handover (c : Cfi) (suspend : Bool) {as : List (ℕ × Input)} {s : Chip}
    (hm : Meets (Chip.step c suspend) (Allowed c) Chip.fresh as)
    (hr : run (Chip.step c suspend) Chip.fresh as = some s) : Good s :=
  (invariant (Chip.step c suspend) (fun _ _ _ hs ha ht => Inv.step hs ha ht) Inv.fresh hm hr).good

/-- A writer begins, and a reader finds the chip busy. -/
def readerWaits : List (ℕ × Input) :=
  [(0,⟨.doWriteOneword,0,0,false⟩),(0,⟨.doWriteOneword,0x80,0,false⟩),
    (1,⟨.doReadOnechip,0,0,false⟩),(1,⟨.doReadOnechip,0,0,false⟩)]

theorem handover_ready :
    ∃ s, run (step ⟨2,1,2⟩ true) fresh (readerWaits ++ [(0,⟨.doWriteOneword,0x80,0,false⟩)]) =
      some s ∧ Good s := by
  have hm : Meets (step ⟨2,1,2⟩ true) (Allowed ⟨2,1,2⟩) fresh
      (readerWaits ++ [(0,⟨.doWriteOneword,0x80,0,false⟩)]) := by
    refine ⟨trivial,fun s hs => ?_⟩
    cases hs
    refine ⟨trivial,fun s hs => ?_⟩
    cases hs
    refine ⟨trivial,fun s hs => ?_⟩
    cases hs
    refine ⟨trivial,fun s hs => ?_⟩
    cases hs
    exact ⟨fun _ h => absurd h (by decide),fun _ _ => trivial⟩
  exact ⟨_,rfl,handover ⟨2,1,2⟩ true hm rfl⟩

/-- The chip does not get ready, and the writer gives up without a word. -/
theorem reader_left_asleep :
    ∃ s, run (step ⟨2,1,2⟩ true) fresh (readerWaits ++ [(0,⟨.doWriteOneword,0,0,true⟩)]) =
      some s ∧ ¬Good s := by
  refine ⟨_,rfl,fun h => ?_⟩
  obtain ⟨u,hu⟩ := h.served 1 trivial
  match u with
  | 0 => exact hu
  | 1 => exact hu
  | u + 2 => exact hu

end Chip

end Simpad.Mtd
