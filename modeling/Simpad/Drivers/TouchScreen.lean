import Simpad.Base.RingBuffer
import Simpad.Base.Runs

/-! The event stream of the touch screen. An event carries the number of its contact and whether it is a
sample, which the code does not record. -/

namespace Simpad.TouchScreen

open List Runs

/-- A `ts_event`, the contact it was made in and its kind. -/
structure Event where
  pressure : BitVec 16
  x : BitVec 16
  y : BitVec 16
  contact : ℕ
  sample : Bool

structure State where
  ring : RingBuffer Event 15
  valid : Bool
  /-- the contacts that have ended -/
  contact : ℕ
  /-- the events that user space has got, the oldest first -/
  stream : List Event

def State.init : State := ⟨⟨0,0,fun _ => ⟨0,0,0,0,false⟩⟩,false,0,[]⟩

inductive Op
  | sample (p x y : BitVec 32) (restart : Bool)
  | penUp
  | read (copied : Bool)

/-- `ucb1x00_ts_evt_add`: a full ring drops the event. -/
def State.evtAdd (s : State) (p x y : BitVec 32) (sample : Bool) : State :=
  { s with ring := s.ring.push ⟨p.setWidth 16,x.setWidth 16,y.setWidth 16,s.contact,sample⟩ }

def State.eventRelease (s : State) : State := s.evtAdd 0 0 0 false

/-- The branch of the loop for a pen that is down; after a resume the sample is not used. -/
def State.penDown (s : State) (p x y : BitVec 32) (restart : Bool) : State :=
  if restart then s else { s.evtAdd p x y true with valid := true }

def State.penUp (s : State) : State :=
  if s.valid then { s.eventRelease with valid := false, contact := s.contact + 1 } else s

/-- One event of `ucb1x00_ts_read`: it is pulled even if the copy to user space failed. -/
def State.read (s : State) (copied : Bool) : State :=
  if s.ring.head = s.ring.tail then s
  else
    { s with
      ring := s.ring.pull
      stream := if copied then s.stream ++ [s.ring.slots s.ring.tail] else s.stream }

def step (s : State) : Op → Option State
  | .sample p x y restart => some (s.penDown p x y restart)
  | .penUp => some s.penUp
  | .read copied => some (s.read copied)

def State.events (s : State) : List Event := s.stream ++ s.ring.contents

/-- Every sample of one of the first `n` contacts is followed by a release, with no sample of
another contact in between. -/
def Released (l : List Event) (n : ℕ) : Prop :=
  ∀ l₁ e l₂, l = l₁ ++ e :: l₂ → e.sample = true → e.contact < n →
    ∃ l₃ r l₄, l₂ = l₃ ++ r :: l₄ ∧ r.sample = false ∧ r.pressure = 0 ∧
      ∀ d ∈ l₃, d.sample = true → d.contact = e.contact

/-- A release finds room in the ring, and no event is copied into a page that is not there. -/
def Keeps (s : State) : Op → Prop
  | .sample _ _ _ _ => True
  | .penUp => s.valid = true → ¬s.ring.Full
  | .read copied => copied = true

/-- A stream in which `n` contacts have ended. -/
structure Stream (l : List Event) (n : ℕ) : Prop where
  released : Released l n
  ordered : l.Pairwise fun d e => d.contact ≤ e.contact
  bounded : ∀ e ∈ l, e.contact ≤ n

variable {s s' : State} {op : Op} {ops : List Op}

variable {n : ℕ} {l : List Event}

theorem Released.append {l' : List Event} (h : Released l n) (hnew : ∀ e ∈ l', n ≤ e.contact) :
    Released (l ++ l') n := by
  intro l₁ e l₂ heq hsample hlt
  rcases append_eq_append_iff.mp heq with ⟨m,rfl,hl'⟩ | ⟨m,hl,hm⟩
  · have hmem : e ∈ l' := by
      grind
    grind
  · cases m with
    | nil =>
      have hmem : e ∈ l' := by
        grind
      grind
    | cons d m =>
      obtain ⟨rfl,rfl⟩ : e = d ∧ l₂ = m ++ l' := by simpa using hm
      obtain ⟨l₃,r,l₄,rfl,hr⟩ := h l₁ e m hl hsample hlt
      exact ⟨l₃,r,l₄ ++ l',by simp,hr⟩

theorem Released.close {r : Event} (h : Released l n)
    (hord : l.Pairwise fun d e => d.contact ≤ e.contact) (hle : ∀ e ∈ l, e.contact ≤ n)
    (hr : r.sample = false) (hp : r.pressure = 0) (hc : r.contact = n) :
    Released (l ++ [r]) (n + 1) := by
  intro l₁ e l₂ heq hsample hlt
  by_cases hold : e.contact < n
  · refine h.append (fun d hd => ?_) l₁ e l₂ heq hsample hold
    rw [mem_singleton.mp hd,hc]
  · -- `e` belongs to the contact that ends here
    rcases l₂.eq_nil_or_concat with rfl | ⟨m,b,rfl⟩
    · obtain ⟨-,hre⟩ := append_inj' heq rfl
      grind
    · have heq' : l ++ [r] = (l₁ ++ e :: m) ++ [b] := by simpa using heq
      obtain ⟨hl,hb⟩ := append_inj' heq' rfl
      refine ⟨m,r,[],by grind,hr,hp,fun d hd _ => ?_⟩
      rw [hl] at hord hle
      have hge := rel_of_pairwise_cons (pairwise_append.mp hord).2.1 hd
      have := hle d (mem_append_right l₁ (mem_cons_of_mem e hd))
      omega

theorem Stream.push {e : Event} (h : Stream l n) (he : e.contact = n) : Stream (l ++ [e]) n := by
  refine ⟨h.released.append fun d hd => ?_,?_,fun d hd => ?_⟩
  · rw [mem_singleton.mp hd,he]
  · refine pairwise_append.mpr ⟨h.ordered,pairwise_singleton _ _,fun d hd d' hd' => ?_⟩
    rw [mem_singleton.mp hd',he]
    exact h.bounded d hd
  · rcases mem_append.mp hd with hd | hd
    · exact h.bounded d hd
    · rw [mem_singleton.mp hd,he]

theorem Stream.close {r : Event} (h : Stream l n) (hr : r.sample = false) (hp : r.pressure = 0)
    (hc : r.contact = n) : Stream (l ++ [r]) (n + 1) := by
  have hpush := h.push hc
  exact ⟨h.released.close h.ordered h.bounded hr hp hc,hpush.ordered,
    fun e he => Nat.le_succ_of_le (hpush.bounded e he)⟩

theorem events_of_full {s : State} {p x y : BitVec 32} {sample : Bool} (hfull : s.ring.Full) :
    (s.evtAdd p x y sample).events = s.events := by
  show s.stream ++ (s.ring.push _).contents = _
  rw [s.ring.push_full hfull]
  rfl

theorem events_of_not_full {s : State} {p x y : BitVec 32} {sample : Bool} (hfull : ¬s.ring.Full) :
    (s.evtAdd p x y sample).events =
      s.events ++ [⟨p.setWidth 16,x.setWidth 16,y.setWidth 16,s.contact,sample⟩] := by
  show s.stream ++ (s.ring.push _).contents = _
  rw [s.ring.contents_push hfull,← append_assoc]
  rfl

theorem events_read (s : State) : (s.read true).events = s.events := by
  unfold State.read
  split
  · rfl
  · next hne =>
    simp [State.events,s.ring.contents_pull hne]

theorem step_stream (h : Stream s.events s.contact) (hk : Keeps s op) (hs : step s op = some s') :
    Stream s'.events s'.contact := by
  cases op with
  | sample p x y restart =>
    cases hs
    cases restart with
    | true => exact h
    | false =>
      show Stream (s.evtAdd p x y true).events s.contact
      by_cases hfull : s.ring.Full
      · rw [events_of_full hfull]
        exact h
      · rw [events_of_not_full hfull]
        exact h.push rfl
  | penUp =>
    cases hs
    unfold State.penUp
    split
    · next hv =>
      show Stream (s.evtAdd 0 0 0 false).events (s.contact + 1)
      rw [events_of_not_full (hk hv)]
      exact h.close rfl rfl rfl
    · exact h
  | read copied =>
    obtain rfl : copied = true := hk
    cases hs
    rw [events_read]
    unfold State.read
    split <;> exact h

theorem init_stream : Stream State.init.events State.init.contact := by
  refine ⟨fun l₁ e l₂ heq => ?_,.nil,fun e he => ?_⟩
  · exact absurd heq.symm (append_ne_nil_of_right_ne_nil l₁ (cons_ne_nil e l₂))
  · cases he

/-- Read to the end, the stream has a release for every contact that has ended, as long as no
release is dropped. -/
theorem contacts_released (hm : Meets TouchScreen.step Keeps .init ops)
    (hr : run TouchScreen.step .init ops = some s) : Released s.events s.contact :=
  have hinv : Stream s.events s.contact := invariant TouchScreen.step
    (fun _ _ _ h hk hs => step_stream h hk hs) init_stream hm hr
  hinv.released

theorem contacts_released_once : ∃ s, run TouchScreen.step .init
      [.sample 90 10 20 false,.read true,.penUp,.read true] = some s ∧ s.contact = 1 ∧
    Released s.events s.contact := by
  have hm : Meets TouchScreen.step Keeps .init
      [.sample 90 10 20 false,.read true,.penUp,.read true] := by
    refine ⟨trivial,fun s₁ h₁ => ⟨rfl,fun s₂ h₂ => ⟨fun _ => ?_,fun _ _ => ⟨rfl,fun _ _ => trivial⟩⟩⟩⟩
    cases h₁
    cases h₂
    decide
  exact ⟨_,rfl,rfl,contacts_released hm rfl⟩

/-- Fifteen samples fill the ring, and the release is dropped. -/
theorem release_dropped : ∃ s, run TouchScreen.step .init
      (List.replicate 15 (.sample 90 10 20 false) ++ [.penUp]) = some s ∧ s.contact = 1 ∧
    s.events.length = 15 ∧ ¬Released s.events s.contact := by
  refine ⟨_,rfl,rfl,rfl,fun h => ?_⟩
  obtain ⟨l₃,r,l₄,heq,hr,-⟩ := h [] _ _ rfl rfl Nat.one_pos
  have hall : ∀ e ∈ l₃ ++ r :: l₄, e.sample = true := by
    rw [← heq]
    decide
  grind

end Simpad.TouchScreen
