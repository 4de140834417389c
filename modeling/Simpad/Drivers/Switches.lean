import Simpad.Base.Runs

/-! The console switches. Actions carry the number of the interrupt that made them, and the state what the
current opener has read; the code has neither. -/

namespace Simpad.Switches

open List Runs

/-- `switches_mask_t`. -/
structure Mask where
  count : ℕ
  events : BitVec 128
  states : BitVec 128

/-- `SWITCHES_ZERO`. -/
def Mask.zero : Mask := ⟨0,0#128,0#128⟩

/-- `SWITCHES_SET`. -/
def Mask.set (m : Mask) (i : ℕ) (s : Bool) : Mask where
  count := m.count + 1
  events := m.events ||| BitVec.twoPow 128 i
  states := if s then m.states ||| BitVec.twoPow 128 i else m.states &&& ~~~BitVec.twoPow 128 i

/-- A `switches_action`, with the number of its interrupt. -/
structure Action where
  mask : Mask
  stamp : ℕ

structure State where
  users : ℕ
  queue : List Action
  states : BitVec 32
  /-- the interrupts so far -/
  now : ℕ
  /-- the interrupts before the last open -/
  opened : ℕ
  /-- what the opener has read, the oldest first -/
  seen : List Action

def State.init : State := ⟨0,[],0#32,0,0,[]⟩

inductive Op
  | irq (n : Fin 6) (io : BitVec 16) (alloc : Bool)
  | open
  | read (count : ℕ) (area copied : Bool)
  | release

/-- `simpad_switches_ucb1x00_handler`: the mask and the new `states`.  A switch that is pressed
pulls its pin low. -/
def simpadHandler (states : BitVec 32) (n : Fin 6) (io : BitVec 16) : Mask × BitVec 32 :=
  let last := states.getLsbD n
  let this := (~~~io).getLsbD n
  if last = this then (.zero,states)
  else
    (Mask.zero.set (n + 3) this,
      if this then states ||| BitVec.twoPow 32 n else states &&& ~~~BitVec.twoPow 32 n)

/-- `switches_event`; `alloc` says whether `kmalloc` has memory. -/
def State.event (s : State) (mask : Mask) (alloc : Bool) : State :=
  if 0 < s.users ∧ 0 < mask.count then
    if alloc then { s with queue := s.queue ++ [⟨mask,s.now⟩] } else s
  else s

def State.handler (s : State) (n : Fin 6) (io : BitVec 16) (alloc : Bool) : State :=
  let r := simpadHandler s.states n io
  let t := ({ s with states := r.2 } : State).event r.1 alloc
  { t with now := s.now + 1 }

/-- `sizeof(struct switches_mask_t)`. -/
def sizeofMask : ℕ := 36

/-- `switches_read`: nothing is read if the buffer is too small or not writable, or the queue
is empty.  Whether `copy_to_user` succeeded is not looked at. -/
def State.read (s : State) (count : ℕ) (area copied : Bool) : State :=
  if count < sizeofMask then s
  else
    match s.queue with
    | [] => s
    | action :: queue =>
      if area then
        { s with queue := queue, seen := if copied then s.seen ++ [action] else s.seen }
      else s

/-- One call or interrupt; only who has the device open can read or release it. -/
def step (s : State) : Op → Option State
  | .irq n io alloc => some (s.handler n io alloc)
  | .open =>
    if 0 < s.users then some s
    else some { s with users := s.users + 1, opened := s.now, seen := [] }
  | .read count area copied => if 0 < s.users then some (s.read count area copied) else none
  | .release => if 0 < s.users then some { s with users := s.users - 1 } else none

/-- The states reported for switch `n`. -/
def reports (n : Fin 6) (l : List Action) : List Bool :=
  (l.filter fun a => a.mask.events.getLsbD (n + 3)).map fun a => a.mask.states.getLsbD (n + 3)

/-- What the opener has read happened after the open, in this order, and every switch was pressed
and released in turn. -/
structure State.InSession (s : State) : Prop where
  after : ∀ a ∈ s.seen, s.opened ≤ a.stamp
  order : s.seen.Pairwise fun a b => a.stamp < b.stamp
  alternate : ∀ n, (reports n s.seen).IsChain (· ≠ ·)

def State.Changed (s : State) (n : Fin 6) (io : BitVec 16) : Prop :=
  s.states.getLsbD n ≠ (~~~io).getLsbD n

/-- No event is left over at an open, none is lost for want of memory, and none is copied into a
page that is not there. -/
def Keeps (s : State) : Op → Prop
  | .irq n io alloc => 0 < s.users → s.Changed n io → alloc = true
  | .open => s.users = 0 → s.queue = []
  | .read _ area copied => area = true → copied = true
  | .release => True

variable {s s' : State} {op : Op} {ops : List Op}

variable {n : Fin 6} {states : BitVec 32} {io : BitVec 16}

theorem handler_same (h : states.getLsbD n = (~~~io).getLsbD n) :
    simpadHandler states n io = (.zero,states) :=
  if_pos h

/-- The mask names the one switch that changed, and `states` follows it. -/
theorem handler_changed (h : states.getLsbD n ≠ (~~~io).getLsbD n) :
    (simpadHandler states n io).1.count = 1 ∧
    (∀ m : Fin 6, (simpadHandler states n io).1.events.getLsbD (m + 3) = decide (m = n)) ∧
    (simpadHandler states n io).1.states.getLsbD (n + 3) = (~~~io).getLsbD n ∧
    ∀ m : Fin 6, (simpadHandler states n io).2.getLsbD m =
      if m = n then (~~~io).getLsbD n else states.getLsbD m := by
  have hset : simpadHandler states n io = (Mask.zero.set (n + 3) ((~~~io).getLsbD n),
      if (~~~io).getLsbD n then states ||| BitVec.twoPow 32 n
      else states &&& ~~~BitVec.twoPow 32 n) := if_neg h
  rw [hset]
  generalize (~~~io).getLsbD n = this
  have hn₁ : (n : ℕ) + 3 < 128 := by omega
  have hn₂ : (n : ℕ) < 32 := by omega
  refine ⟨rfl,fun m => ?_,?_,fun m => ?_⟩
  · by_cases heq : m = n
    · subst heq
      simp [Mask.set,Mask.zero,hn₁]
    · have hne : ¬(n : ℕ) = m := fun h => heq (Fin.ext h.symm)
      simp [Mask.set,Mask.zero,heq,hne]
  · cases this <;> simp [Mask.set,Mask.zero,hn₁]
  · have hm : (m : ℕ) < 32 := by omega
    by_cases heq : m = n
    · grind
    · have hne : ¬(m : ℕ) = n := fun h => heq (Fin.ext h)
      cases this <;> simp [heq,hne,hm]

theorem reports_append (n : Fin 6) (l₁ l₂ : List Action) :
    reports n (l₁ ++ l₂) = reports n l₁ ++ reports n l₂ := by
  rw [reports,filter_append,map_append]
  rfl

/-- The device is open: all that was queued in this session, read or not. -/
structure State.Live (s : State) : Prop where
  since : s.opened ≤ s.now
  after : ∀ a ∈ s.seen ++ s.queue, s.opened ≤ a.stamp ∧ a.stamp < s.now
  order : (s.seen ++ s.queue).Pairwise fun a b => a.stamp < b.stamp
  alternate : ∀ n, (reports n (s.seen ++ s.queue)).IsChain (· ≠ ·)
  last : ∀ n b, (reports n (s.seen ++ s.queue)).getLast? = some b → b = s.states.getLsbD n

theorem State.Live.inSession (h : s.Live) : s.InSession := by
  refine ⟨fun a ha => (h.after a (mem_append_left _ ha)).1,(pairwise_append.mp h.order).1,
    fun n => ?_⟩
  have := h.alternate n
  rw [reports_append] at this
  exact (isChain_append.mp this).1

theorem State.Live.of_append {t : State} (h : s.Live) (hl : t.seen ++ t.queue = s.seen ++ s.queue)
    (hopened : t.opened = s.opened) (hnow : s.now ≤ t.now) (hstates : t.states = s.states) :
    t.Live := by
  refine ⟨hopened ▸ h.since.trans hnow,fun a ha => ?_,hl ▸ h.order,hl ▸ h.alternate,?_⟩
  · have := h.after a (hl ▸ ha)
    omega
  · rw [hl,hstates]
    exact h.last

theorem State.Live.push (h : s.Live) (hchanged : s.Changed n io) :
    ({ s with
      states := (simpadHandler s.states n io).2
      queue := s.queue ++ [⟨(simpadHandler s.states n io).1,s.now⟩]
      now := s.now + 1 } : State).Live := by
  obtain ⟨-,hevents,hstate,hstates⟩ := handler_changed hchanged
  generalize simpadHandler s.states n io = r at *
  have hsplit : s.seen ++ (s.queue ++ [⟨r.1,s.now⟩]) = (s.seen ++ s.queue) ++ [⟨r.1,s.now⟩] := by
    rw [append_assoc]
  -- the new action is a report for the switch that changed, and for no other
  have hreports : ∀ m, reports m ((s.seen ++ s.queue) ++ [⟨r.1,s.now⟩]) =
      reports m (s.seen ++ s.queue) ++ if m = n then [(~~~io).getLsbD n] else [] := by
    intro m
    by_cases heq : m = n
    · subst heq
      simp [reports,hevents,hstate]
    · simp [reports,hevents,heq]
  refine ⟨h.since.trans (Nat.le_succ _),?_,?_,?_,?_⟩
  · intro a ha
    simp only [hsplit] at ha
    rcases mem_append.mp ha with ha | ha
    · have := h.after a ha
      grind
    · rw [mem_singleton.mp ha]
      exact ⟨h.since,Nat.lt_succ_self _⟩
  · simp only [hsplit]
    refine pairwise_append.mpr ⟨h.order,pairwise_singleton _ _,fun a ha b hb => ?_⟩
    rw [mem_singleton.mp hb]
    exact (h.after a ha).2
  · intro m
    simp only [hsplit,hreports]
    by_cases heq : m = n
    · subst heq
      rw [if_pos rfl]
      refine isChain_append.mpr ⟨h.alternate m,isChain_singleton _,fun b hb c hc => ?_⟩
      rw [h.last m b hb]
      obtain rfl : (~~~io).getLsbD m = c := by simpa using hc
      exact hchanged
    · rw [if_neg heq,append_nil]
      exact h.alternate m
  · intro m b hb
    simp only [hsplit,hreports] at hb
    rw [hstates]
    by_cases heq : m = n
    · grind
    · rw [if_neg heq,append_nil] at hb
      rw [if_neg heq]
      exact h.last m b hb

/-- While the device is open the session is live; what was read stays in order. -/
structure State.Inv (s : State) : Prop where
  live : 0 < s.users → s.Live
  session : s.InSession

theorem State.Inv.of_live (h : s.Live) : s.Inv := ⟨fun _ => h,h.inSession⟩

theorem handler_cases (s : State) (n : Fin 6) (io : BitVec 16) (alloc : Bool) :
    (¬s.Changed n io ∧ s.handler n io alloc = { s with now := s.now + 1 }) ∨
    (s.Changed n io ∧ s.users = 0 ∧ s.handler n io alloc =
      { s with states := (simpadHandler s.states n io).2, now := s.now + 1 }) ∨
    (s.Changed n io ∧ 0 < s.users ∧ (alloc = true → s.handler n io alloc = { s with
      states := (simpadHandler s.states n io).2
      queue := s.queue ++ [⟨(simpadHandler s.states n io).1,s.now⟩]
      now := s.now + 1 })) := by
  by_cases hc : s.Changed n io
  · obtain ⟨hcount,-⟩ := handler_changed hc
    by_cases hu : 0 < s.users
    · refine Or.inr (Or.inr ⟨hc,hu,fun ha => ?_⟩)
      simp [State.handler,State.event,hu,hcount,ha]
    · refine Or.inr (Or.inl ⟨hc,Nat.eq_zero_of_not_pos hu,?_⟩)
      simp [State.handler,State.event,hu]
  · refine Or.inl ⟨hc,?_⟩
    rw [State.handler,handler_same (not_not.mp hc)]
    simp [State.event,Mask.zero]

theorem State.Inv.handler {alloc : Bool} (h : s.Inv) (hk : Keeps s (.irq n io alloc)) :
    (s.handler n io alloc).Inv := by
  rcases handler_cases s n io alloc with ⟨-,heq⟩ | ⟨-,hu,heq⟩ | ⟨hc,hu,heq⟩
  · rw [heq]
    exact ⟨fun hu => (h.live hu).of_append rfl rfl (Nat.le_succ _) rfl,
      ⟨h.session.after,h.session.order,h.session.alternate⟩⟩
  · rw [heq]
    exact ⟨fun hu' => absurd hu (Nat.ne_of_gt hu'),
      ⟨h.session.after,h.session.order,h.session.alternate⟩⟩
  · rw [heq (hk hu hc)]
    exact .of_live ((h.live hu).push hc)

theorem State.Inv.read {count : ℕ} {area copied : Bool} (h : s.Inv) (hu : 0 < s.users)
    (hk : Keeps s (.read count area copied)) : (s.read count area copied).Inv := by
  unfold State.read
  split
  · exact h
  · split
    · exact h
    · next action queue hq =>
      split
      · next ha =>
        rw [if_pos (hk ha)]
        refine .of_live ((h.live hu).of_append ?_ rfl le_rfl rfl)
        grind
      · exact h

theorem State.Inv.step (h : s.Inv) (hk : Keeps s op) (hs : step s op = some s') : s'.Inv := by
  cases op with
  | irq n io alloc =>
    cases hs
    exact h.handler hk
  | «open» =>
    simp only [Switches.step] at hs
    split at hs
    · cases hs
      exact h
    · next hu =>
      cases hs
      have hq : s.queue = [] := hk (Nat.eq_zero_of_not_pos hu)
      refine .of_live ⟨le_rfl,?_,?_,?_,?_⟩
      · simp [hq]
      · simp [hq]
      · simp [hq,reports]
      · simp [hq,reports]
  | read count area copied =>
    simp only [Switches.step] at hs
    split at hs
    · next hu =>
      cases hs
      exact h.read hu hk
    · cases hs
  | release =>
    simp only [Switches.step] at hs
    split at hs
    · next hu =>
      cases hs
      exact ⟨fun _ => (h.live hu).of_append rfl rfl le_rfl rfl,
        ⟨h.session.after,h.session.order,h.session.alternate⟩⟩
    · cases hs

theorem init_inv : State.init.Inv :=
  ⟨fun hu => absurd hu (lt_irrefl 0),⟨fun _ ha => absurd ha not_mem_nil,.nil,fun _ => .nil⟩⟩

/-- Every opener reads the events of its own session, and every switch alternates, as long as no
event is left over, lost or copied in vain. -/
theorem session_events (hm : Meets Switches.step Keeps .init ops)
    (hr : run Switches.step .init ops = some s) : s.InSession :=
  (invariant Switches.step (fun _ _ _ h hk hs => h.step hk hs) init_inv hm hr).session

theorem session_events_pressed : ∃ s, run Switches.step .init
      [.open,.irq 0 0xfffe#16 true,.irq 0 0xffff#16 true,.read 36 true true,.read 36 true true] =
        some s ∧ s.seen.length = 2 ∧ s.InSession := by
  have hm : Meets Switches.step Keeps .init
      [.open,.irq 0 0xfffe#16 true,.irq 0 0xffff#16 true,.read 36 true true,.read 36 true true] :=
    ⟨fun _ => rfl,fun _ _ => ⟨fun _ _ => rfl,fun _ _ => ⟨fun _ _ => rfl,fun _ _ =>
      ⟨fun _ => rfl,fun _ _ => ⟨fun _ => rfl,fun _ _ => trivial⟩⟩⟩⟩⟩
  exact ⟨_,rfl,rfl,session_events hm rfl⟩

/-- The second opener reads what happened before its open. -/
theorem session_stale : ∃ s, run Switches.step .init
      [.open,.irq 0 0xfffe#16 true,.release,.open,.read 36 true true] = some s ∧
    ∃ a ∈ s.seen, a.stamp < s.opened :=
  ⟨_,rfl,_,mem_singleton.mpr rfl,Nat.lt_succ_self 0⟩

end Simpad.Switches
