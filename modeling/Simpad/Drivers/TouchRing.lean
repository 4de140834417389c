import Simpad.Base.RingBuffer
import Simpad.Base.Runs

/-! The ring of the touch screen. An event is copied to user space and pulled in two steps, with adds in
between. -/

namespace Simpad.TouchRing

open List Runs

/-- `struct ts_event`, with the time as a number. -/
structure Event where
  pressure : BitVec 16
  x : BitVec 16
  y : BitVec 16
  stamp : ℕ
  deriving DecidableEq

/-- `sizeof(struct ts_event)`. -/
def eventSize : ℕ := 16

def eRestartsys : ℤ := 512

def eAgain : ℤ := 11

/-- Where `ucb1x00_ts_read` is: `count` is what is left, `buffer` what was copied. -/
inductive Reader
  | idle
  | loop (count : ℕ) (buffer : List Event)
  /-- the event was copied but for `uncopied` bytes, and is still to be pulled -/
  | pull (count : ℕ) (buffer : List Event) (evt : Event) (uncopied : ℕ)
  deriving DecidableEq

def Reader.buffer : Reader → List Event
  | .idle => []
  | .loop _ buffer => buffer
  | .pull _ buffer _ _ => buffer

structure State where
  ring : RingBuffer Event 15
  reader : Reader
  /-- the events whose add found space -/
  accepted : List Event
  /-- how many events were queued at each add that failed -/
  refused : List ℕ
  /-- the events that the reads have returned -/
  returned : List Event
  /-- what the reads have returned as their result -/
  results : List ℤ

def State.init : State := ⟨.empty ⟨0,0,0,0⟩,.idle,[],[],[],[]⟩

def State.evtAdd (s : State) (pressure x y : BitVec 16) (stamp : ℕ) : State :=
  let evt : Event := ⟨pressure,x,y,stamp⟩
  if s.ring.Full then { s with refused := s.refused ++ [s.ring.contents.length] }
  else { s with ring := s.ring.push evt, accepted := s.accepted ++ [evt] }

/-- The end of `ucb1x00_ts_read`. -/
def State.finish (s : State) (buffer : List Event) (err : ℤ) : State :=
  { s with
    reader := .idle
    returned := s.returned ++ buffer
    results := s.results ++ [if buffer = [] then err else (eventSize * buffer.length : ℕ)] }

/-- The loop of `ucb1x00_ts_read` up to the copy; `schedule` comes back to the loop. -/
def State.iterate (s : State) (count : ℕ) (buffer : List Event) (signal nonblock : Bool)
    (uncopied : ℕ) : State :=
  if count < eventSize then s.finish buffer 0
  else if signal then s.finish buffer (-eRestartsys)
  else if s.ring.head ≠ s.ring.tail then
    { s with reader := .pull count buffer (s.ring.slots s.ring.tail) uncopied }
  else if nonblock then s.finish buffer (-eAgain)
  else s

/-- The loop from `ucb1x00_ts_evt_pull` on. -/
def State.pull (s : State) (count : ℕ) (buffer : List Event) (evt : Event) (uncopied : ℕ) : State :=
  let t := { s with ring := s.ring.pull }
  if uncopied ≠ 0 then t.finish buffer uncopied
  else { t with reader := .loop (count - eventSize) (buffer ++ [evt]) }

inductive Op
  | evtAdd (pressure x y : BitVec 16) (stamp : ℕ)
  | read (count : ℕ)
  | iterate (signal nonblock : Bool) (uncopied : ℕ)
  | pull

def step (s : State) : Op → Option State
  | .evtAdd pressure x y stamp => some (s.evtAdd pressure x y stamp)
  | .read count =>
    match s.reader with
    | .idle => some { s with reader := .loop count [] }
    | _ => none
  | .iterate signal nonblock uncopied =>
    match s.reader with
    | .loop count buffer => some (s.iterate count buffer signal nonblock uncopied)
    | _ => none
  | .pull =>
    match s.reader with
    | .pull count buffer evt uncopied => some (s.pull count buffer evt uncopied)
    | _ => none

/-- What was returned, is in the buffer of the reader and is queued is what was accepted; and an add
failed only with fifteen events queued. -/
structure State.Good (s : State) : Prop where
  fifo : s.returned ++ (s.reader.buffer ++ s.ring.contents) = s.accepted
  bounded : s.ring.contents.length ≤ 15
  refused : ∀ n ∈ s.refused, n = 15

/-- No event is pulled that was not copied whole. -/
def Copied (s : State) (op : Op) : Prop :=
  ∀ count buffer evt uncopied, op = .pull → s.reader = .pull count buffer evt uncopied → uncopied = 0

structure State.Inv (s : State) : Prop extends s.Good where
  copied : ∀ count buffer evt uncopied, s.reader = .pull count buffer evt uncopied →
    ∃ rest, s.ring.contents = evt :: rest

theorem State.inv_init : State.init.Inv :=
  ⟨⟨RingBuffer.contents_empty _,RingBuffer.length_contents_le _,fun _ hn => absurd hn not_mem_nil⟩,
    nofun⟩

section
variable {s t : State}

theorem State.Inv.evtAdd (h : s.Inv) (pressure x y : BitVec 16) (stamp : ℕ) :
    (s.evtAdd pressure x y stamp).Inv := by
  rw [State.evtAdd]
  by_cases hfull : s.ring.Full
  · rw [if_pos hfull]
    refine ⟨⟨h.fifo,h.bounded,fun n hn => ?_⟩,h.copied⟩
    obtain hn | hn := mem_append.mp hn
    · exact h.refused n hn
    · rw [mem_singleton.mp hn]
      exact s.ring.full_iff.mp hfull
  · rw [if_neg hfull]
    have hc := @RingBuffer.contents_push Event 15 s.ring ⟨pressure,x,y,stamp⟩ hfull
    refine ⟨⟨?_,RingBuffer.length_contents_le _,h.refused⟩,fun count buffer evt uncopied hr => ?_⟩
    · simp [hc,← append_assoc s.reader.buffer,← append_assoc,h.fifo]
    · obtain ⟨rest,hrest⟩ := h.copied count buffer evt uncopied hr
      grind

theorem State.Inv.finish (h : s.Inv) {buffer : List Event} (hb : s.reader.buffer = buffer) (err : ℤ) :
    (s.finish buffer err).Inv := by
  refine ⟨⟨?_,h.bounded,h.refused⟩,fun _ _ _ _ hr => Reader.noConfusion hr⟩
  have hfifo := h.fifo
  rw [hb] at hfifo
  change (s.returned ++ buffer) ++ ([] ++ s.ring.contents) = s.accepted
  rw [nil_append,append_assoc,hfifo]

theorem State.Inv.iterate (h : s.Inv) {count : ℕ} {buffer : List Event}
    (hr : s.reader = .loop count buffer) (signal nonblock : Bool) (uncopied : ℕ) :
    (s.iterate count buffer signal nonblock uncopied).Inv := by
  have hb : s.reader.buffer = buffer := by rw [hr]; rfl
  rw [State.iterate]
  split_ifs with hcount hsignal hpending hnonblock
  · exact h.finish hb 0
  · exact h.finish hb _
  · have hfifo := h.fifo
    rw [hb] at hfifo
    refine ⟨⟨hfifo,h.bounded,h.refused⟩,fun _ _ _ _ hp => ?_⟩
    cases hp
    exact ⟨_,s.ring.contents_pull hpending⟩
  · exact h.finish hb _
  · exact h

theorem contents_of_copied {evt : Event} {rest : List Event} (h : s.ring.contents = evt :: rest) :
    s.ring.pull.contents = rest := by
  have hne : s.ring.head ≠ s.ring.tail := by
    intro he
    rw [s.ring.contents_eq_nil.mpr he] at h
    cases h
  rw [s.ring.contents_pull hne] at h
  exact (cons.inj h).2

theorem State.Inv.pull (h : s.Inv) {count : ℕ} {buffer : List Event} {evt : Event}
    (hr : s.reader = .pull count buffer evt 0) : (s.pull count buffer evt 0).Inv := by
  obtain ⟨rest,hrest⟩ := h.copied count buffer evt 0 hr
  have hpull := contents_of_copied hrest
  have hfifo := h.fifo
  rw [hr,hrest] at hfifo
  rw [State.pull,if_neg (not_not.mpr rfl)]
  refine ⟨⟨?_,RingBuffer.length_contents_le _,h.refused⟩,fun _ _ _ _ hp => Reader.noConfusion hp⟩
  rw [hpull,← hfifo]
  change _ ++ ((buffer ++ [evt]) ++ rest) = _ ++ (buffer ++ evt :: rest)
  simp

theorem State.Inv.step {op : Op} (h : s.Inv) (hc : Copied s op) (ht : TouchRing.step s op = some t) :
    t.Inv := by
  cases op with
  | evtAdd pressure x y stamp =>
    cases ht
    exact h.evtAdd pressure x y stamp
  | read count =>
    rw [TouchRing.step] at ht
    cases hr : s.reader with
    | idle =>
      have hfifo := h.fifo
      rw [hr] at hfifo ht
      cases ht
      exact ⟨⟨hfifo,h.bounded,h.refused⟩,fun _ _ _ _ hp => Reader.noConfusion hp⟩
    | loop | pull =>
      rw [hr] at ht
      cases ht
  | iterate signal nonblock uncopied =>
    rw [TouchRing.step] at ht
    cases hr : s.reader with
    | loop count buffer =>
      rw [hr] at ht
      cases ht
      exact h.iterate hr signal nonblock uncopied
    | idle | pull =>
      rw [hr] at ht
      cases ht
  | pull =>
    rw [TouchRing.step] at ht
    cases hr : s.reader with
    | pull count buffer evt uncopied =>
      rw [hr] at ht
      cases ht
      obtain rfl := hc count buffer evt uncopied rfl hr
      exact h.pull hr
    | idle | loop =>
      rw [hr] at ht
      cases ht

theorem State.Inv.lost {op : Op} (h : s.Inv) (hc : ¬Copied s op) :
    ∃ t, TouchRing.step s op = some t ∧ ¬t.Good := by
  rw [Copied] at hc
  push Not at hc
  obtain ⟨count,buffer,evt,uncopied,rfl,hr,hne⟩ := hc
  obtain ⟨rest,hrest⟩ := h.copied count buffer evt uncopied hr
  have hpull := contents_of_copied hrest
  refine ⟨s.pull count buffer evt uncopied,by rw [TouchRing.step,hr],fun hg => ?_⟩
  have hfifo := h.fifo
  rw [hr,hrest] at hfifo
  have hlost := hg.fifo
  rw [State.pull,if_pos hne] at hlost
  change (s.returned ++ buffer) ++ ([] ++ s.ring.pull.contents) = s.accepted at hlost
  change s.returned ++ (buffer ++ evt :: rest) = s.accepted at hfifo
  have hlen := congrArg length (hlost.trans hfifo.symm)
  grind

end

/-- The reads return the events that were accepted, in order, each once and as they were added, all
along a run, just if no event of the run is pulled that was not copied whole. -/
theorem touch_ring_fifo (ops : List Op) :
    (∀ bs t, bs <+: ops → run step .init bs = some t → t.Good) ↔
      Meets step Copied .init ops :=
  always_iff step (fun _ h => h.toGood) (fun _ _ _ h hc ht => h.step hc ht)
    (fun _ _ h hc => h.lost hc) State.inv_init

def unmapped : List Op :=
  [.evtAdd 90 10 20 1,.evtAdd 90 11 21 2,.read 16,.iterate false true 16,.pull,
    .read 16,.iterate false true 0,.pull,.iterate false true 0]

/-- The first read returns 16 without an event, and only the second event is ever returned. -/
theorem touch_event_lost :
    ((run step .init unmapped).map fun t => (t.accepted,t.returned,t.results)) =
      some ([⟨90,10,20,1⟩,⟨90,11,21,2⟩],[⟨90,11,21,2⟩],[16,16]) := by
  decide

end Simpad.TouchRing
