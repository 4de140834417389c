import Simpad.Base.Runs
import Simpad.Base.Word

/-! The timer wheel. All lists are added to at their end only, so the model keeps one list of all pending
timers in the order in which they were put on their lists. -/

namespace Simpad.Timer
open Word

/-- A list of timers: a slot of `tv1`, a slot of `tv2` to `tv5` (`tvecs[1]` to `tvecs[4]`), or the
list of those that are added while timers run. -/
inductive Slot
  | tv1 (i : ℕ)
  | tvn (n i : ℕ)
  | queued
deriving DecidableEq

structure Entry where
  id : ℕ
  expires : ℕ
  slot : Slot

/-- `index 0` is `tv1.index`, `index n` that of `tvecs[n]`; `running` says whether
`run_timer_list_running` is set. -/
structure Wheel where
  jiffies : ℕ
  timerJiffies : ℕ
  index : ℕ → ℕ
  running : Bool
  entries : List Entry

namespace Wheel

def pending (w : Wheel) (id : ℕ) : Bool := w.entries.any fun t => t.id = id

/-- The list that `internal_add_timer` picks. -/
def vec (w : Wheel) (expires : ℕ) : Slot :=
  let idx := sub32 expires w.timerJiffies
  if w.running then .queued
  else if idx < 2 ^ 8 then .tv1 (expires % 2 ^ 8)
  else if idx < 2 ^ 14 then .tvn 1 (expires >>> 8 % 2 ^ 6)
  else if idx < 2 ^ 20 then .tvn 2 (expires >>> 14 % 2 ^ 6)
  else if idx < 2 ^ 26 then .tvn 3 (expires >>> 20 % 2 ^ 6)
  -- negative as a signed number
  else if 2 ^ 31 ≤ idx then .tv1 (w.index 0)
  else .tvn 4 (expires >>> 26 % 2 ^ 6)

def internalAddTimer (w : Wheel) (id expires : ℕ) : Wheel :=
  { w with entries := w.entries ++ [⟨id,expires,w.vec expires⟩] }

def detachTimer (w : Wheel) (id : ℕ) : Wheel :=
  { w with entries := w.entries.filter fun t => t.id ≠ id }

/-- The timers of a list are taken off it one after the other and added again. -/
def readd (w : Wheel) (slot : Slot) : Wheel :=
  (w.entries.filter fun t => t.slot = slot).foldl (fun w t => w.internalAddTimer t.id t.expires)
    { w with entries := w.entries.filter fun t => t.slot ≠ slot }

def cascadeTimers (w : Wheel) (n : ℕ) : Wheel :=
  { w.readd (.tvn n (w.index n)) with index := Function.update w.index n ((w.index n + 1) % 2 ^ 6) }

/-- The loop over the coarser scales, from `tvecs[n]` on; there are `k` of them. -/
def cascadeFrom (w : Wheel) : ℕ → ℕ → Wheel
  | 0, _ => w
  | k + 1, n =>
    let w := w.cascadeTimers n
    if w.index n = 1 then cascadeFrom w k (n + 1) else w

def head (w : Wheel) : Option Entry := w.entries.find? fun t => t.slot = .tv1 (w.index 0)

/-- The end of a round: time goes on, and what has been added meanwhile is put on its lists. -/
def advance (w : Wheel) : Wheel :=
  readd { w with
    running := false
    timerJiffies := u32 (w.timerJiffies + 1)
    index := Function.update w.index 0 ((w.index 0 + 1) % 2 ^ 8) } .queued

end Wheel

inductive Action
  | tick
  /-- `add_timer`, with the value in `expires` -/
  | add (id expires : ℕ)
  /-- `mod_timer` -/
  | mod (id expires : ℕ)
  /-- `del_timer` -/
  | del (id : ℕ)
  /-- a round of `run_timer_list`, up to the first timer -/
  | startStep
  /-- a timer is taken off its list and its function is called -/
  | run (id : ℕ)
  | endStep
deriving DecidableEq

/-- One action; `none` if the code would not take it. -/
def step (w : Wheel) : Action → Option Wheel
  | .tick => some { w with jiffies := u32 (w.jiffies + 1) }
  | .add id expires => some (if w.pending id then w else w.internalAddTimer id expires)
  | .mod id expires => some ((w.detachTimer id).internalAddTimer id expires)
  | .del id => some (w.detachTimer id)
  | .startStep =>
    if w.running ∨ 2 ^ 31 ≤ sub32 w.jiffies w.timerJiffies then none
    else
      let w := if w.index 0 = 0 then w.cascadeFrom 4 1 else w
      some { w with running := true }
  | .run id =>
    match w.head with
    | some t => if w.running ∧ t.id = id then some (w.detachTimer id) else none
    | none => none
  | .endStep =>
    match w.head with
    | some _ => none
    | none => if w.running then some w.advance else none

def boot : Wheel := ⟨0,0,fun _ => 0,false,[]⟩

/-- A time is at most `2 ^ 31 - 1` ticks ahead or behind. -/
def Legal (w : Wheel) : Action → Prop
  | .add _ expires => expires < 4294967296 ∧ sub32 expires w.timerJiffies ≠ 2 ^ 31
  | .mod _ expires => expires < 4294967296 ∧ sub32 expires w.timerJiffies ≠ 2 ^ 31
  | _ => True

instance (w : Wheel) : (a : Action) → Decidable (Legal w a)
  | .add _ expires =>
    inferInstanceAs (Decidable (expires < 4294967296 ∧ sub32 expires w.timerJiffies ≠ 2 ^ 31))
  | .mod _ expires =>
    inferInstanceAs (Decidable (expires < 4294967296 ∧ sub32 expires w.timerJiffies ≠ 2 ^ 31))
  | .tick | .del _ | .startStep | .run _ | .endStep => isTrue trivial

end Simpad.Timer
