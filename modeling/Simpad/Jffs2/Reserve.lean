import Simpad.Jffs2.SpaceRuns

/-! Reservations. A step is what is done without a break: a section under `erase_completion_lock`, a `down`
or an `up`. -/

namespace Simpad.Jffs2.Reserve
open Space Word Function

inductive Prio
  | normal | deletion
deriving DecidableEq

/-- The arguments of `jffs2_reserve_space`. -/
structure Request where
  minsize : ℕ
  prio : Prio
deriving DecidableEq

/-- `JFFS2_RESERVED_BLOCKS_WRITE` or `JFFS2_RESERVED_BLOCKS_DELETION`. -/
def Request.blocksneeded (q : Request) : ℕ :=
  match q.prio with
  | .normal => 5
  | .deletion => 4

/-- What is stored through `ofs` and `len`, or the place of a recorded node. -/
structure Range where
  ofs : ℕ
  len : ℕ
deriving DecidableEq

def ENOSPC : ℤ := 28
def EINTR : ℤ := 4

/-- Where a thread is; of a pass the request that has started it is kept, none for the thread that
collects garbage. -/
inductive Phase
  | idle
  /-- at `down(&c->alloc_sem)` -/
  | entering (q : Request)
  /-- with the semaphore, before `spin_lock_bh` -/
  | looking (q : Request)
  /-- in `schedule()` of `jffs2_do_reserve_space` -/
  | waiting (q : Request)
  /-- `jffs2_reserve_space` has returned -/
  | returned (q : Request) (ret : ℤ) (out : Option Range)
  /-- some nodes have been written to the range; `rest` is left of it -/
  | writing (out rest : Range)
  /-- at `down_interruptible` of `jffs2_garbage_collect_pass` -/
  | passing (q : Option Request)
  /-- in the pass; what `jffs2_reserve_space_gc` gave and what is left of it -/
  | collecting (q : Option Request) (got : Option (Range × Range))
  /-- in `schedule()` below `jffs2_reserve_space_gc` -/
  | gcWaiting (q : Option Request) (minsize : ℕ)
  | collected (q : Request)
deriving DecidableEq

/-- `nodes` has the places of the nodes recorded for a block; `count` is that of `alloc_sem`, and
`holders` are the threads that have taken it. -/
structure State where
  c : Sb
  nodes : ℕ → List Range
  count : ℕ
  holders : List ℕ
  phase : ℕ → Phase

namespace State

def go (s : State) (i : ℕ) (p : Phase) : State := { s with phase := update s.phase i p }

/-- `down(&c->alloc_sem)`, where it does not sleep. -/
def down (s : State) (i : ℕ) : Option State :=
  if s.count = 0 then none else some { s with count := s.count - 1, holders := i :: s.holders }

/-- `up(&c->alloc_sem)`. -/
def up (s : State) (i : ℕ) : State :=
  { s with count := s.count + 1, holders := s.holders.erase i }

end State

inductive Outcome
  | given (r : Range)
  | noSpace
  | wait

/-- What `jffs2_do_reserve_space` comes to, once the blocks have been moved. -/
def outcome (c : Sb) : Outcome :=
  match c.nextblock with
  | some b =>
    let free := (c.blocks b).free
    .given ⟨u32 (b * c.sectorSize + sub32 c.sectorSize free),free⟩
  | none => if c.nrErasing = 0 then .noSpace else .wait

namespace State

/-- `jffs2_reserve_space` from `spin_lock_bh` on. -/
def reserve (s : State) (i : ℕ) (q : Request) : State :=
  if s.c.nrFree + s.c.nrErasing < q.blocksneeded then
    if s.c.size .dirty < s.c.sectorSize then (s.up i).go i (.returned q (-ENOSPC) none)
    else (s.up i).go i (.passing (some q))
  else
    let s := { s with c := s.c.doReserveSpace (pad4 q.minsize) }
    match outcome s.c with
    | .given r => s.go i (.returned q 0 (some r))
    | .noSpace => (s.up i).go i (.returned q (-ENOSPC) none)
    | .wait => s.go i (.waiting q)

/-- `jffs2_reserve_space_gc`. -/
def reserveGc (s : State) (i : ℕ) (q : Option Request) (minsize : ℕ) : State :=
  let s := { s with c := s.c.doReserveSpace (pad4 minsize) }
  match outcome s.c with
  | .given r => s.go i (.collecting q (some (r,r)))
  | .noSpace => s.go i (.collecting q none)
  | .wait => s.go i (.gcWaiting q minsize)

/-- `jffs2_garbage_collect_pass` returns. -/
def endPass (s : State) (i : ℕ) (q : Option Request) (ret : ℤ) : State :=
  match q with
  | none => s.go i .idle
  | some q => if ret = 0 then s.go i (.collected q) else s.go i (.returned q ret none)

/-- `jffs2_add_physical_node_ref`, with the place that is recorded. -/
def addNode (s : State) (ofs len : ℕ) (dirty : Bool) : State :=
  let b := ofs / s.c.sectorSize
  { s with
    c := s.c.addPhysicalNodeRef ofs len dirty
    nodes :=
      if s.c.nextblock ≠ some b ∨
        ofs ≠ b * s.c.sectorSize + (s.c.sectorSize - (s.c.blocks b).free) then s.nodes
      else update s.nodes b (s.nodes b ++ [⟨ofs,pad4 len⟩]) }

end State

/-- What is left of a range after a node, as in `jffs2_create`. -/
def Range.after (r : Range) (len : ℕ) : Range := ⟨u32 (r.ofs + pad4 len),sub32 r.len (pad4 len)⟩

/-- The nodes recorded after an action that is not the business of a reservation. -/
def recorded (c : Sb) (nodes : ℕ → List Range) : Action → ℕ → List Range
  | .startErase =>
    match (c.lists .erasePending).head? with
    | some b => update nodes b []
    | none => nodes
  | .markFree =>
    match c.marking with
    | some b => update nodes b [⟨b * c.sectorSize,pad4 sizeofUnknownNode⟩]
    | none => nodes
  | _ => nodes

inductive Op
  | call (i : ℕ) (q : Request)
  | down (i : ℕ)
  | reserve (i : ℕ)
  | wake (i : ℕ) (signal : Bool)
  | startPass (i : ℕ)
  | downPass (i : ℕ) (signal : Bool)
  | reserveGc (i minsize : ℕ)
  | wakeGc (i : ℕ) (signal : Bool)
  | endPass (i : ℕ) (ret : ℤ)
  /-- `signal_pending` after the pass -/
  | resume (i : ℕ) (signal : Bool)
  | write (i len : ℕ) (dirty : Bool)
  /-- `jffs2_complete_reservation`, or the caller goes on with the error -/
  | leave (i : ℕ)
  | act (a : Action)
deriving DecidableEq

/-- The actions that need no reservation. -/
def Apart : Action → Bool
  | .reserve _ | .addRef .. => false
  | _ => true

instance (c : Sb) : (a : Action) → Decidable (Legal c a)
  | .addRef ofs len _ => inferInstanceAs (Decidable (len ≤ (c.blocks (ofs / c.sectorSize)).free))
  | .obsolete b i => inferInstanceAs
    (Decidable (c.gcblock = some b ∨ ∀ ref ∈ (c.blocks b).refs[i]?, ref.inode = true))
  | .reserve _ | .findGcBlock _ | .eraseit | .startErase | .refile _ | .eraseFailed _
  | .eraseDone _ | .markErased | .markNoRef | .markBad | .markFree => isTrue trivial

/-- One step; `none` if the code would not take it. -/
def step (s : State) (op : Op) : Option State :=
  if s.c.bug then none
  else match op with
  | .call i q => if s.phase i = .idle then some (s.go i (.entering q)) else none
  | .down i =>
    match s.phase i with
    | .entering q => (s.down i).map fun s => s.go i (.looking q)
    | _ => none
  | .reserve i =>
    match s.phase i with
    | .looking q => some (s.reserve i q)
    | _ => none
  | .wake i signal =>
    match s.phase i with
    | .waiting q =>
      some (if signal then (s.up i).go i (.returned q (-EINTR) none) else s.reserve i q)
    | _ => none
  | .startPass i => if s.phase i = .idle then some (s.go i (.passing none)) else none
  | .downPass i signal =>
    match s.phase i with
    | .passing q =>
      if signal then some (s.endPass i q (-EINTR))
      else (s.down i).map fun s => s.go i (.collecting q none)
    | _ => none
  | .reserveGc i minsize =>
    match s.phase i with
    | .collecting q _ => some (s.reserveGc i q minsize)
    | _ => none
  | .wakeGc i signal =>
    match s.phase i with
    | .gcWaiting q minsize =>
      some (if signal then s.go i (.collecting q none) else s.reserveGc i q minsize)
    | _ => none
  | .endPass i ret =>
    match s.phase i with
    | .collecting q _ => some ((s.up i).endPass i q ret)
    | _ => none
  | .resume i signal =>
    match s.phase i with
    | .collected q =>
      some (s.go i (if signal then .returned q (-EINTR) none else .entering q))
    | _ => none
  | .write i len dirty =>
    match s.phase i with
    | .returned _ 0 (some r) =>
      if 0 < len ∧ len ≤ r.len then
        some ((s.addNode r.ofs len dirty).go i (.writing r (r.after len)))
      else none
    | .writing r rest =>
      if 0 < len ∧ len ≤ rest.len then
        some ((s.addNode rest.ofs len dirty).go i (.writing r (rest.after len)))
      else none
    | .collecting q (some (r,rest)) =>
      if 0 < len ∧ len ≤ rest.len then
        some ((s.addNode rest.ofs len dirty).go i (.collecting q (some (r,rest.after len))))
      else none
    | _ => none
  | .leave i =>
    match s.phase i with
    | .returned _ ret _ => some (if ret = 0 then (s.up i).go i .idle else s.go i .idle)
    | .writing _ _ => some ((s.up i).go i .idle)
    | _ => none
  | .act a =>
    if Apart a ∧ Legal s.c a then
      (Space.step s.c a).map fun c => { s with c, nodes := recorded s.c s.nodes a }
    else none

/-- The range that a thread has been given and not yet given back. -/
def Phase.handed : Phase → Option Range
  | .returned _ ret out => if ret = 0 then out else none
  | .writing out _ => some out
  | .collecting _ got => got.map Prod.fst
  | _ => none

/-- What a thread may rely on when `jffs2_reserve_space` has returned 0. -/
structure Given (s : State) (q : Request) (r : Range) (b : ℕ) : Prop where
  next : s.c.nextblock = some b
  ofs : r.ofs = b * s.c.sectorSize + (s.c.sectorSize - (s.c.blocks b).free)
  tail : r.ofs + r.len = (b + 1) * s.c.sectorSize
  enough : pad4 q.minsize ≤ s.c.sectorSize - 12 → pad4 q.minsize ≤ r.len
  apart : ∀ j, ∀ e ∈ s.nodes j, e.ofs + e.len ≤ r.ofs ∨ r.ofs + r.len ≤ e.ofs

structure State.Good (s : State) : Prop where
  held : ∀ i q ret out, s.phase i = .returned q ret out → (ret = 0 ↔ i ∈ s.holders)
  given : ∀ i q out, s.phase i = .returned q 0 out → ∃ r b, out = some r ∧ Given s q r b
  alone : ∀ i r, (s.phase i).handed = some r → ∀ j, j ≠ i → (s.phase j).handed = none

/-- A state that satisfies the accounting invariants, with no call under way: the accounts of the
flash are sound, and no node is recorded in the free part of its block. -/
structure State.Accounted (n : ℕ) (s : State) : Prop where
  books : ∃ loc, Kept n s.c loc ∧ Books n s.c loc
  laid : ∀ b, ∀ e ∈ s.nodes b, b * s.c.sectorSize ≤ e.ofs ∧
    e.ofs + e.len + (s.c.blocks b).free ≤ (b + 1) * s.c.sectorSize
  count : s.count = 1
  holders : s.holders = []
  idle : ∀ i, s.phase i = .idle

end Simpad.Jffs2.Reserve
