import Simpad.Base.Locks

/-! The locks of the file operations. What a path depends on besides (the free space, the victim of a pass,
the state of a page, signals and errors) is an argument. -/

namespace Simpad.Jffs2.Locking
open Locks List Runs

inductive Lock
  | page (ino idx : ℕ)
  | alloc
  /-- `f->sem` of an inode -/
  | sem (ino : ℕ)
deriving DecidableEq

abbrev Prog := List (Instr Lock)

/-- A page that `read_cache_page` does not find uptodate: it is added to the cache, or locked. -/
inductive PageRead
  | added | locked
deriving DecidableEq

/-- What `jffs2_garbage_collect_pass` comes to. -/
inductive Pass
  /-- `down_interruptible` was interrupted -/
  | interrupted
  /-- no block, a block without nodes, or a node without an inode -/
  | erase
  /-- `read_inode` failed; `last` says that `iput` clears the inode -/
  | bad (ino : ℕ) (last : Bool)
  /-- a node that is obsolete by now, or that is moved without a page -/
  | node (ino : ℕ) (last : Bool)
  /-- a data node; `read_cache_page` tries again while the page is taken from it -/
  | page (ino idx : ℕ) (reads : List PageRead) (last : Bool)
deriving DecidableEq

/-- `jffs2_clear_inode`, below the last `iput`. -/
def iput (ino : ℕ) (last : Bool) : Prog := if last then bracket (.sem ino) [] else []

/-- `read_cache_page` with `jffs2_do_readpage_unlock`. -/
def readCachePage (ino idx : ℕ) (reads : List PageRead) : Prog :=
  reads.flatMap fun r =>
    match r with
    | .added => [.fresh (.page ino idx),.up (.page ino idx)]
    | .locked => bracket (.page ino idx) []

def garbageCollectPass : Pass → Prog
  | .interrupted => [.quit .alloc]
  | .erase => bracket .alloc []
  | .bad ino last => bracket .alloc (iput ino last)
  | .node ino last => bracket .alloc (bracket (.sem ino) [] ++ iput ino last)
  | .page ino idx reads last =>
    bracket .alloc (bracket (.sem ino) (readCachePage ino idx reads) ++ iput ino last)

/-- How `jffs2_reserve_space` ends. -/
inductive Ending
  | given
  /-- there is no space, or a signal has come while it waited for an erase -/
  | refused
  | broken (p : Pass)
deriving DecidableEq

structure Reservation where
  passes : List Pass
  ending : Ending
deriving DecidableEq

/-- A pass that a reservation starts: the semaphore is given back before it. -/
def round (p : Pass) : Prog := bracket .alloc [] ++ garbageCollectPass p

def reserveSpace (r : Reservation) : Prog :=
  r.passes.flatMap round ++
    match r.ending with
    | .given => [.down .alloc]
    | .refused => bracket .alloc []
    | .broken p => round p

/-- `jffs2_prepare_write`; `hole` is there if the page starts beyond the end of the file. -/
def prepareWrite (ino : ℕ) (hole : Option Reservation) : Prog :=
  bracket (.sem ino)
    (match hole with
    | none => []
    | some r => reserveSpace r ++ if r.ending = .given then [.up .alloc] else [])

/-- `jffs2_commit_write`: a reservation for each node, up to the first that fails. -/
def commitWrite (ino : ℕ) : List Reservation → Prog
  | [] => []
  | r :: rs =>
    reserveSpace r ++
      if r.ending = .given then
        [.down (.sem ino),.up .alloc,.up (.sem ino)] ++ commitWrite ino rs
      else []

/-- `jffs2_setattr`; `pages` are those that `vmtruncate` has to lock. -/
def setattr (ino : ℕ) (r : Reservation) (pages : List ℕ) : Prog :=
  reserveSpace r ++
    if r.ending = .given then
      [.down (.sem ino),.up .alloc] ++
        (pages.flatMap (fun idx => bracket (.page ino idx) []) ++ [.up (.sem ino)])
    else []

/-- `jffs2_readpage`, which is called with the page locked and unlocks it. -/
def readpage (ino idx : ℕ) : Prog := [.down (.sem ino),.up (.page ino idx),.up (.sem ino)]

/-- What a thread is asked to do.  A page is locked before it is read, and around
`jffs2_prepare_write` and `jffs2_commit_write`. -/
inductive Call
  | write (ino idx : ℕ) (hole : Option Reservation) (nodes : List Reservation)
  | read (ino idx : ℕ)
  | setattr (ino : ℕ) (r : Reservation) (pages : List ℕ)
  | pass (p : Pass)
deriving DecidableEq

def Call.prog : Call → Prog
  | .write ino idx hole nodes =>
    bracket (.page ino idx)
      (prepareWrite ino hole ++
        if ∀ r ∈ hole, r.ending = .given then commitWrite ino nodes else [])
  | .read ino idx => .down (.page ino idx) :: readpage ino idx
  | .setattr ino r pages => Locking.setattr ino r pages
  | .pass p => garbageCollectPass p

/-- A page lock comes first, then `alloc_sem`, then an `f->sem`. -/
def Lock.rank : Lock → ℕ
  | .page .. => 0
  | .alloc => 1
  | .sem _ => 2

def Lock.IsSem (l : Lock) : Prop := l.rank = 2

instance : DecidablePred Lock.IsSem := fun l => inferInstanceAs (Decidable (l.rank = 2))

def MayAsk (held : List Lock) (l : Lock) : Prop :=
  Below Lock.rank held l ∨ ∃ m ∈ held, m.IsSem

section
variable {held : List Lock} {ino : ℕ}

theorem MayAsk.sem_of_alloc (h : MayAsk held .alloc) (ino : ℕ) :
    MayAsk (.alloc :: held) (.sem ino) := by
  obtain h | ⟨m,hm,hsem⟩ := h
  · refine .inl fun m hm => ?_
    obtain rfl | hm := mem_cons.mp hm
    · exact Nat.lt_succ_self 1
    · exact (h m hm).trans (Nat.lt_succ_self 1)
  · exact .inr ⟨m,mem_cons_of_mem _ hm,hsem⟩

theorem mayAsk_of_sem (held : List Lock) (ino : ℕ) (l : Lock) : MayAsk (.sem ino :: held) l :=
  .inr ⟨.sem ino,mem_cons_self,rfl⟩

theorem neutral_iput (h : MayAsk held (.sem ino)) (last : Bool) :
    Neutral Lock.rank Lock.IsSem held (iput ino last) := by
  rw [iput]
  split_ifs
  · exact .bracket h (.nil _)
  · exact .nil held

theorem neutral_readCachePage (held : List Lock) (ino idx : ℕ) (reads : List PageRead) :
    Neutral Lock.rank Lock.IsSem (.sem ino :: held) (readCachePage ino idx reads) := by
  refine .flatMap (fun r => ?_) reads
  cases r with
  | added => exact ⟨⟨mem_cons_self,trivial⟩,erase_cons_head _ _⟩
  | locked => exact .bracket (mayAsk_of_sem held ino _) (.nil _)

section
variable (h : MayAsk held .alloc)
include h

theorem neutral_pass (p : Pass) :
    Neutral Lock.rank Lock.IsSem held (garbageCollectPass p) := by
  cases p with
  | interrupted => exact ⟨⟨h,trivial⟩,rfl⟩
  | erase => exact .bracket h (.nil _)
  | bad ino last => exact .bracket h (neutral_iput (h.sem_of_alloc ino) last)
  | node ino last =>
    have hsem := h.sem_of_alloc ino
    exact .bracket h (.append (.bracket hsem (.nil _)) (neutral_iput hsem last))
  | page ino idx reads last =>
    have hsem := h.sem_of_alloc ino
    have hread := neutral_readCachePage (.alloc :: held) ino idx reads
    exact .bracket h (.append (.bracket hsem hread) (neutral_iput hsem last))

theorem neutral_round (p : Pass) :
    Neutral Lock.rank Lock.IsSem held (round p) :=
  .append (.bracket h (.nil _)) (neutral_pass h p)

/-- A reservation that is given leaves `alloc_sem` taken, any other leaves nothing behind. -/
theorem reserveSpace_ranked (r : Reservation) :
    Ranked Lock.rank Lock.IsSem held (reserveSpace r) ∧
      after held (reserveSpace r) = if r.ending = .given then .alloc :: held else held := by
  have hpasses := Neutral.flatMap (neutral_round h) r.passes
  rw [reserveSpace,ranked_append,after_append,hpasses.2]
  cases r.ending with
  | given => exact ⟨⟨hpasses.1,h,trivial⟩,rfl⟩
  | refused =>
    have hlast : Neutral Lock.rank Lock.IsSem held (bracket .alloc []) := .bracket h (.nil _)
    exact ⟨⟨hpasses.1,hlast.1⟩,hlast.2⟩
  | broken p => exact ⟨⟨hpasses.1,(neutral_round h p).1⟩,(neutral_round h p).2⟩

theorem neutral_reserve {p : Prog} (r : Reservation)
    (hp : Ranked Lock.rank Lock.IsSem (.alloc :: held) p) (hafter : after (.alloc :: held) p = held) :
    Neutral Lock.rank Lock.IsSem held (reserveSpace r ++ if r.ending = .given then p else []) := by
  obtain ⟨hranked,hend⟩ := reserveSpace_ranked h r
  rw [Neutral,ranked_append,after_append,hend]
  split_ifs
  · exact ⟨⟨hranked,hp⟩,hafter⟩
  · exact ⟨⟨hranked,trivial⟩,rfl⟩

omit h in
theorem erase_alloc_of_sem (held : List Lock) (ino : ℕ) :
    (Lock.sem ino :: .alloc :: held).erase .alloc = .sem ino :: held := by
  rfl

omit h in
theorem neutral_prepareWrite (h : MayAsk held (.sem ino)) (hole : Option Reservation) :
    Neutral Lock.rank Lock.IsSem held (prepareWrite ino hole) := by
  cases hole with
  | none => exact .bracket h (.nil _)
  | some r =>
    refine .bracket h (neutral_reserve (mayAsk_of_sem held ino _) r ?_ ?_)
    · exact ⟨mem_cons_self,trivial⟩
    · exact erase_cons_head Lock.alloc (.sem ino :: held)

theorem neutral_commitWrite (nodes : List Reservation) :
    Neutral Lock.rank Lock.IsSem held (commitWrite ino nodes) := by
  induction nodes with
  | nil => exact .nil held
  | cons r rs ih =>
    refine neutral_reserve h r ⟨h.sem_of_alloc ino,mem_cons_of_mem _ mem_cons_self,?_⟩ ?_
    · rw [erase_alloc_of_sem]
      refine ⟨mem_cons_self,?_⟩
      rw [erase_cons_head]
      exact ih.1
    · show after (((Lock.sem ino :: .alloc :: held).erase .alloc).erase (.sem ino))
        (commitWrite ino rs) = held
      rw [erase_alloc_of_sem,erase_cons_head]
      exact ih.2

end

theorem neutral_setattr (ino : ℕ) (r : Reservation) (pages : List ℕ) :
    Neutral Lock.rank Lock.IsSem [] (setattr ino r pages) := by
  have h : MayAsk [] .alloc := .inl fun m hm => absurd hm not_mem_nil
  have hpages : Neutral Lock.rank Lock.IsSem [.sem ino]
      (pages.flatMap fun idx => bracket (.page ino idx) []) :=
    .flatMap (fun idx => .bracket (mayAsk_of_sem [] ino _) (.nil _)) pages
  refine neutral_reserve h r ?_ ?_
  · refine ⟨h.sem_of_alloc ino,mem_cons_of_mem _ mem_cons_self,?_⟩
    show Ranked Lock.rank Lock.IsSem [.sem ino]
      (pages.flatMap (fun idx => bracket (.page ino idx) []) ++ [.up (.sem ino)])
    refine (ranked_append _ _).mpr ⟨hpages.1,?_⟩
    rw [hpages.2]
    exact ⟨mem_cons_self,trivial⟩
  · show after ((Lock.sem ino :: [.alloc]).erase .alloc)
      (pages.flatMap (fun idx => bracket (.page ino idx) []) ++ [.up (.sem ino)]) = []
    rw [erase_alloc_of_sem,after_append,hpages.2]
    exact erase_cons_head (Lock.sem ino) []

theorem neutral_read (ino idx : ℕ) :
    Neutral Lock.rank Lock.IsSem [] (.down (.page ino idx) :: readpage ino idx) := by
  have hpage : Below Lock.rank [] (.page ino idx) := fun m hm => absurd hm not_mem_nil
  have hsem : Below Lock.rank [.page ino idx] (.sem ino) := by
    intro m hm
    obtain rfl := mem_singleton.mp hm
    exact Nat.zero_lt_two
  have herase : [Lock.sem ino,.page ino idx].erase (.page ino idx) = [.sem ino] := by
    simp
  refine ⟨⟨.inl hpage,.inl hsem,mem_cons_of_mem _ mem_cons_self,?_⟩,?_⟩
  · exact ⟨mem_cons_self,trivial⟩
  · show ([Lock.sem ino,.page ino idx].erase (.page ino idx)).erase (.sem ino) = []
    simp

/-- Every call asks for its locks in order, as long as it has no `f->sem`. -/
theorem neutral_prog (c : Call) : Neutral Lock.rank Lock.IsSem [] c.prog := by
  have hnil (l : Lock) : MayAsk [] l := .inl fun m hm => absurd hm not_mem_nil
  cases c with
  | write ino idx hole nodes =>
    have hpage (l : Lock) (hl : 0 < l.rank) : MayAsk [.page ino idx] l := by
      refine .inl fun m hm => ?_
      obtain rfl := mem_singleton.mp hm
      exact hl
    refine .bracket (hnil _) (.append (neutral_prepareWrite (hpage _ Nat.zero_lt_two) hole) ?_)
    split_ifs
    · exact neutral_commitWrite (hpage _ Nat.zero_lt_one) nodes
    · exact .nil _
  | read ino idx => exact neutral_read ino idx
  | setattr ino r pages => exact neutral_setattr ino r pages
  | pass p => exact neutral_pass (hnil _) p

end

/-- As long as whoever has an `f->sem` finds free what they ask for, no thread waits for a lock that
it has itself, and no threads wait for each other. -/
theorem locking_never_blocks {s : State Lock} {ops : List (Op Call)}
    (hm : Meets (step Call.prog) (Prompt Lock.IsSem) State.init ops)
    (hr : run (step Call.prog) State.init ops = some s) :
    (∀ i l, s.waiting i = some l → s.owner l ≠ some i) ∧
      ∀ i, ¬Relation.TransGen (WaitsFor s) i i := by
  have hcircle := no_circle neutral_prog hm hr
  exact ⟨fun i l hl ho => hcircle i (.single ⟨l,hl,ho⟩),hcircle⟩

theorem locking_never_blocks_reader : ∃ s, run (step Call.prog) State.init
      [.start 0 (.write 1 0 none [⟨[],.given⟩]),.start 1 (.read 1 0),.run 0,.run 1,.run 0] =
        some s ∧ s.waiting 1 = some (.page 1 0) ∧ s.owner (.page 1 0) = some 0 ∧
    ∀ i, ¬Relation.TransGen (WaitsFor s) i i := by
  obtain ⟨s,hs⟩ : ∃ s, run (step Call.prog) State.init
      [.start 0 (.write 1 0 none [⟨[],.given⟩]),.start 1 (.read 1 0),.run 0,.run 1,.run 0] =
        some s := ⟨_,rfl⟩
  have hno := (locking_never_blocks (by decide) hs).2
  refine ⟨s,hs,?_,?_,hno⟩
  all_goals
    cases hs
    decide

/-- `jffs2_prepare_write` reserves space for a hole with `f->sem` held, and the pass that this starts
picks a node of the same file; `jffs2_setattr` cuts off a page that a reader has locked. -/
theorem locking_blocks :
    (∃ s, run (step Call.prog) State.init
        [.start 0 (.write 1 1 (some ⟨[],.broken (.node 1 false)⟩) []),.run 0,.run 0,.run 0,.run 0,
          .run 0,.run 0] = some s ∧
      s.waiting 0 = some (.sem 1) ∧ s.owner (.sem 1) = some 0) ∧
    (∃ s, run (step Call.prog) State.init
        [.start 0 (.read 1 0),.run 0,.start 1 (.setattr 1 ⟨[],.given⟩ [0]),.run 1,.run 1,.run 1,
          .run 1,.run 0] = some s ∧
      WaitsFor s 0 1 ∧ WaitsFor s 1 0) := by
  refine ⟨⟨_,rfl,by decide,by decide⟩,⟨_,rfl,⟨.sem 1,by decide,by decide⟩,
    ⟨.page 1 0,by decide,by decide⟩⟩⟩

end Simpad.Jffs2.Locking
