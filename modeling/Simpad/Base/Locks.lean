import Simpad.Base.Runs

/-!
# Threads that take locks in turn

Threads run straight-line programs of `down` and `up`.  If a thread that has to
wait only has locks of a lower rank than the one it waits for, nobody waits for
a lock of their own and no threads wait for each other.
-/

namespace Simpad.Locks

open List Function

inductive Instr (L : Type*)
  | down (l : L)
  /-- a `down` that is interrupted while it waits -/
  | quit (l : L)
  /-- a lock that is new, and taken from the start -/
  | fresh (l : L)
  | up (l : L)

/-- A program between the `down` and the `up` of a lock. -/
def bracket {L : Type*} (l : L) (p : List (Instr L)) : List (Instr L) := .down l :: (p ++ [.up l])

/-- `held` are the locks that a thread has taken, `waiting` the one that it sleeps on. -/
structure State (L : Type*) where
  prog : ℕ → List (Instr L)
  waiting : ℕ → Option L
  owner : L → Option ℕ
  held : ℕ → List L

inductive Op (C : Type*)
  | start (i : ℕ) (c : C)
  | run (i : ℕ)
  /-- a thread that waits goes on: the lock is free, or it was interrupted -/
  | wake (i : ℕ)

section
variable {L C : Type*} [DecidableEq L]

def State.init : State L := ⟨fun _ => [],fun _ => none,fun _ => none,fun _ => []⟩

namespace State

def take (s : State L) (i : ℕ) (l : L) (p : List (Instr L)) : State L where
  prog := update s.prog i p
  waiting := update s.waiting i none
  owner := update s.owner l (some i)
  held := update s.held i (l :: s.held i)

def wait (s : State L) (i : ℕ) (l : L) : State L :=
  { s with waiting := update s.waiting i (some l) }

def release (s : State L) (i : ℕ) (l : L) (p : List (Instr L)) : State L :=
  { s with
    prog := update s.prog i p
    owner := update s.owner l none
    held := update s.held i ((s.held i).erase l) }

def quit (s : State L) (i : ℕ) (p : List (Instr L)) : State L :=
  { s with
    prog := update s.prog i p
    waiting := update s.waiting i none }

/-- The thread executes its next instruction. -/
def run (s : State L) (i : ℕ) : Option (State L) :=
  if s.waiting i = none then
    match s.prog i with
    | [] => none
    | .down l :: p => some (if s.owner l = none then s.take i l p else s.wait i l)
    | .quit l :: _ => if s.owner l = none then none else some (s.wait i l)
    | .fresh l :: p => if s.owner l = none then some (s.take i l p) else none
    | .up l :: p => some (s.release i l p)
  else none

def wake (s : State L) (i : ℕ) : Option (State L) :=
  match s.waiting i,s.prog i with
  | some _,.down l :: p => if s.owner l = none then some (s.take i l p) else none
  | some _,.quit _ :: p => some (s.quit i p)
  | _,_ => none

end State

/-- One step of a system whose calls have the programs `body`. -/
def step (body : C → List (Instr L)) (s : State L) : Op C → Option (State L)
  | .start i c =>
    if s.prog i = [] then some { s with prog := update s.prog i (body c) } else none
  | .run i => s.run i
  | .wake i => s.wake i

end

section
variable {L : Type*}

/-- A thread waits for a lock of another, or of its own. -/
def WaitsFor (s : State L) (i j : ℕ) : Prop := ∃ l, s.waiting i = some l ∧ s.owner l = some j

/-- Along a chain of threads that wait for each other the ranks go up. -/
theorem rank_lt_of_transGen {rank : L → ℕ} {s : State L}
    (h : ∀ i l, s.waiting i = some l → ∀ m, s.owner m = some i → rank m < rank l) {i j : ℕ}
    (hij : Relation.TransGen (WaitsFor s) i j) :
    ∃ l, s.waiting i = some l ∧ ∀ l', s.waiting j = some l' → rank l < rank l' := by
  induction hij with
  | single hw =>
    obtain ⟨l,hl,hown⟩ := hw
    grind
  | tail _ hw ih =>
    obtain ⟨l,hl,hlt⟩ := ih
    obtain ⟨m,hm,hown⟩ := hw
    grind

theorem acyclic {rank : L → ℕ} {s : State L}
    (h : ∀ i l, s.waiting i = some l → ∀ m, s.owner m = some i → rank m < rank l) (i : ℕ) :
    ¬Relation.TransGen (WaitsFor s) i i := by
  intro hii
  obtain ⟨l,hl,hlt⟩ := rank_lt_of_transGen h hii
  exact lt_irrefl _ (hlt l hl)

end

section
variable {L : Type*} [DecidableEq L]

/-- The locks that a thread has after a program. -/
def after : List L → List (Instr L) → List L
  | held, [] => held
  | held, .down l :: p | held, .fresh l :: p => after (l :: held) p
  | held, .quit _ :: p => after held p
  | held, .up l :: p => after (held.erase l) p

variable (rank : L → ℕ) (top : L → Prop)

/-- A lock may be waited for: all that is held is below it. -/
def Below (held : List L) (l : L) : Prop := ∀ m ∈ held, rank m < rank l

/-- Locks are asked for in the order of their ranks, unless one of the top locks is held. -/
def Ranked : List L → List (Instr L) → Prop
  | _, [] => True
  | held, .down l :: p => (Below rank held l ∨ ∃ m ∈ held, top m) ∧ Ranked (l :: held) p
  | held, .quit l :: p => (Below rank held l ∨ ∃ m ∈ held, top m) ∧ Ranked held p
  | held, .fresh l :: p => Ranked (l :: held) p
  | held, .up l :: p => l ∈ held ∧ Ranked (held.erase l) p

theorem after_append (held : List L) (p q : List (Instr L)) :
    after held (p ++ q) = after (after held p) q := by
  induction p generalizing held with
  | nil => rfl
  | cons a p ih => cases a <;> exact ih _

theorem ranked_append {held : List L} {p q : List (Instr L)} :
    Ranked rank top held (p ++ q) ↔
      Ranked rank top held p ∧ Ranked rank top (after held p) q := by
  induction p generalizing held with
  | nil => exact (and_iff_right trivial).symm
  | cons a p ih =>
    cases a with
    | down | quit | up => exact (and_congr_right fun _ => ih).trans and_assoc.symm
    | fresh l => exact ih

/-- A program that is in order and gives back what it takes. -/
def Neutral (held : List L) (p : List (Instr L)) : Prop :=
  Ranked rank top held p ∧ after held p = held

variable {rank top}

theorem Neutral.nil (held : List L) : Neutral rank top held [] := ⟨trivial,rfl⟩

theorem Neutral.append {held : List L} {p q : List (Instr L)} (hp : Neutral rank top held p)
    (hq : Neutral rank top held q) : Neutral rank top held (p ++ q) := by
  refine ⟨(ranked_append rank top).mpr ⟨hp.1,?_⟩,?_⟩
  · rw [hp.2]
    exact hq.1
  · rw [after_append,hp.2,hq.2]

theorem Neutral.flatMap {α : Type*} {held : List L} {f : α → List (Instr L)}
    (h : ∀ a, Neutral rank top held (f a)) (as : List α) :
    Neutral rank top held (as.flatMap f) := by
  induction as with
  | nil => exact .nil held
  | cons a as ih => exact (h a).append ih

theorem Neutral.bracket {held : List L} {l : L} {p : List (Instr L)}
    (hl : Below rank held l ∨ ∃ m ∈ held, top m) (hp : Neutral rank top (l :: held) p) :
    Neutral rank top held (Locks.bracket l p) := by
  refine ⟨⟨hl,(ranked_append rank top).mpr ⟨hp.1,?_⟩⟩,?_⟩
  · rw [hp.2]
    exact ⟨mem_cons_self,trivial⟩
  · show after (l :: held) (p ++ [.up l]) = held
    rw [after_append,hp.2]
    exact erase_cons_head l held

end

/-- The lock that a thread asks for next. -/
def asks {L : Type*} : List (Instr L) → Option L
  | .down l :: _ | .quit l :: _ => some l
  | _ => none

/-- A thread that has one of the top locks finds free whatever it asks for. -/
def Prompt {L C : Type*} (top : L → Prop) (s : State L) : Op C → Prop
  | .run i => (∃ m ∈ s.held i, top m) → ∀ l, asks (s.prog i) = some l → s.owner l = none
  | _ => True

instance {L C : Type*} {top : L → Prop} [DecidablePred top] (s : State L) :
    (op : Op C) → Decidable (Prompt top s op)
  | .run i => decidable_of_iff
    ((∃ m ∈ s.held i, top m) → ∀ l ∈ asks (s.prog i), s.owner l = none) Iff.rfl
  | .start .. | .wake _ => isTrue trivial

/-- What holds of one thread. -/
structure Thread {L : Type*} [DecidableEq L] (rank : L → ℕ) (top : L → Prop) (s : State L) (i : ℕ) :
    Prop where
  ranked : Ranked rank top (s.held i) (s.prog i)
  finish : after (s.held i) (s.prog i) = []
  owner : ∀ l, s.owner l = some i ↔ l ∈ s.held i
  nodup : (s.held i).Nodup
  waiting : ∀ l, s.waiting i = some l → Below rank (s.held i) l ∧ asks (s.prog i) = some l

section
variable {L C : Type*} [DecidableEq L] {rank : L → ℕ} {top : L → Prop} {s t : State L} {i j : ℕ}
  {l : L} {p : List (Instr L)}

theorem thread_init (i : ℕ) : Thread rank top State.init i :=
  ⟨trivial,rfl,fun _ => iff_of_false (Option.some_ne_none i).symm not_mem_nil,nodup_nil,
    fun l h => absurd h.symm (Option.some_ne_none l)⟩

/-- A thread does not notice what is done to the locks of others. -/
theorem Thread.frame (h : Thread rank top s j) (hprog : t.prog j = s.prog j)
    (hheld : t.held j = s.held j) (hwaiting : t.waiting j = s.waiting j)
    (howner : ∀ l, t.owner l = some j ↔ s.owner l = some j) : Thread rank top t j := by
  refine ⟨?_,?_,fun l => ?_,?_,fun l hl => ?_⟩
  · rw [hprog,hheld]
    exact h.ranked
  · rw [hprog,hheld]
    exact h.finish
  · rw [howner l,hheld]
    exact h.owner l
  · rw [hheld]
    exact h.nodup
  · rw [hwaiting] at hl
    rw [hheld,hprog]
    exact h.waiting l hl

theorem Thread.of_running {held : List L} (hheld : t.held j = held) (hprog : t.prog j = p)
    (hranked : Ranked rank top held p) (hfinish : after held p = [])
    (howner : ∀ l, t.owner l = some j ↔ l ∈ held) (hnodup : held.Nodup)
    (hwaiting : t.waiting j = none) : Thread rank top t j := by
  subst hheld hprog
  exact ⟨hranked,hfinish,howner,hnodup,fun l hl => nomatch hwaiting.symm.trans hl⟩

section
variable (h : ∀ j, Thread rank top s j)
include h

theorem take_thread (hfree : s.owner l = none)
    (hranked : Ranked rank top (l :: s.held i) p) (hfinish : after (l :: s.held i) p = [])
    (j : ℕ) : Thread rank top (s.take i l p) j := by
  by_cases hj : j = i
  · subst hj
    have hnew : l ∉ s.held j := fun hl => by
      rw [(h j).owner l |>.mpr hl] at hfree
      cases hfree
    refine .of_running (update_self _ _ _) (update_self _ _ _) hranked hfinish (fun m => ?_)
      (nodup_cons.mpr ⟨hnew,(h j).nodup⟩) (update_self _ _ _)
    rw [mem_cons]
    show update s.owner l (some j) m = some j ↔ _
    by_cases hm : m = l
    · grind
    · rw [update_of_ne hm,(h j).owner m]
      exact (or_iff_right hm).symm
  · refine (h j).frame ?_ ?_ ?_ fun m => ?_
    · exact update_of_ne hj _ _
    · exact update_of_ne hj _ _
    · exact update_of_ne hj _ _
    · show update s.owner l (some i) m = some j ↔ _
      grind

theorem wait_thread (hbelow : Below rank (s.held i) l)
    (hasks : asks (s.prog i) = some l) (j : ℕ) : Thread rank top (s.wait i l) j := by
  by_cases hj : j = i
  · subst hj
    refine ⟨(h j).ranked,(h j).finish,(h j).owner,(h j).nodup,fun m hm => ?_⟩
    have hself : (s.wait j l).waiting j = some l := update_self _ _ _
    cases hself.symm.trans hm
    exact ⟨hbelow,hasks⟩
  · exact (h j).frame rfl rfl (update_of_ne hj _ _) fun _ => Iff.rfl

theorem quit_thread (hranked : Ranked rank top (s.held i) p)
    (hfinish : after (s.held i) p = []) (j : ℕ) : Thread rank top (s.quit i p) j := by
  by_cases hj : j = i
  · subst hj
    exact .of_running rfl (update_self _ _ _) hranked hfinish (h j).owner (h j).nodup
      (update_self _ _ _)
  · exact (h j).frame (update_of_ne hj _ _) rfl (update_of_ne hj _ _)
      fun _ => Iff.rfl

theorem release_thread (hi : s.waiting i = none)
    (hl : l ∈ s.held i) (hranked : Ranked rank top ((s.held i).erase l) p)
    (hfinish : after ((s.held i).erase l) p = []) (j : ℕ) :
    Thread rank top (s.release i l p) j := by
  have hown := ((h i).owner l).mpr hl
  by_cases hj : j = i
  · subst hj
    refine .of_running (update_self _ _ _) (update_self _ _ _) hranked hfinish (fun m => ?_)
      ((h j).nodup.erase l) hi
    rw [(h j).nodup.mem_erase_iff]
    show update s.owner l none m = some j ↔ _
    by_cases hm : m = l
    · grind
    · rw [update_of_ne hm,(h j).owner m]
      exact (and_iff_right hm).symm
  · refine (h j).frame (update_of_ne hj _ _) (update_of_ne hj _ _) rfl fun m => ?_
    show update s.owner l none m = some j ↔ _
    grind

theorem run_thread
    (hprompt : (∃ m ∈ s.held i, top m) → ∀ l, asks (s.prog i) = some l → s.owner l = none)
    (ht : s.run i = some t) (j : ℕ) : Thread rank top t j := by
  have hranked := (h i).ranked
  have hfinish := (h i).finish
  rw [State.run] at ht
  split_ifs at ht with hw
  -- a lock that is not free is asked for in order
  have hbelow {l : L} (hasks : asks (s.prog i) = some l) (hfree : ¬s.owner l = none)
      (hl : Below rank (s.held i) l ∨ ∃ m ∈ s.held i, top m) : Below rank (s.held i) l :=
    hl.resolve_right fun htop => hfree (hprompt htop l hasks)
  cases hp : s.prog i with
  | nil =>
    rw [hp] at ht
    cases ht
  | cons a p =>
    rw [hp] at ht hranked hfinish
    have hasks : asks (s.prog i) = asks (a :: p) := by rw [hp]
    cases a with
    | down l =>
      cases ht
      split_ifs with hfree
      · exact take_thread h hfree hranked.2 hfinish j
      · exact wait_thread h (hbelow hasks hfree hranked.1) hasks j
    | quit l =>
      dsimp only at ht
      split_ifs at ht with hfree
      cases ht
      exact wait_thread h (hbelow hasks hfree hranked.1) hasks j
    | fresh l =>
      dsimp only at ht
      split_ifs at ht with hfree
      cases ht
      exact take_thread h hfree hranked hfinish j
    | up l =>
      cases ht
      exact release_thread h hw hranked.1 hranked.2 hfinish j

theorem wake_thread (ht : s.wake i = some t) (j : ℕ) :
    Thread rank top t j := by
  have hranked := (h i).ranked
  have hfinish := (h i).finish
  rw [State.wake] at ht
  split at ht
  · rename_i l p hw hp
    rw [hp] at hranked hfinish
    split_ifs at ht with hfree
    cases ht
    exact take_thread h hfree hranked.2 hfinish j
  · rename_i l p hw hp
    rw [hp] at hranked hfinish
    cases ht
    exact quit_thread h hranked.2 hfinish j
  · cases ht

theorem start_thread (hi : s.prog i = [])
    (hp : Neutral rank top [] p) (j : ℕ) :
    Thread rank top { s with prog := update s.prog i p } j := by
  by_cases hj : j = i
  · subst hj
    have hheld : s.held j = [] := by
      have := (h j).finish
      rw [hi] at this
      exact this
    have hprog : ({ s with prog := update s.prog j p } : State L).prog j = p :=
      update_self _ _ _
    refine ⟨?_,?_,(h j).owner,(h j).nodup,fun l hl => ?_⟩
    · rw [hprog]
      rw [hheld]
      exact hp.1
    · rw [hprog]
      rw [hheld]
      exact hp.2
    · have := ((h j).waiting l hl).2
      rw [hi] at this
      cases this
  · exact (h j).frame (update_of_ne hj _ _) rfl rfl fun _ => Iff.rfl

end

/-- If all calls take their locks in order, then in every run in which a thread with a top lock never
has to wait nobody waits in a circle. -/
theorem no_circle {body : C → List (Instr L)} (hbody : ∀ c, Neutral rank top [] (body c))
    {ops : List (Op C)} (hm : Runs.Meets (step body) (Prompt top) State.init ops)
    (hr : Runs.run (step body) State.init ops = some s) (i : ℕ) :
    ¬Relation.TransGen (WaitsFor s) i i := by
  let Inv : State L → Prop := fun s => ∀ j, Thread rank top s j
  have hinv : Inv s := by
    refine Runs.invariant (step body) (fun s op t hs hop ht j => ?_) thread_init hm hr
    cases op with
    | start i c =>
      rw [step] at ht
      split_ifs at ht with hi
      cases ht
      exact start_thread hs hi (hbody c) j
    | run i => exact run_thread hs hop ht j
    | wake i => exact wake_thread hs ht j
  have hrank (i : ℕ) (l : L) (hl : s.waiting i = some l) (m : L) (hm : s.owner m = some i) :
      rank m < rank l := ((hinv i).waiting l hl).1 m (((hinv i).owner m).mp hm)
  exact acyclic hrank i

end

end Simpad.Locks
