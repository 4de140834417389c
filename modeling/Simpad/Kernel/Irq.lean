import Simpad.Base.Runs

/-! Interrupt delivery. The invocations nest; what happens between two handler calls is one section under
`irq_controller_lock` and one step of the machine. -/

namespace Simpad.Irq

open List Function Runs
variable {ι : Type*} [DecidableEq ι]

/-- The flags of a `struct irqdesc`. -/
structure Desc where
  running : Bool
  pending : Bool
  disableDepth : ℕ
  deriving DecidableEq

def Desc.setPending (pending : Bool) (d : Desc) : Desc := { d with pending := pending }

/-- A handler under way: the interrupt, and what its `do_IRQ` was called by.  A pass of
`do_pending_irqs` goes on with the rest of the list it has taken; none stands for `asm_do_IRQ`. -/
structure Frame (ι : Type*) where
  irq : ι
  cont : Option (List ι)

structure State (ι : Type*) where
  desc : ι → Desc
  irqPending : List ι
  /-- the handlers under way, the innermost first -/
  stack : List (Frame ι)
  /-- the interrupts that arrived and have not been followed by a handler run -/
  owed : ι → Bool
  /-- the handler runs so far, each with the disable depth at its start, the latest first -/
  starts : List (ι × ℕ)

def State.init : State ι := ⟨fun _ => ⟨false,false,0⟩,[],[],fun _ => false,[]⟩

def State.modify (s : State ι) (irq : ι) (f : Desc → Desc) : State ι :=
  { s with desc := update s.desc irq (f (s.desc irq)) }

/-- The list of the pass that called, if any. -/
def Frame.rest (f : Frame ι) : List ι := f.cont.getD []

/-- `!list_empty(&desc->pend)`: the interrupt is on `irq_pending`, or on the list that a pass has
taken from it. -/
def State.Linked (s : State ι) (irq : ι) : Prop :=
  irq ∈ s.irqPending ∨ ∃ f ∈ s.stack, irq ∈ f.rest

instance (s : State ι) (irq : ι) : Decidable (s.Linked irq) :=
  inferInstanceAs (Decidable (_ ∨ _))

def State.disableIrq (s : State ι) (irq : ι) : State ι :=
  s.modify irq fun d => { d with disableDepth := d.disableDepth + 1 }

/-- `enable_irq`; an unbalanced call only complains. -/
def State.enableIrq (s : State ι) (irq : ι) : State ι :=
  if (s.desc irq).disableDepth = 0 then s
  else
    let t := s.modify irq fun d => { d with disableDepth := d.disableDepth - 1 }
    if (t.desc irq).disableDepth = 0 ∧ (t.desc irq).pending = true then
      let u := t.modify irq (.setPending false)
      if u.Linked irq then u else { u with irqPending := irq :: u.irqPending }
    else t

/-- `__do_irq` calls the handler. -/
def State.start (s : State ι) (irq : ι) : State ι :=
  { s with
    owed := update s.owed irq false
    starts := (irq,(s.desc irq).disableDepth) :: s.starts }

/-- The head of the loop in `do_IRQ`. -/
def State.again (s : State ι) (irq : ι) : State ι :=
  let t := if (s.desc irq).pending = true ∧ (s.desc irq).disableDepth = 0 then
      s.modify irq (.setPending false)
    else s
  t.start irq

/-- `do_IRQ` up to the handler; whether there is a handler run. -/
def State.doIrq (s : State ι) (irq : ι) (cont : Option (List ι)) : State ι × Bool :=
  if (s.desc irq).running = true ∨ (s.desc irq).disableDepth ≠ 0 then
    (s.modify irq (.setPending true),false)
  else
    let t := (s.modify irq fun d => { d with running := true }).again irq
    ({ t with stack := ⟨irq,cont⟩ :: t.stack },true)

/-- The inner loop of `do_pending_irqs`, up to the next handler. -/
def State.walk (s : State ι) : List ι → State ι × Bool
  | [] => (s,false)
  | irq :: rest =>
    let r := s.doIrq irq (some rest)
    if r.2 then r else r.1.walk rest

/-- One round of the outer loop. -/
def State.doPendingIrqs (s : State ι) : State ι × Bool :=
  ({ s with irqPending := [] } : State ι).walk s.irqPending

/-- What follows when `do_IRQ` returns to `asm_do_IRQ` or to a pass. -/
def State.resume (s : State ι) : Option (List ι) → State ι
  | none => if s.irqPending = [] then s else s.doPendingIrqs.1
  | some rest =>
    let r := s.walk rest
    if r.2 then r.1 else if r.1.irqPending = [] then r.1 else r.1.doPendingIrqs.1

def State.asmDoIrq (s : State ι) (irq : ι) : State ι :=
  let r := ({ s with owed := update s.owed irq true } : State ι).doIrq irq none
  if r.2 then r.1 else r.1.resume none

def State.handlerReturns (s : State ι) (f : Frame ι) (stack : List (Frame ι)) : State ι :=
  if (s.desc f.irq).pending = true ∧ (s.desc f.irq).disableDepth = 0 then s.again f.irq
  else
    ({ s.modify f.irq fun d => { d with running := false } with stack := stack } : State ι).resume
      f.cont

inductive Action (ι : Type*)
  | arrive (irq : ι)
  | handlerReturns
  | disable (irq : ι)
  | enable (irq : ι)

def step (s : State ι) : Action ι → Option (State ι)
  | .arrive irq => some (s.asmDoIrq irq)
  | .handlerReturns =>
    match s.stack with
    | [] => none
    | f :: stack => some (s.handlerReturns f stack)
  | .disable irq => some (s.disableIrq irq)
  | .enable irq => some (s.enableIrq irq)

/-- What holds between two handler calls, while a pass still has to run the interrupts `l`. -/
structure State.Inv (s : State ι) (l : List ι) : Prop where
  enabled : ∀ p ∈ s.starts, p.2 = 0
  running : ∀ i, (s.desc i).running = true ↔ i ∈ s.stack.map Frame.irq
  once : (s.stack.map Frame.irq).Nodup
  kept : ∀ i, s.owed i = true → (s.desc i).pending = true ∨ s.Linked i ∨ i ∈ l

variable {i irq : ι} {l : List ι} {s : State ι} {stack : List (Frame ι)}

section
variable (s : State ι) (irq : ι) (f : Desc → Desc)

@[simp] theorem modify_desc_self : (s.modify irq f).desc irq = f (s.desc irq) :=
  update_self irq _ s.desc

@[simp] theorem modify_desc_of_ne (h : i ≠ irq) : (s.modify irq f).desc i = s.desc i :=
  update_of_ne h _ s.desc

/-- A change of flags that keeps `running` keeps it for every interrupt. -/
theorem modify_running (hf : ∀ d, (f d).running = d.running) (i : ι) :
    ((s.modify irq f).desc i).running = (s.desc i).running := by
  by_cases h : i = irq
  · subst h
    rw [modify_desc_self,hf]
  · rw [modify_desc_of_ne s irq f h]

end

section
variable (s : State ι) (irq : ι)

theorem again_stack : (s.again irq).stack = s.stack := by
  unfold State.again
  split_ifs <;> rfl

theorem again_irqPending : (s.again irq).irqPending = s.irqPending := by
  unfold State.again
  split_ifs <;> rfl

theorem again_owed : (s.again irq).owed = update s.owed irq false := by
  unfold State.again
  split_ifs <;> rfl

theorem again_starts : (s.again irq).starts = (irq,(s.desc irq).disableDepth) :: s.starts := by
  unfold State.again
  split_ifs
  · simp [State.start,State.modify,Desc.setPending]
  · rfl

theorem again_running (i : ι) : ((s.again irq).desc i).running = (s.desc i).running := by
  unfold State.again
  split_ifs
  · exact modify_running s irq (.setPending false) (fun _ => rfl) i
  · rfl

theorem again_desc_of_ne (h : i ≠ irq) : (s.again irq).desc i = s.desc i := by
  unfold State.again
  split_ifs
  · exact modify_desc_of_ne s irq (.setPending false) h
  · rfl

end

/-- Whoever is still owed a run after one for `irq` was owed it before and is not `irq`. -/
theorem owed_again (h : (s.again irq).owed i = true) : i ≠ irq ∧ s.owed i = true := by
  rw [again_owed] at h
  by_cases hi : i = irq
  · grind
  · grind

theorem State.Inv.defer (h : s.Inv (irq :: l)) :
    (s.modify irq (.setPending true)).Inv l where
  enabled := h.enabled
  running i := by
    rw [modify_running s irq (.setPending true) fun _ => rfl]
    exact h.running i
  once := h.once
  kept i hi := by
    by_cases he : i = irq
    · subst he
      exact Or.inl (by rw [modify_desc_self]; rfl)
    · rw [modify_desc_of_ne s irq _ he]
      refine (h.kept i hi).imp_right fun hl => hl.imp_right fun hm => ?_
      exact (mem_cons.mp hm).resolve_left he

theorem State.Inv.again (h : s.Inv l) (hd : (s.desc irq).disableDepth = 0) :
    (s.again irq).Inv l where
  enabled p hp := by
    rw [again_starts] at hp
    cases hp with
    | head => exact hd
    | tail _ hp => exact h.enabled p hp
  running i := by
    rw [again_running,again_stack]
    exact h.running i
  once := by
    rw [again_stack]
    exact h.once
  kept i hi := by
    obtain ⟨hne,ho⟩ := owed_again hi
    rw [again_desc_of_ne s irq hne,State.Linked,again_stack,again_irqPending]
    exact h.kept i ho

theorem State.Inv.doIrq (cont : Option (List ι)) (h : s.Inv (irq :: cont.getD [])) :
    (s.doIrq irq cont).1.Inv (if (s.doIrq irq cont).2 then [] else cont.getD []) := by
  unfold State.doIrq
  split_ifs with hc hb hb
  · cases hb
  · exact h.defer
  swap
  · exact absurd rfl hb
  rw [not_or,not_not,Bool.not_eq_true] at hc
  have hnew : irq ∉ s.stack.map Frame.irq := by
    simp [← h.running irq,hc.1]
  set t := s.modify irq fun d => { d with running := true } with ht
  have hdepth : (t.desc irq).disableDepth = 0 := by
    rw [ht,modify_desc_self]
    exact hc.2
  constructor
  · intro p hp
    rw [again_starts] at hp
    cases hp with
    | head => exact hdepth
    | tail _ hp => exact h.enabled p hp
  · intro i
    show ((t.again irq).desc i).running = true ↔ i ∈ (irq :: (t.again irq).stack.map Frame.irq)
    rw [again_running,again_stack,mem_cons]
    by_cases hi : i = irq
    · subst hi
      simp [ht,modify_desc_self]
    · rw [ht,modify_desc_of_ne s irq _ hi,or_iff_right hi]
      exact h.running i
  · show (irq :: (t.again irq).stack.map Frame.irq).Nodup
    rw [again_stack]
    exact nodup_cons.mpr ⟨hnew,h.once⟩
  · intro i hi
    obtain ⟨hne,ho⟩ := owed_again hi
    show ((t.again irq).desc i).pending = true ∨
      (i ∈ (t.again irq).irqPending ∨ ∃ f ∈ ⟨irq,cont⟩ :: (t.again irq).stack, i ∈ f.rest) ∨ i ∈ []
    rw [again_desc_of_ne t irq hne,again_irqPending,again_stack,ht,modify_desc_of_ne s irq _ hne]
    obtain hp | (hl | ⟨f,hf,hif⟩) | hm := h.kept i ho
    · exact Or.inl hp
    · exact Or.inr (Or.inl (Or.inl hl))
    · exact Or.inr (Or.inl (Or.inr ⟨f,mem_cons_of_mem _ hf,hif⟩))
    · have hrest : i ∈ cont.getD [] := (mem_cons.mp hm).resolve_left hne
      exact Or.inr (Or.inl (Or.inr ⟨⟨irq,cont⟩,mem_cons_self,hrest⟩))

theorem State.Inv.walk (h : s.Inv l) : (s.walk l).1.Inv [] := by
  induction l generalizing s with
  | nil => exact h
  | cons irq rest ih =>
    have hr := State.Inv.doIrq (some rest) h
    unfold State.walk
    grind

omit [DecidableEq ι] in
theorem State.Inv.take (h : s.Inv []) :
    ({ s with irqPending := [] } : State ι).Inv s.irqPending where
  enabled := h.enabled
  running := h.running
  once := h.once
  kept i hi := by
    obtain hp | (hl | hl) | hm := h.kept i hi
    · exact Or.inl hp
    · exact Or.inr (Or.inr hl)
    · exact Or.inr (Or.inl (Or.inr hl))
    · cases hm

theorem State.Inv.doPendingIrqs (h : s.Inv []) : s.doPendingIrqs.1.Inv [] :=
  h.take.walk

theorem State.Inv.resume (cont : Option (List ι)) (h : s.Inv (cont.getD [])) :
    (s.resume cont).Inv [] := by
  cases cont with
  | none =>
    unfold State.resume
    split_ifs
    · exact h
    · exact State.Inv.doPendingIrqs h
  | some rest =>
    have hw : (s.walk rest).1.Inv [] := State.Inv.walk h
    unfold State.resume
    dsimp only
    split_ifs
    · exact hw
    · exact hw
    · exact hw.doPendingIrqs

theorem State.Inv.arrive (h : s.Inv []) (irq : ι) :
    ({ s with owed := update s.owed irq true } : State ι).Inv [irq] where
  enabled := h.enabled
  running := h.running
  once := h.once
  kept i hi := by
    by_cases he : i = irq
    · grind
    · have ho : s.owed i = true := by
        grind
      exact (h.kept i ho).imp_right fun hl => hl.imp_right fun hm => mem_cons_of_mem irq hm

theorem State.Inv.asmDoIrq (h : s.Inv []) (irq : ι) : (s.asmDoIrq irq).Inv [] := by
  have hr := State.Inv.doIrq none (h.arrive irq)
  unfold State.asmDoIrq
  dsimp only
  split_ifs at hr ⊢ with hb
  · exact hr
  · exact State.Inv.resume none hr

/-- The innermost frame goes; the rest of its pass is still to be run. -/
theorem State.Inv.pop {f : Frame ι} (h : s.Inv []) (hs : s.stack = f :: stack) :
    ({ s.modify f.irq fun d => { d with running := false } with stack := stack } : State ι).Inv
      f.rest := by
  have honce := h.once
  rw [hs] at honce
  obtain ⟨hnot,hnodup⟩ := nodup_cons.mp honce
  refine ⟨h.enabled,?_,hnodup,?_⟩
  · intro i
    by_cases hi : i = f.irq
    · subst hi
      rw [modify_desc_self]
      grind
    · have hr := h.running i
      rw [hs,map_cons,mem_cons,or_iff_right hi] at hr
      rw [modify_desc_of_ne s f.irq _ hi]
      exact hr
  · intro i hi
    have hp : (s.desc i).pending = true →
        ((s.modify f.irq fun d => { d with running := false }).desc i).pending = true := by
      intro hp
      by_cases he : i = f.irq
      · subst he
        rw [modify_desc_self]
        exact hp
      · rwa [modify_desc_of_ne s f.irq _ he]
    obtain hk | (hl | ⟨g,hg,hig⟩) | hm := h.kept i hi
    · exact Or.inl (hp hk)
    · exact Or.inr (Or.inl (Or.inl hl))
    · rw [hs] at hg
      cases hg with
      | head => exact Or.inr (Or.inr hig)
      | tail _ hg => exact Or.inr (Or.inl (Or.inr ⟨g,hg,hig⟩))
    · cases hm

theorem State.Inv.handlerReturns {f : Frame ι} (h : s.Inv []) (hs : s.stack = f :: stack) :
    (s.handlerReturns f stack).Inv [] := by
  unfold State.handlerReturns
  split_ifs with hc
  · exact h.again hc.2
  · exact State.Inv.resume f.cont (h.pop hs)

theorem State.Inv.depth (h : s.Inv []) (irq : ι) (f : ℕ → ℕ) :
    (s.modify irq fun d => { d with disableDepth := f d.disableDepth }).Inv [] where
  enabled := h.enabled
  running i := by
    rw [modify_running s irq (fun d => { d with disableDepth := f d.disableDepth }) fun _ => rfl]
    exact h.running i
  once := h.once
  kept i hi := by
    have hp : ((s.modify irq fun d => { d with disableDepth := f d.disableDepth }).desc i).pending =
        (s.desc i).pending := by
      by_cases he : i = irq
      · subst he
        rw [modify_desc_self]
      · rw [modify_desc_of_ne s irq _ he]
    rw [hp]
    exact h.kept i hi

theorem State.Inv.unmark (h : s.Inv []) (hl : (({ s with irqPending := l } : State ι)).Linked irq)
    (hsub : ∀ i ∈ s.irqPending, i ∈ l) :
    ({ s.modify irq (.setPending false) with irqPending := l } : State ι).Inv [] where
  enabled := h.enabled
  running i := by
    rw [modify_running s irq (.setPending false) fun _ => rfl]
    exact h.running i
  once := h.once
  kept i hi := by
    by_cases he : i = irq
    · subst he
      exact Or.inr (Or.inl hl)
    · rw [modify_desc_of_ne s irq _ he]
      exact (h.kept i hi).imp_right fun hk => hk.imp_left fun hk => hk.imp_left (hsub i)

theorem State.Inv.enableIrq (h : s.Inv []) (irq : ι) : (s.enableIrq irq).Inv [] := by
  have ht := h.depth irq fun n => n - 1
  unfold State.enableIrq
  dsimp only
  split_ifs with h0 hp hl
  · exact h
  · exact ht.unmark (l := s.irqPending) hl fun _ hi => hi
  · exact ht.unmark (l := irq :: s.irqPending) (Or.inl mem_cons_self)
      fun _ hi => mem_cons_of_mem irq hi
  · exact ht

theorem State.Inv.step {t : State ι} {a : Action ι} (h : s.Inv []) (hs : step s a = some t) :
    t.Inv [] := by
  cases a with
  | arrive irq =>
    cases hs
    exact h.asmDoIrq irq
  | handlerReturns =>
    simp only [Irq.step] at hs
    split at hs
    · cases hs
    · next f stack hstack =>
      cases hs
      exact h.handlerReturns hstack
  | disable irq =>
    cases hs
    exact h.depth irq fun n => n + 1
  | enable irq =>
    cases hs
    exact h.enableIrq irq

omit [DecidableEq ι] in
theorem inv_init : (State.init : State ι).Inv [] where
  enabled := by intro p hp; cases hp
  running i := iff_of_false Bool.false_ne_true not_mem_nil
  once := nodup_nil
  kept i hi := by cases hi

/-- In every interleaving a handler run only starts at disable depth zero, no handler is entered
twice, and an interrupt that arrived without a run since is pending or waits on `irq_pending` or
on the list that a pass has taken from it. -/
theorem delivery {as : List (Action ι)} {s : State ι} (hr : run step .init as = some s) :
    (∀ p ∈ s.starts, p.2 = 0) ∧ (s.stack.map Frame.irq).Nodup ∧
      ∀ i, s.owed i = true → (s.desc i).pending = true ∨ s.Linked i := by
  have hi : s.Inv [] :=
    invariant_of_step step (fun _ _ _ => State.Inv.step) inv_init hr
  refine ⟨hi.enabled,hi.once,fun i ho => (hi.kept i ho).imp_right fun hk => ?_⟩
  exact hk.resolve_right not_mem_nil

/-- Two interrupts that came while they were disabled, enabled again, and one of them comes once
more; its handler returns and the pass begins. -/
def twoDelayed : List (Action Bool) :=
  [.disable false,.disable true,.arrive false,.arrive true,.enable false,.enable true,.arrive true,
    .handlerReturns]

theorem delivery_delayed :
    ∃ s, run step .init twoDelayed = some s ∧ s.owed false = true ∧ s.Linked false := by
  obtain ⟨s,hs⟩ : ∃ s, run step .init twoDelayed = some s := ⟨_,rfl⟩
  have hd := (delivery hs).2.2 false
  cases hs
  exact ⟨_,rfl,rfl,(hd rfl).resolve_left (by decide)⟩

/-- While the handler of the one runs, the other is neither pending nor on `irq_pending`. -/
theorem delayed_off_list :
    ∃ s, run step .init twoDelayed = some s ∧ s.owed false = true ∧
      (s.desc false).pending = false ∧ false ∉ s.irqPending :=
  ⟨_,rfl,rfl,rfl,by decide⟩

end Simpad.Irq
