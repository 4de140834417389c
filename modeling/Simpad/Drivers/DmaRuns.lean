import Simpad.Drivers.DmaTransfer

namespace Simpad.Dma
open ListAt List Runs

def Buf.origin (b : Buf) : ℕ × ℕ × ℕ := (b.id,b.dmaStart,b.total)

/-- A started toggle finds the controller running. -/
def Chan.Running (s : Chan) : Prop := s.regs.cur.strt = true → s.regs.run = true

/-- What the driver leaves alone when it starts and accounts for chunks. -/
structure Chan.Keeps (s t : Chan) : Prop where
  stopped : t.stopped = s.stopped
  moved : t.moved = s.moved
  origin : t.bufs.map Buf.origin = s.bufs.map Buf.origin
  running : s.Running → t.Running

theorem Chan.Keeps.refl (s : Chan) : s.Keeps s := ⟨rfl,rfl,rfl,id⟩

variable {o : Op} {s t : Chan} {ops : List Op} {owed : List Chunk}

theorem Chan.Keeps.trans {u : Chan} (h : s.Keeps t) (h' : t.Keeps u) : s.Keeps u :=
  ⟨h'.stopped.trans h.stopped,h'.moved.trans h.moved,h'.origin.trans h.origin,
    fun hr => h'.running (h.running hr)⟩

theorem Chan.keeps_processOnce (h : s.processOnce = some t) : s.Keeps t := by
  obtain ⟨i,buf,-,-,-,-,-,rfl⟩ := processOnce_eq_some h
  exact ⟨rfl,rfl,map_modify (f := Buf.started) (g := Buf.origin) (fun _ => rfl) _ _,fun _ _ => rfl⟩

theorem Chan.keeps_processLoop (n : ℕ) (s : Chan) : s.Keeps (s.processLoop n) := by
  induction n generalizing s with
  | zero => exact .refl s
  | succ n ih =>
    unfold Chan.processLoop
    cases hp : s.processOnce with
    | none => exact .refl s
    | some t => exact (Chan.keeps_processOnce hp).trans (ih t)

theorem Chan.keeps_processDma (s : Chan) : s.Keeps s.processDma := Chan.keeps_processLoop 3 s

theorem Chan.keeps_account (s : Chan) : s.Keeps s.account := by
  have hmap : ∀ i, (s.bufs.modify i Buf.accounted).map Buf.origin = s.bufs.map Buf.origin :=
    map_modify (f := Buf.accounted) (g := Buf.origin) (fun _ => rfl) _
  unfold Chan.account
  split
  · exact .refl s
  · split
    · exact .refl s
    · split_ifs <;> exact ⟨rfl,rfl,hmap _,id⟩

theorem Chan.keeps_dmaDone (s : Chan) : s.Keeps s.dmaDone :=
  s.keeps_account.trans s.account.keeps_processDma

theorem Chan.keeps_irqHandler (s : Chan) : s.Keeps s.irqHandler := by
  have hc : s.Keeps { s with regs := s.regs.clearDone } := ⟨rfl,rfl,rfl,id⟩
  unfold Chan.irqHandler
  split_ifs
  · exact (hc.trans (Chan.keeps_dmaDone _)).trans (Chan.keeps_dmaDone _)
  · exact hc.trans (Chan.keeps_dmaDone _)
  · exact hc.trans (Chan.keeps_dmaDone _)
  · exact hc

theorem stop_spec (hs : s.stopped = false) :
    s.stop.stopped = true ∧ s.stop.moved = s.moved ∧
      s.stop.bufs.map Buf.origin = s.bufs.map Buf.origin ∧ s.stop.Running := by
  have hput : s.putBack.moved = s.moved ∧
      s.putBack.bufs.map Buf.origin = s.bufs.map Buf.origin := by
    unfold Chan.putBack
    split
    · exact ⟨rfl,rfl⟩
    · split
      · exact ⟨rfl,rfl⟩
      · exact ⟨rfl,map_modify (f := fun b : Buf => b.rollback _) (g := Buf.origin) (fun _ => rfl) _ _⟩
  unfold Chan.stop
  rw [hs,if_neg Bool.false_ne_true]
  have hk := Chan.keeps_processDma
    { s.putBack with stopped := true, regs := { s.regs.clearAll with run := false } }
  exact ⟨hk.stopped,hk.moved.trans hput.1,hk.origin.trans hput.2,
    hk.running fun hn => absurd hn Bool.false_ne_true⟩

structure Chan.Good (s : Chan) : Prop where
  inv : s.Inv []
  busy : s.Busy
  running : s.Running

/-- The channel after `sa1100_dma_flush_all`; the toggle in use stays. -/
def Chan.flushed (biu : Bool) : Chan := { Chan.init with regs := ⟨fun _ => .idle,biu,false⟩ }

theorem Chan.good_flushed (biu : Bool) : (Chan.flushed biu).Good := by
  refine ⟨⟨⟨⟨?_,?_,?_,?_,?_,?_,?_,?_⟩,?_,?_,?_⟩,⟨fun _ => ⟨?_,?_,?_⟩,?_,?_,?_⟩,rfl,rfl,rfl,?_⟩,
    ?_,?_⟩ <;>
    simp [Chan.flushed,Chan.init,Chan.Busy,Chan.Running,Toggle.idle,Regs.cur,Regs.oth,Chan.tailIdx]

/-- The steps of the runs: a stop has to find no later buffer in the controller. -/
def Allowed (s : Chan) : Op → Prop
  | .stop => s.stopped = false → s.Alone
  | _ => True

theorem step_move (h : step s .move = some t) :
    (s.regs.run = true ∧ s.regs.cur.strt = true ∧ s.regs.cur.left ≠ 0) ∧
      t = ⟨s.bufs,s.head,s.tail,s.curr,s.stopped,s.regs.move,s.moved ++ [s.regs.cur.dbs],s.called⟩ := by
  obtain ⟨hc,ht⟩ := Option.ite_none_right_eq_some.mp h
  exact ⟨hc,(Option.some.inj ht).symm⟩

theorem step_complete (h : step s .complete = some t) :
    (s.regs.run = true ∧ s.regs.cur.strt = true ∧ s.regs.cur.left = 0) ∧
      t = ⟨s.bufs,s.head,s.tail,s.curr,s.stopped,s.regs.complete,s.moved,s.called⟩ := by
  obtain ⟨hc,ht⟩ := Option.ite_none_right_eq_some.mp h
  exact ⟨hc,(Option.some.inj ht).symm⟩

theorem Chan.Good.transferred {r : Regs} {moved : List ℕ} (h : s.Good) (hlegal : r.Legal)
    (hloaded : r.loaded = s.regs.loaded) (hrun : r.run = true)
    (hb : moved ++ (r.pending ++ s.bufs.flatMap Buf.todo) = s.bufs.flatMap Buf.all) :
    Good ⟨s.bufs,s.head,s.tail,s.curr,s.stopped,r,moved,s.called⟩ := by
  refine ⟨⟨⟨h.inv.marks,h.inv.tailLt,h.inv.curr,h.inv.idle⟩,hlegal,h.inv.calls,?_,hb,h.inv.halted⟩,
    fun hs ht hn => h.busy hs ht (hloaded.symm.trans hn),fun _ => hrun⟩
  exact h.inv.flights.trans (by rw [hloaded])

theorem Chan.Good.stepped (h : s.Good) (ha : Allowed s o) (hst : step s o = some t) : t.Good := by
  cases o with
  | queueBuffer id data size =>
    cases hst
    have hk := Chan.keeps_processDma
      { s with
        bufs := s.bufs ++ [⟨id,data,data,size,0,size,[]⟩]
        head := some s.bufs.length
        tail := s.tail.or (some s.bufs.length) }
    exact ⟨h.inv.queueBuffer id data size,(h.inv.enqueue id data size).busy_processDma,
      hk.running h.running⟩
  | irq =>
    cases hst
    exact ⟨h.inv.irqHandler,h.inv.busy_irqHandler h.busy,s.keeps_irqHandler.running h.running⟩
  | stop =>
    cases hst
    cases hs : s.stopped with
    | true =>
      rw [Chan.stop,if_pos hs]
      exact h
    | false =>
      obtain ⟨hstop,-,-,hrun⟩ := stop_spec hs
      exact ⟨h.inv.stop h.busy (ha hs) hs,fun hn => absurd (hn.symm.trans hstop) Bool.false_ne_true,
        hrun⟩
  | resume =>
    cases hst
    unfold Chan.resume
    split_ifs with hs
    · have hi : ({ s with stopped := false } : Chan).Inv [] :=
        ⟨⟨h.inv.marks,h.inv.tailLt,h.inv.curr,h.inv.idle⟩,h.inv.legal,h.inv.calls,h.inv.flights,
          h.inv.bytes,fun hn => absurd hn Bool.false_ne_true⟩
      exact ⟨hi.processDma,hi.busy_processDma,(Chan.keeps_processDma _).running h.running⟩
    · exact h
  | move =>
    obtain ⟨hc,rfl⟩ := step_move hst
    obtain ⟨hlegal,hloaded,hpending⟩ := move_spec h.inv.legal hc.2.1 hc.2.2
    refine h.transferred hlegal hloaded hc.1 ?_
    have hb := h.inv.bytes
    rw [hpending] at hb
    simpa using hb
  | complete =>
    obtain ⟨hc,rfl⟩ := step_complete hst
    obtain ⟨hlegal,hloaded,hpending⟩ := complete_spec h.inv.legal hc.2.1 hc.2.2
    exact h.transferred hlegal hloaded hc.1 (hpending.symm ▸ h.inv.bytes)

def span (l : List Chunk) : ℕ := (l.map Prod.snd).sum

theorem span_append (l m : List Chunk) : span (l ++ m) = span l + span m := by
  simp [span]

theorem Covers.span {a b : ℕ} {l : List Chunk} (h : Covers a l b) : a + Dma.span l = b := by
  induction l generalizing a with
  | nil => exact h
  | cons c l ih =>
    have hl := ih h.2
    simp only [Dma.span,map_cons,sum_cons] at hl ⊢
    omega

theorem Buf.Sound.span_le {b : Buf} (h : b.Sound) :
    span b.flight + b.todo.length ≤ b.all.length := by
  obtain ⟨a,ha,hc⟩ := h.flight
  have hsp := hc.span
  have hsum := h.sum
  rw [Buf.todo,Buf.all,length_range',length_range']
  omega

theorem span_flatMap_le {l : List Buf} (h : ∀ b ∈ l, b.Sound) :
    span (l.flatMap Buf.flight) + (l.flatMap Buf.todo).length ≤ (l.flatMap Buf.all).length := by
  induction l with
  | nil => exact le_rfl
  | cons b l ih =>
    have hb := (h b mem_cons_self).span_le
    have hl := ih fun c hc => h c (mem_cons_of_mem b hc)
    simp only [flatMap_cons,span_append,length_append]
    omega

theorem Toggle.bytes_le {t : Toggle} (h : t.left ≤ t.chunk.2) : t.bytes.length ≤ span t.started := by
  unfold Toggle.bytes Toggle.started
  split_ifs
  · simpa [span] using h
  · exact le_rfl

theorem Regs.Legal.pending_le {r : Regs} (h : r.Legal) : r.pending.length ≤ span r.loaded := by
  have hc : r.cur.bytes.length ≤ _ := Toggle.bytes_le (h.toggle r.biu).left
  have ho : r.oth.bytes.length ≤ _ := Toggle.bytes_le (h.toggle (!r.biu)).left
  rw [Regs.pending,Regs.loaded,span_append,span_append,length_append]
  omega

theorem Chan.Inv.called_moved (h : s.Inv []) :
    (s.bufs.take s.called.length).flatMap Buf.all <+: s.moved := by
  have hsplit : ∀ f : Buf → List ℕ, s.bufs.flatMap f =
      (s.bufs.take s.called.length).flatMap f ++ (s.bufs.drop s.called.length).flatMap f := by
    intro f
    rw [← flatMap_append,take_append_drop]
  have hfront : ∀ b ∈ s.bufs.take s.called.length, b.flight = [] ∧ b.todo = [] := by
    intro b hb
    obtain ⟨i,hi⟩ := mem_iff_getElem?.mp hb
    rw [getElem?_take] at hi
    split_ifs at hi with hlt
    refine ⟨h.marks.old i b hi hlt,?_⟩
    rw [Buf.todo,h.marks.before i b hi (lt_of_lt_of_le hlt h.marks.le)]
    rfl
  have hfl : s.bufs.flatMap Buf.flight = (s.bufs.drop s.called.length).flatMap Buf.flight := by
    conv_lhs => rw [← take_append_drop s.called.length s.bufs,flatMap_append]
    rw [flatMap_eq_nil_iff.mpr fun b hb => (hfront b hb).1,nil_append]
  have htodo : s.bufs.flatMap Buf.todo = (s.bufs.drop s.called.length).flatMap Buf.todo := by
    rw [hsplit,flatMap_eq_nil_iff.mpr fun b hb => (hfront b hb).2,nil_append]
  have hrest := span_flatMap_le fun b (hb : b ∈ s.bufs.drop s.called.length) =>
    h.marks.sound b (mem_of_mem_drop hb)
  have hpend := h.legal.pending_le
  have hflights := h.flights
  rw [nil_append] at hflights
  have hbytes := h.bytes
  rw [← hfl,hflights,← htodo] at hrest
  have hfrontAll : (s.bufs.take s.called.length).flatMap Buf.all <+: s.bufs.flatMap Buf.all := by
    grind
  have hmovedAll : s.moved <+: s.bufs.flatMap Buf.all := by
    grind
  have hlen := congrArg length hbytes
  rw [hsplit Buf.all] at hlen
  simp only [length_append] at hlen
  exact prefix_of_prefix_length_le hfrontAll hmovedAll (by omega)

theorem Chan.Good.rest (h : s.Good) (hs : s.stopped = false) (hl : s.regs.loaded = []) :
    s.moved = s.bufs.flatMap Buf.all ∧ s.called = s.bufs.map Buf.call := by
  have htail : s.tail = none := by
    by_contra hn
    exact h.busy hs hn hl
  have hidx : s.tailIdx = s.bufs.length := by rw [Chan.tailIdx,htail]; rfl
  have hm := h.inv.marks
  rw [hidx] at hm
  have hflights := h.inv.flights
  rw [hl] at hflights
  have hall : s.bufs.length ≤ s.called.length := by
    by_contra hn
    have hget := getElem?_eq_getElem (not_le.mp hn)
    exact hm.fresh _ _ hget le_rfl (not_le.mp hn)
      (flatMap_eq_nil_iff.mp hflights _ (mem_of_getElem? hget))
  constructor
  · have htodo : s.bufs.flatMap Buf.todo = [] := by
      refine flatMap_eq_nil_iff.mpr fun b hb => ?_
      obtain ⟨i,hi⟩ := mem_iff_getElem?.mp hb
      exact Buf.todo_eq_nil (hm.before i b hi (List.getElem?_eq_some_iff.mp hi).1)
    have hbytes := h.inv.bytes
    rw [htodo,pending_of_loaded hl] at hbytes
    simpa using hbytes
  · have hcalls := h.inv.calls
    rw [take_of_length_le hall] at hcalls
    exact hcalls

def Chan.weight (s : Chan) : ℕ :=
  4 * (s.bufs.length - s.tailIdx + (s.bufs.flatMap Buf.todo).length) +
    (s.regs.pending.length + s.regs.count + s.regs.loaded.length)

theorem Chan.Inv.weight_processOnce (h : s.Inv owed) (hp : s.processOnce = some t) :
    t.weight ≤ s.weight := by
  obtain ⟨i,buf,htail,hbuf,-,hbusy,hdone,rfl⟩ := processOnce_eq_some hp
  obtain ⟨pre,post,hl,-,hmod⟩ := split_at hbuf
  obtain ⟨-,hloaded,hpending⟩ := load_spec h.legal buf.dmaPtr buf.chunksize hbusy hdone
  have hi : i < s.bufs.length := h.tailLt i htail
  have hidx : s.tailIdx = i := by rw [Chan.tailIdx,htail]; rfl
  have htodo := congrArg length (todo_started buf)
  unfold Chan.weight
  rw [hidx]
  unfold Chan.tailIdx
  rw [started_getD s hi,length_modify,hmod,count_load _ _ hbusy,hloaded,hpending]
  rw [length_append,length_range'] at htodo
  simp only [hl,flatMap_append,flatMap_cons,length_append,length_cons,
    length_nil,length_range'] at hi ⊢
  by_cases hz : buf.size - buf.chunksize = 0
  · rw [if_pos hz]
    omega
  · have hpos := chunksize_pos hz
    rw [if_neg hz]
    omega

theorem Chan.Inv.weight_processLoop (h : s.Inv owed) (n : ℕ) :
    (s.processLoop n).weight ≤ s.weight := by
  induction n generalizing s with
  | zero => exact le_rfl
  | succ n ih =>
    unfold Chan.processLoop
    cases hp : s.processOnce with
    | none => exact le_rfl
    | some t => exact le_trans (ih (h.processOnce hp)) (h.weight_processOnce hp)

theorem weight_account (s : Chan) : s.account.weight = s.weight := by
  have htodo : ∀ i, (s.bufs.modify i Buf.accounted).flatMap Buf.todo = s.bufs.flatMap Buf.todo :=
    flatMap_modify (f := Buf.accounted) (g := Buf.todo) (fun _ => rfl) _
  unfold Chan.account
  split
  · rfl
  · split
    · rfl
    · split_ifs <;> simp only [Chan.weight,Chan.tailIdx,htodo,length_modify]

theorem Chan.Inv.weight_dmaDone {x : Chunk} (h : s.Inv (x :: owed)) : s.dmaDone.weight ≤ s.weight :=
  le_trans (h.account.weight_processLoop 3) (weight_account s).le

theorem Chan.Inv.weight_irqHandler (h : s.Inv []) (hd : s.regs.doneChunks ≠ []) :
    s.irqHandler.weight < s.weight := by
  have hclear : ({ s with regs := s.regs.clearDone } : Chan).weight < s.weight := by
    obtain ⟨-,hloaded,hpending⟩ := clearDone_spec h.legal
    have hlen := congrArg length hloaded
    have hpos := length_pos_iff.mpr hd
    have hcount : s.regs.clearDone.count = s.regs.count := rfl
    rw [length_append] at hlen
    unfold Chan.weight Chan.tailIdx
    grind
  have hc := h.clearDone
  unfold Chan.irqHandler
  obtain ⟨ha,hb,hd'⟩ | ⟨⟨ha,hb⟩ | ⟨ha,hb⟩,x,hd'⟩ | ⟨ha,hb,x,y,hd'⟩ := doneChunks_cases h.legal <;>
    rw [hd'] at hc <;> simp only [ha,hb,if_true,Bool.false_eq_true,if_false]
  · exact absurd hd' hd
  · exact lt_of_le_of_lt hc.weight_dmaDone hclear
  · exact lt_of_le_of_lt hc.weight_dmaDone hclear
  · exact lt_of_le_of_lt (le_trans hc.dmaDone.weight_dmaDone hc.weight_dmaDone) hclear

/-- The steps that are not calls of the driver's users. -/
def Op.Hardware : Op → Prop
  | .irq | .move | .complete => True
  | _ => False

theorem allowed_of_hardware (h : o.Hardware) : Allowed s o := by
  cases o <;> trivial

theorem Chan.Good.progress (h : s.Good) (hl : s.regs.loaded ≠ []) :
    ∃ o t, o.Hardware ∧ step s o = some t ∧ t.weight < s.weight := by
  cases hc : s.regs.cur.strt with
  | true =>
    have hrun := h.running hc
    by_cases hz : s.regs.cur.left = 0
    · obtain ⟨-,hloaded,hpending⟩ := complete_spec h.inv.legal hc hz
      refine ⟨.complete,_,trivial,if_pos ⟨hrun,hc,hz⟩,?_⟩
      have hcount : s.regs.complete.count + 1 = s.regs.count := by
        unfold Regs.count Toggle.started
        rw [complete_cur,complete_oth,hc]
        show _ + 0 + 1 = 1 + _
        omega
      unfold Chan.weight Chan.tailIdx
      grind
    · obtain ⟨-,hloaded,hpending⟩ := move_spec h.inv.legal hc hz
      refine ⟨.move,_,trivial,if_pos ⟨hrun,hc,hz⟩,?_⟩
      have hcount : s.regs.move.count = s.regs.count := by
        unfold Regs.count
        rw [move_cur,move_oth]
        rfl
      unfold Chan.weight Chan.tailIdx
      grind
  | false =>
    refine ⟨.irq,_,trivial,rfl,h.inv.weight_irqHandler fun hd => hl ?_⟩
    have ho : s.regs.oth.strt = false := by
      by_contra hn
      rw [Bool.not_eq_false] at hn
      exact absurd (hc.symm.trans (h.inv.legal.order hn)) Bool.false_ne_true
    simp [Regs.loaded,hd,Toggle.started,hc,ho]

theorem stopped_of_hardware (h : o.Hardware) (hst : step s o = some t) : t.stopped = s.stopped := by
  cases o with
  | irq =>
    cases hst
    exact s.keeps_irqHandler.stopped
  | move =>
    obtain ⟨-,rfl⟩ := step_move hst
    rfl
  | complete =>
    obtain ⟨-,rfl⟩ := step_complete hst
    rfl
  | queueBuffer | stop | resume => exact h.elim

theorem Chan.Good.drains (h : s.Good) :
    ∃ hw t, (∀ o ∈ hw, o.Hardware) ∧ run step s hw = some t ∧ t.Good ∧
      t.stopped = s.stopped ∧ t.regs.loaded = [] := by
  induction hn : s.weight using Nat.strong_induction_on generalizing s with
  | _ n ih =>
    by_cases hl : s.regs.loaded = []
    · exact ⟨[],s,fun o ho => absurd ho not_mem_nil,rfl,h,rfl,hl⟩
    · obtain ⟨o,t,ho,hst,hlt⟩ := h.progress hl
      obtain ⟨hw,u,hhw,hrun,hu,hstop,hrest⟩ :=
        ih t.weight (hn ▸ hlt) (h.stepped (allowed_of_hardware ho) hst) rfl
      refine ⟨o :: hw,u,?_,(run_cons_eq_some step).mpr ⟨t,hst,hrun⟩,hu,
        hstop.trans (stopped_of_hardware ho hst),hrest⟩
      grind

/-- The buffer that a step queues: its `id`, its address and its size. -/
def Op.queued : Op → Option (ℕ × ℕ × ℕ)
  | .queueBuffer id data size => some (id,data,size)
  | _ => none

theorem origin_step (h : step s o = some t) :
    t.bufs.map Buf.origin = s.bufs.map Buf.origin ++ o.queued.toList := by
  cases o with
  | queueBuffer id data size =>
    cases h
    refine (Chan.keeps_processDma _).origin.trans ?_
    simp [Buf.origin,Op.queued]
  | irq =>
    cases h
    exact s.keeps_irqHandler.origin.trans (append_nil _).symm
  | stop =>
    cases h
    cases hs : s.stopped with
    | true =>
      rw [Chan.stop,if_pos hs]
      exact (append_nil _).symm
    | false => exact (stop_spec hs).2.2.1.trans (append_nil _).symm
  | resume =>
    cases h
    unfold Chan.resume
    split_ifs
    · exact (Chan.keeps_processDma _).origin.trans (append_nil _).symm
    · exact (append_nil _).symm
  | move =>
    obtain ⟨-,rfl⟩ := step_move h
    exact (append_nil _).symm
  | complete =>
    obtain ⟨-,rfl⟩ := step_complete h
    exact (append_nil _).symm

theorem origin_run (h : run step s ops = some t) :
    t.bufs.map Buf.origin = s.bufs.map Buf.origin ++ ops.filterMap Op.queued := by
  induction ops generalizing s with
  | nil =>
    cases h
    exact (append_nil _).symm
  | cons o ops ih =>
    obtain ⟨u,hu,h⟩ := (run_cons_eq_some step).mp h
    rw [ih h,origin_step hu,append_assoc]
    cases ho : o.queued <;> simp [ho]

def queuedBytes (ops : List Op) : List ℕ :=
  (ops.filterMap Op.queued).flatMap fun q => range' q.2.1 q.2.2

def queuedCalls (ops : List Op) : List (ℕ × ℕ) :=
  (ops.filterMap Op.queued).map fun q => (q.1,q.2.2)

section
variable (h : run step Chan.init ops = some s)
include h

theorem bytes_run (n : ℕ) :
    (s.bufs.take n).flatMap Buf.all =
      ((ops.filterMap Op.queued).take n).flatMap fun q => range' q.2.1 q.2.2 := by
  have ho := origin_run h
  rw [show Chan.init.bufs.map Buf.origin = [] from rfl,nil_append] at ho
  rw [← ho,← map_take,flatMap_map]
  rfl

theorem bytes_run_all :
    s.bufs.flatMap Buf.all = queuedBytes ops := by
  have hlen : s.bufs.length = (ops.filterMap Op.queued).length := by
    simpa [Chan.init] using congrArg length (origin_run h)
  have hb := bytes_run h s.bufs.length
  rw [take_length,hlen,take_length] at hb
  exact hb

theorem calls_run :
    s.bufs.map Buf.call = queuedCalls ops := by
  have ho := origin_run h
  rw [show Chan.init.bufs.map Buf.origin = [] from rfl,nil_append] at ho
  rw [queuedCalls,← ho,map_map]
  rfl

end

theorem queued_of_hardware {hw : List Op} (h : ∀ o ∈ hw, o.Hardware) :
    hw.filterMap Op.queued = [] := by
  refine filterMap_eq_nil_iff.mpr fun o ho => ?_
  have hh := h o ho
  cases o <;> first | rfl | exact hh.elim

/-- All that a run has queued is transferred and called for, once and in order. -/
def Chan.Sent (s : Chan) (ops : List Op) : Prop :=
  s.moved = queuedBytes ops ∧ s.called = queuedCalls ops

theorem Chan.Good.sent (h : s.Good) (hr : run step Chan.init ops = some s)
    (hs : s.stopped = false) (hl : s.regs.loaded = []) : s.Sent ops := by
  obtain ⟨hmoved,hcalled⟩ := h.rest hs hl
  exact ⟨hmoved.trans (bytes_run_all hr),hcalled.trans (calls_run hr)⟩

/-- In every run whose stops find no later buffer in the controller, the bytes are transferred
once and in queue order and a callback follows its last byte; nothing is left out when the
channel rests, and from every state in which it is not stopped the controller and its interrupts
bring it there. -/
theorem transfer_exact {ops : List Op} {s : Chan} (hm : Meets step Allowed Chan.init ops)
    (hr : run step Chan.init ops = some s) :
    s.moved <+: queuedBytes ops ∧ s.called <+: queuedCalls ops ∧
      (((ops.filterMap Op.queued).take s.called.length).flatMap fun q =>
        range' q.2.1 q.2.2) <+: s.moved ∧
      (s.stopped = false → s.regs.loaded = [] → s.Sent ops) ∧
      (s.stopped = false →
        ∃ hw t, (∀ o ∈ hw, o.Hardware) ∧ run step s hw = some t ∧ t.Sent ops) := by
  have hg : s.Good :=
    invariant step (fun _ _ _ h ha hst => h.stepped ha hst) (Chan.good_flushed false) hm hr
  refine ⟨?_,?_,?_,hg.sent hr,?_⟩
  · simp [← bytes_run_all hr,← hg.inv.bytes]
  · rw [← calls_run hr,hg.inv.calls]
    exact take_prefix _ _ |>.map _
  · rw [← bytes_run hr]
    exact hg.inv.called_moved
  · intro hs
    obtain ⟨hw,t,hhw,hrun,ht,hstop,hrest⟩ := hg.drains
    have hr' : run step Chan.init (ops ++ hw) = some t := by
      rw [run_append,hr]
      exact hrun
    have hsent := ht.sent hr' (hstop.trans hs) hrest
    unfold Chan.Sent queuedBytes queuedCalls at hsent
    rw [filterMap_append,queued_of_hardware hhw,append_nil] at hsent
    exact ⟨hw,t,hhw,hrun,hsent⟩

theorem transfer_exact_stopped :
    ∃ s, run step Chan.init
        [.queueBuffer 7 100 3,.move,.stop,.resume,.move,.move,.complete,.irq] = some s ∧
      s.moved = [100,101,102] ∧ s.called = [(7,3)] ∧
      s.Sent [.queueBuffer 7 100 3,.move,.stop,.resume,.move,.move,.complete,.irq] := by
  have hm : Meets step Allowed Chan.init
      [.queueBuffer 7 100 3,.move,.stop,.resume,.move,.move,.complete,.irq] := by
    refine ⟨trivial,fun _ h => ?_⟩
    cases h
    refine ⟨trivial,fun _ h => ?_⟩
    cases h
    refine ⟨fun _ i b hi hne => ?_,fun _ h => ?_⟩
    · rcases i with _ | i
      · exact absurd rfl hne
      · cases hi
    · cases h
      exact ⟨trivial,fun _ _ => ⟨trivial,fun _ _ => ⟨trivial,fun _ _ => ⟨trivial,fun _ _ =>
        ⟨trivial,fun _ _ => trivial⟩⟩⟩⟩⟩
  exact ⟨_,rfl,rfl,rfl,(transfer_exact hm rfl).2.2.2.1 rfl rfl⟩

/-- A stop that finds the second buffer in the controller: the channel comes to rest with its
byte skipped and its callback not called. -/
theorem transfer_skips :
    ∃ s, run step Chan.init
        [.queueBuffer 0 0 1,.queueBuffer 1 10 1,.stop,.resume,.move,.complete,.complete,.irq] =
        some s ∧
      s.stopped = false ∧ s.regs.loaded = [] ∧ s.moved = [0] ∧ s.called = [(0,1)] ∧
      ¬s.Sent [.queueBuffer 0 0 1,.queueBuffer 1 10 1,.stop,.resume,.move,.complete,.complete,.irq] := by
  refine ⟨_,rfl,rfl,rfl,rfl,rfl,fun h => ?_⟩
  exact absurd h.1 (by decide)

end Simpad.Dma
