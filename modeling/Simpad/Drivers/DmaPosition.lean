import Simpad.Base.Word
import Simpad.Drivers.DmaRuns

namespace Simpad.Dma
open List Word Runs

/-- The address of `sa1100_dma_get_current`. -/
def Chan.getCurrent (s : Chan) : ℕ :=
  match s.curr.bind (s.bufs[·]?) with
  | some buf => s.regs.getCurrent buf
  | none => if s.stopped then ((s.tail.bind (s.bufs[·]?)).map Buf.dmaPtr).getD 0 else 0

/-- A buffer of `n` bytes at `pos` was queued, and only the controller and its interrupts went on. -/
def Filling (pos n : ℕ) (s : Chan) : Prop :=
  ∃ biu hw, (∀ o ∈ hw, o.Hardware) ∧
    run step (Chan.flushed biu) (.queueBuffer 0 pos n :: hw) = some s

variable {s t : Chan} {pos n : ℕ}

theorem processDma_of_stopped (h : s.stopped = true) : s.processDma = s := by
  have hnone : s.processOnce = none := by
    cases hp : s.processOnce with
    | none => rfl
    | some t =>
      obtain ⟨-,-,-,-,hs,-⟩ := processOnce_eq_some hp
      grind
  show s.processLoop 3 = s
  rw [Chan.processLoop,hnone]
  rfl

theorem called_stop (s : Chan) : s.stop.called = s.called := by
  unfold Chan.stop
  split_ifs
  · rfl
  · rw [processDma_of_stopped rfl]
    unfold Chan.putBack
    split
    · rfl
    · split <;> rfl

theorem Filling.good (h : Filling pos n s) :
    s.Good ∧ s.stopped = false ∧ s.bufs.map Buf.origin = [(0,pos,n)] := by
  obtain ⟨biu,hw,hhw,hr⟩ := h
  refine ⟨?_,?_,?_⟩
  · have hm : Meets step Allowed (Chan.flushed biu) (.queueBuffer 0 pos n :: hw) :=
      ⟨trivial,fun _ _ => Meets.of_mem step fun o ho _ => allowed_of_hardware (hhw o ho)⟩
    exact invariant step (fun _ _ _ h ha hst => h.stepped ha hst) (Chan.good_flushed biu) hm hr
  · obtain ⟨u,hu,hr⟩ := (run_cons_eq_some step).mp hr
    cases hu
    have hm : Meets step (fun _ o => o.Hardware) ((Chan.flushed biu).queueBuffer 0 pos n) hw :=
      Meets.of_mem step fun o ho _ => hhw o ho
    have hkeep : ∀ s (o : Op) t, s.stopped = false → o.Hardware → step s o = some t →
        t.stopped = false := fun _ _ _ h ho hst => (stopped_of_hardware ho hst).trans h
    exact invariant step hkeep (Chan.keeps_processDma _).stopped hm hr
  · rw [origin_run hr,filterMap_cons,queued_of_hardware hhw]
    rfl

theorem Filling.alone (h : Filling pos n s) : s.Alone := by
  obtain ⟨hgood,-,horigin⟩ := h.good
  have hlen : s.bufs.length = 1 := by simpa using congrArg length horigin
  intro i b hi hne
  have hilt := (List.getElem?_eq_some_iff.mp hi).1
  cases hcurr : s.curr with
  | none =>
    have hfl := flatMap_eq_nil_iff.mp (hgood.inv.idle hcurr).1 b (mem_of_getElem? hi)
    rw [(hgood.inv.marks.sound b (mem_of_getElem? hi)).ref,hfl]
    rfl
  | some j =>
    have hj := (hgood.inv.curr j hcurr).2
    grind

/-- The bytes that a stopped channel has moved to its only buffer, and the position it tells. -/
structure Position (pos n : ℕ) (s : Chan) : Prop where
  le : s.moved.length ≤ n
  moved : s.moved = range' pos s.moved.length
  known : s.called = [] → s.getCurrent = pos + s.moved.length
  lost : s.called ≠ [] → s.moved.length = n ∧ s.getCurrent = 0

theorem Chan.Inv.position (h : s.Inv []) (hs : s.stopped = true)
    (horigin : s.bufs.map Buf.origin = [(0,pos,n)]) : Position pos n s := by
  obtain ⟨c,hbufs,hc⟩ := map_eq_singleton_iff.mp horigin
  obtain ⟨-,rfl,rfl⟩ : c.id = 0 ∧ c.dmaStart = pos ∧ c.total = n := by
    simpa only [Buf.origin,Prod.mk.injEq] using hc
  have hcurr := h.halted hs
  obtain ⟨hflight,htail⟩ := h.idle hcurr
  have hsum := (h.marks.sound c (hbufs ▸ mem_singleton_self c)).sum
  have hbytes := h.bytes
  rw [pending_of_loaded (h.flights.symm.trans hflight),hbufs,nil_append,flatMap_singleton,
    flatMap_singleton,Buf.todo,Buf.all] at hbytes
  have hlen : s.moved.length + c.size = c.total := by simpa using congrArg length hbytes
  unfold Chan.tailIdx at htail
  refine ⟨by omega,?_,fun hnil => ?_,fun hne => ?_⟩
  · rw [← hlen,← range'_append_1] at hbytes
    exact append_inj_left hbytes length_range'.symm
  · have h0 : s.tail = some 0 := by
      rw [hbufs,hnil] at htail
      cases ht : s.tail with
      | none =>
        rw [ht] at htail
        cases htail
      | some j =>
        grind
    unfold Chan.getCurrent
    rw [hcurr,hs,h0,hbufs]
    show c.dmaPtr = _
    omega
  · have hpos : 0 < s.called.length := length_pos_iff.mpr hne
    have hbefore := h.marks.before 0 c (by rw [hbufs]; rfl) (hpos.trans_eq htail.symm)
    have h0 : s.tail = none := by
      cases ht : s.tail with
      | none => rfl
      | some j =>
        have hj := h.tailLt j ht
        grind
    refine ⟨by omega,?_⟩
    unfold Chan.getCurrent
    rw [hcurr,hs,h0]
    rfl

theorem Filling.distance (h : Filling pos n s) (hpos : pos < 4294967296) (hn : n < 4294967296) :
    s.moved.length ≤ n ∧
      (s.called = [] → sub32 s.stop.getCurrent pos = s.moved.length) ∧
      (s.called ≠ [] → s.moved.length = n ∧
        sub32 s.stop.getCurrent pos = (4294967296 - pos) % 4294967296) := by
  obtain ⟨hgood,hrun,horigin⟩ := h.good
  obtain ⟨hstop,hmoved,horig,-⟩ := stop_spec hrun
  have hinv := hgood.inv.stop hgood.busy h.alone hrun
  have hp := hinv.position hstop (horig.trans horigin)
  have hle := hp.le
  rw [hmoved] at hle
  refine ⟨hle,fun hc => ?_,fun hc => ?_⟩
  · rw [hp.known ((called_stop s).trans hc),hmoved,sub32,u32_of_lt hpos,u32]
    omega
  · obtain ⟨hfull,hzero⟩ := hp.lost ((called_stop s).trans_ne hc)
    rw [hmoved] at hfull
    rw [hzero,sub32,u32_of_lt hpos,u32,zero_add]
    exact ⟨hfull,rfl⟩

theorem exists_full (pos n : ℕ) : ∃ s, Filling pos n s ∧ s.called ≠ [] := by
  have hstart : Filling pos n ((Chan.flushed false).queueBuffer 0 pos n) :=
    ⟨false,[],fun o ho => absurd ho not_mem_nil,rfl⟩
  obtain ⟨hw,s,hhw,hrun,hgood,hstop,hload⟩ := hstart.good.1.drains
  have hs : Filling pos n s := ⟨false,hw,hhw,(run_cons_eq_some step).mpr ⟨_,rfl,hrun⟩⟩
  refine ⟨s,hs,fun hnil => ?_⟩
  have hbufs := (hgood.rest (hstop.trans hstart.good.2.1) hload).2
  rw [hnil,eq_comm,map_eq_nil_iff] at hbufs
  have horigin := hs.good.2.2
  rw [hbufs] at horigin
  cases horigin

end Simpad.Dma
