import Simpad.Drivers.DmaQueue

namespace Simpad.Dma
open ListAt List

variable {i c : ℕ} {buf : Buf} {s t : Chan} {owed : List Chunk}

theorem next_getD (s : Chan) (h : i < s.bufs.length) : (s.next i).getD s.bufs.length = i + 1 := by
  unfold Chan.next
  grind

theorem started_getD (s : Chan) {p : Prop} [Decidable p] (h : i < s.bufs.length) :
    (if p then s.next i else some i).getD (s.bufs.modify i Buf.started).length =
      if p then i + 1 else i := by
  rw [length_modify]
  split_ifs
  · exact next_getD s h
  · rfl

/-- The place of the first buffer that is not started to its end. -/
def Chan.tailIdx (s : Chan) : ℕ := s.tail.getD s.bufs.length

structure Chan.Placed (s : Chan) : Prop where
  marks : Marks s.bufs s.called.length s.tailIdx
  tailLt : ∀ j, s.tail = some j → j < s.bufs.length
  curr : ∀ i, s.curr = some i → i = s.called.length ∧ i < s.bufs.length
  idle : s.curr = none → s.bufs.flatMap Buf.flight = [] ∧ s.tailIdx = s.called.length

theorem Chan.Placed.regs {c : Chan} (h : c.Placed) (regs : Regs) :
    ({ c with regs := regs } : Chan).Placed := ⟨h.marks,h.tailLt,h.curr,h.idle⟩

theorem processOnce_eq_some (h : s.processOnce = some t) :
    ∃ i buf, s.tail = some i ∧ s.bufs[i]? = some buf ∧ s.stopped = false ∧
      (s.regs.cur.strt && s.regs.oth.strt) = false ∧ (s.regs.toggle s.regs.side).done = false ∧
      t = ⟨s.bufs.modify i Buf.started,s.head,
        if buf.size - buf.chunksize = 0 then s.next i else some i,s.curr.or (some i),s.stopped,
        s.regs.load s.regs.side buf.dmaPtr buf.chunksize,s.moved,s.called⟩ := by
  obtain ⟨i,hi,h⟩ := Option.bind_eq_some_iff.mp h
  obtain ⟨buf,hbuf,h⟩ := Option.bind_eq_some_iff.mp h
  cases hs : s.stopped with
  | true =>
    rw [hs,if_pos rfl] at h
    cases h
  | false =>
    rw [hs,if_neg Bool.false_ne_true] at h
    obtain ⟨u,hu,rfl⟩ := Option.map_eq_some_iff.mp h
    rw [startDma_eq] at hu
    grind

theorem Chan.Placed.processOnce (h : s.Placed) (hp : s.processOnce = some t) : t.Placed := by
  obtain ⟨i,buf,htail,hbuf,-,-,-,rfl⟩ := processOnce_eq_some hp
  have hi : i < s.bufs.length := h.tailLt i htail
  have hidx : s.tailIdx = i := by rw [Chan.tailIdx,htail]; rfl
  have hm := h.marks
  rw [hidx] at hm
  constructor
  · have hstart := hm.start hbuf
    rw [← started_getD s hi] at hstart
    exact hstart
  · intro j hj
    rw [length_modify]
    split_ifs at hj
    · unfold Chan.next at hj
      grind
    · cases hj
      exact hi
  · intro j hj
    rw [length_modify]
    cases hc : s.curr with
    | none =>
      rw [hc] at hj
      cases hj
      exact ⟨hidx.symm.trans (h.idle hc).2,hi⟩
    | some c =>
      rw [hc] at hj
      cases hj
      exact h.curr _ hc
  · intro hn
    simp at hn

theorem Chan.tail_accounted (s : Chan) :
    s.tail.getD (s.bufs.modify s.called.length Buf.accounted).length = s.tailIdx := by
  rw [length_modify]
  rfl

/-- The channel after the last chunk of its first buffer. -/
abbrev Chan.finish (s : Chan) (buf : Buf) : Chan :=
  { s with
    bufs := s.bufs.modify s.called.length Buf.accounted
    curr := s.next s.called.length
    head := if s.head = some s.called.length then none else s.head
    called := s.called ++ [(buf.id,buf.dmaPtr - buf.dmaStart)] }

section
variable {s : Chan} {x : Chunk} {l : List Chunk} (h : s.Placed)
  (hf : s.bufs.flatMap Buf.flight = x :: l)
include h hf

theorem Chan.Placed.front :
    ∃ pre buf post m, s.curr = some s.called.length ∧ s.bufs = pre ++ buf :: post ∧
      pre.length = s.called.length ∧ s.bufs[s.called.length]? = some buf ∧
      pre.flatMap Buf.flight = [] ∧ buf.flight = x :: m ∧ m ++ post.flatMap Buf.flight = l ∧
      (∀ f, s.bufs.modify s.called.length f = pre ++ f buf :: post) ∧
      (buf.ref - 1 = 0 ↔ m = []) := by
  obtain ⟨i,hi⟩ : ∃ i, s.curr = some i := by
    cases hc : s.curr with
    | none =>
      rw [(h.idle hc).1] at hf
      cases hf
    | some i => exact ⟨i,rfl⟩
  obtain ⟨rfl,hlt⟩ := h.curr i hi
  obtain ⟨pre,buf,post,m,hl,hpre,hbuf,hold,hm,hrest,hmod⟩ := h.marks.lead hlt hf
  have hsound := h.marks.sound buf (mem_of_getElem? hbuf)
  have href : buf.ref - 1 = 0 ↔ m = [] := by
    rw [hsound.ref,hm]
    simp
  exact ⟨pre,buf,post,m,hi,hl,hpre,hbuf,hold,hm,hrest,hmod,href⟩

theorem Chan.Placed.account_flights : s.account.bufs.flatMap Buf.flight = l := by
  obtain ⟨pre,buf,post,m,hi,-,-,hbuf,hold,hm,hrest,hmod,-⟩ := h.front hf
  have hbufs : s.account.bufs = s.bufs.modify s.called.length Buf.accounted := by
    rw [Chan.account,hi]
    grind
  rw [hbufs,hmod,← hrest,flatMap_append,flatMap_cons,hold,nil_append]
  show buf.flight.tail ++ _ = _
  rw [hm]
  rfl

theorem Chan.Placed.goesOn (hbuf : s.bufs[s.called.length]? = some buf)
    (hn : ¬(buf.ref - 1 = 0 ∧ buf.size = 0)) :
    s.account = { s with bufs := s.bufs.modify s.called.length Buf.accounted } ∧
      s.account.Placed := by
  obtain ⟨pre,buf',post,m,hi,-,-,hbuf',-,hm,-,-,href⟩ := h.front hf
  obtain rfl : buf = buf' := Option.some.inj (hbuf.symm.trans hbuf')
  have hacc : s.account = { s with bufs := s.bufs.modify s.called.length Buf.accounted } := by
    rw [Chan.account,hi]
    grind
  refine ⟨hacc,?_⟩
  rw [hacc]
  have hmarks := h.marks.account hbuf hm (fun hl => hn ⟨href.mpr hl.1,hl.2⟩)
  refine ⟨?_,?_,?_,?_⟩
  · rw [← s.tail_accounted] at hmarks
    exact hmarks
  · intro j hj
    rw [length_modify]
    exact h.tailLt j hj
  · grind
  · grind

theorem Chan.Placed.finishes (hbuf : s.bufs[s.called.length]? = some buf)
    (hc : buf.ref - 1 = 0 ∧ buf.size = 0) : s.account = s.finish buf ∧ s.account.Placed := by
  obtain ⟨pre,buf',post,m,hi,-,-,hbuf',-,hm,-,-,href⟩ := h.front hf
  obtain rfl : buf = buf' := Option.some.inj (hbuf.symm.trans hbuf')
  have hacc : s.account = s.finish buf := by
    rw [Chan.account,hi]
    grind
  refine ⟨hacc,?_⟩
  rw [hacc]
  have hmarks := h.marks.finish hbuf hm (href.mp hc.1) hc.2
  have hcall : s.called.length + 1 =
      (s.called ++ [(buf.id,buf.dmaPtr - buf.dmaStart)]).length := by simp
  refine ⟨?_,?_,?_,?_⟩
  · rw [← s.tail_accounted,hcall] at hmarks
    exact hmarks
  · intro j hj
    rw [length_modify]
    exact h.tailLt j hj
  · intro j hj
    dsimp only at hj ⊢
    rw [length_modify,← hcall]
    unfold Chan.next at hj
    grind
  · intro hn
    dsimp only at hn
    unfold Chan.next at hn
    split_ifs at hn with hn'
    have hlt := (List.getElem?_eq_some_iff.mp hbuf).1
    have hlen : s.called.length + 1 = (s.bufs.modify s.called.length Buf.accounted).length := by
      rw [length_modify]
      omega
    have hk : s.tailIdx = s.called.length + 1 :=
      le_antisymm (hlen ▸ hmarks.bound) hmarks.le
    refine ⟨?_,?_⟩
    · rw [hlen] at hmarks
      exact hmarks.flatMap_flight_done
    · rw [← hcall,← hk]
      exact s.tail_accounted

end

/-- The channel with the new buffer, before `process_dma`. -/
def Chan.enqueue (s : Chan) (id data size : ℕ) : Chan :=
  { s with
    bufs := s.bufs ++ [⟨id,data,data,size,0,size,[]⟩]
    head := some s.bufs.length
    tail := s.tail.or (some s.bufs.length) }

theorem flatMap_flight_queued (bufs : List Buf) (id data size : ℕ) :
    (bufs ++ [(⟨id,data,data,size,0,size,[]⟩ : Buf)]).flatMap Buf.flight =
      bufs.flatMap Buf.flight := by simp

theorem Chan.Placed.enqueue (h : s.Placed) (id data size : ℕ) :
    (s.enqueue id data size).Placed := by
  have hidx : (s.enqueue id data size).tailIdx = s.tailIdx := by
    unfold Chan.tailIdx Chan.enqueue
    cases s.tail <;> rfl
  refine ⟨?_,?_,?_,?_⟩
  · rw [hidx]
    exact h.marks.queue id data size
  · intro j hj
    show j < (s.bufs ++ [_]).length
    rw [length_append,length_singleton]
    change s.tail.or (some s.bufs.length) = some j at hj
    cases ht : s.tail with
    | none =>
      rw [ht] at hj
      cases hj
      omega
    | some i =>
      rw [ht] at hj
      cases hj
      exact Nat.lt_succ_of_lt (h.tailLt _ ht)
  · intro j hj
    show _ ∧ j < (s.bufs ++ [_]).length
    rw [length_append]
    exact ⟨(h.curr j hj).1,Nat.lt_add_right _ (h.curr j hj).2⟩
  · intro hn
    rw [hidx]
    exact ⟨(flatMap_flight_queued s.bufs id data size).trans (h.idle hn).1,(h.idle hn).2⟩

/-- The state of the channel while the chunks `owed` are done and have left the controller, and
`sa1100_dma_done` has still to be called for them. -/
structure Chan.Inv (s : Chan) (owed : List Chunk) : Prop extends s.Placed where
  legal : s.regs.Legal
  calls : s.called = (s.bufs.take s.called.length).map Buf.call
  flights : s.bufs.flatMap Buf.flight = owed ++ s.regs.loaded
  bytes : s.moved ++ (s.regs.pending ++ s.bufs.flatMap Buf.todo) = s.bufs.flatMap Buf.all
  halted : s.stopped = true → s.curr = none

theorem Chan.Inv.processOnce (h : s.Inv owed) (hp : s.processOnce = some t) : t.Inv owed := by
  have hplaced := h.toPlaced.processOnce hp
  obtain ⟨i,buf,htail,hbuf,hstop,hbusy,hdone,rfl⟩ := processOnce_eq_some hp
  obtain ⟨pre,post,hl,hpre,hmod⟩ := split_at hbuf
  obtain ⟨hlegal,hloaded,hpending⟩ := load_spec h.legal buf.dmaPtr buf.chunksize hbusy hdone
  have hm' := h.marks
  rw [Chan.tailIdx,htail,Option.getD_some,hl,← hpre] at hm'
  refine ⟨hplaced,hlegal,?_,?_,?_,?_⟩
  · rw [take_modify,map_modify (f := Buf.started) (g := Buf.call) fun _ => rfl]
    exact h.calls
  · have hf := h.flights
    rw [hl] at hf
    rw [hmod,hloaded,← append_assoc,← hf]
    simp only [flatMap_append,flatMap_cons,hm'.flatMap_flight,append_nil]
    exact (append_assoc _ _ _).symm
  · have hb := h.bytes
    have hall : buf.started.all = buf.all := rfl
    rw [hl] at hb
    rw [hmod,hpending]
    simp only [flatMap_append,flatMap_cons,hm'.flatMap_todo,nil_append,
      hall] at hb ⊢
    rw [← todo_started buf] at hb
    simpa only [append_assoc] using hb
  · grind

theorem Chan.Inv.processLoop (h : s.Inv owed) (n : ℕ) : (s.processLoop n).Inv owed := by
  induction n generalizing s with
  | zero => exact h
  | succ n ih =>
    unfold Chan.processLoop
    cases hp : s.processOnce with
    | none => exact h
    | some t => exact ih (h.processOnce hp)

theorem Chan.Inv.processDma (h : s.Inv owed) : s.processDma.Inv owed := h.processLoop 3

theorem processLoop_done {n : ℕ} (h : 2 < s.regs.count + n) :
    (s.processLoop n).processOnce = none := by
  induction n generalizing s with
  | zero => exact absurd h (by have := count_le s.regs; omega)
  | succ n ih =>
    unfold Chan.processLoop
    cases hp : s.processOnce with
    | none => exact hp
    | some t =>
      refine ih ?_
      obtain ⟨i,buf,-,-,-,hbusy,-,rfl⟩ := processOnce_eq_some hp
      have hc := count_load buf.dmaPtr buf.chunksize hbusy
      dsimp only
      omega

theorem processDma_done (s : Chan) : s.processDma.processOnce = none :=
  processLoop_done (by omega)

theorem Chan.Inv.account {x : Chunk} (h : s.Inv (x :: owed)) : s.account.Inv owed := by
  have hflight := h.flights
  obtain ⟨pre,buf,post,m,hi,hl,hpre,hbuf,hold,hm,hrest,hmod,href⟩ := h.front hflight
  have hfl := h.account_flights hflight
  have hsound := h.marks.sound buf (mem_of_getElem? hbuf)
  have hstop : s.stopped ≠ true := by
    intro hs
    rw [h.halted hs] at hi
    cases hi
  have hbytes : s.moved ++ (s.regs.pending ++
      (s.bufs.modify s.called.length Buf.accounted).flatMap Buf.todo) =
      (s.bufs.modify s.called.length Buf.accounted).flatMap Buf.all := by
    rw [flatMap_modify (f := Buf.accounted) (g := Buf.todo) fun _ => rfl,
      flatMap_modify (f := Buf.accounted) (g := Buf.all) fun _ => rfl]
    exact h.bytes
  by_cases hc : buf.ref - 1 = 0 ∧ buf.size = 0
  · obtain ⟨hacc,hplaced⟩ := h.finishes hflight hbuf hc
    rw [hacc] at hfl hplaced ⊢
    refine ⟨hplaced,h.legal,?_,hfl,hbytes,fun hs => absurd hs hstop⟩
    have hsize : buf.dmaPtr - buf.dmaStart = buf.total := by
      have hsum := hsound.sum
      omega
    rw [length_append,length_singleton,take_modify,
      map_modify (f := Buf.accounted) (g := Buf.call) fun _ => rfl,take_add_one,hbuf,
      map_append,← h.calls,Chan.finish,hsize]
    rfl
  · obtain ⟨hacc,hplaced⟩ := h.goesOn hflight hbuf hc
    rw [hacc] at hfl hplaced ⊢
    refine ⟨hplaced,h.legal,?_,hfl,hbytes,fun hs => absurd hs hstop⟩
    rw [take_modify,map_modify (f := Buf.accounted) (g := Buf.call) fun _ => rfl]
    exact h.calls

theorem Chan.Inv.dmaDone {x : Chunk} (h : s.Inv (x :: owed)) :
    s.dmaDone.Inv owed := h.account.processDma

theorem Chan.Inv.clearDone (h : s.Inv []) :
    ({ s with regs := s.regs.clearDone } : Chan).Inv s.regs.doneChunks := by
  obtain ⟨hlegal,hloaded,hpending⟩ := clearDone_spec h.legal
  refine ⟨h.regs _,hlegal,h.calls,?_,?_,h.halted⟩
  · exact h.flights.trans (by rw [nil_append,hloaded])
  · exact h.bytes

theorem Chan.Inv.irqHandler (h : s.Inv []) : s.irqHandler.Inv [] := by
  have hc := h.clearDone
  unfold Chan.irqHandler
  obtain ⟨ha,hb,hd⟩ | ⟨⟨ha,hb⟩ | ⟨ha,hb⟩,x,hd⟩ | ⟨ha,hb,x,y,hd⟩ := doneChunks_cases h.legal <;>
    rw [hd] at hc <;> simp only [ha,hb,if_true,Bool.false_eq_true,if_false]
  · exact hc
  · exact hc.dmaDone
  · exact hc.dmaDone
  · exact hc.dmaDone.dmaDone

/-- As long as there is something to start, the controller is at work. -/
def Chan.Busy (s : Chan) : Prop := s.stopped = false → s.tail ≠ none → s.regs.loaded ≠ []

theorem Chan.Inv.busy_processDma (h : s.Inv owed) : s.processDma.Busy := by
  intro hs ht
  have hp := h.processDma
  have hd := processDma_done s
  obtain ⟨i,hi⟩ := Option.ne_none_iff_exists'.mp ht
  have hget := getElem?_eq_getElem (hp.tailLt i hi)
  unfold Chan.processOnce at hd
  simp only [hi,hget,Option.bind_some,hs,Bool.false_eq_true,if_false,Option.map_eq_none_iff] at hd
  exact loaded_of_startDma hd

theorem Chan.Inv.busy_irqHandler (h : s.Inv []) (hb : s.Busy) : s.irqHandler.Busy := by
  have hc := h.clearDone
  unfold Chan.irqHandler
  obtain ⟨ha,hb',hd⟩ | ⟨⟨ha,hb'⟩ | ⟨ha,hb'⟩,x,hd⟩ | ⟨ha,hb',x,y,hd⟩ := doneChunks_cases h.legal <;>
    rw [hd] at hc <;> simp only [ha,hb',if_true,Bool.false_eq_true,if_false]
  · intro hs ht
    have hl := hb hs ht
    rw [(clearDone_spec h.legal).2.1,hd] at hl
    exact hl
  · exact hc.account.busy_processDma
  · exact hc.account.busy_processDma
  · exact hc.dmaDone.account.busy_processDma

theorem Chan.Inv.enqueue (h : s.Inv []) (id data size : ℕ) : (s.enqueue id data size).Inv [] := by
  have hle : s.called.length ≤ s.bufs.length := le_trans h.marks.le h.marks.bound
  refine ⟨h.toPlaced.enqueue id data size,h.legal,?_,
    (flatMap_flight_queued s.bufs id data size).trans h.flights,?_,h.halted⟩
  · show s.called = ((s.bufs ++ [_]).take s.called.length).map Buf.call
    rw [take_append_of_le_length hle]
    exact h.calls
  · show s.moved ++ (s.regs.pending ++ (s.bufs ++ [_]).flatMap Buf.todo) =
      (s.bufs ++ [_]).flatMap Buf.all
    simp [flatMap_append,← h.bytes,Buf.todo,Buf.all]

theorem Chan.Inv.queueBuffer (h : s.Inv []) (id data size : ℕ) :
    (s.queueBuffer id data size).Inv [] := (h.enqueue id data size).processDma

/-- No buffer but the current one has a chunk in the controller. -/
def Chan.Alone (s : Chan) : Prop :=
  ∀ i b, s.bufs[i]? = some b → s.curr ≠ some i → b.ref = 0

theorem Buf.todo_rollback {a : ℕ} (h : a ≤ buf.dmaPtr) :
    (buf.rollback a).todo = range' a (buf.dmaPtr - a) ++ buf.todo := by
  show range' a (buf.size + (buf.dmaPtr - a)) = _
  rw [Buf.todo,add_comm buf.size,← range'_append_1,Nat.add_sub_cancel' h]

section
variable {s : Chan} (h : s.Inv []) (hb : s.Busy) (ha : s.Alone) (hs : s.stopped = false)
include h

theorem Chan.Inv.stop_idle (hcurr : s.curr = none) :
    ({ s with stopped := true, regs := { s.regs.clearAll with run := false } } : Chan).Inv [] := by
  have hfl := (h.idle hcurr).1
  have hload : s.regs.loaded = [] := h.flights.symm.trans hfl
  have hbytes := h.bytes
  rw [pending_of_loaded hload] at hbytes
  exact ⟨⟨h.marks,h.tailLt,h.curr,h.idle⟩,clearAll_legal h.legal false,h.calls,hfl,hbytes,
    fun _ => hcurr⟩

include hb hs in
theorem Chan.Inv.loaded_of_curr (hcurr : s.curr = some c) : s.regs.loaded ≠ [] := by
  obtain ⟨hc,hlt⟩ := h.curr c hcurr
  by_cases ht : s.tail = none
  · intro hl
    have hfl := h.flights.trans hl
    have hidx : s.tailIdx = s.bufs.length := by rw [Chan.tailIdx,ht]; rfl
    have hget := getElem?_eq_getElem hlt
    refine h.marks.fresh c _ hget hc.ge (hidx ▸ hlt) ?_
    exact flatMap_eq_nil_iff.mp hfl _ (mem_of_getElem? hget)
  · exact hb hs ht

include hb ha hs in
theorem Chan.Inv.stop_curr (hcurr : s.curr = some c) (hbuf : s.bufs[c]? = some buf) :
    (⟨s.bufs.modify c fun b => b.rollback (s.regs.getCurrent buf),s.head,some c,none,true,
      { s.regs.clearAll with run := false },s.moved,s.called⟩ : Chan).Inv [] := by
  obtain ⟨hc,hlt⟩ := h.curr c hcurr
  have halone : ∀ i b, s.bufs[i]? = some b → i ≠ c → b.flight = [] := by
    intro i b hi hne
    refine (h.marks.sound b (mem_of_getElem? hi)).flight_eq_nil (ha i b hi ?_)
    grind
  obtain ⟨pre,post,hl,hpre,hmod⟩ := split_at hbuf
  have hprefl : pre.flatMap Buf.flight = [] :=
    flatMap_front_eq_nil fun j b hget hj => halone j b (hl ▸ hget) (by omega)
  have hpostfl : post.flatMap Buf.flight = [] :=
    flatMap_behind_eq_nil fun j b hget hj => halone j b (hl ▸ hget) (by omega)
  have hflight : buf.flight = s.regs.loaded := by
    have hf := h.flights
    grind
  obtain ⟨a,hsa,hcov⟩ := (h.marks.sound buf (mem_of_getElem? hbuf)).flight
  rw [hflight] at hcov
  obtain ⟨h₁,h₂,hpend⟩ := address_spec h.legal (h.loaded_of_curr hb hs hcurr) hcov
  rw [getCurrent_eq (le_trans hsa h₁) h₂]
  have hm : Marks s.bufs c s.tailIdx := by
    have hm := h.marks
    rwa [← hc] at hm
  have hgone : (s.bufs.modify c fun b => b.rollback s.regs.address).flatMap Buf.flight = [] := by
    rw [hmod,flatMap_append,flatMap_cons,hprefl,hpostfl]
    rfl
  refine ⟨⟨?_,?_,nofun,fun _ => ⟨hgone,hc⟩⟩,clearAll_legal h.legal false,?_,?_,?_,fun _ => rfl⟩
  · have hm' := hm.putBack hbuf (le_trans hsa h₁) h₂ halone
    rw [hc] at hm' ⊢
    exact hm'
  · grind
  · rw [take_modify,map_modify (f := fun b => b.rollback s.regs.address) (g := Buf.call)
      fun _ => rfl]
    exact h.calls
  · rw [hgone,clearAll_loaded]
    rfl
  · have hpretodo : pre.flatMap Buf.todo = [] :=
      flatMap_front_eq_nil fun j b hget hj =>
        Buf.todo_eq_nil (hm.before j b (hl ▸ hget) (lt_of_lt_of_le (by omega) hm.le))
    -- the bytes the controller had not transferred are to be started again
    have htodo : (buf.rollback s.regs.address).todo = s.regs.pending ++ buf.todo := by
      rw [hpend,Buf.todo_rollback h₂]
    have hall := flatMap_modify (f := fun b : Buf => b.rollback s.regs.address) (g := Buf.all)
      (fun _ => rfl) s.bufs c
    have hbytes := h.bytes
    rw [hall,← hbytes,clearAll_pending,hmod,hl]
    simp [hpretodo,htodo]

include hb ha hs in
theorem Chan.Inv.stop : s.stop.Inv [] := by
  unfold Chan.stop Chan.putBack
  rw [hs,if_neg Bool.false_ne_true]
  cases hcurr : s.curr with
  | none => exact (h.stop_idle hcurr).processDma
  | some c =>
    have hget := getElem?_eq_getElem (h.curr c hcurr).2
    dsimp only
    rw [hget]
    exact (h.stop_curr hb ha hs hcurr hget).processDma

end

end Simpad.Dma
