import Simpad.Drivers.DmaTransfer

/-! The DMA channel with a spin buffer. Each load of a toggle is recorded with its owner, and each
completion with the owner of its toggle and the one it is charged to. -/

namespace Simpad.Dma
open ListAt List Runs

/-- Whose transfer occupies a toggle. -/
inductive Owner
  | buf (i : ℕ)
  | spin
  deriving DecidableEq

/-- A channel with its spin buffer; without `stop` it is never stopped. -/
structure SpinChan where
  chan : Chan
  spinAddr : ℕ
  spinSize : ℕ
  spinRef : ℤ
  /-- the owners of the toggles that are started or done, the oldest first -/
  loads : List Owner
  /-- the owners of the completions that the handler has taken and not processed -/
  due : List Owner
  /-- the completions that were processed: the owner of the toggle, and who was charged -/
  charged : List (Option Owner × Option Owner)

def SpinChan.init : SpinChan := ⟨.init,0,0,0,[],[],[]⟩

def SpinChan.spinChunk (s : SpinChan) : ℕ := if maxDmaSize < s.spinSize then dmaChunk else s.spinSize

/-- The loop that loads the spin buffer, at most `n` rounds. -/
def SpinChan.spinLoop : ℕ → SpinChan → SpinChan
  | 0, s => s
  | n + 1, s =>
    match s.chan.regs.startDma s.spinAddr s.spinChunk with
    | none => s
    | some regs =>
      SpinChan.spinLoop n
        { s with
          chan := { s.chan with regs := regs }
          spinRef := s.spinRef + 1
          loads := s.loads ++ [.spin] }

/-- `process_dma` without a buffer to start; no more than two toggles can be loaded. -/
def SpinChan.spin (s : SpinChan) : SpinChan :=
  if s.spinSize ≠ 0 ∧ 0 ≤ s.spinRef then
    let t := s.spinLoop 3
    if t.chan.curr ≠ none then { t with spinRef := -t.spinRef } else t
  else s

/-- Active spin loads give way to a buffer. -/
def SpinChan.kill (s : SpinChan) : SpinChan :=
  if 0 < s.spinRef then
    { s with chan := { s.chan with regs := s.chan.regs.clearAll }, spinRef := 0, loads := [] }
  else s

/-- The loop of `process_dma`, at most `n` rounds. -/
def SpinChan.processLoop : ℕ → SpinChan → SpinChan
  | 0, s => s
  | n + 1, s =>
    match s.chan.tail with
    | none => s.spin
    | some i =>
      if s.chan.stopped then s.spin
      else
        match s.kill.chan.processOnce with
        | none => s.kill
        | some chan =>
          SpinChan.processLoop n { s.kill with chan := chan, loads := s.kill.loads ++ [.buf i] }

/-- `process_dma`: two rounds can start a chunk, the third breaks. -/
def SpinChan.processDma (s : SpinChan) : SpinChan := s.processLoop 3

/-- Whether `sa1100_dma_done` is through with the current buffer. -/
def Chan.finishing (s : Chan) : Prop :=
  ∃ buf, s.curr.bind (s.bufs[·]?) = some buf ∧ buf.ref - 1 = 0 ∧ buf.size = 0

instance (s : Chan) : Decidable s.finishing :=
  match h : s.curr.bind (s.bufs[·]?) with
  | none => .isFalse (by rintro ⟨buf,hbuf,-⟩; rw [h] at hbuf; cases hbuf)
  | some buf =>
    decidable_of_iff (buf.ref - 1 = 0 ∧ buf.size = 0)
      ⟨fun hb => ⟨buf,h,hb⟩,by rintro ⟨buf',hbuf,hb⟩; rw [h] at hbuf; cases hbuf; exact hb⟩

/-- Whom `sa1100_dma_done` charges. -/
def SpinChan.charge (s : SpinChan) : Option Owner :=
  if 0 < s.spinRef then some .spin else s.chan.curr.map .buf

/-- The first half of `sa1100_dma_done`. -/
def SpinChan.account (s : SpinChan) : SpinChan :=
  { s with
    chan := if 0 < s.spinRef then s.chan else s.chan.account
    spinRef := if 0 < s.spinRef then s.spinRef - 1
      else if s.chan.finishing then -s.spinRef else s.spinRef
    due := s.due.tail
    charged := s.charged ++ [(s.due.head?,s.charge)] }

def SpinChan.dmaDone (s : SpinChan) : SpinChan := s.account.processDma

/-- `dma_irq_handler` has read and cleared the done bits. -/
def SpinChan.clearDone (s : SpinChan) : SpinChan :=
  { s with
    chan := { s.chan with regs := s.chan.regs.clearDone }
    due := s.loads.take s.chan.regs.doneChunks.length
    loads := s.loads.drop s.chan.regs.doneChunks.length }

def SpinChan.irqHandler (s : SpinChan) : SpinChan :=
  let t := s.clearDone
  let t := if (s.chan.regs.toggle false).done then t.dmaDone else t
  if (s.chan.regs.toggle true).done then t.dmaDone else t

def SpinChan.queueBuffer (s : SpinChan) (id data size : ℕ) : SpinChan :=
  { s with chan := s.chan.enqueue id data size }.processDma

def SpinChan.setSpin (s : SpinChan) (addr size : ℕ) : SpinChan :=
  let t := { s with spinAddr := addr, spinSize := size }
  if size ≠ 0 then t.processDma else t

inductive SpinOp
  | queueBuffer (id data size : ℕ)
  | setSpin (addr size : ℕ)
  | irq
  | move
  | complete

def SpinChan.step (s : SpinChan) : SpinOp → Option SpinChan
  | .queueBuffer id data size => some (s.queueBuffer id data size)
  | .setSpin addr size => some (s.setSpin addr size)
  | .irq => some s.irqHandler
  | .move => (Dma.step s.chan .move).map fun chan => { s with chan := chan }
  | .complete => (Dma.step s.chan .complete).map fun chan => { s with chan := chan }

/-- The toggles that were started and whose completion was not processed. -/
def Regs.unprocessed (r : Regs) : ℕ :=
  ((r.toggle false).strt || (r.toggle false).done).toNat +
    ((r.toggle true).strt || (r.toggle true).done).toNat

/-- The reference counts add up, and every completion was charged to the owner of its toggle. -/
def SpinChan.Good (s : SpinChan) : Prop :=
  (s.chan.bufs.map Buf.ref).sum + |s.spinRef| = s.chan.regs.unprocessed ∧
    ∀ p ∈ s.charged, p.1 = p.2

/-- The chunks in flight by the number of their buffer, counted from `n`. -/
def owedFrom : ℕ → List Buf → List Owner
  | _, [] => []
  | n, b :: bufs => replicate b.flight.length (.buf n) ++ owedFrom (n + 1) bufs

theorem owedFrom_append (n : ℕ) (l l' : List Buf) :
    owedFrom n (l ++ l') = owedFrom n l ++ owedFrom (n + l.length) l' := by
  induction l generalizing n with
  | nil => rfl
  | cons b l ih =>
    rw [cons_append,owedFrom,ih,owedFrom,append_assoc,length_cons]
    congr 3
    omega

theorem length_owedFrom (n : ℕ) (l : List Buf) :
    (owedFrom n l).length = (l.flatMap Buf.flight).length := by
  induction l generalizing n with
  | nil => rfl
  | cons b l ih =>
    simp [owedFrom,length_append,length_replicate,ih,flatMap_cons]

theorem owedFrom_eq_nil {l : List Buf} (h : l.flatMap Buf.flight = []) (n : ℕ) :
    owedFrom n l = [] := by
  rw [← length_eq_zero_iff,length_owedFrom,h,length_nil]

theorem sum_ref {l : List Buf} (h : ∀ b ∈ l, b.Sound) :
    (l.map Buf.ref).sum = (l.flatMap Buf.flight).length := by
  induction l with
  | nil => rfl
  | cons b l ih =>
    obtain ⟨hb,hl⟩ := forall_mem_cons.mp h
    simp [map_cons,sum_cons,ih hl,hb.ref,flatMap_cons,length_append]

theorem unprocessed_eq {r : Regs} (h : r.Legal) : r.unprocessed = r.loaded.length := by
  have hex := fun side => (h.toggle side).exclusive
  have hboth := h.both
  have horder := h.order
  unfold Regs.unprocessed Regs.loaded Regs.doneChunks Toggle.started
  unfold Regs.cur Regs.oth at *
  cases hb : r.biu <;> rw [hb] at hboth horder <;> cases h1 : (r.toggle false).strt <;>
    cases h2 : (r.toggle true).strt <;> cases h3 : (r.toggle false).done <;>
    cases h4 : (r.toggle true).done <;> simp_all

theorem loaded_le {r : Regs} (h : r.Legal) : r.loaded.length ≤ 2 := by
  rw [← unprocessed_eq h,Regs.unprocessed]
  have ha := Bool.toNat_le ((r.toggle false).strt || (r.toggle false).done)
  have hb := Bool.toNat_le ((r.toggle true).strt || (r.toggle true).done)
  omega

theorem startDma_spec {r r' : Regs} {ptr size : ℕ} (h : r.Legal)
    (hs : r.startDma ptr size = some r') : r'.Legal ∧ r'.loaded = r.loaded ++ [(ptr,size)] := by
  rw [startDma_eq] at hs
  split_ifs at hs with hc
  cases hs
  rw [Bool.not_eq_true,Bool.or_eq_false_iff] at hc
  obtain ⟨hlegal,hloaded,-⟩ := load_spec h ptr size hc.1 hc.2
  exact ⟨hlegal,hloaded⟩

/-- Nothing of the buffer at `tail` is in flight. -/
def Chan.Ended (c : Chan) : Prop := ∀ b, c.bufs[c.tailIdx]? = some b → b.flight = []

/-- What holds at any time: the owners of the toggles are those the counts say. -/
structure SpinChan.Core (s : SpinChan) : Prop where
  legal : s.chan.regs.Legal
  running : s.chan.stopped = false
  placed : s.chan.Placed
  count : s.loads.length = s.chan.regs.loaded.length
  owed : s.due ++ s.loads = owedFrom 0 s.chan.bufs ++ replicate s.spinRef.natAbs .spin
  charged : ∀ p ∈ s.charged, p.1 = p.2

/-- What holds outside of `process_dma`. -/
structure SpinChan.Rest (s : SpinChan) : Prop extends s.Core where
  behind : s.spinRef < 0 → s.chan.bufs.flatMap Buf.flight ≠ [] ∧ s.chan.Ended
  alone : 0 < s.spinRef → s.chan.bufs.flatMap Buf.flight = [] ∧ s.chan.tail = none

/-- What `process_dma` has to find. -/
structure SpinChan.Ready (s : SpinChan) : Prop extends s.Core where
  behind : s.spinRef < 0 → s.chan.bufs.flatMap Buf.flight ≠ [] ∧ s.chan.Ended ∧ s.due = []
  alone : 0 < s.spinRef →
    s.chan.bufs.flatMap Buf.flight = [] ∧ (s.chan.tail = none ∨ s.due = []) ∨
      s.chan.curr ≠ none ∧ s.chan.tail = none ∧ s.spinSize ≠ 0

namespace SpinChan
variable {i n : ℕ} {s : SpinChan}

theorem Core.length (h : s.Core) :
    s.due.length + s.loads.length =
      (s.chan.bufs.flatMap Buf.flight).length + s.spinRef.natAbs := by
  have hlen := congrArg List.length h.owed
  rw [length_append,length_append,length_owedFrom,length_replicate] at hlen
  exact hlen

theorem Core.loads_le (h : s.Core) : s.loads.length ≤ 2 :=
  h.count.trans_le (loaded_le h.legal)

structure OnlySpin (s t : SpinChan) : Prop where
  chan : t.chan = { s.chan with regs := t.chan.regs }
  spinSize : t.spinSize = s.spinSize
  due : t.due = s.due
  charged : t.charged = s.charged
  le : s.spinRef ≤ t.spinRef

theorem spinLoop_only (n : ℕ) (s : SpinChan) : s.OnlySpin (s.spinLoop n) := by
  induction n generalizing s with
  | zero => exact ⟨rfl,rfl,rfl,rfl,le_rfl⟩
  | succ n ih =>
    rw [spinLoop]
    cases s.chan.regs.startDma s.spinAddr s.spinChunk with
    | none => exact ⟨rfl,rfl,rfl,rfl,le_rfl⟩
    | some regs =>
      obtain ⟨hchan,hsize,hdue,hcharged,hle⟩ := ih
        { s with
          chan := { s.chan with regs := regs }
          spinRef := s.spinRef + 1
          loads := s.loads ++ [.spin] }
      exact ⟨hchan,hsize,hdue,hcharged,(Int.le_add_one le_rfl).trans hle⟩

theorem Core.spinLoop (h : s.Core) (h0 : 0 ≤ s.spinRef) (n : ℕ) : (s.spinLoop n).Core := by
  induction n generalizing s with
  | zero => exact h
  | succ n ih =>
    rw [spinLoop]
    cases hs : s.chan.regs.startDma s.spinAddr s.spinChunk with
    | none => exact h
    | some regs =>
      obtain ⟨hlegal,hloaded⟩ := startDma_spec h.legal hs
      refine ih ⟨hlegal,h.running,h.placed.regs regs,?_,?_,h.charged⟩
        (show 0 ≤ s.spinRef + 1 by omega)
      · simp [hloaded,length_append,h.count]
      · rw [← append_assoc,h.owed,append_assoc,
          show (s.spinRef + 1).natAbs = s.spinRef.natAbs + 1 by omega,replicate_succ']

/-- What `process_dma` leaves alone, and when it leaves spin loads behind a buffer. -/
structure Processed (s t : SpinChan) : Prop where
  spinSize : t.spinSize = s.spinSize
  due : t.due = s.due
  charged : t.charged = s.charged
  fresh : t.spinRef < 0 → s.spinRef < 0 ∨ t.chan.tail = none ∧ t.spinSize ≠ 0

theorem Ready.rest (h : s.Ready) (hle : s.spinRef ≤ 0) : s.Rest :=
  ⟨h.toCore,fun hlt => ⟨(h.behind hlt).1,(h.behind hlt).2.1⟩,fun hlt => absurd hlt (by omega)⟩

theorem Ready.spin (h : s.Ready) (ht : s.chan.tail = none) :
    s.spin.Rest ∧ s.Processed s.spin := by
  rw [SpinChan.spin]
  by_cases hc : s.spinSize ≠ 0 ∧ 0 ≤ s.spinRef
  · rw [if_pos hc]
    have hcore := h.toCore.spinLoop hc.2 3
    have honly := s.spinLoop_only 3
    generalize s.spinLoop 3 = t at hcore honly
    have htail : t.chan.tail = none := by
      rw [honly.chan]
      exact ht
    have hpos : 0 ≤ t.spinRef := hc.2.trans honly.le
    by_cases hcurr : t.chan.curr ≠ none
    · rw [if_pos hcurr]
      refine ⟨⟨⟨hcore.legal,hcore.running,hcore.placed,hcore.count,?_,hcore.charged⟩,?_,?_⟩,
        honly.spinSize,honly.due,honly.charged,fun _ => .inr ⟨htail,honly.spinSize.trans_ne hc.1⟩⟩
      · rw [Int.natAbs_neg]
        exact hcore.owed
      · -- the current buffer is started to its end, and not called back
        intro _
        have hidx : t.chan.tailIdx = t.chan.bufs.length := by
          rw [Chan.tailIdx,htail]
          rfl
        obtain ⟨c,hcurr⟩ := Option.ne_none_iff_exists'.mp hcurr
        obtain ⟨hceq,hlt⟩ := hcore.placed.curr c hcurr
        have hget := getElem?_eq_getElem hlt
        refine ⟨fun hnil => ?_,fun b hb => ?_⟩
        · refine hcore.placed.marks.fresh c _ hget hceq.ge (hidx ▸ hlt) ?_
          exact flatMap_eq_nil_iff.mp hnil _ (mem_of_getElem? hget)
        · grind
      · grind
    · rw [if_neg hcurr]
      rw [not_not] at hcurr
      exact ⟨⟨hcore,fun hlt => absurd hlt (by omega),
        fun _ => ⟨(hcore.placed.idle hcurr).1,htail⟩⟩,honly.spinSize,honly.due,honly.charged,
        fun hlt => absurd hlt (by omega)⟩
  · rw [if_neg hc]
    refine ⟨⟨h.toCore,fun hlt => ⟨(h.behind hlt).1,(h.behind hlt).2.1⟩,fun hlt => ?_⟩,
      rfl,rfl,rfl,.inl⟩
    obtain ⟨hfl,-⟩ | ⟨-,-,hsize⟩ := h.alone hlt
    · exact ⟨hfl,ht⟩
    · omega

theorem processOnce_stopped {c d : Chan} (h : c.processOnce = some d) : d.stopped = c.stopped := by
  obtain ⟨i,buf,-,-,-,-,-,rfl⟩ := processOnce_eq_some h
  rfl

theorem Core.start (h : s.Core) (h0 : s.spinRef = 0) {c : Chan} (hi : s.chan.tail = some i)
    (hc : s.chan.processOnce = some c) :
    Core { s with chan := c, loads := s.loads ++ [.buf i] } := by
  have hplaced := h.placed.processOnce hc
  have hrun := (processOnce_stopped hc).trans h.running
  obtain ⟨j,buf,hj,hbuf,-,hbusy,hdone,rfl⟩ := processOnce_eq_some hc
  obtain rfl : i = j := Option.some.inj (hi.symm.trans hj)
  obtain ⟨hlegal,hloaded,-⟩ := load_spec h.legal buf.dmaPtr buf.chunksize hbusy hdone
  refine ⟨hlegal,hrun,hplaced,?_,?_,h.charged⟩
  · simp [hloaded,length_append,h.count]
  · obtain ⟨pre,post,hl,hpre,hmod⟩ := split_at hbuf
    have hm := h.placed.marks
    rw [Chan.tailIdx,hi,Option.getD_some,hl,← hpre] at hm
    have hpost := owedFrom_eq_nil hm.flatMap_flight
    have howed := h.owed
    rw [hl,owedFrom_append,owedFrom,hpost,append_nil,h0,Int.natAbs_zero,replicate_zero,
      append_nil,zero_add,hpre] at howed
    rw [← append_assoc,howed,hmod,owedFrom_append,owedFrom,hpost,append_nil,h0,
      Int.natAbs_zero,replicate_zero,append_nil,zero_add,hpre,append_assoc]
    congr 1
    show _ = replicate (buf.flight ++ [(buf.dmaPtr,buf.chunksize)]).length _
    rw [length_append,length_singleton,replicate_succ']

theorem Ready.full (h : s.Ready) (hlt : s.spinRef < 0) : s.chan.processOnce = none := by
  cases hc : s.chan.processOnce with
  | none => rfl
  | some c =>
    obtain ⟨hfl,-,hdue⟩ := h.behind hlt
    have hlen := h.length
    have hpos := length_pos_iff.mpr hfl
    obtain ⟨i,buf,-,-,-,hbusy,hdone,rfl⟩ := processOnce_eq_some hc
    obtain ⟨hlegal,hloaded,-⟩ := load_spec h.legal buf.dmaPtr buf.chunksize hbusy hdone
    have hle := loaded_le hlegal
    rw [hloaded,length_append,← h.count,length_singleton] at hle
    rw [hdue,length_nil] at hlen
    omega

theorem kill_of_le (h : s.spinRef ≤ 0) : s.kill = s :=
  if_neg (by omega)

theorem kill_le (s : SpinChan) : s.kill.spinRef ≤ 0 := by
  rw [kill]
  grind

theorem Ready.processLoop_of_le (h : s.Ready) (hle : s.spinRef ≤ 0) (n : ℕ) :
    (s.processLoop n).Rest ∧ s.Processed (s.processLoop n) := by
  induction n generalizing s with
  | zero => exact ⟨h.rest hle,rfl,rfl,rfl,.inl⟩
  | succ n ih =>
    rw [processLoop]
    cases hi : s.chan.tail with
    | none => exact h.spin hi
    | some i =>
      dsimp only
      rw [h.running,if_neg Bool.false_ne_true,kill_of_le hle]
      cases hc : s.chan.processOnce with
      | none => exact ⟨h.rest hle,rfl,rfl,rfl,.inl⟩
      | some c =>
        have h0 : s.spinRef = 0 := by
          by_contra hn
          rw [h.full (by omega)] at hc
          cases hc
        have hready : Ready { s with chan := c, loads := s.loads ++ [.buf i] } :=
          ⟨h.toCore.start h0 hi hc,fun hlt => absurd hlt (by rw [h0]; decide),
            fun hlt => absurd hlt (by rw [h0]; decide)⟩
        obtain ⟨hrest,hp⟩ := ih hready hle
        exact ⟨hrest,hp.spinSize,hp.due,hp.charged,hp.fresh⟩

/-- Spin loads give way: there is no buffer in flight, and no completion is left to process. -/
theorem Ready.kill (h : s.Ready) (ht : s.chan.tail ≠ none) : s.kill.Ready := by
  by_cases hlt : 0 < s.spinRef
  · rw [SpinChan.kill,if_pos hlt]
    obtain ⟨hfl,hdue⟩ | ⟨-,htail,-⟩ := h.alone hlt
    · have hnil : s.due = [] := hdue.resolve_left ht
      refine ⟨⟨clearAll_legal h.legal _,h.running,h.placed.regs _,
        congrArg List.length (clearAll_loaded s.chan.regs _).symm,?_,h.charged⟩,
        fun hn => absurd hn (lt_irrefl 0),fun hn => absurd hn (lt_irrefl 0)⟩
      rw [hnil,owedFrom_eq_nil hfl]
      rfl
    · exact absurd htail ht
  · rw [kill_of_le (by omega)]
    exact h

theorem kill_fields (s : SpinChan) :
    s.kill.chan.tail = s.chan.tail ∧ s.kill.chan.stopped = s.chan.stopped ∧
      s.kill.spinSize = s.spinSize ∧ s.kill.due = s.due ∧ s.kill.charged = s.charged := by
  rw [kill]
  grind

theorem processLoop_kill (hi : s.chan.tail = some i) (hr : s.chan.stopped = false) (n : ℕ) :
    s.processLoop (n + 1) = s.kill.processLoop (n + 1) := by
  obtain ⟨htail,hstop,-⟩ := s.kill_fields
  rw [processLoop,processLoop,htail,hi,hstop,hr,kill_of_le s.kill_le]
  rfl

theorem Ready.processLoop (h : s.Ready) (n : ℕ) :
    (s.processLoop (n + 1)).Rest ∧ s.Processed (s.processLoop (n + 1)) := by
  cases hi : s.chan.tail with
  | none =>
    have hspin := h.spin hi
    rw [SpinChan.processLoop,hi]
    exact hspin
  | some i =>
    have hready := h.kill (by rw [hi]; simp)
    obtain ⟨-,-,hsize,hdue,hcharged⟩ := s.kill_fields
    rw [processLoop_kill hi h.running]
    obtain ⟨hrest,hp⟩ := hready.processLoop_of_le s.kill_le (n + 1)
    refine ⟨hrest,hp.spinSize.trans hsize,hp.due.trans hdue,hp.charged.trans hcharged,fun hlt => ?_⟩
    obtain hneg | hfresh := hp.fresh hlt
    · refine .inl ?_
      by_contra hn
      rw [SpinChan.kill] at hneg
      grind
    · exact .inr hfresh

theorem Core.front (h : s.Core) {x : Chunk} {l : List Chunk}
    (hf : s.chan.bufs.flatMap Buf.flight = x :: l) {o : Owner} {d : List Owner}
    (hdue : s.due = o :: d) :
    o = .buf s.chan.called.length ∧
      d ++ s.loads = owedFrom 0 (s.chan.bufs.modify s.chan.called.length Buf.accounted) ++
        replicate s.spinRef.natAbs .spin := by
  obtain ⟨pre,buf,post,m,-,hl,hpre,-,hold,hm,-,hmod,-⟩ := h.placed.front hf
  have howed := h.owed
  rw [hdue,hl,owedFrom_append,owedFrom_eq_nil hold,owedFrom,hm,length_cons,
    replicate_succ,zero_add,hpre] at howed
  simp only [nil_append,cons_append,cons.injEq] at howed
  refine ⟨howed.1,?_⟩
  rw [howed.2,hmod,owedFrom_append,owedFrom_eq_nil hold,owedFrom,zero_add,hpre,nil_append]
  congr 2
  show _ = replicate buf.flight.tail.length _
  rw [hm]
  rfl

theorem account_fields (c : Chan) :
    c.account.regs = c.regs ∧ c.account.stopped = c.stopped ∧ c.account.tail = c.tail := by
  unfold Chan.account
  grind

section
variable {s : SpinChan} {o : Owner} {d : List Owner} (h : s.Rest) (hdue : s.due = o :: d)
include h hdue

theorem Rest.account_spin (hlt : 0 < s.spinRef) : s.account.Ready := by
  obtain ⟨hfl,htail⟩ := h.alone hlt
  have howed := h.owed
  rw [owedFrom_eq_nil hfl,hdue,nil_append,cons_append,
    show s.spinRef.natAbs = (s.spinRef - 1).natAbs + 1 by omega,replicate_succ,
    cons.injEq] at howed
  obtain ⟨rfl,howed⟩ := howed
  rw [account,charge]
  simp only [if_pos hlt,hdue,tail_cons,head?_cons]
  refine ⟨⟨h.legal,h.running,h.placed,h.count,?_,?_⟩,?_,fun _ => .inl ⟨hfl,.inl htail⟩⟩
  · rw [owedFrom_eq_nil hfl,howed,nil_append]
  · exact forall_mem_append.mpr ⟨h.charged,forall_mem_singleton.mpr rfl⟩
  · grind

theorem Rest.flights_ne_nil (hle : s.spinRef ≤ 0) :
    s.chan.bufs.flatMap Buf.flight ≠ [] := by
  intro hnil
  have hlen := h.length
  rw [hnil,hdue,length_cons,length_nil] at hlen
  by_cases h0 : s.spinRef = 0
  · omega
  · exact (h.behind (by omega)).1 hnil

theorem Rest.account_core (hle : s.spinRef ≤ 0) :
    s.account.Core ∧ (s.account.chan.bufs.flatMap Buf.flight).length + 1 =
      (s.chan.bufs.flatMap Buf.flight).length := by
  obtain ⟨x,l,hf⟩ := exists_cons_of_ne_nil (h.flights_ne_nil hdue hle)
  obtain ⟨rfl,howed⟩ := h.toCore.front hf hdue
  obtain ⟨-,buf,-,-,hcurr,-,-,hbuf,-⟩ := h.placed.front hf
  obtain ⟨hregs,hstop,-⟩ := account_fields s.chan
  have hflights := h.placed.account_flights hf
  have hplaced : s.chan.account.Placed ∧
      s.chan.account.bufs = s.chan.bufs.modify s.chan.called.length Buf.accounted := by
    by_cases hc : buf.ref - 1 = 0 ∧ buf.size = 0
    · obtain ⟨hacc,hp⟩ := h.placed.finishes hf hbuf hc
      exact ⟨hp,congrArg Chan.bufs hacc⟩
    · obtain ⟨hacc,hp⟩ := h.placed.goesOn hf hbuf hc
      exact ⟨hp,congrArg Chan.bufs hacc⟩
  have habs : (if s.chan.finishing then -s.spinRef else s.spinRef).natAbs = s.spinRef.natAbs := by
    omega
  have hnot : ¬0 < s.spinRef := by omega
  rw [account,charge]
  simp only [if_neg hnot,hdue,tail_cons,head?_cons,hcurr,Option.map_some]
  refine ⟨⟨?_,hstop.trans h.running,hplaced.1,?_,?_,?_⟩,?_⟩
  · rw [hregs]
    exact h.legal
  · rw [hregs]
    exact h.count
  · rw [habs,hplaced.2,howed]
  · exact forall_mem_append.mpr ⟨h.charged,forall_mem_singleton.mpr rfl⟩
  · rw [hflights,hf,length_cons]

omit hdue in
theorem Rest.finishing_iff {x : Chunk} {l : List Chunk}
    (hf : s.chan.bufs.flatMap Buf.flight = x :: l) :
    ∃ buf, s.chan.bufs[s.chan.called.length]? = some buf ∧ buf.flight ≠ [] ∧
      (s.chan.finishing ↔ buf.ref - 1 = 0 ∧ buf.size = 0) := by
  obtain ⟨-,buf,-,m,hcurr,-,-,hbuf,-,hm,-⟩ := h.placed.front hf
  have hbind : s.chan.curr.bind (s.chan.bufs[·]?) = some buf := by
    rw [hcurr,Option.bind_some,hbuf]
  refine ⟨buf,hbuf,by rw [hm]; exact cons_ne_nil _ _,?_⟩
  constructor
  · rintro ⟨buf',hbuf',hc⟩
    grind
  · exact fun hc => ⟨buf,hbind,hc⟩

/-- A completion of the current buffer, which is not the last of two if spin loads are behind it and
another buffer waits. -/
theorem Rest.account_buf (hle : s.spinRef ≤ 0)
    (hcalm : d ≠ [] → s.spinRef < 0 → s.chan.tail = none)
    (hsmall : d ≠ [] → s.due.length + s.loads.length ≤ 2)
    (hlate : s.spinRef < 0 → s.due.length + s.loads.length ≤ 2 ∨
      s.chan.tail = none ∧ s.spinSize ≠ 0) : s.account.Ready := by
  obtain ⟨hcore,hlen⟩ := h.account_core hdue hle
  obtain ⟨x,l,hf⟩ := exists_cons_of_ne_nil (h.flights_ne_nil hdue hle)
  obtain ⟨buf,hbuf,hflight,hfin⟩ := h.finishing_iff hf
  have htotal := h.length
  have hnot : ¬0 < s.spinRef := by omega
  have htail : s.account.chan.tail = s.chan.tail := by
    rw [account,if_neg hnot]
    exact (account_fields s.chan).2.2
  have hd : s.account.due = d := by
    rw [account,hdue]
    rfl
  have href : s.account.spinRef = if s.chan.finishing then -s.spinRef else s.spinRef :=
    if_neg hnot
  refine ⟨hcore,?_,?_⟩
  · intro hneg
    -- the buffer goes on, although it is started to its end
    rw [href] at hneg
    split_ifs at hneg with hc
    · omega
    obtain ⟨-,hended⟩ := h.behind hneg
    have hne : s.chan.called.length ≠ s.chan.tailIdx := fun he => hflight (hended buf (he ▸ hbuf))
    have hsize : buf.size = 0 :=
      h.placed.marks.before _ buf hbuf (lt_of_le_of_ne h.placed.marks.le hne)
    have hchan : s.account.chan =
        { s.chan with bufs := s.chan.bufs.modify s.chan.called.length Buf.accounted } := by
      rw [account,if_neg hnot]
      exact (h.placed.goesOn hf hbuf (fun hb => hc (hfin.mpr hb))).1
    have htwo : 2 ≤ (s.chan.bufs.flatMap Buf.flight).length := by
      have hsound := h.placed.marks.sound buf (mem_of_getElem? hbuf)
      have hmany : 2 ≤ buf.flight.length := by
        have hpos := length_pos_iff.mpr hflight
        have hone : buf.flight.length ≠ 1 := by
          intro he
          refine hc (hfin.mpr ⟨?_,hsize⟩)
          rw [hsound.ref,he]
          rfl
        omega
      obtain ⟨pre,post,hl,-,-⟩ := split_at hbuf
      grind
    refine ⟨length_pos_iff.mp (by omega),?_,?_⟩
    · intro b hb
      rw [hchan] at hb
      refine hended b ?_
      change (s.chan.bufs.modify s.chan.called.length Buf.accounted)[s.chan.tail.getD _]? = some b at hb
      grind
    · rw [hd]
      by_contra hn
      have hcount := hsmall hn
      omega
  · intro hpos
    rw [href] at hpos
    split_ifs at hpos with hc
    · have hneg : s.spinRef < 0 := by omega
      by_cases hnil : s.account.chan.bufs.flatMap Buf.flight = []
      · refine .inl ⟨hnil,?_⟩
        grind
      · have hlpos := length_pos_iff.mpr hnil
        obtain hfew | ⟨htn,hsz⟩ := hlate hneg
        · omega
        · refine .inr ⟨fun hcurr => hnil (hcore.placed.idle hcurr).1,htail.trans htn,hsz⟩
    · omega

end

theorem Rest.dmaDone {o : Owner} {d : List Owner} (h : s.Rest) (hdue : s.due = o :: d)
    (hcalm : d ≠ [] → s.spinRef < 0 → s.chan.tail = none)
    (hsmall : d ≠ [] → s.due.length + s.loads.length ≤ 2)
    (hlate : s.spinRef < 0 → s.due.length + s.loads.length ≤ 2 ∨
      s.chan.tail = none ∧ s.spinSize ≠ 0) :
    s.dmaDone.Rest ∧ s.dmaDone.due = d ∧
      (d ≠ [] → s.dmaDone.spinRef < 0 → s.dmaDone.chan.tail = none ∧ s.dmaDone.spinSize ≠ 0) := by
  have hready : s.account.Ready := by
    by_cases hlt : 0 < s.spinRef
    · exact h.account_spin hdue hlt
    · exact h.account_buf hdue (by omega) hcalm hsmall hlate
  have hd : s.account.due = d := by
    rw [account,hdue]
    rfl
  obtain ⟨hrest,hp⟩ := hready.processLoop 2
  refine ⟨hrest,hp.due.trans hd,fun hn hneg => (hp.fresh hneg).resolve_left fun hlt => ?_⟩
  exact hn (hd.symm.trans (hready.behind hlt).2.2)

def Inv (s : SpinChan) : Prop := s.Rest ∧ s.due = []

theorem Inv.clearDone (h : s.Inv) :
    s.clearDone.Rest ∧ s.clearDone.due.length = s.chan.regs.doneChunks.length ∧
      s.clearDone.due.length + s.clearDone.loads.length ≤ 2 := by
  obtain ⟨hrest,hdue⟩ := h
  obtain ⟨hlegal,hloaded,-⟩ := clearDone_spec hrest.legal
  have hcount := hrest.count
  have hle := hrest.loads_le
  rw [hloaded,length_append] at hcount
  have htake : (s.loads.take s.chan.regs.doneChunks.length).length =
      s.chan.regs.doneChunks.length := by
    rw [length_take]
    omega
  have hdrop : (s.loads.drop s.chan.regs.doneChunks.length).length =
      s.chan.regs.clearDone.loaded.length := by
    rw [length_drop]
    omega
  refine ⟨⟨⟨hlegal,hrest.running,hrest.placed.regs _,hdrop,?_,hrest.charged⟩,hrest.behind,
    hrest.alone⟩,htake,?_⟩
  · have howed := hrest.owed
    rw [hdue,nil_append] at howed
    show s.loads.take _ ++ s.loads.drop _ = _
    rw [take_append_drop]
    exact howed
  · show (s.loads.take _).length + (s.loads.drop _).length ≤ 2
    omega

/-- What a completion interrupt must not find: both toggles done, spin loads behind a buffer and
another buffer waiting. -/
def Calm (s : SpinChan) : SpinOp → Prop
  | .irq => ¬((s.chan.regs.toggle false).done = true ∧ (s.chan.regs.toggle true).done = true ∧
      s.spinRef < 0 ∧ s.chan.tail ≠ none)
  | _ => True

theorem Inv.irqHandler (h : s.Inv) (hcalm : s.Calm .irq) : s.irqHandler.Inv := by
  obtain ⟨hrest,hlen,htotal⟩ := h.clearDone
  have hone : s.chan.regs.doneChunks.length = 1 → s.clearDone.dmaDone.Inv := by
    intro h1
    rw [h1] at hlen
    obtain ⟨o,ho⟩ := length_eq_one_iff.mp hlen
    obtain ⟨hdone,hdue,-⟩ := hrest.dmaDone ho (fun hn => absurd rfl hn) (fun hn => absurd rfl hn)
      (fun _ => .inl htotal)
    exact ⟨hdone,hdue⟩
  rw [SpinChan.irqHandler]
  obtain ⟨ha,hb,hd⟩ | ⟨⟨ha,hb⟩ | ⟨ha,hb⟩,x,hd⟩ | ⟨ha,hb,x,y,hd⟩ := doneChunks_cases h.1.legal <;>
    rw [hd] at hlen hone <;> simp only [ha,hb,if_true,Bool.false_eq_true,if_false]
  · exact ⟨hrest,length_eq_zero_iff.mp hlen⟩
  · exact hone rfl
  · exact hone rfl
  · obtain ⟨o,p,ho⟩ := length_eq_two.mp hlen
    have hcalm' : s.clearDone.spinRef < 0 → s.clearDone.chan.tail = none := by
      intro hneg
      by_contra hn
      exact hcalm ⟨ha,hb,hneg,hn⟩
    obtain ⟨hfirst,hdue,hlate⟩ := hrest.dmaDone ho (fun _ => hcalm') (fun _ => htotal)
      (fun _ => .inl htotal)
    obtain ⟨hsecond,hnil,-⟩ := hfirst.dmaDone hdue (fun hn => absurd rfl hn)
      (fun hn => absurd rfl hn) (fun hneg => .inr (hlate (cons_ne_nil _ _) hneg))
    exact ⟨hsecond,hnil⟩

theorem Inv.queueBuffer (h : s.Inv) (id data size : ℕ) :
    (s.queueBuffer id data size).Inv := by
  obtain ⟨hrest,hdue⟩ := h
  have hflights := flatMap_flight_queued s.chan.bufs id data size
  have hready : Ready { s with chan := s.chan.enqueue id data size } := by
    refine ⟨⟨hrest.legal,hrest.running,hrest.placed.enqueue id data size,hrest.count,?_,
      hrest.charged⟩,?_,?_⟩
    · show s.due ++ s.loads = owedFrom 0 (s.chan.bufs ++ [_]) ++ _
      rw [owedFrom_append,owedFrom,owedFrom,length_nil,replicate_zero,append_nil,
        append_nil]
      exact hrest.owed
    · intro hneg
      obtain ⟨hne,hended⟩ := hrest.behind hneg
      refine ⟨fun hnil => hne (hflights.symm.trans hnil),fun b hb => ?_,hdue⟩
      have hidx : (s.chan.enqueue id data size).tailIdx = s.chan.tailIdx := by
        unfold Chan.tailIdx Chan.enqueue
        cases s.chan.tail <;> rfl
      rw [hidx] at hb
      change (s.chan.bufs ++ [_])[s.chan.tailIdx]? = some b at hb
      by_cases hlt : s.chan.tailIdx < s.chan.bufs.length
      · rw [getElem?_append_left hlt] at hb
        exact hended b hb
      · grind
    · intro hpos
      obtain ⟨hfl,-⟩ := hrest.alone hpos
      exact .inl ⟨hflights.trans hfl,.inr hdue⟩
  obtain ⟨hdone,hp⟩ := hready.processLoop 2
  exact ⟨hdone,hp.due.trans hdue⟩

theorem Inv.setSpin (h : s.Inv) (addr size : ℕ) : (s.setSpin addr size).Inv := by
  obtain ⟨hrest,hdue⟩ := h
  have hcore : Core { s with spinAddr := addr, spinSize := size } :=
    ⟨hrest.legal,hrest.running,hrest.placed,hrest.count,hrest.owed,hrest.charged⟩
  rw [SpinChan.setSpin]
  by_cases hs : size ≠ 0
  · rw [if_pos hs]
    have hready : Ready { s with spinAddr := addr, spinSize := size } :=
      ⟨hcore,fun hneg => ⟨(hrest.behind hneg).1,(hrest.behind hneg).2,hdue⟩,
        fun hpos => .inl ⟨(hrest.alone hpos).1,.inl (hrest.alone hpos).2⟩⟩
    obtain ⟨hdone,hp⟩ := hready.processLoop 2
    exact ⟨hdone,hp.due.trans hdue⟩
  · rw [if_neg hs]
    exact ⟨⟨hcore,hrest.behind,hrest.alone⟩,hdue⟩

theorem Inv.regs (h : s.Inv) {regs : Regs} {moved : List ℕ} (hlegal : regs.Legal)
    (hloaded : regs.loaded = s.chan.regs.loaded) :
    Inv { s with chan := { s.chan with regs := regs, moved := moved } } := by
  obtain ⟨hrest,hdue⟩ := h
  refine ⟨⟨⟨hlegal,hrest.running,⟨hrest.placed.marks,hrest.placed.tailLt,hrest.placed.curr,
    hrest.placed.idle⟩,?_,hrest.owed,hrest.charged⟩,hrest.behind,hrest.alone⟩,hdue⟩
  rw [hloaded]
  exact hrest.count

theorem Inv.step (s : SpinChan) (op : SpinOp) (t : SpinChan) (h : s.Inv) (hc : s.Calm op)
    (hs : s.step op = some t) : t.Inv := by
  cases op with
  | queueBuffer id data size =>
    cases hs
    exact h.queueBuffer id data size
  | setSpin addr size =>
    cases hs
    exact h.setSpin addr size
  | irq =>
    cases hs
    exact h.irqHandler hc
  | move =>
    obtain ⟨c,hc,rfl⟩ := Option.map_eq_some_iff.mp hs
    rw [Dma.step] at hc
    split_ifs at hc with hg
    cases hc
    obtain ⟨hlegal,hloaded,-⟩ := move_spec h.1.legal hg.2.1 hg.2.2
    exact h.regs hlegal hloaded
  | complete =>
    obtain ⟨c,hc,rfl⟩ := Option.map_eq_some_iff.mp hs
    rw [Dma.step] at hc
    split_ifs at hc with hg
    cases hc
    obtain ⟨hlegal,hloaded,-⟩ := complete_spec h.1.legal hg.2.1 hg.2.2
    exact h.regs hlegal hloaded

theorem Inv.good (h : s.Inv) : s.Good := by
  obtain ⟨hrest,hdue⟩ := h
  have hlen := hrest.length
  rw [hdue,length_nil,zero_add,hrest.count] at hlen
  refine ⟨?_,hrest.charged⟩
  simp [sum_ref hrest.placed.marks.sound,unprocessed_eq hrest.legal,hlen]

theorem inv_init : init.Inv := by
  refine ⟨⟨⟨⟨fun _ => ⟨?_,?_,?_⟩,?_,?_,?_⟩,rfl,⟨⟨?_,?_,?_,?_,?_,?_,?_,?_⟩,?_,?_,?_⟩,rfl,rfl,?_⟩,
    ?_,?_⟩,rfl⟩ <;>
    simp [init,Chan.init,Toggle.idle,Regs.cur,Regs.oth,Chan.tailIdx]

/-- What is recorded of the completions is not changed by `process_dma`. -/
theorem spin_records (s : SpinChan) : s.spin.due = s.due ∧ s.spin.charged = s.charged := by
  rw [spin]
  split_ifs with hc
  · have honly := s.spinLoop_only 3
    dsimp only
    split_ifs <;> exact ⟨honly.due,honly.charged⟩
  · exact ⟨rfl,rfl⟩

theorem processLoop_records (n : ℕ) (s : SpinChan) :
    (s.processLoop n).due = s.due ∧ (s.processLoop n).charged = s.charged := by
  induction n generalizing s with
  | zero => exact ⟨rfl,rfl⟩
  | succ n ih =>
    obtain ⟨-,-,-,hdue,hcharged⟩ := s.kill_fields
    rw [processLoop]
    cases s.chan.tail with
    | none => exact s.spin_records
    | some i =>
      split_ifs
      · exact s.spin_records
      · cases s.kill.chan.processOnce with
        | none => exact ⟨hdue,hcharged⟩
        | some c =>
          obtain ⟨ihdue,ihcharged⟩ := ih { s.kill with chan := c, loads := s.kill.loads ++ [.buf i] }
          grind

theorem spin_le (hle : s.spinRef ≤ 0) (hcurr : s.chan.curr ≠ none) :
    s.spin.spinRef ≤ 0 := by
  rw [spin]
  split_ifs with hc
  · have honly := s.spinLoop_only 3
    have hc' : (s.spinLoop 3).chan.curr ≠ none := by
      rw [honly.chan]
      exact hcurr
    rw [if_pos hc']
    exact neg_nonpos.mpr (hc.2.trans honly.le)
  · exact hle

theorem processLoop_le (hle : s.spinRef ≤ 0) (hr : s.chan.stopped = false)
    (hne : s.chan.tail = none → s.chan.curr ≠ none) (n : ℕ) : (s.processLoop n).spinRef ≤ 0 := by
  induction n generalizing s with
  | zero => exact hle
  | succ n ih =>
    rw [processLoop]
    cases hi : s.chan.tail with
    | none => exact spin_le hle (hne hi)
    | some i =>
      dsimp only
      rw [hr,if_neg Bool.false_ne_true,kill_of_le hle]
      cases hc : s.chan.processOnce with
      | none => exact hle
      | some c =>
        have hstop := (processOnce_stopped hc).trans hr
        obtain ⟨j,buf,-,-,-,-,-,rfl⟩ := processOnce_eq_some hc
        grind

/-- With a buffer waiting, the spin load whose completion is still to be processed is given up, and
the completion is charged to a buffer. -/
theorem Inv.not_good (h : s.Inv) (hn : ¬s.Calm .irq) : ¬s.irqHandler.Good := by
  obtain ⟨ha,hb,hneg,htail⟩ := not_not.mp hn
  obtain ⟨hrest,hlen,htotal⟩ := h.clearDone
  have hdone : s.chan.regs.doneChunks.length = 2 := by
    obtain ⟨ha',-⟩ | ⟨⟨-,hb'⟩ | ⟨ha',-⟩,-⟩ | ⟨-,-,x,y,hd⟩ := doneChunks_cases h.1.legal
    · rw [ha] at ha'
      cases ha'
    · rw [hb] at hb'
      cases hb'
    · rw [ha] at ha'
      cases ha'
    · rw [hd]
      rfl
  -- the two completions are one of the buffer and one of the spin buffer behind it
  obtain ⟨o,p,hdue⟩ := length_eq_two.mp (hlen.trans hdone)
  have hspin : p = .spin := by
    have hfl := length_pos_iff.mpr (hrest.behind hneg).1
    have hcount := hrest.length
    have howed := hrest.owed
    have hloads : s.clearDone.loads = [] := length_eq_zero_iff.mp (by omega)
    have habs : s.clearDone.spinRef.natAbs = 1 := by
      change s.clearDone.spinRef < 0 at hneg
      omega
    obtain ⟨x,hx⟩ := length_eq_one_iff.mp
      (show (owedFrom 0 s.clearDone.chan.bufs).length = 1 by rw [length_owedFrom]; omega)
    grind
  have hfirst : s.clearDone.dmaDone.spinRef ≤ 0 := by
    obtain ⟨i,hi⟩ := Option.ne_none_iff_exists'.mp htail
    have hchan : s.clearDone.account.chan = s.clearDone.chan.account :=
      if_neg (not_lt.mpr (le_of_lt hneg))
    obtain ⟨-,hstop,htl⟩ := account_fields s.clearDone.chan
    have hi' : s.clearDone.account.chan.tail = some i := by
      rw [hchan,htl]
      exact hi
    have hr' : s.clearDone.account.chan.stopped = false := by
      rw [hchan,hstop]
      exact hrest.running
    rw [dmaDone,processDma,processLoop_kill hi' hr']
    obtain ⟨hkt,hks,-⟩ := s.clearDone.account.kill_fields
    refine processLoop_le (kill_le _) (hks.trans hr') (fun hnone => ?_) 3
    rw [hkt,hi'] at hnone
    cases hnone
  have hsecond : s.clearDone.dmaDone.due = [.spin] := by
    rw [dmaDone,processDma,(processLoop_records _ _).1,account,
      hdue,hspin]
    rfl
  rintro ⟨-,hall⟩
  rw [SpinChan.irqHandler,ha,hb,if_pos rfl,if_pos rfl,dmaDone,processDma,
    (processLoop_records _ _).2] at hall
  have hentry := hall _ (mem_append_right _ (mem_singleton_self _))
  rw [hsecond,head?_cons,charge,if_neg (not_lt.mpr hfirst)] at hentry
  cases hcurr : s.clearDone.dmaDone.chan.curr with
  | none =>
    rw [hcurr] at hentry
    cases hentry
  | some c =>
    rw [hcurr] at hentry
    cases hentry

end SpinChan

/-- The reference counts are right and every completion is charged to the owner of its toggle, all
along a run, just if no interrupt finds what it must not find. -/
theorem spin_accounting (ops : List SpinOp) :
    (∀ bs t, bs <+: ops → run SpinChan.step .init bs = some t → t.Good) ↔
      Meets SpinChan.step SpinChan.Calm .init ops := by
  refine always_iff SpinChan.step (fun s h => h.good) SpinChan.Inv.step (fun s op h hn => ?_)
    SpinChan.inv_init
  cases op with
  | irq => exact ⟨_,rfl,h.not_good hn⟩
  | queueBuffer | setSpin | move | complete => exact absurd trivial hn

/-- A buffer of one byte with a spin buffer of one byte behind it; a second buffer is queued, and
both toggles are done before the interrupt. -/
def lateInterrupt : List SpinOp :=
  [.queueBuffer 1 100 1,.setSpin 7 1,.queueBuffer 2 200 1,.move,.complete,.move,.complete,.irq]

/-- The completion of the spin buffer is charged to the second buffer, which is called back before a
byte of it is transferred. -/
theorem spin_completion_lost :
    ((run SpinChan.step .init lateInterrupt).map fun t =>
      (t.charged,t.chan.called,t.chan.moved)) =
      some ([(some (.buf 0),some (.buf 0)),(some .spin,some (.buf 1))],[(1,1),(2,1)],[100,7]) := by
  decide +kernel

end Simpad.Dma
