import Simpad.Drivers.DmaRuns
import Simpad.Drivers.UsbChar

namespace Simpad.UsbSend
open Dma List Runs
open UsbChar (Flag)

/-- The variables `ep2_*`, the chunk in the DMA channel, and what has happened: the chunks queued,
those reported sent, the calls of the callback and the mappings released. -/
structure Ep2 where
  dma : ℕ
  len : ℕ
  remain : ℕ
  curdmapos : ℕ
  curdmalen : ℕ
  channel : List Chunk
  queued : List Chunk
  sent : List Chunk
  calls : List (Flag × ℤ)
  unmapped : List Chunk

/-- `ep2_start`. -/
def Ep2.start (e : Ep2) (txPktsize : ℕ) : Ep2 :=
  if e.len = 0 then e
  else
    let n := min txPktsize e.remain
    { e with
      curdmalen := n
      channel := e.channel ++ [(e.curdmapos,n)]
      queued := e.queued ++ [(e.curdmapos,n)] }

/-- `ep2_done`. -/
def Ep2.done (e : Ep2) (flag : Flag) : Ep2 :=
  if e.len = 0 then e
  else
    { e with
      len := 0
      unmapped := e.unmapped ++ [(e.dma,e.len)]
      calls := e.calls ++ [(flag,(e.len : ℤ) - e.remain)] }

/-- `ep2_int_hndlr` on `UDCCS2_TPC`, with or without one of the error bits. -/
def Ep2.intHndlr (e : Ep2) (txPktsize : ℕ) (failed : Bool) : Ep2 :=
  if failed then { e with channel := [] : Ep2 }.done .eio
  else
    let e : Ep2 := { e with
      channel := []
      sent := e.sent ++ e.channel
      curdmapos := e.curdmapos + e.curdmalen
      remain := e.remain - e.curdmalen }
    if e.remain ≠ 0 then e.start txPktsize else e.done .ok

/-- `ep2_reset`. -/
def Ep2.reset (e : Ep2) : Ep2 := { e with channel := [] : Ep2 }.done .eintr

/-- Why `sa1100_usb_send` refuses a buffer. -/
inductive Refusal
  | enodev | ebusy
deriving DecidableEq

def Refusal.code : Refusal → ℤ
  | .enodev => -19
  | .ebusy => -16

def Ep2.xmitterAvail (e : Ep2) (configured : Bool) : ℤ :=
  if configured = false then Refusal.enodev.code else if e.len ≠ 0 then Refusal.ebusy.code else 0

/-- `sa1100_usb_send`; `dma` is the address that the buffer is mapped to. -/
def Ep2.usbSend (e : Ep2) (configured : Bool) (txPktsize dma len : ℕ) : Except Refusal Ep2 :=
  if configured = false then .error .enodev
  else if e.len ≠ 0 then .error .ebusy
  else .ok ({ e with dma := dma, len := len, remain := len, curdmapos := dma : Ep2 }.start txPktsize)

inductive Event
  | interrupt (failed : Bool)
  | reset

/-- An interrupt reports the packet that is outstanding. -/
def step (txPktsize : ℕ) (e : Ep2) : Event → Option Ep2
  | .interrupt failed => if e.channel = [] then none else some (e.intHndlr txPktsize failed)
  | .reset => some e.reset

def idle (remain curdmapos curdmalen : ℕ) : Ep2 := ⟨0,0,remain,curdmapos,curdmalen,[],[],[],[],[]⟩

/-- Chunks from the first byte of the buffer on, one after the other. -/
structure Cut (txPktsize dma len : ℕ) (chunks : List Chunk) : Prop where
  covers : Covers dma chunks (dma + span chunks)
  inside : span chunks ≤ len
  sizes : ∀ c ∈ chunks, 0 < c.2 ∧ c.2 ≤ txPktsize

variable {txPktsize dma len : ℕ} {e t : Ep2} {chunks : List Chunk}

theorem cut_nil : Cut txPktsize dma len [] := ⟨rfl,Nat.zero_le _,fun _ h => absurd h not_mem_nil⟩

theorem Cut.append {n : ℕ} (h : Cut txPktsize dma len chunks) (hn : span chunks + n ≤ len)
    (hpos : 0 < n) (hle : n ≤ txPktsize) :
    Cut txPktsize dma len (chunks ++ [(dma + span chunks,n)]) := by
  have hspan : span (chunks ++ [(dma + span chunks,n)]) = span chunks + n := span_append chunks _
  refine ⟨?_,hspan ▸ hn,fun c hc => ?_⟩
  · rw [hspan,← add_assoc]
    exact h.covers.append n
  · rcases mem_append.mp hc with hc | hc
    · exact h.sizes c hc
    · grind

/-- The transfer goes on, from the byte behind those that are sent. -/
structure Open (txPktsize dma len : ℕ) (e : Ep2) : Prop where
  base : e.dma = dma
  whole : e.len = len
  cut : Cut txPktsize dma len e.sent
  pos : e.curdmapos = dma + span e.sent
  remain : e.remain = len - span e.sent
  calls : e.calls = []
  unmapped : e.unmapped = []

structure Busy (txPktsize dma len : ℕ) (e : Ep2) : Prop extends Open txPktsize dma len e where
  left : span e.sent < len
  size : e.curdmalen = min txPktsize e.remain
  channel : e.channel = [(e.curdmapos,e.curdmalen)]
  queued : e.queued = e.sent ++ e.channel

structure Over (txPktsize dma len : ℕ) (e : Ep2) : Prop where
  closed : e.len = 0
  channel : e.channel = []
  queued : Cut txPktsize dma len e.queued
  sent : e.sent <+: e.queued
  unmapped : e.unmapped = [(dma,len)]
  calls : ∃ flag, e.calls = [(flag,(span e.sent : ℤ))] ∧ (flag = .ok ↔ Covers dma e.sent (dma + len))

theorem sent_start (e : Ep2) (n : ℕ) : (e.start n).sent = e.sent := by
  unfold Ep2.start
  split_ifs <;> rfl

theorem Open.start (h : Open txPktsize dma len e) (hleft : span e.sent < len)
    (hc : e.channel = []) (hq : e.queued = e.sent) : Busy txPktsize dma len (e.start txPktsize) := by
  have hlen := h.whole
  unfold Ep2.start
  rw [if_neg (by omega)]
  exact ⟨⟨h.base,h.whole,h.cut,h.pos,h.remain,h.calls,h.unmapped⟩,hleft,rfl,by simp only [hc]; rfl,
    by simp only [hc,hq]; rfl⟩

theorem Open.done {flag : Flag} (h : Open txPktsize dma len e) (hlen : 0 < len)
    (hc : e.channel = []) (hq : Cut txPktsize dma len e.queued) (hs : e.sent <+: e.queued)
    (hflag : flag = .ok ↔ span e.sent = len) : Over txPktsize dma len (e.done flag) := by
  have hin := h.cut.inside
  unfold Ep2.done
  rw [if_neg (by rw [h.whole]; omega)]
  refine ⟨rfl,hc,hq,hs,?_,flag,?_,hflag.trans ⟨fun hall => ?_,fun hall => ?_⟩⟩
  · simp only [h.unmapped,h.base,h.whole,nil_append]
  · simp only [h.calls,h.whole,h.remain,nil_append]
    congr 2
    omega
  · exact hall ▸ h.cut.covers
  · have hs : dma + span e.sent = dma + len := hall.span
    omega

theorem Busy.cut_queued (h : Busy txPktsize dma len e) (hpkt : 0 < txPktsize) :
    Cut txPktsize dma len e.queued := by
  have hleft := h.left
  rw [h.queued,h.channel,h.pos]
  exact h.cut.append (by rw [h.size,h.remain]; omega) (by rw [h.size,h.remain]; omega)
    (by simp [h.size])

theorem Busy.stepped (h : Busy txPktsize dma len e) (hpkt : 0 < txPktsize) {ev : Event}
    (hst : step txPktsize e ev = some t) :
    (Busy txPktsize dma len t ∧ span e.sent < span t.sent) ∨ Over txPktsize dma len t := by
  have hleft := h.left
  have hcut := h.cut_queued hpkt
  have hsent : e.sent <+: e.queued := h.queued ▸ prefix_append _ _
  have habort : ∀ flag, flag ≠ .ok → Over txPktsize dma len ({ e with channel := [] : Ep2 }.done flag) :=
    fun flag hflag => Open.done ⟨h.base,h.whole,h.cut,h.pos,h.remain,h.calls,h.unmapped⟩
      (by omega) rfl hcut hsent (iff_of_false hflag hleft.ne)
  cases ev with
  | reset =>
    cases hst
    exact Or.inr (habort .eintr (by decide))
  | interrupt failed =>
    obtain ⟨-,hst⟩ := Option.ite_none_left_eq_some.mp hst
    cases hst
    unfold Ep2.intHndlr
    cases failed with
    | true => exact Or.inr (habort .eio (by decide))
    | false =>
      rw [if_neg Bool.false_ne_true]
      have hspan : span (e.sent ++ e.channel) = span e.sent + e.curdmalen := by
        rw [h.channel]
        exact span_append e.sent _
      have hsize := h.size
      have hremain := h.remain
      have hnext : Open txPktsize dma len { e with
          channel := []
          sent := e.sent ++ e.channel
          curdmapos := e.curdmapos + e.curdmalen
          remain := e.remain - e.curdmalen } := by
        refine ⟨h.base,h.whole,h.queued ▸ hcut,?_,?_,h.calls,h.unmapped⟩
        · simp only [hspan,h.pos,add_assoc]
        · simp only [hspan]
          omega
      dsimp only
      split_ifs with hr
      · refine Or.inl ⟨hnext.start (by simp only [hspan]; omega) rfl h.queued,?_⟩
        rw [sent_start]
        simp only [hspan]
        omega
      · exact Or.inr (hnext.done (by omega) rfl hcut (h.queued ▸ prefix_rfl)
          (iff_of_true rfl (by simp only [hspan]; omega)))

theorem Over.stepped (h : Over txPktsize dma len e) {ev : Event}
    (hst : step txPktsize e ev = some t) : Over txPktsize dma len t := by
  cases ev with
  | reset =>
    cases hst
    unfold Ep2.reset Ep2.done
    rw [if_pos h.closed]
    exact ⟨h.closed,rfl,h.queued,h.sent,h.unmapped,h.calls⟩
  | interrupt failed =>
    obtain ⟨hc,-⟩ := Option.ite_none_left_eq_some.mp hst
    exact absurd h.channel hc

theorem Busy.run (h : Busy txPktsize dma len e) (hpkt : 0 < txPktsize) {evs : List Event}
    (hr : run (step txPktsize) e evs = some t) :
    (Busy txPktsize dma len t ∧ span e.sent + evs.length ≤ span t.sent) ∨ Over txPktsize dma len t := by
  induction evs generalizing e with
  | nil =>
    cases hr
    exact Or.inl ⟨h,le_rfl⟩
  | cons ev evs ih =>
    obtain ⟨u,hu,hr⟩ := (run_cons_eq_some _).mp hr
    rcases h.stepped hpkt hu with ⟨hb,hlt⟩ | ho
    · refine (ih hb hr).imp_left fun hx => ⟨hx.1,?_⟩
      rw [length_cons]
      omega
    · exact Or.inr (invariant_of_step _ (fun _ _ _ h hst => Over.stepped h hst) ho hr)

/-- While a packet is outstanding nothing is called or released, and there are less events than
bytes; then the callback is called and the mapping released, once. -/
theorem usbSend_once {configured : Bool} {remain curdmapos curdmalen : ℕ} {evs : List Event}
    (hlen : 0 < len) (hpkt : 0 < txPktsize)
    (he : (idle remain curdmapos curdmalen).usbSend configured txPktsize dma len = .ok e)
    (hr : run (step txPktsize) e evs = some t) :
    Cut txPktsize dma len t.queued ∧ t.sent <+: t.queued ∧ t.channel.length ≤ 1 ∧
      ((t.channel ≠ [] ∧ t.calls = [] ∧ t.unmapped = [] ∧ evs.length < len) ∨
        (t.channel = [] ∧ t.unmapped = [(dma,len)] ∧ ∃ flag,
          t.calls = [(flag,(span t.sent : ℤ))] ∧ (flag = .ok ↔ Covers dma t.sent (dma + len)))) := by
  have hbusy : Busy txPktsize dma len e ∧ e.sent = [] := by
    cases configured with
    | false => cases he
    | true =>
      cases he
      exact ⟨Open.start ⟨rfl,rfl,cut_nil,rfl,rfl,rfl,rfl⟩ hlen rfl rfl,sent_start _ _⟩
  rcases hbusy.1.run hpkt hr with ⟨hb,hle⟩ | ho
  · have hleft := hb.left
    refine ⟨hb.cut_queued hpkt,hb.queued ▸ prefix_append _ _,?_,
      Or.inl ⟨?_,hb.calls,hb.unmapped,by omega⟩⟩
    · simp [hb.channel]
    · simp [hb.channel]
  · exact ⟨ho.queued,ho.sent,by simp [ho.channel],
      Or.inr ⟨ho.channel,ho.unmapped,ho.calls⟩⟩

theorem usbSend_once_failed :
    ∃ e t, (idle 0 0 0).usbSend true 2 100 5 = .ok e ∧
      run (step 2) e [.interrupt false,.interrupt false,.interrupt true] = some t ∧
      t.calls = [(.eio,4)] ∧ Cut 2 100 5 t.queued := by
  refine ⟨_,_,rfl,rfl,rfl,?_⟩
  exact (@usbSend_once 2 100 5 _ _ true 0 0 0 [.interrupt false,.interrupt false,.interrupt true]
    (by decide) (by decide) rfl rfl).1

end Simpad.UsbSend
