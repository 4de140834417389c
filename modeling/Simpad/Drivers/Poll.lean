import Simpad.Drivers.UsbSend

namespace Simpad.UsbChar
open CircBuf List Runs
open UsbSend (Ep2)

/-- `POLLIN` of `rtc_poll`. -/
def rtcPoll (rtcIrqData : BitVec 32) : Bool := if rtcIrqData ≠ 0 then false else true

/-- What `rtc_read` returns with `O_NONBLOCK`; `data` is `rtc_irq_data` as it was, to which the periods
missed are added. -/
inductive RtcRead
  | einval
  | eagain
  | data (rtcIrqData : BitVec 32)
deriving DecidableEq

/-- `rtc_read` with `O_NONBLOCK`. -/
def rtcRead (rtcIrqData : BitVec 32) (count : ℕ) : RtcRead :=
  if count < 4 then .einval else if rtcIrqData ≠ 0 then .data rtcIrqData else .eagain

/-- `POLLIN` and `POLLOUT` of `usbc_poll`. -/
def usbcPoll (s : State) (e : Ep2) (configured : Bool) : Bool × Bool :=
  (cnt rbufSize s.inPos s.outPos ≠ 0,e.xmitterAvail configured ≠ 0)

def Reader.Before : Reader → Prop
  | .idle | .waiting _ | .kick (.wait _) | .request (.wait _) _ => True
  | _ => False

structure Dry (returned : List Byte) (s : State) : Prop where
  cnt : CircBuf.cnt rbufSize s.inPos s.outPos = 0
  returned : s.returned = returned
  reader : s.reader.Before

variable {s t : State} {returned : List Byte} {count n : ℕ}

theorem Dry.go (h : Dry returned s) : Dry returned (s.go true) := by
  obtain ⟨hcnt,hret,hreader⟩ := h
  unfold State.go
  cases hr : s.reader with
  | idle => exact ⟨hcnt,hret,hreader⟩
  | waiting count =>
    simp only [State.snapshot,hcnt,ne_eq,not_true_eq_false,if_false,or_true,if_true]
    exact ⟨hcnt,hret,trivial⟩
  | first | second =>
    rw [hr] at hreader
    exact hreader.elim
  | kick after =>
    cases after with
    | wait count => exact ⟨hcnt,hret,trivial⟩
    | ret got =>
      rw [hr] at hreader
      exact hreader.elim
  | request after room =>
    cases after with
    | wait count => cases room <;> exact ⟨hcnt,hret,trivial⟩
    | ret got =>
      rw [hr] at hreader
      exact hreader.elim

theorem returned_of_empty (hs : s.reader = .idle) (hcnt : cnt rbufSize s.inPos s.outPos = 0)
    (hr : run step s (.read count :: replicate n (.go true)) = some t) :
    t.returned = s.returned := by
  obtain ⟨u,hu,hr⟩ := (run_cons_eq_some step).mp hr
  have hdry : Dry s.returned u := by
    simp only [step,hs] at hu
    split_ifs at hu <;> cases hu <;> exact ⟨hcnt,rfl,trivial⟩
  have hm : Meets step (fun _ a => a = .go true) u (replicate n (.go true)) :=
    Meets.of_mem step fun a ha _ => eq_of_mem_replicate ha
  refine (invariant step (fun v a w hv ha hw => ?_) hdry hm hr).returned
  subst ha
  cases hw
  exact hv.go

/-- `rtc_poll` tests the wrong way round, and `usbc_poll` takes an answer of 0, which means that the
transmitter is free, for no. -/
theorem poll_agrees_iff (rtcIrqData : BitVec 32) (rtcCount : ℕ) (s : State) (e : Ep2)
    (configured : Bool) (txPktsize dma len : ℕ) :
    ((rtcPoll rtcIrqData = true ↔ rtcRead rtcIrqData rtcCount ≠ .eagain) ↔
        rtcCount < 4 ∧ rtcIrqData = 0) ∧
      (∀ count n t, s.reader = .idle →
        run step s (.read count :: replicate n (.go true)) = some t →
        t.returned ≠ s.returned → (usbcPoll s e configured).1 = true) ∧
      (((usbcPoll s e configured).2 = true ↔
        ∃ e', e.usbSend configured txPktsize dma len = .ok e') ↔ False) := by
  refine ⟨?_,fun count n t hs hr hne => ?_,?_⟩
  · unfold rtcPoll rtcRead
    grind
  · exact decide_eq_true fun hcnt => hne (returned_of_empty hs hcnt hr)
  · unfold usbcPoll Ep2.xmitterAvail Ep2.usbSend
    cases configured <;> by_cases hl : e.len = 0 <;> simp [hl,UsbSend.Refusal.code]

/-- Right after opening the devices. -/
theorem poll_disagrees :
    rtcPoll 0 = true ∧ rtcRead 0 4 = .eagain ∧
      (usbcPoll opened (UsbSend.idle 0 0 0) true).2 = false ∧
      ∃ e', (UsbSend.idle 0 0 0).usbSend true 64 4096 1 = .ok e' :=
  ⟨rfl,rfl,rfl,_,rfl⟩

end Simpad.UsbChar
