import Simpad.Drivers.UsbChar

namespace Simpad.UsbChar
open CircBuf List Runs

/-- The bytes the reader has taken off the ring and not yet returned. -/
def Reader.taken : Reader → List Byte
  | .second _ before _ => before
  | .kick (.ret got) => got
  | .request (.ret got) _ => got
  | _ => []

/-- A callback between the two halves of `kick_start_rx` leaves room for one more packet. -/
def Safe (s : State) : Action → Prop
  | .rx _ packet =>
    match s.reader with
    | .request _ true => rxPacketSize + packet.length ≤ s.space
    | _ => True
  | _ => True

def Reader.Good (s : State) : Reader → Prop
  | .idle => rxPacketSize ≤ s.space → s.outstanding
  | .waiting _ => rxPacketSize ≤ s.space → s.outstanding
  | .first n rest got => n + rest ≤ s.contents.length ∧ s.outPos + n ≤ rbufSize ∧
      (rest ≠ 0 → s.outPos + n = rbufSize) ∧ got.length ≤ n ∧ got = s.contents.take got.length
  | .second n _ got => n ≤ s.contents.length ∧ s.outPos + n < rbufSize ∧ got.length ≤ n ∧
      got = s.contents.take got.length
  | .kick _ => True
  | .request _ true => s.outstanding ∨ rxPacketSize ≤ s.space
  | .request _ false => s.space < rxPacketSize

structure State.Good (s : State) : Prop where
  inLt : s.inPos < rbufSize
  outLt : s.outPos < rbufSize
  stream : s.received = s.returned ++ s.reader.taken ++ s.contents
  room : s.outstanding → rxPacketSize ≤ s.space
  noError : s.lastRxResult = none
  reader : s.reader.Good s

theorem State.Good.length_contents {s : State} (h : s.Good) :
    s.space = rbufSize - 1 - s.contents.length := by
  rw [State.contents,CircBuf.length_contents]
  exact space_eq h.inLt h.outLt

theorem State.kickStartRx_eq (s : State) :
    s.kickStartRx = { s with outstanding := s.outstanding || decide (rxPacketSize ≤ s.space) } := by
  unfold State.kickStartRx
  split
  · next h => rw [decide_eq_true h,Bool.or_true]; rfl
  · next h => rw [decide_eq_false h,Bool.or_false]

theorem State.rxDone_spec {s : State} (hin : s.inPos < rbufSize) (hout : s.outPos < rbufSize)
    {flag : Flag} (hf : flag = .ok ∨ flag = .epipe) {packet : List Byte}
    (hp : packet.length ≤ s.space) :
    ∃ buf inPos, inPos < rbufSize ∧ CircBuf.contents rbufSize buf inPos s.outPos = s.contents ++ packet ∧
      s.rxDone flag packet =
        State.kickStartRx { s with buf := buf, inPos := inPos, lastRxResult := none } := by
  obtain ⟨hc,-⟩ := @contents_blit_blit _ rbufSize s.inPos s.outPos s.buf packet hin hout hp _ rfl
  refine ⟨_,_,Nat.mod_lt _ (by decide),hc,?_⟩
  rcases hf with rfl | rfl <;> rfl

theorem Reader.Good.rx {s t : State} {r : Reader} (h : r.Good s) (hout : t.outPos = s.outPos)
    {packet : List Byte} (hc : t.contents = s.contents ++ packet)
    (hroom : rxPacketSize ≤ s.space) (hnext : rxPacketSize ≤ t.space → t.outstanding)
    (hsafe : ∀ after, r = .request after true → rxPacketSize ≤ t.space) : r.Good t := by
  have hlen : s.contents.length ≤ t.contents.length := by
    grind
  cases r with
  | idle => exact hnext
  | waiting count => exact hnext
  | first n rest got =>
    obtain ⟨hn,hend,hrest,hle,hgot⟩ := h
    refine ⟨hn.trans hlen,hout ▸ hend,hout ▸ hrest,hle,?_⟩
    grind
  | second n before got =>
    obtain ⟨hn,hend,hle,hgot⟩ := h
    refine ⟨hn.trans hlen,hout ▸ hend,hle,?_⟩
    grind
  | kick after => trivial
  | request after room =>
    cases room with
    | true => exact Or.inr (hsafe after rfl)
    | false => exact absurd hroom (not_le.mpr h)

theorem State.Good.rx {s t : State} (h : s.Good) {flag : Flag} {packet : List Byte}
    (hsafe : Safe s (.rx flag packet)) (hstep : step s (.rx flag packet) = some t) : t.Good := by
  rw [step,Option.ite_none_right_eq_some] at hstep
  obtain ⟨⟨hs,hf,hp⟩,hstep⟩ := hstep
  have hroom := h.room hs
  obtain ⟨buf,inPos,hin,hc,hrx⟩ := @State.rxDone_spec
    { s with outstanding := false, received := s.received ++ packet } h.inLt h.outLt flag hf packet
    (hp.trans hroom)
  rw [hrx,State.kickStartRx_eq,Bool.false_or] at hstep
  cases hstep
  have hc : CircBuf.contents rbufSize buf inPos s.outPos = s.contents ++ packet := hc
  have hspace : CircBuf.space rbufSize inPos s.outPos = s.space - packet.length := by
    rw [space_eq hin h.outLt,← @CircBuf.length_contents _ rbufSize inPos s.outPos buf,hc,
      length_append,h.length_contents,Nat.sub_sub]
    omega
  refine ⟨hin,h.outLt,?_,of_decide_eq_true,rfl,?_⟩
  · show s.received ++ packet =
      s.returned ++ s.reader.taken ++ CircBuf.contents rbufSize buf inPos s.outPos
    rw [hc,h.stream,append_assoc]
  · refine h.reader.rx rfl hc hroom decide_eq_true fun after hr => ?_
    show rxPacketSize ≤ CircBuf.space rbufSize inPos s.outPos
    have hsafe : rxPacketSize + packet.length ≤ s.space := by
      rw [Safe,hr] at hsafe
      exact hsafe
    omega

theorem State.copy_next {s : State} {got : List Byte} (hgot : got = s.contents.take got.length)
    (hk : got.length < s.contents.length) (hend : s.outPos + got.length < rbufSize) :
    let next := got ++ [s.buf (s.outPos + got.length)]
    next = s.contents.take next.length := by
  have hlt : got.length < cnt rbufSize s.inPos s.outPos := by
    rwa [State.contents,CircBuf.length_contents] at hk
  intro next
  rw [length_append,length_singleton,take_add_one,← hgot,State.contents,
    getElem?_contents hlt,Nat.mod_eq_of_lt hend]
  rfl

theorem State.Good.drop {s : State} (h : s.Good) {n : ℕ} (hn : n ≤ s.contents.length) :
    CircBuf.contents rbufSize s.buf s.inPos ((s.outPos + n) % rbufSize) = s.contents.drop n := by
  rw [State.contents,CircBuf.length_contents] at hn
  exact contents_drop h.inLt h.outLt hn

theorem State.Good.space_le_drop {s : State} (h : s.Good) {n : ℕ} (hn : n ≤ s.contents.length) :
    s.space ≤ CircBuf.space rbufSize s.inPos ((s.outPos + n) % rbufSize) := by
  rw [State.contents,CircBuf.length_contents] at hn
  rw [space_eq h.inLt (Nat.mod_lt _ (by decide)),cnt_drop h.inLt h.outLt hn,State.space,
    space_eq h.inLt h.outLt]
  omega

theorem State.Good.snapshot {s : State} (h : s.Good) {count : ℕ} (hr : s.reader = .waiting count)
    (giveUp : Bool) : (s.snapshot count giveUp).Good := by
  have hreader := h.reader
  have hstream := h.stream
  rw [hr] at hreader hstream
  have hidle : State.Good { s with reader := .idle } :=
    ⟨h.inLt,h.outLt,hstream,h.room,h.noError,hreader⟩
  unfold State.snapshot
  dsimp only
  split
  · split
    · refine ⟨h.inLt,h.outLt,hstream,h.room,h.noError,?_⟩
      have hto := cntToEnd_eq h.inLt h.outLt
      have hlen : s.contents.length = cnt rbufSize s.inPos s.outPos := CircBuf.length_contents
      have hout := h.outLt
      refine ⟨?_,?_,fun hrest => ?_,Nat.zero_le _,rfl⟩
      · show _ ≤ s.contents.length
        omega
      · grind
      · grind
    · exact hidle
  · grind

theorem State.Good.goFirst {s : State} (h : s.Good) {n rest : ℕ} {got : List Byte}
    (hr : s.reader = .first n rest got) (giveUp : Bool) : (s.go giveUp).Good := by
  have hreader := h.reader
  have hstream := h.stream
  have hin := h.inLt
  have hout := h.outLt
  unfold State.go
  rw [hr] at hreader hstream ⊢
  have hstream : s.received = s.returned ++ [] ++ s.contents := hstream
  obtain ⟨hn,hend,hrest,hle,hgot⟩ := hreader
  dsimp only
  split
  · next hlt =>
    refine ⟨hin,hout,hstream,h.room,h.noError,hn,hend,hrest,?_,
      State.copy_next hgot (by omega) (by omega)⟩
    rw [length_append]
    exact hlt
  · next hlt =>
    have hlen : got.length = n := by omega
    have hd := h.drop (n := n) (by omega)
    refine ⟨hin,Nat.mod_lt _ (by decide),?_,fun ho => (h.room ho).trans (h.space_le_drop (by omega)),
      h.noError,?_,?_,Nat.zero_le _,rfl⟩
    · show s.received = s.returned ++ got ++ CircBuf.contents rbufSize s.buf s.inPos _
      rw [hd,hgot,hlen,append_assoc,take_append_drop,hstream,append_nil]
    · show rest ≤ (CircBuf.contents rbufSize s.buf s.inPos _).length
      rw [hd,length_drop]
      omega
    · -- the second piece starts at the beginning of the ring
      show (s.outPos + n) % rbufSize + rest < rbufSize
      rcases Nat.eq_zero_or_pos rest with hz | hpos
      · rw [hz]
        exact Nat.mod_lt _ (by decide)
      · have hlt : s.contents.length < rbufSize := CircBuf.length_contents ▸ cnt_lt hout
        rw [hrest hpos.ne',Nat.mod_self]
        omega

theorem State.Good.goSecond {s : State} (h : s.Good) {n : ℕ} {before got : List Byte}
    (hr : s.reader = .second n before got) (giveUp : Bool) : (s.go giveUp).Good := by
  have hreader := h.reader
  have hstream := h.stream
  have hin := h.inLt
  have hout := h.outLt
  unfold State.go
  rw [hr] at hreader hstream ⊢
  obtain ⟨hn,hend,hle,hgot⟩ := hreader
  dsimp only
  split
  · next hlt =>
    refine ⟨hin,hout,hstream,h.room,h.noError,hn,hend,?_,
      State.copy_next hgot (by omega) (by omega)⟩
    grind
  · next hlt =>
    have hlen : got.length = n := by omega
    have hd := h.drop hn
    have hroom := h.space_le_drop hn
    rw [Nat.mod_eq_of_lt hend] at hd hroom
    refine ⟨hin,hend,?_,fun ho => (h.room ho).trans hroom,h.noError,trivial⟩
    show s.received = s.returned ++ (before ++ got) ++ CircBuf.contents rbufSize s.buf s.inPos _
    rw [hd,hgot,hlen,append_assoc,append_assoc,take_append_drop,hstream,
      Reader.taken,append_assoc]

theorem State.Good.go {s : State} (h : s.Good) (giveUp : Bool) : (s.go giveUp).Good := by
  have hreader := h.reader
  have hstream := h.stream
  have hin := h.inLt
  have hout := h.outLt
  cases hr : s.reader with
  | idle =>
    rw [State.go,hr]
    exact h
  | waiting count =>
    rw [State.go,hr]
    exact h.snapshot hr giveUp
  | first n rest got => exact h.goFirst hr giveUp
  | second n before got => exact h.goSecond hr giveUp
  | kick after =>
    rw [State.go,hr]
    rw [hr] at hstream
    by_cases hroom : rxPacketSize ≤ s.space
    · rw [decide_eq_true hroom]
      refine ⟨hin,hout,?_,h.room,h.noError,Or.inr hroom⟩
      cases after <;> exact hstream
    · rw [decide_eq_false hroom]
      refine ⟨hin,hout,?_,h.room,h.noError,not_le.mp hroom⟩
      cases after <;> exact hstream
  | request after room =>
    rw [State.go,hr]
    rw [hr] at hreader hstream
    cases room with
    | true =>
      have hroom := hreader.elim h.room id
      cases after with
      | wait count => exact ⟨hin,hout,hstream,fun _ => hroom,h.noError,fun _ => rfl⟩
      | ret got =>
        refine ⟨hin,hout,?_,fun _ => hroom,h.noError,fun _ => rfl⟩
        exact hstream.trans (append_nil (s.returned ++ got) ▸ rfl)
    | false =>
      have hfull := not_le.mpr hreader
      cases after with
      | wait count => exact ⟨hin,hout,hstream,h.room,h.noError,fun hle => absurd hle hfull⟩
      | ret got =>
        refine ⟨hin,hout,?_,h.room,h.noError,fun hle => absurd hle hfull⟩
        exact hstream.trans (append_nil (s.returned ++ got) ▸ rfl)

theorem State.Good.read {s t : State} (h : s.Good) {count : ℕ}
    (hstep : step s (.read count) = some t) : t.Good := by
  have hreader := h.reader
  have hstream := h.stream
  cases hr : s.reader with
  | idle =>
    rw [hr] at hreader hstream
    simp only [step,hr,h.noError,if_true] at hstep
    cases hstep
    exact ⟨h.inLt,h.outLt,hstream,h.room,rfl,hreader⟩
  | _ =>
    simp only [step,hr] at hstep
    cases hstep

theorem State.Good.step {s t : State} (h : s.Good) {a : Action} (hsafe : Safe s a)
    (hstep : step s a = some t) : t.Good := by
  cases a with
  | rx flag packet => exact h.rx hsafe hstep
  | read count => exact h.read hstep
  | go giveUp =>
    cases hstep
    exact h.go giveUp

theorem opened_good : opened.Good where
  inLt := by decide
  outLt := by decide
  stream := rfl
  room _ := by decide
  noError := rfl
  reader _ := rfl

/-- As long as no callback makes the count of free bytes wrong, what was received is what reads have
returned, what the reader is about to return and what is in the ring; and a receive is outstanding
when no read is going on and there is room for a packet. -/
theorem stream_of_safe {as : List Action} {s : State} (hm : Meets step Safe opened as)
    (hr : run step opened as = some s) :
    s.received = s.returned ++ s.reader.taken ++ s.contents ∧
      (s.reader = .idle → rxPacketSize ≤ s.space → s.outstanding) := by
  have hg : s.Good := invariant step (fun _ _ _ h hs => h.step hs) opened_good hm hr
  refine ⟨hg.stream,fun hidle => ?_⟩
  have hreader := hg.reader
  rw [hidle] at hreader
  exact hreader

theorem stream_of_safe_read : ∃ s, run step opened
      ([.rx .epipe [1,2,3],.read 2] ++ replicate 7 (.go false)) = some s ∧
    s.returned = [1,2] ∧ s.received = s.returned ++ s.reader.taken ++ s.contents := by
  have hm : Meets step Safe opened
      ([.rx .epipe [1,2,3],.read 2] ++ replicate 7 (.go false)) :=
    ⟨trivial,fun _ _ => ⟨trivial,fun _ _ => Meets.of_mem step fun a ha s => by
      rw [eq_of_mem_replicate ha]
      trivial⟩⟩
  obtain ⟨s,hs⟩ : ∃ s, run step opened
      ([.rx .epipe [1,2,3],.read 2] ++ replicate 7 (.go false)) = some s := ⟨_,rfl⟩
  refine ⟨s,hs,?_,(stream_of_safe hm hs).1⟩
  cases hs
  rfl

/-- `rx_ring.in` after a packet of `size` bytes. -/
def nextIn (inPos outPos size : ℕ) : ℕ :=
  ((inPos + min (spaceToEnd rbufSize inPos outPos) size) % rbufSize +
    (size - min (spaceToEnd rbufSize inPos outPos) size)) % rbufSize

section
variable {buf : ℕ → Byte} {inPos inPos' outPos outPos' : ℕ} {received returned : List Byte}
  {reader : Reader}

/-- A callback moves `rx_ring.in` on, whether there is room for the packet or not. -/
theorem step_rx {flag : Flag} {packet : List Byte} {out : Bool} (hf : flag = .ok ∨ flag = .epipe)
    (hp : packet.length ≤ rxPacketSize) (hin : nextIn inPos outPos packet.length = inPos')
    (ho : decide (rxPacketSize ≤ CircBuf.space rbufSize inPos' outPos) = out) :
    ∃ buf' received', received'.length = received.length + packet.length ∧
      step ⟨buf,inPos,outPos,true,none,reader,received,returned⟩ (.rx flag packet) =
        some ⟨buf',inPos',outPos,out,none,reader,received',returned⟩ := by
  subst hin ho
  rw [step,if_pos ⟨rfl,hf,hp⟩]
  rcases hf with rfl | rfl
  · exact ⟨_,_,length_append,congrArg some (State.kickStartRx_eq _)⟩
  · exact ⟨_,_,length_append,congrArg some (State.kickStartRx_eq _)⟩

theorem run_readOne {room : Bool} (hc : 1 ≤ cnt rbufSize inPos outPos)
    (hto : 1 ≤ cntToEnd rbufSize inPos outPos) (ho : (outPos + 1) % rbufSize = outPos')
    (hroom : decide (rxPacketSize ≤ CircBuf.space rbufSize inPos outPos') = room) :
    run step ⟨buf,inPos,outPos,true,none,.idle,received,returned⟩
        [.read 1,.go false,.go false,.go false,.go false,.go false] =
      some ⟨buf,inPos,outPos',true,none,.request (.ret [buf outPos]) room,received,returned⟩ := by
  have hmove := min_eq_left hc
  have hfirst := min_eq_right hto
  have hc' : cnt rbufSize inPos outPos ≠ 0 := by omega
  subst ho hroom
  let at' (outPos : ℕ) (reader : Reader) : State :=
    ⟨buf,inPos,outPos,true,none,reader,received,returned⟩
  let out := (outPos + 1) % rbufSize
  have h₁ : step (at' outPos .idle) (.read 1) = some (at' outPos (.waiting 1)) := rfl
  have h₂ : step (at' outPos (.waiting 1)) (.go false) = some (at' outPos (.first 1 0 [])) := by
    change some (State.snapshot (at' outPos (.waiting 1)) 1 false) = _
    rw [State.snapshot]
    grind
  have h₃ : step (at' outPos (.first 1 0 [])) (.go false) =
    some (at' outPos (.first 1 0 [buf outPos])) := rfl
  have h₄ : step (at' outPos (.first 1 0 [buf outPos])) (.go false) =
    some (at' out (.second 0 [buf outPos] [])) := rfl
  have h₅ : step (at' out (.second 0 [buf outPos] [])) (.go false) =
    some (at' out (.kick (.ret [buf outPos]))) := rfl
  have h₆ : step (at' out (.kick (.ret [buf outPos]))) (.go false) =
    some (at' out (.request (.ret [buf outPos]) (rxPacketSize ≤ (at' out .idle).space))) := rfl
  change run step (at' outPos .idle) _ = _
  simp only [run,h₁,h₂,h₃,h₄,h₅,h₆,Option.bind_some]
  rfl

end

abbrev fullPacket : Action := .rx .ok (replicate 64 0)

theorem space_zero {n : ℕ} (hn : n < rbufSize) : CircBuf.space rbufSize n 0 = rbufSize - 1 - n := by
  rw [space_eq hn (by decide),cnt_eq hn (by decide),if_pos (Nat.zero_le _),Nat.sub_zero]

theorem run_fullPackets {k : ℕ} (hk : k ≤ 254) :
    ∃ buf received, received.length = 64 * k ∧
      run step opened (replicate k fullPacket) =
        some ⟨buf,64 * k,0,true,none,.idle,received,[]⟩ := by
  induction k with
  | zero => exact ⟨_,[],rfl,rfl⟩
  | succ k ih =>
    obtain ⟨buf,received,hlen,hr⟩ := ih (by omega)
    have hsize : rbufSize = 16384 := rfl
    have hin : 64 * k < rbufSize := by omega
    have hto : min (spaceToEnd rbufSize (64 * k) 0) 64 = 64 := by
      rw [spaceToEnd_eq hin (by decide),space_zero hin]
      omega
    have hnext : nextIn (64 * k) 0 64 = 64 * (k + 1) := by
      rw [nextIn,hto,hsize]
      omega
    have hroom : 64 ≤ CircBuf.space rbufSize (64 * (k + 1)) 0 := by
      rw [space_zero (by omega)]
      omega
    obtain ⟨buf',received',hlen',hs⟩ := @step_rx buf _ _ 0 received [] .idle .ok
      (replicate 64 0) _ (Or.inl rfl) (by decide) hnext (decide_eq_true hroom)
    refine ⟨buf',received',?_,?_⟩
    · grind
    · rw [replicate_succ',run_append,hr,Option.bind_some,run,hs]
      rfl

/-- With the ring nearly full a packet comes between the two halves of `kick_start_rx`: the next one
goes over bytes that have not been read. -/
theorem stream_overwritten : ∃ s, run step opened (replicate 254 fullPacket ++
      .rx .epipe (replicate 10 0) ::
        ([.read 1,.go false,.go false,.go false,.go false,.go false] ++
          [fullPacket,.go false,fullPacket])) = some s ∧
    s.received.length = 16394 ∧ s.returned.length = 1 ∧ s.reader = .idle ∧ s.contents.length = 9 := by
  obtain ⟨buf,received,hlen,hr⟩ := run_fullPackets (le_refl 254)
  obtain ⟨b₁,r₁,hl₁,h₁⟩ := @step_rx buf (64 * 254) 16266 0 received [] .idle .epipe
    (replicate 10 0) true (Or.inr rfl) (by decide) (by decide +kernel) (by decide +kernel)
  have hread := @run_readOne b₁ 16266 0 1 r₁ [] true (by decide +kernel) (by decide +kernel)
    (by decide) (by decide +kernel)
  -- 118 bytes are free when the reader counts them, 54 when it starts the receive
  obtain ⟨b₂,r₂,hl₂,h₂⟩ := @step_rx b₁ 16266 16330 1 r₁ [] (.request (.ret [b₁ 0]) true) .ok
    (replicate 64 0) false (Or.inl rfl) (by decide) (by decide +kernel) (by decide +kernel)
  have hgo : step ⟨b₂,16330,1,false,none,.request (.ret [b₁ 0]) true,r₂,[]⟩ (.go false) =
    some ⟨b₂,16330,1,true,none,.idle,r₂,[b₁ 0]⟩ := rfl
  obtain ⟨b₃,r₃,hl₃,h₃⟩ := @step_rx b₂ 16330 10 1 r₂ [b₁ 0] .idle .ok (replicate 64 0) true
    (Or.inl rfl) (by decide) (by decide +kernel) (by decide +kernel)
  refine ⟨⟨b₃,10,1,true,none,.idle,r₃,[b₁ 0]⟩,?_,?_,rfl,rfl,?_⟩
  · rw [run_append,hr,Option.bind_some,run,h₁,Option.bind_some,run_append,hread]
    simp only [run,h₂,hgo,h₃,Option.bind_some]
  · simp only [hl₃,hl₂,hl₁,hlen,length_replicate]
  · rw [State.contents,CircBuf.length_contents]
    show cnt rbufSize 10 1 = 9
    decide +kernel

end Simpad.UsbChar
