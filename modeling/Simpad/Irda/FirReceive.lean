import Simpad.Drivers.DmaPosition
import Simpad.Irda.Crc

namespace Simpad.Irda.Fir
open Dma Word List

def hpsirMaxRxlen : ℕ := 2047

/-- An entry of the FIFO: the byte and the bits that `HSSR1` shows for it. -/
structure Entry where
  data : Byte
  cre : Bool
  ror : Bool
  eof : Bool

/-- The byte is counted as an error and not stored. -/
def Entry.bad (e : Entry) : Bool := e.cre || e.ror

/-- The entry sets `HSSR0_EIF`. -/
def Entry.tagged (e : Entry) : Bool := e.bad || e.eof

/-- The loop of `sa1100_irda_fir_error`: what it stores, `len` and whether it ends with `HSSR1_EOF`. -/
def readFifo : ℕ → List Entry → List (ℕ × Byte) × ℕ × Bool
  | len, [] => ([],len,false)
  | len, e :: fifo =>
    let store := if e.bad then [] else [(len,e.data)]
    let next := if e.bad then len else u32 (len + 1)
    if e.eof || !fifo.any Entry.tagged then (store,next,e.eof)
    else (store ++ (readFifo next fifo).1,(readFifo next fifo).2)

/-- `sa1100_irda_fir_irq` with a receive buffer: the stores and the length of a frame passed up.  On
`HSSR0_FRE` or `HSSR0_RAB` it has the FIFO cleared. -/
def firIrq (dma : Chan) (rxbufDma : ℕ) (broken : Bool) (fifo : List Entry) :
    List (ℕ × Byte) × Option ℕ :=
  let fifo := if broken then [] else fifo
  if fifo.any Entry.tagged then
    let r := readFifo (sub32 dma.stop.getCurrent rxbufDma) fifo
    (r.1,if r.2.2 then some r.2.1 else none)
  else ([],none)

/-- The last entry of the FIFO, and no other, ends the frame. -/
def Ends : List Entry → Prop
  | [] => True
  | e :: fifo => (e.eof = true ↔ fifo = []) ∧ Ends fifo

def received (fifo : List Entry) : ℕ := fifo.countP fun e => !e.bad

variable {fifo : List Entry} {len rxbufDma : ℕ} {broken : Bool} {s : Chan}

theorem Ends.tagged (h : Ends fifo) (hne : fifo ≠ []) : fifo.any Entry.tagged = true := by
  induction fifo with
  | nil => exact absurd rfl hne
  | cons e fifo ih =>
    rw [any_cons,Bool.or_eq_true]
    by_cases hnil : fifo = []
    · exact Or.inl (by rw [Entry.tagged,h.1.mpr hnil,Bool.or_true])
    · exact Or.inr (ih h.2 hnil)

theorem readFifo_eq (h : Ends fifo) (hne : fifo ≠ []) (hlen : len < 4294967296) :
    (readFifo len fifo).1.map Prod.fst = (List.range (received fifo)).map (fun i => u32 (len + i)) ∧
      (readFifo len fifo).2 = (u32 (len + received fifo),true) := by
  induction fifo generalizing len with
  | nil => exact absurd rfl hne
  | cons e fifo ih =>
    have hnext : u32 (len + 1) < 4294967296 := u32_lt _
    have hu : ∀ i, u32 (u32 (len + 1) + i) = u32 (len + (i + 1)) := by
      intro i
      rw [u32,u32,Nat.mod_add_mod,add_assoc,add_comm 1]
      rfl
    unfold received
    rw [readFifo,countP_cons]
    by_cases hnil : fifo = []
    · subst hnil
      rw [h.1.mpr rfl]
      cases e.bad with
      | false => simp [u32_of_lt hlen]
      | true => simp [u32_of_lt hlen]
    · have heof : e.eof = false := Bool.eq_false_iff.mpr fun he => hnil (h.1.mp he)
      rw [heof,h.2.tagged hnil]
      cases e.bad with
      | false =>
        obtain ⟨hst,hend⟩ := ih h.2 hnil hnext
        simp [hst,hend,hu,range_succ_eq_map,u32_of_lt hlen,received]
      | true =>
        obtain ⟨hst,hend⟩ := ih h.2 hnil hlen
        simp [hst,hend,received]

/-- The stores stay in the receive area, and a frame passed up has `n` bytes. -/
def Inside (r : List (ℕ × Byte) × Option ℕ) (n : ℕ) : Prop :=
  (∀ x ∈ r.1, x.1 < hpsirMaxRxlen) ∧ ∀ len, r.2 = some len → len = n

theorem inside_iff {n pos : ℕ} (hends : Ends fifo) (hne : fifo ≠ [])
    (hpos : sub32 s.stop.getCurrent rxbufDma = pos) :
    Inside (firIrq s rxbufDma false fifo) n ↔
      (∀ i < received fifo, u32 (pos + i) < hpsirMaxRxlen) ∧ u32 (pos + received fifo) = n := by
  have hlt : pos < 4294967296 := hpos ▸ u32_lt _
  obtain ⟨hst,hend⟩ := readFifo_eq hends hne hlt
  have hirq : firIrq s rxbufDma false fifo =
      ((readFifo pos fifo).1,some (u32 (pos + received fifo))) := by
    simp only [firIrq,Bool.false_eq_true,if_false,hends.tagged hne,if_true,hpos,hend]
  have hfst : (∀ x ∈ (readFifo pos fifo).1, x.1 < hpsirMaxRxlen) ↔
      ∀ i < received fifo, u32 (pos + i) < hpsirMaxRxlen := by
    rw [← forall_mem_map (P := fun i => i < hpsirMaxRxlen),hst,forall_mem_map]
    simp only [mem_range]
  rw [hirq,Inside,hfst]
  exact and_congr_right fun _ => ⟨fun h => h _ rfl,fun h len hl => (Option.some.inj hl).symm.trans h⟩

/-- The frame has to fit, and the interrupt of a full buffer must not be handled before; the last case
is a buffer at the end of the address space, which has the right distance to the position 0. -/
theorem firIrq_inside_iff (hs : Filling rxbufDma hpsirMaxRxlen s)
    (hdma : rxbufDma + hpsirMaxRxlen ≤ 4294967296) (hends : Ends fifo) :
    Inside (firIrq s rxbufDma broken fifo) (s.moved.length + received fifo) ↔
      broken = true ∨ fifo = [] ∨ (s.moved.length + received fifo ≤ hpsirMaxRxlen ∧
        (s.called = [] ∨ rxbufDma + hpsirMaxRxlen = 4294967296)) := by
  have hnone : ∀ n, Inside ([],none) n := fun n =>
    ⟨fun x hx => absurd hx not_mem_nil,fun len hl => (nomatch hl)⟩
  cases broken with
  | true => exact iff_of_true (hnone _) (Or.inl rfl)
  | false =>
    by_cases hne : fifo = []
    · subst hne
      exact iff_of_true (hnone _) (Or.inr (Or.inl rfl))
    obtain ⟨hle,hknown,hlost⟩ := hs.distance (by unfold hpsirMaxRxlen at hdma; omega) (by decide)
    unfold hpsirMaxRxlen at *
    simp only [hne,Bool.false_eq_true,false_or]
    by_cases hc : s.called = []
    · rw [inside_iff hends hne (hknown hc),hpsirMaxRxlen]
      simp only [hc,true_or,and_true]
      refine ⟨fun h => ?_,fun h => ⟨fun i hi => ?_,u32_of_lt (by omega)⟩⟩
      · -- the first store behind the area has the index 2047
        by_contra hn
        have h1 := h.1 (2047 - s.moved.length) (by omega)
        rw [Nat.add_sub_cancel' hle] at h1
        exact absurd h1 (by decide)
      · rw [u32_of_lt (by omega)]
        omega
    · obtain ⟨hfull,hcur⟩ := hlost hc
      rw [inside_iff hends hne hcur,hpsirMaxRxlen,hfull]
      simp only [hc,false_or]
      unfold u32
      constructor
      · rintro ⟨hstores,hend⟩
        have hzero : received fifo = 0 := by
          by_contra hn
          have h0 := hstores 0 (Nat.pos_of_ne_zero hn)
          omega
        omega
      · rintro ⟨hfits,hend⟩
        refine ⟨fun i hi => ?_,?_⟩ <;> omega

theorem firIrq_inside_end :
    ∃ s, Filling 4096 hpsirMaxRxlen s ∧ s.moved.length = 0 ∧
      Inside (firIrq s 4096 false [⟨7,false,false,true⟩]) 1 := by
  have hs : Filling 4096 hpsirMaxRxlen _ := ⟨false,[],fun o ho => absurd ho not_mem_nil,rfl⟩
  have hends : Ends [⟨7,false,false,true⟩] := ⟨iff_of_true rfl rfl,trivial⟩
  exact ⟨_,hs,rfl,(firIrq_inside_iff hs (by decide) hends).mpr (Or.inr (Or.inr ⟨by decide,Or.inl rfl⟩))⟩

/-- A frame of 2048 bytes, where the interrupt of the full buffer was handled first. -/
theorem firIrq_spills :
    ∃ s, Filling 4096 hpsirMaxRxlen s ∧ s.moved.length = hpsirMaxRxlen ∧
      ∃ x ∈ (firIrq s 4096 false [⟨7,false,false,true⟩]).1, hpsirMaxRxlen ≤ x.1 := by
  obtain ⟨s,hs,hc⟩ := exists_full 4096 hpsirMaxRxlen
  obtain ⟨-,-,hlost⟩ := hs.distance (by decide) (by decide)
  obtain ⟨hfull,hcur⟩ := hlost hc
  refine ⟨s,hs,hfull,(4294963200,7),?_,by decide⟩
  have hirq : firIrq s 4096 false [⟨7,false,false,true⟩] =
      ([(sub32 s.stop.getCurrent 4096,7)],some (u32 (sub32 s.stop.getCurrent 4096 + 1))) := by
    simp [firIrq,readFifo,Entry.tagged,Entry.bad]
  rw [hirq,hcur,mem_singleton]

end Simpad.Irda.Fir
