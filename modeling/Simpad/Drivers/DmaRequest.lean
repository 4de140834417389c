import Simpad.Base.ListAt
import Simpad.Base.Runs

namespace Simpad.DmaTable
open ListAt List

/-- An entry of `dma_chan`: what requesting a channel reads and writes. -/
structure Channel where
  inUse : Bool
  deviceId : String
  device : BitVec 32
  callback : Option ℕ
  spinSize : ℕ
  dcsr : BitVec 32
  ddar : BitVec 32
  deriving DecidableEq

def eBusy : ℤ := 16

def eNosr : ℤ := 63

/-- `DCSR_DONEA | DCSR_DONEB | DCSR_STRTA | DCSR_STRTB | DCSR_IE | DCSR_ERROR | DCSR_RUN`. -/
def dcsrAll : BitVec 32 := 0x7f

/-- The loop over the channels, with `dma` the first free one before `i`; none for `-EBUSY`. -/
def search (device : BitVec 32) : ℕ → Option ℕ → List Channel → Option (Option ℕ)
  | _, dma, [] => some dma
  | i, dma, c :: cs =>
    if c.inUse then
      if c.device = device then none else search device (i + 1) dma cs
    else search device (i + 1) (dma.or (some i)) cs

def Channel.claim (c : Channel) : Channel := { c with inUse := true }

def Channel.attach (deviceId : String) (device : BitVec 32) (c : Channel) : Channel :=
  { c with
    deviceId := deviceId
    device := device
    callback := none
    spinSize := 0
    dcsr := c.dcsr &&& ~~~dcsrAll
    ddar := device }

/-- What a request returns, stores in `*channel` and makes of the table. -/
structure Reply where
  ret : ℤ
  channel : ℤ
  table : List Channel
  deriving DecidableEq

/-- `sa1100_request_dma`; `irq` is what `request_irq` returns. -/
def requestDma (table : List Channel) (deviceId : String) (device : BitVec 32) (irq : ℤ) : Reply :=
  match search device 0 none table with
  | none => ⟨-eBusy,-1,table⟩
  | some none => ⟨-eNosr,-1,table⟩
  | some (some i) =>
    let claimed := table.modify i Channel.claim
    if irq ≠ 0 then ⟨irq,-1,claimed⟩
    else ⟨0,i,claimed.modify i (Channel.attach deviceId device)⟩

def Busy (table : List Channel) (device : BitVec 32) : Prop :=
  ∃ c ∈ table, c.inUse = true ∧ c.device = device

instance (table : List Channel) (device : BitVec 32) : Decidable (Busy table device) :=
  inferInstanceAs (Decidable (∃ c ∈ table, c.inUse = true ∧ c.device = device))

theorem search_eq (device : BitVec 32) (table : List Channel) (i : ℕ) (dma : Option ℕ) :
    search device i dma table = if Busy table device then none
      else some (dma.or ((table.findIdx? fun c => !c.inUse).map (· + i))) := by
  induction table generalizing i dma with
  | nil => simp [search,Busy]
  | cons c cs ih =>
    have hbusy : Busy (c :: cs) device ↔ (c.inUse = true ∧ c.device = device) ∨ Busy cs device := by
      simp [Busy]
    rw [search,findIdx?_cons,ih,ih]
    cases hc : c.inUse with
    | true =>
      by_cases hd : c.device = device
      · grind
      · have hiff : Busy (c :: cs) device ↔ Busy cs device :=
          hbusy.trans (or_iff_right fun h => hd h.2)
        simp only [if_true,hd,if_false,hiff,Bool.not_true,Bool.false_eq_true,Option.map_map]
        congr 4
        grind
    | false =>
      have hiff : Busy (c :: cs) device ↔ Busy cs device :=
        hbusy.trans (or_iff_right fun h => Bool.false_ne_true (hc.symm.trans h.1))
      grind

theorem requestDma_cases (table : List Channel) (deviceId : String) (device : BitVec 32) (irq : ℤ) :
    (Busy table device ∧ requestDma table deviceId device irq = ⟨-eBusy,-1,table⟩) ∨
    (¬Busy table device ∧ (∀ c ∈ table, c.inUse = true) ∧
      requestDma table deviceId device irq = ⟨-eNosr,-1,table⟩) ∨
    ∃ pre c post, ¬Busy table device ∧ table = pre ++ c :: post ∧ c.inUse = false ∧
      requestDma table deviceId device irq =
        if irq ≠ 0 then ⟨irq,-1,pre ++ c.claim :: post⟩
        else ⟨0,pre.length,pre ++ c.claim.attach deviceId device :: post⟩ := by
  rw [requestDma,search_eq]
  by_cases hb : Busy table device
  · grind
  · rw [if_neg hb]
    cases hf : table.findIdx? fun c => !c.inUse with
    | none =>
      grind
    | some i =>
      obtain ⟨hi,hfree,-⟩ := findIdx?_eq_some_iff_getElem.mp hf
      obtain ⟨pre,post,htable,hpre,hmodify⟩ := split_at (getElem?_eq_getElem hi)
      refine .inr (.inr ⟨pre,table[i],post,hb,htable,by simpa using hfree,?_⟩)
      have hmodify' : (pre ++ table[i].claim :: post).modify i (Channel.attach deviceId device) =
          pre ++ table[i].claim.attach deviceId device :: post := by
        obtain ⟨pre',post',hl,hpre',hm⟩ := split_at
          (show (pre ++ table[i].claim :: post)[i]? = some table[i].claim by simp [← hpre])
        obtain ⟨rfl,hp⟩ := append_inj hl (hpre.trans hpre'.symm)
        cases hp
        exact hm _
      simp only [Option.none_or,Option.map_some,add_zero,hmodify,hmodify',hpre]

/-- A request that fails leaves the flags as they are, and another request of the device goes as it
would have gone, just if it does not fail at the interrupt. -/
theorem request_dma_all_or_nothing (table : List Channel) (deviceId : String) (device : BitVec 32)
    (irq : ℤ) :
    ((requestDma table deviceId device irq).ret ≠ 0 →
      (requestDma table deviceId device irq).table.map Channel.inUse = table.map Channel.inUse ∧
      ∀ irq', requestDma (requestDma table deviceId device irq).table deviceId device irq' =
        requestDma table deviceId device irq') ↔
      ¬(irq ≠ 0 ∧ ¬Busy table device ∧ ∃ c ∈ table, c.inUse = false) := by
  obtain ⟨hb,he⟩ | ⟨-,hall,he⟩ | ⟨pre,c,post,hb,rfl,hc,he⟩ := requestDma_cases table deviceId device irq
  · grind
  · grind
  · rw [he]
    split_ifs with hirq
    · -- the claimed channel is not given back
      refine iff_of_false (fun h => ?_) (not_not.mpr ⟨hirq,hb,c,by simp,hc⟩)
      have hflags := (h hirq).1
      simp [Channel.claim,hc] at hflags
    · grind

def idle (deviceId : String) (device : BitVec 32) : Channel := ⟨false,deviceId,device,none,0,0,device⟩

/-- The six channels, the first of them last used for the SSP. -/
def channels : List Channel := idle "ssp" 0x81000580 :: replicate 5 (idle "" 0)

/-- `request_irq` fails with `-EBUSY`: the channel is not released, and the device is busy for
ever. -/
theorem request_dma_leaks :
    let r := requestDma channels "ssp" 0x81000580 (-16)
    r.ret = -16 ∧ r.channel = -1 ∧ r.table.map Channel.inUse = true :: replicate 5 false ∧
      (requestDma r.table "ssp" 0x81000580 0).ret = -eBusy := by
  decide

end Simpad.DmaTable
