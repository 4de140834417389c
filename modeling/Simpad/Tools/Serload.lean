import Simpad.Base.ListAt

/-! The serial download. An `Answer` holds what the port answers in one pass of the loop in `sendBlock`. -/

namespace Simpad.Serload

open List

def stx : UInt8 := 2
def etx : UInt8 := 3
def bel : UInt8 := 7
def ackOk : UInt8 := 6
def ackNok : UInt8 := 15
def filler : UInt8 := 0xff

/-- What `write` returned for the block, for `STX` or `ETX` and for the checksum, and what the
calls of `read` gave; `none` is a result of 0 or -1. -/
structure Answer where
  payload : ℤ
  flag : ℤ
  check : ℤ
  reads : List (Option UInt8)

/-- The characters that end `waitForReply`. -/
def IsReply (c : UInt8) : Prop := c = stx ∨ c = etx ∨ c = bel ∨ c = ackOk ∨ c = ackNok

instance (c : UInt8) : Decidable (IsReply c) := inferInstanceAs (Decidable (_ ∨ _))

/-- `waitForReply`: the reply and what is left to be read; it waits for ever if there is none. -/
def waitForReply : List (Option UInt8) → Option (UInt8 × List (Option UInt8))
  | [] => none
  | none :: rs => waitForReply rs
  | some c :: rs => if IsReply c then some (c,rs) else waitForReply rs

/-- The loop `while(waitForReply(1) != x);`. -/
def waitFor (x : UInt8) : List (Option UInt8) → Option (List (Option UInt8))
  | [] => none
  | none :: rs => waitFor x rs
  | some c :: rs => if IsReply c ∧ c = x then some rs else waitFor x rs

inductive Sent
  | failed
  | again
  | ok
  deriving DecidableEq

/-- One pass of the loop in `sendBlock`.  A write fails if it returns 0; other results are not
looked at. -/
def pass (a : Answer) : Option Sent :=
  if a.payload = 0 then some .failed
  else
    (waitFor stx a.reads).bind fun rs =>
      if a.flag = 0 ∨ a.check = 0 then some .failed
      else (waitForReply rs).map fun r => if r.1 = ackOk then .ok else .again

/-- What one pass writes: the block, `STX` or `ETX`, and the checksum. -/
structure Frame where
  payload : List UInt8
  flag : UInt8
  check : UInt8

/-- The 512 bytes for the buffer: a shorter one is filled up. -/
def block (buffer : List UInt8) : List UInt8 :=
  if buffer.length = 512 then buffer
  else buffer ++ replicate (512 - buffer.length) filler

def checksum (check : UInt8) (bytes : List UInt8) : UInt8 :=
  bytes.foldl (fun check b => (check <<< 1) ^^^ b) check

/-- A call of `sendBlock`: its buffer and result, what it wrote and what it was answered. -/
structure Call where
  buffer : List UInt8
  sent : Bool
  frames : List Frame
  answers : List Answer

/-- `sendBlock`, started with `check`.  The checksum of a further pass goes on from the last. -/
def sendBlock (buffer : List UInt8) (check : UInt8) : List Answer → Option (Call × List Answer)
  | [] => none
  | a :: as =>
    let check := checksum check (block buffer)
    let frame : Frame := ⟨block buffer,if buffer.length = 512 then stx else etx,check⟩
    match pass a with
    | none => none
    | some .failed => some (⟨buffer,false,[frame],[a]⟩,as)
    | some .ok => some (⟨buffer,true,[frame],[a]⟩,as)
    | some .again => (sendBlock buffer check as).map fun r =>
        (⟨r.1.buffer,r.1.sent,frame :: r.1.frames,a :: r.1.answers⟩,r.2)

/-- The buffers that `main` passes to `sendBlock` in its loop. -/
def fullBlocks : ℕ → List UInt8 → List (List UInt8)
  | 0, _ => []
  | k + 1, image => image.take 512 :: fullBlocks k (image.drop 512)

def buffers (image : List UInt8) : List (List UInt8) :=
  fullBlocks (image.length / 512) image ++
    if image.length % 512 ≠ 0 then [image.drop (512 * (image.length / 512))] else []

/-- The send loop of `main`; what `sendBlock` returns is not looked at. -/
def sendBlocks : List (List UInt8) → List Answer → Option (List Call × List Answer)
  | [], as => some ([],as)
  | b :: bs, as =>
    (sendBlock b 0xff as).bind fun r =>
      (sendBlocks bs r.2).map fun rs => (r.1 :: rs.1,rs.2)

/-- `main` up to the report of success: the loop makes the passes that `answers` answer, and
`waitForEndOfBurning` gets its `ETX`. -/
def main (image : List UInt8) (answers : List Answer) (burning : List (Option UInt8)) :
    Option (List Call) :=
  match sendBlocks (buffers image) answers with
  | some (calls,[]) => (waitFor etx burning).map fun _ => calls
  | _ => none

variable {image : List UInt8} {answers rest : List Answer} {calls : List Call} {call : Call}

/-- The frame of a block that is acknowledged at once. -/
def frameOf (buffer : List UInt8) : Frame where
  payload := block buffer
  flag := if buffer.length = 512 then stx else etx
  check := checksum 0xff (block buffer)

variable {a : Answer} {buffer : List UInt8} {frames : List Frame} {bs : List (List UInt8)}

theorem block_length (h : buffer.length ≤ 512) : (block buffer).length = 512 := by
  unfold block
  grind

theorem sendBlocks_ok (hok : ∀ a ∈ answers, pass a = some .ok) (hlen : answers.length = bs.length) :
    ∃ calls, sendBlocks bs answers = some (calls,[]) ∧
      calls.flatMap Call.frames = bs.map frameOf := by
  induction bs generalizing answers with
  | nil =>
    obtain rfl := length_eq_zero_iff.mp hlen
    exact ⟨[],rfl,rfl⟩
  | cons b bs ih =>
    obtain ⟨a,as,rfl⟩ := exists_cons_of_length_eq_add_one hlen
    obtain ⟨calls,hcalls,hframes⟩ := ih (fun a' ha => hok a' (mem_cons_of_mem a ha))
      (Nat.succ.inj hlen)
    have hone : sendBlock b 0xff (a :: as) = some (⟨b,true,[frameOf b],[a]⟩,as) := by
      simp only [sendBlock,hok a mem_cons_self]
      rfl
    refine ⟨⟨b,true,[frameOf b],[a]⟩ :: calls,?_,?_⟩
    · rw [sendBlocks,hone]
      grind
    · rw [flatMap_cons,hframes]
      rfl

theorem mem_fullBlocks {k : ℕ} {b : List UInt8} (hk : 512 * k ≤ image.length)
    (hb : b ∈ fullBlocks k image) : b.length = 512 := by
  induction k generalizing image with
  | zero => cases hb
  | succ k ih =>
    rcases mem_cons.mp hb with rfl | hb
    · rw [length_take]
      omega
    · exact ih (by rw [length_drop]; omega) hb

theorem flatten_fullBlocks (k : ℕ) (image : List UInt8) :
    (fullBlocks k image).flatten = image.take (512 * k) := by
  induction k generalizing image with
  | zero => rfl
  | succ k ih =>
    rw [fullBlocks,flatten_cons,ih,Nat.mul_succ,add_comm,take_add]

/-- The payloads have 512 bytes and are the image with filler up to a multiple of that; all but
the last carry `STX`, the last carries `ETX`. -/
structure Framed (image : List UInt8) (frames : List Frame) : Prop where
  sizes : ∀ f ∈ frames, f.payload.length = 512
  text : frames.flatMap Frame.payload =
    image ++ replicate ((512 - image.length % 512) % 512) filler
  flags : ∃ init last, frames = init ++ [last] ∧ (∀ f ∈ init, f.flag = stx) ∧ last.flag = etx

theorem frames_full {f : Frame} (hf : f ∈ (fullBlocks (image.length / 512) image).map frameOf) :
    f.payload.length = 512 ∧ f.flag = stx := by
  obtain ⟨b,hb,rfl⟩ := mem_map.mp hf
  have hlen := mem_fullBlocks (Nat.mul_div_le image.length 512) hb
  exact ⟨block_length (Nat.le_of_eq hlen),if_pos hlen⟩

theorem text_full : ((fullBlocks (image.length / 512) image).map frameOf).flatMap Frame.payload =
    image.take (512 * (image.length / 512)) := by
  rw [flatMap_map,← flatten_fullBlocks,flatMap_def]
  congr 1
  conv_rhs => rw [← map_id (fullBlocks _ image)]
  refine map_congr_left fun b hb => ?_
  exact if_pos (mem_fullBlocks (Nat.mul_div_le image.length 512) hb)

theorem framed_of_remainder (hr : image.length % 512 ≠ 0) :
    Framed image ((buffers image).map frameOf) := by
  have hlen : (image.drop (512 * (image.length / 512))).length = image.length % 512 := by
    rw [length_drop]
    omega
  rw [buffers,if_pos hr,map_append,map_singleton]
  refine ⟨fun f hf => ?_,?_,_,_,rfl,fun f hf => (frames_full hf).2,?_⟩
  · rcases mem_append.mp hf with hf | hf
    · exact (frames_full hf).1
    · rw [mem_singleton.mp hf]
      exact block_length (by omega)
  · have hmod : (512 - image.length % 512) % 512 = 512 - image.length % 512 :=
      Nat.mod_eq_of_lt (by omega)
    have hblock : (frameOf (image.drop (512 * (image.length / 512)))).payload =
        image.drop (512 * (image.length / 512)) ++
          replicate (512 - image.length % 512) filler := by
      show block _ = _
      rw [block,if_neg (by omega),hlen]
    rw [flatMap_append,text_full,flatMap_singleton,hblock,← append_assoc,
      take_append_drop,hmod]
  · exact if_neg (by omega)

theorem not_framed_of_multiple (hr : image.length % 512 = 0) :
    ¬Framed image ((buffers image).map frameOf) := by
  rintro ⟨-,-,init,last,heq,-,hlast⟩
  have hbuf : buffers image = fullBlocks (image.length / 512) image := by
    rw [buffers,if_neg (not_not.mpr hr),append_nil]
  have hmem : last ∈ (fullBlocks (image.length / 512) image).map frameOf := by
    grind
  rw [(frames_full hmem).2] at hlast
  exact absurd hlast (by decide)

/-- On a link without errors the frames are right exactly when the image does not end with a
complete block. -/
theorem framed_iff (hok : ∀ a ∈ answers, pass a = some .ok)
    (hlen : answers.length = (buffers image).length) :
    ∃ calls, sendBlocks (buffers image) answers = some (calls,[]) ∧
      (Framed image (calls.flatMap Call.frames) ↔ image.length % 512 ≠ 0) := by
  obtain ⟨calls,hcalls,hframes⟩ := sendBlocks_ok hok hlen
  refine ⟨calls,hcalls,?_⟩
  rw [hframes]
  by_cases hr : image.length % 512 = 0
  · exact iff_of_false (not_framed_of_multiple hr) (not_not.mpr hr)
  · exact iff_of_true (framed_of_remainder hr) hr

def acked : Answer := ⟨512,1,1,[some stx,some ackOk]⟩

theorem framed_600 : ∃ calls, sendBlocks (buffers (replicate 600 0)) [acked,acked] =
      some (calls,[]) ∧ Framed (replicate 600 0) (calls.flatMap Call.frames) := by
  have hok : ∀ a ∈ [acked,acked], pass a = some .ok := by decide
  have hlen : [acked,acked].length = (buffers (replicate 600 0)).length := by decide +kernel
  obtain ⟨calls,hcalls,hiff⟩ := framed_iff hok hlen
  grind

/-- An image of 512 bytes is sent without `ETX`. -/
theorem framed_512_stx : ∃ calls, sendBlocks (buffers (replicate 512 0)) [acked] =
      some (calls,[]) ∧ (calls.flatMap Call.frames).map Frame.flag = [stx] ∧
    ¬Framed (replicate 512 0) (calls.flatMap Call.frames) := by
  have hbuf : buffers (replicate 512 0) = [replicate 512 0] := by decide +kernel
  have hok : ∀ a ∈ [acked], pass a = some .ok := by decide
  have hlen : [acked].length = (buffers (replicate 512 0)).length := by
    rw [hbuf]
    rfl
  obtain ⟨calls,hcalls,hframes⟩ := sendBlocks_ok hok hlen
  refine ⟨calls,hcalls,?_,?_⟩
  · rw [hframes,hbuf]
    decide +kernel
  · rw [hframes]
    exact not_framed_of_multiple (by decide +kernel)

def Answer.Complete (a : Answer) : Prop := a.payload = 512 ∧ a.flag = 1 ∧ a.check = 1

/-- One pass of the call wrote the block completely and was answered with `ACK_OK`. -/
def Call.Delivered (call : Call) : Prop := ∃ a ∈ call.answers, pass a = some .ok ∧ a.Complete

/-- The pass had no write that returned 0, and if it was acknowledged, its writes were complete. -/
def Answer.Sound (a : Answer) : Prop := pass a ≠ some .failed ∧ (pass a = some .ok → a.Complete)

theorem delivered_iff_of_ne_again {sent : Bool} (h : pass a = some .failed ∨ pass a = some .ok) :
    Call.Delivered ⟨buffer,sent,frames,[a]⟩ ↔ ∀ a' ∈ [a], a'.Sound := by
  simp only [Call.Delivered,Answer.Sound,mem_singleton,exists_eq_left,forall_eq]
  grind

theorem delivered_cons_of_again {sent : Bool} {as : List Answer} (h : pass a = some .again) :
    Call.Delivered ⟨buffer,sent,frames,a :: as⟩ ↔ Call.Delivered ⟨buffer,sent,frames,as⟩ := by
  simp [Call.Delivered,h]

/-- What the first pass of a call does: the call ends with it, or the passes behind it are those of a
call that starts with the checksum reached. -/
theorem sendBlock_cons {check : UInt8} {as : List Answer}
    (h : sendBlock buffer check (a :: as) = some (call,rest)) :
    ∃ frame : Frame, frame.payload = block buffer ∧ frame.check = checksum check (block buffer) ∧
      ((∃ sent, (pass a = some .failed ∨ pass a = some .ok) ∧
        call = ⟨buffer,sent,[frame],[a]⟩ ∧ rest = as) ∨
      (pass a = some .again ∧ ∃ call', sendBlock buffer frame.check as = some (call',rest) ∧
        call = ⟨call'.buffer,call'.sent,frame :: call'.frames,a :: call'.answers⟩)) := by
  refine ⟨⟨block buffer,if buffer.length = 512 then stx else etx,_⟩,rfl,rfl,?_⟩
  rw [sendBlock] at h
  cases hp : pass a with
  | none => simp [hp] at h
  | some result =>
    cases result with
    | failed | ok =>
      simp only [hp,Option.some.injEq,Prod.mk.injEq] at h
      exact Or.inl ⟨_,by simp,h.1.symm,h.2.symm⟩
    | again =>
      simp only [hp] at h
      obtain ⟨⟨call',rest'⟩,hcall,heq⟩ := Option.map_eq_some_iff.mp h
      obtain ⟨rfl,rfl⟩ := Prod.mk.inj heq
      exact Or.inr ⟨rfl,call',hcall,rfl⟩

theorem sendBlock_spec {check : UInt8} (h : sendBlock buffer check answers = some (call,rest)) :
    call.buffer = buffer ∧ answers = call.answers ++ rest ∧
    (call.Delivered ↔ ∀ a ∈ call.answers, a.Sound) := by
  induction answers generalizing check call with
  | nil => cases h
  | cons a as ih =>
    obtain ⟨frame,-,-,⟨sent,hp,rfl,rfl⟩ | ⟨hp,call,hcall,rfl⟩⟩ := sendBlock_cons h
    · exact ⟨rfl,rfl,delivered_iff_of_ne_again hp⟩
    · obtain ⟨hbuf,has,hiff⟩ := ih hcall
      have hsound : a.Sound := ⟨by simp [hp],by simp [hp]⟩
      refine ⟨hbuf,?_,?_⟩
      · rw [cons_append,has]
      · rw [delivered_cons_of_again hp,forall_mem_cons]
        exact hiff.trans (and_iff_right hsound).symm

theorem sendBlocks_spec (h : sendBlocks bs answers = some (calls,rest)) :
    bs = calls.map Call.buffer ∧ answers = calls.flatMap Call.answers ++ rest ∧
    ((∀ call ∈ calls, call.Delivered) ↔ ∀ a ∈ calls.flatMap Call.answers, a.Sound) := by
  induction bs generalizing answers calls with
  | nil =>
    obtain ⟨rfl,rfl⟩ : [] = calls ∧ answers = rest := by simpa [sendBlocks] using h
    simp
  | cons b bs ih =>
    obtain ⟨⟨call,as⟩,hcall,h⟩ := Option.bind_eq_some_iff.mp h
    obtain ⟨⟨calls',rest'⟩,hcalls,heq⟩ := Option.map_eq_some_iff.mp h
    obtain ⟨rfl,rfl⟩ := Prod.mk.inj heq
    obtain ⟨hbuf,has,hiff⟩ := sendBlock_spec hcall
    obtain ⟨hbufs,hass,hiffs⟩ := ih hcalls
    refine ⟨?_,?_,?_⟩
    · rw [map_cons,hbuf,← hbufs]
    · have htail : as = calls'.flatMap Call.answers ++ rest' := hass
      rw [has,htail,flatMap_cons,append_assoc]
    · grind

/-- A completed download has delivered every block exactly when no write returned 0 and no
acknowledged block was written in part only. -/
theorem main_delivered_iff {burning : List (Option UInt8)}
    (h : main image answers burning = some calls) :
    (buffers image = calls.map Call.buffer ∧ ∀ call ∈ calls, call.Delivered) ↔
      ∀ a ∈ answers, a.Sound := by
  unfold main at h
  split at h
  · next calls' hsend =>
    obtain ⟨rs,-,rfl⟩ := Option.map_eq_some_iff.mp h
    obtain ⟨hbuf,has,hiff⟩ := sendBlocks_spec hsend
    grind
  · cases h

theorem main_delivered_again : ∃ calls, main [1] [⟨512,1,1,[some stx,some ackNok]⟩,acked] [some etx] =
    some calls ∧ ∀ call ∈ calls, call.Delivered := by
  have hsound : ∀ a ∈ [⟨512,1,1,[some stx,some ackNok]⟩,acked], a.Sound := by
    simp only [forall_mem_cons,not_mem_nil,false_implies,implies_true,and_true]
    exact ⟨⟨by decide,fun hok => absurd hok (by decide)⟩,⟨by decide,fun _ => ⟨rfl,rfl,rfl⟩⟩⟩
  obtain ⟨calls,hcalls⟩ : ∃ calls, main [1] [⟨512,1,1,[some stx,some ackNok]⟩,acked] [some etx] =
    some calls := ⟨_,rfl⟩
  exact ⟨calls,hcalls,((main_delivered_iff hcalls).mpr hsound).2⟩

/-- The write of the block fails with -1, and the download is reported as complete. -/
theorem main_undelivered : ∃ calls, main [1] [⟨-1,1,1,[some stx,some ackOk]⟩] [some etx] =
    some calls ∧ ∃ call ∈ calls, ¬call.Delivered := by
  refine ⟨_,rfl,_,mem_singleton.mpr rfl,?_⟩
  rintro ⟨a,ha,-,hpay,-⟩
  grind

theorem shiftLeft_xor (a b : UInt8) : (a ^^^ b) <<< 1 = (a <<< 1) ^^^ (b <<< 1) := by
  apply UInt8.toBitVec_inj.mp
  exact BitVec.shiftLeft_xor_distrib _ _ _

theorem toNat_shiftLeft_one (a : UInt8) : (a <<< 1).toNat = a.toNat * 2 % 256 := by
  rw [UInt8.toNat_shiftLeft,Nat.shiftLeft_eq]
  rfl

/-- What is left of a byte after `n` steps of the checksum. -/
def shifted (n : ℕ) (d : UInt8) : UInt8 := (fun c : UInt8 => c <<< 1)^[n] d

theorem toNat_shifted (n : ℕ) (d : UInt8) : (shifted n d).toNat = d.toNat * 2 ^ n % 256 := by
  induction n with
  | zero =>
    have hd : d.toNat % 256 = d.toNat := Nat.mod_eq_of_lt d.toNat_lt
    rw [pow_zero,mul_one,hd]
    rfl
  | succ n ih =>
    rw [shifted,Function.iterate_succ_apply',toNat_shiftLeft_one,← shifted,ih,Nat.mod_mul_mod,
      pow_succ,mul_assoc]

theorem shifted_eq_zero_iff {n : ℕ} {d : UInt8} : shifted n d = 0 ↔ 256 ∣ d.toNat * 2 ^ n := by
  rw [← UInt8.toNat_inj,toNat_shifted]
  exact (Nat.dvd_iff_mod_eq_zero ..).symm

theorem shifted_of_le {n : ℕ} (h : 8 ≤ n) (d : UInt8) : shifted n d = 0 := by
  rw [shifted_eq_zero_iff]
  exact Dvd.dvd.mul_left (pow_dvd_pow 2 h) _

theorem checksum_xor (c d : UInt8) (bytes : List UInt8) :
    checksum (c ^^^ d) bytes = checksum c bytes ^^^ shifted bytes.length d := by
  induction bytes generalizing c d with
  | nil => rfl
  | cons b bytes ih =>
    have hstep : ((c ^^^ d) <<< 1) ^^^ b = (c <<< 1 ^^^ b) ^^^ (d <<< 1) := by
      simp [shiftLeft_xor,UInt8.xor_assoc,UInt8.xor_comm (d <<< 1)]
    calc checksum (c ^^^ d) (b :: bytes)
        = checksum ((c <<< 1 ^^^ b) ^^^ (d <<< 1)) bytes := by rw [checksum,foldl_cons,hstep]; rfl
      _ = checksum (c <<< 1 ^^^ b) bytes ^^^ shifted bytes.length (d <<< 1) := ih _ _
      _ = checksum c (b :: bytes) ^^^ shifted (b :: bytes).length d := rfl

theorem checksum_start {bytes : List UInt8} (h : 8 ≤ bytes.length) (c c' : UInt8) :
    checksum c bytes = checksum c' bytes := by
  have hc : c = c' ^^^ (c' ^^^ c) := by rw [← UInt8.xor_assoc,UInt8.xor_self,UInt8.zero_xor]
  rw [hc,checksum_xor,shifted_of_le h,UInt8.xor_zero]

theorem sendBlock_frames {check : UInt8} (hb : buffer.length ≤ 512)
    (h : sendBlock buffer check answers = some (call,rest)) :
    call.frames.length = call.answers.length ∧
      ∀ f ∈ call.frames, f.payload = block buffer ∧ f.check = checksum 0xff f.payload := by
  have hlen : 8 ≤ (block buffer).length := by
    rw [block_length hb]
    decide
  induction answers generalizing check call with
  | nil => cases h
  | cons a as ih =>
    obtain ⟨frame,hpay,hcheck,hcases⟩ := sendBlock_cons h
    have hone : frame.check = checksum 0xff frame.payload := by
      rw [hcheck,hpay]
      exact checksum_start hlen _ _
    rcases hcases with ⟨sent,-,rfl,-⟩ | ⟨-,call,hcall,rfl⟩
    · exact ⟨rfl,forall_mem_singleton.mpr ⟨hpay,hone⟩⟩
    · obtain ⟨hl,hf⟩ := ih hcall
      exact ⟨congrArg Nat.succ hl,forall_mem_cons.mpr ⟨⟨hpay,hone⟩,hf⟩⟩

theorem sendBlock_again (buffer : List UInt8) (check : UInt8) {nacks : List Answer}
    (hn : ∀ a ∈ nacks, pass a = some .again) (ha : pass a = some .ok) :
    ∃ call, sendBlock buffer check (nacks ++ [a]) = some (call,[]) ∧ call.answers = nacks ++ [a] := by
  induction nacks generalizing check with
  | nil => exact ⟨_,by rw [nil_append,sendBlock,ha],rfl⟩
  | cons n nacks ih =>
    obtain ⟨call,hcall,hans⟩ := @ih (checksum check (block buffer))
      fun a ha => hn a (mem_cons_of_mem n ha)
    let frame : Frame :=
      ⟨block buffer,if buffer.length = 512 then stx else etx,checksum check (block buffer)⟩
    refine ⟨⟨call.buffer,call.sent,frame :: call.frames,n :: call.answers⟩,?_,?_⟩
    · rw [cons_append,sendBlock,hn n mem_cons_self]
      grind
    · rw [cons_append,← hans]

/-- However often a block is sent, its check byte is the fold over the 512 bytes sent with it. -/
theorem sendBlock_checksum {buffer : List UInt8} (hb : buffer.length ≤ 512) {nacks : List Answer}
    {a : Answer} (hn : ∀ a ∈ nacks, pass a = some .again) (ha : pass a = some .ok) :
    ∃ call, sendBlock buffer 0xff (nacks ++ [a]) = some (call,[]) ∧
      call.frames.length = nacks.length + 1 ∧
      ∀ f ∈ call.frames, f.payload = block buffer ∧ f.payload.length = 512 ∧
        f.check = f.payload.foldl (fun (check b : UInt8) => (check <<< 1) ^^^ b) 0xff := by
  obtain ⟨call,hcall,hans⟩ := sendBlock_again buffer 0xff hn ha
  obtain ⟨hl,hf⟩ := sendBlock_frames hb hcall
  refine ⟨call,hcall,?_,fun f hm => ?_⟩
  · grind
  · obtain ⟨hp,hc⟩ := hf f hm
    exact ⟨hp,by rw [hp]; exact block_length hb,hc⟩

/-- A block of five bytes that is acknowledged at the third time. -/
theorem sendBlock_checksum_third : ∃ call, sendBlock [1,2,3,4,5] 0xff
      [⟨512,1,1,[some stx,some ackNok]⟩,⟨512,1,1,[some stx,some ackNok]⟩,acked] = some (call,[]) ∧
    call.frames.length = 3 ∧
    ∀ f ∈ call.frames, f.payload.length = 512 ∧
      f.check = f.payload.foldl (fun (check b : UInt8) => (check <<< 1) ^^^ b) 0xff := by
  have hn : ∀ a ∈ [(⟨512,1,1,[some stx,some ackNok]⟩ : Answer),⟨512,1,1,[some stx,some ackNok]⟩],
      pass a = some .again := by decide
  obtain ⟨call,hcall,hl,hf⟩ := sendBlock_checksum
    (show ([1,2,3,4,5] : List UInt8).length ≤ 512 by decide) hn (by decide : pass acked = some .ok)
  grind

theorem checksum_append (c : UInt8) (l m : List UInt8) :
    checksum c (l ++ m) = checksum (checksum c l) m := foldl_append

theorem checksum_change (c x y : UInt8) (pre post : List UInt8) :
    checksum c (pre ++ x :: post) = checksum c (pre ++ y :: post) ^^^ shifted post.length (x ^^^ y) := by
  have hx : checksum c pre <<< 1 ^^^ x = (checksum c pre <<< 1 ^^^ y) ^^^ (x ^^^ y) := by
    rw [UInt8.xor_comm x y,UInt8.xor_assoc,← UInt8.xor_assoc y,UInt8.xor_self,UInt8.zero_xor]
  rw [checksum_append,checksum_append]
  show checksum (checksum c pre <<< 1 ^^^ x) post = checksum (checksum c pre <<< 1 ^^^ y) post ^^^ _
  rw [hx,checksum_xor]

/-- Where two blocks differ in one byte only, the checksums differ just if the difference has not
been moved out at the top. -/
theorem checksum_ne_iff {p q : List UInt8} {i : ℕ} {x y : UInt8} (hp : p.length = 512)
    (hx : p[i]? = some x) (hy : q[i]? = some y) (h : ∀ j ≠ i, p[j]? = q[j]?) :
    checksum 0xff p ≠ checksum 0xff q ↔ ¬256 ∣ (x ^^^ y).toNat * 2 ^ (511 - i) := by
  obtain ⟨pre,post,rfl,hpre,-⟩ := ListAt.split_at hx
  have hq : q = pre ++ y :: post := by
    ext1 j
    by_cases hj : j = i
    · grind
    · rw [← h j hj]
      rcases lt_or_gt_of_ne hj with hlt | hgt
      · grind
      · obtain ⟨k,rfl⟩ : ∃ k, j = pre.length + (k + 1) := ⟨j - i - 1,by omega⟩
        rw [getElem?_append_right (Nat.le_add_right _ _),
          getElem?_append_right (Nat.le_add_right _ _),Nat.add_sub_cancel_left]
        rfl
  have hpost : post.length = 511 - i := by
    grind
  rw [hq,checksum_change 0xff x y,← hpost,← shifted_eq_zero_iff,not_iff_not]
  constructor
  · intro he
    have hz := congrArg (checksum 0xff (pre ++ y :: post) ^^^ ·) he
    simpa only [← UInt8.xor_assoc,UInt8.xor_self,UInt8.zero_xor] using hz
  · intro hz
    rw [hz,UInt8.xor_zero]

theorem checksum_ne_last : checksum 0xff (replicate 511 0 ++ [1]) ≠
    checksum 0xff (replicate 512 0) := by
  refine (checksum_ne_iff (i := 511) (x := 1) (y := 0) ?_ ?_ ?_ fun j hj => ?_).mpr (by decide)
  · decide +kernel
  · decide +kernel
  · decide +kernel
  · rcases lt_or_gt_of_ne hj with hlt | hgt
    · rw [getElem?_append_left (by rw [length_replicate]; exact hlt),
        getElem?_replicate,getElem?_replicate,if_pos hlt,if_pos (by omega)]
    · rw [getElem?_eq_none,getElem?_eq_none]
      · rw [length_replicate]
        omega
      · grind

/-- A change of the first byte is not seen. -/
theorem checksum_first_unseen : checksum 0xff (1 :: replicate 511 0) =
    checksum 0xff (0 :: replicate 511 0) := by
  decide +kernel

end Simpad.Serload
