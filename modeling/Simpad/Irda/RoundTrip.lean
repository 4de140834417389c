import Simpad.Irda.Wrapper

namespace Simpad.Irda

open List

def wrapped (cb : SkbCb) (data : List Byte) : List Byte :=
  replicate cb.numXbofs xbof ++ [bof] ++ data.flatMap stuffByte ++
    (lsbFirst (~~~crcCalc initFcs data)).flatMap stuffByte ++ [eof]

/-- The buffer takes the frame, and the check in front of the last byte of the data passes. -/
def Fits (cb : SkbCb) (data : List Byte) (buffsize : ℕ) : Prop :=
  (wrapped cb data).length ≤ buffsize ∧
    cb.numXbofs + 1 + (data.dropLast.flatMap stuffByte).length + 5 < buffsize

theorem wrapData_eq {buffsize : ℕ} {tx : List Byte} {fcs : BitVec 16} {data : List Byte}
    (h : tx.length + (data.dropLast.flatMap stuffByte).length + 5 < buffsize) :
    wrapData buffsize tx fcs data = tx ++ data.flatMap stuffByte ++
      (lsbFirst (~~~crcCalc fcs data)).flatMap stuffByte ++ [eof] := by
  induction data generalizing tx fcs with
  | nil =>
    rw [wrapData,flatMap_nil,append_nil]
    rfl
  | cons byte data ih =>
    rw [wrapData,if_pos (by omega)]
    cases data with
    | nil =>
      rw [wrapData,flatMap_cons,flatMap_nil,append_nil]
      rfl
    | cons byte' data =>
      rw [dropLast_cons_cons,flatMap_cons,length_append] at h
      rw [ih (by rw [length_append]; omega),append_assoc tx,← flatMap_cons]
      rfl

theorem asyncWrapSkb_eq {cb : SkbCb} {data : List Byte} {buffsize : ℕ} (h : Fits cb data buffsize) :
    asyncWrapSkb cb data buffsize = some (wrapped cb data) := by
  have heq : wrapData buffsize (replicate cb.numXbofs xbof ++ [bof]) initFcs data =
      wrapped cb data := by
    refine wrapData_eq ?_
    rw [length_append,length_replicate]
    exact h.2
  rw [asyncWrapSkb,heq,if_pos h.1]

namespace Receiver
variable {r : Receiver} {data : List Byte}

@[simp] theorem unwrap_nil (r : Receiver) : r.unwrap [] = r := rfl

theorem unwrap_cons (r : Receiver) (byte : Byte) (bytes : List Byte) :
    r.unwrap (byte :: bytes) = (asyncUnwrapChar true r byte).unwrap bytes := rfl

theorem unwrap_append (r : Receiver) (l l' : List Byte) :
    r.unwrap (l ++ l') = (r.unwrap l).unwrap l' := foldl_append

/-- The receiver inside a frame, with `data` taken in. -/
def holding (r : Receiver) (data : List Byte) : Receiver :=
  { r with
    state := .insideFrame
    inFrame := true
    data := data
    fcs := crcCalc initFcs data }

theorem crcCalc_concat (fcs : BitVec 16) (data : List Byte) (byte : Byte) :
    crcCalc fcs (data ++ [byte]) = irdaFcs (crcCalc fcs data) byte := foldl_append

theorem unwrap_xbofs (h : r.state = .outsideFrame) (n : ℕ) : r.unwrap (replicate n xbof) = r := by
  induction n with
  | zero => rfl
  | succ n ih =>
    have hstep : asyncUnwrapChar true r xbof = r := by
      rw [asyncUnwrapChar,h]
      rfl
    rw [replicate_succ,unwrap_cons,hstep,ih]

theorem escaped {byte : Byte} (h : byte = bof ∨ byte = eof ∨ byte = ce) :
    byte ^^^ irdaTrans ≠ bof ∧ byte ^^^ irdaTrans ≠ ce ∧ byte ^^^ irdaTrans ≠ eof ∧
      byte ^^^ irdaTrans ^^^ irdaTrans = byte := by
  rcases h with rfl | rfl | rfl <;> decide

theorem linkEscape_escaped {byte : Byte} (h : byte = bof ∨ byte = eof ∨ byte = ce)
    (hlen : r.data.length < r.truesize) :
    r.linkEscape (byte ^^^ irdaTrans) = { r.store byte with state := .insideFrame } := by
  obtain ⟨hb,hc,he,hx⟩ := escaped h
  rw [linkEscape,if_neg hb,if_neg hc,if_neg he,if_pos hlen,hx]

theorem unwrap_stuffByte (byte : Byte) (h : data.length < r.truesize) :
    (r.holding data).unwrap (stuffByte byte) = r.holding (data ++ [byte]) := by
  have hstore : (r.holding data).store byte = r.holding (data ++ [byte]) := by
    rw [holding,holding,crcCalc_concat]
    rfl
  unfold stuffByte
  split
  · next hs =>
    have hesc : asyncUnwrapChar true (r.holding data) ce = { r.holding data with state := .linkEscape } :=
      rfl
    rw [unwrap_cons,hesc,unwrap_cons,unwrap_nil,← hstore]
    exact linkEscape_escaped hs h
  · next hs =>
    obtain ⟨hb,hs⟩ := not_or.mp hs
    obtain ⟨he,hc⟩ := not_or.mp hs
    rw [unwrap_cons,unwrap_nil,← hstore]
    show (r.holding data).insideFrame true byte = _
    rw [insideFrame,if_neg hb,if_neg hc,if_neg he]
    exact if_pos h

theorem unwrap_first (byte : Byte) (hs : r.state = .beginFrame) (hin : r.inFrame = true)
    (h : 0 < r.truesize) : r.unwrap (stuffByte byte) = r.holding [byte] := by
  have hbegin : ∀ b, asyncUnwrapChar true r b = r.beginFrame b := by
    intro b
    rw [asyncUnwrapChar,hs]
  have hstore : { store { r with data := [], fcs := initFcs } byte with state := .insideFrame } =
      r.holding [byte] := by
    rw [holding,← hin]
    rfl
  unfold stuffByte
  split
  · next hb =>
    rw [unwrap_cons,hbegin,unwrap_cons,unwrap_nil,← hstore]
    exact @linkEscape_escaped { r with data := [], fcs := initFcs, state := .linkEscape } byte hb h
  · next hb =>
    obtain ⟨hb,hb'⟩ := not_or.mp hb
    obtain ⟨he,hc⟩ := not_or.mp hb'
    rw [unwrap_cons,hbegin,unwrap_nil,← hstore,beginFrame,if_neg hb,if_neg hc,if_neg he]

theorem unwrap_stuffed {l : List Byte} (h : data.length + l.length ≤ r.truesize) :
    (r.holding data).unwrap (l.flatMap stuffByte) = r.holding (data ++ l) := by
  induction l generalizing data with
  | nil => simp
  | cons byte l ih =>
    rw [length_cons] at h
    rw [flatMap_cons,unwrap_append,unwrap_stuffByte byte (by omega),
      ih (by grind),append_assoc]
    rfl

theorem unwrap_frame {l : List Byte} (hs : r.state = .beginFrame) (hin : r.inFrame = true)
    (hne : l ≠ []) (h : l.length ≤ r.truesize) : r.unwrap (l.flatMap stuffByte) = r.holding l := by
  cases l with
  | nil => exact absurd rfl hne
  | cons byte l =>
    rw [length_cons] at h
    rw [flatMap_cons,unwrap_append,unwrap_first byte hs hin (by omega),
      unwrap_stuffed (by rw [length_singleton]; omega)]
    rfl

theorem unwrap_eof (hfcs : crcCalc initFcs data = goodFcs) :
    (r.holding data).unwrap [eof] =
      asyncBump { r.holding data with state := .outsideFrame, inFrame := false } true :=
  if_pos hfcs

def received (r : Receiver) (data : List Byte) : Receiver :=
  { r with
    state := .outsideFrame
    inFrame := false
    data := data ++ lsbFirst (~~~crcCalc initFcs data)
    fcs := goodFcs
    stats := { r.stats with
      rxPackets := r.stats.rxPackets + 1
      rxBytes := r.stats.rxBytes + (data.length + 2) }
    delivered := r.delivered ++ [data] }

theorem unwrap_wrapped (cb : SkbCb) (hs : r.state = .outsideFrame) (h : data.length + 2 ≤ r.truesize) :
    r.unwrap (wrapped cb data) = r.received data := by
  have hbof : asyncUnwrapChar true r bof = { r with state := .beginFrame, inFrame := true } := by
    rw [asyncUnwrapChar,hs]
    rfl
  have hfcs : crcCalc initFcs (data ++ lsbFirst (~~~crcCalc initFcs data)) = goodFcs :=
    foldl_append.trans (crcCalc_complement _)
  have hlen : (data ++ lsbFirst (~~~crcCalc initFcs data)).length = data.length + 2 := by
    rw [length_append]
    rfl
  have hframe := @unwrap_frame { r with state := .beginFrame, inFrame := true }
    (data ++ lsbFirst (~~~crcCalc initFcs data)) rfl rfl (append_ne_nil_of_right_ne_nil _ (by
      intro hnil
      cases hnil)) (hlen ▸ h)
  rw [wrapped,append_assoc,append_assoc,append_assoc,unwrap_append,unwrap_xbofs hs,
    singleton_append,unwrap_cons,hbof,← append_assoc,← flatMap_append,unwrap_append,
    hframe,unwrap_eof hfcs,asyncBump,if_neg (by decide),received]
  dsimp only [holding]
  grind

end Receiver

/-- A frame to be sent: its control block, its data and the size of the buffer it is put in. -/
structure Frame where
  cb : SkbCb
  data : List Byte
  buffsize : ℕ

/-- Frames that fit their buffers and the receiver's are all sent, and passed up in order; no error
is counted, and the receiver is outside a frame again. -/
theorem frames_roundTrip {r : Receiver} (hs : r.state = .outsideFrame) {frames : List Frame}
    (h : ∀ f ∈ frames, Fits f.cb f.data f.buffsize ∧ f.data.length + 2 ≤ r.truesize) :
    ∃ tx, (frames.mapM fun f => asyncWrapSkb f.cb f.data f.buffsize) = some tx ∧
      (r.unwrap tx.flatten).state = .outsideFrame ∧
      (r.unwrap tx.flatten).delivered = r.delivered ++ frames.map Frame.data ∧
      (r.unwrap tx.flatten).stats = { r.stats with
        rxPackets := r.stats.rxPackets + frames.length
        rxBytes := r.stats.rxBytes + (frames.map fun f => f.data.length + 2).sum } := by
  induction frames generalizing r with
  | nil => exact ⟨[],rfl,hs,(append_nil _).symm,rfl⟩
  | cons f frames ih =>
    obtain ⟨hfit,hlen⟩ := h f mem_cons_self
    obtain ⟨tx,htx,hstate,hdel,hstats⟩ := @ih (r.received f.data) rfl fun g hg =>
      h g (mem_cons_of_mem _ hg)
    refine ⟨wrapped f.cb f.data :: tx,?_,?_⟩
    · rw [mapM_cons,asyncWrapSkb_eq hfit,htx]
      rfl
    · rw [flatten_cons,Receiver.unwrap_append,Receiver.unwrap_wrapped f.cb hs hlen]
      refine ⟨hstate,?_,?_⟩
      · rw [hdel,map_cons,Receiver.received,append_assoc]
        rfl
      · rw [hstats,map_cons,sum_cons,length_cons]
        dsimp only [Receiver.received]
        grind

def idleReceiver : Receiver := ⟨.outsideFrame,false,[],16,0,false,⟨0,0,0,0,0,0⟩,[]⟩

theorem frames_roundTrip_two : ∃ tx, (([⟨⟨true,3,0⟩,[0xc0,1],16⟩,⟨⟨false,0,0⟩,[2],32⟩] : List Frame).mapM
      fun f => asyncWrapSkb f.cb f.data f.buffsize) = some tx ∧
    (idleReceiver.unwrap tx.flatten).delivered = [[0xc0,1],[2]] := by
  obtain ⟨tx,htx,-,hdel,-⟩ := @frames_roundTrip idleReceiver rfl
    [⟨⟨true,3,0⟩,[0xc0,1],16⟩,⟨⟨false,0,0⟩,[2],32⟩] (forall_mem_cons.mpr
      ⟨⟨⟨by decide,by decide⟩,by decide⟩,forall_mem_singleton.mpr
        ⟨⟨by decide,by decide⟩,by decide⟩⟩)
  exact ⟨tx,htx,hdel⟩

/-- A frame of five bytes and a buffer of five bytes: only the `BOF` is sent. -/
theorem wrap_tight : (wrapped ⟨true,0,0⟩ [0]).length = 5 ∧ asyncWrapSkb ⟨true,0,0⟩ [0] 5 = some [bof] ∧
    (idleReceiver.unwrap [bof]).delivered = [] ∧
    (idleReceiver.unwrap [bof]).state ≠ .outsideFrame := by
  decide

end Simpad.Irda
