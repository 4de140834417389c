import Simpad.Jffs2.Rubin

namespace Simpad.Jffs2.Rubin
open Word RangeCoder List

theorem bitAt_setBit (buf : ℕ → Byte) (i : ℕ) (bit : Bool) (j : ℕ) :
    bitAt (setBit buf i bit) j = if j = i then bit else bitAt buf j := by
  unfold bitAt setBit
  by_cases hb : j / 8 = i / 8
  · -- in the byte that is written, the mask is one bit
    have hlt : 7 - j % 8 < 8 := by omega
    have hmask : (BitVec.twoPow 8 (7 - i % 8)).getLsbD (7 - j % 8) = decide (j = i) := by
      grind
    simp only [hb,if_true]
    cases bit with
    | true =>
      grind
    | false =>
      grind
  · have hne : j ≠ i := by
      rintro rfl
      exact hb rfl
    simp only [hb,hne,if_false]

def PushPull.bits (pp : PushPull) : List Bool := (range pp.ofs).map (bitAt pp.buf)

theorem PushPull.length_bits (pp : PushPull) : pp.bits.length = pp.ofs := by
  rw [PushPull.bits,length_map,length_range]

/-- `bs` was pushed, within the part that is not reserved. -/
structure Pushed (pp : PushPull) (bs : List Bool) (pp' : PushPull) : Prop where
  bits : pp'.bits = pp.bits ++ bs
  buflen : pp'.buflen = pp.buflen
  reserve : pp'.reserve = pp.reserve
  room : pp.ofs ≤ sub32 pp.buflen pp.reserve → pp'.ofs ≤ sub32 pp.buflen pp.reserve

theorem Pushed.refl (pp : PushPull) : Pushed pp [] pp :=
  ⟨(append_nil _).symm,rfl,rfl,id⟩

theorem Pushed.trans {pp pp' pp'' : PushPull} {bs cs : List Bool} (h : Pushed pp bs pp')
    (h' : Pushed pp' cs pp'') : Pushed pp (bs ++ cs) pp'' where
  bits := by rw [h'.bits,h.bits,append_assoc]
  buflen := h'.buflen.trans h.buflen
  reserve := h'.reserve.trans h.reserve
  room hr := by
    have hroom := h'.room
    rw [h.buflen,h.reserve] at hroom
    exact hroom (h.room hr)

theorem Pushed.back {pp pp' : PushPull} {bs : List Bool} (h : Pushed pp bs pp') :
    Pushed pp [] { pp with buf := pp'.buf } where
  bits := by
    rw [append_nil]
    have hofs : pp'.ofs = pp.ofs + bs.length := by
      rw [← pp'.length_bits,h.bits,length_append,pp.length_bits]
    have htake := congrArg (take pp.ofs) h.bits
    rw [← pp.length_bits,take_left,pp.length_bits,PushPull.bits,← map_take,
      take_range,hofs,min_eq_left (Nat.le_add_right _ _)] at htake
    exact htake
  buflen := rfl
  reserve := rfl
  room := id

section
variable {pp : PushPull} {bit useReserved : Bool}

theorem pushbit_false (h : (pushbit pp bit useReserved).1 = false) :
    (pushbit pp bit useReserved).2 = pp := by
  rw [pushbit] at h ⊢
  dsimp only at h ⊢
  rw [h]
  rfl

theorem pushbit_of_lt (h : pp.ofs < sub32 pp.buflen (if useReserved then 0 else pp.reserve)) :
    pushbit pp bit useReserved =
      (true,{ pp with buf := setBit pp.buf pp.ofs bit, ofs := pp.ofs + 1 }) := by
  have hlt : sub32 pp.buflen (if useReserved then 0 else pp.reserve) < 4294967296 := u32_lt _
  rw [pushbit,decide_eq_true h,u32_of_lt (by omega)]
  simp only [if_true]

theorem lt_of_pushbit (h : (pushbit pp bit useReserved).1 = true) :
    pp.ofs < sub32 pp.buflen (if useReserved then 0 else pp.reserve) := by
  exact of_decide_eq_true h

end

theorem bits_setBit (pp : PushPull) (bit : Bool) :
    PushPull.bits { pp with buf := setBit pp.buf pp.ofs bit, ofs := pp.ofs + 1 } =
      pp.bits ++ [bit] := by
  unfold PushPull.bits
  simp only [range_succ,map_append,map_cons,map_nil,bitAt_setBit,if_true]
  congr 1
  apply map_congr_left
  intro i hi
  rw [bitAt_setBit,if_neg (mem_range.mp hi).ne]

theorem pushbit_pushed {pp : PushPull} {bit : Bool} (h : (pushbit pp bit false).1 = true) :
    Pushed pp [bit] (pushbit pp bit false).2 := by
  have hlt := lt_of_pushbit h
  rw [pushbit_of_lt hlt]
  exact ⟨bits_setBit pp bit,rfl,rfl,fun _ => hlt⟩

theorem testBit_top {q : ℕ} (hq : q < 2 ^ 16) : q.testBit 15 = decide (2 ^ 15 ≤ q) := by
  grind

theorem Valid.q_lt {s : Iv} (h : s.Valid 15) : s.q < 2 ^ 16 := by
  obtain ⟨hp,hle⟩ := h
  omega

/-- What an encoding step has done: the bits for it are written, or part of some bits. -/
structure Encoded (rs : State) (want : List Bool × Iv) (r : Bool × State) : Prop where
  some_bits : ∃ bs, Pushed rs.pp bs r.2.pp
  all_bits : r.1 = true → r.2.iv = want.2 ∧ Pushed rs.pp want.1 r.2.pp

theorem Encoded.cons {rs : State} {bit : Bool} {iv : Iv} {pp : PushPull} {want : List Bool × Iv}
    {r : Bool × State} (hone : Pushed rs.pp [bit] pp) (h : Encoded ⟨iv,pp⟩ want r) :
    Encoded rs (bit :: want.1,want.2) r := by
  obtain ⟨⟨bs,hbs⟩,hall⟩ := h
  refine ⟨⟨_,hone.trans hbs⟩,fun hr => ?_⟩
  obtain ⟨hiv,hpushed⟩ := hall hr
  exact ⟨hiv,hone.trans hpushed⟩

theorem encodeLoop_encoded (n : ℕ) {rs : State} (hv : rs.iv.Valid 15) :
    Encoded rs (renorm 15 n rs.iv) (encodeLoop n rs) := by
  induction n generalizing rs with
  | zero => exact ⟨⟨[],.refl _⟩,fun _ => ⟨rfl,.refl _⟩⟩
  | succ n ih =>
    rw [encodeLoop,renorm]
    by_cases hh : rs.iv.Half 15
    · simp only [if_pos hh]
      rw [testBit_top (Valid.q_lt hv)]
      by_cases hpush : (pushbit rs.pp (decide (2 ^ 15 ≤ rs.iv.q)) false).1 = true
      · simp only [hpush,if_true]
        apply Encoded.cons (pushbit_pushed hpush)
        apply ih
        exact hv.shift hh
      · simp only [hpush,Bool.false_eq_true,if_false]
        rw [Bool.not_eq_true] at hpush
        refine ⟨⟨[],?_⟩,fun h => by cases h⟩
        rw [pushbit_false hpush]
        exact .refl _
    · simp only [if_neg hh]
      exact ⟨⟨[],.refl _⟩,fun _ => ⟨rfl,.refl _⟩⟩

theorem encode_encoded {rs : State} (hv : rs.iv.Valid 15) (A B : ℕ) (symbol : Bool) :
    Encoded rs (emit 15 17 [⟨cut A B,symbol⟩] rs.iv) (encode rs A B symbol) := by
  obtain ⟨hsome,hall⟩ := encodeLoop_encoded 17 hv
  rw [encode]
  by_cases hr : (encodeLoop 17 rs).1 = true
  · obtain ⟨hiv,hpushed⟩ := hall hr
    rw [if_pos hr]
    refine ⟨hsome,fun _ => ?_⟩
    rw [emit,emit]
    grind
  · rw [if_neg hr]
    exact ⟨hsome,fun h => absurd h hr⟩

theorem Encoded.andThen {rs : State} {cs ds : List Sym} {r : Bool × State}
    (h : Encoded rs (emit 15 17 cs rs.iv) r) {f : State → Bool × State}
    (hf : r.2.iv = (emit 15 17 cs rs.iv).2 → Encoded r.2 (emit 15 17 ds r.2.iv) (f r.2)) :
    Encoded rs (emit 15 17 (cs ++ ds) rs.iv) (if r.1 then f r.2 else r) := by
  obtain ⟨⟨bs,hbs⟩,hall⟩ := h
  by_cases hr : r.1 = true
  · rw [if_pos hr]
    obtain ⟨hiv,hpushed⟩ := hall hr
    obtain ⟨⟨bs',hbs'⟩,hall'⟩ := hf hiv
    refine ⟨⟨_,hbs.trans hbs'⟩,fun hr' => ?_⟩
    obtain ⟨hiv',hpushed'⟩ := hall' hr'
    rw [hiv] at hiv' hpushed'
    rw [emit_append]
    exact ⟨hiv',hpushed.trans hpushed'⟩
  · rw [if_neg hr]
    exact ⟨⟨bs,hbs⟩,fun h => absurd h hr⟩

def byteSyms : List ℕ → ℕ → List Sym
  | [], _ => []
  | b :: bits, byte => ⟨cut (256 - b) b,decide (byte % 2 = 1)⟩ :: byteSyms bits (byte / 2)

def dataSyms (bits : List ℕ) (data : List Byte) : List Sym :=
  data.flatMap fun byte => byteSyms bits byte.toNat

theorem cut_cuts (A B : ℕ) (symbol : Bool) : (⟨cut A B,symbol⟩ : Sym).Cuts := by
  intro p hp
  show 0 < cut A B p ∧ cut A B p < p
  rw [cut]
  generalize A * p / (A + B) = i0
  split <;> split <;> omega

theorem byteSyms_cuts (bits : List ℕ) (byte : ℕ) : ∀ c ∈ byteSyms bits byte, c.Cuts := by
  induction bits generalizing byte with
  | nil => exact fun c hc => absurd hc not_mem_nil
  | cons b bits ih => exact forall_mem_cons.mpr ⟨cut_cuts _ _ _,ih _⟩

theorem dataSyms_cuts (bits : List ℕ) (data : List Byte) : ∀ c ∈ dataSyms bits data, c.Cuts := by
  intro c hc
  obtain ⟨byte,-,hc⟩ := mem_flatMap.mp hc
  exact byteSyms_cuts bits _ c hc

section
variable {bits : List ℕ} {rs : State} (hv : rs.iv.Valid 15)
include hv

theorem outByteLoop_encoded (byte : ℕ) :
    Encoded rs (emit 15 17 (byteSyms bits byte) rs.iv) (outByteLoop bits byte rs) := by
  induction bits generalizing rs byte with
  | nil => exact ⟨⟨[],.refl _⟩,fun _ => ⟨rfl,.refl _⟩⟩
  | cons b bits ih =>
    apply Encoded.andThen (encode_encoded hv _ _ _)
    intro hiv
    apply ih
    rw [hiv]
    exact emit_valid (by decide) hv (forall_mem_singleton.mpr (cut_cuts _ _ _))

theorem outByte_cases (byte : Byte) :
    ((outByte bits rs byte).1 = true ∧
      (outByte bits rs byte).2.iv = (emit 15 17 (byteSyms bits byte.toNat) rs.iv).2 ∧
      Pushed rs.pp (emit 15 17 (byteSyms bits byte.toNat) rs.iv).1 (outByte bits rs byte).2.pp) ∨
    ((outByte bits rs byte).1 = false ∧ (outByte bits rs byte).2.iv = rs.iv ∧
      Pushed rs.pp [] (outByte bits rs byte).2.pp) := by
  obtain ⟨⟨bs,hbs⟩,hall⟩ := @outByteLoop_encoded bits _ hv byte.toNat
  rw [outByte]
  by_cases hr : (outByteLoop bits byte.toNat rs).1 = true
  · grind
  · rw [if_neg hr]
    exact .inr ⟨rfl,rfl,hbs.back⟩

theorem compressLoop_spec (data : List Byte) :
    (compressLoop bits data rs).2.iv =
        (emit 15 17 (dataSyms bits (data.take (compressLoop bits data rs).1)) rs.iv).2 ∧
      Pushed rs.pp (emit 15 17 (dataSyms bits (data.take (compressLoop bits data rs).1)) rs.iv).1
        (compressLoop bits data rs).2.pp := by
  induction data generalizing rs with
  | nil => exact ⟨rfl,.refl _⟩
  | cons byte data ih =>
    rw [compressLoop]
    obtain ⟨hr,hiv,hpushed⟩ | ⟨hr,hiv,hpushed⟩ := @outByte_cases bits _ hv byte
    · have hv' : (outByte bits rs byte).2.iv.Valid 15 := by
        rw [hiv]
        exact emit_valid (by decide) hv (byteSyms_cuts bits _)
      obtain ⟨ihiv,ihpushed⟩ := ih hv'
      rw [hiv] at ihiv ihpushed
      simp only [hr,if_true,take_succ_cons]
      rw [dataSyms,flatMap_cons,emit_append]
      exact ⟨ihiv,hpushed.trans ihpushed⟩
    · simp only [hr,Bool.false_eq_true,if_false]
      exact ⟨hiv,hpushed⟩

end

theorem endRound_bits {n q : ℕ} (hq : q < 2 ^ 16) {pp : PushPull} (hlen : pp.buflen < 4294967296)
    (hroom : pp.ofs + n ≤ pp.buflen) :
    (endRound^[n] (q,pp)).2.bits = pp.bits ++ flush 15 n q := by
  induction n generalizing q pp with
  | zero => exact (append_nil _).symm
  | succ n ih =>
    have hlt : pp.ofs < sub32 pp.buflen (if true then 0 else pp.reserve) := by
      rw [if_pos rfl,sub32_of_le (Nat.zero_le _) hlen]
      omega
    have hnext : q % 2 ^ 15 * 2 < 2 ^ 16 := by omega
    rw [Function.iterate_succ_apply,endRound,shl,pushbit_of_lt hlt,testBit_top hq,flush]
    generalize decide (2 ^ 15 ≤ q) = bit
    have hrest := @ih _ hnext { pp with buf := setBit pp.buf pp.ofs bit, ofs := pp.ofs + 1 } hlen
      (show pp.ofs + 1 + n ≤ pp.buflen by omega)
    rw [hrest,bits_setBit,append_assoc,singleton_append]

theorem endRubin_bits {q : ℕ} (hq : q < 2 ^ 16) {pp : PushPull} (hlen : pp.buflen < 4294967296)
    (hroom : pp.ofs + 16 ≤ pp.buflen) : (endRubin q pp).bits = pp.bits ++ flush 15 16 q := by
  exact endRound_bits hq hlen hroom

/-- The decoder has `bs` in front of it: 16 bits in the register and the others in memory. -/
structure Ahead (data : ℕ → Byte) (rs : Decoder) (bs : List Bool) : Prop where
  recq : rs.recq = window 16 bs
  memory : ∀ i, i + 16 < bs.length → bitAt data (rs.ofs + i) = bs.getD (i + 16) false

theorem shiftLoop_eq (n : ℕ) (s : Iv) :
    shiftLoop n s = ((renorm 15 n s).1.length,(renorm 15 n s).2) := by
  induction n generalizing s with
  | zero => rfl
  | succ n ih =>
    rw [shiftLoop,renorm]
    grind

theorem pullLoop_window {data : ℕ → Byte} {n ofs : ℕ} {bs : List Bool} (hn : n + 16 ≤ bs.length)
    (h : ∀ i, i + 16 < bs.length → bitAt data (ofs + i) = bs.getD (i + 16) false) :
    pullLoop data n ofs (window 16 bs) = window 16 (bs.drop n) := by
  induction n generalizing ofs bs with
  | zero => rfl
  | succ n ih =>
    obtain _ | ⟨b,bs⟩ := bs
    · simp at hn
    · rw [length_cons] at hn h
      have hbit : bitAt data ofs = bs.getD 15 false := h 0 (by omega)
      rw [pullLoop,shl,hbit,← window_tail,drop_succ_cons]
      apply ih (by omega)
      intro i hi
      have hnext := h (i + 1) (by omega)
      grind

theorem length_stream (cs : List Sym) (s : Iv) : 16 ≤ (stream 15 17 cs s).length := by
  rw [stream,length_append,length_flush]
  omega

theorem decode_ahead {data : ℕ → Byte} {rs : Decoder} (hv : rs.iv.Valid 15) {A B : ℕ}
    {symbol : Bool} {cs : List Sym} (hcs : ∀ c ∈ cs, c.Cuts)
    (h : Ahead data rs (stream 15 17 (⟨cut A B,symbol⟩ :: cs) rs.iv)) :
    (decode data A B rs).1 = symbol ∧
      (decode data A B rs).2.iv = (emit 15 17 [⟨cut A B,symbol⟩] rs.iv).2 ∧
      Ahead data (decode data A B rs).2 (stream 15 17 cs (decode data A B rs).2.iv) := by
  have hcuts : ∀ d ∈ (⟨cut A B,symbol⟩ : Sym) :: cs, d.Cuts :=
    forall_mem_cons.mpr ⟨cut_cuts A B symbol,hcs⟩
  have hone := decodeOne_stream (show 15 + 1 < 17 by decide) hv hcuts []
  rw [append_nil,append_nil,decodeOne] at hone
  obtain ⟨hrecq,hmemory⟩ := h
  generalize hbs : stream 15 17 (⟨cut A B,symbol⟩ :: cs) rs.iv = bs at hone hrecq hmemory
  have hlen : (renorm 15 17 rs.iv).1.length + 16 ≤ bs.length := by
    rw [← hbs,stream_cons,length_append]
    exact Nat.add_le_add_left (length_stream _ _) _
  obtain ⟨hsymbol,hrest⟩ := Prod.ext_iff.mp hone
  obtain ⟨hiv,hdrop⟩ := Prod.ext_iff.mp hrest
  dsimp only at hsymbol hiv hdrop
  have hpull := pullLoop_window hlen hmemory
  rw [decode,shiftLoop_eq,hrecq]
  rw [hpull,hsymbol]
  refine ⟨rfl,rfl,?_⟩
  rw [← hdrop]
  refine ⟨rfl,fun i hi => ?_⟩
  rw [length_drop] at hi
  have hbit := hmemory ((renorm 15 17 rs.iv).1.length + i) (by omega)
  grind

theorem inByteLoop_ahead {data : ℕ → Byte} {bits : List ℕ} {i result byte : ℕ} {rs : Decoder}
    (hv : rs.iv.Valid 15) (hi : result < 2 ^ i) {cs : List Sym} (hcs : ∀ c ∈ cs, c.Cuts)
    (h : Ahead data rs (stream 15 17 (byteSyms bits byte ++ cs) rs.iv)) :
    (inByteLoop data bits i result rs).1 = byte % 2 ^ bits.length * 2 ^ i + result ∧
      (inByteLoop data bits i result rs).2.iv = (emit 15 17 (byteSyms bits byte) rs.iv).2 ∧
      Ahead data (inByteLoop data bits i result rs).2
        (stream 15 17 cs (inByteLoop data bits i result rs).2.iv) := by
  induction bits generalizing i result byte rs with
  | nil =>
    refine ⟨?_,rfl,h⟩
    rw [length_nil,pow_zero,Nat.mod_one,zero_mul,zero_add]
    rfl
  | cons b bits ih =>
    have hrest : ∀ c ∈ byteSyms bits (byte / 2) ++ cs, c.Cuts :=
      forall_mem_append.mpr ⟨byteSyms_cuts bits _,hcs⟩
    obtain ⟨hsymbol,hiv,hahead⟩ := decode_ahead hv hrest h
    have hv' : (decode data (256 - b) b rs).2.iv.Valid 15 := by
      rw [hiv]
      exact emit_valid (by decide) hv (forall_mem_singleton.mpr (cut_cuts _ _ _))
    have hnat : (decide (byte % 2 = 1)).toNat = byte % 2 := by
      obtain h0 | h1 := Nat.mod_two_eq_zero_or_one byte
      · rw [h0]
        rfl
      · rw [h1]
        rfl
    -- the new bit is above all bits so far
    have hor : result ||| (decode data (256 - b) b rs).1.toNat <<< i = byte % 2 * 2 ^ i + result := by
      rw [hsymbol,hnat,Nat.or_comm,← Nat.shiftLeft_add_eq_or_of_lt hi,Nat.shiftLeft_eq]
    have hlt : byte % 2 * 2 ^ i + result < 2 ^ (i + 1) := by
      have hmul : byte % 2 * 2 ^ i ≤ 1 * 2 ^ i := Nat.mul_le_mul_right _ (by omega)
      omega
    rw [inByteLoop,hor]
    obtain ⟨ihbyte,ihiv,ihahead⟩ := ih hv' hlt hahead
    refine ⟨?_,?_,ihahead⟩
    · rw [ihbyte,length_cons,pow_succ' 2 bits.length,Nat.mod_mul,pow_succ]
      ring
    · have happ := @emit_append 15 17 rs.iv [⟨cut (256 - b) b,decide (byte % 2 = 1)⟩]
        (byteSyms bits (byte / 2))
      rw [singleton_append] at happ
      rw [ihiv,hiv,byteSyms,happ]

theorem decompressLoop_ahead {memory : ℕ → Byte} {bits : List ℕ} (hlen : bits.length = 8)
    {data : List Byte} {rs : Decoder} (hv : rs.iv.Valid 15)
    (h : Ahead memory rs (stream 15 17 (dataSyms bits data) rs.iv)) :
    decompressLoop memory bits data.length rs = data := by
  induction data generalizing rs with
  | nil => rfl
  | cons byte data ih =>
    obtain ⟨hbyte,hiv,hahead⟩ := inByteLoop_ahead hv (show 0 < 2 ^ 0 from Nat.one_pos)
      (dataSyms_cuts bits data) h
    have hv' : (inByteLoop memory bits 0 0 rs).2.iv.Valid 15 := by
      rw [hiv]
      exact emit_valid (by decide) hv (byteSyms_cuts bits _)
    have hval : (inByteLoop memory bits 0 0 rs).1 = byte.toNat := by
      have hlt : byte.toNat < 2 ^ 8 := byte.toNat_lt
      grind
    rw [length_cons,decompressLoop,hval,UInt8.ofNat_toNat,ih hv' hahead]

theorem initDecode_ahead {data : ℕ → Byte} {bs : List Bool} (hlen : 16 ≤ bs.length)
    (h : ∀ i < bs.length, bitAt data i = bs.getD i false) : Ahead data (initDecode data) bs := by
  have hfold : ∀ n ≤ bs.length,
      (range n).foldl (fun recq i => recq * 2 + (bitAt data i).toNat) 0 = window n bs := by
    intro n hn
    induction n with
    | zero => rfl
    | succ n ih =>
      rw [range_succ,foldl_append,ih (by omega),window_succ,← h n (by omega),mul_comm]
      rfl
  refine ⟨hfold 16 hlen,fun i hi => ?_⟩
  rw [← h _ hi,add_comm i]
  rfl

theorem initRubin_valid : initRubin.Valid 15 := ⟨by decide,by decide⟩

theorem compressLoop_le (bits : List ℕ) (data : List Byte) (rs : State) :
    (compressLoop bits data rs).1 ≤ data.length := by
  induction data generalizing rs with
  | nil => exact le_rfl
  | cons byte data ih =>
    rw [compressLoop,length_cons]
    by_cases hr : (outByte bits rs byte).1 = true
    · grind
    · grind

theorem endRubin_stream {bits : List ℕ} {data : List Byte} {pp : PushPull} (hofs : pp.ofs = 0)
    (hreserve : pp.reserve = 32) (hroom : 32 ≤ pp.buflen) (hlen : pp.buflen < 4294967296)
    {r : ℕ × State} (hr : compressLoop bits data ⟨initRubin,pp⟩ = r) :
    (endRubin r.2.iv.q r.2.pp).bits = stream 15 17 (dataSyms bits (data.take r.1)) initRubin ∧
      (endRubin r.2.iv.q r.2.pp).ofs ≤ pp.buflen := by
  obtain ⟨hiv,hpushed⟩ := @compressLoop_spec bits ⟨initRubin,pp⟩ initRubin_valid data
  rw [hr] at hiv hpushed
  dsimp only at hiv hpushed
  obtain ⟨hbits,hbuflen,-,hofs'⟩ := hpushed
  have hnil : pp.bits = [] := by
    rw [PushPull.bits,hofs]
    rfl
  rw [hofs,hreserve,sub32_of_le hroom hlen] at hofs'
  have hfits : r.2.pp.ofs + 16 ≤ r.2.pp.buflen := by
    omega
  have hq : r.2.iv.q < 2 ^ 16 := by
    rw [hiv]
    exact Valid.q_lt (emit_valid (by decide) initRubin_valid (dataSyms_cuts bits _))
  have hend := endRubin_bits hq (hbuflen.trans_lt hlen) hfits
  have hlength := congrArg length hend
  rw [length_append,length_flush,PushPull.length_bits,PushPull.length_bits] at hlength
  refine ⟨?_,by omega⟩
  rw [hend,hbits,hnil,nil_append,hiv,stream]

/-- What `rubin_do_compress` reports, and what is in memory then. -/
theorem rubinDoCompress_spec {bits : List ℕ} {data : List Byte} {buf : ℕ → Byte} {dstlen : ℕ}
    (hroom : 32 ≤ u32 (dstlen * 8)) (hsign : u32 (dstlen * 8) < 2147483648) {pos outpos : ℕ}
    (h : (rubinDoCompress bits data buf dstlen).2 = some (pos,outpos)) :
    pos ≤ data.length ∧ outpos ≤ 268435456 ∧
      ∀ i < (stream 15 17 (dataSyms bits (data.take pos)) initRubin).length, i / 8 < outpos ∧
        bitAt (rubinDoCompress bits data buf dstlen).1 i =
          (stream 15 17 (dataSyms bits (data.take pos)) initRubin).getD i false := by
  rw [rubinDoCompress] at h ⊢
  generalize hpp : PushPull.mk buf (u32 (dstlen * 8)) 0 32 = pp at h ⊢
  have hbuflen : pp.buflen = u32 (dstlen * 8) := by rw [← hpp]
  rw [← hbuflen] at hroom hsign
  have hle := compressLoop_le bits data ⟨initRubin,pp⟩
  generalize hr : compressLoop bits data ⟨initRubin,pp⟩ = r at hle h ⊢
  obtain ⟨hbits,hofs⟩ := endRubin_stream (by rw [← hpp]) (by rw [← hpp]) hroom (by omega) hr
  generalize endRubin r.2.iv.q r.2.pp = pe at hbits hofs h ⊢
  have hs : s32 pe.ofs = pe.ofs := s32_of_lt (by omega) (by omega)
  rw [hs] at h
  split at h
  · cases h
  · obtain ⟨rfl,rfl⟩ := Prod.mk.inj (Option.some.inj h)
    have hpos : (((pe.ofs + 7 : ℤ)).tdiv 8 % 2 ^ 32).toNat = (pe.ofs + 7) / 8 := by
      have hcast : ((pe.ofs + 7 : ℤ)).tdiv 8 = ((pe.ofs + 7) / 8 : ℕ) := by
        rfl
      omega
    rw [hpos,← hbits]
    refine ⟨hle,by omega,fun i hi => ?_⟩
    rw [PushPull.length_bits] at hi
    refine ⟨by omega,?_⟩
    rw [PushPull.bits,getD_eq_getElem?_getD,getElem?_map,getElem?_range hi,
      Option.map_some,Option.getD_some]

theorem probability_lt (data : List Byte) (i : ℕ) : probability data i < 256 := by
  rw [probability]
  split <;> split <;> omega

theorem toNat_probabilities (data rest : List Byte) :
    ((((range 8).map (probability data)).map UInt8.ofNat ++ rest).take 8).map UInt8.toNat =
      (range 8).map (probability data) := by
  have hlen : (((range 8).map (probability data)).map UInt8.ofNat).length = 8 := by
    rfl
  rw [take_append_of_le_length hlen.ge,take_of_length_le hlen.le,map_map,map_map]
  apply map_congr_left
  intro i _
  exact UInt8.toNat_ofNat_of_lt (probability_lt data i)

/-- The bits of the destination behind the probabilities, in the 32 bits the coder counts them in. -/
def room (dstlen : ℕ) : ℕ := u32 (sub32 dstlen 8 * 8)

theorem dynrubinCompress_some {data : List Byte} {buf : ℕ → Byte} {dstlen pos : ℕ}
    {out : List Byte} (h : dynrubinCompress data buf dstlen = some (pos,out)) :
    ∃ outpos, (rubinDoCompress ((range 8).map (probability data)) data buf
        (sub32 dstlen 8)).2 = some (pos,outpos) ∧
      out = (((range 8).map (probability data)).map UInt8.ofNat ++
        (range outpos).map (rubinDoCompress ((range 8).map (probability data)) data buf
          (sub32 dstlen 8)).1).take (u32 (outpos + 8)) := by
  rw [dynrubinCompress] at h
  split at h
  · cases h
  obtain ⟨⟨p,outpos⟩,hr,h⟩ := Option.bind_eq_some_iff.mp h
  dsimp only at h
  generalize hmy : u32 (outpos + 8) = mydstlen at h
  split at h
  · cases h
  · obtain ⟨rfl,rfl⟩ := Prod.mk.inj (Option.some.inj h)
    refine ⟨outpos,hr,?_⟩
    rw [hmy]

/-- What was compressed is decompressed to the part that was taken, whatever stands behind it. -/
theorem dynrubin_round_trip {data : List Byte} {buf : ℕ → Byte} {dstlen : ℕ}
    (hroom : 32 ≤ room dstlen) (hsign : room dstlen < 2147483648) {pos : ℕ} {out : List Byte}
    (h : dynrubinCompress data buf dstlen = some (pos,out)) (tail : List Byte) :
    pos ≤ data.length ∧ dynrubinDecompress (out ++ tail) pos = data.take pos := by
  obtain ⟨outpos,hr,rfl⟩ := dynrubinCompress_some h
  obtain ⟨hpos,hout,hmemory⟩ := rubinDoCompress_spec hroom hsign hr
  have hprob := toNat_probabilities data
  generalize hbits : (range 8).map (probability data) = bits at hr hmemory hprob ⊢
  generalize (rubinDoCompress bits data buf (sub32 dstlen 8)).1 = memory at hmemory ⊢
  have hlen : (bits.map UInt8.ofNat).length = 8 := by
    grind
  have htake : (bits.map UInt8.ofNat ++ (range outpos).map memory).take (u32 (outpos + 8)) =
      bits.map UInt8.ofNat ++ (range outpos).map memory := by
    apply take_of_length_le
    rw [u32_of_lt (by omega),length_append,hlen,length_map,length_range]
    omega
  rw [htake,append_assoc,dynrubinDecompress,hprob]
  refine ⟨hpos,?_⟩
  -- the bytes stand behind the eight probabilities
  have hbyte : ∀ j < outpos, (bits.map UInt8.ofNat ++ ((range outpos).map memory ++
      tail)).getD (8 + j) 0 = memory j := by
    intro j hj
    rw [getD_eq_getElem?_getD,getElem?_append_right (by omega),hlen,
      Nat.add_sub_cancel_left,getElem?_append_left (by simpa using hj),getElem?_map,
      getElem?_range hj,Option.map_some,Option.getD_some]
  generalize bits.map UInt8.ofNat ++ ((range outpos).map memory ++ tail) = src at hbyte ⊢
  have hahead : Ahead (fun i => src.getD (8 + i) 0) (initDecode fun i => src.getD (8 + i) 0)
      (stream 15 17 (dataSyms bits (data.take pos)) initRubin) := by
    apply initDecode_ahead (length_stream _ _)
    intro i hi
    obtain ⟨hlt,hbit⟩ := hmemory i hi
    rw [← hbit,bitAt,bitAt,hbyte _ hlt]
  have hloop := decompressLoop_ahead (by rw [← hlen,length_map]) initRubin_valid hahead
  grind

def zerosOne (n : ℕ) : List Byte := replicate n 0 ++ [1]

theorem dynrubin_round_trip_page :
    dynrubinCompress (zerosOne 39) (fun _ => 0) 4096 =
        some (40,[6,1,1,1,1,1,1,1,33,240,0]) ∧
      dynrubinDecompress ([6,1,1,1,1,1,1,1,33,240,0] ++ [7]) 40 = zerosOne 39 := by
  have h : dynrubinCompress (zerosOne 39) (fun _ => 0) 4096 =
      some (40,[6,1,1,1,1,1,1,1,33,240,0]) := by decide +kernel
  exact ⟨h,(dynrubin_round_trip (by decide +kernel) (by decide +kernel) h [7]).2⟩

/-- The bits of a destination of `2 ^ 29 + 8` bytes are counted as none: nothing is refused in
the loop, and the register is not written behind it. -/
theorem dynrubin_lost :
    dynrubinCompress (zerosOne 12) (fun _ => 0) 536870920 = some (13,[19,1,1,1,1,1,1,1,64]) ∧
      dynrubinDecompress [19,1,1,1,1,1,1,1,64] 13 ≠ zerosOne 12 := by
  decide +kernel

end Simpad.Jffs2.Rubin
