import Simpad.Jffs2.Rubin

/-! Compressed data nodes. The zlib library is a parameter; `Codecs.Lawful` is what the callers
rely on. -/

namespace Simpad.Jffs2
open Word List Function

/-- Inner loop of `rtime_compress`: how far the text at `pos` repeats the one at `backpos`. -/
def runLength (data : List Byte) (backpos pos : ℕ) : ℕ → ℕ
  | 0 => 0
  | n + 1 =>
    if backpos < pos ∧ pos < data.length ∧ data.getD pos 0 = data.getD backpos 0 then
      runLength data (backpos + 1) (pos + 1) n + 1
    else 0

/-- Outer loop of `rtime_compress`; the text read so far ends at `pos`. -/
def rtimeCompressLoop (data : List Byte) (dstlen : ℕ) :
    ℕ → (Byte → ℕ) → List Byte → ℕ → ℕ × List Byte
  | 0, _, out, pos => (pos,out)
  | fuel + 1, positions, out, pos =>
    if pos < data.length ∧ out.length ≤ sub32 dstlen 2 then
      let value := data.getD pos 0
      let backpos := positions value
      let runlen := runLength data backpos (pos + 1) 255
      rtimeCompressLoop data dstlen fuel (update positions value (pos + 1))
        (out ++ [value,UInt8.ofNat runlen]) (pos + 1 + runlen)
    else (pos,out)

/-- Length of the part that was compressed, and what it became. -/
def rtimeCompress (data : List Byte) (dstlen : ℕ) : Option (ℕ × List Byte) :=
  let r := rtimeCompressLoop data dstlen data.length (fun _ => 0) [] 0
  if r.1 ≤ r.2.length then none else some r

/-- Copy byte by byte, so that the copy may read what it has written. -/
def copyFrom (out : List Byte) (backoffs : ℕ) : ℕ → List Byte
  | 0 => out
  | n + 1 => copyFrom (out ++ [out.getD backoffs 0]) (backoffs + 1) n

def rtimeDecompressLoop (destlen : ℕ) : ℕ → (Byte → ℕ) → List Byte → List Byte → List Byte
  | 0, _, _, out => out
  | fuel + 1, positions, src, out =>
    if out.length < destlen then
      let value := src.getD 0 0
      let rep := (src.getD 1 0).toNat
      let backoffs := positions value
      let out := out ++ [value]
      rtimeDecompressLoop destlen fuel (update positions value out.length) (src.drop 2)
        (if out.length ≤ backoffs + rep then copyFrom out backoffs rep
          else out ++ (out.drop backoffs).take rep)
    else out

def rtimeDecompress (src : List Byte) (destlen : ℕ) : List Byte :=
  rtimeDecompressLoop destlen destlen (fun _ => 0) src []

/-- The same loop with what it has left of `src`. -/
def rtimeDecompressRest (destlen : ℕ) :
    ℕ → (Byte → ℕ) → List Byte → List Byte → List Byte × List Byte
  | 0, _, src, out => (out,src)
  | fuel + 1, positions, src, out =>
    if out.length < destlen then
      let value := src.getD 0 0
      let rep := (src.getD 1 0).toNat
      let backoffs := positions value
      let out := out ++ [value]
      rtimeDecompressRest destlen fuel (update positions value out.length) (src.drop 2)
        (if out.length ≤ backoffs + rep then copyFrom out backoffs rep
          else out ++ (out.drop backoffs).take rep)
    else (out,src)

variable {data out src : List Byte} {pos backpos n dstlen : ℕ} {positions : Byte → ℕ}

theorem rtimeDecompressRest_fst (destlen fuel : ℕ) :
    (rtimeDecompressRest destlen fuel positions src out).1 =
      rtimeDecompressLoop destlen fuel positions src out := by
  induction fuel generalizing positions src out with
  | zero => rfl
  | succ fuel ih =>
    rw [rtimeDecompressRest,rtimeDecompressLoop]
    split
    · exact ih
    · rfl

theorem runLength_le : runLength data backpos pos n ≤ n := by
  induction n generalizing backpos pos with
  | zero => exact Nat.le_refl 0
  | succ n ih =>
    rw [runLength]
    grind

theorem runLength_end (h : pos ≤ data.length) :
    pos + runLength data backpos pos n ≤ data.length := by
  induction n generalizing backpos pos with
  | zero => exact h
  | succ n ih =>
    rw [runLength]
    split
    · next hc =>
      have hrest : pos + 1 + runLength data (backpos + 1) (pos + 1) n ≤ data.length := ih hc.2.1
      omega
    · exact h

theorem getD_of_lt (h : pos < data.length) : data.getD pos 0 = data[pos] := by
  grind

theorem take_snoc (h : pos < data.length) :
    data.take pos ++ [data.getD pos 0] = data.take (pos + 1) := by
  rw [take_add_one,getElem?_eq_getElem h,getD_of_lt h]
  rfl

theorem getD_take {i : ℕ} (h : i < pos) : (data.take pos).getD i 0 = data.getD i 0 := by
  grind

/-- Copying a repeated run from the text before `pos` continues the text. -/
theorem copyFrom_runLength : copyFrom (data.take pos) backpos (runLength data backpos pos n) =
    data.take (pos + runLength data backpos pos n) := by
  induction n generalizing backpos pos with
  | zero => rfl
  | succ n ih =>
    by_cases hc : backpos < pos ∧ pos < data.length ∧ data.getD pos 0 = data.getD backpos 0
    · rw [runLength,if_pos hc,copyFrom,getD_take hc.1,← hc.2.2,take_snoc hc.2.1,ih]
      congr 1
      omega
    · rw [runLength,if_neg hc]
      rfl

theorem copyFrom_eq_append (h : backpos + n ≤ out.length) :
    copyFrom out backpos n = out ++ (out.drop backpos).take n := by
  induction n generalizing backpos out with
  | zero => simp [copyFrom]
  | succ n ih =>
    have hlt : backpos < out.length := by omega
    rw [copyFrom,ih (by grind),
      drop_append_of_le_length (by omega),take_append_of_le_length (by
        rw [length_drop]; omega),drop_eq_getElem_cons hlt,take_succ_cons,
      getD_of_lt hlt,append_assoc]
    rfl

theorem rtimeDecompressRest_step (positions : Byte → ℕ) (src : List Byte) (fuel : ℕ)
    (h : pos < data.length) (hp : pos < n) :
    let value := data.getD pos 0
    let runlen := runLength data (positions value) (pos + 1) 255
    rtimeDecompressRest n (fuel + 1) positions (value :: UInt8.ofNat runlen :: src) (data.take pos) =
      rtimeDecompressRest n fuel (update positions value (pos + 1)) src
        (data.take (pos + 1 + runlen)) := by
  intro value runlen
  have hlen : (data.take pos).length = pos := by rw [length_take]; omega
  have hlen' : (data.take (pos + 1)).length = pos + 1 := by rw [length_take]; omega
  have hrun : (UInt8.ofNat runlen).toNat = runlen := by
    have hle : runlen ≤ 255 := runLength_le
    rw [UInt8.toNat_ofNat']
    exact Nat.mod_eq_of_lt (by omega)
  have hcopy : copyFrom (data.take (pos + 1)) (positions value) runlen =
      data.take (pos + 1 + runlen) := copyFrom_runLength
  rw [rtimeDecompressRest,if_pos (by omega)]
  simp only [getD_cons_zero,getD_cons_succ,drop_succ_cons,drop_zero]
  rw [take_snoc h,hlen',hrun]
  by_cases hc : pos + 1 ≤ positions value + runlen
  · rw [if_pos hc,hcopy]
  · rw [if_neg hc,← copyFrom_eq_append (by omega),hcopy]

theorem rtimeDecompressRest_done (fuel : ℕ) (hpos : pos ≤ data.length) :
    rtimeDecompressRest pos fuel positions src (data.take pos) = (data.take pos,src) := by
  cases fuel with
  | zero => rfl
  | succ fuel =>
    rw [rtimeDecompressRest,if_neg]
    rw [length_take]
    omega

/-- The encoder appends codes from which the decoder continues the text it has; what follows them
is not read. -/
theorem rtimeCompressLoop_spec (dstlen fuel : ℕ) (out : List Byte) (hpos : pos ≤ data.length)
    (hb : ∀ v, positions v ≤ pos) :
    ∃ n rest, rtimeCompressLoop data dstlen fuel positions out pos = (n,out ++ rest) ∧
      pos ≤ n ∧ n ≤ data.length ∧
      ∀ fuel' tail, n ≤ pos + fuel' →
        rtimeDecompressRest n fuel' positions (rest ++ tail) (data.take pos) =
          (data.take n,tail) := by
  induction fuel generalizing positions out pos with
  | zero =>
    exact ⟨pos,[],by simp [rtimeCompressLoop],le_rfl,hpos,
      fun fuel' tail _ => rtimeDecompressRest_done fuel' hpos⟩
  | succ fuel ih =>
    rw [rtimeCompressLoop]
    by_cases hc : pos < data.length ∧ out.length ≤ sub32 dstlen 2
    · rw [if_pos hc]
      have hend : pos + 1 + runLength data (positions (data.getD pos 0)) (pos + 1) 255 ≤
          data.length := runLength_end hc.1
      have hb' : ∀ v, update positions (data.getD pos 0) (pos + 1) v ≤
          pos + 1 + runLength data (positions (data.getD pos 0)) (pos + 1) 255 := by
        intro v
        rw [update_apply]
        have := hb v
        split <;> omega
      generalize hv : data.getD pos 0 = value at hend hb'
      generalize hr : runLength data (positions value) (pos + 1) 255 = runlen at hend hb'
      obtain ⟨n,rest,hloop,hn,hnl,hdec⟩ := ih (out ++ [value,UInt8.ofNat runlen]) hend hb'
      refine ⟨n,value :: UInt8.ofNat runlen :: rest,?_,by omega,hnl,?_⟩
      · grind
      · intro fuel' tail hf
        obtain ⟨k,rfl⟩ : ∃ k, fuel' = k + 1 := ⟨fuel' - 1,by omega⟩
        have hstep := rtimeDecompressRest_step positions (rest ++ tail) k hc.1
          (show pos < n by omega)
        grind
    · rw [if_neg hc]
      exact ⟨pos,[],by simp,le_rfl,hpos,
        fun fuel' tail _ => rtimeDecompressRest_done fuel' hpos⟩

theorem rtimeCompress_rest (h : rtimeCompress data dstlen = some (n,out)) (tail : List Byte) :
    out.length < n ∧ n ≤ data.length ∧
      rtimeDecompressRest n n (fun _ => 0) (out ++ tail) [] = (data.take n,tail) := by
  obtain ⟨m,rest,hloop,-,hm,hdec⟩ := rtimeCompressLoop_spec dstlen data.length []
    (Nat.zero_le data.length) (fun _ => Nat.le_refl 0)
  simp only [rtimeCompress,hloop,nil_append] at h
  split at h
  · cases h
  · grind

theorem rtimeCompress_spec (h : rtimeCompress data dstlen = some (n,out)) :
    out.length < n ∧ n ≤ data.length ∧ rtimeDecompress out n = data.take n := by
  obtain ⟨hlt,hle,hrest⟩ := rtimeCompress_rest h []
  rw [append_nil] at hrest
  refine ⟨hlt,hle,?_⟩
  rw [rtimeDecompress,← rtimeDecompressRest_fst,hrest]

/-- `untouched` is what the output buffer holds where nothing is written to it. -/
structure Codecs where
  zlibCompress : List Byte → ℕ → Option (ℕ × List Byte)
  zlibDecompress : List Byte → ℕ → List Byte
  untouched : ℕ → List Byte

/-- `zlib_compress` fails unless it saves space, and inflating gives the text back. -/
structure Codecs.Lawful (c : Codecs) : Prop where
  zlib_size : ∀ {data dstlen n out}, c.zlibCompress data dstlen = some (n,out) →
    out.length < n ∧ n ≤ data.length
  zlib_round : ∀ {data dstlen n out}, c.zlibCompress data dstlen = some (n,out) →
    c.zlibDecompress out n = data.take n

def Codecs.idle : Codecs where
  zlibCompress _ _ := none
  zlibDecompress _ _ := []
  untouched _ := []

theorem Codecs.idle_lawful : Codecs.idle.Lawful :=
  ⟨fun h => absurd h (by simp [Codecs.idle]),fun h => absurd h (by simp [Codecs.idle])⟩

variable (c : Codecs)

/-- `jffs2_compress`: the type, the length of the text taken, and its code. -/
def compress (data : List Byte) (cdatalen : ℕ) : Compr × ℕ × List Byte :=
  match c.zlibCompress data cdatalen with
  | some (n,out) => (.zlib,n,out)
  | none =>
    match rtimeCompress data cdatalen with
    | some (n,out) => (.rtime,n,out)
    | none => (.none,data.length,[])

def decompress (comprtype : Compr) (cdata : List Byte) (datalen : ℕ) : Except Errno (List Byte) :=
  match comprtype with
  | .none => .ok (cdata.take datalen)
  | .zero => .ok (replicate datalen 0)
  | .zlib => .ok (c.zlibDecompress cdata datalen)
  | .rtime => .ok (rtimeDecompress cdata datalen)
  | .rubinmips => .ok (c.untouched datalen)
  | .dynrubin => .ok (Rubin.dynrubinDecompress cdata datalen)
  | .copy => .error .eio

/-- What `jffs2_commit_write` and `jffs2_garbage_collect_dnode` store for the start of `data`
when `cdatalen` bytes fit; without compression the text itself is cut to `cdatalen`. -/
def packData (data : List Byte) (cdatalen : ℕ) : Compr × ℕ × List Byte :=
  let r := compress c data cdatalen
  if r.1 = .none then (.none,cdatalen,data.take cdatalen) else r

def RawInode.text (ri : RawInode) (data : List Byte) : Except Errno (List Byte) :=
  if ri.compr = .none then .ok (data.take ri.csize)
  else decompress c ri.compr (data.take ri.csize) ri.dsize

/-- `jffs2_read_dnode`: what it stores at the start of the buffer. -/
def readDnode (raw : RawNode) (ofs len : ℕ) : Except Errno (List Byte) :=
  match raw with
  | .dirent _ _ => .error .eio
  | .inode ri data =>
    if ri.compr = .zero then .ok (replicate len 0)
    else
      match ri.text c data with
      | .error e => .error e
      | .ok out => .ok (if len < ri.dsize then (out.drop ofs).take len else out)

/-- `fn->size`; hole nodes were once written with `csize` and `dsize` swapped. -/
def RawInode.fnSize (ri : RawInode) : ℕ :=
  if ri.compr = .zero ∧ ri.dsize = 0 ∧ ri.csize ≠ 0 then ri.csize else ri.dsize

/-- Byte `k` of the text of a node. -/
def RawNode.byte (raw : RawNode) (k : ℕ) : Byte :=
  match raw with
  | .dirent _ _ => 0
  | .inode ri data =>
    if ri.compr = .zero then 0
    else
      match ri.text c data with
      | .error _ => 0
      | .ok out => out.getD k 0

/-- The node is a hole, or its data decompresses to as much as it says. -/
def RawInode.Sound (ri : RawInode) (data : List Byte) : Prop :=
  ri.compr = .zero ∨ ∃ out, ri.text c data = .ok out ∧ out.length = ri.dsize

variable {c}

theorem packData_spec (hc : c.Lawful) {cdatalen : ℕ} (hd : 0 < cdatalen)
    (hle : cdatalen ≤ data.length) :
    ∃ t n out, packData c data cdatalen = (t,n,out) ∧ 0 < n ∧ n ≤ data.length ∧ t ≠ .zero ∧
      ∀ ri : RawInode, ri.compr = t → ri.csize = out.length → ri.dsize = n →
        ri.text c out = .ok (data.take n) := by
  unfold packData compress
  cases hz : c.zlibCompress data cdatalen with
  | some r =>
    obtain ⟨n,out⟩ := r
    have hsize := hc.zlib_size hz
    refine ⟨.zlib,n,out,by simp,by omega,hsize.2,by simp,?_⟩
    intro ri ht hcs hds
    rw [RawInode.text,ht,if_neg (by simp),hcs,take_length,hds]
    simp only [decompress,hc.zlib_round hz]
  | none =>
    cases hr : rtimeCompress data cdatalen with
    | some r =>
      obtain ⟨n,out⟩ := r
      obtain ⟨hlt,hn,hround⟩ := rtimeCompress_spec hr
      refine ⟨.rtime,n,out,by simp,by omega,hn,by simp,?_⟩
      intro ri ht hcs hds
      rw [RawInode.text,ht,if_neg (by simp),hcs,take_length,hds]
      simp only [decompress,hround]
    | none =>
      refine ⟨.none,cdatalen,data.take cdatalen,by simp,hd,hle,by simp,?_⟩
      intro ri ht hcs hds
      rw [RawInode.text,ht,if_pos rfl,hcs,take_length]

theorem readDnode_spec {ri : RawInode} (hs : ri.Sound c data) {ofs len : ℕ}
    (hle : ri.compr ≠ .zero → ofs + len ≤ ri.dsize) :
    ∃ l, readDnode c (.inode ri data) ofs len = .ok l ∧ l.length = len ∧
      ∀ k < len, l.getD k 0 = (RawNode.inode ri data).byte c (ofs + k) := by
  unfold readDnode RawNode.byte
  by_cases hz : ri.compr = .zero
  · simp only [hz,if_true]
    grind
  · obtain ⟨out,htext,hlen⟩ := hs.resolve_left hz
    have hle := hle hz
    simp only [hz,if_false,htext]
    refine ⟨_,rfl,?_,fun k hk => ?_⟩
    · grind
    · simp only [getD_eq_getElem?_getD]
      split
      · grind
      · have hofs : ofs = 0 := by omega
        rw [hofs,zero_add]

end Simpad.Jffs2
