import Simpad.Jffs2.Compr

namespace Simpad.Jffs2
open Word

/-- Decoding what `rtime_compress` made of the text gives the text back; all of the code is read and
nothing behind it. -/
theorem rtime_round_trip {data out : List Byte} {dstlen s : ℕ}
    (h : rtimeCompress data dstlen = some (s,out)) :
    rtimeDecompress out s = data.take s ∧ (rtimeDecompress out s).length = s ∧
      ∀ tail, rtimeDecompressRest s s (fun _ => 0) (out ++ tail) [] = (data.take s,tail) := by
  obtain ⟨-,hle,hround⟩ := rtimeCompress_spec h
  refine ⟨hround,?_,fun tail => (rtimeCompress_rest h tail).2.2⟩
  grind

theorem rtime_round_trip_run :
    rtimeCompress [7,7,7,7,7,7] 6 = some (6,[7,5]) ∧
      rtimeDecompress [7,5] 6 = [7,7,7,7,7,7] := by
  have h : rtimeCompress [7,7,7,7,7,7] 6 = some (6,[7,5]) := by decide
  exact ⟨h,(rtime_round_trip h).1⟩

variable {positions : Byte → ℕ} {data out : List Byte}

theorem rtimeCompressLoop_length {dstlen : ℕ} (hd : 2 ≤ dstlen) (hlt : dstlen < 4294967296)
    (fuel : ℕ) {pos : ℕ} (h : out.length ≤ dstlen) :
    (rtimeCompressLoop data dstlen fuel positions out pos).2.length ≤ dstlen := by
  induction fuel generalizing positions out pos with
  | zero => exact h
  | succ fuel ih =>
    rw [rtimeCompressLoop,sub32_of_le hd hlt]
    grind

theorem length_le_rtimeCompressLoop (dstlen fuel : ℕ) {pos : ℕ} :
    out.length ≤ (rtimeCompressLoop data dstlen fuel positions out pos).2.length := by
  induction fuel generalizing positions out pos with
  | zero => exact le_rfl
  | succ fuel ih =>
    rw [rtimeCompressLoop]
    grind

inductive ZRet
  | ok | streamEnd | other
deriving DecidableEq

/-- What a call of `deflate` would like to do. -/
structure Deflated where
  ret : ZRet
  consumed : ℕ
  produced : ℕ

/-- The counts of a `z_stream`; `next_out` is at `totalOut`. -/
structure Strm where
  totalIn : ℕ
  totalOut : ℕ
  availIn : ℕ
  availOut : ℕ

/-- `deflate` keeps to what is available. -/
def Strm.deflate (s : Strm) (a : Deflated) : Strm where
  totalIn := s.totalIn + min a.consumed s.availIn
  totalOut := s.totalOut + min a.produced s.availOut
  availIn := s.availIn - min a.consumed s.availIn
  availOut := s.availOut - min a.produced s.availOut

/-- The loop of `zlib_compress`, and the number of calls if it comes to its end.  `answer k` is what
call `k` does. -/
def zlibLoop (answer : ℕ → Deflated) (sourcelen dstlen : ℕ) : ℕ → ℕ → Strm → Strm × Option ℕ
  | 0, _, s => (s,none)
  | fuel + 1, k, s =>
    if s.totalOut < sub32 dstlen 12 ∧ s.totalIn < sourcelen then
      let availOut := sub32 dstlen (s.totalOut + 12)
      let availIn := min (sub32 sourcelen s.totalIn) availOut
      let s := Strm.deflate { s with availIn := availIn, availOut := availOut } (answer k)
      if (answer k).ret ≠ .ok then (s,none) else zlibLoop answer sourcelen dstlen fuel (k + 1) s
    else (s,some k)

/-- `zlib_compress`: the stream it leaves, and the lengths if it returns 0.  `avail` is what the
uninitialised `avail_in` and `avail_out` hold, `init` says whether `deflateInit` succeeds. -/
def zlibCompress (answer : ℕ → Deflated) (init : Bool) (avail : ℕ × ℕ) (sourcelen dstlen fuel : ℕ) :
    Strm × Option (ℕ × ℕ) :=
  let s : Strm := ⟨0,0,avail.1,avail.2⟩
  if dstlen ≤ 12 then (s,none)
  else if !init then (s,none)
  else
    match zlibLoop answer sourcelen dstlen fuel 0 s with
    | (s,none) => (s,none)
    | (s,some k) =>
      let s := Strm.deflate { s with availIn := 0, availOut := u32 (s.availOut + 12) } (answer k)
      if (answer k).ret ≠ .streamEnd then (s,none)
      else if s.totalIn ≤ s.totalOut then (s,none)
      else (s,some (s.totalIn,s.totalOut))

section
variable {answer : ℕ → Deflated} {sourcelen dstlen : ℕ} {s : Strm}

theorem Strm.deflate_out (s : Strm) (a : Deflated) :
    (s.deflate a).totalOut + (s.deflate a).availOut = s.totalOut + s.availOut := by
  show s.totalOut + min a.produced s.availOut + (s.availOut - min a.produced s.availOut) = _
  omega

theorem zlibLoop_spec (hd : 12 < dstlen) (hlt : dstlen < 4294967296) (fuel k : ℕ)
    (hs : s.totalOut + 12 ≤ dstlen)
    (hroom : s.totalOut + s.availOut + 12 = dstlen ∨
      s.totalOut + 12 < dstlen ∧ s.totalIn < sourcelen) :
    (zlibLoop answer sourcelen dstlen fuel k s).1.totalOut + 12 ≤ dstlen ∧
      ((zlibLoop answer sourcelen dstlen fuel k s).2 ≠ none →
        (zlibLoop answer sourcelen dstlen fuel k s).1.totalOut +
          (zlibLoop answer sourcelen dstlen fuel k s).1.availOut + 12 = dstlen) := by
  induction fuel generalizing k s with
  | zero => exact ⟨hs,fun hn => absurd rfl hn⟩
  | succ fuel ih =>
    have h12 : sub32 dstlen 12 = dstlen - 12 := sub32_of_le (by omega) hlt
    have hout : sub32 dstlen (s.totalOut + 12) = dstlen - (s.totalOut + 12) := sub32_of_le hs hlt
    rw [zlibLoop,h12,hout]
    split
    · dsimp only
      generalize hu : Strm.deflate _ (answer k) = u
      have hsum := Strm.deflate_out
        { s with
          availIn := min (sub32 sourcelen s.totalIn) (dstlen - (s.totalOut + 12))
          availOut := dstlen - (s.totalOut + 12) } (answer k)
      grind
    · grind

theorem zlibCompress_out (init : Bool) (avail : ℕ × ℕ) (hn : 0 < sourcelen)
    (hlt : dstlen < 4294967296) (fuel : ℕ) :
    (zlibCompress answer init avail sourcelen dstlen fuel).1.totalOut ≤ dstlen := by
  rw [zlibCompress]
  split
  · exact Nat.zero_le _
  · next hd =>
    split
    · exact Nat.zero_le _
    · obtain ⟨hout,hroom⟩ := @zlibLoop_spec answer sourcelen dstlen ⟨0,0,avail.1,avail.2⟩
        (by omega) hlt fuel 0 (show 0 + 12 ≤ dstlen by omega)
        (Or.inr ⟨(show 0 + 12 < dstlen by omega),hn⟩)
      rcases hl : zlibLoop answer sourcelen dstlen fuel 0 ⟨0,0,avail.1,avail.2⟩ with ⟨s,_ | k⟩
      · grind
      · rw [hl] at hroom
        have hsum := hroom (Option.some_ne_none k)
        have h12 : u32 (s.availOut + 12) = s.availOut + 12 :=
          u32_of_lt (by dsimp only at hsum; omega)
        dsimp only
        generalize hu : Strm.deflate _ (answer k) = u
        have hfin := Strm.deflate_out
          { s with availIn := 0, availOut := u32 (s.availOut + 12) } (answer k)
        rw [hu,h12] at hfin
        dsimp only at hfin hsum
        have hle : u.totalOut ≤ dstlen := by omega
        grind

end

/-- Where the writes of `jffs2_compress` to `cpage_out` end; both compressors start at its front. -/
def compressEnd (answer : ℕ → Deflated) (init : Bool) (avail : ℕ × ℕ) (fuel : ℕ) (data : List Byte)
    (cdatalen : ℕ) : ℕ :=
  let z := zlibCompress answer init avail data.length cdatalen fuel
  match z.2 with
  | some _ => z.1.totalOut
  | none =>
    max z.1.totalOut (rtimeCompressLoop data cdatalen data.length (fun _ => 0) [] 0).2.length

/-- For one byte of output `(*dstlen)-2` wraps, and the first pair is written anyway. -/
theorem rtime_one_byte (hn : 0 < data.length) :
    2 ≤ (rtimeCompressLoop data 1 data.length (fun _ => 0) [] 0).2.length := by
  obtain ⟨k,hk⟩ : ∃ k, data.length = k + 1 := ⟨data.length - 1,by omega⟩
  have hsub : sub32 1 2 = 4294967295 := by decide
  rw [hk,rtimeCompressLoop,hsub,if_pos ⟨hn,Nat.zero_le _⟩]
  refine le_trans ?_ (length_le_rtimeCompressLoop 1 k)
  exact Nat.le_refl 2

/-- A compressor keeps to its buffer just if there is room for two bytes. -/
theorem compress_inside {data : List Byte} {d : ℕ} (hn : 1 ≤ data.length) (hd : 1 ≤ d)
    (hlt : d < 4294967296) (answer : ℕ → Deflated) (init : Bool) (avail : ℕ × ℕ) (fuel : ℕ) :
    compressEnd answer init avail fuel data d ≤ d ↔ 2 ≤ d := by
  constructor
  · intro h
    by_contra hc
    obtain rfl : d = 1 := by omega
    have hz : (zlibCompress answer init avail data.length 1 fuel).2 = none := by
      rfl
    simp only [compressEnd,hz] at h
    have h2 := rtime_one_byte hn
    omega
  · intro h
    have hz := @zlibCompress_out answer data.length d init avail hn hlt fuel
    rw [compressEnd]
    split
    · exact hz
    · exact Nat.max_le.mpr ⟨hz,rtimeCompressLoop_length h hlt _ (Nat.zero_le _)⟩

theorem compress_inside_two :
    compressEnd (fun _ => ⟨.ok,0,0⟩) true (0,0) 0 [7,8] 2 ≤ 2 :=
  (compress_inside (by decide) (by decide) (by decide) _ _ _ _).mpr (Nat.le_refl 2)

/-- One byte is written to a file: the buffer of one byte gets two. -/
theorem compress_one_byte :
    compressEnd (fun _ => ⟨.ok,0,0⟩) true (0,0) 0 [7] 1 = 2 := by
  decide

end Simpad.Jffs2
