import Simpad.Base.Word
import Simpad.Board.Cs3

/-! Reading proc files. The handler prints the whole text into a page; the memory of the user is writable. -/

namespace Simpad.ProcRead
open Word List

/-- What a `read_proc` handler returns; `start` counts from the front of the page, and is `none` for
a null pointer. -/
structure Reply where
  page : List Char
  start : Option ℤ
  n : ℤ
  eof : Bool

def blockSize : ℕ := 3072

/-- The loop of `proc_file_read`, with the position and the bytes it has copied.  `readProc k` is the
handler as it behaves the `k`-th time, `addr` the address of the page. -/
def procFileReadLoop (readProc : ℕ → ℤ → ℕ → Reply) (addr : ℕ) :
    ℕ → ℕ → Bool → ℕ → ℤ → List Char → Option (ℤ × List Char)
  | fuel, k, eof, nbytes, pos, out =>
    if nbytes = 0 ∨ eof = true then some (pos,out)
    else
      match fuel with
      | 0 => none
      | fuel + 1 =>
        let count := min blockSize nbytes
        let r := readProc k pos count
        -- only a handler that leaves `start` alone is held to `count`
        let start := r.start.getD pos
        let n := if r.start = none then min (r.n - pos) count else r.n
        if n ≤ 0 then some (pos,out)
        else
          let ptr := (addr + start) % 4294967296
          let before := ptr < addr
          procFileReadLoop readProc addr fuel (k + 1) r.eof (sub32 nbytes n.toNat)
            (pos + if before then s32 ptr else n)
            (out ++ (r.page.drop (if before then 0 else start.toNat)).take n.toNat)

/-- `proc_file_read`: the new position, and what is copied; `retval` is the length of it. -/
def procFileRead (readProc : ℕ → ℤ → ℕ → Reply) (addr fuel nbytes : ℕ) (pos : ℤ) :
    Option (ℤ × List Char) :=
  procFileReadLoop readProc addr fuel 0 false nbytes pos []

/-- `proc_cs3_read` and `ucb_read` from the printed text on; `off` is the position as `off_t`. -/
def readText (text : List Char) (pos : ℤ) (count : ℕ) : Reply :=
  let off := s32 pos
  let len := max 0 (s32 (text.length - off))
  ⟨text,some off,len,len ≤ count⟩

inductive Source
  | cs3 (shadow : BitVec 32)
  | ucb (v : BitVec 32)

def Source.text : Source → List Char
  | .cs3 shadow => Cs3.procCs3Read shadow
  | .ucb v => (toString v.toInt).toList ++ ['\n']

/-- The handler of the file, when it finds `src k` the `k`-th time it is called. -/
def handler (src : ℕ → Source) (k : ℕ) : ℤ → ℕ → Reply := readText (src k).text

/-- A page of the kernel, all of it below 4 GB. -/
def Page (addr : ℕ) : Prop := addr + 4096 ≤ 4294967296

section
variable {text : ℕ → List Char} {n pos fuel addr : ℕ}

theorem loop_done (readProc : ℕ → ℤ → ℕ → Reply) (k : ℕ) (pos : ℤ) (out : List Char) :
    procFileReadLoop readProc addr fuel k true n pos out = some (pos,out) := by
  unfold procFileReadLoop
  exact if_pos (Or.inr rfl)

theorem readText_eq {text : List Char} (hlen : text.length ≤ blockSize) (hpos : pos < 2147483648)
    (count : ℕ) :
    readText text pos count =
      ⟨text,some (pos : ℤ),((text.length - pos : ℕ) : ℤ),decide (text.length - pos ≤ count)⟩ := by
  have hb : blockSize = 3072 := rfl
  have hoff : s32 (pos : ℤ) = pos := s32_of_lt (by omega) (by omega)
  have hdiff : s32 ((text.length : ℤ) - pos) = text.length - pos :=
    s32_of_lt (by omega) (by omega)
  have hmax : max 0 ((text.length : ℤ) - pos) = ((text.length - pos : ℕ) : ℤ) := by omega
  simp only [readText,hoff,hdiff,hmax,Nat.cast_le]

/-- From 2 GB on the position is negative for the handler, and for some more the length it computes
is negative, too. -/
theorem procFileRead_far (hlen : (text 0).length ≤ blockSize) (hlo : 2147483648 ≤ pos)
    (hhi : pos ≤ 2147483648 + (text 0).length) (hn : 1 ≤ n) (hf : 2 ≤ fuel) :
    procFileRead (fun k => readText (text k)) addr fuel n pos = some ((pos : ℤ),[]) := by
  obtain ⟨fuel,rfl⟩ : ∃ m, fuel = m + 1 := ⟨fuel - 1,by omega⟩
  have hb : blockSize = 3072 := rfl
  have hneg : max 0 (s32 ((text 0).length - s32 (pos : ℤ))) = 0 := by
    simp only [s32,Int.bmod_def]
    omega
  rw [procFileRead,procFileReadLoop,if_neg (by simp; omega)]
  simp [readText,hneg]

section
variable (ha : Page addr) (hk : ∀ k, (text k).length ≤ blockSize) (hpos : pos < 2147483648)
include ha hk hpos

theorem loop_round (hn : n ≠ 0) (k : ℕ) (out : List Char) :
    procFileReadLoop (fun k => readText (text k)) addr (fuel + 1) k false n pos out =
      if (text k).length ≤ pos then some ((pos : ℤ),out)
      else
        procFileReadLoop (fun k => readText (text k)) addr fuel (k + 1)
          (decide ((text k).length - pos ≤ min blockSize n)) (sub32 n ((text k).length - pos))
          (text k).length (out ++ (text k).drop pos) := by
  have hlen := hk k
  have hb : blockSize = 3072 := rfl
  rw [procFileReadLoop,if_neg (by simp [hn])]
  simp only [readText_eq hlen hpos,Option.getD_some,reduceCtorEq,if_false,Int.toNat_natCast]
  by_cases hle : (text k).length ≤ pos
  · rw [if_pos (by omega),if_pos hle]
  · -- the pointer stays in the page
    have hptr : ¬((addr : ℤ) + pos) % 4294967296 < addr := by
      unfold Page at ha
      omega
    have hadd : (pos : ℤ) + ((text k).length - pos : ℕ) = (text k).length := by omega
    rw [if_neg (by omega),if_neg hle,if_neg hptr,if_neg hptr,hadd,
      take_of_length_le (by rw [length_drop])]

theorem loop_last (hn : n ≠ 0) (k : ℕ) (out : List Char)
    (hfit : (text k).length - pos ≤ min blockSize n) :
    procFileReadLoop (fun k => readText (text k)) addr (fuel + 1) k false n pos out =
      some (((max pos (text k).length : ℕ) : ℤ),out ++ (text k).drop pos) := by
  rw [loop_round ha hk hpos hn]
  by_cases hle : (text k).length ≤ pos
  · rw [if_pos hle,max_eq_left hle,drop_of_length_le hle,append_nil]
  · rw [if_neg hle,decide_eq_true hfit,loop_done,max_eq_right (by omega)]

/-- The whole rest of the text is copied, however little was asked for; then `nbytes` has wrapped and
the handler is called once more. -/
theorem procFileRead_eq (hn : 1 ≤ n) (hlt : n < 4294967296) (hf : 2 ≤ fuel) :
    procFileRead (fun k => readText (text k)) addr fuel n pos =
      some (if (text 0).length ≤ pos + n then
          (((max pos (text 0).length : ℕ) : ℤ),(text 0).drop pos)
        else
          (((max (text 0).length (text 1).length : ℕ) : ℤ),
            (text 0).drop pos ++ (text 1).drop (text 0).length)) := by
  obtain ⟨fuel,rfl⟩ : ∃ m, fuel = m + 2 := ⟨fuel - 2,by omega⟩
  have h0 := hk 0
  have h1 := hk 1
  have hb : blockSize = 3072 := rfl
  rw [procFileRead]
  by_cases hle : (text 0).length ≤ pos + n
  · rw [if_pos hle,loop_last ha hk hpos (by omega) 0 [] (by omega),nil_append]
  · have hrest : ¬(text 0).length ≤ pos := by omega
    have hmore : ¬(text 0).length - pos ≤ min blockSize n := by omega
    -- `nbytes -= n` goes below zero
    have hwrap : blockSize ≤ sub32 n ((text 0).length - pos) := by
      rw [sub32,u32_of_lt (show (text 0).length - pos < 4294967296 by omega),u32_of_lt (by omega)]
      omega
    generalize hnb : sub32 n ((text 0).length - pos) = nb at hwrap
    have hsecond := @loop_last text nb (text 0).length fuel addr ha hk (by omega) (by omega) 1
      ((text 0).drop pos) (by omega)
    rw [if_neg hle,loop_round ha hk hpos (show n ≠ 0 by omega),if_neg hrest,decide_eq_false hmore,hnb,
      nil_append]
    exact hsecond

end

end

theorem length_bitLine (shadow : BitVec 32) (name : String) (i : ℕ) :
    (Cs3.bitLine shadow name i).length ≤ name.toList.length + 10 := by
  rw [Cs3.bitLine,length_append]
  split <;> exact Nat.add_le_add_left (by decide +kernel) _

theorem length_bitLines (shadow : BitVec 32) :
    (Cs3.names.zipIdx.map fun p => Cs3.bitLine shadow p.1 p.2).flatten.length ≤ 1000 := by
  rw [length_flatten,map_map]
  refine le_trans (sum_le_sum fun p _ => length_bitLine shadow p.1 p.2) ?_
  decide +kernel

theorem length_procCs3Read (shadow : BitVec 32) : (Cs3.procCs3Read shadow).length ≤ blockSize := by
  have hlines := length_bitLines shadow
  have hhex : (Hex.text 7 shadow.toNat).length ≤ 8 := by
    rw [Hex.text,length_map]
    exact Hex.length_digits 7 shadow.toNat
  unfold Cs3.procCs3Read
  have hhead : "Chipselect3 : ".toList.length = 14 := by decide +kernel
  simp only [length_append,length_cons,hhead,blockSize]
  omega

theorem length_toString (v : ℤ) (h : v.natAbs < 10 ^ 10) : (toString v).toList.length ≤ 11 := by
  have hrepr (m : ℕ) (hm : m < 10 ^ 10) : (Nat.repr m).toList.length ≤ 10 :=
    Nat.repr_length m 10 (by decide) hm
  cases v with
  | ofNat m => exact Nat.le_succ_of_le (hrepr m h)
  | negSucc m =>
    have hm := hrepr (m + 1) h
    show ("-" ++ Nat.repr (m + 1)).toList.length ≤ 11
    rw [String.toList_append,length_append]
    grind

theorem Source.length_text (s : Source) : s.text.length ≤ blockSize := by
  cases s with
  | cs3 shadow => exact length_procCs3Read shadow
  | ucb v =>
    have hv : v.toInt.natAbs < 10 ^ 10 := by
      have := BitVec.le_toInt v
      have := BitVec.toInt_lt (x := v)
      omega
    have hlen := length_toString v.toInt hv
    have hb : blockSize = 3072 := rfl
    rw [text,length_append,length_singleton]
    omega

/-- Reads of the sizes in turn from `pos` on, until one returns 0: all that is read, and whether the
end was reached. -/
def reads (readProc : ℕ → ℤ → ℕ → Reply) (addr fuel : ℕ) : List ℕ → ℤ → List Char × Bool
  | [], _ => ([],false)
  | n :: sizes, pos =>
    match procFileRead readProc addr fuel n pos with
    | none => ([],false)
    | some (pos,out) =>
      if out = [] then ([],true)
      else
        let r := reads readProc addr fuel sizes pos
        (out ++ r.1,r.2)

section
variable {text : List Char} {addr fuel pos : ℕ}

theorem procFileRead_same {n : ℕ} (ha : Page addr) (hk : text.length ≤ blockSize)
    (hpos : pos < 2147483648) (hn : 1 ≤ n) (hlt : n < 4294967296) (hf : 2 ≤ fuel) :
    procFileRead (fun _ => readText text) addr fuel n pos =
      some (((max pos text.length : ℕ) : ℤ),text.drop pos) := by
  rw [@procFileRead_eq (fun _ => text) n pos fuel addr ha (fun _ => hk) hpos hn hlt hf]
  grind

theorem reads_eq (ha : Page addr) (hk : text.length ≤ blockSize) (hf : 2 ≤ fuel) {sizes : List ℕ}
    (hs : ∀ n ∈ sizes, 1 ≤ n ∧ n < 4294967296) (hpos : pos < 2147483648)
    (h : (reads (fun _ => readText text) addr fuel sizes pos).2 = true) :
    (reads (fun _ => readText text) addr fuel sizes pos).1 = text.drop pos := by
  induction sizes generalizing pos with
  | nil => cases h
  | cons n sizes ih =>
    obtain ⟨hn,hlt⟩ := hs n mem_cons_self
    have hb : blockSize = 3072 := rfl
    have hnext : max pos text.length < 2147483648 := by omega
    rw [reads,procFileRead_same ha hk hpos hn hlt hf] at h ⊢
    dsimp only at h ⊢
    by_cases hd : text.drop pos = []
    · rw [if_pos hd,hd]
    · rw [if_neg hd] at h ⊢
      have hrest := ih (fun m hm => hs m (mem_cons_of_mem _ hm)) hnext h
      rw [hrest,drop_of_length_le (le_max_right _ _),append_nil]

end

/-- A read returns at most what was asked for just if no more than that is left of the text; reads of
any sizes give the text of an unchanged source. -/
theorem proc_reads {addr fuel pos n : ℕ} (ha : Page addr) (hf : 2 ≤ fuel) (hn : 1 ≤ n)
    (hlt : n < 4294967296) (src : ℕ → Source) (hpos : pos ≤ 2147483648 + (src 0).text.length) :
    (∃ pos' out, procFileRead (handler src) addr fuel n pos = some (pos',out) ∧
      (out.length ≤ n ↔ (src 0).text.length ≤ pos + n)) ∧
    ∀ (s : Source) (sizes : List ℕ), (∀ n ∈ sizes, 1 ≤ n ∧ n < 4294967296) →
      (reads (handler fun _ => s) addr fuel sizes 0).2 = true →
        (reads (handler fun _ => s) addr fuel sizes 0).1 = s.text := by
  refine ⟨?_,fun s sizes hs h => ?_⟩
  · by_cases hnear : pos < 2147483648
    swap
    · refine ⟨_,_,procFileRead_far (src 0).length_text (not_lt.mp hnear) hpos hn hf,?_⟩
      have hlen := (src 0).length_text
      have hb : blockSize = 3072 := rfl
      exact iff_of_true (Nat.zero_le _) (by omega)
    have hread := @procFileRead_eq (fun k => (src k).text) n pos fuel addr ha
      (fun k => (src k).length_text) hnear hn hlt hf
    by_cases hle : (src 0).text.length ≤ pos + n
    · refine ⟨_,_,hread.trans (congrArg some (if_pos hle)),?_⟩
      rw [length_drop]
      omega
    · refine ⟨_,_,hread.trans (congrArg some (if_neg hle)),?_⟩
      grind
  · have hall := @reads_eq s.text addr fuel 0 ha s.length_text hf sizes hs (by decide) h
    assumption

theorem proc_reads_ucb :
    ∃ pos' out, procFileRead (handler fun _ => .ucb 5#32) 0 2 2 (0 : ℕ) = some (pos',out) ∧
      out.length ≤ 2 := by
  obtain ⟨⟨pos',out,hread,hlen⟩,-⟩ := @proc_reads 0 2 0 2 (Nat.le_of_ble_eq_true rfl)
    (by decide) (by decide) (by decide) (fun _ => .ucb 5#32) (Nat.zero_le _)
  exact ⟨pos',out,hread,hlen.mpr (by decide +kernel)⟩

/-- One byte of `/proc/cs3` or of a ucb1x00 file: the caller gets the whole text. -/
theorem proc_read_overflow :
    (procFileRead (handler fun _ => .cs3 0#32) 0 2 1 0).map (fun r => r.2.length) = some 320 ∧
      procFileRead (handler fun _ => .ucb 5#32) 0 2 1 0 = some (2,['5','\n']) := by
  decide +kernel

end Simpad.ProcRead
