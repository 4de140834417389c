import Simpad.Base.Word

namespace Simpad.Vsscanf
open Word List

def isspace (c : Char) : Bool := c.toNat ∈ [9,10,11,12,13,32,160]

/-- A part of the format; a conversion has the number in front of it, if there is one. -/
inductive Item
  | space
  | lit (c : Char)
  | char (width : Option ℕ)
  | str (width : Option ℕ)

/-- `field_width` at a conversion; `skip_atoi` reads an `int`. -/
def readWidth (fieldWidth : ℤ) : Option ℕ → ℤ
  | none => fieldWidth
  | some n => s32 n

/-- A conversion with the `field_width` and the input it is reached with. -/
structure Conv where
  isChar : Bool
  width : Option ℕ
  fieldWidth : ℤ
  str : List Char

namespace Conv
variable (v : Conv)

/-- -1 stands for no width. -/
def start : ℤ :=
  let w := readWidth v.fieldWidth v.width
  if w = -1 then if v.isChar then 1 else 2147483647 else w

/-- The input behind the white space that `%s` skips. -/
def input : List Char := if v.isChar then v.str else v.str.dropWhile isspace

def word : List Char := v.input.takeWhile (!isspace ·)

/-- What is stored: the loop of `%c` tests the width after it has stored a character, the one of `%s`
before. -/
def stored : List Char :=
  if v.isChar then v.input.take (1 + v.start.toNat)
  else v.word.take (v.start % 4294967296).toNat

/-- `field_width` is decremented in each test. -/
def left : ℤ :=
  if v.isChar then s32 (v.start - v.stored.length)
  else s32 (v.start - v.stored.length - if v.stored.length < v.word.length then 1 else 0)

end Conv

/-- The conversions that `vsscanf` makes. -/
def vsscanf (fieldWidth : ℤ) : List Item → List Char → List Conv
  | [],_ => []
  | _,[] => []
  | .space :: fmt,str => vsscanf fieldWidth fmt (str.dropWhile isspace)
  | .lit c :: fmt,a :: str => if c = a then vsscanf fieldWidth fmt str else []
  | .char width :: fmt,str =>
    let v : Conv := ⟨true,width,fieldWidth,str⟩
    v :: vsscanf v.left fmt (v.input.drop v.stored.length)
  | .str width :: fmt,str =>
    let v : Conv := ⟨false,width,fieldWidth,str⟩
    v :: vsscanf v.left fmt (v.input.drop v.stored.length)

/-- At most as many characters as the width says, and those that it would be without the conversions
before. -/
def Conv.Respected (v : Conv) : Prop :=
  (∀ n ∈ if v.isChar then some (v.width.getD 1) else v.width, v.stored.length ≤ n) ∧
    v.stored = Conv.stored { v with fieldWidth := -1 }

/-- A `%c` is at the end of the input, and the width that is left over is no less than the word. -/
def Conv.Fits (v : Conv) : Prop :=
  match v.isChar,v.width with
  | true,none => v.str.length ≤ 1
  | true,some n => v.str.length ≤ n ∨ 2147483648 ≤ n
  | false,none => v.fieldWidth = -1 ∨ (v.word.length : ℤ) ≤ v.fieldWidth % 4294967296
  | false,some _ => True

theorem s32_natCast (n : ℕ) :
    (n < 2147483648 → s32 n = n) ∧ s32 n < 2147483648 ∧ s32 n % 4294967296 = n % 4294967296 := by
  rw [s32,Int.bmod_def]
  split <;> omega

theorem respected_iff {v : Conv} (h : v.str.length < 2147483648) : v.Respected ↔ v.Fits := by
  obtain ⟨isChar,width,fw,str⟩ := v
  dsimp only at h
  cases isChar with
  | true =>
    cases width with
    | none =>
      simp only [Conv.Respected,Conv.Fits,Conv.stored,Conv.start,Conv.input,readWidth,if_true]
      constructor
      · rintro ⟨hle,heq⟩
        have := congrArg length heq
        simp at this hle
        omega
      · intro hle
        rw [take_of_length_le (by omega),take_of_length_le (by omega)]
        simpa using hle
    | some n =>
      obtain ⟨hn,hlt,hmod⟩ := s32_natCast n
      simp [Conv.Respected,Conv.Fits,Conv.stored,Conv.start,Conv.input,readWidth]
      split <;> omega
  | false =>
    have hlen : (takeWhile (fun c => !isspace c) (str.dropWhile isspace)).length < 2147483648 :=
      ((takeWhile_sublist _).length_le.trans (dropWhile_suffix _).length_le).trans_lt h
    cases width with
    | none =>
      simp [Conv.Respected,Conv.Fits,Conv.stored,Conv.start,Conv.input,Conv.word,readWidth]
      split <;> omega
    | some n =>
      obtain ⟨hn,hlt,hmod⟩ := s32_natCast n
      simp [Conv.Respected,Conv.Fits,Conv.stored,Conv.start,Conv.input,Conv.word,readWidth]
      split <;> omega

theorem length_of_mem {v : Conv} {fw : ℤ} {fmt : List Item} {str : List Char}
    (h : v ∈ vsscanf fw fmt str) : v.str.length ≤ str.length := by
  fun_induction vsscanf fw fmt str with
  | case1 => cases h
  | case2 => cases h
  | case3 fw fmt str hne ih => exact (ih h).trans (dropWhile_suffix _).length_le
  | case4 fw fmt str a ih => exact (ih h).trans (by simp)
  | case5 => cases h
  | case6 fw width fmt str hne w ih =>
    rcases mem_cons.mp h with rfl | h
    · exact le_rfl
    · refine (ih h).trans ?_
      simp [w,Conv.input]
  | case7 fw width fmt str hne w ih =>
    rcases mem_cons.mp h with rfl | h
    · exact le_rfl
    · refine (ih h).trans ?_
      rw [length_drop]
      exact (Nat.sub_le _ _).trans (dropWhile_suffix _).length_le

/-- The widths are respected just if each conversion that is made fits. -/
theorem widths_respected_iff (fmt : List Item) (str : { s : List Char // s.length < 2147483648 }) :
    (∀ v ∈ vsscanf (-1) fmt str.1, v.Respected) ↔ ∀ v ∈ vsscanf (-1) fmt str.1, v.Fits :=
  forall₂_congr fun _ hv => respected_iff ((length_of_mem hv).trans_lt str.2)

/-- `%c` stores two characters, and the second `%s` of `"%5s %s"` only three. -/
theorem widths_not_respected :
    (vsscanf (-1) [.char none] ['a','b']).map Conv.stored = [['a','b']] ∧
      (vsscanf (-1) [.str (some 5),.space,.str none] "ab vsscanf".toList).map Conv.stored =
        ["ab".toList,"vss".toList] := by
  decide

end Simpad.Vsscanf
