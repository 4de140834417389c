import Simpad.Base.Word
import Simpad.Board.Cs3

/-! Writing proc files. User memory is the list of bytes from the buffer on that are mapped; behind its end
the kernel faults. -/

namespace Simpad.ProcWrite
open Word List

def isdigit (c : UInt8) : Prop := 48 ≤ c.toNat ∧ c.toNat ≤ 57

instance (c : UInt8) : Decidable (isdigit c) := inferInstanceAs (Decidable (_ ∧ _))

def isxdigit (c : UInt8) : Prop :=
  isdigit c ∨ 65 ≤ c.toNat ∧ c.toNat ≤ 70 ∨ 97 ≤ c.toNat ∧ c.toNat ≤ 102

instance (c : UInt8) : Decidable (isxdigit c) := inferInstanceAs (Decidable (_ ∨ _))

def value (c : UInt8) : ℕ :=
  let toupper := if 97 ≤ c.toNat then c.toNat - 32 else c.toNat
  if isdigit c then c.toNat - 48 else toupper - 65 + 10

/-- The digit loop of `simple_strtoul`: the result, and the memory from `endp` on. -/
def strtoulLoop (base : ℕ) : List UInt8 → ℕ → Option (ℕ × List UInt8)
  | [], _ => none
  | c :: cp, result =>
    if isxdigit c ∧ value c < base then strtoulLoop base cp (u32 (result * base + value c))
    else some (result,c :: cp)

/-- The start of `simple_strtoul` with `base` 0: the base, and the digits; `none` is a fault. -/
def findBase : List UInt8 → Option (ℕ × List UInt8)
  | [] => none
  | c :: cp =>
    if c = 48 then
      match cp with
      | [] => none
      | x :: cp =>
        if x = 120 then
          match cp with
          | [] => none
          | y :: cp => some (if isxdigit y then (16,y :: cp) else (8,x :: y :: cp))
        else some (8,x :: cp)
    else some (10,c :: cp)

/-- `simple_strtoul` with `base` 0. -/
def simpleStrtoul (cp : List UInt8) : Option (ℕ × List UInt8) :=
  (findBase cp).bind fun r => strtoulLoop r.1 r.2 0

/-- `proc_cs3_write`: the latch, and what is returned. -/
def procCs3Write (l : Cs3.Latch) (buffer : List UInt8) (count : ℕ) : Option (Cs3.Latch × ℤ) :=
  (simpleStrtoul buffer).map fun r =>
    (l.setCs3 (BitVec.ofNat 32 r.1),s32 (count + (buffer.length - r.2.length)))

variable {c : UInt8} {bs rest : List UInt8}

section
variable {base result v : ℕ} {cp rest : List UInt8}

theorem strtoulLoop_append (h : strtoulLoop base cp result = some (v,rest)) (tail : List UInt8) :
    strtoulLoop base (cp ++ tail) result = some (v,rest ++ tail) := by
  induction cp generalizing result with
  | nil => cases h
  | cons c cp ih =>
    rw [strtoulLoop] at h
    rw [cons_append,strtoulLoop]
    by_cases hc : isxdigit c ∧ value c < base
    · rw [if_pos hc] at h ⊢
      exact ih h
    · rw [if_neg hc] at h ⊢
      obtain ⟨rfl,rfl⟩ := Prod.mk.inj (Option.some.inj h)
      rfl

theorem strtoulLoop_none (hb : 2 ≤ base) (h : strtoulLoop base cp result = none) :
    ∃ a, strtoulLoop base (cp ++ [48,32]) result = some (u32 (a * base),[32]) ∧
      strtoulLoop base (cp ++ [49,32]) result = some (u32 (a * base + 1),[32]) := by
  have hend : ¬(isxdigit 32 ∧ value 32 < base) := fun h => absurd h.1 (by decide)
  induction cp generalizing result with
  | nil =>
    refine ⟨result,?_,?_⟩
    · have h0 : isxdigit 48 ∧ value 48 < base := ⟨by decide,by rw [show value 48 = 0 from rfl]; omega⟩
      rw [nil_append,strtoulLoop,if_pos h0,strtoulLoop,if_neg hend]
      rfl
    · have h1 : isxdigit 49 ∧ value 49 < base := ⟨by decide,by assumption⟩
      rw [nil_append,strtoulLoop,if_pos h1,strtoulLoop,if_neg hend]
      rfl
  | cons c cp ih =>
    rw [strtoulLoop] at h
    by_cases hc : isxdigit c ∧ value c < base
    · rw [if_pos hc] at h
      obtain ⟨a,h0,h1⟩ := ih h
      refine ⟨a,?_,?_⟩
      · rw [cons_append,strtoulLoop,if_pos hc,h0]
      · rw [cons_append,strtoulLoop,if_pos hc,h1]
    · rw [if_neg hc] at h
      cases h

theorem strtoulLoop_le (h : strtoulLoop base cp result = some (v,rest)) :
    rest.length ≤ cp.length := by
  induction cp generalizing result with
  | nil => cases h
  | cons c cp ih =>
    rw [strtoulLoop] at h
    by_cases hc : isxdigit c ∧ value c < base
    · grind
    · rw [if_neg hc] at h
      obtain ⟨-,rfl⟩ := Prod.mk.inj (Option.some.inj h)
      exact le_rfl

theorem findBase_of_ne (h : c ≠ 48) (cp : List UInt8) : findBase (c :: cp) = some (10,c :: cp) := by
  simp [findBase,h]

theorem findBase_cases (cp : List UInt8) :
    (cp = [] ∨ cp = [48] ∨ cp = [48,120]) ∨
      ∃ base cs, 2 ≤ base ∧ ∀ tail, findBase (cp ++ tail) = some (base,cs ++ tail) := by
  obtain _ | ⟨c,cp⟩ := cp
  · exact .inl (.inl rfl)
  by_cases hc : c = 48
  · obtain _ | ⟨x,cp⟩ := cp
    · exact .inl (.inr (.inl (by rw [hc])))
    by_cases hx : x = 120
    · obtain _ | ⟨y,cp⟩ := cp
      · exact .inl (.inr (.inr (by rw [hc,hx])))
      by_cases hy : isxdigit y
      · exact .inr ⟨16,y :: cp,by decide,fun tail => by simp [findBase,hc,hx,hy]⟩
      · exact .inr ⟨8,x :: y :: cp,by decide,fun tail => by simp [findBase,hc,hx,hy]⟩
    · exact .inr ⟨8,x :: cp,by decide,fun tail => by simp [findBase,hc,hx]⟩
  · exact .inr ⟨10,c :: cp,by decide,fun tail => findBase_of_ne hc _⟩

/-- Either the number ends in the buffer, and nothing behind it matters; or a further digit counts. -/
theorem simpleStrtoul_cases (cp : List UInt8) :
    (∃ v rest, ∀ tail, simpleStrtoul (cp ++ tail) = some (v,rest ++ tail)) ∨
      simpleStrtoul cp = none ∧ ∃ a, simpleStrtoul (cp ++ [48,32]) = some (u32 a,[32]) ∧
        simpleStrtoul (cp ++ [49,32]) = some (u32 (a + 1),[32]) := by
  obtain (rfl | rfl | rfl) | ⟨base,cs,hbase,hfind⟩ := findBase_cases cp
  · exact .inr ⟨rfl,0,rfl,rfl⟩
  · exact .inr ⟨rfl,0,rfl,rfl⟩
  · exact .inr ⟨rfl,0,rfl,rfl⟩
  · have hparse : ∀ tail, simpleStrtoul (cp ++ tail) = strtoulLoop base (cs ++ tail) 0 := by
      simp [simpleStrtoul,hfind,Option.bind_some]
    cases hloop : strtoulLoop base cs 0 with
    | none =>
      obtain ⟨a,h0,h1⟩ := strtoulLoop_none hbase hloop
      have hnil := hparse []
      grind
    | some r => exact .inl ⟨r.1,r.2,fun tail => (hparse tail).trans (strtoulLoop_append hloop tail)⟩

theorem simpleStrtoul_of_not_isdigit (hc : ¬isdigit c) (cp : List UInt8) :
    simpleStrtoul (c :: cp) = some (0,c :: cp) := by
  have h48 : c ≠ 48 := by
    rintro rfl
    exact hc (by decide)
  have hval : ¬(isxdigit c ∧ value c < 10) := by
    simp [value,if_neg hc]
  rw [simpleStrtoul,findBase_of_ne h48,Option.bind_some,strtoulLoop,if_neg hval]

theorem lt_of_isdigit (hc : isdigit c) (h : simpleStrtoul (c :: cp) = some (v,rest)) :
    rest.length < (c :: cp).length := by
  have hle : ∀ {base cs}, strtoulLoop base cs 0 = some (v,rest) → cs.length ≤ cp.length →
      rest.length < (c :: cp).length :=
    fun hloop hcs => Nat.lt_succ_of_le ((strtoulLoop_le hloop).trans hcs)
  rw [simpleStrtoul] at h
  by_cases h48 : c = 48
  · obtain _ | ⟨x,cp⟩ := cp
    · simp [findBase,h48] at h
    by_cases hx : x = 120
    · obtain _ | ⟨y,cp⟩ := cp
      · simp [findBase,h48,hx] at h
      by_cases hy : isxdigit y
      · simp only [findBase,h48,hx,hy,if_true,Option.bind_some] at h
        exact hle h (by simp)
      · simp only [findBase,h48,hx,hy,if_true,if_false,Option.bind_some] at h
        exact hle h (by simp)
    · simp only [findBase,h48,hx,if_true,if_false,Option.bind_some] at h
      exact hle h (by simp)
  · have hval : isxdigit c ∧ value c < 10 := by
      refine ⟨.inl hc,?_⟩
      rw [value,if_pos hc]
      obtain ⟨-,h57⟩ := hc
      omega
    rw [findBase_of_ne h48,Option.bind_some,strtoulLoop,if_pos hval] at h
    exact Nat.lt_succ_of_le (strtoulLoop_le h)

end

/-- Two runs that differ behind the buffer only leave the same latch. -/
def Determined (bs : List UInt8) : Prop :=
  ∀ l tail tail' r r', procCs3Write l (bs ++ tail) bs.length = some r →
    procCs3Write l (bs ++ tail') bs.length = some r' → r.1 = r'.1

/-- The return value is a number of bytes of the buffer. -/
def Bounded (bs : List UInt8) : Prop :=
  ∀ l tail r, procCs3Write l (bs ++ tail) bs.length = some r → 0 ≤ r.2 ∧ r.2 ≤ bs.length

/-- The sum that is returned, `count` and the bytes that were read, comes out as at most `count`. -/
theorem s32_sum {count used : ℕ} (hcount : count < 4294967296) (hused : used ≤ count) :
    (0 ≤ s32 (count + used : ℕ) ∧ s32 (count + used : ℕ) ≤ count) ↔
      (used = 0 ∧ count < 2147483648) ∨
        4294967296 ≤ count + used ∧ count + used < 6442450944 := by
  rw [s32,Int.bmod]
  split <;> omega

/-- What `proc_cs3_write` does if the number ends in the buffer. -/
theorem procCs3Write_eq {v : ℕ} (h : ∀ tail, simpleStrtoul (bs ++ tail) = some (v,rest ++ tail))
    (hle : rest.length ≤ bs.length) (l : Cs3.Latch) (tail : List UInt8) :
    procCs3Write l (bs ++ tail) bs.length =
      some (l.setCs3 (BitVec.ofNat 32 v),s32 (bs.length + (bs.length - rest.length) : ℕ)) := by
  have hused : (bs.length : ℤ) + ((bs ++ tail).length - (rest ++ tail).length) =
      (bs.length + (bs.length - rest.length) : ℕ) := by
    grind
  rw [procCs3Write,h,Option.map_some,hused]

theorem not_determined {a : ℕ} (h0 : simpleStrtoul (bs ++ [48,32]) = some (u32 a,[32]))
    (h1 : simpleStrtoul (bs ++ [49,32]) = some (u32 (a + 1),[32])) : ¬Determined bs := by
  intro h
  have heq := h ⟨0,[]⟩ _ _ _ _ (by rw [procCs3Write,h0]; rfl) (by rw [procCs3Write,h1]; rfl)
  have hval := congrArg BitVec.toNat (congrArg Cs3.Latch.shadow heq)
  change (BitVec.ofNat 32 (u32 a)).toNat = (BitVec.ofNat 32 (u32 (a + 1))).toNat at hval
  rw [BitVec.toNat_ofNat,BitVec.toNat_ofNat,u32,u32] at hval
  omega

theorem simpleStrtoul_le {v : ℕ} (h : simpleStrtoul bs = some (v,rest)) :
    rest.length ≤ bs.length := by
  obtain _ | ⟨c,cp⟩ := bs
  · cases h
  by_cases hc : isdigit c
  · exact (lt_of_isdigit hc h).le
  · rw [simpleStrtoul_of_not_isdigit hc] at h
    obtain ⟨-,rfl⟩ := Prod.mk.inj (Option.some.inj h)
    exact le_rfl

/-- A write keeps to its buffer just if it reads nothing of it, or so many digits that the sum
wraps. -/
theorem cs3_write_contained {bs : List UInt8} (hlen : bs.length < 4294967296) :
    Determined bs ∧ Bounded bs ↔
      (bs.length < 2147483648 ∧ ∃ c cp, bs = c :: cp ∧ ¬isdigit c) ∨
        ∃ v rest, simpleStrtoul bs = some (v,rest) ∧
          4294967296 ≤ bs.length + (bs.length - rest.length) ∧
          bs.length + (bs.length - rest.length) < 6442450944 := by
  obtain ⟨v,rest,h⟩ | ⟨hnone,a,h0,h1⟩ := simpleStrtoul_cases bs
  · have hparse : simpleStrtoul bs = some (v,rest) := by
      have hnil := h []
      grind
    have hle := simpleStrtoul_le hparse
    have hwrite := procCs3Write_eq h hle
    have hdet : Determined bs := by
      intro l tail tail' r r' hr hr'
      grind
    have hbound : Bounded bs ↔ 0 ≤ s32 (bs.length + (bs.length - rest.length) : ℕ) ∧
        s32 (bs.length + (bs.length - rest.length) : ℕ) ≤ bs.length := by
      generalize s32 (bs.length + (bs.length - rest.length) : ℕ) = ret at hwrite ⊢
      constructor
      · intro hb
        exact hb _ _ _ (hwrite ⟨0#32,[]⟩ [])
      · intro hb l tail r hr
        grind
    have hnone : bs.length - rest.length = 0 ↔ ∃ c cp, bs = c :: cp ∧ ¬isdigit c := by
      constructor
      · intro hzero
        obtain _ | ⟨c,cp⟩ := bs
        · cases hparse
        refine ⟨c,cp,rfl,fun hc => ?_⟩
        have hlt := lt_of_isdigit hc hparse
        omega
      · rintro ⟨c,cp,rfl,hc⟩
        rw [simpleStrtoul_of_not_isdigit hc] at hparse
        obtain ⟨-,rfl⟩ := Prod.mk.inj (Option.some.inj hparse)
        exact Nat.sub_self _
    rw [hbound,s32_sum hlen (Nat.sub_le _ _),hnone]
    constructor
    · grind
    · rintro (⟨hlt,hno⟩ | ⟨v',rest',hparse',hwrap⟩)
      · exact ⟨hdet,.inl ⟨hno,hlt⟩⟩
      · rw [hparse] at hparse'
        obtain ⟨-,rfl⟩ := Prod.mk.inj (Option.some.inj hparse')
        exact ⟨hdet,.inr hwrap⟩
  · -- the number goes on behind the buffer
    constructor
    · rintro ⟨hdet,-⟩
      exact absurd hdet (not_determined h0 h1)
    · rintro (⟨-,c,cp,rfl,hc⟩ | ⟨v,rest,hparse,-⟩)
      · rw [simpleStrtoul_of_not_isdigit hc] at hnone
        cases hnone
      · grind

theorem cs3_write_contained_newline : Determined [10,49] ∧ Bounded [10,49] :=
  (cs3_write_contained (by decide)).mpr (.inl ⟨by decide,10,[49],rfl,by decide⟩)

/-- One byte is written, the digit 1; the digit 2 that stands behind it in memory goes to the
register too, and three bytes are said to be written. -/
theorem cs3_write_leaks :
    procCs3Write ⟨0#32,[]⟩ ([49] ++ [50,0]) 1 = some (⟨12#32,[12#32]⟩,3) ∧
      procCs3Write ⟨0#32,[]⟩ ([49] ++ [0]) 1 = some (⟨1#32,[1#32]⟩,2) := by
  decide +kernel

end Simpad.ProcWrite
