import Simpad.Base.Memory
import Simpad.Mtd.Cmdline

namespace Simpad.Mtd.CmdlinePtr
open Word Memory List Function
open Cmdline (isxdigit value u64 sizeRemaining pageSize Listed MtdDef defaultName parsePart suffix
  parsePart_le newpart_le)

inductive Fault
  | overread
  /-- `this_mtd` used without a value -/
  | uninit
  | outside
  /-- the bound of a loop of the model, which is not reached -/
  | fuel
deriving DecidableEq

/-- A pointer into the string: in front of the characters that are left, the terminator behind
them, or behind the terminator. -/
inductive Ptr
  | str (rest : List Char)
  | past

namespace Ptr

/-- `*p`; none for the terminator. -/
def peek : Ptr → Except Fault (Option Char)
  | .str rest => .ok rest.head?
  | .past => .error .overread

/-- `p + 1`. -/
def next : Ptr → Ptr
  | .str (_ :: rest) => .str rest
  | .str [] => .past
  | .past => .past

def left : Ptr → ℕ
  | .str rest => rest.length
  | .past => 0

end Ptr

def findBase (cp : Ptr) : Except Fault (ℕ × Ptr) := do
  let c ← cp.peek
  if c ≠ some '0' then .ok (10,cp)
  else do
    let c ← cp.next.peek
    if c ≠ some 'x' then .ok (8,cp.next)
    else do
      let c ← cp.next.next.peek
      if c.any isxdigit then .ok (16,cp.next.next) else .ok (8,cp.next)

def digitLoop (base : ℕ) : (fuel : ℕ) → Ptr → ℕ → Except Fault (ℕ × Ptr)
  | 0, _, _ => .error .fuel
  | fuel + 1, cp, result => do
    let c ← cp.peek
    match c with
    | none => .ok (result,cp)
    | some c =>
      if isxdigit c ∧ value c < base then
        digitLoop base fuel cp.next (u64 (result * base + value c))
      else .ok (result,cp)

/-- `simple_strtoull` with `base` 0. -/
def strtoull (cp : Ptr) : Except Fault (ℕ × Ptr) := do
  let r ← findBase cp
  digitLoop r.1 (r.2.left + 1) r.2 0

def memparse (ptr : Ptr) : Except Fault (ℕ × Ptr) := do
  let r ← strtoull ptr
  let kilo := fun n => u64 (n * 1024)
  let c ← r.2.peek
  if c = some 'G' ∨ c = some 'g' then .ok (kilo (kilo (kilo r.1)),r.2.next)
  else if c = some 'M' ∨ c = some 'm' then .ok (kilo (kilo r.1),r.2.next)
  else if c = some 'K' ∨ c = some 'k' then .ok (kilo r.1,r.2.next)
  else .ok r

/-- `strchr`: the character that is found and its distance, none for a null pointer. -/
def strchr (c : Char) : (fuel : ℕ) → Ptr → ℕ → Except Fault (Option (ℕ × Ptr))
  | 0, _, _ => .error .fuel
  | fuel + 1, s, n => do
    let x ← s.peek
    if x = some c then .ok (some (n,s))
    else if x = none then .ok none
    else strchr c fuel s.next (n + 1)

/-- What `strncpy` reads. -/
def readN : ℕ → Ptr → Except Fault (List Char)
  | 0, _ => .ok []
  | n + 1, s => do
    let c ← s.peek
    match c with
    | none => .ok []
    | some c => do
      let l ← readN n s.next
      .ok (c :: l)

def nul : Char := Char.ofNat 0

/-- A `struct mtd_partition`; the name is a place in the block. -/
structure Part where
  size : ℕ
  offset : ℕ
  readOnly : Bool
  name : ℕ

/-- The block of a table: entries of 20 bytes from its start and texts behind them. -/
structure Block where
  size : ℕ
  parts : ℕ → Part
  area : ℕ → Char

namespace Block

/-- The fields of an entry but the last, which is not set. -/
def putPart (b : Block) (i : ℕ) (p : Part) : Except Fault Block :=
  if i * 20 + 16 ≤ b.size then .ok { b with parts := update b.parts i p }
  else .error .outside

def putText (b : Block) (ofs : ℕ) (text : List Char) : Except Fault Block :=
  if ofs + (text.length + 1) ≤ b.size then .ok { b with area := blit b.area ofs (text ++ [nul]) }
  else .error .outside

/-- A `struct cmdline_mtd_partition` of 16 bytes and the `mtd_id` behind it. -/
def putMtd (b : Block) (ofs : ℕ) (mtdId : List Char) : Except Fault Block :=
  if ofs + 16 ≤ b.size then b.putText (ofs + 16) mtdId else .error .outside

end Block

/-- `kmalloc` and `memset`; the size is that of an `int`. -/
def allocate (alloc : Bool) (numParts extraMemSize : ℕ) : Option Block :=
  if alloc then some ⟨u32 (numParts * 20 + extraMemSize),fun _ => ⟨0,0,false,0⟩,fun _ => nul⟩
  else none

structure Def where
  size : ℕ
  offset : ℕ
  name : Option Ptr
  nameLen : ℕ
  readOnly : Bool
  rest : Ptr

def parseSize (s : Ptr) : Except Fault (Option (ℕ × Ptr)) := do
  let c ← s.peek
  if c = some '-' then .ok (some (sizeRemaining,s.next))
  else do
    let r ← memparse s
    if u32 r.1 < pageSize then .ok none else .ok (some (u32 r.1,r.2))

def parseOffset (s : Ptr) : Except Fault (ℕ × Ptr) := do
  let c ← s.peek
  if c = some '@' then do
    let r ← memparse s.next
    .ok (u32 r.1,r.2)
  else .ok (0,s)

def parseName (s : Ptr) : Except Fault (Option (Option Ptr × ℕ × Ptr)) := do
  let c ← s.peek
  if c = some '(' then do
    let r ← strchr ')' (s.next.left + 1) s.next 0
    .ok (r.map fun r => (some s.next,r.1,r.2.next))
  else .ok (some (none,13,s))

/-- `strncmp(s, "ro", 2)`. -/
def parseFlags (s : Ptr) : Except Fault (Bool × Ptr) := do
  let c ← s.peek
  if c = some 'r' then do
    let c ← s.next.peek
    if c = some 'o' then .ok (true,s.next.next) else .ok (false,s)
  else .ok (false,s)

def parseDef (s : Ptr) : Except Fault (Option Def) := do
  let size ← parseSize s
  match size with
  | none => .ok none
  | some size => do
    let offset ← parseOffset size.2
    let name ← parseName offset.2
    match name with
    | none => .ok none
    | some name => do
      let flags ← parseFlags name.2.2
      .ok (some ⟨size.1,offset.1,name.1,name.2.1,flags.1,flags.2⟩)

def enter (b : Block) (d : Def) (thisPart extraMem : ℕ) : Except Fault Block := do
  let b ← b.putPart thisPart ⟨d.size,d.offset,d.readOnly,extraMem⟩
  match d.name with
  | some name => do
    let text ← readN d.nameLen name
    b.putText extraMem text
  | none => b.putText extraMem (defaultName thisPart)

/-- What `newpart` hands back. -/
structure New where
  block : Block
  numParts : ℕ
  extraMem : ℕ
  rest : Ptr

/-- `newpart`; none for a null pointer. -/
def newpart (alloc : Bool) : (fuel : ℕ) → Ptr → (thisPart extraMemSize : ℕ) →
    Except Fault (Option New)
  | 0, _, _, _ => .error .fuel
  | fuel + 1, s, thisPart, extraMemSize => do
    let d ← parseDef s
    match d with
    | none => .ok none
    | some d => do
      let c ← d.rest.peek
      if c = some ',' then
        if d.size = sizeRemaining then .ok none
        else do
          let r ← newpart alloc fuel d.rest.next (thisPart + 1) (extraMemSize + (d.nameLen + 1))
          match r with
          | none => .ok none
          | some r => do
            let b ← enter r.block d thisPart r.extraMem
            .ok (some ⟨b,r.numParts,r.extraMem + (d.nameLen + 1),r.rest⟩)
      else
        match allocate alloc (thisPart + 1) (extraMemSize + (d.nameLen + 1)) with
        | none => .ok none
        | some b => do
          let b ← enter b d thisPart ((thisPart + 1) * 20)
          .ok (some ⟨b,thisPart + 1,(thisPart + 1) * 20 + (d.nameLen + 1),d.rest⟩)

/-- An entry of the list `partitions`: a block and the place of `this_mtd` in it. -/
structure Entry where
  block : Block
  numParts : ℕ
  ofs : ℕ

/-- One specification: its table and its entry of the list. -/
def device (alloc : Bool) (s p : Ptr) (mtdIdLen : ℕ) : Except Fault (Entry × Ptr) := do
  let parts ← newpart alloc (p.left + 1) p 0 (mtdIdLen + 1 + 16)
  match parts with
  -- the result is not looked at, and `this_mtd` has no value
  | none => .error .uninit
  | some r => do
    let mtdId ← readN mtdIdLen s
    let b ← r.block.putMtd r.extraMem mtdId
    .ok (⟨b,r.numParts,r.extraMem⟩,r.rest)

/-- The loop of `mtdpart_setup_real`: the result and `partitions`.  `alloc n` is what becomes of
the `n`-th allocation from here on. -/
def setupLoop : (fuel : ℕ) → (alloc : ℕ → Bool) → Ptr → List Entry → Except Fault (ℕ × List Entry)
  | 0, _, _, _ => .error .fuel
  | fuel + 1, alloc, s, partitions => do
    let p ← strchr ':' (s.left + 1) s 0
    match p with
    | none => .ok (0,partitions)
    | some (mtdIdLen,p) => do
      let r ← device (alloc 0) s p.next mtdIdLen
      let partitions := r.1 :: partitions
      let c ← r.2.peek
      if c = none then .ok (1,partitions)
      else if c ≠ some ';' then .ok (0,partitions)
      else setupLoop fuel (fun n => alloc (n + 1)) r.2.next partitions

def mtdpartSetupReal (alloc : ℕ → Bool) (s : List Char) : Except Fault (ℕ × List Entry) :=
  setupLoop (s.length + 1) alloc (.str s) []

variable {fuel N : ℕ} {parts : List Listed} {r : List Listed × List Char}

section
variable {α β : Type} {l : List Char}

@[simp] theorem ok_bind (a : α) (f : α → Except Fault β) : (Except.ok a >>= f) = f a := rfl

@[simp] theorem peek_str (l : List Char) : (Ptr.str l).peek = .ok l.head? := rfl

@[simp] theorem next_cons (c : Char) (l : List Char) : (Ptr.str (c :: l)).next = .str l := rfl

@[simp] theorem left_str (l : List Char) : (Ptr.str l).left = l.length := rfl

theorem head?_ne {c : Char} (h : ∀ s, l = c :: s → False) : l.head? ≠ some c :=
  fun hc => (head?_eq_some_iff.mp hc).elim h

-- the cases are those of the functions on lists
theorem findBase_str (l : List Char) :
    findBase (.str l) = .ok ((Cmdline.findBase l).1,.str (Cmdline.findBase l).2) := by
  unfold Cmdline.findBase
  split
  · next c cp => by_cases hd : isxdigit c <;> simp [findBase,hd]
  · next cp hx => rcases cp with _ | ⟨c,_ | ⟨d,cp⟩⟩ <;> simp_all [findBase]
  · next h => simp [findBase,head?_ne h]

theorem digitLoop_str (base : ℕ) (h : l.length < fuel) (result : ℕ) :
    digitLoop base fuel (.str l) result =
      .ok ((Cmdline.digitLoop u64 base l result).1,
        .str (Cmdline.digitLoop u64 base l result).2) := by
  induction l generalizing fuel result with
  | nil =>
    obtain ⟨fuel,rfl⟩ := Nat.exists_eq_succ_of_ne_zero h.ne_bot
    rfl
  | cons c l ih =>
    obtain ⟨fuel,rfl⟩ := Nat.exists_eq_succ_of_ne_zero h.ne_bot
    rw [digitLoop,peek_str,ok_bind,Cmdline.digitLoop]
    dsimp only [head?_cons]
    split
    · exact ih (Nat.lt_of_succ_lt_succ h) _
    · rfl

theorem memparse_str (l : List Char) :
    memparse (.str l) = .ok ((Cmdline.memparse l).1,.str (Cmdline.memparse l).2) := by
  have hnum : strtoull (.str l) = .ok ((Cmdline.strtoull u64 l).1,
      .str (Cmdline.strtoull u64 l).2) := by
    rw [strtoull,findBase_str,ok_bind]
    exact digitLoop_str _ (Nat.lt_succ_self _) 0
  rw [memparse,hnum,ok_bind,peek_str,ok_bind,Cmdline.memparse,suffix]
  rcases Cmdline.strtoull u64 l with ⟨n,_ | ⟨c,cp⟩⟩
  · rfl
  · simp only [head?_cons,Option.some.injEq]
    split_ifs <;> rfl

theorem strchr_str (c : Char) (h : l.length < fuel) (n : ℕ) :
    strchr c fuel (.str l) n = .ok
      (match l.dropWhile (· ≠ c) with
      | [] => none
      | x :: rest => some (n + (l.takeWhile (· ≠ c)).length,.str (x :: rest))) := by
  induction l generalizing fuel n with
  | nil =>
    obtain ⟨fuel,rfl⟩ := Nat.exists_eq_succ_of_ne_zero h.ne_bot
    rfl
  | cons x l ih =>
    obtain ⟨fuel,rfl⟩ := Nat.exists_eq_succ_of_ne_zero h.ne_bot
    by_cases hx : x = c
    · simp [strchr,hx]
    · simp [strchr,hx,ih (Nat.lt_of_succ_lt_succ h),add_assoc,add_comm 1]

theorem readN_str (n : ℕ) (l : List Char) : readN n (.str l) = .ok (l.take n) := by
  induction n generalizing l with
  | zero => rfl
  | succ n ih => cases l <;> simp [readN,ih]

theorem take_takeWhile (p : Char → Bool) (l : List Char) :
    l.take (l.takeWhile p).length = l.takeWhile p :=
  .symm <| prefix_iff_eq_take.mp <| takeWhile_prefix p

/-- The name of a definition, if it has one, and the bytes reserved for it but the terminator. -/
def nameAt : List Char → Option Ptr × ℕ
  | '(' :: s => (some (.str s),(s.takeWhile (· ≠ ')')).length)
  | _ => (none,13)

theorem nameAt_none (h : l.head? ≠ some '(') : nameAt l = (none,13) := by
  unfold nameAt
  split
  · exact absurd rfl h
  · rfl

def nameStart (l : List Char) : List Char := (Cmdline.parseOffset (Cmdline.parseSize l).2).2

theorem parseSize_str (l : List Char) :
    parseSize (.str l) = .ok
      (if (Cmdline.parseSize l).1.value < pageSize then none
      else some ((Cmdline.parseSize l).1.value,.str (Cmdline.parseSize l).2)) := by
  unfold Cmdline.parseSize
  split
  · rfl
  · next h =>
    rw [parseSize,peek_str,ok_bind,if_neg (head?_ne h),memparse_str,ok_bind]
    split <;> rfl

theorem parseOffset_str (l : List Char) :
    parseOffset (.str l) =
      .ok ((Cmdline.parseOffset l).1.value,.str (Cmdline.parseOffset l).2) := by
  unfold Cmdline.parseOffset
  split
  · simp [parseOffset,memparse_str]
  · next h => simp [parseOffset,head?_ne h]

theorem parseFlags_str (l : List Char) :
    parseFlags (.str l) = .ok ((Cmdline.parseFlags l).1,.str (Cmdline.parseFlags l).2) := by
  unfold Cmdline.parseFlags
  split
  · rfl
  · next h => rcases l with _ | ⟨c,_ | ⟨d,l⟩⟩ <;> simp_all [parseFlags]

theorem parseName_str (thisPart : ℕ) (l : List Char) :
    parseName (.str l) = .ok ((Cmdline.parseName thisPart l).map fun r =>
      ((nameAt l).1,(nameAt l).2,.str r.2)) := by
  unfold Cmdline.parseName
  split
  · next s =>
    have hchr := strchr_str ')' (Nat.lt_succ_self s.length) 0
    cases hd : s.dropWhile (· ≠ ')') <;> rw [hd] at hchr <;> simp_all [parseName,nameAt]
  · next h => simp [parseName,head?_ne h,nameAt_none (head?_ne h)]

theorem parseDef_str (thisPart : ℕ) (l : List Char) :
    parseDef (.str l) = .ok ((parsePart l thisPart).map fun r =>
      ⟨r.1.size.value,r.1.offset.value,(nameAt (nameStart l)).1,(nameAt (nameStart l)).2,
        r.1.readOnly,.str r.2⟩) := by
  rw [parseDef,parseSize_str,ok_bind,parsePart]
  by_cases h : (Cmdline.parseSize l).1.value < pageSize
  · rw [if_pos h,if_pos h]
    rfl
  · rw [if_neg h,if_neg h]
    have hstart : (Cmdline.parseOffset (Cmdline.parseSize l).2).2 = nameStart l := rfl
    dsimp only
    rw [parseOffset_str,ok_bind,parseName_str thisPart,ok_bind,hstart]
    cases Cmdline.parseName thisPart (nameStart l) with
    | none => rfl
    | some r =>
      simp [Option.map_some,parseFlags_str,ok_bind]

def nameLen (l : List Char) : ℕ := (nameAt (nameStart l)).2

def tableBytes : ℕ → List Char → ℕ
  | fuel, l =>
    20 + (nameLen l + 1) +
      match (parsePart l 0).map Prod.snd with
      | some (',' :: l) =>
        match fuel with
        | 0 => 0
        | fuel + 1 => tableBytes fuel l
      | _ => 0

/-- What the functions on lists know of a definition. -/
def defOf (l : List Char) (part : Listed) (rest : List Char) : Def :=
  ⟨part.size.value,part.offset.value,(nameAt (nameStart l)).1,nameLen l,part.readOnly,.str rest⟩

/-- The name of an entry is only compared by its place. -/
def Part.Is (p : Part) (part : Listed) : Prop :=
  p.size = part.size.value ∧ p.offset = part.offset.value ∧ p.readOnly = part.readOnly

/-- The rest of the string does not depend on the number of the definition. -/
theorem parsePart_snd (l : List Char) (thisPart : ℕ) :
    (parsePart l thisPart).map Prod.snd = (parsePart l 0).map Prod.snd := by
  have hname : ∀ s, (Cmdline.parseName thisPart s).map Prod.snd =
      (Cmdline.parseName 0 s).map Prod.snd := by
    intro s
    unfold Cmdline.parseName
    split <;> rfl
  rw [parsePart,parsePart]
  split
  · rfl
  · have hn := congrArg (Option.map fun s => (Cmdline.parseFlags s).2) (hname (nameStart l))
    rw [Option.map_map,Option.map_map] at hn ⊢
    exact hn

end

section
variable {l rest : List Char} {thisPart : ℕ} {part : Listed}

theorem length_defaultName_le (thisPart : ℕ) :
    (defaultName thisPart).length ≤ 13 + thisPart := by
  have hd : (Nat.toDigits 10 thisPart).length ≤ thisPart + 1 :=
    Nat.toDigits_length 10 _ _ (Nat.succ_pos _) (Nat.lt_of_succ_lt (Nat.lt_pow_self (by decide)))
  have hten : "Partition_".toList.length = 10 := by decide
  unfold defaultName
  simp only [length_append,length_replicate,hten]
  omega

/-- A name is copied from the string or made up; with a large number it needs more than the bytes
reserved for it. -/
theorem parseName_text {name : List Char} (h : Cmdline.parseName thisPart l = some (name,rest)) :
    (∃ p, (nameAt l).1 = some p ∧ readN (nameAt l).2 p = .ok name ∧
      name.length = (nameAt l).2) ∨
    ((nameAt l).1 = none ∧ (nameAt l).2 = 13 ∧ name = defaultName thisPart) := by
  by_cases hl : l.head? = some '('
  · obtain ⟨l,rfl⟩ := head?_eq_some_iff.mp hl
    rw [Cmdline.parseName] at h
    split at h
    · cases h
    · cases h
      exact .inl ⟨.str l,rfl,by rw [nameAt,readN_str,take_takeWhile],rfl⟩
  · right
    rw [nameAt_none hl]
    unfold Cmdline.parseName at h
    grind

theorem parsePart_name (h : parsePart l thisPart = some (part,rest)) :
    ∃ rest', Cmdline.parseName thisPart (nameStart l) = some (part.name,rest') := by
  unfold parsePart at h
  dsimp only at h
  split at h
  · cases h
  · obtain ⟨⟨name,rest'⟩,hn,hr⟩ := Option.map_eq_some_iff.mp h
    cases hr
    exact ⟨rest',hn⟩

theorem enter_eq (b : Block) (extraMem : ℕ)
    (h : parsePart l thisPart = some (part,rest)) :
    enter b (defOf l part rest) thisPart extraMem =
      (b.putPart thisPart ⟨part.size.value,part.offset.value,part.readOnly,extraMem⟩ >>=
        fun b => b.putText extraMem part.name) ∧
      part.name.length ≤ nameLen l + thisPart := by
  obtain ⟨rest',hn⟩ := parsePart_name h
  rw [enter,defOf,nameLen]
  obtain ⟨p,hp,hread,hlen⟩ | ⟨hp,hlen,hname⟩ := parseName_text hn
  · rw [hp]
    dsimp only
    rw [hread]
    exact ⟨rfl,by omega⟩
  · have hle := length_defaultName_le thisPart
    grind

theorem enter_cases {b : Block} {extraMem e : ℕ} (h : parsePart l thisPart = some (part,rest))
    (hb : b.size = u32 N) (hlow : (thisPart + 1) * 20 ≤ extraMem)
    (hN : extraMem + (e + (nameLen l + 1)) = N) (he : 17 + thisPart ≤ e) :
    (enter b (defOf l part rest) thisPart extraMem = .error .outside ∧ 4294967296 ≤ N) ∨
    ∃ b', enter b (defOf l part rest) thisPart extraMem = .ok b' ∧ b'.size = b.size ∧
      b'.parts = update b.parts thisPart
        ⟨part.size.value,part.offset.value,part.readOnly,extraMem⟩ := by
  obtain ⟨heq,hlen⟩ := enter_eq b extraMem h
  have hfit : 4294967296 ≤ N ∨ b.size = N := by
    obtain hlt | hge := lt_or_ge N 4294967296
    · exact .inr (hb.trans (u32_of_lt hlt))
    · exact .inl hge
  rw [heq,Block.putPart]
  by_cases h₁ : thisPart * 20 + 16 ≤ b.size
  · rw [if_pos h₁,ok_bind,Block.putText]
    by_cases h₂ : extraMem + (part.name.length + 1) ≤ b.size
    · grind
    · grind
  · rw [if_neg h₁]
    exact .inl ⟨rfl,by omega⟩

end

/-- A table that `newpart` has made: `e` bytes of a block of `N` are left for its callers. -/
structure Made (thisPart e N : ℕ) (r : List Listed × List Char) (n : New) : Prop where
  size : n.block.size = u32 N
  numParts : n.numParts = thisPart + r.1.length
  low : (thisPart + 1) * 20 ≤ n.extraMem
  extraMem : n.extraMem + e = N
  rest : n.rest = .str r.2
  parts : ∀ (j : ℕ) (h : j < r.1.length), (n.block.parts (thisPart + j)).Is r.1[j]

/-- What `newpart` does where the function on lists gives `r`. -/
def Refines (alloc : Bool) (thisPart e N : ℕ) (x : Except Fault (Option New)) :
    Option (List Listed × List Char) → Prop
  | none => x = .ok none
  | some r => (alloc = false → x = .ok none) ∧
    (alloc = true → (x = .error .outside ∧ 4294967296 ≤ N) ∨
      ∃ n, x = .ok (some n) ∧ Made thisPart e N r n)

section
variable {alloc : Bool} {l rest : List Char} {thisPart e n : ℕ} {part : Listed}

theorem parseDef_some (h : parsePart l thisPart = some (part,rest)) :
    parseDef (.str l) = .ok (some (defOf l part rest)) := by
  rw [parseDef_str thisPart,h]
  rfl

theorem parseDef_none (h : parsePart l thisPart = none) :
    parseDef (.str l) = .ok none := by
  rw [parseDef_str thisPart,h]
  rfl

theorem allocate_true (numParts extraMemSize : ℕ) :
    ∃ b, allocate true numParts extraMemSize = some b ∧
      b.size = u32 (numParts * 20 + extraMemSize) := ⟨_,rfl,rfl⟩

section
variable (h : parsePart l thisPart = some (part,rest)) (hrest : rest.head? ≠ some ',')
include h hrest

theorem newpart_last_eq :
    newpart alloc (n + 1) (.str l) thisPart e =
      match allocate alloc (thisPart + 1) (e + (nameLen l + 1)) with
      | none => .ok none
      | some b =>
        enter b (defOf l part rest) thisPart ((thisPart + 1) * 20) >>= fun b =>
          .ok (some ⟨b,thisPart + 1,(thisPart + 1) * 20 + (nameLen l + 1),.str rest⟩) := by
  simp [newpart,parseDef_some h,defOf,hrest]

theorem newpart_last (he : 17 + thisPart ≤ e) :
    Refines alloc thisPart e (thisPart * 20 + e + (20 + (nameLen l + 1)))
      (newpart alloc (n + 1) (.str l) thisPart e) (some ([part],rest)) := by
  rw [newpart_last_eq h hrest]
  refine ⟨?_,?_⟩
  · rintro rfl
    rfl
  · rintro rfl
    have hN : (thisPart + 1) * 20 + (e + (nameLen l + 1)) =
        thisPart * 20 + e + (20 + (nameLen l + 1)) := by omega
    obtain ⟨b₀,halloc,hsize₀⟩ := allocate_true (thisPart + 1) (e + (nameLen l + 1))
    rw [hN] at hsize₀
    rw [halloc]
    dsimp only
    obtain ⟨herr,hge⟩ | ⟨b,hb,hsize,hparts⟩ := enter_cases h hsize₀ le_rfl hN he
    · rw [herr]
      exact .inl ⟨rfl,hge⟩
    · rw [hb]
      refine .inr ⟨_,rfl,hsize.trans hsize₀,rfl,Nat.le_add_right _ _,by dsimp only; omega,rfl,?_⟩
      · rintro (_ | j) hj
        · show (b.parts thisPart).Is part
          rw [hparts,update_self]
          exact ⟨rfl,rfl,rfl⟩
        · exact absurd hj (by simp)

theorem listNewpart_last : Cmdline.newpart n l thisPart = some ([part],rest) := by
  unfold Cmdline.newpart
  grind

theorem tableBytes_last : tableBytes n l = 20 + (nameLen l + 1) := by
  unfold tableBytes
  rw [← parsePart_snd l thisPart,h,Option.map_some]
  split
  · grind
  · rfl

end

theorem newpart_more_eq (h : parsePart l thisPart = some (part,',' :: rest))
    (hsize : part.size.value ≠ sizeRemaining) :
    newpart alloc (n + 1) (.str l) thisPart e =
      (newpart alloc n (.str rest) (thisPart + 1) (e + (nameLen l + 1)) >>= fun r =>
        match r with
        | none => .ok none
        | some r =>
          enter r.block (defOf l part (',' :: rest)) thisPart r.extraMem >>= fun b =>
            .ok (some ⟨b,r.numParts,r.extraMem + (nameLen l + 1),r.rest⟩)) := by
  simp [newpart,parseDef_some h,defOf,hsize]

theorem newpart_more (h : parsePart l thisPart = some (part,',' :: rest))
    (hsize : part.size.value ≠ sizeRemaining) (he : 17 + thisPart ≤ e)
    (hr : Refines alloc (thisPart + 1) (e + (nameLen l + 1)) N
      (newpart alloc n (.str rest) (thisPart + 1) (e + (nameLen l + 1))) (some r)) :
    Refines alloc thisPart e N (newpart alloc (n + 1) (.str l) thisPart e)
      (some (part :: r.1,r.2)) := by
  rw [newpart_more_eq h hsize]
  refine ⟨?_,?_⟩
  · intro ha
    rw [hr.1 ha]
    rfl
  · intro ha
    obtain ⟨herr,hge⟩ | ⟨m,hm,hmade⟩ := hr.2 ha
    · rw [herr]
      exact .inl ⟨rfl,hge⟩
    · rw [hm,ok_bind]
      have hlow : (thisPart + 1) * 20 ≤ m.extraMem :=
        (Nat.mul_le_mul_right 20 (Nat.le_succ _)).trans hmade.low
      have hextra := hmade.extraMem
      obtain ⟨herr,hge⟩ | ⟨b,hb,hbsize,hparts⟩ := enter_cases h hmade.size hlow hextra he
      · dsimp only
        rw [herr]
        exact .inl ⟨rfl,hge⟩
      · dsimp only
        rw [hb]
        refine .inr ⟨_,rfl,hbsize.trans hmade.size,?_,?_,?_,hmade.rest,?_⟩
        · rw [hmade.numParts,length_cons]
          omega
        · dsimp only
          omega
        · dsimp only
          omega
        · rintro (_ | j) hj
          · show (b.parts thisPart).Is part
            rw [hparts,update_self]
            exact ⟨rfl,rfl,rfl⟩
          · have hne : thisPart + (j + 1) ≠ thisPart := by omega
            have hj' : j < r.1.length := Nat.lt_of_succ_lt_succ hj
            have hp := hmade.parts j hj'
            rw [hparts,update_of_ne hne,← add_assoc,Nat.add_right_comm]
            exact hp

theorem listNewpart_more (h : parsePart l thisPart = some (part,',' :: rest)) :
    Cmdline.newpart (n + 1) l thisPart =
      if part.size.value = sizeRemaining then none
      else (Cmdline.newpart n rest (thisPart + 1)).map fun r => (part :: r.1,r.2) := by
  rw [Cmdline.newpart,h]
  rfl

theorem tableBytes_more (h : parsePart l thisPart = some (part,',' :: rest)) :
    tableBytes (n + 1) l = 20 + (nameLen l + 1) + tableBytes n rest := by
  rw [tableBytes,← parsePart_snd l thisPart,h]
  rfl

theorem newpart_str (alloc : Bool) (hl : l.length ≤ n) (he : 17 + thisPart ≤ e) :
    Refines alloc thisPart e (thisPart * 20 + e + tableBytes n l)
      (newpart alloc (n + 1) (.str l) thisPart e) (Cmdline.newpart n l thisPart) := by
  induction n generalizing l thisPart e with
  | zero =>
    obtain rfl := eq_nil_of_length_eq_zero (Nat.le_zero.mp hl)
    have hnone : parsePart [] thisPart = none := rfl
    rw [Cmdline.newpart,hnone,newpart,parseDef_none hnone]
    rfl
  | succ n ih =>
    cases h : parsePart l thisPart with
    | none =>
      rw [Cmdline.newpart,h,newpart,parseDef_none h]
      rfl
    | some p =>
      obtain ⟨part,rest⟩ := p
      by_cases hrest : rest.head? = some ','
      · obtain ⟨rest,rfl⟩ := head?_eq_some_iff.mp hrest
        have hle := parsePart_le h
        rw [length_cons] at hle
        rw [listNewpart_more h,tableBytes_more h]
        by_cases hsize : part.size.value = sizeRemaining
        · simp [newpart,parseDef_some h,defOf,hsize,Refines]
        · have hroom : 17 + (thisPart + 1) ≤ e + (nameLen l + 1) := by omega
          have hi := ih (l := rest) (by omega) hroom
          have hN : (thisPart + 1) * 20 + (e + (nameLen l + 1)) + tableBytes n rest =
              thisPart * 20 + e + (20 + (nameLen l + 1) + tableBytes n rest) := by omega
          rw [hN] at hi
          rw [if_neg hsize]
          cases hr : Cmdline.newpart n rest (thisPart + 1) with
          | none =>
            rw [hr] at hi
            rw [newpart_more_eq h hsize,hi]
            rfl
          | some r =>
            rw [hr] at hi
            exact newpart_more h hsize he hi
      · rw [listNewpart_last h hrest,tableBytes_last h hrest]
        exact newpart_last h hrest he

end

/-- The bytes of the block for the specification at the start of `s`. -/
def blockBytes (s rest : List Char) : ℕ :=
  (s.takeWhile (· ≠ ':')).length + 1 + 16 + tableBytes rest.length rest

/-- `newpart` accepts the specification at the start of `s`, gets the block, and the size of the
block fits into 32 bits. -/
def fine (alloc : Bool) (s rest : List Char) : Bool :=
  (Cmdline.newpart rest.length rest 0).isSome && alloc && decide (blockBytes s rest < 4294967296)

/-- What is left behind a specification if another follows. -/
def following (rest : List Char) : Option (List Char) :=
  match (Cmdline.newpart rest.length rest 0).map Prod.snd with
  | some (';' :: s) => some s
  | _ => none

/-- Each specification that is reached is fine. -/
def clean : ℕ → (ℕ → Bool) → List Char → Bool
  | fuel, alloc, s =>
    match s.dropWhile (· ≠ ':') with
    | [] => true
    | _ :: rest =>
      fine (alloc 0) s rest &&
        match fuel, following rest with
        | fuel + 1, some s => clean fuel (fun n => alloc (n + 1)) s
        | _, _ => true

/-- The tables of the specifications that `newpart` does not reject, up to the first that it
does. -/
def accepted : ℕ → (ℕ → Bool) → List Char → List MtdDef
  | fuel, alloc, s =>
    match s.dropWhile (· ≠ ':') with
    | [] => []
    | _ :: rest =>
      match alloc 0, Cmdline.newpart rest.length rest 0 with
      | true, some r =>
        ⟨s.takeWhile (· ≠ ':'),r.1⟩ ::
          match fuel, following rest with
          | fuel + 1, some s => accepted fuel (fun n => alloc (n + 1)) s
          | _, _ => []
      | _, _ => []

structure Entry.Is (x : Entry) (d : MtdDef) : Prop where
  mtdId : slice x.block.area (x.ofs + 16) (d.mtdId.length + 1) = d.mtdId ++ [nul]
  numParts : x.numParts = d.parts.length
  parts : ∀ (j : ℕ) (h : j < d.parts.length), (x.block.parts j).Is d.parts[j]

section
variable {alloc : Bool} {s rest : List Char} {r : List Listed × List Char} {m : New} {N : ℕ}
  {mtdId : List Char}

theorem Made.putMtd (h : Made 0 (mtdId.length + 1 + 16) N r m) (hN : N < 4294967296) :
    ∃ b, m.block.putMtd m.extraMem mtdId = .ok b ∧
      Entry.Is ⟨b,m.numParts,m.extraMem⟩ ⟨mtdId,r.1⟩ := by
  have hextra := h.extraMem
  have hsize := h.size
  rw [u32_of_lt hN] at hsize
  have h₁ : m.extraMem + 16 ≤ m.block.size := by omega
  have h₂ : m.extraMem + 16 + (mtdId.length + 1) ≤ m.block.size := by omega
  rw [Block.putMtd,if_pos h₁,Block.putText,if_pos h₂]
  refine ⟨_,rfl,?_,?_,?_⟩
  · have hlen : (mtdId ++ [nul]).length = mtdId.length + 1 := length_append
    apply ext_getElem
    · rw [length_slice,hlen]
    · intro k hk hk'
      rw [getElem_slice]
      exact blit_of_lt hk'
  · simp [h.numParts]
  · intro j hj
    have hp := h.parts j hj
    rwa [zero_add] at hp

theorem Made.putMtd_outside (h : Made 0 (mtdId.length + 1 + 16) N r m) (hN : 4294967296 ≤ N) :
    m.block.putMtd m.extraMem mtdId = .error .outside := by
  have hextra := h.extraMem
  have hsize := h.size
  have hlt := u32_lt N
  rw [Block.putMtd]
  split
  · have h₂ : ¬m.extraMem + 16 + (mtdId.length + 1) ≤ m.block.size := by omega
    rw [Block.putText,if_neg h₂]
  · rfl

theorem device_eq (alloc : Bool) (s rest : List Char) :
    device alloc (.str s) (.str rest) (s.takeWhile (· ≠ ':')).length =
      (newpart alloc (rest.length + 1) (.str rest) 0
        ((s.takeWhile (· ≠ ':')).length + 1 + 16) >>= fun parts =>
        match parts with
        | none => .error .uninit
        | some r =>
          r.block.putMtd r.extraMem (s.takeWhile (· ≠ ':')) >>= fun b =>
            .ok (⟨b,r.numParts,r.extraMem⟩,r.rest)) := by
  simp only [device,readN_str,take_takeWhile,left_str,ok_bind]

theorem newpart_spec (alloc : Bool) (s rest : List Char) :
    Refines alloc 0 ((s.takeWhile (· ≠ ':')).length + 1 + 16) (blockBytes s rest)
      (newpart alloc (rest.length + 1) (.str rest) 0 ((s.takeWhile (· ≠ ':')).length + 1 + 16))
      (Cmdline.newpart rest.length rest 0) := by
  have hroom : 17 + 0 ≤ (s.takeWhile (· ≠ ':')).length + 1 + 16 := by omega
  have href := newpart_str alloc (Nat.le_refl rest.length) hroom
  rwa [zero_mul,zero_add] at href

theorem device_fault (h : fine alloc s rest = false) :
    ∃ e, device alloc (.str s) (.str rest) (s.takeWhile (· ≠ ':')).length = .error e ∧
      (e = .uninit ∨ e = .outside) := by
  have href := newpart_spec alloc s rest
  rw [device_eq]
  rw [fine] at h
  cases hr : Cmdline.newpart rest.length rest 0 with
  | none =>
    rw [hr] at href
    rw [href]
    simp
  | some r =>
    rw [hr] at href h
    cases alloc with
    | false =>
      rw [href.1 rfl]
      simp
    | true =>
      have hbytes : 4294967296 ≤ blockBytes s rest := Nat.le_of_not_lt (of_decide_eq_false h)
      obtain ⟨herr,-⟩ | ⟨m,hm,hmade⟩ := href.2 rfl
      · rw [herr]
        exact ⟨_,rfl,.inr rfl⟩
      · rw [hm,ok_bind]
        dsimp only
        rw [hmade.putMtd_outside hbytes]
        exact ⟨_,rfl,.inr rfl⟩

theorem device_fine (h : fine alloc s rest = true) :
    alloc = true ∧ ∃ x r, Cmdline.newpart rest.length rest 0 = some r ∧
      device alloc (.str s) (.str rest) (s.takeWhile (· ≠ ':')).length = .ok (x,.str r.2) ∧
      x.Is ⟨s.takeWhile (· ≠ ':'),r.1⟩ := by
  have href := newpart_spec alloc s rest
  rw [fine,Bool.and_eq_true,Bool.and_eq_true] at h
  obtain ⟨⟨hsome,ha⟩,hbytes⟩ := h
  have hbytes := of_decide_eq_true hbytes
  obtain ⟨r,hr⟩ := Option.isSome_iff_exists.mp hsome
  rw [hr] at href
  obtain ⟨-,hge⟩ | ⟨m,hm,hmade⟩ := href.2 ha
  · omega
  · obtain ⟨b,hb,his⟩ := hmade.putMtd hbytes
    refine ⟨ha,_,r,hr,?_,his⟩
    rw [device_eq,hm,ok_bind]
    dsimp only
    rw [hb,hmade.rest]
    rfl

end

section
variable {alloc : ℕ → Bool} {s rest : List Char} {c : Char} {ps : List Entry}
  {defs : List MtdDef} {n : ℕ}

theorem setupLoop_none (hd : s.dropWhile (· ≠ ':') = []) :
    setupLoop (n + 1) alloc (.str s) ps = .ok (0,ps) := by
  rw [setupLoop,left_str,strchr_str ':' (Nat.lt_succ_self _),hd]
  rfl

theorem setupLoop_device (hd : s.dropWhile (· ≠ ':') = c :: rest) :
    setupLoop (n + 1) alloc (.str s) ps =
      (device (alloc 0) (.str s) (.str rest) (s.takeWhile (· ≠ ':')).length >>= fun r =>
        r.2.peek >>= fun x =>
          if x = none then .ok (1,r.1 :: ps)
          else if x ≠ some ';' then .ok (0,r.1 :: ps)
          else setupLoop n (fun n => alloc (n + 1)) r.2.next (r.1 :: ps)) := by
  rw [setupLoop,left_str,strchr_str ':' (Nat.lt_succ_self _),hd,zero_add]
  rfl

theorem clean_device (hd : s.dropWhile (· ≠ ':') = c :: rest) :
    clean (n + 1) alloc s =
      (fine (alloc 0) s rest &&
        match following rest with
        | some s => clean n (fun n => alloc (n + 1)) s
        | none => true) := by
  rw [clean,hd]
  grind

theorem accepted_device (hd : s.dropWhile (· ≠ ':') = c :: rest) (ha : alloc 0 = true)
    (hr : Cmdline.newpart rest.length rest 0 = some r) :
    accepted (n + 1) alloc s = ⟨s.takeWhile (· ≠ ':'),r.1⟩ ::
      match following rest with
      | some s => accepted n (fun n => alloc (n + 1)) s
      | none => [] := by
  rw [accepted,hd,ha]
  grind

theorem following_some {s' : List Char}
    (hr : Cmdline.newpart rest.length rest 0 = some (parts,';' :: s')) :
    following rest = some s' := by
  rw [following,hr]
  rfl

theorem following_none (hr : Cmdline.newpart rest.length rest 0 = some r)
    (h : r.2.head? ≠ some ';') : following rest = none := by
  unfold following
  rw [hr,Option.map_some]
  split
  · grind
  · rfl

theorem length_following {x : Char} {s' : List Char} (hd : s.dropWhile (· ≠ ':') = c :: rest)
    (hr : Cmdline.newpart rest.length rest 0 = some (parts,x :: s')) : s'.length < s.length := by
  have hle := (dropWhile_suffix (p := fun c => decide (c ≠ ':')) (l := s)).length_le
  have hle' := newpart_le hr
  grind

/-- The loop does not fault just if each specification it reaches is fine: induction on the bound of
the functions on lists. -/
theorem setupLoop_iff (hs : s.length ≤ n) (hps : List.Forall₂ Entry.Is ps defs) :
    (∃ ret ps', setupLoop (n + 1) alloc (.str s) ps = .ok (ret,ps') ∧
      List.Forall₂ Entry.Is ps' ((accepted n alloc s).reverse ++ defs)) ↔
      clean n alloc s = true := by
  induction n generalizing alloc s ps defs with
  | zero =>
    obtain rfl := eq_nil_of_length_eq_zero (Nat.le_zero.mp hs)
    exact iff_of_true ⟨0,ps,rfl,hps⟩ rfl
  | succ n ih =>
    cases hd : s.dropWhile (· ≠ ':') with
    | nil =>
      refine iff_of_true ⟨0,ps,setupLoop_none hd,?_⟩ ?_
      · rw [accepted,hd]
        exact hps
      · rw [clean,hd]
    | cons c rest =>
      rw [setupLoop_device hd,clean_device hd]
      cases hf : fine (alloc 0) s rest with
      | false =>
        obtain ⟨e,he,-⟩ := device_fault hf
        rw [he]
        refine iff_of_false ?_ Bool.false_ne_true
        rintro ⟨ret,ps',h,-⟩
        cases h
      | true =>
        obtain ⟨ha,x,r,hr,hdev,his⟩ := device_fine hf
        rw [hdev,ok_bind,accepted_device hd ha hr,Bool.true_and,peek_str,ok_bind]
        have hmore := List.Forall₂.cons his hps
        obtain ⟨parts,s'⟩ := r
        by_cases hsep : s'.head? = some ';'
        · -- another specification follows
          obtain ⟨s',rfl⟩ := head?_eq_some_iff.mp hsep
          have hlt := length_following hd hr
          have hi : _ ↔ clean n (fun n => alloc (n + 1)) s' = true := ih (by omega) hmore
          rw [following_some hr,← hi,head?_cons,if_neg (by simp),if_neg (by simp)]
          simp
        · rw [following_none hr hsep]
          refine iff_of_true ?_ rfl
          by_cases hnil : s'.head? = none
          · rw [if_pos hnil]
            exact ⟨1,_,rfl,hmore⟩
          · rw [if_neg hnil,if_pos hsep]
            exact ⟨0,_,rfl,hmore⟩

end

/-- No pointer without a value is dereferenced, nothing read behind the terminator and nothing written
outside of the block, and the list has an entry for each specification that is not rejected and
no other, just if `newpart` accepts every specification that is reached, gets its block, and the
size of the block fits into 32 bits. -/
theorem errors_contained_iff (alloc : ℕ → Bool) (s : List Char) :
    (∃ ret partitions, mtdpartSetupReal alloc s = .ok (ret,partitions) ∧
      List.Forall₂ Entry.Is partitions (accepted s.length alloc s).reverse) ↔
      clean s.length alloc s = true := by
  have h : _ ↔ clean s.length alloc s = true :=
    setupLoop_iff (Nat.le_refl s.length) List.Forall₂.nil
  rwa [append_nil] at h

/-- A size below a page, and a table that there is no memory for. -/
theorem rejected_dereferenced :
    mtdpartSetupReal (fun _ => true) "flash:1".toList = .error .uninit ∧
      mtdpartSetupReal (fun _ => false) "flash:4k".toList = .error .uninit :=
  ⟨rfl,rfl⟩

end Simpad.Mtd.CmdlinePtr
