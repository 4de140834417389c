import Simpad.Base.Word

/-! Partitions from the command line. Strings are lists of characters without the final zero. -/

namespace Simpad.Mtd.Cmdline
open Word List

def isdigit (c : Char) : Bool := decide (48 ≤ c.toNat ∧ c.toNat ≤ 57)

def isxdigit (c : Char) : Bool :=
  isdigit c || decide (65 ≤ c.toNat ∧ c.toNat ≤ 70 ∨ 97 ≤ c.toNat ∧ c.toNat ≤ 102)

def value (c : Char) : ℕ :=
  if isdigit c then c.toNat - 48 else (if 97 ≤ c.toNat then c.toNat - 32 else c.toNat) - 65 + 10

def findBase : List Char → ℕ × List Char
  | '0' :: 'x' :: c :: cp => if isxdigit c then (16,c :: cp) else (8,'x' :: c :: cp)
  | '0' :: cp => (8,cp)
  | cp => (10,cp)

section
variable (wrap : ℕ → ℕ)

/-- The digit loop of `simple_strtoull`, in an arithmetic that keeps `wrap` of each result. -/
def digitLoop (base : ℕ) : List Char → ℕ → ℕ × List Char
  | [], result => (result,[])
  | c :: cp, result =>
    if isxdigit c ∧ value c < base then digitLoop base cp (wrap (result * base + value c))
    else (result,c :: cp)

/-- `simple_strtoull` with `base` 0. -/
def strtoull (cp : List Char) : ℕ × List Char :=
  let r := findBase cp
  digitLoop wrap r.1 r.2 0

/-- The suffixes of `memparse`. -/
def suffix (r : ℕ × List Char) : ℕ × List Char :=
  let kilo := fun n => wrap (n * 1024)
  match r.2 with
  | c :: cp =>
    if c = 'G' ∨ c = 'g' then (kilo (kilo (kilo r.1)),cp)
    else if c = 'M' ∨ c = 'm' then (kilo (kilo r.1),cp)
    else if c = 'K' ∨ c = 'k' then (kilo r.1,cp)
    else r
  | [] => r

end

/-- The value that an `unsigned long long` keeps of `n`. -/
def u64 (n : ℕ) : ℕ := n % 18446744073709551616

def memparse (ptr : List Char) : ℕ × List Char := suffix u64 (strtoull u64 ptr)

def written (ptr : List Char) : ℕ := (suffix id (strtoull id ptr)).1

def sizeRemaining : ℕ := 0xffffffff

def pageSize : ℕ := 4096

theorem u32_digitLoop (base : ℕ) (cp : List Char) {r r' : ℕ} (h : u32 r = u32 r') :
    u32 (digitLoop u64 base cp r).1 = u32 (digitLoop id base cp r').1 ∧
      (digitLoop u64 base cp r).2 = (digitLoop id base cp r').2 := by
  induction cp generalizing r r' with
  | nil => exact ⟨h,rfl⟩
  | cons c cp ih =>
    rw [digitLoop,digitLoop]
    split
    · apply ih
      rw [u32,u32] at h
      rw [u32,u64,u32,id,Nat.mod_mod_of_dvd _ (by decide),Nat.add_mod,Nat.mul_mod,h,← Nat.mul_mod,
        ← Nat.add_mod]
    · exact ⟨h,rfl⟩

theorem u32_kilo {r r' : ℕ} (h : u32 r = u32 r') : u32 (u64 (r * 1024)) = u32 (r' * 1024) := by
  rw [u32,u32] at h
  rw [u32,u64,u32,Nat.mod_mod_of_dvd _ (by decide),Nat.mul_mod,h,← Nat.mul_mod]

theorem u32_memparse (ptr : List Char) : u32 (memparse ptr).1 = u32 (written ptr) := by
  obtain ⟨h,hrest⟩ := u32_digitLoop (findBase ptr).1 (findBase ptr).2 (rfl : u32 0 = u32 0)
  rw [memparse,written,strtoull,strtoull,suffix,suffix]
  rw [hrest]
  cases (digitLoop id (findBase ptr).1 (findBase ptr).2 0).2 with
  | nil => exact h
  | cons c cp =>
    dsimp only
    split_ifs
    · exact u32_kilo (u32_kilo (u32_kilo h))
    · exact u32_kilo (u32_kilo h)
    · exact u32_kilo h
    · exact h

/-- The size of an entry: its value, and the number that was written, none for `-`. -/
structure Size where
  value : ℕ
  written : Option ℕ
  value_eq : value = (written.map u32).getD sizeRemaining

/-- The offset of an entry: its value, and the number that was written, none if there is none. -/
structure Offset where
  value : ℕ
  written : Option ℕ
  value_eq : value = u32 (written.getD 0)

/-- A `struct mtd_partition` of a table. -/
structure Listed where
  size : Size
  offset : Offset
  /-- whether `MTD_WRITEABLE` is masked out -/
  readOnly : Bool
  name : List Char

def parseSize : List Char → Size × List Char
  | '-' :: s => (⟨sizeRemaining,none,rfl⟩,s)
  | s => (⟨u32 (memparse s).1,some (written s),u32_memparse s⟩,(memparse s).2)

def parseOffset : List Char → Offset × List Char
  | '@' :: s => (⟨u32 (memparse s).1,some (written s),u32_memparse s⟩,(memparse s).2)
  | s => (⟨0,none,rfl⟩,s)

/-- `sprintf(.., "Partition_%03d", ..)`. -/
def defaultName (thisPart : ℕ) : List Char :=
  let digits := Nat.toDigits 10 thisPart
  "Partition_".toList ++ replicate (3 - digits.length) '0' ++ digits

/-- The name; none if it has no closing parenthesis. -/
def parseName (thisPart : ℕ) : List Char → Option (List Char × List Char)
  | '(' :: s =>
    match s.dropWhile (· ≠ ')') with
    | [] => none
    | _ :: rest => some (s.takeWhile (· ≠ ')'),rest)
  | s => some (defaultName thisPart,s)

def parseFlags : List Char → Bool × List Char
  | 'r' :: 'o' :: s => (true,s)
  | s => (false,s)

/-- One definition: the part of `newpart` in front of its recursion. -/
def parsePart (s : List Char) (thisPart : ℕ) : Option (Listed × List Char) :=
  let size := parseSize s
  if size.1.value < pageSize then none
  else
    let offset := parseOffset size.2
    (parseName thisPart offset.2).map fun name =>
      let flags := parseFlags name.2
      (⟨size.1,offset.1,flags.1,name.1⟩,flags.2)

/-- `newpart`: the entries from `thisPart` on and the rest of the string; none if it fails.  `fuel`
bounds the depth of the recursion. -/
def newpart : ℕ → List Char → ℕ → Option (List Listed × List Char)
  | fuel, s, thisPart =>
    (parsePart s thisPart).bind fun part =>
      match part.2 with
      | ',' :: s =>
        if part.1.size.value = sizeRemaining then none
        else
          match fuel with
          | 0 => none
          | fuel + 1 => (newpart fuel s (thisPart + 1)).map fun r => (part.1 :: r.1,r.2)
      | s => some ([part.1],s)

/-- `struct cmdline_mtd_partition`. -/
structure MtdDef where
  mtdId : List Char
  parts : List Listed

/-- The loop of `mtdpart_setup_real`; none where it returns 0 or where `newpart` fails, which it does
not look at. -/
def setupLoop : ℕ → List Char → List MtdDef → Option (List MtdDef)
  | fuel, s, partitions =>
    match s.dropWhile (· ≠ ':') with
    | [] => none
    | _ :: rest =>
      (newpart rest.length rest 0).bind fun r =>
        let partitions := ⟨s.takeWhile (· ≠ ':'),r.1⟩ :: partitions
        match r.2 with
        | [] => some partitions
        | c :: s =>
          if c ≠ ';' then none
          else
            match fuel with
            | 0 => none
            | fuel + 1 => setupLoop fuel s partitions

/-- `mtdpart_setup_real`: the chain of tables, none if the string is not accepted. -/
def mtdpartSetupReal (s : List Char) : Option (List MtdDef) := setupLoop s.length s []

theorem digitLoop_le (wrap : ℕ → ℕ) (base : ℕ) (cp : List Char) (result : ℕ) :
    (digitLoop wrap base cp result).2.length ≤ cp.length := by
  induction cp generalizing result with
  | nil => exact le_rfl
  | cons c cp ih =>
    rw [digitLoop]
    grind

theorem findBase_le (cp : List Char) : (findBase cp).2.length ≤ cp.length := by
  unfold findBase
  grind

theorem suffix_le (wrap : ℕ → ℕ) (r : ℕ × List Char) : (suffix wrap r).2.length ≤ r.2.length := by
  obtain ⟨n,cp⟩ := r
  cases cp with
  | nil => exact le_rfl
  | cons c cp =>
    rw [suffix]
    grind

theorem memparse_le (ptr : List Char) : (memparse ptr).2.length ≤ ptr.length :=
  (suffix_le _ _).trans ((digitLoop_le _ _ _ _).trans (findBase_le ptr))

theorem parseSize_le (s : List Char) : (parseSize s).2.length ≤ s.length := by
  unfold parseSize
  split
  · exact Nat.le_succ _
  · exact memparse_le _

theorem parseOffset_le (s : List Char) : (parseOffset s).2.length ≤ s.length := by
  unfold parseOffset
  split
  · exact (memparse_le _).trans (Nat.le_succ _)
  · exact le_rfl

theorem parseFlags_le (s : List Char) : (parseFlags s).2.length ≤ s.length := by
  unfold parseFlags
  grind

variable {thisPart fuel fuel' cur : ℕ} {s rest : List Char}

theorem parseName_le {name : List Char} (h : parseName thisPart s = some (name,rest)) :
    rest.length ≤ s.length := by
  unfold parseName at h
  split at h
  · next s =>
    split at h
    · cases h
    · next c rest' hd =>
      cases h
      have hle := (dropWhile_suffix (p := fun c => decide (c ≠ ')')) (l := s)).length_le
      grind
  · cases h
    exact le_rfl

theorem parsePart_le {part : Listed} (h : parsePart s thisPart = some (part,rest)) :
    rest.length ≤ s.length := by
  unfold parsePart at h
  dsimp only at h
  split at h
  · cases h
  · obtain ⟨⟨name,rest'⟩,hn,hr⟩ := Option.map_eq_some_iff.mp h
    cases hr
    calc (parseFlags rest').2.length ≤ rest'.length := parseFlags_le _
      _ ≤ (parseOffset (parseSize s).2).2.length := parseName_le hn
      _ ≤ (parseSize s).2.length := parseOffset_le _
      _ ≤ s.length := parseSize_le s

theorem newpart_le {parts : List Listed} (h : newpart fuel s thisPart = some (parts,rest)) :
    rest.length ≤ s.length := by
  induction fuel generalizing s thisPart parts with
  | zero =>
    rw [newpart] at h
    obtain ⟨⟨part,s'⟩,hp,h⟩ := Option.bind_eq_some_iff.mp h
    split at h
    · split at h <;> cases h
    · cases h
      exact parsePart_le hp
  | succ fuel ih =>
    rw [newpart] at h
    obtain ⟨⟨part,s'⟩,hp,h⟩ := Option.bind_eq_some_iff.mp h
    dsimp only at h
    split at h
    · next s'' =>
      split at h
      · cases h
      · obtain ⟨⟨parts',rest'⟩,hr,heq⟩ := Option.map_eq_some_iff.mp h
        cases heq
        exact (ih hr).trans ((Nat.le_succ _).trans (parsePart_le hp))
    · cases h
      exact parsePart_le hp

structure Entry where
  part : Listed
  offset : ℕ
  size : ℕ

/-- The offset of an entry that is reached with `offset`; 0 stands for none. -/
def placeOffset (offset : ℕ) (part : Listed) : ℕ :=
  if part.offset.value = 0 then offset else part.offset.value

/-- The size of an entry at `offset`. -/
def placeSize (masterSize offset : ℕ) (part : Listed) : ℕ :=
  if part.size.value = sizeRemaining then sub32 masterSize offset else part.size.value

/-- The loop of `parse_cmdline_partitions`. -/
def placeLoop (masterSize : ℕ) : ℕ → List Listed → List Entry
  | _, [] => []
  | offset, part :: parts =>
    let offset := placeOffset offset part
    let size := placeSize masterSize offset part
    -- an entry that exceeds the master ends the table in front of it
    if masterSize < u32 (offset + size) then []
    else ⟨part,offset,size⟩ :: placeLoop masterSize (u32 (offset + size)) parts

/-- `parse_cmdline_partitions`; none for `-EINVAL`. -/
def parseCmdlinePartitions (partitions : List MtdDef) (masterSize : ℕ) (mtdId : List Char) :
    Option (List Entry) :=
  (partitions.find? fun part => part.mtdId = mtdId).map fun part => placeLoop masterSize 0 part.parts

section
variable (M : ℕ)

/-- The size that an entry gets at `start`, below the size of the master. -/
def wantedSize (start : ℕ) (part : Listed) : ℕ :=
  (part.size.written.map (min · (M - start))).getD (M - start)

/-- Where each entry is to go behind `prev`: the start and the size, none if it does not start below
the size of the master. -/
def wanted : ℕ → List Listed → List (Option (ℕ × ℕ))
  | _, [] => []
  | prev, part :: parts =>
    let start := part.offset.written.getD prev
    if start < M then
      some (start,wantedSize M start part) :: wanted (start + wantedSize M start part) parts
    else none :: wanted start parts

/-- The entries that are wanted somewhere are in the table, in their places. -/
def Matches (parts : List Listed) (ws : List (Option (ℕ × ℕ))) (table : List Entry) : Prop :=
  ∀ (i : ℕ) (part : Listed) (start size : ℕ), parts[i]? = some part → ws[i]? = some (some (start,size)) →
    table[i]? = some (Entry.mk part start size)

/-- The table has the entries that start below the size of the master where they are wanted, and no
entry exceeds the master. -/
def PlacedFrom (prev : ℕ) (parts : List Listed) (table : List Entry) : Prop :=
  Matches parts (wanted M prev parts) table ∧ ∀ e ∈ table, e.offset + e.size ≤ M

/-- The size of an entry at `start` is as written: it does not exceed the master, and it is a number of
32 bits unless the entry ends with the master. -/
def Fits (start : ℕ) (part : Listed) : Prop :=
  ∀ z, part.size.written = some z →
    u32 z = sizeRemaining ∨ start + u32 z ≤ M ∧ (z < 4294967296 ∨ start + u32 z = M)

/-- The tables that are placed as written.  `prev` is the end of the entry in front as written, `cur`
that of the loop. -/
def Sane : ℕ → ℕ → List Listed → Prop
  | _, _, [] => True
  | prev, cur, part :: parts =>
    let start := part.offset.written.getD prev
    if start < M then
      (part.offset.written = some 0 → cur = 0) ∧ Fits M start part ∧
        Sane (start + wantedSize M start part) (start + wantedSize M start part) parts
    else
      let stop := placeOffset cur part + placeSize M (placeOffset cur part) part
      if M < u32 stop then ∀ w ∈ wanted M start parts, w = none
      else stop ≤ M ∧ Sane start stop parts

variable {M} {prev : ℕ} {part : Listed} {parts : List Listed}

theorem length_wanted : (wanted M prev parts).length = parts.length := by
  induction parts generalizing prev with
  | nil => rfl
  | cons part parts ih =>
    rw [wanted]
    grind

theorem placedFrom_nil : PlacedFrom M prev parts [] ↔ ∀ w ∈ wanted M prev parts, w = none := by
  constructor
  · rintro ⟨h,-⟩ w hw
    obtain ⟨i,hi,hw⟩ := mem_iff_getElem.mp hw
    cases w with
    | none => rfl
    | some p =>
      have hi' : i < parts.length := by rwa [length_wanted] at hi
      have hnil := h i _ p.1 p.2 (getElem?_eq_getElem hi') (List.getElem?_eq_some_iff.mpr ⟨hi,hw⟩)
      exact absurd hnil (by simp)
  · intro h
    refine ⟨fun i part start size _ hw => ?_,fun _ he => absurd he not_mem_nil⟩
    have hnone := h _ (mem_of_getElem? hw)
    cases hnone

theorem matches_cons {w : Option (ℕ × ℕ)} {ws : List (Option (ℕ × ℕ))} :
    Matches (part :: parts) (w :: ws) (e :: table) ↔
      (∀ start size, w = some (start,size) → e = Entry.mk part start size) ∧
        Matches parts ws table := by
  constructor
  · intro h
    refine ⟨fun start size hw => ?_,fun i part' start size hp hw => ?_⟩
    · exact Option.some.inj (h 0 part start size rfl (congrArg some hw))
    · exact h (i + 1) part' start size hp hw
  · rintro ⟨hhead,htail⟩ i part' start size hp hw
    cases i with
    | zero =>
      grind
    | succ i => exact htail i part' start size hp hw

theorem wanted_cons_of_lt (h : part.offset.written.getD prev < M) :
    wanted M prev (part :: parts) =
      some (part.offset.written.getD prev,wantedSize M (part.offset.written.getD prev) part) ::
        wanted M (part.offset.written.getD prev +
          wantedSize M (part.offset.written.getD prev) part) parts :=
  if_pos h

theorem wanted_cons_of_ge (h : M ≤ part.offset.written.getD prev) :
    wanted M prev (part :: parts) = none :: wanted M (part.offset.written.getD prev) parts :=
  if_neg (not_lt.mpr h)

theorem placedFrom_cons_of_lt (h : part.offset.written.getD prev < M) :
    PlacedFrom M prev (part :: parts) (e :: table) ↔
      e = ⟨part,part.offset.written.getD prev,wantedSize M (part.offset.written.getD prev) part⟩ ∧
        e.offset + e.size ≤ M ∧ PlacedFrom M (part.offset.written.getD prev +
          wantedSize M (part.offset.written.getD prev) part) parts table := by
  rw [PlacedFrom,wanted_cons_of_lt h,matches_cons,forall_mem_cons,PlacedFrom]
  constructor
  · grind
  · grind

theorem not_placedFrom_nil (h : part.offset.written.getD prev < M) :
    ¬PlacedFrom M prev (part :: parts) [] := by
  simp [placedFrom_nil,wanted_cons_of_lt h]

theorem placedFrom_cons_of_ge (h : M ≤ part.offset.written.getD prev) :
    PlacedFrom M prev (part :: parts) (e :: table) ↔
      e.offset + e.size ≤ M ∧ PlacedFrom M (part.offset.written.getD prev) parts table := by
  rw [PlacedFrom,wanted_cons_of_ge h,matches_cons,forall_mem_cons,PlacedFrom]
  constructor
  · grind
  · grind

theorem placeLoop_of_exceeds
    (h : M < u32 (placeOffset cur part + placeSize M (placeOffset cur part) part)) :
    placeLoop M cur (part :: parts) = [] :=
  if_pos h

theorem placeLoop_of_le
    (h : ¬M < u32 (placeOffset cur part + placeSize M (placeOffset cur part) part)) :
    placeLoop M cur (part :: parts) =
      ⟨part,placeOffset cur part,placeSize M (placeOffset cur part) part⟩ ::
        placeLoop M (u32 (placeOffset cur part + placeSize M (placeOffset cur part) part)) parts :=
  if_neg h

/-- Below the size of the master the loop has the written start unless that is a zero that it takes
for none. -/
theorem placeOffset_eq (hM : M < 4294967296) (hcur : prev < M → cur = prev)
    (h : part.offset.written.getD prev < M) :
    placeOffset cur part = part.offset.written.getD prev ↔
      (part.offset.written = some 0 → cur = 0) := by
  rw [placeOffset,part.offset.value_eq]
  cases hw : part.offset.written with
  | none =>
    rw [hw] at h
    exact iff_of_true (hcur h) fun h => absurd h (Option.some_ne_none _).symm
  | some e =>
    rw [hw] at h
    have he : u32 e = e := u32_of_lt (lt_trans h hM)
    rw [Option.getD_some,Option.getD_some,he]
    by_cases hz : e = 0
    · grind
    · grind

theorem placeSize_eq {start : ℕ} (hM : M < 4294967296) (h : start < M) :
    (start + placeSize M start part ≤ M ∧ placeSize M start part = wantedSize M start part) ↔
      Fits M start part := by
  have hrem : sub32 M start = M - start := sub32_of_le h.le hM
  rw [placeSize,part.size.value_eq,wantedSize,Fits]
  cases hw : part.size.written with
  | none =>
    grind
  | some z =>
    rw [Option.map_some,Option.getD_some,Option.map_some,Option.getD_some]
    have hsmall : z < 4294967296 → u32 z = z := u32_of_lt
    have hall : (∀ z', some z = some z' → u32 z' = sizeRemaining ∨
        start + u32 z' ≤ M ∧ (z' < 4294967296 ∨ start + u32 z' = M)) ↔
        u32 z = sizeRemaining ∨ start + u32 z ≤ M ∧ (z < 4294967296 ∨ start + u32 z = M) :=
      ⟨fun h => h z rfl,fun h z' hz => Option.some.inj hz ▸ h⟩
    rw [hall]
    by_cases hr : u32 z = sizeRemaining
    · rw [if_pos hr,hrem]
      refine iff_of_true ⟨by omega,?_⟩ (Or.inl hr)
      rw [sizeRemaining] at hr
      omega
    · rw [if_neg hr,or_iff_right hr]
      refine and_congr_right fun hend => ⟨fun hmin => ?_,fun hor => ?_⟩
      · omega
      · rcases hor with hz | hz
        · omega
        · by_cases hz' : z < 4294967296
          · omega
          · omega

theorem placeLoop_iff (hM : M < 4294967296) (hcur : prev < M → cur = prev) :
    PlacedFrom M prev parts (placeLoop M cur parts) ↔ Sane M prev cur parts := by
  induction parts generalizing prev cur with
  | nil =>
    refine iff_of_true ⟨fun i part start size hp => ?_,fun _ he => absurd he not_mem_nil⟩ trivial
    exact absurd hp (by simp)
  | cons part parts ih =>
    rw [Sane]
    by_cases hlt : part.offset.written.getD prev < M
    · rw [if_pos hlt,← placeOffset_eq hM hcur hlt]
      by_cases ho : placeOffset cur part = part.offset.written.getD prev
      · rw [and_iff_right ho,← placeSize_eq hM hlt]
        by_cases hstop : M < u32 (placeOffset cur part + placeSize M (placeOffset cur part) part)
        · -- the entry is dropped, so it does not fit
          rw [placeLoop_of_exceeds hstop]
          refine iff_of_false (not_placedFrom_nil hlt) ?_
          rintro ⟨⟨hend,-⟩,-⟩
          rw [ho,u32_of_lt (hend.trans_lt hM)] at hstop
          omega
        · rw [placeLoop_of_le hstop,placedFrom_cons_of_lt hlt,ho]
          constructor
          · rintro ⟨he,hend,hrest⟩
            have hsize := congrArg Entry.size he
            rw [u32_of_lt (hend.trans_lt hM),hsize] at hrest
            grind
          · rintro ⟨⟨hend,hsize⟩,hrest⟩
            rw [u32_of_lt (hend.trans_lt hM),hsize]
            grind
      · refine iff_of_false (fun hp => ?_) fun h => ho h.1
        by_cases hstop : M < u32 (placeOffset cur part + placeSize M (placeOffset cur part) part)
        · rw [placeLoop_of_exceeds hstop] at hp
          exact not_placedFrom_nil hlt hp
        · rw [placeLoop_of_le hstop,placedFrom_cons_of_lt hlt] at hp
          exact ho (congrArg Entry.offset hp.1)
    · rw [if_neg hlt]
      have hge := not_lt.mp hlt
      have hcur' : ∀ n, part.offset.written.getD prev < M → n = part.offset.written.getD prev :=
        fun _ h => absurd h hlt
      by_cases hstop : M < u32 (placeOffset cur part + placeSize M (placeOffset cur part) part)
      · simp [if_pos hstop,placeLoop_of_exceeds hstop,placedFrom_nil,wanted_cons_of_ge hge]
      · rw [if_neg hstop,placeLoop_of_le hstop,placedFrom_cons_of_ge hge]
        refine and_congr_right fun hend => ?_
        rw [u32_of_lt (hend.trans_lt hM)]
        exact ih (hcur' _)

end

def listed (s mtdId : List Char) : Option MtdDef :=
  (mtdpartSetupReal s).bind fun partitions => partitions.find? fun part => part.mtdId = mtdId

/-- For an accepted string and a device in it, the table that is returned is as written just if the
one that was parsed is sane. -/
theorem cmdline_placed (s mtdId : List Char) (part : MtdDef) (h : listed s mtdId = some part) (M : ℕ)
    (hM : M < 4294967296) :
    (∃ table, (mtdpartSetupReal s).bind (parseCmdlinePartitions · M mtdId) = some table ∧
      PlacedFrom M 0 part.parts table) ↔ Sane M 0 0 part.parts := by
  obtain ⟨partitions,hs,hfind⟩ := Option.bind_eq_some_iff.mp h
  have htable : (mtdpartSetupReal s).bind (parseCmdlinePartitions · M mtdId) =
      some (placeLoop M 0 part.parts) := by
    rw [hs,Option.bind_some,parseCmdlinePartitions,hfind]
    rfl
  rw [htable,← placeLoop_iff hM fun _ => rfl]
  constructor
  · simp
  · simp

theorem cmdline_placed_boot : ∃ part, listed "a:64K(boot)ro,-".toList "a".toList = some part ∧
    ((∃ table, (mtdpartSetupReal "a:64K(boot)ro,-".toList).bind
        (parseCmdlinePartitions · 0x100000 "a".toList) = some table ∧
      PlacedFrom 0x100000 0 part.parts table) ↔ Sane 0x100000 0 0 part.parts) := by
  have hsome : (listed "a:64K(boot)ro,-".toList "a".toList).isSome = true := by decide +kernel
  obtain ⟨part,hpart⟩ := Option.isSome_iff_exists.mp hsome
  exact ⟨part,hpart,cmdline_placed _ _ _ hpart _ (by decide)⟩

/-- On a master of one megabyte: a partition of two is dropped, the offset 0 is taken for none, and
the rest behind the end has a size that wraps. -/
theorem cmdline_misplaced :
    ((mtdpartSetupReal "a:2M".toList).bind (parseCmdlinePartitions · 0x100000 "a".toList)).map
      (·.map fun e => (e.offset,e.size)) = some [] ∧
    ((mtdpartSetupReal "a:64K,64K@0".toList).bind
      (parseCmdlinePartitions · 0x100000 "a".toList)).map (·.map fun e => (e.offset,e.size)) =
        some [(0,65536),(65536,65536)] ∧
    ((mtdpartSetupReal "a:-@2M".toList).bind (parseCmdlinePartitions · 0x100000 "a".toList)).map
      (·.map fun e => (e.offset,e.size)) = some [(0x200000,0xfff00000)] := by
  decide +kernel

end Simpad.Mtd.Cmdline
