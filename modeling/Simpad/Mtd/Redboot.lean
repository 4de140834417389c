import Mathlib.Data.List.TakeWhile
import Simpad.Base.Memory
import Simpad.Base.Word

/-! RedBoot partition tables. Dereferencing the null list and writing outside of the block are faults of the
model. -/

namespace Simpad.Mtd.Redboot
open Word Memory List Function

abbrev Byte := BitVec 8

/-- The fields of `struct fis_image_desc` that are looked at. -/
structure Desc where
  name : List Byte
  flashBase : ℕ
  size : ℕ
  name_length : name.length = 16
  flashBase_lt : flashBase < 4294967296
  size_lt : size < 4294967296

/-- `PAGE_SIZE` bytes of descriptors of 256 bytes each. -/
structure Page where
  slots : List Desc
  slots_length : slots.length = 16

structure Master where
  size : ℕ
  erasesize : ℕ
  size_lt : size < 4294967296
  erasesize_lt : erasesize < 4294967296

/-- A linked image: its `flash_base` with the mask applied, and its name up to the NUL. -/
structure Image where
  base : ℕ
  size : ℕ
  name : List Byte
deriving DecidableEq

inductive Fault
  | null | outside | unterminated
deriving DecidableEq

namespace Desc

/-- `!memcmp(name, "RedBoot", 8)`. -/
def isRedBoot (d : Desc) : Bool := d.name.take 8 = [0x52,0x65,0x64,0x42,0x6f,0x6f,0x74,0]

def free (d : Desc) : Bool := d.name.head? = some 0xff

def text (d : Desc) : List Byte := d.name.takeWhile (· ≠ 0)

/-- `strlen(name)`; none if it runs out of the name. -/
def strlen (d : Desc) : Option ℕ := if 0 ∈ d.name then some d.text.length else none

def image (m : Master) (d : Desc) : Image := ⟨d.flashBase &&& (m.size - 1),d.size,d.text⟩

end Desc

/-- The walk along `prev` to the first image that is not below the new one. -/
def link (x : Image) (fl : List Image) : List Image :=
  fl.orderedInsert (fun a b => a.base ≤ b.base) x

structure Scan where
  fl : List Image
  namelen : ℕ
  nrparts : ℕ

def scan (m : Master) : List Desc → Scan → Except Fault Scan
  | [], s => .ok s
  | d :: l, s =>
    if d.free then .ok s
    else
      match d.strlen with
      | none => .error .unterminated
      | some n => scan m l ⟨link (d.image m) s.fl,s.namelen + (n + 1),s.nrparts + 1⟩

/-- `flash_base + size + erasesize < next->flash_base` in 32 bits. -/
def Master.gap (m : Master) (a b : Image) : Bool := u32 (a.base + a.size + m.erasesize) < b.base

/-- The test with `fl->next`. -/
def Master.gapNext (m : Master) (a : Image) (l : List Image) : Bool :=
  match l.head? with
  | some b => m.gap a b
  | none => false

def Master.countGaps (m : Master) : List Image → ℕ
  | [] => 0
  | a :: l => (if m.gapNext a l then 1 else 0) + m.countGaps l

/-- Where a name points: "unallocated space" or into the names of the block. -/
inductive NamePtr
  | null
  | unallocated
  | area (ofs : ℕ)

/-- `struct mtd_partition`. -/
structure Part where
  size : ℕ
  offset : ℕ
  name : NamePtr

/-- The block: `nrparts` entries and `namelen` bytes for names. -/
structure Block where
  nrparts : ℕ
  namelen : ℕ
  parts : ℕ → Part
  area : ℕ → Byte

namespace Block

def setPart (b : Block) (i : ℕ) (p : Part) : Except Fault Block :=
  if i < b.nrparts then .ok { b with parts := update b.parts i p } else .error .outside

/-- `strcpy` to the place `names`. -/
def strcpy (b : Block) (names : ℕ) (text : List Byte) : Except Fault Block :=
  if names + (text.length + 1) ≤ b.namelen then
    .ok { b with area := blit b.area names (text ++ [0]) }
  else .error .outside

/-- The entry for the space behind image `a`, with the index it leaves. -/
def addGap (m : Master) (b : Block) (a : Image) (l : List Image) (i : ℕ) :
    Except Fault (Block × ℕ) :=
  match l.head? with
  | some n =>
    if m.gap a n then
      let offset := u32 ((b.parts i).size + (b.parts i).offset)
      match b.setPart (i + 1) ⟨sub32 n.base offset,offset,.unallocated⟩ with
      | .ok b => .ok (b,i + 1)
      | .error e => .error e
    else .ok (b,i)
  | none => .ok (b,i)

end Block

/-- The body of the loop for image `a`. -/
def fillOne (m : Master) (a : Image) (l : List Image) (b : Block) (i names : ℕ) :
    Except Fault (Block × ℕ) := do
  let b ← b.setPart i ⟨a.size,a.base,.area names⟩
  let b ← b.strcpy names a.name
  b.addGap m a l i

def fill (m : Master) : List Image → Block → (i names : ℕ) → Except Fault Block
  | [], b, i, _ => if i < b.nrparts then .error .null else .ok b
  | a :: l, b, i, names =>
    if i < b.nrparts then do
      let r ← fillOne m a l b i names
      fill m l r.1 (r.2 + 1) (names + (a.name.length + 1))
    else .ok b

/-- The block after `memset` and with the entry for the space before the first image. -/
def Block.begin (first : Image) (nrparts namelen : ℕ) : Except Fault Block :=
  let b : Block := ⟨nrparts,namelen,fun _ => ⟨0,0,.null⟩,fun _ => 0⟩
  if first.base ≠ 0 then b.setPart 0 ⟨first.base,0,.unallocated⟩ else .ok b

def build (m : Master) (s : Scan) : Except Fault Block :=
  match s.fl with
  | [] => .error .null
  | first :: _ =>
    let nrparts := s.nrparts + (if first.base ≠ 0 then 1 else 0) + m.countGaps s.fl
    do
      let b ← Block.begin first nrparts s.namelen
      -- `i` is 0 also behind an entry for the space before the first image
      fill m s.fl b 0 0

/-- `parse_redboot_partitions`; none if there is no RedBoot image. -/
def parseRedbootPartitions (m : Master) (page : Page) : Except Fault (Option Block) :=
  if (page.slots.take 3).any Desc.isRedBoot then do
    let s ← scan m page.slots ⟨[],0,0⟩
    let b ← build m s
    .ok (some b)
  else .ok none

inductive Name
  | null
  | unallocated
  | text (l : List Byte)
deriving DecidableEq

structure Row where
  offset : ℕ
  size : ℕ
  name : Name
deriving DecidableEq

namespace Block

def readText (b : Block) (ofs : ℕ) : List Byte :=
  (slice b.area ofs (b.namelen - ofs)).takeWhile (· ≠ 0)

def readName (b : Block) : NamePtr → Name
  | .null => .null
  | .unallocated => .unallocated
  | .area ofs => .text (b.readText ofs)

def row (b : Block) (i : ℕ) : Row :=
  ⟨(b.parts i).offset,(b.parts i).size,b.readName (b.parts i).name⟩

def table (b : Block) : List Row := (range' 0 b.nrparts).map b.row

end Block

def Image.stop (a : Image) : ℕ := a.base + a.size

def Image.row (a : Image) : Row := ⟨a.base,a.size,.text a.name⟩

def hole (start stop : ℕ) : Row := ⟨start,stop - start,.unallocated⟩

/-- The images of a list, with an entry for each gap of more than `es` bytes. -/
def layout (es : ℕ) : List Image → List Row
  | [] => []
  | [a] => [a.row]
  | a :: b :: l =>
    a.row :: ((if a.stop + es < b.base then [hole a.stop b.base] else []) ++ layout es (b :: l))

def leading : List Image → List Row
  | [] => []
  | a :: _ => if a.base ≠ 0 then [hole 0 a.base] else []

/-- The slots up to the first free one. -/
def Page.used (page : Page) : List Desc := page.slots.takeWhile fun d => !d.free

def Page.images (m : Master) (page : Page) : List Image := page.used.map (Desc.image m)

/-- The table lists the images of the page by address. -/
def Lists (m : Master) (page : Page) (t : List Row) : Prop :=
  ∃ l : List Image, l.Perm (page.images m) ∧ l.Pairwise (fun a b => a.base ≤ b.base) ∧
    t = leading l ++ layout m.erasesize l

/-- The first `i` entries and `names` bytes are as they were. -/
structure Block.Keeps (b b' : Block) (i names : ℕ) : Prop where
  nrparts : b'.nrparts = b.nrparts
  namelen : b'.namelen = b.namelen
  parts : ∀ j < i, b'.parts j = b.parts j
  area : ∀ p < names, b'.area p = b.area p

section
variable {b b' b₁ b₂ : Block} {i names i' names' used used₁ used₂ : ℕ} {rows rows₁ rows₂ : List Row}

theorem Block.Keeps.refl (b : Block) (i names : ℕ) : b.Keeps b i names :=
  ⟨rfl,rfl,fun _ _ => rfl,fun _ _ => rfl⟩

theorem Block.Keeps.trans (h : b.Keeps b₁ i names) (h' : b₁.Keeps b₂ i' names') (hi : i ≤ i')
    (hn : names ≤ names') : b.Keeps b₂ i names where
  nrparts := h'.nrparts.trans h.nrparts
  namelen := h'.namelen.trans h.namelen
  parts j hj := (h'.parts j (by omega)).trans (h.parts j hj)
  area p hp := (h'.area p (by omega)).trans (h.area p hp)

/-- Entries `rows` from index `i` on, with `used` bytes of names; they stay whatever is added
behind them. -/
structure Block.Adds (b : Block) (i names : ℕ) (rows : List Row) (used : ℕ) (b' : Block) :
    Prop where
  keeps : b.Keeps b' i names
  rows : ∀ b₂, b'.Keeps b₂ (i + rows.length) (names + used) →
    (range' i rows.length).map b₂.row = rows

theorem Block.Adds.nil (b : Block) (i names : ℕ) : b.Adds i names [] 0 b :=
  ⟨.refl b i names,fun _ _ => rfl⟩

theorem Block.Adds.append (h₁ : b.Adds i names rows₁ used₁ b₁)
    (h₂ : b₁.Adds (i + rows₁.length) (names + used₁) rows₂ used₂ b₂) :
    b.Adds i names (rows₁ ++ rows₂) (used₁ + used₂) b₂ := by
  refine ⟨h₁.keeps.trans h₂.keeps (Nat.le_add_right _ _) (Nat.le_add_right _ _),?_⟩
  intro b₃ h₃
  rw [length_append,← add_assoc,← add_assoc] at h₃
  have hfirst := h₁.rows b₃ (h₂.keeps.trans h₃ (Nat.le_add_right _ _) (Nat.le_add_right _ _))
  have hsecond := h₂.rows b₃ h₃
  rw [length_append,← range'_append_1,map_append,hfirst,hsecond]

theorem Block.Adds.table_eq (h : b.Adds 0 names rows used b') (hn : rows.length = b.nrparts) :
    b'.table = rows := by
  rw [Block.table,h.keeps.nrparts,← hn]
  exact h.rows b' (.refl _ _ _)

theorem Block.readText_eq {text : List Byte} {ofs : ℕ} (hnul : 0 ∉ text)
    (hin : ofs + (text.length + 1) ≤ b.namelen)
    (harea : ∀ p < ofs + (text.length + 1), b.area p = blit b'.area ofs (text ++ [0]) p) :
    b.readText ofs = text := by
  have hlen : (text ++ [0]).length = text.length + 1 := length_append
  have hsplit : b.namelen - ofs = (text.length + 1) + (b.namelen - ofs - (text.length + 1)) := by
    omega
  have hslice : slice b.area ofs (text.length + 1) = text ++ [0] := by
    apply ext_getElem
    · rw [length_slice,hlen]
    · intro k hk hk'
      rw [getElem_slice,harea _ (by omega),blit_of_lt hk']
  have hall : ∀ c ∈ text, decide (c ≠ 0) = true := by
    intro c hc
    refine decide_eq_true ?_
    rintro rfl
    exact hnul hc
  rw [Block.readText,hsplit,slice_add,hslice,append_assoc,takeWhile_append_of_pos hall,
    singleton_append,takeWhile_cons_of_neg (by decide),append_nil]

end

/-- The entry the source makes for a gap. -/
def sourceHole (m : Master) (a : Image) (l : List Image) : List Row :=
  match l.head? with
  | some n =>
    if m.gap a n then
      [⟨u32 (a.size + a.base),sub32 n.base (u32 (a.size + a.base)),.unallocated⟩]
    else []
  | none => []

/-- The table with the gaps that the source finds. -/
def sourceLayout (m : Master) : List Image → List Row
  | [] => []
  | a :: l => (a.row :: sourceHole m a l) ++ sourceLayout m l

def nameBytes (l : List Image) : ℕ := (l.map fun a => a.name.length + 1).sum

theorem nameBytes_cons (a : Image) (l : List Image) :
    nameBytes (a :: l) = (a.name.length + 1) + nameBytes l := by
  rfl

section
variable {m : Master} {a : Image} {l fl : List Image} {b : Block} {i names : ℕ}

theorem length_sourceHole : (sourceHole m a l).length = if m.gapNext a l then 1 else 0 := by
  cases l with
  | nil => rfl
  | cons n l =>
    have hnext : m.gapNext a (n :: l) = m.gap a n := rfl
    rw [sourceHole,hnext]
    dsimp only [head?_cons]
    by_cases hg : m.gap a n
    · grind
    · grind

theorem length_sourceLayout : (sourceLayout m l).length = l.length + m.countGaps l := by
  induction l with
  | nil => rfl
  | cons a l ih =>
    rw [sourceLayout,length_append,ih,length_cons,length_sourceHole,Master.countGaps,
      length_cons]
    omega

theorem Block.adds_image (hn : names + (a.name.length + 1) ≤ b.namelen) (hnul : 0 ∉ a.name) :
    b.Adds i names [a.row] (a.name.length + 1)
      { b with
        parts := update b.parts i ⟨a.size,a.base,.area names⟩
        area := blit b.area names (a.name ++ [0]) } := by
  refine ⟨⟨rfl,rfl,fun j hj => ?_,fun p hp => ?_⟩,fun b₂ h₂ => ?_⟩
  · exact update_of_ne (Nat.ne_of_lt hj) _ _
  · exact blit_of_not_mem (.inl hp)
  · have hpart : b₂.parts i = ⟨a.size,a.base,.area names⟩ := by
      simp [h₂.parts i (Nat.lt_succ_self i)]
    have htext :=
      Block.readText_eq hnul (by rw [h₂.namelen]; exact hn) h₂.area
    show [b₂.row i] = [a.row]
    rw [Block.row,hpart,Block.readName,htext]
    rfl

theorem Block.addGap_adds (names : ℕ) (hi : i + (sourceHole m a l).length < b.nrparts)
    (hsize : (b.parts i).size = a.size) (hbase : (b.parts i).offset = a.base) :
    ∃ b', b.addGap m a l i = .ok (b',i + (sourceHole m a l).length) ∧
      b.Adds (i + 1) names (sourceHole m a l) 0 b' := by
  cases l with
  | nil => exact ⟨b,rfl,.nil b _ _⟩
  | cons n l =>
    rw [Block.addGap]
    rw [sourceHole] at hi ⊢
    dsimp only [head?_cons] at hi ⊢
    by_cases hg : m.gap a n
    · rw [if_pos hg] at hi ⊢
      have hi : i + 1 < b.nrparts := hi
      rw [if_pos hg,hsize,hbase,Block.setPart,if_pos hi]
      refine ⟨_,rfl,⟨rfl,rfl,fun j hj => ?_,fun _ _ => rfl⟩,fun b₂ h₂ => ?_⟩
      · exact update_of_ne (Nat.ne_of_lt hj) _ _
      · have hpart := h₂.parts (i + 1) (Nat.lt_succ_self _)
        simp [update_self,Block.row,hpart,Block.readName]
    · rw [if_neg hg,if_neg hg]
      exact ⟨b,rfl,.nil b _ _⟩

theorem fillOne_adds (hi : i + (sourceHole m a l).length < b.nrparts)
    (hn : names + (a.name.length + 1) ≤ b.namelen) (hnul : 0 ∉ a.name) :
    ∃ b', fillOne m a l b i names = .ok (b',i + (sourceHole m a l).length) ∧
      b.Adds i names (a.row :: sourceHole m a l) (a.name.length + 1) b' := by
  have himg := b.adds_image (i := i) hn hnul
  generalize hb₁ : Block.mk .. = b₁ at himg
  have hpart : b₁.parts i = ⟨a.size,a.base,.area names⟩ := by
    rw [← hb₁]
    exact update_self ..
  obtain ⟨b',hgap,hadds⟩ := b₁.addGap_adds (m := m) (a := a) (l := l) (i := i)
    (names + (a.name.length + 1)) (by rw [himg.keeps.nrparts]; exact hi) (by rw [hpart]) (by rw [hpart])
  refine ⟨b',?_,himg.append hadds⟩
  have hset : b.setPart i ⟨a.size,a.base,.area names⟩ = .ok
      { b with parts := update b.parts i ⟨a.size,a.base,.area names⟩ } :=
    if_pos (by omega)
  rw [fillOne,hset]
  show (Block.strcpy _ names a.name >>= fun b => b.addGap m a l i) = _
  rw [Block.strcpy,if_pos hn,← hgap,← hb₁]
  rfl

theorem fill_adds (hi : i + (sourceLayout m fl).length ≤ b.nrparts)
    (hn : names + nameBytes fl ≤ b.namelen) (hnul : ∀ a ∈ fl, 0 ∉ a.name) :
    ∃ b', b.Adds i names (sourceLayout m fl) (nameBytes fl) b' ∧ fill m fl b i names =
      if i + (sourceLayout m fl).length < b.nrparts then .error .null else .ok b' := by
  induction fl generalizing b i names with
  | nil => exact ⟨b,.nil b i names,rfl⟩
  | cons a l ih =>
    rw [sourceLayout,length_append,length_cons] at hi
    rw [nameBytes_cons] at hn
    obtain ⟨b₁,hone,hadds⟩ := fillOne_adds (m := m) (b := b) (i := i) (l := l) (by omega)
      (by omega : names + (a.name.length + 1) ≤ _) (hnul a mem_cons_self)
    have hnr := hadds.keeps.nrparts
    have hnl := hadds.keeps.namelen
    have hi₁ : i + (sourceHole m a l).length + 1 + (sourceLayout m l).length ≤ b₁.nrparts := by
      omega
    have hn₁ : names + (a.name.length + 1) + nameBytes l ≤ b₁.namelen := by omega
    obtain ⟨b₂,hadds₂,hrest⟩ := ih hi₁ hn₁ fun x hx => hnul x (mem_cons_of_mem _ hx)
    refine ⟨b₂,by exact hadds.append hadds₂,?_⟩
    rw [fill,if_pos (by omega),hone,sourceLayout,length_append,length_cons,← hnr]
    refine hrest.trans (if_congr ?_ rfl rfl)
    omega

end

/-- The images by address, of two at one address the later slot first. -/
def Page.inOrder (m : Master) (page : Page) : List Image :=
  (page.images m).reverse.insertionSort fun a b => a.base ≤ b.base

variable {a : Image} {l : List Image}

section
variable {m : Master} {page : Page}

theorem scan_eq {l : List Desc} {s : Scan}
    (hnul : ∀ d ∈ l.takeWhile fun d => !d.free, 0 ∈ d.name) :
    scan m l s = .ok
      ⟨((l.takeWhile fun d => !d.free).map (Desc.image m)).foldl (fun fl x => link x fl) s.fl,
        s.namelen + nameBytes ((l.takeWhile fun d => !d.free).map (Desc.image m)),
        s.nrparts + ((l.takeWhile fun d => !d.free).map (Desc.image m)).length⟩ := by
  induction l generalizing s with
  | nil => rfl
  | cons d l ih =>
    by_cases hf : d.free
    · have htake : ((d :: l).takeWhile fun d => !d.free) = [] := by
        rw [takeWhile_cons,hf]
        rfl
      rw [htake,scan,if_pos hf]
      rfl
    · have htake : ((d :: l).takeWhile fun d => !d.free) = d :: l.takeWhile fun d => !d.free := by
        rw [takeWhile_cons,Bool.eq_false_of_not_eq_true hf]
        rfl
      rw [htake] at hnul ⊢
      have hlen : d.strlen = some (d.image m).name.length := if_pos (hnul d mem_cons_self)
      rw [scan,if_neg hf,hlen]
      dsimp only
      rw [ih fun x hx => hnul x (mem_cons_of_mem _ hx),map_cons,foldl_cons,
        nameBytes_cons,length_cons]
      grind

theorem Page.perm_inOrder (m : Master) (page : Page) : (page.inOrder m).Perm (page.images m) :=
  (perm_insertionSort _ _).trans (reverse_perm _)

theorem Page.pairwise_inOrder (m : Master) (page : Page) :
    (page.inOrder m).Pairwise fun a b => a.base ≤ b.base := by
  exact pairwise_insertionSort _ _

theorem scan_page (hnul : ∀ d ∈ page.used, 0 ∈ d.name) :
    scan m page.slots ⟨[],0,0⟩ =
      .ok ⟨page.inOrder m,nameBytes (page.inOrder m),(page.inOrder m).length⟩ := by
  have hp := page.perm_inOrder m
  have hfold : (page.images m).foldl (fun fl x => link x fl) [] = page.inOrder m := by
    rw [Page.inOrder,insertionSort,foldr_reverse]
    rfl
  have hbytes : nameBytes (page.inOrder m) = nameBytes (page.images m) :=
    (hp.map fun a : Image => a.name.length + 1).sum_nat
  rw [scan_eq hnul,hbytes,hp.length_eq,← hfold,zero_add,zero_add]
  rfl

theorem name_inOrder (m : Master) (page : Page) : ∀ a ∈ page.inOrder m, 0 ∉ a.name := by
  intro a ha
  obtain ⟨d,-,rfl⟩ := mem_map.mp ((page.perm_inOrder m).mem_iff.mp ha)
  intro h
  have hne := mem_takeWhile_imp h
  grind

theorem build_table (ha : a.base = 0) (hnul : ∀ x ∈ a :: l, 0 ∉ x.name) :
    ∃ b, build m ⟨a :: l,nameBytes (a :: l),(a :: l).length⟩ = .ok b ∧
      b.table = sourceLayout m (a :: l) := by
  have hlen := length_sourceLayout (m := m) (l := a :: l)
  rw [build]
  dsimp only
  rw [if_neg (not_not_intro ha),add_zero,Block.begin,if_neg (not_not_intro ha)]
  obtain ⟨b,hadds,hb⟩ := fill_adds (m := m) (i := 0)
    (b := ⟨(a :: l).length + m.countGaps (a :: l),nameBytes (a :: l),fun _ => ⟨0,0,.null⟩,
      fun _ => 0⟩) (by rw [hlen,zero_add]) (Nat.le_of_eq (zero_add _)) hnul
  exact ⟨b,hb.trans (if_neg (by dsimp only; omega)),hadds.table_eq hlen⟩

theorem build_null (ha : a.base ≠ 0) (hnul : ∀ x ∈ a :: l, 0 ∉ x.name) :
    build m ⟨a :: l,nameBytes (a :: l),(a :: l).length⟩ = .error .null := by
  have hlen := length_sourceLayout (m := m) (l := a :: l)
  have hpos : 0 < (a :: l).length + 1 + m.countGaps (a :: l) := by omega
  rw [build]
  dsimp only
  rw [if_pos ha,Block.begin,if_pos ha,Block.setPart,if_pos hpos]
  obtain ⟨b,-,hb⟩ := fill_adds (m := m) (i := 0) (b := ⟨(a :: l).length + 1 + m.countGaps (a :: l),
    nameBytes (a :: l),_,_⟩) (by dsimp only; omega) (Nat.le_of_eq (zero_add _)) hnul
  exact hb.trans (if_pos (by dsimp only; omega))

theorem parse_eq (hred : (page.slots.take 3).any Desc.isRedBoot)
    (hnul : ∀ d ∈ page.used, 0 ∈ d.name) :
    parseRedbootPartitions m page =
      (build m ⟨page.inOrder m,nameBytes (page.inOrder m),(page.inOrder m).length⟩).map some := by
  rw [parseRedbootPartitions,if_pos hred,scan_page hnul]
  rfl

theorem base_eq_zero (h : (a :: l).Pairwise fun a b => a.base ≤ b.base)
    (hz : ∃ x ∈ a :: l, x.base = 0) : a.base = 0 := by
  obtain ⟨x,hx,hz⟩ := hz
  obtain rfl | hx := mem_cons.mp hx
  · exact hz
  · have := (pairwise_cons.mp h).1 x hx
    omega

theorem parse_ok_iff (hred : (page.slots.take 3).any Desc.isRedBoot)
    (hnul : ∀ d ∈ page.used, 0 ∈ d.name) {t : List Row} :
    (∃ b, parseRedbootPartitions m page = .ok (some b) ∧ b.table = t) ↔
      (∃ a ∈ page.images m, a.base = 0) ∧ t = sourceLayout m (page.inOrder m) := by
  have hp := page.perm_inOrder m
  have hs := page.pairwise_inOrder m
  have hn := name_inOrder m page
  have hz : (∃ a ∈ page.images m, a.base = 0) ↔ ∃ a ∈ page.inOrder m, a.base = 0 := by
    simp only [hp.mem_iff]
  rw [parse_eq hred hnul,hz]
  generalize page.inOrder m = l at hs hn
  cases l with
  | nil =>
    constructor
    · rintro ⟨b,hb,-⟩
      cases hb
    · simp
  | cons a l =>
    by_cases ha : a.base = 0
    · obtain ⟨b,hb,ht⟩ := build_table (m := m) ha hn
      rw [hb]
      constructor
      · rintro ⟨b',hb',rfl⟩
        cases hb'
        grind
      · rintro ⟨-,rfl⟩
        exact ⟨b,rfl,ht⟩
    · rw [build_null ha hn]
      constructor
      · rintro ⟨b,hb,-⟩
        cases hb
      · rintro ⟨hz,-⟩
        exact absurd (base_eq_zero hs hz) ha

/-- The sum in the test for a gap does not overflow, or the test fails all the same. -/
def Master.NoWrap (m : Master) (a b : Image) : Prop :=
  a.stop + m.erasesize < 4294967296 ∨ b.base ≤ u32 (a.stop + m.erasesize)

instance (m : Master) (a b : Image) : Decidable (m.NoWrap a b) :=
  inferInstanceAs (Decidable (_ ∨ _))

section
variable {a b : Image} {l : List Image}

theorem gap_iff (hb : b.base < 4294967296) :
    m.gap a b = true ↔ a.stop + m.erasesize < b.base ∨ ¬m.NoWrap a b := by
  have hg : m.gap a b = true ↔ u32 (a.stop + m.erasesize) < b.base := decide_eq_true_iff
  rw [hg,Master.NoWrap]
  by_cases hlt : a.stop + m.erasesize < 4294967296
  · rw [u32_of_lt hlt]
    omega
  · omega

theorem sourceHole_eq (hstop : a.stop < 4294967296) (hb : b.base < 4294967296)
    (h : m.NoWrap a b) :
    sourceHole m a (b :: l) =
      if a.stop + m.erasesize < b.base then [hole a.stop b.base] else [] := by
  have hsum : u32 (a.size + a.base) = a.stop := by
    rw [add_comm]
    exact u32_of_lt hstop
  rw [sourceHole]
  dsimp only [head?_cons]
  by_cases hg : a.stop + m.erasesize < b.base
  · rw [if_pos hg,if_pos ((gap_iff hb).mpr (.inl hg)),hsum,sub32_of_le (by omega) hb,hole]
  · rw [if_neg hg,if_neg]
    rw [gap_iff hb]
    exact not_or_intro hg (not_not_intro h)

theorem layout_cons (es : ℕ) (a : Image) (l : List Image) :
    ∃ rest, layout es (a :: l) = a.row :: rest := by
  cases l with
  | nil => exact ⟨[],rfl⟩
  | cons b l => exact ⟨_,rfl⟩

theorem sourceLayout_eq_iff (hin : ∀ x ∈ l, x.stop < 4294967296) :
    sourceLayout m l = layout m.erasesize l ↔ l.IsChain m.NoWrap := by
  induction l with
  | nil => exact iff_of_true rfl .nil
  | cons a l ih =>
    cases l with
    | nil => exact iff_of_true rfl (.singleton a)
    | cons b l =>
      have ih := ih fun x hx => hin x (mem_cons_of_mem _ hx)
      have ha := hin a mem_cons_self
      have hb : b.base < 4294967296 := by
        have := hin b (mem_cons_of_mem _ mem_cons_self)
        unfold Image.stop at this
        omega
      rw [isChain_cons_cons,sourceLayout,layout,cons_append,cons_inj_right]
      by_cases hw : m.NoWrap a b
      · rw [sourceHole_eq ha hb hw,append_cancel_left_eq,ih]
        grind
      · -- the source finds a gap where none is: next in the right table is an image
        refine iff_of_false ?_ fun h => hw h.1
        have hng : ¬a.stop + m.erasesize < b.base := by
          unfold Master.NoWrap at hw
          omega
        have hg := (gap_iff hb).mpr (.inr hw)
        obtain ⟨rest,hrest⟩ := layout_cons m.erasesize b l
        rw [sourceHole]
        dsimp only [head?_cons]
        rw [if_pos hg,if_neg hng,nil_append,hrest]
        intro h
        have hname := congrArg Row.name (cons.inj h).1
        cases hname

def Row.isImage (r : Row) : Bool := r.name ≠ .unallocated

theorem filter_leading (l : List Image) : (leading l).filter Row.isImage = [] := by
  cases l with
  | nil => rfl
  | cons a l =>
    rw [leading]
    split <;> rfl

theorem filter_layout (es : ℕ) (l : List Image) :
    (layout es l).filter Row.isImage = l.map Image.row := by
  induction l with
  | nil => rfl
  | cons a l ih =>
    cases l with
    | nil => rfl
    | cons b l =>
      have hgap : (if a.stop + es < b.base then [hole a.stop b.base] else []).filter
          Row.isImage = [] := by
        split <;> rfl
      have ha : a.row.isImage = true := rfl
      rw [layout,filter_cons_of_pos ha,filter_append,hgap,nil_append,ih]
      rfl

theorem filter_sourceLayout (m : Master) (l : List Image) :
    (sourceLayout m l).filter Row.isImage = l.map Image.row := by
  induction l with
  | nil => rfl
  | cons a l ih =>
    have hgap : (sourceHole m a l).filter Row.isImage = [] := by
      rw [sourceHole]
      split
      · split <;> rfl
      · rfl
    have ha : a.row.isImage = true := rfl
    rw [sourceLayout,cons_append,filter_cons_of_pos ha,filter_append,hgap,
      nil_append,ih]
    rfl

theorem row_injective : Function.Injective Image.row := by
  rintro ⟨base,size,name⟩ ⟨base',size',name'⟩ h
  cases h
  rfl

end

/-- No null pointer is dereferenced, nothing written outside of the block and the table right just
if an image is at 0 and no test for a gap overflows. -/
theorem redboot_table_iff (hred : (page.slots.take 3).any Desc.isRedBoot)
    (hnul : ∀ d ∈ page.used, 0 ∈ d.name) (hin : ∀ a ∈ page.images m, a.stop ≤ m.size) :
    (∃ b, parseRedbootPartitions m page = .ok (some b) ∧ Lists m page b.table) ↔
      (∃ a ∈ page.images m, a.base = 0) ∧ (page.inOrder m).IsChain m.NoWrap := by
  have hp := page.perm_inOrder m
  have hs := page.pairwise_inOrder m
  have hlt : ∀ a ∈ page.inOrder m, a.stop < 4294967296 := fun a ha =>
    lt_of_le_of_lt (hin a (hp.mem_iff.mp ha)) m.size_lt
  have hlead : (∃ a ∈ page.images m, a.base = 0) → leading (page.inOrder m) = [] := by
    rintro ⟨a,ha,hz⟩
    have hmem := hp.mem_iff.mpr ha
    generalize page.inOrder m = l at hs hmem
    cases l with
    | nil => rfl
    | cons x l =>
      have hx := base_eq_zero hs ⟨a,hmem,hz⟩
      rw [leading,if_neg (not_not_intro hx)]
  constructor
  · rintro ⟨b,hb,l,hperm,hsorted,htable⟩
    obtain ⟨hz,ht⟩ := (parse_ok_iff hred hnul).mp ⟨b,hb,htable⟩
    -- the images of a table are those of its list
    have hrows : l.map Image.row = (page.inOrder m).map Image.row := by
      rw [← filter_layout m.erasesize,← filter_sourceLayout m,← ht,filter_append,
        filter_leading,nil_append]
    have hl := map_injective_iff.mpr row_injective hrows
    rw [hl,hlead hz,nil_append] at ht
    exact ⟨hz,(sourceLayout_eq_iff hlt).mp ht.symm⟩
  · rintro ⟨hz,hchain⟩
    obtain ⟨b,hb,ht⟩ := (parse_ok_iff hred hnul).mpr ⟨hz,rfl⟩
    refine ⟨b,hb,page.inOrder m,hp,hs,?_⟩
    rw [ht,hlead hz,nil_append]
    exact (sourceLayout_eq_iff hlt).mpr hchain

end

theorem flash_lt : 0x400000 < 4294967296 := by decide

theorem block_lt : 0x20000 < 4294967296 := by decide

def smallFlash : Master := ⟨0x400000,0x20000,flash_lt,block_lt⟩

/-- RedBoot, 128k at `base`. -/
def bootDesc (base : ℕ) (h : base < 4294967296) : Desc :=
  ⟨[0x52,0x65,0x64,0x42,0x6f,0x6f,0x74,0,0,0,0,0,0,0,0,0],base,0x20000,rfl,h,block_lt⟩

def kernelDesc : Desc :=
  ⟨[0x6b,0x65,0x72,0x6e,0x65,0x6c,0,0,0,0,0,0,0,0,0,0],0x100000,0x80000,rfl,by decide,by decide⟩

def freeDesc : Desc :=
  ⟨replicate 16 0xff,0xffffffff,0xffffffff,rfl,by decide,by decide⟩

theorem redboot_table_two_images :
    ∃ b, parseRedbootPartitions smallFlash
        ⟨bootDesc 0 (by decide) :: kernelDesc :: replicate 14 freeDesc,rfl⟩ = .ok (some b) ∧
      Lists smallFlash
        ⟨bootDesc 0 (by decide) :: kernelDesc :: replicate 14 freeDesc,rfl⟩ b.table :=
  (redboot_table_iff (by decide) (by decide) (by decide)).mpr ⟨by decide,by decide⟩

/-- RedBoot in the second block, and RedBoot at 0 behind a slot that is free. -/
theorem redboot_null :
    parseRedbootPartitions smallFlash
      ⟨bootDesc 0x20000 (by decide) :: replicate 15 freeDesc,rfl⟩ = .error .null ∧
    parseRedbootPartitions smallFlash
      ⟨freeDesc :: bootDesc 0 (by decide) :: replicate 14 freeDesc,rfl⟩ = .error .null :=
  ⟨rfl,rfl⟩

end Simpad.Mtd.Redboot
