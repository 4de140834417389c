import Simpad.Base.Segments
import Simpad.Base.Word

namespace Simpad.Mtd
open Segments Word List

structure Region where
  offset : ℕ
  erasesize : ℕ
  numblocks : ℕ
deriving DecidableEq

def Region.stop (r : Region) : ℕ := r.offset + r.erasesize * r.numblocks

structure Flash where
  size : ℕ
  chipshift : ℕ
  numchips : ℕ
  regions : List Region
deriving DecidableEq

/-- Size and number of the blocks of an `EraseRegionInfo`. -/
def regionInfo (interleave : ℕ) (info : BitVec 32) : ℕ × ℕ :=
  (u32 (((info >>> 8) &&& ~~~0xff).toNat * interleave),(info &&& 0xffff).toNat + 1)

/-- The regions of the chip at `base`. -/
def chipRegions (base : ℕ) : (offset : ℕ) → List (ℕ × ℕ) → List Region
  | _, [] => []
  | offset, (ersize,ernum) :: l =>
    ⟨u32 (base + offset),ersize,ernum⟩ :: chipRegions base (u32 (offset + ersize * ernum)) l

/-- `offset` behind the last region. -/
def regionsSum : (offset : ℕ) → List (ℕ × ℕ) → ℕ
  | offset, [] => offset
  | offset, (ersize,ernum) :: l => regionsSum (u32 (offset + ersize * ernum)) l

/-- `cfi_intelext_setup`; none if the regions do not make up the chip. -/
def cfiIntelextSetup (devSize interleave numchips chipshift : ℕ) (infos : List (BitVec 32)) :
    Option Flash :=
  let devsize := u32 (2 ^ devSize * interleave)
  let l := infos.map (regionInfo interleave)
  if regionsSum 0 l ≠ devsize then none
  else some
    { size := u32 (devsize * numchips)
      chipshift
      numchips
      -- `eraseregions[j*NumEraseRegions+i]` is region `i` of chip `j`
      regions := (range numchips).flatMap fun j => chipRegions (u32 (j * devsize)) 0 l }

/-- The result and the calls, each with chip and address. -/
abbrev Calls := ℤ × List (ℕ × ℕ)

def Calls.cons (b : ℕ × ℕ) (c : Calls) : Calls := (c.1,b :: c.2)

namespace Flash

/-- `1 << chipshift`. -/
def chipsize (f : Flash) : ℕ := 2 ^ f.chipshift

/-- `regions[i]`. -/
def region (f : Flash) (i : ℕ) : Region := f.regions.getD i ⟨0,0,0⟩

/-- The loop that goes from `i` to the first region behind `x`. -/
def skip (f : Flash) (i x : ℕ) : ℕ :=
  i + ((f.regions.drop i).takeWhile fun r => r.offset ≤ x).length

/-- The main loop of `cfi_intelext_varsize_frob`; `none` when `fuel` is used up.
`ret n` is what the `n`-th call from here on returns. -/
def frobLoop (f : Flash) : (fuel : ℕ) → (ret : ℕ → ℤ) → (i chipnum adr len : ℕ) → Option Calls
  | 0, _, _, _, _, _ => none
  | fuel + 1, ret, i, chipnum, adr, len =>
    if len = 0 then some (0,[])
    else if ret 0 ≠ 0 then some (ret 0,[(chipnum,adr)])
    else
      let r := f.region i
      let adr' := adr + r.erasesize
      let len' := sub32 len r.erasesize
      let i' := if adr' % f.chipsize = r.stop % f.chipsize then i + 1 else i
      if adr' / f.chipsize ≠ 0 then
        if f.numchips ≤ chipnum + 1 then some (0,[(chipnum,adr)])
        else (frobLoop f fuel (fun n => ret (n + 1)) i' (chipnum + 1) 0 len').map
          (Calls.cons (chipnum,adr))
      else (frobLoop f fuel (fun n => ret (n + 1)) i' chipnum adr' len').map
        (Calls.cons (chipnum,adr))

def einval : ℤ := -22

def varsizeFrob (f : Flash) (ret : ℕ → ℤ) (ofs len : ℕ) : Option Calls :=
  if f.size < ofs then some (einval,[])
  else if f.size < len + ofs then some (einval,[])
  else
    let first := f.skip 0 ofs - 1
    if ofs &&& ((f.region first).erasesize - 1) ≠ 0 then some (einval,[])
    else
      let last := f.skip first (ofs + len) - 1
      if (ofs + len) &&& ((f.region last).erasesize - 1) ≠ 0 then some (einval,[])
      else
        let chipnum := ofs / f.chipsize
        f.frobLoop (len + 1) ret first chipnum (ofs - chipnum * f.chipsize) len

end Flash

abbrev Block := Segment Unit

def Region.block (r : Region) (k : ℕ) : Block := ⟨r.offset + k * r.erasesize,r.erasesize,()⟩

def Region.blocks (r : Region) : List Block := (range' 0 r.numblocks).map r.block

namespace Flash

def blocks (f : Flash) : List Block := f.regions.flatMap Region.blocks

/-- A block starts at `x`, or the device ends there. -/
def Boundary (f : Flash) (x : ℕ) : Prop := x = f.size ∨ ∃ b ∈ f.blocks, b.ofs = x

instance (f : Flash) (x : ℕ) : Decidable (f.Boundary x) :=
  inferInstanceAs (Decidable (x = f.size ∨ ∃ b ∈ f.blocks, b.ofs = x))

/-- The blocks inside `[ofs,ofs+len)`, in order. -/
def inside (f : Flash) (ofs len : ℕ) : List Block :=
  f.blocks.filter fun b => ofs ≤ b.ofs ∧ b.stop ≤ ofs + len

def place (f : Flash) (b : Block) : ℕ × ℕ := (b.ofs / f.chipsize,b.ofs % f.chipsize)

/-- The calls up to the first that does not return 0. -/
def upTo : (ret : ℕ → ℤ) → List (ℕ × ℕ) → Calls
  | _, [] => (0,[])
  | ret, b :: l => if ret 0 ≠ 0 then (ret 0,[b]) else Calls.cons b (upTo (fun n => ret (n + 1)) l)

end Flash

def Region.segment (r : Region) : Segment Unit := ⟨r.offset,r.erasesize * r.numblocks,()⟩

@[simp] theorem Region.stop_segment (r : Region) : r.segment.stop = r.stop := rfl

@[simp] theorem Region.ofs_segment (r : Region) : r.segment.ofs = r.offset := rfl

namespace Flash

/-- The regions follow each other, none reaches over the end of a chip. -/
structure Regular (f : Flash) : Prop where
  size_eq : f.size = f.numchips * f.chipsize
  size_lt : f.size < 4294967296
  tiles : Tiles 0 (f.regions.map Region.segment) f.size
  pow : ∀ r ∈ f.regions, ∃ n, r.erasesize = 2 ^ n
  dvd : ∀ r ∈ f.regions, r.erasesize ∣ r.offset
  chip : ∀ r ∈ f.regions, ∃ c, c * f.chipsize ≤ r.offset ∧ r.stop ≤ (c + 1) * f.chipsize

variable {f : Flash} {r : Region} {rs₁ rs₂ : List Region} {k x : ℕ}

theorem Regular.erasesize_pos (hf : f.Regular) (hr : r ∈ f.regions) : 0 < r.erasesize := by
  obtain ⟨n,hn⟩ := hf.pow r hr
  grind

theorem chipsize_pos (f : Flash) : 0 < f.chipsize := Nat.two_pow_pos _

end Flash

theorem Region.tiles_range (r : Region) (hr : 0 < r.erasesize) (k n : ℕ) :
    Tiles (r.offset + k * r.erasesize) ((range' k n).map r.block)
      (r.offset + (k + n) * r.erasesize) := by
  induction n generalizing k with
  | zero => exact rfl
  | succ n ih =>
    refine ⟨rfl,hr,?_⟩
    have hs : (r.block k).stop = r.offset + (k + 1) * r.erasesize := by
      rw [Region.block,stop_mk,add_assoc,← Nat.succ_mul]
    have he : k + (n + 1) = k + 1 + n := by omega
    grind

theorem Region.tiles_blocks (r : Region) (hr : 0 < r.erasesize) :
    Tiles r.offset r.blocks r.stop := by
  have h := r.tiles_range hr 0 r.numblocks
  rwa [zero_mul,add_zero,zero_add,mul_comm] at h

theorem Region.blocks_cut (r : Region) {k : ℕ} (hk : k ≤ r.numblocks) :
    r.blocks = (range' 0 k).map r.block ++
      (range' k (r.numblocks - k)).map r.block := by
  have he : r.numblocks = k + (r.numblocks - k) := by omega
  rw [← map_append,Region.blocks]
  conv_lhs => rw [he]
  rw [← range'_append_1,zero_add]

variable {a y c adr o : ℕ}

theorem tiles_flatMap {b : ℕ} {l : List Region} (hl : ∀ r ∈ l, 0 < r.erasesize)
    (h : Tiles a (l.map Region.segment) b) : Tiles a (l.flatMap Region.blocks) b := by
  induction l generalizing a with
  | nil => exact h
  | cons r l ih =>
    have hr := r.tiles_blocks (hl r mem_cons_self)
    have ht := ih (fun s hs => hl s (mem_cons_of_mem _ hs)) h.2.2
    have ha := h.1
    rw [flatMap_cons,← ha]
    exact hr.append ht

theorem exists_region {b x : ℕ} {l : List Region} (hl : l ≠ [])
    (h : Tiles a (l.map Region.segment) b) (ha : a ≤ x) (hb : x ≤ b) :
    ∃ rs₁ r rs₂, l = rs₁ ++ r :: rs₂ ∧
      (l.takeWhile fun r => r.offset ≤ x).length = rs₁.length + 1 ∧ r.offset ≤ x ∧
      (x < r.stop ∨ x = r.stop ∧ rs₂ = []) := by
  induction l generalizing a with
  | nil => exact absurd rfl hl
  | cons r l ih =>
    have hr : r.offset ≤ x := by
      have : r.offset = a := h.1
      omega
    have htake : ((r :: l).takeWhile fun r => r.offset ≤ x) =
        r :: l.takeWhile fun r => r.offset ≤ x := takeWhile_cons_of_pos (decide_eq_true hr)
    rw [htake]
    by_cases hx : x < r.stop
    · -- the next region starts behind `x`
      have hnil : (l.takeWhile fun r => r.offset ≤ x) = [] := by
        cases l with
        | nil => rfl
        | cons t l =>
          have ht : t.offset = r.stop := h.2.2.1
          exact takeWhile_cons_of_neg (by rw [decide_eq_true_iff]; omega)
      exact ⟨[],r,l,rfl,by rw [hnil]; rfl,hr,.inl hx⟩
    · cases l with
      | nil =>
        have hb' : r.stop = b := h.2.2
        exact ⟨[],r,[],rfl,rfl,hr,.inr ⟨by omega,rfl⟩⟩
      | cons t l =>
        obtain ⟨rs₁,s,rs₂,hl,hlen,hs⟩ := ih (cons_ne_nil t l) h.2.2 (Nat.le_of_not_lt hx)
        grind

namespace Flash
variable {f : Flash} {r : Region} {rs₁ rs₂ : List Region} {k x : ℕ}

theorem region_eq (h : f.regions = rs₁ ++ r :: rs₂) : f.region rs₁.length = r := by
  rw [region,h,getD_eq_getElem?_getD,getElem?_append_right le_rfl,Nat.sub_self]
  rfl

theorem mem_regions (h : f.regions = rs₁ ++ r :: rs₂) : r ∈ f.regions := by
  grind

theorem Regular.around (hf : f.Regular) (h : f.regions = rs₁ ++ r :: rs₂) :
    Tiles 0 (rs₁.flatMap Region.blocks) r.offset ∧ Tiles r.stop (rs₂.flatMap Region.blocks) f.size ∧
      0 < r.numblocks ∧ Tiles r.stop (rs₂.map Region.segment) f.size := by
  have ht := hf.tiles
  rw [h,map_append,map_cons] at ht
  obtain ⟨m,h₁,hm,hpos,h₂⟩ := Tiles.append_iff.mp ht
  subst hm
  refine ⟨tiles_flatMap (fun s hs => hf.erasesize_pos ?_) h₁,
    tiles_flatMap (fun s hs => hf.erasesize_pos ?_) h₂,Nat.pos_of_mul_pos_left hpos,h₂⟩
  · grind
  · grind

/-- Where `x` lies: the region the search from its start finds. -/
structure Lies (f : Flash) (x : ℕ) (rs₁ : List Region) (r : Region) (rs₂ : List Region) : Prop where
  regions : f.regions = rs₁ ++ r :: rs₂
  skip : f.skip 0 x = rs₁.length + 1
  ge : r.offset ≤ x
  lt : x < r.stop ∨ x = r.stop ∧ rs₂ = []

theorem Regular.exists_lies (hf : f.Regular) (hn : 0 < f.numchips) (hx : x ≤ f.size) :
    ∃ rs₁ r rs₂, f.Lies x rs₁ r rs₂ := by
  have hne : f.regions ≠ [] := by
    intro h
    have ht := hf.tiles
    rw [h] at ht
    have hz : 0 = f.size := ht
    have := hf.size_eq
    have := Nat.mul_pos hn f.chipsize_pos
    omega
  obtain ⟨rs₁,r,rs₂,h,hlen,hge,hlt⟩ := exists_region hne hf.tiles (Nat.zero_le x) hx
  exact ⟨rs₁,r,rs₂,h,by rw [Flash.skip,drop_zero,hlen,zero_add],hge,hlt⟩

theorem Regular.stop_eq_size (hf : f.Regular) (h : f.regions = rs₁ ++ [r]) : r.stop = f.size :=
  (hf.around h).2.1

theorem Regular.skip_from (hf : f.Regular) (h : f.Lies x rs₁ r rs₂) (hy : x ≤ y) :
    f.skip rs₁.length y = f.skip 0 y := by
  have hall : ∀ s ∈ rs₁, decide (s.offset ≤ y) = true := by
    intro s hs
    have ht := hf.tiles
    rw [h.regions,map_append,map_cons] at ht
    obtain ⟨m,h₁,hm,-⟩ := Tiles.append_iff.mp ht
    have hm : r.offset = m := hm
    have hb := h₁.mem_bounds (mem_map_of_mem hs)
    have hle : s.segment.ofs ≤ s.segment.stop := Nat.le_add_right _ _
    have := h.ge
    apply decide_eq_true
    show s.segment.ofs ≤ y
    omega
  rw [Flash.skip,Flash.skip,h.regions,drop_left,drop_zero,
    takeWhile_append_of_pos hall,length_append,zero_add]

theorem Regular.exists_block (hf : f.Regular) (h : f.Lies x rs₁ r rs₂) (hx : r.erasesize ∣ x) :
    ∃ k, x = r.offset + k * r.erasesize ∧ (k < r.numblocks ∨ k = r.numblocks ∧ rs₂ = []) := by
  have hr := mem_regions h.regions
  obtain ⟨k,hk⟩ := (Nat.dvd_sub hx (hf.dvd r hr))
  have hx' : x = r.offset + k * r.erasesize := by
    have := h.ge
    grind
  refine ⟨k,hx',h.lt.imp ?_ ?_⟩
  · intro hlt
    rw [hx',Region.stop,mul_comm r.erasesize] at hlt
    exact Nat.lt_of_mul_lt_mul_right (Nat.lt_of_add_lt_add_left hlt)
  · rintro ⟨heq,hnil⟩
    rw [hx',Region.stop,mul_comm r.erasesize] at heq
    exact ⟨Nat.eq_of_mul_eq_mul_right (hf.erasesize_pos hr) (Nat.add_left_cancel heq),hnil⟩

theorem blocks_eq (h : f.regions = rs₁ ++ r :: rs₂) :
    f.blocks = rs₁.flatMap Region.blocks ++ (r.blocks ++ rs₂.flatMap Region.blocks) := by
  rw [blocks,h,flatMap_append,flatMap_cons]

theorem Regular.boundary_iff_dvd (hf : f.Regular) (h : f.Lies x rs₁ r rs₂) :
    f.Boundary x ↔ r.erasesize ∣ x := by
  obtain ⟨h₁,h₂,-,-⟩ := hf.around h.regions
  have hdvd := hf.dvd r (mem_regions h.regions)
  constructor
  · rintro (hx | ⟨b,hb,rfl⟩)
    · have hle := h₂.le
      obtain hlt | ⟨heq,-⟩ := h.lt
      · omega
      · rw [heq]
        exact Nat.dvd_add hdvd (Nat.dvd_mul_right _ _)
    · rw [blocks_eq h.regions,mem_append,mem_append] at hb
      obtain hb | hb | hb := hb
      · -- a block further left ends at or before the region's start
        obtain ⟨-,hpos,hle⟩ := h₁.mem_bounds hb
        have := h.ge
        unfold Segment.stop at hle
        omega
      · obtain ⟨k,-,rfl⟩ := mem_map.mp hb
        exact Nat.dvd_add hdvd (Nat.dvd_mul_left _ _)
      · obtain hlt | ⟨-,rfl⟩ := h.lt
        · have := (h₂.mem_bounds hb).1
          omega
        · cases hb
  · intro hx
    obtain ⟨k,hk,hlt | ⟨hlast,rfl⟩⟩ := hf.exists_block h hx
    · refine .inr ⟨r.block k,?_,hk.symm⟩
      rw [blocks_eq h.regions,mem_append,mem_append]
      refine .inr (.inl (mem_map_of_mem ?_))
      grind
    · left
      rw [← hf.stop_eq_size h.regions,hk,hlast,Region.stop,mul_comm]

theorem Regular.boundary_iff (hf : f.Regular) (h : f.Lies x rs₁ r rs₂) :
    f.Boundary x ↔ x &&& (r.erasesize - 1) = 0 := by
  obtain ⟨n,hn⟩ := hf.pow r (mem_regions h.regions)
  rw [hf.boundary_iff_dvd h,hn,Nat.and_two_pow_sub_one_eq_mod,← hn,Nat.dvd_iff_mod_eq_zero]

theorem frobLoop_zero (f : Flash) (fuel : ℕ) (ret : ℕ → ℤ) (i chipnum adr : ℕ) :
    f.frobLoop (fuel + 1) ret i chipnum adr 0 = some (0,[]) := rfl

/-- The in-chip address `adr` of chip `c` is the place `x`. -/
def At (f : Flash) (c adr x : ℕ) : Prop := x = c * f.chipsize + adr ∧ adr < f.chipsize

theorem At.place_eq {b : Block} (h : f.At c adr b.ofs) : f.place b = (c,adr) := by
  have hdiv : b.ofs / f.chipsize = c := by
    rw [h.1,mul_comm,Nat.mul_add_div f.chipsize_pos,Nat.div_eq_of_lt h.2,add_zero]
  have hmod : b.ofs % f.chipsize = adr := by
    rw [h.1,mul_comm,Nat.mul_add_mod,Nat.mod_eq_of_lt h.2]
  rw [place,hdiv,hmod]

theorem mod_eq_iff {d e : ℕ} (ha : 0 < a) (hae : a ≤ e) (hed : e ≤ d) :
    a % d = (c * d + e) % d ↔ a = e := by
  rw [mul_comm,Nat.mul_add_mod]
  constructor
  · intro h
    obtain hlt | rfl := Nat.lt_or_eq_of_le hed
    · rwa [Nat.mod_eq_of_lt hlt,Nat.mod_eq_of_lt (by omega)] at h
    · rw [Nat.mod_self] at h
      have := Nat.le_of_dvd ha (Nat.dvd_of_mod_eq_zero h)
      omega
  · rintro rfl
    rfl

section
variable {ret : ℕ → ℤ} {fuel i c adr len : ℕ}

theorem frobLoop_refused (hlen : len ≠ 0) (hret : ret 0 ≠ 0) :
    f.frobLoop (fuel + 1) ret i c adr len = some (ret 0,[(c,adr)]) := by
  rw [frobLoop,if_neg hlen,if_pos hret]

theorem frobLoop_last (hlen : len ≠ 0) (hret : ret 0 = 0)
    (hrest : sub32 len (f.region i).erasesize = 0) :
    f.frobLoop (fuel + 2) ret i c adr len = some (0,[(c,adr)]) := by
  rw [frobLoop,if_neg hlen,if_neg (not_not_intro hret)]
  dsimp only
  rw [hrest,frobLoop_zero,frobLoop_zero]
  split
  · split <;> rfl
  · rfl

theorem Regular.frobLoop_next (hf : f.Regular) (fuel : ℕ) (hreg : f.region i = r)
    (hlen : len ≠ 0) (hret : ret 0 = 0) (hat : f.At c adr x) (hle : adr + r.erasesize ≤ f.chipsize)
    (hlt : x + r.erasesize < f.size) :
    ∃ c' adr', f.At c' adr' (x + r.erasesize) ∧
      f.frobLoop (fuel + 1) ret i c adr len =
        (f.frobLoop fuel (fun n => ret (n + 1))
          (if (adr + r.erasesize) % f.chipsize = r.stop % f.chipsize
            then i + 1 else i) c' adr' (sub32 len r.erasesize)).map
          (Calls.cons (c,adr)) := by
  rw [frobLoop,if_neg hlen,if_neg (not_not_intro hret)]
  rw [hreg]
  obtain ⟨hx,-⟩ := hat
  obtain hin | heq := Nat.lt_or_eq_of_le hle
  · refine ⟨c,adr + r.erasesize,⟨by omega,hin⟩,?_⟩
    rw [if_neg (not_not_intro (Nat.div_eq_of_lt hin))]
  · -- the chip ends here, and it is not the last one
    have hnext : x + r.erasesize = (c + 1) * f.chipsize := by
      grind
    have hc : ¬f.numchips ≤ c + 1 := by
      rw [hnext,hf.size_eq] at hlt
      exact Nat.not_le_of_lt (Nat.lt_of_mul_lt_mul_right hlt)
    have hdiv : (adr + r.erasesize) / f.chipsize ≠ 0 := by
      simp [heq,Nat.div_self f.chipsize_pos]
    refine ⟨c + 1,0,⟨hnext,f.chipsize_pos⟩,?_⟩
    rw [if_pos hdiv,if_neg hc]

end

theorem Regular.on_chip (hf : f.Regular) (hr : r ∈ f.regions) (hat : f.At c adr x)
    (hge : r.offset ≤ x) (hlt : x < r.stop) :
    ∃ e, r.stop = c * f.chipsize + e ∧ adr < e ∧ e ≤ f.chipsize := by
  obtain ⟨hx,hadr⟩ := hat
  obtain ⟨c',h₁,h₂⟩ := hf.chip r hr
  have hc : c' = c := by
    have hle : c' * f.chipsize < (c + 1) * f.chipsize := by
      grind
    have hge : c * f.chipsize < (c' + 1) * f.chipsize := by omega
    have := Nat.lt_of_mul_lt_mul_right hle
    have := Nat.lt_of_mul_lt_mul_right hge
    omega
  subst hc
  rw [Nat.succ_mul] at h₂
  exact ⟨r.stop - c' * f.chipsize,by omega,by omega,by omega⟩

/-- The blocks from block `k` of a region on. -/
def rest (r : Region) (k : ℕ) (rs₂ : List Region) : List Block :=
  (range' k (r.numblocks - k)).map r.block ++ rs₂.flatMap Region.blocks

theorem rest_of_lt (hk : k < r.numblocks) : rest r k rs₂ = r.block k :: rest r (k + 1) rs₂ := by
  have hcount : r.numblocks - k = r.numblocks - (k + 1) + 1 := by omega
  rw [rest,hcount,range'_succ]
  rfl

/-- Behind a block that is not the last one stands block `k+1` of the region or the first block of
the next region. -/
theorem Regular.next (hf : f.Regular) (h : f.regions = rs₁ ++ r :: rs₂) (hk : k < r.numblocks)
    (hne : rest r (k + 1) rs₂ ≠ []) :
    ∃ rs₁' r' rs₂' k', f.regions = rs₁' ++ r' :: rs₂' ∧ k' < r'.numblocks ∧
      r'.offset + k' * r'.erasesize = r.offset + k * r.erasesize + r.erasesize ∧
      rs₁'.length = (if k + 1 = r.numblocks then rs₁.length + 1 else rs₁.length) ∧
      rest r' k' rs₂' = rest r (k + 1) rs₂ := by
  have hx : r.offset + (k + 1) * r.erasesize = r.offset + k * r.erasesize + r.erasesize := by
    rw [Nat.succ_mul,add_assoc]
  by_cases hlast : k + 1 = r.numblocks
  · have hrest : rest r (k + 1) rs₂ = rs₂.flatMap Region.blocks := by
      rw [rest,hlast,Nat.sub_self]
      rfl
    rw [hrest] at hne
    have hne' : rs₂ ≠ [] := by
      rintro rfl
      exact hne rfl
    obtain ⟨r',rs₂',rfl⟩ := exists_cons_of_ne_nil hne'
    have h' : f.regions = (rs₁ ++ [r]) ++ r' :: rs₂' := by rw [h,append_assoc]; rfl
    have hofs : r'.offset = r.stop := (hf.around h).2.2.2.1
    refine ⟨rs₁ ++ [r],r',rs₂',0,h',(hf.around h').2.2.1,?_,?_,?_⟩
    · rw [hofs,zero_mul,add_zero,Region.stop,← hlast,← hx,mul_comm]
    · grind
    · rw [hrest]
      rfl
  · exact ⟨rs₁,r,rs₂,k + 1,h,by omega,hx,(if_neg hlast).symm,rfl⟩

theorem Regular.end_test (hf : f.Regular) (hr : r ∈ f.regions) (hk : k < r.numblocks)
    (hat : f.At c adr (r.offset + k * r.erasesize)) :
    adr + r.erasesize ≤ f.chipsize ∧
      ((adr + r.erasesize) % f.chipsize = r.stop % f.chipsize ↔ k + 1 = r.numblocks) := by
  have hpos := hf.erasesize_pos hr
  have hle : (k + 1) * r.erasesize ≤ r.numblocks * r.erasesize := Nat.mul_le_mul_right _ hk
  have hstop : r.stop = r.offset + r.numblocks * r.erasesize := by
    rw [Region.stop,mul_comm]
  rw [Nat.succ_mul] at hle
  obtain ⟨e,he,hlt,hed⟩ := hf.on_chip hr hat (Nat.le_add_right _ _) (by omega)
  have hx := hat.1
  refine ⟨by omega,?_⟩
  rw [he,mod_eq_iff (by omega) (by omega) hed]
  constructor
  · intro heq
    refine Nat.eq_of_mul_eq_mul_right hpos ?_
    rw [Nat.succ_mul]
    omega
  · intro heq
    rw [← heq,Nat.succ_mul] at hstop
    omega

/-- From block `k` of a region on, the loop visits the blocks up to `e`: induction on them, with
the region they are taken from. -/
theorem Regular.frobLoop_eq (hf : f.Regular) {mid post : List Block} {ret : ℕ → ℤ} {fuel e : ℕ}
    (h : f.regions = rs₁ ++ r :: rs₂) (hk : k < r.numblocks ∨ mid = [])
    (hrest : rest r k rs₂ = mid ++ post) (ht : Tiles (r.offset + k * r.erasesize) mid e)
    (he : e ≤ f.size) (hat : f.At c adr (r.offset + k * r.erasesize)) (hfuel : mid.length < fuel) :
    f.frobLoop fuel ret rs₁.length c adr (e - (r.offset + k * r.erasesize)) =
      some (upTo ret (mid.map f.place)) := by
  induction mid generalizing rs₁ r rs₂ k ret fuel c adr with
  | nil =>
    obtain ⟨fuel,rfl⟩ : ∃ m, fuel = m + 1 := ⟨fuel - 1,by omega⟩
    have he : _ = e := ht
    rw [← he,Nat.sub_self]
    exact frobLoop_zero ..
  | cons b mid ih =>
    have hkn : k < r.numblocks := hk.resolve_right (cons_ne_nil _ _)
    have hr := mem_regions h
    have hreg := region_eq h
    have hpos := hf.erasesize_pos hr
    have hsize := hf.size_lt
    rw [rest_of_lt hkn,cons_append] at hrest
    obtain ⟨rfl,hmore⟩ := cons.inj hrest
    have htail : Tiles (r.offset + k * r.erasesize + r.erasesize) mid e := ht.2.2
    have hxe := htail.le
    have hlen : e - (r.offset + k * r.erasesize) ≠ 0 := by omega
    have hsub : sub32 (e - (r.offset + k * r.erasesize)) r.erasesize =
        e - (r.offset + k * r.erasesize + r.erasesize) := by
      rw [sub32_of_le (by omega) (by omega)]
      omega
    rw [length_cons] at hfuel
    obtain ⟨fuel,rfl⟩ : ∃ m, fuel = m + 1 := ⟨fuel - 1,by omega⟩
    rw [map_cons,upTo,At.place_eq (b := r.block k) hat]
    by_cases hret : ret 0 = 0
    swap
    · rw [if_pos hret]
      exact frobLoop_refused hlen hret
    rw [if_neg (not_not_intro hret)]
    cases mid with
    | nil =>
      have he : _ = e := htail
      obtain ⟨fuel,rfl⟩ : ∃ m, fuel = m + 1 := ⟨fuel - 1,by omega⟩
      refine frobLoop_last hlen hret ?_
      rw [hreg,hsub,he,Nat.sub_self]
    | cons b' mid =>
      obtain ⟨hle,htest⟩ := hf.end_test hr hkn hat
      have hlt : r.offset + k * r.erasesize + r.erasesize < f.size := by
        have hb : b'.ofs = r.offset + k * r.erasesize + r.erasesize := htail.1
        have hend := htail.2.2.le
        have hsz := htail.2.1
        unfold Segment.stop at hend
        omega
      obtain ⟨c',adr',hat',hloop⟩ := hf.frobLoop_next fuel hreg hlen hret hat hle hlt
      obtain ⟨rs₁',r',rs₂',k',h',hk',hx',hlen',hrest'⟩ :=
        hf.next h hkn (by rw [hmore]; exact cons_ne_nil _ _)
      rw [hloop,hsub,if_congr htest rfl rfl,← hlen',← hx']
      rw [← hx'] at htail hat'
      rw [ih h' (.inl hk') (hrest'.trans hmore) htail hat' (Nat.lt_of_succ_lt_succ hfuel)]
      rfl

theorem Regular.exists_mid (hf : f.Regular) (h : f.regions = rs₁ ++ r :: rs₂) (hk : k ≤ r.numblocks)
    (hy : r.offset + k * r.erasesize ≤ y) (hb : f.Boundary y) :
    ∃ mid post, rest r k rs₂ = mid ++ post ∧ Tiles (r.offset + k * r.erasesize) mid y ∧
      f.blocks.filter (fun b => r.offset + k * r.erasesize ≤ b.ofs ∧ b.stop ≤ y) = mid := by
  obtain ⟨h₁,h₂,-,-⟩ := hf.around h
  have hpos := hf.erasesize_pos (mem_regions h)
  have hpre : Tiles 0 (rs₁.flatMap Region.blocks ++ (range' 0 k).map r.block)
      (r.offset + k * r.erasesize) := by
    have hk := r.tiles_range hpos 0 k
    rw [zero_mul,add_zero,zero_add] at hk
    exact h₁.append hk
  have hrest : Tiles (r.offset + k * r.erasesize) (rest r k rs₂) f.size := by
    have hk' := r.tiles_range hpos k (r.numblocks - k)
    rw [Nat.add_sub_of_le hk,mul_comm r.numblocks] at hk'
    exact hk'.append h₂
  have hblocks : f.blocks =
      (rs₁.flatMap Region.blocks ++ (range' 0 k).map r.block) ++ rest r k rs₂ := by
    simp [blocks_eq h,r.blocks_cut hk,rest,append_assoc]
  have hin : y = f.size ∨ ∃ b ∈ rest r k rs₂, b.ofs = y := by
    refine hb.imp_right ?_
    rintro ⟨b,hmem,rfl⟩
    rw [hblocks,mem_append] at hmem
    obtain hmem | hmem := hmem
    · obtain ⟨-,hsz,hle⟩ := hpre.mem_bounds hmem
      unfold Segment.stop at hle
      omega
    · exact ⟨b,hmem,rfl⟩
  obtain ⟨mid,post,heq,hmid,hpost⟩ := hrest.exists_split hin
  refine ⟨mid,post,heq,hmid,?_⟩
  rw [hblocks,heq]
  exact hpre.filter_inside hmid hpost

theorem at_start (f : Flash) (x : ℕ) :
    f.At (x / f.chipsize) (x - x / f.chipsize * f.chipsize) x := by
  have hle := Nat.div_mul_le_self x f.chipsize
  have hlt := Nat.lt_div_mul_add (a := x) f.chipsize_pos
  exact ⟨by omega,by omega⟩

variable {ret : ℕ → ℤ} {ofs len : ℕ}

theorem Regular.varsizeFrob_eq {ts₁ ts₂ : List Region} {t : Region} (hf : f.Regular)
    (hin : ofs + len ≤ f.size) (hl : f.Lies ofs rs₁ r rs₂) (hm : f.Lies (ofs + len) ts₁ t ts₂) :
    f.varsizeFrob ret ofs len =
      if ofs &&& (r.erasesize - 1) ≠ 0 then some (einval,[])
      else if (ofs + len) &&& (t.erasesize - 1) ≠ 0 then some (einval,[])
      else f.frobLoop (len + 1) ret rs₁.length (ofs / f.chipsize)
        (ofs - ofs / f.chipsize * f.chipsize) len := by
  have hsize : ¬f.size < ofs := by omega
  have hsize' : ¬f.size < len + ofs := by omega
  rw [varsizeFrob,if_neg hsize,if_neg hsize']
  simp [hl.skip,region_eq hl.regions,hf.skip_from hl (Nat.le_add_right _ _),hm.skip,region_eq hm.regions]

theorem Regular.varsizeFrob_aligned (hf : f.Regular) (hn : 0 < f.numchips)
    (hin : ofs + len ≤ f.size) (h₁ : f.Boundary ofs) (h₂ : f.Boundary (ofs + len)) :
    f.varsizeFrob ret ofs len = some (upTo ret ((f.inside ofs len).map f.place)) := by
  obtain ⟨rs₁,r,rs₂,hl⟩ := hf.exists_lies hn (Nat.le_of_add_right_le hin)
  obtain ⟨ts₁,t,ts₂,hm⟩ := hf.exists_lies hn hin
  rw [hf.varsizeFrob_eq hin hl hm,if_neg (not_not_intro ((hf.boundary_iff hl).mp h₁)),
    if_neg (not_not_intro ((hf.boundary_iff hm).mp h₂))]
  obtain ⟨k,rfl,hk⟩ := hf.exists_block hl ((hf.boundary_iff_dvd hl).mp h₁)
  obtain ⟨mid,post,hrest,ht,hfilter⟩ := hf.exists_mid hl.regions (by omega)
    (Nat.le_add_right _ len) h₂
  have hlen : len = r.offset + k * r.erasesize + len - (r.offset + k * r.erasesize) := by omega
  have hcount := ht.length_le
  rw [inside,hfilter]
  conv_lhs => rw [hlen]
  refine hf.frobLoop_eq hl.regions ?_ hrest ht hin (f.at_start _) (by omega)
  obtain hk | ⟨rfl,rfl⟩ := hk
  · exact .inl hk
  · -- at the end of the device nothing is left
    right
    rw [rest,Nat.sub_self] at hrest
    exact (append_eq_nil_iff.mp hrest.symm).1

theorem Regular.varsizeFrob_unaligned (hf : f.Regular) (hn : 0 < f.numchips)
    (hin : ofs + len ≤ f.size) (h : ¬(f.Boundary ofs ∧ f.Boundary (ofs + len))) :
    f.varsizeFrob ret ofs len = some (einval,[]) := by
  obtain ⟨rs₁,r,rs₂,hl⟩ := hf.exists_lies hn (Nat.le_of_add_right_le hin)
  obtain ⟨ts₁,t,ts₂,hm⟩ := hf.exists_lies hn hin
  rw [hf.boundary_iff hl,hf.boundary_iff hm] at h
  rw [hf.varsizeFrob_eq hin hl hm]
  by_cases hstart : ofs &&& (r.erasesize - 1) = 0
  · have hend : (ofs + len) &&& (t.erasesize - 1) ≠ 0 := fun he => h ⟨hstart,he⟩
    grind
  · rw [if_pos hstart]

end Flash

section
variable {devSize interleave numchips chipshift d j : ℕ} {infos : List (BitVec 32)} {f : Flash}
  {l : List (ℕ × ℕ)}

/-- The place behind all blocks that `l` describes. -/
def extent (l : List (ℕ × ℕ)) : ℕ := (l.map fun p => p.1 * p.2).sum

theorem tiles_chipRegions (base : ℕ) (hl : ∀ p ∈ l, 0 < p.1 * p.2)
    (h : base + o + extent l < 4294967296) :
    Tiles (base + o) ((chipRegions base o l).map Region.segment) (base + o + extent l) := by
  induction l generalizing o with
  | nil => exact rfl
  | cons p l ih =>
    have he : extent (p :: l) = p.1 * p.2 + extent l := rfl
    have hp := hl p mem_cons_self
    have hrest := ih (o := o + p.1 * p.2) (fun q hq => hl q (mem_cons_of_mem _ hq)) (by omega)
    rw [chipRegions,u32_of_lt (by omega : base + o < _),
      u32_of_lt (by omega : o + p.1 * p.2 < _),map_cons]
    refine ⟨rfl,hp,?_⟩
    rwa [← add_assoc,add_assoc _ (p.1 * p.2)] at hrest

theorem mem_chipRegions {base : ℕ} {r : Region} (hr : r ∈ chipRegions base o l) :
    (r.erasesize,r.numblocks) ∈ l := by
  induction l generalizing o with
  | nil => cases hr
  | cons p l ih =>
    obtain rfl | hr := mem_cons.mp hr
    · exact mem_cons_self
    · exact mem_cons_of_mem _ (ih hr)

theorem tiles_chips (hl : ∀ p ∈ l, 0 < p.1 * p.2) (hd : extent l = d) {n : ℕ}
    (h : n * d < 4294967296) :
    Tiles 0 (((range n).flatMap fun j => chipRegions (u32 (j * d)) 0 l).map Region.segment)
      (n * d) := by
  induction n with
  | zero => exact (zero_mul d).symm
  | succ n ih =>
    rw [Nat.succ_mul] at h ⊢
    rw [range_succ,flatMap_append,map_append,flatMap_singleton,
      u32_of_lt (by omega : n * d < _),← hd]
    rw [← hd] at ih h
    refine (ih (by omega)).append ?_
    exact tiles_chipRegions _ (o := 0) hl h

structure SetupCovers (devSize interleave numchips chipshift : ℕ) (infos : List (BitVec 32)) :
    Prop where
  chip : 2 ^ devSize * interleave = 2 ^ chipshift
  numchips_pos : 0 < numchips
  size : numchips * 2 ^ chipshift < 4294967296
  extent : extent (infos.map (regionInfo interleave)) = 2 ^ chipshift
  pow : ∀ p ∈ infos.map (regionInfo interleave), ∃ n, p.1 = 2 ^ n

theorem SetupCovers.devsize_eq (h : SetupCovers devSize interleave numchips chipshift infos) :
    u32 (2 ^ devSize * interleave) = 2 ^ chipshift := by
  have hle := Nat.le_mul_of_pos_left (2 ^ chipshift) h.numchips_pos
  rw [h.chip]
  exact u32_of_lt (lt_of_le_of_lt hle h.size)

theorem SetupCovers.regular (h : SetupCovers devSize interleave numchips chipshift infos)
    (hset : cfiIntelextSetup devSize interleave numchips chipshift infos = some f)
    (hdvd : ∀ r ∈ f.regions, r.erasesize ∣ r.offset) : f.Regular ∧ 0 < f.numchips := by
  rw [cfiIntelextSetup,h.devsize_eq] at hset
  split at hset
  · cases hset
  obtain rfl := Option.some.inj hset
  have hpos : ∀ p ∈ infos.map (regionInfo interleave), 0 < p.1 * p.2 := by
    intro p hp
    obtain ⟨n,hn⟩ := h.pow p hp
    obtain ⟨info,-,rfl⟩ := mem_map.mp hp
    rw [hn]
    exact Nat.mul_pos (Nat.two_pow_pos n) (Nat.succ_pos _)
  have hsize : u32 (2 ^ chipshift * numchips) = numchips * 2 ^ chipshift := by
    rw [mul_comm]
    exact u32_of_lt h.size
  refine ⟨⟨hsize,u32_lt _,?_,?_,hdvd,?_⟩,h.numchips_pos⟩
  · rw [hsize]
    exact tiles_chips hpos h.extent h.size
  · intro r hr
    obtain ⟨j,-,hr⟩ := mem_flatMap.mp hr
    exact h.pow _ (mem_chipRegions hr)
  · intro r hr
    obtain ⟨j,hj,hr⟩ := mem_flatMap.mp hr
    have hj := mem_range.mp hj
    have hjd : (j + 1) * 2 ^ chipshift ≤ numchips * 2 ^ chipshift := Nat.mul_le_mul_right _ hj
    have hlt := lt_of_le_of_lt hjd h.size
    rw [Nat.succ_mul] at hlt
    rw [u32_of_lt (by omega)] at hr
    have ht := tiles_chipRegions (j * 2 ^ chipshift) (o := 0) hpos
      (by rw [h.extent]; exact hlt)
    obtain ⟨hge,-,hle⟩ := ht.mem_bounds (mem_map_of_mem hr)
    rw [h.extent] at hle
    exact ⟨j,hge,by rw [Nat.succ_mul]; exact hle⟩

/-- The blocks tile the device, a range that is not made of blocks is refused, and otherwise the
function is called for the blocks of the range, in order, as long as it returns 0. -/
theorem varsizeFrob_visits (ret : ℕ → ℤ) (ofs len : ℕ)
    (h : SetupCovers devSize interleave numchips chipshift infos)
    (hset : cfiIntelextSetup devSize interleave numchips chipshift infos = some f)
    (hdvd : ∀ r ∈ f.regions, r.erasesize ∣ r.offset) (hin : ofs + len ≤ f.size) :
    Tiles 0 f.blocks f.size ∧
    (¬(f.Boundary ofs ∧ f.Boundary (ofs + len)) →
      f.varsizeFrob ret ofs len = some (Flash.einval,[])) ∧
    (f.Boundary ofs ∧ f.Boundary (ofs + len) →
      f.varsizeFrob ret ofs len = some (Flash.upTo ret ((f.inside ofs len).map f.place))) := by
  obtain ⟨hf,hn⟩ := h.regular hset hdvd
  refine ⟨tiles_flatMap (fun r hr => hf.erasesize_pos hr) hf.tiles,?_,?_⟩
  · exact hf.varsizeFrob_unaligned hn hin
  · rintro ⟨h₁,h₂⟩
    exact hf.varsizeFrob_aligned hn hin h₁ h₂

end

def twoBootChips : Flash where
  size := 262144
  chipshift := 17
  numchips := 2
  regions := [⟨0,65536,1⟩,⟨65536,8192,8⟩,⟨131072,65536,1⟩,⟨196608,8192,8⟩]

/-- From the last block of the first chip to the first block of the second. -/
theorem varsizeFrob_visits_both_chips :
    twoBootChips.varsizeFrob (fun _ => 0) 122880 73728 = some (0,[(0,122880),(1,0)]) := by
  have hc : SetupCovers 17 1 2 17 [0x01000000,0x00200007] :=
    ⟨by decide,by decide,by decide,by decide,by
      intro p hp
      obtain rfl | rfl := mem_pair.mp hp
      · exact ⟨16,by decide⟩
      · exact ⟨13,by decide⟩⟩
  obtain ⟨-,-,h⟩ := varsizeFrob_visits (fun _ => 0) 122880 73728 (f := twoBootChips) hc (by decide)
    (by decide) (by decide)
  exact h (by decide)

end Simpad.Mtd
