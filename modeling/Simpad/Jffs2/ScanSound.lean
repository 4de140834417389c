import Simpad.Jffs2.ScanMoves

namespace Simpad.Jffs2.Scan
open Word ListAt List

/-- The references are in order, apart and between `lo` and `hi`. -/
structure Placed (refs : List Ref) (lo hi : ℕ) : Prop where
  apart : refs.Pairwise fun r r' => r.ofs + r.totlen ≤ r'.ofs
  inside : ∀ r ∈ refs, lo ≤ r.ofs ∧ r.ofs + r.totlen ≤ hi

structure Acct.Final (b : Block) (a : Acct) : Prop where
  used : a.used = usedOf a.refs
  placed : Placed a.refs b.offset b.stop
  free : a.free ≤ b.sectorSize
  erased : ∀ p, b.stop - a.free ≤ p → p < b.stop → b.flash.byte p = 0xff

/-- What holds in front of each round: the bytes up to `t` are counted. -/
structure Acct.Sound (b : Block) (a : Acct) (t : ℕ) : Prop where
  lo : b.offset ≤ t
  hi : t ≤ b.stop
  aligned : a.ofs % 4 = 0
  front : a.ofs = t ∨ a.ofs = b.stop ∧ ∀ p, t ≤ p → p < b.stop → b.flash.byte p = 0xff
  sum : a.used + a.dirty = t - b.offset
  free : a.free = b.stop - t
  used : a.used = usedOf a.refs
  placed : Placed a.refs b.offset t

theorem Acct.Sound.final {b : Block} {a : Acct} {t : ℕ} (h : a.Sound b t) (he : b.stop ≤ a.ofs) :
    a.Final b := by
  have hst : b.stop = b.offset + b.sectorSize := rfl
  have hlo := h.lo
  have hhi := h.hi
  have hfree := h.free
  refine ⟨h.used,⟨h.placed.apart,fun r hr => ?_⟩,by omega,fun p hp hp' => ?_⟩
  · exact ⟨(h.placed.inside r hr).1,le_trans (h.placed.inside r hr).2 hhi⟩
  · rcases h.front with hf | ⟨-,hf⟩
    · omega
    · exact hf p (by omega) hp'

variable {lo hi len : ℕ} {refs : List Ref}

theorem Placed.append (h : Placed refs lo hi) {o : Bool} (hlo : lo ≤ hi) :
    Placed (refs ++ [⟨hi,len,o⟩]) lo (hi + len) := by
  refine ⟨pairwise_append.mpr ⟨h.apart,pairwise_singleton _ _,fun r hr r' hr' => ?_⟩,
    fun r hr => ?_⟩
  · rw [mem_singleton.mp hr']
    exact (h.inside r hr).2
  · rcases mem_append.mp hr with hr | hr
    · exact ⟨(h.inside r hr).1,le_trans (h.inside r hr).2 (Nat.le_add_right _ _)⟩
    · grind

theorem Placed.mono {hi' : ℕ} (h : Placed refs lo hi) (hh : hi ≤ hi') : Placed refs lo hi' :=
  ⟨h.apart,fun r hr => ⟨(h.inside r hr).1,le_trans (h.inside r hr).2 hh⟩⟩

theorem Placed.modify (h : Placed refs lo hi) (i : ℕ) :
    Placed (refs.modify i fun r => { r with obsolete := true }) lo hi := by
  have hshape : (refs.modify i fun r => { r with obsolete := true }).map (fun r => (r.ofs,r.totlen)) =
      refs.map fun r => (r.ofs,r.totlen) :=
    map_modify (f := fun r : Ref => { r with obsolete := true }) (g := fun r : Ref => (r.ofs,r.totlen))
      (fun _ => rfl) _ _
  constructor
  · have hp : (refs.map fun r => (r.ofs,r.totlen)).Pairwise fun x y => x.1 + x.2 ≤ y.1 :=
      pairwise_map.mpr h.apart
    grind
  · intro r hr
    have hm : (r.ofs,r.totlen) ∈ refs.map fun r => (r.ofs,r.totlen) := by
      grind
    obtain ⟨x,hx,he⟩ := mem_map.mp hm
    have hin := h.inside x hx
    grind

/-- The node that the scan meets ends inside the block and is known. -/
def Block.Proper (b : Block) (ofs : ℕ) : Prop :=
  ∀ copy len, b.trusted ofs = some (copy,len) → ofs + len ≤ b.stop ∧ (copy = true → len = 0)

theorem pad4_mod (n : ℕ) : pad4 n % 4 = 0 := Nat.mod_eq_zero_of_dvd (pad4_dvd n)

theorem trusted_mod {b : Block} {ofs : ℕ} {copy : Bool} (h : b.trusted ofs = some (copy,len)) :
    len % 4 = 0 := by
  obtain ⟨node,-,h⟩ := Option.bind_eq_some_iff.mp h
  split_ifs at h
  cases hk : nodeKind (field node 2 2) <;> rw [hk,Block.trustedKind] at h
  case inode | dirent =>
    obtain ⟨ri,-,h⟩ := Option.bind_eq_some_iff.mp h
    split_ifs at h
    cases h
    exact pad4_mod _
  case rocompat =>
    split_ifs at h
    cases h
    exact pad4_mod _
  case cleanmarker | incompat => cases h
  case rwcompatDelete | rwcompatCopy =>
    cases h
    exact pad4_mod _

section
variable {b : Block} {a : Acct} {t : ℕ} (hb : b.Fits32) (h : a.Sound b t) (hlt : a.ofs < b.stop)
include h hlt

theorem Acct.Sound.front_eq : a.ofs = t := h.front.resolve_right fun hn => hlt.ne hn.1

include hb

theorem Acct.Sound.counted {used dirty : ℕ} (h4 : len % 4 = 0) (hl : a.ofs + len ≤ b.stop)
    (hs : used + dirty = a.used + a.dirty + len) (hu : used = usedOf refs)
    (hp : Placed refs b.offset (t + len)) :
    (⟨u32 (a.ofs + len),used,dirty,sub32 a.free len,refs⟩ : Acct).Sound b (t + len) := by
  have hstop := hb.stop
  have hfront := h.front_eq hlt
  have hlo := h.lo
  have hsum := h.sum
  have hfree := h.free
  have hal := h.aligned
  have hofs : u32 (a.ofs + len) = t + len := by rw [hfront]; exact u32_of_lt (by omega)
  have hf : sub32 a.free len = a.free - len := sub32_of_le (by omega) (by omega)
  refine ⟨by omega,by omega,?_,Or.inl hofs,?_,?_,hu,hp⟩ <;> dsimp only
  · omega
  · omega
  · omega

theorem Acct.Sound.u32_add {x : ℕ} (hx : x ≤ a.used + a.dirty) (hl : a.ofs + len ≤ b.stop) :
    u32 (x + len) = x + len := by
  have hstop := hb.stop
  have hfront := h.front_eq hlt
  have hsum := h.sum
  exact u32_of_lt (by omega)

/-- A stretch inside the block is counted as dirty; with `record` a node that is obsolete. -/
theorem Acct.Sound.dirtied (h4 : len % 4 = 0) (hl : a.ofs + len ≤ b.stop) :
    (a.dirtied len).Sound b (t + len) ∧ ((a.record len true).dirtied len).Sound b (t + len) := by
  have hdirty := h.u32_add hb hlt (Nat.le_add_left a.dirty a.used) hl
  have hs : a.used + u32 (a.dirty + len) = a.used + a.dirty + len := by rw [hdirty,add_assoc]
  refine ⟨h.counted hb hlt h4 hl hs h.used (h.placed.mono (Nat.le_add_right _ _)),
    h.counted hb hlt h4 hl hs ?_ (h.front_eq hlt ▸ h.placed.append h.lo)⟩
  rw [Acct.record,usedOf_append,usedOf_cons,if_pos rfl]
  exact h.used

theorem Acct.Sound.taken (h4 : len % 4 = 0) (hl : a.ofs + len ≤ b.stop) :
    ((a.record len false).taken len).Sound b (t + len) := by
  have hused := h.u32_add hb hlt (Nat.le_add_right a.used a.dirty) hl
  refine h.counted hb hlt h4 hl ?_ ?_ (h.front_eq hlt ▸ h.placed.append h.lo)
  · show u32 (a.used + len) + a.dirty = _
    omega
  · show u32 (a.used + len) = _
    rw [Acct.record,usedOf_append,usedOf_cons,if_neg Bool.false_ne_true,hused,← h.used]
    rfl

omit hlt hb in
theorem Acct.Sound.recount {used dirty : ℕ} (hs : used + dirty = t - b.offset)
    (hu : used = usedOf refs) (hp : Placed refs b.offset t) :
    ({ a with used := used, dirty := dirty, refs := refs } : Acct).Sound b t :=
  ⟨h.lo,h.hi,h.aligned,h.front,hs,h.free,hu,hp⟩

omit hlt in
theorem Acct.Sound.obsoleted {i : ℕ} {ref : Ref} (hi : a.refs[i]? = some ref)
    (ho : ref.obsolete = false) : (a.obsoleted i ref.totlen).Sound b t := by
  have hstop := hb.stop
  have hhi := h.hi
  have hsum := h.sum
  have hmod := usedOf_modify hi ho
  have hu := h.used
  have hused : sub32 a.used ref.totlen = a.used - ref.totlen := sub32_of_le (by omega) (by omega)
  have hdirty : u32 (a.dirty + ref.totlen) = a.dirty + ref.totlen := u32_of_lt (by omega)
  exact h.recount (by omega) (by omega) (h.placed.modify i)

theorem Move.sound {a' : Acct} (hp : b.Proper a.ofs) (hm : Move b a a') : ∃ t', a'.Sound b t' := by
  cases hm with
  | skip hn h0 h4 hl => exact ⟨_,(h.dirtied hb hlt h4 hl).1⟩
  | tail hn he =>
    have hfront := h.front_eq hlt
    have hoff := hb.offset
    have hsec := hb.sector
    have hst : b.stop = b.offset + b.sectorSize := rfl
    refine ⟨t,h.lo,h.hi,?_,Or.inr ⟨rfl,hfront ▸ he⟩,h.sum,h.free,h.used,h.placed⟩
    show b.stop % 4 = 0
    omega
  | marker hn hl hr => exact ⟨_,h.taken hb hlt (by decide) hl⟩
  | dirty ht => exact ⟨_,(h.dirtied hb hlt (trusted_mod ht) (hp _ _ ht).1).1⟩
  | copy ht =>
    -- such a node has no length, so that it changes nothing
    obtain ⟨hl,h0⟩ := hp _ _ ht
    have hz := h0 rfl
    subst hz
    have hu : u32 (a.used + 0) = a.used :=
      u32_of_lt (by have := h.sum; have := hb.stop; have := h.hi; omega)
    have hf : sub32 a.free 0 = a.free :=
      sub32_of_le (Nat.zero_le _) (by have := h.free; have := hb.stop; omega)
    have ho : u32 (a.ofs + 0) = a.ofs := u32_of_lt (by have := hb.stop; omega)
    refine ⟨t,?_⟩
    rw [Acct.taken,hu,hf,ho]
    exact h
  | dropped ht => exact ⟨_,(h.dirtied hb hlt (trusted_mod ht) (hp _ _ ht).1).2⟩
  | node ht => exact ⟨_,h.taken hb hlt (trusted_mod ht) (hp _ _ ht).1⟩
  | replace ht hi ho hin => exact ⟨_,(h.taken hb hlt (trusted_mod ht) (hp _ _ ht).1).obsoleted hb hi ho⟩
  | @stray len i ref ht hi hout =>
    -- all that is recorded lies in the block
    have hfront := h.front_eq hlt
    have hlo := h.lo
    rcases mem_append.mp (mem_of_getElem? hi) with hr | hr
    · have hin := h.placed.inside ref hr
      omega
    · rw [mem_singleton.mp hr] at hout
      have hout : a.ofs < b.offset ∨ b.stop ≤ a.ofs := hout
      omega

end

end Simpad.Jffs2.Scan
