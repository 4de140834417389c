import Simpad.Jffs2.SpacePlaces

namespace Simpad.Jffs2.Space
open Word Function

/-- What a block has of the space that a counter counts. -/
def weight (sector : ℕ) : Counter → Share → Eraseblock → ℕ
  | .used, _, x => x.used
  | .dirty, _, x => x.dirty
  | .free, _, x => x.free
  | .erasing, s, _ => if s = .erasing then sector else 0
  | .bad, s, _ => if s = .bad then sector else 0

/-- The accounts of a block; one that is being erased or bad has none. -/
structure Fits (sector : ℕ) (s : Share) (x : Eraseblock) : Prop where
  total : s = .own → x.used + x.dirty + x.free = sector
  used : usedOf x.refs = x.used
  aligned : x.free % 4 = 0
  gone : s ≠ .own → x = ⟨0,0,0,[]⟩

structure Books (n : ℕ) (c : Sb) (loc : ℕ → Option Place) : Prop where
  sector_le : 12 ≤ c.sectorSize
  sector_aligned : c.sectorSize % 4 = 0
  flash : c.flashSize = n * c.sectorSize
  flash_lt : c.flashSize < 4294967296
  sizes : ∀ k, c.size k =
    ∑ b ∈ Finset.range n, weight c.sectorSize k (share (loc b)) (c.blocks b)
  fits : ∀ b, b < n → Fits c.sectorSize (share (loc b)) (c.blocks b)
  bug : c.bug = false

variable {sector i len : ℕ} {r : Ref} {x y : Eraseblock}

theorem Fits.sum {s : Share} (h : Fits sector s x) :
    weight sector .used s x + weight sector .dirty s x + weight sector .free s x +
      weight sector .erasing s x + weight sector .bad s x = sector := by
  cases s with
  | own => simpa [weight] using h.total rfl
  | erasing | bad => simp [weight,h.gone (by decide)]

theorem Fits.weight_le {s : Share} (h : Fits sector s x) (k : Counter) :
    weight sector k s x ≤ sector := by
  have := h.sum
  cases k <;> omega

section
variable {n : ℕ} {c c' : Sb} {loc : ℕ → Option Place} {b : ℕ} {p : Option Place} {x y : Eraseblock}

theorem Books.total (h : Books n c loc) :
    c.size .used + c.size .dirty + c.size .free + c.size .erasing + c.size .bad = c.flashSize := by
  simp only [h.sizes,← Finset.sum_add_distrib]
  rw [Finset.sum_congr rfl fun b hb => (h.fits b (Finset.mem_range.mp hb)).sum,h.flash]
  simp

theorem Books.sector_lt (h : Books n c loc) (hb : b < n) : c.sectorSize < 4294967296 := by
  have := h.flash_lt
  have hle : 1 * c.sectorSize ≤ n * c.sectorSize := Nat.mul_le_mul_right _ (by omega)
  rw [h.flash] at this
  omega

theorem Books.change (h : Books n c loc) (hb : b < n) (hsec : c'.sectorSize = c.sectorSize)
    (hflash : c'.flashSize = c.flashSize) (hbug : c'.bug = false)
    (hblocks : c'.blocks = update c.blocks b y) (hfits : Fits c.sectorSize (share p) y)
    (hsize : ∀ k, c'.size k < 4294967296 ∧
      u32 (c'.size k + weight c.sectorSize k (share (loc b)) (c.blocks b)) =
        u32 (c.size k + weight c.sectorSize k (share p) y)) :
    Books n c' (update loc b p) := by
  have hother (k : Counter) (j : ℕ) (hj : j ≠ b) :
      weight c.sectorSize k (share (update loc b p j)) (c'.blocks j) =
        weight c.sectorSize k (share (loc j)) (c.blocks j) := by
    rw [hblocks,update_of_ne hj,update_of_ne hj]
  have hself (k : Counter) :
      weight c.sectorSize k (share (update loc b p b)) (c'.blocks b) =
        weight c.sectorSize k (share p) y := by
    rw [hblocks,update_self,update_self]
  have hfits' : ∀ j, j < n →
      Fits c.sectorSize (share (update loc b p j)) (c'.blocks j) := by
    intro j hj
    by_cases he : j = b
    · subst he
      rwa [hblocks,update_self,update_self]
    · rw [hblocks,update_of_ne he,update_of_ne he]
      exact h.fits j hj
  refine ⟨hsec ▸ h.sector_le,hsec ▸ h.sector_aligned,by rw [hflash,hsec,h.flash],
    hflash ▸ h.flash_lt,fun k => ?_,hsec ▸ hfits',hbug⟩
  rw [hsec]
  refine Places.counter_update hb (hother k) ?_ (hsize k).1 ?_
  · refine lt_of_le_of_lt (Finset.sum_le_sum fun j hj =>
      (hfits' j (Finset.mem_range.mp hj)).weight_le k) ?_
    have := h.flash_lt
    rw [h.flash] at this
    simpa using this
  · rw [hself,← h.sizes k]
    exact (hsize k).2

theorem Books.size_lt (h : Books n c loc) (k : Counter) : c.size k < 4294967296 := by
  have := h.total
  have := h.flash_lt
  cases k <;> omega

theorem Books.relocate (h : Books n c loc) (hb : b < n) (hshare : share p = share (loc b))
    (hsec : c'.sectorSize = c.sectorSize) (hflash : c'.flashSize = c.flashSize)
    (hbug : c'.bug = c.bug) (hblocks : c'.blocks = c.blocks) (hsize : c'.size = c.size) :
    Books n c' (update loc b p) := by
  refine h.change hb hsec hflash (hbug.trans h.bug)
    (hblocks.trans (update_eq_self b c.blocks).symm) (hshare ▸ h.fits b hb) fun k => ?_
  rw [hsize,hshare]
  exact ⟨h.size_lt k,rfl⟩

theorem Books.rewrite (h : Books n c loc) (hb : b < n) (hsec : c'.sectorSize = c.sectorSize)
    (hflash : c'.flashSize = c.flashSize) (hbug : c'.bug = false)
    (hblocks : c'.blocks = update c.blocks b y) (hfits : Fits c.sectorSize (share (loc b)) y)
    (hsize : ∀ k, c'.size k < 4294967296 ∧
      u32 (c'.size k + weight c.sectorSize k (share (loc b)) (c.blocks b)) =
        u32 (c.size k + weight c.sectorSize k (share (loc b)) y)) :
    Books n c' loc := by
  have := h.change hb hsec hflash hbug hblocks hfits hsize
  rwa [update_eq_self] at this

theorem Books.sane (h : Books n c loc) (hb : b < n) (hown : share (loc b) = .own) :
    c.sane (c.blocks b) = true ∧ (c.blocks b).paranoia = true := by
  have hf := h.fits b hb
  have htot := hf.total hown
  have hlt := h.sector_lt hb
  refine ⟨?_,?_⟩
  · rw [Sb.sane,decide_eq_true_iff,htot,h.total]
    exact ⟨u32_of_lt hlt,u32_of_lt h.flash_lt⟩
  · rw [Eraseblock.paranoia,decide_eq_true_iff,hf.used]
    exact u32_of_lt (by omega)

end

section

theorem usedOf_append (refs : List Ref) (r : Ref) :
    usedOf (refs ++ [r]) = usedOf refs + if r.obsolete then 0 else r.totlen := by
  cases hr : r.obsolete <;> simp [usedOf,List.filter_append,hr]

theorem usedOf_modify {refs : List Ref} (hr : refs[i]? = some r) (ho : r.obsolete = false) :
    usedOf (refs.modify i fun r => { r with obsolete := true }) + r.totlen = usedOf refs := by
  induction refs generalizing i with
  | nil => simp at hr
  | cons s refs ih =>
    have hcons (t : Ref) (l : List Ref) :
        usedOf (t :: l) = (if t.obsolete then 0 else t.totlen) + usedOf l := by
      cases ht : t.obsolete <;> simp [usedOf,ht]
    cases i with
    | zero =>
      obtain rfl : s = r := by simpa using hr
      rw [List.modify_zero_cons,hcons,hcons,ho]
      simp only [if_true,Bool.false_eq_true,if_false]
      omega
    | succ i =>
      rw [List.modify_succ_cons,hcons,hcons,add_assoc,ih (by simpa using hr)]

theorem pad4_le {n m : ℕ} (h : n ≤ m) (hm : m % 4 = 0) (hlt : m < 4294967296) : pad4 n ≤ m := by
  rw [pad4,u32_of_lt (by omega)]
  omega

theorem four_dvd_pad4 (n : ℕ) : pad4 n % 4 = 0 := Nat.mod_eq_zero_of_dvd (pad4_dvd n)

theorem Fits.addNode (h : Fits sector .own x) (hlt : sector < 4294967296) (hlen : len ≤ x.free)
    (hal : len % 4 = 0) (dirty : Bool) : Fits sector .own (x.addNode len dirty) := by
  have htot := h.total rfl
  have hfree : sub32 x.free len = x.free - len := sub32_of_le hlen (by omega)
  have hused : u32 (x.used + len) = x.used + len := u32_of_lt (by omega)
  have hdirty : u32 (x.dirty + len) = x.dirty + len := u32_of_lt (by omega)
  have haligned := h.aligned
  refine ⟨fun _ => ?_,?_,?_,fun hs => absurd rfl hs⟩
  · cases dirty <;> simp only [Eraseblock.addNode,hfree,hused,hdirty,Bool.false_eq_true,if_false,
      if_true] <;> omega
  · simp only [Eraseblock.addNode,usedOf_append,h.used,hused]
    cases dirty with
    | true => simp only [if_true,add_zero]
    | false => simp only [Bool.false_eq_true,if_false]
  · simp only [Eraseblock.addNode,hfree]
    omega

theorem Fits.markObsolete (h : Fits sector .own x) (hlt : sector < 4294967296)
    (hr : x.refs[i]? = some r) (ho : r.obsolete = false) :
    Fits sector .own (x.markObsolete i r.totlen) := by
  have htot := h.total rfl
  have hmod := usedOf_modify hr ho
  have hle : r.totlen ≤ x.used := by
    have := h.used
    omega
  have hused : sub32 x.used r.totlen = x.used - r.totlen := sub32_of_le hle (by omega)
  have hdirty : u32 (x.dirty + r.totlen) = x.dirty + r.totlen := u32_of_lt (by omega)
  refine ⟨fun _ => ?_,?_,?_,fun hs => absurd rfl hs⟩
  · simp only [Eraseblock.markObsolete,hused,hdirty]
    omega
  · simp only [Eraseblock.markObsolete,hused]
    have := h.used
    omega
  · rw [Eraseblock.markObsolete_free]
    exact h.aligned

end

section
variable (c : Sb) (j k : Counter) (x : ℕ)

theorem size_grow : (c.grow k x).size j = if j = k then u32 (c.size k + x) else c.size j :=
  update_apply c.size k _ j

theorem size_shrink : (c.shrink k x).size j = if j = k then sub32 (c.size k) x else c.size j :=
  update_apply c.size k _ j

theorem follows_grow {s old x : ℕ} :
    u32 (s + x) < 4294967296 ∧ u32 (u32 (s + x) + old) = u32 (s + (old + x)) := by
  simp only [u32]
  omega

theorem follows_shrink {s old x : ℕ} (hx : x ≤ old) (hs : s < 4294967296) :
    sub32 s x < 4294967296 ∧ u32 (sub32 s x + old) = u32 (s + (old - x)) := by
  simp only [sub32,u32]
  omega

theorem follows_gone {s x : ℕ} (hs : s < 4294967296) :
    sub32 s x < 4294967296 ∧ u32 (sub32 s x + x) = u32 (s + 0) := by
  have := @follows_shrink s x x le_rfl hs
  rwa [Nat.sub_self] at this

theorem follows_new {s x : ℕ} :
    u32 (s + x) < 4294967296 ∧ u32 (u32 (s + x) + 0) = u32 (s + x) := by
  have := @follows_grow s 0 x
  rwa [zero_add] at this

end

section
variable {n : ℕ} {c : Sb} {loc : ℕ → Option Place} {b : ℕ}

theorem Fits.closed (h : Fits sector .own x) (hlt : sector < 4294967296) :
    Fits sector .own { x with dirty := u32 (x.dirty + x.free), free := 0 } ∧
      u32 (x.dirty + x.free) = x.dirty + x.free := by
  have htot := h.total rfl
  have hd : u32 (x.dirty + x.free) = x.dirty + x.free := u32_of_lt (by omega)
  rw [hd]
  refine ⟨⟨fun _ => ?_,h.used,Nat.zero_mod 4,fun hs => absurd rfl hs⟩,rfl⟩
  show x.used + (x.dirty + x.free) + 0 = sector
  omega

theorem Books.closeNext (h : Books n c loc) (hb : b < n) (hloc : loc b = some .next) :
    Books n (c.closeNext b) (update loc b (some (.list .dirty))) := by
  have hown : share (loc b) = .own := by rw [hloc]; rfl
  have hf : Fits c.sectorSize .own (c.blocks b) := hown ▸ h.fits b hb
  have hlt := h.sector_lt hb
  obtain ⟨hy,hd⟩ := hf.closed hlt
  refine h.change hb rfl rfl h.bug rfl hy fun k => ?_
  have hsz : (c.closeNext b).size =
    ((c.grow .dirty (c.blocks b).free).shrink .free (c.blocks b).free).size := rfl
  have htot := hf.total rfl
  rw [hsz,hown,size_shrink,size_grow,size_grow]
  have hk := h.size_lt k
  cases k with
  | dirty =>
    simp only [weight,reduceCtorEq,if_false,if_true,hd]
    exact follows_grow
  | free =>
    simp only [weight,reduceCtorEq,if_false,if_true]
    exact follows_gone hk
  | used => simpa [weight] using hk
  | erasing | bad => simpa [weight,share] using hk

theorem Books.transfer {j k : Counter} {x : ℕ} (h : Books n c loc) (hb : b < n) (hjk : j ≠ k)
    (hfits : Fits c.sectorSize (share (loc b)) y)
    (hx : x ≤ weight c.sectorSize j (share (loc b)) (c.blocks b))
    (hj : weight c.sectorSize j (share (loc b)) y =
      weight c.sectorSize j (share (loc b)) (c.blocks b) - x)
    (hk : weight c.sectorSize k (share (loc b)) y =
      weight c.sectorSize k (share (loc b)) (c.blocks b) + x)
    (hother : ∀ i, i ≠ j → i ≠ k → weight c.sectorSize i (share (loc b)) y =
      weight c.sectorSize i (share (loc b)) (c.blocks b)) :
    Books n (((c.shrink j x).grow k x).setBlock b y) loc := by
  refine h.rewrite hb rfl rfl h.bug rfl hfits fun i => ?_
  have hsz : (((c.shrink j x).grow k x).setBlock b y).size = ((c.shrink j x).grow k x).size := rfl
  rw [hsz,size_grow,size_shrink,size_shrink]
  by_cases hik : i = k
  · subst hik
    rw [if_pos rfl,if_neg hjk.symm,hk]
    exact follows_grow
  · rw [if_neg hik]
    by_cases hij : i = j
    · subst hij
      rw [if_pos rfl,hj]
      exact follows_shrink hx (h.size_lt i)
    · rw [if_neg hij,hother i hij hik]
      exact ⟨h.size_lt i,rfl⟩

theorem Books.addNode (h : Books n c loc) (hb : b < n) (hloc : share (loc b) = .own)
    (hlen : len ≤ (c.blocks b).free) (hal : len % 4 = 0) {dirty : Bool}
    (hy : (c.blocks b).addNode len dirty = y) :
    Books n (((c.shrink .free len).grow (if dirty then .dirty else .used) len).setBlock b y)
      loc := by
  have hf : Fits c.sectorSize .own (c.blocks b) := hloc ▸ h.fits b hb
  have hlt := h.sector_lt hb
  have htot := hf.total rfl
  have hfits : Fits c.sectorSize .own y := hy ▸ hf.addNode hlt hlen hal dirty
  have hfree : y.free = (c.blocks b).free - len := by
    rw [← hy,Eraseblock.addNode_free,sub32_of_le hlen (by omega)]
  have hused : y.used = if dirty then (c.blocks b).used else (c.blocks b).used + len := by
    rw [← hy,Eraseblock.addNode_used,u32_of_lt (by omega)]
  have hdirty : y.dirty = if dirty then (c.blocks b).dirty + len else (c.blocks b).dirty := by
    rw [← hy,Eraseblock.addNode_dirty,u32_of_lt (by omega)]
  clear hy
  refine h.transfer hb (by cases dirty <;> decide) (hloc ▸ hfits) hlen ?_ ?_ fun i hi hi' => ?_
  · simp only [weight,hfree]
  · cases dirty <;> simp [weight,hused,hdirty]
  · cases i <;> cases dirty <;> simp_all [weight]

theorem Books.markObsolete (h : Books n c loc) (hb : b < n) (hloc : share (loc b) = .own)
    (hr : (c.blocks b).refs[i]? = some r) (ho : r.obsolete = false)
    (hy : (c.blocks b).markObsolete i r.totlen = y) :
    r.totlen ≤ (c.blocks b).used ∧
    Books n (((c.shrink .used r.totlen).grow .dirty r.totlen).setBlock b y) loc := by
  have hf : Fits c.sectorSize .own (c.blocks b) := hloc ▸ h.fits b hb
  have hlt := h.sector_lt hb
  have htot := hf.total rfl
  have hle : r.totlen ≤ (c.blocks b).used := by
    have := hf.used
    have := usedOf_modify hr ho
    omega
  have hfits : Fits c.sectorSize .own y := hy ▸ hf.markObsolete hlt hr ho
  have hused : y.used = (c.blocks b).used - r.totlen := by
    rw [← hy,Eraseblock.markObsolete_used,sub32_of_le hle (by omega)]
  have hdirty : y.dirty = (c.blocks b).dirty + r.totlen := by
    rw [← hy,Eraseblock.markObsolete_dirty,u32_of_lt (by omega)]
  have hfree : y.free = (c.blocks b).free := by rw [← hy,Eraseblock.markObsolete_free]
  clear hy
  refine ⟨hle,h.transfer hb (by decide) (hloc ▸ hfits) hle ?_ ?_ fun i hi hi' => ?_⟩
  · simp only [weight,hused]
  · simp only [weight,hdirty]
  · cases i <;> simp_all [weight]

theorem Books.failed {c' : Sb} (h : Books n c loc) (hb : b < n)
    (hloc : share (loc b) = .erasing) (hsec : c'.sectorSize = c.sectorSize)
    (hflash : c'.flashSize = c.flashSize) (hbug : c'.bug = c.bug) (hblocks : c'.blocks = c.blocks)
    (hsize : c'.size = ((c.grow .bad c.sectorSize).shrink .erasing c.sectorSize).size) :
    Books n c' (update loc b (some (.list .bad))) := by
  have hf := h.fits b hb
  have hgone := hf.gone (by rw [hloc]; decide)
  refine h.change hb hsec hflash (hbug.trans h.bug)
    (hblocks.trans (update_eq_self b c.blocks).symm) ?_ fun i => ?_
  · exact ⟨fun hs => (by cases hs),hf.used,hf.aligned,fun _ => hgone⟩
  · rw [hsize,hloc,size_shrink,size_grow,size_grow]
    have hi := h.size_lt i
    cases i with
    | erasing =>
      simp only [weight,share,reduceCtorEq,if_false,if_true]
      exact follows_gone hi
    | bad =>
      simp only [weight,share,reduceCtorEq,if_false,if_true]
      exact follows_new
    | used | dirty | free => exact ⟨hi,rfl⟩

theorem Books.startErase (h : Books n c loc) (hb : b < n)
    (hloc : loc b = some (.list .erasePending)) :
    Books n (c.startErase b) (update loc b (some (.list .erasing))) := by
  have hown : share (loc b) = .own := by rw [hloc]; rfl
  obtain ⟨hsec,hflash,hbug,-,hblocks⟩ := c.startErase_frame b
  have hy : Fits c.sectorSize (share (some (.list .erasing))) ⟨0,0,0,[]⟩ :=
    ⟨fun hs => (by cases hs),rfl,Nat.zero_mod 4,fun _ => rfl⟩
  refine h.change hb hsec hflash (hbug.trans h.bug) hblocks hy fun k => ?_
  have hk := h.size_lt k
  rw [Sb.size_startErase,hown]
  cases k with
  | erasing =>
    simp only [size_shrink,size_grow,weight,share,reduceCtorEq,if_false,if_true]
    exact follows_new
  | used | dirty | free =>
    simp only [size_shrink,size_grow,weight,reduceCtorEq,if_false,if_true]
    exact follows_gone hk
  | bad =>
    simp only [size_shrink,size_grow,weight,share,reduceCtorEq,if_false]
    exact ⟨hk,trivial⟩

theorem fits_marked (hle : 12 ≤ sector) (hal : sector % 4 = 0) (hlt : sector < 4294967296) :
    Fits sector .own (.marked sector) := by
  have hpad : pad4 sizeofUnknownNode = 12 := rfl
  have hfree : sub32 sector 12 = sector - 12 := sub32_of_le hle hlt
  simp only [Eraseblock.marked,hpad,hfree]
  refine ⟨fun _ => ?_,rfl,?_,fun hs => absurd rfl hs⟩
  · show 12 + 0 + (sector - 12) = sector
    omega
  · show (sector - 12) % 4 = 0
    omega

theorem Books.ready {c' : Sb} (h : Books n c loc) (hb : b < n) (hloc : loc b = some .marking)
    (hsec : c'.sectorSize = c.sectorSize) (hflash : c'.flashSize = c.flashSize)
    (hbug : c'.bug = false) (hblocks : c'.blocks = update c.blocks b y)
    (hy : Fits c.sectorSize .own y) (hdirty : y.dirty = 0)
    (hsize : c'.size = (((c.shrink .erasing c.sectorSize).grow .free y.free).grow .used y.used).size) :
    Books n c' (update loc b (some (.list .free))) := by
  have hshare : share (loc b) = .erasing := by rw [hloc]; rfl
  have hgone := (h.fits b hb).gone (by rw [hshare]; decide)
  refine h.change hb hsec hflash hbug hblocks hy fun k => ?_
  have hk := h.size_lt k
  rw [hsize,hshare,hgone]
  cases k with
  | erasing =>
    simp only [size_shrink,size_grow,weight,share,reduceCtorEq,if_false,if_true]
    exact follows_gone hk
  | used | free =>
    simp only [size_shrink,size_grow,weight,reduceCtorEq,if_false,if_true]
    exact follows_new
  | dirty =>
    simp only [size_shrink,size_grow,weight,hdirty,reduceCtorEq,if_false]
    exact ⟨hk,trivial⟩
  | bad =>
    simp only [size_shrink,size_grow,weight,share,reduceCtorEq,if_false]
    exact ⟨hk,trivial⟩

end
end Simpad.Jffs2.Space
