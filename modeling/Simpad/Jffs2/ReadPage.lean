import Simpad.Jffs2.Coherent
import Simpad.Jffs2.File

namespace Simpad.Jffs2
open Word Segments List

def Backed (c : Codecs) (st : Store) (frag : Frag) : Prop :=
  ∀ i, frag.val = some i → (st.node i).fn.ofs ≤ frag.ofs ∧
    ∃ ri data, (st.node i).raw = .inode ri data ∧ ri.Sound c data ∧
      (ri.compr ≠ .zero → frag.stop ≤ (st.node i).fn.ofs + ri.dsize)

variable {c : Codecs} {st : Store} {l : List Frag} {frag : Frag} {pg : Page} {a b x p : ℕ}

variable {pos len offset stop i : ℕ} {bytes : List Byte}

theorem Page.store_ok (pg : Page) (h : pos + bytes.length ≤ 4096) :
    ∃ pg', pg.store pos bytes = .ok pg' ∧ ∀ k, pg' k =
      if pos ≤ k ∧ k < pos + bytes.length then bytes.getD (k - pos) 0 else pg k := by
  simp [Page.store,if_pos h]

theorem Page.clear_overrun (pg : Page) (h : 4096 < pos + len) :
    pg.clear pos len = .error .overrun := by
  rw [Page.clear,Page.store,if_neg]
  grind

theorem Page.clear_ok (pg : Page) (h : pos + len ≤ 4096) :
    ∃ pg', pg.clear pos len = .ok pg' ∧ ∀ k, pg' k = if pos ≤ k ∧ k < pos + len then 0 else pg k := by
  obtain ⟨pg',hok,hval⟩ := Page.store_ok pg
    (show pos + (replicate len (0 : Byte)).length ≤ 4096 by simpa using h)
  refine ⟨pg',hok,fun k => ?_⟩
  rw [hval]
  simp only [length_replicate]
  split
  · grind
  · rfl

theorem fragByte_cons_mem (h : frag.ofs ≤ p ∧ p < frag.stop) : fragByte c st (frag :: l) p =
    match frag.val with
    | none => 0
    | some i => (st.node i).raw.byte c (p - (st.node i).fn.ofs) := by
  rw [fragByte,visible,valueAt_cons_pos h.1 h.2]
  rfl

theorem fragByte_cons_not_mem (h : ¬(frag.ofs ≤ p ∧ p < frag.stop)) :
    fragByte c st (frag :: l) p = fragByte c st l p := by
  rw [fragByte,visible,valueAt_cons_neg h,fragByte,visible]

theorem readFrag_hole {pg' : Page} (h : ¬(frag.ofs < offset ∧ offset % 4096 ≠ 0))
    (hv : frag.val = none) (hok : pg.clear pos (sub32 (min stop (fend frag)) offset) = .ok pg') :
    readFrag c st frag offset stop pos pg = .ok (min stop (fend frag),
      u32 (pos + sub32 (min stop (fend frag)) offset),pg') := by
  simp [readFrag,if_neg h,hv,hok]

theorem readFrag_data {pg' : Page} (h : ¬(frag.ofs < offset ∧ offset % 4096 ≠ 0))
    (hv : frag.val = some i)
    (hread : readDnode c (st.node i).raw (sub32 frag.ofs (st.node i).fn.ofs)
      (min frag.size (sub32 stop offset)) = .ok bytes)
    (hok : pg.store pos bytes = .ok pg') :
    readFrag c st frag offset stop pos pg =
      .ok (u32 (offset + frag.size),u32 (pos + frag.size),pg') := by
  rw [readFrag,if_neg h,hv]
  simp only [hread,Except.mapError]
  change (pg.store pos bytes >>= _) = _
  rw [hok]
  rfl

theorem readFrag_spec (pg : Page) (hb : frag.stop < 4294967296) (hx : x ≤ frag.ofs)
    (hin : frag.ofs < x + 4096) (hx' : x + 4096 < 4294967296) (hpos : 0 < frag.size) (hback : Backed c st frag) :
    ∃ offset pg', readFrag c st frag frag.ofs (x + 4096) (frag.ofs - x) pg =
        .ok (offset,offset - x,pg') ∧
      (offset = frag.stop ∨ offset = x + 4096 ∧ x + 4096 ≤ frag.stop) ∧
      ∀ k < 4096, pg' k = if frag.ofs ≤ x + k ∧ x + k < frag.stop then
        fragByte c st [frag] (x + k) else pg k := by
  have hstop : frag.stop = frag.ofs + frag.size := rfl
  have hno : ¬(frag.ofs < frag.ofs ∧ frag.ofs % 4096 ≠ 0) := fun h => lt_irrefl _ h.1
  cases hv : frag.val with
  | none =>
    have hfend : fend frag = frag.stop := by
      exact u32_of_lt hb
    have hsub : sub32 (min (x + 4096) (fend frag)) frag.ofs = min (x + 4096) frag.stop - frag.ofs := by
      rw [hfend,sub32_of_le (by omega) (by omega)]
    obtain ⟨pg',hok,hval⟩ := Page.clear_ok pg
      (show frag.ofs - x + (min (x + 4096) frag.stop - frag.ofs) ≤ 4096 by omega)
    rw [← hsub] at hok
    refine ⟨min (x + 4096) frag.stop,pg',?_,by omega,fun k hk => ?_⟩
    · rw [readFrag_hole hno hv hok,hsub,hfend,u32_of_lt (by omega)]
      congr 3
      omega
    · rw [hval]
      by_cases hm : frag.ofs ≤ x + k ∧ x + k < frag.stop
      · rw [if_pos (by omega),if_pos hm,fragByte_cons_mem hm,hv]
      · grind
  | some i =>
    obtain ⟨hofs,ri,data,hraw,hsound,hfit⟩ := hback i hv
    have hsub :=
      sub32_of_le hofs (by omega)
    have hlen : min frag.size (sub32 (x + 4096) frag.ofs) = min frag.size (x + 4096 - frag.ofs) := by
      rw [sub32_of_le (by omega) hx']
    obtain ⟨bytes,hread,hbytes,hval⟩ := readDnode_spec hsound
      (show ri.compr ≠ .zero → frag.ofs - (st.node i).fn.ofs + min frag.size (x + 4096 - frag.ofs) ≤
        ri.dsize from fun hz => by have := hfit hz; omega)
    rw [← hraw,← hsub,← hlen] at hread
    obtain ⟨pg',hok,hpg⟩ := Page.store_ok pg (show frag.ofs - x + bytes.length ≤ 4096 by omega)
    refine ⟨frag.stop,pg',?_,Or.inl rfl,fun k hk => ?_⟩
    · rw [readFrag_data hno hv hread hok,u32_of_lt (by omega),u32_of_lt (by omega)]
      congr 3
      omega
    · rw [hpg]
      by_cases hm : frag.ofs ≤ x + k ∧ x + k < frag.stop
      · rw [if_pos (by omega),if_pos hm,fragByte_cons_mem hm,hv,hval _ (by omega)]
        grind
      · grind

theorem readFrags_done (h : stop ≤ offset) : readFrags c st stop l offset pos pg = .ok pg := by
  cases l with
  | nil => rw [readFrags,if_neg (by omega)]
  | cons frag l => rw [readFrags,if_neg (by omega)]

theorem readFrags_nil (c : Codecs) (st : Store) (pg : Page) (hx : x ≤ offset)
    (hx' : x + 4096 < 4294967296) :
    ∃ pg', readFrags c st (x + 4096) [] offset (offset - x) pg = .ok pg' ∧
      ∀ k < 4096, pg' k = if x + k < offset then pg k else 0 := by
  by_cases hin : offset < x + 4096
  · obtain ⟨pg',hok,hval⟩ := Page.clear_ok pg
      (show offset - x + (x + 4096 - offset) ≤ 4096 by omega)
    refine ⟨pg',?_,fun k hk => ?_⟩
    · rw [readFrags,if_pos hin,sub32_of_le (by omega) hx',hok]
    · grind
  · exact ⟨pg,readFrags_done (by omega),fun k hk => by rw [if_pos (by omega)]⟩

theorem readFrags_cons {r : ℕ × ℕ × Page} (hin : offset < stop) (hofs : frag.ofs ≤ offset)
    (hpos : u32 pos = pos) (hok : readFrag c st frag offset stop pos pg = .ok r) :
    readFrags c st stop (frag :: l) offset pos pg = readFrags c st stop l r.1 r.2.1 r.2.2 := by
  have hno := not_lt.mpr hofs
  rw [readFrags,if_pos hin]
  simp only [hno,if_false,add_zero,hin,if_true,hpos]
  change (readFrag c st frag offset stop pos pg >>= _) = _
  rw [hok]
  rfl

theorem readFrags_gap_error {err : PageError} (hin : offset < stop) (hgap : offset < frag.ofs)
    (herr : pg.clear pos (min (sub32 stop offset) (sub32 frag.ofs offset)) = .error err) :
    readFrags c st stop (frag :: l) offset pos pg = .error err := by
  rw [readFrags,if_pos hin]
  simp only [hgap,if_true]
  rw [herr]
  rfl

/-- From a fragment that starts in the page on, the page gets what the list says. -/
theorem readFrags_spec (pg : Page) (ht : Tiles a l b) (hb : b < 4294967296) (hx : x ≤ a)
    (hx' : x + 4096 < 4294967296) (hl : ∀ frag ∈ l, frag.ofs < x + 4096 → Backed c st frag) :
    ∃ pg', readFrags c st (x + 4096) l a (a - x) pg = .ok pg' ∧
      ∀ k < 4096, pg' k = if x + k < a then pg k else fragByte c st l (x + k) := by
  induction l generalizing a pg with
  | nil => exact readFrags_nil c st pg hx hx'
  | cons frag l ih =>
    obtain ⟨rfl,hsize,ht'⟩ := ht
    by_cases hin : frag.ofs < x + 4096
    · have hle := ht'.le
      have hstop : frag.stop = frag.ofs + frag.size := rfl
      obtain ⟨offset,pg₁,hok,hoff,hval⟩ := readFrag_spec pg (by omega) hx hin hx' hsize
        (hl frag mem_cons_self hin)
      -- a hole stops at the end of the page, a node is advanced over as a whole
      obtain ⟨pg₂,hok₂,hval₂⟩ : ∃ pg₂,
          readFrags c st (x + 4096) l offset (offset - x) pg₁ = .ok pg₂ ∧
          ∀ k < 4096, pg₂ k = if x + k < frag.stop then pg₁ k else fragByte c st l (x + k) := by
        rcases hoff with rfl | ⟨rfl,hend⟩
        · exact ih pg₁ ht' (by omega) fun frag hf => hl frag (mem_cons_of_mem _ hf)
        · exact ⟨pg₁,readFrags_done le_rfl,fun k hk => by rw [if_pos (by omega)]⟩
      refine ⟨pg₂,?_,fun k hk => ?_⟩
      · rw [readFrags_cons hin le_rfl (u32_of_lt (by omega)) hok]
        exact hok₂
      · rw [hval₂ k hk]
        by_cases hm : frag.ofs ≤ x + k ∧ x + k < frag.stop
        · rw [if_pos hm.2,hval k hk,if_pos hm,if_neg (by omega),fragByte_cons_mem hm,
            fragByte_cons_mem hm]
        · rw [fragByte_cons_not_mem hm,hval k hk,if_neg hm]
          grind
    · exact ⟨pg,readFrags_done (by omega),fun k hk => by rw [if_pos (by omega)]⟩

def pageFrags (l : List Frag) (index : ℕ) : List Frag :=
  l.dropWhile fun frag => fend frag ≤ index * 4096

/-- `jffs2_do_readpage_nolock` gets to the end of the page: the first fragment starts in the page,
or is a hole in the list, or is long enough, or is the last one. -/
def Readable (l : List Frag) (index : ℕ) : Prop :=
  index + 1 < 1048576 ∧
  match pageFrags l index with
  | [] => True
  | frag :: next => index * 4096 ≤ frag.ofs ∨ frag.val = none ∨
    (index * 4096 + frag.size < 4294967296 ∧ (4096 ≤ frag.size ∨ next = []))

instance (l : List Frag) (index : ℕ) : Decidable (Readable l index) := by
  unfold Readable
  cases pageFrags l index <;> infer_instance

variable {f : Inode} {index e : ℕ}

theorem doReadpageNolock_eq (hP : index + 1 < 1048576) : doReadpageNolock c f index pg =
    readFrags c f.st (index * 4096 + 4096) (pageFrags f.fraglist index) (index * 4096) 0 pg := by
  have hofs : u32 (index * 4096) = index * 4096 := u32_of_lt (by omega)
  have hend : u32 (index * 4096 + 4096) = index * 4096 + 4096 := u32_of_lt (by omega)
  rw [doReadpageNolock]
  simp only [hofs,hend]
  rfl

theorem pageFrags_spec (ht : Tiles 0 l e) (he : e < 4294967296) (index : ℕ) :
    ∃ m ≤ index * 4096, Tiles m (pageFrags l index) e ∧
      (∀ frag ∈ pageFrags l index, frag ∈ l) ∧
      (∀ frag next, pageFrags l index = frag :: next → frag.ofs = m ∧ index * 4096 < frag.stop) ∧
      ∀ p, index * 4096 ≤ p → valueAt (pageFrags l index) p = valueAt l p := by
  unfold pageFrags
  rw [dropWhile_fend ht he]
  obtain ⟨m,ht₁,ht₂,hm,hhead⟩ := ht.cut (index * 4096)
  refine ⟨m,by omega,ht₂,fun frag hf => dropWhile_subset _ hf,hhead,fun p hp => ?_⟩
  conv_rhs => rw [← takeWhile_append_dropWhile (p := fun s : Frag => s.stop ≤ index * 4096) (l := l)]
  exact (ht₁.valueAt_append_ge (by omega)).symm

theorem readFrags_gap_head (hx : x % 4096 = 0) (hofs : frag.ofs ≤ x) (hstop : x < frag.stop)
    (hv : frag.val = none) :
    readFrags c st stop (frag :: l) x pos pg =
      readFrags c st stop (⟨x,frag.stop - x,none⟩ :: l) x pos pg := by
  have hfend : fend ⟨x,frag.stop - x,none⟩ = fend frag := by
    rw [fend,fend,Nat.add_sub_cancel' hstop.le]
    rfl
  have hfrag : ∀ pos pg, readFrag c st frag x stop pos pg =
      readFrag c st ⟨x,frag.stop - x,none⟩ x stop pos pg := by
    intro pos pg
    rw [readFrag,readFrag,if_neg (fun h => h.2 hx),if_neg (fun h => h.2 hx),hv,hfend]
  have hno := not_lt.mpr hofs
  rw [readFrags,readFrags]
  grind

theorem readpage_aligned (pg : Page) (ht : Tiles 0 f.fraglist e) (he : e < 4294967296)
    (hback : ∀ frag ∈ pageFrags f.fraglist index, frag.ofs < index * 4096 + 4096 → Backed c f.st frag)
    (hP : index + 1 < 1048576)
    (hal : ∀ frag next, pageFrags f.fraglist index = frag :: next →
      index * 4096 ≤ frag.ofs ∨ frag.val = none) :
    ∃ pg', doReadpageNolock c f index pg = .ok pg' ∧
      ∀ k < 4096, pg' k = f.byteAt c (index * 4096 + k) := by
  have hx' : index * 4096 + 4096 < 4294967296 := by omega
  obtain ⟨m,hm,ht',-,hhead,hval⟩ := pageFrags_spec ht he index
  have hbyte : ∀ k, f.byteAt c (index * 4096 + k) =
      fragByte c f.st (pageFrags f.fraglist index) (index * 4096 + k) := fun k => by
    simp [Inode.byteAt,fragByte,visible,hval _ (Nat.le_add_right _ _)]
  rw [doReadpageNolock_eq hP]
  generalize pageFrags f.fraglist index = l at *
  cases l with
  | nil =>
    obtain ⟨pg',hok,hpg⟩ := readFrags_nil c f.st pg (Nat.le_refl (index * 4096)) hx'
    rw [Nat.sub_self] at hok
    refine ⟨pg',hok,fun k hk => ?_⟩
    rw [hpg k hk,if_neg (by omega),hbyte]
    rfl
  | cons frag next =>
    obtain ⟨hofs,hstop⟩ := hhead frag next rfl
    rcases hal frag next rfl with hle | hv
    · obtain rfl : m = index * 4096 := by omega
      obtain ⟨pg',hok,hpg⟩ := readFrags_spec pg ht' he le_rfl hx' hback
      rw [Nat.sub_self] at hok
      refine ⟨pg',hok,fun k hk => ?_⟩
      rw [hpg k hk,if_neg (by omega),hbyte]
    · -- the part of the gap before the page makes no difference
      have hend : (⟨index * 4096,frag.stop - index * 4096,none⟩ : Frag).stop = frag.stop :=
        Nat.add_sub_cancel' hstop.le
      have hcut : Tiles (index * 4096) (⟨index * 4096,frag.stop - index * 4096,none⟩ :: next) e := by
        refine ⟨rfl,Nat.sub_pos_of_lt hstop,?_⟩
        rw [hend]
        exact ht'.2.2
      obtain ⟨pg',hok,hpg⟩ := readFrags_spec pg hcut he le_rfl hx' (by
        intro g hg hlt i hi
        rcases mem_cons.mp hg with rfl | hg
        · cases hi
        · exact hback g (mem_cons_of_mem _ hg) hlt i hi)
      rw [Nat.sub_self,← readFrags_gap_head (Nat.mul_mod_left _ _) (by omega) hstop hv] at hok
      refine ⟨pg',hok,fun k hk => ?_⟩
      rw [hpg k hk,if_neg (by omega),hbyte]
      by_cases hin : index * 4096 + k < frag.stop
      · rw [fragByte_cons_mem ⟨Nat.le_add_right _ _,hin.trans_eq hend.symm⟩,
          fragByte_cons_mem ⟨by omega,hin⟩,hv]
      · rw [fragByte_cons_not_mem fun h => hin (h.2.trans_eq hend),
          fragByte_cons_not_mem fun h => hin h.2]

def IsZero (st : Store) (frag : Frag) : Prop :=
  ∃ i ri data, frag.val = some i ∧ (st.node i).raw = .inode ri data ∧ ri.compr = .zero

theorem IsZero.read (hz : IsZero st frag) : ∃ i, frag.val = some i ∧ ∀ ofs len,
    readDnode c (st.node i).raw ofs len = .ok (replicate len 0) := by
  obtain ⟨i,ri,data,hv,hraw,hzero⟩ := hz
  refine ⟨i,hv,fun ofs len => ?_⟩
  rw [hraw]
  simp only [readDnode,hzero,if_true]

section
variable {next : List Frag} {m i : ℕ} {bytes : List Byte} (hx : x % 4096 = 0)
  (hx' : x + 4096 < 4294967296) (ht : Tiles m (frag :: next) e) (he : e < 4294967296)
  (hlt : frag.ofs < x) (hv : frag.val = some i)
  (hread : readDnode c (st.node i).raw (sub32 frag.ofs (st.node i).fn.ofs) (min frag.size 4096) =
    .ok bytes) (hlen : bytes.length = min frag.size 4096)
include hx hx' ht he hlt hv hread hlen

theorem readFrags_straddle (pg : Page) : ∃ pg',
    readFrags c st (x + 4096) (frag :: next) x 0 pg =
      readFrags c st (x + 4096) next (u32 (x + frag.size)) frag.size pg' ∧
    ∀ k < 4096, k < frag.size → pg' k = bytes.getD k 0 := by
  have hstop : frag.stop = frag.ofs + frag.size := rfl
  have hle := ht.2.2.le
  have hmin : min frag.size (sub32 (x + 4096) x) = min frag.size 4096 := by
    rw [sub32_of_le (by omega) hx',Nat.add_sub_cancel_left]
  rw [← hmin] at hread
  obtain ⟨pg',hok,hval⟩ := Page.store_ok pg (show 0 + bytes.length ≤ 4096 by omega)
  refine ⟨pg',?_,fun k hk hks => ?_⟩
  · have hfrag := readFrag_data (by omega) hv hread hok
    rw [readFrags_cons (by omega) hlt.le rfl hfrag,zero_add,
      u32_of_lt (show frag.size < 4294967296 by omega)]
  · grind

theorem readFrags_straddle_ok (pg : Page) (hfit : x + frag.size < 4294967296)
    (hlong : 4096 ≤ frag.size ∨ next = []) :
    ∃ pg', readFrags c st (x + 4096) (frag :: next) x 0 pg = .ok pg' ∧
      ∀ k < 4096, pg' k = bytes.getD k 0 := by
  obtain ⟨pg₁,heq,hval⟩ := readFrags_straddle hx hx' ht he hlt hv hread hlen pg
  rw [u32_of_lt hfit] at heq
  rw [heq]
  by_cases hsize : 4096 ≤ frag.size
  · exact ⟨pg₁,readFrags_done (by omega),fun k hk => hval k hk (by omega)⟩
  · obtain rfl := hlong.resolve_left hsize
    obtain ⟨pg₂,hok,hval₂⟩ := readFrags_nil c st pg₁ (Nat.le_add_right x frag.size) hx'
    grind

theorem readFrags_straddle_overrun (pg : Page) (hwrap : 4294967296 ≤ x + frag.size) :
    readFrags c st (x + 4096) (frag :: next) x 0 pg = .error .overrun := by
  obtain ⟨pg₁,heq,-⟩ := readFrags_straddle hx hx' ht he hlt hv hread hlen pg
  have hstop : frag.stop = frag.ofs + frag.size := rfl
  have hle := ht.2.2.le
  obtain ⟨o,ho⟩ := Nat.exists_eq_add_of_le' hwrap
  have hu : u32 (x + frag.size) = o := by
    rw [ho,u32,Nat.add_mod_right]
    omega
  rw [heq,hu]
  cases next with
  | nil =>
    rw [readFrags,if_pos (by omega),sub32_of_le (by omega) hx',Page.clear_overrun pg₁ (by omega)]
  | cons g next =>
    have hg := ht.2.2.1
    have hgap : o < g.ofs := by omega
    have hge := lt_of_le_of_lt (le_trans (Nat.le_add_right _ _) ht.2.2.2.2.le) he
    refine readFrags_gap_error (by omega) hgap ?_
    rw [sub32_of_le (by omega) hx',sub32_of_le hgap.le hge]
    have hmin : 0 < min (x + 4096 - o) (g.ofs - o) := by
      clear ht
      omega
    exact Page.clear_overrun pg₁ (by omega)

theorem readFrags_straddle_overlap (pg : Page) {g : Frag} {rest : List Frag} (hnext : next = g :: rest)
    (hshort : frag.size < 4096) :
    readFrags c st (x + 4096) (frag :: next) x 0 pg = .error (.errno .eio) := by
  obtain ⟨pg₁,heq,-⟩ := readFrags_straddle hx hx' ht he hlt hv hread hlen pg
  have hpos := ht.2.1
  subst hnext
  have hg : g.ofs = frag.ofs + frag.size := ht.2.2.1
  rw [heq,u32_of_lt (by omega),readFrags,if_pos (by omega)]
  have hno : ¬x + frag.size < g.ofs := by omega
  have hin : x + frag.size < x + 4096 := by omega
  have hfrag : readFrag c st g (x + frag.size) (x + 4096) (u32 frag.size) pg₁ = .error (.errno .eio) := by
    rw [readFrag,if_pos (by omega)]
  simp only [hno,if_false,add_zero,hin,if_true]
  change (readFrag c st g (x + frag.size) (x + 4096) (u32 frag.size) pg₁ >>= _) = _
  rw [hfrag]
  rfl

end

theorem readpage_straddle {frag : Frag} {next : List Frag} (pg : Page) (ht : Tiles 0 f.fraglist e)
    (he : e < 4294967296) (hP : index + 1 < 1048576)
    (hfrags : pageFrags f.fraglist index = frag :: next) (hlt : frag.ofs < index * 4096)
    (hv : frag.val = some i)
    (hread : readDnode c (f.st.node i).raw (sub32 frag.ofs (f.st.node i).fn.ofs)
      (min frag.size 4096) = .ok bytes)
    (hlen : bytes.length = min frag.size 4096) :
    (Readable f.fraglist index →
      ∃ pg', doReadpageNolock c f index pg = .ok pg' ∧ ∀ k < 4096, pg' k = bytes.getD k 0) ∧
    (¬Readable f.fraglist index → ∃ err, doReadpageNolock c f index pg = .error err) := by
  have hx : index * 4096 % 4096 = 0 := Nat.mul_mod_left _ _
  have hx' : index * 4096 + 4096 < 4294967296 := by omega
  obtain ⟨m,-,ht',-⟩ := pageFrags_spec ht he index
  rw [hfrags] at ht'
  have hiff : Readable f.fraglist index ↔
      index * 4096 + frag.size < 4294967296 ∧ (4096 ≤ frag.size ∨ next = []) := by
    rw [Readable,hfrags]
    simp only [hP,true_and,hv,reduceCtorEq,false_or]
    exact or_iff_right (not_le.mpr hlt)
  rw [hiff,doReadpageNolock_eq hP,hfrags]
  constructor
  · rintro ⟨hfit,hlong⟩
    exact readFrags_straddle_ok hx hx' ht' he hlt hv hread hlen pg hfit hlong
  · intro hno
    by_cases hfit : index * 4096 + frag.size < 4294967296
    · have hshort : ¬(4096 ≤ frag.size ∨ next = []) := fun h => hno ⟨hfit,h⟩
      rw [not_or] at hshort
      obtain ⟨g,rest,hnext⟩ := exists_cons_of_ne_nil hshort.2
      exact ⟨_,readFrags_straddle_overlap hx hx' ht' he hlt hv hread hlen pg hnext (by omega)⟩
    · exact ⟨_,readFrags_straddle_overrun hx hx' ht' he hlt hv hread hlen pg (by omega)⟩

end Simpad.Jffs2
