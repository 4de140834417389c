import Simpad.Jffs2.Coherent
import Simpad.Jffs2.FileRun

namespace Simpad.Jffs2
open Word Segments Versioned List

variable {c : Codecs} {f f' : Inode} {e : ℕ}

/-- The value of a fragment once `new` has taken over from `fn`. -/
def takeOver (fn new : ℕ) (v : Option ℕ) : Option ℕ := if v = some fn then some new else v

/-- All fragments of `fn` turned into fragments of `new`. -/
def takeOverFrags (fn new : ℕ) (l : List Frag) : List Frag :=
  l.map fun frag => ⟨frag.ofs,frag.size,takeOver fn new frag.val⟩

variable {fn new i start stop victim n offset m : ℕ} {d : ℤ} {alloc : ℕ → ℕ} {ri : RawInode}
  {l : List Frag} {data₀ cdata : List Byte}

theorem takeOverFrags_of_zero (h : fragsOf l fn = 0) : takeOverFrags fn new l = l := by
  induction l with
  | nil => rfl
  | cons frag l ih =>
    rw [fragsOf_cons] at h
    have hne : frag.val ≠ some fn := by
      grind
    have hl : fragsOf l fn = 0 := by omega
    have ih := ih hl
    unfold takeOverFrags at ih ⊢
    rw [map_cons,ih,takeOver,if_neg hne]

/-- When the count says so, the loop has reached every fragment. -/
theorem repoint_spec (fn new limit : ℕ) (l : List Frag) :
    (repoint fn new limit l).2 ≤ fragsOf l fn ∧
    ((repoint fn new limit l).2 = fragsOf l fn →
      (repoint fn new limit l).1 = takeOverFrags fn new l) := by
  induction l with
  | nil => exact ⟨Nat.le_refl 0,fun _ => rfl⟩
  | cons frag l ih =>
    rw [repoint]
    split
    · exact ⟨Nat.zero_le _,fun h => (takeOverFrags_of_zero h.symm).symm⟩
    · by_cases hv : frag.val = some fn
      · simp only [hv,if_true,fragsOf_cons]
        refine ⟨by omega,fun h => ?_⟩
        rw [ih.2 (by omega)]
        simp [takeOverFrags,takeOver,hv]
      · simp only [hv,if_false,fragsOf_cons,add_zero]
        refine ⟨ih.1,fun h => ?_⟩
        rw [ih.2 h]
        simp [takeOverFrags,takeOver,hv]

theorem fragsOf_takeOverFrags (hne : fn ≠ new) (hnew : fragsOf l new = 0) (i : ℕ) :
    fragsOf (takeOverFrags fn new l) i =
      if i = new then fragsOf l fn else if i = fn then 0 else fragsOf l i := by
  induction l with
  | nil => simp [takeOverFrags]
  | cons frag l ih =>
    rw [fragsOf_cons] at hnew
    have ih := ih (by omega)
    have hfv : frag.val ≠ some new := by
      grind
    unfold takeOverFrags at ih ⊢
    rw [map_cons,fragsOf_cons,fragsOf_cons,fragsOf_cons,ih]
    simp only [takeOver]
    by_cases hv : frag.val = some fn
    · simp only [hv,if_true,Option.some.injEq]
      by_cases h₁ : i = new
      · subst h₁; simp
      · have h₁' : ¬new = i := fun h => h₁ h.symm
        by_cases h₂ : i = fn
        · grind
        · have h₂' : ¬fn = i := fun h => h₂ h.symm
          simp [h₁,h₁',h₂,h₂']
    · simp only [hv,if_false]
      by_cases h₁ : i = new
      · subst h₁; simp [hfv]
      · grind

/-- The inode after `new` took over from `fn` in the fragment list. -/
structure Replaced (f : Inode) (fn : ℕ) (ri : RawInode) (f' : Inode) : Prop where
  rest : f' = { f with st := f'.st, fraglist := f'.fraglist }
  node : NewNode f.st (.inode ri []) ri.offset f'.st
  list : f'.fraglist = takeOverFrags fn f.st.next f.fraglist
  counted : CountedBy f'.st (fragsOf f'.fraglist)
  obsolete : ∀ i, (f'.st.node i).obsolete =
    if i = f.st.next then false else ((f.st.node i).obsolete || decide (i = fn))

theorem Replaced.alive_iff (hr : Replaced f fn ri f') (i : ℕ) :
    f'.st.Alive i ↔ i = f.st.next ∨ (f.st.Alive i ∧ i ≠ fn) := by
  rw [Store.Alive,hr.node.next,hr.obsolete,Store.Alive]
  by_cases hi : i = f.st.next
  · subst hi
    simp
  · simp only [hi,if_false,false_or,Bool.or_eq_false_iff,decide_eq_false_iff_not]
    constructor
    · grind
    · grind

theorem Replaced.valueAt (hr : Replaced f fn ri f') (p : ℕ) :
    valueAt f'.fraglist p = (valueAt f.fraglist p).map (takeOver fn f.st.next) := by
  rw [hr.list]
  exact valueAt_map _

/-- The number under which a node goes on. -/
def heir (fn new i : ℕ) : ℕ := if i = fn then new else i

theorem takeOver_eq_map (fn new : ℕ) (v : Option ℕ) : takeOver fn new v = v.map (heir fn new) := by
  cases v with
  | none => rfl
  | some i =>
    by_cases hi : i = fn
    · rw [takeOver,if_pos (congrArg some hi),Option.map_some,heir,if_pos hi]
    · rw [takeOver,if_neg (by simpa using hi),Option.map_some,heir,if_neg hi]

theorem Replaced.visible (hr : Replaced f fn ri f') (p : ℕ) :
    visible f'.fraglist p = (visible f.fraglist p).map (heir fn f.st.next) := by
  rw [Jffs2.visible,Jffs2.visible,hr.valueAt]
  cases Segments.valueAt f.fraglist p with
  | none => rfl
  | some v => exact takeOver_eq_map fn f.st.next v

/-- The node `fn` and the one that takes over from it agree in all that is compared. -/
structure StandsIn (f : Inode) (fn : ℕ) (f' : Inode) : Prop where
  old : f.st.Alive fn
  ver : f'.st.ver f.st.next = f.st.ver fn
  cov : ∀ p, f'.st.Cov f.st.next p ↔ f.st.Cov fn p

section
variable {fn : ℕ} {ri : RawInode}

section
variable (hr : Replaced f fn ri f')
include hr

section
variable (hs : StandsIn f fn f')
include hs

theorem Replaced.alive_eq :
    f'.st.alive = heir fn f.st.next '' f.st.alive := by
  ext i
  constructor
  · intro hi
    rcases (hr.alive_iff i).mp hi with rfl | ⟨hi',hifn⟩
    · exact ⟨fn,hs.old,if_pos rfl⟩
    · exact ⟨i,hi',if_neg hifn⟩
  · rintro ⟨j,hj,rfl⟩
    apply (hr.alive_iff _).mpr
    by_cases hjfn : j = fn
    · exact Or.inl (if_pos hjfn)
    · rw [heir,if_neg hjfn]
      exact Or.inr ⟨hj,hjfn⟩

theorem Replaced.ver_heir (hi : f.st.Alive i) :
    f'.st.ver (heir fn f.st.next i) = f.st.ver i := by
  by_cases hifn : i = fn
  · rw [heir,if_pos hifn,hs.ver,hifn]
  · rw [heir,if_neg hifn,hr.node.ver_of_ne hi.ne_next]

theorem Replaced.cov_heir (hi : f.st.Alive i)
    (p : ℕ) : f'.st.Cov (heir fn f.st.next i) p ↔ f.st.Cov i p := by
  by_cases hifn : i = fn
  · rw [heir,if_pos hifn,hs.cov,hifn]
  · rw [heir,if_neg hifn,hr.node.cov_of_ne hi.ne_next]

theorem Replaced.distinct
    (h : Set.InjOn f.st.ver f.st.alive) : Set.InjOn f'.st.ver f'.st.alive := by
  rw [hr.alive_eq hs]
  apply Set.InjOn.image_of_comp
  exact h.congr fun i hi => (hr.ver_heir hs hi).symm

theorem Replaced.ver_le {k : ℕ}
    (hk : f.st.Alive k) (hmax : ∀ j, f.st.Alive j → f.st.ver j ≤ f.st.ver k) (hi : f'.st.Alive i) :
    f'.st.ver i ≤ f'.st.ver (heir fn f.st.next k) := by
  obtain ⟨j,hj,rfl⟩ : i ∈ heir fn f.st.next '' f.st.alive := hr.alive_eq hs ▸ hi
  rw [hr.ver_heir hs hj,hr.ver_heir hs hk]
  exact hmax j hj

end

end

end

section
variable (hr : Replaced f fn { ri with mode := f.mode, isize := f.isize } f')
  (hfn : fragsOf f.fraglist fn ≠ 0) (hraw : (f.st.node fn).raw = .inode ri data₀)
  (hold : ri.version ≠ f.highestVersion)
include hr hfn hraw hold

theorem Coherent.replace (h : Coherent f) : Coherent f' := by
  obtain ⟨e,he,ht⟩ := h.tiles
  have hmeta : f'.metadata = f.metadata := by rw [hr.rest]
  have hhv : f'.highestVersion = f.highestVersion := by rw [hr.rest]
  have hsz : f'.isize = f.isize := by rw [hr.rest]
  have hm : f'.mode = f.mode := by rw [hr.rest]
  have hfnalive := (h.listed fn).mpr (Or.inl hfn)
  have hfrags := fragsOf_takeOverFrags hfnalive.ne_next h.next_free.1
  rw [← hr.list] at hfrags
  have hn := hr.node
  have halive := hr.alive_iff
  have hmetafn : f.metadata ≠ some fn := fun hm => hfn (h.bare fn hm).1
  have hs : StandsIn f fn f' := by
    refine ⟨hfnalive,?_,fun p => ?_⟩
    · rw [hn.ver_next,Store.ver,hraw]
      rfl
    · rw [hn.cov_next,Store.Cov,hraw]
      rfl
  refine ⟨by rw [hsz]; exact h.small,⟨e,by rw [hsz]; exact he,?_⟩,hr.counted,?_,?_,?_,
    hr.distinct hs h.distinct,?_,?_,?_⟩
  · rw [hr.list]
    exact ht.map _
  · intro i
    rw [halive,hfrags,hmeta,h.listed]
    by_cases h₁ : i = f.st.next
    · subst h₁; simp [hfn]
    · grind
  · intro m hm
    rw [hmeta] at hm
    have h₁ : m ≠ f.st.next := fun h₁ => h.next_free.2 (h₁ ▸ hm)
    have h₂ : m ≠ fn := fun h₂ => hmetafn (h₂ ▸ hm)
    refine ⟨by rw [hfrags,if_neg h₁,if_neg h₂]; exact (h.bare m hm).1,fun p => ?_⟩
    rw [hn.cov_of_ne h₁]
    exact (h.bare m hm).2 p
  · intro i hi
    rw [hhv]
    rcases (halive i).mp hi with rfl | ⟨hi',-⟩
    · obtain ⟨ri₁,data₁,hraw₁,-,hfit,hle⟩ := h.data fn hfnalive
      obtain ⟨rfl,rfl⟩ : ri = ri₁ ∧ data₀ = data₁ := by grind
      refine ⟨_,[],(hn.raw _).trans (if_pos rfl),by rw [hn.ofs,if_pos rfl],hfit,hle⟩
    · obtain ⟨ri₁,data₁,hraw₁,hofs₁,hfit,hle⟩ := h.data i hi'
      exact ⟨ri₁,data₁,by rw [hn.raw,if_neg hi'.ne_next,hraw₁],
        by rw [hn.ofs,if_neg hi'.ne_next,hofs₁],hfit,hle⟩
  · intro p hp
    rw [hr.visible,hr.alive_eq hs]
    exact (h.top p (by rw [← hsz]; exact hp)).relabel (fun i hi => hr.ver_heir hs hi)
      fun i hi => hr.cov_heir hs hi p
  · obtain ⟨k,rik,datak,hk,hkv,hkraw,hki,hkm⟩ := h.latest
    have hmax := fun i (hi : f'.st.Alive i) => hr.ver_le hs hk hkv hi
    rw [hsz,hm]
    by_cases hkfn : k = fn
    · rw [heir,if_pos hkfn] at hmax
      exact ⟨f.st.next,_,[],(halive _).mpr (Or.inl rfl),hmax,by rw [hn.raw,if_pos rfl],rfl,rfl⟩
    · rw [heir,if_neg hkfn] at hmax
      exact ⟨k,rik,datak,(halive k).mpr (Or.inr ⟨hk,hkfn⟩),hmax,
        by rw [hn.raw,if_neg hk.ne_next]; exact hkraw,hki,hkm⟩
  · intro i hi hv
    rw [hhv] at hv
    -- the new node is not of the highest version, since the old one was not
    rcases (halive i).mp hi with rfl | ⟨hi',hifn⟩
    · rw [hs.ver,Store.ver,hraw] at hv
      exact absurd hv hold
    · rw [hfrags,if_neg hi'.ne_next,if_neg hifn]
      rw [hn.ver_of_ne hi'.ne_next] at hv
      exact h.whole i hi' hv

theorem Tracked.replace (h : Tracked d f) : Tracked d f' := by
  refine ⟨h.coherent.replace hr hfn hraw hold,?_,?_,?_⟩
  · rw [hr.rest]
    exact h.reg
  · rw [hr.rest]
    exact h.dents
  · have hhv : f'.highestVersion = f.highestVersion := by rw [hr.rest]
    have := h.young
    rw [hhv,hr.node.next]
    omega

end

theorem frags_lt (ht : Tiles 0 l e) (he : e < 4294967296) (i : ℕ) : fragsOf l i < 4294967296 := by
  have := fragsOf_le_length l i
  have := length_le_of_tiles ht
  omega

/-- The branch of `jffs2_garbage_collect_hole` that keeps the version. -/
theorem replaced_of_repoint {r : List Frag × ℕ} (hne : fn ≠ f.st.next)
    (hfree : fragsOf f.fraglist f.st.next = 0) (hc : CountedBy f.st (fragsOf f.fraglist))
    (hr₁ : r.1 = takeOverFrags fn f.st.next f.fraglist) (hr₂ : r.2 = fragsOf f.fraglist fn) :
    Replaced f fn ri { f.writeDnode ri [] with
      fraglist := r.1
      st := (((f.writeDnode ri []).st.setFrags f.st.next r.2).setFrags fn 0).markNodeObsolete fn } := by
  have hfrags := fragsOf_takeOverFrags hne hfree
  refine ⟨rfl,?_,hr₁,?_,?_⟩
  · exact (NewNode.append f.st ⟨.inode ri [],false,⟨ri.offset,ri.dsize,0⟩⟩).trans_same
      (((SameNodes.setFrags _ _ _).trans (.setFrags _ _ _)).trans (.markNodeObsolete _ _))
  · intro i hi
    simp only [hr₁,hr₂,hfrags,Inode.writeDnode] at hi ⊢
    rw [Store.markNodeObsolete_fn,Store.setFrags_fn]
    by_cases h₁ : i = fn
    · grind
    · rw [if_neg h₁,Store.setFrags_fn]
      by_cases h₂ : i = f.st.next
      · subst h₂
        simp
      · rw [if_neg h₂] at hi ⊢
        rw [if_neg h₁] at hi ⊢
        rw [Store.append_node,if_neg h₂,if_neg h₂]
        exact hc i hi
  · intro i
    simp only [Inode.writeDnode]
    rw [Store.markNodeObsolete_obsolete,Store.setFrags_obsolete,Store.setFrags_obsolete,
      Store.append_node]
    by_cases h₁ : i = fn
    · subst h₁
      simp [hne]
    · grind

theorem gcHoleNode_ok {hv : ℕ} (hok : gcHoleNode f fn start stop = .ok (ri,hv)) :
    (ri = f.holeNode start stop f.isize ∧ hv = f.nextVersion ∧
      (1 < (f.st.node fn).fn.frags → ∀ ri data, (f.st.node fn).raw = .inode ri data →
        ri.compr ≠ .zero)) ∨
    ∃ ri₀ data, (f.st.node fn).raw = .inode ri₀ data ∧ ri₀.compr = .zero ∧
      1 < (f.st.node fn).fn.frags ∧ ri = { ri₀ with mode := f.mode, isize := f.isize } ∧
      hv = f.highestVersion := by
  unfold gcHoleNode at hok
  by_cases hmany : 1 < (f.st.node fn).fn.frags
  · rw [if_pos hmany] at hok
    cases hraw : (f.st.node fn).raw with
    | dirent rd name => simp [hraw] at hok
    | inode ri₀ data =>
      simp only [hraw] at hok
      split at hok
      · cases hok
      · split at hok
        · next hz =>
          obtain ⟨rfl,rfl⟩ : f.holeNode start stop f.isize = ri ∧ f.nextVersion = hv := by
            simpa using hok
          grind
        · grind
  · grind

/-- The three ways out of `jffs2_garbage_collect_hole`: a new hole for the whole range, the old one
under the version that it shares with the newest node, or the old one under its own version. -/
theorem gcHole_cases (ht : Tiles 0 f.fraglist e) (he : e < 4294967296)
    (hc : CountedBy f.st (fragsOf f.fraglist)) (hfree : fragsOf f.fraglist f.st.next = 0)
    (hfn : fragsOf f.fraglist fn ≠ 0) (hok : gcHole f fn start stop = .ok f') :
    (f' = f.addNode (f.holeNode start stop f.isize) [] ∧
      (1 < fragsOf f.fraglist fn → ∀ ri data, (f.st.node fn).raw = .inode ri data →
        ri.compr ≠ .zero)) ∨
    ∃ ri data, (f.st.node fn).raw = .inode ri data ∧ ri.compr = .zero ∧
      1 < fragsOf f.fraglist fn ∧
      ((ri.version = f.highestVersion ∧ f' = f.addNode { ri with mode := f.mode, isize := f.isize } []) ∨
        ri.version ≠ f.highestVersion ∧
          Replaced f fn { ri with mode := f.mode, isize := f.isize } f') := by
  have hcount := hc fn hfn
  have hlt := frags_lt ht he fn
  have hne : fn ≠ f.st.next := fun hne => hfn (hne ▸ hfree)
  unfold gcHole at hok
  split at hok
  · cases hok
  · next ri hv hnode =>
    rcases gcHoleNode_ok hnode with ⟨rfl,rfl,hz⟩ | ⟨ri₀,data,hraw,hz,hmany,rfl,rfl⟩
    · have hver : (f.holeNode start stop f.isize).version = f.nextVersion := rfl
      rw [if_pos hver] at hok
      grind
    · refine Or.inr ⟨ri₀,data,hraw,hz,hcount ▸ hmany,?_⟩
      by_cases hver : ri₀.version = f.highestVersion
      · rw [if_pos hver] at hok
        grind
      · rw [if_neg hver] at hok
        simp only at hok
        have hrep := repoint_spec fn f.st.next
          (u32 ((f.st.node fn).fn.size + (f.st.node fn).fn.ofs)) f.fraglist
        split at hok
        · cases hok
        · next hbug =>
          rw [not_or,not_not,hcount,sub32_of_le hrep.1 hlt] at hbug
          have hall : (repoint fn f.st.next (u32 ((f.st.node fn).fn.size + (f.st.node fn).fn.ofs))
              f.fraglist).2 = fragsOf f.fraglist fn := by
            omega
          cases hok
          exact Or.inr ⟨hver,replaced_of_repoint hne hfree hc (hrep.2 hall) hall⟩

theorem gcHole_ok (h : Coherent f) (hfn : fragsOf f.fraglist fn ≠ 0)
    (hok : gcHole f fn start stop = .ok f') :
    (f' = f.addNode (f.holeNode start stop f.isize) [] ∧
      (1 < fragsOf f.fraglist fn → ∀ ri data, (f.st.node fn).raw = .inode ri data →
        ri.compr ≠ .zero)) ∨
    ∃ ri data, (f.st.node fn).raw = .inode ri data ∧ ri.compr = .zero ∧
      ri.version ≠ f.highestVersion ∧
      Replaced f fn { ri with mode := f.mode, isize := f.isize } f' := by
  obtain ⟨e,he,ht⟩ := h.tiles
  rcases gcHole_cases ht (lt_of_le_of_lt he h.small) h.counted h.next_free.1 hfn hok with
    hfill | ⟨ri,data,hraw,hz,hmany,⟨hver,-⟩ | ⟨hver,hr⟩⟩
  · exact Or.inl hfill
  · have := h.whole fn ((h.listed fn).mpr (Or.inl hfn)) (by rw [Store.ver,hraw]; exact hver)
    omega
  · grind

theorem victimRange_spec (ht : Tiles 0 f.fraglist e) (he : e < 4294967296)
    (hc : CountedBy f.st (fragsOf f.fraglist)) (hr : victimRange f victim = some (start,stop)) :
    ∃ a ∈ f.fraglist, ∃ b ∈ f.fraglist, a.val = some victim ∧ b.val = some victim ∧
      a.ofs = start ∧ b.stop = stop ∧ start < stop ∧ stop ≤ e ∧
      (fragsOf f.fraglist victim ≤ 1 → a = b) ∧
      ∀ frag ∈ f.fraglist, frag.val = some victim → start ≤ frag.ofs ∧ frag.stop ≤ stop := by
  have hfs : victimFrags f victim = f.fraglist.filter fun frag => frag.val = some victim := by
    unfold victimFrags
    simp only
    split
    · rfl
    · next hz =>
      by_cases hzero : fragsOf f.fraglist victim = 0
      · rw [fragsOf,countP_eq_length_filter,length_eq_zero_iff] at hzero
        rw [hzero,take_nil]
      · rw [hc victim hzero,fragsOf,countP_eq_length_filter,take_length]
  have hpair : (f.fraglist.filter fun frag => frag.val = some victim).Pairwise
      fun a b => a.stop ≤ b.ofs := ht.pairwise.filter _
  have hmem : ∀ frag, frag ∈ (f.fraglist.filter fun frag => frag.val = some victim) ↔
      frag ∈ f.fraglist ∧ frag.val = some victim := by simp
  have hlen : fragsOf f.fraglist victim =
      (f.fraglist.filter fun frag => frag.val = some victim).length :=
    countP_eq_length_filter
  unfold victimRange at hr
  rw [hfs] at hr
  generalize (f.fraglist.filter fun frag => frag.val = some victim) = fs at *
  split at hr
  · next a b ha hb =>
    obtain ⟨t,rfl⟩ := head?_eq_some_iff.mp ha
    have hma := (hmem a).mp mem_cons_self
    have hmb := (hmem b).mp (mem_of_getLast? hb)
    have hpa := (ht.mem_bounds hma.1).2.1
    have hpb := ht.mem_bounds hmb.1
    have hsa : a.stop = a.ofs + a.size := rfl
    have hsb : b.stop = b.ofs + b.size := rfl
    simp only [Option.some.injEq,Prod.mk.injEq] at hr
    rw [fend_eq_stop ht he hmb.1] at hr
    -- the list is ordered, so `a` is leftmost and `b` rightmost
    have hfirst : ∀ frag ∈ a :: t, a.ofs ≤ frag.ofs := by
      intro frag hf
      rcases mem_cons.mp hf with rfl | hf
      · exact le_rfl
      · have := rel_of_pairwise_cons hpair hf
        omega
    obtain ⟨ys,hys⟩ := getLast?_eq_some_iff.mp hb
    have hlast : ∀ frag ∈ a :: t, frag.stop ≤ b.stop := by
      intro frag hf
      rw [hys] at hf hpair
      rcases mem_append.mp hf with hf | hf
      · have := (pairwise_append.mp hpair).2.2 frag hf b (by simp)
        omega
      · obtain rfl : frag = b := by simpa using hf
        exact le_rfl
    have hab := hfirst b (mem_of_getLast? hb)
    refine ⟨a,hma.1,b,hmb.1,hma.2,hmb.2,hr.1,hr.2,by omega,by omega,?_,?_⟩
    · intro hone
      rw [hlen,length_cons] at hone
      obtain rfl : t = [] := length_eq_zero_iff.mp (by omega)
      simpa using hb
    · intro frag hf hv
      have hmf := (hmem frag).mpr ⟨hf,hv⟩
      have := hfirst frag hmf
      have := hlast frag hmf
      omega
  · cases hr

/-- Every reservation has room for data. -/
def Roomy (alloc : ℕ → ℕ) : Prop := ∀ k, sizeofRawInode < alloc k ∧ alloc k < 4294967296

/-- Rule for the loop of `jffs2_garbage_collect_dnode`: what every round keeps, and that it ends. -/
theorem gcDnodeLoop_rule (hc : c.Lawful) {pg : Page} {origEnd : ℕ}
    (halloc : Roomy alloc) (hstop : origEnd ≤ stop)
    (hsmall : stop < 4294967296) {P : Inode → ℕ → Prop}
    (hround : ∀ f offset t n cdata, P f offset → offset < origEnd → 0 < n → offset + n ≤ stop →
      t ≠ .zero → (gcDnodeNode f offset t n cdata).text c cdata =
        .ok ((pg.text (offset % 4096) (stop - offset)).take n) →
      P (f.addNode (gcDnodeNode f offset t n cdata) cdata) (offset + n))
    (fuel k offset : ℕ) (hfuel : origEnd ≤ offset + fuel) (hP : P f offset) :
    ∃ f' offset', gcDnodeLoop c pg alloc stop origEnd fuel k f offset = some f' ∧ P f' offset' ∧
      origEnd ≤ offset' := by
  induction fuel generalizing k f offset with
  | zero =>
    rw [gcDnodeLoop,if_neg (by omega)]
    exact ⟨f,offset,rfl,hP,by omega⟩
  | succ fuel ih =>
    rw [gcDnodeLoop]
    by_cases hlt : offset < origEnd
    · rw [if_pos hlt]
      have hsub : sub32 stop offset = stop - offset := sub32_of_le (by omega) hsmall
      have hroom : sub32 (alloc k) sizeofRawInode = alloc k - sizeofRawInode :=
        sub32_of_le (Nat.le_of_lt (halloc k).1) (halloc k).2
      have hlen : (pg.text (offset % 4096) (stop - offset)).length = stop - offset := by
        rw [Page.text,length_map,length_range]
      have hd : 0 < min (alloc k - sizeofRawInode) (stop - offset) := by
        have := (halloc k).1
        omega
      have hle : min (alloc k - sizeofRawInode) (stop - offset) ≤
          (pg.text (offset % 4096) (stop - offset)).length := by omega
      obtain ⟨t,n,cdata,hpack,hpos,hn,ht,htext⟩ := packData_spec hc hd hle
      rw [hlen] at hn
      simp only [hsub,hroom,hpack]
      rw [u32_of_lt (by omega)]
      exact ih _ _ (by omega) (hround f offset t n cdata hP hlt hpos (by omega) ht
        (htext _ rfl rfl rfl))
    · grind

theorem gcDnodeRange_spec (merge : Bool) (hstop : stop ≤ f.isize)
    (hpage : (stop - 1) / 4096 = start / 4096) : let r := gcDnodeRange f merge start stop
    r.1 ≤ start ∧ stop ≤ r.2 ∧ r.2 ≤ f.isize ∧ r.1 / 4096 = start / 4096 ∧
      r.2 ≤ start / 4096 * 4096 + 4096 := by
  unfold gcDnodeRange
  cases merge with
  | false =>
    grind
  | true =>
    simp only [if_true]
    refine ⟨by omega,by omega,by omega,by omega,?_⟩
    have hu : u32 (start - start % 4096 + 4096) ≤ start - start % 4096 + 4096 := Nat.mod_le _ _
    omega

theorem gcDnodeNode_fnSize {t : Compr} (ht : t ≠ .zero) :
    (gcDnodeNode f offset t n cdata).fnSize = n := by
  rw [RawInode.fnSize,if_neg]
  · rfl
  · exact fun h => ht h.1

theorem Tracked.gcDnodeRound {t : Compr} (h : Tracked d f)
    (hw : ((f.st.next + 1 : ℕ) : ℤ) + d < 4294967296) (hpos : 0 < n) (hend : offset + n ≤ f.isize)
    (ht : t ≠ .zero) :
    Tracked d (f.addNode (gcDnodeNode f offset t n cdata) cdata) ∧
      (f.addNode (gcDnodeNode f offset t n cdata) cdata).isize = f.isize :=
  h.addNode_inside hw rfl (gcDnodeNode_fnSize ht) hpos hend rfl rfl

theorem holeNode_fnSize (f : Inode) (isize : ℕ) (hlt : start < stop) (hstop : stop < 4294967296) :
    (f.holeNode start stop isize).fnSize = (f.holeNode start stop isize).dsize ∧
      (f.holeNode start stop isize).dsize = stop - start := by
  have hsub := sub32_of_le hlt.le hstop
  refine ⟨?_,hsub⟩
  rw [RawInode.fnSize,if_neg]
  rintro ⟨-,hz,-⟩
  change sub32 stop start = 0 at hz
  omega

theorem Tracked.gcHole (h : Tracked d f) (hfn : fragsOf f.fraglist fn ≠ 0) (hlt : start < stop)
    (hstop : stop ≤ f.isize) (hok : gcHole f fn start stop = .ok f')
    (hw : (f'.st.next : ℤ) + d < 4294967296) : Tracked d f' ∧ f'.isize = f.isize := by
  have hsmall := h.coherent.small
  rcases gcHole_ok h.coherent hfn hok with ⟨rfl,-⟩ | ⟨ri,data,hraw,-,hver,hr⟩
  · rw [Inode.addNode_next] at hw
    obtain ⟨hfs,hds⟩ := holeNode_fnSize f f.isize hlt (by omega)
    exact h.addNode_inside hw rfl hfs (by omega) (by change start + _ ≤ _; omega) rfl rfl
  · exact ⟨h.replace hr hfn hraw hver,by rw [hr.rest]⟩

theorem Tracked.gcMetadata_tagged (h : Tracked d f) (hm : f.metadata = some m)
    (ht : Tiles 0 f.fraglist e) (he : e ≤ f.isize) (hok : gcMetadata c f m = .ok f') :
    Tagged f (gcMetadataNode f []) e f.isize f' ∧ f'.mapping = f.mapping := by
  have hdata : gcMetadataData c f m = .ok [] := by simp only [gcMetadataData,h.reg]
  simp only [Simpad.Jffs2.gcMetadata,hdata,GcResult.ok.injEq] at hok
  have hfree := h.coherent.next_free
  have hmin : min e f.isize = e := by omega
  rw [← hok]
  refine ⟨?_,rfl⟩
  have hcount : CountedBy (f.st.append ⟨.inode (gcMetadataNode f []) [],false,⟨0,0,0⟩⟩)
      (fragsOf f.fraglist) := by
    intro i hi
    have hne : i ≠ f.st.next := fun hne => hi (hne ▸ hfree.1)
    rw [Store.append_node,if_neg hne]
    exact h.coherent.counted i hi
  have htag :=
    Inode.tag_spec f.mapping hfree.1 hfree.2 (by rw [hmin]; exact ht)
      (truncated_of_le ht he hcount)
  simp only [Inode.dropMetadata,hm] at htag
  exact htag

theorem Tracked.gcMetadata (h : Tracked d f) (hm : f.metadata = some m)
    (hok : gcMetadata c f m = .ok f') (hw : (f'.st.next : ℤ) + d < 4294967296) :
    Tracked d f' ∧ f'.isize = f.isize := by
  obtain ⟨e,he,ht⟩ := h.coherent.tiles
  have ha := (h.gcMetadata_tagged hm ht he hok).1
  rw [ha.node.next] at hw
  exact ⟨h.tag hw ha ht rfl rfl rfl rfl le_rfl rfl,by rw [ha.rest]⟩

section
variable {merge : Bool} {fresh : Page} (hc : c.Lawful)
  (halloc : Roomy alloc) (h : Tracked d f)
  (hw : (f'.st.next : ℤ) + d < 4294967296)
include hc halloc h hw

theorem Tracked.gcDnode
    (hstop : stop ≤ f.isize) (hpage : (stop - 1) / 4096 = start / 4096)
    (hok : gcDnode c f merge alloc fresh start stop = .ok f') :
    Tracked d f' ∧ f'.isize = f.isize := by
  have hsmall := h.coherent.small
  obtain ⟨h₁,h₂,h₃,-⟩ := gcDnodeRange_spec merge hstop hpage
  obtain ⟨pg,m,-,hok⟩ := gcDnode_ok hok
  -- the loop may assume that the versions last up to the state it ends in
  obtain ⟨f₁,offset',hloop,hP,-⟩ := gcDnodeLoop_rule hc halloc h₂ (by omega)
    (P := fun g _ => ((g.st.next : ℤ) + d < 4294967296 → Tracked d g ∧ g.isize = f.isize))
    (by
      intro g offset t n cdata hP _ hpos hend ht _ hw
      rw [Inode.addNode_next] at hw
      obtain ⟨hg,hsz⟩ := hP (by omega)
      obtain ⟨hg',hsz'⟩ := hg.gcDnodeRound hw hpos (show offset + n ≤ g.isize by omega) ht
      exact ⟨hg',hsz'.trans hsz⟩)
    (stop - (gcDnodeRange f merge start stop).1) 0 (gcDnodeRange f merge start stop).1
    (by omega) (fun _ => ⟨h.mapping m,rfl⟩)
  rw [hloop] at hok
  cases hok
  exact hP hw

theorem Tracked.gcPass (hok : gcPass c f victim merge alloc fresh = .ok f') :
    Tracked d f' ∧ f'.isize = f.isize := by
  have hsmall := h.coherent.small
  obtain ⟨e,he,ht⟩ := h.coherent.tiles
  cases hobs : (f.st.node victim).obsolete with
  | true =>
    rw [Simpad.Jffs2.gcPass,if_pos hobs] at hok
    cases hok
    exact ⟨h,rfl⟩
  | false =>
    rcases gcPass_cases hobs hok with ⟨hm,hok⟩ | ⟨-,start,stop,hr,hroute⟩ | ⟨-,-,fd,hfd,-⟩
    · exact h.gcMetadata hm hok hw
    · obtain ⟨a,ha,b,hb,hav,-,-,-,hlt,hle,-⟩ :=
        victimRange_spec ht (lt_of_le_of_lt he hsmall) h.coherent.counted hr
      rw [sub32_of_le (by omega) (by omega)] at hroute
      rcases hroute with ⟨-,hok⟩ | ⟨hx,hok⟩
      · exact h.gcHole (fragsOf_ne_zero.mpr ⟨a,ha,hav⟩) hlt (by omega) hok hw
      · exact h.gcDnode hc halloc hw (by omega) (by omega) hok
    · rw [h.dents] at hfd
      cases hfd

end

end Simpad.Jffs2
