import Simpad.Jffs2.SpaceBooks

namespace Simpad.Jffs2.Space
open Word Function Runs

structure Moved (n : ℕ) (c : Sb) (loc : ℕ → Option Place) (c' : Sb) (loc' : ℕ → Option Place) :
    Prop where
  kept : Kept n c' loc'
  stays : ∀ j, loc j ≠ none → loc' j ≠ none
  books : Books n c loc → Books n c' loc'

variable {n : ℕ} {c c' : Sb} {loc loc' : ℕ → Option Place} {b : ℕ}

theorem Moved.refl (h : Kept n c loc) : Moved n c loc c loc := ⟨h,fun _ hj => hj,fun hb => hb⟩

theorem Moved.trans {c'' : Sb} {loc'' : ℕ → Option Place} (h : Moved n c loc c' loc')
    (h' : Moved n c' loc' c'' loc'') : Moved n c loc c'' loc'' :=
  ⟨h'.kept,fun j hj => h'.stays j (h.stays j hj),fun hb => h'.books (h.books hb)⟩

theorem stays_update {p : Place} (j : ℕ) (hj : loc j ≠ none) :
    update loc b (some p) j ≠ none := by
  grind

theorem Moved.of_update {p : Place} (hk : Kept n c' (update loc b (some p)))
    (hb : Books n c loc → Books n c' (update loc b (some p))) :
    Moved n c loc c' (update loc b (some p)) := ⟨hk,stays_update,hb⟩

theorem Kept.loc_next (h : Kept n c loc) (hn : c.nextblock = some b) : loc b = some .next :=
  h.loc_of_mem (by simp [Sb.cells,hn])

theorem Kept.loc_gc (h : Kept n c loc) (hn : c.gcblock = some b) : loc b = some .gc :=
  h.loc_of_mem (by simp [Sb.cells,hn])

theorem Kept.loc_marking (h : Kept n c loc) (hn : c.marking = some b) : loc b = some .marking :=
  h.loc_of_mem (by simp [Sb.cells,hn])

theorem moved_closeNext (h : Kept n c loc) (hn : c.nextblock = some b) :
    Moved n c loc (c.closeNext b) (update loc b (some (.list .dirty))) :=
  .of_update (h.closeNext hn) fun hb => hb.closeNext (h.lt (h.loc_next hn)) (h.loc_next hn)

theorem moved_openNext (h : Kept n c loc) (hn : c.nextblock = none)
    (hk : (c.lists .free).head? = some b) :
    Moved n c loc (c.openNext b) (update loc b (some .next)) := by
  have hloc := h.loc_of_head hk
  refine .of_update (h.openNext hn hk) fun hb => ?_
  exact hb.relocate (h.lt hloc) (by rw [hloc]; rfl) rfl rfl rfl rfl rfl

theorem moved_refill (minsize : ℕ) (h : Kept n c loc) (hn : c.nextblock = none) :
    ∃ loc', Moved n c loc (c.refill minsize (c.lists .free)) loc' := by
  -- the free list is consumed block by block
  induction hl : c.lists .free generalizing c loc with
  | nil => exact ⟨loc,.refl h⟩
  | cons b rest ih =>
    have hopen := moved_openNext h hn (by rw [hl]; rfl : (c.lists .free).head? = some b)
    rw [Sb.refill]
    split_ifs
    · have hclose := moved_closeNext hopen.kept (rfl : (c.openNext b).nextblock = some b)
      have hrest : ((c.openNext b).closeNext b).lists .free = rest := by
        show update (update c.lists .free (c.lists .free).tail) .dirty
          (update c.lists .free (c.lists .free).tail .dirty ++ [b]) .free = rest
        grind
      obtain ⟨loc',hm⟩ := ih hclose.kept rfl hrest
      exact ⟨loc',(hopen.trans hclose).trans hm⟩
    · exact ⟨_,hopen⟩

theorem moved_reserve (minsize : ℕ) (h : Kept n c loc) :
    ∃ loc', Moved n c loc (c.doReserveSpace minsize) loc' := by
  rw [Sb.doReserveSpace]
  split
  · rename_i b hn
    split_ifs
    · have hclose := moved_closeNext h hn
      have hfree : (c.closeNext b).lists .free = c.lists .free := by
        rfl
      obtain ⟨loc',hm⟩ := moved_refill minsize hclose.kept rfl
      exact ⟨loc',hclose.trans hm⟩
    · exact ⟨loc,.refl h⟩
  · rename_i hn
    exact moved_refill minsize h hn

theorem Kept.setBug (h : Kept n c loc) : Kept n { c with bug := true } loc :=
  ⟨h.located,h.inside,h.refs,h.marker,h.nrFree⟩

theorem Moved.check {y : Eraseblock} (h : Moved n c loc c' loc') (hb : b < n)
    (hown : share (loc' b) = .own) (hy : c'.blocks b = y) :
    Moved n c loc (if c'.sane y && y.paranoia then c' else { c' with bug := true }) loc' := by
  subst hy
  split_ifs with hs
  · exact h
  · refine ⟨h.kept.setBug,h.stays,fun hbooks => absurd ?_ hs⟩
    obtain ⟨h₁,h₂⟩ := (h.books hbooks).sane hb hown
    rw [h₁,h₂]
    rfl

/-- A node is added to `nextblock`, which stays or is filed as clean. -/
theorem moved_addNode {len : ℕ} {dirty : Bool} {y : Eraseblock} (h : Kept n c loc)
    (hn : c.nextblock = some b) (hlen : Books n c loc → len ≤ (c.blocks b).free)
    (hal : len % 4 = 0)
    (hy : (c.blocks b).addNode len dirty = y)
    (hc : ((c.shrink .free len).grow (if dirty then .dirty else .used) len).setBlock b y = c') :
    Moved n c loc c' loc ∧
    Moved n c loc { c'.listAddTail .clean b with nextblock := none }
      (update loc b (some (.list .clean))) := by
  have hloc := h.loc_next hn
  have hown : share (loc b) = .own := by rw [hloc]; rfl
  have hcells : c'.cells = c.cells := by rw [← hc]; rfl
  have hblocks : c'.blocks = update c.blocks b y := by rw [← hc]; rfl
  have hnr : c'.nrFree = c.nrFree := by rw [← hc]; rfl
  have hbooks (hb : Books n c loc) : Books n c' loc :=
    hc ▸ hb.addNode (h.lt hloc) hown (hlen hb) hal hy
  refine ⟨⟨?_,fun _ hj => hj,hbooks⟩,.of_update (h.closeClean hn hcells hblocks hnr) fun hb => ?_⟩
  · refine h.rewrite hcells hblocks (fun hs => absurd hown hs) (fun hf => ?_) hnr
    rw [hloc] at hf
    cases hf
  · refine (hbooks hb).relocate (h.lt hloc) ?_ rfl rfl rfl rfl rfl
    rw [hown]
    rfl

theorem moved_addRef {ofs len : ℕ} {dirty : Bool} (h : Kept n c loc)
    (hlen : len ≤ (c.blocks (ofs / c.sectorSize)).free) :
    ∃ loc', Moved n c loc (c.addPhysicalNodeRef ofs len dirty) loc' := by
  simp only [Sb.addPhysicalNodeRef]
  generalize ofs / c.sectorSize = b at hlen ⊢
  generalize hy : (c.blocks b).addNode (pad4 len) dirty = y
  generalize hc : ((c.shrink .free (pad4 len)).grow (if dirty then .dirty else .used)
    (pad4 len)).setBlock b y = c'
  by_cases hn : c.nextblock = some b
  · have hloc := h.loc_next hn
    have hblk : c'.blocks b = y := by
      rw [← hc]
      exact update_self _ _ _
    have hpad (hb : Books n c loc) : pad4 len ≤ (c.blocks b).free := by
      have hf := hb.fits b (h.lt hloc)
      have := hf.total (by rw [hloc]; rfl)
      have := hb.sector_lt (h.lt hloc)
      exact pad4_le hlen hf.aligned (by omega)
    obtain ⟨hstay,hclean⟩ := moved_addNode h hn hpad (four_dvd_pad4 len) hy hc
    split
    · exact ⟨loc,.refl h⟩
    · by_cases hfull : y.free = 0 ∧ y.dirty = 0
      · rw [if_pos hfull]
        refine ⟨_,hclean.check (h.lt hloc) ?_ hblk⟩
        rw [update_self]
        rfl
      · rw [if_neg hfull]
        exact ⟨loc,hstay.check (h.lt hloc) (by rw [hloc]; rfl) hblk⟩
  · rw [if_pos (Or.inl hn)]
    exact ⟨loc,.refl h⟩

theorem moved_obsolete {i : ℕ} (h : Kept n c loc)
    (hl : c.gcblock = some b ∨ ∀ ref ∈ (c.blocks b).refs[i]?, ref.inode = true) :
    ∃ loc', Moved n c loc (c.markNodeObsolete b i) loc' := by
  rw [Sb.markNodeObsolete]
  split
  · exact ⟨loc,.refl h⟩
  · rename_i ref href
    have hrefs : (c.blocks b).refs ≠ [] := by
      grind
    have hown : share (loc b) = .own := not_not.mp fun hs => hrefs (h.refs b hs)
    have hb : b < n := h.inside b fun hnone => by simp [hnone,share] at hown
    cases ho : ref.obsolete with
    | true => exact ⟨loc,.refl h⟩
    | false =>
      simp only [Bool.false_eq_true,if_false]
      generalize hy : (c.blocks b).markObsolete i ref.totlen = y
      generalize hc : ((c.shrink .used ref.totlen).grow .dirty ref.totlen).setBlock b y = c'
      have hblk : c'.blocks b = y := by
        rw [← hc]
        exact update_self _ _ _
      have hyrefs : y.refs = (c.blocks b).refs.modify i fun r => { r with obsolete := true } := by
        rw [← hy,Eraseblock.markObsolete]
      have hkept : Kept n c' loc := by
        refine h.obsolete hyrefs ?_ ?_ ?_
        all_goals rw [← hc]; rfl
      have hm : Moved n c loc c' loc :=
        ⟨hkept,fun _ hj => hj,fun hbooks => hc ▸ (hbooks.markObsolete hb hown href ho hy).2⟩
      have hsane (hbooks : Books n c loc) : (c'.sane y && y.paranoia) = true := by
        obtain ⟨h₁,h₂⟩ := (hm.books hbooks).sane hb hown
        grind
      split_ifs with hlt hbug hstay hfresh
      · refine ⟨loc,h.setBug,fun _ hj => hj,fun hbooks => ?_⟩
        exact absurd (hbooks.markObsolete hb hown href ho hy).1 (not_le.mpr hlt)
      · refine ⟨loc,hkept.setBug,fun _ hj => hj,fun hbooks => ?_⟩
        grind
      · exact ⟨loc,hm⟩
      · -- it is on a list, and not on the free list, where there are clean markers only
        have hgc : c'.gcblock = c.gcblock := by rw [← hc]; rfl
        have hyne : (c'.blocks b).refs ≠ [] := by
          rw [hblk,hyrefs]
          simpa using hrefs
        obtain ⟨k,hk⟩ := hkept.listed hyne (fun hn => hstay (Or.inl hn))
          (fun hg => hstay (Or.inr hg))
        have hfree : k ≠ .free := by
          rintro rfl
          have hfalse := h.marker b hk ref (List.mem_of_getElem? href)
          have htrue := hl.resolve_left (fun hg => hstay (Or.inr (hgc.trans hg))) ref href
          grind
        refine ⟨_,hm.trans (.of_update (hkept.dirtied hk hfree) fun hbooks => ?_)⟩
        exact hbooks.relocate hb (by rw [hown]; rfl) rfl rfl rfl rfl rfl
      · exact ⟨loc,hm⟩

theorem gcList_own {jiffies : ℕ} {k : BlockList} (h : c.gcList jiffies = some k) :
    share (some (.list k)) = .own ∧ k ≠ .free ∧ c.lists k ≠ [] := by
  simp only [Sb.gcList] at h
  split_ifs at h with h₁ h₂ h₃ h₄ <;> cases h
  · exact ⟨rfl,by decide,h₁.1⟩
  · exact ⟨rfl,by decide,h₂.2⟩
  · exact ⟨rfl,by decide,h₃⟩
  · exact ⟨rfl,by decide,h₄⟩

theorem moved_findGcBlock (jiffies : ℕ) (h : Kept n c loc) (hg : c.gcblock = none) :
    ∃ loc', Moved n c loc (c.findGcBlock jiffies) loc' := by
  rw [Sb.findGcBlock]
  split
  · rename_i k hk
    obtain ⟨hown,hfree,hne⟩ := gcList_own hk
    obtain ⟨b,rest,hl⟩ := List.exists_cons_of_ne_nil hne
    have hhead : (c.lists k).head? = some b := by rw [hl]; rfl
    have hloc := h.loc_of_head hhead
    rw [hhead]
    refine ⟨_,.of_update (h.findGcBlock hg hhead hfree) fun hb => ?_⟩
    exact hb.relocate (h.lt hloc) (by rw [hloc,hown]; rfl) rfl rfl rfl rfl rfl
  · exact ⟨loc,.refl h⟩

theorem moved_eraseit (h : Kept n c loc) : ∃ loc', Moved n c loc c.eraseit loc' := by
  rw [Sb.eraseit]
  split
  · rename_i b hg
    have hloc := h.loc_gc hg
    split_ifs
    · refine ⟨_,.of_update (h.eraseit hg) fun hb => ?_⟩
      exact hb.relocate (h.lt hloc) (by rw [hloc]; rfl) rfl rfl rfl rfl rfl
    · exact ⟨loc,.refl h⟩
  · exact ⟨loc,.refl h⟩

theorem moved_startErase (h : Kept n c loc) (hk : (c.lists .erasePending).head? = some b) :
    Moved n c loc (c.startErase b) (update loc b (some (.list .erasing))) :=
  .of_update (h.startErase hk) fun hb => hb.startErase (h.lt (h.loc_of_head hk)) (h.loc_of_head hk)

theorem moved_eraseFailed (h : Kept n c loc) (hb : b ∈ c.lists .erasing) :
    Moved n c loc (c.eraseFailed b) (update loc b (some (.list .bad))) := by
  have hloc : loc b = some (.list .erasing) := h.loc_of_mem hb
  refine .of_update ?_ fun hbooks => ?_
  · exact h.ofErasing hb (by decide) (by decide) (List.Perm.refl _)
      (cells_listAdd (c.listDel b) .bad b) rfl rfl
  · exact hbooks.failed (h.lt hloc) (by rw [hloc]; rfl) rfl rfl rfl rfl rfl

theorem moved_eraseDone (h : Kept n c loc) (hb : b ∈ c.lists .erasing) :
    Moved n c loc (c.eraseDone b) (update loc b (some (.list .eraseComplete))) := by
  have hloc : loc b = some (.list .erasing) := h.loc_of_mem hb
  refine .of_update ?_ fun hbooks => ?_
  · exact h.ofErasing hb (by decide) (by decide) List.perm_append_comm
      (cells_listAddTail (c.listDel b) .eraseComplete b) rfl rfl
  · exact hbooks.relocate (h.lt hloc) (by rw [hloc]; rfl) rfl rfl rfl rfl rfl

theorem kept_refile (h : Kept n c loc) (hb : b ∈ c.lists .erasing) :
    Kept n (c.refile b) (update loc b (some (.list .erasePending))) :=
  h.ofErasing hb (by decide) (by decide) (List.Perm.refl _)
    (cells_listAdd (c.listDel b) .erasePending b) rfl rfl

theorem moved_markErased (h : Kept n c loc) (hm : c.marking = none)
    (hk : (c.lists .eraseComplete).head? = some b) :
    Moved n c loc { c.listPop .eraseComplete with marking := some b }
      (update loc b (some .marking)) := by
  have hloc := h.loc_of_head hk
  refine .of_update (h.markErased hm hk) fun hbooks => ?_
  exact hbooks.relocate (h.lt hloc) (by rw [hloc]; rfl) rfl rfl rfl rfl rfl

theorem moved_markBad (h : Kept n c loc) (hm : c.marking = some b) :
    Moved n c loc (c.markBad b) (update loc b (some (.list .bad))) := by
  have hloc := h.loc_marking hm
  refine .of_update ?_ fun hbooks => ?_
  · refine h.file (p := .marking) (by simp [Sb.cells,hm]) (by decide) ?_
      (update_eq_self _ _).symm
      (fun _ => h.refs b (by simp [hloc,share])) (fun hk => by cases hk) h.nrFree
    show Sb.cells { ((c.shrink .erasing c.sectorSize).grow .bad c.sectorSize).listAddTail .bad b with
      marking := none } = _
    rw [cells_marking,cells_listAddTail]
    rfl
  · refine hbooks.failed (h.lt hloc) (by rw [hloc]; rfl) rfl rfl rfl rfl ?_
    -- the two counters are changed in the other order
    have hsz : (c.markBad b).size =
      ((c.shrink .erasing c.sectorSize).grow .bad c.sectorSize).size := rfl
    funext k
    rw [hsz,size_grow,size_shrink,size_shrink,size_shrink,size_grow,size_grow]
    cases k <;> simp

/-- Where the blocks are when a `BUG()` has been hit. -/
structure Held (n : ℕ) (c : Sb) (loc : ℕ → Option Place) : Prop where
  located : Places.Located c.cells loc
  inside : ∀ b, loc b ≠ none → b < n
  nrFree : c.nrFree = (c.lists .free).length

theorem Kept.held (h : Kept n c loc) : Held n c loc := ⟨h.located,h.inside,h.nrFree⟩

theorem Held.setBug (h : Held n c loc) : Held n { c with bug := true } loc :=
  ⟨h.located,h.inside,h.nrFree⟩

theorem moved_markFree (h : Kept n c loc) (hm : c.marking = some b) :
    (∃ loc', Moved n c loc (c.markFree b) loc') ∨
    ((c.markFree b).bug = true ∧ Held n (c.markFree b) loc ∧ ¬Books n c loc) := by
  have hloc := h.loc_marking hm
  have hlt := h.lt hloc
  have hfits (hb : Books n c loc) : Fits c.sectorSize .own (.marked c.sectorSize) :=
    fits_marked hb.sector_le hb.sector_aligned (hb.sector_lt hlt)
  have hdirty : (Eraseblock.marked c.sectorSize).dirty = 0 := by rw [Eraseblock.marked]
  have hrefs : ∀ r ∈ (Eraseblock.marked c.sectorSize).refs, r.inode = false := by
    simp [Eraseblock.marked]
  simp only [Sb.markFree]
  generalize Eraseblock.marked c.sectorSize = y at hfits hdirty hrefs ⊢
  generalize hc : (((c.setBlock b y).shrink .erasing c.sectorSize).grow .free y.free).grow .used
    y.used = c'
  have hcells : c'.cells = c.cells := by
    rw [← hc]
    rfl
  have hlists (k : BlockList) : c'.lists k = c.lists k := congrFun hcells (.list k)
  have hblocks : c'.blocks = update c.blocks b y := by
    rw [← hc]
    rfl
  have hnr : c'.nrFree = c.nrFree := by
    rw [← hc]
    rfl
  have hbooks (hb : Books n c loc) :
      Books n c' (update loc b (some (.list .free))) := by
    have hbug : c'.bug = c.bug := by
      rw [← hc]
      rfl
    refine hb.ready hlt hloc ?_ ?_ (hbug.trans hb.bug) hblocks (hfits hb) hdirty ?_
    all_goals
      rw [← hc]
      rfl
  by_cases hs : (c'.sane y && y.paranoia) = true
  · rw [if_pos hs]
    have hown : share (some (.list .free)) = .own := rfl
    refine Or.inl ⟨_,.of_update (h.file (p := .marking) (k := .free) (by simp [Sb.cells,hm])
      (by decide) ?_ hblocks (fun hn => absurd hown hn) (fun _ => hrefs) ?_) fun hb => ?_⟩
    · show Sb.cells { c'.listAddTail .free b with marking := none } = _
      rw [cells_marking,cells_listAddTail,hcells,hlists]
      rfl
    · show c'.nrFree + 1 = (update c'.lists .free (c'.lists .free ++ [b]) .free).length
      rw [update_self,List.length_append,hlists,hnr,h.nrFree]
      rfl
    · have hb' := hbooks hb
      exact ⟨hb'.sector_le,hb'.sector_aligned,hb'.flash,hb'.flash_lt,hb'.sizes,hb'.fits,hb'.bug⟩
  · rw [if_neg hs]
    have hheld : Held n c' loc := by
      refine ⟨?_,h.inside,?_⟩
      · rw [hcells]
        exact h.located
      · rw [hlists,hnr,h.nrFree]
    refine Or.inr ⟨rfl,hheld.setBug,fun hb => hs ?_⟩
    · have hown : share (update loc b (some (.list .free)) b) = .own := by
        rw [update_self]
        rfl
      obtain ⟨h₁,h₂⟩ := (hbooks hb).sane hlt hown
      rw [hblocks,update_self] at h₁ h₂
      rw [h₁,h₂]
      rfl

/-- What an action keeps: all blocks in their places unless a reference to a clean marker cannot be
had, and the accounts unless a block is filed again. -/
structure Stepped (n : ℕ) (a : Action) (c : Sb) (loc : ℕ → Option Place) (c' : Sb)
    (loc' : ℕ → Option Place) : Prop where
  held : Held n c' loc'
  kept : c'.bug = false → Kept n c' loc'
  stays : a ≠ .markNoRef → ∀ j, loc j ≠ none → loc' j ≠ none
  books : (∀ b, a ≠ .refile b) → Books n c loc → Books n c' loc'

theorem Moved.stepped {a : Action} (h : Moved n c loc c' loc') : Stepped n a c loc c' loc' :=
  ⟨h.kept.held,fun _ => h.kept,fun _ => h.stays,fun _ => h.books⟩

theorem step_stepped {a : Action} (h : Kept n c loc) (hl : Legal c a) (hs : step c a = some c') :
    ∃ loc', Stepped n a c loc c' loc' := by
  have hmoved {d : Sb} (hd : ∃ loc', Moved n c loc d loc') (he : d = c') :
      ∃ loc', Stepped n a c loc c' loc' := by
    obtain ⟨loc',hm⟩ := hd
    exact ⟨loc',he ▸ hm.stepped⟩
  rw [step.eq_def] at hs
  split at hs
  · cases hs
  cases a with
  | reserve minsize => exact hmoved (moved_reserve minsize h) (Option.some.inj hs)
  | addRef ofs len dirty => exact hmoved (moved_addRef h hl) (Option.some.inj hs)
  | obsolete b i => exact hmoved (moved_obsolete h hl) (Option.some.inj hs)
  | findGcBlock jiffies =>
    dsimp only at hs
    split_ifs at hs with hg
    exact hmoved (moved_findGcBlock jiffies h hg) (Option.some.inj hs)
  | eraseit => exact hmoved (moved_eraseit h) (Option.some.inj hs)
  | startErase =>
    obtain ⟨b,hb,he⟩ := Option.map_eq_some_iff.mp hs
    exact hmoved ⟨_,moved_startErase h hb⟩ he
  | refile b =>
    dsimp only at hs
    split_ifs at hs with hb
    have hk := kept_refile h hb
    cases hs
    exact ⟨_,hk.held,fun _ => hk,fun _ => stays_update,fun hn => absurd rfl (hn b)⟩
  | eraseFailed b =>
    dsimp only at hs
    split_ifs at hs with hb
    exact hmoved ⟨_,moved_eraseFailed h hb⟩ (Option.some.inj hs)
  | eraseDone b =>
    dsimp only at hs
    split_ifs at hs with hb
    exact hmoved ⟨_,moved_eraseDone h hb⟩ (Option.some.inj hs)
  | markErased =>
    dsimp only at hs
    split_ifs at hs with hm
    obtain ⟨b,hb,he⟩ := Option.map_eq_some_iff.mp hs
    exact hmoved ⟨_,moved_markErased h hm hb⟩ he
  | markNoRef =>
    obtain ⟨b,hb,he⟩ := Option.map_eq_some_iff.mp hs
    have hk := h.markNoRef hb
    have hloc := h.loc_marking hb
    refine ⟨_,he ▸ hk.held,fun _ => he ▸ hk,fun hn => absurd rfl hn,fun _ hbooks => he ▸ ?_⟩
    exact hbooks.relocate (h.lt hloc) (by rw [hloc]; rfl) rfl rfl rfl rfl rfl
  | markBad =>
    obtain ⟨b,hb,he⟩ := Option.map_eq_some_iff.mp hs
    exact hmoved ⟨_,moved_markBad h hb⟩ he
  | markFree =>
    obtain ⟨b,hb,he⟩ := Option.map_eq_some_iff.mp hs
    obtain hm | ⟨hbug,hheld,hno⟩ := moved_markFree h hb
    · exact hmoved hm he
    · rw [he] at hbug hheld
      refine ⟨loc,hheld,fun hf => ?_,fun _ _ hj => hj,fun _ hbooks => absurd hbooks hno⟩
      rw [hbug] at hf
      cases hf

/-- Each of the `n` blocks is in one place, and none is being erased. -/
structure Listed (n : ℕ) (c : Sb) : Prop where
  nodup : ∀ p, (c.cells p).Nodup
  placed : ∀ b, b < n → ∃! p, b ∈ c.cells p
  inside : ∀ p, ∀ b ∈ c.cells p, b < n
  idle : ∀ p, share (some p) ≠ .own → c.cells p = []
  marker : ∀ b ∈ c.lists .free, ∀ r ∈ (c.blocks b).refs, r.inode = false
  nrFree : c.nrFree = (c.lists .free).length
  outside : ∀ b, n ≤ b → (c.blocks b).refs = []

structure Mounted (n : ℕ) (c : Sb) : Prop extends Listed n c where
  block : ∀ b, b < n → Fits c.sectorSize .own (c.blocks b)
  sizes : ∀ k, c.size k = ∑ b ∈ Finset.range n, weight c.sectorSize k .own (c.blocks b)
  sector_le : 12 ≤ c.sectorSize
  sector_aligned : c.sectorSize % 4 = 0
  flash : c.flashSize = n * c.sectorSize
  flash_lt : c.flashSize < 4294967296
  bug : c.bug = false

theorem Listed.kept (h : Listed n c) :
    ∃ loc, Kept n c loc ∧ ∀ b, b < n → loc b ≠ none ∧ share (loc b) = .own := by
  classical
  let loc : ℕ → Option Place := fun b =>
    if hb : ∃ p, b ∈ c.cells p then some hb.choose else none
  have hmem (p : Place) (b : ℕ) : b ∈ c.cells p ↔ loc b = some p := by
    by_cases hb : ∃ p, b ∈ c.cells p
    · have hloc : loc b = some hb.choose := dif_pos hb
      have hp := hb.choose_spec
      have hu := h.placed b (h.inside _ b hp)
      rw [hloc,Option.some.injEq]
      exact ⟨fun hp' => hu.unique hp hp',fun he => he ▸ hp⟩
    · have hloc : loc b = none := dif_neg hb
      grind
  have hlt (b : ℕ) (hb : loc b ≠ none) : b < n := by
    obtain ⟨p,hp⟩ := Option.ne_none_iff_exists'.mp hb
    exact h.inside p b ((hmem p b).mpr hp)
  have hsome (b : ℕ) (hb : b < n) : loc b ≠ none := by
    obtain ⟨p,hp,-⟩ := h.placed b hb
    rw [(hmem p b).mp hp]
    simp
  have hown (b : ℕ) (hb : b < n) : share (loc b) = .own := by
    obtain ⟨p,hp⟩ := Option.ne_none_iff_exists'.mp (hsome b hb)
    rw [hp]
    refine not_not.mp fun hs => ?_
    have := (hmem p b).mpr hp
    rw [h.idle p hs] at this
    cases this
  refine ⟨loc,⟨⟨h.nodup,hmem⟩,hlt,fun b hs => ?_,fun b hb => ?_,h.nrFree⟩,
    fun b hb => ⟨hsome b hb,hown b hb⟩⟩
  · exact h.outside b (Nat.le_of_not_lt fun hb => hs (hown b hb))
  · exact h.marker b ((hmem (.list .free) b).mpr hb)

theorem Mounted.sound (h : Mounted n c) : ∃ loc, Kept n c loc ∧ Books n c loc := by
  obtain ⟨loc,hkept,hloc⟩ := h.kept
  refine ⟨loc,hkept,h.sector_le,h.sector_aligned,h.flash,h.flash_lt,fun k => ?_,fun b hb => ?_,h.bug⟩
  · rw [h.sizes k]
    refine Finset.sum_congr rfl fun b hb => ?_
    rw [(hloc b (Finset.mem_range.mp hb)).2]
  · rw [(hloc b hb).2]
    exact h.block b hb

def twoBlocks : Sb where
  sectorSize := 16
  flashSize := 32
  blocks := fun b => if b = 0 then ⟨16,0,0,[⟨16,false,true⟩]⟩ else ⟨0,if b = 1 then 16 else 0,0,[]⟩
  size := fun k => if k = .used ∨ k = .dirty then 16 else 0
  nrFree := 0
  nrErasing := 1
  lists := fun k => if k = .clean then [0] else if k = .erasePending then [1] else []
  nextblock := none
  gcblock := none
  marking := none
  bug := false

theorem mounted_twoBlocks : Mounted 2 twoBlocks where
  nodup := by decide
  placed := by
    intro b hb
    interval_cases b
    · exact ⟨.list .clean,by decide,by decide⟩
    · exact ⟨.list .erasePending,by decide,by decide⟩
  inside := by decide
  idle := by decide
  marker := by decide
  nrFree := rfl
  block := by
    intro b hb
    interval_cases b
    · exact ⟨fun _ => rfl,rfl,rfl,fun hs => absurd rfl hs⟩
    · exact ⟨fun _ => rfl,rfl,rfl,fun hs => absurd rfl hs⟩
  outside := fun b hb => by simp [twoBlocks,show b ≠ 0 by omega]
  sizes := by decide
  sector_le := by decide
  sector_aligned := rfl
  flash := rfl
  flash_lt := by decide
  bug := rfl

/-- The callers keep their part, and a reference to a clean marker can be had. -/
def Remembers (c : Sb) (a : Action) : Prop := Legal c a ∧ a ≠ .markNoRef

/-- The callers keep their part, and no block is filed for erasing again. -/
def Starts (c : Sb) (a : Action) : Prop := Legal c a ∧ ∀ b, a ≠ .refile b

variable {c₀ : Sb} {as : List Action}

/-- If there is memory for the references to clean markers, every block is in one place in every
state that is reached. -/
theorem blocks_conserved (h₀ : Listed n c₀) (hm : Meets step Remembers c₀ as)
    (hr : run step c₀ as = some c) :
    (∀ b, b < n → ∃! p, b ∈ c.cells p) ∧ (∀ p, (c.cells p).Nodup) ∧
      c.nrFree = (c.lists .free).length := by
  let Inv : Sb → Prop := fun c => ∃ loc, Held n c loc ∧ (c.bug = false → Kept n c loc) ∧
    ∀ b, b < n → loc b ≠ none
  obtain ⟨loc,hk,hloc⟩ := h₀.kept
  have hinv : Inv c := by
    refine invariant step (fun c a c' hc hl hs => ?_)
      ⟨loc,hk.held,fun _ => hk,fun b hb => (hloc b hb).1⟩ hm hr
    obtain ⟨loc,-,hkept,hsome⟩ := hc
    have hbug : c.bug = false := by
      rw [step.eq_def] at hs
      grind
    obtain ⟨loc',hstep⟩ := step_stepped (hkept hbug) hl.1 hs
    exact ⟨loc',hstep.held,hstep.kept,fun b hb => hstep.stays hl.2 b (hsome b hb)⟩
  obtain ⟨loc,hheld,-,hsome⟩ := hinv
  exact ⟨fun b hb => hheld.located.existsUnique (hsome b hb),hheld.located.nodup,hheld.nrFree⟩

/-- The second of the two blocks is erased, marked and taken to write to. -/
abbrev eraseAndReserve : List Action :=
  [.startErase,.eraseDone 1,.markErased,.markFree,.reserve 4]

theorem blocks_conserved_erase :
    ∃ c, run step twoBlocks eraseAndReserve = some c ∧ ∃! p, 1 ∈ c.cells p := by
  have hm : Meets step Remembers twoBlocks eraseAndReserve := by
    refine Meets.of_mem step fun a ha s => ?_
    fin_cases ha <;> exact ⟨trivial,by decide⟩
  exact ⟨_,rfl,(blocks_conserved mounted_twoBlocks.toListed hm rfl).1 1 (by decide)⟩

/-- Without memory for the reference the second block is on no list any more. -/
theorem block_lost : ∃ c, Mounted 2 twoBlocks ∧
    run step twoBlocks [.startErase,.eraseDone 1,.markErased,.markNoRef] = some c ∧
    ∀ p, 1 ∉ c.cells p := ⟨_,mounted_twoBlocks,rfl,by decide⟩

/-- If every erase can be started, the accounts are sound in every state that is reached: the
counters of the superblock make up the flash, those of a block make up the block unless it is being
erased or bad and they are 0, and no check fails. -/
theorem space_accounted (h₀ : Mounted n c₀) (hm : Meets step Starts c₀ as)
    (hr : run step c₀ as = some c) :
    c.size .used + c.size .dirty + c.size .free + c.size .erasing + c.size .bad = c.flashSize ∧
    (∀ p, share (some p) = .own → ∀ b ∈ c.cells p,
      (c.blocks b).used + (c.blocks b).dirty + (c.blocks b).free = c.sectorSize ∧
      usedOf (c.blocks b).refs = (c.blocks b).used) ∧
    (∀ p, share (some p) ≠ .own → ∀ b ∈ c.cells p, c.blocks b = ⟨0,0,0,[]⟩) ∧
    c.bug = false := by
  let Inv : Sb → Prop := fun c => ∃ loc, Kept n c loc ∧ Books n c loc
  obtain ⟨loc,hk,hb⟩ := h₀.sound
  have hinv : Inv c := by
    refine invariant step (fun c a c' hc hl hs => ?_) ⟨loc,hk,hb⟩ hm hr
    obtain ⟨loc,hkept,hbooks⟩ := hc
    obtain ⟨loc',hstep⟩ := step_stepped hkept hl.1 hs
    have hbooks' := hstep.books hl.2 hbooks
    exact ⟨loc',hstep.kept hbooks'.bug,hbooks'⟩
  obtain ⟨loc,hkept,hbooks⟩ := hinv
  have hfits : ∀ p, ∀ b ∈ c.cells p, Fits c.sectorSize (share (some p)) (c.blocks b) :=
    fun p b hb => hkept.loc_of_mem hb ▸ hbooks.fits b (hkept.lt (hkept.loc_of_mem hb))
  exact ⟨hbooks.total,fun p hp b hb => ⟨(hfits p b hb).total hp,(hfits p b hb).used⟩,
    fun p hp b hb => (hfits p b hb).gone hp,hbooks.bug⟩

theorem space_accounted_erase : ∃ c, run step twoBlocks eraseAndReserve = some c ∧
    c.size .used + c.size .dirty + c.size .free + c.size .erasing + c.size .bad = c.flashSize := by
  have hm : Meets step Starts twoBlocks eraseAndReserve := by
    refine Meets.of_mem step fun a ha s => ?_
    fin_cases ha <;> exact ⟨trivial,fun b => by simp⟩
  exact ⟨_,rfl,(space_accounted mounted_twoBlocks hm rfl).1⟩

/-- A block that is filed again is counted nowhere, and the next node that becomes obsolete stops
the machine. -/
theorem space_lost : ∃ c c', Mounted 2 twoBlocks ∧
    run step twoBlocks [.startErase,.refile 1] = some c ∧
    c.size .used + c.size .dirty + c.size .free + c.size .erasing + c.size .bad = 16 ∧
    c.flashSize = 32 ∧ Legal c (.obsolete 0 0) ∧ step c (.obsolete 0 0) = some c' ∧ c'.bug = true :=
  ⟨_,_,mounted_twoBlocks,rfl,by decide,rfl,Or.inr (by decide),rfl,by decide⟩

end Simpad.Jffs2.Space
