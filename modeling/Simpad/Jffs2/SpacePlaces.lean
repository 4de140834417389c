import Simpad.Jffs2.Space

namespace Simpad.Jffs2.Space
open Places List Function

inductive Place
  | list (k : BlockList)
  | next
  | gc
  | marking
deriving DecidableEq

instance : Fintype Place where
  elems := {.next,.gc,.marking} ∪ Finset.univ.image Place.list
  complete p := by cases p <;> simp

def Sb.cells (c : Sb) : Place → List ℕ
  | .list k => c.lists k
  | .next => c.nextblock.toList
  | .gc => c.gcblock.toList
  | .marking => c.marking.toList

inductive Share
  | own | erasing | bad
deriving DecidableEq

/-- A block that has been lost is one that is being erased for ever. -/
def share : Option Place → Share
  | some (.list .erasing) | some (.list .eraseComplete) | some .marking | none => .erasing
  | some (.list .bad) => .bad
  | _ => .own

/-- `loc` says where each of the `n` blocks is. -/
structure Kept (n : ℕ) (c : Sb) (loc : ℕ → Option Place) : Prop where
  located : Located c.cells loc
  inside : ∀ b, loc b ≠ none → b < n
  refs : ∀ b, share (loc b) ≠ .own → (c.blocks b).refs = []
  marker : ∀ b, loc b = some (.list .free) → ∀ r ∈ (c.blocks b).refs, r.inode = false
  nrFree : c.nrFree = (c.lists .free).length

section
variable (c : Sb) (k : BlockList) (b : ℕ)

theorem cells_update {c c' : Sb} {p : Place} {l : List ℕ} (hp : c'.cells p = l)
    (h : ∀ q, q ≠ p → c'.cells q = c.cells q) : c'.cells = update c.cells p l := by
  grind

theorem cells_lists {c : Sb} {k : BlockList} (l : List ℕ) :
    Sb.cells { c with lists := update c.lists k l } =
      update c.cells (.list k) l := by
  refine cells_update (update_self _ _ _) fun q hq => ?_
  cases q with
  | list j => exact update_of_ne (fun h : j = k => hq (congrArg Place.list h)) _ _
  | next => rfl
  | gc => rfl
  | marking => rfl

theorem cells_nextblock (o : Option ℕ) :
    Sb.cells { c with nextblock := o } = update c.cells .next o.toList :=
  cells_update rfl fun q hq => by cases q <;> first | rfl | exact absurd rfl hq

theorem cells_gcblock (o : Option ℕ) :
    Sb.cells { c with gcblock := o } = update c.cells .gc o.toList :=
  cells_update rfl fun q hq => by cases q <;> first | rfl | exact absurd rfl hq

theorem cells_marking (o : Option ℕ) :
    Sb.cells { c with marking := o } = update c.cells .marking o.toList :=
  cells_update rfl fun q hq => by cases q <;> first | rfl | exact absurd rfl hq

@[simp] theorem cells_grow (j : Counter) (x : ℕ) : (c.grow j x).cells = c.cells := rfl

@[simp] theorem cells_shrink (j : Counter) (x : ℕ) : (c.shrink j x).cells = c.cells := rfl

@[simp] theorem cells_setBlock (x : Eraseblock) : (c.setBlock b x).cells = c.cells := rfl

theorem cells_listAdd : (c.listAdd k b).cells =
    update c.cells (.list k) (b :: c.lists k) := cells_lists _

theorem cells_listAddTail : (c.listAddTail k b).cells =
    update c.cells (.list k) (c.lists k ++ [b]) := cells_lists _

theorem cells_listPop : (c.listPop k).cells =
    update c.cells (.list k) (c.lists k).tail := cells_lists _

theorem cells_listDel {loc : ℕ → Option Place} (h : Located c.cells loc)
    (hb : loc b = some (.list k)) : (c.listDel b).cells =
      update c.cells (.list k) ((c.cells (.list k)).erase b) := by
  refine cells_update rfl fun q hq => ?_
  cases q with
  | list j => exact erase_of_not_mem (h.not_mem hb hq)
  | next => rfl
  | gc => rfl
  | marking => rfl

end

section
variable {n : ℕ} {c c' : Sb} {loc : ℕ → Option Place} {b : ℕ} {p q : Place}

theorem Kept.loc_of_mem (h : Kept n c loc) (hb : b ∈ c.cells p) : loc b = some p :=
  (h.located.mem p b).mp hb

theorem Kept.lt (h : Kept n c loc) (hb : loc b = some p) : b < n := h.inside b (by simp [hb])

theorem Kept.move {l : List ℕ} {y : Eraseblock} (h : Kept n c loc) (hb : loc b = some p)
    (hcells : c'.cells = update (update c.cells p ((c.cells p).erase b)) q l)
    (hl : l.Perm (b :: update c.cells p ((c.cells p).erase b) q))
    (hblocks : c'.blocks = update c.blocks b y)
    (hrefs : share (some q) ≠ .own → y.refs = [])
    (hmark : q = .list .free → ∀ r ∈ y.refs, r.inode = false)
    (hnr : c'.nrFree = (c'.lists .free).length) :
    Kept n c' (update loc b (some q)) := by
  have hne {j : ℕ} (hj : j ≠ b) (v : Option Place) : update loc b v j = loc j :=
    update_of_ne hj _ _
  have hblock {j : ℕ} (hj : j ≠ b) : c'.blocks j = c.blocks j := by
    rw [hblocks,update_of_ne hj]
  have hself : c'.blocks b = y := by rw [hblocks,update_self]
  refine ⟨hcells ▸ h.located.move hb hl,fun j hj => ?_,fun j hj => ?_,fun j hj => ?_,hnr⟩
  · by_cases he : j = b
    · exact he ▸ h.lt hb
    · exact h.inside j (hne he _ ▸ hj)
  · by_cases he : j = b
    · grind
    · rw [hblock he]
      exact h.refs j (hne he _ ▸ hj)
  · by_cases he : j = b
    · grind
    · rw [hblock he]
      exact h.marker j (hne he _ ▸ hj)

theorem Kept.rewrite {y : Eraseblock} (h : Kept n c loc) (hcells : c'.cells = c.cells)
    (hblocks : c'.blocks = update c.blocks b y)
    (hrefs : share (loc b) ≠ .own → y.refs = [])
    (hmark : loc b = some (.list .free) → ∀ r ∈ y.refs, r.inode = false)
    (hnr : c'.nrFree = c.nrFree) : Kept n c' loc := by
  have hlists : c'.lists .free = c.lists .free := congrFun hcells (.list .free)
  refine ⟨hcells ▸ h.located,h.inside,fun j hj => ?_,fun j hj => ?_,?_⟩
  · rw [hblocks]
    by_cases he : j = b
    · grind
    · rw [update_of_ne he]
      exact h.refs j hj
  · rw [hblocks]
    by_cases he : j = b
    · grind
    · rw [update_of_ne he]
      exact h.marker j hj
  · rw [hnr,hlists,h.nrFree]

theorem Kept.file {k : BlockList} {y : Eraseblock} (h : Kept n c loc) (hcell : c.cells p = [b])
    (hp : p ≠ .list k)
    (hcells : c'.cells = update (update c.cells (.list k) (c.lists k ++ [b])) p [])
    (hblocks : c'.blocks = update c.blocks b y)
    (hrefs : share (some (.list k)) ≠ .own → y.refs = [])
    (hmark : k = .free → ∀ r ∈ y.refs, r.inode = false)
    (hnr : c'.nrFree = (c'.lists .free).length) :
    Kept n c' (update loc b (some (.list k))) := by
  have hb := h.loc_of_mem (hcell ▸ mem_singleton_self b)
  refine h.move (l := c.lists k ++ [b]) hb ?_ ?_ hblocks hrefs
    (fun hq => hmark (Place.list.inj hq)) hnr
  · rw [hcells,hcell,erase_cons_head]
    exact update_comm hp.symm _ _ _
  · rw [update_of_ne hp.symm]
    exact perm_append_comm

theorem Kept.closeNext (h : Kept n c loc) (hn : c.nextblock = some b) :
    Kept n (c.closeNext b) (update loc b (some (.list .dirty))) := by
  have hcell : c.cells .next = [b] := by simp [Sb.cells,hn]
  refine h.file hcell (by decide) ?_ rfl (by simp [share]) (by simp) h.nrFree
  rw [Sb.closeNext,cells_nextblock,cells_listAddTail]
  rfl

theorem erase_head {l : List ℕ} (h : l.head? = some b) : l.erase b = l.tail := by
  obtain ⟨rest,rfl⟩ := head?_eq_some_iff.mp h
  simp

theorem Kept.loc_of_head (h : Kept n c loc) {k : BlockList} (hk : (c.lists k).head? = some b) :
    loc b = some (.list k) := h.loc_of_mem (mem_of_head? hk)

theorem Kept.pick {k : BlockList} (h : Kept n c loc) (hk : (c.lists k).head? = some b)
    (hp : p ≠ .list k) (hnone : c.cells p = [])
    (hcells : c'.cells = update (update c.cells (.list k) (c.lists k).tail) p [b])
    (hblocks : c'.blocks = c.blocks) (hrefs : share (some p) ≠ .own → (c.blocks b).refs = [])
    (hfree : p ≠ .list .free) (hnr : c'.nrFree = (c'.lists .free).length) :
    Kept n c' (update loc b (some p)) := by
  refine h.move (l := [b]) (h.loc_of_head hk) ?_ ?_ (hblocks.trans (update_eq_self _ _).symm)
    hrefs (fun hq => absurd hq hfree) hnr
  · simp [hcells,Sb.cells,erase_head hk]
  · rw [update_of_ne hp,hnone]

theorem Kept.openNext (h : Kept n c loc) (hn : c.nextblock = none)
    (hk : (c.lists .free).head? = some b) :
    Kept n (c.openNext b) (update loc b (some .next)) := by
  refine h.pick hk (by decide) (by simp [Sb.cells,hn]) ?_ rfl (by simp [share]) (by decide) ?_
  · show Sb.cells { c.listPop .free with nextblock := some b } = _
    rw [cells_nextblock,cells_listPop,Option.toList_some]
  · simp [h.nrFree,Sb.openNext,Sb.listPop]

theorem Kept.closeClean {x : Eraseblock} (h : Kept n c loc) (hn : c.nextblock = some b)
    (hcells : c'.cells = c.cells) (hblocks : c'.blocks = update c.blocks b x)
    (hnr : c'.nrFree = c.nrFree) :
    Kept n { c'.listAddTail .clean b with nextblock := none }
      (update loc b (some (.list .clean))) := by
  have hcell : c.cells .next = [b] := by simp [Sb.cells,hn]
  have hlists (k : BlockList) : c'.lists k = c.lists k := congrFun hcells (.list k)
  refine h.file hcell (by decide) ?_ hblocks (by simp [share]) (by simp) ?_
  · rw [cells_nextblock,cells_listAddTail,hcells,hlists]
    rfl
  · show c'.nrFree = (update c'.lists .clean (c'.lists .clean ++ [b]) .free).length
    rw [update_of_ne (by decide),hlists,hnr,h.nrFree]

theorem Kept.findGcBlock {k : BlockList} (h : Kept n c loc) (hg : c.gcblock = none)
    (hk : (c.lists k).head? = some b) (hfree : k ≠ .free) :
    Kept n { c.listPop k with gcblock := some b } (update loc b (some .gc)) := by
  refine h.pick hk nofun (by simp [Sb.cells,hg]) ?_ rfl (by simp [share]) nofun ?_
  · rw [cells_gcblock,cells_listPop,Option.toList_some]
  · show c.nrFree = (update c.lists k _ .free).length
    rw [update_of_ne hfree.symm,h.nrFree]

theorem Kept.eraseit (h : Kept n c loc) (hg : c.gcblock = some b) :
    Kept n { c.listAddTail .erasePending b with gcblock := none, nrErasing := c.nrErasing + 1 }
      (update loc b (some (.list .erasePending))) := by
  have hcell : c.cells .gc = [b] := by simp [Sb.cells,hg]
  refine h.file hcell (by decide) ?_ (update_eq_self _ _).symm (by simp [share]) (by simp)
    h.nrFree
  show Sb.cells { c.listAddTail .erasePending b with gcblock := none } = _
  rw [cells_gcblock,cells_listAddTail]
  rfl

theorem Kept.startErase (h : Kept n c loc) (hk : (c.lists .erasePending).head? = some b) :
    Kept n (c.startErase b) (update loc b (some (.list .erasing))) := by
  obtain ⟨-,-,-,-,hblocks⟩ := c.startErase_frame b
  obtain ⟨hnr,hfree⟩ := c.free_startErase b
  refine h.move (l := b :: c.lists .erasing) (h.loc_of_head hk) ?_ ?_ hblocks (fun _ => rfl) (by simp)
    (by rw [hnr,hfree,h.nrFree])
  · rw [Sb.startErase,cells_listAdd]
    simp only [cells_setBlock,cells_shrink,cells_grow,cells_listPop]
    simp only [Sb.cells,erase_head hk]
    rfl
  · rfl

theorem Kept.ofErasing {k : BlockList} {l : List ℕ} (h : Kept n c loc) (hb : b ∈ c.lists .erasing)
    (hk : k ≠ .erasing) (hfree : k ≠ .free) (hl : l.Perm (b :: (c.listDel b).lists k))
    (hcells : c'.cells = update (c.listDel b).cells (.list k) l)
    (hblocks : c'.blocks = c.blocks) (hnr : c'.nrFree = c.nrFree) :
    Kept n c' (update loc b (some (.list k))) := by
  have hb := h.loc_of_mem (p := .list .erasing) hb
  have hlists : c'.lists .free = c.lists .free := by
    refine (congrFun hcells (.list .free)).trans ?_
    rw [update_of_ne (by simpa using hfree.symm)]
    have hnot : b ∉ c.cells (.list .free) := h.located.not_mem hb (by decide)
    exact erase_of_not_mem hnot
  refine h.move (l := l) hb ?_ ?_ (hblocks.trans (update_eq_self _ _).symm)
    (fun _ => h.refs b (by simp [hb,share])) (fun hq => ?_) ?_
  · rw [hcells,cells_listDel c .erasing b h.located hb]
  · rw [update_of_ne (by simpa using hk)]
    have hnot : b ∉ c.cells (.list k) := h.located.not_mem hb (by simpa using hk)
    have herase : (c.listDel b).lists k = c.lists k := erase_of_not_mem hnot
    rwa [herase] at hl
  · exact absurd (Place.list.inj hq) hfree
  · rw [hnr,hlists,h.nrFree]

theorem Kept.markErased (h : Kept n c loc) (hm : c.marking = none)
    (hk : (c.lists .eraseComplete).head? = some b) :
    Kept n { c.listPop .eraseComplete with marking := some b }
      (update loc b (some .marking)) := by
  have hb := h.loc_of_head hk
  refine h.pick hk (by decide) (by simp [Sb.cells,hm]) ?_ rfl
    (fun _ => h.refs b (by simp [hb,share])) (by decide) h.nrFree
  rw [cells_marking,cells_listPop,Option.toList_some]

theorem Kept.markNoRef (h : Kept n c loc) (hm : c.marking = some b) :
    Kept n { c with marking := none } (update loc b none) := by
  have hcell : c.cells .marking = [b] := by simp [Sb.cells,hm]
  have hb := h.loc_of_mem (hcell ▸ mem_singleton_self b)
  have hcells : Sb.cells { c with marking := none } =
      update c.cells .marking ((c.cells .marking).erase b) := by
    rw [cells_marking,hcell,erase_cons_head]
    rfl
  refine ⟨hcells ▸ h.located.take hb,fun j hj => ?_,fun j hj => ?_,fun j hj => ?_,h.nrFree⟩
  · refine h.inside j fun hn => hj ?_
    grind
  · by_cases he : j = b
    · exact h.refs j (by simp [he,hb,share])
    · rw [update_of_ne he] at hj
      exact h.refs j hj
  · by_cases he : j = b
    · simp [he] at hj
    · rw [update_of_ne he] at hj
      exact h.marker j hj

/-- A block with nodes that is on no list is `nextblock` or `gcblock`. -/
theorem Kept.listed (h : Kept n c loc) (hrefs : (c.blocks b).refs ≠ [])
    (hnext : c.nextblock ≠ some b) (hgc : c.gcblock ≠ some b) : ∃ k, loc b = some (.list k) := by
  have hown : share (loc b) = .own := not_not.mp fun hs => hrefs (h.refs b hs)
  cases hloc : loc b with
  | none => simp [hloc,share] at hown
  | some p =>
    cases p with
    | list k => exact ⟨k,rfl⟩
    | next => exact absurd ((h.located.mem .next b).mpr hloc) (by simpa [Sb.cells] using hnext)
    | gc => exact absurd ((h.located.mem .gc b).mpr hloc) (by simpa [Sb.cells] using hgc)
    | marking => simp [hloc,share] at hown

theorem mem_modify_obsolete {refs : List Ref} {i : ℕ} {r : Ref}
    (hr : r ∈ refs.modify i fun r => { r with obsolete := true }) :
    ∃ s ∈ refs, s.inode = r.inode := by
  obtain ⟨j,hj,rfl⟩ := mem_iff_getElem.mp hr
  grind

theorem Kept.obsolete {i : ℕ} {y : Eraseblock} (h : Kept n c loc)
    (hy : y.refs = (c.blocks b).refs.modify i fun r => { r with obsolete := true })
    (hcells : c'.cells = c.cells) (hblocks : c'.blocks = update c.blocks b y)
    (hnr : c'.nrFree = c.nrFree) : Kept n c' loc := by
  refine h.rewrite hcells hblocks (fun hs => ?_) (fun hf r hr => ?_) hnr
  · rw [hy,h.refs b hs,modify_nil]
  · obtain ⟨s,hs,hsr⟩ := mem_modify_obsolete (hy ▸ hr)
    exact hsr ▸ h.marker b hf s hs

theorem Kept.dirtied {k : BlockList} (h : Kept n c loc) (hb : loc b = some (.list k))
    (hk : k ≠ .free) :
    Kept n ((c.listDel b).listAddTail .dirty b) (update loc b (some (.list .dirty))) := by
  have hcells := cells_listDel c k b h.located hb
  have hfree : (c.listDel b).lists .free = c.lists .free := by
    refine (congrFun hcells (.list .free)).trans ?_
    exact update_of_ne (by simpa using hk.symm) _ _
  refine h.move (l := (c.listDel b).lists .dirty ++ [b]) hb ?_ ?_
    (update_eq_self _ _).symm (by simp [share]) (by simp) ?_
  · rw [cells_listAddTail,hcells]
  · rw [← hcells]
    exact perm_append_comm
  · show c.nrFree =
      (update (c.listDel b).lists .dirty ((c.listDel b).lists .dirty ++ [b]) .free).length
    rw [update_of_ne (by decide),hfree,h.nrFree]

end
end Simpad.Jffs2.Space
