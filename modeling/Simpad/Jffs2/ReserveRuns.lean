import Simpad.Jffs2.Reserve

namespace Simpad.Jffs2.Reserve
open Space Word List Function Runs

structure Closes (c c' : Sb) : Prop where
  sector : c'.sectorSize = c.sectorSize
  bug : c'.bug = c.bug
  free : ∀ b, (c'.blocks b).free = (c.blocks b).free ∨ (c'.blocks b).free = 0

section
variable {c c' : Sb} {b m : ℕ}

theorem Closes.refl (c : Sb) : Closes c c := ⟨rfl,rfl,fun _ => .inl rfl⟩

theorem Closes.trans {c'' : Sb} (h : Closes c c') (h' : Closes c' c'') : Closes c c'' := by
  refine ⟨h'.sector.trans h.sector,h'.bug.trans h.bug,fun b => ?_⟩
  obtain hb | hb := h'.free b
  · rw [hb]
    exact h.free b
  · exact .inr hb

theorem blocks_closeNext (c : Sb) (b : ℕ) : (c.closeNext b).blocks =
    update c.blocks b
      { c.blocks b with dirty := u32 ((c.blocks b).dirty + (c.blocks b).free), free := 0 } := by
  rfl

theorem closes_closeNext (c : Sb) (b : ℕ) : Closes c (c.closeNext b) := by
  refine ⟨?_,?_,fun j => ?_⟩
  · rfl
  · rfl
  rw [blocks_closeNext]
  grind

theorem closes_openNext (c : Sb) (b : ℕ) : Closes c (c.openNext b) := ⟨rfl,rfl,fun _ => .inl rfl⟩

theorem closes_refill (m : ℕ) (c : Sb) (l : List ℕ) : Closes c (c.refill m l) := by
  induction l generalizing c with
  | nil => exact .refl c
  | cons b rest ih =>
    rw [Sb.refill]
    split_ifs
    · exact ((closes_openNext c b).trans (closes_closeNext _ b)).trans (ih _)
    · exact closes_openNext c b

theorem refill_enough {l : List ℕ} (hn : c.nextblock = none)
    (hb : (c.refill m l).nextblock = some b) (hm : m ≤ c.sectorSize - 12) :
    m ≤ ((c.refill m l).blocks b).free := by
  induction l generalizing c with
  | nil =>
    rw [Sb.refill,hn] at hb
    cases hb
  | cons j rest ih =>
    rw [Sb.refill] at hb ⊢
    split_ifs at hb ⊢ with hj
    · have hsec := ((closes_openNext c j).trans (closes_closeNext _ j)).sector
      exact ih rfl hb (by exact hm)
    · have hjb : j = b := Option.some.inj hb
      show m ≤ (c.blocks b).free
      rw [hjb] at hj
      by_contra hlt
      refine hj ⟨fun he => hlt ?_,Nat.lt_of_not_le hlt⟩
      rw [he]
      exact hm

theorem closes_reserve (m : ℕ) (c : Sb) : Closes c (c.doReserveSpace m) := by
  rw [Sb.doReserveSpace]
  split
  · rename_i b _
    split_ifs
    · exact (closes_closeNext c b).trans (closes_refill m _ _)
    · exact .refl c
  · exact closes_refill m c _

theorem reserve_enough (hb : (c.doReserveSpace m).nextblock = some b)
    (hm : m ≤ c.sectorSize - 12) : m ≤ ((c.doReserveSpace m).blocks b).free := by
  rw [Sb.doReserveSpace] at hb ⊢
  split at hb
  · rename_i j hj
    split_ifs at hb ⊢ with hlt
    · refine refill_enough rfl hb ?_
      assumption
    · grind
  · rename_i hj
    exact refill_enough hj hb hm

/-- A block without nodes, or with a clean marker only. -/
def Fresh (sector b free : ℕ) (nodes : List Range) : Prop :=
  (free = 0 ∧ nodes = []) ∨
  (free = sub32 sector (pad4 sizeofUnknownNode) ∧
    nodes = [⟨b * sector,pad4 sizeofUnknownNode⟩])

/-- The blocks are changed, but not the free part of `nextblock` or of a block with nodes. -/
structure Aside (n : ℕ) (c : Sb) (nodes : ℕ → List Range) (c' : Sb) (nodes' : ℕ → List Range) :
    Prop where
  sector : c'.sectorSize = c.sectorSize
  next : c'.nextblock = c.nextblock
  block : ∀ b, ((c'.blocks b).free = (c.blocks b).free ∧ nodes' b = nodes b) ∨
    (b < n ∧ c.nextblock ≠ some b ∧ Fresh c.sectorSize b (c'.blocks b).free (nodes' b))

variable {nodes : ℕ → List Range} {n : ℕ} {loc : ℕ → Option Place}

theorem Aside.of_blocks (hs : c'.sectorSize = c.sectorSize) (hn : c'.nextblock = c.nextblock)
    (hb : c'.blocks = c.blocks) : Aside n c nodes c' nodes :=
  ⟨hs,hn,fun b => .inl ⟨by rw [hb],rfl⟩⟩

theorem Aside.of_fresh {y : Eraseblock} {l : List Range} (hs : c'.sectorSize = c.sectorSize)
    (hn : c'.nextblock = c.nextblock) (hb : c'.blocks = update c.blocks b y)
    (hlt : b < n) (hne : c.nextblock ≠ some b) (hf : Fresh c.sectorSize b y.free l) :
    Aside n c nodes c' (update nodes b l) := by
  refine ⟨hs,hn,fun j => ?_⟩
  rw [hb]
  by_cases hj : j = b
  · grind
  · grind

theorem next_ne (h : Kept n c loc) {p : Place} (hb : loc b = some p) (hp : p ≠ .next) :
    c.nextblock ≠ some b := by
  intro hn
  cases hb.symm.trans (h.loc_next hn)
  exact hp rfl

theorem aside_obsolete (c : Sb) (nodes : ℕ → List Range) (b i : ℕ) :
    Aside n c nodes (c.markNodeObsolete b i) nodes := by
  rw [Sb.markNodeObsolete]
  split
  · exact .of_blocks rfl rfl rfl
  · rename_i ref _
    dsimp only
    generalize hy : (c.blocks b).markObsolete i ref.totlen = y
    generalize hc : ((c.shrink .used ref.totlen).grow .dirty ref.totlen).setBlock b y = c'
    have hfree : y.free = (c.blocks b).free := by rw [← hy,Eraseblock.markObsolete_free]
    have hsec : c'.sectorSize = c.sectorSize := by rw [← hc]; rfl
    have hnext : c'.nextblock = c.nextblock := by rw [← hc]; rfl
    have hblocks : c'.blocks = update c.blocks b y := by rw [← hc]; rfl
    have haside : Aside n c nodes c' nodes := by
      refine ⟨hsec,hnext,fun j => .inl ⟨?_,rfl⟩⟩
      rw [hblocks]
      grind
    split_ifs
    · exact .of_blocks rfl rfl rfl
    · exact .of_blocks rfl rfl rfl
    · exact ⟨haside.sector,haside.next,haside.block⟩
    · exact haside
    · exact ⟨haside.sector,haside.next,haside.block⟩
    · exact haside

theorem aside_startErase (h : Kept n c loc) (hb : (c.lists .erasePending).head? = some b) :
    Aside n c nodes (c.startErase b) (update nodes b []) := by
  have hloc := h.loc_of_head hb
  have hne := next_ne h hloc (by simp)
  obtain ⟨hsec,-,-,hnext,hblocks⟩ := c.startErase_frame b
  exact @Aside.of_fresh c _ b nodes n ⟨0,0,0,[]⟩ [] hsec hnext hblocks (h.lt hloc) hne (.inl ⟨rfl,rfl⟩)

theorem aside_markFree (h : Kept n c loc) (hb : c.marking = some b) :
    Aside n c nodes (c.markFree b)
      (update nodes b [⟨b * c.sectorSize,pad4 sizeofUnknownNode⟩]) := by
  have hloc := h.loc_marking hb
  have hne := next_ne h hloc (by simp)
  have hfree : (Eraseblock.marked c.sectorSize).free =
      sub32 c.sectorSize (pad4 sizeofUnknownNode) := by
    rfl
  simp only [Sb.markFree]
  generalize Eraseblock.marked c.sectorSize = y at hfree ⊢
  refine @Aside.of_fresh c _ b nodes n y _ ?_ ?_ ?_ (h.lt hloc) hne (.inr ⟨hfree,rfl⟩)
  all_goals
    split_ifs
    all_goals rfl

theorem aside_act {a : Action} (h : Kept n c loc) (ha : Apart a = true)
    (hs : Space.step c a = some c') : Aside n c nodes c' (recorded c nodes a) := by
  rw [Space.step.eq_def] at hs
  split at hs
  · cases hs
  cases a with
  | reserve | addRef => cases ha
  | obsolete b i =>
    cases hs
    exact aside_obsolete c nodes b i
  | findGcBlock jiffies =>
    dsimp only at hs
    split_ifs at hs
    cases hs
    rw [Sb.findGcBlock]
    split <;> exact .of_blocks rfl rfl rfl
  | eraseit =>
    cases hs
    rw [Sb.eraseit]
    split
    · split_ifs <;> exact .of_blocks rfl rfl rfl
    · exact .of_blocks rfl rfl rfl
  | startErase =>
    obtain ⟨b,hb,rfl⟩ := Option.map_eq_some_iff.mp hs
    rw [recorded,hb]
    exact aside_startErase h hb
  | refile | eraseFailed | eraseDone =>
    dsimp only at hs
    split_ifs at hs
    cases hs
    exact .of_blocks rfl rfl rfl
  | markErased =>
    dsimp only at hs
    split_ifs at hs
    obtain ⟨b,hb,rfl⟩ := Option.map_eq_some_iff.mp hs
    exact .of_blocks rfl rfl rfl
  | markNoRef | markBad =>
    obtain ⟨b,hb,rfl⟩ := Option.map_eq_some_iff.mp hs
    exact .of_blocks rfl rfl rfl
  | markFree =>
    obtain ⟨b,hb,rfl⟩ := Option.map_eq_some_iff.mp hs
    rw [recorded,hb]
    exact aside_markFree h hb

end

/-- The range is the free part of `nextblock`. -/
def FreeTail (c : Sb) (r : Range) : Prop :=
  ∃ b, c.nextblock = some b ∧ r.len = (c.blocks b).free ∧ r.len ≤ c.sectorSize ∧
    r.ofs = b * c.sectorSize + (c.sectorSize - r.len)

/-- No node is recorded in the free part of its block. -/
def Laid (sector b free : ℕ) (nodes : List Range) : Prop :=
  ∀ e ∈ nodes, b * sector ≤ e.ofs ∧ e.ofs + e.len + free ≤ (b + 1) * sector

structure Flash (n : ℕ) (c : Sb) (nodes : ℕ → List Range) : Prop where
  sector_le : 12 ≤ c.sectorSize
  aligned : c.sectorSize % 4 = 0
  flash_lt : n * c.sectorSize < 4294967296
  kept : c.bug = false → ∃ loc, Kept n c loc
  free : ∀ b, b < n → (c.blocks b).free ≤ c.sectorSize ∧ (c.blocks b).free % 4 = 0
  laid : ∀ b, Laid c.sectorSize b (c.blocks b).free (nodes b)

section
variable {n b m : ℕ} {c c' : Sb} {nodes nodes' : ℕ → List Range} {r : Range}

theorem Laid.closed {sector free : ℕ} {l : List Range} (h : Laid sector b free l) :
    Laid sector b 0 l := fun e he => ⟨(h e he).1,by have := (h e he).2; omega⟩

section
variable (h : Flash n c nodes)
include h

theorem Flash.sector_lt (hb : b < n) :
    (b + 1) * c.sectorSize < 4294967296 :=
  lt_of_le_of_lt (Nat.mul_le_mul_right _ hb) h.flash_lt

theorem Flash.closes (hc : Closes c c')
    (hk : c'.bug = false → ∃ loc, Kept n c' loc) : Flash n c' nodes := by
  refine ⟨?_,?_,?_,hk,fun b hb => ?_,fun b => ?_⟩
  · rw [hc.sector]
    exact h.sector_le
  · rw [hc.sector]
    exact h.aligned
  · rw [hc.sector]
    exact h.flash_lt
  · rw [hc.sector]
    obtain hf | hf := hc.free b
    · rw [hf]
      exact h.free b hb
    · omega
  · rw [hc.sector]
    obtain hf | hf := hc.free b
    · rw [hf]
      exact h.laid b
    · rw [hf]
      exact (h.laid b).closed

theorem Flash.reserve (hbug : c.bug = false) (m : ℕ) :
    Flash n (c.doReserveSpace m) nodes := by
  refine h.closes (closes_reserve m c) fun _ => ?_
  obtain ⟨loc,hloc⟩ := h.kept hbug
  obtain ⟨loc',hm⟩ := moved_reserve m hloc
  exact ⟨loc',hm.kept⟩

/-- What `jffs2_do_reserve_space` gives is the free part of `nextblock`. -/
theorem Flash.given (hbug : c.bug = false) (ho : outcome c = .given r) :
    FreeTail c r := by
  rw [outcome] at ho
  split at ho
  · rename_i b hb
    cases ho
    obtain ⟨loc,hloc⟩ := h.kept hbug
    have hlt := hloc.lt (hloc.loc_next hb)
    obtain ⟨hfree,-⟩ := h.free b hlt
    have hend := h.sector_lt hlt
    refine ⟨b,hb,rfl,hfree,?_⟩
    rw [Nat.succ_mul] at hend
    rw [sub32_of_le hfree (by omega),u32_of_lt (by omega)]
  · split_ifs at ho

omit h in
theorem outcome_given (ho : outcome c = .given r) :
    ∃ b, c.nextblock = some b ∧ r.len = (c.blocks b).free := by
  rw [outcome] at ho
  split at ho
  · grind
  · split_ifs at ho

theorem Flash.aside (ha : Aside n c nodes c' nodes')
    (hk : c'.bug = false → ∃ loc, Kept n c' loc) : Flash n c' nodes' := by
  have hpad : pad4 sizeofUnknownNode = 12 := by decide
  have hmark {b : ℕ} (hb : b < n) :
      sub32 c.sectorSize (pad4 sizeofUnknownNode) = c.sectorSize - 12 := by
    have hend := h.sector_lt hb
    rw [Nat.succ_mul] at hend
    rw [hpad,sub32_of_le h.sector_le (by omega)]
  refine ⟨?_,?_,?_,hk,fun b hb => ?_,fun b => ?_⟩
  · rw [ha.sector]
    exact h.sector_le
  · rw [ha.sector]
    exact h.aligned
  · rw [ha.sector]
    exact h.flash_lt
  · rw [ha.sector]
    have hal := h.aligned
    obtain ⟨hf,-⟩ | ⟨-,-,⟨hf,-⟩ | ⟨hf,-⟩⟩ := ha.block b
    · rw [hf]
      exact h.free b hb
    · omega
    · rw [hf,hmark hb]
      omega
  · rw [ha.sector]
    obtain ⟨hf,hl⟩ | ⟨hb,-,⟨hf,hl⟩ | ⟨hf,hl⟩⟩ := ha.block b
    · rw [hf,hl]
      exact h.laid b
    · rw [hl]
      exact fun e he => absurd he not_mem_nil
    · rw [hf,hl,hmark hb,hpad]
      intro e he
      obtain rfl := mem_singleton.mp he
      have hle := h.sector_le
      grind

omit h in
theorem FreeTail.aside (h : FreeTail c r) (ha : Aside n c nodes c' nodes') : FreeTail c' r := by
  obtain ⟨b,hb,hlen,hle,hofs⟩ := h
  refine ⟨b,ha.next.trans hb,?_,by rw [ha.sector]; exact hle,by rw [ha.sector]; exact hofs⟩
  obtain ⟨hf,-⟩ | ⟨-,hne,-⟩ := ha.block b
  · rw [hlen,hf]
  · exact absurd hb hne

omit h in
theorem addRef_facts {ofs len : ℕ} {dirty : Bool} (hdiv : ofs / c.sectorSize = b)
    (hn : c.nextblock = some b)
    (hofs : ofs = b * c.sectorSize + (c.sectorSize - (c.blocks b).free)) :
    (c.addPhysicalNodeRef ofs len dirty).sectorSize = c.sectorSize ∧
    (c.addPhysicalNodeRef ofs len dirty).blocks =
      update c.blocks b ((c.blocks b).addNode (pad4 len) dirty) ∧
    (sub32 (c.blocks b).free (pad4 len) ≠ 0 →
      (c.addPhysicalNodeRef ofs len dirty).nextblock = some b) := by
  simp only [Sb.addPhysicalNodeRef]
  rw [hdiv,if_neg (not_or.mpr ⟨not_not.mpr hn,not_not.mpr hofs⟩)]
  have hfree := (c.blocks b).addNode_free (pad4 len) dirty
  generalize (c.blocks b).addNode (pad4 len) dirty = y at hfree ⊢
  generalize hc : ((c.shrink .free (pad4 len)).grow (if dirty then .dirty else .used)
    (pad4 len)).setBlock b y = c'
  have hsec : c'.sectorSize = c.sectorSize := by rw [← hc]; rfl
  have hnext : c'.nextblock = c.nextblock := by rw [← hc]; rfl
  have hblocks : c'.blocks = update c.blocks b y := by rw [← hc]; rfl
  rw [← hfree]
  by_cases hfull : y.free = 0 ∧ y.dirty = 0
  · refine ⟨?_,?_,fun hne => absurd hfull.1 hne⟩
    · split_ifs <;> exact hsec
    · split_ifs <;> exact hblocks
  · grind

theorem Flash.take {k : ℕ} {y : Eraseblock}
    (hsec : c'.sectorSize = c.sectorSize) (hblocks : c'.blocks = update c.blocks b y)
    (hk : k ≤ (c.blocks b).free) (hal : k % 4 = 0) (hy : y.free = (c.blocks b).free - k)
    (hle : (c.blocks b).free ≤ c.sectorSize)
    (hkept : c'.bug = false → ∃ loc, Kept n c' loc) :
    Flash n c' (update nodes b
      (nodes b ++ [⟨b * c.sectorSize + (c.sectorSize - (c.blocks b).free),k⟩])) := by
  refine ⟨by rw [hsec]; exact h.sector_le,by rw [hsec]; exact h.aligned,
    by rw [hsec]; exact h.flash_lt,hkept,fun j hj => ?_,fun j => ?_⟩
  · rw [hsec,hblocks]
    by_cases he : j = b
    · subst he
      rw [update_self,hy]
      have := (h.free j hj).2
      omega
    · rw [update_of_ne he]
      exact h.free j hj
  · rw [hsec,hblocks]
    by_cases he : j = b
    · subst he
      rw [update_self,update_self,hy]
      intro e hmem
      obtain hmem | hmem := mem_append.mp hmem
      · have := h.laid j e hmem
        omega
      · obtain rfl := mem_singleton.mp hmem
        grind
    · rw [update_of_ne he,update_of_ne he]
      exact h.laid j

end

theorem Flash.write {s : State} {len : ℕ} (dirty : Bool) (h : Flash n s.c s.nodes)
    (hbug : s.c.bug = false) (hr : FreeTail s.c r) (hpos : 0 < len) (hlen : len ≤ r.len) :
    Flash n (s.addNode r.ofs len dirty).c (s.addNode r.ofs len dirty).nodes ∧
    (0 < (r.after len).len → FreeTail (s.addNode r.ofs len dirty).c (r.after len)) := by
  obtain ⟨b,hb,hfree,hle,hofs⟩ := hr
  obtain ⟨loc,hloc⟩ := h.kept hbug
  have hlt := hloc.lt (hloc.loc_next hb)
  have hend := h.sector_lt hlt
  rw [Nat.succ_mul] at hend
  have hpad : pad4 len ≤ r.len := by
    refine pad4_le hlen ?_ (by omega)
    rw [hfree]
    exact (h.free b hlt).2
  have hdiv : r.ofs / s.c.sectorSize = b := by
    rw [hofs,mul_comm,Nat.mul_add_div (by omega),Nat.div_eq_of_lt (by omega),add_zero]
  have hofs' : r.ofs = b * s.c.sectorSize + (s.c.sectorSize - (s.c.blocks b).free) := by
    omega
  obtain ⟨hsec,hblocks,hnext⟩ := @addRef_facts b s.c r.ofs len dirty hdiv hb hofs'
  have hleft : ((s.c.blocks b).addNode (pad4 len) dirty).free = (s.c.blocks b).free - pad4 len := by
    rw [Eraseblock.addNode_free,sub32_of_le (hfree ▸ hpad) (by omega)]
  have hlegal : len ≤ (s.c.blocks (r.ofs / s.c.sectorSize)).free := by
    grind
  obtain ⟨loc',hm⟩ := @moved_addRef n s.c loc r.ofs len dirty hloc hlegal
  have hnodes : (s.addNode r.ofs len dirty).nodes =
      update s.nodes b (s.nodes b ++ [⟨r.ofs,pad4 len⟩]) := by
    simp only [State.addNode]
    grind
  have hc : (s.addNode r.ofs len dirty).c = s.c.addPhysicalNodeRef r.ofs len dirty := rfl
  have hrest : (r.after len).len = (s.c.blocks b).free - pad4 len := by
    rw [Range.after,← hfree]
    exact sub32_of_le hpad (by omega)
  have hstart : (r.after len).ofs = r.ofs + pad4 len := by
    exact u32_of_lt (by omega)
  rw [hnodes,hc]
  refine ⟨?_,fun hp => ⟨b,hnext ?_,?_,?_,?_⟩⟩
  · have htake := h.take hsec hblocks (hfree ▸ hpad) (four_dvd_pad4 len) hleft (hfree ▸ hle)
      fun _ => ⟨loc',hm.kept⟩
    rwa [← hofs'] at htake
  · rw [sub32_of_le (hfree ▸ hpad) (by omega),← hrest]
    exact Nat.ne_of_gt hp
  · rw [hblocks,update_self,hleft,hrest]
  · omega
  · rw [hsec,hstart,hrest,hofs,hfree]
    omega

end

/-- The phases with `alloc_sem` taken. -/
def Phase.holding : Phase → Bool
  | .looking _ | .waiting _ | .writing .. | .collecting .. | .gcWaiting .. => true
  | .returned _ ret _ => decide (ret = 0)
  | _ => false

structure State.Sem (s : State) : Prop where
  count : s.count + s.holders.length = 1
  holds : ∀ i, i ∈ s.holders ↔ (s.phase i).holding = true

section
variable {s t : State} {i j : ℕ} {p : Phase}

theorem State.Sem.unique (h : s.Sem) (hi : (s.phase i).holding = true)
    (hj : (s.phase j).holding = true) : j = i := by
  have hle : s.holders.length ≤ 1 := by have := h.count; omega
  have hmi := (h.holds i).mpr hi
  have hmj := (h.holds j).mpr hj
  obtain hl | ⟨k,hl⟩ : s.holders = [] ∨ ∃ k, s.holders = [k] := by
    rw [← length_eq_zero_iff,← length_eq_one_iff]
    omega
  · rw [hl] at hmi
    cases hmi
  · grind

theorem State.Sem.go (h : s.Sem) (hp : p.holding = (s.phase i).holding) : (s.go i p).Sem := by
  refine ⟨h.count,fun j => ?_⟩
  show j ∈ s.holders ↔ (update s.phase i p j).holding = true
  by_cases hj : j = i
  · rw [hj,update_self,hp]
    exact h.holds i
  · rw [update_of_ne hj]
    exact h.holds j

theorem State.Sem.down (h : s.Sem) (ht : s.down i = some t) (hp : p.holding = true) :
    (t.go i p).Sem := by
  rw [State.down] at ht
  split_ifs at ht with hc
  cases ht
  have hcount := h.count
  refine ⟨?_,fun j => ?_⟩
  · show s.count - 1 + (i :: s.holders).length = 1
    rw [length_cons]
    omega
  · show j ∈ i :: s.holders ↔ (update s.phase i p j).holding = true
    rw [mem_cons]
    by_cases hj : j = i
    · grind
    · rw [update_of_ne hj,← h.holds j]
      exact or_iff_right hj

theorem State.Sem.up (h : s.Sem) (hi : (s.phase i).holding = true) (hp : p.holding = false) :
    ((s.up i).go i p).Sem := by
  have hmem := (h.holds i).mpr hi
  have hcount := h.count
  have hpos := length_pos_of_mem hmem
  refine ⟨?_,fun j => ?_⟩
  · show s.count + 1 + (s.holders.erase i).length = 1
    grind
  · show j ∈ s.holders.erase i ↔ (update s.phase i p j).holding = true
    obtain ⟨k,hl⟩ : ∃ k, s.holders = [k] := length_eq_one_iff.mp (by omega)
    rw [hl] at hmem
    obtain rfl := mem_singleton.mp hmem
    have hnil : s.holders.erase i = [] := by grind
    rw [hnil]
    by_cases hj : j = i
    · grind
    · rw [update_of_ne hj]
      exact iff_of_false not_mem_nil fun hk => hj (h.unique hi hk)

end

/-- What a phase says of the range that its thread writes to. -/
def Phase.Placed (c : Sb) : Phase → Prop
  | .returned q ret out => ret = 0 → ∃ r, out = some r ∧ FreeTail c r ∧
    (pad4 q.minsize ≤ c.sectorSize - 12 → pad4 q.minsize ≤ r.len)
  | .writing _ rest => 0 < rest.len → FreeTail c rest
  | .collecting _ got => ∀ x ∈ got, 0 < x.2.len → FreeTail c x.2
  | _ => True

theorem placed_of_not_holding {p : Phase} (h : p.holding = false) (c : Sb) : p.Placed c := by
  cases p with
  | returned q ret out => exact fun hret => absurd hret (of_decide_eq_false h)
  | writing | collecting => cases h
  | idle | entering | looking | waiting | passing | gcWaiting | collected => trivial

theorem Phase.Placed.aside {n : ℕ} {c c' : Sb} {nodes nodes' : ℕ → List Range} {p : Phase}
    (h : p.Placed c) (ha : Aside n c nodes c' nodes') : p.Placed c' := by
  cases p with
  | returned q ret out =>
    intro hret
    obtain ⟨r,hout,htail,henough⟩ := h hret
    rw [ha.sector]
    exact ⟨r,hout,htail.aside ha,henough⟩
  | writing out rest => exact fun hp => (h hp).aside ha
  | collecting q got => exact fun x hx hp => (h x hx hp).aside ha
  | idle | entering | looking | waiting | passing | gcWaiting | collected => trivial

structure State.Inv (n : ℕ) (s : State) : Prop where
  sem : s.Sem
  flash : Flash n s.c s.nodes
  placed : ∀ i, (s.phase i).Placed s.c

section
variable {n : ℕ} {s t : State} {i : ℕ} {p : Phase}

section
variable (h : s.Inv n)
include h

theorem State.Inv.still (hsem : (t.go i p).Sem) (hc : t.c = s.c)
    (hnodes : t.nodes = s.nodes) (hphase : t.phase = s.phase) (hp : p.Placed s.c) :
    (t.go i p).Inv n := by
  refine ⟨hsem,?_,fun j => ?_⟩
  · show Flash n t.c t.nodes
    rw [hc,hnodes]
    exact h.flash
  · show (update t.phase i p j).Placed t.c
    rw [hc,hphase]
    by_cases hj : j = i
    · grind
    · rw [update_of_ne hj]
      exact h.placed j

theorem State.Inv.move (hi : (s.phase i).holding = true) (hsem : (t.go i p).Sem)
    (hflash : Flash n t.c t.nodes) (hphase : t.phase = s.phase) (hp : p.Placed t.c) :
    (t.go i p).Inv n := by
  refine ⟨hsem,hflash,fun j => ?_⟩
  show (update t.phase i p j).Placed t.c
  rw [hphase]
  by_cases hj : j = i
  · grind
  · rw [update_of_ne hj]
    exact placed_of_not_holding (Bool.eq_false_iff.mpr fun hk => hj (h.sem.unique hi hk)) _

theorem State.Inv.reserved (hbug : s.c.bug = false) (m : ℕ) {c : Sb}
    (hc : s.c.doReserveSpace m = c) :
    ({ s with c := c } : State).Sem ∧ Flash n c s.nodes ∧
    ∀ r, outcome c = .given r → FreeTail c r ∧ (m ≤ c.sectorSize - 12 → m ≤ r.len) := by
  have hcloses := closes_reserve m s.c
  have hflash := h.flash.reserve hbug m
  rw [hc] at hcloses hflash
  refine ⟨⟨h.sem.count,h.sem.holds⟩,hflash,fun r hr => ⟨?_,fun hm => ?_⟩⟩
  · exact hflash.given (hcloses.bug.trans hbug) hr
  · obtain ⟨b,hb,hlen⟩ := outcome_given hr
    rw [hcloses.sector] at hm
    rw [hlen]
    subst hc
    exact reserve_enough hb hm

theorem State.Inv.reserve (hbug : s.c.bug = false)
    (hi : (s.phase i).holding = true) (q : Request) : (s.reserve i q).Inv n := by
  have hno : (Phase.returned q (-ENOSPC) none).Placed s.c := placed_of_not_holding rfl _
  rw [State.reserve]
  split_ifs
  · exact h.still (h.sem.up hi rfl) rfl rfl rfl hno
  · exact h.still (h.sem.up hi rfl) rfl rfl rfl trivial
  · dsimp only
    generalize hc : s.c.doReserveSpace (pad4 q.minsize) = c
    obtain ⟨hsem,hflash,hgiven⟩ := h.reserved hbug _ hc
    cases ho : outcome c with
    | given r =>
      obtain ⟨htail,henough⟩ := hgiven r ho
      exact h.move hi (hsem.go hi.symm) hflash rfl fun _ => ⟨r,rfl,htail,henough⟩
    | noSpace =>
      exact h.move hi (hsem.up hi rfl) hflash rfl (placed_of_not_holding rfl _)
    | wait => exact h.move hi (hsem.go hi.symm) hflash rfl trivial

theorem State.Inv.reserveGc (hbug : s.c.bug = false)
    (hi : (s.phase i).holding = true) (q : Option Request) (minsize : ℕ) :
    (s.reserveGc i q minsize).Inv n := by
  rw [State.reserveGc]
  generalize hc : s.c.doReserveSpace (pad4 minsize) = c
  obtain ⟨hsem,hflash,hgiven⟩ := h.reserved hbug _ hc
  cases ho : outcome c with
  | given r =>
    refine h.move hi (hsem.go hi.symm) hflash rfl fun x hx _ => ?_
    cases hx
    exact (hgiven r ho).1
  | noSpace =>
    refine h.move hi (hsem.go hi.symm) hflash rfl fun x hx _ => ?_
    cases hx
  | wait => exact h.move hi (hsem.go hi.symm) hflash rfl trivial

theorem State.Inv.endPass (q : Option Request) (ret : ℤ)
    (hsem : ∀ p : Phase, p.holding = false → (t.go i p).Sem) (hc : t.c = s.c)
    (hnodes : t.nodes = s.nodes) (hphase : t.phase = s.phase) : (t.endPass i q ret).Inv n := by
  have hstill (p : Phase) (hp : p.holding = false) : (t.go i p).Inv n :=
    h.still (hsem p hp) hc hnodes hphase (placed_of_not_holding hp _)
  cases q with
  | none => exact hstill _ rfl
  | some q =>
    rw [State.endPass]
    split_ifs with hret
    · exact hstill _ rfl
    · exact hstill _ (decide_eq_false hret)

omit h in
theorem State.Inv.write {r : Range} {len : ℕ} (dirty : Bool) (h : s.Inv n) (hbug : s.c.bug = false)
    (hi : (s.phase i).holding = true) (hlen : 0 < len ∧ len ≤ r.len) (hr : FreeTail s.c r)
    (hp : p.holding = true)
    (hplaced : ∀ c, (0 < (r.after len).len → FreeTail c (r.after len)) → p.Placed c) :
    ((s.addNode r.ofs len dirty).go i p).Inv n := by
  obtain ⟨hflash,htail⟩ := h.flash.write dirty hbug hr hlen.1 hlen.2
  have hsem : (s.addNode r.ofs len dirty).Sem := ⟨h.sem.count,h.sem.holds⟩
  exact h.move hi (hsem.go (hp.trans hi.symm)) hflash rfl (hplaced _ htail)

theorem State.Inv.act {a : Action} {c : Sb} (hbug : s.c.bug = false)
    (ha : Apart a = true) (hl : Legal s.c a) (hs : Space.step s.c a = some c) :
    ({ s with c, nodes := recorded s.c s.nodes a } : State).Inv n := by
  obtain ⟨loc,hloc⟩ := h.flash.kept hbug
  have haside : Aside n s.c s.nodes c (recorded s.c s.nodes a) := aside_act hloc ha hs
  obtain ⟨loc',hstep⟩ := step_stepped hloc hl hs
  refine ⟨⟨h.sem.count,h.sem.holds⟩,?_,fun j => (h.placed j).aside haside⟩
  exact h.flash.aside haside fun hf => ⟨loc',hstep.kept hf⟩

theorem State.Inv.quiet (hi : (s.phase i).holding = false)
    (hp : p.holding = false) : (s.go i p).Inv n :=
  h.still (h.sem.go (hp.trans hi.symm)) rfl rfl rfl (placed_of_not_holding hp _)

theorem State.Inv.up (hi : (s.phase i).holding = true) (hp : p.holding = false) :
    ((s.up i).go i p).Inv n :=
  h.still (h.sem.up hi hp) rfl rfl rfl (placed_of_not_holding hp _)

theorem State.Inv.down {u : State} (hu : s.down i = some u)
    (hp : p.holding = true) (hplaced : p.Placed s.c) : (u.go i p).Inv n := by
  have hsem := h.sem.down hu hp
  rw [State.down] at hu
  split_ifs at hu
  cases hu
  exact h.still hsem rfl rfl rfl hplaced

/-- Each of the three phases that may write has its range at the free tail of `nextblock`. -/
theorem State.Inv.writeOp {len : ℕ} {dirty : Bool} (hbug : s.c.bug = false)
    (ht : Reserve.step s (.write i len dirty) = some t) : t.Inv n := by
  rw [Reserve.step.eq_def,if_neg (Bool.eq_false_iff.mp hbug)] at ht
  have hplaced := h.placed i
  dsimp only at ht
  split at ht
  · rename_i q r hi
    split_ifs at ht with hlen
    cases ht
    rw [hi] at hplaced
    obtain ⟨r',hr',htail,-⟩ := hplaced rfl
    cases hr'
    exact h.write dirty hbug (by rw [hi]; rfl) hlen htail rfl fun c hc => hc
  · rename_i r rest hi
    split_ifs at ht with hlen
    cases ht
    rw [hi] at hplaced
    have htail := hplaced (lt_of_lt_of_le hlen.1 hlen.2)
    exact h.write dirty hbug (by rw [hi]; rfl) hlen htail rfl fun c hc => hc
  · rename_i q r rest hi
    split_ifs at ht with hlen
    cases ht
    rw [hi] at hplaced
    have htail := hplaced (r,rest) rfl (lt_of_lt_of_le hlen.1 hlen.2)
    refine h.write dirty hbug (by rw [hi]; rfl) hlen htail rfl fun c hc x hx => ?_
    cases hx
    exact hc
  · cases ht

theorem State.Inv.step {op : Op} (ht : Reserve.step s op = some t) : t.Inv n := by
  rw [Reserve.step.eq_def] at ht
  split at ht
  · cases ht
  rename_i hb
  have hbug := Bool.eq_false_iff.mpr hb
  cases op with
  | call | startPass =>
    dsimp only at ht
    split_ifs at ht with hi
    cases ht
    exact h.quiet (by rw [hi]; rfl) rfl
  | down i =>
    dsimp only at ht
    split at ht
    · obtain ⟨u,hu,rfl⟩ := Option.map_eq_some_iff.mp ht
      exact h.down hu rfl trivial
    · cases ht
  | reserve i =>
    dsimp only at ht
    split at ht
    · rename_i q hi
      cases ht
      exact h.reserve hbug (by rw [hi]; rfl) q
    · cases ht
  | wake i signal =>
    dsimp only at ht
    split at ht
    · rename_i q hi
      cases ht
      cases signal with
      | true => exact h.up (by rw [hi]; rfl) rfl
      | false => exact h.reserve hbug (by rw [hi]; rfl) q
    · cases ht
  | downPass i signal =>
    dsimp only at ht
    split at ht
    · rename_i q hi
      cases signal with
      | true =>
        cases ht
        exact h.endPass q _ (fun p hp => h.sem.go (by rw [hp,hi]; rfl)) rfl rfl rfl
      | false =>
        obtain ⟨u,hu,rfl⟩ := Option.map_eq_some_iff.mp ht
        exact h.down hu rfl fun x hx => by cases hx
    · cases ht
  | reserveGc i minsize =>
    dsimp only at ht
    split at ht
    · rename_i q got hi
      cases ht
      exact h.reserveGc hbug (by rw [hi]; rfl) q minsize
    · cases ht
  | wakeGc i signal =>
    dsimp only at ht
    split at ht
    · rename_i q minsize hi
      cases ht
      cases signal with
      | true => exact h.still (h.sem.go (by rw [hi]; rfl)) rfl rfl rfl fun x hx => by cases hx
      | false => exact h.reserveGc hbug (by rw [hi]; rfl) q minsize
    · cases ht
  | endPass i ret =>
    dsimp only at ht
    split at ht
    · rename_i q got hi
      cases ht
      exact h.endPass q ret (fun p hp => h.sem.up (by rw [hi]; rfl) hp) rfl rfl rfl
    · cases ht
  | resume i signal =>
    dsimp only at ht
    split at ht
    · rename_i q hi
      cases ht
      cases signal with
      | true | false => exact h.quiet (by rw [hi]; rfl) rfl
    · cases ht
  | write i len dirty =>
    exact h.writeOp hbug (by rw [Reserve.step.eq_def,if_neg hb]; exact ht)
  | leave i =>
    dsimp only at ht
    split at ht
    · rename_i q ret out hi
      cases ht
      split_ifs with hret
      · exact h.up (by rw [hi]; exact decide_eq_true hret) rfl
      · exact h.quiet (by rw [hi]; exact decide_eq_false hret) rfl
    · rename_i out rest hi
      cases ht
      exact h.up (by rw [hi]; rfl) rfl
    · cases ht
  | act a =>
    dsimp only at ht
    split_ifs at ht with ha
    obtain ⟨c,hc,rfl⟩ := Option.map_eq_some_iff.mp ht
    exact h.act hbug ha.1 ha.2 hc

end

theorem Flash.given_of_tail {q : Request} {r : Range} (h : Flash n s.c s.nodes)
    (ht : FreeTail s.c r) (hm : pad4 q.minsize ≤ s.c.sectorSize - 12 → pad4 q.minsize ≤ r.len) :
    ∃ b, Given s q r b := by
  obtain ⟨b,hb,hfree,hle,hofs⟩ := ht
  have htail : r.ofs + r.len = (b + 1) * s.c.sectorSize := by
    rw [Nat.succ_mul]
    omega
  refine ⟨b,hb,hfree ▸ hofs,htail,hm,fun j e he => ?_⟩
  obtain ⟨hstart,hend⟩ := h.laid j e he
  obtain hj | rfl | hj := lt_trichotomy j b
  · have hbelow : (j + 1) * s.c.sectorSize ≤ b * s.c.sectorSize := Nat.mul_le_mul_right _ hj
    exact .inl (by omega)
  · exact .inl (by omega)
  · have habove : (b + 1) * s.c.sectorSize ≤ j * s.c.sectorSize := Nat.mul_le_mul_right _ hj
    exact .inr (by omega)

theorem holding_of_handed {r : Range} (h : p.handed = some r) : p.holding = true := by
  cases p with
  | returned q ret out =>
    rw [Phase.handed] at h
    split_ifs at h with hret
    exact decide_eq_true hret
  | writing | collecting => rfl
  | idle | entering | looking | waiting | passing | gcWaiting | collected => cases h

theorem State.Inv.good (h : s.Inv n) : s.Good := by
  refine ⟨fun i q ret out hi => ?_,fun i q out hi => ?_,fun i r hi j hj => ?_⟩
  · rw [h.sem.holds i,hi]
    exact decide_eq_true_iff.symm
  · have hplaced := h.placed i
    rw [hi] at hplaced
    obtain ⟨r,hout,htail,hm⟩ := hplaced rfl
    obtain ⟨b,hb⟩ := h.flash.given_of_tail htail hm
    exact ⟨r,b,hout,hb⟩
  · by_contra hne
    obtain ⟨r',hr'⟩ := Option.ne_none_iff_exists'.mp hne
    exact hj (h.sem.unique (holding_of_handed hi) (holding_of_handed hr'))

theorem State.Accounted.inv (h : s.Accounted n) : s.Inv n := by
  obtain ⟨loc,hkept,hbooks⟩ := h.books
  have hflash := hbooks.flash_lt
  rw [hbooks.flash] at hflash
  refine ⟨⟨by rw [h.count,h.holders]; rfl,fun i => ?_⟩,
    ⟨hbooks.sector_le,hbooks.sector_aligned,hflash,fun _ => ⟨loc,hkept⟩,fun b hb => ?_,h.laid⟩,
    fun i => ?_⟩
  · rw [h.holders,h.idle i]
    exact iff_of_false not_mem_nil Bool.false_ne_true
  · have hfits := hbooks.fits b hb
    exact ⟨hfits.weight_le .free,hfits.aligned⟩
  · rw [h.idle i]
    trivial

end

/-- From any accounted state, whatever the threads, the passes and the erases do: a call returns 0
just when its thread holds `alloc_sem`, and then what it was given is the free part of `nextblock`,
long enough, free of recorded nodes and nobody else's. -/
theorem reserve_space_given {n : ℕ} {s₀ s : State} {ops : List Op} (h : s₀.Accounted n)
    (hr : run step s₀ ops = some s) : s.Good :=
  (invariant_of_step step (fun _ _ _ hs ht => hs.step ht) h.inv hr).good

def fiveBlocks : Sb where
  sectorSize := 16
  flashSize := 80
  blocks := fun b => if b < 5 then ⟨12,0,4,[⟨12,false,false⟩]⟩ else ⟨0,0,0,[]⟩
  size := fun k => if k = .used then 60 else if k = .free then 20 else 0
  nrFree := 5
  nrErasing := 0
  lists := fun k => if k = .free then [0,1,2,3,4] else []
  nextblock := none
  gcblock := none
  marking := none
  bug := false

theorem mounted_fiveBlocks : Mounted 5 fiveBlocks where
  nodup := by decide
  placed := by
    intro b hb
    refine ⟨.list .free,?_,?_⟩
    all_goals
      interval_cases b <;> decide
  inside := by decide
  idle := by decide
  marker := by decide
  nrFree := rfl
  block := by
    intro b hb
    have hx : fiveBlocks.blocks b = ⟨12,0,4,[⟨12,false,false⟩]⟩ := if_pos hb
    rw [hx]
    exact ⟨fun _ => rfl,rfl,rfl,fun hs => absurd rfl hs⟩
  outside := fun b hb => by simp [fiveBlocks,not_lt.mpr hb]
  sizes := by decide
  sector_le := by decide
  sector_aligned := rfl
  flash := rfl
  flash_lt := by decide
  bug := rfl

def fresh : State :=
  ⟨fiveBlocks,fun b => if b < 5 then [⟨b * 16,12⟩] else [],1,[],fun _ => .idle⟩

theorem accounted_fresh : fresh.Accounted 5 := by
  obtain ⟨loc,hkept,hbooks⟩ := mounted_fiveBlocks.sound
  refine ⟨⟨loc,hkept,hbooks⟩,fun b e he => ?_,rfl,rfl,fun _ => rfl⟩
  by_cases hb : b < 5
  · have hnodes : fresh.nodes b = [⟨b * 16,12⟩] := if_pos hb
    have hfree : (fresh.c.blocks b).free = 4 := by
      show (if b < 5 then (⟨12,0,4,[⟨12,false,false⟩]⟩ : Eraseblock) else ⟨0,0,0,[]⟩).free = 4
      rw [if_pos hb]
    rw [hnodes] at he
    obtain rfl := mem_singleton.mp he
    rw [hfree]
    show b * 16 ≤ b * 16 ∧ b * 16 + 12 + 4 ≤ (b + 1) * 16
    omega
  · have hnodes : fresh.nodes b = [] := if_neg hb
    rw [hnodes] at he
    cases he

/-- Of two callers one gets the last four bytes of the first block; the other has to wait. -/
theorem reserve_space_given_fresh : ∃ s, run step fresh
      [.call 0 ⟨3,.normal⟩,.call 1 ⟨4,.normal⟩,.down 0,.reserve 0] = some s ∧
    s.phase 0 = .returned ⟨3,.normal⟩ 0 (some ⟨12,4⟩) ∧ step s (.down 1) = none ∧ s.Good := by
  obtain ⟨s,hs⟩ : ∃ s, run step fresh
      [.call 0 ⟨3,.normal⟩,.call 1 ⟨4,.normal⟩,.down 0,.reserve 0] = some s := ⟨_,rfl⟩
  refine ⟨s,hs,?_,?_,reserve_space_given accounted_fresh hs⟩
  all_goals
    cases hs
    decide

end Simpad.Jffs2.Reserve
