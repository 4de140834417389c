import Simpad.Jffs2.Node

namespace Simpad.Jffs2
open Word Segments List

/-- `struct jffs2_node_frag`; the value is the node, `none` for holes. -/
abbrev Frag := Segment (Option ℕ)

/-- `this->ofs + this->size`. -/
def fend (f : Frag) : ℕ := u32 (f.ofs + f.size)

def obsoleteNodeFrag (st : Store) (this : Frag) : Store :=
  match this.val with
  | none => st
  | some i =>
    let frags := sub32 (st.node i).fn.frags 1
    let st := st.setFrags i frags
    if frags = 0 then st.markNodeObsolete i else st

/-- Second half of `jffs2_add_full_dnode_to_fraglist`: drop the frags that end
inside the new one and shorten the first that reaches behind it. -/
def overlay (st : Store) (newfrag : Frag) (l : List Frag) : List Frag × Store :=
  let st := (l.takeWhile fun this => fend this ≤ fend newfrag).foldl obsoleteNodeFrag st
  match l.dropWhile fun this => fend this ≤ fend newfrag with
  | [] => ([],st)
  | this :: next =>
    if fend newfrag = this.ofs then (this :: next,st)
    else (⟨fend newfrag,sub32 (fend this) (fend newfrag),this.val⟩ :: next,st)

/-- One more fragment points at the node of `this`. -/
def incFrags (st : Store) (this : Frag) : Store :=
  match this.val with
  | none => st
  | some i => st.setFrags i (u32 ((st.node i).fn.frags + 1))

/-- `alloc k` says whether the `k`-th allocation of the call succeeds. -/
def addFullDnodeToFraglist (alloc : ℕ → Bool) (st : Store) (list : List Frag) (fn : ℕ) :
    Except Errno (List Frag) × Store :=
  let d := (st.node fn).fn
  if !alloc 0 then (.error .enomem,st)
  else if d.size = 0 then (.ok list,st)
  else
    let newfrag : Frag := ⟨d.ofs,d.size,some fn⟩
    let st := st.setFrags fn 1
    let before := list.takeWhile fun this => fend this ≤ d.ofs
    match list.dropWhile fun this => fend this ≤ d.ofs with
    | [] =>
      let lastend := (before.getLast?.map fend).getD 0
      if lastend < d.ofs then
        -- a hole goes in before the new node
        if !alloc 1 then (.error .enomem,st)
        else (.ok (before ++ [⟨lastend,sub32 d.ofs lastend,none⟩,newfrag]),st)
      else (.ok (before ++ [newfrag]),st)
    | this :: next =>
      if this.ofs < d.ofs then
        if fend newfrag < fend this then
          -- the new node splits `this` in two
          if !alloc 1 then (.error .enomem,st)
          else (.ok (before ++ ⟨this.ofs,sub32 d.ofs this.ofs,this.val⟩ :: newfrag ::
            ⟨fend newfrag,sub32 (fend this) (fend newfrag),this.val⟩ :: next),incFrags st this)
        else
          let r := overlay st newfrag next
          (.ok (before ++ ⟨this.ofs,sub32 d.ofs this.ofs,this.val⟩ :: newfrag :: r.1),r.2)
      else
        let r := overlay st newfrag (this :: next)
        (.ok (before ++ newfrag :: r.1),r.2)

def truncateFraglist (st : Store) (size : ℕ) : List Frag → List Frag × Store
  | [] => ([],st)
  | this :: next =>
    if size ≤ this.ofs then truncateFraglist (obsoleteNodeFrag st this) size next
    else
      let r := truncateFraglist st size next
      (⟨this.ofs,if size < fend this then sub32 size this.ofs else this.size,this.val⟩ :: r.1,r.2)

/-- Number of fragments that point at node `i`. -/
def fragsOf (l : List Frag) (i : ℕ) : ℕ := l.countP fun f => f.val = some i

/-- Some fragment starts at `p`. -/
def IsStart (l : List Frag) (p : ℕ) : Prop := ∃ f ∈ l, f.ofs = p

/-- The `frags` fields agree with the counts `c` of the nodes in use. -/
def CountedBy (st : Store) (c : ℕ → ℕ) : Prop := ∀ i, c i ≠ 0 → (st.node i).fn.frags = c i

/-- The two stores hold the same nodes; only reference counts and obsolete marks differ. -/
structure SameNodes (st st' : Store) : Prop where
  next : st'.next = st.next
  raw : ∀ i, (st'.node i).raw = (st.node i).raw
  ofs : ∀ i, (st'.node i).fn.ofs = (st.node i).fn.ofs
  size : ∀ i, (st'.node i).fn.size = (st.node i).fn.size

theorem SameNodes.refl (st : Store) : SameNodes st st :=
  ⟨rfl,fun _ => rfl,fun _ => rfl,fun _ => rfl⟩

theorem SameNodes.trans {a b c : Store} (h₁ : SameNodes a b) (h₂ : SameNodes b c) :
    SameNodes a c :=
  ⟨h₂.next.trans h₁.next,fun i => (h₂.raw i).trans (h₁.raw i),
    fun i => (h₂.ofs i).trans (h₁.ofs i),fun i => (h₂.size i).trans (h₁.size i)⟩

theorem SameNodes.setFrags (st : Store) (i n : ℕ) : SameNodes st (st.setFrags i n) :=
  ⟨rfl,by simp,by simp,by simp⟩

theorem SameNodes.markNodeObsolete (st : Store) (i : ℕ) : SameNodes st (st.markNodeObsolete i) :=
  ⟨rfl,by simp,by simp,by simp⟩

@[simp] theorem fragsOf_nil (i : ℕ) : fragsOf [] i = 0 := rfl

@[simp] theorem fragsOf_cons (f : Frag) (l : List Frag) (i : ℕ) :
    fragsOf (f :: l) i = fragsOf l i + if f.val = some i then 1 else 0 := by
  simp only [fragsOf,countP_cons,decide_eq_true_eq]

@[simp] theorem fragsOf_append (l₁ l₂ : List Frag) (i : ℕ) :
    fragsOf (l₁ ++ l₂) i = fragsOf l₁ i + fragsOf l₂ i := countP_append ..

variable {i a b : ℕ} {l : List Frag}

theorem fragsOf_ne_zero : fragsOf l i ≠ 0 ↔ ∃ f ∈ l, f.val = some i := by
  rw [fragsOf,← Nat.pos_iff_ne_zero,countP_pos_iff]
  simp

@[simp] theorem not_isStart_nil (p : ℕ) : ¬IsStart [] p := by simp [IsStart]

@[simp] theorem isStart_cons (f : Frag) (l : List Frag) (p : ℕ) :
    IsStart (f :: l) p ↔ f.ofs = p ∨ IsStart l p := by simp [IsStart]

@[simp] theorem isStart_append (l₁ l₂ : List Frag) (p : ℕ) :
    IsStart (l₁ ++ l₂) p ↔ IsStart l₁ p ∨ IsStart l₂ p := by
  simp only [IsStart,mem_append]
  constructor
  · grind
  · grind

section
variable (ht : Tiles a l b)
include ht

theorem IsStart.bounds {p : ℕ} (h : IsStart l p) : a ≤ p ∧ p < b := by
  obtain ⟨f,hf,rfl⟩ := h
  obtain ⟨h₁,h₂,h₃⟩ := ht.mem_bounds hf
  unfold Segment.stop at h₃
  omega

theorem fend_eq_stop {f : Frag} (hb : b < 4294967296) (hf : f ∈ l) :
    fend f = f.stop :=
  u32_of_lt (lt_of_le_of_lt (ht.mem_bounds hf).2.2 hb)

theorem fragsOf_ne_zero_iff_valueAt :
    fragsOf l i ≠ 0 ↔ ∃ p, valueAt l p = some (some i) := by
  rw [fragsOf_ne_zero]
  constructor
  · rintro ⟨f,hf,hv⟩
    have hpos := (ht.mem_bounds hf).2.1
    have hstop : f.stop = f.ofs + f.size := rfl
    exact ⟨f.ofs,by rw [ht.valueAt_of_mem hf le_rfl (by omega),hv]⟩
  · rintro ⟨p,hp⟩
    obtain ⟨f,hf,hv,-⟩ := exists_mem_of_valueAt hp
    exact ⟨f,hf,hv⟩

theorem takeWhile_fend {x : ℕ} (hb : b < 4294967296) :
    (l.takeWhile fun f => fend f ≤ x) = l.takeWhile fun f => f.stop ≤ x := by
  induction l generalizing a with
  | nil => rfl
  | cons f l ih =>
    simp only [takeWhile_cons,fend_eq_stop ht hb mem_cons_self,ih ht.2.2]

theorem dropWhile_fend {x : ℕ} (hb : b < 4294967296) :
    (l.dropWhile fun f => fend f ≤ x) = l.dropWhile fun f => f.stop ≤ x := by
  induction l generalizing a with
  | nil => rfl
  | cons f l ih =>
    simp only [dropWhile_cons,fend_eq_stop ht hb mem_cons_self,ih ht.2.2]

theorem length_le_of_tiles : a + l.length ≤ b := by
  induction l generalizing a with
  | nil => exact Nat.le_of_eq ht
  | cons f l ih =>
    have := ih ht.2.2
    have := ht.1
    have := ht.2.1
    simp only [Segment.stop,length_cons] at *
    omega

end

theorem fragsOf_le_length (l : List Frag) (i : ℕ) : fragsOf l i ≤ l.length := countP_le_length

theorem obsoleteNodeFrag_spec {st : Store} {f : Frag} {c : ℕ → ℕ}
    (hc : CountedBy st fun i => c i + if f.val = some i then 1 else 0)
    (hlt : ∀ i, f.val = some i → c i + 1 < 4294967296) :
    SameNodes st (obsoleteNodeFrag st f) ∧ CountedBy (obsoleteNodeFrag st f) c ∧
    ∀ j, ((obsoleteNodeFrag st f).node j).obsolete =
      ((st.node j).obsolete || decide (f.val = some j ∧ c j = 0)) := by
  cases hv : f.val with
  | none =>
    simp only [obsoleteNodeFrag,hv]
    refine ⟨.refl st,fun i hi => ?_,by simp⟩
    simpa [hv] using hc i (by simpa [hv] using hi)
  | some i =>
    have hi : (st.node i).fn.frags = c i + 1 := by
      simpa [hv] using hc i (by simp [hv])
    have hs : sub32 (st.node i).fn.frags 1 = c i := by
      rw [hi,sub32_of_le (by omega) (hlt i hv)]
      omega
    simp only [obsoleteNodeFrag,hv,hs]
    have hcount : ∀ j, c j ≠ 0 → ((st.setFrags i (c i)).node j).fn.frags = c j := by
      intro j hj
      rw [Store.setFrags_fn]
      by_cases he : j = i
      · subst he; simp
      · have hne : ¬i = j := fun h => he h.symm
        simpa [he,hv,hne] using hc j (by simpa [hv,hne] using hj)
    split
    · next hz =>
      refine ⟨(SameNodes.setFrags _ _ _).trans (.markNodeObsolete _ _),?_,?_⟩
      · intro j hj
        rw [Store.markNodeObsolete_fn]
        exact hcount j hj
      · intro j
        rw [Store.markNodeObsolete_obsolete,Store.setFrags_obsolete]
        by_cases he : j = i
        · subst he; simp [hz]
        · have hne : ¬i = j := fun h => he h.symm
          simp [he,hne]
    · next hz =>
      refine ⟨.setFrags _ _ _,hcount,fun j => ?_⟩
      rw [Store.setFrags_obsolete]
      by_cases he : i = j
      · subst he; simp [hz]
      · simp [he]

theorem foldl_obsoleteNodeFrag {rm : List Frag} {st : Store} {c : ℕ → ℕ}
    (hc : CountedBy st fun i => c i + fragsOf rm i)
    (hlt : ∀ i, c i + fragsOf rm i < 4294967296) :
    SameNodes st (rm.foldl obsoleteNodeFrag st) ∧ CountedBy (rm.foldl obsoleteNodeFrag st) c ∧
    ∀ j, ((rm.foldl obsoleteNodeFrag st).node j).obsolete =
      ((st.node j).obsolete || decide (fragsOf rm j ≠ 0 ∧ c j = 0)) := by
  induction rm generalizing st with
  | nil => exact ⟨.refl st,by simpa using hc,by simp⟩
  | cons f rm ih =>
    obtain ⟨hs,hc₁,ho⟩ := obsoleteNodeFrag_spec (f := f) (c := fun i => c i + fragsOf rm i)
      (by simpa [add_assoc] using hc)
      (fun i hi => by simpa [hi,add_assoc] using hlt i)
    have hlt₁ : ∀ i, c i + fragsOf rm i < 4294967296 := by
      intro i
      have := hlt i
      rw [fragsOf_cons] at this
      omega
    obtain ⟨hs',hc₂,ho'⟩ := ih hc₁ hlt₁
    refine ⟨hs.trans hs',hc₂,fun j => ?_⟩
    rw [foldl_cons,ho',ho,Bool.or_assoc]
    congr 1
    rw [fragsOf_cons,← Bool.decide_or]
    congr 1
    by_cases hf : f.val = some j
    · simp only [hf,if_true]
      apply propext
      constructor
      · omega
      · grind
    · simp [hf]

/-- What `r` is after fragments of `l` were dropped: the nodes are counted, with `c` for the
fragments elsewhere, and those that have lost all of theirs are obsolete. -/
structure Dropped (st : Store) (l : List Frag) (c : ℕ → ℕ) (r : List Frag × Store) : Prop where
  same : SameNodes st r.2
  counted : CountedBy r.2 fun i => c i + fragsOf r.1 i
  frags : ∀ i, fragsOf r.1 i ≤ fragsOf l i
  obsolete : ∀ i, (r.2.node i).obsolete =
    ((st.node i).obsolete || decide (fragsOf l i ≠ 0 ∧ c i + fragsOf r.1 i = 0))

theorem dropped_foldl {rm keep r : List Frag} {st : Store} {c : ℕ → ℕ}
    (hc : CountedBy st fun i => c i + fragsOf (rm ++ keep) i)
    (hlt : ∀ i, c i + fragsOf (rm ++ keep) i < 4294967296) (hr : ∀ i, fragsOf r i = fragsOf keep i) :
    Dropped st (rm ++ keep) c (r,rm.foldl obsoleteNodeFrag st) := by
  simp only [fragsOf_append] at hc hlt
  obtain ⟨hs,hc',ho⟩ := @foldl_obsoleteNodeFrag rm st (fun i => c i + fragsOf keep i)
    (by simpa [add_assoc,add_comm (fragsOf rm _)] using hc)
    (by simpa [add_assoc,add_comm (fragsOf rm _)] using hlt)
  refine ⟨hs,by simpa [hr] using hc',fun i => by simp [hr],fun i => ?_⟩
  rw [ho i,fragsOf_append,hr]
  congr 2
  apply propext
  omega

end Simpad.Jffs2
