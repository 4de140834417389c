import Simpad.Drivers.Dma

namespace Simpad.Dma

open List Function

/-- The chunks lie one after the other from `a` to `b`. -/
def Covers : ℕ → List Chunk → ℕ → Prop
  | a, [], b => a = b
  | a, (x,n) :: l, b => x = a ∧ Covers (a + n) l b

theorem Covers.append {a b : ℕ} {l : List Chunk} (h : Covers a l b) (n : ℕ) :
    Covers a (l ++ [(b,n)]) (b + n) := by
  induction l generalizing a with
  | nil =>
    cases h
    exact ⟨rfl,rfl⟩
  | cons c l ih => exact ⟨h.1,ih h.2⟩

theorem covers_one {a p : ℕ} {x : Chunk} : Covers a [x] p ↔ x.1 = a ∧ a + x.2 = p := Iff.rfl

theorem covers_two {a p : ℕ} {x y : Chunk} :
    Covers a [x,y] p ↔ x.1 = a ∧ y.1 = a + x.2 ∧ a + x.2 + y.2 = p := Iff.rfl

/-- What a toggle has been started on and not transferred. -/
def Toggle.bytes (t : Toggle) : List ℕ := if t.strt then range' t.dbs t.left else []

def Regs.pending (r : Regs) : List ℕ := r.cur.bytes ++ r.oth.bytes

def Toggle.started (t : Toggle) : List Chunk := if t.strt then [t.chunk] else []

def Regs.doneChunks (r : Regs) : List Chunk :=
  if r.cur.done then [r.cur.chunk,r.oth.chunk] else if r.oth.done then [r.oth.chunk] else []

def Regs.loaded (r : Regs) : List Chunk := r.doneChunks ++ (r.cur.started ++ r.oth.started)

/-- Not started and done at once; a chunk that is done has nothing left. -/
structure Toggle.Legal (t : Toggle) : Prop where
  exclusive : t.strt = true → t.done = false
  left : t.left ≤ t.chunk.2
  finished : t.done = true → t.left = 0

structure Regs.Legal (r : Regs) : Prop where
  toggle : ∀ side, (r.toggle side).Legal
  order : r.oth.strt = true → r.cur.strt = true
  both : r.cur.done = true → r.oth.done = true
  whole : r.oth.strt = true → r.oth.left = r.oth.chunk.2

/-- The toggle that is loaded next. -/
def Regs.side (r : Regs) : Bool := if r.cur.strt then !r.biu else r.biu

theorem startDma_eq (r : Regs) (ptr size : ℕ) :
    r.startDma ptr size =
      if (r.cur.strt && r.oth.strt) || (r.toggle r.side).done then none
      else some (r.load r.side ptr size) := by
  unfold Regs.startDma Regs.side Regs.cur Regs.oth
  cases hb : r.biu <;> cases ha : (r.toggle false).strt <;> cases ht : (r.toggle true).strt <;>
    simp [ha,ht]

def Toggle.fresh (ptr size : ℕ) : Toggle := ⟨true,false,(ptr,size),size⟩

theorem dbs_fresh (ptr size : ℕ) : (Toggle.fresh ptr size).dbs = ptr := by
  simp [Toggle.fresh,Toggle.dbs]

theorem bytes_fresh (ptr size : ℕ) : (Toggle.fresh ptr size).bytes = range' ptr size := by
  rw [Toggle.bytes,dbs_fresh]
  rfl

theorem bytes_of_idle {t : Toggle} (h : t.strt = false) : t.bytes = [] := by
  rw [Toggle.bytes,h]
  rfl

variable {r : Regs}

theorem pending_of_loaded (h : r.loaded = []) : r.pending = [] := by
  obtain ⟨-,hs⟩ := append_eq_nil_iff.mp h
  obtain ⟨hc,ho⟩ := append_eq_nil_iff.mp hs
  unfold Toggle.started at hc ho
  split_ifs at hc with hc'
  split_ifs at ho with ho'
  rw [Bool.not_eq_true] at hc' ho'
  rw [Regs.pending,bytes_of_idle hc',bytes_of_idle ho',append_nil]

theorem load_oth (r : Regs) (ptr size : ℕ) :
    (r.load (!r.biu) ptr size).cur = r.cur ∧
      (r.load (!r.biu) ptr size).oth = .fresh ptr size := by
  constructor
  · show update r.toggle (!r.biu) _ r.biu = _
    rw [update_of_ne (by cases r.biu <;> decide)]
    rfl
  · exact update_self _ _ _

theorem load_cur (r : Regs) (ptr size : ℕ) :
    (r.load r.biu ptr size).cur = .fresh ptr size ∧ (r.load r.biu ptr size).oth = r.oth := by
  constructor
  · exact update_self _ _ _
  · show update r.toggle r.biu _ (!r.biu) = _
    rw [update_of_ne (by cases r.biu <;> decide)]
    rfl

theorem fresh_legal (ptr size : ℕ) : (Toggle.fresh ptr size).Legal :=
  ⟨fun _ => rfl,le_rfl,fun hd => absurd hd Bool.false_ne_true⟩

theorem legal_sides (hc : r.cur.Legal) (ho : r.oth.Legal) (side : Bool) :
    (r.toggle side).Legal := by
  by_cases h : side = r.biu
  · subst h
    exact hc
  · have hs : side = !r.biu := by
      revert h
      cases side <;> cases r.biu <;> decide
    subst hs
    exact ho

theorem load_spec (h : r.Legal) (ptr size : ℕ) (hb : (r.cur.strt && r.oth.strt) = false)
    (hd : (r.toggle r.side).done = false) :
    (r.load r.side ptr size).Legal ∧
      (r.load r.side ptr size).loaded = r.loaded ++ [(ptr,size)] ∧
      (r.load r.side ptr size).pending = r.pending ++ range' ptr size := by
  have hf : (Toggle.fresh ptr size).done = false := rfl
  cases hc : r.cur.strt with
  | true =>
    have hside : r.side = !r.biu := by rw [Regs.side,hc]; rfl
    rw [hside] at hd ⊢
    rw [hc,Bool.true_and] at hb
    replace hd : r.oth.done = false := hd
    have hcd : r.cur.done = false := (h.toggle r.biu).exclusive hc
    obtain ⟨hcur,hoth⟩ := load_oth r ptr size
    refine ⟨⟨?_,?_,?_,?_⟩,?_,?_⟩
    · exact legal_sides (hcur ▸ h.toggle r.biu) (hoth ▸ fresh_legal ptr size)
    · rw [hcur]
      exact fun _ => hc
    · grind
    · rw [hoth]
      exact fun _ => rfl
    · simp [Regs.loaded,Regs.doneChunks,hcur,hoth,hcd,hd,hf,Toggle.started,hb,hc]
      rfl
    · simp [Regs.pending,hcur,hoth,bytes_fresh,bytes_of_idle hb,append_nil]
  | false =>
    have hside : r.side = r.biu := by rw [Regs.side,hc]; rfl
    rw [hside] at hd ⊢
    replace hd : r.cur.done = false := hd
    have ho : r.oth.strt = false := by
      by_contra hn
      rw [h.order (Bool.not_eq_false _ ▸ hn)] at hc
      cases hc
    obtain ⟨hcur,hoth⟩ := load_cur r ptr size
    refine ⟨⟨?_,?_,?_,?_⟩,?_,?_⟩
    · exact legal_sides (hcur ▸ fresh_legal ptr size) (hoth ▸ h.toggle _)
    · rw [hcur]
      exact fun _ => rfl
    · grind
    · rw [hoth]
      exact h.whole
    · simp [Regs.loaded,Regs.doneChunks,hcur,hoth,hd,hf,Toggle.started,ho,hc]
      rfl
    · rw [Regs.pending,Regs.pending,hcur,hoth,bytes_fresh,bytes_of_idle ho,bytes_of_idle hc,
        append_nil,nil_append,nil_append]

def Regs.count (r : Regs) : ℕ := r.cur.started.length + r.oth.started.length

theorem count_load (ptr size : ℕ) (hb : (r.cur.strt && r.oth.strt) = false) :
    (r.load r.side ptr size).count = r.count + 1 := by
  cases hc : r.cur.strt with
  | true =>
    have hside : r.side = !r.biu := by rw [Regs.side,hc]; rfl
    rw [hc,Bool.true_and] at hb
    obtain ⟨hcur,hoth⟩ := load_oth r ptr size
    simp [Regs.count,hside,hcur,hoth,Toggle.started,hb,hc,Toggle.fresh]
  | false =>
    have hside : r.side = r.biu := by rw [Regs.side,hc]; rfl
    obtain ⟨hcur,hoth⟩ := load_cur r ptr size
    simp [Regs.count,hside,hcur,hoth,Toggle.started,hc,Toggle.fresh,add_comm]

theorem count_le (r : Regs) : r.count ≤ 2 := by
  unfold Regs.count Toggle.started
  split_ifs <;> simp

theorem loaded_of_startDma {ptr size : ℕ} (h : r.startDma ptr size = none) : r.loaded ≠ [] := by
  intro hn
  rw [startDma_eq] at h
  unfold Regs.loaded Regs.doneChunks Toggle.started at hn
  unfold Regs.side at h
  cases hc : r.cur.strt <;> cases ho : r.oth.strt <;> cases hcd : r.cur.done <;>
    cases hod : r.oth.done <;> simp_all [Regs.cur,Regs.oth]

theorem clearDone_spec (h : r.Legal) :
    r.clearDone.Legal ∧ r.loaded = r.doneChunks ++ r.clearDone.loaded ∧
      r.clearDone.pending = r.pending :=
  ⟨⟨fun side => ⟨fun _ => rfl,(h.toggle side).left,fun hd => absurd hd Bool.false_ne_true⟩,
    h.order,fun hd => absurd hd Bool.false_ne_true,h.whole⟩,rfl,rfl⟩

theorem doneChunks_cases (h : r.Legal) :
    ((r.toggle false).done = false ∧ (r.toggle true).done = false ∧ r.doneChunks = []) ∨
      (((r.toggle false).done = true ∧ (r.toggle true).done = false ∨
        (r.toggle false).done = false ∧ (r.toggle true).done = true) ∧
        ∃ x, r.doneChunks = [x]) ∨
      ((r.toggle false).done = true ∧ (r.toggle true).done = true ∧ ∃ x y, r.doneChunks = [x,y]) := by
  have hb := h.both
  unfold Regs.doneChunks
  unfold Regs.cur Regs.oth at hb ⊢
  cases hbiu : r.biu <;> rw [hbiu] at hb <;> cases hf : (r.toggle false).done <;>
    cases ht : (r.toggle true).done <;> simp_all

theorem move_cur (r : Regs) : r.move.cur = { r.cur with left := r.cur.left - 1 } :=
  update_self _ _ _

theorem move_oth (r : Regs) : r.move.oth = r.oth :=
  update_of_ne (Bool.not_ne_self r.biu) _ _

theorem move_spec (h : r.Legal) (hs : r.cur.strt = true) (hn : r.cur.left ≠ 0) :
    r.move.Legal ∧ r.move.loaded = r.loaded ∧ r.pending = r.cur.dbs :: r.move.pending := by
  have hc : r.cur.Legal := h.toggle r.biu
  have hleft := hc.left
  refine ⟨⟨?_,?_,?_,?_⟩,?_,?_⟩
  · refine legal_sides ?_ (move_oth r ▸ h.toggle _)
    rw [move_cur]
    exact ⟨hc.exclusive,le_trans (Nat.sub_le _ _) hleft,
      fun hd => absurd ((hc.exclusive hs).symm.trans hd) Bool.false_ne_true⟩
  · rw [move_cur,move_oth]
    exact h.order
  · rw [move_cur,move_oth]
    exact h.both
  · rw [move_oth]
    exact h.whole
  · unfold Regs.loaded Regs.doneChunks
    rw [move_cur,move_oth]
    rfl
  · unfold Regs.pending
    rw [move_cur,move_oth,← cons_append]
    congr 1
    have hdbs : Toggle.dbs { r.cur with left := r.cur.left - 1 } = r.cur.dbs + 1 := by
      simp only [Toggle.dbs]
      omega
    simp [Toggle.bytes,hdbs,if_pos hs,← range'_succ,Nat.sub_add_cancel (Nat.pos_of_ne_zero hn)]

theorem complete_cur (r : Regs) : r.complete.cur = r.oth :=
  update_of_ne (Bool.not_ne_self r.biu) _ _

theorem complete_oth (r : Regs) :
    r.complete.oth = { r.cur with strt := false, done := true } := by
  show update r.toggle r.biu _ (!!r.biu) = _
  simp

theorem complete_spec (h : r.Legal) (hs : r.cur.strt = true) (hz : r.cur.left = 0) :
    r.complete.Legal ∧ r.complete.loaded = r.loaded ∧ r.complete.pending = r.pending := by
  have hcd : r.cur.done = false := (h.toggle r.biu).exclusive hs
  refine ⟨⟨?_,?_,?_,?_⟩,?_,?_⟩
  · refine legal_sides (complete_cur r ▸ h.toggle _) ?_
    rw [complete_oth]
    exact ⟨fun hn => absurd hn Bool.false_ne_true,(h.toggle r.biu).left,fun _ => hz⟩
  · simp [complete_oth]
  · simp [complete_oth]
  · simp [complete_oth]
  · have hex := (h.toggle (!r.biu)).exclusive
    unfold Regs.loaded Regs.doneChunks Toggle.started
    rw [complete_cur,complete_oth,hcd,hs]
    cases hod : r.oth.done with
    | true =>
      have hos : r.oth.strt = false := by
        by_contra hn
        rw [Bool.not_eq_false] at hn
        exact absurd (hex hn) (by rw [show (r.toggle !r.biu).done = true from hod]; decide)
      simp [hos]
    | false => simp
  · unfold Regs.pending
    rw [complete_cur,complete_oth,bytes_of_idle (t := { r.cur with strt := false, done := true }) rfl,
      append_nil]
    have hb : r.cur.bytes = [] := by
      rw [Toggle.bytes,if_pos hs,hz]
      rfl
    rw [hb,nil_append]

theorem clearAll_legal (h : r.Legal) (run : Bool) :
    ({ r.clearAll with run := run } : Regs).Legal where
  toggle side :=
    ⟨fun _ => rfl,(h.toggle side).left,fun hn => absurd hn Bool.false_ne_true⟩
  order hn := absurd hn Bool.false_ne_true
  both hn := absurd hn Bool.false_ne_true
  whole hn := absurd hn Bool.false_ne_true

theorem clearAll_loaded (r : Regs) (run : Bool) :
    ({ r.clearAll with run := run } : Regs).loaded = [] := rfl

theorem clearAll_pending (r : Regs) (run : Bool) :
    ({ r.clearAll with run := run } : Regs).pending = [] := rfl

/-- The address found by `sa1100_dma_get_current`, before it is compared with the buffer. -/
def Regs.address (r : Regs) : ℕ := if r.cur.strt then r.cur.dbs else r.oth.dbs

theorem getCurrent_eq {b : Buf} (h₁ : b.dmaStart ≤ r.address) (h₂ : r.address ≤ b.dmaPtr) :
    r.getCurrent b = r.address := by
  have ha : r.getCurrent b =
      if r.address < b.dmaStart ∨ b.dmaPtr < r.address then b.dmaPtr else r.address := by
    unfold Regs.getCurrent Regs.address Regs.cur Regs.oth
    cases hb : r.biu <;> cases (r.toggle false).strt <;> cases (r.toggle true).strt <;> rfl
  rw [ha,if_neg (by omega)]

theorem address_spec (h : r.Legal) (hl : r.loaded ≠ []) {a p : ℕ} (hc : Covers a r.loaded p) :
    a ≤ r.address ∧ r.address ≤ p ∧ r.pending = range' r.address (p - r.address) := by
  obtain ⟨hcx,hcl,-⟩ : r.cur.Legal := h.toggle r.biu
  obtain ⟨hox,-,hof⟩ : r.oth.Legal := h.toggle (!r.biu)
  unfold Regs.loaded Regs.doneChunks Toggle.started at hc hl
  unfold Regs.address Regs.pending Toggle.bytes Toggle.dbs
  cases hcs : r.cur.strt with
  | true =>
    cases hos : r.oth.strt with
    | true =>
      -- both toggles are started, the other one has all of its chunk left
      have hw := h.whole hos
      simp [hcs,hos,hcx hcs,hox hos,covers_two] at hc
      simp only [if_true,hw,Nat.sub_self,add_zero]
      refine ⟨by omega,by omega,?_⟩
      rw [show r.oth.chunk.1 = r.cur.chunk.1 + (r.cur.chunk.2 - r.cur.left) + r.cur.left by omega,
        range'_append_1]
      congr 1
      omega
    | false =>
      simp only [if_true,Bool.false_eq_true,if_false,append_nil]
      cases hod : r.oth.done with
      | true =>
        simp [hcs,hos,hcx hcs,hod,covers_two] at hc
        grind
      | false =>
        simp [hcs,hos,hcx hcs,hod,covers_one] at hc
        grind
  | false =>
    -- nothing is started, so the other toggle is done and at the end of its chunk
    have hos : r.oth.strt = false := by
      by_contra hn
      rw [Bool.not_eq_false] at hn
      exact absurd (hcs.symm.trans (h.order hn)) Bool.false_ne_true
    have hod : r.oth.done = true := by
      by_contra hn
      have hcd : ¬r.cur.done = true := fun hcd => hn (h.both hcd)
      simp [hcs,hos,hcd,hn] at hl
    have hend : r.oth.chunk.1 + r.oth.chunk.2 = p ∧ a ≤ p := by
      cases hcd : r.cur.done with
      | true =>
        simp [hcs,hos,hcd,covers_two] at hc
        omega
      | false =>
        simp [hcs,hos,hcd,hod,covers_one] at hc
        omega
    grind

end Simpad.Dma
