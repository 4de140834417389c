import Mathlib.Tactic

/-!
# Blocks of pages

A block of order `o` is a range of `2 ^ o` pages that starts at a multiple of
its size.  Two blocks of one order that make up a block of the next are buddies.
-/

namespace Dyadic

open List

/-- The pages from `index` on, `2 ^ order` of them. -/
structure Block where
  order : ℕ
  index : ℕ
deriving DecidableEq

namespace Block

def Contains (b : Block) (p : ℕ) : Prop := b.index ≤ p ∧ p < b.index + 2 ^ b.order

instance (b : Block) (p : ℕ) : Decidable (b.Contains p) := inferInstanceAs (Decidable (_ ∧ _))

def Aligned (b : Block) : Prop := 2 ^ b.order ∣ b.index

def pair (b : Block) : ℕ := b.index >>> (1 + b.order)

def buddy (b : Block) : Block := ⟨b.order,b.index ^^^ 2 ^ b.order⟩

def parent (b : Block) : Block := ⟨b.order + 1,b.index >>> (b.order + 1) <<< (b.order + 1)⟩

variable {b c : Block}

theorem contains_index (b : Block) : b.Contains b.index := ⟨le_rfl,Nat.lt_add_of_pos_right (by positivity)⟩

theorem xor_pow_two (m o : ℕ) : 2 ^ o * m ^^^ 2 ^ o = 2 ^ o * (m ^^^ 1) := by
  have h := @Nat.shiftLeft_xor_distrib o m 1
  rw [Nat.shiftLeft_eq,Nat.shiftLeft_eq,Nat.shiftLeft_eq,Nat.one_mul] at h
  grind

/-- A block is the first or the second half of its pair, and its buddy the other one. -/
theorem aligned_cases (h : b.Aligned) :
    (b.index = 2 ^ (b.order + 1) * b.pair ∧ b.buddy.index = 2 ^ (b.order + 1) * b.pair + 2 ^ b.order) ∨
    (b.index = 2 ^ (b.order + 1) * b.pair + 2 ^ b.order ∧ b.buddy.index = 2 ^ (b.order + 1) * b.pair) := by
  obtain ⟨m,hm⟩ := h
  have hpair : b.pair = m / 2 := by
    rw [pair,Nat.shiftRight_eq_div_pow,hm,Nat.add_comm,pow_succ,Nat.mul_div_mul_left _ _ (by positivity)]
  have hbuddy : b.buddy.index = 2 ^ b.order * (m ^^^ 1) := by
    rw [buddy,hm]
    exact xor_pow_two m b.order
  have hdiv : (m ^^^ 1) / 2 = m / 2 := by
    rw [Nat.xor_div_two,Nat.xor_zero]
  have hmod : (m ^^^ 1) % 2 = 1 ↔ m % 2 = 0 := by
    rw [Nat.xor_mod_two_eq_one]
    omega
  rw [hbuddy,hm,hpair,pow_succ,Nat.mul_assoc,← Nat.mul_succ]
  rcases Nat.mod_two_eq_zero_or_one m with h0 | h1
  · left
    constructor
    · congr 1
      omega
    · congr 1
      omega
  · right
    constructor
    · congr 1
      omega
    · congr 1
      omega

theorem parent_index (b : Block) : b.parent.index = 2 ^ (b.order + 1) * b.pair := by
  rw [parent,Nat.shiftLeft_eq,pair,Nat.add_comm 1,Nat.mul_comm]

theorem parent_pair (b : Block) : b.parent.pair = b.pair >>> 1 := by
  rw [pair,parent_index,Nat.shiftRight_eq_div_pow,Nat.shiftRight_eq_div_pow]
  show 2 ^ (b.order + 1) * b.pair / 2 ^ (1 + (b.order + 1)) = b.pair / 2 ^ 1
  rw [Nat.add_comm 1,pow_add 2 (b.order + 1),Nat.mul_div_mul_left _ _ (by positivity)]

theorem aligned_parent (b : Block) : b.parent.Aligned := Dvd.intro _ b.parent_index.symm

theorem buddy_aligned (h : b.Aligned) : b.buddy.Aligned := by
  have hdvd : 2 ^ b.order ∣ 2 ^ (b.order + 1) * b.pair :=
    Dvd.dvd.mul_right (pow_dvd_pow 2 (Nat.le_succ _)) _
  show 2 ^ b.order ∣ b.buddy.index
  rcases aligned_cases h with ⟨-,hb⟩ | ⟨-,hb⟩
  · exact hb ▸ dvd_add hdvd dvd_rfl
  · exact hb ▸ hdvd

theorem buddy_buddy (b : Block) : b.buddy.buddy = b := by
  rw [buddy,buddy,Nat.xor_assoc,Nat.xor_self,Nat.xor_zero]

theorem buddy_ne (h : b.Aligned) : b.buddy ≠ b := by
  intro he
  have hi : b.buddy.index = b.index := congrArg index he
  have hpos : 0 < 2 ^ b.order := by positivity
  rcases aligned_cases h with ⟨hb,hc⟩ | ⟨hb,hc⟩
  · omega
  · omega

theorem buddy_pair (h : b.Aligned) : b.buddy.pair = b.pair := by
  rw [pair,pair,Nat.shiftRight_eq_div_pow,Nat.shiftRight_eq_div_pow]
  show b.buddy.index / 2 ^ (1 + b.order) = b.index / 2 ^ (1 + b.order)
  rw [Nat.add_comm]
  have hpos : 0 < 2 ^ b.order := by positivity
  -- both halves begin inside the pair
  have key : ∀ x, x = 2 ^ (b.order + 1) * b.pair ∨ x = 2 ^ (b.order + 1) * b.pair + 2 ^ b.order →
      x / 2 ^ (b.order + 1) = b.pair := by
    intro x hx
    rw [Nat.div_eq_iff (by positivity)]
    grind
  rcases aligned_cases h with ⟨hb,hc⟩ | ⟨hb,hc⟩
  · rw [key _ (Or.inl hb),key _ (Or.inr hc)]
  · rw [key _ (Or.inr hb),key _ (Or.inl hc)]

/-- Two blocks of one order are in one pair if they are the same or buddies. -/
theorem pair_eq_iff (hb : b.Aligned) (hc : c.Aligned) (ho : c.order = b.order) :
    c.pair = b.pair ↔ c = b ∨ c = b.buddy := by
  constructor
  · intro hp
    have hcc := aligned_cases hc
    rw [hp,ho] at hcc
    have hext : ∀ d : Block, d.order = b.order → c.index = d.index → c = d := by
      rintro ⟨o,i⟩ ho' hi
      cases c
      grind
    rcases aligned_cases hb with ⟨hi,hj⟩ | ⟨hi,hj⟩ <;> rcases hcc with ⟨hci,-⟩ | ⟨hci,-⟩
    · grind
    · exact Or.inr (hext b.buddy rfl (hci.trans hj.symm))
    · exact Or.inr (hext b.buddy rfl (hci.trans hj.symm))
    · grind
  · rintro (rfl | rfl)
    · rfl
    · exact buddy_pair hb

theorem contains_parent (h : b.Aligned) (p : ℕ) :
    b.parent.Contains p ↔ b.Contains p ∨ b.buddy.Contains p := by
  unfold Contains
  rw [parent_index]
  show _ ≤ p ∧ p < _ + 2 ^ (b.order + 1) ↔ _ ∨ b.buddy.index ≤ p ∧ p < b.buddy.index + 2 ^ b.order
  rcases aligned_cases h with ⟨hb,hc⟩ | ⟨hb,hc⟩
  · omega
  · omega

theorem buddy_disjoint (h : b.Aligned) (p : ℕ) (hb : b.Contains p) : ¬b.buddy.Contains p := by
  rintro ⟨hlo,hhi⟩
  have hhi : p < b.buddy.index + 2 ^ b.order := hhi
  obtain ⟨hlo',hhi'⟩ := hb
  rcases aligned_cases h with ⟨hb,hc⟩ | ⟨hb,hc⟩
  · omega
  · omega

/-- Of two blocks that share a page the larger one holds the other. -/
theorem nested {p q : ℕ} (hc : c.Aligned) (hb : b.Aligned) (ho : b.order ≤ c.order)
    (hcp : c.Contains p) (hbp : b.Contains p) (hq : b.Contains q) : c.Contains q := by
  obtain ⟨x,hx⟩ := hc
  obtain ⟨y,hy⟩ := hb
  obtain ⟨k,hk⟩ := Nat.exists_eq_add_of_le ho
  unfold Contains at *
  rw [hx,hk,pow_add,Nat.mul_assoc,← Nat.mul_add] at hcp ⊢
  rw [hy,← Nat.mul_succ] at hbp hq
  have hlo := Nat.lt_of_mul_lt_mul_left (hcp.1.trans_lt hbp.2)
  have hhi := Nat.lt_of_mul_lt_mul_left (hbp.1.trans_lt hcp.2)
  exact ⟨(Nat.mul_le_mul_left _ (Nat.lt_succ_iff.mp hlo)).trans hq.1,
    hq.2.trans_le (Nat.mul_le_mul_left _ hhi)⟩

theorem halves {o i : ℕ} (h : (Block.mk (o + 1) i).Aligned) :
    (Block.mk o i).Aligned ∧ (Block.mk o i).buddy = ⟨o,i + 2 ^ o⟩ ∧
      (Block.mk o i).parent = ⟨o + 1,i⟩ := by
  obtain ⟨k,hk⟩ := h
  have hk : i = 2 ^ (o + 1) * k := hk
  have hpos : 0 < 2 ^ o := by positivity
  have ha : (Block.mk o i).Aligned := Dvd.intro (2 * k) (by rw [hk,pow_succ,Nat.mul_assoc])
  have hpair : (Block.mk o i).pair = k := by
    show i >>> (1 + o) = k
    rw [Nat.shiftRight_eq_div_pow,hk,Nat.add_comm,Nat.mul_div_cancel_left _ (by positivity)]
  refine ⟨ha,?_,?_⟩
  · rcases aligned_cases ha with ⟨-,hb⟩ | ⟨hb,-⟩
    · rw [hpair] at hb
      have hb : i ^^^ 2 ^ o = 2 ^ (o + 1) * k + 2 ^ o := hb
      rw [buddy,hb,← hk]
    · rw [hpair] at hb
      have hb : i = 2 ^ (o + 1) * k + 2 ^ o := hb
      omega
  · have hi := parent_index (Block.mk o i)
    rw [hpair] at hi
    exact congrArg (Block.mk (o + 1)) (hi.trans hk.symm)

end Block

/-- The number of blocks that the page is in. -/
def count (l : List Block) (p : ℕ) : ℕ := l.countP fun b => b.Contains p

variable {b c : Block} {l l' : List Block} {p : ℕ}

theorem count_cons (b : Block) (l : List Block) (p : ℕ) :
    count (b :: l) p = count l p + if b.Contains p then 1 else 0 := by
  simp [count,countP_cons,decide_eq_true_eq]

theorem count_append (l l' : List Block) (p : ℕ) : count (l ++ l') p = count l p + count l' p :=
  countP_append

theorem count_perm (h : l.Perm l') (p : ℕ) : count l p = count l' p := h.countP_eq _

theorem count_parent (h : b.Aligned) (l : List Block) (p : ℕ) :
    count (b.parent :: l) p = count (b :: b.buddy :: l) p := by
  rw [count_cons,count_cons,count_cons,Nat.add_assoc]
  have hiff := Block.contains_parent h p
  have hdis := Block.buddy_disjoint h p
  by_cases hb : b.Contains p
  · grind
  · grind

theorem count_pos (hb : b ∈ l) (hp : b.Contains p) : 0 < count l p :=
  countP_pos_iff.mpr ⟨b,hb,decide_eq_true hp⟩

theorem exists_of_count_pos (h : 0 < count l p) : ∃ b ∈ l, b.Contains p := by
  obtain ⟨b,hb,hp⟩ := countP_pos_iff.mp h
  exact ⟨b,hb,of_decide_eq_true hp⟩

theorem not_contains_of_count (h : count (b :: l) p ≤ 1) (hb : b.Contains p) (hc : c ∈ l) :
    ¬c.Contains p := by
  intro hcp
  have := count_pos hc hcp
  rw [count_cons,if_pos hb] at h
  omega

theorem eq_of_count (h : count l p ≤ 1) (hb : b ∈ l) (hc : c ∈ l) (hbp : b.Contains p)
    (hcp : c.Contains p) : b = c := by
  by_contra hne
  rw [count_perm (perm_cons_erase hb)] at h
  exact not_contains_of_count h hbp ((mem_erase_of_ne (Ne.symm hne)).mpr hc) hcp

theorem pairwise_of_count (h : ∀ p, count l p ≤ 1) :
    l.Pairwise fun b c => ∀ p, b.Contains p → ¬c.Contains p := by
  induction l with
  | nil => exact .nil
  | cons b l ih =>
    refine .cons (fun c hc p hb => not_contains_of_count (h p) hb hc) (ih fun p => ?_)
    have := h p
    rw [count_cons] at this
    omega

theorem nodup_of_count (h : ∀ p, count l p ≤ 1) : l.Nodup := by
  refine (pairwise_of_count h).imp ?_
  rintro b c hdis rfl
  exact hdis _ b.contains_index b.contains_index

theorem card_contains {n : ℕ} (h : b.index + 2 ^ b.order ≤ n) :
    ((Finset.range n).filter b.Contains).card = 2 ^ b.order := by
  have he : (Finset.range n).filter b.Contains = Finset.Ico b.index (b.index + 2 ^ b.order) := by
    ext p
    rw [Finset.mem_filter,Finset.mem_range,Finset.mem_Ico,Block.Contains]
    omega
  rw [he,Nat.card_Ico,Nat.add_sub_cancel_left]

theorem card_pages {n : ℕ} (hin : ∀ b ∈ l, b.index + 2 ^ b.order ≤ n) (h : ∀ p, count l p ≤ 1) :
    ((Finset.range n).filter fun p => ∃ b ∈ l, b.Contains p).card = (l.map fun b => 2 ^ b.order).sum := by
  induction l with
  | nil => simp
  | cons b l ih =>
    have hle : ∀ p, count l p ≤ 1 := fun p => by
      have := h p
      rw [count_cons] at this
      omega
    have hsplit : (Finset.range n).filter (fun p => ∃ c ∈ b :: l, c.Contains p) =
        (Finset.range n).filter b.Contains ∪ (Finset.range n).filter fun p => ∃ c ∈ l, c.Contains p := by
      grind
    have hdis : Disjoint ((Finset.range n).filter b.Contains)
        ((Finset.range n).filter fun p => ∃ c ∈ l, c.Contains p) := by
      refine Finset.disjoint_filter.mpr fun p _ hb => ?_
      rintro ⟨c,hc,hcp⟩
      exact not_contains_of_count (h p) hb hc hcp
    rw [hsplit,Finset.card_union_of_disjoint hdis,card_contains (hin b mem_cons_self),
      ih (fun c hc => hin c (mem_cons_of_mem _ hc)) hle,map_cons,sum_cons]

end Dyadic
