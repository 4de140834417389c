import Simpad.Base.Word

namespace Simpad.RsrcMgr
open Word List

/-- `resource_map_t`; the list ends where the links come back to the map. -/
structure Interval where
  base : ℕ
  num : ℕ
  deriving DecidableEq

inductive Ret
  | success | outOfResource | overlap
  deriving DecidableEq

variable (base num : ℕ) (alloc : Bool)

def addInterval : List Interval → Ret × List Interval
  | [] => if alloc then (.success,[⟨base,num⟩]) else (.outOfResource,[])
  | q :: rest =>
    if q.base > u32 (base + num - 1) then
      if alloc then (.success,⟨base,num⟩ :: q :: rest) else (.outOfResource,q :: rest)
    else if u32 (q.base + q.num - 1) ≥ base then (.overlap,q :: rest)
    else ((addInterval rest).1,q :: (addInterval rest).2)

/-- `sub_interval`.  The second piece of a split starts at `base + num`, so that the loop goes on
behind it. -/
def subInterval : List Interval → Ret × List Interval
  | [] => (.success,[])
  | q :: rest =>
    if u32 (q.base + q.num) > base ∧ u32 (base + num) > q.base then
      if q.base ≥ base then
        if u32 (q.base + q.num) ≤ u32 (base + num) then subInterval rest
        else ((subInterval rest).1,
          ⟨u32 (base + num),sub32 (sub32 (u32 (q.base + q.num)) base) num⟩ :: (subInterval rest).2)
      else if u32 (q.base + q.num) ≤ u32 (base + num) then
        ((subInterval rest).1,⟨q.base,sub32 base q.base⟩ :: (subInterval rest).2)
      else if alloc then
        ((subInterval rest).1,⟨q.base,sub32 base q.base⟩ ::
          ⟨u32 (base + num),sub32 (u32 (q.base + q.num)) (u32 (base + num))⟩ :: (subInterval rest).2)
      else (.outOfResource,q :: rest)
    else ((subInterval rest).1,q :: (subInterval rest).2)

variable {base num : ℕ} {alloc : Bool} {l : List Interval} {q x : Interval} {a : ℕ}

def Interval.Has (q : Interval) (a : ℕ) : Prop := q.base ≤ a ∧ a < q.base + q.num

/-- The set of addresses that a list stands for. -/
def Has (l : List Interval) (a : ℕ) : Prop := ∃ q ∈ l, q.Has a

/-- Not empty, and inside of the 32-bit range. -/
def Interval.Fits (q : Interval) : Prop := 0 < q.num ∧ q.base + q.num ≤ 4294967296

/-- Sorted and disjoint. -/
structure Sound (l : List Interval) : Prop where
  fits : ∀ q ∈ l, q.Fits
  sorted : l.Pairwise fun q r => q.base + q.num ≤ r.base

@[simp] theorem has_nil : ¬Has [] a := by simp [Has]

@[simp] theorem has_cons : Has (q :: l) a ↔ q.Has a ∨ Has l a := by simp [Has]

theorem sound_cons : Sound (q :: l) ↔
    q.Fits ∧ (∀ r ∈ l, q.base + q.num ≤ r.base) ∧ Sound l := by
  constructor
  · rintro ⟨hf,hs⟩
    obtain ⟨hq,hs⟩ := pairwise_cons.mp hs
    exact ⟨hf q mem_cons_self,hq,⟨fun r hr => hf r (mem_cons_of_mem q hr),hs⟩⟩
  · rintro ⟨hq,hle,hf,hs⟩
    exact ⟨forall_mem_cons.mpr ⟨hq,hf⟩,pairwise_cons.mpr ⟨hle,hs⟩⟩

/-- The new interval goes between those before it and those behind it, or meets one. -/
theorem addInterval_cases (h : Sound l) (hi : Interval.Fits ⟨base,num⟩) :
    (∃ front back, l = front ++ back ∧ (∀ q ∈ front, q.base + q.num ≤ base) ∧
        (∀ q ∈ back, base + num ≤ q.base) ∧ addInterval base num alloc l =
          if alloc then (.success,front ++ ⟨base,num⟩ :: back) else (.outOfResource,l)) ∨
      (∃ q ∈ l, q.base < base + num ∧ base < q.base + q.num) ∧
        addInterval base num alloc l = (.overlap,l) := by
  obtain ⟨hn,hb⟩ := hi
  dsimp only at hn hb
  induction l with
  | nil => exact .inl ⟨[],[],rfl,by simp,by simp,by cases alloc <;> rfl⟩
  | cons q l ih =>
    obtain ⟨⟨hqn,hqb⟩,hle,hl⟩ := sound_cons.mp h
    rw [addInterval,u32_of_lt (by omega),u32_of_lt (by omega)]
    split
    · refine .inl ⟨[],q :: l,rfl,by simp,forall_mem_cons.mpr ⟨by omega,fun r hr => ?_⟩,rfl⟩
      have := hle r hr
      omega
    · split
      · exact .inr ⟨⟨q,mem_cons_self,by omega,by omega⟩,rfl⟩
      · rcases ih hl with ⟨front,back,rfl,hfront,hback,heq⟩ | ⟨⟨r,hr,hmeet⟩,heq⟩
        · refine .inl ⟨q :: front,back,rfl,forall_mem_cons.mpr ⟨by omega,hfront⟩,hback,?_⟩
          rw [heq]
          cases alloc <;> rfl
        · exact .inr ⟨⟨r,mem_cons_of_mem q hr,hmeet⟩,by rw [heq]⟩

/-- An interval meets `base`, `num`. -/
def Interval.Meets (base num : ℕ) (q : Interval) : Prop := base < q.base + q.num ∧ q.base < base + num

/-- Neither of the two ends where the 32-bit sum is 0. -/
def Interval.Low (base num : ℕ) (q : Interval) : Prop :=
  q.base + q.num < 4294967296 ∧ base + num < 4294967296

instance (base num : ℕ) (q : Interval) : Decidable (q.Meets base num ∧ q.Low base num) :=
  inferInstanceAs (Decidable ((_ ∧ _) ∧ _ ∧ _))

/-- What is left of an interval. -/
def Interval.cut (base num : ℕ) (q : Interval) : List Interval :=
  if q.Meets base num ∧ q.Low base num then
    (if q.base < base then [⟨q.base,base - q.base⟩] else []) ++
      if base + num < q.base + q.num then [⟨base + num,q.base + q.num - (base + num)⟩] else []
  else [q]

theorem subInterval_of_le (hle : ∀ q ∈ l, base ≤ q.base) :
    (subInterval base num alloc l).1 = .success := by
  induction l with
  | nil => rfl
  | cons q l ih =>
    obtain ⟨hq,hle⟩ := forall_mem_cons.mp hle
    have ih := ih hle
    rw [subInterval,if_pos hq]
    split_ifs <;> exact ih

theorem subInterval_cases (h : Sound l) (hi : Interval.Fits ⟨base,num⟩) :
    subInterval base num alloc l = (.success,l.flatMap (Interval.cut base num)) ∨
      alloc = false ∧ subInterval base num alloc l = (.outOfResource,l) := by
  obtain ⟨hn,hb⟩ := id hi
  dsimp only at hn hb
  induction l with
  | nil => exact .inl rfl
  | cons q l ih =>
    obtain ⟨⟨hqn,hqb⟩,hle,hl⟩ := sound_cons.mp h
    -- what meets `q` ends before a later interval could have to be split
    have hrest : base < q.base + q.num → (subInterval base num alloc l).1 = .success := fun hlt =>
      subInterval_of_le fun r hr => by have := hle r hr; omega
    rw [subInterval,flatMap_cons,Interval.cut]
    by_cases hmeet : q.Meets base num ∧ q.Low base num
    · obtain ⟨hm,hqb,hb⟩ := id hmeet
      have hlater : (subInterval base num alloc l) = (.success,l.flatMap (Interval.cut base num)) := by
        rcases ih hl with heq | ⟨-,heq⟩
        · exact heq
        · have := hrest hm.1
          rw [heq] at this
          cases this
      rw [if_pos hmeet,u32_of_lt hqb,u32_of_lt hb,if_pos (⟨hm.1,hm.2⟩ : _ ∧ _),hlater]
      by_cases hfront : base ≤ q.base
      · rw [if_pos hfront,if_neg (not_lt.mpr hfront)]
        by_cases hend : q.base + q.num ≤ base + num
        · exact .inl (by rw [if_pos hend,if_neg (not_lt.mpr hend)]; rfl)
        · rw [if_neg hend,if_pos (Nat.lt_of_not_le hend),sub32_of_le hm.1.le hqb,
            sub32_of_le (by omega) (by omega),Nat.sub_sub]
          exact .inl rfl
      · rw [if_neg hfront,if_pos (Nat.lt_of_not_le hfront),sub32_of_le (by omega) (by omega)]
        by_cases hend : q.base + q.num ≤ base + num
        · exact .inl (by rw [if_pos hend,if_neg (not_lt.mpr hend)]; rfl)
        · rw [if_neg hend,if_pos (Nat.lt_of_not_le hend),sub32_of_le (by omega) hqb]
          cases alloc with
          | true => exact .inl rfl
          | false => exact .inr ⟨rfl,rfl⟩
    · have hno : ¬(u32 (q.base + q.num) > base ∧ u32 (base + num) > q.base) := by
        unfold Interval.Meets Interval.Low at hmeet
        unfold u32
        omega
      rw [if_neg hmeet,if_neg hno]
      rcases ih hl with heq | ⟨halloc,heq⟩
      · exact .inl (by rw [heq]; rfl)
      · exact .inr ⟨halloc,by rw [heq]⟩

theorem cut_spec (hi : Interval.Fits ⟨base,num⟩) (hq : q.Fits) :
    (∀ x ∈ q.cut base num, q.base ≤ x.base ∧ x.base + x.num ≤ q.base + q.num) ∧
      Sound (q.cut base num) ∧
      ∀ a, Has (q.cut base num) a ↔ q.Has a ∧ ¬((base ≤ a ∧ a < base + num) ∧ q.Low base num) := by
  obtain ⟨hn,hb⟩ := hi
  obtain ⟨hqn,hqb⟩ := hq
  dsimp only at hn hb
  have hnil : Sound [] := ⟨by simp,Pairwise.nil⟩
  rw [Interval.cut]
  split_ifs <;> refine ⟨?_,?_,fun a => ?_⟩ <;>
    simp_all [sound_cons,Interval.Has,Interval.Fits,Interval.Meets,Interval.Low] <;> omega

theorem sound_flatMap {f : Interval → List Interval} (h : Sound l)
    (hf : ∀ q ∈ l, Sound (f q) ∧ ∀ x ∈ f q, q.base ≤ x.base ∧ x.base + x.num ≤ q.base + q.num) :
    Sound (l.flatMap f) := by
  constructor
  · intro x hx
    obtain ⟨q,hq,hx⟩ := mem_flatMap.mp hx
    exact (hf q hq).1.fits x hx
  · refine pairwise_flatMap.mpr ⟨fun q hq => (hf q hq).1.sorted,h.sorted.imp_of_mem ?_⟩
    intro q r hq hr hle x hx y hy
    have := (hf q hq).2 x hx
    have := (hf r hr).2 y hy
    omega

theorem sound_insert {front back : List Interval} (h : Sound (front ++ back))
    (hi : Interval.Fits ⟨base,num⟩) (hfront : ∀ q ∈ front, q.base + q.num ≤ base)
    (hback : ∀ q ∈ back, base + num ≤ q.base) : Sound (front ++ ⟨base,num⟩ :: back) := by
  obtain ⟨hf,hb,hfb⟩ := pairwise_append.mp h.sorted
  constructor
  · grind [h.fits]
  · exact pairwise_append.mpr ⟨hf,pairwise_cons.mpr ⟨hback,hb⟩,by grind⟩

/-- What an interval has in common with `base`, `num` is taken out, unless one of them ends at
`2 ^ 32`. -/
def Clear (base num : ℕ) (l : List Interval) : Prop := ∀ q ∈ l, q.Meets base num → q.Low base num

theorem subInterval_has (h : Sound l) (hi : Interval.Fits ⟨base,num⟩) :
    (∀ a, Has (l.flatMap (Interval.cut base num)) a ↔ Has l a ∧ ¬(base ≤ a ∧ a < base + num)) ↔
      Clear base num l := by
  have hcut : ∀ a, Has (l.flatMap (Interval.cut base num)) a ↔
      ∃ q ∈ l, q.Has a ∧ ¬((base ≤ a ∧ a < base + num) ∧ q.Low base num) := by
    intro a
    constructor
    · rintro ⟨x,hx,ha⟩
      obtain ⟨q,hq,hx⟩ := mem_flatMap.mp hx
      exact ⟨q,hq,((cut_spec hi (h.fits q hq)).2.2 a).mp ⟨x,hx,ha⟩⟩
    · rintro ⟨q,hq,ha⟩
      obtain ⟨x,hx,ha⟩ := ((cut_spec hi (h.fits q hq)).2.2 a).mpr ha
      exact ⟨x,mem_flatMap.mpr ⟨q,hq,hx⟩,ha⟩
  constructor
  · intro hall q hq hm
    by_contra hlow
    -- the first address in common is still there
    have hin : max base q.base < base + num := max_lt (Nat.lt_add_of_pos_right hi.1) hm.2
    have hqa : q.Has (max base q.base) :=
      ⟨le_max_right _ _,max_lt hm.1 (Nat.lt_add_of_pos_right (h.fits q hq).1)⟩
    exact ((hall _).mp ((hcut _).mpr ⟨q,hq,hqa,fun hl => hlow hl.2⟩)).2 ⟨le_max_left _ _,hin⟩
  · intro hclear a
    rw [hcut]
    constructor
    · rintro ⟨q,hq,ha,hout⟩
      refine ⟨⟨q,hq,ha⟩,fun hin => hout ⟨hin,hclear q hq ?_⟩⟩
      exact ⟨lt_of_le_of_lt hin.1 ha.2,lt_of_le_of_lt ha.1 hin.2⟩
    · rintro ⟨⟨q,hq,ha⟩,hout⟩
      exact ⟨q,hq,ha,fun hin => hout hin.1⟩

theorem addInterval_spec (h : Sound l) (hi : Interval.Fits ⟨base,num⟩) (alloc : Bool) :
    let added := addInterval base num alloc l
    (added.1 = .success ↔ alloc = true ∧ ∀ a, base ≤ a → a < base + num → ¬Has l a) ∧
      (added.1 = .success → ∀ a, Has added.2 a ↔ Has l a ∨ base ≤ a ∧ a < base + num) ∧
      (added.1 ≠ .success → added.2 = l) ∧ Sound added.2 := by
  rcases @addInterval_cases base num alloc l h hi with
    ⟨front,back,rfl,hfront,hback,heq⟩ | ⟨⟨q,hq,hlt,hlt'⟩,heq⟩
  · have hout : ∀ a, base ≤ a → a < base + num → ¬Has (front ++ back) a := by
      rintro a hle hlt ⟨q,hq,ha,ha'⟩
      rcases mem_append.mp hq with hq | hq
      · have := hfront q hq
        omega
      · have := hback q hq
        omega
    cases alloc with
    | false => simp [heq,h]
    | true =>
      refine ⟨by simpa [heq] using hout,fun _ a => ?_,by simp [heq],?_⟩
      · rw [heq]
        simp only [Has,if_true,mem_append,mem_cons]
        grind [Interval.Has]
      · rw [heq]
        exact sound_insert h hi hfront hback
  · obtain ⟨hqn,-⟩ := h.fits q hq
    obtain ⟨hn,-⟩ := hi
    dsimp only at hn
    have hmeet : Has l (max base q.base) := ⟨q,hq,le_max_right _ _,by omega⟩
    simp only [heq,reduceCtorEq,false_iff,not_and,ne_eq,not_false_eq_true,forall_const,
      false_implies,h,and_true]
    exact fun _ hno => hno _ (le_max_left _ _) (by omega) hmeet

/-- Adding is the union and fails just where the new interval meets another one or there is no
memory; subtracting is the difference just if nothing that it meets ends at `2 ^ 32`, or changes
nothing. -/
theorem interval_database (h : Sound l) (hi : Interval.Fits ⟨base,num⟩) (alloc : Bool) :
    let added := addInterval base num alloc l
    let left := subInterval base num alloc l
    ((added.1 = .success ↔ alloc = true ∧ ∀ a, base ≤ a → a < base + num → ¬Has l a) ∧
      (added.1 = .success → ∀ a, Has added.2 a ↔ Has l a ∨ base ≤ a ∧ a < base + num) ∧
      (added.1 ≠ .success → added.2 = l) ∧ Sound added.2) ∧
      (left.1 = .success → ((∀ a, Has left.2 a ↔ Has l a ∧ ¬(base ≤ a ∧ a < base + num)) ↔
        Clear base num l)) ∧
      (left.1 ≠ .success → alloc = false ∧ ∀ a, Has left.2 a ↔ Has l a) ∧ Sound left.2 := by
  refine ⟨addInterval_spec h hi alloc,?_⟩
  have hcut : Sound (l.flatMap (Interval.cut base num)) :=
    sound_flatMap h fun q hq => ⟨(cut_spec hi (h.fits q hq)).2.1,(cut_spec hi (h.fits q hq)).1⟩
  rcases @subInterval_cases base num alloc l h hi with heq | ⟨halloc,heq⟩
  · simpa [heq,hcut] using subInterval_has h hi
  · subst halloc
    simp [heq,h]

theorem interval_database_split :
    Interval.Fits ⟨4096,4096⟩ ∧ (subInterval 4096 4096 false [⟨0,65536⟩]).1 = .outOfResource ∧
      ¬(addInterval 4096 4096 true [⟨0,65536⟩]).1 = .success := by
  have h : Sound [⟨0,65536⟩] := ⟨by simp [Interval.Fits],pairwise_singleton _ _⟩
  have hi : Interval.Fits ⟨4096,4096⟩ := by simp [Interval.Fits]
  refine ⟨hi,by decide,fun hs => ?_⟩
  obtain ⟨-,hno⟩ := (interval_database h hi true).1.1.mp hs
  exact hno 4096 le_rfl (by decide) ⟨_,mem_cons_self,by simp [Interval.Has]⟩

/-- The sums are 0 for an interval that ends at `2 ^ 32`: it is not found, and stays. -/
theorem sub_interval_top : Interval.Fits ⟨0xffff0000,0x10000⟩ ∧
    subInterval 0xffff0000 0x10000 true [⟨0xffff0000,0x10000⟩] = (.success,[⟨0xffff0000,0x10000⟩]) := by
  refine ⟨by simp [Interval.Fits],by decide⟩

end Simpad.RsrcMgr
