import Simpad.Kernel.TimerQueue

namespace Simpad.Timer
open Word List Function Runs

/-- The ticks that one slot of `tvecs[n]` stands for. -/
def span (n : ℕ) : ℕ := 2 ^ (2 + 6 * n)

theorem span_pos (n : ℕ) : 0 < span n := Nat.two_pow_pos _

variable {n now expires : ℕ} {t : Entry}

theorem span_dvd_span {m : ℕ} (h : m ≤ n) : span m ∣ span n :=
  Nat.pow_dvd_pow 2 (by omega)

/-- A timer that is due in step `d` is on a list where it will be found; the first `k` scales have
been cascaded in the step `now`. -/
def Placed (now k : ℕ) (running : Bool) (t : Entry) (d : ℕ) : Prop :=
  match t.slot with
  | .tv1 i => i = d % 2 ^ 8 ∧ now ≤ d ∧ d < now + 2 ^ 8
  | .tvn n i =>
    let start := d / span n * span n
    (1 ≤ n ∧ n ≤ 4) ∧ i = d / span n % 2 ^ 6 ∧ t.expires = u32 d ∧ d < now + 2 ^ 31 ∧
      now ≤ start ∧ (n ≤ k → now < start)
  | .queued =>
    running = true ∧ now < d ∧
      (t.expires = u32 d ∧ d < now + 2 ^ 31 ∨
        d = now + 1 ∧ 2 ^ 31 ≤ sub32 t.expires (u32 (now + 1)))

/-- The slot of `tvecs[n]` that is spread next. -/
def indexOf (now k n : ℕ) : ℕ :=
  if n ≤ k then (now / span n + 1) % 2 ^ 6 else (now + span n - 1) / span n % 2 ^ 6

/-- The wheel holds the timers of the queue; the first `k` scales have been cascaded. -/
structure Holds (k : ℕ) (w : Wheel) (q : Queue) : Prop where
  timerJiffies : w.timerJiffies = u32 q.now
  running : w.running = q.running
  index_zero : w.index 0 = q.now % 2 ^ 8
  index : ∀ n, 1 ≤ n → n ≤ 4 → w.index n = indexOf q.now k n
  placed : ∀ t ∈ w.entries, ∃ d, q.due t.id = some d ∧ Placed q.now k q.running t d
  pending : ∀ id, q.due id ≠ none → ∃ t ∈ w.entries, t.id = id

/-- While timers run, all the cascades of the step have been made. -/
def Refines (w : Wheel) (q : Queue) : Prop := Holds (if q.running then 4 else 0) w q

theorem sub32_u32 {a b : ℕ} (hba : b ≤ a) (h : a < b + 2 ^ 32) : sub32 (u32 a) (u32 b) = a - b := by
  simp only [sub32,u32]
  omega

/-- A time that is `ahead` of step `now` is that of the step `ahead` steps later. -/
theorem u32_add_ahead (h : expires < 4294967296) :
    u32 (now + sub32 expires (u32 now)) = expires := by
  simp only [sub32,u32]
  omega

section
variable {w : Wheel} {now d : ℕ}

theorem placed_tvn (k : ℕ) (b : Bool) (id : ℕ) (hn : 1 ≤ n ∧ n ≤ 4) (hlt : d < now + 2 ^ 31)
    (hlo : now + span n ≤ d) : Placed now k b ⟨id,u32 d,.tvn n (d / span n % 2 ^ 6)⟩ d := by
  have hpos := span_pos n
  have hend : d < d / span n * span n + span n := Nat.lt_div_mul_add hpos
  exact ⟨hn,rfl,rfl,hlt,by omega,fun _ => by omega⟩

theorem placed_vec (k : ℕ) (b : Bool) (id : ℕ) (hT : w.timerJiffies = u32 now)
    (hr : w.running = false) (hd : now ≤ d) (hlt : d < now + 2 ^ 31) :
    Placed now k b ⟨id,u32 d,w.vec (u32 d)⟩ d := by
  have hidx := hT ▸ sub32_u32 hd (by omega)
  have hshift (n : ℕ) (hn : n ≤ 4) : u32 d >>> (2 + 6 * n) % 2 ^ 6 = d / span n % 2 ^ 6 := by
    rw [Nat.shiftRight_eq_div_pow,u32,span]
    interval_cases n <;> omega
  have hspan : span 1 = 2 ^ 8 ∧ span 2 = 2 ^ 14 ∧ span 3 = 2 ^ 20 ∧ span 4 = 2 ^ 26 := by decide
  simp only [Wheel.vec,hr,hidx,Bool.false_eq_true,if_false]
  split_ifs with h₁ h₂ h₃ h₄ h₅
  · refine ⟨?_,hd,by omega⟩
    simp [u32]
  · rw [hshift 1 (by decide)]
    exact placed_tvn k b id (by decide) hlt (by omega)
  · rw [hshift 2 (by decide)]
    exact placed_tvn k b id (by decide) hlt (by omega)
  · rw [hshift 3 (by decide)]
    exact placed_tvn k b id (by decide) hlt (by omega)
  · omega
  · rw [hshift 4 (by decide)]
    exact placed_tvn k b id (by decide) hlt (by omega)

theorem placed_vec_past (k : ℕ) (b : Bool) (id : ℕ) (hT : w.timerJiffies = u32 now)
    (hr : w.running = false) (hi : w.index 0 = now % 2 ^ 8)
    (hp : 2 ^ 31 ≤ sub32 expires (u32 now)) : Placed now k b ⟨id,expires,w.vec expires⟩ now := by
  have hvec : w.vec expires = .tv1 (w.index 0) := by
    simp only [Wheel.vec,hr,hT,Bool.false_eq_true,if_false]
    rw [if_neg (by omega),if_neg (by omega),if_neg (by omega),if_neg (by omega),if_pos hp]
  rw [hvec]
  exact ⟨hi,le_rfl,by omega⟩

theorem placed_queued (k : ℕ) (id : ℕ) (hr : w.running = true) (he : expires < 4294967296)
    (hne : sub32 expires (u32 now) ≠ 2 ^ 31) :
    Placed now k true ⟨id,expires,w.vec expires⟩ (dueOf now true expires) := by
  have hvec : w.vec expires = .queued := by simp only [Wheel.vec,hr,if_true]
  have hsub : sub32 expires (u32 now) < 4294967296 := u32_lt _
  -- one step later the time is one tick nearer
  have hnext (h : sub32 expires (u32 now) = 0 ∨ 2 ^ 31 < sub32 expires (u32 now)) :
      2 ^ 31 ≤ sub32 expires (u32 (now + 1)) := by
    simp only [sub32,u32] at h ⊢
    omega
  rw [hvec]
  simp only [Placed,dueOf,if_true]
  split_ifs with h
  · refine ⟨trivial,by omega,?_⟩
    by_cases h₀ : sub32 expires (u32 now) = 0
    · exact Or.inr ⟨by omega,hnext (Or.inl h₀)⟩
    · rw [max_eq_left (by omega)]
      exact Or.inl ⟨(u32_add_ahead he).symm,by omega⟩
  · exact ⟨trivial,by omega,Or.inr ⟨rfl,hnext (Or.inr (by omega))⟩⟩

end

section
variable {w : Wheel} {q : Queue} {k n : ℕ}

theorem vec_congr (w : Wheel) (l : List Entry) (expires : ℕ) :
    Wheel.vec { w with entries := l } expires = w.vec expires := rfl

theorem foldl_internalAddTimer (w : Wheel) (l : List Entry) :
    l.foldl (fun w t => w.internalAddTimer t.id t.expires) w =
      { w with entries := w.entries ++ l.map fun t => { t with slot := w.vec t.expires } } := by
  induction l generalizing w with
  | nil => simp
  | cons t l ih =>
    rw [foldl_cons,ih]
    simp only [Wheel.internalAddTimer,vec_congr,map_cons,append_assoc,
      singleton_append]

theorem readd_eq (w : Wheel) (slot : Slot) :
    w.readd slot = { w with entries := w.entries.filter (fun t => t.slot ≠ slot) ++
      (w.entries.filter fun t => t.slot = slot).map fun t => { t with slot := w.vec t.expires } } :=
  foldl_internalAddTimer _ _

@[simp] theorem readd_timerJiffies (w : Wheel) (slot : Slot) :
    (w.readd slot).timerJiffies = w.timerJiffies := by rw [readd_eq]

@[simp] theorem readd_running (w : Wheel) (slot : Slot) :
    (w.readd slot).running = w.running := by rw [readd_eq]

@[simp] theorem readd_index (w : Wheel) (slot : Slot) : (w.readd slot).index = w.index := by
  rw [readd_eq]

theorem cascadeTimers_index (w : Wheel) (m n : ℕ) : (w.cascadeTimers n).index m =
    update w.index n ((w.index n + 1) % 2 ^ 6) m := rfl

theorem mem_readd {w : Wheel} {slot : Slot} :
    t ∈ (w.readd slot).entries ↔ (t ∈ w.entries ∧ t.slot ≠ slot) ∨
      ∃ u ∈ w.entries, u.slot = slot ∧ { u with slot := w.vec u.expires } = t := by
  rw [readd_eq]
  simp [and_assoc]

theorem exists_mem_readd {w : Wheel} {slot : Slot} (ht : t ∈ w.entries) :
    ∃ u ∈ (w.readd slot).entries, u.id = t.id := by
  by_cases h : t.slot = slot
  · exact ⟨_,mem_readd.mpr (Or.inr ⟨t,ht,h,rfl⟩),rfl⟩
  · exact ⟨t,mem_readd.mpr (Or.inl ⟨ht,h⟩),rfl⟩

theorem indexOf_of_dvd (hdvd : span n ∣ now) (hk : k < n) :
    indexOf now k n = now / span n % 2 ^ 6 := by
  obtain ⟨c,rfl⟩ := hdvd
  have hpos := span_pos n
  rw [indexOf,if_neg (by omega),Nat.mul_div_cancel_left c hpos,Nat.add_sub_assoc hpos,
    Nat.mul_add_div hpos,Nat.div_eq_of_lt (by omega),add_zero]

theorem indexOf_of_not_dvd {k' : ℕ} (hdvd : ¬span n ∣ now) :
    indexOf now k n = indexOf now k' n := by
  have hpos := span_pos n
  have hmod : 0 < now % span n := Nat.pos_of_ne_zero fun h => hdvd (Nat.dvd_of_mod_eq_zero h)
  have hlt : now % span n < span n := Nat.mod_lt _ hpos
  have hnow := Nat.div_add_mod now (span n)
  have hceil : (now + span n - 1) / span n = now / span n + 1 := by
    refine (Nat.div_eq_iff hpos).mpr ?_
    rw [add_mul,one_mul,mul_comm (now / span n)]
    omega
  simp only [indexOf,hceil,ite_self]

theorem Placed.mono {k k' d : ℕ} {b b' : Bool} (h : Placed now k b t d) (hb : b = true → b' = true)
    (hs : ∀ n i, t.slot = .tvn n i → n ≤ k' → ¬n ≤ k → now < d / span n * span n) :
    Placed now k' b' t d := by
  obtain ⟨id,expires,slot⟩ := t
  cases slot with
  | tv1 i => exact h
  | tvn n i =>
    obtain ⟨h₁,h₂,h₃,h₄,h₅,h₆⟩ := h
    refine ⟨h₁,h₂,h₃,h₄,h₅,fun hk' => ?_⟩
    grind
  | queued => exact ⟨hb h.1,h.2⟩

theorem Holds.cascadeTimers (h : Holds k w q) (hk : k < 4) (hr : q.running = false)
    (hdvd : span (k + 1) ∣ q.now) : Holds (k + 1) (w.cascadeTimers (k + 1)) q := by
  have hidx :=
    (h.index (k + 1) (by omega) (by omega)).trans (indexOf_of_dvd hdvd (by omega))
  refine ⟨(readd_timerJiffies _ _).trans h.timerJiffies,(readd_running _ _).trans h.running,
    ?_,fun n h₁ h₄ => ?_,fun t ht => ?_,fun id hid => ?_⟩
  · exact h.index_zero
  · rw [cascadeTimers_index]
    by_cases hn : n = k + 1
    · rw [hn,update_self,hidx,indexOf,if_pos le_rfl,Nat.mod_add_mod]
    · rw [update_of_ne hn,h.index n h₁ h₄]
      have : n ≤ k ↔ n ≤ k + 1 := by omega
      simp only [indexOf,this]
  · obtain ⟨ht,hne⟩ | ⟨u,hu,hslot,rfl⟩ := mem_readd.mp ht
    · obtain ⟨d,hd,hp⟩ := h.placed t ht
      refine ⟨d,hd,hp.mono id fun n i hs hn hn' => ?_⟩
      obtain rfl : n = k + 1 := by omega
      simp only [Placed,hs] at hp
      obtain ⟨-,hi,-,-,hlo,-⟩ := hp
      refine lt_of_le_of_ne hlo fun he => hne ?_
      simp [hs,hidx,hi,he,Nat.mul_div_cancel _ (span_pos _)]
    · obtain ⟨d,hd,hp⟩ := h.placed u hu
      simp only [Placed,hslot] at hp
      obtain ⟨-,-,he,hlt,hlo,-⟩ := hp
      have hle := Nat.div_mul_le_self d (span (k + 1))
      refine ⟨d,hd,?_⟩
      rw [he]
      exact placed_vec _ _ _ h.timerJiffies (h.running.trans hr) (by omega) hlt
  · obtain ⟨t,ht,rfl⟩ := h.pending id hid
    exact exists_mem_readd ht

theorem Holds.of_not_dvd (h : Holds k w q) (hd : ∀ n, k < n → n ≤ 4 → ¬span n ∣ q.now) :
    Holds 4 w q := by
  refine ⟨h.timerJiffies,h.running,h.index_zero,fun n h₁ h₄ => ?_,fun t ht => ?_,h.pending⟩
  · rw [h.index n h₁ h₄]
    by_cases hn : n ≤ k
    · rw [indexOf,indexOf,if_pos hn,if_pos h₄]
    · exact indexOf_of_not_dvd (hd n (by omega) h₄)
  · obtain ⟨d,hdue,hp⟩ := h.placed t ht
    refine ⟨d,hdue,hp.mono id fun n i hs hn hk => ?_⟩
    simp only [Placed,hs] at hp
    refine lt_of_le_of_ne hp.2.2.2.2.1 fun he => hd n (by omega) hn ?_
    exact Dvd.intro_left _ he.symm

theorem index_eq_one_iff (hdvd : span n ∣ now) : indexOf now n n = 1 ↔ span (n + 1) ∣ now := by
  obtain ⟨c,rfl⟩ := hdvd
  have hpos := span_pos n
  have hspan : span (n + 1) = span n * 2 ^ 6 := by
    rw [span,span,← Nat.pow_add]
    congr 1
  rw [indexOf,if_pos le_rfl,Nat.mul_div_cancel_left c hpos,hspan,
    Nat.mul_dvd_mul_iff_left hpos]
  omega

theorem Holds.cascadeFrom (h : Holds k w q) (hr : q.running = false)
    (hdvd : k < 4 → span (k + 1) ∣ q.now) {fuel : ℕ} (hf : fuel + k = 4) :
    Holds 4 (w.cascadeFrom fuel (k + 1)) q := by
  induction fuel generalizing w k with
  | zero =>
    obtain rfl : k = 4 := by omega
    exact h
  | succ fuel ih =>
    have hk : k < 4 := by omega
    have h' := h.cascadeTimers hk hr (hdvd hk)
    have hidx := h'.index (k + 1) (by omega) (by omega)
    simp only [Wheel.cascadeFrom]
    split_ifs with h₁
    · have hnext := (index_eq_one_iff (hdvd hk)).mp (hidx.symm.trans h₁)
      exact ih h' (fun _ => hnext) (by omega)
    · -- the scale after this one has no slot that begins now, and so no coarser one has
      refine h'.of_not_dvd fun n hn _ hd => h₁ (hidx.trans ?_)
      exact (index_eq_one_iff (hdvd hk)).mpr ((span_dvd_span (by omega)).trans hd)

end

section
variable {w w' : Wheel} {q : Queue} {k : ℕ}

theorem placed_dueOf (h : Holds k w q) (id : ℕ) (he : expires < 4294967296)
    (hne : sub32 expires w.timerJiffies ≠ 2 ^ 31) :
    Placed q.now k q.running ⟨id,expires,w.vec expires⟩ (dueOf q.now q.running expires) := by
  rw [h.timerJiffies] at hne
  have hr := h.running
  cases hrun : q.running with
  | true => exact placed_queued k id (hr.trans hrun) he hne
  | false =>
    have hr := hr.trans hrun
    simp only [dueOf,Bool.false_eq_true,if_false]
    split_ifs with hlt
    · have hp := placed_vec k false id h.timerJiffies hr (Nat.le_add_right _ _)
        (Nat.add_lt_add_left hlt q.now)
      rw [u32_add_ahead he] at hp
      rwa [max_eq_left (Nat.le_add_right _ _)]
    · exact placed_vec_past k false id h.timerJiffies hr h.index_zero (by omega)

theorem Holds.internalAddTimer {id : ℕ} (h : Holds k w q) (hfresh : ∀ t ∈ w.entries, t.id ≠ id)
    (he : expires < 4294967296) (hne : sub32 expires w.timerJiffies ≠ 2 ^ 31) :
    Holds k (w.internalAddTimer id expires) (q.set id expires) := by
  refine ⟨h.timerJiffies,h.running,h.index_zero,h.index,fun t ht => ?_,fun j hj => ?_⟩
  · obtain ht | ht := mem_append.mp ht
    · obtain ⟨d,hd,hp⟩ := h.placed t ht
      exact ⟨d,(update_of_ne (hfresh t ht) _ _).trans hd,hp⟩
    · obtain rfl := mem_singleton.mp ht
      exact ⟨_,update_self _ _ _,placed_dueOf h id he hne⟩
  · by_cases hji : j = id
    · exact ⟨_,mem_append_right _ (mem_singleton_self _),hji.symm⟩
    · have hq : (q.set id expires).due j = q.due j := update_of_ne hji _ _
      obtain ⟨t,ht,htj⟩ := h.pending j (hq ▸ hj)
      exact ⟨t,mem_append_left _ ht,htj⟩

theorem Holds.detachTimer (h : Holds k w q) (id : ℕ) :
    Holds k (w.detachTimer id) (q.unset id) := by
  refine ⟨h.timerJiffies,h.running,h.index_zero,h.index,fun t ht => ?_,fun j hj => ?_⟩
  · obtain ⟨ht,hne⟩ := mem_filter.mp ht
    obtain ⟨d,hd,hp⟩ := h.placed t ht
    exact ⟨d,(update_of_ne (of_decide_eq_true hne) _ _).trans hd,hp⟩
  · have hji : j ≠ id := by
      rintro rfl
      exact hj (update_self _ _ _)
    have hq : (q.unset id).due j = q.due j := update_of_ne hji _ _
    obtain ⟨t,ht,rfl⟩ := h.pending j (hq ▸ hj)
    exact ⟨t,mem_filter.mpr ⟨ht,decide_eq_true hji⟩,rfl⟩

theorem Holds.pending_iff (h : Holds k w q) (id : ℕ) : w.pending id = true ↔ q.due id ≠ none := by
  simp only [Wheel.pending,any_eq_true,decide_eq_true_eq]
  refine ⟨?_,h.pending id⟩
  rintro ⟨t,ht,rfl⟩
  obtain ⟨d,hd,-⟩ := h.placed t ht
  simp [hd]

theorem Holds.startStep (h : Holds 0 w q) (hr : q.running = false) :
    Holds 4 (if w.index 0 = 0 then w.cascadeFrom 4 1 else w) q := by
  have hspan : span 1 = 2 ^ 8 := rfl
  split_ifs with h₀
  · have hdvd : span 1 ∣ q.now := by
      exact Nat.dvd_of_mod_eq_zero (h.index_zero.symm.trans h₀)
    exact h.cascadeFrom hr (fun _ => hdvd) rfl
  · refine h.of_not_dvd fun n hn _ hd => h₀ (h.index_zero.trans ?_)
    exact Nat.mod_eq_zero_of_dvd (hspan ▸ (span_dvd_span hn).trans hd)

theorem Holds.setRunning (h : Holds k w q) :
    Holds k { w with running := true } { q with running := true } := by
  refine ⟨h.timerJiffies,rfl,h.index_zero,h.index,fun t ht => ?_,h.pending⟩
  obtain ⟨d,hd,hp⟩ := h.placed t ht
  exact ⟨d,hd,hp.mono (fun _ => rfl) fun n i _ hk hk' => absurd hk hk'⟩

theorem Holds.due_head (h : Holds k w q) (ht : w.head = some t) : q.due t.id = some q.now := by
  have hslot : t.slot = .tv1 (w.index 0) := by simpa using find?_some ht
  obtain ⟨d,hd,hp⟩ := h.placed t (mem_of_find?_eq_some ht)
  simp only [Placed,hslot,h.index_zero] at hp
  grind

theorem Holds.not_due (h : Holds 4 w q) (hnone : w.head = none) (id : ℕ) :
    q.due id ≠ some q.now := by
  intro hdue
  obtain ⟨t,ht,rfl⟩ := h.pending id (by simp [hdue])
  obtain ⟨d,hd,hp⟩ := h.placed t ht
  obtain rfl : q.now = d := by simpa [hdue] using hd
  have hslot : t.slot ≠ .tv1 (w.index 0) := by
    simpa using find?_eq_none.mp hnone t ht
  obtain ⟨id,expires,slot⟩ := t
  cases slot with
  | tv1 i => exact hslot (by rw [h.index_zero,hp.1])
  | tvn n i =>
    obtain ⟨hn,-,-,-,-,hlt⟩ := hp
    exact absurd (hlt hn.2) (not_lt.mpr (Nat.div_mul_le_self _ _))
  | queued => exact absurd hp.2.1 (lt_irrefl _)

theorem indexOf_succ (h₁ : 1 ≤ n) (h₄ : n ≤ 4) : indexOf now 4 n = indexOf (now + 1) 0 n := by
  have he : now + 1 + span n - 1 = now + span n := by omega
  rw [indexOf,indexOf,if_pos h₄,if_neg (by omega),he,Nat.add_div_right now (span_pos n)]

/-- A timer that was not due is found where the next step looks for it. -/
theorem Placed.succ {d : ℕ} {b b' : Bool} (h : Placed now 4 b t d) (hd : d ≠ now)
    (hq : t.slot ≠ .queued) : Placed (now + 1) 0 b' t d := by
  obtain ⟨id,expires,slot⟩ := t
  cases slot with
  | tv1 i =>
    obtain ⟨hi,hle,hlt⟩ := h
    exact ⟨hi,by omega,by omega⟩
  | tvn n i =>
    obtain ⟨hn,hi,he,hlt,-,hstart⟩ := h
    exact ⟨hn,hi,he,by omega,hstart hn.2,fun h₀ => by omega⟩
  | queued => exact absurd rfl hq

theorem Holds.advance (h : Holds 4 w q) (hnone : w.head = none) :
    Holds 0 w.advance { q with now := q.now + 1, running := false } := by
  have hT : u32 (w.timerJiffies + 1) = u32 (q.now + 1) := by
    simp [h.timerJiffies,u32]
  have hi : (w.index 0 + 1) % 2 ^ 8 = (q.now + 1) % 2 ^ 8 := by
    rw [h.index_zero,Nat.mod_add_mod]
  have hdue (t : Entry) (d : ℕ) (hd : q.due t.id = some d) : d ≠ q.now := by
    rintro rfl
    exact h.not_due hnone _ hd
  have hindex (n : ℕ) : w.advance.index n =
      update w.index 0 ((w.index 0 + 1) % 2 ^ 8) n := by rw [Wheel.advance,readd_index]
  refine ⟨(readd_timerJiffies _ _).trans hT,readd_running _ _,?_,fun n h₁ h₄ => ?_,
    fun t ht => ?_,fun id hid => ?_⟩
  · rw [hindex,update_self,hi]
  · rw [hindex,update_of_ne (by omega),h.index n h₁ h₄,indexOf_succ h₁ h₄]
  · obtain ⟨ht,hne⟩ | ⟨u,hu,hslot,rfl⟩ := mem_readd.mp ht
    · obtain ⟨d,hd,hp⟩ := h.placed t ht
      exact ⟨d,hd,hp.succ (hdue t d hd) hne⟩
    · obtain ⟨d,hd,hp⟩ := h.placed u hu
      simp only [Placed,hslot] at hp
      obtain ⟨-,hle,⟨he,hlt⟩ | ⟨rfl,hpast⟩⟩ := hp
      · have hlt : d < q.now + 1 + 2 ^ 31 := by omega
        refine ⟨d,hd,?_⟩
        rw [he]
        exact placed_vec _ _ _ hT rfl hle hlt
      · exact ⟨q.now + 1,hd,placed_vec_past _ _ _ hT rfl hi hpast⟩
  · obtain ⟨t,ht,rfl⟩ := h.pending id hid
    exact exists_mem_readd ht

theorem Refines.step {a : Action} (h : Refines w q) (hl : Legal w a) (hs : step w a = some w') :
    ∃ q', Queue.Step q a q' ∧ Refines w' q' := by
  cases a with
  | tick =>
    cases hs
    exact ⟨q,.tick,h.timerJiffies,h.running,h.index_zero,h.index,h.placed,h.pending⟩
  | add id expires =>
    cases hs
    split_ifs with hp
    · exact ⟨q,.addTwice ((Holds.pending_iff h id).mp hp),h⟩
    · have hdue := not_not.mp fun hd => hp ((Holds.pending_iff h id).mpr hd)
      have hfresh : ∀ t ∈ w.entries, t.id ≠ id := by simpa [Wheel.pending] using hp
      exact ⟨_,.add hdue,h.internalAddTimer hfresh hl.1 hl.2⟩
  | mod id expires =>
    cases hs
    have hfresh : ∀ t ∈ (w.detachTimer id).entries, t.id ≠ id := by
      intro t ht
      exact of_decide_eq_true (mem_filter.mp ht).2
    have hset : (q.unset id).set id expires = q.set id expires := by
      simp only [Queue.set,Queue.unset,update_idem]
    refine ⟨_,.mod,?_⟩
    rw [← hset]
    exact (h.detachTimer id).internalAddTimer hfresh hl.1 hl.2
  | del id =>
    cases hs
    exact ⟨_,.del,h.detachTimer id⟩
  | startStep =>
    simp only [Timer.step] at hs
    split at hs
    · cases hs
    · rename_i hno
      have hr : q.running = false := by
        rw [← h.running]
        grind
      rw [Refines,hr] at h
      cases hs
      exact ⟨_,.startStep hr,(Holds.startStep h hr).setRunning⟩
  | run id =>
    simp only [Timer.step] at hs
    split at hs
    · rename_i t ht
      split_ifs at hs with hrun
      obtain ⟨-,rfl⟩ := hrun
      cases hs
      exact ⟨_,.run (Holds.due_head h ht),h.detachTimer _⟩
    · cases hs
  | endStep =>
    simp only [Timer.step] at hs
    split at hs
    · cases hs
    · rename_i hnone
      split_ifs at hs with hr
      rw [Refines,← h.running,hr] at h
      cases hs
      exact ⟨_,.endStep (Holds.not_due h hnone),Holds.advance h hnone⟩

theorem Refines.run {as : List Action} (h : Refines w q) (hm : Meets Timer.step Legal w as)
    (hr : run Timer.step w as = some w') : ∃ q', Queue.Run q as q' ∧ Refines w' q' := by
  induction as generalizing w q with
  | nil =>
    cases hr
    exact ⟨q,.nil,h⟩
  | cons a as ih =>
    obtain ⟨u,hu,hr⟩ := (run_cons_eq_some Timer.step).mp hr
    obtain ⟨r,hs,hr'⟩ := h.step hm.1 hu
    obtain ⟨q',hq,hw⟩ := ih hr' (hm.2 u hu) hr
    exact ⟨q',.cons hs hq,hw⟩

end

def emptyQueue : Queue := ⟨0,false,fun _ => none⟩

theorem refines_boot : Refines boot emptyQueue := by
  refine ⟨rfl,rfl,rfl,fun n h₁ h₄ => ?_,fun t ht => absurd ht not_mem_nil,
    fun id hid => absurd rfl hid⟩
  have hlt : 0 + span n - 1 < span n := by have := span_pos n; omega
  show 0 = indexOf 0 0 n
  rw [indexOf,if_neg (by omega),Nat.div_eq_of_lt hlt,Nat.zero_mod]

theorem onTime_empty : emptyQueue.OnTime := fun _ _ h => nomatch h

/-- In every run a timer that is set and left alone is run once, in the step that its time says or
the next one if that has been reached; until then it stays pending.  `timer_jiffies` counts the
steps.  A timer that is deleted is not run. -/
theorem timer_runs_once {pre post : List Action} {c : Action} {id : ℕ} {w₀ w : Wheel}
    (hm : Meets step Legal boot (pre ++ c :: post))
    (h₀ : run step boot pre = some w₀) (h : run step w₀ (c :: post) = some w)
    (hpost : ∀ a ∈ post, a.timer ≠ some id) :
    w₀.timerJiffies = u32 (pre.count .endStep) ∧
    (∀ expires, c = .mod id expires ∨ c = .add id expires ∧ w₀.pending id = false →
      (w.pending id = true ∧ .run id ∉ post ∧
        (pre ++ post).count .endStep ≤ dueOf (pre.count .endStep) w₀.running expires) ∨
      (w.pending id = false ∧ ∃ l₁ l₂, post = l₁ ++ .run id :: l₂ ∧ .run id ∉ l₁ ∧
        .run id ∉ l₂ ∧
        (pre ++ l₁).count .endStep = dueOf (pre.count .endStep) w₀.running expires)) ∧
    (c = .del id → w.pending id = false ∧ .run id ∉ post) := by
  obtain ⟨hm₀,hm⟩ := hm.append
  obtain ⟨q₀,hq₀,hw₀⟩ := refines_boot.run hm₀ h₀
  obtain ⟨q,hq,hw⟩ := hw₀.run (hm w₀ h₀) h
  have hnow := hq₀.now.trans (zero_add _)
  have hrun := hw₀.running.symm
  have hpend (hnone : q.due id = none) : w.pending id = false :=
    Bool.eq_false_iff.mpr fun hp => (Holds.pending_iff hw id).mp hp hnone
  obtain ⟨r,hs,hq⟩ := hq.of_cons
  refine ⟨hnow ▸ hw₀.timerJiffies,fun expires hc => ?_,?_⟩
  · have hset : c = .mod id expires ∨ c = .add id expires ∧ q₀.due id = none := by
      refine hc.imp_right fun ⟨hc,hp⟩ => ⟨hc,not_not.mp fun hd => ?_⟩
      simp [(Holds.pending_iff hw₀ id).mpr hd] at hp
    obtain ⟨hnow',hdue⟩ := hs.due_of_set hset
    have hcount (l : List Action) : (pre ++ l).count .endStep = r.now + l.count .endStep := by
      rw [count_append,hnow',hnow]
    rw [hnow,hrun] at hdue
    simp only [hcount]
    obtain ⟨h₁,h₂⟩ | ⟨h₁,h₂⟩ := hq.once ((onTime_empty.run hq₀).step hs) hdue hpost
    · exact Or.inl ⟨(Holds.pending_iff hw id).mpr (by simp [h₁]),h₂⟩
    · grind
  · rintro rfl
    cases hs with
    | del =>
      obtain ⟨h₁,h₂⟩ := hq.not_run (update_self _ _ _) hpost
      exact ⟨hpend h₁,h₂⟩

/-- Timer 7, set for step 1, sets itself again for a step that has been reached while it runs. -/
theorem timer_runs_once_again : ∃ w₀ w,
    run step boot [.add 7 1,.startStep,.endStep,.tick,.startStep,.run 7] = some w₀ ∧
    run step w₀ [.add 7 0,.mod 8 300,.endStep,.tick,.startStep,.run 7] = some w ∧
    w₀.timerJiffies = u32 1 ∧ w.pending 7 = false := by
  obtain ⟨w₀,h₀⟩ : ∃ w₀, run step boot
      [.add 7 1,.startStep,.endStep,.tick,.startStep,.run 7] = some w₀ := ⟨_,rfl⟩
  obtain ⟨w,hw⟩ : ∃ w, run step w₀
      [.add 7 0,.mod 8 300,.endStep,.tick,.startStep,.run 7] = some w := by
    cases h₀
    exact ⟨_,rfl⟩
  have hpend : w₀.pending 7 = false := by
    cases h₀
    rfl
  have ⟨hT,hset,_⟩ := @timer_runs_once _ _ _ 7 _ _ (by decide +kernel) h₀ hw (by decide)
  refine ⟨w₀,w,h₀,hw,hT,?_⟩
  obtain ⟨-,hnot,-⟩ | ⟨hp,-⟩ := hset 0 (Or.inr ⟨rfl,hpend⟩)
  · grind
  · exact hp

/-- The wheel and its cascades do what a plain queue of due times does, and no timer is missed. -/
theorem wheel_refines {as : List Action} {w : Wheel} (hm : Meets step Legal boot as)
    (hr : run step boot as = some w) :
    ∃ q, Queue.Run emptyQueue as q ∧ q.OnTime ∧ w.timerJiffies = u32 q.now ∧
      ∀ id, w.pending id = true ↔ q.due id ≠ none := by
  obtain ⟨q,hq,hw⟩ := refines_boot.run hm hr
  exact ⟨q,hq,onTime_empty.run hq,hw.timerJiffies,Holds.pending_iff hw⟩

theorem wheel_refines_step : ∃ w q, run step boot [.add 7 1,.startStep,.endStep] = some w ∧
    Queue.Run emptyQueue [.add 7 1,.startStep,.endStep] q ∧ w.timerJiffies = u32 q.now := by
  obtain ⟨q,hq,-,hw,-⟩ := @wheel_refines [.add 7 1,.startStep,.endStep] _ (by decide +kernel) rfl
  exact ⟨_,q,rfl,hq,hw⟩

end Simpad.Timer
