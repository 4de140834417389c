import Mathlib.Tactic

/-!
# Binary range coding

An interval `[q,q+p)` of a register of `w + 1` bits.  It is doubled as long as it
lies in one half of the register, each time with the top bit written out, and cut
in two for each symbol.  What is written, with the register at the end, is a
number in every interval on the way.
-/

namespace RangeCoder

open List

/-- The first `w` bits of a stream as a number; behind its end there are zeros. -/
def window : ℕ → List Bool → ℕ
  | 0, _ => 0
  | w + 1, [] => 2 * window w []
  | w + 1, b :: bs => b.toNat * 2 ^ w + window w bs

/-- The top bits of a register of `w + 1` bits, shifted out one by one. -/
def flush (w : ℕ) : ℕ → ℕ → List Bool
  | 0, _ => []
  | k + 1, q => decide (2 ^ w ≤ q) :: flush w k (q % 2 ^ w * 2)

theorem window_nil (w : ℕ) : window w [] = 0 := by
  induction w with
  | zero => rfl
  | succ w ih => rw [window,ih]

theorem window_lt (w : ℕ) (bs : List Bool) : window w bs < 2 ^ w := by
  induction w generalizing bs with
  | zero => exact Nat.one_pos
  | succ w ih =>
    cases bs with
    | nil =>
      simp [window_nil]
    | cons b bs =>
      have h := ih bs
      have hb : b.toNat ≤ 1 := b.toNat_le
      have hmul : b.toNat * 2 ^ w ≤ 1 * 2 ^ w := Nat.mul_le_mul_right _ hb
      rw [window,pow_succ]
      omega

theorem window_succ (w : ℕ) (bs : List Bool) :
    window (w + 1) bs = 2 * window w bs + (bs.getD w false).toNat := by
  induction w generalizing bs with
  | zero =>
    cases bs with
    | nil => rfl
    | cons b bs => simp [window]
  | succ w ih =>
    cases bs with
    | nil => simp [window_nil]
    | cons b bs =>
      have h := ih bs
      rw [window,h,window,getD_cons_succ,pow_succ]
      ring

theorem window_cons (w : ℕ) (b : Bool) (bs : List Bool) :
    window (w + 1) (b :: bs) = b.toNat * 2 ^ w + window (w + 1) bs / 2 := by
  have h := window_succ w bs
  have hb : (bs.getD w false).toNat ≤ 1 := Bool.toNat_le _
  rw [window,h]
  omega

/-- How a register moves along a stream. -/
theorem window_tail (w : ℕ) (b : Bool) (bs : List Bool) :
    window (w + 1) bs =
      window (w + 1) (b :: bs) % 2 ^ w * 2 + (bs.getD w false).toNat := by
  have hlt := window_lt w bs
  rw [window,mul_comm b.toNat,Nat.mul_add_mod,Nat.mod_eq_of_lt hlt,window_succ]
  omega

theorem length_flush (w k q : ℕ) : (flush w k q).length = k := by
  induction k generalizing q with
  | zero => rfl
  | succ k ih => rw [flush,length_cons,ih]

theorem window_flush {w k : ℕ} (hk : k ≤ w + 1) {q : ℕ} (hq : q < 2 ^ (w + 1)) (bs : List Bool) :
    window k (flush w k q ++ bs) = q / 2 ^ (w + 1 - k) := by
  induction k generalizing q with
  | zero =>
    exact (Nat.div_eq_of_lt hq).symm
  | succ k ih =>
    have hnext : q % 2 ^ w * 2 < 2 ^ (w + 1) := by
      omega
    -- the rest of the register, without the zeros that have come in from below
    have hrest : q % 2 ^ w * 2 / 2 ^ (w + 1 - k) = q % 2 ^ w / 2 ^ (w - k) := by
      rw [show w + 1 - k = (w - k) + 1 by omega,pow_succ,Nat.mul_div_mul_right _ _ (by decide)]
    have htop : q = (decide (2 ^ w ≤ q)).toNat * 2 ^ w + q % 2 ^ w := by
      by_cases h : 2 ^ w ≤ q
      · rw [Nat.mod_eq_sub_mod h,Nat.mod_eq_of_lt (by omega)]
        grind
      · rw [Nat.mod_eq_of_lt (by omega)]
        simp [h]
    have hpow : 2 ^ w = 2 ^ k * 2 ^ (w - k) := by
      rw [← pow_add]
      congr 1
      omega
    rw [flush,cons_append,window,ih (by omega) hnext,hrest,Nat.add_sub_add_right]
    conv_rhs => rw [htop,hpow,← mul_assoc,mul_comm _ (2 ^ (w - k)),
      Nat.mul_add_div (Nat.two_pow_pos _)]
    rw [hpow]

/-- An interval. -/
structure Iv where
  q : ℕ
  p : ℕ
deriving DecidableEq

/-- It is not empty and within the register. -/
def Iv.Valid (w : ℕ) (s : Iv) : Prop := 0 < s.p ∧ s.q + s.p ≤ 2 ^ (w + 1)

/-- It lies in one half of the register. -/
def Iv.Half (w : ℕ) (s : Iv) : Prop := 2 ^ w ≤ s.q ∨ s.p + s.q ≤ 2 ^ w

instance (w : ℕ) (s : Iv) : Decidable (s.Half w) := inferInstanceAs (Decidable (_ ∨ _))

/-- The half is doubled; its top bit is dropped. -/
def Iv.shift (w : ℕ) (s : Iv) : Iv := ⟨s.q % 2 ^ w * 2,s.p * 2⟩

/-- One of the two parts of the interval. -/
def Iv.part (cut : ℕ) (symbol : Bool) (s : Iv) : Iv :=
  if symbol then ⟨s.q + cut,s.p - cut⟩ else ⟨s.q,cut⟩

/-- A register value lies in the interval. -/
def Iv.Has (s : Iv) (x : ℕ) : Prop := s.q ≤ x ∧ x < s.q + s.p

variable {x cut : ℕ}

section
variable {w : ℕ} {s : Iv}

theorem Iv.shift_q (h : s.Valid w) :
    (s.shift w).q + (decide (2 ^ w ≤ s.q)).toNat * 2 ^ w * 2 = s.q * 2 := by
  obtain ⟨hp,hle⟩ := h
  show s.q % 2 ^ w * 2 + _ = _
  by_cases hq : 2 ^ w ≤ s.q
  · rw [Nat.mod_eq_sub_mod hq,Nat.mod_eq_of_lt (by omega)]
    grind
  · rw [Nat.mod_eq_of_lt (by omega)]
    simp [hq]

theorem Iv.Valid.shift (h : s.Valid w) (hh : s.Half w) : (s.shift w).Valid w := by
  have hq := Iv.shift_q h
  obtain ⟨hp,hle⟩ := h
  have hp' : (s.shift w).p = s.p * 2 := rfl
  refine ⟨by omega,?_⟩
  by_cases ht : 2 ^ w ≤ s.q
  · grind
  · have := hh.resolve_left ht
    omega

/-- The register in front of a shift, from the one behind it. -/
theorem Iv.has_of_shift (h : s.Valid w) (hx : (s.shift w).Has x) :
    s.Has ((decide (2 ^ w ≤ s.q)).toNat * 2 ^ w + x / 2) := by
  have hq := Iv.shift_q h
  have hp' : (s.shift w).p = s.p * 2 := rfl
  obtain ⟨hlo,hhi⟩ := hx
  exact ⟨by omega,by omega⟩

theorem Iv.two_le (hh : ¬s.Half w) : 2 ≤ s.p := by
  unfold Iv.Half at hh
  omega

theorem Iv.Valid.part (h : s.Valid w) (h0 : 0 < cut) (hc : cut < s.p) (symbol : Bool) :
    (s.part cut symbol).Valid w := by
  obtain ⟨hp,hle⟩ := h
  cases symbol with
  | false => exact ⟨h0,(show s.q + cut ≤ _ by omega)⟩
  | true => exact ⟨(show 0 < s.p - cut by omega),(show s.q + cut + (s.p - cut) ≤ _ by omega)⟩

theorem Iv.has_of_part (hc : cut < s.p) {symbol : Bool} (hx : (s.part cut symbol).Has x) :
    s.Has x := by
  cases symbol with
  | false =>
    obtain ⟨hlo,hhi⟩ : s.q ≤ x ∧ x < s.q + cut := hx
    exact ⟨hlo,by omega⟩
  | true =>
    obtain ⟨hlo,hhi⟩ : s.q + cut ≤ x ∧ x < s.q + cut + (s.p - cut) := hx
    exact ⟨by omega,by omega⟩

/-- A value tells which part it is in. -/
theorem Iv.part_symbol {symbol : Bool} (hx : (s.part cut symbol).Has x) :
    decide (s.q + cut ≤ x) = symbol := by
  cases symbol with
  | false => exact decide_eq_false (not_le.mpr hx.2)
  | true => exact decide_eq_true hx.1

end

/-- Shift as long as the interval lies in one half, at most `n` times: what is written, and the
interval then. -/
def renorm (w : ℕ) : ℕ → Iv → List Bool × Iv
  | 0, s => ([],s)
  | n + 1, s =>
    if s.Half w then
      let r := renorm w n (s.shift w)
      (decide (2 ^ w ≤ s.q) :: r.1,r.2)
    else ([],s)

section
variable {w n : ℕ} {s : Iv}

theorem renorm_valid (h : s.Valid w) : (renorm w n s).2.Valid w := by
  induction n generalizing s with
  | zero => exact h
  | succ n ih =>
    rw [renorm]
    split
    · next hh => exact ih (h.shift hh)
    · exact h

theorem renorm_not_half (h : s.Valid w) (hn : 2 ^ (w + 1) < s.p * 2 ^ n) :
    ¬(renorm w n s).2.Half w := by
  induction n generalizing s with
  | zero =>
    obtain ⟨-,hle⟩ := h
    omega
  | succ n ih =>
    rw [renorm]
    split
    · next hh =>
      refine ih (h.shift hh) ?_
      show _ < s.p * 2 * 2 ^ n
      grind
    · next hh => exact hh

/-- What is written in front of a stream that lies in the interval behind. -/
theorem has_window_renorm (h : s.Valid w) {bs : List Bool}
    (hbs : (renorm w n s).2.Has (window (w + 1) bs)) :
    s.Has (window (w + 1) ((renorm w n s).1 ++ bs)) := by
  induction n generalizing s with
  | zero => exact hbs
  | succ n ih =>
    rw [renorm] at hbs ⊢
    split
    · next hh =>
      rw [if_pos hh] at hbs
      rw [cons_append,window_cons]
      exact Iv.has_of_shift h (ih (h.shift hh) hbs)
    · grind

end

/-- A symbol with the rule that cuts the interval for it. -/
structure Sym where
  cut : ℕ → ℕ
  symbol : Bool

/-- The cut leaves two parts. -/
def Sym.Cuts (c : Sym) : Prop := ∀ p, 2 ≤ p → 0 < c.cut p ∧ c.cut p < p

/-- What is written for the symbols, and the interval then. -/
def emit (w n : ℕ) : List Sym → Iv → List Bool × Iv
  | [], s => ([],s)
  | c :: cs, s =>
    let r := renorm w n s
    let t := emit w n cs (r.2.part (c.cut r.2.p) c.symbol)
    (r.1 ++ t.1,t.2)

/-- All that is written, with the register at the end. -/
def stream (w n : ℕ) (cs : List Sym) (s : Iv) : List Bool :=
  (emit w n cs s).1 ++ flush w (w + 1) (emit w n cs s).2.q

section
variable {w n : ℕ} {s : Iv} {cs ds : List Sym}

theorem emit_append : emit w n (cs ++ ds) s =
    ((emit w n cs s).1 ++ (emit w n ds (emit w n cs s).2).1,(emit w n ds (emit w n cs s).2).2) := by
  induction cs generalizing s with
  | nil => rfl
  | cons c cs ih =>
    simp [cons_append,emit,ih,append_assoc]

theorem stream_cons (c : Sym) :
    stream w n (c :: cs) s = (renorm w n s).1 ++
      stream w n cs ((renorm w n s).2.part (c.cut (renorm w n s).2.p) c.symbol) := by
  simp [stream,emit,append_assoc]

/-- The interval for the first symbol can be cut, and the parts are valid. -/
theorem part_valid (hn : w + 1 < n) (h : s.Valid w) {c : Sym} (hc : c.Cuts) :
    c.cut (renorm w n s).2.p < (renorm w n s).2.p ∧
      ((renorm w n s).2.part (c.cut (renorm w n s).2.p) c.symbol).Valid w := by
  have hv : (renorm w n s).2.Valid w := renorm_valid h
  have hpow : 2 ^ (w + 1) < s.p * 2 ^ n := by
    have hlt : 2 ^ (w + 1) < 2 ^ n := Nat.pow_lt_pow_right (by decide) hn
    exact lt_of_lt_of_le hlt (Nat.le_mul_of_pos_left _ h.1)
  obtain ⟨h0,hlt⟩ := hc _ (Iv.two_le (renorm_not_half h hpow))
  exact ⟨hlt,hv.part h0 hlt c.symbol⟩

theorem emit_valid (hn : w + 1 < n) (h : s.Valid w) (hc : ∀ c ∈ cs, c.Cuts) :
    (emit w n cs s).2.Valid w := by
  induction cs generalizing s with
  | nil => exact h
  | cons c cs ih =>
    obtain ⟨hcut,hcs⟩ := forall_mem_cons.mp hc
    exact ih (part_valid hn h hcut).2 hcs

/-- The stream is a number in the interval it starts from. -/
theorem has_window_stream (hn : w + 1 < n) (h : s.Valid w) (hc : ∀ c ∈ cs, c.Cuts)
    (tail : List Bool) : s.Has (window (w + 1) (stream w n cs s ++ tail)) := by
  induction cs generalizing s with
  | nil =>
    have hq : s.q < 2 ^ (w + 1) := by
      have h0 := h.1
      have hle := h.2
      omega
    have hnil : stream w n [] s = flush w (w + 1) s.q := rfl
    rw [hnil,window_flush le_rfl hq,Nat.sub_self,pow_zero,Nat.div_one]
    exact ⟨le_rfl,Nat.lt_add_of_pos_right h.1⟩
  | cons c cs ih =>
    obtain ⟨hcut,hcs⟩ := forall_mem_cons.mp hc
    obtain ⟨hlt,hpart⟩ := part_valid hn h hcut
    rw [stream_cons,append_assoc]
    exact has_window_renorm h (Iv.has_of_part hlt (ih hpart hcs))

/-- Decode one symbol: the register is the window on what is left of the stream. -/
def decodeOne (w n : ℕ) (cut : ℕ → ℕ) (s : Iv) (bs : List Bool) : Bool × Iv × List Bool :=
  let r := renorm w n s
  let bs := bs.drop r.1.length
  let symbol := decide (r.2.q + cut r.2.p ≤ window (w + 1) bs)
  (symbol,r.2.part (cut r.2.p) symbol,bs)

/-- The decoder finds the symbol, and is where the encoder was behind it. -/
theorem decodeOne_stream (hn : w + 1 < n) (h : s.Valid w) {c : Sym} (hc : ∀ d ∈ c :: cs, d.Cuts)
    (tail : List Bool) :
    decodeOne w n c.cut s (stream w n (c :: cs) s ++ tail) =
      (c.symbol,(renorm w n s).2.part (c.cut (renorm w n s).2.p) c.symbol,
        stream w n cs ((renorm w n s).2.part (c.cut (renorm w n s).2.p) c.symbol) ++ tail) := by
  obtain ⟨hcut,hcs⟩ := forall_mem_cons.mp hc
  obtain ⟨-,hpart⟩ := part_valid hn h hcut
  have hsym := Iv.part_symbol (has_window_stream hn hpart hcs tail)
  rw [decodeOne,stream_cons,append_assoc,drop_left,hsym]

end

end RangeCoder
