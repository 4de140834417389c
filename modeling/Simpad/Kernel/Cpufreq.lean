import Mathlib.Tactic

namespace Simpad.Cpufreq

/-- `cclk_frequency_100khz`. -/
def cclkFrequency : List ℕ :=
  [590,737,885,1032,1180,1327,1475,1622,1769,1917,2064,2212,2359,2507,2654,2802]

/-- The loop of `sa11x0_freq_to_ppcr` from `i` on. -/
def ppcrLoop (khz : ℕ) : ℕ → ℕ
  | 0 => 0
  | i + 1 => if cclkFrequency.getD (i + 1) 0 ≤ khz then i + 1 else ppcrLoop khz i

def freqToPpcr (khz : ℕ) : ℕ := ppcrLoop (khz / 100) 15

def validatespeed (khz : ℕ) : ℕ := cclkFrequency.getD (freqToPpcr khz) 0 * 100

structure Minmax where
  minFreq : ℕ
  maxFreq : ℕ
  curFreq : ℕ
  newFreq : ℕ

/-- `notifier_call_chain` with `CPUFREQ_MINMAX`. -/
def callChain (notifiers : List (Minmax → Minmax)) (m : Minmax) : Minmax :=
  notifiers.foldl (fun m f => f m) m

/-- The request after the limits. -/
def Minmax.clamp (m : Minmax) (freq : ℕ) : ℕ :=
  let freq := if freq < m.minFreq then m.minFreq else freq
  if m.maxFreq < freq then m.maxFreq else freq

/-- The frequency that `cpufreq_set` chooses on a CPU with the limits `lo` and `hi`, running at
`cur`. -/
def cpufreqSet (notifiers : List (Minmax → Minmax)) (lo hi cur freq : ℕ) : ℕ :=
  validatespeed ((callChain notifiers ⟨lo,hi,cur,freq⟩).clamp freq)

theorem ppcrLoop_spec (khz n : ℕ) :
    ppcrLoop khz n ≤ n ∧ (ppcrLoop khz n = 0 ∨ cclkFrequency.getD (ppcrLoop khz n) 0 ≤ khz) ∧
      ∀ i ≤ n, ppcrLoop khz n < i → khz < cclkFrequency.getD i 0 := by
  induction n with
  | zero => exact ⟨le_rfl,.inl rfl,fun i hi hlt => absurd hlt (by omega)⟩
  | succ n ih =>
    rw [ppcrLoop]
    split_ifs with hc
    · grind
    · obtain ⟨hle,hfreq,hmore⟩ := ih
      refine ⟨Nat.le_succ_of_le hle,hfreq,fun i hi hlt => ?_⟩
      obtain rfl | hi := hi.eq_or_lt
      · omega
      · exact hmore i (Nat.le_of_lt_succ hi) hlt

theorem cclkFrequency_mono : ∀ k < 16, ∀ i ≤ k,
    cclkFrequency.getD i 0 ≤ cclkFrequency.getD k 0 ∧ (0 < i → 590 < cclkFrequency.getD i 0) := by
  decide

theorem mem_cclkFrequency {v : ℕ} : v ∈ cclkFrequency ↔ ∃ i < 16, cclkFrequency.getD i 0 = v := by
  rw [List.mem_iff_getElem]
  constructor
  · rintro ⟨i,hi,rfl⟩
    exact ⟨i,hi,by simp [hi]⟩
  · rintro ⟨i,hi,rfl⟩
    have hlen : i < cclkFrequency.length := hi
    exact ⟨i,hlen,by simp [hlen]⟩

/-- The largest speed of the table up to the request, and the first one if there is none. -/
theorem validatespeed_spec (khz : ℕ) :
    (∃ v ∈ cclkFrequency, validatespeed khz = v * 100) ∧ validatespeed khz ≤ max khz 59000 ∧
      ∀ v ∈ cclkFrequency, v * 100 ≤ max khz 59000 → v * 100 ≤ validatespeed khz := by
  obtain ⟨hle,hfreq,hmore⟩ := ppcrLoop_spec (khz / 100) 15
  rw [validatespeed,freqToPpcr]
  generalize ppcrLoop (khz / 100) 15 = k at *
  refine ⟨⟨_,mem_cclkFrequency.mpr ⟨k,by omega,rfl⟩,rfl⟩,?_,?_⟩
  · obtain rfl | hk := hfreq
    · exact le_max_right _ _
    · exact le_max_of_le_left (by omega)
  · rintro v hv hmax
    obtain ⟨i,hi,rfl⟩ := mem_cclkFrequency.mp hv
    refine Nat.mul_le_mul_right 100 ?_
    by_cases hik : i ≤ k
    · exact (cclkFrequency_mono k (by omega) i hik).1
    · have hlow := (cclkFrequency_mono i hi i le_rfl).2 (by omega)
      have hhigh := hmore i (by omega) (by omega)
      omega

variable {notifiers : List (Minmax → Minmax)} {lo hi cur freq : ℕ} {m : Minmax}

theorem clamp_le (h : m.minFreq ≤ m.maxFreq) : m.minFreq ≤ m.clamp freq ∧ m.clamp freq ≤ m.maxFreq := by
  simp only [Minmax.clamp]
  split_ifs <;> omega

/-- The limits hold just if a speed of the table lies between the lower limit and the request as it
was clamped, or the request is below the table. -/
theorem cpufreqSet_limits_iff (hm : callChain notifiers ⟨lo,hi,cur,freq⟩ = m)
    (hspeed : ∃ v ∈ cclkFrequency, m.minFreq ≤ v * 100 ∧ v * 100 ≤ m.maxFreq) :
    (m.minFreq ≤ cpufreqSet notifiers lo hi cur freq ∧
        cpufreqSet notifiers lo hi cur freq ≤ m.maxFreq) ↔
      ∃ v ∈ cclkFrequency, m.minFreq ≤ v * 100 ∧ v * 100 ≤ max (m.clamp freq) 59000 := by
  obtain ⟨v,hv,hlo,hhi⟩ := hspeed
  obtain ⟨-,hclamp⟩ := @clamp_le freq m (hlo.trans hhi)
  have hfirst : 59000 ≤ v * 100 := by
    have hall : ∀ v ∈ cclkFrequency, 590 ≤ v := by decide
    have := hall v hv
    omega
  obtain ⟨⟨w,hw,heq⟩,hle,hmax⟩ := validatespeed_spec (m.clamp freq)
  rw [cpufreqSet,hm]
  constructor
  · grind
  · grind

/-- A device that needs 100 MHz. -/
def needs100 : List (Minmax → Minmax) := [fun m => { m with minFreq := max m.minFreq 100000 }]

theorem cpufreqSet_limits_met :
    callChain needs100 ⟨59000,287000,59000,110000⟩ = ⟨100000,287000,59000,110000⟩ ∧
      100000 ≤ cpufreqSet needs100 59000 287000 59000 110000 := by
  have h := @cpufreqSet_limits_iff needs100 59000 287000 59000 110000 _ rfl
    ⟨1032,by decide,by decide,by decide⟩
  exact ⟨rfl,(h.mpr ⟨1032,by decide,by decide,by decide⟩).1⟩

/-- At a request of 59 MHz it runs at 88.5 MHz, although there is a speed of 103.2 MHz. -/
theorem cpufreqSet_below_limit :
    (callChain needs100 ⟨59000,287000,59000,59000⟩).minFreq = 100000 ∧ 1032 ∈ cclkFrequency ∧
      cpufreqSet needs100 59000 287000 59000 59000 = 88500 := by
  decide

end Simpad.Cpufreq
