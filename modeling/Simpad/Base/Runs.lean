import Mathlib.Tactic

/-!
# Runs of a partial step function

`Runs.run` folds a step function that may refuse an action over a list of
actions.  An invariant is proved once per step and transported to whole runs.
-/

namespace Runs

open List
variable {σ α : Type*} (step : σ → α → Option σ)

/-- Take the actions in turn; a refused action ends the run. -/
def run : σ → List α → Option σ
  | s, [] => some s
  | s, a :: as => (step s a).bind fun t => run t as

@[simp] theorem run_nil (s : σ) : run step s [] = some s := rfl

theorem run_cons_eq_some {s t : σ} {a : α} {as : List α} :
    run step s (a :: as) = some t ↔ ∃ u, step s a = some u ∧ run step u as = some t :=
  Option.bind_eq_some_iff

theorem run_append (s : σ) (as bs : List α) :
    run step s (as ++ bs) = (run step s as).bind fun t => run step t bs := by
  induction as generalizing s with
  | nil => rfl
  | cons a as ih =>
    simp only [cons_append,run,ih]
    cases step s a <;> rfl

/-- Every action of the run is taken in a state where `C` allows it. -/
def Meets (C : σ → α → Prop) : σ → List α → Prop
  | _, [] => True
  | s, a :: as => C s a ∧ ∀ t, step s a = some t → Meets C t as

instance decidableMeets {C : σ → α → Prop} [∀ s a, Decidable (C s a)] :
    (s : σ) → (as : List α) → Decidable (Meets step C s as)
  | _, [] => isTrue trivial
  | s, a :: as =>
    match h : step s a with
    | none => decidable_of_iff (C s a) (by simp [Meets,h])
    | some t =>
      have : Decidable (Meets step C t as) := decidableMeets t as
      decidable_of_iff (C s a ∧ Meets step C t as) (by simp [Meets,h])

theorem Meets.of_mem {C : σ → α → Prop} {as : List α} (h : ∀ a ∈ as, ∀ s, C s a) {s : σ} :
    Meets step C s as := by
  induction as generalizing s with
  | nil => trivial
  | cons a as ih =>
    exact ⟨h a mem_cons_self s,fun t _ => ih fun b hb => h b (mem_cons_of_mem _ hb)⟩

theorem Meets.append {C : σ → α → Prop} {s : σ} {as bs : List α}
    (h : Meets step C s (as ++ bs)) :
    Meets step C s as ∧ ∀ t, run step s as = some t → Meets step C t bs := by
  induction as generalizing s with
  | nil =>
    refine ⟨trivial,fun t ht => ?_⟩
    cases ht
    exact h
  | cons a as ih =>
    refine ⟨⟨h.1,fun t ht => (ih (h.2 t ht)).1⟩,fun t ht => ?_⟩
    obtain ⟨u,hu,ht⟩ := (run_cons_eq_some step).mp ht
    exact (ih (h.2 u hu)).2 t ht

/-- An invariant holds wherever a run that meets `C` takes an action. -/
theorem Meets.strengthen {Inv : σ → Prop} {C D : σ → α → Prop}
    (hstep : ∀ s a t, Inv s → C s a → step s a = some t → Inv t)
    (hD : ∀ s a, Inv s → C s a → D s a) {s : σ} {as : List α}
    (hs : Inv s) (hm : Meets step C s as) : Meets step D s as := by
  induction as generalizing s with
  | nil => trivial
  | cons a as ih => exact ⟨hD s a hs hm.1,fun t ht => ih (hstep s a t hs hm.1 ht) (hm.2 t ht)⟩

/-- The rule with a history: `g` folds the actions into a value that `Inv` speaks of. -/
theorem invariant_fold {β : Type*} {g : β → α → β} {Inv : β → σ → Prop} {C : σ → α → Prop}
    (hstep : ∀ b s a t, Inv b s → C s a → step s a = some t → Inv (g b a) t) {b : β} {s t : σ}
    {as : List α} (hs : Inv b s) (hm : Meets step C s as) (hr : run step s as = some t) :
    Inv (as.foldl g b) t := by
  induction as generalizing b s with
  | nil => cases hr; exact hs
  | cons a as ih =>
    obtain ⟨u,hu,hr⟩ := (run_cons_eq_some step).mp hr
    exact ih (hstep b s a u hs hm.1 hu) (hm.2 u hu) hr

theorem invariant {Inv : σ → Prop} {C : σ → α → Prop}
    (hstep : ∀ s a t, Inv s → C s a → step s a = some t → Inv t) {s t : σ} {as : List α}
    (hs : Inv s) (hm : Meets step C s as) (hr : run step s as = some t) : Inv t :=
  @invariant_fold σ α step Unit (fun b _ => b) (fun _ => Inv) C (fun _ => hstep) () s t as hs hm hr

/-- The rule with a history for steps that are never refused. -/
theorem run_fold {β : Type*} {g : β → α → β} {Inv : β → σ → Prop} {C : σ → α → Prop}
    (hstep : ∀ b s a, Inv b s → C s a → ∃ t, step s a = some t ∧ Inv (g b a) t) {b : β} {s : σ}
    {as : List α} (hs : Inv b s) (hm : Meets step C s as) :
    ∃ t, run step s as = some t ∧ Inv (as.foldl g b) t := by
  induction as generalizing b s with
  | nil => exact ⟨s,rfl,hs⟩
  | cons a as ih =>
    obtain ⟨u,hu,hi⟩ := hstep b s a hs hm.1
    obtain ⟨t,ht,hit⟩ := ih hi (hm.2 u hu)
    exact ⟨t,(run_cons_eq_some step).mpr ⟨u,hu,ht⟩,hit⟩

theorem exists_run {Inv : σ → Prop} {C : σ → α → Prop}
    (hstep : ∀ s a, Inv s → C s a → ∃ t, step s a = some t ∧ Inv t) {s : σ} {as : List α}
    (hs : Inv s) (hm : Meets step C s as) : ∃ t, run step s as = some t ∧ Inv t :=
  @run_fold σ α step Unit (fun b _ => b) (fun _ t => Inv t) C (fun _ => hstep) () s as hs hm

/-- The unconditional rule: what one step keeps, every run keeps. -/
theorem invariant_of_step {Inv : σ → Prop}
    (hstep : ∀ s a t, Inv s → step s a = some t → Inv t) {s t : σ} {as : List α}
    (hs : Inv s) (hr : run step s as = some t) : Inv t :=
  invariant step (C := fun _ _ => True) (fun s a t h _ => hstep s a t h) hs
    (Meets.of_mem step fun _ _ _ => trivial) hr

/-- If an allowed step keeps `Inv` and any other leads to a bad state, then the states are good all
along a run just when every step of it is allowed. -/
theorem always_iff {Inv Good : σ → Prop} {C : σ → α → Prop} (hgood : ∀ s, Inv s → Good s)
    (hstep : ∀ s a t, Inv s → C s a → step s a = some t → Inv t)
    (hbad : ∀ s a, Inv s → ¬C s a → ∃ t, step s a = some t ∧ ¬Good t) {s : σ} (hs : Inv s)
    {as : List α} :
    (∀ bs t, bs <+: as → run step s bs = some t → Good t) ↔ Meets step C s as := by
  constructor
  · intro h
    induction as generalizing s with
    | nil => trivial
    | cons a as ih =>
      have hC : C s a := by
        by_contra hn
        obtain ⟨t,ht,hnot⟩ := hbad s a hs hn
        exact hnot (h [a] t ((prefix_cons_inj a).mpr nil_prefix)
          ((run_cons_eq_some step).mpr ⟨t,ht,rfl⟩))
      refine ⟨hC,fun u hu => ih (hstep s a u hs hC hu) fun bs t hbs ht => ?_⟩
      exact h (a :: bs) t ((prefix_cons_inj a).mpr hbs) ((run_cons_eq_some step).mpr ⟨u,hu,ht⟩)
  · rintro hm bs t ⟨cs,rfl⟩ ht
    exact hgood t (invariant step hstep hs (Meets.append step hm).1 ht)

/-- The rule for states that are all the invariant there is. -/
theorem meets_iff {Inv : σ → Prop} {C : σ → α → Prop}
    (hstep : ∀ s a, Inv s → ∃ t, step s a = some t ∧ (Inv t ↔ C s a)) {s : σ} (hs : Inv s)
    {as : List α} :
    (∀ bs t, bs <+: as → run step s bs = some t → Inv t) ↔ Meets step C s as := by
  refine always_iff step (fun _ h => h) (fun s a t hs hC ht => ?_) (fun s a hs hC => ?_) hs
  · obtain ⟨u,hu,hiff⟩ := hstep s a hs
    cases hu.symm.trans ht
    exact hiff.mpr hC
  · obtain ⟨u,hu,hiff⟩ := hstep s a hs
    exact ⟨u,hu,fun h => hC (hiff.mp h)⟩

/-- Where just the allowed actions are taken, a run gets through just when all of them are. -/
theorem isSome_run_iff {Inv : σ → Prop} {C : σ → α → Prop}
    (hstep : ∀ s a t, Inv s → step s a = some t → Inv t)
    (hC : ∀ s a, Inv s → ((step s a).isSome ↔ C s a)) {s : σ} (hs : Inv s) {as : List α} :
    (run step s as).isSome ↔ Meets step C s as := by
  induction as generalizing s with
  | nil => exact iff_of_true rfl trivial
  | cons a as ih =>
    rw [Meets,← hC s a hs,run]
    cases ht : step s a with
    | none => exact iff_of_false Bool.false_ne_true fun h => Bool.false_ne_true h.1
    | some t =>
      rw [Option.bind_some,ih (hstep s a t hs ht)]
      exact ⟨fun h => ⟨rfl,fun u hu => Option.some.inj hu ▸ h⟩,fun h => h.2 t rfl⟩

end Runs
