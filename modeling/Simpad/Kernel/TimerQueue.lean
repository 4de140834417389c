import Simpad.Kernel.Timer

namespace Simpad.Timer
open Word List Function

/-- The step in which a timer set in step `now` has to run: when its time comes, or in the next step
that is still to be processed if that has been reached. -/
def dueOf (now : ℕ) (running : Bool) (expires : ℕ) : ℕ :=
  let next := if running then now + 1 else now
  let ahead := sub32 expires (u32 now)
  if ahead < 2 ^ 31 then max (now + ahead) next else next

def Action.timer : Action → Option ℕ
  | .add id _ => some id
  | .mod id _ => some id
  | .del id => some id
  | _ => none

structure Queue where
  now : ℕ
  running : Bool
  due : ℕ → Option ℕ

namespace Queue

def set (q : Queue) (id expires : ℕ) : Queue :=
  { q with due := update q.due id (some (dueOf q.now q.running expires)) }

def unset (q : Queue) (id : ℕ) : Queue := { q with due := update q.due id none }

/-- A timer runs in its step only, and a step does not end before all its timers have run. -/
inductive Step (q : Queue) : Action → Queue → Prop
  | tick : Step q .tick q
  | add {id expires : ℕ} : q.due id = none → Step q (.add id expires) (q.set id expires)
  | addTwice {id expires : ℕ} : q.due id ≠ none → Step q (.add id expires) q
  | mod {id expires : ℕ} : Step q (.mod id expires) (q.set id expires)
  | del {id : ℕ} : Step q (.del id) (q.unset id)
  | startStep : q.running = false → Step q .startStep { q with running := true }
  | run {id : ℕ} : q.due id = some q.now → Step q (.run id) (q.unset id)
  | endStep : (∀ id, q.due id ≠ some q.now) →
      Step q .endStep { q with now := q.now + 1, running := false }

inductive Run : Queue → List Action → Queue → Prop
  | nil {q : Queue} : Run q [] q
  | cons {q r s : Queue} {a : Action} {as : List Action} :
      Step q a r → Run r as s → Run q (a :: as) s

/-- No timer has been missed. -/
def OnTime (q : Queue) : Prop := ∀ id d, q.due id = some d → q.now ≤ d

variable {q r s : Queue} {a : Action} {as : List Action} {id d : ℕ}

theorem le_dueOf (now : ℕ) (running : Bool) (expires : ℕ) : now ≤ dueOf now running expires := by
  simp only [dueOf]
  split_ifs <;> omega

theorem OnTime.set (h : q.OnTime) (id expires : ℕ) : (q.set id expires).OnTime := by
  intro j d hj
  by_cases he : j = id
  · subst he
    simp only [Queue.set,update_self,Option.some.injEq] at hj
    exact hj ▸ le_dueOf q.now q.running expires
  · exact h j d (by simpa [Queue.set,he] using hj)

theorem OnTime.unset (h : q.OnTime) (id : ℕ) : (q.unset id).OnTime := by
  intro j d hj
  by_cases he : j = id
  · simp [Queue.unset,he] at hj
  · exact h j d (by simpa [Queue.unset,he] using hj)

theorem OnTime.step (h : q.OnTime) (hs : Step q a r) : r.OnTime := by
  cases hs with
  | tick | addTwice | startStep => exact h
  | add | mod => exact h.set _ _
  | del | run => exact h.unset _
  | endStep hnone =>
    intro id d hd
    have hne : d ≠ q.now := fun he => hnone id (he ▸ hd)
    have := h id d hd
    show q.now + 1 ≤ d
    omega

theorem OnTime.run (h : q.OnTime) (hr : Run q as s) : s.OnTime := by
  induction hr with
  | nil => exact h
  | cons hs _ ih => exact ih (h.step hs)

theorem Step.now_add (hs : Step q a r) (l : List Action) :
    r.now + l.count .endStep = q.now + (a :: l).count .endStep := by
  have hnow : r.now = q.now + [a].count .endStep := by cases hs <;> rfl
  grind

theorem Run.now (hr : Run q as s) : s.now = q.now + as.count .endStep := by
  induction hr with
  | nil => rfl
  | cons hs _ ih => exact ih.trans (hs.now_add _)

theorem Run.of_cons (hr : Run q (a :: as) s) : ∃ r, Step q a r ∧ Run r as s := by
  cases hr with
  | cons hs hr => exact ⟨_,hs,hr⟩

theorem Step.due_eq (hs : Step q a r) (hid : a.timer ≠ some id) (hne : a ≠ .run id) :
    r.due id = q.due id := by
  have hset {j : ℕ} (h : j ≠ id) (v : Option ℕ) : update q.due j v id = q.due id :=
    update_of_ne (Ne.symm h) _ _
  cases hs with
  | add | mod | del => exact hset (fun h => hid (congrArg some h)) _
  | run => exact hset (fun h => hne (congrArg Action.run h)) _
  | _ => rfl

theorem Step.due_of_set {expires : ℕ} (hs : Step q a r)
    (ha : a = .mod id expires ∨ a = .add id expires ∧ q.due id = none) :
    r.now = q.now ∧ r.due id = some (dueOf q.now q.running expires) := by
  obtain rfl | ⟨rfl,hnone⟩ := ha
  · cases hs with
    | mod => exact ⟨rfl,update_self _ _ _⟩
  · cases hs with
    | add => exact ⟨rfl,update_self _ _ _⟩
    | addTwice hsome => exact absurd hnone hsome

theorem Run.not_run (hr : Run q as s) (hd : q.due id = none)
    (hid : ∀ a ∈ as, a.timer ≠ some id) : s.due id = none ∧ .run id ∉ as := by
  induction hr with
  | nil => exact ⟨hd,not_mem_nil⟩
  | @cons q r s a as hs _ ih =>
    have hne : a ≠ .run id := by
      rintro rfl
      cases hs with
      | run h => simp [hd] at h
    have hr := (hs.due_eq (hid a mem_cons_self) hne).trans hd
    have ⟨h₁,h₂⟩ := ih hr fun b hb => hid b (mem_cons_of_mem _ hb)
    grind

/-- A pending timer that is left alone waits for its step, and runs once. -/
theorem Run.once (hr : Run q as s) (hon : q.OnTime) (hd : q.due id = some d)
    (hid : ∀ a ∈ as, a.timer ≠ some id) :
    (s.due id = some d ∧ .run id ∉ as ∧ q.now + as.count .endStep ≤ d) ∨
    (s.due id = none ∧ ∃ l₁ l₂, as = l₁ ++ .run id :: l₂ ∧ .run id ∉ l₁ ∧ .run id ∉ l₂ ∧
      q.now + l₁.count .endStep = d) := by
  induction hr with
  | nil => exact Or.inl ⟨hd,not_mem_nil,hon id d hd⟩
  | @cons q r s a as hs hr ih =>
    have hrest : ∀ b ∈ as, b.timer ≠ some id := fun b hb => hid b (mem_cons_of_mem _ hb)
    by_cases hrun : a = .run id
    · subst hrun
      cases hs with
      | run h =>
        have hnow : q.now = d := by simpa [hd] using h.symm
        have ⟨h₁,h₂⟩ := hr.not_run (by simp [unset]) hrest
        exact Or.inr ⟨h₁,[],as,rfl,not_mem_nil,h₂,hnow⟩
    · have hd' := (hs.due_eq (hid a mem_cons_self) hrun).trans hd
      have hnot {l : List Action} (h : .run id ∉ l) : .run id ∉ a :: l :=
        not_mem_cons_of_ne_of_not_mem (Ne.symm hrun) h
      obtain ⟨h₁,h₂,h₃⟩ | ⟨h₁,l₁,l₂,rfl,h₂,h₃,h₄⟩ := ih (hon.step hs) hd' hrest
      · exact Or.inl ⟨h₁,hnot h₂,hs.now_add as ▸ h₃⟩
      · exact Or.inr ⟨h₁,a :: l₁,l₂,rfl,hnot h₂,h₃,hs.now_add l₁ ▸ h₄⟩

end Queue
end Simpad.Timer
